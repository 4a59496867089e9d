import Mathlib.Algebra.BigOperators.Group.Finset.Basic
import Mathlib.Data.List.Chain
import Mathlib.Data.List.Perm.Subperm

/-! Finite tables of links to parents, over any keys: the keys from which the links lead to the
root, sums over subtrees, and what a walk along the links and a traversal with a stack keep. -/

/-- The links of the keys; the root has none, whatever its link says. -/
structure ParentLinks (κ : Type*) where
  keys : List κ
  root : κ
  link : κ → Option κ
  nodup : keys.Nodup
  root_mem : root ∈ keys

namespace ParentLinks
variable {κ : Type*}

def Child (t : ParentLinks κ) (k i : κ) : Prop := i ∈ t.keys ∧ i ≠ t.root ∧ t.link i = some k

inductive Reaches (t : ParentLinks κ) : κ → Prop
  | root : Reaches t t.root
  | up {k i : κ} (hchild : t.Child k i) (hup : Reaches t k) : Reaches t i

inductive Below (t : ParentLinks κ) (i : κ) : κ → Prop
  | self : Below t i i
  | child {k j : κ} (hbelow : Below t i k) (hchild : t.Child k j) : Below t i j

def IsTree (t : ParentLinks κ) : Prop := ∀ i ∈ t.keys, t.Reaches i

def children [DecidableEq κ] (t : ParentLinks κ) (k : κ) : List κ :=
  t.keys.filter fun i => i ≠ t.root ∧ t.link i = some k

open Classical in
noncomputable def subtree (t : ParentLinks κ) (i : κ) : Finset κ :=
  t.keys.toFinset.filter (t.Below i)

section Links
variable {t : ParentLinks κ} {i j k k' : κ}

theorem Child.unique (h : t.Child k i) (h' : t.Child k' i) : k = k' :=
  Option.some.inj (h.2.2.symm.trans h'.2.2)

theorem Reaches.mem (h : t.Reaches i) : i ∈ t.keys := by
  cases h with
  | root => exact t.root_mem
  | up hchild _ => exact hchild.1

theorem Reaches.exists_parent (h : t.Reaches i) (hne : i ≠ t.root) :
    ∃ k, t.Child k i ∧ t.Reaches k := by
  cases h with
  | root => exact absurd rfl hne
  | up hchild hup => exact ⟨_, hchild, hup⟩

theorem Below.trans (h : t.Below i j) (h' : t.Below j k) : t.Below i k := by
  induction h' with
  | self => exact h
  | child _ hchild ih => exact .child ih hchild

theorem below_iff : t.Below i j ↔ j = i ∨ ∃ k, t.Child i k ∧ t.Below k j := by
  constructor
  · intro h
    induction h with
    | self => exact .inl rfl
    | @child k j _ hchild ih =>
      right
      cases ih with
      | inl heq => exact ⟨j, heq ▸ hchild, .self⟩
      | inr hdeeper =>
        obtain ⟨k', hk', hbelow⟩ := hdeeper
        exact ⟨k', hk', .child hbelow hchild⟩
  · intro h
    cases h with
    | inl heq => exact heq ▸ .self
    | inr hdeeper =>
      obtain ⟨k, hchild, hbelow⟩ := hdeeper
      exact Below.trans (.child .self hchild) hbelow

theorem Below.parent (h : t.Below i j) (hne : j ≠ i) : ∃ k, t.Child k j ∧ t.Below i k := by
  cases h with
  | self => exact absurd rfl hne
  | child hbelow hchild => exact ⟨_, hchild, hbelow⟩

theorem Below.total (h : t.Below i j) (h' : t.Below k j) : t.Below i k ∨ t.Below k i := by
  induction h with
  | self => exact .inr h'
  | @child m j hbelow hchild ih =>
    cases h' with
    | self => exact .inl (.child hbelow hchild)
    | child hbelow' hchild' => exact ih (hchild'.unique hchild ▸ hbelow')

theorem Reaches.not_below (h : t.Reaches k) (hchild : t.Child i k) : ¬ t.Below k i := by
  induction h generalizing i with
  | root => exact absurd rfl hchild.2.1
  | @up m k hup _ ih =>
    obtain rfl := hup.unique hchild
    intro hbelow
    by_cases heq : m = k
    · subst heq
      exact ih hchild .self
    · obtain ⟨n, hn, hbelow⟩ := hbelow.parent heq
      exact ih hn (below_iff.mpr (.inr ⟨k, hchild, hbelow⟩))

theorem Reaches.siblings_apart (h : t.Reaches k) (hk : t.Child i k) (hk' : t.Child i k')
    (hne : k' ≠ k) : ¬ t.Below k k' := by
  intro hbelow
  obtain ⟨m, hm, hup⟩ := hbelow.parent hne
  exact h.not_below hk (hm.unique hk' ▸ hup)

theorem Reaches.below_root (h : t.Reaches i) : t.Below t.root i := by
  induction h with
  | root => exact .self
  | up hchild _ ih => exact .child ih hchild

@[simp] theorem mem_subtree : j ∈ t.subtree i ↔ j ∈ t.keys ∧ t.Below i j := by
  simp [subtree]

theorem IsTree.subtree_root [DecidableEq κ] (h : t.IsTree) :
    t.subtree t.root = t.keys.toFinset := by
  ext i
  rw [mem_subtree, List.mem_toFinset]
  exact and_iff_left_of_imp fun hi => (h i hi).below_root

variable [DecidableEq κ]

@[simp] theorem mem_children : i ∈ t.children k ↔ t.Child k i := by
  simp only [children, List.mem_filter, decide_eq_true_eq, Child]

theorem children_nodup (t : ParentLinks κ) (k : κ) : (t.children k).Nodup := t.nodup.filter _

/-- The sum over a subtree is the key's own share and those of its children's subtrees. -/
theorem IsTree.sum_subtree (h : t.IsTree) (hi : i ∈ t.keys) {M : Type*} [AddCommMonoid M]
    (c : κ → M) : ∑ j ∈ t.subtree i, c j =
      c i + ((t.children i).map fun k => ∑ j ∈ t.subtree k, c j).sum := by
  have hsplit : t.subtree i = insert i ((t.children i).toFinset.biUnion t.subtree) := by
    ext j
    simp only [mem_subtree, Finset.mem_insert, Finset.mem_biUnion, List.mem_toFinset, mem_children]
    constructor
    · intro hj
      obtain ⟨hmem, hbelow⟩ := hj
      exact (below_iff.mp hbelow).imp_right fun ⟨k, hchild, hdeeper⟩ => ⟨k, hchild, hmem, hdeeper⟩
    · intro hj
      cases hj with
      | inl heq =>
        subst heq
        exact ⟨hi, .self⟩
      | inr hdeeper =>
        obtain ⟨k, hchild, hmem, hbelow⟩ := hdeeper
        exact ⟨hmem, below_iff.mpr (.inr ⟨k, hchild, hbelow⟩)⟩
  have hnot : i ∉ (t.children i).toFinset.biUnion t.subtree := by
    simp only [Finset.mem_biUnion, List.mem_toFinset, mem_children, mem_subtree, not_exists,
      not_and]
    exact fun k hchild _ hbelow => (h k hchild.1).not_below hchild hbelow
  have hapart : ((t.children i).toFinset : Set κ).PairwiseDisjoint t.subtree := by
    intro k hk k' hk' hne
    rw [Finset.mem_coe, List.mem_toFinset, mem_children] at hk hk'
    refine Finset.disjoint_left.mpr fun j hj hj' => ?_
    cases (mem_subtree.mp hj).2.total (mem_subtree.mp hj').2 with
    | inl hbelow => exact (h k hk.1).siblings_apart hk hk' hne.symm hbelow
    | inr hbelow => exact (h k' hk'.1).siblings_apart hk' hk hne hbelow
  rw [hsplit, Finset.sum_insert hnot, Finset.sum_biUnion hapart,
    List.sum_toFinset _ (t.children_nodup i)]

end Links

/-! ### Walking along the links -/

/-- A walk from a key, up to now: keys met once, that were not known to lead to the root. -/
structure Climbing (t : ParentLinks κ) (known chain : List κ) (start current : κ) : Prop where
  linked : (chain ++ [current]).IsChain fun i k => t.Child k i
  nodup : chain.Nodup
  unknown : ∀ i ∈ chain, i ∉ known
  mem : current ∈ t.keys
  start : start ∈ chain ++ [current]

section Climbing
variable {t : ParentLinks κ} {known chain : List κ} {start current k : κ}

theorem Climbing.begin (hstart : start ∈ t.keys) : t.Climbing known [] start start where
  linked := .singleton _
  nodup := .nil
  unknown := by simp
  mem := hstart
  start := by simp

theorem Climbing.step (h : t.Climbing known chain start current) (hroot : t.root ∈ known)
    (hnew : current ∉ known) (hchain : current ∉ chain) (hlink : t.link current = some k)
    (hk : k ∈ t.keys) : t.Climbing known (chain ++ [current]) start k where
  linked := by
    have hne : current ≠ t.root := fun heq => hnew (heq ▸ hroot)
    rw [List.append_assoc]
    exact List.isChain_split.mpr ⟨h.linked, List.isChain_pair.mpr ⟨h.mem, hne, hlink⟩⟩
  nodup := List.nodup_append'.mpr ⟨h.nodup, List.nodup_singleton _, by simpa using hchain⟩
  unknown := by
    intro i hi
    cases List.mem_append.mp hi with
    | inl hi => exact h.unknown i hi
    | inr hi => exact List.mem_singleton.mp hi ▸ hnew
  mem := hk
  start := List.mem_append_left _ h.start

theorem Climbing.exists_parent (h : t.Climbing known chain start current) {i : κ} (hi : i ∈ chain) :
    ∃ k ∈ chain ++ [current], t.Child k i := by
  obtain ⟨front, rest, hsplit⟩ := List.append_of_mem hi
  have hlinked := h.linked
  rw [hsplit, List.append_assoc, List.cons_append] at hlinked ⊢
  cases hnext : rest ++ [current] with
  | nil => simp at hnext
  | cons k later =>
    rw [hnext] at hlinked
    exact ⟨k, by simp, (List.isChain_append_cons_cons.mp hlinked).2.1⟩

/-- A key that was not met before leaves room for another step. -/
theorem Climbing.length_lt (h : t.Climbing known chain start current) (hchain : current ∉ chain) :
    chain.length < t.keys.length := by
  have hsub : current :: chain ⊆ t.keys := by
    intro i hi
    cases List.mem_cons.mp hi with
    | inl heq => exact heq ▸ h.mem
    | inr hi =>
      obtain ⟨k, -, hchild⟩ := h.exists_parent hi
      exact hchild.1
  exact (List.subperm_of_subset (List.nodup_cons.mpr ⟨hchain, h.nodup⟩) hsub).length_le

theorem Climbing.reaches (h : t.Climbing known chain start current) (hup : t.Reaches current) :
    (∀ i ∈ chain, t.Reaches i) ∧ t.Reaches start := by
  have hchain : ∀ i ∈ chain, t.Reaches i :=
    h.linked.backwards_concat_induction _ _ (fun _ _ hchild hup => .up hchild hup) hup
  refine ⟨hchain, ?_⟩
  cases List.mem_append.mp h.start with
  | inl hstart => exact hchain start hstart
  | inr hstart => exact List.mem_singleton.mp hstart ▸ hup

theorem Climbing.exists_cycle (h : t.Climbing known chain start current)
    (hagain : current ∈ chain) : ∃ k, t.Child k current ∧ t.Below current k := by
  obtain ⟨front, rest, hsplit⟩ := List.append_of_mem hagain
  have hlinked := h.linked
  rw [hsplit, List.append_assoc, List.cons_append] at hlinked
  have hround : (current :: rest ++ [current]).IsChain fun i k => t.Child k i :=
    hlinked.right_of_append
  have hbelow : ∀ i ∈ current :: rest, t.Below current i :=
    hround.backwards_concat_induction _ _ (fun _ _ hchild hup => .child hup hchild) .self
  cases rest with
  | nil =>
    have hself : t.Child current current := by simpa using hround
    exact ⟨current, hself, .self⟩
  | cons k rest =>
    exact ⟨k, (List.isChain_cons_cons.mp hround).1, hbelow k (by simp)⟩

end Climbing

/-! ### Traversal with a stack -/

section Visiting

structure Topological (t : ParentLinks κ) (order : List κ) : Prop where
  nodup : order.Nodup
  mem_iff : ∀ i, i ∈ order ↔ i ∈ t.keys
  behind : order.Pairwise fun i j => ¬ t.Child j i

/-- Keys met so far are met once, with their parents visited before and the children of visited
keys met. -/
structure Visiting (t : ParentLinks κ) (order pending : List κ) : Prop where
  nodup : (order ++ pending).Nodup
  mem : ∀ i ∈ order ++ pending, i ∈ t.keys
  root : t.root ∈ order ++ pending
  parent : ∀ i ∈ order ++ pending, ∀ k, t.Child k i → k ∈ order
  closed : ∀ k ∈ order, ∀ i, t.Child k i → i ∈ order ++ pending
  behind : order.Pairwise fun i j => ¬ t.Child j i

variable {t : ParentLinks κ} {order pending : List κ} {i k : κ}

theorem Visiting.begin (t : ParentLinks κ) : t.Visiting [] [t.root] where
  nodup := List.nodup_singleton _
  mem := by simpa using t.root_mem
  root := List.mem_singleton_self _
  parent := by
    intro i hi k hchild
    exact absurd (List.mem_singleton.mp hi) hchild.2.1
  closed := by simp
  behind := .nil

theorem Visiting.step [DecidableEq κ] (h : t.Visiting order (pending ++ [i])) :
    t.Visiting (order ++ [i]) (pending ++ t.children i) := by
  have hperm : (order ++ (pending ++ [i])).Perm (order ++ [i] ++ pending) := by
    rw [List.append_assoc]
    exact List.perm_append_comm.append_left order
  have hnodup : (order ++ [i] ++ pending).Nodup := hperm.nodup_iff.mp h.nodup
  have hnew : i ∉ order := fun hin =>
    List.disjoint_of_nodup_append h.nodup hin (List.mem_append_right _ (List.mem_singleton_self i))
  -- a child that was met before would have its parent among the visited keys
  have hfresh : ∀ k ∈ t.children i, k ∉ order ++ [i] ++ pending := fun k hk hin =>
    hnew (h.parent k (hperm.mem_iff.mpr hin) i (mem_children.mp hk))
  have hmet : ∀ k, k ∈ order ++ [i] ++ (pending ++ t.children i) ↔
      k ∈ order ++ (pending ++ [i]) ∨ t.Child i k := by
    intro k
    rw [← List.append_assoc, List.mem_append, ← hperm.mem_iff, mem_children]
  refine ⟨?_, ?_, ?_, ?_, ?_, ?_⟩
  · rw [← List.append_assoc]
    exact List.nodup_append'.mpr ⟨hnodup, t.children_nodup i, fun k hin hk => hfresh k hk hin⟩
  · intro k hk
    exact ((hmet k).mp hk).elim (h.mem k) And.left
  · exact (hmet t.root).mpr (.inl h.root)
  · intro k hk m hchild
    cases (hmet k).mp hk with
    | inl hin => exact List.mem_append_left _ (h.parent k hin m hchild)
    | inr hlast => simp [hchild.unique hlast]
  · intro m hm k hchild
    rw [hmet]
    cases List.mem_append.mp hm with
    | inl hin => exact .inl (h.closed m hin k hchild)
    | inr hlast => exact .inr (List.mem_singleton.mp hlast ▸ hchild)
  · rw [List.pairwise_append]
    refine ⟨h.behind, List.pairwise_singleton _ _, fun k hk m hm hchild => ?_⟩
    rw [List.mem_singleton.mp hm] at hchild
    exact hnew (h.parent k (List.mem_append_left _ hk) i hchild)

theorem Visiting.length_le (h : t.Visiting order pending) :
    order.length + pending.length ≤ t.keys.length := by
  rw [← List.length_append]
  exact (List.subperm_of_subset h.nodup h.mem).length_le

/-- Where nothing is pending, every key that leads to the root was visited. -/
theorem Visiting.topological (h : t.Visiting order []) (htree : t.IsTree) :
    t.Topological order where
  nodup := by simpa using h.nodup
  mem_iff := by
    intro i
    refine ⟨fun hi => h.mem i (by simpa using hi), fun hi => ?_⟩
    have hup := htree i hi
    induction hup with
    | root => simpa using h.root
    | @up k i hchild hup ih => simpa using h.closed k (ih hup.mem) i hchild
  behind := h.behind

/-- In reverse order every key comes behind its children. -/
theorem Topological.children_done (h : t.Topological order) (htree : t.IsTree)
    {done todo : List κ} (hsplit : order.reverse = done ++ i :: todo) (hchild : t.Child i k) :
    k ∈ done := by
  have horder : order = todo.reverse ++ i :: done.reverse := by
    rw [← List.reverse_reverse order, hsplit]
    simp
  have hk : k ∈ todo.reverse ++ i :: done.reverse := horder ▸ (h.mem_iff k).mpr hchild.1
  have hbehind := h.behind
  rw [horder] at hbehind
  cases List.mem_append.mp hk with
  | inl hin => exact absurd hchild ((List.pairwise_append.mp hbehind).2.2 k hin i (by simp))
  | inr hin =>
    cases List.mem_cons.mp hin with
    | inl heq =>
      subst heq
      exact absurd .self ((htree k hchild.1).not_below hchild)
    | inr hin => exact List.mem_reverse.mp hin

end Visiting
end ParentLinks
