import AgnostOS.Library.LabelTree
import Mathlib.Algebra.BigOperators.Group.Finset.Basic

/-! Subtrees of a tree stored as a table of parents: sums over them, and the traversal that
keeps the nodes it has yet to visit on a stack. -/

namespace LabelTree
variable {β : Type*}

inductive Below (t : LabelTree β) (i : Nat) : Nat → Prop
  | self : Below t i i
  | child {k j : Nat} (hbelow : Below t i k) (hchild : t.Child k j) : Below t i j

def children (t : LabelTree β) (k : Nat) : List Nat :=
  (List.range t.count).filter fun i => 0 < i ∧ t.parent i = k

open Classical in
noncomputable def subtree (t : LabelTree β) (i : Nat) : Finset Nat :=
  (Finset.range t.count).filter (t.Below i)

section Below
variable {t : LabelTree β} {i j k : Nat}

@[simp] theorem mem_children : i ∈ t.children k ↔ t.Child k i := by
  simp only [children, List.mem_filter, List.mem_range, decide_eq_true_eq, Child]
  tauto

theorem children_nodup (t : LabelTree β) (k : Nat) : (t.children k).Nodup :=
  List.nodup_range.filter _

@[simp] theorem mem_subtree : j ∈ t.subtree i ↔ j < t.count ∧ t.Below i j := by
  simp [subtree]

theorem Below.trans (h : t.Below i j) (h' : t.Below j k) : t.Below i k := by
  induction h' with
  | self => exact h
  | child _ hchild ih => exact .child ih hchild

theorem Rooted.le_of_below (hr : t.Rooted) (h : t.Below i j) : i ≤ j := by
  induction h with
  | self => exact le_rfl
  | @child k j _ hchild ih =>
    obtain ⟨hpos, hlt, rfl⟩ := hchild
    exact ih.trans (hr.parent_lt j hpos hlt).le

/-- Below a node is the node itself or something below one of its children. -/
theorem below_iff : t.Below i j ↔ j = i ∨ ∃ k, t.Child i k ∧ t.Below k j := by
  constructor
  · intro h
    induction h with
    | self => exact .inl rfl
    | @child k j _ hchild ih =>
      right
      cases ih with
      | inl heq =>
        subst heq
        exact ⟨j, hchild, .self⟩
      | inr hdeeper =>
        obtain ⟨k', hk', hbelow⟩ := hdeeper
        exact ⟨k', hk', .child hbelow hchild⟩
  · rintro (rfl | ⟨k, hchild, hbelow⟩)
    · exact .self
    · exact Below.trans (.child .self hchild) hbelow

theorem Below.parent (h : t.Below i j) (hne : j ≠ i) : 0 < j ∧ j < t.count ∧ t.Below i (t.parent j) := by
  cases h with
  | self => exact absurd rfl hne
  | child hbelow hchild =>
    obtain ⟨hpos, hlt, rfl⟩ := hchild
    exact ⟨hpos, hlt, hbelow⟩

theorem Rooted.below_total (hr : t.Rooted) {i' : Nat} (h : t.Below i j) (h' : t.Below i' j) :
    t.Below i i' ∨ t.Below i' i := by
  induction j using Nat.strong_induction_on with
  | _ j ih =>
    by_cases hi : j = i
    · exact .inr (hi ▸ h')
    by_cases hi' : j = i'
    · exact .inl (hi' ▸ h)
    obtain ⟨hpos, hlt, hup⟩ := h.parent hi
    exact ih _ (hr.parent_lt j hpos hlt) hup (h'.parent hi').2.2

theorem Rooted.child_not_below (hr : t.Rooted) {k' : Nat} (hk : t.Child i k) (hk' : t.Child i k')
    (hne : k ≠ k') : ¬ t.Below k k' := by
  intro h
  have hle := hr.le_of_below (h.parent hne.symm).2.2
  rw [hk'.2.2] at hle
  have hlt := hr.parent_lt k hk.1 hk.2.1
  rw [hk.2.2] at hlt
  omega

/-- The sum over a subtree is the node's own share and those of its children's subtrees. -/
theorem Rooted.sum_subtree (hr : t.Rooted) (hi : i < t.count) {M : Type*} [AddCommMonoid M]
    (c : Nat → M) : ∑ j ∈ t.subtree i, c j =
      c i + ((t.children i).map fun k => ∑ j ∈ t.subtree k, c j).sum := by
  have hsplit : t.subtree i = insert i ((t.children i).toFinset.biUnion t.subtree) := by
    ext j
    simp only [mem_subtree, Finset.mem_insert, Finset.mem_biUnion, List.mem_toFinset, mem_children]
    constructor
    · rintro ⟨hlt, hbelow⟩
      exact (below_iff.mp hbelow).imp id fun ⟨k, hchild, hbelow⟩ => ⟨k, hchild, hlt, hbelow⟩
    · rintro (rfl | ⟨k, hchild, hlt, hbelow⟩)
      · exact ⟨hi, .self⟩
      · exact ⟨hlt, below_iff.mpr (.inr ⟨k, hchild, hbelow⟩)⟩
  have hnot : i ∉ (t.children i).toFinset.biUnion t.subtree := by
    simp only [Finset.mem_biUnion, List.mem_toFinset, mem_children, mem_subtree, not_exists, not_and]
    intro k hchild _ hbelow
    have hle := hr.le_of_below hbelow
    have hlt := hr.parent_lt k hchild.1 hchild.2.1
    rw [hchild.2.2] at hlt
    omega
  have hapart : ((t.children i).toFinset : Set Nat).PairwiseDisjoint t.subtree := by
    intro k hk k' hk' hne
    rw [Finset.mem_coe, List.mem_toFinset, mem_children] at hk hk'
    refine Finset.disjoint_left.mpr fun j hj hj' => ?_
    cases hr.below_total (mem_subtree.mp hj).2 (mem_subtree.mp hj').2 with
    | inl h => exact hr.child_not_below hk hk' hne h
    | inr h => exact hr.child_not_below hk' hk hne.symm h
  rw [hsplit, Finset.sum_insert hnot, Finset.sum_biUnion hapart,
    List.sum_toFinset _ (t.children_nodup i)]

theorem Rooted.below_root (hr : t.Rooted) (hi : i < t.count) : t.Below 0 i := by
  induction i using Nat.strong_induction_on with
  | _ i ih =>
    cases Nat.eq_zero_or_pos i with
    | inl hzero => exact hzero ▸ .self
    | inr hpos =>
      have hlt := hr.parent_lt i hpos hi
      exact .child (ih _ hlt (hlt.trans hi)) ⟨hpos, hi, rfl⟩

theorem Rooted.subtree_root (hr : t.Rooted) : t.subtree 0 = Finset.range t.count := by
  ext i
  rw [mem_subtree, Finset.mem_range]
  exact ⟨fun h => h.1, fun hi => ⟨hi, hr.below_root hi⟩⟩

end Below

/-! ### Traversal with a stack -/

/-- `while pending: node = pending.pop(); order.append(node); pending.extend(children)` -/
def visit (t : LabelTree β) : List Nat × List Nat → List Nat ⊕ (List Nat × List Nat)
  | (order, pending) =>
    match pending.getLast? with
    | none => .inl order
    | some i => .inr (order ++ [i], pending.dropLast ++ t.children i)

structure Topological (t : LabelTree β) (order : List Nat) : Prop where
  nodup : order.Nodup
  mem_iff : ∀ i, i ∈ order ↔ i < t.count
  parentsFirst : ∀ front i rest, order = front ++ i :: rest → 0 < i → t.parent i ∈ front

/-- What holds whenever the loop is entered: nodes met so far are met once, with their
parents visited before and the children of visited nodes met. -/
structure Visiting (t : LabelTree β) (order pending : List Nat) : Prop where
  nodup : (order ++ pending).Nodup
  lt : ∀ i ∈ order ++ pending, i < t.count
  root : 0 ∈ order ++ pending
  parent : ∀ i ∈ pending, 0 < i → t.parent i ∈ order
  closed : ∀ k ∈ order, ∀ i, t.Child k i → i ∈ order ++ pending
  parentsFirst : ∀ front i rest, order = front ++ i :: rest → 0 < i → t.parent i ∈ front

section Visiting
variable {t : LabelTree β} {order pending : List Nat} {i : Nat}

theorem Rooted.visiting (hr : t.Rooted) : t.Visiting [] [0] where
  nodup := by simp
  lt := by simpa using hr.count_pos
  root := by simp
  parent := by simp
  closed := by simp
  parentsFirst := by simp

theorem Visiting.met_perm (order pending : List Nat) (i : Nat) :
    (order ++ (pending ++ [i])).Perm (order ++ [i] ++ pending) := by
  rw [List.append_assoc]
  exact List.perm_append_comm.append_left order

theorem Visiting.not_visited (h : t.Visiting order (pending ++ [i])) : i ∉ order := fun hin =>
  List.disjoint_of_nodup_append h.nodup hin (List.mem_append_right _ (List.mem_singleton_self i))

/-- A child of a pending node has not been met: its parent was not visited, and it is not
the root. -/
theorem Visiting.child_fresh (hr : t.Rooted) (h : t.Visiting order (pending ++ [i])) {k : Nat}
    (hk : t.Child i k) : k ∉ order ++ [i] ++ pending := by
  intro hin
  obtain ⟨hpos, hlt, hparent⟩ := hk
  have hlast := hr.parent_lt k hpos hlt
  rw [hparent] at hlast
  have hsplit : k ∈ order ∨ k = i ∨ k ∈ pending := by simpa [or_assoc] using hin
  rcases hsplit with hin | rfl | hin
  · obtain ⟨front, rest, hsplit⟩ := List.append_of_mem hin
    have hfront := h.parentsFirst front k rest hsplit hpos
    rw [hparent] at hfront
    exact h.not_visited (by rw [hsplit]; exact List.mem_append_left _ hfront)
  · exact lt_irrefl _ hlast
  · have hvisited := h.parent k (by simp [hin]) hpos
    rw [hparent] at hvisited
    exact h.not_visited hvisited

theorem Visiting.step (hr : t.Rooted) (h : t.Visiting order (pending ++ [i])) :
    t.Visiting (order ++ [i]) (pending ++ t.children i) := by
  have hperm := Visiting.met_perm order pending i
  have hnodup := hperm.nodup_iff.mp h.nodup
  have hfresh : ∀ k ∈ t.children i, k ∉ order ++ [i] ++ pending :=
    fun k hk => h.child_fresh hr (mem_children.mp hk)
  refine ⟨?_, ?_, ?_, ?_, ?_, ?_⟩
  · rw [← List.append_assoc]
    exact List.nodup_append'.mpr ⟨hnodup, t.children_nodup i, fun k hk hin => hfresh k hin hk⟩
  · intro k hk
    rw [← List.append_assoc, List.mem_append] at hk
    cases hk with
    | inl hk => exact h.lt k (hperm.mem_iff.mpr hk)
    | inr hk => exact (mem_children.mp hk).2.1
  · rw [← List.append_assoc]
    exact List.mem_append_left _ (hperm.mem_iff.mp h.root)
  · intro k hk hpos
    cases List.mem_append.mp hk with
    | inl hk => exact List.mem_append_left _ (h.parent k (by simp [hk]) hpos)
    | inr hk => simp [(mem_children.mp hk).2.2]
  · intro k hk j hchild
    rw [← List.append_assoc]
    cases List.mem_append.mp hk with
    | inl hk => exact List.mem_append_left _ (hperm.mem_iff.mp (h.closed k hk j hchild))
    | inr hk =>
      rw [List.mem_singleton.mp hk] at hchild
      exact List.mem_append_right _ (mem_children.mpr hchild)
  · intro front k rest hsplit hpos
    rcases List.eq_nil_or_concat' rest with rfl | ⟨rest, last, rfl⟩
    · obtain ⟨rfl, hlast⟩ := List.append_inj' hsplit rfl
      obtain rfl := List.singleton_inj.mp hlast
      exact h.parent i (by simp) hpos
    · have hsplit' : order ++ [i] = (front ++ k :: rest) ++ [last] := by
        rw [hsplit, List.append_assoc, List.cons_append]
      obtain ⟨horder, -⟩ := List.append_inj' hsplit' rfl
      exact h.parentsFirst front k rest horder hpos

theorem Visiting.topological (hr : t.Rooted) (h : t.Visiting order []) : t.Topological order where
  nodup := by simpa using h.nodup
  mem_iff := by
    intro i
    refine ⟨fun hin => h.lt i (by simpa using hin), fun hi => ?_⟩
    induction i using Nat.strong_induction_on with
    | _ i ih =>
      cases Nat.eq_zero_or_pos i with
      | inl hzero => simpa [hzero] using h.root
      | inr hpos =>
        have hlt := hr.parent_lt i hpos hi
        simpa using h.closed _ (ih _ hlt (hlt.trans hi)) i ⟨hpos, hi, rfl⟩
  parentsFirst := h.parentsFirst

theorem Visiting.length_le (h : t.Visiting order pending) : order.length ≤ t.count := by
  have hsub : order ⊆ List.range t.count := fun i hi =>
    List.mem_range.mpr (h.lt i (List.mem_append_left _ hi))
  have hlen := (List.subperm_of_subset (List.nodup_append.mp h.nodup).1 hsub).length_le
  rwa [List.length_range] at hlen

/-- The traversal ends after one round for each node that is left. -/
theorem Visiting.exists_order (hr : t.Rooted) (h : t.Visiting order pending) {fuel : Nat}
    (hfuel : t.count - order.length < fuel) :
    ∃ result, Loop.iterate t.visit fuel (order, pending) = some result ∧ t.Topological result := by
  induction fuel generalizing order pending with
  | zero => exact absurd hfuel (Nat.not_lt_zero _)
  | succ fuel ih =>
    rcases List.eq_nil_or_concat' pending with rfl | ⟨pending, i, rfl⟩
    · exact ⟨order, Loop.iterate_of_inl rfl fuel, h.topological hr⟩
    · have hnext := h.step hr
      have hlen := hnext.length_le
      rw [List.length_append, List.length_singleton] at hlen
      have hbody : t.visit (order, pending ++ [i]) = .inr (order ++ [i], pending ++ t.children i) := by
        simp [visit]
      rw [Loop.iterate_of_inr hbody]
      refine ih hnext ?_
      rw [List.length_append, List.length_singleton]
      omega

theorem Rooted.exists_order (hr : t.Rooted) :
    ∃ order, Loop.iterate t.visit (t.count + 1) ([], [0]) = some order ∧ t.Topological order :=
  hr.visiting.exists_order hr (by simp)

/-- In reverse order every node comes behind its children. -/
theorem Topological.children_done (h : t.Topological order) {done todo : List Nat}
    (hsplit : order.reverse = done ++ i :: todo) {k : Nat} (hchild : t.Child i k) : k ∈ done := by
  have horder : order = todo.reverse ++ i :: done.reverse := by
    rw [← List.reverse_reverse order, hsplit]
    simp
  have hnot : i ∉ todo.reverse := fun hin => by
    have hnodup := h.nodup
    rw [horder] at hnodup
    exact List.disjoint_of_nodup_append hnodup hin List.mem_cons_self
  have hin : k ∈ todo.reverse ++ i :: done.reverse := horder ▸ (h.mem_iff k).mpr hchild.2.1
  rcases (by simpa using hin : k ∈ todo ∨ k = i ∨ k ∈ done) with hin | rfl | hin
  · obtain ⟨front, rest, hfront⟩ := List.append_of_mem (List.mem_reverse.mpr hin)
    have hparent := h.parentsFirst front k (rest ++ i :: done.reverse)
      (by rw [horder, hfront, List.append_assoc, List.cons_append]) hchild.1
    rw [hchild.2.2] at hparent
    exact absurd (by rw [hfront]; exact List.mem_append_left _ hparent) hnot
  · have hparent := h.parentsFirst _ k _ horder hchild.1
    rw [hchild.2.2] at hparent
    exact absurd hparent hnot
  · exact hin

end Visiting
end LabelTree
