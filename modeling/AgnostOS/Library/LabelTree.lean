import AgnostOS.Library.Loop
import Mathlib.Data.List.Induction
import Mathlib.Data.List.Nodup
import Mathlib.Data.List.Perm.Subperm
import Mathlib.Order.Nat

/-! Labelled trees stored as tables: node 0 is the root and every other node has a smaller
parent. Paths of labels name the nodes when siblings have distinct labels, and the children
of a node may be linked into a chain that ends in a sentinel. -/

structure LabelTree (β : Type*) where
  parent : Nat → Nat
  label : Nat → β
  count : Nat

namespace LabelTree
variable {β : Type*}

def Child (t : LabelTree β) (k i : Nat) : Prop := 0 < i ∧ i < t.count ∧ t.parent i = k

inductive At (t : LabelTree β) : Nat → List β → Prop
  | root : At t 0 []
  | child {k i : Nat} {path : List β} (hchild : t.Child k i) (hparent : At t k path) :
      At t i (path ++ [t.label i])

structure Rooted (t : LabelTree β) : Prop where
  count_pos : 0 < t.count
  parent_lt : ∀ i, 0 < i → i < t.count → t.parent i < i
  distinct : ∀ k i j, t.Child k i → t.Child k j → t.label i = t.label j → i = j

section At
variable {t t' : LabelTree β} {i j : Nat} {path path' : List β}

theorem At.lt (h : t.At i path) (hcount : 0 < t.count) : i < t.count := by
  cases h with
  | root => exact hcount
  | child hchild _ => exact hchild.2.1

theorem at_nil_iff : t.At i [] ↔ i = 0 := by
  constructor
  · intro h
    generalize hnil : ([] : List β) = path at h
    cases h with
    | root => rfl
    | child _ _ => simp at hnil
  · rintro rfl
    exact .root

theorem at_concat_iff {b : β} :
    t.At i (path ++ [b]) ↔ ∃ k, t.Child k i ∧ t.label i = b ∧ t.At k path := by
  constructor
  · intro h
    generalize hpath : path ++ [b] = whole at h
    cases h with
    | root => simp at hpath
    | child hchild hparent =>
      obtain ⟨rfl, hlabel⟩ := List.append_inj' hpath rfl
      exact ⟨_, hchild, (List.singleton_inj.mp hlabel).symm, hparent⟩
  · rintro ⟨k, hchild, rfl, hparent⟩
    exact .child hchild hparent

theorem Rooted.node_unique (h : t.Rooted) (hi : t.At i path) (hj : t.At j path) : i = j := by
  induction path using List.reverseRecOn generalizing i j with
  | nil => rw [at_nil_iff.mp hi, at_nil_iff.mp hj]
  | append_singleton path b ih =>
    obtain ⟨k, hchild, hlabel, hparent⟩ := at_concat_iff.mp hi
    obtain ⟨k', hchild', hlabel', hparent'⟩ := at_concat_iff.mp hj
    have hk : k' = k := ih hparent' hparent
    subst hk
    exact h.distinct k' i j hchild hchild' (hlabel.trans hlabel'.symm)

theorem At.path_unique (h : t.At i path) (h' : t.At i path') : path = path' := by
  induction h generalizing path' with
  | root =>
    cases h' with
    | root => rfl
    | child hchild _ => exact absurd hchild.1 (lt_irrefl 0)
  | @child k i path hchild _ ih =>
    cases h' with
    | root => exact absurd hchild.1 (lt_irrefl 0)
    | @child k' _ path' hchild' hparent' =>
      have hk : k = k' := hchild.2.2.symm.trans hchild'.2.2
      subst hk
      rw [ih hparent']

theorem At.of_front (h : t.At i path) {front rest : List β} (hpath : path = front ++ rest) :
    ∃ k, t.At k front := by
  induction rest using List.reverseRecOn generalizing i path with
  | nil => exact ⟨i, by rwa [hpath, List.append_nil] at h⟩
  | append_singleton rest b ih =>
    rw [hpath, ← List.append_assoc] at h
    obtain ⟨k, -, -, hparent⟩ := at_concat_iff.mp h
    exact ih hparent rfl

structure Grows (t t' : LabelTree β) : Prop where
  count_le : t.count ≤ t'.count
  parent : ∀ i < t.count, t'.parent i = t.parent i
  label : ∀ i < t.count, t'.label i = t.label i

theorem Grows.refl (t : LabelTree β) : Grows t t := ⟨le_rfl, fun _ _ => rfl, fun _ _ => rfl⟩

theorem Grows.child (h : Grows t t') {k : Nat} (hchild : t.Child k i) : t'.Child k i :=
  ⟨hchild.1, hchild.2.1.trans_le h.count_le, (h.parent i hchild.2.1).trans hchild.2.2⟩

theorem Grows.at (h : Grows t t') (hat : t.At i path) : t'.At i path := by
  induction hat with
  | root => exact .root
  | @child k i path hchild _ ih =>
    rw [← h.label i hchild.2.1]
    exact .child (h.child hchild) ih

/-! ### A new leaf -/

structure Leaf (t : LabelTree β) (k : Nat) (b : β) (t' : LabelTree β) : Prop where
  count : t'.count = t.count + 1
  parent : ∀ i < t.count, t'.parent i = t.parent i
  label : ∀ i < t.count, t'.label i = t.label i
  newParent : t'.parent t.count = k
  newLabel : t'.label t.count = b

section Leaf
variable {k : Nat} {b : β}

theorem Leaf.grows (h : t.Leaf k b t') : Grows t t' :=
  ⟨by rw [h.count]; exact Nat.le_succ _, h.parent, h.label⟩

theorem Leaf.child_iff (h : t.Leaf k b t') (hcount : 0 < t.count) {k' i : Nat} :
    t'.Child k' i ↔ t.Child k' i ∨ (i = t.count ∧ k' = k) := by
  constructor
  · rintro ⟨hpos, hlt, hparent⟩
    rw [h.count] at hlt
    cases Nat.lt_succ_iff_lt_or_eq.mp hlt with
    | inl hlt => exact .inl ⟨hpos, hlt, (h.parent i hlt).symm.trans hparent⟩
    | inr heq =>
      subst heq
      exact .inr ⟨rfl, hparent.symm.trans h.newParent⟩
  · rintro (hold | ⟨rfl, rfl⟩)
    · exact h.grows.child hold
    · exact ⟨hcount, by rw [h.count]; exact Nat.lt_succ_self _, h.newParent⟩

theorem Leaf.rooted (h : t.Leaf k b t') (hr : t.Rooted) (hk : k < t.count)
    (hfresh : ∀ i, t.Child k i → t.label i ≠ b) : t'.Rooted where
  count_pos := by
    rw [h.count]
    exact Nat.succ_pos _
  parent_lt := by
    intro i hpos hi
    rw [h.count] at hi
    cases Nat.lt_succ_iff_lt_or_eq.mp hi with
    | inl hi =>
      rw [h.parent i hi]
      exact hr.parent_lt i hpos hi
    | inr heq =>
      subst heq
      rwa [h.newParent]
  distinct := by
    intro k' i j hi hj hlabel
    have hold : ∀ {i}, t.Child k' i → t'.label i = t.label i := fun hi => h.label _ hi.2.1
    cases (h.child_iff hr.count_pos).mp hi with
    | inl hi =>
      cases (h.child_iff hr.count_pos).mp hj with
      | inl hj => exact hr.distinct k' i j hi hj (by rwa [hold hi, hold hj] at hlabel)
      | inr hj =>
        obtain ⟨rfl, rfl⟩ := hj
        rw [hold hi, h.newLabel] at hlabel
        exact absurd hlabel (hfresh i hi)
    | inr hi =>
      obtain ⟨rfl, rfl⟩ := hi
      cases (h.child_iff hr.count_pos).mp hj with
      | inl hj =>
        rw [hold hj, h.newLabel] at hlabel
        exact absurd hlabel.symm (hfresh j hj)
      | inr hj => exact hj.1.symm

theorem Leaf.at_iff (h : t.Leaf k b t') (hr : t.Rooted) (hk : k < t.count) :
    t'.At i path ↔ t.At i path ∨ (i = t.count ∧ ∃ front, t.At k front ∧ path = front ++ [b]) := by
  constructor
  · intro hat
    induction hat with
    | root => exact .inl .root
    | @child k' i path hchild hparent ih =>
      have hk' : k' < t.count := by
        cases (h.child_iff hr.count_pos).mp hchild with
        | inl hold => exact hold.2.2 ▸ (hr.parent_lt i hold.1 hold.2.1).trans hold.2.1
        | inr hnew => exact hnew.2 ▸ hk
      have hfront : t.At k' path := ih.resolve_right fun hnew => absurd hnew.1 hk'.ne
      cases (h.child_iff hr.count_pos).mp hchild with
      | inl hold =>
        rw [h.label i hold.2.1]
        exact .inl (.child hold hfront)
      | inr hnew =>
        obtain ⟨rfl, rfl⟩ := hnew
        rw [h.newLabel]
        exact .inr ⟨rfl, path, hfront, rfl⟩
  · rintro (hat | ⟨rfl, front, hfront, rfl⟩)
    · exact h.grows.at hat
    · have hchild : t'.Child k t.count := (h.child_iff hr.count_pos).mpr (.inr ⟨rfl, rfl⟩)
      have hat := At.child hchild (h.grows.at hfront)
      rwa [h.newLabel] at hat

end Leaf
end At

/-! ### Chains of siblings -/

def Chain (next : Nat → Nat) (stop : Nat) : Nat → List Nat → Prop
  | i, [] => i = stop
  | i, j :: rest => i = j ∧ i ≠ stop ∧ Chain next stop (next i) rest

section Chain
variable {next next' : Nat → Nat} {stop i : Nat} {l l' : List Nat}

theorem Chain.congr (h : Chain next stop i l) (hsame : ∀ j ∈ l, next' j = next j) :
    Chain next' stop i l := by
  induction l generalizing i with
  | nil => exact h
  | cons j l ih =>
    obtain ⟨rfl, hne, hrest⟩ := h
    refine ⟨rfl, hne, ?_⟩
    rw [hsame i (by simp)]
    exact ih hrest fun k hk => hsame k (by simp [hk])

/-- `while i != stop && !p(i) { i = next(i) }` -/
def seek (p : Nat → Bool) (next : Nat → Nat) (stop i : Nat) : Nat ⊕ Nat :=
  if i ≠ stop ∧ ¬ p i then .inr (next i) else .inl i

theorem Chain.seek_eq (h : Chain next stop i l) (p : Nat → Bool) {fuel : Nat}
    (hfuel : l.length < fuel) :
    Loop.iterate (seek p next stop) fuel i = some ((l.find? p).getD stop) := by
  induction l generalizing i fuel with
  | nil =>
    have hend : i = stop := h
    cases fuel with
    | zero => simp at hfuel
    | succ fuel =>
      rw [Loop.iterate_of_inl (by rw [seek, if_neg fun hgo => hgo.1 hend])]
      simp [hend]
  | cons j l ih =>
    obtain ⟨rfl, hne, hrest⟩ := h
    cases fuel with
    | zero => simp at hfuel
    | succ fuel =>
      rw [List.find?_cons]
      cases hp : p i with
      | true =>
        rw [Loop.iterate_of_inl (by rw [seek, if_neg fun hgo => hgo.2 hp])]
        rfl
      | false =>
        have hstep : seek p next stop i = .inr (next i) := by
          rw [seek, if_pos ⟨hne, by simp [hp]⟩]
        rw [Loop.iterate_of_inr hstep]
        exact ih hrest (by simpa using hfuel)

end Chain

/-- Chains of the table list the children of each node, each once. -/
def Linked (t : LabelTree β) (first next : Nat → Nat) (stop : Nat) : Prop :=
  ∀ k < t.count, ∃ l, Chain next stop (first k) l ∧ l.Nodup ∧ ∀ i, i ∈ l ↔ t.Child k i

section Linked
variable {t t' : LabelTree β} {first first' next next' : Nat → Nat} {stop k : Nat} {b : β}

theorem length_le_of_children {l : List Nat} (hn : l.Nodup) (h : ∀ i ∈ l, t.Child k i) :
    l.length ≤ t.count := by
  have hsub : l ⊆ List.range t.count := fun i hi => List.mem_range.mpr (h i hi).2.1
  have hlen := (List.subperm_of_subset hn hsub).length_le
  rwa [List.length_range] at hlen

theorem Linked.leaf (h : t.Linked first next stop) (hleaf : t.Leaf k b t') (hr : t.Rooted)
    (hstop : t.count ≠ stop) (hfirst : ∀ i ≤ t.count, first' i =
      if i = k then t.count else if i = t.count then stop else first i)
    (hnext : ∀ i ≤ t.count, next' i = if i = t.count then first k else next i)
    (hk : k < t.count) : t'.Linked first' next' stop := by
  intro k' hk'
  rw [hleaf.count] at hk'
  rw [hfirst k' (Nat.lt_succ_iff.mp hk')]
  have hold : ∀ {l : List Nat} {j m : Nat}, Chain next stop j l → (∀ i ∈ l, t.Child m i) →
      Chain next' stop j l := fun hc hin => hc.congr fun i hi => by
    rw [hnext i (hin i hi).2.1.le, if_neg (hin i hi).2.1.ne]
  split
  · next heq =>
    subst heq
    obtain ⟨l, hchain, hn, hmem⟩ := h k' hk
    refine ⟨t.count :: l, ⟨rfl, hstop, ?_⟩, ?_, fun i => ?_⟩
    · rw [hnext _ le_rfl, if_pos rfl]
      exact hold hchain fun i hi => (hmem i).mp hi
    · exact List.nodup_cons.mpr ⟨fun hin => lt_irrefl _ ((hmem _).mp hin).2.1, hn⟩
    · rw [hleaf.child_iff hr.count_pos, List.mem_cons, hmem]
      tauto
  · next hne =>
    split
    · next heq =>
      refine ⟨[], rfl, List.nodup_nil, fun i => ?_⟩
      rw [hleaf.child_iff hr.count_pos]
      refine iff_of_false (by simp) ?_
      rintro (hold | hnew)
      · have hlt := hr.parent_lt i hold.1 hold.2.1
        have := hold.2.1
        have := hold.2.2
        omega
      · exact hne hnew.2
    · next hlt =>
      obtain ⟨l, hchain, hn, hmem⟩ := h k' (lt_of_le_of_ne (Nat.lt_succ_iff.mp hk') hlt)
      refine ⟨l, hold hchain fun i hi => (hmem i).mp hi, hn, fun i => ?_⟩
      rw [hleaf.child_iff hr.count_pos, hmem]
      tauto

end Linked
end LabelTree
