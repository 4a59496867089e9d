import Mathlib.Algebra.BigOperators.Group.List.Basic
import Mathlib.Algebra.GroupWithZero.Nat
import Mathlib.Data.List.Pairwise
import Mathlib.Data.List.TakeWhile
import Mathlib.Order.Lattice
import Mathlib.Tactic.Order

/-! Lists of half-open spans over a linear order: what they cover, how they are
ordered, and insertion with coalescing at both neighbours. -/

structure Span (α : Type*) where
  lo : α
  hi : α
  deriving DecidableEq, Repr

namespace Span
section Order
variable {α : Type*} [LinearOrder α]

def Contains (s : Span α) (x : α) : Prop := s.lo ≤ x ∧ x < s.hi

instance (s : Span α) (x : α) : Decidable (s.Contains x) :=
  inferInstanceAs (Decidable (_ ∧ _))

def Covers (l : List (Span α)) (x : α) : Prop := ∃ s ∈ l, s.Contains x

def Proper (l : List (Span α)) : Prop := ∀ s ∈ l, s.lo < s.hi

def Ordered (l : List (Span α)) : Prop := l.Pairwise fun s t => s.hi ≤ t.lo

/-- Ascending with a gap between neighbours. -/
def Apart (l : List (Span α)) : Prop := l.Pairwise fun s t => s.hi < t.lo

theorem Apart.ordered {l : List (Span α)} (h : Apart l) : Ordered l :=
  h.imp fun hlt => le_of_lt hlt

@[simp] theorem not_covers_nil (x : α) : ¬ Covers [] x := by simp [Covers]

@[simp] theorem covers_cons (s : Span α) (l : List (Span α)) (x : α) :
    Covers (s :: l) x ↔ s.Contains x ∨ Covers l x := by simp [Covers]

@[simp] theorem covers_append (l r : List (Span α)) (x : α) :
    Covers (l ++ r) x ↔ Covers l x ∨ Covers r x := by
  simp only [Covers, List.mem_append, or_and_right, exists_or]

theorem Covers.mono {l r : List (Span α)} {x : α} (hsub : ∀ s ∈ l, s ∈ r) (h : Covers l x) :
    Covers r x := by
  obtain ⟨s, hs, hx⟩ := h
  exact ⟨s, hsub s hs, hx⟩

@[simp] theorem proper_nil : Proper ([] : List (Span α)) := by simp [Proper]

@[simp] theorem proper_cons (s : Span α) (l : List (Span α)) :
    Proper (s :: l) ↔ s.lo < s.hi ∧ Proper l := by simp [Proper]

@[simp] theorem proper_append (l r : List (Span α)) :
    Proper (l ++ r) ↔ Proper l ∧ Proper r := by
  simp only [Proper, List.mem_append, or_imp, forall_and]

/-- What a span of an ordered list contains, no other entry covers. -/
theorem Ordered.not_covers_rest {pre post : List (Span α)} {s : Span α}
    (h : Ordered (pre ++ s :: post)) {x : α} (hx : s.Contains x) : ¬ Covers (pre ++ post) x := by
  obtain ⟨-, hmid, hcross⟩ := List.pairwise_append.mp h
  obtain ⟨hlo, hhi⟩ := hx
  rintro ⟨t, ht, htlo, hthi⟩
  cases List.mem_append.mp ht with
  | inl ht =>
    have hle := hcross t ht s (by simp)
    order
  | inr ht =>
    have hle := (List.pairwise_cons.mp hmid).1 t ht
    order

/-- Replacing a span by pieces inside it keeps the gaps. -/
theorem Apart.replace {pre post pieces : List (Span α)} {s : Span α}
    (h : Apart (pre ++ s :: post)) (hp : Apart pieces)
    (hin : ∀ t ∈ pieces, s.lo ≤ t.lo ∧ t.hi ≤ s.hi) : Apart (pre ++ (pieces ++ post)) := by
  obtain ⟨hpre, hmid, hcross⟩ := List.pairwise_append.mp h
  obtain ⟨hafter, hpost⟩ := List.pairwise_cons.mp hmid
  refine List.pairwise_append.mpr ⟨hpre, List.pairwise_append.mpr ⟨hp, hpost, ?_⟩, ?_⟩
  · intro t ht u hu
    exact (hin t ht).2.trans_lt (hafter u hu)
  · intro t ht u hu
    cases List.mem_append.mp hu with
    | inl hu => exact (hcross t ht s (by simp)).trans_le (hin u hu).1
    | inr hu => exact hcross t ht u (by simp [hu])

/-! ### Splitting an ordered list at a point -/

def before (x : α) (l : List (Span α)) : List (Span α) := l.takeWhile fun s => s.lo < x
def after (x : α) (l : List (Span α)) : List (Span α) := l.dropWhile fun s => s.lo < x

@[simp] theorem before_append_after (x : α) (l : List (Span α)) : before x l ++ after x l = l :=
  List.takeWhile_append_dropWhile

theorem lo_lt_of_mem_before {x : α} {l : List (Span α)} {s : Span α} (h : s ∈ before x l) :
    s.lo < x := by
  simpa using List.mem_takeWhile_imp h

theorem le_lo_of_head_after {x : α} {l : List (Span α)} {s : Span α}
    (h : (after x l).head? = some s) : x ≤ s.lo := by
  have hne := List.head?_dropWhile_not (fun s : Span α => decide (s.lo < x)) l
  rw [after] at h
  rw [h] at hne
  simpa using hne

theorem le_lo_of_mem_after {x : α} {l : List (Span α)} (ho : Ordered l) (hp : Proper l)
    {s : Span α} (h : s ∈ after x l) : x ≤ s.lo := by
  have hsub : (after x l).Sublist l := List.dropWhile_sublist _
  have ho' : Ordered (after x l) := ho.sublist hsub
  cases hcase : after x l with
  | nil => simp [hcase] at h
  | cons n rest =>
    have hn : x ≤ n.lo := le_lo_of_head_after (by rw [hcase]; rfl)
    rw [hcase] at h ho'
    rcases List.mem_cons.mp h with rfl | hrest
    · exact hn
    · have hnp : n.lo < n.hi := hp n (hsub.subset (by rw [hcase]; exact List.mem_cons_self))
      have hle := (List.pairwise_cons.mp ho').1 s hrest
      order

/-- Only the two neighbours of the split point can cover it. -/
theorem covers_iff_neighbours {x : α} {l : List (Span α)} (ho : Ordered l) (hp : Proper l) :
    Covers l x ↔ (∃ s ∈ (before x l).getLast?, x < s.hi) ∨ ∃ s ∈ (after x l).head?, s.lo = x := by
  constructor
  · rintro ⟨s, hs, hlo, hhi⟩
    rw [← before_append_after x l, List.mem_append] at hs
    cases hs with
    | inl hs =>
      left
      obtain ⟨rest, last, hsplit⟩ := List.eq_nil_or_concat' (before x l) |>.resolve_left
        (List.ne_nil_of_mem hs)
      refine ⟨last, by simp [hsplit], ?_⟩
      rw [hsplit, List.mem_append, List.mem_singleton] at hs
      rcases hs with hs | rfl
      · have ho' : Ordered (before x l) := ho.sublist (List.takeWhile_sublist _)
        rw [hsplit] at ho'
        have hle := (List.pairwise_append.mp ho').2.2 s hs last (by simp)
        have hlast : last.lo < x := lo_lt_of_mem_before (l := l) (by simp [hsplit])
        order
      · exact hhi
    | inr hs =>
      right
      cases hcase : after x l with
      | nil => simp [hcase] at hs
      | cons n rest =>
        refine ⟨n, by simp, ?_⟩
        have hn : x ≤ n.lo := le_lo_of_head_after (by rw [hcase]; rfl)
        have hsub : (after x l).Sublist l := List.dropWhile_sublist _
        have ho' : Ordered (after x l) := ho.sublist hsub
        have hnp : n.lo < n.hi := hp n (hsub.subset (by rw [hcase]; exact List.mem_cons_self))
        rw [hcase] at hs ho'
        rcases List.mem_cons.mp hs with rfl | hrest
        · order
        · have hle := (List.pairwise_cons.mp ho').1 s hrest
          order
  · rintro (⟨s, hs, hx⟩ | ⟨s, hs, rfl⟩)
    · have hmem : s ∈ before x l := List.mem_of_getLast? hs
      exact ⟨s, (List.takeWhile_sublist _).subset hmem, (lo_lt_of_mem_before hmem).le, hx⟩
    · have hmem : s ∈ l := (List.dropWhile_sublist _).subset (List.mem_of_head? hs)
      exact ⟨s, hmem, le_rfl, hp s hmem⟩

/-! ### Gluing two lists at their seam -/

/-- Append, merging the last span of the left list with the first of the right
one when they touch. -/
def glue : List (Span α) → List (Span α) → List (Span α)
  | [], right => right
  | [s], t :: right => if s.hi = t.lo then ⟨s.lo, t.hi⟩ :: right else s :: t :: right
  | s :: left, right => s :: glue left right

theorem cons_cons_glue (s t : Span α) (l r : List (Span α)) :
    glue (s :: t :: l) r = s :: glue (t :: l) r := rfl

theorem singleton_glue_cons (s t : Span α) (r : List (Span α)) :
    glue [s] (t :: r) = if s.hi = t.lo then ⟨s.lo, t.hi⟩ :: r else s :: t :: r := rfl

theorem append_singleton_glue (l : List (Span α)) (s : Span α) (r : List (Span α)) :
    glue (l ++ [s]) r = l ++ glue [s] r := by
  induction l with
  | nil => rfl
  | cons t l ih =>
    cases l with
    | nil => rfl
    | cons u l => simpa [cons_cons_glue] using ih

theorem glue_covers {l r : List (Span α)} (hl : Proper l) (hr : Proper r) (x : α) :
    Covers (glue l r) x ↔ Covers l x ∨ Covers r x := by
  fun_induction glue l r with
  | case1 right => simp
  | case2 s t right heq =>
    have hs : s.lo < s.hi := hl s (by simp)
    have ht : t.lo < t.hi := hr t (by simp)
    have hmerge : (⟨s.lo, t.hi⟩ : Span α).Contains x ↔ s.Contains x ∨ t.Contains x := by
      constructor
      · rintro ⟨hlo, hhi⟩
        cases lt_or_ge x s.hi with
        | inl hx => exact .inl ⟨hlo, hx⟩
        | inr hx => exact .inr ⟨heq ▸ hx, hhi⟩
      · rintro (⟨hlo, hhi⟩ | ⟨hlo, hhi⟩)
        · exact ⟨hlo, by simp only; order⟩
        · exact ⟨by simp only; order, hhi⟩
    simp [hmerge, or_assoc]
  | case3 s t right hne => simp
  | case4 s left right _ ih =>
    simp only [proper_cons] at hl
    simp only [covers_cons, ih hl.2 hr, or_assoc]

theorem glue_proper {l r : List (Span α)} (hl : Proper l) (hr : Proper r) :
    Proper (glue l r) := by
  fun_induction glue l r with
  | case1 right => exact hr
  | case2 s t right heq =>
    simp only [proper_cons] at hl hr ⊢
    exact ⟨by order, hr.2⟩
  | case3 s t right hne =>
    simp only [proper_cons] at hl hr ⊢
    exact ⟨hl.1, hr⟩
  | case4 s left right _ ih =>
    simp only [proper_cons] at hl ⊢
    exact ⟨hl.1, ih hl.2 hr⟩

/-- Every glued span starts where one of the originals did. -/
theorem exists_lo_of_mem_glue {l r : List (Span α)} {s : Span α} (h : s ∈ glue l r) :
    ∃ t ∈ l ++ r, t.lo = s.lo := by
  fun_induction glue l r with
  | case1 right => exact ⟨s, by simpa using h, rfl⟩
  | case2 t u right heq =>
    rcases List.mem_cons.mp h with rfl | h
    · exact ⟨t, by simp, rfl⟩
    · exact ⟨s, by simp [h], rfl⟩
  | case3 t u right hne => exact ⟨s, by simpa using h, rfl⟩
  | case4 t left right _ ih =>
    rcases List.mem_cons.mp h with rfl | h
    · exact ⟨s, by simp, rfl⟩
    · obtain ⟨u, hu, hlo⟩ := ih h
      exact ⟨u, by simp only [List.cons_append, List.mem_cons]; exact .inr hu, hlo⟩

theorem glue_ordered {l r : List (Span α)} (h : Ordered (l ++ r)) : Ordered (glue l r) := by
  fun_induction glue l r with
  | case1 right => exact h
  | case2 s t right heq =>
    have ht := (List.pairwise_cons.mp h).2
    exact List.pairwise_cons.mpr ⟨(List.pairwise_cons.mp ht).1, (List.pairwise_cons.mp ht).2⟩
  | case3 s t right hne => exact h
  | case4 s left right _ ih =>
    have hcons := List.pairwise_cons.mp h
    refine List.pairwise_cons.mpr ⟨fun u hu => ?_, ih hcons.2⟩
    obtain ⟨t, ht, hlo⟩ := exists_lo_of_mem_glue hu
    exact hlo ▸ hcons.1 t ht

theorem glue_apart {l r : List (Span α)} (hl : Apart l) (hr : Apart r) (hp : Proper (l ++ r))
    (h : Ordered (l ++ r)) : Apart (glue l r) := by
  fun_induction glue l r with
  | case1 right => exact hr
  | case2 s t right heq =>
    have ht := List.pairwise_cons.mp hr
    exact List.pairwise_cons.mpr ⟨ht.1, ht.2⟩
  | case3 s t right hne =>
    have hle : s.hi ≤ t.lo := (List.pairwise_cons.mp h).1 t (by simp)
    have hlt : s.hi < t.lo := lt_of_le_of_ne hle hne
    refine List.pairwise_cons.mpr ⟨fun u hu => ?_, hr⟩
    rcases List.mem_cons.mp hu with rfl | hu
    · exact hlt
    · have ht : t.lo < t.hi := hp t (by simp)
      have htu := (List.pairwise_cons.mp hr).1 u hu
      order
  | case4 s left right hlast ih =>
    have hcons := List.pairwise_cons.mp h
    have hapart := List.pairwise_cons.mp hl
    have hp' : Proper (left ++ right) := fun u hu => hp u (List.mem_cons_of_mem s hu)
    refine List.pairwise_cons.mpr ⟨fun u hu => ?_, ih hapart.2 hr hp' hcons.2⟩
    obtain ⟨t, ht, hlo⟩ := exists_lo_of_mem_glue hu
    rw [← hlo]
    cases List.mem_append.mp ht with
    | inl htl => exact hapart.1 t htl
    | inr htr =>
      rcases left with _ | ⟨v, left⟩
      · rcases right with _ | ⟨v, right⟩
        · simp at htr
        · exact (hlast v right rfl rfl).elim
      · have hsv := hapart.1 v (by simp)
        have hv : v.lo < v.hi := hp' v (by simp)
        have hvt : v.hi ≤ t.lo := (List.pairwise_cons.mp hcons.2).1 t (by simp [htr])
        order

/-! ### Insertion with coalescing -/

/-- Put a span in its place by start, merging it with the neighbours it touches. -/
def insert (s : Span α) (l : List (Span α)) : List (Span α) :=
  glue (before s.lo l) (glue [s] (after s.lo l))

def Fits (s : Span α) (l : List (Span α)) : Prop :=
  Ordered (before s.lo l ++ s :: after s.lo l)

theorem before_proper {l : List (Span α)} (hp : Proper l) (x : α) : Proper (before x l) :=
  fun s hs => hp s ((List.takeWhile_sublist _).subset hs)

theorem after_proper {l : List (Span α)} (hp : Proper l) (x : α) : Proper (after x l) :=
  fun s hs => hp s ((List.dropWhile_sublist _).subset hs)

theorem insert_covers {s : Span α} {l : List (Span α)} (hs : s.lo < s.hi) (hp : Proper l) (x : α) :
    Covers (insert s l) x ↔ s.Contains x ∨ Covers l x := by
  have hsingle : Proper [s] := by simpa using hs
  have hb := before_proper hp s.lo
  have ha := after_proper hp s.lo
  rw [insert, glue_covers hb (glue_proper hsingle ha), glue_covers hsingle ha]
  conv_rhs => rw [← before_append_after s.lo l]
  simp only [covers_cons, not_covers_nil, covers_append, or_false]
  tauto

theorem Fits.ordered_glue {s : Span α} {l : List (Span α)} (h : Fits s l) :
    Ordered (before s.lo l ++ glue [s] (after s.lo l)) := by
  obtain ⟨hb, ha, hba⟩ := List.pairwise_append.mp h
  refine List.pairwise_append.mpr ⟨hb, glue_ordered ha, fun p hp t ht => ?_⟩
  obtain ⟨u, hu, hlo⟩ := exists_lo_of_mem_glue ht
  exact hlo ▸ hba p hp u hu

theorem Fits.insert_ordered {s : Span α} {l : List (Span α)} (h : Fits s l) :
    Ordered (insert s l) :=
  glue_ordered h.ordered_glue

/-- Insertion coalesces fully: a list without touching neighbours stays so. -/
theorem Fits.insert_apart {s : Span α} {l : List (Span α)} (h : Fits s l) (hs : s.lo < s.hi)
    (hp : Proper l) (ha : Apart l) : Apart (insert s l) := by
  have hb : Apart (before s.lo l) := ha.sublist (List.takeWhile_sublist _)
  have hright : Apart (glue [s] (after s.lo l)) :=
    glue_apart (List.pairwise_singleton _ _) (ha.sublist (List.dropWhile_sublist _))
      (by simpa using ⟨hs, after_proper hp s.lo⟩) (List.pairwise_append.mp h).2.1
  have hproper : Proper (glue [s] (after s.lo l)) :=
    glue_proper (by simpa using hs) (after_proper hp s.lo)
  exact glue_apart hb hright (by simpa using ⟨before_proper hp s.lo, hproper⟩) h.ordered_glue

theorem fits_of_disjoint {s : Span α} {l : List (Span α)} (ho : Ordered l) (hp : Proper l)
    (hs : s.lo < s.hi) (hd : ∀ x, s.Contains x → ¬ Covers l x) : Fits s l := by
  have hsplit : Ordered (before s.lo l ++ after s.lo l) := by rwa [before_append_after]
  obtain ⟨hb, ha, hba⟩ := List.pairwise_append.mp hsplit
  have hleft : ∀ p ∈ before s.lo l, p.hi ≤ s.lo := by
    intro p hpmem
    by_contra hlt
    have hmem : p ∈ l := (List.takeWhile_sublist _).subset hpmem
    exact hd s.lo ⟨le_rfl, hs⟩ ⟨p, hmem, (lo_lt_of_mem_before hpmem).le, not_le.mp hlt⟩
  have hright : ∀ n ∈ after s.lo l, s.hi ≤ n.lo := by
    intro n hn
    by_contra hlt
    have hmem : n ∈ l := (List.dropWhile_sublist _).subset hn
    exact hd n.lo ⟨le_lo_of_mem_after ho hp hn, not_le.mp hlt⟩ ⟨n, hmem, le_rfl, hp n hmem⟩
  refine List.pairwise_append.mpr ⟨hb, List.pairwise_cons.mpr ⟨hright, ha⟩, ?_⟩
  intro p hpmem t ht
  rcases List.mem_cons.mp ht with rfl | ht
  · exact hleft p hpmem
  · exact hba p hpmem t ht

end Order

/-! ### Lengths of spans of natural numbers -/

def total (l : List (Span Nat)) : Nat := (l.map fun s => s.hi - s.lo).sum

@[simp] theorem total_nil : total [] = 0 := rfl

@[simp] theorem total_cons (s : Span Nat) (l : List (Span Nat)) :
    total (s :: l) = (s.hi - s.lo) + total l := rfl

@[simp] theorem total_append (l r : List (Span Nat)) : total (l ++ r) = total l + total r := by
  simp [total]

theorem total_glue {l r : List (Span Nat)} (hl : Proper l) (hr : Proper r) :
    total (glue l r) = total l + total r := by
  fun_induction glue l r with
  | case1 right => simp
  | case2 s t right heq =>
    have hs : s.lo < s.hi := hl s (by simp)
    have ht : t.lo < t.hi := hr t (by simp)
    simp only [total_cons, total_nil]
    omega
  | case3 s t right hne => simp
  | case4 s left right _ ih =>
    simp only [proper_cons] at hl
    simp only [total_cons, ih hl.2 hr]
    omega

theorem total_insert {s : Span Nat} {l : List (Span Nat)} (hs : s.lo < s.hi) (hp : Proper l) :
    total (insert s l) = (s.hi - s.lo) + total l := by
  have hsingle : Proper [s] := by simpa using hs
  have hb := before_proper hp s.lo
  have ha := after_proper hp s.lo
  rw [insert, total_glue hb (glue_proper hsingle ha), total_glue hsingle ha]
  conv_rhs => rw [← before_append_after s.lo l]
  simp only [total_cons, total_nil, total_append]
  omega

theorem total_le {l : List (Span Nat)} {lo hi : Nat} (ho : Ordered l) (hp : Proper l)
    (hin : ∀ s ∈ l, lo ≤ s.lo ∧ s.hi ≤ hi) : total l ≤ hi - lo := by
  induction l generalizing lo with
  | nil => exact Nat.zero_le _
  | cons s rest ih =>
    obtain ⟨hle, hrest⟩ := List.pairwise_cons.mp ho
    have hs : s.lo < s.hi := hp s (by simp)
    have hbound := hin s (by simp)
    have hbelow := ih hrest (fun t ht => hp t (by simp [ht])) fun t ht =>
      ⟨hle t ht, (hin t (by simp [ht])).2⟩
    rw [total_cons]
    omega

theorem Apart.eq_singleton {l : List (Span Nat)} {lo hi : Nat} (ha : Apart l) (hp : Proper l)
    (hin : ∀ s ∈ l, lo ≤ s.lo ∧ s.hi ≤ hi) (hlt : lo < hi) (htotal : total l = hi - lo) :
    l = [⟨lo, hi⟩] := by
  cases l with
  | nil =>
    rw [total_nil] at htotal
    omega
  | cons s rest =>
    obtain ⟨hgap, hrest⟩ := List.pairwise_cons.mp ha
    have hs : s.lo < s.hi := hp s (by simp)
    have hbound := hin s (by simp)
    have hbelow := total_le (Apart.ordered hrest) (fun t ht => hp t (by simp [ht])) fun t ht =>
      ⟨Nat.succ_le_of_lt (hgap t ht), (hin t (by simp [ht])).2⟩
    rw [total_cons] at htotal
    cases rest with
    | nil =>
      rw [total_nil] at htotal
      have hlo : s.lo = lo := by omega
      have hhi : s.hi = hi := by omega
      rw [← hlo, ← hhi]
    | cons t rest =>
      -- the gap below t is missing from the total
      have hnext := hgap t (by simp)
      have ht : t.lo < t.hi := hp t (by simp)
      have htop := hin t (by simp)
      omega

/-- Proper spans that only cover points of a range lie inside it. -/
theorem inside_of_covers {l : List (Span Nat)} {lo hi : Nat} (hp : Proper l)
    (h : ∀ a, Covers l a → lo ≤ a ∧ a < hi) : ∀ s ∈ l, lo ≤ s.lo ∧ s.hi ≤ hi := by
  intro s hs
  have hlt : s.lo < s.hi := hp s hs
  have hfirst := h s.lo ⟨s, hs, Nat.le_refl _, hlt⟩
  have hlast := h (s.hi - 1) ⟨s, hs, by omega, by omega⟩
  omega

end Span
