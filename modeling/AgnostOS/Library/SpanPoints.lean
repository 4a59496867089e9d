import AgnostOS.Library.Subdivision
import Mathlib.Order.Interval.Finset.Nat

/-! The points that spans cover: an unbroken stretch of them lies in one span, and disjoint
spans of natural numbers cover as many as their lengths add up to. -/
namespace Span
section Order
variable {α : Type*} [LinearOrder α]

/-- In a list of spans that do not even touch, whatever is covered throughout lies in one
of them. -/
theorem Apart.within_one {l : List (Span α)} (ha : Apart l) {lo hi : α} (hlt : lo < hi)
    (hcovered : ∀ x, lo ≤ x → x < hi → Covers l x) : ∃ s ∈ l, s.lo ≤ lo ∧ hi ≤ s.hi := by
  obtain ⟨s, hs, hlo, hin⟩ := hcovered lo le_rfl hlt
  refine ⟨s, hs, hlo, ?_⟩
  by_contra hshort
  obtain ⟨t, ht, htlo, hthi⟩ := hcovered s.hi hin.le (not_le.mp hshort)
  have hpairs := List.pairwise_iff_getElem.mp ha
  obtain ⟨i, hi, rfl⟩ := List.getElem_of_mem hs
  obtain ⟨j, hj, rfl⟩ := List.getElem_of_mem ht
  rcases lt_trichotomy i j with hij | rfl | hji
  · exact absurd htlo (not_le.mpr (hpairs i j hi hj hij))
  · exact absurd hthi (lt_irrefl _)
  · exact absurd ((hpairs j i hj hi hji).trans_le (hlo.trans hin.le)) (not_lt.mpr hthi.le)

end Order

/-! ### Counting -/

def pointsBelow (n : Nat) (p : Nat → Prop) [DecidablePred p] : Nat :=
  ((Finset.range n).filter p).card

section Count
variable {n : Nat} {p q : Nat → Prop} [DecidablePred p] [DecidablePred q]

theorem pointsBelow_congr (h : ∀ x < n, p x ↔ q x) : pointsBelow n p = pointsBelow n q := by
  refine congrArg Finset.card (Finset.filter_congr fun x hx => h x (Finset.mem_range.mp hx))

theorem pointsBelow_split :
    pointsBelow n p = pointsBelow n (fun x => p x ∧ q x) + pointsBelow n (fun x => p x ∧ ¬ q x) := by
  simp only [pointsBelow]
  rw [← Finset.filter_filter, ← Finset.filter_filter]
  exact (Finset.card_filter_add_card_filter_not q).symm

theorem pointsBelow_or (h : ∀ x < n, p x → ¬ q x) :
    pointsBelow n (fun x => p x ∨ q x) = pointsBelow n p + pointsBelow n q := by
  rw [pointsBelow_split (p := fun x => p x ∨ q x) (q := p)]
  refine congrArg₂ (· + ·) (pointsBelow_congr fun x _ => ?_) (pointsBelow_congr fun x hx => ?_)
  · exact ⟨fun h => h.2, fun hp => ⟨.inl hp, hp⟩⟩
  · have hxor := h x hx
    constructor
    · rintro ⟨hp | hq, hnot⟩
      · exact absurd hp hnot
      · exact hq
    · exact fun hq => ⟨.inr hq, fun hp => hxor hp hq⟩

theorem pointsBelow_le : pointsBelow n p ≤ n := by
  simpa [pointsBelow] using Finset.card_filter_le (Finset.range n) p

end Count

theorem pointsBelow_contains {n : Nat} {s : Span Nat} (h : s.hi ≤ n) :
    pointsBelow n s.Contains = s.hi - s.lo := by
  have hpoints : (Finset.range n).filter s.Contains = Finset.Ico s.lo s.hi := by
    ext x
    simp only [Finset.mem_filter, Finset.mem_range, Finset.mem_Ico, Contains]
    omega
  rw [pointsBelow, hpoints, Nat.card_Ico]

instance (l : List (Span Nat)) : DecidablePred (Covers l) :=
  fun x => inferInstanceAs (Decidable (∃ s ∈ l, s.Contains x))

theorem pointsBelow_covers {l : List (Span Nat)} (hd : Disjointed l) {n : Nat}
    (hn : ∀ s ∈ l, s.hi ≤ n) : pointsBelow n (Covers l) = total l := by
  induction l with
  | nil =>
    have hnone : (Finset.range n).filter (Covers []) = ∅ :=
      Finset.filter_false_of_mem fun x _ => not_covers_nil x
    rw [pointsBelow, hnone, Finset.card_empty, total_nil]
  | cons s l ih =>
    obtain ⟨hs, hl⟩ := List.pairwise_cons.mp hd
    have hrest := ih hl fun t ht => hn t (List.mem_cons_of_mem s ht)
    have happart : ∀ x < n, s.Contains x → ¬ Covers l x := by
      rintro x - hx ⟨t, ht, htx⟩
      exact hs t ht x hx htx
    rw [total_cons, ← pointsBelow_contains (hn s List.mem_cons_self), ← hrest,
      ← pointsBelow_or happart]
    exact pointsBelow_congr fun x _ => covers_cons s l x

end Span
