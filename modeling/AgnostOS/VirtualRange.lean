import AgnostOS.Globals
import AgnostOS.Library.Word

/-! Checked virtual spans of paging.rs. -/
namespace AgnostOS.Paging
open Globals Word

inductive VirtualRangeError where
  | empty | misaligned | nonCanonical | overflow
  deriving DecidableEq, Repr

def isCanonical (address : Nat) : Prop :=
  address ≤ LOW_CANONICAL_MAX ∨ address ≥ HIGH_CANONICAL_MIN

instance (address : Nat) : Decidable (isCanonical address) :=
  inferInstanceAs (Decidable (_ ∨ _))

structure VirtualRange where
  start : Nat
  length : Nat
  nonempty : length ≠ 0
  aligned : PAGE_SIZE ∣ start ∧ PAGE_SIZE ∣ length
  bounded : start + (length - 1) < 2 ^ 64
  canonical : isCanonical start ∧ isCanonical (start + (length - 1))

namespace VirtualRange

def new (start length : Nat) : Except VirtualRangeError VirtualRange :=
  if hempty : length = 0 then .error .empty
  else if haligned : ¬ PAGE_SIZE ∣ start ∨ ¬ PAGE_SIZE ∣ length then .error .misaligned
  else if hbounded : 2 ^ 64 ≤ start + (length - 1) then .error .overflow
  else if hcanonical : ¬ isCanonical start ∨ ¬ isCanonical (start + (length - 1)) then
    .error .nonCanonical
  else
    .ok ⟨start, length, hempty, by simpa [not_or] using haligned, Nat.lt_of_not_le hbounded,
      by simpa [not_or] using hcanonical⟩

/-- The plain sum: it wraps for a span that ends the address space. -/
def endExclusive (range : VirtualRange) : Nat := wrappingAdd 64 range.start range.length

theorem new_ok {start length : Nat} {range : VirtualRange} (h : new start length = .ok range) :
    range.start = start ∧ range.length = length := by
  rw [new] at h
  split_ifs at h
  cases h
  exact ⟨rfl, rfl⟩

end VirtualRange

structure IsPage (page : Nat) : Prop where
  aligned : PAGE_SIZE ∣ page
  canonical : isCanonical page
  bounded : page < 2 ^ 64

namespace VirtualRange

theorem isPage_of_new {start : Nat} {range : VirtualRange} (h : new start PAGE_SIZE = .ok range) :
    IsPage start := by
  obtain ⟨hstart, -⟩ := new_ok h
  have hbounded := range.bounded
  rw [hstart] at hbounded
  exact ⟨hstart ▸ range.aligned.1, hstart ▸ range.canonical.1,
    (Nat.le_add_right _ _).trans_lt hbounded⟩

theorem new_page {start : Nat} (h : IsPage start) : ∃ range, new start PAGE_SIZE = .ok range := by
  obtain ⟨haligned, hcanonical, hbounded⟩ := h
  have hlast : start + (PAGE_SIZE - 1) < 2 ^ 64 := by
    simp only [PAGE_SIZE] at *
    omega
  have hend : isCanonical (start + (PAGE_SIZE - 1)) := by
    simp only [isCanonical, PAGE_SIZE, LOW_CANONICAL_MAX, HIGH_CANONICAL_MIN] at *
    omega
  have hboth : ¬ (¬ isCanonical start ∨ ¬ isCanonical (start + (PAGE_SIZE - 1))) :=
    not_or.mpr ⟨not_not.mpr hcanonical, not_not.mpr hend⟩
  rw [new, dif_neg (by decide), dif_neg (by simp [haligned]), dif_neg (Nat.not_le.mpr hlast),
    dif_neg hboth]
  exact ⟨_, rfl⟩

/-! ### Accepted spans as a whole -/

structure Canonical (range : VirtualRange) : Prop where
  throughout : ∀ address, range.start ≤ address → address < range.start + range.length →
    isCanonical address
  fits : range.start + range.length < 2 ^ 64
  ordered : range.start < range.endExclusive

/-- Between canonical ends only a span around the hole has other addresses. -/
theorem canonical_between_iff {first last : Nat} (hle : first ≤ last) (hfirst : isCanonical first)
    (hlast : isCanonical last) : (∀ address, first ≤ address → address ≤ last → isCanonical address) ↔
      ¬ (first ≤ LOW_CANONICAL_MAX ∧ HIGH_CANONICAL_MIN ≤ last) := by
  simp only [isCanonical, LOW_CANONICAL_MAX, HIGH_CANONICAL_MIN] at *
  constructor
  · rintro h ⟨hlow, hhigh⟩
    have hhole := h (0x00007fffffffffff + 1) (by omega) (by omega)
    omega
  · intro h address hlo hhi
    omega

/-- The two ends decide, but for spans around the hole and spans up to the last address. -/
theorem canonical_iff {start length : Nat} {range : VirtualRange} (h : new start length = .ok range) :
    range.Canonical ↔ start + length ≠ 2 ^ 64 ∧
      ¬ (start ≤ LOW_CANONICAL_MAX ∧ HIGH_CANONICAL_MIN < start + length) := by
  obtain ⟨hstart, hlength⟩ := new_ok h
  have hnonempty := range.nonempty
  have hbounded := range.bounded
  have hbetween := canonical_between_iff (Nat.le_add_right _ _) range.canonical.1 range.canonical.2
  rw [hstart, hlength] at hbetween hbounded
  rw [hlength] at hnonempty
  constructor
  · intro hcanonical
    have hfits := hcanonical.fits
    rw [hstart, hlength] at hfits
    refine ⟨hfits.ne, ?_⟩
    have hends := hbetween.mp fun address hlo hhi =>
      hcanonical.throughout address (by omega) (by omega)
    omega
  · rintro ⟨hend, haround⟩
    have hfits : range.start + range.length < 2 ^ 64 := by omega
    constructor
    · intro address hlo hhi
      exact hbetween.mpr (by omega) address (by omega) (by omega)
    · exact hfits
    · rw [endExclusive, wrappingAdd_of_lt hfits]
      omega

/-- The fixed heap window of the higher half. -/
theorem canonical_heap_window :
    ∃ range, new 0xffff900000000000 (2 ^ 40) = .ok range ∧ range.Canonical := by
  have hends : 0xffff900000000000 + 2 ^ 40 ≠ 2 ^ 64 ∧ ¬ (0xffff900000000000 ≤ LOW_CANONICAL_MAX ∧
      HIGH_CANONICAL_MIN < 0xffff900000000000 + 2 ^ 40) := by
    decide
  have hiff := fun range (h : new 0xffff900000000000 (2 ^ 40) = .ok range) => canonical_iff h
  exact ⟨_, rfl, (hiff _ rfl).mpr hends⟩

/-- The last page of the address space is accepted, and so is a span around the hole. -/
theorem end_and_hole_accepted :
    (∃ range, new 0xfffffffffffff000 PAGE_SIZE = .ok range ∧ range.endExclusive = 0) ∧
      ∃ range, new 0x7ffffffff000 0xffff000000002000 = .ok range ∧
        range.start ≤ 0x800000000000 ∧ 0x800000000000 < range.start + range.length ∧
          ¬ isCanonical 0x800000000000 := by
  constructor
  · exact ⟨_, rfl, by decide⟩
  · exact ⟨_, rfl, by decide, by decide, by decide⟩

end VirtualRange

end AgnostOS.Paging
