import AgnostOS.DeviceMapping
import AgnostOS.MappingReturns
import AgnostOS.PageMap
import AgnostOS.PageWindows

/-! The calls of paging.rs for any address: which of them come back to the caller, and
which pages `map_range` hands to `map_page`. -/
namespace AgnostOS.Paging
open Globals Word Memory AgnostOS.Frame Attempt PageTableFlags

/-! ### One call -/

inductive MapCall (mappers : Mappers) (storage : Storage) (m : AddressSpace) (page frame : Nat)
    (flags : PageTableFlags) : Except (Stop PagingError) Unit × AddressSpace → Prop where
  | refused (e : VirtualRangeError) : ¬ (IsPage page ∧ PAGE_SIZE ∣ frame) →
      MapCall mappers storage m page frame flags (.error (.error (.range e)), m)
  | noRoot : IsPage page → PAGE_SIZE ∣ frame → m.root = none →
      MapCall mappers storage m page frame flags (.error (.error .notInitialized), m)
  | high : IsPage page → PAGE_SIZE ∣ frame → m.root.isSome → 2 ^ 52 ≤ frame →
      MapCall mappers storage m page frame flags (.error .panic, m)
  | passed (root : PageTableRoot) : Mappable page frame → m.root = some root →
      MapCall mappers storage m page frame flags
        (renamed .mappingFailed
          (outcome ((activeMapper mappers m root).mapTo page frame flags (reserveFrame storage)) m))

section Calls
variable {mappers : Mappers} {storage : Storage} {m : AddressSpace}

/-- `with_recursive_mapper` or `with_offset_mapper`, as `map_page` and `unmap_page` choose. -/
theorem withMapper_outcome {α : Type} {root : PageTableRoot} (hroot : m.root = some root)
    (operation : Mapper → Kernel PagingError α) :
    outcome (if m.pagingActive then withRecursiveMapper mappers operation
      else withOffsetMapper mappers operation) m =
      outcome (operation (activeMapper mappers m root)) m := by
  rw [activeMapper]
  cases m.pagingActive with
  | true => exact withRecursiveMapper_outcome hroot operation
  | false => exact withOffsetMapper_outcome hroot operation

theorem withMapper_noRoot {α : Type} (hroot : m.root = none)
    (operation : Mapper → Kernel PagingError α) :
    outcome (if m.pagingActive then withRecursiveMapper mappers operation
      else withOffsetMapper mappers operation) m = (.error (.error .notInitialized), m) := by
  cases m.pagingActive with
  | true =>
    rw [if_pos rfl, withRecursiveMapper, outcome_get_bind, hroot]
    rfl
  | false =>
    rw [if_neg Bool.false_ne_true, withOffsetMapper, outcome_get_bind, hroot]
    rfl

theorem mapOnMapper_high {page frame : Nat} (hpage : isCanonical page) (hframe : 2 ^ 52 ≤ frame)
    (mapper : Mapper) (flags : PageTableFlags) :
    outcome (mapOnMapper storage mapper page frame flags) m = (.error .panic, m) := by
  have hvirtual : (virtAddr page : Kernel PagingError Nat) = pure page := if_pos hpage
  have hphysical : (physAddr frame : Kernel PagingError Nat) = throw .panic :=
    if_neg (Nat.not_lt.mpr hframe)
  rw [mapOnMapper, hvirtual, hphysical, pure_bind, outcome_throw_bind]

theorem mapPage_call (mappers : Mappers) (storage : Storage) (m : AddressSpace) (page frame : Nat)
    (flags : PageTableFlags) :
    MapCall mappers storage m page frame flags
      (outcome (mapPage mappers storage page frame flags) m) := by
  rw [mapPage]
  cases hrange : VirtualRange.new page PAGE_SIZE with
  | error e =>
    apply MapCall.refused
    intro h
    cases VirtualRange.new_page h.1 with
    | intro range hok =>
      rw [hok] at hrange
      cases hrange
  | ok range =>
    have hpage := VirtualRange.isPage_of_new hrange
    have hstart := (VirtualRange.new_ok hrange).1
    simp only [orRaise, pure_bind]
    by_cases hframe : PAGE_SIZE ∣ frame
    · rw [if_neg (not_not.mpr hframe), outcome_get_bind, hstart]
      cases hroot : m.root with
      | none =>
        rw [withMapper_noRoot hroot]
        exact .noRoot hpage hframe hroot
      | some root =>
        rw [withMapper_outcome hroot]
        by_cases hlow : frame < 2 ^ 52
        · have hmappable : Mappable page frame := ⟨hpage, hframe, hlow⟩
          rw [mapOnMapper_outcome hmappable]
          exact .passed root hmappable hroot
        · have hhigh := Nat.not_lt.mp hlow
          rw [mapOnMapper_high hpage.canonical hhigh]
          exact .high hpage hframe (hroot ▸ rfl) hhigh
    · rw [if_pos hframe]
      exact .refused _ fun h => hframe h.2

end Calls

/-! ### Calls that come back -/

section Returns
variable {mappers : Mappers} {storage : Storage} {m : AddressSpace}

end Returns

def roundedEnd (start length : Nat) : Nat :=
  (start + length + (PAGE_SIZE - 1)) / PAGE_SIZE * PAGE_SIZE

/-- Only an end that does not fit in 64 bits is refused. -/
theorem pageBounds_cases (start length : Nat) :
    (2 ^ 64 ≤ roundedEnd start length ∧ pageBounds start length = .error .addressTooLarge) ∨
      ∃ bounds, pageBounds start length = .ok bounds ∧ bounds.2 = roundedEnd start length ∧
        bounds.2 < 2 ^ 64 := by
  cases hbounds : pageBounds start length with
  | ok bounds =>
    have hok := pageBounds_ok hbounds
    exact .inr ⟨bounds, rfl, hok.2⟩
  | error e =>
    have he := pageBounds_error hbounds
    refine .inl ⟨?_, by rw [he]⟩
    rw [pageBounds] at hbounds
    rw [roundedEnd]
    cases hsum : checkedAdd 64 start length with
    | none =>
      have hlarge := checkedAdd_eq_none.mp hsum
      simp only [PAGE_SIZE]
      omega
    | some stop =>
      have hstop := checkedAdd_eq_some.mp hsum
      simp only [hsum] at hbounds
      split_ifs at hbounds with haligned
      cases hround : checkedAdd 64 stop (PAGE_SIZE - 1) with
      | none =>
        have hlarge := checkedAdd_eq_none.mp hround
        simp only [PAGE_SIZE] at *
        omega
      | some last =>
        rw [hround] at hbounds
        cases hbounds

theorem pagesFrom_ascending (start n : Nat) : (pagesFrom start n).Pairwise (· < ·) := by
  rw [pagesFrom, List.pairwise_map]
  apply List.pairwise_lt_range.imp
  intro i j hij
  simp only [PAGE_SIZE]
  omega

/-- Identity calls of `map_page` for one page after the other, up to the first that fails:
how they end and what they leave. -/
inductive IdentityCalls (mappers : Mappers) (storage : Storage) (flags : PageTableFlags) :
    List Nat → AddressSpace → Except (Stop PagingError) Unit × AddressSpace → Prop where
  | done (m : AddressSpace) : IdentityCalls mappers storage flags [] m (.ok (), m)
  | mapped {page : Nat} {rest : List Nat} {m m' : AddressSpace}
      {result : Except (Stop PagingError) Unit × AddressSpace} :
      outcome (mapPage mappers storage page page flags) m = (.ok (), m') →
      IdentityCalls mappers storage flags rest m' result →
      IdentityCalls mappers storage flags (page :: rest) m result
  | failed {page : Nat} {rest : List Nat} {m m' : AddressSpace} {stop : Stop PagingError} :
      outcome (mapPage mappers storage page page flags) m = (.error stop, m') →
      IdentityCalls mappers storage flags (page :: rest) m (.error stop, m')

section Range
variable (mappers : Mappers) (storage : Storage) (flags : PageTableFlags)

theorem mapAll_identity (pages : List Nat) (m : AddressSpace) :
    IdentityCalls mappers storage flags pages m
      (outcome (mapAll mappers storage (pages.map fun page => (page, flags))) m) := by
  induction pages generalizing m with
  | nil => exact .done m
  | cons page rest ih =>
    rw [List.map_cons, mapAll]
    cases hcall : outcome (mapPage mappers storage page page flags) m with
    | mk result m' =>
      cases result with
      | ok done =>
        rw [outcome_bind_ok _ hcall]
        exact .mapped hcall (ih m')
      | error stop =>
        rw [outcome_bind_error _ hcall]
        exact .failed hcall

/-- `map_page` never reports an address as too large. -/
theorem mapPage_not_tooLarge (page frame : Nat) (m : AddressSpace) :
    (outcome (mapPage mappers storage page frame flags) m).1 ≠ .error (.error .addressTooLarge) := by
  have hcall := mapPage_call mappers storage m page frame flags
  generalize outcome (mapPage mappers storage page frame flags) m = result at hcall
  cases hcall with
  | refused e hwhy => simp
  | noRoot hpage hframe hroot => simp
  | high hpage hframe hroot hlarge => simp
  | passed root hmappable hroot =>
    generalize outcome ((activeMapper mappers m root).mapTo page frame flags
      (reserveFrame storage)) m = inner
    cases inner with
    | mk result m' =>
      cases result with
      | ok done => simp [renamed, Except.mapError]
      | error stop => cases stop <;> simp [renamed, Except.mapError, Stop.map]

variable {mappers storage flags}

theorem IdentityCalls.not_tooLarge {pages : List Nat} {m : AddressSpace}
    {result : Except (Stop PagingError) Unit × AddressSpace}
    (h : IdentityCalls mappers storage flags pages m result) :
    result.1 ≠ .error (.error .addressTooLarge) := by
  induction h with
  | done m => simp
  | mapped hcall hrest ih => exact ih
  | failed hcall =>
    rw [← congrArg Prod.fst hcall]
    exact mapPage_not_tooLarge mappers storage flags _ _ _

end Range

/-- `map_range` refuses an end past 64 bits before it maps anything. Otherwise it asks for
the pages that meet the range, each once and in ascending order, until one fails, and no
step of its loop overflows. -/
theorem mapRange_pages (mappers : Mappers) (storage : Storage) (flags : PageTableFlags)
    (m : AddressSpace) {start length : Nat} (hlength : 0 < length) :
    ((outcome (mapRange mappers storage start length flags) m).1 =
        .error (.error .addressTooLarge) ↔ 2 ^ 64 ≤ roundedEnd start length) ∧
      (2 ^ 64 ≤ roundedEnd start length →
        outcome (mapRange mappers storage start length flags) m =
          (.error (.error .addressTooLarge), m)) ∧
      (roundedEnd start length < 2 ^ 64 →
        ∃ pages : List Nat, pages.Pairwise (· < ·) ∧
          (∀ page, page ∈ pages ↔ PAGE_SIZE ∣ page ∧
            ∃ a, page ≤ a ∧ a < page + PAGE_SIZE ∧ start ≤ a ∧ a < start + length) ∧
          (∀ page ∈ pages, page + PAGE_SIZE < 2 ^ 64) ∧
          IdentityCalls mappers storage flags pages m
            (outcome (mapRange mappers storage start length flags) m)) := by
  rw [mapRange_eq, mapBounds]
  cases pageBounds_cases start length with
  | inl hrefused =>
    rw [hrefused.2]
    refine ⟨?_, fun _ => rfl, fun hlt => absurd hrefused.1 (Nat.not_le.mpr hlt)⟩
    exact iff_of_true rfl hrefused.1
  | inr haccepted =>
    cases haccepted with
    | intro bounds h =>
      have hnot : ¬ 2 ^ 64 ≤ roundedEnd start length := by
        rw [← h.2.1]
        exact Nat.not_le.mpr h.2.2
      have hcalls := mapAll_identity mappers storage flags (windowPages bounds) m
      rw [h.1]
      simp only [orRaise, pure_bind]
      refine ⟨iff_of_false hcalls.not_tooLarge hnot, fun hle => absurd hle hnot, fun _ => ?_⟩
      refine ⟨windowPages bounds, pagesFrom_ascending _ _, ?_, ?_, hcalls⟩
      · intro page
        rw [mem_windowPages h.1]
        apply and_congr_right
        intro _
        constructor
        · intro hmeets
          refine ⟨max page start, ?_, ?_, ?_, ?_⟩ <;> simp only [PAGE_SIZE] at * <;> omega
        · intro hmeets
          cases hmeets with
          | intro a ha => omega
      · intro page hpage
        have hmem := (mem_windowPages h.1).mp hpage
        have hlast := h.2.1
        have hfits := h.2.2
        simp only [roundedEnd, PAGE_SIZE] at *
        omega

/-- Two bytes around a page boundary take both pages. -/
theorem mapRange_pages_around_boundary :
    roundedEnd 0x1fff 2 < 2 ^ 64 ∧
      ∃ pages : List Nat, pages.Pairwise (· < ·) ∧
        (∀ page, page ∈ pages ↔ PAGE_SIZE ∣ page ∧
          ∃ a, page ≤ a ∧ a < page + PAGE_SIZE ∧ 0x1fff ≤ a ∧ a < 0x1fff + 2) ∧
        (∀ page ∈ pages, page + PAGE_SIZE < 2 ^ 64) ∧
        IdentityCalls walkMappers kernelStorage kernelFlags pages coldSpace
          (outcome (mapRange walkMappers kernelStorage 0x1fff 2 kernelFlags) coldSpace) := by
  have hfits : roundedEnd 0x1fff 2 < 2 ^ 64 := by decide
  have hlength : 0 < 2 := by decide
  have hrange := @mapRange_pages walkMappers kernelStorage kernelFlags coldSpace 0x1fff 2 hlength
  exact ⟨hfits, hrange.2.2 hfits⟩

end AgnostOS.Paging
