import AgnostOS.FreeList
import AgnostOS.PageWalk

/-! The calls of paging.rs as walks: which pages reach a mapper, before and after the
switch to the kernel's tables, and `map_range` page by page. -/
namespace AgnostOS.Paging
open Globals Word AgnostOS.Frame Attempt PageTableFlags

def renamed {ε α : Type} (error : PagingError) (result : Except (Stop ε) α × AddressSpace) :
    Except (Stop PagingError) α × AddressSpace :=
  (result.1.mapError (Stop.map fun _ => error), result.2)

theorem returned_map {ε ε' : Type} (f : ε → ε') (stop : Stop ε) :
    (stop.map f).returned ↔ stop.returned := by
  cases stop <;> rfl

structure Mappable (page frame : Nat) : Prop extends IsPage page where
  frameAligned : PAGE_SIZE ∣ frame
  frameBounded : frame < 2 ^ 52

theorem containingAddress_of_aligned {a : Nat} (h : PAGE_SIZE ∣ a) : containingAddress a = a :=
  Nat.div_mul_cancel h

section Single
variable {mappers : Mappers} {storage : Storage} {m : AddressSpace}

theorem mapOnMapper_outcome {page frame : Nat} (h : Mappable page frame) (mapper : Mapper)
    (flags : PageTableFlags) :
    outcome (mapOnMapper storage mapper page frame flags) m =
      renamed .mappingFailed (outcome (mapper.mapTo page frame flags (reserveFrame storage)) m) := by
  have hpage : (virtAddr page : Kernel PagingError Nat) = pure page := if_pos h.canonical
  have hframe : (physAddr frame : Kernel PagingError Nat) = pure frame := if_pos h.frameBounded
  rw [mapOnMapper, hpage, hframe, pure_bind, pure_bind, containingAddress_of_aligned h.aligned,
    containingAddress_of_aligned h.frameAligned]
  exact outcome_adapt _ _ _

theorem unmapOnMapper_outcome {page : Nat} (haligned : PAGE_SIZE ∣ page)
    (hcanonical : isCanonical page) (mapper : Mapper) :
    outcome (unmapOnMapper mapper page) m =
      renamed .unmappingFailed (outcome (mapper.unmap page) m) := by
  have hpage : (virtAddr page : Kernel PagingError Nat) = pure page := if_pos hcanonical
  rw [unmapOnMapper, hpage, pure_bind, containingAddress_of_aligned haligned]
  exact outcome_adapt _ _ _

theorem withOffsetMapper_outcome {α : Type} {root : PageTableRoot} (hroot : m.root = some root)
    (operation : Mapper → Kernel PagingError α) :
    outcome (withOffsetMapper mappers operation) m =
      outcome (operation (mappers.offset root.frame)) m := by
  rw [withOffsetMapper, outcome_get_bind, hroot]

theorem withRecursiveMapper_outcome {α : Type} {root : PageTableRoot} (hroot : m.root = some root)
    (operation : Mapper → Kernel PagingError α) :
    outcome (withRecursiveMapper mappers operation) m =
      outcome (operation (mappers.recursive recursiveTableAddress RECURSIVE_INDEX)) m := by
  rw [withRecursiveMapper, outcome_get_bind, hroot]

/-- The checks of `map_page`. -/
theorem mapPage_accepted {page frame : Nat} (h : Mappable page frame) (flags : PageTableFlags) :
    outcome (mapPage mappers storage page frame flags) m =
      outcome (if m.pagingActive then
        withRecursiveMapper mappers fun mapper => mapOnMapper storage mapper page frame flags
      else
        withOffsetMapper mappers fun mapper => mapOnMapper storage mapper page frame flags) m := by
  obtain ⟨range, hrange⟩ := VirtualRange.new_page h.toIsPage
  rw [mapPage, hrange]
  simp only [orRaise, pure_bind, (VirtualRange.new_ok hrange).1, not_not.mpr h.frameAligned,
    if_false, outcome_get_bind]

/-- Every other pair is refused or panics before any table is read. -/
theorem mapPage_refused {page frame : Nat} (h : ¬ Mappable page frame) (flags : PageTableFlags) :
    ∃ stop, stop ≠ .error .mappingFailed ∧
      outcome (mapPage mappers storage page frame flags) m = (.error stop, m) := by
  rw [mapPage]
  cases hrange : VirtualRange.new page PAGE_SIZE with
  | error e => exact ⟨.error (.range e), by simp, rfl⟩
  | ok range =>
    simp only [orRaise, pure_bind]
    by_cases hframe : PAGE_SIZE ∣ frame
    · have hlarge : ¬ frame < 2 ^ 52 := fun hlt =>
        h ⟨VirtualRange.isPage_of_new hrange, hframe, hlt⟩
      have hcanonical : (virtAddr range.start : Kernel PagingError Nat) = pure range.start :=
        if_pos range.canonical.1
      have hpanic : (physAddr frame : Kernel PagingError Nat) = throw .panic := if_neg hlarge
      have hcall : ∀ mapper,
          outcome (mapOnMapper storage mapper range.start frame flags) m = (.error .panic, m) := by
        intro mapper
        rw [mapOnMapper, hcanonical, hpanic, pure_bind, outcome_throw_bind]
      rw [if_neg (not_not.mpr hframe), outcome_get_bind, outcome_ite]
      cases hroot : m.root with
      | none =>
        refine ⟨.error .notInitialized, by simp, ?_⟩
        split
        · rw [withRecursiveMapper, outcome_get_bind, hroot, outcome_throw]
        · rw [withOffsetMapper, outcome_get_bind, hroot, outcome_throw]
      | some root =>
        refine ⟨.panic, by simp, ?_⟩
        split
        · rw [withRecursiveMapper_outcome hroot, hcall]
        · rw [withOffsetMapper_outcome hroot, hcall]
    · rw [if_pos hframe]
      exact ⟨.error (.range .misaligned), by simp, rfl⟩

theorem mapPage_cold (hdoc : mappers.Documented storage) {root : PageTableRoot}
    (hroot : m.root = some root) (hcold : m.cr3 = none) (hinactive : m.pagingActive = false)
    {page frame : Nat} (h : Mappable page frame) (flags : PageTableFlags) :
    outcome (mapPage mappers storage page frame flags) m =
      renamed .mappingFailed
        (outcome (walkMapTo followOffset root.frame page frame flags (reserveFrame storage)) m) := by
  rw [mapPage_accepted h, hinactive, if_neg Bool.false_ne_true, withOffsetMapper_outcome hroot,
    mapOnMapper_outcome h, hdoc.offset_mapTo _ _ _ _ _ hcold]

theorem mapPage_live (hdoc : mappers.Documented storage) {root : PageTableRoot}
    (hroot : m.root = some root) (hlive : m.Recursive storage root.frame)
    (hactive : m.pagingActive = true) {page frame : Nat} (h : Mappable page frame)
    (flags : PageTableFlags) :
    outcome (mapPage mappers storage page frame flags) m =
      renamed .mappingFailed
        (outcome (walkMapTo followRecursive root.frame page frame flags (reserveFrame storage))
          m) := by
  rw [mapPage_accepted h, hactive, if_pos rfl, withRecursiveMapper_outcome hroot,
    mapOnMapper_outcome h, hdoc.recursive_mapTo _ _ _ _ _ hlive]

/-- On the kernel's own tables `unmap_page` is the walk to its page. -/
theorem unmapPage_live (hdoc : mappers.Documented storage) {root : PageTableRoot}
    (hroot : m.root = some root) (hlive : m.Recursive storage root.frame)
    (hactive : m.pagingActive = true) {page : Nat} (h : IsPage page) :
    outcome (unmapPage mappers page) m =
      renamed .unmappingFailed (outcome (walkUnmap root.frame page) m) := by
  obtain ⟨range, hrange⟩ := VirtualRange.new_page h
  rw [unmapPage, hrange]
  simp only [orRaise, pure_bind, outcome_get_bind, hactive, if_true]
  rw [withRecursiveMapper_outcome hroot,
    unmapOnMapper_outcome range.aligned.1 range.canonical.1, hdoc.recursive_unmap _ _ _ hlive,
    (VirtualRange.new_ok hrange).1]

theorem unmapPage_refused {page : Nat} (h : ¬ IsPage page) :
    ∃ e, outcome (unmapPage mappers page) m = (.error (.error e), m) := by
  rw [unmapPage]
  cases hrange : VirtualRange.new page PAGE_SIZE with
  | error e => exact ⟨_, rfl⟩
  | ok range => exact absurd (VirtualRange.isPage_of_new hrange) h

end Single

/-! ### Ranges as lists of pages -/

/-- A successful rounding covers the range with whole pages below 2^64. -/
theorem pageBounds_ok {start length : Nat} {bounds : Nat × Nat}
    (h : pageBounds start length = .ok bounds) :
    bounds.1 = start / PAGE_SIZE * PAGE_SIZE ∧
      bounds.2 = (start + length + (PAGE_SIZE - 1)) / PAGE_SIZE * PAGE_SIZE ∧ bounds.2 < 2 ^ 64 := by
  rw [pageBounds] at h
  cases hsum : checkedAdd 64 start length with
  | none => simp [hsum] at h
  | some stop =>
    obtain ⟨hstop, rfl⟩ := checkedAdd_eq_some.mp hsum
    simp only [hsum] at h
    split_ifs at h with haligned
    · cases h
      refine ⟨rfl, ?_, hstop⟩
      simp only [PAGE_SIZE] at haligned ⊢
      omega
    · cases hround : checkedAdd 64 (start + length) (PAGE_SIZE - 1) with
      | none =>
        rw [hround] at h
        cases h
      | some sum =>
        obtain ⟨hlt, rfl⟩ := checkedAdd_eq_some.mp hround
        rw [hround] at h
        cases h
        exact ⟨rfl, rfl, (Nat.div_mul_le_self _ _).trans_lt hlt⟩

def windowPages (bounds : Nat × Nat) : List Nat :=
  pagesFrom bounds.1 ((bounds.2 - bounds.1) / PAGE_SIZE)

theorem mem_windowPages {start length : Nat} {bounds : Nat × Nat}
    (h : pageBounds start length = .ok bounds) {page : Nat} :
    page ∈ windowPages bounds ↔
      PAGE_SIZE ∣ page ∧ start < page + PAGE_SIZE ∧ page < start + length := by
  obtain ⟨hfirst, hlast, -⟩ := pageBounds_ok h
  have haligned : PAGE_SIZE ∣ bounds.1 := hfirst ▸ Nat.dvd_mul_left _ _
  rw [windowPages, mem_pagesFrom_aligned haligned]
  simp only [PAGE_SIZE] at *
  constructor
  · rintro ⟨hpage, hlo, hhi⟩
    exact ⟨hpage, by omega, by omega⟩
  · rintro ⟨hpage, hlo, hhi⟩
    exact ⟨hpage, by omega, by omega⟩

theorem mem_windowPages_bounds {bounds : Nat × Nat} {page : Nat} (h : page ∈ windowPages bounds) :
    bounds.1 ≤ page ∧ page < bounds.2 := by
  obtain ⟨k, hk, rfl⟩ := mem_pagesFrom.mp h
  simp only [PAGE_SIZE] at *
  omega

section Range
variable (mappers : Mappers) (storage : Storage)

def mapAll : List (Nat × PageTableFlags) → Kernel PagingError Unit
  | [] => pure ()
  | (page, flags) :: rest => do
    mapPage mappers storage page page flags
    mapAll rest

theorem mapAll_append (first second : List (Nat × PageTableFlags)) :
    mapAll mappers storage (first ++ second) = (do
      mapAll mappers storage first
      mapAll mappers storage second) := by
  induction first with
  | nil => rfl
  | cons request rest ih =>
    rw [List.cons_append, mapAll, ih, mapAll, bind_assoc]

variable {mappers storage}

theorem mapPages_eq {last : Nat} (flags : PageTableFlags) (hlast : last < 2 ^ 64) {fuel : Nat}
    {address n : Nat} (hpages : address + n * PAGE_SIZE = last) (hfuel : n < fuel) :
    mapPages mappers storage last flags fuel address =
      mapAll mappers storage ((pagesFrom address n).map fun page => (page, flags)) := by
  induction fuel generalizing address n with
  | zero => omega
  | succ fuel ih =>
    rw [mapPages]
    cases n with
    | zero =>
      rw [if_neg (by omega)]
      rfl
    | succ n =>
      have hstep : address + PAGE_SIZE + n * PAGE_SIZE = last := by
        rw [← hpages, Nat.succ_mul]
        omega
      have hwrap : wrappingAdd 64 address PAGE_SIZE = address + PAGE_SIZE :=
        wrappingAdd_of_lt (by omega)
      rw [if_pos (by simp only [PAGE_SIZE] at *; omega), hwrap, ih hstep (by omega), Nat.add_comm n,
        pagesFrom_add, pagesFrom_one, one_mul]
      rfl

def mapBounds (mappers : Mappers) (storage : Storage) (bounds : Except PagingError (Nat × Nat))
    (flags : PageTableFlags) : Kernel PagingError Unit := do
  let bounds ← orRaise id bounds
  mapAll mappers storage ((windowPages bounds).map fun page => (page, flags))

theorem mapRange_eq (start length : Nat) (flags : PageTableFlags) :
    mapRange mappers storage start length flags =
      mapBounds mappers storage (pageBounds start length) flags := by
  rw [mapRange, mapBounds]
  cases hbounds : pageBounds start length with
  | error e => rfl
  | ok bounds =>
    obtain ⟨hfirst, hlast, hlt⟩ := pageBounds_ok hbounds
    simp only [orRaise, pure_bind]
    apply mapPages_eq flags hlt _ (Nat.lt_succ_self _)
    simp only [PAGE_SIZE] at *
    omega

end Range

end AgnostOS.Paging
