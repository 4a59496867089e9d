import AgnostOS.HeapOwnership
import AgnostOS.IdentityMapping

/-! When the page-table arena is large enough for the bootstrap, and when
`reserve_frame` runs out. -/
namespace AgnostOS.Paging
open Globals Memory AgnostOS.Frame Allocator Attempt

section Boot
variable {mappers : Mappers} {storage : Storage} {m : AddressSpace}

/-- The list of pages decides how the bootstrap goes; what follows takes no table. -/
theorem initialize_run (hdoc : mappers.Documented storage) (h : m.Cold)
    (framebuffer kernelImage heap : Nat × Nat) (stackMarker : Nat) :
    ∃ result m', BootRun storage ∅ (requestedPages framebuffer kernelImage heap stackMarker)
        (result, m') ∧
      outcome (initializePaging mappers storage framebuffer kernelImage heap stackMarker) m =
        match result, windowError (bootWindows framebuffer kernelImage heap stackMarker) with
        | .error stop, _ => (.error stop, m')
        | .ok (), some e => (.error (.error e), m')
        | .ok (), none => outcome (activate (storage.address 0)) m' := by
  have hrun := (booted_installed h storage).run hdoc
    (plain_bootWindows framebuffer kernelImage heap stackMarker)
  rw [initializePaging_eq, outcome_bind_ok _ (installRoot_outcome h storage), mapWindows,
    outcome_bind]
  generalize outcome (mapAll mappers storage
    (requests (bootWindows framebuffer kernelImage heap stackMarker)))
      (m.installed (storage.address 0)) = result at hrun
  obtain ⟨result, m'⟩ := result
  refine ⟨result, m', hrun, ?_⟩
  cases result with
  | error stop => rfl
  | ok _ => cases windowError (bootWindows framebuffer kernelImage heap stackMarker) <;> rfl

/-- `reserve_frame` comes up empty during `initialize` exactly when the pages reached need
more tables than the arena has. -/
theorem exhausted_iff_needed (hdoc : mappers.Documented storage) (h : m.Cold)
    (framebuffer kernelImage heap : Nat × Nat) (stackMarker : Nat) :
    none ∈ (outcome (initializePaging mappers storage framebuffer kernelImage heap stackMarker)
        m).2.reservations ↔
      MAX_PAGE_TABLE_FRAMES <
        tablesNeeded (reachedPages ∅ (requestedPages framebuffer kernelImage heap stackMarker)) := by
  obtain ⟨result, m', hrun, hout⟩ := initialize_run hdoc h framebuffer kernelImage heap stackMarker
  rw [hout]
  cases hrun with
  | mapped hbooted =>
    have hneeded := hbooted.needed_le
    have hnone : none ∉ m'.reservations := hbooted.unexhausted
    constructor
    · intro hmem
      cases hwindow : windowError (bootWindows framebuffer kernelImage heap stackMarker) with
      | none =>
        rw [hwindow] at hmem
        exact absurd hmem hnone
      | some e =>
        rw [hwindow] at hmem
        exact absurd hmem hnone
    · intro hlt
      exact absurd hlt (Nat.not_lt.mpr hneeded)
  | refused _ henough hnone =>
    exact ⟨fun hmem => absurd hmem hnone, fun hlt => absurd hlt (Nat.not_lt.mpr henough)⟩
  | exhausted hneeded hnone => exact ⟨fun _ => hneeded, fun _ => hnone⟩

/-- The arena suffices exactly when the pages reached, up to a window without an end, a page
asked for twice and a page above the low half, touch so few regions. -/
theorem arena_suffices_iff (hdoc : mappers.Documented storage) (h : m.Cold)
    (framebuffer kernelImage heap : Nat × Nat) (stackMarker : Nat) :
    none ∉ (outcome (initializePaging mappers storage framebuffer kernelImage heap stackMarker)
        m).2.reservations ↔
      tablesNeeded (reachedPages ∅ (requestedPages framebuffer kernelImage heap stackMarker)) ≤
        MAX_PAGE_TABLE_FRAMES := by
  have hneeded := exhausted_iff_needed hdoc h framebuffer kernelImage heap stackMarker
  constructor
  · intro hnone
    exact Nat.not_lt.mp fun hlt => hnone (hneeded.mpr hlt)
  · intro henough hnone
    exact absurd (hneeded.mp hnone) (Nat.not_lt.mpr henough)

end Boot

/-! ### Two boots -/

def kernelStorage : Storage := ⟨0x200000, by decide, by decide⟩

def coldSpace : AddressSpace := ⟨fun _ _ => .unused, none, false, none, []⟩

theorem coldSpace_cold : coldSpace.Cold := ⟨rfl, rfl, rfl, rfl⟩

theorem reachedPages_subset (pages : Finset Nat) (list : List Nat) :
    reachedPages pages list ⊆ pages ∪ list.toFinset := by
  induction list generalizing pages with
  | nil => exact Finset.subset_union_left
  | cons page rest ih =>
    rw [reachedPages]
    split_ifs
    · exact Finset.subset_union_left
    · refine (ih _).trans ?_
      rw [List.toFinset_cons, Finset.insert_union, Finset.union_insert]

theorem card_regions_le {pages : Finset Nat} {size n : Nat} (h : ∀ page ∈ pages, page / size < n) :
    (pages.image fun page => page / size).card ≤ n := by
  have hsub : (pages.image fun page => page / size) ⊆ Finset.range n := by
    intro region hregion
    obtain ⟨page, hpage, rfl⟩ := Finset.mem_image.mp hregion
    exact Finset.mem_range.mpr (h page hpage)
  exact (Finset.card_le_card hsub).trans_eq (Finset.card_range n)

/-- Below 1020 MiB a table for each 2 MiB and two more are enough. -/
theorem tablesNeeded_le {pages : Finset Nat} (h : ∀ page ∈ pages, page < 510 * 2 ^ 21) :
    tablesNeeded pages ≤ MAX_PAGE_TABLE_FRAMES := by
  have h4 : (pages.image fun page => page / 2 ^ 39).card ≤ 1 := card_regions_le fun page hpage => by
    have hlt := h page hpage
    omega
  have h3 : (pages.image fun page => page / 2 ^ 30).card ≤ 1 := card_regions_le fun page hpage => by
    have hlt := h page hpage
    omega
  have h2 : (pages.image fun page => page / 2 ^ 21).card ≤ 510 :=
    card_regions_le fun page hpage => by
      have hlt := h page hpage
      omega
  rw [tablesNeeded]
  simp only [MAX_PAGE_TABLE_FRAMES]
  omega

theorem tablesNeeded_of_low {list : List Nat} (h : ∀ page ∈ list, page < 510 * 2 ^ 21) :
    tablesNeeded (reachedPages ∅ list) ≤ MAX_PAGE_TABLE_FRAMES := by
  apply tablesNeeded_le
  intro page hpage
  have hmem := reachedPages_subset ∅ list hpage
  rw [Finset.empty_union, List.mem_toFinset] at hmem
  exact h page hmem

theorem requestedPages_of_windows {framebuffer kernelImage heap : Nat × Nat} {stackMarker : Nat}
    {a b c d : Nat × Nat} {e f g h : PageTableFlags}
    (hwindows : bootWindows framebuffer kernelImage heap stackMarker =
      [(.ok a, e), (.ok b, f), (.ok c, g), (.ok d, h)]) :
    requestedPages framebuffer kernelImage heap stackMarker =
      windowPages a ++ (windowPages b ++ (windowPages c ++ windowPages d)) := by
  simp [requestedPages, hwindows, requests, Function.comp_def]

/-- A boot in low memory: an image of 4 MiB, a heap of 1 MiB, and a small framebuffer. -/
theorem smallBoot_windows :
    bootWindows (0x30000000, 0x300000) (0x100000, 0x400000) (0x600000, 0x100000) 0x80123 =
      [(.ok (0x100000, 0x500000), kernelFlags), (.ok (0x600000, 0x700000), dataFlags),
        (.ok (0x30000000, 0x30300000), deviceFlags), (.ok (0x61000, 0x9f000), dataFlags)] := by
  decide +kernel

theorem smallBoot_pages :
    requestedPages (0x30000000, 0x300000) (0x100000, 0x400000) (0x600000, 0x100000) 0x80123 =
      windowPages (0x100000, 0x500000) ++ (windowPages (0x600000, 0x700000) ++
        (windowPages (0x30000000, 0x30300000) ++ windowPages (0x61000, 0x9f000))) :=
  requestedPages_of_windows smallBoot_windows

theorem smallBoot_low : ∀ page ∈ requestedPages (0x30000000, 0x300000) (0x100000, 0x400000)
    (0x600000, 0x100000) 0x80123, page < 510 * 2 ^ 21 := by
  intro page hpage
  simp only [smallBoot_pages, List.mem_append] at hpage
  rcases hpage with h | h | h | h <;>
    · have hbounds := mem_windowPages_bounds h
      omega

theorem arena_suffices_small_boot :
    none ∉ (outcome (initializePaging walkMappers kernelStorage (0x30000000, 0x300000)
      (0x100000, 0x400000) (0x600000, 0x100000) 0x80123) coldSpace).2.reservations := by
  have hiff := arena_suffices_iff (walkMappers_documented kernelStorage) coldSpace_cold
    (0x30000000, 0x300000) (0x100000, 0x400000) (0x600000, 0x100000) 0x80123
  exact hiff.mpr (tablesNeeded_of_low smallBoot_low)

def wideEntries : List MemoryDescriptor :=
  [⟨.conventional, 0, 256⟩, ⟨.loaderCode, 0x100000, 1024⟩, ⟨.conventional, 0x40000000, 0x80000⟩]

theorem wideBoot_windows :
    bootWindows (0xe0000000, 0x300000) (0x100000, 0x400000) (0x40000000, 0x80000000) 0x80123 =
      [(.ok (0x100000, 0x500000), kernelFlags), (.ok (0x40000000, 0xc0000000), dataFlags),
        (.ok (0xe0000000, 0xe0300000), deviceFlags), (.ok (0x61000, 0x9f000), dataFlags)] := by
  decide +kernel

/-- Pages 2 MiB apart in a second window that is reached. -/
theorem exhausted_of_window {first second : Nat × Nat} (rest : List Nat) {n : Nat}
    (hordered : first.2 ≤ second.1) (hlow : second.2 ≤ LOW_CANONICAL_MAX)
    (hsecond : second.1 + n * 2 ^ 21 ≤ second.2) :
    n ≤ tablesNeeded (reachedPages ∅ (windowPages first ++ (windowPages second ++ rest))) := by
  rw [← List.append_assoc]
  have hdistinct : Distinct ∅ (windowPages first ++ windowPages second) := by
    refine ⟨List.nodup_append.mpr ⟨pagesFrom_nodup _ _, pagesFrom_nodup _ _, ?_⟩, by simp⟩
    rintro page hpage _ hother rfl
    have hfirst := mem_windowPages_bounds hpage
    have hsecond := mem_windowPages_bounds hother
    omega
  have hbelow : Low (windowPages first ++ windowPages second) := by
    intro page hpage
    cases List.mem_append.mp hpage with
    | inl h =>
      have hbounds := mem_windowPages_bounds h
      omega
    | inr h =>
      have hbounds := mem_windowPages_bounds h
      omega
  have hmem : ∀ k < n, second.1 + k * 2 ^ 21 ∈
      reachedPages ∅ ((windowPages first ++ windowPages second) ++ rest) := by
    intro k hk
    apply hdistinct.mem_reachedPages hbelow
    apply List.mem_append_right
    refine mem_pagesFrom.mpr ⟨k * 512, ?_, ?_⟩
    · simp only [PAGE_SIZE]
      omega
    · simp only [PAGE_SIZE]
      omega
  exact le_tablesNeeded hmem

theorem wideBoot_pages :
    requestedPages (0xe0000000, 0x300000) (0x100000, 0x400000) (0x40000000, 0x80000000) 0x80123 =
      windowPages (0x100000, 0x500000) ++ (windowPages (0x40000000, 0xc0000000) ++
        (windowPages (0xe0000000, 0xe0300000) ++ windowPages (0x61000, 0x9f000))) :=
  requestedPages_of_windows wideBoot_windows

/-- The run of 2 GiB becomes the heap, and the tables of its 1024 regions of 2 MiB do not fit. -/
theorem large_heap_exhausts_arena :
    ∃ region s', (initializeHeap wideEntries (some (0xe0000000, 0x300000)) (0x100000, 0x400000)
        0x80123).run.run coldState = (.ok region, s') ∧
      none ∈ (outcome (initializePaging walkMappers kernelStorage (0xe0000000, 0x300000)
        (0x100000, 0x400000) (region.start, region.size) 0x80123) coldSpace).2.reservations := by
  have hregion : ((initializeHeap wideEntries (some (0xe0000000, 0x300000)) (0x100000, 0x400000)
      0x80123).run.run coldState).1 = .ok ⟨0x40000000, 0x80000000⟩ := by
    decide +kernel
  have hiff := exhausted_iff_needed (walkMappers_documented kernelStorage) coldSpace_cold
    (0xe0000000, 0x300000) (0x100000, 0x400000) (0x40000000, 0x80000000) 0x80123
  have hneeded : 1024 ≤ tablesNeeded (reachedPages ∅ (requestedPages (0xe0000000, 0x300000)
      (0x100000, 0x400000) (0x40000000, 0x80000000) 0x80123)) := by
    rw [wideBoot_pages]
    exact exhausted_of_window _ (by decide) (by decide) (by decide)
  have hnone := hiff.mpr (lt_of_lt_of_le (by decide) hneeded)
  refine ⟨⟨0x40000000, 0x80000000⟩, _, Prod.ext hregion rfl, ?_⟩
  dsimp only
  exact hnone

end AgnostOS.Paging
