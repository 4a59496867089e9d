import AgnostOS.HeapSafety

/-! Accounting for the bytes of the heap. `alloc` drops the padding below a block and a
tail too short for a header; `dealloc` returns neither. -/
namespace AgnostOS.Allocator

def HeapState.held (s : HeapState) : Nat := (s.live.map fun b => b.layout.blockSize).sum

def Accounted (region : HeapRegion) (s : HeapState) : Prop :=
  ∃ free, s.heap.Path s.heap.head free 0 ∧ Heap.Roomy free ∧
    Span.total free + s.held = region.size ∧
    (s.live = [] → free = [⟨region.start, region.start + region.size⟩])

/-- The first chunk that fits is cut without waste: it starts aligned, and what it has
above the block is nothing or a chunk. -/
def Exact (heap : Heap) (layout : Layout) : Prop :=
  ∃ free, heap.Path heap.head free 0 ∧ Heap.Roomy free ∧
    ∀ c ∈ free.find? (fun c => Fits layout.blockSize layout.blockAlign c),
      layout.blockAlign ∣ c.lo ∧
        (c.hi = c.lo + layout.blockSize ∨ c.lo + layout.blockSize + FREE_CHUNK_SIZE ≤ c.hi)

/-! ### Waste -/

theorem alignUp_eq_self_iff {align a : Nat} (hpos : 0 < align) :
    alignUp align a = a ↔ align ∣ a := by
  constructor
  · intro heq
    rw [← heq]
    exact dvd_alignUp align a
  · rintro ⟨q, rfl⟩
    have hdiv : (align * q + (align - 1)) / align = q := by
      rw [Nat.mul_add_div hpos, Nat.div_eq_of_lt (by omega), Nat.add_zero]
    rw [alignUp, hdiv, Nat.mul_comm]

def waste (size align : Nat) (c : Span Nat) : Nat :=
  (c.hi - c.lo) - size - Span.total (tail (alignUp align c.lo + size) c)

theorem total_tail {last : Nat} {c : Span Nat} :
    Span.total (tail last c) = if FREE_CHUNK_SIZE ≤ c.hi - last then c.hi - last else 0 := by
  rw [tail]
  split <;> rfl

theorem waste_add {size align : Nat} {c : Span Nat} (hpos : 0 < align) (hfits : Fits size align c) :
    Span.total (tail (alignUp align c.lo + size) c) + size + waste size align c = c.hi - c.lo := by
  have hup := le_alignUp hpos c.lo
  have hend := hfits.1
  rw [waste, total_tail]
  split <;> omega

theorem waste_eq_zero_iff {size align : Nat} {c : Span Nat} (hpos : 0 < align)
    (hfits : Fits size align c) : waste size align c = 0 ↔
      align ∣ c.lo ∧ (c.hi = c.lo + size ∨ c.lo + size + FREE_CHUNK_SIZE ≤ c.hi) := by
  have hup := le_alignUp hpos c.lo
  have hend := hfits.1
  rw [← alignUp_eq_self_iff hpos, waste, total_tail]
  simp only [FREE_CHUNK_SIZE]
  split <;> omega

section Exact
variable {region : HeapRegion} {s : HeapState} {free : List (Span Nat)} {layout : Layout}

/-- On a tidy heap the free list is the one of the invariant. -/
theorem Tidy.firstFit_iff (ht : Tidy region s free) {P : Span Nat → Prop} :
    (∃ free', s.heap.Path s.heap.head free' 0 ∧ Heap.Roomy free' ∧
      ∀ c ∈ free'.find? (fun c => Fits layout.blockSize layout.blockAlign c), P c) ↔
    ∀ c ∈ free.find? (fun c => Fits layout.blockSize layout.blockAlign c), P c := by
  constructor
  · rintro ⟨free', hpath, hroomy, hfirst⟩
    cases ht.path.unique hpath ht.proper hroomy.proper
    exact hfirst
  · intro hfirst
    exact ⟨free, ht.path, ht.roomy, hfirst⟩

theorem Tidy.firstFit_of_misfits (ht : Tidy region s free) {P : Span Nat → Prop}
    (hnone : ∀ c ∈ free, ¬ Fits layout.blockSize layout.blockAlign c) :
    ∃ free', s.heap.Path s.heap.head free' 0 ∧ Heap.Roomy free' ∧
      ∀ c ∈ free'.find? (fun c => Fits layout.blockSize layout.blockAlign c), P c := by
  have hfind : free.find? (fun c => Fits layout.blockSize layout.blockAlign c) = none :=
    List.find?_eq_none.mpr fun c hc => by simpa using hnone c hc
  rw [ht.firstFit_iff, hfind]
  simp

theorem Tidy.firstFit_iff_of_first {pre post : List (Span Nat)} {c : Span Nat}
    (ht : Tidy region s (pre ++ c :: post)) {P : Span Nat → Prop}
    (hpre : ∀ t ∈ pre, ¬ Fits layout.blockSize layout.blockAlign t)
    (hfits : Fits layout.blockSize layout.blockAlign c) :
    (∃ free', s.heap.Path s.heap.head free' 0 ∧ Heap.Roomy free' ∧
      ∀ c ∈ free'.find? (fun c => Fits layout.blockSize layout.blockAlign c), P c) ↔ P c := by
  have hnone : pre.find? (fun c => Fits layout.blockSize layout.blockAlign c) = none :=
    List.find?_eq_none.mpr fun t hmem => by simpa using hpre t hmem
  rw [ht.firstFit_iff, List.find?_append, hnone, List.find?_cons_of_pos (by simpa using hfits)]
  simp

theorem Tidy.exact_of_misfits (ht : Tidy region s free)
    (hnone : ∀ c ∈ free, ¬ Fits layout.blockSize layout.blockAlign c) : Exact s.heap layout :=
  ht.firstFit_of_misfits hnone

theorem Tidy.exact_iff_of_first {pre post : List (Span Nat)} {c : Span Nat}
    (ht : Tidy region s (pre ++ c :: post))
    (hpre : ∀ t ∈ pre, ¬ Fits layout.blockSize layout.blockAlign t)
    (hfits : Fits layout.blockSize layout.blockAlign c) :
    Exact s.heap layout ↔ waste layout.blockSize layout.blockAlign c = 0 := by
  rw [waste_eq_zero_iff layout.blockAlign_pos hfits]
  exact ht.firstFit_iff_of_first hpre hfits

end Exact

/-! ### Whole runs -/

theorem Run.size_ge {region : HeapRegion} (hsize : region.size < 2 ^ 64)
    {log : List (Heap × Layout)} {s : HeapState} (hrun : Run region log s) :
    FREE_CHUNK_SIZE ≤ region.size := by
  induction hrun with
  | init h => exact (init_ok hsize h).2
  | alloc _ _ ih => exact ih
  | dealloc _ _ _ ih => exact ih
  | write _ _ _ ih => exact ih

/-- What is neither free nor held was lost by an `alloc` that wasted bytes. -/
theorem Run.losses {region : HeapRegion} (hsize : region.size < 2 ^ 64)
    {log : List (Heap × Layout)} {s : HeapState} (hrun : Run region log s) :
    ∃ free lost, Tidy region s free ∧ Span.total free + s.held + lost = region.size ∧
      (lost = 0 ↔ region.start ≠ 0 ∧ ∀ call ∈ log, Exact call.1 call.2) := by
  induction hrun with
  | init h =>
    obtain ⟨-, hroom⟩ := init_ok hsize h
    have ht := tidy_init hsize h
    by_cases hnull : region.start = 0
    · refine ⟨_, region.size, ht, ?_, ?_⟩
      · simp [initialFree, hnull, HeapState.held]
      · simp only [FREE_CHUNK_SIZE] at hroom
        simp only [hnull, ne_eq, not_true_eq_false, false_and, iff_false]
        omega
    · refine ⟨_, 0, ht, ?_, ?_⟩
      · simp [initialFree, hnull, HeapState.held]
      · simp [hnull]
  | @alloc log s _ fuel ptr layout heap h ih =>
    obtain ⟨free, lost, ht, hsum, hlost⟩ := ih
    rcases ht.alloc_cases h with
      ⟨rfl, rfl, hnone⟩ | ⟨pre, c, post, rfl, hpre, hfits, hptr, hnull, hnew, -⟩
    · refine ⟨free, lost, ht, hsum, ?_⟩
      have hexact := ht.exact_of_misfits hnone
      simp [hlost, or_imp, forall_and, hexact]
    · have hexact := ht.exact_iff_of_first hpre hfits
      have hwaste := waste_add layout.blockAlign_pos hfits
      rw [afterAlloc_of_ne_null hnull]
      refine ⟨_, lost + waste layout.blockSize layout.blockAlign c, hnew, ?_, ?_⟩
      · rw [← hptr] at hwaste
        simp only [Span.total_append, Span.total_cons, HeapState.held, List.map_cons,
          List.sum_cons] at hsum ⊢
        omega
      · rw [Nat.add_eq_zero_iff, hlost, ← hexact]
        simp [or_imp, forall_and, and_assoc]
  | @dealloc log s _ fuel b heap hlive h ih =>
    obtain ⟨free, lost, ht, hsum, hlost⟩ := ih
    obtain ⟨hproper, -⟩ := ht.fits_live hlive
    refine ⟨_, lost, (ht.dealloc_cases hlive h).1, ?_, hlost⟩
    have hperm : s.live.Perm (b :: s.live.erase b) := List.perm_cons_erase hlive
    have hheld : s.held = b.layout.blockSize + (s.afterDealloc b heap).held := by
      rw [HeapState.held, (hperm.map _).sum_eq]
      rfl
    have hwidth : b.span.hi - b.span.lo = b.layout.blockSize := Nat.add_sub_cancel_left _ _
    rw [Span.total_insert hproper ht.proper, hwidth]
    omega
  | write _ hclient value ih =>
    obtain ⟨free, lost, ht, hsum, hlost⟩ := ih
    exact ⟨free, lost, ht.write hclient value, hsum, hlost⟩

/-- The bytes of a run add up exactly when no `alloc` of it wastes any. -/
theorem accounted_iff_exact {region : HeapRegion} (hsize : region.size < 2 ^ 64)
    {log : List (Heap × Layout)} {s : HeapState} (hrun : Run region log s) :
    Accounted region s ↔ region.start ≠ 0 ∧ ∀ call ∈ log, Exact call.1 call.2 := by
  obtain ⟨free, lost, ht, hsum, hlost⟩ := hrun.losses hsize
  rw [← hlost]
  constructor
  · rintro ⟨free', hpath, hroomy, htotal, -⟩
    cases ht.path.unique hpath ht.proper hroomy.proper
    omega
  · intro hzero
    refine ⟨free, ht.path, ht.roomy, by omega, fun hrest => ?_⟩
    have hroom := hrun.size_ge hsize
    have hheld : s.held = 0 := by simp [HeapState.held, hrest]
    simp only [FREE_CHUNK_SIZE] at hroom
    exact ht.apart.eq_singleton ht.proper ht.inside (by omega) (by omega)

/-- A block cut without waste from a page. -/
theorem accounted_after_exact_block :
    ∃ s, Run ⟨4096, 4096⟩ [(zeroedPage, pageBlock.layout)] s ∧ s.live = [pageBlock] ∧
      (Accounted ⟨4096, 4096⟩ s ↔
        (4096 : Nat) ≠ 0 ∧ ∀ call ∈ [(zeroedPage, pageBlock.layout)], Exact call.1 call.2) := by
  obtain ⟨heap, hgrant⟩ := page_granted
  exact ⟨_, hgrant, rfl, accounted_iff_exact (by decide) hgrant⟩

def shortLayout : Layout := ⟨4088, 8, pageBlock.layout.align_pow, by decide⟩

/-- A block that leaves eight bytes of a page: they are gone from the list. -/
theorem short_tail_lost :
    ∃ heap, zeroedPage.alloc 2 shortLayout = some (4096, heap) ∧
      Run ⟨4096, 4096⟩ [(zeroedPage, shortLayout)] ⟨heap, [⟨4096, shortLayout⟩]⟩ ∧
      ¬ Accounted ⟨4096, 4096⟩ ⟨heap, [⟨4096, shortLayout⟩]⟩ := by
  have hinit : Run ⟨4096, 4096⟩ [] ⟨zeroedPage, []⟩ := .init rfl
  have hresult : (zeroedPage.alloc 2 shortLayout).map
      (fun result => (result.1, result.2.head)) = some (4096, 0) := by decide +kernel
  obtain ⟨⟨ptr, heap⟩, halloc, hpair⟩ := Option.map_eq_some_iff.mp hresult
  obtain ⟨rfl, hhead⟩ := Prod.mk.inj hpair
  refine ⟨heap, halloc, hinit.alloc halloc, ?_⟩
  rintro ⟨free, hpath, -, htotal, -⟩
  cases free with
  | nil =>
    have hshort : max 4088 FREE_CHUNK_SIZE = 4096 := by
      simpa [HeapState.held, Layout.blockSize, shortLayout] using htotal
    exact absurd hshort (by decide)
  | cons c rest => exact hpath.2.1 (hpath.1.symm.trans hhead)

end AgnostOS.Allocator
