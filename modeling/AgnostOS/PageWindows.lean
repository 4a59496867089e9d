import AgnostOS.PageArena
import Mathlib.Data.Set.BooleanAlgebra
import Mathlib.Order.CompletePartialOrder

/-! The four windows of the bootstrap as sets of pages: how they lie to each other after
the heap was chosen, and when no page is asked for twice. -/
namespace AgnostOS.Paging
open Globals Word Memory AgnostOS.Frame Allocator Attempt

/-! ### Page sets -/

def touchedPages (range : Nat × Nat) : Set Nat :=
  {page | PAGE_SIZE ∣ page ∧ range.1 < page + PAGE_SIZE ∧ page < range.1 + range.2}

def askedPages : Except PagingError (Nat × Nat) → Set Nat
  | .ok range => touchedPages range
  | .error _ => ∅

def heapPages (heap : Nat × Nat) : Set Nat := if heap.2 ≠ 0 then touchedPages heap else ∅

def IsGuard (stackMarker page : Nat) : Prop :=
  page + PAGE_SIZE = (stackRange stackMarker).1 ∨
    page = (stackRange stackMarker).1 + (stackRange stackMarker).2

@[mk_iff]
structure WindowsApart (framebuffer kernelImage heap : Nat × Nat) (stackMarker : Nat) : Prop where
  image_heap : Disjoint (askedPages (outerRange kernelImage)) (heapPages heap)
  image_framebuffer :
    Disjoint (askedPages (outerRange kernelImage)) (askedPages (outerRange framebuffer))
  image_stack :
    Disjoint (askedPages (outerRange kernelImage)) (touchedPages (stackRange stackMarker))
  heap_framebuffer : Disjoint (heapPages heap) (askedPages (outerRange framebuffer))
  heap_stack : Disjoint (heapPages heap) (touchedPages (stackRange stackMarker))
  framebuffer_stack :
    Disjoint (askedPages (outerRange framebuffer)) (touchedPages (stackRange stackMarker))
  guards : ∀ page, IsGuard stackMarker page → page ∉ askedPages (outerRange kernelImage) ∧
    page ∉ heapPages heap ∧ page ∉ askedPages (outerRange framebuffer) ∧
      page ∉ touchedPages (stackRange stackMarker)

/-! ### Page numbers -/

def firstPage (range : Nat × Nat) : Nat := range.1 / PAGE_SIZE
def lastPage (range : Nat × Nat) : Nat := (range.1 + range.2 - 1) / PAGE_SIZE

theorem mem_touchedPages {range : Nat × Nat} (hne : 0 < range.2) {page : Nat} :
    page ∈ touchedPages range ↔
      ∃ k, page = k * PAGE_SIZE ∧ firstPage range ≤ k ∧ k ≤ lastPage range := by
  simp only [touchedPages, Set.mem_ofPred_eq, firstPage, lastPage, PAGE_SIZE]
  constructor
  · rintro ⟨hpage, hlo, hhi⟩
    exact ⟨page / 4096, by omega, by omega, by omega⟩
  · rintro ⟨k, rfl, hlo, hhi⟩
    exact ⟨by omega, by omega, by omega⟩

theorem firstPage_le_lastPage {range : Nat × Nat} (hne : 0 < range.2) :
    firstPage range ≤ lastPage range := by
  simp only [firstPage, lastPage, PAGE_SIZE]
  omega

/-- Two ranges share no page when one ends on an earlier page than the other begins. -/
def PageApart (a b : Nat × Nat) : Prop := lastPage a < firstPage b ∨ lastPage b < firstPage a

theorem disjoint_touchedPages_iff {a b : Nat × Nat} (ha : 0 < a.2) (hb : 0 < b.2) :
    Disjoint (touchedPages a) (touchedPages b) ↔ PageApart a b := by
  have hale := firstPage_le_lastPage ha
  have hble := firstPage_le_lastPage hb
  rw [Set.disjoint_left, PageApart]
  constructor
  · intro h
    by_contra hmeet
    -- the later of the two first pages is in both
    refine h (a := max (firstPage a) (firstPage b) * PAGE_SIZE) ?_ ?_
    · exact (mem_touchedPages ha).mpr ⟨_, rfl, by omega, by omega⟩
    · exact (mem_touchedPages hb).mpr ⟨_, rfl, by omega, by omega⟩
  · rintro h page hin hin'
    obtain ⟨k, rfl, hlo, hhi⟩ := (mem_touchedPages ha).mp hin
    obtain ⟨l, hl, hlo', hhi'⟩ := (mem_touchedPages hb).mp hin'
    simp only [PAGE_SIZE] at hl
    omega

/-- The same with the guard pages of the stack window counted in. -/
def GuardedApart (range : Nat × Nat) (stackMarker : Nat) : Prop :=
  lastPage range + 1 < firstPage (stackRange stackMarker) ∨
    lastPage (stackRange stackMarker) + 1 < firstPage range

/-! ### Where the ranges lie -/

def stackPage (stackMarker : Nat) : Nat := stackMarker &&& complement 64 (PAGE_SIZE - 1)

theorem and_page_mask (a : Nat) :
    a &&& complement 64 (PAGE_SIZE - 1) = a % 2 ^ 64 / PAGE_SIZE * PAGE_SIZE := by
  have hlt : a % 2 ^ 64 < 2 ^ 64 := Nat.mod_lt a (by decide)
  have hmask := and_complement_two_pow (k := 12) hlt (by decide)
  rw [and_complement_mod]
  exact hmask

theorem stackPage_eq (stackMarker : Nat) :
    stackPage stackMarker = stackMarker % 2 ^ 64 / PAGE_SIZE * PAGE_SIZE :=
  and_page_mask stackMarker

def Valid (range : Nat × Nat) : Prop := 0 < range.2 ∧ range.1 + range.2 < 2 ^ 64

theorem askedPages_outerRange {range : Nat × Nat} (h : Valid range) :
    askedPages (outerRange range) = touchedPages range := by
  have hsum : checkedAdd 64 range.1 range.2 = some (range.1 + range.2) :=
    checkedAdd_eq_some.mpr ⟨h.2, rfl⟩
  have hlt : range.1 % 2 ^ 64 = range.1 := Nat.mod_eq_of_lt (by have := h.2; omega)
  ext page
  simp only [outerRange, hsum, and_page_mask, hlt, askedPages, touchedPages, Set.mem_ofPred_eq,
    saturatingSub, PAGE_SIZE]
  constructor
  · rintro ⟨hpage, hlo, hhi⟩
    exact ⟨hpage, by omega, by omega⟩
  · rintro ⟨hpage, hlo, hhi⟩
    exact ⟨hpage, by omega, by omega⟩

def BytesApart (a b : Nat × Nat) : Prop := a.1 + a.2 ≤ b.1 ∨ b.1 + b.2 ≤ a.1

theorem bytesApart_of_no_common {a b : Nat × Nat} (ha : 0 < a.2) (hb : 0 < b.2)
    (h : ∀ x, a.1 ≤ x ∧ x < a.1 + a.2 → ¬ (b.1 ≤ x ∧ x < b.1 + b.2)) : BytesApart a b := by
  by_contra hmeet
  rw [BytesApart] at hmeet
  exact h (max a.1 b.1) ⟨by omega, by omega⟩ ⟨by omega, by omega⟩

/-- Byte ranges apart share a page only where one ends in the page that the other begins in. -/
theorem pageApart_iff_of_bytesApart {a b : Nat × Nat} (ha : 0 < a.2) (hb : 0 < b.2)
    (h : BytesApart a b) :
    PageApart a b ↔ lastPage a ≠ firstPage b ∧ lastPage b ≠ firstPage a := by
  have hale := firstPage_le_lastPage ha
  have hble := firstPage_le_lastPage hb
  have hordered : lastPage a ≤ firstPage b ∨ lastPage b ≤ firstPage a := by
    cases h with
    | inl hab =>
      left
      simp only [lastPage, firstPage, PAGE_SIZE]
      omega
    | inr hba =>
      right
      simp only [lastPage, firstPage, PAGE_SIZE]
      omega
  rw [PageApart]
  omega

structure Placed (framebuffer kernelImage heap : Nat × Nat) (reservedMarker : Nat) : Prop where
  framebufferValid : Valid framebuffer
  imageValid : Valid kernelImage
  heapNonempty : 0 < heap.2
  windowFits : (stackWindow reservedMarker).1 + (stackWindow reservedMarker).2 < 2 ^ 64
  heap_framebuffer : BytesApart heap framebuffer
  heap_image : BytesApart heap kernelImage
  heap_window : BytesApart heap (stackWindow reservedMarker)

/-- Apart from `InvalidRange`, every answer of `reserve_range` is about a proper range. -/
theorem valid_of_reserveRange {s t : MemoryMapSnapshot} {start length : Nat} {kind : MemoryKind}
    {result : Except MemoryMapError Unit} (h : s.reserveRange start length kind = (result, t))
    (hresult : result ≠ .error .invalidRange) : Valid (start, length) := by
  rw [MemoryMapSnapshot.reserveRange] at h
  cases hsum : checkedAdd 64 start length with
  | none =>
    simp only [hsum] at h
    exact absurd (Prod.mk.inj h).1.symm hresult
  | some last =>
    simp only [hsum] at h
    split_ifs at h with hbad
    · exact absurd (Prod.mk.inj h).1.symm hresult
    · exact ⟨Nat.pos_of_ne_zero fun hzero => hbad (.inl hzero), (checkedAdd_eq_some.mp hsum).1⟩

theorem valid_of_reserve {map map' : MemoryMap} {start length : Nat} {kind : MemoryKind}
    (h : reserve map start length kind = (.ok (), map')) : Valid (start, length) := by
  cases map with
  | none => simp [reserve] at h
  | some s =>
    rw [reserve] at h
    generalize hcall : s.reserveRange start length kind = answer at h
    obtain ⟨result, t⟩ := answer
    have hresult : result = .ok () := (Prod.mk.inj h).1
    exact valid_of_reserveRange hcall (by simp [hresult])

theorem valid_of_initializeMap {map map' : MemoryMap} {entries : List MemoryDescriptor}
    {framebuffer : Nat × Nat}
    (h : initializeMap map entries (some framebuffer) = (.ok (), map')) : Valid framebuffer := by
  cases map with
  | some s => simp [initializeMap] at h
  | none =>
    simp only [initializeMap] at h
    split at h
    · simp at h
    · next s _ =>
      generalize hcall : s.reserveRange framebuffer.1 framebuffer.2 .device = answer at h
      obtain ⟨result, t⟩ := answer
      refine valid_of_reserveRange hcall fun hinvalid => ?_
      rw [hinvalid] at h
      simp at h

/-- A successful `initialize_heap` places the ranges so. -/
theorem placed_of_boot {entries : List MemoryDescriptor} {framebuffer kernelImage : Nat × Nat}
    {reservedMarker : Nat} {region : HeapRegion} {s s' : BootState}
    (hdisjoint : Span.Disjointed (entries.map fun d => d.range.span))
    (hok : (initializeHeap entries (some framebuffer) kernelImage reservedMarker).run.run s =
      (.ok region, s')) :
    Placed framebuffer kernelImage (region.start, region.size) reservedMarker := by
  have htrace := initializeHeap_ok hok
  obtain ⟨map, allocator, -, -, hheap⟩ := exclusive_of_trace hdisjoint htrace
  cases htrace with
  | intro hinit himage hstack _ _ _ _ _ _ =>
    have hframebuffer := valid_of_initializeMap hinit
    have himage := valid_of_reserve himage
    have hwindow := valid_of_reserve hstack
    constructor
    · exact hframebuffer
    · exact himage
    · exact hheap.nonempty
    · exact hwindow.2
    · exact bytesApart_of_no_common hheap.nonempty hframebuffer.1 (hheap.framebuffer _ rfl)
    · exact bytesApart_of_no_common hheap.nonempty himage.1 hheap.kernelImage
    · exact bytesApart_of_no_common hheap.nonempty hwindow.1 hheap.stack

/-! ### The stack window and its guards -/

theorem stackRange_pos (stackMarker : Nat) : 0 < (stackRange stackMarker).2 := by
  change 0 < 62 * PAGE_SIZE
  decide

/-- Page numbers of the stack window and of the window reserved for it. -/
theorem stackRange_pages (stackMarker : Nat) : ∃ k, stackPage stackMarker = k * PAGE_SIZE ∧
    firstPage (stackRange stackMarker) = k - 31 ∧ lastPage (stackRange stackMarker) = k - 31 + 61 ∧
      (stackWindow stackMarker).1 = (k - 32) * PAGE_SIZE ∧
        (stackWindow stackMarker).2 = 64 * PAGE_SIZE := by
  have hrange : stackRange stackMarker = (stackPage stackMarker - 31 * PAGE_SIZE, 62 * PAGE_SIZE) :=
    rfl
  have hwindow : stackWindow stackMarker = (stackPage stackMarker - 32 * 4096, 64 * 4096) := rfl
  refine ⟨_, stackPage_eq stackMarker, ?_⟩
  rw [hrange, hwindow, stackPage_eq]
  simp only [firstPage, lastPage, PAGE_SIZE, and_true]
  omega

theorem isGuard_iff {stackMarker page : Nat} : IsGuard stackMarker page ↔ ∃ k, page = k * PAGE_SIZE ∧
    (k + 1 = firstPage (stackRange stackMarker) ∨ k = lastPage (stackRange stackMarker) + 1) := by
  have hrange : stackRange stackMarker = (stackPage stackMarker - 31 * PAGE_SIZE, 62 * PAGE_SIZE) :=
    rfl
  rw [IsGuard, hrange, stackPage_eq]
  simp only [firstPage, lastPage, PAGE_SIZE]
  constructor
  · intro h
    exact ⟨page / 4096, by omega, by omega⟩
  · rintro ⟨k, rfl, h⟩
    omega

theorem guards_free_iff {range : Nat × Nat} (hne : 0 < range.2) (stackMarker : Nat) :
    (∀ page, IsGuard stackMarker page → page ∉ touchedPages range) ↔
      ∀ k, k + 1 = firstPage (stackRange stackMarker) ∨ k = lastPage (stackRange stackMarker) + 1 →
        lastPage range < k ∨ k < firstPage range := by
  constructor
  · intro h k hk
    by_contra hin
    refine h (k * PAGE_SIZE) (isGuard_iff.mpr ⟨k, rfl, hk⟩) ?_
    exact (mem_touchedPages hne).mpr ⟨k, rfl, by omega, by omega⟩
  · intro h page hguard hin
    obtain ⟨k, hpage, hk⟩ := isGuard_iff.mp hguard
    obtain ⟨l, hl, hlo, hhi⟩ := (mem_touchedPages hne).mp hin
    have hout := h k hk
    simp only [PAGE_SIZE] at hpage hl
    omega

theorem stack_guards_free (stackMarker : Nat) :
    ∀ page, IsGuard stackMarker page → page ∉ touchedPages (stackRange stackMarker) := by
  have hstack := stackRange_pos stackMarker
  have hle := firstPage_le_lastPage hstack
  refine (guards_free_iff hstack stackMarker).mpr fun k hk => ?_
  omega

theorem guardedApart_iff {range : Nat × Nat} (hne : 0 < range.2) (stackMarker : Nat) :
    GuardedApart range stackMarker ↔
      PageApart range (stackRange stackMarker) ∧
        ∀ page, IsGuard stackMarker page → page ∉ touchedPages range := by
  have hle := firstPage_le_lastPage hne
  have hstack := firstPage_le_lastPage (stackRange_pos stackMarker)
  rw [guards_free_iff hne, GuardedApart, PageApart]
  constructor
  · intro h
    refine ⟨by omega, fun k hk => ?_⟩
    omega
  · rintro ⟨hapart, hguards⟩
    have hhigh := hguards _ (.inr rfl)
    cases hfirst : firstPage (stackRange stackMarker) with
    | zero => omega
    | succ first =>
      have hlow := hguards first (.inl hfirst.symm)
      omega

/-- The reserved window keeps the heap off the stack window, one page of drift included, but
off the guard pages only where the drift does not bring them to the edge. -/
theorem heap_guards_free_iff {heap : Nat × Nat} {reservedMarker stackMarker : Nat}
    (hne : 0 < heap.2) (hwindow : BytesApart heap (stackWindow reservedMarker))
    (hup : stackPage stackMarker ≤ stackPage reservedMarker + PAGE_SIZE)
    (hdown : stackPage reservedMarker ≤ stackPage stackMarker + PAGE_SIZE) :
    PageApart heap (stackRange stackMarker) ∧
      ((∀ page, IsGuard stackMarker page → page ∉ touchedPages heap) ↔
        (stackPage stackMarker < stackPage reservedMarker →
          lastPage heap + 1 ≠ firstPage (stackRange stackMarker)) ∧
        (stackPage reservedMarker < stackPage stackMarker →
          firstPage heap ≠ lastPage (stackRange stackMarker) + 1)) := by
  obtain ⟨k, hk, hfirst, hlast, -, -⟩ := stackRange_pages stackMarker
  obtain ⟨l, hl, -, -, hstart, hlength⟩ := stackRange_pages reservedMarker
  have hle := firstPage_le_lastPage hne
  have hout : lastPage heap < l - 32 ∨ l - 32 + 64 ≤ firstPage heap := by
    rw [BytesApart, hstart, hlength] at hwindow
    simp only [lastPage, firstPage, PAGE_SIZE] at hwindow ⊢
    omega
  rw [guards_free_iff hne, PageApart, hk, hl, hfirst, hlast]
  simp only [hk, hl, PAGE_SIZE] at hup hdown ⊢
  refine ⟨by omega, ?_⟩
  constructor
  · intro hguards
    have hhigh := hguards _ (.inr rfl)
    refine ⟨fun hlt heq => ?_, fun hlt => by omega⟩
    have hlow := hguards (lastPage heap) (.inl heq)
    omega
  · rintro ⟨hlow, hhigh⟩ page hpage
    omega

/-! ### When the windows are apart -/

/-- The placements that rounding to pages, the second look at the stack and the missing
reservations leave open. -/
structure RangesApart (framebuffer kernelImage heap : Nat × Nat) (reservedMarker stackMarker : Nat) :
    Prop where
  image_framebuffer : PageApart kernelImage framebuffer
  image_stack : GuardedApart kernelImage stackMarker
  framebuffer_stack : GuardedApart framebuffer stackMarker
  image_heap : lastPage heap ≠ firstPage kernelImage ∧ lastPage kernelImage ≠ firstPage heap
  framebuffer_heap : lastPage heap ≠ firstPage framebuffer ∧ lastPage framebuffer ≠ firstPage heap
  below_stack : stackPage stackMarker < stackPage reservedMarker →
    lastPage heap + 1 ≠ firstPage (stackRange stackMarker)
  above_stack : stackPage reservedMarker < stackPage stackMarker →
    firstPage heap ≠ lastPage (stackRange stackMarker) + 1

theorem heapPages_of_pos {heap : Nat × Nat} (h : 0 < heap.2) : heapPages heap = touchedPages heap :=
  if_pos (Nat.ne_of_gt h)

theorem pageApart_comm (a b : Nat × Nat) : PageApart a b ↔ PageApart b a := or_comm

/-- The page sets as page numbers: the guards count for the image and the framebuffer
together with the window itself. -/
theorem windowsApart_iff_pages {framebuffer kernelImage heap : Nat × Nat}
    (hframebuffer : Valid framebuffer) (himage : Valid kernelImage) (hheap : 0 < heap.2)
    (stackMarker : Nat) :
    WindowsApart framebuffer kernelImage heap stackMarker ↔
      PageApart heap kernelImage ∧ PageApart kernelImage framebuffer ∧
        PageApart heap framebuffer ∧ PageApart heap (stackRange stackMarker) ∧
        GuardedApart kernelImage stackMarker ∧ GuardedApart framebuffer stackMarker ∧
        ∀ page, IsGuard stackMarker page → page ∉ touchedPages heap := by
  have hstack := stackRange_pos stackMarker
  rw [windowsApart_iff, askedPages_outerRange himage, askedPages_outerRange hframebuffer,
    heapPages_of_pos hheap, disjoint_touchedPages_iff himage.1 hheap,
    disjoint_touchedPages_iff himage.1 hframebuffer.1, disjoint_touchedPages_iff himage.1 hstack,
    disjoint_touchedPages_iff hheap hframebuffer.1, disjoint_touchedPages_iff hheap hstack,
    disjoint_touchedPages_iff hframebuffer.1 hstack, guardedApart_iff himage.1,
    guardedApart_iff hframebuffer.1, pageApart_comm kernelImage heap]
  constructor
  · rintro ⟨hih, hif, his, hhf, hhs, hfs, hguards⟩
    refine ⟨hih, hif, hhf, hhs, ⟨his, fun page hpage => ?_⟩, ⟨hfs, fun page hpage => ?_⟩,
      fun page hpage => ?_⟩
    · exact (hguards page hpage).1
    · exact (hguards page hpage).2.2.1
    · exact (hguards page hpage).2.1
  · rintro ⟨hih, hif, hhf, hhs, ⟨his, hig⟩, ⟨hfs, hfg⟩, hhg⟩
    refine ⟨hih, hif, his, hhf, hhs, hfs, fun page hpage => ?_⟩
    exact ⟨hig page hpage, hhg page hpage, hfg page hpage, stack_guards_free stackMarker page hpage⟩

theorem Placed.windowsApart_iff {framebuffer kernelImage heap : Nat × Nat}
    {reservedMarker stackMarker : Nat} (h : Placed framebuffer kernelImage heap reservedMarker)
    (hup : stackPage stackMarker ≤ stackPage reservedMarker + PAGE_SIZE)
    (hdown : stackPage reservedMarker ≤ stackPage stackMarker + PAGE_SIZE) :
    WindowsApart framebuffer kernelImage heap stackMarker ↔
      RangesApart framebuffer kernelImage heap reservedMarker stackMarker := by
  obtain ⟨hheapStack, hguards⟩ := heap_guards_free_iff h.heapNonempty h.heap_window hup hdown
  rw [windowsApart_iff_pages h.framebufferValid h.imageValid h.heapNonempty,
    pageApart_iff_of_bytesApart h.heapNonempty h.imageValid.1 h.heap_image,
    pageApart_iff_of_bytesApart h.heapNonempty h.framebufferValid.1 h.heap_framebuffer, hguards]
  constructor
  · rintro ⟨hih, hif, hhf, -, his, hfs, hbelow, habove⟩
    exact ⟨hif, his, hfs, hih, hhf, hbelow, habove⟩
  · rintro ⟨hif, his, hfs, hih, hhf, hbelow, habove⟩
    exact ⟨hih, hif, hhf, hheapStack, his, hfs, hbelow, habove⟩

/-! ### No page is asked for twice -/

theorem pageBounds_error {start length : Nat} {e : PagingError}
    (h : pageBounds start length = .error e) : e = .addressTooLarge := by
  rw [pageBounds] at h
  cases hsum : checkedAdd 64 start length with
  | none =>
    rw [hsum] at h
    exact (Except.error.inj h).symm
  | some stop =>
    simp only [hsum] at h
    split_ifs at h
    split at h
    · exact (Except.error.inj h).symm
    · cases h

theorem outerBounds_error {range : Nat × Nat} {e : PagingError}
    (h : outerBounds range = .error e) : e = .addressTooLarge := by
  rw [outerBounds] at h
  cases houter : outerRange range with
  | error f =>
    rw [houter] at h
    obtain rfl := Except.error.inj h
    simp only [outerRange] at houter
    split at houter
    · exact (Except.error.inj houter).symm
    · cases houter
  | ok outer =>
    rw [houter] at h
    exact pageBounds_error h

theorem exists_of_windowError {windows : List (Except PagingError (Nat × Nat) × PageTableFlags)}
    {e : PagingError} (h : windowError windows = some e) : ∃ window ∈ windows, window.1 = .error e := by
  induction windows with
  | nil => cases h
  | cons window rest ih =>
    obtain ⟨bounds, flags⟩ := window
    cases bounds with
    | error f =>
      obtain rfl := Option.some.inj h
      exact ⟨_, List.mem_cons_self, rfl⟩
    | ok bounds =>
      obtain ⟨window, hwindow, herror⟩ := ih h
      exact ⟨window, List.mem_cons_of_mem _ hwindow, herror⟩

/-- The only error of a window is an end past the address space. -/
theorem windowError_bootWindows {framebuffer kernelImage heap : Nat × Nat} {stackMarker : Nat}
    {e : PagingError}
    (h : windowError (bootWindows framebuffer kernelImage heap stackMarker) = some e) :
    e = .addressTooLarge := by
  obtain ⟨window, hwindow, herror⟩ := exists_of_windowError h
  simp only [bootWindows, List.mem_cons, List.not_mem_nil, or_false] at hwindow
  rcases hwindow with rfl | rfl | rfl | rfl
  · exact outerBounds_error herror
  · dsimp only at herror
    split_ifs at herror
    exact pageBounds_error herror
  · exact outerBounds_error herror
  · dsimp only at herror
    exact pageBounds_error herror

theorem mem_asked_of_outerBounds {range bounds : Nat × Nat} (h : outerBounds range = .ok bounds)
    {page : Nat} (hpage : page ∈ windowPages bounds) : page ∈ askedPages (outerRange range) := by
  rw [outerBounds] at h
  cases houter : outerRange range with
  | error e =>
    rw [houter] at h
    cases h
  | ok outer =>
    rw [houter] at h
    exact (mem_windowPages h).mp hpage

theorem mem_heapPages_of_bounds {heap bounds : Nat × Nat}
    (h : (if heap.2 ≠ 0 then pageBounds heap.1 heap.2 else .ok (0, 0)) = .ok bounds) {page : Nat}
    (hpage : page ∈ windowPages bounds) : page ∈ heapPages heap := by
  by_cases hsize : heap.2 ≠ 0
  · rw [if_pos hsize] at h
    rw [heapPages, if_pos hsize]
    exact (mem_windowPages h).mp hpage
  · rw [if_neg hsize] at h
    cases h
    simp [windowPages, pagesFrom] at hpage

theorem WindowsApart.distinct {framebuffer kernelImage heap : Nat × Nat} {stackMarker : Nat}
    (h : WindowsApart framebuffer kernelImage heap stackMarker) :
    Distinct ∅ (requestedPages framebuffer kernelImage heap stackMarker) := by
  refine ⟨?_, by simp⟩
  apply nodup_requests
  simp only [bootWindows, List.pairwise_cons, List.mem_cons, List.not_mem_nil, or_false,
    forall_eq_or_imp, forall_eq, List.Pairwise.nil, and_true, IsEmpty.forall_iff, implies_true]
  refine ⟨⟨?_, ?_, ?_⟩, ⟨?_, ?_⟩, ?_⟩
  · intro b c hb hc page hpage hother
    exact Set.disjoint_left.mp h.image_heap (mem_asked_of_outerBounds hb hpage)
      (mem_heapPages_of_bounds hc hother)
  · intro b c hb hc page hpage hother
    exact Set.disjoint_left.mp h.image_framebuffer (mem_asked_of_outerBounds hb hpage)
      (mem_asked_of_outerBounds hc hother)
  · intro b c hb hc page hpage hother
    exact Set.disjoint_left.mp h.image_stack (mem_asked_of_outerBounds hb hpage)
      ((mem_windowPages hc).mp hother)
  · intro b c hb hc page hpage hother
    exact Set.disjoint_left.mp h.heap_framebuffer (mem_heapPages_of_bounds hb hpage)
      (mem_asked_of_outerBounds hc hother)
  · intro b c hb hc page hpage hother
    exact Set.disjoint_left.mp h.heap_stack (mem_heapPages_of_bounds hb hpage)
      ((mem_windowPages hc).mp hother)
  · intro b c hb hc page hpage hother
    exact Set.disjoint_left.mp h.framebuffer_stack (mem_asked_of_outerBounds hb hpage)
      ((mem_windowPages hc).mp hother)

/-- No `map_page` call of the bootstrap fails for a page in use: a failed mapping is one that
found the arena empty. -/
def NeverRemapped (framebuffer kernelImage heap : Nat × Nat) (stackMarker : Nat) : Prop :=
  ∀ (mappers : Mappers) (storage : Storage) (m m' : AddressSpace), mappers.Documented storage →
    m.Cold → outcome (initializePaging mappers storage framebuffer kernelImage heap stackMarker) m =
      (.error (.error .mappingFailed), m') → none ∈ m'.reservations

theorem neverRemapped_of_distinct {framebuffer kernelImage heap : Nat × Nat} {stackMarker : Nat}
    (h : Distinct ∅ (requestedPages framebuffer kernelImage heap stackMarker)) :
    NeverRemapped framebuffer kernelImage heap stackMarker := by
  intro mappers storage m m' hdoc hcold hfailed
  obtain ⟨result, m₁, hrun, hout⟩ :=
    initialize_run hdoc hcold framebuffer kernelImage heap stackMarker
  rw [hfailed] at hout
  cases hrun with
  | mapped hbooted =>
    cases hwindow : windowError (bootWindows framebuffer kernelImage heap stackMarker) with
    | none =>
      rw [hwindow] at hout
      cases hout
    | some e =>
      rw [hwindow, windowError_bootWindows hwindow] at hout
      cases hout
  | refused hwhy _ _ =>
    cases hout
    cases hwhy with
    | inl hagain => exact absurd h hagain
    | inr hhigh => exact absurd rfl hhigh.2
  | exhausted _ hnone =>
    cases hout
    exact hnone

/-- After a successful `initialize_heap`, and on a stack at most a page away from the one it
saw, the windows are apart and no page is mapped twice exactly when the byte ranges do not
meet in a page. -/
theorem windows_apart_iff {entries : List MemoryDescriptor} {framebuffer kernelImage : Nat × Nat}
    {reservedMarker stackMarker : Nat} {region : HeapRegion} {s s' : BootState}
    (hdisjoint : Span.Disjointed (entries.map fun d => d.range.span))
    (hok : (initializeHeap entries (some framebuffer) kernelImage reservedMarker).run.run s =
      (.ok region, s'))
    (hup : stackPage stackMarker ≤ stackPage reservedMarker + PAGE_SIZE)
    (hdown : stackPage reservedMarker ≤ stackPage stackMarker + PAGE_SIZE) :
    (WindowsApart framebuffer kernelImage (region.start, region.size) stackMarker ∧
        NeverRemapped framebuffer kernelImage (region.start, region.size) stackMarker) ↔
      RangesApart framebuffer kernelImage (region.start, region.size) reservedMarker
        stackMarker := by
  have happart := (placed_of_boot hdisjoint hok).windowsApart_iff hup hdown
  constructor
  · rintro ⟨hwindows, -⟩
    exact happart.mp hwindows
  · intro hranges
    have hwindows := happart.mpr hranges
    exact ⟨hwindows, neverRemapped_of_distinct hwindows.distinct⟩

def stackEntries : List MemoryDescriptor :=
  [⟨.loaderCode, 0x100000, 256⟩, ⟨.conventional, 0x200000, 512⟩, ⟨.bootServicesData, 0x400000, 32⟩]

theorem stackEntries_disjoint : Span.Disjointed (stackEntries.map fun d => d.range.span) := by
  have hordered : Span.Ordered (stackEntries.map fun d => d.range.span) := by
    unfold Span.Ordered
    decide
  exact hordered.disjointed

/-- The heap ends where the window reserved around the stack begins. -/
theorem stackEntries_heap :
    ((initializeHeap stackEntries (some (0x80000000, 0x300000)) (0x100000, 0x100000)
      0x41e123).run.run coldState).1 = .ok ⟨0x200000, 0x1fe000⟩ := by
  decide +kernel

theorem stackEntries_apart :
    RangesApart (0x80000000, 0x300000) (0x100000, 0x100000) (0x200000, 0x1fe000) 0x41e123
      0x41f080 := by
  constructor
  · unfold PageApart
    decide
  · unfold GuardedApart
    decide
  · unfold GuardedApart
    decide
  · decide
  · decide
  · decide
  · decide

/-- On a stack one page higher the windows are apart. -/
theorem windows_apart_one_page_up :
    ∃ region s', (initializeHeap stackEntries (some (0x80000000, 0x300000)) (0x100000, 0x100000)
        0x41e123).run.run coldState = (.ok region, s') ∧
      WindowsApart (0x80000000, 0x300000) (0x100000, 0x100000) (region.start, region.size)
        0x41f080 ∧
      NeverRemapped (0x80000000, 0x300000) (0x100000, 0x100000) (region.start, region.size)
        0x41f080 := by
  have hrun := Prod.ext stackEntries_heap rfl
  have hup : stackPage 0x41f080 ≤ stackPage 0x41e123 + PAGE_SIZE := by decide
  have hiff := windows_apart_iff stackEntries_disjoint hrun hup (by decide)
  exact ⟨_, _, hrun, hiff.mpr stackEntries_apart⟩

/-- On a stack one page lower the guard page below it is the last page of the heap. -/
theorem guard_page_in_heap :
    ∃ region s', (initializeHeap stackEntries (some (0x80000000, 0x300000)) (0x100000, 0x100000)
        0x41e123).run.run coldState = (.ok region, s') ∧
      stackPage 0x41df80 + PAGE_SIZE = stackPage 0x41e123 ∧ IsGuard 0x41df80 0x3fd000 ∧
        0x3fd000 ∈ heapPages (region.start, region.size) := by
  refine ⟨_, _, Prod.ext stackEntries_heap rfl, by decide, .inl (by decide), ?_⟩
  rw [heapPages_of_pos (by decide)]
  exact (mem_touchedPages (by decide)).mpr ⟨0x3fd, by decide, by decide, by decide⟩

end AgnostOS.Paging
