import AgnostOS.HeapCalls
import AgnostOS.HeapOwnership

/-! Safety of the heap over whole runs: live blocks and free chunks share no byte,
and no call writes a header into a live block. -/
namespace AgnostOS.Allocator

structure Block where
  ptr : Nat
  layout : Layout
  deriving DecidableEq

def Block.span (b : Block) : Span Nat := ⟨b.ptr, b.ptr + b.layout.blockSize⟩

structure HeapState where
  heap : Heap
  live : List Block

namespace HeapState

def liveSpans (s : HeapState) : List (Span Nat) := s.live.map Block.span

def afterAlloc (s : HeapState) (layout : Layout) (ptr : Nat) (heap : Heap) : HeapState :=
  ⟨heap, if ptr = 0 then s.live else ⟨ptr, layout⟩ :: s.live⟩

def afterDealloc (s : HeapState) (block : Block) (heap : Heap) : HeapState :=
  ⟨heap, s.live.erase block⟩

def ClientByte (region : HeapRegion) (s : HeapState) (address : Nat) : Prop :=
  ¬ region.Contains address ∨
    ∃ b ∈ s.live, b.ptr ≤ address ∧ address < b.ptr + b.layout.size

end HeapState

/-- Runs from `init`. The log lists every call of `alloc` with the heap it found. -/
inductive Run (region : HeapRegion) : List (Heap × Layout) → HeapState → Prop
  | init {memory : ByteMemory} {heap : Heap} (h : Heap.init ⟨memory, 0, []⟩ region = .ok heap) :
      Run region [] ⟨heap, []⟩
  | alloc {log : List (Heap × Layout)} {s : HeapState} (hrun : Run region log s) {fuel ptr : Nat}
      {layout : Layout} {heap : Heap} (h : s.heap.alloc fuel layout = some (ptr, heap)) :
      Run region (log ++ [(s.heap, layout)]) (s.afterAlloc layout ptr heap)
  | dealloc {log : List (Heap × Layout)} {s : HeapState} (hrun : Run region log s) {fuel : Nat}
      {block : Block} {heap : Heap} (hlive : block ∈ s.live)
      (h : s.heap.dealloc fuel block.ptr block.layout = some heap) :
      Run region log (s.afterDealloc block heap)
  | write {log : List (Heap × Layout)} {s : HeapState} (hrun : Run region log s) {address : Nat}
      (hclient : s.ClientByte region address) (value : Nat) :
      Run region log ⟨{ s.heap with memory := s.heap.memory.write address 1 value }, s.live⟩

/-! ### The invariant -/

structure Tidy (region : HeapRegion) (s : HeapState) (free : List (Span Nat)) : Prop where
  path : s.heap.Path s.heap.head free 0
  apart : Span.Apart free
  roomy : Heap.Roomy free
  inside : ∀ c ∈ free, region.start ≤ c.lo ∧ c.hi ≤ region.start + region.size
  aligned : ∀ b ∈ s.live, b.layout.align ∣ b.ptr
  placed : ∀ b ∈ s.live, b.ptr ≠ 0 ∧ region.start ≤ b.ptr ∧
    b.ptr + b.layout.blockSize ≤ region.start + region.size
  disjoint : Span.Disjointed s.liveSpans
  beside : ∀ a, Span.Covers free a → ¬ Span.Covers s.liveSpans a
  -- a region that reaches the end of the address space serves nothing
  bounded : region.start + region.size < 2 ^ 64 ∨ s.live = [] ∧ ∀ c ∈ free, 2 ^ 64 ≤ c.hi

namespace Tidy
variable {region : HeapRegion} {s : HeapState} {free : List (Span Nat)}

theorem proper (ht : Tidy region s free) : Span.Proper free := ht.roomy.proper

theorem ordered (ht : Tidy region s free) : Span.Ordered free := ht.apart.ordered

/-- A chunk that fits shows that the region does not overflow. -/
theorem fits_bounded (ht : Tidy region s free) {c : Span Nat} (hc : c ∈ free) {size align : Nat}
    (hfits : Fits size align c) : region.start + region.size < 2 ^ 64 := by
  cases ht.bounded with
  | inl hbound => exact hbound
  | inr hover =>
    have hhi := hover.2 c hc
    have hlt := hfits.2
    omega

theorem live_bounded (ht : Tidy region s free) {b : Block} (hb : b ∈ s.live) :
    region.start + region.size < 2 ^ 64 := by
  cases ht.bounded with
  | inl hbound => exact hbound
  | inr hover =>
    rw [hover.1] at hb
    cases hb

end Tidy

section Init
variable {region : HeapRegion} {memory : ByteMemory} {heap : Heap}

/-- The free list that `init` leaves: the region, unless it starts at null. -/
def initialFree (region : HeapRegion) : List (Span Nat) :=
  if region.start = 0 then [] else [⟨region.start, region.start + region.size⟩]

theorem init_ok (hsize : region.size < 2 ^ 64) {written : List Nat}
    (h : Heap.init ⟨memory, 0, written⟩ region = .ok heap) :
    heap.Path heap.head (initialFree region) 0 ∧ FREE_CHUNK_SIZE ≤ region.size := by
  simp only [Heap.init] at h
  split_ifs at h with hsmall hmisaligned
  cases h
  refine ⟨?_, not_lt.mp hsmall⟩
  rw [initialFree]
  split
  · next hnull => exact hnull
  · next hnull =>
    refine ⟨rfl, hnull, ?_, ?_⟩
    · have hset : ((Heap.setSize ⟨memory, 0, written⟩ region.start region.size).setNext
          region.start 0).size region.start = region.size := by
        rw [Heap.size_setNext, Heap.size_setSize hsize]
      simpa [Heap.size, Heap.readWord] using hset
    · exact @Heap.next_setNext (Heap.setSize ⟨memory, 0, written⟩ region.start region.size)
        region.start 0 (Nat.two_pow_pos 64)

theorem tidy_init (hsize : region.size < 2 ^ 64) (h : Heap.init ⟨memory, 0, []⟩ region = .ok heap) :
    Tidy region ⟨heap, []⟩ (initialFree region) := by
  obtain ⟨hpath, hroom⟩ := init_ok hsize h
  have hmem : ∀ c ∈ initialFree region, c = ⟨region.start, region.start + region.size⟩ := by
    intro c hc
    rw [initialFree] at hc
    split at hc
    · cases hc
    · exact List.mem_singleton.mp hc
  refine ⟨hpath, ?_, ?_, ?_, by simp, by simp, .nil, by simp [HeapState.liveSpans], ?_⟩
  · rw [initialFree]
    split
    · exact .nil
    · exact List.pairwise_singleton _ _
  · intro c hc
    rw [hmem c hc]
    exact Nat.add_le_add_left hroom _
  · intro c hc
    rw [hmem c hc]
    exact ⟨Nat.le_refl _, Nat.le_refl _⟩
  · by_cases hbound : region.start + region.size < 2 ^ 64
    · exact .inl hbound
    · refine .inr ⟨rfl, fun c hc => ?_⟩
      rw [hmem c hc]
      exact not_lt.mp hbound

end Init

/-! ### Cutting a chunk -/

section Cut
variable {pre post : List (Span Nat)} {c t : Span Nat} {last : Nat}

theorem tail_inside (hlo : c.lo ≤ last) (ht : t ∈ tail last c) :
    last ≤ t.lo ∧ c.lo ≤ t.lo ∧ t.hi ≤ c.hi := by
  rw [tail] at ht
  split at ht
  · rw [List.mem_singleton.mp ht]
    exact ⟨Nat.le_refl _, hlo, Nat.le_refl _⟩
  · cases ht

theorem tail_apart (last : Nat) (c : Span Nat) : Span.Apart (tail last c) := by
  rw [tail]
  split
  · exact List.pairwise_singleton _ _
  · exact .nil

theorem tail_roomy (last : Nat) (c : Span Nat) : Heap.Roomy (tail last c) := by
  intro t ht
  rw [tail] at ht
  split at ht
  · next hroom =>
    rw [List.mem_singleton.mp ht]
    simp only [FREE_CHUNK_SIZE] at *
    omega
  · cases ht

/-- What holds of the chunks and of the tail holds of the list after the cut. -/
theorem forall_mem_cut {P : Span Nat → Prop} (hlist : ∀ t ∈ pre ++ c :: post, P t)
    (htail : ∀ t ∈ tail last c, P t) : ∀ t ∈ pre ++ (tail last c ++ post), P t := by
  intro t ht
  simp only [List.mem_append] at ht
  rcases ht with hpre | hmid | hpost
  · exact hlist t (by simp [hpre])
  · exact htail t hmid
  · exact hlist t (by simp [hpost])

theorem covers_of_cut (hlo : c.lo ≤ last) {a : Nat}
    (ha : Span.Covers (pre ++ (tail last c ++ post)) a) : Span.Covers (pre ++ c :: post) a := by
  simp only [Span.covers_append, Span.covers_cons] at ha ⊢
  rcases ha with hpre | ⟨t, ht, htlo, hthi⟩ | hpost
  · exact .inl hpre
  · have hin := tail_inside hlo ht
    exact .inr (.inl ⟨hin.2.1.trans htlo, hthi.trans_le hin.2.2⟩)
  · exact .inr (.inr hpost)

theorem not_covers_of_cut (ho : Span.Ordered (pre ++ c :: post)) (hlo : c.lo ≤ last) {a : Nat}
    (ha : c.Contains a) (hbelow : a < last) : ¬ Span.Covers (pre ++ (tail last c ++ post)) a := by
  have hrest := ho.not_covers_rest ha
  simp only [Span.covers_append, not_or] at hrest ⊢
  refine ⟨hrest.1, ?_, hrest.2⟩
  rintro ⟨t, ht, htlo, -⟩
  have hin := tail_inside hlo ht
  omega

end Cut

/-! ### One call -/

theorem contains_blockSpan {ptr a : Nat} {layout : Layout} :
    (Block.span ⟨ptr, layout⟩).Contains a ↔ ptr ≤ a ∧ a < ptr + layout.blockSize := Iff.rfl

namespace Tidy
variable {region : HeapRegion} {s : HeapState} {free : List (Span Nat)}

theorem grant {pre post : List (Span Nat)} {c : Span Nat} {layout : Layout} {heap : Heap}
    (ht : Tidy region s (pre ++ c :: post)) (hfits : Fits layout.blockSize layout.blockAlign c)
    (hpath : heap.Path heap.head
      (pre ++ (tail (alignUp layout.blockAlign c.lo + layout.blockSize) c ++ post)) 0) :
    Tidy region ⟨heap, ⟨alignUp layout.blockAlign c.lo, layout⟩ :: s.live⟩
      (pre ++ (tail (alignUp layout.blockAlign c.lo + layout.blockSize) c ++ post)) := by
  have hup : c.lo ≤ alignUp layout.blockAlign c.lo := le_alignUp layout.blockAlign_pos c.lo
  have hmem : c ∈ pre ++ c :: post := by simp
  have hin := ht.inside c hmem
  have hnull : c.lo ≠ 0 := by
    obtain ⟨mid, -, -, hnull, -⟩ := Heap.path_append.mp ht.path
    exact hnull
  have hbound := ht.fits_bounded hmem hfits
  have hdvd : layout.align ∣ alignUp layout.blockAlign c.lo :=
    layout.align_dvd.trans (dvd_alignUp _ _)
  obtain ⟨hend, -⟩ := hfits
  generalize alignUp layout.blockAlign c.lo = ptr at *
  have hlo : c.lo ≤ ptr + layout.blockSize := hup.trans (Nat.le_add_right _ _)
  have hblock : ∀ a, (Block.span ⟨ptr, layout⟩).Contains a → c.Contains a := by
    intro a ha
    obtain ⟨hfirst, hlast⟩ := contains_blockSpan.mp ha
    exact ⟨by omega, by omega⟩
  refine ⟨hpath, ht.apart.replace (tail_apart _ _) fun t htail => (tail_inside hlo htail).2,
    forall_mem_cut ht.roomy (tail_roomy _ _), forall_mem_cut ht.inside fun t htail => ?_,
    List.forall_mem_cons.mpr ⟨hdvd, ht.aligned⟩, ?_, ?_, ?_, .inl hbound⟩
  · have hpiece := tail_inside hlo htail
    exact ⟨by omega, by omega⟩
  · have hplaced : ptr ≠ 0 ∧ region.start ≤ ptr ∧
        ptr + layout.blockSize ≤ region.start + region.size := by omega
    exact List.forall_mem_cons.mpr ⟨hplaced, ht.placed⟩
  · refine List.pairwise_cons.mpr ⟨fun t hlive a ha ha' => ?_, ht.disjoint⟩
    exact ht.beside a ⟨c, hmem, hblock a ha⟩ ⟨t, hlive, ha'⟩
  · intro a ha hlive
    cases (Span.covers_cons _ _ a).mp hlive with
    | inl hnew =>
      exact not_covers_of_cut ht.ordered hlo (hblock a hnew) (contains_blockSpan.mp hnew).2 ha
    | inr hold => exact ht.beside a (covers_of_cut hlo ha) hold

/-- `alloc` by its outcomes, on a tidy heap. -/
theorem alloc_cases (ht : Tidy region s free) {layout : Layout} {fuel ptr : Nat} {heap : Heap}
    (h : s.heap.alloc fuel layout = some (ptr, heap)) :
    (ptr = 0 ∧ heap = s.heap ∧ ∀ c ∈ free, ¬ Fits layout.blockSize layout.blockAlign c) ∨
    ∃ pre c post, free = pre ++ c :: post ∧
      (∀ t ∈ pre, ¬ Fits layout.blockSize layout.blockAlign t) ∧
      Fits layout.blockSize layout.blockAlign c ∧ ptr = alignUp layout.blockAlign c.lo ∧ ptr ≠ 0 ∧
      Tidy region ⟨heap, ⟨ptr, layout⟩ :: s.live⟩
        (pre ++ (tail (ptr + layout.blockSize) c ++ post)) ∧
      Heap.Edited (Span.Covers (pre ++ (tail (ptr + layout.blockSize) c ++ post))) s.heap heap := by
  rcases Heap.alloc_cases ht.path ht.ordered ht.roomy layout (Nat.lt_succ_self free.length) with
    ⟨hnone, hresult⟩ | ⟨pre, c, post, heap', rfl, hpre, hfits, hresult, hpath, hedit⟩
  · have hsame : (ptr, heap) = (0, s.heap) := Loop.iterate_unique h hresult
    cases hsame
    exact .inl ⟨rfl, rfl, hnone⟩
  · have hsame : (ptr, heap) = (alignUp layout.blockAlign c.lo, heap') :=
      Loop.iterate_unique h hresult
    cases hsame
    have hnew := ht.grant hfits hpath
    have hnull := (hnew.placed ⟨alignUp layout.blockAlign c.lo, layout⟩ (by simp)).1
    exact .inr ⟨pre, c, post, rfl, hpre, hfits, rfl, hnull, hnew, hedit⟩

/-- Every call of `alloc` returns. -/
theorem alloc_total (ht : Tidy region s free) (layout : Layout) :
    ∃ fuel result, s.heap.alloc fuel layout = some result := by
  rcases Heap.alloc_cases ht.path ht.ordered ht.roomy layout (Nat.lt_succ_self free.length) with
    ⟨-, hresult⟩ | ⟨_, _, _, _, _, _, _, hresult, _⟩
  · exact ⟨_, _, hresult⟩
  · exact ⟨_, _, hresult⟩

/-- A live block lies beside the free list, so it has a place in it. -/
theorem fits_live (ht : Tidy region s free) {b : Block} (hb : b ∈ s.live) :
    b.span.lo < b.span.hi ∧ Span.Fits b.span free := by
  have hblock : FREE_CHUNK_SIZE ≤ b.layout.blockSize := le_max_right _ _
  have hproper : b.span.lo < b.span.hi := by
    simp only [Block.span, FREE_CHUNK_SIZE] at *
    omega
  refine ⟨hproper, Span.fits_of_disjoint ht.ordered ht.proper hproper fun a ha hfree => ?_⟩
  exact ht.beside a hfree ⟨b.span, List.mem_map_of_mem hb, ha⟩

theorem reclaim (ht : Tidy region s free) {b : Block} (hb : b ∈ s.live) {heap : Heap}
    (hpath : heap.Path heap.head (Span.insert b.span free) 0) :
    Tidy region (s.afterDealloc b heap) (Span.insert b.span free) := by
  obtain ⟨hproper, hfits⟩ := ht.fits_live hb
  have hcovers := Span.insert_covers hproper ht.proper
  have hroom : b.span.lo + FREE_CHUNK_SIZE ≤ b.span.hi :=
    Nat.add_le_add_left (le_max_right _ _) b.ptr
  have hroomy := Heap.roomy_insert ht.roomy hroom
  have hkept : ∀ c ∈ s.live.erase b, c ∈ s.live := fun c hc => List.mem_of_mem_erase hc
  refine ⟨hpath, hfits.insert_apart hproper ht.proper ht.apart, hroomy, ?_,
    fun c hc => ht.aligned c (hkept c hc), fun c hc => ht.placed c (hkept c hc),
    ht.disjoint.sublist (List.erase_sublist.map _), ?_, .inl (ht.live_bounded hb)⟩
  · refine Span.inside_of_covers hroomy.proper fun a ha => ?_
    cases (hcovers a).mp ha with
    | inl hblock =>
      have hplaced := ht.placed b hb
      exact ⟨hplaced.2.1.trans hblock.1, hblock.2.trans_le hplaced.2.2⟩
    | inr hfree =>
      obtain ⟨c, hc, hlo, hhi⟩ := hfree
      exact ⟨(ht.inside c hc).1.trans hlo, hhi.trans_le (ht.inside c hc).2⟩
  · intro a ha hlive
    cases (hcovers a).mp ha with
    | inl hblock =>
      have hperm : s.liveSpans.Perm (b.span :: (s.live.erase b).map Block.span) :=
        (List.perm_cons_erase hb).map Block.span
      obtain ⟨t, hmem, hta⟩ := hlive
      exact (List.pairwise_cons.mp (Span.Disjointed.perm hperm ht.disjoint)).1 t hmem a hblock hta
    | inr hfree =>
      exact ht.beside a hfree (hlive.mono (List.map_subset _ hkept))

theorem dealloc_ok (ht : Tidy region s free) {b : Block} (hb : b ∈ s.live) :
    ∃ heap, s.heap.dealloc (free.length + 1) b.ptr b.layout = some heap ∧
      heap.Path heap.head (Span.insert b.span free) 0 ∧
      Heap.Edited (Span.Covers (Span.insert b.span free)) s.heap heap := by
  have hbound := ht.live_bounded hb
  have hplaced := ht.placed b hb
  obtain ⟨hproper, hfits⟩ := ht.fits_live hb
  refine @Heap.dealloc_spec s.heap free b.span ht.path ht.roomy (fun t hmem => ?_) b.layout
    hplaced.1 rfl (hplaced.2.2.trans_lt hbound) hfits _ (Nat.lt_succ_self free.length)
  have hin := ht.inside t hmem
  omega

theorem dealloc_cases (ht : Tidy region s free) {b : Block} (hb : b ∈ s.live) {fuel : Nat}
    {heap : Heap} (h : s.heap.dealloc fuel b.ptr b.layout = some heap) :
    Tidy region (s.afterDealloc b heap) (Span.insert b.span free) ∧
      Heap.Edited (Span.Covers (Span.insert b.span free)) s.heap heap := by
  obtain ⟨heap', hresult, hpath, hedit⟩ := ht.dealloc_ok hb
  have hsame : heap = heap' := Heap.dealloc_unique h hresult
  subst hsame
  exact ⟨ht.reclaim hb hpath, hedit⟩

theorem write (ht : Tidy region s free) {address : Nat} (hclient : s.ClientByte region address)
    (value : Nat) :
    Tidy region ⟨{ s.heap with memory := s.heap.memory.write address 1 value }, s.live⟩ free := by
  have hedit : Heap.Edited (fun a => a = address) s.heap
      { s.heap with memory := s.heap.memory.write address 1 value } :=
    ⟨⟨[], rfl, by simp⟩, fun a ha => ByteMemory.write_outside s.heap.memory value (by omega)⟩
  refine { ht with path := ht.path.frame hedit fun c hc a ha heq => ?_ }
  subst heq
  have hcovered : Span.Covers free a := Heap.header_covered ht.roomy ⟨c, hc, ha⟩
  cases hclient with
  | inl hout =>
    obtain ⟨t, hmem, hlo, hhi⟩ := hcovered
    have hin := ht.inside t hmem
    exact hout ⟨by omega, by omega⟩
  | inr hlive =>
    obtain ⟨b, hb, hlo, hhi⟩ := hlive
    have hle : b.layout.size ≤ b.layout.blockSize := le_max_left _ _
    exact ht.beside a hcovered ⟨b.span, List.mem_map_of_mem hb, hlo, by
      simp only [Block.span]
      omega⟩

end Tidy

theorem afterAlloc_of_ne_null {s : HeapState} {ptr : Nat} (hnull : ptr ≠ 0) (layout : Layout)
    (heap : Heap) : s.afterAlloc layout ptr heap = ⟨heap, ⟨ptr, layout⟩ :: s.live⟩ := by
  rw [HeapState.afterAlloc, if_neg hnull]

theorem afterAlloc_null (s : HeapState) (layout : Layout) :
    s.afterAlloc layout 0 s.heap = s := rfl

theorem Run.tidy {region : HeapRegion} (hsize : region.size < 2 ^ 64)
    {log : List (Heap × Layout)} {s : HeapState} (hrun : Run region log s) :
    ∃ free, Tidy region s free := by
  induction hrun with
  | init h => exact ⟨_, tidy_init hsize h⟩
  | @alloc log s _ fuel ptr layout heap h ih =>
    obtain ⟨free, ht⟩ := ih
    rcases ht.alloc_cases h with ⟨rfl, rfl, -⟩ | ⟨pre, c, post, -, -, -, -, hnull, hnew, -⟩
    · rw [afterAlloc_null]
      exact ⟨free, ht⟩
    · rw [afterAlloc_of_ne_null hnull]
      exact ⟨_, hnew⟩
  | dealloc _ hlive h ih =>
    obtain ⟨free, ht⟩ := ih
    exact ⟨_, (ht.dealloc_cases hlive h).1⟩
  | write _ hclient value ih =>
    obtain ⟨free, ht⟩ := ih
    exact ⟨free, ht.write hclient value⟩

/-! ### Safety -/

structure SafeHeap (region : HeapRegion) (s : HeapState) (free : List (Span Nat)) : Prop where
  path : s.heap.Path s.heap.head free 0
  ascending : Span.Apart free
  roomy : Heap.Roomy free
  aligned : ∀ b ∈ s.live, b.layout.align ∣ b.ptr
  inside : ∀ b ∈ s.live, region.start ≤ b.ptr ∧
    b.ptr + max b.layout.size 16 ≤ region.start + region.size
  disjoint : Span.Disjointed s.liveSpans
  beside : ∀ a, Span.Covers free a → ¬ Span.Covers s.liveSpans a

/-- What holds of the next call: it returns, it touches no byte of a live block, and
an `alloc` that fails changes nothing. -/
structure SafeCalls (s : HeapState) : Prop where
  alloc_returns : ∀ layout, ∃ fuel result, s.heap.alloc fuel layout = some result
  alloc_null : ∀ fuel layout heap, s.heap.alloc fuel layout = some (0, heap) → heap = s.heap
  alloc_edits : ∀ fuel layout ptr heap, s.heap.alloc fuel layout = some (ptr, heap) →
    Heap.Edited (fun a => ¬ Span.Covers (s.afterAlloc layout ptr heap).liveSpans a) s.heap heap
  dealloc_returns : ∀ b ∈ s.live, ∃ fuel heap, s.heap.dealloc fuel b.ptr b.layout = some heap
  dealloc_edits : ∀ b ∈ s.live, ∀ fuel heap, s.heap.dealloc fuel b.ptr b.layout = some heap →
    Heap.Edited (fun a => ¬ Span.Covers (s.afterDealloc b heap).liveSpans a) s.heap heap

theorem Tidy.safeHeap {region : HeapRegion} {s : HeapState} {free : List (Span Nat)}
    (ht : Tidy region s free) : SafeHeap region s free where
  path := ht.path
  ascending := ht.apart
  roomy := ht.roomy
  aligned := ht.aligned
  inside b hb := (ht.placed b hb).2
  disjoint := ht.disjoint
  beside := ht.beside

theorem Tidy.safeCalls {region : HeapRegion} {s : HeapState} {free : List (Span Nat)}
    (ht : Tidy region s free) : SafeCalls s where
  alloc_returns := ht.alloc_total
  alloc_null fuel layout heap h := by
    rcases ht.alloc_cases h with ⟨-, hsame, -⟩ | ⟨_, _, _, -, -, -, -, hnull, -⟩
    · exact hsame
    · exact absurd rfl hnull
  alloc_edits fuel layout ptr heap h := by
    rcases ht.alloc_cases h with ⟨-, rfl, -⟩ | ⟨_, _, _, -, -, -, -, hnull, hnew, hedit⟩
    · exact .refl _ _
    · rw [afterAlloc_of_ne_null hnull]
      exact hedit.mono hnew.beside
  dealloc_returns b hb := by
    obtain ⟨heap, hresult, -⟩ := ht.dealloc_ok hb
    exact ⟨_, heap, hresult⟩
  dealloc_edits b hb fuel heap h := by
    obtain ⟨hnew, hedit⟩ := ht.dealloc_cases hb h
    exact hedit.mono hnew.beside

theorem heap_safe {region : HeapRegion} (hsize : region.size < 2 ^ 64)
    {log : List (Heap × Layout)} {s : HeapState} (hrun : Run region log s) :
    (∃ free, SafeHeap region s free) ∧ SafeCalls s := by
  obtain ⟨free, ht⟩ := hrun.tidy hsize
  exact ⟨⟨free, ht.safeHeap⟩, ht.safeCalls⟩

def zeroedPage : Heap :=
  (((⟨fun _ => 0, 0, []⟩ : Heap).setSize 4096 4096).setNext 4096 0).store 4096 .head

def pageBlock : Block := ⟨4096, ⟨24, 8, ⟨3, by decide, rfl⟩, by decide⟩⟩

theorem page_granted :
    ∃ heap, Run ⟨4096, 4096⟩ [(zeroedPage, pageBlock.layout)] ⟨heap, [pageBlock]⟩ := by
  have hinit : Run ⟨4096, 4096⟩ [] ⟨zeroedPage, []⟩ := .init rfl
  obtain ⟨heap, halloc⟩ : ∃ heap, zeroedPage.alloc 2 pageBlock.layout = some (4096, heap) :=
    ⟨_, rfl⟩
  exact ⟨heap, hinit.alloc halloc⟩

/-- A block taken from a page, written to and given back. -/
theorem heap_safe_after_return :
    ∃ log s, Run ⟨4096, 4096⟩ log s ∧ log.length = 1 ∧ s.live = [] ∧
      (∃ free, SafeHeap ⟨4096, 4096⟩ s free) ∧ SafeCalls s := by
  obtain ⟨heap, hgrant⟩ := page_granted
  have hwrite := @Run.write _ _ _ hgrant 4100 (.inr ⟨_, List.mem_singleton_self _, by decide⟩) 255
  have hlive : pageBlock ∈ [pageBlock] := List.mem_singleton_self _
  obtain ⟨fuel, heap', hdealloc⟩ := (heap_safe (by decide) hwrite).2.dealloc_returns _ hlive
  have hreturn := hwrite.dealloc hlive hdealloc
  have hempty : [pageBlock].erase pageBlock = [] := by simp
  exact ⟨_, _, hreturn, rfl, hempty, heap_safe (by decide) hreturn⟩

end AgnostOS.Allocator
