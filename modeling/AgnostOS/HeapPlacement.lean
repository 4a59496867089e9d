import AgnostOS.HeapAccounting
import AgnostOS.Library.SpanPoints

/-! Where `alloc` puts a block: at the lowest aligned place among the free bytes, and it
fails only when there is none. Coalescing makes this a statement about bytes. -/
namespace AgnostOS.Allocator

/-! ### Places -/

def HeapState.FreeByte (s : HeapState) (a : Nat) : Prop :=
  ∃ free, s.heap.Path s.heap.head free 0 ∧ Heap.Roomy free ∧ Span.Covers free a

def HeapState.Place (s : HeapState) (layout : Layout) (p : Nat) : Prop :=
  layout.blockAlign ∣ p ∧ ∀ a, p ≤ a → a < p + layout.blockSize → s.FreeByte a

theorem alignUp_le {align a p : Nat} (hpos : 0 < align) (hdvd : align ∣ p) (hle : a ≤ p) :
    alignUp align a ≤ p := by
  obtain ⟨q, rfl⟩ := hdvd
  have hlt : (a + (align - 1)) / align < q + 1 := by
    rw [Nat.div_lt_iff_lt_mul hpos, Nat.add_mul, Nat.one_mul, Nat.mul_comm q]
    omega
  rw [alignUp, Nat.mul_comm align]
  exact Nat.mul_le_mul_right align (Nat.le_of_lt_succ hlt)

theorem Layout.blockSize_pos (layout : Layout) : 0 < layout.blockSize :=
  Nat.lt_of_lt_of_le (by decide) (le_max_right layout.size FREE_CHUNK_SIZE)

namespace Tidy
variable {region : HeapRegion} {s : HeapState} {free : List (Span Nat)} {layout : Layout}

theorem freeByte_iff (ht : Tidy region s free) {a : Nat} : s.FreeByte a ↔ Span.Covers free a := by
  constructor
  · rintro ⟨free', hpath, hroomy, ha⟩
    rwa [ht.path.unique hpath ht.proper hroomy.proper]
  · exact fun ha => ⟨free, ht.path, ht.roomy, ha⟩

theorem fits_of_place (ht : Tidy region s free) (hbound : region.start + region.size < 2 ^ 64)
    {p : Nat} (hp : s.Place layout p) :
    ∃ c ∈ free, Fits layout.blockSize layout.blockAlign c ∧
      alignUp layout.blockAlign c.lo ≤ p ∧ c.lo ≤ p ∧ p < c.hi := by
  have hsize := layout.blockSize_pos
  obtain ⟨c, hc, hlo, hhi⟩ := ht.apart.within_one
    (show p < p + layout.blockSize by omega) fun a ha ha' => ht.freeByte_iff.mp (hp.2 a ha ha')
  have hup := alignUp_le layout.blockAlign_pos hp.1 hlo
  have hin := ht.inside c hc
  exact ⟨c, hc, ⟨by omega, by omega⟩, hup, hlo, by omega⟩

theorem place_of_fits (ht : Tidy region s free) {c : Span Nat} (hc : c ∈ free)
    (hfits : Fits layout.blockSize layout.blockAlign c) :
    s.Place layout (alignUp layout.blockAlign c.lo) := by
  refine ⟨dvd_alignUp _ _, fun a hlo hhi => ht.freeByte_iff.mpr ⟨c, hc, ?_, ?_⟩⟩
  · exact (le_alignUp layout.blockAlign_pos c.lo).trans hlo
  · exact hhi.trans_le hfits.1

/-- `alloc` takes the lowest place, and returns null when there is none. -/
theorem alloc_lowest (ht : Tidy region s free) (hbound : region.start + region.size < 2 ^ 64)
    {fuel ptr : Nat} {heap : Heap} (h : s.heap.alloc fuel layout = some (ptr, heap)) :
    (ptr = 0 ∧ ∀ p, ¬ s.Place layout p) ∨
      (ptr ≠ 0 ∧ s.Place layout ptr ∧ ∀ p, s.Place layout p → ptr ≤ p) := by
  rcases ht.alloc_cases h with
    ⟨rfl, -, hnone⟩ | ⟨pre, c, post, rfl, hpre, hfits, rfl, hnull, -, -⟩
  · refine .inl ⟨rfl, fun p hp => ?_⟩
    obtain ⟨c, hc, hfits, -⟩ := ht.fits_of_place hbound hp
    exact hnone c hc hfits
  · have hc : c ∈ pre ++ c :: post := by simp
    refine .inr ⟨hnull, ht.place_of_fits hc hfits, fun p hp => ?_⟩
    obtain ⟨d, hd, hdfits, hup, hlo, -⟩ := ht.fits_of_place hbound hp
    simp only [List.mem_append, List.mem_cons] at hd
    rcases hd with hd | rfl | hd
    · exact absurd hdfits (hpre d hd)
    · exact hup
    · -- a later chunk starts above the end of this one
      have hbelow := (List.pairwise_cons.mp (List.pairwise_append.mp ht.apart).2.1).1 d hd
      have hend := hfits.1
      omega

theorem freeByte_afterDealloc (ht : Tidy region s free) {b : Block} (hb : b ∈ s.live) {fuel : Nat}
    {heap : Heap} (h : s.heap.dealloc fuel b.ptr b.layout = some heap) {a : Nat} :
    (s.afterDealloc b heap).FreeByte a ↔ b.span.Contains a ∨ s.FreeByte a := by
  obtain ⟨hnew, -⟩ := ht.dealloc_cases hb h
  rw [hnew.freeByte_iff, ht.freeByte_iff, Span.insert_covers (ht.fits_live hb).1 ht.proper]

end Tidy

/-! ### Whole runs -/

theorem Run.blockAligned {region : HeapRegion} (hsize : region.size < 2 ^ 64)
    {log : List (Heap × Layout)} {s : HeapState} (hrun : Run region log s) :
    ∀ b ∈ s.live, b.layout.blockAlign ∣ b.ptr := by
  induction hrun with
  | init h => simp
  | @alloc log s hrun fuel ptr layout heap h ih =>
    obtain ⟨free, ht⟩ := hrun.tidy hsize
    rcases ht.alloc_cases h with ⟨rfl, rfl, -⟩ | ⟨pre, c, post, -, -, -, rfl, hnull, -, -⟩
    · exact ih
    · rw [afterAlloc_of_ne_null hnull]
      exact List.forall_mem_cons.mpr ⟨dvd_alignUp _ _, ih⟩
  | dealloc _ _ _ ih => exact fun b hb => ih b (List.mem_of_mem_erase hb)
  | write _ _ _ ih => exact ih

/-- What a client may count on when it asks for memory: the calls return, `alloc` answers the
lowest place, and what was given back can be had again. -/
structure Placed (s : HeapState) : Prop where
  alloc_returns : ∀ layout, ∃ fuel result, s.heap.alloc fuel layout = some result
  lowest : ∀ layout fuel ptr heap, s.heap.alloc fuel layout = some (ptr, heap) →
    (ptr = 0 ∧ ∀ p, ¬ s.Place layout p) ∨
      (ptr ≠ 0 ∧ s.Place layout ptr ∧ ∀ p, s.Place layout p → ptr ≤ p)
  dealloc_returns : ∀ b ∈ s.live, ∃ fuel heap, s.heap.dealloc fuel b.ptr b.layout = some heap
  returned : ∀ b ∈ s.live, ∀ fuel heap, s.heap.dealloc fuel b.ptr b.layout = some heap →
    ∀ a, (s.afterDealloc b heap).FreeByte a ↔ b.span.Contains a ∨ s.FreeByte a
  again : ∀ b ∈ s.live, ∀ fuel heap, s.heap.dealloc fuel b.ptr b.layout = some heap →
    (∃ fuel' result, heap.alloc fuel' b.layout = some result) ∧
      ∀ fuel' ptr heap', heap.alloc fuel' b.layout = some (ptr, heap') → ptr ≠ 0 ∧ ptr ≤ b.ptr

/-- Over every run `alloc` and `dealloc` return; `alloc` fails only when no aligned block of
free bytes is left, it takes the lowest one otherwise, and what was given back can be had
again. -/
theorem alloc_takes_lowest_place {region : HeapRegion}
    (hbound : region.start + region.size < 2 ^ 64) {log : List (Heap × Layout)} {s : HeapState}
    (hrun : Run region log s) : Placed s := by
  have hsize : region.size < 2 ^ 64 := by omega
  obtain ⟨free, ht⟩ := hrun.tidy hsize
  refine ⟨ht.alloc_total, fun layout fuel ptr heap h => ht.alloc_lowest hbound h,
    ht.safeCalls.dealloc_returns, fun b hb fuel heap h a => ht.freeByte_afterDealloc hb h,
    fun b hb fuel heap h => ?_⟩
  obtain ⟨hnew, -⟩ := ht.dealloc_cases hb h
  refine ⟨hnew.alloc_total b.layout, fun fuel' ptr heap' halloc => ?_⟩
  have hplace : (s.afterDealloc b heap).Place b.layout b.ptr := by
    refine ⟨hrun.blockAligned hsize b hb, fun a hlo hhi => ?_⟩
    exact (ht.freeByte_afterDealloc hb h).mpr (.inl ⟨hlo, hhi⟩)
  rcases hnew.alloc_lowest hbound halloc with ⟨-, hnone⟩ | ⟨hnull, -, hleast⟩
  · exact absurd hplace (hnone b.ptr)
  · exact ⟨hnull, hleast b.ptr hplace⟩

theorem placed_in_a_page : ∃ heap, Placed ⟨heap, [pageBlock]⟩ := by
  obtain ⟨heap, hrun⟩ := page_granted
  exact ⟨heap, alloc_takes_lowest_place (by decide) hrun⟩

end AgnostOS.Allocator
