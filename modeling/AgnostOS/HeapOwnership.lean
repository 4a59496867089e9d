import AgnostOS.FrameRuns
import AgnostOS.HeapRegion
import AgnostOS.UsableMemory

/-! Exclusive ownership of the heap after boot: what the reservations and the frame
allocator leave behind, byte by byte. -/
namespace AgnostOS.Allocator
open Globals Word Memory MemoryMapSnapshot AgnostOS.Frame

def HeapRegion.Contains (region : HeapRegion) (a : Nat) : Prop :=
  region.start ≤ a ∧ a < region.start + region.size

/-- A successful `reserve` on a separated map. -/
theorem reserve_ok {s : MemoryMapSnapshot} {map : MemoryMap} {start length : Nat} {kind : MemoryKind}
    (hs : Separated s) (h : reserve (some s) start length kind = (.ok (), map)) :
    ∃ t, map = some t ∧ Separated t ∧ t.kindAt = reclassify ⟨start, length, kind⟩ s.kindAt := by
  have hcases := reserveRequest_cases hs.wellFormed ⟨start, length, kind⟩
  simp only [reserveRequest] at hcases
  rcases hcases with ⟨hacc, t, heq, ht⟩ | ⟨-, error, heq⟩
  · simp only [reserve, heq] at h
    have hsame := sameMemory_of_splitTable hs.wellFormed hacc.nonempty ht
    exact ⟨t, (Prod.mk.inj h).2.symm, ⟨hsame.wellFormed, hsame.disjoint hs.disjoint⟩,
      kindAt_of_splitTable hs.wellFormed hacc.nonempty ht⟩
  · simp [reserve, heq] at h

/-- A covered byte of the request has the requested kind afterwards. -/
theorem kindAt_of_reclassify {s t : MemoryMapSnapshot} {r : Request} {a : Nat}
    (ht : t.kindAt = reclassify r s.kindAt) (hlo : r.start ≤ a) (hhi : a < r.start + r.length)
    (hcovered : (s.kindAt a).isSome) : t.kindAt a = some r.kind := by
  rw [ht, reclassify, if_pos ⟨hlo, hhi, hcovered⟩]

theorem kindAt_of_outside {s t : MemoryMapSnapshot} {r : Request} {a : Nat}
    (ht : t.kindAt = reclassify r s.kindAt) (hout : ¬ (r.start ≤ a ∧ a < r.start + r.length)) :
    t.kindAt a = s.kindAt a := by
  rw [ht, reclassify, if_neg fun hin => hout ⟨hin.1, hin.2.1⟩]

structure Staged (framebuffer : Option (Nat × Nat)) (kernelImage window : Nat × Nat)
    (s : MemoryMapSnapshot) : Prop extends Separated s where
  framebufferWithheld : ∀ range, framebuffer = some range → s.Withheld range.1 range.2
  imageWithheld : s.Withheld kernelImage.1 kernelImage.2
  windowWithheld : s.Withheld window.1 window.2

theorem staged_of_reservations {entries : List MemoryDescriptor} {framebuffer : Option (Nat × Nat)}
    {kernelImage window : Nat × Nat} {m m₀ m₁ m₂ : MemoryMap}
    (hdisjoint : Span.Disjointed (entries.map fun d => d.range.span))
    (hinit : initializeMap m entries framebuffer = (.ok (), m₀))
    (himage : reserve m₀ kernelImage.1 kernelImage.2 .kernel = (.ok (), m₁))
    (hwindow : reserve m₁ window.1 window.2 .kernel = (.ok (), m₂)) :
    ∃ s, m₂ = some s ∧ Staged framebuffer kernelImage window s := by
  obtain ⟨s₀, rfl, hover⟩ := initializeMap_ok hinit
  obtain ⟨s₁, rfl, hs₁, hview₁⟩ := reserve_ok ⟨hover.wellFormed, hover.disjoint hdisjoint⟩ himage
  obtain ⟨s₂, rfl, hs₂, hview₂⟩ := reserve_ok hs₁ hwindow
  have hkernel : MemoryKind.kernel ≠ .usable := by decide
  refine ⟨s₂, rfl, hs₂, fun range hrange => ?_, ?_, withheld_of_reserve hkernel hview₂⟩
  · exact ((hover.withheld range hrange).reserve hkernel hview₁).reserve hkernel hview₂
  · exact (withheld_of_reserve hkernel hview₁).reserve hkernel hview₂

structure ExclusiveHeap (framebuffer : Option (Nat × Nat)) (kernelImage window : Nat × Nat)
    (region : HeapRegion) (map : MemoryMapSnapshot) (allocator : FrameAllocator) : Prop where
  nonempty : 0 < region.size
  framebuffer : ∀ range, framebuffer = some range → ∀ a, region.Contains a →
    ¬ (range.1 ≤ a ∧ a < range.1 + range.2)
  kernelImage : ∀ a, region.Contains a →
    ¬ (kernelImage.1 ≤ a ∧ a < kernelImage.1 + kernelImage.2)
  stack : ∀ a, region.Contains a → ¬ (window.1 ≤ a ∧ a < window.1 + window.2)
  freeFrames : ∀ page ∈ allocator.freePages, ∀ a, region.Contains a →
    ¬ (page ≤ a ∧ a < page + PAGE_SIZE)
  heapKernel : ∀ a, region.Contains a → map.kindAt a = some .kernel
  freeUsable : ∀ page ∈ allocator.freePages, ∀ a, page ≤ a → a < page + PAGE_SIZE →
    map.kindAt a = some .usable

theorem exclusive_of_staged {framebuffer : Option (Nat × Nat)} {kernelImage window : Nat × Nat}
    {s t : MemoryMapSnapshot} {left right : List FreeRange} {r : FreeRange} {n : Nat}
    {f f' : FrameAllocator} (hs : Staged framebuffer kernelImage window s)
    (hload : Loaded (usableRuns s.ranges) f) (hcarved : Carved f left r right n f') (hn : 0 < n)
    (ht : t.kindAt = reclassify ⟨r.start, n * PAGE_SIZE, .kernel⟩ s.kindAt) :
    ExclusiveHeap framebuffer kernelImage window ⟨r.start, n * PAGE_SIZE⟩ t f' := by
  have hmap := hs.toSeparated.separateMap
  have hruns : usableRuns s.ranges = left ++ r :: right := hload.ranges.symm.trans hcarved.before
  have hsound := hmap.sound
  have hdisjoint := hmap.runs_disjoint
  rw [hruns] at hsound hdisjoint
  have husable : ∀ q ∈ left ++ r :: right, ∀ a, q.span.Contains a → s.kindAt a = some .usable :=
    fun q hq a ha => hs.toSeparated.kindAt_of_run (hruns ▸ hq) ha
  have hheap : ∀ a, HeapRegion.Contains ⟨r.start, n * PAGE_SIZE⟩ a → s.kindAt a = some .usable := by
    rintro a ⟨hlo, hhi⟩
    refine husable r (by simp) a ⟨hlo, hhi.trans_le ?_⟩
    exact Nat.add_le_add_left (Nat.mul_le_mul_right PAGE_SIZE hcarved.enough) _
  have hfree : ∀ page ∈ f'.freePages, ∀ a, page ≤ a → a < page + PAGE_SIZE →
      s.kindAt a = some .usable ∧ ¬ HeapRegion.Contains ⟨r.start, n * PAGE_SIZE⟩ a := by
    intro page hpage a hlo hhi
    obtain ⟨q, hq, hin⟩ := List.mem_flatMap.mp hpage
    obtain ⟨⟨p, hp, hpa⟩, hout⟩ :=
      hcarved.apart (hsound r (by simp)) hdisjoint hq (frame_in_span hin hlo hhi)
    exact ⟨husable p hp a hpa, hout⟩
  refine ⟨Nat.mul_pos hn (by decide), ?_, ?_, ?_, ?_, ?_, ?_⟩
  · exact fun range hrange a ha => (hs.framebufferWithheld range hrange).not_usable (hheap a ha)
  · exact fun a ha => hs.imageWithheld.not_usable (hheap a ha)
  · exact fun a ha => hs.windowWithheld.not_usable (hheap a ha)
  · exact fun page hpage a ha ⟨hlo, hhi⟩ => (hfree page hpage a hlo hhi).2 ha
  · exact fun a ha => kindAt_of_reclassify ht ha.1 ha.2 (by simp [hheap a ha])
  · intro page hpage a hlo hhi
    obtain ⟨hkind, hout⟩ := hfree page hpage a hlo hhi
    rw [kindAt_of_outside ht hout, hkind]

theorem initializeFrames_ok {allocator allocator' : FrameStatic} {snapshot : MemoryMapSnapshot}
    (h : initializeFrames allocator (some snapshot) = (.ok (), allocator')) :
    allocator = none ∧ allocator' = some (.new snapshot.ranges) := by
  cases allocator with
  | some _ => simp [initializeFrames] at h
  | none => exact ⟨rfl, (Prod.mk.inj h).2.symm⟩

theorem allocateContiguousOwned_ok {f : FrameAllocator} {allocator' : FrameStatic} {n : Nat}
    {owner : FrameOwner} {heap : OwnedPhysicalRange} (hf : Regular f)
    (h : allocateContiguousOwned (some f) n owner = (.ok heap, allocator')) :
    ∃ left r right f', 0 < n ∧ Carved f left r right n f' ∧
      heap.range = ⟨r.start, n * PAGE_SIZE⟩ ∧ allocator' = some f' := by
  rcases allocateContiguous_cases hf n with
    ⟨-, hcall⟩ | ⟨left, r, right, f', hn, -, hcall, hcarved⟩
  · simp [allocateContiguousOwned, hcall, Except.map] at h
  · simp only [allocateContiguousOwned, hcall, Except.map] at h
    obtain ⟨hheap, hstate⟩ := Prod.mk.inj h
    obtain rfl := Except.ok.inj hheap
    exact ⟨left, r, right, f', hn, hcarved, rfl, hstate.symm⟩

theorem exclusive_of_trace {entries : List MemoryDescriptor} {framebuffer : Option (Nat × Nat)}
    {kernelImage : Nat × Nat} {stackMarker : Nat} {region : HeapRegion} {s' : BootState}
    (hdisjoint : Span.Disjointed (entries.map fun d => d.range.span))
    (htrace : BootTrace entries framebuffer kernelImage stackMarker region s') :
    ∃ map allocator, s'.memoryMap = some map ∧ s'.frameAllocator = some allocator ∧
      ExclusiveHeap framebuffer kernelImage (stackWindow stackMarker) region map allocator := by
  cases htrace with
  | @intro m m₀ m₁ m₂ m₃ f f₀ f₁ n heap hinit himage hstack hframes hallocate hreserve hregion hmap
      hframe =>
    obtain ⟨snapshot, rfl, hstaged⟩ := staged_of_reservations hdisjoint hinit himage hstack
    obtain ⟨rfl, rfl⟩ := initializeFrames_ok hframes
    have hsound := hstaged.toSeparated.separateMap.sound
    have hload := new_loaded (snapshot_length_le snapshot) hsound
    obtain ⟨left, r, right, f', hn, hcarved, hrange, rfl⟩ :=
      allocateContiguousOwned_ok (hload.regular hsound) hallocate
    rw [hrange] at hreserve hregion
    obtain ⟨t, rfl, -, hview⟩ := reserve_ok hstaged.toSeparated hreserve
    subst hregion
    exact ⟨t, f', hmap, hframe, exclusive_of_staged hstaged hload hcarved hn hview⟩

/-- Whenever `initialize_heap` succeeds on disjoint descriptors, the region it returns
is owned by nobody else, and the map and the frame allocator agree with it. -/
theorem initializeHeap_exclusive {entries : List MemoryDescriptor}
    {framebuffer : Option (Nat × Nat)} {kernelImage : Nat × Nat} {stackMarker : Nat}
    {region : HeapRegion} {s s' : BootState}
    (hdisjoint : Span.Disjointed (entries.map fun d => d.range.span))
    (hok : (initializeHeap entries framebuffer kernelImage stackMarker).run.run s =
      (.ok region, s')) :
    ∃ map allocator, s'.memoryMap = some map ∧ s'.frameAllocator = some allocator ∧
      ExclusiveHeap framebuffer kernelImage (stackWindow stackMarker) region map allocator := by
  exact exclusive_of_trace hdisjoint (initializeHeap_ok hok)

def bootEntries : List MemoryDescriptor :=
  [⟨.conventional, 0, 256⟩, ⟨.bootServicesCode, 0x100000, 16⟩, ⟨.conventional, 0x110000, 512⟩]

def coldState : BootState := ⟨0, 0, false, none, none⟩

/-- The heap is the run above an image of three bytes, on a stack in low memory. -/
theorem initializeHeap_above_image :
    ∃ region s', (initializeHeap bootEntries (some (0x80000000, 0x1000)) (0x110000, 3) 0x80123).run.run
        coldState = (.ok region, s') ∧ region = ⟨0x110003, 511 * PAGE_SIZE⟩ ∧
      ∃ map allocator, s'.memoryMap = some map ∧ s'.frameAllocator = some allocator ∧
        ExclusiveHeap (some (0x80000000, 0x1000)) (0x110000, 3) (stackWindow 0x80123) region map
          allocator := by
  have hordered : Span.Ordered (bootEntries.map fun d => d.range.span) := by
    unfold Span.Ordered
    decide
  have hregion : ((initializeHeap bootEntries (some (0x80000000, 0x1000)) (0x110000, 3)
      0x80123).run.run coldState).1 = .ok ⟨0x110003, 511 * PAGE_SIZE⟩ := by
    decide +kernel
  refine ⟨_, _, Prod.ext hregion rfl, rfl, ?_⟩
  exact initializeHeap_exclusive hordered.disjointed (Prod.ext hregion rfl)

end AgnostOS.Allocator
