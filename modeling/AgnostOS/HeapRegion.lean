import AgnostOS.FrameAllocator
import AgnostOS.Handover

/-! Heap region selection of allocator/mod.rs: the boot sequence from the firmware map
to an exclusively owned run of frames. -/
namespace AgnostOS.Allocator
open Globals Word Memory AgnostOS.Frame

structure HeapRegion where
  start : Nat
  size : Nat
  deriving DecidableEq, Repr

inductive HeapError where
  | alreadyInitialized | noConventionalMemory | tooSmall | misaligned
  | memoryMapUnavailable | frameAllocatorUnavailable | memoryReservationFailed
  deriving DecidableEq, Repr

structure BootState where
  heapSize : Nat
  heapStart : Nat
  bootServicesExited : Bool
  memoryMap : MemoryMap
  frameAllocator : FrameStatic

abbrev Boot := ExceptT HeapError (StateM BootState)

def withMap (call : MemoryMap → Except MemoryMapError Unit × MemoryMap) (error : HeapError) :
    Boot Unit :=
  ExceptT.mk fun s =>
    match call s.memoryMap with
    | (.ok (), map) => (.ok (), { s with memoryMap := map })
    | (.error _, map) => (.error error, { s with memoryMap := map })

def withFrames {α : Type} (call : FrameStatic → Except FrameError α × FrameStatic)
    (error : HeapError) : Boot α :=
  ExceptT.mk fun s =>
    match call s.frameAllocator with
    | (.ok value, allocator) => (.ok value, { s with frameAllocator := allocator })
    | (.error _, allocator) => (.error error, { s with frameAllocator := allocator })

def refuseIf (refuse : Prop) [Decidable refuse] (error : HeapError) : Boot Unit :=
  if refuse then throw error else pure ()

def stackWindow (stackMarker : Nat) : Nat × Nat :=
  let stackPage := stackMarker &&& complement 64 (4096 - 1)
  (saturatingSub stackPage (32 * 4096), 64 * 4096)

/-- `entries` is the map that `exit_boot_services` returns. -/
def initializeHeap (entries : List MemoryDescriptor) (framebuffer : Option (Nat × Nat))
    (kernelImage : Nat × Nat) (stackMarker : Nat) : Boot HeapRegion := do
  refuseIf ((← get).heapSize ≠ 0) .alreadyInitialized
  modify fun s => { s with bootServicesExited := true }
  withMap (fun map => initializeMap map entries framebuffer) .memoryMapUnavailable
  withMap (fun map => reserve map kernelImage.1 kernelImage.2 .kernel) .memoryReservationFailed
  let window := stackWindow stackMarker
  withMap (fun map => reserve map window.1 window.2 .kernel) .memoryReservationFailed
  let map := (← get).memoryMap
  withFrames (fun allocator => initializeFrames allocator map) .frameAllocatorUnavailable
  let heapFrames ← withFrames (fun allocator => (largestFreeFrames allocator, allocator))
    .frameAllocatorUnavailable
  refuseIf (heapFrames = 0) .noConventionalMemory
  let heap ← withFrames (fun allocator => allocateContiguousOwned allocator heapFrames .heap)
    .frameAllocatorUnavailable
  withMap (fun map => reserve map heap.range.start heap.range.length .kernel)
    .memoryReservationFailed
  modify fun s => { s with heapStart := heap.range.start, heapSize := heap.range.length }
  pure ⟨heap.range.start, heap.range.length⟩

/-! ### Reading a successful boot backwards -/

theorem bind_ok {α β : Type} {x : Boot α} {f : α → Boot β} {s s' : BootState} {b : β}
    (h : (x >>= f).run.run s = (.ok b, s')) :
    ∃ a t, x.run.run s = (.ok a, t) ∧ (f a).run.run t = (.ok b, s') := by
  rw [ExceptT.run_bind] at h
  simp only [StateT.run_bind] at h
  cases hx : x.run.run s with
  | mk result t =>
    rw [hx] at h
    cases result with
    | ok a => exact ⟨a, t, rfl, h⟩
    | error e => cases h

theorem withMap_ok {call : MemoryMap → Except MemoryMapError Unit × MemoryMap} {error : HeapError}
    {s s' : BootState} {u : Unit} (h : (withMap call error).run.run s = (.ok u, s')) :
    ∃ map, call s.memoryMap = (.ok (), map) ∧ s' = { s with memoryMap := map } := by
  cases hcall : call s.memoryMap with
  | mk result map =>
    cases result with
    | ok _ =>
      have hrun : (withMap call error).run.run s = (.ok (), { s with memoryMap := map }) := by
        simp only [withMap, ExceptT.run_mk, StateT.run, hcall]
      exact ⟨map, rfl, (Prod.mk.inj (h.symm.trans hrun)).2⟩
    | error e =>
      have hrun : (withMap call error).run.run s = (.error error, { s with memoryMap := map }) := by
        simp only [withMap, ExceptT.run_mk, StateT.run, hcall]
      cases h.symm.trans hrun

theorem withFrames_ok {α : Type} {call : FrameStatic → Except FrameError α × FrameStatic}
    {error : HeapError} {s s' : BootState} {value : α}
    (h : (withFrames call error).run.run s = (.ok value, s')) :
    ∃ allocator, call s.frameAllocator = (.ok value, allocator) ∧
      s' = { s with frameAllocator := allocator } := by
  cases hcall : call s.frameAllocator with
  | mk result allocator =>
    cases result with
    | ok v =>
      have hrun : (withFrames call error).run.run s =
          (.ok v, { s with frameAllocator := allocator }) := by
        simp only [withFrames, ExceptT.run_mk, StateT.run, hcall]
      obtain ⟨hvalue, hstate⟩ := Prod.mk.inj (h.symm.trans hrun)
      obtain rfl := Except.ok.inj hvalue
      exact ⟨allocator, rfl, hstate⟩
    | error e =>
      have hrun : (withFrames call error).run.run s =
          (.error error, { s with frameAllocator := allocator }) := by
        simp only [withFrames, ExceptT.run_mk, StateT.run, hcall]
      cases h.symm.trans hrun

theorem get_ok {s s' a : BootState} (h : (get : Boot BootState).run.run s = (.ok a, s')) :
    a = s ∧ s' = s := by
  have hrun : (get : Boot BootState).run.run s = (.ok s, s) := rfl
  obtain ⟨hvalue, hstate⟩ := Prod.mk.inj (h.symm.trans hrun)
  exact ⟨Except.ok.inj hvalue, hstate⟩

theorem modify_ok {f : BootState → BootState} {s s' : BootState} {u : PUnit}
    (h : (modify f : Boot PUnit).run.run s = (.ok u, s')) : s' = f s := by
  have hrun : (modify f : Boot PUnit).run.run s = (.ok ⟨⟩, f s) := rfl
  exact (Prod.mk.inj (h.symm.trans hrun)).2

theorem pure_ok {α : Type} {a b : α} {s s' : BootState}
    (h : (pure a : Boot α).run.run s = (.ok b, s')) : b = a ∧ s' = s := by
  have hrun : (pure a : Boot α).run.run s = (.ok a, s) := rfl
  obtain ⟨hvalue, hstate⟩ := Prod.mk.inj (h.symm.trans hrun)
  exact ⟨Except.ok.inj hvalue, hstate⟩

theorem refuseIf_ok {refuse : Prop} [Decidable refuse] {error : HeapError} {s s' : BootState}
    {u : Unit} (h : (refuseIf refuse error).run.run s = (.ok u, s')) : ¬ refuse ∧ s' = s := by
  rw [refuseIf] at h
  split at h
  · have hrun : (throw error : Boot Unit).run.run s = (.error error, s) := rfl
    cases h.symm.trans hrun
  · next hpass => exact ⟨hpass, (pure_ok h).2⟩

/-- The calls behind a returned region, each on what the one before it left. -/
inductive BootTrace (entries : List MemoryDescriptor) (framebuffer : Option (Nat × Nat))
    (kernelImage : Nat × Nat) (stackMarker : Nat) (region : HeapRegion) (s' : BootState) : Prop
  | intro {m m₀ m₁ m₂ m₃ : MemoryMap} {f f₀ f₁ : FrameStatic} {n : Nat} {heap : OwnedPhysicalRange}
      (handover : initializeMap m entries framebuffer = (.ok (), m₀))
      (image : reserve m₀ kernelImage.1 kernelImage.2 .kernel = (.ok (), m₁))
      (stack : reserve m₁ (stackWindow stackMarker).1 (stackWindow stackMarker).2 .kernel =
        (.ok (), m₂))
      (frames : initializeFrames f m₂ = (.ok (), f₀))
      (allocate : allocateContiguousOwned f₀ n .heap = (.ok heap, f₁))
      (heapReserve : reserve m₂ heap.range.start heap.range.length .kernel = (.ok (), m₃))
      (result : region = ⟨heap.range.start, heap.range.length⟩)
      (memoryMap : s'.memoryMap = m₃) (frameAllocator : s'.frameAllocator = f₁) :
      BootTrace entries framebuffer kernelImage stackMarker region s'

theorem initializeHeap_ok {entries : List MemoryDescriptor} {framebuffer : Option (Nat × Nat)}
    {kernelImage : Nat × Nat} {stackMarker : Nat} {region : HeapRegion} {s s' : BootState}
    (h : (initializeHeap entries framebuffer kernelImage stackMarker).run.run s =
      (.ok region, s')) :
    BootTrace entries framebuffer kernelImage stackMarker region s' := by
  rw [initializeHeap] at h
  obtain ⟨s₁, t, hget, h₁⟩ := bind_ok h
  obtain ⟨rfl, rfl⟩ := get_ok hget
  obtain ⟨_, t, hfirst, h₂⟩ := bind_ok h₁
  obtain ⟨-, rfl⟩ := refuseIf_ok hfirst
  obtain ⟨_, t, hexit, h₃⟩ := bind_ok h₂
  obtain rfl := modify_ok hexit
  obtain ⟨_, t, hinit, h₄⟩ := bind_ok h₃
  obtain ⟨m₀, hinitCall, rfl⟩ := withMap_ok hinit
  obtain ⟨_, t, himage, h₅⟩ := bind_ok h₄
  obtain ⟨m₁, himageCall, rfl⟩ := withMap_ok himage
  obtain ⟨_, t, hstack, h₆⟩ := bind_ok h₅
  obtain ⟨m₂, hstackCall, rfl⟩ := withMap_ok hstack
  obtain ⟨s₂, t, hget, h₇⟩ := bind_ok h₆
  obtain ⟨rfl, rfl⟩ := get_ok hget
  obtain ⟨_, t, hframes, h₈⟩ := bind_ok h₇
  obtain ⟨f₀, hframesCall, rfl⟩ := withFrames_ok hframes
  obtain ⟨n, t, hlargest, h₉⟩ := bind_ok h₈
  obtain ⟨f, hlargestCall, rfl⟩ := withFrames_ok hlargest
  obtain rfl := (Prod.mk.inj hlargestCall).2
  obtain ⟨_, t, hsome, h₁₀⟩ := bind_ok h₉
  obtain ⟨-, rfl⟩ := refuseIf_ok hsome
  obtain ⟨heap, t, hallocate, h₁₁⟩ := bind_ok h₁₀
  obtain ⟨f₁, hallocateCall, rfl⟩ := withFrames_ok hallocate
  obtain ⟨_, t, hreserve, h₁₂⟩ := bind_ok h₁₁
  obtain ⟨m₃, hreserveCall, rfl⟩ := withMap_ok hreserve
  obtain ⟨_, t, hstore, h₁₃⟩ := bind_ok h₁₂
  obtain rfl := modify_ok hstore
  obtain ⟨hregion, rfl⟩ := pure_ok h₁₃
  exact .intro hinitCall himageCall hstackCall hframesCall hallocateCall hreserveCall hregion rfl rfl

end AgnostOS.Allocator
