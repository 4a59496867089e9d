import AgnostOS.MemoryMap

/-! The physical frame allocator of frame.rs: a fixed-storage first-fit free list
built from the usable ranges of the memory map. -/
namespace AgnostOS.Frame
open Globals Word Memory

abbrev MAX_FREE_RANGES : Nat := MAX_MEMORY_RANGES

/-- Address of a frame. `allocate` builds one without the alignment check of `new`. -/
structure FrameAddress where
  address : Nat
  deriving DecidableEq, Repr

def FrameAddress.new (address : Nat) : Option FrameAddress :=
  if PAGE_SIZE ∣ address then some ⟨address⟩ else none

inductive FrameOwner where
  | heap | pageTable | kernelStack | kernel
  deriving DecidableEq, Repr

structure PhysicalRange where
  start : Nat
  length : Nat
  deriving DecidableEq, Repr

structure OwnedPhysicalRange where
  range : PhysicalRange
  owner : FrameOwner
  deriving DecidableEq, Repr

structure FreeRange where
  start : Nat
  frames : Nat
  deriving DecidableEq, Repr

def FreeRange.end (range : FreeRange) : Nat :=
  saturatingAdd 64 range.start (saturatingMul 64 range.frames PAGE_SIZE)

structure FrameStats where
  totalFrames : Nat
  freeFrames : Nat
  freeRanges : Nat
  deriving DecidableEq, Repr

inductive FrameError where
  | alreadyInitialized | memoryMapUnavailable | outOfMemory
  | invalidAddress | freeRangeStorageFull
  deriving DecidableEq, Repr

abbrev FreeTable := Table FreeRange MAX_FREE_RANGES

/-- `managed` is the original usable set; `ranges` is the current free list. -/
structure FrameAllocator where
  ranges : FreeTable
  managed : FreeTable
  totalFrames : Nat
  freeFrames : Nat

/-- `max_by_key`: of several maxima the last one wins. -/
def maxByKey {α : Type} (key : α → Nat) : List α → Option α
  | [] => none
  | x :: rest => some (rest.foldl (fun best y => if key best ≤ key y then y else best) x)

namespace FrameAllocator

def addRanges : List MemoryRange → FrameAllocator → FrameAllocator
  | [], allocator => allocator
  | range :: rest, allocator =>
    if h : range.kind = .usable ∧ allocator.ranges.count < MAX_FREE_RANGES ∧
        allocator.managed.count < MAX_FREE_RANGES then
      let frames := range.length / PAGE_SIZE
      if frames = 0 then addRanges rest allocator
      else addRanges rest
        { ranges := allocator.ranges.push ⟨range.start, frames⟩ h.2.1
          managed := allocator.managed.push ⟨range.start, frames⟩ h.2.2
          totalFrames := saturatingAdd 64 allocator.totalFrames frames
          freeFrames := saturatingAdd 64 allocator.freeFrames frames }
    else addRanges rest allocator

def new (ranges : List MemoryRange) : FrameAllocator :=
  addRanges ranges ⟨Table.empty ⟨0, 0⟩, Table.empty ⟨0, 0⟩, 0, 0⟩

def removeRange (self : FrameAllocator) (index : Nat) : FrameAllocator :=
  { self with ranges := self.ranges.removeAt index }

def allocate (self : FrameAllocator) : Except FrameError FrameAddress × FrameAllocator :=
  if self.ranges.count = 0 then (.error .outOfMemory, self)
  else
    let range := self.ranges.slots 0
    let address := range.start
    let range : FreeRange :=
      ⟨saturatingAdd 64 range.start PAGE_SIZE, wrappingSub 64 range.frames 1⟩
    let self := { self with ranges := self.ranges.put 0 range }
    let self := if range.frames = 0 then self.removeRange 0 else self
    (.ok ⟨address⟩, { self with freeFrames := wrappingSub 64 self.freeFrames 1 })

def allocateContiguous (self : FrameAllocator) (frames : Nat) :
    Except FrameError PhysicalRange × FrameAllocator :=
  if frames = 0 then (.error .outOfMemory, self)
  else
    match maxByKey (fun index => (self.ranges.slots index).frames)
        ((List.range self.ranges.count).filter fun index =>
          (self.ranges.slots index).frames ≥ frames) with
    | none => (.error .outOfMemory, self)
    | some index =>
      let range := self.ranges.slots index
      match checkedMul 64 frames PAGE_SIZE with
      | none => (.error .outOfMemory, self)
      | some length =>
        match checkedAdd 64 range.start length with
        | none => (.error .outOfMemory, self)
        | some start =>
          -- no underflow: the filter kept only ranges of at least `frames` frames
          let rest : FreeRange := ⟨start, range.frames - frames⟩
          let self := { self with ranges := self.ranges.put index rest }
          let self := if rest.frames = 0 then self.removeRange index else self
          (.ok ⟨range.start, length⟩,
            { self with freeFrames := wrappingSub 64 self.freeFrames frames })

def largestFreeFrames (self : FrameAllocator) : Nat :=
  (self.ranges.entries.map FreeRange.frames).max?.getD 0

def release (self : FrameAllocator) (frame : FrameAddress) :
    Except FrameError Unit × FrameAllocator :=
  let address := frame.address
  if ¬ PAGE_SIZE ∣ address then (.error .invalidAddress, self)
  else if ¬ self.managed.entries.any (fun range =>
      address ≥ range.start && saturatingAdd 64 address PAGE_SIZE ≤ range.end) then
    (.error .invalidAddress, self)
  else
    let ranges := self.ranges
    let index := ranges.scan fun range => range.start < address
    if index > 0 ∧ (ranges.slots (index - 1)).end > address then (.error .invalidAddress, self)
    else if index < ranges.count ∧
        saturatingAdd 64 address PAGE_SIZE > (ranges.slots index).start then
      (.error .invalidAddress, self)
    else if index > 0 ∧ (ranges.slots (index - 1)).end = address then
      let previous := ranges.slots (index - 1)
      let previous := { previous with frames := wrappingAdd 64 previous.frames 1 }
      let grown := { self with ranges := ranges.put (index - 1) previous }
      let next := ranges.slots index
      let joined :=
        if index < ranges.count ∧ previous.end = next.start then
          let previous :=
            { previous with frames := wrappingAdd 64 previous.frames next.frames }
          { self with ranges := grown.ranges.put (index - 1) previous }.removeRange index
        else grown
      (.ok (), { joined with freeFrames := saturatingAdd 64 joined.freeFrames 1 })
    else if index < ranges.count ∧
        saturatingAdd 64 address PAGE_SIZE = (ranges.slots index).start then
      let next := ranges.slots index
      let grown := { self with
        ranges := ranges.put index ⟨address, wrappingAdd 64 next.frames 1⟩ }
      (.ok (), { grown with freeFrames := saturatingAdd 64 grown.freeFrames 1 })
    else if hfull : ranges.count < MAX_FREE_RANGES then
      let inserted := { self with ranges := ranges.insertAt index ⟨address, 1⟩ hfull }
      (.ok (), { inserted with freeFrames := saturatingAdd 64 inserted.freeFrames 1 })
    else (.error .freeRangeStorageFull, self)

def stats (self : FrameAllocator) : FrameStats :=
  ⟨self.totalFrames, self.freeFrames, self.ranges.count⟩

end FrameAllocator

abbrev FrameStatic := Option FrameAllocator

def initializeFrames (allocator : FrameStatic) (map : MemoryMap) :
    Except FrameError Unit × FrameStatic :=
  match allocator with
  | some _ => (.error .alreadyInitialized, allocator)
  | none =>
    match map with
    | none => (.error .memoryMapUnavailable, allocator)
    | some snapshot => (.ok (), some (.new snapshot.ranges))

def allocateContiguousOwned (allocator : FrameStatic) (frames : Nat) (owner : FrameOwner) :
    Except FrameError OwnedPhysicalRange × FrameStatic :=
  match allocator with
  | none => (.error .memoryMapUnavailable, none)
  | some self =>
    let (result, self) := self.allocateContiguous frames
    (result.map fun range => ⟨range, owner⟩, some self)

def largestFreeFrames (allocator : FrameStatic) : Except FrameError Nat :=
  match allocator with
  | none => .error .memoryMapUnavailable
  | some self => .ok self.largestFreeFrames

end AgnostOS.Frame
