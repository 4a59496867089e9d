import AgnostOS.Globals
import AgnostOS.Library.Table
import AgnostOS.Library.Word

/-! The kernel-owned physical memory map of memory.rs: the copy of the firmware
map, its classification and the in-place reservation of byte ranges. -/
namespace AgnostOS.Memory
open Globals Word

/-- Firmware memory types; the kernel tells only the named ones apart. -/
inductive MemoryType where
  | reserved | loaderCode | loaderData | bootServicesCode | bootServicesData
  | runtimeServicesCode | runtimeServicesData | conventional | unusable
  | acpiReclaim | acpiNonVolatile | mmio | mmioPortSpace
  | other (value : Nat)
  deriving DecidableEq, Repr

inductive MemoryKind where
  | usable | kernel | firmware | acpi | device | runtime | unusable | reserved
  deriving DecidableEq, Repr

def MemoryKind.fromUefiType : MemoryType → MemoryKind
  | .conventional => .usable
  | .loaderCode | .loaderData => .kernel
  | .bootServicesCode | .bootServicesData => .firmware
  | .acpiReclaim | .acpiNonVolatile => .acpi
  | .mmio | .mmioPortSpace => .device
  | .runtimeServicesCode | .runtimeServicesData => .runtime
  | .unusable => .unusable
  | _ => .reserved

structure MemoryRange where
  start : Nat
  length : Nat
  uefiType : MemoryType
  kind : MemoryKind
  deriving DecidableEq, Repr

namespace MemoryRange

def «end» (range : MemoryRange) : Nat := saturatingAdd 64 range.start range.length

def contains (range : MemoryRange) (address : Nat) : Bool :=
  range.start ≤ address && address < range.end

def empty : MemoryRange := ⟨0, 0, .reserved, .reserved⟩

end MemoryRange

structure MemoryDescriptor where
  ty : MemoryType
  physStart : Nat
  pageCount : Nat
  deriving DecidableEq, Repr

inductive MemoryMapError where
  | alreadyInitialized | empty | invalidRange | rangeNotFound | tooManyRanges | notInitialized
  deriving DecidableEq, Repr

abbrev RangeTable := Table MemoryRange MAX_MEMORY_RANGES

structure MemoryMapSnapshot where
  table : RangeTable

namespace MemoryMapSnapshot

def len (snapshot : MemoryMapSnapshot) : Nat := snapshot.table.count

def isEmpty (snapshot : MemoryMapSnapshot) : Bool := snapshot.table.count == 0

def ranges (snapshot : MemoryMapSnapshot) : List MemoryRange := snapshot.table.entries

def kindAt (snapshot : MemoryMapSnapshot) (address : Nat) : Option MemoryKind :=
  (snapshot.ranges.find? fun range => range.contains address).map MemoryRange.kind

def copyEntries : List MemoryDescriptor → MemoryMapSnapshot →
    Except MemoryMapError MemoryMapSnapshot
  | [], snapshot => .ok snapshot
  | descriptor :: rest, snapshot =>
    if hfull : snapshot.table.count < MAX_MEMORY_RANGES then
      match checkedMul 64 descriptor.pageCount PAGE_SIZE with
      | none => .error .invalidRange
      | some length =>
        match checkedAdd 64 descriptor.physStart length with
        | none => .error .invalidRange
        | some last =>
          if length = 0 ∨ last ≤ descriptor.physStart then .error .invalidRange
          else copyEntries rest ⟨snapshot.table.push
            ⟨descriptor.physStart, length, descriptor.ty, .fromUefiType descriptor.ty⟩ hfull⟩
    else .error .tooManyRanges

def copyFrom (entries : List MemoryDescriptor) : Except MemoryMapError MemoryMapSnapshot := do
  let snapshot ← copyEntries entries ⟨Table.empty .empty⟩
  if snapshot.isEmpty then .error .empty else .ok snapshot

/-- The closure `push` of `reserve_range`: zero-length pieces vanish. -/
def pushPiece (replacement : RangeTable) (value : MemoryRange) :
    Except MemoryMapError RangeTable :=
  if value.length = 0 then .ok replacement
  else if h : replacement.count < MAX_MEMORY_RANGES then .ok (replacement.push value h)
  else .error .tooManyRanges

/-- The loop of `reserve_range` over the old ranges, with the replacement table and
the flag `overlapped`. -/
def splitRanges (start last : Nat) (kind : MemoryKind) :
    List MemoryRange → RangeTable → Bool → Except MemoryMapError (RangeTable × Bool)
  | [], replacement, overlapped => .ok (replacement, overlapped)
  | range :: rest, replacement, overlapped =>
    let overlapStart := max start range.start
    let overlapEnd := min last range.end
    if overlapStart ≥ overlapEnd then
      if h : replacement.count < MAX_MEMORY_RANGES then
        splitRanges start last kind rest (replacement.push range h) overlapped
      else .error .tooManyRanges
    else do
      -- none of the three differences underflows: overlapStart < overlapEnd here
      let replacement ← pushPiece replacement
        { range with length := overlapStart - range.start }
      let replacement ← pushPiece replacement
        { range with start := overlapStart, length := overlapEnd - overlapStart, kind := kind }
      let replacement ← pushPiece replacement
        { range with start := overlapEnd, length := range.end - overlapEnd }
      splitRanges start last kind rest replacement true

def reserveRange (snapshot : MemoryMapSnapshot) (start length : Nat) (kind : MemoryKind) :
    Except MemoryMapError Unit × MemoryMapSnapshot :=
  match checkedAdd 64 start length with
  | none => (.error .invalidRange, snapshot)
  | some last =>
    if length = 0 ∨ last ≤ start then (.error .invalidRange, snapshot)
    else
      match splitRanges start last kind snapshot.ranges (Table.empty .empty) false with
      | .error error => (.error error, snapshot)
      | .ok (_, false) => (.error .rangeNotFound, snapshot)
      | .ok (replacement, true) => (.ok (), ⟨replacement⟩)

def addExternalRange (snapshot : MemoryMapSnapshot) (start length : Nat) (kind : MemoryKind) :
    Except MemoryMapError Unit × MemoryMapSnapshot :=
  match checkedAdd 64 start length with
  | none => (.error .invalidRange, snapshot)
  | some last =>
    if h : length = 0 ∨ last ≤ start ∨ snapshot.table.count = MAX_MEMORY_RANGES then
      (.error .invalidRange, snapshot)
    else
      have hroom : snapshot.table.count < MAX_MEMORY_RANGES := by
        have := snapshot.table.count_le
        omega
      (.ok (), ⟨snapshot.table.push ⟨start, length, .mmio, kind⟩ hroom⟩)

end MemoryMapSnapshot

/-- The map owned by the kernel once it is initialized; `None` before. -/
abbrev MemoryMap := Option MemoryMapSnapshot

/-- The `memory` entry point that fills the static: its result and the new contents. -/
def initializeMap (map : MemoryMap) (entries : List MemoryDescriptor)
    (framebuffer : Option (Nat × Nat)) : Except MemoryMapError Unit × MemoryMap :=
  match map with
  | some _ => (.error .alreadyInitialized, map)
  | none =>
    match MemoryMapSnapshot.copyFrom entries with
    | .error error => (.error error, map)
    | .ok snapshot =>
      match framebuffer with
      | none => (.ok (), some snapshot)
      | some (start, length) =>
        match snapshot.reserveRange start length .device with
        | (.ok (), snapshot) => (.ok (), some snapshot)
        | (.error .rangeNotFound, snapshot) =>
          match snapshot.addExternalRange start length .device with
          | (.ok (), snapshot) => (.ok (), some snapshot)
          | (.error error, _) => (.error error, map)
        | (.error error, _) => (.error error, map)

def reserve (map : MemoryMap) (start length : Nat) (kind : MemoryKind) :
    Except MemoryMapError Unit × MemoryMap :=
  match map with
  | none => (.error .notInitialized, map)
  | some snapshot =>
    let (result, snapshot) := snapshot.reserveRange start length kind
    (result, some snapshot)

end AgnostOS.Memory
