import AgnostOS.HeapRegion
import AgnostOS.Library.ByteMemory
import AgnostOS.Library.Loop

/-! The linked-list heap allocator of allocator/mod.rs. The free list lives in the
memory it manages: each chunk starts with its size and the address of the next. -/
namespace AgnostOS.Allocator
open Word

/-- `size_of::<FreeChunk>()`: two words. -/
abbrev FREE_CHUNK_SIZE : Nat := 16
abbrev FREE_CHUNK_ALIGN : Nat := 8

/-- `Layout`: the alignment is a power of two, and the size rounded up to it does not
overflow `isize`. -/
structure Layout where
  size : Nat
  align : Nat
  align_pow : ∃ k < 64, align = 2 ^ k
  rounded_le : (size + align - 1) / align * align < 2 ^ 63
  deriving DecidableEq

/-- Memory and the head pointer; `written` records the address of every header word
that was written. -/
structure Heap where
  memory : ByteMemory
  head : Nat
  written : List Nat

/-- A `*mut *mut FreeChunk`: the head, or the next field of a chunk. -/
inductive Link where
  | head
  | next (chunk : Nat)
  deriving DecidableEq, Repr

namespace Heap

def readWord (h : Heap) (address : Nat) : Nat := h.memory.read address 8

def writeWord (h : Heap) (address value : Nat) : Heap :=
  { h with memory := h.memory.write address 8 value, written := address :: h.written }

def size (h : Heap) (chunk : Nat) : Nat := h.readWord chunk
def next (h : Heap) (chunk : Nat) : Nat := h.readWord (chunk + 8)
def setSize (h : Heap) (chunk value : Nat) : Heap := h.writeWord chunk value
def setNext (h : Heap) (chunk value : Nat) : Heap := h.writeWord (chunk + 8) value

def load (h : Heap) : Link → Nat
  | .head => h.head
  | .next chunk => h.next chunk

def store (h : Heap) (value : Nat) : Link → Heap
  | .head => { h with head := value }
  | .next chunk => h.setNext chunk value

def init (h : Heap) (region : HeapRegion) : Except HeapError Heap :=
  if region.size < FREE_CHUNK_SIZE then .error .tooSmall
  else if ¬ FREE_CHUNK_ALIGN ∣ region.start then .error .misaligned
  else
    let chunk := region.start
    let h := (h.setSize chunk region.size).setNext chunk 0
    .ok { h with head := chunk }

/-- One turn of the loop of `alloc` at (prev, current); a null result leaves the heap. -/
def allocStep (h : Heap) (size align : Nat) : Link × Link → (Nat × Heap) ⊕ (Link × Link)
  | (prev, current) =>
    let chunk := h.load current
    if chunk = 0 then .inl (0, h)
    else
      let start := chunk
      let advance : Link × Link := (.next chunk, .next chunk)
      match checkedSub align 1 with
      | none => .inl (0, h)
      | some alignmentOffset =>
        match checkedAdd 64 start alignmentOffset with
        | none => .inr advance
        | some alignedUnmasked =>
          let aligned := alignedUnmasked &&& complement 64 alignmentOffset
          match checkedAdd 64 aligned size with
          | none => .inr advance
          | some last =>
            match checkedAdd 64 start (h.size chunk) with
            | none => .inr advance
            | some chunkEnd =>
              if last ≤ chunkEnd then
                let remainder := last
                let remainderSize := chunkEnd - last
                if remainderSize ≥ FREE_CHUNK_SIZE then
                  let h := h.setSize remainder remainderSize
                  let h := h.setNext remainder (h.next chunk)
                  .inl (aligned, h.store remainder prev)
                else .inl (aligned, h.store (h.next chunk) prev)
              else .inr advance

def alloc (fuel : Nat) (h : Heap) (layout : Layout) : Option (Nat × Heap) :=
  let size := max layout.size FREE_CHUNK_SIZE
  let align := max layout.align FREE_CHUNK_ALIGN
  Loop.iterate (h.allocStep size align) fuel (.head, .head)

/-- The walk of `dealloc` to the link that is to point at the chunk. -/
def insertionStep (h : Heap) (chunk : Nat) (link : Link) : Link ⊕ Link :=
  if h.load link ≠ 0 ∧ h.load link < chunk then .inr (.next (h.load link)) else .inl link

/-- The walk of `dealloc` to the chunk before; null at the head. -/
def previousStep (h : Heap) (chunk : Nat) : Nat × Nat → Nat ⊕ (Nat × Nat)
  | (previous, current) =>
    if current ≠ 0 ∧ current ≠ chunk then .inr (current, h.next current) else .inl previous

/-- Grow `first` over `second` when it ends where `second` starts. -/
def mergeTouching (h : Heap) (first second : Nat) : Heap :=
  if checkedAdd 64 first (h.size first) = some second then
    match checkedAdd 64 (h.size first) (h.size second) with
    | some mergedSize =>
      let h := h.setSize first mergedSize
      h.setNext first (h.next second)
    | none => h
  else h

def linkIn (h : Heap) (chunk : Nat) (link : Link) : Heap :=
  let h := h.setNext chunk (h.load link)
  h.store chunk link

def mergeNext (h : Heap) (chunk : Nat) : Heap :=
  let next := h.next chunk
  if next ≠ 0 then h.mergeTouching chunk next else h

def mergePrevious (h : Heap) (previous chunk : Nat) : Heap :=
  if previous ≠ 0 then h.mergeTouching previous chunk else h

def dealloc (fuel : Nat) (h : Heap) (ptr : Nat) (layout : Layout) : Option Heap := do
  let size := max layout.size FREE_CHUNK_SIZE
  let chunk := ptr
  let h := h.setSize chunk size
  let link ← Loop.iterate (h.insertionStep chunk) fuel .head
  let h := h.linkIn chunk link
  let h := h.mergeNext chunk
  let previous ← Loop.iterate (h.previousStep chunk) fuel (0, h.head)
  return h.mergePrevious previous chunk

end Heap
end AgnostOS.Allocator
