import AgnostOS.PageMapper
import AgnostOS.VirtualRange

/-! paging.rs over its mappers: single pages, identity-mapped ranges, and the bootstrap
that ends in the kernel's own tables. -/
namespace AgnostOS.Paging
open Globals Word Memory AgnostOS.Frame Attempt PageTableFlags

inductive PagingError where
  | alreadyInitialized | notInitialized | frame (error : Frame.FrameError)
  | memoryMap (error : MemoryMapError) | addressTooLarge | invalidPageTableSize | mappingFailed
  | unmappingFailed | notDeviceMemory | range (error : VirtualRangeError)
  deriving DecidableEq, Repr

/-- `result?` on a pure result. -/
def orRaise {ε ε' α : Type} (f : ε → ε') : Except ε α → Kernel ε' α
  | .ok a => pure a
  | .error e => throw (.error (f e))

def virtAddr {ε : Type} (address : Nat) : Kernel ε Nat :=
  if isCanonical address then pure address else throw .panic

def physAddr {ε : Type} (address : Nat) : Kernel ε Nat :=
  if address < 2 ^ 52 then pure address else throw .panic

def containingAddress (address : Nat) : Nat := address / PAGE_SIZE * PAGE_SIZE

section Calls
variable (mappers : Mappers) (storage : Storage)

def withOffsetMapper {α : Type} (operation : Mapper → Kernel PagingError α) :
    Kernel PagingError α := do
  match (← get).root with
  | none => throw (.error .notInitialized)
  | some root => operation (mappers.offset root.frame)

def withRecursiveMapper {α : Type} (operation : Mapper → Kernel PagingError α) :
    Kernel PagingError α := do
  match (← get).root with
  | none => throw (.error .notInitialized)
  | some _ => operation (mappers.recursive recursiveTableAddress RECURSIVE_INDEX)

def mapOnMapper (mapper : Mapper) (virtualAddress physicalAddress : Nat) (flags : PageTableFlags) :
    Kernel PagingError Unit := do
  let page := containingAddress (← virtAddr virtualAddress)
  let frame := containingAddress (← physAddr physicalAddress)
  ExceptT.adapt (Stop.map fun _ => .mappingFailed)
    (mapper.mapTo page frame flags (reserveFrame storage))

def mapPage (virtualAddress physicalAddress : Nat) (flags : PageTableFlags) :
    Kernel PagingError Unit := do
  let range ← orRaise .range (VirtualRange.new virtualAddress PAGE_SIZE)
  if ¬ PAGE_SIZE ∣ physicalAddress then throw (.error (.range .misaligned))
  else if (← get).pagingActive then
    withRecursiveMapper mappers fun mapper =>
      mapOnMapper storage mapper range.start physicalAddress flags
  else
    withOffsetMapper mappers fun mapper =>
      mapOnMapper storage mapper range.start physicalAddress flags

def unmapOnMapper (mapper : Mapper) (virtualAddress : Nat) : Kernel PagingError Nat := do
  let page := containingAddress (← virtAddr virtualAddress)
  ExceptT.adapt (Stop.map fun _ => .unmappingFailed) (mapper.unmap page)

def unmapPage (virtualAddress : Nat) : Kernel PagingError Nat := do
  let range ← orRaise .range (VirtualRange.new virtualAddress PAGE_SIZE)
  if (← get).pagingActive then
    withRecursiveMapper mappers fun mapper => unmapOnMapper mapper range.start
  else
    withOffsetMapper mappers fun mapper => unmapOnMapper mapper range.start

def pageBounds (start length : Nat) : Except PagingError (Nat × Nat) :=
  match checkedAdd 64 start length with
  | none => .error .addressTooLarge
  | some stop =>
    let first := start / PAGE_SIZE * PAGE_SIZE
    -- `stop` is exclusive: an aligned one is not rounded up
    if PAGE_SIZE ∣ stop then .ok (first, stop)
    else
      match checkedAdd 64 stop (PAGE_SIZE - 1) with
      | none => .error .addressTooLarge
      | some last => .ok (first, last / PAGE_SIZE * PAGE_SIZE)

/-- The loop of `map_range` from `address` on, with fuel for its turns. -/
def mapPages (last : Nat) (flags : PageTableFlags) : (fuel address : Nat) → Kernel PagingError Unit
  | 0, _ => throw .unfinished
  | fuel + 1, address =>
    if address < last then do
      mapPage mappers storage address address flags
      mapPages last flags fuel (wrappingAdd 64 address PAGE_SIZE)
    else pure ()

def mapRange (start length : Nat) (flags : PageTableFlags) : Kernel PagingError Unit := do
  let (first, last) ← orRaise id (pageBounds start length)
  mapPages mappers storage last flags ((last - first) / PAGE_SIZE + 1) first

/-- The range of `initialize` around a byte range: its start is rounded down to a page. -/
def outerRange (range : Nat × Nat) : Except PagingError (Nat × Nat) :=
  let start := range.1 &&& complement 64 (PAGE_SIZE - 1)
  match checkedAdd 64 range.1 range.2 with
  | none => .error .addressTooLarge
  | some stop => .ok (start, saturatingSub stop start)

/-- Start and length of the window mapped around the stack, one guard page short of it
on either side. -/
def stackRange (stackMarker : Nat) : Nat × Nat :=
  let stackPage := stackMarker &&& complement 64 (PAGE_SIZE - 1)
  (saturatingSub stackPage (31 * PAGE_SIZE), 62 * PAGE_SIZE)

/-- Size of the crate's page table: 512 entries of eight bytes. -/
abbrev PAGE_TABLE_BYTES : Nat := 512 * 8

def kernelFlags : PageTableFlags := PRESENT ||| WRITABLE
def dataFlags : PageTableFlags := PRESENT ||| WRITABLE ||| NO_EXECUTE
def deviceFlags : PageTableFlags := PRESENT ||| WRITABLE ||| NO_CACHE ||| NO_EXECUTE

theorem kernelFlags_plain : present kernelFlags ∧ ¬ huge kernelFlags := by decide

def installRoot : Kernel PagingError Unit := do
  if ((← get).root).isSome then throw (.error .alreadyInitialized)
  else if PAGE_TABLE_BYTES ≠ PAGE_SIZE then throw (.error .invalidPageTableSize)
  else
    let address := storage.address 0
    match FrameAddress.new address with
    | none => throw (.error .addressTooLarge)
    | some _ =>
      writeTable address
      modify fun m => { m with root := some ⟨address, 0⟩ }

/-- The recursive entry, and the switch to the kernel's own tables. -/
def activate (address : Nat) : Kernel PagingError Unit := do
  modify fun m => m.setEntry address RECURSIVE_INDEX ⟨address, kernelFlags⟩
  modify fun m => { m with cr3 := some address, pagingActive := true }

/-- Builds the live identity mappings and activates the owned root. `heap` is what
`HEAP_START` and `HEAP_SIZE` hold. -/
def initializePaging (framebuffer kernelImage heap : Nat × Nat) (stackMarker : Nat) :
    Kernel PagingError Unit := do
  installRoot storage
  let image ← orRaise id (outerRange kernelImage)
  mapRange mappers storage image.1 image.2 kernelFlags
  if heap.2 ≠ 0 then mapRange mappers storage heap.1 heap.2 dataFlags
  let framebuffer ← orRaise id (outerRange framebuffer)
  mapRange mappers storage framebuffer.1 framebuffer.2 deviceFlags
  let stack := stackRange stackMarker
  mapRange mappers storage stack.1 stack.2 dataFlags
  activate (storage.address 0)

end Calls

end AgnostOS.Paging
