import AgnostOS.PageTables

/-! The mappers of the x86_64 crate, which paging.rs drives: their interface, the walk
that the crate documents for them, and the conditions under which it promises it. -/
namespace AgnostOS.Paging
open Globals AgnostOS.Frame Attempt PageTableFlags

inductive MapToError where
  | frameAllocationFailed | parentEntryHugePage | pageAlreadyMapped
  deriving DecidableEq, Repr

inductive UnmapError where
  | parentEntryHugePage | pageNotMapped
  deriving DecidableEq, Repr

structure Mapper where
  mapTo : (page frame : Nat) → PageTableFlags → (allocateFrame : Kernel MapToError (Option Nat)) →
    Kernel MapToError Unit
  unmap : (page : Nat) → Kernel UnmapError Nat

/-- The two mappers: one reaches a table at its physical address, the other through
the slot of the level-4 table that links to itself. -/
structure Mappers where
  offset : (level4Table : Nat) → Mapper
  recursive : (level4Table recursiveIndex : Nat) → Mapper

/-! ### The documented walk -/

/-- The next table through an entry, for a mapper that reads the frame of the entry. -/
def followOffset (entry : Entry) : Kernel MapToError Nat :=
  match entry.frame with
  | .ok table => pure table
  | .error .frameNotPresent => throw .panic
  | .error .hugeFrame => throw (.error .parentEntryHugePage)

/-- The same for a mapper that goes there by a virtual address. -/
def followRecursive (entry : Entry) : Kernel MapToError Nat :=
  if huge entry.flags then throw (.error .parentEntryHugePage)
  else if ¬ present entry.flags then throw .pageFault
  else pure entry.addr

/-- One level of the walk down: a missing table is allocated, linked and cleared, and an
existing link gains the flags it lacks. -/
def createNextTable (follow : Entry → Kernel MapToError Nat)
    (allocateFrame : Kernel MapToError (Option Nat)) (insertFlags : PageTableFlags)
    (table index : Nat) : Kernel MapToError Nat := do
  let entry := (← get).tables table index
  if entry.isUnused then
    match ← allocateFrame with
    | none => throw (.error .frameAllocationFailed)
    | some frame =>
      modify fun m => m.setEntry table index ⟨frame, insertFlags⟩
      let next ← follow ⟨frame, insertFlags⟩
      modify fun m => m.zeroTable next
      pure next
  else
    let entry := { entry with flags := entry.flags ||| insertFlags }
    modify fun m => m.setEntry table index entry
    follow entry

def mapLeaf (table index frame : Nat) (flags : PageTableFlags) : Kernel MapToError Unit := do
  if ¬ ((← get).tables table index).isUnused then throw (.error .pageAlreadyMapped)
  else if huge flags then throw .panic
  else modify fun m => m.setEntry table index ⟨frame, flags⟩

def walkMapTo (follow : Entry → Kernel MapToError Nat) (root page frame : Nat)
    (flags : PageTableFlags) (allocateFrame : Kernel MapToError (Option Nat)) :
    Kernel MapToError Unit := do
  let p3 ← createNextTable follow allocateFrame (parent flags) root (p4Index page)
  let p2 ← createNextTable follow allocateFrame (parent flags) p3 (p3Index page)
  let p1 ← createNextTable follow allocateFrame (parent flags) p2 (p2Index page)
  mapLeaf p1 (p1Index page) frame flags

/-- `frame()` of an entry, as `unmap` reads it on every level. -/
def frameAt (table index : Nat) : Kernel UnmapError Nat := do
  match ((← get).tables table index).frame with
  | .ok frame => pure frame
  | .error .frameNotPresent => throw (.error .pageNotMapped)
  | .error .hugeFrame => throw (.error .parentEntryHugePage)

def walkUnmap (root page : Nat) : Kernel UnmapError Nat := do
  let p3 ← frameAt root (p4Index page)
  let p2 ← frameAt p3 (p3Index page)
  let p1 ← frameAt p2 (p2Index page)
  let frame ← frameAt p1 (p1Index page)
  modify fun m => m.setEntry p1 (p1Index page) .unused
  pure frame

/-! ### What the kernel relies on -/

/-- The recursive slot of the live root links to the root, and a table of the arena is
found nowhere but at its own address. -/
structure AddressSpace.Recursive (storage : Storage) (m : AddressSpace) (root : Nat) : Prop where
  live : m.cr3 = some root
  slot : m.next root RECURSIVE_INDEX = some root
  identity : ∀ k ≤ MAX_PAGE_TABLE_FRAMES, ∀ frame,
    m.translateFrom root (storage.address k) = some frame → frame = storage.address k

def recursiveTableAddress : Nat :=
  ((RECURSIVE_INDEX <<< 39) ||| (RECURSIVE_INDEX <<< 30) ||| (RECURSIVE_INDEX <<< 21) |||
    (RECURSIVE_INDEX <<< 12)) ||| 0xffff000000000000

/-- Both mappers walk the four levels that the indices of the page select: the first
where physical memory is found at its own address, the second through an intact
recursive slot. -/
structure Mappers.Documented (mappers : Mappers) (storage : Storage) : Prop where
  offset_mapTo : ∀ (root page frame : Nat) (flags : PageTableFlags) (m : AddressSpace),
    m.cr3 = none →
      outcome ((mappers.offset root).mapTo page frame flags (reserveFrame storage)) m =
        outcome (walkMapTo followOffset root page frame flags (reserveFrame storage)) m
  offset_unmap : ∀ (root page : Nat) (m : AddressSpace), m.cr3 = none →
    outcome ((mappers.offset root).unmap page) m = outcome (walkUnmap root page) m
  recursive_mapTo : ∀ (root page frame : Nat) (flags : PageTableFlags) (m : AddressSpace),
    m.Recursive storage root →
      outcome ((mappers.recursive recursiveTableAddress RECURSIVE_INDEX).mapTo page frame flags
          (reserveFrame storage)) m =
        outcome (walkMapTo followRecursive root page frame flags (reserveFrame storage)) m
  recursive_unmap : ∀ (root page : Nat) (m : AddressSpace), m.Recursive storage root →
    outcome ((mappers.recursive recursiveTableAddress RECURSIVE_INDEX).unmap page) m =
      outcome (walkUnmap root page) m

/-- Mappers that are the walk itself, from the given root and from the live one. -/
def walkMappers : Mappers where
  offset root := ⟨walkMapTo followOffset root, walkUnmap root⟩
  recursive _ _ :=
    ⟨fun page frame flags allocateFrame => do
      match (← get).cr3 with
      | none => throw .pageFault
      | some root => walkMapTo followRecursive root page frame flags allocateFrame,
    fun page => do
      match (← get).cr3 with
      | none => throw .pageFault
      | some root => walkUnmap root page⟩

theorem walkMappers_documented (storage : Storage) : walkMappers.Documented storage where
  offset_mapTo _ _ _ _ _ _ := rfl
  offset_unmap _ _ _ _ := rfl
  recursive_mapTo root page frame flags m h := by
    simp only [walkMappers, outcome_bind, outcome_get, h.live]
  recursive_unmap root page m h := by
    simp only [walkMappers, outcome_bind, outcome_get, h.live]

end AgnostOS.Paging
