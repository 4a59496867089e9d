import AgnostOS.FrameAllocator
import AgnostOS.Library.Attempt
import AgnostOS.Library.Radix
import Mathlib.Logic.Function.Basic

/-! The page tables of paging.rs: entries in physical memory, the image-resident arena
of table frames, and what the kernel relies on of the mappers of the x86_64 crate. -/
namespace AgnostOS.Paging
open Globals Word AgnostOS.Frame Attempt

abbrev PageTableFlags := BitVec 64

namespace PageTableFlags

def PRESENT : PageTableFlags := .twoPow 64 0
def WRITABLE : PageTableFlags := .twoPow 64 1
def USER_ACCESSIBLE : PageTableFlags := .twoPow 64 2
def NO_CACHE : PageTableFlags := .twoPow 64 4
def HUGE_PAGE : PageTableFlags := .twoPow 64 7
def NO_EXECUTE : PageTableFlags := .twoPow 64 63

def present (flags : PageTableFlags) : Prop := flags &&& PRESENT = PRESENT
def huge (flags : PageTableFlags) : Prop := flags &&& HUGE_PAGE = HUGE_PAGE

instance (flags : PageTableFlags) : Decidable (present flags) := inferInstanceAs (Decidable (_ = _))
instance (flags : PageTableFlags) : Decidable (huge flags) := inferInstanceAs (Decidable (_ = _))

/-- The flags that a mapping hands on to the tables above it. -/
def parent (flags : PageTableFlags) : PageTableFlags :=
  flags &&& (PRESENT ||| WRITABLE ||| USER_ACCESSIBLE)

theorem and_twoPow_eq_iff (flags : PageTableFlags) {i : Nat} (hi : i < 64) :
    flags &&& .twoPow 64 i = .twoPow 64 i ↔ flags.getLsbD i = true := by
  rw [BitVec.and_twoPow]
  cases h : flags.getLsbD i with
  | true => simp
  | false =>
    have hne : ¬ (0#64 = BitVec.twoPow 64 i) := by
      intro heq
      have hbit := congrArg (fun b => b.getLsbD i) heq
      simp [hi] at hbit
    simpa using hne

theorem present_iff (flags : PageTableFlags) : present flags ↔ flags.getLsbD 0 = true :=
  and_twoPow_eq_iff flags (by decide)

theorem huge_iff (flags : PageTableFlags) : huge flags ↔ flags.getLsbD 7 = true :=
  and_twoPow_eq_iff flags (by decide)

theorem present_parent (flags : PageTableFlags) : present (parent flags) ↔ present flags := by
  have hmask : (PRESENT ||| WRITABLE ||| USER_ACCESSIBLE).getLsbD 0 = true := by decide
  rw [present_iff, present_iff, parent, BitVec.getLsbD_and, hmask, Bool.and_true]

theorem not_huge_parent (flags : PageTableFlags) : ¬ huge (parent flags) := by
  have hmask : (PRESENT ||| WRITABLE ||| USER_ACCESSIBLE).getLsbD 7 = false := by decide
  rw [huge_iff, parent, BitVec.getLsbD_and, hmask, Bool.and_false]
  decide

theorem present_or {a b : PageTableFlags} (h : present a) : present (a ||| b) := by
  rw [present_iff] at h ⊢
  rw [BitVec.getLsbD_or, h, Bool.true_or]

theorem not_huge_or {a b : PageTableFlags} (ha : ¬ huge a) (hb : ¬ huge b) : ¬ huge (a ||| b) := by
  rw [huge_iff] at ha hb ⊢
  simp only [BitVec.getLsbD_or, Bool.or_eq_true]
  exact not_or.mpr ⟨ha, hb⟩

end PageTableFlags

open PageTableFlags

structure Entry where
  addr : Nat
  flags : PageTableFlags
  deriving DecidableEq, Repr

namespace Entry

inductive FrameError where
  | frameNotPresent | hugeFrame

def unused : Entry := ⟨0, 0⟩

def isUnused (entry : Entry) : Prop := entry = unused

instance (entry : Entry) : Decidable entry.isUnused := inferInstanceAs (Decidable (_ = _))

def frame (entry : Entry) : Except FrameError Nat :=
  if ¬ present entry.flags then .error .frameNotPresent
  else if huge entry.flags then .error .hugeFrame
  else .ok entry.addr

def link (entry : Entry) : Option Nat :=
  if present entry.flags ∧ ¬ huge entry.flags then some entry.addr else none

@[simp] theorem link_unused : unused.link = none := by decide

theorem link_eq {entry : Entry} (hpresent : present entry.flags) (hhuge : ¬ huge entry.flags) :
    entry.link = some entry.addr := if_pos ⟨hpresent, hhuge⟩

theorem frame_eq_ok {entry : Entry} {address : Nat} :
    entry.frame = .ok address ↔ entry.link = some address := by
  rw [frame, link]
  by_cases hpresent : present entry.flags
  · by_cases hhuge : huge entry.flags <;> simp [hpresent, hhuge]
  · simp [hpresent]

end Entry

structure Storage where
  base : Nat
  aligned : PAGE_SIZE ∣ base
  reachable : base + (MAX_PAGE_TABLE_FRAMES + 1) * PAGE_SIZE ≤ LOW_CANONICAL_MAX + 1

def Storage.address (storage : Storage) (index : Nat) : Nat := storage.base + index * PAGE_SIZE

structure PageTableRoot where
  frame : Nat
  count : Nat

/-- Physical memory as page tables, the statics of paging.rs and the root register of
the processor, none while the firmware's identity mapping is live. The last field
records what `reserve_frame` has returned; no code reads it. -/
structure AddressSpace where
  tables : Nat → Nat → Entry
  root : Option PageTableRoot
  pagingActive : Bool
  cr3 : Option Nat
  reservations : List (Option Nat)

def p4Index (page : Nat) : Nat := page / 2 ^ 39 % 512
def p3Index (page : Nat) : Nat := page / 2 ^ 30 % 512
def p2Index (page : Nat) : Nat := page / 2 ^ 21 % 512
def p1Index (page : Nat) : Nat := page / 2 ^ 12 % 512

def indices (page : Nat) : List Nat := [p4Index page, p3Index page, p2Index page, p1Index page]

namespace AddressSpace

def setEntry (m : AddressSpace) (table index : Nat) (entry : Entry) : AddressSpace :=
  { m with tables := Function.update m.tables table (Function.update (m.tables table) index entry) }

def zeroTable (m : AddressSpace) (table : Nat) : AddressSpace :=
  { m with tables := Function.update m.tables table fun _ => .unused }

def next (m : AddressSpace) (table index : Nat) : Option Nat := (m.tables table index).link

def translateFrom (m : AddressSpace) (root page : Nat) : Option Nat :=
  Radix.walk m.next root (indices page)

def translate (m : AddressSpace) (page : Nat) : Option Nat :=
  match m.cr3 with
  | none => some page
  | some root => m.translateFrom root page

theorem translate_of_live {m : AddressSpace} {root : Nat} (h : m.cr3 = some root) (page : Nat) :
    m.translate page = m.translateFrom root page := by
  rw [translate, h]

@[simp] theorem tables_setEntry (m : AddressSpace) (table index : Nat) (entry : Entry) (t i : Nat) :
    (m.setEntry table index entry).tables t i =
      if t = table ∧ i = index then entry else m.tables t i := by
  by_cases ht : t = table
  · subst ht
    simp [setEntry, Function.update_apply]
  · simp [setEntry, ht]

@[simp] theorem tables_zeroTable (m : AddressSpace) (table t i : Nat) :
    (m.zeroTable table).tables t i = if t = table then .unused else m.tables t i := by
  by_cases ht : t = table
  · subst ht
    simp [zeroTable]
  · simp [zeroTable, ht]

end AddressSpace

/-- How kernel code ends that does not return a value: with an error of its own, or
with a panic or an unresolved page fault, after which the caller does not go on. A loop
of the model that runs out of fuel is unfinished. -/
inductive Stop (ε : Type) where
  | error (e : ε) | panic | pageFault | unfinished
  deriving DecidableEq, Repr

namespace Stop

def map {ε ε' : Type} (f : ε → ε') : Stop ε → Stop ε'
  | .error e => .error (f e)
  | .panic => .panic
  | .pageFault => .pageFault
  | .unfinished => .unfinished

def returned {ε : Type} : Stop ε → Prop
  | .error _ => True
  | _ => False

end Stop

abbrev Kernel (ε α : Type) := Attempt (Stop ε) AddressSpace α

/-- A fresh table written through the live translation. -/
def writeTable {ε : Type} (address : Nat) : Kernel ε Unit := do
  match (← get).translate address with
  | none => throw .pageFault
  | some frame => modify fun m => m.zeroTable frame

def recordReservation {ε : Type} (result : Option Nat) : Kernel ε (Option Nat) := do
  modify fun m => { m with reservations := m.reservations ++ [result] }
  pure result

/-- `PageTableArena::reserve_frame`, the arena's `allocate_frame`. -/
def reserveFrame {ε : Type} (storage : Storage) : Kernel ε (Option Nat) := do
  match (← get).root with
  | none => recordReservation none
  | some root =>
    if root.count = MAX_PAGE_TABLE_FRAMES then recordReservation none
    else
      let address := storage.address (root.count + 1)
      match FrameAddress.new address with
      | none => recordReservation none
      | some _ =>
        writeTable address
        modify fun m => { m with root := some { root with count := root.count + 1 } }
        recordReservation (some address)

end AgnostOS.Paging
