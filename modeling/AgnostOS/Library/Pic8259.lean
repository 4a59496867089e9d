import Mathlib.Data.Fin.Tuple.Basic
import Mathlib.Tactic.Common

/-! A pair of 8259 interrupt controllers: initialization words, masks, and the lines that
are requested and in service. -/
namespace Pic8259

abbrev Lines := Fin 8 → Bool

def ofByte (value : UInt8) : Lines := fun i => value.toNat.testBit i

def noLine : Lines := fun _ => false

def only (i : Fin 8) : Lines := fun j => j = i

inductive Await where
  | mask | base | wiring | mode
  deriving DecidableEq, Repr

structure Chip where
  await : Await
  single : Bool
  wantsMode : Bool
  autoEnd : Bool
  base : Nat
  wiring : UInt8
  mask : Lines
  requested : Lines
  inService : Lines

inductive Register where
  | command | data
  deriving DecidableEq, Repr

namespace Chip
variable {c : Chip} {i j : Fin 8}

def finish (c : Chip) (i : Fin 8) : Chip :=
  { c with inService := Function.update c.inService i false }

/-- The unspecific end of interrupt: the line in service of the highest priority, which is the
lowest number. -/
def endOfInterrupt (c : Chip) : Chip :=
  match Fin.find? c.inService with
  | some i => c.finish i
  | none => c

/-- A command with bit 4 starts over, one with bit 3 only selects what reads answer, and the
others end services; the rotation of priorities is left out. -/
def command (c : Chip) (value : UInt8) : Chip :=
  if value.toNat.testBit 4 then
    { c with
      await := .base, single := value.toNat.testBit 1, wantsMode := value.toNat.testBit 0
      autoEnd := false, mask := noLine, requested := noLine, inService := noLine }
  else if value.toNat.testBit 3 then c
  else if value &&& 0xe0 = 0x20 then c.endOfInterrupt
  else if value &&& 0xe0 = 0x60 then c.finish (Fin.ofNat 8 value.toNat)
  else c

def lastWord (c : Chip) : Await := if c.wantsMode then .mode else .mask

def data (c : Chip) (value : UInt8) : Chip :=
  match c.await with
  | .mask => { c with mask := ofByte value }
  | .base =>
    { c with base := (value &&& 0xf8).toNat, await := if c.single then c.lastWord else .wiring }
  | .wiring => { c with wiring := value, await := c.lastWord }
  | .mode => { c with autoEnd := value.toNat.testBit 1, await := .mask }

def write (c : Chip) : Register → UInt8 → Chip
  | .command, value => c.command value
  | .data, value => c.data value

/-- A rising line latches its request, and one that falls before it was accepted withdraws it. -/
def drive (c : Chip) (i : Fin 8) (high : Bool) : Chip :=
  { c with requested := Function.update c.requested i high }

/-- The open request of the highest priority, unless a line of at least its priority is in
service. -/
def pending (c : Chip) : Option (Fin 8) :=
  (Fin.find? fun i => c.requested i && !c.mask i).filter fun i => ∀ j ≤ i, c.inService j = false

def accept (c : Chip) (i : Fin 8) : Chip :=
  { c with
    requested := Function.update c.requested i false
    inService := Function.update c.inService i (!c.autoEnd) }

def settings (c : Chip) : Chip := { c with requested := noLine }

@[simp] theorem settings_drive (c : Chip) (i : Fin 8) (high : Bool) :
    (c.drive i high).settings = c.settings := rfl

theorem settings_command (c : Chip) (value : UInt8) :
    (c.settings.command value).settings = (c.command value).settings := by
  rw [command, command]
  split_ifs
  · rfl
  · rfl
  · have hservice : c.settings.inService = c.inService := rfl
    rw [endOfInterrupt, endOfInterrupt, hservice]
    cases Fin.find? c.inService <;> rfl
  · rfl
  · rfl

/-- What a write settles does not depend on the requests. -/
theorem settings_write (c : Chip) (register : Register) (value : UInt8) :
    (c.settings.write register value).settings = (c.write register value).settings := by
  cases register with
  | command => exact c.settings_command value
  | data =>
    have hawait : c.settings.await = c.await := rfl
    rw [write, write, data, data, hawait]
    cases c.await <;> rfl

theorem write_mask (h : c.await = .mask) (value : UInt8) :
    c.write .data value = { c with mask := ofByte value } := by
  obtain ⟨⟩ := c
  cases h
  rfl

theorem pending_eq_some (h : c.pending = some i) :
    c.requested i = true ∧ c.mask i = false ∧ ∀ j ≤ i, c.inService j = false := by
  obtain ⟨htop, hservice⟩ := Option.filter_eq_some_iff.mp h
  have hopen := Fin.eq_true_of_find?_eq_some htop
  rw [Bool.and_eq_true, Bool.not_eq_true'] at hopen
  exact ⟨hopen.1, hopen.2, of_decide_eq_true hservice⟩

/-- With nothing in service every open request or one before it gets through. -/
theorem exists_pending (hidle : c.inService = noLine) (hi : c.requested i = true)
    (hopen : c.mask i = false) : ∃ j ≤ i, c.pending = some j := by
  have hfound : (Fin.find? fun i => c.requested i && !c.mask i).isSome :=
    Fin.isSome_find?_iff.mpr ⟨i, by simp [hi, hopen]⟩
  obtain ⟨j, hj⟩ := Option.isSome_iff_exists.mp hfound
  refine ⟨j, ?_, ?_⟩
  · by_contra hlt
    have hbefore := Fin.eq_false_of_find?_eq_some_of_lt hj i (not_le.mp hlt)
    simp [hi, hopen] at hbefore
  · rw [pending, hj]
    simp [hidle, noLine]

theorem endOfInterrupt_only (h : c.inService = only i) :
    c.endOfInterrupt = { c with inService := noLine } := by
  have hfind : Fin.find? c.inService = some i := by
    rw [h, Fin.find?_eq_some_iff]
    refine ⟨by simp [only], fun j hj => ?_⟩
    simp [only, hj.ne]
  have hcleared : Function.update c.inService i false = noLine := by
    funext j
    by_cases hj : j = i <;> simp [h, only, noLine, hj]
  rw [endOfInterrupt, hfind]
  simp only [finish, hcleared]

theorem inService_accept (hidle : c.inService = noLine) (hauto : c.autoEnd = false) :
    (c.accept i).inService = only i := by
  funext j
  by_cases hj : j = i <;> simp [accept, hidle, hauto, noLine, only, hj]

end Chip

/-- Two controllers, the second one on the third line of the first. -/
structure Pair where
  master : Chip
  slave : Chip

inductive Line where
  | master (i : Fin 8)
  | slave (i : Fin 8)
  deriving DecidableEq, Repr

def cascade : Fin 8 := 2

namespace Pair
variable {p : Pair} {line : Line}

def drive (p : Pair) (high : Bool) : Line → Pair
  | .master i => { p with master := p.master.drive i high }
  | .slave i => { p with slave := p.slave.drive i high }

def requested (p : Pair) : Line → Bool
  | .master i => p.master.requested i
  | .slave i => p.slave.requested i

def Open (p : Pair) : Line → Prop
  | .master i => p.master.mask i = false
  | .slave i => p.slave.mask i = false ∧ p.master.mask cascade = false

def vector (p : Pair) : Line → Nat
  | .master i => p.master.base + i
  | .slave i => p.slave.base + i

/-- The master leaves the vector of its third line to the slave, which answers to it. -/
def Cascaded (p : Pair) : Prop :=
  p.master.wiring.toNat.testBit 2 = true ∧ p.slave.wiring &&& 7 = 2

instance : Decidable p.Cascaded := inferInstanceAs (Decidable (_ ∧ _))

def seen (p : Pair) : Chip :=
  { p.master with
    requested := Function.update p.master.requested cascade p.slave.pending.isSome }

def accept (p : Pair) : Line → Pair
  | .master i => { p with master := p.master.accept i }
  | .slave i => ⟨p.master.accept cascade, p.slave.accept i⟩

theorem requested_drive (p : Pair) (high : Bool) (line l : Line) :
    (p.drive high line).requested l = if l = line then high else p.requested l := by
  cases line with
  | master i =>
    cases l with
    | master j => by_cases h : j = i <;> simp [drive, requested, Chip.drive, h]
    | slave j => simp [drive, requested]
  | slave i =>
    cases l with
    | master j => simp [drive, requested]
    | slave j => by_cases h : j = i <;> simp [drive, requested, Chip.drive, h]

theorem open_drive (p : Pair) (high : Bool) (line l : Line) :
    (p.drive high line).Open l ↔ p.Open l := by
  cases line <;> cases l <;> exact Iff.rfl

theorem requested_accept (p : Pair) (line : Line) {l : Line} (hl : l ≠ .master cascade) :
    (p.accept line).requested l = (!decide (l = line) && p.requested l) := by
  cases line with
  | master i =>
    cases l with
    | master j => by_cases h : j = i <;> simp [accept, requested, Chip.accept, h]
    | slave j => simp [accept, requested]
  | slave i =>
    cases l with
    | master j =>
      have hj : j ≠ cascade := fun h => hl (h ▸ rfl)
      simp [accept, requested, Chip.accept, hj]
    | slave j => by_cases h : j = i <;> simp [accept, requested, Chip.accept, h]

/-- The line whose vector the processor reads when it acknowledges an interrupt. -/
def winner (p : Pair) : Option Line :=
  match p.seen.pending with
  | none => none
  | some i => if i = cascade ∧ p.Cascaded then p.slave.pending.map .slave else some (.master i)

/-- The vector that the processor reads. Without a request it is that of the master's last line,
and nothing comes into service. -/
def answer (p : Pair) : Nat := p.winner.elim (p.master.base + 7) p.vector

def answered (p : Pair) : Pair := p.winner.elim p p.accept

@[simp] theorem seen_cascade (p : Pair) :
    p.seen.requested cascade = p.slave.pending.isSome := by simp [seen]

theorem seen_of_ne (p : Pair) {i : Fin 8} (hi : i ≠ cascade) :
    p.seen.requested i = p.master.requested i := by simp [seen, hi]

def settings (p : Pair) : Pair := ⟨p.master.settings, p.slave.settings⟩

@[simp] theorem settings_drive (p : Pair) (high : Bool) (line : Line) :
    (p.drive high line).settings = p.settings := by
  cases line <;> rfl

structure Idle (p : Pair) : Prop where
  master : p.master.inService = noLine
  slave : p.slave.inService = noLine

theorem Idle.drive (h : p.Idle) (high : Bool) (line : Line) : (p.drive high line).Idle := by
  cases line <;> exact ⟨h.1, h.2⟩

/-- The line that wins is a requested and open one of a device. -/
theorem winner_eq_some (hwired : p.Cascaded) (h : p.winner = some line) :
    p.requested line = true ∧ p.Open line ∧ line ≠ .master cascade := by
  rw [winner] at h
  cases hseen : p.seen.pending with
  | none => simp [hseen] at h
  | some i =>
    obtain ⟨hrequested, hmask, -⟩ := Chip.pending_eq_some hseen
    simp only [hseen] at h
    by_cases hi : i = cascade
    · rw [if_pos ⟨hi, hwired⟩] at h
      obtain ⟨j, hj, rfl⟩ := Option.map_eq_some_iff.mp h
      obtain ⟨hslave, hopen, -⟩ := Chip.pending_eq_some hj
      exact ⟨hslave, ⟨hopen, hi ▸ hmask⟩, by simp⟩
    · rw [if_neg fun hboth => hi hboth.1] at h
      cases h
      refine ⟨?_, hmask, by simpa using hi⟩
      rwa [p.seen_of_ne hi] at hrequested

/-- While nothing is in service, an open request is not held back. -/
theorem exists_winner (hidle : p.Idle) (hline : p.requested line = true) (hopen : p.Open line)
    (hdevice : line ≠ .master cascade) : ∃ line', p.winner = some line' := by
  have hidle' : p.seen.inService = noLine := hidle.master
  have hseen : ∃ i, p.seen.pending = some i := by
    cases line with
    | master i =>
      have hi : i ≠ cascade := fun h => hdevice (h ▸ rfl)
      obtain ⟨j, -, hj⟩ := Chip.exists_pending hidle' ((p.seen_of_ne hi).trans hline) hopen
      exact ⟨j, hj⟩
    | slave i =>
      obtain ⟨k, -, hk⟩ := Chip.exists_pending hidle.slave hline hopen.1
      have hcascade : p.seen.requested cascade = true := by rw [p.seen_cascade, hk]; rfl
      obtain ⟨j, -, hj⟩ := Chip.exists_pending hidle' hcascade hopen.2
      exact ⟨j, hj⟩
  obtain ⟨i, hi⟩ := hseen
  rw [winner, hi]
  dsimp only
  by_cases hboth : i = cascade ∧ p.Cascaded
  · obtain ⟨hrequested, -, -⟩ := Chip.pending_eq_some hi
    rw [hboth.1, p.seen_cascade] at hrequested
    obtain ⟨j, hj⟩ := Option.isSome_iff_exists.mp hrequested
    exact ⟨.slave j, by rw [if_pos hboth, hj]; rfl⟩
  · exact ⟨.master i, if_neg hboth⟩

/-- A rising line does not take the processor's attention away. -/
theorem exists_winner_of_raise (hwired : p.Cascaded) (hidle : p.Idle) (h : p.winner = some line)
    (risen : Line) : ∃ line', (p.drive true risen).winner = some line' := by
  obtain ⟨hrequested, hopen, hdevice⟩ := winner_eq_some hwired h
  refine exists_winner (hidle.drive true risen) ?_ ((p.open_drive true risen line).mpr hopen)
    hdevice
  rw [p.requested_drive, hrequested, ite_self]

theorem answer_eq (h : p.winner = some line) : p.answer = p.vector line := by rw [answer, h]; rfl

theorem answered_eq (h : p.winner = some line) : p.answered = p.accept line := by
  rw [answered, h]; rfl

end Pair
end Pic8259
