import AgnostOS.Library.Pic8259
import AgnostOS.Library.Simulation
import AgnostOS.ShellLoop

/-! Interrupt delivery of interrupts/ (pic.rs, controller.rs, idt.rs, handlers.rs): from the
lines of the interrupt controllers to the shell loop. -/
namespace AgnostOS.Interrupts
open Pic8259 Shell Keyboard

/-! ### interrupts/pic.rs -/

abbrev MASTER_OFFSET : UInt8 := 32
abbrev SLAVE_OFFSET : UInt8 := MASTER_OFFSET + 8
abbrev MASTER_COMMAND : UInt16 := 0x20
abbrev MASTER_DATA : UInt16 := 0x21
abbrev SLAVE_COMMAND : UInt16 := 0xa0
abbrev SLAVE_DATA : UInt16 := 0xa1
abbrev EOI : UInt8 := 0x20
abbrev TIMER_VECTOR : UInt8 := MASTER_OFFSET
abbrev KEYBOARD_VECTOR : UInt8 := MASTER_OFFSET + 1
abbrev MOUSE_VECTOR : UInt8 := SLAVE_OFFSET + 4
abbrev ICW1_INIT : UInt8 := 0x10
abbrev ICW1_ICW4 : UInt8 := 0x01
abbrev ICW4_8086 : UInt8 := 0x01
abbrev MASTER_IRQ_MASK : UInt8 := 0b11111111
abbrev SLAVE_IRQ_MASK : UInt8 := 0b11111111

structure Outb where
  value : UInt8
  port : UInt16

def Outb.perform (w : Outb) (p : Pair) : Pair :=
  if w.port = MASTER_COMMAND then { p with master := p.master.write .command w.value }
  else if w.port = MASTER_DATA then { p with master := p.master.write .data w.value }
  else if w.port = SLAVE_COMMAND then { p with slave := p.slave.write .command w.value }
  else if w.port = SLAVE_DATA then { p with slave := p.slave.write .data w.value }
  else p

inductive Irq where
  | timer | keyboard | mouse
  deriving DecidableEq, Repr

def initializePics : List Outb :=
  [⟨ICW1_INIT ||| ICW1_ICW4, MASTER_COMMAND⟩, ⟨ICW1_INIT ||| ICW1_ICW4, SLAVE_COMMAND⟩,
    ⟨MASTER_OFFSET, MASTER_DATA⟩, ⟨SLAVE_OFFSET, SLAVE_DATA⟩, ⟨0x04, MASTER_DATA⟩,
    ⟨0x02, SLAVE_DATA⟩, ⟨ICW4_8086, MASTER_DATA⟩, ⟨ICW4_8086, SLAVE_DATA⟩,
    ⟨MASTER_IRQ_MASK, MASTER_DATA⟩, ⟨SLAVE_IRQ_MASK, SLAVE_DATA⟩]

def acknowledgeMaster : List Outb := [⟨EOI, MASTER_COMMAND⟩]

def acknowledgeSlave : List Outb := [⟨EOI, SLAVE_COMMAND⟩, ⟨EOI, MASTER_COMMAND⟩]

def vectorFor : Irq → UInt8
  | .timer => TIMER_VECTOR
  | .keyboard => KEYBOARD_VECTOR
  | .mouse => MOUSE_VECTOR

def acknowledge : Irq → List Outb
  | .timer | .keyboard => acknowledgeMaster
  | .mouse => acknowledgeSlave

def enableRuntime : List Outb := [⟨0b11111101, MASTER_DATA⟩]

def enableMouse : List Outb := [⟨0b11111000, MASTER_DATA⟩, ⟨0b11101111, SLAVE_DATA⟩]

/-- The gates that idt.rs sets beside those of the processor's exceptions, which end at 31. -/
def idt (vector : Nat) : Option Irq :=
  if vector = (vectorFor .timer).toNat then some .timer
  else if vector = (vectorFor .keyboard).toNat then some .keyboard
  else if vector = (vectorFor .mouse).toNat then some .mouse
  else none

/-! ### Processor, controllers and shell together -/

/-- What the processor is at. The gates of idt.rs turn interrupts off until the handler
returns; `answering` is a processor that was interrupted and asks for the vector, `entered` a
handler before its first statement, `acknowledging` one that still has these calls of `outb` to
make, and `faulted` a processor that found no gate. -/
inductive Cpu where
  | running
  | answering
  | entered (irq : Irq)
  | acknowledging (writes : List Outb)
  | faulted

/-- `todo` is what is left of `enable_runtime` and `enable_mouse`, which the boot and the
shell run with interrupts on. -/
structure System (δ : Type) where
  pics : Pair
  cpu : Cpu
  ticks : Nat
  todo : List Outb
  loop : Loop δ

def Cpu.answers : Cpu → Bool
  | .answering => true
  | _ => false

/-- A request may be withdrawn while the processor asks for the vector of it. -/
inductive Happening where
  | raise (line : Line) (latched : Bool)
  | withdraw (line : Line) (asked : Bool)
  | accept (line : Option Line) (irq : Irq)
  | fault (vector : Nat)
  | handle (irq : Irq) (event : Event)
  | hidden
  | shell (event : Event)

def Happening.shown : Happening → List Event
  | .handle _ event | .shell event => [event]
  | _ => []

def irqOf : Device → Irq
  | .keyboard => .keyboard
  | .mouse => .mouse

def isIrq : Event → Bool
  | .timerIrq | .irq .. => true
  | _ => false

def System.start {δ : Type} (pics : Pair) (keyboard : δ) : System δ :=
  ⟨pics, .running, 0, enableRuntime ++ enableMouse, .start keyboard⟩

variable {δ : Type}

/-- Lines rise and fall at any time. The shell gets on while no handler runs. -/
inductive Step (kb : PS2Keyboard δ) : Happening → System δ → System δ → Prop
  | raise {s} (line : Line) (hdevice : line ≠ .master cascade) :
      Step kb (.raise line (!s.pics.requested line)) s { s with pics := s.pics.drive true line }
  | withdraw {s} (line : Line) (hrequested : s.pics.requested line = true) :
      Step kb (.withdraw line s.cpu.answers) s { s with pics := s.pics.drive false line }
  | program {s w rest} (hcpu : s.cpu = .running) (htodo : s.todo = w :: rest) :
      Step kb .hidden s { s with pics := w.perform s.pics, todo := rest }
  | shell {s event loop} (hcpu : s.cpu = .running) (htodo : s.todo = [])
      (hevent : isIrq event = false) (hmove : Move kb event s.loop loop) :
      Step kb (.shell event) s { s with loop := loop }
  | signal {s line} (hcpu : s.cpu = .running) (hopen : s.loop.Interruptible)
      (hwinner : s.pics.winner = some line) : Step kb .hidden s { s with cpu := .answering }
  | interrupt {s irq} (hcpu : s.cpu = .answering) (hgate : idt s.pics.answer = some irq) :
      Step kb (.accept s.pics.winner irq) s
        { s with pics := s.pics.answered, cpu := .entered irq }
  | fault {s} (hcpu : s.cpu = .answering) (hgate : idt s.pics.answer = none) :
      Step kb (.fault s.pics.answer) s { s with pics := s.pics.answered, cpu := .faulted }
  -- the line falls between the two halves of the question, and only the slave has to guess
  | slip {s i} (hcpu : s.cpu = .answering) (hwinner : s.pics.winner = some (.slave i))
      (hlast : (s.pics.slave.drive i false).pending = none) :
      Step kb (.withdraw (.slave i) true) s
        { s with
          pics := ⟨s.pics.master.accept cascade, s.pics.slave.drive i false⟩
          cpu := (idt (s.pics.slave.base + 7)).elim .faulted .entered }
  | timer {s} (hcpu : s.cpu = .entered .timer) :
      Step kb (.handle .timer .timerIrq) s
        { s with ticks := (s.ticks + 1) % 2 ^ 64, cpu := .acknowledging (acknowledge .timer) }
  | input {s} (device : Device) (byte : UInt8) (hcpu : s.cpu = .entered (irqOf device)) :
      Step kb (.handle (irqOf device) (.irq device byte (s.loop.taken device byte))) s
        { s with
          loop := s.loop.irq device byte
          cpu := .acknowledging (acknowledge (irqOf device)) }
  | acknowledge {s w rest} (hcpu : s.cpu = .acknowledging (w :: rest)) :
      Step kb .hidden s { s with pics := w.perform s.pics, cpu := .acknowledging rest }
  | iret {s} (hcpu : s.cpu = .acknowledging []) :
      Step kb .hidden s { s with cpu := .running, loop := s.loop.wake }

/-! ### What the set-up leaves -/

/-- The ten words are written with interrupts off, while the lines do as they please. -/
inductive SetupStep : Option Outb → Pair → Pair → Prop
  | write {p} (w : Outb) : SetupStep (some w) p (w.perform p)
  | drive {p} (high : Bool) (line : Line) : SetupStep none p (p.drive high line)

/-- The controllers after `initialize`, whatever the firmware left in them. -/
def Setup (firmware p : Pair) : Prop :=
  ∃ moves, Trace SetupStep moves firmware p ∧ moves.filterMap id = initializePics

structure Wired (p : Pair) : Prop where
  masterAwait : p.master.await = .mask
  slaveAwait : p.slave.await = .mask
  masterEnd : p.master.autoEnd = false
  slaveEnd : p.slave.autoEnd = false
  masterBase : p.master.base = 32
  slaveBase : p.slave.base = 40
  cascaded : p.Cascaded

/-- The masks, by what is left to write. -/
inductive Masked : List Outb → Pair → Prop
  | boot {p} (hmaster : p.master.mask = ofByte MASTER_IRQ_MASK)
      (hslave : p.slave.mask = ofByte SLAVE_IRQ_MASK) : Masked (enableRuntime ++ enableMouse) p
  | runtime {p} (hmaster : p.master.mask = ofByte 0b11111101)
      (hslave : p.slave.mask = ofByte SLAVE_IRQ_MASK) : Masked enableMouse p
  | half {p} (hmaster : p.master.mask = ofByte 0b11111000)
      (hslave : p.slave.mask = ofByte SLAVE_IRQ_MASK) : Masked enableMouse.tail p
  | mouse {p} (hmaster : p.master.mask = ofByte 0b11111000)
      (hslave : p.slave.mask = ofByte 0b11101111) : Masked [] p

/-- The lines in service, by the ends of interrupt that are still to be written. -/
inductive Owes : List Outb → Pair → Prop
  | nothing {p} (hidle : p.Idle) : Owes [] p
  | master {p i} (hmaster : p.master.inService = only i) (hslave : p.slave.inService = noLine) :
      Owes acknowledgeMaster p
  | slave {p i j} (hmaster : p.master.inService = only i) (hslave : p.slave.inService = only j) :
      Owes acknowledgeSlave p

section Controllers
variable {p : Pair} {w : Outb} {rest : List Outb}

theorem settings_perform (w : Outb) (p : Pair) :
    (w.perform p.settings).settings = (w.perform p).settings := by
  rw [Outb.perform, Outb.perform]
  split_ifs
  · exact congrArg (Pair.mk · p.slave.settings) (p.master.settings_write .command w.value)
  · exact congrArg (Pair.mk · p.slave.settings) (p.master.settings_write .data w.value)
  · exact congrArg (Pair.mk p.master.settings) (p.slave.settings_write .command w.value)
  · exact congrArg (Pair.mk p.master.settings) (p.slave.settings_write .data w.value)
  · rfl

theorem settings_setup {moves : List (Option Outb)} {firmware p : Pair}
    (h : Trace SetupStep moves firmware p) :
    p.settings =
      (moves.filterMap id).foldl (fun q w => (w.perform q).settings) firmware.settings := by
  induction moves generalizing firmware with
  | nil => exact congrArg Pair.settings h.symm
  | cons move moves ih =>
    obtain ⟨q, hmove, hrest⟩ := h
    rw [ih hrest]
    cases hmove with
    | write w =>
      simp only [List.filterMap_cons, id_eq, List.foldl_cons, settings_perform]
    | drive high line => simp only [List.filterMap_cons, id_eq, Pair.settings_drive]

def configured : Pair :=
  ⟨⟨.mask, false, true, false, 32, 0x04, ofByte MASTER_IRQ_MASK, noLine, noLine⟩,
    ⟨.mask, false, true, false, 40, 0x02, ofByte SLAVE_IRQ_MASK, noLine, noLine⟩⟩

theorem settings_of_setup {firmware p : Pair} (h : Setup firmware p) : p.settings = configured := by
  obtain ⟨moves, hmoves, hwords⟩ := h
  rw [settings_setup hmoves, hwords]
  rfl

/-- After the ten words the lines are closed and nothing is in service, whatever the firmware
had done to the controllers. -/
theorem setup_spec {firmware p : Pair} (h : Setup firmware p) :
    Wired p ∧ Masked (enableRuntime ++ enableMouse) p ∧ p.Idle := by
  have hmaster := congrArg Pair.master (settings_of_setup h)
  have hslave := congrArg Pair.slave (settings_of_setup h)
  have hcascaded : p.settings.Cascaded := settings_of_setup h ▸ by decide
  refine ⟨⟨congrArg Chip.await hmaster, congrArg Chip.await hslave,
    congrArg Chip.autoEnd hmaster, congrArg Chip.autoEnd hslave, congrArg Chip.base hmaster,
    congrArg Chip.base hslave, hcascaded⟩, ?_, ?_⟩
  · exact .boot (congrArg Chip.mask hmaster) (congrArg Chip.mask hslave)
  · exact ⟨congrArg Chip.inService hmaster, congrArg Chip.inService hslave⟩

/-- Of requests neither the settings nor the services depend. -/
theorem Wired.drive (h : Wired p) (high : Bool) (line : Line) : Wired (p.drive high line) := by
  cases line <;> exact ⟨h.1, h.2, h.3, h.4, h.5, h.6, h.7⟩

theorem Masked.drive (h : Masked rest p) (high : Bool) (line : Line) :
    Masked rest (p.drive high line) := by
  cases line <;> cases h <;> constructor <;> assumption

theorem Owes.drive (h : Owes rest p) (high : Bool) (line : Line) :
    Owes rest (p.drive high line) := by
  cases h with
  | nothing hidle => exact .nothing (hidle.drive high line)
  | master hmaster hslave => cases line <;> exact .master hmaster hslave
  | slave hmaster hslave => cases line <;> exact .slave hmaster hslave

def lineOf : Irq → Line
  | .timer => .master ⟨0, Nat.le_of_ble_eq_true rfl⟩
  | .keyboard => .master ⟨1, Nat.le_of_ble_eq_true rfl⟩
  | .mouse => .slave ⟨4, Nat.le_of_ble_eq_true rfl⟩

theorem lineOf_injective {irq irq' : Irq} (h : lineOf irq = lineOf irq') : irq = irq' := by
  revert h
  cases irq <;> cases irq' <;> decide

theorem lineOf_ne_cascade (irq : Irq) : lineOf irq ≠ .master cascade := by
  cases irq <;> decide

/-- An open line is that of a device with a gate, or the one between the controllers. -/
theorem Masked.device (h : Masked rest p) {line : Line} (hopen : p.Open line)
    (hdevice : line ≠ .master cascade) : ∃ irq, line = lineOf irq := by
  have hmaster : ∀ i, p.master.mask i = false → i = 0 ∨ i = 1 ∨ i = cascade := by
    cases h with
    | boot hmaster hslave => rw [hmaster]; decide
    | runtime hmaster hslave => rw [hmaster]; decide
    | half hmaster hslave => rw [hmaster]; decide
    | mouse hmaster hslave => rw [hmaster]; decide
  have hslave : ∀ i, p.slave.mask i = false → i = 4 := by
    cases h with
    | boot hmaster hslave => rw [hslave]; decide
    | runtime hmaster hslave => rw [hslave]; decide
    | half hmaster hslave => rw [hslave]; decide
    | mouse hmaster hslave => rw [hslave]; decide
  cases line with
  | master i =>
    rcases hmaster i hopen with rfl | rfl | rfl
    · exact ⟨.timer, rfl⟩
    · exact ⟨.keyboard, rfl⟩
    · exact absurd rfl hdevice
  | slave i => exact ⟨.mouse, congrArg Line.slave (hslave i hopen.1)⟩

theorem Wired.gate (h : Wired p) (irq : Irq) : idt (p.vector (lineOf irq)) = some irq := by
  cases irq with
  | timer => rw [lineOf, Pair.vector, h.masterBase]; decide
  | keyboard => rw [lineOf, Pair.vector, h.masterBase]; decide
  | mouse => rw [lineOf, Pair.vector, h.slaveBase]; decide

theorem Wired.winner (h : Wired p) (hmasked : Masked rest p) {line : Line}
    (hwinner : p.winner = some line) :
    ∃ irq, line = lineOf irq ∧ p.requested line = true ∧ idt (p.vector line) = some irq := by
  obtain ⟨hrequested, hopen, hdevice⟩ := Pair.winner_eq_some h.cascaded hwinner
  obtain ⟨irq, rfl⟩ := hmasked.device hopen hdevice
  exact ⟨irq, rfl, hrequested, h.gate irq⟩

theorem Wired.accept (h : Wired p) (line : Line) : Wired (p.accept line) := by
  cases line <;> exact ⟨h.1, h.2, h.3, h.4, h.5, h.6, h.7⟩

/-- Neither the masks nor what is in service are part of the wiring. -/
theorem Wired.rewrite (h : Wired p) (mask mask' inService inService' : Lines) :
    Wired ⟨{ p.master with mask := mask, inService := inService },
      { p.slave with mask := mask', inService := inService' }⟩ :=
  ⟨h.1, h.2, h.3, h.4, h.5, h.6, h.7⟩

theorem Masked.accept (h : Masked rest p) (line : Line) : Masked rest (p.accept line) := by
  cases line <;> cases h <;> constructor <;> assumption

/-- The handler of the interrupt writes just the ends that are due. -/
theorem Owes.accept (hwired : Wired p) (h : Owes [] p) (irq : Irq) :
    Owes (acknowledge irq) (p.accept (lineOf irq)) := by
  cases h with
  | nothing hidle =>
    have hmaster : ∀ i, (p.master.accept i).inService = only i := fun i =>
      Chip.inService_accept hidle.master hwired.masterEnd
    cases irq with
    | timer => exact .master (hmaster 0) hidle.slave
    | keyboard => exact .master (hmaster 1) hidle.slave
    | mouse =>
      exact .slave (hmaster cascade) (Chip.inService_accept hidle.slave hwired.slaveEnd)

/-- An end of interrupt that is due ends one service and changes nothing else. -/
theorem Owes.perform (h : Owes (w :: rest) p) :
    ∃ master slave, w.perform p =
        ⟨{ p.master with inService := master }, { p.slave with inService := slave }⟩ ∧
      Owes rest (w.perform p) := by
  generalize hwrites : w :: rest = writes at h
  cases h with
  | nothing => cases hwrites
  | @master _ i hmaster hslave =>
    cases hwrites
    have hend : (⟨EOI, MASTER_COMMAND⟩ : Outb).perform p =
        ⟨{ p.master with inService := noLine }, p.slave⟩ :=
      congrArg (Pair.mk · p.slave) (Chip.endOfInterrupt_only hmaster)
    rw [hend]
    exact ⟨noLine, p.slave.inService, rfl, .nothing ⟨rfl, hslave⟩⟩
  | @slave _ i j hmaster hslave =>
    cases hwrites
    have hend : (⟨EOI, SLAVE_COMMAND⟩ : Outb).perform p =
        ⟨p.master, { p.slave with inService := noLine }⟩ :=
      congrArg (Pair.mk p.master) (Chip.endOfInterrupt_only hslave)
    rw [hend]
    exact ⟨p.master.inService, noLine, rfl, .master hmaster rfl⟩

/-- The next word of `todo` opens the lines that it is there for and changes nothing else. -/
theorem Masked.perform (hwired : Wired p) (h : Masked (w :: rest) p) :
    ∃ master slave, w.perform p =
        ⟨{ p.master with mask := master }, { p.slave with mask := slave }⟩ ∧
      Masked rest (w.perform p) := by
  have hmasterData : ∀ value, (⟨value, MASTER_DATA⟩ : Outb).perform p =
      ⟨{ p.master with mask := ofByte value }, p.slave⟩ := fun value =>
    congrArg (Pair.mk · p.slave) (Chip.write_mask hwired.masterAwait value)
  have hslaveData : ∀ value, (⟨value, SLAVE_DATA⟩ : Outb).perform p =
      ⟨p.master, { p.slave with mask := ofByte value }⟩ := fun value =>
    congrArg (Pair.mk p.master) (Chip.write_mask hwired.slaveAwait value)
  generalize hwrites : w :: rest = writes at h
  cases h with
  | boot hmaster hslave =>
    cases hwrites
    rw [hmasterData]
    exact ⟨ofByte 0b11111101, p.slave.mask, rfl, .runtime rfl hslave⟩
  | runtime hmaster hslave =>
    cases hwrites
    rw [hmasterData]
    exact ⟨ofByte 0b11111000, p.slave.mask, rfl, .half rfl hslave⟩
  | half hmaster hslave =>
    cases hwrites
    rw [hslaveData]
    exact ⟨p.master.mask, ofByte 0b11101111, rfl, .mouse hmaster rfl⟩
  | mouse => cases hwrites

end Controllers

/-! ### Every run -/

def Cpu.owed : Cpu → List Outb
  | .entered irq => acknowledge irq
  | .acknowledging writes => writes
  | .running | .answering | .faulted => []

def Cpu.enters (irq : Irq) : Cpu → Bool
  | .entered irq' => irq' = irq
  | _ => false

structure Sound (s : System δ) : Prop where
  wired : Wired s.pics
  masked : Masked s.todo s.pics
  owed : Owes s.cpu.owed s.pics
  asked : s.cpu = .answering → s.loop.Interruptible ∧ ∃ line, s.pics.winner = some line
  entered : ∀ irq, s.cpu = .entered irq → s.loop.Interruptible
  alive : s.cpu ≠ .faulted

def Happening.requests (irq : Irq) : Happening → Bool
  | .raise line latched => line = lineOf irq ∧ latched = true
  | _ => false

def Happening.withdraws (irq : Irq) : Happening → Bool
  | .withdraw line _ => line = lineOf irq
  | _ => false

def Happening.handles (irq : Irq) : Happening → Bool
  | .handle irq' _ => irq' = irq
  | _ => false

/-- No request falls away under the question for its vector. -/
def Happening.Steady (e : Happening) : Prop := ∀ line, e ≠ .withdraw line true

/-- A request that was accepted but not yet handled, or is still waiting. -/
def System.outstanding (irq : Irq) (s : System δ) : Nat :=
  (s.cpu.enters irq).toNat + (s.pics.requested (lineOf irq)).toNat

section Steps
variable {kb : PS2Keyboard δ} {s t : System δ} {e : Happening}

theorem sound_start {firmware p : Pair} (h : Setup firmware p) (keyboard : δ) :
    Sound (System.start p keyboard) := by
  obtain ⟨hwired, hmasked, hidle⟩ := setup_spec h
  exact ⟨hwired, hmasked, .nothing hidle, by simp [System.start],
    fun _ => by simp [System.start], by simp [System.start]⟩

theorem owed_of_running (hs : Sound s) (hcpu : s.cpu = .running) : Owes [] s.pics := by
  have howed := hs.owed
  rwa [hcpu] at howed

theorem Sound.answer (hs : Sound s) (hcpu : s.cpu = .answering) :
    ∃ irq, s.pics.winner = some (lineOf irq) ∧ s.pics.requested (lineOf irq) = true ∧
      s.pics.answered = s.pics.accept (lineOf irq) ∧ idt s.pics.answer = some irq := by
  obtain ⟨-, line, hwinner⟩ := hs.asked hcpu
  obtain ⟨irq, rfl, hrequested, hgate⟩ := hs.wired.winner hs.masked hwinner
  exact ⟨irq, hwinner, hrequested, Pair.answered_eq hwinner, by rwa [Pair.answer_eq hwinner]⟩

theorem Sound.step (hs : Sound s) (h : Step kb e s t) (he : e.Steady) : Sound t := by
  have howed := hs.owed
  cases h with
  | raise line hdevice =>
    refine ⟨hs.wired.drive _ line, hs.masked.drive _ line, howed.drive _ line, fun hcpu => ?_,
      hs.entered, hs.alive⟩
    obtain ⟨hopen, line', hwinner⟩ := hs.asked hcpu
    rw [hcpu] at howed
    cases howed with
    | nothing hidle =>
      exact ⟨hopen, Pair.exists_winner_of_raise hs.wired.cascaded hidle hwinner line⟩
  | withdraw line hrequested =>
    refine ⟨hs.wired.drive _ line, hs.masked.drive _ line, howed.drive _ line, fun hcpu => ?_,
      hs.entered, hs.alive⟩
    rw [hcpu] at he
    exact absurd rfl (he line)
  | @program _ w rest hcpu htodo =>
    have hmasked := hs.masked
    rw [htodo] at hmasked
    obtain ⟨master, slave, heq, hrest⟩ := hmasked.perform hs.wired
    refine ⟨?_, hrest, ?_, by simp [hcpu], hs.entered, hs.alive⟩
    · rw [heq]
      exact hs.wired.rewrite master slave _ _
    · rw [hcpu] at howed
      rw [hcpu, heq]
      cases howed with
      | nothing hidle => exact .nothing ⟨hidle.1, hidle.2⟩
  | shell hcpu htodo hevent hmove =>
    exact ⟨hs.wired, hs.masked, howed, by simp [hcpu], fun irq => by simp [hcpu], hs.alive⟩
  | signal hcpu hopen hwinner =>
    rw [hcpu] at howed
    exact ⟨hs.wired, hs.masked, howed, fun _ => ⟨hopen, _, hwinner⟩, fun _ => by simp, by simp⟩
  | @interrupt _ irq hcpu hgate =>
    obtain ⟨irq', -, -, haccept, hgate'⟩ := hs.answer hcpu
    obtain rfl : irq' = irq := Option.some.inj (hgate'.symm.trans hgate)
    rw [hcpu] at howed
    rw [haccept]
    exact ⟨hs.wired.accept _, hs.masked.accept _, howed.accept hs.wired irq', by simp,
      fun _ _ => (hs.asked hcpu).1, by simp⟩
  | fault hcpu hgate =>
    obtain ⟨irq, -, -, -, hgate'⟩ := hs.answer hcpu
    cases hgate.symm.trans hgate'
  | @slip _ i => exact absurd rfl (he (.slave i))
  | timer hcpu =>
    rw [hcpu] at howed
    exact ⟨hs.wired, hs.masked, howed, by simp, fun _ => by simp, by simp⟩
  | input device byte hcpu =>
    rw [hcpu] at howed
    exact ⟨hs.wired, hs.masked, howed, by simp, fun _ => by simp, by simp⟩
  | @acknowledge _ w rest hcpu =>
    rw [hcpu] at howed
    obtain ⟨master, slave, heq, hrest⟩ := howed.perform
    refine ⟨?_, ?_, hrest, by simp, fun _ => by simp, by simp⟩
    · rw [heq]
      exact hs.wired.rewrite _ _ master slave
    · have hmasked := hs.masked
      generalize s.todo = todo at hmasked
      rw [heq]
      cases hmasked <;> constructor <;> assumption
  | iret hcpu =>
    rw [hcpu] at howed
    exact ⟨hs.wired, hs.masked, howed, by simp, fun _ => by simp, by simp⟩

/-- The handler of a line is that of its device, and every line that gets through has one. -/
def Happening.Matched : Happening → Prop
  | .accept line irq => line = some (lineOf irq)
  | .fault _ => False
  | _ => True

theorem Sound.matched (hs : Sound s) (h : Step kb e s t) : e.Matched := by
  cases h with
  | @interrupt _ irq hcpu hgate =>
    obtain ⟨irq', hwinner, -, -, hgate'⟩ := hs.answer hcpu
    obtain rfl : irq' = irq := Option.some.inj (hgate'.symm.trans hgate)
    exact hwinner
  | fault hcpu hgate =>
    obtain ⟨irq, -, -, -, hgate'⟩ := hs.answer hcpu
    cases hgate.symm.trans hgate'
  | _ => trivial

/-- Every request is handled once, withdrawn before, or still on its way. -/
theorem step_balance (hs : Sound s) (h : Step kb e s t) (he : e.Steady) (irq : Irq) :
    (e.requests irq).toNat + s.outstanding irq =
      (e.handles irq).toNat + (e.withdraws irq).toNat + t.outstanding irq := by
  simp only [System.outstanding]
  cases h with
  | raise line hdevice =>
    rw [Pair.requested_drive]
    by_cases hline : line = lineOf irq
    · subst hline
      cases s.pics.requested (lineOf irq)
      · simp [Happening.requests, Happening.handles, Happening.withdraws]
        omega
      · simp [Happening.requests, Happening.handles, Happening.withdraws]
    · simp [Happening.requests, Happening.handles, Happening.withdraws, Ne.symm hline, hline]
  | withdraw line hrequested =>
    rw [Pair.requested_drive]
    by_cases hline : line = lineOf irq
    · subst hline
      simp [Happening.requests, Happening.handles, Happening.withdraws, hrequested]
      omega
    · simp [Happening.requests, Happening.handles, Happening.withdraws, Ne.symm hline, hline]
  | @program _ w rest hcpu htodo =>
    have hmasked := hs.masked
    rw [htodo] at hmasked
    obtain ⟨master, slave, heq, -⟩ := hmasked.perform hs.wired
    rw [heq]
    cases irq <;> rfl
  | shell hcpu htodo hevent hmove => rfl
  | signal hcpu hopen hwinner =>
    rw [hcpu]
    rfl
  | @interrupt _ accepted hcpu hgate =>
    obtain ⟨irq', -, hrequested, haccept, hgate'⟩ := hs.answer hcpu
    obtain rfl : irq' = accepted := Option.some.inj (hgate'.symm.trans hgate)
    have hline : (lineOf irq = lineOf irq') = (irq' = irq) :=
      propext ⟨fun h => (lineOf_injective h).symm, fun h => h ▸ rfl⟩
    rw [haccept, Pair.requested_accept _ _ (lineOf_ne_cascade irq), hcpu]
    by_cases hirq : irq' = irq
    · subst hirq
      simp [Happening.requests, Happening.handles, Happening.withdraws, Cpu.enters, hrequested]
    · simp [Happening.requests, Happening.handles, Happening.withdraws, Cpu.enters, hline, hirq]
  | fault hcpu hgate =>
    have hfault : Step kb _ s _ := .fault hcpu hgate
    exact absurd (hs.matched hfault) id
  | @slip _ i => exact absurd rfl (he (.slave i))
  | timer hcpu =>
    rw [hcpu]
    cases irq <;> simp [Happening.requests, Happening.handles, Happening.withdraws, Cpu.enters]
  | input device byte hcpu =>
    rw [hcpu]
    by_cases hirq : irqOf device = irq <;>
      simp [Happening.requests, Happening.handles, Happening.withdraws, Cpu.enters, hirq]
  | @acknowledge _ w rest hcpu =>
    have howed := hs.owed
    rw [hcpu] at howed
    obtain ⟨master, slave, heq, -⟩ := howed.perform
    rw [heq]
    simp only [hcpu]
    cases irq <;> rfl
  | iret hcpu =>
    simp only [hcpu]
    rfl

theorem step_ticks (h : Step kb e s t) :
    t.ticks = if e.handles .timer then (s.ticks + 1) % 2 ^ 64 else s.ticks := by
  cases h with
  | input device byte hcpu => cases device <;> rfl
  | _ => rfl

/-- Where the shell loop is for an observer to whom a handler is one step: its effect and the
return from it happen together. -/
def Sees (s : System δ) (loop : Loop δ) : Prop :=
  match s.cpu with
  | .acknowledging _ => loop = s.loop.wake
  | _ => loop = s.loop

theorem shows_shell_loop :
    ShowsAs (fun e s t => e.Steady ∧ Step kb e s t) (Move kb) Happening.shown
      fun s loop => Sound s ∧ Sees s loop := by
  rintro e s t loop ⟨hs, hsees⟩ ⟨he, h⟩
  have ht := hs.step h he
  rw [Sees] at hsees
  cases h with
  | raise line hdevice => exact ⟨loop, Trace.nil, ht, hsees⟩
  | withdraw line hrequested => exact ⟨loop, Trace.nil, ht, hsees⟩
  | program hcpu htodo => exact ⟨loop, Trace.nil, ht, hsees⟩
  | shell hcpu htodo hevent hmove =>
    rw [hcpu] at hsees
    subst hsees
    refine ⟨_, Trace.single hmove, ht, ?_⟩
    rw [Sees, hcpu]
  | signal hcpu hopen hwinner =>
    rw [hcpu] at hsees
    exact ⟨loop, Trace.nil, ht, hsees⟩
  | interrupt hcpu hgate =>
    rw [hcpu] at hsees
    exact ⟨loop, Trace.nil, ht, hsees⟩
  | fault hcpu hgate => exact absurd rfl ht.alive
  | @slip _ i => exact absurd rfl (he (.slave i))
  | timer hcpu =>
    have hopen := hs.entered _ hcpu
    rw [hcpu] at hsees
    subst hsees
    exact ⟨_, Trace.single (.timerIrq hopen), ht, rfl⟩
  | input device byte hcpu =>
    have hopen := hs.entered _ hcpu
    rw [hcpu] at hsees
    subst hsees
    exact ⟨_, Trace.single (.irq hopen device byte), ht, rfl⟩
  | acknowledge hcpu =>
    rw [hcpu] at hsees
    exact ⟨loop, Trace.nil, ht, hsees⟩
  | iret hcpu =>
    rw [hcpu] at hsees
    exact ⟨loop, Trace.nil, ht, hsees⟩

structure History (start : System δ) (events : List Happening) (s : System δ) : Prop where
  sound : Sound s
  matched : ∀ e ∈ events, e.Matched
  balance : ∀ irq, events.countP (Happening.requests irq) + start.outstanding irq =
    events.countP (Happening.handles irq) + events.countP (Happening.withdraws irq) +
      s.outstanding irq
  ticks : s.ticks = events.countP (Happening.handles .timer) % 2 ^ 64

theorem countP_single (f : Happening → Bool) (e : Happening) : [e].countP f = (f e).toNat := by
  cases h : f e <;> simp [h]

theorem History.step {start : System δ} {events : List Happening} (h : History start events s)
    (hstep : Step kb e s t) (he : e.Steady) : History start (events ++ [e]) t := by
  refine ⟨h.sound.step hstep he, ?_, fun irq => ?_, ?_⟩
  · intro e' he'
    rcases List.mem_append.mp he' with hold | hnew
    · exact h.matched e' hold
    · exact List.mem_singleton.mp hnew ▸ h.sound.matched hstep
  · have hbalance := h.balance irq
    have hnow := step_balance h.sound hstep he irq
    simp only [List.countP_append, countP_single]
    omega
  · rw [step_ticks hstep, h.ticks, List.countP_append, countP_single]
    cases e.handles .timer with
    | false => rfl
    | true => exact Nat.mod_add_mod ..

/-- Once nothing is left to write, every device's line is open. -/
theorem Sound.opened (hs : Sound s) (hdone : s.todo = []) (irq : Irq) :
    s.pics.Open (lineOf irq) := by
  have hmasked := hs.masked
  rw [hdone] at hmasked
  generalize hnone : ([] : List Outb) = writes at hmasked
  cases hmasked with
  | mouse hmaster hslave =>
    cases irq with
    | timer => exact congrFun hmaster 0
    | keyboard => exact congrFun hmaster 1
    | mouse => exact ⟨congrFun hslave 4, congrFun hmaster cascade⟩
  | boot => cases hnone
  | runtime => cases hnone
  | half => cases hnone

/-- No earlier interrupt keeps an open request from the processor. -/
theorem Sound.prompt (hs : Sound s) (hcpu : s.cpu = .running) {irq : Irq}
    (hrequested : s.pics.requested (lineOf irq) = true) (hopen : s.pics.Open (lineOf irq)) :
    ∃ irq', s.pics.winner = some (lineOf irq') ∧
      idt (s.pics.vector (lineOf irq')) = some irq' := by
  cases owed_of_running hs hcpu with
  | nothing hidle =>
    obtain ⟨line, hwinner⟩ := Pair.exists_winner hidle hrequested hopen (lineOf_ne_cascade irq)
    obtain ⟨irq', rfl, -, hgate⟩ := hs.wired.winner hs.masked hwinner
    exact ⟨irq', hwinner, hgate⟩

structure Delivered (kb : PS2Keyboard δ) (start : System δ) (events : List Happening)
    (s : System δ) : Prop where
  /-- The shell loop sees a handler as one step wherever it is interruptible. -/
  shell : ∃ loop, Trace (Move kb) (events.flatMap Happening.shown) start.loop loop ∧ Sees s loop
  matched : ∀ e ∈ events, e.Matched
  /-- A request is handled once, unless it was withdrawn or is accepted or waiting. -/
  balance : ∀ irq, events.countP (Happening.requests irq) + start.outstanding irq =
    events.countP (Happening.handles irq) + events.countP (Happening.withdraws irq) +
      s.outstanding irq
  ticks : s.ticks = events.countP (Happening.handles .timer) % 2 ^ 64
  /-- Between handlers an open request interrupts the processor, through a gate. -/
  prompt : s.cpu = .running → ∀ irq, s.pics.requested (lineOf irq) = true →
    s.pics.Open (lineOf irq) → ∃ irq', s.pics.winner = some (lineOf irq') ∧
      idt (s.pics.vector (lineOf irq')) = some irq'
  opened : s.todo = [] → ∀ irq, s.pics.Open (lineOf irq)

end Steps

/-- Whatever the firmware left in the controllers and whenever lines rise and fall, from the end
of `init` on every request of a device that is not withdrawn is handled once, by the device's own
handler, and the shell runs as in its loop with interrupts between any two of its steps. No
request may fall away while the processor asks for its vector. -/
theorem interrupts_delivered {kb : PS2Keyboard δ} {firmware pics : Pair}
    (hsetup : Setup firmware pics) {keyboard : δ} {events : List Happening} {s : System δ}
    (hrun : Trace (Step kb) events (.start pics keyboard) s)
    (hsteady : ∀ line, .withdraw line true ∉ events) :
    Delivered kb (.start pics keyboard) events s := by
  have hstart := sound_start hsetup keyboard
  have hkind : ∀ e ∈ events, e.Steady := fun e he line hline => hsteady line (hline ▸ he)
  have hempty : History (.start pics keyboard) [] (.start pics keyboard) :=
    ⟨hstart, List.forall_mem_nil _, fun _ => rfl, rfl⟩
  obtain ⟨hsound, hmatched, hbalance, hticks⟩ :=
    (hrun.restrict hkind).history_invariant (fun _ _ _ _ h hstep => h.step hstep.2 hstep.1) hempty
  obtain ⟨loop, hloop, -, hsees⟩ := shows_shell_loop.trace ⟨hstart, rfl⟩ (hrun.restrict hkind)
  exact ⟨⟨loop, hloop, hsees⟩, hmatched, hbalance, hticks, fun hcpu _ => hsound.prompt hcpu,
    hsound.opened⟩

def poweredOn : Pair :=
  ⟨⟨.mask, false, false, false, 0, 0, noLine, noLine, noLine⟩,
    ⟨.mask, false, false, false, 0, 0, noLine, noLine, noLine⟩⟩

def setUp : Pair := initializePics.foldl (fun p w => w.perform p) poweredOn

theorem setup_setUp : Setup poweredOn setUp := by
  have hwrites : ∀ (writes : List Outb) (p : Pair),
      Trace SetupStep (writes.map some) p (writes.foldl (fun p w => w.perform p) p) := by
    intro writes
    induction writes with
    | nil => exact fun p => Trace.nil
    | cons w writes ih => exact fun p => (ih (w.perform p)).cons (.write w)
  exact ⟨_, hwrites initializePics poweredOn, by simp⟩

/-- A key is pressed during the boot, let go before the lines are open and pressed again. The
mouse moves while the handler of the key runs. -/
theorem early_key_delivered :
    ∃ events s, Delivered markerDecoder (.start setUp ()) events s ∧
      events.countP (Happening.requests .keyboard) = 2 ∧
      events.countP (Happening.handles .keyboard) = 1 ∧
      events.countP (Happening.handles .mouse) = 1 ∧
      s.loop.keyboard.input.queue.items = [0x1e] := by
  have hrun : ∃ events s, Trace (Step markerDecoder) events (.start setUp ()) s ∧
      (∀ line, .withdraw line true ∉ events) ∧
      events.countP (Happening.requests .keyboard) = 2 ∧
      events.countP (Happening.handles .keyboard) = 1 ∧
      events.countP (Happening.handles .mouse) = 1 ∧
      s.loop.keyboard.input.queue.items = [0x1e] := by
    refine ⟨_, _, .cons (.raise (.master 1) (by decide)) (.cons (.withdraw (.master 1) rfl)
      (.cons (.raise (.master 1) (by decide)) (.cons (.program rfl rfl)
      (.cons (.program rfl rfl) (.cons (.program rfl rfl)
      (.cons (.signal rfl ⟨rfl, by decide⟩ rfl) (.cons (.interrupt rfl rfl)
      (.cons (.raise (.slave 4) (by decide)) (.cons (.input .keyboard 0x1e rfl)
      (.cons (.acknowledge rfl) (.cons (.iret rfl)
      (.cons (.signal rfl ⟨rfl, by decide⟩ rfl) (.cons (.interrupt rfl rfl)
      (.cons (.input .mouse 0x08 rfl) (.cons (.acknowledge rfl) (.cons (.acknowledge rfl)
      (.cons (.iret rfl) .nil))))))))))))))))), ?_, rfl, rfl, rfl, rfl⟩
    intro line hline
    simp [System.start, Cpu.answers] at hline
  obtain ⟨events, s, htrace, hsteady, hrest⟩ := hrun
  exact ⟨events, s, interrupts_delivered setup_setUp htrace hsteady, hrest⟩

/-- Without that assumption the processor faults: the vector it is given when no request is left
has no gate. -/
theorem withdrawn_request_faults {kb : PS2Keyboard δ} {s : System δ} (hwired : Wired s.pics)
    (hcpu : s.cpu = .answering) (hnone : s.pics.winner = none) :
    Step kb (.fault 39) s { s with cpu := .faulted } := by
  have hanswer : s.pics.answer = 39 := by
    rw [Pair.answer, hnone, Option.elim_none, hwired.masterBase]
  have hanswered : s.pics.answered = s.pics := by rw [Pair.answered, hnone, Option.elim_none]
  have hfault : Step kb (.fault s.pics.answer) s { s with pics := s.pics.answered, cpu := .faulted } :=
    .fault hcpu (hanswer ▸ by decide)
  rwa [hanswer, hanswered] at hfault

end AgnostOS.Interrupts
