import AgnostOS.Library.PortIo
import AgnostOS.Library.Trace

/-! The handshake of mouse/mod.rs with the PS/2 controller: against any device, and against a
controller of the documented kind. -/
namespace AgnostOS.Ps2
open PortIo

abbrev PS2_DATA : UInt16 := 0x60
abbrev PS2_COMMAND : UInt16 := 0x64
abbrev PS2_STATUS : UInt16 := PS2_COMMAND
def PS2_READY_POLL_LIMIT : Nat := 100000
abbrev CMD_ENABLE_AUX : UInt8 := 0xa8
abbrev CMD_READ_CONFIG : UInt8 := 0x20
abbrev CMD_WRITE_CONFIG : UInt8 := 0x60
abbrev CMD_WRITE_TO_AUX : UInt8 := 0xd4
abbrev MOUSE_ENABLE_PACKETS : UInt8 := 0xf4
abbrev MOUSE_ACK : UInt8 := 0xfa

inductive Ps2Error where
  | timeout
  | unexpectedResponse (byte : UInt8)
  deriving DecidableEq

/-- The ports and status bits that `wait_write_ready` and `wait_read_ready` look at. -/
def bus : Bus Ps2Error where
  status := PS2_STATUS
  writeReady := fun status => status &&& 0b10 = 0
  readReady := fun status => status &&& 0b01 ≠ 0
  limit := PS2_READY_POLL_LIMIT
  timeout := .timeout

def waitWriteReady : PortIo Ps2Error Unit :=
  poll PS2_STATUS bus.writeReady .timeout PS2_READY_POLL_LIMIT

def waitReadReady : PortIo Ps2Error Unit :=
  poll PS2_STATUS bus.readReady .timeout PS2_READY_POLL_LIMIT

def ps2WriteCommand (cmd : UInt8) : PortIo Ps2Error Unit := do
  waitWriteReady
  write cmd PS2_COMMAND

def ps2WriteData (data : UInt8) : PortIo Ps2Error Unit := do
  waitWriteReady
  write data PS2_DATA

def ps2ReadData : PortIo Ps2Error UInt8 := do
  waitReadReady
  read PS2_DATA

/-- Bit 1 enables the mouse's interrupt, bit 5 would stop its clock. -/
def mouseConfig (config : UInt8) : UInt8 := (config ||| 0b00000010) &&& ~~~0b00100000

def initializeController : PortIo Ps2Error Unit := do
  ps2WriteCommand CMD_ENABLE_AUX
  ps2WriteCommand CMD_READ_CONFIG
  let config ← ps2ReadData
  ps2WriteCommand CMD_WRITE_CONFIG
  ps2WriteData (mouseConfig config)
  ps2WriteCommand CMD_WRITE_TO_AUX
  ps2WriteData MOUSE_ENABLE_PACKETS
  let ack ← ps2ReadData
  if ack ≠ MOUSE_ACK then .fail (.unexpectedResponse ack)
  else pure ()

/-! ### Any device -/

def verdict (ack : UInt8) : Except Ps2Error Unit :=
  if ack ≠ MOUSE_ACK then .error (.unexpectedResponse ack) else .ok ()

def command (value : UInt8) : Unit → Access := fun _ => .write value PS2_COMMAND

def data (value : UInt8) : Unit → Access := fun _ => .write value PS2_DATA

def handshake : Protocol Ps2Error Unit :=
  .after (command CMD_ENABLE_AUX) fun _ => .after (command CMD_READ_CONFIG) fun _ =>
  .after (.read PS2_DATA) fun config =>
  .after (command CMD_WRITE_CONFIG) fun _ => .after (data (mouseConfig config)) fun _ =>
  .after (command CMD_WRITE_TO_AUX) fun _ => .after (data MOUSE_ENABLE_PACKETS) fun _ =>
  .after (.read PS2_DATA) fun ack => .finish (verdict ack)

theorem follows_handshake : bus.Follows initializeController handshake := by
  have hcommand : ∀ value, bus.Asks (ps2WriteCommand value) (command value) := fun value =>
    Bus.asks_put value PS2_COMMAND
  have hdata : ∀ value, bus.Asks (ps2WriteData value) (data value) := fun value =>
    Bus.asks_put value PS2_DATA
  have hread : bus.Asks ps2ReadData (.read PS2_DATA) := Bus.asks_get PS2_DATA
  refine (hcommand _).follows fun _ => (hcommand _).follows fun _ => hread.follows fun config => ?_
  refine (hcommand _).follows fun _ => (hdata _).follows fun _ => ?_
  refine (hcommand _).follows fun _ => (hdata _).follows fun _ => hread.follows fun ack => ?_
  refine Bus.follows_finish fun log result => ?_
  by_cases hack : ack ≠ MOUSE_ACK
  · rw [if_pos hack, verdict, if_pos hack]
    exact does_fail
  · rw [if_neg hack, verdict, if_neg hack]
    exact does_pure

def script (config ack : UInt8) : List Access :=
  [.write CMD_ENABLE_AUX PS2_COMMAND, .write CMD_READ_CONFIG PS2_COMMAND, .read PS2_DATA config,
    .write CMD_WRITE_CONFIG PS2_COMMAND, .write (mouseConfig config) PS2_DATA,
    .write CMD_WRITE_TO_AUX PS2_COMMAND, .write MOUSE_ENABLE_PACKETS PS2_DATA,
    .read PS2_DATA ack]

theorem handshake_ends {accesses : List Access} {result : Except Ps2Error Unit}
    (h : handshake.Ends accesses result) :
    ∃ config ack, accesses = script config ack ∧ result = verdict ack := by
  obtain ⟨_, _, rfl, _, _, rfl, config, _, rfl, _, _, rfl, _, _, rfl, _, _, rfl, _, _, rfl, ack, _,
    rfl, rfl, rfl⟩ := h
  exact ⟨config, ack, rfl, rfl⟩

theorem completes_handshake : handshake.Completes := by
  refine Protocol.completes_after fun _ => Protocol.completes_after fun _ =>
    Protocol.completes_after fun config => Protocol.completes_after fun _ =>
    Protocol.completes_after fun _ => Protocol.completes_after fun _ =>
    Protocol.completes_after fun _ => Protocol.completes_after fun ack => ?_
  exact Protocol.completes_finish (verdict ack)

theorem handshake_awaits {accesses : List Access} {access : Access}
    (h : handshake.Awaits accesses access) :
    ∃ config ack rest, accesses ++ access :: rest = script config ack := by
  obtain ⟨rest, result, hends⟩ := completes_handshake.2 accesses access h
  obtain ⟨config, ack, hscript, -⟩ := handshake_ends hends
  exact ⟨config, ack, rest, hscript⟩

structure HandshakeKept (log : List Access) (result : Except Ps2Error Unit) : Prop where
  /-- The commands come in their order, and the configuration is the one that was read. -/
  commands : ∃ config ack, log.filter bus.isAccess <+: script config ack
  /-- Each of them comes right behind a status that allows it. -/
  disciplined : bus.Disciplined log
  bounded : log.length ≤ 8 * (PS2_READY_POLL_LIMIT + 1) + PS2_READY_POLL_LIMIT
  ok : result = .ok () ↔ ∃ config, log.filter bus.isAccess = script config MOUSE_ACK
  unexpected : ∀ byte, result = .error (.unexpectedResponse byte) ↔
    byte ≠ MOUSE_ACK ∧ ∃ config, log.filter bus.isAccess = script config byte
  timeout : result = .error .timeout ↔ (log.filter bus.isAccess).length < 8

theorem isAccess_script (config ack : UInt8) :
    ∀ access ∈ script config ack, bus.isAccess access = true := by
  have hport : PS2_DATA ≠ PS2_STATUS := by decide
  simp [script, Bus.isAccess, bus, hport]

theorem script_injective {config ack config' ack' : UInt8}
    (h : script config ack = script config' ack') : ack = ack' := by
  simp only [script, List.cons.injEq, Access.read.injEq] at h
  exact h.2.2.2.2.2.2.2.1.2

theorem verdict_eq_ok {ack : UInt8} : verdict ack = .ok () ↔ ack = MOUSE_ACK := by
  rw [verdict]
  split_ifs with h
  · simp [h]
  · simpa using h

theorem verdict_eq_unexpected {ack byte : UInt8} :
    verdict ack = .error (.unexpectedResponse byte) ↔ byte ≠ MOUSE_ACK ∧ ack = byte := by
  rw [verdict]
  split_ifs with h
  · simp only [Except.error.injEq, Ps2Error.unexpectedResponse.injEq]
    exact ⟨fun heq => ⟨heq ▸ h, heq⟩, fun heq => heq.2⟩
  · simp only [false_iff, not_and]
    exact fun hbyte heq => hbyte (heq ▸ not_not.mp h)

theorem verdict_ne_timeout (ack : UInt8) : verdict ack ≠ .error .timeout := by
  rw [verdict]
  split_ifs <;> simp

/-- Whatever the device answers, and whenever. -/
theorem handshake_on_any_device {log : List Access} {result : Except Ps2Error Unit}
    (h : initializeController.Does log result) : HandshakeKept log result := by
  have hlogs := (follows_handshake log result).mp h
  have hscript : ∀ accesses result, handshake.Ends accesses result →
      ∀ access ∈ accesses, bus.isAccess access = true := by
    intro accesses result hends
    obtain ⟨config, ack, rfl, -⟩ := handshake_ends hends
    exact isAccess_script config ack
  obtain ⟨hends, hdisciplined, hlength⟩ := hlogs.spec completes_handshake hscript
  generalize hfilter : log.filter bus.isAccess = accesses at hends hlength
  rcases hends with hends | ⟨rfl, access, hawaits⟩
  · obtain ⟨config, ack, rfl, rfl⟩ := handshake_ends hends
    refine ⟨⟨config, ack, hfilter ▸ List.prefix_rfl⟩, hdisciplined, hlength, ?_, fun byte => ?_, ?_⟩
    · rw [hfilter, verdict_eq_ok]
      exact ⟨fun heq => ⟨config, heq ▸ rfl⟩, fun ⟨_, heq⟩ => script_injective heq⟩
    · rw [hfilter, verdict_eq_unexpected]
      exact and_congr_right' ⟨fun heq => ⟨config, heq ▸ rfl⟩, fun ⟨_, heq⟩ => script_injective heq⟩
    · rw [hfilter]
      exact ⟨fun heq => absurd heq (verdict_ne_timeout ack), fun hlt => absurd hlt (by simp [script])⟩
  · obtain ⟨config, ack, rest, hsplit⟩ := handshake_awaits hawaits
    have hcount := congrArg List.length hsplit
    have hshort : accesses.length < 8 := by
      simp only [script, List.length_append, List.length_cons, List.length_nil] at hcount
      omega
    have hnever : ∀ config ack, accesses ≠ script config ack := fun config ack heq => by
      rw [heq] at hshort
      exact absurd hshort (by simp [script])
    refine ⟨⟨config, ack, hfilter ▸ ⟨_, hsplit⟩⟩, hdisciplined, ?_, ?_, fun byte => ?_, ?_⟩
    · have hle : accesses.length * (bus.limit + 1) ≤ 8 * (bus.limit + 1) :=
        Nat.mul_le_mul_right _ (Nat.le_of_lt hshort)
      exact Nat.le_trans hlength (Nat.add_le_add_right hle _)
    · rw [hfilter]
      exact ⟨nofun, fun ⟨c, heq⟩ => absurd heq (hnever c _)⟩
    · rw [hfilter]
      exact ⟨nofun, fun ⟨_, c, heq⟩ => absurd heq (hnever c _)⟩
    · rw [hfilter]
      exact ⟨fun _ => hshort, fun _ => rfl⟩

/-! ### The documented controller -/

inductive Target where
  | keyboard | config | mouse
  deriving DecidableEq

structure Controller where
  config : UInt8
  output : List UInt8
  target : Target
  reporting : Bool

namespace Controller

/-- The effect of an access. Other commands and bytes for the keyboard have none that matters
here. -/
def after (c : Controller) : Access → Controller
  | .write value port =>
    if port = PS2_COMMAND then
      if value = CMD_ENABLE_AUX then { c with config := c.config &&& ~~~0b00100000 }
      else if value = CMD_READ_CONFIG then { c with output := c.output ++ [c.config] }
      else if value = CMD_WRITE_CONFIG then { c with target := .config }
      else if value = CMD_WRITE_TO_AUX then { c with target := .mouse }
      else c
    else
      match c.target with
      | .config => { c with config := value, target := .keyboard }
      | .mouse =>
        if value = MOUSE_ENABLE_PACKETS then
          { c with output := c.output ++ [MOUSE_ACK], target := .keyboard, reporting := true }
        else { c with target := .keyboard }
      | .keyboard => c
  | .read .. => { c with output := c.output.tail }

def Answers (c : Controller) : Access → Prop
  | .read _ value => c.output.head? = some value
  | .write .. => True

end Controller

/-- A controller at work: so many looks at the status find it busy with the last byte that was
written, and so many without the next byte to read. -/
structure Lagging where
  controller : Controller
  inputLag : Nat
  outputLag : Nat

namespace Lagging

def look (c : Lagging) : Lagging :=
  { c with inputLag := c.inputLag - 1, outputLag := c.outputLag - 1 }

structure Within (limit : Nat) (c : Lagging) : Prop where
  input : c.inputLag < limit
  output : c.outputLag < limit

/-- Interrupts are off and nobody types: the controller only answers, and takes less than so
many looks for every access. Its two status bits do not depend on each other. -/
inductive Step (limit : Nat) : Access → Lagging → Lagging → Prop
  | status {c value} (hinput : bus.writeReady value = true ↔ c.inputLag = 0)
      (houtput : bus.readReady value = true ↔ c.outputLag = 0 ∧ c.controller.output ≠ []) :
      Step limit (.read PS2_STATUS value) c c.look
  | access {c access} (inputLag outputLag : Nat) (haccess : bus.isAccess access = true)
      (hanswer : c.controller.output ≠ [] → c.controller.Answers access)
      (hlag : Within limit ⟨c.controller.after access, inputLag, outputLag⟩) :
      Step limit access c ⟨c.controller.after access, inputLag, outputLag⟩

variable {limit : Nat} {c d : Lagging} {log : List Access} {n : Nat}

theorem step_status {value : UInt8} (h : Step limit (.read PS2_STATUS value) c d) :
    d = c.look ∧ (bus.writeReady value = true ↔ c.inputLag = 0) ∧
      (bus.readReady value = true ↔ c.outputLag = 0 ∧ c.controller.output ≠ []) := by
  cases h with
  | status hinput houtput => exact ⟨rfl, hinput, houtput⟩
  | access _ _ haccess _ _ => simp [Bus.isAccess, bus] at haccess

def waits (c : Lagging) : Access → Nat
  | .write .. => c.inputLag
  | .read .. => c.outputLag

theorem waits_lt (hlag : c.Within n) (access : Access) : c.waits access < n := by
  cases access with
  | write => exact hlag.input
  | read => exact hlag.output

def Feeds (c : Controller) : Access → Prop
  | .write .. => True
  | .read .. => c.output ≠ []

theorem look_busy {value : UInt8} {access : Access} (h : Step limit (.read PS2_STATUS value) c d)
    (hbusy : bus.readyFor access value = false) (hbyte : Feeds c.controller access) :
    d.controller = c.controller ∧ d.waits access + 1 = c.waits access := by
  obtain ⟨rfl, hinput, houtput⟩ := step_status h
  cases access with
  | write byte port =>
    have hlag : c.inputLag ≠ 0 := fun hzero => by
      rw [Bus.readyFor, hinput.mpr hzero] at hbusy
      cases hbusy
    exact ⟨rfl, Nat.sub_add_cancel (Nat.pos_of_ne_zero hlag)⟩
  | read port byte =>
    have hlag : c.outputLag ≠ 0 := fun hzero => by
      rw [Bus.readyFor, houtput.mpr ⟨hzero, hbyte⟩] at hbusy
      cases hbusy
    exact ⟨rfl, Nat.sub_add_cancel (Nat.pos_of_ne_zero hlag)⟩

theorem busy_spec {access : Access} (h : Busy PS2_STATUS (bus.readyFor access) n log)
    (hrun : Trace (Step limit) log c d) (hbyte : Feeds c.controller access) :
    d.controller = c.controller ∧ d.waits access + n = c.waits access := by
  induction n generalizing log c with
  | zero =>
    rw [busy_zero.mp h] at hrun
    obtain rfl : c = d := hrun
    exact ⟨rfl, rfl⟩
  | succ n ih =>
    obtain ⟨value, rest, hvalue, hrest, rfl⟩ := busy_succ.mp h
    obtain ⟨c', hstep, hrun'⟩ := hrun
    obtain ⟨hsame, hless⟩ := look_busy hstep hvalue hbyte
    obtain ⟨hlater, hcount⟩ := ih hrest hrun' (hsame ▸ hbyte)
    exact ⟨hlater.trans hsame, by omega⟩

theorem not_stuck {access : Access} (h : bus.Stuck access log) (hrun : Trace (Step limit) log c d)
    (hbyte : Feeds c.controller access) (hlag : c.Within PS2_READY_POLL_LIMIT) : False := by
  obtain ⟨-, hcount⟩ := busy_spec h hrun hbyte
  have hwaits := waits_lt hlag access
  have hlimit : bus.limit = PS2_READY_POLL_LIMIT := rfl
  omega

theorem exchange_spec {access : Access} (haccess : bus.isAccess access = true)
    (h : bus.Exchange access log) (hrun : Trace (Step limit) log c d)
    (hbyte : Feeds c.controller access) :
    d.controller = c.controller.after access ∧ c.controller.Answers access ∧
      d.Within limit := by
  obtain ⟨m, hm, busy, value, hbusy, hready, rfl⟩ := h
  obtain ⟨c₁, hwait, c₂, hlook, d', hstep, rfl⟩ := Trace.append_iff.mp hrun
  obtain ⟨hsame, -⟩ := busy_spec hbusy hwait hbyte
  obtain ⟨rfl, -, -⟩ := step_status hlook
  have hlooked : c₁.look.controller = c.controller := hsame
  cases hstep with
  | status => simp [Bus.isAccess, bus] at haccess
  | access inputLag outputLag _ hanswer hlag =>
    rw [hlooked] at hanswer hlag ⊢
    refine ⟨rfl, ?_, hlag⟩
    cases access with
    | write => trivial
    | read => exact hanswer hbyte

def Fed (c : Controller) : List Access → Prop
  | [] => True
  | access :: rest => Feeds c access ∧ Fed (c.after access) rest

def Answered (c : Controller) : List Access → Prop
  | [] => True
  | access :: rest => c.Answers access ∧ Answered (c.after access) rest

theorem fed_append {c : Controller} {first second : List Access} :
    Fed c (first ++ second) ↔ Fed c first ∧ Fed (first.foldl Controller.after c) second := by
  induction first generalizing c with
  | nil => simp [Fed]
  | cons access first ih => simp [Fed, ih, and_assoc]

theorem exchanges_spec {accesses : List Access}
    (haccesses : ∀ access ∈ accesses, bus.isAccess access = true)
    (h : bus.Exchanges accesses log) (hrun : Trace (Step limit) log c d)
    (hfed : Fed c.controller accesses) (hlag : c.Within limit) :
    d.controller = accesses.foldl Controller.after c.controller ∧
      Answered c.controller accesses ∧ d.Within limit := by
  induction accesses generalizing log c with
  | nil =>
    obtain rfl : log = [] := h
    obtain rfl : c = d := hrun
    exact ⟨rfl, trivial, hlag⟩
  | cons access rest ih =>
    obtain ⟨first, second, hexchange, hrest, rfl⟩ := h
    obtain ⟨haccess, hothers⟩ := List.forall_mem_cons.mp haccesses
    obtain ⟨c', hfirst, hsecond⟩ := Trace.append_iff.mp hrun
    obtain ⟨hafter, hanswer, hlag'⟩ := exchange_spec haccess hexchange hfirst hfed.1
    obtain ⟨hlast, hanswers, hlag''⟩ := ih hothers hrest hsecond (hafter ▸ hfed.2) hlag'
    exact ⟨by rw [hlast, hafter, List.foldl_cons], ⟨hanswer, hafter ▸ hanswers⟩, hlag''⟩

end Lagging

section Script
variable (c : Controller) (config ack : UInt8)

def asked : List UInt8 := c.output ++ [c.config &&& ~~~0b00100000]

theorem script_after : (script config ack).foldl Controller.after c =
    ⟨mouseConfig config, ((asked c).tail ++ [MOUSE_ACK]).tail, .keyboard, true⟩ := rfl

theorem fed_script : Lagging.Fed c (script config ack) := by
  refine ⟨trivial, trivial, ?_, trivial, trivial, trivial, trivial, ?_, trivial⟩
  · change asked c ≠ []
    simp [asked]
  · change (asked c).tail ++ [MOUSE_ACK] ≠ []
    simp

theorem answered_script (h : Lagging.Answered c (script config ack)) :
    (asked c).head? = some config ∧ ((asked c).tail ++ [MOUSE_ACK]).head? = some ack := by
  obtain ⟨-, -, hfirst, -, -, -, -, hlast, -⟩ := h
  exact ⟨hfirst, hlast⟩

end Script

theorem handshake_spec {limit : Nat} (hlimit : limit ≤ PS2_READY_POLL_LIMIT) {log : List Access}
    {result : Except Ps2Error Unit} {c d : Lagging} (hdoes : initializeController.Does log result)
    (hrun : Trace (Lagging.Step limit) log c d) (hlag : c.Within limit) :
    (∃ config ack, d.controller = (script config ack).foldl Controller.after c.controller ∧
      (asked c.controller).head? = some config ∧
      ((asked c.controller).tail ++ [MOUSE_ACK]).head? = some ack ∧ result = verdict ack) ∧
      d.Within limit := by
  rcases (follows_handshake log result).mp hdoes with ⟨accesses, hends, hexchanges⟩ |
    ⟨-, accesses, access, done, stuck, hawaits, hexchanges, hstuck, rfl⟩
  · obtain ⟨config, ack, rfl, rfl⟩ := handshake_ends hends
    obtain ⟨hafter, hanswers, hlag'⟩ := Lagging.exchanges_spec (isAccess_script config ack)
      hexchanges hrun (fed_script _ config ack) hlag
    obtain ⟨hfirst, hlast⟩ := answered_script _ config ack hanswers
    exact ⟨⟨config, ack, hafter, hfirst, hlast, rfl⟩, hlag'⟩
  · obtain ⟨config, ack, rest, hsplit⟩ := handshake_awaits hawaits
    have hfed := fed_script c.controller config ack
    rw [← hsplit, Lagging.fed_append] at hfed
    have haccesses : ∀ access ∈ accesses, bus.isAccess access = true := fun access' hmem =>
      isAccess_script config ack access' (hsplit ▸ List.mem_append_left _ hmem)
    obtain ⟨c', hfirst, hsecond⟩ := Trace.append_iff.mp hrun
    obtain ⟨hafter, -, hlag'⟩ :=
      Lagging.exchanges_spec haccesses hexchanges hfirst hfed.1 hlag
    have hwaits : c'.Within PS2_READY_POLL_LIMIT :=
      ⟨Nat.lt_of_lt_of_le hlag'.input hlimit, Nat.lt_of_lt_of_le hlag'.output hlimit⟩
    exact (Lagging.not_stuck hstuck hsecond (hafter ▸ hfed.2.1) hwaits).elim

/-- What the handshake reads first and last are the oldest bytes of the controller: its own
answers only if no byte was waiting. -/
theorem handshake_on_documented_controller {log : List Access} {result : Except Ps2Error Unit}
    {c d : Lagging} (hdoes : initializeController.Does log result)
    (hrun : Trace (Lagging.Step PS2_READY_POLL_LIMIT) log c d)
    (hlag : c.Within PS2_READY_POLL_LIMIT) :
    ∃ first ack, c.controller.output ++ [c.controller.config &&& ~~~0b00100000, MOUSE_ACK] =
        first :: ack :: d.controller.output ∧
      d.controller.config = mouseConfig first ∧ d.controller.reporting = true ∧
      d.controller.target = .keyboard ∧ result = verdict ack := by
  obtain ⟨⟨config, ack, hafter, hfirst, hlast, hresult⟩, -⟩ :=
    handshake_spec (Nat.le_refl _) hdoes hrun hlag
  rw [hafter, script_after]
  refine ⟨config, ack, ?_, rfl, rfl, rfl, hresult⟩
  obtain ⟨rest, hrest⟩ := List.head?_eq_some_iff.mp hfirst
  rw [hrest, List.tail_cons] at hlast ⊢
  obtain ⟨rest', hrest'⟩ := List.head?_eq_some_iff.mp hlast
  rw [hrest', List.tail_cons, ← hrest', ← List.cons_append, ← hrest, asked, List.append_assoc]
  rfl

theorem limit_pos : 0 < PS2_READY_POLL_LIMIT := by
  rw [PS2_READY_POLL_LIMIT]
  omega

def promptLog : Controller → List Access → List Access
  | _, [] => []
  | c, access :: rest =>
    [.read PS2_STATUS (if c.output = [] then 0 else 1), access] ++ promptLog (c.after access) rest

theorem prompt_run {limit : Nat} (hpos : 0 < limit) {c : Controller} {accesses : List Access}
    (haccesses : ∀ access ∈ accesses, bus.isAccess access = true)
    (hfed : Lagging.Fed c accesses) (hanswers : Lagging.Answered c accesses) :
    bus.Exchanges accesses (promptLog c accesses) ∧
      Trace (Lagging.Step limit) (promptLog c accesses) ⟨c, 0, 0⟩
        ⟨accesses.foldl Controller.after c, 0, 0⟩ := by
  induction accesses generalizing c with
  | nil => exact ⟨rfl, Trace.nil⟩
  | cons access rest ih =>
    obtain ⟨haccess, hothers⟩ := List.forall_mem_cons.mp haccesses
    obtain ⟨hexchanges, hrun⟩ := ih hothers hfed.2 hanswers.2
    have hwrite : bus.writeReady (if c.output = [] then 0 else 1) = true := by
      split_ifs <;> decide
    have hread : bus.readReady (if c.output = [] then 0 else 1) = true ↔ c.output ≠ [] := by
      split_ifs with hempty
      · simp [bus, hempty]
      · simp [bus, hempty]
    have hready : bus.readyFor access (if c.output = [] then 0 else 1) = true := by
      cases access with
      | write => exact hwrite
      | read => exact hread.mpr hfed.1
    refine ⟨⟨_, _, ⟨0, limit_pos, [], _, busy_zero.mpr rfl, hready, rfl⟩, hexchanges, rfl⟩, ?_⟩
    refine Trace.cons (.status (iff_of_true hwrite rfl) (hread.trans ?_))
      (Trace.cons (.access 0 0 haccess (fun _ => hanswers.1) ⟨hpos, hpos⟩) hrun)
    exact ⟨fun h => ⟨rfl, h⟩, fun h => h.2⟩

theorem script_run {limit : Nat} (hpos : 0 < limit) {c : Controller} {config ack : UInt8}
    (hanswers : Lagging.Answered c (script config ack)) :
    initializeController.Does (promptLog c (script config ack)) (verdict ack) ∧
      Trace (Lagging.Step limit) (promptLog c (script config ack)) ⟨c, 0, 0⟩
        ⟨(script config ack).foldl Controller.after c, 0, 0⟩ := by
  obtain ⟨hexchanges, hrun⟩ :=
    prompt_run hpos (isAccess_script _ _) (fed_script _ config ack) hanswers
  refine ⟨(follows_handshake _ _).mpr (.inl ⟨_, ?_, hexchanges⟩), hrun⟩
  exact ⟨(), _, rfl, (), _, rfl, _, _, rfl, (), _, rfl, (), _, rfl, (), _, rfl, (), _, rfl, _, _,
    rfl, rfl, rfl⟩

def quiet : Controller := ⟨0b01100001, [], .keyboard, false⟩

theorem quiet_answers : Lagging.Answered quiet (script 0b01000001 MOUSE_ACK) :=
  ⟨trivial, trivial, rfl, trivial, trivial, trivial, trivial, rfl, trivial⟩

theorem handshake_kept_when_quiet :
    HandshakeKept (promptLog quiet (script 0b01000001 MOUSE_ACK)) (verdict MOUSE_ACK) :=
  handshake_on_any_device (script_run limit_pos quiet_answers).1

/-- The mouse's interrupt and clock are on afterwards, and the rest of the configuration is as
it was. -/
theorem quiet_controller_configured :
    ∃ log d, initializeController.Does log (verdict MOUSE_ACK) ∧
      Trace (Lagging.Step PS2_READY_POLL_LIMIT) log ⟨quiet, 0, 0⟩ d ∧
      d.controller.config = 0b01000011 ∧ d.controller.output = [] := by
  obtain ⟨hdoes, hrun⟩ := script_run limit_pos quiet_answers
  obtain ⟨first, ack, hbytes, hconfig, -⟩ := handshake_on_documented_controller hdoes hrun
    ⟨limit_pos, limit_pos⟩
  obtain ⟨rfl, hrest⟩ := List.cons_eq_cons.mp hbytes
  exact ⟨_, _, hdoes, hrun, hconfig, ((List.cons_eq_cons.mp hrest).2).symm⟩

/-! ### Draining -/

/-- The loop of interrupts/mod.rs, with so many passes left. -/
def drainLoop : Nat → PortIo Ps2Error Unit
  | 0 => pure ()
  | n + 1 => do
    let status ← read PS2_STATUS
    if status &&& 0b01 = 0 then pure ()
    else do
      let _ ← read PS2_DATA
      drainLoop n

def drainPs2Output : PortIo Ps2Error Unit := drainLoop 32

/-- On a controller that is never busy each pass takes one byte, until none is left. -/
theorem drainLoop_spec {n : Nat} {log : List Access} {result : Except Ps2Error Unit}
    {c d : Lagging} (hdoes : (drainLoop n).Does log result) (hrun : Trace (Lagging.Step 1) log c d)
    (hlag : c.Within 1) :
    d.controller = { c.controller with output := c.controller.output.drop n } := by
  induction n generalizing log c with
  | zero =>
    obtain ⟨rfl, -⟩ := hdoes
    obtain rfl : c = d := hrun
    rfl
  | succ n ih =>
    obtain ⟨value, rest, rfl, hrest⟩ := hdoes
    change (if value &&& 0b01 = 0 then pure () else PortIo.inb PS2_DATA fun _ => drainLoop n :
      PortIo Ps2Error Unit).Does rest result at hrest
    obtain ⟨c', hlook, hafter⟩ := hrun
    obtain ⟨rfl, -, hread⟩ := Lagging.step_status hlook
    by_cases hvalue : value &&& 0b01 = 0
    · -- bit 0 is clear: nothing is left
      rw [if_pos hvalue] at hrest
      obtain ⟨rfl, -⟩ := hrest
      obtain rfl : c.look = d := hafter
      have hempty : c.controller.output = [] := by
        by_contra hbyte
        have hready := hread.mpr ⟨Nat.lt_one_iff.mp hlag.output, hbyte⟩
        simp [bus, hvalue] at hready
      change c.controller = _
      rw [hempty, List.drop_nil, ← hempty]
    · rw [if_neg hvalue] at hrest
      obtain ⟨byte, rest, rfl, hrest⟩ := hrest
      obtain ⟨c', hstep, hafter⟩ := hafter
      cases hstep with
      | access inputLag outputLag _ _ hlag' =>
        rw [ih hrest hafter hlag']
        simp [Lagging.look, Controller.after, List.drop_tail]

/-- The handshake reads two bytes and the controller answers two, so that as many are left as
were waiting before, and of those the boot drains up to 32. -/
theorem boot_drains_controller {log log' : List Access} {result result' : Except Ps2Error Unit}
    {c d e : Lagging} (hdoes : initializeController.Does log result)
    (hrun : Trace (Lagging.Step 1) log c d) (hlag : c.Within 1)
    (hdrain : drainPs2Output.Does log' result') (hrun' : Trace (Lagging.Step 1) log' d e) :
    d.controller.output.length = c.controller.output.length ∧
      e.controller = { d.controller with output := d.controller.output.drop 32 } ∧
      e.controller.output.length = c.controller.output.length - 32 := by
  obtain ⟨⟨config, ack, hafter, -⟩, hlag'⟩ := handshake_spec limit_pos hdoes hrun hlag
  have hdrained := drainLoop_spec hdrain hrun' hlag'
  have hlength : d.controller.output.length = c.controller.output.length := by
    rw [hafter, script_after]
    simp [asked]
  refine ⟨hlength, hdrained, ?_⟩
  rw [hdrained, List.length_drop, hlength]

def typedOn : Controller := ⟨0b01100001, [0x1c], .keyboard, false⟩

/-- A waiting byte of the keyboard is taken for the configuration, and the acknowledgement of the
mouse is drained. -/
theorem waiting_byte_taken_for_config :
    ∃ log log' d e, initializeController.Does log (verdict 0b01000001) ∧
      Trace (Lagging.Step 1) log ⟨typedOn, 0, 0⟩ d ∧ drainPs2Output.Does log' (.ok ()) ∧
      Trace (Lagging.Step 1) log' d e ∧ e.controller.config = mouseConfig 0x1c ∧
      e.controller.output.length = 0 := by
  have hanswers : Lagging.Answered typedOn (script 0x1c 0b01000001) :=
    ⟨trivial, trivial, rfl, trivial, trivial, trivial, trivial, rfl, trivial⟩
  obtain ⟨hdoes, hrun⟩ := script_run (Nat.one_pos) hanswers
  have hdrain : drainPs2Output.Does
      [.read PS2_STATUS 1, .read PS2_DATA MOUSE_ACK, .read PS2_STATUS 0] (.ok ()) :=
    ⟨1, _, rfl, MOUSE_ACK, _, rfl, 0, _, rfl, rfl, rfl⟩
  have hrun' : Trace (Lagging.Step 1)
      [.read PS2_STATUS 1, .read PS2_DATA MOUSE_ACK, .read PS2_STATUS 0]
      ⟨(script 0x1c 0b01000001).foldl Controller.after typedOn, 0, 0⟩
      ⟨⟨mouseConfig 0x1c, [], .keyboard, true⟩, 0, 0⟩ := by
    refine Trace.cons (.status (by decide) (by decide)) (Trace.cons (.access 0 0 (by decide) ?_
      ⟨Nat.one_pos, Nat.one_pos⟩) (Trace.cons (.status (by decide) (by decide)) Trace.nil))
    exact fun _ => rfl
  obtain ⟨-, hcontroller, hlength⟩ :=
    boot_drains_controller hdoes hrun ⟨Nat.one_pos, Nat.one_pos⟩ hdrain hrun'
  exact ⟨_, _, _, _, hdoes, hrun, hdrain, hrun', congrArg Controller.config hcontroller, hlength⟩

end AgnostOS.Ps2
