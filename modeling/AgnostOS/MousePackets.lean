import AgnostOS.Library.Machine
import AgnostOS.Mouse
import Mathlib.Data.Fin.VecNotation
import Mathlib.Tactic.FinCases

/-! Packets on the way from the device to the shell: which bytes the parser groups
when the queue refuses some of them. -/
namespace AgnostOS.Mouse
open Input Machine

structure MousePacket where
  bytes : Fin 3 → MouseByte
  header : isHeader (bytes 0) = true

def MousePacket.stream (p : MousePacket) : List MouseByte := [p.bytes 0, p.bytes 1, p.bytes 2]

def MousePacket.event (p : MousePacket) : Option MouseEvent := decodePacket p.bytes

def assemble (state : PacketState) : List MouseByte → PacketState × List MouseEvent
  | [] => (state, [])
  | byte :: rest =>
    let (event, next) := state.accept byte
    let (final, events) := assemble next rest
    (final, event.toList ++ events)

theorem assemble_append (state : PacketState) (first second : List MouseByte) :
    assemble state (first ++ second) =
      ((assemble (assemble state first).1 second).1,
        (assemble state first).2 ++ (assemble (assemble state first).1 second).2) := by
  induction first generalizing state with
  | nil => rfl
  | cons byte first ih => simp only [List.cons_append, assemble, ih, List.append_assoc]

theorem assemble_snoc (state : PacketState) (bytes : List MouseByte) (byte : MouseByte) :
    assemble state (bytes ++ [byte]) =
      (((assemble state bytes).1.accept byte).2,
        (assemble state bytes).2 ++ ((assemble state bytes).1.accept byte).1.toList) := by
  simp only [assemble_append, assemble, List.append_nil]

/-! ### One byte -/

section Accept
variable {state : PacketState} {byte : MouseByte}

theorem accept_skip (hindex : state.index = 0) (hbyte : isHeader byte = false) :
    state.accept byte = (none, state) := by
  rw [PacketState.accept, if_pos ⟨hindex, hbyte⟩]

theorem accept_start (hindex : state.index = 0) (hbyte : isHeader byte = true) :
    state.accept byte = (none, ⟨Function.update state.bytes 0 byte, 1⟩) := by
  simp [PacketState.accept, hindex, hbyte]

theorem accept_middle (hindex : state.index = 1) :
    state.accept byte = (none, ⟨Function.update state.bytes 1 byte, 2⟩) := by
  simp [PacketState.accept, hindex]

theorem accept_last (hindex : state.index = 2) :
    state.accept byte = (decodePacket (Function.update state.bytes 2 byte),
      ⟨Function.update state.bytes 2 byte, 0⟩) := by
  simp [PacketState.accept, hindex]

end Accept

/-- A whole packet met in step gives its event and leaves the parser in step. -/
theorem assemble_stream {state : PacketState} (hindex : state.index = 0) (p : MousePacket)
    (rest : List MouseByte) :
    assemble state (p.stream ++ rest) =
      ((assemble ⟨p.bytes, 0⟩ rest).1,
        p.event.toList ++ (assemble ⟨p.bytes, 0⟩ rest).2) := by
  have hbytes : Function.update (Function.update (Function.update state.bytes 0 (p.bytes 0)) 1
      (p.bytes 1)) 2 (p.bytes 2) = p.bytes := by
    funext i
    fin_cases i <;> simp [Function.update]
  simp [MousePacket.stream, MousePacket.event, assemble, accept_start hindex p.header,
    accept_middle, accept_last, hbytes]

/-- The events in the first bytes of a stream of whole packets. -/
theorem assemble_of_prefix {packets : List MousePacket} {state : PacketState}
    {bytes : List MouseByte} (hindex : state.index = 0)
    (hbytes : bytes <+: packets.flatMap MousePacket.stream) :
    (assemble state bytes).2 =
      (packets.take (bytes.length / 3)).filterMap MousePacket.event := by
  induction packets generalizing state bytes with
  | nil =>
    have hnil : bytes = [] := List.prefix_nil.mp (by simpa using hbytes)
    simp [hnil, assemble]
  | cons p packets ih =>
    rw [List.flatMap_cons] at hbytes
    by_cases hshort : bytes.length < 3
    · have hfirst : bytes <+: p.stream :=
        List.prefix_of_prefix_length_le hbytes (List.prefix_append _ _) (by
          simp only [MousePacket.stream, List.length_cons, List.length_nil]
          omega)
      have hzero : bytes.length / 3 = 0 := by omega
      rw [hzero, List.take_zero, List.filterMap_nil]
      obtain ⟨tail, htail⟩ := hfirst
      cases bytes with
      | nil => rfl
      | cons a bytes =>
        obtain ⟨rfl, htail⟩ := List.cons_eq_cons.mp htail
        cases bytes with
        | nil => simp [assemble, accept_start hindex p.header]
        | cons b bytes =>
          cases bytes with
          | nil => simp [assemble, accept_start hindex p.header, accept_middle]
          | cons c bytes => exact absurd hshort (by simp)
    · obtain ⟨rest, rfl⟩ : p.stream <+: bytes :=
        List.prefix_of_prefix_length_le (List.prefix_append _ _) hbytes (by
          simp only [MousePacket.stream, List.length_cons, List.length_nil]
          omega)
      have hrest := (List.prefix_append_right_inj p.stream).mp hbytes
      have hcount : (p.stream ++ rest).length / 3 = rest.length / 3 + 1 := by
        simp only [MousePacket.stream, List.length_append, List.length_cons, List.length_nil]
        omega
      rw [assemble_stream hindex, hcount, List.take_succ_cons, ih rfl hrest]
      cases hevent : p.event with
      | none => rw [List.filterMap_cons_none hevent, Option.toList_none, List.nil_append]
      | some event =>
        rw [List.filterMap_cons_some hevent, Option.toList_some, List.singleton_append]

/-! ### Device, queue and shell together -/

inductive Action where
  | irq | poll
  deriving DecidableEq

/-- The packets still to send, the first of them from `position` on, the statics of the
mouse path, and histories that no code reads. -/
structure Line where
  pending : List MousePacket
  position : Fin 3
  mouse : MouseStatics
  sent : List MousePacket := []
  headerKept : Bool := false
  refused : Nat := 0
  polled : List MouseByte := []
  events : List MouseEvent := []

namespace Line

def start (packets : List MousePacket) : Line :=
  { pending := packets, position := 0, mouse := initMouse }

def step (s : Line) : Action → Line
  | .irq =>
    match s.pending with
    | [] => s
    | p :: rest =>
      let kept := !s.mouse.input.queue.isFull
      { s with
        pending := if s.position = 2 then rest else p :: rest
        position := s.position + 1
        mouse := pushMouseByte s.mouse (p.bytes s.position)
        sent := if s.position = 2 then s.sent ++ [p] else s.sent
        headerKept := if s.position = 0 then kept else s.headerKept
        refused := if kept then s.refused else s.refused + 1 }
  | .poll =>
    { s with
      mouse := (poll s.mouse).2
      polled := s.polled ++ (popMouseByte s.mouse).1.toList
      events := s.events ++ (poll s.mouse).1.toList }

def accepted (s : Line) : List MouseByte := s.polled ++ s.mouse.input.queue.items

/-- The queue takes every byte of a packet whose first byte it took; of a packet whose first
byte it refused it takes only bytes that look like no first byte. -/
def InStep (s : Line) : Action → Prop
  | .irq => ∀ p ∈ s.pending.head?, s.position ≠ 0 →
      if s.headerKept then s.mouse.input.queue.isFull = false
      else s.mouse.input.queue.isFull = true ∨ isHeader (p.bytes s.position) = false
  | .poll => True

/-! ### Every run -/

theorem poll_assemble (m : MouseStatics) :
    assemble m.packetState (popMouseByte m).1.toList =
      ((poll m).2.packetState, (poll m).1.toList) ∧ (poll m).2.input = m.input.pop.2 := by
  cases hpop : m.input.pop.1 with
  | none => simp [poll, popMouseByte, hpop, assemble]
  | some byte => simp [poll, popMouseByte, hpop, assemble]

theorem conserves (s : Line) : s.mouse.input.queue.Conserves s.accepted s.polled := rfl

theorem accepted_poll (s : Line) : (s.step .poll).accepted = s.accepted := by
  have hpop := InputQueue.pop_conserves s.conserves
  simp only [step, accepted, (poll_assemble s.mouse).2, popMouseByte] at hpop ⊢
  exact hpop

theorem accepted_irq {s : Line} {p : MousePacket} {rest : List MousePacket}
    (hpending : s.pending = p :: rest) :
    (s.step .irq).accepted = s.accepted ++ s.mouse.input.accepts (p.bytes s.position) := by
  have hpush := InputQueue.push_conserves (p.bytes s.position) s.conserves
  simp only [step, hpending]
  exact hpush

structure Tracks (packets : List MousePacket) (s : Line) : Prop where
  inOrder : s.sent ++ s.pending = packets
  middle : s.position ≠ 0 → s.pending ≠ []
  polls : assemble initMouse.packetState s.polled = (s.mouse.packetState, s.events)
  whole : s.refused = 0 → s.accepted = s.sent.flatMap MousePacket.stream ++
    (s.pending.flatMap MousePacket.stream).take s.position

theorem tracks_start (packets : List MousePacket) : Tracks packets (start packets) where
  inOrder := rfl
  middle h := absurd rfl h
  polls := rfl
  whole _ := rfl

theorem Tracks.poll {packets : List MousePacket} {s : Line} (h : Tracks packets s) :
    Tracks packets (s.step .poll) where
  inOrder := h.inOrder
  middle := h.middle
  polls := by
    have hone := (poll_assemble s.mouse).1
    simp only [step, assemble_append, h.polls, hone]
  whole hrefused := (accepted_poll s).trans (h.whole hrefused)

theorem take_succ_stream (p : MousePacket) (rest : List MouseByte) (position : Fin 3) :
    (p.stream ++ rest).take position ++ [p.bytes position] =
      (p.stream ++ rest).take (position.val + 1) := by
  fin_cases position <;> rfl

theorem Tracks.irq {packets : List MousePacket} {s : Line} (h : Tracks packets s) :
    Tracks packets (s.step .irq) := by
  cases hpending : s.pending with
  | nil => simpa [step, hpending] using h
  | cons p rest =>
    have horder := h.inOrder
    rw [hpending] at horder
    have hpolls : assemble initMouse.packetState (s.step .irq).polled =
        ((s.step .irq).mouse.packetState, (s.step .irq).events) := by
      simpa [step, hpending, pushMouseByte] using h.polls
    -- while nothing is refused, the queue has taken one byte more of the current packet
    have hwhole : (s.step .irq).refused = 0 → (s.step .irq).accepted =
        s.sent.flatMap MousePacket.stream ++
          (p.stream ++ rest.flatMap MousePacket.stream).take (s.position.val + 1) := by
      intro hrefused
      cases hfull : s.mouse.input.queue.isFull with
      | true => simp [step, hpending, hfull] at hrefused
      | false =>
        have hnone : s.refused = 0 := by simpa [step, hpending, hfull] using hrefused
        rw [accepted_irq hpending, InputQueue.accepts, hfull, ← take_succ_stream,
          ← List.append_assoc, ← List.flatMap_cons, ← hpending, ← h.whole hnone]
        rfl
    by_cases hlast : s.position = 2
    · refine ⟨?_, ?_, hpolls, fun hrefused => ?_⟩
      · simpa [step, hpending, hlast] using horder
      · simp [step, hpending, hlast]
      · rw [hwhole hrefused]
        simp [step, hpending, hlast, MousePacket.stream]
    · have hnext : (s.position + 1).val = s.position.val + 1 := by
        have hlt := s.position.isLt
        rw [Fin.val_add_one_of_lt']
        omega
      refine ⟨?_, ?_, hpolls, fun hrefused => ?_⟩
      · simpa [step, hpending, hlast] using horder
      · simp [step, hpending, hlast]
      · rw [hwhole hrefused]
        simp [step, hpending, hlast, hnext]

/-- The parser holds the accepted part of the current packet, and nothing when the queue
refused its first byte. -/
def Expects (s : Line) (state : PacketState) : Prop :=
  if s.headerKept = true ∧ s.position ≠ 0 then
    state.index = s.position ∧ ∀ p ∈ s.pending.head?, ∀ i < s.position, state.bytes i = p.bytes i
  else state.index = 0

/-- The accepted bytes group into packets of the device. -/
def Aligned (s : Line) : Prop :=
  ∃ kept : List MousePacket, kept.Sublist s.sent ∧
    (assemble initMouse.packetState s.accepted).2 = kept.filterMap MousePacket.event ∧
    s.Expects (assemble initMouse.packetState s.accepted).1

theorem aligned_start (packets : List MousePacket) : Aligned (start packets) :=
  ⟨[], List.Sublist.refl [], rfl, by simp [Expects, start, accepted, assemble, initMouse,
    InputQueue.new]⟩

theorem Aligned.poll {s : Line} (h : s.Aligned) : (s.step .poll).Aligned := by
  obtain ⟨kept, hkept, hevents, hstate⟩ := h
  refine ⟨kept, hkept, ?_, ?_⟩
  · rw [accepted_poll, hevents]
  · rw [accepted_poll]
    exact hstate

/-- A refused byte: the parser is to see no more of this packet. -/
theorem Aligned.irq_full {s : Line} {p : MousePacket} {rest : List MousePacket} (h : s.Aligned)
    (hpending : s.pending = p :: rest) (hfull : s.mouse.input.queue.isFull = true)
    (hheader : s.position ≠ 0 → s.headerKept = false) : (s.step .irq).Aligned := by
  obtain ⟨kept, hkept, hevents, hstate⟩ := h
  have haccepted : (s.step .irq).accepted = s.accepted := by
    rw [accepted_irq hpending, InputQueue.accepts, if_pos hfull, List.append_nil]
  have hindex : (assemble initMouse.packetState s.accepted).1.index = 0 := by
    rw [Expects, if_neg] at hstate
    · exact hstate
    · rintro ⟨hkeep, hmiddle⟩
      simp [hheader hmiddle] at hkeep
  have hdropped : (s.step .irq).headerKept = false := by
    by_cases hzero : s.position = 0
    · simp [step, hpending, hzero, hfull]
    · simp [step, hpending, hzero, hheader hzero]
  refine ⟨kept, ?_, by rw [haccepted, hevents], ?_⟩
  · by_cases hlast : s.position = 2
    · simpa [step, hpending, hlast] using hkept.trans (List.sublist_append_left s.sent [p])
    · simpa [step, hpending, hlast] using hkept
  · rw [haccepted, Expects, if_neg (by simp [hdropped])]
    exact hindex

theorem accepted_irq_room {s : Line} {p : MousePacket} {rest : List MousePacket}
    (hpending : s.pending = p :: rest) (hroom : s.mouse.input.queue.isFull = false) :
    (s.step .irq).accepted = s.accepted ++ [p.bytes s.position] := by
  rw [accepted_irq hpending, InputQueue.accepts, if_neg (by simp [hroom])]

theorem filterMap_event (p : MousePacket) :
    [p].filterMap MousePacket.event = (decodePacket p.bytes).toList := by
  cases hevent : decodePacket p.bytes with
  | none => simp [MousePacket.event, hevent]
  | some event => simp [MousePacket.event, hevent]

section Accepted
variable {s : Line} {p : MousePacket} {rest : List MousePacket}

theorem Aligned.irq_header (h : s.Aligned) (hpending : s.pending = p :: rest)
    (hroom : s.mouse.input.queue.isFull = false) (hzero : s.position = 0) :
    (s.step .irq).Aligned := by
  obtain ⟨kept, hkept, hevents, hstate⟩ := h
  have hindex : (assemble initMouse.packetState s.accepted).1.index = 0 := by
    simpa [Expects, hzero] using hstate
  rw [Aligned, accepted_irq_room hpending hroom, assemble_snoc, hzero, accept_start hindex p.header]
  refine ⟨kept, ?_, ?_, ?_⟩
  · simpa [step, hpending, hzero] using hkept
  · simpa using hevents
  · simp only [Expects, step, hpending, hzero, hroom]
    refine ⟨rfl, fun q hq i hi => ?_⟩
    obtain rfl : p = q := by simpa using hq
    fin_cases i
    · simp
    · exact absurd hi (by decide)
    · exact absurd hi (by decide)

/-- The second byte of a packet that the parser holds the first byte of. -/
theorem Aligned.irq_middle (h : s.Aligned) (hpending : s.pending = p :: rest)
    (hroom : s.mouse.input.queue.isFull = false) (hkeep : s.headerKept = true)
    (hone : s.position = 1) : (s.step .irq).Aligned := by
  obtain ⟨kept, hkept, hevents, hstate⟩ := h
  rw [Expects, if_pos ⟨hkeep, by simp [hone]⟩] at hstate
  obtain ⟨hindex, hbytes⟩ := hstate
  replace hbytes := hbytes p (by simp [hpending])
  rw [hone] at hindex hbytes
  rw [Aligned, accepted_irq_room hpending hroom, assemble_snoc, hone, accept_middle hindex]
  refine ⟨kept, ?_, ?_, ?_⟩
  · simpa [step, hpending, hone] using hkept
  · simpa using hevents
  · have hfirst := hbytes 0 (by decide)
    simp only [Expects, step, hpending, hone, hkeep]
    refine ⟨rfl, fun q hq i hi => ?_⟩
    obtain rfl : p = q := by simpa using hq
    fin_cases i
    · simpa using hfirst
    · simp
    · exact absurd hi (by decide)

theorem Aligned.irq_last (h : s.Aligned) (hpending : s.pending = p :: rest)
    (hroom : s.mouse.input.queue.isFull = false) (hkeep : s.headerKept = true)
    (hlast : s.position = 2) : (s.step .irq).Aligned := by
  obtain ⟨kept, hkept, hevents, hstate⟩ := h
  rw [Expects, if_pos ⟨hkeep, by simp [hlast]⟩] at hstate
  obtain ⟨hindex, hbytes⟩ := hstate
  replace hbytes := hbytes p (by simp [hpending])
  rw [hlast] at hindex hbytes
  have hpacket : Function.update (assemble initMouse.packetState s.accepted).1.bytes 2
      (p.bytes 2) = p.bytes := by
    funext i
    fin_cases i
    · simpa using hbytes 0 (by decide)
    · simpa using hbytes 1 (by decide)
    · simp
  rw [Aligned, accepted_irq_room hpending hroom, assemble_snoc, hlast, accept_last hindex, hpacket]
  refine ⟨kept ++ [p], ?_, ?_, ?_⟩
  · simpa [step, hpending, hlast] using hkept.append_right [p]
  · rw [hevents, List.filterMap_append, filterMap_event]
  · simp [Expects, step, hpending, hlast]

/-- The rest of a packet whose first byte was refused is skipped. -/
theorem Aligned.irq_skipped (h : s.Aligned) (hpending : s.pending = p :: rest)
    (hroom : s.mouse.input.queue.isFull = false) (hzero : s.position ≠ 0)
    (hdropped : s.headerKept = false) (hheader : isHeader (p.bytes s.position) = false) :
    (s.step .irq).Aligned := by
  obtain ⟨kept, hkept, hevents, hstate⟩ := h
  have hindex : (assemble initMouse.packetState s.accepted).1.index = 0 := by
    simpa [Expects, hdropped] using hstate
  rw [Aligned, accepted_irq_room hpending hroom, assemble_snoc, accept_skip hindex hheader]
  refine ⟨kept, ?_, ?_, ?_⟩
  · by_cases hlast : s.position = 2
    · simpa [step, hpending, hlast] using hkept.trans (List.sublist_append_left s.sent [p])
    · simpa [step, hpending, hlast] using hkept
  · simpa using hevents
  · simpa [Expects, step, hpending, hzero, hdropped] using hindex

theorem Aligned.irq_room (h : s.Aligned) (hpending : s.pending = p :: rest)
    (hroom : s.mouse.input.queue.isFull = false)
    (hheader : s.position ≠ 0 → s.headerKept = false → isHeader (p.bytes s.position) = false) :
    (s.step .irq).Aligned := by
  by_cases hzero : s.position = 0
  · exact h.irq_header hpending hroom hzero
  · cases hkeep : s.headerKept with
    | false => exact h.irq_skipped hpending hroom hzero hkeep (hheader hzero hkeep)
    | true =>
      by_cases hlast : s.position = 2
      · exact h.irq_last hpending hroom hkeep hlast
      · have hone : s.position = 1 := by
          generalize s.position = position at hzero hlast
          fin_cases position <;> simp_all
        exact h.irq_middle hpending hroom hkeep hone

end Accepted

theorem Aligned.step {s : Line} (h : s.Aligned) (action : Action) (hguard : s.InStep action) :
    (s.step action).Aligned := by
  cases action with
  | poll => exact h.poll
  | irq =>
    cases hpending : s.pending with
    | nil => simpa [Line.step, hpending] using h
    | cons p rest =>
      replace hguard := hguard p (by simp [hpending])
      cases hfull : s.mouse.input.queue.isFull with
      | true =>
        refine h.irq_full hpending hfull fun hzero => ?_
        simpa [hfull] using hguard hzero
      | false =>
        refine h.irq_room hpending hfull fun hzero hdropped => ?_
        simpa [hfull, hdropped] using hguard hzero

/-- The events so far are the events of some first packets that the queue took whole. -/
theorem Aligned.events {packets : List MousePacket} {s : Line} (h : s.Aligned)
    (htracks : Tracks packets s) :
    ∃ kept : List MousePacket, kept.Sublist packets ∧ s.events = kept.filterMap MousePacket.event := by
  obtain ⟨kept, hkept, hevents, -⟩ := h
  have hprefix : s.events <+: kept.filterMap MousePacket.event := by
    rw [← hevents, accepted, assemble_append, htracks.polls]
    exact List.prefix_append _ _
  obtain ⟨first, hfirst, heq⟩ := List.prefix_filterMap_iff.mp hprefix
  refine ⟨first, ?_, heq⟩
  rw [← htracks.inOrder]
  exact hfirst.sublist.trans (hkept.trans (List.sublist_append_left s.sent s.pending))

/-- With nothing refused, the polled bytes are the first bytes of the packets. -/
theorem Tracks.events {packets : List MousePacket} {s : Line} (h : Tracks packets s)
    (hrefused : s.refused = 0) :
    s.events = (packets.take (s.polled.length / 3)).filterMap MousePacket.event := by
  have hevents : s.events = (assemble initMouse.packetState s.polled).2 := by rw [h.polls]
  rw [hevents]
  apply assemble_of_prefix rfl
  rw [← h.inOrder, List.flatMap_append]
  refine s.conserves.popped_first.trans ?_
  rw [h.whole hrefused]
  exact (List.prefix_append_right_inj _).mpr (List.take_prefix _ _)

end Line

open Line

/-- With every byte in step, the events are those of some packets, in the order of sending
and each at most once; with no byte refused, they are those of all packets polled so far. -/
theorem events_are_packets (packets : List MousePacket) (actions : List Action) :
    (Guarded step InStep (start packets) actions →
      ∃ kept : List MousePacket, kept.Sublist packets ∧
        (run step (start packets) actions).events = kept.filterMap MousePacket.event) ∧
    ((run step (start packets) actions).refused = 0 →
      (run step (start packets) actions).events =
        (packets.take ((run step (start packets) actions).polled.length / 3)).filterMap
          MousePacket.event) := by
  have htracks : Tracks packets (run step (start packets) actions) := by
    apply run_invariant _ (tracks_start packets)
    intro s action h
    cases action with
    | irq => exact h.irq
    | poll => exact h.poll
  refine ⟨fun hguard => ?_, htracks.events⟩
  have haligned : Aligned (run step (start packets) actions) :=
    guarded_invariant (fun s action h hstep => h.step action hstep) (aligned_start packets) hguard
  exact haligned.events htracks

instance (s : Line) (action : Action) : Decidable (s.InStep action) := by
  cases action with
  | irq => exact inferInstanceAs (Decidable (∀ p ∈ s.pending.head?, _))
  | poll => exact inferInstanceAs (Decidable True)

def still : MousePacket := ⟨![8, 0, 0], by decide⟩

/-- Two packets polled byte by byte. -/
theorem events_of_two_packets :
    ∃ kept : List MousePacket, kept.Sublist [still, still] ∧
      (run step (start [still, still]) (List.replicate 6 .irq ++ List.replicate 6 .poll)).events =
        kept.filterMap MousePacket.event := by
  refine (events_are_packets _ _).1 ?_
  simp only [List.replicate, List.cons_append, List.nil_append, Guarded]
  decide

/-- The queue takes the first byte of the 86th packet and refuses the other two: the
parser completes it with the first two bytes of the 87th. -/
theorem refused_tail_mixes_packets :
    ¬ ∃ kept : List MousePacket, kept.Sublist (List.replicate 87 still) ∧
      (run step (start (List.replicate 87 still)) (List.replicate 258 .irq ++
        List.replicate 256 .poll ++ List.replicate 2 .irq ++ List.replicate 2 .poll)).events =
        kept.filterMap MousePacket.event := by
  rintro ⟨kept, hkept, hevents⟩
  have hmixed : (run step (start (List.replicate 87 still)) (List.replicate 258 .irq ++
      List.replicate 256 .poll ++ List.replicate 2 .irq ++
      List.replicate 2 .poll)).events.any (fun event => event.dx = 8) = true := by
    decide +kernel
  obtain ⟨event, hmem, hdx⟩ := List.any_eq_true.mp hmixed
  rw [hevents] at hmem
  obtain ⟨p, hp, hevent⟩ := List.mem_filterMap.mp hmem
  obtain rfl := List.eq_of_mem_replicate (hkept.subset hp)
  have hstill : still.event = some ⟨0, 0, false, false, false⟩ := by decide
  rw [hstill] at hevent
  cases hevent
  simp at hdx

end AgnostOS.Mouse
