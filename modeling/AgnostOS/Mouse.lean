import AgnostOS.InputQueue
import Mathlib.Data.Fintype.Basic

/-! The mouse path of mouse/mod.rs: byte queue, packet assembly and decoding. -/
namespace AgnostOS.Mouse
open Input

abbrev MouseByte := UInt8

instance packetLength : NeZero 3 := ⟨by decide⟩

structure PacketState where
  bytes : Fin 3 → MouseByte
  index : Fin 3
  deriving DecidableEq

structure MouseEvent where
  dx : Int
  dy : Int
  left : Bool
  right : Bool
  middle : Bool
  deriving DecidableEq, Repr

def isHeader (byte : MouseByte) : Bool := byte &&& 0b00001000 ≠ 0

def overflows (flags : MouseByte) : Bool := flags &&& 0b11000000 ≠ 0

def decodePacket (packet : Fin 3 → MouseByte) : Option MouseEvent :=
  let flags := packet 0
  if overflows flags then none
  else
    let dx : Int := (packet 1).toNat
    let dy : Int := (packet 2).toNat
    -- the sign bits of both movements travel in the first byte
    let dx := if flags &&& 0b00010000 ≠ 0 then dx - 256 else dx
    let dy := if flags &&& 0b00100000 ≠ 0 then dy - 256 else dy
    some {
      dx := dx
      dy := -dy
      left := flags &&& 0b00000001 ≠ 0
      right := flags &&& 0b00000010 ≠ 0
      middle := flags &&& 0b00000100 ≠ 0 }

structure MouseStatics where
  input : InputQueue MouseByte
  packetState : PacketState

def initMouse : MouseStatics := ⟨.new, ⟨fun _ => 0, 0⟩⟩

def pushMouseByte (m : MouseStatics) (code : MouseByte) : MouseStatics :=
  { m with input := m.input.push code }

def popMouseByte (m : MouseStatics) : Option MouseByte × MouseStatics :=
  (m.input.pop.1, { m with input := m.input.pop.2 })

def mouseQueueIsEmpty (m : MouseStatics) : Bool := m.input.queue.isEmpty

def PacketState.accept (state : PacketState) (byte : MouseByte) : Option MouseEvent × PacketState :=
  -- out of step with the device: wait for a byte that can start a packet
  if state.index = 0 ∧ isHeader byte = false then (none, state)
  else
    let bytes := Function.update state.bytes state.index byte
    if h : state.index.val + 1 < 3 then (none, ⟨bytes, ⟨state.index.val + 1, h⟩⟩)
    else (decodePacket bytes, ⟨bytes, 0⟩)

def poll (m : MouseStatics) : Option MouseEvent × MouseStatics :=
  match popMouseByte m with
  | (none, m) => (none, m)
  | (some byte, m) =>
    let (event, packetState) := m.packetState.accept byte
    (event, { m with packetState := packetState })

end AgnostOS.Mouse
