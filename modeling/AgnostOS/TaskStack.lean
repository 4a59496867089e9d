import AgnostOS.Globals
import AgnostOS.Library.ByteMemory
import AgnostOS.Library.Word

/-! Saved contexts and stacks of kernel tasks, task/context.rs and task/stack.rs. -/
namespace AgnostOS.Tasks
open Globals Word

structure TaskContext where
  stackPointer : Nat
  rbx : Nat
  rbp : Nat
  r12 : Nat
  r13 : Nat
  r14 : Nat
  r15 : Nat
  deriving DecidableEq, Repr

def TaskContext.new : TaskContext := ⟨0, 0, 0, 0, 0, 0, 0⟩

structure TaskStack where
  bytes : ByteMemory

namespace TaskStack

def new : TaskStack := ⟨fun _ => 0⟩

def top (address : Nat) : Nat := (address + TASK_STACK_SIZE) &&& complement 64 15

def copyWords (bytes : ByteMemory) (offset : Nat) : List Nat → ByteMemory
  | [] => bytes
  | word :: words => copyWords (bytes.write offset 8 word) (offset + 8) words

/-- Builds the frame that `switch` consumes; `trampoline` is the address of
`task_trampoline`. -/
def initializeFrame (self : TaskStack) (address trampoline : Nat) (context : TaskContext) :
    Nat × TaskStack :=
  let stackPointer := top address - STACK_FRAME_WORDS * 8
  let frame := [context.rbx, context.rbp, context.r12, context.r13, context.r14, context.r15,
    trampoline]
  (stackPointer, ⟨copyWords self.bytes (stackPointer - address) (frame.take STACK_FRAME_WORDS)⟩)

end TaskStack
end AgnostOS.Tasks
