import AgnostOS.Library.StackMachine
import AgnostOS.TaskStack
import Mathlib.Tactic.NormNum

/-! Context switch of task/context.rs as a program over registers and stack words. The
assembly stands in the body of a compiled function, behind whatever its prologue pushed. -/
namespace AgnostOS.Tasks
open Globals StackMachine

inductive Register where
  | rsp | rbx | rbp | r12 | r13 | r14 | r15 | rdi | rsi
  deriving DecidableEq, Repr

abbrev Machine := State Register

def savedRegisters : List Register := [.rbx, .rbp, .r12, .r13, .r14, .r15]

def switchBlock : List (Instr Register) :=
  [.push .r15, .push .r14, .push .r13, .push .r12, .push .rbp, .push .rbx,
    .store .rdi .rsp,
    .load .rsp .rsi,
    .pop .rbx, .pop .rbp, .pop .r12, .pop .r13, .pop .r14, .pop .r15,
    .ret]

/-- A call of `switch` from the machine state s: the call pushes the address behind it, the
prologue of the compiled function its own words (the last one first in the list). -/
def switch (source target resume : Word) (prologue : List Word) (s : Machine) : Machine :=
  run .rsp switchBlock
    (((s.set .rdi source).set .rsi target).pushAll .rsp (prologue ++ [resume]))

/-- What `switch` asks of a destination: the callee-saved registers in order, followed by the
address to return to. -/
def Destination (m : ByteMemory) (stackPointer : Nat) (registers : List Word) (resume : Word) :
    Prop :=
  registers.length = 6 ∧ HoldsAt m stackPointer (registers ++ [resume])

variable {s t : Machine} {source target resume : Word} {prologue : List Word}

def frameWords (s : Machine) (resume : Word) (prologue : List Word) : List Word :=
  savedRegisters.map s.regs ++ (prologue ++ [resume])

def savedPointer (s : Machine) (prologue : List Word) : Nat :=
  (s.regs .rsp).toNat - 8 * (prologue.length + 7)

structure Live (s : Machine) (source : Word) (prologue : List Word) : Prop where
  room : 8 * (prologue.length + 7) ≤ (s.regs .rsp).toNat
  context : source.toNat + 8 ≤ savedPointer s prologue ∨ (s.regs .rsp).toNat ≤ source.toNat

def saved (source target resume : Word) (prologue : List Word) (s : Machine) : Machine :=
  run .rsp [.store .rdi .rsp, .load .rsp .rsi]
    (((s.set .rdi source).set .rsi target).pushAll .rsp (frameWords s resume prologue))

theorem frameWords_length : (frameWords s resume prologue).length = prologue.length + 7 := by
  simp [frameWords, savedRegisters]

/-- The pushes of the block complete the frame, its pops and the return take one apart. -/
theorem switch_eq (source target resume : Word) (prologue : List Word) (s : Machine) :
    switch source target resume prologue s =
      run .rsp (savedRegisters.map .pop ++ [.ret]) (saved source target resume prologue s) := by
  have hblock : switchBlock = savedRegisters.reverse.map .push ++
      ([.store .rdi .rsp, .load .rsp .rsi] ++ (savedRegisters.map .pop ++ [.ret])) := rfl
  have hregs : savedRegisters.map (((s.set .rdi source).set .rsi target).pushAll .rsp
      (prologue ++ [resume])).regs = savedRegisters.map s.regs := by
    apply List.map_congr_left
    intro r hr
    have hother : r ≠ .rsp ∧ r ≠ .rdi ∧ r ≠ .rsi := by
      revert r
      decide
    rw [State.pushAll_regs hother.1, State.set_other hother.2.2, State.set_other hother.2.1]
  rw [switch, hblock, run_append, run_append, (run_pushes (by decide) _).1, hregs, saved, frameWords,
    State.pushAll_append (savedRegisters.map s.regs)]

structure Saves (source target : Word) (s t : Machine) (frame : List Word) (pointer : Nat) :
    Prop where
  frame : HoldsAt t.memory pointer frame
  context : t.memory.read source.toNat 8 = pointer
  outside : ∀ b, (b < pointer ∨ (s.regs .rsp).toNat ≤ b) →
    (b < source.toNat ∨ source.toNat + 8 ≤ b) → t.memory b = s.memory b
  stackPointer : t.regs .rsp = readWord t.memory target

theorem saved_saves (hlive : Live s source prologue) (target resume : Word) :
    Saves source target s (saved source target resume prologue s) (frameWords s resume prologue)
      (savedPointer s prologue) := by
  have hroom := hlive.room
  have hapart := hlive.context
  set entry := (s.set .rdi source).set .rsi target with hentry
  set p := entry.pushAll .rsp (frameWords s resume prologue) with hp
  have hstack : entry.regs .rsp = s.regs .rsp := rfl
  have hpushed : Pushed .rsp entry p (frameWords s resume prologue) :=
    pushed_pushAll (by rw [frameWords_length]; exact hroom)
  have hpointer := hpushed.pointer
  rw [frameWords_length, hstack] at hpointer
  have hsaved : (p.regs .rsp).toNat = savedPointer s prologue := by
    rw [savedPointer]
    omega
  have hsource : p.regs .rdi = source := State.pushAll_regs (by decide) _ entry
  have htarget : p.regs .rsi = target := State.pushAll_regs (by decide) _ entry
  have hexchange := @run_exchange Register _ .rsp .rdi .rsi p
  have hmemory : (saved source target resume prologue s).memory =
      p.memory.write source.toNat 8 (savedPointer s prologue) := by
    rw [saved, ← hentry, ← hp, hexchange.1, writeWord, hsource, hsaved]
  have hlength : (frameWords s resume prologue).length = prologue.length + 7 := frameWords_length
  refine ⟨?_, ?_, fun b hb hslot => ?_, ?_⟩
  · rw [hmemory, ← hsaved]
    apply hpushed.holds.congr
    intro b hlo hhi
    rw [hsaved] at hlo hhi
    rw [ByteMemory.write_outside _ _ (by omega)]
  · rw [hmemory]
    apply ByteMemory.read_write_same
    have hlt := (p.regs .rsp).isLt
    omega
  · rw [hmemory, ByteMemory.write_outside _ _ (by omega)]
    exact hpushed.outside b (by rw [hsaved, hentry]; exact hb)
  · rw [saved, ← hentry, ← hp, hexchange.2, htarget, hexchange.1]

/-- The load half takes the registers and the return address from the stack of the target. -/
theorem switch_loads {words : List Word} {next : Word} {pointer : Nat}
    (hlength : words.length = 6) (hfits : pointer + 56 < 2 ^ 64)
    (hpointer : (saved source target resume prologue s).regs .rsp = BitVec.ofNat 64 pointer)
    (hholds : HoldsAt (saved source target resume prologue s).memory pointer (words ++ [next])) :
    (switch source target resume prologue s).pc = next ∧
      savedRegisters.map (switch source target resume prologue s).regs = words ∧
      ((switch source target resume prologue s).regs .rsp).toNat = pointer + 56 := by
  have haddress : ((saved source target resume prologue s).regs .rsp).toNat = pointer := by
    rw [hpointer, BitVec.toNat_ofNat, Nat.mod_eq_of_lt (by omega)]
  rw [switch_eq]
  have hrun := @run_pops_ret Register _ .rsp (saved source target resume prologue s) savedRegisters
    words next (by decide) (by decide) hlength.symm (by rw [haddress]; exact hfits)
    (by rw [haddress]; exact hholds)
  rw [haddress] at hrun
  exact hrun

theorem switch_memory (source target resume : Word) (prologue : List Word) (s : Machine) :
    (switch source target resume prologue s).memory =
      (saved source target resume prologue s).memory := by
  rw [switch_eq, run_pops_ret_memory]

theorem savedPointer_add (hlive : Live s source prologue) :
    savedPointer s prologue + 8 * (prologue.length + 7) = (s.regs .rsp).toNat := by
  have hroom := hlive.room
  rw [savedPointer]
  omega

structure Apart (s : Machine) (source target : Word) (prologue : List Word) (lo hi : Nat) :
    Prop where
  stack : (s.regs .rsp).toNat ≤ lo ∨ hi ≤ savedPointer s prologue
  context : source.toNat + 8 ≤ lo ∨ hi ≤ source.toNat
  targetStack : (s.regs .rsp).toNat ≤ target.toNat ∨ target.toNat + 8 ≤ savedPointer s prologue
  targetContext : source.toNat + 8 ≤ target.toNat ∨ target.toNat + 8 ≤ source.toNat

/-- A switch enters a frame that its own call does not write to. -/
theorem switch_enters (hlive : Live s source prologue) {lo hi pointer : Nat}
    (hapart : Apart s source target prologue lo hi) (hlo : lo ≤ pointer) (hhi : pointer + 56 ≤ hi)
    (hfits : hi < 2 ^ 64) (hcontext : s.memory.read target.toNat 8 = pointer) {words : List Word}
    {next : Word} (hlength : words.length = 6)
    (hholds : HoldsAt s.memory pointer (words ++ [next])) :
    Destination (switch source target resume prologue s).memory pointer words next ∧
      (switch source target resume prologue s).pc = next ∧
      savedRegisters.map (switch source target resume prologue s).regs = words ∧
      ((switch source target resume prologue s).regs .rsp).toNat = pointer + 56 := by
  have hsaves := saved_saves hlive target resume
  obtain ⟨hstack, hown, htarget, hslots⟩ := hapart
  have hkept : HoldsAt (saved source target resume prologue s).memory pointer (words ++ [next]) := by
    apply hholds.congr
    intro b hlo' hhi'
    rw [List.length_append, hlength, List.length_singleton] at hhi'
    exact (hsaves.outside b (by omega) (by omega)).symm
  have hread : (saved source target resume prologue s).memory.read target.toNat 8 = pointer := by
    rw [← hcontext]
    apply ByteMemory.read_congr
    intro b hlo' hhi'
    exact hsaves.outside b (by omega) (by omega)
  have hpointer : (saved source target resume prologue s).regs .rsp = BitVec.ofNat 64 pointer := by
    rw [hsaves.stackPointer, readWord, hread]
  have hloads := switch_loads hlength (by omega) hpointer hkept
  rw [Destination, switch_memory]
  exact ⟨⟨hlength, hkept⟩, hloads⟩

/-! ### Away and back -/

structure Resumes (s t : Machine) (resume : Word) : Prop where
  pc : t.pc = resume
  registers : savedRegisters.map t.regs = savedRegisters.map s.regs
  stackPointer : t.regs .rsp = s.regs .rsp

/-- Since machine s switched from context a to b, other code left the live stack and the context
of the task alone, and so does the call by which it now switches from context c back to a. -/
structure Undisturbed (s : Machine) (a b resume : Word) (prologue : List Word)
    (later : Machine) (c : Word) (prologue' : List Word) : Prop where
  stack : ∀ address, savedPointer s prologue ≤ address → address < (s.regs .rsp).toNat →
    later.memory address = (switch a b resume prologue s).memory address
  context : ∀ address, a.toNat ≤ address → address < a.toNat + 8 →
    later.memory address = (switch a b resume prologue s).memory address
  live : Live later c prologue'
  apart : Apart later c a prologue' (savedPointer s prologue) (s.regs .rsp).toNat

/-- The switch back takes the word behind the six registers for the return address, and leaves
the words behind it on the stack. -/
theorem Undisturbed.resumed {a b c word : Word} {words : List Word} {later : Machine}
    {prologue' : List Word} (resume' : Word) (h : Undisturbed s a b resume prologue later c prologue')
    (hlive : Live s a prologue) (hwords : prologue ++ [resume] = word :: words) :
    (switch c a resume' prologue' later).pc = word ∧
      savedRegisters.map (switch c a resume' prologue' later).regs =
        savedRegisters.map s.regs ∧
      ((switch c a resume' prologue' later).regs .rsp).toNat + 8 * words.length =
        (s.regs .rsp).toNat := by
  have hsaves := saved_saves hlive b resume
  have hpointer := savedPointer_add hlive
  have hlength := congrArg List.length hwords
  simp only [List.length_append, List.length_cons, List.length_nil] at hlength
  have hframe : HoldsAt later.memory (savedPointer s prologue) (frameWords s resume prologue) := by
    apply hsaves.frame.congr
    intro address hlo hhi
    rw [frameWords_length, hpointer] at hhi
    rw [h.stack address hlo hhi, switch_memory]
  have hcontext : later.memory.read a.toNat 8 = savedPointer s prologue := by
    rw [← hsaves.context]
    apply ByteMemory.read_congr
    intro address hlo hhi
    rw [h.context address hlo hhi, switch_memory]
  rw [frameWords, hwords, ← List.singleton_append, ← List.append_assoc, holdsAt_append] at hframe
  have henters : _ ∧ (switch c a resume' prologue' later).pc = word ∧ _ ∧ _ :=
    switch_enters h.live h.apart le_rfl (by omega) (s.regs .rsp).isLt hcontext
      (by simp [savedRegisters]) hframe.1
  exact ⟨henters.2.1, henters.2.2.1, by omega⟩

/-! ### The first frame of a task -/

theorem top_eq {address : Nat} (haligned : 16 ∣ address) (hfits : address + TASK_STACK_SIZE < 2 ^ 64) :
    TaskStack.top address = address + TASK_STACK_SIZE := by
  have hround := Word.and_complement_two_pow (k := 4) hfits (by decide)
  have hsize : TASK_STACK_SIZE = 16 * 256 := rfl
  refine hround.trans ?_
  rw [hsize]
  omega

theorem copyWords_outside (bytes : ByteMemory) {offset b : Nat} (words : List Nat)
    (h : b < offset ∨ offset + 8 * words.length ≤ b) :
    TaskStack.copyWords bytes offset words b = bytes b := by
  induction words generalizing bytes offset with
  | nil => rfl
  | cons word words ih =>
    rw [List.length_cons] at h
    rw [TaskStack.copyWords, ih _ (by omega), ByteMemory.write_outside _ _ (by omega)]

theorem copyWords_holds (bytes : ByteMemory) (offset : Nat) (words : List Nat) :
    HoldsAt (TaskStack.copyWords bytes offset words) offset (words.map (BitVec.ofNat 64)) := by
  induction words generalizing bytes offset with
  | nil => trivial
  | cons word words ih =>
    refine ⟨?_, ih _ _⟩
    have hkept : (TaskStack.copyWords (bytes.write offset 8 word) (offset + 8) words).read offset 8 =
        (bytes.write offset 8 word).read offset 8 := by
      apply ByteMemory.read_congr
      intro b _ hhi
      exact copyWords_outside _ words (.inl hhi)
    have hpow : 256 ^ 8 = 2 ^ 64 := by norm_num
    rw [TaskStack.copyWords, hkept, ByteMemory.read_write_mod, BitVec.toNat_ofNat, hpow]

def initialRegisters (context : TaskContext) : List Word :=
  [context.rbx, context.rbp, context.r12, context.r13, context.r14, context.r15].map
    (BitVec.ofNat 64)

variable {address : Nat}

/-- The first frame takes up the last seven words below the top of the stack. -/
theorem initializeFrame_spec (self : TaskStack) (trampoline : Nat) (context : TaskContext)
    (haligned : 16 ∣ address) (hfits : address + TASK_STACK_SIZE < 2 ^ 64) :
    (self.initializeFrame address trampoline context).1 + 56 = address + TASK_STACK_SIZE ∧
      HoldsAt (self.initializeFrame address trampoline context).2.bytes (TASK_STACK_SIZE - 56)
        (initialRegisters context ++ [BitVec.ofNat 64 trampoline]) := by
  have hsize : TASK_STACK_SIZE = 4096 := rfl
  have hwords : STACK_FRAME_WORDS * 8 = 56 := rfl
  have hoffset : address + TASK_STACK_SIZE - 56 - address = TASK_STACK_SIZE - 56 := by omega
  simp only [TaskStack.initializeFrame, top_eq haligned hfits, hwords]
  rw [hoffset]
  refine ⟨by omega, ?_⟩
  exact copyWords_holds self.bytes _ [context.rbx, context.rbp, context.r12, context.r13,
    context.r14, context.r15, trampoline]

/-- The frame that `initialize_frame` writes lies inside the stack, and a switch to it enters the
trampoline with the registers of the context on an otherwise empty stack. -/
def StartsTask (self : TaskStack) (address trampoline : Nat) (context : TaskContext) : Prop :=
  let frame := self.initializeFrame address trampoline context
  (address ≤ frame.1 ∧ frame.1 + 8 * STACK_FRAME_WORDS ≤ address + TASK_STACK_SIZE) ∧
  ∀ (s : Machine) (source target resume : Word) (prologue : List Word), Live s source prologue →
    (∀ i, i < TASK_STACK_SIZE → s.memory (address + i) = frame.2.bytes i) →
    s.memory.read target.toNat 8 = frame.1 →
    Apart s source target prologue address (address + TASK_STACK_SIZE) →
    Destination (switch source target resume prologue s).memory frame.1 (initialRegisters context)
        (BitVec.ofNat 64 trampoline) ∧
      (switch source target resume prologue s).pc = BitVec.ofNat 64 trampoline ∧
      savedRegisters.map (switch source target resume prologue s).regs = initialRegisters context ∧
      ((switch source target resume prologue s).regs .rsp).toNat = TaskStack.top address

theorem initializeFrame_starts (self : TaskStack) (trampoline : Nat) (context : TaskContext)
    (haligned : 16 ∣ address) (hfits : address + TASK_STACK_SIZE < 2 ^ 64) :
    StartsTask self address trampoline context := by
  have hframe := initializeFrame_spec self trampoline context haligned hfits
  have hsize : TASK_STACK_SIZE = 4096 := rfl
  have hwords : 8 * STACK_FRAME_WORDS = 56 := rfl
  refine ⟨by omega, ?_⟩
  intro s source target resume prologue hlive hbytes hcontext hapart
  rw [top_eq haligned hfits, ← hframe.1]
  apply switch_enters hlive hapart (by omega) (by omega) hfits hcontext rfl
  have hpointer : (self.initializeFrame address trampoline context).1 =
      address + (TASK_STACK_SIZE - 56) := by omega
  rw [hpointer]
  apply holdsAt_shift hframe.2
  intro b _ hhi
  apply hbytes
  simp [initialRegisters] at hhi
  omega

/-- Away and back brings a task to where it was, on the registers and the stack that it had, if
and only if the prologue of `switch` pushes nothing; a fresh task starts in any case. -/
theorem switch_back_iff {a b c resume' : Word} {later : Machine} {prologue' : List Word}
    (hlive : Live s a prologue) (hlater : Undisturbed s a b resume prologue later c prologue') :
    ((Destination (switch a b resume prologue s).memory
          ((switch a b resume prologue s).memory.read a.toNat 8) (savedRegisters.map s.regs) resume ∧
        Resumes s (switch c a resume' prologue' later) resume) ∧
      ∀ self address trampoline context, 16 ∣ address → address + TASK_STACK_SIZE < 2 ^ 64 →
        StartsTask self address trampoline context) ↔ prologue = [] := by
  have hsaves := saved_saves hlive b resume
  constructor
  · intro hmeets
    cases prologue with
    | nil => rfl
    | cons word words =>
      -- the words of the prologue are still on the stack that the task comes back to
      have hback := hlater.resumed resume' hlive (List.cons_append ..)
      have hpointer := hback.2.2
      rw [hmeets.1.2.stackPointer, List.length_append, List.length_singleton] at hpointer
      omega
  · intro hnone
    subst hnone
    have hback := hlater.resumed resume' hlive (List.nil_append [resume])
    have hframe := hsaves.frame
    rw [frameWords, List.nil_append, ← hsaves.context, ← switch_memory] at hframe
    have hpointer := hback.2.2
    rw [List.length_nil, Nat.mul_zero, Nat.add_zero] at hpointer
    refine ⟨⟨⟨by simp [savedRegisters], hframe⟩, hback.1, hback.2.1, ?_⟩, ?_⟩
    · exact BitVec.eq_of_toNat_eq hpointer
    · intro self address trampoline context haligned hfits
      exact initializeFrame_starts self trampoline context haligned hfits

/-- A task on a stack that ends at 0x2000, and another one waiting below 0x4000 with its context
at 0x9000. -/
def twoTasks : Machine where
  regs r := if r = .rsp then 0x2000 else 7
  pc := 0x400000
  memory := ByteMemory.write (ByteMemory.write (fun _ => 0) 0x9000 8 0x3fc8) 0x3ff8 8 0x402000

theorem twoTasks_undisturbed (hshort : prologue.length ≤ 1)
    (hstack : (switch 0x8000 0x9000 0x401000 prologue twoTasks).regs .rsp = 0x4000) :
    Live twoTasks 0x8000 prologue ∧ Undisturbed twoTasks 0x8000 0x9000 0x401000 prologue
      (switch 0x8000 0x9000 0x401000 prologue twoTasks) 0x9000 prologue := by
  have hfirst : (twoTasks.regs .rsp).toNat = 0x2000 := rfl
  have ha : (0x8000 : Word).toNat = 0x8000 := rfl
  have hc : (0x9000 : Word).toNat = 0x9000 := rfl
  have hlast : (0x4000 : Word).toNat = 0x4000 := rfl
  refine ⟨⟨?_, ?_⟩, fun _ _ _ => rfl, fun _ _ _ => rfl, ⟨?_, ?_⟩, ⟨?_, ?_, ?_, ?_⟩⟩
  all_goals
    simp only [savedPointer, hstack, hfirst, ha, hc, hlast]
    omega

theorem switch_back_without_prologue :
    ((Destination (switch 0x8000 0x9000 0x401000 [] twoTasks).memory
          ((switch 0x8000 0x9000 0x401000 [] twoTasks).memory.read (0x8000 : Word).toNat 8)
          (savedRegisters.map twoTasks.regs) 0x401000 ∧
        Resumes twoTasks (switch 0x9000 0x8000 0x402000 []
          (switch 0x8000 0x9000 0x401000 [] twoTasks)) 0x401000) ∧
      ∀ self address trampoline context, 16 ∣ address → address + TASK_STACK_SIZE < 2 ^ 64 →
        StartsTask self address trampoline context) ↔ ([] : List Word) = [] := by
  have hscene := @twoTasks_undisturbed [] (by decide) (by decide +kernel)
  exact switch_back_iff hscene.1 hscene.2

/-- One word pushed by the prologue is taken for the address at which the task goes on. -/
theorem switch_back_to_pushed_word :
    let away := switch 0x8000 0x9000 0x401000 [0x77] twoTasks
    let back := switch 0x9000 0x8000 0x402000 [0x77] away
    Live twoTasks 0x8000 [0x77] ∧
      Undisturbed twoTasks 0x8000 0x9000 0x401000 [0x77] away 0x9000 [0x77] ∧
      away.pc = 0x402000 ∧ back.pc = 0x77 ∧ back.regs .rsp = 0x1ff8 ∧
      ¬ Destination away.memory (away.memory.read (0x8000 : Word).toNat 8)
        (savedRegisters.map twoTasks.regs) 0x401000 ∧ ¬ Resumes twoTasks back 0x401000 := by
  have hscene := @twoTasks_undisturbed [0x77] (by decide) (by decide +kernel)
  have hback : (switch 0x9000 0x8000 0x402000 [0x77]
      (switch 0x8000 0x9000 0x401000 [0x77] twoTasks)).pc = 0x77 := by decide +kernel
  refine ⟨hscene.1, hscene.2, by decide +kernel, hback, by decide +kernel, ?_, fun hresumes => ?_⟩
  · intro hframe
    have hword := hframe.2.2.2.2.2.2.2.1
    revert hword
    decide +kernel
  · have hpc := hback.symm.trans hresumes.pc
    revert hpc
    decide

end AgnostOS.Tasks
