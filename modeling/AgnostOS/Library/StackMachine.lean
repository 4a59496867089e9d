import AgnostOS.Library.ByteMemory
import Mathlib.Data.List.Basic

/-! A machine of 64-bit registers with a stack that grows downwards in byte memory. -/
namespace StackMachine

abbrev Word := BitVec 64

structure State (R : Type*) where
  regs : R → Word
  pc : Word
  memory : ByteMemory

inductive Instr (R : Type*) where
  | push (r : R)
  | pop (r : R)
  | store (address source : R)
  | load (target address : R)
  | ret

variable {R : Type*} [DecidableEq R]

def readWord (m : ByteMemory) (a : Word) : Word := BitVec.ofNat 64 (m.read a.toNat 8)
def writeWord (m : ByteMemory) (a v : Word) : ByteMemory := m.write a.toNat 8 v.toNat

namespace State

def set (s : State R) (r : R) (v : Word) : State R := { s with regs := Function.update s.regs r v }

def push (sp : R) (s : State R) (v : Word) : State R :=
  { s.set sp (s.regs sp - 8) with memory := writeWord s.memory (s.regs sp - 8) v }

def pop (sp : R) (s : State R) : Word × State R :=
  (readWord s.memory (s.regs sp), s.set sp (s.regs sp + 8))

/-- Pushes words, the first one last, so that they stand in this order from the stack pointer. -/
def pushAll (sp : R) (s : State R) : List Word → State R
  | [] => s
  | word :: words => (s.pushAll sp words).push sp word

end State

def exec (sp : R) (s : State R) : Instr R → State R
  | .push r => s.push sp (s.regs r)
  | .pop r => (s.pop sp).2.set r (s.pop sp).1
  | .store address source =>
    { s with memory := writeWord s.memory (s.regs address) (s.regs source) }
  | .load target address => s.set target (readWord s.memory (s.regs address))
  | .ret => { (s.pop sp).2 with pc := (s.pop sp).1 }

def run (sp : R) (program : List (Instr R)) (s : State R) : State R := program.foldl (exec sp) s

def HoldsAt (m : ByteMemory) : Nat → List Word → Prop
  | _, [] => True
  | a, word :: words => m.read a 8 = word.toNat ∧ HoldsAt m (a + 8) words

variable {sp : R} {s : State R} {m m' : ByteMemory}

@[simp] theorem State.set_same (s : State R) (r : R) (v : Word) : (s.set r v).regs r = v :=
  Function.update_self ..

theorem State.set_other {r r' : R} (h : r' ≠ r) (s : State R) (v : Word) :
    (s.set r v).regs r' = s.regs r' := Function.update_of_ne h ..

@[simp] theorem State.set_memory (s : State R) (r : R) (v : Word) : (s.set r v).memory = s.memory :=
  rfl

theorem exec_ret (s : State R) : exec sp s .ret =
    { s.set sp (s.regs sp + 8) with pc := readWord s.memory (s.regs sp) } := rfl

theorem run_append (first second : List (Instr R)) (s : State R) :
    run sp (first ++ second) s = run sp second (run sp first s) := List.foldl_append

theorem holdsAt_append {a : Nat} {first second : List Word} :
    HoldsAt m a (first ++ second) ↔ HoldsAt m a first ∧ HoldsAt m (a + 8 * first.length) second := by
  induction first generalizing a with
  | nil => simp [HoldsAt]
  | cons word first ih =>
    have haddress : a + 8 + 8 * first.length = a + 8 * (word :: first).length := by
      rw [List.length_cons]
      omega
    rw [List.cons_append, HoldsAt, HoldsAt, ih, haddress, and_assoc]

theorem HoldsAt.congr {a : Nat} {words : List Word} (h : HoldsAt m a words)
    (hsame : ∀ b, a ≤ b → b < a + 8 * words.length → m b = m' b) : HoldsAt m' a words := by
  induction words generalizing a with
  | nil => trivial
  | cons word words ih =>
    rw [List.length_cons] at hsame
    refine ⟨?_, ih h.2 fun b hlo hhi => hsame b (by omega) (by omega)⟩
    rw [← h.1]
    exact (ByteMemory.read_congr fun b hlo hhi => hsame b hlo (by omega)).symm

/-- Memories that hold the same words agree on their bytes. -/
theorem HoldsAt.byte_eq {a : Nat} {words : List Word} (h : HoldsAt m a words)
    (h' : HoldsAt m' a words) {b : Nat} (hlo : a ≤ b) (hhi : b < a + 8 * words.length) :
    m b = m' b := by
  induction words generalizing a with
  | nil =>
    rw [List.length_nil] at hhi
    omega
  | cons word words ih =>
    rw [List.length_cons] at hhi
    by_cases hfirst : b < a + 8
    · exact ByteMemory.byte_of_read (h.1.trans h'.1.symm) hlo hfirst
    · exact ih h.2 h'.2 (by omega) (by omega)

theorem holdsAt_shift {base a : Nat} {words : List Word}
    (h : HoldsAt m' a words) (hsame : ∀ b, a ≤ b → b < a + 8 * words.length → m (base + b) = m' b) :
    HoldsAt m (base + a) words := by
  induction words generalizing a with
  | nil => trivial
  | cons word words ih =>
    rw [List.length_cons] at hsame
    refine ⟨?_, ?_⟩
    · rw [← h.1]
      exact ByteMemory.read_shift fun b hlo hhi => hsame b hlo (by omega)
    · rw [Nat.add_assoc]
      exact ih h.2 fun b hlo hhi => hsame b (by omega) (by omega)

/-- Saving the stack pointer behind one register and loading it from behind another. -/
theorem run_exchange (address source : R) (s : State R) :
    (run sp [.store address sp, .load sp source] s).memory =
        writeWord s.memory (s.regs address) (s.regs sp) ∧
      (run sp [.store address sp, .load sp source] s).regs sp =
        readWord (writeWord s.memory (s.regs address) (s.regs sp)) (s.regs source) :=
  ⟨rfl, State.set_same ..⟩

/-! ### Pushing -/

theorem State.pushAll_append (first second : List Word) (s : State R) :
    s.pushAll sp (first ++ second) = (s.pushAll sp second).pushAll sp first := by
  induction first with
  | nil => rfl
  | cons word first ih => rw [List.cons_append, State.pushAll, State.pushAll, ih]

theorem State.pushAll_regs {r : R} (hr : r ≠ sp) (words : List Word) (s : State R) :
    (s.pushAll sp words).regs r = s.regs r := by
  induction words with
  | nil => rfl
  | cons word words ih => exact (Function.update_of_ne hr ..).trans ih

structure Pushed (sp : R) (s s' : State R) (words : List Word) : Prop where
  pointer : (s'.regs sp).toNat + 8 * words.length = (s.regs sp).toNat
  holds : HoldsAt s'.memory (s'.regs sp).toNat words
  outside : ∀ b, b < (s'.regs sp).toNat ∨ (s.regs sp).toNat ≤ b → s'.memory b = s.memory b

theorem pushed_pushAll {words : List Word} (hroom : 8 * words.length ≤ (s.regs sp).toNat) :
    Pushed sp s (s.pushAll sp words) words := by
  induction words with
  | nil => exact ⟨rfl, trivial, fun _ _ => rfl⟩
  | cons word words ih =>
    rw [List.length_cons] at hroom
    have hrest := ih (by omega)
    have hpointer := hrest.pointer
    have hsub : ((s.pushAll sp words).regs sp - 8).toNat + 8 =
        ((s.pushAll sp words).regs sp).toNat := by bv_omega
    have hregs : (s.pushAll sp (word :: words)).regs sp = (s.pushAll sp words).regs sp - 8 :=
      Function.update_self ..
    have hmemory : (s.pushAll sp (word :: words)).memory =
        (s.pushAll sp words).memory.write ((s.pushAll sp words).regs sp - 8).toNat 8 word.toNat := rfl
    refine ⟨?_, ⟨?_, ?_⟩, fun b hb => ?_⟩
    · rw [hregs, List.length_cons]
      omega
    · rw [hregs, hmemory]
      exact ByteMemory.read_write_same _ _ word.isLt
    · rw [hregs, hsub, hmemory]
      refine HoldsAt.congr hrest.holds fun b hlo _ => ?_
      exact (ByteMemory.write_outside _ _ (by omega)).symm
    · rw [hregs] at hb
      rw [hmemory, ByteMemory.write_outside _ _ (by omega)]
      exact hrest.outside b (by omega)

/-- Push instructions push what the registers hold, the last one on top. -/
theorem run_pushes {rs : List R} (hsp : sp ∉ rs) (s : State R) :
    run sp (rs.reverse.map .push) s = s.pushAll sp (rs.map s.regs) ∧
      ∀ r, r ≠ sp → (run sp (rs.reverse.map .push) s).regs r = s.regs r := by
  induction rs with
  | nil => exact ⟨rfl, fun _ _ => rfl⟩
  | cons r rs ih =>
    rw [List.mem_cons, not_or] at hsp
    have hrest := ih hsp.2
    have hstep : run sp ((r :: rs).reverse.map .push) s =
        (run sp (rs.reverse.map .push) s).push sp ((run sp (rs.reverse.map .push) s).regs r) := by
      rw [List.reverse_cons, List.map_append, run_append]
      rfl
    rw [hstep, hrest.2 r (Ne.symm hsp.1)]
    constructor
    · rw [hrest.1]
      rfl
    · intro r' hr'
      exact (Function.update_of_ne hr' ..).trans (hrest.2 r' hr')

/-! ### Popping -/

structure Popped (sp : R) (s s' : State R) (rs : List R) (words : List Word) : Prop where
  pointer : (s'.regs sp).toNat = (s.regs sp).toNat + 8 * rs.length
  loaded : rs.map s'.regs = words
  memory : s'.memory = s.memory
  regs : ∀ r, r ≠ sp → r ∉ rs → s'.regs r = s.regs r

theorem run_pops {rs : List R} {words : List Word} (hsp : sp ∉ rs) (hnodup : rs.Nodup)
    (hlen : rs.length = words.length) (hfits : (s.regs sp).toNat + 8 * rs.length < 2 ^ 64)
    (hholds : HoldsAt s.memory (s.regs sp).toNat words) :
    Popped sp s (run sp (rs.map .pop) s) rs words := by
  induction rs generalizing s words with
  | nil =>
    cases words with
    | nil => exact ⟨rfl, rfl, rfl, fun _ _ _ => rfl⟩
    | cons => cases hlen
  | cons r rs ih =>
    cases words with
    | nil => cases hlen
    | cons word words =>
      rw [List.mem_cons, not_or] at hsp
      rw [List.nodup_cons] at hnodup
      rw [List.length_cons] at hfits
      have hnext : exec sp s (.pop r) = (s.set sp (s.regs sp + 8)).set r word := by
        have hword : readWord s.memory (s.regs sp) = word := by
          rw [readWord, hholds.1, BitVec.ofNat_toNat, BitVec.setWidth_eq]
        rw [exec, State.pop, hword]
      have hpointer : ((exec sp s (.pop r)).regs sp).toNat = (s.regs sp).toNat + 8 := by
        rw [hnext, State.set_other hsp.1, State.set_same]
        bv_omega
      have hmemory : (exec sp s (.pop r)).memory = s.memory := rfl
      have hrest := ih (s := exec sp s (.pop r)) hsp.2 hnodup.2 (Nat.succ.inj hlen)
        (by rw [hpointer]; omega) (by rw [hpointer, hmemory]; exact hholds.2)
      refine ⟨?_, ?_, hrest.memory.trans hmemory, fun r' hr' hnot => ?_⟩
      · rw [List.map_cons, run, List.foldl_cons, ← run, hrest.pointer, hpointer, List.length_cons]
        omega
      · have hhead : (run sp (rs.map .pop) (exec sp s (.pop r))).regs r = word := by
          rw [hrest.regs r (Ne.symm hsp.1) hnodup.1, hnext, State.set_same]
        rw [List.map_cons, List.map_cons, run, List.foldl_cons, ← run, hrest.loaded, hhead]
      · rw [List.mem_cons, not_or] at hnot
        rw [List.map_cons, run, List.foldl_cons, ← run, hrest.regs r' hr' hnot.2, hnext,
          State.set_other hnot.1, State.set_other hr']

theorem run_pops_ret_memory (rs : List R) (s : State R) :
    (run sp (rs.map .pop ++ [.ret]) s).memory = s.memory := by
  induction rs generalizing s with
  | nil => rfl
  | cons r rs ih => exact ih (exec sp s (.pop r))

/-- Pops and a return take registers and the next address from the stack. -/
theorem run_pops_ret {rs : List R} {words : List Word} {next : Word} (hsp : sp ∉ rs)
    (hnodup : rs.Nodup) (hlen : rs.length = words.length)
    (hfits : (s.regs sp).toNat + 8 * (rs.length + 1) < 2 ^ 64)
    (hholds : HoldsAt s.memory (s.regs sp).toNat (words ++ [next])) :
    (run sp (rs.map .pop ++ [.ret]) s).pc = next ∧
      rs.map (run sp (rs.map .pop ++ [.ret]) s).regs = words ∧
      ((run sp (rs.map .pop ++ [.ret]) s).regs sp).toNat =
        (s.regs sp).toNat + 8 * (rs.length + 1) := by
  rw [holdsAt_append] at hholds
  have hpopped := run_pops hsp hnodup hlen (by omega) hholds.1
  have hreturn : run sp (rs.map .pop ++ [.ret]) s = exec sp (run sp (rs.map .pop) s) .ret :=
    run_append ..
  rw [hreturn]
  generalize run sp (rs.map .pop) s = u at hpopped
  have hpointer := hpopped.pointer
  have hword : readWord u.memory (u.regs sp) = next := by
    rw [readWord, hpopped.memory, hpointer, hlen, hholds.2.1, BitVec.ofNat_toNat,
      BitVec.setWidth_eq]
  rw [exec_ret]
  refine ⟨hword, ?_, ?_⟩
  · rw [← hpopped.loaded]
    apply List.map_congr_left
    intro r hr
    have hother : r ≠ sp := fun heq => hsp (heq ▸ hr)
    have hkept : (u.set sp (u.regs sp + 8)).regs r = u.regs r := State.set_other hother u _
    exact hkept
  · have hnext : ((u.set sp (u.regs sp + 8)).regs sp) = u.regs sp + 8 := State.set_same ..
    simp only [hnext]
    bv_omega

end StackMachine
