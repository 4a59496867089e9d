import AgnostOS.ContextSwitch
import AgnostOS.Library.Coroutine
import AgnostOS.Library.Simulation

/-! Many tasks on stacks of their own that call `switch` one after the other: each goes on where
its own call has left it, whatever the others did. -/
namespace AgnostOS.Tasks
open Globals StackMachine

structure TaskAreas (ι : Type*) where
  context : ι → Word
  low : ι → Nat
  high : ι → Nat

structure TaskAreas.Separate {ι : Type*} (areas : TaskAreas ι) : Prop where
  stackApart : ∀ i j, i ≠ j → areas.high i ≤ areas.low j ∨ areas.high j ≤ areas.low i
  contextApart : ∀ i j, i ≠ j → (areas.context i).toNat + 8 ≤ (areas.context j).toNat ∨
    (areas.context j).toNat + 8 ≤ (areas.context i).toNat
  apart : ∀ i j, (areas.context i).toNat + 8 ≤ areas.low j ∨ areas.high j ≤ (areas.context i).toNat
  bounded : ∀ i, areas.high i < 2 ^ 64

/-- What a running task finds again: where it is, what `switch` saves for it, and the bytes of
its stack in use. -/
structure TaskView where
  pc : Word
  registers : List Word
  stackPointer : Nat
  stack : Nat → Option UInt8

def stackBytes (stackPointer high : Nat) (m : ByteMemory) (a : Nat) : Option UInt8 :=
  if stackPointer ≤ a ∧ a < high then some (m a) else none

def running (high : Nat) (s : Machine) : TaskView :=
  ⟨s.pc, savedRegisters.map s.regs, (s.regs .rsp).toNat, stackBytes (s.regs .rsp).toNat high s.memory⟩

def pushedOn (words : List Word) (stackPointer : Nat) (stack : Nat → Option UInt8) (a : Nat) :
    Option UInt8 :=
  if stackPointer - 8 * words.length ≤ a ∧ a < stackPointer then
    some (TaskStack.copyWords (fun _ => 0) (stackPointer - 8 * words.length)
      (words.map BitVec.toNat) a)
  else stack a

/-- It goes on at the first of the words that the call and the prologue of `switch` pushed,
with the others on its stack. -/
def TaskView.parked : List Word → TaskView → TaskView
  | [], v => v
  | word :: words, v =>
    { v with
      pc := word
      stackPointer := v.stackPointer - 8 * words.length
      stack := pushedOn words v.stackPointer v.stack }

structure World (ι : Type*) where
  machine : Machine
  current : ι

variable {ι : Type*}

structure Minds (areas : TaskAreas ι) (i : ι) (s s' : Machine) : Prop where
  otherStacks : ∀ j, j ≠ i → ∀ a, areas.low j ≤ a → a < areas.high j → s'.memory a = s.memory a
  contexts : ∀ j a, (areas.context j).toNat ≤ a → a < (areas.context j).toNat + 8 →
    s'.memory a = s.memory a

/-- A switch needs room on the stack of the task for its seven words and for those that the
prologue of its compiled function pushes. -/
inductive World.Step (areas : TaskAreas ι) : Coroutine.Event ι (List Word) → World ι → World ι → Prop
  | work {w : World ι} {s : Machine} (minds : Minds areas w.current w.machine s) :
      Step areas .work w ⟨s, w.current⟩
  | switchTo {w : World ι} {next : ι} (prologue : List Word) (resume : Word) (hne : next ≠ w.current)
      (room : areas.low w.current + 8 * (prologue.length + 7) ≤ (w.machine.regs .rsp).toNat)
      (inside : (w.machine.regs .rsp).toNat ≤ areas.high w.current) :
      Step areas (.switchTo next (prologue ++ [resume])) w
        ⟨switch (areas.context w.current) (areas.context next) resume prologue w.machine, next⟩

/-! ### Suspended tasks -/

structure Parked (areas : TaskAreas ι) (m : ByteMemory) (i : ι) (v : TaskView) : Prop where
  frame : Destination m (v.stackPointer - 56) v.registers v.pc
  context : m.read (areas.context i).toNat 8 = v.stackPointer - 56
  low : areas.low i + 56 ≤ v.stackPointer
  high : v.stackPointer ≤ areas.high i
  stack : v.stack = stackBytes v.stackPointer (areas.high i) m

theorem stackBytes_congr {stackPointer high : Nat} {m m' : ByteMemory}
    (h : ∀ a, stackPointer ≤ a → a < high → m a = m' a) :
    stackBytes stackPointer high m = stackBytes stackPointer high m' := by
  funext a
  rw [stackBytes, stackBytes]
  split_ifs with hin
  · rw [h a hin.1 hin.2]
  · rfl

/-- Whoever leaves the stack and the context of a suspended task alone leaves it suspended. -/
theorem Parked.congr {areas : TaskAreas ι} {m m' : ByteMemory} {i : ι} {v : TaskView}
    (h : Parked areas m i v)
    (hstack : ∀ a, areas.low i ≤ a → a < areas.high i → m' a = m a)
    (hcontext : ∀ a, (areas.context i).toNat ≤ a → a < (areas.context i).toNat + 8 →
      m' a = m a) : Parked areas m' i v := by
  have hlow := h.low
  have hhigh := h.high
  refine ⟨⟨h.frame.1, h.frame.2.congr fun a hlo hhi => (hstack a (by omega) ?_).symm⟩, ?_, hlow, hhigh, ?_⟩
  · rw [List.length_append, h.frame.1, List.length_singleton] at hhi
    omega
  · rw [← h.context]
    exact ByteMemory.read_congr hcontext
  · rw [h.stack]
    exact stackBytes_congr fun a hlo hhi => (hstack a (by omega) hhi).symm

/-! ### The simulation -/

structure Matches (areas : TaskAreas ι) (w : World ι) (c : Coroutine.State ι TaskView) : Prop where
  current : c.current = w.current
  running : c.view w.current = running (areas.high w.current) w.machine
  parked : ∀ j, j ≠ w.current → Parked areas w.machine.memory j (c.view j)

section Switch
variable {areas : TaskAreas ι} {w : World ι} {next : ι} {prologue : List Word}

theorem live_of_room (hsep : areas.Separate)
    (hroom : areas.low w.current + 8 * (prologue.length + 7) ≤ (w.machine.regs .rsp).toNat)
    (hinside : (w.machine.regs .rsp).toNat ≤ areas.high w.current) :
    Live w.machine (areas.context w.current) prologue := by
  have hapart := hsep.apart w.current w.current
  refine ⟨by omega, ?_⟩
  rw [savedPointer]
  omega

/-- What a switch writes is in the stack and the context of the task that it suspends. -/
theorem switch_minds (hsep : areas.Separate)
    (hroom : areas.low w.current + 8 * (prologue.length + 7) ≤ (w.machine.regs .rsp).toNat)
    (hinside : (w.machine.regs .rsp).toNat ≤ areas.high w.current) (target resume : Word) {a : Nat}
    (hstack : a < savedPointer w.machine prologue ∨ (w.machine.regs .rsp).toNat ≤ a)
    (hcontext : a < (areas.context w.current).toNat ∨ (areas.context w.current).toNat + 8 ≤ a) :
    (switch (areas.context w.current) target resume prologue w.machine).memory a =
      w.machine.memory a := by
  rw [switch_memory]
  exact (saved_saves (live_of_room hsep hroom hinside) target resume).outside a hstack hcontext

/-- The words in memory are the bytes that the suspended task sees. -/
theorem stackBytes_pushedOn {m m' : ByteMemory} {words : List Word} {stackPointer high : Nat}
    (hhigh : stackPointer ≤ high) (hroom : 8 * words.length ≤ stackPointer)
    (hholds : HoldsAt m' (stackPointer - 8 * words.length) words)
    (habove : ∀ a, stackPointer ≤ a → a < high → m' a = m a) :
    pushedOn words stackPointer (stackBytes stackPointer high m) =
      stackBytes (stackPointer - 8 * words.length) high m' := by
  have hcopied := copyWords_holds (fun _ => 0) (stackPointer - 8 * words.length)
    (words.map BitVec.toNat)
  have hsame : (words.map BitVec.toNat).map (BitVec.ofNat 64) = words := by
    rw [List.map_map]
    refine (List.map_congr_left fun word _ => ?_).trans (List.map_id words)
    rw [Function.comp_apply, BitVec.ofNat_toNat, BitVec.setWidth_eq, id_eq]
  rw [hsame] at hcopied
  funext a
  rw [pushedOn, stackBytes, stackBytes]
  by_cases hpushed : stackPointer - 8 * words.length ≤ a ∧ a < stackPointer
  · rw [if_pos hpushed, if_pos ⟨hpushed.1, by omega⟩]
    exact congrArg some (hcopied.byte_eq hholds hpushed.1 (by omega))
  · rw [if_neg hpushed]
    by_cases hin : stackPointer ≤ a ∧ a < high
    · rw [if_pos hin, if_pos ⟨by omega, hin.2⟩, habove a hin.1 hin.2]
    · rw [if_neg hin, if_neg (by omega)]

/-- The task that switches is suspended with the view that it had. -/
theorem switch_parks (hsep : areas.Separate)
    (hroom : areas.low w.current + 8 * (prologue.length + 7) ≤ (w.machine.regs .rsp).toNat)
    (hinside : (w.machine.regs .rsp).toNat ≤ areas.high w.current) (target resume : Word) :
    Parked areas (switch (areas.context w.current) target resume prologue w.machine).memory w.current
      ((running (areas.high w.current) w.machine).parked (prologue ++ [resume])) := by
  have hsaves := saved_saves (live_of_room hsep hroom hinside) target resume
  have hlength : (prologue ++ [resume]).length = prologue.length + 1 := by simp
  have hframe := hsaves.frame
  have habove : ∀ a, (w.machine.regs .rsp).toNat ≤ a → a < areas.high w.current →
      (switch (areas.context w.current) target resume prologue w.machine).memory a =
        w.machine.memory a := fun a hlo hhi => by
    have hapart := hsep.apart w.current w.current
    exact switch_minds hsep hroom hinside target resume (.inr hlo) (by omega)
  rw [frameWords] at hframe
  cases hwords : prologue ++ [resume] with
  | nil => simp at hwords
  | cons word words =>
    rw [hwords, List.length_cons] at hlength
    rw [hwords, List.append_cons, holdsAt_append, ← switch_memory] at hframe
    have hpointer : savedPointer w.machine prologue =
        (w.machine.regs .rsp).toNat - 8 * words.length - 56 := by
      rw [savedPointer]
      omega
    have hsix : (savedRegisters.map w.machine.regs ++ [word]).length = 7 := by
      simp [savedRegisters]
    have htail : savedPointer w.machine prologue + 8 * 7 =
        (w.machine.regs .rsp).toNat - 8 * words.length := by
      rw [savedPointer]
      omega
    rw [hsix, htail, hpointer] at hframe
    have hcontext := hsaves.context
    rw [← switch_memory, hpointer] at hcontext
    refine ⟨⟨by simp [TaskView.parked, running, savedRegisters], hframe.1⟩, hcontext, ?_, ?_, ?_⟩
    · change areas.low w.current + 56 ≤ (w.machine.regs .rsp).toNat - 8 * words.length
      omega
    · change (w.machine.regs .rsp).toNat - 8 * words.length ≤ areas.high w.current
      omega
    · have hwordsRoom : 8 * words.length ≤ (w.machine.regs .rsp).toNat := by omega
      exact stackBytes_pushedOn hinside hwordsRoom hframe.2 habove

/-- The task that is switched to runs with the view that it was suspended with. -/
theorem switch_resumes (hsep : areas.Separate) (hne : next ≠ w.current)
    (hroom : areas.low w.current + 8 * (prologue.length + 7) ≤ (w.machine.regs .rsp).toNat)
    (hinside : (w.machine.regs .rsp).toNat ≤ areas.high w.current) {v : TaskView}
    (hparked : Parked areas w.machine.memory next v) (resume : Word) :
    running (areas.high next)
      (switch (areas.context w.current) (areas.context next) resume prologue w.machine) = v := by
  have hpointer : savedPointer w.machine prologue =
      (w.machine.regs .rsp).toNat - 8 * (prologue.length + 7) := rfl
  have hstacks := hsep.stackApart w.current next hne.symm
  have hcontexts := hsep.contextApart w.current next hne.symm
  have hown := hsep.apart w.current next
  have hother := hsep.apart next w.current
  have hbounded := hsep.bounded next
  have hlow := hparked.low
  have hhigh := hparked.high
  have hapart : Apart w.machine (areas.context w.current) (areas.context next) prologue
      (areas.low next) (areas.high next) := by
    constructor <;> omega
  obtain ⟨-, hpc, hregisters, hrsp⟩ : Destination (switch (areas.context w.current)
      (areas.context next) resume prologue w.machine).memory (v.stackPointer - 56) _ _ ∧ _ :=
    switch_enters (live_of_room hsep hroom hinside) hapart (by omega) (by omega) hbounded
      hparked.context hparked.frame.1 hparked.frame.2
  have hsp : v.stackPointer - 56 + 56 = v.stackPointer := by omega
  rw [hsp] at hrsp
  rw [running, hpc, hregisters, hrsp]
  have hstack : stackBytes v.stackPointer (areas.high next)
      (switch (areas.context w.current) (areas.context next) resume prologue w.machine).memory =
        v.stack := by
    rw [hparked.stack]
    exact stackBytes_congr fun a hlo hhi => switch_minds hsep hroom hinside _ _ (by omega) (by omega)
  rw [hstack]

variable [DecidableEq ι]

/-- Every step of the tasks is one of coroutines that share nothing. -/
theorem simulates_coroutines (hsep : areas.Separate) :
    Simulates (World.Step areas) (Coroutine.Step TaskView.parked) (Matches areas) := by
  rintro e w w' ⟨current, view⟩ hmatch hstep
  obtain rfl : current = w.current := hmatch.current
  have hrunning : view w.current = running (areas.high w.current) w.machine := hmatch.running
  cases hstep with
  | @work _ s hminds =>
    refine ⟨_, .work (running (areas.high w.current) s), rfl, Function.update_self .., fun j hj => ?_⟩
    have hother : j ≠ w.current := hj
    simp only [Function.update_of_ne hother]
    exact (hmatch.parked j hj).congr (hminds.otherStacks j hj) (hminds.contexts j)
  | @switchTo _ next prologue resume hne hroom hinside =>
    refine ⟨_, .switchTo (prologue ++ [resume]) hne, rfl, ?_, fun j hj => ?_⟩
    · simp only [Function.update_of_ne hne]
      exact (switch_resumes hsep hne hroom hinside (hmatch.parked next hne) resume).symm
    · by_cases hself : j = w.current
      · subst hself
        simp only [Function.update_self, hrunning]
        exact switch_parks hsep hroom hinside _ resume
      · simp only [Function.update_of_ne hself]
        have hstacks := hsep.stackApart w.current j (Ne.symm hself)
        have hcontexts := hsep.contextApart w.current j (Ne.symm hself)
        have hown := hsep.apart w.current j
        have hother := hsep.apart j w.current
        have hpointer : savedPointer w.machine prologue =
            (w.machine.regs .rsp).toNat - 8 * (prologue.length + 7) := rfl
        exact (hmatch.parked j hself).congr
          (fun a hlo hhi => switch_minds hsep hroom hinside _ _ (by omega) (by omega))
          fun a hlo hhi => switch_minds hsep hroom hinside _ _ (by omega) (by omega)

end Switch

/-! ### Whole runs -/

structure FreshStack (areas : TaskAreas ι) (m : ByteMemory) (trampoline : Nat) (context : TaskContext)
    (i : ι) : Prop where
  aligned : 16 ∣ areas.low i
  size : areas.high i = areas.low i + TASK_STACK_SIZE
  written : ∃ self : TaskStack,
    (∀ k, k < TASK_STACK_SIZE →
      m (areas.low i + k) = (self.initializeFrame (areas.low i) trampoline context).2.bytes k) ∧
    m.read (areas.context i).toNat 8 = (self.initializeFrame (areas.low i) trampoline context).1

def freshView (high trampoline : Nat) (context : TaskContext) : TaskView :=
  ⟨BitVec.ofNat 64 trampoline, initialRegisters context, high, fun _ => none⟩

section Runs
variable {areas : TaskAreas ι} {trampoline : Nat} {w w' : World ι}

theorem FreshStack.parked {m : ByteMemory} {context : TaskContext} {i : ι} (hsep : areas.Separate)
    (h : FreshStack areas m trampoline context i) :
    Parked areas m i (freshView (areas.high i) trampoline context) := by
  have hbounded := hsep.bounded i
  have hsize := h.size
  have hstack : TASK_STACK_SIZE = 4096 := rfl
  obtain ⟨self, hbytes, hcontext⟩ := h.written
  obtain ⟨hpointer, hframe⟩ := initializeFrame_spec self trampoline context h.aligned
    (by omega)
  have hlow : areas.high i - 56 = areas.low i + (TASK_STACK_SIZE - 56) := by omega
  refine ⟨⟨rfl, ?_⟩, ?_, ?_, le_rfl, ?_⟩
  · change HoldsAt m (areas.high i - 56) (initialRegisters context ++ [BitVec.ofNat 64 trampoline])
    rw [hlow]
    refine holdsAt_shift hframe fun b _ hhi => hbytes b ?_
    simp only [initialRegisters, List.length_append, List.length_map, List.length_cons,
      List.length_nil] at hhi
    omega
  · change m.read (areas.context i).toNat 8 = areas.high i - 56
    omega
  · change areas.low i + 56 ≤ areas.high i
    omega
  · funext a
    exact (if_neg fun hin => absurd hin.1 (not_le.mpr hin.2)).symm

variable [DecidableEq ι] {contexts : ι → TaskContext}

/-- What the tasks would see at the start: the running one the machine, the others the
trampoline. -/
def firstViews (areas : TaskAreas ι) (trampoline : Nat) (contexts : ι → TaskContext)
    (w : World ι) : Coroutine.State ι TaskView :=
  ⟨w.current, Function.update (fun i => freshView (areas.high i) trampoline (contexts i)) w.current
    (running (areas.high w.current) w.machine)⟩

theorem matches_firstViews (hsep : areas.Separate)
    (hfresh : ∀ i, i ≠ w.current → FreshStack areas w.machine.memory trampoline (contexts i) i) :
    Matches areas w (firstViews areas trampoline contexts w) := by
  refine ⟨rfl, by simp only [firstViews, Function.update_self], fun j hj => ?_⟩
  simp only [firstViews, Function.update_of_ne hj]
  exact (hfresh j hj).parked hsep

/-- On separate stacks every run of tasks that call `switch` is a run of coroutines that share
nothing: the machine always shows the running task its own view. -/
theorem switches_refine_coroutines (hsep : areas.Separate)
    (hfresh : ∀ i, i ≠ w.current → FreshStack areas w.machine.memory trampoline (contexts i) i)
    {events : List (Coroutine.Event ι (List Word))} (hrun : Trace (World.Step areas) events w w') :
    ∃ c, Trace (Coroutine.Step TaskView.parked) events (firstViews areas trampoline contexts w) c ∧
      Matches areas w' c :=
  (simulates_coroutines hsep).trace (matches_firstViews hsep hfresh) hrun

/-- Only an empty prologue brings a task back behind its own call, on the stack that it had. -/
theorem parked_eq_iff {prologue : List Word} (resume : Word) {v : TaskView}
    (hroom : 8 * prologue.length ≤ v.stackPointer) :
    v.parked (prologue ++ [resume]) = { v with pc := resume } ↔ prologue = [] := by
  cases prologue with
  | nil =>
    have hstack : pushedOn [] v.stackPointer v.stack = v.stack := by
      funext a
      exact if_neg fun hin => absurd hin.1 (Nat.not_le.mpr hin.2)
    rw [List.nil_append, TaskView.parked, hstack]
    exact iff_of_true rfl rfl
  | cons word words =>
    refine iff_of_false (fun heq => ?_) (List.cons_ne_nil word words)
    have hpointer := congrArg TaskView.stackPointer heq
    simp only [List.cons_append, TaskView.parked, List.length_append, List.length_cons]
      at hpointer hroom
    omega

/-- Whatever the other tasks did in between, and however many of them ran, a task that is
switched back to goes on at the first word that its own call left behind the registers, with
its registers and its stack: behind that call exactly when its prologue pushed nothing. -/
theorem task_comes_back (hsep : areas.Separate)
    (hfresh : ∀ i, i ≠ w.current → FreshStack areas w.machine.memory trampoline (contexts i) i)
    {before between : List (Coroutine.Event ι (List Word))} {u : World ι} {next : ι}
    {prologue back : List Word} {resume : Word} (hbefore : Trace (World.Step areas) before w u)
    (hothers : ∀ again, .switchTo u.current again ∉ between)
    (hround : Trace (World.Step areas)
      (.switchTo next (prologue ++ [resume]) :: between ++ [.switchTo u.current back]) u w') :
    w'.current = u.current ∧
      running (areas.high u.current) w'.machine =
        (running (areas.high u.current) u.machine).parked (prologue ++ [resume]) ∧
      (running (areas.high u.current) w'.machine =
        { running (areas.high u.current) u.machine with pc := resume } ↔ prologue = []) := by
  obtain ⟨c, -, hmatch⟩ := (simulates_coroutines hsep).trace (matches_firstViews hsep hfresh) hbefore
  obtain ⟨c', hviews, hmatch'⟩ := (simulates_coroutines hsep).trace hmatch hround
  obtain ⟨hcurrent, hview⟩ := Coroutine.resumed hmatch.current hviews hothers
  have hback : w'.current = u.current := hmatch'.current.symm.trans hcurrent
  have hparked : running (areas.high u.current) w'.machine =
      (running (areas.high u.current) u.machine).parked (prologue ++ [resume]) := by
    rw [← hmatch.running, ← hview, ← hback, hmatch'.running]
  have hroom : 8 * prologue.length ≤ (u.machine.regs .rsp).toNat := by
    obtain ⟨_, hleave, -⟩ := hround
    generalize hwords : prologue ++ [resume] = words at hleave
    cases hleave with
    | switchTo prologue' resume' _ hroom _ =>
      have hsame : prologue = prologue' := (List.append_inj' hwords rfl).1
      rw [hsame]
      omega
  refine ⟨hback, hparked, ?_⟩
  rw [hparked]
  exact parked_eq_iff resume hroom

end Runs

/-! ### Two tasks -/

def twoAreas : TaskAreas Bool where
  context i := if i then 0x9000 else 0x8000
  low i := if i then 0x4000 else 0x1000
  high i := if i then 0x5000 else 0x2000

theorem twoAreas_separate : twoAreas.Separate := by
  constructor <;> decide

def freshPair : World Bool where
  machine :=
    { regs r := if r = .rsp then 0x2000 else 7
      pc := 0x400000
      memory := ByteMemory.write
        (fun a => (TaskStack.new.initializeFrame 0x4000 0x402000 .new).2.bytes (a - 0x4000))
        0x9000 8 0x4fc8 }
  current := false

theorem freshPair_fresh : ∀ i, i ≠ freshPair.current →
    FreshStack twoAreas freshPair.machine.memory 0x402000 .new i := by
  intro i hi
  obtain rfl : i = true := by
    cases i with
    | false => exact absurd rfl hi
    | true => rfl
  refine ⟨by decide, rfl, .new, fun k hk => ?_, ?_⟩
  · have hlow : twoAreas.low true = 0x4000 := rfl
    have hsize : TASK_STACK_SIZE = 4096 := rfl
    have hsub : 0x4000 + k - 0x4000 = k := by omega
    have hkept : freshPair.machine.memory (0x4000 + k) =
        (TaskStack.new.initializeFrame 0x4000 0x402000 .new).2.bytes (0x4000 + k - 0x4000) :=
      ByteMemory.write_outside _ _ (by omega)
    rw [hlow, hkept, hsub]
  · exact ByteMemory.read_write_same _ _ (by decide)

/-- The fresh task is entered; the prologue has pushed a word. -/
theorem freshPair_enters : World.Step twoAreas (.switchTo true [0x77, 0x401000]) freshPair
    ⟨switch 0x8000 0x9000 0x401000 [0x77] freshPair.machine, true⟩ :=
  .switchTo [0x77] 0x401000 (by decide) (by decide) (by decide)

theorem fresh_task_entered :
    ∃ c, Trace (Coroutine.Step TaskView.parked) [.switchTo true [0x77, 0x401000]]
        (firstViews twoAreas 0x402000 (fun _ => .new) freshPair) c ∧
      Matches twoAreas ⟨switch 0x8000 0x9000 0x401000 [0x77] freshPair.machine, true⟩ c :=
  switches_refine_coroutines twoAreas_separate freshPair_fresh (Trace.single freshPair_enters)

/-- It hands back at once, and the first task goes on at the pushed word. -/
theorem first_task_comes_back :
    ∃ w' : World Bool, w'.current = false ∧
      running 0x2000 w'.machine =
        (running 0x2000 freshPair.machine).parked ([0x77] ++ [0x401000]) ∧
      (running 0x2000 w'.machine = { running 0x2000 freshPair.machine with pc := 0x401000 } ↔
        ([0x77] : List Word) = []) := by
  have hrsp : (switch 0x8000 0x9000 0x401000 [0x77] freshPair.machine).regs .rsp = 0x5000 := by
    decide +kernel
  have hback : World.Step twoAreas (.switchTo false [0x78, 0x403000])
      ⟨switch 0x8000 0x9000 0x401000 [0x77] freshPair.machine, true⟩
      ⟨switch 0x9000 0x8000 0x403000 [0x78]
        (switch 0x8000 0x9000 0x401000 [0x77] freshPair.machine), false⟩ := by
    refine .switchTo [0x78] 0x403000 (by decide) ?_ ?_
    · simp only [hrsp]
      decide
    · simp only [hrsp]
      decide
  have hstart : Trace (World.Step twoAreas) [] freshPair freshPair := Trace.nil
  have hothers : ∀ again, Coroutine.Event.switchTo freshPair.current again ∉
      ([] : List (Coroutine.Event Bool (List Word))) := fun _ => List.not_mem_nil
  exact ⟨_, task_comes_back twoAreas_separate freshPair_fresh hstart hothers
    ⟨_, freshPair_enters, Trace.single hback⟩⟩

end AgnostOS.Tasks
