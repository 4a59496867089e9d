import AgnostOS.Profiling
import Mathlib.Data.List.Infix
import Mathlib.Data.List.Forall2

/-! Properly nested runs of the profiler: what the call tree counts, whatever order of
calls, interrupts and suspensions led to it. -/
namespace AgnostOS.Profiling
open Word

inductive Event where
  | enter (name : Name)
  | suspend
  | drop
  deriving DecidableEq, Repr

structure Execution where
  profiler : Profiler
  guards : List ProfileGuard

namespace Execution

def step (s : Execution) : Event → Option Execution
  | .enter name =>
    match s.profiler.enter name with
    | none => none
    | some (guard, profiler) => some ⟨profiler, guard :: s.guards⟩
  | .suspend =>
    let (guard, profiler) := s.profiler.suspendRecording
    some ⟨profiler, guard :: s.guards⟩
  | .drop =>
    match s.guards with
    | [] => none
    | guard :: guards => some ⟨s.profiler.dropGuard guard, guards⟩

def run (s : Execution) (events : List Event) : Option Execution := events.foldlM step s

end Execution

def boot : Execution := ⟨.initial, []⟩

/-! ### Open frames -/

/-- An open call or suspension: the events before it, and the event that opened it. -/
structure Frame where
  history : List Event
  event : Event
  deriving DecidableEq, Repr

def openFrame : List Event × List Frame → Event → List Event × List Frame
  | (history, stack), .drop => (history ++ [.drop], stack.tail)
  | (history, stack), .enter name => (history ++ [.enter name], ⟨history, .enter name⟩ :: stack)
  | (history, stack), .suspend => (history ++ [.suspend], ⟨history, .suspend⟩ :: stack)

def frames (events : List Event) : List Frame := (events.foldl openFrame ([], [])).2

def Nested (events : List Event) : Prop :=
  ∀ k < events.length, events[k]? = some .drop → frames (events.take k) ≠ []

instance (events : List Event) : Decidable (Nested events) :=
  inferInstanceAs (Decidable (∀ k < events.length, _))

def pathOf (stack : List Frame) : List Name :=
  stack.reverse.filterMap fun frame =>
    match frame.event with
    | .enter name => some name
    | _ => none

def openPath (events : List Event) : List Name := pathOf (frames events)

def suspended (events : List Event) : Bool := (frames events).any fun frame => frame.event = .suspend

def enters (history : List Event) (path : List Name) : Event → Bool
  | .enter name => !suspended history && openPath history ++ [name] == path
  | _ => false

def entered (history : List Event) (path : List Name) : List Event → Nat
  | [] => 0
  | event :: rest =>
    (if enters history path event then 1 else 0) + entered (history ++ [event]) path rest

theorem foldl_openFrame_fst (events history : List Event) (stack : List Frame) :
    (events.foldl openFrame (history, stack)).1 = history ++ events := by
  induction events generalizing history stack with
  | nil => simp
  | cons event rest ih =>
    cases event <;> simp [openFrame, ih]

@[simp] theorem frames_nil : frames [] = [] := rfl

theorem frames_concat (events : List Event) (event : Event) :
    frames (events ++ [event]) = (openFrame (events, frames events) event).2 := by
  have hpair : events.foldl openFrame ([], []) = (events, frames events) :=
    Prod.ext (by simpa using foldl_openFrame_fst events [] []) rfl
  rw [frames, List.foldl_append, hpair]
  rfl

theorem Nested.of_concat {events : List Event} {event : Event} (h : Nested (events ++ [event])) :
    Nested events ∧ (event = .drop → frames events ≠ []) := by
  constructor
  · intro k hk hdrop
    have hstep := h k (by rw [List.length_append]; exact Nat.lt_add_right _ hk)
    rw [List.getElem?_append_left hk, List.take_append_of_le_length hk.le] at hstep
    exact hstep hdrop
  · rintro rfl
    have hstep := h events.length (by simp)
    simpa using hstep

@[simp] theorem pathOf_nil : pathOf [] = [] := rfl

theorem pathOf_enter (history : List Event) (name : Name) (stack : List Frame) :
    pathOf (⟨history, .enter name⟩ :: stack) = pathOf stack ++ [name] := by
  simp [pathOf]

theorem pathOf_suffix {stack stack' : List Frame} (h : stack <:+ stack') :
    pathOf stack <+: pathOf stack' :=
  (List.reverse_prefix.mpr h).filterMap _

/-- An open frame was opened on top of the frames below it. -/
theorem frames_suffix {events : List Event} {frame : Frame} {below : List Frame}
    (h : frame :: below <:+ frames events) :
    frames frame.history = below ∧ frame.history ++ [frame.event] <+: events := by
  induction events using List.reverseRecOn with
  | nil => simp at h
  | append_singleton events event ih =>
    have hold : frame :: below <:+ frames events →
        frames frame.history = below ∧ frame.history ++ [frame.event] <+: events ++ [event] :=
      fun hin => ⟨(ih hin).1, (ih hin).2.trans (List.prefix_append _ _)⟩
    rw [frames_concat] at h
    cases event with
    | drop => exact hold (h.trans (List.tail_suffix _))
    | enter name =>
      cases List.suffix_cons_iff.mp h with
      | inl heq =>
        obtain ⟨rfl, rfl⟩ := List.cons.inj heq
        exact ⟨rfl, List.prefix_rfl⟩
      | inr hin => exact hold hin
    | suspend =>
      cases List.suffix_cons_iff.mp h with
      | inl heq =>
        obtain ⟨rfl, rfl⟩ := List.cons.inj heq
        exact ⟨rfl, List.prefix_rfl⟩
      | inr hin => exact hold hin

theorem entered_append (history : List Event) (path : List Name) (first second : List Event) :
    entered history path (first ++ second) =
      entered history path first + entered (history ++ first) path second := by
  induction first generalizing history with
  | nil => simp [entered]
  | cons event first ih =>
    simp only [List.cons_append, entered, ih, Nat.add_assoc, List.append_assoc, List.nil_append]

theorem entered_concat (path : List Name) (events : List Event) (event : Event) :
    entered [] path (events ++ [event]) =
      entered [] path events + if enters events path event then 1 else 0 := by
  simp [entered_append, entered]

theorem enters_enter {events : List Event} {path : List Name} {name : Name} :
    enters events path (.enter name) ↔ suspended events = false ∧ openPath events ++ [name] = path := by
  simp [enters]

/-! ### Refused paths -/

/-- The call is entered outside suspension, below a node, and gets no node of its own
because the table is full. -/
def Refused (history : List Event) (name : Name) : Prop :=
  suspended history = false ∧ ∃ s, boot.run history = some s ∧
    s.profiler.nodeCount = NODE_CAPACITY ∧
    (∃ i, s.profiler.tree.At i (openPath history)) ∧
    ¬ ∃ i, s.profiler.tree.At i (openPath history ++ [name])

def Frame.Dropped (frame : Frame) : Prop :=
  ∃ name, frame.event = .enter name ∧ Refused frame.history name

def Frame.Lost (frame : Frame) : Prop := frame.event = .suspend ∨ frame.Dropped

/-! ### The invariant of a run -/

def Located (p : Profiler) (current : Nat) (stack : List Frame) : Prop :=
  (current = NO_NODE ∧ ∃ frame ∈ stack, frame.Lost) ∨
    (p.tree.At current (pathOf stack) ∧ ∀ frame ∈ stack, ¬ frame.Lost)

structure Follows (events : List Event) (s : Execution) : Prop where
  run : boot.run events = some s
  tree : CallTree s.profiler
  recording : s.profiler.recording = true
  active : ∀ guard ∈ s.guards, guard.active = true
  located : List.Forall₂ (Located s.profiler)
    (s.profiler.currentNode :: s.guards.map ProfileGuard.previous) (frames events).tails
  calls : ∀ i path, s.profiler.tree.At i path → path ≠ [] →
    (s.profiler.nodes i).calls = min (entered [] path events) (2 ^ 64 - 1)
  missing : ∀ path, 0 < entered [] path events → (∃ i, s.profiler.tree.At i path) ∨
    ∃ history name, history ++ [.enter name] <+: events ∧ Refused history name ∧
      openPath history ++ [name] <+: path
  refused : ∀ history name, history ++ [.enter name] <+: events → Refused history name →
    s.profiler.nodeCount = NODE_CAPACITY ∧
      ¬ ∃ i, s.profiler.tree.At i (openPath history ++ [name])

theorem boot_follows : Follows [] boot where
  run := rfl
  tree := initial_callTree
  recording := rfl
  active := by simp [boot]
  located := by
    refine .cons (.inr ⟨.root, by simp⟩) .nil
  calls := by
    intro i path hat hne
    cases hat with
    | root => exact absurd rfl hne
    | child hchild _ =>
      have hlt : i < 1 := hchild.2.1
      exact absurd hchild.1 (by omega)
  missing := by simp [entered]
  refused := by simp

theorem Located.mono {p p' : Profiler} {current : Nat} {stack : List Frame}
    (h : Located p current stack) (hgrows : p.tree.Grows p'.tree) : Located p' current stack :=
  h.imp id fun hin => ⟨hgrows.at hin.1, hin.2⟩

section Step
variable {events : List Event} {s : Execution}

theorem Follows.length_guards (h : Follows events s) : s.guards.length = (frames events).length := by
  have hlen := h.located.length_eq
  simpa using hlen

theorem run_concat {s s' : Execution} {event : Event} (hrun : boot.run events = some s)
    (hstep : s.step event = some s') : boot.run (events ++ [event]) = some s' := by
  rw [Execution.run] at hrun ⊢
  rw [List.foldlM_append, hrun]
  simpa using hstep

theorem CallTree.of_nodes {p p' : Profiler} (h : CallTree p) (hnodes : p'.nodes = p.nodes)
    (hcount : p'.nodeCount = p.nodeCount) : CallTree p' := by
  have htree : p'.tree = p.tree := by
    simp only [Profiler.tree, hnodes, hcount]
  refine ⟨hcount ▸ h.count_le, htree ▸ h.rooted, ?_⟩
  rw [htree, hnodes]
  exact h.linked

/-- Events that enter nothing leave the tree and its bookkeeping alone. -/
theorem Follows.of_same_tree (h : Follows events s) {event : Event} {s' : Execution}
    (hevent : ∀ name, event ≠ .enter name) (hstep : s.step event = some s')
    (hnodes : s'.profiler.nodes = s.profiler.nodes)
    (hcount : s'.profiler.nodeCount = s.profiler.nodeCount)
    (hrecording : s'.profiler.recording = true) (hactive : ∀ guard ∈ s'.guards, guard.active = true)
    (hlocated : List.Forall₂ (Located s'.profiler)
      (s'.profiler.currentNode :: s'.guards.map ProfileGuard.previous)
      (frames (events ++ [event])).tails) : Follows (events ++ [event]) s' := by
  have htree : s'.profiler.tree = s.profiler.tree := by
    simp only [Profiler.tree, hnodes, hcount]
  have hsame : ∀ path, entered [] path (events ++ [event]) = entered [] path events := by
    intro path
    rw [entered_concat]
    cases event with
    | enter name => exact absurd rfl (hevent name)
    | suspend => rfl
    | drop => rfl
  have hfront : ∀ history name, history ++ [.enter name] <+: events ++ [event] →
      history ++ [.enter name] <+: events := by
    intro history name hin
    refine (List.prefix_concat_iff.mp hin).resolve_left fun heq => ?_
    obtain ⟨-, hlast⟩ := List.append_inj' heq rfl
    exact hevent name (List.singleton_inj.mp hlast).symm
  refine ⟨run_concat h.run hstep, h.tree.of_nodes hnodes hcount, hrecording, hactive, hlocated,
    ?_, ?_, ?_⟩
  · rw [htree, hnodes]
    simp only [hsame]
    exact h.calls
  · intro path hpos
    rw [hsame] at hpos
    rw [htree]
    refine (h.missing path hpos).imp id ?_
    rintro ⟨history, name, hin, hrest⟩
    exact ⟨history, name, hin.trans (List.prefix_append _ _), hrest⟩
  · rw [htree, hcount]
    exact fun history name hin => h.refused history name (hfront history name hin)

theorem Follows.drop (h : Follows events s) (hopen : frames events ≠ []) :
    ∃ s', s.step .drop = some s' ∧ Follows (events ++ [.drop]) s' := by
  have hlen := h.length_guards
  have hactive := h.active
  have hlocated := h.located
  cases hstack : frames events with
  | nil => exact absurd hstack hopen
  | cons frame below =>
    rw [hstack] at hlen hlocated
    cases hguards : s.guards with
    | nil => simp [hguards] at hlen
    | cons guard guards =>
      rw [hguards] at hactive hlocated
      have hdrop : s.profiler.dropGuard guard = { s.profiler with currentNode := guard.previous } := by
        rw [Profiler.dropGuard, if_pos (hactive guard (by simp))]
      have hstep : s.step .drop = some ⟨{ s.profiler with currentNode := guard.previous }, guards⟩ := by
        simp only [Execution.step, hguards, hdrop]
      refine ⟨_, hstep, h.of_same_tree (by simp) hstep rfl rfl h.recording
        (fun g hg => hactive g (by simp [hg])) ?_⟩
      rw [frames_concat, openFrame, hstack, List.tail_cons]
      rw [List.tails_cons] at hlocated
      exact (List.forall₂_cons.mp hlocated).2

theorem Follows.suspend (h : Follows events s) :
    ∃ s', s.step .suspend = some s' ∧ Follows (events ++ [.suspend]) s' := by
  have hsuspend : s.profiler.suspendRecording =
      (⟨s.profiler.currentNode, true⟩, { s.profiler with currentNode := NO_NODE }) := by
    rw [Profiler.suspendRecording, if_neg (by simp [h.recording])]
  have hstep : s.step .suspend = some ⟨{ s.profiler with currentNode := NO_NODE },
      ⟨s.profiler.currentNode, true⟩ :: s.guards⟩ := by
    simp only [Execution.step, hsuspend]
  refine ⟨_, hstep, h.of_same_tree (by simp) hstep rfl rfl h.recording ?_ ?_⟩
  · intro guard hguard
    cases List.mem_cons.mp hguard with
    | inl heq => rw [heq]
    | inr hguard => exact h.active guard hguard
  · rw [frames_concat, openFrame, List.tails_cons]
    exact .cons (.inl ⟨rfl, _, List.mem_cons_self, .inl rfl⟩) h.located

/-! ### Entering a function -/

theorem Follows.located_current (h : Follows events s) :
    Located s.profiler s.profiler.currentNode (frames events) := by
  have hlocated := h.located
  cases hstack : frames events with
  | nil =>
    rw [hstack] at hlocated
    exact (List.forall₂_cons.mp hlocated).1
  | cons frame below =>
    rw [hstack] at hlocated
    exact (List.forall₂_cons.mp hlocated).1

theorem Follows.not_refused (h : Follows events s) {name : Name}
    (hroom : s.profiler.nodeCount = NODE_CAPACITY →
      ∃ i, s.profiler.tree.At i (openPath events ++ [name])) : ¬ Refused events name := by
  rintro ⟨-, s', hrun, hfull, -, hnone⟩
  obtain rfl := Option.some.inj (h.run.symm.trans hrun)
  exact hnone (hroom hfull)

/-- Below a lost frame no path has a node: outside suspension a refusal is in the way. -/
theorem blocked_of_lost (hlost : ∃ frame ∈ frames events, frame.Lost)
    (hsuspended : suspended events = false) :
    ∃ history name, history ++ [.enter name] <+: events ∧ Refused history name ∧
      openPath history ++ [name] <+: openPath events := by
  obtain ⟨frame, hmem, hsuspend | ⟨name, hevent, hrefused⟩⟩ := hlost
  · have hany : suspended events = true :=
      List.any_eq_true.mpr ⟨frame, hmem, decide_eq_true hsuspend⟩
    simp [hsuspended] at hany
  · obtain ⟨above, below, hsplit⟩ := List.append_of_mem hmem
    have hsuffix : frame :: below <:+ frames events := ⟨above, hsplit.symm⟩
    obtain ⟨hbelow, hfront⟩ := frames_suffix hsuffix
    refine ⟨frame.history, name, hevent ▸ hfront, hrefused, ?_⟩
    have hpath := pathOf_suffix hsuffix
    obtain ⟨history, event⟩ := frame
    subst hevent hbelow
    rwa [pathOf_enter] at hpath

/-- What a call adds to the bookkeeping, from what it does to the tree. -/
theorem Follows.of_descend (h : Follows events s) {name : Name} {current : Nat} {p : Profiler}
    (hdescend : s.profiler.descend s.profiler.currentNode name = some (current, p))
    (htree : CallTree p) (hgrows : s.profiler.tree.Grows p.tree)
    (hrecording : p.recording = s.profiler.recording)
    (hlocated : Located p current (⟨events, .enter name⟩ :: frames events))
    (hcalls : ∀ i path, p.tree.At i path → path ≠ [] → (p.nodes i).calls =
      min (entered [] path events + if enters events path (.enter name) then 1 else 0)
        (2 ^ 64 - 1))
    (hnew : suspended events = false → (∃ i, p.tree.At i (openPath events ++ [name])) ∨
      ∃ history name', history ++ [.enter name'] <+: events ++ [.enter name] ∧
        Refused history name' ∧ openPath history ++ [name'] <+: openPath events ++ [name])
    (hfull : s.profiler.nodeCount = NODE_CAPACITY → p.nodeCount = NODE_CAPACITY ∧
      ∀ i path, p.tree.At i path → s.profiler.tree.At i path) :
    ∃ s', s.step (.enter name) = some s' ∧ Follows (events ++ [.enter name]) s' := by
  have henter : s.profiler.enter name =
      some (⟨s.profiler.currentNode, true⟩, { p with currentNode := current }) := by
    rw [Profiler.enter, if_neg (by simp [h.recording])]
    simp only [hdescend]
  have hstep : s.step (.enter name) = some ⟨{ p with currentNode := current },
      ⟨s.profiler.currentNode, true⟩ :: s.guards⟩ := by
    simp only [Execution.step, henter]
  refine ⟨_, hstep, run_concat h.run hstep, ⟨htree.count_le, htree.rooted, htree.linked⟩,
    hrecording.trans h.recording, ?_, ?_, ?_, ?_, ?_⟩
  · intro guard hguard
    cases List.mem_cons.mp hguard with
    | inl heq => rw [heq]
    | inr hguard => exact h.active guard hguard
  · rw [frames_concat, openFrame, List.tails_cons]
    exact .cons hlocated (h.located.imp fun _ _ hin => hin.mono hgrows)
  · intro i path hat hne
    rw [entered_concat]
    exact hcalls i path hat hne
  · intro path hpos
    rw [entered_concat] at hpos
    by_cases hold : 0 < entered [] path events
    · cases h.missing path hold with
      | inl hfound =>
        obtain ⟨i, hat⟩ := hfound
        exact .inl ⟨i, hgrows.at hat⟩
      | inr hlost =>
        obtain ⟨history, name', hin, hrest⟩ := hlost
        exact .inr ⟨history, name', hin.trans (List.prefix_append _ _), hrest⟩
    · have henters : enters events path (.enter name) := by
        by_contra hnot
        rw [if_neg hnot] at hpos
        exact hold hpos
      obtain ⟨hsuspended, rfl⟩ := enters_enter.mp henters
      exact hnew hsuspended
  · intro history name' hin hrefused
    have hbefore : s.profiler.nodeCount = NODE_CAPACITY ∧
        ¬ ∃ i, s.profiler.tree.At i (openPath history ++ [name']) := by
      cases List.prefix_concat_iff.mp hin with
      | inr hold => exact h.refused history name' hold hrefused
      | inl heq =>
        obtain ⟨rfl, -⟩ := List.append_inj' heq rfl
        obtain ⟨-, s', hrun, hcount, -, hnone⟩ := hrefused
        obtain rfl := Option.some.inj (h.run.symm.trans hrun)
        exact ⟨hcount, hnone⟩
    obtain ⟨hcount, hback⟩ := hfull hbefore.1
    refine ⟨hcount, fun hfound => ?_⟩
    obtain ⟨i, hat⟩ := hfound
    exact hbefore.2 ⟨i, hback i _ hat⟩

theorem calls_of_not_enters {p : Profiler} {i : Nat} {path : List Name} {event : Event}
    (hcalls : (p.nodes i).calls = min (entered [] path events) (2 ^ 64 - 1))
    (hnot : ¬ enters events path event) : (p.nodes i).calls =
      min (entered [] path events + if enters events path event then 1 else 0) (2 ^ 64 - 1) := by
  rw [if_neg hnot, Nat.add_zero, hcalls]

theorem Follows.enter_lost (h : Follows events s) (hcurrent : s.profiler.currentNode = NO_NODE)
    (hlost : ∃ frame ∈ frames events, frame.Lost) (name : Name) :
    ∃ s', s.step (.enter name) = some s' ∧ Follows (events ++ [.enter name]) s' := by
  have hdescend : s.profiler.descend s.profiler.currentNode name = some (NO_NODE, s.profiler) := by
    rw [Profiler.descend, if_pos hcurrent]
  have hblocked := fun hsuspended => blocked_of_lost hlost hsuspended
  refine h.of_descend hdescend h.tree (.refl _) rfl ?_ ?_ ?_ fun hfull => ⟨hfull, fun _ _ => id⟩
  · obtain ⟨frame, hmem, hframe⟩ := hlost
    exact .inl ⟨rfl, frame, List.mem_cons_of_mem _ hmem, hframe⟩
  · intro i path hnode hne
    refine calls_of_not_enters (h.calls i path hnode hne) fun henters => ?_
    obtain ⟨hsuspended, rfl⟩ := enters_enter.mp henters
    obtain ⟨history, name', hin, hrefused, rest, hrest⟩ := hblocked hsuspended
    have hsplit : openPath events ++ [name] = openPath history ++ [name'] ++ (rest ++ [name]) := by
      rw [← hrest, List.append_assoc]
    exact (h.refused history name' hin hrefused).2 (hnode.of_front hsplit)
  · intro hsuspended
    obtain ⟨history, name', hin, hrefused, hpath⟩ := hblocked hsuspended
    exact .inr ⟨history, name', hin.trans (List.prefix_append _ _), hrefused,
      hpath.trans (List.prefix_append _ _)⟩

section Found
variable {name : Name}

theorem not_suspended (hfound : ∀ frame ∈ frames events, ¬ frame.Lost) :
    suspended events = false := by
  simp only [suspended, List.any_eq_false, decide_eq_true_eq]
  exact fun frame hmem hevent => hfound frame hmem (.inl hevent)

theorem not_lost_cons (hfound : ∀ frame ∈ frames events, ¬ frame.Lost)
    (hnot : ¬ Refused events name) :
    ∀ frame ∈ (⟨events, .enter name⟩ :: frames events : List Frame), ¬ frame.Lost := by
  refine List.forall_mem_cons.mpr ⟨?_, hfound⟩
  rintro (hevent | ⟨name', hevent, hrefused⟩)
  · simp at hevent
  · obtain rfl := Event.enter.inj hevent
    exact hnot hrefused

/-- The path that is entered belongs to the child of that name. -/
theorem Follows.at_enter_iff (h : Follows events s)
    (hat : s.profiler.tree.At s.profiler.currentNode (openPath events)) {i : Nat} :
    s.profiler.tree.At i (openPath events ++ [name]) ↔
      s.profiler.tree.Child s.profiler.currentNode i ∧ (s.profiler.nodes i).name = name := by
  rw [LabelTree.at_concat_iff]
  constructor
  · rintro ⟨k, hchild, hname, hparent⟩
    rw [h.tree.rooted.node_unique hparent hat] at hchild
    exact ⟨hchild, hname⟩
  · rintro ⟨hchild, hname⟩
    exact ⟨_, hchild, hname, hat⟩

theorem Follows.enter_known (h : Follows events s) (hfound : ∀ frame ∈ frames events, ¬ frame.Lost)
    {i : Nat} (hnode : s.profiler.tree.At i (openPath events ++ [name]))
    (hdescend : s.profiler.descend s.profiler.currentNode name = some (i, s.profiler.counted i)) :
    ∃ s', s.step (.enter name) = some s' ∧ Follows (events ++ [.enter name]) s' := by
  have hsuspended := not_suspended hfound
  refine h.of_descend hdescend (h.tree.counted i) ?_ rfl ?_ ?_ ?_ ?_
  · rw [counted_tree]
    exact .refl _
  · refine .inr ⟨?_, not_lost_cons hfound (h.not_refused fun _ => ⟨i, hnode⟩)⟩
    rw [counted_tree, pathOf_enter]
    exact hnode
  · intro j path hj hne
    rw [counted_tree] at hj
    have hcalls := h.calls j path hj hne
    rw [counted_calls]
    by_cases hji : j = i
    · subst hji
      obtain rfl := hj.path_unique hnode
      rw [if_pos rfl, if_pos (enters_enter.mpr ⟨hsuspended, rfl⟩), hcalls, saturatingAdd]
      omega
    · rw [if_neg hji]
      refine calls_of_not_enters hcalls fun henters => hji ?_
      obtain ⟨-, rfl⟩ := enters_enter.mp henters
      exact h.tree.rooted.node_unique hj hnode
  · rw [counted_tree]
    exact fun _ => .inl ⟨i, hnode⟩
  · rw [counted_tree]
    exact fun hfull => ⟨hfull, fun _ _ => id⟩

/-- The path gets its node: until now it was not entered outside suspension. -/
theorem Follows.enter_new (h : Follows events s)
    (hat : s.profiler.tree.At s.profiler.currentNode (openPath events))
    (hfound : ∀ frame ∈ frames events, ¬ frame.Lost)
    (hfresh : ∀ i, s.profiler.tree.Child s.profiler.currentNode i → (s.profiler.nodes i).name ≠ name)
    (hroom : s.profiler.nodeCount < NODE_CAPACITY)
    (hdescend : s.profiler.descend s.profiler.currentNode name =
      some (s.profiler.nodeCount, s.profiler.added s.profiler.currentNode name)) :
    ∃ s', s.step (.enter name) = some s' ∧ Follows (events ++ [.enter name]) s' := by
  have hlt := hat.lt h.tree.rooted.count_pos
  have hleaf : s.profiler.tree.Leaf s.profiler.currentNode name
      (s.profiler.added s.profiler.currentNode name).tree := added_leaf hlt
  have hat_iff : ∀ {i path}, (s.profiler.added s.profiler.currentNode name).tree.At i path ↔
      s.profiler.tree.At i path ∨ (i = s.profiler.nodeCount ∧
        ∃ front, s.profiler.tree.At s.profiler.currentNode front ∧ path = front ++ [name]) :=
    hleaf.at_iff h.tree.rooted hlt
  have hnone : ∀ {i}, ¬ s.profiler.tree.At i (openPath events ++ [name]) := fun hin =>
    hfresh _ ((h.at_enter_iff hat).mp hin).1 ((h.at_enter_iff hat).mp hin).2
  have hnode : (s.profiler.added s.profiler.currentNode name).tree.At s.profiler.nodeCount
      (openPath events ++ [name]) := hat_iff.mpr (.inr ⟨rfl, _, hat, rfl⟩)
  have hfree : s.profiler.nodeCount ≠ NODE_CAPACITY := hroom.ne
  refine h.of_descend hdescend (h.tree.added hlt hroom hfresh) hleaf.grows rfl ?_ ?_ ?_
    fun hfull => absurd hfull hfree
  · refine .inr ⟨?_, not_lost_cons hfound (h.not_refused fun hfull => absurd hfull hfree)⟩
    rw [pathOf_enter]
    exact hnode
  · intro j path hj hne
    rw [(added_fields hlt j).2.2.2.2]
    cases hat_iff.mp hj with
    | inl hold =>
      have hjlt : j < s.profiler.nodeCount := hold.lt h.tree.rooted.count_pos
      rw [if_neg hjlt.ne]
      refine calls_of_not_enters (h.calls j path hold hne) fun henters => ?_
      obtain ⟨-, rfl⟩ := enters_enter.mp henters
      exact hnone hold
    | inr hnew =>
      obtain ⟨hindex, front, hfront, rfl⟩ := hnew
      obtain rfl := hfront.path_unique hat
      have hzero : entered [] (openPath events ++ [name]) events = 0 := by
        by_contra hpos
        rcases h.missing _ (Nat.pos_of_ne_zero hpos) with ⟨k, hk⟩ | ⟨history, name', hin, hr, -⟩
        · exact hnone hk
        · exact hfree (h.refused history name' hin hr).1
      have hj' : j = s.profiler.nodeCount := hindex
      rw [if_pos hj', if_pos (enters_enter.mpr ⟨not_suspended hfound, rfl⟩), hzero]
      rfl
  · exact fun _ => .inl ⟨_, hnode⟩

/-- The table is full: the call is lost and its path with it. -/
theorem Follows.enter_refused (h : Follows events s)
    (hat : s.profiler.tree.At s.profiler.currentNode (openPath events))
    (hfound : ∀ frame ∈ frames events, ¬ frame.Lost)
    (hfresh : ∀ i, s.profiler.tree.Child s.profiler.currentNode i → (s.profiler.nodes i).name ≠ name)
    (hfull : s.profiler.nodeCount = NODE_CAPACITY) {p : Profiler}
    (hdescend : s.profiler.descend s.profiler.currentNode name = some (NO_NODE, p))
    (hnodes : p.nodes = s.profiler.nodes) (hcount : p.nodeCount = s.profiler.nodeCount)
    (hrecording : p.recording = s.profiler.recording) :
    ∃ s', s.step (.enter name) = some s' ∧ Follows (events ++ [.enter name]) s' := by
  have hnone : ¬ ∃ i, s.profiler.tree.At i (openPath events ++ [name]) := fun ⟨i, hin⟩ =>
    hfresh i ((h.at_enter_iff hat).mp hin).1 ((h.at_enter_iff hat).mp hin).2
  have hrefused : Refused events name :=
    ⟨not_suspended hfound, s, h.run, hfull, ⟨_, hat⟩, hnone⟩
  have htree : p.tree = s.profiler.tree := by
    simp only [Profiler.tree, hnodes, hcount]
  refine h.of_descend hdescend (h.tree.of_nodes hnodes hcount) (htree ▸ .refl _) hrecording
    ?_ ?_ ?_ ?_
  · exact .inl ⟨rfl, _, List.mem_cons_self, .inr ⟨name, rfl, hrefused⟩⟩
  · intro j path hj hne
    rw [htree] at hj
    rw [hnodes]
    refine calls_of_not_enters (h.calls j path hj hne) fun henters => ?_
    obtain ⟨-, rfl⟩ := enters_enter.mp henters
    exact hnone ⟨j, hj⟩
  · exact fun _ => .inr ⟨events, name, List.prefix_rfl, hrefused, List.prefix_rfl⟩
  · rw [htree, hcount]
    exact fun hfull => ⟨hfull, fun _ _ => id⟩

end Found

theorem Follows.enter (h : Follows events s) (name : Name) :
    ∃ s', s.step (.enter name) = some s' ∧ Follows (events ++ [.enter name]) s' := by
  rcases h.located_current with ⟨hcurrent, hlost⟩ | ⟨hat, hfound⟩
  · exact h.enter_lost hcurrent hlost name
  · rcases h.tree.descend_cases (hat.lt h.tree.rooted.count_pos) name with
      ⟨i, hchild, hname, hdescend⟩ | ⟨hfresh, hroom, hdescend⟩ | ⟨hfresh, hfull, hdescend⟩
    · exact h.enter_known hfound ((h.at_enter_iff hat).mpr ⟨hchild, hname⟩) hdescend
    · exact h.enter_new hat hfound hfresh hroom hdescend
    · exact h.enter_refused hat hfound hfresh hfull hdescend rfl rfl rfl

theorem Follows.step (h : Follows events s) {event : Event} (hn : Nested (events ++ [event])) :
    ∃ s', s.step event = some s' ∧ Follows (events ++ [event]) s' := by
  cases event with
  | enter name => exact h.enter name
  | suspend => exact h.suspend
  | drop => exact h.drop (hn.of_concat.2 rfl)

end Step

/-- A properly nested run never gets stuck, and the invariant holds after it. -/
theorem exists_follows {events : List Event} (hn : Nested events) : ∃ s, Follows events s := by
  induction events using List.reverseRecOn with
  | nil => exact ⟨boot, boot_follows⟩
  | append_singleton events event ih =>
    obtain ⟨s, h⟩ := ih hn.of_concat.1
    obtain ⟨s', -, h'⟩ := h.step hn
    exact ⟨s', h'⟩

theorem Nested.of_front {first rest : List Event} (h : Nested (first ++ rest)) : Nested first := by
  induction rest using List.reverseRecOn with
  | nil => rwa [List.append_nil] at h
  | append_singleton rest event ih =>
    rw [← List.append_assoc] at h
    exact ih h.of_concat.1

/-- A path that has a node in the end and had none after some of the events was not
entered by those: a refused path stays without a node. -/
theorem Follows.not_entered {first rest : List Event} {s s' : Execution} {path : List Name} {i : Nat}
    (h : Follows first s) (h' : Follows (first ++ rest) s') (hat : s'.profiler.tree.At i path)
    (hnone : ¬ ∃ j, s.profiler.tree.At j path) : entered [] path first = 0 := by
  by_contra hpos
  rcases h.missing path (Nat.pos_of_ne_zero hpos) with hnode | ⟨history, name, hin, hrefused, hpath⟩
  · exact hnone hnode
  · obtain ⟨rest', hrest⟩ := hpath
    exact (h'.refused history name (hin.trans (List.prefix_append _ _)) hrefused).2
      (hat.of_front hrest.symm)

/-! ### What the tree counts -/

structure Counts (events : List Event) (s : Execution) : Prop where
  tree : CallTree s.profiler
  noNode : s.profiler.currentNode = NO_NODE ↔
    ∃ frame ∈ frames events, frame.event = .suspend ∨ frame.Dropped
  current : s.profiler.currentNode ≠ NO_NODE →
    s.profiler.tree.At s.profiler.currentNode (openPath events)
  calls : ∀ first rest, events = first ++ rest → ∀ i path, path ≠ [] →
    s.profiler.tree.At i path →
    (∀ s₀, boot.run first = some s₀ → ¬ ∃ j, s₀.profiler.tree.At j path) →
    (s.profiler.nodes i).calls = min (entered first path rest) (2 ^ 64 - 1)
  missing : ∀ path, 0 < entered [] path events → (¬ ∃ i, s.profiler.tree.At i path) →
    ∃ history name, history ++ [.enter name] <+: events ∧ Refused history name ∧
      openPath history ++ [name] <+: path

theorem Follows.counts {events : List Event} {s : Execution} (hn : Nested events)
    (h : Follows events s) : Counts events s where
  tree := h.tree
  noNode := by
    rcases h.located_current with ⟨hcurrent, hlost⟩ | ⟨hat, hfound⟩
    · exact iff_of_true hcurrent hlost
    · refine iff_of_false (fun heq => ?_) fun ⟨frame, hmem, hlost⟩ => hfound frame hmem hlost
      have hlt : s.profiler.currentNode < s.profiler.nodeCount := hat.lt h.tree.rooted.count_pos
      have hle := h.tree.count_le
      simp only [NODE_CAPACITY, NO_NODE] at *
      omega
  current := by
    intro hne
    rcases h.located_current with ⟨hcurrent, -⟩ | ⟨hat, -⟩
    · exact absurd hcurrent hne
    · exact hat
  calls := by
    rintro first rest rfl i path hne hat hnone
    obtain ⟨s₀, h₀⟩ := exists_follows hn.of_front
    have hzero := h₀.not_entered h hat (hnone s₀ h₀.run)
    rw [h.calls i path hat hne, entered_append, hzero, Nat.zero_add, List.nil_append]
  missing := fun path hpos hnone => (h.missing path hpos).resolve_left hnone

/-- Every properly nested run ends in a profile that counts its call paths. -/
theorem call_paths_counted {events : List Event} (hn : Nested events) :
    ∃ s, boot.run events = some s ∧ Counts events s := by
  obtain ⟨s, h⟩ := exists_follows hn
  exact ⟨s, h.run, h.counts hn⟩

/-- A timer interrupt inside a call: its own calls are counted below the call it
interrupts, and nothing while it suspends recording. -/
theorem interrupted_call_counted :
    Nested [.enter ['a'], .enter ['t'], .suspend, .enter ['e'], .drop, .drop, .drop, .drop] ∧
      ∃ s, boot.run [.enter ['a'], .enter ['t'], .suspend, .enter ['e'], .drop, .drop, .drop,
        .drop] = some s ∧
        Counts [.enter ['a'], .enter ['t'], .suspend, .enter ['e'], .drop, .drop, .drop, .drop] s :=
  ⟨by decide, call_paths_counted (by decide)⟩

end AgnostOS.Profiling
