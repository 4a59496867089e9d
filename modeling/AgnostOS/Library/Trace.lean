import Mathlib.Data.List.Induction
import Mathlib.Tactic.Common

/-! Labelled transitions: traces of events, their composition and projection, and
what a trace must contain to leave a set of states. -/

def Trace {ε σ : Type*} (move : ε → σ → σ → Prop) : List ε → σ → σ → Prop
  | [], a, b => a = b
  | e :: events, a, c => ∃ b, move e a b ∧ Trace move events b c

namespace Trace
variable {ε σ τ : Type*} {move : ε → σ → σ → Prop} {a b c : σ}

theorem nil : Trace move [] a a := rfl

theorem cons {e : ε} {events : List ε} (h : move e a b) (hrest : Trace move events b c) :
    Trace move (e :: events) a c :=
  ⟨b, h, hrest⟩

theorem single {e : ε} (h : move e a b) : Trace move [e] a b := ⟨b, h, rfl⟩

theorem append_iff {first second : List ε} : Trace move (first ++ second) a c ↔
    ∃ b, Trace move first a b ∧ Trace move second b c := by
  induction first generalizing a with
  | nil => simp [Trace]
  | cons e first ih =>
    simp only [List.cons_append, Trace, ih]
    constructor
    · rintro ⟨a', he, b, hfirst, hsecond⟩
      exact ⟨b, ⟨a', he, hfirst⟩, hsecond⟩
    · rintro ⟨b, ⟨a', he, hfirst⟩, hsecond⟩
      exact ⟨a', he, b, hfirst, hsecond⟩

theorem append {first second : List ε} (h : Trace move first a b) (h' : Trace move second b c) :
    Trace move (first ++ second) a c :=
  append_iff.mpr ⟨b, h, h'⟩

theorem invariant {I : σ → Prop} (hmove : ∀ e s t, I s → move e s t → I t) {events : List ε}
    (h : Trace move events a b) (ha : I a) : I b := by
  induction events generalizing a with
  | nil => exact h ▸ ha
  | cons e events ih =>
    obtain ⟨s, he, hrest⟩ := h
    exact ih hrest (hmove e a s ha he)

/-- Two ways to move that agree where an invariant holds have the same traces from there. -/
theorem congr_of_invariant {move' : ε → σ → σ → Prop} {I : σ → Prop}
    (hiff : ∀ e s t, I s → (move e s t ↔ move' e s t)) (hmove : ∀ e s t, I s → move e s t → I t)
    {events : List ε} (ha : I a) : Trace move events a b ↔ Trace move' events a b := by
  induction events generalizing a with
  | nil => exact Iff.rfl
  | cons e events ih =>
    apply exists_congr
    intro s
    constructor
    · intro h
      exact ⟨(hiff e a s ha).mp h.1, (ih (hmove e a s ha h.1)).mp h.2⟩
    · intro h
      have hfirst := (hiff e a s ha).mpr h.1
      exact ⟨hfirst, (ih (hmove e a s ha hfirst)).mpr h.2⟩

/-- An invariant that may also depend on the events so far. -/
theorem history_invariant {I : List ε → σ → Prop}
    (hmove : ∀ events e s t, I events s → move e s t → I (events ++ [e]) t) {events : List ε}
    (h : Trace move events a b) (ha : I [] a) : I events b := by
  induction events using List.reverseRecOn generalizing b with
  | nil => exact h ▸ ha
  | append_singleton events e ih =>
    obtain ⟨s, hevents, t, he, rfl⟩ := append_iff.mp h
    exact hmove events e s t (ih hevents) he

/-- A projection that maps moves to moves maps traces to traces. -/
theorem project {move' : ε → τ → τ → Prop} (f : σ → τ)
    (hmove : ∀ e s t, move e s t → move' e (f s) (f t)) {events : List ε}
    (h : Trace move events a b) : Trace move' events (f a) (f b) := by
  induction events generalizing a with
  | nil => exact congrArg f h
  | cons e events ih =>
    obtain ⟨s, he, hrest⟩ := h
    exact ⟨f s, hmove e a s he, ih hrest⟩

theorem mono {move' : ε → σ → σ → Prop} (hmove : ∀ e s t, move e s t → move' e s t)
    {events : List ε} (h : Trace move events a b) : Trace move' events a b :=
  h.project id hmove

/-- A trace of events of one kind is one of the moves of that kind. -/
theorem restrict {kind : ε → Prop} {events : List ε} (h : Trace move events a b)
    (hkind : ∀ e ∈ events, kind e) : Trace (fun e s t => kind e ∧ move e s t) events a b := by
  induction events generalizing a with
  | nil => exact h
  | cons e events ih =>
    obtain ⟨s, he, hrest⟩ := h
    obtain ⟨hfirst, hlater⟩ := List.forall_mem_cons.mp hkind
    exact ⟨s, ⟨hfirst, he⟩, ih hrest hlater⟩

/-- Who leaves a set of states does so by some event of the trace. -/
theorem exists_leaving {P : σ → Prop} {events : List ε} (h : Trace move events a b) (ha : P a)
    (hb : ¬ P b) : ∃ e ∈ events, ∃ s t, move e s t ∧ P s ∧ ¬ P t := by
  induction events generalizing a with
  | nil => exact absurd (h ▸ ha) hb
  | cons e events ih =>
    obtain ⟨s, he, hrest⟩ := h
    by_cases hs : P s
    · obtain ⟨e', hmem, hleave⟩ := ih hrest hs
      exact ⟨e', List.mem_cons_of_mem e hmem, hleave⟩
    · exact ⟨e, List.mem_cons_self, a, s, he, ha, hs⟩

/-! ### Systems that compute their next state -/

def passes {κ : Type*} (next : σ → ε → Except κ σ) (allowed : σ → ε → Prop)
    [∀ s e, Decidable (allowed s e)] : List ε → σ → Bool
  | [], _ => true
  | e :: events, s =>
    decide (allowed s e) &&
      match next s e with
      | .ok t => passes next allowed events t
      | .error _ => false

theorem exists_of_passes {κ : Type*} {next : σ → ε → Except κ σ} {allowed : σ → ε → Prop}
    [∀ s e, Decidable (allowed s e)] {events : List ε} (h : passes next allowed events a = true) :
    ∃ b, Trace (fun e s t => next s e = .ok t ∧ allowed s e) events a b := by
  induction events generalizing a with
  | nil => exact ⟨a, nil⟩
  | cons e events ih =>
    rw [passes, Bool.and_eq_true, decide_eq_true_eq] at h
    obtain ⟨hallowed, hrest⟩ := h
    cases hnext : next a e with
    | error stop => simp [hnext] at hrest
    | ok t =>
      rw [hnext] at hrest
      obtain ⟨b, htrace⟩ := ih hrest
      exact ⟨b, cons ⟨hnext, hallowed⟩ htrace⟩

end Trace
