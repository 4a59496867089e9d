import AgnostOS.Library.Trace

/-! Coroutines that share nothing: one of them runs, and a switch suspends it and lets
another one go on. -/
namespace Coroutine

inductive Event (ι ρ : Type*) where
  | work
  | switchTo (next : ι) (resume : ρ)

/-- Who runs, and what each coroutine would see if it ran. -/
structure State (ι V : Type*) where
  current : ι
  view : ι → V

variable {ι ρ V : Type*} [DecidableEq ι]

inductive Step (park : ρ → V → V) : Event ι ρ → State ι V → State ι V → Prop
  | work {s : State ι V} (v : V) : Step park .work s { s with view := Function.update s.view s.current v }
  | switchTo {s : State ι V} {next : ι} (resume : ρ) (hne : next ≠ s.current) :
      Step park (.switchTo next resume) s
        ⟨next, Function.update s.view s.current (park resume (s.view s.current))⟩

variable {park : ρ → V → V} {e : Event ι ρ} {s s' : State ι V}

theorem Step.view_of_ne (h : Step park e s s') {i : ι} (hi : i ≠ s.current) :
    s'.view i = s.view i := by
  cases h with
  | work v => exact Function.update_of_ne hi ..
  | switchTo resume hne => exact Function.update_of_ne hi ..

theorem Step.current_ne (h : Step park e s s') {i : ι} (hi : i ≠ s.current)
    (hother : ∀ resume, e ≠ .switchTo i resume) : i ≠ s'.current := by
  cases h with
  | work v => exact hi
  | @switchTo _ next resume hne =>
    rintro rfl
    exact hother resume rfl

theorem asleep {events : List (Event ι ρ)} (h : Trace (Step park) events s s') {i : ι}
    (hi : i ≠ s.current) (hothers : ∀ resume, .switchTo i resume ∉ events) :
    i ≠ s'.current ∧ s'.view i = s.view i := by
  induction events generalizing s with
  | nil => exact h ▸ ⟨hi, rfl⟩
  | cons e events ih =>
    obtain ⟨t, hstep, hrest⟩ := h
    have hawake := hstep.current_ne hi fun resume heq =>
      hothers resume (heq ▸ List.mem_cons_self)
    obtain ⟨hcurrent, hview⟩ := ih hrest hawake fun resume hmem =>
      hothers resume (List.mem_cons_of_mem e hmem)
    exact ⟨hcurrent, hview.trans (hstep.view_of_ne hi)⟩

/-- Between its own switch and the switch back to it a coroutine sees nothing happen. -/
theorem resumed {next i : ι} {resume back : ρ} {events : List (Event ι ρ)} (hi : s.current = i)
    (h : Trace (Step park) (.switchTo next resume :: events ++ [.switchTo i back]) s s')
    (hothers : ∀ resume, .switchTo i resume ∉ events) :
    s'.current = i ∧ s'.view i = park resume (s.view i) := by
  subst hi
  obtain ⟨t, hleave, hrest⟩ := h
  obtain ⟨u, hevents, v, hback, rfl⟩ := Trace.append_iff.mp hrest
  cases hleave with
  | switchTo _ hne =>
    obtain ⟨hcurrent, hview⟩ := asleep hevents hne.symm hothers
    cases hback with
    | switchTo _ _ =>
      have hself := (Function.update_of_ne hcurrent (park back (u.view u.current)) u.view).trans hview
      exact ⟨rfl, hself.trans (Function.update_self ..)⟩

end Coroutine
