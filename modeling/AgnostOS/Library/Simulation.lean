import AgnostOS.Library.Trace

/-! Forward simulation: a relation that every event of one system carries over to another
system carries over whole traces, event by event or by what each event shows. -/

/-- From related states every event of the first system is one of the second. -/
def Simulates {ε σ τ : Type*} (move : ε → σ → σ → Prop) (move' : ε → τ → τ → Prop)
    (R : σ → τ → Prop) : Prop :=
  ∀ e s s' t, R s t → move e s s' → ∃ t', move' e t t' ∧ R s' t'

namespace Simulates
variable {ε σ τ : Type*} {move : ε → σ → σ → Prop} {move' : ε → τ → τ → Prop}
  {R : σ → τ → Prop}

theorem trace (h : Simulates move move' R) {events : List ε} {a b : σ} {t : τ} (hr : R a t)
    (htrace : Trace move events a b) : ∃ t', Trace move' events t t' ∧ R b t' := by
  induction events generalizing a t with
  | nil => exact ⟨t, Trace.nil, htrace ▸ hr⟩
  | cons e events ih =>
    obtain ⟨s, hmove, hrest⟩ := htrace
    obtain ⟨u, hmove', hu⟩ := h e a s t hr hmove
    obtain ⟨t', hrest', ht'⟩ := ih hu hrest
    exact ⟨t', hrest'.cons hmove', ht'⟩

end Simulates

/-- From related states every event of the first system is a trace of what it shows in the
second, which may be nothing. -/
def ShowsAs {ε ε' σ τ : Type*} (move : ε → σ → σ → Prop) (move' : ε' → τ → τ → Prop)
    (shown : ε → List ε') (R : σ → τ → Prop) : Prop :=
  ∀ e s s' t, R s t → move e s s' → ∃ t', Trace move' (shown e) t t' ∧ R s' t'

theorem ShowsAs.trace {ε ε' σ τ : Type*} {move : ε → σ → σ → Prop} {move' : ε' → τ → τ → Prop}
    {shown : ε → List ε'} {R : σ → τ → Prop} (h : ShowsAs move move' shown R) {events : List ε}
    {a b : σ} {t : τ} (hr : R a t) (htrace : Trace move events a b) :
    ∃ t', Trace move' (events.flatMap shown) t t' ∧ R b t' := by
  induction events generalizing a t with
  | nil => exact ⟨t, Trace.nil, htrace ▸ hr⟩
  | cons e events ih =>
    obtain ⟨s, hmove, hrest⟩ := htrace
    obtain ⟨u, hshown, hu⟩ := h e a s t hr hmove
    obtain ⟨t', hrest', ht'⟩ := ih hu hrest
    exact ⟨t', by rw [List.flatMap_cons]; exact hshown.append hrest', ht'⟩
