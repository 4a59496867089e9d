import Mathlib.Tactic.Common

/-! While loops with a fuel bound: the body either leaves with a result or goes on. -/

namespace Loop
variable {σ ρ : Type*}

def iterate (body : σ → ρ ⊕ σ) : Nat → σ → Option ρ
  | 0, _ => none
  | fuel + 1, s =>
    match body s with
    | .inl result => some result
    | .inr next => iterate body fuel next

theorem iterate_of_inl {body : σ → ρ ⊕ σ} {s : σ} {result : ρ} (h : body s = .inl result)
    (fuel : Nat) : iterate body (fuel + 1) s = some result := by
  rw [iterate, h]

theorem iterate_of_inr {body : σ → ρ ⊕ σ} {s next : σ} (h : body s = .inr next) (fuel : Nat) :
    iterate body (fuel + 1) s = iterate body fuel next := by
  rw [iterate, h]

theorem iterate_add {body : σ → ρ ⊕ σ} {fuel : Nat} {s : σ} {result : ρ}
    (h : iterate body fuel s = some result) (more : Nat) :
    iterate body (fuel + more) s = some result := by
  induction fuel generalizing s with
  | zero => cases h
  | succ fuel ih =>
    rw [Nat.succ_add]
    cases hbody : body s with
    | inl r =>
      rw [iterate_of_inl hbody] at h ⊢
      exact h
    | inr next =>
      rw [iterate_of_inr hbody] at h ⊢
      exact ih h

theorem iterate_unique {body : σ → ρ ⊕ σ} {fuel fuel' : Nat} {s : σ} {r r' : ρ}
    (h : iterate body fuel s = some r) (h' : iterate body fuel' s = some r') : r = r' := by
  have hleft := iterate_add h fuel'
  have hright := iterate_add h' fuel
  rw [Nat.add_comm] at hright
  exact Option.some.inj (hleft.symm.trans hright)

/-- A loop over images of states does what the loop over the states does. -/
theorem iterate_map {σ' ρ' : Type*} {body : σ → ρ ⊕ σ} {body' : σ' → ρ' ⊕ σ'} {I : σ → Prop}
    {f : σ → σ'} {g : ρ → ρ'} (hkeep : ∀ s next, I s → body s = .inr next → I next)
    (hbody : ∀ s, I s → body' (f s) = (body s).map g f) {s : σ} (hs : I s) (fuel : Nat) :
    iterate body' fuel (f s) = (iterate body fuel s).map g := by
  induction fuel generalizing s with
  | zero => rfl
  | succ fuel ih =>
    have hstep := hbody s hs
    cases hnext : body s with
    | inl result =>
      rw [hnext] at hstep
      rw [iterate_of_inl hnext, iterate_of_inl hstep]
      rfl
    | inr next =>
      rw [hnext] at hstep
      rw [iterate_of_inr hnext, iterate_of_inr hstep]
      exact ih (hkeep s next hs hnext)

/-- A loop ends where each round lowers a measure, with what its exits say. -/
theorem iterate_ends {body : σ → ρ ⊕ σ} {I : σ → Prop} {Q : ρ → Prop} {m : σ → Nat}
    (hround : ∀ s next, I s → body s = .inr next → I next ∧ m next < m s)
    (hexit : ∀ s result, I s → body s = .inl result → Q result) {fuel : Nat} {s : σ} (hs : I s)
    (hfuel : m s < fuel) : ∃ result, iterate body fuel s = some result ∧ Q result := by
  induction fuel generalizing s with
  | zero => exact absurd hfuel (Nat.not_lt_zero _)
  | succ fuel ih =>
    cases hbody : body s with
    | inl result => exact ⟨result, iterate_of_inl hbody fuel, hexit s result hs hbody⟩
    | inr next =>
      obtain ⟨hnext, hless⟩ := hround s next hs hbody
      rw [iterate_of_inr hbody]
      exact ih hnext (by omega)

def visited (body : σ → ρ ⊕ σ) : Nat → σ → List σ
  | 0, _ => []
  | fuel + 1, s =>
    s :: match body s with
      | .inl _ => []
      | .inr next => visited body fuel next

theorem forall_visited {body : σ → ρ ⊕ σ} {I : σ → Prop}
    (hbody : ∀ s next, I s → body s = .inr next → I next) {fuel : Nat} {s : σ} (hs : I s) :
    ∀ t ∈ visited body fuel s, I t := by
  induction fuel generalizing s with
  | zero => simp [visited]
  | succ fuel ih =>
    rw [visited]
    rw [List.forall_mem_cons]
    refine ⟨hs, ?_⟩
    cases hnext : body s with
    | inl result => simp
    | inr next => exact ih (hbody s next hs hnext)

/-- A body that leads from each state of a sequence to the next, and leaves at the last one. -/
theorem iterate_sequence {body : σ → ρ ⊕ σ} {f : Nat → σ} {n : Nat} {result : ρ}
    (hnext : ∀ j, j < n → body (f j) = .inr (f (j + 1))) (hlast : body (f n) = .inl result)
    (more : Nat) : iterate body (n + more + 1) (f 0) = some result ∧
      visited body (n + more + 1) (f 0) = (List.range (n + 1)).map f := by
  induction n generalizing f with
  | zero =>
    refine ⟨iterate_of_inl hlast _, ?_⟩
    rw [visited, hlast]
    rfl
  | succ n ih =>
    have hfirst : body (f 0) = .inr (f 1) := hnext 0 (by omega)
    have hrest := ih (f := fun j => f (j + 1)) (fun j hj => hnext (j + 1) (by omega)) hlast
    rw [Nat.succ_add]
    refine ⟨(iterate_of_inr hfirst _).trans hrest.1, ?_⟩
    rw [visited, hfirst, List.range_succ_eq_map, List.map_cons, List.map_map]
    simp only
    rw [hrest.2]
    rfl

end Loop
