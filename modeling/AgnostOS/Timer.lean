import AgnostOS.Library.Loop
import AgnostOS.Library.Word
import Mathlib.Order.Bounds.Defs
import Mathlib.Order.MinMax
import Mathlib.Order.Monotone.Defs

/-! Uptime and sleeping of timer/mod.rs: the conversion of milliseconds to ticks is the
rounded-up inverse of the rounded-down conversion of ticks to milliseconds. -/
namespace AgnostOS.Timer
open Word

def PIT_FREQUENCY : Nat := 1193182
def TIMER_FREQUENCY : Nat := 1000
def PIT_DIVISOR : Nat := PIT_FREQUENCY / TIMER_FREQUENCY

def uptimeMs (ticks : Nat) : Nat :=
  saturatingMul 64 (saturatingMul 64 ticks PIT_DIVISOR) 1000 / PIT_FREQUENCY

def ticksForMs (milliseconds : Nat) : Nat :=
  if milliseconds = 0 then 0
  else
    let numerator := milliseconds * PIT_FREQUENCY
    let denominator := PIT_DIVISOR * 1000
    let quotient := numerator / denominator
    let roundedUp := quotient + if denominator ∣ numerator then 0 else 1
    min roundedUp (2 ^ 64 - 1)

def deadlineMs (ticks ms : Nat) : Nat := saturatingAdd 64 ticks (ticksForMs ms)

def expired (ticks deadline : Nat) : Bool := ticks ≥ deadline

/-- `sleep_ms` and `sleep_block` where call i of `ticks` returns `clock i`: the last call
before they return. -/
def sleepMs (interruptsEnabled : Bool) (clock : Nat → Nat) (ms fuel : Nat) : Option Nat :=
  if interruptsEnabled then
    let target := saturatingAdd 64 (clock 0) (ticksForMs ms)
    Loop.iterate (fun i => if clock i < target then .inr (i + 1) else .inl i) fuel 1
  else some 0

variable {ms t : Nat}

theorem frequency_pos : 0 < PIT_FREQUENCY := by decide
theorem divisor_pos : 0 < PIT_DIVISOR := by decide
theorem denominator_pos : 0 < PIT_DIVISOR * 1000 := by decide

theorem saturatingMul_mono {w a b c : Nat} (h : a ≤ b) :
    saturatingMul w a c ≤ saturatingMul w b c :=
  min_le_min_right _ (Nat.mul_le_mul_right c h)

theorem uptimeMs_of_lt (ht : t * PIT_DIVISOR * 1000 < 2 ^ 64) :
    uptimeMs t = t * PIT_DIVISOR * 1000 / PIT_FREQUENCY := by
  have hinner : t * PIT_DIVISOR < 2 ^ 64 := by omega
  rw [uptimeMs, saturatingMul_of_lt hinner, saturatingMul_of_lt ht]

theorem uptimeMs_mono : Monotone uptimeMs := by
  intro a b hab
  apply Nat.div_le_div_right
  exact saturatingMul_mono (saturatingMul_mono hab)

/-- The rounded-up quotient of the conversion, without the clamp. -/
theorem roundedUp_le_iff {n d t : Nat} (hd : 0 < d) :
    n / d + (if d ∣ n then 0 else 1) ≤ t ↔ n ≤ t * d := by
  by_cases hdvd : d ∣ n
  · rw [if_pos hdvd, Nat.add_zero]
    constructor
    · intro hle
      exact (Nat.div_mul_cancel hdvd).symm.trans_le (Nat.mul_le_mul_right d hle)
    · intro hle
      exact (Nat.div_le_iff_le_mul_add_pred hd).mpr (by rw [Nat.mul_comm d]; omega)
  · rw [if_neg hdvd, Nat.add_one_le_iff, Nat.div_lt_iff_lt_mul hd]
    -- an exact product would divide
    have hne : n ≠ t * d := fun heq => hdvd (heq ▸ Nat.dvd_mul_left d t)
    omega

theorem ticksForMs_le_iff (ht : t * PIT_DIVISOR * 1000 < 2 ^ 64) :
    ticksForMs ms ≤ t ↔ ms ≤ uptimeMs t := by
  rw [uptimeMs_of_lt ht, Nat.le_div_iff_mul_le frequency_pos]
  by_cases hzero : ms = 0
  · simp [ticksForMs, hzero]
  · have hround := roundedUp_le_iff (n := ms * PIT_FREQUENCY) (t := t) denominator_pos
    have hticks : t ≤ t * PIT_DIVISOR := Nat.le_mul_of_pos_right t divisor_pos
    rw [ticksForMs, if_neg hzero, mul_assoc, ← hround]
    simp only
    omega

theorem ticksForMs_mono : Monotone ticksForMs := by
  intro a b hab
  by_cases hzero : a = 0
  · simp [ticksForMs, hzero]
  · have hround := (roundedUp_le_iff denominator_pos).mpr
      ((Nat.mul_le_mul_right PIT_FREQUENCY hab).trans
        ((roundedUp_le_iff denominator_pos).mp le_rfl))
    rw [ticksForMs, ticksForMs, if_neg hzero, if_neg (by omega)]
    simp only
    omega

variable {s : Nat}

theorem inRange_mono {t : Nat} (hs : s * PIT_DIVISOR * 1000 < 2 ^ 64) (ht : t ≤ s) :
    t * PIT_DIVISOR * 1000 < 2 ^ 64 :=
  lt_of_le_of_lt (Nat.mul_le_mul_right 1000 (Nat.mul_le_mul_right PIT_DIVISOR ht)) hs

/-- The truncation at the first tick does not eat into the wait. -/
theorem uptimeMs_advance (hs : (s + ticksForMs ms) * PIT_DIVISOR * 1000 < 2 ^ 64) :
    uptimeMs s + ms ≤ uptimeMs (s + ticksForMs ms) := by
  have hticks := inRange_mono hs (Nat.le_add_left (ticksForMs ms) s)
  calc uptimeMs s + ms
      ≤ uptimeMs s + uptimeMs (ticksForMs ms) :=
        Nat.add_le_add_left ((ticksForMs_le_iff hticks).mp le_rfl) _
    _ = s * PIT_DIVISOR * 1000 / PIT_FREQUENCY +
          ticksForMs ms * PIT_DIVISOR * 1000 / PIT_FREQUENCY := by
        rw [uptimeMs_of_lt hticks, uptimeMs_of_lt (inRange_mono hs (Nat.le_add_right s _))]
    _ ≤ (s * PIT_DIVISOR * 1000 + ticksForMs ms * PIT_DIVISOR * 1000) / PIT_FREQUENCY :=
        Nat.div_add_div_le_add_div
    _ = uptimeMs (s + ticksForMs ms) := by rw [uptimeMs_of_lt hs, Nat.add_mul, Nat.add_mul]

theorem ticksForMs_isLeast (hticks : ticksForMs ms * PIT_DIVISOR * 1000 < 2 ^ 64) :
    IsLeast {t | ms ≤ uptimeMs t} (ticksForMs ms) := by
  refine ⟨(ticksForMs_le_iff hticks).mp le_rfl, fun t ht => ?_⟩
  by_contra hlt
  exact hlt ((ticksForMs_le_iff (inRange_mono hticks (Nat.le_of_not_le hlt))).mpr ht)

theorem deadlineMs_of_lt (hs : (s + ticksForMs ms) * PIT_DIVISOR * 1000 < 2 ^ 64) :
    deadlineMs s ms = s + ticksForMs ms := by
  have hticks : s + ticksForMs ms ≤ (s + ticksForMs ms) * PIT_DIVISOR :=
    Nat.le_mul_of_pos_right _ divisor_pos
  exact saturatingAdd_of_lt (by omega)

theorem uptimeMs_of_expired (hs : (s + ticksForMs ms) * PIT_DIVISOR * 1000 < 2 ^ 64) {now : Nat}
    (hnow : expired now (deadlineMs s ms)) : ms ≤ uptimeMs now - uptimeMs s := by
  rw [deadlineMs_of_lt hs, expired, decide_eq_true_eq] at hnow
  have hadvance := uptimeMs_advance hs
  have hmono := uptimeMs_mono hnow
  omega

/-- A loop that waits for the clock leaves at the first reading past the target. -/
theorem waiting_spec {clock : Nat → Nat} {target fuel start i : Nat}
    (h : Loop.iterate (fun i => if clock i < target then .inr (i + 1) else .inl i) fuel start =
      some i) : target ≤ clock i ∧ ∀ j, start ≤ j → j < i → clock j < target := by
  induction fuel generalizing start with
  | zero => cases h
  | succ fuel ih =>
    rw [Loop.iterate] at h
    by_cases hearly : clock start < target
    · rw [if_pos hearly] at h
      have hrest := ih h
      refine ⟨hrest.1, fun j hj hlt => ?_⟩
      cases Nat.eq_or_lt_of_le hj with
      | inl heq => exact heq ▸ hearly
      | inr hlater => exact hrest.2 j hlater hlt
    · rw [if_neg hearly] at h
      obtain rfl : start = i := Option.some.inj h
      exact ⟨Nat.le_of_not_lt hearly, fun j hj hlt => by omega⟩

/-- Sleeping takes at least the given time, no tick more than it takes, and both conversions
are monotone. -/
theorem sleep_exact (hs : (s + ticksForMs ms) * PIT_DIVISOR * 1000 < 2 ^ 64) :
    ms ≤ uptimeMs (s + ticksForMs ms) - uptimeMs s ∧
    IsLeast {t | ms ≤ uptimeMs t} (ticksForMs ms) ∧
    (Monotone uptimeMs ∧ Monotone ticksForMs) ∧
    (∀ now, expired now (deadlineMs s ms) → ms ≤ uptimeMs now - uptimeMs s) ∧
    ∀ clock fuel i, clock 0 = s → sleepMs true clock ms fuel = some i →
      ms ≤ uptimeMs (clock i) - uptimeMs s ∧ ∀ j, 0 < j → j < i → clock j < s + ticksForMs ms := by
  have hadvance := uptimeMs_advance hs
  refine ⟨by omega, ticksForMs_isLeast (inRange_mono hs (Nat.le_add_left _ s)),
    ⟨uptimeMs_mono, ticksForMs_mono⟩, fun now => uptimeMs_of_expired hs, ?_⟩
  intro clock fuel i hstart hsleep
  rw [sleepMs, if_pos rfl, hstart] at hsleep
  have hwait := waiting_spec hsleep
  have hdeadline : saturatingAdd 64 s (ticksForMs ms) = s + ticksForMs ms := deadlineMs_of_lt hs
  refine ⟨uptimeMs_of_expired hs (decide_eq_true hwait.1), fun j hj hlt => ?_⟩
  exact hdeadline ▸ hwait.2 j hj hlt

theorem sleep_exact_at_five_ms : 5 ≤ uptimeMs (7 + ticksForMs 5) - uptimeMs 7 := by
  have hrange : (7 + ticksForMs 5) * PIT_DIVISOR * 1000 < 2 ^ 64 := by decide
  exact (sleep_exact hrange).1

end AgnostOS.Timer
