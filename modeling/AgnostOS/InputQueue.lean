import AgnostOS.Library.Fifo
import AgnostOS.Library.Word

/-! The byte queues between the input IRQs and the shell, as keyboard/mod.rs and
mouse/mod.rs both keep them. -/
namespace AgnostOS.Input
open Word

abbrev RB_SIZE : Nat := 256

structure InputQueue (α : Type) where
  queue : Fifo RB_SIZE α
  dropped : Nat

namespace InputQueue
variable {α : Type}

def new : InputQueue α := ⟨.empty, 0⟩

def push (q : InputQueue α) (code : α) : InputQueue α :=
  match q.queue.tryPush code with
  | some queue => { q with queue := queue }
  | none => { q with dropped := wrappingAdd 64 q.dropped 1 }

def pop (q : InputQueue α) : Option α × InputQueue α :=
  match q.queue.tryPop with
  | some (code, queue) => (some code, { q with queue := queue })
  | none => (none, q)

def takeDropped (q : InputQueue α) : Nat × InputQueue α := (q.dropped, { q with dropped := 0 })

def accepts (q : InputQueue α) (code : α) : List α := if q.queue.isFull then [] else [code]

theorem push_conserves {q : InputQueue α} {accepted popped : List α} (code : α)
    (h : q.queue.Conserves accepted popped) :
    (q.push code).queue.Conserves (accepted ++ q.accepts code) popped := by
  cases hpush : q.queue.tryPush code with
  | some queue =>
    have hroom := (Fifo.tryPush_eq_some.mp hpush).1
    simp only [push, hpush, accepts, hroom]
    exact h.push hpush
  | none =>
    have hfull := Fifo.tryPush_eq_none.mp hpush
    simp only [push, hpush, accepts, hfull, if_true, List.append_nil]
    exact h

theorem pop_conserves {q : InputQueue α} {accepted popped : List α}
    (h : q.queue.Conserves accepted popped) :
    q.pop.2.queue.Conserves accepted (popped ++ q.pop.1.toList) := by
  cases hpop : q.queue.tryPop with
  | some found =>
    simp only [pop, hpop, Option.toList_some]
    exact h.pop hpop
  | none =>
    simp only [pop, hpop, Option.toList_none, List.append_nil]
    exact h

theorem pop_eq_none {q : InputQueue α} : q.pop.1 = none ↔ q.queue.items = [] := by
  rw [← Fifo.tryPop_eq_none]
  cases hpop : q.queue.tryPop with
  | some found => simp [pop, hpop]
  | none => simp [pop, hpop]

end InputQueue

end AgnostOS.Input
