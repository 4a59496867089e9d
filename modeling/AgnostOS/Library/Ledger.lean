import Mathlib.Data.List.Perm.Basic
import Mathlib.Data.List.Count

/-! A ledger of interchangeable resources: every one is either free or held. -/

structure Ledger (α : Type*) where
  free : List α
  held : List α

namespace Ledger
variable {α : Type*}

def Balanced (stock : List α) (l : Ledger α) : Prop := (l.free ++ l.held).Perm stock

section Exchange
variable [DecidableEq α]

inductive Step : Ledger α → Ledger α → Prop
  | grant {free free' held : List α} (batch : List α) (h : free.Perm (batch ++ free')) :
      Step ⟨free, held⟩ ⟨free', batch ++ held⟩
  | reclaim {free free' held : List α} (x : α) (hx : x ∈ held) (h : free'.Perm (x :: free)) :
      Step ⟨free, held⟩ ⟨free', held.erase x⟩
  | refuse (l : Ledger α) : Step l l

theorem Step.balanced {stock : List α} {l l' : Ledger α} (h : Step l l')
    (hb : Balanced stock l) : Balanced stock l' := by
  cases h with
  | @grant free free' held batch hperm =>
    have hmove : (free' ++ (batch ++ held)).Perm (batch ++ free' ++ held) := by
      rw [← List.append_assoc]
      exact List.perm_append_comm.append_right held
    exact hmove.trans ((hperm.symm.append_right held).trans hb)
  | @reclaim free free' held x hx hperm =>
    have hback : (x :: held.erase x).Perm held := (List.perm_cons_erase hx).symm
    have hmove : (x :: free ++ held.erase x).Perm (free ++ held) := by
      refine List.Perm.trans ?_ (hback.append_left free)
      exact List.perm_middle.symm
    exact (hperm.append_right _).trans (hmove.trans hb)
  | refuse => exact hb

end Exchange

theorem Balanced.mem_or {stock : List α} {l : Ledger α} (hb : Balanced stock l) {x : α} :
    x ∈ stock ↔ x ∈ l.free ∨ x ∈ l.held :=
  (List.Perm.mem_iff hb).symm.trans List.mem_append

/-- In a stock without duplicates nothing is free and held at once. -/
theorem Balanced.not_held {stock : List α} {l : Ledger α} (hb : Balanced stock l)
    (hn : stock.Nodup) {x : α} (hx : x ∈ l.free) : x ∉ l.held := by
  have happend := List.nodup_append.mp ((List.Perm.nodup_iff hb).mpr hn)
  exact fun hheld => happend.2.2 x hx x hheld rfl

theorem Balanced.free_nodup {stock : List α} {l : Ledger α} (hb : Balanced stock l)
    (hn : stock.Nodup) : l.free.Nodup :=
  (List.nodup_append.mp ((List.Perm.nodup_iff hb).mpr hn)).1

theorem Balanced.free_length_le {stock : List α} {l : Ledger α} (hb : Balanced stock l) :
    l.free.length ≤ stock.length := by
  have hlen := List.Perm.length_eq hb
  rw [List.length_append] at hlen
  omega

end Ledger
