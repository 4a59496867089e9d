import Mathlib.Data.List.Basic
import Mathlib.Data.List.InsertIdx
import Mathlib.Data.List.TakeWhile
import Mathlib.Tactic.Common

/-! A fixed array with a fill count: only the first `count` cells are live. The
in-place loops that close and open a gap are related to list deletion and
insertion. -/

structure Table (α : Type*) (cap : Nat) where
  slots : Nat → α
  count : Nat
  count_le : count ≤ cap

namespace Table
variable {α : Type*} {cap : Nat}

def empty (fill : α) : Table α cap := ⟨fun _ => fill, 0, Nat.zero_le cap⟩

def entries (t : Table α cap) : List α := (List.range t.count).map t.slots

@[simp] theorem entries_empty (fill : α) : (empty fill : Table α cap).entries = [] := rfl

def store (slots : Nat → α) (i : Nat) (x : α) : Nat → α := fun j => if j = i then x else slots j

def put (t : Table α cap) (i : Nat) (x : α) : Table α cap :=
  { t with slots := store t.slots i x }

def push (t : Table α cap) (x : α) (h : t.count < cap) : Table α cap :=
  ⟨store t.slots t.count x, t.count + 1, h⟩

/-- The first n moves of `for i in index.. { slots[i] = slots[i + 1] }`. -/
def closeGap : Nat → (Nat → α) → Nat → (Nat → α)
  | 0, slots, _ => slots
  | n + 1, slots, i => closeGap n (store slots i (slots (i + 1))) (i + 1)

def removeAt (t : Table α cap) (index : Nat) : Table α cap :=
  ⟨closeGap (t.count - 1 - index) t.slots index, t.count - 1,
    (Nat.sub_le _ _).trans t.count_le⟩

/-- `while i > index { slots[i] = slots[i - 1]; i -= 1 }` started at index + n. -/
def openGap : Nat → (Nat → α) → Nat → (Nat → α)
  | 0, slots, _ => slots
  | n + 1, slots, index => openGap n (store slots (index + n + 1) (slots (index + n))) index

def insertAt (t : Table α cap) (index : Nat) (x : α) (h : t.count < cap) : Table α cap :=
  ⟨store (openGap (t.count - index) t.slots index) index x, t.count + 1, h⟩

/-- `while i < count && p(slots[i]) { i += 1 }` with n cells left. -/
def scanFrom (p : α → Bool) (slots : Nat → α) : Nat → Nat → Nat
  | 0, i => i
  | n + 1, i => if p (slots i) then scanFrom p slots n (i + 1) else i

def scan (t : Table α cap) (p : α → Bool) : Nat := scanFrom p t.slots t.count 0

@[simp] theorem length_entries (t : Table α cap) : t.entries.length = t.count := by
  simp [entries]

@[simp] theorem getElem_entries (t : Table α cap) (i : Nat) (h : i < t.entries.length) :
    t.entries[i] = t.slots i := by
  simp [entries]

theorem slots_mem_entries {t : Table α cap} {i : Nat} (h : i < t.count) :
    t.slots i ∈ t.entries :=
  List.mem_map.mpr ⟨i, List.mem_range.mpr h, rfl⟩

theorem entries_put (t : Table α cap) (i : Nat) (x : α) :
    (t.put i x).entries = t.entries.set i x := by
  apply List.ext_getElem
  · simp [put, entries]
  · intro j hj hj'
    simp [put, store, List.getElem_set, eq_comm]

theorem entries_push (t : Table α cap) (x : α) (h : t.count < cap) :
    (t.push x h).entries = t.entries ++ [x] := by
  apply List.ext_getElem
  · simp [push, entries]
  · intro j hj hj'
    rw [List.getElem_append]
    have hlt : j < t.count + 1 := by simpa [push] using hj
    by_cases hjc : j = t.count
    · simp [push, store, hjc]
    · have hlive : j < t.count := by omega
      simp [push, store, hjc, hlive]

theorem closeGap_apply (n : Nat) (slots : Nat → α) (i j : Nat) :
    closeGap n slots i j = if i ≤ j ∧ j < i + n then slots (j + 1) else slots j := by
  induction n generalizing slots i with
  | zero =>
    have hnot : ¬ (i ≤ j ∧ j < i + 0) := by omega
    rw [if_neg hnot, closeGap]
  | succ n ih =>
    rw [closeGap, ih]
    simp only [store]
    by_cases hij : j = i
    · subst hij
      simp
    · have hiff : (i + 1 ≤ j ∧ j < i + 1 + n) ↔ (i ≤ j ∧ j < i + (n + 1)) := by omega
      by_cases hin : i ≤ j ∧ j < i + (n + 1)
      · have hji : ¬ j + 1 = i := by omega
        simp [hiff.mpr hin, hin, hji]
      · simp only [hiff, if_neg hin, if_neg hij]

theorem entries_removeAt (t : Table α cap) {index : Nat} (h : index < t.count) :
    (t.removeAt index).entries = t.entries.eraseIdx index := by
  apply List.ext_getElem
  · simp [removeAt, entries, List.length_eraseIdx, h]
  · intro j hj hj'
    have hlt : j < t.count - 1 := by simpa [removeAt] using hj
    rw [List.getElem_eraseIdx]
    by_cases hji : j < index
    · have hnot : ¬ (index ≤ j ∧ j < index + (t.count - 1 - index)) := by omega
      simp [removeAt, closeGap_apply, hnot, hji]
    · have hin : index ≤ j ∧ j < index + (t.count - 1 - index) := by omega
      simp [removeAt, closeGap_apply, hin, hji]

theorem openGap_apply (n : Nat) (slots : Nat → α) (index j : Nat) :
    openGap n slots index j = if index < j ∧ j ≤ index + n then slots (j - 1) else slots j := by
  induction n generalizing slots with
  | zero =>
    have hnot : ¬ (index < j ∧ j ≤ index + 0) := by omega
    rw [if_neg hnot, openGap]
  | succ n ih =>
    rw [openGap, ih]
    simp only [store]
    by_cases hlast : j = index + n + 1
    · have hout : ¬ (index < j ∧ j ≤ index + n) := by omega
      have hin : index < j ∧ j ≤ index + (n + 1) := by omega
      have hpred : j - 1 = index + n := by omega
      rw [if_neg hout, if_pos hlast, if_pos hin, hpred]
    · have hiff : (index < j ∧ j ≤ index + n) ↔ (index < j ∧ j ≤ index + (n + 1)) := by omega
      by_cases hin : index < j ∧ j ≤ index + (n + 1)
      · have hne : ¬ j - 1 = index + n + 1 := by omega
        simp [hiff.mpr hin, hin, hne]
      · simp only [hiff, if_neg hin, if_neg hlast]

theorem entries_insertAt (t : Table α cap) {index : Nat} (x : α) (h : t.count < cap)
    (hindex : index ≤ t.count) :
    (t.insertAt index x h).entries = t.entries.insertIdx index x := by
  apply List.ext_getElem
  · simp [insertAt, entries, List.length_insertIdx, hindex]
  · intro j hj hj'
    have hlt : j < t.count + 1 := by simpa [insertAt] using hj
    rw [List.getElem_insertIdx]
    rcases lt_trichotomy j index with hji | hji | hji
    · have hne : ¬ j = index := by omega
      have hnot : ¬ (index < j ∧ j ≤ index + (t.count - index)) := by omega
      simp [insertAt, store, openGap_apply, hne, hnot, hji]
    · subst hji
      simp [insertAt, store]
    · have hne : ¬ j = index := by omega
      have hnlt : ¬ j < index := by omega
      have hin : index < j ∧ j ≤ index + (t.count - index) := by omega
      simp [insertAt, store, openGap_apply, hne, hin, hnlt]

theorem scanFrom_eq (p : α → Bool) (slots : Nat → α) (n i : Nat) :
    scanFrom p slots n i =
      i + (((List.range' i n).map slots).takeWhile p).length := by
  induction n generalizing i with
  | zero => simp [scanFrom]
  | succ n ih =>
    rw [scanFrom, List.range'_succ, List.map_cons, List.takeWhile_cons]
    by_cases hp : p (slots i)
    · simp only [hp, if_true, ih, List.length_cons]
      omega
    · simp [hp]

theorem scan_eq (t : Table α cap) (p : α → Bool) :
    t.scan p = (t.entries.takeWhile p).length := by
  rw [scan, scanFrom_eq, entries, List.range_eq_range']
  simp

/-! ### The same operations at a known position of the live prefix -/

theorem count_eq {t : Table α cap} {l : List α} (h : t.entries = l) : t.count = l.length := by
  rw [← h, length_entries]

theorem slots_eq {t : Table α cap} {l r : List α} {x : α} (h : t.entries = l ++ x :: r) :
    t.slots l.length = x := by
  have hlen : l.length < t.entries.length := by simp [h]
  rw [← getElem_entries t l.length hlen]
  simp [h]

theorem split_at (t : Table α cap) {i : Nat} (h : i < t.count) :
    ∃ l r, l.length = i ∧ t.entries = l ++ t.slots i :: r := by
  have hlen : i < t.entries.length := by simpa using h
  refine ⟨t.entries.take i, t.entries.drop (i + 1), by simp [h.le], ?_⟩
  rw [← getElem_entries t i hlen, List.getElem_cons_drop, List.take_append_drop]

/-- What the cell before the split point is asked is asked of the last entry on the left. -/
theorem previous_iff {t : Table α cap} {l r : List α} (h : t.entries = l ++ r) (p : α → Prop) :
    (l.length > 0 ∧ p (t.slots (l.length - 1))) ↔ ∃ x ∈ l.getLast?, p x := by
  rcases List.eq_nil_or_concat' l with rfl | ⟨front, x, rfl⟩
  · simp
  · have hslot : t.slots front.length = x := slots_eq (r := r) (by simpa using h)
    simp [hslot]

theorem next_iff {t : Table α cap} {l r : List α} (h : t.entries = l ++ r) (p : α → Prop) :
    (l.length < t.count ∧ p (t.slots l.length)) ↔ ∃ x ∈ r.head?, p x := by
  cases r with
  | nil => simp [count_eq h]
  | cons x r => simp [count_eq h, slots_eq h]

theorem entries_put_split {t : Table α cap} {l r : List α} {x : α} (h : t.entries = l ++ x :: r)
    (y : α) : (t.put l.length y).entries = l ++ y :: r := by
  rw [entries_put, h, List.set_append_right _ _ le_rfl, Nat.sub_self, List.set_cons_zero]

theorem entries_removeAt_split {t : Table α cap} {l r : List α} {x : α}
    (h : t.entries = l ++ x :: r) : (t.removeAt l.length).entries = l ++ r := by
  have hcount : l.length < t.count := by simp [count_eq h]
  rw [entries_removeAt t hcount, h, List.eraseIdx_append_of_length_le le_rfl, Nat.sub_self,
    List.eraseIdx_cons_zero]

theorem entries_insertAt_split {t : Table α cap} {l r : List α} (h : t.entries = l ++ r) (y : α)
    (hroom : t.count < cap) : (t.insertAt l.length y hroom).entries = l ++ y :: r := by
  have hcount : l.length ≤ t.count := by simp [count_eq h]
  rw [entries_insertAt t y hroom hcount, h]
  clear h hcount
  induction l with
  | nil => rfl
  | cons z l ih => exact congrArg (z :: ·) ih

end Table
