import Mathlib.Data.List.Nodup
import Mathlib.Data.List.Range
import Mathlib.Logic.Function.Basic

/-! Dictionaries that keep their keys in the order of insertion. -/

abbrev Dict (κ ν : Type*) := List (κ × ν)

namespace Dict
variable {κ ν : Type*}

def get [DecidableEq κ] (d : Dict κ ν) (k : κ) : Option ν :=
  (d.find? fun e => e.1 = k).map Prod.snd

/-- `d[k] = v`; a key that is there keeps its place. -/
def set [DecidableEq κ] : Dict κ ν → κ → ν → Dict κ ν
  | [], k, v => [(k, v)]
  | e :: d, k, v => if e.1 = k then (k, v) :: d else e :: set d k v

def keys (d : Dict κ ν) : List κ := d.map Prod.fst

def values (d : Dict κ ν) : List ν := d.map Prod.snd

section Set
variable [DecidableEq κ] {d d' : Dict κ ν} {k : κ} {v : ν}

theorem set_append_of_fresh (h : ∀ e ∈ d, e.1 ≠ k) : set (d ++ d') k v = d ++ set d' k v := by
  induction d with
  | nil => rfl
  | cons e d ih =>
    rw [List.cons_append, set, if_neg (h e (by simp)), ih fun e' he' => h e' (by simp [he'])]
    rfl

theorem set_append_of_mem (h : ∃ e ∈ d, e.1 = k) : set (d ++ d') k v = set d k v ++ d' := by
  induction d with
  | nil => simp at h
  | cons e d ih =>
    rw [List.cons_append, set, set]
    split
    · rfl
    · next hne =>
      obtain ⟨e', he', hkey⟩ := h
      have hrest : e' ∈ d := (List.mem_cons.mp he').resolve_left fun heq => hne (heq ▸ hkey)
      rw [ih ⟨e', hrest, hkey⟩, List.cons_append]

end Set

/-! ### Dictionaries over the indices of a table -/

section Table
variable {key : Nat → κ} {g g' : Nat → ν} {n i : Nat} {v : ν}

def table (key : Nat → κ) (g : Nat → ν) (n : Nat) : Dict κ ν :=
  (List.range n).map fun i => (key i, g i)

@[simp] theorem length_table : (table key g n).length = n := by simp [table]

@[simp] theorem keys_table : (table key g n).keys = (List.range n).map key := by
  simp [keys, table]

theorem values_table : (table key g n).values = (List.range n).map g := by
  simp [values, table]

theorem table_succ : table key g (n + 1) = table key g n ++ [(key n, g n)] := by
  simp [table, List.range_succ]

theorem table_congr (h : ∀ i < n, g i = g' i) : table key g n = table key g' n := by
  refine List.map_congr_left fun i hi => ?_
  rw [h i (List.mem_range.mp hi)]

theorem fresh_key (hkey : Function.Injective key) : ∀ e ∈ table key g n, e.1 ≠ key n := by
  intro e he
  obtain ⟨j, hj, rfl⟩ := List.mem_map.mp he
  exact fun heq => (List.mem_range.mp hj).ne (hkey heq)

variable [DecidableEq κ]

theorem get_table (hkey : Function.Injective key) (hi : i < n) :
    get (table key g n) (key i) = some (g i) := by
  induction n with
  | zero => exact absurd hi (Nat.not_lt_zero i)
  | succ n ih =>
    rw [table_succ, get, List.find?_append, Option.map_or]
    cases Nat.lt_succ_iff_lt_or_eq.mp hi with
    | inl hlt =>
      have hfound := ih hlt
      rw [get] at hfound
      rw [hfound]
      rfl
    | inr heq =>
      subst heq
      have hnone : (table key g i).find? (fun e => e.1 = key i) = none :=
        List.find?_eq_none.mpr fun e he => by simpa using fresh_key hkey e he
      rw [hnone]
      simp

theorem set_table_new (hkey : Function.Injective key) :
    set (table key g n) (key n) v = table key (Function.update g n v) (n + 1) := by
  have hfresh : ∀ e ∈ table key g n, e.1 ≠ key n := fresh_key hkey
  have hset : set (table key g n ++ []) (key n) v = table key g n ++ [(key n, v)] :=
    set_append_of_fresh hfresh
  have hold : table key g n = table key (Function.update g n v) n :=
    table_congr fun i hi => (Function.update_of_ne hi.ne v g).symm
  rw [List.append_nil] at hset
  rw [hset, table_succ, Function.update_self, ← hold]

theorem set_table_old (hkey : Function.Injective key) (hi : i < n) :
    set (table key g n) (key i) v = table key (Function.update g i v) n := by
  induction n with
  | zero => exact absurd hi (Nat.not_lt_zero i)
  | succ n ih =>
    rw [table_succ, table_succ]
    cases Nat.lt_succ_iff_lt_or_eq.mp hi with
    | inl hlt =>
      have hmem : ∃ e ∈ table key g n, e.1 = key i :=
        ⟨(key i, g i), List.mem_map_of_mem (List.mem_range.mpr hlt), rfl⟩
      rw [set_append_of_mem hmem, ih hlt, Function.update_of_ne hlt.ne']
    | inr heq =>
      subst heq
      have hold : table key g i = table key (Function.update g i v) i :=
        table_congr fun j hj => (Function.update_of_ne hj.ne v g).symm
      rw [set_append_of_fresh (fresh_key hkey), Function.update_self, ← hold, set, if_pos rfl]

end Table
/-! ### Dictionaries over a list of keys -/

section Over
variable {ks ks' : List κ} {f g : κ → ν} {k : κ} {v : ν}

def onKeys (ks : List κ) (f : κ → ν) : Dict κ ν := ks.map fun k => (k, f k)

@[simp] theorem keys_onKeys : (onKeys ks f).keys = ks := by
  simp [keys, onKeys, Function.comp_def]

@[simp] theorem values_onKeys : (onKeys ks f).values = ks.map f := by
  simp [values, onKeys, Function.comp_def]

@[simp] theorem length_onKeys : (onKeys ks f).length = ks.length := by simp [onKeys]

theorem onKeys_congr (h : ∀ k ∈ ks, f k = g k) : onKeys ks f = onKeys ks g :=
  List.map_congr_left fun k hk => by rw [h k hk]

variable [DecidableEq κ]

theorem get_onKeys (hk : k ∈ ks) : get (onKeys ks f) k = some (f k) := by
  induction ks with
  | nil => cases hk
  | cons first ks ih =>
    by_cases hfirst : first = k
    · simp [get, onKeys, hfirst]
    · have hfound := ih ((List.mem_cons.mp hk).resolve_left fun heq => hfirst heq.symm)
      rw [get, onKeys] at hfound ⊢
      rw [List.map_cons, List.find?_cons_of_neg (by simpa using hfirst), hfound]

theorem get_onKeys_of_not_mem (hk : k ∉ ks) : get (onKeys ks f) k = none := by
  rw [get, Option.map_eq_none_iff, List.find?_eq_none]
  intro e he
  obtain ⟨k', hk', rfl⟩ := List.mem_map.mp he
  simpa using fun heq : k' = k => hk (heq ▸ hk')

theorem set_onKeys (hnodup : ks.Nodup) (hk : k ∈ ks) :
    set (onKeys ks f) k v = onKeys ks (Function.update f k v) := by
  induction ks with
  | nil => cases hk
  | cons first ks ih =>
    obtain ⟨hnew, hrest⟩ := List.nodup_cons.mp hnodup
    by_cases hfirst : first = k
    · subst hfirst
      have hsame : onKeys ks f = onKeys ks (Function.update f first v) := by
        refine onKeys_congr fun k' hk' => ?_
        have hne : k' ≠ first := fun heq => hnew (heq ▸ hk')
        rw [Function.update_of_ne hne]
      rw [onKeys] at hsame ⊢
      simp [set, hsame, onKeys]
    · have hin : k ∈ ks := (List.mem_cons.mp hk).resolve_left fun heq => hfirst heq.symm
      have hset := ih hrest hin
      rw [onKeys] at hset ⊢
      simp [set, hfirst, hset, onKeys]

theorem set_onKeys_new (hk : k ∉ ks) :
    set (onKeys ks f) k v = onKeys (ks ++ [k]) (Function.update f k v) := by
  have hfresh : ∀ e ∈ onKeys ks f, e.1 ≠ k := by
    intro e he
    obtain ⟨k', hk', rfl⟩ := List.mem_map.mp he
    exact fun heq => hk (heq ▸ hk')
  have hset : set (onKeys ks f ++ []) k v = onKeys ks f ++ [(k, v)] := set_append_of_fresh hfresh
  have hsame : onKeys ks f = onKeys ks (Function.update f k v) := by
    refine onKeys_congr fun k' hk' => ?_
    have hne : k' ≠ k := fun heq => hk (heq ▸ hk')
    rw [Function.update_of_ne hne]
  rw [List.append_nil] at hset
  rw [hset, hsame]
  simp [onKeys]

end Over
end Dict
