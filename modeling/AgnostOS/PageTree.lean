import AgnostOS.Paging
import Mathlib.Data.Finset.Card

/-! The table hierarchy as a tree: which index paths lead to a table, who owns the
tables, and what one level of a mapping does to them. -/
namespace AgnostOS.Paging
open Globals AgnostOS.Frame Attempt PageTableFlags

def Entry.Sound (entry : Entry) : Prop :=
  entry.isUnused ∨ present entry.flags ∧ ¬ huge entry.flags

namespace Entry

theorem sound_unused : unused.Sound := .inl rfl

theorem Sound.link_eq_none_iff {entry : Entry} (h : entry.Sound) :
    entry.link = none ↔ entry.isUnused := by
  cases h with
  | inl hunused =>
    rw [isUnused] at hunused
    simp [hunused, isUnused]
  | inr hlinked =>
    have hne : ¬ entry.isUnused := by
      rintro rfl
      revert hlinked
      decide
    rw [link_eq hlinked.1 hlinked.2]
    simp [hne]

end Entry

def tablePath (page : Nat) : List Nat := [p4Index page, p3Index page, p2Index page]

theorem indices_eq (page : Nat) : indices page = tablePath page ++ [p1Index page] := rfl

namespace AddressSpace

def lowNext (m : AddressSpace) (root table index : Nat) : Option Nat :=
  if table = root ∧ index = RECURSIVE_INDEX then none else m.next table index

def tableAt (m : AddressSpace) (root : Nat) (path : List Nat) : Option Nat :=
  Radix.walk (m.lowNext root) root path

def leafAt (m : AddressSpace) (root : Nat) (path : List Nat) (index : Nat) : Entry :=
  match m.tableAt root path with
  | some table => m.tables table index
  | none => .unused

def leaf (m : AddressSpace) (root page : Nat) : Entry :=
  m.leafAt root (tablePath page) (p1Index page)

theorem leafAt_of_tableAt {m : AddressSpace} {root table : Nat} {path : List Nat}
    (h : m.tableAt root path = some table) (index : Nat) :
    m.leafAt root path index = m.tables table index := by
  rw [leafAt, h]

theorem leafAt_of_none {m : AddressSpace} {root : Nat} {path : List Nat}
    (h : m.tableAt root path = none) (index : Nat) : m.leafAt root path index = .unused := by
  rw [leafAt, h]

/-- Where the processor finds a table of the arena, if anywhere, it finds it at its own
address. -/
def ArenaIdentity (m : AddressSpace) (storage : Storage) : Prop :=
  ∀ k ≤ MAX_PAGE_TABLE_FRAMES, ∀ frame,
    m.translate (storage.address k) = some frame → frame = storage.address k

theorem tableAt_congr {m m' : AddressSpace} (h : ∀ t i, m'.next t i = m.next t i) (root : Nat)
    (path : List Nat) : m'.tableAt root path = m.tableAt root path := by
  have hlow : m'.lowNext root = m.lowNext root := by
    funext t i
    simp only [lowNext, h t i]
  rw [tableAt, tableAt, hlow]

theorem lowNext_of_not_slot (m : AddressSpace) {root t i : Nat}
    (h : ¬ (t = root ∧ i = RECURSIVE_INDEX)) : m.lowNext root t i = m.next t i := if_neg h

theorem lowNext_le_next {m : AddressSpace} {root t i u : Nat} (h : m.lowNext root t i = some u) :
    ¬ (t = root ∧ i = RECURSIVE_INDEX) ∧ m.next t i = some u := by
  rw [lowNext] at h
  split_ifs at h with hslot
  exact ⟨hslot, h⟩

end AddressSpace

namespace Storage

theorem address_aligned (storage : Storage) (k : Nat) : PAGE_SIZE ∣ storage.address k :=
  Nat.dvd_add storage.aligned (Nat.dvd_mul_left _ _)

theorem address_lt (storage : Storage) {k : Nat} (hk : k ≤ MAX_PAGE_TABLE_FRAMES) :
    storage.address k < 2 ^ 47 := by
  have hreach := storage.reachable
  simp only [address, PAGE_SIZE, MAX_PAGE_TABLE_FRAMES, LOW_CANONICAL_MAX] at *
  omega

theorem address_injective (storage : Storage) {k l : Nat}
    (h : storage.address k = storage.address l) : k = l := by
  simp only [address, PAGE_SIZE] at h
  omega

end Storage

/-- Paths of at most three indices lead to tables of the arena, each to its own; an
entry above the leaves is unused or links. The depth says whether the leaves count too. -/
structure Hierarchy (storage : Storage) (depth : Nat) (m : AddressSpace)
    (paths : Finset (List Nat)) : Prop where
  rooted : m.root = some ⟨storage.address 0, paths.card⟩
  room : paths.card ≤ MAX_PAGE_TABLE_FRAMES
  tree : Radix.Tree (m.lowNext (storage.address 0)) (storage.address 0) 3
  reached : ∀ p : List Nat, p.length ≤ 3 →
    (p ∈ paths ↔ p ≠ [] ∧ (m.tableAt (storage.address 0) p).isSome)
  short : ∀ p ∈ paths, p.length ≤ 3
  owned : ∀ p ∈ paths, ∀ t, m.tableAt (storage.address 0) p = some t →
    ∃ k, 0 < k ∧ k ≤ paths.card ∧ t = storage.address k
  sound : ∀ (p : List Nat) (t i : Nat), p.length ≤ depth →
    m.tableAt (storage.address 0) p = some t →
      ¬ (t = storage.address 0 ∧ i = RECURSIVE_INDEX) → (m.tables t i).Sound

namespace Hierarchy
variable {storage : Storage} {depth : Nat} {m : AddressSpace} {paths : Finset (List Nat)}

theorem only (h : Hierarchy storage depth m paths) {p : List Nat} {t : Nat} (hlen : p.length ≤ 3)
    (ht : m.tableAt (storage.address 0) p = some t) :
    ∀ q : List Nat, q.length ≤ 3 → m.tableAt (storage.address 0) q = some t → q = p :=
  fun q hq hqt => h.tree q p t hq hlen hqt ht

/-- A table of the arena that has not been handed out is on no path. -/
theorem fresh (h : Hierarchy storage depth m paths) {k : Nat} (hk : paths.card < k) (p : List Nat)
    (hlen : p.length ≤ 3) : m.tableAt (storage.address 0) p ≠ some (storage.address k) := by
  intro ht
  by_cases hp : p = []
  · subst hp
    have hzero := storage.address_injective (Option.some.inj ht)
    omega
  · have hmem := (h.reached p hlen).mpr ⟨hp, by rw [ht]; rfl⟩
    obtain ⟨l, -, hl, heq⟩ := h.owned p hmem _ ht
    have hkl := storage.address_injective heq
    omega

theorem root_only (h : Hierarchy storage depth m paths) {p : List Nat} (hlen : p.length ≤ 3)
    (ht : m.tableAt (storage.address 0) p = some (storage.address 0)) : p = [] :=
  h.tree p [] _ hlen (Nat.zero_le _) ht rfl

theorem not_slot (h : Hierarchy storage depth m paths) {p : List Nat} {t : Nat}
    (hlen : p.length ≤ 3) (hne : p ≠ []) (ht : m.tableAt (storage.address 0) p = some t) (i : Nat) :
    ¬ (t = storage.address 0 ∧ i = RECURSIVE_INDEX) := by
  rintro ⟨rfl, -⟩
  exact hne (h.root_only hlen ht)

/-- Behind a table of the last level the tree shows what its entry links to. -/
theorem tableAt_leaf (h : Hierarchy storage depth m paths) {p : List Nat} (hlen : p.length = 3)
    (i : Nat) : m.tableAt (storage.address 0) (p ++ [i]) = (m.leafAt (storage.address 0) p i).link := by
  have hne : p ≠ [] := by
    rintro rfl
    cases hlen
  cases ht : m.tableAt (storage.address 0) p with
  | none =>
    rw [AddressSpace.leafAt_of_none ht, AddressSpace.tableAt, Radix.walk_concat]
    rw [AddressSpace.tableAt] at ht
    rw [ht, Option.bind_none, Entry.link_unused]
  | some t =>
    rw [AddressSpace.leafAt_of_tableAt ht, AddressSpace.tableAt, Radix.walk_concat]
    have hslot := h.not_slot hlen.le hne ht i
    rw [AddressSpace.tableAt] at ht
    rw [ht, Option.bind_some, m.lowNext_of_not_slot hslot, AddressSpace.next]

theorem sound_leaf (h : Hierarchy storage 3 m paths) (page : Nat) :
    (m.leaf (storage.address 0) page).Sound := by
  cases ht : m.tableAt (storage.address 0) (tablePath page) with
  | none =>
    rw [AddressSpace.leaf, AddressSpace.leafAt_of_none ht]
    exact Entry.sound_unused
  | some t =>
    rw [AddressSpace.leaf, AddressSpace.leafAt_of_tableAt ht]
    exact h.sound (tablePath page) t _ le_rfl ht (h.not_slot le_rfl (by simp [tablePath]) ht _)

/-- The recursive slot, the registers and the record do not matter to the tree. -/
theorem of_same (h : Hierarchy storage depth m paths) {m' : AddressSpace}
    (htables : ∀ t i, ¬ (t = storage.address 0 ∧ i = RECURSIVE_INDEX) →
      m'.tables t i = m.tables t i)
    (hroot : m'.root = m.root) :
    Hierarchy storage depth m' paths ∧
      ∀ path, m'.tableAt (storage.address 0) path = m.tableAt (storage.address 0) path := by
  have hlow : m'.lowNext (storage.address 0) = m.lowNext (storage.address 0) := by
    funext t i
    rw [AddressSpace.lowNext, AddressSpace.lowNext]
    split_ifs with hslot
    · rfl
    · rw [AddressSpace.next, AddressSpace.next, htables t i hslot]
  have hat : ∀ path, m'.tableAt (storage.address 0) path = m.tableAt (storage.address 0) path := by
    intro path
    rw [AddressSpace.tableAt, AddressSpace.tableAt, hlow]
  refine ⟨?_, hat⟩
  exact
    { rooted := hroot.trans h.rooted
      room := h.room
      tree := hlow ▸ h.tree
      reached := fun p hp => by rw [hat]; exact h.reached p hp
      short := h.short
      owned := fun p hp t ht => h.owned p hp t (hat p ▸ ht)
      sound := fun p t i hp ht hslot => by
        rw [htables t i hslot]
        exact h.sound p t i hp (hat p ▸ ht) hslot }

end Hierarchy

def SameLeaves (storage : Storage) (m m' : AddressSpace) : Prop :=
  ∀ p : List Nat, p.length = 3 → ∀ i,
    m'.leafAt (storage.address 0) p i = m.leafAt (storage.address 0) p i

theorem SameLeaves.trans {storage : Storage} {m m₁ m₂ : AddressSpace}
    (h : SameLeaves storage m m₁) (h' : SameLeaves storage m₁ m₂) : SameLeaves storage m m₂ :=
  fun p hp i => (h' p hp i).trans (h p hp i)

/-- A path of four indices is one to a table and one in it. -/
theorem exists_concat_of_length {q : List Nat} (h : q.length = 4) :
    ∃ p i, p.length = 3 ∧ q = p ++ [i] := by
  induction q using List.reverseRecOn with
  | nil => cases h
  | append_singleton p i _ => exact ⟨p, i, by simpa using h, rfl⟩

theorem Hierarchy.tableAt_of_sameLeaves {storage : Storage} {depth : Nat} {m m' : AddressSpace}
    {paths paths' : Finset (List Nat)} (h : Hierarchy storage depth m paths)
    (h' : Hierarchy storage depth m' paths') (hsame : SameLeaves storage m m') {q : List Nat}
    (hq : q.length = 4) :
    m'.tableAt (storage.address 0) q = m.tableAt (storage.address 0) q := by
  obtain ⟨p, i, hp, rfl⟩ := exists_concat_of_length hq
  rw [h'.tableAt_leaf hp, h.tableAt_leaf hp, hsame p hp i]

/-- What every part of a mapping leaves alone: the recursive slot, the registers, and
every link of the tree. -/
structure Grown (storage : Storage) (m m' : AddressSpace) : Prop where
  slot : m'.tables (storage.address 0) RECURSIVE_INDEX =
    m.tables (storage.address 0) RECURSIVE_INDEX
  cr3 : m'.cr3 = m.cr3
  pagingActive : m'.pagingActive = m.pagingActive
  kept : ∀ (p : List Nat) (t : Nat), p.length ≤ 4 → m.tableAt (storage.address 0) p = some t →
    m'.tableAt (storage.address 0) p = some t

namespace Grown
variable {storage : Storage} {m m₁ m₂ : AddressSpace}

theorem refl (storage : Storage) (m : AddressSpace) : Grown storage m m :=
  ⟨rfl, rfl, rfl, fun _ _ _ h => h⟩

theorem trans (h : Grown storage m m₁) (h' : Grown storage m₁ m₂) : Grown storage m m₂ where
  slot := h'.slot.trans h.slot
  cr3 := h'.cr3.trans h.cr3
  pagingActive := h'.pagingActive.trans h.pagingActive
  kept p t hp ht := h'.kept p t hp (h.kept p t hp ht)

end Grown

/-! ### The processor's walk and the tree -/

theorem p4Index_address (storage : Storage) {k : Nat} (hk : k ≤ MAX_PAGE_TABLE_FRAMES) :
    p4Index (storage.address k) ≠ RECURSIVE_INDEX := by
  have hlt := storage.address_lt hk
  simp only [p4Index, RECURSIVE_INDEX]
  omega

/-- Outside the recursive slot the processor walks the tree. -/
theorem Hierarchy.walk_eq_tableAt {storage : Storage} {depth : Nat} {m : AddressSpace}
    {paths : Finset (List Nat)} (h : Hierarchy storage depth m paths) {path : List Nat}
    (hlen : path.length ≤ 4) (hslot : ¬ [RECURSIVE_INDEX] <+: path) :
    Radix.walk m.next (storage.address 0) path = m.tableAt (storage.address 0) path := by
  have hbehind : ¬ [] ++ [RECURSIVE_INDEX] <+: path := hslot
  exact Radix.walk_of_change (fun _ _ hcell => (m.lowNext_of_not_slot hcell).symm)
    (fun _ hp ht => h.root_only hp ht) hlen hbehind

theorem Hierarchy.translateFrom_eq {storage : Storage} {depth : Nat} {m : AddressSpace}
    {paths : Finset (List Nat)} (h : Hierarchy storage depth m paths) {page : Nat}
    (hslot : p4Index page ≠ RECURSIVE_INDEX) :
    m.translateFrom (storage.address 0) page = m.tableAt (storage.address 0) (indices page) := by
  have hlen : (indices page).length ≤ 4 := by simp [indices]
  apply h.walk_eq_tableAt hlen
  intro hstart
  exact hslot (List.cons_prefix_cons.mp hstart).1.symm

structure Ready (storage : Storage) (m : AddressSpace) : Prop where
  live : m.cr3 = none ∨ m.cr3 = some (storage.address 0)
  identity : m.ArenaIdentity storage

theorem ready_of_cold {storage : Storage} {m : AddressSpace} (hlive : m.cr3 = none) :
    Ready storage m where
  live := .inl hlive
  identity k _ frame h := by
    simp only [AddressSpace.translate, hlive] at h
    exact (Option.some.inj h).symm

/-- Before and after the switch to the kernel's tables, the arena stays where it is as long
as its pages keep their leaves. -/
theorem Ready.of_leaves {storage : Storage} {depth : Nat} {m m' : AddressSpace}
    {paths paths' : Finset (List Nat)} (hready : Ready storage m)
    (h : Hierarchy storage depth m paths) (h' : Hierarchy storage depth m' paths')
    (hcr3 : m'.cr3 = m.cr3)
    (hleaves : ∀ k ≤ MAX_PAGE_TABLE_FRAMES, m'.tableAt (storage.address 0)
      (indices (storage.address k)) =
        m.tableAt (storage.address 0) (indices (storage.address k))) : Ready storage m' := by
  cases hready.live with
  | inl hcold => exact ready_of_cold (hcr3.trans hcold)
  | inr hlive =>
    have hlive' := hcr3.trans hlive
    refine ⟨.inr hlive', fun k hk frame hframe => hready.identity k hk frame ?_⟩
    have hslot := p4Index_address storage hk
    simp only [AddressSpace.translate, hlive, hlive'] at hframe ⊢
    rw [h'.translateFrom_eq hslot, hleaves k hk] at hframe
    rw [h.translateFrom_eq hslot, hframe]

end AgnostOS.Paging
