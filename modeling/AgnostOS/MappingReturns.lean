import AgnostOS.RecursiveSlot

/-! Which mappings come back: the documented walk, level by level, and the tables and flags
on which it panics or faults. -/
namespace AgnostOS.Paging
open Globals AgnostOS.Frame Attempt PageTableFlags

/-- The call hands a value or an error to its caller. -/
def Returned {ε α : Type} (result : Except (Stop ε) α) : Prop :=
  ∀ stop, result = .error stop → stop.returned

section Stops
variable {storage : Storage} {m m' : AddressSpace} {flags : PageTableFlags}

end Stops

/-! ### Where the walk stands -/

/-- Entries that the next levels of a walk go through are unused or link. -/
def SoundBelow (m : AddressSpace) : (levels table : Nat) → Prop
  | 0, _ => True
  | levels + 1, table =>
    ∀ i, (m.tables table i).Sound ∧ ∀ next, m.next table i = some next → SoundBelow m levels next

theorem SoundBelow.of_same {m m' : AddressSpace} (hnext : ∀ t i, m'.next t i = m.next t i)
    (hsound : ∀ t i, (m.tables t i).Sound → (m'.tables t i).Sound) {levels table : Nat}
    (h : SoundBelow m levels table) : SoundBelow m' levels table := by
  induction levels generalizing table with
  | zero => trivial
  | succ levels ih =>
    intro i
    refine ⟨hsound _ _ (h i).1, fun next hlink => ?_⟩
    rw [hnext] at hlink
    exact ih ((h i).2 next hlink)

theorem soundBelow_of_empty {m : AddressSpace} {table : Nat}
    (hempty : ∀ i, (m.tables table i).isUnused) (levels : Nat) : SoundBelow m levels table := by
  cases levels with
  | zero => trivial
  | succ levels =>
    intro i
    refine ⟨.inl (hempty i), fun next hlink => ?_⟩
    rw [AddressSpace.next, hempty i, Entry.link_unused] at hlink
    cases hlink

/-- The table of the walk with some levels left: any table with sound entries while the
firmware's mapping is live, one of the tree after the switch. -/
inductive Standing (storage : Storage) (m : AddressSpace) (taken levels table : Nat) : Prop
  | cold (root : Nat) (rooted : m.root = some ⟨root, taken⟩) (room : taken ≤ MAX_PAGE_TABLE_FRAMES)
      (cr3 : m.cr3 = none) (sound : SoundBelow m levels table)
  | tree (paths : Finset (List Nat)) (p : List Nat) (hierarchy : Hierarchy storage 2 m paths)
      (count : paths.card = taken) (cr3 : m.cr3 = some (storage.address 0))
      (identity : m.ArenaIdentity storage)
      (slot : m.next (storage.address 0) RECURSIVE_INDEX = some (storage.address 0))
      (reaches : m.tableAt (storage.address 0) p = some table) (depth : p.length + levels ≤ 3)

theorem Entry.sound_of_link {entry : Entry} {u : Nat} (h : entry.link = some u) :
    present entry.flags ∧ ¬ huge entry.flags := by
  rw [Entry.link] at h
  split_ifs at h with hboth
  exact hboth

namespace Standing
variable {storage : Storage} {m : AddressSpace} {taken levels table : Nat}

theorem rooted (h : Standing storage m taken levels table) : ∃ root, m.root = some ⟨root, taken⟩ := by
  cases h with
  | cold root hroot => exact ⟨root, hroot⟩
  | tree paths p hier hcount => exact ⟨_, hcount ▸ hier.rooted⟩

theorem room (h : Standing storage m taken levels table) : taken ≤ MAX_PAGE_TABLE_FRAMES := by
  cases h with
  | cold root hroot hroom => exact hroom
  | tree paths p hier hcount => exact hcount ▸ hier.room

theorem identity (h : Standing storage m taken levels table) : m.ArenaIdentity storage := by
  cases h with
  | cold root hroot hroom hcr3 =>
    exact (ready_of_cold hcr3).identity
  | tree paths p hier hcount hcr3 hidentity => exact hidentity

theorem sound (h : Standing storage m taken (levels + 1) table) (i : Nat) :
    (m.tables table i).Sound := by
  cases h with
  | cold root hroot hroom hcr3 hsound => exact (hsound i).1
  | tree paths p hier hcount hcr3 hidentity hslot hreaches hdepth =>
    by_cases hcell : table = storage.address 0 ∧ i = RECURSIVE_INDEX
    · rw [hcell.1, hcell.2]
      exact .inr (Entry.sound_of_link hslot)
    · exact hier.sound p table i (by omega) hreaches hcell

end Standing

/-! ### One level down -/

structure Alike (m m' : AddressSpace) : Prop where
  root : m'.root = m.root
  cr3 : m'.cr3 = m.cr3
  next : ∀ t i, m'.next t i = m.next t i
  unused : ∀ t i, (m'.tables t i).isUnused ↔ (m.tables t i).isUnused
  sound : ∀ t i, (m.tables t i).Sound → (m'.tables t i).Sound

theorem Alike.translate {m m' : AddressSpace} (h : Alike m m') (page : Nat) :
    m'.translate page = m.translate page := by
  have hnext : m'.next = m.next := by
    funext t i
    exact h.next t i
  rw [AddressSpace.translate, AddressSpace.translate, h.cr3]
  simp only [AddressSpace.translateFrom, hnext]

theorem not_unused_of_present {entry : Entry} (h : present entry.flags) : ¬ entry.isUnused := by
  rintro rfl
  revert h
  decide

theorem alike_addFlags {m : AddressSpace} {t i : Nat}
    (hlinked : present (m.tables t i).flags ∧ ¬ huge (m.tables t i).flags) {flags : PageTableFlags}
    (hhuge : ¬ huge flags) :
    Alike m (m.setEntry t i { m.tables t i with flags := (m.tables t i).flags ||| flags }) := by
  have hentry : present ((m.tables t i).flags ||| flags) ∧ ¬ huge ((m.tables t i).flags ||| flags) :=
    ⟨present_or hlinked.1, not_huge_or hlinked.2 hhuge⟩
  refine ⟨rfl, rfl, fun t' j => ?_, fun t' j => ?_, fun t' j => ?_⟩
  · rw [AddressSpace.next, AddressSpace.next, AddressSpace.tables_setEntry]
    split_ifs with hcell
    · rw [hcell.1, hcell.2, Entry.link_eq hentry.1 hentry.2, Entry.link_eq hlinked.1 hlinked.2]
    · rfl
  · rw [AddressSpace.tables_setEntry]
    split_ifs with hcell
    · rw [hcell.1, hcell.2]
      exact iff_of_false (not_unused_of_present hentry.1) (not_unused_of_present hlinked.1)
    · exact Iff.rfl
  · rw [AddressSpace.tables_setEntry]
    split_ifs with hcell
    · exact fun _ => .inr hentry
    · exact id

section Level
variable {storage : Storage} {m : AddressSpace} {taken levels t i : Nat} {flags : PageTableFlags}

/-- Leaves that stay leave the arena where the processor finds it. -/
theorem Hierarchy.arena_stays {depth : Nat} {m' : AddressSpace} {paths paths' : Finset (List Nat)}
    (h : Hierarchy storage depth m paths) (h' : Hierarchy storage depth m' paths')
    (hcr3 : m.cr3 = some (storage.address 0)) (hcr3' : m'.cr3 = m.cr3)
    (hleaves : ∀ q : List Nat, q.length = 4 →
      m'.tableAt (storage.address 0) q = m.tableAt (storage.address 0) q) :
    ∀ k ≤ MAX_PAGE_TABLE_FRAMES,
      m'.translate (storage.address k) = m.translate (storage.address k) := by
  intro k hk
  have hslot := p4Index_address storage hk
  rw [AddressSpace.translate_of_live hcr3, AddressSpace.translate_of_live (hcr3'.trans hcr3),
    h.translateFrom_eq hslot, h'.translateFrom_eq hslot, hleaves _ rfl]

theorem Standing.linked (h : Standing storage m taken (levels + 1) t) {u : Nat}
    (hlink : m.next t i = some u) (hhuge : ¬ huge flags) :
    Standing storage
      (m.setEntry t i { m.tables t i with flags := (m.tables t i).flags ||| flags }) taken levels
        u := by
  have hlinked := Entry.sound_of_link hlink
  have halike := alike_addFlags hlinked hhuge
  cases h with
  | cold root hroot hroom hcr3 hsound =>
    exact .cold root hroot hroom hcr3 (((hsound i).2 u hlink).of_same halike.next halike.sound)
  | tree paths p hier hcount hcr3 hidentity hslot hreaches hdepth =>
    have hidentity' : AddressSpace.ArenaIdentity
        (m.setEntry t i { m.tables t i with flags := (m.tables t i).flags ||| flags }) storage := by
      intro k hk frame hframe
      rw [halike.translate] at hframe
      exact hidentity k hk frame hframe
    by_cases hcell : t = storage.address 0 ∧ i = RECURSIVE_INDEX
    · -- a turn through the slot starts again at the root
      obtain ⟨rfl, rfl⟩ := hcell
      have hu : storage.address 0 = u := Option.some.inj (hslot.symm.trans hlink)
      have hother : ∀ t' j, ¬ (t' = storage.address 0 ∧ j = RECURSIVE_INDEX) →
          (m.setEntry (storage.address 0) RECURSIVE_INDEX
            { m.tables (storage.address 0) RECURSIVE_INDEX with
              flags := (m.tables (storage.address 0) RECURSIVE_INDEX).flags ||| flags }).tables t' j =
            m.tables t' j := fun t' j hcell => by
        rw [AddressSpace.tables_setEntry, if_neg hcell]
      have hdepth' : ([] : List Nat).length + levels ≤ 3 := by
        simp only [List.length_nil]
        omega
      exact hu ▸ .tree paths [] (hier.of_same hother rfl).1 hcount hcr3 hidentity'
        ((halike.next _ _).trans hslot) rfl hdepth'
    · obtain ⟨hier', hgrown, hat⟩ := hier.addFlags hlinked hcell hhuge
      have hreaches' := (AddressSpace.tableAt_concat hreaches hcell).trans hlink
      have hdepth' : (p ++ [i]).length + levels ≤ 3 := by
        rw [List.length_append, List.length_singleton]
        omega
      exact .tree paths (p ++ [i]) hier' hcount hcr3 hidentity' ((halike.next _ _).trans hslot)
        ((hat _).trans hreaches') hdepth'

theorem Standing.fresh (h : Standing storage m taken (levels + 1) t) {root : Nat}
    (hroot : m.root = some ⟨root, taken⟩) (hlink : m.next t i = none)
    (hroom : taken < MAX_PAGE_TABLE_FRAMES) (hpresent : present flags) (hhuge : ¬ huge flags) :
    Standing storage (m.linked root taken (storage.address (taken + 1)) t i flags) (taken + 1) levels
        (storage.address (taken + 1)) ∧
      ∀ k ≤ MAX_PAGE_TABLE_FRAMES,
        (m.linked root taken (storage.address (taken + 1)) t i flags).translate (storage.address k) =
          m.translate (storage.address k) := by
  have hunused := (h.sound i).link_eq_none_iff.mp hlink
  cases h with
  | cold _ _ _ hcr3 _ =>
    constructor
    · refine .cold _ rfl hroom hcr3 (soundBelow_of_empty (fun j => ?_) levels)
      exact (AddressSpace.tables_linked ..).trans (if_pos rfl)
    · intro k hk
      have hcold : (m.linked root taken (storage.address (taken + 1)) t i flags).cr3 = none := hcr3
      rw [AddressSpace.translate, AddressSpace.translate, hcr3, hcold]
  | tree paths p hier hcount hcr3 hidentity hslot hreaches hdepth =>
    have hcell : ¬ (t = storage.address 0 ∧ i = RECURSIVE_INDEX) := by
      rintro ⟨rfl, rfl⟩
      cases hslot.symm.trans hlink
    have hp : p.length ≤ 2 := by omega
    subst hcount
    cases hier.rooted.symm.trans hroot
    have hcreated := hier.created_linked hp (by decide) hreaches hcell hunused hroom hpresent hhuge
    cases hcreated with
    | next hier' hreaches' hgrown hleaves hrecord =>
      have harena := hier.arena_stays hier' hcr3 hgrown.cr3 fun q hq =>
        hier.tableAt_of_sameLeaves hier' hleaves hq
      have hcard := congrArg PageTableRoot.count (Option.some.inj hier'.rooted).symm
      refine ⟨.tree _ (p ++ [i]) hier' hcard (hgrown.cr3.trans hcr3) ?_ ?_ hreaches' ?_, harena⟩
      · intro k hk frame hframe
        rw [harena k hk] at hframe
        exact hidentity k hk frame hframe
      · rw [AddressSpace.next, hgrown.slot]
        exact hslot
      · rw [List.length_append, List.length_singleton]
        omega

end Level

/-! ### The whole walk -/

section Walk
variable {storage : Storage} {m : AddressSpace} {taken t : Nat} {flags : PageTableFlags}

end Walk

/-! ### The states between two calls -/

/-- Before the bootstrap, during it, and on the kernel's own tables with the recursive slot
in place. -/
inductive Intact (storage : Storage) (m : AddressSpace) : Prop
  | unrooted (root : m.root = none)
  | building {root : PageTableRoot} (rooted : m.root = some root)
      (room : root.count ≤ MAX_PAGE_TABLE_FRAMES) (cr3 : m.cr3 = none)
      (inactive : m.pagingActive = false) (sound : SoundBelow m 3 root.frame)
  | live (live : Live storage m)

/-- The tables of the tree below a path, as long as nothing is behind the slot. -/
theorem Hierarchy.soundBelow {storage : Storage} {depth : Nat} {m : AddressSpace}
    {paths : Finset (List Nat)} (h : Hierarchy storage depth m paths) (hdepth : 2 ≤ depth)
    (hslot : m.tables (storage.address 0) RECURSIVE_INDEX = .unused) {levels : Nat} {p : List Nat}
    {t : Nat} (hp : p.length + levels ≤ 3) (ht : m.tableAt (storage.address 0) p = some t) :
    SoundBelow m levels t := by
  induction levels generalizing p t with
  | zero => trivial
  | succ levels ih =>
    intro i
    by_cases hcell : t = storage.address 0 ∧ i = RECURSIVE_INDEX
    · obtain ⟨rfl, rfl⟩ := hcell
      refine ⟨.inl hslot, fun u hlink => ?_⟩
      rw [AddressSpace.next, hslot, Entry.link_unused] at hlink
      cases hlink
    · have hplen : p.length ≤ depth := by omega
      have hlen : (p ++ [i]).length + levels ≤ 3 := by
        rw [List.length_append, List.length_singleton]
        omega
      exact ⟨h.sound p t i hplen ht hcell, fun u hlink =>
        ih hlen ((AddressSpace.tableAt_concat ht hcell).trans hlink)⟩

theorem Booted.intact {storage : Storage} {m : AddressSpace} {pages : Finset Nat}
    (h : Booted storage m pages) : Intact storage m := by
  have hroot : m.tableAt (storage.address 0) [] = some (storage.address 0) := rfl
  exact .building h.hierarchy.rooted h.hierarchy.room h.cold h.inactive
    (h.hierarchy.soundBelow (by decide) h.slot (by decide) hroot)

section Mappers
variable {mappers : Mappers} {storage : Storage} {m : AddressSpace} {root : PageTableRoot}

def activeMapper (mappers : Mappers) (m : AddressSpace) (root : PageTableRoot) : Mapper :=
  if m.pagingActive then mappers.recursive recursiveTableAddress RECURSIVE_INDEX
  else mappers.offset root.frame

end Mappers

end AgnostOS.Paging
