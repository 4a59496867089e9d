import AgnostOS.PageTree

/-! What the documented walk does to the table hierarchy: one level of `map_to`, its
leaf, and `unmap`. -/
namespace AgnostOS.Paging
open Globals AgnostOS.Frame Attempt PageTableFlags

structure Follows (follow : Entry → Kernel MapToError Nat) : Prop where
  linked : ∀ (entry : Entry) (table : Nat), entry.link = some table → follow entry = pure table
  absent : ∀ entry : Entry, ¬ huge entry.flags → ¬ present entry.flags →
    ∃ stop : Stop MapToError, ¬ stop.returned ∧ follow entry = throw stop

theorem followOffset_follows : Follows followOffset where
  linked entry table h := by rw [followOffset, Entry.frame_eq_ok.mpr h]
  absent entry _ hpresent := by
    have hframe : entry.frame = .error .frameNotPresent := if_pos hpresent
    exact ⟨.panic, id, by rw [followOffset, hframe]⟩

theorem followRecursive_follows : Follows followRecursive where
  linked entry table h := by
    rw [Entry.link] at h
    split_ifs at h with hboth
    cases h
    rw [followRecursive, if_neg hboth.2, if_neg (not_not.mpr hboth.1)]
  absent entry hhuge hpresent :=
    ⟨.pageFault, id, by rw [followRecursive, if_neg hhuge, if_pos hpresent]⟩

variable {storage : Storage} {depth : Nat} {m : AddressSpace} {paths : Finset (List Nat)}

/-! ### A table from the arena -/

def AddressSpace.recorded (m : AddressSpace) (result : Option Nat) : AddressSpace :=
  { m with reservations := m.reservations ++ [result] }

def AddressSpace.reserved (m : AddressSpace) (root count table : Nat) : AddressSpace :=
  ({ m.zeroTable table with root := some ⟨root, count + 1⟩ } : AddressSpace).recorded (some table)

theorem AddressSpace.tables_reserved (m : AddressSpace) (root count table t i : Nat) :
    (m.reserved root count table).tables t i = if t = table then .unused else m.tables t i :=
  m.tables_zeroTable table t i

theorem outcome_recordReservation {ε : Type} (result : Option Nat) (m : AddressSpace) :
    outcome (recordReservation result : Kernel ε (Option Nat)) m = (.ok result, m.recorded result) :=
  rfl

theorem outcome_writeTable {ε : Type} (address : Nat) (m : AddressSpace) :
    outcome (writeTable address : Kernel ε Unit) m =
      match m.translate address with
      | none => (.error .pageFault, m)
      | some frame => (.ok (), m.zeroTable frame) := by
  rw [writeTable, outcome_get_bind]
  cases m.translate address <;> rfl

theorem reserveFrame_exhausted {ε : Type} {root taken : Nat}
    (hroot : m.root = some ⟨root, taken⟩) (hfull : taken = MAX_PAGE_TABLE_FRAMES) :
    outcome (reserveFrame storage : Kernel ε (Option Nat)) m = (.ok none, m.recorded none) := by
  rw [reserveFrame, outcome_get_bind]
  simp only [hroot, if_pos hfull, outcome_recordReservation]

/-- The arena hands out its next table where that is mapped, at its own address. -/
theorem reserveFrame_outcome {ε : Type} {root taken : Nat}
    (hroot : m.root = some ⟨root, taken⟩) (hroom : taken < MAX_PAGE_TABLE_FRAMES)
    (hidentity : m.ArenaIdentity storage) :
    outcome (reserveFrame storage : Kernel ε (Option Nat)) m =
      if m.translate (storage.address (taken + 1)) = none then (.error .pageFault, m)
      else (.ok (some (storage.address (taken + 1))),
        m.reserved root taken (storage.address (taken + 1))) := by
  have hframe : FrameAddress.new (storage.address (taken + 1)) ≠ none := by
    simp [FrameAddress.new, storage.address_aligned]
  rw [reserveFrame, outcome_get_bind]
  simp only [hroot, if_neg hroom.ne]
  cases hnew : FrameAddress.new (storage.address (taken + 1)) with
  | none => exact absurd hnew hframe
  | some frame =>
    simp only [outcome_bind, outcome_writeTable]
    cases htranslate : m.translate (storage.address (taken + 1)) with
    | none => rfl
    | some u =>
      rw [hidentity _ hroom u htranslate]
      rfl

theorem reserveFrame_cases {ε : Type} (h : Hierarchy storage depth m paths)
    (hready : Ready storage m) (hroom : paths.card < MAX_PAGE_TABLE_FRAMES) :
    outcome (reserveFrame storage : Kernel ε (Option Nat)) m =
        (.ok (some (storage.address (paths.card + 1))),
          m.reserved (storage.address 0) paths.card (storage.address (paths.card + 1))) ∨
      m.cr3 ≠ none ∧ outcome (reserveFrame storage : Kernel ε (Option Nat)) m =
        (.error .pageFault, m) := by
  rw [reserveFrame_outcome h.rooted hroom hready.identity]
  split_ifs with htranslate
  · refine .inr ⟨fun hcold => ?_, rfl⟩
    simp [AddressSpace.translate, hcold] at htranslate
  · exact .inl rfl

/-! ### One level down -/

def AddressSpace.linked (m : AddressSpace) (root count table t i : Nat) (flags : PageTableFlags) :
    AddressSpace :=
  ((m.reserved root count table).setEntry t i ⟨table, flags⟩).zeroTable table

theorem AddressSpace.tables_linked (m : AddressSpace) (root count table t i : Nat)
    (flags : PageTableFlags) (t' i' : Nat) :
    (m.linked root count table t i flags).tables t' i' =
      if t' = table then .unused
      else if t' = t ∧ i' = i then ⟨table, flags⟩ else m.tables t' i' := by
  rw [linked, tables_zeroTable, tables_setEntry]
  split_ifs with htable hcell
  · rfl
  · rfl
  · rw [tables_reserved, if_neg htable]

theorem AddressSpace.tableAt_concat {m : AddressSpace} {root t i : Nat} {p : List Nat}
    (ht : m.tableAt root p = some t) (hslot : ¬ (t = root ∧ i = RECURSIVE_INDEX)) :
    m.tableAt root (p ++ [i]) = m.next t i := by
  rw [tableAt] at ht ⊢
  rw [Radix.walk_concat, ht, Option.bind_some, m.lowNext_of_not_slot hslot]

theorem AddressSpace.tableAt_unused {m : AddressSpace} {root t i : Nat} {p : List Nat}
    (ht : m.tableAt root p = some t) (hslot : ¬ (t = root ∧ i = RECURSIVE_INDEX))
    (hunused : (m.tables t i).isUnused) : m.tableAt root (p ++ [i]) = none := by
  rw [tableAt_concat ht hslot, next, hunused]
  exact Entry.link_unused

/-- What leads where after a fresh table is linked: one path more, and an empty table at
its end. -/
theorem Hierarchy.tableAt_linked (h : Hierarchy storage depth m paths) {p : List Nat} {t i : Nat}
    (hp : p.length ≤ 2) (ht : m.tableAt (storage.address 0) p = some t)
    (hslot : ¬ (t = storage.address 0 ∧ i = RECURSIVE_INDEX)) (hunused : (m.tables t i).isUnused)
    {flags : PageTableFlags} (hpresent : present flags) (hhuge : ¬ huge flags) {q : List Nat}
    (hq : q.length ≤ 4) :
    (m.linked (storage.address 0) paths.card (storage.address (paths.card + 1)) t i flags).tableAt
        (storage.address 0) q =
      if q = p ++ [i] then some (storage.address (paths.card + 1))
      else m.tableAt (storage.address 0) q := by
  have hfresh := h.fresh (Nat.lt_succ_self paths.card)
  have htne : t ≠ storage.address (paths.card + 1) := by
    rintro rfl
    exact hfresh p (hp.trans (by decide)) ht
  have hunlinked : m.lowNext (storage.address 0) t i = none := by
    rw [m.lowNext_of_not_slot hslot, AddressSpace.next, hunused]
    exact Entry.link_unused
  apply Radix.walk_of_link (n := 3) ht (h.only (hp.trans (by decide)) ht) hfresh hunlinked _ _ _ hq
  · rw [AddressSpace.lowNext_of_not_slot _ hslot, AddressSpace.next, AddressSpace.tables_linked,
      if_neg htne, if_pos ⟨rfl, rfl⟩]
    exact Entry.link_eq hpresent hhuge
  · intro j
    rw [AddressSpace.lowNext]
    split_ifs
    · rfl
    · rw [AddressSpace.next, AddressSpace.tables_linked, if_pos rfl]
      exact Entry.link_unused
  · intro t' j htable hcell
    rw [AddressSpace.lowNext, AddressSpace.lowNext, AddressSpace.next, AddressSpace.next,
      AddressSpace.tables_linked, if_neg htable, if_neg hcell]

/-- The fresh table is empty where there was none, and all others keep their entries. -/
theorem Hierarchy.sameLeaves_linked (h : Hierarchy storage depth m paths) {p : List Nat} {t i : Nat}
    (hp : p.length ≤ 2) (ht : m.tableAt (storage.address 0) p = some t)
    (hslot : ¬ (t = storage.address 0 ∧ i = RECURSIVE_INDEX)) (hunused : (m.tables t i).isUnused)
    {flags : PageTableFlags} (hpresent : present flags) (hhuge : ¬ huge flags) :
    SameLeaves storage m
      (m.linked (storage.address 0) paths.card (storage.address (paths.card + 1)) t i flags) := by
  intro q hq j
  have hat := h.tableAt_linked hp ht hslot hunused hpresent hhuge (hq.le.trans (by decide) : q.length ≤ 4)
  by_cases hend : q = p ++ [i]
  · rw [if_pos hend] at hat
    rw [AddressSpace.leafAt_of_tableAt hat, AddressSpace.tables_linked, if_pos rfl, hend,
      AddressSpace.leafAt_of_none (AddressSpace.tableAt_unused ht hslot hunused)]
  · rw [if_neg hend] at hat
    cases hu : m.tableAt (storage.address 0) q with
    | none => rw [AddressSpace.leafAt_of_none (hat.trans hu), AddressSpace.leafAt_of_none hu]
    | some u =>
      have hfresh : u ≠ storage.address (paths.card + 1) := by
        rintro rfl
        exact h.fresh (Nat.lt_succ_self paths.card) q hq.le hu
      have hcell : ¬ (u = t ∧ j = i) := by
        rintro ⟨rfl, rfl⟩
        rw [h.only (hp.trans (by decide)) ht q hq.le hu] at hq
        omega
      rw [AddressSpace.leafAt_of_tableAt (hat.trans hu), AddressSpace.leafAt_of_tableAt hu,
        AddressSpace.tables_linked, if_neg hfresh, if_neg hcell]

/-- An entry above the leaves that leaves the links alone. -/
theorem Hierarchy.sameLeaves_setEntry (h : Hierarchy storage depth m paths) {p : List Nat} {t i : Nat}
    (hp : p.length ≤ 2) (ht : m.tableAt (storage.address 0) p = some t) {entry : Entry}
    (hat : ∀ q : List Nat, (m.setEntry t i entry).tableAt (storage.address 0) q =
      m.tableAt (storage.address 0) q) : SameLeaves storage m (m.setEntry t i entry) := by
  intro q hq j
  cases hu : m.tableAt (storage.address 0) q with
  | none => rw [AddressSpace.leafAt_of_none ((hat q).trans hu), AddressSpace.leafAt_of_none hu]
  | some u =>
    have hcell : ¬ (u = t ∧ j = i) := by
      rintro ⟨rfl, rfl⟩
      rw [h.only (hp.trans (by decide)) ht q hq.le hu] at hq
      omega
    rw [AddressSpace.leafAt_of_tableAt ((hat q).trans hu), AddressSpace.leafAt_of_tableAt hu,
      AddressSpace.tables_setEntry, if_neg hcell]

theorem Hierarchy.link (h : Hierarchy storage depth m paths) {p : List Nat} {t i : Nat}
    (hp : p.length ≤ 2) (ht : m.tableAt (storage.address 0) p = some t)
    (hslot : ¬ (t = storage.address 0 ∧ i = RECURSIVE_INDEX)) (hunused : (m.tables t i).isUnused)
    (hroom : paths.card < MAX_PAGE_TABLE_FRAMES) {flags : PageTableFlags}
    (hpresent : present flags) (hhuge : ¬ huge flags) (hdepth : depth ≤ 3) :
    Hierarchy storage depth
      (m.linked (storage.address 0) paths.card (storage.address (paths.card + 1)) t i flags)
      (insert (p ++ [i]) paths) := by
  have hat := fun {q : List Nat} (hq : q.length ≤ 4) =>
    h.tableAt_linked hp ht hslot hunused hpresent hhuge (q := q) hq
  have hfresh := h.fresh (Nat.lt_succ_self paths.card)
  have hlen : (p ++ [i]).length ≤ 3 := by
    rw [List.length_append, List.length_singleton]
    omega
  have hnew : p ++ [i] ∉ paths := by
    intro hmem
    have hsome := ((h.reached _ hlen).mp hmem).2
    rw [AddressSpace.tableAt_unused ht hslot hunused] at hsome
    cases hsome
  have hcard := Finset.card_insert_of_notMem hnew
  constructor
  · rw [hcard]
    rfl
  · omega
  · exact h.tree.of_link hfresh fun q hq => hat (hq.trans (by decide))
  · intro q hq
    rw [hat (hq.trans (by decide)), Finset.mem_insert, h.reached q hq]
    by_cases hend : q = p ++ [i]
    · simp [hend]
    · simp [hend]
  · intro q hq
    cases Finset.mem_insert.mp hq with
    | inl hend => rw [hend]; exact hlen
    | inr hq => exact h.short q hq
  · intro q hq u hu
    rw [hcard]
    have hqlen : q.length ≤ 3 := by
      cases Finset.mem_insert.mp hq with
      | inl hend => rw [hend]; exact hlen
      | inr hq => exact h.short q hq
    rw [hat (hqlen.trans (by decide))] at hu
    by_cases hend : q = p ++ [i]
    · rw [if_pos hend] at hu
      exact ⟨_, Nat.succ_pos _, le_rfl, (Option.some.inj hu).symm⟩
    · rw [if_neg hend] at hu
      obtain ⟨k, hpos, hk, rfl⟩ := h.owned q (Finset.mem_of_mem_insert_of_ne hq hend) u hu
      exact ⟨k, hpos, hk.trans (Nat.le_succ _), rfl⟩
  · intro q u j hq hu hcell
    rw [hat (by omega)] at hu
    rw [AddressSpace.tables_linked]
    split_ifs with htable hedit
    · exact Entry.sound_unused
    · exact .inr ⟨hpresent, hhuge⟩
    · rw [if_neg] at hu
      · exact h.sound q u j hq hu hcell
      · intro hend
        rw [if_pos hend] at hu
        exact htable (Option.some.inj hu).symm

inductive Created (storage : Storage) (depth : Nat) (m : AddressSpace) (paths : Finset (List Nat))
    (path : List Nat) (flags : PageTableFlags) :
    Except (Stop MapToError) Nat × AddressSpace → Prop
  | next {m' : AddressSpace} {table : Nat}
      (hierarchy : Hierarchy storage depth m' (insert path paths))
      (reaches : m'.tableAt (storage.address 0) path = some table)
      (grown : Grown storage m m') (leaves : SameLeaves storage m m')
      (reservations : none ∈ m'.reservations ↔ none ∈ m.reservations) :
      Created storage depth m paths path flags (.ok table, m')
  | exhausted {m' : AddressSpace} (hierarchy : Hierarchy storage depth m' paths)
      (missing : path ∉ paths) (full : paths.card = MAX_PAGE_TABLE_FRAMES)
      (grown : Grown storage m m') (leaves : SameLeaves storage m m')
      (reservations : none ∈ m'.reservations) :
      Created storage depth m paths path flags (.error (.error .frameAllocationFailed), m')
  | stopped {m' : AddressSpace} {stop : Stop MapToError} (hstop : ¬ stop.returned)
      (slot : m'.tables (storage.address 0) RECURSIVE_INDEX =
        m.tables (storage.address 0) RECURSIVE_INDEX)
      (cause : m.cr3 ≠ none ∨ ¬ present flags) :
      Created storage depth m paths path flags (.error stop, m')

theorem createNextTable_eq (follow : Entry → Kernel MapToError Nat)
    (allocateFrame : Kernel MapToError (Option Nat)) (flags : PageTableFlags) (t i : Nat)
    (m : AddressSpace) :
    outcome (createNextTable follow allocateFrame flags t i) m =
      if (m.tables t i).isUnused then
        outcome (allocateFrame >>= fun result =>
          match result with
          | none => throw (.error .frameAllocationFailed)
          | some frame => do
            modify fun m => m.setEntry t i ⟨frame, flags⟩
            let next ← follow ⟨frame, flags⟩
            modify fun m => m.zeroTable next
            pure next) m
      else
        outcome (follow { m.tables t i with flags := (m.tables t i).flags ||| flags })
          (m.setEntry t i { m.tables t i with flags := (m.tables t i).flags ||| flags }) := by
  rw [createNextTable, outcome_get_bind, outcome_ite]
  exact if_congr Iff.rfl rfl (outcome_modify_bind ..)

theorem Hierarchy.addFlags (h : Hierarchy storage depth m paths) {t i : Nat}
    (hlinked : present (m.tables t i).flags ∧ ¬ huge (m.tables t i).flags)
    (hslot : ¬ (t = storage.address 0 ∧ i = RECURSIVE_INDEX)) {flags : PageTableFlags}
    (hhuge : ¬ huge flags) :
    let m' := m.setEntry t i { m.tables t i with flags := (m.tables t i).flags ||| flags }
    Hierarchy storage depth m' paths ∧ Grown storage m m' ∧
      ∀ q : List Nat, m'.tableAt (storage.address 0) q = m.tableAt (storage.address 0) q := by
  intro m'
  have hentry : present ((m.tables t i).flags ||| flags) ∧ ¬ huge ((m.tables t i).flags ||| flags) :=
    ⟨present_or hlinked.1, not_huge_or hlinked.2 hhuge⟩
  have hnext : ∀ t' j, m'.next t' j = m.next t' j := by
    intro t' j
    rw [AddressSpace.next, AddressSpace.tables_setEntry]
    split_ifs with hcell
    · rw [AddressSpace.next, hcell.1, hcell.2, Entry.link_eq hentry.1 hentry.2,
        Entry.link_eq hlinked.1 hlinked.2]
    · rfl
  have hat := AddressSpace.tableAt_congr hnext (storage.address 0)
  have hlow : m'.lowNext (storage.address 0) = m.lowNext (storage.address 0) := by
    funext t' j
    simp only [AddressSpace.lowNext, hnext]
  refine ⟨?_, ?_, hat⟩
  · exact
      { rooted := h.rooted
        room := h.room
        tree := hlow ▸ h.tree
        reached := fun q hq => by rw [hat]; exact h.reached q hq
        short := h.short
        owned := fun q hq u hu => h.owned q hq u (hat q ▸ hu)
        sound := fun q u j hq hu hcell => by
          rw [AddressSpace.tables_setEntry]
          split_ifs
          · exact .inr hentry
          · exact h.sound q u j hq (hat q ▸ hu) hcell }
  · refine ⟨?_, rfl, rfl, fun q u _ hu => by rw [hat, hu]⟩
    rw [AddressSpace.tables_setEntry, if_neg fun hcell => hslot ⟨hcell.1.symm, hcell.2.symm⟩]

theorem Storage.root_ne_table (storage : Storage) (n : Nat) :
    storage.address 0 ≠ storage.address (n + 1) := by
  intro heq
  have hzero := storage.address_injective heq
  omega

/-- A table from the arena behind an entry leaves the recursive slot. -/
theorem Storage.slot_reserved (storage : Storage) (m : AddressSpace) (n : Nat) {t i : Nat}
    (hslot : ¬ (t = storage.address 0 ∧ i = RECURSIVE_INDEX)) (entry : Entry) :
    ((m.reserved (storage.address 0) n (storage.address (n + 1))).setEntry t i entry).tables
        (storage.address 0) RECURSIVE_INDEX = m.tables (storage.address 0) RECURSIVE_INDEX := by
  rw [AddressSpace.tables_setEntry, if_neg fun hcell => hslot ⟨hcell.1.symm, hcell.2.symm⟩,
    AddressSpace.tables_reserved, if_neg (storage.root_ne_table n)]

section Level
variable {p : List Nat} {t i : Nat} {flags : PageTableFlags}

/-- The fresh table is reached, and nothing else changes. -/
theorem Hierarchy.created_linked (h : Hierarchy storage depth m paths) (hp : p.length ≤ 2)
    (hdepth : depth ≤ 3) (ht : m.tableAt (storage.address 0) p = some t)
    (hslot : ¬ (t = storage.address 0 ∧ i = RECURSIVE_INDEX)) (hunused : (m.tables t i).isUnused)
    (hroom : paths.card < MAX_PAGE_TABLE_FRAMES) (hpresent : present flags)
    (hhuge : ¬ huge flags) :
    Created storage depth m paths (p ++ [i]) flags (.ok (storage.address (paths.card + 1)),
      m.linked (storage.address 0) paths.card (storage.address (paths.card + 1)) t i flags) := by
  have hlen : (p ++ [i]).length ≤ 3 := by
    rw [List.length_append, List.length_singleton]
    omega
  have hat : ∀ {q : List Nat}, q.length ≤ 4 →
      (m.linked (storage.address 0) paths.card (storage.address (paths.card + 1)) t i
        flags).tableAt (storage.address 0) q =
        if q = p ++ [i] then some (storage.address (paths.card + 1))
        else m.tableAt (storage.address 0) q :=
    h.tableAt_linked hp ht hslot hunused hpresent hhuge
  have hnone := AddressSpace.tableAt_unused ht hslot hunused
  refine .next (h.link hp ht hslot hunused hroom hpresent hhuge hdepth)
    ((hat (hlen.trans (by decide))).trans (if_pos rfl)) ⟨?_, rfl, rfl, ?_⟩ ?_ ?_
  · rw [AddressSpace.linked, AddressSpace.tables_zeroTable, if_neg (storage.root_ne_table _)]
    exact storage.slot_reserved m _ hslot _
  · intro q u hq hu
    refine (hat hq).trans ?_
    rw [if_neg, hu]
    rintro rfl
    cases hu.symm.trans hnone
  · exact h.sameLeaves_linked hp ht hslot hunused hpresent hhuge
  · simp [AddressSpace.linked, AddressSpace.reserved, AddressSpace.recorded,
      AddressSpace.setEntry, AddressSpace.zeroTable]

/-- An empty entry: the arena may be used up, or not writable any more, or its next table
goes behind the entry. -/
theorem Hierarchy.created_unused (h : Hierarchy storage depth m paths) (hready : Ready storage m)
    {follow : Entry → Kernel MapToError Nat} (hfollow : Follows follow) (hp : p.length ≤ 2)
    (hdepth : depth ≤ 3) (ht : m.tableAt (storage.address 0) p = some t)
    (hslot : ¬ (t = storage.address 0 ∧ i = RECURSIVE_INDEX)) (hunused : (m.tables t i).isUnused)
    (hhuge : ¬ huge flags) :
    Created storage depth m paths (p ++ [i]) flags
      (outcome (createNextTable follow (reserveFrame storage) flags t i) m) := by
  have hlen : (p ++ [i]).length ≤ 3 := by
    rw [List.length_append, List.length_singleton]
    omega
  rw [createNextTable_eq, if_pos hunused]
  cases Nat.lt_or_ge paths.card MAX_PAGE_TABLE_FRAMES with
  | inr hfull =>
    have hmissing : p ++ [i] ∉ paths := by
      rw [h.reached _ hlen, AddressSpace.tableAt_unused ht hslot hunused]
      simp
    have hcard : paths.card = MAX_PAGE_TABLE_FRAMES := le_antisymm h.room hfull
    have hsame : ∀ t i, ¬ (t = storage.address 0 ∧ i = RECURSIVE_INDEX) →
        (m.recorded none).tables t i = m.tables t i := fun _ _ _ => rfl
    rw [outcome_bind_ok _ (reserveFrame_exhausted h.rooted hcard)]
    exact .exhausted (h.of_same hsame rfl).1 hmissing hcard ⟨rfl, rfl, rfl, fun _ _ _ hu => hu⟩
      (fun _ _ _ => rfl) (by simp [AddressSpace.recorded])
  | inl hroom =>
    cases reserveFrame_cases h hready hroom with
    | inr hfault =>
      rw [outcome_bind_error _ hfault.2]
      exact .stopped id rfl (.inl hfault.1)
    | inl hreserved =>
      rw [outcome_bind_ok _ hreserved]
      simp only [outcome_modify_bind]
      by_cases hpresent : present flags
      · rw [hfollow.linked _ _ (Entry.link_eq hpresent hhuge)]
        exact h.created_linked hp hdepth ht hslot hunused hroom hpresent hhuge
      · obtain ⟨stop, hstop, hthrow⟩ := hfollow.absent ⟨_, flags⟩ hhuge hpresent
        rw [hthrow]
        exact .stopped hstop (storage.slot_reserved m _ hslot _) (.inr hpresent)

theorem Hierarchy.created_present (h : Hierarchy storage depth m paths)
    {follow : Entry → Kernel MapToError Nat} (hfollow : Follows follow) (hp : p.length ≤ 2)
    (ht : m.tableAt (storage.address 0) p = some t)
    (hslot : ¬ (t = storage.address 0 ∧ i = RECURSIVE_INDEX))
    (hlinked : present (m.tables t i).flags ∧ ¬ huge (m.tables t i).flags)
    (hhuge : ¬ huge flags) :
    Created storage depth m paths (p ++ [i]) flags
      (outcome (createNextTable follow (reserveFrame storage) flags t i) m) := by
  have hlen : (p ++ [i]).length ≤ 3 := by
    rw [List.length_append, List.length_singleton]
    omega
  have hne : ¬ (m.tables t i).isUnused := by
    intro hunused
    rw [hunused] at hlinked
    revert hlinked
    decide
  obtain ⟨hier, hgrown, hat⟩ := h.addFlags hlinked hslot hhuge
  have hentry : Entry.link { m.tables t i with flags := (m.tables t i).flags ||| flags } =
      some (m.tables t i).addr :=
    Entry.link_eq (present_or hlinked.1) (not_huge_or hlinked.2 hhuge)
  have hsome : m.tableAt (storage.address 0) (p ++ [i]) = some (m.tables t i).addr :=
    (AddressSpace.tableAt_concat ht hslot).trans (Entry.link_eq hlinked.1 hlinked.2)
  have hmem : p ++ [i] ∈ paths := (h.reached _ hlen).mpr ⟨by simp, by rw [hsome]; rfl⟩
  rw [createNextTable_eq, if_neg hne, hfollow.linked _ _ hentry]
  rw [← Finset.insert_eq_of_mem hmem] at hier
  exact .next hier ((hat _).trans hsome) hgrown (h.sameLeaves_setEntry hp ht hat) Iff.rfl

theorem createNextTable_cases (h : Hierarchy storage depth m paths) (hready : Ready storage m)
    {follow : Entry → Kernel MapToError Nat} (hfollow : Follows follow) (hp : p.length ≤ 2)
    (hdepth : 2 ≤ depth ∧ depth ≤ 3) (ht : m.tableAt (storage.address 0) p = some t)
    (hslot : ¬ (t = storage.address 0 ∧ i = RECURSIVE_INDEX)) (hhuge : ¬ huge flags) :
    Created storage depth m paths (p ++ [i]) flags
      (outcome (createNextTable follow (reserveFrame storage) flags t i) m) := by
  cases h.sound p t i (hp.trans hdepth.1) ht hslot with
  | inl hunused => exact h.created_unused hready hfollow hp hdepth.2 ht hslot hunused hhuge
  | inr hlinked => exact h.created_present hfollow hp ht hslot hlinked hhuge

end Level

/-! ### A whole mapping -/

def tablePaths (page : Nat) : Finset (List Nat) :=
  {[p4Index page], [p4Index page, p3Index page], [p4Index page, p3Index page, p2Index page]}

/-- How a mapping of one page ends. A page is refused as mapped only where its leaf was in
use, and for want of a frame only where the arena is too small for its tables. -/
inductive MapOutcome (storage : Storage) (depth : Nat) (m : AddressSpace)
    (paths : Finset (List Nat)) (page frame : Nat) (flags : PageTableFlags) :
    Except (Stop MapToError) Unit × AddressSpace → Prop
  | mapped {m' : AddressSpace}
      (hierarchy : Hierarchy storage depth m' (paths ∪ tablePaths page))
      (grown : Grown storage m m')
      (free : (m.leaf (storage.address 0) page).isUnused)
      (leaf : m'.leaf (storage.address 0) page = ⟨frame, flags⟩)
      (others : ∀ (p : List Nat) (i : Nat), p.length = 3 → p ++ [i] ≠ indices page →
        m'.leafAt (storage.address 0) p i = m.leafAt (storage.address 0) p i)
      (reservations : none ∈ m'.reservations ↔ none ∈ m.reservations) :
      MapOutcome storage depth m paths page frame flags (.ok (), m')
  | alreadyMapped {m' : AddressSpace}
      (hierarchy : Hierarchy storage depth m' (paths ∪ tablePaths page))
      (grown : Grown storage m m') (leaves : SameLeaves storage m m')
      (used : ¬ (m.leaf (storage.address 0) page).isUnused)
      (reservations : none ∈ m'.reservations ↔ none ∈ m.reservations) :
      MapOutcome storage depth m paths page frame flags (.error (.error .pageAlreadyMapped), m')
  | exhausted {m' : AddressSpace} {paths' : Finset (List Nat)}
      (hierarchy : Hierarchy storage depth m' paths')
      (grown : Grown storage m m') (leaves : SameLeaves storage m m')
      (between : paths ⊆ paths' ∧ paths' ⊆ paths ∪ tablePaths page)
      (full : paths'.card = MAX_PAGE_TABLE_FRAMES)
      (needed : MAX_PAGE_TABLE_FRAMES < (paths ∪ tablePaths page).card)
      (reservations : none ∈ m'.reservations) :
      MapOutcome storage depth m paths page frame flags
        (.error (.error .frameAllocationFailed), m')
  | stopped {m' : AddressSpace} {stop : Stop MapToError} (hstop : ¬ stop.returned)
      (slot : m'.tables (storage.address 0) RECURSIVE_INDEX =
        m.tables (storage.address 0) RECURSIVE_INDEX)
      (cause : m.cr3 ≠ none ∨ ¬ present flags ∨ huge flags) :
      MapOutcome storage depth m paths page frame flags (.error stop, m')

theorem insert_union_tablePaths {path : List Nat} {page : Nat} (h : path ∈ tablePaths page)
    (paths : Finset (List Nat)) :
    insert path paths ∪ tablePaths page = paths ∪ tablePaths page := by
  rw [Finset.insert_union, Finset.insert_eq_of_mem (Finset.mem_union_right paths h)]

/-- What follows a level that was reached or created decides how the mapping ends. -/
theorem MapOutcome.bind {page frame : Nat} {flags : PageTableFlags} {path : List Nat}
    {x : Kernel MapToError Nat} {f : Nat → Kernel MapToError Unit}
    (h : Hierarchy storage depth m paths) (hready : Ready storage m)
    (hx : Created storage depth m paths path (parent flags) (outcome x m))
    (hpath : path ∈ tablePaths page)
    (hrest : ∀ t m', Hierarchy storage depth m' (insert path paths) → Ready storage m' →
      m'.tableAt (storage.address 0) path = some t →
        MapOutcome storage depth m' (insert path paths) page frame flags (outcome (f t) m')) :
    MapOutcome storage depth m paths page frame flags (outcome (x >>= f) m) := by
  rw [outcome_bind]
  generalize outcome x m = result at hx
  cases hx with
  | exhausted hier hmissing hfull hgrown hleaves hnone =>
    apply MapOutcome.exhausted hier hgrown hleaves ⟨subset_rfl, Finset.subset_union_left⟩ hfull _ hnone
    rw [← hfull]
    apply Finset.card_lt_card
    refine ⟨Finset.subset_union_left, fun hsub => hmissing ?_⟩
    exact hsub (Finset.mem_union_right paths hpath)
  | stopped hstop hslot hcause =>
    apply MapOutcome.stopped hstop hslot
    cases hcause with
    | inl hlive => exact .inl hlive
    | inr habsent => exact .inr (.inl fun h => habsent ((present_parent flags).mpr h))
  | @next m' t hier hreaches hgrown hleaves hnone =>
    have hready' := hready.of_leaves h hier hgrown.cr3 fun k _ =>
      h.tableAt_of_sameLeaves hier hleaves rfl
    have hafter := hrest t m' hier hready' hreaches
    have hunion := insert_union_tablePaths hpath paths
    change MapOutcome storage depth m paths page frame flags (outcome (f t) m')
    generalize outcome (f t) m' = result at hafter
    cases hafter with
    | mapped hier' hgrown' hfree hleaf hothers hnone' =>
      exact .mapped (hunion ▸ hier') (hgrown.trans hgrown') ((hleaves _ rfl _).symm.trans hfree)
        hleaf (fun p i hp hne => (hothers p i hp hne).trans (hleaves p hp i)) (hnone'.trans hnone)
    | alreadyMapped hier' hgrown' hleaves' hused hnone' =>
      exact .alreadyMapped (hunion ▸ hier') (hgrown.trans hgrown') (hleaves.trans hleaves')
        (fun hunused => hused ((hleaves _ rfl _).trans hunused)) (hnone'.trans hnone)
    | exhausted hier' hgrown' hleaves' hbetween hfull hneeded hnone' =>
      exact .exhausted hier' (hgrown.trans hgrown') (hleaves.trans hleaves')
        ⟨(Finset.subset_insert path paths).trans hbetween.1, hunion ▸ hbetween.2⟩ hfull
        (hunion ▸ hneeded) hnone'
    | stopped hstop hslot hcause =>
      exact .stopped hstop (hslot.trans hgrown.slot) (hgrown.cr3 ▸ hcause)

theorem Hierarchy.setLeaf (h : Hierarchy storage depth m paths) {p : List Nat} {t i : Nat}
    (hp : p.length = 3) (ht : m.tableAt (storage.address 0) p = some t) (entry : Entry)
    (hentry : depth ≤ 2 ∨ depth = 3 ∧ entry.Sound) :
    Hierarchy storage depth (m.setEntry t i entry) paths ∧
      (m.setEntry t i entry).tableAt (storage.address 0) (p ++ [i]) = entry.link ∧
      ∀ q : List Nat, q.length ≤ 4 → q ≠ p ++ [i] →
        (m.setEntry t i entry).tableAt (storage.address 0) q = m.tableAt (storage.address 0) q := by
  have hne : p ≠ [] := by
    rintro rfl
    cases hp
  have hslot := h.not_slot hp.le hne ht i
  have hsame : ∀ q : List Nat, q.length ≤ 4 → q ≠ p ++ [i] →
      (m.setEntry t i entry).tableAt (storage.address 0) q = m.tableAt (storage.address 0) q := by
    intro q hq hqne
    apply Radix.walk_of_change (t := t) (i := i) _ (h.only hp.le ht) hq
    · intro hbehind
      apply hqne
      apply (hbehind.eq_of_length_le _).symm
      simpa [hp] using hq
    · intro t' j hcell
      rw [AddressSpace.lowNext, AddressSpace.lowNext, AddressSpace.next, AddressSpace.next,
        AddressSpace.tables_setEntry, if_neg hcell]
  have hshort : ∀ q : List Nat, q.length ≤ 3 →
      (m.setEntry t i entry).tableAt (storage.address 0) q = m.tableAt (storage.address 0) q := by
    intro q hq
    apply hsame q (hq.trans (by decide))
    rintro rfl
    simp [hp] at hq
  refine ⟨?_, ?_, hsame⟩
  · exact
      { rooted := h.rooted
        room := h.room
        tree := fun q r u hq hr hqu hru => h.tree q r u hq hr ((hshort q hq).symm.trans hqu)
          ((hshort r hr).symm.trans hru)
        reached := fun q hq => by rw [hshort q hq]; exact h.reached q hq
        short := h.short
        owned := fun q hq u hu => h.owned q hq u ((hshort q (h.short q hq)).symm.trans hu)
        sound := fun q u j hq hu hcell => by
          have hqlen : q.length ≤ 3 := by omega
          have hu' := (hshort q hqlen).symm.trans hu
          rw [AddressSpace.tables_setEntry]
          split_ifs with hedit
          · cases hentry with
            | inr hsound => exact hsound.2
            | inl hdepth =>
              rw [hedit.1] at hu'
              rw [h.only hp.le ht q hqlen hu'] at hq
              omega
          · exact h.sound q u j hq hu' hcell }
  · have hp' := (hshort p hp.le).trans ht
    rw [AddressSpace.tableAt] at hp' ⊢
    rw [Radix.walk_concat, hp', Option.bind_some, AddressSpace.lowNext_of_not_slot _ hslot,
      AddressSpace.next, AddressSpace.tables_setEntry, if_pos ⟨rfl, rfl⟩]

theorem Hierarchy.leafAt_setLeaf (h : Hierarchy storage depth m paths) {p : List Nat} {t i : Nat}
    (hp : p.length = 3) (ht : m.tableAt (storage.address 0) p = some t) {entry : Entry}
    (hsame : ∀ q : List Nat, q.length ≤ 4 → q ≠ p ++ [i] →
      (m.setEntry t i entry).tableAt (storage.address 0) q = m.tableAt (storage.address 0) q) :
    (m.setEntry t i entry).leafAt (storage.address 0) p i = entry ∧
      ∀ (q : List Nat) (j : Nat), q.length = 3 → q ++ [j] ≠ p ++ [i] →
        (m.setEntry t i entry).leafAt (storage.address 0) q j =
          m.leafAt (storage.address 0) q j := by
  have hshort : ∀ q : List Nat, q.length = 3 →
      (m.setEntry t i entry).tableAt (storage.address 0) q = m.tableAt (storage.address 0) q := by
    intro q hq
    apply hsame q (hq.le.trans (by decide))
    rintro rfl
    simp [hp] at hq
  constructor
  · rw [AddressSpace.leafAt_of_tableAt ((hshort p hp).trans ht), AddressSpace.tables_setEntry,
      if_pos ⟨rfl, rfl⟩]
  · intro q j hq hne
    cases hu : m.tableAt (storage.address 0) q with
    | none =>
      rw [AddressSpace.leafAt_of_none ((hshort q hq).trans hu), AddressSpace.leafAt_of_none hu]
    | some u =>
      have hcell : ¬ (u = t ∧ j = i) := by
        rintro ⟨rfl, rfl⟩
        exact hne (by rw [h.only hp.le ht q hq.le hu])
      rw [AddressSpace.leafAt_of_tableAt ((hshort q hq).trans hu), AddressSpace.leafAt_of_tableAt hu,
        AddressSpace.tables_setEntry, if_neg hcell]

theorem mapLeaf_outcome (h : Hierarchy storage depth m paths) {page frame t : Nat}
    {flags : PageTableFlags} (hpaths : tablePaths page ⊆ paths)
    (ht : m.tableAt (storage.address 0) (tablePath page) = some t)
    (hdepth : depth = 2 ∨ depth = 3 ∧ present flags) :
    MapOutcome storage depth m paths page frame flags
      (outcome (mapLeaf t (p1Index page) frame flags) m) := by
  have hunion : paths ∪ tablePaths page = paths := Finset.union_eq_left.mpr hpaths
  have hslot := h.not_slot (p := tablePath page) le_rfl (by simp [tablePath]) ht
  have hleaf : m.leaf (storage.address 0) page = m.tables t (p1Index page) :=
    AddressSpace.leafAt_of_tableAt ht _
  rw [mapLeaf, outcome_get_bind, outcome_ite]
  by_cases hunused : (m.tables t (p1Index page)).isUnused
  · rw [if_neg (not_not.mpr hunused), outcome_ite]
    by_cases hhuge : huge flags
    · rw [if_pos hhuge]
      exact .stopped id rfl (.inr (.inr hhuge))
    · rw [if_neg hhuge, outcome_modify]
      have hentry : depth ≤ 2 ∨ depth = 3 ∧ (⟨frame, flags⟩ : Entry).Sound := by
        cases hdepth with
        | inl htwo => exact .inl htwo.le
        | inr hthree => exact .inr ⟨hthree.1, .inr ⟨hthree.2, hhuge⟩⟩
      obtain ⟨hier, -, hsame⟩ := h.setLeaf (i := p1Index page) rfl ht ⟨frame, flags⟩ hentry
      obtain ⟨hwritten, hothers⟩ := h.leafAt_setLeaf rfl ht hsame
      refine .mapped (hunion.symm ▸ hier) ⟨?_, rfl, rfl, ?_⟩ ?_ hwritten hothers Iff.rfl
      · rw [AddressSpace.tables_setEntry]
        exact if_neg fun hcell => hslot _ ⟨hcell.1.symm, hcell.2.symm⟩
      · intro q u hq hu
        rw [hsame q hq, hu]
        rintro rfl
        rw [h.tableAt_leaf rfl, AddressSpace.leafAt_of_tableAt ht, hunused] at hu
        cases hu
      · rw [hleaf]
        exact hunused
  · rw [if_pos hunused]
    refine .alreadyMapped (hunion.symm ▸ h) (.refl storage m) (fun _ _ _ => rfl) ?_ Iff.rfl
    rw [hleaf]
    exact hunused

theorem walkMapTo_outcome (h : Hierarchy storage depth m paths) (hready : Ready storage m)
    {follow : Entry → Kernel MapToError Nat} (hfollow : Follows follow) (frame : Nat) {page : Nat}
    {flags : PageTableFlags} (hpage : p4Index page ≠ RECURSIVE_INDEX)
    (hdepth : depth = 2 ∨ depth = 3 ∧ present flags) :
    MapOutcome storage depth m paths page frame flags
      (outcome (walkMapTo follow (storage.address 0) page frame flags (reserveFrame storage)) m) := by
  have hbounds : 2 ≤ depth ∧ depth ≤ 3 := by omega
  have hhuge := not_huge_parent flags
  have hroot : m.tableAt (storage.address 0) [] = some (storage.address 0) := rfl
  apply MapOutcome.bind h hready
    (createNextTable_cases h hready hfollow (p := []) (by simp) hbounds hroot
      (fun hslot => hpage hslot.2) hhuge) (by simp [tablePaths])
  intro p3 m₁ h₁ hready₁ hp3
  apply MapOutcome.bind h₁ hready₁
    (createNextTable_cases h₁ hready₁ hfollow (p := [p4Index page]) (by simp) hbounds hp3
      (h₁.not_slot (by simp) (by simp) hp3 _) hhuge) (by simp [tablePaths])
  intro p2 m₂ h₂ hready₂ hp2
  apply MapOutcome.bind h₂ hready₂
    (createNextTable_cases h₂ hready₂ hfollow (p := [p4Index page, p3Index page]) (by simp) hbounds
      hp2 (h₂.not_slot (by simp) (by simp) hp2 _) hhuge) (by simp [tablePaths])
  intro p1 m₃ h₃ _ hp1
  apply mapLeaf_outcome h₃ _ hp1 hdepth
  intro path hpath
  simp only [tablePaths, Finset.mem_insert, Finset.mem_singleton] at hpath
  rcases hpath with rfl | rfl | rfl <;> simp

/-! ### Unmapping -/

inductive UnmapOutcome (storage : Storage) (m : AddressSpace) (paths : Finset (List Nat))
    (page : Nat) : Except (Stop UnmapError) Nat × AddressSpace → Prop
  | refused (e : UnmapError) : UnmapOutcome storage m paths page (.error (.error e), m)
  | unmapped {m' : AddressSpace} {frame : Nat} (hierarchy : Hierarchy storage 2 m' paths)
      (slot : m'.tables (storage.address 0) RECURSIVE_INDEX =
        m.tables (storage.address 0) RECURSIVE_INDEX)
      (cr3 : m'.cr3 = m.cr3) (pagingActive : m'.pagingActive = m.pagingActive)
      (cleared : m'.leaf (storage.address 0) page = .unused)
      (others : ∀ q : List Nat, q.length ≤ 4 → q ≠ indices page →
        m'.tableAt (storage.address 0) q = m.tableAt (storage.address 0) q)
      (leaves : ∀ (p : List Nat) (i : Nat), p.length = 3 → p ++ [i] ≠ indices page →
        m'.leafAt (storage.address 0) p i = m.leafAt (storage.address 0) p i) :
      UnmapOutcome storage m paths page (.ok frame, m')

theorem frameAt_linked {t i u : Nat} (h : (m.tables t i).link = some u) :
    outcome (frameAt t i) m = (.ok u, m) := by
  rw [frameAt, outcome_get_bind, Entry.frame_eq_ok.mpr h]
  rfl

/-- One level down: the table that the entry links to, or a refusal. -/
theorem UnmapOutcome.bind {page t i : Nat} {f : Nat → Kernel UnmapError Nat}
    (hrest : ∀ u, (m.tables t i).link = some u → UnmapOutcome storage m paths page (outcome (f u) m)) :
    UnmapOutcome storage m paths page (outcome (frameAt t i >>= f) m) := by
  cases hframe : (m.tables t i).frame with
  | ok u =>
    have hlink := Entry.frame_eq_ok.mp hframe
    rw [outcome_bind_ok f (frameAt_linked hlink)]
    exact hrest u hlink
  | error e =>
    cases e with
    | frameNotPresent =>
      have hat : outcome (frameAt t i) m = (.error (.error .pageNotMapped), m) := by
        rw [frameAt, outcome_get_bind, hframe]
        rfl
      rw [outcome_bind_error f hat]
      exact .refused .pageNotMapped
    | hugeFrame =>
      have hat : outcome (frameAt t i) m = (.error (.error .parentEntryHugePage), m) := by
        rw [frameAt, outcome_get_bind, hframe]
        rfl
      rw [outcome_bind_error f hat]
      exact .refused .parentEntryHugePage

theorem Hierarchy.tableAt_concat (h : Hierarchy storage depth m paths) {p : List Nat} {t i u : Nat}
    (hlen : p.length ≤ 3) (ht : m.tableAt (storage.address 0) p = some t)
    (hi : p = [] → i ≠ RECURSIVE_INDEX) (hu : (m.tables t i).link = some u) :
    m.tableAt (storage.address 0) (p ++ [i]) = some u := by
  have hslot : ¬ (t = storage.address 0 ∧ i = RECURSIVE_INDEX) := by
    rintro ⟨rfl, hrec⟩
    exact hi (h.root_only hlen ht) hrec
  rw [AddressSpace.tableAt] at ht ⊢
  rw [Radix.walk_concat, ht, Option.bind_some, m.lowNext_of_not_slot hslot]
  exact hu

theorem walkUnmap_outcome (h : Hierarchy storage 2 m paths) {page : Nat}
    (hpage : p4Index page ≠ RECURSIVE_INDEX) :
    UnmapOutcome storage m paths page (outcome (walkUnmap (storage.address 0) page) m) := by
  have hroot : m.tableAt (storage.address 0) [] = some (storage.address 0) := rfl
  apply UnmapOutcome.bind
  intro p3 hp3
  have hat3 := h.tableAt_concat (by simp) hroot (fun _ => hpage) hp3
  apply UnmapOutcome.bind
  intro p2 hp2
  have hat2 := h.tableAt_concat (by simp) hat3 (by simp) hp2
  apply UnmapOutcome.bind
  intro p1 hp1
  have hat1 := h.tableAt_concat (by simp) hat2 (by simp) hp1
  apply UnmapOutcome.bind
  intro frame _
  obtain ⟨hier, -, hsame⟩ := h.setLeaf (i := p1Index page) rfl hat1 .unused (.inl le_rfl)
  obtain ⟨hcleared, hleaves⟩ := h.leafAt_setLeaf (p := tablePath page) rfl hat1 hsame
  refine .unmapped hier ?_ rfl rfl hcleared hsame hleaves
  rw [AddressSpace.tables_setEntry]
  exact if_neg fun hcell => h.not_slot (by simp) (by simp) hat1 _ ⟨hcell.1.symm, hcell.2.symm⟩

end AgnostOS.Paging
