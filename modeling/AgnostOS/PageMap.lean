import AgnostOS.Library.Simulation
import AgnostOS.RecursiveSlot

/-! The page tables as a map from pages to entries: after the bootstrap every sequence of
`map_page` and `unmap_page` calls acts on that map and on nothing else. -/
namespace AgnostOS.Paging
open Globals AgnostOS.Frame Attempt PageTableFlags

/-! ### The abstract map -/

structure PageMap where
  entry : Nat → Entry
  tables : Finset (List Nat)

structure Exchange where
  call : PageCall
  answer : Except (Stop PagingError) (Option Nat)

namespace PageMap

def place (v : PageMap) (page : Nat) : Option Nat := (v.entry page).link

def Fits (v : PageMap) (page : Nat) : Prop :=
  (v.tables ∪ tablePaths page).card ≤ MAX_PAGE_TABLE_FRAMES

/-- `map_page` fills a free entry whose tables fit, and fails on any other mappable pair: on
an entry in use, or with the arena used up. `unmap_page` clears a bound entry. -/
inductive Step : Exchange → PageMap → PageMap → Prop
  | mapped {v : PageMap} {page frame : Nat} {flags : PageTableFlags}
      (mappable : Mappable page frame) (free : (v.entry page).isUnused) (fits : v.Fits page) :
      Step ⟨.mapPage page frame flags, .ok none⟩ v
        ⟨Function.update v.entry page ⟨frame, flags⟩, v.tables ∪ tablePaths page⟩
  | unmappable {v : PageMap} {page frame : Nat} {flags : PageTableFlags} {e : PagingError}
      (pair : ¬ Mappable page frame) (kind : e ≠ .mappingFailed) :
      Step ⟨.mapPage page frame flags, .error (.error e)⟩ v v
  | occupied {v : PageMap} {page frame : Nat} {flags : PageTableFlags}
      (mappable : Mappable page frame) (used : ¬ (v.entry page).isUnused) :
      Step ⟨.mapPage page frame flags, .error (.error .mappingFailed)⟩ v v
  | exhausted {v : PageMap} {page frame : Nat} {flags : PageTableFlags} {tables : Finset (List Nat)}
      (mappable : Mappable page frame) (overflow : ¬ v.Fits page)
      (between : v.tables ⊆ tables ∧ tables ⊆ v.tables ∪ tablePaths page)
      (full : tables.card = MAX_PAGE_TABLE_FRAMES) :
      Step ⟨.mapPage page frame flags, .error (.error .mappingFailed)⟩ v ⟨v.entry, tables⟩
  | unmapped {v : PageMap} {page frame : Nat} (bound : v.place page = some frame) :
      Step ⟨.unmapPage page, .ok (some frame)⟩ v ⟨Function.update v.entry page .unused, v.tables⟩
  | unmapRefused {v : PageMap} {page : Nat} {e : PagingError}
      (unbound : ¬ IsPage page ∨ v.place page = none) :
      Step ⟨.unmapPage page, .error (.error e)⟩ v v

end PageMap

/-! ### The concrete calls -/

def PageCall.ask (mappers : Mappers) (storage : Storage) : PageCall → Kernel PagingError (Option Nat)
  | .mapPage virtualAddress physicalAddress flags => do
    Paging.mapPage mappers storage virtualAddress physicalAddress flags
    pure none
  | .unmapPage virtualAddress => do
    let frame ← Paging.unmapPage mappers virtualAddress
    pure (some frame)

def Answer (mappers : Mappers) (storage : Storage) (x : Exchange) (m m' : AddressSpace) : Prop :=
  x.call.Safe storage m ∧ outcome (x.call.ask mappers storage) m = (x.answer, m') ∧
    ∀ stop, x.answer = .error stop → stop.returned

structure Shows (storage : Storage) (m : AddressSpace) (v : PageMap) : Prop where
  entries : ∀ page, IsPage page → p4Index page ≠ RECURSIVE_INDEX →
    m.leaf (storage.address 0) page = v.entry page
  tables : Hierarchy storage 2 m v.tables

section Step
variable {mappers : Mappers} {storage : Storage} {m : AddressSpace}

/-- One level of the walk of `unmap`, and the same level of the tree. -/
theorem frameAt_walk {paths : Finset (List Nat)} (h : Hierarchy storage 2 m paths) {p : List Nat}
    {t i : Nat} (hlen : p.length ≤ 3) (ht : m.tableAt (storage.address 0) p = some t)
    (hi : p = [] → i ≠ RECURSIVE_INDEX) (rest : List Nat) {f : Nat → Kernel UnmapError Nat}
    (hrest : ∀ u, m.tableAt (storage.address 0) (p ++ [i]) = some u → ∀ frame,
      (outcome (f u) m).1 = .ok frame ↔
        m.tableAt (storage.address 0) (p ++ i :: rest) = some frame) (frame : Nat) :
    (outcome (frameAt t i >>= f) m).1 = .ok frame ↔
      m.tableAt (storage.address 0) (p ++ i :: rest) = some frame := by
  cases hlink : (m.tables t i).link with
  | some u =>
    rw [outcome_bind_ok f (frameAt_linked hlink)]
    exact hrest u (h.tableAt_concat hlen ht hi hlink) frame
  | none =>
    have hslot : ¬ (t = storage.address 0 ∧ i = RECURSIVE_INDEX) := by
      rintro ⟨rfl, hrec⟩
      exact hi (h.root_only hlen ht) hrec
    have hgone : m.tableAt (storage.address 0) (p ++ i :: rest) = none := by
      have hsplit : p ++ i :: rest = (p ++ [i]) ++ rest := by simp
      rw [hsplit, AddressSpace.tableAt, Radix.walk_append, Radix.walk_concat]
      rw [AddressSpace.tableAt] at ht
      rw [ht, Option.bind_some, m.lowNext_of_not_slot hslot, AddressSpace.next, hlink,
        Option.bind_none]
    have hstop : ∃ e, outcome (frameAt t i) m = (.error e, m) := by
      rw [frameAt, outcome_get_bind]
      cases hframe : (m.tables t i).frame with
      | ok u =>
        rw [Entry.frame_eq_ok.mp hframe] at hlink
        cases hlink
      | error e => cases e <;> exact ⟨_, rfl⟩
    obtain ⟨e, he⟩ := hstop
    rw [outcome_bind_error f he, hgone]
    simp

/-- The walk of `unmap` comes back with the frame exactly when the leaf links to it. -/
theorem walkUnmap_frame {paths : Finset (List Nat)} (h : Hierarchy storage 2 m paths) {page : Nat}
    (hpage : p4Index page ≠ RECURSIVE_INDEX) (frame : Nat) :
    (outcome (walkUnmap (storage.address 0) page) m).1 = .ok frame ↔
      m.tableAt (storage.address 0) (indices page) = some frame := by
  have hroot : m.tableAt (storage.address 0) [] = some (storage.address 0) := rfl
  refine frameAt_walk h (by simp) hroot (fun _ => hpage) _ (fun p3 hp3 => ?_) frame
  refine frameAt_walk h (by simp) hp3 (by simp) _ fun p2 hp2 => ?_
  refine frameAt_walk h (by simp) hp2 (by simp) _ fun p1 hp1 => ?_
  refine frameAt_walk h (by simp) hp1 (by simp) [] fun u hu frame => ?_
  have hend : outcome (do
      modify fun m => m.setEntry p1 (p1Index page) .unused
      pure u : Kernel UnmapError Nat) m =
      (.ok u, m.setEntry p1 (p1Index page) .unused) := rfl
  rw [hend, hu]
  simp

namespace Shows
variable {v : PageMap}

/-- The tree leads from the path of a page to its place on the map. -/
theorem leaf (hv : Shows storage m v) {page : Nat} (hpage : IsPage page)
    (hlow : p4Index page ≠ RECURSIVE_INDEX) :
    m.tableAt (storage.address 0) (indices page) = v.place page := by
  rw [indices_eq, hv.tables.tableAt_leaf rfl]
  exact congrArg Entry.link (hv.entries page hpage hlow)

theorem translate (hv : Shows storage m v) (h : Live storage m) {page : Nat} (hpage : IsPage page)
    (hlow : p4Index page ≠ RECURSIVE_INDEX) : m.translate page = v.place page := by
  rw [h.translate_of_low hlow, hv.leaf hpage hlow]

theorem of_sameLeaves (hv : Shows storage m v) {m' : AddressSpace} {tables : Finset (List Nat)}
    (hier : Hierarchy storage 2 m' tables) (hleaves : SameLeaves storage m m') :
    Shows storage m' ⟨v.entry, tables⟩ where
  entries page hpage hlow := (hleaves _ rfl _).trans (hv.entries page hpage hlow)
  tables := hier

theorem of_leaf (hv : Shows storage m v) {m' : AddressSpace} {tables : Finset (List Nat)}
    (hier : Hierarchy storage 2 m' tables) {page : Nat} (hpage : IsPage page) {entry : Entry}
    (hleaf : m'.leaf (storage.address 0) page = entry)
    (hothers : ∀ (p : List Nat) (i : Nat), p.length = 3 → p ++ [i] ≠ indices page →
      m'.leafAt (storage.address 0) p i = m.leafAt (storage.address 0) p i) :
    Shows storage m' ⟨Function.update v.entry page entry, tables⟩ where
  entries other hother hlow := by
    dsimp only
    by_cases hsame : other = page
    · rw [hsame, hleaf, Function.update_self]
    · have hindices : indices other ≠ indices page := fun heq =>
        hsame (hother.eq_of_indices hpage heq)
      rw [Function.update_of_ne hsame, ← hv.entries other hother hlow]
      exact hothers _ _ rfl hindices
  tables := hier

end Shows

theorem Hierarchy.tablePaths_subset {depth : Nat} {paths : Finset (List Nat)}
    (h : Hierarchy storage depth m paths) {page : Nat}
    (hused : ¬ (m.leaf (storage.address 0) page).isUnused) : tablePaths page ⊆ paths := by
  have hsome : (m.tableAt (storage.address 0) (tablePath page)).isSome := by
    cases ht : m.tableAt (storage.address 0) (tablePath page) with
    | none => exact absurd (AddressSpace.leafAt_of_none ht _) hused
    | some t => rfl
  intro path hpath
  obtain ⟨rest, hrest⟩ : ∃ rest, tablePath page = path ++ rest := by
    simp only [tablePaths, Finset.mem_insert, Finset.mem_singleton] at hpath
    rcases hpath with rfl | rfl | rfl
    · exact ⟨[p3Index page, p2Index page], rfl⟩
    · exact ⟨[p2Index page], rfl⟩
    · exact ⟨[], rfl⟩
  have hlen : path.length ≤ 3 := by
    have htotal := congrArg List.length hrest
    simp only [List.length_append, tablePath, List.length_cons, List.length_nil] at htotal
    omega
  have hne : path ≠ [] := by
    rintro rfl
    simp [tablePaths] at hpath
  refine (h.reached path hlen).mpr ⟨hne, ?_⟩
  rw [hrest, AddressSpace.tableAt, Radix.walk_append] at hsome
  cases hwalk : m.tableAt (storage.address 0) path with
  | none =>
    rw [AddressSpace.tableAt] at hwalk
    rw [hwalk] at hsome
    cases hsome
  | some t => rfl

/-- How a safe mapping that comes back shows on the map. -/
theorem shows_mapPage (hdoc : mappers.Documented storage) (h : Live storage m) {v : PageMap}
    (hv : Shows storage m v) {page frame : Nat} {flags : PageTableFlags}
    (hsafe : (PageCall.mapPage page frame flags).Safe storage m)
    {result : Except (Stop PagingError) Unit} {m' : AddressSpace}
    (hout : outcome (Paging.mapPage mappers storage page frame flags) m = (result, m'))
    (hanswered : ∀ stop, result = .error stop → stop.returned) :
    ∃ v', PageMap.Step ⟨.mapPage page frame flags, result.map fun _ => none⟩ v v' ∧
      Shows storage m' v' := by
  have hlow : p4Index page ≠ RECURSIVE_INDEX := hsafe.1
  by_cases hmappable : Mappable page frame
  · have hwalk : MapOutcome storage 2 m v.tables page frame flags _ :=
      walkMapTo_outcome hv.tables h.ready followRecursive_follows frame hlow (.inl rfl)
    have hentry := hv.entries page hmappable.toIsPage hlow
    rw [mapPage_live hdoc hv.tables.rooted h.recursive h.active hmappable] at hout
    generalize outcome (walkMapTo followRecursive (storage.address 0) page frame flags
      (reserveFrame storage)) m = walked at hwalk hout
    cases hwalk with
    | mapped hier _ hfree hleaf hothers _ =>
      obtain ⟨rfl, rfl⟩ := Prod.mk.inj hout
      rw [hentry] at hfree
      exact ⟨_, .mapped hmappable hfree hier.room,
        hv.of_leaf hier hmappable.toIsPage hleaf hothers⟩
    | alreadyMapped hier _ hleaves hused _ =>
      obtain ⟨rfl, rfl⟩ := Prod.mk.inj hout
      rw [Finset.union_eq_left.mpr (hv.tables.tablePaths_subset hused)] at hier
      rw [hentry] at hused
      exact ⟨v, .occupied hmappable hused, hv.of_sameLeaves hier hleaves⟩
    | exhausted hier _ hleaves hbetween hfull hneeded _ =>
      obtain ⟨rfl, rfl⟩ := Prod.mk.inj hout
      exact ⟨_, .exhausted hmappable (Nat.not_le.mpr hneeded) hbetween hfull,
        hv.of_sameLeaves hier hleaves⟩
    | stopped hstop _ _ =>
      obtain ⟨rfl, rfl⟩ := Prod.mk.inj hout
      exact absurd ((returned_map _ _).mp (hanswered _ rfl)) hstop
  · obtain ⟨stop, hkind, hrefused⟩ : ∃ stop, stop ≠ .error .mappingFailed ∧
        outcome (Paging.mapPage mappers storage page frame flags) m = (.error stop, m) :=
      mapPage_refused hmappable flags
    obtain ⟨rfl, rfl⟩ := Prod.mk.inj (hrefused.symm.trans hout)
    have hreturned := hanswered stop rfl
    cases stop with
    | error e => exact ⟨v, .unmappable hmappable fun heq => hkind (heq ▸ rfl), hv⟩
    | panic => exact absurd hreturned id
    | pageFault => exact absurd hreturned id
    | unfinished => exact absurd hreturned id

theorem shows_unmapPage (hdoc : mappers.Documented storage) (h : Live storage m) {v : PageMap}
    (hv : Shows storage m v) {page : Nat} (hlow : p4Index page ≠ RECURSIVE_INDEX)
    {result : Except (Stop PagingError) Nat} {m' : AddressSpace}
    (hout : outcome (Paging.unmapPage mappers page) m = (result, m')) :
    ∃ v', PageMap.Step ⟨.unmapPage page, result.map some⟩ v v' ∧ Shows storage m' v' := by
  by_cases hpage : IsPage page
  · have hwalk := walkUnmap_outcome hv.tables hlow
    have hframe := walkUnmap_frame hv.tables hlow
    rw [unmapPage_live hdoc hv.tables.rooted h.recursive h.active hpage] at hout
    generalize outcome (walkUnmap (storage.address 0) page) m = walked at hwalk hframe hout
    cases hwalk with
    | refused e =>
      obtain ⟨rfl, rfl⟩ := Prod.mk.inj hout
      have hunbound : v.place page = none := by
        rw [← hv.leaf hpage hlow, Option.eq_none_iff_forall_ne_some]
        intro frame hbound
        cases (hframe frame).mpr hbound
      exact ⟨v, .unmapRefused (.inr hunbound), hv⟩
    | @unmapped _ frame hier _ _ _ hcleared _ hleaves =>
      obtain ⟨rfl, rfl⟩ := Prod.mk.inj hout
      have hbound := (hv.leaf hpage hlow).symm.trans ((hframe frame).mp rfl)
      exact ⟨_, .unmapped hbound, hv.of_leaf hier hpage hcleared hleaves⟩
  · obtain ⟨e, hrefused⟩ :
        ∃ e, outcome (Paging.unmapPage mappers page) m = (.error (.error e), m) :=
      unmapPage_refused hpage
    obtain ⟨rfl, rfl⟩ := Prod.mk.inj (hrefused.symm.trans hout)
    exact ⟨v, .unmapRefused (.inl hpage), hv⟩

theorem outcome_ask_mapPage (page frame : Nat) (flags : PageTableFlags) :
    outcome ((PageCall.mapPage page frame flags).ask mappers storage) m =
      ((outcome (Paging.mapPage mappers storage page frame flags) m).1.map fun _ => none,
        (outcome (Paging.mapPage mappers storage page frame flags) m).2) := by
  rw [PageCall.ask, outcome_bind]
  rcases outcome (Paging.mapPage mappers storage page frame flags) m with ⟨_ | _, m'⟩ <;> rfl

theorem outcome_ask_unmapPage (page : Nat) :
    outcome ((PageCall.unmapPage page).ask mappers storage) m =
      ((outcome (Paging.unmapPage mappers page) m).1.map some,
        (outcome (Paging.unmapPage mappers page) m).2) := by
  rw [PageCall.ask, outcome_bind]
  rcases outcome (Paging.unmapPage mappers page) m with ⟨_ | _, m'⟩ <;> rfl

/-- An answered call leaves a live state, and does to the map what the map allows. -/
theorem Answer.step (hdoc : mappers.Documented storage) (h : Live storage m) {x : Exchange}
    {m' : AddressSpace} (hx : Answer mappers storage x m m') :
    Live storage m' ∧ ∀ v, Shows storage m v → ∃ v', PageMap.Step x v v' ∧ Shows storage m' v' := by
  obtain ⟨call, answer⟩ := x
  obtain ⟨hsafe, hout, hanswered⟩ := hx
  cases call with
  | mapPage page frame flags =>
    have hcall := h.mapPage hdoc hsafe
    rw [outcome_ask_mapPage] at hout
    rcases hmap : outcome (Paging.mapPage mappers storage page frame flags) m with ⟨result, m₁⟩
    rw [hmap] at hcall hout
    obtain ⟨rfl, rfl⟩ := Prod.mk.inj hout
    have hreturned : ∀ stop, result = .error stop → stop.returned := by
      rintro stop rfl
      exact hanswered stop rfl
    cases hcall with
    | stopped hstop _ => exact absurd (hreturned _ rfl) hstop
    | answered hlive _ => exact ⟨hlive, fun v hv => shows_mapPage hdoc h hv hsafe hmap hreturned⟩
  | unmapPage page =>
    have hcall : CallOutcome storage m page _ := h.unmapPage hdoc hsafe
    rw [outcome_ask_unmapPage] at hout
    rcases hunmap : outcome (Paging.unmapPage mappers page) m with ⟨result, m₁⟩
    rw [hunmap] at hcall hout
    obtain ⟨rfl, rfl⟩ := Prod.mk.inj hout
    cases hcall with
    | stopped hstop _ => exact absurd (hanswered _ rfl) hstop
    | answered hlive _ => exact ⟨hlive, fun v hv => shows_unmapPage hdoc h hv hsafe hunmap⟩

end Step

section Boot
variable {mappers : Mappers} {storage : Storage} {m m' m₀ m₁ : AddressSpace} {pages : Finset Nat}

end Boot

end AgnostOS.Paging
