import AgnostOS.BootMapping
import Mathlib.Data.Finset.Union

/-! The identity mapping of the bootstrap, page by page: how many tables its pages need,
what the hierarchy holds after each of them, and how the list of pages ends. -/
namespace AgnostOS.Paging
open Globals Word AgnostOS.Frame Attempt PageTableFlags

/-! ### Counting tables -/

/-- One table for each 512 GiB, each 1 GiB and each 2 MiB that the pages touch. -/
def tablesNeeded (pages : Finset Nat) : Nat :=
  (pages.image fun page => page / 2 ^ 39).card + (pages.image fun page => page / 2 ^ 30).card +
    (pages.image fun page => page / 2 ^ 21).card

theorem tablesNeeded_mono {s t : Finset Nat} (h : s ⊆ t) : tablesNeeded s ≤ tablesNeeded t := by
  have hcard := fun f : Nat → Nat => Finset.card_le_card (Finset.image_subset_image (f := f) h)
  exact Nat.add_le_add (Nat.add_le_add (hcard _) (hcard _)) (hcard _)

theorem le_tablesNeeded {pages : Finset Nat} {start n : Nat}
    (h : ∀ k < n, start + k * 2 ^ 21 ∈ pages) : n ≤ tablesNeeded pages := by
  have hsub : (Finset.range n).image (fun k => (start + k * 2 ^ 21) / 2 ^ 21) ⊆
      pages.image fun page => page / 2 ^ 21 := by
    intro region hregion
    obtain ⟨k, hk, rfl⟩ := Finset.mem_image.mp hregion
    exact Finset.mem_image_of_mem _ (h k (Finset.mem_range.mp hk))
  have hcard := Finset.card_le_card hsub
  rw [Finset.card_image_of_injective, Finset.card_range] at hcard
  · exact hcard.trans (Nat.le_add_left _ _)
  · intro k l hkl
    simp only at hkl
    omega

def p4Path (region : Nat) : List Nat := [region % 512]
def p3Path (region : Nat) : List Nat := [region / 2 ^ 9 % 512, region % 512]
def p2Path (region : Nat) : List Nat :=
  [region / 2 ^ 18 % 512, region / 2 ^ 9 % 512, region % 512]

theorem biUnion_tablePaths (pages : Finset Nat) :
    pages.biUnion tablePaths =
      ((pages.image fun page => page / 2 ^ 39).image p4Path ∪
        (pages.image fun page => page / 2 ^ 30).image p3Path) ∪
          (pages.image fun page => page / 2 ^ 21).image p2Path := by
  have hpaths : ∀ page, tablePaths page =
      {p4Path (page / 2 ^ 39), p3Path (page / 2 ^ 30), p2Path (page / 2 ^ 21)} := by
    intro page
    simp only [tablePaths, p4Path, p3Path, p2Path, p4Index, p3Index, p2Index,
      Nat.div_div_eq_div_mul, ← pow_add]
  ext path
  simp only [Finset.mem_biUnion, hpaths, Finset.mem_insert, Finset.mem_singleton,
    Finset.mem_union, Finset.mem_image, exists_exists_and_eq_and]
  constructor
  · rintro ⟨page, hpage, rfl | rfl | rfl⟩
    · exact .inl (.inl ⟨page, hpage, rfl⟩)
    · exact .inl (.inr ⟨page, hpage, rfl⟩)
    · exact .inr ⟨page, hpage, rfl⟩
  · rintro ((⟨page, hpage, rfl⟩ | ⟨page, hpage, rfl⟩) | ⟨page, hpage, rfl⟩)
    · exact ⟨page, hpage, .inl rfl⟩
    · exact ⟨page, hpage, .inr (.inl rfl)⟩
    · exact ⟨page, hpage, .inr (.inr rfl)⟩

/-- Regions that their index paths tell apart give as many paths. -/
theorem card_image_path {pages : Finset Nat} (hlow : ∀ page ∈ pages, page < 2 ^ 47)
    {path : Nat → List Nat} {size : Nat}
    (hinj : ∀ p < 2 ^ 47, ∀ q < 2 ^ 47, path (p / size) = path (q / size) → p / size = q / size) :
    ((pages.image fun page => page / size).image path).card =
      (pages.image fun page => page / size).card := by
  apply Finset.card_image_of_injOn
  intro x hx y hy hxy
  obtain ⟨p, hp, rfl⟩ := Finset.mem_image.mp (Finset.mem_coe.mp hx)
  obtain ⟨q, hq, rfl⟩ := Finset.mem_image.mp (Finset.mem_coe.mp hy)
  exact hinj p (hlow p hp) q (hlow q hq) hxy

theorem disjoint_image_of_length {f g : Nat → List Nat} {k l : Nat} (hf : ∀ x, (f x).length = k)
    (hg : ∀ x, (g x).length = l) (hne : k ≠ l) (s t : Finset Nat) :
    Disjoint (s.image f) (t.image g) := by
  rw [Finset.disjoint_left]
  intro path hs ht
  obtain ⟨x, -, rfl⟩ := Finset.mem_image.mp hs
  obtain ⟨y, -, hy⟩ := Finset.mem_image.mp ht
  exact hne ((hf x).symm.trans ((congrArg List.length hy).symm.trans (hg y)))

/-- In the low half the walks to the pages go through that many tables. -/
theorem card_biUnion_tablePaths {pages : Finset Nat} (hlow : ∀ page ∈ pages, page < 2 ^ 47) :
    (pages.biUnion tablePaths).card = tablesNeeded pages := by
  have h4 : ∀ region, (p4Path region).length = 1 := fun _ => rfl
  have h3 : ∀ region, (p3Path region).length = 2 := fun _ => rfl
  have h2 : ∀ region, (p2Path region).length = 3 := fun _ => rfl
  rw [biUnion_tablePaths, Finset.card_union_of_disjoint, Finset.card_union_of_disjoint,
    card_image_path hlow, card_image_path hlow, card_image_path hlow, tablesNeeded]
  · intro p hp q hq h
    simp only [p2Path, List.cons.injEq, and_true] at h
    omega
  · intro p hp q hq h
    simp only [p3Path, List.cons.injEq, and_true] at h
    omega
  · intro p hp q hq h
    simp only [p4Path, List.cons.injEq, and_true] at h
    omega
  · exact disjoint_image_of_length h4 h3 (by decide) _ _
  · rw [Finset.disjoint_union_left]
    exact ⟨disjoint_image_of_length h4 h2 (by decide) _ _,
      disjoint_image_of_length h3 h2 (by decide) _ _⟩

/-! ### The identity mapping -/

theorem indices_injective {a b : Nat} (ha : PAGE_SIZE ∣ a) (hb : PAGE_SIZE ∣ b) (hla : a < 2 ^ 47)
    (hlb : b < 2 ^ 47) (h : indices a = indices b) : a = b := by
  simp only [indices, p4Index, p3Index, p2Index, p1Index, List.cons.injEq, and_true,
    PAGE_SIZE] at *
  omega

/-- Before the switch exactly these pages are mapped, each to itself. -/
structure Booted (storage : Storage) (m : AddressSpace) (pages : Finset Nat) : Prop where
  hierarchy : Hierarchy storage 3 m (pages.biUnion tablePaths)
  low : ∀ page ∈ pages, PAGE_SIZE ∣ page ∧ page < 2 ^ 47
  leaves : ∀ q : List Nat, q.length = 4 → ∀ frame,
    m.tableAt (storage.address 0) q = some frame ↔ frame ∈ pages ∧ q = indices frame
  slot : m.tables (storage.address 0) RECURSIVE_INDEX = .unused
  cold : m.cr3 = none
  inactive : m.pagingActive = false
  unexhausted : none ∉ m.reservations

namespace Booted
variable {storage : Storage} {m : AddressSpace} {pages : Finset Nat}

theorem needed_le (h : Booted storage m pages) : tablesNeeded pages ≤ MAX_PAGE_TABLE_FRAMES := by
  rw [← card_biUnion_tablePaths fun page hpage => (h.low page hpage).2]
  exact h.hierarchy.room

theorem union_tablePaths (pages : Finset Nat) (page : Nat) :
    pages.biUnion tablePaths ∪ tablePaths page = (insert page pages).biUnion tablePaths := by
  rw [Finset.biUnion_insert, Finset.union_comm]

end Booted

inductive BootStep (storage : Storage) (pages : Finset Nat) (page : Nat) :
    Except (Stop PagingError) Unit × AddressSpace → Prop
  | mapped {m' : AddressSpace} (fresh : page ∉ pages) (low : page ≤ LOW_CANONICAL_MAX)
      (booted : Booted storage m' (insert page pages)) : BootStep storage pages page (.ok (), m')
  | refused {m' : AddressSpace} {stop : Stop PagingError}
      (why : page ∈ pages ∨ LOW_CANONICAL_MAX < page ∧ stop ≠ .error .mappingFailed)
      (unexhausted : none ∉ m'.reservations) : BootStep storage pages page (.error stop, m')
  | exhausted {m' : AddressSpace} {stop : Stop PagingError} (fresh : page ∉ pages)
      (low : page ≤ LOW_CANONICAL_MAX)
      (needed : MAX_PAGE_TABLE_FRAMES < tablesNeeded (insert page pages))
      (reservations : none ∈ m'.reservations) : BootStep storage pages page (.error stop, m')

section Run
variable {mappers : Mappers} {storage : Storage} {m : AddressSpace} {pages : Finset Nat}

theorem mappable_identity_iff {page : Nat} (haligned : PAGE_SIZE ∣ page) (hlt : page < 2 ^ 64) :
    Mappable page page ↔ page ≤ LOW_CANONICAL_MAX := by
  constructor
  · intro h
    have hcanonical := h.canonical
    have hframe := h.frameBounded
    simp only [isCanonical, LOW_CANONICAL_MAX, HIGH_CANONICAL_MIN] at *
    omega
  · intro hlow
    refine ⟨⟨haligned, .inl hlow, hlt⟩, haligned, ?_⟩
    simp only [LOW_CANONICAL_MAX] at hlow
    omega

theorem page_lt_of_low {page : Nat} (h : page ≤ LOW_CANONICAL_MAX) : page < 2 ^ 47 := by
  simp only [LOW_CANONICAL_MAX] at h
  omega

theorem not_recursive_of_low {page : Nat} (h : page < 2 ^ 47) : p4Index page ≠ RECURSIVE_INDEX := by
  simp only [p4Index, RECURSIVE_INDEX]
  omega

theorem Booted.leaf_iff (h : Booted storage m pages) {page : Nat} (haligned : PAGE_SIZE ∣ page)
    (hpage : page < 2 ^ 47) :
    m.tableAt (storage.address 0) (indices page) ≠ none ↔ page ∈ pages := by
  rw [Option.ne_none_iff_exists']
  constructor
  · rintro ⟨frame, hframe⟩
    obtain ⟨hin, hindices⟩ := (h.leaves _ rfl frame).mp hframe
    obtain ⟨hdvd, hframeLow⟩ := h.low frame hin
    exact indices_injective haligned hdvd hpage hframeLow hindices ▸ hin
  · exact fun hin => ⟨page, (h.leaves _ rfl page).mpr ⟨hin, rfl⟩⟩

theorem Booted.with_page {m' : AddressSpace} (h : Booted storage m pages) {page : Nat}
    (haligned : PAGE_SIZE ∣ page) (hpage : page < 2 ^ 47)
    (hier : Hierarchy storage 3 m' (pages.biUnion tablePaths ∪ tablePaths page))
    (hgrown : Grown storage m m')
    (hleaf : m'.tableAt (storage.address 0) (indices page) = some page)
    (hothers : ∀ q : List Nat, q.length = 4 → q ≠ indices page →
      m'.tableAt (storage.address 0) q = m.tableAt (storage.address 0) q)
    (hnone : none ∈ m'.reservations ↔ none ∈ m.reservations) :
    Booted storage m' (insert page pages) := by
  constructor
  · exact Booted.union_tablePaths pages page ▸ hier
  · intro other hother
    cases Finset.mem_insert.mp hother with
    | inl heq => exact heq ▸ ⟨haligned, hpage⟩
    | inr hin => exact h.low other hin
  · intro q hq frame
    rw [Finset.mem_insert]
    by_cases hindices : q = indices page
    · rw [hindices, hleaf]
      constructor
      · rintro ⟨⟩
        exact ⟨.inl rfl, rfl⟩
      · rintro ⟨rfl | hin, hsame⟩
        · rfl
        · obtain ⟨hdvd, hframeLow⟩ := h.low frame hin
          rw [indices_injective haligned hdvd hpage hframeLow hsame]
    · rw [hothers q hq hindices, h.leaves q hq frame]
      constructor
      · exact fun hin => ⟨.inr hin.1, hin.2⟩
      · rintro ⟨rfl | hin, hsame⟩
        · exact absurd hsame hindices
        · exact ⟨hin, hsame⟩
  · exact hgrown.slot.trans h.slot
  · exact hgrown.cr3.trans h.cold
  · exact hgrown.pagingActive.trans h.inactive
  · exact fun hmem => h.unexhausted (hnone.mp hmem)

theorem Booted.step_low (hdoc : mappers.Documented storage) (h : Booted storage m pages)
    {page : Nat} (haligned : PAGE_SIZE ∣ page) (hlow : page ≤ LOW_CANONICAL_MAX)
    (hmappable : Mappable page page) {flags : PageTableFlags} (hpresent : present flags)
    (hhuge : ¬ huge flags) :
    BootStep storage pages page (outcome (mapPage mappers storage page page flags) m) := by
  have hpage := page_lt_of_low hlow
  have hwalk := walkMapTo_outcome h.hierarchy (ready_of_cold h.cold) followOffset_follows page
    (not_recursive_of_low hpage) (.inr ⟨rfl, hpresent⟩)
  rw [mapPage_cold hdoc h.hierarchy.rooted h.cold h.inactive hmappable]
  generalize outcome (walkMapTo followOffset (storage.address 0) page page flags
    (reserveFrame storage)) m = result at hwalk
  have hmem := h.leaf_iff haligned hpage
  cases hwalk with
  | mapped hier hgrown hfree hleaf hothers hnone =>
    refine .mapped (fun hin => hmem.mpr hin ?_) hlow
      (h.with_page haligned hpage hier hgrown ?_ ?_ hnone)
    · rw [indices_eq, h.hierarchy.tableAt_leaf rfl]
      exact (congrArg Entry.link hfree).trans Entry.link_unused
    · rw [indices_eq, hier.tableAt_leaf rfl]
      exact (congrArg Entry.link hleaf).trans (Entry.link_eq hpresent hhuge)
    · intro q hq hne
      obtain ⟨p, i, hp, rfl⟩ := exists_concat_of_length hq
      rw [hier.tableAt_leaf hp, h.hierarchy.tableAt_leaf hp, hothers p i hp hne]
  | alreadyMapped _ _ _ hused hnone =>
    have hmapped : m.tableAt (storage.address 0) (indices page) ≠ none := by
      rw [indices_eq, h.hierarchy.tableAt_leaf rfl]
      exact fun hnone => hused ((h.hierarchy.sound_leaf page).link_eq_none_iff.mp hnone)
    exact .refused (.inl (hmem.mp hmapped)) fun hmem => h.unexhausted (hnone.mp hmem)
  | exhausted _ _ _ _ _ hneeded hnone =>
    have hlows : ∀ other ∈ insert page pages, other < 2 ^ 47 := by
      intro other hother
      cases Finset.mem_insert.mp hother with
      | inl heq => exact heq ▸ hpage
      | inr hmem => exact (h.low other hmem).2
    rw [Booted.union_tablePaths, card_biUnion_tablePaths hlows] at hneeded
    have hfresh : page ∉ pages := by
      intro hin
      rw [Finset.insert_eq_of_mem hin] at hneeded
      exact absurd h.needed_le (Nat.not_le.mpr hneeded)
    exact .exhausted hfresh hlow hneeded hnone
  | stopped _ _ hcause =>
    rcases hcause with hlive | habsent | hbig
    · exact absurd h.cold hlive
    · exact absurd hpresent habsent
    · exact absurd hbig hhuge

theorem Booted.step (hdoc : mappers.Documented storage) (h : Booted storage m pages) {page : Nat}
    (haligned : PAGE_SIZE ∣ page) (hlt : page < 2 ^ 64) {flags : PageTableFlags}
    (hpresent : present flags) (hhuge : ¬ huge flags) :
    BootStep storage pages page (outcome (mapPage mappers storage page page flags) m) := by
  have hiff := mappable_identity_iff haligned hlt
  by_cases hlow : page ≤ LOW_CANONICAL_MAX
  · exact h.step_low hdoc haligned hlow (hiff.mpr hlow) hpresent hhuge
  · obtain ⟨stop, hkind, hstop⟩ := mapPage_refused (fun h => hlow (hiff.mp h)) flags
    rw [hstop]
    exact .refused (.inr ⟨Nat.lt_of_not_le hlow, hkind⟩) h.unexhausted

/-- The pages reached on the way through a list, up to one that is mapped already or lies
above the low half. -/
def reachedPages (pages : Finset Nat) : List Nat → Finset Nat
  | [] => pages
  | page :: rest =>
    if page ∈ pages ∨ LOW_CANONICAL_MAX < page then pages
    else reachedPages (insert page pages) rest

theorem subset_reachedPages (pages : Finset Nat) (list : List Nat) :
    pages ⊆ reachedPages pages list := by
  induction list generalizing pages with
  | nil => exact Finset.Subset.refl pages
  | cons page rest ih =>
    rw [reachedPages]
    split_ifs
    · exact Finset.Subset.refl pages
    · exact (Finset.subset_insert page pages).trans (ih _)

/-- No page of the list is mapped already when its turn comes. -/
def Distinct (pages : Finset Nat) (list : List Nat) : Prop := list.Nodup ∧ ∀ page ∈ list, page ∉ pages

def Low (list : List Nat) : Prop := ∀ page ∈ list, page ≤ LOW_CANONICAL_MAX

theorem Distinct.of_cons {page : Nat} {rest : List Nat} (h : Distinct pages (page :: rest)) :
    page ∉ pages ∧ Distinct (insert page pages) rest := by
  obtain ⟨hnodup, hfresh⟩ := h
  obtain ⟨hnot, hnodup'⟩ := List.nodup_cons.mp hnodup
  refine ⟨hfresh page List.mem_cons_self, hnodup', fun other hother hin => ?_⟩
  cases Finset.mem_insert.mp hin with
  | inl heq => exact hnot (heq ▸ hother)
  | inr hin => exact hfresh other (List.mem_cons_of_mem _ hother) hin

theorem Low.of_cons {page : Nat} {rest : List Nat} (h : Low (page :: rest)) :
    page ≤ LOW_CANONICAL_MAX ∧ Low rest :=
  List.forall_mem_cons.mp h

theorem Distinct.mem_reachedPages {first : List Nat} (h : Distinct pages first) (hlow : Low first)
    (rest : List Nat) {page : Nat} (hpage : page ∈ first) :
    page ∈ reachedPages pages (first ++ rest) := by
  induction first generalizing pages with
  | nil => cases hpage
  | cons head first ih =>
    obtain ⟨hfresh, hrest⟩ := h.of_cons
    obtain ⟨hhead, hlow'⟩ := hlow.of_cons
    rw [List.cons_append, reachedPages,
      if_neg (not_or.mpr ⟨hfresh, Nat.not_lt.mpr hhead⟩)]
    cases List.mem_cons.mp hpage with
    | inl heq => exact subset_reachedPages _ _ (heq ▸ Finset.mem_insert_self head pages)
    | inr hmem => exact ih hrest hlow' hmem

inductive BootRun (storage : Storage) (pages : Finset Nat) (list : List Nat) :
    Except (Stop PagingError) Unit × AddressSpace → Prop
  | mapped {m' : AddressSpace} (booted : Booted storage m' (reachedPages pages list)) :
      BootRun storage pages list (.ok (), m')
  | refused {m' : AddressSpace} {stop : Stop PagingError}
      (why : ¬ Distinct pages list ∨ ¬ Low list ∧ stop ≠ .error .mappingFailed)
      (enough : tablesNeeded (reachedPages pages list) ≤ MAX_PAGE_TABLE_FRAMES)
      (unexhausted : none ∉ m'.reservations) : BootRun storage pages list (.error stop, m')
  | exhausted {m' : AddressSpace} {stop : Stop PagingError}
      (needed : MAX_PAGE_TABLE_FRAMES < tablesNeeded (reachedPages pages list))
      (reservations : none ∈ m'.reservations) : BootRun storage pages list (.error stop, m')

/-- A request that `map_range` can make: an aligned 64-bit page and plain flags. -/
def Plain (request : Nat × PageTableFlags) : Prop :=
  PAGE_SIZE ∣ request.1 ∧ request.1 < 2 ^ 64 ∧ present request.2 ∧ ¬ huge request.2

theorem Booted.run (hdoc : mappers.Documented storage) (h : Booted storage m pages)
    {requests : List (Nat × PageTableFlags)} (hplain : ∀ request ∈ requests, Plain request) :
    BootRun storage pages (requests.map Prod.fst) (outcome (mapAll mappers storage requests) m) := by
  induction requests generalizing m pages with
  | nil => exact .mapped h
  | cons request rest ih =>
    obtain ⟨page, flags⟩ := request
    obtain ⟨haligned, hlt, hpresent, hhuge⟩ := hplain _ List.mem_cons_self
    have hstep := h.step hdoc haligned hlt hpresent hhuge
    change BootRun storage pages (page :: rest.map Prod.fst)
      (outcome (mapAll mappers storage ((page, flags) :: rest)) m)
    rw [mapAll, outcome_bind]
    generalize outcome (mapPage mappers storage page page flags) m = result at hstep
    cases hstep with
    | @mapped m' hfresh hlow hbooted =>
      have hgo : ¬ (page ∈ pages ∨ LOW_CANONICAL_MAX < page) :=
        not_or.mpr ⟨hfresh, Nat.not_lt.mpr hlow⟩
      have hreached : reachedPages pages (page :: rest.map Prod.fst) =
          reachedPages (insert page pages) (rest.map Prod.fst) := by
        rw [reachedPages, if_neg hgo]
      have hrest := ih hbooted fun request hmem => hplain request (List.mem_cons_of_mem _ hmem)
      change BootRun storage pages (page :: rest.map Prod.fst)
        (outcome (mapAll mappers storage rest) m')
      generalize outcome (mapAll mappers storage rest) m' = result at hrest
      cases hrest with
      | mapped hbooted' => exact .mapped (hreached ▸ hbooted')
      | refused hwhy henough hnone =>
        apply BootRun.refused _ (hreached ▸ henough) hnone
        cases hwhy with
        | inl hdistinct => exact .inl fun h => hdistinct h.of_cons.2
        | inr hhigh => exact .inr ⟨fun h => hhigh.1 h.of_cons.2, hhigh.2⟩
      | exhausted hneeded hnone => exact .exhausted (hreached ▸ hneeded) hnone
    | refused hwhy hnone =>
      have hstop : page ∈ pages ∨ LOW_CANONICAL_MAX < page := hwhy.imp_right And.left
      have hreached : reachedPages pages (page :: rest.map Prod.fst) = pages := by
        rw [reachedPages, if_pos hstop]
      apply BootRun.refused _ (hreached.symm ▸ h.needed_le) hnone
      cases hwhy with
      | inl hmapped => exact .inl fun h => h.of_cons.1 hmapped
      | inr hhigh => exact .inr ⟨fun h => Nat.not_lt.mpr h.of_cons.1 hhigh.1, hhigh.2⟩
    | exhausted hfresh hlow hneeded hnone =>
      have hgo : ¬ (page ∈ pages ∨ LOW_CANONICAL_MAX < page) :=
        not_or.mpr ⟨hfresh, Nat.not_lt.mpr hlow⟩
      apply BootRun.exhausted _ hnone
      rw [reachedPages, if_neg hgo]
      exact hneeded.trans_le (tablesNeeded_mono (subset_reachedPages _ _))

end Run

/-! ### The bootstrap from the first page on -/

/-- The statics of paging.rs and the root register before `initialize`. -/
structure AddressSpace.Cold (m : AddressSpace) : Prop where
  root : m.root = none
  cr3 : m.cr3 = none
  inactive : m.pagingActive = false
  reservations : m.reservations = []

def AddressSpace.installed (m : AddressSpace) (root : Nat) : AddressSpace :=
  { m.zeroTable root with root := some ⟨root, 0⟩ }

theorem AddressSpace.tables_installed (m : AddressSpace) (root i : Nat) :
    (m.installed root).tables root i = .unused :=
  (m.tables_zeroTable root root i).trans (if_pos rfl)

theorem AddressSpace.tableAt_installed (m : AddressSpace) {root t : Nat} {q : List Nat}
    (h : (m.installed root).tableAt root q = some t) : q = [] ∧ t = root := by
  cases q with
  | nil => exact ⟨rfl, (Option.some.inj h).symm⟩
  | cons i q =>
    rw [tableAt, Radix.walk_cons, Option.bind_eq_some_iff] at h
    obtain ⟨u, hu, -⟩ := h
    obtain ⟨-, hnext⟩ := lowNext_le_next hu
    rw [next, tables_installed] at hnext
    cases hnext

theorem installRoot_outcome {m : AddressSpace} (h : m.Cold) (storage : Storage) :
    outcome (installRoot storage) m = (.ok (), m.installed (storage.address 0)) := by
  have hframe : FrameAddress.new (storage.address 0) ≠ none := by
    simp [FrameAddress.new, storage.address_aligned]
  have htranslate : m.translate (storage.address 0) = some (storage.address 0) := by
    rw [AddressSpace.translate, h.cr3]
  have hsize : ¬ PAGE_TABLE_BYTES ≠ PAGE_SIZE := by decide
  have hfirst : ¬ ((none : Option PageTableRoot).isSome = true) := by decide
  cases hnew : FrameAddress.new (storage.address 0) with
  | none => exact absurd hnew hframe
  | some frame =>
    rw [installRoot, outcome_get_bind, h.root, if_neg hfirst, if_neg hsize]
    simp only [hnew]
    rw [outcome_bind, outcome_writeTable, htranslate]
    rfl

theorem booted_installed {m : AddressSpace} (h : m.Cold) (storage : Storage) :
    Booted storage (m.installed (storage.address 0)) ∅ := by
  have hsome : ∀ {q : List Nat} {t : Nat},
      (m.installed (storage.address 0)).tableAt (storage.address 0) q = some t →
        q = [] ∧ t = storage.address 0 :=
    m.tableAt_installed
  have hunexhausted : none ∉ (m.installed (storage.address 0)).reservations := by
    simp [AddressSpace.installed, AddressSpace.zeroTable, h.reservations]
  refine ⟨?_, by simp, ?_, m.tables_installed _ _, h.cr3, h.inactive, hunexhausted⟩
  · rw [Finset.biUnion_empty]
    constructor
    · rfl
    · exact Nat.zero_le _
    · exact fun p q t _ _ hp hq => (hsome hp).1.trans (hsome hq).1.symm
    · intro q _
      constructor
      · intro hin
        exact absurd hin (Finset.notMem_empty q)
      · rintro ⟨hq, hreaches⟩
        obtain ⟨t, ht⟩ := Option.isSome_iff_exists.mp hreaches
        exact absurd (hsome ht).1 hq
    · simp
    · simp
    · intro q t i _ ht _
      rw [(hsome ht).2, m.tables_installed]
      exact Entry.sound_unused
  · intro q hq frame
    constructor
    · intro hreaches
      rw [(hsome hreaches).1] at hq
      cases hq
    · rintro ⟨hin, -⟩
      exact absurd hin (Finset.notMem_empty frame)

/-- A window that has bounds holds aligned 64-bit pages. -/
theorem page_of_bounds {start length : Nat} {bounds : Nat × Nat}
    (h : pageBounds start length = .ok bounds) {page : Nat} (hpage : page ∈ windowPages bounds) :
    PAGE_SIZE ∣ page ∧ page < 2 ^ 64 := by
  obtain ⟨-, hlast, hlt⟩ := pageBounds_ok h
  obtain ⟨haligned, -, hhi⟩ := (mem_windowPages h).mp hpage
  refine ⟨haligned, ?_⟩
  simp only [PAGE_SIZE] at *
  omega

theorem plain_of_windows {windows : List (Except PagingError (Nat × Nat) × PageTableFlags)}
    (h : ∀ window ∈ windows, (present window.2 ∧ ¬ huge window.2) ∧
      ∀ bounds, window.1 = .ok bounds → ∀ page ∈ windowPages bounds,
        PAGE_SIZE ∣ page ∧ page < 2 ^ 64) :
    ∀ request ∈ requests windows, Plain request := by
  induction windows with
  | nil => simp [requests]
  | cons window rest ih =>
    obtain ⟨bounds, flags⟩ := window
    cases bounds with
    | error e => simp [requests]
    | ok bounds =>
      obtain ⟨hflags, hpages⟩ := h _ List.mem_cons_self
      intro request hrequest
      rw [requests] at hrequest
      cases List.mem_append.mp hrequest with
      | inl hhere =>
        obtain ⟨page, hpage, rfl⟩ := List.mem_map.mp hhere
        obtain ⟨haligned, hlt⟩ := hpages bounds rfl page hpage
        exact ⟨haligned, hlt, hflags⟩
      | inr hthere =>
        exact ih (fun window hmem => h window (List.mem_cons_of_mem _ hmem)) request hthere

theorem page_of_outerBounds {range bounds : Nat × Nat} (h : outerBounds range = .ok bounds) :
    ∀ page ∈ windowPages bounds, PAGE_SIZE ∣ page ∧ page < 2 ^ 64 := by
  rw [outerBounds] at h
  cases houter : outerRange range with
  | error e =>
    rw [houter] at h
    cases h
  | ok outer =>
    rw [houter] at h
    exact fun page hpage => page_of_bounds h hpage

theorem plain_bootWindows (framebuffer kernelImage heap : Nat × Nat) (stackMarker : Nat) :
    ∀ request ∈ requests (bootWindows framebuffer kernelImage heap stackMarker),
      Plain request := by
  have hkernel : present kernelFlags ∧ ¬ huge kernelFlags := by decide
  have hdata : present dataFlags ∧ ¬ huge dataFlags := by decide
  have hdevice : present deviceFlags ∧ ¬ huge deviceFlags := by decide
  apply plain_of_windows
  intro window hwindow
  simp only [bootWindows, List.mem_cons, List.not_mem_nil, or_false] at hwindow
  rcases hwindow with rfl | rfl | rfl | rfl
  · exact ⟨hkernel, fun _ h => page_of_outerBounds h⟩
  · refine ⟨hdata, fun bounds h page hpage => ?_⟩
    by_cases hsize : heap.2 ≠ 0
    · simp only [if_pos hsize] at h
      exact page_of_bounds h hpage
    · simp only [if_neg hsize] at h
      cases h
      simp [windowPages, pagesFrom] at hpage
  · exact ⟨hdevice, fun _ h => page_of_outerBounds h⟩
  · refine ⟨hdata, fun bounds h page hpage => ?_⟩
    dsimp only at h
    exact page_of_bounds h hpage

end AgnostOS.Paging
