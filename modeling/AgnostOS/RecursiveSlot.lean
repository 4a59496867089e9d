import AgnostOS.Library.Trace
import AgnostOS.PageArena

/-! The kernel's own tables after the switch: runs of `map_page` and `unmap_page`, what
keeps the recursive slot and the other pages, and the address that reaches the slot. -/
namespace AgnostOS.Paging
open Globals AgnostOS.Frame Attempt PageTableFlags

inductive PageCall where
  | mapPage (virtualAddress physicalAddress : Nat) (flags : PageTableFlags)
  | unmapPage (virtualAddress : Nat)

namespace PageCall

def page : PageCall → Nat
  | .mapPage virtualAddress _ _ => virtualAddress
  | .unmapPage virtualAddress => virtualAddress

def perform (mappers : Mappers) (storage : Storage) : PageCall → Kernel PagingError Unit
  | .mapPage virtualAddress physicalAddress flags =>
    Paging.mapPage mappers storage virtualAddress physicalAddress flags
  | .unmapPage virtualAddress => do
    let _ ← Paging.unmapPage mappers virtualAddress
    pure ()

/-- The address stays out of the recursive slot, and a page of the arena that is not
mapped is mapped to its own frame only. -/
def Safe (storage : Storage) (m : AddressSpace) : PageCall → Prop
  | .mapPage virtualAddress physicalAddress _ =>
    p4Index virtualAddress ≠ RECURSIVE_INDEX ∧
      ∀ k ≤ MAX_PAGE_TABLE_FRAMES, virtualAddress = storage.address k →
        m.translate virtualAddress = none → physicalAddress = virtualAddress
  | .unmapPage virtualAddress => p4Index virtualAddress ≠ RECURSIVE_INDEX

end PageCall

def Answered {α : Type} : Except (Stop PagingError) α → Prop
  | .ok _ => True
  | .error stop => stop.returned

/-- One safe call that comes back. -/
def Move (mappers : Mappers) (storage : Storage) (call : PageCall) (m m' : AddressSpace) : Prop :=
  call.Safe storage m ∧
    ∃ result, outcome (call.perform mappers storage) m = (result, m') ∧ Answered result

theorem IsPage.eq_of_indices {a b : Nat} (ha : IsPage a) (hb : IsPage b)
    (h : indices a = indices b) : a = b := by
  obtain ⟨haligned, hcanonical, hlt⟩ := ha
  obtain ⟨haligned', hcanonical', hlt'⟩ := hb
  simp only [indices, p4Index, p3Index, p2Index, p1Index, List.cons.injEq, and_true, PAGE_SIZE,
    isCanonical, LOW_CANONICAL_MAX, HIGH_CANONICAL_MIN] at *
  omega

theorem isPage_address (storage : Storage) {k : Nat} (hk : k ≤ MAX_PAGE_TABLE_FRAMES) :
    IsPage (storage.address k) := by
  have hlt := storage.address_lt hk
  refine ⟨storage.address_aligned k, .inl ?_, by omega⟩
  simp only [LOW_CANONICAL_MAX]
  omega

/-! ### The state between two calls -/

/-- The kernel runs on its own tables and the recursive slot is intact. -/
structure Live (storage : Storage) (m : AddressSpace) : Prop where
  hierarchy : ∃ paths, Hierarchy storage 2 m paths
  slot : m.tables (storage.address 0) RECURSIVE_INDEX = ⟨storage.address 0, kernelFlags⟩
  cr3 : m.cr3 = some (storage.address 0)
  active : m.pagingActive = true
  identity : m.ArenaIdentity storage

def belowSlot (path : List Nat) : List Nat := path.dropWhile fun i => i = RECURSIVE_INDEX

theorem length_belowSlot_le (path : List Nat) : (belowSlot path).length ≤ path.length :=
  (List.dropWhile_sublist _).length_le

namespace Live
variable {storage : Storage} {m : AddressSpace}

theorem next_slot (h : Live storage m) :
    m.next (storage.address 0) RECURSIVE_INDEX = some (storage.address 0) := by
  rw [AddressSpace.next, h.slot]
  exact Entry.link_eq kernelFlags_plain.1 kernelFlags_plain.2

theorem walk_eq (h : Live storage m) {path : List Nat} (hlen : path.length ≤ 4) :
    Radix.walk m.next (storage.address 0) path =
      m.tableAt (storage.address 0) (belowSlot path) := by
  obtain ⟨paths, hier⟩ := h.hierarchy
  induction path with
  | nil => rfl
  | cons i path ih =>
    by_cases hi : i = RECURSIVE_INDEX
    · have hdrop : belowSlot (i :: path) = belowSlot path := by simp [belowSlot, hi]
      rw [Radix.walk_cons, hdrop, hi, h.next_slot, Option.bind_some]
      exact ih ((Nat.le_succ _).trans hlen)
    · have hkeep : belowSlot (i :: path) = i :: path := by simp [belowSlot, hi]
      rw [hkeep]
      apply hier.walk_eq_tableAt hlen
      intro hstart
      exact hi (List.cons_prefix_cons.mp hstart).1.symm

theorem translate_eq (h : Live storage m) (page : Nat) :
    m.translate page = m.tableAt (storage.address 0) (belowSlot (indices page)) := by
  rw [AddressSpace.translate, h.cr3]
  have hlen : (indices page).length ≤ 4 := by simp [indices]
  exact h.walk_eq hlen

theorem translate_of_low (h : Live storage m) {page : Nat} (hpage : p4Index page ≠ RECURSIVE_INDEX) :
    m.translate page = m.tableAt (storage.address 0) (indices page) := by
  have hkeep : belowSlot (indices page) = indices page := by simp [belowSlot, indices, hpage]
  rw [h.translate_eq, hkeep]

theorem ready (h : Live storage m) : Ready storage m := ⟨.inr h.cr3, h.identity⟩

theorem recursive (h : Live storage m) : m.Recursive storage (storage.address 0) where
  live := h.cr3
  slot := h.next_slot
  identity k hk frame hframe := by
    apply h.identity k hk frame
    rw [AddressSpace.translate, h.cr3]
    exact hframe

end Live

inductive CallOutcome (storage : Storage) (m : AddressSpace) (page : Nat) {α : Type} :
    Except (Stop PagingError) α × AddressSpace → Prop
  | answered {result : Except (Stop PagingError) α} {m' : AddressSpace} (live : Live storage m')
      (kept : ∀ other, IsPage other → other ≠ page → ∀ frame,
        m.translate other = some frame → m'.translate other = some frame) :
      CallOutcome storage m page (result, m')
  | stopped {stop : Stop PagingError} {m' : AddressSpace} (hstop : ¬ stop.returned)
      (slot : m'.tables (storage.address 0) RECURSIVE_INDEX = ⟨storage.address 0, kernelFlags⟩) :
      CallOutcome storage m page (.error stop, m')

theorem CallOutcome.same {storage : Storage} {m : AddressSpace} {page : Nat} {α : Type}
    (h : Live storage m) (result : Except (Stop PagingError) α) :
    CallOutcome storage m page (result, m) :=
  .answered h fun _ _ _ _ hframe => hframe

section Step
variable {mappers : Mappers} {storage : Storage} {m : AddressSpace}

/-- What a mapping that came back leaves: a live state where nothing mapped has moved. -/
theorem Live.of_grown (h : Live storage m) {m' : AddressSpace} {paths : Finset (List Nat)}
    (hier : Hierarchy storage 2 m' paths) (hgrown : Grown storage m m')
    (hidentity : m'.ArenaIdentity storage) :
    Live storage m' ∧ ∀ page frame, m.translate page = some frame →
      m'.translate page = some frame := by
  have hlive : Live storage m' :=
    ⟨⟨paths, hier⟩, hgrown.slot.trans h.slot, hgrown.cr3.trans h.cr3,
      hgrown.pagingActive.trans h.active, hidentity⟩
  refine ⟨hlive, fun page frame hframe => ?_⟩
  rw [h.translate_eq] at hframe
  rw [hlive.translate_eq]
  exact hgrown.kept _ _ ((length_belowSlot_le _).trans (by simp [indices])) hframe

theorem Live.mapPage (hdoc : mappers.Documented storage) (h : Live storage m) {page frame : Nat}
    {flags : PageTableFlags} (hsafe : (PageCall.mapPage page frame flags).Safe storage m) :
    CallOutcome storage m page (outcome (Paging.mapPage mappers storage page frame flags) m) := by
  obtain ⟨hlow, harena⟩ := hsafe
  obtain ⟨paths, hier⟩ := h.hierarchy
  by_cases hmappable : Mappable page frame
  · have hdepth : 2 = 2 ∨ 2 = 3 ∧ present flags := .inl rfl
    have hwalk := walkMapTo_outcome hier h.ready followRecursive_follows frame hlow hdepth
    rw [mapPage_live hdoc hier.rooted h.recursive h.active hmappable]
    generalize outcome (walkMapTo followRecursive (storage.address 0) page frame flags
      (reserveFrame storage)) m = result at hwalk
    cases hwalk with
    | @mapped m' hier' hgrown hfree hleaf hothers _ =>
      have hidentity : m'.ArenaIdentity storage := by
        intro k hk f hf
        have hslot := p4Index_address storage hk
        rw [AddressSpace.translate_of_live (hgrown.cr3.trans h.cr3),
          hier'.translateFrom_eq hslot] at hf
        by_cases hsame : indices (storage.address k) = indices page
        · have heq := (isPage_address storage hk).eq_of_indices hmappable.toIsPage hsame
          have hnone : m.translate page = none := by
            rw [h.translate_of_low hlow, indices_eq, hier.tableAt_leaf rfl]
            exact (congrArg Entry.link hfree).trans Entry.link_unused
          rw [hsame, indices_eq, hier'.tableAt_leaf rfl] at hf
          have hlink := (congrArg Entry.link hleaf).symm.trans hf
          rw [Entry.link] at hlink
          split_ifs at hlink
          cases hlink
          exact (harena k hk heq.symm hnone).trans heq.symm
        · rw [indices_eq, hier'.tableAt_leaf rfl, hothers _ _ rfl hsame, ← hier.tableAt_leaf rfl,
            ← indices_eq, ← h.translate_of_low hslot] at hf
          exact h.identity k hk f hf
      obtain ⟨hlive, hkept⟩ := h.of_grown hier' hgrown hidentity
      exact .answered hlive fun other _ _ f hf => hkept other f hf
    | alreadyMapped hier' hgrown hleaves _ _ =>
      have hready := h.ready.of_leaves hier hier' hgrown.cr3 fun k _ =>
        hier.tableAt_of_sameLeaves hier' hleaves rfl
      obtain ⟨hlive, hkept⟩ := h.of_grown hier' hgrown hready.identity
      exact .answered hlive fun other _ _ f hf => hkept other f hf
    | exhausted hier' hgrown hleaves _ _ _ _ =>
      have hready := h.ready.of_leaves hier hier' hgrown.cr3 fun k _ =>
        hier.tableAt_of_sameLeaves hier' hleaves rfl
      obtain ⟨hlive, hkept⟩ := h.of_grown hier' hgrown hready.identity
      exact .answered hlive fun other _ _ f hf => hkept other f hf
    | stopped hstop hslot _ =>
      exact .stopped (fun hreturned => hstop ((returned_map _ _).mp hreturned)) (hslot.trans h.slot)
  · obtain ⟨stop, -, hstop⟩ := mapPage_refused hmappable flags
    rw [hstop]
    exact CallOutcome.same h _

theorem Live.unmapPage (hdoc : mappers.Documented storage) (h : Live storage m) {page : Nat}
    (hlow : p4Index page ≠ RECURSIVE_INDEX) :
    CallOutcome storage m page (outcome (Paging.unmapPage mappers page) m) := by
  obtain ⟨paths, hier⟩ := h.hierarchy
  by_cases hpage : IsPage page
  · have hwalk := walkUnmap_outcome hier hlow
    rw [unmapPage_live hdoc hier.rooted h.recursive h.active hpage]
    generalize outcome (walkUnmap (storage.address 0) page) m = result at hwalk
    cases hwalk with
    | refused e => exact CallOutcome.same h _
    | @unmapped m' frame hier' hslot hcr3 hactive hcleared hothers _ =>
      have hgone : ∀ other, IsPage other → other ≠ page → indices other ≠ indices page :=
        fun other hother hne hsame => hne (hother.eq_of_indices hpage hsame)
      have hidentity : m'.ArenaIdentity storage := by
        intro k hk f hf
        have hlowk := p4Index_address storage hk
        rw [AddressSpace.translate_of_live (hcr3.trans h.cr3), hier'.translateFrom_eq hlowk] at hf
        by_cases hsame : indices (storage.address k) = indices page
        · rw [hsame, indices_eq, hier'.tableAt_leaf rfl] at hf
          cases (congrArg Entry.link hcleared).symm.trans hf
        · rw [hothers _ (by simp [indices]) hsame, ← h.translate_of_low hlowk] at hf
          exact h.identity k hk f hf
      have hlive : Live storage m' := ⟨⟨paths, hier'⟩, hslot.trans h.slot, hcr3.trans h.cr3,
        hactive.trans h.active, hidentity⟩
      refine .answered hlive fun other hother hne f hf => ?_
      rw [h.translate_eq] at hf
      rw [hlive.translate_eq, hothers _ ((length_belowSlot_le _).trans (by simp [indices])), hf]
      intro hsame
      -- a path as long as a page's has made no turn through the slot
      have hlen : (belowSlot (indices other)).length = (indices other).length := by
        rw [hsame]
        rfl
      have hfull : belowSlot (indices other) = indices other :=
        (List.dropWhile_sublist _).eq_of_length hlen
      exact hgone other hother hne (hfull.symm.trans hsame)
  · obtain ⟨e, he⟩ := unmapPage_refused hpage
    rw [he]
    exact CallOutcome.same h _

theorem Live.perform (hdoc : mappers.Documented storage) (h : Live storage m) {call : PageCall}
    (hsafe : call.Safe storage m) :
    CallOutcome storage m call.page (outcome (call.perform mappers storage) m) := by
  cases call with
  | mapPage page frame flags => exact h.mapPage hdoc hsafe
  | unmapPage page =>
    have hunmap := h.unmapPage hdoc hsafe
    rw [PageCall.perform, outcome_bind]
    generalize outcome (Paging.unmapPage mappers page) m = result at hunmap
    cases hunmap with
    | @answered result m' hlive hkept => cases result <;> exact .answered hlive hkept
    | stopped hstop hslot => exact .stopped hstop hslot

theorem Live.move (hdoc : mappers.Documented storage) (call : PageCall) (m m' : AddressSpace)
    (h : Live storage m) (hmove : Move mappers storage call m m') : Live storage m' := by
  obtain ⟨hsafe, result, hresult, hanswered⟩ := hmove
  have hcall := h.perform hdoc hsafe
  rw [hresult] at hcall
  cases hcall with
  | answered hlive _ => exact hlive
  | stopped hstop _ => exact absurd hanswered hstop

end Step

/-! ### From the bootstrap on -/

section Runs
variable {mappers : Mappers} {storage : Storage} {m₀ m₁ m : AddressSpace}

end Runs

/-! ### The small boot -/

end AgnostOS.Paging
