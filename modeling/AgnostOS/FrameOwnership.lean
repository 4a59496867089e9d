import AgnostOS.FrameRuns
import AgnostOS.UsableMemory
import AgnostOS.Library.Ledger

/-! Ownership of frames over every run on an ascending memory map: each managed page
is in exactly one free run or with a caller. -/
namespace AgnostOS.Frame
open Globals Word Memory

/-! ### The invariant of ascending maps -/

theorem UsableMap.grounded {ranges : List MemoryRange} (h : UsableMap ranges) :
    Grounded (usableRuns ranges) (boot ranges) :=
  boot_grounded h.length_le h.sound h.start_dvd

structure Orderly (runs : List FreeRange) (t : Tracked) : Prop extends Grounded runs t where
  ordered : Span.Ordered (spansOf t.allocator.ranges.entries)
  balanced : Ledger.Balanced (pagesOf runs) ⟨t.allocator.freePages, t.allocated⟩
  totalFrames : t.allocator.totalFrames = frameSum runs

theorem UsableMap.orderly {ranges : List MemoryRange} (h : UsableMap ranges)
    (hasc : Ascending ranges) : Orderly (usableRuns ranges) (boot ranges) := by
  have hload := new_loaded h.length_le h.sound
  refine ⟨h.grounded, ?_, ?_, hload.totalFrames⟩
  · rw [boot, hload.ranges]
    exact h.ordered hasc
  · rw [Ledger.Balanced, boot, FrameAllocator.freePages, hload.ranges, List.append_nil]

section Neighbours
variable {a : FrameAllocator} {address : Nat}

/-- On an ascending free list the two neighbours decide whether a frame is free. -/
theorem neighbourHolds_iff (h : Gridded a) (ho : Span.Ordered (spansOf a.ranges.entries))
    (hd : PAGE_SIZE ∣ address) :
    NeighbourHolds address a.ranges.entries ↔ address ∈ a.freePages := by
  have hlast : ∀ l : List FreeRange, (∃ s ∈ (spansOf l).getLast?, address < s.hi) ↔
      ∃ p ∈ l.getLast?, address < p.stop := by
    intro l
    simp [spansOf, List.getLast?_map, FreeRange.span]
  have hhead : ∀ l : List FreeRange, (∃ s ∈ (spansOf l).head?, s.lo = address) ↔
      ∃ n ∈ l.head?, n.start = address := by
    intro l
    simp [spansOf, List.head?_map, FreeRange.span]
  rw [FrameAllocator.freePages, mem_pagesOf_iff h.aligned,
    Span.covers_iff_neighbours ho (spansOf_proper h.sound), ← spansOf_lower, ← spansOf_upper,
    hlast, hhead, NeighbourHolds]
  exact (and_iff_right hd).symm

/-- A frame whose address is not free meets no free run at all. -/
theorem not_covers_of_not_free (h : Gridded a) (hd : PAGE_SIZE ∣ address)
    (hfree : address ∉ a.freePages) {x : Nat}
    (hx : (⟨address, address + PAGE_SIZE⟩ : Span Nat).Contains x) :
    ¬ Span.Covers (spansOf a.ranges.entries) x := by
  rintro ⟨_, hs, hlo, hhi⟩
  obtain ⟨r, hr, rfl⟩ := List.mem_map.mp hs
  have hstart := h.aligned r hr
  refine hfree ((mem_pagesOf_iff h.aligned).mpr ⟨hd, r.span, hs, ?_, ?_⟩)
  · simp only [FreeRange.span, Span.Contains, PAGE_SIZE] at *
    omega
  · simp only [FreeRange.span, FreeRange.stop, Span.Contains, PAGE_SIZE] at *
    omega

end Neighbours

theorem page_proper (address : Nat) : address < address + PAGE_SIZE :=
  Nat.lt_add_of_pos_right (by decide)

/-- A frame that passes the checks of `release` on an orderly free list is a caller's. -/
theorem Orderly.allocated_of_admitted {runs : List FreeRange} {t : Tracked} (h : Orderly runs t)
    {address : Nat} (hadm : Admitted t.allocator address) :
    address ∉ t.allocator.freePages ∧ address ∈ t.allocated := by
  have hfree : address ∉ t.allocator.freePages :=
    mt (neighbourHolds_iff h.gridded h.ordered hadm.aligned).mpr hadm.free
  have hstock : address ∈ pagesOf runs := h.managed ▸ hadm.managed
  exact ⟨hfree, (h.balanced.mem_or.mp hstock).resolve_left hfree⟩

theorem Orderly.fits {runs : List FreeRange} {t : Tracked} (h : Orderly runs t) {address : Nat}
    (hadm : Admitted t.allocator address) :
    Span.Fits ⟨address, address + PAGE_SIZE⟩ (spansOf t.allocator.ranges.entries) :=
  Span.fits_of_disjoint h.ordered (spansOf_proper h.gridded.sound) (page_proper address)
    fun _ hx => not_covers_of_not_free h.gridded hadm.aligned (h.allocated_of_admitted hadm).1 hx

theorem Outcome.ledger {runs : List FreeRange} {t t' : Tracked} {c : Call} (ho : Outcome t c t')
    (h : Orderly runs t) :
    Ledger.Step ⟨t.allocator.freePages, t.allocated⟩ ⟨t'.allocator.freePages, t'.allocated⟩ := by
  cases ho with
  | refused _ _ => exact .refuse _
  | granted hcarved _ _ _ => exact .grant _ hcarved.pages_perm
  | returned _ hadm hmerged =>
    refine .reclaim _ (h.allocated_of_admitted hadm).2 ?_
    rw [FrameAllocator.freePages, hmerged.after]
    exact pagesOf_restored _ _

theorem Outcome.ordered {runs : List FreeRange} {t t' : Tracked} {c : Call} (ho : Outcome t c t')
    (h : Orderly runs t) : Span.Ordered (spansOf t'.allocator.ranges.entries) := by
  cases ho with
  | refused _ _ => exact h.ordered
  | granted hcarved _ _ _ =>
    exact hcarved.ordered h.ordered (h.gridded.sound _ (by simp [hcarved.before]))
  | @returned address a' _ hadm hmerged =>
    rw [hmerged.after, spansOf_restored]
    exact (h.fits hadm).insert_ordered

theorem Outcome.orderly {runs : List FreeRange} {t t' : Tracked} {c : Call} (ho : Outcome t c t')
    (h : Orderly runs t) : Orderly runs t' where
  toGrounded := ho.grounded h.toGrounded
  ordered := ho.ordered h
  balanced := (ho.ledger h).balanced h.balanced
  totalFrames := by
    cases ho with
    | refused _ _ => exact h.totalFrames
    | granted hcarved _ _ _ => exact hcarved.totalFrames.trans h.totalFrames
    | returned _ _ hmerged => exact hmerged.totalFrames.trans h.totalFrames

theorem Orderly.run {runs : List FreeRange} {t : Tracked} (h : Orderly runs t)
    (calls : List Call) : Orderly runs (Machine.run Tracked.step t calls) :=
  Machine.run_invariant (fun _ c hs => (outcome hs.gridded c).orderly hs) h calls

/-! ### Where a page is -/

def FrameAllocator.Holds (self : FrameAllocator) (i page : Nat) : Prop :=
  i < self.ranges.count ∧ page ∈ (self.ranges.slots i).pages

theorem exists_holds_iff {a : FrameAllocator} {page : Nat} :
    (∃ i, a.Holds i page) ↔ page ∈ a.freePages := by
  simp [FrameAllocator.Holds, FrameAllocator.freePages, pagesOf, Table.entries]

theorem holds_unique {a : FrameAllocator} (hn : a.freePages.Nodup) {i j page : Nat}
    (hi : a.Holds i page) (hj : a.Holds j page) : i = j := by
  have hpairs := List.pairwise_iff_getElem.mp (List.nodup_flatMap.mp hn).2
  have hapart : ∀ {k m}, a.Holds k page → a.Holds m page → ¬ k < m := by
    intro k m hk hm hlt
    refine hpairs k m (by simpa using hk.1) (by simpa using hm.1) hlt (a := page) ?_ ?_
    · simpa using hk.2
    · simpa using hm.2
  rcases lt_trichotomy i j with hlt | heq | hgt
  · exact (hapart hi hj hlt).elim
  · exact heq
  · exact (hapart hj hi hgt).elim

theorem Reply.granted_of_failed {reply : Reply} (h : reply.failed) : reply.granted = [] := by
  rcases reply with (_ | _) | (_ | _) | (_ | _)
  all_goals first | rfl | simp [Reply.failed] at h

theorem Outcome.granted_free {t t' : Tracked} {c : Call} (ho : Outcome t c t') :
    ((t.allocator.call c).1.granted).Nodup ∧
      ∀ page ∈ (t.allocator.call c).1.granted, page ∈ t.allocator.freePages := by
  cases ho with
  | refused hfailed _ => simp [Reply.granted_of_failed hfailed]
  | granted hcarved _ hreply _ =>
    rw [hreply]
    refine ⟨pagesFrom_nodup _ _, fun page hpage => ?_⟩
    exact hcarved.pages_perm.mem_iff.mpr (List.mem_append_left _ hpage)
  | returned hcall _ hmerged =>
    subst hcall
    simp [FrameAllocator.call, hmerged.result, Reply.granted]

theorem Outcome.same_of_failed {t t' : Tracked} {c : Call} (ho : Outcome t c t')
    (hfailed : (t.allocator.call c).1.failed) : (t.allocator.call c).2 = t.allocator := by
  cases ho with
  | refused _ hsame => exact hsame
  | granted _ hpos hreply _ =>
    have hlen := congrArg List.length hreply
    rw [Reply.granted_of_failed hfailed, length_pagesFrom] at hlen
    exact (hpos.ne hlen).elim
  | returned hcall _ hmerged =>
    subst hcall
    simp [FrameAllocator.call, hmerged.result, Reply.failed] at hfailed

/-! ### Ownership -/

/-- The pages of the usable ranges, those that lie inside as a whole. -/
def usablePages (ranges : List MemoryRange) : List Nat :=
  (ranges.filter fun r => r.kind = .usable).flatMap fun r =>
    pagesFrom r.start (r.length / PAGE_SIZE)

theorem usablePages_eq (ranges : List MemoryRange) :
    usablePages ranges = pagesOf (usableRuns ranges) := by
  induction ranges with
  | nil => rfl
  | cons r rest ih =>
    simp only [usablePages, usableRuns, List.filterMap_cons, usableRun] at ih ⊢
    by_cases hkind : r.kind = .usable
    · by_cases hframes : r.length / PAGE_SIZE = 0
      · have hnone : pagesFrom r.start 0 = [] := rfl
        simp [hkind, hframes, ih, hnone]
      · simp [hkind, hframes, ih, FreeRange.pages]
    · simp [hkind, ih]

structure Owned (stock : List Nat) (t : Tracked) : Prop where
  placed : ∀ page ∈ stock, ((∃! i, t.allocator.Holds i page) ∧ page ∉ t.allocated) ∨
    ((¬ ∃ i, t.allocator.Holds i page) ∧ page ∈ t.allocated)
  inStock : ∀ page, (∃ i, t.allocator.Holds i page) ∨ page ∈ t.allocated → page ∈ stock
  fresh : ∀ c, ((t.allocator.call c).1.granted).Nodup ∧
    ∀ page ∈ (t.allocator.call c).1.granted, page ∈ stock ∧ page ∉ t.allocated
  freeFrames : t.allocator.freeFrames = (stock.filter (· ∉ t.allocated)).length
  freeFrames_le : t.allocator.freeFrames ≤ t.allocator.totalFrames
  releasesAllocated : ∀ page, (t.allocator.release ⟨page⟩).1 = .ok () → page ∈ t.allocated
  allocatedReleases : ∀ page ∈ t.allocated, (t.allocator.release ⟨page⟩).1 = .ok () ∨
    (t.allocator.release ⟨page⟩).1 = .error .freeRangeStorageFull
  allocateFails : ∀ e, t.allocator.allocate.1 = .error e → ∀ page, ¬ ∃ i, t.allocator.Holds i page
  allocateContiguousFails : ∀ n e, (t.allocator.allocateContiguous n).1 = .error e →
    n = 0 ∨ ∀ i < t.allocator.ranges.count, (t.allocator.ranges.slots i).frames < n
  refusalsKeep : ∀ c, (t.allocator.call c).1.failed → (t.allocator.call c).2 = t.allocator

section Orderly
variable {runs : List FreeRange} {t : Tracked}

theorem Orderly.free_iff (h : Orderly runs t) (hn : (pagesOf runs).Nodup) {page : Nat}
    (hpage : page ∈ pagesOf runs) : page ∈ t.allocator.freePages ↔ page ∉ t.allocated :=
  ⟨h.balanced.not_held hn, fun hheld => (h.balanced.mem_or.mp hpage).resolve_right hheld⟩

theorem Orderly.placed (h : Orderly runs t) (hn : (pagesOf runs).Nodup) {page : Nat}
    (hpage : page ∈ pagesOf runs) :
    ((∃! i, t.allocator.Holds i page) ∧ page ∉ t.allocated) ∨
      ((¬ ∃ i, t.allocator.Holds i page) ∧ page ∈ t.allocated) := by
  by_cases hfree : page ∈ t.allocator.freePages
  · obtain ⟨i, hi⟩ := exists_holds_iff.mpr hfree
    have hunique := fun j (hj : t.allocator.Holds j page) =>
      holds_unique (h.balanced.free_nodup hn) hj hi
    exact .inl ⟨⟨i, hi, hunique⟩, h.balanced.not_held hn hfree⟩
  · have hheld := (h.balanced.mem_or.mp hpage).resolve_left hfree
    exact .inr ⟨mt exists_holds_iff.mp hfree, hheld⟩

theorem Orderly.freeFrames_eq (h : Orderly runs t) (hn : (pagesOf runs).Nodup) :
    t.allocator.freeFrames = ((pagesOf runs).filter (· ∉ t.allocated)).length := by
  have hperm : ((pagesOf runs).filter (· ∉ t.allocated)).Perm t.allocator.freePages := by
    refine (List.perm_ext_iff_of_nodup (hn.filter _) (h.balanced.free_nodup hn)).mpr fun page => ?_
    rw [List.mem_filter, decide_eq_true_eq]
    constructor
    · rintro ⟨hpage, hheld⟩
      exact (h.free_iff hn hpage).mpr hheld
    · intro hfree
      exact ⟨h.balanced.mem_or.mpr (.inl hfree), h.balanced.not_held hn hfree⟩
  rw [h.gridded.counted, ← length_pagesOf, hperm.length_eq, FrameAllocator.freePages]

theorem Orderly.freeFrames_le (h : Orderly runs t) :
    t.allocator.freeFrames ≤ t.allocator.totalFrames := by
  have hle := h.balanced.free_length_le
  rwa [FrameAllocator.freePages, length_pagesOf, length_pagesOf, ← h.gridded.counted,
    ← h.totalFrames] at hle

theorem Orderly.releases_allocated (h : Orderly runs t) {page : Nat}
    (hok : (t.allocator.release ⟨page⟩).1 = .ok ()) : page ∈ t.allocated := by
  rcases release_cases h.gridded page with ⟨-, hcall⟩ | ⟨-, -, hcall⟩ | ⟨-, -, hcall⟩ | ⟨hadm, -⟩
  · simp [hcall] at hok
  · simp [hcall] at hok
  · simp [hcall] at hok
  · exact (h.allocated_of_admitted hadm).2

/-- A page with a caller passes every check of `release`. -/
theorem Orderly.admitted (h : Orderly runs t) (hn : (pagesOf runs).Nodup) {page : Nat}
    (hheld : page ∈ t.allocated) : Admitted t.allocator page := by
  have hstock : page ∈ t.allocator.managedPages := by
    rw [FrameAllocator.managedPages, h.managed]
    exact h.balanced.mem_or.mpr (.inr hheld)
  have hd := ((mem_pagesOf_iff h.gridded.managedAligned).mp hstock).1
  refine ⟨hd, hstock, fun hneighbour => ?_⟩
  have hfree := (neighbourHolds_iff h.gridded h.ordered hd).mp hneighbour
  exact h.balanced.not_held hn hfree hheld

theorem Orderly.allocated_releases (h : Orderly runs t) (hn : (pagesOf runs).Nodup) {page : Nat}
    (hheld : page ∈ t.allocated) : (t.allocator.release ⟨page⟩).1 = .ok () ∨
      (t.allocator.release ⟨page⟩).1 = .error .freeRangeStorageFull := by
  have hadm := h.admitted hn hheld
  rcases release_cases h.gridded page with
    ⟨hnot, -⟩ | ⟨-, hneighbour, -⟩ | ⟨-, -, hcall⟩ | ⟨-, a', hmerged⟩
  · exact (hnot ⟨hadm.aligned, hadm.managed⟩).elim
  · exact (hadm.free hneighbour).elim
  · exact .inr (by rw [hcall])
  · exact .inl (by rw [hmerged.result])

theorem Orderly.owned (h : Orderly runs t) (hn : (pagesOf runs).Nodup) :
    Owned (pagesOf runs) t where
  placed := fun page hpage => h.placed hn hpage
  inStock := fun page hpage => h.balanced.mem_or.mpr (hpage.imp exists_holds_iff.mp id)
  fresh := by
    intro c
    obtain ⟨hnodup, hfree⟩ := (outcome h.gridded c).granted_free
    exact ⟨hnodup, fun page hpage =>
      ⟨h.balanced.mem_or.mpr (.inl (hfree page hpage)), h.balanced.not_held hn (hfree page hpage)⟩⟩
  freeFrames := h.freeFrames_eq hn
  freeFrames_le := h.freeFrames_le
  releasesAllocated := fun _ hok => h.releases_allocated hok
  allocatedReleases := fun _ hheld => h.allocated_releases hn hheld
  allocateFails := by
    intro e hfail page hholds
    rcases allocate_cases h.gridded.toRegular with ⟨hempty, -⟩ | ⟨r, right, a', hcall, -⟩
    · have hfree := exists_holds_iff.mp hholds
      simp [FrameAllocator.freePages, hempty] at hfree
    · simp [hcall] at hfail
  allocateContiguousFails := by
    intro n e hfail
    rcases allocateContiguous_cases h.gridded.toRegular n with
      ⟨hcause, -⟩ | ⟨left, r, right, a', -, -, hcall, -⟩
    · exact hcause.imp id fun hsmall i hi => hsmall _ (Table.slots_mem_entries hi)
    · simp [hcall] at hfail
  refusalsKeep := fun c hfailed => (outcome h.gridded c).same_of_failed hfailed

end Orderly

/-- Over every run each usable page is in one free run or with a caller; grants are
fresh, releases take back what is held, and refusals change nothing. -/
theorem owned_of_ascending {ranges : List MemoryRange} (hmap : UsableMap ranges)
    (hasc : Ascending ranges) (calls : List Call) :
    Owned (usablePages ranges) (runCalls ranges calls) := by
  rw [usablePages_eq]
  exact ((hmap.orderly hasc).run calls).owned hmap.pages_nodup

def splitMap : List MemoryRange :=
  [⟨0x1000, 0x3000, .conventional, .usable⟩, ⟨0x4000, 0x1000, .reserved, .reserved⟩,
    ⟨0x5000, 0x2000, .conventional, .usable⟩]

theorem splitMap_usable : UsableMap splitMap where
  length_le := by decide
  aligned := by decide
  bounded := by decide
  disjoint := by
    refine List.pairwise_pair.mpr fun address ⟨hfirst, hlast⟩ => ?_
    simp [MemoryRange.contains, MemoryRange.end, saturatingAdd] at hfirst hlast
    omega

theorem owned_of_split_map :
    UsableMap splitMap ∧ Ascending splitMap ∧
      Owned (usablePages splitMap) (runCalls splitMap
        [.allocate, .allocateContiguous 2, .release 0x1000, .allocateContiguous 9]) :=
  ⟨splitMap_usable, by decide, owned_of_ascending splitMap_usable (by decide) _⟩

/-! ### Double release -/

structure Exclusive (t : Tracked) : Prop where
  rejects : ∀ page, (∃ i, t.allocator.Holds i page) →
    t.allocator.release ⟨page⟩ = (.error .invalidAddress, t.allocator)
  listedOnce : ∀ i j page, t.allocator.Holds i page → t.allocator.Holds j page → i = j
  fresh : ∀ c, ((t.allocator.call c).1.granted).Nodup ∧
    ∀ page ∈ (t.allocator.call c).1.granted, page ∉ t.allocated

theorem Orderly.exclusive {runs : List FreeRange} {t : Tracked} (h : Orderly runs t)
    (hn : (pagesOf runs).Nodup) : Exclusive t where
  rejects := by
    intro page hholds
    have hfree := exists_holds_iff.mp hholds
    have hd := ((mem_pagesOf_iff h.gridded.aligned).mp hfree).1
    rcases release_cases h.gridded page with
      ⟨-, hcall⟩ | ⟨-, -, hcall⟩ | ⟨hadm, -⟩ | ⟨hadm, -⟩
    · exact hcall
    · exact hcall
    · exact ((h.allocated_of_admitted hadm).1 hfree).elim
    · exact ((h.allocated_of_admitted hadm).1 hfree).elim
  listedOnce := fun _ _ _ hi hj => holds_unique (h.balanced.free_nodup hn) hi hj
  fresh := fun c => ⟨((h.owned hn).fresh c).1, fun page hpage => (((h.owned hn).fresh c).2 page hpage).2⟩

/-- A run listed after a higher one is hidden from the neighbour test: the scan stops
before it, among runs that do not meet it. -/
theorem not_neighbourHolds_of_descent {left right : List FreeRange} {r s : FreeRange}
    (hr : r ∈ left) (hdescent : s.start < r.start) (hs : ∀ q ∈ left ++ s :: right, q.Sound)
    (hdisjoint : ∀ q ∈ left, ∀ x, ¬ (q.span.Contains x ∧ s.span.Contains x)) :
    ¬ NeighbourHolds s.start (left ++ s :: right) := by
  have hself : s.span.Contains s.start := by
    have hpos := (hs s (by simp)).1
    simp only [Span.Contains, FreeRange.span, FreeRange.stop, PAGE_SIZE]
    omega
  have hstops : (lower s.start left).length ≠ left.length := fun hall => by
    have hsame : lower s.start left = left := (List.takeWhile_sublist _).eq_of_length hall
    have hlt : r.start < s.start := lower_start_lt (hsame.symm ▸ hr)
    omega
  have hlower : lower s.start (left ++ s :: right) = lower s.start left := by
    simp only [lower] at hstops ⊢
    rw [List.takeWhile_append, if_neg hstops]
  have hupper : upper s.start (left ++ s :: right) = upper s.start left ++ s :: right := by
    have hsame : lower s.start left ++ upper s.start (left ++ s :: right) =
        lower s.start left ++ (upper s.start left ++ s :: right) := by
      rw [← List.append_assoc, lower_append_upper, ← hlower, lower_append_upper]
    exact List.append_cancel_left hsame
  rintro (⟨p, hp, hlt⟩ | ⟨n, hn, hstart⟩)
  · rw [hlower] at hp
    have hmem := List.mem_of_getLast? (Option.mem_def.mp hp)
    have hleft : p ∈ left := (List.takeWhile_sublist _).subset hmem
    exact hdisjoint p hleft _ ⟨⟨(lower_start_lt hmem).le, hlt⟩, hself⟩
  · have hne : upper s.start left ≠ [] := by
      intro hnil
      have hall := lower_append_upper s.start left
      rw [hnil, List.append_nil] at hall
      exact hstops (congrArg List.length hall)
    rw [hupper, List.head?_append_of_ne_nil _ hne] at hn
    have hleft : n ∈ left := (List.dropWhile_sublist _).subset (List.mem_of_head? hn)
    have hpos := (hs n (by simp [hleft])).1
    refine hdisjoint n hleft s.start ⟨⟨hstart.le, ?_⟩, hself⟩
    simp only [FreeRange.span, FreeRange.stop, PAGE_SIZE]
    omega

theorem exists_pair_of_not_pairwise {α : Type} {R : α → α → Prop} {l : List α}
    (h : ¬ l.Pairwise R) : ∃ left s right, l = left ++ s :: right ∧ ∃ r ∈ left, ¬ R r s := by
  rw [List.pairwise_iff_getElem] at h
  push Not at h
  obtain ⟨k, m, hk, hm, hkm, hnot⟩ := h
  refine ⟨l.take m, l[m], l.drop (m + 1), by simp, l[k], ?_, hnot⟩
  exact List.mem_take_iff_getElem.mpr ⟨k, by omega, rfl⟩

/-- A double release is rejected in every run exactly when the memory map lists its
usable ranges by rising address. -/
theorem exclusive_iff_ascending {ranges : List MemoryRange} (hmap : UsableMap ranges) :
    (∀ calls, Exclusive (runCalls ranges calls)) ↔ Ascending ranges := by
  constructor
  · intro hexclusive
    by_contra hdescends
    obtain ⟨left, s, right, hsplit, r, hr, hdescent⟩ := exists_pair_of_not_pairwise hdescends
    have hload := new_loaded hmap.length_le hmap.sound
    have hgrid := hmap.grounded.gridded
    have hsound := hmap.sound
    have hdisjoint := hmap.runs_disjoint
    rw [hsplit] at hsound hdisjoint
    have hranges : (boot ranges).allocator.ranges.entries = left ++ s :: right :=
      hload.ranges.trans hsplit
    have hmanaged : (boot ranges).allocator.managed.entries = left ++ s :: right :=
      hload.managed.trans hsplit
    have hpage : s.start ∈ pagesOf (left ++ s :: right) := by
      have hfirst : s.start ∈ s.pages := mem_pagesFrom.mpr ⟨0, (hsound s (by simp)).1, by simp⟩
      simp [hfirst]
    have hfree : s.start ∈ (boot ranges).allocator.freePages := by
      rwa [FrameAllocator.freePages, hranges]
    have hhidden : ¬ NeighbourHolds s.start (boot ranges).allocator.ranges.entries := by
      rw [hranges]
      exact not_neighbourHolds_of_descent hr (not_le.mp hdescent) hsound fun q hq =>
        (List.pairwise_append.mp hdisjoint).2.2 q hq s (by simp)
    have hd : PAGE_SIZE ∣ s.start := ((mem_pagesOf_iff hgrid.aligned).mp hfree).1
    have hstock : s.start ∈ pagesOf (boot ranges).allocator.managed.entries := by
      rwa [hmanaged]
    have hreject := (hexclusive []).rejects s.start (exists_holds_iff.mpr hfree)
    rw [runCalls, Machine.run_nil] at hreject
    rcases release_cases hgrid s.start with
      ⟨hnot, -⟩ | ⟨-, hheld, -⟩ | ⟨-, -, hcall⟩ | ⟨-, a', hmerged⟩
    · exact hnot ⟨hd, hstock⟩
    · exact hhidden hheld
    · simp [hreject] at hcall
    · have hok := hmerged.result
      simp [hreject] at hok
  · exact fun hasc calls => ((hmap.orderly hasc).run calls).exclusive hmap.pages_nodup

theorem exclusive_of_split_map :
    UsableMap splitMap ∧ ((∀ calls, Exclusive (runCalls splitMap calls)) ↔ Ascending splitMap) :=
  ⟨splitMap_usable, exclusive_iff_ascending splitMap_usable⟩

def descendingMap : List MemoryRange :=
  [⟨0x5000, 0x1000, .conventional, .usable⟩, ⟨0x1000, 0x1000, .conventional, .usable⟩]

theorem descendingMap_usable : UsableMap descendingMap where
  length_le := by decide
  aligned := by decide
  bounded := by decide
  disjoint := by
    refine List.pairwise_pair.mpr fun address ⟨hfirst, hlast⟩ => ?_
    simp [MemoryRange.contains, MemoryRange.end, saturatingAdd] at hfirst hlast
    omega

/-- The free page 0x1000 is released once more, lands in two free runs and is then
handed out twice. -/
theorem descending_map_releases_twice :
    UsableMap descendingMap ∧
      (boot descendingMap).allocator.Holds 1 0x1000 ∧
      ((boot descendingMap).allocator.release ⟨0x1000⟩).1 = .ok () ∧
      (runCalls descendingMap [.release 0x1000]).allocator.Holds 0 0x1000 ∧
      (runCalls descendingMap [.release 0x1000]).allocator.Holds 2 0x1000 ∧
      (runCalls descendingMap [.release 0x1000, .allocate, .allocate, .allocate]).allocated =
        [0x1000, 0x5000, 0x1000] := by
  refine ⟨descendingMap_usable, ?_⟩
  simp only [FrameAllocator.Holds]
  decide +kernel

end AgnostOS.Frame
