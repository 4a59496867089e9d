import AgnostOS.FrameOwnership

/-! Handles on frames: code outside frame.rs only gets at frames through `OwnedFrame` and
`OwnedPhysicalRange`, and a release uses the handle up. -/
namespace AgnostOS.Frame
open Globals Word Memory

/-! ### The handles and the calls on them -/

structure OwnedFrame where
  frame : FrameAddress
  owner : FrameOwner
  deriving DecidableEq, Repr

def OwnedFrame.fromReserved (address : Nat) (owner : FrameOwner) : Option OwnedFrame :=
  match FrameAddress.new address with
  | none => none
  | some frame => some ⟨frame, owner⟩

def OwnedFrame.address (self : OwnedFrame) : Nat := self.frame.address

def OwnedPhysicalRange.start (self : OwnedPhysicalRange) : Nat := self.range.start

def OwnedPhysicalRange.length (self : OwnedPhysicalRange) : Nat := self.range.length

def allocate (allocator : FrameStatic) : Except FrameError FrameAddress × FrameStatic :=
  match allocator with
  | none => (.error .memoryMapUnavailable, none)
  | some self =>
    let (result, self) := self.allocate
    (result, some self)

def allocateOwned (allocator : FrameStatic) (owner : FrameOwner) :
    Except FrameError OwnedFrame × FrameStatic :=
  let (result, allocator) := allocate allocator
  (result.map fun frame => ⟨frame, owner⟩, allocator)

def release (allocator : FrameStatic) (frame : FrameAddress) :
    Except FrameError Unit × FrameStatic :=
  match allocator with
  | none => (.error .memoryMapUnavailable, none)
  | some self =>
    let (result, self) := self.release frame
    (result, some self)

def OwnedFrame.release (self : OwnedFrame) (allocator : FrameStatic) :
    Except FrameError Unit × FrameStatic :=
  Frame.release allocator self.frame

def stats (allocator : FrameStatic) : Option FrameStats := allocator.map FrameAllocator.stats

/-! ### Runs of the holders of handles -/

/-- The allocator with every handle that is alive, and the pages of those that are not:
dropped, or used up by a release that failed. -/
structure Holders where
  allocator : FrameStatic
  frames : List OwnedFrame
  ranges : List OwnedPhysicalRange
  lost : List Nat

inductive HandleCall where
  | initializeFrames
  | allocateOwned (owner : FrameOwner)
  | allocateContiguousOwned (frames : Nat) (owner : FrameOwner)
  | fromReserved (address : Nat) (owner : FrameOwner)
  | release (i : Nat)
  | dropFrame (i : Nat)
  | dropRange (i : Nat)
  deriving DecidableEq, Repr

def OwnedPhysicalRange.pages (self : OwnedPhysicalRange) : List Nat :=
  pagesFrom self.start (self.length / PAGE_SIZE)

namespace Holders

def cold : Holders := ⟨none, [], [], []⟩

def step (map : MemoryMap) (h : Holders) : HandleCall → Holders
  | .initializeFrames => { h with allocator := (Frame.initializeFrames h.allocator map).2 }
  | .allocateOwned owner =>
    match Frame.allocateOwned h.allocator owner with
    | (.ok frame, allocator) => { h with allocator, frames := frame :: h.frames }
    | (.error _, allocator) => { h with allocator }
  | .allocateContiguousOwned frames owner =>
    match Frame.allocateContiguousOwned h.allocator frames owner with
    | (.ok range, allocator) => { h with allocator, ranges := range :: h.ranges }
    | (.error _, allocator) => { h with allocator }
  | .fromReserved address owner =>
    match OwnedFrame.fromReserved address owner with
    | some frame => { h with frames := frame :: h.frames }
    | none => h
  | .release i =>
    match h.frames[i]? with
    | none => h
    | some frame =>
      match frame.release h.allocator with
      | (.ok (), allocator) => { h with allocator, frames := h.frames.eraseIdx i }
      | (.error _, allocator) =>
        { h with allocator, frames := h.frames.eraseIdx i, lost := frame.address :: h.lost }
  | .dropFrame i =>
    match h.frames[i]? with
    | none => h
    | some frame => { h with frames := h.frames.eraseIdx i, lost := frame.address :: h.lost }
  | .dropRange i =>
    match h.ranges[i]? with
    | none => h
    | some range => { h with ranges := h.ranges.eraseIdx i, lost := range.pages ++ h.lost }

def framePages (h : Holders) : List Nat := h.frames.map OwnedFrame.address

def rangePages (h : Holders) : List Nat := h.ranges.flatMap OwnedPhysicalRange.pages

def outstanding (h : Holders) : List Nat := h.framePages ++ h.rangePages ++ h.lost

end Holders

/-- `from_reserved` is for frames that the allocator never managed. -/
def ReservedOnly (stock : List Nat) (_ : Holders) : HandleCall → Prop
  | .fromReserved address _ => address ∉ stock
  | _ => True

/-! ### The invariant -/

structure Accounted (runs : List FreeRange) (out : List Nat) (a : FrameAllocator) : Prop where
  grounded : Grounded runs ⟨a, out⟩
  totalFrames : a.totalFrames = frameSum runs
  balanced : Ledger.Balanced (pagesOf runs) ⟨a.freePages, out.filter (· ∈ pagesOf runs)⟩

section Accounted
variable {runs : List FreeRange} {out out' : List Nat} {a a' : FrameAllocator}

theorem Accounted.perm (h : Accounted runs out a) (hp : out.Perm out') : Accounted runs out' a where
  grounded := ⟨h.grounded.gridded, h.grounded.managed⟩
  totalFrames := h.totalFrames
  balanced := ((hp.filter _).symm.append_left _).trans h.balanced

/-- A page from outside the stock changes nothing in the account. -/
theorem Accounted.cons_foreign (h : Accounted runs out a) {page : Nat}
    (hpage : page ∉ pagesOf runs) : Accounted runs (page :: out) a where
  grounded := ⟨h.grounded.gridded, h.grounded.managed⟩
  totalFrames := h.totalFrames
  balanced := by
    rw [List.filter_cons_of_neg (by simpa using hpage)]
    exact h.balanced

theorem Accounted.grant (h : Accounted runs out a) {left right : List FreeRange} {r : FreeRange}
    {n : Nat} (hcarved : Carved a left r right n a') :
    Accounted runs (pagesFrom r.start n ++ out) a' where
  grounded := ⟨hcarved.gridded h.grounded.gridded, by
    rw [hcarved.managed]
    exact h.grounded.managed⟩
  totalFrames := hcarved.totalFrames.trans h.totalFrames
  balanced := by
    have hstock : ∀ page ∈ pagesFrom r.start n, page ∈ pagesOf runs := by
      intro page hpage
      have hfree : page ∈ a.freePages :=
        hcarved.pages_perm.mem_iff.mpr (List.mem_append_left _ hpage)
      exact h.balanced.mem_or.mpr (.inl hfree)
    rw [List.filter_append, List.filter_eq_self.mpr (by simpa using hstock)]
    exact (Ledger.Step.grant _ hcarved.pages_perm).balanced h.balanced

theorem Accounted.reclaim {page : Nat} (h : Accounted runs (page :: out) a)
    (hadm : Admitted a page) (hmerged : Merged a page (restored page a.ranges.entries) a') :
    Accounted runs out a' where
  grounded := ⟨hmerged.gridded hadm h.grounded.gridded, by
    rw [hmerged.managed]
    exact h.grounded.managed⟩
  totalFrames := hmerged.totalFrames.trans h.totalFrames
  balanced := by
    have hstock : page ∈ pagesOf runs := h.grounded.managed ▸ hadm.managed
    have hbalanced := h.balanced
    rw [List.filter_cons_of_pos (by simpa using hstock)] at hbalanced
    have hfree : a'.freePages.Perm (page :: a.freePages) := by
      rw [FrameAllocator.freePages, hmerged.after]
      exact pagesOf_restored _ _
    simpa using (Ledger.Step.reclaim page List.mem_cons_self hfree).balanced hbalanced

/-- In any order of the free list, a run next to the insertion point that holds the frame
has it among its pages. -/
theorem mem_freePages_of_neighbourHolds (h : Gridded a) {address : Nat} (hd : PAGE_SIZE ∣ address)
    (hneighbour : NeighbourHolds address a.ranges.entries) : address ∈ a.freePages := by
  refine (mem_pagesOf_iff h.aligned).mpr ⟨hd, ?_⟩
  rcases hneighbour with ⟨p, hp, hlt⟩ | ⟨n, hn, hstart⟩
  · have hlower := List.mem_of_getLast? (Option.mem_def.mp hp)
    have hmem : p ∈ a.ranges.entries := (List.takeWhile_sublist _).subset hlower
    exact ⟨p.span, List.mem_map_of_mem hmem, (lower_start_lt hlower).le, hlt⟩
  · have hmem : n ∈ a.ranges.entries :=
      (List.dropWhile_sublist _).subset (List.mem_of_head? (Option.mem_def.mp hn))
    have hpos := (h.sound n hmem).1
    refine ⟨n.span, List.mem_map_of_mem hmem, hstart.le, ?_⟩
    simp only [FreeRange.span, FreeRange.stop, PAGE_SIZE]
    omega

/-- What `release` does with a frame of a handle: it never meets it in the free list. -/
theorem Accounted.release_cases {page : Nat} (h : Accounted runs out a)
    (hn : (pagesOf runs).Nodup) (hpage : page ∈ out) :
    (page ∉ pagesOf runs ∧ a.release ⟨page⟩ = (.error .invalidAddress, a)) ∨
    (page ∈ pagesOf runs ∧
      (a.ranges.count = MAX_FREE_RANGES ∧ Isolated page a.ranges.entries) ∧
      a.release ⟨page⟩ = (.error .freeRangeStorageFull, a)) ∨
    (page ∈ pagesOf runs ∧ Admitted a page ∧
      ∃ a', Merged a page (restored page a.ranges.entries) a') := by
  have hgrid := h.grounded.gridded
  have hmanaged := h.grounded.managed
  rcases Frame.release_cases hgrid page with
    ⟨hnot, hcall⟩ | ⟨hmem, hneighbour, -⟩ | ⟨hadm, hfull, hcall⟩ | ⟨hadm, hmerged⟩
  · refine .inl ⟨fun hstock => hnot ⟨?_, hmanaged ▸ hstock⟩, hcall⟩
    have hentry : page ∈ pagesOf a.managed.entries := hmanaged ▸ hstock
    exact ((mem_pagesOf_iff hgrid.managedAligned).mp hentry).1
  · have hd := ((mem_pagesOf_iff hgrid.managedAligned).mp hmem).1
    have hfree := mem_freePages_of_neighbourHolds hgrid hd hneighbour
    refine absurd ?_ (h.balanced.not_held hn hfree)
    exact List.mem_filter.mpr ⟨hpage, by simpa using hmanaged ▸ hmem⟩
  · exact .inr (.inl ⟨hmanaged ▸ hadm.managed, hfull, hcall⟩)
  · exact .inr (.inr ⟨hmanaged ▸ hadm.managed, hadm, hmerged⟩)

end Accounted

def Holders.Sound (runs : List FreeRange) (h : Holders) : Prop :=
  match h.allocator with
  | none => ∀ page ∈ h.outstanding, page ∉ pagesOf runs
  | some a => Accounted runs h.outstanding a

section Steps
variable {runs : List FreeRange} {h h' : Holders}

theorem Holders.Sound.of_perm (hs : h.Sound runs) (hp : h.outstanding.Perm h'.outstanding)
    (ha : h'.allocator = h.allocator) : h'.Sound runs := by
  simp only [Holders.Sound, ha] at hs ⊢
  split at hs
  · exact fun page hpage => hs page (hp.mem_iff.mpr hpage)
  · exact hs.perm hp

theorem accounted_of_boot {s : MemoryMapSnapshot} (hmap : UsableMap s.ranges) {out : List Nat}
    (hout : ∀ page ∈ out, page ∉ pagesOf (usableRuns s.ranges)) :
    Accounted (usableRuns s.ranges) out (.new s.ranges) := by
  have hload := new_loaded hmap.length_le hmap.sound
  refine ⟨⟨hmap.grounded.gridded, hmap.grounded.managed⟩, hload.totalFrames, ?_⟩
  rw [Ledger.Balanced, FrameAllocator.freePages, hload.ranges,
    List.filter_eq_nil_iff.mpr (by simpa using hout), List.append_nil]

theorem outstanding_eraseFrame {i : Nat} {frame : OwnedFrame} (hi : h.frames[i]? = some frame) :
    h.outstanding.Perm
      (frame.address :: ({ h with frames := h.frames.eraseIdx i } : Holders).outstanding) := by
  obtain ⟨hlt, rfl⟩ := List.getElem?_eq_some_iff.mp hi
  have hperm := (List.getElem_cons_eraseIdx_perm hlt).symm.map OwnedFrame.address
  exact (hperm.append_right h.rangePages).append_right h.lost

theorem outstanding_eraseRange {i : Nat} {range : OwnedPhysicalRange}
    (hi : h.ranges[i]? = some range) :
    (h.framePages ++ h.rangePages).Perm
      (h.framePages ++ (h.ranges.eraseIdx i).flatMap OwnedPhysicalRange.pages ++ range.pages) := by
  obtain ⟨hlt, rfl⟩ := List.getElem?_eq_some_iff.mp hi
  have hperm := (List.getElem_cons_eraseIdx_perm hlt).symm.flatMap_right OwnedPhysicalRange.pages
  rw [List.append_assoc]
  exact (hperm.trans List.perm_append_comm).append_left _

/-- A handle that goes without a release leaves its page behind. -/
theorem outstanding_lost {i : Nat} {frame : OwnedFrame} (hi : h.frames[i]? = some frame) :
    h.outstanding.Perm ({ h with
      frames := h.frames.eraseIdx i, lost := frame.address :: h.lost } : Holders).outstanding :=
  (outstanding_eraseFrame hi).trans List.perm_middle.symm

theorem Holders.Sound.released (hs : h.Sound runs) (hn : (pagesOf runs).Nodup) {i : Nat}
    {frame : OwnedFrame} (hi : h.frames[i]? = some frame) :
    match frame.release h.allocator with
    | (.ok (), allocator) =>
      ({ h with allocator, frames := h.frames.eraseIdx i } : Holders).Sound runs
    | (.error _, allocator) => allocator = h.allocator := by
  have hpage : frame.address ∈ h.outstanding :=
    (outstanding_eraseFrame hi).mem_iff.mpr List.mem_cons_self
  simp only [Holders.Sound] at hs ⊢
  rcases hallocator : h.allocator with _ | a
  · rfl
  · rw [hallocator] at hs
    have hcall : frame.release (some a) =
        ((a.release ⟨frame.address⟩).1, some (a.release ⟨frame.address⟩).2) := rfl
    rw [hcall]
    rcases hs.release_cases hn hpage with ⟨-, hres⟩ | ⟨-, -, hres⟩ | ⟨-, hadm, a', hmerged⟩
    · rw [hres]
    · rw [hres]
    · rw [hmerged.result]
      exact (hs.perm (outstanding_eraseFrame hi)).reclaim hadm hmerged

theorem Holders.Sound.step {s : MemoryMapSnapshot} (hmap : UsableMap s.ranges) {c : HandleCall}
    (hs : h.Sound (usableRuns s.ranges)) (hc : ReservedOnly (pagesOf (usableRuns s.ranges)) h c) :
    (h.step (some s) c).Sound (usableRuns s.ranges) := by
  cases c with
  | initializeFrames =>
    simp only [Holders.Sound, Holders.step, Frame.initializeFrames] at hs ⊢
    split at hs
    · next hnone => exact hnone ▸ accounted_of_boot hmap hs
    · next a hsome =>
      rw [hsome]
      exact hs
  | allocateOwned owner =>
    simp only [Holders.Sound, Holders.step, Frame.allocateOwned, Frame.allocate] at hs ⊢
    split at hs
    · exact hs
    · next a _ =>
      rcases allocate_cases hs.grounded.gridded.toRegular with
        ⟨-, hcall⟩ | ⟨r, right, a', hcall, hcarved⟩
      · simp only [hcall, Except.map]
        exact hs
      · simp only [hcall, Except.map]
        have hgrant := hs.grant hcarved
        rwa [pagesFrom_one] at hgrant
  | allocateContiguousOwned n owner =>
    cases ha : h.allocator with
    | none =>
      simp only [Holders.Sound, Holders.step, Frame.allocateContiguousOwned, ha] at hs ⊢
      exact hs
    | some a =>
      simp only [Holders.Sound, Holders.step, Frame.allocateContiguousOwned, ha] at hs ⊢
      rcases allocateContiguous_cases hs.grounded.gridded.toRegular n with
        ⟨-, hcall⟩ | ⟨left, r, right, a', -, -, hcall, hcarved⟩
      · simp only [hcall, Except.map]
        exact hs
      · simp only [hcall, Except.map]
        have hpages : (⟨⟨r.start, n * PAGE_SIZE⟩, owner⟩ : OwnedPhysicalRange).pages =
            pagesFrom r.start n := by
          simp [OwnedPhysicalRange.pages, OwnedPhysicalRange.start, OwnedPhysicalRange.length]
        refine (hs.grant hcarved).perm ?_
        simp only [Holders.outstanding, Holders.framePages, Holders.rangePages, List.flatMap_cons,
          hpages]
        rw [← List.append_assoc]
        refine List.Perm.append_right _ ?_
        rw [← List.append_assoc, ← List.append_assoc]
        exact List.perm_append_comm.append_right _
  | fromReserved address owner =>
    simp only [Holders.step, OwnedFrame.fromReserved]
    cases hnew : FrameAddress.new address with
    | none => exact hs
    | some frame =>
      have haddress : frame = ⟨address⟩ := by
        simp only [FrameAddress.new] at hnew
        split at hnew
        · exact (Option.some.inj hnew).symm
        · simp at hnew
      subst haddress
      simp only [Holders.Sound] at hs ⊢
      split at hs
      · intro page hpage
        rcases List.mem_cons.mp hpage with rfl | hpage
        · exact hc
        · exact hs page hpage
      · exact hs.cons_foreign hc
  | release i =>
    simp only [Holders.step]
    cases hi : h.frames[i]? with
    | none => exact hs
    | some frame =>
      have hreleased := hs.released hmap.pages_nodup hi
      rcases hcall : frame.release h.allocator with ⟨_ | _, allocator⟩
      · simp only [hcall] at hreleased ⊢
        exact hs.of_perm (outstanding_lost hi) hreleased
      · simp only [hcall] at hreleased ⊢
        exact hreleased
  | dropFrame i =>
    simp only [Holders.step]
    cases hi : h.frames[i]? with
    | none => exact hs
    | some frame => exact hs.of_perm (outstanding_lost hi) rfl
  | dropRange i =>
    simp only [Holders.step]
    cases hi : h.ranges[i]? with
    | none => exact hs
    | some range =>
      refine hs.of_perm ?_ rfl
      have hperm := (outstanding_eraseRange hi).append_right h.lost
      rwa [List.append_assoc _ range.pages] at hperm

end Steps

/-! ### Whole runs -/

abbrev runHandles (s : MemoryMapSnapshot) (calls : List HandleCall) : Holders :=
  Machine.run (Holders.step (some s)) .cold calls

abbrev Reserving (s : MemoryMapSnapshot) (calls : List HandleCall) : Prop :=
  Machine.Guarded (Holders.step (some s)) (ReservedOnly (usablePages s.ranges)) .cold calls

theorem sound_of_run {s : MemoryMapSnapshot} (hmap : UsableMap s.ranges) {calls : List HandleCall}
    (hcalls : Reserving s calls) : (runHandles s calls).Sound (usableRuns s.ranges) := by
  rw [Reserving, usablePages_eq] at hcalls
  refine Machine.guarded_invariant (fun _ _ hs hc => hs.step hmap hc) ?_ hcalls
  simp [Holders.Sound, Holders.cold, Holders.outstanding, Holders.framePages, Holders.rangePages]

structure HandlesKept (stock : List Nat) (h : Holders) (a : FrameAllocator) : Prop where
  partitioned : (a.freePages ++ h.outstanding.filter (· ∈ stock)).Perm stock
  apart : (h.outstanding.filter (· ∈ stock)).Nodup
  notFree : ∀ page ∈ h.outstanding, page ∉ a.freePages
  freeCounted : a.stats.freeFrames = a.freePages.length
  totalCounted : a.stats.totalFrames = stock.length
  counted : a.stats.freeFrames + (h.outstanding.filter (· ∈ stock)).length = a.stats.totalFrames
  issued : ∀ frame ∈ h.frames, frame.address ∈ stock →
    (frame.release h.allocator).1 = .ok () ∨
      (frame.release h.allocator).1 = .error .freeRangeStorageFull ∧
        a.ranges.count = MAX_FREE_RANGES
  reserved : ∀ frame ∈ h.frames, frame.address ∉ stock →
    frame.release h.allocator = (.error .invalidAddress, h.allocator)
  freshFrame : ∀ owner frame, (allocateOwned h.allocator owner).1 = .ok frame →
    frame.address ∈ stock ∧ frame.address ∉ h.outstanding
  freshRange : ∀ n owner range, (allocateContiguousOwned h.allocator n owner).1 = .ok range →
    range.pages.length = n ∧ ∀ page ∈ range.pages, page ∈ stock ∧ page ∉ h.outstanding

theorem Accounted.notFree {runs : List FreeRange} {out : List Nat} {a : FrameAllocator}
    (h : Accounted runs out a) (hn : (pagesOf runs).Nodup) {page : Nat} (hpage : page ∈ out) :
    page ∉ a.freePages := by
  intro hfree
  have hstock : page ∈ pagesOf runs := h.balanced.mem_or.mpr (.inl hfree)
  exact h.balanced.not_held hn hfree (List.mem_filter.mpr ⟨hpage, by simpa using hstock⟩)

theorem Accounted.fresh {runs : List FreeRange} {out : List Nat} {a : FrameAllocator}
    (h : Accounted runs out a) (hn : (pagesOf runs).Nodup) {page : Nat}
    (hpage : page ∈ a.freePages) : page ∈ pagesOf runs ∧ page ∉ out :=
  ⟨h.balanced.mem_or.mpr (.inl hpage), fun hout => h.notFree hn hout hpage⟩

theorem Holders.Sound.kept {runs : List FreeRange} {h : Holders} {a : FrameAllocator}
    (hs : h.Sound runs) (hn : (pagesOf runs).Nodup) (ha : h.allocator = some a) :
    HandlesKept (pagesOf runs) h a := by
  simp only [Holders.Sound, ha] at hs
  have hgrid := hs.grounded.gridded
  have hheld : ∀ frame ∈ h.frames, frame.address ∈ h.outstanding := by
    intro frame hframe
    simp only [Holders.outstanding, Holders.framePages, List.mem_append]
    exact .inl (.inl (List.mem_map_of_mem hframe))
  have hfree : a.stats.freeFrames = a.freePages.length := by
    rw [FrameAllocator.stats, hgrid.counted, FrameAllocator.freePages, length_pagesOf]
  have htotal : a.stats.totalFrames = (pagesOf runs).length := by
    rw [FrameAllocator.stats, hs.totalFrames, length_pagesOf]
  have hrelease : ∀ frame : OwnedFrame, frame.release h.allocator =
      ((a.release ⟨frame.address⟩).1, some (a.release ⟨frame.address⟩).2) := by
    intro frame
    rw [ha]
    rfl
  refine ⟨hs.balanced, (List.nodup_append.mp ((List.Perm.nodup_iff hs.balanced).mpr hn)).2.1,
    fun _ hpage => hs.notFree hn hpage, hfree, htotal, ?_, ?_, ?_, ?_, ?_⟩
  · rw [hfree, htotal, ← List.length_append]
    exact hs.balanced.length_eq
  · intro frame hframe hstock
    rw [hrelease]
    rcases hs.release_cases hn (hheld frame hframe) with
      ⟨hnot, -⟩ | ⟨-, ⟨hfull, -⟩, hcall⟩ | ⟨-, -, a', hmerged⟩
    · exact absurd hstock hnot
    · exact .inr ⟨by rw [hcall], hfull⟩
    · exact .inl (by rw [hmerged.result])
  · intro frame hframe hstock
    rw [hrelease, ha]
    rcases hs.release_cases hn (hheld frame hframe) with ⟨-, hcall⟩ | ⟨hin, -⟩ | ⟨hin, -⟩
    · rw [hcall]
    · exact absurd hin hstock
    · exact absurd hin hstock
  · intro owner frame hframe
    simp only [Frame.allocateOwned, Frame.allocate, ha] at hframe
    rcases allocate_cases hgrid.toRegular with ⟨-, hcall⟩ | ⟨r, right, a', hcall, hcarved⟩
    · simp [hcall, Except.map] at hframe
    · rw [hcall] at hframe
      obtain rfl := Except.ok.inj hframe
      refine hs.fresh hn (hcarved.pages_perm.mem_iff.mpr ?_)
      simp [pagesFrom_one, OwnedFrame.address]
  · intro n owner range hrange
    simp only [Frame.allocateContiguousOwned, ha] at hrange
    rcases allocateContiguous_cases hgrid.toRegular n with
      ⟨-, hcall⟩ | ⟨left, r, right, a', -, -, hcall, hcarved⟩
    · simp [hcall, Except.map] at hrange
    · rw [hcall] at hrange
      obtain rfl := Except.ok.inj hrange
      have hpages : (⟨⟨r.start, n * PAGE_SIZE⟩, owner⟩ : OwnedPhysicalRange).pages =
          pagesFrom r.start n := by
        simp [OwnedPhysicalRange.pages, OwnedPhysicalRange.start, OwnedPhysicalRange.length]
      rw [hpages]
      refine ⟨length_pagesFrom _ _, fun page hpage => hs.fresh hn ?_⟩
      exact hcarved.pages_perm.mem_iff.mpr (List.mem_append_left _ hpage)

/-- Handles keep every frame in one place, whatever order the memory map lists its ranges
in: the double release that a scrambled free list lets through needs two handles. -/
theorem handles_kept_in_any_order {s : MemoryMapSnapshot} (hmap : UsableMap s.ranges)
    {calls : List HandleCall} (hcalls : Reserving s calls) {a : FrameAllocator}
    (ha : (runHandles s calls).allocator = some a) :
    HandlesKept (usablePages s.ranges) (runHandles s calls) a := by
  rw [usablePages_eq]
  exact (sound_of_run hmap hcalls).kept hmap.pages_nodup ha

def descendingSnapshot : MemoryMapSnapshot :=
  ⟨((Table.empty .empty).push ⟨0x5000, 0x1000, .conventional, .usable⟩ (Nat.succ_pos _)).push
    ⟨0x1000, 0x1000, .conventional, .usable⟩ (Nat.le_of_ble_eq_true rfl)⟩

/-- The two usable pages are taken and the first handle released, next to a handle on a reserved
page. -/
theorem handles_kept_in_descending_map :
    HandlesKept (usablePages descendingSnapshot.ranges) (runHandles descendingSnapshot
      [.initializeFrames, .allocateOwned .kernel, .allocateContiguousOwned 1 .heap,
        .fromReserved 0x9000 .pageTable, .release 1])
      ((runHandles descendingSnapshot
        [.initializeFrames, .allocateOwned .kernel, .allocateContiguousOwned 1 .heap,
          .fromReserved 0x9000 .pageTable, .release 1]).allocator.getD
        (.new descendingSnapshot.ranges)) := by
  refine handles_kept_in_any_order ?_ ?_ ?_
  · exact (show descendingSnapshot.ranges = descendingMap from rfl) ▸ descendingMap_usable
  · simp only [Machine.Guarded, ReservedOnly, and_true, true_and]
    decide
  · rfl

/-! ### Frames that never come back -/

/-- Pages that no handle with a `release` stands for. -/
def Holders.buried (h : Holders) : List Nat := h.rangePages ++ h.lost

theorem buried_step (map : MemoryMap) (h : Holders) (c : HandleCall) :
    h.buried ⊆ (h.step map c).buried := by
  intro page hpage
  cases c with
  | initializeFrames => exact hpage
  | allocateOwned owner =>
    simp only [Holders.step]
    split <;> exact hpage
  | allocateContiguousOwned n owner =>
    simp only [Holders.step]
    split
    · simp only [Holders.buried, Holders.rangePages, List.flatMap_cons, List.append_assoc]
      exact List.mem_append_right _ hpage
    · exact hpage
  | fromReserved address owner =>
    simp only [Holders.step]
    split <;> exact hpage
  | release i =>
    simp only [Holders.step]
    split
    · exact hpage
    · split
      · exact hpage
      · exact List.perm_middle.mem_iff.mpr (List.mem_cons_of_mem _ hpage)
  | dropFrame i =>
    simp only [Holders.step]
    split
    · exact hpage
    · exact List.perm_middle.mem_iff.mpr (List.mem_cons_of_mem _ hpage)
  | dropRange i =>
    simp only [Holders.step]
    split
    · exact hpage
    · next range hi =>
      have hboth : page ∈ h.framePages ++ h.rangePages ++ h.lost := by
        rw [List.append_assoc]
        exact List.mem_append_right _ hpage
      have hperm := (List.perm_append_left_iff h.framePages).mp
        (by simpa only [List.append_assoc] using outstanding_eraseRange hi)
      have hmoved := (hperm.append_right h.lost).mem_iff.mp hpage
      rwa [List.append_assoc] at hmoved

/-- A page handed out in a range, or lost with its handle, is never handed out again. -/
theorem range_frames_never_return {s : MemoryMapSnapshot} (hmap : UsableMap s.ranges)
    {calls more : List HandleCall} (hcalls : Reserving s (calls ++ more)) {page : Nat}
    (hstock : page ∈ usablePages s.ranges) (hburied : page ∈ (runHandles s calls).buried) :
    page ∈ (runHandles s (calls ++ more)).buried ∧
      page ∉ (runHandles s (calls ++ more)).framePages ∧
      (∀ owner frame, (allocateOwned (runHandles s (calls ++ more)).allocator owner).1 = .ok frame →
        frame.address ≠ page) ∧
      ∀ n owner range, (allocateContiguousOwned (runHandles s (calls ++ more)).allocator n owner).1 =
        .ok range → page ∉ range.pages := by
  have hlater : page ∈ (runHandles s (calls ++ more)).buried := by
    rw [runHandles, Machine.run, List.foldl_append]
    exact Machine.run_invariant (I := fun h => page ∈ h.buried)
      (fun h c hin => buried_step _ h c hin) hburied more
  have hsound := sound_of_run hmap hcalls
  generalize runHandles s (calls ++ more) = h at hlater hsound ⊢
  have hout : page ∈ h.outstanding := by
    rw [Holders.outstanding, List.append_assoc]
    exact List.mem_append_right _ hlater
  rw [usablePages_eq] at hstock
  cases ha : h.allocator with
  | none =>
    simp only [Holders.Sound, ha] at hsound
    exact absurd hstock (hsound page hout)
  | some a =>
    have hkept := hsound.kept hmap.pages_nodup ha
    have hapart := hkept.apart
    rw [Holders.outstanding, List.append_assoc, List.filter_append] at hapart
    rw [← ha]
    refine ⟨hlater, fun hframe => ?_, ?_, ?_⟩
    · refine (List.nodup_append.mp hapart).2.2 page ?_ page ?_ rfl
      · exact List.mem_filter.mpr ⟨hframe, by simpa using hstock⟩
      · exact List.mem_filter.mpr ⟨hlater, by simpa using hstock⟩
    · intro owner frame hframe heq
      exact (hkept.freshFrame owner frame hframe).2 (heq ▸ hout)
    · intro n owner range hrange hmem
      exact ((hkept.freshRange n owner range hrange).2 page hmem).2 hout

/-- The page of a dropped range stays away while the other page comes and goes. -/
theorem dropped_range_never_returns :
    0x1000 ∈ (runHandles descendingSnapshot [.initializeFrames, .allocateOwned .kernel,
        .allocateContiguousOwned 1 .heap, .dropRange 0, .release 0, .allocateOwned .kernel]).buried :=
  (@range_frames_never_return descendingSnapshot
    ((show descendingSnapshot.ranges = descendingMap from rfl) ▸ descendingMap_usable)
    [.initializeFrames, .allocateOwned .kernel, .allocateContiguousOwned 1 .heap]
    [.dropRange 0, .release 0, .allocateOwned .kernel]
    (by simp only [Machine.Guarded, ReservedOnly, List.cons_append]; trivial) 0x1000
    (by decide) (by decide)).1

end AgnostOS.Frame
