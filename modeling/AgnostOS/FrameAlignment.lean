import AgnostOS.FrameRuns
import AgnostOS.Handover
import AgnostOS.UsableMemory

/-! Page alignment of frames: reservations cut the map at byte addresses, and the
allocator hands out frames from wherever a usable range starts. -/
namespace AgnostOS.Frame
open Globals Word Memory

/-- Every frame handed out next, and every frame already held, is page-aligned; the
latter is the address test of `release`. -/
structure PageAligned (t : Tracked) : Prop where
  frame : ∀ f, t.allocator.allocate.1 = .ok f → PAGE_SIZE ∣ f.address
  range : ∀ n r, (t.allocator.allocateContiguous n).1 = .ok r → PAGE_SIZE ∣ r.start
  held : ∀ page ∈ t.allocated, PAGE_SIZE ∣ page

theorem dvd_of_mem_pagesFrom {start n page : Nat} (h : PAGE_SIZE ∣ start)
    (hpage : page ∈ pagesFrom start n) : PAGE_SIZE ∣ page :=
  ((mem_pagesFrom_aligned h).mp hpage).1

theorem Outcome.held_aligned {runs : List FreeRange} {t t' : Tracked} {c : Call}
    (ho : Outcome t c t') (h : Grounded runs t) (hheld : ∀ page ∈ t.allocated, PAGE_SIZE ∣ page) :
    ∀ page ∈ t'.allocated, PAGE_SIZE ∣ page := by
  cases ho with
  | refused _ _ => exact hheld
  | @granted left right r n a' hcarved _ _ _ =>
    intro page hpage
    cases List.mem_append.mp hpage with
    | inl hpage =>
      exact dvd_of_mem_pagesFrom (h.gridded.aligned r (by simp [hcarved.before])) hpage
    | inr hpage => exact hheld page hpage
  | returned _ _ _ => exact fun page hpage => hheld page (List.mem_of_mem_erase hpage)

theorem Grounded.pageAligned {runs : List FreeRange} {t : Tracked} (h : Grounded runs t)
    (hheld : ∀ page ∈ t.allocated, PAGE_SIZE ∣ page) : PageAligned t where
  frame := by
    intro f hf
    rcases allocate_cases h.gridded.toRegular with ⟨-, hcall⟩ | ⟨r, right, a', hcall, hcarved⟩
    · simp [hcall] at hf
    · rw [hcall] at hf
      obtain rfl := Except.ok.inj hf
      exact h.gridded.aligned r (by simp [hcarved.before])
  range := by
    intro n q hq
    rcases allocateContiguous_cases h.gridded.toRegular n with
      ⟨-, hcall⟩ | ⟨left, r, right, a', -, -, hcall, hcarved⟩
    · simp [hcall] at hq
    · rw [hcall] at hq
      obtain rfl := Except.ok.inj hq
      exact h.gridded.aligned r (by simp [hcarved.before])
  held := hheld

theorem step_allocator (t : Tracked) (c : Call) :
    (t.step c).allocator = (t.allocator.call c).2 := by
  simp only [Tracked.step]
  split <;> rfl

/-- Enough single allocations bring any run to the front of the free list. -/
theorem exists_drain {t : Tracked} {left right : List FreeRange} {r : FreeRange}
    (hr : Regular t.allocator) (h : t.allocator.ranges.entries = left ++ r :: right) :
    ∃ calls, Regular (Machine.run Tracked.step t calls).allocator ∧
      (Machine.run Tracked.step t calls).allocator.ranges.entries = r :: right := by
  induction hsize : frameSum left using Nat.strong_induction_on generalizing t left with
  | _ size ih =>
    cases left with
    | nil => exact ⟨[], hr, h⟩
    | cons q rest =>
      rcases allocate_cases hr with ⟨hempty, -⟩ | ⟨q', right', a', hcall, hcarved⟩
      · simp [h] at hempty
      · have hbefore := hcarved.before
        rw [h] at hbefore
        obtain ⟨rfl, rfl⟩ : q = q' ∧ rest ++ r :: right = right' := by simpa using hbefore
        have hstep : (t.step .allocate).allocator = a' := by
          rw [step_allocator, FrameAllocator.call, hcall]
          rfl
        have hafter : (t.step .allocate).allocator.ranges.entries =
            (carve 1 q ++ rest) ++ r :: right := by
          rw [hstep, hcarved.after, List.nil_append, List.append_assoc]
        have hless : frameSum (carve 1 q ++ rest) < size := by
          have hpos := (hr.sound q (by simp [h])).1
          rw [← hsize, carve]
          split <;> simp [frameSum] <;> omega
        obtain ⟨calls, hregular, hfront⟩ :=
          ih _ hless (hstep ▸ hcarved.regular hr) hafter rfl
        exact ⟨.allocate :: calls, hregular, hfront⟩

/-- A map whose whole-page usable ranges start on the grid keeps every frame on it. -/
theorem pageAligned_of_starts {s : MemoryMapSnapshot} (hs : s.WellFormed)
    (ha : ∀ r ∈ usableRuns s.ranges, PAGE_SIZE ∣ r.start) (calls : List Call) :
    PageAligned (runCalls s.ranges calls) := by
  have hsound := usableRuns_sound fun r hr _ => (hs r hr).2
  have hboot := boot_grounded (snapshot_length_le s) hsound ha
  have hrun : Grounded (usableRuns s.ranges) (runCalls s.ranges calls) ∧
      ∀ page ∈ (runCalls s.ranges calls).allocated, PAGE_SIZE ∣ page :=
    Machine.run_invariant
      (I := fun t => Grounded (usableRuns s.ranges) t ∧ ∀ page ∈ t.allocated, PAGE_SIZE ∣ page)
      (fun t c h => ⟨(outcome h.1.gridded c).grounded h.1,
        (outcome h.1.gridded c).held_aligned h.1 h.2⟩)
      ⟨hboot, by simp [boot]⟩ calls
  exact hrun.1.pageAligned hrun.2

/-- Over the prepared map every frame is page-aligned in every run exactly when each
usable range of at least a page starts page-aligned. -/
theorem frames_aligned_iff {entries : List MemoryDescriptor} {framebuffer : Option (Nat × Nat)}
    {requests : List Request} {s : MemoryMapSnapshot}
    (hmap : prepared entries framebuffer requests = some s) :
    (∀ calls, PageAligned (runCalls s.ranges calls)) ↔
      ∀ r ∈ s.ranges, r.kind = .usable → PAGE_SIZE ≤ r.length → PAGE_SIZE ∣ r.start := by
  have hs := prepared_wellFormed hmap
  constructor
  · intro haligned r hr hkind hlen
    have hrun : (⟨r.start, r.length / PAGE_SIZE⟩ : FreeRange) ∈ usableRuns s.ranges :=
      mem_usableRuns.mpr ⟨r, hr, hkind, Nat.div_pos hlen (by decide), rfl⟩
    obtain ⟨left, right, hsplit⟩ := List.append_of_mem hrun
    have hsound := usableRuns_sound fun r hr _ => (hs r hr).2
    have hload := new_loaded (snapshot_length_le s) hsound
    obtain ⟨calls, hregular, hfront⟩ := exists_drain (t := boot s.ranges) (hload.regular hsound)
      (hload.ranges.trans hsplit)
    rcases allocate_cases hregular with ⟨hempty, -⟩ | ⟨q, right', a', hcall, hcarved⟩
    · simp [hfront] at hempty
    · have hbefore := hcarved.before
      rw [hfront] at hbefore
      obtain ⟨rfl, -⟩ : _ = q ∧ _ := by simpa using hbefore
      exact (haligned calls).frame ⟨r.start⟩ (by rw [runCalls, hcall])
  · intro hstarts calls
    refine pageAligned_of_starts hs (fun run hrun => ?_) calls
    obtain ⟨r, hr, hkind, hpos, rfl⟩ := mem_usableRuns.mp hrun
    exact hstarts r hr hkind ((Nat.div_pos_iff.mp hpos).2)

def pagedImageMap : MemoryMapSnapshot :=
  (prepared [⟨.conventional, 0x1000, 16⟩] none [⟨0x1000, 0x2000, .kernel⟩]).getD
    ⟨Table.empty .empty⟩

theorem frames_aligned_after_paged_image :
    prepared [⟨.conventional, 0x1000, 16⟩] none [⟨0x1000, 0x2000, .kernel⟩] = some pagedImageMap ∧
      ∀ calls, PageAligned (runCalls pagedImageMap.ranges calls) := by
  have hmap : prepared [⟨.conventional, 0x1000, 16⟩] none [⟨0x1000, 0x2000, .kernel⟩] =
      some pagedImageMap := rfl
  refine ⟨hmap, (frames_aligned_iff hmap).mpr ?_⟩
  decide +kernel

def imageRequest : Request := ⟨0x1000, 0x1800, .kernel⟩

/-- The image ends inside a page: the first frame starts there, and `release` then
rejects it as misaligned. -/
theorem image_tail_misaligns :
    ∃ s, prepared [⟨.conventional, 0x1000, 16⟩] none [imageRequest] = some s ∧
      (boot s.ranges).allocator.allocate.1 = .ok ⟨0x2800⟩ ∧ ¬ PAGE_SIZE ∣ 0x2800 ∧
      (runCalls s.ranges [.allocate]).allocated = [0x2800] ∧
      ((runCalls s.ranges [.allocate]).allocator.release ⟨0x2800⟩).1 = .error .invalidAddress := by
  refine ⟨_, rfl, ?_⟩
  decide +kernel

end AgnostOS.Frame
