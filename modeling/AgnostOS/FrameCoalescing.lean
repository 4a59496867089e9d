import AgnostOS.FrameOwnership
import AgnostOS.Library.Seam

/-! Releases coalesce: over every run free runs touch only where the memory map does, and
what a batch of releases leaves depends on the pages alone. -/
namespace AgnostOS.Frame
open Globals Word Memory

theorem FreeRange.span_injective : Function.Injective FreeRange.span := by
  intro r s h
  have hlo : r.start = s.start := congrArg Span.lo h
  have hhi : r.stop = s.stop := congrArg Span.hi h
  cases r
  cases s
  simp only [FreeRange.stop, PAGE_SIZE, FreeRange.mk.injEq] at hlo hhi ⊢
  omega

theorem spansOf_injective : Function.Injective spansOf :=
  List.map_injective_iff.mpr FreeRange.span_injective

/-! ### Where free runs touch -/

theorem Carved.seam {a a' : FrameAllocator} {left right : List FreeRange} {r : FreeRange} {n b : Nat}
    (h : Carved a left r right n a') (ho : Span.Ordered (spansOf a.ranges.entries))
    (hs : ∀ q ∈ a.ranges.entries, q.Sound) (hb : Span.Seam (spansOf a'.ranges.entries) b) :
    Span.Seam (spansOf a.ranges.entries) b := by
  have hp := spansOf_proper hs
  have hr : r.Sound := hs r (by simp [h.before])
  have hcarve := fun q hq => carve_sound (q := q) hr h.enough hq
  rw [h.after] at hb
  rw [h.before] at ho hp ⊢
  simp only [spansOf, List.map_append, List.map_cons] at ho hp hb ⊢
  rw [carve] at hb hcarve
  split at hb
  · refine hb.mono fun s hs => ?_
    cases List.mem_append.mp hs with
    | inl hs => simp [hs]
    | inr hs => exact List.mem_append_right _ (List.mem_cons_of_mem _ hs)
  · next hrest =>
    obtain ⟨hsound, -, hstop⟩ := hcarve _ (by rw [if_neg hrest]; exact List.mem_singleton_self _)
    refine hb.of_trim ho hp hstop (Nat.le_add_right _ _) ?_
    exact spansOf_proper (l := [_]) (fun q hq => List.mem_singleton.mp hq ▸ hsound) _
      (List.mem_singleton_self _)

theorem Outcome.seam {runs : List FreeRange} {t t' : Tracked} {c : Call} {b : Nat}
    (ho : Outcome t c t') (h : Orderly runs t)
    (hb : Span.Seam (spansOf t'.allocator.ranges.entries) b) :
    Span.Seam (spansOf t.allocator.ranges.entries) b := by
  cases ho with
  | refused _ _ => exact hb
  | granted hcarved _ _ _ => exact hcarved.seam h.ordered h.gridded.sound hb
  | @returned address a' _ hadm hmerged =>
    rw [hmerged.after, spansOf_restored] at hb
    exact ((h.fits hadm).seam_insert (page_proper _) (spansOf_proper h.gridded.sound) b).mp hb

structure Seamed (runs : List FreeRange) (t : Tracked) : Prop extends Orderly runs t where
  seams : ∀ b, Span.Seam (spansOf t.allocator.ranges.entries) b → Span.Seam (spansOf runs) b

theorem UsableMap.seamed {ranges : List MemoryRange} (h : UsableMap ranges)
    (hasc : Ascending ranges) : Seamed (usableRuns ranges) (boot ranges) := by
  refine ⟨h.orderly hasc, fun b hb => ?_⟩
  rwa [boot, (new_loaded h.length_le h.sound).ranges] at hb

theorem Seamed.run {runs : List FreeRange} {t : Tracked} (h : Seamed runs t)
    (calls : List Call) : Seamed runs (Machine.run Tracked.step t calls) :=
  Machine.run_invariant (fun s c hs =>
    have ho : Outcome s c (s.step c) := outcome hs.gridded c
    ⟨ho.orderly hs.toOrderly, fun b hb => hs.seams b (ho.seam hs.toOrderly hb)⟩) h calls

/-- Runs that touch come from ranges that touch: the range of a run that was cut down to
whole pages would reach into the next one. -/
theorem UsableMap.ranges_of_seam {ranges : List MemoryRange} (h : UsableMap ranges) {b : Nat}
    (hb : Span.Seam (spansOf (usableRuns ranges)) b) :
    ∃ q ∈ ranges, ∃ q' ∈ ranges, q.kind = .usable ∧ q'.kind = .usable ∧
      q.start + q.length = b ∧ q'.start = b := by
  obtain ⟨⟨_, hleft, hhi⟩, _, hright, hlo⟩ := hb
  obtain ⟨r, hr, rfl⟩ := List.mem_map.mp hleft
  obtain ⟨s, hs, rfl⟩ := List.mem_map.mp hright
  obtain ⟨q, hq, hkind, hpos, rfl⟩ := mem_usableRuns.mp hr
  obtain ⟨q', hq', hkind', hpos', rfl⟩ := mem_usableRuns.mp hs
  simp only [FreeRange.span, FreeRange.stop, PAGE_SIZE] at hhi hlo hpos hpos'
  refine ⟨q, hq, q', hq', hkind, hkind', ?_, hlo⟩
  have hwhole := Nat.div_mul_le_self q.length 4096
  by_contra hne
  have hsound : q.Sound := ⟨by omega, h.bounded q hq hkind⟩
  have hsound' : q'.Sound := ⟨by omega, h.bounded q' hq' hkind'⟩
  have : Std.Symm fun r s : MemoryRange => ∀ a, ¬ (r.contains a ∧ s.contains a) :=
    ⟨fun r s hrs a hsr => hrs a hsr.symm⟩
  have hapart := h.disjoint.forall (List.mem_filter.mpr ⟨hq, decide_eq_true hkind⟩)
    (List.mem_filter.mpr ⟨hq', decide_eq_true hkind'⟩) fun heq => by
      subst heq
      omega
  refine hapart b ⟨(hsound.contains_iff b).mpr ⟨?_, ?_⟩, (hsound'.contains_iff b).mpr ⟨?_, ?_⟩⟩
  all_goals
    simp only [MemoryRange.span, MemoryRange.stop]
    omega

/-! ### Releasing a batch of pages -/

def FrameAllocator.releaseAll (self : FrameAllocator) : List Nat → Option FrameAllocator
  | [] => some self
  | page :: pages =>
    match self.release ⟨page⟩ with
    | (.ok (), self) => self.releaseAll pages
    | (.error _, _) => none

theorem Orderly.merged_of_ok {runs : List FreeRange} {t : Tracked} (h : Orderly runs t) {page : Nat}
    {a' : FrameAllocator} (hok : t.allocator.release ⟨page⟩ = (.ok (), a')) :
    Admitted t.allocator page ∧
      Merged t.allocator page (restored page t.allocator.ranges.entries) a' := by
  rcases release_cases h.gridded page with ⟨-, hcall⟩ | ⟨-, -, hcall⟩ | ⟨-, -, hcall⟩ | ⟨hadm, b, hb⟩
  · simp [hcall] at hok
  · simp [hcall] at hok
  · simp [hcall] at hok
  · have hsame : b = a' := by
      have := hb.result.symm.trans hok
      simpa using this
    exact ⟨hadm, hsame ▸ hb⟩

structure Batch (runs : List FreeRange) (t : Tracked) (pages : List Nat) (a : FrameAllocator) :
    Prop where
  orderly : Orderly runs ⟨a, t.allocated.diff pages⟩
  covers : ∀ x, Span.Covers (spansOf a.ranges.entries) x ↔
    (∃ page ∈ pages, Span.Contains ⟨page, page + PAGE_SIZE⟩ x) ∨
      Span.Covers (spansOf t.allocator.ranges.entries) x
  seams : ∀ b, Span.Seam (spansOf a.ranges.entries) b ↔
    Span.Seam (spansOf t.allocator.ranges.entries) b
  managed : a.managed = t.allocator.managed
  totalFrames : a.totalFrames = t.allocator.totalFrames

theorem Orderly.batch {runs : List FreeRange} {t : Tracked} (h : Orderly runs t) {pages : List Nat}
    {a : FrameAllocator} (hall : t.allocator.releaseAll pages = some a) : Batch runs t pages a := by
  induction pages generalizing t with
  | nil =>
    obtain rfl := Option.some.inj hall
    exact ⟨by simpa using h, by simp, fun _ => Iff.rfl, rfl, rfl⟩
  | cons page pages ih =>
    rw [FrameAllocator.releaseAll] at hall
    split at hall
    · next a' hok =>
      obtain ⟨hadm, hmerged⟩ := h.merged_of_ok hok
      have hstep : Outcome t (.release page) ⟨a', t.allocated.erase page⟩ :=
        .returned rfl hadm hmerged
      have hrest := ih (hstep.orderly h) hall
      have hproper := spansOf_proper h.gridded.sound
      refine ⟨?_, fun x => ?_, fun b => ?_, hrest.managed.trans hmerged.managed,
        hrest.totalFrames.trans hmerged.totalFrames⟩
      · rw [List.diff_cons]
        exact hrest.orderly
      · rw [hrest.covers, hmerged.after, spansOf_restored,
          Span.insert_covers (page_proper page) hproper]
        simp only [List.mem_cons, exists_eq_or_imp, or_assoc]
        exact or_left_comm
      · rw [hrest.seams, hmerged.after, spansOf_restored,
          (h.fits hadm).seam_insert (page_proper page) hproper]
    · simp at hall

/-- Two batches of the same pages end in the same free list and counters. -/
theorem Batch.eq_of_same {runs : List FreeRange} {t : Tracked} {ps qs : List Nat}
    {a b : FrameAllocator} (ha : Batch runs t ps a) (hb : Batch runs t qs b)
    (hsame : ∀ page, page ∈ ps ↔ page ∈ qs) :
    a.ranges.entries = b.ranges.entries ∧ a.stats = b.stats ∧ a.managed = b.managed := by
  have hentries : a.ranges.entries = b.ranges.entries := by
    refine spansOf_injective (Span.eq_of_covers_of_seams ha.orderly.ordered hb.orderly.ordered
      (spansOf_proper ha.orderly.gridded.sound) (spansOf_proper hb.orderly.gridded.sound)
      (fun x => ?_) fun s => ?_)
    · rw [ha.covers, hb.covers]
      simp only [hsame]
    · rw [ha.seams, hb.seams]
  have hfree : a.freeFrames = b.freeFrames := by
    rw [ha.orderly.gridded.counted, hb.orderly.gridded.counted, hentries]
  have hcount : a.ranges.count = b.ranges.count := by
    rw [Table.count_eq hentries, Table.length_entries]
  refine ⟨hentries, ?_, ha.managed.trans hb.managed.symm⟩
  simp only [FrameAllocator.stats, hfree, hcount, ha.totalFrames, hb.totalFrames]

/-! ### Neighbours of a frame -/

section Neighbours
variable {a : FrameAllocator} {address : Nat}

theorem exists_mem_spansOf {l : List FreeRange} {P : Span Nat → Prop} :
    (∃ s ∈ spansOf l, P s) ↔ ∃ r ∈ l, P r.span := by
  simp [spansOf]

/-- Below a frame that is not free, the page before it is free when a run ends there. -/
theorem exists_stop_eq_iff (h : Gridded a) (hd : PAGE_SIZE ∣ address)
    (hfree : address ∉ a.freePages) :
    (∃ r ∈ a.ranges.entries, r.stop = address) ↔ ∃ q ∈ a.freePages, q + PAGE_SIZE = address := by
  simp only [FrameAllocator.freePages, pagesOf, List.mem_flatMap, not_exists, not_and] at hfree ⊢
  constructor
  · rintro ⟨r, hr, hstop⟩
    have hpos := (h.sound r hr).1
    refine ⟨address - PAGE_SIZE, ⟨r, hr, mem_pagesFrom.mpr ⟨r.frames - 1, by omega, ?_⟩⟩, ?_⟩
    all_goals
      simp only [FreeRange.stop, PAGE_SIZE] at *
      omega
  · rintro ⟨q, ⟨r, hr, hq⟩, hnext⟩
    obtain ⟨hqd, hlo, hhi⟩ := (mem_pagesFrom_aligned (h.aligned r hr)).mp hq
    refine ⟨r, hr, ?_⟩
    by_contra hne
    refine hfree r hr ((mem_pagesFrom_aligned (h.aligned r hr)).mpr ⟨hd, ?_, ?_⟩)
    all_goals
      have hstart := h.aligned r hr
      simp only [FreeRange.stop, PAGE_SIZE] at *
      omega

/-- Above it, the next page is free when a run starts there. -/
theorem exists_start_eq_iff (h : Gridded a) (hd : PAGE_SIZE ∣ address)
    (hfree : address ∉ a.freePages) :
    (∃ r ∈ a.ranges.entries, address + PAGE_SIZE = r.start) ↔
      address + PAGE_SIZE ∈ a.freePages := by
  simp only [FrameAllocator.freePages, pagesOf, List.mem_flatMap, not_exists, not_and] at hfree ⊢
  refine exists_congr fun r => and_congr_right fun hr => ?_
  have hstart := h.aligned r hr
  have hpos := (h.sound r hr).1
  have hmiss := hfree r hr
  rw [FreeRange.pages, mem_pagesFrom_aligned hstart] at hmiss ⊢
  simp only [PAGE_SIZE] at *
  omega

/-- A frame is isolated when neither neighbouring page is free. -/
theorem isolated_iff (h : Gridded a) (ho : Span.Ordered (spansOf a.ranges.entries))
    (hd : PAGE_SIZE ∣ address) (hfree : address ∉ a.freePages) :
    Isolated address a.ranges.entries ↔
      ∀ q, q + PAGE_SIZE = address ∨ q = address + PAGE_SIZE → q ∉ a.freePages := by
  have hp := spansOf_proper h.sound
  have hbefore : (∃ p ∈ (lower address a.ranges.entries).getLast?, p.stop = address) ↔
      ∃ r ∈ a.ranges.entries, r.stop = address := by
    have hspans := Span.touches_before_iff (x := address) ho hp
    rw [← spansOf_lower, exists_mem_spansOf] at hspans
    refine Iff.trans ?_ hspans
    simp [spansOf, List.getLast?_map, FreeRange.span]
  have hafter : (∃ n ∈ (upper address a.ranges.entries).head?, address + PAGE_SIZE = n.start) ↔
      ∃ r ∈ a.ranges.entries, address + PAGE_SIZE = r.start := by
    have hgap : ∀ s ∈ spansOf a.ranges.entries, address ≤ s.lo → address + PAGE_SIZE ≤ s.lo := by
      intro s hs hle
      by_contra hlt
      exact not_covers_of_not_free h hd hfree ⟨hle, not_le.mp hlt⟩
        ⟨s, hs, le_rfl, hp s hs⟩
    have hspans := Span.touches_after_iff ho hp (page_proper address).le hgap
    rw [← spansOf_upper, exists_mem_spansOf] at hspans
    refine Iff.trans ?_ hspans
    simp [spansOf, List.head?_map, FreeRange.span]
  rw [Isolated, hbefore, hafter, exists_stop_eq_iff h hd hfree, exists_start_eq_iff h hd hfree]
  constructor
  · rintro ⟨hprev, hnext⟩ q (hq | rfl) hmem
    · exact hprev ⟨q, hmem, hq⟩
    · exact hnext hmem
  · intro hnone
    constructor
    · intro hbelow
      obtain ⟨q, hmem, hq⟩ := hbelow
      exact hnone q (.inl hq) hmem
    · exact hnone _ (.inr rfl)

theorem length_restored_of_isolated {l : List FreeRange} (h : Isolated address l) :
    (restored address l).length = l.length + 1 := by
  have hone := FreeRange.stop_single address
  have hsplit := congrArg List.length (lower_append_upper address l)
  rw [restored, singleton_join_of_apart hone h.2, join_cons_of_apart _ h.1]
  simp only [List.length_append, List.length_cons] at hsplit ⊢
  omega

end Neighbours

theorem Orderly.storageFull_iff {runs : List FreeRange} {t : Tracked} (h : Orderly runs t)
    (hn : (pagesOf runs).Nodup) {page : Nat} (hheld : page ∈ t.allocated) :
    (t.allocator.release ⟨page⟩).1 = .error .freeRangeStorageFull ↔
      t.allocator.ranges.count = MAX_FREE_RANGES ∧
        Isolated page t.allocator.ranges.entries := by
  have hadm := h.admitted hn hheld
  rcases release_cases h.gridded page with
    ⟨hnot, -⟩ | ⟨-, hneighbour, -⟩ | ⟨-, hfull, hcall⟩ | ⟨-, a', hmerged⟩
  · exact absurd ⟨hadm.aligned, hadm.managed⟩ hnot
  · exact absurd hneighbour hadm.free
  · exact iff_of_true (by rw [hcall]) hfull
  · refine iff_of_false (by simp [hmerged.result]) fun ⟨hcount, hisolated⟩ => ?_
    -- the new range would be one too many
    have hlen := length_restored_of_isolated hisolated
    have hroom := a'.ranges.count_le
    rw [← hmerged.after, Table.length_entries, Table.length_entries] at hlen
    omega

structure Coalescing (ranges : List MemoryRange) (t : Tracked) : Prop where
  touching : ∀ left r s right, t.allocator.ranges.entries = left ++ r :: s :: right →
    r.stop = s.start → ∃ q ∈ ranges, ∃ q' ∈ ranges, q.kind = .usable ∧ q'.kind = .usable ∧
      q.start + q.length = r.stop ∧ q'.start = r.stop
  commute : ∀ ps qs a b, (∀ page, page ∈ ps ↔ page ∈ qs) →
    t.allocator.releaseAll ps = some a → t.allocator.releaseAll qs = some b →
    a.ranges.entries = b.ranges.entries ∧ a.stats = b.stats ∧ a.managed = b.managed
  storageFull : ∀ page ∈ t.allocated,
    ((t.allocator.release ⟨page⟩).1 = .error .freeRangeStorageFull ↔
      t.allocator.ranges.count = MAX_FREE_RANGES ∧
        ∀ q, q + PAGE_SIZE = page ∨ q = page + PAGE_SIZE → ¬ ∃ i, t.allocator.Holds i q)

theorem Seamed.coalescing {ranges : List MemoryRange} {t : Tracked} (hmap : UsableMap ranges)
    (h : Seamed (usableRuns ranges) t) : Coalescing ranges t where
  touching := by
    intro left r s right hsplit htouch
    refine hmap.ranges_of_seam (h.seams r.stop ⟨⟨r.span, ?_, rfl⟩, s.span, ?_, htouch.symm⟩)
    · exact List.mem_map_of_mem (by simp [hsplit])
    · exact List.mem_map_of_mem (by simp [hsplit])
  commute := by
    intro ps qs a b hsame hps hqs
    exact (h.toOrderly.batch hps).eq_of_same (h.toOrderly.batch hqs) hsame
  storageFull := by
    intro page hheld
    have hadm := h.admitted hmap.pages_nodup hheld
    have hfree := (h.allocated_of_admitted hadm).1
    rw [h.storageFull_iff hmap.pages_nodup hheld,
      isolated_iff h.gridded h.ordered hadm.aligned hfree]
    simp only [exists_holds_iff]

/-- Over every run of an allocator on an ascending map, releases commute and coalesce,
and only a full table without a neighbour refuses an allocated page. -/
theorem coalescing_of_ascending {ranges : List MemoryRange} (hmap : UsableMap ranges)
    (hasc : Ascending ranges) (calls : List Call) :
    Coalescing ranges (runCalls ranges calls) :=
  ((hmap.seamed hasc).run calls).coalescing hmap

theorem coalescing_of_split_map :
    UsableMap splitMap ∧ Ascending splitMap ∧
      Coalescing splitMap (runCalls splitMap [.allocateContiguous 3, .release 0x2000]) :=
  ⟨splitMap_usable, by decide, coalescing_of_ascending splitMap_usable (by decide) _⟩

end AgnostOS.Frame
