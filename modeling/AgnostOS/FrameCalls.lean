import AgnostOS.FreeList

/-! What one call of the frame allocator does to its free list, stated on the live
prefix of the table. -/
namespace AgnostOS.Frame
open Globals Word Memory

/-! ### Allocation -/

structure Regular (a : FrameAllocator) : Prop where
  sound : ∀ r ∈ a.ranges.entries, r.Sound
  counted : a.freeFrames = frameSum a.ranges.entries

theorem Regular.freeFrames_lt {a : FrameAllocator} (h : Regular a) : a.freeFrames ≤ 2 ^ 60 := by
  have hsum := frameSum_le h.sound
  have hcount := a.ranges.count_le
  rw [h.counted]
  rw [Table.length_entries] at hsum
  simp only [MAX_FREE_RANGES, MAX_MEMORY_RANGES] at hcount
  omega

theorem Regular.freeFrames_succ {a : FrameAllocator} (h : Regular a) :
    saturatingAdd 64 a.freeFrames 1 = a.freeFrames + 1 := by
  have hbound := h.freeFrames_lt
  exact saturatingAdd_of_lt (by omega)

/-- `a'` is `a` with the first n frames of the run `r` taken out of its free list. -/
structure Carved (a : FrameAllocator) (left : List FreeRange) (r : FreeRange)
    (right : List FreeRange) (n : Nat) (a' : FrameAllocator) : Prop where
  before : a.ranges.entries = left ++ r :: right
  after : a'.ranges.entries = left ++ (carve n r ++ right)
  enough : n ≤ r.frames
  managed : a'.managed = a.managed
  totalFrames : a'.totalFrames = a.totalFrames
  freeFrames : a'.freeFrames = a.freeFrames - n

section Carved
variable {a a' : FrameAllocator} {left right : List FreeRange} {r : FreeRange} {n : Nat}

theorem Carved.pages_perm (h : Carved a left r right n a') :
    (pagesOf a.ranges.entries).Perm (pagesFrom r.start n ++ pagesOf a'.ranges.entries) := by
  rw [h.before, h.after]
  simp only [pagesOf_append, pagesOf_cons, pages_eq_carve h.enough, List.append_assoc]
  rw [← List.append_assoc, ← List.append_assoc (pagesFrom r.start n)]
  exact List.perm_append_comm.append_right _

theorem Carved.regular (h : Carved a left r right n a') (hr : Regular a) : Regular a' := by
  have hsound := hr.sound
  have hcounted := hr.counted
  rw [h.before] at hsound
  refine ⟨fun q hq => ?_, ?_⟩
  · rw [h.after] at hq
    simp only [List.mem_append] at hq
    rcases hq with hq | hq | hq
    · exact hsound q (by simp [hq])
    · exact (carve_sound (hsound r (by simp)) h.enough hq).1
    · exact hsound q (by simp [hq])
  · have hlen := h.pages_perm.length_eq
    rw [List.length_append, length_pagesOf, length_pagesOf, length_pagesFrom] at hlen
    rw [h.freeFrames, hcounted]
    omega

/-- Every range that is left starts where one did, possibly n frames later. -/
theorem Carved.aligned (h : Carved a left r right n a')
    (ha : ∀ q ∈ a.ranges.entries, PAGE_SIZE ∣ q.start) :
    ∀ q ∈ a'.ranges.entries, PAGE_SIZE ∣ q.start := by
  intro q hq
  rw [h.before] at ha
  rw [h.after] at hq
  simp only [List.mem_append, List.mem_cons] at hq ha
  rcases hq with hq | hq | hq
  · exact ha q (.inl hq)
  · rw [carve] at hq
    split at hq
    · simp at hq
    · obtain rfl := List.mem_singleton.mp hq
      exact Nat.dvd_add (ha r (.inr (.inl rfl))) (Dvd.intro_left n rfl)
  · exact ha q (.inr (.inr hq))

theorem Carved.ordered (h : Carved a left r right n a')
    (ho : Span.Ordered (spansOf a.ranges.entries)) (hs : r.Sound) :
    Span.Ordered (spansOf a'.ranges.entries) := by
  rw [h.before] at ho
  rw [h.after]
  simp only [spansOf, List.map_append, List.map_cons] at ho ⊢
  obtain ⟨hleft, hmid, hcross⟩ := List.pairwise_append.mp ho
  obtain ⟨hr, hright⟩ := List.pairwise_cons.mp hmid
  have hcarve : ∀ s ∈ (carve n r).map FreeRange.span, r.span.lo ≤ s.lo ∧ s.hi = r.span.hi := by
    intro s hsmem
    obtain ⟨q, hq, rfl⟩ := List.mem_map.mp hsmem
    obtain ⟨-, hstart, hstop⟩ := carve_sound hs h.enough hq
    refine ⟨?_, hstop⟩
    simp only [FreeRange.span, hstart]
    omega
  have hsingle : Span.Ordered ((carve n r).map FreeRange.span) := by
    rw [carve]
    split
    · exact List.Pairwise.nil
    · exact List.pairwise_singleton _ _
  refine List.pairwise_append.mpr ⟨hleft, List.pairwise_append.mpr ⟨hsingle, hright, ?_⟩, ?_⟩
  · intro s hsmem t ht
    rw [(hcarve s hsmem).2]
    exact hr t ht
  · intro s hsmem t ht
    cases List.mem_append.mp ht with
    | inl ht => exact (hcross s hsmem r.span (by simp)).trans (hcarve t ht).1
    | inr ht => exact hcross s hsmem t (by simp [ht])

/-- Carving a run separates its first frames from everything that stays free. -/
theorem Carved.apart (h : Carved a left r right n a') (hr : r.Sound)
    (hdisjoint : (left ++ r :: right).Pairwise fun p q =>
      ∀ x, ¬ (p.span.Contains x ∧ q.span.Contains x))
    {q : FreeRange} (hq : q ∈ a'.ranges.entries) {x : Nat} (hx : q.span.Contains x) :
    (∃ p ∈ left ++ r :: right, p.span.Contains x) ∧
      ¬ (r.start ≤ x ∧ x < r.start + n * PAGE_SIZE) := by
  have hinside : r.start ≤ x ∧ x < r.start + n * PAGE_SIZE → r.span.Contains x := by
    rintro ⟨hlo, hhi⟩
    exact ⟨hlo, hhi.trans_le (Nat.add_le_add_left (Nat.mul_le_mul_right PAGE_SIZE h.enough) _)⟩
  obtain ⟨-, hmid, hcross⟩ := List.pairwise_append.mp hdisjoint
  rw [h.after] at hq
  simp only [List.mem_append] at hq
  rcases hq with hq | hq | hq
  · exact ⟨⟨q, by simp [hq], hx⟩, fun hin => hcross q hq r (by simp) x ⟨hx, hinside hin⟩⟩
  · obtain ⟨-, hstart, hstop⟩ := carve_sound hr h.enough hq
    obtain ⟨hlo, hhi⟩ := hx
    simp only [FreeRange.span, hstart, hstop] at hlo hhi
    exact ⟨⟨r, by simp, (Nat.le_add_right _ _).trans hlo, hhi⟩, fun hin => by omega⟩
  · exact ⟨⟨q, by simp [hq], hx⟩,
      fun hin => (List.pairwise_cons.mp hmid).1 q hq x ⟨hinside hin, hx⟩⟩

end Carved

/-- The in-place update both allocation calls make at a live index. -/
theorem carved_of_put {a : FrameAllocator} {left right : List FreeRange} {r : FreeRange} {n : Nat}
    (hsplit : a.ranges.entries = left ++ r :: right) (hn : n ≤ r.frames) (hr : Regular a) :
    let rest : FreeRange := ⟨r.start + n * PAGE_SIZE, r.frames - n⟩
    let b := { a with ranges := a.ranges.put left.length rest }
    let b := if rest.frames = 0 then b.removeRange left.length else b
    Carved a left r right n { b with freeFrames := wrappingSub 64 b.freeFrames n } := by
  intro rest b₀ b
  have hput : b₀.ranges.entries = left ++ rest :: right := Table.entries_put_split hsplit rest
  have hfree : n ≤ a.freeFrames := by
    rw [hr.counted, hsplit, frameSum, List.map_append, List.sum_append, List.map_cons,
      List.sum_cons]
    omega
  have hbound := hr.freeFrames_lt
  have hb : b.ranges.entries = left ++ (carve n r ++ right) ∧ b.managed = a.managed ∧
      b.totalFrames = a.totalFrames ∧ b.freeFrames = a.freeFrames := by
    simp only [b, carve, rest]
    split
    · exact ⟨Table.entries_removeAt_split hput, rfl, rfl, rfl⟩
    · exact ⟨hput, rfl, rfl, rfl⟩
  obtain ⟨hentries, hmanaged, htotal, hcount⟩ := hb
  refine ⟨hsplit, hentries, hn, hmanaged, htotal, ?_⟩
  change wrappingSub 64 b.freeFrames n = a.freeFrames - n
  rw [hcount]
  exact wrappingSub_of_le hfree (by omega)

theorem allocate_cases {a : FrameAllocator} (h : Regular a) :
    (a.ranges.entries = [] ∧ a.allocate = (.error .outOfMemory, a)) ∨
    ∃ r right a', a.allocate = (.ok ⟨r.start⟩, a') ∧ Carved a [] r right 1 a' := by
  cases hentries : a.ranges.entries with
  | nil =>
    have hcount : a.ranges.count = 0 := Table.count_eq hentries
    exact .inl ⟨rfl, by simp [FrameAllocator.allocate, hcount]⟩
  | cons r right =>
    right
    have hsplit : a.ranges.entries = [] ++ r :: right := hentries
    have hr : r.Sound := h.sound r (by simp [hentries])
    have hslot : a.ranges.slots 0 = r := Table.slots_eq hsplit
    have hcount : ¬ a.ranges.count = 0 := by simp [Table.count_eq hentries]
    have hpos := hr.1
    have hlt := hr.frames_lt
    have hstop := hr.2
    have hadd : saturatingAdd 64 r.start PAGE_SIZE = r.start + 1 * PAGE_SIZE := by
      simp only [FreeRange.stop, PAGE_SIZE] at hstop
      rw [Nat.one_mul]
      exact saturatingAdd_of_lt (by simp only [PAGE_SIZE]; omega)
    have hsub : wrappingSub 64 r.frames 1 = r.frames - 1 := wrappingSub_of_le hpos (by omega)
    refine ⟨r, right, _, ?_, carved_of_put hsplit hpos h⟩
    simp only [FrameAllocator.allocate, if_neg hcount, hslot, hadd, hsub, List.length_nil]

/-! ### The largest run -/

theorem maxByKey_eq_none {α : Type} {key : α → Nat} {l : List α} :
    maxByKey key l = none ↔ l = [] := by
  cases l with
  | nil => simp [maxByKey]
  | cons x l => simp [maxByKey]

theorem foldl_best {α : Type} (key : α → Nat) (l : List α) (x : α) :
    let best := l.foldl (fun best y => if key best ≤ key y then y else best) x
    (best = x ∨ best ∈ l) ∧ key x ≤ key best ∧ ∀ y ∈ l, key y ≤ key best := by
  induction l generalizing x with
  | nil => simp
  | cons y l ih =>
    simp only [List.foldl_cons, List.mem_cons, forall_eq_or_imp]
    obtain ⟨hmem, hkey, hrest⟩ := ih (if key x ≤ key y then y else x)
    have hstep : key x ≤ key (if key x ≤ key y then y else x) ∧
        key y ≤ key (if key x ≤ key y then y else x) := by
      split <;> omega
    refine ⟨?_, hstep.1.trans hkey, hstep.2.trans hkey, hrest⟩
    cases hmem with
    | inl hmem =>
      rw [hmem]
      split
      · exact .inr (.inl rfl)
      · exact .inl rfl
    | inr hmem => exact .inr (.inr hmem)

theorem maxByKey_eq_some {α : Type} {key : α → Nat} {l : List α} {x : α}
    (h : maxByKey key l = some x) : x ∈ l ∧ ∀ y ∈ l, key y ≤ key x := by
  cases l with
  | nil => simp [maxByKey] at h
  | cons z l =>
    obtain rfl := Option.some.inj h
    obtain ⟨hmem, hkey, hrest⟩ := foldl_best key l z
    exact ⟨List.mem_cons.mpr hmem, List.forall_mem_cons.mpr ⟨hkey, hrest⟩⟩

theorem allocateContiguous_cases {a : FrameAllocator} (h : Regular a) (n : Nat) :
    ((n = 0 ∨ ∀ r ∈ a.ranges.entries, r.frames < n) ∧
      a.allocateContiguous n = (.error .outOfMemory, a)) ∨
    ∃ left r right a', 0 < n ∧ (∀ q ∈ a.ranges.entries, q.frames ≤ r.frames) ∧
      a.allocateContiguous n = (.ok ⟨r.start, n * PAGE_SIZE⟩, a') ∧ Carved a left r right n a' := by
  by_cases hzero : n = 0
  · exact .inl ⟨.inl hzero, by simp only [FrameAllocator.allocateContiguous, if_pos hzero]⟩
  cases hbest : maxByKey (fun index => (a.ranges.slots index).frames)
      ((List.range a.ranges.count).filter fun index =>
        (a.ranges.slots index).frames ≥ n) with
  | none =>
    refine .inl ⟨.inr fun r hr => ?_, ?_⟩
    · obtain ⟨index, hindex, rfl⟩ := List.mem_map.mp hr
      have hempty := List.filter_eq_nil_iff.mp (maxByKey_eq_none.mp hbest) index hindex
      simpa using hempty
    · simp only [FrameAllocator.allocateContiguous, if_neg hzero, hbest]
  | some index =>
    right
    obtain ⟨hmem, hmax⟩ := maxByKey_eq_some hbest
    obtain ⟨hindex, henough⟩ := List.mem_filter.mp hmem
    have hlive : index < a.ranges.count := List.mem_range.mp hindex
    have hn : n ≤ (a.ranges.slots index).frames := of_decide_eq_true henough
    obtain ⟨left, right, hlen, hsplit⟩ := a.ranges.split_at hlive
    have hr : (a.ranges.slots index).Sound := h.sound _ (Table.slots_mem_entries hlive)
    have hle : (a.ranges.slots index).start + n * PAGE_SIZE ≤ (a.ranges.slots index).stop :=
      Nat.add_le_add_left (Nat.mul_le_mul_right PAGE_SIZE hn) _
    have hfit : (a.ranges.slots index).start + n * PAGE_SIZE < 2 ^ 64 := hle.trans_lt hr.2
    have hmul : checkedMul 64 n PAGE_SIZE = some (n * PAGE_SIZE) :=
      checkedMul_eq_some.mpr ⟨(Nat.le_add_left _ _).trans_lt hfit, rfl⟩
    have hadd : checkedAdd 64 (a.ranges.slots index).start (n * PAGE_SIZE) =
        some ((a.ranges.slots index).start + n * PAGE_SIZE) :=
      checkedAdd_eq_some.mpr ⟨hfit, rfl⟩
    refine ⟨left, a.ranges.slots index, right, _, Nat.pos_of_ne_zero hzero, ?_, ?_,
      carved_of_put hsplit hn h⟩
    · intro q hq
      obtain ⟨other, hother, rfl⟩ := List.mem_map.mp hq
      by_cases hfit : n ≤ (a.ranges.slots other).frames
      · exact hmax other (List.mem_filter.mpr ⟨hother, decide_eq_true hfit⟩)
      · omega
    · simp only [FrameAllocator.allocateContiguous, if_neg hzero, hbest, hmul, hadd, hlen]

/-! ### Building the allocator -/

structure Loaded (runs : List FreeRange) (a : FrameAllocator) : Prop where
  ranges : a.ranges.entries = runs
  managed : a.managed.entries = runs
  freeFrames : a.freeFrames = frameSum runs
  totalFrames : a.totalFrames = frameSum runs

theorem Loaded.count_eq {runs : List FreeRange} {a : FrameAllocator} (h : Loaded runs a) :
    a.ranges.count = runs.length ∧ a.managed.count = runs.length :=
  ⟨Table.count_eq h.ranges, Table.count_eq h.managed⟩

theorem Loaded.length_le {runs : List FreeRange} {a : FrameAllocator} (h : Loaded runs a) :
    runs.length ≤ MAX_FREE_RANGES := by
  rw [← h.count_eq.1]
  exact a.ranges.count_le

theorem Loaded.regular {runs : List FreeRange} {a : FrameAllocator} (h : Loaded runs a)
    (hs : ∀ r ∈ runs, r.Sound) : Regular a :=
  ⟨by rwa [h.ranges], by rw [h.freeFrames, h.ranges]⟩

theorem Loaded.push {runs : List FreeRange} {a : FrameAllocator} (h : Loaded runs a)
    (hs : ∀ r ∈ runs, r.Sound) {run : FreeRange} (hrun : run.Sound)
    (hranges : a.ranges.count < MAX_FREE_RANGES) (hmanaged : a.managed.count < MAX_FREE_RANGES) :
    Loaded (runs ++ [run])
      { ranges := a.ranges.push run hranges
        managed := a.managed.push run hmanaged
        totalFrames := saturatingAdd 64 a.totalFrames run.frames
        freeFrames := saturatingAdd 64 a.freeFrames run.frames } := by
  have hbound := (h.regular hs).freeFrames_lt
  have hlt := hrun.frames_lt
  have hsum : frameSum (runs ++ [run]) = frameSum runs + run.frames := by simp [frameSum]
  have hfree : saturatingAdd 64 a.freeFrames run.frames = frameSum (runs ++ [run]) := by
    rw [hsum, ← h.freeFrames, saturatingAdd_of_lt (by omega)]
  refine ⟨?_, ?_, hfree, ?_⟩
  · rw [Table.entries_push, h.ranges]
  · rw [Table.entries_push, h.managed]
  · rw [h.totalFrames, ← h.freeFrames]
    exact hfree

theorem addRanges_loaded {ranges : List MemoryRange} {runs : List FreeRange} {a : FrameAllocator}
    (h : Loaded runs a) (hs : ∀ r ∈ runs ++ usableRuns ranges, r.Sound) :
    Loaded ((runs ++ usableRuns ranges).take MAX_FREE_RANGES)
      (FrameAllocator.addRanges ranges a) := by
  induction ranges generalizing runs a with
  | nil =>
    rw [usableRuns, List.filterMap_nil, List.append_nil, List.take_of_length_le h.length_le]
    exact h
  | cons range rest ih =>
    obtain ⟨hcount, hmcount⟩ := h.count_eq
    by_cases hkind : range.kind = .usable
    · by_cases hroom : runs.length < MAX_FREE_RANGES
      · have hguard : range.kind = .usable ∧ a.ranges.count < MAX_FREE_RANGES ∧
            a.managed.count < MAX_FREE_RANGES := ⟨hkind, by omega, by omega⟩
        rw [FrameAllocator.addRanges, dif_pos hguard]
        by_cases hframes : range.length / PAGE_SIZE = 0
        · have hruns : usableRuns (range :: rest) = usableRuns rest := by
            simp [usableRuns, usableRun, hframes]
          rw [hruns] at hs ⊢
          simp only [if_pos hframes]
          exact ih h hs
        · have hruns : usableRuns (range :: rest) =
              ⟨range.start, range.length / PAGE_SIZE⟩ :: usableRuns rest := by
            simp [usableRuns, usableRun, hframes, hkind]
          rw [hruns, List.append_cons] at hs ⊢
          simp only [if_neg hframes]
          refine ih (h.push (fun r hr => hs r (by simp [hr])) (hs _ (by simp)) _ _) hs
      · -- the tables are full: the remaining ranges are skipped
        have hguard : ¬ (range.kind = .usable ∧ a.ranges.count < MAX_FREE_RANGES ∧
            a.managed.count < MAX_FREE_RANGES) := by omega
        have hlen := h.length_le
        have htake : ∀ more : List FreeRange, (runs ++ more).take MAX_FREE_RANGES = runs :=
          fun more => List.take_left' (by omega)
        rw [FrameAllocator.addRanges, dif_neg hguard, htake, ← htake (usableRuns rest)]
        exact ih h fun r hr => hs r (by
          cases List.mem_append.mp hr with
          | inl hr => simp [hr]
          | inr hr =>
            have hsub := (List.sublist_cons_self range rest).filterMap usableRun
            exact List.mem_append_right runs (hsub.subset hr))
    · have hguard : ¬ (range.kind = .usable ∧ a.ranges.count < MAX_FREE_RANGES ∧
          a.managed.count < MAX_FREE_RANGES) := fun hg => hkind hg.1
      have hruns : usableRuns (range :: rest) = usableRuns rest := by
        simp [usableRuns, usableRun, hkind]
      rw [FrameAllocator.addRanges, dif_neg hguard]
      rw [hruns] at hs ⊢
      exact ih h hs

/-- `new` over at most as many ranges as the tables hold. -/
theorem new_loaded {ranges : List MemoryRange} (hlen : ranges.length ≤ MAX_FREE_RANGES)
    (hs : ∀ r ∈ usableRuns ranges, r.Sound) :
    Loaded (usableRuns ranges) (FrameAllocator.new ranges) := by
  have hfit : (usableRuns ranges).length ≤ MAX_FREE_RANGES :=
    (List.length_filterMap_le _ _).trans hlen
  have hempty : Loaded [] ⟨Table.empty ⟨0, 0⟩, Table.empty ⟨0, 0⟩, 0, 0⟩ := ⟨rfl, rfl, rfl, rfl⟩
  have hall : ∀ r ∈ [] ++ usableRuns ranges, r.Sound := by simpa using hs
  have hload := addRanges_loaded hempty hall
  rwa [List.nil_append, List.take_of_length_le hfit] at hload

/-! ### Returning a frame -/

/-- The bounds test of `release` finds the pages of the range. -/
theorem holdsFrame_iff {r : FreeRange} (hs : r.Sound) (ha : PAGE_SIZE ∣ r.start) {address : Nat}
    (hd : PAGE_SIZE ∣ address) :
    (address ≥ r.start ∧ saturatingAdd 64 address PAGE_SIZE ≤ r.end) ↔ address ∈ r.pages := by
  rw [hs.end_eq, FreeRange.pages, mem_pagesFrom_aligned ha]
  have hstop := hs.2
  simp only [FreeRange.stop, PAGE_SIZE, saturatingAdd] at *
  omega

theorem managed_iff {l : List FreeRange} (hs : ∀ r ∈ l, r.Sound)
    (ha : ∀ r ∈ l, PAGE_SIZE ∣ r.start) {address : Nat} (hd : PAGE_SIZE ∣ address) :
    l.any (fun range =>
      address ≥ range.start && saturatingAdd 64 address PAGE_SIZE ≤ range.end) ↔
      address ∈ pagesOf l := by
  simp only [List.any_eq_true, Bool.and_eq_true, decide_eq_true_eq, pagesOf, List.mem_flatMap]
  exact exists_congr fun r => and_congr_right fun hr => holdsFrame_iff (hs r hr) (ha r hr) hd

structure Gridded (a : FrameAllocator) : Prop extends Regular a where
  aligned : ∀ r ∈ a.ranges.entries, PAGE_SIZE ∣ r.start
  managedSound : ∀ r ∈ a.managed.entries, r.Sound
  managedAligned : ∀ r ∈ a.managed.entries, PAGE_SIZE ∣ r.start

/-- A managed page has its whole frame below the end of the address space. -/
theorem Gridded.page_end_lt {a : FrameAllocator} (h : Gridded a) {address : Nat}
    (hmem : address ∈ pagesOf a.managed.entries) : address + PAGE_SIZE < 2 ^ 64 := by
  obtain ⟨r, hr, hpage⟩ := List.mem_flatMap.mp hmem
  obtain ⟨hd, -, hlt⟩ := (mem_pagesFrom_aligned (h.managedAligned r hr)).mp hpage
  have hstop := (h.managedSound r hr).2
  have hstart := h.managedAligned r hr
  simp only [FreeRange.stop, PAGE_SIZE] at *
  omega

section Release
variable {a : FrameAllocator} {address : Nat}

structure Admitted (a : FrameAllocator) (address : Nat) : Prop where
  aligned : PAGE_SIZE ∣ address
  managed : address ∈ pagesOf a.managed.entries
  free : ¬ NeighbourHolds address a.ranges.entries

theorem lower_start_lt {l : List FreeRange} {p : FreeRange} (h : p ∈ lower address l) :
    p.start < address := by
  simpa using List.mem_takeWhile_imp h

theorem le_start_of_head_upper {l : List FreeRange} {n : FreeRange}
    (h : n ∈ (upper address l).head?) : address ≤ n.start := by
  have hnot := List.head?_dropWhile_not (fun r : FreeRange => decide (r.start < address)) l
  rw [upper] at h
  rw [Option.mem_def.mp h] at hnot
  simpa using hnot

theorem scan_eq_length_lower (a : FrameAllocator) (address : Nat) :
    a.ranges.scan (fun range => range.start < address) =
      (lower address a.ranges.entries).length :=
  a.ranges.scan_eq _

theorem ranges_split (a : FrameAllocator) (address : Nat) :
    a.ranges.entries = lower address a.ranges.entries ++ upper address a.ranges.entries :=
  (lower_append_upper _ _).symm

theorem Gridded.lower_end_eq (h : Gridded a) {p : FreeRange}
    (hp : p ∈ (lower address a.ranges.entries).getLast?) : p.end = p.stop :=
  (h.sound p ((List.takeWhile_sublist _).subset (List.mem_of_getLast? hp))).end_eq

/-- The check against the run before the insertion point. -/
theorem previous_holds_iff (h : Gridded a) :
    ((lower address a.ranges.entries).length > 0 ∧
      (a.ranges.slots ((lower address a.ranges.entries).length - 1)).end > address) ↔
      ∃ p ∈ (lower address a.ranges.entries).getLast?, address < p.stop := by
  rw [Table.previous_iff (ranges_split a address) fun p => p.end > address]
  exact exists_congr fun p => and_congr_right fun hp => by rw [h.lower_end_eq hp]

theorem previous_touches_iff (h : Gridded a) :
    ((lower address a.ranges.entries).length > 0 ∧
      (a.ranges.slots ((lower address a.ranges.entries).length - 1)).end = address) ↔
      ∃ p ∈ (lower address a.ranges.entries).getLast?, p.stop = address := by
  rw [Table.previous_iff (ranges_split a address) fun p => p.end = address]
  exact exists_congr fun p => and_congr_right fun hp => by rw [h.lower_end_eq hp]

/-- The check against the run after the insertion point: on the grid it only
fires when that run starts at the address. -/
theorem next_holds_iff (h : Gridded a) (hd : PAGE_SIZE ∣ address)
    (hfit : address + PAGE_SIZE < 2 ^ 64) :
    ((lower address a.ranges.entries).length < a.ranges.count ∧
      saturatingAdd 64 address PAGE_SIZE >
        (a.ranges.slots (lower address a.ranges.entries).length).start) ↔
      ∃ n ∈ (upper address a.ranges.entries).head?, n.start = address := by
  rw [Table.next_iff (ranges_split a address) fun n => saturatingAdd 64 address PAGE_SIZE > n.start,
    saturatingAdd_of_lt hfit]
  refine exists_congr fun n => and_congr_right fun hn => ?_
  have hle := le_start_of_head_upper hn
  have hmem : n ∈ a.ranges.entries :=
    (List.dropWhile_sublist _).subset (List.mem_of_head? hn)
  have hstart := h.aligned n hmem
  simp only [PAGE_SIZE] at *
  omega

/-- What the checks of `release` have established when it comes to merging, with the
free list split at the insertion point. -/
structure Passed (a : FrameAllocator) (address : Nat) (left right : List FreeRange) : Prop where
  split : a.ranges.entries = left ++ right
  scan : a.ranges.scan (fun range => range.start < address) = left.length
  aligned : PAGE_SIZE ∣ address
  managed : a.managed.entries.any (fun range =>
    address ≥ range.start && saturatingAdd 64 address PAGE_SIZE ≤ range.end)
  previous : ¬ (left.length > 0 ∧ (a.ranges.slots (left.length - 1)).end > address)
  next : ¬ (left.length < a.ranges.count ∧
    saturatingAdd 64 address PAGE_SIZE > (a.ranges.slots left.length).start)
  touches : (left.length > 0 ∧ (a.ranges.slots (left.length - 1)).end = address) ↔
    ∃ p ∈ left.getLast?, p.stop = address
  fit : address + PAGE_SIZE < 2 ^ 64

theorem Admitted.passed (h : Gridded a) (hadm : Admitted a address) :
    Passed a address (lower address a.ranges.entries) (upper address a.ranges.entries) where
  split := ranges_split a address
  scan := scan_eq_length_lower a address
  aligned := hadm.aligned
  managed := (managed_iff h.managedSound h.managedAligned hadm.aligned).mpr hadm.managed
  previous := mt (previous_holds_iff h).mp fun hp => hadm.free (.inl hp)
  next := mt (next_holds_iff h hadm.aligned (h.page_end_lt hadm.managed)).mp
    fun hn => hadm.free (.inr hn)
  touches := previous_touches_iff h
  fit := h.page_end_lt hadm.managed

structure Merged (a : FrameAllocator) (address : Nat) (l : List FreeRange)
    (a' : FrameAllocator) : Prop where
  result : a.release ⟨address⟩ = (.ok (), a')
  after : a'.ranges.entries = l
  managed : a'.managed = a.managed
  totalFrames : a'.totalFrames = a.totalFrames
  freeFrames : a'.freeFrames = a.freeFrames + 1

section Passed
variable {left right : List FreeRange} {p : FreeRange}

/-- The run before grows, and takes in the run after when it reaches it. -/
theorem Passed.extend_previous (h : Passed a address (left ++ [p]) right) (hr : Regular a)
    (hp : p.stop = address) :
    ∃ a', Merged a address (join (left ++ [p]) (join [⟨address, 1⟩] right)) a' := by
  have htouch := h.touches.mpr ⟨p, by simp, hp⟩
  have hsplit : a.ranges.entries = left ++ p :: right := by
    rw [h.split, List.append_assoc, List.singleton_append]
  have hslot : a.ranges.slots left.length = p := Table.slots_eq hsplit
  have hsound : p.Sound := hr.sound p (by simp [hsplit])
  have hlt := hsound.frames_lt
  have hwrap : wrappingAdd 64 p.frames 1 = p.frames + 1 := wrappingAdd_of_lt (by omega)
  have hindex : (left ++ [p]).length - 1 = left.length := by simp
  have hgrown : (⟨p.start, p.frames + 1⟩ : FreeRange).stop = address + PAGE_SIZE := by
    rw [← hp, FreeRange.stop, FreeRange.stop, Nat.add_mul, Nat.one_mul, Nat.add_assoc]
  have hend : (⟨p.start, p.frames + 1⟩ : FreeRange).end = address + PAGE_SIZE := by
    rw [FreeRange.Sound.end_eq ⟨Nat.succ_pos _, by rw [hgrown]; exact h.fit⟩, hgrown]
  have hput := Table.entries_put_split hsplit ⟨p.start, p.frames + 1⟩
  have hcount := hr.freeFrames_succ
  have hone := FreeRange.stop_single address
  have hfollow := Table.next_iff h.split fun n => address + PAGE_SIZE = n.start
  by_cases hnext : ∃ n ∈ right.head?, address + PAGE_SIZE = n.start
  · obtain ⟨n, hn, hnstart⟩ := hnext
    obtain ⟨rest, rfl⟩ : ∃ rest, right = n :: rest := ⟨_, (List.cons_head?_tail hn).symm⟩
    have hnslot : a.ranges.slots (left ++ [p]).length = n := Table.slots_eq h.split
    have hnlt := (hr.sound n (by simp [h.split])).frames_lt
    have hwrap' : wrappingAdd 64 (p.frames + 1) n.frames = p.frames + 1 + n.frames :=
      wrappingAdd_of_lt (by omega)
    have hput' : ((a.ranges.put left.length ⟨p.start, p.frames + 1⟩).put left.length
        ⟨p.start, p.frames + 1 + n.frames⟩).entries =
        (left ++ [⟨p.start, p.frames + 1 + n.frames⟩]) ++ n :: rest := by
      rw [Table.entries_put_split hput, List.append_assoc, List.singleton_append]
    have hlen : (left ++ [p]).length = (left ++ [(⟨p.start, p.frames + 1 + n.frames⟩ :
        FreeRange)]).length := by simp
    have hrelease : a.release ⟨address⟩ = (.ok (), { a with
        ranges := ((a.ranges.put left.length ⟨p.start, p.frames + 1⟩).put left.length
          ⟨p.start, p.frames + 1 + n.frames⟩).removeAt (left ++ [p]).length
        freeFrames := a.freeFrames + 1 }) := by
      simp only [FrameAllocator.release, h.aligned, not_true, if_false, h.managed, h.scan,
        if_neg h.previous, if_neg h.next, if_pos htouch]
      simp only [hindex, hslot, hwrap, hend, if_pos (hfollow.mpr ⟨n, hn, hnstart⟩)]
      simp only [hnslot, hwrap', FrameAllocator.removeRange, hcount]
    refine ⟨_, hrelease, ?_, rfl, rfl, rfl⟩
    have hjoined : join (left ++ [p]) (join [⟨address, 1⟩] (n :: rest)) =
        left ++ [⟨p.start, p.frames + 1 + n.frames⟩] ++ rest := by
      rw [singleton_join_cons, if_pos (hone.trans hnstart), append_singleton_join,
        singleton_join_cons, if_pos hp, List.append_assoc, List.singleton_append, Nat.add_assoc]
    rw [hjoined, hlen]
    exact Table.entries_removeAt_split hput'
  · have hrelease : a.release ⟨address⟩ = (.ok (), { a with
        ranges := a.ranges.put left.length ⟨p.start, p.frames + 1⟩
        freeFrames := a.freeFrames + 1 }) := by
      simp only [FrameAllocator.release, h.aligned, not_true, if_false, h.managed, h.scan,
        if_neg h.previous, if_neg h.next, if_pos htouch]
      simp only [hindex, hslot, hwrap, hend, if_neg (mt hfollow.mp hnext), hcount]
    refine ⟨_, hrelease, ?_, rfl, rfl, rfl⟩
    rw [singleton_join_of_apart hone hnext, append_singleton_join, singleton_join_cons, if_pos hp]
    exact hput

/-- With no run before to extend, the run after grows downwards or a new one is stored. -/
theorem Passed.extend_next_or_insert (h : Passed a address left right) (hr : Regular a)
    (hp : ¬ ∃ p ∈ left.getLast?, p.stop = address) :
    ((a.ranges.count = MAX_FREE_RANGES ∧ ¬ ∃ n ∈ right.head?, address + PAGE_SIZE = n.start) ∧
      a.release ⟨address⟩ = (.error .freeRangeStorageFull, a)) ∨
    ∃ a', Merged a address (join left (join [⟨address, 1⟩] right)) a' := by
  have htouch := mt h.touches.mp hp
  have hsat := saturatingAdd_of_lt h.fit
  have hcount := hr.freeFrames_succ
  have hone := FreeRange.stop_single address
  have hfollow := Table.next_iff h.split fun n => address + PAGE_SIZE = n.start
  by_cases hnext : ∃ n ∈ right.head?, address + PAGE_SIZE = n.start
  · right
    have hraw := hfollow.mpr hnext
    obtain ⟨n, hn, hnstart⟩ := hnext
    obtain ⟨rest, rfl⟩ : ∃ rest, right = n :: rest := ⟨_, (List.cons_head?_tail hn).symm⟩
    have hnslot : a.ranges.slots left.length = n := Table.slots_eq h.split
    have hnlt := (hr.sound n (by simp [h.split])).frames_lt
    have hwrap : wrappingAdd 64 n.frames 1 = 1 + n.frames := by
      rw [wrappingAdd_of_lt (by omega), Nat.add_comm]
    have hrelease : a.release ⟨address⟩ = (.ok (), { a with
        ranges := a.ranges.put left.length ⟨address, 1 + n.frames⟩
        freeFrames := a.freeFrames + 1 }) := by
      simp only [FrameAllocator.release, h.aligned, not_true, if_false, h.managed, h.scan,
        if_neg h.previous, if_neg h.next, if_neg htouch]
      simp only [hsat, if_pos hraw]
      simp only [hnslot, hwrap, hcount]
    refine ⟨_, hrelease, ?_, rfl, rfl, rfl⟩
    rw [singleton_join_cons, if_pos (hone.trans hnstart), join_cons_of_apart rest hp]
    exact Table.entries_put_split h.split _
  · have hraw := mt hfollow.mp hnext
    by_cases hfull : a.ranges.count < MAX_FREE_RANGES
    · right
      have hrelease : a.release ⟨address⟩ = (.ok (), { a with
          ranges := a.ranges.insertAt left.length ⟨address, 1⟩ hfull
          freeFrames := a.freeFrames + 1 }) := by
        simp only [FrameAllocator.release, h.aligned, not_true, if_false, h.managed, h.scan,
          if_neg h.previous, if_neg h.next, if_neg htouch]
        simp only [hsat, if_neg hraw, dif_pos hfull, hcount]
      refine ⟨_, hrelease, ?_, rfl, rfl, rfl⟩
      rw [singleton_join_of_apart hone hnext, join_cons_of_apart right hp]
      exact Table.entries_insertAt_split h.split _ hfull
    · left
      refine ⟨⟨le_antisymm a.ranges.count_le (by omega), hnext⟩, ?_⟩
      simp only [FrameAllocator.release, h.aligned, not_true, if_false, h.managed, h.scan,
        if_neg h.previous, if_neg h.next, if_neg htouch]
      simp only [hsat, if_neg hraw, dif_neg hfull]

end Passed

/-- `release` by its four outcomes. -/
theorem release_cases (h : Gridded a) (address : Nat) :
    (¬ (PAGE_SIZE ∣ address ∧ address ∈ pagesOf a.managed.entries) ∧
      a.release ⟨address⟩ = (.error .invalidAddress, a)) ∨
    (address ∈ pagesOf a.managed.entries ∧ NeighbourHolds address a.ranges.entries ∧
      a.release ⟨address⟩ = (.error .invalidAddress, a)) ∨
    (Admitted a address ∧
      (a.ranges.count = MAX_FREE_RANGES ∧ Isolated address a.ranges.entries) ∧
      a.release ⟨address⟩ = (.error .freeRangeStorageFull, a)) ∨
    (Admitted a address ∧ ∃ a', Merged a address (restored address a.ranges.entries) a') := by
  by_cases hd : PAGE_SIZE ∣ address
  swap
  · exact .inl ⟨fun hboth => hd hboth.1, by simp only [FrameAllocator.release, if_pos hd]⟩
  by_cases hmem : address ∈ pagesOf a.managed.entries
  swap
  · refine .inl ⟨fun hboth => hmem hboth.2, ?_⟩
    have hany := mt (managed_iff h.managedSound h.managedAligned hd).mp hmem
    simp only [FrameAllocator.release, hd, not_true, if_false, if_pos hany]
  have hany := (managed_iff h.managedSound h.managedAligned hd).mpr hmem
  have hscan := scan_eq_length_lower a address
  by_cases hfree : NeighbourHolds address a.ranges.entries
  · refine .inr (.inl ⟨hmem, hfree, ?_⟩)
    by_cases hprev : ∃ p ∈ (lower address a.ranges.entries).getLast?, address < p.stop
    · simp only [FrameAllocator.release, hd, not_true, if_false, hany, hscan,
        if_pos ((previous_holds_iff h).mpr hprev)]
    · have hnext := (next_holds_iff h hd (h.page_end_lt hmem)).mpr (hfree.resolve_left hprev)
      simp only [FrameAllocator.release, hd, not_true, if_false, hany, hscan,
        if_neg (mt (previous_holds_iff h).mp hprev), if_pos hnext]
  have hadm : Admitted a address := ⟨hd, hmem, hfree⟩
  have hpassed := hadm.passed h
  rw [restored, Isolated]
  generalize lower address a.ranges.entries = left at *
  generalize upper address a.ranges.entries = right at *
  by_cases hp : ∃ p ∈ left.getLast?, p.stop = address
  · obtain ⟨p, hlast, hstop⟩ := hp
    obtain ⟨front, rfl⟩ := List.getLast?_eq_some_iff.mp (Option.mem_def.mp hlast)
    exact .inr (.inr (.inr ⟨hadm, hpassed.extend_previous h.toRegular hstop⟩))
  · rcases hpassed.extend_next_or_insert h.toRegular hp with ⟨⟨hcount, hnext⟩, hrelease⟩ | hmerged
    · exact .inr (.inr (.inl ⟨hadm, ⟨hcount, hp, hnext⟩, hrelease⟩))
    · exact .inr (.inr (.inr ⟨hadm, hmerged⟩))

end Release

theorem Carved.gridded {a a' : FrameAllocator} {left right : List FreeRange} {r : FreeRange}
    {n : Nat} (h : Carved a left r right n a') (hg : Gridded a) : Gridded a' where
  toRegular := h.regular hg.toRegular
  aligned := h.aligned hg.aligned
  managedSound := by
    rw [h.managed]
    exact hg.managedSound
  managedAligned := by
    rw [h.managed]
    exact hg.managedAligned

theorem Merged.gridded {a a' : FrameAllocator} {address : Nat}
    (h : Merged a address (restored address a.ranges.entries) a') (hadm : Admitted a address)
    (hg : Gridded a) : Gridded a' where
  sound := by
    rw [h.after]
    exact fun q hq => (sound_of_mem_restored hg.sound (hg.page_end_lt hadm.managed) hq).1
  counted := by
    have hlen := (pagesOf_restored address a.ranges.entries).length_eq
    rw [length_pagesOf, List.length_cons, length_pagesOf] at hlen
    rw [h.freeFrames, h.after, hlen, hg.counted]
  aligned := by
    rw [h.after]
    intro q hq
    rcases (sound_of_mem_restored hg.sound (hg.page_end_lt hadm.managed) hq).2 with
      hstart | ⟨p, hp, hstart⟩
    · exact hstart ▸ hadm.aligned
    · exact hstart ▸ hg.aligned p hp
  managedSound := by
    rw [h.managed]
    exact hg.managedSound
  managedAligned := by
    rw [h.managed]
    exact hg.managedAligned

end AgnostOS.Frame
