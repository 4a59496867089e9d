import AgnostOS.FrameCalls
import AgnostOS.Reservation

/-! The runs of whole pages a memory map offers to the frame allocator. -/
namespace AgnostOS.Frame
open Globals Word Memory

structure SeparateMap (ranges : List MemoryRange) : Prop where
  length_le : ranges.length ≤ MAX_MEMORY_RANGES
  bounded : ∀ r ∈ ranges, r.kind = .usable → r.start + r.length < 2 ^ 64
  disjoint : (ranges.filter fun r => r.kind = .usable).Pairwise fun r s =>
    ∀ address, ¬ (r.contains address ∧ s.contains address)

structure UsableMap (ranges : List MemoryRange) : Prop extends SeparateMap ranges where
  aligned : ∀ r ∈ ranges, r.kind = .usable → PAGE_SIZE ∣ r.start

def Ascending (ranges : List MemoryRange) : Prop :=
  (usableRuns ranges).Pairwise fun r s => r.start ≤ s.start

instance (ranges : List MemoryRange) : Decidable (Ascending ranges) :=
  inferInstanceAs (Decidable (List.Pairwise _ _))

theorem mem_usableRuns {ranges : List MemoryRange} {run : FreeRange} :
    run ∈ usableRuns ranges ↔ ∃ r ∈ ranges, r.kind = .usable ∧ 0 < run.frames ∧
      run = ⟨r.start, r.length / PAGE_SIZE⟩ := by
  simp only [usableRuns, List.mem_filterMap, usableRun]
  refine exists_congr fun r => and_congr_right fun _ => ?_
  constructor
  · intro h
    split at h
    · next hguard =>
      obtain rfl := Option.some.inj h
      exact ⟨hguard.1, Nat.pos_of_ne_zero hguard.2, rfl⟩
    · simp at h
  · rintro ⟨hkind, hpos, rfl⟩
    rw [if_pos ⟨hkind, hpos.ne'⟩]

theorem usableRuns_sound {ranges : List MemoryRange}
    (h : ∀ r ∈ ranges, r.kind = .usable → r.start + r.length < 2 ^ 64) :
    ∀ r ∈ usableRuns ranges, r.Sound := by
  intro run hrun
  obtain ⟨r, hr, hkind, hpos, rfl⟩ := mem_usableRuns.mp hrun
  have hwhole := Nat.div_mul_le_self r.length PAGE_SIZE
  exact ⟨hpos, (Nat.add_le_add_left hwhole r.start).trans_lt (h r hr hkind)⟩

theorem SeparateMap.sound {ranges : List MemoryRange} (h : SeparateMap ranges) :
    ∀ r ∈ usableRuns ranges, r.Sound :=
  usableRuns_sound h.bounded

theorem UsableMap.start_dvd {ranges : List MemoryRange} (h : UsableMap ranges) :
    ∀ r ∈ usableRuns ranges, PAGE_SIZE ∣ r.start := by
  intro run hrun
  obtain ⟨r, hr, hkind, -, rfl⟩ := mem_usableRuns.mp hrun
  exact h.aligned r hr hkind

/-- A run lies inside the usable range it was made from. -/
theorem SeparateMap.contains_of_run {ranges : List MemoryRange} (h : SeparateMap ranges)
    {r : MemoryRange} {run : FreeRange} {x : Nat} (hr : r ∈ ranges) (hrun : usableRun r = some run)
    (hx : run.span.Contains x) : r.kind = .usable ∧ r.contains x := by
  rw [usableRun] at hrun
  split at hrun
  · next hguard =>
    obtain rfl := Option.some.inj hrun
    obtain ⟨hlo, hhi⟩ := hx
    simp only [FreeRange.span, FreeRange.stop] at hlo hhi
    have hwhole := Nat.div_mul_le_self r.length PAGE_SIZE
    have hlen : 0 < r.length := Nat.pos_of_ne_zero fun hzero => hguard.2 (by simp [hzero])
    have hsound : r.Sound := ⟨hlen, h.bounded r hr hguard.1⟩
    have hlt : x < r.start + r.length := hhi.trans_le (Nat.add_le_add_left hwhole r.start)
    exact ⟨hguard.1, (hsound.contains_iff x).mpr ⟨hlo, hlt⟩⟩
  · simp at hrun

theorem SeparateMap.runs_disjoint {ranges : List MemoryRange} (h : SeparateMap ranges) :
    (usableRuns ranges).Pairwise fun r s => ∀ x, ¬ (r.span.Contains x ∧ s.span.Contains x) := by
  have hpairs := List.pairwise_filter.mp h.disjoint
  refine List.pairwise_filterMap.mpr (hpairs.imp_of_mem ?_)
  intro r s hr hs hdisjoint run hrun run' hrun' x ⟨hx, hx'⟩
  obtain ⟨hkind, hcontains⟩ := h.contains_of_run hr hrun hx
  obtain ⟨hkind', hcontains'⟩ := h.contains_of_run hs hrun' hx'
  exact hdisjoint (by simpa using hkind) (by simpa using hkind') x ⟨hcontains, hcontains'⟩

theorem SeparateMap.ordered {ranges : List MemoryRange} (h : SeparateMap ranges)
    (hasc : Ascending ranges) : Span.Ordered (spansOf (usableRuns ranges)) := by
  refine List.pairwise_map.mpr ((h.runs_disjoint.and hasc).imp_of_mem ?_)
  rintro r s - hs ⟨hdisjoint, hle⟩
  have hpos := (h.sound s hs).1
  by_contra hlt
  refine hdisjoint s.start ⟨⟨hle, not_le.mp hlt⟩, le_rfl, ?_⟩
  simp only [FreeRange.span, FreeRange.stop, PAGE_SIZE]
  omega

theorem mem_span_of_mem_pages {r : FreeRange} {page : Nat} (h : page ∈ r.pages) :
    r.span.Contains page := by
  obtain ⟨k, hk, rfl⟩ := mem_pagesFrom.mp h
  simp only [Span.Contains, FreeRange.span, FreeRange.stop, PAGE_SIZE]
  omega

theorem UsableMap.pages_nodup {ranges : List MemoryRange} (h : UsableMap ranges) :
    (pagesOf (usableRuns ranges)).Nodup := by
  refine List.nodup_flatMap.mpr ⟨fun r _ => pagesFrom_nodup _ _, h.runs_disjoint.imp ?_⟩
  intro r s hdisjoint page hr hs
  exact hdisjoint page ⟨mem_span_of_mem_pages hr, mem_span_of_mem_pages hs⟩

theorem frame_in_span {r : FreeRange} {page a : Nat} (h : page ∈ r.pages) (hlo : page ≤ a)
    (hhi : a < page + PAGE_SIZE) : r.span.Contains a := by
  obtain ⟨k, hk, rfl⟩ := mem_pagesFrom.mp h
  simp only [Span.Contains, FreeRange.span, FreeRange.stop, PAGE_SIZE] at *
  omega

/-! ### Maps with disjoint ranges -/

theorem snapshot_length_le (s : MemoryMapSnapshot) : s.ranges.length ≤ MAX_MEMORY_RANGES := by
  rw [MemoryMapSnapshot.ranges, Table.length_entries]
  exact s.table.count_le

structure Separated (s : MemoryMapSnapshot) : Prop where
  wellFormed : s.WellFormed
  disjoint : Span.Disjointed s.spans

theorem Separated.separateMap {s : MemoryMapSnapshot} (h : Separated s) : SeparateMap s.ranges where
  length_le := snapshot_length_le s
  bounded := fun r hr _ => (h.wellFormed r hr).2
  disjoint := by
    have hpairs := (List.pairwise_map.mp h.disjoint).sublist
      (List.filter_sublist (p := fun r : MemoryRange => r.kind = .usable))
    refine hpairs.imp_of_mem fun {r q} hr hq hapart a ⟨ha, ha'⟩ => ?_
    have hsound := h.wellFormed r (List.mem_of_mem_filter hr)
    have hsound' := h.wellFormed q (List.mem_of_mem_filter hq)
    exact hapart a ((hsound.contains_iff a).mp ha) ((hsound'.contains_iff a).mp ha')

/-- In a separated map every range decides the kind of its own bytes. -/
theorem Separated.kindAt_of_contains {s : MemoryMapSnapshot} (h : Separated s) {r : MemoryRange}
    {a : Nat} (hr : r ∈ s.ranges) (ha : r.contains a) : s.kindAt a = some r.kind := by
  rw [MemoryMapSnapshot.kindAt]
  cases hfind : s.ranges.find? fun range => range.contains a with
  | none => exact absurd ha (by simpa using List.find?_eq_none.mp hfind r hr)
  | some q =>
    have hqa : q.contains a := by simpa using List.find?_some hfind
    have hq := List.mem_of_find?_eq_some hfind
    have : Std.Symm fun x y : MemoryRange => ∀ a, x.span.Contains a → ¬ y.span.Contains a :=
      ⟨fun x y hxy a hy hx => hxy a hx hy⟩
    by_cases hsame : q = r
    · rw [hsame]
      rfl
    · have hapart := (List.pairwise_map.mp h.disjoint).forall hq hr hsame a
      have hin := ((h.wellFormed q hq).contains_iff a).mp hqa
      exact absurd (((h.wellFormed r hr).contains_iff a).mp ha) (hapart hin)

theorem Separated.kindAt_of_run {s : MemoryMapSnapshot} (h : Separated s) {run : FreeRange}
    {a : Nat} (hrun : run ∈ usableRuns s.ranges) (ha : run.span.Contains a) :
    s.kindAt a = some .usable := by
  obtain ⟨r, hr, hsome⟩ := List.mem_filterMap.mp hrun
  obtain ⟨hkind, hcontains⟩ := h.separateMap.contains_of_run hr hsome ha
  rw [h.kindAt_of_contains hr hcontains, hkind]

end AgnostOS.Frame
