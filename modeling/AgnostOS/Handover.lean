import AgnostOS.Reservation

/-! The map the kernel owns after the firmware hands over: the checked copy of the
descriptors, the framebuffer, and the reservations made before the frame allocator
reads it. -/
namespace AgnostOS.Memory
open Globals Word

def MemoryDescriptor.range (d : MemoryDescriptor) : MemoryRange :=
  ⟨d.physStart, d.pageCount * PAGE_SIZE, d.ty, .fromUefiType d.ty⟩

namespace MemoryMapSnapshot

theorem wellFormed_push {s : MemoryMapSnapshot} (hs : s.WellFormed) {r : MemoryRange}
    (hr : r.Sound) (hroom : s.table.count < MAX_MEMORY_RANGES) :
    WellFormed ⟨s.table.push r hroom⟩ := by
  intro q hq
  rw [ranges, Table.entries_push, List.mem_append, List.mem_singleton] at hq
  rcases hq with hq | rfl
  · exact hs q hq
  · exact hr

/-- An accepted copy holds every descriptor, in order and checked. -/
theorem copyEntries_ok {entries : List MemoryDescriptor} {s t : MemoryMapSnapshot}
    (hs : s.WellFormed) (h : copyEntries entries s = .ok t) :
    t.ranges = s.ranges ++ entries.map MemoryDescriptor.range ∧ t.WellFormed := by
  induction entries generalizing s with
  | nil =>
    obtain rfl := Except.ok.inj h
    exact ⟨by simp, hs⟩
  | cons d rest ih =>
    rw [copyEntries] at h
    split at h
    · next hroom =>
      split at h
      · simp at h
      · next length hmul =>
        split at h
        · simp at h
        · next last hadd =>
          obtain ⟨hlt, rfl⟩ := checkedAdd_eq_some.mp hadd
          obtain ⟨-, rfl⟩ := checkedMul_eq_some.mp hmul
          split at h
          · simp at h
          · next hguard =>
            have hsound : d.range.Sound := ⟨by simp only [MemoryDescriptor.range]; omega, hlt⟩
            obtain ⟨hranges, hwell⟩ := ih (wellFormed_push hs hsound hroom) h
            refine ⟨?_, hwell⟩
            rw [hranges, ranges, Table.entries_push, List.append_assoc]
            rfl
    · simp at h

theorem copyFrom_ok {entries : List MemoryDescriptor} {s : MemoryMapSnapshot}
    (h : copyFrom entries = .ok s) :
    s.ranges = entries.map MemoryDescriptor.range ∧ s.WellFormed := by
  obtain ⟨t, hcopy, hrest⟩ := Attempt.exists_of_bind_eq_ok h
  split at hrest
  · simp at hrest
  · obtain rfl := Except.ok.inj hrest
    have hempty : WellFormed ⟨Table.empty .empty⟩ := by simp [WellFormed, ranges]
    exact copyEntries_ok hempty hcopy

/-- `reserve_range` reports a missing range only when the request meets none. -/
theorem apart_of_rangeNotFound {s u : MemoryMapSnapshot} (hs : s.WellFormed) {start length : Nat}
    {kind : MemoryKind} (h : s.reserveRange start length kind = (.error .rangeNotFound, u)) :
    ∀ x ∈ s.ranges, x.stop ≤ start ∨ start + length ≤ x.start := by
  rw [reserveRange] at h
  split at h
  · simp at h
  · next last hadd =>
    obtain ⟨-, rfl⟩ := checkedAdd_eq_some.mp hadd
    split at h
    · simp at h
    · next hguard =>
      have hlt : start < start + length := by omega
      split at h
      · next error hsplit =>
        have hfills := splitRanges_fills hlt kind hs (Table.empty .empty) false
        rw [hsplit] at hfills
        obtain rfl : error = .rangeNotFound := by simpa using congrArg Prod.fst h
        cases hfills.1
      · next hsplit =>
        have hflag := splitRanges_flag hlt kind hs _ _ hsplit
        intro x hx
        by_contra hmeet
        have hany : s.ranges.any (overlaps start (start + length)) = true :=
          List.any_eq_true.mpr ⟨x, hx, decide_eq_true hmeet⟩
        rw [hany] at hflag
        cases hflag
      · simp at h

def Withheld (s : MemoryMapSnapshot) (start length : Nat) : Prop :=
  ∀ a, start ≤ a → a < start + length → s.kindAt a ≠ some .usable

/-- Bytes once withheld stay so under reservations that give nothing away. -/
theorem Withheld.reserve {s t : MemoryMapSnapshot} {start length : Nat}
    (h : s.Withheld start length) {r : Request} (hkind : r.kind ≠ .usable)
    (ht : t.kindAt = reclassify r s.kindAt) : t.Withheld start length := by
  intro a hlo hhi
  rw [ht, reclassify]
  split
  · simpa using hkind
  · exact h a hlo hhi

theorem withheld_of_reserve {s t : MemoryMapSnapshot} {r : Request} (hkind : r.kind ≠ .usable)
    (ht : t.kindAt = reclassify r s.kindAt) : t.Withheld r.start r.length := by
  intro a hlo hhi
  rw [ht, reclassify]
  by_cases hcovered : (s.kindAt a).isSome
  · rw [if_pos ⟨hlo, hhi, hcovered⟩]
    simpa using hkind
  · rw [if_neg fun hin => hcovered hin.2.2]
    intro husable
    simp [husable] at hcovered

theorem Withheld.not_usable {s : MemoryMapSnapshot} {start length a : Nat}
    (h : s.Withheld start length) (ha : s.kindAt a = some .usable) :
    ¬ (start ≤ a ∧ a < start + length) :=
  fun hin => h a hin.1 hin.2 ha

theorem addExternalRange_ok {s t : MemoryMapSnapshot} {start length : Nat} {kind : MemoryKind}
    (h : s.addExternalRange start length kind = (.ok (), t)) :
    t.ranges = s.ranges ++ [⟨start, length, .mmio, kind⟩] ∧
      MemoryRange.Sound ⟨start, length, .mmio, kind⟩ := by
  rw [addExternalRange] at h
  split at h
  · simp at h
  · next last hadd =>
    obtain ⟨hfits, rfl⟩ := checkedAdd_eq_some.mp hadd
    split at h
    · simp at h
    · next hguard =>
      obtain rfl := (Prod.mk.inj h).2
      refine ⟨Table.entries_push _ _ _, ?_, hfits⟩
      show 0 < length
      omega

end MemoryMapSnapshot

open MemoryMapSnapshot

structure HandedOver (entries : List MemoryDescriptor) (framebuffer : Option (Nat × Nat))
    (t : MemoryMapSnapshot) : Prop where
  wellFormed : t.WellFormed
  disjoint : Span.Disjointed (entries.map fun d => d.range.span) → Span.Disjointed t.spans
  withheld : ∀ range, framebuffer = some range → t.Withheld range.1 range.2
  starts : ∀ r ∈ t.ranges, (∃ d ∈ entries, r.start = d.physStart) ∨
    ∃ range, framebuffer = some range ∧ (r.start = range.1 ∨ r.start = range.1 + range.2)

theorem handedOver_of_copy {entries : List MemoryDescriptor} {s : MemoryMapSnapshot}
    (h : copyFrom entries = .ok s) : HandedOver entries none s := by
  obtain ⟨hranges, hwell⟩ := copyFrom_ok h
  refine ⟨hwell, fun hd => ?_, by simp, fun r hr => ?_⟩
  · rw [spans, hranges, List.map_map]
    exact hd
  · rw [hranges] at hr
    obtain ⟨d, hd, rfl⟩ := List.mem_map.mp hr
    exact .inl ⟨d, hd, rfl⟩

theorem HandedOver.framebuffer_reserved {entries : List MemoryDescriptor} {s t : MemoryMapSnapshot}
    {r : Request} (h : HandedOver entries none s) (hkind : r.kind ≠ .usable)
    (hacc : s.Accepts r) (ht : t.ranges = s.splitTable r) :
    HandedOver entries (some (r.start, r.length)) t where
  wellFormed := (sameMemory_of_splitTable h.wellFormed hacc.nonempty ht).wellFormed
  disjoint hd := (sameMemory_of_splitTable h.wellFormed hacc.nonempty ht).disjoint (h.disjoint hd)
  withheld := by
    rintro _ ⟨⟩
    exact withheld_of_reserve hkind (kindAt_of_splitTable h.wellFormed hacc.nonempty ht)
  starts := by
    intro p hp
    rw [ht, splitTable, List.mem_flatMap] at hp
    obtain ⟨x, hx, hp⟩ := hp
    rcases MemoryRange.start_of_mem_pieces hp with hstart | hstart | hstart
    · rcases h.starts x hx with ⟨d, hd, hxd⟩ | ⟨range, hrange, -⟩
      · exact .inl ⟨d, hd, hstart.trans hxd⟩
      · simp at hrange
    · exact .inr ⟨_, rfl, .inl hstart⟩
    · exact .inr ⟨_, rfl, .inr hstart⟩

theorem HandedOver.framebuffer_added {entries : List MemoryDescriptor} {s t : MemoryMapSnapshot}
    {start length : Nat} {kind : MemoryKind} (h : HandedOver entries none s)
    (hkind : kind ≠ .usable) (hapart : ∀ x ∈ s.ranges, x.stop ≤ start ∨ start + length ≤ x.start)
    (hadd : s.addExternalRange start length kind = (.ok (), t)) :
    HandedOver entries (some (start, length)) t := by
  obtain ⟨hranges, hsound⟩ := addExternalRange_ok hadd
  have hwell : t.WellFormed := by
    intro r hr
    rw [hranges, List.mem_append, List.mem_singleton] at hr
    rcases hr with hr | rfl
    · exact h.wellFormed r hr
    · exact hsound
  refine ⟨hwell, fun hd => ?_, ?_, fun r hr => ?_⟩
  · rw [spans, hranges, List.map_append]
    refine List.pairwise_append.mpr ⟨h.disjoint hd, List.pairwise_singleton _ _, ?_⟩
    intro x hx y hy a hin hin'
    obtain ⟨hlo, hhi⟩ := hin
    obtain ⟨hlo', hhi'⟩ := hin'
    obtain ⟨r, hr, rfl⟩ := List.mem_map.mp hx
    obtain rfl := List.mem_singleton.mp hy
    have hap := hapart r hr
    simp only [MemoryRange.span, MemoryRange.stop] at *
    omega
  · rintro _ ⟨⟩ a hlo hhi husable
    -- the search passes every firmware range and stops at the appended one
    obtain ⟨r, hfind, hrkind⟩ := Option.map_eq_some_iff.mp husable
    have hcontains : r.contains a := by simpa using List.find?_some hfind
    have hmem := List.mem_of_find?_eq_some hfind
    rw [hranges, List.mem_append, List.mem_singleton] at hmem
    rcases hmem with hmem | rfl
    · obtain ⟨hrlo, hrhi⟩ := ((h.wellFormed r hmem).contains_iff a).mp hcontains
      have hap := hapart r hmem
      simp only [MemoryRange.span, MemoryRange.stop] at *
      omega
    · exact hkind hrkind
  · rw [hranges, List.mem_append, List.mem_singleton] at hr
    rcases hr with hr | rfl
    · rcases h.starts r hr with hd | ⟨range, hrange, -⟩
      · exact .inl hd
      · simp at hrange
    · exact .inr ⟨_, rfl, .inl rfl⟩

theorem initializeMap_ok {map map' : MemoryMap} {entries : List MemoryDescriptor}
    {framebuffer : Option (Nat × Nat)}
    (h : initializeMap map entries framebuffer = (.ok (), map')) :
    ∃ t, map' = some t ∧ HandedOver entries framebuffer t := by
  cases map with
  | some s => simp [initializeMap] at h
  | none =>
    simp only [initializeMap] at h
    split at h
    · simp at h
    · next s hcopy =>
      have hs := handedOver_of_copy hcopy
      split at h
      · exact ⟨s, (Prod.mk.inj h).2.symm, hs⟩
      · next start length =>
        have hcases := reserveRequest_cases hs.wellFormed ⟨start, length, .device⟩
        simp only [reserveRequest] at hcases
        split at h
        · next t hreserve =>
          refine ⟨t, (Prod.mk.inj h).2.symm, ?_⟩
          rcases hcases with ⟨hacc, u, hok, hu⟩ | ⟨-, error, herror⟩
          · obtain rfl : t = u := (Prod.mk.inj (hreserve.symm.trans hok)).2
            exact hs.framebuffer_reserved (r := ⟨start, length, .device⟩) (by simp) hacc hu
          · simp [hreserve] at herror
        · next u hreserve =>
          have hapart := apart_of_rangeNotFound hs.wellFormed hreserve
          have hsame : u = s := by
            rcases hcases with ⟨-, v, hok, -⟩ | ⟨-, error, herror⟩
            · simp [hreserve] at hok
            · exact (Prod.mk.inj (hreserve.symm.trans herror)).2
          subst hsame
          split at h
          · next t hadd =>
            refine ⟨t, (Prod.mk.inj h).2.symm, ?_⟩
            exact hs.framebuffer_added (by simp) hapart hadd
          · simp at h
        · simp at h

theorem initializeMap_error {map map' : MemoryMap} {entries : List MemoryDescriptor}
    {framebuffer : Option (Nat × Nat)} {error : MemoryMapError}
    (h : initializeMap map entries framebuffer = (.error error, map')) : map' = map := by
  unfold initializeMap at h
  split at h
  · exact (Prod.mk.inj h).2.symm
  · split at h
    · exact (Prod.mk.inj h).2.symm
    · split at h
      · simp at h
      · split at h
        · simp at h
        · split at h
          · simp at h
          · exact (Prod.mk.inj h).2.symm
        · exact (Prod.mk.inj h).2.symm

/-- The map as `frame::initialize` finds it: handed over, then cut by reservations. -/
def prepared (entries : List MemoryDescriptor) (framebuffer : Option (Nat × Nat))
    (requests : List Request) : MemoryMap :=
  requests.foldl (fun map r => (reserve map r.start r.length r.kind).2)
    (initializeMap none entries framebuffer).2

theorem foldl_reserve (requests : List Request) (map : MemoryMap) :
    requests.foldl (fun map r => (reserve map r.start r.length r.kind).2) map =
      map.map fun s => s.reserveAll requests := by
  induction requests generalizing map with
  | nil => cases map <;> rfl
  | cons r rest ih =>
    rw [List.foldl_cons, ih]
    cases map <;> rfl

theorem prepared_eq_some {entries : List MemoryDescriptor} {framebuffer : Option (Nat × Nat)}
    {requests : List Request} {s : MemoryMapSnapshot}
    (h : prepared entries framebuffer requests = some s) :
    ∃ t, HandedOver entries framebuffer t ∧ s = t.reserveAll requests := by
  rw [prepared, foldl_reserve] at h
  obtain ⟨t, hmap, rfl⟩ := Option.map_eq_some_iff.mp h
  cases hinit : initializeMap none entries framebuffer with
  | mk result map =>
    rw [hinit] at hmap
    cases result with
    | ok _ =>
      obtain ⟨u, hu, hover⟩ := initializeMap_ok hinit
      obtain rfl : u = t := Option.some.inj (hu.symm.trans hmap)
      exact ⟨u, hover, rfl⟩
    | error e =>
      rw [initializeMap_error hinit] at hmap
      simp at hmap

theorem prepared_wellFormed {entries : List MemoryDescriptor} {framebuffer : Option (Nat × Nat)}
    {requests : List Request} {s : MemoryMapSnapshot}
    (h : prepared entries framebuffer requests = some s) : s.WellFormed := by
  obtain ⟨t, hover, rfl⟩ := prepared_eq_some h
  exact (reserveAll_refines hover.wellFormed requests).2.wellFormed

end AgnostOS.Memory
