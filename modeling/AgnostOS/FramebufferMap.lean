import AgnostOS.Handover

/-! What `initialize` makes of the framebuffer: the request is cut out of the firmware map
when it meets any descriptor, and appended as a range of its own when it meets none. -/
namespace AgnostOS.Memory
open MemoryMapSnapshot

/-- The classification by the firmware map alone. -/
def firmwareKindAt (entries : List MemoryDescriptor) (a : Nat) : Option MemoryKind :=
  ((entries.map MemoryDescriptor.range).find? fun r => r.contains a).map MemoryRange.kind

def Described (entries : List MemoryDescriptor) (a : Nat) : Prop :=
  (firmwareKindAt entries a).isSome

theorem kindAt_of_copyFrom {entries : List MemoryDescriptor} {s : MemoryMapSnapshot}
    (h : copyFrom entries = .ok s) : s.kindAt = firmwareKindAt entries := by
  funext a
  rw [kindAt, (copyFrom_ok h).1, firmwareKindAt]

/-- A range met by none of the others decides exactly its own addresses. -/
theorem kindAt_of_addExternalRange {s t : MemoryMapSnapshot} (hs : s.WellFormed)
    {start length : Nat} {kind : MemoryKind}
    (hapart : ∀ x ∈ s.ranges, x.stop ≤ start ∨ start + length ≤ x.start)
    (h : s.addExternalRange start length kind = (.ok (), t)) (a : Nat) :
    t.kindAt a = if start ≤ a ∧ a < start + length then some kind else s.kindAt a := by
  have hadded := addExternalRange_ok h
  have hlast : (MemoryRange.mk start length .mmio kind).contains a = true ↔
      start ≤ a ∧ a < start + length := hadded.2.contains_iff a
  rw [kindAt, kindAt, hadded.1, List.find?_append]
  by_cases hin : start ≤ a ∧ a < start + length
  · have hnone : (s.ranges.find? fun r => r.contains a) = none := by
      apply List.find?_eq_none.mpr
      intro x hx hxa
      have hcontains := ((hs x hx).contains_iff a).mp hxa
      have hside := hapart x hx
      simp only [Span.Contains, MemoryRange.span] at hcontains
      omega
    simp [hin, hnone, hlast.mpr hin]
  · have hmiss : (MemoryRange.mk start length .mmio kind).contains a = false :=
      Bool.eq_false_iff.mpr fun hc => hin (hlast.mp hc)
    simp [hin, hmiss]

section View
variable {entries : List MemoryDescriptor} {s : MemoryMapSnapshot} {start length : Nat}

theorem described_of_meets (hs : s.WellFormed) (hview : s.kindAt = firmwareKindAt entries)
    (hlength : 0 < length) {x : MemoryRange} (hx : x ∈ s.ranges) (hlo : x.start < start + length)
    (hhi : start < x.stop) : ∃ a, start ≤ a ∧ a < start + length ∧ Described entries a := by
  have hlen : 0 < x.length := (hs x hx).1
  have hstop : x.stop = x.start + x.length := rfl
  refine ⟨max start x.start, le_max_left _ _, by omega, ?_⟩
  rw [Described, ← hview, ← covers_iff_kindAt hs]
  refine ⟨x.span, List.mem_map_of_mem hx, le_max_right _ _, ?_⟩
  simp only [MemoryRange.span]
  omega

theorem not_described_of_apart (hs : s.WellFormed) (hview : s.kindAt = firmwareKindAt entries)
    (hapart : ∀ x ∈ s.ranges, x.stop ≤ start ∨ start + length ≤ x.start) (a : Nat)
    (hlo : start ≤ a) (hhi : a < start + length) : ¬ Described entries a := by
  rw [Described, ← hview, ← covers_iff_kindAt hs]
  rintro ⟨r, hr, hra⟩
  obtain ⟨x, hx, rfl⟩ := List.mem_map.mp hr
  have hside := hapart x hx
  simp only [Span.Contains, MemoryRange.span] at hra
  omega

/-- The two maps `initialize` can leave around a framebuffer. -/
theorem initializeMap_view {map : MemoryMap} {t : MemoryMapSnapshot}
    (h : initializeMap map entries (some (start, length)) = (.ok (), some t)) :
    (∃ a, start ≤ a ∧ a < start + length ∧ Described entries a) ∧
      t.kindAt = reclassify ⟨start, length, .device⟩ (firmwareKindAt entries) ∨
    (∀ a, start ≤ a → a < start + length → ¬ Described entries a) ∧
      ∀ a, t.kindAt a =
        if start ≤ a ∧ a < start + length then some .device else firmwareKindAt entries a := by
  cases map with
  | some s => simp [initializeMap] at h
  | none =>
    simp only [initializeMap] at h
    split at h
    · simp at h
    · next s hcopy =>
      have hwell := (copyFrom_ok hcopy).2
      have hview := kindAt_of_copyFrom hcopy
      have hcases := reserveRequest_cases hwell ⟨start, length, .device⟩
      simp only [reserveRequest] at hcases
      split at h
      · next u hreserve =>
        left
        have hut : u = t := Option.some.inj (Prod.mk.inj h).2
        cases hcases with
        | inl hdone =>
          obtain ⟨hacc, v, hok, hv⟩ := hdone
          have huv : u = v := (Prod.mk.inj (hreserve.symm.trans hok)).2
          obtain ⟨x, hx, hlo, hhi⟩ := hacc.meets
          rw [← hut, huv, kindAt_of_splitTable hwell hacc.nonempty hv, hview]
          exact ⟨described_of_meets hwell hview hacc.nonempty hx hlo hhi, rfl⟩
        | inr hrefused =>
          obtain ⟨-, error, herror⟩ := hrefused
          simp [hreserve] at herror
      · next u hreserve =>
        right
        have hapart := apart_of_rangeNotFound hwell hreserve
        have hus : u = s := by
          cases hcases with
          | inl hdone =>
            obtain ⟨-, v, hok, -⟩ := hdone
            simp [hreserve] at hok
          | inr hrefused =>
            obtain ⟨-, error, herror⟩ := hrefused
            exact (Prod.mk.inj (hreserve.symm.trans herror)).2
        subst hus
        split at h
        · next v hadd =>
          have hvt : v = t := Option.some.inj (Prod.mk.inj h).2
          rw [← hvt, ← hview]
          exact ⟨not_described_of_apart hwell hview hapart,
            kindAt_of_addExternalRange hwell hapart hadd⟩
        · simp at h
      · simp at h

end View

structure FramebufferMapped (entries : List MemoryDescriptor) (start length : Nat)
    (t : MemoryMapSnapshot) : Prop where
  device : ∀ a, start ≤ a → a < start + length → t.kindAt a = some .device
  others : ∀ a, ¬ (start ≤ a ∧ a < start + length) → t.kindAt a = firmwareKindAt entries a
  disjoint : Span.Disjointed t.spans

/-- An accepted framebuffer is device memory throughout exactly when it does not straddle the
edge of the described memory. -/
theorem framebufferMapped_iff {map : MemoryMap} {entries : List MemoryDescriptor}
    {start length : Nat} {t : MemoryMapSnapshot}
    (hd : Span.Disjointed (entries.map fun d => d.range.span))
    (h : initializeMap map entries (some (start, length)) = (.ok (), some t)) :
    FramebufferMapped entries start length t ↔
      (∀ a, start ≤ a → a < start + length → Described entries a) ∨
      (∀ a, start ≤ a → a < start + length → ¬ Described entries a) := by
  have hdisjoint : Span.Disjointed t.spans := by
    obtain ⟨u, hu, hover⟩ := initializeMap_ok h
    rw [Option.some.inj hu]
    exact hover.disjoint hd
  cases initializeMap_view h with
  | inl hinside =>
    obtain ⟨⟨b, hlo, hhi, hdescribed⟩, hview⟩ := hinside
    constructor
    · intro hmapped
      left
      intro a halo hahi
      by_contra hnot
      have hdevice := hmapped.device a halo hahi
      rw [hview, reclassify, if_neg fun hin => hnot hin.2.2] at hdevice
      exact hnot (by simp [Described, hdevice])
    · intro hcovered
      refine ⟨fun a halo hahi => ?_, fun a hout => ?_, hdisjoint⟩
      · cases hcovered with
        | inl hall => rw [hview, reclassify, if_pos ⟨halo, hahi, hall a halo hahi⟩]
        | inr hnone => exact absurd hdescribed (hnone b hlo hhi)
      · rw [hview, reclassify, if_neg fun hin => hout ⟨hin.1, hin.2.1⟩]
  | inr houtside =>
    obtain ⟨hnone, hview⟩ := houtside
    constructor
    · intro _
      exact .inr hnone
    · intro _
      refine ⟨fun a halo hahi => ?_, fun a hout => ?_, hdisjoint⟩
      · rw [hview, if_pos ⟨halo, hahi⟩]
      · rw [hview, if_neg hout]

theorem framebuffer_inside_one_descriptor :
    ∃ t, initializeMap none [⟨.conventional, 0x1000, 1⟩, ⟨.reserved, 0x80000000, 4⟩]
        (some (0x80000000, 0x2000)) = (.ok (), some t) ∧
      FramebufferMapped [⟨.conventional, 0x1000, 1⟩, ⟨.reserved, 0x80000000, 4⟩]
        0x80000000 0x2000 t := by
  refine ⟨_, rfl, (@framebufferMapped_iff none _ _ _ _ ?_ rfl).mpr (.inl fun a hlo hhi => ?_)⟩
  · refine List.pairwise_pair.mpr fun a hfirst hsecond => ?_
    simp only [Span.Contains, MemoryRange.span, MemoryRange.stop, MemoryDescriptor.range,
      Globals.PAGE_SIZE] at hfirst hsecond
    omega
  · simp [Described, firmwareKindAt, MemoryDescriptor.range, MemoryRange.contains,
      MemoryRange.end, Word.saturatingAdd, Globals.PAGE_SIZE]
    omega

/-- The second page of the framebuffer lies past the only descriptor that it meets: it is in
no range of the map at all. -/
theorem framebuffer_past_its_descriptor :
    ∃ t, initializeMap none [⟨.mmio, 0x80000000, 1⟩] (some (0x80000000, 0x2000)) =
        (.ok (), some t) ∧
      Span.Disjointed ([(⟨.mmio, 0x80000000, 1⟩ : MemoryDescriptor)].map fun d => d.range.span) ∧
      t.kindAt 0x80001000 = none ∧
      ¬ FramebufferMapped [⟨.mmio, 0x80000000, 1⟩] 0x80000000 0x2000 t := by
  refine ⟨_, rfl, List.pairwise_singleton _ _, by decide, fun hmapped => ?_⟩
  have hdevice := hmapped.device 0x80001000 (by decide) (by decide)
  revert hdevice
  decide

end AgnostOS.Memory
