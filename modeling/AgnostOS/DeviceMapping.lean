import AgnostOS.FramebufferMap
import AgnostOS.Paging
import Mathlib.Data.List.Find

/-! Device pages: `map_device_page` looks at the first byte of a page, so it maps device
memory only while no reservation leaves a page device at its first byte alone. -/
namespace AgnostOS.Paging
open Globals Memory MemoryMapSnapshot Attempt

section Calls
variable (mappers : Mappers) (storage : Storage)

def kindAt (map : MemoryMap) (address : Nat) : Option MemoryKind :=
  map.bind fun snapshot => snapshot.kindAt address

def deviceCheck (map : MemoryMap) (physicalAddress : Nat) : Except PagingError Unit :=
  if ¬ PAGE_SIZE ∣ physicalAddress then .error (.range .misaligned)
  else if kindAt map physicalAddress ≠ some .device then .error .notDeviceMemory
  else .ok ()

end Calls

theorem deviceCheck_ok_iff {map : MemoryMap} {physicalAddress : Nat} :
    deviceCheck map physicalAddress = .ok () ↔
      PAGE_SIZE ∣ physicalAddress ∧ kindAt map physicalAddress = some .device := by
  rw [deviceCheck]
  by_cases haligned : PAGE_SIZE ∣ physicalAddress <;>
    by_cases hkind : kindAt map physicalAddress = some .device <;> simp [haligned, hkind]

def DeviceOnly (map : MemoryMap) : Prop :=
  ∀ physicalAddress, deviceCheck map physicalAddress = .ok () →
    ∀ a, physicalAddress ≤ a → a < physicalAddress + PAGE_SIZE → kindAt map a = some .device

def DevicePages (view : Nat → Option MemoryKind) : Prop :=
  ∀ page, PAGE_SIZE ∣ page → view page = some .device →
    ∀ a, page ≤ a → a < page + PAGE_SIZE → view a = some .device

def WholePages (view : Nat → Option MemoryKind) : Prop :=
  ∀ page, PAGE_SIZE ∣ page → (view page).isSome →
    ∀ a, page ≤ a → a < page + PAGE_SIZE → (view a).isSome

theorem deviceOnly_some_iff {s : MemoryMapSnapshot} : DeviceOnly (some s) ↔ DevicePages s.kindAt := by
  simp only [DeviceOnly, DevicePages, deviceCheck_ok_iff, and_imp]
  rfl

/-- The request leaves a page device at its first byte alone: a device request that ends
inside a described page whose rest is something else, or another request that starts inside
a device page. -/
def CutsDevicePage (view : Nat → Option MemoryKind) (r : Request) : Prop :=
  let stop := r.start + r.length
  if r.kind = .device then
    ¬ PAGE_SIZE ∣ stop ∧ r.start ≤ containingAddress stop ∧
      (view (containingAddress stop)).isSome ∧
      ∃ a, stop ≤ a ∧ a < containingAddress stop + PAGE_SIZE ∧ view a ≠ some .device
  else
    ¬ PAGE_SIZE ∣ r.start ∧ view (containingAddress r.start) = some .device

theorem containingAddress_bounds (a : Nat) :
    PAGE_SIZE ∣ containingAddress a ∧ containingAddress a ≤ a ∧
      a < containingAddress a + PAGE_SIZE := by
  simp only [containingAddress, PAGE_SIZE]
  omega

theorem eq_containingAddress {page a : Nat} (hpage : PAGE_SIZE ∣ page) (hlo : page ≤ a)
    (hhi : a < page + PAGE_SIZE) : page = containingAddress a := by
  simp only [containingAddress, PAGE_SIZE] at *
  omega

theorem isSome_reclassify (r : Request) (view : Nat → Option MemoryKind) (a : Nat) :
    (reclassify r view a).isSome = (view a).isSome := by
  rw [reclassify]
  split
  · next hin => rw [hin.2.2, Option.isSome_some]
  · rfl

theorem WholePages.reclassify {view : Nat → Option MemoryKind} (h : WholePages view)
    (r : Request) : WholePages (reclassify r view) := by
  intro page hpage hsome a hlo hhi
  rw [isSome_reclassify] at hsome ⊢
  exact h page hpage hsome a hlo hhi

section Step
variable {view : Nat → Option MemoryKind} {r : Request}

theorem reclassify_inside {a : Nat} (hlo : r.start ≤ a) (hhi : a < r.start + r.length)
    (hsome : (view a).isSome) : reclassify r view a = some r.kind := by
  rw [MemoryMapSnapshot.reclassify, if_pos ⟨hlo, hhi, hsome⟩]

theorem reclassify_outside {a : Nat} (hout : a < r.start ∨ r.start + r.length ≤ a) :
    reclassify r view a = view a := by
  rw [MemoryMapSnapshot.reclassify, if_neg (by omega)]

theorem devicePages_of_uncut (hwhole : WholePages view) (hdevice : DevicePages view)
    (huncut : ¬ CutsDevicePage view r) : DevicePages (reclassify r view) := by
  intro page hpage hfirst a hlo hhi
  have hsome : (view page).isSome := by
    rw [← isSome_reclassify r, hfirst, Option.isSome_some]
  have hall := hwhole page hpage hsome a hlo hhi
  by_cases hkind : r.kind = .device
  · rw [CutsDevicePage, if_pos hkind] at huncut
    by_cases hin : r.start ≤ a ∧ a < r.start + r.length
    · rw [reclassify_inside hin.1 hin.2 hall, hkind]
    · rw [reclassify_outside (by omega)]
      by_cases hfirstin : r.start ≤ page ∧ page < r.start + r.length
      · -- the request ends inside this page: what it leaves was device before
        have hstop : page = containingAddress (r.start + r.length) :=
          eq_containingAddress hpage (by omega) (by omega)
        have hnot : ¬ PAGE_SIZE ∣ r.start + r.length := by
          simp only [PAGE_SIZE] at *
          omega
        by_contra hother
        apply huncut
        rw [← hstop]
        exact ⟨hnot, hfirstin.1, hsome, a, by omega, hhi, hother⟩
      · rw [reclassify_outside (by omega)] at hfirst
        exact hdevice page hpage hfirst a hlo hhi
  · rw [CutsDevicePage, if_neg hkind] at huncut
    by_cases hfirstin : r.start ≤ page ∧ page < r.start + r.length
    · rw [reclassify_inside hfirstin.1 hfirstin.2 hsome] at hfirst
      exact absurd (Option.some.inj hfirst) hkind
    · rw [reclassify_outside (by omega)] at hfirst
      by_cases hin : r.start ≤ a ∧ a < r.start + r.length
      · -- the request would start inside this page
        have hstart : page = containingAddress r.start :=
          eq_containingAddress hpage (by omega) (by omega)
        have hnot : ¬ PAGE_SIZE ∣ r.start := by
          simp only [PAGE_SIZE] at *
          omega
        exact absurd ⟨hnot, hstart ▸ hfirst⟩ huncut
      · rw [reclassify_outside (by omega)]
        exact hdevice page hpage hfirst a hlo hhi

theorem not_devicePages_of_cut (hwhole : WholePages view) (hlen : 0 < r.length)
    (hcut : CutsDevicePage view r) : ¬ DevicePages (reclassify r view) := by
  intro hafter
  by_cases hkind : r.kind = .device
  · rw [CutsDevicePage, if_pos hkind] at hcut
    obtain ⟨hnot, hstart, hsome, a, hlo, hhi, hother⟩ := hcut
    obtain ⟨hpage, hle, hlt⟩ := containingAddress_bounds (r.start + r.length)
    have hbelow : containingAddress (r.start + r.length) < r.start + r.length := by
      apply Nat.lt_of_le_of_ne hle
      intro heq
      exact hnot (heq ▸ hpage)
    have hfirst := reclassify_inside hstart hbelow hsome
    rw [hkind] at hfirst
    have hlast := hafter _ hpage hfirst a (by omega) hhi
    rw [reclassify_outside (.inr hlo)] at hlast
    exact hother hlast
  · rw [CutsDevicePage, if_neg hkind] at hcut
    obtain ⟨hpage, hle, hlt⟩ := containingAddress_bounds r.start
    have hbelow : containingAddress r.start < r.start := by
      apply Nat.lt_of_le_of_ne hle
      intro heq
      exact hcut.1 (heq ▸ hpage)
    have hsome := hwhole _ hpage (by rw [hcut.2, Option.isSome_some]) r.start hle hlt
    have hstart := hafter _ hpage (by rw [reclassify_outside (.inl hbelow), hcut.2]) r.start hle hlt
    rw [reclassify_inside le_rfl (by omega) hsome] at hstart
    exact hkind (Option.some.inj hstart)

/-- One accepted reservation keeps every device page whole exactly when it cuts none. -/
theorem devicePages_reclassify_iff (hwhole : WholePages view) (hdevice : DevicePages view)
    (hlen : 0 < r.length) : DevicePages (reclassify r view) ↔ ¬ CutsDevicePage view r := by
  constructor
  · intro hafter hcut
    exact not_devicePages_of_cut hwhole hlen hcut hafter
  · exact devicePages_of_uncut hwhole hdevice

end Step

def Uncut : MemoryMapSnapshot → List Request → Prop
  | _, [] => True
  | s, r :: rest => (s.Accepts r → ¬ CutsDevicePage s.kindAt r) ∧ Uncut (s.reserveRequest r).2 rest

theorem forall_prefix_cons {P : List Request → Prop} {r : Request} {rest : List Request} :
    (∀ before, before <+: r :: rest → P before) ↔
      P [] ∧ ∀ before, before <+: rest → P (r :: before) := by
  constructor
  · intro h
    exact ⟨h [] (List.nil_prefix), fun before hb => h _ (List.cons_prefix_cons.mpr ⟨rfl, hb⟩)⟩
  · rintro ⟨hnil, hcons⟩ before hb
    cases before with
    | nil => exact hnil
    | cons q before =>
      obtain ⟨rfl, hrest⟩ := List.cons_prefix_cons.mp hb
      exact hcons before hrest

theorem devicePages_reserveAll_iff {s : MemoryMapSnapshot} (hs : s.WellFormed)
    (hwhole : WholePages s.kindAt) (hdevice : DevicePages s.kindAt) (requests : List Request) :
    (∀ before, before <+: requests → DevicePages (s.reserveAll before).kindAt) ↔
      Uncut s requests := by
  induction requests generalizing s with
  | nil =>
    refine ⟨fun _ => trivial, fun _ before hb => ?_⟩
    rw [List.prefix_nil.mp hb]
    exact hdevice
  | cons r rest ih =>
    rw [forall_prefix_cons, Uncut]
    have hstep : ∀ before, s.reserveAll (r :: before) = (s.reserveRequest r).2.reserveAll before :=
      fun _ => rfl
    simp only [hstep]
    cases reserveRequest_cases hs r with
    | inl haccepted =>
      obtain ⟨hacc, t, heq, ht⟩ := haccepted
      have hview := kindAt_of_splitTable hs hacc.nonempty ht
      have hsame := sameMemory_of_splitTable hs hacc.nonempty ht
      have hone := devicePages_reclassify_iff hwhole hdevice hacc.nonempty
      have hwhole' : WholePages t.kindAt := hview ▸ hwhole.reclassify r
      rw [← hview] at hone
      rw [heq]
      constructor
      · rintro ⟨-, hrest⟩
        have hafter : DevicePages t.kindAt := hrest [] List.nil_prefix
        exact ⟨fun _ => hone.mp hafter, (ih hsame.wellFormed hwhole' hafter).mp hrest⟩
      · rintro ⟨huncut, hrest⟩
        have hafter : DevicePages t.kindAt := hone.mpr (huncut hacc)
        exact ⟨hdevice, (ih hsame.wellFormed hwhole' hafter).mpr hrest⟩
    | inr hrefused =>
      obtain ⟨hrej, error, heq⟩ := hrefused
      rw [heq, ih hs hwhole hdevice]
      simp only [hrej, false_implies, true_and, and_iff_right_iff_imp]
      exact fun _ => hdevice

/-! ### The map that `initialize` builds -/

/-- The framebuffer ends at the end of a page, or leaves no page device at its first byte
alone. -/
def FramebufferFits (entries : List MemoryDescriptor) : Option (Nat × Nat) → Prop
  | none => True
  | some (start, length) =>
    ((∃ a, start ≤ a ∧ a < start + length ∧ Described entries a) →
      ¬ CutsDevicePage (firmwareKindAt entries) ⟨start, length, .device⟩) ∧
    ((∀ a, start ≤ a → a < start + length → ¬ Described entries a) →
      PAGE_SIZE ∣ start + length ∨ containingAddress (start + length) < start)

theorem sound_of_initializeMap {entries : List MemoryDescriptor}
    {framebuffer : Option (Nat × Nat)} {map : MemoryMap}
    (h : initializeMap none entries framebuffer = (.ok (), map)) :
    ∀ r ∈ entries.map MemoryDescriptor.range, r.Sound := by
  simp only [initializeMap] at h
  split at h
  · simp at h
  · next s hcopy =>
    obtain ⟨hranges, hwell⟩ := copyFrom_ok hcopy
    rw [← hranges]
    exact hwell

theorem kindAt_of_initializeMap_none {entries : List MemoryDescriptor} {t : MemoryMapSnapshot}
    (h : initializeMap none entries none = (.ok (), some t)) :
    t.kindAt = firmwareKindAt entries := by
  simp only [initializeMap] at h
  split at h
  · simp at h
  · next s hcopy =>
    obtain rfl : s = t := Option.some.inj (Prod.mk.inj h).2
    exact kindAt_of_copyFrom hcopy

theorem firmwareKindAt_page {entries : List MemoryDescriptor}
    (haligned : ∀ d ∈ entries, PAGE_SIZE ∣ d.physStart)
    (hsound : ∀ r ∈ entries.map MemoryDescriptor.range, r.Sound) {page a : Nat}
    (hpage : PAGE_SIZE ∣ page) (hlo : page ≤ a) (hhi : a < page + PAGE_SIZE) :
    firmwareKindAt entries a = firmwareKindAt entries page := by
  have hsame : ∀ r ∈ entries.map MemoryDescriptor.range, r.contains a = r.contains page := by
    intro r hr
    rw [Bool.eq_iff_iff, (hsound r hr).contains_iff, (hsound r hr).contains_iff]
    obtain ⟨d, hd, rfl⟩ := List.mem_map.mp hr
    have hstart := haligned d hd
    simp only [Span.Contains, MemoryRange.span, MemoryRange.stop, MemoryDescriptor.range,
      PAGE_SIZE] at *
    omega
  rw [firmwareKindAt, firmwareKindAt]
  congr 1
  exact List.find?_congr hsame

/-- A page that starts in a range lies in it whole, if the range ends on the page grid or
starts behind the page of its end. -/
theorem not_external_of_page {start length page a : Nat}
    (hends : PAGE_SIZE ∣ start + length ∨ containingAddress (start + length) < start)
    (hpage : PAGE_SIZE ∣ page) (hlo : page ≤ a) (hhi : a < page + PAGE_SIZE)
    (hout : ¬ (start ≤ a ∧ a < start + length)) : ¬ (start ≤ page ∧ page < start + length) := by
  intro hfirst
  obtain ⟨hlast, hle, hlt⟩ := containingAddress_bounds (start + length)
  have hstop : page = containingAddress (start + length) :=
    eq_containingAddress hpage (by omega) (by omega)
  simp only [PAGE_SIZE] at *
  omega

section Firmware
variable {entries : List MemoryDescriptor} (haligned : ∀ d ∈ entries, PAGE_SIZE ∣ d.physStart)
  (hsound : ∀ r ∈ entries.map MemoryDescriptor.range, r.Sound)
include haligned hsound

theorem devicePages_firmware : DevicePages (firmwareKindAt entries) := by
  intro page hpage hfirst a hlo hhi
  rw [firmwareKindAt_page haligned hsound hpage hlo hhi]
  exact hfirst

theorem wholePages_firmware : WholePages (firmwareKindAt entries) := by
  intro page hpage hfirst a hlo hhi
  rw [firmwareKindAt_page haligned hsound hpage hlo hhi]
  exact hfirst

/-- A framebuffer outside the described memory, appended as a range of its own. -/
theorem devicePages_external_iff {start length : Nat} {view : Nat → Option MemoryKind}
    (houtside : ∀ a, start ≤ a → a < start + length → ¬ Described entries a)
    (hview : ∀ a, view a =
      if start ≤ a ∧ a < start + length then some .device else firmwareKindAt entries a) :
    DevicePages view ↔
      PAGE_SIZE ∣ start + length ∨ containingAddress (start + length) < start := by
  obtain ⟨hlast, hle, hlt⟩ := containingAddress_bounds (start + length)
  constructor
  · intro hdevice
    by_contra hends
    obtain ⟨hnot, hfirst⟩ := not_or.mp hends
    have hne : containingAddress (start + length) ≠ start + length := fun heq => hnot (heq ▸ hlast)
    have hinside : start ≤ containingAddress (start + length) ∧
        containingAddress (start + length) < start + length := by omega
    have hpage := hdevice _ hlast (by rw [hview, if_pos hinside]) (start + length) hle hlt
    rw [hview, if_neg (by omega), firmwareKindAt_page haligned hsound hlast hle hlt] at hpage
    apply houtside _ hinside.1 hinside.2
    rw [Described, hpage, Option.isSome_some]
  · intro hends page hpage hfirst a hlo hhi
    rw [hview] at hfirst ⊢
    by_cases hin : start ≤ a ∧ a < start + length
    · rw [if_pos hin]
    · rw [if_neg (not_external_of_page hends hpage hlo hhi hin)] at hfirst
      rw [if_neg hin, firmwareKindAt_page haligned hsound hpage hlo hhi]
      exact hfirst

theorem wholePages_external {start length : Nat} {view : Nat → Option MemoryKind}
    (hends : PAGE_SIZE ∣ start + length ∨ containingAddress (start + length) < start)
    (hview : ∀ a, view a =
      if start ≤ a ∧ a < start + length then some .device else firmwareKindAt entries a) :
    WholePages view := by
  intro page hpage hfirst a hlo hhi
  rw [hview] at hfirst ⊢
  by_cases hin : start ≤ a ∧ a < start + length
  · rw [if_pos hin, Option.isSome_some]
  · rw [if_neg (not_external_of_page hends hpage hlo hhi hin)] at hfirst
    rw [if_neg hin, firmwareKindAt_page haligned hsound hpage hlo hhi]
    exact hfirst

end Firmware

/-- The map that `initialize` leaves: its device pages are whole exactly when the framebuffer
fits, and then its described pages are whole too. -/
theorem devicePages_initialize_iff {entries : List MemoryDescriptor}
    {framebuffer : Option (Nat × Nat)} {t : MemoryMapSnapshot}
    (haligned : ∀ d ∈ entries, PAGE_SIZE ∣ d.physStart)
    (h : initializeMap none entries framebuffer = (.ok (), some t)) :
    (DevicePages t.kindAt ↔ FramebufferFits entries framebuffer) ∧
      (FramebufferFits entries framebuffer → WholePages t.kindAt) := by
  have hsound := sound_of_initializeMap h
  have hwhole := wholePages_firmware haligned hsound
  have hdevice := devicePages_firmware haligned hsound
  cases framebuffer with
  | none =>
    rw [kindAt_of_initializeMap_none h]
    exact ⟨⟨fun _ => trivial, fun _ => hdevice⟩, fun _ => hwhole⟩
  | some range =>
    obtain ⟨start, length⟩ := range
    simp only [FramebufferFits]
    cases initializeMap_view h with
    | inl hinside =>
      obtain ⟨hmeets, hview⟩ := hinside
      have hlen : 0 < length := by
        obtain ⟨a, hlo, hhi, -⟩ := hmeets
        omega
      have hnotout : ¬ ∀ a, start ≤ a → a < start + length → ¬ Described entries a := by
        intro hnone
        obtain ⟨a, hlo, hhi, hdescribed⟩ := hmeets
        exact hnone a hlo hhi hdescribed
      rw [hview, devicePages_reclassify_iff hwhole hdevice (r := ⟨start, length, .device⟩) hlen]
      exact ⟨⟨fun huncut => ⟨fun _ => huncut, fun hnone => absurd hnone hnotout⟩,
        fun hfits => hfits.1 hmeets⟩, fun _ => hwhole.reclassify _⟩
    | inr houtside =>
      obtain ⟨hnone, hview⟩ := houtside
      have hnotin : ¬ ∃ a, start ≤ a ∧ a < start + length ∧ Described entries a := by
        rintro ⟨a, hlo, hhi, hdescribed⟩
        exact hnone a hlo hhi hdescribed
      rw [devicePages_external_iff haligned hsound hnone hview]
      exact ⟨⟨fun hends => ⟨fun hmeets => absurd hmeets hnotin, fun _ => hends⟩,
        fun hfits => hfits.2 hnone⟩,
        fun hfits => wholePages_external haligned hsound (hfits.2 hnone) hview⟩

theorem not_cutsDevicePage_of_aligned {view : Nat → Option MemoryKind} {r : Request}
    (hstart : PAGE_SIZE ∣ r.start) (hstop : PAGE_SIZE ∣ r.start + r.length) :
    ¬ CutsDevicePage view r := by
  intro hcut
  by_cases hkind : r.kind = .device
  · rw [CutsDevicePage, if_pos hkind] at hcut
    exact hcut.1 hstop
  · rw [CutsDevicePage, if_neg hkind] at hcut
    exact hcut.1 hstart

theorem uncut_of_aligned {s : MemoryMapSnapshot} {requests : List Request}
    (h : ∀ r ∈ requests, PAGE_SIZE ∣ r.start ∧ PAGE_SIZE ∣ r.start + r.length) :
    Uncut s requests := by
  induction requests generalizing s with
  | nil => exact trivial
  | cons r rest ih =>
    obtain ⟨hstart, hstop⟩ := h r List.mem_cons_self
    exact ⟨fun _ => not_cutsDevicePage_of_aligned hstart hstop,
      ih fun q hq => h q (List.mem_cons_of_mem r hq)⟩

theorem framebufferFits_of_aligned {entries : List MemoryDescriptor} {start length : Nat}
    (h : PAGE_SIZE ∣ start ∧ PAGE_SIZE ∣ start + length) :
    FramebufferFits entries (some (start, length)) :=
  ⟨fun _ => not_cutsDevicePage_of_aligned h.1 h.2, fun _ => .inl h.2⟩

/-- In every run of `initialize` and `reserve`, `map_device_page` maps device memory only
exactly as long as no accepted request cuts a device page. -/
theorem deviceOnly_iff {entries : List MemoryDescriptor} {framebuffer : Option (Nat × Nat)}
    {t : MemoryMapSnapshot} (haligned : ∀ d ∈ entries, PAGE_SIZE ∣ d.physStart)
    (h : initializeMap none entries framebuffer = (.ok (), some t)) (requests : List Request) :
    (∀ before, before <+: requests → DeviceOnly (prepared entries framebuffer before)) ↔
      FramebufferFits entries framebuffer ∧ Uncut t requests := by
  have hprepared : ∀ before, prepared entries framebuffer before = some (t.reserveAll before) := by
    intro before
    rw [prepared, foldl_reserve, h]
    rfl
  have hwell : t.WellFormed := by
    obtain ⟨u, hu, hover⟩ := initializeMap_ok h
    rw [Option.some.inj hu]
    exact hover.wellFormed
  have hinit := devicePages_initialize_iff haligned h
  simp only [hprepared, deviceOnly_some_iff]
  constructor
  · intro hsafe
    have hdevice : DevicePages t.kindAt := hsafe [] List.nil_prefix
    have hfits := hinit.1.mp hdevice
    exact ⟨hfits, (devicePages_reserveAll_iff hwell (hinit.2 hfits) hdevice requests).mp hsafe⟩
  · rintro ⟨hfits, huncut⟩
    exact (devicePages_reserveAll_iff hwell (hinit.2 hfits) (hinit.1.mpr hfits) requests).mpr huncut

theorem deviceOnly_around_a_framebuffer :
    FramebufferFits [⟨.conventional, 0x1000, 4⟩] (some (0x80000000, 0x2000)) ∧
      ∀ before, before <+: [(⟨0x1000, 0x1000, .kernel⟩ : Request)] →
        DeviceOnly (prepared [⟨.conventional, 0x1000, 4⟩] (some (0x80000000, 0x2000)) before) := by
  have hfits : FramebufferFits [⟨.conventional, 0x1000, 4⟩] (some (0x80000000, 0x2000)) :=
    framebufferFits_of_aligned (by decide)
  exact ⟨hfits, (deviceOnly_iff (by decide) rfl _).mpr ⟨hfits, uncut_of_aligned (by decide)⟩⟩

/-- A framebuffer that ends inside a page leaves the rest of that page usable, and
`map_device_page` maps it. -/
theorem usable_memory_mapped_as_device :
    ∃ t, initializeMap none [⟨.conventional, 0x80000000, 1⟩] (some (0x80000000, 0x800)) =
        (.ok (), some t) ∧
      deviceCheck (some t) 0x80000000 = .ok () ∧ t.kindAt 0x80000800 = some .usable ∧
      ¬ DeviceOnly (prepared [⟨.conventional, 0x80000000, 1⟩] (some (0x80000000, 0x800)) []) := by
  refine ⟨_, rfl, by decide, by decide, fun hsafe => ?_⟩
  have hdevice := hsafe 0x80000000 (by decide) 0x80000800 (by decide) (by decide)
  revert hdevice
  decide

end AgnostOS.Paging
