import AgnostOS.Commands
import AgnostOS.Handover
import AgnostOS.Library.SpanPoints
import AgnostOS.UsableMemory

/-! The byte totals of `meminfo`: `summary` adds up range lengths with saturation; over a
separated map that is the number of addresses of each kind, and a reservation moves
exactly the addresses it reclassifies. -/
namespace AgnostOS.Commands.MemorySummary
open Globals Word Memory

def bytes (summary : MemorySummary) : MemoryKind → Nat
  | .usable => summary.usableBytes
  | .kernel => summary.kernelBytes
  | .firmware => summary.firmwareBytes
  | .acpi => summary.acpiBytes
  | .device => summary.deviceBytes
  | .runtime => summary.runtimeBytes
  | .unusable => summary.unusableBytes
  | .reserved => summary.reservedBytes

def add (summary : MemorySummary) (kind : MemoryKind) (length : Nat) : MemorySummary :=
  match kind with
  | .usable => { summary with usableBytes := saturatingAdd 64 summary.usableBytes length }
  | .kernel => { summary with kernelBytes := saturatingAdd 64 summary.kernelBytes length }
  | .firmware => { summary with firmwareBytes := saturatingAdd 64 summary.firmwareBytes length }
  | .acpi => { summary with acpiBytes := saturatingAdd 64 summary.acpiBytes length }
  | .device => { summary with deviceBytes := saturatingAdd 64 summary.deviceBytes length }
  | .runtime => { summary with runtimeBytes := saturatingAdd 64 summary.runtimeBytes length }
  | .unusable => { summary with unusableBytes := saturatingAdd 64 summary.unusableBytes length }
  | .reserved => { summary with reservedBytes := saturatingAdd 64 summary.reservedBytes length }

theorem bytes_add (summary : MemorySummary) (kind other : MemoryKind) (length : Nat) :
    (summary.add kind length).bytes other =
      if kind = other then saturatingAdd 64 (summary.bytes other) length
      else summary.bytes other := by
  cases kind <;> cases other <;> rfl

def total (summary : MemorySummary) : Nat :=
  summary.usableBytes + summary.kernelBytes + summary.firmwareBytes + summary.acpiBytes +
    summary.deviceBytes + summary.runtimeBytes + summary.unusableBytes + summary.reservedBytes

end AgnostOS.Commands.MemorySummary

namespace AgnostOS.Memory
open Globals Word Commands AgnostOS.Frame

def MemoryMapSnapshot.summary (self : MemoryMapSnapshot) : MemorySummary :=
  self.ranges.foldl (fun summary range => summary.add range.kind range.length)
    ⟨self.len, 0, 0, 0, 0, 0, 0, 0, 0⟩

/-! ### Adding up without saturation -/

def spansOfKind (kind : MemoryKind) (ranges : List MemoryRange) : List (Span Nat) :=
  (ranges.filter fun r => r.kind = kind).map MemoryRange.span

/-- While the lengths of one kind fit a word, its field is their sum. -/
theorem bytes_foldl {ranges : List MemoryRange} {kind : MemoryKind} {summary : MemorySummary}
    (hfit : summary.bytes kind + Span.total (spansOfKind kind ranges) < 2 ^ 64) :
    (ranges.foldl (fun summary range => summary.add range.kind range.length) summary).bytes kind =
      summary.bytes kind + Span.total (spansOfKind kind ranges) := by
  induction ranges generalizing summary with
  | nil => rfl
  | cons r rest ih =>
    have hlength : r.span.hi - r.span.lo = r.length := Nat.add_sub_cancel_left r.start r.length
    rw [List.foldl_cons]
    by_cases hkind : r.kind = kind
    · have hsplit : Span.total (spansOfKind kind (r :: rest)) =
          r.length + Span.total (spansOfKind kind rest) := by
        rw [spansOfKind, List.filter_cons_of_pos (by simpa using hkind), List.map_cons,
          Span.total_cons, hlength, spansOfKind]
      rw [hsplit] at hfit ⊢
      have hstep : (summary.add r.kind r.length).bytes kind = summary.bytes kind + r.length := by
        rw [MemorySummary.bytes_add, if_pos hkind, saturatingAdd_of_lt (by omega)]
      rw [ih (by rw [hstep]; omega), hstep, Nat.add_assoc]
    · have hsame : spansOfKind kind (r :: rest) = spansOfKind kind rest := by
        rw [spansOfKind, List.filter_cons_of_neg (by simpa using hkind), spansOfKind]
      have hstep : (summary.add r.kind r.length).bytes kind = summary.bytes kind := by
        rw [MemorySummary.bytes_add, if_neg hkind]
      rw [hsame] at hfit ⊢
      rw [ih (by rw [hstep]; exact hfit), hstep]

def addresses (p : Nat → Prop) [DecidablePred p] : Nat := Span.pointsBelow (2 ^ 64) p

section Separated
variable {s : MemoryMapSnapshot}

theorem kindAt_eq_iff (hs : Separated s) {kind : MemoryKind} {a : Nat} :
    s.kindAt a = some kind ↔ Span.Covers (spansOfKind kind s.ranges) a := by
  constructor
  · intro hkind
    obtain ⟨r, hfind, rfl⟩ := Option.map_eq_some_iff.mp hkind
    have hr := List.mem_of_find?_eq_some hfind
    have hra : r.contains a := by simpa using List.find?_some hfind
    refine ⟨r.span, List.mem_map_of_mem (List.mem_filter.mpr ⟨hr, by simp⟩), ?_⟩
    exact ((hs.wellFormed r hr).contains_iff a).mp hra
  · rintro ⟨_, hspan, ha⟩
    obtain ⟨r, hmem, rfl⟩ := List.mem_map.mp hspan
    obtain ⟨hr, hkind⟩ := List.mem_filter.mp hmem
    rw [hs.kindAt_of_contains hr (((hs.wellFormed r hr).contains_iff a).mpr ha)]
    exact congrArg some (of_decide_eq_true hkind)

/-- The ranges of one kind cover fewer than 2^64 addresses, each once. -/
theorem total_spansOfKind (hs : Separated s) (kind : MemoryKind) :
    Span.total (spansOfKind kind s.ranges) = addresses (fun a => s.kindAt a = some kind) ∧
      Span.total (spansOfKind kind s.ranges) < 2 ^ 64 := by
  have hd : Span.Disjointed (spansOfKind kind s.ranges) :=
    List.Pairwise.sublist (List.filter_sublist.map MemoryRange.span) hs.disjoint
  have hbound : ∀ t ∈ spansOfKind kind s.ranges, t.hi ≤ 2 ^ 64 - 1 := by
    intro t ht
    obtain ⟨r, hr, rfl⟩ := List.mem_map.mp ht
    have hstop : r.stop < 2 ^ 64 := (hs.wellFormed r (List.mem_of_mem_filter hr)).2
    exact Nat.le_sub_one_of_lt hstop
  constructor
  · rw [← Span.pointsBelow_covers hd fun t ht => (hbound t ht).trans (Nat.sub_le _ _)]
    exact Span.pointsBelow_congr fun a _ => (kindAt_eq_iff hs).symm
  · rw [← Span.pointsBelow_covers hd hbound]
    exact Span.pointsBelow_le.trans_lt (by decide)

theorem summary_bytes (hs : Separated s) (kind : MemoryKind) :
    s.summary.bytes kind = addresses (fun a => s.kindAt a = some kind) := by
  obtain ⟨hcount, hlt⟩ := total_spansOfKind hs kind
  have hzero : (⟨s.len, 0, 0, 0, 0, 0, 0, 0, 0⟩ : MemorySummary).bytes kind = 0 := by
    cases kind <;> rfl
  rw [← hcount, MemoryMapSnapshot.summary, bytes_foldl (by rwa [hzero, Nat.zero_add]), hzero,
    Nat.zero_add]

end Separated

/-! ### What a reservation moves -/

open MemoryMapSnapshot

abbrev Request.Names (r : Request) (a : Nat) : Prop := r.start ≤ a ∧ a < r.start + r.length

/-- Addresses of a kind split into those a request names and the others. -/
theorem addresses_split (s : MemoryMapSnapshot) (r : Request) (kind : MemoryKind) :
    addresses (fun a => s.kindAt a = some kind) =
      addresses (fun a => s.kindAt a = some kind ∧ r.Names a) +
        addresses (fun a => s.kindAt a = some kind ∧ ¬ r.Names a) :=
  Span.pointsBelow_split

/-- Every other kind loses what the request names of it. -/
theorem addresses_of_other {s t : MemoryMapSnapshot} {r : Request} {kind : MemoryKind}
    (ht : t.kindAt = reclassify r s.kindAt) (hkind : kind ≠ r.kind) :
    addresses (fun a => t.kindAt a = some kind) +
        addresses (fun a => s.kindAt a = some kind ∧ r.Names a) =
      addresses (fun a => s.kindAt a = some kind) := by
  have hleft : addresses (fun a => t.kindAt a = some kind) =
      addresses (fun a => s.kindAt a = some kind ∧ ¬ r.Names a) := by
    refine Span.pointsBelow_congr fun a _ => ?_
    rw [ht, reclassify]
    split
    · next hin => simp [hin.1, hin.2.1, hkind.symm]
    · next hout =>
      refine ⟨fun hk => ⟨hk, fun hnames => hout ⟨hnames.1, hnames.2, by simp [hk]⟩⟩, And.left⟩
  rw [addresses_split s r kind, hleft, Nat.add_comm]

/-- The kind of the request gains every covered address that it did not have. -/
theorem addresses_of_own {s t : MemoryMapSnapshot} {r : Request}
    (ht : t.kindAt = reclassify r s.kindAt) :
    addresses (fun a => t.kindAt a = some r.kind) +
        addresses (fun a => s.kindAt a = some r.kind ∧ r.Names a) =
      addresses (fun a => s.kindAt a = some r.kind) +
        addresses (fun a => r.Names a ∧ (s.kindAt a).isSome) := by
  have hafter : addresses (fun a => t.kindAt a = some r.kind) =
      addresses (fun a => s.kindAt a = some r.kind ∧ ¬ r.Names a) +
        addresses (fun a => r.Names a ∧ (s.kindAt a).isSome) := by
    rw [addresses, addresses, addresses,
      ← Span.pointsBelow_or fun a _ hleft hright => hleft.2 hright.1]
    refine Span.pointsBelow_congr fun a _ => ?_
    rw [ht, reclassify]
    split
    · next hin => exact iff_of_true rfl (.inr ⟨⟨hin.1, hin.2.1⟩, hin.2.2⟩)
    · next hout =>
      constructor
      · intro hk
        exact .inl ⟨hk, fun hnames => hout ⟨hnames.1, hnames.2, by simp [hk]⟩⟩
      · rintro (⟨hk, -⟩ | ⟨hnames, hcovered⟩)
        · exact hk
        · exact absurd ⟨hnames.1, hnames.2, hcovered⟩ hout
  rw [hafter, addresses_split s r r.kind]
  omega

/-! ### The totals over every prepared map -/

theorem summary_total {s : MemoryMapSnapshot} (hs : Separated s) :
    s.summary.total = addresses (fun a => (s.kindAt a).isSome) := by
  have hall : s.summary.total = s.totalBytes := by
    have hsplit : ∀ kind, s.summary.bytes kind = Span.total (spansOfKind kind s.ranges) :=
      fun kind => (summary_bytes hs kind).trans (total_spansOfKind hs kind).1.symm
    have hsum : s.summary.total = s.summary.bytes .usable + s.summary.bytes .kernel +
        s.summary.bytes .firmware + s.summary.bytes .acpi + s.summary.bytes .device +
        s.summary.bytes .runtime + s.summary.bytes .unusable + s.summary.bytes .reserved := rfl
    rw [hsum, totalBytes_eq, spans]
    simp only [hsplit]
    generalize s.ranges = ranges
    induction ranges with
    | nil => rfl
    | cons r rest ih =>
      simp only [List.map_cons, Span.total_cons, ← ih]
      cases hkind : r.kind <;> simp [spansOfKind, hkind] <;> omega
  have hbound : ∀ t ∈ s.spans, t.hi ≤ 2 ^ 64 := by
    intro t ht
    obtain ⟨r, hr, rfl⟩ := List.mem_map.mp ht
    exact (hs.wellFormed r hr).2.le
  rw [hall, totalBytes_eq, ← Span.pointsBelow_covers hs.disjoint hbound]
  exact Span.pointsBelow_congr fun a _ => covers_iff_kindAt hs.wellFormed a

structure SummaryExact (s : MemoryMapSnapshot) : Prop where
  counts : ∀ kind, s.summary.bytes kind = addresses (fun a => s.kindAt a = some kind)
  whole : s.summary.total = addresses (fun a => (s.kindAt a).isSome)
  losses : ∀ r t, s.reserveRequest r = (.ok (), t) → ∀ kind, kind ≠ r.kind →
    t.summary.bytes kind + addresses (fun a => s.kindAt a = some kind ∧ r.Names a) =
      s.summary.bytes kind
  gains : ∀ r t, s.reserveRequest r = (.ok (), t) →
    t.summary.bytes r.kind + addresses (fun a => s.kindAt a = some r.kind ∧ r.Names a) =
      s.summary.bytes r.kind + addresses (fun a => r.Names a ∧ (s.kindAt a).isSome)
  refusals : ∀ r e t, s.reserveRequest r = (.error e, t) → t.summary = s.summary

theorem summaryExact_of_separated {s : MemoryMapSnapshot} (hs : Separated s) : SummaryExact s := by
  have hnext : ∀ r t, s.reserveRequest r = (.ok (), t) →
      Separated t ∧ t.kindAt = reclassify r s.kindAt := by
    intro r t hok
    rcases reserveRequest_cases hs.wellFormed r with ⟨hacc, u, heq, hu⟩ | ⟨-, error, heq⟩
    · obtain rfl : u = t := (Prod.mk.inj (heq.symm.trans hok)).2
      have hsame := sameMemory_of_splitTable hs.wellFormed hacc.nonempty hu
      exact ⟨⟨hsame.wellFormed, hsame.disjoint hs.disjoint⟩,
        kindAt_of_splitTable hs.wellFormed hacc.nonempty hu⟩
    · simp [hok] at heq
  refine ⟨summary_bytes hs, summary_total hs, fun r t hok kind hkind => ?_, fun r t hok => ?_,
    fun r e t herr => ?_⟩
  · obtain ⟨ht, hview⟩ := hnext r t hok
    rw [summary_bytes ht, summary_bytes hs]
    exact addresses_of_other hview hkind
  · obtain ⟨ht, hview⟩ := hnext r t hok
    rw [summary_bytes ht, summary_bytes hs]
    exact addresses_of_own hview
  · rcases reserveRequest_cases hs.wellFormed r with ⟨-, u, heq, -⟩ | ⟨-, error, heq⟩
    · simp [heq] at herr
    · rw [heq] at herr
      rw [(Prod.mk.inj herr).2]

/-- Over every map that firmware hands over without overlaps, after any reservations. -/
theorem summary_of_prepared_map {entries : List MemoryDescriptor} {framebuffer : Option (Nat × Nat)}
    {requests : List Request} {s : MemoryMapSnapshot}
    (hdisjoint : Span.Disjointed (entries.map fun d => d.range.span))
    (hmap : prepared entries framebuffer requests = some s) :
    SummaryExact s ∧
      ∃ t, (initializeMap none entries framebuffer).2 = some t ∧ s.summary.total = t.summary.total := by
  rw [prepared, foldl_reserve] at hmap
  obtain ⟨t, hinit, rfl⟩ := Option.map_eq_some_iff.mp hmap
  have hover : HandedOver entries framebuffer t := by
    rcases hcall : initializeMap none entries framebuffer with ⟨_ | _, map⟩
    · rw [hcall, initializeMap_error hcall] at hinit
      simp at hinit
    · rw [hcall] at hinit
      obtain ⟨u, hu, hover⟩ := initializeMap_ok hcall
      exact Option.some.inj (hu.symm.trans hinit) ▸ hover
  have ht : Separated t := ⟨hover.wellFormed, hover.disjoint hdisjoint⟩
  have hsame := (reserveAll_refines ht.wellFormed requests).2
  have hs : Separated (t.reserveAll requests) := ⟨hsame.wellFormed, hsame.disjoint ht.disjoint⟩
  refine ⟨summaryExact_of_separated hs, t, hinit, ?_⟩
  rw [summary_total hs, summary_total ht]
  exact Span.pointsBelow_congr fun a _ => by rw [hsame.covered]

/-- The map of the reservation tests with a heap inside conventional memory. -/
theorem summary_after_heap_reservation :
    SummaryExact ((prepared [⟨.conventional, 0x1000, 16⟩, ⟨.mmio, 0x80000, 1⟩] none
      [⟨0x3000, 0x2800, .kernel⟩]).getD ⟨Table.empty .empty⟩) := by
  refine (@summary_of_prepared_map [⟨.conventional, 0x1000, 16⟩, ⟨.mmio, 0x80000, 1⟩] none
    [⟨0x3000, 0x2800, .kernel⟩] _ ?_ rfl).1
  refine List.pairwise_pair.mpr fun x hfirst hlast => ?_
  simp only [MemoryDescriptor.range, MemoryRange.span, MemoryRange.stop, Span.Contains, PAGE_SIZE]
    at hfirst hlast
  omega

end AgnostOS.Memory
