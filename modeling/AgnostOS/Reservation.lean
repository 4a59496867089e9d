import AgnostOS.Library.Attempt
import AgnostOS.Library.Subdivision
import AgnostOS.MemoryMap

/-! Reservation as pointwise reclassification: `reserve_range` cuts ranges in place
and changes the kind of exactly the covered addresses it was asked for. -/
namespace AgnostOS.Memory
open Globals Word

namespace MemoryRange

/-- First address past the range; equal to the saturating `end` while it fits a word. -/
def stop (range : MemoryRange) : Nat := range.start + range.length

def span (range : MemoryRange) : Span Nat := ⟨range.start, range.stop⟩

def Sound (range : MemoryRange) : Prop := 0 < range.length ∧ range.stop < 2 ^ 64

theorem Sound.end_eq {range : MemoryRange} (h : range.Sound) : range.end = range.stop :=
  saturatingAdd_of_lt h.2

theorem Sound.contains_iff {range : MemoryRange} (h : range.Sound) (a : Nat) :
    range.contains a = true ↔ range.span.Contains a := by
  simp [contains, h.end_eq, span, Span.Contains]

/-- What a reservation of [start, last) makes of one range: the part below, the part
inside under its new kind, the part above, each only where it is not empty. -/
def pieces (start last : Nat) (kind : MemoryKind) (range : MemoryRange) : List MemoryRange :=
  if range.stop ≤ start ∨ last ≤ range.start then [range]
  else
    (if range.start < start then [{ range with length := start - range.start }] else []) ++
    [{ range with start := max start range.start,
                  length := min last range.stop - max start range.start, kind := kind }] ++
    (if last < range.stop then [{ range with start := last, length := range.stop - last }] else [])

theorem pieces_tile {range : MemoryRange} (h : range.Sound) {start last : Nat} (hlt : start < last)
    (kind : MemoryKind) :
    Span.Tiles range.start range.stop ((range.pieces start last kind).map span) := by
  obtain ⟨hlen, -⟩ := h
  have hstop : range.stop = range.start + range.length := rfl
  unfold pieces
  split
  · simp only [List.map_cons, List.map_nil, Span.Tiles, span, true_and, and_true]
    omega
  · split <;> split <;>
      simp only [List.nil_append, List.append_nil, List.cons_append, List.map_cons, List.map_nil,
        Span.Tiles, span, stop, true_and] <;>
      omega

theorem pieces_sound {range : MemoryRange} (h : range.Sound) {start last : Nat} (hlt : start < last)
    (kind : MemoryKind) {p : MemoryRange} (hp : p ∈ range.pieces start last kind) : p.Sound := by
  have htile := range.pieces_tile h hlt kind
  have hmem : p.span ∈ (range.pieces start last kind).map span := List.mem_map_of_mem hp
  have hproper : p.start < p.stop := htile.proper _ hmem
  have hlast : p.stop - 1 < range.stop := by
    refine ((htile.covers_iff (p.stop - 1)).mp ⟨p.span, hmem, ?_⟩).2
    simp only [Span.Contains, span]
    omega
  have hword := h.2
  refine ⟨?_, by omega⟩
  simp only [stop] at hproper
  omega

/-- The piece found at an address carries the new kind inside the request and the
old one outside; the firmware type never changes. -/
theorem start_of_mem_pieces {range : MemoryRange} {start last : Nat} {kind : MemoryKind}
    {p : MemoryRange} (hp : p ∈ range.pieces start last kind) :
    p.start = range.start ∨ p.start = start ∨ p.start = last := by
  rw [pieces] at hp
  split at hp
  · obtain rfl := List.mem_singleton.mp hp
    exact .inl rfl
  · simp only [List.mem_append, List.mem_singleton] at hp
    rcases hp with (hp | rfl) | hp
    · split at hp
      · obtain rfl := List.mem_singleton.mp hp
        exact .inl rfl
      · simp at hp
    · cases Nat.le_total start range.start with
      | inl hle => exact .inl (max_eq_right hle)
      | inr hle => exact .inr (.inl (max_eq_left hle))
    · split at hp
      · obtain rfl := List.mem_singleton.mp hp
        exact .inr (.inr rfl)
      · simp at hp

theorem find_pieces {range : MemoryRange} (h : range.Sound) {start last : Nat} (hlt : start < last)
    (kind : MemoryKind) (a : Nat) :
    ((range.pieces start last kind).find? fun p => p.contains a).map
        (fun p => (p.kind, p.uefiType)) =
      if range.contains a then
        some (if start ≤ a ∧ a < last then kind else range.kind, range.uefiType)
      else none := by
  have hsound : ∀ p ∈ range.pieces start last kind, p.Sound :=
    fun p hp => range.pieces_sound h hlt kind hp
  have hin : range.contains a = true ↔ range.start ≤ a ∧ a < range.stop := h.contains_iff a
  have hkind : ∀ p ∈ range.pieces start last kind, p.span.Contains a →
      p.uefiType = range.uefiType ∧
        p.kind = if start ≤ a ∧ a < last then kind else range.kind := by
    intro p hp hpa
    have hcov : Span.Covers ((range.pieces start last kind).map span) a :=
      ⟨p.span, List.mem_map_of_mem hp, hpa⟩
    have hrange := ((range.pieces_tile h hlt kind).covers_iff a).mp hcov
    unfold pieces at hp
    simp only [Span.Contains, span, stop] at hpa hrange
    split at hp
    · next hout =>
      obtain rfl := List.mem_singleton.mp hp
      have hnot : ¬ (start ≤ a ∧ a < last) := by
        simp only [stop] at hout
        omega
      simp [hnot]
    · simp only [List.mem_append, List.mem_singleton, List.mem_ite_nil_right] at hp
      rcases hp with (⟨-, rfl⟩ | rfl) | ⟨-, rfl⟩
      · have hnot : ¬ (start ≤ a ∧ a < last) := by
          simp only at hpa
          omega
        simp [hnot]
      · have hyes : start ≤ a ∧ a < last := by
          simp only [stop] at hpa
          omega
        simp [hyes]
      · have hnot : ¬ (start ≤ a ∧ a < last) := by
          simp only at hpa
          omega
        simp [hnot]
  cases hfind : (range.pieces start last kind).find? fun p => p.contains a with
  | none =>
    have hnone : range.contains a = false := by
      rw [Bool.eq_false_iff, ne_eq, hin]
      intro hrange
      obtain ⟨s, hs, hsa⟩ := ((range.pieces_tile h hlt kind).covers_iff a).mpr hrange
      obtain ⟨p, hp, rfl⟩ := List.mem_map.mp hs
      exact List.find?_eq_none.mp hfind p hp (((hsound p hp).contains_iff a).mpr hsa)
    simp [hnone]
  | some p =>
    have hp : p ∈ range.pieces start last kind := List.mem_of_find?_eq_some hfind
    have hhit : p.contains a = true :=
      List.find?_some (p := fun q : MemoryRange => q.contains a) hfind
    have hpa : p.span.Contains a := ((hsound p hp).contains_iff a).mp hhit
    have hrange : range.contains a = true := by
      rw [hin]
      exact ((range.pieces_tile h hlt kind).covers_iff a).mp ⟨p.span, List.mem_map_of_mem hp, hpa⟩
    obtain ⟨hty, hk⟩ := hkind p hp hpa
    simp [hrange, hty, hk]

end MemoryRange

namespace MemoryMapSnapshot
open MemoryRange (stop span Sound pieces)

/-- A filling step that appends exactly `extra` to the table, or fails because the
table cannot hold it. -/
def Fills {β : Type} (table : β → RangeTable) (t : RangeTable) (extra : List MemoryRange) :
    Except MemoryMapError β → Prop
  | .ok result => (table result).entries = t.entries ++ extra
  | .error error => error = .tooManyRanges ∧ MAX_MEMORY_RANGES < t.count + extra.length

theorem Fills.bind {β : Type} {table : β → RangeTable} {t : RangeTable}
    {extra more : List MemoryRange} {first : Except MemoryMapError RangeTable}
    {next : RangeTable → Except MemoryMapError β} (hfirst : Fills id t extra first)
    (hnext : ∀ t' : RangeTable, t'.entries = t.entries ++ extra → Fills table t' more (next t')) :
    Fills table t (extra ++ more) (first >>= next) := by
  cases first with
  | error error =>
    obtain ⟨herr, hroom⟩ := hfirst
    refine ⟨herr, ?_⟩
    rw [List.length_append]
    omega
  | ok t' =>
    have hentries : t'.entries = t.entries ++ extra := hfirst
    have hcount : t'.count = t.count + extra.length := by
      rw [← Table.length_entries t', hentries, List.length_append, Table.length_entries]
    have hrest := hnext t' hentries
    change Fills table t (extra ++ more) (next t')
    cases hcase : next t' with
    | error error =>
      rw [hcase] at hrest
      refine ⟨hrest.1, ?_⟩
      have hlt := hrest.2
      rw [List.length_append]
      omega
    | ok result =>
      rw [hcase] at hrest
      change (table result).entries = _
      have hresult : (table result).entries = t'.entries ++ more := hrest
      rw [hresult, hentries, List.append_assoc]

theorem pushPiece_fills (t : RangeTable) (value : MemoryRange) :
    Fills id t (if value.length = 0 then [] else [value]) (pushPiece t value) := by
  unfold pushPiece
  split
  · simp [Fills]
  · split
    · simp [Fills, Table.entries_push]
    · next hfull =>
      have hcount := t.count_le
      exact ⟨rfl, by simp only [List.length_singleton]; omega⟩

def overlaps (start last : Nat) (range : MemoryRange) : Bool :=
  decide (¬ (range.stop ≤ start ∨ last ≤ range.start))

theorem pieces_eq_pushed {start last : Nat} {kind : MemoryKind} {range : MemoryRange}
    (hmeet : ¬ (range.stop ≤ start ∨ last ≤ range.start)) (hlt : start < last)
    (hlen : 0 < range.length) :
    range.pieces start last kind =
      (if max start range.start - range.start = 0 then []
        else [{ range with length := max start range.start - range.start }]) ++
      ((if min last range.stop - max start range.start = 0 then []
        else [{ range with start := max start range.start,
                           length := min last range.stop - max start range.start,
                           kind := kind }]) ++
      if range.stop - min last range.stop = 0 then []
        else [{ range with start := min last range.stop,
                           length := range.stop - min last range.stop }]) := by
  have hstop : range.stop = range.start + range.length := rfl
  have hmid : ¬ min last range.stop - max start range.start = 0 := by omega
  rw [pieces, if_neg hmeet, if_neg hmid, List.append_assoc]
  congr 1
  · by_cases hbelow : range.start < start
    · have hmax : max start range.start = start := by omega
      have hne : ¬ start - range.start = 0 := by omega
      rw [if_pos hbelow, hmax, if_neg hne]
    · have hzero : max start range.start - range.start = 0 := by omega
      rw [if_neg hbelow, if_pos hzero]
  · congr 1
    by_cases habove : last < range.stop
    · have hmin : min last range.stop = last := by omega
      have hne : ¬ range.stop - last = 0 := by omega
      rw [if_pos habove, hmin, if_neg hne]
    · have hzero : range.stop - min last range.stop = 0 := by omega
      rw [if_neg habove, if_pos hzero]

/-- One iteration of the loop, on a range that meets the request. -/
theorem splitRanges_cons_meet {start last : Nat} {kind : MemoryKind} {range : MemoryRange}
    (hs : range.Sound) (hmeet : ¬ (range.stop ≤ start ∨ last ≤ range.start)) (hlt : start < last)
    (rest : List MemoryRange) (t : RangeTable) (overlapped : Bool) :
    splitRanges start last kind (range :: rest) t overlapped =
      (do
        let t ← pushPiece t { range with length := max start range.start - range.start }
        let t ← pushPiece t { range with start := max start range.start,
                                         length := min last range.stop - max start range.start,
                                         kind := kind }
        let t ← pushPiece t { range with start := min last range.stop,
                                         length := range.stop - min last range.stop }
        splitRanges start last kind rest t true) := by
  have hlen := hs.1
  have hstop : range.stop = range.start + range.length := rfl
  have hcut : ¬ max start range.start ≥ min last range.stop := by omega
  rw [splitRanges]
  simp only [hs.end_eq, if_neg hcut]

theorem splitRanges_cons_miss {start last : Nat} {kind : MemoryKind} {range : MemoryRange}
    (hs : range.Sound) (hmiss : range.stop ≤ start ∨ last ≤ range.start)
    (rest : List MemoryRange) (t : RangeTable) (overlapped : Bool) :
    splitRanges start last kind (range :: rest) t overlapped =
      if h : t.count < MAX_MEMORY_RANGES then
        splitRanges start last kind rest (t.push range h) overlapped
      else .error .tooManyRanges := by
  have hstop : range.stop = range.start + range.length := rfl
  have hcut : max start range.start ≥ min last range.stop := by omega
  rw [splitRanges]
  simp only [hs.end_eq, if_pos hcut]

theorem splitRanges_fills {start last : Nat} (hlt : start < last) (kind : MemoryKind)
    {ranges : List MemoryRange} (hs : ∀ r ∈ ranges, r.Sound) (t : RangeTable) (overlapped : Bool) :
    Fills Prod.fst t (ranges.flatMap (pieces start last kind))
      (splitRanges start last kind ranges t overlapped) := by
  induction ranges generalizing t overlapped with
  | nil => simp [splitRanges, Fills]
  | cons range rest ih =>
    have hrange : range.Sound := hs range (by simp)
    have hrest : ∀ r ∈ rest, r.Sound := fun r hr => hs r (List.mem_cons_of_mem range hr)
    rw [List.flatMap_cons]
    by_cases hmeet : range.stop ≤ start ∨ last ≤ range.start
    · rw [splitRanges_cons_miss hrange hmeet, pieces, if_pos hmeet]
      split
      · next hroom =>
        have hpush : Fills id t [range] (.ok (t.push range hroom)) := by
          simp [Fills, Table.entries_push]
        have hnext : ∀ t' : RangeTable, t'.entries = t.entries ++ [range] →
            Fills Prod.fst t' (rest.flatMap (pieces start last kind))
              (splitRanges start last kind rest t' overlapped) :=
          fun t' _ => ih hrest t' overlapped
        exact hpush.bind hnext
      · have hcount := t.count_le
        exact ⟨rfl, by simp only [List.length_append, List.length_singleton]; omega⟩
    · rw [splitRanges_cons_meet hrange hmeet hlt, pieces_eq_pushed hmeet hlt hrange.1,
        List.append_assoc, List.append_assoc]
      refine (pushPiece_fills _ _).bind fun t₁ _ => ?_
      refine (pushPiece_fills _ _).bind fun t₂ _ => ?_
      exact (pushPiece_fills _ _).bind fun t₃ _ => ih hrest t₃ true

theorem splitRanges_flag {start last : Nat} (hlt : start < last) (kind : MemoryKind)
    {ranges : List MemoryRange} (hs : ∀ r ∈ ranges, r.Sound) (t : RangeTable) (overlapped : Bool)
    {result : RangeTable × Bool}
    (hok : splitRanges start last kind ranges t overlapped = .ok result) :
    result.2 = (overlapped || ranges.any (overlaps start last)) := by
  induction ranges generalizing t overlapped with
  | nil =>
    simp only [splitRanges, Except.ok.injEq] at hok
    simp [← hok]
  | cons range rest ih =>
    have hrange : range.Sound := hs range (by simp)
    have hrest : ∀ r ∈ rest, r.Sound := fun r hr => hs r (List.mem_cons_of_mem range hr)
    by_cases hmeet : range.stop ≤ start ∨ last ≤ range.start
    · rw [splitRanges_cons_miss hrange hmeet] at hok
      split at hok
      · have hover : overlaps start last range = false := decide_eq_false (not_not.mpr hmeet)
        rw [ih hrest _ _ hok, List.any_cons, hover, Bool.false_or]
      · cases hok
    · rw [splitRanges_cons_meet hrange hmeet hlt] at hok
      obtain ⟨t₁, -, hok⟩ := Attempt.exists_of_bind_eq_ok hok
      obtain ⟨t₂, -, hok⟩ := Attempt.exists_of_bind_eq_ok hok
      obtain ⟨t₃, -, hok⟩ := Attempt.exists_of_bind_eq_ok hok
      have hover : overlaps start last range = true := decide_eq_true hmeet
      rw [ih hrest _ _ hok, List.any_cons, hover, Bool.true_or,
        Bool.or_true]

end MemoryMapSnapshot

structure Request where
  start : Nat
  length : Nat
  kind : MemoryKind

namespace MemoryMapSnapshot

def spans (s : MemoryMapSnapshot) : List (Span Nat) := s.ranges.map MemoryRange.span

def WellFormed (s : MemoryMapSnapshot) : Prop := ∀ r ∈ s.ranges, r.Sound

def uefiTypeAt (s : MemoryMapSnapshot) (a : Nat) : Option MemoryType :=
  (s.ranges.find? fun r => r.contains a).map MemoryRange.uefiType

def totalBytes (s : MemoryMapSnapshot) : Nat := (s.ranges.map MemoryRange.length).sum

def splitTable (s : MemoryMapSnapshot) (r : Request) : List MemoryRange :=
  s.ranges.flatMap (MemoryRange.pieces r.start (r.start + r.length) r.kind)

structure Accepts (s : MemoryMapSnapshot) (r : Request) : Prop where
  nonempty : 0 < r.length
  fits : r.start + r.length < 2 ^ 64
  meets : ∃ x ∈ s.ranges, x.start < r.start + r.length ∧ r.start < x.stop
  room : (s.splitTable r).length ≤ MAX_MEMORY_RANGES

def reserveRequest (s : MemoryMapSnapshot) (r : Request) : Except MemoryMapError Unit × MemoryMapSnapshot :=
  s.reserveRange r.start r.length r.kind

theorem reserveRequest_cases {s : MemoryMapSnapshot} (hs : s.WellFormed) (r : Request) :
    (s.Accepts r ∧ ∃ t, s.reserveRequest r = (.ok (), t) ∧ t.ranges = s.splitTable r) ∨
    (¬ s.Accepts r ∧ ∃ error, s.reserveRequest r = (.error error, s)) := by
  by_cases hfits : r.start + r.length < 2 ^ 64
  · have hadd : checkedAdd 64 r.start r.length = some (r.start + r.length) :=
      checkedAdd_eq_some.mpr ⟨hfits, rfl⟩
    by_cases hlen : r.length = 0
    · right
      refine ⟨fun hacc => by have := hacc.nonempty; omega, .invalidRange, ?_⟩
      simp only [reserveRequest, reserveRange, hadd, if_pos (Or.inl hlen)]
    · have hlt : r.start < r.start + r.length := by omega
      have hpass : ¬ (r.length = 0 ∨ r.start + r.length ≤ r.start) := by omega
      have hfills := splitRanges_fills hlt r.kind hs (Table.empty .empty) false
      cases hsplit : splitRanges r.start (r.start + r.length) r.kind s.ranges (Table.empty .empty)
          false with
      | error error =>
        right
        rw [hsplit] at hfills
        refine ⟨fun hacc => ?_, error, ?_⟩
        · have hroom := hacc.room
          have hfull := hfills.2
          simp only [Table.empty, splitTable] at hroom hfull
          omega
        · simp only [reserveRequest, reserveRange, hadd, if_neg hpass, hsplit]
      | ok result =>
        obtain ⟨replacement, overlapped⟩ := result
        rw [hsplit] at hfills
        have hentries : replacement.entries = s.splitTable r := by
          simpa [Fills, splitTable] using hfills
        have hmeets : overlapped = s.ranges.any (overlaps r.start (r.start + r.length)) := by
          simpa using splitRanges_flag hlt r.kind hs _ _ hsplit
        cases overlapped with
        | false =>
          right
          refine ⟨fun hacc => ?_, .rangeNotFound, ?_⟩
          · obtain ⟨x, hx, hlo, hhi⟩ := hacc.meets
            have hany : s.ranges.any (overlaps r.start (r.start + r.length)) = true :=
              List.any_eq_true.mpr ⟨x, hx, decide_eq_true (by omega)⟩
            rw [hany] at hmeets
            cases hmeets
          · simp only [reserveRequest, reserveRange, hadd, if_neg hpass, hsplit]
        | true =>
          left
          obtain ⟨x, hx, hover⟩ := List.any_eq_true.mp hmeets.symm
          have hmeet := of_decide_eq_true hover
          have hroom := replacement.count_le
          rw [← Table.length_entries, hentries] at hroom
          refine ⟨⟨by omega, hfits, ⟨x, hx, by omega⟩, hroom⟩, ⟨replacement⟩, ?_, hentries⟩
          simp only [reserveRequest, reserveRange, hadd, if_neg hpass, hsplit]
  · have hadd : checkedAdd 64 r.start r.length = none :=
      checkedAdd_eq_none.mpr (not_lt.mp hfits)
    right
    refine ⟨fun hacc => hfits hacc.fits, .invalidRange, ?_⟩
    simp only [reserveRequest, reserveRange, hadd]

/-- A first-match search in a table of pieces is the search in the table that was cut. -/
theorem find?_flatMap_map {β γ : Type} {p : β → Bool} {f : β → List β} {g h : β → γ} {l : List β}
    (hf : ∀ r ∈ l, ((f r).find? p).map g = if p r then some (h r) else none) :
    ((l.flatMap f).find? p).map g = (l.find? p).map h := by
  induction l with
  | nil => rfl
  | cons r rest ih =>
    have hr := hf r (by simp)
    rw [List.flatMap_cons, List.find?_append, List.find?_cons]
    cases hp : p r with
    | true =>
      rw [hp, if_pos rfl] at hr
      obtain ⟨q, hq, hg⟩ := Option.map_eq_some_iff.mp hr
      simp [hq, hg]
    | false =>
      rw [hp, if_neg Bool.false_ne_true, Option.map_eq_none_iff] at hr
      simpa [hr] using ih fun r' hr' => hf r' (List.mem_cons_of_mem r hr')

theorem subdivides_splitTable {s : MemoryMapSnapshot} (hs : s.WellFormed) {r : Request}
    (hlen : 0 < r.length) : Span.Subdivides s.spans ((s.splitTable r).map MemoryRange.span) := by
  have hlt : r.start < r.start + r.length := by omega
  rw [splitTable, spans]
  unfold WellFormed at hs
  generalize s.ranges = l at hs
  induction l with
  | nil => exact .nil
  | cons x rest ih =>
    rw [List.flatMap_cons, List.map_append, List.map_cons]
    exact .cons (x.pieces_tile (hs x (by simp)) hlt r.kind)
      (ih fun y hy => hs y (List.mem_cons_of_mem x hy))

theorem find_splitTable {s : MemoryMapSnapshot} (hs : s.WellFormed) {r : Request}
    (hlen : 0 < r.length) (a : Nat) :
    ((s.splitTable r).find? fun p => p.contains a).map (fun p => (p.kind, p.uefiType)) =
      (s.ranges.find? fun x => x.contains a).map fun x =>
        (if r.start ≤ a ∧ a < r.start + r.length then r.kind else x.kind, x.uefiType) :=
  find?_flatMap_map fun x hx => x.find_pieces (hs x hx) (by omega) r.kind a

theorem totalBytes_eq (s : MemoryMapSnapshot) : s.totalBytes = Span.total s.spans := by
  simp only [totalBytes, Span.total, spans, List.map_map]
  congr 1
  apply List.map_congr_left
  intro r _
  simp only [Function.comp_apply, MemoryRange.span, MemoryRange.stop]
  omega

theorem covers_iff_kindAt {s : MemoryMapSnapshot} (hs : s.WellFormed) (a : Nat) :
    Span.Covers s.spans a ↔ (s.kindAt a).isSome := by
  rw [kindAt, Option.isSome_map, List.find?_isSome, spans]
  constructor
  · rintro ⟨x, hx, hxa⟩
    obtain ⟨r, hr, rfl⟩ := List.mem_map.mp hx
    exact ⟨r, hr, ((hs r hr).contains_iff a).mpr hxa⟩
  · rintro ⟨r, hr, hra⟩
    exact ⟨r.span, List.mem_map_of_mem hr, ((hs r hr).contains_iff a).mp hra⟩

/-- What reservations never change: coverage, firmware types, the number of bytes and
the order of the ranges, each cut in place into non-empty pieces. -/
structure SameMemory (s t : MemoryMapSnapshot) : Prop where
  covered : ∀ a, (t.kindAt a).isSome = (s.kindAt a).isSome
  firmware : ∀ a, t.uefiTypeAt a = s.uefiTypeAt a
  bytes : t.totalBytes = s.totalBytes
  order : Span.Subdivides s.spans t.spans
  wellFormed : t.WellFormed
  disjoint : Span.Disjointed s.spans → Span.Disjointed t.spans

theorem SameMemory.refl {s : MemoryMapSnapshot} (hs : s.WellFormed) : SameMemory s s where
  covered _ := rfl
  firmware _ := rfl
  bytes := rfl
  order := .refl fun x hx => by
    obtain ⟨r, hr, rfl⟩ := List.mem_map.mp hx
    have hlen := (hs r hr).1
    simp only [MemoryRange.span, MemoryRange.stop]
    omega
  wellFormed := hs
  disjoint h := h

theorem SameMemory.trans {s t u : MemoryMapSnapshot} (hst : SameMemory s t) (htu : SameMemory t u) :
    SameMemory s u where
  covered a := (htu.covered a).trans (hst.covered a)
  firmware a := (htu.firmware a).trans (hst.firmware a)
  bytes := htu.bytes.trans hst.bytes
  order := hst.order.trans htu.order
  wellFormed := htu.wellFormed
  disjoint h := htu.disjoint (hst.disjoint h)

/-- The abstract reservation: covered addresses of the request take its kind. -/
def reclassify (r : Request) (view : Nat → Option MemoryKind) (a : Nat) : Option MemoryKind :=
  if r.start ≤ a ∧ a < r.start + r.length ∧ (view a).isSome then some r.kind else view a

theorem kindAt_of_splitTable {s t : MemoryMapSnapshot} (hs : s.WellFormed) {r : Request}
    (hlen : 0 < r.length) (ht : t.ranges = s.splitTable r) :
    t.kindAt = reclassify r s.kindAt := by
  funext a
  have hfind := congrArg (Option.map Prod.fst) (find_splitTable hs hlen a)
  simp only [Option.map_map, Function.comp_def] at hfind
  rw [kindAt, ht, reclassify, kindAt]
  rw [hfind]
  cases s.ranges.find? fun x => x.contains a with
  | none => simp
  | some x =>
    by_cases hin : r.start ≤ a ∧ a < r.start + r.length
    · simp [hin]
    · have hout : ¬ (r.start ≤ a ∧ a < r.start + r.length ∧ (some x.kind).isSome = true) :=
        fun h => hin ⟨h.1, h.2.1⟩
      simp only [Option.map_some, if_neg hin, if_neg hout]

theorem sameMemory_of_splitTable {s t : MemoryMapSnapshot} (hs : s.WellFormed) {r : Request}
    (hlen : 0 < r.length) (ht : t.ranges = s.splitTable r) : SameMemory s t := by
  have hsub : Span.Subdivides s.spans t.spans := by
    rw [spans.eq_1 t, ht]
    exact subdivides_splitTable hs hlen
  have hwell : t.WellFormed := by
    intro p hp
    rw [ht, splitTable, List.mem_flatMap] at hp
    obtain ⟨x, hx, hp⟩ := hp
    exact x.pieces_sound (hs x hx) (by omega) r.kind hp
  refine ⟨fun a => ?_, fun a => ?_, ?_, hsub, hwell, hsub.disjointed⟩
  · rw [Bool.eq_iff_iff, ← covers_iff_kindAt hwell, ← covers_iff_kindAt hs]
    exact hsub.covers_iff a
  · have hfind := congrArg (Option.map Prod.snd) (find_splitTable hs hlen a)
    simp only [Option.map_map, Function.comp_def, ← ht] at hfind
    exact hfind
  · rw [totalBytes_eq, totalBytes_eq, hsub.total]

def reserveAll (s : MemoryMapSnapshot) (requests : List Request) : MemoryMapSnapshot :=
  requests.foldl (fun s r => (s.reserveRequest r).2) s

/-- The abstract run: only the accepted requests reclassify. -/
def reclassifyAccepted : MemoryMapSnapshot → List Request → (Nat → Option MemoryKind) →
    (Nat → Option MemoryKind)
  | _, [], view => view
  | s, r :: rest, view =>
    reclassifyAccepted (s.reserveRequest r).2 rest
      (match (s.reserveRequest r).1 with
        | .ok _ => reclassify r view
        | .error _ => view)

theorem reserveAll_refines {s : MemoryMapSnapshot} (hs : s.WellFormed) (requests : List Request) :
    (s.reserveAll requests).kindAt = reclassifyAccepted s requests s.kindAt ∧
      SameMemory s (s.reserveAll requests) := by
  induction requests generalizing s with
  | nil => exact ⟨rfl, .refl hs⟩
  | cons r rest ih =>
    rw [reserveAll, List.foldl_cons, reclassifyAccepted]
    obtain ⟨hacc, t, heq, ht⟩ | ⟨-, error, heq⟩ := reserveRequest_cases hs r
    · have hsame := sameMemory_of_splitTable hs hacc.nonempty ht
      obtain ⟨hview, hrest⟩ := ih hsame.wellFormed
      rw [heq]
      refine ⟨?_, hsame.trans hrest⟩
      rw [← kindAt_of_splitTable hs hacc.nonempty ht]
      exact hview
    · rw [heq]
      exact ih hs

/-- Every sequence of reservations is a sequence of pointwise reclassifications, and
the next call from there either reclassifies or changes nothing. -/
theorem reservation_refines_reclassification (s : MemoryMapSnapshot) (hs : s.WellFormed)
    (requests : List Request) (next : Request) :
    let t := s.reserveAll requests
    (t.kindAt = reclassifyAccepted s requests s.kindAt ∧ SameMemory s t) ∧
    (∀ u, t.reserveRequest next = (.ok (), u) →
      u.kindAt = reclassify next t.kindAt ∧ SameMemory t u) ∧
    (∀ error u, t.reserveRequest next = (.error error, u) → u = t) ∧
    ((t.reserveRequest next).1 = .ok () ↔ t.Accepts next) := by
  intro t
  have hrun := reserveAll_refines hs requests
  have ht : t.WellFormed := hrun.2.wellFormed
  refine ⟨hrun, ?_⟩
  obtain ⟨hacc, u, heq, hu⟩ | ⟨hrej, error, heq⟩ := reserveRequest_cases ht next
  · rw [heq]
    refine ⟨fun v hv => ?_, fun _ _ hv => by simp at hv, by simp [hacc]⟩
    obtain rfl : u = v := (Prod.mk.inj hv).2
    exact ⟨kindAt_of_splitTable ht hacc.nonempty hu, sameMemory_of_splitTable ht hacc.nonempty hu⟩
  · rw [heq]
    refine ⟨fun _ hv => by simp at hv, fun e v hv => ?_, by simp [hrej]⟩
    exact (Prod.mk.inj hv).2.symm

def singleUsable (start length : Nat) : MemoryMapSnapshot :=
  ⟨(Table.empty .empty).push ⟨start, length, .conventional, .usable⟩ (by decide)⟩

theorem reservation_of_an_interior_slice :
    let s := singleUsable 0x1000 0x9000
    let t := s.reserveAll [⟨0x3000, 0x2000, .kernel⟩]
    SameMemory s t ∧ t.kindAt 0x2fff = some .usable ∧ t.kindAt 0x3000 = some .kernel ∧
      t.kindAt 0x5000 = some .usable := by
  have hs : (singleUsable 0x1000 0x9000).WellFormed := by
    intro r hr
    obtain rfl : r = ⟨0x1000, 0x9000, .conventional, .usable⟩ := List.mem_singleton.mp hr
    exact ⟨by decide, by decide⟩
  have hrun := reservation_refines_reclassification (singleUsable 0x1000 0x9000) hs
    [⟨0x3000, 0x2000, .kernel⟩] ⟨0, 0, .kernel⟩
  exact ⟨hrun.1.2, by decide, by decide, by decide⟩

end MemoryMapSnapshot
end AgnostOS.Memory
