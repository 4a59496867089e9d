import AgnostOS.FrameAllocator
import AgnostOS.Library.Span
import Mathlib.Algebra.Order.BigOperators.Group.List
import Mathlib.Algebra.Order.Ring.Nat
import Mathlib.Data.List.Nodup

/-! Lists of free runs: the pages they hold, joining at a seam, taking frames from the
front of a run, and putting one frame back. -/
namespace AgnostOS.Frame
open Globals Word Memory

/-! ### Ranges and their pages -/

def pagesFrom (start frames : Nat) : List Nat :=
  (List.range frames).map fun k => start + k * PAGE_SIZE

theorem pagesFrom_add (start m n : Nat) :
    pagesFrom start (m + n) = pagesFrom start m ++ pagesFrom (start + m * PAGE_SIZE) n := by
  simp only [pagesFrom, List.range_add, List.map_append, List.map_map]
  congr 1
  apply List.map_congr_left
  intro k _
  simp only [Function.comp_apply, PAGE_SIZE]
  omega

@[simp] theorem length_pagesFrom (start n : Nat) : (pagesFrom start n).length = n := by
  simp [pagesFrom]

theorem pagesFrom_one (start : Nat) : pagesFrom start 1 = [start] := by
  simp [pagesFrom]

theorem pagesFrom_nodup (start n : Nat) : (pagesFrom start n).Nodup := by
  refine List.Nodup.map (fun i j h => ?_) List.nodup_range
  simp only [PAGE_SIZE] at h
  omega

theorem mem_pagesFrom {start n p : Nat} :
    p ∈ pagesFrom start n ↔ ∃ k < n, p = start + k * PAGE_SIZE := by
  simp only [pagesFrom, List.mem_map, List.mem_range]
  exact ⟨fun ⟨k, hk, h⟩ => ⟨k, hk, h.symm⟩, fun ⟨k, hk, h⟩ => ⟨k, hk, h.symm⟩⟩

/-- On page-aligned runs the pages are the aligned addresses inside. -/
theorem mem_pagesFrom_aligned {start n p : Nat} (h : PAGE_SIZE ∣ start) :
    p ∈ pagesFrom start n ↔ PAGE_SIZE ∣ p ∧ start ≤ p ∧ p < start + n * PAGE_SIZE := by
  rw [mem_pagesFrom]
  simp only [PAGE_SIZE] at h ⊢
  constructor
  · rintro ⟨k, hk, rfl⟩
    exact ⟨by omega, by omega, by omega⟩
  · rintro ⟨hp, hle, hlt⟩
    exact ⟨(p - start) / 4096, by omega, by omega⟩

namespace FreeRange

def pages (r : FreeRange) : List Nat := pagesFrom r.start r.frames

def stop (r : FreeRange) : Nat := r.start + r.frames * PAGE_SIZE

def span (r : FreeRange) : Span Nat := ⟨r.start, r.stop⟩

def Sound (r : FreeRange) : Prop := 0 < r.frames ∧ r.stop < 2 ^ 64

theorem stop_single (address : Nat) : (⟨address, 1⟩ : FreeRange).stop = address + PAGE_SIZE := by
  rw [stop, Nat.one_mul]

theorem Sound.end_eq {r : FreeRange} (h : r.Sound) : r.end = r.stop := by
  obtain ⟨_, hstop⟩ := h
  simp only [stop] at hstop
  have hmul : saturatingMul 64 r.frames PAGE_SIZE = r.frames * PAGE_SIZE :=
    saturatingMul_of_lt (by omega)
  rw [FreeRange.end, hmul, saturatingAdd_of_lt hstop, stop]

theorem Sound.frames_lt {r : FreeRange} (h : r.Sound) : r.frames < 2 ^ 52 := by
  obtain ⟨_, hstop⟩ := h
  simp only [stop, PAGE_SIZE] at hstop
  omega

end FreeRange

def pagesOf (l : List FreeRange) : List Nat := l.flatMap FreeRange.pages

def spansOf (l : List FreeRange) : List (Span Nat) := l.map FreeRange.span

def frameSum (l : List FreeRange) : Nat := (l.map FreeRange.frames).sum

@[simp] theorem pagesOf_nil : pagesOf [] = [] := rfl

@[simp] theorem pagesOf_cons (r : FreeRange) (l : List FreeRange) :
    pagesOf (r :: l) = r.pages ++ pagesOf l := rfl

@[simp] theorem pagesOf_append (l m : List FreeRange) :
    pagesOf (l ++ m) = pagesOf l ++ pagesOf m := by
  simp [pagesOf]

theorem length_pagesOf (l : List FreeRange) : (pagesOf l).length = frameSum l := by
  induction l with
  | nil => rfl
  | cons r l ih => simp [frameSum, FreeRange.pages, ih]

theorem frameSum_le {l : List FreeRange} (hs : ∀ r ∈ l, r.Sound) :
    frameSum l ≤ l.length * 2 ^ 52 := by
  have hbound : ∀ n ∈ l.map FreeRange.frames, n ≤ 2 ^ 52 := by
    intro n hn
    obtain ⟨r, hr, rfl⟩ := List.mem_map.mp hn
    exact (hs r hr).frames_lt.le
  have hsum := List.sum_le_card_nsmul (l.map FreeRange.frames) (2 ^ 52) hbound
  simpa [frameSum] using hsum

theorem spansOf_proper {l : List FreeRange} (hs : ∀ r ∈ l, r.Sound) : Span.Proper (spansOf l) := by
  intro s h
  obtain ⟨r, hr, rfl⟩ := List.mem_map.mp h
  have hpos := (hs r hr).1
  simp only [FreeRange.span, FreeRange.stop, PAGE_SIZE]
  omega

/-- For aligned ranges, a page is listed exactly when its address is covered. -/
theorem mem_pagesOf_iff {l : List FreeRange} (ha : ∀ r ∈ l, PAGE_SIZE ∣ r.start) {p : Nat} :
    p ∈ pagesOf l ↔ PAGE_SIZE ∣ p ∧ Span.Covers (spansOf l) p := by
  simp only [pagesOf, List.mem_flatMap, Span.Covers, spansOf, List.mem_map]
  constructor
  · rintro ⟨r, hr, hp⟩
    obtain ⟨hdvd, hlo, hhi⟩ := (mem_pagesFrom_aligned (ha r hr)).mp hp
    exact ⟨hdvd, r.span, ⟨r, hr, rfl⟩, hlo, hhi⟩
  · rintro ⟨hdvd, _, ⟨r, hr, rfl⟩, hlo, hhi⟩
    exact ⟨r, hr, (mem_pagesFrom_aligned (ha r hr)).mpr ⟨hdvd, hlo, hhi⟩⟩

/-! ### Joining runs at a seam -/

/-- Append, joining the last run on the left with the first on the right when they touch. -/
def join : List FreeRange → List FreeRange → List FreeRange
  | [], right => right
  | [r], n :: right =>
    if r.stop = n.start then ⟨r.start, r.frames + n.frames⟩ :: right else r :: n :: right
  | r :: left, right => r :: join left right

theorem singleton_join_cons (r n : FreeRange) (right : List FreeRange) :
    join [r] (n :: right) =
      if r.stop = n.start then ⟨r.start, r.frames + n.frames⟩ :: right else r :: n :: right := rfl

theorem append_singleton_join (l : List FreeRange) (r : FreeRange) (right : List FreeRange) :
    join (l ++ [r]) right = l ++ join [r] right := by
  induction l with
  | nil => rfl
  | cons t l ih =>
    cases l with
    | nil => rfl
    | cons u l => exact congrArg (t :: ·) ih

theorem singleton_join_of_apart {r : FreeRange} {right : List FreeRange} {stop : Nat}
    (hr : r.stop = stop) (h : ¬ ∃ n ∈ right.head?, stop = n.start) :
    join [r] right = r :: right := by
  cases right with
  | nil => rfl
  | cons n rest =>
    rw [singleton_join_cons, if_neg fun htouch => h ⟨n, rfl, hr.symm.trans htouch⟩]

theorem join_cons_of_apart {left : List FreeRange} {n : FreeRange} (right : List FreeRange)
    (h : ¬ ∃ p ∈ left.getLast?, p.stop = n.start) : join left (n :: right) = left ++ n :: right := by
  rcases List.eq_nil_or_concat' left with rfl | ⟨front, p, rfl⟩
  · rfl
  · have hne : ¬ p.stop = n.start := fun htouch => h ⟨p, by simp, htouch⟩
    rw [append_singleton_join, singleton_join_cons, if_neg hne, List.append_assoc,
      List.singleton_append]

theorem spansOf_join (l r : List FreeRange) :
    spansOf (join l r) = Span.glue (spansOf l) (spansOf r) := by
  fun_induction join l r with
  | case1 right => rfl
  | case2 r n right htouch =>
    have hseam : r.span.hi = n.span.lo := htouch
    have hspan : (⟨r.start, r.frames + n.frames⟩ : FreeRange).span = ⟨r.span.lo, n.span.hi⟩ := by
      simp only [FreeRange.span, FreeRange.stop, ← htouch, Nat.add_mul, Nat.add_assoc]
    simp only [spansOf, List.map_cons, List.map_nil, Span.singleton_glue_cons, hspan, if_pos hseam]
  | case3 r n right hne =>
    have hseam : ¬ r.span.hi = n.span.lo := hne
    simp only [spansOf, List.map_cons, List.map_nil, Span.singleton_glue_cons, if_neg hseam]
  | case4 r left right hlast ih =>
    cases left with
    | nil =>
      cases right with
      | nil => rfl
      | cons n right => exact (hlast n right rfl rfl).elim
    | cons u left => exact congrArg (r.span :: ·) ih

/-- Joining only moves the bounds between runs: the pages stay listed in order. -/
theorem pagesOf_join (l r : List FreeRange) : pagesOf (join l r) = pagesOf l ++ pagesOf r := by
  fun_induction join l r with
  | case1 right => rfl
  | case2 r n right htouch =>
    have hpages : (⟨r.start, r.frames + n.frames⟩ : FreeRange).pages = r.pages ++ n.pages := by
      simp only [FreeRange.pages, pagesFrom_add]
      rw [← htouch, FreeRange.stop]
    simp [hpages]
  | case3 r n right hne => simp
  | case4 r left right _ ih => simp [ih]

/-- Every joined run starts where one of the parts did, and is sound if they are. -/
theorem sound_of_mem_join {l r : List FreeRange} (hl : ∀ q ∈ l, q.Sound) (hr : ∀ q ∈ r, q.Sound)
    {q : FreeRange} (hq : q ∈ join l r) : q.Sound ∧ ∃ p ∈ l ++ r, q.start = p.start := by
  have hsame : ∀ {m : List FreeRange}, (∀ q ∈ m, q.Sound) → q ∈ m →
      q.Sound ∧ ∃ p ∈ m, q.start = p.start := fun hm hq => ⟨hm q hq, q, hq, rfl⟩
  fun_induction join l r with
  | case1 right => exact hsame hr hq
  | case2 p n right htouch =>
    rcases List.mem_cons.mp hq with rfl | hq
    · have hp := hl p (by simp)
      have hn := hr n (by simp)
      have hstop : (⟨p.start, p.frames + n.frames⟩ : FreeRange).stop = n.stop := by
        simp only [FreeRange.stop, Nat.add_mul, ← Nat.add_assoc] at htouch ⊢
        rw [htouch]
      exact ⟨⟨Nat.add_pos_left hp.1 _, hstop ▸ hn.2⟩, p, by simp, rfl⟩
    · exact ⟨hr q (by simp [hq]), q, by simp [hq], rfl⟩
  | case3 p n right hne =>
    have hboth : ∀ q ∈ p :: n :: right, q.Sound := by
      intro q hq
      rcases List.mem_cons.mp hq with rfl | hq
      · exact hl q (by simp)
      · exact hr q hq
    exact hsame hboth hq
  | case4 p left right _ ih =>
    rcases List.mem_cons.mp hq with rfl | hq
    · exact ⟨hl q (by simp), q, by simp, rfl⟩
    · obtain ⟨hsound, s, hs, hstart⟩ := ih (fun q hq => hl q (by simp [hq])) hr hq
      exact ⟨hsound, s, List.mem_cons_of_mem p hs, hstart⟩

/-! ### Taking frames from the front of a run -/

def carve (n : Nat) (r : FreeRange) : List FreeRange :=
  if r.frames - n = 0 then [] else [⟨r.start + n * PAGE_SIZE, r.frames - n⟩]

theorem pages_eq_carve {n : Nat} {r : FreeRange} (h : n ≤ r.frames) :
    r.pages = pagesFrom r.start n ++ pagesOf (carve n r) := by
  obtain ⟨m, hm⟩ := Nat.exists_eq_add_of_le h
  rw [FreeRange.pages, hm, pagesFrom_add, carve, hm, Nat.add_sub_cancel_left]
  cases m with
  | zero => rfl
  | succ m => simp [FreeRange.pages]

theorem carve_sound {n : Nat} {r : FreeRange} (hs : r.Sound) (hn : n ≤ r.frames) {q : FreeRange}
    (hq : q ∈ carve n r) : q.Sound ∧ q.start = r.start + n * PAGE_SIZE ∧ q.stop = r.stop := by
  obtain ⟨m, hm⟩ := Nat.exists_eq_add_of_le hn
  have hstop := hs.2
  rw [carve] at hq
  split at hq
  · simp at hq
  · next hne =>
    obtain rfl := List.mem_singleton.mp hq
    have hsame : r.start + n * PAGE_SIZE + (r.frames - n) * PAGE_SIZE = r.stop := by
      rw [FreeRange.stop, hm, Nat.add_sub_cancel_left, Nat.add_mul, Nat.add_assoc]
    refine ⟨⟨Nat.pos_of_ne_zero hne, ?_⟩, rfl, hsame⟩
    rw [FreeRange.stop, hsame]
    exact hstop

/-! ### The runs of a memory map -/

def usableRun (range : MemoryRange) : Option FreeRange :=
  if range.kind = .usable ∧ range.length / PAGE_SIZE ≠ 0 then
    some ⟨range.start, range.length / PAGE_SIZE⟩
  else none

def usableRuns (ranges : List MemoryRange) : List FreeRange := ranges.filterMap usableRun

/-! ### The insertion point of a frame -/

def lower (address : Nat) (l : List FreeRange) : List FreeRange :=
  l.takeWhile fun range => range.start < address

def upper (address : Nat) (l : List FreeRange) : List FreeRange :=
  l.dropWhile fun range => range.start < address

@[simp] theorem lower_append_upper (address : Nat) (l : List FreeRange) :
    lower address l ++ upper address l = l :=
  List.takeWhile_append_dropWhile

theorem spansOf_lower (address : Nat) (l : List FreeRange) :
    spansOf (lower address l) = Span.before address (spansOf l) := by
  rw [Span.before, spansOf, spansOf, List.takeWhile_map]
  rfl

theorem spansOf_upper (address : Nat) (l : List FreeRange) :
    spansOf (upper address l) = Span.after address (spansOf l) := by
  rw [Span.after, spansOf, spansOf, List.dropWhile_map]
  rfl

/-- The two runs next to the insertion point, the only ones `release` compares with. -/
def NeighbourHolds (address : Nat) (l : List FreeRange) : Prop :=
  (∃ p ∈ (lower address l).getLast?, address < p.stop) ∨
    ∃ n ∈ (upper address l).head?, n.start = address

def Isolated (address : Nat) (l : List FreeRange) : Prop :=
  (¬ ∃ p ∈ (lower address l).getLast?, p.stop = address) ∧
    ¬ ∃ n ∈ (upper address l).head?, address + PAGE_SIZE = n.start

def restored (address : Nat) (l : List FreeRange) : List FreeRange :=
  join (lower address l) (join [⟨address, 1⟩] (upper address l))

theorem spansOf_restored (address : Nat) (l : List FreeRange) :
    spansOf (restored address l) =
      Span.insert ⟨address, address + PAGE_SIZE⟩ (spansOf l) := by
  have hone : spansOf [⟨address, 1⟩] = [⟨address, address + PAGE_SIZE⟩] := by
    simp [spansOf, FreeRange.span, FreeRange.stop]
  rw [restored, spansOf_join, spansOf_join, hone, spansOf_lower, spansOf_upper, Span.insert]

theorem pagesOf_restored (address : Nat) (l : List FreeRange) :
    (pagesOf (restored address l)).Perm (address :: pagesOf l) := by
  have hone : pagesOf [⟨address, 1⟩] = [address] := by
    simp [FreeRange.pages, pagesFrom_one]
  rw [restored, pagesOf_join, pagesOf_join, hone, List.singleton_append]
  refine List.perm_middle.trans (List.Perm.of_eq ?_)
  rw [← pagesOf_append, lower_append_upper]

theorem sound_of_mem_restored {address : Nat} {l : List FreeRange} (hl : ∀ q ∈ l, q.Sound)
    (hfit : address + PAGE_SIZE < 2 ^ 64) {q : FreeRange} (hq : q ∈ restored address l) :
    q.Sound ∧ (q.start = address ∨ ∃ p ∈ l, q.start = p.start) := by
  have hlower : ∀ p ∈ lower address l, p ∈ l := fun p hp => (List.takeWhile_sublist _).subset hp
  have hupper : ∀ p ∈ upper address l, p ∈ l := fun p hp => (List.dropWhile_sublist _).subset hp
  have hone : ∀ p ∈ [(⟨address, 1⟩ : FreeRange)], p.Sound := by
    intro p hp
    obtain rfl := List.mem_singleton.mp hp
    exact ⟨Nat.one_pos, by rw [FreeRange.stop_single]; exact hfit⟩
  have hright : ∀ p ∈ join [⟨address, 1⟩] (upper address l),
      p.Sound ∧ ∃ s ∈ [⟨address, 1⟩] ++ upper address l, p.start = s.start :=
    fun p hp => sound_of_mem_join hone (fun p hp => hl p (hupper p hp)) hp
  obtain ⟨hsound, p, hp, hstart⟩ := sound_of_mem_join (fun p hp => hl p (hlower p hp))
    (fun p hp => (hright p hp).1) hq
  refine ⟨hsound, ?_⟩
  cases List.mem_append.mp hp with
  | inl hp => exact .inr ⟨p, hlower p hp, hstart⟩
  | inr hp =>
    obtain ⟨-, s, hs, hpstart⟩ := hright p hp
    cases List.mem_append.mp hs with
    | inl hs =>
      obtain rfl := List.mem_singleton.mp hs
      exact .inl (hstart.trans hpstart)
    | inr hs => exact .inr ⟨s, hupper s hs, hstart.trans hpstart⟩

end AgnostOS.Frame
