import AgnostOS.HeapList

/-! What `alloc` and `dealloc` do to the free list: the first fitting chunk is cut,
and a returned block is inserted with coalescing on both sides. -/
namespace AgnostOS.Allocator
open Word

/-! ### Fitting -/

def alignUp (align a : Nat) : Nat := (a + (align - 1)) / align * align

def Fits (size align : Nat) (s : Span Nat) : Prop :=
  alignUp align s.lo + size ≤ s.hi ∧ s.hi < 2 ^ 64

instance (size align : Nat) (s : Span Nat) : Decidable (Fits size align s) :=
  inferInstanceAs (Decidable (_ ∧ _))

theorem dvd_alignUp (align a : Nat) : align ∣ alignUp align a := Nat.dvd_mul_left _ _

theorem le_alignUp {align : Nat} (hpos : 0 < align) (a : Nat) : a ≤ alignUp align a := by
  have hdiv := Nat.div_add_mod (a + (align - 1)) align
  have hmod := Nat.mod_lt (a + (align - 1)) hpos
  rw [alignUp, Nat.mul_comm]
  omega

/-- Rounding up past the end of the address space leaves it. -/
theorem le_alignUp_of_le {k a : Nat} (hk : k ≤ 64) (h : 2 ^ 64 ≤ a + (2 ^ k - 1)) :
    2 ^ 64 ≤ alignUp (2 ^ k) a := by
  have hpow : 2 ^ (64 - k) * 2 ^ k = 2 ^ 64 := by rw [← pow_add, Nat.sub_add_cancel hk]
  rw [alignUp, ← hpow]
  refine Nat.mul_le_mul_right _ ((Nat.le_div_iff_mul_le (Nat.two_pow_pos k)).mpr ?_)
  rw [hpow]
  exact h

def tail (last : Nat) (s : Span Nat) : List (Span Nat) :=
  if FREE_CHUNK_SIZE ≤ s.hi - last then [⟨last, s.hi⟩] else []

namespace Heap
variable {h : Heap} {size k : Nat}

def take (h : Heap) (prev : Link) (s : Span Nat) (last : Nat) : Heap :=
  if FREE_CHUNK_SIZE ≤ s.hi - last then
    let h := h.setSize last (s.hi - last)
    let h := h.setNext last (h.next s.lo)
    h.store last prev
  else h.store (h.next s.lo) prev

theorem allocStep_of_null {prev current : Link} {align : Nat} (hnull : h.load current = 0) :
    h.allocStep size align (prev, current) = .inl (0, h) := by
  simp only [allocStep, hnull, if_true]

theorem allocStep_of_fits {prev current : Link} {s : Span Nat} (hk : k < 64)
    (hload : h.load current = s.lo) (hnull : s.lo ≠ 0) (hsize : h.size s.lo = s.hi - s.lo)
    (hproper : s.lo < s.hi) (hfits : Fits size (2 ^ k) s) :
    h.allocStep size (2 ^ k) (prev, current) =
      .inl (alignUp (2 ^ k) s.lo, h.take prev s (alignUp (2 ^ k) s.lo + size)) := by
  obtain ⟨hin, hbound⟩ := hfits
  have hpos : 0 < 2 ^ k := Nat.two_pow_pos k
  have hsub : checkedSub (2 ^ k) 1 = some (2 ^ k - 1) := if_pos hpos
  have hroom : s.lo + (2 ^ k - 1) < 2 ^ 64 := by
    by_contra hover
    have hle := le_alignUp_of_le hk.le (not_lt.mp hover)
    omega
  have hadd : checkedAdd 64 s.lo (2 ^ k - 1) = some (s.lo + (2 ^ k - 1)) :=
    checkedAdd_eq_some.mpr ⟨hroom, rfl⟩
  have hmask : (s.lo + (2 ^ k - 1)) &&& complement 64 (2 ^ k - 1) = alignUp (2 ^ k) s.lo :=
    and_complement_two_pow hroom hk.le
  have hlast : checkedAdd 64 (alignUp (2 ^ k) s.lo) size = some (alignUp (2 ^ k) s.lo + size) :=
    checkedAdd_eq_some.mpr ⟨by omega, rfl⟩
  have hend : checkedAdd 64 s.lo (s.hi - s.lo) = some s.hi :=
    checkedAdd_eq_some.mpr ⟨by omega, by omega⟩
  simp only [allocStep, hload, if_neg hnull, hsub, hadd, hmask, hlast, hsize, hend, if_pos hin,
    take]
  split <;> rfl

theorem allocStep_of_misfit {prev current : Link} {s : Span Nat} (hk : k < 64)
    (hload : h.load current = s.lo) (hnull : s.lo ≠ 0) (hsize : h.size s.lo = s.hi - s.lo)
    (hproper : s.lo < s.hi) (hfits : ¬ Fits size (2 ^ k) s) :
    h.allocStep size (2 ^ k) (prev, current) = .inr (.next s.lo, .next s.lo) := by
  have hpos : 0 < 2 ^ k := Nat.two_pow_pos k
  have hsub : checkedSub (2 ^ k) 1 = some (2 ^ k - 1) := if_pos hpos
  simp only [allocStep, hload, if_neg hnull, hsub, hsize]
  split
  · rfl
  · next unmasked hadd =>
    obtain ⟨hroom, rfl⟩ := checkedAdd_eq_some.mp hadd
    have hmask : (s.lo + (2 ^ k - 1)) &&& complement 64 (2 ^ k - 1) = alignUp (2 ^ k) s.lo :=
      and_complement_two_pow hroom hk.le
    rw [hmask]
    split
    · rfl
    · next last hlast =>
      obtain ⟨-, rfl⟩ := checkedAdd_eq_some.mp hlast
      split
      · rfl
      · next chunkEnd hend =>
        obtain ⟨hbound, rfl⟩ := checkedAdd_eq_some.mp hend
        have hhi : s.lo + (s.hi - s.lo) = s.hi := by omega
        rw [hhi] at hbound ⊢
        rw [if_neg fun hle => hfits ⟨hle, hbound⟩]

/-- The loop of `alloc` from the link after `pre`: it takes the first chunk that fits. -/
theorem alloc_loop (hk : k < 64) {pre post : List (Span Nat)}
    (hpath : h.Path h.head (pre ++ post) 0) (hr : Roomy (pre ++ post)) {fuel : Nat}
    (hfuel : post.length < fuel) :
    let result := Loop.iterate (h.allocStep size (2 ^ k)) fuel (linkAfter pre, linkAfter pre)
    ((∀ s ∈ post, ¬ Fits size (2 ^ k) s) ∧ result = some (0, h)) ∨
    ∃ mid s rest, post = mid ++ s :: rest ∧ (∀ t ∈ mid, ¬ Fits size (2 ^ k) t) ∧
      Fits size (2 ^ k) s ∧ result = some (alignUp (2 ^ k) s.lo,
        h.take (linkAfter (pre ++ mid)) s (alignUp (2 ^ k) s.lo + size)) := by
  induction post generalizing pre fuel with
  | nil =>
    obtain ⟨fuel, rfl⟩ := Nat.exists_eq_add_one_of_ne_zero (Nat.pos_iff_ne_zero.mp hfuel)
    have hload : h.load (linkAfter pre) = 0 := load_linkAfter (by simpa using hpath)
    exact .inl ⟨by simp, Loop.iterate_of_inl (allocStep_of_null hload) fuel⟩
  | cons s post ih =>
    obtain ⟨fuel, rfl⟩ := Nat.exists_eq_add_one_of_ne_zero (Nat.ne_of_gt (Nat.zero_lt_of_lt hfuel))
    obtain ⟨mid, hpre, hstart, hnull, hsize, hrest⟩ := path_append.mp hpath
    have hload : h.load (linkAfter pre) = s.lo := (load_linkAfter hpre).trans hstart
    have hproper : s.lo < s.hi := hr.proper s (by simp)
    by_cases hfits : Fits size (2 ^ k) s
    · refine .inr ⟨[], s, post, rfl, by simp, hfits, ?_⟩
      rw [List.append_nil]
      exact Loop.iterate_of_inl (allocStep_of_fits hk hload hnull hsize hproper hfits) fuel
    · have hadvance : h.allocStep size (2 ^ k) (linkAfter pre, linkAfter pre) =
          .inr (.next s.lo, .next s.lo) :=
        allocStep_of_misfit hk hload hnull hsize hproper hfits
      rw [List.append_cons] at hpath hr
      have hnext := ih hpath hr (Nat.lt_of_succ_lt_succ hfuel)
      simp only [Loop.iterate_of_inr hadvance, linkAfter_concat] at hnext ⊢
      rcases hnext with ⟨hnone, hresult⟩ | ⟨mid, t, rest, rfl, hmid, ht, hresult⟩
      · exact .inl ⟨List.forall_mem_cons.mpr ⟨hfits, hnone⟩, hresult⟩
      · refine .inr ⟨s :: mid, t, rest, rfl, List.forall_mem_cons.mpr ⟨hfits, hmid⟩, ht, ?_⟩
        rw [hresult, List.append_assoc, List.singleton_append]

theorem header_apart {s t : Span Nat} (hs : s.lo + FREE_CHUNK_SIZE ≤ s.hi) (hle : s.hi ≤ t.lo)
    (a : Nat) (ha : InHeader s.lo a) : ¬ InHeader t.lo a := by
  simp only [InHeader, FREE_CHUNK_SIZE] at *
  omega

theorem header_covered {l : List (Span Nat)} (hr : Roomy l) {a : Nat}
    (ha : ∃ s ∈ l, InHeader s.lo a) : Span.Covers l a := by
  obtain ⟨s, hs, hlo, hhi⟩ := ha
  exact ⟨s, hs, hlo, hhi.trans_le (hr s hs)⟩

section Take
variable {pre post : List (Span Nat)} {s : Span Nat} {last : Nat}

theorem path_unlink (hpath : h.Path h.head (pre ++ s :: post) 0)
    (ho : Span.Ordered (pre ++ s :: post)) (hr : Roomy (pre ++ s :: post)) :
    let h' := h.store (h.next s.lo) (linkAfter pre)
    h'.Path h'.head (pre ++ post) 0 := by
  obtain ⟨mid, hpre, -, -, -, hpost⟩ := path_append.mp hpath
  obtain ⟨hopre, homid, hcross⟩ := List.pairwise_append.mp ho
  have hrpre : Roomy pre := fun t ht => hr t (by simp [ht])
  refine path_append.mpr ⟨_, path_store hpre hopre hrpre (next_lt h _), ?_⟩
  refine hpost.frame (edited_store h pre _) ?_
  rintro t ht a ha ⟨u, hu, ha'⟩
  exact header_apart (hrpre u hu) (hcross u hu t (by simp [ht])) a ha' ha

theorem path_link {p q : Nat} (hpre : h.Path h.head pre q) (hpost : h.Path p post 0)
    (ho : Span.Ordered (pre ++ s :: post)) (hr : Roomy (pre ++ s :: post)) (hnull : s.lo ≠ 0)
    (hlo : s.lo < 2 ^ 64) (hsize : h.size s.lo = s.hi - s.lo) (hnext : h.next s.lo = p) :
    let h' := h.store s.lo (linkAfter pre)
    h'.Path h'.head (pre ++ s :: post) 0 := by
  intro h'
  obtain ⟨hopre, -, hcross⟩ := List.pairwise_append.mp ho
  have hrpre : Roomy pre := fun t ht => hr t (by simp [ht])
  have hstore : Edited (fun a => ∃ t ∈ pre, InHeader t.lo a) h h' := edited_store h pre s.lo
  have hout : ∀ t ∈ s :: post, ∀ a, InHeader t.lo a → ¬ ∃ u ∈ pre, InHeader u.lo a := by
    rintro t ht a ha ⟨u, hu, ha'⟩
    exact header_apart (hrpre u hu) (hcross u hu t ht) a ha' ha
  obtain ⟨hsame, hkept⟩ := hstore.header (hout s (by simp))
  refine path_append.mpr ⟨s.lo, path_store hpre hopre hrpre hlo, rfl, hnull, hsame.trans hsize, ?_⟩
  rw [hkept, hnext]
  exact hpost.frame hstore fun t ht => hout t (List.mem_cons_of_mem s ht)

theorem path_shrink (hpath : h.Path h.head (pre ++ s :: post) 0)
    (ho : Span.Ordered (pre ++ s :: post)) (hr : Roomy (pre ++ s :: post))
    (hlo : s.lo + FREE_CHUNK_SIZE ≤ last) (hhi : last + FREE_CHUNK_SIZE ≤ s.hi)
    (hbound : s.hi < 2 ^ 64) :
    let h₁ := h.setSize last (s.hi - last)
    let h₂ := h₁.setNext last (h₁.next s.lo)
    let h' := h₂.store last (linkAfter pre)
    h'.Path h'.head (pre ++ ⟨last, s.hi⟩ :: post) 0 := by
  intro h₁ h₂
  obtain ⟨mid, hpre, -, -, -, hpost⟩ := path_append.mp hpath
  obtain ⟨hopre, homid, hcross⟩ := List.pairwise_append.mp ho
  obtain ⟨hrest, hopost⟩ := List.pairwise_cons.mp homid
  have hedit : Edited (InHeader last) h h₂ :=
    (edited_setSize h last _).trans (edited_setNext h₁ last _)
  have hkept : h₁.next s.lo = h.next s.lo :=
    ((edited_setSize h last _).header fun a => by
      simp only [InHeader, FREE_CHUNK_SIZE] at *
      omega).2
  have hordered : Span.Ordered (pre ++ ⟨last, s.hi⟩ :: post) := by
    refine List.pairwise_append.mpr ⟨hopre, List.pairwise_cons.mpr ⟨hrest, hopost⟩, ?_⟩
    intro t ht u hu
    cases List.mem_cons.mp hu with
    | inl hnew =>
      have hle := hcross t ht s (by simp)
      subst hnew
      exact hle.trans ((Nat.le_add_right _ _).trans hlo)
    | inr hu => exact hcross t ht u (by simp [hu])
  have hroomy : Roomy (pre ++ ⟨last, s.hi⟩ :: post) := by
    intro t ht
    simp only [List.mem_append, List.mem_cons] at ht
    rcases ht with ht | rfl | ht
    · exact hr t (by simp [ht])
    · exact hhi
    · exact hr t (by simp [ht])
  -- the new header lies above the chunks before and below the chunks after
  have hpre_out : ∀ t ∈ pre, ∀ a, InHeader t.lo a → ¬ InHeader last a := fun t ht =>
    header_apart (hr t (by simp [ht]))
      ((List.pairwise_append.mp hordered).2.2 t ht ⟨last, s.hi⟩ (by simp))
  have hpost_out : ∀ t ∈ post, ∀ a, InHeader t.lo a → ¬ InHeader last a := fun t ht a ha ha' =>
    header_apart (s := ⟨last, s.hi⟩) hhi (hrest t ht) a ha' ha
  have hnext : h₂.next last = h.next s.lo := (next_setNext (next_lt h₁ _)).trans hkept
  have hsize : h₂.size last = s.hi - last := by
    rw [size_setNext, size_setSize (by omega)]
  have hnull : last ≠ 0 := by
    simp only [FREE_CHUNK_SIZE] at hlo
    omega
  have hlast : last < 2 ^ 64 := by
    simp only [FREE_CHUNK_SIZE] at hhi
    omega
  exact path_link (s := ⟨last, s.hi⟩) (hpre.frame hedit hpre_out) (hpost.frame hedit hpost_out)
    hordered hroomy hnull hlast hsize hnext

theorem path_take (hpath : h.Path h.head (pre ++ s :: post) 0)
    (ho : Span.Ordered (pre ++ s :: post)) (hr : Roomy (pre ++ s :: post))
    (hlo : s.lo + FREE_CHUNK_SIZE ≤ last) (hbound : s.hi < 2 ^ 64) :
    (h.take (linkAfter pre) s last).Path (h.take (linkAfter pre) s last).head
      (pre ++ (tail last s ++ post)) 0 := by
  rw [take, tail]
  split
  · exact path_shrink hpath ho hr hlo (by simp only [FREE_CHUNK_SIZE] at *; omega) hbound
  · exact path_unlink hpath ho hr

/-- All header writes land in the free list that is left. -/
theorem edited_take (hr : Roomy (pre ++ s :: post)) :
    Edited (Span.Covers (pre ++ (tail last s ++ post))) h (h.take (linkAfter pre) s last) := by
  have hlinks : ∀ a, (∃ t ∈ pre, InHeader t.lo a) →
      Span.Covers (pre ++ (tail last s ++ post)) a := by
    rintro a ⟨t, ht, hlo, hhi⟩
    exact ⟨t, by simp [ht], hlo, hhi.trans_le (hr t (by simp [ht]))⟩
  rw [take]
  split
  · next hroom =>
    have hnew : ∀ a, InHeader last a → Span.Covers (pre ++ (tail last s ++ post)) a := by
      rintro a ⟨hlast, hlt⟩
      refine ⟨⟨last, s.hi⟩, by simp [tail, hroom], hlast, ?_⟩
      simp only [FREE_CHUNK_SIZE] at *
      omega
    exact (((edited_setSize h last _).mono hnew).trans ((edited_setNext _ last _).mono hnew)).trans
      ((edited_store _ pre _).mono hlinks)
  · exact (edited_store h pre _).mono hlinks

end Take

end Heap

def Layout.blockSize (layout : Layout) : Nat := max layout.size FREE_CHUNK_SIZE

def Layout.blockAlign (layout : Layout) : Nat := max layout.align FREE_CHUNK_ALIGN

theorem Layout.blockAlign_pow (layout : Layout) : ∃ k < 64, layout.blockAlign = 2 ^ k := by
  obtain ⟨k, hk, halign⟩ := layout.align_pow
  refine ⟨max k 3, by omega, ?_⟩
  rw [blockAlign, halign, FREE_CHUNK_ALIGN]
  by_cases hle : 3 ≤ k
  · have hpow : 2 ^ 3 ≤ 2 ^ k := Nat.pow_le_pow_right (by omega) hle
    have hmax : max k 3 = k := by omega
    rw [hmax]
    omega
  · have hpow : 2 ^ k ≤ 2 ^ 3 := Nat.pow_le_pow_right (by omega) (by omega)
    have hmax : max k 3 = 3 := by omega
    rw [hmax]
    omega

theorem Layout.blockAlign_pos (layout : Layout) : 0 < layout.blockAlign := by
  obtain ⟨k, -, halign⟩ := layout.blockAlign_pow
  rw [halign]
  exact Nat.two_pow_pos k

theorem Layout.align_dvd (layout : Layout) : layout.align ∣ layout.blockAlign := by
  obtain ⟨k, -, halign⟩ := layout.align_pow
  obtain ⟨j, -, hblock⟩ := layout.blockAlign_pow
  have hle : layout.align ≤ layout.blockAlign := le_max_left _ _
  rw [halign, hblock] at hle ⊢
  exact Nat.pow_dvd_pow 2 ((Nat.pow_le_pow_iff_right (by omega)).mp hle)

namespace Heap
variable {h : Heap} {l : List (Span Nat)}

/-- The walk of `alloc`: nothing fits, or the writes at the first fitting chunk follow. -/
theorem alloc_walk (hpath : h.Path h.head l 0) (hr : Roomy l) (layout : Layout) {fuel : Nat}
    (hfuel : l.length < fuel) :
    ((∀ s ∈ l, ¬ Fits layout.blockSize layout.blockAlign s) ∧ h.alloc fuel layout = some (0, h)) ∨
    ∃ pre s post, l = pre ++ s :: post ∧
      (∀ t ∈ pre, ¬ Fits layout.blockSize layout.blockAlign t) ∧
      Fits layout.blockSize layout.blockAlign s ∧
      h.alloc fuel layout = some (alignUp layout.blockAlign s.lo,
        h.take (linkAfter pre) s (alignUp layout.blockAlign s.lo + layout.blockSize)) := by
  obtain ⟨k, hk, halign⟩ := layout.blockAlign_pow
  have halloc : h.alloc fuel layout = Loop.iterate (h.allocStep layout.blockSize (2 ^ k)) fuel
      (linkAfter [], linkAfter []) := by
    rw [← halign]
    rfl
  rw [halloc, halign]
  have hwhole : h.Path h.head ([] ++ l) 0 := hpath
  rcases @alloc_loop h layout.blockSize k hk [] l hwhole hr fuel hfuel with
    ⟨hnone, hresult⟩ | ⟨pre, s, post, rfl, hpre, hfits, hresult⟩
  · exact .inl ⟨hnone, hresult⟩
  · exact .inr ⟨pre, s, post, rfl, hpre, hfits, hresult⟩

/-- What is left above a block has a header's room below it. -/
theorem room_below_tail (layout : Layout) (s : Span Nat) :
    s.lo + FREE_CHUNK_SIZE ≤ alignUp layout.blockAlign s.lo + layout.blockSize := by
  have hup := le_alignUp layout.blockAlign_pos s.lo
  have hblock : FREE_CHUNK_SIZE ≤ layout.blockSize := le_max_right _ _
  omega

/-- `alloc` by its two outcomes: nothing fits, or the first fitting chunk is cut. -/
theorem alloc_cases (hpath : h.Path h.head l 0) (ho : Span.Ordered l) (hr : Roomy l)
    (layout : Layout) {fuel : Nat} (hfuel : l.length < fuel) :
    ((∀ s ∈ l, ¬ Fits layout.blockSize layout.blockAlign s) ∧ h.alloc fuel layout = some (0, h)) ∨
    ∃ pre s post h', l = pre ++ s :: post ∧
      (∀ t ∈ pre, ¬ Fits layout.blockSize layout.blockAlign t) ∧
      Fits layout.blockSize layout.blockAlign s ∧
      h.alloc fuel layout = some (alignUp layout.blockAlign s.lo, h') ∧
      h'.Path h'.head
        (pre ++ (tail (alignUp layout.blockAlign s.lo + layout.blockSize) s ++ post)) 0 ∧
      Edited (Span.Covers
        (pre ++ (tail (alignUp layout.blockAlign s.lo + layout.blockSize) s ++ post))) h h' := by
  rcases alloc_walk hpath hr layout hfuel with
    ⟨hnone, hresult⟩ | ⟨pre, s, post, rfl, hpre, hfits, hresult⟩
  · exact .inl ⟨hnone, hresult⟩
  · exact .inr ⟨pre, s, post, _, rfl, hpre, hfits, hresult,
      path_take hpath ho hr (room_below_tail layout s) hfits.2, edited_take hr⟩

/-! ### Giving back -/

/-- The first walk of `dealloc` stops behind the chunks below the block. -/
theorem insertion_loop {chunk : Nat} {pre post : List (Span Nat)}
    (hpath : h.Path h.head (pre ++ post) 0) {fuel : Nat} (hfuel : post.length < fuel) :
    Loop.iterate (h.insertionStep chunk) fuel (linkAfter pre) =
      some (linkAfter (pre ++ Span.before chunk post)) := by
  induction post generalizing pre fuel with
  | nil =>
    obtain ⟨fuel, rfl⟩ := Nat.exists_eq_add_one_of_ne_zero (Nat.ne_of_gt hfuel)
    have hload : h.load (linkAfter pre) = 0 := load_linkAfter (by simpa using hpath)
    have hstop : h.insertionStep chunk (linkAfter pre) = .inl (linkAfter pre) := by
      simp [insertionStep, hload]
    rw [Loop.iterate_of_inl hstop]
    simp [Span.before]
  | cons s post ih =>
    obtain ⟨fuel, rfl⟩ := Nat.exists_eq_add_one_of_ne_zero (Nat.ne_of_gt (Nat.zero_lt_of_lt hfuel))
    obtain ⟨mid, hpre, hstart, hnull, -, -⟩ := path_append.mp hpath
    have hload : h.load (linkAfter pre) = s.lo := (load_linkAfter hpre).trans hstart
    by_cases hlt : s.lo < chunk
    · have hgo : h.insertionStep chunk (linkAfter pre) = .inr (linkAfter (pre ++ [s])) := by
        simp [insertionStep, hload, hnull, hlt]
      rw [List.append_cons] at hpath
      rw [Loop.iterate_of_inr hgo, ih hpath (Nat.lt_of_succ_lt_succ hfuel)]
      simp [Span.before, hlt]
    · have hstop : h.insertionStep chunk (linkAfter pre) = .inl (linkAfter pre) := by
        simp [insertionStep, hload, hlt]
      rw [Loop.iterate_of_inl hstop]
      simp [Span.before, hlt]

/-- The second walk of `dealloc` finds the chunk before the block. -/
theorem previous_loop {b : Span Nat} {mid post : List (Span Nat)} {p previous : Nat}
    (hpath : h.Path p (mid ++ b :: post) 0) (hbelow : ∀ t ∈ mid, t.lo ≠ b.lo) {fuel : Nat}
    (hfuel : mid.length < fuel) :
    Loop.iterate (h.previousStep b.lo) fuel (previous, p) =
      some ((mid.getLast?.map Span.lo).getD previous) := by
  induction mid generalizing p previous fuel with
  | nil =>
    obtain ⟨fuel, rfl⟩ := Nat.exists_eq_add_one_of_ne_zero (Nat.ne_of_gt hfuel)
    obtain ⟨rfl, -⟩ := hpath
    have hstop : h.previousStep b.lo (previous, b.lo) = .inl previous := by
      simp [previousStep]
    rw [Loop.iterate_of_inl hstop]
    rfl
  | cons s mid ih =>
    obtain ⟨fuel, rfl⟩ := Nat.exists_eq_add_one_of_ne_zero (Nat.ne_of_gt (Nat.zero_lt_of_lt hfuel))
    obtain ⟨rfl, hnull, -, hrest⟩ := hpath
    have hgo : h.previousStep b.lo (previous, s.lo) = .inr (s.lo, h.next s.lo) := by
      simp [previousStep, hnull, hbelow s (by simp)]
    rw [Loop.iterate_of_inr hgo,
      ih hrest (fun t ht => hbelow t (List.mem_cons_of_mem s ht)) (Nat.lt_of_succ_lt_succ hfuel)]
    cases mid with
    | nil => rfl
    | cons u mid =>
      have hlast := List.getLast?_eq_some_getLast (List.cons_ne_nil u mid)
      rw [List.getLast?_cons_cons, hlast]
      rfl

section Merge
variable {pre post : List (Span Nat)} {s t : Span Nat}

theorem touching_iff (hs : s.lo < s.hi) (hbound : t.lo < 2 ^ 64) :
    checkedAdd 64 s.lo (s.hi - s.lo) = some t.lo ↔ s.hi = t.lo := by
  rw [checkedAdd_eq_some]
  omega

theorem edited_mergeTouching (h : Heap) (first second : Nat) :
    Edited (InHeader first) h (h.mergeTouching first second) := by
  rw [mergeTouching]
  split
  · split
    · exact (edited_setSize h first _).trans (edited_setNext _ first _)
    · exact .refl _ _
  · exact .refl _ _

/-- Merging glues two neighbouring chunks exactly when they touch. -/
theorem path_merge (hpath : h.Path h.head (pre ++ s :: t :: post) 0)
    (ho : Span.Ordered (pre ++ s :: t :: post)) (hr : Roomy (pre ++ s :: t :: post))
    (hbound : t.hi < 2 ^ 64) :
    (h.mergeTouching s.lo t.lo).Path (h.mergeTouching s.lo t.lo).head
      (pre ++ Span.glue [s] (t :: post)) 0 := by
  obtain ⟨mid, hpre, hmid, hnull, hsize, hstart, hnull', hsize', hpost⟩ := path_append.mp hpath
  obtain ⟨-, homid, hcross⟩ := List.pairwise_append.mp ho
  obtain ⟨hrest, homid⟩ := List.pairwise_cons.mp homid
  have hroom := hr s (by simp)
  have hroom' := hr t (by simp)
  have hproper : s.lo < s.hi := hr.proper s (by simp)
  have hproper' : t.lo < t.hi := hr.proper t (by simp)
  rw [Span.singleton_glue_cons, mergeTouching, hsize]
  by_cases htouch : s.hi = t.lo
  · have hsum : checkedAdd 64 (s.hi - s.lo) (h.size t.lo) = some (t.hi - s.lo) := by
      rw [hsize', checkedAdd_eq_some]
      omega
    rw [if_pos ((touching_iff hproper (by omega)).mpr htouch), if_pos htouch]
    simp only [hsum]
    have hedit := edited_setSize h s.lo (t.hi - s.lo)
    have hnext : (h.setSize s.lo (t.hi - s.lo)).next t.lo = h.next t.lo :=
      (hedit.header fun a ha ha' => header_apart hroom (hrest t (by simp)) a ha' ha).2
    have hboth := hedit.trans (edited_setNext (h.setSize s.lo (t.hi - s.lo)) s.lo (h.next t.lo))
    rw [hnext]
    refine path_append.mpr ⟨mid, hpre.frame hboth fun u hu => ?_, hmid, hnull, ?_, ?_⟩
    · exact header_apart (hr u (by simp [hu])) (hcross u hu s (by simp))
    · rw [size_setNext, size_setSize (by omega)]
    · rw [next_setNext (next_lt h _)]
      refine hpost.frame hboth fun u hu a ha ha' => ?_
      exact header_apart hroom (hrest u (by simp [hu])) a ha' ha
  · rw [if_neg (mt (touching_iff hproper (by omega)).mp htouch), if_neg htouch]
    exact hpath

end Merge

section Dealloc
variable {b : Span Nat}

def Freeing (l : List (Span Nat)) (b : Span Nat) (a : Nat) : Prop := Span.Covers l a ∨ b.Contains a

theorem freeing_of_header (hb : b.lo + FREE_CHUNK_SIZE ≤ b.hi) (a : Nat) (ha : InHeader b.lo a) :
    Freeing l b a :=
  .inr ⟨ha.1, ha.2.trans_le hb⟩

theorem freeing_of_link (hr : Roomy l) {pre : List (Span Nat)} (hsub : ∀ t ∈ pre, t ∈ l) (a : Nat)
    (ha : ∃ t ∈ pre, InHeader t.lo a) : Freeing l b a := by
  obtain ⟨t, ht, hin⟩ := ha
  exact .inl (header_covered hr ⟨t, hsub t ht, hin⟩)

theorem roomy_insertion (hr : Roomy l) (hb : b.lo + FREE_CHUNK_SIZE ≤ b.hi) :
    Roomy (Span.before b.lo l ++ b :: Span.after b.lo l) := by
  intro t ht
  simp only [List.mem_append, List.mem_cons] at ht
  rcases ht with ht | rfl | ht
  · exact hr t ((List.takeWhile_sublist _).subset ht)
  · exact hb
  · exact hr t ((List.dropWhile_sublist _).subset ht)

/-- Writing the header of the block and linking it in at its place. -/
theorem path_inserted (hpath : h.Path h.head l 0) (hr : Roomy l) (hbounds : ∀ t ∈ l, t.hi < 2 ^ 64)
    (hnull : b.lo ≠ 0) (hb : b.lo + FREE_CHUNK_SIZE ≤ b.hi) (hbound : b.hi < 2 ^ 64)
    (hfits : Span.Fits b l) :
    let h' := (h.setSize b.lo (b.hi - b.lo)).linkIn b.lo (linkAfter (Span.before b.lo l))
    h'.Path h'.head (Span.before b.lo l ++ b :: Span.after b.lo l) 0 ∧
      Edited (Freeing l b) h h' := by
  intro h'
  have hroomy := roomy_insertion hr hb
  obtain ⟨-, hmid, hcross⟩ := List.pairwise_append.mp hfits
  have hpre_out : ∀ t ∈ Span.before b.lo l, ∀ a, InHeader t.lo a → ¬ InHeader b.lo a :=
    fun t ht => header_apart (hroomy t (by simp [ht])) (hcross t ht b (by simp))
  have hpost_out : ∀ t ∈ Span.after b.lo l, ∀ a, InHeader t.lo a → ¬ InHeader b.lo a :=
    fun t ht a ha ha' => header_apart hb ((List.pairwise_cons.mp hmid).1 t ht) a ha' ha
  rw [← Span.before_append_after b.lo l] at hpath
  obtain ⟨q, hpre, hpost⟩ := path_append.mp hpath
  have hpre₁ := hpre.frame (edited_setSize h b.lo (b.hi - b.lo)) hpre_out
  let h₁ := h.setSize b.lo (b.hi - b.lo)
  let h₂ := h₁.setNext b.lo (h₁.load (linkAfter (Span.before b.lo l)))
  have hload : h₁.load (linkAfter (Span.before b.lo l)) = q := load_linkAfter hpre₁
  have hq : q < 2 ^ 64 := by
    cases hafter : Span.after b.lo l with
    | nil =>
      rw [hafter] at hpost
      have hzero : q = 0 := hpost
      omega
    | cons n rest =>
      rw [hafter] at hpost
      have hn : n ∈ Span.after b.lo l := by simp [hafter]
      have hlt := hbounds n ((List.dropWhile_sublist _).subset hn)
      have hproper := hroomy.proper n (by simp [hafter])
      have hstart : q = n.lo := hpost.1
      omega
  have hedit : Edited (InHeader b.lo) h h₂ :=
    (edited_setSize h b.lo _).trans (edited_setNext h₁ b.lo _)
  have hsize : h₂.size b.lo = b.hi - b.lo := by
    rw [size_setNext, size_setSize (by omega)]
  have hnext : h₂.next b.lo = q := by
    rw [next_setNext (by omega), hload]
  refine ⟨path_link (hpre.frame hedit hpre_out) (hpost.frame hedit hpost_out) hfits hroomy hnull
    (by omega) hsize hnext, ?_⟩
  exact (hedit.mono (freeing_of_header hb)).trans
    ((edited_store h₂ _ b.lo).mono
      (freeing_of_link hr fun t ht => (List.takeWhile_sublist _).subset ht))

theorem glue_singleton (b : Span Nat) (post : List (Span Nat)) (hbound : b.hi < 2 ^ 64)
    (hbounds : ∀ t ∈ post, t.hi < 2 ^ 64) :
    ∃ hi rest, Span.glue [b] post = ⟨b.lo, hi⟩ :: rest ∧ hi < 2 ^ 64 := by
  cases post with
  | nil => exact ⟨b.hi, [], rfl, hbound⟩
  | cons n rest =>
    rw [Span.singleton_glue_cons]
    split
    · exact ⟨n.hi, rest, rfl, hbounds n (by simp)⟩
    · exact ⟨b.hi, n :: rest, rfl, hbound⟩

theorem path_merge_next {pre post : List (Span Nat)} (hpath : h.Path h.head (pre ++ b :: post) 0)
    (ho : Span.Ordered (pre ++ b :: post)) (hr : Roomy (pre ++ b :: post))
    (hbounds : ∀ t ∈ post, t.hi < 2 ^ 64) :
    (h.mergeNext b.lo).Path (h.mergeNext b.lo).head (pre ++ Span.glue [b] post) 0 := by
  obtain ⟨mid, hpre, rfl, hnull, hsize, hpost⟩ := path_append.mp hpath
  cases post with
  | nil =>
    have hnext : h.next b.lo = 0 := hpost
    rw [mergeNext, if_neg (not_not.mpr hnext)]
    exact hpath
  | cons n rest =>
    obtain ⟨hstart, hnull', -, -⟩ := hpost
    simp only [mergeNext, hstart, if_pos hnull']
    exact path_merge hpath ho hr (hbounds n (by simp))

theorem edited_merge_next (h : Heap) (chunk : Nat) :
    Edited (InHeader chunk) h (h.mergeNext chunk) := by
  rw [mergeNext]
  split
  · exact edited_mergeTouching h chunk _
  · exact .refl _ _

theorem path_merge_previous {pre post : List (Span Nat)} {hi : Nat}
    (hpath : h.Path h.head (pre ++ ⟨b.lo, hi⟩ :: post) 0)
    (ho : Span.Ordered (pre ++ ⟨b.lo, hi⟩ :: post)) (hr : Roomy (pre ++ ⟨b.lo, hi⟩ :: post))
    (hbound : hi < 2 ^ 64) :
    let h' := h.mergePrevious ((pre.getLast?.map Span.lo).getD 0) b.lo
    h'.Path h'.head (Span.glue pre (⟨b.lo, hi⟩ :: post)) 0 ∧
      Edited (fun a => ∃ t ∈ pre, InHeader t.lo a) h h' := by
  cases List.eq_nil_or_concat' pre with
  | inl hnil =>
    subst hnil
    exact ⟨hpath, .refl _ _⟩
  | inr hconcat =>
    obtain ⟨front, p, rfl⟩ := hconcat
    have hlast : ((front ++ [p]).getLast?.map Span.lo).getD 0 = p.lo := by simp
    rw [List.append_assoc, List.singleton_append] at hpath ho hr
    have hnull : p.lo ≠ 0 := by
      obtain ⟨mid, -, -, hnull, -, -⟩ := path_append.mp hpath
      exact hnull
    simp only [mergePrevious, hlast, if_pos hnull, Span.append_singleton_glue]
    refine ⟨path_merge hpath ho hr hbound, ?_⟩
    exact (edited_mergeTouching h p.lo b.lo).mono fun a ha => ⟨p, by simp, ha⟩

theorem roomy_glue {l r : List (Span Nat)} (hl : Roomy l) (hr : Roomy r) :
    Roomy (Span.glue l r) := by
  fun_induction Span.glue l r with
  | case1 right => exact hr
  | case2 s t right htouch =>
    have hs := hl s (by simp)
    have ht := hr t (by simp)
    intro u hu
    cases List.mem_cons.mp hu with
    | inl hu =>
      subst hu
      simp only at *
      omega
    | inr hu => exact hr u (by simp [hu])
  | case3 s t right hne =>
    intro u hu
    cases List.mem_cons.mp hu with
    | inl hu => exact hu ▸ hl s (by simp)
    | inr hu => exact hr u hu
  | case4 s left right _ ih =>
    intro u hu
    cases List.mem_cons.mp hu with
    | inl hu => exact hu ▸ hl s (by simp)
    | inr hu => exact ih (fun t ht => hl t (by simp [ht])) hr u hu

theorem path_setSize {q : Nat} (value : Nat) (hpath : h.Path q l 0) (hr : Roomy l)
    (hb : b.lo + FREE_CHUNK_SIZE ≤ b.hi) (hfits : Span.Fits b l) :
    (h.setSize b.lo value).Path q l 0 := by
  obtain ⟨-, hmid, hcross⟩ := List.pairwise_append.mp hfits
  refine hpath.frame (edited_setSize h b.lo value) fun t ht a ha ha' => ?_
  rw [← Span.before_append_after b.lo l] at ht
  cases List.mem_append.mp ht with
  | inl ht =>
    have hroom := hr t ((List.takeWhile_sublist _).subset ht)
    exact header_apart hroom (hcross t ht b (by simp)) a ha ha'
  | inr ht => exact header_apart hb ((List.pairwise_cons.mp hmid).1 t ht) a ha' ha

theorem roomy_glue_after (hr : Roomy l) (hb : b.lo + FREE_CHUNK_SIZE ≤ b.hi) :
    Roomy (Span.before b.lo l ++ Span.glue [b] (Span.after b.lo l)) := by
  have hroomy := roomy_insertion hr hb
  have hright : Roomy (Span.glue [b] (Span.after b.lo l)) :=
    roomy_glue (fun t ht => hroomy t (by simp_all)) fun t ht => hroomy t (by simp [ht])
  intro t ht
  cases List.mem_append.mp ht with
  | inl ht => exact hroomy t (by simp [ht])
  | inr ht => exact hright t ht

theorem roomy_insert (hr : Roomy l) (hb : b.lo + FREE_CHUNK_SIZE ≤ b.hi) :
    Roomy (Span.insert b l) := by
  have hroomy := roomy_glue_after hr hb
  exact roomy_glue (fun t ht => hroomy t (by simp [ht])) fun t ht => hroomy t (by simp [ht])

structure Returned (h h₂ h₃ : Heap) (l : List (Span Nat)) (b : Span Nat) (fuel : Nat) : Prop where
  insertion : Loop.iterate ((h.setSize b.lo (b.hi - b.lo)).insertionStep b.lo) fuel .head =
    some (linkAfter (Span.before b.lo l))
  opened : (h.setSize b.lo (b.hi - b.lo)).Path h.head l 0
  linked : h₂ = (h.setSize b.lo (b.hi - b.lo)).linkIn b.lo (linkAfter (Span.before b.lo l))
  path : h₂.Path h₂.head (Span.before b.lo l ++ b :: Span.after b.lo l) 0
  edited : Edited (Freeing l b) h h₂
  merged : h₃ = h₂.mergeNext b.lo
  glued : h₃.Path h₃.head (Span.before b.lo l ++ Span.glue [b] (Span.after b.lo l)) 0
  previous : Loop.iterate (h₃.previousStep b.lo) fuel (0, h₃.head) =
    some (((Span.before b.lo l).getLast?.map Span.lo).getD 0)

theorem dealloc_stages (hpath : h.Path h.head l 0) (hr : Roomy l)
    (hbounds : ∀ t ∈ l, t.hi < 2 ^ 64) (hnull : b.lo ≠ 0) (hroom : b.lo + FREE_CHUNK_SIZE ≤ b.hi)
    (hbound : b.hi < 2 ^ 64) (hfits : Span.Fits b l) {fuel : Nat} (hfuel : l.length < fuel) :
    ∃ h₂ h₃, Returned h h₂ h₃ l b fuel := by
  have hafter : ∀ t ∈ Span.after b.lo l, t.hi < 2 ^ 64 := fun t ht =>
    hbounds t ((List.dropWhile_sublist _).subset ht)
  have hbelow : ∀ t ∈ Span.before b.lo l, t.lo ≠ b.lo := fun t ht =>
    (Span.lo_lt_of_mem_before ht).ne
  have hshort : (Span.before b.lo l).length < fuel :=
    (List.takeWhile_sublist _).length_le.trans_lt hfuel
  obtain ⟨hi, rest, hglue, -⟩ := glue_singleton b (Span.after b.lo l) hbound hafter
  have hopened := path_setSize (b.hi - b.lo) hpath hr hroom hfits
  have hinsertion := @insertion_loop (h.setSize b.lo (b.hi - b.lo)) b.lo [] l hopened fuel hfuel
  rw [linkAfter_nil, List.nil_append] at hinsertion
  obtain ⟨hinserted, hedit⟩ := path_inserted hpath hr hbounds hnull hroom hbound hfits
  have hmerged := path_merge_next hinserted hfits (roomy_insertion hr hroom) hafter
  refine ⟨_, _, hinsertion, hopened, rfl, hinserted, hedit, rfl, hmerged, ?_⟩
  rw [hglue] at hmerged
  exact @previous_loop _ ⟨b.lo, hi⟩ _ rest _ 0 hmerged hbelow fuel hshort

theorem Returned.dealloc_eq {h₂ h₃ : Heap} {fuel : Nat} (hs : Returned h h₂ h₃ l b fuel)
    {layout : Layout} (hwidth : b.hi = b.lo + layout.blockSize) :
    h.dealloc fuel b.lo layout =
      some (h₃.mergePrevious (((Span.before b.lo l).getLast?.map Span.lo).getD 0) b.lo) := by
  have hsize : max layout.size FREE_CHUNK_SIZE = b.hi - b.lo := by
    rw [hwidth, Nat.add_sub_cancel_left]
    rfl
  simp only [dealloc, hsize, hs.insertion, Option.bind_eq_bind, Option.bind_some, ← hs.linked,
    ← hs.merged, hs.previous]
  rfl

/-- `dealloc` inserts the block into the free list, coalescing on both sides. -/
theorem dealloc_spec (hpath : h.Path h.head l 0) (hr : Roomy l) (hbounds : ∀ t ∈ l, t.hi < 2 ^ 64)
    {layout : Layout} (hnull : b.lo ≠ 0) (hwidth : b.hi = b.lo + layout.blockSize)
    (hbound : b.hi < 2 ^ 64) (hfits : Span.Fits b l) {fuel : Nat} (hfuel : l.length < fuel) :
    ∃ h', h.dealloc fuel b.lo layout = some h' ∧ h'.Path h'.head (Span.insert b l) 0 ∧
      Edited (Span.Covers (Span.insert b l)) h h' := by
  have hblock : FREE_CHUNK_SIZE ≤ layout.blockSize := le_max_right _ _
  have hroom : b.lo + FREE_CHUNK_SIZE ≤ b.hi := by omega
  have hproper : b.lo < b.hi := by
    simp only [FREE_CHUNK_SIZE] at hroom
    omega
  have hafter : ∀ t ∈ Span.after b.lo l, t.hi < 2 ^ 64 := fun t ht =>
    hbounds t ((List.dropWhile_sublist _).subset ht)
  have hordered := hfits.ordered_glue
  have hroomy := roomy_glue_after hr hroom
  obtain ⟨hi, rest, hglue, hhi⟩ := glue_singleton b (Span.after b.lo l) hbound hafter
  obtain ⟨h₂, h₃, hs⟩ := dealloc_stages hpath hr hbounds hnull hroom hbound hfits hfuel
  have hpath₃ := hs.glued
  rw [hglue] at hordered hroomy hpath₃
  obtain ⟨hpath₄, hedit₄⟩ := path_merge_previous hpath₃ hordered hroomy hhi
  refine ⟨_, hs.dealloc_eq hwidth, ?_, ?_⟩
  · rw [Span.insert, hglue]
    exact hpath₄
  · have hedit₃ := edited_merge_next h₂ b.lo
    rw [← hs.merged] at hedit₃
    have hedit := (hs.edited.trans (hedit₃.mono (freeing_of_header hroom))).trans
      (hedit₄.mono (freeing_of_link hr fun t ht => (List.takeWhile_sublist _).subset ht))
    refine hedit.mono fun a ha => ?_
    exact (Span.insert_covers hproper hr.proper a).mpr ha.symm

/-- The result of `dealloc` does not depend on the fuel. -/
theorem dealloc_unique {fuel fuel' ptr : Nat} {layout : Layout} {h₁ h₂ : Heap}
    (h₁_eq : h.dealloc fuel ptr layout = some h₁) (h₂_eq : h.dealloc fuel' ptr layout = some h₂) :
    h₁ = h₂ := by
  simp only [dealloc, Option.bind_eq_bind, Option.bind_eq_some_iff, Option.pure_def,
    Option.some_inj] at h₁_eq h₂_eq
  obtain ⟨link, hlink, previous, hprevious, rfl⟩ := h₁_eq
  obtain ⟨link', hlink', previous', hprevious', rfl⟩ := h₂_eq
  cases Loop.iterate_unique hlink hlink'
  cases Loop.iterate_unique hprevious hprevious'
  rfl

end Dealloc

end Heap
end AgnostOS.Allocator
