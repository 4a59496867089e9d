import AgnostOS.HeapAccounting

/-! Alignment of the headers. `dealloc` writes them at aligned blocks, but `alloc` puts the
header of a remainder wherever the block ends. -/
namespace AgnostOS.Allocator

/-! ### The headers that the calls read -/

def Link.chunks : Link → List Nat
  | .head => []
  | .next chunk => [chunk]

namespace Heap

def allocHeaders (fuel : Nat) (h : Heap) (layout : Layout) : List Nat :=
  (Loop.visited (h.allocStep layout.blockSize layout.blockAlign) fuel (.head, .head)).map
    fun links => h.load links.2

/-- The chunks whose headers `dealloc` reads: on its first walk, for the merge behind the
block, on its second walk, and for the merge before it. -/
def deallocHeaders (fuel : Nat) (h : Heap) (ptr : Nat) (layout : Layout) : List Nat :=
  let h := h.setSize ptr layout.blockSize
  (Loop.visited (h.insertionStep ptr) fuel .head).flatMap Link.chunks ++ ptr ::
    match Loop.iterate (h.insertionStep ptr) fuel .head with
    | none => []
    | some link =>
      let h := h.linkIn ptr link
      h.next ptr ::
        let h := h.mergeNext ptr
        (Loop.visited (h.previousStep ptr) fuel (0, h.head)).map Prod.snd ++
          (Loop.iterate (h.previousStep ptr) fuel (0, h.head)).toList

/-! ### Walks over aligned chunks -/

variable {h h' h'' : Heap}

def AlignedFrom (h : Heap) (p : Nat) : Prop :=
  ∃ l, h.Path p l 0 ∧ ∀ c ∈ l, FREE_CHUNK_ALIGN ∣ c.lo

theorem AlignedFrom.dvd {p : Nat} (hp : h.AlignedFrom p) : FREE_CHUNK_ALIGN ∣ p := by
  obtain ⟨l, hpath, hl⟩ := hp
  cases l with
  | nil =>
    have hnull : p = 0 := hpath
    rw [hnull]
    exact Nat.dvd_zero _
  | cons c l =>
    rw [hpath.1]
    exact hl c List.mem_cons_self

theorem AlignedFrom.next {p : Nat} (hp : h.AlignedFrom p) (hnull : p ≠ 0) :
    h.AlignedFrom (h.next p) := by
  obtain ⟨l, hpath, hl⟩ := hp
  cases l with
  | nil => exact absurd hpath hnull
  | cons c l =>
    obtain ⟨hstart, -, -, hrest⟩ := hpath
    rw [hstart]
    exact ⟨l, hrest, fun d hd => hl d (List.mem_cons_of_mem c hd)⟩

/-- When `alloc` goes on it follows the link of the chunk. -/
theorem allocStep_inr {size align : Nat} {prev current : Link} {links : Link × Link}
    (hstep : h.allocStep size align (prev, current) = .inr links) :
    h.load current ≠ 0 ∧ links = (.next (h.load current), .next (h.load current)) := by
  by_cases hnull : h.load current = 0
  · rw [allocStep_of_null hnull] at hstep
    cases hstep
  · refine ⟨hnull, ?_⟩
    simp only [allocStep, if_neg hnull] at hstep
    split at hstep
    · cases hstep
    · split at hstep
      · exact (Sum.inr.inj hstep).symm
      · split at hstep
        · exact (Sum.inr.inj hstep).symm
        · split at hstep
          · exact (Sum.inr.inj hstep).symm
          · split at hstep
            · split at hstep <;> cases hstep
            · exact (Sum.inr.inj hstep).symm

theorem allocHeaders_aligned (hfrom : h.AlignedFrom h.head) (fuel : Nat) (layout : Layout) :
    ∀ chunk ∈ h.allocHeaders fuel layout, FREE_CHUNK_ALIGN ∣ chunk := by
  intro chunk hchunk
  obtain ⟨links, hlinks, rfl⟩ := List.mem_map.mp hchunk
  have hwalk := @Loop.forall_visited _ _ (h.allocStep layout.blockSize layout.blockAlign)
    (fun links => h.AlignedFrom (h.load links.2)) (fun links next hfrom hnext => by
      obtain ⟨hnull, rfl⟩ := allocStep_inr hnext
      exact hfrom.next hnull) fuel (.head, .head) hfrom
  exact (hwalk links hlinks).dvd

theorem insertionStep_aligned {chunk : Nat} (hfrom : h.AlignedFrom h.head) (fuel : Nat) :
    ∀ c ∈ (Loop.visited (h.insertionStep chunk) fuel .head).flatMap Link.chunks,
      FREE_CHUNK_ALIGN ∣ c := by
  intro c hc
  obtain ⟨link, hlink, hc⟩ := List.mem_flatMap.mp hc
  have hwalk := @Loop.forall_visited _ _ (h.insertionStep chunk)
    (fun link => h.AlignedFrom (h.load link) ∧ ∀ c ∈ link.chunks, FREE_CHUNK_ALIGN ∣ c)
    (fun link next hlink hnext => by
      rw [insertionStep] at hnext
      split at hnext
      · next hon =>
        obtain rfl := (Sum.inr.inj hnext).symm
        refine ⟨hlink.1.next hon.1, fun c hc => ?_⟩
        rw [List.mem_singleton.mp hc]
        exact hlink.1.dvd
      · cases hnext) fuel .head ⟨hfrom, by simp [Link.chunks]⟩
  exact (hwalk link hlink).2 c hc

theorem previousStep_aligned {chunk previous : Nat} (hfrom : h.AlignedFrom h.head) (fuel : Nat) :
    ∀ c ∈ (Loop.visited (h.previousStep chunk) fuel (previous, h.head)).map Prod.snd,
      FREE_CHUNK_ALIGN ∣ c := by
  intro c hc
  obtain ⟨places, hplaces, rfl⟩ := List.mem_map.mp hc
  have hwalk := @Loop.forall_visited _ _ (h.previousStep chunk)
    (fun places => h.AlignedFrom places.2) (fun places next hfrom hnext => by
      rw [previousStep] at hnext
      split at hnext
      · next hon =>
        obtain rfl := (Sum.inr.inj hnext).symm
        exact hfrom.next hon.1
      · cases hnext) fuel (previous, h.head) hfrom
  exact (hwalk places hplaces).dvd

/-! ### Writing headers -/

def WroteAligned (h h' : Heap) : Prop :=
  ∃ words, h'.written = words ++ h.written ∧ ∀ w ∈ words, FREE_CHUNK_ALIGN ∣ w

theorem WroteAligned.refl (h : Heap) : WroteAligned h h := ⟨[], rfl, by simp⟩

theorem WroteAligned.trans (hf : WroteAligned h h') (hg : WroteAligned h' h'') :
    WroteAligned h h'' := by
  obtain ⟨words, hwords, hall⟩ := hf
  obtain ⟨words', hwords', hall'⟩ := hg
  refine ⟨words' ++ words, by rw [hwords', hwords, List.append_assoc], fun w hw => ?_⟩
  cases List.mem_append.mp hw with
  | inl hw => exact hall' w hw
  | inr hw => exact hall w hw

theorem WroteAligned.written_iff (hw : WroteAligned h h') :
    (∀ w ∈ h'.written, FREE_CHUNK_ALIGN ∣ w) ↔ ∀ w ∈ h.written, FREE_CHUNK_ALIGN ∣ w := by
  obtain ⟨words, hwords, hall⟩ := hw
  rw [hwords, List.forall_mem_append]
  exact and_iff_right hall

theorem wroteAligned_setSize {chunk : Nat} (hchunk : FREE_CHUNK_ALIGN ∣ chunk) (value : Nat) :
    WroteAligned h (h.setSize chunk value) :=
  ⟨[chunk], rfl, by simpa using hchunk⟩

theorem wroteAligned_setNext {chunk : Nat} (hchunk : FREE_CHUNK_ALIGN ∣ chunk) (value : Nat) :
    WroteAligned h (h.setNext chunk value) := by
  refine ⟨[chunk + 8], rfl, fun w hw => ?_⟩
  rw [List.mem_singleton.mp hw]
  exact Nat.dvd_add hchunk (Nat.dvd_refl 8)

theorem wroteAligned_store {link : Link} (hlink : ∀ c ∈ link.chunks, FREE_CHUNK_ALIGN ∣ c)
    (value : Nat) : WroteAligned h (h.store value link) := by
  cases link with
  | head => exact .refl h
  | next chunk => exact wroteAligned_setNext (hlink chunk List.mem_cons_self) value

theorem wroteAligned_mergeTouching {first : Nat} (hfirst : FREE_CHUNK_ALIGN ∣ first)
    (second : Nat) : WroteAligned h (h.mergeTouching first second) := by
  rw [mergeTouching]
  split
  · split
    · exact (wroteAligned_setSize hfirst _).trans (wroteAligned_setNext hfirst _)
    · exact .refl h
  · exact .refl h

section Chunks
variable {l : List (Span Nat)} {b : Span Nat}

theorem linkAfter_aligned (hl : ∀ c ∈ l, FREE_CHUNK_ALIGN ∣ c.lo) :
    ∀ c ∈ (linkAfter l).chunks, FREE_CHUNK_ALIGN ∣ c := by
  cases List.eq_nil_or_concat' l with
  | inl hnil => simp [hnil, Link.chunks]
  | inr hconcat =>
    obtain ⟨front, s, rfl⟩ := hconcat
    simpa [Link.chunks] using hl s (by simp)

theorem last_aligned (hl : ∀ c ∈ l, FREE_CHUNK_ALIGN ∣ c.lo) :
    FREE_CHUNK_ALIGN ∣ (l.getLast?.map Span.lo).getD 0 := by
  cases List.eq_nil_or_concat' l with
  | inl hnil => simp [hnil]
  | inr hconcat =>
    obtain ⟨front, s, rfl⟩ := hconcat
    simpa using hl s (by simp)

theorem before_aligned (hl : ∀ c ∈ l, FREE_CHUNK_ALIGN ∣ c.lo) (x : Nat) :
    ∀ c ∈ Span.before x l, FREE_CHUNK_ALIGN ∣ c.lo :=
  fun c hc => hl c ((List.takeWhile_sublist _).subset hc)

theorem after_aligned (hl : ∀ c ∈ l, FREE_CHUNK_ALIGN ∣ c.lo) (x : Nat) :
    ∀ c ∈ Span.after x l, FREE_CHUNK_ALIGN ∣ c.lo :=
  fun c hc => hl c ((List.dropWhile_sublist _).subset hc)

theorem glue_aligned {r : List (Span Nat)} (hl : ∀ c ∈ l, FREE_CHUNK_ALIGN ∣ c.lo)
    (hr : ∀ c ∈ r, FREE_CHUNK_ALIGN ∣ c.lo) : ∀ c ∈ Span.glue l r, FREE_CHUNK_ALIGN ∣ c.lo := by
  fun_induction Span.glue l r with
  | case1 right => exact hr
  | case2 s t right htouch =>
    rw [List.forall_mem_cons]
    exact ⟨hl s List.mem_cons_self, fun c hc => hr c (List.mem_cons_of_mem t hc)⟩
  | case3 s t right hne =>
    rw [List.forall_mem_cons]
    exact ⟨hl s List.mem_cons_self, hr⟩
  | case4 s left right _ ih =>
    rw [List.forall_mem_cons]
    exact ⟨hl s List.mem_cons_self, ih (fun c hc => hl c (List.mem_cons_of_mem s hc)) hr⟩

theorem insert_aligned (hl : ∀ c ∈ l, FREE_CHUNK_ALIGN ∣ c.lo) (hb : FREE_CHUNK_ALIGN ∣ b.lo) :
    ∀ c ∈ Span.insert b l, FREE_CHUNK_ALIGN ∣ c.lo :=
  glue_aligned (before_aligned hl b.lo) (glue_aligned (by simpa using hb) (after_aligned hl b.lo))

/-! ### Giving back -/

variable {h₂ h₃ : Heap} {fuel : Nat}

theorem Returned.wroteAligned (hs : Returned h h₂ h₃ l b fuel)
    (hl : ∀ c ∈ l, FREE_CHUNK_ALIGN ∣ c.lo) (hb : FREE_CHUNK_ALIGN ∣ b.lo) :
    WroteAligned h (h₃.mergePrevious (((Span.before b.lo l).getLast?.map Span.lo).getD 0) b.lo) := by
  have hbefore := before_aligned hl b.lo
  have hlinked : WroteAligned h h₂ := by
    rw [hs.linked]
    exact (wroteAligned_setSize hb _).trans ((wroteAligned_setNext hb _).trans
      (wroteAligned_store (linkAfter_aligned hbefore) _))
  have hmerged : WroteAligned h₂ h₃ := by
    rw [hs.merged, mergeNext]
    split
    · exact wroteAligned_mergeTouching hb _
    · exact .refl _
  apply (hlinked.trans hmerged).trans
  rw [mergePrevious]
  split
  · exact wroteAligned_mergeTouching (last_aligned hbefore) _
  · exact .refl _

theorem Returned.headers_aligned (hs : Returned h h₂ h₃ l b fuel) {layout : Layout}
    (hwidth : b.hi = b.lo + layout.blockSize) (hl : ∀ c ∈ l, FREE_CHUNK_ALIGN ∣ c.lo)
    (hb : FREE_CHUNK_ALIGN ∣ b.lo) (steps : Nat) :
    ∀ chunk ∈ h.deallocHeaders steps b.lo layout, FREE_CHUNK_ALIGN ∣ chunk := by
  have hsize : layout.blockSize = b.hi - b.lo := by omega
  have hbefore := before_aligned hl b.lo
  have hafter := after_aligned hl b.lo
  rw [deallocHeaders, hsize]
  rw [List.forall_mem_append]
  refine ⟨insertionStep_aligned ⟨l, hs.opened, hl⟩ steps, ?_⟩
  rw [List.forall_mem_cons]
  refine ⟨hb, ?_⟩
  cases hinsertion : Loop.iterate ((h.setSize b.lo (b.hi - b.lo)).insertionStep b.lo) steps
    .head with
  | none => simp
  | some link =>
    obtain rfl := Loop.iterate_unique hinsertion hs.insertion
    simp only [← hs.linked, ← hs.merged]
    rw [List.forall_mem_cons]
    constructor
    · obtain ⟨mid, -, -, -, -, hnext⟩ := path_append.mp hs.path
      exact AlignedFrom.dvd ⟨_, hnext, hafter⟩
    · rw [List.forall_mem_append]
      constructor
      · refine previousStep_aligned ⟨_, hs.glued, List.forall_mem_append.mpr ⟨hbefore, ?_⟩⟩ steps
        exact glue_aligned (by simpa using hb) hafter
      · intro chunk hchunk
        have hfound := Option.mem_toList.mp hchunk
        rw [Loop.iterate_unique hfound hs.previous]
        exact last_aligned hbefore

end Chunks

end Heap

theorem Tidy.dealloc_stages {region : HeapRegion} {s : HeapState} {free : List (Span Nat)}
    (ht : Tidy region s free) {b : Block} (hb : b ∈ s.live) :
    ∃ h₂ h₃, Heap.Returned s.heap h₂ h₃ free b.span (free.length + 1) := by
  have hbound := ht.live_bounded hb
  have hplaced := ht.placed b hb
  refine Heap.dealloc_stages ht.path ht.roomy (fun t hmem => ?_) hplaced.1
    (Nat.add_le_add_left (le_max_right _ _) b.ptr) (hplaced.2.2.trans_lt hbound)
    (ht.fits_live hb).2 (Nat.lt_succ_self free.length)
  have hin := ht.inside t hmem
  omega

/-! ### Whole runs -/

/-- The first chunk that fits is cut at an aligned address, or keeps nothing above the block. -/
def CutsAligned (heap : Heap) (layout : Layout) : Prop :=
  ∃ free, heap.Path heap.head free 0 ∧ Heap.Roomy free ∧
    ∀ c ∈ free.find? (fun c => Fits layout.blockSize layout.blockAlign c),
      FREE_CHUNK_ALIGN ∣ layout.blockSize ∨
        c.hi < alignUp layout.blockAlign c.lo + layout.blockSize + FREE_CHUNK_SIZE

theorem Layout.header_dvd (layout : Layout) : FREE_CHUNK_ALIGN ∣ layout.blockAlign := by
  obtain ⟨k, -, hblock⟩ := layout.blockAlign_pow
  have hle : 2 ^ 3 ≤ layout.blockAlign := le_max_right _ _
  rw [hblock] at hle ⊢
  exact Nat.pow_dvd_pow 2 ((Nat.pow_le_pow_iff_right (by omega)).mp hle)

theorem Layout.block_aligned (layout : Layout) (a : Nat) :
    FREE_CHUNK_ALIGN ∣ alignUp layout.blockAlign a :=
  layout.header_dvd.trans (dvd_alignUp _ _)

section Take
variable {h : Heap} {pre post : List (Span Nat)} {c : Span Nat} {last : Nat}

/-- The header words of a cut: those of the remainder, then the link before it. -/
theorem written_take : (h.take (Heap.linkAfter pre) c last).written =
    (Heap.linkAfter pre).chunks.map (· + 8) ++
      ((tail last c).flatMap fun t => [t.lo + 8, t.lo]) ++ h.written := by
  have hstore : ∀ (g : Heap) (value : Nat) (link : Link),
      (g.store value link).written = link.chunks.map (· + 8) ++ g.written := by
    intro g value link
    cases link <;> rfl
  rw [Heap.take, tail]
  split
  · rw [hstore]
    simp [Heap.setNext, Heap.setSize, Heap.writeWord]
  · rw [hstore]
    simp

theorem tail_aligned (hlast : FREE_CHUNK_SIZE ≤ c.hi - last → FREE_CHUNK_ALIGN ∣ last) :
    ∀ t ∈ tail last c, FREE_CHUNK_ALIGN ∣ t.lo := by
  intro t ht
  rw [tail] at ht
  split at ht
  · next hroom =>
    rw [List.mem_singleton.mp ht]
    exact hlast hroom
  · cases ht

end Take

structure Alignment (region : HeapRegion) (log : List (Heap × Layout)) (s : HeapState)
    (free : List (Span Nat)) : Prop where
  tidy : Tidy region s free
  live : ∀ b ∈ s.live, FREE_CHUNK_ALIGN ∣ b.ptr
  written : (∀ w ∈ s.heap.written, FREE_CHUNK_ALIGN ∣ w) ↔
    ∀ call ∈ log, CutsAligned call.1 call.2
  chunks : (∀ call ∈ log, CutsAligned call.1 call.2) → ∀ c ∈ free, FREE_CHUNK_ALIGN ∣ c.lo

section Steps
variable {region : HeapRegion} {log : List (Heap × Layout)} {s : HeapState}
  {free : List (Span Nat)}

theorem alignment_init (hsize : region.size < 2 ^ 64) {memory : ByteMemory} {heap : Heap}
    (h : Heap.init ⟨memory, 0, []⟩ region = .ok heap) :
    Alignment region [] ⟨heap, []⟩ (initialFree region) := by
  have haligned : heap.written = [region.start + 8, region.start] ∧
      FREE_CHUNK_ALIGN ∣ region.start := by
    simp only [Heap.init] at h
    split_ifs at h with hsmall hmisaligned
    cases h
    exact ⟨rfl, hmisaligned⟩
  refine ⟨tidy_init hsize h, by simp, ?_, fun _ c hc => ?_⟩
  · rw [haligned.1, List.forall_mem_cons, List.forall_mem_singleton]
    simp [Nat.dvd_add haligned.2 (Nat.dvd_refl 8), haligned.2]
  · rw [initialFree] at hc
    split at hc
    · cases hc
    · rw [List.mem_singleton.mp hc]
      exact haligned.2

/-- The end of the block is aligned when the cut is and leaves a remainder. -/
theorem cut_aligned {layout : Layout} {c : Span Nat}
    (hcut : FREE_CHUNK_ALIGN ∣ layout.blockSize ∨
      c.hi < alignUp layout.blockAlign c.lo + layout.blockSize + FREE_CHUNK_SIZE)
    (hroom : FREE_CHUNK_SIZE ≤ c.hi - (alignUp layout.blockAlign c.lo + layout.blockSize)) :
    FREE_CHUNK_ALIGN ∣ alignUp layout.blockAlign c.lo + layout.blockSize := by
  cases hcut with
  | inl hsize => exact Nat.dvd_add (layout.block_aligned c.lo) hsize
  | inr hnone =>
    simp only [FREE_CHUNK_SIZE] at hroom hnone
    omega

/-- The header words of a cut are aligned exactly when the cut is. -/
theorem written_take_aligned_iff {h : Heap} {layout : Layout} {pre : List (Span Nat)}
    {c : Span Nat} (hpre : ∀ t ∈ pre, FREE_CHUNK_ALIGN ∣ t.lo)
    (hold : ∀ w ∈ h.written, FREE_CHUNK_ALIGN ∣ w) :
    (∀ w ∈ (h.take (Heap.linkAfter pre) c
      (alignUp layout.blockAlign c.lo + layout.blockSize)).written, FREE_CHUNK_ALIGN ∣ w) ↔
    (FREE_CHUNK_ALIGN ∣ layout.blockSize ∨
      c.hi < alignUp layout.blockAlign c.lo + layout.blockSize + FREE_CHUNK_SIZE) := by
  rw [written_take, List.forall_mem_append, List.forall_mem_append, and_iff_left hold]
  constructor
  · rintro ⟨-, hwords⟩
    by_cases hroom : FREE_CHUNK_SIZE ≤ c.hi - (alignUp layout.blockAlign c.lo + layout.blockSize)
    · left
      rw [tail, if_pos hroom] at hwords
      have hend := hwords (alignUp layout.blockAlign c.lo + layout.blockSize) (by simp)
      exact (Nat.dvd_add_iff_right (layout.block_aligned c.lo)).mpr hend
    · right
      simp only [FREE_CHUNK_SIZE] at hroom ⊢
      omega
  · intro hcut
    constructor
    · rw [List.forall_mem_map]
      intro chunk hchunk
      exact Nat.dvd_add (Heap.linkAfter_aligned hpre chunk hchunk) (Nat.dvd_refl 8)
    · rw [List.forall_mem_flatMap]
      intro t ht
      have hlo := tail_aligned (cut_aligned hcut) t ht
      rw [List.forall_mem_cons, List.forall_mem_singleton]
      exact ⟨Nat.dvd_add hlo (Nat.dvd_refl 8), hlo⟩

theorem Alignment.grant {pre post : List (Span Nat)} {c : Span Nat} {layout : Layout}
    (ha : Alignment region log s (pre ++ c :: post))
    (hpre : ∀ t ∈ pre, ¬ Fits layout.blockSize layout.blockAlign t)
    (hfits : Fits layout.blockSize layout.blockAlign c) :
    Alignment region (log ++ [(s.heap, layout)])
      (s.afterAlloc layout (alignUp layout.blockAlign c.lo) (s.heap.take (Heap.linkAfter pre) c
        (alignUp layout.blockAlign c.lo + layout.blockSize)))
      (pre ++ (tail (alignUp layout.blockAlign c.lo + layout.blockSize) c ++ post)) := by
  have hnew := ha.tidy.grant hfits (Heap.path_take ha.tidy.path ha.tidy.ordered ha.tidy.roomy
    (Heap.room_below_tail layout c) hfits.2)
  have hnull := (hnew.placed ⟨alignUp layout.blockAlign c.lo, layout⟩ (by simp)).1
  have hcuts : CutsAligned s.heap layout ↔ _ := ha.tidy.firstFit_iff_of_first hpre hfits
  rw [afterAlloc_of_ne_null hnull]
  refine ⟨hnew, List.forall_mem_cons.mpr ⟨layout.block_aligned c.lo, ha.live⟩, ?_, ?_⟩
  · rw [List.forall_mem_append, List.forall_mem_singleton, hcuts]
    have hkept : ∀ w ∈ s.heap.written, w ∈ (s.heap.take (Heap.linkAfter pre) c
        (alignUp layout.blockAlign c.lo + layout.blockSize)).written := by
      intro w hw
      rw [written_take]
      exact List.mem_append_right _ hw
    have hfront := fun hlog t (ht : t ∈ pre) => ha.chunks hlog t (List.mem_append_left _ ht)
    constructor
    · intro hall
      have hlog := ha.written.mp fun w hw => hall w (hkept w hw)
      exact ⟨hlog, (written_take_aligned_iff (hfront hlog) (ha.written.mpr hlog)).mp hall⟩
    · rintro ⟨hlog, hcut⟩
      exact (written_take_aligned_iff (hfront hlog) (ha.written.mpr hlog)).mpr hcut
  · rw [List.forall_mem_append, List.forall_mem_singleton, hcuts]
    rintro ⟨hlog, hcut⟩
    exact forall_mem_cut (ha.chunks hlog) (tail_aligned (cut_aligned hcut))

theorem Alignment.alloc (ha : Alignment region log s free) {fuel ptr : Nat} {layout : Layout}
    {heap : Heap} (h : s.heap.alloc fuel layout = some (ptr, heap)) :
    ∃ free', Alignment region (log ++ [(s.heap, layout)]) (s.afterAlloc layout ptr heap) free' := by
  rcases Heap.alloc_walk ha.tidy.path ha.tidy.roomy layout (Nat.lt_succ_self free.length) with
    ⟨hnone, hresult⟩ | ⟨pre, c, post, rfl, hpre, hfits, hresult⟩
  · cases Loop.iterate_unique h hresult
    have hcuts : CutsAligned s.heap layout := ha.tidy.firstFit_of_misfits hnone
    rw [afterAlloc_null]
    refine ⟨free, ha.tidy, ha.live, ?_, ?_⟩
    · rw [List.forall_mem_append, List.forall_mem_singleton, and_iff_left hcuts]
      exact ha.written
    · rw [List.forall_mem_append, List.forall_mem_singleton, and_iff_left hcuts]
      exact ha.chunks
  · cases Loop.iterate_unique h hresult
    exact ⟨_, ha.grant hpre hfits⟩

theorem Alignment.dealloc (ha : Alignment region log s free) {fuel : Nat} {b : Block}
    {heap : Heap} (hmem : b ∈ s.live) (h : s.heap.dealloc fuel b.ptr b.layout = some heap) :
    Alignment region log (s.afterDealloc b heap) (Span.insert b.span free) := by
  obtain ⟨hnew, hedit⟩ := ha.tidy.dealloc_cases hmem h
  obtain ⟨h₂, h₃, hstages⟩ := ha.tidy.dealloc_stages hmem
  have hdone : heap = _ := Heap.dealloc_unique h (hstages.dealloc_eq rfl)
  have hblock : FREE_CHUNK_ALIGN ∣ b.span.lo := ha.live b hmem
  refine ⟨hnew, fun a hin => ha.live a (List.mem_of_mem_erase hin), ?_, fun hlog => ?_⟩
  · constructor
    · intro hall
      obtain ⟨words, hwords, -⟩ := hedit.written
      apply ha.written.mp
      intro w hw
      exact hall w (by rw [HeapState.afterDealloc, hwords]; exact List.mem_append_right _ hw)
    · intro hlog
      have hwrote := hstages.wroteAligned (ha.chunks hlog) hblock
      rw [← hdone] at hwrote
      exact hwrote.written_iff.mpr (ha.written.mpr hlog)
  · exact Heap.insert_aligned (ha.chunks hlog) hblock

end Steps

theorem Run.alignment {region : HeapRegion} (hsize : region.size < 2 ^ 64)
    {log : List (Heap × Layout)} {s : HeapState} (hrun : Run region log s) :
    ∃ free, Alignment region log s free := by
  induction hrun with
  | init h => exact ⟨_, alignment_init hsize h⟩
  | alloc _ h ih =>
    obtain ⟨free, ha⟩ := ih
    exact ha.alloc h
  | dealloc _ hmem h ih =>
    obtain ⟨free, ha⟩ := ih
    exact ⟨_, ha.dealloc hmem h⟩
  | write _ hclient value ih =>
    obtain ⟨free, ha⟩ := ih
    exact ⟨free, ha.tidy.write hclient value, ha.live, ha.written, ha.chunks⟩

structure HeadersAligned (s : HeapState) : Prop where
  written : ∀ w ∈ s.heap.written, FREE_CHUNK_ALIGN ∣ w
  alloc : ∀ fuel layout, ∀ chunk ∈ s.heap.allocHeaders fuel layout, FREE_CHUNK_ALIGN ∣ chunk
  dealloc : ∀ b ∈ s.live, ∀ fuel, ∀ chunk ∈ s.heap.deallocHeaders fuel b.ptr b.layout,
    FREE_CHUNK_ALIGN ∣ chunk

/-- The headers of a run are aligned exactly as long as every `alloc` of it cuts aligned. -/
theorem headersAligned_iff {region : HeapRegion} (hsize : region.size < 2 ^ 64)
    {log : List (Heap × Layout)} {s : HeapState} (hrun : Run region log s) :
    HeadersAligned s ↔ ∀ call ∈ log, CutsAligned call.1 call.2 := by
  obtain ⟨free, ha⟩ := hrun.alignment hsize
  constructor
  · intro haligned
    exact ha.written.mp haligned.written
  · intro hlog
    refine ⟨ha.written.mpr hlog, fun fuel layout => ?_, fun b hb fuel => ?_⟩
    · exact Heap.allocHeaders_aligned ⟨free, ha.tidy.path, ha.chunks hlog⟩ fuel layout
    · obtain ⟨h₂, h₃, hstages⟩ := ha.tidy.dealloc_stages hb
      exact hstages.headers_aligned rfl (ha.chunks hlog) (ha.live b hb) fuel

/-- Blocks of whole words never misplace a header. -/
theorem headersAligned_after_block :
    ∃ s, Run ⟨4096, 4096⟩ [(zeroedPage, pageBlock.layout)] s ∧ s.live = [pageBlock] ∧
      HeadersAligned s := by
  have hinit : Run ⟨4096, 4096⟩ [] ⟨zeroedPage, []⟩ := .init rfl
  obtain ⟨heap, hgrant⟩ := page_granted
  obtain ⟨free, ht⟩ := hinit.tidy (by decide)
  refine ⟨_, hgrant, rfl, (headersAligned_iff (by decide) hgrant).mpr fun call hcall => ?_⟩
  rw [List.mem_singleton.mp hcall]
  exact ⟨free, ht.path, ht.roomy, fun _ _ => .inl (by decide)⟩

/-- A block of seventeen bytes: the header of the remainder is written behind it. -/
theorem misaligned_remainder :
    ∃ s, Run ⟨4096, 4096⟩ [(zeroedPage, ⟨17, 1, ⟨0, by decide, rfl⟩, by decide⟩)] s ∧
      4113 ∈ s.heap.written ∧ ¬ HeadersAligned s := by
  have hinit : Run ⟨4096, 4096⟩ [] ⟨zeroedPage, []⟩ := .init rfl
  obtain ⟨heap, halloc, hwritten⟩ : ∃ heap,
      zeroedPage.alloc 2 ⟨17, 1, ⟨0, by decide, rfl⟩, by decide⟩ = some (4096, heap) ∧
        4113 ∈ heap.written := by
    refine ⟨_, rfl, ?_⟩
    decide +kernel
  refine ⟨_, hinit.alloc halloc, hwritten, fun haligned => ?_⟩
  have hdvd := haligned.written 4113 hwritten
  revert hdvd
  decide

end AgnostOS.Allocator
