import AgnostOS.HeapAllocator
import AgnostOS.Library.Span

/-! The free list as it lies in memory: paths of headers, and what the header writes
of the allocator do to them. A chunk is the span of its bytes. -/
namespace AgnostOS.Allocator
open Word

namespace Heap
variable {h h' h'' : Heap}

/-! ### Words -/

theorem next_lt (h : Heap) (chunk : Nat) : h.next chunk < 2 ^ 64 :=
  h.memory.read_lt (chunk + 8) 8

theorem size_setSize {chunk value : Nat} (hv : value < 2 ^ 64) :
    (h.setSize chunk value).size chunk = value :=
  ByteMemory.read_write_same h.memory chunk (n := 8) hv

theorem next_setNext {chunk value : Nat} (hv : value < 2 ^ 64) :
    (h.setNext chunk value).next chunk = value :=
  ByteMemory.read_write_same h.memory (chunk + 8) (n := 8) hv

@[simp] theorem size_setNext (h : Heap) (chunk value : Nat) :
    (h.setNext chunk value).size chunk = h.size chunk :=
  ByteMemory.read_write_apart h.memory value (.inr (Nat.le_refl _))

/-! ### Edits -/

structure Edited (P : Nat → Prop) (h h' : Heap) : Prop where
  written : ∃ words, h'.written = words ++ h.written ∧
    ∀ w ∈ words, ∀ a, w ≤ a → a < w + 8 → P a
  frame : ∀ a, ¬ P a → h'.memory a = h.memory a

variable {P Q : Nat → Prop}

theorem Edited.refl (P : Nat → Prop) (h : Heap) : Edited P h h :=
  ⟨⟨[], rfl, by simp⟩, fun _ _ => rfl⟩

theorem Edited.trans (hf : Edited P h h') (hg : Edited P h' h'') : Edited P h h'' := by
  obtain ⟨words, hwords, hin⟩ := hf.written
  obtain ⟨words', hwords', hin'⟩ := hg.written
  refine ⟨⟨words' ++ words, ?_, fun w hw => ?_⟩, fun a ha => ?_⟩
  · rw [hwords', hwords, List.append_assoc]
  · cases List.mem_append.mp hw with
    | inl hw => exact hin' w hw
    | inr hw => exact hin w hw
  · rw [hg.frame a ha, hf.frame a ha]

theorem Edited.mono (he : Edited P h h') (himp : ∀ a, P a → Q a) : Edited Q h h' := by
  obtain ⟨words, hwords, hin⟩ := he.written
  exact ⟨⟨words, hwords, fun w hw a hlo hhi => himp a (hin w hw a hlo hhi)⟩,
    fun a ha => he.frame a fun hp => ha (himp a hp)⟩

theorem edited_writeWord {address value : Nat} (hP : ∀ a, address ≤ a → a < address + 8 → P a) :
    Edited P h (h.writeWord address value) := by
  refine ⟨⟨[address], rfl, fun w hw => ?_⟩, fun a ha => ?_⟩
  · rw [List.mem_singleton.mp hw]
    exact hP
  · refine ByteMemory.write_outside h.memory value ?_
    by_contra hin
    exact ha (hP a (by omega) (by omega))

def InHeader (chunk a : Nat) : Prop := chunk ≤ a ∧ a < chunk + FREE_CHUNK_SIZE

theorem edited_setSize (h : Heap) (chunk value : Nat) :
    Edited (InHeader chunk) h (h.setSize chunk value) :=
  edited_writeWord fun a hlo hhi => ⟨hlo, by simp only [FREE_CHUNK_SIZE]; omega⟩

theorem edited_setNext (h : Heap) (chunk value : Nat) :
    Edited (InHeader chunk) h (h.setNext chunk value) :=
  edited_writeWord fun a hlo hhi => ⟨by omega, by simp only [FREE_CHUNK_SIZE]; omega⟩

theorem Edited.header (he : Edited P h h') {chunk : Nat} (hout : ∀ a, InHeader chunk a → ¬ P a) :
    h'.size chunk = h.size chunk ∧ h'.next chunk = h.next chunk := by
  constructor
  · refine ByteMemory.read_congr fun a hlo hhi => he.frame a (hout a ⟨hlo, ?_⟩)
    simp only [FREE_CHUNK_SIZE]
    omega
  · refine ByteMemory.read_congr fun a hlo hhi => he.frame a (hout a ⟨by omega, ?_⟩)
    simp only [FREE_CHUNK_SIZE]
    omega

/-! ### Paths -/

def Path (h : Heap) : Nat → List (Span Nat) → Nat → Prop
  | p, [], q => p = q
  | p, s :: rest, q =>
    p = s.lo ∧ s.lo ≠ 0 ∧ h.size s.lo = s.hi - s.lo ∧ Path h (h.next s.lo) rest q

theorem path_append {p q : Nat} {l r : List (Span Nat)} :
    h.Path p (l ++ r) q ↔ ∃ mid, h.Path p l mid ∧ h.Path mid r q := by
  induction l generalizing p with
  | nil => simp [Path]
  | cons s l ih => simp [Path, ih, and_assoc]

theorem Path.frame {p q : Nat} {l : List (Span Nat)} (hp : h.Path p l q) (he : Edited P h h')
    (hout : ∀ s ∈ l, ∀ a, InHeader s.lo a → ¬ P a) : h'.Path p l q := by
  induction l generalizing p with
  | nil => exact hp
  | cons s l ih =>
    obtain ⟨hstart, hnull, hsize, hrest⟩ := hp
    obtain ⟨hsame, hnext⟩ := he.header (hout s (by simp))
    refine ⟨hstart, hnull, hsame.trans hsize, ?_⟩
    rw [hnext]
    exact ih hrest fun t ht => hout t (List.mem_cons_of_mem s ht)

theorem Path.unique {p : Nat} {l r : List (Span Nat)} (hl : h.Path p l 0) (hr : h.Path p r 0)
    (hproper : Span.Proper l) (hproper' : Span.Proper r) : l = r := by
  induction l generalizing p r with
  | nil =>
    cases r with
    | nil => rfl
    | cons t r => exact absurd (hr.1.symm.trans hl) hr.2.1
  | cons s l ih =>
    cases r with
    | nil => exact absurd (hl.1.symm.trans hr) hl.2.1
    | cons t r =>
      obtain ⟨hstart, hnull, hsize, hrest⟩ := hl
      obtain ⟨hstart', hnull', hsize', hrest'⟩ := hr
      have hlo : s.lo = t.lo := hstart.symm.trans hstart'
      have hs : s.lo < s.hi := hproper s (by simp)
      have ht : t.lo < t.hi := hproper' t (by simp)
      rw [← hlo] at hsize' hrest'
      have hhi : s.hi = t.hi := by omega
      have hsame : s = t := by
        cases s
        cases t
        simp_all
      rw [hsame, ih hrest hrest' (fun u hu => hproper u (by simp [hu]))
        fun u hu => hproper' u (by simp [hu])]

def linkAfter (l : List (Span Nat)) : Link := l.getLast?.elim .head fun s => .next s.lo

@[simp] theorem linkAfter_nil : linkAfter [] = .head := rfl

@[simp] theorem linkAfter_concat (l : List (Span Nat)) (s : Span Nat) :
    linkAfter (l ++ [s]) = .next s.lo := by
  simp [linkAfter]

theorem load_linkAfter {l : List (Span Nat)} {q : Nat} (hp : h.Path h.head l q) :
    h.load (linkAfter l) = q := by
  cases List.eq_nil_or_concat' l with
  | inl hnil =>
    subst hnil
    exact hp
  | inr hconcat =>
    obtain ⟨front, s, rfl⟩ := hconcat
    obtain ⟨mid, -, hstart, -, -, hnext⟩ := path_append.mp hp
    rw [linkAfter_concat]
    exact hnext

def Roomy (l : List (Span Nat)) : Prop := ∀ s ∈ l, s.lo + FREE_CHUNK_SIZE ≤ s.hi

theorem Roomy.proper {l : List (Span Nat)} (hr : Roomy l) : Span.Proper l := by
  intro s hs
  have hroom := hr s hs
  simp only [FREE_CHUNK_SIZE] at hroom
  omega

theorem path_store {l : List (Span Nat)} {q value : Nat} (hp : h.Path h.head l q)
    (ho : Span.Ordered l) (hr : Roomy l) (hv : value < 2 ^ 64) :
    (h.store value (linkAfter l)).Path (h.store value (linkAfter l)).head l value := by
  cases List.eq_nil_or_concat' l with
  | inl hnil =>
    subst hnil
    rfl
  | inr hconcat =>
    obtain ⟨front, s, rfl⟩ := hconcat
    obtain ⟨mid, hfront, hstart, hnull, hsize, -⟩ := path_append.mp hp
    rw [linkAfter_concat]
    simp only [store]
    refine path_append.mpr ⟨mid, ?_, hstart, hnull, (size_setNext h _ _).trans hsize, ?_⟩
    · refine hfront.frame (edited_setNext h s.lo value) fun t ht a hin hin' => ?_
      have hle := (List.pairwise_append.mp ho).2.2 t ht s (by simp)
      have hroom := hr t (by simp [ht])
      simp only [InHeader, FREE_CHUNK_SIZE] at *
      omega
    · exact next_setNext hv

theorem edited_store (h : Heap) (l : List (Span Nat)) (value : Nat) :
    Edited (fun a => ∃ s ∈ l, InHeader s.lo a) h (h.store value (linkAfter l)) := by
  cases List.eq_nil_or_concat' l with
  | inl hnil =>
    subst hnil
    exact ⟨⟨[], rfl, by simp⟩, fun _ _ => rfl⟩
  | inr hconcat =>
    obtain ⟨front, s, rfl⟩ := hconcat
    rw [linkAfter_concat]
    exact (edited_setNext h s.lo value).mono fun a ha => ⟨s, by simp, ha⟩

end Heap
end AgnostOS.Allocator
