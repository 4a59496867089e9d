import AgnostOS.Library.Span

/-! Seams of an ordered list of spans, the points where one span ends and another starts.
What a list covers and where its seams are determine it, and insertion with coalescing
makes no seam. -/

namespace Span

def Seam {α : Type*} (l : List (Span α)) (b : α) : Prop :=
  (∃ s ∈ l, s.hi = b) ∧ ∃ t ∈ l, t.lo = b

@[simp] theorem not_seam_nil {α : Type*} (b : α) : ¬ Seam [] b := by simp [Seam]

theorem Seam.mono {α : Type*} {l r : List (Span α)} {b : α} (hsub : ∀ s ∈ l, s ∈ r)
    (h : Seam l b) : Seam r b := by
  obtain ⟨⟨s, hs, hhi⟩, t, ht, hlo⟩ := h
  exact ⟨⟨s, hsub s hs, hhi⟩, t, hsub t ht, hlo⟩

variable {α : Type*} [LinearOrder α]

theorem Ordered.tail {s : Span α} {l : List (Span α)} (h : Ordered (s :: l)) : Ordered l :=
  (List.pairwise_cons.mp h).2

/-- The first span bounds everything behind it from below. -/
theorem Ordered.hi_le {s t : Span α} {l : List (Span α)} (h : Ordered (s :: l)) (ht : t ∈ l) :
    s.hi ≤ t.lo :=
  (List.pairwise_cons.mp h).1 t ht

theorem seam_cons {s : Span α} {l : List (Span α)} (ho : Ordered (s :: l))
    (hp : Proper (s :: l)) (b : α) :
    Seam (s :: l) b ↔ (s.hi = b ∧ ∃ t ∈ l, t.lo = b) ∨ Seam l b := by
  have hs : s.lo < s.hi := hp s (by simp)
  constructor
  · rintro ⟨⟨u, hu, rfl⟩, t, ht, hlo⟩
    -- the seam starts a later span: nothing in the list ends at s.lo
    have hlater : t ∈ l := by
      cases List.mem_cons.mp ht with
      | inr ht => exact ht
      | inl heq =>
        subst heq
        have hu' : u.lo < u.hi := hp u hu
        cases List.mem_cons.mp hu with
        | inl heq =>
          subst heq
          order
        | inr hu =>
          have hle := ho.hi_le hu
          order
    cases List.mem_cons.mp hu with
    | inl heq => exact .inl ⟨heq ▸ rfl, t, hlater, hlo⟩
    | inr hu => exact .inr ⟨⟨u, hu, rfl⟩, t, hlater, hlo⟩
  · rintro (⟨hhi, t, ht, hlo⟩ | h)
    · exact ⟨⟨s, by simp, hhi⟩, t, by simp [ht], hlo⟩
    · exact h.mono fun u hu => List.mem_cons_of_mem s hu

@[simp] theorem not_seam_singleton {s : Span α} (hs : s.lo < s.hi) (b : α) : ¬ Seam [s] b := by
  rw [seam_cons (List.pairwise_singleton _ _) (by simpa using hs)]
  simp

theorem Seam.hi_lt {s : Span α} {l : List (Span α)} {b : α} (h : Seam l b)
    (ho : Ordered (s :: l)) (hp : Proper (s :: l)) : s.hi < b := by
  obtain ⟨⟨u, hu, rfl⟩, -⟩ := h
  have hle := ho.hi_le hu
  have hu' : u.lo < u.hi := hp u (by simp [hu])
  order

/-! ### A list from what it covers and its seams -/

theorem Ordered.lo_le_of_covers {s : Span α} {l : List (Span α)} (ho : Ordered (s :: l))
    (hp : Proper (s :: l)) {x : α} (h : Covers (s :: l) x) : s.lo ≤ x := by
  have hs : s.lo < s.hi := hp s (by simp)
  cases (covers_cons s l x).mp h with
  | inl h => exact h.1
  | inr h =>
    obtain ⟨t, ht, hlo, -⟩ := h
    have hle := ho.hi_le ht
    order

theorem covers_first {s : Span α} {l : List (Span α)} (hp : Proper (s :: l)) :
    Covers (s :: l) s.lo :=
  ⟨s, by simp, le_rfl, hp s (by simp)⟩

/-- Where the other list's first span goes on, this one's does, for want of a seam. -/
theorem hi_le_of_covers_of_seams {s t : Span α} {l r : List (Span α)} (hl : Ordered (s :: l))
    (hr : Ordered (t :: r)) (hpl : Proper (s :: l)) (hpr : Proper (t :: r)) (hlo : s.lo = t.lo)
    (hcovers : ∀ x, Covers (t :: r) x → Covers (s :: l) x)
    (hseams : ∀ b, Seam (s :: l) b → Seam (t :: r) b) : t.hi ≤ s.hi := by
  by_contra hlt
  have hs : s.lo < s.hi := hpl s (by simp)
  have hcover : Covers (s :: l) s.hi :=
    hcovers s.hi ⟨t, by simp, hlo ▸ hs.le, not_le.mp hlt⟩
  obtain ⟨u, hu, hulo, -⟩ : Covers l s.hi :=
    ((covers_cons s l s.hi).mp hcover).resolve_left fun h => lt_irrefl _ h.2
  have hstart : u.lo = s.hi := le_antisymm hulo (hl.hi_le hu)
  obtain ⟨-, v, hv, hvlo⟩ := hseams s.hi ⟨⟨s, by simp, rfl⟩, u, by simp [hu], hstart⟩
  cases List.mem_cons.mp hv with
  | inl heq =>
    subst heq
    order
  | inr hv =>
    have hle := hr.hi_le hv
    order

theorem covers_tail_iff {s : Span α} {l : List (Span α)} (ho : Ordered (s :: l)) (x : α) :
    Covers l x ↔ Covers (s :: l) x ∧ ¬ s.Contains x := by
  have hapart : Covers l x → ¬ s.Contains x := by
    rintro ⟨t, ht, hlo, -⟩ ⟨-, hhi⟩
    have hle := ho.hi_le ht
    order
  rw [covers_cons]
  tauto

theorem seam_tail_iff {s : Span α} {l : List (Span α)} (ho : Ordered (s :: l))
    (hp : Proper (s :: l)) (b : α) : Seam l b ↔ Seam (s :: l) b ∧ b ≠ s.hi := by
  rw [seam_cons ho hp]
  constructor
  · exact fun h => ⟨.inr h, (h.hi_lt ho hp).ne'⟩
  · rintro ⟨⟨hhi, -⟩ | h, hne⟩
    · exact absurd hhi.symm hne
    · exact h

/-- Two ordered lists that cover the same points with the same seams are equal. -/
theorem eq_of_covers_of_seams {l r : List (Span α)} (hl : Ordered l) (hr : Ordered r)
    (hpl : Proper l) (hpr : Proper r) (hcovers : ∀ x, Covers l x ↔ Covers r x)
    (hseams : ∀ b, Seam l b ↔ Seam r b) : l = r := by
  induction l generalizing r with
  | nil =>
    cases r with
    | nil => rfl
    | cons t r => exact absurd ((hcovers t.lo).mpr (covers_first hpr)) (not_covers_nil _)
  | cons s l ih =>
    cases r with
    | nil => exact absurd ((hcovers s.lo).mp (covers_first hpl)) (not_covers_nil _)
    | cons t r =>
      have hlo : s.lo = t.lo :=
        le_antisymm (hl.lo_le_of_covers hpl ((hcovers t.lo).mpr (covers_first hpr)))
          (hr.lo_le_of_covers hpr ((hcovers s.lo).mp (covers_first hpl)))
      have hhi : s.hi = t.hi :=
        le_antisymm
          (hi_le_of_covers_of_seams hr hl hpr hpl hlo.symm (fun x => (hcovers x).mp)
            fun b => (hseams b).mpr)
          (hi_le_of_covers_of_seams hl hr hpl hpr hlo (fun x => (hcovers x).mpr)
            fun b => (hseams b).mp)
      have hst : s = t := by
        cases s
        cases t
        simp_all
      subst hst
      congr 1
      simp only [proper_cons] at hpl hpr
      refine ih hl.tail hr.tail hpl.2 hpr.2 (fun x => ?_) fun b => ?_
      · rw [covers_tail_iff hl, covers_tail_iff hr, hcovers]
      · rw [seam_tail_iff hl (by simpa using hpl), seam_tail_iff hr (by simpa using hpr), hseams]

/-! ### Touching the neighbours of a split point -/

theorem touches_before_iff {x : α} {l : List (Span α)} (ho : Ordered l) (hp : Proper l) :
    (∃ s ∈ (before x l).getLast?, s.hi = x) ↔ ∃ s ∈ l, s.hi = x := by
  constructor
  · rintro ⟨s, hs, hhi⟩
    exact ⟨s, (List.takeWhile_sublist _).subset (List.mem_of_getLast? hs), hhi⟩
  · rintro ⟨s, hs, hhi⟩
    have hlt : s.lo < s.hi := hp s hs
    have hbefore : s ∈ before x l := by
      rw [← before_append_after x l, List.mem_append] at hs
      refine hs.resolve_right fun hafter => ?_
      have hle := le_lo_of_mem_after ho hp hafter
      order
    obtain ⟨front, last, hsplit⟩ :=
      (List.eq_nil_or_concat' (before x l)).resolve_left (List.ne_nil_of_mem hbefore)
    refine ⟨last, by simp [hsplit], ?_⟩
    have ho' : Ordered (before x l) := ho.sublist (List.takeWhile_sublist _)
    rw [hsplit] at ho' hbefore
    cases List.mem_append.mp hbefore with
    | inl hfront =>
      have hle := (List.pairwise_append.mp ho').2.2 s hfront last (by simp)
      have hlast : last.lo < x := lo_lt_of_mem_before (l := l) (by simp [hsplit])
      order
    | inr hlast => exact List.mem_singleton.mp hlast ▸ hhi

/-- Whatever starts at y starts right behind x, when nothing starts between the two. -/
theorem touches_after_iff {x y : α} {l : List (Span α)} (ho : Ordered l) (hp : Proper l)
    (hxy : x ≤ y) (hgap : ∀ s ∈ l, x ≤ s.lo → y ≤ s.lo) :
    (∃ s ∈ (after x l).head?, y = s.lo) ↔ ∃ s ∈ l, y = s.lo := by
  constructor
  · rintro ⟨s, hs, hlo⟩
    exact ⟨s, (List.dropWhile_sublist _).subset (List.mem_of_head? hs), hlo⟩
  · rintro ⟨s, hs, hlo⟩
    have hsub : (after x l).Sublist l := List.dropWhile_sublist _
    have hafter : s ∈ after x l := by
      rw [← before_append_after x l, List.mem_append] at hs
      refine hs.resolve_left fun hbefore => ?_
      have hlt := lo_lt_of_mem_before hbefore
      order
    cases hcase : after x l with
    | nil => simp [hcase] at hafter
    | cons n rest =>
      refine ⟨n, by simp, ?_⟩
      have hn : n ∈ l := hsub.subset (by simp [hcase])
      have hyn := hgap n hn (le_lo_of_head_after (by rw [hcase]; rfl))
      have ho' : Ordered (after x l) := ho.sublist hsub
      rw [hcase] at ho' hafter
      cases List.mem_cons.mp hafter with
      | inl heq => exact heq ▸ hlo
      | inr hrest =>
        have hle := Ordered.hi_le ho' hrest
        have hnp : n.lo < n.hi := hp n hn
        order

/-! ### Seams under insertion -/

theorem exists_mem_glue_of_lo {l r : List (Span α)} {t : Span α} (h : t ∈ l) :
    ∃ u ∈ glue l r, u.lo = t.lo := by
  fun_induction glue l r with
  | case1 right => simp at h
  | case2 s u right heq =>
    obtain rfl := List.mem_singleton.mp h
    exact ⟨⟨t.lo, u.hi⟩, by simp, rfl⟩
  | case3 s u right hne =>
    obtain rfl := List.mem_singleton.mp h
    exact ⟨t, by simp, rfl⟩
  | case4 s left right _ ih =>
    cases List.mem_cons.mp h with
    | inl heq => exact ⟨s, by simp, heq ▸ rfl⟩
    | inr h =>
      obtain ⟨u, hu, hlo⟩ := ih h
      exact ⟨u, by simp [hu], hlo⟩

/-- What starts where a span ends is the same before and after the lists behind it are glued. -/
theorem exists_lo_glue_iff {s : Span α} {l r : List (Span α)} (ho : Ordered (s :: (l ++ r)))
    (hl : Proper l) (hleft : l = [] → ∀ t right, r ≠ t :: right) :
    (∃ u ∈ glue l r, u.lo = s.hi) ↔ ∃ u ∈ l, u.lo = s.hi := by
  constructor
  · rintro ⟨u, hu, hlo⟩
    obtain ⟨v, hv, hvlo⟩ := exists_lo_of_mem_glue hu
    cases List.mem_append.mp hv with
    | inl hv => exact ⟨v, hv, hvlo.trans hlo⟩
    | inr hvr =>
      -- a span of the right list comes after one of the left
      cases l with
      | nil =>
        cases r with
        | nil => simp at hvr
        | cons w right => exact (hleft rfl w right rfl).elim
      | cons w left =>
        have hw : w.lo < w.hi := hl w (by simp)
        have hsw := ho.hi_le (t := w) (by simp)
        have hwv := Ordered.hi_le ho.tail (t := v) (List.mem_append_right left hvr)
        order
  · rintro ⟨u, hu, hlo⟩
    obtain ⟨v, hv, hvlo⟩ := exists_mem_glue_of_lo hu
    exact ⟨v, hv, hvlo.trans hlo⟩

theorem seam_glue {l r : List (Span α)} (ho : Ordered (l ++ r)) (hl : Proper l) (hr : Proper r)
    (b : α) : Seam (glue l r) b ↔ Seam l b ∨ Seam r b := by
  have hglue := glue_ordered ho
  have hproper := glue_proper hl hr
  fun_induction glue l r with
  | case1 right => simp
  | case2 s t right heq =>
    have hs : s.lo < s.hi := hl s (by simp)
    rw [seam_cons hglue hproper, seam_cons ho.tail hr]
    simp [not_seam_singleton hs]
  | case3 s t right hne =>
    have hs : s.lo < s.hi := hl s (by simp)
    have ht : t.lo < t.hi := hr t (by simp)
    have hst : s.hi < t.lo := lt_of_le_of_ne (ho.hi_le (by simp)) hne
    have hnone : ¬ (s.hi = b ∧ ∃ u ∈ t :: right, u.lo = b) := by
      rintro ⟨rfl, u, hu, hlo⟩
      cases List.mem_cons.mp hu with
      | inl heq => exact hne (heq ▸ hlo.symm)
      | inr hu =>
        have hle := Ordered.hi_le ho.tail hu
        order
    rw [seam_cons hglue hproper]
    rw [or_iff_right hnone, or_iff_right (not_seam_singleton hs b)]
  | case4 s left right hlast ih =>
    have hl' := (proper_cons s left).mp hl
    have hp' := (proper_cons s _).mp hproper
    have hsplit : (∃ u ∈ glue left right, u.lo = s.hi) ↔ ∃ u ∈ left, u.lo = s.hi :=
      exists_lo_glue_iff ho hl'.2 fun hnil w right' hright => hlast w right' hright hnil
    have hhead : (s.hi = b ∧ ∃ u ∈ glue left right, u.lo = b) ↔
        s.hi = b ∧ ∃ u ∈ left, u.lo = b := by
      constructor
      · rintro ⟨rfl, h⟩
        exact ⟨rfl, hsplit.mp h⟩
      · rintro ⟨rfl, h⟩
        exact ⟨rfl, hsplit.mpr h⟩
    have hleft : Ordered (s :: left) := ho.sublist (by simp)
    have hrest : Seam (glue left right) b ↔ Seam left b ∨ Seam right b :=
      ih ho.tail hl'.2 hr (Ordered.tail hglue) hp'.2
    rw [seam_cons hglue hproper, seam_cons hleft hl, hhead, hrest, or_assoc]

theorem Fits.seam_insert {s : Span α} {l : List (Span α)} (h : Fits s l) (hs : s.lo < s.hi)
    (hp : Proper l) (b : α) : Seam (insert s l) b ↔ Seam l b := by
  obtain ⟨-, hsa, hcross⟩ := List.pairwise_append.mp h
  have hright : Ordered ([s] ++ after s.lo l) := hsa
  have hbp := before_proper hp s.lo
  have hap := after_proper hp s.lo
  have hsingle : Proper [s] := by simpa using hs
  rw [insert, seam_glue h.ordered_glue hbp (glue_proper hsingle hap),
    seam_glue hright hsingle hap]
  constructor
  · rintro (hseam | hseam | hseam)
    · exact hseam.mono (List.takeWhile_sublist _).subset
    · exact absurd hseam (not_seam_singleton hs b)
    · exact hseam.mono (List.dropWhile_sublist _).subset
  · rintro ⟨⟨u, hu, hhi⟩, t, ht, hlo⟩
    rw [← before_append_after s.lo l, List.mem_append] at hu ht
    have hubound : u.lo < u.hi := by
      cases hu with
      | inl hu => exact hbp u hu
      | inr hu => exact hap u hu
    cases hu with
    | inl hu =>
      have hus := hcross u hu s (by simp)
      cases ht with
      | inl ht => exact .inl ⟨⟨u, hu, hhi⟩, t, ht, hlo⟩
      | inr ht =>
        have hst := Ordered.hi_le hsa ht
        order
    | inr hu =>
      have hsu := Ordered.hi_le hsa hu
      cases ht with
      | inl ht =>
        have hts := hcross t ht s (by simp)
        have htbound : t.lo < t.hi := hbp t ht
        order
      | inr ht => exact .inr (.inr ⟨⟨u, hu, hhi⟩, t, ht, hlo⟩)

theorem Seam.of_trim {pre post : List (Span α)} {s t : Span α} {b : α}
    (h : Seam (pre ++ t :: post) b) (ho : Ordered (pre ++ s :: post))
    (hp : Proper (pre ++ s :: post)) (hhi : t.hi = s.hi) (hlo : s.lo ≤ t.lo)
    (hlt : t.lo < t.hi) : Seam (pre ++ s :: post) b := by
  obtain ⟨⟨u, hu, rfl⟩, v, hv, hvlo⟩ := h
  obtain ⟨-, hafter, hbefore⟩ := List.pairwise_append.mp ho
  have hend : ∃ w ∈ pre ++ s :: post, w.hi = u.hi := by
    rcases (by simpa using hu : u ∈ pre ∨ u = t ∨ u ∈ post) with hu | rfl | hu
    · exact ⟨u, by simp [hu], rfl⟩
    · exact ⟨s, by simp, hhi.symm⟩
    · exact ⟨u, by simp [hu], rfl⟩
  refine ⟨hend, ?_⟩
  rcases (by simpa using hv : v ∈ pre ∨ v = t ∨ v ∈ post) with hv | rfl | hv
  · exact ⟨v, by simp [hv], hvlo⟩
  · -- nothing ends strictly inside the old span
    refine ⟨s, by simp, ?_⟩
    rcases (by simpa using hu : u ∈ pre ∨ u = v ∨ u ∈ post) with hu | rfl | hu
    · have hle := hbefore u hu s (by simp)
      order
    · order
    · have hle := Ordered.hi_le hafter hu
      have hu' : u.lo < u.hi := hp u (by simp [hu])
      order
  · exact ⟨v, by simp [hv], hvlo⟩

end Span
