import AgnostOS.Library.Span

/-! Cutting the spans of a list in place: every span is replaced by pieces that
tile it, in order. Coverage, disjointness and total length survive. -/
namespace Span
section Order
variable {α : Type*} [LinearOrder α]

/-- The pieces follow one another without gap from lo to hi, none empty. -/
def Tiles (lo hi : α) : List (Span α) → Prop
  | [] => lo = hi
  | s :: rest => s.lo = lo ∧ s.lo < s.hi ∧ Tiles s.hi hi rest

inductive Subdivides : List (Span α) → List (Span α) → Prop
  | nil : Subdivides [] []
  | cons {s : Span α} {pieces l r : List (Span α)} :
      Tiles s.lo s.hi pieces → Subdivides l r → Subdivides (s :: l) (pieces ++ r)

def Disjointed (l : List (Span α)) : Prop :=
  l.Pairwise fun s t => ∀ x, s.Contains x → ¬ t.Contains x

theorem Disjointed.perm {l r : List (Span α)} (h : l.Perm r) (hd : Disjointed l) :
    Disjointed r :=
  List.Pairwise.perm hd h fun hst x ht hs => hst x hs ht

theorem Tiles.le {lo hi : α} {pieces : List (Span α)} (h : Tiles lo hi pieces) : lo ≤ hi := by
  induction pieces generalizing lo with
  | nil => exact le_of_eq h
  | cons s rest ih =>
    obtain ⟨rfl, hlt, hrest⟩ := h
    exact hlt.le.trans (ih hrest)

theorem Tiles.proper {lo hi : α} {pieces : List (Span α)} (h : Tiles lo hi pieces) :
    Proper pieces := by
  induction pieces generalizing lo with
  | nil => exact proper_nil
  | cons s rest ih =>
    obtain ⟨_, hlt, hrest⟩ := h
    exact (proper_cons s rest).mpr ⟨hlt, ih hrest⟩

theorem Tiles.covers_iff {lo hi : α} {pieces : List (Span α)} (h : Tiles lo hi pieces) (x : α) :
    Covers pieces x ↔ lo ≤ x ∧ x < hi := by
  induction pieces generalizing lo with
  | nil =>
    have heq : lo = hi := h
    simp only [not_covers_nil, false_iff, not_and]
    intro hlo
    exact not_lt.mpr (heq ▸ hlo)
  | cons s rest ih =>
    obtain ⟨rfl, hlt, hrest⟩ := h
    have hle : s.hi ≤ hi := hrest.le
    rw [covers_cons, ih hrest, Contains]
    constructor
    · rintro (⟨hlo, hhi⟩ | ⟨hlo, hhi⟩)
      · exact ⟨hlo, by order⟩
      · exact ⟨by order, hhi⟩
    · rintro ⟨hlo, hhi⟩
      cases lt_or_ge x s.hi with
      | inl hx => exact .inl ⟨hlo, hx⟩
      | inr hx => exact .inr ⟨hx, hhi⟩

theorem Tiles.ordered {lo hi : α} {pieces : List (Span α)} (h : Tiles lo hi pieces) :
    Ordered pieces := by
  induction pieces generalizing lo with
  | nil => exact List.Pairwise.nil
  | cons s rest ih =>
    obtain ⟨_, _, hrest⟩ := h
    refine List.pairwise_cons.mpr ⟨fun t ht => ?_, ih hrest⟩
    have hcov : Covers rest t.lo := ⟨t, ht, le_rfl, hrest.proper t ht⟩
    exact ((hrest.covers_iff t.lo).mp hcov).1

theorem Ordered.disjointed {l : List (Span α)} (h : Ordered l) : Disjointed l :=
  h.imp fun hle _ hs ht => not_lt.mpr (hle.trans ht.1) hs.2

theorem Tiles.append {lo mid hi : α} {l r : List (Span α)} (hl : Tiles lo mid l)
    (hr : Tiles mid hi r) : Tiles lo hi (l ++ r) := by
  induction l generalizing lo with
  | nil =>
    have heq : lo = mid := hl
    exact heq ▸ hr
  | cons s rest ih =>
    obtain ⟨hlo, hlt, hrest⟩ := hl
    exact ⟨hlo, hlt, ih hrest⟩

/-- Cutting a tiling again gives a tiling of the same span. -/
theorem Tiles.subdivides {lo hi : α} {l r : List (Span α)} (ht : Tiles lo hi l)
    (h : Subdivides l r) : Tiles lo hi r := by
  induction h generalizing lo with
  | nil => exact ht
  | cons hpieces _ ih =>
    obtain ⟨rfl, _, hrest⟩ := ht
    exact hpieces.append (ih hrest)

theorem Subdivides.refl {l : List (Span α)} (hp : Proper l) : Subdivides l l := by
  induction l with
  | nil => exact .nil
  | cons s l ih =>
    obtain ⟨hs, hl⟩ := (proper_cons s l).mp hp
    have htile : Tiles s.lo s.hi [s] := ⟨rfl, hs, rfl⟩
    exact Subdivides.cons htile (ih hl)

theorem Subdivides.append_left {l m r : List (Span α)} (h : Subdivides (l ++ m) r) :
    ∃ u v, r = u ++ v ∧ Subdivides l u ∧ Subdivides m v := by
  induction l generalizing r with
  | nil => exact ⟨[], r, rfl, .nil, h⟩
  | cons s l ih =>
    cases h with
    | cons hpieces hrest =>
      obtain ⟨u, v, rfl, hu, hv⟩ := ih hrest
      exact ⟨_ ++ u, v, (List.append_assoc _ _ _).symm, .cons hpieces hu, hv⟩

theorem Subdivides.trans {l m r : List (Span α)} (hlm : Subdivides l m) (hmr : Subdivides m r) :
    Subdivides l r := by
  induction hlm generalizing r with
  | nil => exact hmr
  | cons hpieces _ ih =>
    obtain ⟨u, v, rfl, hu, hv⟩ := hmr.append_left
    exact .cons (hpieces.subdivides hu) (ih hv)

theorem Subdivides.covers_iff {l r : List (Span α)} (h : Subdivides l r) (x : α) :
    Covers r x ↔ Covers l x := by
  induction h with
  | nil => rfl
  | cons hpieces _ ih => rw [covers_append, covers_cons, hpieces.covers_iff, ih, Contains]

/-- Every piece lies inside one of the spans that were cut. -/
theorem Subdivides.within {l r : List (Span α)} (h : Subdivides l r) {t : Span α} (ht : t ∈ r) :
    ∃ s ∈ l, ∀ x, t.Contains x → s.Contains x := by
  induction h with
  | nil => simp at ht
  | @cons s pieces l r hpieces _ ih =>
    cases List.mem_append.mp ht with
    | inl ht => exact ⟨s, by simp, fun x hx => (hpieces.covers_iff x).mp ⟨t, ht, hx⟩⟩
    | inr ht =>
      obtain ⟨u, hu, hsub⟩ := ih ht
      exact ⟨u, List.mem_cons_of_mem s hu, hsub⟩

theorem Subdivides.disjointed {l r : List (Span α)} (h : Subdivides l r) (hd : Disjointed l) :
    Disjointed r := by
  induction h with
  | nil => exact hd
  | cons hpieces hrest ih =>
    obtain ⟨hfirst, hd⟩ := List.pairwise_cons.mp hd
    refine List.pairwise_append.mpr ⟨hpieces.ordered.disjointed, ih hd, fun t ht u hu x htx hux => ?_⟩
    obtain ⟨v, hv, hsub⟩ := hrest.within hu
    exact hfirst v hv x ((hpieces.covers_iff x).mp ⟨t, ht, htx⟩) (hsub x hux)

end Order

theorem Tiles.total {lo hi : Nat} {pieces : List (Span Nat)} (h : Tiles lo hi pieces) :
    total pieces = hi - lo := by
  induction pieces generalizing lo with
  | nil =>
    have heq : lo = hi := h
    simp [heq]
  | cons s rest ih =>
    obtain ⟨rfl, hlt, hrest⟩ := h
    have hle := hrest.le
    rw [total_cons, ih hrest]
    omega

theorem Subdivides.total {l r : List (Span Nat)} (h : Subdivides l r) : total r = total l := by
  induction h with
  | nil => rfl
  | cons hpieces _ ih => rw [total_append, total_cons, hpieces.total, ih]

end Span
