import AgnostOS.RedrawPixels

/-! The emergency writer of console/mod.rs, which fatal exceptions print with: where its text
stands, and what it changes on the screen. -/
namespace AgnostOS.Console
open Graphics Globals Word Shell

structure EmergencyWriter where
  column : Nat
  row : Nat

section Writer
variable (font : Font) (fb : Framebuffer)

def maxColumns : Nat := fb.width / cellWidth font .size16
def maxRows : Nat := fb.height / cellHeight .size16

def EmergencyWriter.writeStr : List Char → EmergencyWriter → List DrawOp × EmergencyWriter
  | [], w => ([], w)
  | character :: rest, w =>
    if character = '\n' then writeStr rest ⟨0, saturatingAdd 64 w.row 1⟩
    else
      let w := if w.column ≥ maxColumns font fb then ⟨0, saturatingAdd 64 w.row 1⟩ else w
      if w.row ≥ maxRows fb then ([], w)
      else
        let (calls, last) := writeStr rest { w with column := w.column + 1 }
        (.drawText [character] w.column w.row WHITE (some .size16) :: calls, last)

/-- `write_fmt` passes the text on in pieces, as the formatting produces them. -/
def EmergencyWriter.writeFmt : List (List Char) → EmergencyWriter → List DrawOp × EmergencyWriter
  | [], w => ([], w)
  | piece :: pieces, w =>
    let (calls, w) := w.writeStr font fb piece
    let (more, last) := writeFmt pieces w
    (calls ++ more, last)

/-- Each call starts at the top left; before `init` there is nothing to draw on. -/
def emergencyPrint (framebuffer : Option Framebuffer) (args : List (List Char)) : List DrawOp :=
  framebuffer.elim [] fun fb => (EmergencyWriter.writeFmt font fb args ⟨0, 0⟩).1

end Writer

/-! ### Where the characters belong -/

def placeOf (columns offset row : Nat) : Cell := ⟨offset % columns, row + offset / columns⟩

def nextLine (columns offset row : Nat) : Nat := row + (offset - 1) / columns + 1

def placed (columns : Nat) : Nat → Nat → List Char → List (Cell × Char)
  | _, _, [] => []
  | offset, row, character :: rest =>
    if character = '\n' then placed columns 0 (nextLine columns offset row) rest
    else (placeOf columns offset row, character) :: placed columns (offset + 1) row rest

def advanced (columns : Nat) : Nat → Nat → List Char → Nat × Nat
  | offset, row, [] => (offset, row)
  | offset, row, character :: rest =>
    if character = '\n' then advanced columns 0 (nextLine columns offset row) rest
    else advanced columns (offset + 1) row rest

section Places
variable {columns offset row : Nat}

theorem placed_append (first second : List Char) :
    placed columns offset row (first ++ second) = placed columns offset row first ++
      placed columns (advanced columns offset row first).1 (advanced columns offset row first).2
        second := by
  induction first generalizing offset row with
  | nil => rfl
  | cons character first ih =>
    rw [List.cons_append, placed, placed, advanced]
    split_ifs
    · exact ih
    · rw [ih, List.cons_append]

def lastRow (columns offset row : Nat) : Nat := row + (offset - 1) / columns

theorem lastRow_zero : lastRow columns 0 row = row := by
  rw [lastRow, Nat.zero_sub, Nat.zero_div, Nat.add_zero]

theorem lastRow_le : lastRow columns offset row ≤ (placeOf columns offset row).row :=
  Nat.add_le_add_left (Nat.div_le_div_right (Nat.sub_le ..)) row

theorem lastRow_lt_nextLine :
    lastRow columns offset row < lastRow columns 0 (nextLine columns offset row) := by
  rw [lastRow_zero]
  exact Nat.lt_succ_self _

theorem le_advanced (text : List Char) :
    lastRow columns offset row ≤ lastRow columns (advanced columns offset row text).1
      (advanced columns offset row text).2 := by
  induction text generalizing offset row with
  | nil => exact le_rfl
  | cons character text ih =>
    rw [advanced]
    split_ifs
    · exact le_trans (le_of_lt lastRow_lt_nextLine) ih
    · have hnext : lastRow columns (offset + 1) row ≤ _ := ih
      exact le_trans lastRow_le hnext

theorem le_row_of_placed {text : List Char} {p : Cell × Char}
    (h : p ∈ placed columns offset row text) : lastRow columns offset row ≤ p.1.row := by
  induction text generalizing offset row with
  | nil => cases h
  | cons character text ih =>
    rw [placed] at h
    split_ifs at h
    · exact le_trans (le_of_lt lastRow_lt_nextLine) (ih h)
    · cases List.mem_cons.mp h with
      | inl hfirst =>
        rw [hfirst]
        exact lastRow_le
      | inr hrest => exact le_trans lastRow_le (ih hrest)

def Before (a b : Cell) : Prop := a.row < b.row ∨ a.row = b.row ∧ a.column < b.column

theorem Before.trans {a b c : Cell} (h : Before a b) (h' : Before b c) : Before a c := by
  simp only [Before] at h h' ⊢
  omega

theorem Before.ne {a b : Cell} (h : Before a b) : a ≠ b := by
  rintro rfl
  simp [Before] at h

/-- The next place is the one to the right, or the first of the next row. -/
theorem succ_place (hcolumns : 0 < columns) (offset : Nat) :
    (offset + 1) % columns = offset % columns + 1 ∧ (offset + 1) / columns = offset / columns ∨
      offset % columns + 1 = columns ∧ (offset + 1) % columns = 0 ∧
        (offset + 1) / columns = offset / columns + 1 := by
  have hlt : offset % columns < columns := Nat.mod_lt _ hcolumns
  have hsplit : offset + 1 = offset % columns + 1 + columns * (offset / columns) := by
    rw [Nat.add_right_comm, Nat.mod_add_div]
  by_cases hlast : offset % columns + 1 = columns
  · refine .inr ⟨hlast, ?_, ?_⟩
    · rw [hsplit, Nat.add_mul_mod_self_left, hlast, Nat.mod_self]
    · rw [hsplit, Nat.add_mul_div_left _ _ hcolumns, hlast, Nat.div_self hcolumns, Nat.add_comm]
  · have hsmall : offset % columns + 1 < columns := by omega
    refine .inl ⟨?_, ?_⟩
    · rw [hsplit, Nat.add_mul_mod_self_left, Nat.mod_eq_of_lt hsmall]
    · rw [hsplit, Nat.add_mul_div_left _ _ hcolumns, Nat.div_eq_of_lt hsmall, Nat.zero_add]

theorem placeOf_before_next (hcolumns : 0 < columns) :
    Before (placeOf columns offset row) (placeOf columns (offset + 1) row) := by
  simp only [Before, placeOf]
  cases succ_place hcolumns offset <;> omega

/-- Everything that is still to be placed comes after the character placed before. -/
theorem before_of_placed (hcolumns : 0 < columns) {text : List Char} {p : Cell × Char}
    (h : p ∈ placed columns (offset + 1) row text) : Before (placeOf columns offset row) p.1 := by
  induction text generalizing offset with
  | nil => cases h
  | cons character text ih =>
    rw [placed] at h
    split_ifs at h
    · have hrow := le_row_of_placed h
      rw [lastRow_zero] at hrow
      exact .inl (Nat.lt_of_succ_le hrow)
    · cases List.mem_cons.mp h with
      | inl hfirst =>
        rw [hfirst]
        exact placeOf_before_next hcolumns
      | inr hrest => exact (placeOf_before_next hcolumns).trans (ih hrest)

theorem placed_ordered (hcolumns : 0 < columns) (text : List Char) :
    (placed columns offset row text).Pairwise fun p q => Before p.1 q.1 := by
  induction text generalizing offset row with
  | nil => exact .nil
  | cons character text ih =>
    rw [placed]
    split_ifs
    · exact ih
    · exact List.pairwise_cons.mpr ⟨fun _ hp => before_of_placed hcolumns hp, ih⟩

theorem column_lt_of_placed (hcolumns : 0 < columns) {text : List Char} {p : Cell × Char}
    (h : p ∈ placed columns offset row text) : p.1.column < columns := by
  induction text generalizing offset row with
  | nil => cases h
  | cons character text ih =>
    rw [placed] at h
    split_ifs at h
    · exact ih h
    · cases List.mem_cons.mp h with
      | inl hfirst =>
        rw [hfirst]
        exact Nat.mod_lt _ hcolumns
      | inr hrest => exact ih hrest

/-- Every character that is not a line break has its place. -/
theorem placed_text (text : List Char) :
    (placed columns offset row text).map Prod.snd = text.filter (· ≠ '\n') := by
  induction text generalizing offset row with
  | nil => rfl
  | cons character text ih =>
    rw [placed]
    split_ifs with hbreak
    · rw [ih, List.filter_cons_of_neg (by simp [hbreak])]
    · rw [List.map_cons, ih, List.filter_cons_of_pos (by simp [hbreak])]

theorem filter_above_isPrefix {cells : List (Cell × Char)} {rows : Nat}
    (h : cells.Pairwise fun p q => Before p.1 q.1) :
    cells.filter (fun p => p.1.row < rows) <+: cells := by
  induction h with
  | nil => exact List.prefix_rfl
  | @cons p rest hbefore _ ih =>
    by_cases hrow : p.1.row < rows
    · rw [List.filter_cons_of_pos (by simpa using hrow)]
      exact (List.prefix_cons_inj p).mpr ih
    · have hnone : (p :: rest).filter (fun q => q.1.row < rows) = [] := by
        rw [List.filter_eq_nil_iff]
        intro q hq
        cases List.mem_cons.mp hq with
        | inl hfirst => simpa [hfirst] using hrow
        | inr hrest =>
          have hlater := hbefore q hrest
          simp only [Before] at hlater
          simp only [decide_eq_true_eq]
          omega
      rw [hnone]
      exact List.nil_prefix

end Places

/-! ### The writer places its text -/

def cellCalls (cells : List (Cell × Char)) : List DrawOp :=
  cells.map fun p => .drawText [p.2] p.1.column p.1.row WHITE (some .size16)

def shownAt (font : Font) (fb : Framebuffer) (offset row : Nat) (text : List Char) :
    List (Cell × Char) :=
  (placed (maxColumns font fb) offset row text).filter fun p => p.1.row < maxRows fb

def EmergencyWriter.Stands (font : Font) (fb : Framebuffer) (w : EmergencyWriter)
    (offset row : Nat) : Prop :=
  (w.row < maxRows fb ∧ w.row = lastRow (maxColumns font fb) offset row ∧
    w.column = if offset = 0 then 0 else (offset - 1) % maxColumns font fb + 1) ∨
  maxRows fb ≤ w.row ∧ maxRows fb ≤ lastRow (maxColumns font fb) offset row

section Writing
variable {font : Font} {fb : Framebuffer} {w : EmergencyWriter} {offset row : Nat}

theorem shownAt_append (first second : List Char) :
    shownAt font fb offset row (first ++ second) = shownAt font fb offset row first ++
      shownAt font fb (advanced (maxColumns font fb) offset row first).1
        (advanced (maxColumns font fb) offset row first).2 second := by
  rw [shownAt, placed_append, List.filter_append]
  rfl

theorem shownAt_below (hbelow : maxRows fb ≤ lastRow (maxColumns font fb) offset row)
    (text : List Char) : shownAt font fb offset row text = [] := by
  rw [shownAt, List.filter_eq_nil_iff]
  intro p hp
  have hrow := le_row_of_placed hp
  simp only [decide_eq_true_eq]
  omega

theorem maxRows_lt : maxRows fb < 2 ^ 62 :=
  lt_of_le_of_lt (Nat.div_le_self ..) size_lt.2

theorem le_nextRow (h : maxRows fb ≤ w.row) : maxRows fb ≤ saturatingAdd 64 w.row 1 := by
  have hrows : maxRows fb < 2 ^ 62 := maxRows_lt
  simp only [saturatingAdd]
  omega

theorem nextRow (h : w.row < maxRows fb) : saturatingAdd 64 w.row 1 = w.row + 1 := by
  have hrows : maxRows fb < 2 ^ 62 := maxRows_lt
  exact saturatingAdd_of_lt (by omega)

theorem stands_nextLine (h : w.Stands font fb offset row) :
    EmergencyWriter.Stands font fb ⟨0, saturatingAdd 64 w.row 1⟩ 0
      (nextLine (maxColumns font fb) offset row) := by
  rw [EmergencyWriter.Stands, lastRow_zero]
  cases h with
  | inl hon =>
    obtain ⟨hlt, hrow, -⟩ := hon
    rw [nextRow hlt, hrow, if_pos rfl, and_iff_left rfl]
    have hnext : lastRow (maxColumns font fb) offset row + 1 =
        nextLine (maxColumns font fb) offset row := rfl
    rw [hnext]
    exact (Nat.lt_or_ge _ _).imp (fun hlt => ⟨hlt, rfl⟩) fun hge => ⟨hge, hge⟩
  | inr hbelow =>
    refine .inr ⟨le_nextRow hbelow.1, le_trans hbelow.2 ?_⟩
    exact Nat.le_succ _

/-- The position after the check for the end of the row. -/
theorem wrapped_place (hcolumns : 0 < maxColumns font fb) (h : w.Stands font fb offset row) :
    let w' := if w.column ≥ maxColumns font fb then ⟨0, saturatingAdd 64 w.row 1⟩ else w
    (w'.column = (placeOf (maxColumns font fb) offset row).column ∧
      w'.row = (placeOf (maxColumns font fb) offset row).row) ∨
    maxRows fb ≤ w'.row ∧ maxRows fb ≤ (placeOf (maxColumns font fb) offset row).row := by
  cases h with
  | inl hon =>
    obtain ⟨hlt, hrow, hcolumn⟩ := hon
    simp only [nextRow hlt, lastRow, placeOf] at hrow ⊢
    cases offset with
    | zero =>
      rw [if_pos rfl] at hcolumn
      rw [if_neg (by omega), Nat.zero_mod, Nat.zero_div]
      rw [Nat.zero_sub, Nat.zero_div] at hrow
      exact .inl ⟨hcolumn, hrow⟩
    | succ before =>
      rw [if_neg (Nat.succ_ne_zero _), Nat.add_sub_cancel] at hcolumn
      rw [Nat.add_sub_cancel] at hrow
      left
      cases succ_place hcolumns before with
      | inl hinside =>
        have hroom : (before + 1) % maxColumns font fb < maxColumns font fb :=
          Nat.mod_lt _ hcolumns
        rw [if_neg (by omega), hinside.1, hinside.2]
        exact ⟨hcolumn, hrow⟩
      | inr hend =>
        obtain ⟨hfull, hfirst, hbelow⟩ := hend
        rw [if_pos (by omega), hfirst, hbelow, hrow]
        exact ⟨rfl, Nat.add_assoc ..⟩
  | inr hbelow =>
    have hplace : maxRows fb ≤ (placeOf (maxColumns font fb) offset row).row :=
      le_trans hbelow.2 lastRow_le
    right
    split_ifs
    · exact ⟨le_nextRow hbelow.1, hplace⟩
    · exact ⟨hbelow.1, hplace⟩

theorem writeStr_placed (hcolumns : 0 < maxColumns font fb) (h : w.Stands font fb offset row)
    (text : List Char) :
    (w.writeStr font fb text).1 = cellCalls (shownAt font fb offset row text) ∧
      (w.writeStr font fb text).2.Stands font fb (advanced (maxColumns font fb) offset row text).1
        (advanced (maxColumns font fb) offset row text).2 := by
  induction text generalizing w offset row with
  | nil => exact ⟨rfl, h⟩
  | cons character text ih =>
    rw [EmergencyWriter.writeStr, advanced, shownAt, placed]
    by_cases hbreak : character = '\n'
    · simp only [if_pos hbreak]
      exact ih (stands_nextLine h)
    · simp only [if_neg hbreak]
      have hplace := wrapped_place hcolumns h
      generalize (if w.column ≥ maxColumns font fb then
        EmergencyWriter.mk 0 (saturatingAdd 64 w.row 1) else w) = w' at hplace ⊢
      by_cases hscreen : w'.row < maxRows fb
      · obtain ⟨hcolumn, hrow⟩ := hplace.resolve_right fun hbelow => by omega
        have hstands : EmergencyWriter.Stands font fb ⟨w'.column + 1, w'.row⟩ (offset + 1) row := by
          refine .inl ⟨hscreen, hrow, ?_⟩
          rw [if_neg (Nat.succ_ne_zero _), hcolumn]
          rfl
        obtain ⟨hcalls, hlast⟩ := ih hstands
        rw [if_neg (Nat.not_le.mpr hscreen),
          List.filter_cons_of_pos (by simpa [← hrow] using hscreen)]
        refine ⟨?_, hlast⟩
        rw [hcalls, hcolumn, hrow]
        rfl
      · -- the rest of the piece is dropped, and all of it belongs below the screen
        have hbelow : maxRows fb ≤ (placeOf (maxColumns font fb) offset row).row :=
          hplace.elim (fun hsame => hsame.2 ▸ Nat.le_of_not_lt hscreen) And.right
        have hrest : maxRows fb ≤ lastRow (maxColumns font fb) (offset + 1) row := hbelow
        rw [if_pos (Nat.le_of_not_lt hscreen), List.filter_cons_of_neg (by simpa using hbelow)]
        have hnone := shownAt_below hrest text
        rw [shownAt] at hnone
        rw [hnone]
        exact ⟨rfl, .inr ⟨Nat.le_of_not_lt hscreen, le_trans hrest (le_advanced text)⟩⟩

/-- The pieces of the formatting are placed like the text that they make together. -/
theorem writeFmt_placed (hcolumns : 0 < maxColumns font fb) (h : w.Stands font fb offset row)
    (pieces : List (List Char)) :
    (w.writeFmt font fb pieces).1 = cellCalls (shownAt font fb offset row pieces.flatten) := by
  induction pieces generalizing w offset row with
  | nil => rfl
  | cons piece pieces ih =>
    obtain ⟨hcalls, hlast⟩ := writeStr_placed hcolumns h piece
    rw [EmergencyWriter.writeFmt, List.flatten_cons, shownAt_append, cellCalls, List.map_append]
    simp only [hcalls, ih hlast]
    rfl

end Writing

/-! ### What is on the screen -/

section Screen
variable {font : Font} {fb : Framebuffer} {m : ByteMemory} {cells : List (Cell × Char)} {x y : Nat}

theorem readPixel_outside (hdraw : fb.isDrawable = true) (hfit : RastersFit font .size16)
    (hx : x < fb.width) (hy : y < fb.height)
    (hout : ∀ p ∈ cells, p.1 ≠ cellAt font .size16 x y) :
    fb.readPixel (render font fb m (cellCalls cells)) x y = fb.readPixel m x y := by
  induction cells generalizing m with
  | nil => rfl
  | cons p cells ih =>
    rw [cellCalls, List.map_cons, render_cons]
    have hfirst : p.1 ≠ cellAt font .size16 x y := hout p List.mem_cons_self
    have hrest : ∀ q ∈ cells, q.1 ≠ cellAt font .size16 x y :=
      fun q hq => hout q (List.mem_cons_of_mem p hq)
    refine (ih hrest).trans ((readPixel_drawText hdraw hfit p.2 p.1 WHITE hx hy).trans ?_)
    rw [if_neg fun h => hfirst h.1.symm]

theorem readPixel_inside (hdraw : fb.isDrawable = true) (hfit : RastersFit font .size16)
    (hordered : cells.Pairwise fun p q => Before p.1 q.1) (hx : x < fb.width) (hy : y < fb.height)
    {p : Cell × Char} (hp : p ∈ cells) (hcell : p.1 = cellAt font .size16 x y) :
    fb.readPixel (render font fb m (cellCalls cells)) x y =
      if inkAt font .size16 p.2 x y ≠ 0 then shade WHITE (inkAt font .size16 p.2 x y)
      else fb.readPixel m x y := by
  induction hordered generalizing m with
  | nil => cases hp
  | @cons q cells hbefore _ ih =>
    rw [cellCalls, List.map_cons, render_cons]
    cases List.mem_cons.mp hp with
    | inl hfirst =>
      subst hfirst
      have hrest : ∀ q ∈ cells, q.1 ≠ cellAt font .size16 x y :=
        fun q hq => hcell ▸ (hbefore q hq).ne.symm
      refine (readPixel_outside hdraw hfit hx hy hrest).trans
        ((readPixel_drawText hdraw hfit p.2 p.1 WHITE hx hy).trans ?_)
      simp only [hcell.symm, true_and]
    | inr hlater =>
      have hother : q.1 ≠ cellAt font .size16 x y := hcell ▸ (hbefore p hlater).ne
      refine (ih hlater).trans ?_
      have hkept := readPixel_drawText (m := m) hdraw hfit q.2 q.1 WHITE hx hy
      rw [if_neg fun h => hother h.1.symm] at hkept
      simp only [hkept]

end Screen

section Printing
variable {font : Font} {fb : Framebuffer}

structure ShowsText (font : Font) (fb : Framebuffer) (text : List Char)
    (cells : List (Cell × Char)) (m m' : ByteMemory) : Prop where
  beginning : cells.map Prod.snd <+: text.filter (· ≠ '\n')
  places : cells = (placed (maxColumns font fb) 0 0 text).filter fun p => p.1.row < maxRows fb
  ordered : cells.Pairwise fun p q => Before p.1 q.1
  within : ∀ p ∈ cells, p.1.column < maxColumns font fb ∧ p.1.row < maxRows fb
  ink : ∀ p ∈ cells, ∀ x y, x < fb.width → y < fb.height → cellAt font .size16 x y = p.1 →
    fb.readPixel m' x y =
      if inkAt font .size16 p.2 x y ≠ 0 then shade WHITE (inkAt font .size16 p.2 x y)
      else fb.readPixel m x y
  rest : ∀ x y, x < fb.width → y < fb.height → (∀ p ∈ cells, cellAt font .size16 x y ≠ p.1) →
    fb.readPixel m' x y = fb.readPixel m x y

theorem emergency_text_shown (hptr : fb.ptr ≠ 0) (hfit : RastersFit font .size16)
    (hcolumns : 0 < maxColumns font fb) (args : List (List Char)) (m : ByteMemory) :
    ∃ cells, emergencyPrint font (some fb) args = cellCalls cells ∧
      ShowsText font fb args.flatten cells m
        (render font fb m (emergencyPrint font (some fb) args)) := by
  have hdraw : fb.isDrawable = true := Framebuffer.isDrawable_of_ptr hptr
  have hstart : EmergencyWriter.Stands font fb ⟨0, 0⟩ 0 0 := by
    rw [EmergencyWriter.Stands, lastRow_zero, if_pos rfl, and_iff_left rfl]
    exact (Nat.eq_zero_or_pos (maxRows fb)).symm.imp (fun hpos => ⟨hpos, rfl⟩)
      fun hnone => ⟨hnone.le, hnone.le⟩
  have hcalls : emergencyPrint font (some fb) args =
      cellCalls (shownAt font fb 0 0 args.flatten) := writeFmt_placed hcolumns hstart args
  have hordered : (placed (maxColumns font fb) 0 0 args.flatten).Pairwise
      fun p q => Before p.1 q.1 := placed_ordered hcolumns args.flatten
  have hshown : (shownAt font fb 0 0 args.flatten).Pairwise fun p q => Before p.1 q.1 :=
    hordered.filter _
  refine ⟨_, hcalls, ?_, rfl, hshown, ?_, ?_, ?_⟩
  · rw [← placed_text]
    exact (filter_above_isPrefix hordered).map Prod.snd
  · intro p hp
    obtain ⟨hmem, hrow⟩ := List.mem_filter.mp hp
    exact ⟨column_lt_of_placed hcolumns hmem, of_decide_eq_true hrow⟩
  · intro p hp x y hx hy hcell
    rw [hcalls]
    exact readPixel_inside hdraw hfit hshown hx hy hp hcell.symm
  · intro x y hx hy hout
    rw [hcalls]
    exact readPixel_outside hdraw hfit hx hy fun p hp heq => hout p hp heq.symm

/-- On a screen of three columns and one row, the second line of a message is lost. -/
theorem second_line_lost :
    ∃ cells, emergencyPrint barFont (some smallDisplay) ["ab".toList, "c\nd".toList] =
        cellCalls cells ∧
      ShowsText barFont smallDisplay ["ab".toList, "c\nd".toList].flatten cells (fun _ => 0)
        (render barFont smallDisplay (fun _ => 0)
          (emergencyPrint barFont (some smallDisplay) ["ab".toList, "c\nd".toList])) :=
  emergency_text_shown (by decide) (barFont_fits _) (by decide) _ _

end Printing

end AgnostOS.Console
