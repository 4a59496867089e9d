import AgnostOS.Graphics
import AgnostOS.Library.Trace
import AgnostOS.Mouse

/-! The software cursor of mouse/mod.rs over the drawing of the console. -/
namespace AgnostOS.Mouse
open Word Graphics Framebuffer

abbrev MOUSE_CURSOR_SIZE : PixelSize := ⟨5, 5, by decide, by decide⟩
abbrev MOUSE_CURSOR_PIXELS : Nat := 25

abbrev CURSOR_W : Nat := 20
abbrev CURSOR_H : Nat := 20

structure MouseCursor where
  position : Option (Nat × Nat)
  savedUnder : List Color
  deriving DecidableEq

def MouseCursor.hidden : MouseCursor := ⟨none, List.replicate MOUSE_CURSOR_PIXELS BLACK⟩

def cursorPixels (fb : Framebuffer) (x y : Nat) : List Nat :=
  rectangle fb x y (x + MOUSE_CURSOR_SIZE.width) (y + MOUSE_CURSOR_SIZE.height)

def cursorCoords (x y : Nat) : List (Nat × Nat) :=
  (List.range' y MOUSE_CURSOR_SIZE.height).flatMap fun row =>
    (List.range' x MOUSE_CURSOR_SIZE.width).map fun col => (col, row)

def drawMouseCursor (fb : Framebuffer) (origin : PixelCoord) (cursor : MouseCursor)
    (m : ByteMemory) : MouseCursor × ByteMemory :=
  match checkedAdd 64 origin.x MOUSE_CURSOR_SIZE.width,
      checkedAdd 64 origin.y MOUSE_CURSOR_SIZE.height with
  | some right, some bottom =>
    if fb.isDrawable = false ∨ right > fb.width ∨ bottom > fb.height then (cursor, m)
    else
      (⟨some (origin.x, origin.y),
        (cursorCoords origin.x origin.y).map fun (x, y) => fb.readPixel m x y⟩,
        fb.paint m (drawRec fb origin MOUSE_CURSOR_SIZE WHITE))
  | _, _ => (cursor, m)

def eraseMouseCursor (fb : Framebuffer) (cursor : MouseCursor) (m : ByteMemory) :
    MouseCursor × ByteMemory :=
  match cursor.position with
  | none => (cursor, m)
  | some (x, y) =>
    ({ cursor with position := none }, fb.paint m ((cursorPixels fb x y).zip cursor.savedUnder))

def asI32 (n : Nat) : Int := (n : Int).bmod (2 ^ 32)

/-- `value.clamp(lo, hi)`, which panics on an empty range. -/
def clamp (value lo hi : Int) : Option Int :=
  if lo ≤ hi then some (max lo (min value hi)) else none

structure Screen where
  bytes : ByteMemory
  cursor : MouseCursor
  mouseX : Int
  mouseY : Int

inductive ScreenAction where
  | mouse (dx dy : Int)
  | console (op : DrawOp)

/-- One mouse event of the shell, or one drawing call of the console; none is a panic. -/
def Screen.step (font : Font) (fb : Framebuffer) (s : Screen) : ScreenAction → Option Screen
  | .mouse dx dy => do
    let (cursor, bytes) := eraseMouseCursor fb s.cursor s.bytes
    let mouseX ← clamp (s.mouseX + dx) 0 (asI32 fb.width - CURSOR_W)
    let mouseY ← clamp (s.mouseY + dy) 0 (asI32 fb.height - CURSOR_H)
    let (cursor, bytes) := drawMouseCursor fb ⟨mouseX.toNat, mouseY.toNat⟩ cursor bytes
    some ⟨bytes, cursor, mouseX, mouseY⟩
  | .console op => some { s with bytes := op.apply font fb s.bytes }

def Screen.start (bytes : ByteMemory) : Screen := ⟨bytes, .hidden, 0, 0⟩

def Screen.erased (fb : Framebuffer) (s : Screen) : ByteMemory :=
  (eraseMouseCursor fb s.cursor s.bytes).2

/-- The console draws nothing under a shown cursor and does not scroll. -/
def Screen.Spares (font : Font) (fb : Framebuffer) (s : Screen) : ScreenAction → Prop
  | .mouse _ _ => True
  | .console (.scrollUp rows) => s.cursor.position = none ∨ rows = 0
  | .console op => ∀ p ∈ s.cursor.position, ∀ write ∈ op.writes font fb,
      write.1 ∉ cursorPixels fb p.1 p.2

def consoleDrawing : List ScreenAction → List DrawOp
  | [] => []
  | .mouse _ _ :: actions => consoleDrawing actions
  | .console op :: actions => op :: consoleDrawing actions

theorem consoleDrawing_append (first second : List ScreenAction) :
    consoleDrawing (first ++ second) = consoleDrawing first ++ consoleDrawing second := by
  induction first with
  | nil => rfl
  | cons action first ih => cases action <;> simp [consoleDrawing, ih]

/-! ### The cursor over a picture -/

theorem mem_cursorPixels {fb : Framebuffer} {x y pixel : Nat} :
    pixel ∈ cursorPixels fb x y ↔
      ∃ p ∈ cursorCoords x y, pixel = p.2 * fb.stride.get + p.1 := by
  simp only [cursorPixels, rectangle, cursorCoords, List.mem_flatMap, List.mem_map,
    Nat.add_sub_cancel_left]
  constructor
  · rintro ⟨row, hrow, col, hcol, rfl⟩
    exact ⟨(col, row), ⟨row, hrow, col, hcol, rfl⟩, rfl⟩
  · rintro ⟨-, ⟨row, hrow, col, hcol, rfl⟩, rfl⟩
    exact ⟨row, hrow, col, hcol, rfl⟩

theorem mem_cursorCoords {x y : Nat} {p : Nat × Nat} (h : p ∈ cursorCoords x y) :
    p.1 < x + MOUSE_CURSOR_SIZE.width ∧ p.2 < y + MOUSE_CURSOR_SIZE.height := by
  simp only [cursorCoords, List.mem_flatMap, List.mem_map, List.mem_range'_1] at h
  obtain ⟨row, hrow, col, hcol, rfl⟩ := h
  exact ⟨hcol.2, hrow.2⟩

theorem cursorPixels_eq_map (fb : Framebuffer) (x y : Nat) :
    cursorPixels fb x y = (cursorCoords x y).map fun p => p.2 * fb.stride.get + p.1 := by
  simp only [cursorPixels, rectangle, cursorCoords, Nat.add_sub_cancel_left, List.map_flatMap,
    List.map_map]
  rfl

def Screen.Shows (fb : Framebuffer) (s : Screen) (picture : ByteMemory) : Prop :=
  match s.cursor.position with
  | none => s.bytes = picture
  | some (x, y) =>
    (∀ pixel ∈ cursorPixels fb x y, fb.Holds pixel) ∧
      s.cursor.savedUnder = (cursorPixels fb x y).map (fb.colorAt picture) ∧
      ∀ a, (∀ pixel ∈ cursorPixels fb x y, ¬ InPixel pixel a) → s.bytes a = picture a

section Overlay
variable {font : Font} {fb : Framebuffer} {s t : Screen} {picture : ByteMemory}

theorem Screen.Shows.erased (h : s.Shows fb picture) : s.erased fb = picture := by
  rw [Screen.Shows] at h
  rw [Screen.erased, eraseMouseCursor]
  split at h
  · next hnone => simpa [hnone] using h
  · next x y hsome =>
    obtain ⟨hholds, hsaved, hrest⟩ := h
    have hzip : (cursorPixels fb x y).zip ((cursorPixels fb x y).map (fb.colorAt picture)) =
        (cursorPixels fb x y).map fun pixel => (pixel, fb.colorAt picture pixel) := by
      simpa using List.zip_map' (f := id) (g := fb.colorAt picture) (l := cursorPixels fb x y)
    rw [hsaved, hzip]
    funext a
    exact paint_restore hholds fun hout => hrest a hout

theorem drawMouseCursor_shows {cursor : MouseCursor} {mouseX mouseY : Int} (origin : PixelCoord)
    (hhidden : cursor.position = none) :
    Screen.Shows fb ⟨(drawMouseCursor fb origin cursor picture).2,
      (drawMouseCursor fb origin cursor picture).1, mouseX, mouseY⟩ picture := by
  have hsame : Screen.Shows fb ⟨picture, cursor, mouseX, mouseY⟩ picture := by
    simp [Screen.Shows, hhidden]
  rw [drawMouseCursor]
  split
  · next right bottom hright hbottom =>
    obtain ⟨-, rfl⟩ := checkedAdd_eq_some.mp hright
    obtain ⟨-, rfl⟩ := checkedAdd_eq_some.mp hbottom
    split
    · exact hsame
    · next hfits =>
      simp only [not_or, Bool.not_eq_false, not_lt] at hfits
      obtain ⟨hdraw, hx, hy⟩ := hfits
      have hvisible : ∀ p ∈ cursorCoords origin.x origin.y, p.1 < fb.width ∧ p.2 < fb.height := by
        intro p hp
        obtain ⟨hp1, hp2⟩ := mem_cursorCoords hp
        exact ⟨hp1.trans_le hx, hp2.trans_le hy⟩
      refine ⟨?_, ?_, ?_⟩
      · intro pixel hpixel
        obtain ⟨p, hp, rfl⟩ := mem_cursorPixels.mp hpixel
        exact holds_of_visible (hvisible p hp).1 (hvisible p hp).2
      · simp only [cursorPixels_eq_map, List.map_map]
        apply List.map_congr_left
        intro p hp
        exact readPixel_of_visible hdraw (hvisible p hp).1 (hvisible p hp).2 picture
      · intro a hout
        apply paint_outside
        intro write hwrite
        simp only [drawRec, hdraw, if_true, hright, hbottom] at hwrite
        rw [if_neg (by omega)] at hwrite
        obtain ⟨pixel, hpixel, rfl⟩ := List.mem_map.mp hwrite
        exact hout pixel hpixel
  · exact hsame

theorem Screen.step_mouse {dx dy x y : Int}
    (hx : clamp (s.mouseX + dx) 0 (asI32 fb.width - CURSOR_W) = some x)
    (hy : clamp (s.mouseY + dy) 0 (asI32 fb.height - CURSOR_H) = some y) :
    s.step font fb (.mouse dx dy) =
      some ⟨(drawMouseCursor fb ⟨x.toNat, y.toNat⟩ (eraseMouseCursor fb s.cursor s.bytes).1
          (s.erased fb)).2,
        (drawMouseCursor fb ⟨x.toNat, y.toNat⟩ (eraseMouseCursor fb s.cursor s.bytes).1
          (s.erased fb)).1, x, y⟩ := by
  simp only [Screen.step, hx, hy, Option.bind_eq_bind, Option.bind_some]
  rfl

theorem Screen.Shows.mouse {dx dy : Int} (h : s.Shows fb picture)
    (hstep : s.step font fb (.mouse dx dy) = some t) : t.Shows fb picture := by
  have herased := h.erased
  simp only [Screen.step, Option.bind_eq_bind, Option.bind_eq_some_iff, Option.some_inj] at hstep
  obtain ⟨mouseX, -, mouseY, -, rfl⟩ := hstep
  rw [Screen.erased] at herased
  rw [herased]
  apply drawMouseCursor_shows
  rw [eraseMouseCursor]
  split
  · assumption
  · rfl

theorem inPixel_unique {p q a : Nat} (hp : InPixel p a) (hq : InPixel q a) : p = q := by
  simp only [InPixel] at hp hq
  omega

/-- Pixel writes away from the cursor go to the picture and to the screen alike. -/
theorem Screen.Shows.paint {writes : List (Nat × Color)} (h : s.Shows fb picture)
    (hout : ∀ p ∈ s.cursor.position, ∀ write ∈ writes, write.1 ∉ cursorPixels fb p.1 p.2) :
    Screen.Shows fb { s with bytes := fb.paint s.bytes writes } (fb.paint picture writes) := by
  rw [Screen.Shows] at h ⊢
  cases hposition : s.cursor.position with
  | none =>
    simp only [hposition] at h ⊢
    rw [h]
  | some p =>
    simp only [hposition] at h ⊢
    obtain ⟨hholds, hsaved, hrest⟩ := h
    refine ⟨hholds, ?_, fun a ha => paint_congr writes (hrest a ha)⟩
    rw [hsaved]
    apply List.map_congr_left
    intro pixel hpixel
    apply colorAt_congr
    intro a ha
    refine (paint_outside picture fun write hwrite hin => ?_).symm
    exact hout p (by simp [hposition]) write hwrite (inPixel_unique hin ha ▸ hpixel)

theorem Screen.Shows.console {op : DrawOp} (h : s.Shows fb picture)
    (hspares : s.Spares font fb (.console op)) (hstep : s.step font fb (.console op) = some t) :
    t.Shows fb (op.apply font fb picture) := by
  obtain rfl := Option.some.inj hstep
  cases op with
  | clearBackground color => exact h.paint hspares
  | drawRec origin size color => exact h.paint hspares
  | drawText text column row color fontHeight => exact h.paint hspares
  | scrollUp rows =>
    cases hspares with
    | inl hhidden =>
      simp only [Screen.Shows, hhidden] at h ⊢
      rw [h]
    | inr hzero =>
      simp only [DrawOp.apply, hzero, scrollRows, or_true, if_true]
      exact h

/-- When the console spares the shown cursor, taking the cursor off at the end leaves what
the console alone would have drawn. -/
theorem cursor_is_overlay {bytes : ByteMemory} {actions : List ScreenAction}
    (h : Trace (fun action s t => s.Spares font fb action ∧ s.step font fb action = some t)
      actions (Screen.start bytes) s) :
    s.erased fb = (consoleDrawing actions).foldl (DrawOp.apply font fb) bytes := by
  apply Screen.Shows.erased
  refine Trace.history_invariant (I := fun actions s =>
    s.Shows fb ((consoleDrawing actions).foldl (DrawOp.apply font fb) bytes)) ?_ h rfl
  rintro actions action s t hs ⟨hspares, hstep⟩
  rw [consoleDrawing_append, List.foldl_append]
  cases action with
  | mouse dx dy => exact hs.mouse hstep
  | console op => exact hs.console hspares hstep

end Overlay

def blackBytes : ByteMemory := fun _ => 0

def dot (x y : Nat) : DrawOp := .drawRec ⟨x, y⟩ ⟨1, 1, by decide, by decide⟩ WHITE

/-- A dot beside the cursor, and the cursor moving over it. -/
theorem overlay_beside_dot :
    ∃ s, Trace (fun action s t => s.Spares blankFont smallDisplay action ∧
        s.step blankFont smallDisplay action = some t)
      [.mouse 0 0, .console (dot 5 0), .mouse 1 0] (Screen.start blackBytes) s ∧
      s.erased smallDisplay = [dot 5 0].foldl (DrawOp.apply blankFont smallDisplay) blackBytes := by
  obtain ⟨s, htrace⟩ : ∃ s, Trace (fun action s t => s.Spares blankFont smallDisplay action ∧
      s.step blankFont smallDisplay action = some t)
      [.mouse 0 0, .console (dot 5 0), .mouse 1 0] (Screen.start blackBytes) s := by
    refine ⟨_, .cons ⟨trivial, Screen.step_mouse (x := 0) (y := 0) (by decide) (by decide)⟩
      (.cons ⟨?_, rfl⟩ (.cons ⟨trivial, Screen.step_mouse (x := 1) (y := 0) (by decide)
        (by decide)⟩ .nil))⟩
    change ∀ p ∈ (_ : Option (Nat × Nat)), ∀ write ∈ (_ : List (Nat × Color)),
      write.1 ∉ cursorPixels _ _ _
    decide +kernel
  exact ⟨s, htrace, cursor_is_overlay htrace⟩

/-- A dot drawn under the cursor is gone once the cursor is erased. -/
theorem dot_under_cursor_lost :
    ∃ s, Trace (fun action s t => s.step blankFont smallDisplay action = some t)
        [.mouse 0 0, .console (dot 0 0)] (Screen.start blackBytes) s ∧
      s.erased smallDisplay ≠
        [dot 0 0].foldl (DrawOp.apply blankFont smallDisplay) blackBytes := by
  refine ⟨_, .cons (Screen.step_mouse (x := 0) (y := 0) (by decide) (by decide))
    (.cons rfl .nil), fun heq => ?_⟩
  exact absurd (congrFun heq 0) (by decide +kernel)

end AgnostOS.Mouse
