import AgnostOS.Library.DigitalLine
import AgnostOS.Library.Loop
import AgnostOS.Primitives

/-! The line of graphics/drawing.rs: it moves once per step of the longer axis, reaches its
end, and colours the points that it visits on the screen. -/
namespace AgnostOS.Graphics
open SignedWord

inductive LineExit where
  | completed | returned
  deriving DecidableEq, Repr

structure LineState where
  x : Int
  y : Int
  error : Int
  writes : List (Nat × Color)

structure LineSetup where
  width : Int
  height : Int
  x2 : Int
  y2 : Int
  deltaX : Int
  deltaY : Int
  stepX : Int
  stepY : Int

def pointWrite (fb : Framebuffer) (color : Color) (line : LineSetup) (x y : Int) :
    List (Nat × Color) :=
  if 0 ≤ x ∧ 0 ≤ y ∧ x < line.width ∧ y < line.height then
    [(y.toNat * fb.stride.get + x.toNat, color)]
  else []

def lineBody (fb : Framebuffer) (color : Color) (line : LineSetup) (s : LineState) :
    (LineExit × List (Nat × Color)) ⊕ LineState :=
  let writes := s.writes ++ pointWrite fb color line s.x s.y
  if s.x = line.x2 ∧ s.y = line.y2 then .inl (.completed, writes)
  else
    match checkedMul 64 s.error 2 with
    | none => .inl (.returned, writes)
    | some doubledError =>
      let movedX :=
        if doubledError > -line.deltaY then
          (checkedSub 64 s.error line.deltaY).bind fun nextError =>
            (checkedAdd 64 s.x line.stepX).map fun nextX => (nextError, nextX)
        else some (s.error, s.x)
      match movedX with
      | none => .inl (.returned, writes)
      | some (error, x) =>
        let movedY :=
          if doubledError < line.deltaX then
            (checkedAdd 64 error line.deltaX).bind fun nextError =>
              (checkedAdd 64 s.y line.stepY).map fun nextY => (nextError, nextY)
          else some (error, s.y)
        match movedY with
        | none => .inl (.returned, writes)
        | some (error, y) => .inr { x, y, error, writes }

def lineSetup (fb : Framebuffer) (start stop : PixelCoord) : Option (LineSetup × LineState) :=
  match tryFrom 64 fb.width, tryFrom 64 fb.height, tryFrom 64 stop.x, tryFrom 64 stop.y,
      tryFrom 64 start.x, tryFrom 64 start.y with
  | some width, some height, some x2, some y2, some x, some y =>
    match tryFrom 64 (x - x2).natAbs, tryFrom 64 (y - y2).natAbs with
    | some deltaX, some deltaY =>
      some ({ width, height, x2, y2, deltaX, deltaY
              stepX := if x < x2 then 1 else -1
              stepY := if y < y2 then 1 else -1 },
        { x, y, error := deltaX - deltaY, writes := [] })
    | _, _ => none
  | _, _, _, _, _, _ => none

/-- `draw_line` with at most `fuel` rounds of its loop. -/
def drawLine (fb : Framebuffer) (start stop : PixelCoord) (color : Color) (fuel : Nat) :
    Option (LineExit × List (Nat × Color)) :=
  if fb.isDrawable then
    match lineSetup fb start stop with
    | none => some (.returned, [])
    | some (line, s) => Loop.iterate (lineBody fb color line) fuel s
  else some (.returned, [])

def linePoints (fb : Framebuffer) (start stop : PixelCoord) (color : Color) (fuel : Nat) :
    List (Int × Int) :=
  if fb.isDrawable then
    match lineSetup fb start stop with
    | none => []
    | some (line, s) =>
      (Loop.visited (lineBody fb color line) fuel s).map fun s => (s.x, s.y)
  else []

/-! ### The rounds of the loop -/

variable {fb : Framebuffer} {start stop : PixelCoord} {color : Color} {j : Nat}

def span (a b : Nat) : Nat := ((a : Int) - b).natAbs

def direction (a b : Nat) : Int := if (a : Int) < b then 1 else -1

def lineSteps (start stop : PixelCoord) : Nat := max (span start.x stop.x) (span start.y stop.y)

def lineOf (fb : Framebuffer) (start stop : PixelCoord) : LineSetup where
  width := fb.width
  height := fb.height
  x2 := stop.x
  y2 := stop.y
  deltaX := span start.x stop.x
  deltaY := span start.y stop.y
  stepX := direction start.x stop.x
  stepY := direction start.y stop.y

def moves (start stop : PixelCoord) (j : Nat) : Nat × Nat :=
  DigitalLine.point (span start.x stop.x) (span start.y stop.y) j

def errorAt (start stop : PixelCoord) (j : Nat) : Int :=
  DigitalLine.error (span start.x stop.x) (span start.y stop.y) (moves start stop j)

def pointAt (start stop : PixelCoord) (j : Nat) : Int × Int :=
  (start.x + direction start.x stop.x * (moves start stop j).1,
    start.y + direction start.y stop.y * (moves start stop j).2)

def writesAt (fb : Framebuffer) (color : Color) (start stop : PixelCoord) (j : Nat) :
    List (Nat × Color) :=
  (List.range j).flatMap fun j =>
    pointWrite fb color (lineOf fb start stop) (pointAt start stop j).1 (pointAt start stop j).2

def stateAt (fb : Framebuffer) (color : Color) (start stop : PixelCoord) (j : Nat) : LineState where
  x := (pointAt start stop j).1
  y := (pointAt start stop j).2
  error := errorAt start stop j
  writes := writesAt fb color start stop j

/-- Coordinates that the conversions accept, at distances that the error term can double. -/
structure InRange (start stop : PixelCoord) : Prop where
  fits : (start.x < 2 ^ 63 ∧ start.y < 2 ^ 63) ∧ stop.x < 2 ^ 63 ∧ stop.y < 2 ^ 63
  near : span start.x stop.x < 2 ^ 61 ∧ span start.y stop.y < 2 ^ 61

theorem onLine_moves (hj : j ≤ lineSteps start stop) :
    DigitalLine.OnLine (span start.x stop.x) (span start.y stop.y) j (moves start stop j) :=
  DigitalLine.onLine_point hj

theorem lineSetup_eq (color : Color) (hrange : InRange start stop) :
    lineSetup fb start stop = some (lineOf fb start stop, stateAt fb color start stop 0) := by
  have hsize : fb.width < 2 ^ 62 ∧ fb.height < 2 ^ 62 := size_lt
  obtain ⟨⟨⟨hx, hy⟩, hx2, hy2⟩, hdx, hdy⟩ := hrange
  rw [lineSetup, tryFrom_of_lt (n := fb.width) (by omega), tryFrom_of_lt (n := fb.height) (by omega),
    tryFrom_of_lt (n := stop.x) (by omega), tryFrom_of_lt (n := stop.y) (by omega),
    tryFrom_of_lt (n := start.x) (by omega), tryFrom_of_lt (n := start.y) (by omega)]
  simp only
  rw [span] at hdx hdy
  rw [tryFrom_of_lt (n := ((start.x : Int) - stop.x).natAbs) (by omega),
    tryFrom_of_lt (n := ((start.y : Int) - stop.y).natAbs) (by omega)]
  simp [lineOf, stateAt, pointAt, moves, errorAt, DigitalLine.point, DigitalLine.error, writesAt,
    span, direction]

/-- Moves up to the end stay between the coordinates, and all of them lead to the end. -/
theorem direction_mul {a b i : Nat} (hi : i ≤ span a b) :
    (min (a : Int) b ≤ a + direction a b * i ∧ (a : Int) + direction a b * i ≤ max (a : Int) b) ∧
      ((a : Int) + direction a b * i = b ↔ i = span a b) := by
  rw [span] at hi ⊢
  rw [direction]
  split <;> omega

theorem pointAt_eq_stop_iff (hj : j ≤ lineSteps start stop) :
    ((pointAt start stop j).1 = stop.x ∧ (pointAt start stop j).2 = stop.y) ↔
      j = lineSteps start stop := by
  have hline := onLine_moves hj
  rw [pointAt, (direction_mul hline.first).2, (direction_mul hline.second).2]
  constructor
  · intro hend
    by_contra hne
    exact DigitalLine.point_ne_end (lt_of_le_of_ne hj hne) (Prod.ext hend.1 hend.2)
  · intro hend
    have hpoint : moves start stop j = (span start.x stop.x, span start.y stop.y) := by
      rw [hend]
      exact DigitalLine.point_end
    rw [hpoint]
    exact ⟨rfl, rfl⟩

theorem fits_of_between {a b c : Int} (ha : 0 ≤ a ∧ a < 2 ^ 63) (hb : 0 ≤ b ∧ b < 2 ^ 63)
    (hc : min a b ≤ c ∧ c ≤ max a b) : Fits 64 c := by
  rw [Fits]
  omega

/-- A checked move along one axis, when the error term calls for it. -/
theorem checked_move {moved : Prop} [Decidable moved] {e e' x d x' : Int}
    (herror : moved → Fits 64 e') (hnext : x' = if moved then x + d else x) (hx : Fits 64 x') :
    (if moved then
      (checked 64 e').bind fun nextError =>
        (checkedAdd 64 x d).map fun nextX => (nextError, nextX)
    else some (e, x)) = some (if moved then e' else e, x') := by
  by_cases hmoved : moved
  · rw [if_pos hmoved] at hnext
    rw [if_pos hmoved, if_pos hmoved, checked_of_fits (herror hmoved), Option.bind_some, checkedAdd,
      ← hnext, checked_of_fits hx]
    rfl
  · rw [if_neg hmoved] at hnext
    rw [if_neg hmoved, if_neg hmoved, hnext]

theorem lineBody_moves {line : LineSetup} {s : LineState} {d e x y : Int}
    (hend : ¬ (s.x = line.x2 ∧ s.y = line.y2)) (hdouble : checkedMul 64 s.error 2 = some d)
    (he : e = if d > -line.deltaY then s.error - line.deltaY else s.error)
    (hfitsX : Fits 64 (s.error - line.deltaY)) (hfitsY : Fits 64 (e + line.deltaX))
    (hx : x = if d > -line.deltaY then s.x + line.stepX else s.x) (hxfits : Fits 64 x)
    (hy : y = if d < line.deltaX then s.y + line.stepY else s.y) (hyfits : Fits 64 y) :
    lineBody fb color line s = .inr { x, y
                                      error := if d < line.deltaX then e + line.deltaX else e
                                      writes := s.writes ++ pointWrite fb color line s.x s.y } := by
  have hmovedX := checked_move (e := s.error) (fun _ => hfitsX) hx hxfits
  have hmovedY := checked_move (e := e) (fun _ => hfitsY) hy hyfits
  rw [← he] at hmovedX
  simp only [lineBody]
  rw [if_neg hend, hdouble]
  simp only [checkedSub, hmovedX]
  rw [checkedAdd, hmovedY]

theorem pointAt_next (start stop : PixelCoord) (j : Nat) :
    ((pointAt start stop (j + 1)).1 = if 2 * errorAt start stop j > -span start.y stop.y then
        (pointAt start stop j).1 + direction start.x stop.x else (pointAt start stop j).1) ∧
      (pointAt start stop (j + 1)).2 = if 2 * errorAt start stop j < span start.x stop.x then
        (pointAt start stop j).2 + direction start.y stop.y else (pointAt start stop j).2 := by
  have hstep : moves start stop (j + 1) =
      (if 2 * errorAt start stop j > -span start.y stop.y then (moves start stop j).1 + 1
        else (moves start stop j).1,
      if 2 * errorAt start stop j < span start.x stop.x then (moves start stop j).2 + 1
        else (moves start stop j).2) := rfl
  have hmove : ∀ (c d : Int) (n : Nat), c + d * (n + 1 : Nat) = c + d * n + d := by
    intro c d n
    push_cast
    ring
  simp only [pointAt, hstep]
  constructor
  · by_cases hfirst : 2 * errorAt start stop j > -span start.y stop.y
    · simp only [if_pos hfirst, hmove]
    · simp only [if_neg hfirst]
  · by_cases hsecond : 2 * errorAt start stop j < span start.x stop.x
    · simp only [if_pos hsecond, hmove]
    · simp only [if_neg hsecond]

theorem errorAt_next (start stop : PixelCoord) (j : Nat) : errorAt start stop (j + 1) =
    if 2 * errorAt start stop j < span start.x stop.x then
      (if 2 * errorAt start stop j > -span start.y stop.y then
        errorAt start stop j - span start.y stop.y else errorAt start stop j) + span start.x stop.x
    else if 2 * errorAt start stop j > -span start.y stop.y then
      errorAt start stop j - span start.y stop.y else errorAt start stop j :=
  DigitalLine.error_step (moves start stop j)

theorem errorAt_bound (hj : j ≤ lineSteps start stop) :
    -(3 * lineSteps start stop : Int) ≤ 2 * errorAt start stop j ∧
      2 * errorAt start stop j ≤ 3 * lineSteps start stop := DigitalLine.error_bound hj

theorem lineBody_next (hrange : InRange start stop) (hj : j < lineSteps start stop) :
    lineBody fb color (lineOf fb start stop) (stateAt fb color start stop j) =
      .inr (stateAt fb color start stop (j + 1)) := by
  have hbound := errorAt_bound hj.le
  have hline : DigitalLine.OnLine _ _ (j + 1) (moves start stop (j + 1)) := onLine_moves hj
  have hend := mt (pointAt_eq_stop_iff hj.le).mp hj.ne
  have hnext := pointAt_next start stop j
  have hx : Fits 64 (pointAt start stop (j + 1)).1 :=
    fits_of_between (by have := hrange.fits.1.1; omega) (by have := hrange.fits.2.1; omega)
      (direction_mul hline.first).1
  have hy : Fits 64 (pointAt start stop (j + 1)).2 :=
    fits_of_between (by have := hrange.fits.1.2; omega) (by have := hrange.fits.2.2; omega)
      (direction_mul hline.second).1
  have hnear := hrange.near
  have hsteps : lineSteps start stop < 2 ^ 61 := Nat.max_lt.mpr hnear
  have hdouble : checkedMul 64 (errorAt start stop j) 2 = some (2 * errorAt start stop j) := by
    rw [checkedMul, checked_eq_some, Fits]
    omega
  have hwrites : writesAt fb color start stop (j + 1) = writesAt fb color start stop j ++
      pointWrite fb color (lineOf fb start stop) (pointAt start stop j).1
        (pointAt start stop j).2 := by
    rw [writesAt, List.range_succ, List.flatMap_append, List.flatMap_singleton, ← writesAt]
  have hfitsX : Fits 64 (errorAt start stop j - span start.y stop.y) := by
    rw [Fits]
    omega
  have hfitsY : Fits 64 ((if 2 * errorAt start stop j > -span start.y stop.y then
      errorAt start stop j - span start.y stop.y else errorAt start stop j) +
      span start.x stop.x) := by
    rw [Fits]
    split <;> omega
  rw [stateAt.eq_def fb color start stop (j + 1), hwrites, errorAt_next]
  exact lineBody_moves hend hdouble rfl hfitsX hfitsY hnext.1 hx hnext.2 hy

/-- At the end the loop leaves with the writes of all points. -/
theorem lineBody_end :
    lineBody fb color (lineOf fb start stop) (stateAt fb color start stop (lineSteps start stop)) =
      .inl (.completed, writesAt fb color start stop (lineSteps start stop + 1)) := by
  rw [lineBody, if_pos]
  · rw [writesAt, List.range_succ, List.flatMap_append]
    simp [stateAt, writesAt]
  · exact (pointAt_eq_stop_iff le_rfl).mpr rfl

/-! ### The whole line -/

/-- One point for each step of the longer axis, from one end to the other, each next to the one
before and at most half a pixel of the shorter axis off the straight line. -/
structure DrawsLine (start stop : PixelCoord) (points : List (Int × Int)) : Prop where
  length : points.length = lineSteps start stop + 1
  first : points[0]? = some ((start.x : Int), (start.y : Int))
  last : points[lineSteps start stop]? = some ((stop.x : Int), (stop.y : Int))
  adjacent : ∀ j p q, points[j]? = some p → points[j + 1]? = some q →
    |q.1 - p.1| ≤ 1 ∧ |q.2 - p.2| ≤ 1
  long : ∀ j p q, points[j]? = some p → points[j + 1]? = some q →
    (span start.y stop.y ≤ span start.x stop.x → |q.1 - p.1| = 1) ∧
      (span start.x stop.x ≤ span start.y stop.y → |q.2 - p.2| = 1)
  near : ∀ p ∈ points, 2 * |(p.1 - start.x) * ((stop.y : Int) - start.y) -
    (p.2 - start.y) * ((stop.x : Int) - start.x)| ≤ lineSteps start stop

theorem direction_span (a b : Nat) : direction a b * span a b = (b : Int) - a := by
  have hend := (direction_mul (le_refl (span a b))).2.mpr rfl
  omega

theorem abs_direction (a b : Nat) : |direction a b| = 1 := by
  rw [direction]
  split <;> rfl

/-- Twice the cross product of a point with the line is the offset of its moves. -/
theorem pointAt_near (hj : j ≤ lineSteps start stop) :
    2 * |((pointAt start stop j).1 - start.x) * ((stop.y : Int) - start.y) -
      ((pointAt start stop j).2 - start.y) * ((stop.x : Int) - start.x)| ≤ lineSteps start stop := by
  have hcross : ((pointAt start stop j).1 - start.x) * ((stop.y : Int) - start.y) -
      ((pointAt start stop j).2 - start.y) * ((stop.x : Int) - start.x) =
      -(direction start.x stop.x * direction start.y stop.y * ((moves start stop j).2 *
        span start.x stop.x - (moves start stop j).1 * span start.y stop.y)) := by
    rw [← direction_span start.y stop.y, ← direction_span start.x stop.x, pointAt]
    ring
  have hnear := (onLine_moves hj).near
  rw [DigitalLine.offset, abs_mul, abs_two] at hnear
  rw [hcross, abs_neg, abs_mul, abs_mul, abs_direction, abs_direction, one_mul, one_mul]
  exact hnear

theorem drawsLine_pointAt (start stop : PixelCoord) :
    DrawsLine start stop ((List.range (lineSteps start stop + 1)).map (pointAt start stop)) := by
  have hget : ∀ {j p}, ((List.range (lineSteps start stop + 1)).map (pointAt start stop))[j]? =
      some p → j ≤ lineSteps start stop ∧ p = pointAt start stop j := by
    intro j p hp
    rw [List.getElem?_map, Option.map_eq_some_iff] at hp
    obtain ⟨k, hk, rfl⟩ := hp
    obtain ⟨hlt, rfl⟩ := List.getElem?_eq_some_iff.mp hk
    rw [List.length_range] at hlt
    rw [List.getElem_range]
    exact ⟨by omega, rfl⟩
  refine ⟨by simp, ?_, ?_, fun j p q hp hq => ?_, fun j p q hp hq => ?_, fun p hp => ?_⟩
  · simp [pointAt, moves, DigitalLine.point]
  · have hend := (pointAt_eq_stop_iff (le_refl (lineSteps start stop))).mpr rfl
    simp [← hend.1, ← hend.2]
  · rw [(hget hp).2, (hget hq).2, (pointAt_next start stop j).1, (pointAt_next start stop j).2]
    have hx := abs_direction start.x stop.x
    have hy := abs_direction start.y stop.y
    constructor
    · split <;> simp [hx]
    · split <;> simp [hy]
  · have hline := onLine_moves (hget hp).1
    have hnext := onLine_moves (hget hq).1
    rw [(hget hp).2, (hget hq).2, pointAt, pointAt]
    constructor
    · intro hlong
      rw [hline.long.1 hlong, hnext.long.1 hlong]
      push_cast
      rw [mul_add, ← add_assoc, add_sub_cancel_left, mul_one]
      exact abs_direction start.x stop.x
    · intro hlong
      rw [hline.long.2 hlong, hnext.long.2 hlong]
      push_cast
      rw [mul_add, ← add_assoc, add_sub_cancel_left, mul_one]
      exact abs_direction start.y stop.y
  · obtain ⟨j, hj, rfl⟩ := List.mem_map.mp hp
    exact pointAt_near (Nat.le_of_lt_succ (List.mem_range.mp hj))

theorem mem_writesAt {write : Nat × Color} {n : Nat} :
    write ∈ writesAt fb color start stop n ↔ ∃ x y, x < fb.width ∧ y < fb.height ∧
      ((x : Int), (y : Int)) ∈ (List.range n).map (pointAt start stop) ∧
      write = (y * fb.stride.get + x, color) := by
  rw [writesAt, List.mem_flatMap]
  constructor
  · intro hmem
    obtain ⟨j, hj, hwrite⟩ := hmem
    rw [pointWrite] at hwrite
    split at hwrite
    · next hin =>
      obtain ⟨hx, hy, hwidth, hheight⟩ := hin
      simp only [lineOf] at hwidth hheight
      refine ⟨(pointAt start stop j).1.toNat, (pointAt start stop j).2.toNat, by omega, by omega,
        List.mem_map.mpr ⟨j, hj, ?_⟩, List.mem_singleton.mp hwrite⟩
      rw [Int.toNat_of_nonneg hx, Int.toNat_of_nonneg hy]
    · cases hwrite
  · intro hpoint
    obtain ⟨x, y, hx, hy, hmem, rfl⟩ := hpoint
    obtain ⟨j, hj, hat⟩ := List.mem_map.mp hmem
    refine ⟨j, hj, ?_⟩
    rw [hat, pointWrite, if_pos]
    · exact List.mem_singleton.mpr rfl
    · simp only [lineOf]
      omega

theorem writesAt_paints (hdraw : fb.isDrawable = true) (color : Color) (n : Nat) (m : ByteMemory) :
    PaintsVisible fb m (writesAt fb color start stop n) fun x y =>
      if ((x : Int), (y : Int)) ∈ (List.range n).map (pointAt start stop) then some color
      else none := by
  have hwidth : fb.width ≤ fb.stride.get := Framebuffer.width_le_stride
  have hcolor : writesAt fb color start stop n =
      ((writesAt fb color start stop n).map Prod.fst).map fun pixel => (pixel, color) := by
    rw [List.map_map]
    apply (List.map_id _).symm.trans
    apply List.map_congr_left
    intro write hwrite
    obtain ⟨x, y, -, -, -, rfl⟩ := mem_writesAt.mp hwrite
    rfl
  rw [hcolor]
  apply paintsVisible_const hdraw
  · intro pixel hpixel
    obtain ⟨write, hwrite, rfl⟩ := List.mem_map.mp hpixel
    obtain ⟨x, y, hx, hy, -, rfl⟩ := mem_writesAt.mp hwrite
    exact ⟨x, y, hx, hy, rfl⟩
  · intro x y hx hy
    constructor
    · intro hpixel
      obtain ⟨write, hwrite, hindex⟩ := List.mem_map.mp hpixel
      obtain ⟨x', y', hx', hy', hpoint, rfl⟩ := mem_writesAt.mp hwrite
      have hsame := Framebuffer.pixel_inj (lt_of_lt_of_le hx' hwidth) (lt_of_lt_of_le hx hwidth)
        hindex
      rw [← hsame.1, ← hsame.2]
      exact hpoint
    · intro hpoint
      exact List.mem_map.mpr ⟨_, mem_writesAt.mpr ⟨x, y, hx, hy, hpoint, rfl⟩, rfl⟩

/-- Within range the loop reaches the end in one round for each step of the longer axis, along
the points of the line, and colours those on the screen. -/
theorem drawLine_visits {ptr byteLen : Nat} {size : PixelSize} {stride : Stride}
    {format : PixelFormat}
    (haccepted : Framebuffer.fromRawParts ptr byteLen size stride format = .ok fb) (hptr : ptr ≠ 0)
    (hrange : InRange start stop) (color : Color) (m : ByteMemory) {fuel : Nat}
    (hfuel : lineSteps start stop < fuel) :
    DrawsLine start stop (linePoints fb start stop color fuel) ∧
    ∃ writes, drawLine fb start stop color fuel = some (.completed, writes) ∧
      PaintsVisible fb m writes fun x y =>
        if ((x : Int), (y : Int)) ∈ linePoints fb start stop color fuel then some color
        else none := by
  have hdraw : fb.isDrawable = true := Framebuffer.isDrawable_of_ok haccepted hptr
  obtain ⟨more, rfl⟩ := Nat.exists_eq_add_of_lt hfuel
  have hrun := Loop.iterate_sequence (f := stateAt fb color start stop)
    (fun j hj => lineBody_next hrange hj) lineBody_end more
  have hpoints : linePoints fb start stop color (lineSteps start stop + more + 1) =
      (List.range (lineSteps start stop + 1)).map (pointAt start stop) := by
    rw [linePoints, if_pos hdraw, lineSetup_eq color hrange]
    simp only [hrun.2, List.map_map]
    rfl
  rw [hpoints]
  refine ⟨drawsLine_pointAt start stop, _, ?_, writesAt_paints hdraw color _ m⟩
  rw [drawLine, if_pos hdraw, lineSetup_eq color hrange]
  exact hrun.1

/-- A steep line that leaves a small display. -/
theorem line_off_small_display :
    DrawsLine ⟨20, 3⟩ ⟨27, 40⟩ (linePoints smallDisplay ⟨20, 3⟩ ⟨27, 40⟩ WHITE 38) := by
  have hrange : InRange ⟨20, 3⟩ ⟨27, 40⟩ := ⟨by decide, by decide⟩
  have happly := drawLine_visits Framebuffer.smallDisplay_accepted (by decide) hrange WHITE
    (fun _ => 0) (by decide : _ < 38)
  exact happly.1

end AgnostOS.Graphics
