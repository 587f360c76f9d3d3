import Handheld.Picture.Background

/-!
# Rendering

A frame stores its shades row by row. The loop that paints a frame takes its rows in order and
in each its columns in order, so that at any time it has painted the first so many of the
pixels as they are stored. What it leaves, and what the shortcut for a background that is
switched off leaves, is the frame of the shades that the positions have one by one.
-/

namespace Handheld

namespace Frame

variable {f : Frame} {shade : Nat → Nat → Shade} {w h x y : Nat}

-- ---------------------------------------------------------------------------
-- Places
-- ---------------------------------------------------------------------------

theorem place_lt (hx : x < w) (hy : y < h) : y * w + x < w * h :=
  calc y * w + x < y * w + w := Nat.add_lt_add_left hx _
    _ = w * (y + 1) := by rw [Nat.mul_succ, Nat.mul_comm]
    _ ≤ w * h := Nat.mul_le_mul_left w hy

theorem place_mod (hx : x < w) : (y * w + x) % w = x := by
  rw [Nat.mul_add_mod_self_right, Nat.mod_eq_of_lt hx]

theorem place_div (hx : x < w) : (y * w + x) / w = y := by
  rw [Nat.mul_comm, Nat.mul_add_div (Nat.zero_lt_of_lt hx), Nat.div_eq_of_lt hx, Nat.add_zero]

theorem size_ofFn (w h : Nat) (shade : Nat → Nat → Shade) :
    (ofFn w h shade).pixels.size = w * h := Array.size_ofFn

theorem get?_ofFn (w h : Nat) (shade : Nat → Nat → Shade) (x y : Nat) :
    (ofFn w h shade).get? x y = if x < w ∧ y < h then some (shade x y) else none := by
  by_cases hxy : x < w ∧ y < h
  · simp [get?, ofFn, hxy, place_lt hxy.1 hxy.2, place_mod hxy.1, place_div hxy.1]
  · exact (if_neg hxy).trans (if_neg hxy).symm

-- ---------------------------------------------------------------------------
-- Painting
-- ---------------------------------------------------------------------------

def set? (f : Frame) (x y : Nat) (s : Shade) : Option Frame :=
  if h : y * f.width + x < f.pixels.size then
    some { f with pixels := f.pixels.set (y * f.width + x) s h }
  else none

def paintRow? (shade : Nat → Nat → Shade) (y n : Nat) (f : Frame) : Option Frame :=
  (List.range n).foldlM (fun g x => g.set? x y (shade x y)) f

def paintRows? (shade : Nat → Nat → Shade) (n : Nat) (f : Frame) : Option Frame :=
  (List.range n).foldlM (fun g y => paintRow? shade y g.width g) f

def paint? (shade : Nat → Nat → Shade) (f : Frame) : Option Frame := paintRows? shade f.height f

/-- The frame with the first `n` of its pixels painted, in the order they are stored in. -/
def painted (shade : Nat → Nat → Shade) (n : Nat) (f : Frame) : Frame where
  width := f.width
  height := f.height
  pixels := f.pixels.mapIdx fun i s => if i < n then shade (i % f.width) (i / f.width) else s

theorem painted_zero : f.painted shade 0 = f :=
  congrArg (Frame.mk f.width f.height) (Array.ext (by simp) fun i _ _ => by simp)

theorem painted_all (hsize : f.pixels.size = f.width * f.height) :
    f.painted shade (f.width * f.height) = ofFn f.width f.height shade := by
  have hpixels : (f.painted shade (f.width * f.height)).pixels =
      (ofFn f.width f.height shade).pixels := by
    refine Array.ext (by simp [painted, ofFn, hsize]) fun i hi _ => ?_
    have hlt : i < f.width * f.height := by simpa [painted, hsize] using hi
    simp [painted, ofFn, hlt]
  exact congrArg (Frame.mk f.width f.height) hpixels

theorem set?_painted (hx : x < f.width) (hlt : y * f.width + x < f.pixels.size) :
    (f.painted shade (y * f.width + x)).set? x y (shade x y) =
      some (f.painted shade (y * f.width + x + 1)) := by
  have hlt' : y * f.width + x < (f.painted shade (y * f.width + x)).pixels.size := by
    simpa [painted] using hlt
  refine (dif_pos hlt').trans (congrArg some (congrArg (Frame.mk f.width f.height) ?_))
  refine Array.ext (by simp [painted]) fun i _ _ => ?_
  -- The two prefixes differ at the place that is stored to, and nowhere else.
  by_cases hi : y * f.width + x = i
  · subst hi
    simp [painted, place_mod hx, place_div hx]
  · have hnext : i < y * f.width + x + 1 ↔ i < y * f.width + x := by omega
    simp only [painted, Array.getElem_set, Array.getElem_mapIdx, hi, if_false, hnext]

theorem paintRow?_painted {n : Nat} (hn : n ≤ f.width) (hlt : y * f.width + n ≤ f.pixels.size) :
    paintRow? shade y n (f.painted shade (y * f.width)) =
      some (f.painted shade (y * f.width + n)) := by
  induction n with
  | zero => rfl
  | succ n ih =>
    have hrow := ih (by omega) (by omega)
    rw [paintRow?] at hrow ⊢
    rw [List.range_succ, List.foldlM_append, hrow]
    simpa [Nat.add_assoc] using set?_painted (by omega) (by omega)

theorem paintRows?_painted {n : Nat} (hlt : n * f.width ≤ f.pixels.size) :
    paintRows? shade n f = some (f.painted shade (n * f.width)) := by
  induction n with
  | zero => rw [Nat.zero_mul, painted_zero]; rfl
  | succ n ih =>
    rw [Nat.succ_mul] at hlt
    have hrows := ih (by omega)
    rw [paintRows?] at hrows ⊢
    rw [List.range_succ, List.foldlM_append, hrows, Nat.succ_mul]
    simpa [painted] using paintRow?_painted (Nat.le_refl f.width) hlt

/-- The loop never stores outside the frame, and leaves nothing of what was there. -/
theorem paint?_eq (hsize : f.pixels.size = f.width * f.height) :
    f.paint? shade = some (ofFn f.width f.height shade) := by
  have hlt : f.height * f.width ≤ f.pixels.size :=
    Nat.le_of_eq ((Nat.mul_comm _ _).trans hsize.symm)
  rw [paint?, paintRows?_painted hlt, Nat.mul_comm, painted_all hsize]

theorem size_blank (v : Viewport) :
    (blank v).pixels.size = (blank v).width * (blank v).height := Array.size_replicate

theorem blank_eq_ofFn (v : Viewport) :
    blank v = ofFn v.clamped.width v.clamped.height fun _ _ => .white := by
  refine congrArg (Frame.mk v.clamped.width v.clamped.height) (Array.ext (by simp) fun i _ _ => ?_)
  simp

-- ---------------------------------------------------------------------------
-- Bytes
-- ---------------------------------------------------------------------------

def bytes (s : Shade) : List UInt8 := [s.level, s.level, s.level, 0xFF]

theorem rgba_eq (f : Frame) : f.rgba = f.pixels.toList.flatMap bytes := rfl

theorem length_flatMap_bytes (ss : List Shade) : (ss.flatMap bytes).length = 4 * ss.length := by
  induction ss with
  | nil => rfl
  | cons s ss ih =>
    have hbytes : (bytes s).length = 4 := rfl
    rw [List.flatMap_cons, List.length_append, ih, hbytes, List.length_cons, Nat.mul_succ,
      Nat.add_comm]

theorem take_drop_flatMap_bytes {ss : List Shade} {i : Nat} {s : Shade} (h : ss[i]? = some s) :
    ((ss.flatMap bytes).drop (4 * i)).take 4 = bytes s := by
  induction ss generalizing i with
  | nil => simp at h
  | cons t ss ih =>
    cases i with
    | zero =>
      obtain rfl : t = s := by simpa using h
      rfl
    | succ i =>
      rw [List.flatMap_cons, Nat.mul_succ, Nat.add_comm, ← List.drop_drop]
      exact ih (by simpa using h)

theorem length_rgba (f : Frame) : f.rgba.length = 4 * f.pixels.size :=
  length_flatMap_bytes f.pixels.toList

/-- The bytes of a pixel stand where it stands, four times as far in. -/
theorem rgba_of_get? {s : Shade} (h : f.get? x y = some s) :
    (f.rgba.drop (4 * (y * f.width + x))).take 4 = bytes s := by
  unfold get? at h
  split at h
  · rw [rgba_eq]
    exact take_drop_flatMap_bytes (by simpa using h)
  · cases h

end Frame

namespace Picture

theorem render_eq_ofFn (p : Picture) (v : Viewport) :
    p.render v = Frame.ofFn v.clamped.width v.clamped.height p.pixel := by
  unfold render
  split
  · rfl
  · next hoff =>
    have hpixel : p.pixel = fun _ _ => .white := by
      funext x y
      exact if_neg hoff
    rw [hpixel, Frame.blank_eq_ofFn]

theorem get?_render (p : Picture) (v : Viewport) (x y : Nat) :
    (p.render v).get? x y =
      if x < v.clamped.width ∧ y < v.clamped.height then some (p.pixel x y) else none := by
  rw [render_eq_ofFn, Frame.get?_ofFn]

theorem shade_of_get? {p : Picture} {v : Viewport} {x y : Nat} {s : Shade}
    (h : (p.render v).get? x y = some s) : s = p.pixel x y := by
  rw [get?_render] at h
  split at h
  · exact (Option.some.inj h).symm
  · cases h

/-- Rendering a viewport of any size gives a frame of the size clamped to the background, with
the shade of every position inside it and no other, and its bytes say the same. Any two
viewports agree where both show a position. The frame is the one that the loop over all rows
and columns paints on a white one, never storing outside it, whether the background is
switched on or not. -/
theorem render_agrees (p : Picture) (v : Viewport) :
    let f := p.render v
    (f.width = max 1 (min v.width 256) ∧ f.height = max 1 (min v.height 256) ∧
      f.pixels.size = f.width * f.height) ∧
    (∀ x y, f.get? x y = if x < f.width ∧ y < f.height then some (p.pixel x y) else none) ∧
    (f.rgba.length = 4 * f.width * f.height ∧
      ∀ x < f.width, ∀ y < f.height, (f.rgba.drop (4 * (y * f.width + x))).take 4 =
        [(p.pixel x y).level, (p.pixel x y).level, (p.pixel x y).level, 0xFF]) ∧
    (∀ (u : Viewport) (x y : Nat) (s t : Shade),
      f.get? x y = some s → (p.render u).get? x y = some t → s = t) ∧
    (Frame.blank v).paint? p.pixel = some f := by
  have hwidth : (p.render v).width = v.clamped.width := by rw [render_eq_ofFn]; rfl
  have hheight : (p.render v).height = v.clamped.height := by rw [render_eq_ofFn]; rfl
  have hsize : (p.render v).pixels.size = (p.render v).width * (p.render v).height := by
    rw [hwidth, hheight, render_eq_ofFn, Frame.size_ofFn]
  refine ⟨⟨hwidth, hheight, hsize⟩, ?_, ⟨?_, fun x hx y hy => Frame.rgba_of_get? ?_⟩, ?_, ?_⟩
  · intro x y
    rw [get?_render, hwidth, hheight]
  · rw [Frame.length_rgba, hsize, Nat.mul_assoc]
  · rw [get?_render, ← hwidth, ← hheight, if_pos ⟨hx, hy⟩]
  · intro u x y s t hs ht
    rw [shade_of_get? hs, shade_of_get? ht]
  · rw [Frame.paint?_eq (Frame.size_blank v), render_eq_ofFn]
    rfl

def dark : Picture := { lcdc := 0x01, bgp := 0xFF }

theorem pixel_dark (x y : Nat) : dark.pixel x y = .black := by
  have hblack : ∀ c : Fin 4, Shade.ofPalette 0xFF c = .black := by decide
  exact (if_pos (by decide)).trans (hblack _)

/-- No column and more rows than there are. -/
def narrow : Viewport := ⟨0, 0xFFFFFFFFFFFFFFFF⟩

theorem render_agrees_dark :
    let f := dark.render narrow
    f.width = 1 ∧ f.height = 256 ∧ f.get? 0 255 = some .black ∧ f.get? 1 255 = none ∧
      (f.rgba.drop (4 * 255)).take 4 = [0x00, 0x00, 0x00, 0xFF] := by
  obtain ⟨⟨hwidth, hheight, -⟩, hget, ⟨-, hbytes⟩, -⟩ := render_agrees dark narrow
  have hone : (dark.render narrow).width = 1 := hwidth.trans (by decide)
  have hall : (dark.render narrow).height = 256 := hheight.trans (by decide)
  simp only [hone, hall, pixel_dark] at hget hbytes
  exact ⟨hone, hall, hget 0 255, hget 1 255, hbytes 0 (by decide) 255 (by decide)⟩

end Picture

end Handheld
