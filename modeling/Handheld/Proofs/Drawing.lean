import Handheld.Picture.Background
import Handheld.Proofs.ReadAfterWrite

/-!
# Drawing the background

A scene says what is to be seen: a pattern of colors for every tile, the tile in
every cell of the map, and the registers. Each of its parts has an address of its
own, so it can be written in any order. The picture then shows the scene, wherever
it is scrolled to.
-/

namespace Handheld

-- ---------------------------------------------------------------------------
-- Tiles
-- ---------------------------------------------------------------------------

namespace Tile

abbrev Pattern := Fin 8 → Fin 8 → Fin 4

/-- One bit of each color of a row, the leftmost color in the highest bit. -/
def plane (colors : Fin 8 → Fin 4) (bit : Fin 2) : UInt8 :=
  Byte.ofBits fun i => (colors i.rev).val.testBit bit.val

theorem color_plane (colors : Fin 8 → Fin 4) (column : Fin 8) :
    color (plane colors 0) (plane colors 1) column = colors column := by
  have hbits : ∀ c : Fin 4, (c.val.testBit 1).toNat * 2 + (c.val.testBit 0).toNat = c.val := by
    decide
  have hrev : (⟨7 - column.val, by omega⟩ : Fin 8).rev = column := by
    apply Fin.ext
    simp only [Fin.val_rev]
    omega
  apply Fin.ext
  simp only [color, plane, Byte.bit_ofBits, hrev]
  exact hbits _

/-- The first byte of a tile: numbers count upwards from `8000`, or as signed
numbers from `9000`. -/
def start : Addressing → UInt8 → Int
  | .unsigned, index => 0x8000 + 16 * index.toNat
  | .signed, index => 0x9000 + 16 * Byte.signed index

theorem address_eq_start (index : UInt8) (a : Addressing) :
    (address index a : Int) = start a index := by
  cases a with
  | unsigned =>
    simp only [address, start]
    omega
  | signed =>
    simp only [address, start, Byte.signed]
    split <;> omega

theorem start_bounds (a : Addressing) (index : UInt8) :
    0x8000 ≤ start a index ∧ start a index ≤ 0x97F0 := by
  have hi := index.toNat_lt
  have hs := Byte.signed_eq index
  cases a with
  | unsigned =>
    simp only [start]
    omega
  | signed =>
    simp only [start]
    omega

theorem start_dvd (a : Addressing) (index : UInt8) : 16 ∣ start a index := by
  cases a with
  | unsigned => exact ⟨0x800 + index.toNat, by simp only [start]; omega⟩
  | signed => exact ⟨0x900 + Byte.signed index, by simp only [start]; omega⟩

theorem start_inj {a : Addressing} {i j : UInt8} (h : start a i = start a j) : i = j := by
  have hi := i.toNat_lt
  have hj := j.toNat_lt
  have hsi := Byte.signed_eq i
  have hsj := Byte.signed_eq j
  apply UInt8.toNat_inj.mp
  cases a with
  | unsigned =>
    simp only [start] at h
    omega
  | signed =>
    simp only [start] at h
    omega

end Tile

-- ---------------------------------------------------------------------------
-- Writes in any order
-- ---------------------------------------------------------------------------

namespace Picture

def Target.number : Target → Nat
  | .video i => 0x8000 + i.val
  | .register r => r.number

theorem Target.toNat_of_ofAddress? {a : UInt16} {t : Target} (h : ofAddress? a = some t) :
    a.toNat = t.number := by
  unfold ofAddress? at h
  split at h
  · cases h
    simp only [number]
    omega
  · obtain ⟨r, hr, rfl⟩ := Option.map_eq_some_iff.mp h
    exact Place.named_of_register hr

theorem Target.address_unique {a b : UInt16} {t : Target} (ha : ofAddress? a = some t)
    (hb : ofAddress? b = some t) : a = b :=
  UInt16.toNat_inj.mp ((toNat_of_ofAddress? ha).trans (toNat_of_ofAddress? hb).symm)

theorem Target.ofAddress?_eq_iff {a b : UInt16} {t : Target} (hb : ofAddress? b = some t) :
    ofAddress? a = some t ↔ a = b := by
  constructor
  · exact fun ha => address_unique ha hb
  · rintro rfl
    exact hb

/-- The address is one whose byte reads back as it was written, and changes no other. -/
def Settable (a : UInt16) : Prop := ∃ t, Target.ofAddress? a = some t ∧ t.plain = true

theorem readAt_writeAt {a : UInt16} (ha : Settable a) (p : Picture) (v : UInt8) (b : UInt16) :
    (p.writeAt a v).readAt b = if a = b then v else p.readAt b := by
  obtain ⟨t, ha, ht⟩ := ha
  have hiff : a = b ↔ Target.ofAddress? b = some t := by
    rw [Target.ofAddress?_eq_iff ha, eq_comm]
  simp only [writeAt, readAt, ha, hiff]
  cases Target.ofAddress? b with
  | none => rfl
  | some t' => simp only [read_write_plain p ht, Option.some.injEq, eq_comm (a := t)]

def writeAll (p : Picture) (ws : List (UInt16 × UInt8)) : Picture :=
  ws.foldl (fun p w => p.writeAt w.1 w.2) p

/-- If one byte only is ever written to an address, that byte is read there, in
whatever order it was written among others. -/
theorem readAt_writeAll {ws : List (UInt16 × UInt8)} (hws : ∀ w ∈ ws, Settable w.1) (p : Picture)
    {a : UInt16} {v : UInt8} (honly : ∀ w ∈ ws, w.1 = a → w.2 = v)
    (hread : (a, v) ∈ ws ∨ p.readAt a = v) : (p.writeAll ws).readAt a = v := by
  induction ws generalizing p with
  | nil => exact hread.resolve_left List.not_mem_nil
  | cons w ws ih =>
    obtain ⟨hw, hws⟩ := List.forall_mem_cons.mp hws
    obtain ⟨hv, honly⟩ := List.forall_mem_cons.mp honly
    refine ih hws (p.writeAt w.1 w.2) honly ?_
    rw [readAt_writeAt hw]
    by_cases heq : w.1 = a
    · exact .inr ((if_pos heq).trans (hv heq))
    · rw [if_neg heq]
      refine hread.imp_left fun hmem => (List.mem_cons.mp hmem).resolve_left ?_
      rintro rfl
      exact heq rfl

theorem ofAddress?_video {n : Nat} (hlow : 0x8000 ≤ n) (hhigh : n < 0xA000) :
    Target.ofAddress? (.ofNat n) =
      some (.video ⟨(n - 0x8000) % 0x2000, Nat.mod_lt _ (by decide)⟩) := by
  have hn : (UInt16.ofNat n).toNat = n := by
    rw [UInt16.toNat_ofNat']
    omega
  unfold Target.ofAddress?
  rw [dif_pos (by omega)]
  simp only [hn, Option.some.injEq, Target.video.injEq, Fin.mk.injEq]
  omega

theorem videoByte_eq_readAt (p : Picture) {n : Nat} (hlow : 0x8000 ≤ n) (hhigh : n < 0xA000) :
    p.videoByte n = p.readAt (.ofNat n) := by
  rw [readAt, ofAddress?_video hlow hhigh]
  rfl

-- ---------------------------------------------------------------------------
-- Lookups
-- ---------------------------------------------------------------------------

theorem map_eq (p : Picture) : p.map = if Byte.bit p.lcdc 3 then .high else .low := by
  have hbit : Byte.bit p.lcdc 3 = (p.lcdc &&& 0x08 != 0) := rfl
  rw [map, hbit]
  by_cases h : p.lcdc &&& 0x08 = 0 <;> simp [h]

theorem addressing_eq (p : Picture) :
    p.addressing = if Byte.bit p.lcdc 4 then .unsigned else .signed := by
  have hbit : Byte.bit p.lcdc 4 = (p.lcdc &&& 0x10 != 0) := rfl
  rw [addressing, hbit]
  by_cases h : p.lcdc &&& 0x10 = 0 <;> simp [h]

theorem rowAddress_eq (p : Picture) (index : UInt8) (row : Nat) :
    (p.rowAddress index row : Int) = Tile.start p.addressing index + 2 * row := by
  have haddress := Tile.address_eq_start index p.addressing
  rw [rowAddress]
  omega

theorem color_at {p : Picture} {x y : Nat} {bgX bgY : Fin 256}
    (hx : (x + p.scx.toNat) % 256 = bgX.val) (hy : (y + p.scy.toNat) % 256 = bgY.val) :
    p.color x y =
      Tile.color
        (p.videoByte (p.rowAddress (p.tileIndex (bgX.val / 8) (bgY.val / 8)) (bgY.val % 8)))
        (p.videoByte (p.rowAddress (p.tileIndex (bgX.val / 8) (bgY.val / 8)) (bgY.val % 8) + 1))
        ⟨bgX.val % 8, by omega⟩ := by
  have hx : Fin.ofNat 256 (x + p.scx.toNat) = bgX := Fin.ext hx
  have hy : Fin.ofNat 256 (y + p.scy.toNat) = bgY := Fin.ext hy
  subst hx hy
  rfl

/-- The byte of the map and the two bytes of the row that are looked up for a
position lie in video memory. -/
theorem lookups_inside (p : Picture) {cellX cellY row : Nat} (hx : cellX < 32) (hy : cellY < 32)
    (hrow : row < 8) (index : UInt8) :
    ∀ a ∈ [p.map.base + (cellY * 32 + cellX), p.rowAddress index row, p.rowAddress index row + 1],
      0x8000 ≤ a ∧ a < 0xA000 := by
  have hstart := Tile.start_bounds p.addressing index
  have haddress := rowAddress_eq p index row
  have hbase : p.map.base = 0x9800 ∨ p.map.base = 0x9C00 := by
    cases p.map with
    | low => exact .inl rfl
    | high => exact .inr rfl
  simp only [List.forall_mem_cons, List.not_mem_nil, false_implies, implies_true, and_true]
  omega

end Picture

-- ---------------------------------------------------------------------------
-- Scenes
-- ---------------------------------------------------------------------------

/-- A background to be shown. The bits of LCDC that choose the map and the
addressing of tiles choose the ones that are drawn. -/
structure Scene where
  patterns : UInt8 → Tile.Pattern
  cells : Fin 32 → Fin 32 → UInt8
  map : Tile.Map
  addressing : Tile.Addressing
  lcdc : UInt8
  scx : UInt8
  scy : UInt8
  bgp : UInt8
  lcdc_map : Byte.bit lcdc 3 = decide (map = .high)
  lcdc_addressing : Byte.bit lcdc 4 = decide (addressing = .unsigned)

namespace Scene

inductive Part where
  | plane (index : UInt8) (row : Fin 8) (bit : Fin 2)
  | cell (row column : Fin 32)
  | lcdc
  | scx
  | scy
  | bgp
  deriving DecidableEq

def Part.all : List Part :=
  ((List.finRange 256).flatMap fun index => (List.finRange 8).flatMap fun row =>
    (List.finRange 2).map fun bit => .plane (.ofFin index) row bit) ++
  ((List.finRange 32).flatMap fun row => (List.finRange 32).map fun column => .cell row column) ++
  [.lcdc, .scx, .scy, .bgp]

theorem Part.mem_all (t : Part) : t ∈ all := by
  cases t with
  | plane index row bit =>
    simp only [all, List.mem_append, List.mem_flatMap, List.mem_map]
    exact .inl (.inl ⟨index.toFin, List.mem_finRange _, row, List.mem_finRange _, bit,
      List.mem_finRange _, rfl⟩)
  | cell row column =>
    simp only [all, List.mem_append, List.mem_flatMap, List.mem_map]
    exact .inl (.inr ⟨row, List.mem_finRange _, column, List.mem_finRange _, rfl⟩)
  | _ => simp [all]

variable (s : Scene)

def number : Part → Int
  | .plane index row bit => Tile.start s.addressing index + 2 * row.val + bit.val
  | .cell row column => s.map.base + 32 * row.val + column.val
  | .lcdc => 0xFF40
  | .scy => 0xFF42
  | .scx => 0xFF43
  | .bgp => 0xFF47

def address (t : Part) : UInt16 := .ofNat (s.number t).toNat

def byte : Part → UInt8
  | .plane index row bit => Tile.plane (s.patterns index row) bit
  | .cell row column => s.cells row column
  | .lcdc => s.lcdc
  | .scx => s.scx
  | .scy => s.scy
  | .bgp => s.bgp

def write (t : Part) : UInt16 × UInt8 := (s.address t, s.byte t)

def writes : List (UInt16 × UInt8) := Part.all.map s.write

-- ---------------------------------------------------------------------------
-- Parts do not overlap
-- ---------------------------------------------------------------------------

variable {s}

theorem number_plane (index : UInt8) (row : Fin 8) (bit : Fin 2) :
    0x8000 ≤ s.number (.plane index row bit) ∧ s.number (.plane index row bit) < 0x9800 := by
  have hstart := Tile.start_bounds s.addressing index
  simp only [number]
  omega

theorem number_cell (row column : Fin 32) :
    0x9800 ≤ s.number (.cell row column) ∧ s.number (.cell row column) < 0xA000 := by
  simp only [number, Tile.Map.base]
  split <;> omega

/-- Planes lie below the maps and these below the registers, so no two parts share
an address. -/
theorem number_inj {t t' : Part} (h : s.number t = s.number t') : t = t' := by
  cases t with
  | plane index row bit =>
    have hbounds := number_plane (s := s) index row bit
    cases t' with
    | plane index' row' bit' =>
      -- tiles begin at multiples of 16, so the offset tells row and plane
      obtain ⟨k, hk⟩ := Tile.start_dvd s.addressing index
      obtain ⟨k', hk'⟩ := Tile.start_dvd s.addressing index'
      simp only [number] at h
      have hindex : index = index' := Tile.start_inj (a := s.addressing) (by omega)
      subst hindex
      obtain rfl : row = row' := Fin.ext (by omega)
      obtain rfl : bit = bit' := Fin.ext (by omega)
      rfl
    | cell row' column' =>
      have hbounds' := number_cell (s := s) row' column'
      omega
    | _ =>
      rw [h] at hbounds
      simp [number] at hbounds
  | cell row column =>
    have hbounds := number_cell (s := s) row column
    cases t' with
    | plane index' row' bit' =>
      have hbounds' := number_plane (s := s) index' row' bit'
      omega
    | cell row' column' =>
      simp only [number] at h
      obtain rfl : row = row' := Fin.ext (by omega)
      obtain rfl : column = column' := Fin.ext (by omega)
      rfl
    | _ =>
      rw [h] at hbounds
      simp [number] at hbounds
  | _ =>
    cases t' with
    | plane index' row' bit' =>
      have hbounds' := number_plane (s := s) index' row' bit'
      rw [← h] at hbounds'
      simp [number] at hbounds'
    | cell row' column' =>
      have hbounds' := number_cell (s := s) row' column'
      rw [← h] at hbounds'
      simp [number] at hbounds'
    | _ => first | rfl | (simp [number] at h)

theorem number_bounds (t : Part) : 0x8000 ≤ s.number t ∧ s.number t ≤ 0xFF47 := by
  cases t with
  | plane index row bit =>
    have hbounds := number_plane (s := s) index row bit
    omega
  | cell row column =>
    have hbounds := number_cell (s := s) row column
    omega
  | _ => simp [number]

theorem toNat_address (t : Part) : (s.address t).toNat = (s.number t).toNat := by
  have hbounds := number_bounds (s := s) t
  rw [address, UInt16.toNat_ofNat']
  omega

theorem address_inj {t t' : Part} (h : s.address t = s.address t') : t = t' := by
  have hbounds := number_bounds (s := s) t
  have hbounds' := number_bounds (s := s) t'
  have hnat := congrArg UInt16.toNat h
  rw [toNat_address, toNat_address] at hnat
  exact number_inj (s := s) (by omega)

theorem settable (t : Part) : Picture.Settable (s.address t) := by
  have hvideo (hlow : 0x8000 ≤ s.number t) (hhigh : s.number t < 0xA000) :
      Picture.Settable (s.address t) :=
    ⟨_, Picture.ofAddress?_video (by omega) (by omega), rfl⟩
  cases t with
  | plane index row bit =>
    have hbounds := number_plane (s := s) index row bit
    exact hvideo hbounds.1 (by omega)
  | cell row column =>
    have hbounds := number_cell (s := s) row column
    exact hvideo (by omega) hbounds.2
  | lcdc => exact ⟨.register .lcdc, rfl, rfl⟩
  | scx => exact ⟨.register .scx, rfl, rfl⟩
  | scy => exact ⟨.register .scy, rfl, rfl⟩
  | bgp => exact ⟨.register .bgp, rfl, rfl⟩

-- ---------------------------------------------------------------------------
-- What is read of a drawn scene
-- ---------------------------------------------------------------------------

/-- Every part is read as it was drawn, whatever there was before and in whatever
order the parts were written. -/
theorem readAt_drawn {ws : List (UInt16 × UInt8)} (h : ws.Perm s.writes) (p : Picture) (t : Part) :
    (p.writeAll ws).readAt (s.address t) = s.byte t := by
  have hws {w : UInt16 × UInt8} : w ∈ ws ↔ ∃ t, s.write t = w := by
    rw [h.mem_iff, writes, List.mem_map]
    simp only [Part.mem_all, true_and]
  refine Picture.readAt_writeAll ?_ p ?_ (.inl (hws.mpr ⟨t, rfl⟩))
  · intro w hw
    obtain ⟨t', rfl⟩ := hws.mp hw
    exact settable t'
  · -- no other part was written to the same address
    intro w hw ha
    obtain ⟨t', rfl⟩ := hws.mp hw
    rw [address_inj ha]
    rfl

section
variable {ws : List (UInt16 × UInt8)} (h : ws.Perm s.writes) (p : Picture)

include h

theorem videoByte_plane (index : UInt8) (row : Fin 8) (bit : Fin 2) :
    (p.writeAll ws).videoByte (s.number (.plane index row bit)).toNat =
      Tile.plane (s.patterns index row) bit := by
  have hbounds := number_plane (s := s) index row bit
  rw [Picture.videoByte_eq_readAt _ (by omega) (by omega)]
  exact readAt_drawn h p (.plane index row bit)

theorem videoByte_cell (row column : Fin 32) :
    (p.writeAll ws).videoByte (s.number (.cell row column)).toNat = s.cells row column := by
  have hbounds := number_cell (s := s) row column
  rw [Picture.videoByte_eq_readAt _ (by omega) (by omega)]
  exact readAt_drawn h p (.cell row column)

theorem map_drawn : (p.writeAll ws).map = s.map := by
  have hlcdc : (p.writeAll ws).lcdc = s.lcdc := readAt_drawn h p .lcdc
  rw [Picture.map_eq, hlcdc, s.lcdc_map]
  cases s.map <;> rfl

theorem addressing_drawn : (p.writeAll ws).addressing = s.addressing := by
  have hlcdc : (p.writeAll ws).lcdc = s.lcdc := readAt_drawn h p .lcdc
  rw [Picture.addressing_eq, hlcdc, s.lcdc_addressing]
  cases s.addressing <;> rfl

theorem tileIndex_drawn (row column : Fin 32) :
    (p.writeAll ws).tileIndex column row = s.cells row column := by
  have hnumber : (s.number (.cell row column)).toNat =
      s.map.base + (row.val * 32 + column.val) := by
    simp only [number]
    omega
  rw [Picture.tileIndex, map_drawn h, ← hnumber, videoByte_cell h]

theorem rowAddress_drawn (index : UInt8) (row : Fin 8) :
    (p.writeAll ws).rowAddress index row = (s.number (.plane index row 0)).toNat ∧
      (p.writeAll ws).rowAddress index row + 1 = (s.number (.plane index row 1)).toNat := by
  have haddress := Picture.rowAddress_eq (p.writeAll ws) index row
  have hbounds := Tile.start_bounds s.addressing index
  rw [addressing_drawn h] at haddress
  simp only [number]
  omega

end

def color (s : Scene) (bgX bgY : Fin 256) : Fin 4 :=
  s.patterns (s.cells ⟨bgY.val / 8, by omega⟩ ⟨bgX.val / 8, by omega⟩) ⟨bgY.val % 8, by omega⟩
    ⟨bgX.val % 8, by omega⟩

theorem color_drawn {ws : List (UInt16 × UInt8)} (h : ws.Perm s.writes) (p : Picture) (x y : Nat) :
    (p.writeAll ws).color x y =
      s.color (.ofNat 256 (x + s.scx.toNat)) (.ofNat 256 (y + s.scy.toNat)) := by
  have hscx : (p.writeAll ws).scx = s.scx := readAt_drawn h p .scx
  have hscy : (p.writeAll ws).scy = s.scy := readAt_drawn h p .scy
  have hx : (x + (p.writeAll ws).scx.toNat) % 256 = (Fin.ofNat 256 (x + s.scx.toNat)).val := by
    rw [hscx]
    rfl
  have hy : (y + (p.writeAll ws).scy.toNat) % 256 = (Fin.ofNat 256 (y + s.scy.toNat)).val := by
    rw [hscy]
    rfl
  rw [Picture.color_at hx hy]
  generalize Fin.ofNat 256 (x + s.scx.toNat) = bgX
  generalize Fin.ofNat 256 (y + s.scy.toNat) = bgY
  have htile := tileIndex_drawn h p ⟨bgY.val / 8, by omega⟩ ⟨bgX.val / 8, by omega⟩
  obtain ⟨hlow, hhigh⟩ := rowAddress_drawn h p
    (s.cells ⟨bgY.val / 8, by omega⟩ ⟨bgX.val / 8, by omega⟩) ⟨bgY.val % 8, by omega⟩
  rw [htile, hhigh, hlow, videoByte_plane h, videoByte_plane h, Tile.color_plane]
  rfl

end Scene

theorem Shade.toNat_ofBits (b : UInt8) : (ofBits b).toNat = b.toNat % 4 := by
  have hmod (v : UInt8) : b % 4 = v ↔ b.toNat % 4 = v.toNat := UInt8.toNat_inj.symm
  have h0 := hmod 0
  have h1 := hmod 1
  have h2 := hmod 2
  have hlt : b.toNat % 4 < 4 := Nat.mod_lt _ (by decide)
  simp only [ofBits, h0, h1, h2, UInt8.reduceToNat]
  split
  · rename_i h
    exact h.symm
  split
  · rename_i h
    exact h.symm
  split
  · rename_i h
    exact h.symm
  · simp only [toNat]
    omega

theorem Shade.toNat_ofPalette (palette : UInt8) (color : Fin 4) :
    (ofPalette palette color).toNat = palette.toNat >>> (2 * color.val) % 4 := by
  have hshift : (UInt8.ofNat (color.val * 2)).toNat % 8 = 2 * color.val := by
    rw [UInt8.toNat_ofNat']
    omega
  rw [ofPalette, toNat_ofBits, UInt8.toNat_shiftRight, hshift]

/-- A scene that was written to the picture unit is what the picture shows, in
whatever order it was written and whatever was there before. The three bytes that
are looked up for a pixel lie in video memory. With the background switched off,
all is white. -/
theorem shows_scene :
    (∀ (s : Scene) (ws : List (UInt16 × UInt8)), ws.Perm s.writes → ∀ (p : Picture) (x y : Nat),
      let q := p.writeAll ws
      let c := s.color (.ofNat 256 (x + s.scx.toNat)) (.ofNat 256 (y + s.scy.toNat))
      q.color x y = c ∧
        (Byte.bit s.lcdc 0 = true → (q.pixel x y).toNat = s.bgp.toNat >>> (2 * c.val) % 4)) ∧
    (∀ (p : Picture) (x y : Nat),
      let bgX := (x + p.scx.toNat) % 256
      let bgY := (y + p.scy.toNat) % 256
      let cell := p.map.base + (bgY / 8 * 32 + bgX / 8)
      let row := p.rowAddress (p.readAt (.ofNat cell)) (bgY % 8)
      (∀ a ∈ [cell, row, row + 1], 0x8000 ≤ a ∧ a < 0xA000) ∧
        p.color x y = Tile.color (p.readAt (.ofNat row)) (p.readAt (.ofNat (row + 1)))
          ⟨bgX % 8, Nat.mod_lt _ (by decide)⟩) ∧
    ∀ p : Picture, Byte.bit p.lcdc 0 = false → ∀ x y, p.pixel x y = .white := by
  refine ⟨?_, ?_, ?_⟩
  · intro s ws h p x y q c
    have hlcdc : q.lcdc = s.lcdc := Scene.readAt_drawn h p .lcdc
    have hbgp : q.bgp = s.bgp := Scene.readAt_drawn h p .bgp
    have hcolor : q.color x y = c := Scene.color_drawn h p x y
    refine ⟨hcolor, fun hon => ?_⟩
    have hon : q.backgroundOn = true := by rw [← hon, ← hlcdc]; rfl
    rw [Picture.pixel, if_pos hon, hcolor, hbgp, Shade.toNat_ofPalette]
  · intro p x y bgX bgY cell row
    have hx : bgX < 256 := Nat.mod_lt _ (by decide)
    have hy : bgY < 256 := Nat.mod_lt _ (by decide)
    have hinside : ∀ a ∈ [cell, row, row + 1], 0x8000 ≤ a ∧ a < 0xA000 :=
      p.lookups_inside (by omega) (by omega) (by omega) _
    have hread {a : Nat} (ha : a ∈ [cell, row, row + 1]) : p.videoByte a = p.readAt (.ofNat a) :=
      p.videoByte_eq_readAt (hinside a ha).1 (hinside a ha).2
    refine ⟨hinside, ?_⟩
    rw [← hread (by simp), ← hread (by simp)]
    simp only [row, ← hread (List.mem_cons_self ..)]
    rfl
  · intro p hoff x y
    have hoff : p.backgroundOn = false := hoff
    rw [Picture.pixel, hoff]
    rfl

def slanted : Scene where
  patterns index row column := .ofNat 4 (index.toNat * row.val + column.val)
  cells row column := .ofNat (32 * row.val + column.val)
  map := .high
  addressing := .signed
  lcdc := 0x89
  scx := 250
  scy := 3
  bgp := 0x1B
  lcdc_map := by decide
  lcdc_addressing := by decide

theorem shows_scene_slanted :
    slanted.writes.reverse.Perm slanted.writes ∧
      (Picture.writeAll {} slanted.writes.reverse).color 3 1 = 1 ∧
      ((Picture.writeAll {} slanted.writes.reverse).pixel 3 1).toNat = 2 :=
  have hperm : slanted.writes.reverse.Perm slanted.writes := List.reverse_perm _
  have hshown := shows_scene.1 slanted _ hperm {} 3 1
  ⟨hperm, hshown.1.trans (by decide), (hshown.2 (by decide)).trans (by decide)⟩

end Handheld
