/- Drawing text on the boot framebuffer: which pixels a string reaches, and when they show the
   glyphs of its characters. -/

import Algae.Lib.PointWrites
import Algae.Rtl.String

set_option autoImplicit false
set_option relaxedAutoImplicit false

namespace Algae.Drv.BootVid

open Algae.Lib.ByteMemory (Byte)
open Algae.Lib.PointWrites Algae.Rtl.String

def FONT_HDRLEN : BitVec 64 := 4

def FONT_WIDTH : BitVec 32 := 8

def FONT_HEIGHT : BitVec 32 := 20

structure BootvidChar where
  x : BitVec 32
  y : BitVec 32
  fg : BitVec 32
  bg : BitVec 32
  ch : Byte

abbrev Pixels := Nat → BitVec 32

section Code

-- memory with the font in it, the font's address and the framebuffer's pitch
variable (m : BitVec 64 → Byte) (font : BitVec 64) (pitch : BitVec 32)

def chSize : Byte := m (font + 3)

/-- The product is an int, negative for characters from 0x80 on. -/
def glyphAddr (ch : Byte) : BitVec 64 :=
  font + (FONT_HDRLEN + ch.signExtend 64 * (chSize m font).setWidth 64)

def fbGetIdx (x y : BitVec 32) : BitVec 64 := (x + y * (pitch / 4)).setWidth 64

def isset (v : Byte) (n : Nat) : Bool := v.getLsbD n

def bootVidDrawCh (chp : BootvidChar) (fbio : Pixels) : Pixels :=
  let glyph := glyphAddr m font chp.ch
  (List.range (chSize m font).toNat).foldl (fun fbio cy =>
    (List.range 8).foldl (fun fbio cx =>
      let color := if isset (m (glyph + BitVec.ofNat 64 cy)) (8 - cx) then chp.fg else chp.bg
      let idx :=
        (fbGetIdx pitch (chp.x + BitVec.ofNat 32 cx) (chp.y + BitVec.ofNat 32 cy)).setWidth 32
      Function.update fbio idx.toNat color) fbio) fbio

/-- The loop of bootVidPrint over the characters it gets to; `x` is where lines start. -/
def printLoop (x : BitVec 32) : CString → BootvidChar → Pixels → Pixels
  | [], _, fbio => fbio
  | c :: str, ch, fbio =>
    let ch := { ch with ch := c.val }
    if ch.ch = 0x0A then
      printLoop x str { ch with y := ch.y + FONT_HEIGHT, x := x } fbio
    else
      printLoop x str { ch with x := ch.x + FONT_WIDTH } (bootVidDrawCh m font pitch ch fbio)

def bootVidPrint (x y fg bg : BitVec 32) (str : CString) (fbio : Pixels) : Pixels :=
  let strLen := BitVec.ofNat 32 str.length
  printLoop m font pitch x (str.take strLen.toNat)
    { x := x, y := y, fg := fg, bg := bg, ch := 0 } fbio

end Code

section Cells

/-- A character, its index in the string, and the pixel at the upper left of its cell. -/
structure Cell where
  i : Nat
  ch : CChar
  x : Nat
  y : Nat
  deriving DecidableEq

def cellsFrom (left : Nat) : CString → Nat → Nat → Nat → List Cell
  | [], _, _, _ => []
  | c :: str, i, x, y =>
    if c.val = 0x0A then cellsFrom left str (i + 1) left (y + 20)
    else ⟨i, c, x, y⟩ :: cellsFrom left str (i + 1) (x + 8) y

def cellsOf (x y : BitVec 32) (str : CString) : List Cell := cellsFrom x.toNat str 0 x.toNat y.toNat

variable (m : BitVec 64 → Byte) (font : BitVec 64) (pitch : BitVec 32)

def pixelAt (px py : Nat) : Nat := px + py * (pitch.toNat / 4)

def glyphRow (ch : Byte) (cy : Nat) : Byte :=
  m (font + BitVec.ofNat 64 (4 + ch.toNat * (chSize m font).toNat + cy))

def drawnRow (ch : Byte) (cy : Nat) : Byte := m (glyphAddr m font ch + BitVec.ofNat 64 cy)

/-- Each cell shows its character's glyph, the leftmost pixel of a row being bit 7, and no
pixel outside of the cells has changed. -/
structure Faithful (fg bg : BitVec 32) (cells : List Cell) (before after : Pixels) : Prop where
  glyphs : ∀ cell ∈ cells, ∀ cy < (chSize m font).toNat, ∀ cx < 8,
    after (pixelAt pitch (cell.x + cx) (cell.y + cy)) =
      if (glyphRow m font cell.ch.val cy).getLsbD (7 - cx) then fg else bg
  others : ∀ p, (∀ cell ∈ cells, ∀ cy < (chSize m font).toNat, ∀ cx < 8,
    pixelAt pitch (cell.x + cx) (cell.y + cy) ≠ p) → after p = before p

def Cell.Apart (a b : Cell) : Prop :=
  a.x + 8 ≤ b.x ∨ b.x + 8 ≤ a.x ∨ a.y + (chSize m font).toNat ≤ b.y ∨
    b.y + (chSize m font).toNat ≤ a.y

/-- The cells lie inside a framebuffer and do not overlap. -/
structure Placed (width height : BitVec 32) (cells : List Cell) : Prop where
  lines : width.toNat ≤ pitch.toNat / 4
  inside : ∀ cell ∈ cells, cell.x + 8 ≤ width.toNat ∧ cell.y + (chSize m font).toNat ≤ height.toNat
  apart : ∀ a ∈ cells, ∀ b ∈ cells, a ≠ b → a.Apart m font b

end Cells

section Writes

variable {m : BitVec 64 → Byte} {font : BitVec 64} {pitch : BitVec 32}

def cellWrites (m : BitVec 64 → Byte) (font : BitVec 64) (pitch fg bg : BitVec 32) (cell : Cell) :
    List (Nat × BitVec 32) :=
  (List.range (chSize m font).toNat).flatMap fun cy => (List.range 8).map fun cx =>
    (pixelAt pitch (cell.x + cx) (cell.y + cy) % 0x100000000,
      if isset (drawnRow m font cell.ch.val cy) (8 - cx) then fg else bg)

private theorem idx_toNat (px py : Nat) :
    ((fbGetIdx pitch (BitVec.ofNat 32 px) (BitVec.ofNat 32 py)).setWidth 32).toNat =
      pixelAt pitch px py % 0x100000000 := by
  rw [fbGetIdx, BitVec.toNat_setWidth, BitVec.toNat_setWidth, BitVec.toNat_add, BitVec.toNat_mul,
    BitVec.toNat_udiv, BitVec.toNat_ofNat, BitVec.toNat_ofNat, pixelAt]
  change (px % 2 ^ 32 + py % 2 ^ 32 * (pitch.toNat / 4) % 2 ^ 32) % 2 ^ 32 % 2 ^ 64 % 2 ^ 32 = _
  rw [Nat.mod_mul_mod]
  omega

private theorem bootVidDrawCh_writes (fg bg : BitVec 32) (cell : Cell) (fbio : Pixels) :
    bootVidDrawCh m font pitch ⟨BitVec.ofNat 32 cell.x, BitVec.ofNat 32 cell.y, fg, bg, cell.ch.val⟩
      fbio =
      writes fbio (cellWrites m font pitch fg bg cell) := by
  rw [bootVidDrawCh, writes, cellWrites, List.foldl_flatMap]
  simp only [List.foldl_map, ← BitVec.ofNat_add, idx_toNat]
  rfl

private theorem printLoop_writes (left : BitVec 32) (fg bg : BitVec 32) (str : CString)
    (i x y : Nat) (ch : Byte) (fbio : Pixels) :
    printLoop m font pitch left str ⟨BitVec.ofNat 32 x, BitVec.ofNat 32 y, fg, bg, ch⟩ fbio =
      writes fbio ((cellsFrom left.toNat str i x y).flatMap (cellWrites m font pitch fg bg)) := by
  induction str generalizing i x y ch fbio with
  | nil => rfl
  | cons c str ih =>
    rw [printLoop, cellsFrom]
    by_cases line : c.val = 0x0A
    · simp only [if_pos line]
      have rest := ih (i + 1) left.toNat (y + 20) c.val fbio
      rw [BitVec.ofNat_toNat, BitVec.setWidth_eq, BitVec.ofNat_add] at rest
      exact rest
    · simp only [if_neg line]
      have drawn := @bootVidDrawCh_writes m font pitch fg bg ⟨i, c, x, y⟩ fbio
      have rest :=
        ih (i + 1) (x + 8) y c.val (writes fbio (cellWrites m font pitch fg bg ⟨i, c, x, y⟩))
      rw [BitVec.ofNat_add] at rest
      rw [List.flatMap_cons, writes_append, ← rest, ← drawn]
      rfl

private theorem mem_cellWrites {fg bg : BitVec 32} {cell : Cell} {w : Nat × BitVec 32} :
    w ∈ cellWrites m font pitch fg bg cell ↔ ∃ cy < (chSize m font).toNat, ∃ cx < 8,
      w = (pixelAt pitch (cell.x + cx) (cell.y + cy) % 0x100000000,
        if isset (drawnRow m font cell.ch.val cy) (8 - cx) then fg else bg) := by
  unfold cellWrites
  simp only [List.mem_flatMap, List.mem_map, List.mem_range]
  constructor
  · rintro ⟨cy, row, cx, column, rfl⟩
    exact ⟨cy, row, cx, column, rfl⟩
  · rintro ⟨cy, row, cx, column, rfl⟩
    exact ⟨cy, row, cx, column, rfl⟩

private theorem le_of_mem_cellsFrom {left : Nat} {str : CString} {i x y : Nat} {cell : Cell}
    (member : cell ∈ cellsFrom left str i x y) : i ≤ cell.i := by
  induction str generalizing i x y with
  | nil => cases member
  | cons c str ih =>
    rw [cellsFrom] at member
    split at member
    · exact Nat.le_of_succ_le (ih member)
    · rcases List.mem_cons.mp member with rfl | member
      · exact Nat.le_refl _
      · exact Nat.le_of_succ_le (ih member)

private theorem mem_cellsFrom_take {left : Nat} {str : CString} {n i x y : Nat} {cell : Cell} :
    cell ∈ cellsFrom left (str.take n) i x y ↔ cell ∈ cellsFrom left str i x y ∧
      cell.i < i + n := by
  induction str generalizing n i x y with
  | nil =>
    rw [List.take_nil]
    exact (iff_of_false List.not_mem_nil fun both => List.not_mem_nil both.1)
  | cons c str ih =>
    cases n with
    | zero =>
      rw [List.take_zero, Nat.add_zero]
      refine iff_of_false List.not_mem_nil ?_
      rintro ⟨member, before⟩
      exact absurd (le_of_mem_cellsFrom member) (Nat.not_le.mpr before)
    | succ n =>
      rw [List.take_succ_cons, cellsFrom, cellsFrom, show i + (n + 1) = i + 1 + n by omega]
      split
      · exact ih
      · have rest := @ih n (i + 1) (x + 8) y
        rw [List.mem_cons, List.mem_cons]
        constructor
        · rintro (rfl | later)
          · exact ⟨Or.inl rfl, by simp only; omega⟩
          · exact ⟨Or.inr (rest.mp later).1, (rest.mp later).2⟩
        · rintro ⟨rfl | member, before⟩
          · exact Or.inl rfl
          · exact Or.inr (rest.mpr ⟨member, before⟩)

private theorem bootVidPrint_writes (x y fg bg : BitVec 32) (str : CString) (fbio : Pixels) :
    ∃ ws, bootVidPrint m font pitch x y fg bg str fbio = writes fbio ws ∧
      ∀ w, w ∈ ws ↔ ∃ cell ∈ cellsOf x y str, cell.i < str.length % 0x100000000 ∧
        w ∈ cellWrites m font pitch fg bg cell := by
  have run := @printLoop_writes m font pitch x fg bg
    (str.take (BitVec.ofNat 32 str.length).toNat) 0 x.toNat y.toNat 0 fbio
  rw [BitVec.ofNat_toNat, BitVec.setWidth_eq, BitVec.ofNat_toNat, BitVec.setWidth_eq] at run
  refine ⟨_, run, ?_⟩
  intro w
  rw [List.mem_flatMap, BitVec.toNat_ofNat]
  simp only [mem_cellsFrom_take, Nat.zero_add, and_assoc]
  exact Iff.rfl

end Writes

section Faithfully

variable {m : BitVec 64 → Byte} {font : BitVec 64} {pitch width height x y fg bg : BitVec 32}
  {str : CString}

private theorem pixel_unique {cells : List Cell}
    (placed : Placed m font pitch width height cells) {a b : Cell}
    (in_a : a ∈ cells) (in_b : b ∈ cells) {cx cy dx dy : Nat} (column : cx < 8) (column' : dx < 8)
    (row : cy < (chSize m font).toNat) (row' : dy < (chSize m font).toNat)
    (same : pixelAt pitch (a.x + cx) (a.y + cy) = pixelAt pitch (b.x + dx) (b.y + dy)) :
    a = b ∧ cx = dx ∧ cy = dy := by
  have lines := placed.lines
  have inside_a := placed.inside a in_a
  have inside_b := placed.inside b in_b
  have left := congrArg (· % (pitch.toNat / 4)) same
  have top := congrArg (· / (pitch.toNat / 4)) same
  simp only [pixelAt, Nat.add_mul_mod_self_right] at left
  rw [Nat.mod_eq_of_lt (by omega), Nat.mod_eq_of_lt (by omega)] at left
  simp only [pixelAt] at top
  rw [Nat.add_mul_div_right _ _ (by omega), Nat.add_mul_div_right _ _ (by omega),
    Nat.div_eq_of_lt (by omega), Nat.div_eq_of_lt (by omega), Nat.zero_add, Nat.zero_add] at top
  by_cases equal : a = b
  · subst equal
    exact ⟨rfl, by omega, by omega⟩
  · have apart := placed.apart a in_a b in_b equal
    unfold Cell.Apart at apart
    omega

private theorem other_color (fg bg : BitVec 32) : ∃ z : BitVec 32, z ≠ fg ∧ z ≠ bg := by
  by_cases zero : (0 : BitVec 32) ≠ fg ∧ (0 : BitVec 32) ≠ bg
  · exact ⟨0, zero⟩
  by_cases one : (1 : BitVec 32) ≠ fg ∧ (1 : BitVec 32) ≠ bg
  · exact ⟨1, one⟩
  refine ⟨2, ?_, ?_⟩
  · rintro rfl
    simp at zero one
    subst zero
    exact absurd one (by decide)
  · rintro rfl
    simp at zero one
    subst zero
    exact absurd one (by decide)

private theorem color_inj {fg bg : BitVec 32} (colors : fg ≠ bg) {a b : Bool}
    (same : (if a then fg else bg) = if b then fg else bg) : a = b := by
  cases a <;> cases b
  · rfl
  · exact absurd same.symm colors
  · exact absurd same colors
  · rfl

/-- What is needed for a row of a cell to be drawn as it is in the font. -/
structure RowDrawn (m : BitVec 64 → Byte) (font : BitVec 64) (pitch fg bg : BitVec 32)
    (str : CString) (cell : Cell) (cy : Nat) : Prop where
  reached : cell.i < str.length % 0x100000000
  pixels : ∀ cx < 8, pixelAt pitch (cell.x + cx) (cell.y + cy) < 0x100000000
  shifted : fg = bg ∨ drawnRow m font cell.ch.val cy >>> 1 = glyphRow m font cell.ch.val cy

private theorem shifted_iff {drawn glyph : Byte} :
    drawn >>> 1 = glyph ↔ ∀ cx < 8, isset drawn (8 - cx) = glyph.getLsbD (7 - cx) := by
  constructor
  · rintro rfl cx column
    rw [isset, BitVec.getLsbD_ushiftRight]
    congr 1
    omega
  · intro bits
    apply BitVec.eq_of_getLsbD_eq
    intro i bound
    have bit := bits (7 - i) (by omega)
    rw [show 7 - (7 - i) = i by omega, isset] at bit
    rw [BitVec.getLsbD_ushiftRight, ← bit]
    congr 1
    omega

def Addressable (m : BitVec 64 → Byte) (font : BitVec 64) (pitch : BitVec 32) (cells : List Cell) :
    Prop :=
  ∀ cell ∈ cells, ∀ cy < (chSize m font).toNat, ∀ cx < 8,
    pixelAt pitch (cell.x + cx) (cell.y + cy) < 0x100000000

private theorem bootVidPrint_other {p : Nat}
    (other : ∀ cell ∈ cellsOf x y str, cell.i < str.length % 0x100000000 →
      ∀ cy < (chSize m font).toNat, ∀ cx < 8,
      pixelAt pitch (cell.x + cx) (cell.y + cy) % 0x100000000 ≠ p) (before : Pixels) :
    bootVidPrint m font pitch x y fg bg str before p = before p := by
  obtain ⟨ws, run, mem_ws⟩ := @bootVidPrint_writes m font pitch x y fg bg str before
  rw [run]
  apply writes_other
  intro w written
  obtain ⟨cell, member, reached, drawn⟩ := (mem_ws w).mp written
  obtain ⟨cy, row, cx, column, rfl⟩ := mem_cellWrites.mp drawn
  exact other cell member reached cy row cx column

private theorem bootVidPrint_pixel (placed : Placed m font pitch width height (cellsOf x y str))
    (pixels : Addressable m font pitch (cellsOf x y str)) {cell : Cell}
    (member : cell ∈ cellsOf x y str)
    (reached : cell.i < str.length % 0x100000000) {cy cx : Nat} (row : cy < (chSize m font).toNat)
    (column : cx < 8) (before : Pixels) :
    bootVidPrint m font pitch x y fg bg str before (pixelAt pitch (cell.x + cx) (cell.y + cy)) =
      if isset (drawnRow m font cell.ch.val cy) (8 - cx) then fg else bg := by
  obtain ⟨ws, run, mem_ws⟩ := @bootVidPrint_writes m font pitch x y fg bg str before
  rw [run]
  apply writes_same
  · have drawn := (@mem_cellWrites m font pitch fg bg cell _).mpr ⟨cy, row, cx, column, rfl⟩
    refine ⟨_, (mem_ws _).mpr ⟨cell, member, reached, drawn⟩, ?_⟩
    exact Nat.mod_eq_of_lt (pixels cell member cy row cx column)
  · intro w written same
    obtain ⟨cell', member', _, drawn⟩ := (mem_ws w).mp written
    obtain ⟨dy, row', dx, column', rfl⟩ := mem_cellWrites.mp drawn
    rw [Nat.mod_eq_of_lt (pixels cell' member' dy row' dx column')] at same
    obtain ⟨rfl, rfl, rfl⟩ := pixel_unique placed member' member column' column row' row same
    rfl

private theorem rows_drawn (placed : Placed m font pitch width height (cellsOf x y str))
    (faithful : ∀ before, Faithful m font pitch fg bg (cellsOf x y str) before
      (bootVidPrint m font pitch x y fg bg str before)) :
    ∀ cell ∈ cellsOf x y str, ∀ cy < (chSize m font).toNat,
      RowDrawn m font pitch fg bg str cell cy := by
  obtain ⟨z, not_fg, not_bg⟩ := other_color fg bg
  have glyphs := (faithful fun _ => z).glyphs
  have written : ∀ cell ∈ cellsOf x y str, ∀ cy < (chSize m font).toNat, ∀ cx < 8,
      bootVidPrint m font pitch x y fg bg str (fun _ => z)
        (pixelAt pitch (cell.x + cx) (cell.y + cy)) ≠ z := by
    intro cell member cy row cx column kept
    rw [glyphs cell member cy row cx column] at kept
    split at kept
    · exact not_fg kept.symm
    · exact not_bg kept.symm
  have pixels : Addressable m font pitch (cellsOf x y str) := by
    intro cell member cy row cx column
    by_contra beyond
    apply written cell member cy row cx column
    apply bootVidPrint_other
    intro cell' _ _ dy _ dx _
    have below :=
      Nat.mod_lt (pixelAt pitch (cell'.x + dx) (cell'.y + dy)) (show 0 < 0x100000000 by decide)
    exact fun same => beyond (same ▸ below)
  intro cell member cy row
  have reached : cell.i < str.length % 0x100000000 := by
    by_contra skipped
    apply written cell member cy row 0 (by decide)
    apply bootVidPrint_other
    intro cell' member' reached' dy row' dx column' same
    rw [Nat.mod_eq_of_lt (pixels cell' member' dy row' dx column')] at same
    obtain ⟨rfl, _⟩ := pixel_unique placed member' member column' (by decide) row' row same
    exact skipped reached'
  refine ⟨reached, pixels cell member cy row, ?_⟩
  by_cases colors : fg = bg
  · exact Or.inl colors
  right
  rw [shifted_iff]
  intro cx column
  have color := glyphs cell member cy row cx column
  rw [bootVidPrint_pixel placed pixels member reached row column] at color
  exact color_inj colors color

theorem text_faithful_iff (placed : Placed m font pitch width height (cellsOf x y str)) :
    (∀ before, Faithful m font pitch fg bg (cellsOf x y str) before
      (bootVidPrint m font pitch x y fg bg str before)) ↔
      ∀ cell ∈ cellsOf x y str, ∀ cy < (chSize m font).toNat,
        RowDrawn m font pitch fg bg str cell cy := by
  constructor
  · exact rows_drawn placed
  · intro drawn before
    have pixels : Addressable m font pitch (cellsOf x y str) := by
      intro cell member cy row
      exact (drawn cell member cy row).pixels
    constructor
    · intro cell member cy row cx column
      have here := drawn cell member cy row
      rw [bootVidPrint_pixel placed pixels member here.reached row column]
      rcases here.shifted with rfl | shifted
      · rw [ite_self, ite_self]
      · rw [shifted_iff.mp shifted cx column]
    · intro p outside
      apply bootVidPrint_other
      intro cell member _ cy row cx column
      rw [Nat.mod_eq_of_lt (pixels cell member cy row cx column)]
      exact outside cell member cy row cx column

/-- A font of rows of 8 pixels, 20 to a glyph, in which only the first row of the letter A is
not blank. -/
def letterFont : BitVec 64 → Byte := fun address =>
  if address = 3 then 20 else if address = 4 + 0x41 * 20 then 0x80 else 0

def blankLines : CString := [⟨0x20, blank_ne_nul⟩, ⟨0x0A, by decide⟩, ⟨0x20, blank_ne_nul⟩]

private theorem placed_blanks : Placed letterFont 0 32 8 40 (cellsOf 0 0 blankLines) := by
  constructor
  · decide
  · decide
  · unfold Cell.Apart
    decide

theorem text_faithful_iff_blanks : Placed letterFont 0 32 8 40 (cellsOf 0 0 blankLines) ∧
    ∀ before, Faithful letterFont 0 32 1 0 (cellsOf 0 0 blankLines) before
      (bootVidPrint letterFont 0 32 0 0 1 0 blankLines before) := by
  refine ⟨placed_blanks, ?_⟩
  apply (text_faithful_iff placed_blanks).mpr
  have rows : ∀ cell ∈ cellsOf 0 0 blankLines, ∀ cy < 20,
      cell.i < 3 ∧ (∀ cx < 8, pixelAt 32 (cell.x + cx) (cell.y + cy) < 0x100000000) ∧
        drawnRow letterFont 0 cell.ch.val cy >>> 1 = glyphRow letterFont 0 cell.ch.val cy := by
    decide +kernel
  intro cell member cy row
  have here := rows cell member cy row
  exact ⟨here.1, here.2.1, Or.inr here.2.2⟩

/-- The leftmost pixel of the letter's first row is in the font, but not drawn. -/
theorem leftmost_column_lost :
    Placed letterFont 0 32 8 20 (cellsOf 0 0 [⟨0x41, by decide⟩]) ∧
      ¬ Faithful letterFont 0 32 1 0 (cellsOf 0 0 [⟨0x41, by decide⟩]) (fun _ => 0)
        (bootVidPrint letterFont 0 32 0 0 1 0 [⟨0x41, by decide⟩] (fun _ => 0)) := by
  constructor
  · constructor
    · decide
    · decide
    · unfold Cell.Apart
      decide
  · intro faithful
    have shown :=
      faithful.glyphs ⟨0, ⟨0x41, by decide⟩, 0, 0⟩ (by decide) 0 (by decide) 0 (by decide)
    revert shown
    decide +kernel

end Faithfully

end Algae.Drv.BootVid
