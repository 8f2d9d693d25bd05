import FerricK.Font.ZapLight
import FerricK.Framebuffer.Defs

namespace FerricK

open Rust

def maxCols : Nat := 256
def maxRows : Nat := 128
def cellCount : Nat := maxCols * maxRows

/-- The coordinates and `editedCells` are `u32`. -/
structure Console where
  cells : List Cell
  cols : Nat
  rows : Nat
  cursorRow : Nat
  cursorCol : Nat
  fg : Rgb
  bg : Rgb
  editRow : Nat
  editCol : Nat
  editedCells : Nat
  deriving DecidableEq, Repr

namespace Console

def new : Console where
  cells := List.replicate cellCount (Cell.blank ⟨0xC0, 0xC0, 0xC0⟩ ⟨0, 0, 0⟩)
  cols := 0
  rows := 0
  cursorRow := 0
  cursorCol := 0
  fg := ⟨0xC0, 0xC0, 0xC0⟩
  bg := ⟨0, 0, 0⟩
  editRow := 0
  editCol := 0
  editedCells := 0

def parseFont : Rust Font := do
  expect "font parse failed" (← Font.parse Font.fontData).toOption

def setGeometry (c : Console) (fbWidth fbHeight : Nat) : Rust Console := do
  let font ← parseFont
  let cols ← udiv fbWidth font.width
  let rows ← udiv fbHeight font.height
  return { c with cols := cols, rows := rows }

def grid (c : Console) : Rust TextGrid :=
  expect "console geometry must fit the cell buffer" (TextGrid.new c.cells c.cols c.rows)

def putChars (s : List Char) (fg bg : Rgb) (g : TextGrid) : Rust TextGrid :=
  forEach s (fun ch g => g.put ch fg bg) g

def putText (c : Console) (s : List Char) : Rust Console :=
  if c.cols = 0 ∨ c.rows = 0 then return c
  else do
    let grid ← c.grid
    let grid := grid.setCursor c.cursorRow c.cursorCol
    let grid ← putChars s c.fg c.bg grid
    return { c with cells := grid.cells, cursorRow := grid.row, cursorCol := grid.col }

def beginEdit (c : Console) : Console :=
  { c with editRow := c.cursorRow, editCol := c.cursorCol, editedCells := 0 }

def blitPixel (font : Font) (glyph fgWord bgWord px py gy gx : Nat) (fb : FrameBuffer) :
    Rust FrameBuffer := do
  let set := (← font.glyphPixel glyph gx gy).getD false
  let word := if set then fgWord else bgWord
  return (← fb.writeWord (← uadd 32 px gx) (← uadd 32 py gy) word).2

def blitCell (c : Console) (font : Font) (row col : Nat) (fb : FrameBuffer) : Rust FrameBuffer := do
  let cell ← index c.cells (← uadd 32 (← umul 32 row c.cols) col)
  let glyph := (← font.glyphIndexFor cell.glyph).getD 0
  let fgWord ← fb.encode cell.fg
  let bgWord ← fb.encode cell.bg
  let px ← umul 32 col font.width
  let py ← umul 32 row font.height
  forRange font.height
    (fun gy => forRange font.width (blitPixel font glyph fgWord bgWord px py gy)) fb

def render (c : Console) (fb : FrameBuffer) : Rust FrameBuffer :=
  if c.cols = 0 ∨ c.rows = 0 then return fb
  else do
    let font ← parseFont
    forRange c.rows (fun row => forRange c.cols fun col => c.blitCell font row col) fb

/-- Both ends are clamped to the grid when one is past it. -/
def clampRange (total first last : Nat) : Nat × Nat :=
  if first ≥ total ∨ last ≥ total then (min first (total - 1), min last (total - 1))
  else (first, last)

def renderRange (c : Console) (first last : Nat) (fb : FrameBuffer) : Rust FrameBuffer :=
  if c.cols = 0 ∨ c.rows = 0 then return fb
  else do
    let total ← umul 32 c.rows c.cols
    let (first, last) := clampRange total first last
    if first > last then return fb
    else
      let font ← parseFont
      forEach (List.range' first (last + 1 - first))
        (fun i => c.blitCell font (i / c.cols) (i % c.cols)) fb

def blankEdited (origin total cols : Nat) (blank : Cell) :
    Nat → Nat → TextGrid → Rust TextGrid
  | 0, _, g => return g
  | left + 1, off, g => do
    let index ← uadd 64 origin off
    if index ≥ total then return g
    else
      let g ← g.setCell (index / cols) (index % cols) blank
      blankEdited origin total cols blank left (off + 1) g

abbrev Display := Console × Option FrameBuffer

def finishEdit (c : Console) (origin : Nat) (grid : TextGrid) (fb : Option FrameBuffer) :
    Rust Display := do
  let oldCells := c.editedCells
  let stop ← uadd 32 (← umul 32 grid.row c.cols) grid.col
  let scrolled := grid.scrollCount
  let c := { c with
    cells := grid.cells
    editedCells := (stop - origin) % 2 ^ 32
    cursorRow := grid.row
    cursorCol := grid.col }
  match fb with
  | none => return (c, none)
  | some fb =>
    if scrolled > 0 then
      let c := { c with editRow := c.editRow - scrolled }
      return (c, some (← c.render fb))
    else
      let oldEnd ← uadd 64 origin oldCells
      let newEnd ← uadd 64 origin c.editedCells
      return (c, some (← c.renderRange origin (max oldEnd newEnd - 1) fb))

def setEditLine (c : Console) (chars : List Char) (fb : Option FrameBuffer) : Rust Display :=
  if c.cols = 0 ∨ c.rows = 0 then return (c, fb)
  else do
    let origin ← uadd 32 (← umul 32 c.editRow c.cols) c.editCol
    let oldCells := c.editedCells
    if chars = [] ∧ oldCells = 0 then return (c, fb)
    else
      let total ← umul 32 c.rows c.cols
      let grid ← c.grid
      let grid ← blankEdited origin total c.cols (Cell.blank c.fg c.bg) oldCells 0 grid
      let grid := grid.setCursor c.editRow c.editCol
      c.finishEdit origin (← putChars chars c.fg c.bg grid) fb

def endEdit (c : Console) : Console := { c with editedCells := 0 }

def clearScreen (c : Console) (fb : Option FrameBuffer) : Rust Display :=
  if c.cols = 0 ∨ c.rows = 0 then return (c, fb)
  else do
    let grid ← c.grid
    let grid := grid.clear c.fg c.bg
    let c := { c with cells := grid.cells, cursorRow := 0, cursorCol := 0, editedCells := 0 }
    match fb with
    | none => return (c, none)
    | some fb => return (c, some (← c.render fb))

def panicGrid (c : Console) (lines : List (List Char)) (fg bg : Rgb) : Rust Console :=
  if c.cols = 0 ∨ c.rows = 0 then return c
  else do
    let c := { c with fg := fg, bg := bg, cursorRow := 0, cursorCol := 0 }
    let grid ← c.grid
    let grid := grid.clear fg bg
    let grid ← forEach lines (fun line g => do (← putChars line fg bg g).put '\n' fg bg) grid
    return { c with cells := grid.cells, cursorRow := grid.row, cursorCol := grid.col }

end Console

end FerricK
