import FerricK.Lib.Rust

namespace FerricK

structure Rgb where
  r : UInt8
  g : UInt8
  b : UInt8
  deriving DecidableEq, Repr

structure Cell where
  glyph : Char
  fg : Rgb
  bg : Rgb
  deriving DecidableEq, Repr

def Cell.blank (fg bg : Rgb) : Cell := ⟨' ', fg, bg⟩

def tabWidth : Nat := 8

/-- The coordinates and the scroll count are `u32`. -/
structure TextGrid where
  cells : List Cell
  cols : Nat
  rows : Nat
  row : Nat
  col : Nat
  defaultFg : Rgb
  defaultBg : Rgb
  scrollCount : Nat
  deriving DecidableEq, Repr

namespace TextGrid

open Rust

def copyWithin (v : List α) (k : Nat) : Rust (List α) :=
  if k ≤ v.length then .ok (v.drop k ++ v.drop (v.length - k)) else .error .bounds

def fillRange (v : List α) (a b : Nat) (y : α) : Rust (List α) := do
  let _ ← slice v a b
  return v.take a ++ List.replicate (b - a) y ++ v.drop b

def new (cells : List Cell) (cols rows : Nat) : Option TextGrid := do
  let needed ← checkedMul 64 cols rows
  if cols = 0 ∨ rows = 0 ∨ needed > cells.length then none
  else some ⟨cells, cols, rows, 0, 0, ⟨0xC0, 0xC0, 0xC0⟩, ⟨0, 0, 0⟩, 0⟩

def clearDefaults (g : TextGrid) : TextGrid :=
  { g with cells := g.cells.map fun _ => Cell.blank g.defaultFg g.defaultBg }

def clear (g : TextGrid) (fg bg : Rgb) : TextGrid :=
  { clearDefaults { g with defaultFg := fg, defaultBg := bg } with
    row := 0, col := 0, scrollCount := 0 }

def setCursor (g : TextGrid) (row col : Nat) : TextGrid :=
  { g with row := min row (g.rows - 1), col := min col (g.cols - 1) }

def index (g : TextGrid) (row col : Nat) : Rust Nat := do
  uadd 32 (← umul 32 row g.cols) col

def cell (g : TextGrid) (row col : Nat) : Rust (Option Cell) :=
  if row ≥ g.rows ∨ col ≥ g.cols then return none
  else do return some (← Rust.index g.cells (← g.index row col))

def storeAt (row col : Nat) (value : Cell) (g : TextGrid) : Rust TextGrid := do
  let cells ← store g.cells (← g.index row col) value
  return { g with cells := cells }

def setCell (g : TextGrid) (row col : Nat) (value : Cell) : Rust TextGrid :=
  if row < g.rows ∧ col < g.cols then g.storeAt row col value else return g

def setText (g : TextGrid) (row : Nat) (s : List Char) (fg bg : Rgb) : Rust TextGrid := do
  let row := min row (g.rows - 1)
  let g ← forEach (s.zipIdx.take g.cols) (fun p => storeAt row p.2 ⟨p.1, fg, bg⟩) g
  return g.setCursor row (min (s.length % 2 ^ 32) g.cols)

def scrollUp (g : TextGrid) : Rust TextGrid := do
  let cells ← copyWithin g.cells g.cols
  let start ← umul 64 (← usub g.rows 1) g.cols
  let cells ← fillRange cells start (← uadd 64 start g.cols) (Cell.blank g.defaultFg g.defaultBg)
  let scrollCount ← uadd 32 g.scrollCount 1
  return { g with cells := cells, scrollCount := scrollCount }

def linefeed (g : TextGrid) : Rust TextGrid := do
  let g := { g with col := 0 }
  let next ← uadd 32 g.row 1
  if next ≥ g.rows then g.scrollUp else return { g with row := next }

def advance (g : TextGrid) : Rust TextGrid := do
  let col ← uadd 32 g.col 1
  let g := { g with col := col }
  if g.col ≥ g.cols then g.linefeed else return g

def put (g : TextGrid) (c : Char) (fg bg : Rgb) : Rust TextGrid :=
  if c = '\n' then g.linefeed
  else if c = '\r' then return { g with col := 0 }
  else if c = '\t' then do
    let next ← umul 32 (← uadd 32 (g.col / tabWidth) 1) tabWidth
    return { g with col := min next g.cols }
  else do
    let g ← g.storeAt g.row g.col ⟨c, fg, bg⟩
    g.advance

/-- The cells are enough for the grid, and the cursor is in it or just past a row. -/
structure Valid (g : TextGrid) : Prop where
  cols_pos : 0 < g.cols
  rows_pos : 0 < g.rows
  area_lt : g.cols * g.rows < 2 ^ 32
  area_le : g.cols * g.rows ≤ g.cells.length
  row_lt : g.row < g.rows
  col_le : g.col ≤ g.cols
  scroll_lt : g.scrollCount < 2 ^ 32

def scrolled (g : TextGrid) : List Cell :=
  let cells := g.cells.drop g.cols ++ g.cells.drop (g.cells.length - g.cols)
  cells.take ((g.rows - 1) * g.cols) ++
    List.replicate g.cols (Cell.blank g.defaultFg g.defaultBg) ++
    cells.drop ((g.rows - 1) * g.cols + g.cols)

theorem index_le {cols rows r c : Nat} (hr : r < rows) (hc : c ≤ cols) :
    r * cols + c ≤ cols * rows := by
  have hmul : (r + 1) * cols ≤ rows * cols := Nat.mul_le_mul_right _ hr
  rw [Nat.succ_mul, Nat.mul_comm rows] at hmul
  omega

theorem index_lt {cols rows r c : Nat} (hr : r < rows) (hc : c < cols) :
    r * cols + c < cols * rows := index_le hr hc

theorem index_div {cols r c : Nat} (hc : c < cols) : (r * cols + c) / cols = r := by
  have hpos : 0 < cols := by omega
  rw [Nat.mul_comm, Nat.mul_add_div hpos, Nat.div_eq_of_lt hc, Nat.add_zero]

theorem index_mod {cols r c : Nat} (hc : c < cols) : (r * cols + c) % cols = c := by
  rw [Nat.mul_comm, Nat.mul_add_mod, Nat.mod_eq_of_lt hc]

theorem index_inj {cols r c r' c' : Nat} (hc : c < cols) (hc' : c' < cols)
    (h : r * cols + c = r' * cols + c') : r = r' ∧ c = c' := by
  constructor
  · rw [← index_div (r := r) hc, h, index_div hc']
  · rw [← index_mod (r := r) hc, h, index_mod hc']

variable {g : TextGrid} {row col r c i : Nat} {value : Cell} {fg bg : Rgb} {ch : Char}

theorem Valid.area (h : Valid g) : (g.rows - 1) * g.cols + g.cols = g.cols * g.rows := by
  have hpos := h.rows_pos
  rw [← Nat.succ_mul, Nat.mul_comm]
  congr 1
  omega

theorem Valid.dims (h : Valid g) : g.cols < 2 ^ 32 ∧ g.rows < 2 ^ 32 := by
  have hlt := h.area_lt
  have hrows : g.cols * 1 ≤ g.cols * g.rows := Nat.mul_le_mul_left _ h.rows_pos
  have hcols : 1 * g.rows ≤ g.cols * g.rows := Nat.mul_le_mul_right _ h.cols_pos
  omega

theorem Valid.home (h : Valid g) : Valid { g with col := 0 } :=
  ⟨h.cols_pos, h.rows_pos, h.area_lt, h.area_le, h.row_lt, Nat.zero_le _, h.scroll_lt⟩

theorem Valid.setCells (h : Valid g) {cells : List Cell} (hlen : cells.length = g.cells.length) :
    Valid { g with cells := cells } :=
  ⟨h.cols_pos, h.rows_pos, h.area_lt, hlen ▸ h.area_le, h.row_lt, h.col_le, h.scroll_lt⟩

theorem Valid.index_eq (h : Valid g) (hr : r < g.rows) (hc : c ≤ g.cols) :
    g.index r c = .ok (r * g.cols + c) := by
  have hlt := h.area_lt
  have hle := index_le hr hc
  rw [index, umul_of_lt (by omega), ok_bind, uadd_of_lt (by omega)]

theorem Valid.cell_eq (h : Valid g) (hr : r < g.rows) (hc : c < g.cols) :
    g.cell r c = .ok g.cells[r * g.cols + c]? := by
  have hlt := index_lt hr hc
  have hle := h.area_le
  have hin : r * g.cols + c < g.cells.length := by omega
  rw [cell, if_neg (by omega), h.index_eq hr (Nat.le_of_lt hc), ok_bind, Rust.index_of_lt hin,
    ok_bind, pure_eq_ok, List.getElem?_eq_getElem hin]

theorem Valid.storeAt_eq (h : Valid g) (hr : r < g.rows) (hc : c < g.cols) (value : Cell) :
    g.storeAt r c value = .ok { g with cells := g.cells.set (r * g.cols + c) value } := by
  have hlt := index_lt hr hc
  have hle := h.area_le
  rw [TextGrid.storeAt, h.index_eq hr (Nat.le_of_lt hc), ok_bind, store_of_lt (by omega), ok_bind,
    pure_eq_ok]

theorem Valid.storeAt (h : Valid g) (r c : Nat) (value : Cell) :
    Valid { g with cells := g.cells.set (r * g.cols + c) value } :=
  h.setCells (List.length_set ..)

theorem Valid.cell_set (h : Valid g) (hrow : row < g.rows) (hcol : col < g.cols)
    (hr : r < g.rows) (hc : c < g.cols) (value : Cell) :
    cell { g with cells := g.cells.set (row * g.cols + col) value } r c =
      if r = row ∧ c = col then .ok (some value) else g.cell r c := by
  have harea := h.area_le
  have hlt := index_lt hrow hcol
  rw [(h.storeAt row col value).cell_eq hr hc, h.cell_eq hr hc]
  change Except.ok (g.cells.set _ _)[r * g.cols + c]? = _
  by_cases hsame : r = row ∧ c = col
  · rw [if_pos hsame, hsame.1, hsame.2, List.getElem?_set_self (by omega)]
  · rw [if_neg hsame, List.getElem?_set_ne fun heq =>
      hsame ((index_inj hcol hc heq).imp Eq.symm Eq.symm)]

theorem Valid.length_scrolled (h : Valid g) : g.scrolled.length = g.cells.length := by
  have harea := h.area
  have hle := h.area_le
  simp only [scrolled, List.length_append, List.length_take, List.length_drop,
    List.length_replicate]
  omega

theorem Valid.getElem?_scrolled (h : Valid g) (hi : i < g.cols * g.rows) :
    g.scrolled[i]? = if i < (g.rows - 1) * g.cols then g.cells[i + g.cols]?
      else some (Cell.blank g.defaultFg g.defaultBg) := by
  have harea := h.area
  have hle := h.area_le
  rw [scrolled, List.append_assoc]
  split
  · next hlt =>
    rw [List.getElem?_append_left (by simp; omega), List.getElem?_take_of_lt hlt,
      List.getElem?_append_left (by simp; omega), List.getElem?_drop, Nat.add_comm]
  · next hge =>
    have hlen : (List.take ((g.rows - 1) * g.cols)
        (g.cells.drop g.cols ++ g.cells.drop (g.cells.length - g.cols))).length =
        (g.rows - 1) * g.cols := by
      simp only [List.length_take, List.length_append, List.length_drop]
      omega
    rw [List.getElem?_append_right (by omega), hlen,
      List.getElem?_append_left (by simp; omega), List.getElem?_replicate_of_lt (by omega)]

theorem Valid.cell_scrolled (h : Valid g) (hr : r + 1 < g.rows) (hc : c < g.cols)
    (count : Nat) :
    cell { g with cells := g.scrolled, scrollCount := count } r c = g.cell (r + 1) c := by
  have hvalid : Valid { g with cells := g.scrolled } := h.setCells h.length_scrolled
  have hmul : (r + 1) * g.cols ≤ (g.rows - 1) * g.cols := Nat.mul_le_mul_right _ (by omega)
  rw [Nat.succ_mul] at hmul
  refine (hvalid.cell_eq (show r < g.rows by omega) hc).trans ?_
  change Except.ok g.scrolled[r * g.cols + c]? = _
  rw [h.getElem?_scrolled (index_lt (by omega) hc), if_pos (by omega), h.cell_eq hr hc,
    Nat.succ_mul, Nat.add_right_comm]

theorem Valid.scrollUp_eq (h : Valid g) (hscroll : g.scrollCount + 1 < 2 ^ 32) :
    g.scrollUp = .ok { g with cells := g.scrolled, scrollCount := g.scrollCount + 1 } := by
  have harea := h.area
  have hlt := h.area_lt
  have hle := h.area_le
  have hrows := h.rows_pos
  have hlen : (g.cells.drop g.cols ++ g.cells.drop (g.cells.length - g.cols)).length =
      g.cells.length := by
    simp only [List.length_append, List.length_drop]
    omega
  rw [scrollUp, copyWithin, if_pos (by omega), ok_bind, usub_of_le (by omega), ok_bind,
    umul_of_lt (by omega), ok_bind, uadd_of_lt (by omega), ok_bind, fillRange,
    slice_of_le (by omega), ok_bind, pure_eq_ok, ok_bind, uadd_of_lt hscroll, ok_bind, pure_eq_ok,
    Nat.add_sub_cancel_left, scrolled]

theorem scrollUp_ne_ok (hscroll : ¬g.scrollCount + 1 < 2 ^ 32) :
    ∀ g', g.scrollUp ≠ .ok g' := by
  intro g' hg'
  rw [scrollUp] at hg'
  obtain ⟨_, _, hg'⟩ := bind_eq_ok.mp hg'
  obtain ⟨_, _, hg'⟩ := bind_eq_ok.mp hg'
  obtain ⟨_, _, hg'⟩ := bind_eq_ok.mp hg'
  obtain ⟨_, _, hg'⟩ := bind_eq_ok.mp hg'
  obtain ⟨_, _, hg'⟩ := bind_eq_ok.mp hg'
  obtain ⟨_, hcount, -⟩ := bind_eq_ok.mp hg'
  exact hscroll (uadd_eq_ok.mp hcount).1

theorem Valid.scrolled (h : Valid g) (hscroll : g.scrollCount + 1 < 2 ^ 32) :
    Valid { g with cells := g.scrolled, scrollCount := g.scrollCount + 1 } :=
  ⟨h.cols_pos, h.rows_pos, h.area_lt, h.length_scrolled ▸ h.area_le, h.row_lt, h.col_le, hscroll⟩

theorem Valid.linefeed_eq (h : Valid g) : g.linefeed =
    if g.row + 1 < g.rows then .ok { g with row := g.row + 1, col := 0 }
    else { g with col := 0 }.scrollUp := by
  have hrow := h.row_lt
  have hdims := h.dims
  rw [linefeed, uadd_of_lt (by simp only; omega), ok_bind]
  simp only [ge_iff_le]
  split
  · rw [if_neg (by omega)]
  · rw [if_pos (by omega), pure_eq_ok]

end TextGrid

end FerricK
