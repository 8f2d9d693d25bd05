import FerricK.Console.Render
import FerricK.Grid.Typing

namespace FerricK.Console

open Rust TextGrid

def maxLineChars : Nat := 128

def Blank (c : Console) (cell : Cell) : Prop :=
  cell = Cell.blank c.fg c.bg ∨ cell = Cell.blank ⟨0xC0, 0xC0, 0xC0⟩ ⟨0, 0, 0⟩

structure Edit where
  origin : Nat
  line : List Char
  fresh : Bool

inductive Key
  | insert (c : Char)
  | erase

namespace Edit

variable (cols rows : Nat)

def press (e : Edit) : Key → Edit
  | .insert c =>
    if e.origin + e.line.length + 1 = cols * rows then ⟨e.origin - cols, e.line ++ [c], true⟩
    else ⟨e.origin, e.line ++ [c], false⟩
  | .erase => ⟨e.origin, e.line.dropLast, false⟩

def Allows (e : Edit) : Key → Prop
  | .insert c => Printable c ∧ e.line.length + 1 ≤ maxLineChars ∧
      e.origin % cols + (e.line.length + 1) < cols * rows
  | .erase => e.line ≠ []

/-- What is erased right after a scroll is a space, and not the first character. -/
def Clean (e : Edit) : Key → Prop
  | .insert _ => True
  | .erase => e.fresh = true → 2 ≤ e.line.length ∧ e.line.getLast? = some ' '

def AllAllow : Edit → List Key → Prop
  | _, [] => True
  | e, k :: keys => e.Allows cols rows k ∧ AllAllow (e.press cols rows k) keys

def AllClean : Edit → List Key → Prop
  | _, [] => True
  | e, k :: keys => e.Clean k ∧ AllClean (e.press cols rows k) keys

end Edit

/-- The console shows the line and blanks after it, has the cursor between, and has kept what
was before the line since the edit began at `c₀`. -/
structure Shows (c₀ : Console) (e : Edit) (c : Console) : Prop where
  geometry : c.cols = c₀.cols ∧ c.rows = c₀.rows
  origin : c.editRow * c.cols + c.editCol = e.origin
  line : ∀ i < e.line.length, c.cells[e.origin + i]? = (inked e.line c.fg c.bg)[i]?
  blank : ∀ i < c.cols * c.rows, e.origin + e.line.length ≤ i →
    ∃ cell, c.cells[i]? = some cell ∧ Blank c cell
  cursor : c.cursorCol < c.cols ∧
    c.cursorRow * c.cols + c.cursorCol = e.origin + e.line.length
  before : ∀ i < e.origin,
    c.cells[i]? = c₀.cells[i + (c₀.cursorRow * c₀.cols + c₀.cursorCol - e.origin)]?

def AllShown (c₀ : Console) : Edit → Display → List Key → Prop
  | _, _, [] => True
  | e, d, k :: keys => ∃ d', d.1.setEditLine (e.press c₀.cols c₀.rows k).line d.2 = .ok d' ∧
      Shows c₀ (e.press c₀.cols c₀.rows k) d'.1 ∧
      AllShown c₀ (e.press c₀.cols c₀.rows k) d' keys

structure Tracks (c₀ : Console) (e : Edit) (c : Console) : Prop where
  sized : Sized c
  shows : Shows c₀ e c
  row_lt : c.editRow < c.rows
  col_lt : c.editCol < c.cols
  room : e.origin + e.line.length < c.cols * c.rows
  origin_le : e.origin ≤ c₀.cursorRow * c₀.cols + c₀.cursorCol
  edited : c.editedCells = if e.fresh then e.line.length - c.cols else e.line.length
  printable : ∀ ch ∈ e.line, Printable ch

variable {c c₀ : Console} {e : Edit} {fb : FrameBuffer} {g : TextGrid} {chars : List Char}
  {ch : Char} {d : Display} {keys : List Key}

theorem blankEdited_eq {origin left off : Nat} (h : g.Valid) (blank : Cell)
    (hlt : origin + off + left ≤ g.cols * g.rows) :
    blankEdited origin (g.rows * g.cols) g.cols blank left off g =
      .ok { g with cells := overwrite g.cells (origin + off) (List.replicate left blank) } := by
  induction left generalizing off g with
  | zero => rfl
  | succ left ih =>
    have harea := h.area_lt
    have hrow : (origin + off) / g.cols < g.rows := Nat.div_lt_of_lt_mul (by omega)
    have hcol : (origin + off) % g.cols < g.cols := Nat.mod_lt _ h.cols_pos
    have hset := h.storeAt ((origin + off) / g.cols) ((origin + off) % g.cols) blank
    have hroom : origin + (off + 1) + left ≤ g.cols * g.rows := by omega
    have hrest := ih hset hroom
    rw [blankEdited, uadd_of_lt (by omega), ok_bind, if_neg (by rw [Nat.mul_comm]; omega), setCell,
      if_pos ⟨hrow, hcol⟩, h.storeAt_eq hrow hcol, ok_bind, hrest, Nat.div_add_mod',
      List.replicate_succ, overwrite, Nat.add_assoc]

def editGrid (c : Console) : TextGrid := { c.freshGrid with
  cells := overwrite c.cells (c.editRow * c.cols + c.editCol)
    (List.replicate c.editedCells (Cell.blank c.fg c.bg))
  row := c.editRow
  col := c.editCol }

theorem Tracks.edited_le (h : Tracks c₀ e c) : c.editedCells ≤ e.line.length := by
  rw [h.edited]
  split <;> omega

theorem Tracks.valid_editGrid (h : Tracks c₀ e c) : (editGrid c).Valid := by
  have hvalid := h.sized.valid_freshGrid
  exact ⟨hvalid.cols_pos, hvalid.rows_pos, hvalid.area_lt,
    hvalid.area_le.trans_eq (length_overwrite ..).symm, h.row_lt, h.col_lt.le, hvalid.scroll_lt⟩

theorem Tracks.setEditLine_eq (h : Tracks c₀ e c) (hchars : ¬(chars = [] ∧ c.editedCells = 0))
    (fb : Option FrameBuffer) : c.setEditLine chars fb =
      putChars chars c.fg c.bg (editGrid c) >>= fun g => c.finishEdit e.origin g fb := by
  have hroom := h.room
  have hold := h.edited_le
  have horigin := h.shows.origin
  have hblank : blankEdited e.origin (c.rows * c.cols) c.cols (Cell.blank c.fg c.bg)
      c.editedCells 0 c.freshGrid = _ :=
    blankEdited_eq h.sized.valid_freshGrid (Cell.blank c.fg c.bg)
      (show e.origin + 0 + c.editedCells ≤ c.cols * c.rows by omega)
  have hcursor : min c.editRow (c.rows - 1) = c.editRow ∧
      min c.editCol (c.cols - 1) = c.editCol := by
    have hrow := h.row_lt
    have hcol := h.col_lt
    omega
  rw [h.sized.setEditLine_eq (by omega), if_neg hchars, horigin, hblank, ok_bind]
  simp only [setCursor, editGrid, freshGrid, hcursor.1, hcursor.2, horigin, Nat.add_zero]

theorem Tracks.getElem?_editGrid (h : Tracks c₀ e c) (i : Nat) : (editGrid c).cells[i]? =
    if e.origin ≤ i ∧ i < e.origin + c.editedCells then some (Cell.blank c.fg c.bg)
    else c.cells[i]? := by
  have harea := h.sized.area_le
  have hlen := h.sized.length
  have hroom := h.room
  have hold := h.edited_le
  rw [editGrid, h.shows.origin, getElem?_overwrite (by rw [List.length_replicate]; omega),
    List.length_replicate]
  split
  · exact List.getElem?_replicate_of_lt (by omega)
  · rfl

def lineGrid (c : Console) (origin : Nat) (chars : List Char) : TextGrid := { editGrid c with
  cells := overwrite (editGrid c).cells origin (inked chars c.fg c.bg)
  row := (origin + chars.length) / c.cols
  col := (origin + chars.length) % c.cols }

theorem Tracks.putChars_eq (h : Tracks c₀ e c) (hprint : ∀ ch ∈ chars, Printable ch)
    (hroom : e.origin + chars.length < c.cols * c.rows) :
    putChars chars c.fg c.bg (editGrid c) = .ok (lineGrid c e.origin chars) := by
  have hplace : (editGrid c).place = e.origin := h.shows.origin
  have hput := h.valid_editGrid.putAll_inked h.col_lt hprint (by rw [hplace]; exact hroom) c.fg c.bg
  rw [hplace] at hput
  exact hput

theorem Tracks.getElem?_lineGrid (h : Tracks c₀ e c)
    (hroom : e.origin + chars.length ≤ c.cols * c.rows) (i : Nat) :
    (overwrite (editGrid c).cells e.origin (inked chars c.fg c.bg))[i]? =
      if e.origin ≤ i ∧ i < e.origin + chars.length then (inked chars c.fg c.bg)[i - e.origin]?
      else (editGrid c).cells[i]? := by
  have harea := h.sized.area_le
  have hlen := h.sized.length
  have hinked : (inked chars c.fg c.bg).length = chars.length := List.length_map ..
  rw [getElem?_overwrite, hinked]
  rw [hinked, editGrid, length_overwrite]
  omega

theorem length_lineGrid (h : Sized c) (origin : Nat) (chars : List Char) :
    (lineGrid c origin chars).cells.length = cellCount := by
  rw [lineGrid, length_overwrite, editGrid, length_overwrite, h.length]

theorem Tracks.setEditLine_ok (h : Tracks c₀ e c) (hfb : fb.Ready)
    (hchars : ¬(chars = [] ∧ c.editedCells = 0)) (hprint : ∀ ch ∈ chars, Printable ch)
    (hroom : e.origin + chars.length < c.cols * c.rows) :
    ∃ fb', c.setEditLine chars (some fb) =
        .ok (c.edited e.origin (lineGrid c e.origin chars), some fb') ∧ fb'.Ready := by
  have hold := h.edited_le
  have htotal := h.room
  obtain ⟨fb', hfinish, hfb'⟩ := h.sized.finishEdit_ok hfb (length_lineGrid h.sized e.origin chars)
    ((Nat.div_add_mod' ..).trans_le hroom.le) (show e.origin ≤ c.cols * c.rows by omega)
    (show c.editedCells ≤ c.cols * c.rows by omega)
  exact ⟨fb', by rw [h.setEditLine_eq hchars, h.putChars_eq hprint hroom, ok_bind, hfinish], hfb'⟩

theorem Tracks.still (h : Tracks c₀ e c) (hprint : ∀ ch ∈ chars, Printable ch)
    (hroom : e.origin + chars.length < c.cols * c.rows)
    (hrest : ∀ i < c.cols * c.rows, e.origin + chars.length ≤ i →
      i < e.origin + c.editedCells ∨ ∃ cell, c.cells[i]? = some cell ∧ Blank c cell) :
    Tracks c₀ ⟨e.origin, chars, false⟩ (c.edited e.origin (lineGrid c e.origin chars)) := by
  have hcols := h.sized.cols_pos
  have hplace : (e.origin + chars.length) / c.cols * c.cols + (e.origin + chars.length) % c.cols =
      e.origin + chars.length := Nat.div_add_mod' ..
  refine ⟨⟨hcols, h.sized.rows_pos, h.sized.area_le, length_lineGrid h.sized ..⟩,
    ⟨h.shows.geometry, h.shows.origin, ?_, ?_, ⟨Nat.mod_lt _ hcols, hplace⟩, ?_⟩, h.row_lt,
    h.col_lt, hroom, h.origin_le, ?_, hprint⟩
  · intro i hi
    have hi' : i < chars.length := hi
    refine (h.getElem?_lineGrid hroom.le (e.origin + i)).trans ?_
    rw [if_pos (by omega), Nat.add_sub_cancel_left]
    rfl
  · intro i hi hge
    have hge' : e.origin + chars.length ≤ i := hge
    have hget := h.getElem?_lineGrid hroom.le i
    rw [if_neg (by omega), h.getElem?_editGrid] at hget
    rcases hrest i hi hge with hblanked | ⟨cell, hcell, hblank⟩
    · rw [if_pos (by omega)] at hget
      exact ⟨_, hget, Or.inl rfl⟩
    · split at hget
      · exact ⟨_, hget, Or.inl rfl⟩
      · exact ⟨cell, hget.trans hcell, hblank⟩
  · intro i hi
    have hi' : i < e.origin := hi
    have hget := h.getElem?_lineGrid hroom.le i
    rw [if_neg (by omega), h.getElem?_editGrid, if_neg (by omega)] at hget
    exact hget.trans (h.shows.before i hi)
  · have hdiff : e.origin + chars.length - e.origin = chars.length := by omega
    exact (congrArg (· - e.origin) hplace).trans hdiff

theorem Tracks.valid_lineGrid (h : Tracks c₀ e c)
    (hroom : e.origin + chars.length < c.cols * c.rows) :
    (lineGrid c e.origin chars).Valid := by
  have hgrid := h.valid_editGrid
  exact ⟨hgrid.cols_pos, hgrid.rows_pos, hgrid.area_lt,
    hgrid.area_le.trans_eq (length_overwrite ..).symm, Nat.div_lt_of_lt_mul hroom,
    (Nat.mod_lt _ h.sized.cols_pos).le, hgrid.scroll_lt⟩

theorem place_lineGrid (c : Console) (origin : Nat) (chars : List Char) :
    (lineGrid c origin chars).place = origin + chars.length := Nat.div_add_mod' ..

def fullGrid (c : Console) (origin : Nat) (chars : List Char) (ch : Char) : TextGrid :=
  { lineGrid c origin chars with
    cells := (lineGrid c origin chars).cells.set (lineGrid c origin chars).place ⟨ch, c.fg, c.bg⟩ }

def upGrid (c : Console) (origin : Nat) (chars : List Char) (ch : Char) : TextGrid :=
  { lineGrid c origin chars with
    cells := (fullGrid c origin chars ch).scrolled
    col := 0
    scrollCount := 0 + 1 }

theorem cells_fullGrid (c : Console) (origin : Nat) (chars : List Char) (ch : Char) :
    (fullGrid c origin chars ch).cells =
      overwrite (editGrid c).cells origin (inked (chars ++ [ch]) c.fg c.bg) := by
  rw [fullGrid, place_lineGrid, inked, List.map_append, List.map_singleton, overwrite_concat,
    List.length_map]
  rfl

theorem Tracks.putChars_last (h : Tracks c₀ e c)
    (hlast : e.origin + (chars.length + 1) = c.cols * c.rows) (hprint : ∀ ch ∈ chars, Printable ch)
    (hch : Printable ch) :
    putChars (chars ++ [ch]) c.fg c.bg (editGrid c) = .ok (upGrid c e.origin chars ch) := by
  have hroom : e.origin + chars.length < c.cols * c.rows := by omega
  have hput : (lineGrid c e.origin chars).put ch c.fg c.bg = _ :=
    (h.valid_lineGrid hroom).put_last (Nat.mod_lt _ h.sized.cols_pos) hch
      (by rw [place_lineGrid]; exact hlast) (show 0 + 1 < 2 ^ 32 by omega)
  rw [putChars, forEach_append, ← putChars, h.putChars_eq hprint hroom, ok_bind, forEach_cons, hput]
  rfl

theorem Tracks.valid_fullGrid (h : Tracks c₀ e c)
    (hlast : e.origin + (chars.length + 1) = c.cols * c.rows) (ch : Char) :
    (fullGrid c e.origin chars ch).Valid :=
  (h.valid_lineGrid (by omega)).setCells List.length_set

theorem Tracks.length_upGrid (h : Tracks c₀ e c)
    (hlast : e.origin + (chars.length + 1) = c.cols * c.rows) (ch : Char) :
    (upGrid c e.origin chars ch).cells.length = cellCount := by
  have hscrolled := (h.valid_fullGrid hlast ch).length_scrolled
  rw [cells_fullGrid, length_overwrite, editGrid, length_overwrite, h.sized.length] at hscrolled
  exact hscrolled

theorem Tracks.getElem?_upGrid (h : Tracks c₀ e c)
    (hlast : e.origin + (chars.length + 1) = c.cols * c.rows) (ch : Char)
    (hi : i < c.cols * c.rows) : (upGrid c e.origin chars ch).cells[i]? =
      if i < (c.rows - 1) * c.cols then
        (overwrite (editGrid c).cells e.origin (inked (chars ++ [ch]) c.fg c.bg))[i + c.cols]?
      else some (Cell.blank ⟨0xC0, 0xC0, 0xC0⟩ ⟨0, 0, 0⟩) := by
  have hscrolled := (h.valid_fullGrid hlast ch).getElem?_scrolled hi
  rw [cells_fullGrid] at hscrolled
  exact hscrolled

theorem Tracks.place_upGrid (h : Tracks c₀ e c)
    (hlast : e.origin + (chars.length + 1) = c.cols * c.rows) (ch : Char) :
    (upGrid c e.origin chars ch).row * c.cols + (upGrid c e.origin chars ch).col =
      (c.rows - 1) * c.cols := by
  have hcols := h.sized.cols_pos
  have harea : (c.rows - 1) * c.cols + c.cols = c.cols * c.rows := h.sized.valid_freshGrid.area
  have hindex : e.origin + chars.length = (c.rows - 1) * c.cols + (c.cols - 1) := by omega
  show (e.origin + chars.length) / c.cols * c.cols + 0 = (c.rows - 1) * c.cols
  rw [hindex, index_div (by omega), Nat.add_zero]

/-- The edit column keeps a line that reaches the end of the grid out of the first row. -/
theorem Tracks.row_up (h : Tracks c₀ e c) (hlast : e.origin + n = c.cols * c.rows)
    (hcol : c.editCol + n < c.cols * c.rows) :
    (c.editRow - 1) * c.cols + c.editCol + c.cols = e.origin := by
  have horigin := h.shows.origin
  have hpos : 0 < c.editRow := by
    by_contra hzero
    rw [Nat.eq_zero_of_not_pos hzero, Nat.zero_mul] at horigin
    omega
  have hup : (c.editRow - 1 + 1) * c.cols = c.editRow * c.cols := by rw [Nat.sub_add_cancel hpos]
  rw [Nat.succ_mul] at hup
  omega

theorem Tracks.shows_upGrid (h : Tracks c₀ e c)
    (hlast : e.origin + (chars.length + 1) = c.cols * c.rows)
    (hcol : c.editCol + (chars.length + 1) < c.cols * c.rows) :
    Shows c₀ ⟨e.origin - c.cols, chars ++ [ch], true⟩
      (c.edited e.origin (upGrid c e.origin chars ch)) := by
  have hcols := h.sized.cols_pos
  have horigin_le := h.origin_le
  have hup := h.row_up hlast hcol
  have hplace := h.place_upGrid hlast ch
  have harea : (c.rows - 1) * c.cols + c.cols = c.cols * c.rows := h.sized.valid_freshGrid.area
  have hlength : (chars ++ [ch]).length = chars.length + 1 := List.length_append
  refine ⟨h.shows.geometry, ?_, ?_, ?_, ⟨hcols, ?_⟩, ?_⟩
  · show (c.editRow - 1) * c.cols + c.editCol = e.origin - c.cols
    omega
  · intro i hi
    have hi' : i < chars.length + 1 := hlength ▸ hi
    have hin : e.origin - c.cols + i < c.cols * c.rows := by omega
    refine (h.getElem?_upGrid hlast ch hin).trans ?_
    rw [if_pos (by omega), h.getElem?_lineGrid (by omega), if_pos (by omega),
      show e.origin - c.cols + i + c.cols - e.origin = i by omega]
    rfl
  · intro i hi hge
    have hge' : e.origin - c.cols + (chars ++ [ch]).length ≤ i := hge
    exact ⟨_, (h.getElem?_upGrid hlast ch hi).trans (if_neg (by omega)), Or.inr rfl⟩
  · refine hplace.trans ?_
    simp only
    omega
  · intro i hi
    have hi' : i < e.origin - c.cols := hi
    have hin : i < c.cols * c.rows := by omega
    refine (h.getElem?_upGrid hlast ch hin).trans ?_
    rw [if_pos (by omega), h.getElem?_lineGrid (by omega), if_neg (by omega), h.getElem?_editGrid,
      if_neg (by omega), h.shows.before _ (by omega)]
    congr 1
    simp only
    omega

theorem Tracks.scroll (h : Tracks c₀ e c) (hfb : fb.Ready) (hprint : ∀ ch ∈ chars, Printable ch)
    (hch : Printable ch) (hlast : e.origin + (chars.length + 1) = c.cols * c.rows)
    (hcol : c.editCol + (chars.length + 1) < c.cols * c.rows) :
    ∃ c' fb', c.setEditLine (chars ++ [ch]) (some fb) = .ok (c', some fb') ∧
      Tracks c₀ ⟨e.origin - c.cols, chars ++ [ch], true⟩ c' ∧ fb'.Ready := by
  have hcols := h.sized.cols_pos
  have hold := h.edited_le
  have hroom := h.room
  have hup := h.row_up hlast hcol
  have hlen := h.length_upGrid hlast ch
  have hplace := h.place_upGrid hlast ch
  have harea : (c.rows - 1) * c.cols + c.cols = c.cols * c.rows := h.sized.valid_freshGrid.area
  have hlength : (chars ++ [ch]).length = chars.length + 1 := List.length_append
  obtain ⟨fb', hfinish, hfb'⟩ := h.sized.finishEdit_ok hfb hlen (hplace.trans_le (by omega))
    (show e.origin ≤ c.cols * c.rows by omega) (show c.editedCells ≤ c.cols * c.rows by omega)
  refine ⟨c.edited e.origin (upGrid c e.origin chars ch), fb', ?_, ?_, hfb'⟩
  · rw [h.setEditLine_eq (by simp), h.putChars_last hlast hprint hch, ok_bind, hfinish]
  refine ⟨⟨hcols, h.sized.rows_pos, h.sized.area_le, hlen⟩, h.shows_upGrid hlast hcol,
    (Nat.sub_le ..).trans_lt h.row_lt, h.col_lt, ?_, (Nat.sub_le ..).trans h.origin_le, ?_, ?_⟩
  · show e.origin - c.cols + (chars ++ [ch]).length < c.cols * c.rows
    omega
  · show (upGrid c e.origin chars ch).row * c.cols + (upGrid c e.origin chars ch).col - e.origin =
      (chars ++ [ch]).length - c.cols
    omega
  · intro a ha
    rcases List.mem_append.mp ha with ha | ha
    · exact hprint a ha
    · exact List.mem_singleton.mp ha ▸ hch

theorem Tracks.insert (h : Tracks c₀ e c) (hfb : fb.Ready)
    (hallows : e.Allows c.cols c.rows (.insert ch)) :
    ∃ c' fb', c.setEditLine (e.line ++ [ch]) (some fb) = .ok (c', some fb') ∧
      Tracks c₀ (e.press c.cols c.rows (.insert ch)) c' ∧ fb'.Ready := by
  obtain ⟨hch, -, hcol⟩ := hallows
  have hroom := h.room
  have hlength : (e.line ++ [ch]).length = e.line.length + 1 := List.length_append
  have hedit : e.origin % c.cols = c.editCol := by rw [← h.shows.origin, index_mod h.col_lt]
  rw [hedit] at hcol
  by_cases hlast : e.origin + e.line.length + 1 = c.cols * c.rows
  · rw [show e.press c.cols c.rows (.insert ch) = _ from if_pos hlast]
    exact h.scroll hfb h.printable hch hlast hcol
  · rw [show e.press c.cols c.rows (.insert ch) = _ from if_neg hlast]
    have hprint : ∀ a ∈ e.line ++ [ch], Printable a := by
      intro a ha
      rcases List.mem_append.mp ha with ha | ha
      · exact h.printable a ha
      · exact List.mem_singleton.mp ha ▸ hch
    obtain ⟨fb', hset, hfb'⟩ := h.setEditLine_ok hfb (by simp) hprint (by omega)
    refine ⟨_, fb', hset, h.still hprint (by omega) fun i hi hge => ?_, hfb'⟩
    exact Or.inr (h.shows.blank i hi (by omega))

theorem Tracks.getElem?_last (h : Tracks c₀ e c) (hline : e.line.getLast? = some ch) :
    c.cells[e.origin + (e.line.length - 1)]? = some ⟨ch, c.fg, c.bg⟩ := by
  have hpos : e.line ≠ [] := by
    rintro hnil
    rw [hnil] at hline
    exact nomatch hline
  have hlen := List.length_pos_iff.mpr hpos
  rw [h.shows.line _ (by omega), inked, List.getElem?_map, ← List.getLast?_eq_getElem?, hline]
  rfl

theorem Tracks.erase (h : Tracks c₀ e c) (hfb : fb.Ready) (hline : e.line ≠ [])
    (hclean : e.Clean .erase) : ∃ c' fb', c.setEditLine e.line.dropLast (some fb) =
        .ok (c', some fb') ∧ Tracks c₀ (e.press c.cols c.rows .erase) c' ∧ fb'.Ready := by
  have hroom := h.room
  have hlen := List.length_pos_iff.mpr hline
  have hdrop : e.line.dropLast.length = e.line.length - 1 := List.length_dropLast
  have hedited := h.edited
  have hchars : ¬(e.line.dropLast = [] ∧ c.editedCells = 0) := by
    rintro ⟨hnil, hzero⟩
    rw [hnil, List.length_nil] at hdrop
    split at hedited
    · next hfresh =>
      have htwo := (hclean hfresh).1
      omega
    · omega
  have hprint : ∀ a ∈ e.line.dropLast, Printable a := fun a ha =>
    h.printable a (List.mem_of_mem_dropLast ha)
  obtain ⟨fb', hset, hfb'⟩ := h.setEditLine_ok hfb hchars hprint (by omega)
  refine ⟨_, fb', hset, h.still hprint (by omega) fun i hi hge => ?_, hfb'⟩
  by_cases hi' : e.origin + e.line.length ≤ i
  · exact Or.inr (h.shows.blank i hi hi')
  have hlast : i = e.origin + (e.line.length - 1) := by omega
  subst hlast
  split at hedited
  · next hfresh => exact Or.inr ⟨_, h.getElem?_last (hclean hfresh).2, Or.inl rfl⟩
  · exact Or.inl (by omega)

theorem Tracks.press (h : Tracks c₀ e c) (hfb : fb.Ready) {k : Key}
    (hallows : e.Allows c₀.cols c₀.rows k) (hclean : e.Clean k) :
    ∃ c' fb', c.setEditLine (e.press c₀.cols c₀.rows k).line (some fb) = .ok (c', some fb') ∧
      Tracks c₀ (e.press c₀.cols c₀.rows k) c' ∧ fb'.Ready := by
  rw [← h.shows.geometry.1, ← h.shows.geometry.2] at hallows ⊢
  cases k with
  | insert ch =>
    have hline : (e.press c.cols c.rows (.insert ch)).line = e.line ++ [ch] := by
      rw [Edit.press]
      split <;> rfl
    rw [hline]
    exact h.insert hfb hallows
  | erase => exact h.erase hfb hallows hclean

theorem Tracks.setEditLine_nil (h : Tracks c₀ e c) (hedited : c.editedCells = 0)
    (fb : Option FrameBuffer) : c.setEditLine [] fb = .ok (c, fb) := by
  have horigin := h.shows.origin
  have hroom := h.room
  exact h.sized.setEditLine_nil (by omega) hedited fb

theorem Tracks.not_shows (h : Tracks c₀ e c) (hfb : fb.Ready) (hline : e.line ≠ [])
    (hclean : ¬e.Clean .erase) (hset : c.setEditLine e.line.dropLast (some fb) = .ok d) :
    ¬Shows c₀ (e.press c.cols c.rows .erase) d.1 := by
  intro hshows
  have hcols := h.sized.cols_pos
  have hroom := h.room
  have hlen := List.length_pos_iff.mpr hline
  have hdrop : e.line.dropLast.length = e.line.length - 1 := List.length_dropLast
  simp only [Edit.Clean, Classical.not_imp, not_and] at hclean
  obtain ⟨hfresh, hclean⟩ := hclean
  have hedited : c.editedCells = e.line.length - c.cols := by rw [h.edited, if_pos hfresh]
  by_cases hone : e.line.length = 1
  · -- the call returns at once, with the cursor still after the character
    have hnil : e.line.dropLast = [] := List.length_eq_zero_iff.mp (by omega)
    rw [hnil, h.setEditLine_nil (by omega)] at hset
    simp only [Except.ok.injEq] at hset
    subst hset
    have hbefore := h.shows.cursor.2
    have hafter : c.cursorRow * c.cols + c.cursorCol = e.origin + e.line.dropLast.length :=
      hshows.cursor.2
    omega
  · -- the last character is not blanked
    obtain ⟨ch, hch⟩ : ∃ ch, e.line.getLast? = some ch := ⟨_, List.getLast?_eq_some_getLast hline⟩
    have hspace : ch ≠ ' ' := by
      rintro rfl
      exact hclean (by omega) hch
    have hprint : ∀ a ∈ e.line.dropLast, Printable a := fun a ha =>
      h.printable a (List.mem_of_mem_dropLast ha)
    have hne : e.line.dropLast ≠ [] := List.ne_nil_of_length_pos (by omega)
    obtain ⟨fb', hset', -⟩ := h.setEditLine_ok hfb (fun hnil => hne hnil.1) hprint (by omega)
    rw [hset'] at hset
    simp only [Except.ok.injEq] at hset
    subst hset
    obtain ⟨cell, hcell, hblank⟩ := hshows.blank (e.origin + (e.line.length - 1))
      (show e.origin + (e.line.length - 1) < c.cols * c.rows by omega)
      (show e.origin + e.line.dropLast.length ≤ e.origin + (e.line.length - 1) by omega)
    have hroom' : e.origin + e.line.dropLast.length ≤ c.cols * c.rows := by omega
    have hget := h.getElem?_lineGrid hroom' (e.origin + (e.line.length - 1))
    rw [if_neg (by omega), h.getElem?_editGrid, if_neg (by omega), h.getElem?_last hch] at hget
    obtain rfl : (⟨ch, c.fg, c.bg⟩ : Cell) = cell := Option.some.inj (hget.symm.trans hcell)
    rcases hblank with heq | heq
    · exact hspace (congrArg Cell.glyph heq)
    · exact hspace (congrArg Cell.glyph heq)

theorem Tracks.allShown_iff (h : Tracks c₀ e c) (hfb : fb.Ready)
    (hallow : e.AllAllow c₀.cols c₀.rows keys) :
    AllShown c₀ e (c, some fb) keys ↔ e.AllClean c₀.cols c₀.rows keys := by
  induction keys generalizing e c fb with
  | nil => exact Iff.rfl
  | cons k keys ih =>
    obtain ⟨hk, hkeys⟩ := hallow
    by_cases hclean : e.Clean k
    · obtain ⟨c', fb', hset, htracks, hfb'⟩ := h.press hfb hk hclean
      have hrest := ih htracks hfb' hkeys
      constructor
      · rintro ⟨d', hset', -, hall⟩
        rw [hset] at hset'
        simp only [Except.ok.injEq] at hset'
        exact ⟨hclean, hrest.mp (hset' ▸ hall)⟩
      · rintro ⟨-, hall⟩
        exact ⟨_, hset, htracks.shows, hrest.mpr hall⟩
    · refine ⟨fun ⟨d', hset, hshows, _⟩ => ?_, fun hall => absurd hall.1 hclean⟩
      cases k with
      | insert ch => exact absurd trivial hclean
      | erase =>
        rw [← h.shows.geometry.1, ← h.shows.geometry.2] at hshows
        exact absurd hshows (h.not_shows hfb hk hclean hset)

def startEdit (c : Console) : Edit := ⟨c.cursorRow * c.cols + c.cursorCol, [], false⟩

theorem Tracks.of_beginEdit (h : Sized c) (hcursor : c.cursorRow < c.rows ∧ c.cursorCol < c.cols)
    (hblank : ∀ i < c.cols * c.rows, c.cursorRow * c.cols + c.cursorCol ≤ i →
      ∃ cell, c.cells[i]? = some cell ∧ Blank c cell) : Tracks c (startEdit c) c.beginEdit where
  sized := ⟨h.cols_pos, h.rows_pos, h.area_le, h.length⟩
  shows :=
    { geometry := ⟨rfl, rfl⟩
      origin := rfl
      line := fun _ hi => absurd hi (Nat.not_lt_zero _)
      blank := hblank
      cursor := ⟨hcursor.2, rfl⟩
      before := fun i _ => by rw [startEdit, Nat.sub_self, Nat.add_zero]; rfl }
  row_lt := hcursor.1
  col_lt := hcursor.2
  room := index_lt hcursor.1 hcursor.2
  origin_le := le_rfl
  edited := rfl
  printable := fun _ hch => absurd hch List.not_mem_nil

/-- After every key the line is shown, with blanks after it and nothing else changed, exactly
when each erase right after a scroll takes off a space that is not the first character. -/
theorem edit_line_shown_iff {layout : FrameLayout}
    (hlayout : FrameBuffer.fromLayout layout = .ok (.ok fb)) (hnarrow : fb.Narrow) (h : Sized c)
    (hcursor : c.cursorRow < c.rows ∧ c.cursorCol < c.cols)
    (hblank : ∀ i < c.cols * c.rows, c.cursorRow * c.cols + c.cursorCol ≤ i →
      ∃ cell, c.cells[i]? = some cell ∧ Blank c cell)
    (hallow : (startEdit c).AllAllow c.cols c.rows keys) :
    AllShown c (startEdit c) (c.beginEdit, some fb) keys ↔
      (startEdit c).AllClean c.cols c.rows keys :=
  (Tracks.of_beginEdit h hcursor hblank).allShown_iff
    ⟨FrameBuffer.Valid.of_fromLayout hlayout, hnarrow⟩ hallow

def newAt (cols rows row col : Nat) : Console :=
  { new with cols := cols, rows := rows, cursorRow := row, cursorCol := col }

theorem sized_newAt {cols rows : Nat} (hcols : 0 < cols) (hrows : 0 < rows)
    (harea : cols * rows ≤ cellCount) (row col : Nat) : Sized (newAt cols rows row col) :=
  ⟨hcols, hrows, harea, List.length_replicate⟩

theorem blank_newAt {cols rows : Nat} (harea : cols * rows ≤ cellCount) (row col : Nat) (i : Nat)
    (hi : i < cols * rows) :
    ∃ cell, (newAt cols rows row col).cells[i]? = some cell ∧
      Blank (newAt cols rows row col) cell :=
  ⟨_, List.getElem?_replicate_of_lt (hi.trans_le harea), Or.inl rfl⟩

theorem edit_line_shown_iff_typed : ∃ fb,
    FrameBuffer.fromLayout (.screen 64 32 256) = .ok (.ok fb) ∧
    (AllShown (newAt 8 2 0 3) (startEdit (newAt 8 2 0 3)) ((newAt 8 2 0 3).beginEdit, some fb)
        [.insert 'a', .erase] ↔
      (startEdit (newAt 8 2 0 3)).AllClean 8 2 [.insert 'a', .erase]) := by
  have hlayout : FrameBuffer.fromLayout (.screen 64 32 256) = .ok (.ok _) := rfl
  refine ⟨_, hlayout, edit_line_shown_iff hlayout ⟨by decide, by decide, by decide⟩
    (sized_newAt (by decide) (by decide) (by decide) 0 3) ⟨by decide, by decide⟩
    (fun i hi _ => blank_newAt (by decide) 0 3 i hi) ?_⟩
  exact ⟨⟨⟨by decide, by decide, by decide⟩, by decide, by decide⟩, List.cons_ne_nil 'a' [],
    trivial⟩

theorem erase_after_scroll_not_shown : ∃ fb,
    FrameBuffer.fromLayout (.screen 16 32 64) = .ok (.ok fb) ∧
    (startEdit (newAt 2 2 1 1)).AllAllow 2 2 [.insert 'a', .erase] ∧
    ¬AllShown (newAt 2 2 1 1) (startEdit (newAt 2 2 1 1)) ((newAt 2 2 1 1).beginEdit, some fb)
      [.insert 'a', .erase] := by
  have hlayout : FrameBuffer.fromLayout (.screen 16 32 64) = .ok (.ok _) := rfl
  have hallow : (startEdit (newAt 2 2 1 1)).AllAllow 2 2 [.insert 'a', .erase] :=
    ⟨⟨⟨by decide, by decide, by decide⟩, by decide, by decide⟩, List.cons_ne_nil 'a' [], trivial⟩
  have hsized : Sized (newAt 2 2 1 1) := sized_newAt (by decide) (by decide) (by decide) 1 1
  have htracks := Tracks.of_beginEdit hsized ⟨by decide, by decide⟩
    (fun i hi _ => blank_newAt (by decide) 1 1 i hi)
  refine ⟨_, hlayout, hallow, fun hall => ?_⟩
  obtain ⟨-, hclean, -⟩ := (htracks.allShown_iff
    ⟨FrameBuffer.Valid.of_fromLayout hlayout, by decide, by decide, by decide⟩ hallow).mp hall
  exact absurd (hclean rfl).1 (by decide)

end FerricK.Console
