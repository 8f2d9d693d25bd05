import FerricK.Console.Render

namespace FerricK.Console

open Rust

inductive Op
  | putText (s : List Char)
  | beginEdit
  | setEditLine (chars : List Char)
  | endEdit
  | clearScreen
  | panicGrid (lines : List (List Char)) (fg bg : Rgb)

def step : Op → Display → Rust Display
  | .putText s, (c, fb) => do return (← c.putText s, fb)
  | .beginEdit, (c, fb) => .ok (c.beginEdit, fb)
  | .setEditLine chars, (c, fb) => c.setEditLine chars fb
  | .endEdit, (c, fb) => .ok (c.endEdit, fb)
  | .clearScreen, (c, fb) => c.clearScreen fb
  | .panicGrid lines fg bg, (c, fb) => do return (← c.panicGrid lines fg bg, fb)

def Op.chars : Op → List Char
  | .putText s => s
  | .setEditLine chars => chars
  | .panicGrid lines _ _ => lines.flatMap (· ++ ['\n'])
  | _ => []

def run (fb : FrameBuffer) (ops : List Op) : Rust Display := do
  forEach ops step (← new.setGeometry fb.width fb.height, some fb)

/-- No operation panics, in any order, as long as each puts fewer characters than a `u32` counts. -/
def NeverPanics (fb : FrameBuffer) : Prop :=
  ∀ ops : List Op, (∀ op ∈ ops, op.chars.length < 2 ^ 32) → ∃ d, run fb ops = .ok d

def GridFits (fb : FrameBuffer) : Prop :=
  ∀ c, new.setGeometry fb.width fb.height = .ok c → c.cols ≠ 0 → c.rows ≠ 0 →
    (TextGrid.new c.cells c.cols c.rows).isSome

structure Fits (c : Console) (count : Nat) (g : TextGrid) : Prop where
  valid : g.Valid
  cols : g.cols = c.cols
  rows : g.rows = c.rows
  length : g.cells.length = cellCount
  count_le : g.scrollCount ≤ count

structure Kept (c : Console) : Prop where
  sized : Sized c
  room : c.cols * c.rows < cellCount
  cursor_row : c.cursorRow < c.rows
  cursor_col : c.cursorCol ≤ c.cols
  edit_row : c.editRow < c.rows
  edit_col : c.editCol ≤ c.cols
  edited_le : c.editedCells ≤ c.cols * c.rows

variable {c : Console} {fb : FrameBuffer} {g : TextGrid} {fg bg : Rgb} {ch : Char} {s : List Char}
  {count : Nat}

theorem Sized.fits_freshGrid (h : Sized c) : Fits c 0 c.freshGrid :=
  ⟨h.valid_freshGrid, rfl, rfl, h.length, le_rfl⟩

theorem Fits.setCursor (h : Fits c count g) (row col : Nat) : Fits c count (g.setCursor row col) :=
  ⟨h.valid.setCursor row col, h.cols, h.rows, h.length, h.count_le⟩

theorem Fits.clear (h : Fits c count g) (fg bg : Rgb) : Fits c 0 (g.clear fg bg) :=
  ⟨h.valid.clear fg bg, h.cols, h.rows,
    by simpa [TextGrid.clear, TextGrid.clearDefaults] using h.length, le_rfl⟩

theorem Fits.mono (h : Fits c count g) (hle : count ≤ count') : Fits c count' g :=
  ⟨h.valid, h.cols, h.rows, h.length, h.count_le.trans hle⟩

theorem Fits.linefeed (h : Fits c count g) (hcount : count + 1 < 2 ^ 32) :
    ∃ g', g.linefeed = .ok g' ∧ Fits c (count + 1) g' := by
  have hle := h.count_le
  rw [h.valid.linefeed_eq]
  split
  · next hlt =>
    refine ⟨_, rfl, ⟨h.valid.cols_pos, h.valid.rows_pos, h.valid.area_lt, h.valid.area_le, hlt,
      Nat.zero_le _, h.valid.scroll_lt⟩, h.cols, h.rows, h.length, ?_⟩
    simp only
    omega
  · have hvalid := h.valid.home
    have hscroll : g.scrollCount + 1 < 2 ^ 32 := by omega
    refine ⟨_, hvalid.scrollUp_eq hscroll, hvalid.scrolled hscroll, h.cols, h.rows,
      hvalid.length_scrolled.trans h.length, ?_⟩
    simp only
    omega

theorem Fits.setCells {cells : List Cell} (h : Fits c count g)
    (hlen : cells.length = g.cells.length) : Fits c count { g with cells := cells } :=
  ⟨h.valid.setCells hlen, h.cols, h.rows, hlen.trans h.length, h.count_le⟩

theorem Fits.setCol (h : Fits c count g) {col : Nat} (hcol : col ≤ g.cols) :
    Fits c count { g with col := col } :=
  ⟨⟨h.valid.cols_pos, h.valid.rows_pos, h.valid.area_lt, h.valid.area_le, h.valid.row_lt, hcol,
    h.valid.scroll_lt⟩, h.cols, h.rows, h.length, h.count_le⟩

theorem Fits.cursor_le (h : Fits c count g) : g.row * g.cols + g.col ≤ c.cols * c.rows := by
  rw [← h.cols, ← h.rows]
  exact TextGrid.index_le h.valid.row_lt h.valid.col_le

theorem Fits.put (h : Fits c count g) (hroom : c.cols * c.rows < cellCount)
    (hcount : count + 1 < 2 ^ 32) (ch : Char) (fg bg : Rgb) :
    ∃ g', g.put ch fg bg = .ok g' ∧ Fits c (count + 1) g' := by
  have hcol := h.valid.col_le
  have hdims := h.valid.dims
  have hcells : cellCount = 32768 := rfl
  have hcursor := h.cursor_le
  have hlen := h.length
  by_cases ht : ch = '\t'
  · have hstop := TextGrid.tab_stop g.col
    rw [ht, TextGrid.put_tab (by omega)]
    exact ⟨_, rfl, (h.setCol (Nat.min_le_right ..)).mono (by omega)⟩
  unfold TextGrid.put
  split
  · exact h.linefeed hcount
  split
  · exact ⟨_, rfl, (h.setCol (Nat.zero_le _)).mono (by omega)⟩
  · rw [TextGrid.storeAt, h.valid.index_eq h.valid.row_lt hcol, ok_bind, store_of_lt (by omega),
      ok_bind, pure_eq_ok, ok_bind, TextGrid.advance, uadd_of_lt (by simp only; omega), ok_bind]
    have hset : Fits c count
        { g with cells := g.cells.set (g.row * g.cols + g.col) ⟨ch, fg, bg⟩ } :=
      h.setCells List.length_set
    simp only
    split
    -- `linefeed` does not look at the column
    · exact (hset.setCol (Nat.zero_le _)).linefeed hcount
    · exact ⟨_, rfl, (hset.setCol (by simp only; omega)).mono (by omega)⟩

theorem Fits.putChars (h : Fits c count g) (hroom : c.cols * c.rows < cellCount)
    (hcount : count + s.length < 2 ^ 32) (fg bg : Rgb) :
    ∃ g', putChars s fg bg g = .ok g' ∧ Fits c (count + s.length) g' := by
  induction s generalizing g count with
  | nil => exact ⟨g, rfl, h⟩
  | cons ch s ih =>
    rw [List.length_cons] at hcount ⊢
    obtain ⟨g₁, hg₁, hfits⟩ := h.put hroom (by omega) ch fg bg
    obtain ⟨g₂, hg₂, hfits'⟩ := ih hfits (by omega)
    exact ⟨g₂, by rw [Console.putChars, forEach_cons, hg₁, ok_bind]; exact hg₂,
      hfits'.mono (by omega)⟩

theorem Fits.putLines {lines : List (List Char)} (h : Fits c count g)
    (hroom : c.cols * c.rows < cellCount)
    (hcount : count + (lines.flatMap (· ++ ['\n'])).length < 2 ^ 32) (fg bg : Rgb) :
    ∃ g', forEach lines (fun line g => do (← Console.putChars line fg bg g).put '\n' fg bg) g =
        .ok g' ∧
      Fits c (count + (lines.flatMap (· ++ ['\n'])).length) g' := by
  induction lines generalizing g count with
  | nil => exact ⟨g, rfl, h⟩
  | cons line lines ih =>
    simp only [List.flatMap_cons, List.length_append, List.length_singleton] at hcount ⊢
    obtain ⟨g₁, hg₁, hfits₁⟩ := h.putChars (s := line) hroom (by omega) fg bg
    obtain ⟨g₂, hg₂, hfits₂⟩ := hfits₁.put hroom (by omega) '\n' fg bg
    obtain ⟨g₃, hg₃, hfits₃⟩ := ih hfits₂ (by omega)
    refine ⟨g₃, ?_, hfits₃.mono (by omega)⟩
    rw [forEach_cons, hg₁, ok_bind, hg₂, ok_bind, hg₃]

theorem Fits.setCell (h : Fits c count g) (row col : Nat) (value : Cell) :
    ∃ g', g.setCell row col value = .ok g' ∧ Fits c count g' := by
  unfold TextGrid.setCell
  split
  · next hin => exact ⟨_, h.valid.storeAt_eq hin.1 hin.2 value, h.setCells List.length_set⟩
  · exact ⟨g, rfl, h⟩

theorem Fits.blankEdited {origin left off : Nat} (h : Fits c count g) (total cols : Nat)
    (blank : Cell) (hlt : origin + off + left < 2 ^ 64) :
    ∃ g', blankEdited origin total cols blank left off g = .ok g' ∧ Fits c count g' := by
  induction left generalizing off g with
  | zero => exact ⟨g, rfl, h⟩
  | succ left ih =>
    rw [Console.blankEdited, uadd_of_lt (by omega), ok_bind]
    split
    · exact ⟨g, rfl, h⟩
    · obtain ⟨g₁, hg₁, hfits⟩ := h.setCell ((origin + off) / cols) ((origin + off) % cols) blank
      rw [hg₁, ok_bind]
      exact ih hfits (by omega)

theorem Kept.takeGrid (h : Kept c) (hg : Fits c count g) :
    Kept { c with cells := g.cells, cursorRow := g.row, cursorCol := g.col } :=
  ⟨⟨h.sized.cols_pos, h.sized.rows_pos, h.sized.area_le, hg.length⟩, h.room,
    hg.valid.row_lt.trans_eq hg.rows, hg.valid.col_le.trans_eq hg.cols, h.edit_row, h.edit_col,
    h.edited_le⟩

theorem Kept.putText_ok (h : Kept c) (hs : s.length < 2 ^ 32) :
    ∃ c', c.putText s = .ok c' ∧ Kept c' := by
  have hcols := h.sized.cols_pos
  have hrows := h.sized.rows_pos
  have hfits := h.sized.fits_freshGrid.setCursor c.cursorRow c.cursorCol
  obtain ⟨g, hg, hput⟩ := hfits.putChars (s := s) h.room (by omega) c.fg c.bg
  refine ⟨_, ?_, h.takeGrid hput⟩
  rw [putText, if_neg (by omega), h.sized.grid_eq, ok_bind]
  simp only [hg, ok_bind, pure_eq_ok]

theorem Kept.beginEdit (h : Kept c) : Kept c.beginEdit :=
  ⟨⟨h.sized.cols_pos, h.sized.rows_pos, h.sized.area_le, h.sized.length⟩, h.room, h.cursor_row,
    h.cursor_col, h.cursor_row, h.cursor_col, Nat.zero_le _⟩

theorem Kept.setEdited (h : Kept c) {n : Nat} (hn : n ≤ c.cols * c.rows) :
    Kept { c with editedCells := n } :=
  ⟨⟨h.sized.cols_pos, h.sized.rows_pos, h.sized.area_le, h.sized.length⟩, h.room, h.cursor_row,
    h.cursor_col, h.edit_row, h.edit_col, hn⟩

theorem Kept.setEditRow (h : Kept c) {row : Nat} (hrow : row < c.rows) :
    Kept { c with editRow := row } :=
  ⟨⟨h.sized.cols_pos, h.sized.rows_pos, h.sized.area_le, h.sized.length⟩, h.room, h.cursor_row,
    h.cursor_col, hrow, h.edit_col, h.edited_le⟩

theorem Kept.clearScreen_ok (h : Kept c) (hfb : fb.Ready) :
    ∃ c' fb', c.clearScreen (some fb) = .ok (c', some fb') ∧ Kept c' ∧ fb'.Ready := by
  have hcols := h.sized.cols_pos
  have hrows := h.sized.rows_pos
  have hfits := h.sized.fits_freshGrid.clear c.fg c.bg
  let cleared : Console := { c with
    cells := (c.freshGrid.clear c.fg c.bg).cells, cursorRow := 0, cursorCol := 0, editedCells := 0 }
  have hkept : Kept cleared := (h.takeGrid hfits).setEdited (Nat.zero_le _)
  obtain ⟨fb', hrender, hfb'⟩ := hkept.sized.render_ok hfb
  refine ⟨cleared, fb', ?_, hkept, hfb'⟩
  rw [clearScreen, if_neg (by omega), h.sized.grid_eq, ok_bind]
  simp only
  rw [hrender, ok_bind, pure_eq_ok]

theorem Kept.panicGrid_ok {lines : List (List Char)} (h : Kept c)
    (hlines : (lines.flatMap (· ++ ['\n'])).length < 2 ^ 32) (fg bg : Rgb) :
    ∃ c', c.panicGrid lines fg bg = .ok c' ∧ Kept c' := by
  have hcols := h.sized.cols_pos
  have hrows := h.sized.rows_pos
  have hhome : Kept { c with fg := fg, bg := bg, cursorRow := 0, cursorCol := 0 } :=
    ⟨⟨hcols, hrows, h.sized.area_le, h.sized.length⟩, h.room, hrows, Nat.zero_le _, h.edit_row,
      h.edit_col, h.edited_le⟩
  have hfits := hhome.sized.fits_freshGrid.clear fg bg
  obtain ⟨g, hg, hput⟩ := hfits.putLines hhome.room
    (show 0 + (lines.flatMap (· ++ ['\n'])).length < 2 ^ 32 by omega) fg bg
  refine ⟨_, ?_, hhome.takeGrid hput⟩
  rw [panicGrid, if_neg (by omega)]
  simp only [hhome.sized.grid_eq, ok_bind, hg, pure_eq_ok]

theorem Kept.setEditLine_ok {chars : List Char} (h : Kept c) (hfb : fb.Ready)
    (hchars : chars.length < 2 ^ 32) :
    ∃ c' fb', c.setEditLine chars (some fb) = .ok (c', some fb') ∧ Kept c' ∧ fb'.Ready := by
  have hcells : cellCount = 32768 := rfl
  have hroom := h.room
  have hedited := h.edited_le
  have horigin := TextGrid.index_le h.edit_row h.edit_col
  rw [h.sized.setEditLine_eq horigin]
  split
  · exact ⟨c, fb, rfl, h, hfb⟩
  obtain ⟨g₁, hg₁, hfits₁⟩ := h.sized.fits_freshGrid.blankEdited (c.rows * c.cols) c.cols
    (Cell.blank c.fg c.bg)
    (show c.editRow * c.cols + c.editCol + 0 + c.editedCells < 2 ^ 64 by omega)
  obtain ⟨g, hg, hfits⟩ := (hfits₁.setCursor c.editRow c.editCol).putChars (s := chars) h.room
    (by omega) c.fg c.bg
  have hcursor := hfits.cursor_le
  rw [hfits.cols] at hcursor
  rw [hg₁, ok_bind, hg, ok_bind]
  obtain ⟨fb', hfinish, hfb'⟩ := h.sized.finishEdit_ok hfb hfits.length hcursor horigin hedited
  have hkept : Kept (c.edited (c.editRow * c.cols + c.editCol) g) :=
    ((h.takeGrid hfits).setEdited ((Nat.sub_le ..).trans hcursor)).setEditRow
      ((Nat.sub_le ..).trans_lt h.edit_row)
  exact ⟨_, fb', hfinish, hkept, hfb'⟩

theorem Kept.step_ok {op : Op} (h : Kept c) (hfb : fb.Ready) (hop : op.chars.length < 2 ^ 32) :
    ∃ c' fb', step op (c, some fb) = .ok (c', some fb') ∧ Kept c' ∧ fb'.Ready := by
  cases op with
  | putText s =>
    obtain ⟨c', hc', hkept⟩ := h.putText_ok (s := s) hop
    exact ⟨c', fb, by rw [step, hc']; rfl, hkept, hfb⟩
  | beginEdit => exact ⟨_, fb, rfl, h.beginEdit, hfb⟩
  | setEditLine chars => exact h.setEditLine_ok hfb hop
  | endEdit => exact ⟨_, fb, rfl, h.setEdited (Nat.zero_le _), hfb⟩
  | clearScreen => exact h.clearScreen_ok hfb
  | panicGrid lines fg bg =>
    obtain ⟨c', hc', hkept⟩ := h.panicGrid_ok hop fg bg
    exact ⟨c', fb, by rw [step, hc']; rfl, hkept, hfb⟩

theorem step_idle {d : Display} (op : Op) (h : d.1.cols = 0 ∨ d.1.rows = 0) :
    ∃ d', step op d = .ok d' ∧ (d'.1.cols = 0 ∨ d'.1.rows = 0) := by
  obtain ⟨c, fb⟩ := d
  cases op with
  | putText s => exact ⟨(c, fb), by rw [step, putText, if_pos h]; rfl, h⟩
  | beginEdit => exact ⟨_, rfl, h⟩
  | setEditLine chars => exact ⟨(c, fb), if_pos h, h⟩
  | endEdit => exact ⟨_, rfl, h⟩
  | clearScreen => exact ⟨(c, fb), if_pos h, h⟩
  | panicGrid lines fg bg => exact ⟨(c, fb), by rw [step, panicGrid, if_pos h]; rfl, h⟩

theorem setGeometry_eq (c : Console) (w h : Nat) :
    c.setGeometry w h = .ok { c with cols := w / 8, rows := h / 16 } := by
  obtain ⟨font, hparse, hfont⟩ := parseFont_eq
  rw [setGeometry, hparse, ok_bind, hfont.width, udiv_of_pos (by omega), ok_bind, hfont.height,
    udiv_of_pos (by omega), ok_bind, pure_eq_ok]

theorem new_sized {w h : Nat} (hcols : 0 < w / 8) (hrows : 0 < h / 16)
    (harea : w / 8 * (h / 16) ≤ cellCount) :
    Sized { new with cols := w / 8, rows := h / 16 } :=
  ⟨hcols, hrows, harea, List.length_replicate⟩

theorem neverPanics_of_lt (hfb : fb.Ready) (hcols : 0 < fb.width / 8) (hrows : 0 < fb.height / 16)
    (harea : fb.width / 8 * (fb.height / 16) < cellCount) : NeverPanics fb := by
  intro ops hops
  have hkept : Kept { new with cols := fb.width / 8, rows := fb.height / 16 } :=
    ⟨new_sized hcols hrows harea.le, harea, hrows, Nat.zero_le _, hrows, Nat.zero_le _,
      Nat.zero_le _⟩
  rw [run, setGeometry_eq, ok_bind]
  have hrun := forEach_rule (fun d : Display => Kept d.1 ∧ ∃ fb, d.2 = some fb ∧ fb.Ready)
    (f := step) (l := ops)
    (s := ({ new with cols := fb.width / 8, rows := fb.height / 16 }, some fb))
    ⟨hkept, fb, rfl, hfb⟩ ?_
  · exact hrun.imp fun _ => And.left
  · rintro op hop ⟨c, _⟩ ⟨hc, fb, rfl, hfb⟩
    obtain ⟨c', fb', hstep, hc', hfb'⟩ := hc.step_ok hfb (hops op hop)
    exact ⟨(c', some fb'), hstep, hc', fb', rfl, hfb'⟩

theorem neverPanics_of_idle (h : fb.width / 8 = 0 ∨ fb.height / 16 = 0) : NeverPanics fb := by
  intro ops _
  rw [run, setGeometry_eq, ok_bind]
  refine (forEach_rule (fun d : Display => d.1.cols = 0 ∨ d.1.rows = 0) h ?_).imp fun _ => And.left
  exact fun op _ d hd => step_idle op hd

theorem putChars_newlines (h : g.Valid) (hcol : g.col = 0) (n : Nat) (hn : g.row + n < g.rows)
    (fg bg : Rgb) : putChars (List.replicate n '\n') fg bg g = .ok { g with row := g.row + n } := by
  induction n generalizing g with
  | zero => rfl
  | succ n ih =>
    have hnext : g.put '\n' fg bg = .ok { g with row := g.row + 1, col := 0 } := by
      rw [TextGrid.put, if_pos rfl, h.linefeed_eq, if_pos (by omega)]
    have hvalid : TextGrid.Valid { g with row := g.row + 1, col := 0 } :=
      ⟨h.cols_pos, h.rows_pos, h.area_lt, h.area_le, by simp only; omega, Nat.zero_le _,
        h.scroll_lt⟩
    have hrest := ih hvalid rfl (by simp only; omega)
    rw [putChars] at hrest
    rw [putChars, List.replicate_succ, forEach_cons, hnext, ok_bind, hrest, ← hcol,
      Nat.add_assoc, Nat.add_comm 1]

theorem putChars_tabs (hcol : g.col ≤ g.cols) (hcols : g.cols < 2 ^ 31) (n : Nat) (fg bg : Rgb) :
    ∃ col, putChars (List.replicate n '\t') fg bg g = .ok { g with col := col } ∧
      min (g.col + n) g.cols ≤ col ∧ col ≤ g.cols := by
  induction n generalizing g with
  | zero => exact ⟨g.col, rfl, Nat.min_le_left .., hcol⟩
  | succ n ih =>
    have hstop := TextGrid.tab_stop g.col
    obtain ⟨col, hput, hle, hlast⟩ := ih
      (g := { g with col := min ((g.col / tabWidth + 1) * tabWidth) g.cols })
      (Nat.min_le_right ..) hcols
    refine ⟨col, ?_, ?_, hlast⟩
    · rw [putChars, List.replicate_succ, forEach_cons, TextGrid.put_tab (by omega), ok_bind]
      exact hput
    · simp only at hle
      omega

theorem putText_full (h : Sized c) (hfull : c.cols * c.rows = cellCount)
    (hrow : c.cursorRow = 0) (hcol : c.cursorCol = 0) :
    c.putText (List.replicate (c.rows - 1) '\n' ++ List.replicate c.cols '\t' ++ ['x']) =
      .error .bounds := by
  have hcols := h.cols_pos
  have hrows := h.rows_pos
  have hdims := h.dims
  have hcells : cellCount = 32768 := rfl
  have hfresh := h.fits_freshGrid
  have hhome : c.freshGrid.setCursor c.cursorRow c.cursorCol = c.freshGrid := by
    rw [TextGrid.setCursor, hrow, hcol, Nat.zero_min, Nat.zero_min]
    rfl
  have hlines := putChars_newlines hfresh.valid rfl (c.rows - 1)
    (by simp only [freshGrid]; omega) c.fg c.bg
  obtain ⟨col, htabs, hle, hlast⟩ := putChars_tabs
    (g := { c.freshGrid with row := c.freshGrid.row + (c.rows - 1) }) (Nat.zero_le _)
    (by simp only [freshGrid]; omega) c.cols c.fg c.bg
  have hlast : col = c.cols := by
    simp only [freshGrid] at hle hlast
    omega
  subst hlast
  have harea : (c.rows - 1) * c.cols + c.cols = c.cols * c.rows := hfresh.valid.area
  have hput : TextGrid.put
      { c.freshGrid with row := c.freshGrid.row + (c.rows - 1), col := c.cols } 'x' c.fg c.bg =
      .error .bounds := by
    rw [TextGrid.put, if_neg (by decide), if_neg (by decide), if_neg (by decide), TextGrid.storeAt,
      TextGrid.index]
    simp only [freshGrid, Nat.zero_add]
    rw [umul_of_lt (by omega), ok_bind, uadd_of_lt (by omega), ok_bind, store,
      if_neg (by rw [h.length]; omega), error_bind, error_bind]
  rw [putChars] at hlines htabs
  rw [putText, if_neg (by omega), h.grid_eq, ok_bind]
  simp only [hhome]
  rw [putChars, List.append_assoc, forEach_append, hlines, ok_bind, forEach_append, htabs, ok_bind,
    forEach_cons, hput, error_bind, error_bind]

theorem render_error {cell : Cell} {e : Stop} (h : Sized c) (hcell : c.cells[0]? = some cell)
    (he : fb.encode cell.fg = .error e) : c.render fb = .error e := by
  have hcols := h.cols_pos
  have hrows := h.rows_pos
  obtain ⟨font, hparse, hfont⟩ := parseFont_eq
  obtain ⟨glyph, hglyph⟩ := hfont.safe.lookup cell.glyph
  have hblit : c.blitCell font 0 0 fb = .error e := by
    rw [blitCell, umul_of_lt (by omega), ok_bind, uadd_of_lt (by omega), ok_bind, Nat.zero_mul,
      index_eq_ok.mpr hcell, ok_bind, hglyph, ok_bind, he, error_bind]
  rw [render, if_neg (by omega), hparse, ok_bind]
  exact forRange_error hrows (forRange_error hcols hblit)

theorem gridFits_iff : GridFits fb ↔ fb.width / 8 = 0 ∨ fb.height / 16 = 0 ∨
    fb.width / 8 * (fb.height / 16) ≤ cellCount := by
  have hcells : cellCount = 32768 := rfl
  simp only [GridFits, setGeometry_eq, Except.ok.injEq, forall_eq', Option.isSome_iff_exists,
    TextGrid.new_eq_some]
  simp only [new, List.length_replicate]
  constructor
  · intro hfits
    by_cases hcols : fb.width / 8 = 0
    · exact Or.inl hcols
    by_cases hrows : fb.height / 16 = 0
    · exact Or.inr (Or.inl hrows)
    obtain ⟨g, -, ⟨-, -, hle⟩, -⟩ := hfits hcols hrows
    exact Or.inr (Or.inr hle)
  · intro hle hcols hrows
    exact ⟨_, by omega, ⟨by omega, by omega, by omega⟩, rfl⟩

theorem run_single (op : Op) : run fb [op] =
    step op ({ new with cols := fb.width / 8, rows := fb.height / 16 }, some fb) := by
  rw [run, setGeometry_eq, ok_bind, forEach_cons]
  cases step op ({ new with cols := fb.width / 8, rows := fb.height / 16 }, some fb) with
  | error e => rfl
  | ok d => rfl

theorem grid_error (hbig : c.cells.length < c.cols * c.rows) :
    c.grid = .error (.expect "console geometry must fit the cell buffer") := by
  have hnew : TextGrid.new c.cells c.cols c.rows = none := by
    by_contra hsome
    obtain ⟨g, hg⟩ := Option.ne_none_iff_exists'.mp hsome
    exact absurd (TextGrid.new_eq_some.mp hg).2.1.2.2 (by omega)
  rw [grid, hnew]
  rfl

theorem clearScreen_error {e : Stop} (h : Sized c) (he : fb.encode c.fg = .error e) :
    c.clearScreen (some fb) = .error e := by
  have hcols := h.cols_pos
  have hrows := h.rows_pos
  have hlen : 0 < c.cells.length := by rw [h.length]; decide
  let cleared : Console := { c with
    cells := (c.freshGrid.clear c.fg c.bg).cells, cursorRow := 0, cursorCol := 0, editedCells := 0 }
  have hcleared : Sized cleared :=
    ⟨hcols, hrows, h.area_le, (h.fits_freshGrid.clear c.fg c.bg).length⟩
  have hfirst : cleared.cells[0]? = some (Cell.blank c.fg c.bg) := by
    simp only [cleared, TextGrid.clear, TextGrid.clearDefaults, freshGrid, List.getElem?_map,
      List.getElem?_eq_getElem hlen, Option.map_some]
  rw [clearScreen, if_neg (by omega), h.grid_eq, ok_bind]
  simp only
  rw [render_error hcleared hfirst he, error_bind]

theorem clearScreen_returns {d : Display} (hcols : 0 < fb.width / 8) (hrows : 0 < fb.height / 16)
    (hfb : fb.Valid) (hrun : run fb [.clearScreen] = .ok d) :
    fb.width / 8 * (fb.height / 16) ≤ cellCount ∧ fb.Narrow := by
  rw [run_single, step] at hrun
  by_cases harea : fb.width / 8 * (fb.height / 16) ≤ cellCount
  · refine ⟨harea, ?_⟩
    cases hgrey : fb.encode ⟨0xC0, 0xC0, 0xC0⟩ with
    | ok w => exact hfb.narrow_of_encode hgrey
    | error e =>
      rw [clearScreen_error (new_sized hcols hrows harea) hgrey] at hrun
      exact nomatch hrun
  · rw [clearScreen, if_neg (by simp only; omega), grid_error (by simp [new]; omega)] at hrun
    exact nomatch hrun

/-- The grid fits exactly if it has no more cells than the buffer.  The operations never panic
exactly if it has fewer, so that a tab in the last row finds a cell too, and the channels are
narrow enough for every colour; or if there is no grid.  The stores are taken to be aligned, as in
`writeUnchecked`. -/
theorem never_panics_iff {layout : FrameLayout} (h : FrameBuffer.fromLayout layout = .ok (.ok fb)) :
    (GridFits fb ↔ fb.width / 8 = 0 ∨ fb.height / 16 = 0 ∨
      fb.width / 8 * (fb.height / 16) ≤ cellCount) ∧
    (NeverPanics fb ↔ fb.width / 8 = 0 ∨ fb.height / 16 = 0 ∨
      fb.width / 8 * (fb.height / 16) < cellCount ∧ fb.Narrow) := by
  have hvalid := FrameBuffer.Valid.of_fromLayout h
  refine ⟨gridFits_iff, ?_, ?_⟩
  · intro hnever
    by_cases hcols : fb.width / 8 = 0
    · exact Or.inl hcols
    by_cases hrows : fb.height / 16 = 0
    · exact Or.inr (Or.inl hrows)
    obtain ⟨d, hclear⟩ := hnever [.clearScreen] (by simp [Op.chars])
    obtain ⟨harea, hnarrow⟩ := clearScreen_returns (by omega) (by omega) hvalid hclear
    have hwidth := hvalid.width_lt
    have hheight := hvalid.height_lt
    refine Or.inr (Or.inr ⟨?_, hnarrow⟩)
    by_contra hfull
    obtain ⟨d, htext⟩ := hnever
      [.putText (List.replicate (fb.height / 16 - 1) '\n' ++ List.replicate (fb.width / 8) '\t' ++
        ['x'])] (by
          simp only [List.mem_singleton, forall_eq, Op.chars, List.length_append,
            List.length_replicate, List.length_singleton]
          omega)
    have hsized := new_sized (by omega) (by omega) harea
    rw [run_single, step, putText_full hsized (by simp only; omega) rfl rfl] at htext
    exact nomatch htext
  · rintro (hidle | hidle | ⟨harea, hnarrow⟩)
    · exact neverPanics_of_idle (Or.inl hidle)
    · exact neverPanics_of_idle (Or.inr hidle)
    · by_cases hidle : fb.width / 8 = 0 ∨ fb.height / 16 = 0
      · exact neverPanics_of_idle hidle
      · exact neverPanics_of_lt ⟨hvalid, hnarrow⟩ (by omega) (by omega) harea

theorem never_panics_iff_xga : ∃ fb,
    FrameBuffer.fromLayout (FrameLayout.screen 1024 768 4096) = .ok (.ok fb) ∧
    (GridFits fb ↔ fb.width / 8 = 0 ∨ fb.height / 16 = 0 ∨
      fb.width / 8 * (fb.height / 16) ≤ cellCount) ∧
    (NeverPanics fb ↔ fb.width / 8 = 0 ∨ fb.height / 16 = 0 ∨
      fb.width / 8 * (fb.height / 16) < cellCount ∧ fb.Narrow) := by
  have hlayout : FrameBuffer.fromLayout (FrameLayout.screen 1024 768 4096) = .ok (.ok _) := rfl
  exact ⟨_, hlayout, never_panics_iff hlayout⟩

theorem putText_too_big (hcols : 0 < fb.width / 8) (hrows : 0 < fb.height / 16)
    (hbig : cellCount < fb.width / 8 * (fb.height / 16)) (s : List Char) :
    run fb [.putText s] = .error (.expect "console geometry must fit the cell buffer") := by
  rw [run_single, step, putText, if_neg (by simp only; omega), grid_error (by simp [new]; omega)]
  rfl

theorem ultra_hd_panics : ∃ fb,
    FrameBuffer.fromLayout (FrameLayout.screen 3840 2160 15360) = .ok (.ok fb) ∧
    run fb [.putText []] = .error (.expect "console geometry must fit the cell buffer") ∧
    ¬GridFits fb ∧ ¬NeverPanics fb := by
  refine ⟨_, rfl, putText_too_big (by decide) (by decide) (by decide) [], ?_, ?_⟩
  · rw [gridFits_iff]
    decide
  · intro hnever
    obtain ⟨d, hd⟩ := hnever [.putText []] (by simp [Op.chars])
    rw [putText_too_big (by decide) (by decide) (by decide) []] at hd
    exact nomatch hd

end FerricK.Console
