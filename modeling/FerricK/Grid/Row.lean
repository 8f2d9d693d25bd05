import FerricK.Grid.Typing
import FerricK.Lib.Lists

namespace FerricK.TextGrid

open Rust

def Blank (g : TextGrid) (row col : Nat) : Prop :=
  ∃ value, g.cell row col = .ok (some value) ∧ value.glyph = ' '

/-- The row has the text in it and nothing of what it had before, the other rows are as they
were, and the character that is put next does not go over the text. -/
structure Replaced (g g' : TextGrid) (row : Nat) (s : List Char) (fg bg : Rgb) : Prop where
  text : ∀ col (hcol : col < s.length), col < g.cols →
    g'.cell row col = .ok (some ⟨s[col], fg, bg⟩)
  rest : ∀ col, s.length ≤ col → col < g.cols → g'.Blank row col
  others : ∀ r col, r ≠ row → g'.cell r col = g.cell r col
  next : ∀ c fg' bg', Printable c → ∃ stored,
    g'.storeAt g'.row g'.col ⟨c, fg', bg'⟩ = .ok stored ∧ g'.put c fg' bg' = stored.advance ∧
    ∀ col, col < s.length → col < g.cols → stored.cell row col = g'.cell row col

def written (g : TextGrid) (row : Nat) (s : List Char) (fg bg : Rgb) : TextGrid :=
  { g with cells := overwrite g.cells (row * g.cols) (inked (s.take g.cols) fg bg) }

variable {g g' : TextGrid} {s : List Char} {fg bg : Rgb} {row col k : Nat}

theorem Valid.storeAll_eq (h : Valid g) (hrow : row < g.rows) (hk : k + s.length ≤ g.cols) :
    forEach (s.zipIdx k) (fun p => TextGrid.storeAt row p.2 ⟨p.1, fg, bg⟩) g =
      .ok { g with cells := overwrite g.cells (row * g.cols + k) (inked s fg bg) } := by
  induction s generalizing g k with
  | nil => rfl
  | cons c s ih =>
    rw [List.length_cons] at hk
    have hset := h.storeAt row k ⟨c, fg, bg⟩
    have hrest := ih (k := k + 1) hset hrow (show k + 1 + s.length ≤ g.cols by omega)
    rw [List.zipIdx_cons, forEach_cons, h.storeAt_eq hrow (by omega), ok_bind, hrest]
    rfl

theorem Valid.written (h : Valid g) (row : Nat) (s : List Char) (fg bg : Rgb) :
    Valid (g.written row s fg bg) :=
  h.setCells (length_overwrite ..)

theorem Valid.cell_written (h : Valid g) (hrow : row < g.rows) (r col : Nat) :
    (g.written row s fg bg).cell r col =
      if r = row ∧ col < s.length ∧ col < g.cols then .ok (inked s fg bg)[col]?
      else g.cell r col := by
  have harea := h.area_le
  by_cases hgrid : g.rows ≤ r ∨ g.cols ≤ col
  · rw [if_neg (by omega), cell, cell]
    change (if g.rows ≤ r ∨ g.cols ≤ col then _ else _) = _
    rw [if_pos hgrid, if_pos hgrid]
  have hr : r < g.rows := by omega
  have hcol : col < g.cols := by omega
  have hlen : (inked (s.take g.cols) fg bg).length = min g.cols s.length := by
    rw [inked, List.length_map, List.length_take]
  have hroom : row * g.cols + (inked (s.take g.cols) fg bg).length ≤ g.cells.length := by
    have hle : row * g.cols + min g.cols s.length ≤ g.cols * g.rows :=
      index_le hrow (Nat.min_le_left _ _)
    omega
  rw [(h.written row s fg bg).cell_eq hr hcol, h.cell_eq hr hcol]
  change Except.ok (overwrite g.cells (row * g.cols) _)[r * g.cols + col]? = _
  rw [getElem?_overwrite hroom, hlen]
  by_cases hsame : r = row
  · subst hsame
    by_cases hin : col < s.length
    · rw [if_pos (by omega), if_pos ⟨rfl, hin, hcol⟩, Nat.add_sub_cancel_left, inked, inked,
        List.getElem?_map, List.getElem?_map, List.getElem?_take_of_lt hcol]
    · rw [if_neg (by omega), if_neg (by omega)]
  · rw [if_neg ?_, if_neg (by omega)]
    rintro ⟨hlow, hhigh⟩
    have heq : r * g.cols + col = row * g.cols + (r * g.cols + col - row * g.cols) := by omega
    exact hsame (index_inj hcol (by omega) heq).1

structure Wrote (g g' : TextGrid) (row : Nat) (s : List Char) (fg bg : Rgb) : Prop where
  valid : Valid g'
  cols_eq : g'.cols = g.cols
  row_eq : g'.row = row
  col_eq : g'.col = min (s.length % 2 ^ 32) (g.cols - 1)
  cell : ∀ r col, g'.cell r col =
    if r = row ∧ col < s.length ∧ col < g.cols then .ok (inked s fg bg)[col]? else g.cell r col

theorem Valid.setText_wrote (h : Valid g) (row : Nat) (s : List Char) (fg bg : Rgb) :
    ∃ g', g.setText row s fg bg = .ok g' ∧ Wrote g g' (min row (g.rows - 1)) s fg bg := by
  have hrows := h.rows_pos
  have hcols := h.cols_pos
  have hrow : min row (g.rows - 1) < g.rows := by omega
  have hfits : 0 + (s.take g.cols).length ≤ g.cols := by
    rw [Nat.zero_add]
    exact List.length_take_le _ _
  refine ⟨_, ?_, (h.written _ s fg bg).setCursor (min row (g.rows - 1))
    (min (s.length % 2 ^ 32) g.cols), rfl, ?_, ?_, h.cell_written hrow⟩
  · rw [TextGrid.setText, Lists.take_zipIdx, h.storeAll_eq hrow hfits, ok_bind, pure_eq_ok]
    rfl
  · change min (min row (g.rows - 1)) (g.rows - 1) = _
    omega
  · change min (min (s.length % 2 ^ 32) g.cols) (g.cols - 1) = _
    omega

theorem Wrote.length_lt (h : Wrote g g' row s fg bg) (hcols : 0 < g.cols)
    (hreplaced : Replaced g g' row s fg bg) : s.length < g.cols := by
  obtain ⟨hvalid, hcols_eq, rfl, hcol_eq, -⟩ := h
  by_contra hfull
  have hcol : g'.col < g.cols := by omega
  have hin : g'.col < s.length := by omega
  have hgrid : g'.col < g'.cols := hcols_eq ▸ hcol
  have hover : ∀ c, Printable c → c = s[g'.col] := by
    intro c hc
    obtain ⟨stored, hstore, -, hkept⟩ := hreplaced.next c fg bg hc
    rw [hvalid.storeAt_eq hvalid.row_lt hgrid] at hstore
    cases hstore
    have hcell := hkept g'.col hin hcol
    rw [hvalid.cell_set hvalid.row_lt hgrid hvalid.row_lt hgrid, if_pos ⟨rfl, rfl⟩,
      hreplaced.text g'.col hin hcol] at hcell
    simpa using hcell
  have hab : 'a' = 'b' :=
    (hover 'a' ⟨by decide, by decide, by decide⟩).trans
      (hover 'b' ⟨by decide, by decide, by decide⟩).symm
  exact absurd hab (by decide)

theorem Wrote.blank_iff (h : Wrote g g' row s fg bg) (hout : s.length ≤ col) :
    g'.Blank row col ↔ g.Blank row col := by
  rw [Blank, Blank, h.cell, if_neg (by omega)]

theorem Wrote.replaced (h : Wrote g g' row s fg bg) (hdims : g.cols < 2 ^ 32)
    (hlen : s.length < g.cols) (hblank : ∀ col, s.length ≤ col → col < g.cols → g.Blank row col) :
    Replaced g g' row s fg bg where
  text col hin hcol := by
    rw [h.cell, if_pos ⟨rfl, hin, hcol⟩, inked, List.getElem?_map, List.getElem?_eq_getElem hin,
      Option.map_some]
  rest col hout hcol := (h.blank_iff hout).mpr (hblank col hout hcol)
  others r col hr := by rw [h.cell, if_neg (fun hh => hr hh.1)]
  next c fg' bg' hc := by
    obtain ⟨hvalid, hcols_eq, rfl, hcol_eq, -⟩ := h
    rw [Nat.mod_eq_of_lt (by omega)] at hcol_eq
    have hlt : g'.col < g'.cols := by omega
    have hstore := hvalid.storeAt_eq hvalid.row_lt hlt ⟨c, fg', bg'⟩
    refine ⟨_, hstore, by rw [put_printable hc, hstore, ok_bind], fun col hin hcol => ?_⟩
    rw [hvalid.cell_set hvalid.row_lt hlt hvalid.row_lt (hcols_eq ▸ hcol), if_neg (by omega)]

/-- A text replaces a row exactly when it ends before the last column and what it does not
reach is blank. -/
theorem set_text_replaces_iff (h : Valid g) (row : Nat) (s : List Char) (fg bg : Rgb) :
    (∃ g', g.setText row s fg bg = .ok g' ∧
      Replaced g g' (min row (g.rows - 1)) s fg bg) ↔
    s.length < g.cols ∧
      ∀ col, s.length ≤ col → col < g.cols → g.Blank (min row (g.rows - 1)) col := by
  obtain ⟨g', hg', hwrote⟩ := h.setText_wrote row s fg bg
  constructor
  · rintro ⟨_, hset, hreplaced⟩
    cases hg'.symm.trans hset
    exact ⟨hwrote.length_lt h.cols_pos hreplaced, fun col hout hcol =>
      (hwrote.blank_iff hout).mp (hreplaced.rest col hout hcol)⟩
  · rintro ⟨hlen, hblank⟩
    exact ⟨g', hg', hwrote.replaced h.dims.1 hlen hblank⟩

def letters : List Cell :=
  inked "abcd    ".toList ⟨255, 255, 255⟩ ⟨0, 0, 0⟩

theorem set_text_replaces_iff_blank : ∃ g g', new letters 4 2 = some g ∧
    g.setText 9 ['h', 'i'] ⟨255, 255, 255⟩ ⟨0, 0, 0⟩ = .ok g' ∧
    Replaced g g' 1 ['h', 'i'] ⟨255, 255, 255⟩ ⟨0, 0, 0⟩ := by
  have hnew : new letters 4 2 = some _ := rfl
  have hiff := set_text_replaces_iff (Valid.of_new hnew (by decide)) 9 ['h', 'i']
    ⟨255, 255, 255⟩ ⟨0, 0, 0⟩
  obtain ⟨g', hg', hreplaced⟩ := hiff.mpr ⟨by decide, fun col hout hcol => by
    have hcases : col = 2 ∨ col = 3 := by
      change 2 ≤ col at hout
      change col < 4 at hcol
      omega
    rcases hcases with rfl | rfl <;> exact ⟨_, rfl, rfl⟩⟩
  exact ⟨_, g', hnew, hg', hreplaced⟩

/-- A short text leaves the end of the row, and a full one does not leave the cursor behind it. -/
theorem set_text_leaves_row : ∃ g, new letters 4 2 = some g ∧
    (¬ ∃ g', g.setText 0 ['x'] ⟨255, 255, 255⟩ ⟨0, 0, 0⟩ = .ok g' ∧
      Replaced g g' 0 ['x'] ⟨255, 255, 255⟩ ⟨0, 0, 0⟩) ∧
    ¬ ∃ g', g.setText 1 ['w', 'x', 'y', 'z'] ⟨255, 255, 255⟩ ⟨0, 0, 0⟩ = .ok g' ∧
      Replaced g g' 1 ['w', 'x', 'y', 'z'] ⟨255, 255, 255⟩ ⟨0, 0, 0⟩ := by
  have hnew : new letters 4 2 = some _ := rfl
  refine ⟨_, hnew, ?_, ?_⟩
  · rintro ⟨g', hg', hreplaced⟩
    cases hg'
    obtain ⟨value, hvalue, hspace⟩ := hreplaced.rest 1 (by decide) (by decide)
    cases hvalue
    exact absurd hspace (by decide)
  · rintro ⟨g', hg', hreplaced⟩
    obtain ⟨g₁, hg₁, hwrote⟩ := (Valid.of_new hnew (by decide)).setText_wrote 1
      ['w', 'x', 'y', 'z'] ⟨255, 255, 255⟩ ⟨0, 0, 0⟩
    cases hg₁.symm.trans hg'
    exact absurd (hwrote.length_lt (by decide) hreplaced) (by decide)

end FerricK.TextGrid
