import FerricK.Console.Render
import FerricK.Grid.Cursor

namespace FerricK.Console

open Rust TextGrid

def screen (c : Console) : List Cell × Nat × Nat := (c.cells, c.cursorRow, c.cursorCol)

/-- Two calls leave what one leaves.  Each call counts its scrolls in a `u32` of its own, so two
may return where one panics, but not on a text shorter than `2 ^ 32`. -/
structure ChunksAgree (c : Console) (a b : List Char) : Prop where
  joined : ∀ d, c.putText (a ++ b) = .ok d →
    ∃ d', (do (← c.putText a).putText b) = .ok d' ∧ d'.screen = d.screen
  split : a.length + b.length < 2 ^ 32 → ∀ d', (do (← c.putText a).putText b) = .ok d' →
    ∃ d, c.putText (a ++ b) = .ok d ∧ d'.screen = d.screen

def EndsAtEdge (c : Console) (a : List Char) : Prop :=
  ∃ p k, a = p ++ ['\t'] ∧
    Cursor.follow c.cols c.rows cellCount p ⟨c.cursorRow, c.cursorCol, 0⟩ = some k ∧
    c.cols ≤ (k.col / tabWidth + 1) * tabWidth

def resumed (c : Console) : TextGrid :=
  { c.freshGrid with row := c.cursorRow, col := c.cursorCol }

def takeGrid (c : Console) (g : TextGrid) : Console :=
  { c with cells := g.cells, cursorRow := g.row, cursorCol := g.col }

variable {c : Console} {g g' : TextGrid} {a b s : List Char}
  {d : Console}

theorem putChars_append (a b : List Char) (fg bg : Rgb) (g : TextGrid) :
    putChars (a ++ b) fg bg g = putChars a fg bg g >>= putChars b fg bg := forEach_append ..

theorem Sized.valid_resumed (h : Sized c) (hrow : c.cursorRow < c.rows)
    (hcol : c.cursorCol < c.cols) : TextGrid.Valid c.resumed :=
  let hfresh := h.valid_freshGrid
  ⟨hfresh.cols_pos, hfresh.rows_pos, hfresh.area_lt, hfresh.area_le, hrow, hcol.le,
    hfresh.scroll_lt⟩

theorem Sized.putText_eq_ok (h : Sized c) (hrow : c.cursorRow < c.rows)
    (hcol : c.cursorCol < c.cols) : c.putText s = .ok d ↔
      ∃ g, putChars s c.fg c.bg c.resumed = .ok g ∧ c.takeGrid g = d := by
  have hcols := h.cols_pos
  have hrows := h.rows_pos
  have hcursor : c.freshGrid.setCursor c.cursorRow c.cursorCol = c.resumed := by
    rw [setCursor, Nat.min_eq_left (by simp only [freshGrid]; omega),
      Nat.min_eq_left (by simp only [freshGrid]; omega), resumed]
  rw [putText, if_neg (by omega), h.grid_eq, ok_bind]
  simp only [hcursor, bind_eq_ok, pure_eq_ok, Except.ok.injEq, takeGrid]

theorem Sized.putChars_cursor (h : Sized c) (hrow : c.cursorRow < c.rows)
    (hcol : c.cursorCol < c.cols) (s : List Char) :
    Follows c.resumed (putChars s c.fg c.bg c.resumed)
      (Cursor.follow c.cols c.rows cellCount s ⟨c.cursorRow, c.cursorCol, 0⟩) := by
  have hcells : cellCount = 32768 := rfl
  have hdims := h.dims
  have hput := (h.valid_resumed hrow hcol).putAll_cursor
    (show c.cols < 2 ^ 31 by omega) s c.fg c.bg
  rw [show c.resumed.cells.length = cellCount from h.length] at hput
  exact hput

theorem resumed_takeGrid (h : Typed c.resumed g) : (c.takeGrid g).resumed = g.recount 0 := by
  rw [h.shape]
  rfl

theorem Sized.takeGrid (h : Sized c) (hg : Typed c.resumed g) : Sized (c.takeGrid g) :=
  ⟨h.cols_pos, h.rows_pos, h.area_le, hg.length.trans h.length⟩

theorem Sized.putText_again (h : Sized c) (hg : Typed c.resumed g) (hcol : g.col < c.cols) :
    (c.takeGrid g).putText s = .ok d ↔
      ∃ g', putChars s c.fg c.bg (g.recount 0) = .ok g' ∧ c.takeGrid g' = d := by
  have hrow : g.row < c.rows := hg.valid.row_lt.trans_eq hg.rows
  rw [(h.takeGrid hg).putText_eq_ok hrow hcol, resumed_takeGrid hg]
  rfl

theorem Sized.cols_lt (h : Sized c) (hg : Typed c.resumed g) : g.cols < 2 ^ 31 := by
  have hcells : cellCount = 32768 := rfl
  have hdims := h.dims
  have hcols : g.cols = c.cols := hg.cols
  omega

theorem Sized.putChars_resumed (h : Sized c) (hrow : c.cursorRow < c.rows)
    (hcol : c.cursorCol < c.cols) (ha : ¬EndsAtEdge c a)
    (hg : putChars a c.fg c.bg c.resumed = .ok g) :
    Typed c.resumed g ∧ g.col < c.cols ∧ g.scrollCount ≤ a.length := by
  obtain ⟨htyped, hfollow⟩ := (h.putChars_cursor hrow hcol a).of_ok hg
  have hcount := (Cursor.follow_scrolls hfollow).2
  refine ⟨htyped, ?_, by simpa [cursor] using hcount⟩
  obtain hlt | hedge := Cursor.follow_col h.cols_pos hcol hfollow
  · exact hlt
  · exact absurd hedge ha

theorem Sized.putText_cut (h : Sized c) (hrow : c.cursorRow < c.rows) (hcol : c.cursorCol < c.cols)
    (ha : ¬EndsAtEdge c a) (hd : c.putText (a ++ b) = .ok d) :
    ∃ d', (do (← c.putText a).putText b) = .ok d' ∧ d'.screen = d.screen := by
  obtain ⟨g', hput, rfl⟩ := (h.putText_eq_ok hrow hcol).mp hd
  rw [putChars_append] at hput
  obtain ⟨g, hg, hg'⟩ := bind_eq_ok.mp hput
  obtain ⟨htyped, hlt, -⟩ := h.putChars_resumed hrow hcol ha hg
  have hwide := h.cols_lt htyped
  obtain ⟨htyped', -⟩ := (htyped.valid.putAll_cursor hwide b c.fg c.bg).of_ok hg'
  have hscroll := htyped'.valid.scroll_lt
  have hsecond := htyped.valid.putAll_recount (m := 0) hwide hg' (by omega)
  refine ⟨c.takeGrid (g'.recount _), ?_, rfl⟩
  rw [(h.putText_eq_ok hrow hcol).mpr ⟨g, hg, rfl⟩, ok_bind]
  exact (h.putText_again htyped hlt).mpr ⟨_, hsecond, rfl⟩

theorem Sized.putText_join (h : Sized c) (hrow : c.cursorRow < c.rows)
    (hcol : c.cursorCol < c.cols) (ha : ¬EndsAtEdge c a) (hlen : a.length + b.length < 2 ^ 32)
    (hd : (do (← c.putText a).putText b) = .ok d) :
    ∃ d', c.putText (a ++ b) = .ok d' ∧ d.screen = d'.screen := by
  obtain ⟨_, hfirst, hd⟩ := bind_eq_ok.mp hd
  obtain ⟨g, hg, rfl⟩ := (h.putText_eq_ok hrow hcol).mp hfirst
  obtain ⟨htyped, hlt, hcount⟩ := h.putChars_resumed hrow hcol ha hg
  obtain ⟨g', hg', rfl⟩ := (h.putText_again htyped hlt).mp hd
  have hvalid : (g.recount 0).Valid := htyped.valid.recount (by decide)
  have hwide : (g.recount 0).cols < 2 ^ 31 := show g.cols < 2 ^ 31 from h.cols_lt htyped
  obtain ⟨-, hfollow⟩ := (hvalid.putAll_cursor hwide b c.fg c.bg).of_ok hg'
  have hrest := (Cursor.follow_scrolls hfollow).2
  simp only [cursor, recount] at hrest
  have hsecond : putChars b c.fg c.bg g = .ok (g'.recount _) :=
    hvalid.putAll_recount (m := g.scrollCount) hwide hg' (by simp only [recount]; omega)
  have hone := bind_eq_ok.mpr ⟨g, hg, hsecond⟩
  rw [← putChars_append] at hone
  exact ⟨_, (h.putText_eq_ok hrow hcol).mpr ⟨_, hone, rfl⟩, rfl⟩

theorem Sized.chunksAgree (h : Sized c) (hrow : c.cursorRow < c.rows) (hcol : c.cursorCol < c.cols)
    (ha : ¬EndsAtEdge c a) (b : List Char) : ChunksAgree c a b :=
  ⟨fun _ => h.putText_cut hrow hcol ha, fun hlen _ => h.putText_join hrow hcol ha hlen⟩

theorem Sized.putText_nil (h : Sized c) : c.putText [] = .ok { c with
    cursorRow := min c.cursorRow (c.rows - 1), cursorCol := min c.cursorCol (c.cols - 1) } := by
  have hcols := h.cols_pos
  have hrows := h.rows_pos
  rw [putText, if_neg (by omega), h.grid_eq, ok_bind]
  rfl

theorem Sized.not_chunksAgree (h : Sized c) (hrow : c.cursorRow < c.rows)
    (hcol : c.cursorCol < c.cols) (ha : EndsAtEdge c a) : ¬ChunksAgree c a [] := by
  have hcols := h.cols_pos
  have hrows := h.rows_pos
  intro hagree
  obtain ⟨p, k, rfl, hp, hstop⟩ := ha
  have hput := h.putChars_cursor hrow hcol (p ++ ['\t'])
  rw [Cursor.follow_tab hp hstop] at hput
  obtain ⟨g, hg, hcursor, htyped⟩ := hput.of_some
  have hedge : g.col = c.cols := congrArg Cursor.col hcursor
  have hone := (h.putText_eq_ok hrow hcol).mpr ⟨g, hg, rfl⟩
  obtain ⟨d', hd', hscreen⟩ := hagree.joined _ (by rw [List.append_nil]; exact hone)
  rw [hone, ok_bind, (h.takeGrid htyped).putText_nil] at hd'
  cases hd'
  have hclamped : min g.col (c.cols - 1) = g.col := congrArg (·.2.2) hscreen
  omega

/-- Whatever follows, text may be cut after `a` exactly if `a` does not end in a tab that reaches
the right edge. -/
theorem chunks_agree_iff (h : Sized c) (hrow : c.cursorRow < c.rows) (hcol : c.cursorCol < c.cols)
    (a : List Char) : (∀ b, ChunksAgree c a b) ↔ ¬EndsAtEdge c a :=
  ⟨fun hagree ha => h.not_chunksAgree hrow hcol ha (hagree []), h.chunksAgree hrow hcol⟩

theorem chunks_agree_iff_small :
    (∀ b, ChunksAgree { new with cols := 12, rows := 3 } ['a', '\t'] b) ↔
      ¬EndsAtEdge { new with cols := 12, rows := 3 } ['a', '\t'] :=
  chunks_agree_iff ⟨by decide, by decide, by decide, List.length_replicate⟩ (by decide)
    (by decide) _

theorem tab_then_nothing_differs :
    ¬ChunksAgree { new with cols := 8, rows := 2 } ['\t'] [] := by
  have hsized : Sized { new with cols := 8, rows := 2 } :=
    ⟨by decide, by decide, by decide, List.length_replicate⟩
  exact hsized.not_chunksAgree (by decide) (by decide) ⟨[], _, rfl, rfl, by decide⟩

end FerricK.Console
