import FerricK.Grid.Bounds

namespace FerricK.TextGrid

open Rust

/-- A page of some width and no end, with the cursor that writes it. -/
structure Page where
  cell : Nat → Nat → Cell
  row : Nat
  col : Nat

namespace Page

def blank (fg bg : Rgb) : Page := ⟨fun _ _ => Cell.blank fg bg, 0, 0⟩

def write (p : Page) (value : Cell) : Page :=
  { p with cell := fun r c => if r = p.row ∧ c = p.col then value else p.cell r c }

def newline (p : Page) : Page := { p with row := p.row + 1, col := 0 }

def advance (cols : Nat) (p : Page) : Page :=
  if p.col + 1 = cols then p.newline else { p with col := p.col + 1 }

def put (cols : Nat) (p : Page) (c : Char) (fg bg : Rgb) : Page :=
  if c = '\n' then p.newline
  else if c = '\r' then { p with col := 0 }
  else (p.write ⟨c, fg, bg⟩).advance cols

def top (rows : Nat) (p : Page) : Nat := p.row + 1 - rows

end Page

abbrev Text := List (Char × Rgb × Rgb)

def putAll (text : Text) (g : TextGrid) : Rust TextGrid :=
  forEach text (fun p g => g.put p.1 p.2.1 p.2.2) g

def layout (cols : Nat) (fg bg : Rgb) (text : Text) : Page :=
  text.foldl (fun p t => p.put cols t.1 t.2.1 t.2.2) (Page.blank fg bg)

/-- `g` shows `p` from row `g.scrollCount` on; below the cursor both are blank. -/
structure Shows (g : TextGrid) (p : Page) (fg bg : Rgb) : Prop where
  valid : Valid g
  colours : g.defaultFg = fg ∧ g.defaultBg = bg
  row : g.row + g.scrollCount = p.row
  col : g.col = p.col
  col_lt : g.col < g.cols
  scrolled : g.scrollCount = p.top g.rows
  cells : ∀ r < g.rows, ∀ c < g.cols, g.cells[r * g.cols + c]? = some (p.cell (g.scrollCount + r) c)
  unwritten : ∀ r c, p.row < r → p.cell r c = Cell.blank fg bg

variable {g g₀ : TextGrid} {ops : List Op} {p : Page} {fg bg fg' bg' : Rgb} {c : Char} {text : Text}
  {value : Cell} {cells : List Cell} {cols rows : Nat}

theorem Page.top_advance_le (cols rows : Nat) (p : Page) :
    p.top rows ≤ (p.advance cols).top rows := by
  unfold Page.advance Page.newline Page.top
  split <;> simp only <;> omega

theorem Shows.write (h : Shows g p fg bg) (value : Cell) :
    Shows { g with cells := g.cells.set (g.row * g.cols + g.col) value } (p.write value) fg bg := by
  have hlt := index_lt h.valid.row_lt h.col_lt
  have hle := h.valid.area_le
  refine ⟨h.valid.storeAt g.row g.col value, h.colours, h.row, h.col, h.col_lt, h.scrolled, ?_, ?_⟩
  · intro r hr c hc
    have hrow := h.row
    have hcol := h.col
    simp only [Page.write, List.getElem?_set]
    by_cases hat : r = g.row ∧ c = g.col
    · obtain ⟨rfl, rfl⟩ := hat
      rw [if_pos rfl, if_pos (by omega), if_pos ⟨by omega, hcol⟩]
    · have hne : g.row * g.cols + g.col ≠ r * g.cols + c := fun heq =>
        hat ((index_inj h.col_lt hc heq).imp Eq.symm Eq.symm)
      rw [if_neg hne, if_neg (by omega), h.cells r hr c hc]
  · intro r c hr
    have hr' : p.row < r := hr
    simp only [Page.write, if_neg (show ¬(r = p.row ∧ c = p.col) by omega), h.unwritten r c hr']

theorem Shows.home (h : Shows g p fg bg) :
    Shows { g with col := 0 } { p with col := 0 } fg bg :=
  ⟨h.valid.home, h.colours, h.row, rfl, h.valid.cols_pos, h.scrolled, h.cells, h.unwritten⟩

theorem Shows.getElem?_scrolled (h : Shows g p fg bg) (hlast : ¬g.row + 1 < g.rows) {r c : Nat}
    (hr : r < g.rows) (hc : c < g.cols) :
    ({ g with col := 0 } : TextGrid).scrolled[r * g.cols + c]? =
      some (p.cell (g.scrollCount + 1 + r) c) := by
  have hrow := h.row
  have hrows := h.valid.row_lt
  refine (h.valid.home.getElem?_scrolled (index_lt hr hc)).trans ?_
  simp only
  by_cases hnext : r + 1 < g.rows
  · have hmul : (r + 1) * g.cols ≤ (g.rows - 1) * g.cols := Nat.mul_le_mul_right _ (by omega)
    have hbelow := h.cells (r + 1) hnext c hc
    rw [Nat.succ_mul] at hmul hbelow
    rw [if_pos (by omega), show r * g.cols + c + g.cols = r * g.cols + g.cols + c by omega, hbelow,
      show g.scrollCount + (r + 1) = g.scrollCount + 1 + r by omega]
  · have hmul : (g.rows - 1) * g.cols ≤ r * g.cols := Nat.mul_le_mul_right _ (by omega)
    rw [if_neg (by omega), h.colours.1, h.colours.2, h.unwritten _ c (by omega)]

theorem Shows.linefeed (h : Shows g p fg bg) (htop : p.newline.top g.rows < 2 ^ 32) :
    ∃ g', g.linefeed = .ok g' ∧ Shows g' p.newline fg bg ∧ g'.cols = g.cols ∧ g'.rows = g.rows := by
  have hrow := h.row
  have hscrolled := h.scrolled
  have hrows := h.valid.row_lt
  simp only [Page.top, Page.newline] at htop hscrolled
  have hunwritten : ∀ r c, p.newline.row < r → p.newline.cell r c = Cell.blank fg bg :=
    fun r c hr => h.unwritten r c (Nat.lt_of_succ_lt hr)
  rw [h.valid.linefeed_eq]
  split
  · next hlt =>
    refine ⟨_, rfl, ⟨⟨h.valid.cols_pos, h.valid.rows_pos, h.valid.area_lt, h.valid.area_le, hlt,
      Nat.zero_le _, h.valid.scroll_lt⟩, h.colours, ?_, rfl, h.valid.cols_pos, ?_, h.cells,
      hunwritten⟩, rfl, rfl⟩
    · simp only [Page.newline]
      omega
    · simp only [Page.top, Page.newline]
      omega
  · next hge =>
    have hvalid := h.valid.home
    refine ⟨_, hvalid.scrollUp_eq (by simp only; omega), ⟨hvalid.scrolled (by simp only; omega),
      h.colours, ?_, rfl, h.valid.cols_pos, ?_, fun r hr c hc => h.getElem?_scrolled hge hr hc,
      hunwritten⟩, rfl, rfl⟩
    · simp only [Page.newline]
      omega
    · simp only [Page.top, Page.newline]
      omega

theorem Shows.advance (h : Shows g p fg bg) (htop : (p.advance g.cols).top g.rows < 2 ^ 32) :
    ∃ g', g.advance = .ok g' ∧ Shows g' (p.advance g.cols) fg bg ∧ g'.cols = g.cols ∧
      g'.rows = g.rows := by
  have hcol := h.col
  have hlt := h.col_lt
  rw [h.valid.advance_eq h.col_lt]
  unfold Page.advance at htop ⊢
  split
  · next hmore =>
    rw [if_neg (by omega)]
    exact ⟨_, rfl, ⟨h.valid.step_col h.col_lt, h.colours, h.row, by simp only; omega, hmore,
      h.scrolled, h.cells, h.unwritten⟩, rfl, rfl⟩
  · next hlast =>
    rw [if_pos (by omega)] at htop ⊢
    -- `linefeed` does not look at the column
    exact h.linefeed htop

theorem Shows.put (h : Shows g p fg bg) (hc : c ≠ '\t') (fg' bg' : Rgb)
    (htop : (p.put g.cols c fg' bg').top g.rows < 2 ^ 32) :
    ∃ g', g.put c fg' bg' = .ok g' ∧ Shows g' (p.put g.cols c fg' bg') fg bg ∧
      g'.cols = g.cols ∧ g'.rows = g.rows := by
  by_cases hn : c = '\n'
  · rw [Page.put, if_pos hn] at htop ⊢
    rw [TextGrid.put, if_pos hn]
    exact h.linefeed htop
  by_cases hr : c = '\r'
  · rw [TextGrid.put, if_neg hn, if_pos hr, Page.put, if_neg hn, if_pos hr]
    exact ⟨_, rfl, h.home, rfl, rfl⟩
  · rw [Page.put, if_neg hn, if_neg hr] at htop ⊢
    rw [put_printable ⟨hn, hr, hc⟩, h.valid.storeAt_eq h.valid.row_lt h.col_lt, ok_bind]
    exact (h.write ⟨c, fg', bg'⟩).advance htop

theorem Page.top_put_le (cols rows : Nat) (p : Page) (c : Char) (fg bg : Rgb) :
    p.top rows ≤ (p.put cols c fg bg).top rows := by
  unfold Page.put
  split
  · simp only [Page.newline, Page.top]
    omega
  split
  · exact Nat.le_refl _
  · exact (p.write ⟨c, fg, bg⟩).top_advance_le cols rows

theorem Page.top_foldl_le (cols rows : Nat) (p : Page) (text : Text) :
    p.top rows ≤ (text.foldl (fun p t => p.put cols t.1 t.2.1 t.2.2) p).top rows := by
  induction text generalizing p with
  | nil => exact Nat.le_refl _
  | cons t text ih => exact (p.top_put_le cols rows t.1 t.2.1 t.2.2).trans (ih _)

theorem Shows.putAll (h : Shows g p fg bg) (htab : ∀ t ∈ text, t.1 ≠ '\t')
    (htop : (text.foldl (fun p t => p.put g.cols t.1 t.2.1 t.2.2) p).top g.rows < 2 ^ 32) :
    ∃ g', g.putAll text = .ok g' ∧
      Shows g' (text.foldl (fun p t => p.put g.cols t.1 t.2.1 t.2.2) p) fg bg ∧
      g'.cols = g.cols ∧ g'.rows = g.rows := by
  induction text generalizing g p with
  | nil => exact ⟨g, rfl, h, rfl, rfl⟩
  | cons t text ih =>
    obtain ⟨ht, htab⟩ := List.forall_mem_cons.mp htab
    have hfirst :=
      (Page.top_foldl_le g.cols g.rows (p.put g.cols t.1 t.2.1 t.2.2) text).trans_lt htop
    obtain ⟨g₁, hg₁, hshows, hcols, hrows⟩ := h.put ht t.2.1 t.2.2 hfirst
    rw [List.foldl_cons] at htop ⊢
    rw [← hcols, ← hrows] at htop ⊢
    obtain ⟨g', hg', hshows', hcols', hrows'⟩ := ih (hcols ▸ hshows) htab htop
    refine ⟨g', ?_, hshows', hcols', hrows'⟩
    rw [TextGrid.putAll, forEach_cons, hg₁, ok_bind]
    exact hg'

theorem Shows.of_clear (h : Valid g) (fg bg : Rgb) :
    Shows (g.clear fg bg) (Page.blank fg bg) fg bg := by
  have hrows := h.rows_pos
  refine ⟨h.clear fg bg, ⟨rfl, rfl⟩, rfl, rfl, h.cols_pos, ?_, ?_, fun _ _ _ => rfl⟩
  · change 0 = 0 + 1 - g.rows
    omega
  · intro r hr c hc
    have hlt : r * g.cols + c < g.cells.length := (index_lt hr hc).trans_le h.area_le
    simp only [clear, clearDefaults, Page.blank, List.getElem?_map]
    rw [List.getElem?_eq_getElem hlt]
    rfl

theorem Shows.cell_eq {r c : Nat} (h : Shows g p fg bg) (hr : r < g.rows) (hc : c < g.cols) :
    g.cell r c = .ok (some (p.cell (p.top g.rows + r) c)) := by
  rw [h.valid.cell_eq hr hc, h.cells r hr c hc, h.scrolled]

/-- After `clear`, whatever operations came before it, and any text without tabs, the grid is the
window of its last rows on the page the text lays out, and the scroll count is how many rows are
above it. -/
theorem text_refines_page (h : new cells cols rows = some g₀) (harea : cols * rows < 2 ^ 32)
    (hrun : g₀.run ops = .ok g) (htab : ∀ t ∈ text, t.1 ≠ '\t')
    (htop : (layout cols fg bg text).top rows < 2 ^ 32) :
    ∃ g', (g.clear fg bg).putAll text = .ok g' ∧
      (∀ r < rows, ∀ c < cols, g'.cell r c = .ok
        (some ((layout cols fg bg text).cell ((layout cols fg bg text).top rows + r) c))) ∧
      g'.row + (layout cols fg bg text).top rows = (layout cols fg bg text).row ∧
      g'.col = (layout cols fg bg text).col ∧
      g'.scrollCount = (layout cols fg bg text).top rows ∧
      ∀ r c, (layout cols fg bg text).row < r →
        (layout cols fg bg text).cell r c = Cell.blank fg bg := by
  have hvalid := (Valid.of_new h harea).of_run hrun
  obtain ⟨hcols₀, hrows₀⟩ := dims_run hrun
  obtain ⟨-, -, rfl⟩ := new_eq_some.mp h
  obtain rfl : g.cols = cols := hcols₀
  obtain rfl : g.rows = rows := hrows₀
  obtain ⟨g', hg', hshows, hcols, hrows⟩ := (Shows.of_clear hvalid fg bg).putAll htab htop
  refine ⟨g', hg', ?_, ?_, hshows.col.symm ▸ rfl, ?_, hshows.unwritten⟩
  · intro r hr c hc
    have hcell := hshows.cell_eq (hr.trans_eq hrows.symm) (hc.trans_eq hcols.symm)
    rw [hrows] at hcell
    exact hcell
  · have hrow := hshows.row
    rw [hshows.scrolled, hrows] at hrow
    exact hrow
  · rw [hshows.scrolled, hrows]
    rfl

theorem text_refines_page_scrolled :
    ∃ g, new (List.replicate 5 (Cell.blank ⟨0, 0, 0⟩ ⟨0, 0, 0⟩)) 2 2 = some g ∧
      ∃ g₁, g.run [.scrollUp, .setCursor 1 1] = .ok g₁ ∧
        ∃ g', (g₁.clear ⟨9, 9, 9⟩ ⟨0, 0, 0⟩).putAll
            ("abcd\ne".toList.map fun c => (c, ⟨9, 9, 9⟩, ⟨0, 0, 0⟩)) = .ok g' ∧
          g'.cell 1 0 = .ok (some ⟨'e', ⟨9, 9, 9⟩, ⟨0, 0, 0⟩⟩) ∧ g'.scrollCount = 2 := by
  have hnew : new (List.replicate 5 (Cell.blank ⟨0, 0, 0⟩ ⟨0, 0, 0⟩)) 2 2 = some _ := rfl
  let text : Text := "abcd\ne".toList.map fun c => (c, ⟨9, 9, 9⟩, ⟨0, 0, 0⟩)
  have htab : ∀ t ∈ text, t.1 ≠ '\t' := by decide
  have htop : (layout 2 ⟨9, 9, 9⟩ ⟨0, 0, 0⟩ text).top 2 < 2 ^ 32 := by decide
  have hrun : run [.scrollUp, .setCursor 1 1]
      ⟨List.replicate 5 (Cell.blank ⟨0, 0, 0⟩ ⟨0, 0, 0⟩), 2, 2, 0, 0, ⟨0xC0, 0xC0, 0xC0⟩,
        ⟨0, 0, 0⟩, 0⟩ = .ok _ := rfl
  obtain ⟨g', hg', hcell, -, -, hcount, -⟩ := text_refines_page hnew (by decide) hrun htab htop
  exact ⟨_, hnew, _, hrun, g', hg', hcell 1 (by decide) 0 (by decide), hcount⟩

end FerricK.TextGrid
