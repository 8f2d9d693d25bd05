import FerricK.Grid.Defs
import Mathlib.Algebra.Order.Group.Nat

namespace FerricK.TextGrid

open Rust

inductive Op
  | clear (fg bg : Rgb)
  | setCursor (row col : Nat)
  | setCell (row col : Nat) (value : Cell)
  | setText (row : Nat) (s : List Char) (fg bg : Rgb)
  | scrollUp
  | put (c : Char) (fg bg : Rgb)

def step (g : TextGrid) : Op → Rust TextGrid
  | .clear fg bg => .ok (g.clear fg bg)
  | .setCursor row col => .ok (g.setCursor row col)
  | .setCell row col value => g.setCell row col value
  | .setText row s fg bg => g.setText row s fg bg
  | .scrollUp => g.scrollUp
  | .put c fg bg => g.put c fg bg

def Printable (c : Char) : Prop := c ≠ '\n' ∧ c ≠ '\r' ∧ c ≠ '\t'

/-- The same grid over no more cells than it shows: an index past them is out of bounds. -/
def visible (g : TextGrid) : TextGrid := { g with cells := g.cells.take (g.cols * g.rows) }

/-- `g'` has `value` at column `k` of the cursor's row of `g` and every other cell as in `g`, with
the rows moved up by the scroll in between, if there was one. -/
def Stored (g g' : TextGrid) (k : Nat) (value : Cell) : Prop :=
  ∃ up ≤ 1, g'.scrollCount = g.scrollCount + up ∧ ∀ r < g.rows, ∀ col < g.cols, up ≤ r →
    g'.cell (r - up) col = if r = g.row ∧ col = k then .ok (some value) else g.cell r col

/-- The operation returns, keeps to the visible cells, and puts a printable character in the
row of the cursor: at one column of it, whatever the character and its colours are. -/
structure Sound (g : TextGrid) (op : Op) : Prop where
  returns : ∃ g', g.step op = .ok g'
  visible : ∃ g', g.visible.step op = .ok g'
  own_row : ∀ c fg bg, op = .put c fg bg → Printable c → ∃ k < g.cols,
    ∀ c' fg' bg', Printable c' → ∃ g', g.put c' fg' bg' = .ok g' ∧ g.Stored g' k ⟨c', fg', bg'⟩

def Scrolls (g : TextGrid) : Op → Prop
  | .scrollUp => True
  | .put c _ _ => (c = '\n' ∨ Printable c ∧ g.col + 1 = g.cols) ∧ g.row + 1 = g.rows
  | _ => False

structure Meets (g : TextGrid) (op : Op) : Prop where
  col_lt : ∀ c fg bg, op = .put c fg bg → Printable c → g.col < g.cols
  tab_lt : ∀ fg bg, op = .put '\t' fg bg → (g.col / tabWidth + 1) * tabWidth < 2 ^ 32
  count_lt : Scrolls g op → g.scrollCount + 1 < 2 ^ 32

def AllSound : TextGrid → List Op → Prop
  | _, [] => True
  | g, op :: ops => Sound g op ∧ ∀ g', g.step op = .ok g' → AllSound g' ops

def AllMeet : TextGrid → List Op → Prop
  | _, [] => True
  | g, op :: ops => Meets g op ∧ ∀ g', g.step op = .ok g' → AllMeet g' ops

variable {g g' : TextGrid} {op : Op} {ops : List Op} {cells : List Cell} {cols rows row col : Nat}
  {value : Cell} {fg bg : Rgb} {c : Char} {s : List Char}

theorem Valid.clear (h : Valid g) (fg bg : Rgb) : Valid (g.clear fg bg) :=
  ⟨h.cols_pos, h.rows_pos, h.area_lt, by simpa [TextGrid.clear, clearDefaults] using h.area_le,
    h.rows_pos, Nat.zero_le _, by simp [TextGrid.clear]⟩

theorem Valid.setCursor (h : Valid g) (row col : Nat) : Valid (g.setCursor row col) := by
  have hrows := h.rows_pos
  refine ⟨h.cols_pos, h.rows_pos, h.area_lt, h.area_le, ?_, ?_, h.scroll_lt⟩ <;>
    simp only [TextGrid.setCursor] <;> omega

theorem Valid.setCell (h : Valid g) (row col : Nat) (value : Cell) :
    ∃ g', g.setCell row col value = .ok g' ∧ Valid g' := by
  unfold TextGrid.setCell
  split
  · next hin => exact ⟨_, h.storeAt_eq hin.1 hin.2 value, h.storeAt row col value⟩
  · exact ⟨g, rfl, h⟩

theorem Valid.setText_loop {ps : List (Char × Nat)} (h : Valid g) (hrow : row < g.rows)
    (fg bg : Rgb) (hcols : ∀ p ∈ ps, p.2 < g.cols) :
    ∃ g', forEach ps (fun p => TextGrid.storeAt row p.2 ⟨p.1, fg, bg⟩) g = .ok g' ∧
      Valid g' := by
  induction ps generalizing g with
  | nil => exact ⟨g, rfl, h⟩
  | cons p ps ih =>
    obtain ⟨hp, hps⟩ := List.forall_mem_cons.mp hcols
    have hnext := h.storeAt row p.2 ⟨p.1, fg, bg⟩
    obtain ⟨g', hg', hvalid⟩ := ih hnext hrow hps
    refine ⟨g', ?_, hvalid⟩
    rw [forEach_cons, h.storeAt_eq hrow hp, ok_bind]
    exact hg'

theorem Valid.setText (h : Valid g) (row : Nat) (s : List Char) (fg bg : Rgb) :
    ∃ g', g.setText row s fg bg = .ok g' ∧ Valid g' := by
  have hrows := h.rows_pos
  have hcols : ∀ p ∈ s.zipIdx.take g.cols, p.2 < g.cols := by
    intro p hp
    obtain ⟨i, hi, rfl⟩ := List.mem_iff_getElem.mp hp
    simp only [List.length_take] at hi
    simp only [List.getElem_take, List.getElem_zipIdx]
    omega
  have hrow : min row (g.rows - 1) < g.rows := by omega
  obtain ⟨g', hg', hvalid⟩ := h.setText_loop hrow fg bg hcols
  exact ⟨_, by rw [TextGrid.setText, hg', ok_bind, pure_eq_ok], hvalid.setCursor _ _⟩

theorem Valid.scrollUp (h : Valid g) (hcount : g.scrollCount + 1 < 2 ^ 32) :
    ∃ g', g.scrollUp = .ok g' ∧ Valid g' := ⟨_, h.scrollUp_eq hcount, h.scrolled hcount⟩

theorem Valid.linefeed (h : Valid g) (hcount : g.row + 1 = g.rows → g.scrollCount + 1 < 2 ^ 32) :
    ∃ g', g.linefeed = .ok g' ∧ Valid g' := by
  have hrow := h.row_lt
  rw [h.linefeed_eq]
  split
  · next hlt =>
    exact ⟨_, rfl, h.cols_pos, h.rows_pos, h.area_lt, h.area_le, hlt, Nat.zero_le _, h.scroll_lt⟩
  · exact h.home.scrollUp (hcount (by omega))

theorem Valid.advance_eq (h : Valid g) (hcol : g.col < g.cols) : g.advance =
    if g.col + 1 < g.cols then .ok { g with col := g.col + 1 }
    else { g with col := g.col + 1 }.linefeed := by
  have hdims := h.dims
  rw [advance, uadd_of_lt (by omega), ok_bind]
  simp only [ge_iff_le]
  split
  · rw [if_neg (by omega)]
  · rw [if_pos (by omega), pure_eq_ok]

theorem Valid.step_col (h : Valid g) (hcol : g.col < g.cols) : Valid { g with col := g.col + 1 } :=
  ⟨h.cols_pos, h.rows_pos, h.area_lt, h.area_le, h.row_lt, hcol, h.scroll_lt⟩

theorem Valid.advance (h : Valid g) (hcol : g.col < g.cols)
    (hcount : g.col + 1 = g.cols → g.row + 1 = g.rows → g.scrollCount + 1 < 2 ^ 32) :
    ∃ g', g.advance = .ok g' ∧ Valid g' := by
  rw [h.advance_eq hcol]
  split
  · exact ⟨_, rfl, h.step_col hcol⟩
  · exact (h.step_col hcol).linefeed fun hrow => hcount (by omega) hrow

theorem put_printable (hc : Printable c) :
    g.put c fg bg = g.storeAt g.row g.col ⟨c, fg, bg⟩ >>= TextGrid.advance := by
  rw [TextGrid.put, if_neg hc.1, if_neg hc.2.1, if_neg hc.2.2]

theorem tab_stop (col : Nat) : col < (col / tabWidth + 1) * tabWidth ∧
    (col / tabWidth + 1) * tabWidth ≤ col + 8 := by
  simp only [tabWidth]
  omega

theorem put_tab (hstop : (g.col / tabWidth + 1) * tabWidth < 2 ^ 32) :
    g.put '\t' fg bg = .ok { g with col := min ((g.col / tabWidth + 1) * tabWidth) g.cols } := by
  have hle : g.col / tabWidth + 1 < 2 ^ 32 := by
    simp only [tabWidth] at hstop ⊢
    omega
  rw [TextGrid.put, if_neg (by decide), if_neg (by decide), if_pos rfl, uadd_of_lt hle, ok_bind,
    umul_of_lt hstop, ok_bind, pure_eq_ok]

theorem Valid.put (h : Valid g) (hm : Meets g (.put c fg bg)) :
    ∃ g', g.put c fg bg = .ok g' ∧ Valid g' := by
  by_cases hc : Printable c
  · have hcol := hm.col_lt c fg bg rfl hc
    rw [put_printable hc, h.storeAt_eq h.row_lt hcol, ok_bind]
    exact (h.storeAt g.row g.col ⟨c, fg, bg⟩).advance hcol fun hlast hrow =>
      hm.count_lt ⟨Or.inr ⟨hc, hlast⟩, hrow⟩
  · by_cases htab : c = '\t'
    · subst htab
      rw [put_tab (hm.tab_lt fg bg rfl)]
      exact ⟨_, rfl, h.cols_pos, h.rows_pos, h.area_lt, h.area_le, h.row_lt, Nat.min_le_right _ _,
        h.scroll_lt⟩
    unfold TextGrid.put
    split
    · next hn => exact h.linefeed fun hrow => hm.count_lt ⟨Or.inl hn, hrow⟩
    split
    · exact ⟨_, rfl, h.home⟩
    · next hn hr => exact absurd ⟨hn, hr, htab⟩ hc

theorem Valid.step (h : Valid g) (hm : Meets g op) : ∃ g', g.step op = .ok g' ∧ Valid g' := by
  cases op with
  | clear fg bg => exact ⟨_, rfl, h.clear fg bg⟩
  | setCursor row col => exact ⟨_, rfl, h.setCursor row col⟩
  | setCell row col value => exact h.setCell row col value
  | setText row s fg bg => exact h.setText row s fg bg
  | scrollUp => exact h.scrollUp (hm.count_lt trivial)
  | put c fg bg => exact h.put hm

theorem Valid.visible (h : Valid g) : Valid g.visible :=
  ⟨h.cols_pos, h.rows_pos, h.area_lt,
    (List.length_take_of_le h.area_le).symm.le, h.row_lt, h.col_le, h.scroll_lt⟩

theorem Valid.put_stored (h : Valid g) (hc : Printable c) (hcol : g.col < g.cols)
    (hcount : g.col + 1 = g.cols → g.row + 1 = g.rows → g.scrollCount + 1 < 2 ^ 32) :
    ∃ g', g.put c fg bg = .ok g' ∧ g.Stored g' g.col ⟨c, fg, bg⟩ := by
  have hset := h.storeAt g.row g.col ⟨c, fg, bg⟩
  rw [put_printable hc, h.storeAt_eq h.row_lt hcol, ok_bind, hset.advance_eq hcol]
  split
  · exact ⟨_, rfl, 0, Nat.zero_le _, rfl, fun r hr k hk _ => h.cell_set h.row_lt hcol hr hk _⟩
  · next hlast =>
    have hvalid := (hset.step_col hcol).home
    rw [(hset.step_col hcol).linefeed_eq]
    split
    · exact ⟨_, rfl, 0, Nat.zero_le _, rfl, fun r hr k hk _ => h.cell_set h.row_lt hcol hr hk _⟩
    · next hbottom =>
      have hrow := h.row_lt
      refine ⟨_, hvalid.scrollUp_eq (hcount (by simp only at hlast; omega)
        (by simp only at hbottom; omega)), 1, Nat.le_refl _, rfl, fun r hr k hk hup => ?_⟩
      have hshift := hvalid.cell_scrolled (r := r - 1)
        (show r - 1 + 1 < g.rows by omega) hk (g.scrollCount + 1)
      rw [Nat.sub_add_cancel hup] at hshift
      exact hshift.trans (h.cell_set h.row_lt hcol hr hk _)

theorem Valid.put_past (h : Valid g) (hc : Printable c) (hcol : g.col = g.cols)
    (hrow : g.row + 1 < g.rows) : g.put c fg bg = .ok { g with
      cells := g.cells.set ((g.row + 1) * g.cols) ⟨c, fg, bg⟩
      row := g.row + 1
      col := 0 } := by
  have hcols := h.cols_pos
  have hdims := h.dims
  have hlt := index_lt hrow hcols
  have harea := h.area_le
  have hindex : g.row * g.cols + g.col = (g.row + 1) * g.cols := by rw [hcol, Nat.succ_mul]
  have hnarrow : g.cols + 1 < 2 ^ 32 := by
    have hmul : g.cols * 2 ≤ g.cols * g.rows := Nat.mul_le_mul_left _ (by omega)
    have := h.area_lt
    omega
  have hset : Valid { g with cells := g.cells.set ((g.row + 1) * g.cols) ⟨c, fg, bg⟩ } :=
    h.setCells (List.length_set ..)
  rw [put_printable hc, TextGrid.storeAt, h.index_eq h.row_lt hcol.le, ok_bind, hindex,
    store_of_lt (by omega), ok_bind, pure_eq_ok, ok_bind, TextGrid.advance,
    uadd_of_lt (by simp only; omega), ok_bind, if_pos (by simp only; omega)]
  exact hset.linefeed_eq.trans (if_pos hrow)

theorem Valid.sound (h : Valid g) (hm : Meets g op) : Sound g op where
  returns := (h.step hm).imp fun _ => And.left
  visible := (h.visible.step ⟨hm.col_lt, hm.tab_lt, hm.count_lt⟩).imp fun _ => And.left
  own_row c fg bg hop hc := by
    have hcol := hm.col_lt c fg bg hop hc
    refine ⟨g.col, hcol, fun c' fg' bg' hc' => h.put_stored hc' hcol fun hlast hrow => ?_⟩
    subst hop
    exact hm.count_lt ⟨Or.inr ⟨hc, hlast⟩, hrow⟩

theorem linefeed_ne_ok (hrow : g.row + 1 = g.rows) (hrows : g.rows < 2 ^ 32)
    (hcount : ¬g.scrollCount + 1 < 2 ^ 32) (g' : TextGrid) : g.linefeed ≠ .ok g' := by
  have hscroll : ¬{ g with col := 0 }.scrollCount + 1 < 2 ^ 32 := hcount
  rw [TextGrid.linefeed, uadd_of_lt (by simp only; omega), ok_bind, if_pos (by simp only; omega)]
  exact scrollUp_ne_ok hscroll g'

theorem Valid.count_lt (h : Valid g) (hop : Scrolls g op) (hg' : g.step op = .ok g') :
    g.scrollCount + 1 < 2 ^ 32 := by
  by_contra hcount
  cases op with
  | scrollUp => exact scrollUp_ne_ok hcount g' hg'
  | put c fg bg =>
    obtain ⟨rfl | ⟨hc, hlast⟩, hrow⟩ := hop
    · exact linefeed_ne_ok hrow h.dims.2 hcount g' hg'
    · have hvalid := h.storeAt g.row g.col ⟨c, fg, bg⟩
      rw [TextGrid.step, put_printable hc, h.storeAt_eq h.row_lt (by omega), ok_bind,
        hvalid.advance_eq (by simp only; omega), if_neg (by simp only; omega)] at hg'
      exact absurd hg' (linefeed_ne_ok (by exact hrow) (by exact h.dims.2) (by exact hcount) g')
  | _ => exact hop

theorem tab_lt_of_put (hput : g.put '\t' fg bg = .ok g') :
    (g.col / tabWidth + 1) * tabWidth < 2 ^ 32 := by
  rw [TextGrid.put, if_neg (by decide), if_neg (by decide), if_pos rfl] at hput
  obtain ⟨k, hk, hput⟩ := bind_eq_ok.mp hput
  obtain ⟨next, hnext, -⟩ := bind_eq_ok.mp hput
  rw [(uadd_eq_ok.mp hk).2] at hnext
  exact (umul_eq_ok.mp hnext).1

theorem Valid.of_linefeed (h : Valid g) (hg' : g.linefeed = .ok g') : Valid g' := by
  have hcount : g.row + 1 = g.rows → g.scrollCount + 1 < 2 ^ 32 := by
    intro hrow
    by_contra hover
    exact linefeed_ne_ok hrow h.dims.2 hover g' hg'
  obtain ⟨g'', hg'', hvalid⟩ := h.linefeed hcount
  cases hg''.symm.trans hg'
  exact hvalid

theorem Valid.of_put_past (h : Valid g) (hc : Printable c) (hcol : g.col = g.cols)
    (hg' : g.put c fg bg = .ok g') : Valid g' := by
  rw [put_printable hc] at hg'
  obtain ⟨g₁, hstore, hadvance⟩ := bind_eq_ok.mp hg'
  rw [TextGrid.storeAt, h.index_eq h.row_lt hcol.le, ok_bind] at hstore
  obtain ⟨cells, hcells, hstore⟩ := bind_eq_ok.mp hstore
  cases hstore
  have hlen : cells.length = g.cells.length := by
    rw [store] at hcells
    split at hcells
    · cases hcells
      exact List.length_set ..
    · cases hcells
  obtain ⟨col, huadd, hadvance⟩ := bind_eq_ok.mp hadvance
  have hpast : col ≥ g.cols := by
    have hcolEq : col = g.col + 1 := (uadd_eq_ok.mp huadd).2
    omega
  exact (h.setCells hlen).of_linefeed ((if_pos hpast).symm.trans hadvance)

theorem Valid.of_step (h : Valid g) (hg' : g.step op = .ok g') : Valid g' := by
  have hnext (hm : Meets g op) : Valid g' := by
    obtain ⟨g'', hg'', hvalid⟩ := h.step hm
    cases hg''.symm.trans hg'
    exact hvalid
  cases op with
  | put c fg bg =>
    by_cases hpast : Printable c ∧ g.col = g.cols
    · exact h.of_put_past hpast.1 hpast.2 hg'
    · refine hnext ⟨?_, ?_, fun hop => h.count_lt hop hg'⟩
      · rintro c' fg' bg' heq hc
        cases heq
        exact Nat.lt_of_le_of_ne h.col_le fun hcol => hpast ⟨hc, hcol⟩
      · rintro fg' bg' heq
        cases heq
        exact tab_lt_of_put hg'
  | _ => exact hnext ⟨nofun, nofun, fun hop => h.count_lt hop hg'⟩

theorem dims_storeAt (hg' : g.storeAt row col value = .ok g') :
    g'.cols = g.cols ∧ g'.rows = g.rows := by
  obtain ⟨_, -, hg'⟩ := bind_eq_ok.mp hg'
  obtain ⟨_, -, hg'⟩ := bind_eq_ok.mp hg'
  cases hg'
  exact ⟨rfl, rfl⟩

theorem dims_scrollUp (hg' : g.scrollUp = .ok g') : g'.cols = g.cols ∧ g'.rows = g.rows := by
  obtain ⟨_, -, hg'⟩ := bind_eq_ok.mp hg'
  obtain ⟨_, -, hg'⟩ := bind_eq_ok.mp hg'
  obtain ⟨_, -, hg'⟩ := bind_eq_ok.mp hg'
  obtain ⟨_, -, hg'⟩ := bind_eq_ok.mp hg'
  obtain ⟨_, -, hg'⟩ := bind_eq_ok.mp hg'
  obtain ⟨_, -, hg'⟩ := bind_eq_ok.mp hg'
  cases hg'
  exact ⟨rfl, rfl⟩

theorem dims_linefeed (hg' : g.linefeed = .ok g') : g'.cols = g.cols ∧ g'.rows = g.rows := by
  obtain ⟨_, -, hg'⟩ := bind_eq_ok.mp hg'
  split at hg'
  · exact (dims_scrollUp hg' :)
  · cases hg'
    exact ⟨rfl, rfl⟩

theorem dims_put (hg' : g.put c fg bg = .ok g') : g'.cols = g.cols ∧ g'.rows = g.rows := by
  unfold TextGrid.put at hg'
  split at hg'
  · exact dims_linefeed hg'
  split at hg'
  · cases hg'
    exact ⟨rfl, rfl⟩
  split at hg'
  · obtain ⟨_, -, hg'⟩ := bind_eq_ok.mp hg'
    obtain ⟨_, -, hg'⟩ := bind_eq_ok.mp hg'
    cases hg'
    exact ⟨rfl, rfl⟩
  · obtain ⟨g₁, hstore, hg'⟩ := bind_eq_ok.mp hg'
    obtain ⟨hcols, hrows⟩ := dims_storeAt hstore
    obtain ⟨col, -, hg'⟩ := bind_eq_ok.mp hg'
    rw [← hcols, ← hrows]
    simp only at hg'
    split at hg'
    · exact dims_linefeed hg'
    · cases hg'
      exact ⟨rfl, rfl⟩

theorem dims_step (hg' : g.step op = .ok g') : g'.cols = g.cols ∧ g'.rows = g.rows := by
  cases op with
  | clear | setCursor =>
    cases hg'
    exact ⟨rfl, rfl⟩
  | setCell row col value =>
    change g.setCell row col value = .ok g' at hg'
    unfold TextGrid.setCell at hg'
    split at hg'
    · exact dims_storeAt hg'
    · cases hg'
      exact ⟨rfl, rfl⟩
  | setText row s fg bg =>
    obtain ⟨g₁, hloop, hg'⟩ := bind_eq_ok.mp hg'
    cases hg'
    have hkept := forEach_keeps (fun g₁ => g₁.cols = g.cols ∧ g₁.rows = g.rows) ⟨rfl, rfl⟩
      (fun p g₁ g₂ h₁ h₂ => ?_) hloop
    · exact hkept
    · obtain ⟨hcols, hrows⟩ := dims_storeAt h₂
      exact ⟨hcols.trans h₁.1, hrows.trans h₁.2⟩
  | scrollUp => exact dims_scrollUp hg'
  | put c fg bg => exact dims_put hg'

def run (ops : List Op) (g : TextGrid) : Rust TextGrid := forEach ops (fun op g => g.step op) g

theorem Valid.of_run (h : Valid g) (hg' : g.run ops = .ok g') : Valid g' :=
  forEach_keeps Valid h (fun _ _ _ h hg' => h.of_step hg') hg'

theorem dims_run (hg' : g.run ops = .ok g') : g'.cols = g.cols ∧ g'.rows = g.rows :=
  forEach_keeps (fun g' => g'.cols = g.cols ∧ g'.rows = g.rows) ⟨rfl, rfl⟩
    (fun _ _ _ h hg' => ⟨(dims_step hg').1.trans h.1, (dims_step hg').2.trans h.2⟩) hg'

theorem Valid.not_own_row (h : Valid g) (hcol : g.col = g.cols) (hrow : g.row + 1 < g.rows) :
    ¬∃ k < g.cols, ∀ c fg bg, Printable c →
      ∃ g', g.put c fg bg = .ok g' ∧ g.Stored g' k ⟨c, fg, bg⟩ := by
  rintro ⟨k, hk, hput⟩
  have hkept : ∀ c, Printable c → g.cell g.row k = .ok (some ⟨c, ⟨0, 0, 0⟩, ⟨0, 0, 0⟩⟩) := by
    intro c hc
    obtain ⟨g', hg', up, -, hcount, hcell⟩ := hput c ⟨0, 0, 0⟩ ⟨0, 0, 0⟩ hc
    rw [h.put_past hc hcol hrow] at hg'
    cases hg'
    have hnext := h.cell_set hrow h.cols_pos h.row_lt hk ⟨c, ⟨0, 0, 0⟩, ⟨0, 0, 0⟩⟩
    rw [if_neg (by omega)] at hnext
    have hstored := hcell g.row h.row_lt k hk (by simp only at hcount; omega)
    rw [if_pos ⟨rfl, rfl⟩, show g.row - up = g.row by simp only at hcount; omega] at hstored
    exact hnext.symm.trans hstored
  have hab := (hkept 'a' ⟨by decide, by decide, by decide⟩).symm.trans
    (hkept 'b' ⟨by decide, by decide, by decide⟩)
  exact absurd hab (by decide)

theorem Valid.visible_put_ne (h : Valid g) (hc : Printable c) (hcol : g.col = g.cols)
    (hrow : g.row + 1 = g.rows) (g' : TextGrid) : g.visible.put c fg bg ≠ .ok g' := by
  have hvalid := h.visible
  have hlen : g.visible.cells.length = g.cols * g.rows := List.length_take_of_le h.area_le
  have hend : g.row * g.cols + g.col = g.cols * g.rows := by
    rw [hcol, ← Nat.succ_mul, Nat.mul_comm, ← hrow]
  rw [put_printable hc, TextGrid.storeAt, hvalid.index_eq hvalid.row_lt hvalid.col_le, ok_bind,
    store, if_neg ?_]
  · intro h
    cases h
  · change ¬g.row * g.cols + g.col < _
    omega

theorem Sound.meets (h : Sound g op) (hvalid : Valid g) : Meets g op := by
  obtain ⟨g', hg'⟩ := h.returns
  refine ⟨?_, ?_, fun hop => hvalid.count_lt hop hg'⟩
  · intro c fg bg hop hc
    by_contra hlast
    have hcol : g.col = g.cols := Nat.le_antisymm hvalid.col_le (Nat.le_of_not_lt hlast)
    by_cases hrow : g.row + 1 < g.rows
    · exact hvalid.not_own_row hcol hrow (h.own_row c fg bg hop hc)
    · obtain ⟨g', hg'⟩ := h.visible
      subst hop
      exact hvalid.visible_put_ne hc hcol (by have := hvalid.row_lt; omega) g' hg'
  · rintro fg bg rfl
    exact tab_lt_of_put hg'

theorem Valid.sound_iff (h : Valid g) : Sound g op ↔ Meets g op := ⟨fun hs => hs.meets h, h.sound⟩

theorem Valid.allSound_iff (h : Valid g) : AllSound g ops ↔ AllMeet g ops := by
  induction ops generalizing g with
  | nil => exact Iff.rfl
  | cons op ops ih =>
    simp only [AllSound, AllMeet, h.sound_iff]
    refine and_congr_right fun hm => forall_congr' fun g' => ?_
    apply imp_congr_right
    intro hg'
    obtain ⟨g'', hg'', hvalid⟩ := h.step hm
    rw [hg''] at hg'
    simp only [Except.ok.injEq] at hg'
    exact ih (hg' ▸ hvalid)

theorem new_eq_some : new cells cols rows = some g ↔
    cols * rows < 2 ^ 64 ∧ (0 < cols ∧ 0 < rows ∧ cols * rows ≤ cells.length) ∧
      g = ⟨cells, cols, rows, 0, 0, ⟨0xC0, 0xC0, 0xC0⟩, ⟨0, 0, 0⟩, 0⟩ := by
  unfold new checkedMul
  by_cases hmul : cols * rows < 2 ^ 64
  · simp only [if_pos hmul, Option.bind_eq_bind, Option.bind_some]
    split
    · exact ⟨nofun, fun ⟨_, _, _⟩ => by omega⟩
    · simp only [Option.some.injEq]
      constructor
      · rintro rfl
        exact ⟨hmul, by omega, rfl⟩
      · rintro ⟨-, -, rfl⟩
        rfl
  · simp only [if_neg hmul, Option.bind_eq_bind, Option.bind_none]
    exact ⟨nofun, fun h => absurd h.1 hmul⟩

theorem Valid.of_new (h : new cells cols rows = some g) (harea : cols * rows < 2 ^ 32) :
    Valid g := by
  obtain ⟨-, ⟨hcols, hrows, hle⟩, rfl⟩ := new_eq_some.mp h
  exact ⟨hcols, hrows, harea, hle, hrows, Nat.zero_le _, by simp⟩

/-- A run of operations is sound throughout exactly when each finds the cursor short of the
last column if it puts a printable character, short of the range of `u32` if it puts a tab,
and the scroll count short of its range if it scrolls. -/
theorem runs_sound_iff (h : new cells cols rows = some g) (harea : cols * rows < 2 ^ 32)
    (ops : List Op) : AllSound g ops ↔ AllMeet g ops := (Valid.of_new h harea).allSound_iff

theorem runs_sound_iff_small :
    ∃ g, new (List.replicate 8 (Cell.blank ⟨0, 0, 0⟩ ⟨0, 0, 0⟩)) 4 2 = some g ∧
      (AllSound g [.put 'a' ⟨255, 255, 255⟩ ⟨0, 0, 0⟩, .scrollUp] ↔
        AllMeet g [.put 'a' ⟨255, 255, 255⟩ ⟨0, 0, 0⟩, .scrollUp]) := by
  have hnew : new (List.replicate 8 (Cell.blank ⟨0, 0, 0⟩ ⟨0, 0, 0⟩)) 4 2 = some _ := rfl
  exact ⟨_, hnew, runs_sound_iff hnew (by decide) _⟩

/-- A tab in a row of eight columns leaves the cursor past the last one. -/
theorem tab_then_put_unsound :
    ∃ g, new (List.replicate 8 (Cell.blank ⟨0, 0, 0⟩ ⟨0, 0, 0⟩)) 8 1 = some g ∧
      ¬AllSound g [.put '\t' ⟨255, 255, 255⟩ ⟨0, 0, 0⟩, .put 'a' ⟨255, 255, 255⟩ ⟨0, 0, 0⟩] ∧
      (g.put '\t' ⟨255, 255, 255⟩ ⟨0, 0, 0⟩ >>= fun g' => g'.put 'a' ⟨255, 255, 255⟩ ⟨0, 0, 0⟩) =
        .error .bounds := by
  refine ⟨_, rfl, ?_, rfl⟩
  rintro ⟨-, hnext⟩
  obtain ⟨⟨⟨g', hg'⟩, -, -⟩, -⟩ := hnext _ rfl
  exact nomatch hg'

end FerricK.TextGrid
