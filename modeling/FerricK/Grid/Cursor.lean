import FerricK.Grid.Typing

namespace FerricK

structure Cursor where
  row : Nat
  col : Nat
  scrolls : Nat
  deriving DecidableEq, Repr

namespace Cursor

def linefeed (rows : Nat) (k : Cursor) : Option Cursor :=
  if k.row + 1 < rows then some { k with row := k.row + 1, col := 0 }
  else if k.scrolls + 1 < 2 ^ 32 then some { k with col := 0, scrolls := k.scrolls + 1 }
  else none

def put (cols rows len : Nat) (k : Cursor) (c : Char) : Option Cursor :=
  if c = '\n' then k.linefeed rows
  else if c = '\r' then some { k with col := 0 }
  else if c = '\t' then some { k with col := min ((k.col / tabWidth + 1) * tabWidth) cols }
  else if len ≤ k.row * cols + k.col then none
  else if k.col + 1 < cols then some { k with col := k.col + 1 }
  else k.linefeed rows

def follow (cols rows len : Nat) (s : List Char) (k : Cursor) : Option Cursor :=
  s.foldlM (put cols rows len) k

variable {cols rows len : Nat} {k k' : Cursor} {c : Char} {s : List Char}

theorem linefeed_mk (row col scrolls : Nat) : linefeed rows ⟨row, col, scrolls⟩ =
    if row + 1 < rows then some ⟨row + 1, 0, scrolls⟩
    else if scrolls + 1 < 2 ^ 32 then some ⟨row, 0, scrolls + 1⟩
    else none := rfl

theorem put_mk (row col scrolls : Nat) (c : Char) : put cols rows len ⟨row, col, scrolls⟩ c =
    if c = '\n' then linefeed rows ⟨row, col, scrolls⟩
    else if c = '\r' then some ⟨row, 0, scrolls⟩
    else if c = '\t' then some ⟨row, min ((col / tabWidth + 1) * tabWidth) cols, scrolls⟩
    else if len ≤ row * cols + col then none
    else if col + 1 < cols then some ⟨row, col + 1, scrolls⟩
    else linefeed rows ⟨row, col, scrolls⟩ := rfl

theorem linefeed_col (h : k.linefeed rows = some k') : k'.col = 0 := by
  unfold linefeed at h
  grind

theorem linefeed_scrolls (h : k.linefeed rows = some k') :
    k.scrolls ≤ k'.scrolls ∧ k'.scrolls ≤ k.scrolls + 1 := by
  unfold linefeed at h
  grind

/-- Only a tab leaves the cursor past the last column. -/
theorem put_col (hcols : 0 < cols) (h : put cols rows len k c = some k') :
    k'.col < cols ∨ c = '\t' ∧ cols ≤ (k.col / tabWidth + 1) * tabWidth := by
  unfold put at h
  split at h
  · exact Or.inl (linefeed_col h ▸ hcols)
  split at h
  · cases h
    exact Or.inl hcols
  split at h
  · next htab =>
    cases h
    by_cases hstop : (k.col / tabWidth + 1) * tabWidth < cols
    · exact Or.inl (min_lt_of_left_lt hstop)
    · exact Or.inr ⟨htab, not_lt.mp hstop⟩
  split at h
  · exact nomatch h
  split at h
  · next hlt =>
    cases h
    exact Or.inl hlt
  · exact Or.inl (linefeed_col h ▸ hcols)

theorem put_scrolls (h : put cols rows len k c = some k') :
    k.scrolls ≤ k'.scrolls ∧ k'.scrolls ≤ k.scrolls + 1 := by
  unfold put at h
  have hline : k.linefeed rows = some k' → k.scrolls ≤ k'.scrolls ∧ k'.scrolls ≤ k.scrolls + 1 :=
    linefeed_scrolls
  grind

theorem follow_cons (c : Char) (s : List Char) (k : Cursor) :
    follow cols rows len (c :: s) k = (put cols rows len k c).bind (follow cols rows len s) := rfl

theorem follow_concat (s : List Char) (c : Char) (k : Cursor) :
    follow cols rows len (s ++ [c]) k =
      (follow cols rows len s k).bind (put cols rows len · c) := by
  simp [follow, List.foldlM_append]

theorem follow_col (hcols : 0 < cols) (hk : k.col < cols)
    (h : follow cols rows len s k = some k') :
    k'.col < cols ∨ ∃ p k₁, s = p ++ ['\t'] ∧ follow cols rows len p k = some k₁ ∧
      cols ≤ (k₁.col / tabWidth + 1) * tabWidth := by
  obtain rfl | ⟨p, c, rfl⟩ := List.eq_nil_or_concat s
  · cases h
    exact Or.inl hk
  · rw [List.concat_eq_append, follow_concat] at h
    obtain ⟨k₁, hp, hput⟩ := Option.bind_eq_some_iff.mp h
    obtain hlt | ⟨rfl, hstop⟩ := put_col hcols hput
    · exact Or.inl hlt
    · exact Or.inr ⟨p, k₁, List.concat_eq_append, hp, hstop⟩

theorem follow_tab (h : follow cols rows len s k = some k')
    (hstop : cols ≤ (k'.col / tabWidth + 1) * tabWidth) :
    follow cols rows len (s ++ ['\t']) k = some { k' with col := cols } := by
  rw [follow_concat, h, Option.bind_some, put, if_neg (by decide), if_neg (by decide), if_pos rfl,
    Nat.min_eq_right hstop]

theorem follow_scrolls (h : follow cols rows len s k = some k') :
    k.scrolls ≤ k'.scrolls ∧ k'.scrolls ≤ k.scrolls + s.length := by
  induction s generalizing k with
  | nil =>
    cases h
    exact ⟨le_rfl, le_rfl⟩
  | cons c s ih =>
    obtain ⟨k₁, hput, hrest⟩ := Option.bind_eq_some_iff.mp h
    have hhead := put_scrolls hput
    have htail := ih hrest
    rw [List.length_cons]
    omega

end Cursor

namespace TextGrid

open Rust

def cursor (g : TextGrid) : Cursor := ⟨g.row, g.col, g.scrollCount⟩

def recount (g : TextGrid) (n : Nat) : TextGrid := { g with scrollCount := n }

structure Typed (g g' : TextGrid) : Prop where
  valid : g'.Valid
  shape : g' = { g with
    cells := g'.cells, row := g'.row, col := g'.col, scrollCount := g'.scrollCount }
  length : g'.cells.length = g.cells.length

def Follows (g : TextGrid) (x : Rust TextGrid) (k : Option Cursor) : Prop :=
  (∃ e, x = .error e ∧ k = none) ∨ ∃ g', x = .ok g' ∧ k = some g'.cursor ∧ Typed g g'

variable {g g' : TextGrid} {c : Char} {fg bg : Rgb} {s : List Char} {m : Nat}

theorem Valid.recount (h : g.Valid) (hm : m < 2 ^ 32) : (g.recount m).Valid :=
  ⟨h.cols_pos, h.rows_pos, h.area_lt, h.area_le, h.row_lt, h.col_le, hm⟩

theorem Typed.refl (h : g.Valid) : Typed g g := ⟨h, rfl, rfl⟩

theorem Typed.cols (h : Typed g g') : g'.cols = g.cols := by rw [h.shape]

theorem Typed.rows (h : Typed g g') : g'.rows = g.rows := by rw [h.shape]

theorem Typed.trans {g'' : TextGrid} (h : Typed g g') (h' : Typed g' g'') : Typed g g'' :=
  ⟨h'.valid, by rw [h'.shape, h.shape], h'.length.trans h.length⟩

theorem Follows.ok (h : Typed g g') : Follows g (.ok g') (some g'.cursor) :=
  Or.inr ⟨g', rfl, rfl, h⟩

theorem Follows.error (e : Stop) : Follows g (.error e) none := Or.inl ⟨e, rfl, rfl⟩

theorem Follows.of_ok {x : Rust TextGrid} {k : Option Cursor} (h : Follows g x k)
    (hx : x = .ok g') : Typed g g' ∧ k = some g'.cursor := by
  obtain ⟨e, he, -⟩ | ⟨g'', hok, hk, htyped⟩ := h
  · exact nomatch he.symm.trans hx
  · cases hok.symm.trans hx
    exact ⟨htyped, hk⟩

theorem Follows.of_some {x : Rust TextGrid} {k : Cursor} (h : Follows g x (some k)) :
    ∃ g', x = .ok g' ∧ g'.cursor = k ∧ Typed g g' := by
  obtain ⟨e, -, hk⟩ | ⟨g', hok, hk, htyped⟩ := h
  · exact nomatch hk
  · exact ⟨g', hok, (Option.some.inj hk).symm, htyped⟩

theorem Typed.follows {x : Rust TextGrid} {k : Option Cursor} (h : Typed g g')
    (hx : Follows g' x k) : Follows g x k := by
  obtain herror | ⟨g'', hx, hk, htyped⟩ := hx
  · exact Or.inl herror
  · exact Or.inr ⟨g'', hx, hk, h.trans htyped⟩

theorem Valid.setCol {col : Nat} (h : g.Valid) (hcol : col ≤ g.cols) :
    Typed g { g with col := col } :=
  ⟨⟨h.cols_pos, h.rows_pos, h.area_lt, h.area_le, h.row_lt, hcol, h.scroll_lt⟩, rfl, rfl⟩

theorem Valid.linefeed_cursor (h : g.Valid) :
    Follows g g.linefeed (g.cursor.linefeed g.rows) := by
  rw [h.linefeed_eq, cursor, Cursor.linefeed_mk]
  by_cases hrow : g.row + 1 < g.rows
  · rw [if_pos hrow, if_pos hrow]
    exact Follows.ok ⟨⟨h.cols_pos, h.rows_pos, h.area_lt, h.area_le, hrow, Nat.zero_le _,
      h.scroll_lt⟩, rfl, rfl⟩
  rw [if_neg hrow, if_neg hrow]
  by_cases hscroll : g.scrollCount + 1 < 2 ^ 32
  · rw [h.home.scrollUp_eq hscroll, if_pos hscroll]
    exact Follows.ok ⟨h.home.scrolled hscroll, rfl, h.home.length_scrolled⟩
  · rw [if_neg hscroll]
    cases hup : TextGrid.scrollUp { g with col := 0 } with
    | error e => exact Follows.error e
    | ok g' => exact absurd hup (scrollUp_ne_ok (by exact hscroll) g')

theorem Valid.put_cursor (h : g.Valid) (hcols : g.cols < 2 ^ 31) (c : Char) (fg bg : Rgb) :
    Follows g (g.put c fg bg) (g.cursor.put g.cols g.rows g.cells.length c) := by
  have hdims := h.dims
  have hcol := h.col_le
  have harea := h.area_lt
  by_cases ht : c = '\t'
  · have hstop := tab_stop g.col
    subst ht
    rw [put_tab (by omega)]
    exact Follows.ok (h.setCol (Nat.min_le_right ..))
  rw [TextGrid.put, cursor, Cursor.put_mk]
  by_cases hn : c = '\n'
  · rw [if_pos hn, if_pos hn]
    exact h.linefeed_cursor
  rw [if_neg hn, if_neg hn]
  by_cases hr : c = '\r'
  · rw [if_pos hr, if_pos hr]
    exact Follows.ok (h.setCol (Nat.zero_le _))
  rw [if_neg hr, if_neg hr]
  rw [if_neg ht, if_neg ht, TextGrid.storeAt, h.index_eq h.row_lt hcol, ok_bind]
  by_cases hlen : g.cells.length ≤ g.row * g.cols + g.col
  · rw [store, if_neg (by omega), if_pos hlen]
    exact Follows.error _
  rw [store_of_lt (by omega), ok_bind, pure_eq_ok, ok_bind, if_neg hlen]
  have hset : Typed g { g with cells := g.cells.set (g.row * g.cols + g.col) ⟨c, fg, bg⟩ } :=
    ⟨h.setCells List.length_set, rfl, List.length_set⟩
  apply hset.follows
  by_cases hlast : g.col + 1 < g.cols
  · rw [hset.valid.advance_eq (Nat.lt_of_succ_lt hlast), if_pos hlast, if_pos hlast]
    exact Follows.ok (hset.valid.setCol hlast.le)
  · rw [if_neg hlast, TextGrid.advance, uadd_of_lt (by simp only; omega), ok_bind,
      if_pos (Nat.le_of_not_lt hlast)]
    -- `linefeed` does not look at the column
    exact hset.valid.linefeed_cursor

theorem Valid.putAll_cursor (h : g.Valid) (hcols : g.cols < 2 ^ 31) (s : List Char)
    (fg bg : Rgb) : Follows g (forEach s (fun c g => g.put c fg bg) g)
      (g.cursor.follow g.cols g.rows g.cells.length s) := by
  induction s generalizing g with
  | nil => exact Follows.ok (Typed.refl h)
  | cons c s ih =>
    rw [forEach_cons, Cursor.follow_cons]
    obtain ⟨e, hput, hnone⟩ | ⟨g', hput, hsome, htyped⟩ := h.put_cursor hcols c fg bg
    · rw [hput, hnone]
      exact Follows.error e
    · rw [hput, hsome, ok_bind, Option.bind_some, ← htyped.cols, ← htyped.rows, ← htyped.length]
      exact htyped.follows (ih htyped.valid (htyped.cols ▸ hcols))

theorem Valid.linefeed_recount (h : g.Valid) (hg : g.linefeed = .ok g')
    (hm : m + (g'.scrollCount - g.scrollCount) < 2 ^ 32) :
    (g.recount m).linefeed = .ok (g'.recount (m + (g'.scrollCount - g.scrollCount))) := by
  have hvalid : (g.recount m).Valid := h.recount (by omega)
  rw [h.linefeed_eq] at hg
  rw [hvalid.linefeed_eq]
  by_cases hrow : g.row + 1 < g.rows
  · rw [if_pos hrow] at hg
    cases hg
    rw [if_pos (show (g.recount m).row + 1 < (g.recount m).rows from hrow), Nat.sub_self]
    rfl
  · rw [if_neg hrow] at hg
    rw [if_neg (show ¬(g.recount m).row + 1 < (g.recount m).rows from hrow)]
    by_cases hscroll : g.scrollCount + 1 < 2 ^ 32
    · rw [h.home.scrollUp_eq hscroll] at hg
      cases hg
      rw [hvalid.home.scrollUp_eq (show m + 1 < 2 ^ 32 by simp only at hm; omega)]
      simp only [Nat.add_sub_cancel_left]
      rfl
    · exact absurd hg (scrollUp_ne_ok (by exact hscroll) g')

theorem Valid.advance_recount (h : g.Valid) (hg : g.advance = .ok g')
    (hm : m + (g'.scrollCount - g.scrollCount) < 2 ^ 32) :
    (g.recount m).advance = .ok (g'.recount (m + (g'.scrollCount - g.scrollCount))) := by
  rw [TextGrid.advance] at hg ⊢
  obtain ⟨col, hcol, hg⟩ := bind_eq_ok.mp hg
  rw [show (g.recount m).col = g.col from rfl, hcol, ok_bind]
  simp only at hg ⊢
  by_cases hlast : col ≥ g.cols
  · rw [if_pos hlast] at hg
    rw [if_pos (show col ≥ (g.recount m).cols from hlast)]
    -- `linefeed` does not look at the column
    exact h.linefeed_recount hg hm
  · rw [if_neg hlast] at hg
    rw [if_neg (show ¬col ≥ (g.recount m).cols from hlast)]
    cases hg
    rw [Nat.sub_self]
    rfl

/-- The scroll count has no say in what text does, as long as it can count. -/
theorem Valid.put_recount (h : g.Valid) (hg : g.put c fg bg = .ok g')
    (hm : m + (g'.scrollCount - g.scrollCount) < 2 ^ 32) :
    (g.recount m).put c fg bg =
      .ok (g'.recount (m + (g'.scrollCount - g.scrollCount))) := by
  rw [TextGrid.put] at hg ⊢
  by_cases hn : c = '\n'
  · rw [if_pos hn] at hg ⊢
    exact h.linefeed_recount hg hm
  rw [if_neg hn] at hg ⊢
  by_cases hr : c = '\r'
  · rw [if_pos hr] at hg ⊢
    cases hg
    rw [Nat.sub_self]
    rfl
  rw [if_neg hr] at hg ⊢
  by_cases ht : c = '\t'
  · rw [if_pos ht] at hg ⊢
    obtain ⟨k, hk, hg⟩ := bind_eq_ok.mp hg
    obtain ⟨next, hnext, hg⟩ := bind_eq_ok.mp hg
    cases hg
    rw [show (g.recount m).col = g.col from rfl, hk, ok_bind, hnext, ok_bind, Nat.sub_self]
    rfl
  rw [if_neg ht] at hg ⊢
  obtain ⟨g₁, hstore, hg⟩ := bind_eq_ok.mp hg
  obtain ⟨i, hi, hstore⟩ := bind_eq_ok.mp hstore
  obtain ⟨cells, hcells, hstore⟩ := bind_eq_ok.mp hstore
  cases hstore
  have hset : TextGrid.Valid { g with cells := cells } := by
    unfold store at hcells
    split at hcells
    · cases hcells
      exact h.setCells List.length_set
    · cases hcells
  rw [TextGrid.storeAt, show (g.recount m).index (g.recount m).row (g.recount m).col = _ from hi,
    ok_bind, show store (g.recount m).cells i _ = _ from hcells, ok_bind, pure_eq_ok, ok_bind]
  exact hset.advance_recount hg hm

theorem Valid.putAll_recount (h : g.Valid) (hcols : g.cols < 2 ^ 31)
    (hg : forEach s (fun c g => g.put c fg bg) g = .ok g')
    (hm : m + (g'.scrollCount - g.scrollCount) < 2 ^ 32) :
    forEach s (fun c g => g.put c fg bg) (g.recount m) =
      .ok (g'.recount (m + (g'.scrollCount - g.scrollCount))) := by
  induction s generalizing g m with
  | nil =>
    cases hg
    rw [forEach_nil, Nat.sub_self, Nat.add_zero]
  | cons c s ih =>
    rw [forEach_cons] at hg ⊢
    obtain ⟨g₁, hput, hrest⟩ := bind_eq_ok.mp hg
    obtain ⟨htyped, hhead⟩ := (h.put_cursor hcols c fg bg).of_ok hput
    obtain ⟨-, htail⟩ := (htyped.valid.putAll_cursor (htyped.cols ▸ hcols) s fg bg).of_ok hrest
    have hfirst := Cursor.put_scrolls hhead
    have hlater := Cursor.follow_scrolls htail
    simp only [cursor] at hfirst hlater
    rw [h.put_recount hput (by omega), ok_bind,
      ih htyped.valid (htyped.cols ▸ hcols) hrest (by omega)]
    congr 2
    omega

theorem Valid.place_lt (h : g.Valid) (hcol : g.col < g.cols) : g.place < g.cols * g.rows :=
  index_lt h.row_lt hcol

theorem Valid.putAll_still (h : g.Valid) (hcols : g.cols < 2 ^ 31) (hcol : g.col < g.cols)
    (hs : ∀ c ∈ s, Printable c) (hcount : g.scrollCount + 1 < 2 ^ 32)
    (hg : forEach s (fun c g => g.put c fg bg) g = .ok g')
    (hstill : g'.scrollCount = g.scrollCount) :
    g'.place = g.place + s.length ∧
      ∀ i, i < g.place ∨ g.place + s.length ≤ i → g'.cells[i]? = g.cells[i]? := by
  induction s generalizing g with
  | nil =>
    cases hg
    exact ⟨rfl, fun _ _ => rfl⟩
  | cons c s ih =>
    obtain ⟨hc, hs⟩ := List.forall_mem_cons.mp hs
    rw [forEach_cons] at hg
    obtain ⟨g₁, hput, hrest⟩ := bind_eq_ok.mp hg
    have htyped := ((h.put_cursor hcols c fg bg).of_ok hput).1
    have hwide : g₁.cols < 2 ^ 31 := htyped.cols ▸ hcols
    by_cases hnext : g.place + 1 < g.cols * g.rows
    · rw [h.put_next hcol hc hnext] at hput
      cases hput
      obtain ⟨hplace, hsame⟩ := ih htyped.valid hwide (Nat.mod_lt _ h.cols_pos) hs hcount hrest
        hstill
      have hfirst : (g.place + 1) / g.cols * g.cols + (g.place + 1) % g.cols = g.place + 1 :=
        Nat.div_add_mod' ..
      simp only [place] at hplace hsame hfirst ⊢
      rw [hfirst] at hplace hsame
      rw [List.length_cons]
      refine ⟨by omega, fun i hi => ?_⟩
      rw [hsame i (by omega), List.getElem?_set_ne (by omega)]
    · -- the last cell scrolls, and nothing after it counts down
      have hlast : g.place + 1 = g.cols * g.rows := by
        have hlt := h.place_lt hcol
        omega
      rw [h.put_last hcol hc hlast hcount] at hput
      cases hput
      have hrun := ((htyped.valid.putAll_cursor hwide s fg bg).of_ok hrest).2
      have hmono := (Cursor.follow_scrolls hrun).1
      simp only [cursor] at hmono
      omega

theorem Valid.putAll_returns (h : g.Valid) (hcols : g.cols < 2 ^ 31) (hcol : g.col < g.cols)
    (hs : ∀ c ∈ s, Printable c) (hcount : g.scrollCount + s.length < 2 ^ 32) (fg bg : Rgb) :
    ∃ g', forEach s (fun c g => g.put c fg bg) g = .ok g' := by
  induction s generalizing g with
  | nil => exact ⟨g, rfl⟩
  | cons c s ih =>
    obtain ⟨hc, hs⟩ := List.forall_mem_cons.mp hs
    rw [List.length_cons] at hcount
    have hmeets : Meets g (.put c fg bg) := by
      refine ⟨fun _ _ _ _ _ => hcol, ?_, fun _ => by omega⟩
      rintro _ _ ⟨⟩
      exact absurd rfl hc.2.2
    obtain ⟨g₁, hput, hvalid⟩ := h.put hmeets
    obtain ⟨htyped, hcursor⟩ := (h.put_cursor hcols c fg bg).of_ok hput
    have hscrolls := (Cursor.put_scrolls hcursor).2
    simp only [cursor] at hscrolls
    have hcol₁ : g₁.col < g₁.cols := by
      rw [htyped.cols]
      exact (Cursor.put_col h.cols_pos hcursor).resolve_right fun htab => hc.2.2 htab.1
    obtain ⟨g', hrest⟩ := ih hvalid (htyped.cols ▸ hcols) hcol₁ hs (by omega)
    exact ⟨g', by rw [forEach_cons, hput, ok_bind, hrest]⟩

end TextGrid

end FerricK
