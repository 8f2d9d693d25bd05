import FerricK.Grid.Bounds

namespace FerricK

def overwrite (cells : List α) (i : Nat) : List α → List α
  | [] => cells
  | a :: vals => overwrite (cells.set i a) (i + 1) vals

@[simp] theorem length_overwrite (cells : List α) (i : Nat) (vals : List α) :
    (overwrite cells i vals).length = cells.length := by
  induction vals generalizing cells i with
  | nil => rfl
  | cons a vals ih => simp [overwrite, ih]

theorem getElem?_overwrite {cells vals : List α} (h : i + vals.length ≤ cells.length) (k : Nat) :
    (overwrite cells i vals)[k]? =
      if i ≤ k ∧ k < i + vals.length then vals[k - i]? else cells[k]? := by
  induction vals generalizing cells i with
  | nil => rw [overwrite, if_neg (by simp only [List.length_nil]; omega)]
  | cons a vals ih =>
    rw [List.length_cons] at h ⊢
    rw [overwrite, ih (by rw [List.length_set]; omega)]
    by_cases hi : i = k
    · subst hi
      rw [if_neg (by omega), if_pos (by omega), List.getElem?_set_self (by omega), Nat.sub_self]
      rfl
    · rw [List.getElem?_set_ne hi]
      by_cases hk : i ≤ k ∧ k < i + (vals.length + 1)
      · rw [if_pos (by omega), if_pos hk, show k - i = k - (i + 1) + 1 by omega]
        rfl
      · rw [if_neg (by omega), if_neg hk]

theorem overwrite_concat (cells : List α) (i : Nat) (vals : List α) (a : α) :
    overwrite cells i (vals ++ [a]) = (overwrite cells i vals).set (i + vals.length) a := by
  induction vals generalizing cells i with
  | nil => rfl
  | cons b vals ih =>
    rw [List.cons_append, overwrite, ih, overwrite, List.length_cons, Nat.add_assoc, Nat.add_comm 1]

namespace TextGrid

open Rust

def place (g : TextGrid) : Nat := g.row * g.cols + g.col

def inked (s : List Char) (fg bg : Rgb) : List Cell := s.map fun c => ⟨c, fg, bg⟩

variable {g : TextGrid} {c : Char} {fg bg : Rgb} {s : List Char} {cols row col p : Nat}

theorem Valid.put_next (h : Valid g) (hcol : g.col < g.cols) (hc : Printable c)
    (hnext : g.place + 1 < g.cols * g.rows) : g.put c fg bg = .ok { g with
      cells := g.cells.set g.place ⟨c, fg, bg⟩
      row := (g.place + 1) / g.cols
      col := (g.place + 1) % g.cols } := by
  have hset := h.storeAt g.row g.col ⟨c, fg, bg⟩
  rw [put_printable hc, h.storeAt_eq h.row_lt hcol ⟨c, fg, bg⟩, ok_bind, hset.advance_eq hcol]
  by_cases hlast : g.col + 1 < g.cols
  · have hplace : g.place + 1 = g.row * g.cols + (g.col + 1) := Nat.add_assoc ..
    rw [if_pos hlast, hplace, index_div hlast, index_mod hlast]
    rfl
  · have hplace : g.place + 1 = (g.row + 1) * g.cols + 0 := by
      rw [place, Nat.succ_mul]
      omega
    have hrow : g.row + 1 < g.rows := by
      rw [hplace, Nat.add_zero, Nat.mul_comm] at hnext
      exact Nat.lt_of_mul_lt_mul_left hnext
    rw [if_neg hlast, (hset.step_col hcol).linefeed_eq, if_pos hrow, hplace,
      index_div h.cols_pos, index_mod h.cols_pos]
    rfl

theorem Valid.put_last (h : Valid g) (hcol : g.col < g.cols) (hc : Printable c)
    (hlast : g.place + 1 = g.cols * g.rows) (hscroll : g.scrollCount + 1 < 2 ^ 32) :
    g.put c fg bg = .ok { g with
      cells := TextGrid.scrolled { g with cells := g.cells.set g.place ⟨c, fg, bg⟩ }
      col := 0
      scrollCount := g.scrollCount + 1 } := by
  have hset := h.storeAt g.row g.col ⟨c, fg, bg⟩
  have harea := h.area
  have hrow : g.row + 1 = g.rows := by
    by_contra hne
    have hlt := h.row_lt
    have hmul : (g.row + 2) * g.cols ≤ g.rows * g.cols := Nat.mul_le_mul_right _ (by omega)
    rw [place, Nat.mul_comm g.cols] at hlast
    rw [Nat.add_mul] at hmul
    omega
  have hend : ¬g.col + 1 < g.cols := by
    intro hlt
    have hrows : g.rows - 1 = g.row := by omega
    rw [hrows] at harea
    rw [place] at hlast
    omega
  rw [put_printable hc, h.storeAt_eq h.row_lt hcol ⟨c, fg, bg⟩, ok_bind, hset.advance_eq hcol,
    if_neg hend, (hset.step_col hcol).linefeed_eq, if_neg (by simp only; omega),
    hset.home.scrollUp_eq hscroll]
  rfl

theorem Valid.putAll_inked (h : Valid g) (hcol : g.col < g.cols) (hs : ∀ c ∈ s, Printable c)
    (hend : g.place + s.length < g.cols * g.rows) (fg bg : Rgb) :
    forEach s (fun c g => g.put c fg bg) g = .ok { g with
      cells := overwrite g.cells g.place (inked s fg bg)
      row := (g.place + s.length) / g.cols
      col := (g.place + s.length) % g.cols } := by
  induction s generalizing g with
  | nil =>
    rw [forEach_nil, List.length_nil, Nat.add_zero, place, index_div hcol, index_mod hcol]
    rfl
  | cons c s ih =>
    obtain ⟨hc, hs⟩ := List.forall_mem_cons.mp hs
    rw [List.length_cons] at hend ⊢
    let next : TextGrid := { g with
      cells := g.cells.set g.place ⟨c, fg, bg⟩
      row := (g.place + 1) / g.cols
      col := (g.place + 1) % g.cols }
    have hplace : next.place = g.place + 1 := Nat.div_add_mod' ..
    have hvalid : Valid next :=
      ⟨h.cols_pos, h.rows_pos, h.area_lt, List.length_set.symm ▸ h.area_le,
        Nat.div_lt_of_lt_mul (show g.place + 1 < g.cols * g.rows by omega),
        (Nat.mod_lt _ h.cols_pos).le, h.scroll_lt⟩
    have hroom : next.place + s.length < g.cols * g.rows := by omega
    have hrest := ih hvalid (Nat.mod_lt _ h.cols_pos) hs hroom
    rw [forEach_cons, h.put_next hcol hc (by omega), ok_bind, hrest, hplace, Nat.add_assoc,
      Nat.add_comm 1]
    rfl

end TextGrid

end FerricK
