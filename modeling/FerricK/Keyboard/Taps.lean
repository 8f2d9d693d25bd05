import FerricK.Keyboard.Modifiers

namespace FerricK.Screen

def drain (s : Screen) (batch : List KeyEvent) : Screen := batch.foldl key s

inductive LoopTop : Screen → Prop
  | start : LoopTop start
  | next {s : Screen} (h : LoopTop s) (batch : List KeyEvent) : LoopTop (s.drain batch).frame

/-- Taps, moves and characters, and the releases of their keys; a character that a device delivers
is printable. -/
def Batched : KeyEvent → Bool
  | .press .enter | .press .up | .press .down | .press .left | .press .right => true
  | .release .enter | .release .up | .release .down | .release .left | .release .right => true
  | .press (.char c) | .release (.char c) => isPrintable c
  | _ => false

def moved (row col : Int) : KeyEvent → Int × Int
  | .press .up => moveSelection row col (-1) 0
  | .press .down => moveSelection row col 1 0
  | .press .left => moveSelection row col 0 (-1)
  | .press .right => moveSelection row col 0 1
  | _ => (row, col)

def selection (row col : Int) : List KeyEvent → Int × Int
  | [] => (row, col)
  | e :: batch => selection (moved row col e).1 (moved row col e).2 batch

def glyph (m : KeyboardModel) : ScreenKey → Option KeyEvent
  | .char low high => some (.press (.char (m.encode low high)))
  | .space => some (.press (.char ' '))
  | .del => some (.press .backspace)
  | .enter => some (.press .enter)
  | .shift | .caps => none

def tapped (m : KeyboardModel) (row col : Int) : Option KeyEvent :=
  (selectedKey row col).bind (glyph m)

def presses (m : KeyboardModel) (row col : Int) : KeyEvent → List KeyEvent
  | .press .enter => (tapped m row col).toList
  | .press (.char c) => [.press (.char c)]
  | _ => []

def inOrder (m : KeyboardModel) (row col : Int) : List KeyEvent → List KeyEvent
  | [] => []
  | e :: batch => presses m row col e ++ inOrder m (moved row col e).1 (moved row col e).2 batch

/-- At most one tap, and after it no character but the one it types. -/
def LastTapOnly (m : KeyboardModel) (row col : Int) (batch : List KeyEvent) : Prop :=
  ∀ before after, batch = before ++ .press .enter :: after →
    .press .enter ∉ after ∧ ∀ c, .press (.char c) ∈ after →
      tapped m (selection row col before).1 (selection row col before).2 = some (.press (.char c))

def physical : KeyEvent → List KeyEvent
  | .press (.char c) => [.press (.char c)]
  | _ => []

def lastTap (m : KeyboardModel) (row col : Int) : List KeyEvent → Option KeyEvent
  | [] => none
  | e :: batch =>
    lastTap m (moved row col e).1 (moved row col e).2 batch <|>
      if e = .press .enter then tapped m row col else none

structure InGrid (row col : Int) : Prop where
  row_nonneg : 0 ≤ row
  row_lt : row < 4
  col_nonneg : 0 ≤ col
  col_lt : col < gridRows.getD row.toNat 0

variable {m : KeyboardModel} {row col : Int} {s : Screen} {e : KeyEvent} {batch : List KeyEvent}

theorem inGrid_moveSelection (row col dr dc : Int) :
    InGrid (moveSelection row col dr dc).1 (moveSelection row col dr dc).2 := by
  have hrow : 0 ≤ max 0 (min (row + dr) 3) ∧ max 0 (min (row + dr) 3) < 4 := by omega
  have hwidth : ∀ n : Nat, n < 4 → 0 < gridRows.getD n 0 := by decide
  have hpos := hwidth (max 0 (min (row + dr) 3)).toNat (by omega)
  refine ⟨hrow.1, hrow.2, le_max_left _ _, ?_⟩
  simp only [moveSelection, show ((gridRows.length : Int) - 1) = 3 from rfl]
  omega

theorem InGrid.moved (h : InGrid row col) (e : KeyEvent) :
    InGrid (moved row col e).1 (moved row col e).2 := by
  unfold Screen.moved
  split
  · exact inGrid_moveSelection row col (-1) 0
  · exact inGrid_moveSelection row col 1 0
  · exact inGrid_moveSelection row col 0 (-1)
  · exact inGrid_moveSelection row col 0 1
  · exact h

theorem InGrid.toNat (h : InGrid row col) : ∃ r : Fin 4, ∃ c : Fin 13,
    row = (r : Nat) ∧ col = (c : Nat) ∧ (c : Int) < gridRows.getD r 0 := by
  have hwidth : ∀ n : Nat, n < 4 → gridRows.getD n 0 ≤ 13 := by decide
  have hcol := hwidth row.toNat (by have := h.row_lt; omega)
  obtain ⟨hrow, hlt, hnonneg, hin⟩ := h
  refine ⟨⟨row.toNat, by omega⟩, ⟨col.toNat, by omega⟩, (Int.toNat_of_nonneg hrow).symm,
    (Int.toNat_of_nonneg hnonneg).symm, ?_⟩
  rw [Int.toNat_of_nonneg hnonneg]
  exact hin

theorem selectedKey_eq (h : InGrid row col) :
    selectedKey row col = (charKeys row.toNat)[col.toNat]? := by
  have hall : ∀ r : Fin 4, ∀ c : Fin 13, (c : Int) < gridRows.getD r 0 →
      selectedKey (r : Nat) (c : Nat) = (charKeys r)[(c : Nat)]? := by
    decide +kernel
  obtain ⟨r, c, rfl, rfl, hin⟩ := h.toNat
  exact hall r c hin

def isGraphicKey : ScreenKey → Bool
  | .char low high => isAsciiGraphic low && isAsciiGraphic high
  | _ => false

theorem charKeys_graphic : ∀ r : Fin 4, (charKeys r).length = gridRows.getD r 0 ∧
    ∀ key ∈ charKeys r, isGraphicKey key = true := by
  decide +kernel

theorem isGraphicKey_eq_true {key : ScreenKey} (h : isGraphicKey key = true) :
    ∃ low high, key = .char low high ∧ isAsciiGraphic low = true ∧ isAsciiGraphic high = true := by
  cases key with
  | char low high => exact ⟨low, high, rfl, Bool.and_eq_true_iff.mp h⟩
  | _ => exact absurd h (by decide)

theorem isAsciiGraphic_encode {low high : Char} (hlow : isAsciiGraphic low = true)
    (hhigh : isAsciiGraphic high = true) (m : KeyboardModel) :
    isAsciiGraphic (m.encode low high) = true := by
  unfold KeyboardModel.encode
  repeat' split
  all_goals assumption

theorem InGrid.selectedKey (h : InGrid row col) : ∃ low high,
    selectedKey row col = some (.char low high) ∧ isAsciiGraphic low = true ∧
      isAsciiGraphic high = true := by
  rw [selectedKey_eq h]
  obtain ⟨r, c, rfl, rfl, hin⟩ := h.toNat
  obtain ⟨hlength, hgraphic⟩ := charKeys_graphic r
  have hlt : (c : Nat) < (charKeys r).length := by omega
  obtain ⟨low, high, hkey, hlow, hhigh⟩ :=
    isGraphicKey_eq_true (hgraphic _ (List.getElem_mem hlt))
  exact ⟨low, high, (List.getElem?_eq_getElem hlt).trans (congrArg some hkey), hlow, hhigh⟩

theorem InGrid.tapped (h : InGrid row col) (m : KeyboardModel) :
    ∃ c, tapped m row col = some (.press (.char c)) := by
  obtain ⟨low, high, hkey, -⟩ := h.selectedKey
  exact ⟨m.encode low high, by rw [Screen.tapped, hkey]; rfl⟩

def waiting (m : KeyboardModel) : PendingKey → Option KeyEvent
  | .char low high => some (.press (.char (m.encode low high)))
  | .space => some (.press (.char ' '))
  | .backspace => some (.press .backspace)
  | .enter => some (.press .enter)
  | .none => none

def Sendable : PendingKey → Prop
  | .char low high => isAsciiGraphic low = true ∧ isAsciiGraphic high = true
  | _ => True

theorem dispatched_frame (h : Sendable s.pending) :
    s.frame.dispatched = s.dispatched ++ (waiting s.state s.pending).toList := by
  cases hpending : s.pending with
  | char low high =>
    rw [hpending] at h
    have htext : hasText (.char (s.state.encode low high)) = true := by
      simp [hasText, isPrintable, isAsciiGraphic_encode h.1 h.2]
    simp [frame, applyState, hpending, dispatchPendingKey, dispatched_dispatch, KeyEvent.key, htext,
      waiting]
  | none => simp [frame, applyState, hpending, dispatchPendingKey, waiting]
  | _ => simp [frame, applyState, hpending, dispatchPendingKey, dispatched_dispatch, KeyEvent.key,
      hasText, isPrintable, waiting]

structure Turn (s : Screen) (e : KeyEvent) (s' : Screen) : Prop where
  state : s'.state = s.state
  selRow : s'.selRow = (moved s.selRow s.selCol e).1
  selCol : s'.selCol = (moved s.selRow s.selCol e).2
  dispatched : s'.dispatched = s.dispatched ++ physical e
  sendable : Sendable s.pending → Sendable s'.pending
  waiting : waiting s'.state s'.pending =
    ((if e = .press .enter then tapped s.state s.selRow s.selCol else none) <|>
      waiting s.state s.pending)

theorem Turn.refl (hphysical : physical e = []) (hmoved : moved s.selRow s.selCol e =
    (s.selRow, s.selCol)) (hne : e ≠ .press .enter) : Turn s e s where
  state := rfl
  selRow := (congrArg Prod.fst hmoved).symm
  selCol := (congrArg Prod.snd hmoved).symm
  dispatched := by rw [hphysical, List.append_nil]
  sendable h := h
  waiting := by simp [hne]

theorem Turn.move {dr dc : Int} (hphysical : physical e = []) (hmoved :
    moved s.selRow s.selCol e = moveSelection s.selRow s.selCol dr dc) (hne : e ≠ .press .enter) :
    Turn s e (s.move dr dc) where
  state := rfl
  selRow := (congrArg Prod.fst hmoved).symm
  selCol := (congrArg Prod.snd hmoved).symm
  dispatched := by rw [hphysical, List.append_nil]; rfl
  sendable h := h
  waiting := by simp [hne, Screen.move]

theorem Turn.clickSelected (hgrid : InGrid s.selRow s.selCol) :
    Turn s (.press .enter) s.clickSelected := by
  obtain ⟨low, high, hkey, hlow, hhigh⟩ := hgrid.selectedKey
  have hclick : s.clickSelected = { s with pending := .char low high } := by
    rw [Screen.clickSelected, hkey]
    rfl
  rw [hclick]
  constructor
  · rfl
  · rfl
  · rfl
  · exact (List.append_nil _).symm
  · exact fun _ => ⟨hlow, hhigh⟩
  · rw [if_pos rfl, Screen.tapped, hkey]
    rfl

theorem Turn.char {c : Char} (h : isPrintable c = true) :
    Turn s (.press (.char c)) (s.key (.press (.char c))) := by
  have hkey : s.key (.press (.char c)) =
      { s with dispatched := s.dispatched ++ [.press (.char c)] } := by
    simp only [Screen.key, KeyboardModel.encode_self]
    exact if_pos h
  rw [hkey]
  constructor
  · rfl
  · rfl
  · rfl
  · rfl
  · exact fun hsend => hsend
  · simp

theorem turn (hgrid : InGrid s.selRow s.selCol) (h : Batched e = true) : Turn s e (s.key e) := by
  cases e with
  | press key =>
    cases key with
    | char c => exact Turn.char h
    | enter => exact Turn.clickSelected hgrid
    | up => exact Turn.move rfl rfl (by decide)
    | down => exact Turn.move rfl rfl (by decide)
    | left => exact Turn.move rfl rfl (by decide)
    | right => exact Turn.move rfl rfl (by decide)
    | _ => exact absurd h (by simp [Batched])
  | release key =>
    cases key with
    | char c => exact Turn.refl rfl rfl (by simp)
    | enter => exact Turn.refl rfl rfl (by decide)
    | up => exact Turn.refl rfl rfl (by decide)
    | down => exact Turn.refl rfl rfl (by decide)
    | left => exact Turn.refl rfl rfl (by decide)
    | right => exact Turn.refl rfl rfl (by decide)
    | _ => exact absurd h (by simp [Batched])

theorem dispatched_drain (hgrid : InGrid s.selRow s.selCol) (hsend : Sendable s.pending)
    (h : ∀ e ∈ batch, Batched e = true) : (s.drain batch).frame.dispatched =
      s.dispatched ++ batch.flatMap physical ++
        (lastTap s.state s.selRow s.selCol batch <|> waiting s.state s.pending).toList := by
  induction batch generalizing s with
  | nil => simpa [drain, lastTap] using dispatched_frame hsend
  | cons e batch ih =>
    obtain ⟨he, hbatch⟩ := List.forall_mem_cons.mp h
    have hturn := turn hgrid he
    have hgrid' : InGrid (s.key e).selRow (s.key e).selCol := by
      rw [hturn.selRow, hturn.selCol]
      exact hgrid.moved e
    have hdrain := ih hgrid' (hturn.sendable hsend) hbatch
    rw [drain, List.foldl_cons, ← drain, hdrain, hturn.dispatched, hturn.waiting, hturn.selRow,
      hturn.selCol, hturn.state, lastTap, List.flatMap_cons]
    simp [Option.or_assoc]

theorem mem_physical {c : Char} : .press (.char c) ∈ physical e ↔ e = .press (.char c) := by
  unfold physical
  split
  · simp [eq_comm]
  · rename_i hne
    simpa using fun h => hne c h

theorem mem_flatMap_physical {x : KeyEvent} :
    x ∈ batch.flatMap physical ↔ ∃ c, x = .press (.char c) ∧ .press (.char c) ∈ batch := by
  rw [List.mem_flatMap]
  constructor
  · rintro ⟨e, he, hx⟩
    unfold physical at hx
    split at hx
    · obtain rfl := List.mem_singleton.mp hx
      exact ⟨_, rfl, he⟩
    · exact absurd hx (List.not_mem_nil)
  · rintro ⟨c, rfl, he⟩
    exact ⟨_, he, mem_physical.mpr rfl⟩

theorem presses_of_ne (h : e ≠ .press .enter) : presses m row col e = physical e := by
  unfold presses physical
  split
  · exact absurd rfl h
  · rfl
  · rename_i hchar
    split
    · exact absurd rfl (hchar _)
    · rfl

theorem inOrder_of_no_tap (h : .press .enter ∉ batch) :
    inOrder m row col batch = batch.flatMap physical := by
  induction batch generalizing row col with
  | nil => rfl
  | cons e batch ih =>
    obtain ⟨he, hbatch⟩ := not_or.mp (List.mem_cons.not.mp h)
    rw [inOrder, presses_of_ne (Ne.symm he), ih hbatch, List.flatMap_cons]

theorem lastTap_of_no_tap (h : .press .enter ∉ batch) : lastTap m row col batch = none := by
  induction batch generalizing row col with
  | nil => rfl
  | cons e batch ih =>
    obtain ⟨he, hbatch⟩ := not_or.mp (List.mem_cons.not.mp h)
    rw [lastTap, ih hbatch, if_neg (Ne.symm he)]
    rfl

theorem length_inOrder (h : InGrid row col) (batch : List KeyEvent) :
    (inOrder m row col batch).length =
      (batch.flatMap physical).length + batch.count (.press .enter) := by
  induction batch generalizing row col with
  | nil => rfl
  | cons e batch ih =>
    rw [inOrder, List.length_append, ih (h.moved e), List.flatMap_cons, List.length_append,
      List.count_cons]
    by_cases he : e = .press .enter
    · obtain ⟨c, hc⟩ := h.tapped m
      subst he
      simp [presses, hc, physical]
      omega
    · rw [presses_of_ne he]
      simp [he]
      omega

theorem append_singleton_eq_cons_iff {α : Type*} {l : List α} {a : α} :
    l ++ [a] = a :: l ↔ ∀ x ∈ l, x = a := by
  induction l with
  | nil => simp
  | cons b l ih =>
    constructor
    · intro h
      obtain ⟨rfl, htail⟩ := List.cons.inj h
      exact List.forall_mem_cons.mpr ⟨rfl, ih.mp htail⟩
    · intro h
      obtain ⟨rfl, htail⟩ := List.forall_mem_cons.mp h
      exact congrArg (b :: ·) (ih.mpr htail)

theorem lastTapOnly_nil : LastTapOnly m row col [] := by
  intro before after h
  exact absurd h (by simp)

theorem lastTapOnly_cons_of_ne (he : e ≠ .press .enter) : LastTapOnly m row col (e :: batch) ↔
    LastTapOnly m (moved row col e).1 (moved row col e).2 batch := by
  constructor
  · rintro h before after rfl
    exact h (e :: before) after rfl
  · intro h before after heq
    cases before with
    | nil => exact absurd (List.cons.inj heq).1 he
    | cons first before =>
      obtain ⟨rfl, rfl⟩ := List.cons.inj heq
      exact h before after rfl

theorem lastTapOnly_cons_tap : LastTapOnly m row col (.press .enter :: batch) ↔
    .press .enter ∉ batch ∧ ∀ c, .press (.char c) ∈ batch →
      tapped m row col = some (.press (.char c)) := by
  constructor
  · intro h
    exact h [] batch rfl
  · rintro ⟨htap, hchar⟩ before after heq
    cases before with
    | nil =>
      obtain ⟨-, rfl⟩ := List.cons.inj heq
      exact ⟨htap, hchar⟩
    | cons first before =>
      obtain ⟨-, rfl⟩ := List.cons.inj heq
      exact absurd (by simp) htap

/-- The characters at once and the last tap at the end is the right order just when no character
and no tap is overtaken. -/
theorem sent_eq_inOrder_iff (h : InGrid row col) :
    batch.flatMap physical ++ (lastTap m row col batch).toList = inOrder m row col batch ↔
      LastTapOnly m row col batch := by
  induction batch generalizing row col with
  | nil => exact iff_of_true rfl lastTapOnly_nil
  | cons e batch ih =>
    by_cases he : e = .press .enter
    · subst he
      obtain ⟨c, hc⟩ := h.tapped m
      rw [lastTapOnly_cons_tap]
      by_cases htap : .press .enter ∈ batch
      · refine iff_of_false (fun heq => ?_) (fun hcond => hcond.1 htap)
        have hlength := congrArg List.length heq
        have hcount := List.count_pos_iff.mpr htap
        have htoList := Option.length_toList_le (o := lastTap m row col (.press .enter :: batch))
        rw [length_inOrder h, List.length_append, List.count_cons_self] at hlength
        omega
      · have hlast : lastTap m row col (.press .enter :: batch) = some (.press (.char c)) := by
          rw [lastTap, lastTap_of_no_tap htap, if_pos rfl, hc]
          rfl
        have horder : inOrder m row col (.press .enter :: batch) =
            .press (.char c) :: batch.flatMap physical := by
          rw [inOrder, inOrder_of_no_tap htap, presses, hc]
          rfl
        have hphysical : (KeyEvent.press .enter :: batch).flatMap physical =
            batch.flatMap physical := rfl
        rw [hlast, horder, hphysical, Option.toList_some, append_singleton_eq_cons_iff, hc]
        constructor
        · intro hsame
          refine ⟨htap, fun c' hc' => ?_⟩
          rw [hsame _ (mem_flatMap_physical.mpr ⟨c', rfl, hc'⟩)]
        · rintro ⟨-, hsame⟩ x hx
          obtain ⟨c', rfl, hc'⟩ := mem_flatMap_physical.mp hx
          exact (Option.some.inj (hsame c' hc')).symm
    · rw [lastTapOnly_cons_of_ne he, ← ih (h.moved e), lastTap, if_neg he, inOrder,
        presses_of_ne he, List.flatMap_cons, List.append_assoc]
      simp

structure Ready (s : Screen) : Prop where
  pending : s.pending = .none
  inGrid : InGrid s.selRow s.selCol

@[simp] theorem selRow_dispatch (s : Screen) (e : KeyEvent) :
    (s.dispatch e).selRow = s.selRow := by
  unfold dispatch
  split <;> rfl

@[simp] theorem selCol_dispatch (s : Screen) (e : KeyEvent) :
    (s.dispatch e).selCol = s.selCol := by
  unfold dispatch
  split <;> rfl

@[simp] theorem pending_dispatch (s : Screen) (e : KeyEvent) :
    (s.dispatch e).pending = s.pending := by
  unfold dispatch
  split <;> rfl

theorem selection_clickSelected (s : Screen) :
    s.clickSelected.selRow = s.selRow ∧ s.clickSelected.selCol = s.selCol := by
  unfold clickSelected
  split
  · rename_i key _
    cases key <;> exact ⟨rfl, rfl⟩
  · exact ⟨rfl, rfl⟩

theorem selection_key (s : Screen) (e : KeyEvent) :
    (s.key e).selRow = (moved s.selRow s.selCol e).1 ∧
      (s.key e).selCol = (moved s.selRow s.selCol e).2 := by
  cases e with
  | press key =>
    cases key with
    | enter => exact selection_clickSelected s
    | _ => simp [key, moved, move]
  | release key => cases key <;> simp [key, moved]

theorem inGrid_drain (h : InGrid s.selRow s.selCol) (batch : List KeyEvent) :
    InGrid (s.drain batch).selRow (s.drain batch).selCol := by
  induction batch generalizing s with
  | nil => exact h
  | cons e batch ih =>
    apply ih
    rw [(selection_key s e).1, (selection_key s e).2]
    exact h.moved e

theorem frame_ready (h : InGrid s.selRow s.selCol) : Ready s.frame := by
  cases hpending : s.pending <;>
    exact ⟨by simp [frame, applyState, dispatchPendingKey, hpending],
      by simpa [frame, applyState, dispatchPendingKey, hpending] using h⟩

theorem LoopTop.ready (h : LoopTop s) : Ready s := by
  induction h with
  | start => exact ⟨rfl, by decide, by decide, by decide, by decide⟩
  | next _ batch ih => exact frame_ready (inGrid_drain ih.inGrid batch)

theorem drain_in_order_iff (s : Screen) (h : LoopTop s) (batch : List KeyEvent)
    (hbatch : ∀ e ∈ batch, Batched e = true) :
    (s.drain batch).frame.dispatched = s.dispatched ++ inOrder s.state s.selRow s.selCol batch ↔
      LastTapOnly s.state s.selRow s.selCol batch := by
  have hready := h.ready
  have hsend : Sendable s.pending := hready.pending ▸ True.intro
  rw [dispatched_drain hready.inGrid hsend hbatch, ← sent_eq_inOrder_iff hready.inGrid,
    hready.pending, List.append_assoc, List.append_cancel_left_eq]
  simp [waiting]

def tapLast : List KeyEvent := [.press .down, .press (.char 'x'), .press .enter]

theorem drain_in_order_iff_tapLast :
    (start.drain tapLast).frame.dispatched = [.press (.char 'x'), .press (.char 'q')] ∧
      LastTapOnly start.state start.selRow start.selCol tapLast := by
  have hsent : (start.drain tapLast).frame.dispatched =
      [.press (.char 'x'), .press (.char 'q')] := by decide +kernel
  refine ⟨hsent, (drain_in_order_iff start .start tapLast (by decide)).mp ?_⟩
  rw [hsent]
  decide +kernel

def twoTaps : List KeyEvent := [.press .enter, .press .right, .press .enter]

theorem first_tap_lost : (start.drain twoTaps).frame.dispatched = [.press (.char '1')] ∧
    (start.drain twoTaps).frame.dispatched ≠
      start.dispatched ++ inOrder start.state start.selRow start.selCol twoTaps := by
  decide +kernel

end FerricK.Screen
