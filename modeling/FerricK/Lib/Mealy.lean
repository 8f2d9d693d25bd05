import Mathlib.Data.List.Basic
import Mathlib.Tactic.Common

namespace Mealy

variable {σ ι ο α : Type*} {step : σ → ι → Option ο × σ}

def feed (step : σ → ι → Option ο × σ) : σ → List ι → List ο × σ
  | s, [] => ([], s)
  | s, i :: is =>
    ((step s i).1.toList ++ (feed step (step s i).2 is).1, (feed step (step s i).2 is).2)

def outputs (out : List α → α → List ο) : List α → List α → List ο
  | _, [] => []
  | past, a :: as => out past a ++ outputs out (past ++ [a]) as

theorem feed_append (s : σ) (is js : List ι) : feed step s (is ++ js) =
    ((feed step s is).1 ++ (feed step (feed step s is).2 js).1,
      (feed step (feed step s is).2 js).2) := by
  induction is generalizing s with
  | nil => rfl
  | cons i is ih =>
    rw [List.cons_append, feed, feed, ih]
    simp

theorem feed_concat (s : σ) (is : List ι) (i : ι) : feed step s (is ++ [i]) =
    ((feed step s is).1 ++ (step (feed step s is).2 i).1.toList,
      (step (feed step s is).2 i).2) := by
  rw [feed_append]
  simp [feed]

theorem step_eq_none {s : σ} {is js : List ι} {i : ι}
    (h : (feed step s (is ++ i :: js)).1 = []) : (step (feed step s is).2 i).1 = none := by
  rw [feed_append, feed] at h
  simpa using (List.append_eq_nil_iff.mp (List.append_eq_nil_iff.mp h).2).1

/-- Where every block takes the state of a history to that of the history with the block, and puts
out what is due there, so does every list of blocks. -/
theorem feed_blocks {encode : α → List ι} {state : List α → σ} {out : List α → α → List ο}
    (h : ∀ past a, feed step (state past) (encode a) = (out past a, state (past ++ [a])))
    (past as : List α) : feed step (state past) (as.flatMap encode) =
      (outputs out past as, state (past ++ as)) := by
  induction as generalizing past with
  | nil => simp [feed, outputs]
  | cons a as ih =>
    rw [List.flatMap_cons, feed_append, h, ih, outputs, List.append_assoc, List.singleton_append]

end Mealy
