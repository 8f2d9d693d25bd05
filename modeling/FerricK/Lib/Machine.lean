import Mathlib.Data.Option.Basic
import Mathlib.Tactic.Common

namespace Machine

variable {σ : Type*} {step : σ → Option σ} {s t u : σ} {m n : Nat}

def steps (step : σ → Option σ) : Nat → σ → Option σ
  | 0, s => some s
  | n + 1, s => (step s).bind (steps step n)

end Machine
