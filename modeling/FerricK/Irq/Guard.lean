import Mathlib.Data.List.Basic
import Mathlib.Data.List.Induction
import Mathlib.Tactic.Common

/-! Interrupt masking: `IrqGuard` and `enable` on both architectures, each over the register that
holds its mask. -/

namespace FerricK

structure IrqGuard where
  flags : BitVec 64
  deriving DecidableEq

inductive Arch
  | x86_64
  | aarch64
  deriving DecidableEq

namespace X86_64

def irqsOn (rflags : BitVec 64) : Bool := rflags.getLsbD 9

def cli (rflags : BitVec 64) : BitVec 64 := rflags &&& ~~~(1#64 <<< 9)
def sti (rflags : BitVec 64) : BitVec 64 := rflags ||| 1#64 <<< 9

def enable (rflags : BitVec 64) : BitVec 64 := sti rflags

def disable (rflags : BitVec 64) : IrqGuard × BitVec 64 := (⟨rflags⟩, cli rflags)

def wasEnabled (guard : IrqGuard) : Bool := guard.flags &&& (1#64 <<< 9) ≠ 0

def drop (guard : IrqGuard) (_ : BitVec 64) : BitVec 64 := guard.flags

end X86_64

namespace Aarch64

/-! `PSTATE.{D, A, I, F}` are bits 3 to 0, as in the immediates; the register that `mrs` and `msr`
access has them in bits 9 to 6. -/

def irqsOn (daif : BitVec 4) : Bool := !daif.getLsbD 1

def daifset (imm daif : BitVec 4) : BitVec 4 := daif ||| imm
def daifclr (imm daif : BitVec 4) : BitVec 4 := daif &&& ~~~imm
def mrs (daif : BitVec 4) : BitVec 64 := daif.setWidth 64 <<< 6
def msr (flags : BitVec 64) : BitVec 4 := (flags >>> 6).setWidth 4

def enable (daif : BitVec 4) : BitVec 4 := daifclr 4 daif

def disable (daif : BitVec 4) : IrqGuard × BitVec 4 := (⟨mrs daif⟩, daifset 4 daif)

def wasEnabled (guard : IrqGuard) : Bool := guard.flags &&& (1#64 <<< 7) = 0

def drop (guard : IrqGuard) (_ : BitVec 4) : BitVec 4 := msr guard.flags

end Aarch64

/-- One architecture's side of the interface: `irqsOn` is what the processor makes of its mask,
the rest is the code. -/
structure Masking (M : Type) where
  irqsOn : M → Bool
  enable : M → M
  disable : M → IrqGuard × M
  wasEnabled : IrqGuard → Bool
  drop : IrqGuard → M → M

namespace Arch

def Mask : Arch → Type
  | x86_64 => BitVec 64
  | aarch64 => BitVec 4

def masking : (arch : Arch) → Masking arch.Mask
  | x86_64 => ⟨X86_64.irqsOn, X86_64.enable, X86_64.disable, X86_64.wasEnabled, X86_64.drop⟩
  | aarch64 => ⟨Aarch64.irqsOn, Aarch64.enable, Aarch64.disable, Aarch64.wasEnabled, Aarch64.drop⟩

end Arch

namespace Masking

inductive Action
  | create
  | drop
  deriving DecidableEq

structure State (M : Type) where
  mask : M
  guards : List IrqGuard

variable {M : Type}

/-- Only the innermost guard can be dropped. -/
def step (p : Masking M) (s : State M) : Action → Option (State M)
  | .create => some ⟨(p.disable s.mask).2, (p.disable s.mask).1 :: s.guards⟩
  | .drop =>
    match s.guards with
    | [] => none
    | guard :: guards => some ⟨p.drop guard s.mask, guards⟩

def run (p : Masking M) (mask : M) (actions : List Action) : Option (State M) :=
  actions.foldlM p.step ⟨mask, []⟩

def depth (actions : List Action) : Option Nat :=
  actions.foldlM (fun
    | n, .create => some (n + 1)
    | 0, .drop => none
    | n + 1, .drop => some n) 0

def WellNested (actions : List Action) : Prop := (depth actions).isSome = true

instance (actions : List Action) : Decidable (WellNested actions) :=
  inferInstanceAs (Decidable ((depth actions).isSome = true))

structure Guarded (p : Masking M) (mask : M) (actions : List Action) : Prop where
  masked : ∀ before s, before <+: actions → p.run mask before = some s → s.guards ≠ [] →
    p.irqsOn s.mask = false
  wasEnabled : ∀ before s, before ++ [.create] <+: actions → p.run mask before = some s →
    p.wasEnabled (p.disable s.mask).1 = p.irqsOn s.mask
  restored : ∀ before s, before <+: actions → p.run mask before = some s → s.guards = [] →
    s.mask = mask

structure Restores (p : Masking M) : Prop where
  drop_disable : ∀ mask, p.drop (p.disable mask).1 (p.disable mask).2 = mask
  wasEnabled_disable : ∀ mask, p.wasEnabled (p.disable mask).1 = p.irqsOn mask

/-- The guards undo, one after the other, the changes from `mask` to the mask now. -/
inductive Saved (p : Masking M) (mask : M) : State M → Prop
  | none : Saved p mask ⟨mask, []⟩
  | create {s : State M} (h : Saved p mask s) :
      Saved p mask ⟨(p.disable s.mask).2, (p.disable s.mask).1 :: s.guards⟩

variable {p : Masking M} {mask : M} {s s' : State M} {actions : List Action}

theorem Saved.step (hp : p.Restores) (h : Saved p mask s) {action : Action}
    (hstep : p.step s action = some s') : Saved p mask s' := by
  cases action with
  | create =>
    cases hstep
    exact .create h
  | drop =>
    cases h with
    | none => exact absurd hstep (by simp [Masking.step])
    | create h =>
      cases hstep
      simpa [hp.drop_disable] using h

theorem Saved.run (hp : p.Restores) (h : p.run mask actions = some s) : Saved p mask s := by
  induction actions using List.reverseRecOn generalizing s with
  | nil =>
    cases h
    exact .none
  | append_singleton actions action ih =>
    rw [Masking.run, List.foldlM_append] at h
    obtain ⟨s₁, hs₁, hstep⟩ := Option.bind_eq_some_iff.mp h
    have hlast : p.step s₁ action = some s := by simpa using hstep
    exact (ih hs₁).step hp hlast

theorem Saved.irqsOn
    (hmask : ∀ mask', p.irqsOn mask' = false → p.irqsOn (p.disable mask').2 = false)
    (hoff : p.irqsOn mask = false) (h : Saved p mask s) : p.irqsOn s.mask = false := by
  induction h with
  | none => exact hoff
  | create _ ih => exact hmask _ ih

theorem Saved.masked (hmask : ∀ mask', p.irqsOn (p.disable mask').2 = false)
    (h : Saved p mask s) (hguards : s.guards ≠ []) : p.irqsOn s.mask = false := by
  cases h with
  | none => exact absurd rfl hguards
  | create _ => exact hmask _

theorem Saved.restored (h : Saved p mask s) (hguards : s.guards = []) : s.mask = mask := by
  cases h with
  | none => rfl
  | create _ => exact absurd hguards (by simp)

theorem Restores.guarded (hp : p.Restores)
    (hmasked : ∀ before s, before <+: actions → p.run mask before = some s → s.guards ≠ [] →
      p.irqsOn s.mask = false) : p.Guarded mask actions where
  masked := hmasked
  wasEnabled _ s _ _ := hp.wasEnabled_disable s.mask
  restored _ _ _ hrun hguards := (Saved.run hp hrun).restored hguards

theorem WellNested.head (h : WellNested actions) (hne : actions ≠ []) :
    [.create] <+: actions := by
  cases actions with
  | nil => exact absurd rfl hne
  | cons action actions =>
    cases action with
    | create => exact ⟨actions, rfl⟩
    | drop => exact absurd h (by simp [WellNested, depth])

end Masking

namespace X86_64

theorem irqsOn_disable (rflags : BitVec 64) : irqsOn (disable rflags).2 = false := by
  simp [irqsOn, disable, cli]

theorem irqsOn_enable (rflags : BitVec 64) : irqsOn (enable rflags) = true := by
  simp [irqsOn, enable, sti]

theorem wasEnabled_disable (rflags : BitVec 64) :
    wasEnabled (disable rflags).1 = irqsOn rflags := by
  have htwo : 1#64 <<< 9 = BitVec.twoPow 64 9 := rfl
  simp only [wasEnabled, disable, irqsOn, htwo, BitVec.and_twoPow]
  cases rflags.getLsbD 9 <;> decide

end X86_64

namespace Aarch64

theorem irqsOn_disable : ∀ daif, irqsOn (disable daif).2 = irqsOn daif := by decide

theorem irqsOn_enable : ∀ daif, irqsOn (enable daif) = irqsOn daif := by decide

theorem wasEnabled_disable : ∀ daif, wasEnabled (disable daif).1 = irqsOn daif := by decide

theorem drop_disable : ∀ daif, drop (disable daif).1 (disable daif).2 = daif := by decide

end Aarch64

namespace Arch

theorem restores : (arch : Arch) → arch.masking.Restores
  | x86_64 => ⟨fun _ => rfl, X86_64.wasEnabled_disable⟩
  | aarch64 => ⟨Aarch64.drop_disable, Aarch64.wasEnabled_disable⟩

/-- On aarch64 the immediate 4 selects `A`, so nothing here masks or unmasks an IRQ. -/
theorem guarded_iff (arch : Arch) (mask : arch.Mask) (actions : List Masking.Action)
    (h : Masking.WellNested actions) :
    (arch.masking.Guarded mask actions ↔
      arch = x86_64 ∨ arch.masking.irqsOn mask = false ∨ actions = []) ∧
    (arch.masking.irqsOn (arch.masking.enable mask) = true ↔
      arch = x86_64 ∨ arch.masking.irqsOn mask = true) := by
  cases arch with
  | x86_64 =>
    refine ⟨iff_of_true ?_ (.inl rfl), iff_of_true (X86_64.irqsOn_enable mask) (.inl rfl)⟩
    apply (restores x86_64).guarded
    intro before s _ hrun hguards
    exact (Masking.Saved.run (restores x86_64) hrun).masked X86_64.irqsOn_disable hguards
  | aarch64 =>
    refine ⟨⟨fun hguarded => .inr ?_, ?_⟩, ?_⟩
    · by_cases hne : actions = []
      · exact .inr hne
      · have hmasked := hguarded.masked [.create] _ (h.head hne) rfl (by simp)
        exact .inl ((Aarch64.irqsOn_disable mask).symm.trans hmasked)
    · rintro (harch | hoff | rfl)
      · exact absurd harch (by decide)
      · apply (restores aarch64).guarded
        intro before s _ hrun _
        apply (Masking.Saved.run (restores aarch64) hrun).irqsOn ?_ hoff
        intro mask' hmask'
        exact (Aarch64.irqsOn_disable mask').trans hmask'
      · apply (restores aarch64).guarded
        intro before s hbefore hrun hguards
        cases List.prefix_nil.mp hbefore
        cases hrun
        exact absurd rfl hguards
    · have hsame : aarch64.masking.irqsOn (aarch64.masking.enable mask) =
          aarch64.masking.irqsOn mask := Aarch64.irqsOn_enable mask
      rw [hsame]
      exact ⟨.inr, fun h => h.resolve_left (by decide)⟩

theorem guarded_iff_nested :
    aarch64.masking.Guarded (2 : BitVec 4) [.create, .create, .drop, .drop, .create] ∧
      x86_64.masking.Guarded (0x202 : BitVec 64) [.create, .create, .drop, .drop, .create] :=
  ⟨(guarded_iff aarch64 (2 : BitVec 4) _ (by decide)).1.mpr (.inr (.inl rfl)),
    (guarded_iff x86_64 (0x202 : BitVec 64) _ (by decide)).1.mpr (.inl rfl)⟩

/-- With everything unmasked on aarch64, one guard leaves IRQs on; and with everything masked,
`enable` leaves them off. -/
theorem aarch64_unguarded : ¬ aarch64.masking.Guarded (0 : BitVec 4) [.create] ∧
    aarch64.masking.irqsOn (aarch64.masking.enable (15 : BitVec 4)) = false := by
  refine ⟨fun h => ?_, rfl⟩
  have hmasked := h.masked [.create] _ (List.prefix_refl _) rfl (by simp)
  exact absurd hmasked (by decide)

end Arch

end FerricK
