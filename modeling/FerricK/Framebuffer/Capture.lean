import FerricK.Framebuffer.Layout

namespace FerricK

open Rust

structure LimineFramebuffer where
  address : UInt64
  surface : Nat → UInt8
  width : UInt64
  height : UInt64
  pitch : UInt64
  bpp : UInt16
  memoryModel : UInt8
  redMaskSize : UInt8
  redMaskShift : UInt8
  greenMaskSize : UInt8
  greenMaskShift : UInt8
  blueMaskSize : UInt8
  blueMaskShift : UInt8

namespace LimineFramebuffer

def memoryModelRgb : UInt8 := 1

def isRgb (source : LimineFramebuffer) : Bool := source.memoryModel == memoryModelRgb

end LimineFramebuffer

/-- `usize` has the 64 bits of `pitch`. -/
def FrameLayout.fromLimine (source : LimineFramebuffer) : Except FramebufferError FrameLayout :=
  if !source.isRgb then .error .notRgb
  else if source.address = 0 ∨ source.width = 0 ∨ source.height = 0 ∨
      source.width.toNat > 2 ^ 32 - 1 ∨ source.height.toNat > 2 ^ 32 - 1 ∨ source.pitch = 0 then
    .error .unsupportedLayout
  else .ok {
    ptr := source.address
    surface := source.surface
    width := source.width.toUInt32
    height := source.height.toUInt32
    pitch := source.pitch
    bpp := source.bpp
    redSize := source.redMaskSize
    redShift := source.redMaskShift
    greenSize := source.greenMaskSize
    greenShift := source.greenMaskShift
    blueSize := source.blueMaskSize
    blueShift := source.blueMaskShift }

def LimineFramebuffer.capture (source : LimineFramebuffer) :
    Rust (Except FramebufferError FrameBuffer) :=
  match FrameLayout.fromLimine source with
  | .error e => return .error e
  | .ok layout => FrameBuffer.fromLayout layout

namespace FrameBuffer

/-- `FRAMEBUFFER.set`, which fails on a cell that is set. -/
def setGlobal (fb : FrameBuffer) : Option FrameBuffer → Bool × Option FrameBuffer
  | none => (true, some fb)
  | some old => (false, some old)

def initFromBootInfo (framebuffers : List LimineFramebuffer) (global : Option FrameBuffer) :
    Rust (Bool × Option FrameBuffer) :=
  match framebuffers.find? (·.isRgb) with
  | none => return (false, global)
  | some source => do
    match ← source.capture with
    | .ok fb => return setGlobal fb global
    | .error _ => return (false, global)

def Accepts (source : LimineFramebuffer) : Prop := ∃ fb, source.capture = .ok (.ok fb)

/-- `ok` tells whether there is a framebuffer to capture, and then the first one is. -/
structure NeverMissed (framebuffers : List LimineFramebuffer) (ok : Bool)
    (global : Option FrameBuffer) : Prop where
  found : ok = true ↔ ∃ source ∈ framebuffers, Accepts source
  first : ok = true → ∃ pre source post fb, framebuffers = pre ++ source :: post ∧
    (∀ s ∈ pre, ¬ Accepts s) ∧ source.capture = .ok (.ok fb) ∧ global = some fb

variable {framebuffers : List LimineFramebuffer} {source : LimineFramebuffer} {fb : FrameBuffer}
  {e : FramebufferError}

theorem capture_notRgb (h : source.isRgb = false) : source.capture = .ok (.error .notRgb) := by
  rw [LimineFramebuffer.capture, FrameLayout.fromLimine, h]
  rfl

theorem Accepts.isRgb (h : Accepts source) : source.isRgb = true := by
  obtain ⟨fb, hfb⟩ := h
  by_contra hrgb
  rw [capture_notRgb (Bool.eq_false_iff.mpr hrgb)] at hfb
  cases hfb

theorem init_none (h : framebuffers.find? (·.isRgb) = none) :
    initFromBootInfo framebuffers none = .ok (false, none) ∧
      NeverMissed framebuffers false none := by
  have hnone : ∀ s ∈ framebuffers, ¬ Accepts s := fun s hs haccepts =>
    List.find?_eq_none.mp h s hs haccepts.isRgb
  refine ⟨by rw [initFromBootInfo, h]; rfl, iff_of_false nofun ?_, nofun⟩
  rintro ⟨s, hs, haccepts⟩
  exact hnone s hs haccepts

theorem init_accepted (h : framebuffers.find? (·.isRgb) = some source)
    (hfb : source.capture = .ok (.ok fb)) :
    initFromBootInfo framebuffers none = .ok (true, some fb) ∧
      NeverMissed framebuffers true (some fb) := by
  obtain ⟨-, pre, post, rfl, hpre⟩ := List.find?_eq_some_iff_append.mp h
  refine ⟨by rw [initFromBootInfo, h]; simp only [hfb, ok_bind]; rfl, ?_, fun _ => ?_⟩
  · exact iff_of_true rfl ⟨source, by simp, fb, hfb⟩
  · refine ⟨pre, source, post, fb, rfl, fun s hs haccepts => ?_, hfb, rfl⟩
    simpa [haccepts.isRgb] using hpre s hs

theorem init_rejected (h : framebuffers.find? (·.isRgb) = some source)
    (he : source.capture = .ok (.error e)) :
    initFromBootInfo framebuffers none = .ok (false, none) ∧
      (NeverMissed framebuffers false none ↔ ∀ s ∈ framebuffers, ¬ Accepts s) := by
  refine ⟨by rw [initFromBootInfo, h]; simp only [he, ok_bind]; rfl, ?_, ?_⟩
  · intro hmissed s hs haccepts
    exact nomatch hmissed.found.mpr ⟨s, hs, haccepts⟩
  · intro hnone
    refine ⟨iff_of_false nofun ?_, nofun⟩
    rintro ⟨s, hs, haccepts⟩
    exact hnone s hs haccepts

/-- Only the first RGB framebuffer is tried, so it must be accepted where any is. -/
theorem init_never_misses_iff (framebuffers : List LimineFramebuffer) :
    (∃ ok global, initFromBootInfo framebuffers none = .ok (ok, global) ∧
      NeverMissed framebuffers ok global) ↔
    ∀ source, framebuffers.find? (·.isRgb) = some source → Accepts source ∨
      (∃ e, source.capture = .ok (.error e)) ∧ ∀ s ∈ framebuffers, ¬ Accepts s := by
  cases hfind : framebuffers.find? (·.isRgb) with
  | none =>
    obtain ⟨hinit, hmissed⟩ := init_none hfind
    exact iff_of_true ⟨_, _, hinit, hmissed⟩ nofun
  | some source =>
    simp only [Option.some.injEq, forall_eq']
    cases hcapture : source.capture with
    | error stop =>
      have hstop : initFromBootInfo framebuffers none = .error stop := by
        rw [initFromBootInfo, hfind]
        simp only [hcapture, error_bind]
      refine iff_of_false ?_ ?_
      · rintro ⟨ok, global, hinit, -⟩
        exact nomatch hstop.symm.trans hinit
      · rintro (⟨fb, hfb⟩ | ⟨⟨e, he⟩, -⟩)
        · exact nomatch hcapture.symm.trans hfb
        · exact nomatch he
    | ok result =>
      cases result with
      | ok fb =>
        obtain ⟨hinit, hmissed⟩ := init_accepted hfind hcapture
        exact iff_of_true ⟨_, _, hinit, hmissed⟩ (.inl ⟨fb, hcapture⟩)
      | error e =>
        obtain ⟨hinit, hiff⟩ := init_rejected hfind hcapture
        constructor
        · rintro ⟨ok, global, hinit', hmissed⟩
          cases hinit.symm.trans hinit'
          exact .inr ⟨⟨e, rfl⟩, hiff.mp hmissed⟩
        · rintro (⟨fb, hfb⟩ | ⟨-, hnone⟩)
          · exact nomatch hcapture.symm.trans hfb
          · exact ⟨_, _, hinit, hiff.mpr hnone⟩

def screens : List LimineFramebuffer :=
  [⟨0x1000, fun _ => 0, 640, 480, 1280, 15, 1, 5, 10, 5, 5, 5, 0⟩,
    ⟨0x400000, fun _ => 0, 640, 480, 2560, 32, 1, 8, 16, 8, 8, 8, 0⟩]

theorem init_misses_second : ¬ ∀ framebuffers : List LimineFramebuffer, ∃ ok global,
    initFromBootInfo framebuffers none = .ok (ok, global) ∧
      NeverMissed framebuffers ok global := by
  intro hall
  obtain ⟨ok, global, hinit, hmissed⟩ := hall screens
  have hfind : screens.find? (·.isRgb) = some screens[0] := rfl
  have hrejected : screens[0].capture = .ok (.error .unsupportedLayout) := rfl
  obtain ⟨hinit', hiff⟩ := init_rejected hfind hrejected
  cases hinit.symm.trans hinit'
  exact hiff.mp hmissed screens[1] (List.getElem_mem _) ⟨_, rfl⟩

end FrameBuffer

end FerricK
