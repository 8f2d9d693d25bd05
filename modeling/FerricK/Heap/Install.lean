import FerricK.Heap.Init

namespace FerricK

structure MemmapEntry where
  base : Nat
  length : Nat
  entryType : Nat

def MemmapEntry.usable : Nat := 0

structure BootInfo where
  hhdmOffset : Nat
  memmap : List MemmapEntry

namespace Heap

open Rust

/-- One turn of the loop over the memory map: the region and length to beat. -/
def consider (hhdm : Nat) (entry : MemmapEntry) (best : Option (Nat × Nat)) :
    Rust (Option (Nat × Nat)) :=
  if entry.entryType = MemmapEntry.usable ∧ entry.length ≥ minBlock then
    if best.all (fun (_, bestLen) => entry.length > bestLen) then
      return some (← uadd 64 entry.base hhdm, entry.length)
    else return best
  else return best

def staticArenaSize : Nat := 1024 * 1024

def applyRegion (s : State) (start size : Nat) : Rust (Bool × State) := init s start size

/-- The static arena, which is at the address `arena`. -/
def applyFallback (s : State) (arena : Nat) : Rust State := do
  let (_, s) ← applyRegion s arena staticArenaSize
  return s

def installFromBootInfo (s : State) (info : BootInfo) (arena : Nat) : Rust State := do
  match ← forEach info.memmap (consider info.hhdmOffset) none with
  | some (start, len) =>
    let (applied, s) ← applyRegion s start len
    if applied then return s else applyFallback s arena
  | none => applyFallback s arena

structure Roomy (e : MemmapEntry) : Prop where
  usable : e.entryType = MemmapEntry.usable
  long : minBlock ≤ e.length

structure Largest (l : List MemmapEntry) (e : MemmapEntry) (r : List MemmapEntry) : Prop where
  roomy : Roomy e
  before : ∀ d ∈ l, d.entryType = MemmapEntry.usable → d.length < e.length
  after : ∀ d ∈ r, d.entryType = MemmapEntry.usable → d.length ≤ e.length

/-- What the bootloader guarantees of the memory that it calls usable. -/
structure Guaranteed (info : BootInfo) : Prop where
  hhdm : 4096 ∣ info.hhdmOffset
  pages : ∀ e ∈ info.memmap, e.entryType = MemmapEntry.usable → 4096 ∣ e.base ∧ 4096 ∣ e.length
  room : ∀ e ∈ info.memmap, e.entryType = MemmapEntry.usable →
    e.base + e.length + info.hhdmOffset < 2 ^ 64

/-- Where the heap of `s'` is: in the largest usable entry, or in the arena for want of one. -/
inductive Placed (s : State) (info : BootInfo) (arena : Nat) (s' : State) : Prop
  | region (l : List MemmapEntry) (e : MemmapEntry) (r : List MemmapEntry) :
    info.memmap = l ++ e :: r → Largest l e r →
    init s (e.base + info.hhdmOffset) e.length = .ok (true, s') →
    e.base + info.hhdmOffset ≤ s'.start → s'.start < s'.end →
    s'.end ≤ e.base + e.length + info.hhdmOffset → Placed s info arena s'
  | arena (applied : Bool) : (∀ e ∈ info.memmap, ¬Roomy e) →
    init s arena staticArenaSize = .ok (applied, s') → Placed s info arena s'

variable {s s' : State} {info : BootInfo} {entries l r : List MemmapEntry} {e d : MemmapEntry}
  {hhdm arena start len : Nat}

theorem Roomy.lt_of_not (h : Roomy e) (hd : d.entryType = MemmapEntry.usable) (hnot : ¬Roomy d) :
    d.length < e.length := by
  have hlong := h.long
  by_contra hle
  exact hnot ⟨hd, by omega⟩

theorem Largest.le (h : Largest l e r) (hd : d ∈ l ++ e :: r)
    (hu : d.entryType = MemmapEntry.usable) : d.length ≤ e.length := by
  rcases List.mem_append.mp hd with hl | hr
  · exact (h.before d hl hu).le
  rcases List.mem_cons.mp hr with rfl | hr
  · exact le_rfl
  · exact h.after d hr hu

theorem Largest.concat (h : Largest l e r)
    (hd : d.entryType = MemmapEntry.usable → d.length ≤ e.length) : Largest l e (r ++ [d]) where
  roomy := h.roomy
  before := h.before
  after c hc hu := by
    rcases List.mem_append.mp hc with hr | hlast
    · exact h.after c hr hu
    · obtain rfl := List.mem_singleton.mp hlast
      exact hd hu

inductive Found (hhdm : Nat) (entries : List MemmapEntry) : Option (Nat × Nat) → Prop
  | nothing : (∀ e ∈ entries, ¬Roomy e) → Found hhdm entries none
  | largest (l : List MemmapEntry) (e : MemmapEntry) (r : List MemmapEntry) :
    entries = l ++ e :: r → Largest l e r → Found hhdm entries (some (e.base + hhdm, e.length))

theorem Found.pass {best : Option (Nat × Nat)} (h : Found hhdm entries best)
    (hd : ∀ len, best.map Prod.snd = some len → d.entryType = MemmapEntry.usable → d.length ≤ len)
    (hnone : best = none → ¬Roomy d) : Found hhdm (entries ++ [d]) best := by
  cases h with
  | nothing hentries =>
    refine .nothing fun c hc => ?_
    rcases List.mem_append.mp hc with hin | hlast
    · exact hentries c hin
    · obtain rfl := List.mem_singleton.mp hlast
      exact hnone rfl
  | largest l e r hentries hlargest =>
    subst hentries
    exact .largest l e (r ++ [d]) (by simp) (hlargest.concat (hd _ rfl))

theorem consider_spec {best : Option (Nat × Nat)} (h : Found hhdm entries best)
    (hroom : d.entryType = MemmapEntry.usable → d.base + hhdm < 2 ^ 64) :
    ∃ best', consider hhdm d best = .ok best' ∧ Found hhdm (entries ++ [d]) best' := by
  by_cases hd : d.entryType = MemmapEntry.usable ∧ d.length ≥ minBlock
  · have hroomy : Roomy d := ⟨hd.1, hd.2⟩
    by_cases hlonger : best.all (fun (_, bestLen) => d.length > bestLen)
    · refine ⟨some (d.base + hhdm, d.length), ?_, .largest entries d [] rfl ⟨hroomy, ?_, by simp⟩⟩
      · rw [consider, if_pos hd, if_pos hlonger, uadd_of_lt (hroom hd.1), ok_bind, pure_eq_ok]
      · intro c hc hu
        cases h with
        | nothing hentries => exact hroomy.lt_of_not hu (hentries c hc)
        | largest l e r hentries hlargest =>
          have hgt : e.length < d.length := by simpa using hlonger
          exact Nat.lt_of_le_of_lt (hlargest.le (hentries ▸ hc) hu) hgt
    · refine ⟨best, by rw [consider, if_pos hd, if_neg hlonger, pure_eq_ok], h.pass ?_ ?_⟩
      · rintro len hlen -
        obtain ⟨⟨start, len'⟩, rfl, rfl⟩ := Option.map_eq_some_iff.mp hlen
        simpa using hlonger
      · rintro rfl
        exact absurd rfl hlonger
  · have hshort : ¬Roomy d := fun hroomy => hd ⟨hroomy.usable, hroomy.long⟩
    refine ⟨best, by rw [consider, if_neg hd, pure_eq_ok], h.pass ?_ fun _ => hshort⟩
    intro len hlen hu
    cases h with
    | nothing hentries => cases hlen
    | largest l e r hentries hlargest =>
      cases hlen
      exact (hlargest.roomy.lt_of_not hu hshort).le

theorem forEach_consider (hroom : ∀ e ∈ entries, e.entryType = MemmapEntry.usable →
    e.base + hhdm < 2 ^ 64) : ∃ best, forEach entries (consider hhdm) none = .ok best ∧
      Found hhdm entries best := by
  induction entries using List.reverseRecOn with
  | nil => exact ⟨none, rfl, .nothing (by simp)⟩
  | append_singleton entries d ih =>
    obtain ⟨best, hbest, hfound⟩ := ih fun e he => hroom e (List.mem_append_left _ he)
    obtain ⟨best', hstep, hfound'⟩ := consider_spec hfound (hroom d (by simp))
    refine ⟨best', ?_, hfound'⟩
    rw [forEach_append, hbest, ok_bind, forEach_cons, hstep, ok_bind, forEach_nil]

theorem init_pages (s : State) (hstart : 4096 ∣ start) (hlen : 4096 ∣ len) (hmin : minBlock ≤ len)
    (hroom : start + len < 2 ^ 64) : init s start len =
      if start = 0 then .error .deref else .ok (true, .fresh s.mem start (start + len)) := by
  have hup : Align.up start 8 = start := Align.up_of_dvd (by decide) (by omega)
  have husable : ¬Unusable start len := by
    rw [Unusable, hup]
    omega
  rw [init_eq, if_neg (by simp only [minBlock, headerSize] at hmin; omega), if_neg husable, hup,
    show len / 8 * 8 = len by omega]

theorem init_returns (s : State) (size : Nat) (hstart : start + 7 < 2 ^ 64) (hnull : start ≠ 0) :
    ∃ applied s', init s start size = .ok (applied, s') := by
  have hup : Align.up start 8 ≠ 0 := by
    have hle := Align.le_up (v := start) (a := 8) (by decide)
    omega
  rw [init_eq, if_neg (Nat.not_le.mpr hstart), if_neg hup]
  split
  · exact ⟨_, _, rfl⟩
  · exact ⟨_, _, rfl⟩

theorem applyFallback_eq_ok : applyFallback s arena = .ok s' ↔
    ∃ applied, init s arena staticArenaSize = .ok (applied, s') := by
  unfold applyFallback applyRegion
  constructor
  · intro h
    obtain ⟨⟨applied, s₁⟩, hs₁, h⟩ := bind_eq_ok.mp h
    cases h
    exact ⟨applied, hs₁⟩
  · rintro ⟨applied, h⟩
    rw [h]
    rfl

theorem install_of_nothing (hbest : forEach info.memmap (consider info.hhdmOffset) none = .ok none)
    (s : State) (arena : Nat) : installFromBootInfo s info arena = applyFallback s arena := by
  rw [installFromBootInfo, hbest, ok_bind]

theorem init_largest (h : Guaranteed info) (hentries : info.memmap = l ++ e :: r)
    (hlargest : Largest l e r) (s : State) : init s (e.base + info.hhdmOffset) e.length =
      if e.base + info.hhdmOffset = 0 then .error .deref
      else .ok (true, .fresh s.mem (e.base + info.hhdmOffset)
        (e.base + info.hhdmOffset + e.length)) := by
  have he : e ∈ info.memmap := by simp [hentries]
  obtain ⟨hbase, hlength⟩ := h.pages e he hlargest.roomy.usable
  have hroom := h.room e he hlargest.roomy.usable
  exact init_pages s (Nat.dvd_add hbase h.hhdm) hlength hlargest.roomy.long (by omega)

theorem install_of_largest (h : Guaranteed info) (hentries : info.memmap = l ++ e :: r)
    (hlargest : Largest l e r) (hbest : forEach info.memmap (consider info.hhdmOffset) none =
      .ok (some (e.base + info.hhdmOffset, e.length))) (s : State) (arena : Nat) :
    installFromBootInfo s info arena = if e.base + info.hhdmOffset = 0 then .error .deref
      else .ok (.fresh s.mem (e.base + info.hhdmOffset) (e.base + info.hhdmOffset + e.length)) := by
  rw [installFromBootInfo, hbest, ok_bind]
  simp only [applyRegion, init_largest h hentries hlargest s]
  split <;> rfl

theorem install_placed (h : Guaranteed info) (s : State) (arena : Nat) :
    (∀ s', installFromBootInfo s info arena = .ok s' → Placed s info arena s') ∧
      ((∀ e ∈ info.memmap, Roomy e → e.base + info.hhdmOffset ≠ 0) → arena ≠ 0 →
        arena + staticArenaSize ≤ 2 ^ 64 → ∃ s', installFromBootInfo s info arena = .ok s') := by
  have hroom : ∀ e ∈ info.memmap, e.entryType = MemmapEntry.usable →
      e.base + info.hhdmOffset < 2 ^ 64 := by
    intro e he hu
    have := h.room e he hu
    omega
  obtain ⟨best, hbest, hfound⟩ := forEach_consider hroom
  generalize hentries : info.memmap = entries at hfound
  cases hfound with
  | nothing hnone =>
    rw [install_of_nothing hbest]
    constructor
    · intro s' hs'
      obtain ⟨applied, hinit⟩ := applyFallback_eq_ok.mp hs'
      exact .arena applied (hentries ▸ hnone) hinit
    · intro _ hnull harena
      obtain ⟨applied, s', hinit⟩ := init_returns s staticArenaSize
        (by simp only [staticArenaSize] at harena; omega) hnull
      exact ⟨s', applyFallback_eq_ok.mpr ⟨applied, hinit⟩⟩
  | largest l e r hsplit hlargest =>
    subst hsplit
    have he : e ∈ info.memmap := by simp [hentries]
    have hinit := init_largest h hentries hlargest s
    have hlong := hlargest.roomy.long
    simp only [minBlock, headerSize] at hlong
    rw [install_of_largest h hentries hlargest hbest]
    constructor
    · intro s' hs'
      split at hs'
      · cases hs'
      next hnull =>
      cases hs'
      rw [if_neg hnull] at hinit
      refine .region l e r hentries hlargest hinit le_rfl ?_ ?_ <;>
        simp only [State.fresh, State.put] <;> omega
    · intro hnull _ _
      rw [if_neg (hnull e (by simp) hlargest.roomy)]
      exact ⟨_, rfl⟩

def threeEntries : BootInfo where
  hhdmOffset := 0xFFFF800000000000
  memmap := [⟨0, 0x100000, 1⟩, ⟨0x100000, 0x1000, 0⟩, ⟨0x200000, 0x4000, 0⟩]

theorem install_threeEntries : ∃ s', installFromBootInfo ⟨fun _ => 0, 0, 0, 0⟩ threeEntries
    0xFFFFFFFF80100000 = .ok s' ∧ s'.start = 0xFFFF800000200000 ∧
      Placed ⟨fun _ => 0, 0, 0, 0⟩ threeEntries 0xFFFFFFFF80100000 s' := by
  have hlimine : Guaranteed threeEntries := ⟨by decide, by decide, by decide⟩
  obtain ⟨hplaced, -⟩ := install_placed hlimine ⟨fun _ => 0, 0, 0, 0⟩ 0xFFFFFFFF80100000
  exact ⟨_, rfl, rfl, hplaced _ rfl⟩

end Heap

end FerricK
