import FerricK.Lib.Lists
import FerricK.Monitor.Load
import Mathlib.Data.List.Chain

/-! What `run_monitor` refreshes the window with: `update` runs in every turn of the loop, `refresh`
once a second. -/

namespace FerricK

open Rust

def MonitorSample.second (s : MonitorSample) : UInt64 := s.uptimeNs / nanosPerSec

/-- `refreshed` are the calls of `refresh`, each with its sample. -/
structure MonitorLoop where
  model : MonitorModel
  lastSecond : UInt64
  refreshed : List (MonitorSample × DisplayInfo)

namespace MonitorLoop

def start : MonitorLoop where
  model := .new
  lastSecond := .ofNat (2 ^ 64 - 1)
  refreshed := []

def turn (l : MonitorLoop) (sample : MonitorSample) : Rust MonitorLoop := do
  let (info, model) ← l.model.update sample
  if info.uptimeSeconds ≠ l.lastSecond then
    return { model := model, lastSecond := info.uptimeSeconds,
             refreshed := l.refreshed ++ [(sample, info)] }
  else return { l with model := model }

def run (samples : List MonitorSample) : Rust MonitorLoop := samples.foldlM turn start

structure Spans (prev s : MonitorSample) (info : DisplayInfo) : Prop where
  deltaTicks : info.deltaTicks = saturatingSub s.totalTicks prev.totalTicks
  deltaIdleTicks : info.deltaIdleTicks = saturatingSub s.idleTicks prev.idleTicks
  load : cpuLoadPercent info.deltaTicks info.deltaIdleTicks = .ok info.cpuLoadPercent

/-- Each refresh but the first displays the interval since the one before it. -/
def ShowsIntervals (samples : List MonitorSample) : Prop :=
  ∃ l, run samples = .ok l ∧ l.refreshed.IsChain fun a b => Spans a.1 b.1 b.2

structure NonDecreasing (a b : MonitorSample) : Prop where
  uptimeNs : a.uptimeNs ≤ b.uptimeNs
  totalTicks : a.totalTicks ≤ b.totalTicks
  idleTicks : a.idleTicks ≤ b.idleTicks

def SameCounters (a b : MonitorSample) : Prop :=
  a.totalTicks = b.totalTicks ∧ a.idleTicks = b.idleTicks

/-- In a second that is over, the counters stood still between its samples. -/
def Steady (samples : List MonitorSample) : Prop :=
  ∀ a b c, [a, b, c].Sublist samples → a.second = b.second → b.second ≠ c.second → SameCounters a b

structure Reached (samples : List MonitorSample) (x : MonitorSample) (l : MonitorLoop)
    (first : MonitorSample) : Prop where
  model : l.model = ⟨some x⟩
  lastSecond : l.lastSecond = x.second
  refreshed : ∃ rs info, l.refreshed = rs ++ [(first, info)]
  second : first.second = x.second
  mem : first = x ∨ [first, x].Sublist (samples ++ [x])
  first_le : ∀ a ∈ samples ++ [x], a.second = x.second → NonDecreasing first a
  shows : (l.refreshed.IsChain fun a b => Spans a.1 b.1 b.2) ↔ Steady (samples ++ [x])

variable {samples : List MonitorSample} {x y first : MonitorSample} {l : MonitorLoop}

theorem turn_ok (l : MonitorLoop) (s : MonitorSample) : ∃ info, l.model.Displays s info ∧
    l.turn s = .ok (if s.second ≠ l.lastSecond then
      { model := ⟨some s⟩, lastSecond := s.second, refreshed := l.refreshed ++ [(s, info)] }
      else { l with model := ⟨some s⟩ }) := by
  obtain ⟨info, hupdate, hdisplays⟩ := l.model.update_ok s
  refine ⟨info, hdisplays, ?_⟩
  simp only [turn, hupdate, ok_bind, hdisplays.uptimeSeconds, pure_eq_ok]
  exact (apply_ite Except.ok _ _ _).symm

theorem second_ne_max (s : MonitorSample) : s.second ≠ start.lastSecond := by
  intro h
  have hlt := s.uptimeNs.toNat_lt
  have hnat := congrArg UInt64.toNat h
  simp only [MonitorSample.second, UInt64.toNat_div, nanosPerSec, start] at hnat
  have hmax : (UInt64.ofNat (2 ^ 64 - 1)).toNat = 2 ^ 64 - 1 := rfl
  have hnanos : (1000000000 : UInt64).toNat = 1000000000 := rfl
  rw [hmax, hnanos] at hnat
  omega

theorem steady_singleton (x : MonitorSample) : Steady [x] := by
  intro a b c h
  have hlength := h.length_le
  simp at hlength

theorem NonDecreasing.refl (a : MonitorSample) : NonDecreasing a a :=
  ⟨UInt64.le_refl _, UInt64.le_refl _, UInt64.le_refl _⟩

theorem SameCounters.refl (a : MonitorSample) : SameCounters a a := ⟨rfl, rfl⟩

theorem SameCounters.between {a b : MonitorSample} (h : SameCounters first x)
    (ha : NonDecreasing first a) (hab : NonDecreasing a b) (hb : NonDecreasing b x) :
    SameCounters a b := by
  obtain ⟨hticks, hidle⟩ := h
  have hb₁ := hticks ▸ hb.totalTicks
  have hb₂ := hidle ▸ hb.idleTicks
  exact ⟨UInt64.le_antisymm hab.totalTicks (UInt64.le_trans hb₁ ha.totalTicks),
    UInt64.le_antisymm hab.idleTicks (UInt64.le_trans hb₂ ha.idleTicks)⟩

theorem steady_concat : Steady (samples ++ [x] ++ [y]) ↔ Steady (samples ++ [x]) ∧
    ∀ a b, [a, b].Sublist (samples ++ [x]) → a.second = b.second → b.second ≠ y.second →
      SameCounters a b := by
  constructor
  · intro h
    refine ⟨fun a b c habc => h a b c (habc.trans (List.sublist_append_left _ _)), ?_⟩
    intro a b hab
    exact h a b y (hab.append (List.Sublist.refl [y]))
  · rintro ⟨hold, hnew⟩ a b c habc
    obtain hbefore | ⟨hab, rfl⟩ := (Lists.concat_sublist_concat [a, b]).mp habc
    · exact hold a b c hbefore
    · exact hnew a b hab

theorem steady_same (h : x.second = y.second) :
    Steady (samples ++ [x] ++ [y]) ↔ Steady (samples ++ [x]) := by
  rw [steady_concat, and_iff_left_iff_imp]
  intro hsteady a b hab heq hne
  obtain hbefore | ⟨-, rfl⟩ := (Lists.concat_sublist_concat [a]).mp hab
  · exact hsteady a b x (hbefore.append (List.Sublist.refl [x])) heq (h ▸ hne)
  · exact absurd h hne

theorem steady_next (hmono : (samples ++ [x]).Pairwise NonDecreasing) (hne : x.second ≠ y.second)
    (hreached : Reached samples x l first) : Steady (samples ++ [x] ++ [y]) ↔
      Steady (samples ++ [x]) ∧ SameCounters first x := by
  rw [steady_concat, and_congr_right_iff]
  intro hsteady
  constructor
  · intro h
    obtain rfl | hsub := hreached.mem
    · exact SameCounters.refl first
    · exact h first x hsub hreached.second hne
  · intro hsame a b hab heq hby
    have hpair := hmono.sublist hab
    obtain hbefore | ⟨hmem, rfl⟩ := (Lists.concat_sublist_concat [a]).mp hab
    · by_cases hbx : b.second = x.second
      · have hmem : a ∈ samples ++ [x] := hab.subset (by simp)
        have hb : b ∈ samples := hbefore.subset (by simp)
        refine hsame.between (hreached.first_le a hmem (heq.trans hbx))
          ((List.pairwise_pair).mp hpair) ?_
        exact (List.pairwise_append.mp hmono).2.2 b hb x (List.mem_singleton_self x)
      · exact hsteady a b x (hbefore.append (List.Sublist.refl [x])) heq hbx
    · exact hsame.between (hreached.first_le a (List.mem_append_left _ (hmem.subset (by simp))) heq)
        ((List.pairwise_pair).mp hpair) (NonDecreasing.refl _)

theorem saturatingSub_eq_iff {f c n : UInt64} (hfc : f ≤ c) (hcn : c ≤ n) :
    saturatingSub n c = saturatingSub n f ↔ f = c := by
  rw [← UInt64.toNat_inj, ← UInt64.toNat_inj, toNat_saturatingSub, toNat_saturatingSub]
  rw [UInt64.le_iff_toNat_le] at hfc hcn
  omega

theorem spans_iff {info : DisplayInfo} (hdisplays : MonitorModel.Displays ⟨some x⟩ y info)
    (hfirst : NonDecreasing first x) (hlast : NonDecreasing x y) :
    Spans first y info ↔ SameCounters first x := by
  have hticks : info.deltaTicks = saturatingSub y.totalTicks x.totalTicks := hdisplays.deltaTicks
  have hidle : info.deltaIdleTicks = saturatingSub y.idleTicks x.idleTicks :=
    hdisplays.deltaIdleTicks
  have hload : cpuLoadPercent info.deltaTicks info.deltaIdleTicks = .ok info.cpuLoadPercent := by
    rw [cpuLoadPercent_eq, ← hdisplays.load, UInt8.ofNat_toNat]
  rw [SameCounters, ← saturatingSub_eq_iff hfirst.totalTicks hlast.totalTicks, ← hticks,
    ← saturatingSub_eq_iff hfirst.idleTicks hlast.idleTicks, ← hidle]
  exact ⟨fun h => ⟨h.deltaTicks, h.deltaIdleTicks⟩, fun h => ⟨h.1, h.2, hload⟩⟩

theorem turn_start (x : MonitorSample) : ∃ l, start.turn x = .ok l ∧ Reached [] x l x := by
  obtain ⟨info, -, hturn⟩ := turn_ok start x
  rw [if_pos (second_ne_max x)] at hturn
  refine ⟨_, hturn, rfl, rfl, ⟨[], info, rfl⟩, rfl, .inl rfl, ?_, ?_⟩
  · intro a ha _
    obtain rfl := List.mem_singleton.mp ha
    exact NonDecreasing.refl a
  · exact iff_of_true (List.isChain_singleton _) (steady_singleton x)

theorem NonDecreasing.second_le {a b : MonitorSample} (h : NonDecreasing a b) :
    a.second ≤ b.second := by
  have hle := UInt64.le_iff_toNat_le.mp h.uptimeNs
  rw [UInt64.le_iff_toNat_le, MonitorSample.second, MonitorSample.second, UInt64.toNat_div,
    UInt64.toNat_div]
  exact Nat.div_le_div_right hle

theorem Reached.first_mem (h : Reached samples x l first) : first ∈ samples ++ [x] := by
  obtain rfl | hsub := h.mem
  · simp
  · exact hsub.subset (by simp)

theorem second_le_last {a : MonitorSample} (hmono : (samples ++ [x]).Pairwise NonDecreasing)
    (ha : a ∈ samples ++ [x]) : a.second ≤ x.second := by
  obtain ha | ha := List.mem_append.mp ha
  · exact ((List.pairwise_append.mp hmono).2.2 a ha x (List.mem_singleton_self x)).second_le
  · rw [List.mem_singleton.mp ha]
    exact UInt64.le_refl _

theorem Reached.stay (h : Reached samples x l first) (hsecond : x.second = y.second)
    (hmono : (samples ++ [x] ++ [y]).Pairwise NonDecreasing) :
    Reached (samples ++ [x]) y { l with model := ⟨some y⟩ } first where
  model := rfl
  lastSecond := h.lastSecond.trans hsecond
  refreshed := h.refreshed
  second := h.second.trans hsecond
  mem := .inr ((List.singleton_sublist.mpr h.first_mem).append (List.Sublist.refl [y]))
  first_le a ha heq := by
    obtain ha | ha := List.mem_append.mp ha
    · exact h.first_le a ha (heq.trans hsecond.symm)
    · rw [List.mem_singleton.mp ha]
      exact (List.pairwise_append.mp hmono).2.2 first h.first_mem y (List.mem_singleton_self y)
  shows := h.shows.trans (steady_same hsecond).symm

theorem Reached.next {info : DisplayInfo} (h : Reached samples x l first)
    (hsecond : x.second ≠ y.second) (hmono : (samples ++ [x] ++ [y]).Pairwise NonDecreasing)
    (hdisplays : MonitorModel.Displays ⟨some x⟩ y info) : Reached (samples ++ [x]) y
      { model := ⟨some y⟩, lastSecond := y.second, refreshed := l.refreshed ++ [(y, info)] } y where
  model := rfl
  lastSecond := rfl
  refreshed := ⟨l.refreshed, info, rfl⟩
  second := rfl
  mem := .inl rfl
  first_le a ha heq := by
    obtain ⟨hbefore, -, hy⟩ := List.pairwise_append.mp hmono
    obtain ha | ha := List.mem_append.mp ha
    · have hle := second_le_last hbefore ha
      have hxy := (hy x (by simp) y (List.mem_singleton_self y)).second_le
      rw [heq] at hle
      exact absurd (UInt64.le_antisymm hxy hle) hsecond
    · rw [List.mem_singleton.mp ha]
      exact NonDecreasing.refl y
  shows := by
    obtain ⟨hbefore, -, hy⟩ := List.pairwise_append.mp hmono
    obtain ⟨rs, shown, hrefreshed⟩ := h.refreshed
    rw [steady_next hbefore hsecond h, ← h.shows,
      ← spans_iff hdisplays (h.first_le x (by simp) rfl) (hy x (by simp) y (by simp))]
    dsimp only
    rw [hrefreshed, List.append_assoc, List.singleton_append, List.isChain_append_cons_cons]
    simp

theorem Reached.turn (h : Reached samples x l first)
    (hmono : (samples ++ [x] ++ [y]).Pairwise NonDecreasing) :
    ∃ l' first', l.turn y = .ok l' ∧ Reached (samples ++ [x]) y l' first' := by
  obtain ⟨info, hdisplays, hturn⟩ := turn_ok l y
  rw [h.model] at hdisplays
  by_cases hsecond : x.second = y.second
  · rw [if_neg (not_not.mpr (hsecond.symm.trans h.lastSecond.symm))] at hturn
    exact ⟨_, first, hturn, h.stay hsecond hmono⟩
  · rw [if_pos (fun heq => hsecond (h.lastSecond.symm.trans heq.symm))] at hturn
    exact ⟨_, y, hturn, h.next hsecond hmono hdisplays⟩

theorem reached (samples : List MonitorSample) (x : MonitorSample)
    (hmono : (samples ++ [x]).Pairwise NonDecreasing) :
    ∃ l first, run (samples ++ [x]) = .ok l ∧ Reached samples x l first := by
  induction samples using List.reverseRecOn generalizing x with
  | nil =>
    obtain ⟨l, hturn, hreached⟩ := turn_start x
    exact ⟨l, x, by simp [run, hturn], hreached⟩
  | append_singleton samples s ih =>
    obtain ⟨l, first, hrun, hreached⟩ := ih s (List.pairwise_append.mp hmono).1
    obtain ⟨l', first', hturn, hreached'⟩ := hreached.turn hmono
    refine ⟨l', first', ?_, hreached'⟩
    rw [run, List.foldlM_append, ← run, hrun, ok_bind, List.foldlM_cons, hturn]
    rfl

theorem shows_intervals_iff (h : samples.Pairwise NonDecreasing) :
    ShowsIntervals samples ↔ Steady samples := by
  cases samples using List.reverseRecOn with
  | nil => exact iff_of_true ⟨start, rfl, List.isChain_nil⟩ fun a b c habc => by simp at habc
  | append_singleton samples x =>
    obtain ⟨l, first, hrun, hreached⟩ := reached samples x h
    rw [← hreached.shows]
    constructor
    · rintro ⟨l', hrun', hshows⟩
      obtain rfl : l = l' := Except.ok.inj (hrun.symm.trans hrun')
      exact hshows
    · exact fun hshows => ⟨l, hrun, hshows⟩

def counters (uptimeNs totalTicks idleTicks : UInt64) : MonitorSample where
  uptimeNs := uptimeNs
  totalTicks := totalTicks
  idleTicks := idleTicks
  memoryRegions := Vector.replicate _ ⟨0, 0, .unknown 0⟩
  memoryRegionCount := 0

theorem shows_intervals_iff_slow :
    ShowsIntervals [counters 0 0 0, counters 1000000000 1000 100] := by
  have hmono : [counters 0 0 0, counters 1000000000 1000 100].Pairwise NonDecreasing :=
    List.pairwise_pair.mpr ⟨by decide, by decide, by decide⟩
  refine (shows_intervals_iff hmono).mpr fun a b c habc => ?_
  exact absurd habc.length_le (by simp)

/-- Busy for 900 ms, then idle for 100: the window shows 0% where the second had 90%. -/
def busySecond : List MonitorSample :=
  [counters 0 0 0, counters 900000000 900 0, counters 1000000000 1000 100]

theorem last_turn_shown : busySecond.Pairwise NonDecreasing ∧ ¬ ShowsIntervals busySecond ∧
    cpuLoadPercent 100 100 = .ok 0 ∧ cpuLoadPercent 1000 100 = .ok 90 := by
  refine ⟨?_, ?_, by decide, by decide⟩
  · simp only [busySecond, List.pairwise_cons, List.forall_mem_cons]
    refine ⟨⟨⟨by decide, by decide, by decide⟩, ⟨by decide, by decide, by decide⟩, by simp⟩,
      ⟨⟨by decide, by decide, by decide⟩, by simp⟩, by simp⟩
  · rintro ⟨l, hrun, hshows⟩
    have hlast : run busySecond = .ok _ := rfl
    obtain rfl := Except.ok.inj (hlast.symm.trans hrun)
    have hspans := (List.isChain_pair.mp hshows).deltaTicks
    exact absurd hspans (by decide)

end MonitorLoop

end FerricK
