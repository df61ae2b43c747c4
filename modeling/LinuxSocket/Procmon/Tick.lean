import LinuxSocket.Lib.Window
import LinuxSocket.Procmon.StatData
import Mathlib.Data.List.ReduceOption

/-! # The chart of the CPU times

Every two seconds `tick` reads the status of the process and keeps how much its times have grown since it was last
read. The buffer has room for ten minutes.
-/
namespace LinuxSocket.Procmon
open Window

structure CpuTime where
  userTime : ℤ
  sysTime : ℤ
  deriving DecidableEq

def castInt (n : ℤ) : ℤ := Int.bmod n (2 ^ 32)

def kperiod : ℕ := 2

structure Monitor where
  lastStatData : StatData := .zero
  ticks : ℕ := 0
  cpuUsage : List CpuTime := []

def growth (last stat : StatData) : CpuTime where
  userTime := max 0 (castInt (stat.utime - last.utime))
  sysTime := max 0 (castInt (stat.stime - last.stime))

section
variable [ProcessInfo]

/-- `tick` when the file holds `stat`, `none` when the assertion fails. `vsize` and `rss` are what the local variables
of `parse` hold at first. -/
def tick (kbPerPage : ℤ) (s : Monitor) (stat : Bytes) (vsize rss : ℤ) : Option Monitor :=
  if stat = [] then some s
  else do
    let text ← startAtState stat
    let statData := StatData.parse text kbPerPage vsize rss
    let cpuUsage :=
      if 0 < s.ticks then pushBack (600 / kperiod) s.cpuUsage (growth s.lastStatData statData) else s.cpuUsage
    some ⟨statData, s.ticks + 1, cpuUsage⟩

/-- A process as a tick finds it, if it is still there, and what the local variables of `parse` hold then. Its numbers
fit. -/
structure Reading where
  process : Option Process
  vsize : ℤ
  rss : ℤ
  fits : ∀ p ∈ process, p.Fits

def Reading.stat (r : Reading) : Bytes := (r.process.map Process.line).getD []

def ticks (kbPerPage : ℤ) (readings : List Reading) : Option Monitor :=
  readings.foldlM (fun s r => tick kbPerPage s r.stat r.vsize r.rss) {}

end

def processes (readings : List Reading) : List Process := readings.filterMap Reading.process

/-- The times grow from one reading to the next, by less than an `int` can hold. -/
structure Grows (p q : Process) : Prop where
  utime : p.stat.utime ≤ q.stat.utime ∧ q.stat.utime < p.stat.utime + 2 ^ 31
  stime : p.stat.stime ≤ q.stat.stime ∧ q.stat.stime < p.stat.stime + 2 ^ 31

section Window
variable {kbPerPage : ℤ} {p q : Process} {ps : List Process} {s : Monitor}

def growthOf (p q : Process) : CpuTime := growth p.stat q.stat

theorem castInt_eq {n : ℤ} (h₀ : 0 ≤ n) (h₁ : n < 2 ^ 31) : castInt n = n := by
  rw [castInt, Int.bmod_eq_of_le]
  · omega
  · omega

theorem Grows.growthOf_eq (h : Grows p q) :
    growthOf p q = ⟨q.stat.utime - p.stat.utime, q.stat.stime - p.stat.stime⟩ := by
  obtain ⟨⟨hu, hu'⟩, hs, hs'⟩ := h
  rw [growthOf, growth, castInt_eq (by omega) (by omega), castInt_eq (by omega) (by omega), max_eq_right (by omega),
    max_eq_right (by omega)]

theorem growth_parsed (p q : Process) : growth (p.parsed kbPerPage) (q.parsed kbPerPage) = growthOf p q := rfl

/-- The monitor behind the readings of the processes `ps`. -/
structure Charts (kbPerPage : ℤ) (s : Monitor) (ps : List Process) : Prop where
  ticks : s.ticks = ps.length
  last : ∀ p, ps.getLast? = some p → s.lastStatData = p.parsed kbPerPage
  usage : s.cpuUsage = (pairs growthOf ps).rtake (600 / kperiod)

theorem charts_start : Charts kbPerPage {} [] where
  ticks := rfl
  last := by
    intro p hp
    cases hp
  usage := rfl

/-- What has been used between the ends of a sequence of readings. -/
theorem sum_growthOf (h : ps.IsChain Grows) (hp : ps.head? = some p) (hq : ps.getLast? = some q) :
    ((pairs growthOf ps).map CpuTime.userTime).sum = q.stat.utime - p.stat.utime ∧
      ((pairs growthOf ps).map CpuTime.sysTime).sum = q.stat.stime - p.stat.stime := by
  obtain ⟨rest, rfl⟩ := List.head?_eq_some_iff.mp hp
  have hlast : (p :: rest).getLast (List.cons_ne_nil p rest) = q := by
    rw [List.getLast?_eq_some_getLast (List.cons_ne_nil p rest)] at hq
    exact Option.some.inj hq
  rw [pairs_congr (fun a b hab => Grows.growthOf_eq hab) h, pairs, List.map_zipWith, List.map_zipWith]
  have huser := sum_pairs (fun a : Process => a.stat.utime) p rest
  have hsys := sum_pairs (fun a : Process => a.stat.stime) p rest
  rw [hlast] at huser hsys
  exact ⟨huser, hsys⟩

variable [ProcessInfo]

theorem tick_line (h : p.Fits) (s : Monitor) (vsize rss : ℤ) : tick kbPerPage s p.line vsize rss =
    some ⟨p.parsed kbPerPage, s.ticks + 1, if 0 < s.ticks then
      pushBack (600 / kperiod) s.cpuUsage (growth s.lastStatData (p.parsed kbPerPage)) else s.cpuUsage⟩ := by
  have hne : p.line ≠ [] := by
    rw [Process.line]
    simp
  rw [tick, if_neg hne, h.startAtState_line, Option.bind_eq_bind, Option.bind_some, h.parse_behind]

/-- One more process is read. -/
theorem Charts.tick (h : Charts kbPerPage s ps) (hp : p.Fits) (vsize rss : ℤ) :
    ∃ s', Procmon.tick kbPerPage s p.line vsize rss = some s' ∧ Charts kbPerPage s' (ps ++ [p]) := by
  refine ⟨_, tick_line hp s vsize rss, ?_, ?_, ?_⟩
  · rw [List.length_append, h.ticks]
    rfl
  · intro q hq
    rw [List.getLast?_append, List.getLast?_singleton] at hq
    obtain rfl := Option.some.inj hq
    rfl
  · rcases List.eq_nil_or_concat' ps with rfl | ⟨qs, q, rfl⟩
    · have hzero : s.ticks = 0 := h.ticks
      have hnil : s.cpuUsage = [] := h.usage
      simp [hzero, hnil, pairs]
    · have hpos : 0 < s.ticks := by
        rw [h.ticks, List.length_append]
        exact Nat.succ_pos _
      have hlast := h.last q (by simp)
      rw [if_pos hpos, h.usage, pushBack_rtake, pairs_concat, hlast, growth_parsed]

/-- Every run of ticks charts the processes read. -/
theorem ticks_charts (kbPerPage : ℤ) (readings : List Reading) :
    ∃ s, ticks kbPerPage readings = some s ∧ Charts kbPerPage s (processes readings) := by
  induction readings using List.reverseRecOn with
  | nil => exact ⟨{}, rfl, charts_start⟩
  | append_singleton readings r ih =>
    obtain ⟨s, hs, hcharts⟩ := ih
    have hrun : ticks kbPerPage (readings ++ [r]) = tick kbPerPage s r.stat r.vsize r.rss := by
      rw [ticks, List.foldlM_append, ← ticks, hs]
      simp
    rw [hrun, processes, List.filterMap_append, ← processes]
    cases hp : r.process with
    | none =>
      refine ⟨s, ?_, by simpa [hp] using hcharts⟩
      rw [Reading.stat, hp]
      exact if_pos rfl
    | some p =>
      have hfits := r.fits p hp
      obtain ⟨s', hs', hcharts'⟩ := hcharts.tick hfits r.vsize r.rss
      refine ⟨s', ?_, by simpa [hp] using hcharts'⟩
      rw [Reading.stat, hp]
      exact hs'

/-- However often `tick` runs, and whenever the process cannot be read, the buffer holds the growth between the last 301
readings, one value for each two neighbours; and where the times grow by less than an `int` holds, the values add up
to what the process has used between the first and the last of these readings. -/
theorem chart_window (kbPerPage : ℤ) (readings : List Reading) :
    ∃ s, ticks kbPerPage readings = some s ∧ s.ticks = (processes readings).length ∧
      s.cpuUsage = pairs growthOf ((processes readings).rtake 301) ∧
      ((processes readings).IsChain Grows →
        ∀ first last, ((processes readings).rtake 301).head? = some first → (processes readings).getLast? = some last →
          (s.cpuUsage.map CpuTime.userTime).sum = last.stat.utime - first.stat.utime ∧
          (s.cpuUsage.map CpuTime.sysTime).sum = last.stat.stime - first.stat.stime) := by
  obtain ⟨s, hs, hcharts⟩ := ticks_charts kbPerPage readings
  have husage : s.cpuUsage = pairs growthOf ((processes readings).rtake 301) :=
    hcharts.usage.trans (pairs_rtake _ _ _)
  refine ⟨s, hs, hcharts.ticks, husage, fun hgrows first last hfirst hlast => ?_⟩
  have hwindow : ((processes readings).rtake 301).getLast? = some last := by
    have hne : processes readings ≠ [] := by
      intro hnil
      rw [hnil] at hlast
      cases hlast
    have hpos := List.length_pos_iff.mpr hne
    rw [List.rtake, List.getLast?_drop, if_neg (by omega), hlast]
  rw [husage]
  exact sum_growthOf (hgrows.drop _) hfirst hwindow

end Window

section Witness

def laterProcess : Process := { oneProcess with stat := { oneProcess.stat with utime := 350 } }

def twoReadings : List Reading :=
  [⟨some oneProcess, 0, 0, by rintro p ⟨⟩; exact oneProcess_fits⟩, ⟨none, 0, 0, by rintro p ⟨⟩⟩,
    ⟨some laterProcess, 0, 0, by rintro p ⟨⟩; exact ⟨by decide, by decide, by decide, by decide⟩⟩]

theorem chart_window_two : ∃ s, @ticks .reference 4 twoReadings = some s ∧
    (s.cpuUsage.map CpuTime.userTime).sum = 100 ∧ (s.cpuUsage.map CpuTime.sysTime).sum = 0 := by
  obtain ⟨s, hs, -, -, hsum⟩ := @chart_window .reference 4 twoReadings
  have hgrows : (processes twoReadings).IsChain Grows :=
    List.isChain_cons_cons.mpr ⟨⟨by decide, by decide⟩, List.isChain_singleton _⟩
  exact ⟨s, hs, hsum hgrows oneProcess laterProcess rfl rfl⟩

end Witness

end LinuxSocket.Procmon
