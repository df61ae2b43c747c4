import LinuxSocket.Lib.Extraction

/-! # The status of a process

The kernel writes `/proc/<pid>/stat` as a line with the process number, the name in parentheses, a character for the
state, and numbers. `Procmon` reads it back from behind the name, which may hold any characters.
-/
namespace LinuxSocket.Procmon
open IStream

/-- muduo. -/
class ProcessInfo where
  /-- `ProcessInfo::procname`, as the position of the name and its length. -/
  procname : Bytes → ℕ × ℕ
  procname_eq : ∀ {front name behind : Bytes}, 40 ∉ front → 41 ∉ behind →
    procname (front ++ 40 :: (name ++ 41 :: behind)) = (front.length + 1, name.length)

structure StatData where
  state : UInt8
  ppid : ℤ
  pgrp : ℤ
  session : ℤ
  ttyNr : ℤ
  tpgid : ℤ
  flags : ℤ
  minflt : ℤ
  cminflt : ℤ
  majflt : ℤ
  cmajflt : ℤ
  utime : ℤ
  stime : ℤ
  cutime : ℤ
  cstime : ℤ
  priority : ℤ
  nice : ℤ
  numThreads : ℤ
  itrealvalue : ℤ
  starttime : ℤ
  vsizeKb : ℤ
  rssKb : ℤ
  rsslim : ℤ
  deriving DecidableEq

def StatData.zero : StatData := ⟨0, 0, 0, 0, 0, 0, 0, 0, 0, 0, 0, 0, 0, 0, 0, 0, 0, 0, 0, 0, 0, 0, 0⟩

/-- `parse` of a text that ends at its first zero byte, into an object of zeros. `vsize` and `rss` are what its local
variables hold at first. -/
def StatData.parse (startAtState : Bytes) (kbPerPage vsize rss : ℤ) : StatData :=
  let iss : IStream := ⟨startAtState.takeWhile (· ≠ 0), false⟩
  let (state, iss) := iss.getChar 0
  let (ppid, iss) := iss.getInt .int 0
  let (pgrp, iss) := iss.getInt .int 0
  let (session, iss) := iss.getInt .int 0
  let (ttyNr, iss) := iss.getInt .int 0
  let (tpgid, iss) := iss.getInt .int 0
  let (flags, iss) := iss.getInt .int 0
  let (minflt, iss) := iss.getInt .long 0
  let (cminflt, iss) := iss.getInt .long 0
  let (majflt, iss) := iss.getInt .long 0
  let (cmajflt, iss) := iss.getInt .long 0
  let (utime, iss) := iss.getInt .long 0
  let (stime, iss) := iss.getInt .long 0
  let (cutime, iss) := iss.getInt .long 0
  let (cstime, iss) := iss.getInt .long 0
  let (priority, iss) := iss.getInt .long 0
  let (nice, iss) := iss.getInt .long 0
  let (numThreads, iss) := iss.getInt .long 0
  let (itrealvalue, iss) := iss.getInt .long 0
  let (starttime, iss) := iss.getInt .long 0
  let (vsize, iss) := iss.getInt .long vsize
  let (rss, iss) := iss.getInt .long rss
  let (rsslim, _) := iss.getInt .long 0
  { state, ppid, pgrp, session, ttyNr, tpgid, flags, minflt, cminflt, majflt, cmajflt, utime, stime, cutime, cstime,
    priority, nice, numThreads, itrealvalue, starttime, vsizeKb := vsize.tdiv 1024, rssKb := rss * kbPerPage, rsslim }

/-- The text behind the name, `none` when the assertion that a parenthesis closes the name fails. -/
def startAtState [ProcessInfo] (stat : Bytes) : Option Bytes :=
  let (start, length) := ProcessInfo.procname stat
  if stat[start + length]? = some 41 then some (stat.drop (start + length + 1)) else none

section Kernel

/-- A process as the kernel describes it. The sizes are in bytes and in pages. -/
structure Process where
  pid : ℕ
  comm : Bytes
  stat : StatData
  vsize : ℤ
  rss : ℤ
  /-- the numbers behind those that `Procmon` reads -/
  more : List ℤ

namespace Process

def numbers (p : Process) : List ℤ :=
  [p.stat.ppid, p.stat.pgrp, p.stat.session, p.stat.ttyNr, p.stat.tpgid, p.stat.flags, p.stat.minflt, p.stat.cminflt,
    p.stat.majflt, p.stat.cmajflt, p.stat.utime, p.stat.stime, p.stat.cutime, p.stat.cstime, p.stat.priority,
    p.stat.nice, p.stat.numThreads, p.stat.itrealvalue, p.stat.starttime, p.vsize, p.rss, p.stat.rsslim]

/-- The text behind the name. -/
def behind (p : Process) : Bytes := SP :: p.stat.state :: (fields p.numbers ++ (fields p.more ++ [LF]))

def line (p : Process) : Bytes := decimal p.pid ++ [SP] ++ 40 :: (p.comm ++ 41 :: p.behind)

/-- The numbers fit in the types of `StatData`, the flags in an `int`, but for the limit of the resident set, which is no
limit at the greatest unsigned value. -/
structure Fits (p : Process) : Prop where
  state : isspace p.stat.state = false ∧ p.stat.state ≠ 41 ∧ p.stat.state ≠ 0
  ints : ∀ n ∈ p.numbers.take 6, IntRange.int.Contains n
  longs : ∀ n ∈ (p.numbers.drop 6).take 15, IntRange.long.Contains n
  rsslim : 0 ≤ p.stat.rsslim

def parsed (p : Process) (kbPerPage : ℤ) : StatData :=
  { p.stat with vsizeKb := p.vsize.tdiv 1024, rssKb := p.rss * kbPerPage, rsslim := min (2 ^ 63 - 1) p.stat.rsslim }

end Process

end Kernel

section RoundTrip
variable {p : Process}

theorem not_mem_decimal {c : UInt8} (hc : isdigit c = false) (n : ℕ) : c ∉ decimal n := by
  intro h
  rw [isdigit_of_mem_decimal h] at hc
  cases hc

theorem not_mem_fields {c : UInt8} (hc : isdigit c = false) (hsp : c ≠ SP) (hminus : c ≠ 45) (ns : List ℤ) :
    c ∉ fields ns := by
  intro h
  obtain ⟨n, -, hn⟩ := List.mem_flatMap.mp h
  rcases List.mem_cons.mp hn with rfl | hn
  · exact hsp rfl
  · rw [decimalInt] at hn
    split at hn
    · rcases List.mem_cons.mp hn with rfl | hn
      · exact hminus rfl
      · exact not_mem_decimal hc _ hn
    · exact not_mem_decimal hc _ hn

theorem Process.Fits.not_mem_behind (h : p.Fits) : 41 ∉ p.behind ∧ 0 ∉ p.behind := by
  have hparen : ∀ ns, (41 : UInt8) ∉ fields ns := not_mem_fields (by decide) (by decide) (by decide)
  have hnul : ∀ ns, (0 : UInt8) ∉ fields ns := not_mem_fields (by decide) (by decide) (by decide)
  constructor
  · have hstate := h.state.2.1.symm
    simp [Process.behind, hparen, hstate, SP, LF]
  · have hstate := h.state.2.2.symm
    simp [Process.behind, hnul, hstate, SP, LF]

/-- The fields are read back from the text behind the name. -/
theorem Process.Fits.parse_behind (h : p.Fits) (kbPerPage vsize rss : ℤ) :
    StatData.parse p.behind kbPerPage vsize rss = p.parsed kbPerPage := by
  have hnul : p.behind.takeWhile (· ≠ 0) = p.behind := by
    rw [List.takeWhile_eq_self_iff]
    intro c hc
    simpa using ne_of_mem_of_not_mem hc h.not_mem_behind.2
  have hends : Ends (fields p.more ++ [LF]) := by
    refine ends_fields p.more fun c hc => ?_
    obtain rfl := Option.some.inj hc
    decide
  have hints := h.ints
  have hlongs := h.longs
  simp only [Process.numbers, List.take_succ_cons, List.take_zero, List.drop_succ_cons, List.drop_zero,
    List.forall_mem_cons] at hints hlongs
  obtain ⟨hppid, hpgrp, hsession, httyNr, htpgid, hflags, -⟩ := hints
  obtain ⟨hminflt, hcminflt, hmajflt, hcmajflt, hutime, hstime, hcutime, hcstime, hpriority, hnice, hnumThreads,
    hitrealvalue, hstarttime, hvsize, hrss, -⟩ := hlongs
  have hlimit : IntRange.long.clamp p.stat.rsslim = min (2 ^ 63 - 1) p.stat.rsslim := by
    have hnonneg := h.rsslim
    simp only [IntRange.clamp, IntRange.long]
    omega
  have hlast : ∀ old, getInt .long ⟨fields [p.stat.rsslim] ++ (fields p.more ++ [LF]), false⟩ old =
      (min (2 ^ 63 - 1) p.stat.rsslim, ⟨fields p.more ++ [LF], decide ¬IntRange.long.Contains p.stat.rsslim⟩) := by
    intro old
    rw [fields_cons, getInt_space _ (ends_fields [] hends), hlimit]
    rfl
  rw [StatData.parse, hnul, Process.behind, Process.numbers, getChar_space h.state.1]
  simp only [getInt_fields, hlast, hends, hppid, hpgrp, hsession, httyNr, htpgid, hflags, hminflt, hcminflt, hmajflt,
    hcmajflt, hutime, hstime, hcutime, hcstime, hpriority, hnice, hnumThreads, hitrealvalue, hstarttime, hvsize, hrss]
  rfl

/-- The line that the kernel writes is split behind the name, whatever the name is. -/
theorem Process.Fits.startAtState_line [ProcessInfo] (h : p.Fits) : startAtState p.line = some p.behind := by
  have hfront : (40 : UInt8) ∉ decimal p.pid ++ [SP] := by
    simp [not_mem_decimal (c := 40) (by decide), SP]
  have hname := @ProcessInfo.procname_eq _ _ p.comm _ hfront h.not_mem_behind.1
  have hline : p.line = (decimal p.pid ++ [SP] ++ 40 :: p.comm) ++ 41 :: p.behind := by
    rw [Process.line, List.append_assoc _ (40 :: p.comm), List.cons_append]
  have hlen : (decimal p.pid ++ [SP]).length + 1 + p.comm.length = (decimal p.pid ++ [SP] ++ 40 :: p.comm).length := by
    simp only [List.length_append, List.length_cons, List.length_nil]
    omega
  rw [startAtState, Process.line, hname, ← Process.line]
  dsimp only
  rw [hlen, hline, List.getElem?_append_right (Nat.le_refl _), Nat.sub_self, List.getElem?_cons_zero, if_pos rfl,
    List.drop_append, List.drop_of_length_le (Nat.le_succ _), Nat.add_sub_cancel_left]
  rfl

end RoundTrip

section Witness

/-- The first opening and the last closing parenthesis. -/
def procname (stat : Bytes) : ℕ × ℕ :=
  (stat.idxOf 40 + 1, stat.length - 1 - stat.reverse.idxOf 41 - (stat.idxOf 40 + 1))

abbrev ProcessInfo.reference : ProcessInfo where
  procname := Procmon.procname
  procname_eq := by
    intro front name behind hfront hbehind
    have hfirst : (front ++ 40 :: (name ++ 41 :: behind)).idxOf 40 = front.length :=
      (idxOf_separator hfront _).1
    have hreverse : (front ++ 40 :: (name ++ 41 :: behind)).reverse =
        behind.reverse ++ 41 :: (name.reverse ++ 40 :: front.reverse) := by simp
    have hlast : (front ++ 40 :: (name ++ 41 :: behind)).reverse.idxOf 41 = behind.length := by
      rw [hreverse, (idxOf_separator (by simpa using hbehind) _).1, List.length_reverse]
    rw [Procmon.procname, hfirst, hlast]
    simp only [List.length_append, List.length_cons, Prod.mk.injEq, true_and]
    omega

def oneProcess : Process where
  pid := 7
  comm := ascii "a) (b"
  stat := { StatData.zero with
    state := 83, ppid := 1, pgrp := 7, session := 7, tpgid := -1, flags := 4194560, minflt := 90, utime := 250,
    stime := 17, priority := 20, numThreads := 1, starttime := 100, rsslim := 2 ^ 64 - 1 }
  vsize := 4096
  rss := 3
  more := [1, 1, 0, 0, 0, 0, 0, 0, 0, 0, 0, 0, 17, 3, 0, 0, 0, 0, 0, 0, 0, 0, 0, 0, 0, 0, 0]

example : oneProcess.line = ascii ("7 (a) (b) S 1 7 7 0 -1 4194560 90 0 0 0 250 17 0 0 20 0 1 0 100 4096 3 " ++
    "18446744073709551615 1 1 0 0 0 0 0 0 0 0 0 0 17 3 0 0 0 0 0 0 0 0 0 0 0 0 0\n") := by decide +kernel

theorem oneProcess_fits : oneProcess.Fits :=
  ⟨by decide, by decide, by decide, by decide⟩

end Witness

end LinuxSocket.Procmon
