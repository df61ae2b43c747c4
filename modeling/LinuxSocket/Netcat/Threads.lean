import LinuxSocket.Lib.Transfer
import LinuxSocket.Netcat.Blocking

/-! # The netcat with two threads

One thread copies the socket to the standard output and ends the process at the end of the stream, whatever the
main thread does, which copies the standard input to the socket.
-/
namespace LinuxSocket.Netcat
open Transfer

/-- The main thread of `run`: in `read`, in `boost::asio::write` with the data that is left, or in `join`. -/
inductive MainThread
  | reading
  | writing (data : Bytes)
  | joining
  deriving DecidableEq

/-- The thread `thr`: in `read_some`, in the loop of `write_n` behind `written` bytes of its block, behind `exit`, or
stopped by `assert(nw > 0)`. -/
inductive Thr
  | reading
  | printing (buf : Bytes) (written : ℤ)
  | exited
  | aborted
  deriving DecidableEq

/-- The two threads, with the standard input to come, the standard output and all that was written to the socket. -/
structure ThreadedRelay where
  main : MainThread
  thr : Thr
  stdin : Bytes
  stdout : Bytes
  written : Bytes

namespace ThreadedRelay

def start (stdin : Bytes) : ThreadedRelay := ⟨.reading, .reading, stdin, [], []⟩

/-- `::read` has returned the data; `shutdown` follows the last read. -/
def stdinRead (x : ThreadedRelay) (data : Bytes) : ThreadedRelay :=
  { x with main := if data ≠ [] then .writing data else .joining }

/-- `boost::asio::write` has written `k` bytes, and returns behind the last ones. -/
def sent (x : ThreadedRelay) (data : Bytes) (k : ℕ) : ThreadedRelay :=
  { x with
    main := if data.drop k = [] then .reading else .writing (data.drop k)
    written := x.written ++ data.take k }

def received (x : ThreadedRelay) (data : Bytes) : ThreadedRelay :=
  { x with thr := if data ≠ [] then .printing data 0 else .exited }

/-- A call of `write` in `write_n` has written `k` bytes. -/
def printed (x : ThreadedRelay) (buf : Bytes) (written : ℤ) (k : ℕ) : Option ThreadedRelay :=
  ((writer buf).step buf.length (.calling written x.stdout) (.count k)).map fun
    | .calling written stdout => { x with thr := .printing buf written, stdout }
    | .returned nw stdout => { x with thr := if 0 < nw then .reading else .aborted, stdout }
    | .faulted => { x with thr := .aborted }

inductive Choice
  | main (k : ℕ)
  | thr (k : ℕ)

open Sockets in
def call (x : ThreadedRelay) : Choice → Option (Call UInt8 ThreadedRelay)
  | .main k =>
    if x.thr = .exited ∨ x.thr = .aborted then none
    else
      match x.main with
      | .reading =>
        if StdinReturns x.stdin k then
          some (.wait false false ({ x with stdin := x.stdin.drop k }.stdinRead (x.stdin.take k)))
        else none
      | .writing data => some (.write data (x.sent data))
      | .joining => none
  | .thr k =>
    match x.thr with
    | .reading => some (.read 8192 x.received)
    | .printing buf written => if 0 < k then (x.printed buf written k).map (.wait false false ·) else none
    | .exited => none
    | .aborted => none

def endpoint : Sockets.Endpoint UInt8 Choice ThreadedRelay where
  call := call
  shut x := x.main = .joining || x.thr = .exited || x.thr = .aborted

def unsent (x : ThreadedRelay) : Bytes :=
  match x.main with
  | .reading => []
  | .writing data => data
  | .joining => []

def unprinted (x : ThreadedRelay) : Bytes :=
  match x.thr with
  | .reading => []
  | .printing buf written => buf.drop written.toNat
  | .exited => []
  | .aborted => []

def account (x : ThreadedRelay) : Sockets.Account UInt8 where
  written := x.written
  got := x.stdout ++ x.unprinted
  ended := decide (x.thr = .exited)
  polledIn := false
  polledOut := false
  work := 15 * x.stdin.length + 10 * x.unsent.length + (if x.main = .joining then 0 else 5) +
    (x.unprinted.length + if x.thr = .exited then 0 else 1)

structure Inv (inp : Bytes) (x : ThreadedRelay) : Prop where
  order : x.written ++ x.unsent ++ x.stdin = inp
  writing : ∀ data, x.main = .writing data → data ≠ []
  joining : x.main = .joining → x.stdin = []
  printing : ∀ buf written, x.thr = .printing buf written → ∃ i : ℕ, written = i ∧ i < buf.length ∧ buf.length ≤ 8192
  not_aborted : x.thr ≠ .aborted

theorem Inv.start (inp : Bytes) : Inv inp (start inp) where
  order := rfl
  writing _ h := by cases h
  joining h := by cases h
  printing _ _ h := by cases h
  not_aborted h := by cases h

section Contract
open Sockets

inductive Calls (x : ThreadedRelay) : Choice → Call UInt8 ThreadedRelay → Prop
  | stdin {k} : x.thr ≠ .exited → x.thr ≠ .aborted → x.main = .reading → StdinReturns x.stdin k →
      Calls x (.main k) (.wait false false ({ x with stdin := x.stdin.drop k }.stdinRead (x.stdin.take k)))
  | write {k data} : x.thr ≠ .exited → x.thr ≠ .aborted → x.main = .writing data →
      Calls x (.main k) (.write data (x.sent data))
  | recv {k} : x.thr = .reading → Calls x (.thr k) (.read 8192 x.received)
  | print {k buf written y} : x.thr = .printing buf written → 0 < k → x.printed buf written k = some y →
      Calls x (.thr k) (.wait false false y)

variable {inp buf data : Bytes} {x y : ThreadedRelay} {i k : ℕ} {j : Choice} {c : Call UInt8 ThreadedRelay}
  {written : ℤ}

theorem calls_of_call (h : x.call j = some c) : x.Calls j c := by
  cases j with
  | main k =>
    simp only [call] at h
    split at h
    · cases h
    · next hrunning =>
      obtain ⟨hexited, haborted⟩ := not_or.mp hrunning
      split at h
      · next hmain =>
        split at h
        · next hk =>
          obtain rfl := Option.some.inj h
          exact .stdin hexited haborted hmain hk
        · cases h
      · next data hmain =>
        obtain rfl := Option.some.inj h
        exact .write hexited haborted hmain
      · cases h
  | thr k =>
    simp only [call] at h
    split at h
    · next hthr =>
      obtain rfl := Option.some.inj h
      exact .recv hthr
    · next buf written hthr =>
      split at h
      · next hk =>
        obtain ⟨y, hy, rfl⟩ := Option.map_eq_some_iff.mp h
        exact .print hthr hk hy
      · cases h
    · cases h
    · cases h

theorem call_of_calls (h : x.Calls j c) : x.call j = some c := by
  cases h with
  | stdin hexited haborted hmain hk =>
    simp only [call, if_neg (not_or_intro hexited haborted), hmain]
    exact if_pos hk
  | write hexited haborted hmain => simp only [call, if_neg (not_or_intro hexited haborted), hmain]
  | recv hthr => simp only [call, hthr]
  | print hthr hk hy => simp only [call, hthr, if_pos hk, hy, Option.map_some]

/-- `write_n` prints a part of the block, and returns behind the last one. -/
theorem printed_eq (hi : i < buf.length) (hbuf : buf.length ≤ 8192) (hpos : 0 < k) (hk : k ≤ buf.length - i) :
    x.printed buf i k = some { x with
      thr := if i + k < buf.length then .printing buf (i + k : ℕ) else .reading
      stdout := x.stdout ++ (buf.drop i).take k } := by
  have hstep := step_count (D := writer buf) (s := x.stdout) (Nat.le_of_lt hi) (by omega) hk rfl
    (decide_eq_true (by omega))
  rw [printed, hstep, if_pos hpos, head, writer_move, Option.map_some]
  by_cases hlt : i + k < buf.length
  · rw [if_pos (Int.ofNat_lt.mpr hlt), if_pos hlt]
  · rw [if_neg (mt Int.ofNat_lt.mp hlt), if_neg hlt]
    dsimp only
    rw [if_pos (by omega)]

theorem le_of_printed (hi : i < buf.length) (hbuf : buf.length ≤ 8192) (h : x.printed buf i k = some y) :
    k ≤ buf.length - i := by
  by_contra hgt
  have hnone : (writer buf).step buf.length (.calling i x.stdout) (.count k) = none := by
    rw [Device.step, asked_eq (Nat.le_of_lt hi) (by omega)]
    exact if_neg fun hk => hgt hk.1
  rw [printed, hnone] at h
  cases h

theorem shut_of_running (hexited : x.thr ≠ .exited) (haborted : x.thr ≠ .aborted) :
    endpoint.shut x = decide (x.main = .joining) := by
  simp [endpoint, hexited, haborted]

/-- `read` returns data or comes to the end. -/
theorem Inv.stdin (h : Inv inp x) (hexited : x.thr ≠ .exited) (hmain : x.main = .reading)
    (hk : StdinReturns x.stdin k) (hy : y = { x with stdin := x.stdin.drop k }.stdinRead (x.stdin.take k)) :
    Inv inp y ∧ Advances endpoint account 5 x [] [] y ∧ y.thr = x.thr := by
  obtain ⟨-, hle, hend⟩ := hk
  have horder := h.order
  have hunsent : x.unsent = [] := by simp [unsent, hmain]
  have hshut : endpoint.shut x = true → endpoint.shut y = true := by
    rw [shut_of_running hexited h.not_aborted, hmain]
    intro hs
    cases hs
  rw [hunsent, List.append_nil] at horder
  by_cases hk : k = 0
  · have hstdin := hend hk
    subst hk
    rw [stdinRead, if_neg (by simp)] at hy
    subst hy
    refine ⟨⟨?_, ?_, fun _ => hstdin, h.printing, h.not_aborted⟩, ⟨?_, ?_, hshut, ?_⟩, rfl⟩
    · simpa [unsent] using horder
    · intro data hdata
      cases hdata
    · exact (List.append_nil _).symm
    · exact (List.append_nil _).symm
    · simp [account, unsent, unprinted, hmain]
  · have hlen : (x.stdin.take k).length = k := List.length_take_of_le hle
    have hne : x.stdin.take k ≠ [] := List.ne_nil_of_length_pos (by omega)
    rw [stdinRead, if_pos hne] at hy
    subst hy
    refine ⟨⟨?_, ?_, ?_, h.printing, h.not_aborted⟩, ⟨?_, ?_, hshut, ?_⟩, rfl⟩
    · simpa [unsent] using horder
    · intro data hdata
      obtain rfl := MainThread.writing.inj hdata
      exact hne
    · intro hjoin
      cases hjoin
    · exact (List.append_nil _).symm
    · exact (List.append_nil _).symm
    · simp [account, unsent, unprinted, hmain, hlen]
      omega

/-- `boost::asio::write` writes a part of the data. -/
theorem Inv.write (h : Inv inp x) (hexited : x.thr ≠ .exited) (hmain : x.main = .writing data) (hpos : 0 < k)
    (hk : k ≤ data.length) :
    Inv inp (x.sent data k) ∧ Advances endpoint account 5 x (data.take k) [] (x.sent data k) := by
  have horder := h.order
  have hunsent : x.unsent = data := by simp [unsent, hmain]
  have hrest : (x.sent data k).unsent = data.drop k := by
    rw [unsent, sent]
    dsimp only
    split
    · next hnil =>
      split at hnil
      · exact (by assumption : data.drop k = []).symm
      · cases hnil
    · next rest hrest =>
      split at hrest
      · cases hrest
      · exact (MainThread.writing.inj hrest).symm
    · next hjoin => split at hjoin <;> cases hjoin
  have hopen : (x.sent data k).main ≠ .joining := by
    rw [sent]
    dsimp only
    split <;> exact fun hjoin => by cases hjoin
  rw [hunsent] at horder
  refine ⟨⟨?_, ?_, fun hjoin => absurd hjoin hopen, h.printing, h.not_aborted⟩, ⟨rfl, ?_, ?_, ?_⟩⟩
  · rw [hrest, ← horder, sent, List.append_assoc x.written, List.take_append_drop]
  · intro rest hmain'
    rw [sent] at hmain'
    dsimp only at hmain'
    split at hmain'
    · cases hmain'
    · obtain rfl := MainThread.writing.inj hmain'
      assumption
  · exact (List.append_nil _).symm
  · rw [shut_of_running hexited h.not_aborted, hmain]
    intro hs
    cases hs
  · have hlen : (x.sent data k).unsent.length = data.length - k := by rw [hrest, List.length_drop]
    have hwork : (account (x.sent data k)).work = 15 * x.stdin.length + 10 * (x.sent data k).unsent.length + 5 +
        (x.unprinted.length + if x.thr = .exited then 0 else 1) := by
      rw [account, if_neg hopen]
      rfl
    have hmain' : x.main ≠ .joining := by simp [hmain]
    have hwork' : (account x).work = 15 * x.stdin.length + 10 * x.unsent.length + 5 +
        (x.unprinted.length + if x.thr = .exited then 0 else 1) := by
      rw [account, if_neg hmain']
    rw [hwork, hwork', hlen, hunsent, List.length_take_of_le hk]
    simp only [List.length_nil]
    omega

/-- `read_some` returns data or comes to the end. -/
theorem Inv.recv (h : Inv inp x) (hthr : x.thr = .reading) (hlen : data.length ≤ 8192) (hy : y = x.received data) :
    Inv inp y ∧ Advances endpoint account 5 x [] data y ∧ (y.thr = .exited → data = []) := by
  have hshut : endpoint.shut x = true → endpoint.shut y = true := by
    rw [shut_of_running (by simp [hthr]) h.not_aborted]
    intro hs
    have hmain : y.main = .joining := by
      rw [hy]
      exact of_decide_eq_true hs
    simp [endpoint, hmain]
  by_cases hdata : data = []
  · subst hdata
    rw [received, if_neg (not_not.mpr rfl)] at hy
    subst hy
    refine ⟨⟨h.order, h.writing, h.joining, ?_, ?_⟩, ⟨?_, ?_, hshut, ?_⟩, fun _ => rfl⟩
    · intro buf written hprint
      cases hprint
    · intro habort
      cases habort
    · exact (List.append_nil _).symm
    · simp [account, unprinted, hthr]
    · simp [account, unprinted, unsent, hthr]
  · have hpos := List.length_pos_of_ne_nil hdata
    rw [received, if_pos hdata] at hy
    subst hy
    refine ⟨⟨h.order, h.writing, h.joining, ?_, ?_⟩, ⟨?_, ?_, hshut, ?_⟩, ?_⟩
    · intro buf written hprint
      obtain ⟨rfl, rfl⟩ := Thr.printing.inj hprint
      exact ⟨0, rfl, hpos, hlen⟩
    · intro habort
      cases habort
    · exact (List.append_nil _).symm
    · simp [account, unprinted, hthr]
    · simp [account, unprinted, unsent, hthr]
      omega
    · intro hexit
      cases hexit

/-- What `thr` is left with after a part of the block. -/
theorem unprinted_printed (hi : i < buf.length) (hbuf : buf.length ≤ 8192) (hpos : 0 < k)
    (hy : x.printed buf i k = some y) : y.unprinted = buf.drop (i + k) ∧ y.thr ≠ .exited ∧ y.thr ≠ .aborted ∧
      ∀ buf' written, y.thr = .printing buf' written → buf' = buf ∧ written = (i + k : ℕ) ∧ i + k < buf.length := by
  have hk := le_of_printed hi hbuf hy
  obtain rfl := Option.some.inj ((printed_eq hi hbuf hpos hk).symm.trans hy)
  by_cases hlt : i + k < buf.length
  · rw [if_pos hlt]
    refine ⟨?_, nofun, nofun, ?_⟩
    · rw [unprinted]
      dsimp only
      rw [Int.toNat_natCast]
    · rintro _ _ ⟨⟩
      exact ⟨rfl, rfl, hlt⟩
  · rw [if_neg hlt]
    exact ⟨(List.drop_eq_nil_iff.mpr (by omega)).symm, nofun, nofun, nofun⟩

/-- `write_n` goes on. -/
theorem Inv.print (h : Inv inp x) (hthr : x.thr = .printing buf written) (hpos : 0 < k)
    (hy : x.printed buf written k = some y) :
    Inv inp y ∧ Advances endpoint account 5 x [] [] y ∧ y.thr ≠ .exited := by
  obtain ⟨i, rfl, hi, hbuf⟩ := h.printing buf written hthr
  have hk := le_of_printed hi hbuf hy
  obtain ⟨hrest, hexit, habort, hprinting⟩ := unprinted_printed hi hbuf hpos hy
  have hunprinted : x.unprinted = buf.drop i := by simp [unprinted, hthr]
  have hfields := Option.some.inj ((printed_eq hi hbuf hpos hk).symm.trans hy)
  have hmain : y.main = x.main := by rw [← hfields]
  have hstdin : y.stdin = x.stdin := by rw [← hfields]
  have hwritten : y.written = x.written := by rw [← hfields]
  have hstdout : y.stdout = x.stdout ++ (buf.drop i).take k := by rw [← hfields]
  have hunsent : y.unsent = x.unsent := by rw [unsent, unsent, hmain]
  refine ⟨⟨?_, ?_, ?_, ?_, habort⟩, ⟨?_, ?_, ?_, ?_⟩, hexit⟩
  · rw [hwritten, hunsent, hstdin]
    exact h.order
  · rw [hmain]
    exact h.writing
  · rw [hmain, hstdin]
    exact h.joining
  · intro buf' written' hprint
    obtain ⟨rfl, rfl, hlt⟩ := hprinting buf' written' hprint
    exact ⟨i + k, rfl, hlt, hbuf⟩
  · exact hwritten.trans (List.append_nil _).symm
  · simp only [account, hunprinted, hstdout, hrest]
    rw [List.append_nil, List.append_assoc, ← List.drop_drop, List.take_append_drop]
  · rw [shut_of_running (by simp [hthr]) h.not_aborted, shut_of_running hexit habort, hmain]
    exact id
  · simp only [account, hunprinted, hrest, hstdin, hunsent, hmain, if_neg hexit, List.length_drop]
    rw [if_neg (by simp [hthr] : x.thr ≠ .exited)]
    simp only [List.length_nil]
    omega

/-- Until it exits, `thr` is in a call that returns on its own or reads. -/
theorem Inv.thr_call (h : Inv inp x) (hexited : x.thr ≠ .exited) :
    ∃ j c, endpoint.call x j = some c ∧ (c.Prompt (account x) ∨ c.Receives) := by
  cases hthr : x.thr with
  | reading => exact ⟨.thr 0, _, call_of_calls (.recv hthr), .inr (by decide : 0 < 8192)⟩
  | printing buf written =>
    obtain ⟨i, rfl, hi, hbuf⟩ := h.printing buf written hthr
    have hprinted := printed_eq (x := x) hi hbuf Nat.one_pos (by omega)
    exact ⟨.thr 1, _, call_of_calls (.print hthr Nat.one_pos hprinted), .inl ⟨rfl, rfl⟩⟩
  | exited => exact absurd hthr hexited
  | aborted => exact absurd hthr h.not_aborted

theorem gone_of_exited (hexited : x.thr = .exited) : endpoint.Gone x := by
  intro j
  cases j with
  | main k => exact if_pos (.inl hexited)
  | thr k => simp only [endpoint, call, hexited]

theorem Inv.exited_of_gone (h : Inv inp x) (hgone : endpoint.Gone x) : x.thr = .exited := by
  by_contra hexited
  obtain ⟨j, c, hcall, -⟩ := h.thr_call hexited
  cases (hgone j).symm.trans hcall

theorem receptive (inp : Bytes) : Receptive endpoint (Inv inp) account := by
  intro x h
  by_cases hexited : x.thr = .exited
  · exact .inl (gone_of_exited hexited)
  · exact .inr (h.thr_call hexited)

theorem lively (inp : Bytes) : Lively endpoint (Inv inp) account False := by
  intro x h
  by_cases hexited : x.thr = .exited
  · exact .inl (gone_of_exited hexited)
  · right
    cases hmain : x.main with
    | reading =>
      obtain ⟨k, hk⟩ := exists_stdinReturns x.stdin
      exact ⟨.main k, _, call_of_calls (.stdin hexited h.not_aborted hmain hk), .inl ⟨rfl, rfl⟩⟩
    | writing data =>
      refine ⟨.main 0, _, call_of_calls (.write hexited h.not_aborted hmain), .inr (.inl ⟨h.writing data hmain, ?_⟩)⟩
      rw [shut_of_running hexited h.not_aborted, hmain]
      rfl
    | joining =>
      obtain ⟨j, c, hcall, hc⟩ := h.thr_call hexited
      refine ⟨j, c, hcall, hc.imp_right fun hreceives => .inr ⟨hreceives, .inl ?_⟩⟩
      rw [shut_of_running hexited h.not_aborted, hmain]
      rfl

theorem honours (inp : Bytes) : Honours endpoint (Inv inp) account 5 where
  wait {x j pollin pollout y} h hcall := by
    cases calls_of_call hcall with
    | stdin hexited _ hmain hk =>
      obtain ⟨hinv, hadv, hthr⟩ := h.stdin hexited hmain hk rfl
      refine ⟨hinv, hadv, ?_, .inl, .inl⟩
      simp only [account, hthr]
    | print hthr hpos hy =>
      obtain ⟨hinv, hadv, hexit⟩ := h.print hthr hpos hy
      refine ⟨hinv, hadv, ?_, .inl, .inl⟩
      simp only [account, hexit, hthr, reduceCtorEq]
  write {x j data next} h hcall := by
    cases calls_of_call hcall with
    | write hexited _ hmain =>
      refine ⟨?_, fun k hpos hk => ?_⟩
      · rw [shut_of_running hexited h.not_aborted, hmain]
        rfl
      · obtain ⟨hinv, hadv⟩ := h.write hexited hmain hpos hk
        exact ⟨hinv, hadv, rfl, id, rfl⟩
  tryWrite _ hcall := by cases calls_of_call hcall
  read {x j count next} h hcall data hlen := by
    cases calls_of_call hcall with
    | recv hthr =>
      obtain ⟨hinv, hadv, hended⟩ := h.recv hthr hlen rfl
      exact ⟨hinv, hadv, fun he => .inr (hended (of_decide_eq_true he)), rfl, id⟩
  gone {x} h hgone := by
    have hexited := h.exited_of_gone hgone
    exact ⟨decide_eq_true hexited, by simp [endpoint, hexited]⟩

end Contract

end ThreadedRelay

end LinuxSocket.Netcat
