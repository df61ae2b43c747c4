import LinuxSocket.Netcat.Polling
import LinuxSocket.Netcat.Threads

/-! # Any two of the netcats

The three programs copy their standard input to the socket and the socket to the standard output, the two scripts in
literals. Two of them are joined by a connection that holds up to `m` bytes on the way to the right and `n` on the way
to the left.
-/
namespace LinuxSocket.Netcat
open Sockets Duplex

inductive Program
  | netcatPy
  | netcatNonblockPy
  | netcatCpp
  deriving DecidableEq

namespace Program

def State : Program → Type
  | netcatPy => BlockingRelay
  | netcatNonblockPy => PollingRelay
  | netcatCpp => ThreadedRelay

def Choice : Program → Type
  | netcatPy => BlockingRelay.Choice
  | netcatNonblockPy => PollingRelay.Choice
  | netcatCpp => ThreadedRelay.Choice

def endpoint : (p : Program) → Endpoint UInt8 p.Choice p.State
  | netcatPy => BlockingRelay.endpoint
  | netcatNonblockPy => PollingRelay.endpoint
  | netcatCpp => ThreadedRelay.endpoint

def start (stdin : Bytes) (pipe : Bool) : (p : Program) → p.State
  | netcatPy => BlockingRelay.start stdin pipe
  | netcatNonblockPy => PollingRelay.start stdin pipe
  | netcatCpp => ThreadedRelay.start stdin

def stdout : (p : Program) → p.State → Bytes
  | netcatPy => BlockingRelay.stdout
  | netcatNonblockPy => PollingRelay.stdout
  | netcatCpp => ThreadedRelay.stdout

def output : (p : Program) → p.State → Bytes
  | netcatPy => fun x : BlockingRelay => x.blocks.flatten
  | netcatNonblockPy => fun x : PollingRelay => x.blocks.flatten
  | netcatCpp => ThreadedRelay.stdout

/-- The text is what the program prints for the data: the scripts print the literals of its blocks. -/
def Prints : Program → Bytes → Bytes → Prop
  | netcatPy => fun text data => ∃ blocks, blocks.flatten = data ∧ text = printed blocks
  | netcatNonblockPy => fun text data => ∃ blocks, blocks.flatten = data ∧ text = printed blocks
  | netcatCpp => fun text data => text = data

/-- A script with a pipe for its standard input does not shut down its side before it ends. -/
def LeavesOpen (pipe : Bool) : Program → Prop
  | netcatPy => pipe = true
  | netcatNonblockPy => pipe = true
  | netcatCpp => False

def Inv (stdin : Bytes) (pipe : Bool) : (p : Program) → p.State → Prop
  | netcatPy => BlockingRelay.Inv stdin pipe
  | netcatNonblockPy => PollingRelay.Inv stdin pipe
  | netcatCpp => ThreadedRelay.Inv stdin

def account : (p : Program) → p.State → Account UInt8
  | netcatPy => BlockingRelay.account
  | netcatNonblockPy => PollingRelay.account
  | netcatCpp => ThreadedRelay.account

end Program

section Relays
variable (stdin : Bytes) (pipe : Bool)

theorem BlockingRelay.relays : Relays BlockingRelay.endpoint (BlockingRelay.Inv stdin pipe) BlockingRelay.account 5 (pipe = true) stdin
    (BlockingRelay.start stdin pipe) fun x => x.blocks.flatten where
  honours := BlockingRelay.honours stdin pipe
  lively := BlockingRelay.lively stdin pipe
  start := BlockingRelay.Inv.start stdin pipe
  written_start := rfl
  got_start := rfl
  not_ended := rfl
  not_polled := ⟨rfl, rfl⟩
  not_gone hgone := by cases (BlockingRelay.Inv.start stdin pipe).returned_of_gone hgone
  written {x} h := by
    have horder := h.order
    rw [List.append_assoc] at horder
    exact ⟨_, horder⟩
  complete {x} h hshut hthere := by
    have hr : x.returned = false := Bool.eq_false_iff.mpr fun hr => hthere (BlockingRelay.gone_of_returned hr)
    have hs : x.shutWr = true := by simpa [BlockingRelay.endpoint, hr] using hshut
    have horder := h.order
    rwa [(h.drained hs).1, (h.drained hs).2, List.append_nil, List.append_nil] at horder
  output_le _ := List.prefix_rfl
  output_gone _ _ := rfl

theorem PollingRelay.relays : Relays PollingRelay.endpoint (PollingRelay.Inv stdin pipe) PollingRelay.account 5 (pipe = true) stdin
    (PollingRelay.start stdin pipe) fun x => x.blocks.flatten where
  honours := PollingRelay.honours stdin pipe
  lively := PollingRelay.lively stdin pipe
  start := PollingRelay.Inv.start stdin pipe
  written_start := rfl
  got_start := rfl
  not_ended := rfl
  not_polled := ⟨rfl, rfl⟩
  not_gone hgone := by cases (PollingRelay.Inv.start stdin pipe).returned_of_gone hgone
  written {x} h := by
    have horder := h.order
    rw [← h.sound.order, List.append_assoc] at horder
    exact ⟨_, horder⟩
  complete {x} h hshut hthere := by
    have hr : x.returned = false := Bool.eq_false_iff.mpr fun hr => hthere (PollingRelay.gone_of_returned hr)
    have hs := h.shut_of_returned hshut hr
    have horder := h.order
    rw [h.drained hs, List.append_nil] at horder
    exact (h.sound.written_of_shutWr hs).trans horder
  output_le _ := List.prefix_rfl
  output_gone _ _ := rfl

theorem ThreadedRelay.relays : Relays ThreadedRelay.endpoint (ThreadedRelay.Inv stdin) ThreadedRelay.account 5 False
    stdin (ThreadedRelay.start stdin) ThreadedRelay.stdout where
  honours := ThreadedRelay.honours stdin
  lively := ThreadedRelay.lively stdin
  start := ThreadedRelay.Inv.start stdin
  written_start := rfl
  got_start := rfl
  not_ended := rfl
  not_polled := ⟨rfl, rfl⟩
  not_gone hgone := by cases (ThreadedRelay.Inv.start stdin).exited_of_gone hgone
  written {x} h := by
    have horder := h.order
    rw [List.append_assoc] at horder
    exact ⟨_, horder⟩
  complete {x} h hshut hthere := by
    have hexited : x.thr ≠ .exited := fun hexited => hthere (ThreadedRelay.gone_of_exited hexited)
    rw [ThreadedRelay.shut_of_running hexited h.not_aborted] at hshut
    have hjoin := of_decide_eq_true hshut
    have hunsent : x.unsent = [] := by simp [ThreadedRelay.unsent, hjoin]
    have horder := h.order
    rwa [h.joining hjoin, hunsent, List.append_nil, List.append_nil] at horder
  output_le _ := List.prefix_append _ _
  output_gone {x} h hgone := by
    have hexited := h.exited_of_gone hgone
    simp [ThreadedRelay.account, ThreadedRelay.unprinted, hexited]

/-- Each of the programs keeps the contract. -/
theorem Program.relays (p : Program) : Relays p.endpoint (p.Inv stdin pipe) p.account 5 (p.LeavesOpen pipe) stdin
    (p.start stdin pipe) p.output := by
  cases p with
  | netcatPy => exact BlockingRelay.relays stdin pipe
  | netcatNonblockPy => exact PollingRelay.relays stdin pipe
  | netcatCpp => exact ThreadedRelay.relays stdin

theorem Program.receptive {p : Program} (hp : p ≠ netcatPy) : Receptive p.endpoint (p.Inv stdin pipe) p.account := by
  cases p with
  | netcatPy => exact absurd rfl hp
  | netcatNonblockPy => exact PollingRelay.receptive stdin pipe
  | netcatCpp => exact ThreadedRelay.receptive stdin

theorem Program.work_start (p : Program) : (p.account (p.start stdin pipe)).work ≤ 15 * stdin.length + 10 := by
  cases p with
  | netcatPy => exact Nat.le_refl _
  | netcatNonblockPy => exact Nat.le_refl _
  | netcatCpp =>
    change 15 * stdin.length + 10 * 0 + 5 + (0 + 1) ≤ _
    omega

variable {stdin pipe}

theorem Program.prints {p : Program} {x : p.State} (h : p.Inv stdin pipe x) : p.Prints (p.stdout x) (p.output x) := by
  cases p with
  | netcatPy => exact ⟨_, rfl, BlockingRelay.Inv.prints h⟩
  | netcatNonblockPy => exact ⟨_, rfl, PollingRelay.Inv.prints h⟩
  | netcatCpp => exact rfl

/-- The data can be read from the text. -/
theorem Program.Prints.unique {p : Program} {text data data' : Bytes} (h : p.Prints text data)
    (h' : p.Prints text data') : data = data' := by
  cases p with
  | netcatPy =>
    obtain ⟨blocks, rfl, rfl⟩ := h
    obtain ⟨blocks', rfl, heq⟩ := h'
    rw [printed_injective heq]
  | netcatNonblockPy =>
    obtain ⟨blocks, rfl, rfl⟩ := h
    obtain ⟨blocks', rfl, heq⟩ := h'
    rw [printed_injective heq]
  | netcatCpp => exact Eq.trans (Eq.symm h) h'

theorem Program.staysOpen {p : Program} (hp : p.LeavesOpen pipe) : StaysOpen p.endpoint (p.Inv stdin pipe) p.account := by
  intro x h hshut
  cases p with
  | netcatPy =>
    have hopen := (BlockingRelay.Inv.unnoticed h hp).1
    simp only [endpoint, BlockingRelay.endpoint, hopen, BlockingRelay.returned, Bool.false_or, Bool.and_eq_true] at hshut
    exact hshut.1.1
  | netcatNonblockPy =>
    have hopen := (PollingRelay.Inv.unnoticed h hp).1
    have hok := PollingRelay.Inv.no_failure h
    simp only [endpoint, PollingRelay.endpoint, hopen, hok, PollingRelay.returned, Bool.false_or, Option.isSome_none,
      Bool.or_false, Bool.and_eq_true] at hshut
    exact hshut.1
  | netcatCpp => exact hp.elim

end Relays

section Exchange
variable {p q : Program} {m n : ℕ} {inp inp' : Bytes} {pipe pipe' : Bool} {s : Link UInt8 p.State q.State m n}
  {schedule : List ((p.Choice ⊕ q.Choice) × ℕ)}

/-- There is a bound on the number of calls that come to something. -/
theorem effective_le_of_run
    (h : run p.endpoint q.endpoint (Link.start (p.start inp pipe) (q.start inp' pipe')) schedule = some s) :
    effective p.endpoint q.endpoint (Link.start (p.start inp pipe) (q.start inp' pipe') :
      Link UInt8 p.State q.State m n) schedule ≤ 15 * (inp.length + inp'.length) + 20 := by
  have hp := p.relays inp pipe
  have hq := q.relays inp' pipe'
  have hlen := (hp.joined hq).run_effective hp.honours hq.honours h
  have hwork : work p.account q.account 5
      (Link.start (p.start inp pipe) (q.start inp' pipe') : Link UInt8 p.State q.State m n) =
      (p.account (p.start inp pipe)).work + (q.account (q.start inp' pipe')).work + 5 * 0 + 5 * 0 := rfl
  have hp' := p.work_start inp pipe
  have hq' := q.work_start inp' pipe'
  omega

/-- The netcat with two threads sends one byte, and exits at the end of the other side. The last one is not sent. -/
def cut : List ((BlockingRelay.Choice ⊕ ThreadedRelay.Choice) × ℕ) :=
  [(.inr (.main 1), 0), (.inr (.main 0), 1), (.inl (.poll []), 0), (.inl (.poll [(.stdin, true)]), 0),
    (.inl (.stdin 1), 0), (.inl .socket, 1), (.inl (.poll [(.sock, true)]), 0), (.inl .socket, 1),
    (.inr (.thr 0), 1), (.inr (.thr 1), 0), (.inl (.poll [(.stdin, true)]), 0), (.inl (.stdin 0), 0),
    (.inr (.thr 0), 0), (.inl (.poll [(.sock, true)]), 0), (.inl .socket, 0)]

end Exchange

end LinuxSocket.Netcat
