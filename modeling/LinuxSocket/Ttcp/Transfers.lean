import LinuxSocket.Http.Servers
import LinuxSocket.Ttcp.StopAndWait

/-! # The bytes that `read_n` and `write_n` move

`http_blocking_cgi` has a `write_n` of its own.
-/
namespace LinuxSocket.Ttcp
open Transfer

section Simulation
variable {passed stream buf : Bytes} {k : ℕ}

/-- The blocking sides go through the loop of `write_n`. -/
theorem WriteN.step_write {w : WriteN} (hlen : w.length ≤ w.buf.length) (hint : w.length < 2 ^ 31) (hpos : 0 < k)
    (hk : k ≤ w.rest.length) : (writer w.buf).step w.length (.calling w.written passed) (.count k) =
      some (w.onWrite k (fun w' => .calling w'.written (passed ++ w.rest.take k))
        fun r => .returned r (passed ++ w.rest.take k)) := by
  obtain ⟨block, length, written⟩ := w
  rw [rest, List.length_drop, List.length_take] at hk
  dsimp only at hlen hint hk
  obtain ⟨n, rfl⟩ := Int.eq_ofNat_of_zero_le (by omega : 0 ≤ length)
  rw [Int.toNat_natCast] at hk
  have hmoved : (block.drop written).take k = ((block.take n).drop written).take k := by
    rw [List.drop_take, List.take_take, Nat.min_eq_left (by omega)]
  dsimp only
  rw [step_count (by omega) (by omega) (by omega) rfl (decide_eq_true (by omega)), if_pos hpos, writer_move, hmoved]
  rfl

/-- The blocking sides go through the loop of `read_n`. -/
theorem ReadN.step_read {r : ReadN} (hlen : r.length ≤ buf.length) (hint : r.length < 2 ^ 31)
    (hr : r.stored.length ≤ r.length) (hk : k ≤ r.want) (hready : k ≤ stream.length) :
    reader.step r.length (.calling r.stored.length (buf, stream)) (.count k) =
      some (r.onRead (stream.take k)
        (fun r' => .calling r'.stored.length (copyTo buf r.stored.length (stream.take k), stream.drop k))
        fun stored => .returned stored.length (copyTo buf r.stored.length (stream.take k), stream.drop k)) := by
  obtain ⟨length, stored⟩ := r
  unfold want at hk
  dsimp only at hlen hint hr hk
  obtain ⟨n, rfl⟩ := Int.eq_ofNat_of_zero_le (by omega : 0 ≤ length)
  have htake : (stream.take k).length = k := List.length_take_of_le hready
  dsimp only
  rw [step_count (by omega) (by omega) (by omega) (decide_eq_true hready) (decide_eq_true (by dsimp only; omega))]
  by_cases hpos : 0 < k
  · have hne : stream.take k ≠ [] := List.ne_nil_of_length_pos (by rwa [htake])
    rw [if_pos hpos, onRead, if_neg hne, loop, List.length_append, htake]
    rfl
  · obtain rfl := Nat.eq_zero_of_not_pos hpos
    simp [onRead, copyTo]

end Simulation

section Send
variable {message passed' : Bytes} {r : ℤ} {results : List CallResult}

/-- `http_blocking_cgi` sends a message as a whole when no call of `write` fails. -/
theorem writeN_send {conn : Http.Connection} (hconn : conn.status = .connected) (hint : message.length < 2 ^ 31)
    (hgood : ∀ result ∈ results, ¬result.Stops)
    (h : Http.HttpBlockingCgi.writeN conn.sent.flatten message message.length results = some (.returned r passed')) :
    r = message.length ∧ passed' = (conn.send message).sent.flatten := by
  obtain ⟨ht, hw⟩ := run_transferred (writer_keeps (Nat.le_refl _)) hint (wrote_zero _ message) h
  have hr : r = message.length := by
    by_contra hne
    obtain ⟨result, hmem, hstop⟩ := ht.stopped (lt_of_le_of_ne ht.le hne)
    exact hgood result hmem hstop
  refine ⟨hr, ?_⟩
  rw [hw, hr, Int.toNat_natCast, List.take_length, Http.Connection.send, if_pos hconn, List.flatten_append,
    List.flatten_singleton]

end Send

/-- No call of `write` gets memory outside of the buffer, and when `write_n` returns, the first `r` bytes of it have
been passed on. It does return on every sequence of results on which the loop ends. -/
structure WritesExactly (writeN : Bytes → Bytes → ℤ → List CallResult → Option (State Bytes)) (buf : Bytes)
    (length : ℤ) : Prop where
  not_faulted : ∀ passed results, writeN passed buf length results ≠ some .faulted
  transferred : ∀ passed results r passed', writeN passed buf length results = some (.returned r passed') →
    Transferred length r results ∧ passed' = passed ++ buf.take r.toNat
  follows : ∀ passed results r, Transfer.Ends length.toNat 0 results r →
    writeN passed buf length results = some (.returned r (passed ++ buf.take r))
  /-- as many calls that have not been interrupted end the loop -/
  ends : ∀ passed results x, writeN passed buf length results = some x → length ≤ results.countP (!·.interrupted) →
    ∃ r passed', x = .returned r passed'

/-- No call of `read` gets memory outside of the buffer, and when `read_n` returns, the first `r` bytes of the stream
are at the start of it. It does return on every sequence of results on which the loop ends and that the stream has
the bytes for. -/
structure ReadsExactly (readN : Bytes → Bytes → ℤ → List CallResult → Option (State (Bytes × Bytes))) (buf : Bytes)
    (length : ℤ) : Prop where
  not_faulted : ∀ stream results, readN stream buf length results ≠ some .faulted
  transferred : ∀ stream results r buf' stream', readN stream buf length results = some (.returned r (buf', stream')) →
    Transferred length r results ∧ r ≤ stream.length ∧ buf' = stream.take r.toNat ++ buf.drop r.toNat ∧
      stream' = stream.drop r.toNat
  follows : ∀ stream results r, Transfer.Ends length.toNat 0 results r → r ≤ stream.length →
    readN stream buf length results = some (.returned r (stream.take r ++ buf.drop r, stream.drop r))
  ends : ∀ stream results x, readN stream buf length results = some x → length ≤ results.countP (!·.interrupted) →
    ∃ r s, x = .returned r s

section Exactly
variable {buf : Bytes} {length : ℤ}

theorem writer_exactly {n : ℕ} (hlen : n < 2 ^ 31) (hbuf : n ≤ buf.length) :
    WritesExactly (fun passed buf length => (writer buf).run length passed) buf n where
  not_faulted passed _ := run_not_faulted (writer_keeps hbuf) hlen (wrote_zero passed buf)
  transferred passed _ _ _ h := run_transferred (writer_keeps hbuf) hlen (wrote_zero passed buf) h
  follows passed _ _ he := by
    obtain ⟨passed', hrun, rfl⟩ := run_of_ends (writer_keeps hbuf) hlen he (fun _ _ => rfl) (wrote_zero passed buf)
    exact hrun
  ends passed _ _ h hcalls :=
    run_returned (writer_keeps hbuf) hlen (wrote_zero passed buf) h (Int.ofNat_le.mp hcalls)

theorem reader_exactly {n : ℕ} (hlen : n < 2 ^ 31) (hbuf : n ≤ buf.length) : ReadsExactly readN buf n where
  not_faulted stream _ := run_not_faulted (reader_keeps hbuf) hlen (stored_zero stream buf)
  transferred stream _ r _ _ h := by
    obtain ⟨ht, hs⟩ := run_transferred (reader_keeps hbuf) hlen (stored_zero stream buf) h
    have hle : r.toNat ≤ stream.length := hs.le
    exact ⟨ht, by omega, hs.buf_eq, hs.rest_eq⟩
  follows stream _ r he hle := by
    have hready {j n : ℕ} {t : Bytes × Bytes} (hs : Stored stream buf j t) (hn : j + n ≤ r) :
        reader.ready t n = true := by
      apply decide_eq_true
      rw [hs.rest_eq, List.length_drop]
      omega
    obtain ⟨⟨buf', stream'⟩, hrun, hs⟩ := run_of_ends (reader_keeps hbuf) hlen he hready (stored_zero stream buf)
    obtain rfl : buf' = _ := hs.buf_eq
    obtain rfl : stream' = _ := hs.rest_eq
    exact hrun
  ends stream _ _ h hcalls :=
    run_returned (reader_keeps hbuf) hlen (stored_zero stream buf) h (Int.ofNat_le.mp hcalls)

/-- `write_n` and `read_n` move exactly what they return, in whatever pieces and with whatever interrupts. -/
theorem transfers_exactly (hnonneg : 0 ≤ length) (hint : IsInt32 length) (hbuf : length ≤ buf.length) :
    WritesExactly writeN buf length ∧ WritesExactly Http.HttpBlockingCgi.writeN buf length ∧
      ReadsExactly readN buf length := by
  obtain ⟨n, rfl⟩ := Int.eq_ofNat_of_zero_le hnonneg
  have hlen : n < 2 ^ 31 := by exact_mod_cast hint.2
  have hle : n ≤ buf.length := Int.ofNat_le.mp hbuf
  exact ⟨writer_exactly hlen hle, writer_exactly hlen hle, reader_exactly hlen hle⟩

end Exactly

/-- The second call is interrupted and the fourth comes to the end of the stream. -/
theorem transfers_exactly_cut : Transferred 3 2 [.count 1, .error eintr, .count 1, .count 0] ∧
    writeN [7] [1, 2, 3, 4] 3 [.count 1, .error eintr, .count 1, .count 0] = some (.returned 2 [7, 1, 2]) ∧
    readN [8, 9] [1, 2, 3, 4] 3 [.count 1, .error eintr, .count 1, .count 0] =
      some (.returned 2 ([8, 9, 3, 4], [])) := by
  obtain ⟨hwrite, -, hread⟩ := @transfers_exactly [1, 2, 3, 4] 3 (by decide) ⟨by decide, by decide⟩ (by decide)
  have hends : Transfer.Ends 3 0 [.count 1, .error eintr, .count 1, .count 0] 2 :=
    .moved (by decide) (by decide) (by decide) (.interrupted (by decide)
      (.moved (by decide) (by decide) (by decide) (.endOfFile (by decide))))
  have hwritten := hwrite.follows [7] _ _ hends
  exact ⟨(hwrite.transferred _ _ _ _ hwritten).1, hwritten, hread.follows [8, 9] _ _ hends (by decide)⟩

end LinuxSocket.Ttcp
