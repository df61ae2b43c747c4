import LinuxSocket.Memcached.Iterations

/-! # Pipelined requests are framed by their lengths

A list of well-formed requests is delivered in one call. Every `set` is read from
its command line and its data block, whatever bytes the block holds, and leaves
the session where the next request starts.
-/
namespace LinuxSocket.Memcached

inductive Request
  | set (key : Bytes) (flag exptime : ℕ) (data : Bytes)
  | get (key : Bytes)

def setLine (key : Bytes) (flag exptime len : ℕ) : Bytes :=
  ascii "set" ++ SP :: (key ++ SP :: (decimal flag ++ SP :: (decimal exptime ++ SP :: decimal len)))

def getLine (key : Bytes) : Bytes := ascii "get" ++ SP :: key

def Request.encode : Request → Bytes
  | .set key flag exptime data => setLine key flag exptime data.length ++ CRLF ++ data ++ CRLF
  | .get key => getLine key ++ CRLF

structure IsKey (key : Bytes) : Prop where
  pos : 1 ≤ key.length
  le : key.length ≤ 250
  space : SP ∉ key
  cr : CR ∉ key
  lf : LF ∉ key

/-- Requests whose `get`s ask for keys among `known` or set earlier in the list. -/
def WellFormed (known : List Bytes) : List Request → Prop
  | [] => True
  | .set key flag exptime data :: reqs =>
    (IsKey key ∧ flag < 2 ^ 31 ∧ exptime < 2 ^ 31 ∧ data.length < 1048576) ∧ WellFormed (key :: known) reqs
  | .get key :: reqs => key ∈ known ∧ WellFormed known reqs

/-- `VALUE key flag len`, the value and `END`, each on a line. -/
def valueText (key : Bytes) (item : Item) : Bytes :=
  ascii "VALUE " ++ key ++ ascii " " ++ decimalInt item.flag ++ ascii " " ++
    decimal item.value.length ++ CRLF ++ item.value ++ CRLF ++ ascii "END" ++ CRLF

/-- The calls the requests ask for: one store and `STORED` for a `set`, the text of the item the
store returned for a `get`. -/
inductive Answers : List Request → List Call → Prop
  | nil : Answers [] []
  | set {key flag exptime data reqs calls} : Answers reqs calls →
      Answers (.set key flag exptime data :: reqs)
        (.storeItem ⟨key, flag, exptime, data⟩ :: .send (ascii "STORED" ++ CRLF) :: calls)
  | get {key item reqs calls} : item.key = key → Answers reqs calls →
      Answers (.get key :: reqs) (.getItem key (some item) :: .send (valueText key item) :: calls)

theorem IsKey.isWord {key : Bytes} (h : IsKey key) : IsWord key := ⟨List.ne_nil_of_length_pos h.pos, h.space⟩

theorem isWord_decimal (n : ℕ) : IsWord (decimal n) :=
  ⟨decimal_ne_nil n, fun h => absurd (isdigit_of_mem_decimal h) (by decide)⟩

theorem cr_not_mem_decimal (n : ℕ) : CR ∉ decimal n := fun h => absurd (isdigit_of_mem_decimal h) (by decide)

theorem decimalInt_natCast (n : ℕ) : decimalInt n = decimal n := by
  simp [decimalInt, Int.not_lt.mpr (Int.natCast_nonneg n)]

theorem sp_not_mem_decimalInt (n : ℤ) : SP ∉ decimalInt n := by
  have hdigits := (isWord_decimal n.natAbs).2
  unfold decimalInt
  split
  · exact List.not_mem_cons_of_ne_of_not_mem (by decide) hdigits
  · exact hdigits

/-- A reply says what its key, flag and value are, when the length of the key is known. -/
theorem valueText_inj {key key' : Bytes} {item item' : Item} (hlen : key.length = key'.length)
    (h : valueText key item = valueText key' item') :
    key = key' ∧ item.flag = item'.flag ∧ item.value = item'.value := by
  have hsp : ascii " " = [SP] := rfl
  simp only [valueText, List.append_assoc, List.append_cancel_left_eq, hsp, List.singleton_append] at h
  obtain ⟨hkey, h⟩ := List.append_inj h hlen
  obtain ⟨hflag, h⟩ := append_separator_inj (sp_not_mem_decimalInt _) (sp_not_mem_decimalInt _) (List.cons.inj h).2
  simp only [CRLF, List.cons_append, List.nil_append] at h
  obtain ⟨hvalue, h⟩ := append_separator_inj (cr_not_mem_decimal _) (cr_not_mem_decimal _) h
  refine ⟨hkey, decimalInt_injective hflag, ?_⟩
  exact (List.append_inj (List.cons.inj h).2 (decimal_injective hvalue)).1

theorem StringPiece.asString_append (w rest : Bytes) : (StringPiece.mk (w ++ rest) w.length).asString = w :=
  List.take_left ..

theorem setLine_tokens {key : Bytes} (hk : IsKey key) (flag exptime len : ℕ) : ∃ w₁ w₂ w₃,
    tokens (setLine key flag exptime len) =
      [⟨ascii "set" ++ w₁, (ascii "set").length⟩, ⟨key ++ w₂, key.length⟩,
        ⟨decimal flag ++ SP :: w₃, (decimal flag).length⟩,
        ⟨decimal exptime ++ SP :: decimal len, (decimal exptime).length⟩,
        ⟨decimal len, (decimal len).length⟩] := by
  have hset : IsWord (ascii "set") := ⟨by decide, by decide⟩
  rw [setLine, tokens_word hset, tokens_word hk.isWord, tokens_word (isWord_decimal flag),
    tokens_word (isWord_decimal exptime), tokens_last (isWord_decimal len)]
  exact ⟨_, _, _, rfl⟩

theorem getLine_tokens {key : Bytes} (hk : IsKey key) : ∃ w,
    tokens (getLine key) = [⟨ascii "get" ++ w, (ascii "get").length⟩, ⟨key, key.length⟩] := by
  have hget : IsWord (ascii "get") := ⟨by decide, by decide⟩
  rw [getLine, tokens_word hget, tokens_last hk.isWord]
  exact ⟨_, rfl⟩

theorem readNumbers_decimal {flag exptime len : ℕ} (hf : flag < 2 ^ 31) (he : exptime < 2 ^ 31)
    (hl : len < 2 ^ 31) (w : Bytes) (s : Session) :
    readNumbers [⟨decimal flag ++ SP :: w, (decimal flag).length⟩,
        ⟨decimal exptime ++ SP :: decimal len, (decimal exptime).length⟩,
        ⟨decimal len, (decimal len).length⟩] s =
      (true, { s with curFlag := flag, curExptime := exptime, curValueLen := len }) := by
  have h1 := readInt_decimal hf (SP :: w) (Or.inr rfl)
  have h2 := readInt_decimal he (SP :: decimal len) (Or.inr rfl)
  have h3 := readInt_decimal hl [] (Or.inl rfl)
  simp only [List.append_nil] at h3
  simp only [readNumbers, h1, h2, h3]

theorem noCrlf_setLine {key : Bytes} (hk : IsKey key) (flag exptime len : ℕ) :
    NoCrlf (setLine key flag exptime len) := by
  apply NoCrlf.of_not_mem
  have hset : CR ∉ ascii "set" := by decide
  have hsp : CR ≠ SP := by decide
  simp [setLine, hset, hsp, hk.cr, cr_not_mem_decimal]

theorem length_setLine {key : Bytes} {flag exptime len : ℕ} (hk : IsKey key) (hf : flag < 2 ^ 31)
    (he : exptime < 2 ^ 31) (hl : len < 2 ^ 31) : (setLine key flag exptime len).length < 2 ^ 31 := by
  have h1 := length_decimal_le (k := 10) (by omega : flag < 10 ^ 10) (by omega)
  have h2 := length_decimal_le (k := 10) (by omega : exptime < 10 ^ 10) (by omega)
  have h3 := length_decimal_le (k := 10) (by omega : len < 10 ^ 10) (by omega)
  have h4 : (ascii "set").length = 3 := rfl
  have := hk.le
  simp only [setLine, List.length_append, List.length_cons]
  omega

theorem noCrlf_getLine {key : Bytes} (hk : IsKey key) : NoCrlf (getLine key) := by
  apply NoCrlf.of_not_mem
  have hget : CR ∉ ascii "get" := by decide
  have hsp : CR ≠ SP := by decide
  simp [getLine, hget, hsp, hk.cr]

theorem length_getLine {key : Bytes} (hk : IsKey key) : (getLine key).length < 2 ^ 31 := by
  have h : (ascii "get").length = 3 := rfl
  have := hk.le
  simp only [getLine, List.length_append, List.length_cons]
  omega

def World.readSet (w : World) (key : Bytes) (flag exptime len : ℕ) : World :=
  { w with session := { w.session with
    curCommandType := .kSet, curKey := key, curFlag := flag, curExptime := exptime, curValueLen := len } }

section Commands
variable [Muduo] [Freed] {hashRange : Bytes → ℕ}

omit [Freed] in
theorem valueReply_eq (key : Bytes) (item : Item) : valueReply key item = valueText key item := by
  have hcrlf : ascii "\r\n" = CRLF := rfl
  have hend : ascii "END\r\n" = ascii "END" ++ CRLF := rfl
  simp only [valueReply, valueText, Muduo.formatInteger_eq, Item.valueLen, decimalInt_natCast, hcrlf, hend,
    List.append_assoc]

omit [Muduo] [Freed] in
theorem readSet_eq (w : World) (key : Bytes) (flag exptime len : ℕ) :
    (w.readSet key flag exptime len).commandDone true =
      { w with session := ⟨.kReadValue, none, .kSet, key, flag, exptime, len⟩ } := rfl

variable (hashRange) in
theorem doRequestCommand_set {key : Bytes} {flag exptime len : ℕ} (hk : IsKey key) (hf : flag < 2 ^ 31)
    (he : exptime < 2 ^ 31) (hl : len < 1048576) (w : World) :
    doRequestCommand hashRange (setLine key flag exptime len) w =
      .ok (true, w.readSet key flag exptime len) := by
  obtain ⟨w₁, w₂, w₃, ht⟩ := setLine_tokens hk flag exptime len
  have hc : commandType (ascii "set") = some .kSet := by decide
  have hlong : key.length ≤ kLongestKeySize := hk.le
  have hsmall : ¬(1048576 : ℤ) ≤ len := by omega
  simp only [doRequestCommand, ht, StringPiece.asString_append, hc, doUpdate, hlong, decide_true, if_true,
    readNumbers_decimal hf he (by omega : len < 2 ^ 31)]
  simp [hsmall, World.setCommandType, World.readSet]

variable (hashRange) in
/-- The refused length: the fields are set, the session waits for the next command. -/
theorem doRequestCommand_set_large {key : Bytes} {flag exptime len : ℕ} (hk : IsKey key) (hf : flag < 2 ^ 31)
    (he : exptime < 2 ^ 31) (hl : len < 2 ^ 31) (hlarge : 1048576 ≤ len) (w : World) :
    doRequestCommand hashRange (setLine key flag exptime len) w = .ok (false,
      (w.readSet key flag exptime len).send (ascii "SERVER_ERROR object too large for cache\r\n")) := by
  obtain ⟨w₁, w₂, w₃, ht⟩ := setLine_tokens hk flag exptime len
  have hc : commandType (ascii "set") = some .kSet := by decide
  have hlong : key.length ≤ kLongestKeySize := hk.le
  have hbig : (1048576 : ℤ) ≤ len := by omega
  simp only [doRequestCommand, ht, StringPiece.asString_append, hc, doUpdate, hlong, decide_true, if_true,
    readNumbers_decimal hf he hl]
  simp [hbig, World.setCommandType, World.readSet]

/-- A `get` with a key: the item found under what is behind the key is sent, its null pointer is dereferenced. -/
theorem doRequestCommand_get {request : Bytes} {get key : StringPiece} {words : List StringPiece}
    (ht : tokens request = get :: key :: words) (hg : get.asString = ascii "get") (w : World) :
    doRequestCommand hashRange request w =
      match w.server.getCopied hashRange (w.behind key.asString .hashRange) (w.behind key.asString .memcpy) with
      | none => .error (w.calls ++ [.getItem (w.behind key.asString .memcpy) none])
      | some item => .ok (true,
          ((w.setCommandType .kGet).call (.getItem (w.behind key.asString .memcpy) (some item))).send
            (valueText (w.behind key.asString .append) item)) := by
  have hc : commandType get.asString = some .kGet := by rw [hg]; rfl
  simp only [doRequestCommand, ht, hc]
  cases hi : w.server.getCopied hashRange (w.behind key.asString .hashRange) (w.behind key.asString .memcpy) with
  | none =>
    rw [doGet_null words (w := w.setCommandType .kGet) hi]
    rfl
  | some item =>
    rw [doGet_found words (w := w.setCommandType .kGet) hi, valueReply_eq]
    rfl

variable (hashRange) in
theorem doRequestCommand_getLine {key : Bytes} (hk : IsKey key) (w : World) :
    doRequestCommand hashRange (getLine key) w =
      match w.server.getCopied hashRange (w.behind key .hashRange) (w.behind key .memcpy) with
      | none => .error (w.calls ++ [.getItem (w.behind key .memcpy) none])
      | some item => .ok (true, ((w.setCommandType .kGet).call (.getItem (w.behind key .memcpy) (some item))).send
          (valueText (w.behind key .append) item)) := by
  obtain ⟨w₁, ht⟩ := getLine_tokens hk
  have hkey : (StringPiece.mk key key.length).asString = key := List.take_length
  rw [doRequestCommand_get ht (StringPiece.asString_append ..), hkey]

variable (hashRange) in
/-- A session that has made `n` calls finds the key behind its pointer when it copies the key and when it
sends it, and what it hashes has the hash of the key. -/
structure KeyKept (n : ℕ) (key : Bytes) : Prop where
  hash : hashRange (Freed.read .hashRange n key) = hashRange key
  copy : Freed.read .memcpy n key = key
  reply : Freed.read .append n key = key

omit [Muduo] in
theorem KeyKept.getCopied {w : World} {key : Bytes} (h : KeyKept hashRange w.calls.length key) :
    w.server.getCopied hashRange (w.behind key .hashRange) (w.behind key .memcpy) =
      w.server.getItem hashRange (Item.makeKeyItem key) := by
  have hhash : hashRange (w.behind key .hashRange) = hashRange key := h.hash
  have hcopy : w.behind key .memcpy = key := h.copy
  rw [MemcachedServer.getCopied, hcopy, if_pos hhash]

omit [Muduo] in
theorem keyKept_of_found {w : World} {key : Bytes} {item item' : Item}
    (hi : w.server.getCopied hashRange (w.behind key .hashRange) (w.behind key .memcpy) = some item)
    (hcopy : w.behind key .memcpy = key) (hreply : valueText (w.behind key .append) item = valueText key item') :
    KeyKept hashRange w.calls.length key := by
  unfold MemcachedServer.getCopied at hi
  rw [hcopy] at hi
  refine ⟨?_, hcopy, (valueText_inj (Freed.length_read _ _ _) hreply).1⟩
  by_contra hne
  have hne' : ¬hashRange (w.behind key .hashRange) = hashRange key := hne
  rw [if_neg hne'] at hi
  cases hi

structure Ready (w : World) : Prop where
  state : w.session.receiveState = .kReadCommandLine
  searchPos : w.session.curSearchPos = none

/-- A line that the session has not searched to its end. -/
theorem onMessageStep_searched {w w' : World} {line : Bytes} {good : Bool}
    (hs : w.session.receiveState = .kReadCommandLine) (hp : w.session.searchStart ≤ line.length)
    (hline : NoCrlf line) (hlen : line.length < 2 ^ 31) (rest : Bytes)
    (hd : doRequestCommand hashRange line w = .ok (good, w')) :
    onMessageStep hashRange Session.searchStart (w, line ++ CRLF ++ rest) =
      .inl (w'.commandDone good, rest) := by
  have hbuf : line ++ CRLF ++ rest = line ++ CR :: LF :: rest := by simp [CRLF]
  have hf : Muduo.findCRLF (line ++ CR :: LF :: rest) w.session.searchStart = some line.length :=
    findCRLF_line_from hline hp rest
  have htake : (line ++ CR :: LF :: rest).take line.length = line := List.take_left ..
  have hdrop : (line ++ CR :: LF :: rest).drop (line.length + 2) = rest := by simp [List.drop_append]
  rw [← htake] at hd
  rw [hbuf, onMessageStep_command hs hf hlen hd, hdrop]

theorem onMessageStep_searched_error {w : World} {line : Bytes} {calls : List Call}
    (hs : w.session.receiveState = .kReadCommandLine) (hp : w.session.searchStart ≤ line.length)
    (hline : NoCrlf line) (hlen : line.length < 2 ^ 31) (rest : Bytes)
    (hd : doRequestCommand hashRange line w = .error calls) :
    onMessageStep hashRange Session.searchStart (w, line ++ CRLF ++ rest) = .inr (.error calls) := by
  have hbuf : line ++ CRLF ++ rest = line ++ CR :: LF :: rest := by simp [CRLF]
  have hf : Muduo.findCRLF (line ++ CR :: LF :: rest) w.session.searchStart = some line.length :=
    findCRLF_line_from hline hp rest
  have htake : (line ++ CR :: LF :: rest).take line.length = line := List.take_left ..
  simp only [hbuf, onMessageStep, hs, hf, if_neg (Nat.not_le.mpr hlen), htake, hd]

theorem onMessageStep_line {w w' : World} {line : Bytes} (hw : Ready w) (hline : NoCrlf line)
    (hlen : line.length < 2 ^ 31) (rest : Bytes)
    (hd : doRequestCommand hashRange line w = .ok (true, w')) :
    onMessageStep hashRange Session.searchStart (w, line ++ CRLF ++ rest) =
      .inl (w'.commandDone true, rest) := by
  have hp : w.session.searchStart ≤ line.length := by
    rw [Session.searchStart, hw.searchPos]
    exact Nat.zero_le _
  exact onMessageStep_searched hw.state hp hline hlen rest hd

variable (hashRange) in
/-- A data block in front of the unread bytes is stored as it is. -/
theorem onMessageStep_block {w : World} {data : Bytes} (hs : w.session.receiveState = .kReadValue)
    (hlen : w.session.curValueLen = data.length) (hsmall : data.length < 1048576) (rest : Bytes) :
    onMessageStep hashRange Session.searchStart (w, data ++ CRLF ++ rest) =
      .inl (w.valueDone hashRange data true, rest) := by
  have hnat : w.session.curValueLen.toNat = data.length := by omega
  have hend : w.session.valueEnd = data.length + 2 := by
    unfold Session.valueEnd
    omega
  have htake : (data ++ CRLF ++ rest).take data.length = data := by simp
  have hdata : (data ++ CRLF ++ rest).drop data.length = CRLF ++ rest := by simp
  have hcrlf : (CRLF ++ rest).take 2 = CRLF := rfl
  have hdrop : (data ++ CRLF ++ rest).drop (data.length + 2) = rest := by
    rw [← List.drop_drop, hdata]
    rfl
  have hle : w.session.valueEnd ≤ (data ++ CRLF ++ rest).length := by
    simp only [hend, List.length_append]
    exact Nat.le_trans (Nat.le_refl _) (Nat.le_add_right _ _)
  rw [onMessageStep_value hs hle, hnat, htake, hdata, hcrlf, hdrop, decide_eq_true rfl]

variable (hashRange) in
/-- A `set` request in front of the unread bytes is answered, whatever its data holds. -/
theorem onMessage_set {w : World} {key data : Bytes} {flag exptime : ℕ} (hw : Ready w) (hk : IsKey key)
    (hf : flag < 2 ^ 31) (he : exptime < 2 ^ 31) (hl : data.length < 1048576) (rest : Bytes) : ∃ w',
    Ready w' ∧ w'.server = w.server.storeItem hashRange ⟨key, flag, exptime, data⟩ ∧
    w'.calls = w.calls ++ [.storeItem ⟨key, flag, exptime, data⟩, .send (ascii "STORED" ++ CRLF)] ∧
    onMessage hashRange (w, (Request.set key flag exptime data).encode ++ rest) =
      onMessage hashRange (w', rest) := by
  have hd := doRequestCommand_set hashRange hk hf he hl w
  have hline := onMessageStep_line hw (noCrlf_setLine hk flag exptime data.length) (length_setLine hk hf he (by omega))
    (data ++ CRLF ++ rest) hd
  rw [readSet_eq] at hline
  have hblock := onMessageStep_block hashRange
    (w := { w with session := ⟨.kReadValue, none, .kSet, key, flag, exptime, data.length⟩ }) rfl rfl hl rest
  have henc : (Request.set key flag exptime data).encode ++ rest =
      setLine key flag exptime data.length ++ CRLF ++ (data ++ CRLF ++ rest) := by
    simp only [Request.encode, List.append_assoc]
  rw [henc, onMessage_next hline, onMessage_next hblock]
  refine ⟨_, ?_, ?_, ?_, rfl⟩
  · exact ⟨rfl, rfl⟩
  · rfl
  · simp only [World.valueDone, World.storeData, World.call, World.send, if_true, Item.makeItem,
      World.setReceiveState, List.append_assoc]
    rfl

/-- A `get` request whose item is found is answered with what is then behind its key. -/
theorem onMessage_get {w : World} {key : Bytes} {item : Item} (hw : Ready w) (hk : IsKey key)
    (hi : w.server.getCopied hashRange (w.behind key .hashRange) (w.behind key .memcpy) = some item)
    (rest : Bytes) : ∃ w', Ready w' ∧ w'.server = w.server ∧
    w'.calls = w.calls ++
      [.getItem (w.behind key .memcpy) (some item), .send (valueText (w.behind key .append) item)] ∧
    onMessage hashRange (w, (Request.get key).encode ++ rest) = onMessage hashRange (w', rest) := by
  have hd := doRequestCommand_getLine hashRange hk w
  rw [hi] at hd
  have hline := onMessageStep_line hw (noCrlf_getLine hk) (length_getLine hk) rest hd
  rw [Request.encode, onMessage_next hline]
  refine ⟨_, ?_, ?_, ?_, rfl⟩
  · exact ⟨hw.state, rfl⟩
  · rfl
  · change (w.calls ++ [_]) ++ [_] = _
    rw [List.append_assoc]
    rfl

/-- Where no item is found the process dies. -/
theorem onMessage_get_null {w : World} {key : Bytes} (hw : Ready w) (hk : IsKey key)
    (hi : w.server.getCopied hashRange (w.behind key .hashRange) (w.behind key .memcpy) = none) (rest : Bytes) :
    onMessage hashRange (w, (Request.get key).encode ++ rest) =
      .error (w.calls ++ [.getItem (w.behind key .memcpy) none]) := by
  have hd := doRequestCommand_getLine hashRange hk w
  rw [hi] at hd
  apply Loop.Body.run_exit (onMessageBody hashRange Session.searchStart)
  exact onMessageStep_searched_error hw.state (by rw [Session.searchStart, hw.searchPos]; exact Nat.zero_le _)
    (noCrlf_getLine hk) (length_getLine hk) rest hd

theorem onMessage_nil {w : World} (hw : Ready w) :
    onMessage hashRange (w, []) = .ok (w.setSearchPos (some 0), []) := by
  have hf : Muduo.findCRLF [] w.session.searchStart = none :=
    findCRLF_eq_none.mpr fun i _ => NoCrlf.nil i
  apply Loop.Body.run_exit (onMessageBody hashRange Session.searchStart)
  change onMessageStep hashRange Session.searchStart (w, []) = _
  simp only [onMessageStep, hw.state, hf]
  rfl

variable (hashRange) in
/-- The requests are answered in one call, and the session is back at the start of a request. -/
def Pipelined (w : World) (reqs : List Request) : Prop := ∃ t calls,
  onMessage hashRange (w, reqs.flatMap Request.encode) = .ok (t, []) ∧ t.calls = w.calls ++ calls ∧
    Answers reqs calls ∧ t.session.receiveState = .kReadCommandLine

/-- The keys asked for outlive their strings, two calls being made for every request. -/
def KeysKept (hashRange : Bytes → ℕ) (n : ℕ) (reqs : List Request) : Prop :=
  ∀ i key, reqs[i]? = some (.get key) → KeyKept hashRange (n + 2 * i) key

omit [Muduo] in
theorem keysKept_cons {n : ℕ} {req : Request} {reqs : List Request} : KeysKept hashRange n (req :: reqs) ↔
    (∀ key, req = .get key → KeyKept hashRange n key) ∧ KeysKept hashRange (n + 2) reqs := by
  constructor
  · intro h
    refine ⟨fun key hreq => ?_, fun i key hreq => ?_⟩
    · simpa using h 0 key (by simp [hreq])
    · have := h (i + 1) key (by simpa using hreq)
      rwa [show n + 2 * (i + 1) = n + 2 + 2 * i by ring] at this
  · rintro ⟨hhead, htail⟩ i key hreq
    cases i with
    | zero => simpa using hhead key (by simpa using hreq)
    | succ i =>
      have := htail i key (by simpa using hreq)
      rwa [show n + 2 + 2 * i = n + 2 * (i + 1) by ring] at this

/-- A request that makes two calls is the first of a pipeline when they answer it and the others are one. -/
theorem pipelined_cons {w w' : World} {req : Request} {reqs : List Request} {a b : Call} {P : Prop}
    (hw' : Ready w') (hcalls : w'.calls = w.calls ++ [a, b])
    (hrun : onMessage hashRange (w, (req :: reqs).flatMap Request.encode) =
      onMessage hashRange (w', reqs.flatMap Request.encode))
    (hanswers : ∀ calls, Answers (req :: reqs) (a :: b :: calls) ↔ P ∧ Answers reqs calls) :
    Pipelined hashRange w (req :: reqs) ↔ P ∧ Pipelined hashRange w' reqs := by
  constructor
  · rintro ⟨t, calls, ht, htcalls, hans, hstate⟩
    rw [hrun] at ht
    obtain ⟨later, hlater⟩ := onMessage_calls_prefix (SessionInv.of_command hw'.state) ht
    have hsplit : calls = a :: b :: later := by
      apply (List.append_right_inj w.calls).mp
      rw [← htcalls, ← hlater, hcalls, List.append_assoc]
      rfl
    rw [hsplit, hanswers] at hans
    exact ⟨hans.1, t, later, ht, hlater.symm, hans.2, hstate⟩
  · rintro ⟨hP, t, calls, ht, htcalls, hans, hstate⟩
    refine ⟨t, a :: b :: calls, hrun.trans ht, ?_, (hanswers calls).mpr ⟨hP, hans⟩, hstate⟩
    rw [htcalls, hcalls, List.append_assoc]
    rfl

omit [Muduo] [Freed] in
theorem answers_set_iff {key data : Bytes} {flag exptime : ℕ} {reqs : List Request} {calls : List Call} :
    Answers (.set key flag exptime data :: reqs)
      (.storeItem ⟨key, flag, exptime, data⟩ :: .send (ascii "STORED" ++ CRLF) :: calls) ↔ Answers reqs calls := by
  refine ⟨fun h => ?_, .set⟩
  cases h with
  | set h => exact h

omit [Muduo] in
/-- The item found is the one under the key, and is sent with it, when nothing has happened to the key. -/
theorem answers_get_iff {w : World} {key : Bytes} {item : Item} {reqs : List Request} {calls : List Call}
    (hi : w.server.getCopied hashRange (w.behind key .hashRange) (w.behind key .memcpy) = some item) :
    Answers (.get key :: reqs)
      (.getItem (w.behind key .memcpy) (some item) :: .send (valueText (w.behind key .append) item) :: calls) ↔
        KeyKept hashRange w.calls.length key ∧ Answers reqs calls := by
  refine ⟨fun h => ?_, fun ⟨hkept, h⟩ => ?_⟩
  · generalize hcopy : w.behind key .memcpy = copied at h
    generalize hreply : valueText (w.behind key .append) item = reply at h
    cases h with
    | get _ h => exact ⟨keyKept_of_found hi hcopy hreply, h⟩
  · have hcopy : w.behind key .memcpy = key := hkept.copy
    have hreply : w.behind key .append = key := hkept.reply
    rw [hkept.getCopied] at hi
    rw [hcopy, hreply]
    exact .get (MemcachedServer.key_of_getItem hashRange hi) h

variable (hashRange) in
/-- The keys that are set, all of which can be found. -/
def Known (srv : MemcachedServer) (known : List Bytes) : Prop :=
  ∀ key ∈ known, IsKey key ∧ ∃ item, srv.getItem hashRange (Item.makeKeyItem key) = some item

omit [Muduo] [Freed] in
theorem Known.storeItem {srv : MemcachedServer} {known : List Bytes} {item : Item} (hk : IsKey item.key)
    (h : Known hashRange srv known) : Known hashRange (srv.storeItem hashRange item) (item.key :: known) := by
  intro key hmem
  rw [MemcachedServer.getItem_storeItem]
  rcases List.mem_cons.mp hmem with rfl | hmem
  · refine ⟨hk, ?_⟩
    cases srv.getItem hashRange (Item.makeKeyItem item.key) <;> simp [Item.makeKeyItem]
  · obtain ⟨hk', found, hfound⟩ := h key hmem
    exact ⟨hk', found, by rw [hfound]; rfl⟩

variable (hashRange) in
theorem pipelined_iff {w : World} {known : List Bytes} {reqs : List Request} (hw : Ready w)
    (hknown : Known hashRange w.server known) (hreqs : WellFormed known reqs) :
    Pipelined hashRange w reqs ↔ KeysKept hashRange w.calls.length reqs := by
  induction reqs generalizing w known with
  | nil =>
    refine iff_of_true ⟨_, [], onMessage_nil hw, (List.append_nil _).symm, .nil, hw.state⟩ ?_
    intro i key h
    cases h
  | cons req reqs ih =>
    rw [keysKept_cons]
    cases req with
    | set key flag exptime data =>
      obtain ⟨⟨hk, hf, he, hl⟩, hreqs⟩ := hreqs
      obtain ⟨w', hw', hserver, hcalls, hrun⟩ := onMessage_set hashRange hw hk hf he hl
        (reqs.flatMap Request.encode)
      have hknown' : Known hashRange w'.server (key :: known) := hserver ▸ hknown.storeItem hk
      rw [pipelined_cons hw' hcalls hrun fun _ => answers_set_iff.trans (iff_of_eq (true_and _).symm),
        ih hw' hknown' hreqs, hcalls]
      simp
    | get key =>
      obtain ⟨hmem, hreqs⟩ := hreqs
      obtain ⟨hk, stored, hstored⟩ := hknown key hmem
      cases hi : w.server.getCopied hashRange (w.behind key .hashRange) (w.behind key .memcpy) with
      | none =>
        -- the key asked for is in the store, so its bytes have changed
        refine iff_of_false ?_ fun h => ?_
        · rintro ⟨t, calls, ht, -⟩
          rw [List.flatMap_cons, onMessage_get_null hw hk hi] at ht
          cases ht
        · rw [(h.1 key rfl).getCopied, hstored] at hi
          cases hi
      | some item =>
        obtain ⟨w', hw', hserver, hcalls, hrun⟩ := onMessage_get hw hk hi (reqs.flatMap Request.encode)
        have hknown' : Known hashRange w'.server known := hserver.symm ▸ hknown
        rw [pipelined_cons hw' hcalls hrun fun _ => answers_get_iff hi, ih hw' hknown' hreqs, hcalls]
        simp

end Commands

variable [Muduo] [Freed] (hashRange : Bytes → ℕ)

/-- Well-formed requests delivered in one call to a fresh session on an empty store are answered one by one, and
nothing is left unread, exactly when every key asked for is still found behind the pointer of `doGet`. -/
theorem onMessage_pipeline_iff (reqs : List Request) (h : WellFormed [] reqs) : (∃ w,
    onMessage hashRange (World.fresh MemcachedServer.init, reqs.flatMap Request.encode) = .ok (w, []) ∧
      Answers reqs w.calls ∧ w.session.receiveState = .kReadCommandLine) ↔ KeysKept hashRange 0 reqs := by
  have hw : Ready (World.fresh MemcachedServer.init) := ⟨rfl, rfl⟩
  have hiff := pipelined_iff hashRange hw (List.forall_mem_nil _) h
  refine Iff.trans ⟨?_, ?_⟩ hiff
  · rintro ⟨w, hrun, hans, hstate⟩
    exact ⟨w, w.calls, hrun, rfl, hans, hstate⟩
  · rintro ⟨w, calls, hrun, hcalls, hans, hstate⟩
    rw [World.fresh, List.nil_append] at hcalls
    exact ⟨w, hrun, hcalls ▸ hans, hstate⟩

omit [Muduo] [Freed] in
/-- A data block that holds a line break and the text of a command, and its key asked for in memory that is
left alone. -/
theorem onMessage_pipeline_binary_data : ∃ w,
    @onMessage Muduo.reference Freed.untouched (fun _ => 0) (World.fresh MemcachedServer.init,
        [Request.set (ascii "k") 1 2 (ascii "x\r\nget y\r\n"), .get (ascii "k")].flatMap Request.encode) =
      .ok (w, []) ∧
      Answers [.set (ascii "k") 1 2 (ascii "x\r\nget y\r\n"), .get (ascii "k")] w.calls ∧
      w.session.receiveState = .kReadCommandLine := by
  have hkey : IsKey (ascii "k") := ⟨by decide, by decide, by decide, by decide, by decide⟩
  have hwell : WellFormed [] [.set (ascii "k") 1 2 (ascii "x\r\nget y\r\n"), .get (ascii "k")] :=
    ⟨⟨hkey, by norm_num, by norm_num, by decide⟩, List.mem_singleton_self _, trivial⟩
  let M := Muduo.reference
  let F := Freed.untouched
  exact (onMessage_pipeline_iff (fun _ => 0) _ hwell).mpr fun i key _ => ⟨rfl, rfl, rfl⟩

/-- Memory that an allocator has cleared. -/
abbrev Freed.cleared : Freed := ⟨fun _ _ key => List.replicate key.length 0, fun _ _ _ => List.length_replicate⟩

omit [Muduo] [Freed] in
/-- A key of 16 bytes is stored and asked for: the string it was in has been on the heap, and the key item
takes over its memory. -/
theorem onMessage_pipeline_freed : ¬∀ (_ : Muduo) (_ : Freed) (hashRange : Bytes → ℕ) (reqs : List Request),
    WellFormed [] reqs → ∃ w,
      onMessage hashRange (World.fresh MemcachedServer.init, reqs.flatMap Request.encode) = .ok (w, []) ∧
        Answers reqs w.calls ∧ w.session.receiveState = .kReadCommandLine := by
  intro h
  have hkey : IsKey (ascii "sixteen-byte-key") := ⟨by decide, by decide, by decide, by decide, by decide⟩
  have hwell : WellFormed [] [.set (ascii "sixteen-byte-key") 0 0 (ascii "x"), .get (ascii "sixteen-byte-key")] :=
    ⟨⟨hkey, by norm_num, by norm_num, by decide⟩, List.mem_singleton_self _, trivial⟩
  let M := Muduo.reference
  let F := Freed.cleared
  have hkept := (onMessage_pipeline_iff (fun _ => 0) _ hwell).mp (h M F _ _ hwell) 1 _ rfl
  exact absurd hkept.copy (by decide)

end LinuxSocket.Memcached
