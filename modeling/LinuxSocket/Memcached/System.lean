import LinuxSocket.Memcached.LastWrite
import LinuxSocket.Memcached.Pipeline
import LinuxSocket.Memcached.SessionInvariant

/-! # A server and its sessions

One iteration of a session's loop makes at most one call on the store, so the steps of the
sessions in any order are the interleavings of their handlers. The calls on the store
are recorded in the order in which they take effect. What an iteration finds in freed memory
is open. A null pointer that is dereferenced ends the process: such an iteration is no step.
-/
namespace LinuxSocket.Memcached

structure Connection where
  session : Session
  buf : Bytes

structure System where
  server : MemcachedServer
  conns : ℕ → Option Connection
  history : History

def System.init : System := ⟨MemcachedServer.init, fun _ => none, []⟩

/-- What the store sees of a call. -/
def Call.storeOp? : Call → Option StoreOp
  | .storeItem itemPtr => some (.storeItem itemPtr)
  | .getItem key _ => some (.getItem key)
  | .send _ => none
  | .shutdown => none

/-- The calls of session `i` behind those made before. -/
def History.record (ops : History) (i : ℕ) (calls : List Call) : History :=
  ops ++ (calls.filterMap Call.storeOp?).map fun op => (i, op)

section
variable [Muduo] (hashRange : Bytes → ℕ)

def System.advance (σ : System) (i : ℕ) (w : World) (buf : Bytes) : System :=
  ⟨w.server, Function.update σ.conns i (some ⟨w.session, buf⟩), σ.history.record i w.calls⟩

inductive System.Step : System → System → Prop
  | connect {σ} (i : ℕ) : σ.conns i = none →
      Step σ { σ with conns := Function.update σ.conns i (some ⟨{}, []⟩) }
  | disconnect {σ} (i : ℕ) : Step σ { σ with conns := Function.update σ.conns i none }
  | receive {σ c} (i : ℕ) (chunk : Bytes) : σ.conns i = some c →
      Step σ { σ with conns := Function.update σ.conns i (some { c with buf := c.buf ++ chunk }) }
  | iterate {σ c w buf} [Freed] (i : ℕ) : σ.conns i = some c →
      onMessageStep hashRange Session.searchStart (⟨c.session, σ.server, []⟩, c.buf) = .inl (w, buf) →
      Step σ (σ.advance i w buf)
  | returns {σ c w buf} [Freed] (i : ℕ) : σ.conns i = some c →
      onMessageStep hashRange Session.searchStart (⟨c.session, σ.server, []⟩, c.buf) = .inr (.ok (w, buf)) →
      Step σ (σ.advance i w buf)

def System.Reachable (σ : System) : Prop := Relation.ReflTransGen (System.Step hashRange) System.init σ

end

section Calls
variable {hashRange : Bytes → ℕ}

def execCall (hashRange : Bytes → ℕ) (srv : MemcachedServer) : Call → MemcachedServer
  | .storeItem itemPtr => srv.storeItem hashRange itemPtr
  | .getItem _ _ => srv
  | .send _ => srv
  | .shutdown => srv

def World.Made (hashRange : Bytes → ℕ) (w t : World) : Prop :=
  ∃ calls, t.calls = w.calls ++ calls ∧ t.server = calls.foldl (execCall hashRange) w.server

theorem World.Made.of_eq {w t : World} (hc : t.calls = w.calls) (hs : t.server = w.server) :
    w.Made hashRange t := ⟨[], by rw [hc, List.append_nil], hs⟩

theorem World.Made.trans {w t u : World} (h₁ : w.Made hashRange t) (h₂ : t.Made hashRange u) :
    w.Made hashRange u := by
  obtain ⟨c₁, hc₁, hs₁⟩ := h₁
  obtain ⟨c₂, hc₂, hs₂⟩ := h₂
  exact ⟨c₁ ++ c₂, by rw [hc₂, hc₁, List.append_assoc], by rw [hs₂, hs₁, List.foldl_append]⟩

theorem World.Made.send {w t : World} (h : w.Made hashRange t) (m : Bytes) : w.Made hashRange (t.send m) :=
  h.trans ⟨[.send m], rfl, rfl⟩

theorem World.Made.setCommandType (w : World) (c : CommandType) : w.Made hashRange (w.setCommandType c) :=
  .of_eq rfl rfl

theorem doUpdate_made (words : List StringPiece) (w : World) : w.Made hashRange (doUpdate words w).2 := by
  cases words with
  | nil => exact (World.Made.of_eq rfl rfl).send _
  | cons word words =>
    rw [doUpdate_cons word words w rfl]
    split
    · exact (World.Made.of_eq rfl rfl).send _
    · split
      · exact (World.Made.of_eq rfl rfl).send _
      · exact .of_eq rfl rfl

theorem World.commandDone_made (good : Bool) (w : World) : w.Made hashRange (w.commandDone good) := by
  unfold commandDone
  dsimp only
  split <;> exact .of_eq rfl rfl

theorem World.valueDone_made (data : Bytes) (terminated : Bool) (w : World) :
    w.Made hashRange (w.valueDone hashRange data terminated) := by
  have hstore : w.Made hashRange (w.storeData hashRange data) := ⟨[.storeItem _], rfl, rfl⟩
  cases terminated with
  | false => exact .of_eq rfl rfl
  | true =>
    unfold valueDone
    simp only [if_true]
    split
    · exact (hstore.send _).trans (.of_eq rfl rfl)
    · exact hstore.trans (.of_eq rfl rfl)

variable [Muduo] [Freed]

theorem doGet_made {words : List StringPiece} {w w' : World} {good : Bool}
    (h : doGet hashRange words w = .ok (good, w')) : w.Made hashRange w' := by
  cases words with
  | nil =>
    cases h
    exact (World.Made.of_eq rfl rfl).send _
  | cons word words =>
    simp only [doGet] at h
    split at h
    · cases h
    · next item _ =>
      cases h
      have hget (key : Bytes) (r : Option Item) : w.Made hashRange (w.call (.getItem key r)) :=
        ⟨[.getItem _ _], rfl, rfl⟩
      exact (hget _ _).send _

theorem doRequestCommand_made {request : Bytes} {w w' : World} {good : Bool}
    (h : doRequestCommand hashRange request w = .ok (good, w')) : w.Made hashRange w' := by
  unfold doRequestCommand at h
  split at h
  · cases h
    exact .of_eq rfl rfl
  · next word words _ =>
    split at h
    · cases h
      exact .of_eq rfl rfl
    · have hu : (w.setCommandType .kSet).Made hashRange _ := doUpdate_made words _
      rw [Except.ok.inj h] at hu
      exact (World.Made.setCommandType w .kSet).trans hu
    · exact (World.Made.setCommandType w .kGet).trans (doGet_made h)
    · cases h
      exact ⟨[.shutdown], rfl, rfl⟩

theorem onMessageStep_made {start : Session → ℕ} {w t : World} {b b' : Bytes}
    (h : onMessageStep hashRange start (w, b) = .inl (t, b')) : w.Made hashRange t := by
  cases onMessageStep_next h with
  | @command _ good w' _ _ _ hd => exact (doRequestCommand_made hd).trans (World.commandDone_made good w')
  | value _ _ _ => exact World.valueDone_made _ _ w

theorem onMessageStep_made_return {start : Session → ℕ} {w t : World} {b b' : Bytes}
    (h : onMessageStep hashRange start (w, b) = .inr (.ok (t, b'))) : w.Made hashRange t := by
  cases onMessageStep_exit h with
  | noLine _ _ => exact .of_eq rfl rfl
  | noValue _ _ => exact .of_eq rfl rfl

end Calls

section Invariant
variable {hashRange : Bytes → ℕ}

/-- The calls of a session keep the store and the history in step. -/
theorem HoldsFirst.record {srv : MemcachedServer} {ops : History} (h : HoldsFirst hashRange srv ops) (i : ℕ)
    (calls : List Call) :
    HoldsFirst hashRange (calls.foldl (execCall hashRange) srv) (ops.record i calls) := by
  induction calls generalizing srv ops with
  | nil => simpa [History.record] using h
  | cons c calls ih =>
    have hcons (op : StoreOp) (hc : c.storeOp? = some op) :
        ops.record i (c :: calls) = History.record (ops ++ [(i, op)]) i calls := by
      simp [History.record, hc]
    cases c with
    | storeItem x => rw [hcons _ rfl]; exact ih (h.storeItem hashRange i x)
    | getItem key r => rw [hcons _ rfl]; exact ih (h.getItem hashRange i key)
    | send m => exact ih h
    | shutdown => exact ih h

theorem HoldsFirst.advance {σ : System} (h : HoldsFirst hashRange σ.server σ.history) {s : Session}
    {w : World} (hw : (World.mk s σ.server []).Made hashRange w) (i : ℕ) (buf : Bytes) :
    HoldsFirst hashRange (σ.advance i w buf).server (σ.advance i w buf).history := by
  obtain ⟨calls, hc, hs⟩ := hw
  simp only [System.advance, hc, hs, List.nil_append]
  exact h.record i calls

variable [Muduo]

theorem System.Step.holdsFirst {σ τ : System} (h : System.Step hashRange σ τ)
    (hσ : HoldsFirst hashRange σ.server σ.history) : HoldsFirst hashRange τ.server τ.history := by
  cases h with
  | connect i _ => exact hσ
  | disconnect i => exact hσ
  | receive i chunk _ => exact hσ
  | iterate i _ hstep => exact hσ.advance (onMessageStep_made hstep) i _
  | returns i _ hstep => exact hσ.advance (onMessageStep_made_return hstep) i _

/-- In every reachable state the store holds the first item of each key stored so far. -/
theorem System.Reachable.holdsFirst {σ : System} (h : σ.Reachable hashRange) :
    HoldsFirst hashRange σ.server σ.history := by
  induction h with
  | refl => exact holdsFirst_init hashRange
  | tail _ hstep ih => exact hstep.holdsFirst ih

end Invariant

section Get
variable [Muduo] [Freed] (hashRange : Bytes → ℕ)

def getReply (key : Bytes) : Option Item → Bytes
  | some item => valueText key item
  | none => ascii "END" ++ CRLF

/-- The command makes one call on the store, sends the reply for the key and returns. -/
def GetReplied (request key : Bytes) (w : World) : Prop :=
  ∃ good w' lookedUp result, doRequestCommand hashRange request w = .ok (good, w') ∧
    w'.calls = w.calls ++ [.getItem lookedUp result,
      .send (getReply key (w.server.getItem hashRange (Item.makeKeyItem key)))]

/-- The key has been stored, and what a session that has made `n` calls finds behind it leads to an item with the
same flag and value and is the key again when it is sent. -/
def FindsReply (ops : History) (n : ℕ) (key : Bytes) : Prop := ∃ item found, firstStored ops key = some item ∧
  hashRange (Freed.read .hashRange n key) = hashRange (Freed.read .memcpy n key) ∧
  firstStored ops (Freed.read .memcpy n key) = some found ∧ found.flag = item.flag ∧ found.value = item.value ∧
  Freed.read .append n key = key

variable {hashRange}

omit [Muduo] [Freed] in
theorem getCopied_eq_some {srv : MemcachedServer} {ops : History} (h : HoldsFirst hashRange srv ops)
    {hashed copied : Bytes} {item : Item} : srv.getCopied hashRange hashed copied = some item ↔
      hashRange hashed = hashRange copied ∧ firstStored ops copied = some item := by
  rw [MemcachedServer.getCopied, h copied, Option.ite_none_right_eq_some]

omit [Muduo] [Freed] in
theorem valueText_eq_getReply {key key' : Bytes} (hlen : key'.length = key.length) (found : Item)
    (stored : Option Item) : valueText key' found = getReply key stored ↔
      ∃ item, stored = some item ∧ found.flag = item.flag ∧ found.value = item.value ∧ key' = key := by
  cases stored with
  | none =>
    refine iff_of_false (fun h => ?_) (by simp)
    have hvalue : (valueText key' found).head? = some 86 := rfl
    have hend : (getReply key none).head? = some 69 := rfl
    rw [h, hend] at hvalue
    exact absurd hvalue (by decide)
  | some item =>
    constructor
    · intro h
      obtain ⟨hkey, hflag, hvalue⟩ := valueText_inj hlen h
      exact ⟨item, rfl, hflag, hvalue, hkey⟩
    · rintro ⟨item', hstored, hflag, hvalue, rfl⟩
      obtain rfl := Option.some.inj hstored
      simp only [getReply, valueText, hflag, hvalue]

/-- In a reachable state a `get` is replied to exactly when its key has been stored before and the freed memory
that `doGet` looks it up in still leads to the reply. -/
theorem get_replied_iff {σ : System} (hσ : σ.Reachable hashRange) (s : Session) (calls : List Call)
    {request : Bytes} {get key : StringPiece} {words : List StringPiece}
    (ht : tokens request = get :: key :: words) (hg : get.asString = ascii "get") :
    GetReplied hashRange request key.asString ⟨s, σ.server, calls⟩ ↔
      FindsReply hashRange σ.history calls.length key.asString := by
  have hholds := hσ.holdsFirst
  set w : World := ⟨s, σ.server, calls⟩
  have hlen : (w.behind key.asString .append).length = key.asString.length := Freed.length_read _ _ _
  unfold GetReplied FindsReply
  rw [doRequestCommand_get ht hg, show w.server = σ.server from rfl, hholds key.asString]
  cases hi : σ.server.getCopied hashRange (w.behind key.asString .hashRange) (w.behind key.asString .memcpy) with
  | none =>
    refine iff_of_false (by rintro ⟨_, _, _, _, h, -⟩; cases h) ?_
    rintro ⟨item, found, -, hhash, hfound, -⟩
    cases hi.symm.trans ((getCopied_eq_some hholds).mpr ⟨hhash, hfound⟩)
  | some found =>
    obtain ⟨hhash, hfound⟩ := (getCopied_eq_some hholds).mp hi
    have hreply := valueText_eq_getReply hlen found (firstStored σ.history key.asString)
    constructor
    · rintro ⟨good, w', lookedUp, result, h, hcalls⟩
      obtain ⟨-, rfl⟩ := Prod.mk.inj (Except.ok.inj h)
      have hlast := congrArg List.getLast? hcalls
      simp only [World.send, World.call, List.getLast?_append_cons] at hlast
      obtain ⟨item, hstored, hflag, hvalue, hkey⟩ := hreply.mp (Call.send.inj (Option.some.inj hlast))
      exact ⟨item, found, hstored, hhash, hfound, hflag, hvalue, hkey⟩
    · rintro ⟨item, found', hstored, -, hfound', hflag, hvalue, hkey⟩
      cases hfound.symm.trans hfound'
      refine ⟨true, _, w.behind key.asString .memcpy, some found, rfl, ?_⟩
      rw [← hreply.mpr ⟨item, hstored, hflag, hvalue, hkey⟩]
      exact List.append_assoc ..

end Get

/-- A key stored by one connection and asked for by another, in memory that is left alone. -/
theorem get_replied_after_set : ∃ σ : System, @System.Reachable Muduo.reference (fun _ => 0) σ ∧
    @GetReplied Muduo.reference Freed.untouched (fun _ => 0) (ascii "get k") (ascii "k") ⟨{}, σ.server, []⟩ := by
  let M := Muduo.reference
  let F := Freed.untouched
  have hk : IsKey (ascii "k") := ⟨by decide, by decide, by decide, by decide, by decide⟩
  have hsmall : (ascii "x").length < 1048576 := by decide
  have hfresh : Ready (World.fresh MemcachedServer.init) := ⟨rfl, rfl⟩
  have hline := onMessageStep_line hfresh (noCrlf_setLine hk 0 0 1)
    (length_setLine hk (by norm_num) (by norm_num) (by norm_num)) (ascii "x" ++ CRLF)
    (doRequestCommand_set (fun _ => 0) hk (by norm_num) (by norm_num) hsmall _)
  have hblock := onMessageStep_block (fun _ => 0)
    (w := ⟨⟨.kReadValue, none, .kSet, ascii "k", 0, 0, 1⟩, MemcachedServer.init, []⟩) rfl rfl hsmall []
  have hconnect : System.Reachable (fun _ => 0) _ := Relation.ReflTransGen.single (.connect 1 rfl)
  have hreceive := hconnect.tail (.receive 1 (setLine (ascii "k") 0 0 1 ++ CRLF ++ (ascii "x" ++ CRLF)) rfl)
  have hσ : System.Reachable (fun _ => 0) _ :=
    (hreceive.tail (.iterate 1 rfl hline)).tail (.iterate 1 rfl hblock)
  have ht : tokens (ascii "get k") = [⟨ascii "get k", 3⟩, ⟨ascii "k", 1⟩] := rfl
  have hreply := get_replied_iff hσ {} [] ht rfl
  exact ⟨_, hσ, hreply.mpr ⟨⟨ascii "k", 0, 0, ascii "x"⟩, _, rfl, rfl, rfl, rfl, rfl, rfl⟩⟩

/-- A key that has never been stored: its `get` has no reply. -/
theorem get_not_replied : ¬∀ (_ : Muduo) (_ : Freed) (hashRange : Bytes → ℕ) (σ : System),
    σ.Reachable hashRange → ∀ (s : Session) (calls : List Call) (request : Bytes) (get key : StringPiece)
      (words : List StringPiece), tokens request = get :: key :: words → get.asString = ascii "get" →
      GetReplied hashRange request key.asString ⟨s, σ.server, calls⟩ := by
  intro h
  have ht : tokens (ascii "get k") = [⟨ascii "get k", 3⟩, ⟨ascii "k", 1⟩] := rfl
  obtain ⟨good, w, _, _, hrun, -⟩ := h Muduo.reference Freed.untouched (fun _ => 0) System.init
    Relation.ReflTransGen.refl {} [] _ _ _ _ ht (by decide)
  cases hrun

end LinuxSocket.Memcached
