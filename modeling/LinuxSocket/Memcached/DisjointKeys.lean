import LinuxSocket.Lib.Isolation
import LinuxSocket.Memcached.System

/-! # Sessions with keys of their own

Sessions meet in the store only. When every key is used by one session, each of them gets the replies that it would get
on a server of its own, in whatever order the sessions run.
-/
namespace LinuxSocket.Memcached

/-- What happens to a connection: an iteration of the loop of `onMessage`, too, with the freed memory it reads. -/
inductive Event
  | connect
  | disconnect
  | receive (chunk : Bytes)
  | iterate (freed : Freed)

/-- The session stores and asks for keys of its own. -/
def Call.UsesOwn (owner : Bytes → ℕ) (i : ℕ) : Call → Prop
  | .storeItem itemPtr => owner itemPtr.key = i
  | .getItem key _ => owner key = i
  | .send _ => True
  | .shutdown => True

section
variable [Muduo] (hashRange : Bytes → ℕ)

/-- The step of connection `i`, with the calls of its session; `none` when the process dies, or when the connection is
not there, or there already. -/
def System.event : Isolation.System ℕ Event System Call
  | i, .connect, σ =>
    if (σ.conns i).isNone then some ({ σ with conns := Function.update σ.conns i (some ⟨{}, []⟩) }, []) else none
  | i, .disconnect, σ => some ({ σ with conns := Function.update σ.conns i none }, [])
  | i, .receive chunk, σ =>
    (σ.conns i).map fun c =>
      ({ σ with conns := Function.update σ.conns i (some { c with buf := c.buf ++ chunk }) }, [])
  | i, .iterate _, σ =>
    (σ.conns i).bind fun c =>
      match onMessageStep hashRange Session.searchStart (⟨c.session, σ.server, []⟩, c.buf) with
      | .inl (w, buf) => some (σ.advance i w buf, w.calls)
      | .inr (.ok (w, buf)) => some (σ.advance i w buf, w.calls)
      | .inr (.error _) => none

def System.view (owner : Bytes → ℕ) (i : ℕ) (σ : System) : Option Connection × (Bytes → Option Item) :=
  (σ.conns i, fun key => if owner key = i then σ.server.getItem hashRange (Item.makeKeyItem key) else none)

end

section Store
variable {hashRange : Bytes → ℕ} {srv srv' : MemcachedServer} {key : Bytes} {calls : List Call} {owner : Bytes → ℕ}
  {i : ℕ}

theorem getItem_execCall_congr (h : srv.getItem hashRange (Item.makeKeyItem key) =
    srv'.getItem hashRange (Item.makeKeyItem key)) (c : Call) :
    (execCall hashRange srv c).getItem hashRange (Item.makeKeyItem key) =
      (execCall hashRange srv' c).getItem hashRange (Item.makeKeyItem key) := by
  cases c with
  | storeItem x => rw [execCall, execCall, MemcachedServer.getItem_storeItem, MemcachedServer.getItem_storeItem, h]
  | getItem k r => exact h
  | send m => exact h
  | shutdown => exact h

/-- The same calls keep two stores alike under a key. -/
theorem getItem_foldl_congr (h : srv.getItem hashRange (Item.makeKeyItem key) =
    srv'.getItem hashRange (Item.makeKeyItem key)) (calls : List Call) :
    (calls.foldl (execCall hashRange) srv).getItem hashRange (Item.makeKeyItem key) =
      (calls.foldl (execCall hashRange) srv').getItem hashRange (Item.makeKeyItem key) := by
  induction calls generalizing srv srv' with
  | nil => exact h
  | cons c calls ih => exact ih (getItem_execCall_congr h c)

theorem getItem_execCall_of_ne {c : Call} (hc : c.UsesOwn owner i) (hkey : owner key ≠ i) :
    (execCall hashRange srv c).getItem hashRange (Item.makeKeyItem key) =
      srv.getItem hashRange (Item.makeKeyItem key) := by
  cases c with
  | storeItem x =>
    have hne : x.key ≠ (Item.makeKeyItem key).key := fun heq => hkey ((congrArg owner heq).symm.trans hc)
    rw [execCall, MemcachedServer.getItem_storeItem, if_neg hne, Option.or_none]
  | getItem k r => rfl
  | send m => rfl
  | shutdown => rfl

/-- The calls of a session leave the items under the keys of the others. -/
theorem getItem_foldl_of_ne (hcalls : ∀ c ∈ calls, c.UsesOwn owner i) (hkey : owner key ≠ i) :
    (calls.foldl (execCall hashRange) srv).getItem hashRange (Item.makeKeyItem key) =
      srv.getItem hashRange (Item.makeKeyItem key) := by
  induction calls generalizing srv with
  | nil => rfl
  | cons c calls ih =>
    obtain ⟨hc, hrest⟩ := List.forall_mem_cons.mp hcalls
    exact (ih hrest).trans (getItem_execCall_of_ne hc hkey)

end Store

section Session
variable {hashRange : Bytes → ℕ} {srv : MemcachedServer} {w t : World} {b b' : Bytes} {good : Bool}
  {words : List StringPiece}

def World.on (w : World) (srv : MemcachedServer) : World := { w with server := srv }

def World.Finds (hashRange : Bytes → ℕ) (w t : World) (srv : MemcachedServer) : Prop :=
  ∀ key r, Call.getItem key r ∈ t.calls → srv.getItem hashRange (Item.makeKeyItem key) =
    w.server.getItem hashRange (Item.makeKeyItem key)

theorem doUpdate_on (words : List StringPiece) (w : World) (srv : MemcachedServer) :
    doUpdate words (w.on srv) = ((doUpdate words w).1, (doUpdate words w).2.on srv) := by
  cases words with
  | nil => rfl
  | cons word words =>
    rw [doUpdate_cons word words w rfl, doUpdate_cons word words (w.on srv) rfl]
    have hsession : (w.on srv).session = w.session := rfl
    rw [hsession]
    split
    · rfl
    · split <;> rfl

theorem commandDone_on (good : Bool) (w : World) (srv : MemcachedServer) :
    (w.on srv).commandDone good = (w.commandDone good).on srv := by
  by_cases h : (good && w.session.curCommandType == .kSet) = true
  · have hdone : w.commandDone good = (w.setSearchPos none).setReceiveState .kReadValue := if_pos h
    exact (if_pos h).trans (congrArg (World.on · srv) hdone.symm)
  · have hdone : w.commandDone good = w.setSearchPos none := if_neg h
    exact (if_neg h).trans (congrArg (World.on · srv) hdone.symm)

variable (hashRange) in
theorem valueDone_on (data : Bytes) (terminated : Bool) (w : World) (srv : MemcachedServer) :
    ∃ srv', (w.on srv).valueDone hashRange data terminated = (w.valueDone hashRange data terminated).on srv' := by
  cases terminated with
  | false => exact ⟨srv, rfl⟩
  | true =>
    refine ⟨((w.on srv).storeData hashRange data).server, ?_⟩
    have hdone (v : World) (hv : v.session = w.session) : v.valueDone hashRange data true =
        (if w.session.curCommandType = .kSet then (v.storeData hashRange data).send (ascii "STORED\r\n")
          else v.storeData hashRange data).setReceiveState .kReadCommandLine := by
      rw [← hv]
      rfl
    rw [hdone (w.on srv) rfl, hdone w rfl]
    split <;> rfl

variable [Muduo] [Freed]

theorem doGet_on (h : doGet hashRange words w = .ok (good, t)) (hfinds : w.Finds hashRange t srv) :
    doGet hashRange words (w.on srv) = .ok (good, t.on srv) := by
  cases words with
  | nil =>
    cases h
    rfl
  | cons word words =>
    cases hitem : w.server.getCopied hashRange (w.behind word.asString .hashRange)
        (w.behind word.asString .memcpy) with
    | none =>
      rw [doGet_null words hitem] at h
      cases h
    | some item =>
      rw [doGet_found words hitem] at h
      obtain ⟨rfl, rfl⟩ := Prod.mk.inj (Except.ok.inj h)
      have hsame := hfinds (w.behind word.asString .memcpy) (some item) (by simp [World.send, World.call])
      have hfound : (w.on srv).server.getCopied hashRange (w.behind word.asString .hashRange)
          (w.behind word.asString .memcpy) = some item := by
        rw [← hitem, MemcachedServer.getCopied, MemcachedServer.getCopied]
        exact congrArg (ite _ · none) hsame
      exact doGet_found (w := w.on srv) words hfound

theorem doRequestCommand_on {request : Bytes} (h : doRequestCommand hashRange request w = .ok (good, t))
    (hfinds : w.Finds hashRange t srv) :
    doRequestCommand hashRange request (w.on srv) = .ok (good, t.on srv) := by
  unfold doRequestCommand at h ⊢
  split at h
  · cases h
    rfl
  · split at h
    · cases h
      rfl
    · have hupdate := doUpdate_on ‹_› (w.setCommandType .kSet) srv
      rw [Except.ok.inj h] at hupdate
      exact congrArg Except.ok hupdate
    · exact doGet_on h hfinds
    · cases h
      rfl

/-- An iteration does the same with another store in which it finds the same. -/
theorem onMessageStep_on {start : Session → ℕ} (h : onMessageStep hashRange start (w, b) = .inl (t, b'))
    (hfinds : w.Finds hashRange t srv) :
    ∃ srv', onMessageStep hashRange start (w.on srv, b) = .inl (t.on srv', b') := by
  cases onMessageStep_next h with
  | @command crlf good w' hs hf hlt hd =>
    have hcalls : (w'.commandDone good).calls = w'.calls := by
      unfold World.commandDone
      dsimp only
      split <;> rfl
    have hon := doRequestCommand_on hd fun key r hr => hfinds key r (hcalls ▸ hr)
    have hstep : onMessageStep hashRange start (w.on srv, b) = .inl ((w'.on srv).commandDone good, b.drop (crlf + 2)) :=
      onMessageStep_command hs hf hlt hon
    exact ⟨srv, by rw [hstep, commandDone_on]⟩
  | @value terminated hs hle hterminated =>
    obtain ⟨srv', hdone⟩ := valueDone_on hashRange (b.take w.session.curValueLen.toNat) terminated w srv
    have hstep : onMessageStep hashRange start (w.on srv, b) = .inl
        ((w.on srv).valueDone hashRange (b.take w.session.curValueLen.toNat)
          (decide ((b.drop w.session.curValueLen.toNat).take 2 = CRLF)),
          b.drop (w.session.curValueLen.toNat + 2)) := onMessageStep_value hs hle
    exact ⟨srv', by rw [hstep, hterminated, hdone]⟩

theorem onMessageStep_return_on {start : Session → ℕ}
    (h : onMessageStep hashRange start (w, b) = .inr (.ok (t, b'))) (srv : MemcachedServer) :
    onMessageStep hashRange start (w.on srv, b) = .inr (.ok (t.on srv, b')) := by
  cases onMessageStep_exit h with
  | noLine hs hf =>
    have hs' : (w.on srv).session.receiveState = .kReadCommandLine := hs
    have hf' : Muduo.findCRLF b (start (w.on srv).session) = none := hf
    simp only [onMessageStep, hs', hf']
    rfl
  | noValue hs hlt =>
    have hs' : (w.on srv).session.receiveState = .kReadValue := hs
    have hlt' : ¬(w.on srv).session.valueEnd ≤ b.length := Nat.not_le_of_lt hlt
    simp only [onMessageStep, hs', if_neg hlt']

end Session

section Isolation
variable [Muduo] {hashRange : Bytes → ℕ} {owner : Bytes → ℕ} {σ τ σ' : System} {i : ℕ} {c : Connection} {w t : World}
  {buf : Bytes} {calls : List Call}

omit [Muduo] in
theorem view_conns (h : σ.view hashRange owner i = τ.view hashRange owner i) : σ.conns i = τ.conns i :=
  congrArg Prod.fst h

omit [Muduo] in
theorem view_getItem (h : σ.view hashRange owner i = τ.view hashRange owner i) {key : Bytes} (hkey : owner key = i) :
    σ.server.getItem hashRange (Item.makeKeyItem key) = τ.server.getItem hashRange (Item.makeKeyItem key) := by
  have hitem := congrFun (congrArg Prod.snd h) key
  simpa only [System.view, if_pos hkey] using hitem

omit [Muduo] in
/-- The iterations of a session that makes the same calls on servers that look alike to it. -/
theorem view_advance (h : σ.view hashRange owner i = τ.view hashRange owner i)
    (hw : (World.mk c.session σ.server []).Made hashRange w) (ht : (World.mk c.session τ.server []).Made hashRange t)
    (hsession : t.session = w.session) (hcalls : t.calls = w.calls) (buf : Bytes) :
    (σ.advance i w buf).view hashRange owner i = (τ.advance i t buf).view hashRange owner i := by
  obtain ⟨out, hout, hserver⟩ := hw
  obtain ⟨out', hout', hserver'⟩ := ht
  have heq : out' = out := by simpa [hout, hout'] using hcalls
  subst heq
  apply Prod.ext
  · simp [System.view, System.advance, hsession]
  · funext key
    simp only [System.view, System.advance, hserver, hserver']
    split
    · next hkey => exact getItem_foldl_congr (view_getItem h hkey) out'
    · rfl

omit [Muduo] in
theorem view_advance_of_ne {j : ℕ} (hw : (World.mk c.session σ.server []).Made hashRange w)
    (hown : ∀ c ∈ w.calls, c.UsesOwn owner i) (hj : j ≠ i) (buf : Bytes) :
    (σ.advance i w buf).view hashRange owner j = σ.view hashRange owner j := by
  obtain ⟨out, hout, hserver⟩ := hw
  rw [List.nil_append] at hout
  rw [hout] at hown
  apply Prod.ext
  · simp [System.view, System.advance, hj]
  · funext key
    simp only [System.view, System.advance, hserver]
    split
    · next hkey => exact getItem_foldl_of_ne hown (hkey ▸ hj)
    · rfl

inductive Occurs (hashRange : Bytes → ℕ) (i : ℕ) (σ : System) : Event → System → List Call → Prop
  | connect : σ.conns i = none →
      Occurs hashRange i σ .connect { σ with conns := Function.update σ.conns i (some ⟨{}, []⟩) } []
  | disconnect : Occurs hashRange i σ .disconnect { σ with conns := Function.update σ.conns i none } []
  | receive {c : Connection} {chunk : Bytes} : σ.conns i = some c → Occurs hashRange i σ (.receive chunk)
      { σ with conns := Function.update σ.conns i (some { c with buf := c.buf ++ chunk }) } []
  | iterate {freed : Freed} {c : Connection} {w : World} {buf : Bytes} : σ.conns i = some c →
      onMessageStep hashRange Session.searchStart (⟨c.session, σ.server, []⟩, c.buf) = .inl (w, buf) →
      Occurs hashRange i σ (.iterate freed) (σ.advance i w buf) w.calls
  | returns {freed : Freed} {c : Connection} {w : World} {buf : Bytes} : σ.conns i = some c →
      onMessageStep hashRange Session.searchStart (⟨c.session, σ.server, []⟩, c.buf) = .inr (.ok (w, buf)) →
      Occurs hashRange i σ (.iterate freed) (σ.advance i w buf) w.calls

theorem occurs_of_event {e : Event} (h : System.event hashRange i e σ = some (τ, calls)) :
    Occurs hashRange i σ e τ calls := by
  cases e with
  | connect =>
    obtain ⟨hnone, heq⟩ := Option.ite_none_right_eq_some.mp h
    obtain ⟨rfl, rfl⟩ := Prod.mk.inj (Option.some.inj heq)
    exact .connect (Option.isNone_iff_eq_none.mp hnone)
  | disconnect =>
    obtain ⟨rfl, rfl⟩ := Prod.mk.inj (Option.some.inj h)
    exact .disconnect
  | receive chunk =>
    obtain ⟨c, hc, heq⟩ := Option.map_eq_some_iff.mp h
    obtain ⟨rfl, rfl⟩ := Prod.mk.inj heq
    exact .receive hc
  | iterate freed =>
    obtain ⟨c, hc, heq⟩ := Option.bind_eq_some_iff.mp h
    split at heq
    · next hstep =>
      obtain ⟨rfl, rfl⟩ := Prod.mk.inj (Option.some.inj heq)
      exact .iterate hc hstep
    · next hstep =>
      obtain ⟨rfl, rfl⟩ := Prod.mk.inj (Option.some.inj heq)
      exact .returns hc hstep
    · cases heq

theorem Occurs.event_eq {e : Event} (h : Occurs hashRange i σ e τ calls) :
    System.event hashRange i e σ = some (τ, calls) := by
  cases h with
  | connect hnone => exact if_pos (Option.isNone_iff_eq_none.mpr hnone)
  | disconnect => rfl
  | receive hc => exact Option.map_eq_some_iff.mpr ⟨_, hc, rfl⟩
  | iterate hc hstep => exact Option.bind_eq_some_iff.mpr ⟨_, hc, by rw [hstep]⟩
  | returns hc hstep => exact Option.bind_eq_some_iff.mpr ⟨_, hc, by rw [hstep]⟩

theorem Occurs.step {e : Event} (h : Occurs hashRange i σ e τ calls) : System.Step hashRange σ τ := by
  cases h with
  | connect hnone => exact .connect i hnone
  | disconnect => exact .disconnect i
  | receive hc => exact .receive i _ hc
  | iterate hc hstep => exact .iterate i hc hstep
  | returns hc hstep => exact .returns i hc hstep

/-- The calls of an occurrence look the same from a server that looks the same. -/
theorem Occurs.depends {e : Event} (h : Occurs hashRange i σ e σ' calls) (hown : ∀ c ∈ calls, c.UsesOwn owner i)
    (hview : σ.view hashRange owner i = τ.view hashRange owner i) :
    ∃ τ', Occurs hashRange i τ e τ' calls ∧ σ'.view hashRange owner i = τ'.view hashRange owner i := by
  have hconns := view_conns hview
  have hupdate (conn : Option Connection) :
      System.view hashRange owner i { σ with conns := Function.update σ.conns i conn } =
        System.view hashRange owner i { τ with conns := Function.update τ.conns i conn } := by
    have hitems := congrArg Prod.snd hview
    apply Prod.ext
    · simp [System.view]
    · exact hitems
  cases h with
  | connect hnone => exact ⟨_, .connect (hconns ▸ hnone), hupdate _⟩
  | disconnect => exact ⟨_, .disconnect, hupdate _⟩
  | receive hc => exact ⟨_, .receive (hconns ▸ hc), hupdate _⟩
  | @iterate freed c w buf hc hstep =>
    have hfinds : (World.mk c.session σ.server []).Finds hashRange w τ.server :=
      fun key r hr => (view_getItem hview (hown _ hr)).symm
    obtain ⟨srv, hstep'⟩ := onMessageStep_on hstep hfinds
    exact ⟨_, .iterate (w := w.on srv) (hconns ▸ hc) hstep',
      view_advance hview (onMessageStep_made hstep) (onMessageStep_made hstep') rfl rfl buf⟩
  | @returns freed c w buf hc hstep =>
    have hstep' := onMessageStep_return_on hstep τ.server
    exact ⟨_, .returns (w := w.on τ.server) (hconns ▸ hc) hstep',
      view_advance hview (onMessageStep_made_return hstep) (onMessageStep_made_return hstep') rfl rfl buf⟩

theorem Occurs.leaves {e : Event} {j : ℕ} (h : Occurs hashRange i σ e τ calls)
    (hown : ∀ c ∈ calls, c.UsesOwn owner i) (hj : j ≠ i) :
    τ.view hashRange owner j = σ.view hashRange owner j := by
  have hupdate (conn : Option Connection) :
      System.view hashRange owner j { σ with conns := Function.update σ.conns i conn } =
        σ.view hashRange owner j := by
    apply Prod.ext
    · simp [System.view, hj]
    · rfl
  cases h with
  | connect _ => exact hupdate _
  | disconnect => exact hupdate _
  | receive _ => exact hupdate _
  | iterate _ hstep => exact view_advance_of_ne (onMessageStep_made hstep) hown hj _
  | returns _ hstep => exact view_advance_of_ne (onMessageStep_made_return hstep) hown hj _

theorem event_isolated (hashRange : Bytes → ℕ) (owner : Bytes → ℕ) :
    Isolation.Isolated (System.event hashRange) (System.view hashRange owner) (Call.UsesOwn owner) where
  depends h hown hview := by
    obtain ⟨t', ht', hview'⟩ := (occurs_of_event h).depends hown hview
    exact ⟨t', ht'.event_eq, hview'⟩
  leaves h hown hj := (occurs_of_event h).leaves hown hj

theorem reachable_run {events : List (ℕ × Event)} {outs : List (ℕ × Call)} (hσ : σ.Reachable hashRange)
    (h : (System.event hashRange).run events σ = some (τ, outs)) : τ.Reachable hashRange := by
  induction events generalizing σ outs with
  | nil => exact (Prod.mk.inj (Option.some.inj h)).1 ▸ hσ
  | cons event events ih =>
    obtain ⟨t, out, later, hstep, hlater, -⟩ := Isolation.run_cons.mp h
    exact ih (hσ.tail (occurs_of_event hstep).step) hlater

/-- Sessions that use keys of their own alone do so together, and the server does not die when it does not die under
any of them alone. Each session then makes the calls, gets the items and sends the replies that it does on a server of
its own, and leaves its items there. -/
theorem sessions_isolated (hashRange : Bytes → ℕ) (owner : Bytes → ℕ) (events : List (ℕ × Event)) :
    ((∃ σ outs, (System.event hashRange).run events .init = some (σ, outs) ∧ ∀ p ∈ outs, p.2.UsesOwn owner p.1) ↔
      ∀ i, ∃ σ outs, (System.event hashRange).run (Isolation.own i events) .init = some (σ, outs) ∧
        ∀ p ∈ outs, p.2.UsesOwn owner p.1) ∧
    ∀ σ outs, (System.event hashRange).run events .init = some (σ, outs) → (∀ p ∈ outs, p.2.UsesOwn owner p.1) →
      σ.Reachable hashRange ∧ ∀ i, ∃ τ,
        (System.event hashRange).run (Isolation.own i events) .init = some (τ, Isolation.own i outs) ∧
        σ.conns i = τ.conns i ∧ ∀ key, owner key = i →
          σ.server.getItem hashRange (Item.makeKeyItem key) = τ.server.getItem hashRange (Item.makeKeyItem key) := by
  have hisolated := event_isolated hashRange owner
  refine ⟨hisolated.runs_iff events .init, fun σ outs hrun hown => ⟨reachable_run .refl hrun, fun i => ?_⟩⟩
  obtain ⟨τ, hrun', hview⟩ := hisolated.alone hrun hown i rfl
  exact ⟨τ, hrun', view_conns hview, fun key hkey => view_getItem hview hkey⟩

end Isolation

end LinuxSocket.Memcached
