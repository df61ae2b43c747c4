import LinuxSocket.Memcached.MemcachedServer
import LinuxSocket.Memcached.Tokenizer

/-! # The memcached session

A session is modelled with the store it shares and the calls it has made so far.
A dereferenced null pointer ends the process: what remains of it are those calls.
-/
namespace LinuxSocket.Memcached

inductive ReceiveState
  | kReadCommandLine
  | kReadValue
  deriving DecidableEq

inductive CommandType
  | kInvalid
  | kSet
  | kGet
  | kQuit
  deriving DecidableEq

/-- The fields of `Session`. `curSearchPos` is counted from `peek()`; wherever the handler moves
`peek()` it is null or set to null at once. -/
structure Session where
  receiveState : ReceiveState := .kReadCommandLine
  curSearchPos : Option ℕ := none
  curCommandType : CommandType := .kInvalid
  curKey : Bytes := []
  curFlag : ℤ := 0
  curExptime : ℤ := 0
  curValueLen : ℤ := 0
  deriving DecidableEq

inductive Call
  | storeItem (itemPtr : Item)
  | getItem (key : Bytes) (result : Option Item)
  | send (message : Bytes)
  | shutdown
  deriving DecidableEq

structure World where
  session : Session
  server : MemcachedServer
  calls : List Call

def World.fresh (server : MemcachedServer) : World := ⟨{}, server, []⟩

def World.call (w : World) (c : Call) : World := { w with calls := w.calls ++ [c] }

def World.send (w : World) (message : Bytes) : World := w.call (.send message)

def World.setSearchPos (w : World) (p : Option ℕ) : World :=
  { w with session := { w.session with curSearchPos := p } }

def World.setReceiveState (w : World) (r : ReceiveState) : World :=
  { w with session := { w.session with receiveState := r } }

def World.setCommandType (w : World) (c : CommandType) : World :=
  { w with session := { w.session with curCommandType := c } }

def World.sendClientError (w : World) : World :=
  w.send (ascii "CLIENT_ERROR bad command line format\r\n")

/-- What `doGet` reads through its `key`, in order: the bytes it hashes, those it copies into the key
item, and those it appends to the reply. -/
inductive KeyUse
  | hashRange
  | memcpy
  | append

/-- `key` points into a `std::string` that is destroyed where it is made. Each use finds as many bytes
as the key has, whatever they are by then; a session is told apart from its later self by the number
of calls it has made. -/
class Freed where
  read : KeyUse → ℕ → Bytes → Bytes
  length_read : ∀ use n key, (read use n key).length = key.length

/-- Memory in which the destroyed string is still to be found. -/
abbrev Freed.untouched : Freed := ⟨fun _ _ key => key, fun _ _ _ => rfl⟩

section Handlers
variable [Muduo] [Freed] (hashRange : Bytes → ℕ)

def World.storeData (w : World) (data : Bytes) : World :=
  let item := Item.makeItem w.session.curKey w.session.curFlag w.session.curExptime data
  { w with server := w.server.storeItem hashRange item }.call (.storeItem item)

def valueReply (key : Bytes) (item : Item) : Bytes :=
  ascii "VALUE " ++ key ++
    (ascii " " ++ Muduo.formatInteger item.flag ++ ascii " " ++ Muduo.formatInteger item.valueLen ++
      ascii "\r\n") ++
    item.value ++ ascii "\r\n" ++ ascii "END\r\n"

/-- The bytes a session finds through `key` at one of its uses. -/
def World.behind (w : World) (key : Bytes) (use : KeyUse) : Bytes := Freed.read use w.calls.length key

/-- `getItem` of a key item whose bytes were hashed first and copied later. An item of the store has the
hash of its own bytes, so a key item with the hash of others meets none. -/
def MemcachedServer.getCopied (srv : MemcachedServer) (hashed copied : Bytes) : Option Item :=
  if hashRange hashed = hashRange copied then srv.getItem hashRange (Item.makeKeyItem copied) else none

/-- The error is the null pointer `item->flag()` dereferences. -/
def doGet (words : List StringPiece) (w : World) : Except (List Call) (Bool × World) :=
  match words with
  | [] => .ok (false, w.sendClientError)
  | word :: _ =>
    let key := w.behind word.asString
    let item := w.server.getCopied hashRange (key .hashRange) (key .memcpy)
    let w := w.call (.getItem (key .memcpy) item)
    match item with
    | none => .error w.calls
    | some item => .ok (true, w.send (valueReply (key .append) item))

section
variable {hashRange} {word : StringPiece} {w : World} (words : List StringPiece)

theorem doGet_null
    (h : w.server.getCopied hashRange (w.behind word.asString .hashRange) (w.behind word.asString .memcpy) = none) :
    doGet hashRange (word :: words) w = .error (w.calls ++ [.getItem (w.behind word.asString .memcpy) none]) := by
  simp only [doGet, h]
  rfl

theorem doGet_found {item : Item} (h : w.server.getCopied hashRange (w.behind word.asString .hashRange)
      (w.behind word.asString .memcpy) = some item) : doGet hashRange (word :: words) w =
    .ok (true, (w.call (.getItem (w.behind word.asString .memcpy) (some item))).send
      (valueReply (w.behind word.asString .append) item)) := by
  simp only [doGet, h]

end

/-- `r.read(&curFlag_) && r.read(&curExptime_) && r.read(&curValueLen_)`, with the fields it sets. -/
def readNumbers (words : List StringPiece) (s : Session) : Bool × Session :=
  match readInt words with
  | none => (false, s)
  | some (flag, words) =>
    let s := { s with curFlag := flag }
    match readInt words with
    | none => (false, s)
    | some (exptime, words) =>
      let s := { s with curExptime := exptime }
      match readInt words with
      | none => (false, s)
      | some (valueLen, _) => (true, { s with curValueLen := valueLen })

def kLongestKeySize : ℕ := 250

def doUpdate (words : List StringPiece) (w : World) : Bool × World :=
  match words with
  | [] => (false, w.sendClientError)
  | word :: words =>
    let s := { w.session with curKey := word.asString }
    let good := decide (s.curKey.length ≤ kLongestKeySize)
    let r := if good then readNumbers words s else (false, s)
    let w := { w with session := r.2 }
    let good := r.1 && decide (0 ≤ r.2.curFlag) && decide (0 ≤ r.2.curExptime) && decide (0 ≤ r.2.curValueLen)
    if !good then (false, w.sendClientError)
    else if 1024 * 1024 ≤ r.2.curValueLen then
      (false, w.send (ascii "SERVER_ERROR object too large for cache\r\n"))
    else (true, w)

/-- `command == "get"` and so on; `none` for an unknown command. -/
def commandType (command : Bytes) : Option CommandType :=
  if command = ascii "get" then some .kGet
  else if command = ascii "set" then some .kSet
  else if command = ascii "quit" then some .kQuit
  else none

def doRequestCommand (request : Bytes) (w : World) : Except (List Call) (Bool × World) :=
  match tokens request with
  | [] => .ok (false, w)
  | word :: words =>
    match commandType word.asString with
    | none => .ok (false, w)
    | some .kSet => .ok (doUpdate words (w.setCommandType .kSet))
    | some .kGet => doGet hashRange words (w.setCommandType .kGet)
    | some c => .ok (false, (w.setCommandType c).call .shutdown)

/-- How a call of the handler ends: the process dies, or the call returns with the unread bytes. -/
abbrev Outcome := Except (List Call) (World × Bytes)

/-- Where the handler starts to search: at `curSearchPos_`, or at `peek()` when it is null. -/
def Session.searchStart (s : Session) : ℕ :=
  match s.curSearchPos with
  | some p => p
  | none => 0

def Session.valueEnd (s : Session) : ℕ := ((s.curValueLen % 2 ^ 64).toNat + 2) % 2 ^ 64

/-- After `doRequestCommand`: an accepted `set` waits for its value. -/
def World.commandDone (good : Bool) (w : World) : World :=
  let w := w.setSearchPos none
  if good && w.session.curCommandType == .kSet then w.setReceiveState .kReadValue else w

/-- After a data block, which is stored if a CR LF ends it. -/
def World.valueDone (data : Bytes) (terminated : Bool) (w : World) : World :=
  let w :=
    if terminated then
      let w := w.storeData hashRange data
      if w.session.curCommandType = .kSet then w.send (ascii "STORED\r\n") else w
    else w
  w.setReceiveState .kReadCommandLine

/-- One iteration of the loop of `onMessage`, with the start of the search as a parameter. A line of
2^31 bytes or more has no `int` length: the piece cut from it is not the line, and the model stops. -/
def onMessageStep (start : Session → ℕ) (p : World × Bytes) : (World × Bytes) ⊕ Outcome :=
  let (w, buf) := p
  match w.session.receiveState with
  | .kReadCommandLine =>
    match Muduo.findCRLF buf (start w.session) with
    | some crlf =>
      if 2 ^ 31 ≤ crlf then .inr (.error w.calls)
      else
        match doRequestCommand hashRange (buf.take crlf) w with
        | .error calls => .inr (.error calls)
        | .ok (good, w) => .inl (w.commandDone good, buf.drop (crlf + 2))
    | none => .inr (.ok (w.setSearchPos (some buf.length), buf))
  | .kReadValue =>
    if w.session.valueEnd ≤ buf.length then
      -- `curValueLen_` is not negative here, so the pointer is the offset
      let crlf := w.session.curValueLen.toNat
      let terminated := decide ((buf.drop crlf).take 2 = CRLF)
      .inl (w.valueDone hashRange (buf.take crlf) terminated, buf.drop (crlf + 2))
    else .inr (.ok (w, buf))

end Handlers

section Frame

@[simp] theorem World.call_session (w : World) (c : Call) : (w.call c).session = w.session := rfl
@[simp] theorem World.send_session (w : World) (m : Bytes) : (w.send m).session = w.session := rfl
@[simp] theorem World.sendClientError_session (w : World) : w.sendClientError.session = w.session := rfl
@[simp] theorem World.storeData_session (hashRange : Bytes → ℕ) (w : World) (data : Bytes) :
    (w.storeData hashRange data).session = w.session := rfl

@[simp] theorem World.commandDone_searchPos (good : Bool) (w : World) :
    (w.commandDone good).session.curSearchPos = none := by
  unfold commandDone
  dsimp only
  split <;> rfl

theorem World.valueDone_session (hashRange : Bytes → ℕ) (w : World) (data : Bytes) (terminated : Bool) :
    (w.valueDone hashRange data terminated).session =
      { w.session with receiveState := .kReadCommandLine } := by
  unfold valueDone
  cases terminated with
  | false => rfl
  | true =>
    simp only [if_true]
    split <;> rfl

end Frame

end LinuxSocket.Memcached
