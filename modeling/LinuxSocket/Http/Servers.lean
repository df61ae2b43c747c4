import LinuxSocket.Lib.Transfer
import LinuxSocket.Http.HttpContext
import LinuxSocket.Http.HttpResponse

/-! # The three HTTP servers

What a server reads of the machine it runs on (files, the output of programs) is a parameter, and may
be different for every response. A handler sees a connection with its context, the bytes it has not
read and what has been sent on it.
-/
namespace LinuxSocket.Http

inductive ConnectionStatus
  | connected
  /-- Shut down for writing. -/
  | disconnecting
  /-- The process has died in a call of the parser. -/
  | aborted
  deriving DecidableEq

structure Connection where
  context : HttpContext := {}
  buf : Bytes := []
  sent : List Bytes := []
  status : ConnectionStatus := .connected
  deriving DecidableEq

namespace Connection

def receive (conn : Connection) (chunk : Bytes) : Connection := { conn with buf := conn.buf ++ chunk }

/-- Nothing can be sent behind a shutdown. -/
def send (conn : Connection) (message : Bytes) : Connection :=
  if conn.status = .connected then { conn with sent := conn.sent ++ [message] } else conn

def shutdown (conn : Connection) : Connection :=
  if conn.status = .connected then { conn with status := .disconnecting } else conn

end Connection

def badRequest : Bytes := ascii "HTTP/1.1 400 Bad Request\r\n\r\n"

def wantsClose (request : HttpRequest) : Bool :=
  let connection := request.getHeader (ascii "Connection")
  connection == ascii "close" || request.version == .kHttp10 && connection != ascii "Keep-Alive"

/-- The response to a request, given how many responses have been sent before it. -/
abbrev Respond := ℕ → HttpRequest → HttpResponse

section Handlers
variable [Muduo] [Boost]

/-- `on_message` of `Procmon` and of `http_nonblock_simple`. -/
def onMessage (respond : Respond) (conn : Connection) : Connection :=
  if conn.status = .aborted then conn
  else
    match parseRequest (conn.context, conn.buf) with
    | .aborted => { conn with status := .aborted }
    | .returned ok context buf =>
      let conn := { conn with context, buf }
      let conn := if !ok then (conn.send badRequest).shutdown else conn
      if conn.context.gotAll then
        let response := respond conn.sent.length conn.context.request
        let conn := conn.send response.appendToBuffer
        let conn := if response.closeConnection then conn.shutdown else conn
        { conn with context := conn.context.reset }
      else conn

/-- `do_with_buffer`: the value is false when the reading loop is to stop. -/
def doWithBuffer (respond : Respond) (conn : Connection) : Bool × Connection :=
  match parseRequest (conn.context, conn.buf) with
  | .aborted => (false, { conn with status := .aborted })
  | .returned ok context buf =>
    let conn := { conn with context, buf }
    if !ok then (false, (conn.send badRequest).shutdown)
    else if conn.context.gotAll then
      let response := respond conn.sent.length conn.context.request
      let conn := conn.send response.appendToBuffer
      let conn := if response.closeConnection then conn.shutdown else conn
      (true, { conn with context := conn.context.reset })
    else (true, conn)

end Handlers

structure ProcEnvironment where
  cmdLine : Bytes
  readProcFile : Bytes → Bytes
  overFiew : Bytes → Bytes
  cpuChart : Bytes

def Procmon.onRequest (env : ProcEnvironment) (req : HttpRequest) (resp : HttpResponse) : HttpResponse :=
  let resp := (resp.setStatus .k200Ok (ascii "OK")).setContentType (ascii "text/plain")
  let resp := resp.addHeader (ascii "Server") (ascii "yqsy-procmon")
  if req.path = ascii "/" then (resp.setContentType (ascii "text/html")).setBody (env.overFiew req.query)
  else if req.path = ascii "/cmdline" then resp.setBody env.cmdLine
  else if req.path = ascii "/environ" then
    resp.setBody ((env.readProcFile (ascii "environ")).map fun c => if c = 0 then LF else c)
  else if req.path = ascii "/threads" then resp.setBody []
  else if req.path = ascii "/io" then resp.setBody (env.readProcFile (ascii "io"))
  else if req.path = ascii "/limits" then resp.setBody (env.readProcFile (ascii "limits"))
  else if req.path = ascii "/maps" then resp.setBody (env.readProcFile (ascii "maps"))
  else if req.path = ascii "/smaps" then resp.setBody (env.readProcFile (ascii "smaps"))
  else if req.path = ascii "/status" then resp.setBody (env.readProcFile (ascii "status"))
  else if req.path = ascii "/cpu.png" then
    (resp.setBody env.cpuChart).setContentType (ascii "image/png")
  else (resp.setStatus .k404NotFound (ascii "Not Found")).setCloseConnection true

def HttpNonblockSimple.onRequest (resp : HttpResponse) : HttpResponse :=
  ((resp.setStatus .k200Ok (ascii "OK")).setContentType (ascii "text/html")).setBody (ascii "<P>hello world")

structure CgiEnvironment where
  /-- Whether the path is a directory, `none` if `stat` fails. -/
  stat : Bytes → Option Bool
  fopen : Bytes → Option Bytes
  /-- The output of the child, `none` if its pipes cannot be made or `fork` fails. There is none behind an `execl` that
  fails. -/
  execl : HttpRequest → Option Bytes

namespace HttpBlockingCgi

/-- `write_n` with the results of its calls of `write`. The descriptor has got `passed` before. -/
def writeN (passed buf : Bytes) (length : ℤ) (results : List Transfer.CallResult) : Option (Transfer.State Bytes) :=
  (Transfer.writer buf).run length passed results

def unimplemented (response : HttpResponse) : HttpResponse :=
  ((response.setStatus .k501NotImplemented (ascii "Method Not Implemented")).setContentType
    (ascii "text/html")).setBody (ascii "<HTML><HEAD><TITLE>Method Not Implemented" ++
      ascii "</TITLE></HEAD>" ++ ascii "<BODY><P>HTTP request method not supported." ++ ascii "</BODY></HTML>")

def notFound (response : HttpResponse) : HttpResponse :=
  ((response.setStatus .k404NotFound (ascii "NOT FOUND")).setContentType (ascii "text/html")).setBody
    (ascii "<HTML><TITLE>Not Found</TITLE>" ++ ascii "<BODY><P>The server could not fulfill" ++
      ascii "your request because the resource specified" ++ ascii "is unavailable or nonexistent." ++
      ascii "</BODY></HTML>")

def cannotExecute (response : HttpResponse) : HttpResponse :=
  ((response.setStatus .k500Error (ascii "NOT FOUND")).setContentType (ascii "text/html")).setBody
    (ascii "<P>Error prohibited CGI execution.")

def serveFile (content : Bytes) (response : HttpResponse) : HttpResponse :=
  let response := (response.setStatus .k200Ok (ascii "OK")).setContentType (ascii "text/html")
  { response with body := response.body ++ content }

def serverCgi (env : CgiEnvironment) (request : HttpRequest) (response : HttpResponse) : HttpResponse :=
  let response := (response.setStatus .k200Ok (ascii "OK")).setContentType (ascii "text/html")
  match env.execl request with
  | none => cannotExecute response
  | some output => { response with body := response.body ++ output }

def dealWithRequest (env : CgiEnvironment) (request : HttpRequest) : HttpResponse :=
  let response : HttpResponse := { closeConnection := wantsClose request }
  if ¬(request.method = .kGet ∨ request.method = .kPost) then unimplemented response
  else if request.method = .kPost then serverCgi env request response
  else if request.query ≠ [] then serverCgi env request response
  else
    let requestPath := ascii "htdocs" ++ request.path
    let requestPath :=
      if requestPath.getLast? = some 47 then requestPath ++ ascii "index.html" else requestPath
    match env.stat requestPath with
    | none => notFound response
    | some isDirectory =>
      let requestPath := if isDirectory then requestPath ++ ascii "/index.html" else requestPath
      match env.fopen requestPath with
      | none => notFound response
      | some content => serveFile content response

end HttpBlockingCgi

inductive ReadHandler
  | procmon (env : ℕ → ProcEnvironment)
  | httpNonblockSimple
  | httpBlockingCgi (env : ℕ → CgiEnvironment)

def ReadHandler.respond : ReadHandler → Respond
  | .procmon env => fun n request =>
    Procmon.onRequest (env n) request { closeConnection := wantsClose request }
  | .httpNonblockSimple => fun _ request =>
    HttpNonblockSimple.onRequest { closeConnection := wantsClose request }
  | .httpBlockingCgi env => fun n request => HttpBlockingCgi.dealWithRequest (env n) request

section Reads
variable [Muduo] [Boost]

/-- A read of `chunk`. The loop of the blocking server has ended when its connection is shut down. -/
def ReadHandler.onRead (handler : ReadHandler) (conn : Connection) (chunk : Bytes) : Connection :=
  let conn := conn.receive chunk
  match handler with
  | .procmon _ => onMessage handler.respond conn
  | .httpNonblockSimple => onMessage handler.respond conn
  | .httpBlockingCgi _ => if conn.status = .connected then (doWithBuffer handler.respond conn).2 else conn

/-- A new connection after some reads. -/
def ReadHandler.serve (handler : ReadHandler) (reads : List Bytes) : Connection :=
  reads.foldl handler.onRead {}

end Reads

end LinuxSocket.Http
