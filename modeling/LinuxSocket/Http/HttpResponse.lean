import LinuxSocket.Http.HttpRequest

/-! # HTTP responses -/
namespace LinuxSocket.Http

inductive HttpStatusCode
  | kUnKnown
  | k200Ok
  | k301MovedPermanently
  | k400BadRequest
  | k404NotFound
  | k501NotImplemented
  | k500Error
  deriving DecidableEq

def HttpStatusCode.toNat : HttpStatusCode → ℕ
  | .kUnKnown => 0
  | .k200Ok => 200
  | .k301MovedPermanently => 301
  | .k400BadRequest => 400
  | .k404NotFound => 404
  | .k501NotImplemented => 501
  | .k500Error => 500

structure HttpResponse where
  headers : HeaderMap := ∅
  body : Bytes := []
  statusMessage : Bytes := []
  statusCode : HttpStatusCode := .kUnKnown
  closeConnection : Bool

def snprintf32 (text : Bytes) : Bytes := text.take 31

namespace HttpResponse

def addHeader (r : HttpResponse) (key value : Bytes) : HttpResponse :=
  { r with headers := r.headers.insert key value }

def setContentType (r : HttpResponse) (contentType : Bytes) : HttpResponse :=
  r.addHeader (ascii "Content-Type") contentType

def setStatus (r : HttpResponse) (statusCode : HttpStatusCode) (statusMessage : Bytes) : HttpResponse :=
  { r with statusCode, statusMessage }

def setBody (r : HttpResponse) (body : Bytes) : HttpResponse := { r with body }

def setCloseConnection (r : HttpResponse) (on : Bool) : HttpResponse := { r with closeConnection := on }

/-- `append_to_buffer` on an empty buffer. The headers are written in the order of the map. -/
def appendToBuffer (r : HttpResponse) : Bytes :=
  snprintf32 (ascii "HTTP/1.1 " ++ decimal r.statusCode.toNat ++ ascii " ") ++ r.statusMessage ++
    ascii "\r\n" ++
    (if r.closeConnection then ascii "Connection: close\r\n"
    else snprintf32 (ascii "Content-Length: " ++ decimal r.body.length ++ ascii "\r\n") ++
      ascii "Connection: Keep-Alive\r\n") ++
    r.headers.toList.flatMap (fun p => p.1 ++ ascii ": " ++ p.2 ++ ascii "\r\n") ++ ascii "\r\n" ++ r.body

end HttpResponse

end LinuxSocket.Http
