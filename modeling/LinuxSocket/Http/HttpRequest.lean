import LinuxSocket.ThirdParty
import Mathlib.Data.List.DropRight

/-! # HTTP requests -/
namespace LinuxSocket.Http

inductive Method
  | kInvalid
  | kGet
  | kPost
  | kHead
  | kPut
  | kDelete
  deriving DecidableEq

inductive Version
  | kUnKnown
  | kHttp10
  | kHttp11
  deriving DecidableEq

abbrev HeaderMap := Std.ExtTreeMap Bytes Bytes

structure HttpRequest where
  method : Method := .kInvalid
  path : Bytes := []
  query : Bytes := []
  body : Bytes := []
  version : Version := .kUnKnown
  headers : HeaderMap := ∅
  deriving DecidableEq

def COLON : UInt8 := 58
def QUESTION : UInt8 := 63

def methodOf (m : Bytes) : Method :=
  if m = ascii "GET" then .kGet
  else if m = ascii "POST" then .kPost
  else if m = ascii "HEAD" then .kHead
  else if m = ascii "PUT" then .kPut
  else if m = ascii "DELETE" then .kDelete
  else .kInvalid

def Method.str : Method → Bytes
  | .kGet => ascii "GET"
  | .kPost => ascii "POST"
  | .kHead => ascii "HEAD"
  | .kPut => ascii "PUT"
  | .kDelete => ascii "DELETE"
  | .kInvalid => ascii "INVALID"

namespace HttpRequest

def setMethod (r : HttpRequest) (m : Bytes) : Bool × HttpRequest :=
  let method := methodOf m
  (decide (method ≠ .kInvalid), { r with method })

/-- The header value behind a colon, without the white space around it. -/
def trim (value : Bytes) : Bytes := (value.dropWhile isspace).rdropWhile isspace

/-- `add_header` on a line and the position of its colon. -/
def addHeader (r : HttpRequest) (line : Bytes) (colon : ℕ) : HttpRequest :=
  let field := line.take colon
  let value := trim (line.drop (colon + 1))
  { r with headers := r.headers.insert field value }

def getHeader (r : HttpRequest) (field : Bytes) : Bytes := r.headers[field]?.getD []

def contentLength : Bytes := ascii "Content-Length"

def appendBody (r : HttpRequest) (body : Bytes) : HttpRequest := { r with body := r.body ++ body }

@[simp] theorem getHeader_appendBody (r : HttpRequest) (body field : Bytes) :
    (r.appendBody body).getHeader field = r.getHeader field := rfl

@[simp] theorem body_appendBody (r : HttpRequest) (body : Bytes) :
    (r.appendBody body).body = r.body ++ body := rfl

variable [Boost]

def getExpectBodyLen (r : HttpRequest) : ℤ := (Boost.lexicalCast (r.getHeader contentLength)).getD 0

/-- `none` is the failed assertion. Without assertions the length is negative, and the `string` that
is built with it throws. -/
def getRemainBodyLen (r : HttpRequest) : Option ℤ :=
  let expectBodyLen := r.getExpectBodyLen
  let currentBodyLen : ℤ := r.body.length
  if currentBodyLen ≤ expectBodyLen then some (expectBodyLen - currentBodyLen) else none

@[simp] theorem getExpectBodyLen_appendBody (r : HttpRequest) (body : Bytes) :
    (r.appendBody body).getExpectBodyLen = r.getExpectBodyLen := rfl

end HttpRequest

theorem methodOf_str {m : Method} (h : m ≠ .kInvalid) : methodOf m.str = m := by
  cases m with
  | kInvalid => exact absurd rfl h
  | kGet => decide
  | kPost => decide
  | kHead => decide
  | kPut => decide
  | kDelete => decide

theorem str_methodOf {m : Bytes} (h : methodOf m ≠ .kInvalid) : (methodOf m).str = m := by
  unfold methodOf at h ⊢
  split_ifs at h ⊢ with h1 h2 h3 h4 h5
  · exact h1.symm
  · exact h2.symm
  · exact h3.symm
  · exact h4.symm
  · exact h5.symm
  · exact absurd rfl h

theorem sp_not_mem_str (m : Method) : SP ∉ m.str := by
  cases m <;> decide

theorem cr_not_mem_str (m : Method) : CR ∉ m.str := by
  cases m <;> decide

end LinuxSocket.Http
