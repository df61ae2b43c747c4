import LinuxSocket.Http.Servers
import LinuxSocket.Lib.Path

/-! # The files that the CGI server touches

The path of a request is appended to the name of the document root as it stands. What is appended to it later
never leads out of the root and never back into it.
-/
namespace LinuxSocket.Http
open LinuxSocket.Path

def SLASH : UInt8 := 47

def htdocs : Bytes := ascii "htdocs"

/-- `c_str()`: the system reads a string up to its first NUL. -/
def cStr (s : Bytes) : Bytes := s.takeWhile (· != 0)

namespace HttpBlockingCgi

def requestPath (request : HttpRequest) : Bytes :=
  let requestPath := htdocs ++ request.path
  if requestPath.getLast? = some SLASH then requestPath ++ ascii "index.html" else requestPath

def openPath (isDirectory : Bool) (requestPath : Bytes) : Bytes :=
  if isDirectory then requestPath ++ ascii "/index.html" else requestPath

/-- The names that `deal_with_request` hands to `stat` and `fopen`, or `server_cgi` to `execl`. -/
def fileNames (env : CgiEnvironment) (request : HttpRequest) : List Bytes :=
  if ¬(request.method = .kGet ∨ request.method = .kPost) then []
  else if request.method = .kPost then [cStr (htdocs ++ request.path)]
  else if request.query ≠ [] then [cStr (htdocs ++ request.path)]
  else
    match env.stat (requestPath request) with
    | none => [cStr (requestPath request)]
    | some isDirectory => [cStr (requestPath request), cStr (openPath isDirectory (requestPath request))]

theorem dealWithRequest_file (env : CgiEnvironment) {request : HttpRequest} (hmethod : request.method = .kGet)
    (hquery : request.query = []) : dealWithRequest env request =
      let response : HttpResponse := { closeConnection := wantsClose request }
      match env.stat (requestPath request) with
      | none => notFound response
      | some isDirectory =>
        match env.fopen (openPath isDirectory (requestPath request)) with
        | none => notFound response
        | some content => serveFile content response := by
  have hpost : ¬request.method = .kPost := by simp [hmethod]
  unfold dealWithRequest
  dsimp only
  rw [if_neg (not_not.mpr (Or.inl hmethod)), if_neg hpost, if_neg (not_not.mpr hquery)]
  rfl

/-- The response depends on the file system at these names only. -/
theorem dealWithRequest_congr {env env' : CgiEnvironment} {request : HttpRequest}
    (hstat : ∀ s, cStr s ∈ fileNames env request → env.stat s = env'.stat s)
    (hfopen : ∀ s, cStr s ∈ fileNames env request → env.fopen s = env'.fopen s)
    (hexecl : env.execl request = env'.execl request) :
    dealWithRequest env request = dealWithRequest env' request := by
  have hcgi (response : HttpResponse) : serverCgi env request response = serverCgi env' request response := by
    rw [serverCgi, serverCgi, hexecl]
  by_cases hfile : request.method = .kGet ∧ request.query = []
  · obtain ⟨hmethod, hquery⟩ := hfile
    rw [dealWithRequest_file env hmethod hquery, dealWithRequest_file env' hmethod hquery]
    have hnames : fileNames env request = match env.stat (requestPath request) with
        | none => [cStr (requestPath request)]
        | some isDirectory =>
          [cStr (requestPath request), cStr (openPath isDirectory (requestPath request))] := by
      simp [fileNames, hmethod, hquery]
    rw [hnames] at hstat hfopen
    cases hs : env.stat (requestPath request) with
    | none =>
      rw [hs] at hstat
      rw [← hstat _ List.mem_cons_self, hs]
    | some isDirectory =>
      rw [hs] at hstat hfopen
      rw [← hstat _ List.mem_cons_self, hs]
      dsimp only
      rw [hfopen _ (List.mem_cons_of_mem _ List.mem_cons_self)]
  · unfold dealWithRequest
    simp only [hcgi]
    split
    · rfl
    · next hmethod =>
      split
      · rfl
      · next hpost =>
        have hget := (not_not.mp hmethod).resolve_right hpost
        have hquery : request.query ≠ [] := fun hquery => hfile ⟨hget, hquery⟩
        rw [if_pos hquery, if_pos hquery]

end HttpBlockingCgi

section Names
variable {s t w : Bytes}

def segmentOf (s : Bytes) : Segment Bytes :=
  if s = [] ∨ s = ascii "." then .here else if s = ascii ".." then .up else .name s

def segments (name : Bytes) : List (Segment Bytes) := (name.splitOn SLASH).map segmentOf

/-- The name is the document root or lies below it. -/
def InDocumentRoot (name : Bytes) : Prop := (resolve (segments name)).Within htdocs

instance (name : Bytes) : Decidable (InDocumentRoot name) := inferInstanceAs (Decidable (Location.Within _ _))

theorem cStr_of_not_mem (h : (0 : UInt8) ∉ s) : cStr s = s := by
  rw [cStr, List.takeWhile_eq_self_iff]
  intro c hc
  simpa using fun he : c = 0 => h (he ▸ hc)

theorem cStr_append_of_mem (h : (0 : UInt8) ∈ s) (t : Bytes) : cStr (s ++ t) = cStr s := by
  obtain ⟨front, back, rfl, hfront⟩ := List.eq_append_cons_of_mem h
  have hcut (rest : Bytes) : cStr (front ++ 0 :: rest) = front := by
    have hall : ∀ c ∈ front, (c != 0) = true := by
      intro c hc
      simpa using fun he : c = 0 => hfront (he ▸ hc)
    rw [cStr, List.takeWhile_append_of_pos hall]
    simp
  rw [List.append_assoc, List.cons_append, hcut, hcut]

theorem cStr_append_of_not_mem (h : (0 : UInt8) ∉ s) (t : Bytes) : cStr (s ++ t) = s ++ cStr t := by
  refine List.takeWhile_append_of_pos fun c hc => ?_
  simpa using fun he : c = 0 => h (he ▸ hc)

theorem segments_slash (s t : Bytes) : segments (s ++ SLASH :: t) = segments s ++ segments t := by
  rw [segments, List.splitOn_append_cons_self, List.map_append]
  rfl

theorem segments_index : segments (ascii "index.html") = [.name (ascii "index.html")] := by decide

theorem inDocumentRoot_index (s : Bytes) :
    InDocumentRoot (s ++ SLASH :: ascii "index.html") ↔ InDocumentRoot s := by
  rw [InDocumentRoot, segments_slash, segments_index]
  exact within_concat_name (by decide)

theorem inDocumentRoot_slash (s : Bytes) : InDocumentRoot (s ++ [SLASH]) ↔ InDocumentRoot s := by
  rw [InDocumentRoot, segments_slash]
  exact within_concat_here

theorem inDocumentRoot_directory (s : Bytes) :
    InDocumentRoot (cStr (s ++ ascii "/index.html")) ↔ InDocumentRoot (cStr s) := by
  by_cases h : (0 : UInt8) ∈ s
  · rw [cStr_append_of_mem h]
  · rw [cStr_append_of_not_mem h, cStr_of_not_mem h]
    exact inDocumentRoot_index s

theorem inDocumentRoot_indexed (hs : s.getLast? = some SLASH) :
    InDocumentRoot (cStr (s ++ ascii "index.html")) ↔ InDocumentRoot (cStr s) := by
  by_cases h : (0 : UInt8) ∈ s
  · rw [cStr_append_of_mem h]
  · rw [cStr_append_of_not_mem h, cStr_of_not_mem h]
    obtain ⟨front, rfl⟩ := List.getLast?_eq_some_iff.mp hs
    rw [inDocumentRoot_slash, List.append_assoc]
    exact inDocumentRoot_index front

end Names

/-- The path up to its first NUL, as a continuation of the name `htdocs`, enters the directory `htdocs` and does
not leave it, or the request names no file. -/
def PathStaysInside (request : HttpRequest) : Prop :=
  request.method = .kGet ∨ request.method = .kPost → Enters htdocs (segments (htdocs ++ cStr request.path))

theorem pathStaysInside_iff {request : HttpRequest} (h : request.method = .kGet ∨ request.method = .kPost) :
    PathStaysInside request ↔ InDocumentRoot (cStr (htdocs ++ request.path)) := by
  rw [PathStaysInside, InDocumentRoot, within_iff_enters, cStr_append_of_not_mem (by decide)]
  exact ⟨fun hp => hp h, fun hp _ => hp⟩

section FileNames
open HttpBlockingCgi

theorem inDocumentRoot_requestPath (request : HttpRequest) :
    InDocumentRoot (cStr (requestPath request)) ↔ InDocumentRoot (cStr (htdocs ++ request.path)) := by
  unfold requestPath
  dsimp only
  split
  · next hslash => exact inDocumentRoot_indexed hslash
  · rfl

theorem inDocumentRoot_openPath (isDirectory : Bool) (s : Bytes) :
    InDocumentRoot (cStr (openPath isDirectory s)) ↔ InDocumentRoot (cStr s) := by
  cases isDirectory with
  | true => exact inDocumentRoot_directory s
  | false => rfl

/-- All names that a request makes the server use are in the document root exactly when its path stays inside. -/
theorem fileNames_inDocumentRoot_iff (env : CgiEnvironment) (request : HttpRequest) :
    (∀ name ∈ fileNames env request, InDocumentRoot name) ↔ PathStaysInside request := by
  unfold fileNames
  split
  · next hmethod => exact ⟨fun _ h => absurd h hmethod, fun _ => List.forall_mem_nil _⟩
  · next hmethod =>
    rw [pathStaysInside_iff (not_not.mp hmethod)]
    split
    · rw [List.forall_mem_singleton]
    · split
      · rw [List.forall_mem_singleton]
      · split
        · rw [List.forall_mem_singleton, inDocumentRoot_requestPath]
        · rw [List.forall_mem_cons, List.forall_mem_singleton, inDocumentRoot_openPath, and_self,
            inDocumentRoot_requestPath]

end FileNames

/-- A path with more steps up than names. -/
theorem traversal_escapes : ¬∀ (_ : Muduo) (_ : Boost) (env : CgiEnvironment) (b rest : Bytes) (ok : Bool)
    (context : HttpContext), parseRequest ({}, b) = .returned ok context rest → context.gotAll = true →
      ∀ name ∈ HttpBlockingCgi.fileNames env context.request, InDocumentRoot name := by
  intro h
  let M := Muduo.reference
  let B := Boost.reference
  let request : HttpRequest := { method := .kGet, path := ascii "/../../etc/passwd", version := .kHttp11 }
  have hrun : parseRequest ({}, ascii "GET /../../etc/passwd HTTP/1.1\r\n\r\n") =
      .returned true ⟨.kGotAll, request⟩ [] := by decide
  have hin := h M B ⟨fun _ => none, fun _ => none, fun _ => none⟩ _ _ _ _ hrun rfl
    (ascii "htdocs/../../etc/passwd") List.mem_cons_self
  revert hin
  decide

end LinuxSocket.Http
