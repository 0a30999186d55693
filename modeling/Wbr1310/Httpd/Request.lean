import Wbr1310.Httpd.Config

/-!
# The handling of a request

`process_path`, `process_path_translated` and what they call, from `request.c`, and the loop of
`process_request` over error files. The file system, the session store and the start of
a program are parameters.
-/

namespace Wbr1310.Httpd

open Lib

def strLen : ℕ := 400

def pathLen : ℕ := 2 * strLen

/-- The methods that are known. -/
inductive Method where
  | get
  | head
  | post
  deriving DecidableEq, Repr

/-- What `process_headers` has made of a request; `sessionid` is left from the request
before. A URL has at most `STRLEN` characters, and its path is not longer. -/
structure Request where
  path : Text
  url : Text
  args : Option Text
  host : Option Text
  authorization : Option Text
  headers : List Text
  method : Method
  sessionid : ℤ
  path_le : path.length ≤ strLen

/-- What `stat` finds. -/
inductive FileKind where
  | directory
  | regular
  | other
  deriving DecidableEq, Repr

/-- The results of `open` and `fstat`: no such file, another error, `fstat` fails, or a file. -/
inductive OpenResult where
  | noent
  | failed
  | unstatable
  | opened (kind : FileKind)
  deriving DecidableEq, Repr

/-- What the server calls: the file system, the session store, the user file, `process_cgi`,
and the status of a file by its time and the range asked for. -/
structure RequestEnv where
  openFile : Text → OpenResult
  getSessionId : ℤ
  checkSession : ℤ → ℤ
  getSessiongrp : ℤ → ℤ
  webuserok : Text → Bool
  spawned : Bool
  fileStatus : ℕ

/-- What serves a special type. -/
inductive Handler where
  | external (program : Text)
  | cgi
  | internal
  deriving DecidableEq, Repr

/-- The fields of `struct request` that change, with the handlers that were called and whether
the session check of `process_path` was made and passed. -/
structure RequestState where
  pathTranslated : Text
  locationLength : ℕ
  pathArgs : Text
  status : ℕ
  errorFile : Option Text
  contentType : Text
  cls : MimeClass
  kind : FileKind
  isindex : Bool
  sessionid : ℤ
  sessionPassed : Bool
  handlers : List Handler
  deriving DecidableEq, Repr

section

variable (env : RequestEnv) (req : Request) (c : Control) (st : RequestState)

/-- `init_request`. -/
def Request.start : RequestState where
  pathTranslated := []
  locationLength := 0
  pathArgs := []
  status := 0
  errorFile := none
  contentType := []
  cls := .file
  kind := .other
  isindex := false
  sessionid := req.sessionid
  sessionPassed := false
  handlers := []

/-- The loop of `find_vs` for a request with a host; `d` is the last virtual host for any. -/
def findHost (host : Text) : List Virtual → Option Virtual → Option Virtual
  | [], d => d
  | v :: vs, d => match v.host with
    | some h => if host = h then some v else findHost host vs d
    | none => findHost host vs (if v.anyhost then some v else d)

def findVs (virtuals : List Virtual) : Option Text → Option Virtual
  | some host => findHost host virtuals none
  | none => virtuals.find? fun v => v.host.isNone && !v.anyhost

def dirmatch (s t : Text) : Option Text :=
  if t = [] then some s
  else if t <+: s ∧
      ((s.drop t.length).head? = some '/' ∨ s.drop t.length = [] ∨ t.getLast? = some '~') then
    some (s.drop t.length)
  else none

def exactmatch (s t : Text) : Option Text :=
  if t <+: s ∧ s.drop t.length = ['/'] then some ['/'] else none

/-- `expand_hostname`: the host stands for `*`, and at most `n` characters are written. -/
def expandHostname (host : Text) : Text → ℕ → Text
  | [], _ => []
  | c :: source, n =>
    if n = 0 then []
    else if c = '*' then
      host.take n ++ expandHostname host source (n - (host.take n).length)
    else c :: expandHostname host source (n - 1)

/-- The location and, if it is not one for a redirection, the rest of the path behind it. -/
def realPath (location s : Text) (host : Option Text) (maxlen : ℕ) : ℕ × Text :=
  let y := match host with
    | some h => expandHostname h location (maxlen - 1)
    | none => location.take (maxlen - 1)
  (y.length, y ++ if location.head? = some '/' ∨ c.pathArgsOk = false then
    s.take (maxlen - (y.length + 1)) else [])

/-- `faketoreal`: the first control whose alias matches. -/
def faketoreal (x : Text) (host : Option Text) (maxlen : ℕ) :
    List Control → Option (Control × ℕ × Text)
  | [] => none
  | c :: controls => match c.locations, c.aliasPath with
    | some location, some t =>
      match if c.exactMatch then exactmatch x t else dirmatch x t with
      | some s => some (c, realPath c location s host maxlen)
      | none => faketoreal x host maxlen controls
    | _, _ => faketoreal x host maxlen controls

/-- The states of `check_path`. -/
inductive PathState where
  | normal
  | slash
  | slashdot
  | slashdotdot
  | forbidden
  deriving DecidableEq, Repr

def PathState.next (allowDotfiles : Bool) : PathState → Option Char → PathState
  | .normal, c => if c = some '/' then .slash else .normal
  | .slash, c =>
    if c = some '/' then .forbidden
    else if c = some '.' then if allowDotfiles then .slashdot else .forbidden
    else .normal
  | .slashdot, c =>
    if c = none ∨ c = some '/' then .forbidden
    else if c = some '.' then .slashdotdot
    else .normal
  | .slashdotdot, c => if c = none ∨ c = some '/' then .forbidden else .normal
  | .forbidden, _ => .forbidden

def checkPath (allowDotfiles : Bool) (path : Text) : Bool :=
  let s : PathState := path.foldl (fun s ch => s.next allowDotfiles (some ch)) .normal
  s.next allowDotfiles none ≠ .forbidden

def checkRealm (req : Request) : Bool :=
  if c.realm = none ∨ c.userfile = none then true
  else match req.authorization with
    | none => c.sessionControl
    | some a =>
      if ¬ Text.EqIgnoreCase (a.take 6) "basic ".toList then false
      else if c.sessionControl then true
      else env.webuserok ((a.drop 6).dropWhile (· = ' '))

def notFound : RequestState :=
  { st with errorFile := c.error404File, status := 404 }

def sessionExt (pStr : Option Text) : Prop := pStr = some "xgi".toList ∨ pStr = some "_int".toList

instance (pStr : Option Text) : Decidable (sessionExt pStr) := inferInstanceAs (Decidable (_ ∨ _))

/-- `check_session` and `get_sessiongrp` accept the session. -/
def sessionOk (sessionid : ℤ) : Prop :=
  env.checkSession sessionid ≠ -1 ∧ env.getSessiongrp sessionid = 0

instance (env : RequestEnv) (sessionid : ℤ) : Decidable (sessionOk env sessionid) :=
  inferInstanceAs (Decidable (_ ∧ _))

/-- The end of `process_path`: the realm. -/
def checkLogin (req : Request) (st : RequestState) : RequestState :=
  if c.realm.isSome ∧ checkRealm env c req = false then
    { st with errorFile := c.error401File, status := 401 }
  else st

/-- The session is looked up for the extensions of the session filter. -/
def findSession (pStr : Option Text) (st : RequestState) : RequestState :=
  if c.sessionControl = true ∧ ∃ name ∈ c.sessionFilter, pStr = some name then
    { st with sessionid := env.getSessionId }
  else st

/-- The session check of `process_path`. -/
def checkAccess (req : Request) (st : RequestState) : RequestState :=
  let pStr := Text.afterLast '.' st.pathTranslated
  let st := findSession env c pStr st
  -- internal and xgi requests, which are not checked by php
  if c.sessionControl = true ∧ sessionExt pStr then
    if sessionOk env st.sessionid then checkLogin env c req { st with sessionPassed := true }
    else { st with errorFile := c.error401File, status := 401 }
  else checkLogin env c req st

/-- `process_path` ends without a control, or with one. -/
inductive PathResult where
  | refused (status : ℕ)
  | found (c : Control) (st : RequestState)

def processPath (virtuals : List Virtual) (req : Request) : PathResult :=
  match findVs virtuals req.host with
  | none => .refused 400
  | some v => match faketoreal req.path req.host pathLen v.controls with
    | none => .refused 500
    | some (c, locationLength, pathTranslated) =>
      let st := { req.start with
        locationLength := locationLength
        pathTranslated := pathTranslated }
      if checkPath c.allowDotfiles req.path then .found c (checkAccess env c req st)
      else .found c (notFound c st)

def trailingSlashes (p : Text) : ℕ := (p.reverse.takeWhile (· = '/')).length

/-- `get_path_info`. Every error of `open` ends the loop in its first round. -/
def getPathInfo : Bool × RequestState :=
  if st.locationLength = 0 then (false, st)
  else
    let p := st.pathTranslated
    let cp := max (p.length - trailingSlashes p) (st.locationLength - 1)
    if cp < st.locationLength then (false, { st with pathArgs := [] })
    else
      let cut := { st with pathTranslated := p.take cp, pathArgs := [] }
      match env.openFile (p.take cp) with
      | .noent => (st.cls ≠ .file, cut)
      | .failed => (false, cut)
      | .unstatable => (false, cut)
      | .opened kind =>
        (true, { st with
          pathTranslated := p.take cp ++ if kind = .directory then ['/'] else []
          pathArgs := p.drop cp
          kind := kind })

def makedir : RequestState :=
  let l := req.url.length + 1 + match req.args with
    | some args => args.length + 1
    | none => 0
  { st with status := if pathLen ≤ l then 500 else 302 }

/-- The loop of `append_indexes`. -/
def appendIndexesFrom (env : RequestEnv) (c : Control) (st : RequestState) :
    List Text → Bool × RequestState
  | [] => (false, st)
  | name :: names =>
    let p := st.pathTranslated ++ name
    if pathLen - 1 ≤ p.length then appendIndexesFrom env c st names
    else match env.openFile p with
      | .noent => appendIndexesFrom env c st names
      | .failed => (false, notFound c st)
      | .unstatable => (false, { st with pathTranslated := p })
      | .opened kind => (true, { st with pathTranslated := p, kind := kind })

def appendIndexes : Bool × RequestState :=
  appendIndexesFrom env c { st with isindex := true } c.indexNames

/-- `process_cgi`: a handler is called, and the program is started or not. -/
def processCgi (h : Handler) : ℤ × RequestState :=
  let st := { st with handlers := h :: st.handlers }
  if env.spawned then (-1, st) else (0, { st with status := 503 })

/-- `process_special`; image maps, redirections and dumps are not compiled in. -/
def processSpecial : ℤ × RequestState :=
  if Text.EqIgnoreCase st.contentType "CGI".toList then processCgi env st .cgi
  else if st.status ≠ 0 then (0, st)
  else if Text.EqIgnoreCase st.contentType "Internal".toList then
    (0, { st with handlers := .internal :: st.handlers })
  else if req.method = .post then (0, { st with status := 405 })
  else (0, notFound c st)

def processFd : ℤ × RequestState :=
  if st.pathArgs ≠ [] ∧ c.pathArgsOk = false ∧ (st.pathArgs.drop 1 ≠ [] ∨ st.isindex = false) then
    (1, notFound c st)
  else if req.method = .post then (0, { st with status := 405 })
  else if st.status = 0 then (0, { st with status := env.fileStatus })
  else (0, st)

/-- The end of `process_path_translated`: the handler by the class of the path. -/
def dispatch : ℤ × RequestState :=
  if st.pathArgs ≠ [] ∧ c.pathInfoOk = false ∧ st.isindex = false then (1, notFound c st)
  else match st.cls with
    | .file => if st.kind = .regular then processFd env req c st else (1, notFound c st)
    | .special => processSpecial env req c st
    | .external => processCgi env st (.external st.contentType)

/-- `process_path_translated` for a directory. -/
def processDirectory : ℤ × RequestState :=
  if st.status ≠ 0 then (0, st)
  else if st.pathArgs.head? ≠ some '/' then (0, makedir req st)
  else match appendIndexes env c st with
    | (true, st) => match getMime c req.headers st.pathTranslated with
      | some (type, cls) => dispatch env req c { st with contentType := type, cls := cls }
      | none => (1, notFound c st)
    | (false, st) =>
      if st.status ≠ 0 then (1, st)
      else match st.pathArgs.drop 1, c.autoIndexCommand with
        | [], some command =>
          if req.method = .post then (0, { st with status := 405 })
          else (1, { st with errorFile := some command })
        | _, _ => (1, notFound c st)

def processPathTranslated : ℤ × RequestState :=
  match st.pathTranslated with
  | [] => (0, { st with status := 500 })
  | ch :: _ =>
    if ch ≠ '/' then if st.status ≠ 0 then (0, st) else (0, { st with status := 302 })
    else match getMime c req.headers st.pathTranslated with
      | none => (1, notFound c st)
      | some (type, cls) =>
        match getPathInfo env { st with contentType := type, cls := cls } with
        | (false, st) => (1, notFound c st)
        | (true, st) =>
          if st.cls = .file ∧ st.kind = .directory then processDirectory env req c st
          else dispatch env req c st

def useErrorFile : RequestState :=
  match st.errorFile with
  | some file =>
    { st with
      pathTranslated := file.take (pathLen - 1)
      locationLength := (file.take (pathLen - 1)).length
      errorFile := none }
  | none => st

/-- The loop of `process_request`, with the rounds that are left. -/
def requestLoop (env : RequestEnv) (req : Request) (c : Control) :
    ℕ → RequestState → ℤ × RequestState
  | 0, st => (1, { st with status := 500 })
  | n + 1, st =>
    match processPathTranslated env req c (useErrorFile st) with
    | (s, st) =>
      if s = 1 ∧ (n = 0 ∨ st.errorFile.isSome) then requestLoop env req c n st else (s, st)

/-- `process_request`, after the headers and before the reply. -/
def processRequest (virtuals : List Virtual) (req : Request) : ℤ × RequestState :=
  match processPath env virtuals req with
  | .refused status => (1, { req.start with status := status })
  | .found c st =>
    if st.status ≠ 0 ∧ st.errorFile = none then (1, st) else requestLoop env req c 3 st

end

end Wbr1310.Httpd
