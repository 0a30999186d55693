import Wbr1310.Httpd.Input

/-!
# The environment of a program

`make_cgi_envp` and `add_http_vars` from `cgi.c`. What `process_path`, the connection and the
configuration contribute is a parameter; memory does not run out.
-/

namespace Wbr1310.Httpd

open Lib Lib.Bytes

/-- What does not come from the header block: the user that `process_path` has found, the
translated path, the session, and what the connection and the configuration say. -/
structure CgiContext where
  user : Bytes
  passwd : Bytes
  pathTranslated : Bytes
  pathArgs : Bytes
  pathArgsTranslated : Bytes
  sessionid : Option ℤ
  realm : Option Bytes
  remoteAddr : Bytes
  remotePort : ℕ
  serverAddr : Bytes
  serverPort : ℕ
  serverVersion : Bytes
  exports : List (Bytes × Option Bytes)
  putenvs : List Bytes

/-- `add`: a variable, if it has a value. -/
def addVar (name : List Char) (value : Option Bytes) : List Bytes :=
  (value.map fun v => ascii name ++ 61 :: v).toList

def toUpper (c : UInt8) : UInt8 := if 97 ≤ c ∧ c ≤ 122 then c - 32 else c

def httpName (name : Bytes) : Bytes :=
  ascii ['H', 'T', 'T', 'P', '_'] ++ name.map fun c => if toUpper c = 45 then 95 else toUpper c

/-- `add_http_vars`, in at most `n` rounds: later headers of the same name are joined to the first.
The authorization of a user that is known is left out. -/
def httpVars (user : Bytes) : ℕ → List (Bytes × Bytes) → List Bytes
  | 0, _ => []
  | _, [] => []
  | n + 1, (name, value) :: headers =>
    if EqIgnoreCase name authorizationName ∧ user ≠ [] then httpVars user n headers
    else
      let (same, others) := headers.partition fun h => EqIgnoreCase h.1 name
      (httpName name ++ 61 :: value ++ same.flatMap fun h => 44 :: h.2) :: httpVars user n others

def decimal (n : ℕ) : Bytes := ascii (Text.decimal n)

/-- `%d`. -/
def decimalInt (z : ℤ) : Bytes := if z < 0 then 45 :: decimal z.natAbs else decimal z.natAbs

def RequestRecord.host (r : RequestRecord Bytes) : Option Bytes :=
  r.rhost.orElse fun _ => r.fields.named .host

/-- QUERY_STRING: the body of a POST request, behind its arguments. -/
def queryString (r : RequestRecord Bytes) (body : Bytes) : Option Bytes :=
  match r.method, r.fields.args with
  | .post, some args => some (args ++ 38 :: body)
  | .post, none => some body
  | .get, args | .head, args => args

/-- `make_cgi_envp`, for a request with the strings of its record and the string behind the header
block. -/
def makeCgiEnvp (ctx : CgiContext) (r : RequestRecord Bytes) (body : Bytes) : List Bytes :=
  let f := r.fields
  let known := ctx.user ≠ []
  httpVars ctx.user f.headers.length f.headers ++
  addVar ['G', 'A', 'T', 'E', 'W', 'A', 'Y', '_', 'I', 'N', 'T', 'E', 'R', 'F', 'A', 'C', 'E']
    (some (ascii ['C', 'G', 'I', '/', '1', '.', '1'])) ++
  addVar ['C', 'O', 'N', 'T', 'E', 'N', 'T', '_', 'L', 'E', 'N', 'G', 'T', 'H']
    (f.named .contentLength) ++
  addVar ['C', 'O', 'N', 'T', 'E', 'N', 'T', '_', 'T', 'Y', 'P', 'E'] (f.named .contentType) ++
  addVar ['A', 'U', 'T', 'H', '_', 'T', 'Y', 'P', 'E']
    (if known then some (ascii ['B', 'a', 's', 'i', 'c']) else none) ++
  addVar ['R', 'E', 'M', 'O', 'T', 'E', '_', 'U', 'S', 'E', 'R']
    (if known then some ctx.user else none) ++
  addVar ['R', 'E', 'M', 'O', 'T', 'E', '_', 'P', 'A', 'S', 'S', 'W', 'D']
    (if known ∧ ctx.passwd ≠ [] then some ctx.passwd else none) ++
  addVar ['S', 'C', 'R', 'I', 'P', 'T', '_', 'F', 'I', 'L', 'E', 'N', 'A', 'M', 'E']
    (some ctx.pathTranslated) ++
  addVar ['P', 'A', 'T', 'H', '_', 'I', 'N', 'F', 'O']
    (if ctx.pathArgs ≠ [] then some ctx.pathArgs else none) ++
  addVar ['P', 'A', 'T', 'H', '_', 'T', 'R', 'A', 'N', 'S', 'L', 'A', 'T', 'E', 'D']
    (if ctx.pathArgs ≠ [] then some ctx.pathArgsTranslated else none) ++
  addVar ['S', 'E', 'S', 'S', 'I', 'O', 'N', '_', 'I', 'D'] (ctx.sessionid.map decimalInt) ++
  addVar ['Q', 'U', 'E', 'R', 'Y', '_', 'S', 'T', 'R', 'I', 'N', 'G'] (queryString r body) ++
  addVar ['R', 'E', 'A', 'L', 'M'] ctx.realm ++
  addVar ['R', 'E', 'Q', 'U', 'E', 'S', 'T', '_', 'U', 'R', 'I']
    (some (f.url ++ (f.args.map (63 :: ·)).getD [])) ++
  addVar ['R', 'E', 'M', 'O', 'T', 'E', '_', 'A', 'D', 'D', 'R'] (some ctx.remoteAddr) ++
  addVar ['R', 'E', 'M', 'O', 'T', 'E', '_', 'P', 'O', 'R', 'T'] (some (decimal ctx.remotePort)) ++
  addVar ['R', 'E', 'Q', 'U', 'E', 'S', 'T', '_', 'M', 'E', 'T', 'H', 'O', 'D'] (some f.methodS) ++
  addVar ['S', 'C', 'R', 'I', 'P', 'T', '_', 'N', 'A', 'M', 'E']
    (some (r.path.take (r.path.length - ctx.pathArgs.length))) ++
  addVar ['S', 'E', 'R', 'V', 'E', 'R', '_', 'N', 'A', 'M', 'E'] r.host ++
  addVar ['S', 'E', 'R', 'V', 'E', 'R', '_', 'A', 'D', 'D', 'R'] (some ctx.serverAddr) ++
  addVar ['S', 'E', 'R', 'V', 'E', 'R', '_', 'P', 'O', 'R', 'T'] (some (decimal ctx.serverPort)) ++
  addVar ['S', 'E', 'R', 'V', 'E', 'R', '_', 'S', 'O', 'F', 'T', 'W', 'A', 'R', 'E']
    (some ctx.serverVersion) ++
  addVar ['S', 'E', 'R', 'V', 'E', 'R', '_', 'P', 'R', 'O', 'T', 'O', 'C', 'O', 'L']
    (some (ascii ['H', 'T', 'T', 'P', '/'] ++ decimal r.protocolMajor ++ 46 ::
      decimal r.protocolMinor)) ++
  ctx.exports.flatMap (fun e => (e.2.map fun v => e.1 ++ 61 :: v).toList) ++
  ctx.putenvs

/-- The strings of a request that `process_path` is called for, and the one behind its header
block. -/
def InputPhase.request (size : ℕ) : InputPhase → Option (RequestRecord Bytes × Bytes)
  | .processed p r => some (r.map (p.str size), p.str size p.middle)
  | .reading _ _ | .closed | .multipart _ _ | .replied _ => none

/-- The environment of the program that the request is handed to; `processPath` stands for what
`process_path` makes of the strings. -/
def InputPhase.environment (size : ℕ) (processPath : RequestRecord Bytes → CgiContext)
    (ph : InputPhase) : Option (List Bytes) :=
  (ph.request size).map fun q => makeCgiEnvp (processPath q.1) q.1 q.2

end Wbr1310.Httpd
