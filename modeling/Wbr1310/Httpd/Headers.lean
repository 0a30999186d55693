import Wbr1310.Httpd.Request
import Wbr1310.Lib.Bytes

/-!
# The header block of a request

`process_headers` and what it calls, from `request.c` and `util.c`. It works in place: the lines
of the block are ended with zeros, and the record of the request points into the block. All
positions count from the floor of the buffer. The dates and ranges of GET requests are left out.
-/

namespace Wbr1310.Httpd

open Lib Lib.Bytes

/-- The loop of `getline` over the `n` bytes from `s` on; `sp` is where the spaces at the end
began, if `f`. The results are the block and the new start. -/
def getlineFrom (fold : Bool) : ℕ → Bytes → ℕ → ℕ → Bool → Option (Bytes × ℕ)
  | 0, _, _, _, _ => none
  | n + 1, b, s, sp, f =>
    let c := byteAt b s
    let sp' := if f then sp else s
    if c = 10 ∧ (n = 0 ∨ fold = false ∨ (byteAt b (s + 1) ≠ 32 ∧ byteAt b (s + 1) ≠ 9)) then
      some (b.set sp' 0, s + 1)
    else if c = 10 ∨ c = 13 ∨ c = 9 then getlineFrom fold n (b.set s 32) (s + 1) sp' true
    else if c = 32 then getlineFrom fold n b (s + 1) sp' true
    else getlineFrom fold n b (s + 1) sp false

/-- `getline`; the line begins at the start. -/
def getline (b : Bytes) (start : ℕ) (fold : Bool) : Option (Bytes × ℕ) :=
  getlineFrom fold (b.length - start) b start start false

/-- The first line that is not empty, and the start after it. -/
def firstLine : ℕ → Bytes → ℕ → Option (Bytes × ℕ × ℕ)
  | 0, _, _ => none
  | n + 1, b, start => match getline b start false with
    | none => none
    | some (b', start') =>
      if byteAt b' start = 0 then firstLine n b' start' else some (b', start, start')

/-- The headers with a field of their own in the record. -/
inductive NamedHeader where
  | userAgent
  | referer
  | authorization
  | host
  | ims
  | ius
  | range
  | ifRange
  | contentType
  | contentLength
  | transferEncoding
  deriving DecidableEq, Repr

/-- The strings of the record, as pointers into the block or as what they point to. -/
structure HeaderFields (π : Type) where
  methodS : π
  url : π
  version : π
  args : Option π
  headers : List (π × π)
  named : NamedHeader → Option π
  multiBoundary : Option π

def HeaderFields.map {π ρ : Type} (g : π → ρ) (r : HeaderFields π) : HeaderFields ρ where
  methodS := g r.methodS
  url := g r.url
  version := g r.version
  args := r.args.map g
  headers := r.headers.map fun h => (g h.1, g h.2)
  named k := (r.named k).map g
  multiBoundary := r.multiBoundary.map g

/-- The state while the lines are read: the block, where the next line starts, and the record. -/
structure HeaderState where
  block : Bytes
  start : ℕ
  fields : HeaderFields ℕ
  protocolMajor : ℕ
  protocolMinor : ℕ
  keepalive : Bool
  sendContinue : Bool

/-- The method, the URL, its arguments and the version; each ends where the next one begins. -/
def requestLine (b : Bytes) (l : ℕ) : Option (Bytes × HeaderFields ℕ) :=
  match strchr b l 32 with
  | none => none
  | some u =>
    let b := b.set u 0
    let url := u + 1
    match strrchr b url 72 with
    | none => none
    | some s =>
      if s = url ∨ byteAt b (s - 1) ≠ 32 then none
      else
        let b := b.set (s - 1) 0
        let fields : HeaderFields ℕ := ⟨l, url, s, none, [], fun _ => none, none⟩
        match strchr b url 63 with
        | none => some (b, fields)
        | some q => some (b.set q 0, { fields with args := some (q + 1) })

def http : Bytes := ascii ['H', 'T', 'T', 'P']

/-- `parse_http_version`: the two numbers. -/
def parseHttpVersion (v : Bytes) : Option (ℕ × ℕ) :=
  let skip (s : Bytes) : Bytes := s.dropWhile (· = 32)
  -- a number stands behind `c` and spaces, and its sign is not `-`
  let numberAfter (c : UInt8) (s : Bytes) : Option (ℕ × Bytes) := match skip s with
    | [] => none
    | d :: t => if d = c ∧ (skip t).head? ≠ some 45 then strtoul (skip t) else none
  if v.take 4 = http then
    match numberAfter 47 (v.drop 4) with
    | none => none
    | some (major, rest) => match numberAfter 46 rest with
      | some (minor, []) =>
        if major = 0 ∨ 2 ^ 31 - 1 < major ∨ 2 ^ 31 - 1 < minor then none else some (major, minor)
      | _ => none
  else none

/-- The loop of `header_list_next` to the end of an item; a quote behind a backslash does not end
a quoted string. -/
def headerItemLength : Bool → UInt8 → Bytes → ℕ
  | _, _, [] => 0
  | quoted, last, c :: s =>
    if c = 44 ∧ quoted = false then 0
    else
      headerItemLength (if c = 34 ∧ (quoted = false ∨ last ≠ 92) then !quoted else quoted) c s + 1

/-- `header_list_next`: the item without the spaces at its end, and what follows. -/
def headerListNext (s : Bytes) : Bytes × Bytes :=
  let s := s.dropWhile fun c => c = 44 || c = 32
  let item := ((s.take (headerItemLength false 0 s)).reverse.dropWhile (· = 32)).reverse
  (item, s.drop item.length)

/-- The items of a header, in at most `n` rounds. -/
def headerItems : ℕ → Bytes → List Bytes
  | 0, _ => []
  | n + 1, s =>
    let (item, rest) := headerListNext s
    if item = [] then [] else item :: headerItems n rest

def keepAlive : Bytes := ascii ['k', 'e', 'e', 'p', '-', 'a', 'l', 'i', 'v', 'e']

def close : Bytes := ascii ['c', 'l', 'o', 's', 'e']

def parseConnectionHeader (keepalive : Bool) (s : Bytes) : Bool :=
  (headerItems s.length s).foldl (fun k item =>
    if EqIgnoreCase item keepAlive then true else if EqIgnoreCase item close then false else k)
    keepalive

def continue100 : Bytes := ascii ['1', '0', '0', '-', 'c', 'o', 'n', 't', 'i', 'n', 'u', 'e']

/-- `parse_expect_header`: there is an item, or another one than `100-continue`. -/
def parseExpectHeader (s : Bytes) : Option Bool :=
  let items := headerItems s.length s
  if ∀ item ∈ items, EqIgnoreCase item continue100 then some (items ≠ []) else none

/-- `sanitize_host` on a string of its own. -/
def sanitizeHost (s : Bytes) : Bytes :=
  let host := s.takeWhile (· ≠ 58)
  if host.getLast? = some 46 then lower host.dropLast else lower host

/-- `sanitize_host` in place: the string ends at a colon, and a dot before that is cut off. -/
def sanitizeHostAt (b : Bytes) (p : ℕ) : Bytes :=
  let host := (str b p).takeWhile (· ≠ 58)
  let ending := p + host.length
  let b' := (b.mapIdx fun i c => if p ≤ i ∧ i < ending then toLower c else c).set ending 0
  if host.getLast? = some 46 then b'.set (ending - 1) 0 else b'

namespace HeaderState

def point (st : HeaderState) (k : NamedHeader) (v : ℕ) : HeaderState :=
  { st with fields := { st.fields with named := Function.update st.fields.named k (some v) } }

end HeaderState

def multipartFormData : Bytes :=
  ascii ['m', 'u', 'l', 't', 'i', 'p', 'a', 'r', 't', '/', 'f', 'o', 'r', 'm', '-', 'd', 'a', 't',
    'a', ';']

def boundaryIs : Bytes := ascii ['b', 'o', 'u', 'n', 'd', 'a', 'r', 'y', '=']

section

variable (numHeaders l v : ℕ) (st : HeaderState)

/-- A line Content-Type whose value is at `v`. A zero is put behind the type of a multipart
body, and the boundary is looked for one byte further. -/
def contentTypeLine : HeaderState :=
  if BeginsIgnoreCase multipartFormData (str st.block v) then
    let l := v + 20
    let st := { st with block := st.block.set l 0 }
    if BeginsIgnoreCase boundaryIs (str st.block (l + 1)) then
      { st with fields := { st.fields with multiBoundary := some (l + 1 + 9) } }.point
        .contentType v
    else st.point .contentType v
  else st.point .contentType v

def authorizationName : Bytes :=
  ascii ['A', 'u', 't', 'h', 'o', 'r', 'i', 'z', 'a', 't', 'i', 'o', 'n']

def headerName (name : Bytes) : Option NamedHeader :=
  if EqIgnoreCase name (ascii ['U', 's', 'e', 'r', '-', 'a', 'g', 'e', 'n', 't']) then
    some .userAgent
  else if EqIgnoreCase name (ascii ['R', 'e', 'f', 'e', 'r', 'e', 'r']) then some .referer
  else if EqIgnoreCase name authorizationName then some .authorization
  else if EqIgnoreCase name (ascii ['H', 'o', 's', 't']) then some .host
  else if EqIgnoreCase name
      (ascii ['I', 'f', '-', 'M', 'o', 'd', 'i', 'f', 'i', 'e', 'd', '-', 'S', 'i', 'n', 'c',
        'e']) then
    some .ims
  else if EqIgnoreCase name
      (ascii ['I', 'f', '-', 'U', 'n', 'm', 'o', 'd', 'i', 'f', 'i', 'e', 'd', '-', 'S', 'i', 'n',
        'c', 'e']) then
    some .ius
  else if EqIgnoreCase name (ascii ['R', 'a', 'n', 'g', 'e']) then some .range
  else if EqIgnoreCase name (ascii ['I', 'f', '-', 'R', 'a', 'n', 'g', 'e']) then some .ifRange
  else none

/-- A line that is kept in the list of headers, as long as there is room. -/
def otherHeader : Except ℕ HeaderState :=
  let name := str st.block l
  let st := if st.fields.headers.length < numHeaders then
      { st with fields := { st.fields with headers := st.fields.headers ++ [(l, v)] } }
    else st
  match headerName name with
  | none => .ok st
  | some k =>
    if k = .host then .ok ({ st with block := sanitizeHostAt st.block v }.point .host v)
    else if k = .range ∧ (st.fields.named .range).isSome then .error 400
    else .ok (st.point k v)

def connectionName : Bytes := ascii ['C', 'o', 'n', 'n', 'e', 'c', 't', 'i', 'o', 'n']

def expectName : Bytes := ascii ['E', 'x', 'p', 'e', 'c', 't']

def contentTypeName : Bytes :=
  ascii ['C', 'o', 'n', 't', 'e', 'n', 't', '-', 'T', 'y', 'p', 'e']

def contentLengthName : Bytes :=
  ascii ['C', 'o', 'n', 't', 'e', 'n', 't', '-', 'L', 'e', 'n', 'g', 't', 'h']

def transferEncodingName : Bytes :=
  ascii ['T', 'r', 'a', 'n', 's', 'f', 'e', 'r', '-', 'E', 'n', 'c', 'o', 'd', 'i', 'n', 'g']

/-- A line with the name at `l` and the value at `v`. -/
def namedLine : Except ℕ HeaderState :=
  let name := str st.block l
  let value := str st.block v
  if EqIgnoreCase name connectionName then
    .ok { st with keepalive := parseConnectionHeader st.keepalive value }
  else if EqIgnoreCase name keepAlive then .ok st
  else if EqIgnoreCase name expectName then
    match parseExpectHeader value with
    | none => .error 417
    | some expected => .ok { st with sendContinue := st.sendContinue || expected }
  else if EqIgnoreCase name contentTypeName then .ok (contentTypeLine v st)
  else if EqIgnoreCase name contentLengthName then .ok (st.point .contentLength v)
  else if EqIgnoreCase name transferEncodingName then .ok (st.point .transferEncoding v)
  else otherHeader numHeaders l v st

/-- The line at `l`: the name ends at a colon, and spaces in front of the value are skipped. -/
def headerLine : Except ℕ HeaderState :=
  match strchr st.block l 58 with
  | none => .ok st
  | some colon =>
    let b := st.block.set colon 0
    let v := skip b (colon + 1) 32
    if byteAt b v = 0 then .ok { st with block := b }
    else namedLine numHeaders l v { st with block := b }

/-- The lines behind the request line, in at most `n` rounds. -/
def headerLines (numHeaders : ℕ) : ℕ → HeaderState → Except ℕ HeaderState
  | 0, st => .ok st
  | n + 1, st => match getline st.block st.start true with
    | none => .ok st
    | some (b, start) =>
      match headerLine numHeaders st.start { st with block := b, start := start } with
      | .error status => .error status
      | .ok st' => headerLines numHeaders n st'

def hexDigit (c : UInt8) : UInt8 := if c ≤ 57 then c - 48 else (c &&& 7) + 9

def unescapeUrl : Bytes → Option Bytes
  | [] => some []
  | 37 :: x1 :: x2 :: s =>
    if isXDigit x1 && isXDigit x2 then
      (unescapeUrl s).map (((hexDigit x1 <<< 4) + hexDigit x2) :: ·)
    else none
  | c :: s => if c = 37 then none else (unescapeUrl s).map (c :: ·)

/-- What is left of an URL for the path, and the host in an absolute one. -/
def splitUrl (url : Bytes) : Option (Option Bytes × Option Bytes) :=
  if url.head? = some 47 then some (none, some url)
  else match url.dropWhile (· ≠ 47) with
    | 47 :: 47 :: c :: rest =>
      if c = 47 then none
      else
        let rhost := (c :: rest).takeWhile (· ≠ 47)
        let path := (c :: rest).dropWhile (· ≠ 47)
        some (some (sanitizeHost rhost), if path = [] then none else some path)
    | _ => none

/-- What `process_headers` leaves in the record. -/
structure RequestRecord (π : Type) where
  fields : HeaderFields π
  method : Method
  protocolMajor : ℕ
  protocolMinor : ℕ
  keepalive : Bool
  rhost : Option Bytes
  path : Bytes
  inMblen : ℕ

def RequestRecord.map {π ρ : Type} (g : π → ρ) (r : RequestRecord π) : RequestRecord ρ where
  fields := r.fields.map g
  method := r.method
  protocolMajor := r.protocolMajor
  protocolMinor := r.protocolMinor
  keepalive := r.keepalive
  rhost := r.rhost
  path := r.path
  inMblen := r.inMblen

def parseMethod (s : Bytes) : Option Method :=
  if s = ascii ['G', 'E', 'T'] then some .get
  else if s = ascii ['H', 'E', 'A', 'D'] then some .head
  else if s = ascii ['P', 'O', 'S', 'T'] then some .post
  else none

def contentLengthValue (s : Bytes) : Option ℕ :=
  if s.head? = some 45 then none
  else match strtoul s with
    | some (n, []) => if n < 2 ^ 32 - 1 then some n else none
    | _ => none

def chunked : Bytes := ascii ['c', 'h', 'u', 'n', 'k', 'e', 'd']

/-- `in_content_length` after the look at Transfer-Encoding, which leaves none. -/
def transferCoding (b : Bytes) (fields : HeaderFields ℕ) : Except ℕ (HeaderFields ℕ) :=
  match fields.named .transferEncoding with
  | none => .ok fields
  | some te =>
    if EqIgnoreCase (str b te) chunked then
      .ok { fields with named := Function.update fields.named .contentLength none }
    else .error 501

/-- The checks that `process_headers` makes when all lines are read. -/
def checkHeaders : Except ℕ (RequestRecord ℕ) :=
  let b := st.block
  match parseMethod (str b st.fields.methodS) with
  | none => .error 501
  | some method =>
    let url := str b st.fields.url
    if strLen < url.length then .error 414
    else match splitUrl url with
      | none => .error 400
      | some (rhost, s) =>
        let host := rhost.orElse fun _ => (st.fields.named .host).map (str b)
        if host = none ∧ st.protocolMinor = 1 then .error 400
        else if host = some [] then .error 400
        else match (s.map unescapeUrl).getD (some [47]) with
          | none => .error 400
          | some path =>
            if 1 < st.protocolMajor ∨ (st.protocolMajor = 1 ∧ 1 < st.protocolMinor) then .error 505
            else match transferCoding b st.fields with
              | .error status => .error status
              | .ok fields =>
                match (fields.named .contentLength).map fun p => contentLengthValue (str b p) with
                | some none => .error 400
                | length =>
                  if method = .post ∧ length = none then .error 411
                  else .ok
                    { fields := fields
                      method := method
                      protocolMajor := st.protocolMajor
                      protocolMinor := st.protocolMinor
                      keepalive := st.keepalive
                      rhost := rhost
                      path := Buffer.cut path
                      inMblen := (length.getD none).getD 0 }

/-- Whether `100 Continue` is sent; not if more input was received. -/
def sendsContinue (sendContinue more : Bool) (r : RequestRecord ℕ) : Bool :=
  sendContinue && !(r.protocolMinor = 0 && r.protocolMajor = 1) &&
    (((r.fields.named .contentLength).isSome && r.inMblen ≠ 0) ||
      (r.fields.named .transferEncoding).isSome) && !more

/-- What comes of `process_headers`: -1, a status, or a record, with the block and the new start,
for which the result is 1, or -1 if there is a boundary. -/
inductive HeadersVerdict where
  | failed
  | replied (status : ℕ)
  | accepted (b : Bytes) (start : ℕ) (r : RequestRecord ℕ) (sendContinue : Bool)

/-- `process_headers` on the block up to `middle`; `more` says that input follows it. -/
def processHeaders (more : Bool) (b : Bytes) (start : ℕ) : HeadersVerdict :=
  match firstLine b.length b start with
  | none => .failed
  | some (b, l, start) => match requestLine b l with
    | none => .failed
    | some (b, fields) => match parseHttpVersion (str b fields.version) with
      | none => .replied 400
      | some (major, minor) =>
        match headerLines numHeaders b.length
            ⟨b, start, fields, major, minor, decide (major ≠ 0 ∧ minor ≠ 0), false⟩ with
        | .error status => .replied status
        | .ok st => match checkHeaders st with
          | .error status => .replied status
          | .ok r => .accepted st.block st.start r (sendsContinue st.sendContinue more r)

/-- The block and the record of a request that is accepted. -/
def acceptedRequest (head : Bytes) : Option (Bytes × RequestRecord ℕ) :=
  match processHeaders numHeaders false head 0 with
  | .accepted b _ r _ => some (b, r)
  | .failed | .replied _ => none

end

/-- Where the request line begins: empty lines in front of it are skipped. -/
def requestStart (head : Bytes) : ℕ :=
  match firstLine head.length head 0 with
  | some (_, l, _) => l
  | none => 0

end Wbr1310.Httpd
