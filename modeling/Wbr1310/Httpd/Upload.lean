import Wbr1310.Lib.Machine
import Wbr1310.Lib.Memory

/-!
# Uploads

The model of the global `upload_file` of the web server and of everything that touches it:
`read_multipart`, `scan_multipart` and `close_connection` of `core.c`, `process_internal`,
and `upload_image`, `upload_config` and `check_upgrad` of `upload.c`. All connections
share `upload_file`; the server handles one event at a time. What
`process_request` comes to for a request is part of the event, and so are the
results of `read` and `malloc`. `int`, `long` and `size_t` have 32 bits.
-/

namespace Wbr1310.Httpd

open Lib

/-- A pointer into a block, possibly outside of it. -/
structure Ptr where
  block : ℕ
  offset : ℤ
  deriving DecidableEq, Repr

/-- A block of the heap: its size, the memory around its first byte, and whether it is still
allocated. -/
structure HeapBlock where
  size : ℕ
  mem : ℤ → UInt8
  live : Bool

/-- `struct upload`. -/
structure Upload where
  filePtr : Option Ptr
  fileName : Option Ptr
  data : Option ℕ
  fileLength : ℤ
  length : ℤ
  flag : ℤ
  time : ℕ
  deriving DecidableEq, Repr

/-- `upload_file` after `memset`. -/
def Upload.zero : Upload := ⟨none, none, none, 0, 0, 0, 0⟩

/-- A request with a body in parts: the boundary, `content_length`, the number in the header
Content-Length as `process_headers` accepted it (its test for a sign is passed by a number
after a vertical tab), and what was read of the body with the headers. -/
structure Multipart where
  boundary : List UInt8
  contentLength : ℤ
  inContentLength : Option ℤ
  body : List UInt8

/-- The states of a connection; one that is read has a boundary or not. -/
inductive Connection where
  | free
  | reading
  | multipart (m : Multipart)
  | writing

/-- A range of bytes handed to `read` or `memcpy` as destination, the size of the block, and
whether it is allocated. -/
structure Access where
  span : Span
  size : ℕ
  live : Bool
  deriving DecidableEq, Repr

/-- What `upload_image` has checked and `check_upgrad` burns. -/
structure Passed where
  filePtr : Option Ptr
  fileLength : ℤ
  bytes : List UInt8
  deriving DecidableEq, Repr

/-- Entries of the record: a destination was written, an image was accepted, an image was
burnt while its block was allocated or not. -/
inductive Entry where
  | access (a : Access)
  | accepted (p : Passed)
  | burnt (p : Passed) (live : Bool)
  deriving DecidableEq, Repr

/-- The state of the server; it stops when it follows a null pointer. -/
structure Mathopd where
  upload : Upload
  blocks : ℕ → HeapBlock
  nextBlock : ℕ
  connections : ℕ → Connection
  now : ℕ
  running : Bool
  log : List Entry

/-- The configuration and `v2_image_check`, on the memory from its argument on. -/
structure MathopdEnv where
  maxUploadsize : ℕ
  imageCheck : (ℤ → UInt8) → ℤ → Bool

/-- The state at the start; `flag` is -1. -/
def Mathopd.start : Mathopd where
  upload := { Upload.zero with flag := -1 }
  blocks _ := ⟨0, fun _ => 0, false⟩
  nextBlock := 0
  connections _ := .free
  now := 0
  running := true
  log := []

namespace Mathopd

def setConnection (s : Mathopd) (cn : ℕ) (c : Connection) : Mathopd :=
  { s with connections := Function.update s.connections cn c }

def record (s : Mathopd) (e : Entry) : Mathopd := { s with log := e :: s.log }

/-- Free the block of an upload, if there is one, and clear `upload_file`. -/
def freeUpload (s : Mathopd) : Mathopd :=
  { s with
    upload := .zero
    blocks := match s.upload.data with
      | some b => Function.update s.blocks b { s.blocks b with live := false }
      | none => s.blocks }

def closeConnection (s : Mathopd) (cn : ℕ) : Mathopd :=
  (if s.upload.flag = 0 ∧ s.upload.data.isSome then s.freeUpload else s).setConnection cn .free

end Mathopd

def matchesAt (mem : ℤ → UInt8) (pat : List UInt8) (i : ℤ) : Prop := bytes mem i pat.length = pat

instance (mem : ℤ → UInt8) (pat : List UInt8) (i : ℤ) : Decidable (matchesAt mem pat i) :=
  inferInstanceAs (Decidable (_ = _))

/-- The loop of `strnstr` over the `n` bytes from a position on. -/
def strnstrFrom (mem : ℤ → UInt8) (pat : List UInt8) : ℕ → ℤ → Option ℤ
  | 0, _ => none
  | n + 1, i =>
    if pat.length ≤ n + 1 ∧ matchesAt mem pat i then some i else strnstrFrom mem pat n (i + 1)

/-- `strnstr`: the first position of the pattern within `size` bytes. -/
def strnstr (mem : ℤ → UInt8) (pat : List UInt8) (i size : ℤ) : Option ℤ :=
  if pat = [] then none else strnstrFrom mem pat size.toNat i

/-- The variables of `scan_multipart`, with the fields of `upload_file` it sets and the
memory of the block. -/
structure ScanState where
  pStart : ℤ
  fileSect : Bool
  filePtr : Option Ptr
  fileName : Option Ptr
  fileLength : ℤ
  mem : ℤ → UInt8

def contentDisposition : List UInt8 :=
  [67, 111, 110, 116, 101, 110, 116, 45, 68, 105, 115, 112, 111, 115, 105, 116, 105, 111, 110]

def filenameIs : List UInt8 := [102, 105, 108, 101, 110, 97, 109, 101, 61]

/-- A position is looked up from `pStart` to the end of the buffer. -/
def ScanState.find (s : ScanState) (bufEnd : ℤ) (pat : List UInt8) : Option ℤ :=
  strnstr s.mem pat s.pStart (bufEnd - s.pStart)

/-- The quoted file name and the empty line that ends the head of a part. The quote behind
the name is overwritten with zero. -/
def scanFilename (b : ℕ) (bufEnd : ℤ) (s : ScanState) : ScanState :=
  match s.find bufEnd [34] with
  | none => s
  | some pEnd =>
    let named : ScanState :=
      { s with
        fileName := some ⟨b, s.pStart⟩
        pStart := pEnd + 1
        mem := Function.update s.mem pEnd 0 }
    match named.find bufEnd [13, 10, 13, 10] with
    | none => named
    | some pEnd =>
      { named with
        pStart := pEnd + 4
        filePtr := some ⟨b, pEnd + 4⟩
        fileSect := true }

/-- The round of the loop of `scan_multipart` for a boundary that was found at `pEnd`. -/
def scanPart (boundary : List UInt8) (b : ℕ) (bufEnd pEnd : ℤ) (s : ScanState) : ScanState :=
  let closed : ScanState :=
    { s with
      fileLength := if s.fileSect then pEnd - (s.filePtr.map Ptr.offset).getD 0 - 4
        else s.fileLength
      fileSect := false
      pStart := pEnd + boundary.length }
  match closed.find bufEnd contentDisposition with
  | none => closed
  | some pEnd =>
    let found := { closed with pStart := pEnd + 19 }
    match found.find bufEnd filenameIs with
    | none => found
    | some pEnd => scanFilename b bufEnd { found with pStart := pEnd + 10 }

/-- The loop of `scan_multipart`, in at most `n` rounds. -/
def scanFrom (boundary : List UInt8) (b : ℕ) (bufEnd : ℤ) : ℕ → ScanState → ScanState
  | 0, s => s
  | n + 1, s => match s.find bufEnd boundary with
    | none => s
    | some pEnd => scanFrom boundary b bufEnd n (scanPart boundary b bufEnd pEnd s)

theorem strnstrFrom_bounds {mem : ℤ → UInt8} {pat : List UInt8} {n : ℕ} {i k : ℤ}
    (h : strnstrFrom mem pat n i = some k) : i ≤ k ∧ k < i + n := by
  induction n generalizing i with
  | zero => cases h
  | succ n ih =>
    simp only [strnstrFrom] at h
    split at h
    · obtain rfl := Option.some.inj h
      omega
    · have := ih h
      omega

theorem ScanState.find_bounds {s : ScanState} {bufEnd k : ℤ} {pat : List UInt8}
    (h : s.find bufEnd pat = some k) : s.pStart ≤ k ∧ k < bufEnd ∧ 0 < pat.length := by
  simp only [ScanState.find, strnstr] at h
  split at h
  · cases h
  · next hpat =>
    have := strnstrFrom_bounds h
    have := List.length_pos_iff.mpr hpat
    omega

namespace Mathopd

/-- What `scan_multipart` makes of the data that was read. -/
def scanData (env : MathopdEnv) (s : Mathopd) (boundary : List UInt8) : Mathopd :=
  match s.upload.data with
  | none => s
  | some b =>
    -- `length` is compared with the unsigned limit
    if s.upload.length ≠ 0 ∧ s.upload.length % 2 ^ 32 < env.maxUploadsize then
      let scanned := scanFrom boundary b s.upload.length (s.upload.length.toNat + 1)
        { pStart := 0
          fileSect := false
          filePtr := s.upload.filePtr
          fileName := s.upload.fileName
          fileLength := s.upload.fileLength
          mem := (s.blocks b).mem }
      { s with
        upload := { s.upload with
          filePtr := scanned.filePtr
          fileName := scanned.fileName
          fileLength := scanned.fileLength }
        blocks := Function.update s.blocks b { s.blocks b with mem := scanned.mem } }
    else s

/-- What `v2_image_check` and `v2_burn_image` are given. -/
def passed (s : Mathopd) : Passed where
  filePtr := s.upload.filePtr
  fileLength := s.upload.fileLength
  bytes := match s.upload.filePtr with
    | some p => bytes (s.blocks p.block).mem p.offset s.upload.fileLength.toNat
    | none => []

/-- `v2_image_check` refuses a null pointer. -/
def imageOk (env : MathopdEnv) (s : Mathopd) : Bool :=
  match s.upload.filePtr with
  | some p => env.imageCheck (fun i => (s.blocks p.block).mem (p.offset + i)) s.upload.fileLength
  | none => false

end Mathopd

/-- The requests that `process_internal` knows; a configuration is taken or not. -/
inductive Internal where
  | uploadImage
  | uploadConfig (ok : Bool)
  | other

namespace Mathopd

/-- `upload_image` has accepted the image. -/
def acceptImage (s : Mathopd) : Mathopd :=
  { s with upload := { s.upload with flag := 1, time := s.now } }.record (.accepted s.passed)

/-- `upload_config` has taken the configuration. -/
def acceptConfig (s : Mathopd) : Mathopd :=
  { s with upload := { s.upload with flag := 2, time := s.now } }

/-- `process_internal` with `upload_image` and `upload_config`, which follows `file_ptr`. -/
def processInternal (env : MathopdEnv) (s : Mathopd) : Internal → Mathopd
  | .uploadImage => if s.imageOk env then s.acceptImage else s.freeUpload
  | .uploadConfig ok =>
    if s.upload.filePtr = none then { s with running := false }
    else if ok then s.acceptConfig
    else s.freeUpload
  | .other => s.freeUpload

end Mathopd

/-- What `process_request` comes to: an internal request is answered, the request is
answered with a status and a `content_length`, something else answers it, or it fails. -/
inductive Outcome where
  | internal (i : Internal)
  | reply (contentLength : ℤ)
  | other
  | failed

namespace Mathopd

/-- The end of `scan_multipart`. A connection whose request is answered with a status is
not set to writing, so it is read again. -/
def finishMultipart (env : MathopdEnv) (s : Mathopd) (cn : ℕ) (m : Multipart) : Outcome → Mathopd
  | .internal i => (s.processInternal env i).setConnection cn .writing
  | .reply contentLength =>
    s.setConnection cn (.multipart { m with contentLength := contentLength })
  | .other => s.setConnection cn .writing
  | .failed => s.closeConnection cn

def scanMultipart (env : MathopdEnv) (s : Mathopd) (cn : ℕ) (m : Multipart) (o : Outcome) :
    Mathopd :=
  (s.scanData env m.boundary).finishMultipart env cn m o

end Mathopd

/-- The results of `read`: nothing yet, an error, or bytes; no bytes mean the end of the stream. -/
inductive ReadResult where
  | again
  | error
  | bytes (bs : List UInt8)

/-- `atoi` of the number in the header. -/
def atoi (n : ℤ) : ℤ := max (-2 ^ 31) (min n (2 ^ 31 - 1))

def writeMem (mem : ℤ → UInt8) (i : ℤ) (bs : List UInt8) : ℤ → UInt8 := fun k =>
  if i ≤ k ∧ k < i + bs.length then (bs[(k - i).toNat]?).getD 0 else mem k

/-- `content_length` is over the limit, as an unsigned number. -/
def overLimit (env : MathopdEnv) (contentLength : ℤ) : Prop :=
  (env.maxUploadsize : ℤ) < contentLength % 2 ^ 32

instance (env : MathopdEnv) (contentLength : ℤ) : Decidable (overLimit env contentLength) :=
  inferInstanceAs (Decidable (_ < _))

def uploadSize (env : MathopdEnv) (contentLength : ℤ) : ℕ :=
  if overLimit env contentLength then env.maxUploadsize else (contentLength % 2 ^ 32).toNat

/-- The destination of `read`: the whole block again when `content_length` is over the
limit, else what is missing, as an unsigned number. -/
def readSpan (env : MathopdEnv) (contentLength length : ℤ) : Span :=
  if overLimit env contentLength then ⟨0, env.maxUploadsize⟩
  else ⟨length, ((contentLength - length) % 2 ^ 32).toNat⟩

namespace Mathopd

section

variable (env : MathopdEnv) (s : Mathopd) (cn : ℕ) (m : Multipart) (b : ℕ) (r : ReadResult)
  (o : Outcome)

/-- The block for a body of `cl` bytes is allocated, and what was read with the headers is
moved to it if it fits. `fresh` is what the memory held before. -/
def allocate (cl : ℤ) (body : List UInt8) (fresh : ℤ → UInt8) : Mathopd :=
  let size := uploadSize env cl
  let b := s.nextBlock
  if body.length ≠ 0 ∧ body.length ≤ size then
    { s with
      upload := { s.upload with data := some b, length := body.length }
      blocks := Function.update s.blocks b ⟨size, writeMem fresh 0 body, true⟩
      nextBlock := b + 1
      log := .access ⟨⟨0, body.length⟩, size, true⟩ :: s.log }
  else
    { s with
      upload := { s.upload with data := some b }
      blocks := Function.update s.blocks b ⟨size, fresh, true⟩
      nextBlock := b + 1 }

/-- `read` is called with its destination. -/
def readCall : Mathopd :=
  s.record (.access
    ⟨readSpan env m.contentLength s.upload.length, (s.blocks b).size, (s.blocks b).live⟩)

/-- `read` has stored bytes in the block. -/
def fill (start : ℤ) (got : List UInt8) : Mathopd :=
  { s with
    upload := { s.upload with length := (s.upload.length + got.length).bmod (2 ^ 32) }
    blocks := Function.update s.blocks b
      { s.blocks b with mem := writeMem (s.blocks b).mem start got } }

/-- The part of `read_multipart` from `read` on, with the block `b`. -/
def readBody : Mathopd :=
  let span := readSpan env m.contentLength s.upload.length
  let called := s.readCall env m b
  match r with
  | .again => called
  | .error => called.closeConnection cn
  | .bytes bs =>
    let got := bs.take span.length
    if got = [] then called.closeConnection cn
    else
      let filled := called.fill b span.start got
      if m.contentLength ≤ filled.upload.length then filled.scanMultipart env cn m o else filled

/-- `read_multipart`. Without a Content-Length `atoi` gets a null pointer. -/
def readMultipart (malloc : Option (ℤ → UInt8)) (o : Outcome) : Mathopd :=
  match s.upload.data with
  | some b => s.readBody env cn m b r o
  | none => match m.inContentLength, malloc with
    | none, _ => { s with running := false }
    | some _, none => s.closeConnection cn
    | some n, some fresh =>
      let m' := { m with contentLength := atoi n }
      ((s.allocate env (atoi n) m.body fresh).setConnection cn (.multipart m')).readBody env cn
        m' s.nextBlock r o

def fileLive : Bool :=
  (s.upload.filePtr.map fun p => (s.blocks p.block).live).getD false

/-- `v2_burn_image` is called. -/
def burnCall : Mathopd := s.record (.burnt s.passed s.fileLive)

/-- `v2_burn_image` has succeeded. -/
def burnDone : Mathopd := { s with upload := { s.upload with flag := 0 } }

/-- `check_upgrad`; burning succeeds or not. -/
def checkUpgrad (burnOk : Bool) : Mathopd :=
  if s.now - s.upload.time < 4 then s
  else if s.upload.flag = 1 then if burnOk then s.burnCall.burnDone else s.burnCall
  else s

end

end Mathopd

/-- What happens to the server, one connection at a time. -/
inductive MathopdEvent where
  /-- A connection is accepted, or begins a new request. -/
  | accept (cn : ℕ)
  /-- The headers of a request with a boundary are complete. -/
  | headers (cn : ℕ) (boundary : List UInt8) (contentLength : Option ℤ) (body : List UInt8)
  /-- A connection with a boundary is readable. -/
  | readable (cn : ℕ) (r : ReadResult) (malloc : Option (ℤ → UInt8)) (o : Outcome)
  /-- A request without a boundary is complete. -/
  | request (cn : ℕ) (o : Outcome)
  /-- A connection is closed. -/
  | close (cn : ℕ)
  /-- Time passes. -/
  | tick (seconds : ℕ)
  /-- The main loop comes around. -/
  | poll (burnOk : Bool)

namespace Mathopd

def finishRequest (env : MathopdEnv) (s : Mathopd) (cn : ℕ) : Outcome → Mathopd
  | .internal i => (s.processInternal env i).setConnection cn .writing
  | .reply _ => s.setConnection cn .writing
  | .other => s.setConnection cn .writing
  | .failed => s.closeConnection cn

def handle (env : MathopdEnv) (s : Mathopd) : MathopdEvent → Mathopd
  | .accept cn => match s.connections cn with
    | .free | .writing => s.setConnection cn .reading
    | .reading | .multipart _ => s
  | .headers cn boundary contentLength body => match s.connections cn with
    | .reading => s.setConnection cn (.multipart ⟨boundary, -1, contentLength, body⟩)
    | .free | .multipart _ | .writing => s
  | .readable cn r malloc o => match s.connections cn with
    | .multipart m => s.readMultipart env cn m r malloc o
    | .free | .reading | .writing => s
  | .request cn o => match s.connections cn with
    | .reading => s.finishRequest env cn o
    | .free | .multipart _ | .writing => s
  | .close cn => match s.connections cn with
    | .free => s
    | .reading | .multipart _ | .writing => s.closeConnection cn
  | .tick seconds => { s with now := s.now + seconds }
  | .poll burnOk => if 0 < s.upload.flag then s.checkUpgrad burnOk else s

def step (env : MathopdEnv) (s : Mathopd) (e : MathopdEvent) : Mathopd :=
  if s.running then s.handle env e else s

def runEvents (env : MathopdEnv) (events : List MathopdEvent) : Mathopd :=
  Machine.run (step env) .start events

end Mathopd

end Wbr1310.Httpd
