import Wbr1310.Httpd.Headers
import Wbr1310.Httpd.UploadBody

/-!
# The input of a connection

`read_connection`, `scan_request` and the beginning of `process_request`, from `core.c` and
`request.c`. The header block and the body of a request that has no boundary are read into the
same buffer, `header_input`, and `process_request` is called again until the body is there.
-/

namespace Wbr1310.Httpd

open Lib Lib.Bytes

/-- The states of `scan_request`, in the order of their numbers. -/
inductive ScanPhase where
  | start
  | word
  | space
  | return
  | header
  | headerReturn
  | line
  | lineReturn
  | done
  deriving DecidableEq, Repr

/-- `header_input`: the memory from the floor of the buffer on, the positions, and `state`. -/
structure Pool where
  mem : ℤ → UInt8
  start : ℕ
  middle : ℕ
  ending : ℕ
  state : ScanPhase

def Pool.fresh (mem : ℤ → UInt8) : Pool := ⟨mem, 0, 0, 0, .start⟩

section

variable (size numHeaders : ℕ) (p : Pool) (record : Option (RequestRecord ℕ))

/-- A full buffer is moved to its floor, from `start` on; if that is the floor, the connection is
closed. -/
def makeRoom : Option Pool :=
  if p.ending ≠ size then some p
  else if p.start = 0 then none
  else some
    { p with
      mem := writeMem p.mem 0 (bytes p.mem p.start (p.ending - p.start))
      start := 0
      middle := p.middle - p.start
      ending := p.ending - p.start }

/-- `read_connection`. A zero is written behind what was read, and a result of -1 counts there
too. -/
def readConnection (r : ReadResult) : Option Pool :=
  match makeRoom size p with
  | none => none
  | some p => match r with
    | .again => some { p with mem := Function.update p.mem (p.ending - 1) 0 }
    | .error => none
    | .bytes bs =>
      let got := bs.take (size - p.ending)
      if got = [] then none
      else some
        { p with
          mem := Function.update (writeMem p.mem p.ending got) (p.ending + got.length) 0
          ending := p.ending + got.length }

/-- One character in `scan_request`. -/
def scanChar : ScanPhase → UInt8 → ScanPhase
  | .start, c => if c = 13 ∨ c = 10 then .start else if c = 32 ∨ c = 9 then .space else .word
  | .word, c =>
    if c = 32 ∨ c = 9 then .space
    else if c = 13 then .return else if c = 10 then .done else .word
  | .space, c =>
    if c = 72 then .header
    else if c = 32 ∨ c = 9 then .space
    else if c = 13 then .return else if c = 10 then .done else .word
  | .return, c =>
    if c = 10 then .done
    else if c = 32 ∨ c = 9 then .space
    else if c = 13 then .return else .word
  | .header, c => if c = 13 then .headerReturn else if c = 10 then .line else .header
  | .headerReturn, c => if c = 13 then .headerReturn else if c = 10 then .line else .header
  | .line, c => if c = 13 then .lineReturn else if c = 10 then .done else .header
  | .lineReturn, c => if c = 13 then .lineReturn else if c = 10 then .done else .header
  | .done, _ => .done

/-- The loop of `scan_request`: the state and what is left, unless there is a zero. -/
def scan : ScanPhase → Bytes → Option (ScanPhase × Bytes)
  | st, [] => some (st, [])
  | st, c :: s =>
    if st = .done then some (st, c :: s)
    else if c = 0 then none
    else scan (scanChar st c) s

/-- What becomes of the input: it is read on, with the record that `process_headers` has made;
the connection is closed; the body is left to `read_multipart`; the request is answered with a
status; or `process_path` is called for it. -/
inductive InputPhase where
  | reading (p : Pool) (record : Option (RequestRecord ℕ))
  | closed
  | multipart (p : Pool) (r : RequestRecord ℕ)
  | replied (status : ℕ)
  | processed (p : Pool) (r : RequestRecord ℕ)

/-- The string at a position of the buffer; the last zero is behind it. -/
def Pool.str (i : ℕ) : Bytes := Buffer.cut (bytes p.mem i (size + 1 - i))

/-- The request waits for its body, which begins at `middle`. -/
def awaitBody (r : RequestRecord ℕ) : InputPhase :=
  if (p.str size p.middle).length < r.inMblen then .reading p (some r) else .processed p r

/-- `process_request` to the call of `process_path`, and what `scan_request` does if there is
none. -/
def Pool.processRequest : Option (RequestRecord ℕ) → InputPhase
  | some r => awaitBody size p r
  | none =>
    match processHeaders numHeaders (p.middle < p.ending) (bytes p.mem 0 p.middle) p.start with
    | .failed => .closed
    | .replied status => .replied status
    | .accepted b start r _ =>
      let p := { p with mem := writeMem p.mem 0 b, start := start }
      if r.fields.multiBoundary.isSome then .multipart p r else awaitBody size p r

def Pool.scanRequest : InputPhase :=
  match scan p.state (bytes p.mem p.middle (p.ending - p.middle)) with
  | none => .closed
  | some (st, rest) =>
    let p := { p with state := st, middle := p.ending - rest.length }
    if st = .done then p.processRequest size numHeaders record else .reading p record

/-- A connection is readable, as long as its input is read here. -/
def InputPhase.step (ph : InputPhase) (r : ReadResult) : InputPhase :=
  match ph with
  | .reading p record => match readConnection size p r with
    | none => .closed
    | some p => p.scanRequest size numHeaders record
  | .closed | .multipart _ _ | .replied _ | .processed _ _ => ph

end

end Wbr1310.Httpd
