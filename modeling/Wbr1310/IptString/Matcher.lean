import Wbr1310.Lib.Buffer

/-!
# The matchers for URLs and HTTP requests

`match_URL` and `match_HTTP_REQ` work on the bytes of a TCP segment and on three arrays. Every
access is checked: to the segment against its `hlen` bytes, to the arrays against their sizes.
A pointer into the segment is the list of the bytes from there to its end, so that moving it by
`i` drops `i` bytes. A loop that counts up to a bound is given the rounds up to that bound.
-/

namespace Wbr1310.IptString

open Lib Buffer

abbrev Byte := UInt8

abbrev Cells := ℕ → Byte

/-- `line[256]` and `line_len`. -/
def lineLen : ℕ := 256

/-- `buff[256]` and `buff_len`. -/
def buffLen : ℕ := 256

/-- `url[512]`. -/
def urlLen : ℕ := 512

/-- `BM_MAX_NLEN`, the size of the array of the needle. -/
def bmMaxNlen : ℕ := 256

def ascii (s : String) : List Byte := s.toList.map Char.toUInt8

def cr : Byte := 0x0d
def lf : Byte := 0x0a
def blank : Byte := 0x20

/-- An array after `memset(.., 0, ..)`. -/
def cleared : Cells := fun _ => 0

/-- `strstr` on the string in an array. -/
def strstr (size : ℕ) (b : Cells) (pat : List Byte) : Checked (Option ℕ) := do
  let xs ← string size b
  pure (indexOf pat xs)

def IsBreak (c : Byte) : Prop := c = lf ∨ c = cr

instance : DecidablePred IsBreak := fun c => inferInstanceAs (Decidable (c = lf ∨ c = cr))

/-- At most `n` rounds of the loop that copies a line. -/
def copyLine (packet : List Byte) (len : ℕ) : ℕ → ℕ → Cells → Checked (ℕ × Cells)
  | 0, i, buffer => pure (i, buffer)
  | n + 1, i, buffer =>
    if i < len then do
      let c ← readList packet i
      if IsBreak c then pure (i, buffer)
      else do
        let buffer ← write lineLen buffer i c
        copyLine packet len n (i + 1) buffer
    else pure (i, buffer)

/-- At most `n` rounds of the loop that goes over the end of a line. -/
def skipBreaks (packet : List Byte) (len : ℕ) : ℕ → ℕ → Checked ℕ
  | 0, i => pure i
  | n + 1, i =>
    if i < len then do
      let c ← readList packet i
      if IsBreak c then skipBreaks packet len n (i + 1) else pure i
    else pure i

section

variable (line : Cells) (packet : List Byte) (dataLen : ℕ) (needle : Cells) (nlen : ℕ)

/-- The number of bytes that the returned pointer is further on, and the array. -/
def getOneLine (len : ℕ) (buffer : Cells) (bufflen : ℕ) : Checked (ℕ × Cells) := do
  let (i, buffer) ← copyLine packet len bufflen 0 buffer
  let buffer ← write lineLen buffer i 0
  let i ← skipBreaks packet len (len - i) i
  pure (i, buffer)

def lowerByte (c : Byte) : Byte := if 0x41 ≤ c ∧ c ≤ 0x5a then c + 32 else c

/-- `n` rounds, from `i` on, of a loop that lowers the letters of an array. -/
def lowerCells (size : ℕ) : ℕ → ℕ → Cells → Checked Cells
  | 0, _, b => pure b
  | n + 1, i, b => do
    let c ← read size b i
    let b ← write size b i (lowerByte c)
    lowerCells size n (i + 1) b

/-- The names that `match_http_method` looks for. -/
def methodNames : List (List Byte) :=
  ["get", "post", "head", "put", "delete", "options", "trace", "connect"].map ascii

def anyOccurs (line : Cells) : List (List Byte) → Checked Bool
  | [] => pure false
  | name :: names => do
    let p ← strstr lineLen line name
    if p.isSome then pure true else anyOccurs line names

def matchHttpMethod : Checked Bool := anyOccurs line methodNames

def matchHttpReq : Checked Bool :=
  if 16 < packet.length then do
    let (i, line) ← getOneLine packet packet.length cleared lineLen
    if 12 < i then do
      let line ← lowerCells lineLen lineLen 0 line
      matchHttpMethod line
    else pure false
  else pure false

/-- At most `n` rounds of a loop that copies from the line up to a blank or the end of the
string, and below the limit if there is one. The line is read before `i` is compared with the
limit. -/
def copyWord (size : ℕ) (limit : Option ℕ) (line : Cells) (start : ℕ) :
    ℕ → ℕ → Cells → Checked (ℕ × Cells)
  | 0, _, _ => .error .rounds
  | n + 1, i, b => do
    let c ← read lineLen line (start + i)
    if c ≠ blank ∧ c ≠ 0 ∧ limit.all (i < ·) then do
      let b ← write size b i c
      copyWord size limit line start n (i + 1) b
    else pure (i, b)

/-- `buff` and its length. -/
def copyUri (start : ℕ) : Checked (ℕ × Cells) :=
  copyWord buffLen (some (buffLen - 1)) line start (lineLen + 1) 0 cleared

/-- `url` with the host, and its length. -/
def copyHost (start : ℕ) : Checked (ℕ × Cells) :=
  copyWord urlLen none line start (lineLen + 1) 0 cleared

/-- `n` rounds, from `i` on, of `url[dest+i]=buff[source+i]`. -/
def copyBuff (buff : Cells) (source dest : ℕ) : ℕ → ℕ → Cells → Checked Cells
  | 0, _, url => pure url
  | n + 1, i, url => do
    let c ← read buffLen buff (source + i)
    let url ← write urlLen url (dest + i) c
    copyBuff buff source dest n (i + 1) url

/-- The proxy case: `url` and `data_url_len`. -/
def proxyUrl (buff : Cells) (dataBuffLen : ℕ) : Checked (Cells × ℤ) := do
  let url ← copyBuff buff 7 0 dataBuffLen 0 cleared
  let url ← write urlLen url dataBuffLen 0
  pure (url, (dataBuffLen : ℤ))

/-- The host in the line and the URI after it: `url` and `data_url_len`. -/
def hostUrl (start : ℕ) (buff : Cells) (dataBuffLen : ℕ) : Checked (Cells × ℤ) := do
  let (dataUrlLen, url) ← copyHost line start
  let url ← copyBuff buff 0 dataUrlLen dataBuffLen 0 url
  let url ← write urlLen url (dataUrlLen + dataBuffLen) 0
  pure (url, (dataUrlLen : ℤ) + ((dataBuffLen : ℤ) - 1))

/-- At most `n` rounds of `while(data_len>6)`: `url` and `data_url_len`. -/
def hostLoop (buff : Cells) (dataBuffLen : ℕ) : ℕ → List Byte → ℕ → Checked (Cells × ℤ)
  | 0, _, dataLen => if 6 < dataLen then .error .rounds else pure (cleared, 0)
  | n + 1, packet, dataLen =>
    if 6 < dataLen then do
      let (i, line) ← getOneLine packet dataLen cleared lineLen
      let line ← lowerCells lineLen lineLen 0 line
      let p ← strstr lineLen line (ascii "host: ")
      match p with
      | some p => hostUrl line (p + 6) buff dataBuffLen
      | none => hostLoop buff dataBuffLen n (packet.drop i) (dataLen - i)
    else pure (cleared, 0)

def findUrl (proxy : Bool) (buff : Cells) (dataBuffLen : ℕ) (packet : List Byte) (dataLen : ℕ) :
    Checked (Cells × ℤ) :=
  if proxy then proxyUrl buff dataBuffLen
  else hostLoop buff dataBuffLen packet.length packet dataLen

/-- The search for the needle, whose letters are lowered in its array. -/
def searchUrl (url : Cells) (dataUrlLen : ℤ) (needle : Cells) (nlen : ℕ) :
    Checked (Bool × Cells) :=
  if (nlen : ℤ) ≤ dataUrlLen then do
    let needle ← lowerCells bmMaxNlen nlen 0 needle
    let pat ← string bmMaxNlen needle
    let p ← strstr urlLen url pat
    pure (p.isSome, needle)
  else pure (false, needle)

/-- `match_URL` after the method was found: `line` is the request line and `packet` what
follows it. -/
def matchUri : Checked (Bool × Cells) := do
  let p ← strstr lineLen line (ascii " /")
  match p with
  | none => pure (false, needle)
  | some p => do
    let (dataBuffLen, buff) ← copyUri line (p + 1)
    let buff ← write buffLen buff dataBuffLen 0
    let proxy ← strstr buffLen buff (ascii "http://")
    let (url, dataUrlLen) ← findUrl proxy.isSome buff dataBuffLen packet dataLen
    searchUrl url dataUrlLen needle nlen

def matchUrl : Checked (Bool × Cells) :=
  if 16 < packet.length then do
    let (i, line) ← getOneLine packet packet.length cleared lineLen
    if 12 < i then do
      let line ← lowerCells lineLen lineLen 0 line
      let http ← matchHttpMethod line
      if http then matchUri line (packet.drop i) (packet.length - i) needle nlen
      else pure (false, needle)
    else pure (false, needle)
  else pure (false, needle)

end

end Wbr1310.IptString
