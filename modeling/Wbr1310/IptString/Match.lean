import Wbr1310.IptString.Matcher

/-!
# The match of a rule

`match` of `ipt_string.c` with its two searches, and the options of `libipt_string.c` that make
the `ipt_string_info` of a rule. The payload of a packet is what follows its IP header; its
length is `hlen`. The word `match` is a keyword here, hence `matchSkb`.
-/

namespace Wbr1310.IptString

open Lib Buffer

/-- `BM_MAX_HLEN`, the size of the tables. -/
def bmMaxHlen : ℕ := 1024

abbrev Table := ℕ → ℤ

def readAt {α : Type} (size : ℕ) (b : ℕ → α) (i : ℤ) : Checked α :=
  if 0 ≤ i then read size b i.toNat else .error .bounds

def writeAt (t : Table) (i v : ℤ) : Checked Table :=
  if 0 ≤ i then write bmMaxHlen t i.toNat v else .error .bounds

/-- `(int)c`, where a `char` has a sign. -/
def signed (c : Byte) : ℤ := if c < 0x80 then c.toNat else (c.toNat : ℤ) - 256

/-- At most `n` rounds of the loop that fills `skip` from the needle. -/
def setSkip (needle : Cells) (m1 : ℤ) : ℕ → ℕ → Table → Checked Table
  | 0, _, _ => .error .rounds
  | n + 1, i, skip => do
    let c ← read bmMaxNlen needle i
    if c = 0 then pure skip
    else do
      let skip ← writeAt skip (signed c) (m1 - i)
      setSkip needle m1 n (i + 1) skip

/-- At most `n` rounds of the comparison of the needle with itself, moved by `i`. -/
def overlap (needle : Cells) (m1 : ℤ) (i : ℕ) : ℕ → ℕ → Checked ℕ
  | 0, j => pure j
  | n + 1, j => do
    let a ← readAt bmMaxNlen needle (m1 - j)
    let b ← readAt bmMaxNlen needle (m1 - i - j)
    if a = b then overlap needle m1 i n (j + 1) else pure j

/-- `n` rounds, from `i` on, of the loop that fills `len`. -/
def setLen (needle : Cells) (nlen : ℕ) : ℕ → ℕ → Table → Checked Table
  | 0, _, len => pure len
  | n + 1, i, len => do
    let j ← overlap needle ((nlen : ℤ) - 1) i nlen 0
    let len ← write bmMaxHlen len i (j : ℤ)
    setLen needle nlen n (i + 1) len

/-- The loop that goes down to 1 and fills `shift` from `len`. -/
def setShift (len : Table) : ℕ → Table → Checked Table
  | 0, shift => pure shift
  | i + 1, shift => do
    let l ← read bmMaxHlen len (i + 1)
    let shift ← writeAt shift l ((i : ℤ) + 1)
    setShift len i shift

/-- `n` rounds, from `i` on, of the loop with `ended`. -/
def endShift (len : Table) (m1 : ℤ) : ℕ → ℕ → ℕ → Table → Checked Table
  | 0, _, _, shift => pure shift
  | n + 1, i, ended, shift => do
    let l ← read bmMaxHlen len i
    let ended := if l = m1 - i then i else ended
    let shift ← if ended ≠ 0 then write bmMaxHlen shift i (ended : ℤ) else pure shift
    endShift len m1 n (i + 1) ended shift

def readPayload (haystack : List Byte) (i : ℤ) : Checked Byte :=
  if 0 ≤ i then readList haystack i.toNat else .error .bounds

/-- At most `n` rounds of the comparison from the right. -/
def compareRight (needle : Cells) (haystack : List Byte) (m1 rightEnd : ℤ) : ℕ → ℕ → Checked ℕ
  | 0, i => pure i
  | n + 1, i => do
    let a ← readPayload haystack (rightEnd - i)
    let b ← readAt bmMaxNlen needle (m1 - i)
    if a = b then compareRight needle haystack m1 rightEnd n (i + 1) else pure i

/-- At most `n` rounds of the search. -/
def searchRight (skip shift : Table) (needle : Cells) (nlen : ℕ) (haystack : List Byte) :
    ℕ → ℤ → Checked Bool
  | 0, rightEnd => if rightEnd < haystack.length then .error .rounds else pure false
  | n + 1, rightEnd =>
    if rightEnd < haystack.length then do
      let i ← compareRight needle haystack ((nlen : ℤ) - 1) rightEnd nlen 0
      if i = nlen then pure true
      else do
        let c ← readPayload haystack (rightEnd - i)
        let sk ← readAt bmMaxHlen skip (signed c)
        let sh ← read bmMaxHlen shift i
        searchRight skip shift needle nlen haystack n (max (rightEnd - i + sk) (rightEnd + sh))
    else pure false

/-- `search_sublinear`, as far as its result is compared with `NULL`. The tables keep what an
earlier search has left, but only `len[0]` is read before it is written, and its value does not
matter: `ended` is 0 in that round in any case. -/
def searchSublinear (needle : Cells) (nlen : ℕ) (haystack : List Byte) : Checked Bool := do
  let m1 := (nlen : ℤ) - 1
  let skip ← setSkip needle m1 (bmMaxNlen + 1) 0 fun _ => nlen
  let len ← setLen needle nlen (nlen - 1) 1 fun _ => 0
  let shift ← setShift len (nlen - 1) fun i => if i = 0 then 1 else nlen
  let shift ← endShift len m1 nlen 0 0 shift
  searchRight skip shift needle nlen haystack (haystack.length + 1) m1

/-- At most `n` rounds, from `t` on, of the loop with `memcmp`. -/
def linearFrom (needle haystack : List Byte) : ℕ → ℕ → Option ℕ
  | 0, _ => none
  | n + 1, t =>
    if (haystack.drop t).take needle.length = needle then some t
    else linearFrom needle haystack n (t + 1)

/-- `search_linear`; the needle is not longer than the packet. -/
def searchLinear (needle haystack : List Byte) : Option ℕ :=
  linearFrom needle haystack (haystack.length - needle.length + 1) 0

def iptStringHaystackThresh : ℕ := 100

def iptStringNeedleThresh : ℕ := 20

/-- `enum ipt_string_flags`. -/
inductive IptStringFlags where
  | genString
  | urlString
  | dnsString
  | httpReq
  deriving DecidableEq, Repr

/-- `struct ipt_string_info`; `len` is the length of the string. -/
structure IptStringInfo where
  string : List Byte
  invert : Bool
  flags : IptStringFlags
  deriving DecidableEq, Repr

/-- What follows the TCP header, by the length in its thirteenth byte; nothing if that is not
less than `hlen`. -/
def behindTcp (payload : List Byte) : Checked (List Byte) := do
  let c ← readList payload 12
  let doff := c.toNat / 16
  pure (payload.drop (doff * 4))

/-- `match`. -/
def matchSkb (info : IptStringInfo) (payload : List Byte) : Checked Bool :=
  if payload.length < info.string.length then pure false
  else match info.flags with
    | .urlString => do
      let haystack ← behindTcp payload
      if haystack ≠ [] then do
        let found ← matchUrl haystack (held info.string) info.string.length
        pure found.1
      else pure false
    | .httpReq => do
      let haystack ← behindTcp payload
      if haystack ≠ [] then matchHttpReq haystack else pure false
    | _ => do
      let found ←
        if iptStringHaystackThresh < payload.length ∧
            iptStringNeedleThresh < info.string.length ∧ payload.length < bmMaxHlen then
          searchSublinear (held info.string) info.string.length payload
        else pure (searchLinear info.string payload).isSome
      pure (found ^^ info.invert)

/-- `parse_string`: a string that is too long is refused. -/
def parseString (s : List Byte) : Option (List Byte) :=
  if s.length ≤ bmMaxNlen then some s else none

def dnsLabel (label : List Byte) : List Byte := UInt8.ofNat label.length :: label

/-- The loop of `parse_dns_string`: `label` is what was copied since `pdot`. -/
def dnsLabels : List Byte → List Byte → List Byte
  | label, [] => dnsLabel label
  | label, c :: s =>
    if c = 0x2e then dnsLabel label ++ dnsLabels [] s else dnsLabels (label ++ [c]) s

/-- `parse_dns_string`; the length of the result is taken with `strlen`. -/
def parseDnsString (s : List Byte) : Option (List Byte) :=
  if bmMaxNlen ≤ s.length then none else some (cut (dnsLabels [] (s.dropWhile (· = blank))))

/-- The argument of an option. An empty word is not there at all, so that the option takes the
`-j` that follows, and a lone `!` is taken for the inversion of what follows; in both cases the
target is a bad argument, and the rule is refused. -/
def argument (s : List Byte) : Option (List Byte) := if s = [] ∨ s = ascii "!" then none else some s

end Wbr1310.IptString
