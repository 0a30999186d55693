import Wbr1310.Lib.Buffer
import Wbr1310.Lib.Machine

/-!
# The rules of the static NAT

`/proc/net/static_nat` takes the commands `add` and `flush`. A line is read with `get_str` and
`get_value`, which leave an array on the stack as it is if a word does not fit, and go over
characters that do not belong to a number. No rule is refused for its numbers. Devices are what
`dev_get_by_name` returns.
-/

namespace Wbr1310.StaticNat

open Lib Buffer

/-- `struct nat_tbl_t`, without `replied`, which is set by a search and read right after it. -/
structure NatTbl (Dev : Type*) where
  rxDev : Dev
  rxPortrangeBegin : UInt16
  rxPortrangeEnd : UInt16
  txDev : Dev
  txNewIp : UInt32
  txPortrangeBegin : UInt16
  txPortrangeEnd : UInt16
  deriving DecidableEq, Repr

/-- The rules and the lock. -/
structure NatState (Dev : Type*) where
  table : List (NatTbl Dev)
  lock : ℕ

def ascii (s : String) : List UInt8 := s.toList.map Char.toUInt8

def blank : UInt8 := 0x20

def newline : UInt8 := 0x0a

def dot : UInt8 := 0x2e

def IsDigit (c : UInt8) : Prop := 0x30 ≤ c ∧ c ≤ 0x39

instance : DecidablePred IsDigit := fun _ => inferInstanceAs (Decidable (_ ∧ _))

def BeginsWord (c : UInt8) : Prop :=
  (0x61 ≤ c ∧ c ≤ 0x7a) ∨ (0x41 ≤ c ∧ c ≤ 0x5a) ∨ IsDigit c ∨ c = dot

instance : DecidablePred BeginsWord := fun _ => inferInstanceAs (Decidable (_ ∨ _))

/-- The loop of `get_str`, with `i`, `j` and `state`. -/
def scanStr : List UInt8 → ℕ → ℕ → Bool → ℕ × ℕ
  | [], i, j, _ => (i, j)
  | c :: cs, i, j, state =>
    if state = false ∧ c = blank then scanStr cs (i + 1) (j + 1) false
    else
      let state := state || decide (BeginsWord c)
      if state = true ∧ (c = blank ∨ c = newline) then (i, j) else scanStr cs (i + 1) j state

/-- `get_str`: how far it went, and the string in the array, which held `str`. -/
def getStr (buf str : List UInt8) (strLen : ℕ) : ℕ × List UInt8 :=
  let (i, j) := scanStr buf 0 0 false
  (i, if i - j + 1 ≤ strLen then cut ((buf.drop j).take (i - j)) else str)

/-- The loop of `get_value`, with `i`, `num` and `state`. -/
def scanValue : List UInt8 → ℕ → UInt32 → Bool → ℕ × UInt32
  | [], i, num, _ => (i, num)
  | c :: cs, i, num, state =>
    if IsDigit c then scanValue cs (i + 1) (num * 10 + (c - 0x30).toUInt32) true
    else if state = true ∧ c = blank then (i, num)
    else scanValue cs (i + 1) num state

def getValue (buf : List UInt8) : ℕ × UInt32 := scanValue buf 0 0 false

def xdigit (c : UInt8) : Option UInt32 :=
  if IsDigit c then some (c - 0x30).toUInt32
  else if 0x61 ≤ c ∧ c ≤ 0x66 then some (c - 0x57).toUInt32
  else if 0x41 ≤ c ∧ c ≤ 0x46 then some (c - 0x37).toUInt32
  else none

/-- The loop of `simple_strtoul`. -/
def strtoulFrom (base : UInt32) : List UInt8 → UInt32 → UInt32 × List UInt8
  | [], result => (result, [])
  | c :: cs, result => match xdigit c with
    | some value =>
      if value < base then strtoulFrom base cs (result * base + value) else (result, c :: cs)
    | none => (result, c :: cs)

/-- `simple_strtoul` with base 0. -/
def simpleStrtoul (s : List UInt8) : UInt32 × List UInt8 :=
  match s with
  | 0x30 :: 0x78 :: c :: cs =>
    if (xdigit c).isSome then strtoulFrom 16 (c :: cs) 0 else strtoulFrom 8 (0x78 :: c :: cs) 0
  | 0x30 :: cs => strtoulFrom 8 cs 0
  | cs => strtoulFrom 10 cs 0

/-- `simple_strtol` with base 0. -/
def simpleStrtol (s : List UInt8) : UInt32 × List UInt8 :=
  match s with
  | 0x2d :: cs =>
    let (number, rest) := simpleStrtoul cs
    (0 - number, rest)
  | cs => simpleStrtoul cs

/-- `string_to_number` from 0 to 255: the number, or what was there before. -/
def stringToNumber (s : List UInt8) (before : UInt32) : UInt32 :=
  let (number, rest) := simpleStrtol s
  if rest = [] ∧ s ≠ [] ∧ number ≤ 255 then number else before

/-- The bytes of an address, `n` of them with a dot behind. -/
def octets : ℕ → List UInt8 → UInt32 → Option (List UInt8)
  | 0, p, onebyte => some [(stringToNumber p onebyte).toUInt8]
  | n + 1, p, onebyte =>
    if dot ∈ p then
      let onebyte := stringToNumber (p.takeWhile (· ≠ dot)) onebyte
      (octets n ((p.dropWhile (· ≠ dot)).drop 1) onebyte).map (onebyte.toUInt8 :: ·)
    else none

/-- What the stack holds before it is written: the three arrays, `onebyte`, and what stands behind
the copy of an address up to the next zero. -/
structure Stack where
  cmd : List UInt8
  ifname : List UInt8
  txIpStr : List UInt8
  onebyte : UInt32
  behind : List UInt8

/-- `dotted_to_addr`; the copy has room for 19 bytes. -/
def dottedToAddr (stack : Stack) (dotted : List UInt8) : Option UInt32 :=
  let buf := if dotted.length < 19 then dotted else dotted.take 19 ++ stack.behind
  (octets 3 buf stack.onebyte).map fun bs => bs.foldl (fun a b => a * 256 + b.toUInt32) 0

/-- What comes of the arguments of `add`: a device is unknown, the null pointer for an address is
followed, or there is a rule. -/
inductive Parsed (Dev : Type*) where
  | out
  | fault
  | rule (tbl : NatTbl Dev)

section Write

variable {Dev : Type*} (devGetByName : List UInt8 → Option Dev)

/-- The arguments of `add`. -/
def parseAdd (stack : Stack) (buf : List UInt8) : Parsed Dev :=
  let (i, ifname) := getStr buf stack.ifname 8
  match devGetByName ifname with
  | none => .out
  | some rxDev =>
    let buf := buf.drop i
    let (i, rxBegin) := getValue buf
    let buf := buf.drop i
    let (i, rxEnd) := getValue buf
    let buf := buf.drop i
    let (i, ifname) := getStr buf ifname 8
    match devGetByName ifname with
    | none => .out
    | some txDev =>
      let buf := buf.drop i
      let (i, txIpStr) := getStr buf stack.txIpStr 32
      match dottedToAddr stack txIpStr with
      | none => .fault
      | some ip =>
        let buf := buf.drop i
        let (i, txBegin) := getValue buf
        let (_, txEnd) := getValue (buf.drop i)
        .rule ⟨rxDev, rxBegin.toUInt16, rxEnd.toUInt16, txDev, ip, txBegin.toUInt16,
          txEnd.toUInt16⟩

/-- A write to the file: what is written, what the stack holds, and whether there is memory. -/
structure ProcWrite where
  buf : List UInt8
  stack : Stack
  kmalloc : Bool

/-- `static_nat_write_proc`. The lock is given back, unless the null pointer was followed. -/
def staticNatWriteProc (s : NatState Dev) (w : ProcWrite) : NatState Dev :=
  if w.buf = [] then s
  else
    let (i, cmd) := getStr w.buf w.stack.cmd 8
    if cmd = ascii "ADD" ∨ cmd = ascii "add" then
      match parseAdd devGetByName w.stack (w.buf.drop i) with
      | .out => s
      | .fault => { s with lock := s.lock + 1 }
      | .rule tbl => if w.kmalloc then { s with table := s.table ++ [tbl] } else s
    else if cmd = ascii "FLUSH" ∨ cmd = ascii "flush" then { s with table := [] }
    else s

def natRules (writes : List ProcWrite) : NatState Dev :=
  Machine.run (staticNatWriteProc devGetByName) ⟨[], 0⟩ writes

end Write

end Wbr1310.StaticNat
