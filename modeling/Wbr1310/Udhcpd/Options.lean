import Mathlib

/-!
# Options of a DHCP packet

The model of `options.c`. The three fields that can hold options are functions
from positions to bytes, so that reading past the end of a field is reading the
memory behind it, whatever that holds. The target is big-endian: `htonl` and
`ntohl` are the identity.
-/

namespace Wbr1310.Udhcpd

abbrev Chaddr := BitVec 128

def dhcpPadding : UInt8 := 0x00
def dhcpHostName : UInt8 := 0x0c
def dhcpRequestedIp : UInt8 := 0x32
def dhcpLeaseTime : UInt8 := 0x33
def dhcpOptionOver : UInt8 := 0x34
def dhcpMessageType : UInt8 := 0x35
def dhcpServerId : UInt8 := 0x36
def dhcpEnd : UInt8 := 0xFF

/-- `OPTION_FIELD`, `FILE_FIELD` and `SNAME_FIELD`. -/
inductive Field where
  | options
  | file
  | sname
  deriving DecidableEq, Repr

/-- The size of a field in `struct dhcpMessage`. -/
def Field.length : Field → ℕ
  | options => 308
  | file => 128
  | sname => 64

/-- A received packet: the address of the client, the address it says it has, and the options. -/
structure Packet where
  chaddr : Chaddr
  ciaddr : UInt32
  field : Field → ℕ → UInt8

namespace Packet

/-- The variables `curr`, `i` and `over` of `get_option`. -/
structure Cursor where
  curr : Field
  i : ℕ
  overload : UInt8

/-- What one round of the loop of `get_option` comes to. -/
inductive Scan where
  | found (f : Field) (i : ℕ)
  | missing
  | more (c : Cursor)

/-- One round of the loop of `get_option`. -/
def scan (p : Packet) (code : UInt8) (c : Cursor) : Scan :=
  let optionptr := p.field c.curr
  let length := c.curr.length
  if length ≤ c.i then .missing
  else if optionptr c.i = code then
    if length ≤ c.i + 1 + (optionptr (c.i + 1)).toNat then .missing
    else .found c.curr (c.i + 2)
  else if optionptr c.i = dhcpPadding then .more { c with i := c.i + 1 }
  else if optionptr c.i = dhcpOptionOver then
    if length ≤ c.i + 1 + (optionptr (c.i + 1)).toNat then .missing
    -- the step takes the second byte of the field as the length of this option
    else .more { c with i := c.i + ((optionptr 1).toNat + 2), overload := optionptr (c.i + 3) }
  else if optionptr c.i = dhcpEnd then
    match c.curr with
    | .options => if c.overload &&& 1 ≠ 0 then .more { c with curr := .file, i := 0 } else .missing
    | .file => if c.overload &&& 2 ≠ 0 then .more { c with curr := .sname, i := 0 } else .missing
    | .sname => .missing
  else .more { c with i := c.i + ((optionptr (c.i + 1)).toNat + 2) }

/-- The rounds of `get_option`, as many as the first argument allows. -/
def getOptionFrom (p : Packet) (code : UInt8) : ℕ → Cursor → Option (Field × ℕ)
  | 0, _ => none
  | n + 1, c => match p.scan code c with
    | .found f i => some (f, i)
    | .missing => none
    | .more c' => getOptionFrom p code n c'

/-- The cursor `get_option` starts with. -/
def Cursor.first : Cursor := ⟨.options, 0, 0⟩

/-- `get_option`: the field and the position of the data of the first option with the code. -/
def getOption (p : Packet) (code : UInt8) : Option (Field × ℕ) :=
  p.getOptionFrom code 503 .first

def Cursor.left (c : Cursor) : ℕ :=
  (c.curr.length - c.i) + match c.curr with
    | .options => 194
    | .file => 65
    | .sname => 0

/-- The cursor moves on in its field, or to the start of the field behind it. -/
inductive Cursor.Moves (c c' : Cursor) : Prop where
  | within (hcurr : c'.curr = c.curr) (hi : c.i < c'.i)
  | toFile (hcurr : c.curr = .options) (hcurr' : c'.curr = .file)
  | toSname (hcurr : c.curr = .file) (hcurr' : c'.curr = .sname)

theorem scan_moves {p : Packet} {code : UInt8} {c c' : Cursor} (h : p.scan code c = .more c') :
    c.i < c.curr.length ∧ c.Moves c' := by
  simp only [scan] at h
  by_cases hi : c.curr.length ≤ c.i
  · rw [if_pos hi] at h
    cases h
  rw [if_neg hi] at h
  refine ⟨Nat.lt_of_not_le hi, ?_⟩
  have hwithin {k : ℕ} {o : UInt8} (hk : c.i < k) (he : Scan.more ⟨c.curr, k, o⟩ = .more c') :
      c.Moves c' := by
    obtain rfl := Scan.more.inj he
    exact .within rfl hk
  split at h
  · split at h <;> cases h
  split at h
  · exact hwithin (Nat.lt_succ_self _) h
  split at h
  · split at h
    · cases h
    · exact hwithin (by omega) h
  split at h
  · cases hcurr : c.curr with
    | options =>
      simp only [hcurr] at h
      split at h
      · obtain rfl := Scan.more.inj h
        exact .toFile hcurr rfl
      · cases h
    | file =>
      simp only [hcurr] at h
      split at h
      · obtain rfl := Scan.more.inj h
        exact .toSname hcurr rfl
      · cases h
    | sname =>
      simp only [hcurr] at h
      cases h
  · exact hwithin (by omega) h

theorem scan_left {p : Packet} {code : UInt8} {c c' : Cursor} (h : p.scan code c = .more c') :
    c'.left < c.left := by
  obtain ⟨hi, hmoves⟩ := scan_moves h
  cases hmoves with
  | within hcurr hlt =>
    rw [Cursor.left, Cursor.left, hcurr]
    omega
  | toFile hcurr hcurr' | toSname hcurr hcurr' =>
    rw [hcurr, Field.length] at hi
    simp only [Cursor.left, hcurr, hcurr', Field.length]
    omega

/-- The four bytes that `memcpy` copies from a position. -/
def word (p : Packet) (at' : Field × ℕ) : UInt32 :=
  let byte k := (p.field at'.1 (at'.2 + k)).toUInt32
  byte 0 <<< 24 ||| byte 1 <<< 16 ||| byte 2 <<< 8 ||| byte 3

def optionWord (p : Packet) (code : UInt8) : Option UInt32 := (p.getOption code).map p.word

/-- The host name option, as many bytes as the length byte before its data says. -/
def hostName (p : Packet) : Option (List UInt8) :=
  (p.getOption dhcpHostName).map fun (f, i) =>
    (List.range (p.field f (i - 1)).toNat).map fun k => p.field f (i + k)

end Packet

/-- The types of the option table. -/
inductive OptionType where
  | ip
  | string
  | u8
  | u16
  | u32
  | s32
  deriving DecidableEq, Repr

/-- `option_lengths`. -/
def OptionType.length : OptionType → ℕ
  | ip => 4
  | string => 1
  | u8 => 1
  | u16 => 2
  | u32 => 4
  | s32 => 4

/-- The table `options` with the type and the code of each option. -/
def options : List (OptionType × UInt8) :=
  [(.ip, 0x01), (.s32, 0x02), (.ip, 0x03), (.ip, 0x04), (.ip, 0x05), (.ip, 0x06), (.ip, 0x07),
    (.ip, 0x08), (.ip, 0x09), (.string, 0x0c), (.u16, 0x0d), (.string, 0x0f), (.ip, 0x10),
    (.string, 0x11), (.u8, 0x17), (.u16, 0x1a), (.ip, 0x1c), (.ip, 0x2a), (.ip, 0x2c),
    (.ip, 0x32), (.u32, 0x33), (.u8, 0x35), (.ip, 0x36), (.string, 0x38), (.string, 0x42),
    (.string, 0x43)]

/-- `end_option`: the position of the end option. The scan has no bound of its own. -/
def endOption (optionptr : ℕ → UInt8) : ℕ → ℕ → Option ℕ
  | 0, _ => none
  | n + 1, i =>
    if optionptr i = dhcpEnd then some i
    else if optionptr i = dhcpPadding then endOption optionptr n (i + 1)
    else endOption optionptr n (i + ((optionptr (i + 1)).toNat + 2))

def writeBytes (optionptr : ℕ → UInt8) (i : ℕ) (bytes : List UInt8) : ℕ → UInt8 := fun k =>
  if k < i then optionptr k else (bytes[k - i]?).getD (optionptr k)

/-- `add_option_string`, for an option given by its code and its data. -/
def addOptionString (fuel : ℕ) (optionptr : ℕ → UInt8) (code : UInt8) (data : List UInt8) :
    Option (ℕ → UInt8) := do
  let pos ← endOption optionptr fuel 0
  if 308 ≤ pos + data.length + 2 + 1 then pure optionptr
  else pure (writeBytes optionptr pos (code :: UInt8.ofNat data.length :: data ++ [dhcpEnd]))

/-- `add_simple_option`: the last entry of the table with the code gives the length. -/
def addSimpleOption (fuel : ℕ) (optionptr : ℕ → UInt8) (code : UInt8) (data : UInt32) :
    Option (ℕ → UInt8) :=
  let length := options.foldl (fun n o => if o.2 = code then o.1.length else n) 0
  if length = 0 then some optionptr
  else addOptionString fuel optionptr code
    ((List.range length).map fun k => (data >>> UInt32.ofNat (8 * (length - 1 - k))).toUInt8)

end Wbr1310.Udhcpd
