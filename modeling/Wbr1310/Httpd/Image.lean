import Wbr1310.Lib.Loop
import Wbr1310.Lib.Memory

/-!
# Firmware images

The model of the functions of `upload.c` on an image: `v2_check_image_block`,
`v2_image_check` and `v2_burn_image`. An image is memory around its first byte together
with the size the functions are given, so that a read past its end reads what stands
there. `int`, `unsigned long` and `size_t` have 32 bits. Every range of bytes that a
function reads from the image is recorded. `upload.c` defines `DEBUG_MSG`; the file
the debug messages go to is taken to be open, so the messages read what they print.
-/

namespace Wbr1310.Httpd

open Lib

/-- `sizeof(imghdr2_t)`: a signature of 32 bytes and the magic number. -/
def sizeofImghdr2 : ℕ := 36

/-- `sizeof(imgblock_t)`: three words, the device name and the digest. -/
def sizeofImgblock : ℕ := 60

def maxSignature : ℕ := 32

/-- An image longer than its header, whose size is an `int`. -/
structure Image where
  mem : ℤ → UInt8
  size : ℕ
  header_lt : sizeofImghdr2 < size
  size_lt : size < 2 ^ 31

/-- The order of bytes and the digest. -/
structure Machine where
  order : ByteOrder
  md5 : List UInt8 → Vector UInt8 16

def cpuToLe (order : ByteOrder) (value : UInt32) : UInt32 :=
  match order with
  | .little => value
  | .big => ((value &&& 0x000000ff) <<< 24) ||| ((value &&& 0x0000ff00) <<< 8) |||
      ((value &&& 0x00ff0000) >>> 8) ||| ((value &&& 0xff000000) >>> 24)

def imgV2MagicNo : UInt32 := 0x20040220

/-- A block at a position: `imgblock_t` and the payload behind it. -/
structure ImgBlock where
  magic : UInt32
  size : UInt32
  offset : UInt32
  devname : List UInt8
  digest : List UInt8
  payload : List UInt8
  /-- The bytes of the field `offset`. -/
  offsetBytes : List UInt8
  deriving DecidableEq, Repr

variable (machine : Machine) (img : Image)

def blockAt (i : ℤ) : ImgBlock where
  magic := word machine.order img.mem i
  size := word machine.order img.mem (i + 4)
  offset := word machine.order img.mem (i + 8)
  devname := bytes img.mem (i + 12) 32
  digest := bytes img.mem (i + 44) 16
  payload := bytes img.mem (i + 60) (word machine.order img.mem (i + 4)).toNat
  offsetBytes := bytes img.mem (i + 8) 4

def ImgBlock.computed (b : ImgBlock) : List UInt8 :=
  (machine.md5 (b.offsetBytes ++ b.devname ++ b.payload)).toList

/-- The position behind a block, as an unsigned sum that is stored in an `int`. -/
def advance (offset : ℤ) (b : ImgBlock) : ℤ :=
  (offset + sizeofImgblock + b.size.toNat).bmod (2 ^ 32)

def outOfBoundary (offset : ℤ) (b : ImgBlock) : Prop :=
  (img.size : ℤ) < (offset + sizeofImgblock + b.size.toNat) % 2 ^ 32

instance (offset : ℤ) (b : ImgBlock) : Decidable (outOfBoundary img offset b) :=
  inferInstanceAs (Decidable (_ < _))

/-- The variables of `v2_check_image_block`, with the ranges read and the blocks whose digests
were found right. -/
structure CheckState where
  offset : ℤ
  block : Option ℤ
  reads : List Span
  verified : List ImgBlock

/-- What `v2_check_image_block` returns, read and found right. -/
structure CheckResult where
  ret : ℤ
  reads : List Span
  verified : List ImgBlock

/-- What is done behind the loop of `v2_check_image_block`. -/
def checkEnd (s : CheckState) : CheckResult :=
  if s.offset = img.size then ⟨0, s.reads, s.verified⟩
  else ⟨-1, s.reads ++ (s.block.map fun b => ⟨b, 16⟩).toList, s.verified⟩

/-- What the messages at the start of a round print of the block. -/
def headerReads (i : ℤ) (nameLength : ℕ) : List Span :=
  [⟨i, 12⟩, ⟨i + 12, nameLength + 1⟩, ⟨i + 44, 16⟩]

def digestReads (i : ℤ) (b : ImgBlock) : List Span :=
  [⟨i + 8, 4⟩, ⟨i + 12, 32⟩, ⟨i + 60, b.size.toNat⟩, ⟨i + 44, 16⟩]

section

variable (signature : List UInt8) (frame : ℤ → UInt8) (bound n : ℕ)

/-- One round of the loop of `v2_check_image_block`. A device name that does not end
within `bound` bytes is printed for ever. -/
def checkRound (s : CheckState) : Option (CheckState ⊕ CheckResult) :=
  if s.offset < img.size then
    match strlen img.mem bound (s.offset + 12) with
    | none => none
    | some nameLength =>
      let block := blockAt machine img s.offset
      let header : CheckState :=
        { s with block := some s.offset, reads := s.reads ++ headerReads s.offset nameLength }
      let hashed := { header with reads := header.reads ++ digestReads s.offset block }
      if block.magic ≠ cpuToLe machine.order imgV2MagicNo then some (.inr (checkEnd img header))
      else if outOfBoundary img s.offset block then some (.inr (checkEnd img header))
      else if block.computed machine ≠ block.digest then some (.inr (checkEnd img hashed))
      else some (.inl { hashed with
        offset := advance s.offset block
        verified := s.verified ++ [block] })
  else some (.inr (checkEnd img s))

/-- The variables at the start of `v2_check_image_block`. -/
def CheckState.first : CheckState := ⟨sizeofImghdr2, none, [], []⟩

/-- `v2_check_image_block`, within `n` rounds. -/
def v2CheckImageBlock : Option CheckResult :=
  Loop.run (checkRound machine img bound) n .first

/-- `strncmp(..) == 0` of two strings in memory. -/
def strncmpEq (a b : ℤ → UInt8) : ℕ → ℤ → Bool
  | 0, _ => true
  | n + 1, i => if a i ≠ b i then false else if a i = 0 then true else strncmpEq a b n (i + 1)

/-- `strncpy` to an array of 32 bytes on the stack; `frame` is the memory behind it. -/
def signatureArray : ℤ → UInt8 := fun i =>
  if 0 ≤ i ∧ i < maxSignature then ((signature.takeWhile fun b => b ≠ 0)[i.toNat]?).getD 0
  else frame i

/-- The loop that looks for an underscore from `i` on, in at most `n` rounds. -/
def findUnderscore (array : ℤ → UInt8) : ℕ → ℤ → ℤ
  | 0, i => i
  | n + 1, i => if array i ≠ 95 ∧ i < maxSignature then findUnderscore array n (i + 1) else i

/-- The array after "aLpHa" was written behind the underscore. -/
def alphaArray (array : ℤ → UInt8) (i : ℤ) : ℤ → UInt8 := fun k =>
  if 0 < k - i ∧ k - i ≤ 6 then ([97, 76, 112, 72, 97, 0][(k - i - 1).toNat]?).getD 0
  else array k

/-- `v2_image_check` compares the signature of the image with `g_signature` and with the
one for development boards, and checks the blocks. The second comparison ends at the zero
byte that was just written. -/
def signatureOk : Bool :=
  let array := signatureArray signature frame
  let i := findUnderscore array (maxSignature + 1) 0
  strncmpEq array img.mem maxSignature 0 ||
    (array i = 95 && strncmpEq (alphaArray array i) img.mem (i.toNat + 7) 0)

/-- `v2_image_check`, with the blocks found right. -/
def v2ImageCheck : Option CheckResult :=
  if word machine.order img.mem 32 = cpuToLe machine.order imgV2MagicNo ∧
      signatureOk img signature frame then v2CheckImageBlock machine img bound n
  else some ⟨-1, [], []⟩

end

/-- A block that is written to a device. -/
structure Write where
  devname : List UInt8
  offset : UInt32
  payload : List UInt8
  deriving DecidableEq, Repr

/-- The variables of `v2_burn_image`, with the number of devices opened so far, the
ranges read and what was written. -/
structure BurnState where
  offset : ℤ
  opened : ℕ
  reads : List Span
  writes : List Write

/-- What `v2_burn_image` returns, read and wrote. -/
structure BurnResult where
  ret : ℤ
  reads : List Span
  writes : List Write

/-- One round of the loop of `v2_burn_image`; `fopen` tells which devices can be opened. A
device name is a string of any length. -/
def burnRound (fopen : ℕ → Bool) (bound : ℕ) (s : BurnState) :
    Option (BurnState ⊕ BurnResult) :=
  if s.offset < img.size then
    match strlen img.mem bound (s.offset + 12) with
    | none => none
    | some nameLength =>
      let block := blockAt machine img s.offset
      let reads := s.reads ++ [⟨s.offset + 4, 8⟩, ⟨s.offset + 12, nameLength + 1⟩]
      if fopen s.opened then
        some (.inl
          { offset := advance s.offset block
            opened := s.opened + 1
            reads := reads ++ [⟨s.offset + 60, block.size.toNat⟩]
            writes := s.writes ++
              [⟨bytes img.mem (s.offset + 12) nameLength, block.offset, block.payload⟩] })
      else some (.inr ⟨-1, reads, s.writes⟩)
  else some (.inr ⟨0, s.reads, s.writes⟩)

/-- The variables at the start of `v2_burn_image`. -/
def BurnState.first : BurnState := ⟨sizeofImghdr2, 0, [], []⟩

/-- `v2_burn_image`, within `n` rounds. -/
def v2BurnImage (fopen : ℕ → Bool) (bound n : ℕ) : Option BurnResult :=
  Loop.run (burnRound machine img fopen bound) n .first

end Wbr1310.Httpd
