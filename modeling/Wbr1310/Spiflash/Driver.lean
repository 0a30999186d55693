import Wbr1310.Spiflash.Device

/-!
# The driver

The functions of the driver on the registers of the controller. A loop that waits for the
hardware is given as many rounds as the hardware will stay busy and one more, and fails
when it has used them up; the loops over the bytes of a request are given one round for
each byte.
-/

namespace Wbr1310.Spiflash

open Lib Program

variable (hw : Hardware)

def einval : ℤ := 22

/-- A row of `stm_opcodes`. -/
structure Opcodes where
  code : Byte
  txCnt : ℕ
  rxCnt : ℕ

/-- The rows of `stm_opcodes` that the driver uses. -/
inductive Op where
  | writeEnable
  | rdStatus
  | pageProgram
  | sectorErase
  | rdSig
  deriving DecidableEq, Repr

def stmOpcodes : Op → Opcodes
  | .writeEnable => ⟨stmOpWrEnable, 1, 0⟩
  | .rdStatus => ⟨stmOpRdStatus, 1, 1⟩
  | .pageProgram => ⟨stmOpPagePgrm, 8, 0⟩
  | .sectorErase => ⟨stmOpSectorErase, 4, 0⟩
  | .rdSig => ⟨stmOpRdSig, 4, 1⟩

def spiOpcodeMask : Word := 0x000000ff

def spiStatusWip : Word := 0x01

/-- The control register with new counts and the start bit. -/
def control (reg counts : Word) : Word := (reg &&& ~~~spiCtlTxRxCntMask) ||| counts ||| spiCtlStart

/-- At most `n` rounds of `do { reg = spiflash_regread32(SPI_FLASH_CTL); }
while (reg & SPI_CTL_BUSY)`. -/
def pollCtl : ℕ → Program Spi Word
  | 0 => fail
  | n + 1 => do
    let reg ← spiflashRegread32 .ctl
    if reg &&& spiCtlBusy = 0 then pure reg else pollCtl n

def waitCtl : Program Spi Word := do
  let s ← get
  pollCtl (s.busy + 1)

def replyMask : ℕ → Word
  | 1 => 0x000000ff
  | 2 => 0x0000ffff
  | 3 => 0x00ffffff
  | _ => 0xffffffff

/-- What `spiflash_sendcmd` returns. -/
def sendcmdReply (op : Op) : Program Spi Word :=
  if 0 < (stmOpcodes op).rxCnt then do
    let reg ← spiflashRegread32 .data
    pure (reg &&& replyMask (stmOpcodes op).rxCnt)
  else pure 0

def spiflashSendcmd (op : Op) : Program Spi Word := do
  let reg ← waitCtl
  setSpiActivity
  spiflashRegwrite32 hw .opcode ((stmOpcodes op).code.setWidth 32)
  spiflashRegwrite32 hw .ctl (control reg
    (BitVec.ofNat 32 (stmOpcodes op).txCnt ||| BitVec.ofNat 32 (stmOpcodes op).rxCnt <<< 4))
  let _ ← waitCtl
  let reg ← sendcmdReply op
  clearSpiActivity hw
  pure reg

/-- At most `n` rounds of the loop that waits for `write in progress' to clear. -/
def pollStatus : ℕ → Program Spi PUnit
  | 0 => fail
  | n + 1 => do
    let reg ← spiflashSendcmd hw .rdStatus
    if reg &&& spiStatusWip = 0 then pure ⟨⟩ else pollStatus n

def waitStatus : Program Spi PUnit := do
  let s ← get
  pollStatus hw (s.chip.wip + 1)

def addressed (code : Byte) (address : ℕ) : Word :=
  code.setWidth 32 ||| BitVec.ofNat 32 address <<< 8

/-- The sector of an address is erased: the part that `spiflash_erase` and
`test_page_programming` have in common. -/
def eraseSector (address : ℕ) : Program Spi PUnit := do
  let _ ← spiflashSendcmd hw .writeEnable
  setSpiActivity
  let reg ← waitCtl
  spiflashRegwrite32 hw .opcode (addressed (stmOpcodes .sectorErase).code address)
  spiflashRegwrite32 hw .ctl (control reg (BitVec.ofNat 32 (stmOpcodes .sectorErase).txCnt))
  let _ ← waitCtl
  clearSpiActivity hw
  waitStatus hw

/-- `mtd->size` is `size`, the request is for `len` bytes from `address`; the sum of the two has
32 bits. -/
def spiflashErase (size address len : ℕ) : Program Spi ℤ :=
  if size < (address + len) % 2 ^ 32 then pure (-einval)
  else do
    eraseSector hw address
    pure 0

/-- The bytes read and the value of `*retlen`, which is not written when nothing is read. -/
def spiflashRead (size source len : ℕ) : Program Spi (ℤ × Option (ℕ × List Byte)) :=
  if len = 0 then pure (0, none)
  else if size < source + len then pure (-einval, none)
  else do
    setSpiActivity
    let s ← get
    clearSpiActivity hw
    pure (0, some (len, Nor.taken (Nor.shifted source s.chip.content) len))

/-- The length of the next transfer of `spiflash_write`: at most four bytes, and none past the
end of the page. -/
def transferLength (dest bytesLeft : ℕ) : ℕ :=
  let xactLen := min bytesLeft 4
  let pageOffset := (dest &&& (stmPageSize - 1)) + xactLen
  if stmPageSize < pageOffset then xactLen - (pageOffset - stmPageSize) else xactLen

def placed (b : Byte) (k : ℕ) : Word := b.setWidth 32 <<< k

/-- The `switch` of `spiflash_write`; `spiData` is the value from before. -/
def packedData (spiData : Word) (buf : ℕ → Byte) : ℕ → Word
  | 1 => (buf 0).setWidth 32
  | 2 => placed (buf 1) 8 ||| (buf 0).setWidth 32
  | 3 => placed (buf 2) 16 ||| placed (buf 1) 8 ||| (buf 0).setWidth 32
  | 4 => placed (buf 3) 24 ||| placed (buf 2) 16 ||| placed (buf 1) 8 ||| (buf 0).setWidth 32
  | _ => spiData

/-- One transfer of `spiflash_write`: write enable, the command with its data, and the wait
for the flash. -/
def writeTransfer (xactLen : ℕ) (opcode spiData : Word) : Program Spi PUnit := do
  let _ ← spiflashSendcmd hw .writeEnable
  setSpiActivity
  let reg ← waitCtl
  spiflashRegwrite32 hw .data spiData
  spiflashRegwrite32 hw .opcode opcode
  spiflashRegwrite32 hw .ctl (control reg (BitVec.ofNat 32 (xactLen + 4)))
  let _ ← waitCtl
  clearSpiActivity hw
  waitStatus hw

/-- The variables of the loop of `spiflash_write`. -/
structure WriteVars where
  dest : ℕ
  bytesLeft : ℕ
  buf : ℕ → Byte
  retlen : ℕ
  opcode : Word
  spiData : Word

namespace WriteVars

variable (v : WriteVars)

/-- `xact_len` of the round. -/
def xactLen : ℕ := transferLength v.dest v.bytesLeft

/-- `spi_data` of the round. -/
def nextData : Word := packedData v.spiData v.buf v.xactLen

/-- `opcode` of the round. -/
def nextOpcode : Word := (v.opcode &&& spiOpcodeMask) ||| BitVec.ofNat 32 v.dest <<< 8

def advance : WriteVars where
  dest := v.dest + v.xactLen
  bytesLeft := v.bytesLeft - v.xactLen
  buf := Nor.shifted v.xactLen v.buf
  retlen := v.retlen + v.xactLen
  opcode := v.nextOpcode
  spiData := v.nextData

end WriteVars

/-- At most `n` rounds of `while (done == FALSE)`. -/
def writeLoop : ℕ → WriteVars → Program Spi (ℤ × ℕ)
  | 0, _ => fail
  | n + 1, v => do
    writeTransfer hw v.xactLen v.nextOpcode v.nextData
    if v.advance.bytesLeft = 0 then pure (0, v.advance.retlen) else writeLoop n v.advance

section

variable (size dest len : ℕ) (buf : ℕ → Byte)

/-- The returned value and `*retlen`. -/
def spiflashWrite : Program Spi (ℤ × ℕ) :=
  if len = 0 then pure (0, 0)
  else if size < dest + len then pure (-einval, 0)
  else writeLoop hw len
    { dest := dest
      bytesLeft := len
      buf := buf
      retlen := 0
      opcode := (stmOpcodes .pageProgram).code.setWidth 32
      spiData := 0 }

def dataWord : Word :=
  placed (buf 3) 24 ||| placed (buf 2) 16 ||| placed (buf 1) 8 ||| (buf 0).setWidth 32

def opcodeWord : Word :=
  placed (buf 3) 8 ||| placed (buf 2) 16 ||| placed (buf 1) 24 ||| (buf 0).setWidth 32

/-- So many rounds of the loop of `page_write`, each of which sends eight bytes, and what is
left of the buffer. -/
def pageLoop : ℕ → (ℕ → Byte) → Program Spi (ℕ → Byte)
  | 0, buf => pure buf
  | n + 1, buf => do
    let reg ← waitCtl
    spiflashRegwrite32 hw .data (dataWord (Nor.shifted 4 buf))
    spiflashRegwrite32 hw .opcode (opcodeWord buf)
    spiflashRegwrite32 hw .ctl (control reg 0x8)
    pageLoop n (Nor.shifted 8 buf)

def pageEnd : Program Spi PUnit := do
  let reg ← waitCtl
  spiflashRegwrite32 hw .opcode (opcodeWord buf)
  spiflashRegwrite32 hw .ctl (control reg 0x4)
  let _ ← waitCtl
  chipSelect hw true
  clearSpiActivity hw

def pageWrite : Program Spi PUnit := do
  let _ ← spiflashSendcmd hw .writeEnable
  let reg ← waitCtl
  setSpiActivity
  chipSelect hw false
  spiflashRegwrite32 hw .data (dataWord buf)
  spiflashRegwrite32 hw .opcode
    (((stmOpcodes .pageProgram).code.setWidth 32 &&& spiOpcodeMask) ||| BitVec.ofNat 32 dest <<< 8)
  spiflashRegwrite32 hw .ctl (control reg 0x8)
  let rest ← pageLoop hw 31 (Nor.shifted 4 buf)
  pageEnd hw rest
  waitStatus hw

def testPattern : ℕ → Byte := fun i => BitVec.ofNat 8 i

/-- At most `n` rounds of the check of the pattern, from round `i`: the round it stopped in. -/
def checkPattern (content : ℕ → Byte) (block : ℕ) : ℕ → ℕ → ℕ
  | 0, i => i
  | n + 1, i =>
    if content (block + i * 4) ≠ BitVec.ofNat 8 (i * 4) then i
    else checkPattern content block n (i + 1)

def testPageProgramming (block : ℕ) : Program Spi ℤ := do
  pageWrite hw block testPattern
  setSpiActivity
  let s ← get
  clearSpiActivity hw
  eraseSector hw block
  pure (if checkPattern s.chip.content block 8 0 < 8 then 1 else 0)

/-- The test of page programming, if it was not made before. -/
def decideMode : Program Spi PUnit := do
  let s ← get
  if s.ppMode < 0 then do
    let mode ← testPageProgramming hw dest
    Program.modify fun s => { s with ppMode := mode }
  else pure ⟨⟩

/-- One round of `spiflash_page_write`: the bytes up to the end of the page or of the request. -/
def pageRound (xactLen : ℕ) (buf : ℕ → Byte) : Program Spi PUnit :=
  if 0 < dest % stmPageSize ∨ xactLen < stmPageSize then do
    let _ ← spiflashWrite hw size dest xactLen buf
    pure ⟨⟩
  else do
    decideMode hw dest
    let s ← get
    if s.ppEnable ≠ 0 ∧ s.ppMode = 0 then pageWrite hw dest buf
    else do
      let _ ← spiflashWrite hw size dest xactLen buf
      pure ⟨⟩

/-- At most `n` rounds of `while (bytes_left > 0)`. -/
def pageWriteLoop (size : ℕ) : ℕ → (dest bytesLeft retlen : ℕ) → (ℕ → Byte) → Program Spi (ℤ × ℕ)
  | 0, _, bytesLeft, retlen, _ => if bytesLeft = 0 then pure (0, retlen) else fail
  | n + 1, dest, bytesLeft, retlen, buf =>
    if bytesLeft = 0 then pure (0, retlen)
    else do
      let xactLen := min bytesLeft (stmPageSize - dest % stmPageSize)
      pageRound hw size dest xactLen buf
      pageWriteLoop size n (dest + xactLen) (bytesLeft - xactLen) (retlen + xactLen)
        (Nor.shifted xactLen buf)

/-- The returned value and `*retlen`. -/
def spiflashPageWrite : Program Spi (ℤ × ℕ) := do
  let s ← get
  if 0 < s.ppMode then spiflashWrite hw size dest len buf
  else if size < dest + len then pure (-einval, 0)
  else pageWriteLoop hw size len dest len 0 buf

end

def myAtoi : List Char → ℤ
  | [] => 0
  | c :: text => (if '0' ≤ c ∧ c ≤ '9' then (c.toNat - '0'.toNat : ℤ) else 0) + myAtoi text

def procWritePpEnable (text : List Char) : Program Spi PUnit :=
  Program.modify fun s => { s with ppEnable := myAtoi text }

/-- A call of the driver. -/
inductive Call where
  | erase (address len : ℕ)
  | read (source len : ℕ)
  | write (dest len : ℕ) (buf : ℕ → Byte)
  | enable (text : List Char)

/-- The returned value, and `*retlen` with the bytes that were read. -/
abbrev Reply := ℤ × Option (ℕ × List Byte)

def Call.exec : Call → Program Spi Reply
  | .erase address len => do
    let ret ← spiflashErase hw hw.part.byteCount address len
    pure (ret, none)
  | .read source len => spiflashRead hw hw.part.byteCount source len
  | .write dest len buf => do
    let r ← spiflashPageWrite hw hw.part.byteCount dest len buf
    pure (r.1, some (r.2, []))
  | .enable text => do
    procWritePpEnable text
    pure (text.length, none)

def serve : List Call → Program Spi (List Reply)
  | [] => pure []
  | call :: calls => do
    let reply ← call.exec hw
    let replies ← serve calls
    pure (reply :: replies)

end Wbr1310.Spiflash
