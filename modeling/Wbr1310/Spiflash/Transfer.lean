import Wbr1310.Spiflash.Driver

/-!
# What the driver shifts out

The bytes of the registers, the transfers they make up, and what the flash has done when
the driver goes on: one lemma for each function of the driver up to a transfer and up to a
page.
-/

namespace Wbr1310.Spiflash

open Lib Program Nat

variable {hw : Hardware} {s : Spi} {c buf : ℕ → Byte} {dest n : ℕ}

theorem byteOf_or (x y : Word) (i : ℕ) : byteOf (x ||| y) i = byteOf x i ||| byteOf y i := by
  ext j hj
  simp [byteOf]

variable {i address : ℕ} {s' s₀ : Spi} {bytes : List Byte}

theorem byteOf_placed (b : Byte) {k : ℕ} (hi : i < 4) (hk : k % 8 = 0) :
    byteOf (placed b k) i = if 8 * i = k then b else 0 := by
  ext j hj
  simp only [byteOf, placed, BitVec.getElem_extractLsb', BitVec.getLsbD_shiftLeft,
    BitVec.getLsbD_setWidth]
  by_cases h : 8 * i = k
  · subst h
    simp [hj, show 8 * i + j < 32 by omega, show j < 32 by omega]
  · by_cases hlt : 8 * i < k
    · simp [h, show 8 * i + j < k by omega]
    · simp [h, BitVec.getLsbD_of_ge b (8 * i + j - k) (by omega)]

theorem byteOf_setWidth (b : Byte) (hi : i < 4) :
    byteOf (b.setWidth 32) i = if i = 0 then b else 0 := by
  have h := byteOf_placed b (k := 0) hi rfl
  simpa [placed] using h

theorem byteOf_address (address : ℕ) (hi : i < 3) :
    byteOf (BitVec.ofNat 32 address <<< 8) (i + 1) = BitVec.ofNat 8 (address / 2 ^ (8 * i)) := by
  apply BitVec.eq_of_getLsbD_eq
  intro j hj
  simp only [byteOf, BitVec.getLsbD_extractLsb', BitVec.getLsbD_shiftLeft, BitVec.getLsbD_ofNat,
    testBit_div_two_pow]
  have hidx : 8 * (i + 1) + j - 8 = j + 8 * i := by omega
  simp [hidx, show 8 * (i + 1) + j < 32 by omega, show j + 8 * i < 32 by omega, hj,
    show ¬ 8 * (i + 1) + j < 8 by omega]

theorem byteOf_address_zero (address : ℕ) : byteOf (BitVec.ofNat 32 address <<< 8) 0 = 0 := by
  ext j hj
  simp only [byteOf, BitVec.getElem_extractLsb', BitVec.getLsbD_shiftLeft]
  simp [hj]

theorem addressOf_address (h : address < 2 ^ 24) :
    addressOf (byteOf (BitVec.ofNat 32 address <<< 8) 3) (byteOf (BitVec.ofNat 32 address <<< 8) 2)
      (byteOf (BitVec.ofNat 32 address <<< 8) 1) = address := by
  rw [byteOf_address address (i := 2) (by decide), byteOf_address address (i := 1) (by decide),
    byteOf_address address (i := 0) (by decide), addressOf]
  simp only [BitVec.toNat_ofNat]
  omega

theorem mask_pageProgram : (stmOpcodes .pageProgram).code.setWidth 32 &&& spiOpcodeMask =
    stmOpPagePgrm.setWidth 32 := by decide

theorem shiftOut_command (code : Byte) (h : address < 2 ^ 24) (data : Word) (n : ℕ) :
    ∃ high middle low, addressOf high middle low = address ∧
      shiftOut (code.setWidth 32 ||| BitVec.ofNat 32 address <<< 8) data (n + 4) =
        code :: high :: middle :: low ::
          [byteOf data 0, byteOf data 1, byteOf data 2, byteOf data 3].take n := by
  refine ⟨_, _, _, addressOf_address h, ?_⟩
  simp [shiftOut, byteOf_or, byteOf_setWidth, byteOf_address_zero]

theorem bytes_dataWord (buf : ℕ → Byte) :
    [byteOf (dataWord buf) 0, byteOf (dataWord buf) 1, byteOf (dataWord buf) 2,
      byteOf (dataWord buf) 3] = Nor.taken buf 4 := by
  simp [dataWord, byteOf_or, byteOf_setWidth, byteOf_placed, Nor.taken, List.range_succ]

theorem shiftOut_burst (buf : ℕ → Byte) :
    shiftOut (opcodeWord buf) (dataWord (Nor.shifted 4 buf)) 8 = Nor.taken buf 8 ∧
      ∀ data, shiftOut (opcodeWord buf) data 4 = Nor.taken buf 4 := by
  have hcode (data : Word) : shiftOut (opcodeWord buf) data 4 = Nor.taken buf 4 := by
    simp [shiftOut, opcodeWord, byteOf_or, byteOf_setWidth, byteOf_placed, Nor.taken,
      List.range_succ]
  refine ⟨?_, hcode⟩
  have hsplit (data : Word) : shiftOut (opcodeWord buf) data 8 =
      shiftOut (opcodeWord buf) data 4 ++
        [byteOf data 0, byteOf data 1, byteOf data 2, byteOf data 3] := rfl
  rw [hsplit, hcode, bytes_dataWord, ← Nor.taken_add]

theorem bytes_packedData (spiData : Word) (buf : ℕ → Byte) (hpos : 0 < n) (hn : n ≤ 4) :
    [byteOf (packedData spiData buf n) 0, byteOf (packedData spiData buf n) 1,
      byteOf (packedData spiData buf n) 2, byteOf (packedData spiData buf n) 3].take n =
        Nor.taken buf n := by
  interval_cases n <;>
    simp [packedData, byteOf_or, byteOf_setWidth, byteOf_placed, Nor.taken, List.range_succ]

theorem control_tx (reg counts : Word) : control reg counts &&& 0xf = counts &&& 0xf := by
  ext j hj
  simp only [control, spiCtlTxRxCntMask, spiCtlStart, BitVec.getElem_and, BitVec.getElem_or,
    BitVec.getElem_not]
  interval_cases j <;> simp

theorem control_rx (reg counts : Word) :
    control reg counts >>> 4 &&& 0xf = counts >>> 4 &&& 0xf := by
  ext j hj
  simp only [control, spiCtlTxRxCntMask, spiCtlStart, BitVec.getElem_and,
    BitVec.getElem_ushiftRight, BitVec.getLsbD_or, BitVec.getLsbD_and, BitVec.getLsbD_not]
  interval_cases j <;> simp

theorem control_start (reg counts : Word) : control reg counts &&& spiCtlStart ≠ 0 := by
  intro h
  have hbit := congrArg (fun w : Word => w.getLsbD 8) h
  simp [control, spiCtlStart] at hbit

theorem pollCtl_apply (h : s.busy < n) :
    pollCtl n s = (some (s.ctl &&& ~~~spiCtlBusy), { s with busy := 0 }) := by
  induction n generalizing s with
  | zero => exact absurd h (not_lt_zero _)
  | succ n ih =>
    by_cases hbusy : s.busy = 0
    · have hread : spiflashRegread32 .ctl s =
          (some (s.ctl &&& ~~~spiCtlBusy), { s with busy := 0 }) := by
        simp [spiflashRegread32, hbusy]
      have hclear : (s.ctl &&& ~~~spiCtlBusy) &&& spiCtlBusy = 0 := by
        simp [BitVec.and_assoc, spiCtlBusy]
      rw [pollCtl, bind_of_some hread, if_pos hclear, pure_apply]
    · have hread : spiflashRegread32 .ctl s =
          (some (s.ctl ||| spiCtlBusy), { s with busy := s.busy - 1 }) := by
        simp [spiflashRegread32, hbusy]
      have hset : (s.ctl ||| spiCtlBusy) &&& spiCtlBusy ≠ 0 := by
        intro h
        have hbit := congrArg (fun w : Word => w.getLsbD 16) h
        simp [spiCtlBusy] at hbit
      rw [pollCtl, bind_of_some hread, if_neg hset, ih (by simp only; omega)]

theorem waitCtl_bind {α : Type} (f : Word → Program Spi α) (s : Spi) :
    (waitCtl >>= f) s = f (s.ctl &&& ~~~spiCtlBusy) { s with busy := 0 } := by
  apply bind_of_some
  rw [waitCtl, get_bind_apply]
  exact pollCtl_apply (lt_succ_self _)

theorem setSpiActivity_bind {α : Type} (f : PUnit → Program Spi α) (h : s.spiflashCs = false) :
    (setSpiActivity >>= f) s = f ⟨⟩ { s with spiflashCs := true } := by
  apply bind_of_some
  simp [setSpiActivity, Program.update, h]

theorem regwriteCtl_bind {α : Type} (f : PUnit → Program Spi α) (reg counts : Word) (s : Spi) :
    (spiflashRegwrite32 hw .ctl (control reg counts) >>= f) s =
      f ⟨⟩ (Spi.transfer hw { s with ctl := control reg counts }) := by
  apply bind_of_some
  rw [spiflashRegwrite32, modify_apply, if_neg (control_start reg counts)]

theorem regwriteOpcode_bind {α : Type} (f : PUnit → Program Spi α) (value : Word) (s : Spi) :
    (spiflashRegwrite32 hw .opcode value >>= f) s = f ⟨⟩ { s with opcode := value } := rfl

theorem regwriteData_bind {α : Type} (f : PUnit → Program Spi α) (value : Word) (s : Spi) :
    (spiflashRegwrite32 hw .data value >>= f) s = f ⟨⟩ { s with data := value } := rfl

theorem settle_of_nil (h : s.wire = []) : s.settle hw = s := by
  unfold Spi.settle
  split
  · rfl
  · rw [h, Chip.receive_nil, ← h]

theorem chipSelect_of_nil (value : Bool) (h : s.wire = []) :
    chipSelect hw value s = (some ⟨⟩,
      { s with
        gpioCr := s.gpioCr ||| 0x1
        gpioDo := if value then s.gpioDo ||| 0x1 else s.gpioDo &&& ~~~0x1 }) := by
  have hcr : (Program.modify fun s : Spi => Spi.settle hw { s with gpioCr := s.gpioCr ||| 0x1 }) s =
      (some ⟨⟩, { s with gpioCr := s.gpioCr ||| 0x1 }) := by
    rw [modify_apply]
    exact congrArg (Prod.mk _) (settle_of_nil h)
  rw [chipSelect, bind_of_some hcr, modify_apply]
  exact congrArg (Prod.mk _) (settle_of_nil h)

theorem chipSelect_bind {α : Type} (f : PUnit → Program Spi α) (value : Bool) (h : s.wire = []) :
    (chipSelect hw value >>= f) s = f ⟨⟩
      { s with
        gpioCr := s.gpioCr ||| 0x1
        gpioDo := if value then s.gpioDo ||| 0x1 else s.gpioDo &&& ~~~0x1 } :=
  bind_of_some (chipSelect_of_nil value h)

theorem clearSpiActivity_apply (h : s.wire = []) :
    clearSpiActivity hw s = (some ⟨⟩,
      { s with
        gpioCr := s.gpioCr ||| 0x1
        gpioDo := s.gpioDo ||| 0x1
        spiflashCs := false }) := by
  rw [clearSpiActivity, chipSelect_bind _ true h]
  rfl

theorem clearSpiActivity_bind {α : Type} (f : PUnit → Program Spi α) (h : s.wire = []) :
    (clearSpiActivity hw >>= f) s = f ⟨⟩
      { s with
        gpioCr := s.gpioCr ||| 0x1
        gpioDo := s.gpioDo ||| 0x1
        spiflashCs := false } :=
  bind_of_some (clearSpiActivity_apply h)

theorem chipSelect_release (h : s.selected = true) :
    chipSelect hw true s = (some ⟨⟩,
      { s with
        gpioCr := s.gpioCr ||| 0x1
        gpioDo := s.gpioDo ||| 0x1
        chip := s.chip.receive hw s.transfers s.wire
        wire := [] }) := by
  have hbits : s.gpioCr.getLsbD 0 = true ∧ s.gpioDo.getLsbD 0 = false := by
    simpa [Spi.selected] using h
  have hsel : Spi.selected { s with gpioCr := s.gpioCr ||| 0x1 } = true := by
    simpa [Spi.selected] using hbits.2
  have hcr : (Program.modify fun s : Spi => Spi.settle hw { s with gpioCr := s.gpioCr ||| 0x1 }) s =
      (some ⟨⟩, { s with gpioCr := s.gpioCr ||| 0x1 }) := by
    rw [modify_apply, Spi.settle, if_pos hsel]
  have hfree : ¬ Spi.selected
      { s with gpioCr := s.gpioCr ||| 0x1, gpioDo := s.gpioDo ||| 0x1 } = true := by
    simp [Spi.selected]
  rw [chipSelect, bind_of_some hcr, modify_apply]
  exact congrArg (Prod.mk _) (if_neg hfree)

/-- No transfer is going on. -/
structure Spi.Quiet (s : Spi) : Prop where
  spiflashCs : s.spiflashCs = false
  selected : s.selected = false
  wire : s.wire = []

/-- The driver has gone on, and has not touched its own variables. -/
structure Follows (s s' : Spi) : Prop where
  quiet : s'.Quiet
  ppMode : s'.ppMode = s.ppMode
  ppEnable : s'.ppEnable = s.ppEnable

theorem Follows.trans {s s'' : Spi} (h : Follows s s') (h' : Follows s' s'') :
    Follows s s'' where
  quiet := h'.quiet
  ppMode := h'.ppMode.trans h.ppMode
  ppEnable := h'.ppEnable.trans h.ppEnable

theorem transfer_eq (h : s.selected = false) (reg counts : Word) :
    Spi.transfer hw { s with ctl := control reg counts } =
      { s with
        ctl := control reg counts
        busy := hw.shifting s.transfers
        transfers := s.transfers + 1
        data := if (counts >>> 4 &&& 0xf).toNat = 0 then s.data
          else (s.chip.reply hw (shiftOut s.opcode s.data (counts &&& 0xf).toNat)).setWidth 32
        chip := s.chip.receive hw s.transfers
          (shiftOut s.opcode s.data (counts &&& 0xf).toNat) } := by
  have hsel : Spi.selected { s with ctl := control reg counts } = false := h
  rw [Spi.transfer, hsel, ← control_tx reg counts, ← control_rx reg counts]
  rfl

theorem transfer_counts {counts : Word} {tx rx : ℕ} (htx : (counts &&& 0xf).toNat = tx)
    (hrx : (counts >>> 4 &&& 0xf).toNat = rx) (h : s.selected = false) (reg : Word) :
    Spi.transfer hw { s with ctl := control reg counts } =
      { s with
        ctl := control reg counts
        busy := hw.shifting s.transfers
        transfers := s.transfers + 1
        data := if rx = 0 then s.data
          else (s.chip.reply hw (shiftOut s.opcode s.data tx)).setWidth 32
        chip := s.chip.receive hw s.transfers (shiftOut s.opcode s.data tx) } := by
  subst htx hrx
  exact transfer_eq h reg counts

theorem quiet_clear (s : Spi) (h : s.wire = []) :
    Spi.Quiet
      { s with
        gpioCr := s.gpioCr ||| 0x1
        gpioDo := s.gpioDo ||| 0x1
        spiflashCs := false } where
  spiflashCs := rfl
  selected := by simp [Spi.selected]
  wire := h

/-- What a command of `stm_opcodes` shifts out. -/
def commandBytes (op : Op) (data : Word) : List Byte :=
  shiftOut ((stmOpcodes op).code.setWidth 32) data (stmOpcodes op).txCnt

theorem commandBytes_writeEnable (data : Word) :
    commandBytes .writeEnable data = [stmOpWrEnable] := by
  simp [commandBytes, shiftOut, stmOpcodes, byteOf_setWidth]

theorem commandBytes_rdStatus (data : Word) : commandBytes .rdStatus data = [stmOpRdStatus] := by
  simp [commandBytes, shiftOut, stmOpcodes, byteOf_setWidth]

theorem counts_op (op : Op) (counts : Word)
    (h : counts = BitVec.ofNat 32 (stmOpcodes op).txCnt |||
      BitVec.ofNat 32 (stmOpcodes op).rxCnt <<< 4) :
    (counts &&& 0xf).toNat = (stmOpcodes op).txCnt ∧
      (counts >>> 4 &&& 0xf).toNat = (stmOpcodes op).rxCnt := by
  subst h
  cases op <;> decide

theorem sendcmdReply_apply (op : Op) (s : Spi) :
    sendcmdReply op s =
      (some (if (stmOpcodes op).rxCnt = 0 then 0 else s.data &&& replyMask (stmOpcodes op).rxCnt),
        s) := by
  cases op <;> rfl

variable (hw) in
/-- A command goes over the wire and leaves the bus quiet. -/
theorem spiflashSendcmd_spec (op : Op) (h : s.Quiet) :
    ∃ s', spiflashSendcmd hw op s =
        (some (if (stmOpcodes op).rxCnt = 0 then 0
          else (s.chip.reply hw (commandBytes op s.data)).setWidth 32 &&&
            replyMask (stmOpcodes op).rxCnt), s') ∧
      Follows s s' ∧ s'.chip = s.chip.receive hw s.transfers (commandBytes op s.data) := by
  obtain ⟨htx, hrx⟩ := counts_op op _ rfl
  rw [spiflashSendcmd, waitCtl_bind, setSpiActivity_bind, regwriteOpcode_bind,
    regwriteCtl_bind, transfer_counts htx hrx, waitCtl_bind,
    bind_of_some (sendcmdReply_apply op _), clearSpiActivity_bind, pure_apply]
  · refine ⟨_, Prod.ext (congrArg some ?_) rfl, ⟨quiet_clear _ h.wire, rfl, rfl⟩, rfl⟩
    by_cases h0 : (stmOpcodes op).rxCnt = 0
    · rw [if_pos h0, if_pos h0]
    · simp only [if_neg h0, commandBytes]
  · exact h.wire
  · exact h.selected
  · exact h.spiflashCs

variable (hw) in
theorem writeEnable_spec (h : s.Quiet) (hwip : s.chip.wip = 0) :
    ∃ r s', spiflashSendcmd hw .writeEnable s = (some r, s') ∧ Follows s s' ∧
      s'.chip = { s.chip with wel := true } := by
  obtain ⟨s', hrun, hfollows, hchip⟩ := spiflashSendcmd_spec hw .writeEnable h
  refine ⟨_, s', hrun, hfollows, hchip.trans ?_⟩
  rw [commandBytes_writeEnable, Chip.receive, decode]
  simp [stmOpRdStatus, stmOpRdSig, stmOpWrEnable, Chip.perform, hwip]

theorem status_wip_iff (chip : Chip) :
    (chip.status.setWidth 32 &&& replyMask 1) &&& spiStatusWip = 0 ↔ chip.wip = 0 := by
  unfold Chip.status
  by_cases hwip : chip.wip = 0
  · cases chip.wel <;> simp [hwip, replyMask, spiStatusWip]
  · cases chip.wel <;> simp [hwip, replyMask, spiStatusWip]

variable (hw) in
theorem rdStatus_spec (h : s.Quiet) :
    ∃ s', spiflashSendcmd hw .rdStatus s =
        (some (s.chip.status.setWidth 32 &&& replyMask 1), s') ∧
      Follows s s' ∧ s'.chip = { s.chip with wip := s.chip.wip - 1 } := by
  obtain ⟨s', hrun, hfollows, hchip⟩ := spiflashSendcmd_spec hw .rdStatus h
  rw [commandBytes_rdStatus] at hrun hchip
  exact ⟨s', hrun, hfollows, hchip⟩

variable (hw) in
/-- By induction on how long the chip stays busy. -/
theorem pollStatus_spec (h : s.Quiet) (hn : s.chip.wip < n) :
    ∃ s', pollStatus hw n s = (some ⟨⟩, s') ∧ Follows s s' ∧
      s'.chip = { s.chip with wip := 0 } := by
  induction n generalizing s with
  | zero => exact absurd hn (not_lt_zero _)
  | succ n ih =>
    obtain ⟨s', hrun, hfollows, hchip⟩ := rdStatus_spec hw h
    rw [pollStatus, bind_of_some hrun]
    by_cases hwip : s.chip.wip = 0
    · rw [if_pos ((status_wip_iff _).mpr hwip), pure_apply]
      refine ⟨s', rfl, hfollows, ?_⟩
      rw [hchip, hwip]
    · have hless : s'.chip.wip < n := by
        rw [hchip]
        exact (sub_lt (pos_of_ne_zero hwip) one_pos).trans_le (le_of_lt_succ hn)
      obtain ⟨s'', hrun', hfollows', hchip'⟩ := ih hfollows.quiet hless
      rw [if_neg fun he => hwip ((status_wip_iff _).mp he)]
      refine ⟨s'', hrun', hfollows.trans hfollows', ?_⟩
      rw [hchip', hchip]

variable (hw) in
theorem waitStatus_spec (h : s.Quiet) :
    ∃ s', waitStatus hw s = (some ⟨⟩, s') ∧ Follows s s' ∧
      s'.chip = { s.chip with wip := 0 } := by
  rw [waitStatus, get_bind_apply]
  exact pollStatus_spec hw h (lt_succ_self _)

variable (hw) in
theorem sendAddressed_spec (reg counts opcode : Word) (hsel : s.selected = false)
    (hwire : s.wire = []) :
    ∃ s', (do
        spiflashRegwrite32 hw .opcode opcode
        spiflashRegwrite32 hw .ctl (control reg counts)
        let _ ← waitCtl
        clearSpiActivity hw
        waitStatus hw : Program Spi PUnit) s = (some ⟨⟩, s') ∧
      Follows s s' ∧ s'.chip =
        { s.chip.receive hw s.transfers (shiftOut opcode s.data (counts &&& 0xf).toNat) with
          wip := 0 } := by
  rw [regwriteOpcode_bind, regwriteCtl_bind, transfer_eq, waitCtl_bind, clearSpiActivity_bind]
  · refine (waitStatus_spec hw ?_).imp fun s' h => ⟨h.1, ?_, h.2.2⟩
    · exact quiet_clear _ hwire
    · exact ⟨h.2.1.quiet, h.2.1.ppMode, h.2.1.ppEnable⟩
  · exact hwire
  · exact hsel

/-- The driver is not in the middle of a transfer and the flash not of a write. -/
structure Spi.Idle (s : Spi) : Prop where
  quiet : s.Quiet
  wip : s.chip.wip = 0

/-- The driver is idle again, its variables are as before, and the array is `c`. -/
structure Leaves (s s' : Spi) (c : ℕ → Byte) : Prop where
  idle : s'.Idle
  ppMode : s'.ppMode = s.ppMode
  ppEnable : s'.ppEnable = s.ppEnable
  content : s'.chip.content = c

theorem Leaves.trans {s s'' : Spi} {c' : ℕ → Byte} (h : Leaves s s' c) (h' : Leaves s' s'' c') :
    Leaves s s'' c' where
  idle := h'.idle
  ppMode := h'.ppMode.trans h.ppMode
  ppEnable := h'.ppEnable.trans h.ppEnable
  content := h'.content

theorem Follows.leaves {s : Spi} (h : Follows s s') {k : Chip}
    (hchip : s'.chip = { k with wip := 0 }) (hk : k.content = c) : Leaves s s' c where
  idle := ⟨h.quiet, by rw [hchip]⟩
  ppMode := h.ppMode
  ppEnable := h.ppEnable
  content := by rw [hchip]; exact hk

theorem Part.byteCount_lt (part : Part) : part.byteCount < 2 ^ 24 := by
  cases part <;> decide

theorem receive_sectorErase {chip : Chip} (hwip : chip.wip = 0) (hwel : chip.wel = true) (t : ℕ)
    (high middle low : Byte) :
    (chip.receive hw t [stmOpSectorErase, high, middle, low]).content =
      Nor.erase stmSectorSize chip.content (addressOf high middle low % hw.part.byteCount) := by
  have hdecode : decode [stmOpSectorErase, high, middle, low] =
      some (.sectorErase (addressOf high middle low)) := rfl
  rw [Chip.receive, hdecode]
  simp only [Chip.perform, hwip, hwel, and_self, if_true]

theorem receive_pageProgram {chip : Chip} (hwip : chip.wip = 0) (hwel : chip.wel = true) (t : ℕ)
    {high middle low : Byte} (h : addressOf high middle low < hw.part.byteCount) (hn : 0 < n)
    (hpage : addressOf high middle low % stmPageSize + n ≤ stmPageSize) :
    (chip.receive hw t (stmOpPagePgrm :: high :: middle :: low :: Nor.taken buf n)).content =
      Nor.overlay chip.content (addressOf high middle low) n buf := by
  have hdecode : decode (stmOpPagePgrm :: high :: middle :: low :: Nor.taken buf n) =
      some (.pageProgram (addressOf high middle low) (Nor.taken buf n)) := by
    cases n with
    | zero => exact absurd hn (lt_irrefl 0)
    | succ n =>
      rw [Nor.taken_succ]
      rfl
  rw [Chip.receive, hdecode]
  simp only [Chip.perform, hwip, hwel, and_self, if_true, mod_eq_of_lt h]
  exact Nor.program_taken hpage

variable (hw) in
/-- The sector is erased, all else is as before. -/
theorem eraseSector_spec (h : s.Idle) (ha : address < 2 ^ 24) :
    ∃ s', eraseSector hw address s = (some ⟨⟩, s') ∧
      Leaves s s' (Nor.erase stmSectorSize s.chip.content (address % hw.part.byteCount)) := by
  obtain ⟨_, s₁, hrun, hfollows, hchip⟩ := writeEnable_spec hw h.quiet h.wip
  obtain ⟨high, middle, low, rfl, hout⟩ := shiftOut_command stmOpSectorErase ha s₁.data 0
  rw [eraseSector, bind_of_some hrun, setSpiActivity_bind _ hfollows.quiet.spiflashCs,
    waitCtl_bind]
  obtain ⟨s', hrun', hfollows', hchip'⟩ := sendAddressed_spec hw
    (s := { s₁ with spiflashCs := true, busy := 0 }) (s₁.ctl &&& ~~~spiCtlBusy)
    (BitVec.ofNat 32 4) (addressed stmOpSectorErase (addressOf high middle low))
    hfollows.quiet.selected hfollows.quiet.wire
  refine ⟨s', hrun', Follows.leaves (hfollows.trans ⟨hfollows'.quiet, hfollows'.ppMode,
    hfollows'.ppEnable⟩) hchip' ?_⟩
  have hbytes : shiftOut (addressed stmOpSectorErase (addressOf high middle low)) s₁.data
      (BitVec.ofNat 32 4 &&& (0xf : Word)).toNat = [stmOpSectorErase, high, middle, low] := hout
  have hwip : ({ s.chip with wel := true } : Chip).wip = 0 := h.wip
  simp only [hbytes, hchip]
  exact receive_sectorErase hwip rfl _ _ _ _

variable (hw) in
/-- One transfer of `spiflash_write`. -/
theorem writeTransfer_spec (buf : ℕ → Byte) (h : s.Idle) (hdest : dest < hw.part.byteCount)
    (hpos : 0 < n) (hn : n ≤ 4) (hpage : dest % stmPageSize + n ≤ stmPageSize) (spiData : Word) :
    ∃ s', writeTransfer hw n (stmOpPagePgrm.setWidth 32 ||| BitVec.ofNat 32 dest <<< 8)
        (packedData spiData buf n) s = (some ⟨⟩, s') ∧
      Leaves s s' (Nor.overlay s.chip.content dest n buf) := by
  obtain ⟨_, s₁, hrun, hfollows, hchip⟩ := writeEnable_spec hw h.quiet h.wip
  obtain ⟨high, middle, low, rfl, hout⟩ := shiftOut_command stmOpPagePgrm
    (hdest.trans hw.part.byteCount_lt) (packedData spiData buf n) n
  rw [bytes_packedData spiData buf hpos hn] at hout
  rw [writeTransfer, bind_of_some hrun, setSpiActivity_bind _ hfollows.quiet.spiflashCs,
    waitCtl_bind, regwriteData_bind]
  obtain ⟨s', hrun', hfollows', hchip'⟩ := sendAddressed_spec hw
    (s := { s₁ with spiflashCs := true, busy := 0, data := packedData spiData buf n })
    (s₁.ctl &&& ~~~spiCtlBusy) (BitVec.ofNat 32 (n + 4))
    (stmOpPagePgrm.setWidth 32 ||| BitVec.ofNat 32 (addressOf high middle low) <<< 8)
    hfollows.quiet.selected hfollows.quiet.wire
  refine ⟨s', hrun', Follows.leaves (hfollows.trans ⟨hfollows'.quiet, hfollows'.ppMode,
    hfollows'.ppEnable⟩) hchip' ?_⟩
  have hcount : (BitVec.ofNat 32 (n + 4) &&& (0xf : Word)).toNat = n + 4 := by
    interval_cases n <;> decide
  have hwip : ({ s.chip with wel := true } : Chip).wip = 0 := h.wip
  simp only [hcount, hout, hchip]
  exact receive_pageProgram hwip rfl _ hdest hpos hpage

/-- The flash is held selected, and these bytes are on the wire. -/
structure Shifting (s₀ : Spi) (bytes : List Byte) (s : Spi) : Prop where
  selected : s.selected = true
  wire : s.wire = bytes
  chip : s.chip = s₀.chip
  ppMode : s.ppMode = s₀.ppMode
  ppEnable : s.ppEnable = s₀.ppEnable

variable (hw) in
theorem Shifting.transfer (h : Shifting s₀ bytes s) (reg counts : Word) :
    Shifting s₀ (bytes ++ shiftOut s.opcode s.data (counts &&& 0xf).toNat)
      (Spi.transfer hw { s with ctl := control reg counts }) := by
  have hsel : Spi.selected { s with ctl := control reg counts } = true := h.selected
  rw [Spi.transfer, hsel, if_pos rfl]
  constructor
  · exact h.selected
  · simp only [h.wire, control_tx]
  · exact h.chip
  · exact h.ppMode
  · exact h.ppEnable

theorem Shifting.registers (h : Shifting s₀ bytes s) (opcode data : Word) :
    Shifting s₀ bytes { s with busy := 0, opcode := opcode, data := data } :=
  ⟨h.selected, h.wire, h.chip, h.ppMode, h.ppEnable⟩

variable (hw) in
theorem pageLoop_spec (buf : ℕ → Byte) (h : Shifting s₀ bytes s) :
    ∃ s', pageLoop hw n buf s = (some (Nor.shifted (8 * n) buf), s') ∧
      Shifting s₀ (bytes ++ Nor.taken buf (8 * n)) s' := by
  induction n generalizing s bytes buf with
  | zero =>
    refine ⟨s, ?_, ?_⟩
    · rw [pageLoop, pure_apply, mul_zero, Nor.shifted_zero]
    · simpa using h
  | succ n ih =>
    rw [pageLoop, waitCtl_bind, regwriteData_bind, regwriteOpcode_bind, regwriteCtl_bind]
    have hnext := (h.registers (opcodeWord buf) (dataWord (Nor.shifted 4 buf))).transfer hw
      (s.ctl &&& ~~~spiCtlBusy) 0x8
    have hburst : shiftOut (opcodeWord buf) (dataWord (Nor.shifted 4 buf))
        ((0x8 : Word) &&& 0xf).toNat = Nor.taken buf 8 := (shiftOut_burst buf).1
    simp only [hburst] at hnext
    obtain ⟨s', hrun, hs'⟩ := ih (Nor.shifted 8 buf) hnext
    refine ⟨s', ?_, ?_⟩
    · rw [hrun, Nor.shifted_shifted]
      congr 3
      omega
    · rw [List.append_assoc, ← Nor.taken_add] at hs'
      convert hs' using 3
      omega

variable (hw) in
theorem pageEnd_spec (buf : ℕ → Byte) (h : Shifting s₀ bytes s) :
    ∃ t s', pageEnd hw buf s = (some ⟨⟩, s') ∧ Follows s₀ s' ∧
      s'.chip = s₀.chip.receive hw t (bytes ++ Nor.taken buf 4) := by
  have hlast := (h.registers (opcodeWord buf) s.data).transfer hw (s.ctl &&& ~~~spiCtlBusy) 0x4
  have hbytes : shiftOut (opcodeWord buf) s.data ((0x4 : Word) &&& 0xf).toNat =
      Nor.taken buf 4 := (shiftOut_burst buf).2 s.data
  simp only [hbytes] at hlast
  rw [pageEnd, waitCtl_bind, regwriteOpcode_bind, regwriteCtl_bind, waitCtl_bind]
  generalize Spi.transfer hw _ = s₁ at hlast ⊢
  have hwaited := hlast.registers s₁.opcode s₁.data
  rw [bind_of_some (chipSelect_release hwaited.selected), clearSpiActivity_apply rfl]
  refine ⟨s₁.transfers, _, rfl, ⟨quiet_clear _ rfl, hlast.ppMode, hlast.ppEnable⟩, ?_⟩
  simp only [hlast.chip, hlast.wire]

variable (hw) in
/-- The flash is selected and gets the command, the address and the first bytes. -/
theorem pageStart_spec (f : Program Spi PUnit) (buf : ℕ → Byte) (h : s.Quiet)
    {high middle low : Byte} {opcode : Word} (hopcode : shiftOut opcode (dataWord buf) 8 =
      stmOpPagePgrm :: high :: middle :: low :: Nor.taken buf 4) :
    ∃ s', Shifting s (stmOpPagePgrm :: high :: middle :: low :: Nor.taken buf 4) s' ∧ (do
        let reg ← waitCtl
        setSpiActivity
        chipSelect hw false
        spiflashRegwrite32 hw .data (dataWord buf)
        spiflashRegwrite32 hw .opcode opcode
        spiflashRegwrite32 hw .ctl (control reg 0x8)
        f : Program Spi PUnit) s = f s' := by
  have hfirst : Shifting s []
      { s with
        busy := 0
        spiflashCs := true
        gpioCr := s.gpioCr ||| 0x1
        gpioDo := s.gpioDo &&& ~~~0x1
        data := dataWord buf
        opcode := opcode } :=
    ⟨by simp [Spi.selected], h.wire, rfl, rfl, rfl⟩
  have hsent := hfirst.transfer hw (s.ctl &&& ~~~spiCtlBusy) 0x8
  have hcount : ((0x8 : Word) &&& 0xf).toNat = 8 := by decide
  simp only [hcount, hopcode, List.nil_append] at hsent
  refine ⟨_, hsent, ?_⟩
  rw [waitCtl_bind, setSpiActivity_bind, chipSelect_bind, regwriteData_bind, regwriteOpcode_bind,
    regwriteCtl_bind]
  · rfl
  · exact h.wire
  · exact h.spiflashCs

variable (hw) in
/-- The page is programmed, all else is as before. -/
theorem pageWrite_spec (buf : ℕ → Byte) (h : s.Idle) (hdest : dest < hw.part.byteCount)
    (hpage : dest % stmPageSize = 0) :
    ∃ s', pageWrite hw dest buf s = (some ⟨⟩, s') ∧
      Leaves s s' (Nor.overlay s.chip.content dest stmPageSize buf) := by
  obtain ⟨_, s₁, hrun, hfollows, hchip⟩ := writeEnable_spec hw h.quiet h.wip
  obtain ⟨high, middle, low, rfl, hout⟩ := shiftOut_command stmOpPagePgrm
    (hdest.trans hw.part.byteCount_lt) (dataWord buf) 4
  rw [List.take_of_length_le (by simp), bytes_dataWord] at hout
  rw [pageWrite, bind_of_some hrun, mask_pageProgram]
  obtain ⟨s₂, hs₂, hstart⟩ := pageStart_spec hw (do
    let rest ← pageLoop hw 31 (Nor.shifted 4 buf)
    pageEnd hw rest
    waitStatus hw) buf hfollows.quiet hout
  obtain ⟨s₃, hloop, hs₃⟩ := pageLoop_spec hw (n := 31) (Nor.shifted 4 buf) hs₂
  obtain ⟨t, s₄, hend, hfollows₄, hchip₄⟩ := pageEnd_spec hw (Nor.shifted (8 * 31)
    (Nor.shifted 4 buf)) hs₃
  obtain ⟨s₅, hwait, hfollows₅, hchip₅⟩ := waitStatus_spec hw hfollows₄.quiet
  rw [hstart, bind_of_some hloop, bind_of_some hend, hwait]
  refine ⟨s₅, rfl, Follows.leaves (hfollows.trans (hfollows₄.trans hfollows₅)) hchip₅ ?_⟩
  -- Four bytes, thirty-one times eight and four again are the page.
  have hwire : stmOpPagePgrm :: high :: middle :: low :: Nor.taken buf 4 ++
      Nor.taken (Nor.shifted 4 buf) (8 * 31) ++
      Nor.taken (Nor.shifted (8 * 31) (Nor.shifted 4 buf)) 4 =
      stmOpPagePgrm :: high :: middle :: low :: Nor.taken buf stmPageSize := by
    rw [List.append_assoc, ← Nor.taken_add]
    simp only [List.cons_append, ← Nor.taken_add, stmPageSize]
  have hwip : ({ s.chip with wel := true } : Chip).wip = 0 := h.wip
  rw [hchip₄, hwire, hchip]
  exact receive_pageProgram hwip rfl t hdest (by decide) (by rw [hpage, zero_add])

end Wbr1310.Spiflash
