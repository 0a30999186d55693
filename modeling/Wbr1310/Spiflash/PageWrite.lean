import Wbr1310.Spiflash.Transfer

/-!
# Page writes

`spiflash_write` and `spiflash_page_write` come down to one conjunction of the array with
the buffer when page programming has been tested before.
-/

namespace Wbr1310.Spiflash

open Lib Program Nat

variable (hw : Hardware) {s : Spi} {buf : ℕ → Byte} {dest len n : ℕ}

variable {bytesLeft : ℕ}

theorem transferLength_spec (dest : ℕ) (h : 0 < bytesLeft) :
    0 < transferLength dest bytesLeft ∧ transferLength dest bytesLeft ≤ 4 ∧
      transferLength dest bytesLeft ≤ bytesLeft ∧
      dest % stmPageSize + transferLength dest bytesLeft ≤ stmPageSize := by
  have hmask : dest &&& (256 - 1) = dest % 256 := and_two_pow_sub_one_eq_mod dest 8
  have hmod : dest % 256 < 256 := mod_lt dest (by decide)
  simp only [transferLength, stmPageSize, hmask]
  split <;> omega

theorem mask_nextOpcode (v : WriteVars) :
    v.nextOpcode &&& spiOpcodeMask = v.opcode &&& spiOpcodeMask := by
  apply BitVec.eq_of_getLsbD_eq
  intro j hj
  simp only [WriteVars.nextOpcode, spiOpcodeMask, BitVec.getLsbD_and, BitVec.getLsbD_or,
    BitVec.getLsbD_shiftLeft]
  by_cases h : j < 8
  · simp [h]
  · have hhigh : ∀ i < 32, ¬ i < 8 → (0x000000ff : Word).getLsbD i = false := by decide
    rw [hhigh j hj h, Bool.and_false, Bool.and_false]

/-- By induction on the bytes that are left. -/
theorem writeLoop_spec {v : WriteVars} (h : s.Idle) (hpos : 0 < v.bytesLeft) (hn : v.bytesLeft ≤ n)
    (hsize : v.dest + v.bytesLeft ≤ hw.part.byteCount)
    (hcode : v.opcode &&& spiOpcodeMask = stmOpPagePgrm.setWidth 32) :
    ∃ s', writeLoop hw n v s = (some (0, v.retlen + v.bytesLeft), s') ∧
      Leaves s s' (Nor.overlay s.chip.content v.dest v.bytesLeft v.buf) := by
  induction n generalizing s v with
  | zero => omega
  | succ n ih =>
    obtain ⟨hxpos, hxfour, hxleft, hxpage⟩ := transferLength_spec v.dest hpos
    obtain ⟨s₁, hrun, hs₁⟩ := writeTransfer_spec hw v.buf h
      (show v.dest < hw.part.byteCount by omega) hxpos hxfour hxpage v.spiData
    rw [← hcode] at hrun
    have hstep : writeTransfer hw v.xactLen v.nextOpcode v.nextData s = (some ⟨⟩, s₁) := hrun
    rw [writeLoop, bind_of_some hstep]
    by_cases hdone : v.advance.bytesLeft = 0
    · have hall : v.xactLen = v.bytesLeft := Nat.le_antisymm hxleft (Nat.le_of_sub_eq_zero hdone)
      rw [if_pos hdone, pure_apply]
      refine ⟨s₁, ?_, ?_⟩
      · rw [WriteVars.advance, hall]
      · rw [← hall]
        exact hs₁
    · have hsplit : v.xactLen + v.advance.bytesLeft = v.bytesLeft := add_sub_of_le hxleft
      have hdest : v.advance.dest = v.dest + v.xactLen := rfl
      have hxlen : 0 < v.xactLen := hxpos
      obtain ⟨s₂, hrun₂, hs₂⟩ := ih (v := v.advance) hs₁.idle (pos_of_ne_zero hdone)
        (by omega) (by omega) ((mask_nextOpcode v).trans hcode)
      rw [if_neg hdone]
      refine ⟨s₂, ?_, ?_⟩
      · rw [hrun₂, ← hsplit, ← add_assoc]
        rfl
      · have hboth :=
          Nor.overlay_overlay s.chip.content v.dest v.xactLen v.advance.bytesLeft v.buf
        rw [hs₁.content] at hs₂
        rw [← hsplit, ← hboth]
        exact hs₁.trans hs₂

/-- A write ends with the buffer laid over the array. -/
theorem spiflashWrite_spec (buf : ℕ → Byte) (h : s.Idle) (hsize : dest + len ≤ hw.part.byteCount) :
    ∃ s', spiflashWrite hw hw.part.byteCount dest len buf s = (some (0, len), s') ∧
      Leaves s s' (Nor.overlay s.chip.content dest len buf) := by
  by_cases hlen : len = 0
  · refine ⟨s, ?_, h, rfl, rfl, ?_⟩
    · rw [spiflashWrite, if_pos hlen, hlen, pure_apply]
    · rw [hlen, Nor.overlay_zero]
  · rw [spiflashWrite, if_neg hlen, if_neg (by omega)]
    obtain ⟨s', hrun, hs'⟩ := writeLoop_spec hw (n := len) (v :=
      { dest := dest, bytesLeft := len, buf := buf, retlen := 0,
        opcode := (stmOpcodes .pageProgram).code.setWidth 32, spiData := 0 }) h
      (pos_of_ne_zero hlen) le_rfl hsize mask_pageProgram
    refine ⟨s', ?_, hs'⟩
    rw [hrun, zero_add]

theorem roundLength_spec (dest : ℕ) (hpos : 0 < bytesLeft) :
    0 < min bytesLeft (stmPageSize - dest % stmPageSize) ∧
      dest % stmPageSize + min bytesLeft (stmPageSize - dest % stmPageSize) ≤ stmPageSize := by
  have hmod : dest % 256 < 256 := mod_lt dest (by decide)
  simp only [stmPageSize]
  omega

theorem pageRound_part (buf : ℕ → Byte) (h : s.Idle) (hsize : dest + n ≤ hw.part.byteCount)
    (hpart : 0 < dest % stmPageSize ∨ n < stmPageSize) :
    ∃ s', pageRound hw hw.part.byteCount dest n buf s = (some ⟨⟩, s') ∧
      Leaves s s' (Nor.overlay s.chip.content dest n buf) := by
  obtain ⟨s', hrun, hs'⟩ := spiflashWrite_spec hw buf h hsize
  rw [pageRound, if_pos hpart, bind_of_some hrun]
  exact ⟨s', rfl, hs'⟩

theorem wholePage_spec (buf : ℕ → Byte) (h : s.Idle)
    (hsize : dest + stmPageSize ≤ hw.part.byteCount) (hpage : dest % stmPageSize = 0) :
    ∃ s', (do
        let s ← get
        if s.ppEnable ≠ 0 ∧ s.ppMode = 0 then pageWrite hw dest buf
        else do
          let _ ← spiflashWrite hw hw.part.byteCount dest stmPageSize buf
          pure ⟨⟩ : Program Spi PUnit) s = (some ⟨⟩, s') ∧
      Leaves s s' (Nor.overlay s.chip.content dest stmPageSize buf) := by
  rw [get_bind_apply]
  split
  · exact pageWrite_spec hw buf h (Nat.lt_of_lt_of_le (Nat.lt_add_of_pos_right (by decide)) hsize)
      hpage
  · obtain ⟨s', hrun, hs'⟩ := spiflashWrite_spec hw buf h hsize
    rw [bind_of_some hrun]
    exact ⟨s', rfl, hs'⟩

theorem pageRound_spec (buf : ℕ → Byte) (h : s.Idle) (hmode : 0 ≤ s.ppMode)
    (hsize : dest + n ≤ hw.part.byteCount) (hround : dest % stmPageSize + n ≤ stmPageSize) :
    ∃ s', pageRound hw hw.part.byteCount dest n buf s = (some ⟨⟩, s') ∧
      Leaves s s' (Nor.overlay s.chip.content dest n buf) := by
  by_cases hpart : 0 < dest % stmPageSize ∨ n < stmPageSize
  · exact pageRound_part hw buf h hsize hpart
  · obtain rfl : n = stmPageSize := by omega
    have hdecided : decideMode hw dest s = (some ⟨⟩, s) := by
      rw [decideMode, get_bind_apply, if_neg (not_lt.mpr hmode), pure_apply]
    rw [pageRound, if_neg hpart, bind_of_some hdecided]
    exact wholePage_spec hw buf h hsize (by omega)

theorem pageWriteLoop_zero (retlen : ℕ) (buf : ℕ → Byte) (h : bytesLeft = 0) :
    pageWriteLoop hw hw.part.byteCount n dest bytesLeft retlen buf s =
      (some (0, retlen + bytesLeft), s) := by
  subst h
  cases n <;> rw [pageWriteLoop, if_pos rfl, pure_apply, add_zero]

theorem pageWriteLoop_succ {size x : ℕ} {s' : Spi} (retlen : ℕ)
    (hx : x = min bytesLeft (stmPageSize - dest % stmPageSize)) (hpos : 0 < bytesLeft)
    (hround : pageRound hw size dest x buf s = (some ⟨⟩, s')) :
    pageWriteLoop hw size (n + 1) dest bytesLeft retlen buf s =
      pageWriteLoop hw size n (dest + x) (bytesLeft - x) (retlen + x) (Nor.shifted x buf) s' := by
  subst hx
  rw [pageWriteLoop, if_neg hpos.ne', bind_of_some hround]

/-- Once page programming has been tested, the call writes its bytes and nothing else. -/
theorem pageWriteLoop_decided (retlen : ℕ) (buf : ℕ → Byte) (h : s.Idle) (hmode : 0 ≤ s.ppMode)
    (hn : bytesLeft ≤ n) (hsize : dest + bytesLeft ≤ hw.part.byteCount) :
    ∃ s', pageWriteLoop hw hw.part.byteCount n dest bytesLeft retlen buf s =
        (some (0, retlen + bytesLeft), s') ∧
      Leaves s s' (Nor.overlay s.chip.content dest bytesLeft buf) := by
  induction n generalizing s dest bytesLeft retlen buf with
  | zero =>
    obtain rfl : bytesLeft = 0 := by omega
    exact ⟨s, pageWriteLoop_zero hw retlen buf rfl, h, rfl, rfl, by rw [Nor.overlay_zero]⟩
  | succ n ih =>
    obtain rfl | hpos := Nat.eq_zero_or_pos bytesLeft
    · exact ⟨s, pageWriteLoop_zero hw retlen buf rfl, h, rfl, rfl, by rw [Nor.overlay_zero]⟩
    obtain ⟨x, hx⟩ : ∃ x, x = min bytesLeft (stmPageSize - dest % stmPageSize) := ⟨_, rfl⟩
    obtain ⟨hxpos, hxpage⟩ := roundLength_spec dest hpos
    rw [← hx] at hxpos hxpage
    have hxleft : x ≤ bytesLeft := hx ▸ min_le_left _ _
    obtain ⟨s₁, hrun, hs₁⟩ := pageRound_spec hw buf h hmode (n := x) (by omega) hxpage
    obtain ⟨s₂, hrun₂, hs₂⟩ := ih (retlen + x) (Nor.shifted x buf) hs₁.idle
      (hmode.trans_eq hs₁.ppMode.symm) (show bytesLeft - x ≤ n by omega)
      (show dest + x + (bytesLeft - x) ≤ hw.part.byteCount by omega)
    refine ⟨s₂, ?_, ?_⟩
    · rw [pageWriteLoop_succ hw retlen hx hpos hrun, hrun₂]
      congr 3
      omega
    · rw [hs₁.content, Nor.overlay_overlay, add_sub_of_le hxleft] at hs₂
      exact hs₁.trans hs₂

theorem spiflashPageWrite_decided (buf : ℕ → Byte) (h : s.Idle) (hmode : 0 ≤ s.ppMode)
    (hsize : dest + len ≤ hw.part.byteCount) :
    ∃ s', spiflashPageWrite hw hw.part.byteCount dest len buf s = (some (0, len), s') ∧
      Leaves s s' (Nor.overlay s.chip.content dest len buf) := by
  rw [spiflashPageWrite, get_bind_apply]
  split
  · exact spiflashWrite_spec hw buf h hsize
  · rw [if_neg (not_lt.mpr hsize)]
    obtain ⟨s', hrun, hs'⟩ := pageWriteLoop_decided hw 0 buf h hmode le_rfl hsize
    rw [zero_add] at hrun
    exact ⟨s', hrun, hs'⟩

/-- Both ways to write return 0 and report the whole length, and leave the same array: every
byte of the range in conjunction with the buffer, and no other byte touched. -/
def WritesAlike (s : Spi) (dest len : ℕ) (buf : ℕ → Byte) : Prop :=
  ∃ s' s'', spiflashPageWrite hw hw.part.byteCount dest len buf s = (some (0, len), s') ∧
    spiflashWrite hw hw.part.byteCount dest len buf s = (some (0, len), s'') ∧
    s'.chip.content = s''.chip.content ∧
    ∀ a, s'.chip.content a =
      if dest ≤ a ∧ a < dest + len then s.chip.content a &&& buf (a - dest) else s.chip.content a

/-- After the test was made, `spiflash_page_write` does to the flash what `spiflash_write`
does. -/
theorem spiflashPageWrite_refines (s : Spi) (dest len : ℕ) (buf : ℕ → Byte) (hidle : s.Idle)
    (hmode : 0 ≤ s.ppMode) (hsize : dest + len ≤ hw.part.byteCount) :
    WritesAlike hw s dest len buf := by
  obtain ⟨s'', hwrite, hs''⟩ := spiflashWrite_spec hw buf hidle hsize
  obtain ⟨s', hrun, hs'⟩ := spiflashPageWrite_decided hw buf hidle hmode hsize
  refine ⟨s', s'', hrun, hwrite, hs'.content.trans hs''.content.symm, ?_⟩
  intro a
  rw [hs'.content]
  rfl

def resting (content : ℕ → Byte) (ppMode ppEnable : ℤ) : Spi where
  chip := ⟨content, false, 0⟩
  ctl := 0
  opcode := 0
  data := 0
  busy := 0
  transfers := 0
  gpioCr := 0x1
  gpioDo := 0x1
  wire := []
  spiflashCs := false
  ppMode := ppMode
  ppEnable := ppEnable

theorem resting_idle (content : ℕ → Byte) (ppMode ppEnable : ℤ) :
    (resting content ppMode ppEnable).Idle :=
  ⟨⟨rfl, by simp [resting, Spi.selected], rfl⟩, rfl⟩

def fourMegabytes : Hardware := ⟨.m25p32, fun _ => 2, fun _ => 3⟩

/-- A write that starts inside a page. -/
theorem spiflashPageWrite_refines_unaligned :
    (resting (fun _ => 0xff) 0 1).Idle ∧ 100 + 600 ≤ fourMegabytes.part.byteCount ∧
      WritesAlike fourMegabytes (resting (fun _ => 0xff) 0 1) 100 600 fun i => BitVec.ofNat 8 i :=
  ⟨resting_idle _ 0 1, by decide,
    spiflashPageWrite_refines fourMegabytes _ 100 600 _ (resting_idle _ 0 1) le_rfl (by decide)⟩

end Wbr1310.Spiflash
