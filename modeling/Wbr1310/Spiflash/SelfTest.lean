import Wbr1310.Spiflash.PageWrite

/-!
# The test of page programming

The first call of `spiflash_page_write` that comes to a whole page tests page programming
there: it writes a pattern, reads it back and erases the block again. The block that is
erased is the sector of the page, so that everything else in that sector goes with it, and
also what the same call has written into the sector before it came to the page.
-/

namespace Wbr1310.Spiflash

open Lib Program Nat

variable (hw : Hardware) {s : Spi} {dest len n : ℕ}

theorem page_sector {a : ℕ} (hpage : dest % stmPageSize = 0) (ha : dest ≤ a)
    (ha' : a < dest + stmPageSize) : a / stmSectorSize = dest / stmSectorSize := by
  simp only [stmPageSize, stmSectorSize] at *
  omega

/-- The test leaves its sector erased. -/
theorem testPageProgramming_spec (h : s.Idle) (hdest : dest < hw.part.byteCount)
    (hpage : dest % stmPageSize = 0) :
    ∃ mode s', testPageProgramming hw dest s = (some mode, s') ∧ 0 ≤ mode ∧
      Leaves s s' (Nor.erase stmSectorSize s.chip.content dest) := by
  obtain ⟨s₁, hwrite, hs₁⟩ := pageWrite_spec hw testPattern h hdest hpage
  rw [testPageProgramming, bind_of_some hwrite,
    setSpiActivity_bind _ hs₁.idle.quiet.spiflashCs, get_bind_apply, clearSpiActivity_bind]
  · obtain ⟨s₂, herase, hs₂⟩ := eraseSector_spec hw
      (s := { s₁ with
        gpioCr := s₁.gpioCr ||| 0x1, gpioDo := s₁.gpioDo ||| 0x1, spiflashCs := false })
      ⟨quiet_clear _ hs₁.idle.quiet.wire, hs₁.idle.wip⟩ (hdest.trans hw.part.byteCount_lt)
    rw [bind_of_some herase, pure_apply]
    refine ⟨_, s₂, rfl, by split <;> decide, hs₁.trans ⟨hs₂.idle, hs₂.ppMode, hs₂.ppEnable, ?_⟩⟩
    -- The pattern was written into the sector that is then erased.
    rw [hs₂.content, mod_eq_of_lt hdest, hs₁.content]
    exact Nor.erase_overlay fun a ha ha' => page_sector hpage ha ha'
  · exact hs₁.idle.quiet.wire

theorem pageRound_untested (buf : ℕ → Byte) (h : s.Idle) (hmode : s.ppMode < 0)
    (hsize : dest + stmPageSize ≤ hw.part.byteCount) (hpage : dest % stmPageSize = 0) :
    ∃ s', pageRound hw hw.part.byteCount dest stmPageSize buf s = (some ⟨⟩, s') ∧ s'.Idle ∧
      0 ≤ s'.ppMode ∧ s'.chip.content =
        Nor.overlay (Nor.erase stmSectorSize s.chip.content dest) dest stmPageSize buf := by
  have hdest : dest < hw.part.byteCount :=
    Nat.lt_of_lt_of_le (Nat.lt_add_of_pos_right (by decide)) hsize
  obtain ⟨mode, s₁, htest, hpos, hs₁⟩ := testPageProgramming_spec hw h hdest hpage
  have hdecided : decideMode hw dest s = (some ⟨⟩, { s₁ with ppMode := mode }) := by
    rw [decideMode, get_bind_apply, if_pos hmode, bind_of_some htest, modify_apply]
  obtain ⟨s₂, hrun, hs₂⟩ := wholePage_spec hw (s := { s₁ with ppMode := mode }) buf
    ⟨⟨hs₁.idle.quiet.spiflashCs, hs₁.idle.quiet.selected, hs₁.idle.quiet.wire⟩, hs₁.idle.wip⟩
    hsize hpage
  rw [pageRound, if_neg (by omega), bind_of_some hdecided]
  refine ⟨s₂, hrun, hs₂.idle, hpos.trans_eq hs₂.ppMode.symm, ?_⟩
  rw [hs₂.content]
  simp only [hs₁.content]

/-- The array after a call made before the test that starts at a page. -/
def testedFrom (content : ℕ → Byte) (dest len : ℕ) (buf : ℕ → Byte) : ℕ → Byte :=
  if stmPageSize ≤ len then Nor.overlay (Nor.erase stmSectorSize content dest) dest len buf
  else Nor.overlay content dest len buf

theorem pageWriteLoop_aligned (retlen : ℕ) (buf : ℕ → Byte) (h : s.Idle) (hmode : s.ppMode < 0)
    (hn : len ≤ n) (hsize : dest + len ≤ hw.part.byteCount) (hpage : dest % stmPageSize = 0) :
    ∃ s', pageWriteLoop hw hw.part.byteCount n dest len retlen buf s =
        (some (0, retlen + len), s') ∧
      s'.Idle ∧ s'.chip.content = testedFrom s.chip.content dest len buf := by
  obtain rfl | hpos := Nat.eq_zero_or_pos len
  · refine ⟨s, pageWriteLoop_zero hw retlen buf rfl, h, ?_⟩
    rw [testedFrom, if_neg (by decide), Nor.overlay_zero]
  obtain ⟨n, rfl⟩ := exists_eq_add_one_of_ne_zero (ne_zero_of_lt (hpos.trans_le hn))
  by_cases hwhole : stmPageSize ≤ len
  · -- The first page is whole: the test is made, and the other rounds find it made.
    obtain ⟨s₁, hround, hidle, hdecided, hcontent⟩ := pageRound_untested hw buf h hmode
      (Nat.le_trans (Nat.add_le_add_left hwhole dest) hsize) hpage
    obtain ⟨s₂, hrest, hs₂⟩ := pageWriteLoop_decided hw (n := n) (retlen + stmPageSize)
      (Nor.shifted stmPageSize buf) hidle hdecided
      (show len - stmPageSize ≤ n by simp only [stmPageSize] at *; omega)
      (show dest + stmPageSize + (len - stmPageSize) ≤ hw.part.byteCount by omega)
    refine ⟨s₂, ?_, hs₂.idle, ?_⟩
    · rw [pageWriteLoop_succ hw retlen (by omega) hpos hround, hrest, add_assoc,
        add_sub_of_le hwhole]
    · rw [hs₂.content, hcontent, Nor.overlay_overlay, add_sub_of_le hwhole, testedFrom,
        if_pos hwhole]
  · obtain ⟨s₁, hround, hs₁⟩ := pageRound_part hw buf h hsize (.inr (not_le.mp hwhole))
    refine ⟨s₁, ?_, hs₁.idle, ?_⟩
    · rw [pageWriteLoop_succ hw retlen (by omega) hpos hround,
        pageWriteLoop_zero hw _ _ (Nat.sub_self len), Nat.sub_self, Nat.add_zero]
    · rw [hs₁.content, testedFrom, if_neg hwhole]

def beforePage (dest : ℕ) : ℕ := (stmPageSize - dest % stmPageSize) % stmPageSize

def tested (content : ℕ → Byte) (dest len : ℕ) (buf : ℕ → Byte) : ℕ → Byte :=
  if beforePage dest ≤ len then
    testedFrom (Nor.overlay content dest (beforePage dest) buf) (dest + beforePage dest)
      (len - beforePage dest) (Nor.shifted (beforePage dest) buf)
  else Nor.overlay content dest len buf

theorem beforePage_aligned (dest : ℕ) : (dest + beforePage dest) % stmPageSize = 0 := by
  simp only [beforePage, stmPageSize]
  omega

/-- A call made before the test. -/
theorem pageWriteLoop_untested (buf : ℕ → Byte) (h : s.Idle) (hmode : s.ppMode < 0)
    (hsize : dest + len ≤ hw.part.byteCount) :
    ∃ s', pageWriteLoop hw hw.part.byteCount len dest len 0 buf s = (some (0, len), s') ∧
      s'.Idle ∧ s'.chip.content = tested s.chip.content dest len buf := by
  by_cases hzero : beforePage dest = 0
  · obtain ⟨s', hrun, hidle, hcontent⟩ := pageWriteLoop_aligned hw 0 buf h hmode le_rfl hsize
      (by simpa [hzero] using beforePage_aligned dest)
    refine ⟨s', ?_, hidle, ?_⟩
    · rw [hrun, zero_add]
    · simp [hcontent, tested, hzero]
  have hhead : beforePage dest = stmPageSize - dest % stmPageSize ∧ 0 < dest % stmPageSize := by
    simp only [beforePage, stmPageSize] at *
    omega
  obtain rfl | hpos := Nat.eq_zero_or_pos len
  · refine ⟨s, pageWriteLoop_zero hw 0 buf rfl, h, ?_⟩
    rw [tested, if_neg (by omega), Nor.overlay_zero]
  obtain ⟨n, rfl⟩ := exists_eq_add_one_of_ne_zero hpos.ne'
  by_cases hinside : n + 1 < beforePage dest
  · obtain ⟨s₁, hround, hs₁⟩ := pageRound_part hw buf h hsize (.inl hhead.2)
    refine ⟨s₁, ?_, hs₁.idle, ?_⟩
    · rw [pageWriteLoop_succ hw 0 (by omega) hpos hround,
        pageWriteLoop_zero hw _ _ (Nat.sub_self (n + 1)), Nat.sub_self, Nat.zero_add, Nat.add_zero]
    · rw [hs₁.content, tested, if_neg (not_le.mpr hinside)]
  · obtain ⟨s₁, hround, hs₁⟩ := pageRound_part hw (n := beforePage dest) buf h (by omega)
      (.inl hhead.2)
    obtain ⟨s₂, hrun, hidle, hcontent⟩ := pageWriteLoop_aligned hw (0 + beforePage dest)
      (Nor.shifted (beforePage dest) buf) hs₁.idle (hs₁.ppMode.trans_lt hmode)
      (show n + 1 - beforePage dest ≤ n by omega)
      (show dest + beforePage dest + (n + 1 - beforePage dest) ≤ hw.part.byteCount by omega)
      (beforePage_aligned dest)
    refine ⟨s₂, ?_, hidle, ?_⟩
    · rw [pageWriteLoop_succ hw 0 (by omega) hpos hround, hrun, zero_add,
        add_sub_of_le (by omega)]
    · rw [hcontent, hs₁.content, tested, if_pos (by omega)]

/-- The call returns 0 with the whole length, and the array is as before but for the range,
which holds the buffer. -/
def LosesNothing (s : Spi) (dest len : ℕ) (buf : ℕ → Byte) : Prop :=
  ∃ s', spiflashPageWrite hw hw.part.byteCount dest len buf s = (some (0, len), s') ∧
    ∀ a, s'.chip.content a =
      if dest ≤ a ∧ a < dest + len then buf (a - dest) else s.chip.content a

def Erased (content : ℕ → Byte) (dest len : ℕ) : Prop :=
  ∀ a, dest ≤ a → a < dest + len → content a = 0xff

/-- Where the call has a whole page, the sector of the first one holds nothing outside the
range, and nothing is to be written there before that page. -/
def Spare (content : ℕ → Byte) (dest len : ℕ) (buf : ℕ → Byte) : Prop :=
  beforePage dest + stmPageSize ≤ len →
    ∀ a, a / stmSectorSize = (dest + beforePage dest) / stmSectorSize →
      (a < dest ∨ dest + len ≤ a → content a = 0xff) ∧
        (dest ≤ a ∧ a < dest + beforePage dest → buf (a - dest) = 0xff)

section Losses

variable {content buf : ℕ → Byte}

theorem overlay_erased (herased : Erased content dest len) (a : ℕ) :
    Nor.overlay content dest len buf a =
      if dest ≤ a ∧ a < dest + len then buf (a - dest) else content a := by
  by_cases ha : dest ≤ a ∧ a < dest + len
  · rw [Nor.overlay_of_mem ha, if_pos ha, herased a ha.1 ha.2]
    exact BitVec.allOnes_and
  · rw [Nor.overlay_of_not_mem ha, if_neg ha]

theorem tested_part (hpart : ¬ beforePage dest + stmPageSize ≤ len) :
    tested content dest len buf = Nor.overlay content dest len buf := by
  rw [tested]
  split
  case isTrue hle =>
    rw [testedFrom, if_neg (by omega), Nor.overlay_overlay, add_sub_of_le hle]
  case isFalse => rfl

/-- A call with a whole page: of the sector of that page only what is written from the page
on is left. -/
theorem tested_whole (hwhole : beforePage dest + stmPageSize ≤ len)
    (herased : Erased content dest len) (a : ℕ) :
    tested content dest len buf a =
      if a / stmSectorSize = (dest + beforePage dest) / stmSectorSize ∧
          ¬ (dest + beforePage dest ≤ a ∧ a < dest + len) then 0xff
      else if dest ≤ a ∧ a < dest + len then buf (a - dest) else content a := by
  have hle : beforePage dest ≤ len := by omega
  have hfirst : Erased content dest (beforePage dest) := fun b hb hb' => herased b hb (by omega)
  rw [tested, if_pos hle, testedFrom, if_pos (by omega)]
  generalize beforePage dest = k at *
  by_cases hrest : dest + k ≤ a ∧ a < dest + len
  · -- From the page on the range is erased before it is written.
    have herase : Nor.erase stmSectorSize (Nor.overlay content dest k buf) (dest + k) a = 0xff := by
      by_cases hsector : a / stmSectorSize = (dest + k) / stmSectorSize
      · exact Nor.erase_of_mem hsector
      · rw [Nor.erase_of_not_mem hsector, Nor.overlay_of_not_mem (by omega)]
        exact herased a (by omega) hrest.2
    rw [Nor.overlay_of_mem (by omega), herase, if_neg fun h => h.2 hrest, if_pos (by omega),
      Nor.shifted_apply, show k + (a - (dest + k)) = a - dest by omega]
    exact BitVec.allOnes_and
  · rw [Nor.overlay_of_not_mem (by omega)]
    by_cases hsector : a / stmSectorSize = (dest + k) / stmSectorSize
    · rw [Nor.erase_of_mem hsector, if_pos ⟨hsector, hrest⟩]
      rfl
    · rw [Nor.erase_of_not_mem hsector, if_neg fun h => hsector h.1, overlay_erased hfirst]
      by_cases ha : dest ≤ a ∧ a < dest + k
      · rw [if_pos ha, if_pos (by omega)]
      · rw [if_neg ha, if_neg (by omega)]

theorem tested_eq_iff (herased : Erased content dest len) :
    (∀ a, tested content dest len buf a =
      if dest ≤ a ∧ a < dest + len then buf (a - dest) else content a) ↔
      Spare content dest len buf := by
  by_cases hwhole : beforePage dest + stmPageSize ≤ len
  · simp only [tested_whole hwhole herased]
    constructor
    · intro h _ a hsector
      constructor
      · intro hout
        have ha := h a
        rw [if_pos ⟨hsector, by omega⟩, if_neg (by omega)] at ha
        exact ha.symm
      · intro hin
        have ha := h a
        rw [if_pos ⟨hsector, by omega⟩, if_pos (by omega)] at ha
        exact ha.symm
    · intro h a
      by_cases ha : a / stmSectorSize = (dest + beforePage dest) / stmSectorSize ∧
          ¬ (dest + beforePage dest ≤ a ∧ a < dest + len)
      · obtain ⟨hout, hin⟩ := h hwhole a ha.1
        rw [if_pos ha]
        by_cases hr : dest ≤ a ∧ a < dest + len
        · rw [if_pos hr, hin (by omega)]
        · rw [if_neg hr, hout (by omega)]
      · rw [if_neg ha]
  · constructor
    · intro _ h
      exact absurd h hwhole
    · intro _ a
      rw [tested_part hwhole]
      exact overlay_erased herased a

end Losses

theorem spiflashPageWrite_untested (buf : ℕ → Byte) (h : s.Idle) (hmode : s.ppMode < 0)
    (hsize : dest + len ≤ hw.part.byteCount) :
    ∃ s', spiflashPageWrite hw hw.part.byteCount dest len buf s = (some (0, len), s') ∧
      s'.Idle ∧ s'.chip.content = tested s.chip.content dest len buf := by
  rw [spiflashPageWrite, get_bind_apply, if_neg (by omega), if_neg (not_lt.mpr hsize)]
  exact pageWriteLoop_untested hw buf h hmode hsize

/-- A call made before the test into an erased range loses nothing exactly when the sector of
its first whole page has nothing to lose. -/
theorem spiflashPageWrite_losesNothing_iff (s : Spi) (dest len : ℕ) (buf : ℕ → Byte)
    (hidle : s.Idle) (hmode : s.ppMode = -1) (hsize : dest + len ≤ hw.part.byteCount)
    (herased : Erased s.chip.content dest len) :
    LosesNothing hw s dest len buf ↔ Spare s.chip.content dest len buf := by
  obtain ⟨s', hrun, -, hcontent⟩ := spiflashPageWrite_untested hw buf hidle (by omega) hsize
  rw [← tested_eq_iff herased, ← hcontent]
  constructor
  · rintro ⟨s'', hrun', h⟩
    obtain rfl : s' = s'' := congrArg Prod.snd (hrun.symm.trans hrun')
    exact h
  · intro h
    exact ⟨s', hrun, h⟩

/-- A write to a blank chip. -/
theorem spiflashPageWrite_losesNothing_blank :
    (resting (fun _ => 0xff) (-1) 1).Idle ∧ 0x10000 + 600 ≤ fourMegabytes.part.byteCount ∧
      Erased (fun _ => 0xff) 0x10000 600 ∧
      LosesNothing fourMegabytes (resting (fun _ => 0xff) (-1) 1) 0x10000 600
        fun i => BitVec.ofNat 8 i := by
  have hidle := resting_idle (fun _ => 0xff) (-1) 1
  have hsize : 0x10000 + 600 ≤ fourMegabytes.part.byteCount := by decide
  refine ⟨hidle, hsize, fun _ _ _ => rfl, (spiflashPageWrite_losesNothing_iff fourMegabytes _ _ _ _
    hidle rfl hsize fun _ _ _ => rfl).mpr ?_⟩
  exact fun _ a _ => ⟨fun _ => rfl, fun ha => absurd ha.2 (not_lt.mpr ha.1)⟩

/-- A sector whose first page is erased and whose other bytes are in use. -/
def inUse : ℕ → Byte := fun a => if a < 256 then 0xff else 0

/-- Writing the erased page destroys the next one. -/
theorem firstWrite_loses_sector :
    Erased inUse 0 256 ∧
      ¬ LosesNothing fourMegabytes (resting inUse (-1) 1) 0 256 fun _ => 0x5a := by
  have herased : Erased inUse 0 256 := fun a _ ha => if_pos (by omega)
  refine ⟨herased, ?_⟩
  rintro ⟨s', hrun, h⟩
  obtain ⟨s'', hrun', -, hcontent⟩ := spiflashPageWrite_untested fourMegabytes (fun _ => 0x5a)
    (resting_idle inUse (-1) 1) (by decide) (show 0 + 256 ≤ fourMegabytes.part.byteCount by decide)
  obtain rfl : s' = s'' := congrArg Prod.snd (hrun.symm.trans hrun')
  have hlost : tested inUse 0 256 (fun _ => 0x5a) 256 = inUse 256 :=
    (congrFun hcontent 256).symm.trans ((h 256).trans (if_neg (by decide)))
  rw [tested_whole (by decide) herased, if_pos (by decide)] at hlost
  exact absurd hlost (by decide)

end Wbr1310.Spiflash
