import Wbr1310.Spiflash.PageWrite

/-!
# Runs of the driver

A plain NOR array says what the requests are for. After page programming has been tested the
driver gives the same replies and leaves the same cells in every run, whichever way it writes.
An erase request is answered as done after one sector, whatever length it asked for.
-/

namespace Wbr1310.Spiflash

open Lib Program Nat

variable (hw : Hardware) {s : Spi} {address len : ℕ}

/-- The reply to a request and the cells after it. A request to write no bytes is not checked when
the test of page programming has failed. -/
def Call.plain (size : ℕ) (ppMode : ℤ) (c : ℕ → Byte) : Call → Reply × (ℕ → Byte)
  | .erase address len =>
    if size < (address + len) % 2 ^ 32 then ((-einval, none), c)
    else ((0, none), Nor.erase stmSectorSize c (address % 2 ^ 24 % size))
  | .read source len =>
    if len = 0 then ((0, none), c)
    else if size < source + len then ((-einval, none), c)
    else ((0, some (len, Nor.taken (Nor.shifted source c) len)), c)
  | .write dest len buf =>
    if 0 < ppMode ∧ len = 0 then ((0, some (0, [])), c)
    else if size < dest + len then ((-einval, some (0, [])), c)
    else ((0, some (len, [])), Nor.overlay c dest len buf)
  | .enable text => ((text.length, none), c)

def plainServe (size : ℕ) (ppMode : ℤ) : List Call → (ℕ → Byte) → List Reply × (ℕ → Byte)
  | [], c => ([], c)
  | call :: calls, c =>
    let r := call.plain size ppMode c
    let rs := plainServe size ppMode calls r.2
    (r.1 :: rs.1, rs.2)

theorem addressed_mod (code : Byte) (address : ℕ) :
    addressed code (address % 2 ^ 24) = addressed code address := by
  unfold addressed
  congr 1
  apply BitVec.eq_of_toNat_eq
  simp only [BitVec.toNat_shiftLeft, BitVec.toNat_ofNat, shiftLeft_eq]
  omega

theorem spiflashErase_spec (h : s.Idle) (hsize : ¬ hw.part.byteCount < (address + len) % 2 ^ 32) :
    ∃ s', spiflashErase hw hw.part.byteCount address len s = (some 0, s') ∧
      Leaves s s'
        (Nor.erase stmSectorSize s.chip.content (address % 2 ^ 24 % hw.part.byteCount)) := by
  have hsame : eraseSector hw address = eraseSector hw (address % 2 ^ 24) := by
    rw [eraseSector, eraseSector, addressed_mod]
  obtain ⟨s', hrun, hs'⟩ := eraseSector_spec hw h (mod_lt address (by decide))
  rw [spiflashErase, if_neg hsize, hsame, bind_of_some hrun]
  exact ⟨s', rfl, hs'⟩

/-- A run ends with the reply and the cells of the plain array, ready for the next request. -/
structure AsPlain {α : Type} (s : Spi) (run : Option α × Spi) (plain : α × (ℕ → Byte)) : Prop where
  reply : run.1 = some plain.1
  content : run.2.chip.content = plain.2
  idle : run.2.Idle
  ppMode : run.2.ppMode = s.ppMode

theorem AsPlain.bind {α β : Type} {m : Program Spi α} {f : α → Program Spi β}
    {plain : α × (ℕ → Byte)} {plain' : β × (ℕ → Byte)} (h : AsPlain s (m s) plain)
    (h' : AsPlain (m s).2 (f plain.1 (m s).2) plain') : AsPlain s ((m >>= f) s) plain' := by
  rw [bind_of_some (Prod.ext h.reply rfl : m s = (some plain.1, (m s).2))]
  exact ⟨h'.reply, h'.content, h'.idle, h'.ppMode.trans h.ppMode⟩

theorem Leaves.asPlain {α : Type} {a : α} {s' : Spi} {c : ℕ → Byte} (h : Leaves s s' c) :
    AsPlain s (some a, s') (a, c) :=
  ⟨rfl, h.content, h.idle, h.ppMode⟩

theorem spiflashRead_asPlain (h : s.Idle) (source len : ℕ) :
    AsPlain s (spiflashRead hw hw.part.byteCount source len s)
      ((Call.read source len).plain hw.part.byteCount s.ppMode s.chip.content) := by
  simp only [spiflashRead, Call.plain]
  split
  · exact ⟨rfl, rfl, h, rfl⟩
  split
  · exact ⟨rfl, rfl, h, rfl⟩
  rw [setSpiActivity_bind _ h.quiet.spiflashCs, get_bind_apply, clearSpiActivity_bind]
  · exact ⟨rfl, rfl, ⟨quiet_clear _ h.quiet.wire, h.wip⟩, rfl⟩
  · exact h.quiet.wire

theorem spiflashPageWrite_asPlain (h : s.Idle) (hmode : 0 ≤ s.ppMode) (dest len : ℕ)
    (buf : ℕ → Byte) :
    AsPlain s ((Call.write dest len buf).exec hw s)
      ((Call.write dest len buf).plain hw.part.byteCount s.ppMode s.chip.content) := by
  simp only [Call.exec, Call.plain]
  by_cases hsize : hw.part.byteCount < dest + len
  · by_cases hnone : 0 < s.ppMode ∧ len = 0
    · have hrun : spiflashPageWrite hw hw.part.byteCount dest len buf s = (some (0, 0), s) := by
        rw [spiflashPageWrite, get_bind_apply, if_pos hnone.1, spiflashWrite, if_pos hnone.2]
        rfl
      rw [if_pos hnone, bind_of_some hrun]
      exact ⟨rfl, rfl, h, rfl⟩
    · have hrun : spiflashPageWrite hw hw.part.byteCount dest len buf s =
          (some (-einval, 0), s) := by
        rw [spiflashPageWrite, get_bind_apply]
        split
        · next hfailed => rw [spiflashWrite, if_neg (hnone ⟨hfailed, ·⟩), if_pos hsize]; rfl
        · rfl
      rw [if_neg hnone, if_pos hsize, bind_of_some hrun]
      exact ⟨rfl, rfl, h, rfl⟩
  · obtain ⟨s', hrun, hs'⟩ := spiflashPageWrite_decided hw buf h hmode (not_lt.mp hsize)
    rw [bind_of_some hrun, if_neg hsize]
    split
    · next hnone => obtain ⟨-, rfl⟩ := hnone; exact (Nor.overlay_zero _ _ _ ▸ hs').asPlain
    · exact hs'.asPlain

theorem Call.exec_asPlain (h : s.Idle) (hmode : 0 ≤ s.ppMode) (call : Call) :
    AsPlain s (call.exec hw s) (call.plain hw.part.byteCount s.ppMode s.chip.content) := by
  cases call with
  | erase address len =>
    simp only [Call.exec, Call.plain]
    split
    · next hsize =>
      rw [spiflashErase, if_pos hsize]
      exact ⟨rfl, rfl, h, rfl⟩
    · next hsize =>
      obtain ⟨s', hrun, hs'⟩ := spiflashErase_spec hw h hsize
      rw [bind_of_some hrun]
      exact hs'.asPlain
  | read source len => exact spiflashRead_asPlain hw h source len
  | write dest len buf => exact spiflashPageWrite_asPlain hw h hmode dest len buf
  | enable text => exact ⟨rfl, rfl, ⟨⟨h.quiet.1, h.quiet.2, h.quiet.3⟩, h.wip⟩, rfl⟩

/-- Once the test was made, the driver answers every sequence of requests as the plain array does
and leaves its cells, whatever is written to `pp_enable` between them. -/
theorem serve_asPlain (hw : Hardware) (s : Spi) (calls : List Call) (hidle : s.Idle)
    (hmode : 0 ≤ s.ppMode) :
    AsPlain s (serve hw calls s)
      (plainServe hw.part.byteCount s.ppMode calls s.chip.content) := by
  induction calls generalizing s with
  | nil => exact ⟨rfl, rfl, hidle, rfl⟩
  | cons call calls ih =>
    have hcall := call.exec_asPlain hw hidle hmode
    have hrest := ih _ hcall.idle (hmode.trans_eq hcall.ppMode.symm)
    rw [hcall.ppMode, hcall.content] at hrest
    exact hcall.bind (hrest.bind ⟨rfl, hrest.content, hrest.idle, rfl⟩)

/-- A sector is erased, written to and read. -/
theorem serve_asPlain_rewrite :
    (serve fourMegabytes [.erase 0 0x10000, .write 3 2 fun _ => 0x5a, .enable ['0'], .read 3 2]
      (resting (fun _ => 0) 0 1)).1 =
        some [(0, none), (0, some (2, [])), (1, none), (0, some (2, [0x5a, 0x5a]))] :=
  (serve_asPlain fourMegabytes _ _ (resting_idle _ 0 1) le_rfl).reply.trans (by decide)

/-- The request is answered with 0, and the cells it asked for are erased and no others. -/
def ErasesExactly (address len : ℕ) : Prop :=
  ∀ s : Spi, s.Idle → ∃ s', spiflashErase hw hw.part.byteCount address len s = (some 0, s') ∧
    ∀ a, s'.chip.content a =
      if address ≤ a ∧ a < address + len then 0xff else s.chip.content a

theorem sector_eq_range_iff {base len : ℕ} :
    (∀ a, a / stmSectorSize = base / stmSectorSize ↔ base ≤ a ∧ a < base + len) ↔
      base % stmSectorSize = 0 ∧ len = stmSectorSize := by
  simp only [stmSectorSize]
  constructor
  · intro h
    have hfirst := (h (base / 0x10000 * 0x10000)).mp (by omega)
    have hlast := (h (base / 0x10000 * 0x10000 + 0xffff)).mp (by omega)
    have hnext := mt (h (base / 0x10000 * 0x10000 + 0x10000)).mpr (by omega)
    omega
  · rintro ⟨hbase, rfl⟩ a
    omega

/-- A request inside the device erases what it asks for exactly if that is one whole sector. -/
theorem spiflashErase_exact_iff (hw : Hardware) (address len : ℕ)
    (hsize : address + len ≤ hw.part.byteCount) :
    ErasesExactly hw address len ↔ address % stmSectorSize = 0 ∧ len = stmSectorSize := by
  have hsmall := hw.part.byteCount_lt
  have hchecked : ¬ hw.part.byteCount < (address + len) % 2 ^ 32 := by
    rw [mod_eq_of_lt (by omega)]
    omega
  have haddress : address % 2 ^ 24 = address := mod_eq_of_lt (by omega)
  constructor
  · intro h
    -- in an array of zeroes the erased cells show
    obtain ⟨s', hrun, hcell⟩ := h (resting (fun _ => 0) 0 0) (resting_idle _ 0 0)
    obtain ⟨_, hrun', hs'⟩ := spiflashErase_spec hw (resting_idle (fun _ => 0) 0 0) hchecked
    obtain rfl := (Prod.mk.inj (hrun.symm.trans hrun')).2
    have herased (a : ℕ) : a / stmSectorSize =
        address % hw.part.byteCount / stmSectorSize ↔ address ≤ a ∧ a < address + len := by
      have hboth := hs'.content ▸ hcell a
      rw [haddress, Nor.erase] at hboth
      by_cases hin : a / stmSectorSize = address % hw.part.byteCount / stmSectorSize <;>
        by_cases hasked : address ≤ a ∧ a < address + len <;>
        simp_all [resting]
    obtain hlt | rfl : address < hw.part.byteCount ∨ len = 0 := by omega
    · rw [mod_eq_of_lt hlt] at herased
      exact sector_eq_range_iff.mp herased
    · have := (herased _).mp rfl
      omega
  · rintro hsector s hidle
    obtain ⟨s', hrun, hs'⟩ := spiflashErase_spec hw hidle hchecked
    refine ⟨s', hrun, fun a => ?_⟩
    have hlt : address < hw.part.byteCount := by
      simp only [stmSectorSize] at hsector
      omega
    rw [hs'.content, haddress, mod_eq_of_lt hlt, Nor.erase,
      if_congr (sector_eq_range_iff.mpr hsector a) rfl rfl]
    rfl

/-- Two sectors at once. -/
theorem spiflashErase_exact_iff_twoSectors : ¬ ErasesExactly fourMegabytes 0 0x20000 := by
  rw [spiflashErase_exact_iff fourMegabytes 0 0x20000 (by decide)]
  decide

end Wbr1310.Spiflash
