import Wbr1310.Httpd.Image

/-!
# What the check of an image accepts and reads

`v2_check_image_block` walks over the blocks of an image. It accepts exactly the
concatenations of blocks with right digests, and reads only the image, as long as
at every block it comes to there is a whole header, the device name ends inside the
image, and the size field does not let the unsigned sum wrap around.
-/

namespace Wbr1310.Httpd

open Lib List

variable (machine : Machine) (img : Image)

/-- A whole block in the image with the right magic number and the right digest. -/
structure ValidBlock (i : ℤ) : Prop where
  magic : (blockAt machine img i).magic = cpuToLe machine.order imgV2MagicNo
  inside : i + sizeofImgblock + (blockAt machine img i).size.toNat ≤ img.size
  digest : (blockAt machine img i).computed machine = (blockAt machine img i).digest

/-- The bytes from a position to the end of the image are a concatenation of valid blocks. -/
inductive Blocks : ℤ → Prop where
  | done : Blocks img.size
  | cons {i : ℤ} (valid : ValidBlock machine img i)
      (rest : Blocks (i + sizeofImgblock + (blockAt machine img i).size.toNat)) : Blocks i

/-- The offsets that the check comes to, over valid blocks. -/
inductive Walk : ℤ → Prop where
  | start : Walk sizeofImghdr2
  | next {i : ℤ} (walk : Walk i) (valid : ValidBlock machine img i) :
      Walk (i + sizeofImgblock + (blockAt machine img i).size.toNat)

/-- The check of the image ends, reads only bytes of the image, and accepts it exactly if
what follows the header is a concatenation of valid blocks. -/
def CheckExact : Prop :=
  ∃ bound n r, v2CheckImageBlock machine img bound n = some r ∧
    (∀ s ∈ r.reads, s.Inside img.size) ∧ (r.ret = 0 ↔ Blocks machine img sizeofImghdr2)

/-- A block that can be looked at: its header is whole, its device name ends inside the
image, and a wrapped sum does not make it look as if it fitted. -/
structure Readable (i : ℤ) : Prop where
  header : i + sizeofImgblock ≤ img.size
  name : ∃ k : ℕ, i + 12 + k < img.size ∧ img.mem (i + 12 + k) = 0
  fits : (blockAt machine img i).magic = cpuToLe machine.order imgV2MagicNo →
    (i + sizeofImgblock + (blockAt machine img i).size.toNat) % 2 ^ 32 ≤ img.size →
    i + sizeofImgblock + (blockAt machine img i).size.toNat ≤ img.size

variable {machine img} {i : ℤ}

theorem Walk.bounds (h : Walk machine img i) : (36 : ℤ) ≤ i ∧ i ≤ img.size := by
  induction h with
  | start =>
    have := img.header_lt
    simp only [sizeofImghdr2] at this ⊢
    omega
  | next _ valid ih =>
    have := valid.inside
    simp only [sizeofImgblock] at this ⊢
    omega

theorem ValidBlock.lt (h : ValidBlock machine img i) : i < img.size := by
  have := h.inside
  simp only [sizeofImgblock] at this
  omega

theorem blocks_iff_of_lt (hi : i < img.size) : Blocks machine img i ↔ ValidBlock machine img i ∧
    Blocks machine img (i + sizeofImgblock + (blockAt machine img i).size.toNat) := by
  constructor
  · intro h
    cases h with
    | done => omega
    | cons valid rest => exact ⟨valid, rest⟩
  · rintro ⟨valid, rest⟩
    exact .cons valid rest

def Tested (machine : Machine) (img : Image) (i : ℤ) : Prop :=
  (blockAt machine img i).magic = cpuToLe machine.order imgV2MagicNo ∧
    ¬ outOfBoundary img i (blockAt machine img i)

instance : Decidable (Tested machine img i) := inferInstanceAs (Decidable (_ ∧ _))

def roundReads (machine : Machine) (img : Image) (i : ℤ) (nameLength : ℕ) : List Span :=
  headerReads i nameLength ++
    if Tested machine img i then digestReads i (blockAt machine img i) else []

variable {len m bound n : ℕ} {s : CheckState} {r : CheckResult}

theorem headerReads_inside (hi : 0 ≤ i) :
    (∀ r ∈ headerReads i len, r.Inside m) ↔ i + sizeofImgblock ≤ m ∧ i + 12 + len < m := by
  simp only [headerReads, Span.Inside, sizeofImgblock, forall_mem_cons, not_mem_nil,
    false_implies, implies_true, and_true]
  push_cast
  omega

theorem digestReads_inside {b : ImgBlock} (hi : 0 ≤ i) (hh : i + sizeofImgblock ≤ m) :
    (∀ r ∈ digestReads i b, r.Inside m) ↔ i + sizeofImgblock + b.size.toNat ≤ m := by
  simp only [digestReads, Span.Inside, sizeofImgblock, forall_mem_cons, not_mem_nil,
    false_implies, implies_true, and_true] at hh ⊢
  push_cast at hh ⊢
  omega

theorem roundReads_inside (hi : 0 ≤ i) :
    (∀ r ∈ roundReads machine img i len, r.Inside m) ↔ i + sizeofImgblock ≤ m ∧
      i + 12 + len < m ∧ (Tested machine img i →
        i + sizeofImgblock + (blockAt machine img i).size.toNat ≤ m) := by
  rw [roundReads, forall_mem_append, headerReads_inside hi, and_assoc]
  refine and_congr_right fun hh => and_congr_right fun _ => ?_
  by_cases ht : Tested machine img i
  · rw [if_pos ht, digestReads_inside hi hh]
    exact ⟨fun h _ => h, fun h => h ht⟩
  · rw [if_neg ht]
    exact ⟨fun _ h => absurd h ht, fun _ => forall_mem_nil _⟩

theorem checkRound_passes (hs : s.offset < img.size)
    (hlen : strlen img.mem bound (s.offset + 12) = some len) (ht : Tested machine img s.offset)
    (hd : (blockAt machine img s.offset).computed machine = (blockAt machine img s.offset).digest) :
    checkRound machine img bound s = some (.inl
      { offset := advance s.offset (blockAt machine img s.offset)
        block := some s.offset
        reads := s.reads ++ roundReads machine img s.offset len
        verified := s.verified ++ [blockAt machine img s.offset] }) := by
  simp only [checkRound, hs, if_true, hlen, ht.1, ht.2, hd, ne_eq, not_true_eq_false, if_false,
    roundReads, ht, append_assoc]

theorem checkRound_fails (hs : s.offset < img.size)
    (hlen : strlen img.mem bound (s.offset + 12) = some len)
    (hf : ¬ (Tested machine img s.offset ∧
      (blockAt machine img s.offset).computed machine = (blockAt machine img s.offset).digest)) :
    checkRound machine img bound s = some (.inr ⟨-1, s.reads ++
      (roundReads machine img s.offset len ++ [⟨s.offset, 16⟩]), s.verified⟩) := by
  have hne : s.offset ≠ img.size := Int.ne_of_lt hs
  simp only [checkRound, hs, if_true, hlen]
  by_cases hm : (blockAt machine img s.offset).magic = cpuToLe machine.order imgV2MagicNo
  · by_cases hb : outOfBoundary img s.offset (blockAt machine img s.offset)
    · simp [hm, hb, Tested, roundReads, checkEnd, hne]
    · have ht : Tested machine img s.offset := ⟨hm, hb⟩
      have hd : (blockAt machine img s.offset).computed machine ≠
        (blockAt machine img s.offset).digest := fun hd => hf ⟨ht, hd⟩
      simp [hm, hb, hd, ht, roundReads, checkEnd, hne]
  · simp [hm, Tested, roundReads, checkEnd, hne]

theorem ValidBlock.tested (h : ValidBlock machine img i) (hi : 0 ≤ i) : Tested machine img i := by
  refine ⟨h.magic, ?_⟩
  have hin := h.inside
  have hsize := img.size_lt
  unfold outOfBoundary
  rw [Int.emod_eq_of_lt (by simp only [sizeofImgblock]; omega) (by omega)]
  omega

theorem advance_eq (hi : 0 ≤ i)
    (h : i + sizeofImgblock + (blockAt machine img i).size.toNat ≤ img.size) :
    advance i (blockAt machine img i) =
      i + sizeofImgblock + (blockAt machine img i).size.toNat := by
  have hsize := img.size_lt
  apply Int.bmod_eq_of_le <;> simp only [sizeofImgblock] at h ⊢ <;> omega

theorem validBlock_iff (hi : 0 ≤ i) (hr : Readable machine img i) : ValidBlock machine img i ↔
    Tested machine img i ∧
      (blockAt machine img i).computed machine = (blockAt machine img i).digest := by
  constructor
  · intro h
    exact ⟨h.tested hi, h.digest⟩
  · rintro ⟨ht, hd⟩
    exact ⟨ht.1, hr.fits ht.1 (Int.not_lt.mp ht.2), hd⟩

theorem checkRound_name {o : CheckState ⊕ CheckResult} (hs : s.offset < img.size)
    (h : checkRound machine img bound s = some o) :
    ∃ len, strlen img.mem bound (s.offset + 12) = some len := by
  simp only [checkRound, hs, if_true] at h
  cases hlen : strlen img.mem bound (s.offset + 12) with
  | none => simp [hlen] at h
  | some len => exact ⟨len, rfl⟩

theorem checkRound_end (hs : ¬ s.offset < img.size) :
    checkRound machine img bound s = some (.inr (checkEnd img s)) := by
  simp only [checkRound, hs, if_false]

/-- What a round comes to: a block passes, a block fails, or there is none left. -/
inductive CheckRound (machine : Machine) (img : Image) (bound : ℕ) (s : CheckState) :
    CheckState ⊕ CheckResult → Prop where
  | passes {len : ℕ} (lt : s.offset < img.size)
      (name : strlen img.mem bound (s.offset + 12) = some len)
      (tested : Tested machine img s.offset)
      (digest : (blockAt machine img s.offset).computed machine =
        (blockAt machine img s.offset).digest) :
      CheckRound machine img bound s (.inl
        { offset := advance s.offset (blockAt machine img s.offset)
          block := some s.offset
          reads := s.reads ++ roundReads machine img s.offset len
          verified := s.verified ++ [blockAt machine img s.offset] })
  | fails {len : ℕ} (lt : s.offset < img.size)
      (name : strlen img.mem bound (s.offset + 12) = some len) :
      CheckRound machine img bound s (.inr ⟨-1, s.reads ++
        (roundReads machine img s.offset len ++ [⟨s.offset, 16⟩]), s.verified⟩)
  | done (ge : ¬ s.offset < img.size) : CheckRound machine img bound s (.inr (checkEnd img s))

theorem checkRound_cases {o : CheckState ⊕ CheckResult}
    (h : checkRound machine img bound s = some o) : CheckRound machine img bound s o := by
  by_cases hs : s.offset < img.size
  · obtain ⟨len, hlen⟩ := checkRound_name hs h
    by_cases hp : Tested machine img s.offset ∧
        (blockAt machine img s.offset).computed machine = (blockAt machine img s.offset).digest
    · rw [checkRound_passes hs hlen hp.1 hp.2] at h
      obtain rfl := Option.some.inj h
      exact .passes hs hlen hp.1 hp.2
    · rw [checkRound_fails hs hlen hp] at h
      obtain rfl := Option.some.inj h
      exact .fails hs hlen
  · rw [checkRound_end hs] at h
    obtain rfl := Option.some.inj h
    exact .done hs

/-- The invariant of the loop over the blocks. -/
structure CheckInv (machine : Machine) (img : Image) (s : CheckState) : Prop where
  walk : Walk machine img s.offset
  blocks : Blocks machine img sizeofImghdr2 ↔ Blocks machine img s.offset
  reads : ∀ r ∈ s.reads, r.Inside img.size

def CheckPost (machine : Machine) (img : Image) (r : CheckResult) : Prop :=
  (∀ s ∈ r.reads, s.Inside img.size) ∧ (r.ret = 0 ↔ Blocks machine img sizeofImghdr2)

theorem CheckInv.round (hs : CheckInv machine img s)
    (hr : s.offset < img.size → Readable machine img s.offset) :
    (∃ s', checkRound machine img img.size s = some (.inl s') ∧ CheckInv machine img s' ∧
      (img.size - s'.offset).toNat < (img.size - s.offset).toNat) ∨
    ∃ r, checkRound machine img img.size s = some (.inr r) ∧ CheckPost machine img r := by
  obtain ⟨hlow, hhigh⟩ := hs.walk.bounds
  by_cases hlt : s.offset < img.size
  · have hread := hr hlt
    obtain ⟨k, hk, hz⟩ := hread.name
    obtain ⟨len, hle, hlen⟩ := strlen_of_zero hz (show k < img.size by omega)
    have hnew : ∀ r ∈ roundReads machine img s.offset len, r.Inside img.size := by
      rw [roundReads_inside (by omega)]
      exact ⟨hread.header, by omega, fun ht => hread.fits ht.1 (Int.not_lt.mp ht.2)⟩
    have hvalid := validBlock_iff (by omega) hread
    by_cases hv : ValidBlock machine img s.offset
    · obtain ⟨ht, hd⟩ := hvalid.mp hv
      refine .inl ⟨_, checkRound_passes hlt hlen ht hd, ⟨?_, ?_, ?_⟩, ?_⟩
      · rw [advance_eq (by omega) hv.inside]
        exact hs.walk.next hv
      · rw [advance_eq (by omega) hv.inside, hs.blocks, blocks_iff_of_lt hlt]
        exact and_iff_right hv
      · exact forall_mem_append.mpr ⟨hs.reads, hnew⟩
      · rw [advance_eq (by omega) hv.inside]
        simp only [sizeofImgblock]
        omega
    · refine .inr ⟨_, checkRound_fails hlt hlen (hvalid.not.mp hv), ?_, ?_⟩
      · have hheader := hread.header
        simp only [sizeofImgblock] at hheader
        simp only [forall_mem_append, forall_mem_singleton, Span.Inside]
        exact ⟨hs.reads, hnew, by omega, by push_cast; omega⟩
      · rw [hs.blocks, blocks_iff_of_lt hlt]
        simp [hv]
  · have heq : s.offset = img.size := by omega
    refine .inr ⟨_, checkRound_end hlt, ?_, ?_⟩
    · simpa [checkEnd, heq] using hs.reads
    · rw [hs.blocks, heq]
      simp [checkEnd, heq, Blocks.done]

theorem checkExact_of_readable
    (h : ∀ i, Walk machine img i → i < img.size → Readable machine img i) :
    CheckExact machine img := by
  have hfirst : CheckInv machine img .first := ⟨.start, Iff.rfl, by simp [CheckState.first]⟩
  obtain ⟨n, r, hrun, hpost⟩ := Loop.run_total (fun s => ((img.size : ℤ) - s.offset).toNat)
    (fun s (hs : CheckInv machine img s) => hs.round (h s.offset hs.walk)) hfirst
  exact ⟨img.size, n, r, hrun, hpost⟩

theorem run_reads_subset (h : Loop.run (checkRound machine img bound) n s = some r) :
    s.reads ⊆ r.reads := by
  refine Loop.run_grows (R := fun a b : List Span => a ⊆ b) List.Subset.refl
    (fun _ _ _ => List.Subset.trans) ?_ h
  intro t o hround
  cases checkRound_cases hround with
  | passes lt name tested digest => exact subset_append_left _ _
  | fails lt name => exact subset_append_left _ _
  | done ge =>
    simp only [Sum.elim_inr, checkEnd]
    split
    · exact List.Subset.refl _
    · exact subset_append_left _ _

theorem round_of_run (hs : s.offset < img.size)
    (h : Loop.run (checkRound machine img bound) (n + 1) s = some r) :
    ∃ len, strlen img.mem bound (s.offset + 12) = some len ∧
      roundReads machine img s.offset len ⊆ r.reads := by
  obtain ⟨s', hround, hrun⟩ | hround := Loop.run_succ_cases h
  · cases checkRound_cases hround with
    | passes lt name tested digest =>
      exact ⟨_, name,
        List.Subset.trans (subset_append_right _ _) (run_reads_subset hrun)⟩
  · cases checkRound_cases hround with
    | fails lt name =>
      exact ⟨_, name,
        List.Subset.trans (subset_append_left _ _) (subset_append_right _ _)⟩
    | done ge => exact absurd hs ge

/-- The check comes to every offset over valid blocks. -/
theorem Walk.reached (hw : Walk machine img i)
    (hrun : v2CheckImageBlock machine img bound n = some r) :
    ∃ s, Loop.Reaches (checkRound machine img bound) .first s ∧ s.offset = i := by
  induction hw with
  | start => exact ⟨.first, .refl, rfl⟩
  | next walk valid ih =>
    obtain ⟨s, hreach, rfl⟩ := ih
    obtain ⟨m, hm⟩ := hreach.run hrun
    obtain ⟨len, hlen, -⟩ := round_of_run valid.lt hm
    have hi := walk.bounds.1
    have hround := checkRound_passes valid.lt hlen (valid.tested (by omega)) valid.digest
    exact ⟨_, hreach.tail hround, advance_eq (by omega) valid.inside⟩

/-- A block that can be looked at without leaving the first `m` bytes of the image. -/
structure ReadableIn (machine : Machine) (img : Image) (m : ℕ) (i : ℤ) : Prop where
  header : i + sizeofImgblock ≤ m
  name : ∃ k : ℕ, i + 12 + k < m ∧ img.mem (i + 12 + k) = 0
  fits : (blockAt machine img i).magic = cpuToLe machine.order imgV2MagicNo →
    (i + sizeofImgblock + (blockAt machine img i).size.toNat) % 2 ^ 32 ≤ img.size →
    i + sizeofImgblock + (blockAt machine img i).size.toNat ≤ m

theorem ReadableIn.readable (h : ReadableIn machine img m i) (hm : m ≤ img.size) :
    Readable machine img i := by
  obtain ⟨k, hk, hz⟩ := h.name
  have hheader := h.header
  refine ⟨by omega, ⟨k, by omega, hz⟩, ?_⟩
  intro hmagic hle
  have := h.fits hmagic hle
  omega

theorem readableIn_of_reads (hrun : v2CheckImageBlock machine img bound n = some r)
    (hreads : ∀ s ∈ r.reads, s.Inside m) (hw : Walk machine img i) (hi : i < img.size) :
    ReadableIn machine img m i := by
  obtain ⟨s, hreach, rfl⟩ := hw.reached hrun
  obtain ⟨k, hk⟩ := hreach.run hrun
  obtain ⟨len, hlen, hsub⟩ := round_of_run hi hk
  have hlow := hw.bounds.1
  obtain ⟨hheader, hname, hfits⟩ :=
    (roundReads_inside (by omega)).mp fun x hx => hreads x (hsub hx)
  refine ⟨hheader, ⟨len, hname, strlen_end hlen⟩, ?_⟩
  intro hmagic hle
  exact hfits ⟨hmagic, Int.not_lt.mpr hle⟩

theorem readable_of_checkExact (h : CheckExact machine img) (hw : Walk machine img i)
    (hi : i < img.size) : Readable machine img i := by
  obtain ⟨bound, n, r, hrun, hreads, -⟩ := h
  exact (readableIn_of_reads hrun hreads hw hi).readable le_rfl

theorem ReadableIn.roundReads (h : ReadableIn machine img m i) (hi : 0 ≤ i)
    (hlen : strlen img.mem bound (i + 12) = some len) :
    ∀ r ∈ roundReads machine img i len, r.Inside m := by
  obtain ⟨k, hk, hz⟩ := h.name
  have hle := strlen_le hlen hz
  rw [roundReads_inside hi]
  exact ⟨h.header, by omega, fun ht => h.fits ht.1 (Int.not_lt.mp ht.2)⟩

theorem reads_of_readableIn (hm : m ≤ img.size)
    (h : ∀ i, Walk machine img i → i < img.size → ReadableIn machine img m i)
    (hrun : v2CheckImageBlock machine img bound n = some r) : ∀ s ∈ r.reads, s.Inside m := by
  refine Loop.run_partial (I := fun s => Walk machine img s.offset ∧ ∀ x ∈ s.reads, x.Inside m)
    (Q := fun r => ∀ s ∈ r.reads, s.Inside m) ?_ ?_ hrun ⟨.start, by simp [CheckState.first]⟩
  · rintro s s' ⟨hw, hs⟩ hround
    cases checkRound_cases hround with
    | passes lt name tested digest =>
      have hlow := hw.bounds.1
      have hread := h s.offset hw lt
      have hvalid := (validBlock_iff (by omega) (hread.readable hm)).mpr ⟨tested, digest⟩
      refine ⟨?_, forall_mem_append.mpr ⟨hs, hread.roundReads (by omega) name⟩⟩
      rw [advance_eq (by omega) hvalid.inside]
      exact hw.next hvalid
  · rintro s r ⟨hw, hs⟩ hround
    obtain ⟨hlow, hhigh⟩ := hw.bounds
    cases checkRound_cases hround with
    | fails lt name =>
      have hread := h s.offset hw lt
      have hheader := hread.header
      simp only [sizeofImgblock] at hheader
      simp only [forall_mem_append, forall_mem_singleton, Span.Inside]
      exact ⟨hs, hread.roundReads (by omega) name, by omega, by push_cast; omega⟩
    | done ge =>
      have heq : s.offset = img.size := by omega
      simpa [checkEnd, heq] using hs

theorem checkReads_iff (hm : m ≤ img.size) :
    (∃ bound n r, v2CheckImageBlock machine img bound n = some r ∧ ∀ s ∈ r.reads, s.Inside m) ↔
      ∀ i, Walk machine img i → i < img.size → ReadableIn machine img m i := by
  constructor
  · rintro ⟨bound, n, r, hrun, hreads⟩ i hw hi
    exact readableIn_of_reads hrun hreads hw hi
  · intro h
    obtain ⟨bound, n, r, hrun, -⟩ := checkExact_of_readable fun i hw hi => (h i hw hi).readable hm
    exact ⟨bound, n, r, hrun, reads_of_readableIn hm h hrun⟩

/-- The check of an image ends, stays inside the image and accepts exactly the
concatenations of valid blocks, precisely if every block it comes to is readable. -/
theorem v2CheckImageBlock_exact_iff (machine : Machine) (img : Image) :
    CheckExact machine img ↔
      ∀ i, Walk machine img i → i < img.size → Readable machine img i :=
  ⟨fun h _ hw hi => readable_of_checkExact h hw hi, checkExact_of_readable⟩

def constantDigest : Machine := ⟨.big, fun _ => Vector.replicate 16 0x11⟩

def stub : Image where
  mem _ := 0
  size := 37
  header_lt := by decide
  size_lt := by decide

/-- One byte behind the header of the image is read as a block. -/
theorem stub_not_checkExact : ¬ CheckExact constantDigest stub := by
  intro h
  have hread := readable_of_checkExact h .start (by decide)
  exact absurd hread.header (by decide)

end Wbr1310.Httpd
