import Wbr1310.Httpd.ImageCheck
import Wbr1310.Httpd.UploadBody
import Wbr1310.Lib.Bytes

/-!
# The handlers of uploads

What `upload_image` and `upload_config` read from `file_ptr` on, and what the second one writes
to the file of the configuration. `v2_image_check` refuses a null pointer, but compares the
length as an unsigned number. `upload_config` looks neither at the pointer nor at the length.
-/

namespace Wbr1310.Httpd

open Lib List Option Nat

/-- What a handler reads from `file_ptr` on, and whether it follows a null pointer of its own. -/
structure Touched where
  reads : List Span
  null : Bool

def Touched.after (reads : List Span) (t : Touched) : Touched := ⟨reads ++ t.reads, t.null⟩

/-- How many bytes `strncmp` reads of a string. -/
def strncmpCount (a b : ℤ → UInt8) : ℕ → ℤ → ℕ
  | 0, _ => 0
  | n + 1, i => if a i ≠ b i ∨ a i = 0 then 1 else strncmpCount a b n (i + 1) + 1

def imageOf (mem : ℤ → UInt8) (size : ℤ) : Option Image :=
  if h : sizeofImghdr2 < size.toNat ∧ size.toNat < 2 ^ 31 then some ⟨mem, size.toNat, h.1, h.2⟩
  else none

section Check

variable (machine : Machine) (signature : List UInt8) (frame mem : ℤ → UInt8) (size : ℤ)

/-- The comparisons of the signatures depend on the memory only. -/
def signatureMatches : Bool := signatureOk ⟨mem, 37, stub.header_lt, stub.size_lt⟩ signature frame

def signatureReads : List Span :=
  let array := signatureArray signature frame
  let i := findUnderscore array (maxSignature + 1) 0
  ⟨0, strncmpCount array mem maxSignature 0⟩ ::
    if strncmpEq array mem maxSignature 0 then []
    else if array i = 95 then [⟨0, strncmpCount (alphaArray array i) mem (i.toNat + 7) 0⟩]
    else []

/-- `v2_check_image_block`. With a negative size the loop is not entered, and bytes of the block,
which is null, are printed. -/
def blockTouched (bound n : ℕ) : Option Touched :=
  match imageOf mem size with
  | some img => (v2CheckImageBlock machine img bound n).map fun r => ⟨r.reads, false⟩
  | none => some ⟨[], true⟩

/-- The part of `v2_image_check` behind the test of the magic number; the signature of the image
is printed as a string. -/
def signatureTouched (stringBound bound n : ℕ) : Option Touched :=
  match strlen mem stringBound 0 with
  | none => none
  | some len =>
    (if signatureMatches signature frame mem then blockTouched machine mem size bound n
      else some ⟨[], false⟩).map (.after (⟨0, len + 1⟩ :: signatureReads signature frame mem))

/-- `v2_image_check` of a pointer that is not null. -/
def imageTouched (stringBound bound n : ℕ) : Option Touched :=
  -- the size is compared with an unsigned number
  if size % 2 ^ 32 ≤ sizeofImghdr2 then some ⟨[], false⟩
  else
    (if word machine.order mem 32 = cpuToLe machine.order imgV2MagicNo then
        signatureTouched machine signature frame mem size stringBound bound n
      else some ⟨[], false⟩).map (.after [⟨32, 4⟩])

end Check

/-- How many bytes agree with the signature, up to the case of letters. -/
def agreeing (mem : ℤ → UInt8) : List UInt8 → ℤ → ℕ
  | [], _ => 0
  | c :: cs, i => if Bytes.toLower (mem i) = Bytes.toLower c then agreeing mem cs (i + 1) + 1 else 0

/-- What `upload_config` reads from `file_ptr` on, and what it writes. -/
structure ConfigRun where
  reads : List Span
  written : Option (List UInt8)

/-- `upload_config`: `strncasecmp` up to the first difference, and `fwrite` of what is behind the
signature and one byte more, with a length that is taken as unsigned. -/
def uploadConfig (signature : List UInt8) (mem : ℤ → UInt8) (fileLength : ℤ) (fopen : Bool) :
    ConfigRun :=
  let matched := agreeing mem signature 0
  let compared : Span := ⟨0, min (matched + 1) signature.length⟩
  let filelen := ((fileLength - (signature.length + 1)) % 2 ^ 32).toNat
  if matched = signature.length ∧ fopen = true then
    ⟨[compared, ⟨signature.length + 1, filelen⟩].filter (0 < ·.length),
      some (bytes mem (signature.length + 1) filelen)⟩
  else ⟨[compared].filter (0 < ·.length), none⟩

namespace Mathopd

variable (machine : Machine) (signature : List UInt8) (frame : ℤ → UInt8)

section

variable (s : Mathopd) (stringBound bound n : ℕ)

/-- The memory from `file_ptr` on. -/
def fileMem : ℤ → UInt8 :=
  match s.upload.filePtr with
  | some p => fun i => (s.blocks p.block).mem (p.offset + i)
  | none => fun _ => 0

/-- The bytes lie between `file_ptr` and `file_ptr + file_length`, and inside the block of the
upload. -/
def InFile (r : Span) : Prop :=
  ∃ p, s.upload.filePtr = some p ∧ s.upload.data = some p.block ∧
    (s.blocks p.block).live = true ∧ 0 ≤ r.start ∧ r.start + r.length ≤ s.upload.fileLength ∧
    0 ≤ p.offset + r.start ∧ p.offset + r.start + r.length ≤ (s.blocks p.block).size

def room : ℕ :=
  match s.upload.filePtr with
  | some p => min s.upload.fileLength.toNat ((s.blocks p.block).size - p.offset).toNat
  | none => 0

/-- `v2_image_check` of the file; it refuses a null pointer. -/
def uploadImage : Option Touched :=
  match s.upload.filePtr with
  | none => some ⟨[], false⟩
  | some _ =>
    imageTouched machine signature frame s.fileMem s.upload.fileLength stringBound bound n

/-- `upload_image` returns, follows no null pointer and reads only bytes of the file. -/
def ImageSafe : Prop :=
  ∃ stringBound bound n t, s.uploadImage machine signature frame stringBound bound n = some t ∧
    t.null = false ∧ ∀ r ∈ t.reads, s.InFile r

/-- `upload_config` reads only bytes of the file, so that it follows no null pointer, and what it
writes is the file behind the signature and one byte. -/
def ConfigSafe : Prop :=
  ∀ fopen, (∀ r ∈ (uploadConfig signature s.fileMem s.upload.fileLength fopen).reads,
      s.InFile r) ∧
    ∀ w, (uploadConfig signature s.fileMem s.upload.fileLength fopen).written = some w →
      signature.length + 1 ≤ s.upload.fileLength ∧
      w = (bytes s.fileMem 0 s.upload.fileLength.toNat).drop (signature.length + 1)

/-- The length is not negative, and if it is over that of the header, so are the bytes inside the
block. If the magic number is right, the signature ends there, and if the signature is right, so
does all that is looked at of the blocks. -/
def ImageReadable : Prop :=
  s.upload.filePtr = none ∨ 0 ≤ s.upload.fileLength ∧
    ∀ img ∈ imageOf s.fileMem s.upload.fileLength, sizeofImghdr2 ≤ s.room ∧
      (word machine.order img.mem 32 = cpuToLe machine.order imgV2MagicNo →
        (∃ k < s.room, img.mem k = 0) ∧ (signatureOk img signature frame = true →
          ∀ i, Walk machine img i → i < img.size → ReadableIn machine img s.room i))

/-- How many bytes `upload_config` needs. -/
def configNeeds : ℕ :=
  if agreeing s.fileMem signature 0 < signature.length then agreeing s.fileMem signature 0 + 1
  else if s.upload.fileLength = signature.length + 1 then signature.length
  else s.upload.fileLength.toNat

/-- The file is longer than what agrees with the signature, and what is needed of it lies inside
the block. -/
def ConfigReadable : Prop :=
  agreeing s.fileMem signature 0 + 1 ≤ s.upload.fileLength ∧ s.configNeeds signature ≤ s.room

end

end Mathopd

/-- What holds of the record of an upload whenever a handler is called: the file begins inside the
block, and its length is that of a part or up to four bytes less than none. -/
structure Located (s : Mathopd) : Prop where
  consistent : Consistent s
  offset : ∀ p, s.upload.filePtr = some p → 0 ≤ p.offset
  low : -4 ≤ s.upload.fileLength
  high : s.upload.fileLength < 2 ^ 31

section Reads

variable {machine : Machine} {signature : List UInt8} {frame : ℤ → UInt8} {s : Mathopd} {r : Span}

theorem Mathopd.InFile.inside (h : s.InFile r) : r.Inside s.room := by
  obtain ⟨p, hp, _, _, hstart, hfile, _, hblock⟩ := h
  simp only [Span.Inside, Mathopd.room, hp]
  omega

theorem Located.inFile (hs : Located s) (hr : r.Inside s.room) (hroom : 0 < s.room) :
    s.InFile r := by
  cases hp : s.upload.filePtr with
  | none =>
    rw [Mathopd.room, hp] at hroom
    exact absurd hroom (lt_irrefl 0)
  | some p =>
    have hdata := hs.consistent.file p hp
    have hoffset := hs.offset p hp
    simp only [Span.Inside, Mathopd.room, hp] at hr hroom
    refine ⟨p, hp, hdata, hs.consistent.live _ hdata, hr.1, ?_, ?_, ?_⟩ <;> omega

theorem Located.inFile_iff (hs : Located s) (hr : 0 < r.length) :
    s.InFile r ↔ r.Inside s.room := by
  refine ⟨fun h => h.inside, fun h => hs.inFile h ?_⟩
  have := h.2
  have := h.1
  omega

theorem agreeing_le (mem : ℤ → UInt8) (signature : List UInt8) (i : ℤ) :
    agreeing mem signature i ≤ signature.length := by
  induction signature generalizing i with
  | nil => exact le_refl 0
  | cons c cs ih =>
    rw [agreeing]
    split
    · exact succ_le_succ (ih (i + 1))
    · exact zero_le _

theorem Located.config_differs (hs : Located s)
    (hk : agreeing s.fileMem signature 0 < signature.length) :
    s.ConfigSafe signature ↔ s.ConfigReadable signature := by
  have hrun : ∀ fopen, uploadConfig signature s.fileMem s.upload.fileLength fopen =
      ⟨[⟨0, agreeing s.fileMem signature 0 + 1⟩], none⟩ := by
    intro fopen
    have hmin : min (agreeing s.fileMem signature 0 + 1) signature.length =
        agreeing s.fileMem signature 0 + 1 := min_eq_left hk
    rw [uploadConfig, if_neg fun h => Nat.ne_of_lt hk h.1, hmin]
    rfl
  have hneeds : s.configNeeds signature = agreeing s.fileMem signature 0 + 1 := if_pos hk
  have hiff : s.InFile ⟨0, agreeing s.fileMem signature 0 + 1⟩ ↔
      agreeing s.fileMem signature 0 + 1 ≤ s.room := by
    rw [hs.inFile_iff (succ_pos _)]
    simp only [Span.Inside]
    omega
  simp only [Mathopd.ConfigSafe, hrun, forall_mem_singleton, hiff]
  rw [Mathopd.ConfigReadable, hneeds]
  constructor
  · intro h
    have hroom := (h true).1
    have hfile := (hiff.mpr hroom)
    obtain ⟨p, _, _, _, _, hlen, _⟩ := hfile
    exact ⟨by simpa using hlen, hroom⟩
  · intro h fopen
    exact ⟨h.2, fun w e => by cases e⟩

theorem Located.config_agrees (hs : Located s)
    (hk : agreeing s.fileMem signature 0 = signature.length) :
    s.ConfigSafe signature ↔ s.ConfigReadable signature := by
  have hhigh := hs.high
  have hmin : min (agreeing s.fileMem signature 0 + 1) signature.length = signature.length := by
    omega
  have htrue : uploadConfig signature s.fileMem s.upload.fileLength true =
      ⟨[⟨0, signature.length⟩, ⟨signature.length + 1,
        ((s.upload.fileLength - (signature.length + 1)) % 2 ^ 32).toNat⟩].filter (0 < ·.length),
        some (bytes s.fileMem (signature.length + 1)
          ((s.upload.fileLength - (signature.length + 1)) % 2 ^ 32).toNat)⟩ := by
    rw [uploadConfig, if_pos ⟨hk, rfl⟩, hmin]
  have hfalse : uploadConfig signature s.fileMem s.upload.fileLength false =
      ⟨[⟨0, signature.length⟩].filter (0 < ·.length), none⟩ := by
    rw [uploadConfig, if_neg (by simp), hmin]
  have hneeds : s.configNeeds signature = if s.upload.fileLength = signature.length + 1 then
      signature.length else s.upload.fileLength.toNat := if_neg (by omega)
  rw [Mathopd.ConfigReadable, hk, hneeds]
  constructor
  · intro h
    obtain ⟨hreads, hwritten⟩ := h true
    rw [htrue] at hreads hwritten
    obtain ⟨hlen, -⟩ := hwritten _ rfl
    refine ⟨hlen, ?_⟩
    have hinside : ∀ r ∈ [(⟨0, signature.length⟩ : Span), ⟨signature.length + 1,
        ((s.upload.fileLength - (signature.length + 1)) % 2 ^ 32).toNat⟩], 0 < r.length →
          r.Inside s.room :=
      fun r hr hpos => (hreads r (mem_filter.mpr ⟨hr, decide_eq_true hpos⟩)).inside
    simp only [forall_mem_cons, Span.Inside] at hinside
    split
    · by_cases hn : 0 < signature.length
      · have := (hinside.1 hn).2
        omega
      · omega
    · have := (hinside.2.1 (by omega)).2
      omega
  · rintro ⟨hlen, hroom⟩
    have hfilelen : ((s.upload.fileLength - (signature.length + 1)) % 2 ^ 32).toNat =
        s.upload.fileLength.toNat - (signature.length + 1) := by omega
    have hsig : ∀ r ∈ [(⟨0, signature.length⟩ : Span)].filter (0 < ·.length), s.InFile r := by
      intro r hr
      obtain ⟨hr, hpos⟩ := mem_filter.mp hr
      obtain rfl := mem_singleton.mp hr
      rw [hs.inFile_iff (of_decide_eq_true hpos)]
      simp only [Span.Inside]
      split at hroom <;> omega
    intro fopen
    cases fopen with
    | false =>
      rw [hfalse]
      exact ⟨hsig, fun w e => by cases e⟩
    | true =>
      rw [htrue, hfilelen]
      constructor
      · intro r hr
        rw [← singleton_append, filter_append, mem_append] at hr
        obtain hr | hr := hr
        · exact hsig r hr
        · obtain ⟨hr, hpos⟩ := mem_filter.mp hr
          obtain rfl := mem_singleton.mp hr
          rw [hs.inFile_iff (of_decide_eq_true hpos)]
          simp only [decide_eq_true_eq] at hpos
          rw [if_neg (by omega)] at hroom
          simp only [Span.Inside]
          omega
      · intro w e
        obtain rfl := some.inj e
        refine ⟨hlen, ?_⟩
        obtain ⟨n, hn⟩ : ∃ n, s.upload.fileLength.toNat = signature.length + 1 + n :=
          ⟨s.upload.fileLength.toNat - (signature.length + 1), by omega⟩
        rw [hn, drop_bytes, Nat.add_sub_cancel_left, Int.zero_add]
        push_cast
        rfl

theorem Located.configSafe_iff (hs : Located s) :
    s.ConfigSafe signature ↔ s.ConfigReadable signature := by
  obtain hk | hk := lt_or_eq_of_le (agreeing_le s.fileMem signature 0)
  · exact hs.config_differs hk
  · exact hs.config_agrees hk

theorem strncmpCount_pos (a b : ℤ → UInt8) (n : ℕ) (i : ℤ) : 0 < strncmpCount a b (n + 1) i := by
  rw [strncmpCount]
  split <;> omega

theorem strncmpCount_le_of_zero {a b : ℤ → UInt8} {n k : ℕ} {i : ℤ} (hz : b (i + k) = 0) :
    strncmpCount a b n i ≤ k + 1 := by
  induction n generalizing i k with
  | zero => exact zero_le _
  | succ n ih =>
    rw [strncmpCount]
    split
    · omega
    · next hgo =>
      push Not at hgo
      cases k with
      | zero =>
        rw [cast_zero, Int.add_zero] at hz
        exact absurd (hgo.1.trans hz) hgo.2
      | succ k =>
        have hz' : b (i + 1 + k) = 0 := by
          rwa [cast_add, cast_one, add_comm (k : ℤ), ← add_assoc] at hz
        exact succ_le_succ (ih hz')

/-- A handler returns, follows no null pointer, and what it reads passes a test. -/
def SafeIn (P : Span → Prop) (o : Option Touched) : Prop :=
  ∃ t, o = some t ∧ t.null = false ∧ ∀ r ∈ t.reads, P r

theorem safeIn_nothing (P : Span → Prop) : SafeIn P (some ⟨[], false⟩) :=
  ⟨_, rfl, rfl, forall_mem_nil _⟩

theorem safeIn_after (P : Span → Prop) (reads : List Span) (o : Option Touched) :
    SafeIn P (o.map (.after reads)) ↔ (∀ r ∈ reads, P r) ∧ SafeIn P o := by
  constructor
  · rintro ⟨t, ht, hnull, hreads⟩
    obtain ⟨t, rfl, rfl⟩ := map_eq_some_iff.mp ht
    rw [Touched.after, forall_mem_append] at hreads
    exact ⟨hreads.1, t, rfl, hnull, hreads.2⟩
  · rintro ⟨hreads, t, rfl, hnull, ht⟩
    exact ⟨_, rfl, hnull, forall_mem_append.mpr ⟨hreads, ht⟩⟩

/-- What a handler touches is no null pointer, and what it reads is in the file. -/
def Mathopd.Safe (s : Mathopd) (o : Option Touched) : Prop := SafeIn s.InFile o

theorem signatureReads_inside {mem : ℤ → UInt8} {k m : ℕ} (hz : mem k = 0) (hk : k < m) :
    ∀ r ∈ signatureReads signature frame mem, 0 < r.length ∧ r.Inside m := by
  have hz' : mem (0 + k) = 0 := by rwa [Int.zero_add]
  have hcompared : ∀ (a : ℤ → UInt8) (n : ℕ),
      0 < strncmpCount a mem (n + 1) 0 ∧ Span.Inside m ⟨0, strncmpCount a mem (n + 1) 0⟩ := by
    intro a n
    have hle : strncmpCount a mem (n + 1) 0 ≤ k + 1 := strncmpCount_le_of_zero hz'
    refine ⟨strncmpCount_pos a mem n 0, ?_⟩
    simp only [Span.Inside]
    omega
  intro r hr
  simp only [signatureReads] at hr
  obtain rfl | hr := mem_cons.mp hr
  · exact hcompared _ 31
  · split at hr
    · exact absurd hr not_mem_nil
    · split at hr
      · obtain rfl := mem_singleton.mp hr
        exact hcompared _ _
      · exact absurd hr not_mem_nil

theorem imageOf_of_lt (mem : ℤ → UInt8) {size : ℤ} (hlow : sizeofImghdr2 < size)
    (hhigh : size < 2 ^ 31) :
    ∃ img, imageOf mem size = some img ∧ img.mem = mem ∧ img.size = size.toNat := by
  have h : sizeofImghdr2 < size.toNat ∧ size.toNat < 2 ^ 31 := by omega
  exact ⟨⟨mem, size.toNat, h.1, h.2⟩, dif_pos h, rfl, rfl⟩

theorem imageOf_of_le {mem : ℤ → UInt8} {size : ℤ} (h : size ≤ sizeofImghdr2) :
    imageOf mem size = none :=
  dif_neg fun hlt => by omega

section SafeIn

-- a test that the bytes in the first `m` pass, and no others
variable {P : Span → Prop} {m : ℕ} (hinside : ∀ r, P r → r.Inside m)
  (hpasses : 0 < m → ∀ r, r.Inside m → P r) {mem : ℤ → UInt8} {size : ℤ} {img : Image}
include hinside hpasses

theorem blockTouched_iff (himg : imageOf mem size = some img) (hm : m ≤ img.size)
    (hroom : sizeofImghdr2 ≤ m) :
    (∃ bound n, SafeIn P (blockTouched machine mem size bound n)) ↔
      ∀ i, Walk machine img i → i < img.size → ReadableIn machine img m i := by
  have hpos : 0 < m := lt_of_lt_of_le (by decide) hroom
  rw [← checkReads_iff hm]
  simp only [blockTouched, himg]
  constructor
  · rintro ⟨bound, n, t, ht, _, hreads⟩
    obtain ⟨r, hr, rfl⟩ := map_eq_some_iff.mp ht
    exact ⟨bound, n, r, hr, fun x hx => hinside x (hreads x hx)⟩
  · rintro ⟨bound, n, r, hr, hreads⟩
    exact ⟨bound, n, _, by rw [hr]; rfl, rfl, fun x hx => hpasses hpos x (hreads x hx)⟩

/-- What comes after the test of the magic number. -/
theorem signatureTouched_iff (himg : imageOf mem size = some img) (hmem : img.mem = mem)
    (hm : m ≤ img.size) (hroom : sizeofImghdr2 ≤ m) :
    (∃ stringBound bound n, SafeIn P (signatureTouched machine signature frame mem size stringBound
        bound n)) ↔
      (∃ k < m, img.mem k = 0) ∧ (signatureOk img signature frame = true →
        ∀ i, Walk machine img i → i < img.size → ReadableIn machine img m i) := by
  have hok : signatureMatches signature frame mem = signatureOk img signature frame := by
    rw [← hmem]
    rfl
  have hpos : 0 < m := lt_of_lt_of_le (by decide) hroom
  rw [← blockTouched_iff hinside hpasses himg hm hroom]
  simp only [signatureTouched, hok, hmem]
  constructor
  · rintro ⟨stringBound, bound, n, h⟩
    cases hlen : strlen mem stringBound 0 with
    | none =>
      rw [hlen] at h
      obtain ⟨t, ht, -⟩ := h
      cases ht
    | some len =>
      rw [hlen] at h
      obtain ⟨hreads, h⟩ := (safeIn_after P _ _).mp h
      have hin := (hinside _ (hreads _ mem_cons_self)).2
      have hz := strlen_end hlen
      rw [Int.zero_add] at hz
      refine ⟨⟨len, by simp only at hin; omega, hz⟩, fun hsig => ⟨bound, n, ?_⟩⟩
      rwa [if_pos hsig] at h
  · rintro ⟨⟨k, hk, hz⟩, h⟩
    have hz' : mem (0 + k) = 0 := by rwa [Int.zero_add]
    obtain ⟨len, hle, hlen⟩ := strlen_of_zero hz' hk
    have hreads : ∀ r ∈ (⟨0, len + 1⟩ : Span) :: signatureReads signature frame mem, P r := by
      refine forall_mem_cons.mpr ⟨hpasses hpos _ ?_, fun r hr => ?_⟩
      · simp only [Span.Inside]
        omega
      · exact hpasses hpos r (signatureReads_inside hz hk r hr).2
    by_cases hsig : signatureOk img signature frame = true
    · obtain ⟨bound, n, hblock⟩ := h hsig
      refine ⟨m, bound, n, ?_⟩
      rw [hlen, if_pos hsig]
      exact (safeIn_after P _ _).mpr ⟨hreads, hblock⟩
    · refine ⟨m, 0, 0, ?_⟩
      rw [hlen, if_neg hsig]
      exact (safeIn_after P _ _).mpr ⟨hreads, safeIn_nothing P⟩

/-- A file that is longer than the header. -/
theorem imageTouched_iff (hlong : sizeofImghdr2 < size) (hhigh : size < 2 ^ 31)
    (hm : m ≤ size.toNat) :
    (∃ stringBound bound n, SafeIn P (imageTouched machine signature frame mem size stringBound
        bound n)) ↔
      ∀ img ∈ imageOf mem size, sizeofImghdr2 ≤ m ∧
        (word machine.order img.mem 32 = cpuToLe machine.order imgV2MagicNo →
          (∃ k < m, img.mem k = 0) ∧ (signatureOk img signature frame = true →
            ∀ i, Walk machine img i → i < img.size → ReadableIn machine img m i)) := by
  obtain ⟨img, himg, hmem, hsize⟩ := imageOf_of_lt mem hlong hhigh
  have hmod : ¬ size % 2 ^ 32 ≤ sizeofImghdr2 := by omega
  have hmagic : P ⟨32, 4⟩ ↔ sizeofImghdr2 ≤ m := by
    have hiff : Span.Inside m ⟨32, 4⟩ ↔ sizeofImghdr2 ≤ m := by
      simp only [Span.Inside, sizeofImghdr2]
      omega
    rw [← hiff]
    refine ⟨hinside _, fun h => hpasses ?_ _ h⟩
    have := hiff.mp h
    simp only [sizeofImghdr2] at this
    omega
  simp only [himg, mem_def, some.injEq, forall_eq', hmem, imageTouched, if_neg hmod,
    safeIn_after, forall_mem_singleton, hmagic, exists_and_left]
  refine and_congr_right fun hroom => ?_
  by_cases hword : word machine.order mem 32 = cpuToLe machine.order imgV2MagicNo
  · simp only [hword, if_true, true_implies]
    rw [signatureTouched_iff hinside hpasses himg hmem (by omega) hroom, hmem]
  · simp only [hword, if_false, false_implies, iff_true]
    exact ⟨0, 0, 0, safeIn_nothing P⟩

end SafeIn

theorem Mathopd.room_le (s : Mathopd) : s.room ≤ s.upload.fileLength.toNat := by
  rw [Mathopd.room]
  split
  · exact min_le_left _ _
  · exact zero_le _

theorem Located.imageSafe_iff (hs : Located s) :
    s.ImageSafe machine signature frame ↔ s.ImageReadable machine signature frame := by
  have hlow := hs.low
  have hhigh := hs.high
  change (∃ stringBound bound n,
    s.Safe (s.uploadImage machine signature frame stringBound bound n)) ↔ _
  rw [Mathopd.ImageReadable]
  cases hp : s.upload.filePtr with
  | none =>
    simp only [Mathopd.uploadImage, hp, true_or, iff_true]
    exact ⟨0, 0, 0, safeIn_nothing _⟩
  | some p =>
    simp only [Mathopd.uploadImage, hp, reduceCtorEq, false_or]
    by_cases hneg : s.upload.fileLength < 0
    · have hmod : ¬ s.upload.fileLength % 2 ^ 32 ≤ sizeofImghdr2 := by
        simp only [sizeofImghdr2]
        omega
      -- the magic number is read behind the end of the file
      have hout : ¬ s.InFile ⟨32, 4⟩ := by
        rintro ⟨_, _, _, _, _, hfile, _⟩
        simp only at hfile
        omega
      have hunsafe : ∀ o : Option Touched, ¬ s.Safe (o.map (.after [⟨32, 4⟩])) := fun o h =>
        hout (((safeIn_after s.InFile _ o).mp h).1 _ mem_cons_self)
      simp only [imageTouched, if_neg hmod, hunsafe, exists_false, Int.not_le.mpr hneg,
        false_and]
    · have hnonneg : 0 ≤ s.upload.fileLength := Int.not_lt.mp hneg
      simp only [hnonneg, true_and]
      by_cases hlong : sizeofImghdr2 < s.upload.fileLength
      · exact imageTouched_iff (fun _ h => h.inside) (fun hpos _ h => hs.inFile h hpos) hlong
          hhigh s.room_le
      · have hmod : s.upload.fileLength % 2 ^ 32 ≤ sizeofImghdr2 := by omega
        simp only [imageTouched, if_pos hmod, imageOf_of_le (Int.not_lt.mp hlong),
          mem_def, reduceCtorEq, false_implies, implies_true, iff_true]
        exact ⟨0, 0, 0, safeIn_nothing _⟩

end Reads

/-- What holds in the loop of `scan_multipart`: while a file part is open, `p_start` is not in front
of the file. -/
structure Scanned (s : ScanState) : Prop where
  offset : ∀ p, s.filePtr = some p → 0 ≤ p.offset
  start : 0 ≤ s.pStart
  sect : s.fileSect = true → ∃ p, s.filePtr = some p ∧ p.offset ≤ s.pStart
  low : -4 ≤ s.fileLength
  high : s.fileLength < 2 ^ 31

namespace Scanned

variable {b : ℕ} {bufEnd pEnd : ℤ} {boundary : List UInt8} {s : ScanState}

theorem advance (h : Scanned s) (hsect : s.fileSect = false) {k : ℤ} (hk : s.pStart ≤ k) :
    Scanned { s with pStart := k } where
  offset := h.offset
  start := Int.le_trans h.start hk
  sect hopen := nomatch hsect.symm.trans hopen
  low := h.low
  high := h.high

theorem filename (h : Scanned s) (hsect : s.fileSect = false) :
    Scanned (scanFilename b bufEnd s) := by
  simp only [scanFilename]
  split
  · exact h
  · next pQuote hquote =>
    have hle := (ScanState.find_bounds hquote).1
    have hstart := h.start
    split
    · exact ⟨h.offset, Int.le_trans hstart (Int.le_add_one hle),
        (fun hopen => by cases hsect.symm.trans hopen), h.low, h.high⟩
    · next pLine hline =>
      have hbehind : pQuote + 1 ≤ pLine := (ScanState.find_bounds hline).1
      have hpos : 0 ≤ pLine + 4 := by omega
      refine ⟨?_, hpos, fun _ => ⟨_, rfl, Int.le_refl _⟩, h.low, h.high⟩
      intro p hp
      obtain rfl := some.inj hp
      exact hpos

theorem part (h : Scanned s) (hle : s.pStart ≤ pEnd) (hlt : pEnd < 2 ^ 31) :
    Scanned (scanPart boundary b bufEnd pEnd s) := by
  have hstart := h.start
  have hclosed : Scanned
      { s with
        fileLength := if s.fileSect then pEnd - (s.filePtr.map Ptr.offset).getD 0 - 4
          else s.fileLength
        fileSect := false
        pStart := pEnd + boundary.length } := by
    refine ⟨h.offset, by simp only; omega, fun hopen => (nomatch hopen), ?_, ?_⟩ <;>
      by_cases hsect : s.fileSect = true
    all_goals simp only [hsect, if_true, if_false, Bool.false_eq_true]
    · obtain ⟨p, hp, hoffset⟩ := h.sect hsect
      rw [hp, map_some, getD_some]
      omega
    · exact h.low
    · obtain ⟨p, hp, -⟩ := h.sect hsect
      have hpos := h.offset p hp
      rw [hp, map_some, getD_some]
      omega
    · exact h.high
  simp only [scanPart]
  split
  · exact hclosed
  · next pDisposition hdisposition =>
    have hbehind : pEnd + boundary.length ≤ pDisposition :=
      (ScanState.find_bounds hdisposition).1
    have hfound := hclosed.advance rfl (k := pDisposition + 19) (by simp only; omega)
    split
    · exact hfound
    · next pName hname =>
      have hafter : pDisposition + 19 ≤ pName := (ScanState.find_bounds hname).1
      exact (hfound.advance rfl (by simp only; omega)).filename rfl

theorem scanFrom (h : Scanned s) (hend : bufEnd ≤ 2 ^ 31) (boundary : List UInt8) (b n : ℕ) :
    Scanned (scanFrom boundary b bufEnd n s) := by
  induction n generalizing s with
  | zero => exact h
  | succ n ih =>
    rw [Httpd.scanFrom]
    split
    · exact h
    · next pEnd hfound =>
      obtain ⟨hle, hlt, -⟩ := ScanState.find_bounds hfound
      exact ih (h.part hle (Int.lt_of_lt_of_le hlt hend))

end Scanned

namespace Located

variable {env : MathopdEnv} {s : Mathopd}

theorem of_file {t : Mathopd} (h : Located s) (ht : Consistent t)
    (hptr : t.upload.filePtr = s.upload.filePtr)
    (hlen : t.upload.fileLength = s.upload.fileLength) : Located t where
  consistent := ht
  offset p hp := h.offset p (hptr.symm.trans hp)
  low := hlen ▸ h.low
  high := hlen ▸ h.high

theorem kept (env : MathopdEnv) : Kept env (fun _ _ => True) Located where
  connection hc h := h.of_file ((Consistent.kept env).connection hc h.consistent) rfl rfl
  stop h := h.of_file ((Consistent.kept env).stop h.consistent) rfl rfl
  elapse n h := h.of_file ((Consistent.kept env).elapse n h.consistent) rfl rfl
  free h := ⟨(Consistent.kept env).free h.consistent, (fun _ hp => nomatch hp),
    (by decide : (-4 : ℤ) ≤ 0), (by decide : (0 : ℤ) < 2 ^ 31)⟩
  acceptImage hok h := h.of_file ((Consistent.kept env).acceptImage hok h.consistent) rfl rfl
  acceptConfig h := h.of_file ((Consistent.kept env).acceptConfig h.consistent) rfl rfl
  burnCall hflag h := h.of_file ((Consistent.kept env).burnCall hflag h.consistent) rfl rfl
  burnDone h := h.of_file ((Consistent.kept env).burnDone h.consistent) rfl rfl

theorem start : Located .start :=
  ⟨Consistent.start, (fun _ hp => nomatch hp), by decide, by decide⟩

theorem scanData (h : Located s) (hlen : s.upload.length < 2 ^ 31) (boundary : List UInt8) :
    Located (s.scanData env boundary) := by
  suffices hfile : (∀ p, (s.scanData env boundary).upload.filePtr = some p → 0 ≤ p.offset) ∧
      -4 ≤ (s.scanData env boundary).upload.fileLength ∧
      (s.scanData env boundary).upload.fileLength < 2 ^ 31 from
    ⟨h.consistent.scanData boundary, hfile.1, hfile.2.1, hfile.2.2⟩
  simp only [Mathopd.scanData]
  split
  · exact ⟨h.offset, h.low, h.high⟩
  · next b hb =>
    split
    · have hscanned : Scanned
          { pStart := 0, fileSect := false, filePtr := s.upload.filePtr
            fileName := s.upload.fileName, fileLength := s.upload.fileLength
            mem := (s.blocks b).mem } :=
        ⟨h.offset, Int.le_refl 0, (fun hopen => by cases hopen), h.low, h.high⟩
      have hend := hscanned.scanFrom (Int.le_of_lt hlen) boundary b (s.upload.length.toNat + 1)
      exact ⟨hend.offset, hend.low, hend.high⟩
    · exact ⟨h.offset, h.low, h.high⟩

theorem filled (h : Located s) {b : ℕ} {m : Multipart} (hb : s.upload.data = some b)
    (r : ReadResult) : Located (s.filled env m b r) :=
  h.of_file (h.consistent.filled hb r) rfl rfl

theorem filled_scanData (h : Located s) {b : ℕ} {m : Multipart} (hb : s.upload.data = some b)
    (r : ReadResult) (boundary : List UInt8) :
    Located ((s.filled env m b r).scanData env boundary) :=
  (h.filled hb r).scanData (Int.bmod_lt (by decide)) boundary

theorem reading (h : Located s) {s' : Mathopd} {cn b : ℕ} {m m' : Multipart}
    {malloc : Option (ℤ → UInt8)} (hr : s.reading env cn m malloc = some (s', m', b)) :
    Located s' := by
  refine (kept env).reading h hr fun hdata cl body fresh => ?_
  have hupload := allocate_upload env s cl body fresh (h.consistent.empty hdata)
  exact h.of_file (h.consistent.allocate hdata cl body fresh) (by rw [hupload]) (by rw [hupload])

/-- The file of an upload stays where it is, or a scan finds it in the block. -/
theorem step (h : Located s) (e : MathopdEvent) : Located (s.step env e) := by
  refine (kept env).step h fun _ _ hr => ?_
  have h' := h.reading hr
  have hc := h'.consistent
  have hb := (Mathopd.reading_spec hr).1
  exact (kept env).readBody (fun _ _ => trivial) (fun _ _ => trivial)
    (h'.of_file ⟨hc.live, hc.file, hc.empty⟩ rfl rfl)
    fun _ => ⟨h'.filled hb _, h'.filled_scanData hb _ _⟩

/-- The pointers are located in every run. -/
theorem runEvents (env : MathopdEnv) (events : List MathopdEvent) :
    Located (.runEvents env events) :=
  Machine.run_keeps (fun _ e hs => hs.step e) start events

end Located

/-- The state in which `process_internal` is called for an event, and for what: a request without
a boundary, or one whose body is complete and was scanned. -/
def Mathopd.internalCall (env : MathopdEnv) (s : Mathopd) (e : MathopdEvent) :
    Option (Mathopd × Internal) :=
  match s.running, e with
  | true, .request cn (.internal i) => match s.connections cn with
    | .reading => some (s, i)
    | .free | .multipart _ | .writing => none
  | true, .readable cn r malloc (.internal i) => match s.connections cn with
    | .multipart m => match s.reading env cn m malloc with
      | some (s', m', b) =>
        if s'.Complete env m' b r then some ((s'.filled env m' b r).scanData env m'.boundary, i)
        else none
      | none => none
    | .free | .reading | .writing => none
  | _, _ => none

section Calls

variable {env : MathopdEnv} {s t : Mathopd} {e : MathopdEvent} {i : Internal}

/-- The two ways to `process_internal`. -/
theorem Mathopd.internalCall_cases (h : s.internalCall env e = some (t, i)) :
    s.running = true ∧
      ((∃ cn, e = .request cn (.internal i) ∧ s.connections cn = .reading ∧ t = s) ∨
        ∃ cn r malloc m s' m' b, e = .readable cn r malloc (.internal i) ∧
          s.connections cn = .multipart m ∧ s.reading env cn m malloc = some (s', m', b) ∧
          s'.Complete env m' b r ∧ t = (s'.filled env m' b r).scanData env m'.boundary) := by
  unfold Mathopd.internalCall at h
  split at h
  · next cn i' hrun =>
    refine ⟨hrun, .inl ?_⟩
    split at h
    · next hconn =>
      obtain ⟨rfl, rfl⟩ := Prod.mk.inj (some.inj h)
      exact ⟨cn, rfl, hconn, rfl⟩
    all_goals cases h
  · next cn r malloc i' hrun =>
    refine ⟨hrun, .inr ?_⟩
    split at h
    · next m hconn =>
      split at h
      · next s' m' b hreading =>
        split at h
        · next hcomplete =>
          obtain ⟨rfl, rfl⟩ := Prod.mk.inj (some.inj h)
          exact ⟨cn, r, malloc, m, s', m', b, rfl, hconn, hreading, hcomplete, rfl⟩
        · cases h
      · cases h
    all_goals cases h
  · cases h

theorem Located.internalCall (hs : Located s) (h : s.internalCall env e = some (t, i)) :
    Located t := by
  obtain ⟨-, ⟨cn, -, -, rfl⟩ | ⟨cn, r, malloc, m, s', m', b, -, -, hreading, -, rfl⟩⟩ :=
    Mathopd.internalCall_cases h
  · exact hs
  · exact (hs.reading hreading).filled_scanData (Mathopd.reading_spec hreading).1 r m'.boundary

end Calls

/-- Whatever requests come, when `process_internal` is called, `upload_image` is safe exactly if the
file is readable for it, and `upload_config` is safe and writes the file behind the signature
exactly if the file is readable for it. -/
theorem uploadHandlers_safe_iff (env : MathopdEnv) (machine : Machine) (signature : List UInt8)
    (frame : ℤ → UInt8) (events : List MathopdEvent) (e : MathopdEvent) (t : Mathopd)
    (i : Internal) (hcall : (Mathopd.runEvents env events).internalCall env e = some (t, i)) :
    (t.ImageSafe machine signature frame ↔ t.ImageReadable machine signature frame) ∧
      (t.ConfigSafe signature ↔ t.ConfigReadable signature) := by
  have ht : Located t := (Located.runEvents env events).internalCall hcall
  exact ⟨ht.imageSafe_iff, ht.configSafe_iff⟩

def scanningServer : MathopdEnv := ⟨64, fun _ _ => false⟩

/-- A body whose file part ends where it begins, without the line end in front of the boundary. -/
def closedAtOnce : List UInt8 :=
  66 :: contentDisposition ++ filenameIs ++ [34, 120, 34, 13, 10, 13, 10, 66]

def closedAtOnceHeaders : List MathopdEvent := [.accept 0, .headers 0 [66] (some 37) []]

/-- The body is read, and the request is one for `upload_image`. -/
def closedAtOnceRead : MathopdEvent :=
  .readable 0 (.bytes closedAtOnce) (some fun _ => 0) (.internal .uploadImage)

/-- The length of the file is `-4` then. -/
theorem uploadHandlers_safe_closedAtOnce :
    ∃ t, (Mathopd.runEvents scanningServer closedAtOnceHeaders).internalCall scanningServer
        closedAtOnceRead = some (t, .uploadImage) ∧ t.upload.fileLength = -4 ∧
      ∀ machine signature frame,
        (t.ImageSafe machine signature frame ↔ t.ImageReadable machine signature frame) ∧
          (t.ConfigSafe signature ↔ t.ConfigReadable signature) := by
  have hcall : ∃ t, (Mathopd.runEvents scanningServer closedAtOnceHeaders).internalCall
      scanningServer
      closedAtOnceRead = some (t, .uploadImage) ∧ t.upload.fileLength = -4 :=
    ⟨_, rfl, by decide +kernel⟩
  obtain ⟨t, ht, hlen⟩ := hcall
  exact ⟨t, ht, hlen, fun machine signature frame =>
    uploadHandlers_safe_iff scanningServer machine signature frame _ _ t _ ht⟩

/-- A request without a body lets `upload_config` follow the null pointer, and an image whose part
is closed at once is read behind its end. -/
theorem uploadHandlers_unsafe :
    (∃ t, (Mathopd.runEvents scanningServer [.accept 0]).internalCall scanningServer
        (.request 0 (.internal (.uploadConfig true))) = some (t, .uploadConfig true) ∧
      t.upload.filePtr = none ∧ ∀ signature, ¬ t.ConfigSafe signature) ∧
    ∃ t, (Mathopd.runEvents scanningServer closedAtOnceHeaders).internalCall scanningServer
        closedAtOnceRead = some (t, .uploadImage) ∧
      ∀ machine signature frame, ¬ t.ImageSafe machine signature frame := by
  constructor
  · refine ⟨_, rfl, rfl, fun signature hsafe => ?_⟩
    have ht := (Located.runEvents scanningServer [.accept 0]).configSafe_iff.mp hsafe
    have hlen : (Mathopd.runEvents scanningServer [.accept 0]).upload.fileLength = 0 := rfl
    rw [Mathopd.ConfigReadable, hlen] at ht
    omega
  · have hcall : ∃ t, (Mathopd.runEvents scanningServer closedAtOnceHeaders).internalCall
      scanningServer
        closedAtOnceRead = some (t, .uploadImage) ∧ t.upload.filePtr ≠ none ∧
          ¬ 0 ≤ t.upload.fileLength := ⟨_, rfl, by decide +kernel, by decide +kernel⟩
    obtain ⟨t, ht, hptr, hlen⟩ := hcall
    refine ⟨t, ht, fun machine signature frame hsafe => ?_⟩
    have hlocated := (Located.runEvents scanningServer closedAtOnceHeaders).internalCall ht
    obtain hnull | ⟨hnonneg, -⟩ := hlocated.imageSafe_iff.mp hsafe
    · exact hptr hnull
    · exact hlen hnonneg

end Wbr1310.Httpd
