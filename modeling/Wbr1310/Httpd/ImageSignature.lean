import Wbr1310.Httpd.UploadHandlers

/-!
# The signature of an image

`v2_image_check` copies `g_signature` to an array of 32 bytes and compares it with the signature in
the header of the image, and if they differ, with what stands before the first underscore and
`_aLpHa`. The loop that looks for the underscore reads the array before it tests the position, the
ending is written without a test, and the array is printed as a string. So it leaves the array if
`g_signature` does not end in it, and, where the two differ, if there is no underscore or one too
far behind. What it accepts is right in every case.
-/

namespace Wbr1310.Httpd

open Lib List Option Nat

/-- A file that is to be an image: the memory from its first byte on, and its length. -/
structure ImageFile where
  mem : ℤ → UInt8
  size : ℕ
  size_lt : size < 2 ^ 31

/-- What `v2_image_check` accesses of its array behind the test of the magic number: it is cleared
and filled, printed, compared, searched, written to, printed and compared again. -/
def arrayAccesses (signature : List UInt8) (frame mem : ℤ → UInt8) (stringBound : ℕ) :
    Option (List Span) :=
  let array := signatureArray signature frame
  (strlen array stringBound 0).map fun len =>
    [⟨0, maxSignature⟩, ⟨0, len + 1⟩, ⟨0, strncmpCount array mem maxSignature 0⟩] ++
      if strncmpEq array mem maxSignature 0 then []
      else
        let i := findUnderscore array (maxSignature + 1) 0
        ⟨0, i.toNat + 1⟩ ::
          if array i = 95 then
            let alpha := alphaArray array i
            [⟨i + 1, 6⟩, ⟨0, (strlen alpha (i.toNat + 7) 0).getD 0 + 1⟩,
              ⟨0, strncmpCount alpha mem (i.toNat + 7) 0⟩]
          else []

namespace ImageFile

variable (machine : Machine) (signature : List UInt8) (frame : ℤ → UInt8) (f : ImageFile)

def MagicRight : Prop := word machine.order f.mem 32 = cpuToLe machine.order imgV2MagicNo

/-- `v2_image_check` returns, and accesses only bytes of the file and of its array. -/
def InBounds : Prop :=
  (∃ stringBound bound n, SafeIn (Span.Inside f.size)
      (imageTouched machine signature frame f.mem f.size stringBound bound n)) ∧
    (sizeofImghdr2 < f.size → f.MagicRight machine →
      ∃ stringBound accesses, arrayAccesses signature frame f.mem stringBound = some accesses ∧
        ∀ r ∈ accesses, r.Inside maxSignature)

/-- `v2_image_check`. -/
def check (bound n : ℕ) : Option CheckResult :=
  match imageOf f.mem f.size with
  | none => some ⟨-1, [], []⟩
  | some img => v2ImageCheck machine img signature frame bound n

/-- The signature in the header, as a string of up to 32 bytes. -/
def headerSignature : List UInt8 := Buffer.cut (bytes f.mem 0 maxSignature)

def alphaEnding : List UInt8 := [95, 97, 76, 112, 72, 97]

/-- The signature in the header is the beginning of `g_signature`, or what stands before its first
underscore and the ending. -/
def SignatureRight : Prop :=
  let g := Buffer.cut signature
  f.headerSignature = g.take maxSignature ∨
    95 ∈ g ∧ f.headerSignature = g.takeWhile (· ≠ 95) ++ alphaEnding

/-- Nothing else is accepted than an image with a right header whose blocks are right. -/
def AcceptsOnly : Prop :=
  ∀ bound n r, f.check machine signature frame bound n = some r → r.ret = 0 →
    sizeofImghdr2 < f.size ∧ f.MagicRight machine ∧ f.SignatureRight signature ∧
      ∃ img, imageOf f.mem f.size = some img ∧ v2CheckImageBlock machine img bound n = some r

/-- `g_signature` ends in the array; if the header has another one, there is an underscore that
leaves room for the ending. -/
def ArrayRoom : Prop :=
  let g := Buffer.cut signature
  g.length < maxSignature ∧
    (f.headerSignature = g ∨ ∃ k ≤ 25, g[k]? = some 95)

/-- The file is too short or has another magic number; or the array has room, there is a zero in the
file, and what is looked at of the blocks lies in the file. -/
def Checkable : Prop :=
  f.size ≤ sizeofImghdr2 ∨ ¬ f.MagicRight machine ∨
    f.ArrayRoom signature ∧ (∃ k < f.size, f.mem k = 0) ∧
      ∀ img ∈ imageOf f.mem f.size, signatureOk img signature frame = true →
        ∀ i, Walk machine img i → i < img.size → ReadableIn machine img f.size i

end ImageFile

theorem strncmpEq_iff (a b : ℤ → UInt8) (n : ℕ) (i : ℤ) :
    strncmpEq a b n i = true ↔ Buffer.cut (bytes a i n) = Buffer.cut (bytes b i n) := by
  induction n generalizing i with
  | zero => exact iff_of_true rfl rfl
  | succ n ih =>
    simp only [strncmpEq, bytes, Buffer.cut_cons]
    by_cases hab : a i = b i
    · rw [if_neg (not_not.mpr hab), ← hab]
      by_cases hz : a i = 0
      · simp [hz]
      · simp [hz, ih]
    · rw [if_pos hab]
      refine iff_of_false (by decide) fun h => ?_
      split at h
      · next hz =>
        split at h
        · next hz' => exact hab (hz.trans hz'.symm)
        · cases h
      · split at h
        · cases h
        · exact hab (cons.inj h).1

theorem eq_of_strncmpEq {a b : ℤ → UInt8} {n k : ℕ} {i : ℤ} (h : strncmpEq a b n i = true)
    (hk : k < n) (hne : ∀ j < k, a (i + (j : ℕ)) ≠ 0) : a (i + k) = b (i + k) := by
  induction n generalizing i k with
  | zero => omega
  | succ n ih =>
    rw [strncmpEq] at h
    split at h
    · cases h
    · next hab =>
      rw [not_not] at hab
      cases k with
      | zero => rwa [cast_zero, Int.add_zero]
      | succ k =>
        have hfirst := hne 0 (succ_pos k)
        rw [cast_zero, Int.add_zero] at hfirst
        rw [if_neg hfirst] at h
        have hnext : ∀ j : ℕ, i + 1 + (j : ℤ) = i + (j + 1 : ℕ) := by
          intro j
          omega
        rw [← hnext]
        refine ih h (by omega) fun j hj => ?_
        rw [hnext]
        exact hne (j + 1) (by omega)

theorem mem_length_cut (mem : ℤ → UInt8) (n : ℕ) (i : ℤ)
    (h : (Buffer.cut (bytes mem i n)).length < n) :
    mem (i + (Buffer.cut (bytes mem i n)).length) = 0 := by
  induction n generalizing i with
  | zero => omega
  | succ n ih =>
    rw [bytes, Buffer.cut_cons] at h ⊢
    split at h
    · next hz => rwa [if_pos hz, length_nil, cast_zero, Int.add_zero]
    · next hz =>
      rw [if_neg hz, length_cons]
      rw [length_cons] at h
      have hnext := ih (i + 1) (by omega)
      rwa [Int.add_assoc, Int.add_comm 1, ← cast_succ] at hnext

section Array

variable {signature : List UInt8} {frame mem : ℤ → UInt8}

theorem signatureArray_of_lt (frame : ℤ → UInt8) {k : ℕ} (hk : k < maxSignature) :
    signatureArray signature frame k = ((Buffer.cut signature)[k]?).getD 0 := by
  rw [signatureArray, if_pos (by simp only [maxSignature] at hk ⊢; omega), Int.toNat_natCast]
  rfl

theorem ne_zero_of_mem_cut {x : UInt8} (h : x ∈ Buffer.cut signature) : x ≠ 0 :=
  of_decide_eq_true (mem_takeWhile_imp (p := fun x => decide (x ≠ 0)) h)

theorem signatureArray_eq_zero_iff (frame : ℤ → UInt8) {k : ℕ} (hk : k < maxSignature) :
    signatureArray signature frame k = 0 ↔ (Buffer.cut signature).length ≤ k := by
  rw [signatureArray_of_lt frame hk]
  cases hget : (Buffer.cut signature)[k]? with
  | none => exact iff_of_true rfl (getElem?_eq_none_iff.mp hget)
  | some x =>
    have hlt := (List.getElem?_eq_some_iff.mp hget).1
    exact iff_of_false (ne_zero_of_mem_cut (mem_of_getElem? hget)) (by omega)

theorem signatureArray_eq_underscore_iff (frame : ℤ → UInt8) {k : ℕ} (hk : k < maxSignature) :
    signatureArray signature frame k = 95 ↔ (Buffer.cut signature)[k]? = some 95 := by
  rw [signatureArray_of_lt frame hk]
  cases (Buffer.cut signature)[k]? with
  | none => exact iff_of_false (by decide) nofun
  | some x => rw [getD_some, some.injEq]

theorem cut_bytes_array (signature : List UInt8) (frame : ℤ → UInt8) {k n : ℕ}
    (h : k + n ≤ maxSignature) :
    Buffer.cut (bytes (signatureArray signature frame) k n) =
      ((Buffer.cut signature).drop k).take n := by
  induction n generalizing k with
  | zero => rw [bytes, take_zero]; rfl
  | succ n ih =>
    have hk : k < maxSignature := by omega
    have hrest := ih (k := k + 1) (by omega)
    rw [cast_succ] at hrest
    rw [bytes, Buffer.cut_cons, hrest]
    split
    · next hz =>
      have hle := (signatureArray_eq_zero_iff frame hk).mp hz
      rw [drop_eq_nil_of_le hle, take_nil]
    · next hne =>
      have hlt : k < (Buffer.cut signature).length :=
        Nat.lt_of_not_le (mt (signatureArray_eq_zero_iff frame hk).mpr hne)
      rw [drop_eq_getElem_cons hlt, take_succ_cons, signatureArray_of_lt frame hk,
        getElem?_eq_getElem hlt, getD_some]

/-- The loop stops at the first underscore, or behind the array. -/
theorem findUnderscore_spec (array : ℤ → UInt8) {n k : ℕ} (h : k + n = maxSignature + 1)
    (hn : 0 < n) : ∃ i : ℕ, findUnderscore array n k = i ∧ k ≤ i ∧ i ≤ maxSignature ∧
      (∀ j : ℕ, k ≤ j → j < i → array j ≠ 95) ∧ (i < maxSignature → array i = 95) := by
  induction n generalizing k with
  | zero => omega
  | succ n ih =>
    rw [findUnderscore]
    split
    · next hgo =>
      obtain ⟨i, hi, hk, hle, hbefore, hat⟩ := ih (k := k + 1) (by omega) (by omega)
      rw [cast_succ] at hi
      refine ⟨i, hi, by omega, hle, fun j hj hji => ?_, hat⟩
      obtain rfl | hlt := eq_or_lt_of_le hj
      · exact hgo.1
      · exact hbefore j hlt hji
    · next hstop =>
      refine ⟨k, rfl, le_rfl, by omega, fun j hj hjk => by omega, fun hlt => ?_⟩
      by_contra hne
      exact hstop ⟨hne, by exact_mod_cast hlt⟩

theorem takeWhile_underscore {g : List UInt8} {i : ℕ} (hat : g[i]? = some 95)
    (hbefore : ∀ j < i, g[j]? ≠ some 95) :
    g.takeWhile (· ≠ 95) ++ [95] = g.take (i + 1) := by
  obtain ⟨hlt, hget⟩ := List.getElem?_eq_some_iff.mp hat
  have hpos : ∀ x ∈ g.take i, decide (x ≠ 95) = true := by
    rintro x hx
    refine decide_eq_true ?_
    rintro rfl
    obtain ⟨j, hj, hjx⟩ := mem_take_iff_getElem.mp hx
    refine hbefore j (by omega) ?_
    rw [getElem?_eq_getElem (by omega), hjx]
  have hwhile : g.takeWhile (· ≠ 95) = g.take i := by
    conv_lhs => rw [← take_append_drop i g, drop_eq_getElem_cons hlt, hget]
    rw [takeWhile_append_of_pos hpos, takeWhile_cons_of_neg (by decide), append_nil]
  rw [hwhile, ← hget, take_concat_get']

theorem alphaArray_of_le (array : ℤ → UInt8) {i j : ℤ} (h : j ≤ i) :
    alphaArray array i j = array j := if_neg (by omega)

theorem bytes_alpha (array : ℤ → UInt8) (i : ℤ) :
    bytes (alphaArray array i) (i + 1) 6 = [97, 76, 112, 72, 97, 0] := by
  change bytes _ _ ([97, 76, 112, 72, 97, 0] : List UInt8).length = _
  refine bytes_eq_of_getElem? fun k hk => ?_
  simp only [length_cons, length_nil] at hk
  rw [alphaArray, if_pos (by omega), show (i + 1 + (k : ℤ) - i - 1).toNat = k by omega,
    getElem?_eq_getElem hk, getD_some]

/-- The string in the array after the ending was written. -/
theorem cut_bytes_alpha (frame : ℤ → UInt8) {i : ℕ} (hi : i < maxSignature)
    (hat : (Buffer.cut signature)[i]? = some 95) :
    Buffer.cut (bytes (alphaArray (signatureArray signature frame) i) 0 (i + 7)) =
      (Buffer.cut signature).take (i + 1) ++ [97, 76, 112, 72, 97] := by
  have hlt := (List.getElem?_eq_some_iff.mp hat).1
  have hcut := cut_bytes_array signature frame (k := 0) (n := i + 1) (by omega)
  rw [drop_zero, cast_zero] at hcut
  -- the array has no zero up to the underscore
  have hfront : bytes (signatureArray signature frame) 0 (i + 1) =
      (Buffer.cut signature).take (i + 1) := by
    have hstart := takeWhile_prefix (l := bytes (signatureArray signature frame) 0 (i + 1)) (· ≠ 0)
    rw [← hcut]
    refine (hstart.eq_of_length ?_).symm
    change (Buffer.cut _).length = _
    rw [hcut, length_bytes, length_take]
    omega
  have hsame : bytes (alphaArray (signatureArray signature frame) i) 0 (i + 1) =
      bytes (signatureArray signature frame) 0 (i + 1) :=
    bytes_congr fun k _ hk => alphaArray_of_le _ (by omega)
  have hback := bytes_alpha (signatureArray signature frame) i
  have hpos : (0 : ℤ) + (i + 1 : ℕ) = i + 1 := by omega
  have hzero : (0 : UInt8) ∉ (Buffer.cut signature).take (i + 1) := fun h =>
    ne_zero_of_mem_cut (mem_of_mem_take h) rfl
  rw [show i + 7 = i + 1 + 6 by omega, bytes_add, hsame, hfront, hpos, hback,
    Buffer.cut_append hzero]
  rfl

end Array

namespace ImageFile

variable {machine : Machine} {signature : List UInt8} {frame : ℤ → UInt8} {f : ImageFile}

theorem MagicRight.byte (h : f.MagicRight machine) : f.mem 32 = 32 := by
  rw [MagicRight] at h
  cases horder : machine.order with
  | little =>
    rw [horder] at h
    rw [← byte_of_word_little f.mem, h]
    decide
  | big =>
    rw [horder] at h
    rw [← byte_of_word_big f.mem, h]
    decide

theorem headerSignature_eq {t : List UInt8} {n : ℕ} (h : Buffer.cut (bytes f.mem 0 n) = t)
    (hn : t.length < n) (ht : t.length < maxSignature) : f.headerSignature = t := by
  have hz := mem_length_cut f.mem n 0 (by rwa [h])
  rw [h] at hz
  rw [headerSignature, Bytes.cut_bytes_of_zero hz ht, ← Bytes.cut_bytes_of_zero hz hn, h]

section Alpha

variable {i : ℕ} (heq : strncmpEq (alphaArray (signatureArray signature frame) i) f.mem (i + 7) 0 =
  true)
include heq

theorem not_of_behind (hmagic : f.MagicRight machine) (hi : 25 < i)
    (hne : ∀ j < 32, alphaArray (signatureArray signature frame) i (j : ℕ) ≠ 0)
    (hbehind : alphaArray (signatureArray signature frame) i 32 ≠ 32) : False := by
  have hsame := eq_of_strncmpEq heq (k := 32) (by omega) fun j hj => by
    rw [Int.zero_add]
    exact hne j hj
  rw [Int.zero_add, show ((32 : ℕ) : ℤ) = 32 from rfl, hmagic.byte] at hsame
  exact hbehind hsame

theorem signatureRight_of_underscore (hmagic : f.MagicRight machine) (hi : i < maxSignature)
    (hbefore : ∀ j < i, (Buffer.cut signature)[j]? ≠ some 95)
    (hat : (Buffer.cut signature)[i]? = some 95) : f.SignatureRight signature := by
  have hlt := (List.getElem?_eq_some_iff.mp hat).1
  have hstr := ((strncmpEq_iff _ _ _ _).mp heq).symm.trans (cut_bytes_alpha frame hi hat)
  have hlen : ((Buffer.cut signature).take (i + 1) ++ [97, 76, 112, 72, 97]).length = i + 6 := by
    rw [length_append, length_take, Nat.min_eq_left (by omega)]
    rfl
  by_cases hroom : i ≤ 25
  · refine .inr ⟨mem_of_getElem? hat, ?_⟩
    rw [headerSignature_eq hstr (by omega) (by simp only [maxSignature]; omega),
      ← takeWhile_underscore hat hbefore, append_assoc]
    rfl
  · refine (not_of_behind heq hmagic (by omega) (fun j hj => ?_) ?_).elim
    · obtain hij | hji := lt_or_ge i j
      · have hletters : ∀ k < 5, (([97, 76, 112, 72, 97, 0] : List UInt8)[k]?).getD 0 ≠ 0 := by
          decide
        rw [alphaArray, if_pos (by omega)]
        exact hletters _ (by omega)
      · rw [alphaArray_of_le _ (by omega)]
        exact mt (signatureArray_eq_zero_iff frame hj).mp (by omega)
    · have hletters : ∀ k < 6, (([97, 76, 112, 72, 97, 0] : List UInt8)[k]?).getD 0 ≠ 32 := by
        decide
      simp only [maxSignature] at hi
      rw [alphaArray, if_pos (by omega)]
      exact hletters _ (by omega)

theorem signatureRight_of_frame (hmagic : f.MagicRight machine) (hi : i = maxSignature)
    (hat : signatureArray signature frame i = 95) : f.SignatureRight signature := by
  have hfront : ∀ j < 32, alphaArray (signatureArray signature frame) i (j : ℕ) =
      signatureArray signature frame (j : ℕ) := fun j hj =>
    alphaArray_of_le _ (by simp only [maxSignature] at hi; omega)
  obtain hshort | hlong := lt_or_ge (Buffer.cut signature).length maxSignature
  · -- the string ends before the underscore, so the signatures are the same
    have hz : alphaArray (signatureArray signature frame) i
        (0 + (Buffer.cut signature).length) = 0 := by
      rw [Int.zero_add, hfront _ hshort]
      exact (signatureArray_eq_zero_iff frame hshort).mpr le_rfl
    have harray : Buffer.cut (bytes (alphaArray (signatureArray signature frame) i) 0 (i + 7)) =
        Buffer.cut signature := by
      have hsame : bytes (alphaArray (signatureArray signature frame) i) 0
          (Buffer.cut signature).length =
          bytes (signatureArray signature frame) 0 (Buffer.cut signature).length :=
        bytes_congr fun k _ hk => alphaArray_of_le _ (by omega)
      have hcut := cut_bytes_array signature frame (k := 0) (n := (Buffer.cut signature).length)
        (by omega)
      rw [Bytes.cut_bytes_of_zero hz (by omega), hsame]
      rwa [drop_zero, take_length] at hcut
    have hstr := ((strncmpEq_iff _ _ _ _).mp heq).symm.trans harray
    refine .inl ?_
    rw [headerSignature_eq hstr (by omega) hshort, take_of_length_le hshort.le]
  · refine (not_of_behind heq hmagic (by simp only [maxSignature] at hi; omega)
      (fun j hj => ?_) ?_).elim
    · rw [hfront j hj]
      exact mt (signatureArray_eq_zero_iff frame hj).mp
        (by simp only [maxSignature] at hlong; omega)
    · rw [alphaArray_of_le _ (by simp only [maxSignature] at hi; omega)]
      have hat' : signatureArray signature frame 32 = 95 := by
        rw [hi] at hat
        exact hat
      rw [hat']
      decide

end Alpha

theorem signatureRight_of_ok (hmagic : f.MagicRight machine) {img : Image} (hmem : img.mem = f.mem)
    (hok : signatureOk img signature frame = true) : f.SignatureRight signature := by
  obtain ⟨i, hi, -, hle, hbefore, -⟩ := findUnderscore_spec (signatureArray signature frame)
    (n := maxSignature + 1) (k := 0) (Nat.zero_add _) (Nat.succ_pos _)
  rw [cast_zero] at hi
  simp only [signatureOk, hi, hmem, Bool.or_eq_true, Bool.and_eq_true, decide_eq_true_eq,
    Int.toNat_natCast] at hok
  obtain hsame | ⟨hat, heq⟩ := hok
  · refine .inl ?_
    have hcut := cut_bytes_array signature frame (k := 0) (n := maxSignature) (by omega)
    rw [drop_zero, cast_zero] at hcut
    rw [headerSignature, ← (strncmpEq_iff _ _ _ _).mp hsame, hcut]
  · obtain hlt | rfl := lt_or_eq_of_le hle
    · refine signatureRight_of_underscore heq hmagic hlt (fun j hj => ?_)
        ((signatureArray_eq_underscore_iff frame hlt).mp hat)
      exact mt (signatureArray_eq_underscore_iff frame (by omega)).mpr
        (hbefore j (zero_le j) hj)
    · exact signatureRight_of_frame heq hmagic rfl hat

theorem strncmpCount_le (a b : ℤ → UInt8) (n : ℕ) (i : ℤ) : strncmpCount a b n i ≤ n := by
  induction n generalizing i with
  | zero => exact le_rfl
  | succ n ih =>
    rw [strncmpCount]
    have := ih (i + 1)
    split <;> omega

theorem strncmpEq_array_iff (frame : ℤ → UInt8)
    (hshort : (Buffer.cut signature).length < maxSignature) :
    strncmpEq (signatureArray signature frame) f.mem maxSignature 0 = true ↔
      f.headerSignature = Buffer.cut signature := by
  have hcut := cut_bytes_array signature frame (k := 0) (n := maxSignature) (by omega)
  rw [drop_zero, cast_zero, take_of_length_le hshort.le] at hcut
  rw [strncmpEq_iff, hcut, headerSignature]
  exact eq_comm

theorem arrayAccesses_iff : (∃ stringBound accesses,
      arrayAccesses signature frame f.mem stringBound = some accesses ∧
        ∀ r ∈ accesses, r.Inside maxSignature) ↔ f.ArrayRoom signature := by
  obtain ⟨i, hi, -, hle, hbefore, hat⟩ := findUnderscore_spec (signatureArray signature frame)
    (n := maxSignature + 1) (k := 0) (Nat.zero_add _) (Nat.succ_pos _)
  rw [cast_zero] at hi
  have hcompared := strncmpCount_le (signatureArray signature frame) f.mem maxSignature 0
  simp only [arrayAccesses, hi, Int.toNat_natCast, ArrayRoom]
  constructor
  · rintro ⟨stringBound, accesses, haccesses, hinside⟩
    obtain ⟨len, hlen, rfl⟩ := map_eq_some_iff.mp haccesses
    rw [forall_mem_append] at hinside
    obtain ⟨hfirst, hrest⟩ := hinside
    have hprinted := (hfirst ⟨0, len + 1⟩ (by simp)).2
    simp only at hprinted
    have hend := strlen_end hlen
    rw [Int.zero_add, signatureArray_eq_zero_iff frame (by omega)] at hend
    have hshort : (Buffer.cut signature).length < maxSignature := by omega
    refine ⟨hshort, ?_⟩
    rw [← strncmpEq_array_iff frame hshort]
    split at hrest
    · next hsame => exact .inl hsame
    · rw [forall_mem_cons] at hrest
      have hsearched := hrest.1.2
      simp only at hsearched
      have hlt : i < maxSignature := by omega
      rw [if_pos (hat hlt)] at hrest
      have hwritten := (hrest.2 ⟨i + 1, 6⟩ (by simp)).2
      simp only [maxSignature] at hwritten
      exact .inr ⟨i, by omega, (signatureArray_eq_underscore_iff frame hlt).mp (hat hlt)⟩
  · rintro ⟨hshort, hroom⟩
    have hz : signatureArray signature frame (0 + (Buffer.cut signature).length) = 0 := by
      rw [Int.zero_add, signatureArray_eq_zero_iff frame hshort]
    obtain ⟨len, hlen, hstr⟩ := strlen_of_zero hz hshort
    refine ⟨maxSignature, _, by rw [hstr]; rfl, forall_mem_append.mpr ⟨?_, ?_⟩⟩
    · simp only [forall_mem_cons, not_mem_nil, false_implies, implies_true, Span.Inside,
        and_true]
      omega
    · split
      · exact forall_mem_nil _
      · next hdiffers =>
        rw [← strncmpEq_array_iff frame hshort] at hroom
        obtain ⟨k, hk, hunderscore⟩ := hroom.resolve_left hdiffers
        have hik : i ≤ k := by
          by_contra hlt
          refine hbefore k (zero_le k) (by omega) ?_
          exact (signatureArray_eq_underscore_iff frame (by simp only [maxSignature]; omega)).mpr
            hunderscore
        have hlt : i < maxSignature := by simp only [maxSignature]; omega
        rw [if_pos (hat hlt)]
        have hending : alphaArray (signatureArray signature frame) i (0 + (i + 6 : ℕ)) = 0 := by
          have hlast : ((0 : ℤ) + (i + 6 : ℕ) - i - 1).toNat = 5 := by omega
          rw [alphaArray, if_pos (by omega), hlast]
          rfl
        obtain ⟨len', hlen', hstr'⟩ := strlen_of_zero hending (lt_succ_self _)
        have hcompared' := strncmpCount_le (alphaArray (signatureArray signature frame) i) f.mem
          (i + 7) 0
        simp only [forall_mem_cons, not_mem_nil, false_implies, implies_true,
          Span.Inside,
          maxSignature, hstr', getD_some, and_true]
        omega

theorem acceptsOnly (machine : Machine) (signature : List UInt8) (frame : ℤ → UInt8)
    (f : ImageFile) : f.AcceptsOnly machine signature frame := by
  intro bound n r hr hret
  rw [check] at hr
  cases himg : imageOf f.mem f.size with
  | none =>
    rw [himg] at hr
    obtain rfl := some.inj hr
    exact absurd hret (by decide)
  | some img =>
    simp only [himg, v2ImageCheck] at hr
    split at hr
    · next hgood =>
      have hlong : sizeofImghdr2 < f.size := by
        by_contra hle
        rw [imageOf_of_le (by omega)] at himg
        cases himg
      have hhigh := f.size_lt
      obtain ⟨img', himg', hmem, -⟩ := imageOf_of_lt f.mem
        (by omega : (sizeofImghdr2 : ℤ) < f.size) (by omega)
      obtain rfl := some.inj (himg.symm.trans himg')
      have hmagic : f.MagicRight machine := by
        rw [MagicRight, ← hmem]
        exact hgood.1
      exact ⟨hlong, hmagic, signatureRight_of_ok hmagic hmem hgood.2, img, rfl, hr⟩
    · obtain rfl := some.inj hr
      exact absurd hret (by decide)

/-- For every signature and every file: `v2_image_check` stays inside its array and the file, and
accepts nothing but an image with a right signature, magic number and blocks, exactly under the
condition. -/
theorem v2ImageCheck_safe_iff (machine : Machine) (signature : List UInt8) (frame : ℤ → UInt8)
    (f : ImageFile) :
    f.InBounds machine signature frame ∧ f.AcceptsOnly machine signature frame ↔
      f.Checkable machine signature frame := by
  rw [and_iff_left (acceptsOnly machine signature frame f), InBounds, Checkable]
  have hhigh := f.size_lt
  by_cases hlong : sizeofImghdr2 < f.size
  · obtain ⟨img, himg, hmem, hsize⟩ := imageOf_of_lt f.mem
      (by omega : (sizeofImghdr2 : ℤ) < f.size) (by omega)
    rw [imageTouched_iff (P := Span.Inside f.size) (m := f.size) (fun _ h => h) (fun _ _ h => h)
      (by omega : (sizeofImghdr2 : ℤ) < f.size) (by omega) (by omega), arrayAccesses_iff]
    simp only [himg, mem_def, some.injEq, forall_eq', hlong, hlong.le,
      not_le.mpr hlong, true_implies, true_and, false_or, hmem]
    by_cases hmagic : f.MagicRight machine
    · simp only [hmagic, true_implies, not_true_eq_false, false_or]
      have hword : word machine.order f.mem 32 = cpuToLe machine.order imgV2MagicNo := hmagic
      simp only [hword, true_implies]
      exact and_comm
    · have hword : ¬ word machine.order f.mem 32 = cpuToLe machine.order imgV2MagicNo := hmagic
      simp only [hmagic, hword, false_implies, not_false_eq_true, true_or, and_self]
  · have hmod : (f.size : ℤ) % 2 ^ 32 ≤ sizeofImghdr2 := by omega
    refine iff_of_true ⟨⟨0, 0, 0, ?_⟩, fun h => absurd h hlong⟩ (.inl (not_lt.mp hlong))
    rw [imageTouched, if_pos hmod]
    exact safeIn_nothing _

/-- A file with the magic number of an image and the signature `x`. -/
def strayImage : ImageFile where
  mem i := if i = 0 then 120 else if i = 32 ∨ i = 35 then 0x20 else if i = 33 then 0x02
    else if i = 34 then 0x04 else 0
  size := 37
  size_lt := stub.size_lt

theorem strayImage_not_inBounds (frame : ℤ → UInt8) (g : List UInt8)
    (hx : Buffer.cut g ≠ [120])
    (hnone : ∀ k ≤ 25, (Buffer.cut g)[k]? ≠ some 95) :
    ¬ strayImage.InBounds constantDigest g frame := by
  rintro ⟨-, harray⟩
  obtain ⟨-, hsame | ⟨k, hk, hunderscore⟩⟩ := arrayAccesses_iff.mp
    (harray (by decide) (by rw [MagicRight]; decide))
  · exact hx (hsame.symm.trans (by decide))
  · exact hnone k hk hunderscore

/-- A signature without an underscore, and one with an underscore at position 26. -/
theorem v2ImageCheck_unsafe :
    ¬ (strayImage.InBounds constantDigest [119, 114, 103, 103] (fun _ => 0) ∧
        strayImage.AcceptsOnly constantDigest [119, 114, 103, 103] fun _ => 0) ∧
      ¬ (strayImage.InBounds constantDigest (List.replicate 26 97 ++ [95]) (fun _ => 0) ∧
        strayImage.AcceptsOnly constantDigest (List.replicate 26 97 ++ [95]) fun _ => 0) := by
  constructor
  · rintro ⟨h, -⟩
    exact strayImage_not_inBounds _ _ (by decide) (by decide) h
  · rintro ⟨h, -⟩
    exact strayImage_not_inBounds _ _ (by decide) (by decide) h

end ImageFile

end Wbr1310.Httpd
