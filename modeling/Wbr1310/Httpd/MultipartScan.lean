import Wbr1310.Httpd.UploadBody
import Wbr1310.Lib.Bytes

/-!
# The file in a form

`scan_multipart` looks for the boundary, for Content-Disposition and for a file name, each time
up to the end of the buffer and not of the part. In a form with one file, whose boundary is
nothing but a delimiter, it finds the content of the file.
-/

namespace Wbr1310.Httpd

open Lib Lib.Bytes List Function Option Nat

/-- From a position on, the memory holds the rest of the bytes. -/
def HoldsFrom (mem : ℤ → UInt8) (xs : Bytes) (i : ℕ) : Prop :=
  bytes mem i (xs.length - i) = xs.drop i

section Memory

variable {mem : ℤ → UInt8} {xs pat : Bytes} {i : ℕ}

theorem HoldsFrom.mono (h : HoldsFrom mem xs i) {j : ℕ} (hij : i ≤ j) : HoldsFrom mem xs j := by
  rw [HoldsFrom]
  by_cases hj : j ≤ xs.length
  · have hlen : ((xs.drop i).take (j - i)).length = j - i := by
      rw [length_take, length_drop]
      omega
    have hsplit : bytes mem i (((xs.drop i).take (j - i)).length + (xs.length - j)) =
        (xs.drop i).take (j - i) ++ (xs.drop i).drop (j - i) := by
      rw [take_append_drop, hlen, show j - i + (xs.length - j) = xs.length - i by omega]
      exact h
    have hrest := (bytes_of_append hsplit).2
    rwa [hlen, ← Nat.cast_add, Nat.add_sub_cancel' hij, drop_drop, Nat.add_sub_cancel' hij]
      at hrest
  · rw [drop_eq_nil_of_le (by omega), Nat.sub_eq_zero_of_le (by omega), bytes]

theorem HoldsFrom.update (h : HoldsFrom mem xs i) {u : ℤ} (hu : u < i) (v : UInt8) :
    HoldsFrom (Function.update mem u v) xs i := by
  rw [HoldsFrom, ← h]
  refine bytes_congr fun k hk _ => update_of_ne ?_ _ _
  omega

theorem HoldsFrom.bytes_eq (h : HoldsFrom mem xs i) (hpat : pat <+: xs.drop i) :
    bytes mem i pat.length = pat := by
  obtain ⟨rest, hrest⟩ := hpat
  have hlen : pat.length + rest.length = xs.length - i := by
    rw [← length_append, hrest, length_drop]
  rw [HoldsFrom, ← hrest, ← hlen] at h
  exact (bytes_of_append h).1

theorem strnstrFrom_eq (hpat : pat ≠ []) (n : ℕ) (i : ℤ) :
    strnstrFrom mem pat n i = (Buffer.indexOf pat (bytes mem i n)).map fun k : ℕ =>
      i + (k : ℤ) := by
  induction n generalizing i with
  | zero => rw [strnstrFrom, bytes, Buffer.indexOf, if_neg hpat, map_none]
  | succ n ih =>
    have hmatch : (pat.length ≤ n + 1 ∧ matchesAt mem pat i) ↔ pat <+: bytes mem i (n + 1) := by
      rw [matchesAt]
      constructor
      · rintro ⟨hlen, heq⟩
        rw [← Nat.add_sub_cancel' hlen, bytes_add, heq]
        exact prefix_append _ _
      · rintro ⟨rest, hrest⟩
        have hlen : pat.length + rest.length = n + 1 := by
          rw [← length_append, hrest, length_bytes]
        rw [← hlen] at hrest
        exact ⟨by omega, (bytes_of_append hrest.symm).1⟩
    rw [strnstrFrom, if_congr hmatch rfl rfl, bytes, Buffer.indexOf]
    split
    · rw [map_some, cast_zero, Int.add_zero]
    · rw [ih, Option.map_map]
      congr 1
      funext k
      simp only [comp_apply]
      omega

variable {p : ℤ}

section

variable (h : HoldsFrom mem xs i) (hpat : pat ≠ []) (hp : p = i)

include h hpat hp

theorem strnstr_eq : strnstr mem pat p (xs.length - p) =
      (Buffer.indexOf pat (xs.drop i)).map fun k => ((i + k : ℕ) : ℤ) := by
  subst hp
  rw [strnstr, if_neg hpat, strnstrFrom_eq hpat, show ((xs.length : ℤ) - i).toNat = xs.length - i by
    omega, h]
  congr 1

theorem strnstr_some {k : ℤ} (hk : strnstr mem pat p (xs.length - p) = some k) :
    ∃ j : ℕ, k = j ∧ i ≤ j ∧ pat <+: xs.drop j := by
  rw [strnstr_eq h hpat hp] at hk
  obtain ⟨j, hj, rfl⟩ := map_eq_some_iff.mp hk
  refine ⟨i + j, rfl, le_add_right i j, ?_⟩
  rw [← drop_drop]
  exact Buffer.indexOf_some hj

theorem strnstr_of_prefix {k : ℕ} (hik : i ≤ k) (hk : pat <+: xs.drop k) :
    ∃ j : ℕ, strnstr mem pat p (xs.length - p) = some (j : ℤ) ∧ i ≤ j ∧ j ≤ k ∧
      pat <+: xs.drop j := by
  have hdrop : pat <+: (xs.drop i).drop (k - i) := by
    rwa [drop_drop, Nat.add_sub_cancel' hik]
  obtain ⟨j, hj, hfound⟩ := Buffer.indexOf_le hdrop
  refine ⟨i + j, ?_, le_add_right i j, by omega, ?_⟩
  · rw [strnstr_eq h hpat hp, hfound, map_some]
  · rw [← drop_drop]
    exact Buffer.indexOf_some hfound

end

end Memory

def crlf : Bytes := [13, 10]

/-- A form with one file: other parts stand before and after that of the file. In its head, some
bytes stand before Content-Disposition, between that and the file name, and behind the name. -/
structure UploadForm where
  boundary : Bytes
  preamble : Bytes
  before : List Bytes
  lines : Bytes
  params : Bytes
  name : Bytes
  moreLines : Bytes
  content : Bytes
  after : List Bytes
  epilogue : Bytes

namespace UploadForm

variable (f : UploadForm)

def delimiter : Bytes := [45, 45] ++ f.boundary

def encodePart (part : Bytes) : Bytes := f.delimiter ++ crlf ++ part ++ crlf

def encodeParts (parts : List Bytes) : Bytes := parts.flatMap f.encodePart

def fileHead : Bytes :=
  f.lines ++ contentDisposition ++ f.params ++ filenameIs ++ [34] ++ f.name ++ [34] ++ f.moreLines

def filePart : Bytes := f.fileHead ++ crlf ++ crlf ++ f.content

def parts : List Bytes := f.before ++ f.filePart :: f.after

def body : Bytes :=
  f.preamble ++ f.encodeParts f.parts ++ f.delimiter ++ [45, 45] ++ f.epilogue

/-- The position of the boundary in the delimiter behind `k` parts. -/
def boundaryAt (k : ℕ) : ℕ := f.preamble.length + (f.encodeParts (f.parts.take k)).length + 2

def fileStart : ℕ := f.boundaryAt f.before.length + f.boundary.length + 2

def contentStart : ℕ := f.fileStart + f.fileHead.length + 4

def contentEnd : ℕ := f.contentStart + f.content.length

/-- The boundary stands only in the delimiters, `filename=` only in the part of the file, and an
empty line ends the head of that part. The preamble does not matter. -/
structure WellFormed : Prop where
  boundary_ne : f.boundary ≠ []
  delimiters : ∀ i < f.body.length, f.boundary <+: f.body.drop i →
    ∃ k ≤ f.parts.length, i = f.boundaryAt k
  filename : ∀ i < f.body.length, f.preamble.length ≤ i → filenameIs <+: f.body.drop i →
    f.fileStart ≤ i ∧ i < f.contentEnd
  emptyLine : ∀ i < f.fileHead.length, ¬ crlf ++ crlf <+: f.filePart.drop i

theorem encodeParts_append (xs ys : List Bytes) :
    f.encodeParts (xs ++ ys) = f.encodeParts xs ++ f.encodeParts ys :=
  flatMap_append

theorem length_encodePart (part : Bytes) :
    (f.encodePart part).length = f.boundary.length + part.length + 6 := by
  simp only [encodePart, delimiter, crlf, length_append, length_cons, length_nil]
  omega

theorem take_parts : f.parts.take f.before.length = f.before := List.take_left

theorem boundaryAt_cases (k : ℕ) : f.boundaryAt k + f.boundary.length + 2 ≤ f.fileStart ∨
    f.contentEnd + 4 ≤ f.boundaryAt k := by
  rcases lt_or_ge f.before.length k with hlt | hle
  · obtain ⟨m, rfl⟩ : ∃ m, k = f.before.length + (m + 1) := ⟨k - f.before.length - 1, by omega⟩
    right
    have htake : f.parts.take (f.before.length + (m + 1)) =
        f.before ++ ([f.filePart] ++ f.after.take m) := by
      rw [parts, take_length_add_append]
      rfl
    have hpart : f.encodeParts [f.filePart] = f.encodePart f.filePart := flatMap_singleton _ _
    rw [contentEnd, contentStart, fileStart, boundaryAt, boundaryAt, take_parts, htake,
      encodeParts_append, encodeParts_append, hpart]
    simp only [length_append, length_encodePart, filePart, crlf, length_cons,
      length_nil]
    omega
  · left
    have htake : f.before = f.parts.take k ++ f.before.drop k := by
      rw [parts, take_append_of_le_length hle, take_append_drop]
    have hlen := congrArg (fun xs => (f.encodeParts xs).length) htake
    simp only [encodeParts_append, length_append] at hlen
    rw [fileStart, boundaryAt, boundaryAt, take_parts]
    omega

theorem body_eq : ∃ front back, f.body = front ++ ([45, 45] ++ f.boundary ++ crlf ++ f.filePart ++
      crlf ++ ([45, 45] ++ f.boundary ++ back)) ∧
    front.length + 2 = f.boundaryAt f.before.length := by
  have hnext : ∃ back, f.encodeParts f.after ++ f.delimiter ++ [45, 45] ++ f.epilogue =
      [45, 45] ++ f.boundary ++ back := by
    cases f.after with
    | nil => exact ⟨[45, 45] ++ f.epilogue, by simp [encodeParts, delimiter]⟩
    | cons part rest =>
      refine ⟨crlf ++ part ++ crlf ++ f.encodeParts rest ++ f.delimiter ++ [45, 45] ++ f.epilogue,
        ?_⟩
      simp only [encodeParts, flatMap_cons, encodePart, delimiter, append_assoc]
  obtain ⟨back, hback⟩ := hnext
  refine ⟨f.preamble ++ f.encodeParts f.before, back, ?_, ?_⟩
  · rw [← hback, body, parts, encodeParts_append, encodeParts, encodeParts, encodeParts,
      flatMap_cons]
    simp only [encodePart, delimiter, append_assoc]
  · rw [boundaryAt, take_parts, length_append]

variable {pat : Bytes} {i : ℕ}

theorem prefix_drop {front xs : Bytes} (h : front ++ pat <+: xs) :
    pat <+: xs.drop front.length := by
  obtain ⟨back, rfl⟩ := h
  rw [append_assoc, drop_left]
  exact prefix_append pat back

theorem drop_filePart (hi : i ≤ f.filePart.length) :
    ∃ back, f.body.drop (f.fileStart + i) =
      f.filePart.drop i ++ (crlf ++ ([45, 45] ++ f.boundary ++ back)) := by
  obtain ⟨front, back, hbody, hfront⟩ := f.body_eq
  refine ⟨back, ?_⟩
  have hlen : f.fileStart + i = (front ++ ([45, 45] ++ f.boundary ++ crlf)).length + i := by
    rw [fileStart, ← hfront]
    simp only [crlf, length_append, length_cons, length_nil]
    omega
  have hassoc : f.body = (front ++ ([45, 45] ++ f.boundary ++ crlf)) ++
      (f.filePart ++ (crlf ++ ([45, 45] ++ f.boundary ++ back))) := by
    rw [hbody]
    simp only [append_assoc]
  rw [hassoc, hlen, drop_length_add_append, drop_append_of_le_length hi]

theorem prefix_of_filePart (hi : i ≤ f.filePart.length) (h : pat <+: f.filePart.drop i) :
    pat <+: f.body.drop (f.fileStart + i) := by
  obtain ⟨back, hdrop⟩ := f.drop_filePart hi
  rw [hdrop]
  exact h.trans (prefix_append _ _)

def nameAt : ℕ := f.lines.length + 19 + f.params.length

theorem length_fileHead :
    f.fileHead.length = f.nameAt + f.name.length + f.moreLines.length + 11 := by
  simp only [fileHead, nameAt, contentDisposition, filenameIs, length_append, length_cons,
    length_nil]
  omega

theorem length_filePart : f.filePart.length = f.fileHead.length + 4 + f.content.length := by
  simp only [filePart, crlf, length_append, length_cons, length_nil]

theorem prefix_disposition : contentDisposition <+: f.body.drop (f.fileStart + f.lines.length) := by
  have hhead := f.length_fileHead
  have hpart := f.length_filePart
  rw [nameAt] at hhead
  refine f.prefix_of_filePart (by omega) (prefix_drop ?_)
  simp only [filePart, fileHead, append_assoc, prefix_append_right_inj,
    prefix_append]

theorem prefix_filename : filenameIs <+: f.body.drop (f.fileStart + f.nameAt) := by
  have hhead := f.length_fileHead
  have hpart := f.length_filePart
  have hat : f.nameAt = (f.lines ++ contentDisposition ++ f.params).length := by
    rw [nameAt, length_append, length_append]
    rfl
  refine f.prefix_of_filePart (by omega) (hat ▸ prefix_drop ?_)
  simp only [filePart, fileHead, append_assoc, prefix_append_right_inj,
    prefix_append]

theorem prefix_quotes :
    [34] <+: f.body.drop (f.fileStart + (f.nameAt + 9)) ∧
      [34] <+: f.body.drop (f.fileStart + (f.nameAt + 10 + f.name.length)) := by
  have hhead := f.length_fileHead
  have hpart := f.length_filePart
  have hopen : f.nameAt + 9 = (f.lines ++ contentDisposition ++ f.params ++ filenameIs).length := by
    rw [nameAt, length_append, length_append, length_append]
    rfl
  have hclose : f.nameAt + 10 + f.name.length =
      (f.lines ++ contentDisposition ++ f.params ++ filenameIs ++ [34] ++ f.name).length := by
    rw [length_append, length_append, ← hopen]
    rfl
  constructor
  · refine f.prefix_of_filePart (by omega) (hopen ▸ prefix_drop ?_)
    simp only [filePart, fileHead, append_assoc, prefix_append_right_inj,
      prefix_append]
  · refine f.prefix_of_filePart (by omega) (hclose ▸ prefix_drop ?_)
    simp only [filePart, fileHead, append_assoc, prefix_append_right_inj,
      prefix_append]

theorem prefix_emptyLine : crlf ++ crlf <+: f.body.drop (f.fileStart + f.fileHead.length) := by
  have hpart := f.length_filePart
  refine f.prefix_of_filePart (by omega) (prefix_drop ?_)
  rw [filePart, ← append_assoc]
  exact prefix_append _ _

theorem prefix_content : f.content <+: f.body.drop f.contentStart := by
  have hpart := f.length_filePart
  have hat : f.fileHead.length + 4 = (f.fileHead ++ crlf ++ crlf).length := by
    rw [length_append, length_append]
    rfl
  rw [contentStart, Nat.add_assoc]
  exact f.prefix_of_filePart (by omega) (hat ▸ prefix_drop prefix_rfl)

theorem prefix_boundary : f.boundary <+: f.body.drop (f.boundaryAt f.before.length) ∧
    f.boundary <+: f.body.drop (f.contentEnd + 4) := by
  obtain ⟨front, back, hbody, hfront⟩ := f.body_eq
  constructor
  · have hat : f.boundaryAt f.before.length = (front ++ [45, 45]).length := by
      rw [← hfront, length_append]
      rfl
    rw [hat]
    refine prefix_drop ?_
    simp only [hbody, append_assoc, prefix_append_right_inj, prefix_append]
  · have hat : f.contentEnd + 4 =
        (front ++ [45, 45] ++ f.boundary ++ crlf ++ f.filePart ++ crlf ++ [45, 45]).length := by
      simp only [contentEnd, contentStart, fileStart, ← hfront, length_append, length_filePart,
        crlf, length_cons, length_nil]
      omega
    rw [hat]
    refine prefix_drop ?_
    simp only [hbody, append_assoc, prefix_append_right_inj, prefix_append]

/-- `file_ptr` and `file_length` denote the content of the file in the block. -/
structure Extracted (b : ℕ) (s : ScanState) : Prop where
  filePtr : s.filePtr = some ⟨b, f.contentStart⟩
  fileLength : s.fileLength = f.content.length
  mem : HoldsFrom s.mem f.body f.contentStart

theorem lt_of_prefix_drop {xs : Bytes} (hpat : pat ≠ []) (h : pat <+: xs.drop i) :
    i < xs.length := by
  have hlen := h.length_le
  have hpos := length_pos_iff.mpr hpat
  rw [length_drop] at hlen
  omega

section Scan

variable {f} {b : ℕ} {mem : ℤ → UInt8} (hf : f.WellFormed)
include hf

variable {j : ℕ} {s : ScanState}

theorem WellFormed.not_prefix_emptyLine (hj : f.fileStart ≤ j)
    (hlt : j < f.fileStart + f.fileHead.length) : ¬ crlf ++ crlf <+: f.body.drop j := by
  have hpart := f.length_filePart
  intro hline
  obtain ⟨back, hdrop⟩ := f.drop_filePart (i := j - f.fileStart) (by omega)
  rw [Nat.add_sub_cancel' hj] at hdrop
  refine hf.emptyLine (j - f.fileStart) (by omega) ?_
  refine prefix_of_prefix_length_le hline (hdrop ▸ prefix_append _ _) ?_
  rw [length_drop]
  change 4 ≤ _
  omega

/-- The boundary that is found in front of the file leads to its content. -/
theorem scanPart_file (hmem : HoldsFrom mem f.body 0) {d : ℕ} (hd : f.boundary <+: f.body.drop d)
    (hle : d ≤ f.boundaryAt f.before.length) (hs : s.mem = mem) (hsect : s.fileSect = false) :
    ∃ (name : Option Ptr) (u : ℤ), u < f.contentStart ∧
      scanPart f.boundary b f.body.length d s =
        ⟨f.contentStart, true, some ⟨b, f.contentStart⟩, name, s.fileLength,
          Function.update mem u 0⟩ := by
  have hhead := f.length_fileHead
  have hstart : f.fileStart = f.boundaryAt f.before.length + f.boundary.length + 2 := rfl
  have hname : f.nameAt = f.lines.length + 19 + f.params.length := rfl
  have hcontent : f.contentStart = f.fileStart + f.fileHead.length + 4 := rfl
  -- Content-Disposition, at the latest that of the file
  obtain ⟨c, hc, hdc, hcle, -⟩ := strnstr_of_prefix
    (p := d + f.boundary.length) (hmem.mono (zero_le (d + f.boundary.length))) (by decide)
    (cast_add d _).symm (by omega) f.prefix_disposition
  -- the name, which is in the part of the file
  obtain ⟨q, hq, hcq, hqle, hqname⟩ := strnstr_of_prefix (p := c + 19)
    (hmem.mono (zero_le (c + 19))) (by decide) (cast_add c 19).symm (by omega)
    f.prefix_filename
  have hqfile : f.fileStart ≤ q := by
    obtain ⟨k, -, hk⟩ := hf.delimiters d (lt_of_prefix_drop hf.boundary_ne hd) hd
    have hpreamble : f.preamble.length ≤ f.boundaryAt k := by
      rw [boundaryAt, Nat.add_assoc]
      exact le_add_right _ _
    exact (hf.filename q (lt_of_prefix_drop (by decide) hqname) (by omega) hqname).1
  -- a quote in the head
  have hquote : ∃ u : ℕ, strnstr mem [34] (q + 10) (f.body.length - (q + 10)) = some (u : ℤ) ∧
      q + 10 ≤ u ∧ u < f.fileStart + f.fileHead.length := by
    have hafter : HoldsFrom mem f.body (q + 10) := hmem.mono (zero_le _)
    rcases lt_or_ge q (f.fileStart + f.nameAt) with hlt | hge
    · obtain ⟨u, hu, hqu, hule, -⟩ := strnstr_of_prefix (p := q + 10) hafter (by decide)
        (cast_add q 10).symm (by omega) f.prefix_quotes.1
      exact ⟨u, hu, hqu, by omega⟩
    · obtain ⟨u, hu, hqu, hule, -⟩ := strnstr_of_prefix (p := q + 10) hafter (by decide)
        (cast_add q 10).symm (by omega) f.prefix_quotes.2
      exact ⟨u, hu, hqu, by omega⟩
  obtain ⟨u, hu, hqu, hulen⟩ := hquote
  -- the empty line behind it ends the head
  have hset : HoldsFrom (update mem u 0) f.body (u + 1) :=
    (hmem.mono (zero_le _)).update (by omega) 0
  obtain ⟨e, he, hue, hele, hline⟩ := strnstr_of_prefix (p := u + 1) hset (by decide)
    (cast_add u 1).symm (by omega) f.prefix_emptyLine
  have heq : e = f.fileStart + f.fileHead.length := by
    by_contra hne
    exact hf.not_prefix_emptyLine (by omega) (by omega) hline
  refine ⟨some ⟨b, q + 10⟩, u, by omega, ?_⟩
  simp only [scanPart, ScanState.find, hs, hc, hq, scanFilename, hu]
  rw [show ([13, 10, 13, 10] : Bytes) = crlf ++ crlf from rfl, he, heq, hcontent]
  simp only [hsect, Bool.false_eq_true, if_false, cast_add, cast_ofNat]

theorem WellFormed.eq_contentEnd (hj : f.contentStart ≤ j) (hle : j ≤ f.contentEnd + 4)
    (h : f.boundary <+: f.body.drop j) : j = f.contentEnd + 4 := by
  have hcontent : f.contentStart = f.fileStart + f.fileHead.length + 4 := rfl
  obtain ⟨k, -, rfl⟩ := hf.delimiters j (lt_of_prefix_drop hf.boundary_ne h) h
  rcases f.boundaryAt_cases k with hfront | hback
  · omega
  · omega

theorem WellFormed.not_prefix_filename (hj : f.contentEnd ≤ j) :
    ¬ filenameIs <+: f.body.drop j := by
  intro h
  have hpreamble : f.preamble.length ≤ f.contentEnd := by
    simp only [contentEnd, contentStart, fileStart, boundaryAt]
    omega
  have hin := hf.filename j (lt_of_prefix_drop (by decide) h) (by omega) h
  omega

/-- A boundary behind the file changes nothing but the position. -/
theorem scanPart_behind {d : ℕ} (hd : f.contentEnd ≤ d)
    (hmem : HoldsFrom s.mem f.body (d + f.boundary.length)) :
    ∃ i : ℕ, d + f.boundary.length ≤ i ∧ scanPart f.boundary b f.body.length d s =
      { s with
        fileLength := if s.fileSect then d - (s.filePtr.map Ptr.offset).getD 0 - 4 else s.fileLength
        fileSect := false
        pStart := i } := by
  simp only [scanPart]
  split
  · exact ⟨d + f.boundary.length, le_rfl, by rw [cast_add]⟩
  · next p hp =>
    obtain ⟨c, rfl, hdc, -⟩ := strnstr_some hmem (by decide) (cast_add d _).symm hp
    split
    · exact ⟨c + 19, by omega, by rw [cast_add]; rfl⟩
    · next p hp =>
      obtain ⟨q, rfl, hcq, hq⟩ := strnstr_some (hmem.mono (j := c + 19) (by omega)) (by decide)
        (cast_add c 19).symm hp
      exact absurd hq (hf.not_prefix_filename (by omega))

theorem scanFrom_behind {n : ℕ} (hs : f.Extracted b s) (hsect : s.fileSect = false) {i : ℕ}
    (hi : s.pStart = i) (hle : f.contentEnd ≤ i) :
    f.Extracted b (scanFrom f.boundary b f.body.length n s) := by
  induction n generalizing s i with
  | zero => exact hs
  | succ n ih =>
    have hstart : f.contentStart ≤ f.contentEnd := le_add_right _ _
    rw [scanFrom]
    split
    · exact hs
    · next p hp =>
      obtain ⟨d, rfl, hid, -⟩ := strnstr_some (hs.mem.mono (by omega)) hf.boundary_ne hi hp
      obtain ⟨j, hj, heq⟩ := scanPart_behind (b := b) hf (hle.trans hid)
        (hs.mem.mono (by omega))
      rw [heq, hsect]
      exact ih ⟨hs.filePtr, hs.fileLength, hs.mem⟩ rfl rfl (by omega)

theorem scanFrom_form (hmem : HoldsFrom mem f.body 0) {n : ℕ} (hn : 2 ≤ n) (ptr name : Option Ptr)
    (len : ℤ) :
    f.Extracted b (scanFrom f.boundary b f.body.length n ⟨0, false, ptr, name, len, mem⟩) := by
  obtain ⟨n, rfl⟩ : ∃ m, n = m + 2 := ⟨n - 2, by omega⟩
  -- the first boundary stands in front of the file
  obtain ⟨d, hd, -, hdle, hdelim⟩ := strnstr_of_prefix (p := 0) hmem hf.boundary_ne rfl
    (zero_le _) f.prefix_boundary.1
  obtain ⟨name', u, hu, hfile⟩ := scanPart_file (b := b) hf hmem hdelim hdle
    (s := ⟨0, false, ptr, name, len, mem⟩) rfl rfl
  have hset : HoldsFrom (update mem u 0) f.body f.contentStart :=
    (hmem.mono (zero_le _)).update hu 0
  -- the next one ends its content
  have hstart : f.contentStart ≤ f.contentEnd + 4 := by
    rw [contentEnd]
    omega
  obtain ⟨e, he, hse, hele, hend⟩ := strnstr_of_prefix (p := f.contentStart) hset hf.boundary_ne rfl
    hstart f.prefix_boundary.2
  obtain rfl := hf.eq_contentEnd hse hele hend
  obtain ⟨i, hi, hbehind⟩ := scanPart_behind (b := b) hf (d := f.contentEnd + 4)
    (s := ⟨f.contentStart, true, some ⟨b, f.contentStart⟩, name', len, update mem u 0⟩)
    (le_add_right _ 4) (hset.mono (by omega))
  have hrounds : scanFrom f.boundary b f.body.length (n + 2) ⟨0, false, ptr, name, len, mem⟩ =
      scanFrom f.boundary b f.body.length n
        (scanPart f.boundary b f.body.length (f.contentEnd + 4 : ℕ)
          ⟨f.contentStart, true, some ⟨b, f.contentStart⟩, name', len,
            update mem u 0⟩) := by
    rw [scanFrom, ScanState.find, hd]
    simp only
    rw [hfile, scanFrom, ScanState.find, he]
  rw [hrounds, hbehind]
  refine scanFrom_behind hf ⟨rfl, ?_, hset⟩ rfl rfl (by omega)
  simp only [if_true, map_some, getD_some, contentEnd]
  omega

end Scan

end UploadForm

end Wbr1310.Httpd
