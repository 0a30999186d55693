import Wbr1310.IptString.Safety

/-!
# Requests and the URL filter

A request names its URL by a path and a host header, or in one piece. The filter is meant to
find the needle in the host followed by the path, all in lower case.
-/

namespace Wbr1310.IptString

open Lib Buffer List

/-- The methods that the matcher looks for. -/
inductive Method where
  | get
  | post
  | head
  | put
  | delete
  | options
  | trace
  | connect
  deriving DecidableEq, Repr

def Method.name : Method → List Byte
  | .get => ascii "GET"
  | .post => ascii "POST"
  | .head => ascii "HEAD"
  | .put => ascii "PUT"
  | .delete => ascii "DELETE"
  | .options => ascii "OPTIONS"
  | .trace => ascii "TRACE"
  | .connect => ascii "CONNECT"

def slash : Byte := 0x2f

def crlf : List Byte := [cr, lf]

def Plain (xs : List Byte) : Prop := ∀ c ∈ xs, ¬ IsBreak c ∧ c ≠ 0

def Solid (xs : List Byte) : Prop := ∀ c ∈ xs, (¬ IsBreak c ∧ c ≠ 0) ∧ c ≠ blank

instance (xs : List Byte) : Decidable (Plain xs) := List.decidableBAll _ xs

instance (xs : List Byte) : Decidable (Solid xs) := List.decidableBAll _ xs

def requestLine (method : Method) (target : List Byte) (minor : Byte) : List Byte :=
  method.name ++ (blank :: target ++ blank :: (ascii "HTTP/1." ++ [minor]))

/-- A request for a path, with the host in a header line. `before` are the header lines before
that one, and `rest` is everything after it. -/
structure OriginRequest where
  method : Method
  path : List Byte
  minor : Byte
  before : List (List Byte)
  host : List Byte
  rest : List Byte
  path_slash : path.head? = some slash
  path_solid : Solid path
  minor_digit : 0x30 ≤ minor ∧ minor ≤ 0x39
  before_plain : ∀ line ∈ before, line ≠ [] ∧ Plain line
  host_solid : Solid host
  line_short : (requestLine method path minor).length < 255
  before_short : ∀ line ∈ before, line.length < 255
  host_short : (ascii "Host: " ++ host).length < 255

/-- A request to a proxy, with the whole address in its first line. -/
structure AbsoluteRequest where
  method : Method
  host : List Byte
  path : List Byte
  minor : Byte
  rest : List Byte
  path_slash : path.head? = some slash
  path_solid : Solid path
  host_solid : Solid host
  minor_digit : 0x30 ≤ minor ∧ minor ≤ 0x39
  line_short : (requestLine method (ascii "http://" ++ (host ++ path)) minor).length < 255

/-- The header lines of a request from one on, with their ends. -/
def joined (lines : List (List Byte)) : List Byte := lines.flatMap fun line => line ++ crlf

def OriginRequest.payload (r : OriginRequest) : List Byte :=
  requestLine r.method r.path r.minor ++ (crlf ++ (joined r.before ++
    (ascii "Host: " ++ r.host ++ (crlf ++ r.rest))))

def AbsoluteRequest.payload (r : AbsoluteRequest) : List Byte :=
  requestLine r.method (ascii "http://" ++ (r.host ++ r.path)) r.minor ++ (crlf ++ r.rest)

/-- A request as a client sends it. -/
inductive Request where
  | origin (r : OriginRequest)
  | absolute (r : AbsoluteRequest)

def Request.payload : Request → List Byte
  | .origin r => r.payload
  | .absolute r => r.payload

def Request.url : Request → List Byte
  | .origin r => r.host ++ r.path
  | .absolute r => r.host ++ r.path

def Occurs (needle : Needle) (text : List Byte) : Prop := lower needle.text <:+: lower text

instance (needle : Needle) (text : List Byte) : Decidable (Occurs needle text) :=
  inferInstanceAs (Decidable (_ <:+: _))

/-- `match_URL` returns 1 exactly when the needle occurs in the URL, and 0 otherwise. -/
def FindsUrl (r : Request) (needle : Needle) : Prop :=
  ∃ cells, matchUrl r.payload (held needle.text) needle.text.length =
    .ok (decide (Occurs needle r.url), cells)

theorem lowerByte_ne_blank {c : Byte} (h : c ≠ blank) : lowerByte c ≠ blank := by
  unfold lowerByte
  split
  · next hc =>
    intro heq
    have hnat := congrArg UInt8.toNat heq
    rw [UInt8.le_iff_toNat_le, UInt8.le_iff_toNat_le] at hc
    simp [blank] at hnat hc
    omega
  · exact h

variable {xs ys : List Byte} {minor : Byte}

theorem Plain.ne_zero (h : Plain xs) : ∀ c ∈ lower xs, c ≠ 0 :=
  ne_zero_of_mem_lower fun c hc => (h c hc).2

theorem Plain.textOf (h : Plain xs) : textOf xs = lower xs :=
  cut_of_ne_zero h.ne_zero

theorem Plain.append (hx : Plain xs) (hy : Plain ys) : Plain (xs ++ ys) := by
  intro c hc
  obtain hc | hc := mem_append.mp hc
  · exact hx c hc
  · exact hy c hc

theorem Solid.plain (h : Solid xs) : Plain xs := fun c hc => (h c hc).1

theorem Solid.append (hx : Solid xs) (hy : Solid ys) : Solid (xs ++ ys) := by
  intro c hc
  obtain hc | hc := mem_append.mp hc
  · exact hx c hc
  · exact hy c hc

theorem Solid.blank_not_mem (h : Solid xs) : blank ∉ lower xs := by
  intro hmem
  obtain ⟨d, hd, he⟩ := mem_map.mp hmem
  exact lowerByte_ne_blank (h d hd).2 he

theorem Solid.word_append (h : Solid xs)
    (hys : ys.takeWhile (fun c => decide (c ≠ blank ∧ c ≠ 0)) = []) :
    word (lower xs ++ ys) = lower xs := by
  have hall : ∀ c ∈ lower xs, decide (c ≠ blank ∧ c ≠ 0) = true := by
    intro c hc
    exact decide_eq_true ⟨fun he => h.blank_not_mem (he ▸ hc), h.plain.ne_zero c hc⟩
  rw [word, takeWhile_append_of_pos hall, hys, append_nil]

theorem Method.solid (method : Method) : Solid method.name := by
  cases method <;> decide

theorem Method.named (method : Method) (h : Plain (method.name ++ xs)) :
    NamesMethod (method.name ++ xs) := by
  have hname : lower method.name ∈ methodNames := by cases method <;> decide
  refine ⟨lower method.name, hname, ?_⟩
  rw [h.textOf, lower_append]
  exact (prefix_append _ _).isInfix

theorem lineOf_append (h : Plain xs) (ys : List Byte) :
    lineOf (xs ++ (crlf ++ ys)) = xs := by
  have hall : ∀ c ∈ xs, decide (¬ IsBreak c) = true := fun c hc => decide_eq_true (h c hc).1
  rw [lineOf, takeWhile_append_of_pos hall]
  simp [crlf, IsBreak]

def Starts (ys : List Byte) : Prop := ∀ c ∈ ys.head?, ¬ IsBreak c

theorem span_append (h : Plain xs) (hys : Starts ys) :
    span (xs ++ (crlf ++ ys)) = (xs ++ crlf).length := by
  have hstop : ys.takeWhile (fun c => decide (IsBreak c)) = [] := by
    cases ys with
    | nil => rfl
    | cons c ys => exact takeWhile_cons_of_neg (by simpa using hys c rfl)
  have hbreaks : breaksOf (xs ++ (crlf ++ ys)) = crlf := by
    have hcrlf : ∀ c ∈ crlf, decide (IsBreak c) = true := by simp [crlf, IsBreak]
    rw [breaksOf, lineOf_append h, drop_left,
      takeWhile_append_of_pos hcrlf, hstop, append_nil]
  rw [span, lineOf_append h, hbreaks, length_append]

theorem afterLine_append (h : Plain xs) (hys : Starts ys) :
    afterLine (xs ++ (crlf ++ ys)) = ys := by
  rw [afterLine, span_append h hys, ← append_assoc, drop_left]

def hostLine (host : List Byte) : List Byte := ascii "Host: " ++ host

theorem hostLine_plain {host : List Byte} (h : Solid host) : Plain (hostLine host) :=
  Plain.append (by decide) h.plain

theorem starts_joined {before : List (List Byte)} (h : ∀ line ∈ before, line ≠ [] ∧ Plain line)
    (host ys : List Byte) : Starts (joined before ++ (hostLine host ++ ys)) := by
  cases before with
  | nil =>
    intro c hc
    obtain rfl : 'H'.toUInt8 = c := by simpa [joined, hostLine, ascii] using hc
    decide
  | cons line before =>
    obtain ⟨hne, hplain⟩ := h line mem_cons_self
    obtain ⟨d, line, rfl⟩ := exists_cons_of_ne_nil hne
    intro c hc
    obtain rfl : d = c := by simpa [joined] using hc
    exact (hplain d mem_cons_self).1

/-- The header lines of the segment are those of the request. -/
theorem headerLines_joined {before : List (List Byte)}
    (h : ∀ line ∈ before, line ≠ [] ∧ Plain line) {host : List Byte} (hhost : Solid host)
    (rest : List Byte) {n : ℕ}
    (hn : (joined before ++ (hostLine host ++ (crlf ++ rest))).length ≤ n) :
    ∃ tail, headerLines n (joined before ++ (hostLine host ++ (crlf ++ rest))) =
      before ++ hostLine host :: tail := by
  have hlong (xs : List Byte) : 6 < (xs ++ (hostLine host ++ (crlf ++ rest))).length := by
    simp [hostLine, crlf, ascii]
    omega
  induction before generalizing n with
  | nil =>
    obtain ⟨n, rfl⟩ := Nat.exists_eq_add_one_of_ne_zero
      (Nat.ne_zero_of_lt ((hlong (joined [])).trans_le hn))
    rw [headerLines, if_pos (hlong _)]
    exact ⟨_, congrArg (· :: _) (lineOf_append (hostLine_plain hhost) rest)⟩
  | cons line before ih =>
    obtain ⟨n, rfl⟩ := Nat.exists_eq_add_one_of_ne_zero
      (Nat.ne_zero_of_lt ((hlong (joined (line :: before))).trans_le hn))
    have hjoined : joined (line :: before) ++ (hostLine host ++ (crlf ++ rest)) =
        line ++ (crlf ++ (joined before ++ (hostLine host ++ (crlf ++ rest)))) := by
      simp [joined, flatMap_cons]
    have hbefore : ∀ l ∈ before, l ≠ [] ∧ Plain l :=
      fun l hl => h l (mem_cons_of_mem line hl)
    have hline := (h line mem_cons_self).2
    have hcrlf : crlf.length = 2 := rfl
    rw [hjoined, length_append, length_append] at hn
    obtain ⟨tail, htail⟩ := ih (n := n) hbefore (by omega)
    rw [headerLines, if_pos (hlong _), hjoined, lineOf_append hline,
      afterLine_append hline (starts_joined hbefore host _), htail]
    exact ⟨tail, rfl⟩

theorem digit_solid (h : 0x30 ≤ minor ∧ minor ≤ 0x39) : Solid [minor] := by
  intro c hc
  obtain rfl := mem_singleton.mp hc
  refine ⟨⟨?_, ?_⟩, ?_⟩
  · rintro (rfl | rfl) <;> exact absurd h (by decide)
  · rintro rfl
    exact absurd h (by decide)
  · rintro rfl
    exact absurd h (by decide)

theorem version_solid (h : 0x30 ≤ minor ∧ minor ≤ 0x39) :
    Solid (ascii "HTTP/1." ++ [minor]) :=
  Solid.append (by decide) (digit_solid h)

theorem requestLine_plain (method : Method) {target : List Byte} (ht : Solid target)
    (hm : 0x30 ≤ minor ∧ minor ≤ 0x39) :
    Plain (requestLine method target minor) := by
  have hblank : Plain [blank] := by decide
  exact method.solid.plain.append
    (hblank.append (ht.plain.append (hblank.append (version_solid hm).plain)))

theorem lower_requestLine (method : Method) (target : List Byte) (minor : Byte) :
    lower (requestLine method target minor) =
      lower method.name ++ blank :: (lower target ++
        blank :: lower (ascii "HTTP/1." ++ [minor])) := by
  have hblank : lowerByte blank = blank := by decide
  rw [requestLine, lower_append, cons_append]
  simp only [lower, map_cons, map_append, hblank]

theorem uriOf_origin (method : Method) {path : List Byte} (hp : Solid path)
    (hslash : path.head? = some slash) (hm : 0x30 ≤ minor ∧ minor ≤ 0x39) :
    uriOf (requestLine method path minor) = some (lower path) := by
  have hfound : indexOf (ascii " /") (textOf (requestLine method path minor)) =
      some method.name.length := by
    obtain ⟨p, rfl⟩ : ∃ p, path = slash :: p := by
      cases path with
      | nil => exact absurd hslash (by simp)
      | cons c p =>
        obtain rfl : c = slash := by simpa using hslash
        exact ⟨p, rfl⟩
    have hpat : ascii " /" = [blank, slash] := by decide
    have hslash' : lowerByte slash = slash := by decide
    rw [(requestLine_plain method hp hm).textOf, lower_requestLine, hpat,
      indexOf_append method.solid.blank_not_mem, indexOf_of_prefix, Option.map_some, length_lower,
      Nat.add_zero]
    simp [lower, hslash']
  rw [uriOf, hfound, Option.map_some, lower_requestLine]
  have hdrop : (lower method.name ++ blank :: (lower path ++
      blank :: lower (ascii "HTTP/1." ++ [minor]))).drop (method.name.length + 1) =
      lower path ++ blank :: lower (ascii "HTTP/1." ++ [minor]) := by
    rw [← length_lower, ← drop_drop, drop_left]
    rfl
  rw [hdrop, hp.word_append (takeWhile_cons_of_neg (by decide))]

theorem uriOf_absolute (method : Method) {url : List Byte} (hu : Solid url)
    (hm : 0x30 ≤ minor ∧ minor ≤ 0x39) :
    uriOf (requestLine method (ascii "http://" ++ url) minor) = none := by
  have htarget : Solid (ascii "http://" ++ url) := Solid.append (by decide) hu
  have hpat : ascii " /" = [blank, slash] := by decide
  have hhttp : lower (ascii "http://") = 0x68 :: ascii "ttp://" := by decide
  have hversion : lower (ascii "HTTP/1.") = 0x68 :: ascii "ttp/1." := by decide
  have hfirst : ¬ [blank, slash] <+: blank :: (lower (ascii "http://" ++ url) ++
      blank :: lower (ascii "HTTP/1." ++ [minor])) := by
    simp [lower_append, hhttp, slash]
  have hsecond : ¬ [blank, slash] <+: blank :: lower (ascii "HTTP/1." ++ [minor]) := by
    simp [lower_append, hversion, slash]
  have hend : indexOf [blank, slash] (lower (ascii "HTTP/1." ++ [minor]) ++ []) = none :=
    indexOf_append (version_solid hm).blank_not_mem []
  rw [append_nil] at hend
  rw [uriOf, (requestLine_plain method htarget hm).textOf, lower_requestLine, hpat,
    indexOf_append method.solid.blank_not_mem, indexOf_cons_of_not_prefix hfirst,
    indexOf_append htarget.blank_not_mem, indexOf_cons_of_not_prefix hsecond, hend]
  rfl

end Wbr1310.IptString
