import Wbr1310.IptString.Lines

/-!
# Accesses of the matchers

The matchers stay inside the segment and inside their arrays on segments whose lines fit into
`line`, unless the URI of a "proxy" request is too long for the shifted copy or the needle
fills its array. The result of `match_URL` is given in closed form on the way.
-/

namespace Wbr1310.IptString

open Lib Buffer List

def textOf (line : List Byte) : List Byte := cut (lower line)

def NamesMethod (line : List Byte) : Prop := ∃ name ∈ methodNames, name <:+: textOf line

instance (line : List Byte) : Decidable (NamesMethod line) :=
  inferInstanceAs (Decidable (∃ name ∈ methodNames, name <:+: textOf line))

/-- What follows the first blank before a slash, up to the next blank. -/
def uriOf (line : List Byte) : Option (List Byte) :=
  (indexOf (ascii " /") (textOf line)).map fun k => word ((lower line).drop (k + 1))

/-- What follows "host: " in a header line, up to the next blank. -/
def hostOf (line : List Byte) : Option (List Byte) :=
  (indexOf (ascii "host: ") (textOf line)).map fun k => word ((lower line).drop (k + 6))

variable {line uri : List Byte} {lines : List (List Byte)}

theorem matchHttpMethod_spec (h : line.length < lineLen) :
    matchHttpMethod (held (lower line)) = .ok (decide (NamesMethod line)) := by
  rw [matchHttpMethod, anyOccurs_held (by simpa using h)]
  congr 1
  rw [Bool.eq_iff_iff, any_eq_true, decide_eq_true_eq]
  constructor
  · rintro ⟨name, hmem, hsome⟩
    exact ⟨name, hmem, indexOf_isSome_iff.mp hsome⟩
  · rintro ⟨name, hmem, hin⟩
    exact ⟨name, hmem, indexOf_isSome_iff.mpr hin⟩

theorem lower_line (h : line.length < lineLen) :
    lowerCells lineLen lineLen 0 (held line) = .ok (held (lower line)) :=
  lowerCells_held le_rfl h.le

theorem strstr_line (pat : List Byte) (h : line.length < lineLen) :
    strstr lineLen (held (lower line)) pat = .ok (indexOf pat (textOf line)) :=
  strstr_held pat (by simpa using h)

theorem found_in_line {pat : List Byte} {k : ℕ} (h : indexOf pat (textOf line) = some k)
    (hpat : pat ≠ []) : k + pat.length ≤ line.length := by
  have hk := indexOf_lt h hpat
  have hcut := cut_length_le (lower line)
  rw [length_lower] at hcut
  exact hk.trans hcut

/-- The lines that the header loop would go through, if none of them named the host. -/
def headerLines : ℕ → List Byte → List (List Byte)
  | 0, _ => []
  | n + 1, packet =>
    if 6 < packet.length then lineOf packet :: headerLines n (afterLine packet) else []

/-- The text in an array and the length that is kept for it. -/
abbrev Counted := List Byte × ℤ

def cellsOf (r : Counted) : Cells × ℤ := (held r.1, r.2)

/-- The URL that is made of the first line that names the host. -/
def headerText (uri : List Byte) : List (List Byte) → Checked Counted
  | [] => .ok ([], 0)
  | line :: lines =>
    if line.length < lineLen then
      match hostOf line with
      | some host => .ok (host ++ uri, (host.length : ℤ) + ((uri.length : ℤ) - 1))
      | none => headerText uri lines
    else .error .bounds

variable {r : Counted}

theorem hostUrl_spec {k : ℕ} (h : line.length < lineLen)
    (hk : indexOf (ascii "host: ") (textOf line) = some k) (huri : uri.length < buffLen) :
    hostUrl (held (lower line)) (k + 6) (held uri) uri.length =
      .ok (held (word ((lower line).drop (k + 6)) ++ uri),
        ((word ((lower line).drop (k + 6))).length : ℤ) + ((uri.length : ℤ) - 1)) := by
  have hin : k + 6 ≤ line.length := found_in_line hk (by decide)
  have hcopy := copyHost_spec (show (lower line).length < lineLen by simpa using h)
    (show k + 6 ≤ (lower line).length by simpa using hin)
  have hword := word_length_le ((lower line).drop (k + 6))
  rw [length_drop, length_lower] at hword
  generalize word ((lower line).drop (k + 6)) = host at *
  have hfit : host.length + uri.length < urlLen := by
    simp only [lineLen] at h
    simp only [buffLen] at huri
    simp only [urlLen]
    omega
  have hend : Function.update (held (host ++ uri)) (host.length + uri.length) 0 =
      held (host ++ uri) := by
    rw [← length_append]
    exact update_held_zero _
  rw [hostUrl, hcopy]
  simp only [ok_bind, copyBuff_append huri.le hfit.le, write_of_lt _ _ hfit, hend, pure_eq_ok]

/-- The loop over the header lines, by induction on its rounds. -/
theorem hostLoop_spec (huri : uri.length < buffLen) {n : ℕ} {packet : List Byte}
    (hn : packet.length ≤ n) :
    hostLoop (held uri) uri.length n packet packet.length =
      (headerText uri (headerLines n packet)).map cellsOf := by
  induction n generalizing packet with
  | zero =>
    rw [hostLoop, if_neg (by omega), headerLines, headerText, pure_eq_ok]
    rfl
  | succ n ih =>
    by_cases hmore : 6 < packet.length
    · rw [hostLoop, if_pos hmore, headerLines, if_pos hmore, headerText]
      by_cases hline : (lineOf packet).length < lineLen
      · have hspan : 0 < span packet := span_pos (ne_nil_of_length_pos (by omega))
        have hrest : (afterLine packet).length = packet.length - span packet := length_drop
        rw [getOneLine_spec packet hline, if_pos hline]
        simp only [ok_bind, lower_line hline, strstr_line _ hline, hostOf]
        cases hfound : indexOf (ascii "host: ") (textOf (lineOf packet)) with
        | some k => exact hostUrl_spec hline hfound huri
        | none =>
          have hless : (afterLine packet).length ≤ n := by omega
          simp only [Option.map_none]
          rw [← hrest]
          exact ih hless
      · rw [getOneLine_long packet (not_lt.mp hline), if_neg hline, error_bind]
        rfl
    · rw [hostLoop, if_neg hmore, headerLines, if_neg hmore, headerText, pure_eq_ok]
      rfl

def proxyText (uri : List Byte) : Checked Counted :=
  if uri.length + 7 ≤ buffLen then .ok (uri.drop 7, (uri.length : ℤ)) else .error .bounds

def searchedText (uri : List Byte) (lines : List (List Byte)) : Checked Counted :=
  if ascii "http://" <:+: uri then proxyText uri else headerText uri lines

theorem proxyUrl_spec (huri : uri.length < buffLen) :
    proxyUrl (held uri) uri.length = (proxyText uri).map cellsOf := by
  have hfit : uri.length < urlLen := huri.trans (by decide)
  by_cases hlong : uri.length + 7 ≤ buffLen
  · rw [proxyText, if_pos hlong, proxyUrl, copyBuff_spec _ _ (by omega) (by omega), ok_bind,
      write_of_lt _ _ hfit, ok_bind, pure_eq_ok]
    change Except.ok _ = Except.ok (held (uri.drop 7), (uri.length : ℤ))
    congr 2
    funext j
    rw [held_drop]
    by_cases hj : j = uri.length
    · rw [hj, Function.update_self, held_of_ge (by omega)]
    · rw [Function.update_of_ne hj]
      by_cases hlt : j < uri.length
      · rw [if_pos (by omega), Nat.sub_zero]
      · rw [if_neg (by omega), held_of_ge (by omega)]
        rfl
  · rw [proxyText, if_neg hlong, proxyUrl,
      copyBuff_long _ _ (by decide) (by omega) (by omega), error_bind]
    rfl

/-- The needle is looked for if the URL counts as long enough. -/
def searchText (needle : List Byte) (r : Counted) : Checked (Bool × Cells) :=
  if (needle.length : ℤ) ≤ r.2 then
    if needle.length < bmMaxNlen then .ok (decide (lower needle <:+: r.1), held (lower needle))
    else .error .bounds
  else .ok (false, held needle)

/-- A pattern that the rule can hold. -/
structure Needle where
  text : List Byte
  ne_zero : ∀ c ∈ text, c ≠ 0
  length_le : text.length ≤ bmMaxNlen

theorem searchUrl_spec (needle : Needle) (hurl : r.1.length < urlLen) (hclean : ∀ c ∈ r.1, c ≠ 0) :
    searchUrl (held r.1) r.2 (held needle.text) needle.text.length = searchText needle.text r := by
  obtain ⟨needle, hneedle, hlen⟩ := needle
  obtain ⟨url, len⟩ := r
  simp only at hurl hclean ⊢
  by_cases hguard : (needle.length : ℤ) ≤ len
  · rw [searchText, if_pos hguard, searchUrl, if_pos hguard, lowerCells_held hlen le_rfl, ok_bind]
    have hlower := ne_zero_of_mem_lower hneedle
    by_cases hfull : needle.length < bmMaxNlen
    · have hpat : string bmMaxNlen (held (lower needle)) = .ok (lower needle) := by
        rw [string_held (by rw [cut_of_ne_zero hlower, length_lower]; exact hfull),
          cut_of_ne_zero hlower]
      rw [hpat, ok_bind, strstr_held _ hurl, ok_bind, cut_of_ne_zero hclean, if_pos hfull,
        pure_eq_ok]
      congr 2
      rw [Bool.eq_iff_iff, decide_eq_true_eq]
      exact indexOf_isSome_iff
    · rw [string_full hlower (by rw [length_lower]; omega), error_bind, if_neg hfull]
  · rw [searchText, if_neg hguard, searchUrl, if_neg hguard, pure_eq_ok]

theorem headerText_fits (huri : uri.length < buffLen) (hclean : ∀ c ∈ uri, c ≠ 0)
    (h : headerText uri lines = .ok r) : r.1.length < urlLen ∧ ∀ c ∈ r.1, c ≠ 0 := by
  induction lines with
  | nil =>
    obtain rfl := Except.ok.inj h
    exact ⟨by decide, by simp⟩
  | cons line lines ih =>
    rw [headerText] at h
    by_cases hline : line.length < lineLen
    · rw [if_pos hline] at h
      cases hhost : hostOf line with
      | none =>
        rw [hhost] at h
        exact ih h
      | some host =>
        rw [hhost] at h
        obtain rfl := Except.ok.inj h
        obtain ⟨k, -, rfl⟩ := Option.map_eq_some_iff.mp hhost
        have hword := word_length_le ((lower line).drop (k + 6))
        rw [length_drop, length_lower] at hword
        constructor
        · rw [length_append]
          simp only [lineLen] at hline
          simp only [buffLen] at huri
          simp only [urlLen]
          omega
        · intro c hc
          obtain hc | hc := mem_append.mp hc
          · exact ne_zero_of_mem_word hc
          · exact hclean c hc
    · rw [if_neg hline] at h
      exact absurd h (by simp)

theorem searchedText_fits (huri : uri.length < buffLen) (hclean : ∀ c ∈ uri, c ≠ 0)
    (h : searchedText uri lines = .ok r) : r.1.length < urlLen ∧ ∀ c ∈ r.1, c ≠ 0 := by
  rw [searchedText] at h
  split at h
  · rw [proxyText] at h
    split at h
    · obtain rfl := Except.ok.inj h
      constructor
      · have hdrop : (uri.drop 7).length ≤ uri.length := by simp
        exact hdrop.trans_lt (huri.trans (by decide))
      · exact fun c hc => hclean c (mem_of_mem_drop hc)
    · exact absurd h (by simp)
  · exact headerText_fits huri hclean h

theorem uriOf_fits (h : line.length < lineLen) (huri : uriOf line = some uri) :
    uri.length + 1 < buffLen ∧ ∀ c ∈ uri, c ≠ 0 := by
  obtain ⟨k, hk, rfl⟩ := Option.map_eq_some_iff.mp huri
  have hin := found_in_line hk (by decide)
  have hword := word_length_le ((lower line).drop (k + 1))
  rw [length_drop, length_lower] at hword
  refine ⟨?_, fun c hc => ne_zero_of_mem_word hc⟩
  have hslash : (ascii " /").length = 2 := by decide
  simp only [lineLen] at h
  simp only [buffLen]
  omega

/-- `match_URL` after the method was found. -/
theorem matchUri_spec (packet : List Byte) (needle : Needle) (h : line.length < lineLen) :
    matchUri (held (lower line)) packet packet.length (held needle.text) needle.text.length =
      match uriOf line with
      | none => .ok (false, held needle.text)
      | some uri =>
        searchedText uri (headerLines packet.length packet) >>= searchText needle.text := by
  rw [matchUri, strstr_line _ h, ok_bind]
  cases hk : indexOf (ascii " /") (textOf line) with
  | none => simp only [uriOf, hk, Option.map_none, pure_eq_ok]
  | some k =>
    have huri : uriOf line = some (word ((lower line).drop (k + 1))) := by
      rw [uriOf, hk, Option.map_some]
    obtain ⟨hshort, hclean⟩ := uriOf_fits h huri
    have hin : k + 2 ≤ line.length := found_in_line hk (by decide)
    have hcopy := copyUri_spec (show (lower line).length < lineLen by simpa using h)
      (Nat.succ_pos k) (show k + 1 ≤ (lower line).length by rw [length_lower]; omega)
    rw [huri]
    generalize word ((lower line).drop (k + 1)) = uri at *
    have hfit : uri.length < buffLen := by omega
    have hproxy : strstr buffLen (held uri) (ascii "http://") =
        .ok (indexOf (ascii "http://") uri) := by
      rw [strstr_held _ hfit, cut_of_ne_zero hclean]
    have hbranch : findUrl (indexOf (ascii "http://") uri).isSome (held uri) uri.length packet
        packet.length = (searchedText uri (headerLines packet.length packet)).map cellsOf := by
      rw [findUrl, proxyUrl_spec hfit, hostLoop_spec hfit le_rfl, searchedText]
      by_cases hin : ascii "http://" <:+: uri
      · rw [if_pos (indexOf_isSome_iff.mpr hin), if_pos hin]
      · rw [if_neg fun hsome => hin (indexOf_isSome_iff.mp hsome), if_neg hin]
    simp only [hcopy, ok_bind, write_of_lt _ _ hfit, update_held_zero, hproxy, hbranch]
    cases hsearched : searchedText uri (headerLines packet.length packet) with
    | error e => rfl
    | ok r =>
      obtain ⟨hurl, hzero⟩ := searchedText_fits hfit hclean hsearched
      exact searchUrl_spec needle hurl hzero

/-- The result of `match_URL`. -/
def urlResult (packet : List Byte) (needle : List Byte) : Checked (Bool × Cells) :=
  if 16 < packet.length then
    if (lineOf packet).length < lineLen then
      if 12 < span packet ∧ NamesMethod (lineOf packet) then
        match uriOf (lineOf packet) with
        | none => .ok (false, held needle)
        | some uri =>
          searchedText uri (headerLines (afterLine packet).length (afterLine packet)) >>=
            searchText needle
      else .ok (false, held needle)
    else .error .bounds
  else .ok (false, held needle)

/-- `match_URL` returns what `urlResult` says, for every packet. -/
theorem matchUrl_spec (packet : List Byte) (needle : Needle) :
    matchUrl packet (held needle.text) needle.text.length = urlResult packet needle.text := by
  rw [matchUrl, urlResult]
  by_cases hlong : 16 < packet.length
  · rw [if_pos hlong, if_pos hlong]
    by_cases hline : (lineOf packet).length < lineLen
    · have hrest : packet.length - span packet = (afterLine packet).length := length_drop.symm
      rw [getOneLine_spec packet hline, if_pos hline, ok_bind]
      by_cases hspan : 12 < span packet
      · simp only [if_pos hspan, lower_line hline, ok_bind, matchHttpMethod_spec hline]
        by_cases hmethod : NamesMethod (lineOf packet)
        · rw [if_pos (decide_eq_true hmethod), if_pos ⟨hspan, hmethod⟩, hrest]
          exact matchUri_spec (afterLine packet) needle hline
        · rw [if_neg (by simpa using hmethod), if_neg fun h => hmethod h.2, pure_eq_ok]
      · simp only [if_neg hspan, pure_eq_ok]
        rw [if_neg fun h => hspan h.1]
    · rw [getOneLine_long packet (not_lt.mp hline), if_neg hline, error_bind]
  · rw [if_neg hlong, if_neg hlong, pure_eq_ok]

/-- `match_HTTP_REQ` looks for a method in the first line. -/
theorem matchHttpReq_spec (packet : List Byte) :
    matchHttpReq packet =
      if 16 < packet.length then
        if (lineOf packet).length < lineLen then
          .ok (decide (12 < span packet ∧ NamesMethod (lineOf packet)))
        else .error .bounds
      else .ok false := by
  rw [matchHttpReq]
  by_cases hlong : 16 < packet.length
  · rw [if_pos hlong, if_pos hlong]
    by_cases hline : (lineOf packet).length < lineLen
    · rw [getOneLine_spec packet hline, if_pos hline, ok_bind]
      by_cases hspan : 12 < span packet
      · simp only [if_pos hspan, lower_line hline, ok_bind, matchHttpMethod_spec hline]
        simp [hspan]
      · simp only [if_neg hspan, pure_eq_ok]
        simp [hspan]
    · rw [getOneLine_long packet (not_lt.mp hline), if_neg hline, error_bind]
  · rw [if_neg hlong, if_neg hlong, pure_eq_ok]

def headersOf (packet : List Byte) : List (List Byte) :=
  headerLines (afterLine packet).length (afterLine packet)

/-- The lines up to the first one that names the host are shorter than the array. -/
def LinesFit : List (List Byte) → Prop
  | [] => True
  | line :: lines => line.length < lineLen ∧ (hostOf line = none → LinesFit lines)

def namedHost (lines : List (List Byte)) : Option (List Byte) := lines.findSome? hostOf

/-- The URL that is searched, with the length that is kept for it. -/
def hostText (uri : List Byte) : Option (List Byte) → Counted
  | some host => (host ++ uri, (host.length : ℤ) + ((uri.length : ℤ) - 1))
  | none => ([], 0)

theorem headerText_fit (uri : List Byte) (h : LinesFit lines) :
    headerText uri lines = .ok (hostText uri (namedHost lines)) := by
  induction lines with
  | nil => rfl
  | cons line lines ih =>
    rw [headerText, if_pos h.1, namedHost, findSome?_cons]
    cases hhost : hostOf line with
    | some host => rfl
    | none => exact ih (h.2 hhost)

theorem headerText_long (uri : List Byte) (h : ¬ LinesFit lines) :
    headerText uri lines = .error .bounds := by
  induction lines with
  | nil => exact absurd trivial h
  | cons line lines ih =>
    rw [headerText]
    by_cases hline : line.length < lineLen
    · rw [if_pos hline]
      cases hhost : hostOf line with
      | some host => exact absurd ⟨hline, fun hnone => by simp [hhost] at hnone⟩ h
      | none => exact ih fun hfit => h ⟨hline, fun _ => hfit⟩
    · rw [if_neg hline]

/-- Both matchers return: every access was to the segment or inside its array, and every string
that was searched had its end there. -/
def Safe (packet : List Byte) (needle : Needle) : Prop :=
  (∃ r, matchHttpReq packet = .ok r) ∧
    ∃ r, matchUrl packet (held needle.text) needle.text.length = .ok r

/-- The URI of a request that is looked at can be copied, and so can the header lines. -/
def UriFits (packet : List Byte) (needle : Needle) (uri : List Byte) : Prop :=
  if ascii "http://" <:+: uri then uri.length + 7 ≤ buffLen
  else LinesFit (headersOf packet) ∧ (needle.text.length = bmMaxNlen →
    ∀ host ∈ namedHost (headersOf packet), host.length + uri.length ≤ bmMaxNlen)

/-- The request line is shorter than its array, and if it is one of a request, what is copied
of the request is short enough. -/
def Fits (packet : List Byte) (needle : Needle) : Prop :=
  16 < packet.length → (lineOf packet).length < lineLen ∧
    (12 < span packet → NamesMethod (lineOf packet) →
      ∀ uri ∈ uriOf (lineOf packet), UriFits packet needle uri)

theorem searchText_eq_iff (needle : List Byte) (r : Counted) (b : Bool) :
    (∃ cells, searchText needle r = .ok (b, cells)) ↔
      ((needle.length : ℤ) ≤ r.2 → needle.length < bmMaxNlen) ∧
        b = decide ((needle.length : ℤ) ≤ r.2 ∧ lower needle <:+: r.1) := by
  rw [searchText]
  by_cases hlen : (needle.length : ℤ) ≤ r.2
  · by_cases hfull : needle.length < bmMaxNlen
    · simp [hlen, hfull, eq_comm]
    · simp [hlen, hfull]
  · simp [hlen, eq_comm]

theorem searchText_ok_iff (needle : List Byte) (r : Counted) :
    (∃ x, searchText needle r = .ok x) ↔
      ((needle.length : ℤ) ≤ r.2 → needle.length < bmMaxNlen) := by
  constructor
  · rintro ⟨⟨b, cells⟩, h⟩
    exact ((searchText_eq_iff needle r b).mp ⟨cells, h⟩).1
  · intro h
    obtain ⟨cells, hfound⟩ := (searchText_eq_iff needle r _).mpr ⟨h, rfl⟩
    exact ⟨_, hfound⟩

theorem searched_ok_iff {packet : List Byte} (needle : Needle) (huri : uri.length < buffLen) :
    (∃ x, (searchedText uri (headersOf packet) >>= searchText needle.text) = .ok x) ↔
      UriFits packet needle uri := by
  have hmax := needle.length_le
  rw [UriFits, searchedText]
  by_cases hproxy : ascii "http://" <:+: uri
  · rw [if_pos hproxy, if_pos hproxy, proxyText]
    by_cases hshort : uri.length + 7 ≤ buffLen
    · rw [if_pos hshort, ok_bind, searchText_ok_iff]
      simp only [buffLen] at hshort
      simp only [bmMaxNlen, buffLen] at *
      omega
    · rw [if_neg hshort]
      simp [hshort]
  · rw [if_neg hproxy, if_neg hproxy]
    by_cases hlines : LinesFit (headersOf packet)
    · rw [headerText_fit uri hlines, ok_bind, searchText_ok_iff]
      cases hhost : namedHost (headersOf packet) with
      | none =>
        constructor
        · exact fun _ => ⟨hlines, fun _ host hmem => absurd hmem (by simp)⟩
        · intro _ hle
          simp only [hostText, bmMaxNlen] at *
          omega
      | some host =>
        simp only [hostText, bmMaxNlen, Option.mem_some_iff, forall_eq', hlines, true_and] at *
        omega
    · rw [headerText_long uri hlines]
      simp [hlines]

/-- Both matchers stay inside the segment and their arrays exactly on the segments that fit. -/
theorem matchers_safe_iff (packet : List Byte) (needle : Needle) :
    Safe packet needle ↔ Fits packet needle := by
  rw [Safe, Fits, matchHttpReq_spec, matchUrl_spec, urlResult]
  by_cases hlong : 16 < packet.length
  · by_cases hline : (lineOf packet).length < lineLen
    · simp only [hlong, hline, if_true, true_and, true_implies, Except.ok.injEq, exists_eq']
      by_cases hrequest : 12 < span packet ∧ NamesMethod (lineOf packet)
      · rw [if_pos hrequest]
        cases huri : uriOf (lineOf packet) with
        | none => simp
        | some uri =>
          obtain ⟨hshort, -⟩ := uriOf_fits hline huri
          simp only [hrequest, true_implies, Option.mem_some_iff, forall_eq']
          exact searched_ok_iff needle (by omega)
      · rw [if_neg hrequest]
        exact ⟨fun _ hspan hmethod => absurd ⟨hspan, hmethod⟩ hrequest, fun _ => ⟨_, rfl⟩⟩
    · simp [hlong, hline]
  · simp [hlong]

def shortNeedle : Needle where
  text := ascii "x"
  ne_zero c hc := by
    obtain rfl : c = 'x'.toUInt8 := List.mem_singleton.mp hc
    decide
  length_le := by decide

def longRequest : List Byte := ascii "GET /" ++ List.replicate 300 0x61

/-- The end mark of the line is written behind the array. -/
theorem longRequest_not_safe :
    matchHttpReq longRequest = .error .bounds ∧ ¬ Safe longRequest shortNeedle := by
  have hlong : matchHttpReq longRequest = .error .bounds := by
    rw [matchHttpReq_spec, if_pos (by decide +kernel), if_neg (by decide +kernel)]
  refine ⟨hlong, ?_⟩
  rintro ⟨⟨r, hr⟩, -⟩
  rw [hlong] at hr
  exact absurd hr (by simp)

end Wbr1310.IptString
