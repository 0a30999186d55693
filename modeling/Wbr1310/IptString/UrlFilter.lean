import Wbr1310.IptString.Requests

/-!
# What the URL filter finds

`match_URL` searches another text than the URL in three cases: it does not see the URL of a
request for a whole URL at all, it takes a path with "http://" in it for one, and it takes the
host from the first header line that contains "host: ". And where it searches the URL, it does
not find a needle that is the whole of it.
-/

namespace Wbr1310.IptString

open Lib Buffer List

/-- What the code takes for the host: what follows "host: " in the first header line that
contains it. -/
def OriginRequest.seenHost (r : OriginRequest) : List Byte :=
  (namedHost r.before).getD (lower r.host)

/-- The search for the needle ends inside its array: where the needle fills it, the text that is
searched is not longer. -/
def OriginRequest.Ended (r : OriginRequest) (needle : Needle) : Prop :=
  needle.text.length = bmMaxNlen → (r.seenHost ++ r.path).length ≤ bmMaxNlen

/-- A path with "http://" in it hides no place of the needle; otherwise the needle is not the
whole URL, and where a header line before the one of the host contains "host: " too, the needle
is in the URL exactly when it is a part of the URL with that host. -/
def OriginRequest.Clear (r : OriginRequest) (needle : Needle) : Prop :=
  if ascii "http://" <:+: lower r.path then
    Occurs needle (r.host ++ r.path) → lower needle.text <:+: (lower r.path).drop 7
  else
    r.Ended needle ∧
      match namedHost r.before with
      | none => lower needle.text ≠ lower (r.host ++ r.path)
      | some seen => Occurs needle (r.host ++ r.path) ↔
          lower needle.text <:+: seen ++ lower r.path ∧ lower needle.text ≠ seen ++ lower r.path

/-- The request and the needle are such that the filter decides rightly. -/
def Request.Clear (needle : Needle) : Request → Prop
  | .origin r => r.Clear needle
  | .absolute r => ¬ Occurs needle (r.host ++ r.path)

theorem infix_and_lt_iff {α : Type*} {xs ys : List α} :
    xs.length < ys.length ∧ xs <:+: ys ↔ xs <:+: ys ∧ xs ≠ ys := by
  constructor
  · rintro ⟨hlt, hin⟩
    exact ⟨hin, fun he => absurd hlt (by rw [he]; exact lt_irrefl _)⟩
  · rintro ⟨hin, hne⟩
    exact ⟨lt_of_le_of_ne hin.length_le fun he => hne (hin.eq_of_length he), hin⟩

theorem requestLine_length (method : Method) (target : List Byte) (minor : Byte) :
    target.length + 13 ≤ (requestLine method target minor).length := by
  have hname : 3 ≤ method.name.length := by cases method <;> decide
  have hversion : (ascii "HTTP/1.").length = 7 := by decide
  simp only [requestLine, length_append, length_cons, length_nil, hversion]
  omega

theorem hostOf_hostLine {host : List Byte} (h : Solid host) :
    hostOf (hostLine host) = some (lower host) := by
  have hlower : lower (hostLine host) = ascii "host: " ++ lower host := by
    rw [hostLine, lower_append]
    rfl
  rw [hostOf, (hostLine_plain h).textOf, hlower, indexOf_of_prefix (prefix_append _ _),
    Option.map_some]
  have hword : word (lower host ++ []) = lower host := h.word_append rfl
  rw [append_nil] at hword
  exact congrArg some hword

theorem linesFit_append {before : List (List Byte)} (hb : ∀ line ∈ before, line.length < lineLen)
    {line host : List Byte} (hline : line.length < lineLen) (hhost : hostOf line = some host)
    (tail : List (List Byte)) :
    LinesFit (before ++ line :: tail) ∧
      namedHost (before ++ line :: tail) = some ((namedHost before).getD host) := by
  induction before with
  | nil =>
    refine ⟨⟨hline, fun hnone => by simp [hhost] at hnone⟩, ?_⟩
    simp [namedHost, hhost]
  | cons first before ih =>
    obtain ⟨hfit, hnamed⟩ := ih fun l hl => hb l (mem_cons_of_mem first hl)
    refine ⟨⟨hb first mem_cons_self, fun _ => hfit⟩, ?_⟩
    rw [namedHost, cons_append, findSome?_cons, namedHost, findSome?_cons]
    cases hostOf first with
    | some found => rfl
    | none => exact hnamed

section Origin

variable (r : OriginRequest)

theorem OriginRequest.starts_headers :
    Starts (joined r.before ++ (hostLine r.host ++ (crlf ++ r.rest))) :=
  starts_joined r.before_plain r.host _

theorem OriginRequest.line_plain : Plain (requestLine r.method r.path r.minor) :=
  requestLine_plain r.method r.path_solid r.minor_digit

theorem OriginRequest.path_short : r.path.length < 242 := by
  have hline := requestLine_length r.method r.path r.minor
  have hshort := r.line_short
  omega

theorem OriginRequest.headers :
    LinesFit (headersOf r.payload) ∧ namedHost (headersOf r.payload) = some r.seenHost := by
  have hafter : afterLine r.payload = joined r.before ++ (hostLine r.host ++ (crlf ++ r.rest)) :=
    afterLine_append r.line_plain r.starts_headers
  obtain ⟨tail, htail⟩ := headerLines_joined r.before_plain r.host_solid r.rest le_rfl
  have hlines : headersOf r.payload = r.before ++ hostLine r.host :: tail := by
    rw [headersOf, hafter, htail]
  rw [hlines]
  exact linesFit_append (fun line hl => (r.before_short line hl).trans (by decide))
    (r.host_short.trans (by decide)) (hostOf_hostLine r.host_solid) tail

theorem OriginRequest.matchUrl_eq (needle : Needle) :
    matchUrl r.payload (held needle.text) needle.text.length =
      (searchedText (lower r.path) (headersOf r.payload) >>= searchText needle.text) := by
  have hline : lineOf r.payload = requestLine r.method r.path r.minor :=
    lineOf_append r.line_plain _
  have hspan : span r.payload = (requestLine r.method r.path r.minor ++ crlf).length :=
    span_append r.line_plain r.starts_headers
  have hcrlf : crlf.length = 2 := rfl
  have hhost : (ascii "Host: ").length = 6 := by decide
  have hlong := requestLine_length r.method r.path r.minor
  have hpayload : 16 < r.payload.length := by
    simp only [OriginRequest.payload, length_append, hcrlf, hhost]
    omega
  have hrequest : 12 < span r.payload ∧ NamesMethod (lineOf r.payload) := by
    constructor
    · rw [hspan, length_append]
      omega
    · rw [hline]
      exact r.method.named r.line_plain
  have hfit : (lineOf r.payload).length < lineLen := by
    rw [hline]
    exact r.line_short.trans (by decide)
  have huri : uriOf (lineOf r.payload) = some (lower r.path) := by
    rw [hline]
    exact uriOf_origin r.method r.path_solid r.path_slash r.minor_digit
  rw [matchUrl_spec, urlResult, if_pos hpayload, if_pos hfit, if_pos hrequest, huri]
  rfl

theorem OriginRequest.seen_iff (needle : Needle) :
    (match namedHost r.before with
      | none => lower needle.text ≠ lower (r.host ++ r.path)
      | some seen => Occurs needle (r.host ++ r.path) ↔
          lower needle.text <:+: seen ++ lower r.path ∧
            lower needle.text ≠ seen ++ lower r.path) ↔
      (Occurs needle (r.host ++ r.path) ↔ lower needle.text <:+: r.seenHost ++ lower r.path ∧
        lower needle.text ≠ r.seenHost ++ lower r.path) := by
  rw [OriginRequest.seenHost]
  cases namedHost r.before with
  | some seen => exact Iff.rfl
  | none =>
    rw [Occurs, lower_append, Option.getD_none]
    constructor
    · exact fun hne => ⟨fun hin => ⟨hin, hne⟩, fun h => h.1⟩
    · rintro hiff he
      exact (hiff.mp (he ▸ infix_refl _)).2 he

/-- A path with "http://" in it is searched from its eighth character on. -/
theorem OriginRequest.search_proxy_iff (needle : Needle) :
    (∃ cells, (proxyText (lower r.path) >>= searchText needle.text) =
        .ok (decide (Occurs needle (r.host ++ r.path)), cells)) ↔
      (Occurs needle (r.host ++ r.path) → lower needle.text <:+: (lower r.path).drop 7) := by
  have hpath := r.path_short
  have hfit : (lower r.path).length + 7 ≤ buffLen := by
    simp only [length_lower, buffLen]
    omega
  have hpart (h : lower needle.text <:+: (lower r.path).drop 7) :
      Occurs needle (r.host ++ r.path) := by
    rw [Occurs, lower_append]
    exact h.trans ((drop_suffix 7 _).isInfix.trans (suffix_append _ _).isInfix)
  have hcount (h : lower needle.text <:+: (lower r.path).drop 7) :
      needle.text.length ≤ r.path.length := by
    have hle := h.length_le
    simp only [length_lower, length_drop] at hle
    omega
  rw [proxyText, if_pos hfit, ok_bind, searchText_eq_iff, decide_eq_decide]
  simp only [length_lower, Int.ofNat_le]
  constructor
  · rintro ⟨-, hiff⟩ hocc
    exact (hiff.mp hocc).2
  · intro himp
    have hshort : r.path.length < bmMaxNlen := hpath.trans (by decide)
    exact ⟨fun hle => hle.trans_lt hshort, fun hocc => ⟨hcount (himp hocc), himp hocc⟩,
      fun h => hpart h.2⟩

theorem OriginRequest.search_headers_iff (needle : Needle) :
    (∃ cells, (headerText (lower r.path) (headersOf r.payload) >>= searchText needle.text) =
        .ok (decide (Occurs needle (r.host ++ r.path)), cells)) ↔
      r.Ended needle ∧
        (Occurs needle (r.host ++ r.path) ↔ lower needle.text <:+: r.seenHost ++ lower r.path ∧
          lower needle.text ≠ r.seenHost ++ lower r.path) := by
  obtain ⟨hfit, hnamed⟩ := r.headers
  have hmax := needle.length_le
  have hcount : (needle.text.length : ℤ) ≤ r.seenHost.length + ((lower r.path).length - 1) ↔
      (lower needle.text).length < (r.seenHost ++ lower r.path).length := by
    simp only [length_lower, length_append]
    omega
  rw [headerText_fit _ hfit, hnamed, ok_bind, hostText, searchText_eq_iff, decide_eq_decide,
    hcount, infix_and_lt_iff]
  refine and_congr_left fun _ => ?_
  simp only [OriginRequest.Ended, length_lower, length_append, bmMaxNlen] at *
  omega

theorem OriginRequest.findsUrl_iff (needle : Needle) :
    FindsUrl (.origin r) needle ↔ r.Clear needle := by
  change (∃ cells, matchUrl r.payload (held needle.text) needle.text.length =
    .ok (decide (Occurs needle (r.host ++ r.path)), cells)) ↔ _
  rw [r.matchUrl_eq needle, searchedText, OriginRequest.Clear]
  by_cases hproxy : ascii "http://" <:+: lower r.path
  · rw [if_pos hproxy, if_pos hproxy]
    exact r.search_proxy_iff needle
  · rw [if_neg hproxy, if_neg hproxy, r.seen_iff]
    exact r.search_headers_iff needle

end Origin

theorem AbsoluteRequest.matchUrl_eq (r : AbsoluteRequest) (needle : Needle) :
    matchUrl r.payload (held needle.text) needle.text.length = .ok (false, held needle.text) := by
  have hurl : Solid (r.host ++ r.path) := r.host_solid.append r.path_solid
  have hline : lineOf r.payload =
      requestLine r.method (ascii "http://" ++ (r.host ++ r.path)) r.minor :=
    lineOf_append (requestLine_plain r.method (Solid.append (by decide) hurl) r.minor_digit) _
  have hfit : (lineOf r.payload).length < lineLen := by
    rw [hline]
    exact r.line_short.trans (by decide)
  have huri : uriOf (lineOf r.payload) = none := by
    rw [hline]
    exact uriOf_absolute r.method hurl r.minor_digit
  rw [matchUrl_spec, urlResult, if_pos hfit, huri]
  simp only [ite_self]

/-- The filter finds the needle exactly when it occurs in the URL, for every request and every
needle that are clear, and for no other. -/
theorem findsUrl_iff_clear (r : Request) (needle : Needle) :
    FindsUrl r needle ↔ r.Clear needle := by
  cases r with
  | origin r => exact r.findsUrl_iff needle
  | absolute r =>
    change (∃ cells, matchUrl r.payload (held needle.text) needle.text.length =
      .ok (decide (Occurs needle (r.host ++ r.path)), cells)) ↔ _
    rw [r.matchUrl_eq needle, Request.Clear]
    simp

/-- A request for a whole URL, as a browser sends it to a proxy. -/
def proxyRequest : Request := .absolute
  { method := .get, host := ascii "bad.example", path := ascii "/index.html", minor := 0x31,
    rest := ascii "Host: bad.example" ++ (crlf ++ crlf), path_slash := by decide,
    path_solid := by decide, host_solid := by decide, minor_digit := by decide,
    line_short := by decide }

def hostNeedle : Needle where
  text := ascii "bad.example"
  ne_zero c hc := by
    have hplain : Plain (ascii "bad.example") := by decide
    exact (hplain c hc).2
  length_le := by decide

/-- The URL of the request contains the string of the rule, and the filter does not match. -/
theorem proxyRequest_missed :
    Occurs hostNeedle proxyRequest.url ∧
      matchUrl proxyRequest.payload (held hostNeedle.text) hostNeedle.text.length =
        .ok (false, held hostNeedle.text) ∧ ¬ FindsUrl proxyRequest hostNeedle := by
  have hocc : Occurs hostNeedle proxyRequest.url := by decide +kernel
  have hrun : matchUrl proxyRequest.payload (held hostNeedle.text) hostNeedle.text.length =
      .ok (false, held hostNeedle.text) := AbsoluteRequest.matchUrl_eq _ _
  refine ⟨hocc, hrun, ?_⟩
  rintro ⟨cells, hfound⟩
  rw [hrun, decide_eq_true hocc] at hfound
  exact absurd hfound (by simp)

end Wbr1310.IptString
