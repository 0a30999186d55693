import Wbr1310.IptString.Lines
import Wbr1310.IptString.Sublinear
import Wbr1310.Rg.BlockingChain

/-!
# The filter for domains

A rule with `--dns` looks for the name of a domain, as it stands in a question of DNS, anywhere in
the packet. It is the search of `--string`: the bytes are compared as they are. This file says which
questions a rule applies to.
-/

namespace Wbr1310.Rg

open Lib Buffer BoyerMoore IptString List

def IsLdh (c : Byte) : Prop :=
  (0x41 ≤ c ∧ c ≤ 0x5a) ∨ (0x61 ≤ c ∧ c ≤ 0x7a) ∨ (0x30 ≤ c ∧ c ≤ 0x39) ∨ c = 0x2d

instance : DecidablePred IsLdh := fun _ => inferInstanceAs (Decidable (_ ∨ _))

/-- A part of a host name, between dots. -/
structure IsLabel (label : List Byte) : Prop where
  nonempty : label ≠ []
  short : label.length ≤ 63
  bytes : ∀ c ∈ label, IsLdh c

instance (label : List Byte) : Decidable (IsLabel label) :=
  decidable_of_iff (label ≠ [] ∧ label.length ≤ 63 ∧ ∀ c ∈ label, IsLdh c)
    ⟨fun h => ⟨h.1, h.2.1, h.2.2⟩, fun h => ⟨h.nonempty, h.short, h.bytes⟩⟩

def dotted (labels : List (List Byte)) : List Byte := [0x2e].intercalate labels

/-- A domain with the limits of the DNS. -/
structure Domain where
  labels : List (List Byte)
  nonempty : labels ≠ []
  label : ∀ l ∈ labels, IsLabel l
  short : (dotted labels).length ≤ 253

/-- The labels of a name with their lengths, as they stand in a question. -/
def wire (labels : List (List Byte)) : List Byte := labels.flatMap dnsLabel

/-- The argument of `--dns`. -/
def Domain.text (d : Domain) : List Byte := dotted d.labels

/-- A packet of UDP with a question for a domain or a subdomain of it, where letters may stand in
any case: the headers of UDP and DNS, the labels in front of the domain, those of the domain, and
what follows the name. The length is that of the whole without the header of IP. -/
structure DnsQuery (d : Domain) where
  head : List Byte
  head_length : head.length = 20
  front : List (List Byte)
  front_label : ∀ l ∈ front, l ≠ [] ∧ l.length ≤ 63
  name : List (List Byte)
  name_eq : name.map lower = d.labels.map lower
  rest : List Byte
  short : (head ++ wire front ++ wire name ++ 0 :: rest).length < 1024

namespace DnsQuery

variable {d : Domain} (q : DnsQuery d)

def payload : List Byte := q.head ++ wire q.front ++ wire q.name ++ 0 :: q.rest

def nameEnd : ℕ := (q.head ++ wire q.front).length + (wire q.name).length - 1

end DnsQuery

theorem IsLdh.low {c : Byte} (h : IsLdh c) : c ≠ 0 ∧ c < 0x80 := by
  simp only [IsLdh, UInt8.le_iff_toNat_le, UInt8.lt_iff_toNat_lt, ← UInt8.toNat_inj, ne_eq] at h ⊢
  simp only [UInt8.reduceToNat] at h ⊢
  omega

theorem IsLdh.ne {c : Byte} (h : IsLdh c) : c ≠ 0x2e ∧ c ≠ blank ∧ c ≠ 0x21 := by
  simp only [IsLdh, blank, UInt8.le_iff_toNat_le, ← UInt8.toNat_inj, ne_eq] at h ⊢
  simp only [UInt8.reduceToNat] at h ⊢
  omega

theorem dnsLabels_append {l : List Byte} (hl : ∀ c ∈ l, c ≠ 0x2e) (label s : List Byte) :
    dnsLabels label (l ++ s) = dnsLabels (label ++ l) s := by
  induction l generalizing label with
  | nil => rw [nil_append, append_nil]
  | cons c l ih =>
    rw [cons_append, dnsLabels, if_neg (hl c mem_cons_self),
      ih (fun c hc => hl c (mem_cons_of_mem _ hc)), append_assoc,
      singleton_append]

variable {labels : List (List Byte)}

theorem dnsLabels_dotted (hne : labels ≠ []) (hl : ∀ l ∈ labels, IsLabel l) :
    dnsLabels [] (dotted labels) = wire labels := by
  induction labels with
  | nil => exact absurd rfl hne
  | cons l labels ih =>
    obtain ⟨hfirst, hrest⟩ := forall_mem_cons.mp hl
    have hdots : ∀ c ∈ l, c ≠ 0x2e := fun c hc => ((hfirst.bytes c hc).ne).1
    cases labels with
    | nil =>
      have hone : dotted [l] = l ++ [] := by simp [dotted]
      rw [hone, dnsLabels_append hdots, nil_append, dnsLabels]
      simp [wire]
    | cons l' labels =>
      have hcons : dotted (l :: l' :: labels) = l ++ 0x2e :: dotted (l' :: labels) := by
        simp [dotted, intercalate_cons_cons]
      rw [hcons, dnsLabels_append hdots, nil_append, dnsLabels, if_pos rfl,
        ih (by simp) hrest]
      rfl

theorem length_dotted (hne : labels ≠ []) :
    (wire labels).length = (dotted labels).length + 1 := by
  induction labels with
  | nil => exact absurd rfl hne
  | cons l labels ih =>
    cases labels with
    | nil => simp [wire, dotted, dnsLabel]
    | cons l' labels =>
      have hrest := ih (by simp)
      have hwire : wire (l :: l' :: labels) = dnsLabel l ++ wire (l' :: labels) := rfl
      have hcons : dotted (l :: l' :: labels) = l ++ 0x2e :: dotted (l' :: labels) := by
        simp [dotted, intercalate_cons_cons]
      rw [hwire, hcons, length_append, length_append, length_cons, hrest,
        dnsLabel, length_cons]
      omega

theorem wire_low (hl : ∀ l ∈ labels, IsLabel l) :
    ∀ c ∈ wire labels, c ≠ 0 ∧ c < 0x80 := by
  intro c hc
  obtain ⟨l, hmem, hc⟩ := mem_flatMap.mp hc
  have hlabel := hl l hmem
  obtain rfl | hc := mem_cons.mp hc
  · have hpos := length_pos_iff.mpr hlabel.nonempty
    have hshort := hlabel.short
    have hmod : (UInt8.ofNat l.length).toNat = l.length := by
      rw [UInt8.toNat_ofNat']
      omega
    simp only [UInt8.lt_iff_toNat_lt, ← UInt8.toNat_inj, ne_eq, hmod, UInt8.reduceToNat]
    omega
  · exact (hlabel.bytes c hc).low

namespace Domain

variable (d : Domain)

theorem lowNeedle : LowNeedle (wire d.labels) := by
  have hlength := length_dotted d.nonempty
  have hshort := d.short
  refine ⟨by omega, ?_, wire_low d.label⟩
  simp only [bmMaxNlen]
  omega

theorem text_head : ∃ c s, d.text = c :: s ∧ IsLdh c := by
  have hne := d.nonempty
  have hlabel := d.label
  rw [text]
  generalize d.labels = labels at hne hlabel
  cases labels with
  | nil => exact absurd rfl hne
  | cons l labels =>
    have hfirst := hlabel l mem_cons_self
    obtain ⟨c, l, rfl⟩ := exists_cons_of_ne_nil hfirst.nonempty
    refine ⟨c, ?_⟩
    cases labels with
    | nil => exact ⟨l, by simp [dotted], hfirst.bytes c mem_cons_self⟩
    | cons l' labels =>
      exact ⟨l ++ 0x2e :: dotted (l' :: labels), by simp [dotted, intercalate_cons_cons],
        hfirst.bytes c mem_cons_self⟩

theorem parse_dns : (StringOption.dns d.text).parse = some ⟨wire d.labels, false, .genString⟩ := by
  obtain ⟨c, s, htext, hc⟩ := d.text_head
  have hargument : argument d.text = some d.text := by
    refine if_neg (not_or.mpr ⟨?_, ?_⟩)
    · rw [htext]
      exact cons_ne_nil c s
    · rw [htext]
      intro hmark
      exact hc.ne.2.2 (cons.inj hmark).1
  have hblanks : d.text.dropWhile (· = blank) = d.text := by
    rw [htext, dropWhile_cons_of_neg (by simpa using hc.ne.2.1)]
  have hshort : ¬ bmMaxNlen ≤ d.text.length := by
    have := d.short
    rw [text]
    simp only [bmMaxNlen]
    omega
  have hstring : parseDnsString d.text = some (wire d.labels) := by
    rw [parseDnsString, if_neg hshort, hblanks, text, dnsLabels_dotted d.nonempty d.label,
      cut_of_ne_zero fun c hc => (wire_low d.label c hc).1]
  rw [StringOption.parse, hargument, Option.bind_some, hstring, Option.map_some]

end Domain

theorem matchSkb_genString {w payload : List Byte} (hlen : w.length ≤ payload.length)
    (hlinear : (searchLinear w payload).isSome)
    (hsublinear : iptStringHaystackThresh < payload.length → iptStringNeedleThresh < w.length →
      searchSublinear (held w) w.length payload = .ok true) :
    matchSkb ⟨w, false, .genString⟩ payload = .ok true := by
  simp only [matchSkb, if_neg (Nat.not_lt.mpr hlen)]
  split
  · next hlong => rw [hsublinear hlong.1 hlong.2.1, ok_bind, Bool.xor_false, pure_eq_ok]
  · rw [hlinear, pure_eq_ok, ok_bind, Bool.xor_false, pure_eq_ok]

/-- A rule for a domain applies to every question for it, and for a subdomain of it, that has the
name as the rule has it, if the linear search is used. If the sublinear one is used, it does so
if the name is regular and no byte above `0x7f` is looked up in front of its end. -/
theorem domainFilter_applies (d : Domain) (q : DnsQuery d) (hcase : q.name = d.labels)
    (hsearch : q.payload.length ≤ iptStringHaystackThresh ∨
      (wire d.labels).length ≤ iptStringNeedleThresh ∨
      Regular (held (wire d.labels)) (wire d.labels).length ∧
        LowBytes (wire d.labels) q.payload q.nameEnd) :
    (StringOption.dns d.text).applies ⟨.udp, q.payload⟩ = .ok true := by
  have hpayload : q.payload = (q.head ++ wire q.front) ++ wire d.labels ++ 0 :: q.rest := by
    rw [DnsQuery.payload, hcase]
  have hlow := d.lowNeedle
  have hpos := hlow.pos
  simp only [StringOption.applies, d.parse_dns]
  apply matchSkb_genString
  · rw [hpayload]
    simp only [length_append]
    omega
  · rw [hpayload]
    exact searchLinear_spec _ _
  · intro hhay hneedle
    obtain hshort | hshort | ⟨hregular, hbytes⟩ := hsearch
    · omega
    · omega
    · have hend : q.nameEnd = (q.head ++ wire q.front).length + (wire d.labels).length - 1 := by
        rw [DnsQuery.nameEnd, hcase]
      rw [hend] at hbytes
      rw [hpayload] at hbytes ⊢
      refine searchSublinear_spec hlow hregular (endsAt_append _ _) ?_ hbytes
      simp only [length_append] at hpos ⊢
      omega

def longDomain : Domain where
  labels := [ascii "www", ascii "tables-are-used", ascii "com"]
  nonempty := by decide
  label := by decide +kernel
  short := by decide +kernel

/-- A question for a host of the domain, with an extension of DNS behind it. -/
def longQuery : DnsQuery longDomain where
  head := [0x30, 0x39, 0, 53, 0, 105, 0, 0, 0x12, 0x34, 1, 0, 0, 1, 0, 0, 0, 0, 0, 1]
  head_length := by decide
  front := [List.replicate 44 0x78]
  front_label := by decide +kernel
  name := longDomain.labels
  name_eq := rfl
  rest := [0, 1, 0, 1, 0, 0, 41, 16, 0, 0, 0, 0, 0, 0, 0]
  short := by decide +kernel

/-- A query for a long name. -/
theorem domainFilter_applies_longQuery :
    iptStringHaystackThresh < longQuery.payload.length ∧
      iptStringNeedleThresh < (wire longDomain.labels).length ∧
      (StringOption.dns longDomain.text).applies ⟨.udp, longQuery.payload⟩ = .ok true := by
  have hregular : Regular (held (wire longDomain.labels)) (wire longDomain.labels).length := by
    decide +kernel
  have hbytes : ∀ c ∈ longQuery.payload, c < 0x80 := by decide +kernel
  have hend : longQuery.nameEnd ≤ longQuery.payload.length := by decide +kernel
  exact ⟨by decide +kernel, by decide +kernel, domainFilter_applies longDomain longQuery rfl
    (.inr (.inr ⟨hregular, lowBytes_of_forall hbytes hend⟩))⟩

def shortDomain : Domain where
  labels := [ascii "kimo", ascii "tw"]
  nonempty := by decide
  label := by decide +kernel
  short := by decide +kernel

def upperQuery : DnsQuery shortDomain where
  head := [0x30, 0x39, 0, 53, 0, 33, 0, 0, 0x12, 0x34, 1, 0, 0, 1, 0, 0, 0, 0, 0, 0]
  head_length := by decide
  front := []
  front_label := by decide
  name := [ascii "KIMO", ascii "TW"]
  name_eq := by decide +kernel
  rest := [0, 1, 0, 1]
  short := by decide +kernel

/-- A domain that repeats itself behind the length of its label. -/
def repeatedDomain : Domain where
  labels := [List.replicate 20 0x61]
  nonempty := by decide
  label := by decide +kernel
  short := by decide +kernel

def repeatedQuery : DnsQuery repeatedDomain where
  head := [0x30, 0x39, 0, 53, 0, 101, 0, 0, 0x12, 0x34, 1, 0, 0, 1, 0, 0, 0, 0, 0, 1]
  head_length := by decide
  front := [List.replicate 43 0x78]
  front_label := by decide +kernel
  name := repeatedDomain.labels
  name_eq := rfl
  rest := [0, 1, 0, 1, 0, 0, 41, 16, 0, 0, 0, 0, 0, 0, 0]
  short := by decide +kernel

/-- The rules do not apply to a name in upper case, and not to a name that the sublinear search
passes over. -/
theorem domainFilter_bypassed :
    (StringOption.dns shortDomain.text).applies ⟨.udp, upperQuery.payload⟩ = .ok false ∧
      repeatedQuery.name = repeatedDomain.labels ∧
      (StringOption.dns repeatedDomain.text).applies ⟨.udp, repeatedQuery.payload⟩ = .ok false := by
  refine ⟨?_, rfl, ?_⟩
  · rw [StringOption.applies, shortDomain.parse_dns]
    decide +kernel
  · rw [StringOption.applies, repeatedDomain.parse_dns]
    decide +kernel

end Wbr1310.Rg
