import Wbr1310.Httpd.HeaderPointers

/-!
# The boundary in the header block

The lines of a header block are taken one by one. A block with one line Content-Type leaves a
record that points to the boundary in that line, whatever the other lines are.
-/

namespace Wbr1310.Httpd

open Lib Lib.Bytes Nat

variable {fold f : Bool} {n s sp e l numHeaders : ℕ} {b b' back front boundary : Bytes}
  {st : HeaderState}

theorem getlineFrom_le {q : ℕ} (hs : s ≤ q) (hq : byteAt b q = 10)
    (hnext : byteAt b (q + 1) ≠ 32 ∧ byteAt b (q + 1) ≠ 9)
    (h : getlineFrom fold n b s sp f = some (b', e)) : e ≤ q + 1 := by
  induction n generalizing b s sp f with
  | zero => cases h
  | succ n ih =>
    simp only [getlineFrom] at h
    generalize (if f then sp else s) = sp' at h
    split_ifs at h with hend hwhite hspace
    · obtain ⟨-, rfl⟩ := Prod.mk.inj (Option.some.inj h)
      omega
    all_goals
      have hne : s ≠ q := by
        rintro rfl
        exact hend ⟨hq, .inr (.inr hnext)⟩
    · refine ih (by omega) ?_ ?_ h
      · rwa [byteAt_set_of_ne (by omega)]
      · rwa [byteAt_set_of_ne (by omega)]
    · exact ih (by omega) hq hnext h
    · exact ih (by omega) hq hnext h

theorem firstLine_getline {start : ℕ} (h : firstLine n b start = some (b', l, e)) :
    ∃ b₁, Within start l b b₁ ∧ getline b₁ l false = some (b', e) := by
  induction n generalizing b start with
  | zero => cases h
  | succ n ih =>
    rw [firstLine] at h
    split at h
    · cases h
    · next b₁ e₁ hline =>
      split at h
      · obtain ⟨b₂, hwithin, hget⟩ := ih h
        obtain ⟨hlt, -, hwithin', -⟩ := getline_spec hline
        have hle := (firstLine_spec h).1
        exact ⟨b₂, (hwithin'.mono le_rfl hle).trans (hwithin.mono hlt.le le_rfl), hget⟩
      · obtain ⟨rfl, rfl, rfl⟩ := h
        exact ⟨b, .refl _ _ b, hline⟩

theorem getlineFrom_end (hfeed : byteAt b s = 10)
    (hend : n = 0 ∨ fold = false ∨ (byteAt b (s + 1) ≠ 32 ∧ byteAt b (s + 1) ≠ 9)) :
    getlineFrom fold (n + 1) b s sp f = some (b.set (if f then sp else s) 0, s + 1) :=
  if_pos ⟨hfeed, hend⟩

theorem getlineFrom_return (hreturn : byteAt b s = 13) :
    getlineFrom fold (n + 1) b s sp f =
      getlineFrom fold n (b.set s 32) (s + 1) (if f then sp else s) true := by
  have hne : byteAt b s ≠ 10 := by
    rw [hreturn]
    decide
  rw [getlineFrom, if_neg fun h => hne h.1, if_pos (.inr (.inl hreturn))]

/-- A line without line feeds, returns and tabs that does not end with a space is left as it is; a
zero replaces the return behind it. -/
theorem getlineFrom_plain {line : Bytes} (hback : back.head? ≠ some 32 ∧ back.head? ≠ some 9)
    (front : Bytes) (sp : ℕ) (hplain : ∀ c ∈ line, c ≠ 10 ∧ c ≠ 13 ∧ c ≠ 9)
    (hend : line.getLast? ≠ some 32) (hf : line = [] → f = false) :
    getlineFrom true (line.length + (back.length + 2)) (front ++ (line ++ 13 :: 10 :: back))
        front.length sp f =
      some (front ++ (line ++ 0 :: 10 :: back), front.length + line.length + 2) := by
  induction line generalizing front f sp with
  | nil =>
    obtain rfl := hf rfl
    have hset : (front ++ 13 :: 10 :: back).set front.length 32 =
        (front ++ [32]) ++ 10 :: back := by
      rw [set_append, List.append_assoc, List.singleton_append]
    have hfeed : byteAt ((front ++ [32]) ++ 10 :: back) (front.length + 1) = 10 := by
      have hat := byteAt_append (front ++ [32]) back 10
      rwa [List.length_append] at hat
    have hnext : back.length = 0 ∨ true = false ∨
        (byteAt ((front ++ [32]) ++ 10 :: back) (front.length + 1 + 1) ≠ 32 ∧
          byteAt ((front ++ [32]) ++ 10 :: back) (front.length + 1 + 1) ≠ 9) := by
      cases back with
      | nil => exact .inl rfl
      | cons d back =>
        have hat : byteAt ((front ++ [32]) ++ 10 :: d :: back) (front.length + 1 + 1) = d := by
          have hlast := byteAt_append ((front ++ [32]) ++ [10]) back d
          rwa [List.append_assoc _ [10], List.singleton_append, List.length_append,
            List.length_append] at hlast
        refine .inr (.inr ?_)
        rw [hat]
        exact ⟨fun h => hback.1 (congrArg some h), fun h => hback.2 (congrArg some h)⟩
    rw [List.length_nil, Nat.zero_add, List.nil_append, List.nil_append,
      getlineFrom_return (byteAt_append front _ 13), hset, getlineFrom_end hfeed hnext]
    simp only [Bool.false_eq_true, if_false, if_true, List.append_assoc, List.singleton_append,
      set_append, add_zero]
  | cons c line ih =>
    obtain ⟨hc, hline⟩ := List.forall_mem_cons.mp hplain
    have hat : byteAt (front ++ (c :: line ++ 13 :: 10 :: back)) front.length = c :=
      byteAt_append front _ c
    have hmove : front ++ (c :: line ++ 13 :: 10 :: back) =
        (front ++ [c]) ++ (line ++ 13 :: 10 :: back) := by simp
    have hend' : line.getLast? ≠ some 32 := by
      cases line with
      | nil => nofun
      | cons d line => rwa [List.getLast?_cons_cons] at hend
    have hrest : ∀ sp f, (line = [] → f = false) →
        getlineFrom true (line.length + (back.length + 2))
            (front ++ (c :: line ++ 13 :: 10 :: back)) (front.length + 1) sp f =
          some (front ++ (c :: line ++ 0 :: 10 :: back), front.length + (line.length + 1) + 2) := by
      intro sp f hf
      have hrun := ih (front ++ [c]) sp hline hend' hf
      rw [← hmove, List.length_append] at hrun
      simp only [List.length_cons, List.length_nil, List.append_assoc, List.singleton_append]
        at hrun
      rw [show front.length + (line.length + 1) = front.length + 1 + line.length by omega]
      exact hrun
    rw [List.length_cons, Nat.add_right_comm, getlineFrom, hat,
      if_neg fun h => hc.1 h.1, if_neg (by simp only [hc, or_self, not_false_eq_true])]
    split
    · next hspace =>
      refine hrest _ _ fun hnil => ?_
      rw [hnil, hspace] at hend
      exact absurd rfl hend
    · exact hrest _ _ fun _ => rfl

def typeLine (boundary : Bytes) : Bytes :=
  contentTypeName ++ 58 :: 32 :: (multipartFormData ++ 32 :: (boundaryIs ++ boundary))

theorem typeLine_eq (boundary : Bytes) : typeLine boundary =
    (contentTypeName ++ 58 :: 32 :: (multipartFormData ++ 32 :: boundaryIs)) ++ boundary := by
  rw [typeLine]
  simp only [List.append_assoc, List.cons_append]

/-- The value of the line, cut in two. -/
theorem contentTypeLine_boundary (st : HeaderState) (hb : 0 ∉ boundary)
    (hst : st.block = front ++ (multipartFormData ++ 32 ::
      (boundaryIs ++ (boundary ++ 0 :: back)))) :
    (contentTypeLine front.length st).fields.multiBoundary = some (front.length + 30) ∧
      (contentTypeLine front.length st).block =
        front ++ (multipartFormData ++ 0 :: (boundaryIs ++ (boundary ++ 0 :: back))) := by
  have hvalue : str st.block front.length =
      multipartFormData ++ 32 :: (boundaryIs ++ boundary) := by
    rw [hst]
    refine str_append front back (s := multipartFormData ++ 32 :: (boundaryIs ++ boundary)) ?_
    simp only [List.mem_append, List.mem_cons, not_or]
    exact ⟨by decide, by decide, by decide, hb⟩
  have hset : st.block.set (front.length + 20) 0 =
      front ++ (multipartFormData ++ 0 :: (boundaryIs ++ (boundary ++ 0 :: back))) := by
    rw [hst]
    exact set_append_append front _ 32 0 rfl
  have hrest : str (st.block.set (front.length + 20) 0) (front.length + 20 + 1) =
      boundaryIs ++ boundary := by
    rw [hset]
    refine str_append_append front back (s := boundaryIs ++ boundary)
      (show (multipartFormData ++ [0]).length = 21 from rfl) ?_
    rw [List.mem_append, not_or]
    exact ⟨by decide, hb⟩
  have hbegins : BeginsIgnoreCase multipartFormData (str st.block front.length) := by
    rw [hvalue]
    exact (List.prefix_append _ _).map toLower
  have hbegins' : BeginsIgnoreCase boundaryIs
      (str (st.block.set (front.length + 20) 0) (front.length + 20 + 1)) := by
    rw [hrest]
    exact (List.prefix_append _ _).map toLower
  rw [contentTypeLine, if_pos hbegins]
  dsimp only
  rw [if_pos hbegins']
  exact ⟨rfl, hset⟩

/-- The line makes the record point to the boundary. -/
theorem headerLine_typeLine {st' : HeaderState} (hb : 0 ∉ boundary)
    (hst : st.block = front ++ (typeLine boundary ++ 0 :: back))
    (h : headerLine numHeaders front.length st = .ok st') :
    st'.fields.multiBoundary = some (front.length + 44) ∧
      str st'.block (front.length + 44) = boundary ∧
      byteAt st'.block (front.length + (typeLine boundary).length) = 0 := by
  have hcolon : strchr st.block front.length 58 = some (front.length + 12) := by
    rw [hst]
    refine strchr_append front back (s := contentTypeName)
      (t := 32 :: (multipartFormData ++ 32 :: (boundaryIs ++ boundary))) ?_ (by decide)
    simp only [List.mem_append, List.mem_cons, not_or]
    exact ⟨by decide, by decide, by decide, by decide, by decide, by decide, hb⟩
  -- the name ends, and its value begins behind the space
  have hset : st.block.set (front.length + 12) 0 = front ++ (contentTypeName ++ 0 :: 32 ::
      (multipartFormData ++ 32 :: (boundaryIs ++ (boundary ++ 0 :: back)))) := by
    rw [hst]
    exact set_append_append front _ 58 0 (show contentTypeName.length = 12 from rfl)
  have hskip : skip (st.block.set (front.length + 12) 0) (front.length + 12 + 1) 32 =
      front.length + 14 := by
    rw [skip, hset, show front.length + 12 + 1 = front.length + 13 from rfl, ← List.drop_drop,
      List.drop_left]
    rfl
  have hfirst : byteAt (st.block.set (front.length + 12) 0) (front.length + 14) ≠ 0 := by
    have hat : byteAt (st.block.set (front.length + 12) 0) (front.length + 14) = 109 := by
      rw [hset]
      exact byteAt_append_append front _ 109
        (show (contentTypeName ++ [0, 32]).length = 14 from rfl)
    rw [hat]
    decide
  have hname : str (st.block.set (front.length + 12) 0) front.length = contentTypeName := by
    rw [hset]
    exact str_append _ _ (by decide)
  rw [headerLine, hcolon] at h
  dsimp only at h
  rw [hskip, if_neg hfirst, namedLine] at h
  dsimp only at h
  rw [hname, if_neg (by decide), if_neg (by decide), if_neg (by decide),
    if_pos (show EqIgnoreCase contentTypeName contentTypeName from rfl)] at h
  obtain rfl := Except.ok.inj h
  have htype := contentTypeLine_boundary { st with block := st.block.set (front.length + 12) 0 } hb
    (hset.trans (List.append_assoc front (contentTypeName ++ [0, 32]) _).symm)
  rw [List.append_assoc, List.length_append] at htype
  have hlen : (contentTypeName ++ 0 :: 32 :: (multipartFormData ++ 0 :: boundaryIs)).length = 44 :=
      rfl
  refine ⟨htype.1, ?_, ?_⟩
  · exact (congrArg (str · _) htype.2).trans (str_append_append front back hlen hb)
  · have hend : (contentTypeName ++ 0 :: 32 :: (multipartFormData ++ 0 :: boundaryIs) ++
        boundary).length = (typeLine boundary).length := by
      rw [typeLine_eq, List.length_append, hlen, List.length_append]
      rfl
    refine (congrArg (byteAt · _) htype.2).trans ?_
    exact (congrArg (byteAt · _) (by simp)).trans (byteAt_append_append front back 0 hend)

/-- A header block with one line Content-Type, which stands behind the request line, gives a
boundary, and is not continued on the next line. -/
structure OneBoundary (head front boundary back : Bytes) : Prop where
  eq : head = front ++ (typeLine boundary ++ 13 :: 10 :: back)
  request : requestStart head < front.length
  feed : byteAt head (front.length - 1) = 10
  plain : ∀ c ∈ boundary, c ≠ 0 ∧ c ≠ 9 ∧ c ≠ 10 ∧ c ≠ 13 ∧ c ≠ 32
  back : back.head? ≠ some 32 ∧ back.head? ≠ some 9
  only : ∀ i < head.length, i ≠ front.length → byteAt head (i - 1) = 10 →
    ¬ BeginsIgnoreCase (contentTypeName ++ [58]) (head.drop i)

/-- While the lines are taken: the record points to the boundary from its line on. -/
structure Seen (head front boundary : Bytes) (st : HeaderState) : Prop where
  feed : byteAt head (st.start - 1) = 10
  before : st.start ≤ front.length → st.fields.multiBoundary = none
  after : front.length < st.start → ∃ p z, st.fields.multiBoundary = some p ∧ p ≤ z ∧
    z < st.start ∧ byteAt st.block z = 0 ∧ str st.block p = boundary

section Lines

variable {numHeaders e : ℕ} {head front boundary back b : Bytes} {st st' : HeaderState}
  (h : OneBoundary head front boundary back)
include h

omit h in
theorem letters_of_name {name : Bytes} (hname : EqIgnoreCase name contentTypeName) :
    ∀ c ∈ name ++ [58], c ≠ 0 ∧ c ≠ 32 := by
  intro c hc
  rcases List.mem_append.mp hc with hmem | hmem
  · have hlower : toLower c ∈ lower contentTypeName := hname ▸ List.mem_map_of_mem hmem
    constructor
    · rintro rfl
      exact absurd hlower (by decide)
    · rintro rfl
      exact absurd hlower (by decide)
  · obtain rfl := List.mem_singleton.mp hmem
    decide

theorem OneBoundary.other (ht : Taken head st) (hs : Seen head front boundary st)
    (hline : getline st.block st.start true = some (b, e))
    (hst : headerLine numHeaders st.start { st with block := b, start := e } = .ok st')
    (hne : st.start ≠ front.length) : st'.fields.multiBoundary = st.fields.multiBoundary := by
  obtain ⟨_, -, -, -, hspec⟩ := ht.lineSpec hline hst
  refine hspec.boundary.resolve_right ?_
  rintro ⟨colon, hcolon, hname⟩
  have hprefix := str_set_strchr hcolon
  generalize str (b.set colon 0) st.start = name at hname hprefix
  obtain ⟨-, -, hwithin, -, -, hkept⟩ := getline_spec hline
  have hlen : (name ++ [58]).length ≤ head.length - st.start := by
    have hle := hprefix.length_le
    rwa [List.length_drop, hwithin.length, ht.within.length] at hle
  have hpos : 0 < (name ++ [58]).length := by
    rw [List.length_append]
    exact succ_pos _
  -- the name has no zeros and spaces, so it is that of the block
  have hraw : name ++ [58] <+: head.drop st.start := by
    refine prefix_of_byteAt (by omega) fun i hi => ?_
    have hbyte := byteAt_of_prefix hprefix hi
    obtain ⟨hzero, hspace⟩ := letters_of_name hname _ (List.getElem_mem hi)
    rw [← hbyte] at hzero hspace ⊢
    rw [hkept _ hzero hspace, ht.within.outside _ (.inr (le_add_right _ i))]
  refine h.only st.start (by omega) hne hs.feed ?_
  have hlower : lower (contentTypeName ++ [58]) = lower (name ++ [58]) := by
    rw [lower, lower, List.map_append, List.map_append]
    exact congrArg (· ++ _) hname.symm
  rw [BeginsIgnoreCase, hlower]
  exact hraw.map toLower

theorem OneBoundary.typeLine_plain : ∀ c ∈ typeLine boundary, c ≠ 10 ∧ c ≠ 13 ∧ c ≠ 9 := by
  have hfixed : ∀ c ∈ contentTypeName ++ 58 :: 32 :: (multipartFormData ++ 32 :: boundaryIs),
      c ≠ 10 ∧ c ≠ 13 ∧ c ≠ 9 := by decide +kernel
  intro c hc
  rw [typeLine_eq, List.mem_append] at hc
  rcases hc with hmem | hmem
  · exact hfixed c hmem
  · obtain ⟨-, htab, hfeed, hreturn, -⟩ := h.plain c hmem
    exact ⟨hfeed, hreturn, htab⟩

theorem OneBoundary.typeLine_getLast : (typeLine boundary).getLast? ≠ some 32 := by
  rw [typeLine_eq, List.getLast?_append]
  cases hlast : boundary.getLast? with
  | none => decide
  | some c =>
    have hc := (h.plain c (List.mem_of_getLast? hlast)).2.2.2.2
    exact fun heq => hc (Option.some.inj heq)

/-- The line Content-Type is taken as it is. -/
theorem OneBoundary.line (ht : Taken head st) (hstart : st.start = front.length)
    (hline : getline st.block st.start true = some (b, e)) :
    e = front.length + (typeLine boundary).length + 2 ∧
      ∃ front', front'.length = front.length ∧
        b = front' ++ (typeLine boundary ++ 0 :: 10 :: back) := by
  have hfront : (st.block.take front.length).length = front.length := by
    rw [List.length_take, ht.within.length, h.eq, List.length_append]
    omega
  have hdrop : st.block.drop front.length = typeLine boundary ++ 13 :: 10 :: back := by
    rw [← hstart, ht.within.drop_eq, hstart, h.eq, List.drop_left]
  have hblock : st.block =
      st.block.take front.length ++ (typeLine boundary ++ 13 :: 10 :: back) := by
    rw [← hdrop, List.take_append_drop]
  have hlen : st.block.length - front.length = (typeLine boundary).length + (back.length + 2) := by
    rw [← List.length_drop, hdrop, List.length_append]
    rfl
  have hplain := getlineFrom_plain h.back (st.block.take front.length) (f := false) front.length
    h.typeLine_plain h.typeLine_getLast fun _ => rfl
  rw [getline, hstart, hlen, hblock] at hline
  rw [hfront] at hplain
  obtain ⟨rfl, rfl⟩ := Prod.mk.inj (Option.some.inj (hline.symm.trans hplain))
  exact ⟨rfl, _, hfront, rfl⟩

theorem Seen.line (ht : Taken head st) (hs : Seen head front boundary st)
    (hline : getline st.block st.start true = some (b, e))
    (hst : headerLine numHeaders st.start { st with block := b, start := e } = .ok st') :
    Seen head front boundary st' := by
  obtain ⟨hlt, -, -, -, hfeed, -⟩ := getline_spec hline
  obtain ⟨z₀, -, -, hwithin, hspec⟩ := ht.lineSpec hline hst
  have hstart : st'.start = e := hspec.start
  have hfeed' : byteAt head (st'.start - 1) = 10 := by
    rw [hstart, ← ht.within.outside _ (.inr (by omega))]
    exact hfeed
  rcases lt_trichotomy st.start front.length with hbefore | heq | hafter
  · -- the line ends before Content-Type at the latest
    have hle : e ≤ front.length := by
      have hC : byteAt st.block (front.length - 1 + 1) = 67 := by
        rw [Nat.sub_add_cancel (by omega), ht.within.outside _ (.inr hbefore.le), h.eq]
        exact byteAt_append front _ 67
      have hq := getlineFrom_le (q := front.length - 1) (by omega)
        (by rw [ht.within.outside _ (.inr (by omega))]; exact h.feed)
        (by rw [hC]; decide) hline
      omega
    refine ⟨hfeed', fun _ => ?_, fun hgt => by omega⟩
    rw [h.other ht hs hline hst hbefore.ne]
    exact hs.before hbefore.le
  · obtain ⟨he, front', hfront', rfl⟩ := h.line ht heq hline
    have hzero : 0 ∉ boundary := fun hmem => (h.plain 0 hmem).1 rfl
    rw [heq, ← hfront'] at hst
    obtain ⟨hptr, hstr, hz⟩ := headerLine_typeLine hzero rfl hst
    rw [hfront'] at hptr hstr hz
    have hlen : 44 ≤ (typeLine boundary).length := by
      rw [typeLine_eq, List.length_append]
      exact le_add_right 44 _
    exact ⟨hfeed', fun hle => by omega, fun _ => ⟨_, _, hptr, by omega, by omega, hz, hstr⟩⟩
  · obtain ⟨p, z, hptr, hpz, hz, hzero, hstr⟩ := hs.after hafter
    refine ⟨hfeed', fun hle => by omega, fun _ => ⟨p, z, ?_, hpz, by omega, ?_, ?_⟩⟩
    · rw [h.other ht hs hline hst hafter.ne']
      exact hptr
    · exact hwithin.zero z hzero
    · rw [← hstr]
      exact str_congr hpz hzero fun i _ hi => hwithin.outside i (.inl (by omega))

theorem Seen.lines {n : ℕ} (ht : Taken head st) (hs : Seen head front boundary st)
    (hst : headerLines numHeaders n st = .ok st') : Seen head front boundary st' := by
  refine (headerLines_keeps (J := fun t => Taken head t ∧ Seen head front boundary t) ?_ ⟨ht, hs⟩
    hst).2
  intro t t' b e ⟨ht, hs⟩ hget hline
  exact ⟨(ht.line hget hline).1, hs.line h ht hget hline⟩

end Lines

theorem requestLine_boundary {r : HeaderFields ℕ} (h : requestLine b l = some (b', r)) :
    r.multiBoundary = none := by
  rw [requestLine] at h
  split at h
  · cases h
  dsimp only at h
  split at h
  · cases h
  split at h
  · cases h
  split at h
  · obtain ⟨-, rfl⟩ := Prod.mk.inj (Option.some.inj h)
    rfl
  · obtain ⟨-, rfl⟩ := Prod.mk.inj (Option.some.inj h)
    rfl

theorem Checked.multiBoundary {r : RequestRecord ℕ} (h : Checked st r) :
    r.fields.multiBoundary = st.fields.multiBoundary := by
  have hfields := h.fields
  rw [transferCoding] at hfields
  split at hfields
  · rw [← Except.ok.inj hfields]
  · split at hfields
    · rw [← Except.ok.inj hfields]
    · cases hfields

/-- The record of a request that is accepted points to the boundary in its line Content-Type. -/
theorem OneBoundary.accepted {head block : Bytes} {r : RequestRecord ℕ}
    (h : OneBoundary head front boundary back) (hlast : byteAt head (head.length - 1) = 10)
    (haccepted : acceptedRequest numHeaders head = some (block, r)) :
    ∃ p z, r.fields.multiBoundary = some p ∧ p ≤ z ∧ z < head.length ∧ byteAt block z = 0 ∧
      str block p = boundary := by
  have hpos : 0 < front.length := by
    have hrequest := h.request
    omega
  obtain ⟨-, c, hverdict⟩ := processHeaders_eq hlast haccepted false
  obtain ⟨b, l, st₀, st, hfirst, hrequest, hlines, hcheck, rfl, hend⟩ :=
    processHeaders_steps hverdict
  have htaken := (Taken.first hfirst hrequest).1
  -- the request line ends before Content-Type
  obtain ⟨b₁, hwithin, hline⟩ := firstLine_getline hfirst
  obtain ⟨hlt, -, -, -, hfeed, -⟩ := getline_spec hline
  have hl : l < front.length := by
    have hstart := h.request
    rwa [requestStart, hfirst] at hstart
  have hle : st₀.start ≤ front.length := by
    have hC : byteAt b₁ (front.length - 1 + 1) = 67 := by
      rw [Nat.sub_add_cancel hpos, hwithin.outside _ (.inr hl.le), h.eq]
      exact byteAt_append front _ 67
    have hq := getlineFrom_le (q := front.length - 1) (by omega)
      (by rw [hwithin.outside _ (.inr (by omega))]; exact h.feed) (by rw [hC]; decide) hline
    omega
  have hseen : Seen head front boundary st₀ := by
    refine ⟨?_, fun _ => requestLine_boundary hrequest, fun hgt => by omega⟩
    rw [← hwithin.outside _ (.inr (by omega))]
    exact hfeed
  have hlen : front.length < head.length := by
    rw [h.eq, List.length_append, List.length_append, List.length_cons]
    omega
  obtain ⟨p, z, hptr, hpz, hz, hzero, hstr⟩ := (hseen.lines h htaken hlines).after (by omega)
  exact ⟨p, z, (checkHeaders_ok hcheck).multiBoundary.trans hptr, hpz, by omega, hzero, hstr⟩

end Wbr1310.Httpd
