import Wbr1310.Httpd.Headers

/-!
# Where the record points

`process_headers` changes the block line by line and in place. The record of a request that is
accepted points into the block, behind the beginning of the request line, and there is a zero
behind every string it points to.
-/

namespace Wbr1310.Httpd

open Lib Lib.Bytes Function Option Nat

variable {fold more c : Bool} {n e start l z p numHeaders : ℕ} {b b' head block : Bytes}
  {r : HeaderFields ℕ}

theorem getlineFrom_spec {f : Bool} {s sp : ℕ} (hsp : f = true → start ≤ sp ∧ sp < s)
    (hs : start ≤ s) (h : getlineFrom fold n b s sp f = some (b', e)) :
    s < e ∧ e ≤ s + n ∧ Within start e b b' ∧ (∃ z, start ≤ z ∧ z < e ∧ byteAt b' z = 0) ∧
      byteAt b (e - 1) = 10 ∧
        ∀ i, byteAt b' i ≠ 0 → byteAt b' i ≠ 32 → byteAt b' i = byteAt b i := by
  induction n generalizing b s sp f with
  | zero => cases h
  | succ n ih =>
    have hsp' : start ≤ (if f then sp else s) ∧ (if f then sp else s) ≤ s := by
      cases f with
      | true => exact ⟨(hsp rfl).1, (hsp rfl).2.le⟩
      | false => exact ⟨hs, le_rfl⟩
    simp only [getlineFrom] at h
    generalize (if f then sp else s) = sp' at h hsp'
    split_ifs at h with hend hwhite hspace
    · obtain ⟨rfl, rfl⟩ := Prod.mk.inj (some.inj h)
      refine ⟨by omega, by omega, .set b 0 (by omega) (.inl rfl),
        ⟨_, hsp'.1, by omega, byteAt_set_zero b _⟩, hend.1, fun i hzero _ => byteAt_set_of_ne ?_ 0⟩
      rintro rfl
      exact hzero (byteAt_set_zero b _)
    · have hne : byteAt b s ≠ 0 := by
        rintro hzero
        rw [hzero] at hwhite
        exact absurd hwhite (by decide)
      obtain ⟨hlt, hle, hwithin, hz, hfeed, hkept⟩ := ih (fun _ => ⟨hsp'.1, by omega⟩) (by omega) h
      rw [byteAt_set_of_ne (by omega)] at hfeed
      refine ⟨by omega, by omega, (Within.set b 32 (by omega) (.inr hne)).trans hwithin, hz, hfeed,
        fun i hzero hspace => ?_⟩
      have hi := hkept i hzero hspace
      have his : i ≠ s := by
        rintro rfl
        rw [byteAt_set_self (not_le.mp fun hout => hne (byteAt_of_le hout))] at hi
        exact hspace hi
      rw [hi, byteAt_set_of_ne his]
    · obtain ⟨hlt, hle, hrest⟩ := ih (fun _ => ⟨hsp'.1, by omega⟩) (by omega) h
      exact ⟨by omega, by omega, hrest⟩
    · obtain ⟨hlt, hle, hrest⟩ := ih (f := false) nofun (by omega) h
      exact ⟨by omega, by omega, hrest⟩

/-- `getline` takes a line that ends with a line feed, changes bytes of it to zeros and spaces, and
leaves a zero in it. -/
theorem getline_spec (h : getline b start fold = some (b', e)) :
    start < e ∧ e ≤ b.length ∧ Within start e b b' ∧ (∃ z, start ≤ z ∧ z < e ∧ byteAt b' z = 0) ∧
      byteAt b (e - 1) = 10 ∧
        ∀ i, byteAt b' i ≠ 0 → byteAt b' i ≠ 32 → byteAt b' i = byteAt b i := by
  obtain ⟨hlt, hle, hrest⟩ := getlineFrom_spec (f := false) nofun le_rfl h
  exact ⟨hlt, by omega, hrest⟩

theorem getlineFrom_isSome {f : Bool} {s sp : ℕ} (h : byteAt b (s + n) = 10) :
    (getlineFrom fold (n + 1) b s sp f).isSome := by
  induction n generalizing b s sp f with
  | zero => simp only [getlineFrom, Nat.add_zero] at h ⊢; simp [h]
  | succ n ih =>
    have hnext : byteAt b (s + 1 + n) = 10 := by rwa [Nat.add_right_comm]
    rw [getlineFrom]
    generalize (if f then sp else s) = sp'
    split
    · rfl
    · split
      · exact ih (by rwa [byteAt_set_of_ne (by omega)])
      · split
        · exact ih hnext
        · exact ih hnext

theorem getline_eq_none (hlast : byteAt b (b.length - 1) = 10) (h : getline b start fold = none) :
    b.length ≤ start := by
  by_contra hlt
  obtain ⟨n, hn⟩ : ∃ n, b.length - start = n + 1 := ⟨b.length - start - 1, by omega⟩
  have hsome : (getline b start fold).isSome := by
    rw [getline, hn]
    exact getlineFrom_isSome (by rwa [show start + n = b.length - 1 by omega])
  rw [h] at hsome
  cases hsome

theorem firstLine_spec (h : firstLine n b start = some (b', l, e)) :
    start ≤ l ∧ l < e ∧ e ≤ b.length ∧ Within 0 e b b' ∧
      ∃ z, l ≤ z ∧ z < e ∧ byteAt b' z = 0 := by
  induction n generalizing b start with
  | zero => cases h
  | succ n ih =>
    rw [firstLine] at h
    split at h
    · cases h
    · next b₁ e₁ hline =>
      obtain ⟨hlt, hle, hwithin, hz, -⟩ := getline_spec hline
      split at h
      · obtain ⟨hl, hlt', hle', hwithin', hz'⟩ := ih h
        rw [hwithin.length] at hle'
        exact ⟨by omega, hlt', hle',
          (hwithin.mono (zero_le _) (by omega)).trans hwithin', hz'⟩
      · obtain ⟨rfl, rfl, rfl⟩ := h
        exact ⟨le_rfl, hlt, hle, hwithin.mono (zero_le _) le_rfl, hz⟩

/-- The pointers lie between the method and `z`; the boundary is left out. -/
structure Points (z : ℕ) (r : HeaderFields ℕ) : Prop where
  methodS : r.methodS ≤ z
  url : r.methodS ≤ r.url ∧ r.url ≤ z
  version : r.methodS ≤ r.version ∧ r.version ≤ z
  args : ∀ p ∈ r.args, r.methodS ≤ p ∧ p ≤ z
  headers : ∀ h ∈ r.headers, (r.methodS ≤ h.1 ∧ h.1 ≤ z) ∧ r.methodS ≤ h.2 ∧ h.2 ≤ z
  named : ∀ k, ∀ p ∈ r.named k, r.methodS ≤ p ∧ p ≤ z

theorem Points.map_congr {ρ : Type} (h : Points z r) (hb : r.multiBoundary = none) {g g' : ℕ → ρ}
    (hg : ∀ p, r.methodS ≤ p → p ≤ z → g p = g' p) : r.map g = r.map g' := by
  have hargs : r.args.map g = r.args.map g' :=
    Option.map_congr fun p hp => hg p (h.args p hp).1 (h.args p hp).2
  have hheaders : r.headers.map (fun x => (g x.1, g x.2)) =
      r.headers.map fun x => (g' x.1, g' x.2) := by
    refine List.map_congr_left fun x hx => ?_
    obtain ⟨hname, hvalue⟩ := h.headers x hx
    rw [hg _ hname.1 hname.2, hg _ hvalue.1 hvalue.2]
  have hnamed : (fun k => (r.named k).map g) = fun k => (r.named k).map g' :=
    funext fun k => Option.map_congr fun p hp => hg p (h.named k p hp).1 (h.named k p hp).2
  simp only [HeaderFields.map, hg _ le_rfl h.methodS, hg _ h.url.1 h.url.2,
    hg _ h.version.1 h.version.2, hargs, hheaders, hnamed, hb, map_none]

theorem Points.mono {z' : ℕ} (h : Points z r) (hz : z ≤ z') : Points z' r where
  methodS := h.methodS.trans hz
  url := ⟨h.url.1, h.url.2.trans hz⟩
  version := ⟨h.version.1, h.version.2.trans hz⟩
  args p hp := ⟨(h.args p hp).1, (h.args p hp).2.trans hz⟩
  headers x hx := by
    obtain ⟨hname, hvalue⟩ := h.headers x hx
    exact ⟨⟨hname.1, hname.2.trans hz⟩, hvalue.1, hvalue.2.trans hz⟩
  named k p hp := ⟨(h.named k p hp).1, (h.named k p hp).2.trans hz⟩

theorem Points.update (h : Points z r) (k : NamedHeader) (hp : r.methodS ≤ p ∧ p ≤ z) :
    Points z { r with named := Function.update r.named k (some p) } where
  methodS := h.methodS
  url := h.url
  version := h.version
  args := h.args
  headers := h.headers
  named k' q hq := by
    change q ∈ Function.update r.named k (some p) k' at hq
    rcases eq_or_ne k' k with rfl | hne
    · rw [update_self, mem_some_iff] at hq
      exact hq ▸ hp
    · rw [update_of_ne hne] at hq
      exact h.named k' q hq

theorem lt_zero_of_strchr {q : ℕ} {c : UInt8} (hz : byteAt b z = 0) (hp : p ≤ z)
    (h : strchr b p c = some q) : p ≤ q ∧ q < z := by
  obtain ⟨hle, hlt, -⟩ := strchr_spec h
  have := str_length_le hz hp
  omega

theorem lt_zero_of_strrchr {q : ℕ} {c : UInt8} (hz : byteAt b z = 0) (hp : p ≤ z)
    (h : strrchr b p c = some q) : p ≤ q ∧ q < z := by
  obtain ⟨hle, hlt, -⟩ := strrchr_spec h
  have := str_length_le hz hp
  omega

theorem requestLine_spec {u : ℕ} (hl : l ≤ z) (hu : z < u) (hz : byteAt b z = 0)
    (h : requestLine b l = some (b', r)) :
    Within l u b b' ∧ r.methodS = l ∧ Points z r := by
  rw [requestLine] at h
  split at h
  · cases h
  · next sp hsp =>
    obtain ⟨hlsp, hspz⟩ := lt_zero_of_strchr hz hl hsp
    have hset : Within l u b (b.set sp 0) := .set b 0 (by omega) (.inl rfl)
    have hz₁ := hset.zero z hz
    dsimp only at h
    split at h
    · cases h
    · next s hs =>
      obtain ⟨hurl, hsz⟩ := lt_zero_of_strrchr hz₁ (by omega) hs
      split at h
      · cases h
      · next hne =>
        have hs₁ : sp + 1 < s := by
          have hne' := not_or.mp hne
          omega
        have hset₂ : Within l u (b.set sp 0) ((b.set sp 0).set (s - 1) 0) :=
          .set _ 0 (by omega) (.inl rfl)
        have hz₂ := hset₂.zero z hz₁
        split at h
        · obtain ⟨rfl, rfl⟩ := Prod.mk.inj (some.inj h)
          exact ⟨hset.trans hset₂, rfl, hl, by simp only; omega, by simp only; omega, nofun,
            nofun, nofun⟩
        · next q hq =>
          obtain ⟨hurlq, hqz⟩ := lt_zero_of_strchr hz₂ (by omega) hq
          obtain ⟨rfl, rfl⟩ := Prod.mk.inj (some.inj h)
          refine ⟨(hset.trans hset₂).trans (.set _ 0 (by omega) (.inl rfl)), rfl, hl,
            by simp only; omega, by simp only; omega, fun p hp => ?_, nofun, nofun⟩
          obtain rfl := some.inj hp
          simp only
          omega

/-- What a line does to the block and to the record: it changes its own bytes, and points to
itself. It changes the boundary only if it is of the type for that. -/
structure LineSpec (l u z : ℕ) (typed : Prop) (st st' : HeaderState) : Prop where
  start : st'.start = st.start
  methodS : st'.fields.methodS = st.fields.methodS
  boundary : st'.fields.multiBoundary = st.fields.multiBoundary ∨ typed
  within : Within l u st.block st'.block
  points : Points z st'.fields

section Line

variable {numHeaders l u v z : ℕ} {typed : Prop} {st st' : HeaderState}

theorem LineSpec.same (h : Points z st.fields) : LineSpec l u z typed st st :=
  ⟨rfl, rfl, .inl rfl, .refl l u _, h⟩

theorem LineSpec.trans {st'' : HeaderState} (h : LineSpec l u z False st st')
    (h' : LineSpec l u z typed st' st'') : LineSpec l u z typed st st'' where
  start := h'.start.trans h.start
  methodS := h'.methodS.trans h.methodS
  boundary := h'.boundary.imp_left fun heq => heq.trans (h.boundary.resolve_right id)
  within := h.within.trans h'.within
  points := h'.points

theorem LineSpec.point (h : LineSpec l u z typed st st') (k : NamedHeader)
    (hv : st.fields.methodS ≤ v ∧ v ≤ z) : LineSpec l u z typed st (st'.point k v) :=
  ⟨h.start, h.methodS, h.boundary, h.within, h.points.update k (by rwa [h.methodS])⟩

theorem LineSpec.setBlock (h : LineSpec l u z typed st st') {b : Bytes}
    (hb : Within l u st'.block b) : LineSpec l u z typed st { st' with block := b } :=
  ⟨h.start, h.methodS, h.boundary, h.within.trans hb, h.points⟩

theorem LineSpec.setBoundary (h : LineSpec l u z typed st st') (ht : typed) (p : Option ℕ) :
    LineSpec l u z typed st { st' with fields := { st'.fields with multiBoundary := p } } :=
  ⟨h.start, h.methodS, .inr ht, h.within, h.points.methodS, h.points.url, h.points.version,
    h.points.args, h.points.headers, h.points.named⟩

theorem sanitizeHostAt_within {b : Bytes} (hv : l ≤ v ∧ v < z) (hu : z < u) (hz : byteAt b z = 0) :
    Within l u b (sanitizeHostAt b v) := by
  rw [sanitizeHostAt]
  generalize hhost : (str b v).takeWhile (· ≠ 58) = host
  have hend : v + host.length ≤ z := by
    have hle := (List.takeWhile_prefix (l := str b v) (· ≠ 58)).length_le
    have hstr := str_length_le hz hv.2.le
    rw [hhost] at hle
    omega
  have hlower : Within l u b
      (b.mapIdx fun i c => if v ≤ i ∧ i < v + host.length then toLower c else c) := by
    refine ⟨List.length_mapIdx, fun i hi => byteAt_mapIdx (if_neg (by omega)), fun i hi => ?_⟩
    rw [byteAt_mapIdx, hi]
    rw [hi]
    split <;> decide
  have hset := hlower.trans (.set _ 0 (p := v + host.length) (by omega) (.inl rfl))
  split
  · next hdot =>
    have hpos : 0 < host.length := by
      rw [List.length_pos_iff]
      rintro rfl
      cases hdot
    exact hset.trans (.set _ 0 (by omega) (.inl rfl))
  · exact hset

theorem contentTypeLine_spec (h : Points z st.fields) (hv : st.fields.methodS ≤ v ∧ v < z)
    (hl : l ≤ v) (hu : z < u) (hz : byteAt st.block z = 0) (ht : typed) :
    LineSpec l u z typed st (contentTypeLine v st) := by
  have hvz : st.fields.methodS ≤ v ∧ v ≤ z := ⟨hv.1, hv.2.le⟩
  rw [contentTypeLine]
  split
  · next hbegins =>
    have hlen : 20 ≤ (str st.block v).length := by
      have hle := hbegins.length_le
      rw [lower, lower, List.length_map, List.length_map] at hle
      exact hle
    have hend := str_length_le hz hv.2.le
    have hset : Within l u st.block (st.block.set (v + 20) 0) := .set _ 0 (by omega) (.inl rfl)
    have hspec : LineSpec l u z typed st _ := (LineSpec.same h).setBlock hset
    dsimp only
    split
    · exact (hspec.setBoundary ht _).point .contentType hvz
    · exact hspec.point .contentType hvz
  · exact (LineSpec.same h).point .contentType hvz

theorem otherHeader_spec (h : Points z st.fields) (hl : st.fields.methodS ≤ l ∧ l ≤ v) (hv : v < z)
    (hu : z < u) (hz : byteAt st.block z = 0) (hst : otherHeader numHeaders l v st = .ok st') :
    LineSpec l u z typed st st' := by
  have hlv : st.fields.methodS ≤ v ∧ v ≤ z := by omega
  rw [otherHeader] at hst
  dsimp only at hst
  generalize hst₁ : (if st.fields.headers.length < numHeaders then
    { st with fields := { st.fields with headers := st.fields.headers ++ [(l, v)] } }
    else st) = st₁ at hst
  have hkept : LineSpec l u z typed st st₁ ∧ st₁.block = st.block := by
    rw [← hst₁]
    split
    · refine ⟨⟨rfl, rfl, .inl rfl, .refl l u _, h.methodS, h.url, h.version, h.args,
        fun x hx => ?_, h.named⟩, rfl⟩
      rcases List.mem_append.mp hx with hold | hnew
      · exact h.headers x hold
      · obtain rfl := List.mem_singleton.mp hnew
        simp only
        omega
    · exact ⟨.same h, rfl⟩
  obtain ⟨hspec, hblock⟩ := hkept
  split at hst
  · obtain rfl := Except.ok.inj hst
    exact hspec
  · next k hk =>
    split at hst
    · obtain rfl := Except.ok.inj hst
      have hhost : Within l u st₁.block (sanitizeHostAt st₁.block v) :=
        sanitizeHostAt_within ⟨hl.2, hv⟩ hu (by rwa [hblock])
      exact (hspec.setBlock hhost).point .host hlv
    · split at hst
      · cases hst
      · obtain rfl := Except.ok.inj hst
        exact hspec.point k hlv

theorem namedLine_spec (h : Points z st.fields) (hl : st.fields.methodS ≤ l ∧ l ≤ v) (hv : v < z)
    (hu : z < u) (hz : byteAt st.block z = 0) (hst : namedLine numHeaders l v st = .ok st') :
    LineSpec l u z (EqIgnoreCase (str st.block l) contentTypeName) st st' := by
  have hlv : st.fields.methodS ≤ v ∧ v ≤ z := by omega
  have hsame : LineSpec l u z (EqIgnoreCase (str st.block l) contentTypeName) st st := .same h
  rw [namedLine] at hst
  split at hst
  · obtain rfl := Except.ok.inj hst
    exact ⟨rfl, rfl, .inl rfl, .refl l u _, h⟩
  split at hst
  · obtain rfl := Except.ok.inj hst
    exact hsame
  split at hst
  · split at hst
    · cases hst
    · obtain rfl := Except.ok.inj hst
      exact ⟨rfl, rfl, .inl rfl, .refl l u _, h⟩
  split at hst
  · next hname =>
    obtain rfl := Except.ok.inj hst
    exact contentTypeLine_spec h ⟨hlv.1, hv⟩ hl.2 hu hz hname
  split at hst
  · obtain rfl := Except.ok.inj hst
    exact hsame.point .contentLength hlv
  split at hst
  · obtain rfl := Except.ok.inj hst
    exact hsame.point .transferEncoding hlv
  · exact otherHeader_spec h hl hv hu hz hst

/-- What a header line does to the block and the record. -/
theorem headerLine_spec (h : Points z st.fields) (hl : st.fields.methodS ≤ l ∧ l ≤ z) (hu : z < u)
    (hz : byteAt st.block z = 0) (hst : headerLine numHeaders l st = .ok st') :
    LineSpec l u z (∃ colon, strchr st.block l 58 = some colon ∧
      EqIgnoreCase (str (st.block.set colon 0) l) contentTypeName) st st' := by
  rw [headerLine] at hst
  split at hst
  · obtain rfl := Except.ok.inj hst
    exact .same h
  · next colon hcolon =>
    obtain ⟨hle, hlt⟩ := lt_zero_of_strchr hz hl.2 hcolon
    have hset : Within l u st.block (st.block.set colon 0) := .set _ 0 (by omega) (.inl rfl)
    have hz' := hset.zero z hz
    have hspec : LineSpec l u z False st _ := (LineSpec.same h).setBlock hset
    have hv : skip (st.block.set colon 0) (colon + 1) 32 ≤ z :=
      skip_le (by rw [hz']; decide) (by omega)
    have hcv : colon + 1 ≤ skip (st.block.set colon 0) (colon + 1) 32 := le_add_right _ _
    dsimp only at hst
    split at hst
    · obtain rfl := Except.ok.inj hst
      exact (LineSpec.same h).setBlock hset
    · next hne =>
      have hvz : skip (st.block.set colon 0) (colon + 1) 32 ≠ z := by
        intro heq
        rw [heq] at hne
        exact hne hz'
      have hnamed := hspec.trans
        (namedLine_spec hspec.points ⟨hl.1, by omega⟩ (by omega) hu hz' hst)
      exact { hnamed with boundary := hnamed.boundary.imp_right fun hname =>
        ⟨colon, hcolon, hname⟩ }

end Line

/-- The lines before `start` are taken from the block `b₀`: what follows them is as it was, and
there is a zero behind all pointers. -/
structure Taken (b₀ : Bytes) (st : HeaderState) : Prop where
  within : Within 0 st.start b₀ st.block
  le : st.start ≤ b₀.length
  zero : ∃ z, z < st.start ∧ byteAt st.block z = 0 ∧ Points z st.fields

section Block

variable {numHeaders : ℕ} {b₀ : Bytes} {st st' : HeaderState}

/-- What a line keeps, the lines keep. -/
theorem headerLines_keeps {J : HeaderState → Prop} {n : ℕ}
    (hline : ∀ {st st' b e}, J st → getline st.block st.start true = some (b, e) →
      headerLine numHeaders st.start { st with block := b, start := e } = .ok st' → J st')
    (h : J st) (hst : headerLines numHeaders n st = .ok st') : J st' := by
  induction n generalizing st with
  | zero =>
    obtain rfl := Except.ok.inj hst
    exact h
  | succ n ih =>
    rw [headerLines] at hst
    split at hst
    · obtain rfl := Except.ok.inj hst
      exact h
    · next b e hget =>
      split at hst
      · cases hst
      · next st₁ hst₁ => exact ih (hline h hget hst₁) hst

theorem Taken.lineSpec (h : Taken b₀ st) {b : Bytes} {e : ℕ}
    (hline : getline st.block st.start true = some (b, e))
    (hst : headerLine numHeaders st.start { st with block := b, start := e } = .ok st') :
    ∃ z, z < e ∧ byteAt b z = 0 ∧ Within st.start e st.block st'.block ∧
      LineSpec st.start e z (∃ colon, strchr b st.start 58 = some colon ∧
        EqIgnoreCase (str (b.set colon 0) st.start) contentTypeName)
        { st with block := b, start := e } st' := by
  obtain ⟨hlt, hle, hwithin, ⟨z, hz, hze, hzero⟩, -⟩ := getline_spec hline
  obtain ⟨z₀, hz₀, -, hpoints⟩ := h.zero
  let st₁ : HeaderState := { st with block := b, start := e }
  have hpoints' : Points z st₁.fields := hpoints.mono (by omega)
  have hmethod := hpoints.methodS
  have hspec := headerLine_spec hpoints' (by simp only [st₁]; omega) hze hzero hst
  exact ⟨z, hze, hzero, hwithin.trans hspec.within, hspec⟩

theorem Taken.line (h : Taken b₀ st) {b : Bytes} {e : ℕ}
    (hline : getline st.block st.start true = some (b, e))
    (hst : headerLine numHeaders st.start { st with block := b, start := e } = .ok st') :
    Taken b₀ st' ∧ st.start < st'.start ∧ st'.fields.methodS = st.fields.methodS := by
  obtain ⟨hlt, hle, -⟩ := getline_spec hline
  obtain ⟨z, hze, hzero, hwithin, hspec⟩ := h.lineSpec hline hst
  have hstart : st'.start = e := hspec.start
  refine ⟨⟨?_, ?_, z, by omega, hspec.within.zero z hzero, hspec.points⟩, by omega, hspec.methodS⟩
  · rw [hstart]
    exact (h.within.mono le_rfl (by omega)).trans (hwithin.mono (zero_le _) le_rfl)
  · rw [hstart, ← h.within.length]
    exact hle

/-- All lines of a block that ends with a line feed. -/
theorem Taken.lines (hlast : byteAt b₀ (b₀.length - 1) = 10) {n : ℕ} (h : Taken b₀ st)
    (hn : b₀.length ≤ st.start + n) (hst : headerLines numHeaders n st = .ok st') :
    Taken b₀ st' ∧ st'.start = b₀.length ∧ st'.fields.methodS = st.fields.methodS := by
  induction n generalizing st with
  | zero =>
    obtain rfl := Except.ok.inj hst
    exact ⟨h, le_antisymm h.le hn, rfl⟩
  | succ n ih =>
    rw [headerLines] at hst
    split at hst
    · next hnone =>
      obtain rfl := Except.ok.inj hst
      refine ⟨h, le_antisymm h.le ?_, rfl⟩
      by_contra hlt
      have hlast' : byteAt st.block (st.block.length - 1) = 10 := by
        rw [h.within.length, h.within.outside _ (by omega)]
        exact hlast
      have hle := getline_eq_none hlast' hnone
      rw [h.within.length] at hle
      omega
    · next b e hline =>
      split at hst
      · cases hst
      · next st₁ hst₁ =>
        obtain ⟨htaken, hlt, hmethod⟩ := h.line hline hst₁
        obtain ⟨htaken', hstart, hmethod'⟩ := ih htaken (by omega) hst
        exact ⟨htaken', hstart, hmethod'.trans hmethod⟩

/-- What the checks have found out about a record that they let pass. -/
structure Checked (st : HeaderState) (r : RequestRecord ℕ) : Prop where
  method : parseMethod (str st.block st.fields.methodS) = some r.method
  fields : transferCoding st.block st.fields = .ok r.fields
  length : (r.fields.named .contentLength).map (fun p => contentLengthValue (str st.block p)) =
      some (some r.inMblen) ∨
    r.fields.named .contentLength = none ∧ r.inMblen = 0 ∧ r.method ≠ .post

theorem checkHeaders_ok {r : RequestRecord ℕ} (h : checkHeaders st = .ok r) : Checked st r := by
  rw [checkHeaders] at h
  dsimp only at h
  split at h
  · cases h
  next method hmethod =>
  split at h
  · cases h
  split at h
  · cases h
  next rhost s hurl =>
  split at h
  · cases h
  split at h
  · cases h
  split at h
  · cases h
  next path hpath =>
  split at h
  · cases h
  split at h
  · cases h
  next fields hfields =>
  split at h
  · cases h
  next length hlength =>
  split at h
  · cases h
  next hpost =>
  obtain rfl := Except.ok.inj h
  refine ⟨hmethod, hfields, ?_⟩
  dsimp only
  cases hcl : fields.named .contentLength with
  | none =>
    rw [hcl] at hpost
    exact .inr ⟨rfl, rfl, fun hm => hpost ⟨hm, rfl⟩⟩
  | some p =>
    rw [hcl] at hlength
    cases hvalue : contentLengthValue (str st.block p) with
    | none => exact absurd (congrArg some hvalue) hlength
    | some n => exact .inl (by simp only [map_some, hvalue, getD_some])

theorem Checked.points {r : RequestRecord ℕ} {z : ℕ} (h : Checked st r) (hp : Points z st.fields) :
    Points z r.fields ∧ r.fields.methodS = st.fields.methodS := by
  have hfields := h.fields
  rw [transferCoding] at hfields
  split at hfields
  · rw [← Except.ok.inj hfields]
    exact ⟨hp, rfl⟩
  · split at hfields
    · rw [← Except.ok.inj hfields]
      refine ⟨⟨hp.methodS, hp.url, hp.version, hp.args, hp.headers, fun k p hk => ?_⟩, rfl⟩
      change p ∈ update st.fields.named .contentLength none k at hk
      rcases eq_or_ne k .contentLength with rfl | hne
      · rw [update_self] at hk
        cases hk
      · rw [update_of_ne hne] at hk
        exact hp.named k p hk
    · cases hfields

end Block

/-- The record of a request that is accepted: all lines were taken from the block, it points
behind the beginning of the request line, and there is a zero in the block behind all pointers. -/
structure Accepted (head block : Bytes) (r : RequestRecord ℕ) : Prop where
  length : block.length = head.length
  methodS : r.fields.methodS = requestStart head
  method : parseMethod (str block r.fields.methodS) = some r.method
  zero : ∃ z < head.length, byteAt block z = 0 ∧ Points z r.fields

/-- The steps of `process_headers` for a request that is accepted. -/
theorem processHeaders_steps {r : RequestRecord ℕ}
    (h : processHeaders numHeaders more head start = .accepted block e r c) :
    ∃ b l st₀ st, firstLine head.length head start = some (b, l, st₀.start) ∧
      requestLine b l = some (st₀.block, st₀.fields) ∧
      headerLines numHeaders st₀.block.length st₀ = .ok st ∧ checkHeaders st = .ok r ∧
      st.block = block ∧ st.start = e := by
  rw [processHeaders] at h
  split at h
  · cases h
  next b₁ l e₁ hfirst =>
  split at h
  · cases h
  next b₂ fields hrequest =>
  split at h
  · cases h
  next major minor hversion =>
  split at h
  · cases h
  next st hlines =>
  split at h
  · cases h
  next r' hcheck =>
  obtain ⟨rfl, rfl, rfl, -⟩ := HeadersVerdict.accepted.inj h
  exact ⟨b₁, l, ⟨b₂, e₁, fields, major, minor, decide (major ≠ 0 ∧ minor ≠ 0), false⟩, st, hfirst,
    hrequest, hlines, hcheck, rfl, rfl⟩

theorem Taken.first {st : HeaderState}
    (hfirst : firstLine head.length head start = some (b, l, st.start))
    (hrequest : requestLine b l = some (st.block, st.fields)) :
    Taken head st ∧ st.fields.methodS = l := by
  obtain ⟨-, hlt, hle, hwithin, z, hlz, hze, hzero⟩ := firstLine_spec hfirst
  obtain ⟨hwithin', hmethod, hpoints⟩ := requestLine_spec hlz hze hzero hrequest
  exact ⟨⟨hwithin.trans (hwithin'.mono (zero_le _) le_rfl), hle, z, hze,
    hwithin'.zero z hzero, hpoints⟩, hmethod⟩

theorem Taken.headerLines {b₀ : Bytes} {st st' : HeaderState} (h : Taken b₀ st)
    (hst : headerLines numHeaders n st = .ok st') : Taken b₀ st' ∧ st.start ≤ st'.start := by
  refine headerLines_keeps (J := fun t => Taken b₀ t ∧ st.start ≤ t.start) ?_ ⟨h, le_rfl⟩ hst
  intro t t' b e ht hget hline
  obtain ⟨htaken, hlt, -⟩ := ht.1.line hget hline
  exact ⟨htaken, by omega⟩

theorem processHeaders_within {r : RequestRecord ℕ}
    (h : processHeaders numHeaders more head start = .accepted block e r c) :
    start ≤ e ∧ e ≤ head.length ∧ Within 0 e head block := by
  obtain ⟨b, l, st₀, st, hfirst, hrequest, hlines, -, rfl, rfl⟩ := processHeaders_steps h
  obtain ⟨hstart, hlt, -⟩ := firstLine_spec hfirst
  obtain ⟨htaken, hle⟩ := (Taken.first hfirst hrequest).1.headerLines hlines
  exact ⟨by omega, htaken.le, htaken.within⟩

theorem processHeaders_accepted {r : RequestRecord ℕ} (hlast : byteAt head (head.length - 1) = 10)
    (h : processHeaders numHeaders more head 0 = .accepted block e r c) :
    e = head.length ∧ Accepted head block r := by
  obtain ⟨b, l, st₀, st, hfirst, hrequest, hlines, hcheck, rfl, rfl⟩ := processHeaders_steps h
  obtain ⟨htaken, hmethod⟩ := Taken.first hfirst hrequest
  obtain ⟨htaken', hstart, hmethod'⟩ := htaken.lines hlast
    (by rw [htaken.within.length]; exact le_add_left _ _) hlines
  obtain ⟨z', hz', hzero', hpoints'⟩ := htaken'.zero
  have hchecked := checkHeaders_ok hcheck
  obtain ⟨hrpoints, hrmethod⟩ := hchecked.points hpoints'
  refine ⟨hstart, htaken'.within.length, ?_, ?_, z', by omega, hzero', hrpoints⟩
  · rw [hrmethod, hmethod', hmethod, requestStart, hfirst]
  · rw [hrmethod]
    exact hchecked.method

/-- What follows the header block does not matter, up to `100 Continue`. -/
theorem processHeaders_eq {r : RequestRecord ℕ} (hlast : byteAt head (head.length - 1) = 10)
    (h : acceptedRequest numHeaders head = some (block, r)) (more : Bool) :
    Accepted head block r ∧
      ∃ c, processHeaders numHeaders more head 0 = .accepted block head.length r c := by
  have hmore : ∃ e c, processHeaders numHeaders more head 0 = .accepted block e r c := by
    simp only [acceptedRequest, processHeaders] at h ⊢
    split at h
    · next b e r' c hverdict =>
      obtain ⟨rfl, rfl⟩ := Prod.mk.inj (some.inj h)
      split at hverdict
      · cases hverdict
      split at hverdict
      · cases hverdict
      split at hverdict
      · cases hverdict
      split at hverdict
      · cases hverdict
      split at hverdict
      · cases hverdict
      obtain ⟨rfl, rfl, rfl, -⟩ := HeadersVerdict.accepted.inj hverdict
      exact ⟨_, _, rfl⟩
    all_goals cases h
  obtain ⟨e, c, hverdict⟩ := hmore
  obtain ⟨rfl, haccepted⟩ := processHeaders_accepted hlast hverdict
  exact ⟨haccepted, c, hverdict⟩

end Wbr1310.Httpd
