import Wbr1310.IptString.Match
import Wbr1310.Lib.BoyerMoore

/-!
# What the searches find

`search_linear` finds every occurrence of a needle. `search_sublinear` finds the first one or an
earlier one if the needle is regular and no byte above `0x7f` is looked up in its table. Its table
`shift` is too long otherwise: a beginning of the needle that is also its end is not taken into
account, and `ended` can replace a shift by a longer one.
-/

namespace Wbr1310.IptString

open Lib Buffer BoyerMoore Function Nat

variable {k n i r p : ℕ} {shift : Table}

theorem readAt_of_eq {α : Type} {size : ℕ} {i : ℤ} (b : ℕ → α) (hi : i = k) (hk : k < size) :
    readAt size b i = .ok (b k) := by
  subst hi
  rw [readAt, if_pos (Int.natCast_nonneg k), Int.toNat_natCast, read_of_lt b hk]

theorem writeAt_of_eq {i : ℤ} (t : Table) (v : ℤ) (hi : i = k) (hk : k < bmMaxHlen) :
    writeAt t i v = .ok (Function.update t k v) := by
  subst hi
  rw [writeAt, if_pos (Int.natCast_nonneg k), Int.toNat_natCast, write_of_lt t v hk]

theorem readPayload_of_eq {haystack : List Byte} {i : ℤ} (hi : i = k) (hk : k < haystack.length) :
    readPayload haystack i = .ok (held haystack k) := by
  subst hi
  rw [readPayload, if_pos (Int.natCast_nonneg k), Int.toNat_natCast, readList,
    List.getElem?_eq_getElem hk, held, List.getD_eq_getElem _ _ hk]

theorem signed_of_lt {c : Byte} (h : c < 0x80) : signed c = c.toNat := if_pos h

theorem toNat_lt_of_lt {c : Byte} (h : c < 0x80) : c.toNat < bmMaxHlen :=
  lt_trans (UInt8.lt_iff_toNat_lt.mp h) (by decide)

/-- A needle that can be looked up: no zero in it and no byte that is negative. -/
structure LowNeedle (w : List Byte) : Prop where
  pos : 0 < w.length
  lt : w.length < bmMaxNlen
  bytes : ∀ c ∈ w, c ≠ 0 ∧ c < 0x80

/-- `skip` says how far the last place of a byte among the first `i` ones is from the end. -/
structure SkipOk (w : List Byte) (i : ℕ) (skip : Table) : Prop where
  le : ∀ c, skip c ≤ w.length
  near : ∀ q < i, skip (held w q).toNat ≤ (w.length : ℤ) - 1 - q

variable {w : List Byte}

theorem setSkip_spec (hw : LowNeedle w) (hi : i ≤ w.length) (hn : w.length < i + n) {skip : Table}
    (hs : SkipOk w i skip) :
    ∃ skip', setSkip (held w) ((w.length : ℤ) - 1) n i skip = .ok skip' ∧
      SkipOk w w.length skip' := by
  have hlen := hw.lt
  induction n generalizing i skip with
  | zero => omega
  | succ n ih =>
    rw [setSkip, read_of_lt _ (lt_of_le_of_lt hi hlen), ok_bind]
    obtain hlt | rfl := lt_or_eq_of_le hi
    · obtain ⟨hne, hlow⟩ := hw.bytes _ (held_mem hlt)
      rw [if_neg hne, writeAt_of_eq _ _ (signed_of_lt hlow) (toNat_lt_of_lt hlow), ok_bind]
      refine ih hlt (by omega) ⟨fun c => ?_, fun q hq => ?_⟩
      · rw [update_apply]
        split
        · omega
        · exact hs.le c
      · rw [update_apply]
        split
        · omega
        · next hother =>
          refine hs.near q (lt_of_le_of_ne (le_of_lt_succ hq) ?_)
          rintro rfl
          exact hother rfl
    · rw [if_pos (held_of_ge le_rfl)]
      exact ⟨skip, rfl, hs⟩

theorem overlap_spec (hw : LowNeedle w) (ho : Overlap (held w) w.length k i) {j : ℕ} (hj : j ≤ i)
    (hn : i < j + n) : overlap (held w) ((w.length : ℤ) - 1) k n j = .ok i := by
  have hlen := hw.lt
  have hfits := ho.fits
  induction n generalizing j with
  | zero => omega
  | succ n ih =>
    rw [overlap, readAt_of_eq (k := w.length - 1 - j) _ (by omega) (by omega), ok_bind,
      readAt_of_eq (k := w.length - 1 - k - j) _ (by omega) (by omega), ok_bind]
    obtain hlt | rfl := lt_or_eq_of_le hj
    · rw [if_pos (ho.eq j hlt)]
      exact ih hlt (by omega)
    · rw [if_neg ho.ne]
      rfl

/-- `len` says how far the needle agrees with itself when it is moved. -/
def LenOk (w : List Byte) (len : Table) : Prop :=
  ∀ k j, 0 < k → Overlap (held w) w.length k j → len k = j

theorem setLen_spec (hw : LowNeedle w) (hu : Unbordered (held w) w.length) (hi : 0 < i)
    (hn : i + n = w.length) {len : Table}
    (hlen : ∀ k j, 0 < k → k < i → Overlap (held w) w.length k j → len k = j) :
    ∃ len', setLen (held w) w.length n i len = .ok len' ∧ LenOk w len' := by
  have hmax := hw.lt
  induction n generalizing i len with
  | zero =>
    refine ⟨len, rfl, fun k j hk ho => hlen k j hk ?_ ho⟩
    have := ho.fits
    omega
  | succ n ih =>
    obtain ⟨l, hl⟩ := hu.exists_overlap hi (by omega)
    have hfits := hl.fits
    have hsize : i < bmMaxHlen := by
      simp only [bmMaxHlen, bmMaxNlen] at hmax ⊢
      omega
    rw [setLen, overlap_spec hw hl (zero_le l) (by omega), ok_bind, write_of_lt _ _ hsize,
      ok_bind]
    refine ih (succ_pos i) (by omega) fun k j hk hki ho => ?_
    rw [update_apply]
    split
    · next heq =>
      subst heq
      exact congrArg Nat.cast (hl.unique ho)
    · exact hlen k j hk (by omega) ho

/-- `shift` is not longer than any of the overlaps by more than `i`. -/
structure ShiftOk (w : List Byte) (i : ℕ) (shift : Table) : Prop where
  pos : ∀ c, 0 < shift c
  le : ∀ c, shift c ≤ w.length
  near : ∀ k j, i < k → Overlap (held w) w.length k j → shift j ≤ k

/-- The table of shifts, by induction on the positions that are left. -/
theorem setShift_spec (hw : LowNeedle w) (hu : Unbordered (held w) w.length) {len : Table}
    (hlen : LenOk w len) (hi : i < w.length) (hs : ShiftOk w i shift) :
    ∃ shift', setShift len i shift = .ok shift' ∧ ShiftOk w 0 shift' := by
  have hmax := hw.lt
  induction i generalizing shift with
  | zero => exact ⟨shift, rfl, hs⟩
  | succ i ih =>
    obtain ⟨l, hl⟩ := hu.exists_overlap (succ_pos i) hi
    have hfits := hl.fits
    simp only [bmMaxNlen] at hmax
    rw [setShift, read_of_lt _ (by simp only [bmMaxHlen]; omega), ok_bind,
      writeAt_of_eq _ _ (hlen _ _ (succ_pos i) hl) (by simp only [bmMaxHlen]; omega), ok_bind]
    -- the overlap by `i + 1` is the shortest one so far
    refine ih (by omega) ⟨fun c => ?_, fun c => ?_, fun k j hk ho => ?_⟩ <;>
      rw [update_apply]
    · split
      · omega
      · exact hs.pos c
    · split
      · omega
      · exact hs.le c
    · split
      · omega
      · next hother =>
        refine hs.near k j (lt_of_le_of_ne hk ?_) ho
        rintro rfl
        exact hother (ho.unique hl)

/-- The last loop changes an entry only to the number of an earlier one with a full overlap. -/
theorem endShift_spec (len : Table) (m1 : ℤ) (shift : Table) {ended : ℕ} (hn : i + n ≤ bmMaxHlen)
    (hended : ended ≠ 0 → ended ≤ i ∧ len ended = m1 - ended) :
    ∃ shift', endShift len m1 n i ended shift = .ok shift' ∧ ∀ c, shift' c = shift c ∨
      ∃ e, 0 < e ∧ e ≤ c ∧ shift' c = (e : ℤ) ∧ len e = m1 - e := by
  induction n generalizing i ended shift with
  | zero => exact ⟨shift, rfl, fun c => .inl rfl⟩
  | succ n ih =>
    have hsize : i < bmMaxHlen := by omega
    rw [endShift, read_of_lt _ hsize, ok_bind]
    have hended' : (if len i = m1 - i then i else ended) ≠ 0 →
        (if len i = m1 - i then i else ended) ≤ i ∧
          len (if len i = m1 - i then i else ended) =
            m1 - ((if len i = m1 - i then i else ended : ℕ) : ℤ) := by
      split
      · next hfull => exact fun _ => ⟨le_rfl, hfull⟩
      · exact hended
    generalize (if len i = m1 - i then i else ended) = ended' at hended' ⊢
    by_cases hzero : ended' = 0
    · obtain ⟨shift', hrun, hentry⟩ := ih shift (i := i + 1) (by omega)
        (fun hne => absurd hzero hne)
      refine ⟨shift', ?_, hentry⟩
      simpa only [hzero, ne_eq, not_true_eq_false, if_false, pure_eq_ok, ok_bind] using hrun
    · obtain ⟨hle, hfull⟩ := hended' hzero
      obtain ⟨shift', hrun, hentry⟩ := ih (update shift i (ended' : ℤ)) (i := i + 1)
        (by omega) (fun _ => ⟨by omega, hfull⟩)
      refine ⟨shift', ?_, fun c => ?_⟩
      · simpa only [ne_eq, hzero, not_false_eq_true, if_true, write_of_lt _ _ hsize, ok_bind]
          using hrun
      · obtain hkept | hset := hentry c
        · by_cases hc : c = i
          · subst hc
            rw [update_self] at hkept
            exact .inr ⟨ended', Nat.pos_of_ne_zero hzero, hle, hkept, hfull⟩
          · rw [update_of_ne hc] at hkept
            exact .inl hkept
        · exact .inr hset

/-- The tables are filled, and no jump they allow passes an occurrence. -/
theorem tables_spec (hw : LowNeedle w) (hr : Regular (held w) w.length) :
    ∃ skip len shift shift',
      setSkip (held w) ((w.length : ℤ) - 1) (bmMaxNlen + 1) 0 (fun _ => w.length) = .ok skip ∧
      setLen (held w) w.length (w.length - 1) 1 (fun _ => 0) = .ok len ∧
      setShift len (w.length - 1) (fun i => if i = 0 then 1 else w.length) = .ok shift ∧
      endShift len ((w.length : ℤ) - 1) w.length 0 0 shift = .ok shift' ∧
      SkipOk w w.length skip ∧ ∀ i < w.length, 0 < shift' i ∧ shift' i ≤ w.length ∧
        ∀ k, 0 < k → Overlap (held w) w.length k i → shift' i ≤ k := by
  have hpos := hw.pos
  have hmax := hw.lt
  have hskipFirst : SkipOk w 0 fun _ => w.length :=
    ⟨fun _ => Int.le_refl _, fun q hq => absurd hq (not_lt_zero q)⟩
  have hlenFirst : ∀ k j, 0 < k → k < 1 → Overlap (held w) w.length k j → (0 : ℤ) = j :=
    fun k j hk hk1 _ => absurd hk1 (by omega)
  have hshiftFirst : ShiftOk w (w.length - 1) fun i => if i = 0 then 1 else w.length := by
    refine ⟨fun c => ?_, fun c => ?_, fun k j hk ho => ?_⟩
    · split <;> omega
    · split <;> omega
    · have := ho.fits
      omega
  obtain ⟨skip, hskip, hskipOk⟩ :=
    setSkip_spec hw (n := bmMaxNlen + 1) (zero_le _) (by omega) hskipFirst
  obtain ⟨len, hlen, hlenOk⟩ :=
    setLen_spec hw hr.unbordered (n := w.length - 1) Nat.one_pos (by omega) hlenFirst
  obtain ⟨shift, hshift, hshiftOk⟩ :=
    setShift_spec hw hr.unbordered hlenOk (by omega) hshiftFirst
  obtain ⟨shift', hend, hentry⟩ :=
    endShift_spec len ((w.length : ℤ) - 1) shift (n := w.length) (i := 0)
      (by simp only [bmMaxHlen, bmMaxNlen] at hmax ⊢; omega) (fun hne => absurd rfl hne)
  refine ⟨skip, len, shift, shift', hskip, hlen, hshift, hend, hskipOk, fun i hi => ?_⟩
  obtain hkept | ⟨e, hepos, hele, heq, hfull⟩ := hentry i
  · rw [hkept]
    exact ⟨hshiftOk.pos i, hshiftOk.le i, fun k hk ho => hshiftOk.near k i hk ho⟩
  · rw [heq]
    refine ⟨by omega, by omega, fun k hk ho => ?_⟩
    -- the entry was replaced by a period behind the first byte
    obtain ⟨l, hl⟩ := hr.unbordered.exists_overlap hepos (by omega)
    have hlast : l = w.length - 1 - e := by
      have := hlenOk e l hepos hl
      have := hl.fits
      omega
    rw [hlast] at hl
    exact_mod_cast hr.period_le ho hk hl hele

variable {haystack : List Byte}

/-- The comparison from the right stops at the first difference. -/
theorem compareRight_spec (hw : LowNeedle w) (hr : w.length ≤ r + 1) (hlen : r < haystack.length)
    (hn : i + n = w.length) (heq : ∀ j < i, held haystack (r - j) = held w (w.length - 1 - j)) :
    (compareRight (held w) haystack ((w.length : ℤ) - 1) r n i = .ok w.length ∧
        EndsAt (held w) (held haystack) w.length r) ∨
      ∃ j, compareRight (held w) haystack ((w.length : ℤ) - 1) r n i = .ok j ∧
        Agrees (held w) (held haystack) w.length r j := by
  have hmax := hw.lt
  induction n generalizing i with
  | zero =>
    obtain rfl : i = w.length := by omega
    exact .inl ⟨rfl, hr, heq⟩
  | succ n ih =>
    rw [compareRight, readPayload_of_eq (k := r - i) (by omega) (by omega), ok_bind,
      readAt_of_eq (k := w.length - 1 - i) _ (by omega) (by omega), ok_bind]
    by_cases hsame : held haystack (r - i) = held w (w.length - 1 - i)
    · rw [if_pos hsame]
      refine ih (by omega) fun j hj => ?_
      obtain hlt | rfl := lt_or_eq_of_le (le_of_lt_succ hj)
      · exact heq j hlt
      · exact hsame
    · rw [if_neg hsame]
      exact .inr ⟨i, rfl, by omega, heq, hsame⟩

/-- In front of position `p`, a comparison from the right never ends at a byte above `0x7f`. -/
def LowBytes (w haystack : List Byte) (p : ℕ) : Prop :=
  ∀ r i, w.length ≤ r + 1 → r < p → Agrees (held w) (held haystack) w.length r i →
    held haystack (r - i) < 0x80

/-- A comparison that fails at a byte below `0x80` leads on to the right. -/
theorem searchRight_next (hw : LowNeedle w) (skip : Table) (hr : w.length ≤ r + 1)
    (hlen : r < haystack.length) (hpos : 0 < shift i)
    (hcompare : compareRight (held w) haystack ((w.length : ℤ) - 1) r w.length 0 = .ok i)
    (hi : i < w.length) (hbyte : held haystack (r - i) < 0x80) :
    ∃ r' : ℕ, (r' : ℤ) = max ((r : ℤ) - i + skip (held haystack (r - i)).toNat) (r + shift i) ∧
      searchRight skip shift (held w) w.length haystack (n + 1) r =
        searchRight skip shift (held w) w.length haystack n r' := by
  have hmax := hw.lt
  simp only [bmMaxNlen] at hmax
  obtain ⟨r', hr'⟩ : ∃ r' : ℕ, (r' : ℤ) =
      max ((r : ℤ) - i + skip (held haystack (r - i)).toNat) (r + shift i) :=
    ⟨_, Int.toNat_of_nonneg (Int.le_trans (by omega) (Int.le_max_right _ _))⟩
  refine ⟨r', hr', ?_⟩
  rw [searchRight, if_pos (by omega), hcompare, ok_bind, if_neg (Nat.ne_of_lt hi),
    readPayload_of_eq (k := r - i) (by omega) (by omega), ok_bind, signed_of_lt hbyte,
    readAt_of_eq _ rfl (toNat_lt_of_lt hbyte), ok_bind,
    read_of_lt _ (by simp only [bmMaxHlen]; omega), ok_bind, ← hr']

/-- The search comes to the occurrence, or to an earlier one. -/
theorem searchRight_spec (hw : LowNeedle w) (hu : Unbordered (held w) w.length) {skip : Table}
    (hskip : SkipOk w w.length skip) (hshift : ∀ i < w.length, 0 < shift i ∧ shift i ≤ w.length ∧
      ∀ k, 0 < k → Overlap (held w) w.length k i → shift i ≤ k)
    (hend : EndsAt (held w) (held haystack) w.length p) (hp : p < haystack.length)
    (hlow : LowBytes w haystack p) (hr : w.length ≤ r + 1) (hrp : r ≤ p) (hn : p < r + n) :
    searchRight skip shift (held w) w.length haystack n r = .ok true := by
  induction n generalizing r with
  | zero => omega
  | succ n ih =>
    have hinside : r < haystack.length := lt_of_le_of_lt hrp hp
    obtain ⟨hcompare, -⟩ | ⟨i, hcompare, hagree⟩ :=
      compareRight_spec hw hr hinside (Nat.zero_add w.length)
        (fun j hj => absurd hj (not_lt_zero j))
    · rw [searchRight, if_pos (by omega), hcompare, ok_bind, if_pos rfl]
      rfl
    · obtain hlt | rfl := lt_or_eq_of_le hrp
      · obtain ⟨hspos, hsle, hsnear⟩ := hshift i hagree.lt
        have hi := hagree.lt
        have hsk : (r : ℤ) - i + skip (held haystack (r - i)).toNat ≤ p := by
          refine hend.skip_le hrp (by omega) (hskip.le _) fun q hq hsame => ?_
          rw [← hsame]
          exact hskip.near q hq
        have hsh : (r : ℤ) + shift i ≤ p := hend.shift_le hu hr hlt hagree hsle hsnear
        obtain ⟨r', hr', hnext⟩ := searchRight_next hw skip (n := n) hr hinside hspos
          hcompare hi (hlow r i hr hlt hagree)
        rw [hnext]
        exact ih (by omega) (by omega) (by omega)
      · exact absurd hagree hend.not_agrees

/-- The search ends, and what it finds is there. -/
theorem searchRight_ends (hw : LowNeedle w) (skip : Table) (hshift : ∀ i < w.length, 0 < shift i)
    (hlow : ∀ c ∈ haystack, c < 0x80) (hr : w.length ≤ r + 1) (hn : haystack.length < r + n) :
    searchRight skip shift (held w) w.length haystack n r = .ok false ∨
      ∃ p < haystack.length, EndsAt (held w) (held haystack) w.length p := by
  induction n generalizing r with
  | zero => exact .inl (if_neg (by omega))
  | succ n ih =>
    by_cases hinside : r < haystack.length
    · obtain ⟨-, hend⟩ | ⟨i, hcompare, hagree⟩ :=
        compareRight_spec hw hr hinside (Nat.zero_add w.length)
          (fun j hj => absurd hj (not_lt_zero j))
      · exact .inr ⟨r, hinside, hend⟩
      · have hpos := hshift i hagree.lt
        obtain ⟨r', hr', hnext⟩ := searchRight_next hw skip (n := n) hr hinside hpos
          hcompare hagree.lt (hlow _ (held_mem (by omega)))
        rw [hnext]
        exact ih (by omega) (by omega)
    · exact .inl (if_neg (by omega))

theorem searchSublinear_spec (hw : LowNeedle w) (hr : Regular (held w) w.length)
    (hend : EndsAt (held w) (held haystack) w.length p) (hp : p < haystack.length)
    (hlow : LowBytes w haystack p) :
    searchSublinear (held w) w.length haystack = .ok true := by
  have hpos := hw.pos
  obtain ⟨skip, len, shift, shift', hskip, hlen, hshift, hends, hskipOk, hjump⟩ := tables_spec hw hr
  have hfirst : (w.length : ℤ) - 1 = ((w.length - 1 : ℕ) : ℤ) := by omega
  have hle := hend.1
  simp only [searchSublinear, hskip, hlen, hshift, hends, ok_bind]
  rw [hfirst]
  exact searchRight_spec hw hr.unbordered hskipOk hjump hend hp hlow (by omega) (by omega)
    (by omega)

theorem endsAt_append (before behind : List Byte) :
    EndsAt (held w) (held (before ++ w ++ behind)) w.length (before.length + w.length - 1) := by
  refine ⟨by omega, fun j hj => ?_⟩
  have hpos : before.length + w.length - 1 - j = before.length + (w.length - 1 - j) := by omega
  rw [hpos, List.append_assoc, held_append_right _ (Nat.le_add_right _ _), Nat.add_sub_cancel_left,
    held_append_left _ (by omega)]

theorem lowBytes_of_forall (h : ∀ c ∈ haystack, c < 0x80) (hp : p ≤ haystack.length) :
    LowBytes w haystack p := by
  intro r i _ hrp _
  exact h _ (held_mem (by omega))

theorem linearFrom_spec {t : ℕ} (ht : t ≤ p) (hn : p < t + n)
    (hp : (haystack.drop p).take w.length = w) : (linearFrom w haystack n t).isSome := by
  induction n generalizing t with
  | zero => omega
  | succ n ih =>
    rw [linearFrom]
    split
    · rfl
    · next hother =>
      refine ih (lt_of_le_of_ne ht ?_) (by omega)
      rintro rfl
      exact hother hp

theorem searchLinear_spec (before behind : List Byte) :
    (searchLinear w (before ++ w ++ behind)).isSome := by
  refine linearFrom_spec (p := before.length) (zero_le _) ?_ ?_
  · simp only [List.length_append]
    omega
  · rw [List.append_assoc, List.drop_left, List.take_left]

theorem linearFrom_sound {t : ℕ} (h : (linearFrom w haystack n t).isSome) : w <:+: haystack := by
  induction n generalizing t with
  | zero => cases h
  | succ n ih =>
    rw [linearFrom] at h
    split at h
    · next hfound =>
      rw [← hfound]
      exact (List.take_prefix _ _).isInfix.trans (List.drop_suffix _ _).isInfix
    · exact ih h

theorem searchLinear_iff : (searchLinear w haystack).isSome ↔ w <:+: haystack := by
  constructor
  · exact linearFrom_sound
  · rintro ⟨before, behind, rfl⟩
    exact searchLinear_spec before behind

theorem infix_of_endsAt (h : EndsAt (held w) (held haystack) w.length p)
    (hp : p < haystack.length) : w <:+: haystack := by
  have hle := h.1
  have hsame : (haystack.drop (p + 1 - w.length)).take w.length = w := by
    apply List.ext_getElem
    · simp only [List.length_take, List.length_drop]
      omega
    · intro j hj hjw
      have hat := h.2 (w.length - 1 - j) (by omega)
      rw [show p - (w.length - 1 - j) = p + 1 - w.length + j by omega,
        show w.length - 1 - (w.length - 1 - j) = j by omega] at hat
      simpa [held, List.getElem_take, List.getElem_drop,
        List.getElem?_eq_getElem (show p + 1 - w.length + j < haystack.length by omega),
        List.getElem?_eq_getElem hjw] using hat
  rw [← hsame]
  exact (List.take_prefix _ _).isInfix.trans (List.drop_suffix _ _).isInfix

/-- For a regular needle, and as long as no byte is above `0x7f`, the search with the tables finds
the needle exactly if the plain search does. -/
theorem searchSublinear_eq (w haystack : List Byte) (hw : LowNeedle w)
    (hr : Regular (held w) w.length) (hlow : ∀ c ∈ haystack, c < 0x80) :
    searchSublinear (held w) w.length haystack = .ok (searchLinear w haystack).isSome := by
  have hpos := hw.pos
  by_cases hin : w <:+: haystack
  · rw [searchLinear_iff.mpr hin]
    obtain ⟨before, behind, rfl⟩ := hin
    have hinside : before.length + w.length - 1 < (before ++ w ++ behind).length := by
      simp only [List.length_append]
      omega
    exact searchSublinear_spec hw hr (endsAt_append before behind) hinside
      (lowBytes_of_forall hlow hinside.le)
  · rw [Bool.eq_false_iff.mpr (mt searchLinear_iff.mp hin)]
    obtain ⟨skip, len, shift, shift', hskip, hlen, hshift, hends, -, hjump⟩ := tables_spec hw hr
    have hfirst : (w.length : ℤ) - 1 = ((w.length - 1 : ℕ) : ℤ) := by omega
    simp only [searchSublinear, hskip, hlen, hshift, hends, ok_bind]
    rw [hfirst]
    obtain hfalse | ⟨p, hp, hend⟩ := searchRight_ends hw skip (n := haystack.length + 1)
      (r := w.length - 1) (fun i hi => (hjump i hi).1) hlow (by omega) (by omega)
    · exact hfalse
    · exact absurd (infix_of_endsAt hend hp) hin

/-- A pattern of two letters. -/
theorem searchSublinear_eq_ab :
    searchSublinear (held [0x61, 0x62]) 2 [0x63, 0x61, 0x61, 0x62] = .ok true :=
  searchSublinear_eq [0x61, 0x62] _ ⟨by decide, by decide, by simp⟩ (by decide) (by simp)

end Wbr1310.IptString
