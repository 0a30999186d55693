import Wbr1310.Lib.Buffer
import Wbr1310.Lib.Memory

/-!
# Strings of bytes

The functions of the C library on strings, for strings that stand in a block of bytes. A string
begins at a position of the block and ends before the next zero.
-/

namespace Wbr1310.Lib

open List Nat

/-- Bytes: a string without its end mark, or a block with strings in it. -/
abbrev Bytes := List UInt8

namespace Bytes

/-- The bytes of characters. -/
def ascii (s : List Char) : Bytes := s.map fun c => UInt8.ofNat c.toNat

section

variable (b : Bytes) (p : ℕ) (c : UInt8)

def toLower : UInt8 := if 65 ≤ c ∧ c ≤ 90 then c + 32 else c

def lower (s : Bytes) : Bytes := s.map toLower

/-- `strcasecmp` finds no difference. -/
def EqIgnoreCase (s t : Bytes) : Prop := lower s = lower t

instance (s t : Bytes) : Decidable (EqIgnoreCase s t) := inferInstanceAs (Decidable (_ = _))

/-- `strncasecmp` finds no difference up to the length of `p`. -/
def BeginsIgnoreCase (p s : Bytes) : Prop := lower p <+: lower s

instance (p s : Bytes) : Decidable (BeginsIgnoreCase p s) := inferInstanceAs (Decidable (_ <+: _))

def isSpace : Bool := c = 32 || (9 ≤ c && c ≤ 13)

def isDigit : Bool := 48 ≤ c && c ≤ 57

def isXDigit : Bool := isDigit c || (65 ≤ c && c ≤ 70) || (97 ≤ c && c ≤ 102)

/-- The digits of a number. -/
def ofDigits (s : Bytes) : ℕ := s.foldl (fun n c => 10 * n + (c.toNat - 48)) 0

/-- The number at the beginning of a string, as `strtol` and `strtoul` find it, and what follows
it; nothing if there is no digit. -/
def number (s : Bytes) : Option (ℤ × Bytes) :=
  let unsigned (s : Bytes) : Option (ℕ × Bytes) :=
    if s.takeWhile isDigit = [] then none
    else some (ofDigits (s.takeWhile isDigit), s.dropWhile isDigit)
  match s.dropWhile isSpace with
  | 45 :: t => (unsigned t).map fun n => (-n.1, n.2)
  | 43 :: t => (unsigned t).map fun n => (n.1, n.2)
  | t => (unsigned t).map fun n => (n.1, n.2)

/-- `strtoul` with 32 bits. -/
def strtoul (s : Bytes) : Option (ℕ × Bytes) :=
  (number s).map fun n =>
    (if n.1.natAbs < 2 ^ 32 then (n.1 % 2 ^ 32).toNat else 2 ^ 32 - 1, n.2)

/-- The byte at a position. -/
def byteAt : UInt8 := b.getD p 0

/-- The string at a position. -/
def str : Bytes := Buffer.cut (b.drop p)

def strchr : Option ℕ :=
  ((str b p).findIdx? (· = c)).map (p + ·)

/-- The position behind the bytes `c`. -/
def skip : ℕ := p + ((b.drop p).takeWhile (· = c)).length

def strrchr : Option ℕ :=
  ((str b p).reverse.findIdx? (· = c)).map fun i => p + ((str b p).length - 1 - i)

end

variable {b : Bytes} {p i z q : ℕ} {c : UInt8}

theorem byteAt_of_le (h : b.length ≤ p) : byteAt b p = 0 :=
  getD_eq_default _ _ h

theorem byteAt_set_self (h : p < b.length) (v : UInt8) :
    byteAt (b.set p v) p = v := by
  simp [byteAt, getD_eq_getElem?_getD, h]

theorem byteAt_set_of_ne (h : i ≠ p) (v : UInt8) :
    byteAt (b.set p v) i = byteAt b i := by
  simp [byteAt, getD_eq_getElem?_getD, h.symm]

theorem byteAt_set_zero (b : Bytes) (p : ℕ) : byteAt (b.set p 0) p = 0 := by
  by_cases hp : p < b.length
  · exact byteAt_set_self hp 0
  · exact byteAt_of_le (by rw [length_set]; omega)

theorem byteAt_mapIdx {g : ℕ → UInt8 → UInt8} (h : g i (byteAt b i) = byteAt b i) :
    byteAt (b.mapIdx g) i = byteAt b i := by
  simp only [byteAt, getD_eq_getElem?_getD, getElem?_mapIdx] at h ⊢
  cases hi : b[i]? with
  | none => rfl
  | some c =>
    rw [hi] at h
    exact h

theorem str_eq (b : Bytes) (p : ℕ) :
    str b p = if byteAt b p = 0 then [] else byteAt b p :: str b (p + 1) := by
  by_cases hp : p < b.length
  · have hdrop : b.drop p = byteAt b p :: b.drop (p + 1) := by
      rw [byteAt, getD_eq_getElem _ _ hp]
      exact drop_eq_getElem_cons hp
    rw [str, hdrop, Buffer.cut]
    split
    · next hz => rw [takeWhile_cons_of_neg (by simpa using hz)]
    · next hz =>
      rw [takeWhile_cons_of_pos (by simpa using hz)]
      rfl
  · rw [if_pos (byteAt_of_le (not_lt.mp hp)), str, drop_eq_nil_of_le (not_lt.mp hp)]
    rfl

theorem str_of_zero (h : byteAt b p = 0) : str b p = [] := by
  rw [str_eq, if_pos h]

theorem byteAt_str (b : Bytes) (p : ℕ) :
    (∀ i, (hi : i < (str b p).length) → byteAt b (p + i) = (str b p)[i] ∧ byteAt b (p + i) ≠ 0) ∧
      byteAt b (p + (str b p).length) = 0 := by
  induction hn : b.length - p generalizing p with
  | zero =>
    have hz := byteAt_of_le (b := b) (p := p) (by omega)
    rw [str_of_zero hz]
    exact ⟨fun i hi => absurd hi (not_lt_zero i), hz⟩
  | succ n ih =>
    rw [str_eq]
    split
    · next hz => exact ⟨fun i hi => absurd hi (not_lt_zero i), hz⟩
    · next hz =>
      obtain ⟨hbytes, hend⟩ := ih (p + 1) (by omega)
      constructor
      · intro i hi
        cases i with
        | zero => exact ⟨rfl, hz⟩
        | succ i =>
          rw [length_cons] at hi
          have hrest := hbytes i (by omega)
          rwa [Nat.add_right_comm] at hrest
      · rwa [length_cons, ← Nat.add_assoc, Nat.add_right_comm]

theorem str_length_le (hz : byteAt b z = 0) (hp : p ≤ z) :
    p + (str b p).length ≤ z := by
  by_contra h
  have hbyte := ((byteAt_str b p).1 (z - p) (by omega)).2
  rw [Nat.add_sub_cancel' hp] at hbyte
  exact hbyte hz

theorem str_congr {b' : Bytes} (hp : p ≤ z) (hz : byteAt b z = 0)
    (h : ∀ i, p ≤ i → i ≤ z → byteAt b' i = byteAt b i) : str b' p = str b p := by
  induction hn : z - p generalizing p with
  | zero =>
    obtain rfl : p = z := by omega
    rw [str_of_zero hz, str_of_zero ((h p le_rfl le_rfl).trans hz)]
  | succ n ih =>
    rw [str_eq b', str_eq b, h p le_rfl hp,
      ih (by omega) (fun i hi hiz => h i (by omega) hiz) (by omega)]

theorem skip_le (hz : byteAt b z ≠ c) (hp : p ≤ z) :
    skip b p c ≤ z := by
  by_contra hlt
  have hin : z - p < ((b.drop p).takeWhile (· = c)).length := by
    rw [skip] at hlt
    omega
  have hfront : (b.drop p).takeWhile (· = c) <+: b.drop p := takeWhile_prefix _
  have hlen := hfront.length_le
  have hget : ((b.drop p).takeWhile (· = c))[z - p] = byteAt b z := by
    rw [length_drop] at hlen
    rw [hfront.getElem hin, getElem_drop, byteAt,
      getD_eq_getElem _ _ (by omega)]
    congr 1
    omega
  have hc := mem_takeWhile_imp (getElem_mem hin)
  rw [hget] at hc
  exact hz (by simpa using hc)

theorem strchr_spec (h : strchr b p c = some q) :
    p ≤ q ∧ q < p + (str b p).length ∧ byteAt b q = c := by
  obtain ⟨i, hi, rfl⟩ := Option.map_eq_some_iff.mp h
  obtain ⟨hlt, hc, -⟩ := findIdx?_eq_some_iff_getElem.mp hi
  refine ⟨le_add_right p i, by omega, ?_⟩
  rw [((byteAt_str b p).1 i hlt).1]
  simpa using hc

theorem strrchr_spec (h : strrchr b p c = some q) :
    p ≤ q ∧ q < p + (str b p).length ∧ byteAt b q = c := by
  obtain ⟨i, hi, rfl⟩ := Option.map_eq_some_iff.mp h
  obtain ⟨hlt, hc, -⟩ := findIdx?_eq_some_iff_getElem.mp hi
  rw [length_reverse] at hlt
  refine ⟨le_add_right p _, by omega, ?_⟩
  rw [((byteAt_str b p).1 ((str b p).length - 1 - i) (by omega)).1]
  rw [getElem_reverse] at hc
  simpa using hc

section Append

variable (front back : Bytes) (s : Bytes) (c d : UInt8)

theorem byteAt_append : byteAt (front ++ c :: back) front.length = c := by
  simp [byteAt, getD_eq_getElem?_getD]

theorem set_append : (front ++ c :: back).set front.length d = front ++ d :: back := by
  rw [set_append_right _ _ le_rfl, Nat.sub_self, set_cons_zero]

variable {s}

theorem str_append (hs : 0 ∉ s) : str (front ++ (s ++ 0 :: back)) front.length = s := by
  rw [str, drop_left, Buffer.cut, takeWhile_append_of_pos, takeWhile_cons_of_neg,
    append_nil]
  · simp
  · intro x hx
    refine decide_eq_true ?_
    rintro rfl
    exact hs hx

section

variable {xs : Bytes} {k : ℕ} (hk : xs.length = k)
include hk

theorem byteAt_append_append : byteAt (front ++ (xs ++ c :: back)) (front.length + k) = c := by
  rw [← append_assoc, ← hk, ← length_append]
  exact byteAt_append (front ++ xs) back c

theorem set_append_append : (front ++ (xs ++ c :: back)).set (front.length + k) d =
    front ++ (xs ++ d :: back) := by
  rw [← append_assoc, ← hk, ← length_append, set_append, append_assoc]

theorem str_append_append (hs : 0 ∉ s) :
    str (front ++ (xs ++ (s ++ 0 :: back))) (front.length + k) = s := by
  rw [← append_assoc, ← hk, ← length_append]
  exact str_append (front ++ xs) back hs

end

variable {c}

theorem strchr_append {t : Bytes} (hs : 0 ∉ s ++ c :: t) (hc : c ∉ s) :
    strchr (front ++ (s ++ c :: (t ++ 0 :: back))) front.length c =
      some (front.length + s.length) := by
  have hassoc : s ++ c :: (t ++ 0 :: back) = (s ++ c :: t) ++ 0 :: back := by simp
  have hfirst : s.findIdx? (· = c) = none := by
    refine findIdx?_eq_none_iff.mpr fun x hx => decide_eq_false ?_
    rintro rfl
    exact hc hx
  rw [strchr, hassoc, str_append _ _ hs, findIdx?_append, hfirst, findIdx?_cons]
  simp

end Append

theorem prefix_of_byteAt {p : Bytes} {l : ℕ} (hlen : l + p.length ≤ b.length)
    (h : ∀ i, (hi : i < p.length) → byteAt b (l + i) = p[i]) : p <+: b.drop l := by
  refine ⟨b.drop (l + p.length), ?_⟩
  have htake : (b.drop l).take p.length = p := by
    refine ext_getElem (by rw [length_take, length_drop]; omega) fun i h₁ h₂ => ?_
    rw [getElem_take, getElem_drop, ← h i h₂, byteAt, getD_eq_getElem _ _ (by omega)]
  rw [← drop_drop]
  nth_rewrite 1 [← htake]
  exact take_append_drop _ _

theorem byteAt_of_prefix {p : Bytes} {l : ℕ} (h : p <+: b.drop l) (hi : i < p.length) :
    byteAt b (l + i) = p[i] := by
  have hlen := h.length_le
  rw [length_drop] at hlen
  rw [h.getElem hi, getElem_drop, byteAt, getD_eq_getElem _ _ (by omega)]

theorem str_set_strchr (h : strchr b p c = some q) :
    str (b.set q 0) p ++ [c] <+: b.drop p := by
  obtain ⟨i, hi, rfl⟩ := Option.map_eq_some_iff.mp h
  obtain ⟨hlt, hc, -⟩ := findIdx?_eq_some_iff_getElem.mp hi
  obtain ⟨rest, hrest⟩ : str b p <+: b.drop p := takeWhile_prefix _
  have hlen : p + i < b.length := by
    have hdrop := congrArg length hrest
    rw [length_append, length_drop] at hdrop
    omega
  have hsplit : str b p = (str b p).take i ++ c :: (str b p).drop (i + 1) := by
    have hget : (str b p)[i] = c := by simpa using hc
    rw [← hget, getElem_cons_drop, take_append_drop]
  have hfront : (b.take p).length = p := by
    rw [length_take]
    omega
  have hb : b = (b.take p ++ (str b p).take i) ++ c :: ((str b p).drop (i + 1) ++ rest) := by
    rw [append_assoc, ← cons_append, ← append_assoc ((str b p).take i), ← hsplit,
      hrest, take_append_drop]
  have hpos : p + i = (b.take p ++ (str b p).take i).length := by
    rw [length_append, hfront, length_take]
    omega
  have hstr : str (b.set (p + i) 0) p = (str b p).take i := by
    have hset : b.set (p + i) 0 =
        b.take p ++ ((str b p).take i ++ 0 :: ((str b p).drop (i + 1) ++ rest)) := by
      nth_rewrite 1 [hb]
      rw [hpos, set_append, append_assoc]
    have hzero : 0 ∉ (str b p).take i := by
      intro hmem
      exact absurd (mem_takeWhile_imp (mem_of_mem_take hmem)) (by decide)
    have hcut := str_append (b.take p) ((str b p).drop (i + 1) ++ rest) hzero
    rw [hfront] at hcut
    rw [hset, hcut]
  rw [hstr, ← hrest]
  refine List.IsPrefix.trans ?_ (prefix_append _ _)
  exact ⟨(str b p).drop (i + 1), by rw [append_assoc, singleton_append, ← hsplit]⟩

theorem cut_bytes_of_zero {mem : ℤ → UInt8} {i : ℤ} {a n : ℕ} (hz : mem (i + a) = 0)
    (ha : a < n) : Buffer.cut (bytes mem i n) = Buffer.cut (bytes mem i a) := by
  obtain ⟨m, rfl⟩ : ∃ m, n = a + (m + 1) := ⟨n - a - 1, by omega⟩
  rw [bytes_add, bytes, hz, Buffer.cut, Buffer.cut, takeWhile_append]
  split
  · next hall =>
    rw [takeWhile_cons_of_neg (by decide), append_nil]
    have hfront := takeWhile_prefix (l := bytes mem i a) (· ≠ 0)
    exact (hfront.eq_of_length hall).symm
  · rfl

theorem cut_bytes_eq_str {mem : ℤ → UInt8} {n : ℕ} (hi : i ≤ z) (hz : byteAt b z = 0)
    (hn : z < i + n) (h : ∀ k : ℕ, i ≤ k → k ≤ z → mem k = byteAt b k) :
    Buffer.cut (bytes mem i n) = str b i := by
  induction n generalizing i with
  | zero => omega
  | succ n ih =>
    rw [bytes, str_eq, h i le_rfl hi, Buffer.cut]
    split
    · next hzero => rw [hzero, takeWhile_cons_of_neg (by decide)]
    · next hne =>
      have hiz : i ≠ z := by
        rintro rfl
        exact hne hz
      rw [takeWhile_cons_of_pos (by simpa using hne)]
      have hrest := ih (i := i + 1) (by omega) (by omega) fun k hk hkz => h k (by omega) hkz
      rw [Buffer.cut, cast_succ] at hrest
      rw [hrest]

/-- The bytes outside of a range are as before, and no zero was overwritten. -/
structure Within (l u : ℕ) (b b' : Bytes) : Prop where
  length : b'.length = b.length
  outside : ∀ i, i < l ∨ u ≤ i → byteAt b' i = byteAt b i
  zero : ∀ i, byteAt b i = 0 → byteAt b' i = 0

namespace Within

variable {l l' u u' : ℕ} {b b' b'' : Bytes}

theorem refl (l u : ℕ) (b : Bytes) : Within l u b b :=
  ⟨rfl, fun _ _ => rfl, fun _ h => h⟩

theorem trans (h : Within l u b b') (h' : Within l u b' b'') : Within l u b b'' where
  length := h'.length.trans h.length
  outside i hi := (h'.outside i hi).trans (h.outside i hi)
  zero i hi := h'.zero i (h.zero i hi)

theorem mono (h : Within l u b b') (hl : l' ≤ l) (hu : u ≤ u') : Within l' u' b b' where
  length := h.length
  outside i hi := h.outside i (by omega)
  zero := h.zero

theorem drop_eq (h : Within l u b b') : b'.drop u = b.drop u := by
  refine ext_getElem (by rw [length_drop, length_drop, h.length]) fun i h₁ h₂ => ?_
  have hbyte := h.outside (u + i) (.inr (le_add_right u i))
  rw [length_drop] at h₁ h₂
  rw [byteAt, byteAt, getD_eq_getElem _ _ (by omega), getD_eq_getElem _ _ (by omega)]
    at hbyte
  rw [getElem_drop, getElem_drop, hbyte]

theorem set (b : Bytes) {p : ℕ} (v : UInt8) (hp : l ≤ p ∧ p < u) (hv : v = 0 ∨ byteAt b p ≠ 0) :
    Within l u b (b.set p v) where
  length := List.length_set
  outside i hi := byteAt_set_of_ne (by omega) v
  zero i hi := by
    by_cases heq : i = p
    · rcases hv with rfl | hne
      · rw [heq]
        exact byteAt_set_zero b p
      · exact absurd (heq ▸ hi) hne
    · rwa [byteAt_set_of_ne heq]

end Within

end Bytes

end Wbr1310.Lib
