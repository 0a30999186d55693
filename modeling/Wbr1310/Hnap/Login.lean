import Wbr1310.Httpd.Login

/-!
# The login of the network administration protocol

`Decode64` and `check_realm` of `hnap.c`, and their agreement with the login of the web
server.
-/

namespace Wbr1310.Hnap

open Lib List Nat

def defOutlen : ℕ := 128

/-- Sixteen places of `map64` that hold no digit. -/
def noDigits : List ℤ := List.replicate 16 (-1)

def map64 : List ℤ :=
  noDigits ++
  [-1, -1, -1, -1, -1, -1, -1, -1, -1, -1, -1, 62, -1, -1, -1, 63] ++
  noDigits ++
  [52, 53, 54, 55, 56, 57, 58, 59, 60, 61, -1, -1, -1, -1, -1, -1] ++
  [-1, 0, 1, 2, 3, 4, 5, 6, 7, 8, 9, 10, 11, 12, 13, 14] ++
  [15, 16, 17, 18, 19, 20, 21, 22, 23, 24, 25, -1, -1, -1, -1, -1] ++
  [-1, 26, 27, 28, 29, 30, 31, 32, 33, 34, 35, 36, 37, 38, 39, 40] ++
  [41, 42, 43, 44, 45, 46, 47, 48, 49, 50, 51, -1, -1, -1, -1, -1] ++
  (List.replicate 12 noDigits).flatten

def mapEntry (c : UInt8) : ℤ := map64.getD c.toNat (-1)

/-- The inner loop of `Decode64` with `n` rounds left: at most `n` digits are shifted into
`shiftbuf`. It returns how many there were, `shiftbuf` and the rest of the string. -/
def shiftIn : ℕ → ℕ → List UInt8 → Option (ℕ × ℕ × List UInt8)
  | 0, shiftbuf, cp => some (0, shiftbuf, cp)
  | _ + 1, shiftbuf, [] => some (0, shiftbuf, [])
  | n + 1, shiftbuf, ch :: cp =>
    if ch = Base64.pad then some (0, shiftbuf, ch :: cp)
    else
      let c := mapEntry ch
      if c = -1 then none
      else (shiftIn n (shiftbuf ||| c.toNat <<< (6 * n)) cp).map fun (i, rest) => (i + 1, rest)

/-- The bytes of `shiftbuf` that are written. -/
def shiftOut (shiftbuf i : ℕ) : List UInt8 :=
  (List.range i).map fun j => UInt8.ofNat (shiftbuf >>> (8 * (2 - j)) &&& 0xff)

/-- The outer loop of `Decode64` in at most `fuel` rounds, with what was written so far. -/
def decode64From (outlen : ℕ) : ℕ → List UInt8 → List UInt8 → Option (List UInt8)
  | 0, _, _ => none
  | fuel + 1, out, cp =>
    if cp = [] ∨ cp.head? = some Base64.pad then some out
    else match shiftIn 4 0 cp with
      | none => none
      | some (i, shiftbuf, rest) =>
        if out.length + (i - 1) ≥ outlen then none
        else decode64From outlen fuel (out ++ shiftOut shiftbuf (i - 1)) rest

/-- `Decode64`: what is written to `outbuf`, if there is no error. -/
def decode64 (outlen : ℕ) (string : List UInt8) : Option (List UInt8) :=
  decode64From outlen (string.length + 1) [] string

/-- `check_realm`: the header is accepted; the password file cannot be opened or has some
content. -/
def checkRealm (userfile : Option (List UInt8)) (auth : List UInt8) : Bool :=
  match Httpd.basicCredential auth with
  | none => false
  | some a => match decode64 defOutlen a, userfile with
    | some out, some file => match Httpd.splitColon (Buffer.cut out) with
      | none => false
      | some (str, q) => Httpd.searchUserfile (fun buf p => str = buf && p = q) [] false file
    | _, _ => false

theorem mapEntry_digit {n : ℕ} (h : n < 62) : mapEntry (Base64.digit n) = n := by
  have hall : ∀ n : Fin 62, mapEntry (Base64.digit n) = n := by decide
  exact hall ⟨n, h⟩

variable {ds : List ℕ} {rest : List UInt8}

/-- The inner loop takes the digits up to its last round or to the first `=`. -/
theorem shiftIn_digits {n : ℕ} (x : ℕ) (hds : ∀ d ∈ ds, d < 62) (hn : ds.length ≤ n)
    (hend : ds.length = n ∨ rest.head? = some Base64.pad) :
    shiftIn n (x <<< (6 * n)) (ds.map Base64.digit ++ rest) =
      some (ds.length, Base64.value x ds <<< (6 * (n - ds.length)), rest) := by
  induction ds generalizing n x with
  | nil =>
    cases n with
    | zero => rfl
    | succ n =>
      have hpad : rest.head? = some Base64.pad := hend.resolve_left (by simp)
      cases rest with
      | nil => cases hpad
      | cons ch rest =>
        obtain rfl : ch = Base64.pad := Option.some.inj hpad
        rw [map_nil, nil_append, shiftIn, if_pos rfl]
        rfl
  | cons d ds ih =>
    cases n with
    | zero => exact absurd hn (by simp)
    | succ n =>
      have hd : d < 62 := hds d mem_cons_self
      have hentry : mapEntry (Base64.digit d) ≠ -1 := by
        rw [mapEntry_digit hd]
        omega
      have hrest := ih (x * 64 + d) (fun e he => hds e (mem_cons_of_mem d he))
        (le_of_succ_le_succ hn) (hend.imp_left succ.inj)
      rw [map_cons, cons_append, shiftIn,
        if_neg (Base64.digit_ne_pad (by omega)), if_neg hentry, mapEntry_digit hd,
        Int.toNat_natCast,
        Base64.shift_or_digit x n (by omega), hrest, Option.map_some, length_cons,
        Nat.add_sub_add_right]
      rfl

theorem shiftOut_word (a b c : UInt8) {i : ℕ} (h : i ≤ 3) :
    shiftOut (Base64.word a b c) i = [a, b, c].take i := by
  obtain ⟨h0, h1, h2⟩ := Base64.word_bytes a b c
  have hall : shiftOut (Base64.word a b c) 3 = [a, b, c] := by
    change [UInt8.ofNat (Base64.word a b c >>> 16 &&& 0xff),
      UInt8.ofNat (Base64.word a b c >>> 8 &&& 0xff),
      UInt8.ofNat (Base64.word a b c >>> 0 &&& 0xff)] = [a, b, c]
    rw [h0, h1, h2, UInt8.ofNat_toNat, UInt8.ofNat_toNat, UInt8.ofNat_toNat]
  rw [← hall, shiftOut, shiftOut, ← map_take, take_range, min_eq_left h]

/-- A round of the outer loop for the digits of `i` bytes. -/
theorem decode64From_group {outlen fuel i : ℕ} {a b c : UInt8} {out : List UInt8} (hne : ds ≠ [])
    (hds : ∀ d ∈ ds, d < 62) (hn : ds.length ≤ 4)
    (hend : ds.length = 4 ∨ rest.head? = some Base64.pad)
    (hword : Base64.value 0 ds <<< (6 * (4 - ds.length)) = Base64.word a b c)
    (hi : ds.length - 1 = i) (hfits : out.length + i < outlen) :
    decode64From outlen (fuel + 1) out (ds.map Base64.digit ++ rest) =
      decode64From outlen fuel (out ++ [a, b, c].take i) rest := by
  have hgroup := shiftIn_digits 0 hds hn hend
  rw [zero_shiftLeft, hword] at hgroup
  obtain ⟨d, ds, rfl⟩ := exists_cons_of_ne_nil hne
  have hd : Base64.digit d ≠ Base64.pad :=
    Base64.digit_ne_pad (lt_trans (hds d mem_cons_self) (by decide))
  have hgoes : ¬ ((d :: ds).map Base64.digit ++ rest = [] ∨
      ((d :: ds).map Base64.digit ++ rest).head? = some Base64.pad) := by
    rintro (hnil | hpad)
    · cases hnil
    · exact hd (Option.some.inj hpad)
  rw [decode64From, if_neg hgoes, hgroup]
  simp only [hi]
  rw [if_neg (by omega), shiftOut_word a b c (by omega)]

theorem decode64From_pad (outlen fuel : ℕ) (out rest : List UInt8) :
    decode64From outlen (fuel + 1) out (Base64.pad :: rest) = some out := by
  rw [decode64From, if_pos (.inr rfl)]

theorem digits_lt (hds : ∀ d ∈ ds, d < 64)
    (h : ∀ c ∈ ds.map Base64.digit ++ rest, c ≠ 43 ∧ c ≠ 47) : ∀ d ∈ ds, d < 62 := by
  intro d hd
  obtain ⟨hplus, hslash⟩ := h (Base64.digit d)
    (mem_append_left _ (mem_map_of_mem hd))
  exact Base64.lt_of_digit_ne (hds d hd) hplus hslash

/-- `Decode64` reads back what was encoded without `+` and `/`. -/
theorem decode64From_encode {outlen fuel : ℕ} {out bs : List UInt8}
    (hfuel : (Base64.encode bs).length < fuel) (hfits : out.length + bs.length < outlen)
    (hdigits : ∀ c ∈ Base64.encode bs, c ≠ 43 ∧ c ≠ 47) :
    decode64From outlen fuel out (Base64.encode bs) = some (out ++ bs) := by
  induction bs using Base64.encode.induct generalizing fuel out with
  | case1 =>
    obtain ⟨fuel, rfl⟩ := Nat.exists_eq_succ_of_ne_zero (Nat.ne_zero_of_lt hfuel)
    rw [Base64.encode, decode64From, if_pos (.inl rfl), append_nil]
  | case2 a =>
    obtain ⟨fuel, rfl⟩ : ∃ k, fuel = k + 2 := ⟨fuel - 2, by simp [Base64.encode] at hfuel; omega⟩
    have hds : ∀ d ∈ [Base64.sextet0 a, Base64.sextet1 a 0], d < 64 := by
      simp [Base64.sextet0_lt, Base64.sextet1_lt]
    refine (decode64From_group (by simp) (digits_lt hds hdigits) (by simp) (.inr rfl)
      (Base64.value_one a) rfl hfits).trans ?_
    exact decode64From_pad _ _ _ _
  | case3 a b =>
    obtain ⟨fuel, rfl⟩ : ∃ k, fuel = k + 2 := ⟨fuel - 2, by simp [Base64.encode] at hfuel; omega⟩
    have hds : ∀ d ∈ [Base64.sextet0 a, Base64.sextet1 a b, Base64.sextet2 b 0], d < 64 := by
      simp [Base64.sextet0_lt, Base64.sextet1_lt, Base64.sextet2_lt]
    refine (decode64From_group (by simp) (digits_lt hds hdigits) (by simp) (.inr rfl)
      (Base64.value_two a b) rfl hfits).trans ?_
    exact decode64From_pad _ _ _ _
  | case4 a b c bs ih =>
    rw [Base64.encode, length_cons] at hfuel
    obtain ⟨fuel, rfl⟩ : ∃ k, fuel = k + 1 := ⟨fuel - 1, by omega⟩
    have hds : ∀ d ∈ [Base64.sextet0 a, Base64.sextet1 a b, Base64.sextet2 b c,
        Base64.sextet3 c], d < 64 := by
      simp [Base64.sextet0_lt, Base64.sextet1_lt, Base64.sextet2_lt, Base64.sextet3_lt]
    simp only [length_cons] at hfits hfuel
    have hgroup : out.length + 3 < outlen := by omega
    have hrest : ∀ d ∈ Base64.encode bs, d ≠ 43 ∧ d ≠ 47 := fun d hd =>
      hdigits d (by simp [Base64.encode, hd])
    have hout : (out ++ [a, b, c]).length + bs.length < outlen := by
      simp only [length_append, length_cons, length_nil]
      omega
    refine (decode64From_group (by simp) (digits_lt hds hdigits) (by simp) (.inl rfl)
      (Base64.value_three a b c) rfl hgroup).trans ?_
    refine (ih (by omega) hout hrest).trans ?_
    rw [append_assoc]
    rfl

def basicHeader (user password : List UInt8) : List UInt8 :=
  [66, 97, 115, 105, 99, 32] ++ Base64.encode (user ++ 58 :: password)

/-- Both servers decode the credential of a user to the name and the password, and both accept
it or both refuse it. -/
def LoginsAgree (crypt : List UInt8 → List UInt8 → Option (List UInt8))
    (userfile : Option (List UInt8)) (user password : List UInt8) : Prop :=
  let credential := Base64.encode (user ++ 58 :: password)
  decode64 defOutlen credential = some (user ++ 58 :: password) ∧
    Httpd.base64decode credential = some (user ++ 58 :: password) ∧
    checkRealm userfile (basicHeader user password) =
      Httpd.basicLogin crypt false userfile (basicHeader user password)

theorem basicCredential_basicHeader (user password : List UInt8) :
    Httpd.basicCredential (basicHeader user password) =
      some (Base64.encode (user ++ 58 :: password)) := by
  obtain ⟨n, hn, rest, hencode⟩ :=
    Base64.exists_digit_encode (show user ++ 58 :: password ≠ [] by simp)
  have hblank : ∀ n : Fin 64, Base64.digit n ≠ 32 := by decide
  have hskip : (Base64.digit n :: rest).dropWhile (· = 32) = Base64.digit n :: rest :=
    dropWhile_cons_of_neg fun h => hblank ⟨n, hn⟩ (of_decide_eq_true h)
  rw [basicHeader, hencode]
  exact congrArg some hskip

/-- The servers agree on every credential without `+` and `/` whose name and password fit the
request of the web server. -/
theorem loginsAgree_of_short (crypt : List UInt8 → List UInt8 → Option (List UInt8))
    (userfile : Option (List UInt8)) {user password : List UInt8} (huser : ∀ c ∈ user, c ≠ 0)
    (hpassword : ∀ c ∈ password, c ≠ 0) (hcolon : 58 ∉ user)
    (hlength : (Base64.encode (user ++ 58 :: password)).length < 128)
    (hdigits : ∀ c ∈ Base64.encode (user ++ 58 :: password), c ≠ 43 ∧ c ≠ 47)
    (hname : user.length < Httpd.defaultNameSize)
    (hword : password.length < Httpd.defaultNameSize) :
    LoginsAgree crypt userfile user password := by
  have hzero : ∀ c ∈ user ++ 58 :: password, c ≠ 0 := by
    intro c hc
    simp only [mem_append, mem_cons] at hc
    obtain hc | rfl | hc := hc
    · exact huser c hc
    · decide
    · exact hpassword c hc
  have hfits : (user ++ 58 :: password).length < defOutlen := by
    rw [Base64.length_encode] at hlength
    rw [defOutlen]
    omega
  have hhnap : decode64 defOutlen (Base64.encode (user ++ 58 :: password)) =
      some (user ++ 58 :: password) :=
    decode64From_encode (lt_succ_self _) (by rwa [length_nil, zero_add]) hdigits
  refine ⟨hhnap, Httpd.base64decode_encode hzero, ?_⟩
  rw [checkRealm, Httpd.basicLogin, basicCredential_basicHeader]
  cases userfile with
  | none => simp only [hhnap, Httpd.webuserok]
  | some file =>
    simp only [hhnap, Buffer.cut_of_ne_zero hzero, Httpd.splitColon_append hcolon,
      Httpd.webuserok_encode crypt hzero hcolon hlength file,
      decide_eq_true (And.intro hname hword), Bool.true_and]

/-- The user `admin` with an empty password, in a file of one line. -/
theorem loginsAgree_admin :
    LoginsAgree (fun _ _ => none) (some [97, 100, 109, 105, 110, 58, 10]) [97, 100, 109, 105, 110]
      [] :=
  loginsAgree_of_short _ _ (by simp) (by simp) (by decide) (by decide) (by decide +kernel)
    (by decide) (by decide)

instance (crypt : List UInt8 → List UInt8 → Option (List UInt8))
    (userfile : Option (List UInt8)) (user password : List UInt8) :
    Decidable (LoginsAgree crypt userfile user password) :=
  inferInstanceAs (Decidable (_ ∧ _ ∧ _))

/-- The web server refuses a name of 81 characters, which the password file has; the
administration protocol does not decode the `+` in the credential of user `a` with password `>`. -/
theorem not_loginsAgree :
    ¬ LoginsAgree (fun _ _ => none) (some (List.replicate 81 97 ++ [58, 98, 10]))
        (List.replicate 81 97) [98] ∧
      ¬ LoginsAgree (fun _ _ => none) (some [97, 58, 62, 10]) [97] [62] := by
  decide +kernel

end Wbr1310.Hnap
