import Wbr1310.Lib.Base64
import Wbr1310.Lib.Buffer

/-!
# Basic authentication

`base64.c` of the web server: the decoder of credentials and the search for a user in the
password file. Strings are lists of bytes without their end mark. `crypt` is a parameter.
-/

namespace Wbr1310.Httpd

open Lib Nat

/-- The macro `B64`. -/
def b64 (x : UInt8) : ℕ :=
  if 65 ≤ x then
    if x ≤ 90 then x.toNat - 65
    else if 97 ≤ x then if x ≤ 122 then x.toNat - 97 + 26 else 64
    else 64
  else if x ≤ 57 then
    if 48 ≤ x then x.toNat - 48 + 52
    else if x = 43 then 62
    else if x = 47 then 63
    else 64
  else if x = 61 then 0
  else 64

/-- Three bytes are written, up to the first zero, which ends the string. -/
def writeGroup (u1 u2 u3 : UInt8) (rest : Option (List UInt8)) : Option (List UInt8) :=
  if u1 = 0 then some []
  else if u2 = 0 then some [u1]
  else if u3 = 0 then some [u1, u2]
  else rest.map fun decoded => u1 :: u2 :: u3 :: decoded

/-- `base64decode`. A group of less than four characters is an error. -/
def base64decode : List UInt8 → Option (List UInt8)
  | [] => some []
  | c1 :: c2 :: c3 :: c4 :: encoded =>
    if b64 c1 = 64 ∨ b64 c2 = 64 ∨ b64 c3 = 64 ∨ b64 c4 = 64 then none
    else
      let u1 := UInt8.ofNat (b64 c1 <<< 2 ||| b64 c2 >>> 4)
      let u2 := UInt8.ofNat ((b64 c2 &&& 0xf) <<< 4 ||| b64 c3 >>> 2)
      let u3 := UInt8.ofNat ((b64 c3 &&& 0x3) <<< 6 ||| b64 c4)
      writeGroup u1 u2 u3 (base64decode encoded)
  | _ => none

def splitColon (s : List UInt8) : Option (List UInt8 × List UInt8) :=
  if 58 ∈ s then some (s.takeWhile (· ≠ 58), (s.dropWhile (· ≠ 58)).drop 1) else none

/-- A line in `buf` is tested, if it fits and has a colon. -/
def lineOk (ok : List UInt8 → List UInt8 → Bool) (buf : List UInt8) : Bool :=
  if buf.length < 128 then
    match splitColon (Buffer.cut buf) with
    | some (name, p) => ok name p
    | none => false
  else false

/-- A character that does not end the line is put into `buf`; a carriage return waits for the
character behind it. -/
def putChar (buf : List UInt8) (gotcr : Bool) (c : UInt8) : List UInt8 :=
  let buf := if gotcr ∧ buf.length < 128 then buf ++ [13] else buf
  if c ≠ 13 ∧ buf.length < 128 then buf ++ [c] else buf

/-- The loop over the password file: some line is accepted. -/
def searchUserfile (ok : List UInt8 → List UInt8 → Bool) :
    List UInt8 → Bool → List UInt8 → Bool
  | _, _, [] => false
  | buf, gotcr, c :: file =>
    if c = 10 then lineOk ok buf || searchUserfile ok [] false file
    else searchUserfile ok (putChar buf gotcr c) (c = 13) file

section

variable (crypt : List UInt8 → List UInt8 → Option (List UInt8))

def pwok (good guess : List UInt8) (doCrypt : Bool) : Bool :=
  if doCrypt then
    match crypt guess good with
    | some cs => good = cs
    | none => false
  else good = guess

/-- `f_webuserok`: the user name and the password, if they are accepted; without a
file they are not checked. -/
def fWebuserok (authorization : List UInt8) (fp : Option (List UInt8)) (len wdlen : ℕ)
    (doCrypt : Bool) : Option (List UInt8 × List UInt8) :=
  if 128 ≤ authorization.length then none
  else match base64decode authorization with
    | none => none
    | some tmp => match splitColon tmp with
      | none => none
      | some (name, q) =>
        if len ≤ name.length then none
        -- the colon is counted
        else if wdlen < q.length + 1 then none
        else match fp with
          | none => some (name, q)
          | some file =>
            if searchUserfile (fun good p => name = good && pwok crypt p q doCrypt) [] false
                file then some (name, q)
            else none

/-- `DEFAULT_NAME_SIZE`, the size of `user` and `passwd` in a request. -/
def defaultNameSize : ℕ := 81

/-- `webuserok`, with the arguments of `check_realm`; the file cannot be opened or has
some content. -/
def webuserok (authorization : List UInt8) (userfile : Option (List UInt8)) (doCrypt : Bool) :
    Bool :=
  match userfile with
  | none => false
  | some file =>
    (fWebuserok crypt authorization (some file) defaultNameSize defaultNameSize doCrypt).isSome

end

/-- What stands behind `Basic` and blanks in an Authorization header. -/
def basicCredential (auth : List UInt8) : Option (List UInt8) :=
  let lower (c : UInt8) : UInt8 := if 65 ≤ c ∧ c ≤ 90 then c + 32 else c
  if (auth.take 6).map lower = [98, 97, 115, 105, 99, 32] then
    some ((auth.drop 6).dropWhile (· = 32))
  else none

/-- The last part of `check_realm`, without sessions: the header is accepted. -/
def basicLogin (crypt : List UInt8 → List UInt8 → Option (List UInt8)) (doCrypt : Bool)
    (userfile : Option (List UInt8)) (auth : List UInt8) : Bool :=
  match basicCredential auth with
  | none => false
  | some a => webuserok crypt a userfile doCrypt

theorem b64_digit {n : ℕ} (h : n < 64) : b64 (Base64.digit n) = n := by
  have hall : ∀ n : Fin 64, b64 (Base64.digit n) = n := by decide
  exact hall ⟨n, h⟩

theorem base64decode_group (a b c : UInt8) {c3 c4 : UInt8} (h3 : b64 c3 = Base64.sextet2 b c)
    (h4 : b64 c4 = Base64.sextet3 c) (encoded : List UInt8) :
    base64decode (Base64.digit (Base64.sextet0 a) :: Base64.digit (Base64.sextet1 a b) :: c3 ::
      c4 :: encoded) = writeGroup a b c (base64decode encoded) := by
  have h1 := b64_digit (Base64.sextet0_lt a)
  have h2 := b64_digit (Base64.sextet1_lt a b)
  have hvalid : ¬ (Base64.sextet0 a = 64 ∨ Base64.sextet1 a b = 64 ∨ Base64.sextet2 b c = 64 ∨
      Base64.sextet3 c = 64) := by
    have := Base64.sextet0_lt a
    have := Base64.sextet1_lt a b
    have := Base64.sextet2_lt b c
    have := Base64.sextet3_lt c
    omega
  rw [base64decode, h1, h2, h3, h4, if_neg hvalid, Base64.byte0_eq, Base64.byte1_eq,
    Base64.byte2_eq, UInt8.ofNat_toNat, UInt8.ofNat_toNat, UInt8.ofNat_toNat]

theorem base64decode_encode {bs : List UInt8} (h : ∀ b ∈ bs, b ≠ 0) :
    base64decode (Base64.encode bs) = some bs := by
  induction bs using Base64.encode.induct with
  | case1 => rfl
  | case2 a =>
    rw [Base64.encode, base64decode_group a 0 0 rfl rfl, writeGroup,
      if_neg (h a List.mem_cons_self), if_pos rfl]
  | case3 a b =>
    have hb := b64_digit (Base64.sextet2_lt b 0)
    rw [Base64.encode, base64decode_group a b 0 hb rfl, writeGroup,
      if_neg (h a List.mem_cons_self), if_neg (h b (by simp)), if_pos rfl]
  | case4 a b c bs ih =>
    have hc := b64_digit (Base64.sextet2_lt b c)
    have hlast := b64_digit (Base64.sextet3_lt c)
    rw [Base64.encode, base64decode_group a b c hc hlast, writeGroup,
      if_neg (h a List.mem_cons_self), if_neg (h b (by simp)), if_neg (h c (by simp)),
      ih fun d hd => h d (by simp [hd]), Option.map_some]

theorem splitColon_append {name : List UInt8} (h : 58 ∉ name) (q : List UInt8) :
    splitColon (name ++ 58 :: q) = some (name, q) := by
  have hbefore : ∀ c ∈ name, decide (c ≠ 58) = true := fun c hc =>
    decide_eq_true fun hcolon => h (hcolon ▸ hc)
  rw [splitColon, if_pos (by simp), List.takeWhile_append_of_pos hbefore,
    List.dropWhile_append_of_pos hbefore]
  simp

/-- The web server accepts the credential of a user whose name and password fit the request
and stand in a line of the password file. -/
theorem webuserok_encode (crypt : List UInt8 → List UInt8 → Option (List UInt8))
    {user password : List UInt8} (hzero : ∀ c ∈ user ++ 58 :: password, c ≠ 0)
    (hcolon : 58 ∉ user) (hlength : (Base64.encode (user ++ 58 :: password)).length < 128)
    (file : List UInt8) :
    webuserok crypt (Base64.encode (user ++ 58 :: password)) (some file) false =
      (decide (user.length < defaultNameSize ∧ password.length < defaultNameSize) &&
        searchUserfile (fun good p => user = good && p = password) [] false file) := by
  have hplain : (fun good p => decide (user = good) && pwok crypt p password false) =
      fun good p => decide (user = good) && decide (p = password) := rfl
  simp only [webuserok, fWebuserok, if_neg (Nat.not_le_of_lt hlength), base64decode_encode hzero,
    splitColon_append hcolon, hplain]
  obtain hname | hname := lt_or_ge user.length defaultNameSize
  · obtain hword | hword := lt_or_ge password.length defaultNameSize
    · rw [if_neg (Nat.not_le_of_lt hname), if_neg (Nat.not_lt_of_le hword),
        decide_eq_true (And.intro hname hword), Bool.true_and]
      split
      · next hfound => rw [hfound, Option.isSome_some]
      · next hfound => rw [Bool.eq_false_of_not_eq_true hfound, Option.isSome_none]
    · rw [if_neg (Nat.not_le_of_lt hname), if_pos (Nat.lt_succ_of_le hword), Option.isSome_none,
        decide_eq_false fun h => Nat.not_lt_of_le hword h.2, Bool.false_and]
  · rw [if_pos hname, Option.isSome_none, decide_eq_false fun h => Nat.not_lt_of_le hname h.1,
      Bool.false_and]

end Wbr1310.Httpd
