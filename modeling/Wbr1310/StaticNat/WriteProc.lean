import Wbr1310.StaticNat.Proc

/-!
# Memory and devices of a write

`static_nat_write_proc` with every access to the buffer and to the arrays on the stack checked, and
with the reference counts of the devices. `dev_get_by_name` takes a reference, which nothing gives
back. What the arrays hold before they are written is arbitrary.
-/

namespace Wbr1310.StaticNat

open Lib Buffer List Nat

/-- Why a write does not return: a byte outside the buffer or an array is read, or a null pointer is
followed. -/
inductive ProcFault where
  | outside
  | null
  deriving DecidableEq, Repr

def byteAt (xs : List UInt8) (i : ℕ) : Except ProcFault UInt8 :=
  match xs[i]? with
  | some c => .ok c
  | none => .error .outside

/-- The bytes that `memcpy` reads. -/
def bytesAt (xs : List UInt8) : ℕ → ℕ → Except ProcFault (List UInt8)
  | _, 0 => .ok []
  | i, n + 1 => do
    let c ← byteAt xs i
    let cs ← bytesAt xs (i + 1) n
    .ok (c :: cs)

/-- The loop of `get_str` with so many rounds left. -/
def scanStrAt (buf : List UInt8) (idx : ℕ) : ℕ → ℕ → ℕ → Bool → Except ProcFault (ℕ × ℕ)
  | 0, i, j, _ => .ok (i, j)
  | n + 1, i, j, state => do
    let c ← byteAt buf (idx + i)
    if state = false ∧ c = blank then scanStrAt buf idx n (i + 1) (j + 1) false
    else
      let state := state || decide (BeginsWord c)
      if state = true ∧ (c = blank ∨ c = newline) then .ok (i, j)
      else scanStrAt buf idx n (i + 1) j state

/-- `get_str` at a position of the buffer: how far it went, and the array `str`. -/
def getStrAt (buf : List UInt8) (idx : ℕ) (str : List UInt8) :
    Except ProcFault (ℕ × List UInt8) := do
  let (i, j) ← scanStrAt buf idx (buf.length - idx) 0 0 false
  if i - j + 1 ≤ str.length then
    let word ← bytesAt buf (idx + j) (i - j)
    .ok (i, word ++ 0 :: str.drop (i - j + 1))
  else .ok (i, str)

/-- The loop of `get_value` with so many rounds left. -/
def scanValueAt (buf : List UInt8) (idx : ℕ) : ℕ → ℕ → UInt32 → Bool → Except ProcFault (ℕ × UInt32)
  | 0, i, num, _ => .ok (i, num)
  | n + 1, i, num, state => do
    let c ← byteAt buf (idx + i)
    if IsDigit c then scanValueAt buf idx n (i + 1) (num * 10 + (c - 0x30).toUInt32) true
    else if state = true ∧ c = blank then .ok (i, num)
    else scanValueAt buf idx n (i + 1) num state

/-- `get_value` at a position of the buffer. -/
def getValueAt (buf : List UInt8) (idx : ℕ) : Except ProcFault (ℕ × UInt32) :=
  scanValueAt buf idx (buf.length - idx) 0 0 false

/-- `strncmp` finds no difference between a string and an array. -/
def strncmpEq : ℕ → List UInt8 → List UInt8 → Except ProcFault Bool
  | 0, _, _ => .ok true
  | _ + 1, _, [] => .error .outside
  | n + 1, s, c :: array =>
    if s.headD 0 ≠ c then .ok false
    else if c = 0 then .ok true
    else strncmpEq n s.tail array

/-- The list `dev_base`, which ends in the loopback device, and the names of the devices. -/
structure Devices (Dev : Type) where
  devBase : List Dev
  name : Dev → List UInt8
  ne_nil : devBase ≠ []
  length_name : ∀ dev ∈ devBase, (name dev).length < 16
  zero_notMem_name : ∀ dev ∈ devBase, 0 ∉ name dev

section Devices

variable {Dev : Type}

/-- The loop of `__dev_get_by_name`. -/
def searchDev (name : Dev → List UInt8) (array : List UInt8) :
    List Dev → Except ProcFault (Option Dev)
  | [] => .ok none
  | dev :: devs => do
    if ← strncmpEq 16 (name dev) array then .ok (some dev) else searchDev name array devs

/-- `__dev_get_by_name` for a name in an array. -/
def Devices.getByName (net : Devices Dev) (array : List UInt8) : Except ProcFault (Option Dev) :=
  searchDev net.name array net.devBase

def Devices.named (net : Devices Dev) (name : List UInt8) : Option Dev :=
  net.devBase.find? fun dev => net.name dev = name

end Devices

/-- What the local arrays and variables hold before they are written; `last` is the byte of the copy
of an address that `strncpy` does not write. -/
structure Arrays where
  cmd : List UInt8
  ifname : List UInt8
  txIpStr : List UInt8
  onebyte : UInt32
  last : UInt8
  length_cmd : cmd.length = 8
  length_ifname : ifname.length = 8
  length_txIpStr : txIpStr.length = 32

/-- `strncpy` from an array: what it writes. -/
def strncpyFrom : ℕ → List UInt8 → Except ProcFault (List UInt8)
  | 0, _ => .ok []
  | _ + 1, [] => .error .outside
  | n + 1, c :: array =>
    if c = 0 then .ok (List.replicate (n + 1) 0)
    else do
      let copied ← strncpyFrom n array
      .ok (c :: copied)

/-- `strchr` for a dot: what stands before it and behind it. -/
def strchrDot : List UInt8 → Except ProcFault (Option (List UInt8 × List UInt8))
  | [] => .error .outside
  | c :: array =>
    if c = dot then .ok (some ([], array))
    else if c = 0 then .ok none
    else do
      let found ← strchrDot array
      .ok (found.map fun (before, behind) => (c :: before, behind))

/-- `string_to_number` at the end of an array. -/
def lastNumber (array : List UInt8) (before : UInt32) : Except ProcFault UInt32 :=
  if 0 ∈ array then .ok (stringToNumber (cut array) before)
  -- no zero follows: the digits go on to the end, or the character behind 0x is looked at
  else if (simpleStrtol array).2 = [] ∨ array = ascii "0x" ∨ array = ascii "-0x" then
    .error .outside
  else .ok before

/-- The bytes of an address, `n` of them with a dot behind. -/
def octetsAt : ℕ → List UInt8 → UInt32 → Except ProcFault (Option (List UInt8))
  | 0, p, onebyte => do
    let onebyte ← lastNumber p onebyte
    .ok (some [onebyte.toUInt8])
  | n + 1, p, onebyte => do
    match ← strchrDot p with
    | none => .ok none
    | some (before, behind) =>
      let onebyte := stringToNumber before onebyte
      let bs ← octetsAt n behind onebyte
      .ok (bs.map (onebyte.toUInt8 :: ·))

/-- `dotted_to_addr`. The copy has 20 bytes, and 19 of them are written. -/
def dottedToAddrAt (arrays : Arrays) (dotted : List UInt8) : Except ProcFault (Option UInt32) := do
  let copied ← strncpyFrom 19 dotted
  let bs ← octetsAt 3 (copied ++ [arrays.last]) arrays.onebyte
  .ok (bs.map fun bs => bs.foldl (fun a b => a * 256 + b.toUInt32) 0)

section Write

variable {Dev : Type} [DecidableEq Dev]

/-- The rules, and the references held on each device. -/
structure ProcState (Dev : Type) where
  table : List (NatTbl Dev)
  refcnt : Dev → ℕ

section

variable (net : Devices Dev) (kmalloc : Bool) (arrays : Arrays) (buf : List UInt8) (idx : ℕ)
  (ifname : List UInt8) (rxDev : Dev) (s : ProcState Dev)

/-- `dev_hold`. -/
def ProcState.hold (dev : Dev) : ProcState Dev :=
  { s with refcnt := Function.update s.refcnt dev (s.refcnt dev + 1) }

/-- The arguments of `add` behind the second device, and `add_rule`. -/
def addTo (rxBegin rxEnd : UInt32) (txDev : Dev) (s : ProcState Dev) :
    Except ProcFault (ProcState Dev) := do
  let (i, txIpStr) ← getStrAt buf idx arrays.txIpStr
  let idx := idx + i
  match ← dottedToAddrAt arrays txIpStr with
  | none => .error .null
  | some ip =>
    let (i, txBegin) ← getValueAt buf idx
    let (_, txEnd) ← getValueAt buf (idx + i)
    if kmalloc then
      .ok { s with table := s.table ++ [⟨rxDev, rxBegin.toUInt16, rxEnd.toUInt16, txDev, ip,
        txBegin.toUInt16, txEnd.toUInt16⟩] }
    else .ok s

/-- The arguments of `add` behind the first device. -/
def addFrom : Except ProcFault (ProcState Dev) := do
  let (i, rxBegin) ← getValueAt buf idx
  let idx := idx + i
  let (i, rxEnd) ← getValueAt buf idx
  let idx := idx + i
  let (i, ifname) ← getStrAt buf idx ifname
  match ← net.getByName ifname with
  | none => .ok s
  | some txDev => addTo kmalloc arrays buf (idx + i) rxDev rxBegin rxEnd txDev (s.hold txDev)

/-- The arguments of `add`. -/
def addArgs : Except ProcFault (ProcState Dev) := do
  let (i, ifname) ← getStrAt buf idx arrays.ifname
  match ← net.getByName ifname with
  | none => .ok s
  | some rxDev => addFrom net kmalloc arrays buf (idx + i) ifname rxDev (s.hold rxDev)

/-- `cmd` is one of two strings. -/
def cmdIs (cmd : List UInt8) (upper lower : String) : Except ProcFault Bool := do
  if ← strncmpEq 8 (ascii upper) cmd then .ok true else strncmpEq 8 (ascii lower) cmd

/-- `static_nat_write_proc`. -/
def writeProc : Except ProcFault (ProcState Dev) :=
  if buf = [] then .ok s
  else do
    let (i, cmd) ← getStrAt buf 0 arrays.cmd
    if ← cmdIs cmd "ADD" "add" then addArgs net kmalloc arrays buf i s
    else if ← cmdIs cmd "FLUSH" "flush" then .ok { s with table := [] }
    else .ok s

end

end Write

@[simp]
theorem procFault_ok_bind {α β : Type} (a : α) (f : α → Except ProcFault β) :
    (Except.ok a >>= f) = f a := rfl

theorem exists_of_bind_eq_ok {α β : Type} {x : Except ProcFault α} {f : α → Except ProcFault β}
    {b : β} (h : (x >>= f) = .ok b) : ∃ a, x = .ok a ∧ f a = .ok b := by
  cases x with
  | error e => cases h
  | ok a => exact ⟨a, rfl, h⟩

variable {xs cs buf array p : List UInt8} {c : UInt8} {i n idx : ℕ}

theorem byteAt_of_drop (h : xs.drop i = c :: cs) :
    byteAt xs i = .ok c := by
  have hget : xs[i]? = some c := by
    rw [← head?_drop, h]
    rfl
  rw [byteAt, hget]

theorem drop_succ_of_drop (h : xs.drop i = c :: cs) :
    xs.drop (i + 1) = cs := by
  rw [← drop_drop, h]
  rfl

theorem bytesAt_eq (h : i + n ≤ xs.length) :
    bytesAt xs i n = .ok ((xs.drop i).take n) := by
  induction n generalizing i with
  | zero => rfl
  | succ n ih =>
    have hdrop : xs.drop i = xs[i] :: xs.drop (i + 1) := drop_eq_getElem_cons (by omega)
    rw [bytesAt, byteAt_of_drop hdrop, procFault_ok_bind, ih (by omega), hdrop]
    rfl

theorem scanStrAt_eq (h : buf.drop (idx + i) = cs) (j : ℕ) (state : Bool) :
    scanStrAt buf idx cs.length i j state = .ok (scanStr cs i j state) := by
  induction cs generalizing i j state with
  | nil => rfl
  | cons c cs ih =>
    have hdrop : buf.drop (idx + (i + 1)) = cs := drop_succ_of_drop h
    rw [length_cons, scanStrAt, byteAt_of_drop h, procFault_ok_bind, scanStr]
    split
    · exact ih hdrop (j + 1) false
    · simp only
      split
      · rfl
      · exact ih hdrop j _

theorem scanValueAt_eq (h : buf.drop (idx + i) = cs) (num : UInt32) (state : Bool) :
    scanValueAt buf idx cs.length i num state = .ok (scanValue cs i num state) := by
  induction cs generalizing i num state with
  | nil => rfl
  | cons c cs ih =>
    have hdrop : buf.drop (idx + (i + 1)) = cs := drop_succ_of_drop h
    rw [length_cons, scanValueAt, byteAt_of_drop h, procFault_ok_bind, scanValue]
    split
    · exact ih hdrop _ true
    · split
      · rfl
      · exact ih hdrop num state

theorem getValueAt_eq (buf : List UInt8) (idx : ℕ) :
    getValueAt buf idx = .ok (getValue (buf.drop idx)) := by
  have hdrop : buf.drop (idx + 0) = buf.drop idx := rfl
  rw [getValueAt, ← length_drop, getValue]
  exact scanValueAt_eq hdrop 0 false

theorem scanValue_le (cs : List UInt8) (i : ℕ) (num : UInt32) (state : Bool) :
    (scanValue cs i num state).1 ≤ i + cs.length := by
  induction cs generalizing i num state with
  | nil => exact le_refl i
  | cons c cs ih =>
    rw [scanValue, length_cons]
    split
    · exact (ih _ _ _).trans (by omega)
    · split
      · exact le_add_right i _
      · exact (ih _ _ _).trans (by omega)

theorem getValue_le (hidx : idx ≤ buf.length) :
    idx + (getValue (buf.drop idx)).1 ≤ buf.length := by
  have hle := scanValue_le (buf.drop idx) 0 0 false
  rw [← getValue, length_drop] at hle
  omega

def EndsWord (c : UInt8) : Prop := c = blank ∨ c = newline

instance : DecidablePred EndsWord := fun _ => inferInstanceAs (Decidable (_ ∨ _))

/-- What stands before the first character that begins a word. -/
def skipped (buf : List UInt8) : List UInt8 := buf.takeWhile (¬ BeginsWord ·)

def wordOn (buf : List UInt8) : List UInt8 := buf.dropWhile (¬ BeginsWord ·)

/-- The word that `get_str` takes. It loses a character at its beginning for each blank that is
skipped, whether or not the blanks come first. -/
def wordOf (buf : List UInt8) : List UInt8 :=
  (skipped buf).drop ((skipped buf).count blank) ++ (wordOn buf).takeWhile (¬ EndsWord ·)

def behindWord (buf : List UInt8) : List UInt8 := (wordOn buf).dropWhile (¬ EndsWord ·)

/-- The array after `get_str`: the word is stored if it fits. -/
def putWord (word str : List UInt8) : List UInt8 :=
  if word.length + 1 ≤ str.length then word ++ 0 :: str.drop (word.length + 1) else str

theorem not_endsWord (h : BeginsWord c) : ¬ EndsWord c := by
  rintro (rfl | rfl)
  · exact absurd h (by decide)
  · exact absurd h (by decide)

theorem scanStr_true (cs : List UInt8) (i j : ℕ) :
    scanStr cs i j true = (i + (cs.takeWhile (¬ EndsWord ·)).length, j) := by
  induction cs generalizing i with
  | nil => rfl
  | cons c cs ih =>
    by_cases hend : EndsWord c
    · have hend' : c = blank ∨ c = newline := hend
      simp [scanStr, hend, hend']
    · have hend' : ¬ (c = blank ∨ c = newline) := hend
      simp [scanStr, hend, hend', ih]
      omega

theorem scanStr_false (cs : List UInt8) (i j : ℕ) :
    scanStr cs i j false =
      (i + (skipped cs).length + ((wordOn cs).takeWhile (¬ EndsWord ·)).length,
        j + (skipped cs).count blank) := by
  induction cs generalizing i j with
  | nil => rfl
  | cons c cs ih =>
    by_cases hbegin : BeginsWord c
    · have hend := not_endsWord hbegin
      have hblank : c ≠ blank := fun hc => hend (.inl hc)
      have hend' : ¬ (c = blank ∨ c = newline) := hend
      have hskipped : skipped (c :: cs) = [] := takeWhile_cons_of_neg (by simpa using hbegin)
      have hword : wordOn (c :: cs) = c :: cs :=
        dropWhile_cons_of_neg (by simpa using hbegin)
      rw [scanStr, if_neg fun h => hblank h.2, hskipped, hword,
        takeWhile_cons_of_pos (by simpa using hend)]
      simp only [hbegin, decide_true, Bool.or_true]
      rw [if_neg fun h => hend' h.2, scanStr_true, length_cons, length_nil]
      simp only [count_nil, Nat.add_zero, Prod.mk.injEq, and_true]
      omega
    · have hskipped : skipped (c :: cs) = c :: skipped cs :=
        takeWhile_cons_of_pos (by simpa using hbegin)
      have hword : wordOn (c :: cs) = wordOn cs :=
        dropWhile_cons_of_pos (by simpa using hbegin)
      rw [scanStr, hskipped, hword, length_cons]
      by_cases hblank : c = blank
      · subst hblank
        rw [if_pos ⟨rfl, rfl⟩, ih, count_cons_self]
        simp only [Prod.mk.injEq]
        omega
      · rw [if_neg fun h => hblank h.2, count_cons_of_ne hblank]
        simp only [hbegin, decide_false, Bool.or_false, Bool.false_eq_true, false_and, if_false]
        rw [ih]
        simp only [Prod.mk.injEq, and_true]
        omega

theorem parts_eq (buf : List UInt8) :
    skipped buf ++ ((wordOn buf).takeWhile (¬ EndsWord ·) ++ behindWord buf) = buf := by
  rw [behindWord, takeWhile_append_dropWhile]
  exact takeWhile_append_dropWhile

/-- `get_str` reads inside the buffer, stores the word if it fits, and goes on to the end of the
word. -/
theorem getStrAt_eq (hidx : idx ≤ buf.length) (str : List UInt8) :
    ∃ i, getStrAt buf idx str = .ok (i, putWord (wordOf (buf.drop idx)) str) ∧
      idx + i ≤ buf.length ∧ buf.drop (idx + i) = behindWord (buf.drop idx) ∧
      getStr (buf.drop idx) (cut str) str.length =
        (i, cut (putWord (wordOf (buf.drop idx)) str)) := by
  have hscan : scanStrAt buf idx (buf.length - idx) 0 0 false =
      .ok (scanStr (buf.drop idx) 0 0 false) := by
    have hdrop : buf.drop (idx + 0) = buf.drop idx := rfl
    rw [← length_drop]
    exact scanStrAt_eq hdrop 0 false
  rw [getStrAt, getStr, hscan, procFault_ok_bind, scanStr_false]
  have hlength : (buf.drop idx).length = buf.length - idx := length_drop
  have hparts := parts_eq (buf.drop idx)
  have hcount : (skipped (buf.drop idx)).count blank ≤ (skipped (buf.drop idx)).length :=
    count_le_length
  have hbehind : ∀ i, buf.drop (idx + i) = (buf.drop idx).drop i := fun i => drop_drop.symm
  rw [wordOf]
  generalize behindWord (buf.drop idx) = behind at *
  generalize (wordOn (buf.drop idx)).takeWhile (¬ EndsWord ·) = body at *
  generalize hj : (skipped (buf.drop idx)).count blank = j at *
  generalize skipped (buf.drop idx) = before at *
  rw [← hparts] at hbehind hlength
  simp only [length_append] at hlength
  have hword : (before.drop j ++ body).length = before.length + body.length - j := by
    rw [length_append, length_drop]
    omega
  have hdrop : buf.drop (idx + (before.length + body.length)) = behind := by
    rw [hbehind, ← append_assoc, ← length_append, drop_left]
  have hcopy : (buf.drop (idx + j)).take (before.length + body.length - j) =
      before.drop j ++ body := by
    rw [hbehind, drop_append_of_le_length hcount, ← append_assoc, ← hword,
      take_left]
  refine ⟨before.length + body.length, ?_, by omega, hdrop, ?_⟩
  · simp only [Nat.zero_add]
    rw [putWord, hword]
    split
    · rw [bytesAt_eq (by omega), hcopy]
      rfl
    · rfl
  · simp only [Nat.zero_add]
    rw [putWord, hword, drop_drop, hcopy]
    split
    · rw [cut_append_zero]
    · rfl

theorem strncmpEq_ok {s : List UInt8} {b : Bool} (hs : 0 ∉ s) (hlength : s.length < n)
    (h : strncmpEq n s array = .ok b) : b = decide (s = cut array) := by
  induction n generalizing s array with
  | zero => omega
  | succ n ih =>
    cases array with
    | nil => cases h
    | cons c array =>
      rw [strncmpEq] at h
      cases s with
      | nil =>
        by_cases hc : c = 0
        · simp_all [cut_cons]
        · simp_all [cut_cons, Ne.symm hc]
      | cons a s =>
        have ha : a ≠ 0 := fun ha => hs (ha ▸ mem_cons_self)
        by_cases hac : a = c
        · subst hac
          have hs' : 0 ∉ s := fun h => hs (mem_cons_of_mem _ h)
          have hnext : strncmpEq n s array = .ok b := by simpa [ha] using h
          simp [cut_cons, ha, ih hs' (lt_of_succ_lt_succ hlength) hnext]
        · have hb : b = false := by simpa [hac, eq_comm] using h
          by_cases hc : c = 0
          · simp [cut_cons, hc, hb]
          · simp [cut_cons, hc, hac, hb]

theorem strncmpEq_returns (harray : 0 ∈ array) (n : ℕ) (s : List UInt8) :
    ∃ b, strncmpEq n s array = .ok b := by
  induction n generalizing s array with
  | zero => exact ⟨true, rfl⟩
  | succ n ih =>
    cases array with
    | nil => exact absurd harray not_mem_nil
    | cons c array =>
      rw [strncmpEq]
      split
      · exact ⟨false, rfl⟩
      · split
        · exact ⟨true, rfl⟩
        · next hc => exact ih ((mem_cons.mp harray).resolve_left (Ne.symm hc)) s.tail

theorem strncmpEq_eq {s : List UInt8} (hs : 0 ∉ s) (hlength : s.length < n) (harray : 0 ∈ array) :
    strncmpEq n s array = .ok (decide (s = cut array)) := by
  obtain ⟨b, hb⟩ := strncmpEq_returns harray n s
  rw [hb, strncmpEq_ok hs hlength hb]

theorem strncmpEq_outside (rest : List UInt8) (harray : 0 ∉ array) (hlength : array.length < n) :
    strncmpEq n (array ++ rest) array = .error .outside := by
  induction array generalizing n with
  | nil =>
    cases n with
    | zero => exact absurd hlength (lt_irrefl 0)
    | succ n => rfl
  | cons c array ih =>
    cases n with
    | zero => exact absurd hlength (not_lt_zero _)
    | succ n =>
      have hc : c ≠ 0 := fun hc => harray (hc ▸ mem_cons_self)
      have harray' : 0 ∉ array := fun h => harray (mem_cons_of_mem _ h)
      have hnext := ih harray' (lt_of_succ_lt_succ hlength)
      simp [strncmpEq, hc, hnext]

theorem putWord_of_fits {word str : List UInt8} (h : word.length < str.length) :
    0 ∈ putWord word str ∧ cut (putWord word str) = cut word := by
  have hput : putWord word str = word ++ 0 :: str.drop (word.length + 1) := if_pos h
  rw [hput]
  exact ⟨mem_append_right _ mem_cons_self, cut_append_zero _ _⟩

theorem length_putWord (word str : List UInt8) : (putWord word str).length = str.length := by
  rw [putWord]
  split
  · rw [length_append, length_cons, length_drop]
    omega
  · rfl

theorem putWord_of_not_fits {word str : List UInt8} (h : ¬ word.length < str.length) :
    putWord word str = str := if_neg h

section Search

variable {Dev : Type} (net : Devices Dev)

theorem Devices.getByName_eq {array : List UInt8} (harray : 0 ∈ array) :
    net.getByName array = .ok (net.named (cut array)) := by
  have hsearch : ∀ devs ⊆ net.devBase, searchDev net.name array devs =
      .ok (devs.find? fun dev => net.name dev = cut array) := by
    intro devs
    induction devs with
    | nil => exact fun _ => rfl
    | cons dev devs ih =>
      intro hsub
      obtain ⟨hdev, hdevs⟩ := cons_subset.mp hsub
      have hsame := strncmpEq_eq (net.zero_notMem_name dev hdev) (net.length_name dev hdev) harray
      rw [searchDev, hsame, procFault_ok_bind]
      by_cases hname : net.name dev = cut array
      · simp [hname]
      · simp [hname, ih hdevs]
  exact hsearch net.devBase (List.Subset.refl _)

variable {net}

theorem Devices.name_of_named {word : List UInt8} {dev : Dev} (h : net.named word = some dev) :
    net.name dev = word ∧ dev ∈ net.devBase := by
  have hname := find?_some h
  exact ⟨of_decide_eq_true hname, mem_of_find?_eq_some h⟩

end Search

def Arrays.stack (arrays : Arrays) : Stack where
  cmd := cut arrays.cmd
  ifname := cut arrays.ifname
  txIpStr := cut arrays.txIpStr
  onebyte := arrays.onebyte
  behind := cut [arrays.last]

theorem cmdIs_ok {cmd : List UInt8} {upper lower : String} {b : Bool}
    (hupper : 0 ∉ ascii upper ∧ (ascii upper).length < 8)
    (hlower : 0 ∉ ascii lower ∧ (ascii lower).length < 8) (h : cmdIs cmd upper lower = .ok b) :
    b = decide (cut cmd = ascii upper ∨ cut cmd = ascii lower) := by
  obtain ⟨first, hfirst, h⟩ := exists_of_bind_eq_ok h
  have hfirst' := strncmpEq_ok hupper.1 hupper.2 hfirst
  cases first with
  | true =>
    have heq : cut cmd = ascii upper := (of_decide_eq_true hfirst'.symm).symm
    obtain rfl : true = b := Except.ok.inj h
    exact (decide_eq_true (.inl heq)).symm
  | false =>
    have hne : cut cmd ≠ ascii upper := fun heq => of_decide_eq_false hfirst'.symm heq.symm
    have hsecond := strncmpEq_ok hlower.1 hlower.2 h
    simp [hsecond, hne, eq_comm]

theorem Devices.getByName_ok {Dev : Type} {net : Devices Dev} {dev : Option Dev}
    (h : net.getByName array = .ok dev) : dev = net.named (cut array) := by
  have hsearch : ∀ devs ⊆ net.devBase, ∀ dev, searchDev net.name array devs = .ok dev →
      dev = devs.find? fun dev => net.name dev = cut array := by
    intro devs
    induction devs with
    | nil => exact fun _ dev h => (Except.ok.inj h).symm
    | cons first devs ih =>
      intro hsub dev h
      obtain ⟨hfirst, hdevs⟩ := cons_subset.mp hsub
      obtain ⟨same, hsame, h⟩ := exists_of_bind_eq_ok h
      have hname := strncmpEq_ok (net.zero_notMem_name first hfirst)
        (net.length_name first hfirst) hsame
      cases same with
      | true =>
        obtain rfl := Except.ok.inj h
        rw [find?_cons_of_pos (by simpa using hname.symm)]
      | false =>
        rw [find?_cons_of_neg (by simpa using hname.symm)]
        exact ih hdevs dev h
  exact hsearch net.devBase (List.Subset.refl _) dev h

theorem strncpyFrom_ok {copied : List UInt8} (h : strncpyFrom n array = .ok copied) :
    copied = (cut array).take n ++ List.replicate (n - (cut array).length) 0 := by
  induction n generalizing array copied with
  | zero =>
    obtain rfl := Except.ok.inj h
    simp
  | succ n ih =>
    cases array with
    | nil => cases h
    | cons c array =>
      rw [strncpyFrom] at h
      split at h
      · next hc =>
        obtain rfl := Except.ok.inj h
        simp [cut_cons, hc]
      · next hc =>
        obtain ⟨rest, hrest, h⟩ := exists_of_bind_eq_ok h
        obtain rfl := Except.ok.inj h
        simp [cut_cons, hc, ih hrest]

theorem strncpyFrom_returns (harray : 0 ∈ array) (n : ℕ) :
    ∃ copied, strncpyFrom n array = .ok copied := by
  induction n generalizing array with
  | zero => exact ⟨[], rfl⟩
  | succ n ih =>
    cases array with
    | nil => exact absurd harray not_mem_nil
    | cons c array =>
      rw [strncpyFrom]
      split
      · exact ⟨_, rfl⟩
      · next hc =>
        obtain ⟨copied, hcopied⟩ := ih ((mem_cons.mp harray).resolve_left (Ne.symm hc))
        exact ⟨c :: copied, by rw [hcopied, procFault_ok_bind]⟩

theorem strchrDot_none (h : strchrDot p = .ok none) : dot ∉ cut p := by
  induction p with
  | nil => cases h
  | cons c p ih =>
    rw [strchrDot] at h
    split at h
    · cases h
    · next hdot =>
      rw [cut_cons]
      split at h
      · next hzero =>
        rw [if_pos hzero]
        exact not_mem_nil
      · next hzero =>
        obtain ⟨found, hfound, h⟩ := exists_of_bind_eq_ok h
        have hnone : found = none := Option.map_eq_none_iff.mp (Except.ok.inj h)
        subst hnone
        rw [if_neg hzero, mem_cons, not_or]
        exact ⟨Ne.symm hdot, ih hfound⟩

theorem strchrDot_some {before behind : List UInt8}
    (h : strchrDot p = .ok (some (before, behind))) :
    cut p = before ++ dot :: cut behind ∧ dot ∉ before := by
  induction p generalizing before with
  | nil => cases h
  | cons c p ih =>
    rw [strchrDot] at h
    split at h
    · next hdot =>
      obtain ⟨rfl, rfl⟩ := Prod.mk.inj (Option.some.inj (Except.ok.inj h))
      have hzero : c ≠ 0 := by
        rw [hdot]
        decide
      rw [cut_cons, if_neg hzero, hdot]
      exact ⟨rfl, not_mem_nil⟩
    · next hdot =>
      split at h
      · cases h
      · next hzero =>
        obtain ⟨found, hfound, h⟩ := exists_of_bind_eq_ok h
        obtain ⟨⟨before', behind'⟩, rfl, heq⟩ := Option.map_eq_some_iff.mp (Except.ok.inj h)
        obtain ⟨rfl, rfl⟩ := Prod.mk.inj heq
        obtain ⟨hcut, hmem⟩ := ih hfound
        rw [cut_cons, if_neg hzero, hcut, mem_cons, not_or]
        exact ⟨rfl, Ne.symm hdot, hmem⟩

theorem lastNumber_ok {before number : UInt32} (h : lastNumber p before = .ok number) :
    number = stringToNumber (cut p) before := by
  rw [lastNumber] at h
  split at h
  · exact (Except.ok.inj h).symm
  · next hzero =>
    split at h
    · cases h
    · next hend =>
      -- the number ends at a character that is no digit and no zero
      have hcut : cut p = p := cut_of_ne_zero fun c hc hc' => hzero (hc' ▸ hc)
      obtain rfl := Except.ok.inj h
      rw [hcut, stringToNumber]
      exact (if_neg fun hnumber => hend (.inl hnumber.1)).symm

theorem octetsAt_ok {onebyte : UInt32} {bs : Option (List UInt8)}
    (h : octetsAt n p onebyte = .ok bs) : bs = octets n (cut p) onebyte := by
  induction n generalizing p onebyte bs with
  | zero =>
    obtain ⟨number, hnumber, h⟩ := exists_of_bind_eq_ok h
    obtain rfl := Except.ok.inj h
    rw [octets, lastNumber_ok hnumber]
  | succ n ih =>
    obtain ⟨found, hfound, h⟩ := exists_of_bind_eq_ok h
    cases found with
    | none =>
      obtain rfl := Except.ok.inj h
      rw [octets, if_neg (strchrDot_none hfound)]
    | some parts =>
      obtain ⟨before, behind⟩ := parts
      obtain ⟨rest, hrest, h⟩ := exists_of_bind_eq_ok h
      obtain rfl := Except.ok.inj h
      obtain ⟨hcut, hmem⟩ := strchrDot_some hfound
      have hbefore : ∀ c ∈ before, decide (c ≠ dot) = true := fun c hc =>
        decide_eq_true fun hdot => hmem (hdot ▸ hc)
      rw [hcut, octets, if_pos (mem_append_right _ mem_cons_self),
        takeWhile_append_of_pos hbefore, dropWhile_append_of_pos hbefore,
        takeWhile_cons_of_neg (by simp), dropWhile_cons_of_neg (by simp), ih hrest]
      simp

theorem dottedToAddrAt_ok {arrays : Arrays} {dotted : List UInt8} {ip : Option UInt32}
    (h : dottedToAddrAt arrays dotted = .ok ip) : ip = dottedToAddr arrays.stack (cut dotted) := by
  obtain ⟨copied, hcopied, h⟩ := exists_of_bind_eq_ok h
  obtain ⟨bs, hbs, h⟩ := exists_of_bind_eq_ok h
  obtain rfl := Except.ok.inj h
  have hzero : 0 ∉ cut dotted := fun hmem => by
    have hne := mem_takeWhile_imp hmem
    exact of_decide_eq_true hne rfl
  have hcut : cut (copied ++ [arrays.last]) = if (cut dotted).length < 19 then cut dotted
      else (cut dotted).take 19 ++ cut [arrays.last] := by
    rw [strncpyFrom_ok hcopied]
    split
    · next hshort =>
      obtain ⟨k, hk⟩ : ∃ k, 19 - (cut dotted).length = k + 1 :=
        ⟨18 - (cut dotted).length, by omega⟩
      rw [take_of_length_le (by omega), hk, replicate_succ, append_assoc,
        cons_append, cut_append_zero]
      exact cut_of_ne_zero fun c hc hc' => hzero (hc' ▸ hc)
    · next hlong =>
      rw [Nat.sub_eq_zero_of_le (by omega), replicate_zero, append_nil, cut_append]
      exact fun hmem => hzero (mem_of_mem_take hmem)
  rw [octetsAt_ok hbs, hcut]
  rfl

section Rules

variable {Dev : Type} {net : Devices Dev} {kmalloc : Bool} {arrays : Arrays} {buf : List UInt8}
  {idx : ℕ} {s s' : ProcState Dev}

theorem getStrAt_ok (hidx : idx ≤ buf.length) {str array : List UInt8} {i : ℕ}
    (h : getStrAt buf idx str = .ok (i, array)) :
    idx + i ≤ buf.length ∧ getStr (buf.drop idx) (cut str) str.length = (i, cut array) ∧
      array.length = str.length := by
  obtain ⟨i', heq, hi, -, hgetStr⟩ := getStrAt_eq hidx str
  obtain ⟨rfl, rfl⟩ := Prod.mk.inj (Except.ok.inj (heq.symm.trans h))
  exact ⟨hi, hgetStr, length_putWord _ _⟩

theorem getValueAt_ok (hidx : idx ≤ buf.length) {i : ℕ} {num : UInt32}
    (h : getValueAt buf idx = .ok (i, num)) :
    idx + i ≤ buf.length ∧ getValue (buf.drop idx) = (i, num) := by
  rw [getValueAt_eq] at h
  have hvalue := Except.ok.inj h
  have hle := getValue_le hidx
  rw [hvalue] at hle
  exact ⟨hle, hvalue⟩

/-- What is read behind the second device. -/
theorem addTo_parts (hidx : idx ≤ buf.length) {rxDev txDev : Dev} {rxBegin rxEnd : UInt32}
    (h : addTo kmalloc arrays buf idx rxDev rxBegin rxEnd txDev s = .ok s') :
    ∃ i txIpStr ip i' txBegin i'' txEnd,
      getStr (buf.drop idx) arrays.stack.txIpStr 32 = (i, txIpStr) ∧
      dottedToAddr arrays.stack txIpStr = some ip ∧
      getValue (buf.drop (idx + i)) = (i', txBegin) ∧
      getValue (buf.drop (idx + i + i')) = (i'', txEnd) ∧
      s'.table = if kmalloc then s.table ++ [⟨rxDev, rxBegin.toUInt16, rxEnd.toUInt16, txDev, ip,
        txBegin.toUInt16, txEnd.toUInt16⟩] else s.table := by
  obtain ⟨⟨i, txIpStr⟩, hstr, h⟩ := exists_of_bind_eq_ok h
  obtain ⟨hidx, hgetStr, -⟩ := getStrAt_ok hidx hstr
  obtain ⟨ip, hip, h⟩ := exists_of_bind_eq_ok h
  have haddr := dottedToAddrAt_ok hip
  rw [arrays.length_txIpStr] at hgetStr
  cases ip with
  | none => cases h
  | some ip =>
    obtain ⟨⟨i', txBegin⟩, hbegin, h⟩ := exists_of_bind_eq_ok h
    obtain ⟨hidx, hvalue⟩ := getValueAt_ok hidx hbegin
    obtain ⟨⟨i'', txEnd⟩, hend, h⟩ := exists_of_bind_eq_ok h
    obtain ⟨-, hvalue'⟩ := getValueAt_ok hidx hend
    refine ⟨i, cut txIpStr, ip, i', txBegin, i'', txEnd, hgetStr, haddr.symm, hvalue, hvalue', ?_⟩
    cases kmalloc with
    | true | false =>
      obtain rfl := Except.ok.inj h
      rfl

variable [DecidableEq Dev]

/-- The arguments of `add` are read as they are without the checks. -/
theorem addArgs_ok (hidx : idx ≤ buf.length)
    (h : addArgs net kmalloc arrays buf idx s = .ok s') :
    parseAdd net.named arrays.stack (buf.drop idx) = .out ∧ s'.table = s.table ∨
      ∃ tbl, parseAdd net.named arrays.stack (buf.drop idx) = .rule tbl ∧
        s'.table = if kmalloc then s.table ++ [tbl] else s.table := by
  obtain ⟨⟨i, ifname⟩, hstr, h⟩ := exists_of_bind_eq_ok h
  obtain ⟨hidx, hgetStr, hlength⟩ := getStrAt_ok hidx hstr
  obtain ⟨dev, hdev, h⟩ := exists_of_bind_eq_ok h
  have hnamed := Devices.getByName_ok hdev
  rw [arrays.length_ifname] at hgetStr hlength
  have hstack : arrays.stack.ifname = cut arrays.ifname := rfl
  rw [parseAdd, hstack, hgetStr]
  simp only
  rw [← hnamed]
  cases dev with
  | none =>
    obtain rfl := Except.ok.inj h
    exact .inl ⟨rfl, rfl⟩
  | some rxDev =>
    simp only at h ⊢
    obtain ⟨⟨i₁, rxBegin⟩, hbegin, h⟩ := exists_of_bind_eq_ok h
    obtain ⟨hidx, hvalue₁⟩ := getValueAt_ok hidx hbegin
    obtain ⟨⟨i₂, rxEnd⟩, hend, h⟩ := exists_of_bind_eq_ok h
    obtain ⟨hidx, hvalue₂⟩ := getValueAt_ok hidx hend
    obtain ⟨⟨i₃, ifname'⟩, hstr', h⟩ := exists_of_bind_eq_ok h
    obtain ⟨hidx, hgetStr', -⟩ := getStrAt_ok hidx hstr'
    obtain ⟨dev', hdev', h⟩ := exists_of_bind_eq_ok h
    have hnamed' := Devices.getByName_ok hdev'
    rw [hlength] at hgetStr'
    simp only [drop_drop, hvalue₁, hvalue₂, hgetStr', ← hnamed']
    cases dev' with
    | none =>
      obtain rfl := Except.ok.inj h
      exact .inl ⟨rfl, rfl⟩
    | some txDev =>
      obtain ⟨i₄, txIpStr, ip, i₅, txBegin, i₆, txEnd, hgetStr, haddr, hvalue, hvalue',
        htable⟩ := addTo_parts hidx h
      simp only [hgetStr, haddr, hvalue, hvalue']
      exact .inr ⟨_, rfl, htable⟩

theorem writeProc_table (lock : ℕ) (h : writeProc net kmalloc arrays buf s = .ok s') :
    s'.table =
      (staticNatWriteProc net.named ⟨s.table, lock⟩ ⟨buf, arrays.stack, kmalloc⟩).table := by
  rw [staticNatWriteProc]
  rw [writeProc] at h
  split at h
  · next hnil =>
    obtain rfl := Except.ok.inj h
    rw [if_pos hnil]
  · next hne =>
    obtain ⟨⟨i, cmd⟩, hstr, h⟩ := exists_of_bind_eq_ok h
    obtain ⟨hidx, hgetStr, -⟩ := getStrAt_ok (zero_le _) hstr
    rw [arrays.length_cmd, drop_zero] at hgetStr
    rw [Nat.zero_add] at hidx
    have hstack : arrays.stack.cmd = cut arrays.cmd := rfl
    rw [if_neg hne, hstack, hgetStr]
    simp only
    obtain ⟨add, hadd, h⟩ := exists_of_bind_eq_ok h
    have hadd' := cmdIs_ok (by decide) (by decide) hadd
    cases add with
    | true =>
      rw [if_pos (of_decide_eq_true hadd'.symm)]
      obtain ⟨hparse, htable⟩ | ⟨tbl, hparse, htable⟩ := addArgs_ok hidx h
      · rw [hparse, htable]
      · rw [hparse, htable]
        cases kmalloc with
        | true => rfl
        | false => rfl
    | false =>
      rw [if_neg (of_decide_eq_false hadd'.symm)]
      obtain ⟨flush, hflush, h⟩ := exists_of_bind_eq_ok h
      have hflush' := cmdIs_ok (by decide) (by decide) hflush
      cases flush with
      | true =>
        obtain rfl := Except.ok.inj h
        rw [if_pos (of_decide_eq_true hflush'.symm)]
      | false =>
        obtain rfl := Except.ok.inj h
        rw [if_neg (of_decide_eq_false hflush'.symm)]

end Rules

end Wbr1310.StaticNat
