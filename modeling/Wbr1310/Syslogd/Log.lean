import Wbr1310.Lib.Bytes
import Wbr1310.Lib.Machine

/-!
# The log file of `syslogd`

`insert_log` reads the log file, counts the lines it keeps, and writes the file again with the new
message in front. The log as it is meant is a list of lines with the newest first, of which the last
ones are dropped; the file is the text of such a list in every state a run reaches.
-/

namespace Wbr1310.Syslogd

open Lib Lib.Machine List

def defMaxLine : ℤ := 400

/-- `(size_t)-1`. -/
def sizeMax : ℕ := 2 ^ 32 - 1

/-- What the library calls of one `insert_log` give: whether they go well, and how many bytes are
read and written at most. `tlogs` is the output of that program, and `ctime` the date that is
copied. -/
structure Calls where
  fopenRead : Bool
  fseek : Bool
  malloc : Bool
  fread : Option ℕ
  fopenWrite : Bool
  fwrite : Option ℕ
  rename : Bool
  tlogs : List UInt8
  fopenNotice : Bool
  ctime : List UInt8

/-- The options of the daemon that `insert_log` looks at. -/
structure Options where
  mailLog : Bool
  tlog : Bool
  emailAddr : List UInt8

/-- The log file, the copy that is mailed, and `send_mail`. -/
structure Log where
  file : Option (List UInt8)
  temp : Option (List UInt8)
  sendMail : Bool

def Log.text (s : Log) : List UInt8 := s.file.getD []

def upTo (limit : Option ℕ) (bytes : List UInt8) : List UInt8 :=
  match limit with
  | none => bytes
  | some n => bytes.take n

/-- `ftell` at the end of a file. A `long` has 32 bits. -/
def ftell (size : ℕ) : ℤ := if size < 2 ^ 31 then size else -1

/-- The loop of `proc_log`: the position and the number of lines. -/
def countLines (maxLine : ℤ) : List UInt8 → ℕ → ℤ → ℕ × ℤ
  | [], iPos, iLines => (iPos, iLines)
  | c :: rest, iPos, iLines =>
    if c = 10 then
      if maxLine - 1 ≤ iLines + 1 then (iPos + 1, iLines + 1)
      else countLines maxLine rest (iPos + 1) (iLines + 1)
    else countLines maxLine rest (iPos + 1) iLines

/-- `proc_log`: its result and `*MaxLine`. -/
def procLog (pcBuf : Option (List UInt8)) (iSizebuf : ℕ) (maxLine : ℤ) : ℕ × ℤ :=
  match pcBuf with
  | none => (0, 0)
  | some buf => countLines maxLine (buf.take iSizebuf) 0 0

/-- `read_log`: the buffer, and its result. -/
def readLog (calls : Calls) (file : Option (List UInt8)) : Option (List UInt8) × ℕ :=
  match file with
  | none => (none, sizeMax)
  | some text =>
    if calls.fopenRead ∧ calls.fseek then
      let iBufLen := (ftell text.length % 2 ^ 32).toNat
      if 0 < iBufLen ∧ calls.malloc then
        let buf := upTo calls.fread (text.take iBufLen)
        (some buf, if buf.length < iBufLen then buf.length else iBufLen)
      else (none, sizeMax)
    else (none, sizeMax)

/-- The line that stands for the messages that were mailed. -/
def notice (options : Options) (calls : Calls) : List UInt8 :=
  calls.ctime.take 15 ++
    Bytes.ascii "  |  Log Message is full. Mailed the Log Message file to ".toList ++
    options.emailAddr ++ Bytes.ascii ".\n".toList

/-- The end of `insert_log`: a log that is full is mailed. -/
def mailLog (options : Options) (calls : Calls) (iLines : ℤ) (s : Log) : Log :=
  if defMaxLine - 2 ≤ iLines ∧ options.mailLog then
    let s :=
      if options.tlog then { s with temp := some calls.tlogs, sendMail := true }
      else if calls.rename then { file := none, temp := s.file, sendMail := true }
      else s
    if s.sendMail ∧ calls.fopenNotice then { s with file := some (notice options calls) } else s
  else s

def insertLog (options : Options) (calls : Calls) (pstrMsg : List UInt8) (s : Log) : Log :=
  let (pcBuf, iBufLen) := readLog calls s.file
  let (iBufLen, iLines) :=
    if iBufLen ≠ 0 then procLog pcBuf iBufLen defMaxLine else (iBufLen, defMaxLine)
  let s :=
    if calls.fopenWrite then
      { s with file := some (upTo calls.fwrite (pstrMsg ++ (pcBuf.getD []).take iBufLen)) }
    else s
  mailLog options calls iLines s

/-- A line as it stands in the log. -/
structure Line where
  text : List UInt8
  noNewline : 10 ∉ text
  noZero : 0 ∉ text

namespace Line

def bytes (line : Line) : List UInt8 := line.text ++ [10]

end Line

def textOf (lines : List Line) : List UInt8 := lines.flatMap Line.bytes

@[simp] theorem textOf_nil : textOf [] = [] := rfl

@[simp] theorem textOf_cons (line : Line) (lines : List Line) :
    textOf (line :: lines) = line.bytes ++ textOf lines := rfl

theorem Line.length_bytes (line : Line) : line.bytes.length = line.text.length + 1 :=
  length_append

variable {lines : List Line} {s : Log}

theorem textOf_eq_nil_iff : textOf lines = [] ↔ lines = [] := by
  cases lines with
  | nil => exact iff_of_true rfl rfl
  | cons line lines => simp [Line.bytes]

theorem countLines_line (maxLine : ℤ) (line : Line) (rest : List UInt8) (iPos : ℕ) (iLines : ℤ) :
    countLines maxLine (line.bytes ++ rest) iPos iLines =
      if maxLine - 1 ≤ iLines + 1 then (iPos + line.bytes.length, iLines + 1)
      else countLines maxLine rest (iPos + line.bytes.length) (iLines + 1) := by
  rw [line.length_bytes, Line.bytes, append_assoc, singleton_append]
  have hnewline := line.noNewline
  generalize line.text = text at hnewline ⊢
  induction text generalizing iPos with
  | nil => rw [nil_append, countLines, if_pos rfl, length_nil, Nat.zero_add]
  | cons c text ih =>
    rw [mem_cons, not_or] at hnewline
    have hpos : iPos + 1 + (text.length + 1) = iPos + (text.length + 1 + 1) := by omega
    rw [cons_append, countLines, if_neg (Ne.symm hnewline.1), ih _ hnewline.2, hpos,
      length_cons]

/-- The loop stops behind one line less than the maximum. -/
theorem countLines_textOf {maxLine iLines : ℤ} (h : iLines < maxLine - 1) (lines : List Line)
    (iPos : ℕ) :
    countLines maxLine (textOf lines) iPos iLines =
      (iPos + (textOf (lines.take (maxLine - 1 - iLines).toNat)).length,
        iLines + (lines.take (maxLine - 1 - iLines).toNat).length) := by
  induction lines generalizing iPos iLines with
  | nil => simp [countLines]
  | cons line lines ih =>
    obtain ⟨k, hk⟩ : ∃ k, (maxLine - 1 - iLines).toNat = k + 1 :=
      ⟨(maxLine - 1 - iLines).toNat - 1, by omega⟩
    rw [textOf_cons, countLines_line, hk, take_succ_cons, textOf_cons]
    split
    · have hlast : k = 0 := by omega
      simp [hlast]
    · have hrest : (maxLine - 1 - (iLines + 1)).toNat = k := by omega
      rw [ih (by omega), hrest]
      simp only [length_append, length_cons, Prod.mk.injEq]
      omega

/-- The calls of one `insert_log` go well. -/
structure Calls.Succeed (calls : Calls) (text : List UInt8) : Prop where
  fopenRead : calls.fopenRead = true
  fseek : calls.fseek = true
  ftell : ftell text.length = text.length
  malloc : calls.malloc = true
  fread : calls.fread = none
  fopenWrite : calls.fopenWrite = true
  fwrite : calls.fwrite = none

variable {options : Options} {calls : Calls}

theorem readLog_empty (h : s.text = []) : readLog calls s.file = (none, sizeMax) := by
  cases hfile : s.file with
  | none => rfl
  | some text =>
    have htext : text = [] := by simpa only [Log.text, hfile, Option.getD_some] using h
    simp [readLog, htext, ftell]

theorem readLog_text (hne : s.text ≠ []) (h : calls.Succeed s.text) :
    readLog calls s.file = (some s.text, s.text.length) := by
  cases hfile : s.file with
  | none => exact absurd (by rw [Log.text, hfile]; rfl) hne
  | some text =>
    have htext : s.text = text := by rw [Log.text, hfile]; rfl
    rw [htext] at h hne ⊢
    have hpos : 0 < text.length := length_pos_of_ne_nil hne
    have hlen : (ftell text.length % 2 ^ 32).toNat = text.length := by
      have := h.ftell
      rw [ftell] at this ⊢
      split at this
      · rw [if_pos ‹_›]
        omega
      · omega
    simp only [readLog, h.fopenRead, h.fseek, and_self, if_true, hlen, hpos, h.malloc, h.fread,
      upTo, take_length, lt_irrefl, if_false]

theorem mailLog_off (hmail : options.mailLog = false) (iLines : ℤ) (s : Log) :
    mailLog options calls iLines s = s := by
  rw [mailLog, hmail, if_neg (by simp)]

theorem text_insertLog_of_read (hmail : options.mailLog = false) {pcBuf : Option (List UInt8)}
    {iBufLen : ℕ} (hread : readLog calls s.file = (pcBuf, iBufLen)) (hlen : iBufLen ≠ 0)
    (h : calls.Succeed s.text) (msg : List UInt8) :
    (insertLog options calls msg s).text =
      msg ++ (pcBuf.getD []).take (procLog pcBuf iBufLen defMaxLine).1 := by
  simp only [insertLog, hread, if_pos hlen, mailLog_off hmail, h.fopenWrite, if_true, h.fwrite,
    upTo, Log.text, Option.getD_some]

theorem text_insertLog (hmail : options.mailLog = false) (hs : s.text = textOf lines)
    (h : calls.Succeed s.text) (line : Line) :
    (insertLog options calls line.bytes s).text = textOf ((line :: lines).take 400) := by
  rw [take_succ_cons, textOf_cons]
  by_cases hempty : lines = []
  · have hread : readLog calls s.file = (none, sizeMax) :=
      readLog_empty (by rw [hs, hempty, textOf_nil])
    rw [text_insertLog_of_read hmail hread (by decide) h, hempty]
    rfl
  · have hne : s.text ≠ [] := by
      rw [hs]
      exact mt textOf_eq_nil_iff.mp hempty
    rw [text_insertLog_of_read hmail (readLog_text hne h) (mt length_eq_zero_iff.mp hne) h]
    have hcount := countLines_textOf (show (0 : ℤ) < defMaxLine - 1 by decide) lines 0
    rw [← hs, Nat.zero_add] at hcount
    have hfront := take_prefix 399 lines
    have hkept : textOf (lines.take 399) <+: s.text := by
      rw [hs]
      exact hfront.flatMap _
    rw [procLog, take_length, hcount]
    exact congrArg (line.bytes ++ ·) (prefix_iff_eq_take.mp hkept).symm

theorem foldl_newest {α : Type*} (n : ℕ) (news old : List α) :
    news.foldl (fun log x => (x :: log).take n) (old.take n) = (news.reverse ++ old).take n := by
  induction news generalizing old with
  | nil => rfl
  | cons x news ih =>
    have hfirst : (x :: old.take n).take n = (x :: old).take n := by
      cases n with
      | zero => rfl
      | succ n => rw [take_succ_cons, take_succ_cons, take_take]; simp
    rw [foldl_cons, hfirst, ih, reverse_cons, append_assoc, singleton_append]

def step (options : Options) (s : Log) (event : Line × Calls) : Log :=
  insertLog options event.2 event.1.bytes s

/-- The log holds the newest lines, by induction on the messages. -/
theorem text_run (hmail : options.mailLog = false) {events : List (Line × Calls)}
    (hs : s.text = textOf lines)
    (h : Along (step options) (fun s event => event.2.Succeed s.text) s events) :
    (run (step options) s events).text =
      textOf ((events.map Prod.fst).foldl (fun log line => (line :: log).take 400) lines) := by
  induction events generalizing s lines with
  | nil => exact hs
  | cons event events ih => exact ih (text_insertLog hmail hs h.1 event.1) h.2

/-- After any messages from an empty log the file has the newest 400 of them, or all of them if
they are fewer, each as a whole line, the newest first. -/
theorem log_newest (options : Options) (hmail : options.mailLog = false) (s : Log)
    (hempty : s.text = []) (events : List (Line × Calls))
    (hcalls : Along (step options) (fun s event => event.2.Succeed s.text) s events) :
    (run (step options) s events).text =
      textOf ((events.map Prod.fst).reverse.take (min events.length 400)) := by
  have hnewest := foldl_newest 400 (events.map Prod.fst) []
  rw [take_nil, append_nil, take_eq_take_min, length_reverse, length_map,
    Nat.min_comm] at hnewest
  rw [text_run hmail (show s.text = textOf [] from hempty) hcalls, hnewest]

def Calls.fine : Calls where
  fopenRead := true
  fseek := true
  malloc := true
  fread := none
  fopenWrite := true
  fwrite := none
  rename := true
  tlogs := []
  fopenNotice := true
  ctime := []

theorem Calls.fine_succeed {text : List UInt8} (h : text.length < 2 ^ 31) :
    Calls.fine.Succeed text :=
  ⟨rfl, rfl, if_pos h, rfl, rfl, rfl, rfl⟩

/-- Two messages. -/
theorem log_newest_two :
    (run (step ⟨false, false, []⟩) ⟨none, none, false⟩
        [(⟨[97], by decide, by decide⟩, Calls.fine),
          (⟨[98, 99], by decide, by decide⟩, Calls.fine)]).text =
      [98, 99, 10, 97, 10] :=
  log_newest ⟨false, false, []⟩ rfl ⟨none, none, false⟩ rfl _
    ⟨Calls.fine_succeed (by decide), Calls.fine_succeed (by decide), trivial⟩

end Wbr1310.Syslogd
