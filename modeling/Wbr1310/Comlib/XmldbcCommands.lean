import Mathlib

/-!
# Commands to the configuration database

`send_xmldb_cmd` of `libxmldbc.c` and the functions that call it, up to the reply. A command is a
header of twelve bytes with the length of the text, and the text with its end mark. A call of `send`
may take a part of what it is given; the code looks only for nothing and for an error. The length is
passed on in sixteen bits, and the texts of two arguments are put together in a buffer of 512 bytes.
-/

namespace Wbr1310.Comlib.Xmldbc

open List

abbrev CStr := { s : List UInt8 // 0 ∉ s }

def shortBytes (n : UInt16) : List UInt8 := [(n >>> 8).toUInt8, n.toUInt8]

def longBytes (n : UInt32) : List UInt8 :=
  [(n >>> 24).toUInt8, (n >>> 16).toUInt8, (n >>> 8).toUInt8, n.toUInt8]

/-- `rgdb_ipc_t`. -/
structure RgdbIpc where
  action : UInt16
  length : UInt16
  flags : UInt32
  retcode : UInt32

def RgdbIpc.bytes (ipc : RgdbIpc) : List UInt8 :=
  shortBytes ipc.action ++ shortBytes ipc.length ++ longBytes ipc.flags ++ longBytes ipc.retcode

theorem RgdbIpc.length_bytes (ipc : RgdbIpc) : ipc.bytes.length = 12 := rfl

/-- What becomes of a call: whether the socket is opened, how many bytes the two calls of `send`
would take, with `none` for an error, and what the stack holds for the field that is not set. -/
structure Socket where
  opened : Bool
  header : Option ℕ
  payload : Option ℕ
  retcode : UInt32

/-- `send`: the bytes that are sent, or an error. -/
def send (result : Option ℕ) (data : List UInt8) : Option (List UInt8) := result.map data.take

section

variable (sock : Socket) (flags : UInt32) (node command : CStr)

/-- `send_xmldb_cmd`: whether it goes well, and the bytes sent. -/
def sendXmldbCmd (action : UInt16) (flags : UInt32) (data : List UInt8) (length : UInt16) :
    Bool × List UInt8 :=
  let ipc : RgdbIpc := ⟨action, length, flags, sock.retcode⟩
  match send sock.header ipc.bytes with
  | none | some [] => (false, [])
  | some header =>
    match send sock.payload (data.take length.toNat) with
    | none | some [] => (false, header)
    | some payload => (true, header ++ payload)

/-- `_cmd_w_out` and `_cmd_wo_out` before the reply. `size` becomes an `unsigned short`. -/
def cmd (action : UInt16) (flags : UInt32) (param : List UInt8) (size : ℕ) : Bool × List UInt8 :=
  if sock.opened then sendXmldbCmd sock action flags param (UInt16.ofNat size) else (false, [])

/-- `snprintf` of two strings into the buffer: 510 bytes and an end mark. -/
def joined (value : CStr) : List UInt8 := (node.1 ++ 32 :: value.1).take 510

def xmldbcGet : Bool × List UInt8 :=
  cmd sock 1 flags (node.1 ++ [0]) (node.1.length + 1)

def xmldbcSet (value : CStr) : Bool × List UInt8 :=
  let buff := joined node value
  cmd sock 2 flags (buff ++ [0]) (buff.length + 1)

def xmldbcSetext : Bool × List UInt8 :=
  let buff := joined node command
  cmd sock 11 flags (buff ++ [0]) (buff.length + 1)

def xmldbcTimer : Bool × List UInt8 :=
  cmd sock 12 flags (command.1 ++ [0]) (command.1.length + 1)

end

/-- A call of one of the four commands. -/
inductive Request where
  | get (node : CStr)
  | set (node value : CStr)
  | setext (node command : CStr)
  | timer (command : CStr)

namespace Request

section

variable (sock : Socket) (flags : UInt32) (r : Request)

def run : Request → Bool × List UInt8
  | get node => xmldbcGet sock flags node
  | set node value => xmldbcSet sock flags node value
  | setext node command => xmldbcSetext sock flags node command
  | timer command => xmldbcTimer sock flags command

def action : Request → UInt16
  | get _ => 1
  | set _ _ => 2
  | setext _ _ => 11
  | timer _ => 12

def text : Request → List UInt8
  | get s | timer s => s.1
  | set s t | setext s t => s.1 ++ 32 :: t.1

/-- Unless an error is returned before the reply is read, a header with the right length and the
whole text were sent. -/
def Whole : Prop :=
  (r.run sock flags).1 = true → ∃ ipc : RgdbIpc, ipc.action = r.action ∧ ipc.flags = flags ∧
    ipc.length.toNat = (r.text ++ [0]).length ∧
    (r.run sock flags).2 = ipc.bytes ++ (r.text ++ [0])

/-- The length of the text with its end mark is zero in sixteen bits. -/
def Wraps : Request → Prop
  | get s | timer s => (s.1.length + 1) % 65536 = 0
  | set _ _ | setext _ _ => False

/-- The text has room in the length of the header, or in the buffer. -/
def HasRoom : Request → Prop
  | get s | timer s => s.1.length + 1 < 65536
  | set s t | setext s t => s.1.length + 1 + t.1.length ≤ 510

/-- The text that the function has when it calls `send`. -/
def kept : Request → List UInt8
  | get s | timer s => s.1
  | set s t | setext s t => joined s t

def Refused : Prop :=
  sock.opened = false ∨ sock.header.getD 0 = 0 ∨ sock.payload.getD 0 = 0 ∨ r.Wraps

/-- Both calls of `send` take all they are given, and the text has room. -/
def Complete : Prop :=
  12 ≤ sock.header.getD 0 ∧ r.text.length + 1 ≤ sock.payload.getD 0 ∧ r.HasRoom

/-- How many bytes of the text the second `send` is given. -/
def lengthSent : ℕ := (r.kept.length + 1) % 65536

end

theorem run_eq (sock : Socket) (flags : UInt32) (r : Request) :
    r.run sock flags = cmd sock r.action flags (r.kept ++ [0]) (r.kept.length + 1) := by
  cases r <;> rfl

theorem kept_length_le (r : Request) : r.kept.length ≤ r.text.length := by
  cases r with
  | get | timer => exact Nat.le_refl _
  | set | setext => exact length_take_le' _ _

theorem lengthSent_eq_zero_iff (r : Request) : r.lengthSent = 0 ↔ r.Wraps := by
  cases r with
  | get | timer => exact Iff.rfl
  | set s t | setext s t =>
    have hle : (joined s t).length ≤ 510 := length_take_le _ _
    simp only [lengthSent, kept, Wraps, iff_false]
    omega

theorem lengthSent_eq_iff (r : Request) : r.lengthSent = r.text.length + 1 ↔ r.HasRoom := by
  cases r with
  | get s | timer s =>
    simp only [lengthSent, kept, text, HasRoom]
    omega
  | set s t | setext s t =>
    simp only [lengthSent, kept, joined, text, HasRoom, length_take, length_append,
      length_cons]
    omega

theorem kept_eq_text {r : Request} (h : r.HasRoom) : r.kept = r.text := by
  cases r with
  | get | timer => rfl
  | set s t | setext s t =>
    apply take_of_length_le
    simp only [HasRoom] at h
    rw [length_append, length_cons]
    omega

end Request

theorem send_eq_of_getD {result : Option ℕ} (h : result.getD 0 ≠ 0) (data : List UInt8) :
    send result data = some (data.take (result.getD 0)) := by
  cases result with
  | none => exact absurd rfl h
  | some k => rfl

theorem sendXmldbCmd_eq {sock : Socket} {action : UInt16} {flags : UInt32} {data : List UInt8}
    {length : UInt16} (hheader : sock.header.getD 0 ≠ 0) (hpayload : sock.payload.getD 0 ≠ 0)
    (hdata : data.take length.toNat ≠ []) :
    sendXmldbCmd sock action flags data length =
      (true, (RgdbIpc.mk action length flags sock.retcode).bytes.take (sock.header.getD 0) ++
        (data.take length.toNat).take (sock.payload.getD 0)) := by
  obtain ⟨h, hh⟩ := Nat.exists_eq_succ_of_ne_zero hheader
  obtain ⟨p, hp⟩ := Nat.exists_eq_succ_of_ne_zero hpayload
  obtain ⟨b, bs, hb⟩ := exists_cons_of_ne_nil hdata
  simp only [sendXmldbCmd, send_eq_of_getD hheader, send_eq_of_getD hpayload, hh, hp, hb,
    take_succ_cons, RgdbIpc.bytes, shortBytes, cons_append]

/-- It does not if one of them takes nothing. -/
theorem sendXmldbCmd_refused {sock : Socket} {action : UInt16} {flags : UInt32}
    {data : List UInt8} {length : UInt16}
    (h : sock.header.getD 0 = 0 ∨ sock.payload.getD 0 = 0 ∨ data.take length.toNat = []) :
    (sendXmldbCmd sock action flags data length).1 = false := by
  have hnothing {result : Option ℕ} {l : List UInt8} (h : result.getD 0 = 0 ∨ l = []) :
      send result l = none ∨ send result l = some [] := by
    cases result with
    | none => exact .inl rfl
    | some k =>
      obtain rfl | rfl := h
      · exact .inr (congrArg some take_zero)
      · exact .inr (congrArg some take_nil)
  obtain h | h := h
  · obtain hnone | hnone := hnothing (Or.inl (b :=
        (RgdbIpc.mk action length flags sock.retcode).bytes = []) h)
    all_goals simp only [sendXmldbCmd, hnone]
  · obtain hnone | hnone := hnothing h
    all_goals
      simp only [sendXmldbCmd, hnone]
      split <;> rfl

namespace Request

/-- For every request and whatever the calls of `send` return: the command is sent whole or an error
is returned, exactly if a call takes nothing, or both take all of a text that has room. -/
theorem whole_iff (sock : Socket) (flags : UInt32) (r : Request) :
    r.Whole sock flags ↔ r.Refused sock ∨ r.Complete sock := by
  have hlength : (UInt16.ofNat (r.kept.length + 1)).toNat = r.lengthSent := UInt16.toNat_ofNat'
  have hgiven : ((r.kept ++ [0]).take r.lengthSent).length = r.lengthSent := by
    rw [length_take, length_append, length_singleton, lengthSent]
    omega
  by_cases hrefused : r.Refused sock
  · refine iff_of_true (fun hgood => ?_) (.inl hrefused)
    have hbad : (r.run sock flags).1 = false := by
      rw [run_eq, cmd]
      split
      case isFalse => rfl
      case isTrue hopened =>
        apply sendXmldbCmd_refused
        obtain h | h | h | h := hrefused
        · exact absurd (hopened.symm.trans h) (by decide)
        · exact .inl h
        · exact .inr (.inl h)
        · rw [hlength, (lengthSent_eq_zero_iff r).mpr h]
          exact .inr (.inr take_zero)
    exact absurd (hgood.symm.trans hbad) (by decide)
  · rw [or_iff_right hrefused]
    simp only [Refused, not_or, Bool.not_eq_false, ← lengthSent_eq_zero_iff] at hrefused
    obtain ⟨hopened, hheader, hpayload, hsome⟩ := hrefused
    have hrun : r.run sock flags =
        (true, (RgdbIpc.mk r.action (UInt16.ofNat (r.kept.length + 1)) flags
          sock.retcode).bytes.take (sock.header.getD 0) ++
          ((r.kept ++ [0]).take r.lengthSent).take (sock.payload.getD 0)) := by
      rw [run_eq, cmd, if_pos hopened, sendXmldbCmd_eq hheader hpayload, hlength]
      rw [hlength]
      exact ne_nil_of_length_pos (by omega)
    rw [Whole, hrun]
    constructor
    · intro h
      obtain ⟨ipc, -, -, -, hbytes⟩ := h rfl
      have hcount := congrArg length hbytes
      have hkept := kept_length_le r
      have hle : r.lengthSent ≤ r.kept.length + 1 := Nat.mod_le _ _
      rw [length_append, length_append, length_take, length_take,
        RgdbIpc.length_bytes, RgdbIpc.length_bytes, hgiven, length_append,
        length_singleton] at hcount
      exact ⟨by omega, by omega, (lengthSent_eq_iff r).mp (by omega)⟩
    · rintro ⟨hheader, hpayload, hroom⟩ -
      have hall := (lengthSent_eq_iff r).mpr hroom
      refine ⟨⟨r.action, UInt16.ofNat (r.kept.length + 1), flags, sock.retcode⟩, rfl, rfl, ?_, ?_⟩
      · rw [hlength, hall, length_append, length_singleton]
      · have hcount : (r.text ++ [0]).length = r.text.length + 1 := length_append
        rw [take_of_length_le (by rwa [RgdbIpc.length_bytes]), hall, kept_eq_text hroom,
          ← hcount, take_length, take_of_length_le (by rwa [hcount])]

/-- One byte of a node is sent, and a value that is too long is cut: both calls go well. -/
theorem not_whole :
    ¬ (get ⟨[47, 97], by decide⟩).Whole ⟨true, some 12, some 1, 0⟩ 0 ∧
      ¬ (set ⟨[47, 97], by decide⟩ ⟨List.replicate 508 65, by decide +kernel⟩).Whole
        ⟨true, some 12, some 600, 0⟩ 0 := by
  constructor
  · intro h
    obtain ⟨ipc, -, -, hlength, hbytes⟩ := h (by decide)
    exact absurd (congrArg length hbytes) (by rw [length_append, ipc.length_bytes]; decide)
  · intro h
    obtain ⟨ipc, -, -, hlength, hbytes⟩ := h (by decide +kernel)
    exact absurd (congrArg length hbytes)
      (by rw [length_append, ipc.length_bytes]; decide +kernel)

end Request

end Wbr1310.Comlib.Xmldbc
