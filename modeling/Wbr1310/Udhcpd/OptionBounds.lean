import Wbr1310.Lib.Digits
import Wbr1310.Udhcpd.Server

/-!
# Where the scans of the options go

What `get_option` reads of a received packet, and what `end_option` and `add_option_string` read and
write when a lease time is added to it. `get_option` compares an option with the end of its field
when it has the code that is looked for, and reads the length byte before that; `end_option` goes on
until it finds the end option, wherever that is.
-/

namespace Wbr1310.Udhcpd

open Lib List Nat

/-- Where a field begins in `struct dhcpMessage`. -/
def Field.offset : Field → ℕ
  | options => 240
  | file => 108
  | sname => 44

def sizeofDhcpMessage : ℕ := 548

def dhcpMagic : ℕ := 0x63825363
def bootRequest : UInt8 := 1
def dhcpVendor : UInt8 := 0x3c

def memBytes (mem : ℕ → UInt8) (i n : ℕ) : List UInt8 := (List.range n).map fun k => mem (i + k)

def packetAt (mem : ℕ → UInt8) : Packet where
  chaddr := BitVec.ofNat 128 (fromBigEndian (memBytes mem 28 16))
  ciaddr := UInt32.ofNat (fromBigEndian (memBytes mem 12 4))
  field f k := mem (f.offset + k)

/-- The vendor class is the only one of `broken_vendors`, `MSFT 98`. -/
def Packet.brokenVendor (p : Packet) : Bool :=
  match p.getOption dhcpVendor with
  | none => false
  | some (f, i) =>
    p.field f (i - 1) = 7 ∧ memBytes (p.field f) i 7 = [77, 83, 70, 84, 32, 57, 56]

/-- The memory of the packet, cleared, after bytes have come from the socket. -/
def received (stack : ℕ → UInt8) (bytes : List UInt8) : ℕ → UInt8 := fun k =>
  if k < sizeofDhcpMessage then bytes.getD k 0 else stack k

/-- `get_packet`, for bytes that have come from the socket. -/
def getPacket (stack : ℕ → UInt8) (bytes : List UInt8) : Option (ℕ → UInt8) :=
  let mem := received stack bytes
  if fromBigEndian (memBytes mem 236 4) ≠ dhcpMagic then none
  else if mem 0 = bootRequest ∧ (packetAt mem).brokenVendor then
    some (Function.update mem 10 (mem 10 ||| 0x80))
  else some mem

/-- The position is in one of the fields that can hold options. -/
def InFields (k : ℕ) : Prop := ∃ f : Field, f.offset ≤ k ∧ k < f.offset + f.length

namespace Packet

/-- The positions of the field that a round of `get_option` reads. -/
def scanReads (p : Packet) (code : UInt8) (c : Cursor) : List ℕ :=
  let optionptr := p.field c.curr
  let length := c.curr.length
  if length ≤ c.i then []
  else c.i ::
    if optionptr c.i = code then [c.i + 1]
    else if optionptr c.i = dhcpPadding then []
    else if optionptr c.i = dhcpOptionOver then
      (c.i + 1) :: if length ≤ c.i + 1 + (optionptr (c.i + 1)).toNat then [] else [c.i + 3, 1]
    else if optionptr c.i = dhcpEnd then []
    else [c.i + 1]

/-- The cursors that `get_option` comes to. -/
inductive Passes (p : Packet) (code : UInt8) : Cursor → Prop where
  | first : Passes p code .first
  | next {c c' : Cursor} (passes : Passes p code c) (more : p.scan code c = .more c') :
      Passes p code c'

/-- The loop of `get_option` ends within so many rounds. -/
def Ends (p : Packet) (code : UInt8) : ℕ → Cursor → Prop
  | 0, _ => False
  | n + 1, c => match p.scan code c with
    | .more c' => Ends p code n c'
    | _ => True

/-- `get_option` ends, reads only the three fields, and gives only an option with the code that is
whole in its field. -/
structure GetSafe (p : Packet) (code : UInt8) : Prop where
  ends : p.Ends code 503 .first
  reads : ∀ c, p.Passes code c → ∀ k ∈ p.scanReads code c, InFields (c.curr.offset + k)
  result : ∀ f i, p.getOption code = some (f, i) → ∃ j, i = j + 2 ∧ p.field f j = code ∧
    j + 1 < f.length ∧ i + (p.field f (j + 1)).toNat ≤ f.length

end Packet

/-- What `end_option` reads. -/
def endOptionReads (optionptr : ℕ → UInt8) : ℕ → ℕ → List ℕ
  | 0, _ => []
  | n + 1, i =>
    if optionptr i = dhcpEnd then [i]
    else if optionptr i = dhcpPadding then i :: endOptionReads optionptr n (i + 1)
    else i :: (i + 1) :: endOptionReads optionptr n (i + ((optionptr (i + 1)).toNat + 2))

/-- What `add_option_string` reads and writes of the options, for data of a length. -/
def addOptionStringAccesses (fuel : ℕ) (optionptr : ℕ → UInt8) (length : ℕ) : Option (List ℕ) :=
  (endOption optionptr fuel 0).map fun pos =>
    endOptionReads optionptr fuel 0 ++
      if 308 ≤ pos + length + 2 + 1 then [] else (List.range (length + 3)).map (pos + ·)

/-- What `add_simple_option` reads and writes of the options. -/
def addSimpleOptionAccesses (fuel : ℕ) (optionptr : ℕ → UInt8) (code : UInt8) :
    Option (List ℕ) :=
  let length := options.foldl (fun n o => if o.2 = code then o.1.length else n) 0
  if length = 0 then some [] else addOptionStringAccesses fuel optionptr length

namespace Packet

/-- Adding the lease time reads and writes only the options field. -/
def AppendSafe (p : Packet) : Prop :=
  ∃ fuel accesses, addSimpleOptionAccesses fuel (p.field .options) dhcpLeaseTime = some accesses ∧
    ∀ k ∈ accesses, k < Field.options.length

/-- The server adds the lease time to the packet: it is a request for the address that is reserved
for its client. -/
def Appends (cfg : ServerConfig) (p : Packet) : Prop :=
  p.messageType = some dhcpRequest ∧ p.optionWord dhcpServerId = some cfg.server ∧
    ∃ l, cfg.findStaticLeaseByChaddr p.chaddr = some l ∧
      p.optionWord dhcpRequestedIp = some l.yiaddr

/-- The way from an option to the next one, or to the field behind. The length of an overload option
is taken from the second byte of the field, and its value from the second byte of its data. -/
inductive Round (p : Packet) (c : Cursor) : Cursor → Prop where
  | padding (is : p.field c.curr c.i = dhcpPadding) : Round p c { c with i := c.i + 1 }
  | overload (is : p.field c.curr c.i = dhcpOptionOver)
      (inside : c.i + 1 + (p.field c.curr (c.i + 1)).toNat < c.curr.length) :
      Round p c ⟨c.curr, c.i + ((p.field c.curr 1).toNat + 2), p.field c.curr (c.i + 3)⟩
  | option (other : p.field c.curr c.i ∉ [dhcpPadding, dhcpOptionOver, dhcpEnd]) :
      Round p c { c with i := c.i + ((p.field c.curr (c.i + 1)).toNat + 2) }
  | file (is : p.field c.curr c.i = dhcpEnd) (curr : c.curr = .options)
      (bit : c.overload &&& 1 ≠ 0) : Round p c ⟨.file, 0, c.overload⟩
  | sname (is : p.field c.curr c.i = dhcpEnd) (curr : c.curr = .file)
      (bit : c.overload &&& 2 ≠ 0) : Round p c ⟨.sname, 0, c.overload⟩

/-- Options with other codes lead to a position in a field. -/
inductive OptionWalk (p : Packet) (code : UInt8) : Cursor → Prop where
  | start : OptionWalk p code .first
  | next {c c' : Cursor} (walk : OptionWalk p code c) (inside : c.i < c.curr.length)
      (other : p.field c.curr c.i ≠ code) (round : p.Round c c') : OptionWalk p code c'

/-- The bytes of the option at a position that are looked at are in its field. -/
def HeaderInside (p : Packet) (code : UInt8) (f : Field) (i : ℕ) : Prop :=
  (i + 1 = f.length → p.field f i ≠ code ∧ p.field f i ∈ [dhcpPadding, dhcpEnd]) ∧
    (p.field f i = dhcpOptionOver → code ≠ dhcpOptionOver →
      i + 1 + (p.field f (i + 1)).toNat < f.length → i + 3 < f.length)

/-- No option header is cut off at the end of the options field or of the file field. The server
name has the file behind it. -/
def HeadersInside (p : Packet) (code : UInt8) : Prop :=
  ∀ c, p.OptionWalk code c → c.i < c.curr.length → c.curr ≠ .sname →
    p.HeaderInside code c.curr c.i

end Packet

/-- Options lead from a position to an end option in the field. -/
inductive Terminated (optionptr : ℕ → UInt8) : ℕ → Prop where
  | done {i : ℕ} (inside : i < Field.options.length) (found : optionptr i = dhcpEnd) :
      Terminated optionptr i
  | padding {i : ℕ} (pad : optionptr i = dhcpPadding) (rest : Terminated optionptr (i + 1)) :
      Terminated optionptr i
  | option {i : ℕ} (other : optionptr i ∉ [dhcpPadding, dhcpEnd])
      (rest : Terminated optionptr (i + ((optionptr (i + 1)).toNat + 2))) : Terminated optionptr i

namespace Packet

variable {p : Packet} {code : UInt8} {c c' : Cursor}

theorem scan_more_iff :
    p.scan code c = .more c' ↔
      c.i < c.curr.length ∧ p.field c.curr c.i ≠ code ∧ p.Round c c' := by
  constructor
  · intro h
    simp only [scan] at h
    split at h
    · cases h
    next hi =>
    split at h
    · split at h <;> cases h
    next hcode =>
    refine ⟨Nat.lt_of_not_le hi, hcode, ?_⟩
    split at h
    · next his => exact Scan.more.inj h ▸ .padding his
    next hpad =>
    split at h
    · next his =>
      split at h
      · cases h
      · next hin => exact Scan.more.inj h ▸ .overload his (Nat.lt_of_not_le hin)
    next hover =>
    split at h
    · next his =>
      obtain ⟨curr, i, overload⟩ := c
      cases curr with
      | options =>
        simp only at h
        split at h
        · next hbit => exact Scan.more.inj h ▸ .file his rfl hbit
        · cases h
      | file =>
        simp only at h
        split at h
        · next hbit => exact Scan.more.inj h ▸ .sname his rfl hbit
        · cases h
      | sname => cases h
    · next hend =>
      refine Scan.more.inj h ▸ .option ?_
      simp only [mem_cons, not_mem_nil, or_false, not_or]
      exact ⟨hpad, hover, hend⟩
  · rintro ⟨hi, hcode, hround⟩
    simp only [scan]
    rw [if_neg (not_le.mpr hi), if_neg hcode]
    cases hround with
    | padding is => rw [if_pos is]
    | overload is inside =>
      rw [if_neg (by rw [is]; decide), if_pos is, if_neg (not_le.mpr inside)]
    | option other =>
      simp only [mem_cons, not_mem_nil, or_false, not_or] at other
      rw [if_neg other.1, if_neg other.2.1, if_neg other.2.2]
    | file is curr bit | sname is curr bit =>
      rw [if_neg (by rw [is]; decide), if_neg (by rw [is]; decide), if_pos is]
      simp only [curr, if_pos bit]

theorem passes_iff : p.Passes code c ↔ p.OptionWalk code c := by
  constructor
  · intro h
    induction h with
    | first => exact .start
    | next _ more ih =>
      obtain ⟨hinside, hother, hround⟩ := scan_more_iff.mp more
      exact .next ih hinside hother hround
  · intro h
    induction h with
    | start => exact .first
    | next _ hinside hother hround ih =>
      exact .next ih (scan_more_iff.mpr ⟨hinside, hother, hround⟩)

theorem ends_of_left {n : ℕ} (h : c.left < n) : p.Ends code n c := by
  induction n generalizing c with
  | zero => exact absurd h (not_lt_zero _)
  | succ n ih =>
    rw [Ends]
    split
    · next hs => exact ih (lt_of_lt_of_le (scan_left hs) (le_of_lt_succ h))
    · trivial

theorem scan_found {f : Field} {i : ℕ} (h : p.scan code c = .found f i) :
    ∃ j, i = j + 2 ∧ p.field f j = code ∧ j + 1 < f.length ∧
      i + (p.field f (j + 1)).toNat ≤ f.length := by
  simp only [scan] at h
  split at h
  · cases h
  split at h
  · next hcode =>
    split at h
    · cases h
    · next hin =>
      obtain ⟨rfl, rfl⟩ := Scan.found.inj h
      exact ⟨c.i, rfl, hcode, by omega, by omega⟩
  split at h
  · cases h
  split at h
  · split at h <;> cases h
  split at h
  · split at h
    · split at h <;> cases h
    · split at h <;> cases h
    · cases h
  · cases h

theorem getOptionFrom_found {n : ℕ} {f : Field} {i : ℕ}
    (h : p.getOptionFrom code n c = some (f, i)) :
    ∃ j, i = j + 2 ∧ p.field f j = code ∧ j + 1 < f.length ∧
      i + (p.field f (j + 1)).toNat ≤ f.length := by
  induction n generalizing c with
  | zero => cases h
  | succ n ih =>
    rw [getOptionFrom] at h
    split at h
    · next hs =>
      obtain ⟨rfl, rfl⟩ := Prod.mk.inj (Option.some.inj h)
      exact scan_found hs
    · cases h
    · exact ih h

theorem inFields_iff {f : Field} {k : ℕ} (h : k ≤ f.length + 2) :
    InFields (f.offset + k) ↔ f = .sname ∨ k < f.length := by
  constructor
  · rintro ⟨g, hle, hlt⟩
    cases f with
    | sname => exact .inl rfl
    | options | file => cases g <;> simp only [Field.offset, Field.length] at * <;> omega
  · rintro (rfl | hk)
    · rcases lt_or_ge k Field.sname.length with hk | hk
      · exact ⟨.sname, Nat.le_add_right _ _, Nat.add_lt_add_left hk _⟩
      · refine ⟨.file, Nat.add_le_add_left hk 44, ?_⟩
        exact Nat.lt_of_le_of_lt (Nat.add_le_add_left h 44) (by decide)
    · exact ⟨f, Nat.le_add_right _ _, Nat.add_lt_add_left hk _⟩

theorem two_le_length (f : Field) : 2 ≤ f.length := by cases f <;> decide

theorem scanReads_le {k : ℕ} (h : k ∈ p.scanReads code c) : k ≤ c.curr.length + 2 := by
  have hlen := two_le_length c.curr
  simp only [scanReads] at h
  split at h
  · cases h
  · next hi =>
    rcases mem_cons.mp h with rfl | h
    · omega
    split at h
    · rw [mem_singleton] at h
      omega
    split at h
    · cases h
    split at h
    · rcases mem_cons.mp h with rfl | h
      · omega
      split at h
      · cases h
      · simp only [mem_cons, not_mem_nil, or_false] at h
        omega
    split at h
    · cases h
    · rw [mem_singleton] at h
      omega

theorem scanReads_lt_iff (hi : c.i < c.curr.length) :
    (∀ k ∈ p.scanReads code c, k < c.curr.length) ↔ p.HeaderInside code c.curr c.i := by
  have hlen := two_le_length c.curr
  have hlast : c.i + 1 < c.curr.length ↔ ¬ c.i + 1 = c.curr.length := by omega
  simp only [scanReads]
  rw [if_neg (not_le.mpr hi), forall_mem_cons, HeaderInside]
  by_cases hcode : p.field c.curr c.i = code
  · rw [if_pos hcode, forall_mem_singleton, hlast]
    constructor
    · rintro ⟨-, h⟩
      exact ⟨fun he => absurd he h, fun ho hne _ => absurd (hcode.symm.trans ho) hne⟩
    · rintro ⟨h, -⟩
      exact ⟨hi, fun he => (h he).1 hcode⟩
  rw [if_neg hcode]
  by_cases hpad : p.field c.curr c.i = dhcpPadding
  · rw [if_pos hpad]
    refine iff_of_true ⟨hi, by simp⟩ ⟨fun _ => ⟨hcode, by simp [hpad]⟩, fun ho => ?_⟩
    exact absurd (hpad.symm.trans ho) (by decide)
  rw [if_neg hpad]
  by_cases hover : p.field c.curr c.i = dhcpOptionOver
  · rw [if_pos hover, forall_mem_cons, hlast]
    constructor
    · rintro ⟨-, h, hrest⟩
      refine ⟨fun he => absurd he h, fun _ _ hin => ?_⟩
      rw [if_neg (not_le.mpr hin)] at hrest
      exact hrest _ mem_cons_self
    · rintro ⟨h, hvalue⟩
      refine ⟨hi, fun he => ?_, ?_⟩
      · have hmem := (h he).2
        rw [hover] at hmem
        exact absurd hmem (by decide)
      · split
        · simp
        · next hin =>
          have := hvalue hover (fun he => hcode (hover.trans he.symm)) (Nat.lt_of_not_le hin)
          simp only [mem_cons, not_mem_nil, or_false]
          rintro k (rfl | rfl) <;> omega
  rw [if_neg hover]
  by_cases hend : p.field c.curr c.i = dhcpEnd
  · rw [if_pos hend]
    refine iff_of_true ⟨hi, by simp⟩ ⟨fun _ => ⟨hcode, by simp [hend]⟩, fun ho => ?_⟩
    exact absurd ho hover
  · rw [if_neg hend, forall_mem_singleton, hlast]
    constructor
    · rintro ⟨-, h⟩
      exact ⟨fun he => absurd he h, fun ho => absurd ho hover⟩
    · rintro ⟨h, -⟩
      refine ⟨hi, fun he => ?_⟩
      have hmem := (h he).2
      simp only [mem_cons, not_mem_nil, or_false] at hmem
      exact hmem.elim hpad hend

theorem getSafe_iff : p.GetSafe code ↔ p.HeadersInside code := by
  have hround {c : Cursor} (hi : c.i < c.curr.length) (hs : c.curr ≠ .sname) :
      (∀ k ∈ p.scanReads code c, InFields (c.curr.offset + k)) ↔
        p.HeaderInside code c.curr c.i := by
    rw [← scanReads_lt_iff hi]
    refine forall₂_congr fun k hk => ?_
    rw [inFields_iff (scanReads_le hk), or_iff_right hs]
  constructor
  · intro h c hwalk hi hs
    exact (hround hi hs).mp (h.reads c (passes_iff.mpr hwalk))
  · intro h
    refine ⟨ends_of_left (by decide), fun c hpasses => ?_, fun f i => getOptionFrom_found⟩
    by_cases hi : c.i < c.curr.length
    · by_cases hs : c.curr = .sname
      · exact fun k hk => (inFields_iff (scanReads_le hk)).mpr (.inl hs)
      · exact (hround hi hs).mpr (h c (passes_iff.mp hpasses) hi hs)
    · intro k hk
      simp only [scanReads, if_pos (not_lt.mp hi)] at hk
      cases hk

end Packet

variable {optionptr : ℕ → UInt8} {n i pos : ℕ}

theorem terminated_of_reads (hpos : endOption optionptr n i = some pos)
    (h : ∀ k ∈ endOptionReads optionptr n i, k < Field.options.length) :
    Terminated optionptr i := by
  induction n generalizing i with
  | zero => cases hpos
  | succ n ih =>
    rw [endOption] at hpos
    rw [endOptionReads] at h
    by_cases hend : optionptr i = dhcpEnd
    · rw [if_pos hend] at h
      exact .done (h i mem_cons_self) hend
    rw [if_neg hend] at h hpos
    by_cases hpad : optionptr i = dhcpPadding
    · rw [if_pos hpad] at h hpos
      exact .padding hpad (ih hpos fun k hk => h k (mem_cons_of_mem _ hk))
    · rw [if_neg hpad] at h hpos
      refine .option (by simp [hpad, hend]) (ih hpos fun k hk => h k ?_)
      exact mem_cons_of_mem _ (mem_cons_of_mem _ hk)

theorem endOption_of_terminated (h : Terminated optionptr i) :
    i < Field.options.length ∧ ∃ n pos, endOption optionptr n i = some pos ∧
      ∀ k ∈ endOptionReads optionptr n i, k < Field.options.length := by
  induction h with
  | @done i inside found =>
    refine ⟨inside, 1, i, by rw [endOption, if_pos found], ?_⟩
    rw [endOptionReads, if_pos found, forall_mem_singleton]
    exact inside
  | @padding i pad rest ih =>
    obtain ⟨hlt, n, pos, hpos, hreads⟩ := ih
    have hend : optionptr i ≠ dhcpEnd := by rw [pad]; decide
    refine ⟨lt_of_succ_lt hlt, n + 1, pos, ?_, ?_⟩
    · rw [endOption, if_neg hend, if_pos pad, hpos]
    · rw [endOptionReads, if_neg hend, if_pos pad, forall_mem_cons]
      exact ⟨lt_of_succ_lt hlt, hreads⟩
  | @option i other rest ih =>
    obtain ⟨hlt, n, pos, hpos, hreads⟩ := ih
    simp only [mem_cons, not_mem_nil, or_false, not_or] at other
    refine ⟨by omega, n + 1, pos, ?_, ?_⟩
    · rw [endOption, if_neg other.2, if_neg other.1, hpos]
    · rw [endOptionReads, if_neg other.2, if_neg other.1, forall_mem_cons,
        forall_mem_cons]
      exact ⟨by omega, by omega, hreads⟩

theorem not_terminated (h : ∀ i < Field.options.length, optionptr i ≠ dhcpEnd) (i : ℕ) :
    ¬ Terminated optionptr i := by
  intro hterminated
  induction hterminated with
  | done inside found => exact h _ inside found
  | padding _ _ ih => exact ih
  | option _ _ ih => exact ih

theorem addSimpleOptionAccesses_leaseTime (fuel : ℕ) (optionptr : ℕ → UInt8) :
    addSimpleOptionAccesses fuel optionptr dhcpLeaseTime =
      addOptionStringAccesses fuel optionptr 4 := rfl

namespace Packet

variable {p : Packet}

theorem appendSafe_iff : p.AppendSafe ↔ Terminated (p.field .options) 0 := by
  simp only [AppendSafe, addSimpleOptionAccesses_leaseTime, addOptionStringAccesses,
    Option.map_eq_some_iff]
  constructor
  · rintro ⟨fuel, -, ⟨pos, hpos, rfl⟩, h⟩
    exact terminated_of_reads hpos fun k hk => h k (mem_append_left _ hk)
  · intro h
    obtain ⟨-, n, pos, hpos, hreads⟩ := endOption_of_terminated h
    refine ⟨n, _, ⟨pos, hpos, rfl⟩, fun k hk => ?_⟩
    rcases mem_append.mp hk with hk | hk
    · exact hreads k hk
    · split at hk
      · cases hk
      · next hroom =>
        simp only [mem_map, mem_range] at hk
        obtain ⟨j, hj, rfl⟩ := hk
        simp only [Field.length]
        omega

/-- For every packet and every code the scans stay in the packet exactly when no option header is
cut off, and an end option is reached in the options field if the server adds a lease time. -/
theorem options_safe_iff (cfg : ServerConfig) (mem : ℕ → UInt8) (code : UInt8) :
    (packetAt mem).GetSafe code ∧ ((packetAt mem).Appends cfg → (packetAt mem).AppendSafe) ↔
      (packetAt mem).HeadersInside code ∧
        ((packetAt mem).Appends cfg → Terminated ((packetAt mem).field .options) 0) := by
  rw [getSafe_iff, appendSafe_iff]

theorem OptionWalk.option {code : UInt8} {f : Field} {i n : ℕ} {o : UInt8}
    (walk : p.OptionWalk code ⟨f, i, o⟩) (inside : i < f.length)
    (other : p.field f i ∉ [code, dhcpPadding, dhcpOptionOver, dhcpEnd])
    (hn : (p.field f (i + 1)).toNat = n) : p.OptionWalk code ⟨f, i + (n + 2), o⟩ := by
  rw [mem_cons, not_or] at other
  exact hn ▸ .next walk inside other.1 (.option other.2)

/-- A request with the given options from the client 02:00:00:00:00:01. -/
def requestBytes (options : List UInt8) : List UInt8 :=
  1 :: List.replicate 27 0 ++ [2, 0, 0, 0, 0, 1] ++ List.replicate 202 0 ++
    [0x63, 0x82, 0x53, 0x63] ++ options

/-- A request for the reserved address that has no end option. -/
def endlessRequest : List UInt8 :=
  requestBytes [53, 1, 3, 54, 4, 192, 168, 0, 1, 50, 4, 192, 168, 0, 10]

/-- Two options that are not asked for, and the code of one that is in the last byte. -/
def cutRequest : List UInt8 :=
  requestBytes ([1, 255] ++ List.replicate 255 0 ++ [1, 48] ++ List.replicate 48 0 ++ [53])

/-- The server 192.168.0.1 has reserved 192.168.0.10 for the client. -/
def reservingLan : ServerConfig where
  server := 0xC0A80001
  startAddr := 0xC0A80064
  endAddr := 0xC0A80065
  lease := 3600
  minLease := 60
  offerTime := 60
  conflictTime := 3600
  declineTime := 3600
  remaining := true
  staticLeases := [⟨0x02000000000100000000000000000000, 0xC0A8000A⟩]

theorem getPacket_requests :
    getPacket (fun _ => 0) endlessRequest = some (received (fun _ => 0) endlessRequest) ∧
      getPacket (fun _ => 0) cutRequest = some (received (fun _ => 0) cutRequest) := by
  constructor
  · simp only [getPacket]
    rw [if_neg (by decide +kernel), if_neg (by decide +kernel)]
  · simp only [getPacket]
    rw [if_neg (by decide +kernel), if_neg (by decide +kernel)]

/-- Without an end option the lease time is added behind the packet; a code in the last byte lets
`get_option` read the byte behind it. -/
theorem options_unsafe :
    (∃ mem, getPacket (fun _ => 0) endlessRequest = some mem ∧
      ¬ ((packetAt mem).GetSafe dhcpMessageType ∧
        ((packetAt mem).Appends reservingLan → (packetAt mem).AppendSafe))) ∧
    ∃ mem, getPacket (fun _ => 0) cutRequest = some mem ∧
      ¬ ((packetAt mem).GetSafe dhcpMessageType ∧
        ((packetAt mem).Appends reservingLan → (packetAt mem).AppendSafe)) := by
  refine ⟨⟨_, getPacket_requests.1, ?_⟩, _, getPacket_requests.2, ?_⟩
  · rintro ⟨-, happend⟩
    have happends : (packetAt (received (fun _ => 0) endlessRequest)).Appends reservingLan :=
      ⟨by decide +kernel, by decide +kernel,
        ⟨0x02000000000100000000000000000000, 0xC0A8000A⟩, by decide +kernel, by decide +kernel⟩
    have hnone : ∀ i < Field.options.length,
        (packetAt (received (fun _ => 0) endlessRequest)).field .options i ≠ dhcpEnd := by
      decide +kernel
    exact not_terminated hnone 0 (appendSafe_iff.mp (happend happends))
  · rintro ⟨hget, -⟩
    have hwalk : (packetAt (received (fun _ => 0) cutRequest)).OptionWalk dhcpMessageType
        ⟨.options, 307, 0⟩ :=
      OptionWalk.option (i := 257) (n := 48)
        (OptionWalk.start.option (n := 255) (by decide) (by decide +kernel) (by decide +kernel))
        (by decide) (by decide +kernel) (by decide +kernel)
    have hheader := getSafe_iff.mp hget _ hwalk (by decide) (by decide)
    exact absurd (hheader.1 rfl).1 (by decide +kernel)

end Packet

end Wbr1310.Udhcpd
