import Wbr1310.Lib.Digits
import Wbr1310.Lib.Machine
import Wbr1310.Lib.Words
import Wbr1310.Udhcpd.Leases

/-!
# The configuration file of the server

`read_config` and the functions that read a line. A line that cannot be parsed is read again with
the default of its keyword; for a reservation that is the empty text, in which `strtok` finds no
word. A null pointer that is followed ends the server, and is the result `none` here.
-/

namespace Wbr1310.Udhcpd.ConfigFile

open Lib Text Machine List Option

/-- What `read_config` sets. The reservations are those up to `index`. -/
structure Config where
  start : UInt32
  last : UInt32
  interface : Option Text
  options : List (UInt8 × List UInt8)
  maxLeases : UInt32
  remaining : Bool
  autoTime : UInt32
  declineTime : UInt32
  conflictTime : UInt32
  offerTime : UInt32
  minLease : UInt32
  leaseFile : Option Text
  pidfile : Option Text
  notifyFile : Option Text
  siaddr : UInt32
  sname : Option Text
  bootFile : Option Text
  staticLeases : List StaticLease

def Config.blank : Config :=
  ⟨0, 0, none, [], 0, false, 0, 0, 0, 0, 0, none, none, none, 0, none, none, []⟩

/-- Functions of the C library, and what stands in memory behind a line. `strtoul` and `strtol` give
the number and the text behind it. -/
structure Libc where
  inetAton : Text → Option UInt32
  gethostbyname : Text → Option UInt32
  strtoul : Text → UInt32 × Text
  strtol : Text → UInt32 × Text
  behind : Text → Text

variable (libc : Libc)

/-- The result of a function that reads a line: `none` if a null pointer is followed. -/
abbrev Outcome := Option (Bool × Config)

section

variable (put : UInt32 → Config → Config) (line : Text) (cfg : Config)

def Libc.resolve : Option UInt32 := (libc.inetAton line).or (libc.gethostbyname line)

/-- `read_ip`, for a pointer that may be null. -/
def readIp (line : Option Text) : Option (Option UInt32) := line.map libc.resolve

/-- `read_ip` for a variable. -/
def readIpTo : Outcome :=
  (readIp libc (some line)).map fun
    | some addr => (true, put addr cfg)
    | none => (false, cfg)

/-- `read_str` for a variable. -/
def readStrTo (put : Text → Config → Config) (line : Text) (cfg : Config) : Outcome :=
  some (true, put line cfg)

/-- `read_u32` for a variable, which is set in any case. -/
def readU32To : Outcome :=
  let (value, endptr) := libc.strtoul line
  some (endptr = [], put value cfg)

/-- `read_yn` for a variable. -/
def readYnTo (put : Bool → Config → Config) (line : Text) (cfg : Config) : Outcome :=
  if EqIgnoreCase "yes".toList line then some (true, put true cfg)
  else if EqIgnoreCase "no".toList line then some (true, put false cfg)
  else some (false, cfg)

/-- An entry of the table `options`. -/
structure DhcpOption where
  name : String
  type : OptionType
  list : Bool
  code : UInt8

/-- The table `options`. -/
def dhcpOptions : List DhcpOption :=
  [⟨"subnet", .ip, false, 0x01⟩, ⟨"timezone", .s32, false, 0x02⟩, ⟨"router", .ip, true, 0x03⟩,
    ⟨"timesvr", .ip, true, 0x04⟩, ⟨"namesvr", .ip, true, 0x05⟩, ⟨"dns", .ip, true, 0x06⟩,
    ⟨"logsvr", .ip, true, 0x07⟩, ⟨"cookiesvr", .ip, true, 0x08⟩, ⟨"lprsvr", .ip, true, 0x09⟩,
    ⟨"hostname", .string, false, 0x0c⟩, ⟨"bootsize", .u16, false, 0x0d⟩,
    ⟨"domain", .string, false, 0x0f⟩, ⟨"swapsvr", .ip, false, 0x10⟩,
    ⟨"rootpath", .string, false, 0x11⟩, ⟨"ipttl", .u8, false, 0x17⟩, ⟨"mtu", .u16, false, 0x1a⟩,
    ⟨"broadcast", .ip, false, 0x1c⟩, ⟨"ntpsrv", .ip, true, 0x2a⟩, ⟨"wins", .ip, true, 0x2c⟩,
    ⟨"requestip", .ip, false, 0x32⟩, ⟨"lease", .u32, false, 0x33⟩, ⟨"dhcptype", .u8, false, 0x35⟩,
    ⟨"serverid", .ip, false, 0x36⟩, ⟨"message", .string, false, 0x38⟩,
    ⟨"tftp", .string, false, 0x42⟩, ⟨"bootfile", .string, false, 0x43⟩]

/-- `attach_option`, for a list of options that is sorted by code. -/
def attachOption (option : DhcpOption) (data : List UInt8) :
    List (UInt8 × List UInt8) → List (UInt8 × List UInt8)
  | [] => [(option.code, data)]
  | (code, old) :: rest =>
    if code < option.code then (code, old) :: attachOption option data rest
    else if code = option.code then
      if option.list = true ∧ old.length + data.length ≤ 255 then (code, old ++ data) :: rest
      else (code, old) :: rest
    else (option.code, data) :: (code, old) :: rest

/-- The bytes of a value, or `none` if it cannot be parsed. -/
def readValue (type : OptionType) (val : Text) : Option (List UInt8) :=
  match type with
  | .ip => (libc.resolve val).map fun addr => bigEndian 4 addr.toNat
  | .string =>
    if 0 < val.length then some ((val.take 254).map fun c => UInt8.ofNat c.toNat) else none
  | .u8 =>
    let (value, endptr) := libc.strtoul val
    if endptr = [] then some [value.toUInt8] else none
  | .u16 =>
    let (value, endptr) := libc.strtoul val
    if endptr = [] then some (bigEndian 2 value.toNat) else none
  | .u32 =>
    let (value, endptr) := libc.strtoul val
    if endptr = [] then some (bigEndian 4 value.toNat) else none
  | .s32 =>
    let (value, endptr) := libc.strtol val
    if endptr = [] then some (bigEndian 4 value.toNat) else none

/-- The loop of `read_opt` for the types of more than one byte: the values that are left, `retval`,
and the options. -/
def readValues (option : DhcpOption) (rest : Text) (retval : Bool)
    (options : List (UInt8 × List UInt8)) : Bool × List (UInt8 × List UInt8) :=
  match _h : strtok [',', ' ', '\t'] rest with
  | none => (retval, options)
  | some (val, rest') =>
    match readValue libc option.type val with
    | none => (false, options)
    | some data =>
      if option.list then readValues option rest' true (attachOption option data options)
      else (true, attachOption option data options)
termination_by rest.length
decreasing_by exact length_of_strtok _h

def readOpt : Outcome :=
  match strtok [' ', '\t', '='] line with
  | none => some (false, cfg)
  | some (opt, rest) =>
    -- the last entry with the name is taken
    match dhcpOptions.reverse.find? fun o => o.name.toList = opt with
    | none => some (false, cfg)
    | some option =>
      if 1 < option.type.length then
        let (retval, options) := readValues libc option rest false cfg.options
        some (retval, { cfg with options })
      else
        -- the text behind the word, or behind the line if nothing follows the word
        let val :=
          if opt.length < line.length then line.drop (opt.length + 1) else libc.behind line
        match readValue libc option.type val with
        | none => some (false, cfg)
        | some data => some (true, { cfg with options := attachOption option data cfg.options })

def hexDigit (c : Char) : Option ℕ :=
  if c.isDigit then some (c.toNat - '0'.toNat)
  else if 'a' ≤ c ∧ c ≤ 'f' then some (c.toNat - 'a'.toNat + 10)
  else if 'A' ≤ c ∧ c ≤ 'F' then some (c.toNat - 'A'.toNat + 10)
  else none

def skipSeparator : Text → Text
  | [] => []
  | c :: bufp => if c = ':' ∨ c = '-' then bufp else c :: bufp

def readOctet (c : Char) (bufp : Text) : Option (ℕ × Text) := do
  let high ← hexDigit c
  match bufp with
  | [] => some (high, [])
  | d :: rest =>
    match hexDigit d with
    | some low => some (high * 16 + low, skipSeparator rest)
    | none => if d = ':' ∨ d = '-' then some (high, skipSeparator rest) else none

/-- The loop of `read_haddr`, with so many octets left. -/
def readOctets : ℕ → Text → Option (List ℕ × Text)
  | 0, bufp => some ([], bufp)
  | _ + 1, [] => some ([], [])
  | n + 1, c :: bufp => do
    let (octet, bufp) ← readOctet c bufp
    let (octets, bufp) ← readOctets n bufp
    some (octet :: octets, bufp)

/-- `read_haddr`, without its call of `strtok`, which finds the same word again. -/
def readHaddr : Option (List ℕ) :=
  match readOctets 6 line with
  | some (octets, []) => if octets.length = 6 then some octets else none
  | _ => none

/-- The 16 bytes of `chaddr`. -/
def chaddrOf (octets : List ℕ) : Chaddr :=
  BitVec.ofNat 128 (fromBigEndian (octets.map UInt8.ofNat ++ List.replicate 10 0))

def readStatic : Outcome :=
  if maxStaticLeases ≤ cfg.staticLeases.length then some (false, cfg)
  else
    let word := strtok [',', ' ', '\t'] line
    (readIp libc (word.map Prod.fst)).bind fun yiaddr =>
      match yiaddr, word.bind fun (_, rest) => strtok [',', ' ', '\t', '/', '-'] rest with
      | some yiaddr, some (val, _) =>
        match readHaddr val with
        | some octets =>
          some (true,
            { cfg with staticLeases := cfg.staticLeases ++ [⟨chaddrOf octets, yiaddr⟩] })
        | none => some (false, cfg)
      | _, _ => some (false, cfg)

end

/-- `struct config_keyword`. -/
structure Keyword where
  keyword : String
  handler : Libc → Text → Config → Outcome
  default : String

/-- The table `keywords`. -/
def keywords : List Keyword :=
  [⟨"start", fun l => readIpTo l fun x c => { c with start := x }, "192.168.0.20"⟩,
    ⟨"end", fun l => readIpTo l fun x c => { c with last := x }, "192.168.0.254"⟩,
    ⟨"interface", fun _ => readStrTo fun x c => { c with interface := some x }, "eth0"⟩,
    ⟨"option", readOpt, ""⟩,
    ⟨"opt", readOpt, ""⟩,
    ⟨"max_leases", fun l => readU32To l fun x c => { c with maxLeases := x }, "254"⟩,
    ⟨"remaining", fun _ => readYnTo fun x c => { c with remaining := x }, "yes"⟩,
    ⟨"auto_time", fun l => readU32To l fun x c => { c with autoTime := x }, "7200"⟩,
    ⟨"decline_time", fun l => readU32To l fun x c => { c with declineTime := x }, "3600"⟩,
    ⟨"conflict_time", fun l => readU32To l fun x c => { c with conflictTime := x }, "3600"⟩,
    ⟨"offer_time", fun l => readU32To l fun x c => { c with offerTime := x }, "60"⟩,
    ⟨"min_lease", fun l => readU32To l fun x c => { c with minLease := x }, "60"⟩,
    ⟨"lease_file", fun _ => readStrTo fun x c => { c with leaseFile := some x },
      "/var/lib/misc/udhcpd.leases"⟩,
    ⟨"pidfile", fun _ => readStrTo fun x c => { c with pidfile := some x },
      "/var/run/udhcpd.pid"⟩,
    ⟨"notify_file", fun _ => readStrTo fun x c => { c with notifyFile := some x }, ""⟩,
    ⟨"siaddr", fun l => readIpTo l fun x c => { c with siaddr := x }, "0.0.0.0"⟩,
    ⟨"sname", fun _ => readStrTo fun x c => { c with sname := some x }, ""⟩,
    ⟨"boot_file", fun _ => readStrTo fun x c => { c with bootFile := some x }, ""⟩,
    ⟨"static", readStatic, ""⟩]

def trimEnd (s : Text) : Text := (s.reverse.dropWhile isSpace).reverse

/-- The keyword of a line and the rest, if there is something behind the keyword. -/
def splitLine (text : Text) : Option (Text × Text) :=
  let token := text.dropWhile (· ∈ [' ', '\t'])
  match token.dropWhile (· ∉ [' ', '\t', '=']) with
  | [] => none
  | _ :: line =>
    some (token.takeWhile (· ∉ [' ', '\t', '=']),
      trimEnd (line.dropWhile (· ∈ [' ', '\t', '='])))

/-- A keyword is compared with the one of the line, and the line is read. -/
def tryKeyword (token line : Text) (cfg : Config) (k : Keyword) : Option Config :=
  if EqIgnoreCase token k.keyword.toList then
    (k.handler libc line cfg).bind fun
      | (true, cfg) => some cfg
      | (false, cfg) => (k.handler libc k.default.toList cfg).map Prod.snd
  else some cfg

/-- The body of the loop of `read_config`. -/
def readLine (text : Text) (cfg : Config) : Option Config :=
  match splitLine text with
  | none => some cfg
  | some (token, line) => keywords.foldlM (tryKeyword libc token line) cfg

/-- The strings in the buffer that `fgets` fills: they end at a zero, and the end of the line is cut
off. -/
def readLines (content : Text) : List Text :=
  (fgetsFrom 79 [] content).map fun buffer =>
    (buffer.takeWhile (· ≠ '\x00')).takeWhile (· ≠ '\n')

def setDefaults : Option Config :=
  (keywords.filter fun k => k.default ≠ "").foldlM
    (fun cfg k => (k.handler libc k.default.toList cfg).map Prod.snd) Config.blank

def nextLine (state : Option Config) (text : Text) : Option Config :=
  state.bind (readLine libc text)

/-- `read_config`, for a file that can be opened or not. -/
def readConfig (file : Option Text) : Outcome :=
  match file with
  | none => (setDefaults libc).map fun cfg => (false, cfg)
  | some content =>
    (run (nextLine libc) (setDefaults libc) (readLines content)).map fun cfg => (true, cfg)

/-- What stands behind `static` in a line. -/
def staticArgs (text : Text) : Option Text :=
  (splitLine text).bind fun (token, line) =>
    if EqIgnoreCase token "static".toList then some line else none

def ipWord (args : Text) : Text := args.takeWhile (· ∉ [',', ' ', '\t'])

def macWord (args : Text) : Text :=
  (args.dropWhile (· ∉ [',', ' ', '\t'])).dropWhile (· ∈ [',', ' ', '\t'])

def octetValue : Text → Option ℕ
  | [c] => hexDigit c
  | [c, d] => do
    let high ← hexDigit c
    let low ← hexDigit d
    some (high * 16 + low)
  | _ => none

def IsMac (separator : Char) (octets : List ℕ) (mac : Text) : Prop :=
  ∃ parts : List Text, parts.length = 6 ∧ parts.map octetValue = octets.map some ∧
    mac = [separator].intercalate parts

/-- An address that can be resolved, and a hardware address with the separator. -/
def Reads (separator : Char) (args : Text) (lease : StaticLease) : Prop :=
  ipWord args ≠ [] ∧ libc.resolve (ipWord args) = some lease.yiaddr ∧
    ∃ octets, IsMac separator octets (macWord args) ∧ lease.chaddr = chaddrOf octets

def Reserves (text : Text) (lease : StaticLease) : Prop :=
  ∃ args, staticArgs text = some args ∧ (Reads libc ':' args lease ∨ Reads libc '-' args lease)

/-- The line is read without a fault. A line that stands for a reservation adds it, if there is
room, and any other line adds none. -/
def LineRight (state : Option Config) (text : Text) : Prop :=
  ∃ cfg cfg', state = some cfg ∧ readLine libc text cfg = some cfg' ∧
    (∀ lease, Reserves libc text lease → cfg'.staticLeases =
      if cfg.staticLeases.length < maxStaticLeases then cfg.staticLeases ++ [lease]
      else cfg.staticLeases) ∧
    ((¬ ∃ lease, Reserves libc text lease) → cfg'.staticLeases = cfg.staticLeases)

/-- `read_config` ends without a fault, and every line is read as it is meant. -/
def Robust (file : Option Text) : Prop :=
  (readConfig libc file).isSome = true ∧
    Along (nextLine libc) (LineRight libc) (setDefaults libc) (readLines (file.getD []))

/-- The first lines for reservations, as many as there is room for, have colons in the hardware
address. -/
def ReservationsPlain (file : Option Text) : Prop :=
  ∀ args ∈ ((readLines (file.getD [])).filterMap staticArgs).take maxStaticLeases,
    ∃ lease, Reads libc ':' args lease

variable {libc}

/-- A function follows no null pointer and keeps the reservations. -/
def Keeps (handler : Text → Config → Outcome) : Prop :=
  ∀ line cfg, ∃ ok cfg', handler line cfg = some (ok, cfg') ∧
    cfg'.staticLeases = cfg.staticLeases

theorem keeps_readIpTo {put : UInt32 → Config → Config}
    (h : ∀ x c, (put x c).staticLeases = c.staticLeases) : Keeps (readIpTo libc put) := by
  intro line cfg
  simp only [readIpTo, readIp, map_some]
  cases libc.resolve line with
  | none => exact ⟨false, cfg, rfl, rfl⟩
  | some addr => exact ⟨true, _, rfl, h addr cfg⟩

theorem keeps_readStrTo {put : Text → Config → Config}
    (h : ∀ x c, (put x c).staticLeases = c.staticLeases) : Keeps (readStrTo put) :=
  fun line cfg => ⟨true, _, rfl, h line cfg⟩

theorem keeps_readU32To {put : UInt32 → Config → Config}
    (h : ∀ x c, (put x c).staticLeases = c.staticLeases) : Keeps (readU32To libc put) :=
  fun _ cfg => ⟨_, _, rfl, h _ cfg⟩

theorem keeps_readYnTo {put : Bool → Config → Config}
    (h : ∀ x c, (put x c).staticLeases = c.staticLeases) : Keeps (readYnTo put) := by
  intro line cfg
  rw [readYnTo]
  split
  · exact ⟨true, _, rfl, h true cfg⟩
  split
  · exact ⟨true, _, rfl, h false cfg⟩
  · exact ⟨false, cfg, rfl, rfl⟩

theorem keeps_readOpt : Keeps (readOpt libc) := by
  intro line cfg
  rw [readOpt]
  split
  · exact ⟨false, cfg, rfl, rfl⟩
  split
  · exact ⟨false, cfg, rfl, rfl⟩
  split
  · exact ⟨_, _, rfl, rfl⟩
  simp only
  split
  · exact ⟨false, cfg, rfl, rfl⟩
  · exact ⟨true, _, rfl, rfl⟩

theorem keywords_eq : keywords = keywords.dropLast ++ [⟨"static", readStatic, ""⟩] := rfl

variable {k : Keyword} {text part mac : Text} {octet : ℕ} {separator : Char} {parts : List Text}
  {octets : List ℕ}

theorem keeps_of_mem (h : k ∈ keywords.dropLast) : Keeps (k.handler libc) := by
  revert k
  simp only [keywords, dropLast, forall_mem_cons, not_mem_nil, false_implies,
    implies_true, and_true]
  refine ⟨keeps_readIpTo ?_, keeps_readIpTo ?_, keeps_readStrTo ?_, keeps_readOpt, keeps_readOpt,
    keeps_readU32To ?_, keeps_readYnTo ?_, keeps_readU32To ?_, keeps_readU32To ?_,
    keeps_readU32To ?_, keeps_readU32To ?_, keeps_readU32To ?_, keeps_readStrTo ?_,
    keeps_readStrTo ?_, keeps_readStrTo ?_, keeps_readIpTo ?_, keeps_readStrTo ?_,
    keeps_readStrTo ?_⟩
  all_goals exact fun _ _ => rfl

theorem tryKeyword_keeps (h : Keeps (k.handler libc)) (token line : Text) (cfg : Config) :
    ∃ cfg', tryKeyword libc token line cfg k = some cfg' ∧
      cfg'.staticLeases = cfg.staticLeases := by
  rw [tryKeyword]
  split
  · obtain ⟨ok, cfg', hread, hkeep⟩ := h line cfg
    rw [hread]
    cases ok with
    | true => exact ⟨cfg', rfl, hkeep⟩
    | false =>
      obtain ⟨ok, cfg'', hdefault, hkeep'⟩ := h k.default.toList cfg'
      exact ⟨cfg'', by simp [hdefault], hkeep'.trans hkeep⟩
  · exact ⟨cfg, rfl, rfl⟩

theorem foldlM_keeps {α : Type} {f : Config → α → Option Config} {l : List α}
    (h : ∀ k ∈ l, ∀ cfg, ∃ cfg', f cfg k = some cfg' ∧ cfg'.staticLeases = cfg.staticLeases)
    (cfg : Config) :
    ∃ cfg', l.foldlM f cfg = some cfg' ∧ cfg'.staticLeases = cfg.staticLeases := by
  induction l generalizing cfg with
  | nil => exact ⟨cfg, rfl, rfl⟩
  | cons k l ih =>
    rw [forall_mem_cons] at h
    obtain ⟨cfg', hfirst, hkeep⟩ := h.1 cfg
    obtain ⟨cfg'', hrest, hkeep'⟩ := ih h.2 cfg'
    exact ⟨cfg'', by simp [hfirst, hrest], hkeep'.trans hkeep⟩

theorem readLine_other (h : staticArgs text = none) (cfg : Config) :
    ∃ cfg', readLine libc text cfg = some cfg' ∧ cfg'.staticLeases = cfg.staticLeases := by
  rw [readLine]
  cases hsplit : splitLine text with
  | none => exact ⟨cfg, rfl, rfl⟩
  | some parts =>
    obtain ⟨token, line⟩ := parts
    have htoken : ¬ EqIgnoreCase token "static".toList := by
      intro heq
      have hargs : staticArgs text = some line := by
        rw [staticArgs, hsplit]
        exact if_pos heq
      cases hargs.symm.trans h
    refine foldlM_keeps (fun k hk cfg => ?_) cfg
    rw [keywords_eq, mem_append, mem_singleton] at hk
    rcases hk with hk | rfl
    · exact tryKeyword_keeps (keeps_of_mem hk) token line cfg
    · exact ⟨cfg, if_neg htoken, rfl⟩

theorem setDefaults_eq : ∃ cfg, setDefaults libc = some cfg ∧ cfg.staticLeases = [] := by
  have hsome : ∀ k ∈ keywords.filter fun k => k.default ≠ "", k ∈ keywords.dropLast := by
    intro k hk
    obtain ⟨hmem, hdefault⟩ := mem_filter.mp hk
    rw [keywords_eq, mem_append, mem_singleton] at hmem
    rcases hmem with hmem | rfl
    · exact hmem
    · simp at hdefault
  refine foldlM_keeps (fun k hk cfg => ?_) Config.blank
  obtain ⟨ok, cfg', hread, hkeep⟩ := keeps_of_mem (hsome k hk) k.default.toList cfg
  exact ⟨cfg', by rw [hread]; rfl, hkeep⟩

theorem hexDigit_ne {c : Char} {value : ℕ} (h : hexDigit c = some value) :
    c ∉ [',', ' ', '\t', '/', '-', ':'] := by
  intro hmem
  have hall : [',', ' ', '\t', '/', '-', ':'].all (fun d => decide (hexDigit d = none)) = true := by
    decide
  have hnone : hexDigit c = none := of_decide_eq_true (all_eq_true.mp hall c hmem)
  cases hnone.symm.trans h

theorem octet_cases (h : octetValue part = some octet) :
    (∃ c, part = [c] ∧ hexDigit c = some octet) ∨
      ∃ c d high low, part = [c, d] ∧ hexDigit c = some high ∧ hexDigit d = some low ∧
        octet = high * 16 + low := by
  match part, h with
  | [c], h => exact .inl ⟨c, rfl, h⟩
  | [c, d], h =>
    simp only [octetValue, bind_eq_bind, bind_eq_some_iff, some.injEq] at h
    obtain ⟨high, hhigh, low, hlow, rfl⟩ := h
    exact .inr ⟨c, d, high, low, rfl, hhigh, hlow, rfl⟩

theorem octet_chars (h : octetValue part = some octet) :
    part ≠ [] ∧ ∀ c ∈ part, c ∉ [',', ' ', '\t', '/', '-', ':'] := by
  obtain ⟨c, rfl, hc⟩ | ⟨c, d, high, low, rfl, hc, hd, -⟩ := octet_cases h
  · exact ⟨cons_ne_nil _ _, forall_mem_singleton.mpr (hexDigit_ne hc)⟩
  · refine ⟨cons_ne_nil _ _, forall_mem_cons.mpr ⟨hexDigit_ne hc, ?_⟩⟩
    exact forall_mem_singleton.mpr (hexDigit_ne hd)

theorem skipSeparator_of_not_mem {s : Text} (h : ∀ c ∈ s.head?, c ∉ [':', '-']) :
    skipSeparator s = s := by
  cases s with
  | nil => rfl
  | cons c s =>
    have hc : c ∉ [':', '-'] := h c rfl
    simp only [mem_cons, not_mem_nil, or_false] at hc
    exact if_neg hc

theorem readOctets_last (h : octetValue part = some octet) (n : ℕ) :
    readOctets (n + 1) part = some ([octet], []) := by
  have hnil : readOctets n [] = some ([], []) := by cases n <;> rfl
  obtain ⟨c, rfl, hc⟩ | ⟨c, d, high, low, rfl, hc, hd, rfl⟩ := octet_cases h
  · simp [readOctets, readOctet, hc, hnil]
  · simp [readOctets, readOctet, hc, hd, skipSeparator, hnil]

theorem readOctets_colon {next : Text} (h : octetValue part = some octet)
    (hnext : ∀ c ∈ next.head?, c ∉ [':', '-']) (n : ℕ) :
    readOctets (n + 1) (part ++ ':' :: next) =
      (readOctets n next).map fun (octets, bufp) => (octet :: octets, bufp) := by
  have hcolon : hexDigit ':' = none := by decide
  have hskip := skipSeparator_of_not_mem hnext
  have hread : ∃ c bufp, part ++ ':' :: next = c :: bufp ∧
      readOctet c bufp = some (octet, next) := by
    obtain ⟨c, rfl, hc⟩ | ⟨c, d, high, low, rfl, hc, hd, rfl⟩ := octet_cases h
    · exact ⟨c, ':' :: next, rfl, by simp [readOctet, hc, hcolon, hskip]⟩
    · exact ⟨c, d :: ':' :: next, rfl, by simp [readOctet, hc, hd, skipSeparator]⟩
  obtain ⟨c, bufp, heq, hoctet⟩ := hread
  rw [heq, readOctets, hoctet, bind_eq_bind, bind_some]
  simp only
  cases readOctets n next with
  | none => rfl
  | some _ => rfl

theorem intercalate_cons_cons (separator : Char) (part second : Text) (parts : List Text) :
    [separator].intercalate (part :: second :: parts) =
      part ++ separator :: [separator].intercalate (second :: parts) := by
  simp [intercalate]

theorem head_intercalate (h : parts.map octetValue = octets.map some) :
    ∀ c ∈ ([separator].intercalate parts).head?, c ∉ [',', ' ', '\t', '/', '-', ':'] := by
  match parts, octets, h with
  | [], _, _ => exact fun c hc => nomatch hc
  | part :: parts, [], h => cases h
  | part :: parts, octet :: octets, h =>
    obtain ⟨hne, hchars⟩ := octet_chars (cons.inj h).1
    obtain ⟨rest, hrest⟩ : ∃ rest, [separator].intercalate (part :: parts) = part ++ rest := by
      cases parts with
      | nil => exact ⟨[], by simp⟩
      | cons second parts => exact ⟨_, intercalate_cons_cons separator part second parts⟩
    rw [hrest, head?_append_of_ne_nil _ hne]
    exact fun c hc => hchars c (mem_of_mem_head? hc)

theorem readOctets_intercalate (hne : parts ≠ []) (h : parts.map octetValue = octets.map some) :
    readOctets parts.length ([':'].intercalate parts) = some (octets, []) := by
  induction parts generalizing octets with
  | nil => exact absurd rfl hne
  | cons part parts ih =>
    cases octets with
    | nil => cases h
    | cons octet octets =>
      obtain ⟨hpart, hparts⟩ := cons.inj h
      cases parts with
      | nil =>
        obtain rfl : octets = [] := by
          cases octets with
          | nil => rfl
          | cons _ _ => cases hparts
        rw [intercalate_singleton]
        exact readOctets_last hpart 0
      | cons second parts =>
        have hhead : ∀ c ∈ ([':'].intercalate (second :: parts)).head?, c ∉ [':', '-'] :=
          fun c hc hsep => head_intercalate hparts c hc (by
            simp only [mem_cons, not_mem_nil, or_false] at hsep ⊢
            tauto)
        rw [intercalate_cons_cons, length_cons, readOctets_colon hpart hhead,
          ih (cons_ne_nil _ _) hparts]
        rfl

theorem readHaddr_colon (h : IsMac ':' octets mac) :
    readHaddr mac = some octets := by
  obtain ⟨parts, hlength, hparts, rfl⟩ := h
  have hne : parts ≠ [] := fun hnil => nomatch hnil ▸ hlength
  have hread := readOctets_intercalate hne hparts
  have hoctets : octets.length = 6 := by
    have hlen := congrArg length hparts
    rwa [length_map, length_map, hlength, eq_comm] at hlen
  rw [hlength] at hread
  rw [readHaddr, hread]
  exact if_pos hoctets

theorem readHaddr_octet (h : octetValue part = some octet) :
    readHaddr part = none := by
  rw [readHaddr, readOctets_last h]
  rfl

/-- The second `strtok` begins in the hardware address. -/
theorem strtok_words {args : Text} (hip : ipWord args ≠ []) (hmac : macWord args ≠ [])
    (delimiters : List Char) (hsub : ∀ c ∈ [',', ' ', '\t'], c ∈ delimiters) :
    ∃ rest, strtok [',', ' ', '\t'] args = some (ipWord args, rest) ∧
      strtok delimiters rest = strtok delimiters (macWord args) := by
  have hargs : args = ipWord args ++ args.dropWhile (· ∉ [',', ' ', '\t']) :=
    takeWhile_append_dropWhile.symm
  cases hbehind : args.dropWhile (· ∉ [',', ' ', '\t']) with
  | nil =>
    rw [macWord, hbehind] at hmac
    exact absurd rfl hmac
  | cons d rest =>
    have hd : d ∈ [',', ' ', '\t'] := by
      have hhead := head?_dropWhile_not (· ∉ [',', ' ', '\t']) args
      rw [hbehind] at hhead
      exact not_not.mp (of_decide_eq_false hhead)
    have hword : ∀ c ∈ ipWord args, c ∉ [',', ' ', '\t'] := fun c hc =>
      have htake := mem_takeWhile_imp hc
      of_decide_eq_true htake
    refine ⟨rest, ?_, ?_⟩
    · rw [hbehind] at hargs
      nth_rewrite 1 [hargs]
      exact strtok_word hip hword hd rest
    · have hrest : macWord args = rest.dropWhile (· ∈ [',', ' ', '\t']) := by
        rw [macWord, hbehind]
        exact dropWhile_cons_of_pos (decide_eq_true hd)
      have hskip : ∀ c ∈ rest.takeWhile (· ∈ [',', ' ', '\t']), c ∈ delimiters := fun c hc =>
        have htake := mem_takeWhile_imp hc
        hsub c (of_decide_eq_true htake)
      have hsplit : rest = rest.takeWhile (· ∈ [',', ' ', '\t']) ++ macWord args := by
        rw [hrest, takeWhile_append_dropWhile]
      nth_rewrite 1 [hsplit]
      exact strtok_skip hskip _

theorem octet_of_mem (h : parts.map octetValue = octets.map some) (hpart : part ∈ parts) :
    ∃ octet, octetValue part = some octet := by
  have hmem : octetValue part ∈ octets.map some := h ▸ mem_map_of_mem hpart
  obtain ⟨octet, -, hoctet⟩ := mem_map.mp hmem
  exact ⟨octet, hoctet.symm⟩

theorem mem_intercalate {c : Char} (h : c ∈ [separator].intercalate parts) :
    c = separator ∨ ∃ part ∈ parts, c ∈ part := by
  induction parts with
  | nil => cases h
  | cons part parts ih =>
    cases parts with
    | nil =>
      rw [intercalate_singleton] at h
      exact .inr ⟨part, mem_cons_self, h⟩
    | cons second parts =>
      rw [intercalate_cons_cons, mem_append, mem_cons] at h
      obtain h | rfl | h := h
      · exact .inr ⟨part, mem_cons_self, h⟩
      · exact .inl rfl
      · obtain rfl | ⟨part', hpart', hc⟩ := ih h
        · exact .inl rfl
        · exact .inr ⟨part', mem_cons_of_mem _ hpart', hc⟩

theorem IsMac.cons (h : IsMac separator octets mac) :
    ∃ part octet rest, octetValue part = some octet ∧ mac = part ++ separator :: rest := by
  obtain ⟨parts, hlength, hparts, rfl⟩ := h
  match parts, hlength with
  | part :: second :: parts, _ =>
    obtain ⟨octet, hoctet⟩ := octet_of_mem hparts mem_cons_self
    exact ⟨part, octet, _, hoctet, intercalate_cons_cons separator part second parts⟩

theorem IsMac.ne_nil (h : IsMac separator octets mac) : mac ≠ [] := by
  obtain ⟨part, octet, rest, -, rfl⟩ := h.cons
  exact append_ne_nil_of_right_ne_nil _ (cons_ne_nil _ _)

theorem strtok_colon (h : IsMac ':' octets mac) :
    strtok [',', ' ', '\t', '/', '-'] mac = some (mac, []) := by
  refine strtok_last h.ne_nil fun c hc hmem => ?_
  obtain ⟨parts, -, hparts, rfl⟩ := h
  obtain rfl | ⟨part, hpart, hc⟩ := mem_intercalate hc
  · exact absurd hmem (by decide)
  · obtain ⟨octet, hoctet⟩ := octet_of_mem hparts hpart
    exact (octet_chars hoctet).2 c hc (mem_append_left [':'] hmem)

theorem strtok_dash (h : IsMac '-' octets mac) :
    ∃ part octet rest, octetValue part = some octet ∧
      strtok [',', ' ', '\t', '/', '-'] mac = some (part, rest) := by
  obtain ⟨part, octet, rest, hoctet, rfl⟩ := h.cons
  obtain ⟨hne, hchars⟩ := octet_chars hoctet
  refine ⟨part, octet, rest, hoctet, strtok_word hne (fun c hc hmem => ?_) (by decide) rest⟩
  exact hchars c hc (mem_append_left [':'] hmem)

variable {cfg cfg' : Config} {args : Text} {lease : StaticLease}

theorem readStatic_full (h : maxStaticLeases ≤ cfg.staticLeases.length) :
    readStatic libc args cfg = some (false, cfg) := if_pos h

theorem readStatic_nil (h : cfg.staticLeases.length < maxStaticLeases) :
    readStatic libc [] cfg = none := if_neg (by omega)

section

variable (hroom : cfg.staticLeases.length < maxStaticLeases)

include hroom

theorem readStatic_words {word rest val rest' : Text} {yiaddr : UInt32}
    (hword : strtok [',', ' ', '\t'] args = some (word, rest))
    (hip : libc.resolve word = some yiaddr)
    (hval : strtok [',', ' ', '\t', '/', '-'] rest = some (val, rest')) :
    readStatic libc args cfg = match readHaddr val with
      | some octets => some (true,
          { cfg with staticLeases := cfg.staticLeases ++ [⟨chaddrOf octets, yiaddr⟩] })
      | none => some (false, cfg) := by
  rw [readStatic, if_neg (by omega)]
  simp only [hword, map_some, readIp, hip, bind_some, hval]

theorem readStatic_colon (h : Reads libc ':' args lease) : readStatic libc args cfg =
      some (true, { cfg with staticLeases := cfg.staticLeases ++ [lease] }) := by
  obtain ⟨hne, hip, octets, hmac, hchaddr⟩ := h
  obtain ⟨rest, hword, hrest⟩ :=
    strtok_words hne hmac.ne_nil [',', ' ', '\t', '/', '-'] fun c hc =>
      mem_append_left ['/', '-'] hc
  rw [readStatic_words hroom hword hip (hrest.trans (strtok_colon hmac)), readHaddr_colon hmac]
  simp only [← hchaddr]

theorem readStatic_dash (h : Reads libc '-' args lease) :
    readStatic libc args cfg = some (false, cfg) := by
  obtain ⟨hne, hip, octets, hmac, hchaddr⟩ := h
  obtain ⟨rest, hword, hrest⟩ :=
    strtok_words hne hmac.ne_nil [',', ' ', '\t', '/', '-'] fun c hc =>
      mem_append_left ['/', '-'] hc
  obtain ⟨part, octet, rest', hoctet, hval⟩ := strtok_dash hmac
  rw [readStatic_words hroom hword hip (hrest.trans hval), readHaddr_octet hoctet]

end

theorem readStatic_cases {ok : Bool} (h : readStatic libc args cfg = some (ok, cfg')) :
    ok = false ∧ cfg' = cfg ∨
      ok = true ∧ ∃ lease, cfg'.staticLeases = cfg.staticLeases ++ [lease] := by
  have hfalse (h : some (false, cfg) = some (ok, cfg')) : ok = false ∧ cfg' = cfg :=
    have hpair := Prod.mk.inj (some.inj h)
    ⟨hpair.1.symm, hpair.2.symm⟩
  rw [readStatic] at h
  split at h
  · exact .inl (hfalse h)
  · obtain ⟨yiaddr, -, h⟩ := bind_eq_some_iff.mp h
    split at h
    · split at h
      · obtain ⟨rfl, rfl⟩ := Prod.mk.inj (some.inj h)
        exact .inr ⟨rfl, _, rfl⟩
      · exact .inl (hfalse h)
    · exact .inl (hfalse h)

theorem not_static_of_mem {token : Text} (htoken : EqIgnoreCase token "static".toList)
    (h : k ∈ keywords.dropLast) : ¬ EqIgnoreCase token k.keyword.toList := by
  have hkeywords : ∀ k ∈ keywords.dropLast, ¬ EqIgnoreCase "static".toList k.keyword.toList := by
    decide
  exact fun hk => hkeywords k h (htoken.symm.trans hk)

theorem foldlM_skip {α : Type} {f : Config → α → Option Config} {l : List α}
    (h : ∀ k ∈ l, f cfg k = some cfg) : l.foldlM f cfg = some cfg := by
  induction l with
  | nil => rfl
  | cons k l ih =>
    rw [forall_mem_cons] at h
    rw [foldlM_cons, h.1]
    exact ih h.2

theorem readLine_static (h : staticArgs text = some args) :
    readLine libc text cfg = (readStatic libc args cfg).bind fun
      | (true, cfg) => some cfg
      | (false, cfg) => (readStatic libc [] cfg).map Prod.snd := by
  obtain ⟨⟨token, line⟩, hsplit, hargs⟩ := bind_eq_some_iff.mp h
  have htoken : EqIgnoreCase token "static".toList := by
    by_contra hne
    exact nomatch (if_neg hne).symm.trans hargs
  obtain rfl : line = args := some.inj ((if_pos htoken).symm.trans hargs)
  have hskip : keywords.dropLast.foldlM (tryKeyword libc token line) cfg = some cfg :=
    foldlM_skip fun k hk => if_neg (not_static_of_mem htoken hk)
  rw [readLine, hsplit]
  simp only
  rw [keywords_eq, foldlM_append, hskip, bind_eq_bind, bind_some,
    foldlM_cons, tryKeyword, if_pos htoken]
  simp

theorem lineRight_other (h : staticArgs text = none) :
    LineRight libc (some cfg) text := by
  obtain ⟨cfg', hread, hkeep⟩ := readLine_other h cfg
  refine ⟨cfg, cfg', rfl, hread, ?_, fun _ => hkeep⟩
  rintro lease ⟨args, hargs, -⟩
  cases h.symm.trans hargs

section

variable (h : staticArgs text = some args)

include h

theorem readLine_full (hfull : maxStaticLeases ≤ cfg.staticLeases.length) :
    readLine libc text cfg = some cfg := by
  rw [readLine_static h, readStatic_full hfull, bind_some]
  simp only [readStatic_full hfull, map_some]

theorem readLine_colon (hroom : cfg.staticLeases.length < maxStaticLeases)
    (hlease : Reads libc ':' args lease) :
    readLine libc text cfg = some { cfg with staticLeases := cfg.staticLeases ++ [lease] } := by
  rw [readLine_static h, readStatic_colon hroom hlease, bind_some]

theorem lineRight_of_colon
    (hline : maxStaticLeases ≤ cfg.staticLeases.length ∨ ∃ lease, Reads libc ':' args lease) :
    LineRight libc (some cfg) text := by
  rcases Nat.lt_or_ge cfg.staticLeases.length maxStaticLeases with hroom | hfull
  · obtain ⟨lease, hlease⟩ := hline.resolve_left (by omega)
    refine ⟨cfg, _, rfl, readLine_colon h hroom hlease, ?_, ?_⟩
    · rintro other ⟨args', hargs', hother⟩
      obtain rfl : args = args' := some.inj (h.symm.trans hargs')
      rw [if_pos hroom]
      have hread := readStatic_colon hroom hlease
      rcases hother with hother | hother
      · have hsame := hread.symm.trans (readStatic_colon hroom hother)
        have hpair := Prod.mk.inj (some.inj hsame)
        exact congrArg Config.staticLeases hpair.2
      · exact nomatch hread.symm.trans (readStatic_dash hroom hother)
    · exact fun hnone => absurd ⟨lease, args, h, .inl hlease⟩ hnone
  · refine ⟨cfg, cfg, rfl, readLine_full h hfull, ?_, fun _ => rfl⟩
    exact fun lease _ => (if_neg (by omega)).symm

theorem colon_of_lineRight (hroom : cfg.staticLeases.length < maxStaticLeases)
    (hright : LineRight libc (some cfg) text) : ∃ lease, Reads libc ':' args lease := by
  obtain ⟨_, cfg', hcfg, hread, -, hother⟩ := hright
  obtain rfl := some.inj hcfg
  rw [readLine_static h] at hread
  obtain ⟨⟨ok, cfg''⟩, hstatic, hretry⟩ := bind_eq_some_iff.mp hread
  obtain ⟨rfl, rfl⟩ | ⟨rfl, added, hadded⟩ := readStatic_cases hstatic
  · simp only [readStatic_nil hroom, map_none] at hretry
    cases hretry
  · obtain rfl : cfg'' = cfg' := some.inj hretry
    by_contra hcolon
    have hnone : ¬ ∃ lease, Reserves libc text lease := by
      rintro ⟨lease, args', hargs', hlease⟩
      obtain rfl : args = args' := some.inj (h.symm.trans hargs')
      rcases hlease with hlease | hlease
      · exact hcolon ⟨lease, hlease⟩
      · exact nomatch hstatic.symm.trans (readStatic_dash hroom hlease)
    have hsame := hadded.symm.trans (hother hnone)
    exact absurd (congrArg length hsame) (by simp)

end

/-- The lines are read as they are meant if the hardware addresses have colons in the lines for
which there is room. -/
theorem along_lineRight_iff (lines : List Text) (cfg : Config) :
    Along (nextLine libc) (LineRight libc) (some cfg) lines ↔
      ∀ args ∈ (lines.filterMap staticArgs).take (maxStaticLeases - cfg.staticLeases.length),
        ∃ lease, Reads libc ':' args lease := by
  induction lines generalizing cfg with
  | nil => simp [Along]
  | cons text lines ih =>
    cases hargs : staticArgs text with
    | none =>
      obtain ⟨cfg', hread, hkeep⟩ := readLine_other hargs cfg
      have hnext : nextLine libc (some cfg) text = some cfg' := hread
      rw [filterMap_cons_none hargs, Along, hnext, ih cfg', hkeep]
      exact and_iff_right (lineRight_other hargs)
    | some args =>
      rw [filterMap_cons_some hargs]
      rcases Nat.lt_or_ge cfg.staticLeases.length maxStaticLeases with hroom | hfull
      · obtain ⟨room, hroom'⟩ := Nat.exists_eq_add_of_lt hroom
        have htake : maxStaticLeases - cfg.staticLeases.length = room + 1 := by omega
        rw [htake, take_succ_cons, forall_mem_cons, Along]
        have hrest : ∀ lease, Reads libc ':' args lease →
            (Along (nextLine libc) (LineRight libc) (nextLine libc (some cfg) text) lines ↔
              ∀ args ∈ (lines.filterMap staticArgs).take room,
                ∃ lease, Reads libc ':' args lease) := by
          intro lease hlease
          have hnext : nextLine libc (some cfg) text =
              some { cfg with staticLeases := cfg.staticLeases ++ [lease] } :=
            readLine_colon hargs hroom hlease
          have hless : maxStaticLeases - (cfg.staticLeases ++ [lease]).length = room := by
            rw [length_append, length_singleton]
            omega
          rw [hnext, ih, hless]
        constructor
        · rintro ⟨hright, hlines⟩
          obtain ⟨lease, hlease⟩ := colon_of_lineRight hargs hroom hright
          exact ⟨⟨lease, hlease⟩, (hrest lease hlease).mp hlines⟩
        · rintro ⟨⟨lease, hlease⟩, hlines⟩
          exact ⟨lineRight_of_colon hargs (.inr ⟨lease, hlease⟩),
            (hrest lease hlease).mpr hlines⟩
      · have hnext : nextLine libc (some cfg) text = some cfg := readLine_full hargs hfull
        rw [Along, hnext, ih cfg, Nat.sub_eq_zero_of_le hfull, take_zero, take_zero]
        exact and_iff_right (lineRight_of_colon hargs (.inl hfull))

theorem readConfig_isSome {file : Option Text}
    (h : Along (nextLine libc) (LineRight libc) (setDefaults libc) (readLines (file.getD []))) :
    (readConfig libc file).isSome = true := by
  obtain ⟨cfg, hdefaults, -⟩ : ∃ cfg, setDefaults libc = some cfg ∧ _ := setDefaults_eq
  cases file with
  | none => rw [readConfig, hdefaults]; rfl
  | some content =>
    have hstep : ∀ state text, isSome state = true → LineRight libc state text →
        (nextLine libc state text).isSome = true := by
      rintro _ text - ⟨cfg, cfg', rfl, hread, -⟩
      exact isSome_of_mem hread
    have hstart : (setDefaults libc).isSome = true := isSome_of_mem hdefaults
    rw [readConfig, isSome_map]
    exact run_invariant hstep hstart h

/-- Every line of the file is read as it is meant just when the first lines for reservations have
colons in the hardware address. -/
theorem robust_iff (libc : Libc) (file : Option Text) :
    Robust libc file ↔ ReservationsPlain libc file := by
  obtain ⟨cfg, hdefaults, hnil⟩ := setDefaults_eq
  have halong :
      Along (nextLine libc) (LineRight libc) (setDefaults libc) (readLines (file.getD [])) ↔
        ReservationsPlain libc file := by
    rw [hdefaults, along_lineRight_iff, hnil]
    exact Iff.rfl
  rw [Robust, ← halong]
  exact and_iff_right_of_imp readConfig_isSome

def oneHost : Libc where
  inetAton s := if s = "192.168.0.5".toList then some 0xC0A80005 else none
  gethostbyname _ := none
  strtoul s := (0, s)
  strtol s := (0, s)
  behind _ := []

/-- A line for a reservation, with dashes in the hardware address. -/
def dashLine : Text := "static 192.168.0.5 00-11-22-33-44-55".toList

/-- The address is cut at the first dash, and the empty default is read in place of the line: the
server ends at a null pointer. -/
theorem not_robust_dashLine :
    (∃ lease, Reserves oneHost dashLine lease) ∧ ¬ Robust oneHost (some (dashLine ++ ['\n'])) := by
  have hmac : IsMac '-' [0, 17, 34, 51, 68, 85] (macWord (dashLine.drop 7)) :=
    ⟨["00", "11", "22", "33", "44", "55"].map String.toList, by decide, by decide, by decide⟩
  have hreads : Reads oneHost '-' (dashLine.drop 7)
      ⟨chaddrOf [0, 17, 34, 51, 68, 85], 0xC0A80005⟩ :=
    ⟨by decide, by decide, _, hmac, rfl⟩
  have hfault : (readConfig oneHost (some (dashLine ++ ['\n']))).isSome = false := by
    decide +kernel
  exact ⟨⟨_, _, by decide, .inr hreads⟩, fun hrobust => nomatch hfault.symm.trans hrobust.1⟩

end Wbr1310.Udhcpd.ConfigFile
