import Wbr1310.Rg.Vrtsrv

/-!
# The rules of the firewall and of the address filter

`flush_firewall.php` and `flush_ipfilter.php`. Both use the same variables; `$protocol` is set only
for the protocols 1 to 4.
-/

namespace Wbr1310.Rg

open Lib Option

/-- An entry of `/security/di624/ipfilter`. -/
structure FilterEntry where
  enable : String
  protocol : String
  sourceiprangetype : String
  sourceipbegin : String
  sourceipend : String
  destportrangetype : String
  destportbegin : String
  destportend : String
  scheduleEnable : String
  schedule : Schedule
  deriving DecidableEq, Repr

/-- An entry of `/security/di624/firewall`. -/
structure FirewallEntry extends FilterEntry where
  destiprangetype : String
  destipbegin : String
  destipend : String
  sourceinf : String
  destinf : String
  action : String
  deriving DecidableEq, Repr

/-- The interfaces and `/security/log/droppacketinfo`. -/
structure FilterConfig where
  lanif : String
  wanif : String
  droppacketinfo : String

/-- The variables of the scripts, which stay set from entry to entry. -/
structure FilterVars where
  count : ℕ
  proto : String
  protocol : String
  iprange : String
  sipstring : String
  dipstring : String
  ipstring : String
  portstring : String
  timestring : String
  sifstr : String
  difstr : String
  siptype : String
  sbip : String
  seip : String
  diptype : String
  dbip : String
  deip : String
  iptype : String
  bip : String
  eip : String
  porttype : String
  bport : String
  eport : String
  bday : String
  eday : String
  btime : String
  etime : String
  sif : String
  dif : String
  act : String
  log : String
  cmdHead : String
  cmdTail : String
  logstring : String
  deriving DecidableEq, Repr

def FilterVars.unset : FilterVars :=
  ⟨0, "", "", "", "", "", "", "", "", "", "", "", "", "", "", "", "", "", "", "", "", "", "", "",
    "",
    "", "", "", "", "", "", "", "", ""⟩

section

variable (cfg : FilterConfig) (e : FirewallEntry) (v : FilterVars)

/-- `$protocol` by the number of the protocol. -/
def setProtocol : FilterVars :=
  if v.proto = "1" then { v with protocol := "all" }
  else if v.proto = "2" then { v with protocol := "tcp" }
  else if v.proto = "3" then { v with protocol := "udp" }
  else if v.proto = "4" then { v with protocol := "icmp" }
  else v

/-- `$portstring`. -/
def setPorts (e : FilterEntry) (v : FilterVars) : FilterVars :=
  if v.proto = "2" ∨ v.proto = "3" then
    let v := { v with porttype := e.destportrangetype, bport := e.destportbegin,
                      eport := e.destportend }
    let v := if v.porttype = "2" ∧ v.bport ≠ "" then
      { v with portstring := " --dport " ++ v.bport } else v
    if v.porttype = "3" ∧ v.bport ≠ "" ∧ v.eport ≠ "" then
      { v with portstring := " --dport " ++ v.bport ++ ":" ++ v.eport } else v
  else v

/-- `$timestring`. -/
def setTimes (e : FilterEntry) (v : FilterVars) : FilterVars × List String :=
  if e.scheduleEnable = "1" then
    let v := { v with bday := e.schedule.beginday, eday := e.schedule.endday,
                      btime := e.schedule.begintime, etime := e.schedule.endtime }
    if v.bday ≠ "" ∧ v.eday ≠ "" ∧ v.btime ≠ "" ∧ v.etime ≠ "" then
      ({ v with
          timestring := " -m time --timestart " ++ v.btime ++ " --timestop " ++ v.etime ++
            " --days $DAYSTRING" },
        ["DAYSTRING=`dayconvert " ++ v.bday ++ " " ++ v.eday ++ "`\n"])
    else (v, [])
  else (v, [])

/-- The protocol is read, and the other parts of the command are reset. -/
def startFirewall : FilterVars :=
  { setProtocol { v with proto := e.protocol, iprange := "0" } with
    sipstring := "", dipstring := "", portstring := "", timestring := "", sifstr := "",
    difstr := "" }

/-- `$sipstring`. -/
def setSource : FilterVars :=
  let v := { v with siptype := e.sourceiprangetype, sbip := e.sourceipbegin, seip := e.sourceipend }
  let v := if v.siptype = "2" ∧ v.sbip ≠ "" then { v with sipstring := " -s " ++ v.sbip } else v
  if v.siptype = "3" ∧ v.sbip ≠ "" ∧ v.seip ≠ "" then
    { v with
      sipstring := " -m iprange --src-range " ++ v.sbip ++ "-" ++ v.seip
      iprange := "1" }
  else v

/-- `$dipstring`; the match is named once. -/
def setDest : FilterVars :=
  let v := { v with diptype := e.destiprangetype, dbip := e.destipbegin, deip := e.destipend }
  let v := if v.diptype = "2" ∧ v.dbip ≠ "" then { v with dipstring := " -d " ++ v.dbip } else v
  if v.diptype = "3" ∧ v.dbip ≠ "" ∧ v.deip ≠ "" then
    if v.iprange = "0" then
      { v with dipstring := " -m iprange --dst-range " ++ v.dbip ++ "-" ++ v.deip }
    else { v with dipstring := " --dst-range " ++ v.dbip ++ "-" ++ v.deip }
  else v

/-- `$sifstr`. -/
def setSif : FilterVars :=
  let v := { v with sif := e.sourceinf }
  if v.sif = "1" then { v with sifstr := " -i " ++ cfg.lanif }
  else if v.sif = "2" then { v with sifstr := " -i " ++ cfg.wanif }
  else v

/-- `$difstr`. -/
def setDif : FilterVars :=
  let v := { v with dif := e.destinf }
  if v.dif = "1" then { v with difstr := " -o " ++ cfg.lanif }
  else if v.dif = "2" then { v with difstr := " -o " ++ cfg.wanif }
  else v

/-- `$cmd_tail`. -/
def setAction : FilterVars :=
  let v := { v with act := e.action }
  { v with cmdTail := if v.act = "1" then " -j ACCEPT\n" else " -j DROP\n" }

def firewallCommand (tail : String) : String :=
  v.cmdHead ++ v.protocol ++ v.sipstring ++ v.dipstring ++ v.portstring ++ v.timestring ++ tail

def writeFirewall : FilterVars × List String :=
  let v := { v with
    cmdHead := "iptables -A FOR_FIREWALL" ++ v.sifstr ++ v.difstr ++ " -p "
    logstring := if cfg.droppacketinfo = "1" then " -j LOG --log-level info --log-prefix DRP:006:\n"
      else v.logstring }
  ({ v with count := v.count + 1 },
    (if cfg.droppacketinfo = "1" then [firewallCommand v v.logstring] else []) ++
      [firewallCommand v v.cmdTail])

/-- The body of the loop over `/security/di624/firewall`. -/
def firewallEntry (_ : ℕ) (e : FirewallEntry) (v : FilterVars) : FilterVars × List String :=
  if e.enable = "1" ∧ cfg.wanif ≠ "" then
    let v := setPorts e.toFilterEntry (setDest e (setSource e (startFirewall e v)))
    let timed := setTimes e.toFilterEntry v
    let written := writeFirewall cfg (setAction e (setDif cfg e (setSif cfg e timed.1)))
    (written.1, timed.2 ++ written.2)
  else (v, [])

/-- The loop over `/security/di624/firewall`: what is written for each entry. -/
def firewallLoop (entries : List FirewallEntry) (v : FilterVars) :
    FilterVars × List (List String) :=
  Generator.loop (firewallEntry cfg) 0 entries { v with count := 0 }

/-- The protocol is read, and the other parts of the command are reset. -/
def startIpfilter (e : FilterEntry) (v : FilterVars) : FilterVars :=
  { setProtocol { v with proto := e.protocol } with
    ipstring := "", portstring := "", timestring := "" }

/-- `$ipstring`. -/
def setIp (e : FilterEntry) (v : FilterVars) : FilterVars :=
  let v := { v with iptype := e.sourceiprangetype, bip := e.sourceipbegin, eip := e.sourceipend }
  let v := if v.iptype = "2" ∧ v.bip ≠ "" then { v with ipstring := " -s " ++ v.bip } else v
  if v.iptype = "3" ∧ v.bip ≠ "" ∧ v.eip ≠ "" then
    { v with ipstring := " -m iprange --src-range " ++ v.bip ++ "-" ++ v.eip }
  else v

def ipfilterCommand (tail : String) : String :=
  v.cmdHead ++ v.protocol ++ v.ipstring ++ v.portstring ++ v.timestring ++ tail

def writeIpfilter : FilterVars × List String :=
  let v := { v with
    cmdHead := "iptables -A FOR_IPFILTER -i " ++ cfg.lanif ++ " -p "
    cmdTail := " -j DROP\n"
    log := cfg.droppacketinfo }
  let v := { v with
    logstring := if v.log = "1" then " -j LOG --log-level info --log-prefix DRP:005:\n"
      else v.logstring }
  ({ v with count := v.count + 1 },
    (if v.log = "1" then [ipfilterCommand v v.logstring] else []) ++ [ipfilterCommand v v.cmdTail])

/-- The body of the loop over `/security/di624/ipfilter`. -/
def ipfilterEntry (_ : ℕ) (e : FilterEntry) (v : FilterVars) : FilterVars × List String :=
  if e.enable = "1" then
    let timed := setTimes e (setPorts e (setIp e (startIpfilter e v)))
    let written := writeIpfilter cfg timed.1
    (written.1, timed.2 ++ written.2)
  else (v, [])

/-- The loop over `/security/di624/ipfilter`: what is written for each entry. -/
def ipfilterLoop (entries : List FilterEntry) (v : FilterVars) : FilterVars × List (List String) :=
  Generator.loop (ipfilterEntry cfg) 0 entries { v with count := 0 }

end

/-- `$protocol` for the protocols that have one. -/
def protocolName (proto : String) : Option String :=
  if proto = "1" then some "all"
  else if proto = "2" then some "tcp"
  else if proto = "3" then some "udp"
  else if proto = "4" then some "icmp"
  else none

variable (cfg : FilterConfig) (e : FirewallEntry) (k : ℕ) (v : FilterVars)

theorem setProtocol_eq :
    setProtocol v = { v with protocol := (protocolName v.proto).getD v.protocol } := by
  simp only [setProtocol, protocolName]
  split_ifs <;> rfl

theorem setTimes_lines (e : FilterEntry) (v : FilterVars) :
    (setTimes e v).2 = (setTimes e .unset).2 := by
  simp only [setTimes]
  split_ifs <;> rfl

/-- The variables, but for `$protocol`, that `flush_firewall` has reset for an entry. -/
def firewallLive (v : FilterVars) : FilterVars :=
  { FilterVars.unset with
    proto := v.proto
    iprange := v.iprange
    sipstring := v.sipstring
    dipstring := v.dipstring
    portstring := v.portstring
    timestring := v.timestring
    sifstr := v.sifstr
    difstr := v.difstr }

theorem firewallLive_proto : (firewallLive v).proto = v.proto := rfl

theorem firewallLive_iprange : (firewallLive v).iprange = v.iprange := rfl

/-- The part of `flush_firewall` that makes the strings of a command. -/
def firewallStrings (cfg : FilterConfig) (e : FirewallEntry) : FilterVars → FilterVars :=
  setDif cfg e ∘ setSif cfg e ∘ (fun v => (setTimes e.toFilterEntry v).1) ∘
    setPorts e.toFilterEntry ∘ setDest e ∘ setSource e

theorem firewallStrings_live :
    Generator.KeepsLive firewallLive (firewallStrings cfg e) := by
  have hsource : Generator.KeepsLive firewallLive (setSource e) := by
    intro v
    simp only [setSource]
    split_ifs <;> rfl
  have hdest : Generator.KeepsLive firewallLive (setDest e) := by
    intro v
    simp only [setDest, firewallLive_iprange]
    split_ifs <;> rfl
  have hports : Generator.KeepsLive firewallLive (setPorts e.toFilterEntry) := by
    intro v
    by_cases hproto : v.proto = "2" ∨ v.proto = "3"
    · simp only [setPorts, firewallLive_proto, if_pos hproto]
      split_ifs <;> rfl
    · have hskip : setPorts e.toFilterEntry v = v := if_neg hproto
      have hskip' : setPorts e.toFilterEntry (firewallLive v) = firewallLive v := if_neg hproto
      rw [hskip, hskip']
      rfl
  have htimes : Generator.KeepsLive firewallLive fun v => (setTimes e.toFilterEntry v).1 := by
    intro v
    simp only [setTimes]
    split_ifs <;> rfl
  have hsif : Generator.KeepsLive firewallLive (setSif cfg e) := by
    intro v
    simp only [setSif]
    split_ifs <;> rfl
  have hdif : Generator.KeepsLive firewallLive (setDif cfg e) := by
    intro v
    simp only [setDif]
    split_ifs <;> rfl
  exact hdif.comp (hsif.comp (htimes.comp (hports.comp (hdest.comp hsource))))

@[simp] theorem setPorts_protocol (e : FilterEntry) (v : FilterVars) :
    (setPorts e v).protocol = v.protocol := by
  simp only [setPorts]
  split_ifs <;> rfl

@[simp] theorem setTimes_protocol (e : FilterEntry) (v : FilterVars) :
    (setTimes e v).1.protocol = v.protocol := by
  simp only [setTimes]
  split_ifs <;> rfl

@[simp] theorem setSource_protocol :
    (setSource e v).protocol = v.protocol := by
  simp only [setSource]
  split_ifs <;> rfl

@[simp] theorem setDest_protocol :
    (setDest e v).protocol = v.protocol := by
  simp only [setDest]
  split_ifs <;> rfl

@[simp] theorem setSif_protocol :
    (setSif cfg e v).protocol = v.protocol := by
  simp only [setSif]
  split_ifs <;> rfl

@[simp] theorem setDif_protocol :
    (setDif cfg e v).protocol = v.protocol := by
  simp only [setDif]
  split_ifs <;> rfl

@[simp] theorem setAction_protocol :
    (setAction e v).protocol = v.protocol := rfl

@[simp] theorem writeFirewall_protocol :
    (writeFirewall cfg v).1.protocol = v.protocol := rfl

theorem startFirewall_protocol :
    (startFirewall e v).protocol = (protocolName e.protocol).getD v.protocol := by
  rw [startFirewall, setProtocol_eq]

theorem firewallEntry_protocol {e : FirewallEntry} (h : e.enable = "1" ∧ cfg.wanif ≠ "") :
    (firewallEntry cfg k e v).1.protocol = (protocolName e.protocol).getD v.protocol := by
  rw [firewallEntry, if_pos h]
  simp only [writeFirewall_protocol, setAction_protocol, setDif_protocol, setSif_protocol,
    setTimes_protocol, setPorts_protocol, setDest_protocol, setSource_protocol,
    startFirewall_protocol]

/-- What an enabled entry of the firewall comes to with a protocol. -/
def firewallLines (cfg : FilterConfig) (e : FirewallEntry) (protocol : String) : List String :=
  let v := firewallLive (firewallStrings cfg e (startFirewall e .unset))
  (setTimes e.toFilterEntry .unset).2 ++
    (writeFirewall cfg (setAction e { v with protocol := protocol })).2

theorem startFirewall_live :
    firewallLive (startFirewall e v) = firewallLive (startFirewall e .unset) := by
  simp only [startFirewall, setProtocol_eq]
  rfl

theorem writeFirewall_live :
    (writeFirewall cfg (setAction e v)).2 =
      (writeFirewall cfg (setAction e { firewallLive v with protocol := v.protocol })).2 := by
  simp only [writeFirewall]
  split
  · rfl
  · rfl

theorem firewallEntry_lines {e : FirewallEntry} (h : e.enable = "1" ∧ cfg.wanif ≠ "") :
    (firewallEntry cfg k e v).2 =
      firewallLines cfg e ((protocolName e.protocol).getD v.protocol) := by
  have hlive := (firewallStrings_live cfg e).eq (startFirewall_live e v)
  have hprotocol : (firewallStrings cfg e (startFirewall e v)).protocol =
      (protocolName e.protocol).getD v.protocol := by
    simp only [firewallStrings, Function.comp_apply, setDif_protocol, setSif_protocol,
      setTimes_protocol, setPorts_protocol, setDest_protocol, setSource_protocol,
      startFirewall_protocol]
  rw [firewallEntry, if_pos h, firewallLines, ← hlive, ← hprotocol, ← writeFirewall_live]
  exact congrArg (· ++ _) (setTimes_lines e.toFilterEntry _)

/-- The variables, but for `$protocol`, that `flush_ipfilter` has reset for an entry. -/
def ipfilterLive (v : FilterVars) : FilterVars :=
  { FilterVars.unset with
    proto := v.proto
    ipstring := v.ipstring
    portstring := v.portstring
    timestring := v.timestring }

theorem ipfilterLive_proto : (ipfilterLive v).proto = v.proto := rfl

/-- The part of `flush_ipfilter` that makes the strings of a command. -/
def ipfilterStrings (e : FilterEntry) : FilterVars → FilterVars :=
  (fun v => (setTimes e v).1) ∘ setPorts e ∘ setIp e

theorem ipfilterStrings_live (e : FilterEntry) :
    Generator.KeepsLive ipfilterLive (ipfilterStrings e) := by
  have hip : Generator.KeepsLive ipfilterLive (setIp e) := by
    intro v
    simp only [setIp]
    split_ifs <;> rfl
  have hports : Generator.KeepsLive ipfilterLive (setPorts e) := by
    intro v
    by_cases hproto : v.proto = "2" ∨ v.proto = "3"
    · simp only [setPorts, ipfilterLive_proto, if_pos hproto]
      split_ifs <;> rfl
    · have hskip : setPorts e v = v := if_neg hproto
      have hskip' : setPorts e (ipfilterLive v) = ipfilterLive v := if_neg hproto
      rw [hskip, hskip']
      rfl
  have htimes : Generator.KeepsLive ipfilterLive fun v => (setTimes e v).1 := by
    intro v
    simp only [setTimes]
    split_ifs <;> rfl
  exact htimes.comp (hports.comp hip)

@[simp] theorem setIp_protocol (e : FilterEntry) (v : FilterVars) :
    (setIp e v).protocol = v.protocol := by
  simp only [setIp]
  split_ifs <;> rfl

@[simp] theorem writeIpfilter_protocol :
    (writeIpfilter cfg v).1.protocol = v.protocol := rfl

theorem startIpfilter_protocol (e : FilterEntry) (v : FilterVars) :
    (startIpfilter e v).protocol = (protocolName e.protocol).getD v.protocol := by
  rw [startIpfilter, setProtocol_eq]

theorem ipfilterEntry_protocol {e : FilterEntry} (h : e.enable = "1") :
    (ipfilterEntry cfg k e v).1.protocol = (protocolName e.protocol).getD v.protocol := by
  rw [ipfilterEntry, if_pos h]
  simp only [writeIpfilter_protocol, setTimes_protocol, setPorts_protocol, setIp_protocol,
    startIpfilter_protocol]

/-- What an enabled entry of the address filter comes to with a protocol. -/
def ipfilterLines (cfg : FilterConfig) (e : FilterEntry) (protocol : String) : List String :=
  let v := ipfilterLive (ipfilterStrings e (startIpfilter e .unset))
  (setTimes e .unset).2 ++ (writeIpfilter cfg { v with protocol := protocol }).2

theorem startIpfilter_live (e : FilterEntry) (v : FilterVars) :
    ipfilterLive (startIpfilter e v) = ipfilterLive (startIpfilter e .unset) := by
  simp only [startIpfilter, setProtocol_eq]
  rfl

theorem writeIpfilter_live :
    (writeIpfilter cfg v).2 =
      (writeIpfilter cfg { ipfilterLive v with protocol := v.protocol }).2 := by
  simp only [writeIpfilter]
  split
  · rfl
  · rfl

theorem ipfilterEntry_lines {e : FilterEntry} (h : e.enable = "1") :
    (ipfilterEntry cfg k e v).2 =
      ipfilterLines cfg e ((protocolName e.protocol).getD v.protocol) := by
  have hlive := (ipfilterStrings_live e).eq (startIpfilter_live e v)
  have hprotocol : (ipfilterStrings e (startIpfilter e v)).protocol =
      (protocolName e.protocol).getD v.protocol := by
    simp only [ipfilterStrings, Function.comp_apply, setTimes_protocol, setPorts_protocol,
      setIp_protocol, startIpfilter_protocol]
  rw [ipfilterEntry, if_pos h, ipfilterLines, ← hlive, ← hprotocol, ← writeIpfilter_live]
  exact congrArg (· ++ _) (setTimes_lines e _)

theorem firewallLines_length {cfg : FilterConfig} {e : FirewallEntry} {p q : String}
    (h : firewallLines cfg e p = firewallLines cfg e q) : p.length = q.length := by
  have hlast := congrArg List.getLast? h
  simp only [firewallLines, writeFirewall, ← List.append_assoc, List.getLast?_concat,
    some.injEq] at hlast
  have hlength := congrArg String.length hlast
  simp only [firewallCommand, setAction, String.length_append] at hlength
  omega

theorem ipfilterLines_length {cfg : FilterConfig} {e : FilterEntry} {p q : String}
    (h : ipfilterLines cfg e p = ipfilterLines cfg e q) : p.length = q.length := by
  have hlast := congrArg List.getLast? h
  simp only [ipfilterLines, writeIpfilter, ← List.append_assoc, List.getLast?_concat,
    some.injEq] at hlast
  have hlength := congrArg String.length hlast
  simp only [ipfilterCommand, String.length_append] at hlength
  omega

/-- What a script writes for the entry is the same among any other entries, whatever earlier
scripts have left in the variables. -/
def EntryLocal {α : Type} (script : List α → FilterVars → FilterVars × List (List String)) (e : α) :
    Prop :=
  ∀ before after before' after' v v',
    (script (before' ++ e :: after') v').2[before'.length]? =
      (script (before ++ e :: after) v).2[before.length]?

section

variable {α : Type} {body : ℕ → α → FilterVars → FilterVars × List String} {e : α}

theorem entryLocal_of_lines {lines : List String} (h : ∀ k v, (body k e v).2 = lines) :
    EntryLocal (fun es v => Generator.loop body 0 es { v with count := 0 }) e := by
  intro before after before' after' v v'
  rw [Generator.loop_getElem?, Generator.loop_getElem?, h, h]

theorem not_entryLocal {lender : α} {lines : String → List String}
    (h : ∀ k v, (body k e v).2 = lines v.protocol)
    (hlender : ∀ v, (body 0 lender v).1.protocol = "tcp") (hne : lines "tcp" ≠ lines "") :
    ¬ EntryLocal (fun es v => Generator.loop body 0 es { v with count := 0 }) e := by
  intro hlocal
  have hsame := hlocal [] [] [lender] [] .unset .unset
  rw [Generator.loop_getElem?, Generator.loop_getElem?, h, h] at hsame
  simp only [Generator.loop, hlender] at hsame
  exact hne (some.inj hsame)

/-- An entry that is on, and whose lines depend on `$protocol`, which it sets or leaves. -/
theorem entryLocal_iff (on : Prop) (lender : α) {proto : String} {lines : String → List String}
    (hoff : ¬ on → ∀ k v, (body k e v).2 = [])
    (hlines : on → ∀ k v, (body k e v).2 = lines ((protocolName proto).getD v.protocol))
    (hlender : on → ∀ v, (body 0 lender v).1.protocol = "tcp") (hne : lines "tcp" ≠ lines "") :
    EntryLocal (fun es v => Generator.loop body 0 es { v with count := 0 }) e ↔
      ¬ on ∨ (protocolName proto).isSome := by
  by_cases hon : on
  · cases hname : protocolName proto with
    | none =>
      simp only [hname, getD_none] at hlines
      exact iff_of_false (not_entryLocal (hlines hon) (hlender hon) hne) (by simpa using hon)
    | some name =>
      simp only [hname, getD_some] at hlines
      exact iff_of_true (entryLocal_of_lines (hlines hon)) (.inr rfl)
  · exact iff_of_true (entryLocal_of_lines (hoff hon)) (.inl hon)

end

/-- An entry that leaves `tcp` in `$protocol`. -/
def tcpEntry : FirewallEntry :=
  ⟨⟨"1", "2", "1", "", "", "1", "", "", "0", ⟨"", "", "", ""⟩⟩, "1", "", "", "1", "2", "0"⟩

theorem firewallLocal_iff :
    EntryLocal (firewallLoop cfg) e ↔
      e.enable ≠ "1" ∨ cfg.wanif = "" ∨ (protocolName e.protocol).isSome := by
  refine (entryLocal_iff (e.enable = "1" ∧ cfg.wanif ≠ "") tcpEntry
    (fun hoff k v => congrArg Prod.snd (if_neg hoff))
    (fun hon k v => firewallEntry_lines cfg k v hon)
    (fun hon v => firewallEntry_protocol cfg 0 v ⟨rfl, hon.2⟩)
    fun hsame => absurd (firewallLines_length hsame) (by decide)).trans ?_
  tauto

theorem ipfilterLocal_iff (e : FilterEntry) :
    EntryLocal (ipfilterLoop cfg) e ↔ e.enable ≠ "1" ∨ (protocolName e.protocol).isSome := by
  refine entryLocal_iff (e.enable = "1") tcpEntry.toFilterEntry
    (fun hoff k v => congrArg Prod.snd (if_neg hoff))
    (fun hon k v => ipfilterEntry_lines cfg k v hon)
    (fun _ v => ipfilterEntry_protocol cfg 0 v rfl) ?_
  exact fun hsame => absurd (ipfilterLines_length hsame) (by decide)

/-- The three scripts write the lines of an entry by the entry and the times it refers to exactly
when it is off, or refers to times, or has a known protocol. -/
theorem entries_local_iff (wanip : String) (schedules : List ScheduleEntry) (e : VrtsrvEntry)
    (cfg : FilterConfig) (rule : FirewallEntry) (filter : FilterEntry) :
    (VrtsrvLocal wanip schedules e ↔
      wanip = "" ∨ e.enable ≠ "1" ∨ (e.times schedules).isSome) ∧
    (EntryLocal (firewallLoop cfg) rule ↔
      rule.enable ≠ "1" ∨ cfg.wanif = "" ∨ (protocolName rule.protocol).isSome) ∧
    (EntryLocal (ipfilterLoop cfg) filter ↔
      filter.enable ≠ "1" ∨ (protocolName filter.protocol).isSome) :=
  ⟨vrtsrvLocal_iff wanip schedules e, firewallLocal_iff cfg rule, ipfilterLocal_iff cfg filter⟩

/-- A virtual server without a schedule gets the times of the one before it, and a
filter without a protocol the protocol of the one before it. -/
theorem entries_not_local :
    ¬ VrtsrvLocal "10.0.0.1" [] { lender with scheduleEnable := "0" } ∧
      ¬ EntryLocal (firewallLoop ⟨"br0", "eth1", "0"⟩)
        { tcpEntry with protocol := "0" } ∧
      ¬ EntryLocal (ipfilterLoop ⟨"br0", "eth1", "0"⟩)
        { tcpEntry.toFilterEntry with protocol := "0" } := by
  refine ⟨fun h => ?_, fun h => ?_, fun h => ?_⟩
  · exact absurd ((vrtsrvLocal_iff _ _ _).mp h) (by decide)
  · exact absurd ((firewallLocal_iff _ _).mp h) (by decide)
  · exact absurd ((ipfilterLocal_iff _ _).mp h) (by decide)

end Wbr1310.Rg
