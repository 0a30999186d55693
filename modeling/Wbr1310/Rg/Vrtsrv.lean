import Wbr1310.Lib.Generator

/-!
# The rules of virtual servers

`flush_vrtsrv.php` up to the counters of `/runtime/func`. The variables of the script are one
state, which every entry changes; nodes of the database that are missing are empty strings, and
values are compared as strings. Entries are counted from zero.
-/

namespace Wbr1310.Rg

open Lib Option

/-- The times that an entry is in force. -/
structure Schedule where
  beginday : String
  endday : String
  begintime : String
  endtime : String
  deriving DecidableEq, Repr

/-- An entry of `/sys/schedule`. -/
structure ScheduleEntry extends Schedule where
  id : String
  deriving DecidableEq, Repr

/-- An entry of `/nat/vrtsrv`, with the nodes below `schedule`. -/
structure VrtsrvEntry where
  enable : String
  protocol : String
  privateip : String
  privateport : String
  publicport : String
  privateport2 : String
  publicport2 : String
  scheduleEnable : String
  uniqueid : String
  schedule : Schedule
  deriving DecidableEq, Repr

/-- What the script reads. -/
structure VrtsrvConfig where
  wanip : String
  entries : List VrtsrvEntry
  schedules : List ScheduleEntry

/-- The values of `$tmp_path` that are not empty: the schedule of an entry, or an entry of
`/sys/schedule`. -/
inductive SchedulePath where
  | own (k : ℕ)
  | sys (k : ℕ)
  deriving DecidableEq, Repr

section

variable (cfg : VrtsrvConfig) (k : ℕ) (e : VrtsrvEntry) (v : VrtsrvVars)

def VrtsrvConfig.timesAt : SchedulePath → Schedule
  | .own k => ((cfg.entries[k]?).map (·.schedule)).getD ⟨"", "", "", ""⟩
  | .sys k => ((cfg.schedules[k]?).map (·.toSchedule)).getD ⟨"", "", "", ""⟩

/-- The variables of the script, which stay set from entry to entry. -/
structure VrtsrvVars where
  count : ℕ
  ftpcount : ℕ
  protocol : String
  priip : String
  priport : String
  pubport : String
  priport2 : String
  pubport2 : String
  timestring : String
  uniqueid : String
  tmpPath : Option SchedulePath
  bday : String
  eday : String
  btime : String
  etime : String
  privateport : String
  publicport : String
  tailMan : String
  tailNat : String
  deriving DecidableEq, Repr

def VrtsrvVars.unset : VrtsrvVars :=
  ⟨0, 0, "", "", "", "", "", "", "", "", none, "", "", "", "", "", "", "", ""⟩

def headMan : String := "iptables -t mangle -A PRE_MARK"

def headNat : String := "iptables -t nat -A PRE_VRTSRV"

def readEntry : VrtsrvVars :=
  { v with
    protocol := e.protocol
    priip := e.privateip
    priport := e.privateport
    pubport := e.publicport
    priport2 := e.privateport2
    pubport2 := e.publicport2
    ftpcount := if e.privateport = "21" then v.ftpcount + 1 else v.ftpcount
    timestring := "" }

/-- The loop over `/sys/schedule`, from its `k`-th entry on. -/
def findSchedule (uniqueid : String) :
    ℕ → List ScheduleEntry → Option SchedulePath → Option SchedulePath
  | _, [], tmpPath => tmpPath
  | k, s :: schedules, tmpPath =>
    findSchedule uniqueid (k + 1) schedules (if uniqueid = s.id then some (.sys k) else tmpPath)

/-- `$tmp_path` is set if the schedule of the entry is enabled. -/
def choosePath : VrtsrvVars :=
  if e.scheduleEnable ≠ "0" then
    let v := { v with uniqueid := e.uniqueid }
    { v with
      tmpPath :=
        if v.uniqueid = "" then some (.own k)
        else findSchedule v.uniqueid 0 cfg.schedules v.tmpPath }
  else v

/-- The times below `$tmp_path` are read and make `$timestring`. -/
def readTimes : VrtsrvVars × List String :=
  match v.tmpPath with
  | none => (v, [])
  | some path =>
    let s := cfg.timesAt path
    let v := { v with bday := s.beginday, eday := s.endday, btime := s.begintime,
                      etime := s.endtime }
    if v.bday ≠ "" ∧ v.eday ≠ "" ∧ v.btime ≠ "" ∧ v.etime ≠ "" then
      ({ v with
          timestring := " -m time --timestart " ++ v.btime ++ " --timestop " ++ v.etime ++
            " --days $DAYSTRING" },
        ["DAYSTRING=`dayconvert " ++ v.bday ++ " " ++ v.eday ++ "`\n"])
    else (v, [])

/-- `$privateport` and `$publicport`, and the ends of the commands. -/
def portStrings : VrtsrvVars :=
  let v :=
    if v.priport2 = "" ∧ v.pubport2 = "" then
      { v with privateport := v.priport, publicport := " --dport " ++ v.pubport }
    else
      { v with
        privateport := v.priport ++ "-" ++ v.priport2
        publicport := " -m mport --ports " ++ v.pubport ++ ":" ++ v.pubport2 }
  { v with
    tailMan := " -j MARK --set-mark 1\n"
    tailNat := " -j DNAT --to " ++ v.priip ++ ":" ++ v.privateport ++ "\n" }

def protocolCommands (wanip p : String) (v : VrtsrvVars) : List String :=
  [headMan ++ p ++ v.publicport ++ v.tailMan,
    headNat ++ p ++ v.publicport ++ " -d " ++ wanip ++ v.timestring ++ v.tailNat]

def writeCommands (wanip : String) (v : VrtsrvVars) : VrtsrvVars × List String :=
  let tcp := v.protocol = "0" ∨ v.protocol = "1"
  let udp := v.protocol = "0" ∨ v.protocol = "2"
  ({ v with count := v.count + (if tcp then 1 else 0) + (if udp then 1 else 0) },
    (if tcp then protocolCommands wanip " -p tcp" v else []) ++
      (if udp then protocolCommands wanip " -p udp" v else []))

/-- The body of the loop over `/nat/vrtsrv`. -/
def vrtsrvEntry : VrtsrvVars × List String :=
  if e.enable = "1" then
    let timed := readTimes cfg (choosePath cfg k e (readEntry e v))
    let written := writeCommands cfg.wanip (portStrings timed.1)
    (written.1, timed.2 ++ written.2)
  else (v, [])

/-- The loop over `/nat/vrtsrv`: what is written for each entry. -/
def vrtsrvLoop : VrtsrvVars × List (List String) :=
  let v := { v with count := 0, ftpcount := 0 }
  if cfg.wanip ≠ "" then Generator.loop (vrtsrvEntry cfg) 0 cfg.entries v else (v, [])

end

def Schedule.Complete (s : Schedule) : Prop :=
  s.beginday ≠ "" ∧ s.endday ≠ "" ∧ s.begintime ≠ "" ∧ s.endtime ≠ ""

instance (s : Schedule) : Decidable s.Complete := inferInstanceAs (Decidable (_ ∧ _))

/-- The line that sets `DAYSTRING`. -/
def dayLines : Option Schedule → List String
  | some s =>
    if s.Complete then ["DAYSTRING=`dayconvert " ++ s.beginday ++ " " ++ s.endday ++ "`\n"] else []
  | none => []

def timeMatch : Option Schedule → String
  | some s =>
    if s.Complete then
      " -m time --timestart " ++ s.begintime ++ " --timestop " ++ s.endtime ++ " --days $DAYSTRING"
    else ""
  | none => ""

/-- What an enabled entry and the times it is given come to. -/
def entryLines (wanip : String) (e : VrtsrvEntry) (times : Option Schedule) : List String :=
  let v := { readEntry e .unset with timestring := timeMatch times }
  dayLines times ++ (writeCommands wanip (portStrings v)).2

/-- Two states give the same ports, addresses and times to the commands. -/
structure SameFields (v w : VrtsrvVars) : Prop where
  protocol : w.protocol = v.protocol
  priip : w.priip = v.priip
  priport : w.priport = v.priport
  pubport : w.pubport = v.pubport
  priport2 : w.priport2 = v.priport2
  pubport2 : w.pubport2 = v.pubport2
  timestring : w.timestring = v.timestring

theorem SameFields.commands {v w : VrtsrvVars} (h : SameFields v w) (wanip : String) :
    (writeCommands wanip (portStrings w)).2 = (writeCommands wanip (portStrings v)).2 := by
  obtain ⟨h1, h2, h3, h4, h5, h6, h7⟩ := h
  simp only [writeCommands, protocolCommands, portStrings, h2, h3, h4, h5, h6]
  split
  · simp only [h1, h7]
  · simp only [h1, h7]

theorem choosePath_fields (cfg : VrtsrvConfig) (k : ℕ) (e : VrtsrvEntry) (v : VrtsrvVars) :
    SameFields v (choosePath cfg k e v) := by
  rw [choosePath]
  split
  · exact ⟨rfl, rfl, rfl, rfl, rfl, rfl, rfl⟩
  · exact ⟨rfl, rfl, rfl, rfl, rfl, rfl, rfl⟩

theorem readTimes_spec (cfg : VrtsrvConfig) {v : VrtsrvVars} (h : v.timestring = "") :
    (readTimes cfg v).2 = dayLines (v.tmpPath.map cfg.timesAt) ∧
      SameFields { v with timestring := timeMatch (v.tmpPath.map cfg.timesAt) }
        (readTimes cfg v).1 := by
  rw [readTimes]
  cases v.tmpPath with
  | none => exact ⟨rfl, rfl, rfl, rfl, rfl, rfl, rfl, h⟩
  | some path =>
    by_cases hc : (cfg.timesAt path).Complete
    · have hset : (cfg.timesAt path).beginday ≠ "" ∧ (cfg.timesAt path).endday ≠ "" ∧
          (cfg.timesAt path).begintime ≠ "" ∧ (cfg.timesAt path).endtime ≠ "" := hc
      simp only [map_some, dayLines, timeMatch, if_pos hc, if_pos hset, true_and]
      exact ⟨rfl, rfl, rfl, rfl, rfl, rfl, rfl⟩
    · have hset : ¬ ((cfg.timesAt path).beginday ≠ "" ∧ (cfg.timesAt path).endday ≠ "" ∧
          (cfg.timesAt path).begintime ≠ "" ∧ (cfg.timesAt path).endtime ≠ "") := hc
      simp only [map_some, dayLines, timeMatch, if_neg hc, if_neg hset, true_and]
      exact ⟨rfl, rfl, rfl, rfl, rfl, rfl, h⟩

variable {e : VrtsrvEntry} {wanip : String}

theorem vrtsrvEntry_lines (cfg : VrtsrvConfig) (k : ℕ) (v : VrtsrvVars) (he : e.enable = "1") :
    (vrtsrvEntry cfg k e v).2 =
      entryLines cfg.wanip e ((choosePath cfg k e (readEntry e v)).tmpPath.map cfg.timesAt) := by
  have hpath := choosePath_fields cfg k e (readEntry e v)
  obtain ⟨hday, htimes⟩ := readTimes_spec cfg hpath.timestring
  simp only [vrtsrvEntry, if_pos he, entryLines, hday, htimes.commands cfg.wanip]
  refine congrArg (_ ++ ·) (SameFields.commands ?_ cfg.wanip)
  exact ⟨hpath.protocol, hpath.priip, hpath.priport, hpath.pubport, hpath.priport2,
    hpath.pubport2, rfl⟩

/-- The entry of `/sys/schedule` with an id: the last one. -/
def scheduleWithId (schedules : List ScheduleEntry) (uniqueid : String) : Option ScheduleEntry :=
  schedules.reverse.find? (uniqueid = ·.id)

def VrtsrvEntry.times (e : VrtsrvEntry) (schedules : List ScheduleEntry) : Option Schedule :=
  if e.scheduleEnable = "0" then none
  else if e.uniqueid = "" then some e.schedule
  else (scheduleWithId schedules e.uniqueid).map (·.toSchedule)

/-- The loop over `/sys/schedule` leaves the last entry with the id, or what was there. -/
theorem findSchedule_spec (uniqueid : String) (k : ℕ) (schedules : List ScheduleEntry)
    (tmpPath : Option SchedulePath) :
    match scheduleWithId schedules uniqueid with
    | some s => ∃ i, findSchedule uniqueid k schedules tmpPath = some (.sys (k + i)) ∧
        schedules[i]? = some s
    | none => findSchedule uniqueid k schedules tmpPath = tmpPath := by
  induction schedules generalizing k tmpPath with
  | nil => rfl
  | cons s schedules ih =>
    have hcons : scheduleWithId (s :: schedules) uniqueid =
        (scheduleWithId schedules uniqueid).or (if uniqueid = s.id then some s else none) := by
      simp only [scheduleWithId, List.reverse_cons, List.find?_append, List.find?_cons,
        List.find?_nil]
      congr 1
      split <;> simp_all
    have hrest := ih (k + 1) (if uniqueid = s.id then some (.sys k) else tmpPath)
    rw [hcons, findSchedule]
    cases hfound : scheduleWithId schedules uniqueid with
    | some t =>
      rw [hfound] at hrest
      obtain ⟨i, hpath, hget⟩ := hrest
      refine ⟨i + 1, ?_, hget⟩
      rw [hpath, Nat.add_assoc, Nat.add_comm 1]
    | none =>
      rw [hfound] at hrest
      rw [none_or]
      split
      · next t hid =>
        split at hid
        · next hsame =>
          obtain rfl := some.inj hid
          rw [if_pos hsame] at hrest ⊢
          exact ⟨0, hrest, rfl⟩
        · cases hid
      · next hid =>
        split at hid
        · cases hid
        · next hother => rwa [if_neg hother] at hrest ⊢

theorem choosePath_times (cfg : VrtsrvConfig) {k : ℕ} (v : VrtsrvVars)
    (hk : cfg.entries[k]? = some e) :
    (choosePath cfg k e v).tmpPath.map cfg.timesAt =
      (e.times cfg.schedules).or (v.tmpPath.map cfg.timesAt) := by
  rw [choosePath, VrtsrvEntry.times]
  by_cases hoff : e.scheduleEnable = "0"
  · rw [if_neg (not_not_intro hoff), if_pos hoff, none_or]
  · rw [if_pos hoff, if_neg hoff]
    by_cases hown : e.uniqueid = ""
    · simp only [if_pos hown, map_some, VrtsrvConfig.timesAt, hk, getD_some,
        some_or]
    · have hfind := findSchedule_spec e.uniqueid 0 cfg.schedules v.tmpPath
      simp only [if_neg hown]
      cases hid : scheduleWithId cfg.schedules e.uniqueid with
      | some s =>
        rw [hid] at hfind
        obtain ⟨i, hpath, hget⟩ := hfind
        simp only [hpath, Nat.zero_add, map_some, VrtsrvConfig.timesAt, hget,
          getD_some, some_or]
      | none =>
        rw [hid] at hfind
        simp only [hfind, map_none, none_or]

def linesFor (wanip : String) (before : List VrtsrvEntry) (e : VrtsrvEntry)
    (after : List VrtsrvEntry) (schedules : List ScheduleEntry) (v : VrtsrvVars) :
    Option (List String) :=
  (vrtsrvLoop ⟨wanip, before ++ e :: after, schedules⟩ v).2[before.length]?

/-- What is written for the entry is the same among any other entries and with any schedules
that give it the same times, whatever earlier scripts have left in the variables. -/
def VrtsrvLocal (wanip : String) (schedules : List ScheduleEntry) (e : VrtsrvEntry) : Prop :=
  ∀ before after before' after' schedules' v v', e.times schedules' = e.times schedules →
    linesFor wanip before' e after' schedules' v' = linesFor wanip before e after schedules v

theorem linesFor_enabled (hwanip : wanip ≠ "") (before : List VrtsrvEntry) (he : e.enable = "1")
    (after : List VrtsrvEntry) (schedules : List ScheduleEntry) (v : VrtsrvVars) :
    let cfg : VrtsrvConfig := ⟨wanip, before ++ e :: after, schedules⟩
    let left := (Generator.loop (vrtsrvEntry cfg) 0 before { v with count := 0, ftpcount := 0 }).1
    linesFor wanip before e after schedules v =
      some (entryLines wanip e ((e.times schedules).or (left.tmpPath.map cfg.timesAt))) := by
  intro cfg left
  have hk : cfg.entries[0 + before.length]? = some e := by
    simp [cfg]
  rw [linesFor, vrtsrvLoop, if_pos hwanip, Generator.loop_getElem?, vrtsrvEntry_lines _ _ _ he,
    choosePath_times _ _ hk]
  rfl

theorem linesFor_of_disabled (he : e.enable ≠ "1") (before after : List VrtsrvEntry)
    (schedules : List ScheduleEntry) (v : VrtsrvVars) :
    linesFor wanip before e after schedules v = if wanip ≠ "" then some [] else none := by
  rw [linesFor, vrtsrvLoop]
  split
  · rw [Generator.loop_getElem?, vrtsrvEntry, if_neg he]
  · rfl

theorem linesFor_of_down (hwanip : wanip = "") (before : List VrtsrvEntry) (e : VrtsrvEntry)
    (after : List VrtsrvEntry) (schedules : List ScheduleEntry) (v : VrtsrvVars) :
    linesFor wanip before e after schedules v = none := by
  rw [linesFor, vrtsrvLoop, if_neg (not_not_intro hwanip)]
  rfl

theorem entryLines_ne (wanip : String) (e : VrtsrvEntry) {s : Schedule} (hs : s.Complete) :
    entryLines wanip e (some s) ≠ entryLines wanip e none := by
  have hprotocol : ∀ v : VrtsrvVars, (portStrings v).protocol = v.protocol := by
    intro v
    rw [portStrings]
    split <;> rfl
  have hcommands : ∀ v : VrtsrvVars, (writeCommands wanip (portStrings v)).2.length =
      (if v.protocol = "0" ∨ v.protocol = "1" then 2 else 0) +
        if v.protocol = "0" ∨ v.protocol = "2" then 2 else 0 := by
    intro v
    simp only [writeCommands, List.length_append, hprotocol]
    congr 1
    · split <;> rfl
    · split <;> rfl
  intro heq
  have hlength := congrArg List.length heq
  simp only [entryLines, List.length_append, hcommands, dayLines, if_pos hs, List.length_singleton,
    List.length_nil] at hlength
  omega

def lender : VrtsrvEntry :=
  ⟨"1", "1", "192.168.0.2", "80", "80", "", "", "1", "", ⟨"0", "6", "08:00", "18:00"⟩⟩

theorem vrtsrvLocal_iff (wanip : String) (schedules : List ScheduleEntry) (e : VrtsrvEntry) :
    VrtsrvLocal wanip schedules e ↔
      wanip = "" ∨ e.enable ≠ "1" ∨ (e.times schedules).isSome := by
  constructor
  · intro hlocal
    by_contra hcond
    simp only [not_or, not_not, not_isSome_iff_eq_none] at hcond
    obtain ⟨hwanip, he, htimes⟩ := hcond
    -- the entry alone, and the entry behind one with complete times
    have hsame := hlocal [] [] [lender] [] schedules .unset .unset rfl
    rw [linesFor_enabled hwanip _ he, linesFor_enabled hwanip _ he, htimes] at hsame
    exact entryLines_ne wanip e (s := lender.schedule) (by decide) (some.inj hsame)
  · rintro (hwanip | he | htimes) before after before' after' schedules' v v' hsame
    · rw [linesFor_of_down hwanip, linesFor_of_down hwanip]
    · rw [linesFor_of_disabled he, linesFor_of_disabled he]
    · by_cases hdown : wanip = ""
      · rw [linesFor_of_down hdown, linesFor_of_down hdown]
      · obtain hdis | he := ne_or_eq e.enable "1"
        · rw [linesFor_of_disabled hdis, linesFor_of_disabled hdis]
        · obtain ⟨s, hs⟩ := isSome_iff_exists.mp htimes
          rw [linesFor_enabled hdown _ he, linesFor_enabled hdown _ he, hsame, hs]
          simp only [some_or]

end Wbr1310.Rg
