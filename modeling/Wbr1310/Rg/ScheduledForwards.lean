import Wbr1310.Rg.Vrtsrv

/-!
# Port forwards with a schedule

What a schedule does to the DNAT rules of a virtual server. The rules of an entry whose
schedule is complete have a match for its times. An incomplete schedule, or one that is missing
and that no entry before has left, adds nothing: the rules then forward at all times.
-/

namespace Wbr1310.Rg

open Lib Option

def VrtsrvEntry.protocols (e : VrtsrvEntry) : List String :=
  (if e.protocol = "0" ∨ e.protocol = "1" then [" -p tcp"] else []) ++
    (if e.protocol = "0" ∨ e.protocol = "2" then [" -p udp"] else [])

def VrtsrvEntry.portMatch (e : VrtsrvEntry) : String :=
  if e.privateport2 = "" ∧ e.publicport2 = "" then " --dport " ++ e.publicport
  else " -m mport --ports " ++ e.publicport ++ ":" ++ e.publicport2

def VrtsrvEntry.targetPorts (e : VrtsrvEntry) : String :=
  if e.privateport2 = "" ∧ e.publicport2 = "" then e.privateport
  else e.privateport ++ "-" ++ e.privateport2

def markRule (e : VrtsrvEntry) (p : String) : String :=
  headMan ++ p ++ e.portMatch ++ " -j MARK --set-mark 1\n"

/-- The DNAT rule of an entry for a protocol, with a match for the time. -/
def dnatRule (wanip : String) (e : VrtsrvEntry) (time p : String) : String :=
  headNat ++ p ++ e.portMatch ++ " -d " ++ wanip ++ time ++
    (" -j DNAT --to " ++ e.privateip ++ ":" ++ e.targetPorts ++ "\n")

/-- The line is a command for the chain of the DNAT rules. -/
def isDnat (line : String) : Bool := headNat.toList.isPrefixOf line.toList

def dnatRules (lines : List String) : List String := lines.filter isDnat

variable (wanip : String) (e : VrtsrvEntry) (times : Option Schedule)

theorem isDnat_dnatRule (time p : String) :
    isDnat (dnatRule wanip e time p) = true := by
  rw [isDnat, List.isPrefixOf_iff_prefix]
  simp only [dnatRule, String.toList_append, List.append_assoc]
  exact List.prefix_append _ _

theorem not_isDnat_markRule (p : String) : isDnat (markRule e p) = false := by
  simp [isDnat, markRule, headNat, headMan, List.isPrefixOf]

theorem dnatRules_dayLines : dnatRules (dayLines times) = [] := by
  cases times with
  | none => rfl
  | some s =>
    rw [dayLines]
    split
    · simp [dnatRules, isDnat, headNat]
    · rfl

theorem portStrings_fields (v : VrtsrvVars) :
    (portStrings v).protocol = v.protocol ∧ (portStrings v).timestring = v.timestring ∧
      (portStrings v).publicport = (if v.priport2 = "" ∧ v.pubport2 = "" then
        " --dport " ++ v.pubport else " -m mport --ports " ++ v.pubport ++ ":" ++ v.pubport2) ∧
      (portStrings v).tailMan = " -j MARK --set-mark 1\n" ∧
      (portStrings v).tailNat = " -j DNAT --to " ++ v.priip ++ ":" ++
        (if v.priport2 = "" ∧ v.pubport2 = "" then v.priport else v.priport ++ "-" ++ v.priport2) ++
        "\n" := by
  rw [portStrings]
  split
  · exact ⟨rfl, rfl, rfl, rfl, rfl⟩
  · exact ⟨rfl, rfl, rfl, rfl, rfl⟩

theorem entryLines_eq :
    entryLines wanip e times = dayLines times ++ e.protocols.flatMap fun p =>
      [markRule e p, dnatRule wanip e (timeMatch times) p] := by
  have hcommands : ∀ p, protocolCommands wanip p (portStrings { readEntry e .unset with
      timestring := timeMatch times }) =
      [markRule e p, dnatRule wanip e (timeMatch times) p] := by
    intro p
    obtain ⟨-, htime, hpublic, hman, hnat⟩ := portStrings_fields
      { readEntry e .unset with timestring := timeMatch times }
    rw [protocolCommands, htime, hpublic, hman, hnat]
    rfl
  have hprotocol : (portStrings { readEntry e .unset with
      timestring := timeMatch times }).protocol = e.protocol :=
    (portStrings_fields { readEntry e .unset with timestring := timeMatch times }).1
  simp only [entryLines, writeCommands, hcommands, hprotocol, VrtsrvEntry.protocols,
    List.flatMap_append]
  congr 2
  · split
    · rfl
    · rfl
  · split
    · rfl
    · rfl

theorem dnatRules_entryLines :
    dnatRules (entryLines wanip e times) = e.protocols.map
      (dnatRule wanip e (timeMatch times)) := by
  have hrules : ∀ ps : List String, dnatRules (ps.flatMap fun p =>
      [markRule e p, dnatRule wanip e (timeMatch times) p]) =
      ps.map (dnatRule wanip e (timeMatch times)) := by
    intro ps
    induction ps with
    | nil => rfl
    | cons p ps ih =>
      rw [dnatRules] at ih ⊢
      rw [List.flatMap_cons, List.filter_append, ih]
      simp [not_isDnat_markRule, isDnat_dnatRule]
  have hdays : List.filter isDnat (dayLines times) = [] := dnatRules_dayLines times
  rw [entryLines_eq, dnatRules, List.filter_append, hdays]
  exact hrules e.protocols

theorem vrtsrvEntry_tmpPath {cfg : VrtsrvConfig} {k : ℕ} {e : VrtsrvEntry} {v : VrtsrvVars}
    (he : e.enable ≠ "1" ∨ e.times cfg.schedules = none) (hv : v.tmpPath = none) :
    (vrtsrvEntry cfg k e v).1.tmpPath = none := by
  rw [vrtsrvEntry]
  split
  · next hon =>
    have htimes := he.resolve_left (not_not_intro hon)
    have hread : (readEntry e v).tmpPath = none := hv
    have hpath : (choosePath cfg k e (readEntry e v)).tmpPath = none := by
      rw [choosePath]
      split
      · next hsched =>
        rw [VrtsrvEntry.times, if_neg hsched] at htimes
        split at htimes
        · cases htimes
        · next hid =>
          have hnone : scheduleWithId cfg.schedules e.uniqueid = none :=
            map_eq_none_iff.mp htimes
          have hfind := findSchedule_spec e.uniqueid 0 cfg.schedules (readEntry e v).tmpPath
          rw [hnone] at hfind
          simp only [if_neg hid]
          exact hfind.trans hread
      · exact hread
    have hports : ∀ w : VrtsrvVars, (portStrings w).tmpPath = w.tmpPath := by
      intro w
      rw [portStrings]
      split <;> rfl
    simp only [writeCommands, hports, readTimes, hpath]
  · exact hv

theorem loop_tmpPath {cfg : VrtsrvConfig} {before : List VrtsrvEntry}
    (hb : ∀ b ∈ before, b.enable ≠ "1" ∨ b.times cfg.schedules = none) {v : VrtsrvVars}
    (hv : v.tmpPath = none) :
    (Generator.loop (vrtsrvEntry cfg) 0 before { v with count := 0, ftpcount := 0 }).1.tmpPath =
      none :=
  Generator.loop_keeps (vrtsrvEntry cfg) (I := fun v => v.tmpPath = none)
    (fun _ b hmem _ h => vrtsrvEntry_tmpPath (hb b hmem) h) 0 hv

/-- What is written for an enabled entry. If the times it refers to are
complete, its lines begin with that of their days and every DNAT rule has the match for them. If
they are incomplete, or the schedule is missing and neither an entry before nor an earlier script
has left a path, the DNAT rules are written without a match for the time. -/
theorem forwards_follow_schedule (wanip : String) (before : List VrtsrvEntry) (e : VrtsrvEntry)
    (after : List VrtsrvEntry) (schedules : List ScheduleEntry) (v : VrtsrvVars)
    (he : e.enable = "1") (lines : List String)
    (hlines : lines ∈ linesFor wanip before e after schedules v) :
    (∀ s, e.times schedules = some s → s.Complete →
      lines.head? = some ("DAYSTRING=`dayconvert " ++ s.beginday ++ " " ++ s.endday ++ "`\n") ∧
        dnatRules lines = e.protocols.map (dnatRule wanip e
          (" -m time --timestart " ++ s.begintime ++ " --timestop " ++ s.endtime ++
            " --days $DAYSTRING"))) ∧
      (∀ s, e.times schedules = some s → ¬ s.Complete →
        dnatRules lines = e.protocols.map (dnatRule wanip e "")) ∧
      (e.times schedules = none → v.tmpPath = none →
        (∀ b ∈ before, b.enable ≠ "1" ∨ b.times schedules = none) →
        dnatRules lines = e.protocols.map (dnatRule wanip e "")) := by
  have hup : wanip ≠ "" := by
    intro hdown
    rw [linesFor_of_down hdown] at hlines
    cases hlines
  rw [linesFor_enabled hup before he] at hlines
  obtain rfl := some.inj hlines
  refine ⟨?_, ?_, ?_⟩
  · intro s hs hc
    rw [hs, some_or]
    constructor
    · simp only [entryLines, dayLines, if_pos hc, List.singleton_append, List.head?_cons]
    · rw [dnatRules_entryLines, timeMatch, if_pos hc]
  · intro s hs hc
    rw [hs, some_or, dnatRules_entryLines, timeMatch, if_neg hc]
  · intro hs hv hb
    rw [hs, none_or, loop_tmpPath hb hv, dnatRules_entryLines]
    rfl

/-- The entry that lends its times, on its own: its forward runs from eight to six. -/
theorem forwards_follow_schedule_lender :
    linesFor "10.0.0.1" [] lender [] [] .unset =
        some (entryLines "10.0.0.1" lender (some lender.schedule)) ∧
      dnatRules (entryLines "10.0.0.1" lender (some lender.schedule)) =
        [dnatRule "10.0.0.1" lender
          " -m time --timestart 08:00 --timestop 18:00 --days $DAYSTRING" " -p tcp"] := by
  have hlines : linesFor "10.0.0.1" [] lender [] [] .unset =
      some (entryLines "10.0.0.1" lender (some lender.schedule)) :=
    linesFor_enabled (by decide) [] rfl [] [] .unset
  obtain ⟨hcomplete, -, -⟩ := forwards_follow_schedule "10.0.0.1" [] lender [] [] .unset rfl
    _ hlines
  exact ⟨hlines, (hcomplete lender.schedule rfl (by decide)).2⟩

def blankTimes : VrtsrvEntry := { lender with schedule := ⟨"0", "6", "08:00", ""⟩ }

def deletedTimes : VrtsrvEntry := { lender with uniqueid := "3" }

/-- Both forwards are written, and for all times. -/
theorem forwards_without_times :
    (blankTimes.enable = "1" ∧ blankTimes.scheduleEnable ≠ "0" ∧
      (∀ s, blankTimes.times [] = some s → ¬ s.Complete) ∧
      (linesFor "10.0.0.1" [] blankTimes [] [] .unset).map dnatRules =
        some [dnatRule "10.0.0.1" blankTimes "" " -p tcp"]) ∧
    deletedTimes.enable = "1" ∧ deletedTimes.scheduleEnable ≠ "0" ∧ deletedTimes.times [] = none ∧
      (linesFor "10.0.0.1" [] deletedTimes [] [] .unset).map dnatRules =
        some [dnatRule "10.0.0.1" deletedTimes "" " -p tcp"] := by
  have hlines : ∀ e : VrtsrvEntry, e.enable = "1" →
      (linesFor "10.0.0.1" [] e [] [] .unset).map dnatRules =
        some (e.protocols.map (dnatRule "10.0.0.1" e (timeMatch (e.times [])))) := by
    intro e he
    rw [linesFor_enabled (by decide) [] he, map_some, dnatRules_entryLines]
    cases e.times [] with
    | none => rfl
    | some s => rfl
  refine ⟨⟨rfl, by decide, ?_, hlines blankTimes rfl⟩, rfl, by decide, rfl,
    hlines deletedTimes rfl⟩
  rintro s hs
  obtain rfl := some.inj hs
  decide

end Wbr1310.Rg
