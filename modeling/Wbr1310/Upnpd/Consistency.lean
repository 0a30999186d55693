import Wbr1310.Upnpd.PortMapping

/-!
# The table and the chain

No sequence of actions gives two entries the same remote host, external port and protocol. The
chain has the rules of the enabled entries as long as the router is not restarted while there
are some: `rg_start` flushes the chain, and nothing fills it again.
-/

namespace Wbr1310.Upnpd

open Lib Machine

def Entry.key (e : Entry) : String × String × Protocol := (e.remoteip, e.port2, e.protocol)

/-- An enabled entry with a recorded address of the WAN side. -/
def Entry.Active (e : Entry) : Prop := e.enable = "1" ∧ e.wanip ≠ ""

instance (e : Entry) : Decidable e.Active := inferInstanceAs (Decidable (_ ∧ _))

def Entry.rule (e : Entry) : String := dnat e.remoteip e.protocol e.wanip e.port2 e.ip e.port1

section Rules

variable {ρ : Type*} (read : String → ρ)

def rules (entries : List Entry) : List ρ :=
  (entries.filter fun e => decide e.Active).map fun e => read e.rule

theorem rules_append (entries others : List Entry) :
    rules read (entries ++ others) = rules read entries ++ rules read others := by
  rw [rules, List.filter_append, List.map_append]
  rfl

theorem rules_of_active {e : Entry} (h : e.Active) (entries : List Entry) :
    rules read (e :: entries) = read e.rule :: rules read entries := by
  simp [rules, h]

theorem rules_of_not_active {e : Entry} (h : ¬ e.Active) (entries : List Entry) :
    rules read (e :: entries) = rules read entries := by
  simp [rules, h]

theorem rules_eq_nil_iff {entries : List Entry} :
    rules read entries = [] ↔ ∀ e ∈ entries, ¬ e.Active := by
  simp [rules, List.filter_eq_nil_iff]

end Rules

theorem Entry.fits_iff {remoteHost externalPort protocol : String} {e : Entry} :
    e.fits remoteHost externalPort protocol ↔
      (remoteHost, externalPort, Protocol.ofName protocol) = e.key := by
  simp [Entry.fits, Entry.key]

def addition (e : Entry) : List Command :=
  if e.Active then [.echo ("iptables -t nat -A PRE_UPNP" ++ e.rule), .append e.rule] else []

/-- A mapping is refused, or its entry is put behind the others. -/
theorem addPortMapping_cases (wanip : String) (entries : List Entry) (r : AddPortMapping) :
    addPortMapping wanip entries r = ⟨entries, [], "ErrCode:402 "⟩ ∨
      ∃ e, (∀ other ∈ entries, other.key ≠ e.key) ∧
        addPortMapping wanip entries r = ⟨entries ++ [e], addition e, ""⟩ := by
  rw [addPortMapping]
  split
  · rw [Numbered.countUnless_spec]
    by_cases htaken :
        ∃ e ∈ entries, Entry.fits r.newRemoteHost r.newExternalPort r.newProtocol e
    · rw [if_pos htaken]
      exact .inl rfl
    · have hfree : ∀ other ∈ entries, other.key ≠ r.entry.key := by
        intro other hmem hkey
        exact htaken ⟨other, hmem, Entry.fits_iff.mpr hkey.symm⟩
      rw [if_neg htaken, Nat.zero_add]
      by_cases hrule : r.newEnabled = "1" ∧ wanip ≠ ""
      · refine .inr ⟨{ r.entry with wanip }, hfree, ?_⟩
        have hactive : Entry.Active { r.entry with wanip } := hrule
        simp only [if_pos hrule, Numbered.put_new, addition, if_pos hactive]
        rfl
      · refine .inr ⟨r.entry, hfree, ?_⟩
        have hinactive : ¬ r.entry.Active := fun h => h.2 rfl
        simp only [if_neg hrule, Numbered.put_new, addition, if_neg hinactive]
  · exact .inl rfl

theorem deletePortMapping_cases (entries : List Entry) (r : DeletePortMapping) :
    deletePortMapping entries r = ⟨entries, [], ""⟩ ∨
      ∃ pre e post, entries = pre ++ e :: post ∧
        deletePortMapping entries r = ⟨pre ++ post, removal e, ""⟩ := by
  obtain ⟨hnone, -⟩ | ⟨pre, e, post, rfl, hlast, -, -⟩ :=
    Numbered.last_cases (Entry.fits r.newRemoteHost r.newExternalPort r.newProtocol) entries
  · left
    simp [deletePortMapping, hnone]
  · right
    refine ⟨pre, e, post, rfl, ?_⟩
    simp [deletePortMapping, hlast]

section Chain

variable {ρ : Type*} [DecidableEq ρ] (read : String → ρ)

theorem execute_addition (e : Entry) (l : List ρ) :
    execute read (addition e) (some l) = some (l ++ rules read [e]) := by
  by_cases hactive : e.Active
  · rw [addition, if_pos hactive, rules_of_active read hactive]
    rfl
  · rw [addition, if_neg hactive, rules_of_not_active read hactive]
    simp [execute, rules]

theorem execute_removal (e : Entry) (l : List ρ) :
    execute read (removal e) (some l) =
      some (if e.Active then l.erase (read e.rule) else l) := by
  by_cases hactive : e.Active
  · have hwritten : e.enable = "1" ∧ e.wanip ≠ "" := hactive
    rw [removal, if_pos hwritten, if_pos hactive]
    rfl
  · have hunwritten : ¬ (e.enable = "1" ∧ e.wanip ≠ "") := hactive
    rw [removal, if_neg hunwritten, if_neg hactive]
    rfl

theorem execute_rgStart (chain : Option (List ρ)) : execute read rgStart chain = some [] := rfl

/-- No two entries have the same remote host, external port and protocol. -/
def Distinct (s : Router ρ) : Prop := (s.entries.map Entry.key).Nodup

/-- The chain has one rule for each active entry, and no other. -/
def Filled (s : Router ρ) : Prop := ∃ l, s.chain = some l ∧ l.Perm (rules read s.entries)

def Consistent (s : Router ρ) : Prop := Distinct s ∧ Filled read s

def Calm (s : Router ρ) (event : Event) : Prop :=
  event = .restart → s.routerEnable → ∀ e ∈ s.entries, ¬ e.Active

variable {s : Router ρ}

/-- Every event keeps the mappings distinct. -/
theorem distinct_step (h : Distinct s) (event : Event) :
    Distinct (step read s event) := by
  cases hmode : s.routerEnable with
  | false => cases event <;> simpa [step, hmode, Distinct] using h
  | true =>
    cases event with
    | add r =>
      simp only [step, hmode, if_true, Distinct, Router.apply]
      obtain hrefused | ⟨e, hfree, hadded⟩ := addPortMapping_cases s.wanip s.entries r
      · rw [hrefused]
        exact h
      · rw [hadded, List.map_append, List.map_singleton, List.nodup_append]
        refine ⟨h, by simp, ?_⟩
        intro key hkey other hother
        obtain ⟨old, hmem, rfl⟩ := List.mem_map.mp hkey
        rw [List.mem_singleton.mp hother]
        exact hfree old hmem
    | delete r =>
      simp only [step, hmode, if_true, Distinct, Router.apply]
      obtain hnone | ⟨pre, e, post, hsplit, hdeleted⟩ := deletePortMapping_cases s.entries r
      · rw [hnone]
        exact h
      · rw [hdeleted]
        rw [Distinct, hsplit] at h
        have hsub : (pre ++ post).Sublist (pre ++ e :: post) :=
          (List.Sublist.refl pre).append (List.sublist_cons_self e post)
        exact h.sublist (hsub.map Entry.key)
    | restart => simpa [step, hmode, Distinct] using h
    | wanChange ip => exact h

theorem filled_add (h : Filled read s) (r : AddPortMapping) :
    Filled read (s.apply read (addPortMapping s.wanip s.entries r)) := by
  obtain ⟨l, hchain, hperm⟩ := h
  obtain hrefused | ⟨e, -, hadded⟩ := addPortMapping_cases s.wanip s.entries r
  · rw [Router.apply, hrefused]
    exact ⟨l, hchain, hperm⟩
  · rw [Router.apply, hadded, hchain]
    refine ⟨_, execute_addition read e l, ?_⟩
    rw [rules_append]
    exact hperm.append_right _

theorem filled_delete (h : Filled read s) (r : DeletePortMapping) :
    Filled read (s.apply read (deletePortMapping s.entries r)) := by
  obtain ⟨l, hchain, hperm⟩ := h
  obtain hnone | ⟨pre, e, post, hsplit, hdeleted⟩ := deletePortMapping_cases s.entries r
  · rw [Router.apply, hnone]
    exact ⟨l, hchain, hperm⟩
  · rw [Router.apply, hdeleted, hchain]
    refine ⟨_, execute_removal read e l, ?_⟩
    rw [hsplit, rules_append] at hperm
    rw [rules_append]
    by_cases hactive : e.Active
    · -- the rule that is deleted is one of an active entry, and equal rules are the same
      rw [rules_of_active read hactive] at hperm
      rw [if_pos hactive]
      have hfront : l.Perm (read e.rule :: (rules read pre ++ rules read post)) :=
        hperm.trans List.perm_middle
      simpa using hfront.erase (read e.rule)
    · rw [rules_of_not_active read hactive] at hperm
      rw [if_neg hactive]
      exact hperm

theorem filled_restart_iff (s : Router ρ) :
    Filled read { s with chain := execute read rgStart s.chain } ↔
      ∀ e ∈ s.entries, ¬ e.Active := by
  rw [← rules_eq_nil_iff read]
  constructor
  · rintro ⟨l, hchain, hperm⟩
    obtain rfl := Option.some.inj ((execute_rgStart read s.chain).symm.trans hchain)
    exact hperm.nil_eq.symm
  · intro hnil
    exact ⟨[], execute_rgStart read s.chain, by rw [hnil]⟩

/-- An event keeps the chain filled just if it is calm. -/
theorem filled_step_iff (h : Filled read s) (event : Event) :
    Filled read (step read s event) ↔ Calm s event := by
  cases hmode : s.routerEnable with
  | false =>
    have hkept : Filled read (step read s event) := by
      cases event <;> simpa [step, hmode, Filled] using h
    exact iff_of_true hkept fun _ hon => absurd hon (by simp [hmode])
  | true =>
    cases event with
    | add r =>
      rw [step, if_pos hmode]
      exact iff_of_true (filled_add read h r) fun hr => nomatch hr
    | delete r =>
      rw [step, if_pos hmode]
      exact iff_of_true (filled_delete read h r) fun hr => nomatch hr
    | restart =>
      rw [step, if_pos hmode, filled_restart_iff]
      exact ⟨fun hnone _ _ => hnone, fun hcalm => hcalm rfl hmode⟩
    | wanChange ip => exact iff_of_true h fun hr => nomatch hr

/-- The table and the chain are consistent throughout a run exactly when the router is never
restarted while an entry is active. -/
theorem consistent_throughout_iff (routerEnable : Bool) (wanip : String) (events : List Event) :
    Throughout (step read) (Consistent read) (start routerEnable wanip) events ↔
      Along (step read) Calm (start routerEnable wanip) events := by
  refine throughout_iff (fun s event hs => ?_) ⟨List.nodup_nil, [], rfl, List.Perm.refl _⟩
  rw [Consistent, filled_step_iff read hs.2]
  exact and_iff_right (distinct_step read hs.1 event)

end Chain

def webMapping : AddPortMapping where
  newRemoteHost := ""
  newExternalPort := "8080"
  newProtocol := "TCP"
  newInternalPort := "80"
  newInternalClient := "192.168.0.100"
  newEnabled := "1"
  newPortMappingDescription := "web"

/-- The router after the mapping was added and the router restarted. -/
def restarted : Router String :=
  run (step id) (start true "203.0.113.7") [.add webMapping, .restart]

/-- The mapping is still in the table, and its rule is gone. -/
theorem restarted_not_consistent :
    (∃ e ∈ restarted.entries, e.Active) ∧ restarted.chain = some [] ∧
      ¬ Consistent id restarted := by
  have hactive : ∃ e ∈ restarted.entries, e.Active := by decide +kernel
  refine ⟨hactive, rfl, ?_⟩
  rintro ⟨-, l, hchain, hperm⟩
  obtain rfl := Option.some.inj hchain
  obtain ⟨e, hmem, he⟩ := hactive
  exact (rules_eq_nil_iff id).mp hperm.nil_eq.symm e hmem he

end Wbr1310.Upnpd
