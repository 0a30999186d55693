import Wbr1310.Hnap.PortMappings

/-!
# Mappings are kept and can be deleted

The three requests read the table in different ways: a free entry is one without a description,
an empty client is stored as an address, and a protocol that is not TCP or UDP is stored as a
third one, which is listed as both and deleted under neither. Where a run keeps clear of these
differences, a mapping is listed until it is deleted, alone on its port, and each listed
mapping can be deleted.
-/

namespace Wbr1310.Hnap

open Lib Machine List

section

variable (configured : Option ℕ) (t : List Entry) (r : AddPortMapping)

/-- The request was answered with success: the code says REBOOT, not OK. -/
def Accepted : Prop :=
  (addPortMapping configured t r).rlt ≠ .error

instance (configured : Option ℕ) (t : List Entry) (r : AddPortMapping) :
    Decidable (Accepted configured t r) :=
  inferInstanceAs (Decidable (_ ≠ _))

/-- The protocols that a word of a request stands for, as they are listed. -/
def wordProtocols (word : String) : List String := protocols (storedProtocol word)

def AddPortMapping.mapping (protocol : String) : PortMapping where
  portMappingDescription := r.portMappingDescription
  internalClient := ip r.internalClient
  portMappingProtocol := protocol
  externalPort := r.externalPort
  internalPort := r.internalPort

def Listed (t : List Entry) : Prop :=
  ∀ p ∈ wordProtocols r.portMappingProtocol, r.mapping p ∈ getPortMappings t

instance (r : AddPortMapping) (t : List Entry) : Decidable (Listed r t) :=
  inferInstanceAs (Decidable (∀ p ∈ _, _))

def Deletes (q : Request) : Prop :=
  ∃ d, q = .delete d ∧ d.externalPort = r.externalPort ∧
    d.portMappingProtocol ∈ wordProtocols r.portMappingProtocol

def Kept (configured : Option ℕ) (r : AddPortMapping) : List Entry → List Request → Prop
  | t, [] => Listed r t
  | t, q :: requests =>
    Listed r t ∧ (Deletes r q ∨ Kept configured r (step configured t q) requests)

/-- The listed mapping has the external port, the protocol and the client of the other. -/
def PortMapping.sameKey (x y : PortMapping) : Bool :=
  decide (x.externalPort = y.externalPort ∧ x.portMappingProtocol = y.portMappingProtocol ∧
    x.internalClient = y.internalClient)

/-- At most one listed mapping has the external port, the protocol and the client of the
request. -/
def Alone (t : List Entry) : Prop :=
  ∀ p ∈ wordProtocols r.portMappingProtocol,
    (getPortMappings t).countP (PortMapping.sameKey (r.mapping p)) ≤ 1

instance (r : AddPortMapping) (t : List Entry) : Decidable (Alone r t) :=
  inferInstanceAs (Decidable (∀ p ∈ _, _))

/-- Each listed mapping is gone after a request to delete it. -/
def Removable : Prop :=
  ∀ x ∈ getPortMappings t,
    x ∉ getPortMappings (deletePortMapping t ⟨x.externalPort, x.portMappingProtocol⟩).entries

instance (t : List Entry) : Decidable (Removable t) :=
  inferInstanceAs (Decidable (∀ x ∈ _, _))

/-- Throughout the run, listed mappings can be deleted, and those that were added with success
are alone and kept. -/
def Sound (configured : Option ℕ) : List Entry → List Request → Prop
  | t, [] => Removable t
  | t, q :: requests =>
    Removable t ∧
      (∀ r, q = .add r → Accepted configured t r →
        Alone r (step configured t q) ∧ Kept configured r (step configured t q) requests) ∧
      Sound configured (step configured t q) requests

def Entry.Enabled (e : Entry) : Prop := e.enable = "1"

instance (e : Entry) : Decidable e.Enabled := inferInstanceAs (Decidable (_ = _))

def Known (protocol : String) : Prop := protocol = "1" ∨ protocol = "2"

instance (protocol : String) : Decidable (Known protocol) := inferInstanceAs (Decidable (_ ∨ _))

def Entry.Clashes (e other : Entry) : Prop :=
  e.publicPort = other.publicPort ∧ prot e.protocol = prot other.protocol

instance (e other : Entry) : Decidable (e.Clashes other) := inferInstanceAs (Decidable (_ ∧ _))

/-- Enabled entries have one of the two protocols, and no entry behind them is for the same port
and protocol. -/
structure Tidy (t : List Entry) : Prop where
  known : ∀ e ∈ t, e.Enabled → Known e.protocol
  alone : t.Pairwise fun e other => e.Enabled → ¬ e.Clashes other

instance (t : List Entry) : Decidable (Tidy t) :=
  decidable_of_iff
    ((∀ e ∈ t, e.Enabled → Known e.protocol) ∧
      t.Pairwise fun e other => e.Enabled → ¬ e.Clashes other)
    ⟨fun h => ⟨h.1, h.2⟩, fun h => ⟨h.known, h.alone⟩⟩

def slot : ℕ :=
  let i := Numbered.first (fun e => decide (e.description = "")) t
  if i = 0 then t.length + 1 else i

/-- A mapping that is added is for TCP or UDP, is not written over an enabled entry, and no
enabled entry and no entry behind its own is for its port and protocol. -/
structure Careful (t : List Entry) (r : AddPortMapping) : Prop where
  known : Known (storedProtocol r.portMappingProtocol)
  vacant : ∀ e ∈ t[slot t - 1]?, ¬ e.Enabled
  alone : ∀ e ∈ t, e.Enabled → ¬ e.Clashes r.entry
  last : ∀ e ∈ t.drop (slot t), ¬ r.entry.Clashes e

instance (t : List Entry) (r : AddPortMapping) : Decidable (Careful t r) :=
  decidable_of_iff
    (Known (storedProtocol r.portMappingProtocol) ∧ (∀ e ∈ t[slot t - 1]?, ¬ e.Enabled) ∧
      (∀ e ∈ t, e.Enabled → ¬ e.Clashes r.entry) ∧
      ∀ e ∈ t.drop (slot t), ¬ r.entry.Clashes e)
    ⟨fun h => ⟨h.1, h.2.1, h.2.2.1, h.2.2.2⟩, fun h => ⟨h.known, h.vacant, h.alone, h.last⟩⟩

def CarefulStep : Request → Prop
  | .add r => Accepted configured t r → Careful t r
  | .delete _ => True

end

instance (configured : Option ℕ) (t : List Entry) :
    (q : Request) → Decidable (CarefulStep configured t q)
  | .add r => inferInstanceAs (Decidable (Accepted configured t r → Careful t r))
  | .delete _ => inferInstanceAs (Decidable True)

theorem addLoop_eq (r : AddPortMapping) (exist : Bool) (i j : ℕ) (t : List Entry) :
    addLoop r exist i j t =
      (t.any r.same || exist,
        Numbered.firstFrom (fun e => decide (e.description = "")) j i t, j + t.length) := by
  induction t generalizing exist i j with
  | nil => simp [addLoop, Numbered.firstFrom]
  | cons e t ih =>
    rw [addLoop, ih, Numbered.firstFrom]
    simp only [decide_eq_true_eq, any_cons, length_cons, Prod.mk.injEq, true_and]
    constructor
    · cases r.same e <;> cases t.any r.same <;> rfl
    · omega

theorem addPortMapping_eq (configured : Option ℕ) (t : List Entry) (r : AddPortMapping) :
    addPortMapping configured t r =
      if maxRules configured < slot t ∨ t.any r.same then
        ⟨t, shellHead ++ [shellRefused (maxRules configured) (slot t) (t.any r.same)], .error⟩
      else ⟨Numbered.put t (slot t) r.entry, shellHead ++ shellCommit, .reboot⟩ := by
  rw [addPortMapping, addLoop_eq]
  simp only [Bool.or_false, Nat.zero_add]
  rfl

/-- A mapping is refused, or written between two parts of the table; `old` is the entry that it
is written over, if there is one. -/
theorem step_add_cases (configured : Option ℕ) (t : List Entry) (r : AddPortMapping) :
    (¬ Accepted configured t r ∧ step configured t (.add r) = t) ∨
      (Accepted configured t r ∧ ∃ pre old post, t = pre ++ (old ++ post) ∧
        t.drop (slot t) = post ∧ (∀ e ∈ old, e ∈ t[slot t - 1]?) ∧
        step configured t (.add r) = pre ++ r.entry :: post) := by
  rw [step, Accepted, addPortMapping_eq]
  split
  · exact .inl ⟨by simp, rfl⟩
  · refine .inr ⟨by simp, ?_⟩
    obtain ⟨hnone, -⟩ | ⟨pre, e, post, rfl, hfirst, -, -⟩ :=
      Numbered.first_cases (fun e : Entry => decide (e.description = "")) t
    · have hslot : slot t = t.length + 1 := by rw [slot, hnone, if_pos rfl]
      refine ⟨t, [], [], by simp, ?_, by simp, ?_⟩
      · rw [hslot]
        exact drop_of_length_le (Nat.le_succ _)
      · rw [hslot, Numbered.put_new]
    · have hslot : slot (pre ++ e :: post) = pre.length + 1 := by
        rw [slot, hfirst, if_neg (Nat.succ_ne_zero _)]
      refine ⟨pre, [e], post, rfl, ?_, ?_, ?_⟩
      · simp [hslot]
      · simp [hslot]
      · rw [hslot, Numbered.put_split]

theorem deletePortMapping_cases (t : List Entry) (d : DeletePortMapping) :
    ((deletePortMapping t d).entries = t ∧ ∀ e ∈ t, d.matches e = false) ∨
      ∃ pre e post, t = pre ++ e :: post ∧ (deletePortMapping t d).entries = pre ++ post ∧
        d.matches e ∧ ∀ other ∈ post, d.matches other = false := by
  obtain ⟨hnone, hall⟩ | ⟨pre, e, post, rfl, hlast, he, hpost⟩ := Numbered.last_cases d.matches t
  · exact .inl ⟨by simp [deletePortMapping, hnone], hall⟩
  · exact .inr ⟨pre, e, post, rfl, by simp [deletePortMapping, hlast], he, hpost⟩

variable {t : List Entry} {r : AddPortMapping} {configured : Option ℕ} {e : Entry}

theorem mem_getPortMappings {x : PortMapping} :
    x ∈ getPortMappings t ↔
      ∃ e ∈ t, e.Enabled ∧ ∃ p ∈ protocols e.protocol, e.mapping p = x := by
  rw [getPortMappings, mem_flatMap]
  refine exists_congr fun e => and_congr_right fun _ => ?_
  rw [Entry.mappings, Entry.Enabled]
  split
  · next h => simp [h]
  · next h => simp [h]

theorem protocols_of_known {protocol : String} (h : Known protocol) :
    protocols protocol = [prot protocol] := by
  obtain rfl | rfl := h <;> rfl

theorem ip_privateIP (client : String) : ip (privateIP client) = ip client := by
  rw [privateIP]
  split
  · next h => rw [h]; rfl
  · rfl

theorem AddPortMapping.entry_enabled (r : AddPortMapping) : r.entry.Enabled := rfl

theorem listed_of_mem (h : r.entry ∈ t) : Listed r t := by
  intro p hp
  refine mem_getPortMappings.mpr ⟨r.entry, h, r.entry_enabled, p, hp, ?_⟩
  rw [Entry.mapping, AddPortMapping.mapping, ← ip_privateIP r.internalClient]
  rfl

theorem Tidy.of_listed (ht : Tidy t) {x : PortMapping} (hx : x ∈ getPortMappings t) :
    ∃ e ∈ t, e.Enabled ∧ x = e.mapping (prot e.protocol) := by
  obtain ⟨e, hmem, hen, p, hp, rfl⟩ := mem_getPortMappings.mp hx
  rw [protocols_of_known (ht.known e hmem hen)] at hp
  exact ⟨e, hmem, hen, by rw [mem_singleton.mp hp]⟩

/-- A step keeps an enabled entry unless a deletion matches it. -/
theorem mem_step {q : Request} (hq : CarefulStep configured t q) (he : e ∈ t) (hen : e.Enabled) :
    e ∈ step configured t q ∨ ∃ d, q = .delete d ∧ d.matches e := by
  cases q with
  | add r =>
    left
    obtain ⟨-, hstep⟩ | ⟨hacc, pre, old, post, hsplit, -, hold, hstep⟩ :=
      step_add_cases configured t r
    · rw [hstep]
      exact he
    · rw [hstep]
      rw [hsplit, mem_append, mem_append] at he
      obtain he | he | he := he
      · exact mem_append_left _ he
      · exact absurd hen ((hq hacc).vacant e (hold e he))
      · exact mem_append_right _ (mem_cons_of_mem _ he)
  | delete d =>
    obtain ⟨hstep, -⟩ | ⟨pre, a, post, rfl, hstep, hmatch, -⟩ := deletePortMapping_cases t d
    · exact .inl (by rw [step, hstep]; exact he)
    · by_cases hea : e = a
      · exact .inr ⟨d, rfl, hea ▸ hmatch⟩
      · left
        rw [step, hstep]
        simp only [mem_append, mem_cons, hea, false_or] at he ⊢
        exact he

theorem Tidy.sublist {t' : List Entry} (ht : Tidy t) (h : t'.Sublist t) : Tidy t' :=
  ⟨fun e he => ht.known e (h.subset he), ht.alone.sublist h⟩

theorem Tidy.insert {pre old post : List Entry} (ht : Tidy (pre ++ (old ++ post)))
    (hr : Careful (pre ++ (old ++ post)) r)
    (hpost : (pre ++ (old ++ post)).drop (slot (pre ++ (old ++ post))) = post) :
    Tidy (pre ++ r.entry :: post) := by
  have hsub : (pre ++ post).Sublist (pre ++ (old ++ post)) :=
    (List.Sublist.refl pre).append (sublist_append_right old post)
  have hrest : Tidy (pre ++ post) := ht.sublist hsub
  have hlast := hr.last
  rw [hpost] at hlast
  obtain ⟨hpre, hcons, hcross⟩ := pairwise_append.mp hrest.alone
  constructor
  · intro e he hen
    simp only [mem_append, mem_cons] at he
    obtain he | rfl | he := he
    · exact hrest.known e (mem_append_left _ he) hen
    · exact hr.known
    · exact hrest.known e (mem_append_right _ he) hen
  · refine pairwise_append.mpr ⟨hpre, pairwise_cons.mpr ⟨?_, hcons⟩, ?_⟩
    · exact fun e he _ => hlast e he
    · intro e he other hother hen
      obtain rfl | hother := mem_cons.mp hother
      · exact hr.alone e (mem_append_left _ he) hen
      · exact hcross e he other hother hen

/-- Careful steps keep the table tidy. -/
theorem tidy_step {q : Request} (ht : Tidy t) (hq : CarefulStep configured t q) :
    Tidy (step configured t q) := by
  cases q with
  | add r =>
    obtain ⟨-, hstep⟩ | ⟨hacc, pre, old, post, rfl, hpost, -, hstep⟩ :=
      step_add_cases configured t r
    · rw [hstep]
      exact ht
    · rw [hstep]
      exact ht.insert (hq hacc) hpost
  | delete d =>
    obtain ⟨hstep, -⟩ | ⟨pre, a, post, rfl, hstep, -, -⟩ := deletePortMapping_cases t d
    · rw [step, hstep]
      exact ht
    · rw [step, hstep]
      exact ht.sublist ((List.Sublist.refl pre).append (sublist_cons_self a post))

theorem matches_iff {d : DeletePortMapping} :
    d.matches e ↔ e.publicPort = d.externalPort ∧ prot e.protocol = d.portMappingProtocol := by
  simp [DeletePortMapping.matches]

theorem Tidy.removable (ht : Tidy t) : Removable t := by
  intro x hx hstill
  obtain ⟨e, hmem, hen, rfl⟩ := ht.of_listed hx
  obtain ⟨-, hnone⟩ | ⟨pre, a, post, rfl, hstep, hmatch, hpost⟩ :=
    deletePortMapping_cases t ⟨e.publicPort, prot e.protocol⟩
  · have hself : (⟨e.publicPort, prot e.protocol⟩ : DeletePortMapping).matches e :=
      matches_iff.mpr ⟨rfl, rfl⟩
    exact absurd hself (by simp [hnone e hmem])
  · -- the mapping would be listed for an entry that is left, and this entry matches too
    change _ ∈ getPortMappings (deletePortMapping _ ⟨e.publicPort, prot e.protocol⟩).entries
      at hstill
    rw [hstep] at hstill
    have hleft : Tidy (pre ++ post) :=
      ht.sublist ((List.Sublist.refl pre).append (sublist_cons_self a post))
    obtain ⟨other, hother, hon, heq⟩ := hleft.of_listed hstill
    have hport : e.publicPort = other.publicPort := congrArg PortMapping.externalPort heq
    have hprot : prot e.protocol = prot other.protocol :=
      congrArg PortMapping.portMappingProtocol heq
    obtain hother | hother := mem_append.mp hother
    · obtain ⟨haport, haprot⟩ := matches_iff.mp hmatch
      have hpair := (pairwise_append.mp ht.alone).2.2 other hother a mem_cons_self hon
      exact hpair ⟨hport.symm.trans haport.symm, hprot.symm.trans haprot.symm⟩
    · have hagain : (⟨e.publicPort, prot e.protocol⟩ : DeletePortMapping).matches other :=
        matches_iff.mpr ⟨hport.symm, hprot.symm⟩
      exact absurd hagain (by simp [hpost other hother])

theorem Entry.mappings_of_known (hen : e.Enabled) (hk : Known e.protocol) :
    e.mappings = [e.mapping (prot e.protocol)] := by
  have hon : e.enable = "1" := hen
  rw [Entry.mappings, if_pos hon, protocols_of_known hk, map_singleton]

theorem countP_of_careful {s : List Entry} (ht : Tidy t) (hr : Careful t r) (hs : ∀ e ∈ s, e ∈ t)
    {p : String} (hp : p ∈ wordProtocols r.portMappingProtocol) :
    (getPortMappings s).countP (PortMapping.sameKey (r.mapping p)) = 0 := by
  rw [countP_eq_zero]
  intro x hx hsame
  obtain ⟨e, he, hen, q, hq, rfl⟩ := mem_getPortMappings.mp hx
  rw [protocols_of_known (ht.known e (hs e he) hen)] at hq
  rw [wordProtocols, protocols_of_known hr.known] at hp
  obtain ⟨hport, hprot, -⟩ := of_decide_eq_true hsame
  change r.externalPort = e.publicPort at hport
  change p = q at hprot
  refine hr.alone e (hs e he) hen ⟨hport.symm, ?_⟩
  exact (mem_singleton.mp hq).symm.trans (hprot.symm.trans (mem_singleton.mp hp))

/-- What was added is the only mapping of its port. -/
theorem alone_step (ht : Tidy t) (hr : Careful t r) (hacc : Accepted configured t r) :
    Alone r (step configured t (.add r)) := by
  obtain ⟨hrefused, -⟩ | ⟨-, pre, old, post, rfl, -, -, hstep⟩ := step_add_cases configured t r
  · exact absurd hacc hrefused
  · intro p hp
    have hown : r.entry.mappings.length = 1 := by
      rw [Entry.mappings_of_known r.entry_enabled hr.known]
      rfl
    have hcount := countP_le_length (p := PortMapping.sameKey (r.mapping p))
      (l := r.entry.mappings)
    have hpre := countP_of_careful (s := pre) ht hr (fun e he => mem_append_left _ he) hp
    have hpost := countP_of_careful (s := post) ht hr
      (fun e he => mem_append_right _ (mem_append_right _ he)) hp
    rw [getPortMappings] at hpre hpost
    rw [hstep, getPortMappings, flatMap_append, flatMap_cons, countP_append,
      countP_append, hpre, hpost]
    omega

theorem kept_of_mem (hk : Known (storedProtocol r.portMappingProtocol)) {requests : List Request}
    (ht : r.entry ∈ t) (h : Along (step configured) (CarefulStep configured) t requests) :
    Kept configured r t requests := by
  induction requests generalizing t with
  | nil => exact listed_of_mem ht
  | cons q requests ih =>
    refine ⟨listed_of_mem ht, ?_⟩
    obtain hstay | ⟨d, rfl, hmatch⟩ := mem_step h.1 ht r.entry_enabled
    · exact .inr (ih hstay h.2)
    · obtain ⟨hport, hprot⟩ := matches_iff.mp hmatch
      refine .inl ⟨d, rfl, hport.symm, ?_⟩
      rw [wordProtocols, protocols_of_known hk, mem_singleton]
      exact hprot.symm

/-- A mapping that is accepted is in the table. -/
theorem entry_mem_step (hacc : Accepted configured t r) : r.entry ∈ step configured t (.add r) := by
  obtain ⟨hrefused, -⟩ | ⟨-, pre, old, post, -, -, -, hstep⟩ := step_add_cases configured t r
  · exact absurd hacc hrefused
  · rw [hstep]
    exact mem_append_right _ mem_cons_self

/-- In a run from a tidy table in which every mapping is added with care, mappings are kept,
alone, and can be deleted. -/
theorem sound_of_careful {configured : Option ℕ} {t : List Entry} {requests : List Request}
    (ht : Tidy t) (h : Along (step configured) (CarefulStep configured) t requests) :
    Sound configured t requests := by
  induction requests generalizing t with
  | nil => exact ht.removable
  | cons q requests ih =>
    refine ⟨ht.removable, ?_, ih (tidy_step ht h.1) h.2⟩
    rintro r rfl hacc
    have hr : Careful t r := h.1 hacc
    exact ⟨alone_step ht hr hacc, kept_of_mem hr.known (entry_mem_step hacc) h.2⟩

def oneServer : List Entry := [⟨"1", "web", "192.168.0.100", "1", "80", "80", "0"⟩]

def sshForWeb : List Request :=
  [.add ⟨"ssh", "192.168.0.101", "tcp", "22", "22"⟩, .delete ⟨"80", "TCP"⟩]

/-- A forward is added and another one deleted. -/
theorem sound_sshForWeb :
    Tidy oneServer ∧ Along (step none) (CarefulStep none) oneServer sshForWeb ∧
      Sound none oneServer sshForWeb := by
  have htidy : Tidy oneServer := by decide +kernel
  have hcareful : Along (step none) (CarefulStep none) oneServer sshForWeb := by decide +kernel
  exact ⟨htidy, hcareful, sound_of_careful htidy hcareful⟩

def unnamed : AddPortMapping := ⟨"", "192.168.0.100", "TCP", "80", "80"⟩

def smallLetters : AddPortMapping := ⟨"web", "192.168.0.100", "tcp", "80", "80"⟩

def bothProtocols : AddPortMapping := ⟨"game", "192.168.0.100", "both", "27015", "27015"⟩

/-- The second of two mappings replaces the first where that has no description; a mapping is
added twice; a mapping is listed that cannot be deleted. All requests are accepted. -/
theorem mappings_lost_doubled_stuck :
    (Accepted none [] unnamed ∧ Accepted none (step none [] (.add unnamed)) bothProtocols ∧
      ¬ Listed unnamed (run (step none) [] [.add unnamed, .add bothProtocols])) ∧
    (Accepted none (step none [] (.add smallLetters)) smallLetters ∧
      ¬ Alone smallLetters (run (step none) [] [.add smallLetters, .add smallLetters])) ∧
    (Accepted none [] bothProtocols ∧ ¬ Removable (step none [] (.add bothProtocols))) ∧
    ¬ Sound none [] [.add unnamed, .add bothProtocols] := by
  have hlost : ¬ Listed unnamed (run (step none) [] [.add unnamed, .add bothProtocols]) := by
    decide +kernel
  refine ⟨⟨by decide +kernel, by decide +kernel, hlost⟩, ⟨by decide +kernel, by decide +kernel⟩,
    ⟨by decide +kernel, by decide +kernel⟩, ?_⟩
  rintro ⟨-, hadded, -⟩
  obtain ⟨-, -, hdeleted | hkept⟩ := hadded unnamed rfl (by decide +kernel)
  · obtain ⟨d, hd, -⟩ := hdeleted
    cases hd
  · exact hlost hkept

end Wbr1310.Hnap
