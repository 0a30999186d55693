import Wbr1310.Lib.Machine
import Wbr1310.Rg.Blocking

/-!
# The module for fast address translation

The scripts load and remove `sw_tcpip` by what `/runtime/func` says. A state records
these counters and whether the module is loaded, and for the statements what the last scripts
were given.
-/

namespace Wbr1310.Rg

open Lib List

/-- The scripts, with what they read; the address of the WAN interface is not empty. -/
inductive Script where
  | start (cfg : BlockingConfig)
  | vrtsrv (cfg : VrtsrvConfig) (v : VrtsrvVars) (up : cfg.wanip ≠ "")
  | blocking (cfg : BlockingConfig)

/-- The state of the router, the number of rules for URLs that `flush_blocking.php` has written
last, and the entries of `flush_vrtsrv.php` if that was the last script. -/
structure Router where
  func : Func
  loaded : Bool
  urls : ℕ
  lastVrtsrv : Option (List VrtsrvEntry)

/-- A command loads or removes the module; if there is nothing to do it fails. -/
def afterCommand (loaded : Bool) : Command → Bool
  | .rmmod .swTcpip => false
  | .insmod .swTcpip => true
  | _ => loaded

def afterCommands (loaded : Bool) (cs : List Command) : Bool := cs.foldl afterCommand loaded

def Rule.Final (r : Rule) : Prop := r.target = .accept ∨ r.target = .drop

instance : DecidablePred Rule.Final := fun _ => inferInstanceAs (Decidable (_ ∨ _))

def urlCount (cfg : BlockingConfig) : ℕ :=
  (urlRules cfg.droppacketinfo cfg.url).2.countP (·.Final)

def Router.step (s : Router) : Script → Router
  | .start cfg =>
    let r := rgStart cfg s.func
    ⟨r.1, afterCommands s.loaded r.2, urlCount cfg, none⟩
  | .vrtsrv cfg v _ =>
    let r := flushVrtsrv cfg v s.func
    ⟨r.1, afterCommands s.loaded r.2, s.urls, some cfg.entries⟩
  | .blocking cfg =>
    let r := flushBlocking cfg s.func
    ⟨r.1, afterCommands s.loaded r.2, urlCount cfg, none⟩

def VrtsrvEntry.Ftp (e : VrtsrvEntry) : Prop := e.enable = "1" ∧ e.privateport = "21"

instance : DecidablePred VrtsrvEntry.Ftp := fun _ => inferInstanceAs (Decidable (_ ∧ _))

/-- `fastnat` says whether the module is loaded, and after `flush_vrtsrv.php` it is
loaded exactly when no URL and no port of FTP needs it to be absent. -/
def Router.Follows (s : Router) : Prop :=
  (s.func.fastnat = 1 ↔ s.loaded = true) ∧
    ∀ entries, s.lastVrtsrv = some entries →
      (s.loaded = true ↔ s.urls = 0 ∧ ∀ e ∈ entries, ¬ e.Ftp)

/-- What the scripts need to keep up: the module is loaded when they start again, or URLs are
blocked; there is one entry for FTP at most, or `ftp` is set already, or URLs are blocked. -/
def Router.KeepsUp (s : Router) : Script → Prop
  | .start cfg => s.loaded = true ∨ cfg.url.Active
  | .vrtsrv cfg _ _ => cfg.entries.countP (·.Ftp) ≤ 1 ∨ s.func.ftp = 1 ∨ s.urls ≠ 0
  | .blocking _ => True

instance (s : Router) : DecidablePred s.KeepsUp
  | .start _ => inferInstanceAs (Decidable (_ ∨ _))
  | .vrtsrv _ _ _ => inferInstanceAs (Decidable (_ ∨ _))
  | .blocking _ => inferInstanceAs (Decidable True)

theorem afterCommands_append (loaded : Bool) (cs ds : List Command) :
    afterCommands loaded (cs ++ ds) = afterCommands (afterCommands loaded cs) ds :=
  foldl_append

theorem afterCommands_of_other {cs : List Command}
    (h : ∀ c ∈ cs, c ≠ .rmmod .swTcpip ∧ c ≠ .insmod .swTcpip) (loaded : Bool) :
    afterCommands loaded cs = loaded := by
  induction cs generalizing loaded with
  | nil => rfl
  | cons c cs ih =>
    obtain ⟨hrmmod, hinsmod⟩ := h c mem_cons_self
    have hone : afterCommand loaded c = loaded := by
      cases c with
      | rmmod m =>
        cases m with
        | iptString => rfl
        | swTcpip => exact absurd rfl hrmmod
      | insmod m =>
        cases m with
        | iptString => rfl
        | swTcpip => exact absurd rfl hinsmod
      | _ => rfl
    change afterCommands (afterCommand loaded c) cs = loaded
    rw [hone, ih fun d hd => h d (mem_cons_of_mem c hd)]

theorem afterCommands_flushFastnat (remove load : Prop) [Decidable remove] [Decidable load]
    (f : Func) (loaded : Bool) :
    afterCommands loaded (flushFastnat remove load f).2 =
      if load then true else if remove then false else loaded := by
  simp only [flushFastnat]
  split
  · split
    · rfl
    · rfl
  · split
    · rfl
    · rfl

theorem countP_logFirst (droppacketinfo : String) {r : Rule} (h : r.Final) :
    (logFirst droppacketinfo r).countP (·.Final) = 1 := by
  have hlog : ¬ Rule.Final { r with target := .log dropTag } := by simp [Rule.Final]
  simp only [logFirst]
  split
  · simp [h, hlog]
  · simp [h]

theorem urlRules_count (cfg : BlockingConfig) :
    (urlRules cfg.droppacketinfo cfg.url).1 = urlCount cfg := by
  have hallow := Generator.loop_count_lines allowUrl id (fun r => decide r.Final) (by
    intro k x s
    rw [allowUrl]
    split
    · rfl
    · rfl) 0 cfg.url.strings 0
  have hdeny := Generator.loop_count_lines (denyUrl cfg.droppacketinfo) id
    (fun r => decide r.Final) (by
      intro k x s
      rw [denyUrl]
      split
      · exact congrArg (s + ·) (countP_logFirst _ (.inr rfl)).symm
      · rfl) 0 cfg.url.strings 0
  simp only [id_eq, Nat.zero_add] at hallow hdeny
  rw [urlCount, urlRules]
  split
  · split
    · rw [countP_append, countP_logFirst _ (.inr rfl), ← hallow]
    · exact hdeny
  · rfl

theorem urlCount_ne_zero_iff (cfg : BlockingConfig) : urlCount cfg ≠ 0 ↔ cfg.url.Active := by
  rw [← Nat.pos_iff_ne_zero, ← urlRules_count, urlRules_pos_iff]

theorem vrtsrvEntry_ftpcount (cfg : VrtsrvConfig) (k : ℕ) (e : VrtsrvEntry) (v : VrtsrvVars) :
    (vrtsrvEntry cfg k e v).1.ftpcount = v.ftpcount + if e.Ftp then 1 else 0 := by
  have hpath : ∀ v, (choosePath cfg k e v).ftpcount = v.ftpcount := by
    intro v
    rw [choosePath]
    split
    · rfl
    · rfl
  have htimes : ∀ v, (readTimes cfg v).1.ftpcount = v.ftpcount := by
    intro v
    rw [readTimes]
    split
    · rfl
    · simp only
      split
      · rfl
      · rfl
  have hports : ∀ v, (portStrings v).ftpcount = v.ftpcount := by
    intro v
    rw [portStrings]
    split
    · rfl
    · rfl
  rw [vrtsrvEntry]
  split
  · next he =>
    change (portStrings (readTimes cfg (choosePath cfg k e (readEntry e v))).1).ftpcount = _
    rw [hports, htimes, hpath]
    simp only [readEntry, VrtsrvEntry.Ftp, he, true_and]
    split
    · rfl
    · rfl
  · next he => rw [if_neg fun h => he h.1, Nat.add_zero]

theorem vrtsrvLoop_ftpcount {cfg : VrtsrvConfig} (h : cfg.wanip ≠ "") (v : VrtsrvVars) :
    (vrtsrvLoop cfg v).1.ftpcount = cfg.entries.countP (·.Ftp) := by
  rw [vrtsrvLoop, if_pos h,
    Generator.loop_count (vrtsrvEntry cfg) VrtsrvVars.ftpcount VrtsrvEntry.Ftp
      (vrtsrvEntry_ftpcount cfg), Nat.zero_add]

/-- What `flush_blocking.php` does to the counters and to the module. -/
theorem flushBlocking_spec (cfg : BlockingConfig) (f : Func) (loaded : Bool) :
    let load := urlCount cfg = 0 ∧ f.fastnat = 0 ∧ f.ftp = 0
    let remove := urlCount cfg > 0 ∧ f.fastnat = 1
    (flushBlocking cfg f).1 = { f with
      urlfilter := urlCount cfg
      fastnat := if load then 1 else if remove then 0 else f.fastnat } ∧
    afterCommands loaded (flushBlocking cfg f).2 =
      if load then true else if remove then false else loaded := by
  have hurl : ∀ b, afterCommands b ((urlRules cfg.droppacketinfo cfg.url).2.map
      (Command.append .forBlocking)) = b := by
    refine afterCommands_of_other fun c hc => ?_
    obtain ⟨r, -, rfl⟩ := mem_map.mp hc
    exact ⟨nofun, nofun⟩
  have hmessage : ∀ b, afterCommands b (urlMessage cfg.url) = b := by
    refine afterCommands_of_other fun c hc => ?_
    rw [urlMessage] at hc
    split at hc
    · split at hc
      · cases hc
      · obtain rfl := mem_singleton.mp hc
        exact ⟨nofun, nofun⟩
    · obtain rfl := mem_singleton.mp hc
      exact ⟨nofun, nofun⟩
  have hdomain : ∀ b, afterCommands b
      ((domainRules cfg.droppacketinfo cfg.domain).flatMap
        fun r => [.append .inpBlocking r, .append .forBlocking r]) = b := by
    refine afterCommands_of_other fun c hc => ?_
    obtain ⟨r, -, hr⟩ := mem_flatMap.mp hc
    simp only [mem_cons, not_mem_nil, or_false] at hr
    obtain rfl | rfl := hr
    · exact ⟨nofun, nofun⟩
    · exact ⟨nofun, nofun⟩
  have hlast : ∀ b, afterCommands b [domainMessage cfg.domain] = b := by
    refine afterCommands_of_other fun c hc => ?_
    obtain rfl := mem_singleton.mp hc
    rw [domainMessage]
    split_ifs
    · exact ⟨nofun, nofun⟩
    · exact ⟨nofun, nofun⟩
    · exact ⟨nofun, nofun⟩
  simp only [flushBlocking, urlRules_count cfg]
  refine ⟨rfl, ?_⟩
  rw [afterCommands_append, hlast, afterCommands_append, hdomain, afterCommands_append,
    afterCommands_flushFastnat, afterCommands_append, hmessage, afterCommands_append, hurl]
  rfl

theorem flushVrtsrv_spec {cfg : VrtsrvConfig} (hup : cfg.wanip ≠ "") (v : VrtsrvVars) (f : Func)
    (loaded : Bool) :
    let n := cfg.entries.countP (·.Ftp)
    let ftp := if n = 1 then 1 else if n = 0 then 0 else f.ftp
    let load := ftp = 0 ∧ f.fastnat = 0 ∧ f.urlfilter = 0
    let remove := ftp = 1 ∧ f.fastnat = 1
    (flushVrtsrv cfg v f).1 = { f with
      ftp := ftp
      fastnat := if load then 1 else if remove then 0 else f.fastnat
      vrtsrv := (vrtsrvLoop cfg v).1.count } ∧
    afterCommands loaded (flushVrtsrv cfg v f).2 =
      if load then true else if remove then false else loaded := by
  have htext : ∀ (lines : List String) (b : Bool), afterCommands b (lines.map .text) = b := by
    intro lines
    refine afterCommands_of_other fun c hc => ?_
    obtain ⟨line, -, rfl⟩ := mem_map.mp hc
    exact ⟨nofun, nofun⟩
  simp only [flushVrtsrv, if_pos hup, vrtsrvLoop_ftpcount hup]
  refine ⟨rfl, ?_⟩
  rw [afterCommands_append, afterCommands_flushFastnat, afterCommands_append,
    afterCommands_append, htext]
  rfl

/-- What every script keeps: the counters are those of the last scripts, and no URL is blocked
while the module is counted as loaded. -/
structure Router.Tidy (s : Router) : Prop where
  ftp_le : s.func.ftp ≤ 1
  fastnat_le : s.func.fastnat ≤ 1
  urlfilter_eq : s.func.urlfilter = s.urls
  off_of_urls : s.urls ≠ 0 → s.func.fastnat = 0

variable {s : Router}

/-- Every script keeps the flags tidy. -/
theorem Router.Tidy.step (h : s.Tidy) (script : Script) : (s.step script).Tidy := by
  obtain ⟨hftp, hfastnat, hurlfilter, hoff⟩ := h
  cases script with
  | start cfg =>
    have hfunc := (flushBlocking_spec cfg ⟨0, 1, 0, 0⟩ s.loaded).1
    simp only [Router.step, rgStart, hfunc]
    refine ⟨Nat.zero_le 1, ?_, rfl, ?_⟩
    · grind
    · grind
  | vrtsrv cfg v hup =>
    have hfunc := (flushVrtsrv_spec hup v s.func s.loaded).1
    simp only [Router.step, hfunc]
    refine ⟨?_, ?_, hurlfilter, ?_⟩
    · grind
    · grind
    · grind
  | blocking cfg =>
    have hfunc := (flushBlocking_spec cfg s.func s.loaded).1
    simp only [Router.step, hfunc]
    refine ⟨hftp, ?_, rfl, ?_⟩
    · grind
    · grind

theorem no_ftp_iff (entries : List VrtsrvEntry) :
    (∀ e ∈ entries, ¬ e.Ftp) ↔ entries.countP (·.Ftp) = 0 := by
  simp [countP_eq_zero]

/-- A script keeps the module in step just under the condition. -/
theorem Router.follows_step_iff (ht : s.Tidy) (h : s.Follows) (script : Script) :
    (s.step script).Follows ↔ s.KeepsUp script := by
  obtain ⟨hftp, hfastnat, hurlfilter, hoff⟩ := ht
  obtain ⟨hloaded, -⟩ := h
  cases script with
  | start cfg =>
    obtain ⟨hfunc, hmodule⟩ := flushBlocking_spec cfg ⟨0, 1, 0, 0⟩ s.loaded
    simp only [Router.Follows, Router.step, rgStart, hfunc, hmodule, Router.KeepsUp,
      ← urlCount_ne_zero_iff]
    grind
  | vrtsrv cfg v hup =>
    obtain ⟨hfunc, hmodule⟩ := flushVrtsrv_spec hup v s.func s.loaded
    simp only [Router.Follows, Router.step, hfunc, hmodule, Router.KeepsUp, Option.some.injEq,
      forall_eq', no_ftp_iff]
    grind
  | blocking cfg =>
    obtain ⟨hfunc, hmodule⟩ := flushBlocking_spec cfg s.func s.loaded
    simp only [Router.Follows, Router.step, hfunc, hmodule, Router.KeepsUp]
    grind

/-- A router after its first start, with the module loaded at boot. -/
def Router.booted (f : Func) (cfg : BlockingConfig) : Router :=
  (Router.mk f true 0 none).step (.start cfg)

theorem Router.booted_tidy (f : Func) (cfg : BlockingConfig) :
    (Router.booted f cfg).Tidy ∧ (Router.booted f cfg).Follows := by
  obtain ⟨hfunc, hmodule⟩ := flushBlocking_spec cfg ⟨0, 1, 0, 0⟩ true
  simp only [Router.booted, Router.step, rgStart, hfunc, hmodule, Router.Follows]
  refine ⟨⟨Nat.zero_le 1, ?_, rfl, ?_⟩, ?_, nofun⟩
  · grind
  · grind
  · grind

theorem Router.throughout_iff (ht : s.Tidy) (hs : s.Follows) (scripts : List Script) :
    Machine.Throughout Router.step Router.Follows s scripts ↔
      Machine.Along Router.step Router.KeepsUp s scripts := by
  refine Machine.throughout_iff_of_invariant (fun s script => ?_) (fun s script ht hs => ?_) ht hs
  · exact fun ht => ht.step script
  · exact Router.follows_step_iff ht hs script

/-- A router that was started with the module loaded follows the configuration throughout exactly
when its scripts keep up. -/
theorem router_follows_iff (f : Func) (cfg : BlockingConfig) (scripts : List Script) :
    Machine.Throughout Router.step Router.Follows (Router.booted f cfg) scripts ↔
      Machine.Along Router.step Router.KeepsUp (Router.booted f cfg) scripts :=
  Router.throughout_iff (Router.booted_tidy f cfg).1 (Router.booted_tidy f cfg).2 scripts

/-- No script loses track of a module that is loaded. -/
theorem Router.Tidy.fastnat_step (ht : s.Tidy) (h : s.loaded = true → s.func.fastnat = 1)
    (script : Script) :
    (s.step script).loaded = true → (s.step script).func.fastnat = 1 := by
  obtain ⟨hftp, hfastnat, hurlfilter, hoff⟩ := ht
  cases script with
  | start cfg =>
    obtain ⟨hfunc, hmodule⟩ := flushBlocking_spec cfg ⟨0, 1, 0, 0⟩ s.loaded
    simp only [Router.step, rgStart, hfunc, hmodule]
    grind
  | vrtsrv cfg v hup =>
    obtain ⟨hfunc, hmodule⟩ := flushVrtsrv_spec hup v s.func s.loaded
    simp only [Router.step, hfunc, hmodule]
    grind
  | blocking cfg =>
    obtain ⟨hfunc, hmodule⟩ := flushBlocking_spec cfg s.func s.loaded
    simp only [Router.step, hfunc, hmodule]
    grind

/-- Whatever scripts run after the first start, the module is not loaded while URLs are blocked. -/
theorem router_notLoaded (f : Func) (cfg : BlockingConfig) (scripts : List Script)
    (hurls : (Machine.run Router.step (Router.booted f cfg) scripts).urls ≠ 0) :
    (Machine.run Router.step (Router.booted f cfg) scripts).loaded = false := by
  obtain ⟨ht, hfollows⟩ := Router.booted_tidy f cfg
  obtain ⟨ht, hloaded⟩ := Machine.run_keeps
    (I := fun s : Router => s.Tidy ∧ (s.loaded = true → s.func.fastnat = 1))
    (fun s script h => ⟨h.1.step script, h.1.fastnat_step h.2 script⟩)
    ⟨ht, hfollows.1.mpr⟩ scripts
  have hoff := ht.off_of_urls hurls
  grind

def openConfig : BlockingConfig := ⟨"0", ⟨"0", "0", []⟩, ⟨"0", [], []⟩⟩

/-- The module is not loaded with a filter for URLs. -/
theorem router_notLoaded_url :
    (Machine.run Router.step (Router.booted ⟨0, 0, 0, 0⟩ openConfig)
      [.blocking ⟨"0", ⟨"1", "1", []⟩, ⟨"0", [], []⟩⟩]).loaded = false :=
  router_notLoaded _ _ _ (by decide)

def ftpEntry (host : String) : VrtsrvEntry :=
  ⟨"1", "1", host, "21", "21", "", "", "0", "", ⟨"", "", "", ""⟩⟩

/-- Two entries for FTP, and one entry for FTP before a second start: in both runs the module
is in the wrong state in the end. -/
theorem router_not_follows :
    ¬ Machine.Throughout Router.step Router.Follows (Router.booted ⟨0, 0, 0, 0⟩ openConfig)
        [.vrtsrv ⟨"10.0.0.1", [ftpEntry "192.168.0.2", ftpEntry "192.168.0.3"], []⟩ .unset
          (by decide)] ∧
      ¬ Machine.Throughout Router.step Router.Follows (Router.booted ⟨0, 0, 0, 0⟩ openConfig)
        [.vrtsrv ⟨"10.0.0.1", [ftpEntry "192.168.0.2"], []⟩ .unset (by decide),
          .start openConfig] := by
  obtain ⟨ht, hs⟩ := Router.booted_tidy ⟨0, 0, 0, 0⟩ openConfig
  rw [Router.throughout_iff ht hs, Router.throughout_iff ht hs]
  decide +kernel

end Wbr1310.Rg
