import Wbr1310.IptString.Matcher
import Wbr1310.Rg.Vrtsrv

/-!
# The rules for URLs and domains

`flush_blocking.php` with the counters of `/runtime/func` that it shares with `flush_vrtsrv.php`.
Strings of the configuration are single words of the shell.
-/

namespace Wbr1310.Rg

open Lib IptString

/-- The two chains of the blocking rules. -/
inductive Chain where
  | inpBlocking
  | forBlocking
  deriving DecidableEq, Repr

/-- The options of `-m string`. -/
inductive StringOption where
  | url (s : List Byte)
  | httpReq
  | dns (s : List Byte)
  deriving DecidableEq, Repr

/-- What a rule does with a packet. -/
inductive Target where
  | accept
  | drop
  | log (tag : String)
  deriving DecidableEq, Repr

/-- A rule; `web` is `-p tcp --dport 80`. -/
structure Rule where
  web : Bool
  string : Option StringOption
  target : Target
  deriving DecidableEq, Repr

/-- The kernel modules that the scripts load. -/
inductive Module where
  | iptString
  | swTcpip
  deriving DecidableEq, Repr

/-- A line of a script. -/
inductive Command where
  | flush (chain : Chain)
  | append (chain : Chain) (rule : Rule)
  | rmmod (m : Module)
  | insmod (m : Module)
  | logger (message : String)
  | text (line : String)
  deriving DecidableEq, Repr

/-- `/security/urlblocking`. -/
structure UrlBlocking where
  enable : String
  action : String
  strings : List (List Byte)

/-- URLs are blocked: what is not allowed is denied, or there is something to deny. -/
def UrlBlocking.Active (u : UrlBlocking) : Prop :=
  u.enable = "1" ∧ (u.action = "1" ∨ ∃ s ∈ u.strings, s ≠ [])

instance : DecidablePred UrlBlocking.Active := fun _ => inferInstanceAs (Decidable (_ ∧ (_ ∨ _)))

/-- `/security/domainblocking`. -/
structure DomainBlocking where
  enable : String
  deny : List (List Byte)
  allow : List (List Byte)

/-- What the script reads; the first field is `/security/log/droppacketinfo`. -/
structure BlockingConfig where
  droppacketinfo : String
  url : UrlBlocking
  domain : DomainBlocking

/-- The counters below `/runtime/func` that the scripts share. -/
structure Func where
  ftp : ℕ
  fastnat : ℕ
  urlfilter : ℕ
  vrtsrv : ℕ
  deriving DecidableEq, Repr

def dropTag : String := "DRP:007:"

/-- A rule in front of another one that logs what it matches. -/
def logFirst (droppacketinfo : String) (r : Rule) : List Rule :=
  (if droppacketinfo = "1" then [{ r with target := .log dropTag }] else []) ++ [r]

/-- The rule of a string in the list of allowed URLs, with `$urlcount`. -/
def allowUrl (_ : ℕ) (s : List Byte) (urlcount : ℕ) : ℕ × List Rule :=
  if s ≠ [] then (urlcount + 1, [⟨false, some (.url s), .accept⟩]) else (urlcount, [])

/-- The rules of a string in the list of denied URLs, with `$urlcount`. -/
def denyUrl (droppacketinfo : String) (_ : ℕ) (s : List Byte) (urlcount : ℕ) : ℕ × List Rule :=
  if s ≠ [] then (urlcount + 1, logFirst droppacketinfo ⟨false, some (.url s), .drop⟩)
  else (urlcount, [])

/-- The rules for URLs and `$urlcount`. -/
def urlRules (droppacketinfo : String) (u : UrlBlocking) : ℕ × List Rule :=
  if u.enable = "1" then
    if u.action = "1" then
      let allowed := Generator.loop allowUrl 0 u.strings 0
      (allowed.1 + 1,
        allowed.2.flatten ++ logFirst droppacketinfo ⟨true, some .httpReq, .drop⟩)
    else
      let denied := Generator.loop (denyUrl droppacketinfo) 0 u.strings 0
      (denied.1, denied.2.flatten)
  else (0, [])

theorem urlRules_pos_iff (droppacketinfo : String) (u : UrlBlocking) :
    0 < (urlRules droppacketinfo u).1 ↔ u.Active := by
  have hdenied : ∀ k xs n,
      (Generator.loop (denyUrl droppacketinfo) k xs n).1 = n + xs.countP (· ≠ []) := by
    refine Generator.loop_count (denyUrl droppacketinfo) id (· ≠ []) fun k x n => ?_
    rw [denyUrl]
    split
    · rfl
    · rfl
  rw [urlRules, UrlBlocking.Active]
  split
  · next henable =>
    split
    · next haction => simp [henable, haction]
    · next haction => simp [henable, haction, hdenied, List.countP_pos_iff]
  · next henable => simp [henable]

def urlMessage (u : UrlBlocking) : List Command :=
  if u.enable = "1" then if u.action = "1" then [] else [.logger "SYS:011"] else [.logger "SYS:010"]

def domainRules (droppacketinfo : String) (d : DomainBlocking) : List Rule :=
  if d.enable = "1" then
    d.deny.flatMap fun s => logFirst droppacketinfo ⟨false, some (.dns s), .drop⟩
  else if d.enable = "2" then
    d.allow.map (fun s => ⟨false, some (.dns s), .accept⟩) ++
      logFirst droppacketinfo ⟨false, none, .drop⟩
  else []

def domainMessage (d : DomainBlocking) : Command :=
  if d.enable = "1" then .logger " SYS:015 "
  else if d.enable = "2" then .logger " SYS:014 "
  else .logger "SYS:013"

/-- The module is removed or loaded by the counters; both tests read them before they change. -/
def flushFastnat (remove load : Prop) [Decidable remove] [Decidable load] (f : Func) :
    Func × List Command :=
  ({ f with fastnat := if load then 1 else if remove then 0 else f.fastnat },
    (if remove then [.rmmod .swTcpip] else []) ++ (if load then [.insmod .swTcpip] else []))

/-- `flush_blocking.php`. -/
def flushBlocking (cfg : BlockingConfig) (f : Func) : Func × List Command :=
  let url := urlRules cfg.droppacketinfo cfg.url
  let f := { f with urlfilter := url.1 }
  let fastnat := flushFastnat (f.urlfilter > 0 ∧ f.fastnat = 1)
    (f.urlfilter = 0 ∧ f.fastnat = 0 ∧ f.ftp = 0) f
  (fastnat.1,
    [.flush .inpBlocking, .flush .forBlocking, .rmmod .iptString, .insmod .iptString] ++
      url.2.map (.append .forBlocking) ++ urlMessage cfg.url ++ fastnat.2 ++
      (domainRules cfg.droppacketinfo cfg.domain).flatMap
        (fun r => [.append .inpBlocking r, .append .forBlocking r]) ++
      [domainMessage cfg.domain])

/-- The first lines of `flush_vrtsrv.php`. -/
def vrtsrvHead : List Command :=
  [.text "iptables -t nat -F PRE_VRTSRV\n", .text "iptables -t nat -F PST_VRTSRV\n",
    .text "iptables -t mangle -F PRE_MARK \n"]

/-- `flush_vrtsrv.php`, with variables that earlier scripts have left. -/
def flushVrtsrv (cfg : VrtsrvConfig) (v : VrtsrvVars) (f : Func) : Func × List Command :=
  let written := vrtsrvLoop cfg v
  if cfg.wanip ≠ "" then
    let f := { f with
      ftp := if written.1.ftpcount = 1 then 1 else if written.1.ftpcount = 0 then 0 else f.ftp }
    let fastnat := flushFastnat (f.ftp = 1 ∧ f.fastnat = 1)
      (f.ftp = 0 ∧ f.fastnat = 0 ∧ f.urlfilter = 0) f
    ({ fastnat.1 with vrtsrv := written.1.count },
      vrtsrvHead ++ written.2.flatten.map .text ++
        [.text ("iptables -t nat -A PST_VRTSRV -j SNAT --to-source " ++ cfg.wanip ++ "\n")] ++
        fastnat.2)
  else (f, vrtsrvHead)

/-- The part of `rg_start.php` that concerns the counters: they are reset, and `flush_blocking.php`
is included. -/
def rgStart (cfg : BlockingConfig) (_ : Func) : Func × List Command :=
  flushBlocking cfg ⟨0, 1, 0, 0⟩

end Wbr1310.Rg
