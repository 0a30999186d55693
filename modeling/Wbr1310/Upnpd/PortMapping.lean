import Wbr1310.Lib.Machine
import Wbr1310.Lib.Numbered

/-!
# Port mappings of the UPnP device

The actions `AddPortMapping` and `DeletePortMapping` of the service WANIPConnection keep a
table of entries in the runtime database and write a shell script that changes the chain
PRE_UPNP of the nat table. The script `rg_start` of the router sets up all chains again.

How `iptables` reads the options of a rule is a parameter: two texts are the same rule when it
reads them so.
-/

namespace Wbr1310.Upnpd

open Lib

/-- The two protocols of a mapping. -/
inductive Protocol where
  | tcp
  | udp
  deriving DecidableEq, Repr

/-- The protocol that an action names: TCP, or anything else. -/
def Protocol.ofName (name : String) : Protocol := if name = "TCP" then .tcp else .udp

def Protocol.option : Protocol → String
  | .tcp => " -p tcp"
  | .udp => " -p udp"

/-- An entry of the table. The address of the WAN side is empty where none was recorded. -/
structure Entry where
  enable : String
  remoteip : String
  ip : String
  port1 : String
  port2 : String
  protocol : Protocol
  description : String
  wanip : String
  deriving DecidableEq, Repr

/-- The arguments of `AddPortMapping`. -/
structure AddPortMapping where
  newRemoteHost : String
  newExternalPort : String
  newProtocol : String
  newInternalPort : String
  newInternalClient : String
  newEnabled : String
  newPortMappingDescription : String
  deriving DecidableEq, Repr

/-- The arguments of `DeletePortMapping`. -/
structure DeletePortMapping where
  newRemoteHost : String
  newExternalPort : String
  newProtocol : String
  deriving DecidableEq, Repr

/-- A line of a generated script, as far as it concerns the chain. -/
inductive Command where
  | echo (text : String)
  | append (rule : String)
  | delete (rule : String)
  | flush
  | deleteChains
  | newChain
  deriving DecidableEq, Repr

def sourceip (remoteip : String) : String := if remoteip ≠ "" then " -s " ++ remoteip else ""

def dnat (remoteip : String) (proto : Protocol) (wanip extport intclnt intport : String) : String :=
  sourceip remoteip ++ proto.option ++ " -d " ++ wanip ++ " --dport " ++ extport ++
    " -j DNAT --to " ++ intclnt ++ ":" ++ intport

/-- What an action leaves: the table, the script and what it answers. -/
structure Result where
  entries : List Entry
  shell : List Command
  answer : String

/-- The entry has the remote host, the external port and the protocol of an action. -/
def Entry.fits (remoteHost externalPort protocol : String) (e : Entry) : Bool :=
  decide (remoteHost = e.remoteip ∧ externalPort = e.port2 ∧ Protocol.ofName protocol = e.protocol)

/-- The entry that is written for an action, without an address of the WAN side. -/
def AddPortMapping.entry (r : AddPortMapping) : Entry where
  enable := r.newEnabled
  remoteip := r.newRemoteHost
  ip := r.newInternalClient
  port1 := r.newInternalPort
  port2 := r.newExternalPort
  protocol := Protocol.ofName r.newProtocol
  description := r.newPortMappingDescription
  wanip := ""

/-- The script `__wanipconn_addportmapping_action.php`. -/
def addPortMapping (wanip : String) (entries : List Entry) (r : AddPortMapping) : Result :=
  if r.newExternalPort ≠ "" ∧ r.newProtocol ≠ "" ∧ r.newInternalPort ≠ "" ∧
      r.newInternalClient ≠ "" then
    match Numbered.countUnless (Entry.fits r.newRemoteHost r.newExternalPort r.newProtocol) 0
        entries with
    | none => ⟨entries, [], "ErrCode:402 "⟩
    | some count =>
      if r.newEnabled = "1" ∧ wanip ≠ "" then
        let rule := dnat r.newRemoteHost (Protocol.ofName r.newProtocol) wanip r.newExternalPort
          r.newInternalClient r.newInternalPort
        ⟨Numbered.put entries (count + 1) { r.entry with wanip },
          [.echo ("iptables -t nat -A PRE_UPNP" ++ rule), .append rule], ""⟩
      else ⟨Numbered.put entries (count + 1) r.entry, [], ""⟩
  else ⟨entries, [], "ErrCode:402 "⟩

def removal (e : Entry) : List Command :=
  if e.enable = "1" ∧ e.wanip ≠ "" then
    let rule := dnat e.remoteip e.protocol e.wanip e.port2 e.ip e.port1
    [.echo ("iptables -t nat -D PRE_UPNP" ++ rule), .delete rule]
  else []

/-- The script `__wanipconn_delportmapping_action.php`. -/
def deletePortMapping (entries : List Entry) (r : DeletePortMapping) : Result :=
  let target := Numbered.last (Entry.fits r.newRemoteHost r.newExternalPort r.newProtocol) entries
  if target ≠ 0 then
    ⟨Numbered.del entries target, (entries[target - 1]?.map removal).getD [], ""⟩
  else ⟨entries, [], ""⟩

/-- The lines of `rg_start` about the nat table: all chains are flushed, the chains of the
scripts are deleted, and PRE_UPNP is made again. -/
def rgStart : List Command := [.flush, .deleteChains, .newChain]

section Router

variable {ρ : Type*} [DecidableEq ρ]

/-- The configuration and the chain of the kernel. -/
structure Router (ρ : Type*) where
  routerEnable : Bool
  wanip : String
  entries : List Entry
  chain : Option (List ρ)

/-- What a line does to the chain. A rule is deleted at its first place. -/
def Command.exec (read : String → ρ) : Command → Option (List ρ) → Option (List ρ)
  | .echo _, chain => chain
  | .append rule, chain => chain.map (· ++ [read rule])
  | .delete rule, chain => chain.map (·.erase (read rule))
  | .flush, chain => chain.map fun _ => []
  | .deleteChains, _ => none
  | .newChain, chain => some (chain.getD [])

def execute (read : String → ρ) (shell : List Command) (chain : Option (List ρ)) :
    Option (List ρ) :=
  shell.foldl (fun chain command => command.exec read chain) chain

/-- What changes the mappings or the chain. -/
inductive Event where
  | add (r : AddPortMapping)
  | delete (r : DeletePortMapping)
  | restart
  | wanChange (ip : String)
  deriving DecidableEq, Repr

def Router.apply (read : String → ρ) (s : Router ρ) (r : Result) : Router ρ :=
  { s with entries := r.entries, chain := execute read r.shell s.chain }

/-- What the router does. In bridge mode the actions answer "ErrCode:501 " and `rg_start` ends
at once. -/
def step (read : String → ρ) (s : Router ρ) : Event → Router ρ
  | .add r => if s.routerEnable then s.apply read (addPortMapping s.wanip s.entries r) else s
  | .delete r => if s.routerEnable then s.apply read (deletePortMapping s.entries r) else s
  | .restart => if s.routerEnable then { s with chain := execute read rgStart s.chain } else s
  | .wanChange ip => { s with wanip := ip }

def start (routerEnable : Bool) (wanip : String) : Router ρ where
  routerEnable := routerEnable
  wanip := wanip
  entries := []
  chain := some []

end Router

end Wbr1310.Upnpd
