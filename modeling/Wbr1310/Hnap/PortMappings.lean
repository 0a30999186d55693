import Wbr1310.Lib.Machine
import Wbr1310.Lib.Numbered

/-!
# Port mappings over HNAP

The requests `AddPortMapping`, `DeletePortMapping` and `GetPortMappings` of the network
administration protocol work on the table of virtual servers, `/nat/vrtsrv/entry`, which the
pages of the router edit too. All fields are texts.
-/

namespace Wbr1310.Hnap

open Lib

/-- A node below `/nat/vrtsrv/entry`. -/
structure Entry where
  enable : String
  description : String
  privateip : String
  protocol : String
  privatePort : String
  publicPort : String
  scheduleEnable : String
  deriving DecidableEq, Repr

/-- The fields of an `AddPortMapping` request. -/
structure AddPortMapping where
  portMappingDescription : String
  internalClient : String
  portMappingProtocol : String
  externalPort : String
  internalPort : String
  deriving DecidableEq, Repr

/-- The fields of a `DeletePortMapping` request. -/
structure DeletePortMapping where
  externalPort : String
  portMappingProtocol : String
  deriving DecidableEq, Repr

/-- The result in the answer. -/
inductive Rlt where
  | ok
  | error
  | reboot
  deriving DecidableEq, Repr

/-- What a request leaves: the table, the script that is run, and the result. -/
structure Result where
  entries : List Entry
  shell : List String
  rlt : Rlt

section

variable (configured : Option ℕ) (entries : List Entry) (r : AddPortMapping)

/-- The number of entries that the table may have, 32 where none is configured. -/
def maxRules : ℕ := configured.getD 32

/-- The name of a protocol of the table, as the two requests that change it compare it. -/
def prot (protocol : String) : String :=
  if protocol = "1" then "TCP" else if protocol = "2" then "UDP" else protocol

/-- The protocol that is written for the one of a request. -/
def storedProtocol (protocol : String) : String :=
  if protocol = "tcp" ∨ protocol = "TCP" then "1"
  else if protocol = "udp" ∨ protocol = "UDP" then "2"
  else "0"

def privateIP (internalClient : String) : String :=
  if internalClient = "" then "0.0.0.0" else internalClient

def AddPortMapping.entry : Entry where
  enable := "1"
  description := r.portMappingDescription
  privateip := privateIP r.internalClient
  protocol := storedProtocol r.portMappingProtocol
  privatePort := r.internalPort
  publicPort := r.externalPort
  scheduleEnable := "0"

def AddPortMapping.same (e : Entry) : Bool :=
  decide (e.privateip = r.internalClient ∧ e.publicPort = r.externalPort ∧
    prot e.protocol = r.portMappingProtocol)

/-- The loop over the table: whether the mapping exists, the first entry without a description,
and the number of entries. -/
def addLoop (r : AddPortMapping) : Bool → ℕ → ℕ → List Entry → Bool × ℕ × ℕ
  | exist, i, j, [] => (exist, i, j)
  | exist, i, j, e :: entries =>
    addLoop r (r.same e || exist) (if i = 0 ∧ e.description = "" then j + 1 else i) (j + 1)
      entries

def shellHead : List String := ["#!/bin/sh\n", "echo [$0] > /dev/console\n"]

def shellCommit : List String :=
  ["/etc/scripts/misc/profile.sh put > /dev/console\n",
    "/etc/templates/rg.sh vrtsrv > /dev/console\n",
    "rgdb -i -s /runtime/hnap/dev_status '' > /dev/console"]

def shellRefused (maxRules i : ℕ) (exist : Bool) : String :=
  "echo \"max_rules=" ++ toString maxRules ++ ", i=" ++ toString i ++ "exist=" ++
    (if exist then "1" else "0") ++ "\" > /dev/console\n"

/-- The script `AddPortMapping.php`. -/
def addPortMapping : Result :=
  let (exist, found, j) := addLoop r false 0 0 entries
  let i := if found = 0 then j + 1 else found
  if maxRules configured < i ∨ exist then
    ⟨entries, shellHead ++ [shellRefused (maxRules configured) i exist], .error⟩
  else ⟨Numbered.put entries i r.entry, shellHead ++ shellCommit, .reboot⟩

/-- The entry is one for the port and the protocol of the request. -/
def DeletePortMapping.matches (r : DeletePortMapping) (e : Entry) : Bool :=
  decide (e.publicPort = r.externalPort ∧ prot e.protocol = r.portMappingProtocol)

/-- The script `DeletePortMapping.php`. -/
def deletePortMapping (r : DeletePortMapping) : Result :=
  let i := Numbered.last r.matches entries
  if i = 0 then ⟨entries, [], .error⟩
  else ⟨Numbered.del entries i, shellHead ++ shellCommit, .reboot⟩

/-- A mapping of the answer to `GetPortMappings`. -/
structure PortMapping where
  portMappingDescription : String
  internalClient : String
  portMappingProtocol : String
  externalPort : String
  internalPort : String
  deriving DecidableEq, Repr

def ip (privateip : String) : String := if privateip = "0.0.0.0" then "" else privateip

def protocols (protocol : String) : List String :=
  if protocol = "1" then ["TCP"] else if protocol = "2" then ["UDP"] else ["TCP", "UDP"]

def Entry.mapping (e : Entry) (protocol : String) : PortMapping where
  portMappingDescription := e.description
  internalClient := ip e.privateip
  portMappingProtocol := protocol
  externalPort := e.publicPort
  internalPort := e.privatePort

/-- The mappings of an entry: none if it is not enabled, and two where the protocol is not one
of the two. -/
def Entry.mappings (e : Entry) : List PortMapping :=
  if e.enable = "1" then (protocols e.protocol).map e.mapping else []

/-- The script `GetPortMappings.php`. -/
def getPortMappings : List PortMapping := entries.flatMap Entry.mappings

/-- A request that changes the entries. -/
inductive Request where
  | add (r : AddPortMapping)
  | delete (r : DeletePortMapping)
  deriving DecidableEq, Repr

def step : Request → List Entry
  | .add r => (addPortMapping configured entries r).entries
  | .delete r => (deletePortMapping entries r).entries

end

end Wbr1310.Hnap
