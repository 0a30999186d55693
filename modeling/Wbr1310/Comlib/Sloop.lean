import Wbr1310.Comlib.Dlist
import Wbr1310.Lib.Program

/-!
# The select loop of `comlib/sloop.c`

Sockets, timers and signals are entries of three static pools. An entry is
linked into its free list or into an active list, and `sloop_run` walks the
active lists and calls the handlers of the entries.

## Implementation notes

The handlers, the results of `select` and the clock are the environment. A
handler is the list of calls it makes into the module and the value it returns;
the environment chooses it anew for each call. A walk that leaves its list and
takes a list head for an entry has no meaning in C, so the program fails there.
Loops over lists take fuel and fail without it. `log` is not in the C code: it
records what was called and how the lists and the timers were at that moment.

`timersub` and the highest descriptor only feed `select`, whose result is free.
The entries' `flags` are only read by `dassert`, which is compiled out.
-/

namespace Wbr1310.Comlib.Sloop

open Lib Links

/-- `MAX_SLOOP_SOCKET`. -/
abbrev maxSloopSocket : Nat := 128

/-- `MAX_SLOOP_TIMEOUT`. -/
abbrev maxSloopTimeout : Nat := 128

/-- `MAX_SLOOP_SIGNAL`. -/
abbrev maxSloopSignal : Nat := 16

/-- The list heads of `struct sloop_data`. -/
inductive ListId
  | readers
  | writers
  | signals
  | timeout
  | freeSockets
  | freeTimeout
  | freeSignals
  deriving DecidableEq

/-- What a list pointer can point to: a list head or an entry of one of the pools. -/
inductive Node
  | head (l : ListId)
  | sock (i : Fin maxSloopSocket)
  | timeout (i : Fin maxSloopTimeout)
  | signal (i : Fin maxSloopSignal)
  deriving DecidableEq

/-- The two lists of sockets. -/
inductive Direction
  | read
  | write
  deriving DecidableEq

def Direction.list : Direction → ListId
  | .read => .readers
  | .write => .writers

/-- `struct timeval`, with 32 bit members. -/
structure Timeval where
  sec : Int
  usec : Int
  deriving DecidableEq

/-- The value of a 32 bit signed integer after a computation. -/
def wrap (x : Int) : Int := x.bmod (2 ^ 32)

/-- `timercmp(a, b, <)`. -/
def Timeval.lt (a b : Timeval) : Bool :=
  if a.sec = b.sec then decide (a.usec < b.usec) else decide (a.sec < b.sec)

/-- `timercmp(a, b, >=)`. -/
def Timeval.ge (a b : Timeval) : Bool :=
  if a.sec = b.sec then decide (b.usec ≤ a.usec) else decide (b.sec ≤ a.sec)

/-- A handler function with the parameter it was registered with. -/
structure Callback where
  handler : Nat
  param : Nat
  deriving DecidableEq

/-- `struct sloop_socket` without its list links. -/
structure SloopSocket where
  sock : Int
  callback : Callback

/-- `struct sloop_timeout` without its list links. -/
structure SloopTimeout where
  time : Timeval
  callback : Callback

/-- `struct sloop_signal` without its list links. -/
structure SloopSignal where
  sig : Int
  callback : Callback

/-- Who calls into the module: the program outside the loop, or a handler of an entry. -/
inductive Caller
  | main
  | signal (i : Fin maxSloopSignal)
  | timeout (i : Fin maxSloopTimeout)
  | socket (d : Direction) (i : Fin maxSloopSocket)
  deriving DecidableEq

/-- What the log records. -/
inductive Event
  /-- `sloop_register_timeout` is entered. -/
  | registering (caller : Caller)
  /-- `sloop_register_timeout` returned the entry. -/
  | registered (i : Fin maxSloopTimeout)
  /-- `sloop_cancel_timeout` was called with the entry. -/
  | cancelled (i : Fin maxSloopTimeout)
  /-- `sloop_cancel_timeout` was called with the null handle. -/
  | cancelledAll
  /-- The handler of the timer is called, at the given uptime. -/
  | fired (i : Fin maxSloopTimeout) (now : Int)
  /-- The entry of the timer was returned to the pool after its handler. -/
  | released (i : Fin maxSloopTimeout)
  /-- `sloop_run` begins to check the readers or the writers. -/
  | pass (d : Direction)
  /-- The handler of the socket is called. -/
  | called (d : Direction) (i : Fin maxSloopSocket)
  /-- The handler of the signal is called. -/
  | signalled (i : Fin maxSloopSignal)
  /-- Any other call into the module returned. -/
  | other
  deriving DecidableEq

/-- An event, how the lists were linked when it happened and what the timers held. -/
structure Moment where
  event : Event
  links : Links Node
  timeouts : Fin maxSloopTimeout → SloopTimeout

/-- `struct sloop_data` with the pools, and the record of the run. -/
structure SloopData where
  links : Links Node
  terminate : Bool
  sockets : Fin maxSloopSocket → SloopSocket
  timeouts : Fin maxSloopTimeout → SloopTimeout
  signals : Fin maxSloopSignal → SloopSignal
  /-- Whether `sloop_signals_handler` is the disposition of the signal. -/
  disposition : Int → Bool
  /-- How many handlers were called. -/
  calls : Nat
  /-- How often the clock was read. -/
  ticks : Nat
  log : List Moment

/-- The static data before `sloop_init`: all zero. -/
def SloopData.bss : SloopData where
  links := { next := fun _ => none, prev := fun _ => none }
  terminate := false
  sockets := fun _ => ⟨0, ⟨0, 0⟩⟩
  timeouts := fun _ => ⟨⟨0, 0⟩, ⟨0, 0⟩⟩
  signals := fun _ => ⟨0, ⟨0, 0⟩⟩
  disposition := fun _ => false
  calls := 0
  ticks := 0
  log := []

/-- A call that a handler can make. A handle is an entry or null. -/
inductive Action
  | register (d : Direction) (sock : Int) (callback : Callback)
  | cancel (d : Direction) (handle : Option (Fin maxSloopSocket))
  | registerSignal (sig : Int) (callback : Callback)
  | cancelSignal (handle : Option (Fin maxSloopSignal))
  | registerTimeout (secs usecs : UInt32) (callback : Callback)
  | cancelTimeout (handle : Option (Fin maxSloopTimeout))
  | terminate
  deriving DecidableEq

/-- What a handler does and returns. -/
structure Behaviour where
  actions : List Action
  result : Int

/-- One return of `select`: the result, whether `errno` is `EINTR`, the ready
descriptors, and the signal read from the pipe, if the read succeeds. -/
structure Selected where
  res : Int
  eintr : Bool
  readable : Int → Bool
  writable : Int → Bool
  sigRead : Option Int

/-- All that the loop gets from outside, by the number of calls made before. -/
structure Env where
  fuel : Nat
  signalPipe : Int
  /-- What the handler does that is called after the given number of handler calls. -/
  handler : Nat → Caller → Callback → Behaviour
  uptime : Nat → Int
  select : Nat → Selected

abbrev Run (α : Type) := Program SloopData α

open Program

def onLinks (f : Links Node → Option (Links Node)) : Run Unit :=
  update fun s => (f s.links).map fun L => { s with links := L }

def note (e : Event) : Run Unit :=
  modify fun s => { s with log := ⟨e, s.links, s.timeouts⟩ :: s.log }

section

variable (env : Env) (entryTimeout : Option (Fin maxSloopTimeout)) (sel : Selected)
  (rfds wfds : Int → Bool)

def getUptime : Run Int := do
  let s ← get
  modify fun s => { s with ticks := s.ticks + 1 }
  pure (wrap (env.uptime s.ticks))

/-- The common part of `get_socket`, `get_timeout` and `get_signal`: unlink the first free entry. -/
def popFree (l : ListId) : Run (Option Node) := do
  let s ← get
  if dlistEmpty s.links (.head l) then pure none
  else do
    let entry ← ofOption (s.links.next (.head l))
    onLinks fun L => dlistDel L entry
    pure (some entry)

def getSocket : Run (Option (Fin maxSloopSocket)) := do
  let entry ← popFree .freeSockets
  match entry with
  | none => pure none
  | some (.sock i) => pure (some i)
  | some _ => fail

def getTimeout : Run (Option (Fin maxSloopTimeout)) := do
  let entry ← popFree .freeTimeout
  match entry with
  | none => pure none
  | some (.timeout i) => pure (some i)
  | some _ => fail

def getSignal : Run (Option (Fin maxSloopSignal)) := do
  let entry ← popFree .freeSignals
  match entry with
  | none => pure none
  | some (.signal i) => pure (some i)
  | some _ => fail

def freeSocket (i : Fin maxSloopSocket) : Run Unit :=
  onLinks fun L => dlistAdd L (.sock i) (.head .freeSockets)

def freeTimeout (i : Fin maxSloopTimeout) : Run Unit :=
  onLinks fun L => dlistAdd L (.timeout i) (.head .freeTimeout)

def freeSignal (i : Fin maxSloopSignal) : Run Unit :=
  onLinks fun L => dlistAdd L (.signal i) (.head .freeSignals)

def initListPools : Run Unit := do
  forEach (fun i => onLinks fun L => dlistAdd L (.sock i) (.head .freeSockets))
    (List.finRange maxSloopSocket)
  forEach (fun i => onLinks fun L => dlistAdd L (.timeout i) (.head .freeTimeout))
    (List.finRange maxSloopTimeout)
  forEach (fun i => onLinks fun L => dlistAdd L (.signal i) (.head .freeSignals))
    (List.finRange maxSloopSignal)

/-- `sloop_init` on the static data of a fresh process. -/
def sloopInit : Run Unit := do
  forEach (fun l => onLinks fun L => some (initDlistHead L (.head l)))
    [.readers, .writers, .signals, .timeout, .freeSockets, .freeTimeout, .freeSignals]
  initListPools

def registerSocket (sock : Int) (callback : Callback) (head : ListId) :
    Run (Option (Fin maxSloopSocket)) := do
  let entry ← getSocket
  match entry with
  | none => pure none
  | some i => do
    modify fun s => { s with sockets := Function.update s.sockets i ⟨sock, callback⟩ }
    onLinks fun L => dlistAdd L (.sock i) (.head head)
    pure (some i)

/-- The loops that cancel everything on a list, the first entry each time. -/
def drain (head : ListId) (cancelEntry : Node → Run Unit) : Nat → Run Unit
  | 0 => fail
  | fuel + 1 => do
    let s ← get
    if dlistEmpty s.links (.head head) then pure ()
    else do
      let entry ← ofOption (s.links.next (.head head))
      cancelEntry entry
      drain head cancelEntry fuel

/-- The part of `cancel_socket` that unlinks one entry. -/
def cancelSocketEntry (entry : Node) : Run Unit :=
  match entry with
  | .sock i => do
    onLinks fun L => dlistDel L (.sock i)
    freeSocket i
  | _ => fail

def cancelSocket (fuel : Nat) (target : Option (Fin maxSloopSocket)) (head : ListId) : Run Unit :=
  match target with
  | some i => cancelSocketEntry (.sock i)
  | none => drain head cancelSocketEntry fuel

/-- `signal`, with the handler of the module or with `SIG_DFL`. -/
def setSignal (sig : Int) (handled : Bool) : Run Unit :=
  modify fun s => { s with disposition := Function.update s.disposition sig handled }

def sloopRegisterSignal (sig : Int) (callback : Callback) :
    Run (Option (Fin maxSloopSignal)) := do
  let entry ← getSignal
  match entry with
  | none => pure none
  | some i => do
    modify fun s => { s with signals := Function.update s.signals i ⟨sig, callback⟩ }
    onLinks fun L => dlistAdd L (.signal i) (.head .signals)
    setSignal sig true
    pure (some i)

/-- The part of `sloop_cancel_signal` that unlinks one entry. -/
def cancelSignalEntry (entry : Node) : Run Unit :=
  match entry with
  | .signal i => do
    let s ← get
    setSignal (s.signals i).sig false
    onLinks fun L => dlistDel L (.signal i)
    freeSignal i
  | _ => fail

def sloopCancelSignal (fuel : Nat) (handle : Option (Fin maxSloopSignal)) : Run Unit :=
  match handle with
  | some i => cancelSignalEntry (.signal i)
  | none => drain .signals cancelSignalEntry fuel

/-- The loop of `sloop_register_timeout` that normalises the microseconds; a 32
bit value needs fewer than 2148 rounds. -/
def normalise : Nat → Timeval → Timeval
  | 0, t => t
  | n + 1, t =>
    if 1000000 ≤ t.usec then normalise n ⟨wrap (t.sec + 1), t.usec - 1000000⟩ else t

def isLater (s : SloopData) (time : Timeval) : Node → Bool
  | .timeout j => time.lt (s.timeouts j).time
  | _ => false

/-- The entry of the timer list that `sloop_register_timeout` inserts before. -/
def insertPoint (fuel : Nat) (s : SloopData) (time : Timeval) : Option Node :=
  (s.links.next (.head .timeout)).bind fun first =>
    s.links.search (isLater s time) (.head .timeout) fuel first

def sloopRegisterTimeout (secs usecs : UInt32) (callback : Callback) :
    Run (Option (Fin maxSloopTimeout)) := do
  let entry ← getTimeout
  match entry with
  | none => pure none
  | some i => do
    let uptime ← getUptime env
    let time := normalise 2148 ⟨wrap (uptime + secs.toNat), wrap usecs.toNat⟩
    modify fun s => { s with timeouts := Function.update s.timeouts i ⟨time, callback⟩ }
    onLinks fun L => some (initDlistHead L (.timeout i))
    let s ← get
    if dlistEmpty s.links (.head .timeout) then do
      onLinks fun L => dlistAdd L (.timeout i) (.head .timeout)
      pure (some i)
    else do
      let point ← ofOption (insertPoint env.fuel s time)
      onLinks fun L => dlistAddTail L (.timeout i) point
      pure (some i)

/-- The part of `sloop_cancel_timeout` that unlinks one entry. -/
def cancelTimeoutEntry (entry : Node) : Run Unit :=
  match entry with
  | .timeout i => do
    onLinks fun L => dlistDel L (.timeout i)
    freeTimeout i
  | _ => fail

def sloopCancelTimeout (fuel : Nat) (handle : Option (Fin maxSloopTimeout)) : Run Unit :=
  match handle with
  | some i => cancelTimeoutEntry (.timeout i)
  | none => drain .timeout cancelTimeoutEntry fuel

def doAction (caller : Caller) : Action → Run Unit
  | .register d sock callback => do
    let _ ← registerSocket sock callback d.list
    note .other
  | .cancel d handle => do
    cancelSocket env.fuel handle d.list
    note .other
  | .registerSignal sig callback => do
    let _ ← sloopRegisterSignal sig callback
    note .other
  | .cancelSignal handle => do
    sloopCancelSignal env.fuel handle
    note .other
  | .registerTimeout secs usecs callback => do
    note (.registering caller)
    let r ← sloopRegisterTimeout env secs usecs callback
    match r with
    | some i => note (.registered i)
    | none => note .other
  | .cancelTimeout handle => do
    sloopCancelTimeout env.fuel handle
    match handle with
    | some i => note (.cancelled i)
    | none => note .cancelledAll
  | .terminate => do
    modify fun s => { s with terminate := true }
    note .other

/-- One call of a handler, with what it does, until it returns. -/
def runHandler (caller : Caller) (callback : Callback) : Run Int := do
  let s ← get
  let b := env.handler s.calls caller callback
  modify fun s => { s with calls := s.calls + 1 }
  forEach (doAction env caller) b.actions
  pure b.result

/-- The loops of `sloop_run` that collect the descriptors of a list for `select`. -/
def fdSockets (head : ListId) : Nat → Node → Run (List Int)
  | 0, _ => fail
  | fuel + 1, entry =>
    if entry = .head head then pure []
    else match entry with
      | .sock i => do
        let s ← get
        let next ← ofOption (s.links.next entry)
        let rest ← fdSockets head fuel next
        pure ((s.sockets i).sock :: rest)
      | _ => fail

/-- Call the handler of a socket whose descriptor is ready; the result of the others is zero. -/
def callSocket (d : Direction) (ready : Int → Bool) (i : Fin maxSloopSocket) : Run Int := do
  let s ← get
  if ready (s.sockets i).sock then do
    note (.called d i)
    runHandler env (.socket d i) (s.sockets i).callback
  else pure 0

/-- The walk of `sloop_run` over the readers or the writers, from `entry` on. -/
def checkSockets (env : Env) (d : Direction) (ready : Int → Bool) : Nat → Node → Run Unit
  | 0, _ => fail
  | fuel + 1, entry =>
    if entry = .head d.list then pure ()
    else match entry with
      | .sock i => do
        let res ← callSocket env d ready i
        let s ← get
        let next ← ofOption (s.links.next entry)
        (if res < 0 then cancelSocketEntry entry else pure () : Run Unit)
        checkSockets env d ready fuel next
      | _ => fail

/-- The check of the readers or the writers in one round of `sloop_run`. -/
def socketPass (d : Direction) (ready : Int → Bool) : Run Unit := do
  note (.pass d)
  let s ← get
  if dlistEmpty s.links (.head d.list) then pure ()
  else do
    let first ← ofOption (s.links.next (.head d.list))
    checkSockets env d ready env.fuel first

def hasSig (s : SloopData) (sig : Int) : Node → Bool
  | .signal j => (s.signals j).sig == sig
  | _ => false

/-- The first entry for the signal is called, and removed if its handler fails. -/
def signalPass (sig : Int) : Run Unit := do
  let s ← get
  let first ← ofOption (s.links.next (.head .signals))
  let entry ← ofOption (s.links.search (hasSig s sig) (.head .signals) env.fuel first)
  match entry with
  | .signal i => do
    note (.signalled i)
    let res ← runHandler env (.signal i) (s.signals i).callback
    if res < 0 then do
      onLinks fun L => dlistDel L (.signal i)
      freeSignal i
    else pure ()
  | _ => pure ()

/-- The first timer fires when it is still the first and its time has come. -/
def timeoutPass (i : Fin maxSloopTimeout) : Run Unit := do
  let s ← get
  if s.links.next (.head .timeout) = some (.timeout i) then do
    let now ← getUptime env
    if Timeval.ge ⟨now, 0⟩ (s.timeouts i).time then do
      note (.fired i now)
      let _ ← runHandler env (.timeout i) (s.timeouts i).callback
      onLinks fun L => dlistDel L (.timeout i)
      freeTimeout i
      note (.released i)
    else pure ()
  else pure ()

def firstTimeout : Run (Option (Fin maxSloopTimeout)) := do
  let s ← get
  if dlistEmpty s.links (.head .timeout) then pure none
  else match s.links.next (.head .timeout) with
    | some (.timeout i) => pure (some i)
    | _ => fail

/-- What `sloop_run` does with a readable signal pipe; the result says whether it goes on. -/
def readSignal (sigRead : Option Int) : Run Bool :=
  match sigRead with
  | none => pure true
  | some sig =>
    if sig = 0 then pure true
    else do
      let s ← get
      if dlistEmpty s.links (.head .signals) then pure true
      else do
        signalPass env sig
        let s ← get
        pure (!s.terminate)

def listSockets (d : Direction) : Run (List Int) := do
  let s ← get
  let first ← ofOption (s.links.next (.head d.list))
  fdSockets d.list env.fuel first

/-- The check of the timer that was the first one before `select`. -/
def checkTimeout : Run Unit :=
  match entryTimeout with
  | some i => timeoutPass env i
  | none => pure ()

/-- The part of a round after `select` returned without an error. -/
def afterSelect : Run Bool := do
  let goOn ← (if 0 < sel.res ∧ rfds env.signalPipe then readSignal env sel.sigRead
    else pure true : Run Bool)
  if goOn then do
    checkTimeout env entryTimeout
    if sel.res ≤ 0 then pure true
    else do
      socketPass env .read rfds
      socketPass env .write wfds
      pure true
  else pure false

/-- The clock is read for the timeout of `select` when there is a timer. -/
def prepareTimeout : Run Unit :=
  match entryTimeout with
  | some _ => do
    let _ ← getUptime env
    pure ()
  | none => pure ()

/-- One round of `sloop_run`; the result says whether the loop goes on. -/
def sloopRound (k : Nat) : Run Bool := do
  let entryTimeout ← firstTimeout
  prepareTimeout env entryTimeout
  let readFds ← listSockets env .read
  let writeFds ← listSockets env .write
  let sel := env.select k
  if sel.res < 0 then pure sel.eintr
  else
    afterSelect env entryTimeout sel
      (fun fd => decide (fd = env.signalPipe ∨ fd ∈ readFds) && sel.readable fd)
      (fun fd => decide (fd ∈ writeFds) && sel.writable fd)

/-- The end of `sloop_run`. -/
def cancelAll : Run Unit := do
  doAction env .main (.cancelSignal none)
  doAction env .main (.cancelTimeout none)
  doAction env .main (.cancel .read none)
  doAction env .main (.cancel .write none)

/-- At most `n` rounds of `sloop_run`, the first one with number `k`; the result
says whether `sloop_run` has returned. -/
def sloopRun (env : Env) : Nat → Nat → Run Bool
  | 0, _ => pure false
  | n + 1, k => do
    let s ← get
    if s.terminate ∨ (dlistEmpty s.links (.head .timeout) ∧ dlistEmpty s.links (.head .readers) ∧
        dlistEmpty s.links (.head .writers) ∧ dlistEmpty s.links (.head .signals)) then do
      cancelAll env
      pure true
    else do
      let goOn ← sloopRound env k
      if goOn then sloopRun env n (k + 1)
      else do
        cancelAll env
        pure true

/-- A program that initialises the module, makes some calls and enters the loop
for at most `n` rounds. -/
def program (startup : List Action) (n : Nat) : Run Bool := do
  sloopInit
  forEach (doAction env .main) startup
  sloopRun env n 0

end

end Wbr1310.Comlib.Sloop
