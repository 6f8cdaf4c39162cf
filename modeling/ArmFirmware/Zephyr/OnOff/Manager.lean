import ArmFirmware.Library.Trace

/-! On-off services (`lib/utils/onoff.c`). What is done under `mgr->lock` is one step. Between two
of these steps `process_event` calls monitors, clients and transition functions one by one; whatever
these call in their turn, and whatever other threads and interrupt routines call meanwhile, is a
step of its own. Assertions are off. -/
namespace ArmFirmware.Zephyr.OnOff
open Library

inductive Service
  | off
  | on
  | error
  | toOn
  | toOff
  | resetting
  deriving DecidableEq

def Service.transition : Service → Bool
  | .toOn | .toOff | .resetting => true
  | _ => false

inductive Event
  | nop
  | complete
  | recheck
  | start
  | stop
  | reset
  deriving DecidableEq

inductive Transition
  | start
  | stop
  | reset
  deriving DecidableEq

inductive Errno
  | EINVAL
  | EAGAIN
  | ENOTSUP
  | EIOError
  | EALREADY
  deriving DecidableEq

/-- `struct onoff_manager`. The three last flags are ONOFF_FLAG_PROCESSING, ONOFF_FLAG_COMPLETE and
ONOFF_FLAG_RECHECK. -/
structure Manager where
  clients : List ℕ
  monitors : List ℕ
  lastRes : ℤ
  refs : ℕ
  state : Service
  processing : Bool
  complete : Bool
  recheck : Bool
  deriving DecidableEq

/-- Where `SYS_SLIST_FOR_EACH_CONTAINER_SAFE` stands in `notify_monitors`. -/
inductive Walk
  | begin
  | next (tmp : Option ℕ)
  | finished
  deriving DecidableEq

/-- What is left of the unlocked part of `process_event`. -/
structure Frame where
  walk : Walk
  state : Service
  res : ℤ
  clients : List ℕ
  transit : Option Transition
  deriving DecidableEq

section Functions
variable (m : Manager)

def processRecheck : Event :=
  if m.state = .off ∧ m.clients ≠ [] then .start
  else if m.state = .on ∧ m.refs = 0 then .stop
  else if m.state = .error ∧ m.clients ≠ [] then .reset
  else .nop

/-- The manager after a completed transition has brought it to a stable state. -/
def settle : Manager := if processRecheck m ≠ .nop then { m with recheck := true } else m

/-- `process_complete`, with the clients it moves to the output list. -/
def processComplete (res : ℤ) : Manager × List ℕ :=
  if res < 0 then ({ m with clients := [], state := .error },m.clients)
  else
    match m.state with
    | .toOn =>
      (settle { m with clients := [], refs := m.clients.foldl (fun refs _ => (refs+1)%2^16) m.refs, state := .on },
        m.clients)
    | .resetting => (settle { m with clients := [], state := .off },m.clients)
    | .toOff => (settle { m with state := .off },[])
    | _ => (m,[])

/-- The body of the loop of `process_event` up to the test whether it has to unlock: the manager, the clients to
notify, the result for them and the transition to initiate. -/
def act (resets : Bool) : Event → Manager × List ℕ × ℤ × Option Transition
  | .complete =>
    let r := processComplete m m.lastRes
    (r.1,r.2,m.lastRes,none)
  | .start => ({ m with state := .toOn },[],0,some .start)
  | .stop => ({ m with state := .toOff },[],0,some .stop)
  | .reset => ({ m with state := .resetting },[],0,if resets then some .reset else none)
  | _ => (m,[],0,none)

def deferred : Manager × Event :=
  if m.complete then ({ m with complete := false },.complete)
  else if m.recheck then ({ m with recheck := false },.recheck)
  else (m,.nop)

end Functions

/-- The loop of `process_event` from its head to where it unlocks or returns. At the head the local
`state` is the state of the manager, and the local list of clients is empty. -/
def processLoop (resets : Bool) : ℕ → Manager → Event → Option (Manager × Option Frame)
  | 0,_,_ => none
  | fuel+1,m,evt =>
    let evt := if evt = .recheck then processRecheck m else evt
    if evt = .nop then some (m,none)
    else
      let (m',clients,res,transit) := act m resets evt
      let doMonitors := m.state ≠ m'.state ∧ m'.monitors ≠ []
      if doMonitors ∨ clients ≠ [] ∨ transit.isSome then
        some ({ m' with processing := true },some ⟨if doMonitors then .begin else .finished,m'.state,res,clients,
          transit⟩)
      else
        let (m'',evt) := deferred m'
        if evt = .nop then some (m'',none) else processLoop resets fuel m'' evt

/-- The manager, the call of `process_event` that is unlocked, the clients that `onoff_request` has
still to notify and the number of transitions in progress. -/
structure State where
  mgr : Manager
  frame : Option Frame
  pending : List ℕ
  transits : ℕ
  deriving DecidableEq

def init : State := ⟨⟨[],[],0,0,.off,false,false,false⟩,none,[],0⟩

def frameClients (frame : Option Frame) : List ℕ := (frame.map Frame.clients).getD []

def State.waiting (s : State) : List ℕ := s.mgr.clients++frameClients s.frame++s.pending

def State.append (s : State) (cli : ℕ) : State := { s with mgr.clients := s.mgr.clients++[cli] }

def State.acquire (s : State) (cli : ℕ) : State :=
  { s with mgr.refs := (s.mgr.refs+1)%2^16, pending := s.pending++[cli] }

def State.drop (s : State) : State := { s with mgr.refs := s.mgr.refs-1 }

/-- `struct sys_notify`: the flags, and whether the callback or signal is NULL. -/
structure Notify where
  flags : ℕ
  null : Bool
  deriving DecidableEq

/-- `validate_args` of pointers that are not NULL, with `sys_notify_validate` under CONFIG_POLL. -/
def validateArgs (notify : Notify) : Except Errno Unit :=
  let method := notify.flags%4
  if method = 0 ∨ (method = 2 ∨ method = 3) ∧ notify.null then .error .EINVAL
  else if notify.flags/4 ≠ 0 then .error .EINVAL
  else .ok ()

inductive Reply
  | rv (r : Except Errno Service)
  | done
  | notified (cli : ℕ) (state : Service) (res : ℤ)
  | monitor (mon : ℕ) (state : Service) (res : ℤ)
  | transit (t : Transition)
  | silent

section Calls
variable (resets : Bool) (s : State)

/-- `process_event`, up to its first unlock. -/
def processEvent (evt : Event) : Option State :=
  if s.mgr.processing then
    if evt = .complete then some { s with mgr.complete := true } else some { s with mgr.recheck := true }
  else (processLoop resets 3 s.mgr evt).map fun r => { s with mgr := r.1, frame := r.2 }

/-- `onoff_request` with a client that is in no other use. -/
def onoffRequest (cli : ℕ) (notify : Notify) : Option (State × Reply) :=
  if cli ∈ s.waiting then none
  else
    match validateArgs notify with
    | .error e => some (s,.rv (.error e))
    | .ok () =>
      if s.mgr.refs = 2^16-1 then some (s,.rv (.error .EAGAIN))
      else
        match s.mgr.state with
        | .on => some (s.acquire cli,.rv (.ok .on))
        | .off => (processEvent resets (s.append cli) .recheck).map fun s => (s,.rv (.ok .off))
        | .toOff => some (s.append cli,.rv (.ok .toOff))
        | .toOn => some (s.append cli,.rv (.ok .toOn))
        | .resetting => some (s,.rv (.error .ENOTSUP))
        | .error => some (s,.rv (.error .EIOError))

/-- `onoff_release` of a request that was granted. -/
def onoffRelease : Option (State × Reply) :=
  match s.mgr.state with
  | .on =>
    if s.mgr.refs = 0 then none
    else if s.drop.mgr.refs = 0 then (processEvent resets s.drop .recheck).map fun s => (s,.rv (.ok .on))
    else some (s.drop,.rv (.ok .on))
  | .error => some (s,.rv (.error .EIOError))
  | _ => some (s,.rv (.error .ENOTSUP))

/-- `onoff_reset` with a client that is in no other use. -/
def onoffReset (cli : ℕ) (notify : Notify) : Option (State × Reply) :=
  if cli ∈ s.waiting then none
  else
    match validateArgs notify with
    | .error e => some (s,.rv (.error e))
    | .ok () =>
      if resets = false then some (s,.rv (.error .ENOTSUP))
      else
        match s.mgr.state with
        | .error =>
          (processEvent resets (s.append cli) .recheck).map fun s => (s,.rv (.ok .error))
        | .resetting => some (s.append cli,.rv (.ok .resetting))
        | _ => some (s,.rv (.error .EALREADY))

def onoffCancel (cli : ℕ) : State × Reply :=
  if cli ∈ s.mgr.clients then ({ s with mgr.clients := s.mgr.clients.erase cli },.rv (.ok s.mgr.state))
  else (s,.rv (.error .EALREADY))

/-- `onoff_monitor_register` of a monitor that is not registered. -/
def onoffMonitorRegister (mon : ℕ) : Option (State × Reply) :=
  if mon ∈ s.mgr.monitors then none else some ({ s with mgr.monitors := s.mgr.monitors++[mon] },.done)

def onoffMonitorUnregister (mon : ℕ) : State × Reply :=
  if mon ∈ s.mgr.monitors then ({ s with mgr.monitors := s.mgr.monitors.erase mon },.done)
  else (s,.rv (.error .EINVAL))

/-- `transition_complete`, once for each transition. -/
def transitionComplete (res : ℤ) : Option (State × Reply) :=
  if s.transits = 0 then none
  else (processEvent resets { s with mgr.lastRes := res, transits := s.transits-1 } .complete).map fun s => (s,.done)

/-- The node behind a monitor, NULL once it is not on the list. -/
def nextMonitor (mon : ℕ) : Option ℕ := (s.mgr.monitors.dropWhile (· ≠ mon)).tail.head?

def callMonitor (f : Frame) : Option ℕ → State × Reply
  | none => ({ s with frame := some { f with walk := .finished } },.silent)
  | some mon => ({ s with frame := some { f with walk := .next (nextMonitor s mon) } },.monitor mon f.state f.res)

/-- The next piece of the unlocked part of `process_event`: the call of a monitor, of a client or of
a transition function, or locking again and going on. -/
def proceed : Option (State × Reply) :=
  match s.frame with
  | none => none
  | some f =>
    match f.walk with
    | .begin => some (callMonitor s f s.mgr.monitors.head?)
    | .next mon => some (callMonitor s f mon)
    | .finished =>
      match f.clients,f.transit with
      | cli::clients,_ => some ({ s with frame := some { f with clients := clients } },.notified cli f.state f.res)
      | [],some t => some ({ s with frame := some { f with transit := none }, transits := s.transits+1 },.transit t)
      | [],none =>
        let (m,evt) := deferred { s.mgr with processing := false }
        if evt = .nop then some ({ s with mgr := m, frame := none },.silent)
        else (processLoop resets 3 m evt).map fun r => ({ s with mgr := r.1, frame := r.2 },.silent)

def notifyOne (cli : ℕ) : Option (State × Reply) :=
  if cli ∈ s.pending then some ({ s with pending := s.pending.erase cli },.notified cli .on 0) else none

end Calls

inductive Action
  | request (cli : ℕ) (notify : Notify)
  | release
  | reset (cli : ℕ) (notify : Notify)
  | cancel (cli : ℕ)
  | register (mon : ℕ)
  | unregister (mon : ℕ)
  | complete (res : ℤ)
  | proceed
  | notifyOne (cli : ℕ)
  deriving DecidableEq

def step (resets : Bool) (s : State) : Action → Option (State × Reply)
  | .request cli notify => onoffRequest resets s cli notify
  | .release => onoffRelease resets s
  | .reset cli notify => onoffReset resets s cli notify
  | .cancel cli => some (onoffCancel s cli)
  | .register mon => onoffMonitorRegister s mon
  | .unregister mon => some (onoffMonitorUnregister s mon)
  | .complete res => transitionComplete resets s res
  | .proceed => proceed resets s
  | .notifyOne cli => notifyOne s cli

/-- How often each client was accepted, notified and cancelled, how many were told that the service
is on, and how often it was released. -/
structure Record where
  accepted : ℕ → ℕ
  notified : ℕ → ℕ
  cancelled : ℕ → ℕ
  granted : ℕ
  released : ℕ

def Record.empty : Record := ⟨fun _ => 0,fun _ => 0,fun _ => 0,0,0⟩

def bump (f : ℕ → ℕ) (i : ℕ) : ℕ → ℕ := Function.update f i (f i+1)

def Record.next (g : Record) (_ _ : State) : Action → Reply → Record
  | .request cli _,.rv (.ok _) | .reset cli _,.rv (.ok _) => { g with accepted := bump g.accepted cli }
  | .cancel cli,.rv (.ok _) => { g with cancelled := bump g.cancelled cli }
  | .release,.rv (.ok _) => { g with released := g.released+1 }
  | _,.notified cli state _ =>
    { g with notified := bump g.notified cli, granted := g.granted+if state = .on then 1 else 0 }
  | _,_ => g

/-- The clients that `process_event` is about to tell that the service is on. -/
def frameGrants (frame : Option Frame) : List ℕ :=
  match frame with
  | some f => if f.state = .on then f.clients else []
  | none => []

/-- What clients rely on. -/
structure Sound (s : State) (g : Record) : Prop where
  /-- At most one transition is in progress. -/
  one : s.transits ≤ 1
  /-- Every client that was accepted is still waiting or was notified or cancelled, once for each time. -/
  once : ∀ cli, g.accepted cli = g.notified cli+g.cancelled cli+if cli ∈ s.waiting then 1 else 0
  /-- The reference count is the number of granted requests that are not released. -/
  refs : s.mgr.refs+g.released = g.granted+(frameGrants s.frame).length+s.pending.length
  on : s.mgr.refs ≠ 0 → s.mgr.state = .on
  /-- When no call of `process_event` is under way, no client is left in OFF or ERROR and ON is in use. -/
  settled : s.frame = none → (s.mgr.state = .off ∨ s.mgr.state = .error → s.mgr.clients = []) ∧
    (s.mgr.state = .on → 0 < s.mgr.refs)
  /-- Then the other clients wait for a transition that is in progress. -/
  served : s.frame = none → s.mgr.clients ≠ [] → s.transits = 1

/-- A request is queued only while fewer than 2^16-1 clients are. -/
def Careful (s : State) : Action → Prop
  | .request .. => s.mgr.state = .off ∨ s.mgr.state = .toOff ∨ s.mgr.state = .toOn → s.mgr.clients.length < 2^16-1
  | _ => True

instance (s : State) (a : Action) : Decidable (Careful s a) := by
  unfold Careful
  split <;> infer_instance

end ArmFirmware.Zephyr.OnOff
