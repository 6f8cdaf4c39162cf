import ArmFirmware.Library.Trace
import ArmFirmware.Library.WaitQueue

/-! A mailbox (`kernel/mailbox.c`) with the parts of the scheduler that its threads meet: waits and
their timeouts, `k_thread_priority_set`, `k_thread_suspend` and `k_thread_resume`. What runs under
the lock of the mailbox is one step, and so is the disposal of a message. A timeout comes in two
steps: `sys_clock_announce` takes it off its list, and later its `z_thread_timeout` runs. -/
namespace ArmFirmware.Zephyr.Mailbox
open Library Function

def EAGAIN : ℤ := 11
def ENOMSG : ℤ := 35

abbrev Word := BitVec 32
abbrev Byte := BitVec 8

inductive Queue
  | tx
  | rx
  deriving DecidableEq

structure Thread where
  pending : Bool
  suspended : Bool
  /-- The thread is in the run queue or runs. -/
  queued : Bool
  pendedOn : Option Queue
  /-- The timeout is in the list of timeouts. -/
  linked : Bool
  swapRetval : ℤ
  deriving DecidableEq

namespace Thread

def isReady (th : Thread) : Bool := !th.pending && !th.suspended && !th.linked

def ready (th : Thread) : Thread :=
  if !th.queued && th.isReady then { th with queued := true } else th

/-- `z_pend_curr` on a queue or, for `none`, outside any queue. -/
def pend (th : Thread) (queue : Option Queue) (linked : Bool) : Thread :=
  { th with queued := false, pending := true, pendedOn := queue, linked := linked, swapRetval := -EAGAIN }

def unpendNoTimeout (th : Thread) : Thread :=
  if th.pendedOn = none then th else { th with pending := false, pendedOn := none }

def unpend (th : Thread) : Thread := { th.unpendNoTimeout with linked := false }

def timeout (th : Thread) : Thread := ready { th.unpendNoTimeout with suspended := false }

/-- `dequeue_thread`. What it does to a thread in no run queue depends on the kind of run queue: the
links of a list node that is in no list are followed (`CONFIG_SCHED_DUMB` and
`CONFIG_SCHED_MULTIQ`), so it has no result. -/
def dequeue (th : Thread) : Option Thread := if th.queued then some { th with queued := false } else none

/-- `z_thread_prio_set`: a thread that is ready is taken out of the run queue and put into it anew. -/
def prioSet (smp : Bool) (th : Thread) : Option Thread :=
  if th.isReady && (!smp || th.queued) then th.dequeue.map ({ · with queued := true }) else some th

def suspend (th : Thread) : Thread :=
  if th.suspended then { th with linked := false }
  else { th with linked := false, suspended := true, queued := false }

def resume (th : Thread) : Thread :=
  if th.suspended then ready { th with suspended := false } else th

def handOver (th : Thread) : Thread := ready { th.unpend with swapRetval := 0 }

def release (th : Thread) : Thread := ready { th with swapRetval := 0, pending := false }

end Thread

/-- A thread, or the dummy thread of an asynchronous message. -/
inductive Who (τ δ : Type*)
  | real (t : τ)
  | dummy (d : δ)
  deriving DecidableEq

/-- Where a message descriptor is: the caller's, or in a descriptor for asynchronous messages. -/
inductive Addr (μ δ : Type*)
  | user (m : μ)
  | async (d : δ)
  deriving DecidableEq

/-- `struct k_mbox_msg`; `K_ANY` is `none`. -/
structure Msg (τ δ π : Type*) where
  size : ℕ
  info : Word
  txData : Option π
  rxSourceThread : Option τ
  txTargetThread : Option τ
  syncingThread : Option (Who τ δ)
  asyncSem : Option ℕ
  deriving DecidableEq

/-- What a sender fills in. -/
structure Offer (τ π : Type*) where
  size : ℕ
  info : Word
  data : Option π
  target : Option τ
  deriving DecidableEq

/-- What a receiver fills in. -/
structure Request (τ : Type*) where
  size : ℕ
  info : Word
  source : Option τ

inductive Timeout
  | noWait
  | forever
  | after
  deriving DecidableEq

/-- Where a thread is in the calls on the mailbox, with its message descriptor. -/
inductive Call (μ : Type*)
  | none
  | put (m : μ)
  /-- Pended in `k_mbox_get`, with or without a buffer. -/
  | get (m : μ) (buffer : Bool)
  /-- About to run `mbox_message_data_check`. -/
  | got (m : μ) (buffer : Bool)

/-- What the callers do with a descriptor. -/
inductive Use (τ : Type*)
  | free
  | busy (t : τ)
  /-- It was given to a call of `k_mbox_get` that returned 0. -/
  | held
  deriving DecidableEq

/-- The mailbox, the message descriptors and where each thread is in its calls. -/
structure State (τ δ μ π : Type*) where
  msgs : Addr μ δ → Msg τ δ π
  swapData : Who τ δ → Option (Addr μ δ)
  txQueue : List (Who τ δ)
  rxQueue : List τ
  prio : Who τ δ → ℤ
  thread : τ → Thread
  call : τ → Call μ
  use : μ → Use τ
  /-- The stack of unused descriptors for asynchronous messages. -/
  asyncMsgFree : List δ
  /-- How often each semaphore has been given. -/
  gives : ℕ → ℕ
  /-- The threads whose `z_thread_timeout` is still to run. -/
  firing : List τ

inductive Action (τ μ π : Type*)
  | put (t : τ) (m : μ) (offer : Offer τ π) (timeout : Timeout)
  | asyncPut (t : τ) (offer : Offer τ π) (sem : Option ℕ)
  | get (t : τ) (m : μ) (request : Request τ) (buffer : Bool) (timeout : Timeout)
  /-- A thread runs on behind `z_pend_curr`. -/
  | wake (t : τ)
  /-- `mbox_message_data_check` and the return from `k_mbox_get`. -/
  | check (t : τ)
  | dataGet (t : τ) (m : μ) (buffer : Bool)
  | announce (t : τ)
  | fire (t : τ)
  | prioSet (t : τ) (prio : ℤ)
  | suspend (t : τ)
  | resume (t : τ)

inductive Reply (τ δ μ : Type*)
  | done
  | matched (sender : Who τ δ) (receiver : τ) (rx : Addr μ δ)
  | returned (t : τ) (ret : ℤ)
  /-- `k_mbox_get` returned 0, or `k_mbox_data_get` returned, with what was copied if anything. -/
  | received (t : τ) (m : μ) (data : Option (List Byte))
  deriving DecidableEq

section Code
variable {τ δ μ π : Type*} [DecidableEq τ] [DecidableEq δ] [DecidableEq μ]

/-- `mbox_message_match`, with both descriptors after the match. -/
def mboxMessageMatch (tx rx : Msg τ δ π) : Option (Msg τ δ π × Msg τ δ π) :=
  if (tx.txTargetThread = none ∨ tx.txTargetThread = rx.txTargetThread) ∧
      (rx.rxSourceThread = none ∨ rx.rxSourceThread = tx.rxSourceThread) then
    some ({ tx with txTargetThread := rx.txTargetThread, info := rx.info },
      { rx with
        rxSourceThread := tx.rxSourceThread
        info := tx.info
        size := if rx.size > tx.size then tx.size else rx.size
        txData := tx.txData
        syncingThread := tx.syncingThread })
  else none

namespace State

@[simps]
def setThread (s : State τ δ μ π) (t : τ) (f : Thread → Thread) : State τ δ μ π :=
  { s with thread := update s.thread t (f (s.thread t)) }

@[simps]
def setMsg (s : State τ δ μ π) (a : Addr μ δ) (msg : Msg τ δ π) : State τ δ μ π :=
  { s with msgs := update s.msgs a msg }

@[simps]
def setCall (s : State τ δ μ π) (t : τ) (c : Call μ) (m : μ) (u : Use τ) : State τ δ μ π :=
  { s with call := update s.call t c, use := update s.use m u }

/-- The thread is in none of the calls, and runs. -/
def Running (s : State τ δ μ π) (t : τ) : Prop :=
  (match s.call t with | .none => True | _ => False) ∧ (s.thread t).queued = true

instance (s : State τ δ μ π) (t : τ) : Decidable (s.Running t) := by
  unfold Running
  split <;> infer_instance

/-- The descriptor is not given to a call and keeps no message that is still to be disposed of. -/
def Reusable (s : State τ δ μ π) (m : μ) : Prop :=
  s.use m = .free ∨ s.use m = .held ∧ (s.msgs (.user m)).syncingThread = none

instance (s : State τ δ μ π) (m : μ) : Decidable (s.Reusable m) := by
  unfold Reusable
  infer_instance

@[simps]
def leaveQueue (s : State τ δ μ π) (t : τ) : State τ δ μ π :=
  { s with
    txQueue := if (s.thread t).pendedOn = some .tx then s.txQueue.erase (.real t) else s.txQueue
    rxQueue := if (s.thread t).pendedOn = some .rx then s.rxQueue.erase t else s.rxQueue }

def unpendSender (s : State τ δ μ π) : Who τ δ → State τ δ μ π
  | .real t => (s.leaveQueue t).setThread t Thread.unpend
  | .dummy d => { s with txQueue := s.txQueue.erase (.dummy d) }

/-- The loop of `mbox_message_put` over the receivers. -/
def findReceiver (s : State τ δ μ π) (tx : Msg τ δ π) : Option (τ × Addr μ δ × Msg τ δ π × Msg τ δ π) :=
  s.rxQueue.findSome? fun r => (s.swapData (.real r)).bind fun b =>
    (mboxMessageMatch tx (s.msgs b)).map fun p => (r,b,p.1,p.2)

/-- The loop of `k_mbox_get` over the senders. -/
def findSender (s : State τ δ μ π) (rx : Msg τ δ π) : Option (Who τ δ × Addr μ δ × Msg τ δ π × Msg τ δ π) :=
  s.txQueue.findSome? fun w => (s.swapData w).bind fun a =>
    (mboxMessageMatch (s.msgs a) rx).map fun p => (w,a,p.1,p.2)

/-- The start of `mbox_message_put`: the descriptor of the sending thread. -/
@[simps]
def load (s : State τ δ μ π) (w : Who τ δ) (a : Addr μ δ) (tx : Msg τ δ π) : State τ δ μ π :=
  { s with msgs := update s.msgs a tx, swapData := update s.swapData w (some a) }

/-- A receiver that has been found leaves its queue with both descriptors updated. -/
def handOver (s : State τ δ μ π) (a : Addr μ δ) (r : τ) (b : Addr μ δ) (tx rx : Msg τ δ π) : State τ δ μ π :=
  (((s.setMsg a tx).setMsg b rx).leaveQueue r).setThread r Thread.handOver

@[simps]
def pendSender (s : State τ δ μ π) (w : Who τ δ) : State τ δ μ π :=
  { s with txQueue := WaitQueue.pend (fun u => s.prio w < s.prio u) w s.txQueue }

@[simps]
def pendReceiver (s : State τ δ μ π) (t : τ) : State τ δ μ π :=
  { s with rxQueue := WaitQueue.pend (fun u => s.prio (.real t) < s.prio (.real u)) t s.rxQueue }

def dispose (s : State τ δ μ π) (b : Addr μ δ) : State τ δ μ π :=
  match (s.msgs b).syncingThread with
  | none => s
  | some w =>
    let s := s.setMsg b { s.msgs b with syncingThread := none }
    match s.swapData w with
    | none => s
    | some a =>
      let s := s.setMsg a { s.msgs a with size := (s.msgs b).size }
      match w with
      | .dummy d =>
        { s with
          asyncMsgFree := d::s.asyncMsgFree
          gives := match (s.msgs a).asyncSem with
            | none => s.gives
            | some sem => update s.gives sem (s.gives sem+1) }
      | .real t => s.setThread t Thread.release

def dataGet (s : State τ δ μ π) (m : μ) (buffer : Bool) : State τ δ μ π :=
  if buffer then s.dispose (.user m)
  else (s.setMsg (.user m) { s.msgs (.user m) with size := 0 }).dispose (.user m)

end State

def copied (memory : π → ℕ → Byte) (rx : Msg τ δ π) : List Byte :=
  match rx.txData with
  | none => []
  | some p => (List.range rx.size).map (memory p)

def Offer.msg (offer : Offer τ π) (t : τ) (w : Who τ δ) (sem : Option ℕ) : Msg τ δ π where
  size := offer.size
  info := offer.info
  txData := offer.data
  rxSourceThread := some t
  txTargetThread := offer.target
  syncingThread := some w
  asyncSem := sem

/-- The descriptor of a receiver; the fields that only a match sets are left as they were. -/
def Request.msg (request : Request τ) (t : τ) (old : Msg τ δ π) : Msg τ δ π :=
  { old with
    size := request.size
    info := request.info
    rxSourceThread := request.source
    txTargetThread := some t }

open State in
def step (smp : Bool) (memory : π → ℕ → Byte) (s : State τ δ μ π) :
    Action τ μ π → Option (State τ δ μ π × Reply τ δ μ)
  | .put t m offer timeout =>
    if s.Running t ∧ s.Reusable m then
      let tx := offer.msg t (.real t) none
      let s := s.load (.real t) (.user m) tx
      match s.findReceiver tx with
      | some (r,b,tx,rx) =>
        let s := s.handOver (.user m) r b tx rx
        some ((s.setThread t fun th => th.pend none false).setCall t (.put m) m (.busy t),.matched (.real t) r b)
      | none =>
        if timeout = .noWait then some (s.setCall t .none m .free,.returned t (-ENOMSG))
        else
          let s := (s.pendSender (.real t)).setThread t fun th => th.pend (some .tx) (timeout = .after)
          some (s.setCall t (.put m) m (.busy t),.done)
    else none
  | .asyncPut t offer sem =>
    match s.asyncMsgFree with
    | [] => none
    | d::rest =>
      if s.Running t then
        let tx := offer.msg t (.dummy d) sem
        let s := { s with asyncMsgFree := rest, prio := update s.prio (.dummy d) (s.prio (.real t)) }
        let s := s.load (.dummy d) (.async d) tx
        match s.findReceiver tx with
        | some (r,b,tx,rx) => some (s.handOver (.async d) r b tx rx,.matched (.dummy d) r b)
        | none => some (s.pendSender (.dummy d),.done)
      else none
  | .get t m request buffer timeout =>
    if s.Running t ∧ s.Reusable m then
      let rx := request.msg t (s.msgs (.user m))
      let s := s.setMsg (.user m) rx
      match s.findSender rx with
      | some (w,a,tx,rx) =>
        let s := ((s.setMsg a tx).setMsg (.user m) rx).unpendSender w
        some (s.setCall t (.got m buffer) m (.busy t),.matched w t (.user m))
      | none =>
        if timeout = .noWait then some (s.setCall t .none m .free,.returned t (-ENOMSG))
        else
          let s := { s with swapData := update s.swapData (.real t) (some (.user m)) }
          let s := (s.pendReceiver t).setThread t fun th => th.pend (some .rx) (timeout = .after)
          some (s.setCall t (.get m buffer) m (.busy t),.done)
    else none
  | .wake t =>
    if (s.thread t).queued then
      match s.call t with
      | .put m => some (s.setCall t .none m .free,.returned t (s.thread t).swapRetval)
      | .get m buffer =>
        if (s.thread t).swapRetval = 0 then some (s.setCall t (.got m buffer) m (.busy t),.done)
        else some (s.setCall t .none m .free,.returned t (s.thread t).swapRetval)
      | _ => none
    else none
  | .check t =>
    if (s.thread t).queued then
      match s.call t with
      | .got m buffer =>
        let data := if buffer then some (copied memory (s.msgs (.user m))) else none
        let s := if buffer then s.dataGet m true
          else if (s.msgs (.user m)).size = 0 then s.dispose (.user m) else s
        some (s.setCall t .none m .held,.received t m data)
      | _ => none
    else none
  | .dataGet t m buffer =>
    if s.Running t ∧ s.use m = .held then
      some (s.dataGet m buffer,.received t m (if buffer then some (copied memory (s.msgs (.user m))) else none))
    else none
  | .announce t =>
    if (s.thread t).linked then
      some ({ s.setThread t fun th => { th with linked := false } with firing := t::s.firing },.done)
    else none
  | .fire t =>
    if t ∈ s.firing then
      some ({ (s.leaveQueue t).setThread t Thread.timeout with firing := s.firing.erase t },.done)
    else none
  | .prioSet t prio => ((s.thread t).prioSet smp).map fun th =>
    ({ s.setThread t (fun _ => th) with prio := update s.prio (.real t) prio },.done)
  | .suspend t => some (s.setThread t Thread.suspend,.done)
  | .resume t => some (s.setThread t Thread.resume,.done)

def State.init (msgs : Addr μ δ → Msg τ δ π) (prio : Who τ δ → ℤ) (free : List δ) : State τ δ μ π where
  msgs := msgs
  swapData _ := none
  txQueue := []
  rxQueue := []
  prio := prio
  thread _ := ⟨false,false,true,none,false,0⟩
  call _ := .none
  use _ := .free
  asyncMsgFree := free
  gives _ := 0
  firing := []

end Code
end ArmFirmware.Zephyr.Mailbox
