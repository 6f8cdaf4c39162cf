import ArmFirmware.Library.Trace

/-! The work queues of `kernel/work.c`. A step is one critical section under `lock`: a call up
to the point where its thread blocks or returns, one of the two critical sections of a queue
thread, the end of a wait, or one of the two halves of a timeout: `sys_clock_announce` unlinks
it, and later runs `work_timeout`. -/
namespace ArmFirmware.Zephyr.Work
open Function Library

def EBUSY : ℤ := 16
def ENODEV : ℤ := 19
def EINVAL : ℤ := 22
def EALREADY : ℤ := 120

/-- What the pending lists hold: the work items, and the sentinels of the `k_work_sync` objects
that callers of a flush wait with. -/
inductive Node (ι ς : Type*)
  | item (i : ι)
  | flusher (c : ς)
  deriving DecidableEq

instance {ι ς : Type*} [DecidableEq ι] [DecidableEq ς] : LawfulBEq (Node ι ς) := inferInstance

/-- The flags of `struct k_work` in `K_WORK_MASK`. -/
structure Flags where
  running : Bool
  canceling : Bool
  queued : Bool
  delayed : Bool
  flushing : Bool
  deriving DecidableEq

/-- `work_busy_get_locked` is not zero. -/
def Flags.busy (f : Flags) : Bool :=
  f.running || f.canceling || f.queued || f.delayed || f.flushing

/-- Where the thread of a queue is in `work_queue_main`. -/
inductive QueueThread (ι ς : Type*)
  | ready
  | waiting
  | running (n : Node ι ς)
  deriving DecidableEq

/-- `struct k_work_q`; of `notifyq` only whether the queue's thread waits there. -/
structure WorkQ (ι ς δ : Type*) where
  started : Bool
  busy : Bool
  drain : Bool
  plugged : Bool
  pending : List (Node ι ς)
  thread : QueueThread ι ς
  drainq : List δ

/-- The work items `ι`, the queues `κ`, the `k_work_sync` objects `ς` and the threads `δ` that
drain queues. A caller of a flush or a synchronous cancel waits with a sync object, those that
do are in `blocked`. Of a delayable item, `dqueue` is its own queue pointer and `due` the tick
at which its timeout ends while it is linked; `firing` is the item whose timeout was unlinked
and whose `work_timeout` has still to run. -/
structure State (ι κ ς δ : Type*) where
  flags : Node ι ς → Flags
  queue : ι → Option κ
  queues : κ → WorkQ ι ς δ
  pendingCancels : List (ς × ι)
  sem : ς → Bool
  blocked : List ς
  dqueue : ι → Option κ
  due : ι → Option ℕ
  firing : Option ι
  now : ℕ

inductive Delay
  | noWait
  | ticks (n : ℕ)
  | forever
  deriving DecidableEq

/-- The calls, the steps of the queue threads and of the clock. `caller` is the queue whose
thread makes the call, if one does and not from an interrupt. -/
inductive Action (ι κ ς δ : Type*)
  | submit (caller queue : Option κ) (i : ι)
  | cancel (i : ι)
  | cancelSync (c : ς) (i : ι)
  | flush (c : ς) (i : ι)
  | drain (d : δ) (q : κ) (plug : Bool)
  | unplug (q : κ)
  | start (q : κ)
  | schedule (caller queue : Option κ) (i : ι) (delay : Delay)
  | reschedule (caller queue : Option κ) (i : ι) (delay : Delay)
  | cancelDelayable (i : ι)
  | cancelDelayableSync (c : ς) (i : ι)
  | flushDelayable (caller : Option κ) (c : ς) (i : ι)
  | take (q : κ)
  | finish (q : κ)
  | resume (c : ς)
  | announce (i : ι)
  | workTimeout
  | tick

inductive Reply (ι ς δ : Type*)
  | ret (r : ℤ)
  | flags (f : Flags)
  | returned (b : Bool)
  | blocked
  | took (n : Node ι ς)
  | idle (woken : List δ)
  | ran (n : Node ι ς)
  | none
  deriving DecidableEq

section Functions
variable {ι κ ς δ : Type*} [DecidableEq ι] [DecidableEq κ] [DecidableEq ς]

def init : State ι κ ς δ where
  flags _ := ⟨false,false,false,false,false⟩
  queue _ := none
  queues _ := ⟨false,false,false,false,[],.waiting,[]⟩
  pendingCancels := []
  sem _ := false
  blocked := []
  dqueue _ := none
  due _ := none
  firing := none
  now := 0

namespace State

def setFlags (s : State ι κ ς δ) (n : Node ι ς) (f : Flags) : State ι κ ς δ :=
  {s with flags := update s.flags n f}

def setQueue (s : State ι κ ς δ) (q : κ) (w : WorkQ ι ς δ) : State ι κ ς δ :=
  {s with queues := update s.queues q w}

/-- `notify_queue_locked` wakes the thread of the queue if it waits. -/
def notifyQueueLocked (s : State ι κ ς δ) (q : κ) : State ι κ ς δ :=
  match (s.queues q).thread with
  | .waiting => s.setQueue q {s.queues q with thread := .ready}
  | _ => s

def insertAfter (m n : Node ι ς) : List (Node ι ς) → List (Node ι ς)
  | [] => []
  | x::l => if x = m then x::n::l else x::insertAfter m n l

def queueFlusherLocked (s : State ι κ ς δ) (q : κ) (i : ι) (c : ς) : State ι κ ς δ :=
  let w := s.queues q
  let pending := if .item i ∈ w.pending then insertAfter (.item i) (.flusher c) w.pending
    else .flusher c::w.pending
  {(s.setFlags (.flusher c) ⟨false,false,false,false,true⟩).setQueue q {w with pending} with
    sem := update s.sem c false}

/-- `queue_remove_locked`; an item that is queued has a queue. -/
def queueRemoveLocked (s : State ι κ ς δ) (i : ι) : State ι κ ς δ :=
  let f := s.flags (.item i)
  if f.queued then
    let s := s.setFlags (.item i) {f with queued := false}
    match s.queue i with
    | some q => s.setQueue q {s.queues q with pending := (s.queues q).pending.erase (.item i)}
    | none => s
  else s

def queueSubmitLocked (s : State ι κ ς δ) (caller queue : Option κ) (i : ι) : State ι κ ς δ × ℤ :=
  match queue with
  | none => (s,-EINVAL)
  | some q =>
    let w := s.queues q
    let chained := caller = some q
    if !w.started then (s,-ENODEV)
    else if w.drain ∧ ¬chained then (s,-EBUSY)
    else if w.plugged ∧ !w.drain then (s,-EBUSY)
    else ((s.setQueue q {w with pending := w.pending++[.item i]}).notifyQueueLocked q,1)

def submitToQueueLocked (s : State ι κ ς δ) (caller queue : Option κ) (i : ι) : State ι κ ς δ × ℤ :=
  let f := s.flags (.item i)
  if f.canceling then (s,-EBUSY)
  else if f.queued then (s,0)
  else
    -- a running item goes to the queue that runs it
    let queue := if f.running then s.queue i else queue <|> s.queue i
    let ret := if f.running then 2 else 1
    let (s,rc) := s.queueSubmitLocked caller queue i
    if rc < 0 then (s,rc)
    else ({s.setFlags (.item i) {f with queued := true} with queue := update s.queue i queue},ret)

/-- `work_flush_locked`; an item that is queued or runs has a queue. -/
def workFlushLocked (s : State ι κ ς δ) (c : ς) (i : ι) : State ι κ ς δ × Bool :=
  let f := s.flags (.item i)
  if f.queued || f.running then
    match s.queue i with
    | some q => ((s.queueFlusherLocked q i c).notifyQueueLocked q,true)
    | none => (s,true)
  else (s,false)

def cancelAsyncLocked (s : State ι κ ς δ) (i : ι) : State ι κ ς δ :=
  let s := if (s.flags (.item i)).canceling then s else s.queueRemoveLocked i
  let f := s.flags (.item i)
  if f.busy then s.setFlags (.item i) {f with canceling := true} else s

def cancelSyncLocked (s : State ι κ ς δ) (c : ς) (i : ι) : State ι κ ς δ × Bool :=
  if (s.flags (.item i)).canceling then
    ({s with sem := update s.sem c false, pendingCancels := s.pendingCancels++[(c,i)]},true)
  else (s,false)

/-- `unschedule_locked`: whether `z_abort_timeout` found the timeout linked. -/
def unscheduleLocked (s : State ι κ ς δ) (i : ι) : State ι κ ς δ × Bool :=
  let f := s.flags (.item i)
  if f.delayed then
    let s := s.setFlags (.item i) {f with delayed := false}
    if (s.due i).isSome then ({s with due := update s.due i none},true) else (s,false)
  else (s,false)

/-- `schedule_for_queue_locked`; `z_add_timeout` rounds up to the next tick. -/
def scheduleForQueueLocked (s : State ι κ ς δ) (caller queue : Option κ) (i : ι) (delay : Delay) :
    State ι κ ς δ × ℤ :=
  match delay with
  | .noWait => s.submitToQueueLocked caller queue i
  | .ticks n =>
    ({s.setFlags (.item i) {s.flags (.item i) with delayed := true} with
        dqueue := update s.dqueue i queue
        due := update s.due i (some (s.now+n+1))},1)
  | .forever =>
    ({s.setFlags (.item i) {s.flags (.item i) with delayed := true} with
        dqueue := update s.dqueue i queue},1)

def cancelDelayableAsyncLocked (s : State ι κ ς δ) (i : ι) : State ι κ ς δ :=
  (s.unscheduleLocked i).1.cancelAsyncLocked i

/-- The waiting end of a call that has left its sync object with the queue or the item. -/
def wait (s : State ι κ ς δ) (c : ς) (needWait pending : Bool) : State ι κ ς δ × Reply ι ς δ :=
  if needWait then ({s with blocked := s.blocked++[c]},.blocked) else (s,.returned pending)

def finalizeFlushLocked (s : State ι κ ς δ) (n : Node ι ς) : State ι κ ς δ :=
  let s := s.setFlags n {s.flags n with flushing := false}
  match n with
  | .flusher c => {s with sem := update s.sem c true}
  | .item _ => s

/-- `finalize_cancel_locked`: the loop leaves at the first canceller of the item. -/
def finalizeCancelLocked (s : State ι κ ς δ) (n : Node ι ς) : State ι κ ς δ :=
  let s := s.setFlags n {s.flags n with canceling := false}
  match s.pendingCancels.find? fun p => .item p.2 = n with
  | some p =>
    {s with
      pendingCancels := s.pendingCancels.eraseP fun p => .item p.2 = n
      sem := update s.sem p.1 true}
  | none => s

/-- The first critical section of `work_queue_main`. -/
def takeStep (s : State ι κ ς δ) (q : κ) : State ι κ ς δ × Reply ι ς δ :=
  let w := s.queues q
  match w.pending with
  | n::pending =>
    ((s.setFlags n {s.flags n with running := true, queued := false}).setQueue q
      {w with busy := true, pending, thread := .running n},.took n)
  | [] =>
    if w.drain then
      (s.setQueue q {w with drain := false, drainq := [], thread := .waiting},.idle w.drainq)
    else (s.setQueue q {w with thread := .waiting},.idle [])

/-- The second critical section of `work_queue_main`, after the handler of `n`. -/
def finishStep (s : State ι κ ς δ) (q : κ) (n : Node ι ς) : State ι κ ς δ × Reply ι ς δ :=
  let s := s.setFlags n {s.flags n with running := false}
  let s := if (s.flags n).flushing then s.finalizeFlushLocked n else s
  let s := if (s.flags n).canceling then s.finalizeCancelLocked n else s
  (s.setQueue q {s.queues q with busy := false, thread := .ready},.ran n)

def kWorkQueueDrain (s : State ι κ ς δ) (d : δ) (q : κ) (plug : Bool) : State ι κ ς δ × Reply ι ς δ :=
  let w := s.queues q
  if w.busy || w.drain || plug || !w.pending.isEmpty then
    let s := (s.setQueue q {w with drain := true, plugged := w.plugged || plug}).notifyQueueLocked q
    (s.setQueue q {s.queues q with drainq := w.drainq++[d]},.blocked)
  else (s,.ret 0)

def kWorkQueueUnplug (s : State ι κ ς δ) (q : κ) : State ι κ ς δ × Reply ι ς δ :=
  let w := s.queues q
  (s.setQueue q {w with plugged := false},.ret (if w.plugged then 0 else -EALREADY))

def kWorkQueueStart (s : State ι κ ς δ) (q : κ) : State ι κ ς δ × Reply ι ς δ :=
  (s.setQueue q ⟨true,false,false,false,[],.ready,[]⟩,.none)

def kWorkCancelSync (s : State ι κ ς δ) (c : ς) (i : ι) : State ι κ ς δ × Reply ι ς δ :=
  if (s.flags (.item i)).busy then
    let (s,needWait) := (s.cancelAsyncLocked i).cancelSyncLocked c i
    s.wait c needWait true
  else (s,.returned false)

def kWorkFlush (s : State ι κ ς δ) (c : ς) (i : ι) : State ι κ ς δ × Reply ι ς δ :=
  let (s,needFlush) := s.workFlushLocked c i
  s.wait c needFlush false

def kWorkScheduleForQueue (s : State ι κ ς δ) (caller queue : Option κ) (i : ι) (delay : Delay) :
    State ι κ ς δ × Reply ι ς δ :=
  if {s.flags (.item i) with running := false}.busy then (s,.ret 0)
  else
    let (s,ret) := s.scheduleForQueueLocked caller queue i delay
    (s,.ret ret)

def kWorkRescheduleForQueue (s : State ι κ ς δ) (caller queue : Option κ) (i : ι) (delay : Delay) :
    State ι κ ς δ × Reply ι ς δ :=
  let (s,ret) := (s.unscheduleLocked i).1.scheduleForQueueLocked caller queue i delay
  (s,.ret ret)

def kWorkCancelDelayableSync (s : State ι κ ς δ) (c : ς) (i : ι) : State ι κ ς δ × Reply ι ς δ :=
  if (s.flags (.item i)).busy then
    let (s,needWait) := (s.cancelDelayableAsyncLocked i).cancelSyncLocked c i
    s.wait c needWait true
  else (s,.returned false)

def kWorkFlushDelayable (s : State ι κ ς δ) (caller : Option κ) (c : ς) (i : ι) : State ι κ ς δ × Reply ι ς δ :=
  if (s.flags (.item i)).busy then
    let (s,unscheduled) := s.unscheduleLocked i
    let s := if unscheduled then (s.submitToQueueLocked caller (s.dqueue i) i).1 else s
    let (s,needFlush) := s.workFlushLocked c i
    s.wait c needFlush false
  else (s,.returned false)

def workTimeout (s : State ι κ ς δ) (i : ι) : State ι κ ς δ :=
  let f := s.flags (.item i)
  let s := {s with firing := none}
  if f.delayed then
    let s := s.setFlags (.item i) {f with delayed := false}
    (s.submitToQueueLocked none (s.dqueue i) i).1
  else s

end State

open State

def step (s : State ι κ ς δ) : Action ι κ ς δ → Option (State ι κ ς δ × Reply ι ς δ)
  | .submit caller queue i =>
    let (s,ret) := s.submitToQueueLocked caller queue i
    some (s,.ret ret)
  | .cancel i =>
    let s := s.cancelAsyncLocked i
    some (s,.flags (s.flags (.item i)))
  | .cancelSync c i => some (s.kWorkCancelSync c i)
  | .flush c i => some (s.kWorkFlush c i)
  | .drain d q plug => some (s.kWorkQueueDrain d q plug)
  | .unplug q => some (s.kWorkQueueUnplug q)
  | .start q => some (s.kWorkQueueStart q)
  | .schedule caller queue i delay => some (s.kWorkScheduleForQueue caller queue i delay)
  | .reschedule caller queue i delay => some (s.kWorkRescheduleForQueue caller queue i delay)
  | .cancelDelayable i =>
    let s := s.cancelDelayableAsyncLocked i
    some (s,.flags (s.flags (.item i)))
  | .cancelDelayableSync c i => some (s.kWorkCancelDelayableSync c i)
  | .flushDelayable caller c i => some (s.kWorkFlushDelayable caller c i)
  | .take q => some (s.takeStep q)
  | .finish q =>
    match (s.queues q).thread with
    | .running n => some (s.finishStep q n)
    | _ => none
  | .resume c =>
    some ({s with sem := update s.sem c false, blocked := s.blocked.erase c},.returned true)
  | .announce i => some ({s with due := update s.due i none, firing := some i},.none)
  | .workTimeout => s.firing.map fun i => (s.workTimeout i,.none)
  | .tick => some ({s with now := s.now+1},.none)

/-- When a step can happen. Callers keep to the interface: `k_work_cancel`, its synchronous
variant and `k_work_flush` are for items that are not delayable, a sync object is not used
while its last caller waits, and a queue is started once. A drain that plugs always waits, and
the list it waits in is set up when the queue is started. -/
def Meets (delayable : ι → Bool) (s : State ι κ ς δ) : Action ι κ ς δ → Prop
  | .submit _ _ _ => True
  | .cancel i => !delayable i
  | .cancelSync c i => !delayable i ∧ c ∉ s.blocked
  | .flush c i => !delayable i ∧ c ∉ s.blocked
  | .drain _ q plug => plug → (s.queues q).started
  | .unplug _ => True
  | .start q => !(s.queues q).started
  | .schedule _ _ i _ => delayable i
  | .reschedule _ _ i _ => delayable i
  | .cancelDelayable i => delayable i
  | .cancelDelayableSync c i => delayable i ∧ c ∉ s.blocked
  | .flushDelayable _ c i => delayable i ∧ c ∉ s.blocked
  | .take q => (s.queues q).started ∧ (s.queues q).thread = .ready
  | .finish q => ∃ n, (s.queues q).thread = .running n
  | .resume c => c ∈ s.blocked ∧ s.sem c
  | .announce i => s.firing = none ∧ ∃ d, s.due i = some d ∧ d ≤ s.now
  | .workTimeout => s.firing.isSome
  | .tick => True

instance (q : QueueThread ι ς) : Decidable (∃ n, q = .running n) :=
  match q with
  | .running n => isTrue ⟨n,rfl⟩
  | .ready | .waiting => isFalse (by simp)

instance (delayable : ι → Bool) (s : State ι κ ς δ) (a : Action ι κ ς δ) : Decidable (Meets delayable s a) := by
  unfold Meets
  split <;> infer_instance

/-- At the end of a cancelled run there is at most one canceller. -/
def OneCanceller (s : State ι κ ς δ) : Action ι κ ς δ → Prop
  | .finish q =>
    match (s.queues q).thread with
    | .running (.item i) =>
      (s.flags (.item i)).canceling → s.pendingCancels.countP (fun p => p.2 = i) ≤ 1
    | _ => True
  | _ => True

instance (s : State ι κ ς δ) (a : Action ι κ ς δ) : Decidable (OneCanceller s a) := by
  unfold OneCanceller
  repeat' split
  all_goals infer_instance

/-- While the `work_timeout` of an item is outstanding no delay is set for it, and it is not
flushed if its submission would be taken. -/
def Unhurried (s : State ι κ ς δ) : Action ι κ ς δ → Prop
  | .schedule _ _ i delay => s.firing = some i →
      delay = .noWait ∨ {s.flags (.item i) with running := false}.busy = true
  | .reschedule _ _ i delay => s.firing = some i → delay = .noWait
  | .flushDelayable _ _ i => s.firing = some i → (s.flags (.item i)).delayed = true →
      (s.submitToQueueLocked none (s.dqueue i) i).2 ≤ 0
  | _ => True

instance (s : State ι κ ς δ) (a : Action ι κ ς δ) : Decidable (Unhurried s a) := by
  unfold Unhurried
  split <;> infer_instance

end Functions

/-- What the steps are made of: a critical section is a sequence of a few effects on the state, each
under a condition that the code has checked before. -/
inductive Effect (ι κ ς δ : Type*)
  | enqueue (caller : Option κ) (q : κ) (i : ι)
  | dequeue (q : κ) (i : ι)
  | startCancel (i : ι)
  | register (c : ς) (i : ι)
  | insertFlusher (c : ς) (q : κ) (i : ι)
  | take (q : κ) (n : Node ι ς)
  | finish (q : κ) (n : Node ι ς)
  | idle (q : κ)
  | drain (d : δ) (q : κ) (plug : Bool)
  | unplug (q : κ)
  | start (q : κ)
  | resume (c : ς)
  | delay (i : ι) (queue : Option κ) (n : Option ℕ)
  | undelay (i : ι)
  | announce (i : ι)
  | expire (i : ι)
  | tick

section Effects
variable {ι κ ς δ : Type*} [DecidableEq ι] [DecidableEq κ] [DecidableEq ς]

namespace Effect
open State

def apply (s : State ι κ ς δ) : Effect ι κ ς δ → State ι κ ς δ
  | enqueue _ q i =>
    let t := (s.setQueue q {s.queues q with pending := (s.queues q).pending++[.item i]}).notifyQueueLocked q
    {t.setFlags (.item i) {s.flags (.item i) with queued := true} with
      queue := update s.queue i (some q)}
  | dequeue q i =>
    (s.setFlags (.item i) {s.flags (.item i) with queued := false}).setQueue q
      {s.queues q with pending := (s.queues q).pending.erase (.item i)}
  | startCancel i => s.setFlags (.item i) {s.flags (.item i) with canceling := true}
  | register c i =>
    {s with
      sem := update s.sem c false
      pendingCancels := s.pendingCancels++[(c,i)]
      blocked := s.blocked++[c]}
  | insertFlusher c q i =>
    let t := (s.queueFlusherLocked q i c).notifyQueueLocked q
    {t with blocked := t.blocked++[c]}
  | take q _ => (s.takeStep q).1
  | finish q n => (s.finishStep q n).1
  | idle q => (s.takeStep q).1
  | drain d q plug =>
    let w := s.queues q
    let t := (s.setQueue q {w with drain := true, plugged := w.plugged || plug}).notifyQueueLocked q
    t.setQueue q {t.queues q with drainq := w.drainq++[d]}
  | unplug q => s.setQueue q {s.queues q with plugged := false}
  | start q => s.setQueue q ⟨true,false,false,false,[],.ready,[]⟩
  | resume c => {s with sem := update s.sem c false, blocked := s.blocked.erase c}
  | delay i queue n =>
    {s.setFlags (.item i) {s.flags (.item i) with delayed := true} with
      dqueue := update s.dqueue i queue
      -- without end, no timeout is added
      due := match n with
        | some n => update s.due i (some (s.now+n+1))
        | none => s.due}
  | undelay i =>
    {s.setFlags (.item i) {s.flags (.item i) with delayed := false} with
      due := update s.due i none}
  | announce i => {s with due := update s.due i none, firing := some i}
  | expire i => {s.setFlags (.item i) {s.flags (.item i) with delayed := false} with firing := none}
  | tick => {s with now := s.now+1}

/-- What the code has checked when it comes to an effect. -/
def Allowed (delayable : ι → Bool) (s : State ι κ ς δ) : Effect ι κ ς δ → Prop
  | enqueue caller q i =>
    (s.flags (.item i)).canceling = false ∧ (s.flags (.item i)).queued = false ∧
      ((s.flags (.item i)).running = true → s.queue i = some q) ∧ (s.queues q).started = true ∧
      ((s.queues q).drain = true → caller = some q)
  | dequeue q i =>
    (s.flags (.item i)).canceling = false ∧ (s.flags (.item i)).queued = true ∧ s.queue i = some q
  | startCancel i => (s.flags (.item i)).running = true ∧ (s.flags (.item i)).queued = false
  | register c i => (s.flags (.item i)).canceling = true ∧ c ∉ s.blocked
  | insertFlusher c q i =>
    ((s.flags (.item i)).queued = true ∨ (s.flags (.item i)).running = true) ∧
      s.queue i = some q ∧ c ∉ s.blocked
  | take q n => (s.queues q).started = true ∧ (s.queues q).thread = .ready ∧
      ∃ rest, (s.queues q).pending = n::rest
  | finish q n => (s.queues q).thread = .running n
  | idle q => (s.queues q).started = true ∧ (s.queues q).thread = .ready ∧ (s.queues q).pending = []
  | drain _ q _ => (s.queues q).started = true
  | unplug _ => True
  | start q => (s.queues q).started = false
  | resume c => c ∈ s.blocked ∧ s.sem c = true
  | delay i _ _ => delayable i = true ∧ (s.flags (.item i)).delayed = false
  | undelay i => (s.flags (.item i)).delayed = true
  | announce i => s.firing = none ∧ ∃ d, s.due i = some d ∧ d ≤ s.now
  | expire i => s.firing = some i
  | tick => True

end Effect
end Effects

end ArmFirmware.Zephyr.Work
