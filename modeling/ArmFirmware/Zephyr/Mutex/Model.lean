import ArmFirmware.Library.Trace
import ArmFirmware.Library.WaitQueue

/-! The mutexes of `kernel/mutex.c` with priority inheritance. A step is one call up to the point
where it gives up the lock of the module, the timeout of a waiting thread, or the end of a call
that has timed out, which runs when its thread does. -/
namespace ArmFirmware.Zephyr.Mutex
open Library Function

def EPERM : ℤ := 1
def EAGAIN : ℤ := 11
def EBUSY : ℤ := 16
def EINVAL : ℤ := 22

/-- `struct k_mutex`. `owner_orig_prio` is only ever assigned from the `int8_t` of a thread. -/
structure KMutex (τ : Type*) where
  owner : Option τ
  /-- A `uint32_t`. -/
  lockCount : ℕ
  ownerOrigPrio : Int8
  waitQ : List τ

/-- The mutexes, and of the threads `base.prio` (a lower number is a higher priority),
`base.pended_on`, and the mutex whose lock has timed out while the call has not ended yet. -/
structure State (μ τ : Type*) where
  mutexes : μ → KMutex τ
  prio : τ → Int8
  pendedOn : τ → Option μ
  timedOut : τ → Option μ

/-- `sooner` tells which threads of the priority of the caller have a later deadline
(CONFIG_SCHED_DEADLINE; without it there are none). -/
inductive Action (μ τ : Type*)
  | lock (thread : τ) (mutex : μ) (wait : Bool) (sooner : τ → Bool)
  | unlock (thread : τ) (mutex : μ)
  /-- `z_thread_timeout`. -/
  | timeout (thread : τ)
  /-- What `k_mutex_lock` does after its wait has timed out. -/
  | lockEnd (thread : τ)

inductive Reply (τ : Type*)
  | ret (r : ℤ)
  | pended
  /-- The mutex was given up, to the new owner if there is one. -/
  | unlocked (newOwner : Option τ)
  | expired
  deriving DecidableEq

def newPrioWithCeiling (ceiling prio : ℤ) : ℤ := if ceiling ≤ prio then prio else ceiling

def newPrioForInheritance (ceiling target limit : ℤ) : ℤ :=
  newPrioWithCeiling ceiling (if target < limit then target else limit)

def init {μ τ : Type*} (base : τ → Int8) : State μ τ :=
  ⟨fun _ => ⟨none,0,0,[]⟩,base,fun _ => none,fun _ => none⟩

namespace State
variable {μ τ : Type*} [DecidableEq μ] [DecidableEq τ] (s : State μ τ)

@[simps -fullyApplied]
def setMutex (m : μ) (mutex : KMutex τ) : State μ τ :=
  {s with mutexes := update s.mutexes m mutex}

@[simps -fullyApplied]
def threadPrioSet (t : τ) (prio : ℤ) : State μ τ :=
  {s with prio := update s.prio t (Int8.ofInt prio)}

def adjustOwnerPrio (owner : τ) (newPrio : ℤ) : State μ τ :=
  if (s.prio owner).toInt ≠ newPrio then s.threadPrioSet owner newPrio else s

def outranks (t : τ) (sooner : τ → Bool) (u : τ) : Bool :=
  (s.prio t).toInt < (s.prio u).toInt || (s.prio t == s.prio u && sooner u)

@[simps -fullyApplied]
def pend (t : τ) (m : μ) (sooner : τ → Bool) : State μ τ :=
  let mutex := s.mutexes m
  {s with
    mutexes := update s.mutexes m
      {mutex with waitQ := WaitQueue.pend (s.outranks t sooner) t mutex.waitQ}
    pendedOn := update s.pendedOn t (some m)}

@[simps! -fullyApplied]
def take (t : τ) (m : μ) : State μ τ :=
  let mutex := s.mutexes m
  s.setMutex m {mutex with
    owner := some t
    lockCount := (mutex.lockCount+1) % 2^32
    ownerOrigPrio := if mutex.lockCount = 0 then s.prio t else mutex.ownerOrigPrio}

def boost (ceiling : ℤ) (t owner : τ) : State μ τ :=
  let newPrio := newPrioForInheritance ceiling (s.prio t).toInt (s.prio owner).toInt
  if newPrio < (s.prio owner).toInt then s.adjustOwnerPrio owner newPrio else s

def kMutexLock (ceiling : ℤ) (t : τ) (m : μ) (wait : Bool) (sooner : τ → Bool) : Option (State μ τ × Reply τ) :=
  let mutex := s.mutexes m
  if mutex.lockCount = 0 ∨ mutex.owner = some t then some (s.take t m,.ret 0)
  else if !wait then some (s,.ret (-EBUSY))
  else mutex.owner.map fun owner => ((s.boost ceiling t owner).pend t m sooner,.pended)

/-- The first thread of the wait queue becomes the owner. `lock_count` stays. -/
@[simps -fullyApplied]
def handOver (m : μ) (newOwner : τ) (waitQ : List τ) : State μ τ :=
  let mutex := s.mutexes m
  {s with
    mutexes := update s.mutexes m
      {mutex with owner := some newOwner, ownerOrigPrio := s.prio newOwner, waitQ}
    pendedOn := update s.pendedOn newOwner none}

def kMutexUnlock (t : τ) (m : μ) : Option (State μ τ × Reply τ) :=
  let mutex := s.mutexes m
  match mutex.owner with
  | none => some (s,.ret (-EINVAL))
  | some owner =>
    if owner ≠ t then some (s,.ret (-EPERM))
    -- the assertion of the source
    else if mutex.lockCount = 0 then none
    else if 1 < mutex.lockCount then
      some (s.setMutex m {mutex with lockCount := mutex.lockCount-1},.ret 0)
    else
      let s := s.adjustOwnerPrio t mutex.ownerOrigPrio.toInt
      match mutex.waitQ with
      | newOwner::waitQ => some (s.handOver m newOwner waitQ,.unlocked (some newOwner))
      | [] => some (s.setMutex m {mutex with owner := none, lockCount := 0},.unlocked none)

@[simps -fullyApplied]
def expire (t : τ) (m : μ) : State μ τ :=
  let mutex := s.mutexes m
  {s with
    mutexes := update s.mutexes m {mutex with waitQ := mutex.waitQ.erase t}
    pendedOn := update s.pendedOn t none
    timedOut := update s.timedOut t (some m)}

def lowered (ceiling : ℤ) (m : μ) : ℤ :=
  let mutex := s.mutexes m
  match mutex.waitQ with
  | [] => mutex.ownerOrigPrio.toInt
  | waiter::_ => newPrioForInheritance ceiling (s.prio waiter).toInt mutex.ownerOrigPrio.toInt

def kMutexLockEnd (ceiling : ℤ) (t : τ) (m : μ) : State μ τ :=
  let s := {s with timedOut := update s.timedOut t none}
  match (s.mutexes m).owner with
  | none => s
  | some owner => s.adjustOwnerPrio owner (s.lowered ceiling m)

end State

section Steps
variable {μ τ : Type*} [DecidableEq μ] [DecidableEq τ] (ceiling : ℤ)

def step (s : State μ τ) : Action μ τ → Option (State μ τ × Reply τ)
  | .lock t m wait sooner => s.kMutexLock ceiling t m wait sooner
  | .unlock t m => s.kMutexUnlock t m
  | .timeout t => (s.pendedOn t).map fun m => (s.expire t m,.expired)
  | .lockEnd t => (s.timedOut t).map fun m => (s.kMutexLockEnd ceiling t m,.ret (-EAGAIN))

/-- A thread in a call makes no other one; only threads that wait time out, and only calls that
have timed out end so. No owner locks its mutex 2^32 times. -/
def Meets (s : State μ τ) : Action μ τ → Prop
  | .lock t m _ _ => s.pendedOn t = none ∧ s.timedOut t = none ∧
      ((s.mutexes m).owner = some t → (s.mutexes m).lockCount+1 < 2^32)
  | .unlock t _ => s.pendedOn t = none ∧ s.timedOut t = none
  | .timeout t => s.pendedOn t ≠ none
  | .lockEnd t => s.timedOut t ≠ none

instance (s : State μ τ) (a : Action μ τ) : Decidable (Meets s a) := by
  unfold Meets
  split <;> infer_instance

end Steps
end ArmFirmware.Zephyr.Mutex
