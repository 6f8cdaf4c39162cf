import ArmFirmware.Zephyr.Mutex.Steps

/-! Condition variables (`kernel/condvar.c`) over the mutexes of `kernel/mutex.c`. The lock of the
module is held from before the mutex is unlocked until the thread waits. Timeouts take two steps:
`sys_clock_announce` takes one off the list, and later its `z_thread_timeout` runs. -/
namespace ArmFirmware.Zephyr.Condvar
open Library Function

/-- Where a thread is in `k_condvar_wait`, with the mutex and the lock count it called with. -/
inductive Call (μ κ : Type*)
  | none
  /-- It has unlocked the mutex and holds the lock of the module. -/
  | released (condvar : κ) (mutex : μ) (count : ℕ) (forever : Bool)
  | pended (condvar : κ) (mutex : μ) (count : ℕ)
  /-- The wait is over. -/
  | woken (mutex : μ) (count : ℕ)
  /-- It waits for the mutex, with K_FOREVER. -/
  | relocking (mutex : μ) (count : ℕ)
  deriving DecidableEq

/-- The mutex and the count of a call that has unlocked the mutex and not returned. -/
def Call.mutex {μ κ : Type*} : Call μ κ → Option (μ × ℕ)
  | .none => Option.none
  | .released _ m n _ | .pended _ m n | .woken m n | .relocking m n => some (m,n)

/-- Mutexes, condition variables and where each thread is in its calls. -/
structure State (μ τ κ : Type*) where
  mutex : Mutex.State μ τ
  waitQ : κ → List τ
  call : τ → Call μ κ
  /-- The thread that holds the lock of the module. -/
  lock : Option τ
  /-- The timeout of the thread is in the list. -/
  linked : τ → Bool
  /-- The threads whose `z_thread_timeout` is still to run. -/
  firing : List τ

/-- As for mutexes, `sooner` breaks ties among equal priorities. -/
inductive Action (μ τ κ : Type*)
  | lock (thread : τ) (mutex : μ) (wait forever : Bool) (sooner : τ → Bool)
  | unlock (thread : τ) (mutex : μ)
  /-- `k_condvar_wait` until the mutex is unlocked. -/
  | wait (thread : τ) (condvar : κ) (mutex : μ) (forever : Bool)
  /-- The `z_pend_curr` of `k_condvar_wait`. -/
  | pend (thread : τ) (sooner : τ → Bool)
  /-- The `k_mutex_lock` of `k_condvar_wait`. -/
  | relock (thread : τ) (sooner : τ → Bool)
  | signal (condvar : κ)
  | broadcast (condvar : κ)
  | announce (thread : τ)
  /-- `z_thread_timeout`. -/
  | fire (thread : τ)
  /-- What `k_mutex_lock` does after its wait has timed out. -/
  | lockEnd (thread : τ)

inductive Reply (τ : Type*)
  | none
  | mutex (reply : Mutex.Reply τ)
  | woken (threads : List τ)
  deriving DecidableEq

def init {μ τ κ : Type*} (base : τ → Int8) : State μ τ κ :=
  ⟨Mutex.init base,fun _ => [],fun _ => .none,none,fun _ => false,[]⟩

namespace State
variable {μ τ κ : Type*} [DecidableEq μ] [DecidableEq τ] [DecidableEq κ] (s : State μ τ κ)

/-- `k_mutex_unlock`. A thread that gets the mutex has its timeout aborted, and if it is in
`k_condvar_wait` that call returns. -/
def unlockMutex (t : τ) (m : μ) : Option (State μ τ κ × Mutex.Reply τ) :=
  (s.mutex.kMutexUnlock t m).map fun (mutex,reply) =>
    (match reply with
      | .unlocked (some n) =>
        {s with mutex
                call := update s.call n .none
                linked := update s.linked n false}
      | _ => {s with mutex},reply)

def wakes (c : κ) (threads rest : List τ) : State μ τ κ :=
  {s with
    waitQ := update s.waitQ c rest
    call := fun t => match s.call t with
      | .pended _ m n => if t ∈ threads then .woken m n else s.call t
      | call => call
    linked := fun t => if t ∈ threads then false else s.linked t}

def kCondvarSignal (c : κ) : State μ τ κ × Reply τ :=
  (s.wakes c ((s.waitQ c).take 1) ((s.waitQ c).drop 1),.woken ((s.waitQ c).take 1))

def kCondvarBroadcast (c : κ) : State μ τ κ × Reply τ :=
  (s.wakes c (s.waitQ c) [],.woken (s.waitQ c))

def wakeThread (t : τ) : State μ τ κ :=
  match s.call t with
  | .pended c m n =>
    {s with waitQ := update s.waitQ c ((s.waitQ c).erase t)
            call := update s.call t (.woken m n)}
  | _ =>
    match s.mutex.pendedOn t with
    | some m => {s with mutex := s.mutex.expire t m}
    | none => s

end State

section Steps
variable {μ τ κ : Type*} [DecidableEq μ] [DecidableEq τ] [DecidableEq κ] (ceiling : ℤ)

def step (s : State μ τ κ) : Action μ τ κ → Option (State μ τ κ × Reply τ)
  | .lock t m wait forever sooner =>
    (s.mutex.kMutexLock ceiling t m wait sooner).map fun (mutex,reply) =>
      ({s with mutex
               linked := if reply = .pended then update s.linked t (!forever) else s.linked},
        .mutex reply)
  | .unlock t m => (s.unlockMutex t m).map fun (s,reply) => (s,.mutex reply)
  | .wait t c m forever =>
    let count := (s.mutex.mutexes m).lockCount
    (s.unlockMutex t m).map fun (s,reply) =>
      ({s with lock := some t
               call := update s.call t (.released c m count forever)},.mutex reply)
  | .pend t sooner =>
    match s.call t with
    | .released c m n forever =>
      some ({s with
        waitQ := update s.waitQ c
          (WaitQueue.pend (s.mutex.outranks t sooner) t (s.waitQ c))
        call := update s.call t (.pended c m n)
        lock := none
        linked := update s.linked t (!forever)},.none)
    | _ => none
  | .relock t sooner =>
    match s.call t with
    | .woken m n =>
      (s.mutex.kMutexLock ceiling t m true sooner).map fun (mutex,reply) =>
        ({s with mutex
                 call := update s.call t
                  (if reply = .pended then .relocking m n else .none)},.mutex reply)
    | _ => none
  | .signal c => some (s.kCondvarSignal c)
  | .broadcast c => some (s.kCondvarBroadcast c)
  | .announce t =>
    some ({s with linked := update s.linked t false, firing := t::s.firing},.none)
  | .fire t => some (State.wakeThread {s with firing := s.firing.erase t} t,.none)
  | .lockEnd t =>
    (s.mutex.timedOut t).map fun m =>
      ({s with mutex := s.mutex.kMutexLockEnd ceiling t m
               call := update s.call t .none},.mutex (.ret (-Mutex.EAGAIN)))

/-- A thread in a call makes no other one, and none runs with its timeout in the list;
`k_condvar_wait` is called by the owner of the mutex; calls that need the lock of the module find it
free; timeouts expire from the list. -/
def Meets (s : State μ τ κ) : Action μ τ κ → Prop
  | .lock t m wait _ sooner => s.call t = .none ∧ s.linked t = false ∧
      Mutex.Meets s.mutex (.lock t m wait sooner)
  | .unlock t m => s.call t = .none ∧ s.linked t = false ∧ Mutex.Meets s.mutex (.unlock t m)
  | .wait t _ m _ => s.call t = .none ∧ s.linked t = false ∧ Mutex.Meets s.mutex (.unlock t m) ∧
      s.lock = none ∧ (s.mutex.mutexes m).owner = some t
  | .pend t _ => ∃ c m n forever, s.call t = .released c m n forever
  | .relock t _ => s.linked t = false ∧ ∃ m n, s.call t = .woken m n ∧
      ((s.mutex.mutexes m).owner = some t → (s.mutex.mutexes m).lockCount+1 < 2^32)
  | .signal _ => s.lock = none
  | .broadcast _ => s.lock = none
  | .announce t => s.linked t = true
  | .fire t => t ∈ s.firing
  | .lockEnd t => s.linked t = false ∧ s.mutex.timedOut t ≠ none

/-- `k_condvar_wait` is called with a mutex that is locked once, and does not start to wait for it
while a `z_thread_timeout` of the thread is still to run. -/
def Careful (s : State μ τ κ) : Action μ τ κ → Prop
  | .wait _ _ m _ => (s.mutex.mutexes m).lockCount = 1
  | .relock t _ => t ∉ s.firing
  | _ => True

instance (s : State μ τ κ) (t : τ) : Decidable (∃ c m n forever, s.call t = .released c m n forever) :=
  match h : s.call t with
  | .released c m n forever => isTrue ⟨c,m,n,forever,rfl⟩
  | .none | .pended .. | .woken .. | .relocking .. => isFalse (by simp)

instance (s : State μ τ κ) (t : τ) : Decidable (∃ m n, s.call t = .woken m n ∧
    ((s.mutex.mutexes m).owner = some t → (s.mutex.mutexes m).lockCount+1 < 2^32)) :=
  match h : s.call t with
  | .woken m n =>
    decidable_of_iff ((s.mutex.mutexes m).owner = some t → (s.mutex.mutexes m).lockCount+1 < 2^32)
      ⟨fun hm => ⟨m,n,rfl,hm⟩,by rintro ⟨m',n',⟨⟩,hm⟩; exact hm⟩
  | .none | .pended .. | .released .. | .relocking .. => isFalse (by simp)

instance (s : State μ τ κ) (a : Action μ τ κ) : Decidable (Meets s a) := by
  unfold Meets
  split <;> infer_instance

instance (s : State μ τ κ) (a : Action μ τ κ) : Decidable (Careful s a) := by
  unfold Careful
  split <;> infer_instance

end Steps

/-! Runs of condition variables. The mutex is given up and taken back as the call promises, if it
was locked once, and if no late timeout ends the wait for it. -/

open List Option State Mutex

section MutexFrames
variable {μ τ : Type*} [DecidableEq μ] [DecidableEq τ] {ceiling : ℤ} {s s' : Mutex.State μ τ}
  {t : τ} {m : μ} {wait : Bool} {sooner : τ → Bool} {r : Mutex.Reply τ}

/-- What `k_mutex_lock` does to threads and owners: the caller waits, or it owns the mutex. -/
lemma lock_frame (h : Mutex.Outcome ceiling s (.lock t m wait sooner) s' r) :
    s'.timedOut = s.timedOut ∧ (∀ u, u ≠ t → s'.pendedOn u = s.pendedOn u) ∧
      (∀ m' u, u ≠ t → (s'.mutexes m').owner = some u → (s.mutexes m').owner = some u) ∧
      (r = .pended ∧ s'.pendedOn t = some m ∧ (∀ m', (s'.mutexes m').owner = (s.mutexes m').owner) ∨
        r ≠ .pended ∧ s'.pendedOn = s.pendedOn) := by
  cases h with
  | busy o owner ne => exact ⟨rfl,fun _ _ => rfl,fun _ _ _ hu => hu,.inr ⟨by simp,rfl⟩⟩
  | taken | deeper =>
    refine ⟨rfl,fun _ _ => rfl,fun m' u hut hu => ?_,.inr ⟨by simp,rfl⟩⟩
    by_cases hm' : m' = m
    · subst hm'
      exact absurd (by simpa using hu.symm) hut
    · simpa [hm'] using hu
  | waits o owner ne =>
    have howner : ∀ m', (((s.boost ceiling t o).pend t m sooner).mutexes m').owner = (s.mutexes m').owner := by
      intro m'
      by_cases hm' : m' = m
      · subst hm'
        simp
      · simp [hm']
    refine ⟨by simp,fun u hut => by simp [hut],fun m' u _ hu => howner m' ▸ hu,.inl ⟨rfl,by simp,howner⟩⟩

/-- What `k_mutex_unlock` does: at most the new owner is no longer pended, and owns the mutex once. -/
lemma unlock_frame (hwf : Mutex.Wf s) (h : Mutex.Outcome ceiling s (.unlock t m) s' r) :
    s'.timedOut = s.timedOut ∧ (∀ u, r ≠ .unlocked (some u) → s'.pendedOn u = s.pendedOn u) ∧
      (∀ m' u, r ≠ .unlocked (some u) → (s'.mutexes m').owner = some u → (s.mutexes m').owner = some u) ∧
      ∀ n, r = .unlocked (some n) → s.pendedOn n = some m ∧ s'.pendedOn n = none ∧
        (s'.mutexes m).owner = some n ∧ (s'.mutexes m).lockCount = 1 ∧
        ∀ m', m' ≠ m → s'.mutexes m' = s.mutexes m' := by
  cases h with
  | stray r owner neg => exact ⟨rfl,fun _ _ => rfl,fun _ _ _ hu => hu,by simp⟩
  | shallower owner count =>
    refine ⟨rfl,fun _ _ => rfl,fun m' u _ hu => ?_,by simp⟩
    by_cases hm' : m' = m
    · subst hm'
      simpa using hu
    · simpa [hm'] using hu
  | released owner count waitQ =>
    refine ⟨by simp,fun _ _ => by simp,fun m' u _ hu => ?_,by simp⟩
    by_cases hm' : m' = m
    · subst hm'
      simp at hu
    · simpa [hm'] using hu
  | handedOver n q owner count waitQ =>
    refine ⟨by simp,fun u hu => ?_,fun m' u hu howner => ?_,?_⟩
    · have hun : u ≠ n := fun hun => hu (hun ▸ rfl)
      simp [hun]
    · by_cases hm' : m' = m
      · subst hm'
        obtain rfl : n = u := by simpa using howner
        exact absurd rfl hu
      · simpa [hm'] using howner
    · rintro u ⟨⟩
      refine ⟨(hwf.pended n m).mpr (by simp [waitQ]),by simp,by simp,by simpa using count,fun m' hm' => ?_⟩
      simp [hm']

lemma unlock_gives_up (hwf : Mutex.Wf s) (h : Mutex.Outcome ceiling s (.unlock t m) s' r)
    (howner : (s.mutexes m).owner = some t) (hcount : (s.mutexes m).lockCount = 1) :
    (s'.mutexes m).owner ≠ some t := by
  cases h with
  | stray r owner neg => exact absurd howner owner
  | shallower owner count => omega
  | released owner count waitQ => simp
  | handedOver n q owner count waitQ =>
    have hnt : n ≠ t := by
      rintro rfl
      exact hwf.owner m n howner (by simp [waitQ])
    simpa using hnt

omit [DecidableEq μ] in
lemma lockEnd_frame (ceiling : ℤ) (s : Mutex.State μ τ) (t : τ) (m : μ) :
    (s.kMutexLockEnd ceiling t m).mutexes = s.mutexes ∧ (s.kMutexLockEnd ceiling t m).pendedOn = s.pendedOn ∧
      ∀ u, u ≠ t → (s.kMutexLockEnd ceiling t m).timedOut u = s.timedOut u := by
  unfold Mutex.State.kMutexLockEnd
  dsimp only
  split
  · exact ⟨rfl,rfl,fun u hu => by simp [hu]⟩
  · exact ⟨by simp,by simp,fun u hu => by simp [hu]⟩

end MutexFrames

variable {μ τ κ : Type*}

/-- Where a thread stands in each part of `k_condvar_wait`. -/
def Stands (s : State μ τ κ) (t : τ) : Call μ κ → Prop
  | .none => True
  | .released _ m n _ => s.lock = some t ∧ s.mutex.pendedOn t = none ∧ s.mutex.timedOut t = none ∧
      (s.mutex.mutexes m).owner ≠ some t ∧ n = 1
  | .pended _ m n => s.mutex.pendedOn t = none ∧ s.mutex.timedOut t = none ∧
      (s.mutex.mutexes m).owner ≠ some t ∧ n = 1
  | .woken m n => s.mutex.pendedOn t = none ∧ s.mutex.timedOut t = none ∧
      (s.mutex.mutexes m).owner ≠ some t ∧ n = 1
  | .relocking m n => s.linked t = false ∧ t ∉ s.firing ∧ s.mutex.pendedOn t = some m ∧
      s.mutex.timedOut t = none ∧ n = 1

/-- The mutexes fit together, the threads pended on a condition variable are in its queue, and
every call stands as it should. -/
structure Good (s : State μ τ κ) : Prop where
  wf : Mutex.Wf s.mutex
  queue (c : κ) (t : τ) : t ∈ s.waitQ c ↔ ∃ m n, s.call t = .pended c m n
  nodup (c : κ) : (s.waitQ c).Nodup
  stands (t : τ) : Stands s t (s.call t)

/-- What `k_condvar_wait` and `k_condvar_signal` promise, at a step. -/
structure Promised (s : State μ τ κ) (a : Action μ τ κ) (o : Reply τ) (s' : State μ τ κ) : Prop where
  unowned (t : τ) (c : κ) (m : μ) (n : ℕ) : s'.call t = .pended c m n →
    (s'.mutex.mutexes m).owner ≠ some t
  signalled (c : κ) : a = .signal c →
    (∃ t m n, s.call t = .pended c m n ∨ ∃ forever, s.call t = .released c m n forever) →
    ∃ u m n, o = .woken [u] ∧ s.call u = .pended c m n ∧ s'.call u = .woken m n
  returned (t : τ) (m : μ) (n : ℕ) : (s.call t).mutex = some (m,n) → s'.call t = .none →
    (s'.mutex.mutexes m).owner = some t ∧ (s'.mutex.mutexes m).lockCount = n

section Frame
variable {s s' : State μ τ κ} {t : τ} {call : Call μ κ}

lemma Stands.congr (h : Stands s t call)
    (hlock : s.lock = some t → s'.lock = some t) (hlinked : s.linked t = false → s'.linked t = false)
    (hfiring : t ∈ s'.firing → t ∈ s.firing) (hpended : s'.mutex.pendedOn t = s.mutex.pendedOn t)
    (htimed : s'.mutex.timedOut t = s.mutex.timedOut t)
    (howner : ∀ m, (s'.mutex.mutexes m).owner = some t → (s.mutex.mutexes m).owner = some t) :
    Stands s' t call := by
  cases call with
  | none => trivial
  | released c m n forever =>
    obtain ⟨h1,h2,h3,h4,h5⟩ := h
    exact ⟨hlock h1,hpended.trans h2,htimed.trans h3,fun ho => h4 (howner m ho),h5⟩
  | pended | woken =>
    obtain ⟨h2,h3,h4,h5⟩ := h
    exact ⟨hpended.trans h2,htimed.trans h3,fun ho => h4 (howner _ ho),h5⟩
  | relocking m n =>
    obtain ⟨h1,h2,h3,h4,h5⟩ := h
    exact ⟨hlinked h1,fun hf => h2 (hfiring hf),hpended.trans h3,htimed.trans h4,h5⟩

lemma Good.at (h : Good s) (hc : s.call t = call) : Stands s t call := hc ▸ h.stands t

lemma Good.unowned (h : Good s) {c : κ} {m : μ} {n : ℕ} (hc : s.call t = .pended c m n) :
    (s.mutex.mutexes m).owner ≠ some t := (h.at hc).2.2.1

variable {a : Action μ τ κ}

lemma Good.promised (h : Good s') {o : Reply τ} (hsignal : ∀ c, a ≠ .signal c)
    (hreturned : ∀ t m n, (s.call t).mutex = some (m,n) → s'.call t = .none →
      (s'.mutex.mutexes m).owner = some t ∧ (s'.mutex.mutexes m).lockCount = n) : Promised s a o s' :=
  ⟨fun _ _ _ _ => h.unowned,fun c hc => absurd hc (hsignal c),hreturned⟩

lemma returned_same (hcall : s'.call = s.call) (u : τ) (m : μ) (n : ℕ)
    (hu : (s.call u).mutex = some (m,n)) (hnone : s'.call u = .none) :
    (s'.mutex.mutexes m).owner = some u ∧ (s'.mutex.mutexes m).lockCount = n := by
  rw [hcall] at hnone
  simp [hnone,Call.mutex] at hu

variable [DecidableEq τ]

lemma Good.setCall (h : Good s) (hwf : Mutex.Wf s'.mutex) (hcall : s'.call = update s.call t call)
    (hqueue : ∀ c u, u ≠ t → (u ∈ s'.waitQ c ↔ u ∈ s.waitQ c))
    (hself : ∀ c, t ∈ s'.waitQ c ↔ ∃ m n, call = .pended c m n) (hnodup : ∀ c, (s'.waitQ c).Nodup)
    (hstands : Stands s' t call)
    (hothers : ∀ u, u ≠ t → Stands s u (s.call u) → Stands s' u (s.call u)) : Good s' := by
  refine ⟨hwf,fun c u => ?_,hnodup,fun u => ?_⟩
  · by_cases hut : u = t
    · subst hut
      rw [hcall,update_self]
      exact hself c
    · rw [hcall,update_of_ne hut,hqueue c u hut]
      exact h.queue c u
  · by_cases hut : u = t
    · subst hut
      rwa [hcall,update_self]
    · rw [hcall,update_of_ne hut]
      exact hothers u hut (h.stands u)

lemma returned_self (hcall : s'.call = update s.call t call)
    (hself : ∀ m n, (s.call t).mutex = some (m,n) → call = .none →
      (s'.mutex.mutexes m).owner = some t ∧ (s'.mutex.mutexes m).lockCount = n) (u : τ) (m : μ) (n : ℕ)
    (hu : (s.call u).mutex = some (m,n)) (hnone : s'.call u = .none) :
    (s'.mutex.mutexes m).owner = some u ∧ (s'.mutex.mutexes m).lockCount = n := by
  by_cases hut : u = t
  · subst hut
    rw [hcall,update_self] at hnone
    exact hself m n hu hnone
  · rw [hcall,update_of_ne hut] at hnone
    simp [hnone,Call.mutex] at hu

end Frame

variable [DecidableEq μ] [DecidableEq τ] [DecidableEq κ] {ceiling : ℤ} {s s' : State μ τ κ} {a : Action μ τ κ}

/-- The step has a result, which keeps the invariant and the promises. -/
abbrev Kept (ceiling : ℤ) (s : State μ τ κ) (a : Action μ τ κ) : Prop :=
  ∃ s' o, step ceiling s a = some (s',o) ∧ Good s' ∧ Promised s a o s'

section Unlock
variable {t : τ} {m : μ}

def afterUnlock (s : State μ τ κ) (mutex : Mutex.State μ τ) (r : Mutex.Reply τ) : State μ τ κ :=
  {s with mutex
          call := fun u => if r = .unlocked (some u) then .none else s.call u
          linked := fun u => if r = .unlocked (some u) then false else s.linked u}

lemma update_eq_ite {β : Type*} (f : τ → β) (n : τ) (b : β) : update f n b =
    fun u => if (Mutex.Reply.unlocked (some n) : Mutex.Reply τ) = .unlocked (some u) then b else f u := by
  funext u
  by_cases hun : u = n
  · simp [hun]
  · simp [hun,Ne.symm hun]

variable {mutex : Mutex.State μ τ} {r : Mutex.Reply τ}

omit [DecidableEq κ] in
lemma unlockMutex_eq (h : s.mutex.kMutexUnlock t m = some (mutex,r)) :
    s.unlockMutex t m = some (afterUnlock s mutex r,r) := by
  rw [unlockMutex,h,map_some]
  congr 2
  unfold afterUnlock
  cases r with
  | unlocked newOwner =>
    cases newOwner with
    | none => simp
    | some n => simp only [update_eq_ite]
  | ret | pended | expired => simp

omit [DecidableEq κ] in
/-- A thread that gets the mutex was waiting for it, so that a call of it that returns was about to
take it back. -/
lemma Good.unlocked (h : Good s) (hmeets : Mutex.Meets s.mutex (.unlock t m))
    (hout : Mutex.Outcome ceiling s.mutex (.unlock t m) mutex r) :
    Good (afterUnlock s mutex r) ∧ ∀ u m' n, (s.call u).mutex = some (m',n) →
      (afterUnlock s mutex r).call u = .none →
      (mutex.mutexes m').owner = some u ∧ (mutex.mutexes m').lockCount = n := by
  obtain ⟨htimed,hpended,howner,hnew⟩ := unlock_frame h.wf hout
  refine ⟨⟨hout.wf h.wf hmeets,fun c u => ?_,h.nodup,fun u => ?_⟩,fun u m' n hcall hnone => ?_⟩
  · by_cases hu : r = .unlocked (some u)
    · have hpend := (hnew u hu).1
      have hnot : u ∉ s.waitQ c := by
        intro hmem
        obtain ⟨m',n,hcall⟩ := (h.queue c u).mp hmem
        simp [(h.at hcall).1] at hpend
      simp [afterUnlock,hu,hnot]
    · simpa [afterUnlock,hu] using h.queue c u
  · by_cases hu : r = .unlocked (some u)
    · simp [afterUnlock,hu,Stands]
    · have hcall : (afterUnlock s mutex r).call u = s.call u := if_neg hu
      rw [hcall]
      exact (h.stands u).congr id (fun hl => by simpa [afterUnlock,hu] using hl) id (hpended u hu)
        (congrFun htimed u) fun m' => howner m' u hu
  · by_cases hu : r = .unlocked (some u)
    · obtain ⟨hpend,-,hown,hcount,-⟩ := hnew u hu
      have hstands := h.stands u
      cases hc : s.call u with
      | none => simp [hc,Call.mutex] at hcall
      | released | pended | woken =>
        rw [hc] at hstands
        simp [hstands.2.1,hstands.1] at hpend
      | relocking m₀ n₀ =>
        rw [hc] at hstands hcall
        cases hcall
        obtain ⟨-,-,hpend',-,rfl⟩ := hstands
        obtain rfl := some.inj (hpend'.symm.trans hpend)
        exact ⟨hown,hcount⟩
    · have : (afterUnlock s mutex r).call u = s.call u := if_neg hu
      simp [← this,hnone,Call.mutex] at hcall

lemma step_unlock (h : Good s) (ha : Meets s (.unlock t m)) : Kept ceiling s (.unlock t m) := by
  obtain ⟨-,-,hmeets⟩ := ha
  obtain ⟨mutex,r,hstep,hout⟩ := step_outcome ceiling h.wf hmeets
  obtain ⟨hgood,hret⟩ := h.unlocked hmeets hout
  refine ⟨_,.mutex r,?_,hgood,hgood.promised (by simp) hret⟩
  simp only [step,unlockMutex_eq hstep,map_some]

/-- `k_condvar_wait` gives up the mutex. -/
lemma step_wait (h : Good s) {c : κ} {forever : Bool} (ha : Meets s (.wait t c m forever))
    (hcount : (s.mutex.mutexes m).lockCount = 1) : Kept ceiling s (.wait t c m forever) := by
  obtain ⟨hcall,-,hmeets,hlock,howner⟩ := ha
  obtain ⟨mutex,r,hstep,hout⟩ := step_outcome ceiling h.wf hmeets
  obtain ⟨hgood,hret⟩ := h.unlocked hmeets hout
  obtain ⟨htimed,hpended,-,hnew⟩ := unlock_frame h.wf hout
  have hself : r ≠ .unlocked (some t) := fun hr => by
    have := (hnew t hr).1
    rw [hmeets.1] at this
    cases this
  have hcall' : (afterUnlock s mutex r).call t = .none := by
    simp [afterUnlock,hself,hcall]
  have hgood' : Good {afterUnlock s mutex r with
      lock := some t
      call := update (afterUnlock s mutex r).call t
        (.released c m (s.mutex.mutexes m).lockCount forever)} := by
    refine hgood.setCall hgood.wf rfl (fun _ _ _ => .rfl) (fun c' => ?_) hgood.nodup ?_ fun u hut hu => ?_
    · have := hgood.queue c' t
      simpa [hcall'] using this
    · exact ⟨rfl,(hpended t hself).trans hmeets.1,(congrFun htimed t).trans hmeets.2,
        unlock_gives_up h.wf hout howner hcount,hcount⟩
    · exact hu.congr (fun hl => by simp [afterUnlock,hlock] at hl) id id rfl rfl fun _ ho => ho
  refine ⟨_,.mutex r,?_,hgood',hgood'.promised (by simp) fun u m' n hu hnone => ?_⟩
  · simp only [step,unlockMutex_eq hstep,map_some]
  · by_cases hut : u = t
    · simp [hut] at hnone
    · exact hret u m' n hu (by simpa [hut] using hnone)

end Unlock

section Lock
variable {t : τ} {m : μ} {sooner : τ → Bool}

lemma step_lock (h : Good s) {wait forever : Bool} (ha : Meets s (.lock t m wait forever sooner)) :
    Kept ceiling s (.lock t m wait forever sooner) := by
  obtain ⟨hcall,-,hmeets⟩ := ha
  obtain ⟨mutex,r,hstep,hout⟩ := step_outcome ceiling h.wf hmeets
  obtain ⟨htimed,hpended,howner,-⟩ := lock_frame hout
  have hsame : s.call = update s.call t .none := by rw [← hcall,update_eq_self]
  have hgood' : Good {s with
      mutex
      linked := if r = .pended then update s.linked t (!forever) else s.linked} := by
    refine h.setCall (hout.wf h.wf hmeets) hsame (fun _ _ _ => .rfl) (fun c => ?_) h.nodup trivial
      fun u hut hu => ?_
    · simpa [hcall] using h.queue c t
    · refine hu.congr id (fun hl => ?_) id (hpended u hut) (congrFun htimed u) fun m' => howner m' u hut
      dsimp only
      split_ifs
      · rwa [update_of_ne hut]
      · exact hl
  refine ⟨_,.mutex r,?_,hgood',hgood'.promised (by simp) (returned_self hsame ?_)⟩
  · have hstep' : s.mutex.kMutexLock ceiling t m wait sooner = some (mutex,r) := hstep
    simp only [step,hstep',map_some]
  · intro m' n hm'
    simp [hcall,Call.mutex] at hm'

/-- A thread that was woken locks the mutex again. -/
lemma step_relock (h : Good s) (ha : Meets s (.relock t sooner)) (hfiring : t ∉ s.firing) :
    Kept ceiling s (.relock t sooner) := by
  obtain ⟨hlinked,m,n,hcall,hsmall⟩ := ha
  obtain ⟨hpend,htime,hown,rfl⟩ := h.at hcall
  have hmeets : Mutex.Meets s.mutex (.lock t m true sooner) := ⟨hpend,htime,hsmall⟩
  obtain ⟨mutex,r,hstep,hout⟩ := step_outcome ceiling h.wf hmeets
  obtain ⟨htimed,hpended,howner,hcases⟩ := lock_frame hout
  have hgood' : Good {s with
      mutex
      call := update s.call t (if r = .pended then .relocking m 1 else .none)} := by
    refine h.setCall (hout.wf h.wf hmeets) rfl (fun _ _ _ => .rfl) (fun c => ?_) h.nodup ?_
      fun u hut hu => ?_
    · have := h.queue c t
      rw [hcall] at this
      split_ifs <;> simpa using this
    · rcases hcases with ⟨hr,hp,-⟩ | ⟨hr,-⟩
      · rw [if_pos hr]
        exact ⟨hlinked,hfiring,hp,(congrFun htimed t).trans htime,rfl⟩
      · rw [if_neg hr]
        trivial
    · exact hu.congr id id id (hpended u hut) (congrFun htimed u) fun m' => howner m' u hut
  refine ⟨_,.mutex r,?_,hgood',hgood'.promised (by simp) (returned_self rfl fun m' n hm' hnone => ?_)⟩
  · have hstep' : s.mutex.kMutexLock ceiling t m true sooner = some (mutex,r) := hstep
    simp only [step,hcall,hstep',map_some]
  · rw [hcall] at hm'
    cases hm'
    cases hout with
    | taken count owner waitQ => simp [count]
    | deeper owner count small => exact absurd owner hown
    | waits o owner ne => simp at hnone

lemma step_lockEnd (h : Good s) (ha : Meets s (.lockEnd t)) : Kept ceiling s (.lockEnd t) := by
  obtain ⟨m,hm⟩ := ne_none_iff_exists'.mp ha.2
  have hcall : s.call t = .none := by
    have hstands := h.stands t
    cases hc : s.call t with
    | none => rfl
    | released | pended | woken | relocking =>
      rw [hc] at hstands
      simp [hm,Stands] at hstands
  obtain ⟨hmutexes,hpended,htimed⟩ := lockEnd_frame ceiling s.mutex t m
  have hgood' : Good {s with
      mutex := s.mutex.kMutexLockEnd ceiling t m
      call := update s.call t .none} := by
    refine h.setCall (h.wf.lockEnd t m) rfl (fun _ _ _ => .rfl) (fun c => ?_) h.nodup trivial
      fun u hut hu => ?_
    · simpa [hcall] using h.queue c t
    · exact hu.congr id id id (congrFun hpended u) (htimed u hut) fun m' => by rw [hmutexes]; exact id
  refine ⟨_,.mutex (.ret (-Mutex.EAGAIN)),by simp only [step,hm,map_some],hgood',
    hgood'.promised (by simp) (returned_self rfl fun m' n hm' => ?_)⟩
  simp [hcall,Call.mutex] at hm'

end Lock

section Waits
variable {t : τ} {c : κ}

/-- `k_condvar_wait` pends, and gives up the lock of the module. -/
lemma step_pend (h : Good s) {sooner : τ → Bool} (ha : Meets s (.pend t sooner)) :
    Kept ceiling s (.pend t sooner) := by
  obtain ⟨c,m,n,forever,hcall⟩ := ha
  obtain ⟨hlock,hpend,htime,hown,hn⟩ := h.at hcall
  have hnot : ∀ c', t ∉ s.waitQ c' := fun c' hmem => by
    obtain ⟨m',n',hcall'⟩ := (h.queue c' t).mp hmem
    exact absurd (hcall.symm.trans hcall') (by simp)
  have hgood' : Good {s with
      waitQ := update s.waitQ c (WaitQueue.pend (s.mutex.outranks t sooner) t (s.waitQ c))
      call := update s.call t (.pended c m n)
      lock := none
      linked := update s.linked t (!forever)} := by
    refine h.setCall h.wf rfl (fun c' u hut => ?_) (fun c' => ?_) (fun c' => ?_) ⟨hpend,htime,hown,hn⟩
      fun u hut hu => ?_
    · by_cases hcc : c' = c
      · subst hcc
        simp [hut]
      · simp [hcc]
    · by_cases hcc : c' = c
      · subst hcc
        simp
      · simp [hcc,hnot c',Ne.symm hcc]
    · by_cases hcc : c' = c
      · subst hcc
        dsimp only
        rw [update_self]
        exact (WaitQueue.pend_perm ..).nodup_iff.mpr (nodup_cons.mpr ⟨hnot c',h.nodup c'⟩)
      · simpa [hcc] using h.nodup c'
    · refine hu.congr (fun hl => absurd (some.inj (hl.symm.trans hlock)) hut) (fun hl => ?_) id rfl rfl
        fun _ => id
      simpa [hut] using hl
  refine ⟨_,.none,by simp only [step,hcall],hgood',
    hgood'.promised (by simp) (returned_self rfl fun _ _ _ hnone => by cases hnone)⟩

omit [DecidableEq μ] in
/-- The first threads of a condition variable are woken. -/
lemma Good.wakes (h : Good s) {threads rest : List τ} (hq : s.waitQ c = threads++rest) :
    Good (s.wakes c threads rest) ∧
      (∀ u m n, s.call u = .pended c m n → u ∈ threads → (s.wakes c threads rest).call u = .woken m n) ∧
      ∀ u, (s.call u).mutex = none ∨ (s.wakes c threads rest).call u ≠ .none := by
  have hnodup := h.nodup c
  rw [hq] at hnodup
  have hmem : ∀ u ∈ threads, ∃ m n, s.call u = .pended c m n := fun u hu =>
    (h.queue c u).mp (by simp [hq,hu])
  have hcall : ∀ u, u ∉ threads → (s.wakes c threads rest).call u = s.call u := by
    intro u hu
    unfold State.wakes
    dsimp only
    split
    · next heq => rw [if_neg hu,heq]
    · rfl
  have hwoken : ∀ u m n, s.call u = .pended c m n → u ∈ threads → (s.wakes c threads rest).call u = .woken m n := by
    intro u m n hu hin
    simp [State.wakes,hu,hin]
  refine ⟨⟨h.wf,fun c' u => ?_,fun c' => ?_,fun u => ?_⟩,hwoken,fun u => ?_⟩
  · by_cases hu : u ∈ threads
    · obtain ⟨m,n,hc⟩ := hmem u hu
      rw [hwoken u m n hc hu]
      by_cases hcc : c' = c
      · subst hcc
        have : u ∉ rest := fun hr => (nodup_append.mp hnodup).2.2 u hu u hr rfl
        simp [State.wakes,this]
      · have : u ∉ s.waitQ c' := fun hq' => by
          obtain ⟨m',n',hc'⟩ := (h.queue c' u).mp hq'
          rw [hc] at hc'
          exact hcc (by injection hc' with hcc; exact hcc.symm)
        simp [State.wakes,hcc,this]
    · rw [hcall u hu,← h.queue c' u]
      by_cases hcc : c' = c
      · subst hcc
        simp [State.wakes,hq,hu]
      · simp [State.wakes,hcc]
  · by_cases hcc : c' = c
    · subst hcc
      simpa [State.wakes] using (nodup_append.mp hnodup).2.1
    · simpa [State.wakes,hcc] using h.nodup c'
  · by_cases hu : u ∈ threads
    · obtain ⟨m,n,hc⟩ := hmem u hu
      rw [hwoken u m n hc hu]
      exact h.at hc
    · rw [hcall u hu]
      exact (h.stands u).congr id (fun hl => by simpa [State.wakes,hu] using hl) id rfl rfl fun _ => id
  · by_cases hu : u ∈ threads
    · obtain ⟨m,n,hc⟩ := hmem u hu
      exact .inr (by simp [hwoken u m n hc hu])
    · rw [hcall u hu]
      cases s.call u <;> simp [Call.mutex]

lemma step_signal (h : Good s) (ha : Meets s (.signal c)) : Kept ceiling s (.signal c) := by
  obtain ⟨hgood',hwoken,hstay⟩ := h.wakes (take_append_drop 1 (s.waitQ c)).symm
  refine ⟨_,_,rfl,hgood',fun _ _ _ _ => hgood'.unowned,?_,fun u m n hu hnone => ?_⟩
  · rintro c' ⟨⟩ ⟨t,m,n,hcall⟩
    have hlock := ha
    have hmem : t ∈ s.waitQ c := by
      rcases hcall with hcall | ⟨forever,hcall⟩
      · exact (h.queue c t).mpr ⟨m,n,hcall⟩
      · exact absurd (hlock.symm.trans (h.at hcall).1) (by simp)
    obtain ⟨u,hhead⟩ : ∃ u, (s.waitQ c).take 1 = [u] := by
      cases hq : s.waitQ c with
      | nil => simp [hq] at hmem
      | cons u q => exact ⟨u,rfl⟩
    have hu : u ∈ (s.waitQ c).take 1 := by simp [hhead]
    obtain ⟨m',n',hcall'⟩ := (h.queue c u).mp (mem_of_mem_take hu)
    exact ⟨u,m',n',congrArg Reply.woken hhead,hcall',hwoken u m' n' hcall' hu⟩
  · rcases hstay u with hmutex | hne
    · simp [hmutex] at hu
    · exact absurd hnone hne

lemma step_broadcast (h : Good s) : Kept ceiling s (.broadcast c) := by
  obtain ⟨hgood',-,hstay⟩ := h.wakes (append_nil _).symm
  refine ⟨_,_,rfl,hgood',hgood'.promised (by simp) fun u m n hu hnone => ?_⟩
  rcases hstay u with hmutex | hne
  · simp [hmutex] at hu
  · exact absurd hnone hne

lemma step_announce (h : Good s) (ha : Meets s (.announce t)) : Kept ceiling s (.announce t) := by
  have hgood' : Good {s with linked := update s.linked t false, firing := t::s.firing} := by
    refine ⟨h.wf,h.queue,h.nodup,fun u => ?_⟩
    by_cases hut : u = t
    · subst hut
      have hstands := h.stands u
      cases hc : s.call u with
      | relocking m n =>
        rw [hc] at hstands
        exact absurd (show s.linked u = true from ha) (by simp [hstands.1])
      | none => trivial
      | released | pended | woken =>
        rw [hc] at hstands
        exact hstands
    · refine (h.stands u).congr id (fun hl => by simpa [hut] using hl) (fun hf => ?_) rfl rfl fun _ => id
      exact (mem_cons.mp hf).resolve_left hut
  exact ⟨_,_,rfl,hgood',hgood'.promised (by simp) (returned_same rfl)⟩

/-- `z_thread_timeout` runs for a thread. -/
lemma step_fire (h : Good s) (ha : Meets s (.fire t)) : Kept ceiling s (.fire t) := by
  have hfiring := ha
  have hstands := h.stands t
  have herase : Good {s with firing := s.firing.erase t} :=
    ⟨h.wf,h.queue,h.nodup,fun u => (h.stands u).congr id id mem_of_mem_erase rfl rfl fun _ => id⟩
  refine ⟨_,_,rfl,?_⟩
  unfold wakeThread
  dsimp only
  split
  · next c m n hcall =>
    rw [hcall] at hstands
    have hgood' : Good {s with
        firing := s.firing.erase t
        waitQ := update s.waitQ c ((s.waitQ c).erase t)
        call := update s.call t (.woken m n)} := by
      refine herase.setCall h.wf rfl (fun c' u hut => ?_) (fun c' => ?_) (fun c' => ?_) hstands
        fun u hut hu => hu.congr id id id rfl rfl fun _ => id
      · by_cases hcc : c' = c
        · subst hcc
          simp [mem_erase_of_ne hut]
        · simp [hcc]
      · by_cases hcc : c' = c
        · subst hcc
          simp [(h.nodup c').not_mem_erase]
        · have := h.queue c' t
          simpa [hcc,hcall,Ne.symm hcc] using this
      · by_cases hcc : c' = c
        · subst hcc
          simpa using (h.nodup c').erase t
        · simpa [hcc] using h.nodup c'
    exact ⟨hgood',hgood'.promised (by simp) (returned_self rfl fun _ _ _ hnone => by cases hnone)⟩
  · next hnot =>
    split
    · next m hpend =>
      have hcall : s.call t = .none := by
        cases hc : s.call t with
        | none => rfl
        | pended c m n => exact absurd hc (hnot c m n)
        | released | woken =>
          rw [hc] at hstands
          simp [hpend,Stands] at hstands
        | relocking m n =>
          rw [hc] at hstands
          exact absurd hfiring hstands.2.1
      have houtcome : Mutex.Outcome ceiling s.mutex (.timeout t) (s.mutex.expire t m) .expired := .expired m hpend
      have hwf := houtcome.wf h.wf (by simp [Mutex.Meets,hpend])
      have hgood' : Good {s with firing := s.firing.erase t, mutex := s.mutex.expire t m} := by
        refine herase.setCall (t := t) hwf (update_eq_self ..).symm (fun _ _ _ => .rfl)
          (fun c => ?_) h.nodup ?_ fun u hut hu => ?_
        · exact h.queue c t
        · dsimp only
          rw [hcall]
          trivial
        · refine hu.congr id id id (by simp [hut]) (by simp [hut]) fun m' ho => ?_
          by_cases hmm : m' = m
          · subst hmm
            simpa using ho
          · simpa [hmm] using ho
      exact ⟨hgood',hgood'.promised (by simp) (returned_same rfl)⟩
    · exact ⟨herase,herase.promised (by simp) (returned_same rfl)⟩

end Waits

lemma step_promised (ceiling : ℤ) (h : Good s) (ha : Meets s a) (hc : Careful s a) : Kept ceiling s a := by
  cases a with
  | lock t m wait forever sooner => exact step_lock h ha
  | unlock t m => exact step_unlock h ha
  | wait t c m forever => exact step_wait h ha hc
  | pend t sooner => exact step_pend h ha
  | relock t sooner => exact step_relock h ha hc
  | signal c => exact step_signal h ha
  | broadcast c => exact step_broadcast h
  | announce t => exact step_announce h ha
  | fire t => exact step_fire h ha
  | lockEnd t => exact step_lockEnd h ha

/-- In every run in which `k_condvar_wait` is called with mutexes that are locked once, and does not
wait for them while a timeout of the thread is outstanding, the mutex is not owned by a thread that
is pended on the condition variable, signals reach who has given the mutex up, and the call returns
with the mutex and its count as before. -/
theorem runs_keep_condvar_promises (ceiling : ℤ) (base : τ → Int8) {is : List (Action μ τ κ)}
    (h : Along (fun s a => Meets s a ∧ Careful s a) (step ceiling) (init base) is) :
    ∃ s os, serve? (step ceiling) (init base) is = some (s,os) ∧
      Trace (fun s a o s' => Promised s a o s') (init base) is os s := by
  have hinit : Good (init base : State μ τ κ) :=
    ⟨init_wf base,by simp [init],fun _ => .nil,fun _ => trivial⟩
  exact Trace.of_steps (fun s a hs ha => step_promised ceiling hs ha.1 ha.2) hinit h

def signalled : List (Action Unit (Fin 2) Unit) :=
  [.lock 0 () true true fun _ => false,.wait 0 () () false,.pend 0 fun _ => false,
    .lock 1 () true true fun _ => false,.signal (),.relock 0 fun _ => false,.unlock 1 ()]

theorem runs_keep_condvar_promises_signalled :
    ∃ s os, serve? (step (-127)) (init fun _ => 0) signalled = some (s,os) ∧
      Trace (fun s a o s' => Promised s a o s') (init fun _ => 0) signalled os s :=
  runs_keep_condvar_promises (-127) (fun _ => 0) (by decide +kernel)

def lockedTwice : List (Action Unit (Fin 2) Unit) :=
  [.lock 0 () true true fun _ => false,.lock 0 () true true fun _ => false,.wait 0 () () true,
    .pend 0 fun _ => false]

/-- The timeout of the wait expires, the thread is signalled all the same and waits for the mutex,
and only then `z_thread_timeout` runs. -/
def lateTimeout : List (Action Unit (Fin 2) Unit) :=
  [.lock 0 () true true fun _ => false,.wait 0 () () false,.pend 0 fun _ => false,.announce 0,
    .lock 1 () true true fun _ => false,.signal (),.relock 0 fun _ => false,.fire 0,.lockEnd 0]

/-- In the first run the thread owns the mutex while it is pended on the condition variable. In the
second one its `k_condvar_wait` has returned and another thread owns the mutex. -/
theorem condvar_keeps_or_loses_mutex :
    (Along Meets (step (-127)) (init fun _ => 0) lockedTwice ∧
      ∃ s os, serve? (step (-127)) (init fun _ => 0) lockedTwice = some (s,os) ∧
        s.call 0 = .pended () () 2 ∧ (s.mutex.mutexes ()).owner = some 0) ∧
    Along Meets (step (-127)) (init fun _ => 0) lateTimeout ∧
      ∃ s os, serve? (step (-127)) (init fun _ => 0) lateTimeout = some (s,os) ∧
        s.call 0 = .none ∧ (s.mutex.mutexes ()).owner = some 1 :=
  ⟨⟨by decide +kernel,_,_,rfl,by decide +kernel⟩,by decide +kernel,_,_,rfl,by decide +kernel⟩

end ArmFirmware.Zephyr.Condvar
