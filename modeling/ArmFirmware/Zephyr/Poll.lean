import ArmFirmware.Library.Trace
import ArmFirmware.Library.WaitQueue

/-! Polling on objects (`kernel/poll.c`) and the operations that make objects available. An event
of a call of `k_poll` is named by the polling thread and its index in the array of events. What
runs under one hold of the lock is one step, so that registrations are made and cleared one by
one. -/
namespace ArmFirmware.Zephyr.Poll
open Library List Function Nat Option Poll Prod

def EAGAIN : ℤ := 11

inductive Kind
  | sem (limit : ℕ)
  | queue
  | msgq (maxMsgs : ℕ)
  | pipe (size : ℕ)
  | signal
  deriving DecidableEq

/-- Where a thread is in `k_poll`. An event is `none` for `K_POLL_TYPE_IGNORE`. -/
inductive Call (ω : Type*)
  | none
  /-- In the loop of `register_events`, at index `ii`. -/
  | registering (events : List (Option ω)) (ii registered : ℕ) (noWait : Bool)
  | pended (events : List (Option ω)) (registered : ℕ)
  /-- In the loop of `clear_event_registrations`. -/
  | clearing (events : List (Option ω)) (left : ℕ) (ret : ℤ)

/-- The objects, and the threads that poll them. -/
structure State (τ ω : Type*) where
  /-- The count of a semaphore, the items of a queue or message queue, the bytes in a pipe, the
  flag of a signal. -/
  amount : ω → ℕ
  pollEvents : ω → List (τ × ℕ)
  prio : τ → ℤ
  isPolling : τ → Bool
  /-- The state of an event says that its object was available. -/
  ready : τ → ℕ → Bool
  call : τ → Call ω

inductive Action (τ ω : Type*)
  | poll (t : τ) (events : List (Option ω)) (noWait : Bool)
  /-- One round of `register_events`. -/
  | register (t : τ)
  /-- `k_poll` behind `register_events`. -/
  | check (t : τ)
  /-- One round of `clear_event_registrations`. -/
  | clear (t : τ)
  | return (t : τ)
  | timeout (t : τ)
  | prioSet (t : τ) (prio : ℤ)
  /-- `k_sem_give`, `k_queue_insert` and `k_queue_append_list`, `k_msgq_put`, `k_pipe_put`,
  `k_poll_signal_raise` of `n` items, of which waiting receivers take `direct`. -/
  | write (o : ω) (n direct : ℕ)
  /-- Take items from an object. -/
  | read (o : ω) (n : ℕ)

inductive Reply (τ : Type*)
  | done
  | returned (t : τ) (ret : ℤ)
  deriving DecidableEq

/-- The amount after a write, and whether it handles poll events. -/
def Kind.put (amount n direct : ℕ) : Kind → ℕ × Bool
  | .sem limit => if direct ≠ 0 then (amount,false) else
    (amount+(if amount ≠ limit then 1 else 0),true)
  -- `k_queue_append_list` handles poll events even when waiting receivers take the whole list;
  -- an insertion that one of them takes touches nothing here.
  | .queue => (amount+(n-direct),true)
  | .msgq maxMsgs => if maxMsgs ≤ amount ∨ direct ≠ 0 then (amount,false) else (amount+1,true)
  | .pipe size =>
    let stored := min (n-direct) (size-amount)
    (amount+stored,decide (amount+stored ≠ 0 ∧ min n direct+stored ≠ 0))
  | .signal => (1,true)

section Objects
variable {τ ω : Type*} [DecidableEq τ] [DecidableEq ω]

def addEvent (prio : τ → ℤ) (e : τ × ℕ) (events : List (τ × ℕ)) : List (τ × ℕ) :=
  match events.getLast? with
  | none => events++[e]
  | some pending =>
    if prio pending.1 < prio e.1 then events++[e]
    else WaitQueue.pend (fun pending => prio e.1 < prio pending.1) e events

def setEventReady (s : State τ ω) (e : τ × ℕ) : State τ ω :=
  { s with ready := update s.ready e.1 (update (s.ready e.1) e.2 true) }

def State.enter (s : State τ ω) (t : τ) (c : Call ω) : State τ ω :=
  { s with call := update s.call t c }

/-- Where the wait of a pended thread ends; a thread that is not pended is left alone. -/
def Call.unpend : Call ω → Call ω
  | .pended events registered => .clearing events registered 0
  | c => c

def signalPoller (s : State τ ω) (t : τ) : State τ ω := s.enter t (s.call t).unpend

def signalPollEvent (s : State τ ω) (e : τ × ℕ) : State τ ω :=
  let s := signalPoller s e.1
  setEventReady { s with isPolling := update s.isPolling e.1 false } e

/-- `z_handle_obj_poll_events`: the first event of the list is notified and leaves it. -/
def handleObjPollEvents (s : State τ ω) (o : ω) : State τ ω :=
  match s.pollEvents o with
  | [] => s
  | e::rest => signalPollEvent { s with pollEvents := update s.pollEvents o rest } e

/-- One round of the loop of `register_events`, with whether the event was registered. -/
def registerEvent (s : State τ ω) (t : τ) (ii : ℕ) (event : Option ω) (noWait : Bool) : State τ ω × Bool :=
  match event with
  | none => (s,!noWait && s.isPolling t)
  | some o =>
    if s.amount o > 0 then
      (setEventReady { s with isPolling := update s.isPolling t false } (t,ii),false)
    else if !noWait && s.isPolling t then
      ({ s with pollEvents := update s.pollEvents o (addEvent s.prio (t,ii) (s.pollEvents o)) },true)
    else (s,false)

def clearEventRegistration (s : State τ ω) (e : τ × ℕ) : Option ω → State τ ω
  | none => s
  | some o => { s with pollEvents := update s.pollEvents o ((s.pollEvents o).filter (· ≠ e)) }

def step (kind : ω → Kind) (s : State τ ω) : Action τ ω → Option (State τ ω × Reply τ)
  | .poll t events noWait =>
    match s.call t with
    | .none => some ({ s with
        isPolling := update s.isPolling t true
        ready := update s.ready t fun _ => false
        call := update s.call t (.registering events 0 0 noWait) },.done)
    | _ => none
  | .register t =>
    match s.call t with
    | .registering events ii registered noWait =>
      events[ii]?.map fun event =>
        let r := registerEvent s t ii event noWait
        (r.1.enter t (.registering events (ii+1) (registered+r.2.toNat) noWait),.done)
    | _ => none
  | .check t =>
    match s.call t with
    | .registering events ii registered noWait =>
      if ii < events.length then none
      else if s.isPolling t = false then some (s.enter t (.clearing events registered 0),.done)
      else
        let s := { s with isPolling := update s.isPolling t false }
        if noWait then some (s.enter t .none,.returned t (-EAGAIN))
        else some (s.enter t (.pended events registered),.done)
    | _ => none
  | .clear t =>
    match s.call t with
    | .clearing events (left+1) ret =>
      some ((clearEventRegistration s (t,left) (events.getD left none)).enter t (.clearing events left ret),.done)
    | _ => none
  | .return t =>
    match s.call t with
    | .clearing _ 0 ret => some (s.enter t .none,.returned t ret)
    | _ => none
  | .timeout t =>
    match s.call t with
    | .pended events registered => some (s.enter t (.clearing events registered (-EAGAIN)),.done)
    | _ => none
  | .prioSet t prio => some ({ s with prio := update s.prio t prio },.done)
  | .write o n direct =>
    let r := (kind o).put (s.amount o) n direct
    let s := { s with amount := update s.amount o r.1 }
    some (if r.2 then handleObjPollEvents s o else s,.done)
  | .read o n => some ({ s with amount := update s.amount o (s.amount o-n) },.done)

def State.init (amount : ω → ℕ) (prio : τ → ℤ) : State τ ω where
  amount := amount
  pollEvents _ := []
  prio := prio
  isPolling _ := false
  ready _ _ := false
  call _ := .none

/-- The indices of the events through which the call a thread is in has been notified. -/
abbrev Notified (τ : Type*) := τ → List ℕ

def Notified.next (kind : ω → Kind) (g : Notified τ) (s _ : State τ ω) : Action τ ω → Reply τ → Notified τ
  | .write o n direct,_ =>
    match ((kind o).put (s.amount o) n direct).2,s.pollEvents o with
    | true,e::_ => update g e.1 (e.2::g e.1)
    | _,_ => g
  | _,.returned t _ => update g t []
  | _,_ => g

/-- The wait of a thread in `k_poll` is over without a notification. -/
def State.TimedOut (s : State τ ω) (t : τ) : Prop :=
  match s.call t with
  | .clearing _ _ ret => ret ≠ 0
  | _ => False

instance (s : State τ ω) (t : τ) : Decidable (s.TimedOut t) := by
  unfold State.TimedOut
  split <;> infer_instance

/-- When an object's poll events are handled, the thread at the head of its list has not timed
out. -/
def Careful (kind : ω → Kind) (s : State τ ω) : Action τ ω → Prop
  | .write o n direct =>
    match ((kind o).put (s.amount o) n direct).2,s.pollEvents o with
    | true,e::_ => ¬s.TimedOut e.1
    | _,_ => True
  | _ => True

instance (kind : ω → Kind) (s : State τ ω) (a : Action τ ω) : Decidable (Careful kind s a) := by
  unfold Careful
  split
  · split <;> infer_instance
  · infer_instance

/-- The thread is pended with an event of the object. -/
def State.PendedOn (s : State τ ω) (t : τ) (o : ω) : Prop :=
  ∃ events registered, s.call t = .pended events registered ∧ some o ∈ events

/-- A step of a thread inside its call of `k_poll`. -/
def Action.Own (t : τ) (a : Action τ ω) : Prop :=
  a = .register t ∨ a = .check t ∨ a = .clear t ∨ a = .return t

/-- The call a thread is in returns 0 by steps of its own, and the state of the event is set. -/
def State.Succeeds (kind : ω → Kind) (s : State τ ω) (t : τ) (i : ℕ) : Prop :=
  ∃ as z os, (∀ a ∈ as, Action.Own t a) ∧
    serve? (step kind) s as = some (z,os++[.returned t 0]) ∧ z.ready t i = true

/-- What pollers rely on. -/
structure Delivers (kind : ω → Kind) (x y : State τ ω × Notified τ) (a : Action τ ω) (r : Reply τ) : Prop where
  /-- An object that a thread waits for gets more: a call registered on it is notified. -/
  available : ∀ o n direct t, a = .write o n direct → x.1.amount o < y.1.amount o → x.1.PendedOn t o →
    ∃ u i, (u,i) ∈ x.1.pollEvents o ∧ i ∈ y.2 u
  /-- A call that has been notified can return 0 whenever its thread runs. -/
  succeeds : ∀ t i, i ∈ y.2 t → y.1.Succeeds kind t i
  /-- No call that has been notified returns anything else. -/
  returned : ∀ t ret, r = .returned t ret → x.2 t ≠ [] → ret = 0 ∧ ∀ i ∈ x.2 t, y.1.ready t i = true

/-- What is known of a thread: `linked` are its registered events, `noted` those notified in its
call. -/
def Sound (call : Call ω) (polling : Bool) (ready : ℕ → Bool) (linked : ℕ → ω → Prop) (noted : List ℕ) : Prop :=
  (∀ i ∈ noted, ready i = true) ∧
  match call with
  | .none => noted = [] ∧ ∀ i o, ¬linked i o
  | .registering events ii registered noWait =>
    registered ≤ ii ∧ ii ≤ events.length ∧ (noWait = true → registered = 0) ∧
    (∀ i o, linked i o → i < registered ∧ events[i]? = some (some o)) ∧
    (polling = true → noted = [] ∧
      (noWait = false → registered = ii ∧ ∀ i o, i < registered → events[i]? = some (some o) → linked i o))
  | .pended events registered =>
    noted = [] ∧ registered = events.length ∧ ∀ i o, linked i o ↔ events[i]? = some (some o)
  | .clearing events left ret =>
    (∀ i o, linked i o → i < left ∧ events[i]? = some (some o)) ∧ (noted ≠ [] → ret = 0)

def Good (x : State τ ω × Notified τ) : Prop :=
  ∀ t, Sound (x.1.call t) (x.1.isPolling t) (x.1.ready t) (fun i o => (t,i) ∈ x.1.pollEvents o) (x.2 t)

omit [DecidableEq τ] in
@[simp] lemma mem_addEvent {prio : τ → ℤ} {e e' : τ × ℕ} {events : List (τ × ℕ)} :
    e' ∈ addEvent prio e events ↔ e' = e ∨ e' ∈ events := by
  unfold addEvent
  split
  · simp [or_comm]
  · split_ifs
    · simp [or_comm]
    · simp

/-- A bound of the steps that a call has still to make. -/
def Call.todo {ω : Type*} : Call ω → ℕ
  | .registering events ii registered _ => 2*(events.length-ii)+registered+3
  | .clearing _ left _ => left+1
  | _ => 0

lemma Kind.put_handled {kind : Kind} {amount n direct : ℕ} (h : amount < (kind.put amount n direct).1) :
    (kind.put amount n direct).2 = true := by
  cases kind <;> simp only [Kind.put] at h ⊢
  case sem limit => split_ifs at h ⊢ with hd <;> simp at h ⊢
  case msgq maxMsgs => split_ifs at h ⊢ with hd <;> simp at h ⊢
  case pipe size =>
    rw [decide_eq_true_iff]
    omega

namespace Good
variable {kind : ω → Kind} {s : State τ ω} {g : Notified τ} {x y : State τ ω × Notified τ} {t : τ}

omit [DecidableEq ω] in
lemma of_thread (h : Good x) (t : τ)
    (ht : Sound (y.1.call t) (y.1.isPolling t) (y.1.ready t) (fun i o => (t,i) ∈ y.1.pollEvents o) (y.2 t))
    (hcall : ∀ u, u ≠ t → y.1.call u = x.1.call u) (hpolling : ∀ u, u ≠ t → y.1.isPolling u = x.1.isPolling u)
    (hready : ∀ u, u ≠ t → y.1.ready u = x.1.ready u) (hnoted : ∀ u, u ≠ t → y.2 u = x.2 u)
    (hlinked : ∀ u, u ≠ t → ∀ i o, (u,i) ∈ y.1.pollEvents o ↔ (u,i) ∈ x.1.pollEvents o) : Good y := by
  intro u
  by_cases hu : u = t
  · exact hu ▸ ht
  · simp only [hcall u hu,hpolling u hu,hready u hu,hnoted u hu,hlinked u hu]
    exact h u

section
variable (h : Good (s,g)) {events : List (Option ω)}
include h

omit [DecidableEq ω] in
lemma enter (t : τ) {c : Call ω}
    (ht : Sound c (s.isPolling t) (s.ready t) (fun i o => (t,i) ∈ s.pollEvents o) (g t)) : Good (s.enter t c,g) :=
  h.of_thread t (by simpa [State.enter] using ht) (fun u hu => update_of_ne hu ..) (fun _ _ => rfl)
    (fun _ _ => rfl) (fun _ _ => rfl) fun _ _ _ _ => .rfl

omit [DecidableEq ω] in
lemma poll (hcall : s.call t = .none) (events : List (Option ω)) (noWait : Bool) : Good ({ s with
        isPolling := update s.isPolling t true
        ready := update s.ready t fun _ => false
        call := update s.call t (.registering events 0 0 noWait) },g) := by
  have ht := h t
  simp only [Sound,hcall] at ht
  obtain ⟨-,hnoted,hlinked⟩ := ht
  refine h.of_thread t ?_ (fun u hu => update_of_ne hu ..) (fun u hu => update_of_ne hu ..)
    (fun u hu => update_of_ne hu ..) (fun _ _ => rfl) fun _ _ _ _ => .rfl
  simp [Sound,hnoted,hlinked]

variable {registered : ℕ} {noWait : Bool}

/-- A round of `register_events`: the object is available, the event gets registered, or nothing
is to be done. -/
lemma register {ii : ℕ} (hcall : s.call t = .registering events ii registered noWait) {event : Option ω}
    (hevent : events[ii]? = some event) : Good ((registerEvent s t ii event noWait).1.enter t
      (.registering events (ii+1) (registered+(registerEvent s t ii event noWait).2.toNat) noWait),g) := by
  have ht := h t
  simp only [Sound,hcall] at ht
  obtain ⟨hready,hle,hlen,hzero,hlinked,hpolling⟩ := ht
  have hlt := (List.getElem?_eq_some_iff.mp hevent).1
  have hstay : Sound (.registering events (ii+1) registered noWait) false (s.ready t)
      (fun i o => (t,i) ∈ s.pollEvents o) (g t) := ⟨hready,by omega,hlt,hzero,hlinked,by simp⟩
  cases event with
  | none =>
    refine h.enter t ⟨hready,?_,hlt,fun hw => ?_,
      fun i o hi => ⟨by have := hlinked i o hi; omega,(hlinked i o hi).2⟩,fun hp => ?_⟩
    · cases noWait <;> cases hb : s.isPolling t <;> simp [registerEvent,hb] <;> omega
    · simp [registerEvent,hw,hzero hw]
    · refine ⟨(hpolling hp).1,fun hw => ?_⟩
      obtain ⟨heq,hall⟩ := (hpolling hp).2 hw
      refine ⟨by simp [registerEvent,hp,hw,heq],fun i o hi hio => hall i o ?_ hio⟩
      simp only [registerEvent,hp,hw,Bool.not_false,Bool.and_self,Bool.toNat_true] at hi
      rcases Nat.lt_succ_iff_lt_or_eq.mp hi with hi | rfl
      · exact hi
      · exact absurd (hevent.symm.trans (heq ▸ hio)) (by simp)
  | some o =>
    simp only [registerEvent]
    split_ifs with hamount hreg
    · refine h.of_thread t ?_ (fun u hu => ?_) (fun u hu => ?_) (fun u hu => ?_) (fun _ _ => rfl) fun _ _ _ _ => .rfl
      · simp only [State.enter,setEventReady,update_self,Bool.toNat_false,add_zero]
        refine ⟨fun i hi => ?_,hstay.2⟩
        rw [update_apply]
        split_ifs
        · rfl
        · exact hready i hi
      · exact update_of_ne hu ..
      · exact update_of_ne hu ..
      · exact update_of_ne hu ..
    · obtain ⟨hw,hp⟩ : noWait = false ∧ s.isPolling t = true := by simpa using hreg
      obtain ⟨hnoted,hall⟩ := hpolling hp
      obtain ⟨heq,hall⟩ := hall hw
      have hmem : ∀ u i o', (u,i) ∈ update s.pollEvents o (addEvent s.prio (t,ii) (s.pollEvents o)) o' ↔
          ((u,i) = (t,ii) ∧ o' = o) ∨ (u,i) ∈ s.pollEvents o' := by
        intro u i o'
        rw [update_apply]
        split_ifs with ho
        · simp [ho]
        · simp [ho]
      refine h.of_thread t ?_ (fun u hu => update_of_ne hu ..) (fun _ _ => rfl) (fun _ _ => rfl)
        (fun _ _ => rfl) fun u hu i o' => ?_
      · simp only [State.enter,update_self,hmem]
        refine ⟨hready,by simpa using hle,hlt,by simp [hw],fun i o' hi => ?_,
          fun _ => ⟨hnoted,fun _ => ⟨by simp [heq],fun i o' hi hio => ?_⟩⟩⟩
        · rcases hi with ⟨hi,rfl⟩ | hi
          · obtain ⟨-,rfl⟩ := mk.inj hi
            exact ⟨by simp [heq],hevent⟩
          · exact ⟨Nat.lt_of_lt_of_le (hlinked i o' hi).1 (Nat.le_add_right ..),(hlinked i o' hi).2⟩
        · rcases Nat.lt_succ_iff_lt_or_eq.mp hi with hi | rfl
          · exact .inr (hall i o' hi hio)
          · have ho : o' = o := by simpa [hevent,heq,eq_comm] using hio
            exact .inl ⟨by rw [heq],ho⟩
      · simp only [State.enter,hmem]
        simp [hu]
    · refine h.enter t ⟨hready,by simp only [Bool.toNat_false]; omega,hlt,hzero,hlinked,
        fun hp => ⟨(hpolling hp).1,fun hw => ?_⟩⟩
      simp [hp,hw] at hreg

/-- A round of `clear_event_registrations`. -/
lemma clear {left : ℕ} {ret : ℤ} (hcall : s.call t = .clearing events (left+1) ret) :
    Good ((clearEventRegistration s (t,left) (events.getD left none)).enter t (.clearing events left ret),g) := by
  have ht := h t
  simp only [Sound,hcall] at ht
  obtain ⟨hready,hlinked,hret⟩ := ht
  have hlast : ∀ o, events.getD left none ≠ some o → (t,left) ∉ s.pollEvents o := by
    intro o hne hmem
    exact hne (by rw [getD_eq_getElem?_getD,(hlinked left o hmem).2]; rfl)
  have hmem : ∀ u i o, (u,i) ∈ (clearEventRegistration s (t,left) (events.getD left none)).pollEvents o ↔
      (u,i) ∈ s.pollEvents o ∧ (u,i) ≠ (t,left) := by
    intro u i o
    cases hevent : events.getD left none with
    | none =>
      refine ⟨fun hi => ⟨hi,?_⟩,And.left⟩
      rintro ⟨rfl,rfl⟩
      exact hlast o (by rw [hevent]; simp) hi
    | some o' =>
      simp only [clearEventRegistration,update_apply]
      split_ifs with ho
      · rw [ho,mem_filter,decide_eq_true_iff]
      · refine ⟨fun hi => ⟨hi,?_⟩,And.left⟩
        rintro ⟨rfl,rfl⟩
        exact hlast o (by rw [hevent]; simpa [eq_comm] using ho) hi
  have hfields : ∀ e, (clearEventRegistration s (t,left) e).call = s.call ∧
      (clearEventRegistration s (t,left) e).isPolling = s.isPolling ∧
      (clearEventRegistration s (t,left) e).ready = s.ready := by
    rintro (_ | o) <;> exact ⟨rfl,rfl,rfl⟩
  obtain ⟨hcall',hpolling',hready'⟩ := hfields (events.getD left none)
  refine h.of_thread t ?_ (fun u hu => ?_) (fun u hu => ?_) (fun u hu => ?_) (fun _ _ => rfl) fun u hu i o => ?_
  · simp only [State.enter,update_self,hready',hmem]
    refine ⟨hready,fun i o hi => ⟨?_,(hlinked i o hi.1).2⟩,hret⟩
    have hne : i ≠ left := fun hi' => hi.2 (by rw [hi'])
    have := (hlinked i o hi.1).1
    omega
  · simp only [State.enter,update_of_ne hu,hcall']
  · simp only [State.enter,hpolling']
  · simp only [State.enter,hready']
  · simp only [State.enter,hmem]
    simp [hu]

omit [DecidableEq ω] in
lemma check_ready {ii : ℕ} (hcall : s.call t = .registering events ii registered noWait) :
    Good (s.enter t (.clearing events registered 0),g) := by
  have ht := h t
  simp only [Sound,hcall] at ht
  exact h.enter t ⟨ht.1,ht.2.2.2.2.1,fun _ => rfl⟩

/-- The first event of the object's list is signaled. -/
lemma notify {o : ω} {i : ℕ} {rest : List (τ × ℕ)} (hevents : s.pollEvents o = (t,i)::rest)
    (hcare : ¬s.TimedOut t) : Good (handleObjPollEvents s o,update g t (i::g t)) := by
  have hlinked := hevents ▸ mem_cons_self ..
  have hmem : ∀ u j o', (u,j) ∈ update s.pollEvents o rest o' → (u,j) ∈ s.pollEvents o' := by
    intro u j o' hj
    rw [update_apply] at hj
    split_ifs at hj with ho
    · rw [ho,hevents]
      exact mem_cons_of_mem _ hj
    · exact hj
  have hmem' : ∀ u j o', u ≠ t → (u,j) ∈ s.pollEvents o' → (u,j) ∈ update s.pollEvents o rest o' := by
    intro u j o' hu hj
    rw [update_apply]
    split_ifs with ho
    · rw [ho,hevents] at hj
      simpa [hu] using hj
    · exact hj
  have hsound : Sound (s.call t).unpend false (update (s.ready t) i true)
      (fun j o' => (t,j) ∈ update s.pollEvents o rest o') (i::g t) := by
    obtain ⟨hready,hrest⟩ := h t
    refine ⟨fun j hj => ?_,?_⟩
    · rw [update_apply]
      split_ifs with hij
      · rfl
      · exact hready j ((mem_cons.mp hj).resolve_left hij)
    · cases hcall : s.call t with
      | none => simp only [hcall] at hrest; exact absurd hlinked (hrest.2 i o)
      | registering events ii registered noWait =>
        simp only [hcall] at hrest
        exact ⟨hrest.1,hrest.2.1,hrest.2.2.1,fun j o' hj => hrest.2.2.2.1 j o' (hmem t j o' hj),by simp⟩
      | pended events registered =>
        simp only [hcall] at hrest
        refine ⟨fun j o' hj => ?_,fun _ => rfl⟩
        have hget := (hrest.2.2 j o').mp (hmem t j o' hj)
        exact ⟨hrest.2.1 ▸ (List.getElem?_eq_some_iff.mp hget).1,hget⟩
      | clearing events left ret =>
        simp only [hcall] at hrest
        refine ⟨fun j o' hj => hrest.1 j o' (hmem t j o' hj),fun _ => ?_⟩
        by_contra hret
        exact hcare (by simpa [State.TimedOut,hcall] using hret)
  rw [handleObjPollEvents,hevents]
  refine h.of_thread t ?_ (fun u hu => ?_) (fun u hu => ?_) (fun u hu => ?_) (fun u hu => ?_)
    fun u hu j o' => ⟨hmem u j o',hmem' u j o' hu⟩
  · simpa [signalPollEvent,signalPoller,setEventReady,State.enter] using hsound
  · exact update_of_ne hu ..
  · exact update_of_ne hu ..
  · exact update_of_ne hu ..
  · exact update_of_ne hu ..

omit [DecidableEq ω] in
lemma leave (hlinked : ∀ i o, (t,i) ∉ s.pollEvents o) : Good (s.enter t .none,update g t []) := by
  refine h.of_thread t ?_ (fun u hu => update_of_ne hu ..) (fun _ _ => rfl) (fun _ _ => rfl)
    (fun u hu => update_of_ne hu ..) fun _ _ _ _ => .rfl
  simp [State.enter,Sound,hlinked]

variable {s' : State τ ω} {r : Reply τ}

lemma write {o : ω} {n direct : ℕ} (hcare : Careful kind s (.write o n direct))
    (hstep : step kind s (.write o n direct) = some (s',r)) :
    Good (s',Notified.next kind g s s' (.write o n direct) r) := by
  cases hstep
  simp only [Careful,Notified.next] at hcare ⊢
  generalize (kind o).put (s.amount o) n direct = p at hcare
  have h' : Good ({ s with amount := update s.amount o p.1 },g) := h
  obtain ⟨amount,handled⟩ := p
  cases handled with
  | false => exact h'
  | true =>
    cases hevents : s.pollEvents o with
    | nil =>
      simp only [handleObjPollEvents,hevents,if_true]
      exact h'
    | cons e rest =>
      simp only [hevents] at hcare
      exact h'.notify hevents hcare

omit [DecidableEq ω] in
lemma stopPolling (t : τ) : Good ({ s with isPolling := update s.isPolling t false },g) := by
  refine h.of_thread t ?_ (fun _ _ => rfl) (fun u hu => update_of_ne hu ..) (fun _ _ => rfl)
    (fun _ _ => rfl) fun _ _ _ _ => .rfl
  have ht := h t
  refine ⟨ht.1,?_⟩
  cases hcall : s.call t with
  | registering events ii registered noWait =>
    simp only [hcall] at ht
    exact ⟨ht.2.1,ht.2.2.1,ht.2.2.2.1,ht.2.2.2.2.1,by simp⟩
  | none => simpa only [hcall] using ht.2
  | pended events registered => simpa only [hcall] using ht.2
  | clearing events left ret => simpa only [hcall] using ht.2

lemma check (hstep : step kind s (.check t) = some (s',r)) : Good (s',Notified.next kind g s s' (.check t) r) := by
  simp only [step] at hstep
  split at hstep
  case h_2 => cases hstep
  rename_i events ii registered noWait hcall
  have ht := h t
  simp only [Sound,hcall] at ht
  obtain ⟨hready,hle,hlen,hzero,hlinked,hpolling⟩ := ht
  split_ifs at hstep with hlt hp hw
  · cases hstep
    exact h.check_ready hcall
  · cases hstep
    refine (h.stopPolling t).leave fun i o hi => ?_
    have := (hlinked i o hi).1
    have := hzero hw
    omega
  · cases hstep
    obtain ⟨hnoted,hall⟩ := hpolling (by simpa using hp)
    obtain ⟨heq,hall⟩ := hall (by simpa using hw)
    have hreg : registered = events.length := by omega
    refine (h.stopPolling t).enter t ⟨hready,hnoted,hreg,fun i o => ⟨fun hi => (hlinked i o hi).2,fun hi => ?_⟩⟩
    exact hall i o (hreg ▸ (List.getElem?_eq_some_iff.mp hi).1) hi

end

variable {a : Action τ ω} {r : Reply τ}

/-- Every careful step keeps the invariant. -/
lemma step (h : Good x) (hcare : Careful kind x.1 a)
    (hstep : recording (step kind) (Notified.next kind) x a = some (y,r)) : Good y := by
  obtain ⟨s',g'⟩ := y
  obtain ⟨hs,hg⟩ := recording_eq_some.mp hstep
  dsimp only at hg
  subst hg
  cases a with
  | check t => exact h.check hs
  | write o n direct => exact h.write hcare hs
  | prioSet t prio =>
    cases hs
    exact h
  | read o n =>
    cases hs
    exact h
  | poll t events noWait =>
    simp only [step] at hs
    split at hs
    case h_2 => cases hs
    rename_i hcall
    cases hs
    exact h.poll hcall events noWait
  | register t =>
    simp only [step] at hs
    split at hs
    case h_2 => cases hs
    rename_i events ii registered noWait hcall
    obtain ⟨event,hevent,heq⟩ := Option.map_eq_some_iff.mp hs
    obtain ⟨rfl,rfl⟩ := mk.inj heq
    exact h.register hcall hevent
  | clear t =>
    simp only [step] at hs
    split at hs
    case h_2 => cases hs
    rename_i events left ret hcall
    cases hs
    exact h.clear hcall
  | «return» t =>
    simp only [step] at hs
    split at hs
    case h_2 => cases hs
    rename_i events ret hcall
    cases hs
    have ht := h t
    simp only [Sound,hcall] at ht
    exact h.leave fun i o hi => absurd (ht.2.1 i o hi).1 (not_lt_zero i)
  | timeout t =>
    simp only [step] at hs
    split at hs
    case h_2 => cases hs
    rename_i events registered hcall
    cases hs
    have ht := h t
    simp only [Sound,hcall] at ht
    obtain ⟨hready,hnoted,hreg,hlinked⟩ := ht
    refine h.enter t ⟨hready,fun i o hi => ?_,fun hne => absurd hnoted hne⟩
    have hget := (hlinked i o).mp hi
    exact ⟨hreg ▸ (List.getElem?_eq_some_iff.mp hget).1,hget⟩

/-- A call that has been notified comes closer to its return. -/
lemma own_step (kind : ω → Kind) (h : Good (s,g)) {i : ℕ} (hi : i ∈ g t) :
    (∃ a s', Action.Own t a ∧ Poll.step kind s a = some (s',.done) ∧ Good (s',g) ∧
      (s'.call t).todo < (s.call t).todo) ∨
    ∃ s', Poll.step kind s (.return t) = some (s',.returned t 0) ∧ s'.ready t i = true := by
  have hne : g t ≠ [] := ne_nil_of_mem hi
  obtain ⟨hready,hrest⟩ := h t
  cases hcall : s.call t with
  | none => simp only [hcall] at hrest; exact absurd hrest.1 hne
  | pended events registered => simp only [hcall] at hrest; exact absurd hrest.1 hne
  | clearing events left ret =>
    simp only [hcall] at hrest
    cases left with
    | zero =>
      refine .inr ⟨s.enter t .none,?_,hready i hi⟩
      simp [Poll.step,hcall,hrest.2 hne]
    | succ left =>
      refine .inl ⟨.clear t,_,.inr (.inr (.inl rfl)),by simp only [Poll.step,hcall],h.clear hcall,?_⟩
      simp [State.enter,Call.todo]
  | registering events ii registered noWait =>
    by_cases hlt : ii < events.length
    · have hevent : events[ii]? = some events[ii] := getElem?_eq_getElem hlt
      refine .inl ⟨.register t,_,.inl rfl,?_,h.register hcall hevent,?_⟩
      · simp only [Poll.step,hcall,hevent,Option.map_some]
      · have := Bool.toNat_le (registerEvent s t ii events[ii] noWait).2
        simp only [State.enter,update_self,Call.todo]
        omega
    · simp only [hcall] at hrest
      have hp : s.isPolling t = false := by
        by_contra hp
        exact hne (hrest.2.2.2.2 (by simpa using hp)).1
      refine .inl ⟨.check t,_,.inr (.inl rfl),?_,h.check_ready hcall,?_⟩
      · simp only [Poll.step,hcall,if_neg hlt,if_pos hp]
      · simp only [State.enter,update_self,Call.todo]
        omega

lemma succeeds (kind : ω → Kind) (h : Good (s,g)) {i : ℕ} (hi : i ∈ g t) : s.Succeeds kind t i := by
  induction hn : (s.call t).todo using Nat.strong_induction_on generalizing s with
  | h n ih =>
    rcases h.own_step kind hi with ⟨a,s',hown,hstep,hgood,hlt⟩ | ⟨s',hstep,hready⟩
    · obtain ⟨as,z,os,has,hserve,hz⟩ := ih _ (hn ▸ hlt) hgood rfl
      refine ⟨a::as,z,.done::os,?_,by simp [serve?,hstep,hserve],hz⟩
      simpa using ⟨hown,has⟩
    · exact ⟨[.return t],s',[],by simp [Action.Own],by simp [serve?,hstep],hready⟩

variable {s' : State τ ω}

lemma returned (h : Good (s,g)) {ret : ℤ}
    (hstep : Poll.step kind s a = some (s',.returned t ret)) (hne : g t ≠ []) :
    ret = 0 ∧ ∀ i ∈ g t, s'.ready t i = true := by
  cases a with
  | «return» u =>
    simp only [Poll.step] at hstep
    split at hstep
    case h_2 => cases hstep
    rename_i events ret' hcall
    obtain ⟨rfl,hr⟩ := mk.inj (some.inj hstep)
    obtain ⟨rfl,rfl⟩ := Reply.returned.inj hr
    have ht := h u
    simp only [Sound,hcall] at ht
    exact ⟨ht.2.2 hne,ht.1⟩
  | check u =>
    simp only [Poll.step] at hstep
    split at hstep
    case h_2 => cases hstep
    rename_i events ii registered noWait hcall
    split_ifs at hstep with hlt hp
    · simp at hstep
    · obtain ⟨rfl,hr⟩ := mk.inj (some.inj hstep)
      obtain ⟨rfl,rfl⟩ := Reply.returned.inj hr
      have ht := h u
      simp only [Sound,hcall] at ht
      exact absurd (ht.2.2.2.2.2 (by simpa using hp)).1 hne
    · simp at hstep
  | poll u events noWait => simp only [Poll.step] at hstep; split at hstep <;> simp at hstep
  | register u => simp only [Poll.step] at hstep; split at hstep <;> simp at hstep
  | clear u => simp only [Poll.step] at hstep; split at hstep <;> simp at hstep
  | timeout u => simp only [Poll.step] at hstep; split at hstep <;> simp at hstep
  | prioSet u prio => simp [Poll.step] at hstep
  | write o n direct => simp [Poll.step] at hstep
  | read o n => simp [Poll.step] at hstep

lemma available (h : Good (s,g)) {o : ω} {n direct : ℕ}
    (hstep : Poll.step kind s (.write o n direct) = some (s',r)) (hmore : s.amount o < s'.amount o)
    (hpended : s.PendedOn t o) :
    ∃ u i, (u,i) ∈ s.pollEvents o ∧ i ∈ Notified.next kind g s s' (.write o n direct) r u := by
  obtain ⟨events,registered,hcall,hmem⟩ := hpended
  have ht := h t
  simp only [Sound,hcall] at ht
  obtain ⟨j,hj⟩ := mem_iff_getElem?.mp hmem
  have hlinked := (ht.2.2.2 j o).mpr hj
  cases hstep
  have hhandled : ((kind o).put (s.amount o) n direct).2 = true := by
    apply Kind.put_handled
    have hkeep : ∀ s : State τ ω, (handleObjPollEvents s o).amount = s.amount := by
      intro s
      unfold handleObjPollEvents
      split <;> rfl
    split_ifs at hmore <;> simpa [hkeep] using hmore
  cases hevents : s.pollEvents o with
  | nil => simp [hevents] at hlinked
  | cons e rest =>
    refine ⟨e.1,e.2,mem_cons_self ..,?_⟩
    simp [Notified.next,hhandled,hevents]

end Good

omit [DecidableEq τ] [DecidableEq ω] in
lemma Good.init (amount : ω → ℕ) (prio : τ → ℤ) : Good (State.init amount prio,fun _ => []) := by
  intro t
  simp [State.init,Sound]

end Objects

section Semaphore

def bothPended : List (Action (Fin 2) Unit) :=
  [.poll 0 [some ()] false,.register 0,.check 0,.poll 1 [some ()] false,.register 1,.check 1]

end Semaphore
end ArmFirmware.Zephyr.Poll
