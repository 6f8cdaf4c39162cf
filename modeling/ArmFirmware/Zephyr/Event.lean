import ArmFirmware.Library.Trace
import ArmFirmware.Library.WaitQueue

/-! Event objects (`kernel/events.c`). A thread that posts holds the lock of the object while it
walks the wait queue and wakes the threads it has collected, one after the other; timeouts do not
take that lock. They come in two steps: `sys_clock_announce` takes one off its list, and later its
`z_thread_timeout` runs. -/
namespace ArmFirmware.Zephyr.Event
open Library List Function Option WaitQueue

def EAGAIN : ℤ := 11

abbrev Word := BitVec 32

def areWaitConditionsMet (desired current : Word) (waitAll : Bool) : Bool :=
  if waitAll then current &&& desired == desired else current &&& desired != 0

/-- The fields of `struct k_thread` that waits for events use. -/
structure Thread where
  events : Word
  waitAll : Bool
  noWakeOnTimeout : Bool
  /-- The timeout is in the list of timeouts. -/
  linked : Bool
  swapRetval : ℤ
  deriving DecidableEq

/-- Where a thread is in `k_event_wait_internal`, with the events and the condition it asks for. -/
inductive Call
  | none
  | pended (desired : Word) (waitAll : Bool)
  /-- The wait is over. -/
  | woken (desired : Word) (waitAll : Bool)
  deriving DecidableEq

/-- A thread is in `k_event_post_internal`: what it has stored, what it returns, and the threads it
has still to wake. -/
structure Post (τ : Type*) where
  events : Word
  previous : Word
  list : List τ

/-- An event object and the threads that wait for it. -/
structure State (τ : Type*) where
  events : Word
  waitQ : List τ
  threads : τ → Thread
  call : τ → Call
  post : Option (Post τ)
  /-- The threads whose `z_thread_timeout` is still to run. -/
  firing : List τ

inductive Post.Kind
  | post (events : Word)
  | set (events : Word)
  | setMasked (events mask : Word)
  | clear (events : Word)

def Post.Kind.args : Post.Kind → Word × Word
  | .post events => (events,events)
  | .set events => (events,~~~0)
  | .setMasked events mask => (events,mask)
  | .clear events => (0,events)

/-- `outranks` tells which waiting threads the caller outranks. -/
inductive Action (τ : Type*)
  /-- `k_event_post_internal` until the wait queue is walked. -/
  | post (kind : Post.Kind)
  /-- A round of its loop. -/
  | wake
  /-- Its end. -/
  | posted
  | wait (thread : τ) (events : Word) (reset waitAll noWait forever : Bool) (outranks : τ → Bool)
  /-- A thread whose wait is over returns. -/
  | ret (thread : τ)
  | announce (thread : τ)
  /-- `z_thread_timeout`. -/
  | fire (thread : τ)

inductive Reply
  | none
  | previous (events : Word)
  | pended
  /-- What `k_event_wait` or `k_event_wait_all` returns. -/
  | mask (events : Word)
  deriving DecidableEq

def init {τ : Type*} : State τ := ⟨0,[],fun _ => ⟨0,false,false,false,0⟩,fun _ => .none,none,[]⟩

section Steps
variable {τ : Type*} [DecidableEq τ]

/-- `unpend_thread_no_timeout`, if the thread is pended. -/
def State.unpend (s : State τ) (t : τ) : State τ :=
  match s.call t with
  | .pended desired waitAll =>
    {s with waitQ := s.waitQ.erase t, call := update s.call t (.woken desired waitAll)}
  | _ => s

def State.modify (s : State τ) (t : τ) (f : Thread → Thread) : State τ :=
  {s with threads := update s.threads t (f (s.threads t))}

def State.wakeThread (s : State τ) (t : τ) (isTimeout : Bool) : State τ :=
  let doNothing := (s.threads t).noWakeOnTimeout && isTimeout
  let s := s.modify t fun thread => {thread with noWakeOnTimeout := false}
  if doNothing then s else s.unpend t

def State.met (s : State τ) (events : Word) (t : τ) : Bool :=
  areWaitConditionsMet (s.threads t).events events (s.threads t).waitAll

/-- `event_walk_op` for all threads of the wait queue; the last one heads the list. -/
def State.walk (s : State τ) (events previous : Word) : State τ :=
  let list := (s.waitQ.filter (s.met events)).reverse
  {s with
    events
    threads := fun t =>
      if t ∈ list then {s.threads t with noWakeOnTimeout := true, linked := false} else s.threads t
    post := some ⟨events,previous,list⟩}

def kEventWaitInternal (s : State τ) (t : τ) (events : Word) (reset waitAll noWait forever : Bool)
    (outranks : τ → Bool) : State τ × Reply :=
  if events = 0 then (s,.mask 0)
  else
    let s := if reset then {s with events := 0} else s
    if areWaitConditionsMet events s.events waitAll then (s,.mask (s.events &&& events))
    else if noWait then (s,.mask 0)
    else
      let s := s.modify t fun thread =>
        {thread with events, waitAll, linked := !forever, swapRetval := -EAGAIN}
      ({s with waitQ := pend outranks t s.waitQ
               call := update s.call t (.pended events waitAll)},.pended)

def step (s : State τ) : Action τ → Option (State τ × Reply)
  | .post kind =>
    let (events,mask) := kind.args
    some (s.walk (s.events &&& ~~~mask ||| events &&& mask) (s.events &&& mask),.none)
  | .wake =>
    match s.post with
    | some ⟨events,previous,t::list⟩ =>
      let s := s.modify t fun thread => {thread with swapRetval := 0, events}
      some (State.wakeThread {s with post := some ⟨events,previous,list⟩} t false,.none)
    | _ => none
  | .posted =>
    match s.post with
    | some ⟨_,previous,[]⟩ => some ({s with post := none},.previous previous)
    | _ => none
  | .wait t events reset waitAll noWait forever outranks =>
    some (kEventWaitInternal s t events reset waitAll noWait forever outranks)
  | .ret t =>
    match s.call t with
    | .woken desired _ =>
      let rv := if (s.threads t).swapRetval = 0 then (s.threads t).events else 0
      some ({s with call := update s.call t .none},.mask (rv &&& desired))
    | _ => none
  | .announce t =>
    some ({s.modify t fun thread => {thread with linked := false} with firing := t::s.firing},.none)
  | .fire t => some (State.wakeThread {s with firing := s.firing.erase t} t true,.none)

/-- The lock is free for a call that takes it, and a thread that posts goes on while it has threads
to wake; a thread in a call makes no other one; timeouts expire from the list. -/
def Meets (s : State τ) : Action τ → Prop
  | .post _ => s.post.isNone
  | .wake => (s.post.elim [] Post.list) ≠ []
  | .posted => s.post.isSome ∧ s.post.elim [] Post.list = []
  | .wait t events _ _ _ _ _ => s.call t = .none ∧ (events = 0 ∨ s.post.isNone)
  | .ret t => ∃ desired waitAll, s.call t = .woken desired waitAll
  | .announce t => (s.threads t).linked = true
  | .fire t => t ∈ s.firing

instance (s : State τ) (t : τ) : Decidable (∃ desired waitAll, s.call t = .woken desired waitAll) :=
  match h : s.call t with
  | .woken desired waitAll => isTrue ⟨desired,waitAll,rfl⟩
  | .none | .pended .. => isFalse (by simp)

instance (s : State τ) (a : Action τ) : Decidable (Meets s a) := by
  unfold Meets
  split <;> infer_instance

/-- The words that the event has had since a thread made its call. -/
abbrev Seen (τ : Type*) := τ → List Word

def Seen.next (seen : Seen τ) (_s s' : State τ) (a : Action τ) (_o : Reply) : Seen τ := fun t =>
  match a with
  | .wait u .. => if t = u then [s'.events] else s'.events::seen t
  | _ => s'.events::seen t

/-- After an operation no thread is pended whose own condition the event satisfies. -/
def NoneLeft (s : State τ) : Prop :=
  s.post = none → ∀ t desired waitAll, s.call t = .pended desired waitAll →
    areWaitConditionsMet desired s.events waitAll = false

/-- What the call of a thread returns, if not zero, is the part it asked for of a word that the
event has had during the call and that met the condition. -/
def FromWord (seen : List Word) (desired : Word) (waitAll : Bool) (mask : Word) : Prop :=
  mask ≠ 0 → ∃ w ∈ seen, areWaitConditionsMet desired w waitAll = true ∧ mask = w &&& desired

/-- A wait returns bits of one of the words that were there during it. -/
def Honest (s : State τ) (a : Action τ) (o : Reply) (seen : Seen τ) : Prop :=
  match a,o with
  | .wait t events _ waitAll _ _ _,.mask mask => FromWord (seen t) events waitAll mask
  | .ret t,.mask mask => ∀ desired waitAll, s.call t = .woken desired waitAll →
      FromWord (seen t) desired waitAll mask
  | _,_ => True

def Collected (s : State τ) (t : τ) : Prop := ∃ p, s.post = some p ∧ t ∈ p.list

/-- What holds for a thread that is woken, with the words since its call: its condition is met if it
is still to be woken, and if its wait has returned 0 a word that met it is there. -/
def Answered (s : State τ) (seen : List Word) (t : τ) (desired : Word) (waitAll : Bool) : Prop :=
  s.events ∈ seen ∧ (Collected s t → areWaitConditionsMet desired s.events waitAll = true) ∧
    ((s.threads t).swapRetval = 0 →
      (s.threads t).events ∈ seen ∧ areWaitConditionsMet desired (s.threads t).events waitAll = true)

/-- What holds for each thread: if it is pended, it is collected if and only if its condition is met. -/
def Fine (s : State τ) (seen : List Word) (t : τ) : Prop :=
  match s.call t with
  | .none => True
  | .pended desired waitAll => s.events ∈ seen ∧ desired ≠ 0 ∧ (s.threads t).events = desired ∧
      (s.threads t).waitAll = waitAll ∧ (s.threads t).swapRetval ≠ 0 ∧
      (areWaitConditionsMet desired s.events waitAll = true ↔ Collected s t)
  | .woken desired waitAll => Answered s seen t desired waitAll

/-- The wait queue has the pended threads, and every thread is fine. -/
structure Good (x : State τ × Seen τ) : Prop where
  pended : ∀ t, t ∈ x.1.waitQ ↔ ∃ desired waitAll, x.1.call t = .pended desired waitAll
  nodup : x.1.waitQ.Nodup
  post : ∀ p, x.1.post = some p → p.events = x.1.events
  fine : ∀ t, Fine x.1 (x.2 t) t

lemma areWaitConditionsMet_zero {desired : Word} {waitAll : Bool} (h : desired ≠ 0) :
    areWaitConditionsMet desired 0 waitAll = false := by
  cases waitAll with
  | false => simp [areWaitConditionsMet]
  | true => simpa [areWaitConditionsMet] using h.symm

variable {s : State τ} {seen : List Word}

omit [DecidableEq τ] in
lemma Fine.frame {s' : State τ} {seen' : List Word} {t : τ} (h : Fine s seen t)
    (hcall : s'.call t = s.call t) (hevents : (s'.threads t).events = (s.threads t).events)
    (hwaitAll : (s'.threads t).waitAll = (s.threads t).waitAll)
    (hret : (s'.threads t).swapRetval = (s.threads t).swapRetval) (hword : s'.events = s.events)
    (hcollected : Collected s' t ↔ Collected s t) (hseen : ∀ w ∈ seen, w ∈ seen') : Fine s' seen' t := by
  unfold Fine at h ⊢
  rw [hcall]
  cases hc : s.call t with
  | none => trivial
  | pended desired waitAll =>
    rw [hc] at h
    rw [hword,hevents,hwaitAll,hret,hcollected]
    exact ⟨hseen _ h.1,h.2⟩
  | woken desired waitAll =>
    rw [hc] at h
    dsimp only [Answered]
    rw [hword,hevents,hret,hcollected]
    exact ⟨hseen _ h.1,h.2.1,fun hr => ⟨hseen _ (h.2.2 hr).1,(h.2.2 hr).2⟩⟩

omit [DecidableEq τ] in
lemma Fine.of_none {t : τ} (h : s.call t = .none) : Fine s seen t := by
  unfold Fine
  rw [h]
  trivial

omit [DecidableEq τ] in
lemma Good.noneLeft {x : State τ × Seen τ} (h : Good x) : NoneLeft x.1 := by
  intro hpost t desired waitAll hcall
  have hfine := h.fine t
  unfold Fine at hfine
  rw [hcall] at hfine
  by_contra hmet
  obtain ⟨p,hp,-⟩ := hfine.2.2.2.2.2.mp (by simpa using hmet)
  rw [hpost] at hp
  cases hp

section Step
variable {s : State τ} {seen : Seen τ}

/-- The walk over the wait queue collects the threads to be woken. -/
lemma Good.walk (h : Good (s,seen)) (events previous : Word) :
    Good (s.walk events previous,fun t => events::seen t) := by
  have hlist : ∀ t, t ∈ (s.waitQ.filter (s.met events)).reverse ↔ t ∈ s.waitQ ∧ s.met events t = true := by
    intro t
    rw [mem_reverse,mem_filter]
  have hcollected : ∀ t, Collected (s.walk events previous) t ↔ t ∈ s.waitQ ∧ s.met events t = true := by
    intro t
    rw [← hlist]
    exact ⟨fun ⟨p,hp,ht⟩ => by cases hp; exact ht,fun ht => ⟨_,rfl,ht⟩⟩
  have hthread : ∀ t, ((s.walk events previous).threads t).events = (s.threads t).events ∧
      ((s.walk events previous).threads t).waitAll = (s.threads t).waitAll ∧
      ((s.walk events previous).threads t).swapRetval = (s.threads t).swapRetval := by
    intro t
    dsimp only [State.walk]
    split_ifs <;> exact ⟨rfl,rfl,rfl⟩
  refine ⟨h.pended,h.nodup,by rintro p ⟨⟩; rfl,fun t => ?_⟩
  have hfine := h.fine t
  have hin := h.pended t
  obtain ⟨hevents,hall,hret⟩ := hthread t
  unfold Fine at hfine ⊢
  dsimp only [Answered]
  rw [hevents,hall,hret,hcollected,show (s.walk events previous).call t = s.call t from rfl]
  cases hc : s.call t with
  | none => trivial
  | pended desired waitAll =>
    rw [hc] at hfine hin
    obtain ⟨-,hne,hev,hwa,hr,-⟩ := hfine
    refine ⟨mem_cons_self ..,hne,hev,hwa,hr,?_⟩
    rw [State.met,hev,hwa]
    exact ⟨fun hm => ⟨hin.mpr ⟨_,_,rfl⟩,hm⟩,And.right⟩
  | woken desired waitAll =>
    rw [hc] at hfine hin
    refine ⟨mem_cons_self ..,fun ht => ?_,fun hr => ⟨mem_cons_of_mem _ (hfine.2.2 hr).1,(hfine.2.2 hr).2⟩⟩
    obtain ⟨_,_,hp⟩ := hin.mp ht.1
    cases hp

lemma unpend_good {t : τ} (hpended : ∀ u, u ∈ s.waitQ ↔ ∃ desired waitAll, s.call u = .pended desired waitAll)
    (hnodup : s.waitQ.Nodup) (hpost : ∀ p, s.post = some p → p.events = s.events)
    (hother : ∀ u, u ≠ t → Fine s (seen u) u)
    (hanswered : ∀ desired waitAll, s.call t = .pended desired waitAll ∨ s.call t = .woken desired waitAll →
      Answered s (seen t) t desired waitAll) : Good (s.unpend t,seen) := by
  unfold State.unpend
  split
  · rename_i desired waitAll hcall
    refine ⟨fun u => ?_,hnodup.erase t,hpost,fun u => ?_⟩
    · by_cases hut : u = t
      · simp [hut,hnodup.mem_erase_iff]
      · simpa [hut,hnodup.mem_erase_iff] using hpended u
    · by_cases hut : u = t
      · subst hut
        dsimp only [Fine]
        rw [update_self]
        exact hanswered desired waitAll (.inl hcall)
      · exact (hother u hut).frame (update_of_ne hut ..) rfl rfl rfl rfl Iff.rfl fun _ => id
  · rename_i hcall
    refine ⟨hpended,hnodup,hpost,fun u => ?_⟩
    by_cases hut : u = t
    · subst hut
      cases hc : s.call u with
      | none => exact .of_none hc
      | pended desired waitAll => exact absurd hc (hcall desired waitAll)
      | woken desired waitAll =>
        dsimp only [Fine]
        rw [hc]
        exact hanswered desired waitAll (.inr hc)
    · exact hother u hut

section
variable (h : Good (s,seen))
include h

variable {seen' : Seen τ}

omit [DecidableEq τ] in
lemma Good.see (hseen : ∀ t, ∀ w ∈ seen t, w ∈ seen' t) : Good (s,seen') :=
  ⟨h.pended,h.nodup,h.post,fun t => (h.fine t).frame rfl rfl rfl rfl rfl Iff.rfl (hseen t)⟩

variable {events : Word} {t : τ}

/-- A collected thread is woken. -/
lemma Good.wake {previous : Word} {list : List τ} (hpost : s.post = some ⟨events,previous,t::list⟩) :
    Good (State.wakeThread {s.modify t fun thread => {thread with swapRetval := 0, events} with
      post := some ⟨events,previous,list⟩} t false,seen) := by
  have hword : events = s.events := h.post _ hpost
  have hcollected : Collected s t := ⟨_,hpost,mem_cons_self ..⟩
  have hiff :
    ∀ u, u ≠ t → ((∃ p, some (⟨events,previous,list⟩ : Post τ) = some p ∧ u ∈ p.list) ↔ Collected s u) := by
    intro u hut
    constructor
    · rintro ⟨p,⟨⟩,hu⟩
      exact ⟨_,hpost,mem_cons_of_mem _ hu⟩
    · rintro ⟨p,hp,hu⟩
      obtain rfl := some.inj (hpost.symm.trans hp)
      exact ⟨_,rfl,(mem_cons.mp hu).resolve_left hut⟩
  unfold State.wakeThread
  rw [Bool.and_false,if_neg (by simp)]
  refine unpend_good h.pended h.nodup (by rintro p ⟨⟩; exact hword) (fun u hut => ?_) fun desired waitAll hcall => ?_
  · refine (h.fine u).frame rfl ?_ ?_ ?_ rfl (hiff u hut) fun _ => id <;> simp [State.modify,hut]
  · have hmet : s.events ∈ seen t ∧ areWaitConditionsMet desired s.events waitAll = true := by
      have hfine := h.fine t
      unfold Fine at hfine
      rcases hcall with hc | hc
      · rw [show s.call t = _ from hc] at hfine
        exact ⟨hfine.1,hfine.2.2.2.2.2.mpr hcollected⟩
      · rw [show s.call t = _ from hc] at hfine
        exact ⟨hfine.1,hfine.2.1 hcollected⟩
    refine ⟨hmet.1,fun _ => hmet.2,fun _ => ?_⟩
    simp only [State.modify,update_self]
    rw [hword]
    exact hmet

lemma Good.fire (t : τ) : Good (s.wakeThread t true,seen) := by
  have hframe : ∀ u seen', Fine s seen' u →
      Fine (s.modify t fun thread => {thread with noWakeOnTimeout := false}) seen' u := by
    intro u seen' hfine
    refine hfine.frame rfl ?_ ?_ ?_ rfl Iff.rfl fun _ => id <;>
      by_cases hut : u = t <;> simp [State.modify,hut]
  unfold State.wakeThread
  dsimp only
  split_ifs
  · exact ⟨h.pended,h.nodup,h.post,fun u => hframe u _ (h.fine u)⟩
  · refine unpend_good h.pended h.nodup h.post (fun u _ => hframe u _ (h.fine u)) fun desired waitAll hcall => ?_
    have hfine := hframe t _ (h.fine t)
    unfold Fine at hfine
    rcases hcall with hc | hc
    · rw [hc] at hfine
      exact ⟨hfine.1,hfine.2.2.2.2.2.mpr,fun hr => absurd hr hfine.2.2.2.2.1⟩
    · rw [hc] at hfine
      exact hfine

lemma Good.announce (t : τ) :
    Good ({s.modify t fun thread => {thread with linked := false} with firing := t::s.firing},seen) := by
  refine ⟨h.pended,h.nodup,h.post,fun u => (h.fine u).frame rfl ?_ ?_ ?_ rfl Iff.rfl fun _ => id⟩ <;>
    by_cases hut : u = t <;> simp [State.modify,hut]

variable {waitAll : Bool}

lemma Good.ret {desired : Word} (hcall : s.call t = .woken desired waitAll) :
    Good ({s with call := update s.call t .none},seen) := by
  refine ⟨fun u => ?_,h.nodup,h.post,fun u => ?_⟩
  · by_cases hut : u = t
    · subst hut
      have := h.pended u
      simp_all
    · simpa [hut] using h.pended u
  · by_cases hut : u = t
    · subst hut
      exact .of_none (update_self ..)
    · exact (h.fine u).frame (update_of_ne hut ..) rfl rfl rfl rfl Iff.rfl fun _ => id

omit [DecidableEq τ] in
lemma Good.reset (hpost : s.post = none) : Good ({s with events := 0},fun t => 0::seen t) := by
  refine ⟨h.pended,h.nodup,fun p hp => absurd hp (by simp [hpost]),fun t => ?_⟩
  have hnot : ¬Collected ({s with events := 0} : State τ) t := by
    rintro ⟨p,hp,-⟩
    simp [hpost] at hp
  have hfine := h.fine t
  unfold Fine at hfine ⊢
  cases hc : s.call t with
  | none => trivial
  | pended desired waitAll =>
    rw [hc] at hfine
    obtain ⟨-,hne,hev,hwa,hr,-⟩ := hfine
    refine ⟨mem_cons_self ..,hne,hev,hwa,hr,?_⟩
    rw [areWaitConditionsMet_zero hne]
    exact iff_of_false (by simp) hnot
  | woken desired waitAll =>
    rw [hc] at hfine
    exact ⟨mem_cons_self ..,fun hcol => absurd hcol hnot,
      fun hr => ⟨mem_cons_of_mem _ (hfine.2.2 hr).1,(hfine.2.2 hr).2⟩⟩

lemma Good.begin (hcall : s.call t = .none) (hseen : ∀ u, u ≠ t → seen' u = seen u) : Good (s,seen') := by
  refine ⟨h.pended,h.nodup,h.post,fun u => ?_⟩
  by_cases hut : u = t
  · subst hut
    exact .of_none hcall
  · dsimp only
    rw [hseen u hut]
    exact h.fine u

/-- A thread whose condition is not met pends. -/
lemma Good.pend (hcall : s.call t = .none) (hpost : s.post = none) (hne : events ≠ 0)
    (hmet : areWaitConditionsMet events s.events waitAll = false) (hseen : s.events ∈ seen t)
    (linked : Bool) (outranks : τ → Bool) :
    Good ({s.modify t fun thread => {thread with events, waitAll, linked, swapRetval := -EAGAIN} with
      waitQ := pend outranks t s.waitQ
      call := update s.call t (.pended events waitAll)},seen) := by
  have hout : t ∉ s.waitQ := by
    intro hin
    obtain ⟨d,a,hp⟩ := (h.pended t).mp hin
    simp [hcall] at hp
  refine ⟨fun u => ?_,?_,h.post,fun u => ?_⟩
  · rw [mem_pend]
    by_cases hut : u = t
    · simp [hut]
    · simpa [hut] using h.pended u
  · exact (pend_perm outranks t _).nodup_iff.mpr (nodup_cons.mpr ⟨hout,h.nodup⟩)
  · by_cases hut : u = t
    · subst hut
      have hnot : ∀ p, s.post ≠ some p := by simp [hpost]
      unfold Fine
      simp only [State.modify,update_self]
      refine ⟨hseen,hne,trivial,trivial,by decide,?_⟩
      rw [hmet]
      exact iff_of_false (by simp) fun ⟨p,hp,_⟩ => hnot p hp
    · refine (h.fine u).frame (update_of_ne hut ..) ?_ ?_ ?_ rfl Iff.rfl fun _ => id <;>
        simp [State.modify,hut]

/-- `k_event_wait` and `k_event_wait_all`. -/
lemma Good.wait (hcall : s.call t = .none)
    (hpost : events = 0 ∨ s.post = none) (reset waitAll noWait forever : Bool) (outranks : τ → Bool) :
    let a := Action.wait t events reset waitAll noWait forever outranks
    let r := kEventWaitInternal s t events reset waitAll noWait forever outranks
    Good (r.1,seen.next s r.1 a r.2) ∧ Honest s a r.2 (seen.next s r.1 a r.2) := by
  intro a r
  by_cases hzero : events = 0
  · have hr : r = (s,.mask 0) := if_pos hzero
    rw [hr]
    refine ⟨(h.see fun u w hw => mem_cons_of_mem s.events hw).begin hcall fun u hut => ?_,
      by simp [a,Honest,FromWord]⟩
    exact if_neg hut
  · have hnone := hpost.resolve_left hzero
    -- the event after the reset, if there is one
    obtain ⟨s₁,hs₁,h₁,hcall₁,hnone₁⟩ : ∃ s₁, (if reset then {s with events := 0} else s) = s₁ ∧
        Good (s₁,fun u => s₁.events::seen u) ∧ s₁.call t = .none ∧ s₁.post = none := by
      cases reset with
      | false => exact ⟨s,rfl,h.see fun u w hw => mem_cons_of_mem _ hw,hcall,hnone⟩
      | true => exact ⟨_,rfl,h.reset hnone,hcall,hnone⟩
    have h₂ : Good (s₁,fun u => if u = t then [s₁.events] else s₁.events::seen u) :=
      h₁.begin hcall₁ fun u hut => if_neg hut
    have hr : r = if areWaitConditionsMet events s₁.events waitAll then (s₁,.mask (s₁.events &&& events))
        else if noWait then (s₁,.mask 0)
        else ({s₁.modify t fun thread =>
            {thread with events, waitAll, linked := !forever, swapRetval := -EAGAIN} with
          waitQ := WaitQueue.pend outranks t s₁.waitQ
          call := update s₁.call t (.pended events waitAll)},.pended) := by
      subst hs₁
      exact if_neg hzero
    rw [hr]
    split_ifs with hmet hno
    · refine ⟨h₂,fun _ => ⟨s₁.events,?_,hmet,rfl⟩⟩
      simp [a,Seen.next]
    · exact ⟨h₂,by simp [a,Honest,FromWord]⟩
    · exact ⟨h₂.pend hcall₁ hnone₁ hzero (by simpa using hmet) (by simp) (!forever) outranks,trivial⟩

/-- Every step keeps the invariant, and its answer is honest. -/
lemma step_good {a : Action τ} (ha : Meets s a) :
    ∃ s' o, step s a = some (s',o) ∧ Good (s',seen.next s s' a o) ∧ Honest s a o (seen.next s s' a o) := by
  have hsee : ∀ {s' : State τ}, Good (s',seen) → Good (s',fun u => s'.events::seen u) :=
    fun h' => h'.see fun u w hw => mem_cons_of_mem _ hw
  cases a with
  | post kind => exact ⟨_,_,rfl,h.walk _ _,trivial⟩
  | wake =>
    cases hpost : s.post with
    | none => simp [Meets,hpost] at ha
    | some p =>
      obtain ⟨events,previous,list⟩ := p
      cases list with
      | nil => simp [Meets,hpost] at ha
      | cons t list => exact ⟨_,_,by rw [step,hpost],hsee (h.wake hpost),trivial⟩
  | posted =>
    cases hpost : s.post with
    | none => simp [Meets,hpost] at ha
    | some p =>
      obtain ⟨events,previous,list⟩ := p
      obtain rfl : list = [] := by simpa [Meets,hpost] using ha
      refine ⟨{s with post := none},.previous previous,by rw [step,hpost],
        hsee ⟨h.pended,h.nodup,by simp,fun u => ?_⟩,trivial⟩
      refine (h.fine u).frame rfl rfl rfl rfl rfl (iff_of_false ?_ ?_) fun _ => id
      · rintro ⟨p,hp,-⟩
        cases hp
      · rintro ⟨p,hp,hu⟩
        obtain rfl := some.inj (hpost.symm.trans hp)
        cases hu
  | wait t events reset waitAll noWait forever outranks =>
    obtain ⟨hgood,hhonest⟩ := h.wait ha.1 (by simpa using ha.2) reset waitAll noWait forever outranks
    exact ⟨_,_,rfl,hgood,hhonest⟩
  | ret t =>
    obtain ⟨desired,waitAll,hcall⟩ := ha
    refine ⟨_,_,by rw [step,hcall],hsee (h.ret hcall),?_⟩
    intro d w hcall' hne
    obtain ⟨rfl,rfl⟩ := Call.woken.inj (hcall.symm.trans hcall')
    have hfine := h.fine t
    unfold Fine at hfine
    rw [show s.call t = _ from hcall] at hfine
    split_ifs at hne ⊢ with hr
    · exact ⟨_,mem_cons_of_mem _ (hfine.2.2 hr).1,(hfine.2.2 hr).2,rfl⟩
    · simp at hne
  | announce t => exact ⟨_,_,rfl,hsee (h.announce t),trivial⟩
  | fire t =>
    have herase : Good ({s with firing := s.firing.erase t},seen) := { h with }
    exact ⟨_,_,rfl,hsee (herase.fire t),trivial⟩

end

end Step

/-- In every run, after each operation no thread is pended whose own condition the event satisfies,
and no wait returns events but those of a word that has met its condition. -/
theorem runs_wake_and_answer {is : List (Action τ)} (h : Along Meets step init is) :
    ∃ x os, serve? (recording step Seen.next) (init,fun _ => []) is = some (x,os) ∧
      Trace (fun x a o y => NoneLeft y.1 ∧ Honest x.1 a o y.2) (init,fun _ => []) is os x := by
  have hinit : Good ((init,fun _ => []) : State τ × Seen τ) :=
    ⟨by simp [init],by simp [init],by simp [init],fun _ => .of_none rfl⟩
  refine Trace.of_steps ?_ hinit (h.recording fun _ => [])
  rintro ⟨s,seen⟩ a hx ha
  obtain ⟨s',o,hs,hgood,hhonest⟩ := step_good hx ha
  exact ⟨(s',seen.next s s' a o),o,recording_eq_some.mpr ⟨hs,rfl⟩,hgood,hgood.noneLeft,hhonest⟩

end Steps

def twoWaits : List (Action (Fin 2)) :=
  [.wait 0 3 true false false false fun _ => false,.wait 1 3 false true false true fun _ => false,
    .post (.post 1),.wake,.posted,.ret 0,.wait 0 4 false false false false fun _ => true,.announce 0,
    .post (.setMasked 6 6),.fire 0,.wake,.wake,.posted,.ret 0,.ret 1]

theorem runs_wake_and_answer_twoWaits :
    ∃ x os, serve? (recording step Seen.next) (init,fun _ => []) twoWaits = some (x,os) ∧
      Trace (fun x a o y => NoneLeft y.1 ∧ Honest x.1 a o y.2) (init,fun _ => []) twoWaits os x :=
  runs_wake_and_answer (by decide)

end ArmFirmware.Zephyr.Event
