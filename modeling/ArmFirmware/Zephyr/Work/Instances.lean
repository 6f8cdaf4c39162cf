import ArmFirmware.Zephyr.Work.Steps

/-! Where the items are, over whole runs: the QUEUED flag is right about the pending lists, and
an item that runs and is queued again waits where it runs. -/
namespace ArmFirmware.Zephyr.Work
open Library State Function

section Placement
open List Board

/-- An item is queued iff it is pending at exactly one queue, once, and it runs on one queue at
most. -/
structure Placed {ι κ ς δ : Type*} [DecidableEq ι] [DecidableEq ς] (s : State ι κ ς δ) (i : ι) : Prop where
  queued : (s.flags (.item i)).queued = true ↔
    ∃ q, (s.queues q).pending.count (.item i) = 1 ∧ ∀ q' ≠ q, .item i ∉ (s.queues q').pending
  nowhere : (s.flags (.item i)).queued = false → ∀ q, .item i ∉ (s.queues q).pending
  running : (s.flags (.item i)).running = true ↔ ∃ q, (s.queues q).thread = .running (.item i)
  alone (q q' : κ) : (s.queues q).thread = .running (.item i) →
    (s.queues q').thread = .running (.item i) → q = q'

/-- An item that runs before a step and is queued after it is queued where it runs. -/
def Rejoins {ι κ ς δ : Type*} (s t : State ι κ ς δ) : Prop :=
  ∀ i q, (s.queues q).thread = .running (.item i) → (t.flags (.item i)).queued = true →
    .item i ∈ (t.queues q).pending

variable {ι κ ς δ : Type*} [DecidableEq ι] [DecidableEq κ] [DecidableEq ς] {delayable : ι → Bool}
  {s t : State ι κ ς δ} {b : Board (Node ι ς) κ}

omit [DecidableEq ι] [DecidableEq κ] [DecidableEq ς] in
lemma init_good (delayable : ι → Bool) : Good delayable (init : State ι κ ς δ) empty := by
  refine ⟨empty_sound,fun _ => rfl,fun _ _ => by simp [init,empty],?_,fun i => ?_,fun c => ?_,nodup_nil⟩
  · exact fun q _ => ⟨rfl,rfl,rfl,rfl⟩
  · refine ⟨rfl,?_,?_,?_,rfl,?_⟩ <;> simp [init,empty]
  · refine ⟨?_,?_,?_⟩ <;> simp [init,empty]

lemma Good.apply_queue (h : Good delayable s b) {e : Effect ι κ ς δ} (he : e.Allowed delayable s) {i : ι}
    (hi : (s.flags (.item i)).running = true) : (e.apply s).queue i = s.queue i := by
  cases e with
  | enqueue caller q j =>
    rw [enqueue_eq,notify_queue,append_queue,update_apply]
    split
    · next hij =>
      subst hij
      exact (he.2.2.1 hi).symm
    · rfl
  | insertFlusher c q j => rw [insertFlusher_eq,notify_queue,plant_queue]
  | take q n =>
    obtain ⟨-,-,rest,hp⟩ := he
    rw [take_eq hp,begin_queue]
  | finish q n => rw [(h.finish_frame he).2.2.1]
  | idle q =>
    simp only [Effect.apply,takeStep,he.2.2]
    split <;> rfl
  | drain d q plug => simp [Effect.apply,State.setQueue]
  | _ => rfl

lemma apply_running {e : Effect ι κ ς δ} (he : e.OnItem) (i : ι) :
    ((e.apply s).flags (.item i)).running = (s.flags (.item i)).running := by
  have hupdate : ∀ j (f : Flags), f.running = (s.flags (.item j)).running →
      (update s.flags (.item j) f (.item i)).running = (s.flags (.item i)).running := by
    intro j f hf
    rw [update_apply]
    split
    · next hij => rw [hf,hij]
    · rfl
  cases e with
  | enqueue caller q j =>
    rw [enqueue_eq,notify_flags,append_flags]
    exact hupdate j _ rfl
  | dequeue q j => exact hupdate j _ rfl
  | startCancel j => exact hupdate j _ rfl
  | delay j queue due => exact hupdate j _ rfl
  | undelay j => exact hupdate j _ rfl
  | expire j => exact hupdate j _ rfl
  | _ => exact he.elim

lemma Does.queue {es : List (Effect ι κ ς δ)} (h : Does delayable s es t) (hes : ∀ e ∈ es.dropLast, e.OnItem)
    (hs : ∃ b, Good delayable s b) {i : ι} (hi : (s.flags (.item i)).running = true) : t.queue i = s.queue i := by
  induction h with
  | nil s => rfl
  | @cons s t e es head tail ih =>
    obtain ⟨b,hb⟩ := hs
    have hqueue := hb.apply_queue head hi
    cases es with
    | nil =>
      cases tail
      exact hqueue
    | cons e' es =>
      obtain ⟨he,hes⟩ := forall_mem_cons.mp hes
      exact (ih hes ⟨_,hb.apply head⟩ (by rwa [apply_running he])).trans hqueue

lemma step_rejoins (hs : ∃ b, Good delayable s b) {a : Action ι κ ς δ} (ha : Meets delayable s a) :
    ∃ t o, step s a = some (t,o) ∧ (∃ b, Good delayable t b) ∧ Rejoins s t := by
  obtain ⟨b,hb⟩ := hs
  obtain ⟨t,o,es,hstep,hscript,hdoes⟩ := step_does hb ha
  have ht := hdoes.good ⟨b,hb⟩
  refine ⟨t,o,hstep,ht,fun i q hthread hqueued => ?_⟩
  obtain ⟨b',hb'⟩ := ht
  have hactive := (hb.active q _).mp hthread
  have hqueue := hdoes.queue hscript.onItem ⟨b,hb⟩ ((hb.item i).running.mpr ⟨q,hactive⟩)
  obtain ⟨q',hq'⟩ := (hb'.item i).queued.mp hqueued
  obtain rfl : q' = q := by
    have := (hb'.queue_of_pending hq').symm.trans (hqueue.trans (hb.queue_of_active hactive))
    exact Option.some.inj this
  rwa [hb'.pending]

omit [DecidableEq κ] in
lemma Good.placed (h : Good delayable s b) (i : ι) : Placed s i := by
  refine ⟨⟨fun hq => ?_,?_⟩,fun hq q => ?_,?_,fun q q' hq hq' => ?_⟩
  · obtain ⟨q,hmem⟩ := (h.item i).queued.mp hq
    refine ⟨q,?_,fun q' hne hmem' => hne ?_⟩
    · rw [h.pending]
      exact count_eq_one_of_mem (h.sound.nodup q) hmem
    · rw [h.pending] at hmem'
      exact h.sound.pending_eq hmem' hmem
  · rintro ⟨q,hcount,-⟩
    refine (h.item i).queued.mpr ⟨q,?_⟩
    rw [←h.pending]
    exact count_pos_iff.mp (hcount ▸ Nat.one_pos)
  · rw [h.pending]
    exact h.not_pending hq q
  · rw [(h.item i).running]
    simp only [h.active]
  · exact h.sound.active_eq ((h.active q _).mp hq) ((h.active q' _).mp hq')

/-- In every run the flags are right about the queues, an item runs on one queue at most, and if
it is queued while it runs it goes to the queue that runs it. -/
theorem runs_keep_items_at_one_queue (delayable : ι → Bool) {is : List (Action ι κ ς δ)}
    (h : Along (Meets delayable) step init is) :
    ∃ s os, serve? step init is = some (s,os) ∧
      Trace (fun s a o t => step s a = some (t,o) ∧ Rejoins s t) init is os s ∧ ∀ i, Placed s i := by
  obtain ⟨s,os,hserve,htrace,b,hb⟩ := Trace.of_along (I := fun s => ∃ b, Good delayable s b)
    (fun s a hs ha => by
      obtain ⟨t,o,hstep,ht,-⟩ := step_rejoins hs ha
      exact ⟨t,o,hstep,ht⟩) ⟨_,init_good delayable⟩ h
  refine ⟨s,os,hserve,htrace.mono ?_,hb.placed⟩
  rintro s a o t ⟨hs,ha,hstep⟩
  obtain ⟨t',o',hstep',-,hrejoins⟩ := step_rejoins hs ha
  cases hstep.symm.trans hstep'
  exact ⟨hstep,hrejoins⟩

def resubmitted : List (Action Unit Bool Unit Unit) :=
  [.start false,.start true,.submit none (some false) (),.take false,.submit none (some true) (),
    .flush () (),.finish false,.take false,.finish false,.take false,.finish false,.resume ()]

theorem runs_keep_items_at_one_queue_resubmitted :
    ∃ s os, serve? step init resubmitted = some (s,os) ∧
      Trace (fun s a o t => step s a = some (t,o) ∧ Rejoins s t) init resubmitted os s ∧ ∀ i, Placed s i :=
  runs_keep_items_at_one_queue (fun _ => false) (by decide +kernel)

end Placement

/-! The instances of an item. Every accepted submission starts one, and it ends when its handler
has returned or when it is cancelled in the queue. The log of a run numbers them; it watches the
QUEUED and RUNNING flags and the calls of flushes, and nothing depends on it. -/

open Effect

inductive Fate
  | finished
  | cancelled
  deriving DecidableEq

/-- Of an item, how many instances there were so far, the number of the one that ran last, and
what became of each. Of a sync object whose caller waits in a flush, the item and the number of
its last instance at the call. -/
structure Log (ι ς : Type*) where
  born : ι → ℕ
  serial : ι → ℕ
  ended : ι → ℕ → Option Fate
  asked : ς → Option (ι × ℕ)

namespace Log
section Observe
variable {ι κ ς δ : Type*}

def empty : Log ι ς := ⟨fun _ => 0,fun _ => 0,fun _ _ => none,fun _ => none⟩

/-- What the flags before and after a step say about the instances. -/
@[simps] def observe (l : Log ι ς) (s t : State ι κ ς δ) : Log ι ς where
  born i :=
    if !(s.flags (.item i)).queued && (t.flags (.item i)).queued then l.born i+1 else l.born i
  serial i :=
    if !(s.flags (.item i)).running && (t.flags (.item i)).running then l.born i else l.serial i
  ended i :=
    let f := s.flags (.item i)
    let f' := t.flags (.item i)
    if f.running && !f'.running then update (l.ended i) (l.serial i) (some .finished)
    -- an item that leaves the queue is taken by its thread, or cancelled
    else if f.queued && !f'.queued && f.running == f'.running then
      update (l.ended i) (l.born i) (some .cancelled)
    else l.ended i
  asked := l.asked

/-- No item starts or stops being queued or running. -/
def Steady (s t : State ι κ ς δ) : Prop :=
  ∀ i, (t.flags (.item i)).queued = (s.flags (.item i)).queued ∧
    (t.flags (.item i)).running = (s.flags (.item i)).running

variable {l : Log ι ς} {s t u : State ι κ ς δ}

lemma Steady.trans (h : Steady s t) (h' : Steady t u) : Steady s u :=
  fun i => ⟨(h' i).1.trans (h i).1,(h' i).2.trans (h i).2⟩

lemma observe_steady_left (h : Steady s u) : l.observe u t = l.observe s t := by
  simp only [observe,h _]

lemma observe_steady_right (h : Steady u t) : l.observe s t = l.observe s u := by
  simp only [observe,h _]

lemma observe_of_steady (h : Steady s t) : l.observe s t = l := by
  rw [observe_steady_right h]
  simp [observe]

variable [DecidableEq ς]

def ask (l : Log ι ς) (c : ς) (i : ι) : Log ι ς :=
  {l with asked := update l.asked c (some (i,l.born i))}

def answer (l : Log ι ς) (c : ς) : Log ι ς :=
  {l with asked := update l.asked c none}

def next (l : Log ι ς) (s t : State ι κ ς δ) (a : Action ι κ ς δ) (o : Reply ι ς δ) : Log ι ς :=
  match a,o with
  | .flush c i,.blocked | .flushDelayable _ c i,.blocked => (l.observe s t).ask c i
  | .resume c,_ => (l.observe s t).answer c
  | _,_ => l.observe s t

end Observe
end Log

section Moves
variable {ι κ ς δ : Type*} {s t : State ι κ ς δ} {l : Log ι ς} {i : ι}

/-- What an effect does to the instances of an item. -/
inductive Shift (f f' : Flags) : Prop
  | same (hq : f'.queued = f.queued) (hr : f'.running = f.running)
  | enqueue (hq : f.queued = false) (hq' : f'.queued = true) (hr : f'.running = f.running)
  | dequeue (hq : f.queued = true) (hq' : f'.queued = false) (hr : f'.running = f.running)
  | take (hq : f.queued = true) (hq' : f'.queued = false) (hr : f.running = false) (hr' : f'.running = true)
  | finish (hq : f'.queued = f.queued) (hr : f.running = true) (hr' : f'.running = false)

/-- Every instance that has not ended is the one that is queued or the one that runs. -/
structure Account (s : State ι κ ς δ) (l : Log ι ς) (i : ι) : Prop where
  le : l.serial i ≤ l.born i
  lt : (s.flags (.item i)).queued = true → (s.flags (.item i)).running = true → l.serial i < l.born i
  queued : (s.flags (.item i)).queued = true → 0 < l.born i
  running : (s.flags (.item i)).running = true → 0 < l.serial i
  all (k : ℕ) : 0 < k → k ≤ l.born i → l.ended i k = none →
    (s.flags (.item i)).queued = true ∧ k = l.born i ∨ (s.flags (.item i)).running = true ∧ k = l.serial i

/-- The account of an item follows its flags. -/
lemma Account.shift (h : Account s l i) (hshift : Shift (s.flags (.item i)) (t.flags (.item i))) :
    Account t (l.observe s t) i := by
  obtain ⟨hle,hlt,hposq,hposr,hall⟩ := h
  cases hshift with
  | same hq hr =>
    refine ⟨?_,?_,?_,?_,fun k => ?_⟩
    · simpa [hq,hr] using hle
    · simpa [hq,hr] using hlt
    · simpa [hq] using hposq
    · simpa [hr] using hposr
    · simpa [hq,hr] using hall k
  | enqueue hq hq' hr =>
    -- a new instance, behind the one that may be running
    refine ⟨?_,?_,?_,?_,fun k hk hle' hnone => ?_⟩
    · simpa [hq,hq',hr] using Nat.le_succ_of_le hle
    · simpa [hq,hq',hr] using fun _ => Nat.lt_succ_of_le hle
    · simp [hq,hq']
    · simpa [hr] using hposr
    · simp only [Log.observe_born,Log.observe_serial,Log.observe_ended,hq,hq',hr] at hle' hnone ⊢
      rcases Nat.le_succ_iff.mp (by simpa using hle') with hk' | hk'
      · have := hall k hk hk' (by simpa using hnone)
        simp_all
      · exact .inl ⟨trivial,by simpa using hk'⟩
  | dequeue hq hq' hr =>
    refine ⟨?_,?_,?_,?_,fun k hk hle' hnone => ?_⟩
    · simpa [hq,hq',hr] using hle
    · simp [hq']
    · simp [hq']
    · simpa [hr] using hposr
    · have hne : k ≠ l.born i := by
        rintro rfl
        simp [hq,hq',hr] at hnone
      have := hall k hk (by simpa [hq,hq'] using hle') (by simpa [hq,hq',hr,hne] using hnone)
      simpa [hq,hq',hr,hne] using this
  | take hq hq' hr hr' =>
    refine ⟨?_,?_,?_,?_,fun k hk hle' hnone => ?_⟩
    · simp [hq,hr,hr']
    · simp [hq']
    · simp [hq']
    · simpa [hr,hr'] using hposq hq
    · have := hall k hk (by simpa [hq,hq'] using hle') (by simpa [hq,hq',hr,hr'] using hnone)
      simpa [hq,hq',hr,hr'] using this
  | finish hq hr hr' =>
    refine ⟨?_,?_,?_,?_,fun k hk hle' hnone => ?_⟩
    · simpa [hq,hr,hr'] using hle
    · simp [hr']
    · simpa [hq] using hposq
    · simp [hr']
    · have hne : k ≠ l.serial i := by
        rintro rfl
        simp [hr,hr'] at hnone
      have := hall k hk (by simpa [hq] using hle') (by simpa [hr,hr',hne] using hnone)
      simpa [hq,hr,hr',hne] using this

/-- The effects after which an item is queued or runs that did not before, or the other way. -/
def Effect.moves : Effect ι κ ς δ → Bool
  | enqueue _ _ _ | dequeue _ _ | take _ _ | finish _ _ => true
  | _ => false

lemma Script.countP_moves {a : Action ι κ ς δ} {o : Reply ι ς δ} {es : List (Effect ι κ ς δ)}
    (h : Script a o es) : es.countP moves ≤ 1 := by
  have hsubmits : ∀ caller q i, (submits caller q i : List (Effect ι κ ς δ)).countP moves ≤ 1 := by
    intro caller q i
    cases q <;> simp [submits,moves]
  have hcancels : ∀ q i run, (cancels q i run : List (Effect ι κ ς δ)).countP moves ≤ 1 := by
    intro q i run
    cases q <;> cases run <;> simp [cancels,List.countP_cons,moves]
  have hundelays : ∀ i d, (undelays i d : List (Effect ι κ ς δ)).countP moves = 0 := by
    intro i d
    cases d <;> simp [undelays,moves]
  cases h <;> simp [List.countP_append,List.countP_cons,moves,hsubmits,hcancels,hundelays]

end Moves

section Effects
variable {ι κ ς δ : Type*} [DecidableEq ι] [DecidableEq κ] [DecidableEq ς] {delayable : ι → Bool}
  {s t : State ι κ ς δ} {b : Board (Node ι ς) κ} {l : Log ι ς} {e : Effect ι κ ς δ} {es : List (Effect ι κ ς δ)}

namespace Log

def asks (l : Log ι ς) : Effect ι κ ς δ → Log ι ς
  | .insertFlusher c _ i => l.ask c i
  | .resume c => l.answer c
  | _ => l

def after (l : Log ι ς) (s : State ι κ ς δ) (e : Effect ι κ ς δ) : Log ι ς :=
  (l.observe s (e.apply s)).asks e

def afterAll : Log ι ς → State ι κ ς δ → List (Effect ι κ ς δ) → Log ι ς
  | l,_,[] => l
  | l,s,e::es => afterAll (l.after s e) (e.apply s) es

end Log

open Log

lemma apply_steady (he : e.Allowed delayable s) (hmoves : e.moves = false) : Steady s (e.apply s) := by
  have hupdate : ∀ n (f : Flags), f.queued = (s.flags n).queued → f.running = (s.flags n).running → ∀ i,
      (update s.flags n f (.item i)).queued = (s.flags (.item i)).queued ∧
        (update s.flags n f (.item i)).running = (s.flags (.item i)).running := by
    intro n f hq hr i
    rw [Function.update_apply]
    split
    · next hij => exact hij ▸ ⟨hq,hr⟩
    · exact ⟨rfl,rfl⟩
  cases e with
  | startCancel j => exact hupdate _ _ rfl rfl
  | insertFlusher c q j =>
    intro i
    rw [insertFlusher_eq,notify_flags,plant_flags]
    simp
  | idle q =>
    intro i
    simp only [apply,takeStep,he.2.2]
    split <;> exact ⟨rfl,rfl⟩
  | drain d q plug =>
    intro i
    simp [apply,State.setQueue]
  | delay j queue due => exact hupdate _ _ rfl rfl
  | undelay j => exact hupdate _ _ rfl rfl
  | expire j => exact hupdate _ _ rfl rfl
  | register | unplug | start | resume | announce | tick => exact fun i => ⟨rfl,rfl⟩
  | enqueue | dequeue | take | finish => exact absurd hmoves (by simp [moves])

lemma Does.steady (h : Does delayable s es t) (hes : es.countP moves = 0) : Steady s t := by
  induction h with
  | nil s => exact fun i => ⟨rfl,rfl⟩
  | @cons s t e es head tail ih =>
    rw [List.countP_cons] at hes
    have he : e.moves = false := by
      by_contra he
      simp [he] at hes
    exact Steady.trans (apply_steady head he) (ih (by omega))

omit [DecidableEq ι] [DecidableEq κ] in
lemma asks_of_onItem (he : e.OnItem) : l.asks e = l := by
  cases e <;> first | rfl | exact he.elim

lemma afterAll_concat {pre : List (Effect ι κ ς δ)} (h : Does delayable s (pre++[e]) t) (hpre : ∀ e ∈ pre, e.OnItem)
    (hmoves : (pre++[e]).countP moves ≤ 1) : l.afterAll s (pre++[e]) = (l.observe s t).asks e := by
  induction pre generalizing l s with
  | nil =>
    obtain - | ⟨-,htail⟩ := h
    cases htail
    rfl
  | cons p pre ih =>
    obtain - | ⟨hp,htail⟩ := h
    obtain ⟨hitem,hpre⟩ := List.forall_mem_cons.mp hpre
    rw [List.cons_append,List.countP_cons] at hmoves
    rw [List.cons_append,afterAll,after,asks_of_onItem hitem,ih htail hpre (by omega)]
    cases hm : p.moves with
    | true =>
      -- nothing moves after `p`
      have hsteady := htail.steady (by simp [hm] at hmoves; simpa using hmoves)
      rw [observe_of_steady hsteady,observe_steady_right hsteady]
    | false =>
      have hsteady := apply_steady hp hm
      rw [observe_of_steady hsteady,observe_steady_left hsteady]

lemma afterAll_of_onItem (h : Does delayable s es t) (hes : ∀ e ∈ es, e.OnItem)
    (hmoves : es.countP moves ≤ 1) : l.afterAll s es = l.observe s t := by
  rcases List.eq_nil_or_concat es with rfl | ⟨pre,e,rfl⟩
  · cases h
    exact (observe_of_steady fun i => ⟨rfl,rfl⟩).symm
  · rw [List.concat_eq_append] at h hes hmoves ⊢
    rw [afterAll_concat h (fun e he => hes e (List.mem_append_left _ he)) hmoves,asks_of_onItem (hes e (by simp))]

theorem next_eq_afterAll {a : Action ι κ ς δ} {o : Reply ι ς δ}
    (hscript : Script a o es) (h : Does delayable s es t) : l.next s t a o = l.afterAll s es := by
  have hmoves := hscript.countP_moves
  have hlast : ∀ pre e, es = pre++[e] → (∀ e ∈ pre, e.OnItem) → l.afterAll s es = (l.observe s t).asks e := by
    rintro pre e rfl hpre
    exact afterAll_concat h hpre hmoves
  have happend : ∀ {l l' : List (Effect ι κ ς δ)}, (∀ e ∈ l, e.OnItem) → (∀ e ∈ l', e.OnItem) →
      ∀ e ∈ l++l', e.OnItem := fun hl hl' e he => (List.mem_append.mp he).elim (hl e) (hl' e)
  cases hscript with
  | submit | scheduleNow => exact (afterAll_of_onItem h submits_onItem hmoves).symm
  | cancel | cancelSync => exact (afterAll_of_onItem h cancels_onItem hmoves).symm
  | rescheduleNow | flushDelayableIdle =>
    exact (afterAll_of_onItem h (happend undelays_onItem submits_onItem) hmoves).symm
  | cancelDelayable | cancelDelayableSync =>
    exact (afterAll_of_onItem h (happend undelays_onItem cancels_onItem) hmoves).symm
  | workTimeout =>
    exact (afterAll_of_onItem h (List.forall_mem_cons.mpr ⟨trivial,submits_onItem⟩) hmoves).symm
  | cancelWait => exact (hlast _ _ rfl cancels_onItem).symm
  | reschedule => exact (hlast _ _ rfl undelays_onItem).symm
  | cancelDelayableWait =>
    exact (hlast _ _ (List.append_assoc ..).symm (happend undelays_onItem cancels_onItem)).symm
  | flushDelayable =>
    exact (hlast _ _ (List.append_assoc ..).symm (happend undelays_onItem submits_onItem)).symm
  | cancelIdle | flushIdle | drained | scheduled | cancelDelayableIdle =>
    exact (afterAll_of_onItem h (by simp) hmoves).symm
  | _ => exact (hlast [] _ rfl (by simp)).symm

/-- What an effect can do to the flags of an item. -/
lemma Good.shift (h : Good delayable s b) (he : e.Allowed delayable s) (i : ι) :
    Shift (s.flags (.item i)) ((e.apply s).flags (.item i)) := by
  have hupdate : ∀ n (f : Flags), (n = .item i → Shift (s.flags n) f) →
      Shift (s.flags (.item i)) (update s.flags n f (.item i)) := by
    intro n f hf
    rw [Function.update_apply]
    split
    · next hni => exact hni ▸ hf hni.symm
    · exact .same rfl rfl
  cases hm : e.moves with
  | false => exact .same (apply_steady he hm i).1 (apply_steady he hm i).2
  | true =>
    cases e with
    | enqueue caller q j =>
      rw [enqueue_eq,notify_flags,append_flags]
      exact hupdate _ _ fun _ => .enqueue he.2.1 rfl rfl
    | dequeue q j => exact hupdate _ _ fun _ => .dequeue he.2.1 rfl rfl
    | take q n =>
      obtain ⟨-,hthread,rest,hp⟩ := he
      rw [take_eq hp,begin_flags]
      refine hupdate _ _ ?_
      rintro rfl
      have hmem : .item i ∈ b.pending q := by
        rw [←h.pending,hp]
        exact List.mem_cons_self ..
      refine .take ((h.item i).queued.mpr ⟨q,hmem⟩) rfl ?_ rfl
      by_contra hrun
      obtain ⟨q',hq'⟩ := (h.item i).running.mp (by simpa using hrun)
      obtain rfl := h.sound.pending_active hq' hmem
      simp [(h.active _ _).mpr hq'] at hthread
    | finish q n =>
      obtain ⟨⟨f,hr,-,hq,-,-,hf⟩,-⟩ := h.finish_frame he
      rw [hf]
      refine hupdate _ _ ?_
      rintro rfl
      exact .finish hq ((h.item i).running.mpr ⟨q,(h.active _ _).mp he⟩) hr
    | _ => simp [moves] at hm

end Effects

end ArmFirmware.Zephyr.Work
