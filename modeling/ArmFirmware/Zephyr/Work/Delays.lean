import ArmFirmware.Zephyr.Work.Drain

/-! Delayed submissions. Between the announcement that unlinks the timeout of an item and its
`work_timeout`, the DELAYED flag alone stands for the submission: a delay that is set there is
taken for the one that has ended, and a flush that clears the flag has no timeout to abort. -/
namespace ArmFirmware.Zephyr.Work
open Library State Log List Option Function

attribute [local simp] setFlags undelays

section Deadlines
variable {ι κ ς δ : Type*} [DecidableEq ι]

/-- The end of the delay that was set last for an item; `none` is without end. -/
abbrev Deadlines (ι : Type*) := ι → Option ℕ

def Deadlines.next (dl : Deadlines ι) (s _t : State ι κ ς δ) (a : Action ι κ ς δ) (o : Reply ι ς δ) : Deadlines ι :=
  match a,o with
  | .schedule _ _ i (.ticks n),.ret 1 | .reschedule _ _ i (.ticks n),_ =>
    update dl i (some (s.now+n))
  | .schedule _ _ i .forever,.ret 1 | .reschedule _ _ i .forever,_ => update dl i none
  | _,_ => dl

def Deadlines.after (dl : Deadlines ι) (s : State ι κ ς δ) : Effect ι κ ς δ → Deadlines ι
  | .delay i _ n => update dl i (n.map (s.now+·))
  | _ => dl

/-- A timeout is linked for the delay set last, and once it is unlinked that delay is over. -/
structure Clocked (s : State ι κ ς δ) (dl : Deadlines ι) (i : ι) : Prop where
  linked (d : ℕ) : s.due i = some d →
    (s.flags (.item i)).delayed = true ∧ ∃ e, dl i = some e ∧ e ≤ d
  firing : s.firing = some i → s.due i = none ∧
    ((s.flags (.item i)).delayed = true → ∃ e, dl i = some e ∧ e ≤ s.now)

def Effect.clocks : Effect ι κ ς δ → Bool
  | delay _ _ _ | undelay _ | announce _ | expire _ | tick => true
  | _ => false

end Deadlines

section Effects
variable {ι κ ς δ : Type*} [DecidableEq ι] [DecidableEq κ] [DecidableEq ς] {delayable : ι → Bool}
  {s t : State ι κ ς δ} {b : Board (Node ι ς) κ} {dl : Deadlines ι} {es : List (Effect ι κ ς δ)}
  {o : Reply ι ς δ} {a : Action ι κ ς δ}

/-- Effects that leave the clock alone. -/
lemma Good.apply_clock (h : Good delayable s b) {e : Effect ι κ ς δ} (he : e.Allowed delayable s)
    (hclock : e.clocks = false) : (∀ i, ((e.apply s).flags (.item i)).delayed = (s.flags (.item i)).delayed) ∧
      (e.apply s).due = s.due ∧ (e.apply s).firing = s.firing ∧ (e.apply s).now = s.now := by
  have hupdate : ∀ n (f : Flags), f.delayed = (s.flags n).delayed → ∀ i,
      (update s.flags n f (.item i)).delayed = (s.flags (.item i)).delayed := by
    intro n f hf i
    rw [Function.update_apply]
    split
    · next hij => rw [hf,hij]
    · rfl
  cases e with
  | enqueue caller q j =>
    rw [enqueue_eq,notify_flags,notify_due,notify_firing,notify_now]
    exact ⟨hupdate _ _ rfl,rfl,rfl,rfl⟩
  | dequeue q j => exact ⟨hupdate _ _ rfl,rfl,rfl,rfl⟩
  | startCancel j => exact ⟨hupdate _ _ rfl,rfl,rfl,rfl⟩
  | insertFlusher c q j =>
    rw [insertFlusher_eq,notify_flags,notify_due,notify_firing,notify_now]
    exact ⟨fun i => by simp,rfl,rfl,rfl⟩
  | take q n =>
    obtain ⟨-,-,rest,hp⟩ := he
    rw [take_eq hp]
    exact ⟨hupdate _ _ rfl,rfl,rfl,rfl⟩
  | finish q n =>
    obtain ⟨⟨f,-,-,-,hd,-,hf⟩,-,-,-,-,hdue,hfiring,hnow⟩ := h.finish_frame he
    exact ⟨fun i => by rw [hf]; exact hupdate _ _ hd i,hdue,hfiring,hnow⟩
  | idle q =>
    simp only [Effect.apply,takeStep,he.2.2]
    split <;> exact ⟨fun _ => rfl,rfl,rfl,rfl⟩
  | drain d q plug => simp [Effect.apply,State.setQueue]
  | register | unplug | start | resume => exact ⟨fun _ => rfl,rfl,rfl,rfl⟩
  | delay | undelay | announce | expire | tick => simp [Effect.clocks] at hclock

omit [DecidableEq ι] [DecidableEq κ] [DecidableEq ς] in
lemma Clocked.congr {dl' : Deadlines ι} {i : ι} (h : Clocked s dl i) (hdl : dl' i = dl i)
    (hd : (t.flags (.item i)).delayed = (s.flags (.item i)).delayed) (hdue : t.due i = s.due i)
    (hfiring : t.firing = some i → s.firing = some i) (hnow : s.now ≤ t.now) : Clocked t dl' i := by
  refine ⟨fun d hd' => ?_,fun hf => ?_⟩
  · rw [hd,hdl]
    exact h.linked d (hdue ▸ hd')
  · obtain ⟨hnone,hover⟩ := h.firing (hfiring hf)
    refine ⟨hdue.trans hnone,fun hdel => ?_⟩
    obtain ⟨e,he,hle⟩ := hover (hd ▸ hdel)
    exact ⟨e,hdl.trans he,hle.trans hnow⟩

/-- Delays are set while the item's `work_timeout` is not outstanding. -/
lemma Clocked.apply (hg : Good delayable s b) (h : ∀ i, Clocked s dl i) {e : Effect ι κ ς δ}
    (he : e.Allowed delayable s) (hnew : ∀ i queue n, e = .delay i queue n → s.firing ≠ some i) (i : ι) :
    Clocked (e.apply s) (dl.after s e) i := by
  cases e with
  | delay j queue n =>
    by_cases hij : i = j
    · subst hij
      refine ⟨fun d hd => ?_,fun hf => absurd hf (hnew i queue n rfl)⟩
      have hunlinked : ∀ d, s.due i ≠ some d := fun d hd => by
        have := ((h i).linked d hd).1
        simp [he.2] at this
      cases n with
      | none => exact absurd hd (hunlinked d)
      | some n =>
        obtain rfl : s.now+n+1 = d := by simpa [Effect.apply] using hd
        exact ⟨by simp [Effect.apply],s.now+n,by simp [Deadlines.after],Nat.le_succ _⟩
    · refine (h i).congr (by simp [Deadlines.after,hij]) (by simp [Effect.apply,hij]) ?_ id le_rfl
      cases n <;> simp [Effect.apply,hij]
  | undelay j =>
    by_cases hij : i = j
    · subst hij
      exact ⟨fun d hd => by simp [Effect.apply] at hd,fun _ => by simp [Effect.apply]⟩
    · exact (h i).congr rfl (by simp [Effect.apply,hij]) (by simp [Effect.apply,hij]) id le_rfl
  | announce j =>
    by_cases hij : i = j
    · subst hij
      refine ⟨fun d hd => by simp [Effect.apply] at hd,fun _ => ⟨by simp [Effect.apply],fun _ => ?_⟩⟩
      obtain ⟨-,d,hd,hle⟩ := he
      obtain ⟨-,e,he,hle'⟩ := (h i).linked d hd
      exact ⟨e,he,hle'.trans hle⟩
    · refine (h i).congr rfl rfl (by simp [Effect.apply,hij]) (fun hf => ?_) le_rfl
      exact absurd (some.inj hf).symm hij
  | expire j =>
    by_cases hij : i = j
    · subst hij
      refine ⟨fun d hd => ?_,fun hf => by simp [Effect.apply] at hf⟩
      have := ((h i).firing he).1
      simp [show s.due i = some d from hd] at this
    · exact (h i).congr rfl (by simp [Effect.apply,hij]) rfl (fun hf => by simp [Effect.apply] at hf)
        le_rfl
  | tick => exact (h i).congr rfl rfl rfl id (Nat.le_succ _)
  | _ =>
    obtain ⟨hd,hdue,hfiring,hnow⟩ := hg.apply_clock he rfl
    exact (h i).congr rfl (hd i) (congrFun hdue i) (by rw [hfiring]; exact id) hnow.ge

def Deadlines.afterAll : Deadlines ι → State ι κ ς δ → List (Effect ι κ ς δ) → Deadlines ι
  | dl,_,[] => dl
  | dl,s,e::es => afterAll (dl.after s e) (e.apply s) es

lemma Clocked.does (h : Does delayable s es t) (hg : ∃ b, Good delayable s b)
    (hes : ∀ e ∈ es.dropLast, e.OnItem) (hs : ∀ i, Clocked s dl i)
    (hnew : ∀ i queue n, .delay i queue n ∈ es → s.firing ≠ some i) (i : ι) : Clocked t (dl.afterAll s es) i := by
  induction h generalizing dl with
  | nil s => exact hs i
  | @cons s t e es head tail ih =>
    obtain ⟨b,hb⟩ := hg
    have hstep := Clocked.apply hb hs head fun i queue n hi => hnew i queue n (hi ▸ mem_cons_self ..)
    cases es with
    | nil =>
      cases tail
      exact hstep i
    | cons e' es =>
      obtain ⟨he,hes⟩ := forall_mem_cons.mp hes
      refine ih ⟨_,hb.apply head⟩ hes hstep fun j queue n hmem hf => ?_
      refine hnew j queue n (mem_cons_of_mem _ hmem) ?_
      -- an effect on an item may end the outstanding timeout, never start one
      cases e with
      | enqueue caller q k => simpa [enqueue_eq] using hf
      | dequeue | startCancel | delay | undelay => exact hf
      | expire k => simp [Effect.apply] at hf
      | _ => exact he.elim

lemma Deadlines.afterAll_of_not_delay (hes : ∀ i queue n, .delay i queue n ∉ es) : dl.afterAll s es = dl := by
  induction es generalizing s with
  | nil => rfl
  | cons e es ih =>
    have he : dl.after s e = dl := by
      cases e with
      | delay i queue n => exact absurd (mem_cons_self ..) (hes i queue n)
      | _ => rfl
    rw [Deadlines.afterAll,he]
    exact ih fun i queue n hmem => hes i queue n (mem_cons_of_mem _ hmem)

lemma Deadlines.next_eq_afterAll (h : Script a o es) : dl.next s t a o = dl.afterAll s es := by
  cases h with
  | schedule caller queue i n => cases n <;> rfl
  | reschedule caller queue i n d => cases n <;> cases d <;> rfl
  | scheduled caller queue i delay => cases delay <;> rfl
  | _ =>
    rw [Deadlines.afterAll_of_not_delay (by simp [submits,cancels])]
    rfl

/-- A step of a run with its log and the deadlines. For an item whose `work_timeout` is outstanding
and which is still delayed: `work_timeout` submits it, after the delay that was set last;
`k_work_schedule_for_queue` leaves it to that; `k_work_reschedule_for_queue` submits it at once; and
`k_work_flush_delayable` waits for an instance that is queued. A queue may refuse a submission. -/
structure Timely (x y : State ι κ ς δ × Log ι ς × Deadlines ι) (a : Action ι κ ς δ) (o : Reply ι ς δ) :
    Prop where
  orderly : Orderly (x.1,x.2.1) (y.1,y.2.1) a o
  deadlines : y.2.2 = x.2.2.next x.1 y.1 a o
  timeout (i : ι) : x.1.firing = some i → (x.1.flags (.item i)).delayed = true → a = .workTimeout →
    (∃ e, x.2.2 i = some e ∧ e ≤ x.1.now) ∧ ((y.1.flags (.item i)).queued = true ∨
      (x.1.submitToQueueLocked none (x.1.dqueue i) i).2 < 0)
  schedule (i : ι) (caller queue : Option κ) (delay : Delay) : x.1.firing = some i →
    (x.1.flags (.item i)).delayed = true → a = .schedule caller queue i delay → y.1 = x.1
  reschedule (i : ι) (caller queue : Option κ) (delay : Delay) : x.1.firing = some i →
    (x.1.flags (.item i)).delayed = true → a = .reschedule caller queue i delay →
    (y.1.flags (.item i)).queued = true ∨ ∃ r < 0, o = .ret r
  flush (i : ι) (caller : Option κ) (c : ς) : x.1.firing = some i →
    (x.1.flags (.item i)).delayed = true → a = .flushDelayable caller c i →
    ((x.1.flags (.item i)).queued = true ∧ o = .blocked ∧ 0 < x.2.1.born i ∧
      y.2.1.asked c = some (i,x.2.1.born i)) ∨ (x.1.submitToQueueLocked none (x.1.dqueue i) i).2 < 0

omit [DecidableEq ι] [DecidableEq ς] in
lemma queueSubmitLocked_congr (h : t.queues = s.queues) (caller queue : Option κ) (i : ι) :
    (t.queueSubmitLocked caller queue i).2 = (s.queueSubmitLocked caller queue i).2 := by
  cases queue with
  | none => rfl
  | some q =>
    unfold queueSubmitLocked
    rw [h]
    dsimp only
    split_ifs <;> rfl

lemma submitToQueueLocked_reply (s : State ι κ ς δ) (caller queue : Option κ) (i : ι) :
    (s.submitToQueueLocked caller queue i).2 = if (s.flags (.item i)).canceling then -EBUSY
      else if (s.flags (.item i)).queued then 0 else let rc := (s.queueSubmitLocked caller
          (if (s.flags (.item i)).running then s.queue i else queue <|> s.queue i) i).2
        if rc < 0 then rc else if (s.flags (.item i)).running then 2 else 1 := by
  unfold submitToQueueLocked
  dsimp only
  split_ifs <;> rfl

lemma submit_expire (caller queue : Option κ) (i : ι) :
    (((Effect.expire i).apply s).submitToQueueLocked caller queue i).2 =
      (s.submitToQueueLocked caller queue i).2 := by
  have hsubmit := fun target => queueSubmitLocked_congr (s := s) (t := (Effect.expire i).apply s) rfl
    caller target i
  have hflags : ((Effect.expire i).apply s).flags (.item i) = {s.flags (.item i) with delayed := false} := by
    simp [Effect.apply]
  have hqueue : ((Effect.expire i).apply s).queue = s.queue := rfl
  simp only [submitToQueueLocked_reply,hflags,hqueue,hsubmit]

lemma workTimeout_queued {i : ι} (hf : s.firing = some i) (hd : (s.flags (.item i)).delayed = true)
    (hstep : step s .workTimeout = some (t,o)) :
    (t.flags (.item i)).queued = true ∨ (s.submitToQueueLocked none (s.dqueue i) i).2 < 0 := by
  have ht : t = (((Effect.expire i).apply s).submitToQueueLocked none (s.dqueue i) i).1 := by
    simp only [step,hf,Option.map_some,State.workTimeout,hd,if_true] at hstep
    exact (Prod.mk.inj (some.inj hstep)).1.symm
  rw [ht,←submit_expire]
  exact (submit_queued ..).symm

lemma rescheduleNow_queued {caller queue : Option κ} {i : ι}
    (hstep : step s (.reschedule caller queue i .noWait) = some (t,o)) :
    (t.flags (.item i)).queued = true ∨ ∃ r < 0, o = .ret r := by
  cases hstep
  refine (submit_queued ..).symm.imp id fun h => ?_
  exact ⟨_,h,rfl⟩

lemma flushDelayable_blocked (h : Good delayable s b) (caller : Option κ) {i : ι} {c : ς}
    (hc : c ∉ s.blocked) (hdue : s.due i = none) (hd : (s.flags (.item i)).delayed = true)
    (hq : (s.flags (.item i)).queued = true) : (s.kWorkFlushDelayable caller c i).2 = .blocked := by
  have hun := unscheduleLocked_does delayable s i
  obtain ⟨b',hb'⟩ := hun.good ⟨b,h⟩
  have hfalse : (s.unscheduleLocked i).2 = false ∧ ((s.unscheduleLocked i).1.flags (.item i)).queued = true := by
    simp [unscheduleLocked,hd,hdue,hq]
  have hcu : c ∉ (s.unscheduleLocked i).1.blocked := by
    rwa [hun.blocked undelays_onItem]
  have hbusy : (s.flags (.item i)).busy = true := by simp [Flags.busy,hd]
  unfold kWorkFlushDelayable
  rw [if_pos hbusy]
  dsimp only
  rw [hfalse.1]
  rcases workFlushLocked_does hb' (i := i) hcu with ⟨hnot,-⟩ | ⟨q,u,-,heq,-⟩
  · simp [hfalse.2] at hnot
  · simp only [Bool.false_eq_true,if_false]
    rw [heq]

omit [DecidableEq ι] [DecidableEq κ] [DecidableEq ς] in
lemma Script.of_delay {i : ι} {queue : Option κ} {n : Option ℕ} (h : Script a o es) (hmem : .delay i queue n ∈ es) :
    ∃ caller, a = .schedule caller queue i (delayOf n) ∧ o = .ret 1 ∨
      a = .reschedule caller queue i (delayOf n) := by
  cases h with
  | schedule caller queue' i' n' =>
    obtain ⟨rfl,rfl,rfl⟩ : i = i' ∧ queue = queue' ∧ n = n' := by simpa using hmem
    exact ⟨caller,.inl ⟨rfl,rfl⟩⟩
  | reschedule caller queue' i' n' d =>
    obtain ⟨rfl,rfl,rfl⟩ : i = i' ∧ queue = queue' ∧ n = n' := by simpa using hmem
    exact ⟨caller,.inr rfl⟩
  | _ =>
    exfalso
    simp [submits,cancels] at hmem

lemma step_clocked (hg : Good delayable s b) (h : ∀ i, Clocked s dl i)
    (ha : Meets delayable s a) (hu : Unhurried s a) (hstep : step s a = some (t,o)) (i : ι) :
    Clocked t (dl.next s t a o) i := by
  obtain ⟨t',o',es,hstep',hscript,hdoes⟩ := step_does hg ha
  cases hstep.symm.trans hstep'
  rw [Deadlines.next_eq_afterAll hscript]
  refine Clocked.does hdoes ⟨b,hg⟩ hscript.onItem h (fun j queue n hmem hf => ?_) i
  have hdelay : delayOf n ≠ .noWait := by
    cases n <;> simp [delayOf]
  obtain ⟨caller,⟨rfl,rfl⟩ | rfl⟩ := hscript.of_delay hmem
  · rcases hu hf with h | hbusy
    · exact hdelay h
    · simp [step,kWorkScheduleForQueue,hbusy] at hstep
  · exact hdelay (hu hf)

variable {l : Log ι ς}

/-- Every unhurried step keeps the items timely. -/
lemma step_timely (h : (Tracked delayable s l ∧ Draining s) ∧ ∀ i, Clocked s dl i)
    (ha : Meets delayable s a ∧ Unhurried s a) :
    ∃ t o, step s a = some (t,o) ∧ ((Tracked delayable t (l.next s t a o) ∧ Draining t) ∧
      ∀ i, Clocked t (dl.next s t a o) i) ∧ Timely (s,l,dl) (t,l.next s t a o,dl.next s t a o) a o := by
  obtain ⟨htracked,hclock⟩ := h
  obtain ⟨ha,hu⟩ := ha
  obtain ⟨t,o,hstep,ht,horderly⟩ := step_orderly htracked ha
  obtain ⟨b,hb,hacc,-⟩ := htracked.1
  refine ⟨t,o,hstep,⟨ht,step_clocked hb hclock ha hu hstep⟩,horderly,rfl,?_,?_,?_,?_⟩
  · rintro i hf hd rfl
    exact ⟨((hclock i).firing hf).2 hd,workTimeout_queued hf hd hstep⟩
  · rintro i caller queue delay hf hd rfl
    have hbusy : {s.flags (.item i) with running := false}.busy = true := by
      simpa [Flags.busy] using .inl (.inr hd)
    simp only [step,kWorkScheduleForQueue,if_pos hbusy] at hstep
    exact (Prod.mk.inj (some.inj hstep)).1.symm
  · rintro i caller queue delay hf hd rfl
    obtain rfl := hu hf
    exact rescheduleNow_queued hstep
  · rintro i caller c hf hd rfl
    rcases submitToQueueLocked_does delayable s none (s.dqueue i) i with
      ⟨r,hr,heq⟩ | ⟨hqueued,heq⟩ | ⟨q,r,u,hr,heq,-⟩
    · exact .inr (by rwa [heq])
    · have hblocked := flushDelayable_blocked hb caller ha.2 ((hclock i).firing hf).1 hd hqueued
      obtain rfl : o = .blocked := by
        rw [←hblocked]
        exact (Prod.mk.inj (some.inj hstep)).2.symm
      refine .inl ⟨hqueued,rfl,(hacc i).queued hqueued,?_⟩
      have hqueued' := hqueued
      simp [Log.next,Log.ask,hqueued']
    · have := hu hf hd
      rw [heq] at this
      exact absurd this (by simpa using hr)

def record (r : Log ι ς × Deadlines ι) (s t : State ι κ ς δ) (a : Action ι κ ς δ) (o : Reply ι ς δ) :
    Log ι ς × Deadlines ι :=
  (r.1.next s t a o,r.2.next s t a o)

/-- In every run that sets no delays and flushes nothing between the two halves of a timeout, calls
made there neither lose the submission nor make it early. -/
theorem runs_are_timely (delayable : ι → Bool) {is : List (Action ι κ ς δ)}
    (h : Along (fun s a => Meets delayable s a ∧ Unhurried s a) step init is) :
    ∃ s l dl os, serve? (recording step record) (init,empty,fun _ => none) is = some ((s,l,dl),os) ∧
      Trace (fun x a o y => Timely x y a o) (init,empty,fun _ => none) is os (s,l,dl) := by
  have hinit : (Tracked delayable (init : State ι κ ς δ) empty ∧ Draining (init : State ι κ ς δ)) ∧
      ∀ i, Clocked (init : State ι κ ς δ) (fun _ => none) i :=
    ⟨init_tracked delayable,fun i => ⟨fun d hd => by simp [init] at hd,fun hf => by simp [init] at hf⟩⟩
  have hstep : ∀ (x : State ι κ ς δ × Log ι ς × Deadlines ι) (a : Action ι κ ς δ),
      (Tracked delayable x.1 x.2.1 ∧ Draining x.1) ∧ (∀ i, Clocked x.1 x.2.2 i) →
      Meets delayable x.1 a ∧ Unhurried x.1 a →
      ∃ y o, recording step record x a = some (y,o) ∧ ((Tracked delayable y.1 y.2.1 ∧ Draining y.1) ∧
        ∀ i, Clocked y.1 y.2.2 i) ∧ Timely x y a o := by
    rintro ⟨s,l,dl⟩ a hx ha
    obtain ⟨t,o,hs,ht,htimely⟩ := step_timely hx ha
    exact ⟨(t,l.next s t a o,dl.next s t a o),o,recording_eq_some.mpr ⟨hs,rfl⟩,ht,htimely⟩
  obtain ⟨⟨s,l,dl⟩,os,hserve,htrace⟩ := Trace.of_steps hstep hinit (h.recording (g := record) (empty,fun _ => none))
  exact ⟨s,l,dl,os,hserve,htrace⟩

def scheduledAndFlushed : List (Action Unit Unit Unit Unit) :=
  [.start (),.schedule none (some ()) () (.ticks 1),.tick,.tick,.announce (),
    .schedule none (some ()) () (.ticks 5),.workTimeout,.take (),.finish (),
    .schedule none (some ()) () (.ticks 1),.tick,.tick,.announce (),.reschedule none (some ()) () .noWait,
    .flushDelayable none () (),.workTimeout,.take (),.finish (),.take (),.finish (),.resume ()]

theorem runs_are_timely_scheduledAndFlushed :
    ∃ s l dl os, serve? (recording step record) (init,empty,fun _ => none) scheduledAndFlushed =
        some ((s,l,dl),os) ∧
      Trace (fun x a o y => Timely x y a o) (init,empty,fun _ => none) scheduledAndFlushed os (s,l,dl) :=
  runs_are_timely (fun _ => true) (by decide +kernel)

def delayedAgain : List (Action Unit Unit Unit Unit) :=
  [.start (),.schedule none (some ()) () (.ticks 1),.tick,.tick,.announce (),
    .reschedule none (some ()) () (.ticks 100),.workTimeout]

def flushedBetween : List (Action Unit Unit Unit Unit) :=
  [.start (),.schedule none (some ()) () (.ticks 1),.tick,.tick,.announce (),.flushDelayable none () (),
    .workTimeout]

/-- In the first run the item is queued at tick 2, with a delay that ends at tick 102. In the
second one the flush returns at once, and the item is not delayed, not queued and never ran. -/
theorem window_hurries_and_loses :
    (Along (Meets fun _ => true) step init delayedAgain ∧
      ∃ s l dl os, serve? (recording step record) (init,empty,fun _ => none) delayedAgain =
          some ((s,l,dl),os) ∧
        (s.flags (.item ())).queued = true ∧ s.now = 2 ∧ dl () = some 102) ∧
    Along (Meets fun _ => true) step init flushedBetween ∧
      ∃ s l dl os, serve? (recording step record) (init,empty,fun _ => none) flushedBetween =
          some ((s,l,dl),os) ∧
        os = [.none,.ret 1,.none,.none,.none,.returned false,.none] ∧
        s.flags (.item ()) = ⟨false,false,false,false,false⟩ ∧ s.due () = none ∧ s.firing = none ∧
        l.born () = 0 :=
  ⟨⟨by decide +kernel,_,_,_,_,rfl,rfl,rfl,rfl⟩,by decide +kernel,_,_,_,_,rfl,rfl,rfl,rfl,rfl,rfl⟩

end Effects
end ArmFirmware.Zephyr.Work
