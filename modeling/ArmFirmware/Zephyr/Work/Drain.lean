import ArmFirmware.Zephyr.Work.Flush

/-! Drains. Threads that drain a queue are woken by its idle thread, and meanwhile the queue takes
items of its own thread only. With the flushes this says what a caller of either may rely on. -/
namespace ArmFirmware.Zephyr.Work
open Library State Log List Function Option Effect

attribute [local simp] State.setQueue init

def Action.caller {ι κ ς δ : Type*} : Action ι κ ς δ → Option κ
  | .submit caller _ _ | .schedule caller _ _ _ | .reschedule caller _ _ _ | .flushDelayable caller _ _ =>
    caller
  | _ => none

section Drains
variable {ι κ ς δ : Type*} [DecidableEq ι] [DecidableEq κ] [DecidableEq ς] {delayable : ι → Bool}
  {s t : State ι κ ς δ} {b : Board (Node ι ς) κ} {q : κ} {es : List (Effect ι κ ς δ)} {e : Effect ι κ ς δ}
  {a : Action ι κ ς δ} {o : Reply ι ς δ}

omit [DecidableEq ι] [DecidableEq ς] in
lemma notify_drain (s : State ι κ ς δ) (q q' : κ) :
    ((s.notifyQueueLocked q).queues q').drain = (s.queues q').drain ∧
      ((s.notifyQueueLocked q).queues q').drainq = (s.queues q').drainq := by
  rcases notify_queues (s := s) (q := q) q' with h | ⟨-,h⟩ <;> rw [h] <;> exact ⟨rfl,rfl⟩

/-- Threads wait for a drain only while the queue is marked. -/
def Draining (s : State ι κ ς δ) : Prop :=
  ∀ q, (s.queues q).drain = false → (s.queues q).drainq = []

/-- What an effect does to the draining of a queue. -/
lemma Good.apply_drain (h : Good delayable s b) (hs : Draining s) (he : e.Allowed delayable s) (q : κ) :
    (((e.apply s).queues q).drain = (s.queues q).drain ∧ ((e.apply s).queues q).drainq = (s.queues q).drainq) ∨
    (e = .idle q ∧ ((e.apply s).queues q).drainq = []) ∨
    ∃ d plug, e = .drain d q plug ∧ ((e.apply s).queues q).drain = true ∧
      ((e.apply s).queues q).drainq = (s.queues q).drainq++[d] := by
  have hupdate : ∀ q' (w : WorkQ ι ς δ), w.drain = (s.queues q').drain → w.drainq = (s.queues q').drainq →
      (update s.queues q' w q).drain = (s.queues q).drain ∧
        (update s.queues q' w q).drainq = (s.queues q).drainq := by
    intro q' w hd hq
    rw [Function.update_apply]
    split
    · next hqq => exact hqq ▸ ⟨hd,hq⟩
    · exact ⟨rfl,rfl⟩
  cases e with
  | enqueue caller q' i =>
    rw [enqueue_eq,(notify_drain ..).1,(notify_drain ..).2]
    exact .inl (hupdate q' _ rfl rfl)
  | dequeue q' i => exact .inl (hupdate q' _ rfl rfl)
  | insertFlusher c q' i =>
    rw [insertFlusher_eq,(notify_drain ..).1,(notify_drain ..).2]
    exact .inl (hupdate q' _ rfl rfl)
  | take q' n =>
    obtain ⟨-,-,rest,hp⟩ := he
    rw [take_eq hp]
    exact .inl (hupdate q' _ rfl rfl)
  | finish q' n =>
    rw [(h.finish_frame he).2.1]
    exact .inl (hupdate q' _ rfl rfl)
  | idle q' =>
    obtain ⟨-,-,hp⟩ := he
    simp only [Effect.apply,takeStep,hp]
    by_cases hq : q = q'
    · subst hq
      refine .inr (.inl ⟨rfl,?_⟩)
      split
      · simp
      · next hd => simpa using hs q (by simpa using hd)
    · refine .inl ?_
      split <;> simp [hq]
  | drain d q' plug =>
    by_cases hq : q = q'
    · subst hq
      refine .inr (.inr ⟨d,plug,rfl,?_,?_⟩)
      · simp [Effect.apply,(notify_drain _ q q).1]
      · simp [Effect.apply]
    · refine .inl ?_
      simp only [Effect.apply,State.setQueue,Function.update_of_ne hq]
      rw [(notify_drain ..).1,(notify_drain ..).2]
      simp [hq]
  | start q' =>
    refine .inl (hupdate q' _ ?_ ?_)
    · exact ((h.unstarted q' he).2.2.2).symm
    · exact (hs q' (h.unstarted q' he).2.2.2).symm
  | unplug q' => exact .inl (hupdate q' _ rfl rfl)
  | _ => exact .inl ⟨rfl,rfl⟩

lemma Draining.apply (h : Good delayable s b) (hs : Draining s)
    (he : e.Allowed delayable s) : Draining (e.apply s) := by
  intro q hq
  rcases h.apply_drain hs he q with ⟨hd,hdq⟩ | ⟨-,hdq⟩ | ⟨d,plug,-,hd,-⟩
  · rw [hdq]
    exact hs q (hd ▸ hq)
  · exact hdq
  · simp [hd] at hq

lemma Good.apply_mem_pending (h : Good delayable s b) {i : ι} (hi : .item i ∈ (e.onBoard b).pending q) :
    .item i ∈ b.pending q ∨ ∃ caller, e = .enqueue caller q i := by
  cases e with
  | enqueue caller q' j =>
    rw [onBoard,Board.mem_add (perm_append_singleton ..)] at hi
    refine hi.imp_right ?_
    rintro ⟨rfl,hij⟩
    obtain rfl : i = j := by simpa using hij
    exact ⟨caller,rfl⟩
  | dequeue q' j =>
    rw [onBoard,h.sound.mem_remove] at hi
    exact .inl hi.1
  | insertFlusher c q' j =>
    rw [onBoard,Board.mem_add (planted_perm _)] at hi
    exact .inl (by simpa using hi)
  | take q' n =>
    rw [onBoard,h.sound.mem_take] at hi
    exact .inl hi.1
  | _ => exact .inl hi

/-- What the effects of a step, all but the last on items, do to a queue that is drained. -/
lemma Does.drain (h : Does delayable s es t) (hes : ∀ e ∈ es.dropLast, e.OnItem)
    (hg : Good delayable s b) (hs : Draining s) (q : κ) :
    Draining t ∧ (∀ d ∈ (s.queues q).drainq, d ∈ (t.queues q).drainq ∨ .idle q ∈ es) ∧
      ∀ i, .item i ∈ (t.queues q).pending → .item i ∈ (s.queues q).pending ∨
        ∃ caller, .enqueue caller q i ∈ es ∧ ((s.queues q).drain = true → caller = some q) := by
  induction h generalizing b with
  | nil s => exact ⟨hs,fun d hd => .inl hd,fun i hi => .inl hi⟩
  | @cons s t e es head tail ih =>
    have hg' := hg.apply head
    have hs' := Draining.apply hg hs head
    have hdrain := hg.apply_drain hs head q
    have hpending : ∀ i, .item i ∈ ((e.apply s).queues q).pending → .item i ∈ (s.queues q).pending ∨
        ∃ caller, e = .enqueue caller q i := by
      intro i hi
      rw [hg'.pending] at hi
      rw [hg.pending]
      exact hg.apply_mem_pending hi
    have hown : ∀ caller i, e = .enqueue caller q i → (s.queues q).drain = true → caller = some q := by
      rintro caller i rfl
      exact head.2.2.2.2
    cases es with
    | nil =>
      cases tail
      refine ⟨hs',fun d hd => ?_,fun i hi => (hpending i hi).imp_right ?_⟩
      · rcases hdrain with ⟨-,hdq⟩ | ⟨rfl,-⟩ | ⟨d',plug,-,-,hdq⟩
        · exact .inl (hdq ▸ hd)
        · exact .inr (mem_cons_self ..)
        · exact .inl (by rw [hdq]; exact mem_append_left _ hd)
      · rintro ⟨caller,rfl⟩
        exact ⟨caller,mem_cons_self ..,hown caller i rfl⟩
    | cons e' es =>
      obtain ⟨he,hes⟩ := forall_mem_cons.mp hes
      obtain ⟨hd,hdq⟩ : ((e.apply s).queues q).drain = (s.queues q).drain ∧
          ((e.apply s).queues q).drainq = (s.queues q).drainq := by
        rcases hdrain with h | ⟨rfl,-⟩ | ⟨d',plug,rfl,-⟩
        · exact h
        · exact he.elim
        · exact he.elim
      obtain ⟨ht,hwoken,hnew⟩ := ih hes hg' hs'
      rw [hdq] at hwoken
      rw [hd] at hnew
      refine ⟨ht,fun d hmem => (hwoken d hmem).imp_right (mem_cons_of_mem _),fun i hi => ?_⟩
      rcases hnew i hi with hi | ⟨caller,hmem,hcaller⟩
      · refine (hpending i hi).imp_right ?_
        rintro ⟨caller,rfl⟩
        exact ⟨caller,mem_cons_self ..,hown caller i rfl⟩
      · exact .inr ⟨caller,mem_cons_of_mem _ hmem,hcaller⟩

omit [DecidableEq ι] [DecidableEq κ] [DecidableEq ς] in
lemma Script.caller {caller : Option κ}
    {i : ι} (h : Script a o es) (hmem : .enqueue caller q i ∈ es) : a.caller = caller := by
  cases h <;> simp_all [submits,cancels,undelays,Action.caller]

omit [DecidableEq ι] [DecidableEq κ] [DecidableEq ς] in
lemma Script.of_idle (h : Script a o es) (hmem : .idle q ∈ es) : a = .take q := by
  cases h with
  | idle q' woken =>
    obtain rfl : q = q' := by simpa using hmem
    rfl
  | _ =>
    exfalso
    simp [submits,cancels,undelays] at hmem

/-- A step of a run with its log. When a flush that waited returns, all instances of the item up
to the last one at its call have ended. Threads that drain a queue are woken by its thread, with
nothing pending and no handler running, and only so; while there are any, what is new in the
queue comes from its own thread. -/
structure Orderly (x y : State ι κ ς δ × Log ι ς) (a : Action ι κ ς δ) (o : Reply ι ς δ) : Prop where
  step : step x.1 a = some (y.1,o)
  log : y.2 = x.2.next x.1 y.1 a o
  flushed (c : ς) (i : ι) (m : ℕ) : a = .resume c → x.2.asked c = some (i,m) →
    ∀ k, 0 < k → k ≤ m → (x.2.ended i k).isSome
  woken (woken : List δ) : o = .idle woken → ∃ q, a = .take q ∧ woken = (x.1.queues q).drainq ∧
    (x.1.queues q).pending = [] ∧ ∀ n, (x.1.queues q).thread ≠ .running n
  waits (q : κ) (d : δ) : d ∈ (x.1.queues q).drainq → d ∉ (y.1.queues q).drainq →
    ∃ woken, a = .take q ∧ o = .idle woken ∧ d ∈ woken
  takes (q : κ) (i : ι) : (x.1.queues q).drainq ≠ [] → .item i ∈ (y.1.queues q).pending →
    .item i ∈ (x.1.queues q).pending ∨ a.caller = some q

variable {l : Log ι ς}

lemma idle_woken (hs : Draining s) (hstep : step s (.take q) = some (t,o))
    (hp : (s.queues q).pending = []) : o = .idle (s.queues q).drainq := by
  simp only [step,takeStep,hp] at hstep
  split at hstep
  · exact (Prod.mk.inj (some.inj hstep)).2.symm
  · next hd =>
    rw [hs q (by simpa using hd)]
    exact (Prod.mk.inj (some.inj hstep)).2.symm

/-- Every step keeps the queues orderly. -/
lemma step_orderly (h : Tracked delayable s l ∧ Draining s) (ha : Meets delayable s a) :
    ∃ t o, step s a = some (t,o) ∧ (Tracked delayable t (l.next s t a o) ∧ Draining t) ∧
      Orderly (s,l) (t,l.next s t a o) a o := by
  obtain ⟨htracked,hdrain⟩ := h
  obtain ⟨b,hb,-⟩ := id htracked
  obtain ⟨t,o,es,hstep,hscript,hdoes⟩ := step_does hb ha
  have hq := hdoes.drain hscript.onItem hb hdrain
  have hnext := next_eq_afterAll (l := l) hscript hdoes
  have hdraining : Draining t := fun q => (hq q).1 q
  refine ⟨t,o,hstep,⟨hnext ▸ htracked.does hdoes,hdraining⟩,hstep,rfl,?_,?_,?_,?_⟩
  · rintro c i m rfl hasked k hk hkm
    exact htracked.resume ha.2 hasked hk hkm
  · rintro woken rfl
    obtain ⟨q,rfl⟩ : ∃ q, a = .take q := by
      cases hscript
      exact ⟨_,rfl⟩
    have hp : (s.queues q).pending = [] := by
      by_contra hne
      obtain ⟨n,rest,hp⟩ := exists_cons_of_ne_nil hne
      simp [step,takeStep,hp] at hstep
    refine ⟨q,rfl,?_,hp,fun n hn => ?_⟩
    · simpa using idle_woken hdrain hstep hp
    · exact absurd (ha.2.symm.trans hn) (by simp)
  · intro q d hd hgone
    have hidle := ((hq q).2.1 d hd).resolve_left hgone
    obtain rfl := hscript.of_idle hidle
    have hp : (s.queues q).pending = [] := by
      by_contra hne
      obtain ⟨n,rest,hp⟩ := exists_cons_of_ne_nil hne
      obtain ⟨-,rfl⟩ := Prod.mk.inj (some.inj ((by simp [step,takeStep,hp] :
        step s (.take q) = some ((s.takeStep q).1,.took n)).symm.trans hstep))
      cases hscript
      exact absurd hidle (by simp)
    exact ⟨_,rfl,idle_woken hdrain hstep hp,hd⟩
  · intro q i hwaiting hi
    refine ((hq q).2.2 i hi).imp_right ?_
    rintro ⟨caller,hmem,hcaller⟩
    rw [hscript.caller hmem]
    refine hcaller ?_
    by_contra hd
    exact hwaiting (hdrain q (by simpa using hd))

omit [DecidableEq ι] [DecidableEq κ] [DecidableEq ς] in
lemma init_tracked (delayable : ι → Bool) :
    Tracked delayable (init : State ι κ ς δ) empty ∧ Draining (init : State ι κ ς δ) := by
  refine ⟨⟨_,init_good delayable,fun i => ⟨le_rfl,?_,?_,?_,?_⟩,?_⟩,fun q _ => rfl⟩
  · simp
  · simp
  · simp
  · intro k hk hle
    have : k ≤ 0 := hle
    omega
  · simp [empty]

/-- In every run flushes and drains are orderly at every step. -/
theorem runs_are_orderly (delayable : ι → Bool) {is : List (Action ι κ ς δ)}
    (h : Along (Meets delayable) step init is) :
    ∃ s l os, serve? (recording step next) (init,empty) is = some ((s,l),os) ∧
      Trace (fun x a o y => Orderly x y a o) (init,empty) is os (s,l) ∧ ∀ i, Account s l i := by
  have hstep : ∀ (x : State ι κ ς δ × Log ι ς) (a : Action ι κ ς δ), Tracked delayable x.1 x.2 ∧ Draining x.1 →
    Meets delayable x.1 a →
      ∃ y o, recording step next x a = some (y,o) ∧ (Tracked delayable y.1 y.2 ∧ Draining y.1) ∧
        Orderly x y a o := by
    rintro ⟨s,l⟩ a hx ha
    obtain ⟨t,o,hs,ht,horderly⟩ := step_orderly hx ha
    exact ⟨(t,l.next s t a o),o,recording_eq_some.mpr ⟨hs,rfl⟩,ht,horderly⟩
  obtain ⟨⟨s,l⟩,os,hserve,htrace,⟨b,-,hacc,-⟩,-⟩ := Trace.of_along
    (I := fun x : State ι κ ς δ × Log ι ς => Tracked delayable x.1 x.2 ∧ Draining x.1)
    (fun x a hx ha => by
      obtain ⟨y,o,hs,hy,-⟩ := hstep x a hx ha
      exact ⟨y,o,hs,hy⟩) (init_tracked delayable) (h.recording (g := next) empty)
  refine ⟨s,l,os,hserve,htrace.mono ?_,hacc⟩
  rintro x a o y ⟨hx,ha,hs⟩
  obtain ⟨y',o',hs',-,horderly⟩ := hstep x a hx ha
  cases hs.symm.trans hs'
  exact horderly

/-- A flush of an item that runs and is queued again, a cancellation in the queue, and a drain
during which the thread of the queue submits another item. -/
def flushedAndDrained : List (Action Bool Unit Unit Unit) :=
  [.start (),.submit none (some ()) false,.take (),.submit none (some ()) false,.flush () false,
    .submit none (some ()) true,.cancel true,.finish (),.take (),.drain () () false,
    .submit none (some ()) true,.submit (some ()) (some ()) true,.finish (),.take (),.finish (),.resume (),
    .take (),.finish (),.take ()]

theorem runs_are_orderly_flushedAndDrained :
    ∃ s l os, serve? (recording step next) (init,empty) flushedAndDrained = some ((s,l),os) ∧
      Trace (fun x a o y => Orderly x y a o) (init,empty) flushedAndDrained os (s,l) ∧
      ∀ i, Account s l i :=
  runs_are_orderly (fun _ => false) (by decide +kernel)

end Drains
end ArmFirmware.Zephyr.Work
