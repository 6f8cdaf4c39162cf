import ArmFirmware.Library.Trace

/-! Timeouts of threads (`kernel/sched.c`). `sys_clock_announce` takes an expired timeout off its
list under one lock, and `z_thread_timeout` acts on the thread under another one: on several CPUs
the thread may have been woken meanwhile, and may wait again. -/
namespace ArmFirmware.Zephyr.ThreadTimeout
open Library Function

def EAGAIN : ℤ := 11

/-- `struct k_thread`. The code knows neither the number of the blocking call that the thread has
made last, nor whether that one waits with K_FOREVER. -/
structure Thread (ω : Type*) where
  pendedOn : Option ω
  suspended : Bool
  dead : Bool
  /-- The timeout is in the list of timeouts. -/
  linked : Bool
  call : ℕ
  forever : Bool
  deriving DecidableEq

def Thread.ready {ω : Type*} (thread : Thread ω) : Bool :=
  !(thread.pendedOn.isSome || thread.suspended || thread.dead || thread.linked)

/-- The threads and, with the call they were set for, the timeouts that are off the list while
their `z_thread_timeout` has not run yet. -/
structure State (τ ω : Type*) where
  threads : τ → Thread ω
  firing : List (τ × ℕ)

inductive Action (τ ω : Type*)
  /-- `z_pend_curr`. -/
  | pend (thread : τ) (waitQ : ω) (forever : Bool)
  /-- `z_tick_sleep`. -/
  | sleep (thread : τ)
  /-- `z_unpend_thread`, also through `z_unpend_first_thread` and `z_unpend_all`, with the return
  value that is set for the thread. -/
  | wake (thread : τ) (ret : ℤ)
  | wakeup (thread : τ)
  | suspend (thread : τ)
  | resume (thread : τ)
  | abort (thread : τ)
  /-- `sys_clock_announce` takes the timeout off the list. -/
  | announce (thread : τ)
  /-- `z_thread_timeout` for the timeout of the given call. -/
  | fire (thread : τ) (call : ℕ)

inductive Reply
  | none
  /-- A wait is over, with the value `z_pend_curr` returns. -/
  | ended (call : ℕ) (ret : ℤ)
  deriving DecidableEq

def init {τ ω : Type*} : State τ ω := ⟨fun _ => ⟨none,false,false,false,0,false⟩,[]⟩

section Steps
variable {τ ω : Type*} [DecidableEq τ]

def State.set (s : State τ ω) (t : τ) (thread : Thread ω) : State τ ω :=
  {s with threads := update s.threads t thread}

def State.wakeThread (s : State τ ω) (t : τ) : State τ ω × Reply :=
  let thread := s.threads t
  if thread.dead then (s,.none)
  else (s.set t {thread with pendedOn := none, suspended := false},
    if thread.pendedOn.isSome then .ended thread.call (-EAGAIN) else .none)

def State.kWakeup (s : State τ ω) (t : τ) : State τ ω :=
  let thread := s.threads t
  if thread.pendedOn.isSome then s
  else if thread.linked then s.set t {thread with linked := false, suspended := false}
  -- it may sleep forever
  else if thread.suspended && !thread.dead then s.set t {thread with suspended := false}
  else s

def step (s : State τ ω) : Action τ ω → Option (State τ ω × Reply)
  | .pend t q forever =>
    let thread := s.threads t
    some (s.set t {thread with
      pendedOn := some q, linked := !forever, call := thread.call+1, forever},.none)
  | .sleep t =>
    let thread := s.threads t
    some (s.set t {thread with
      suspended := true, linked := true, call := thread.call+1, forever := false},.none)
  | .wake t ret =>
    let thread := s.threads t
    some (s.set t {thread with pendedOn := none, linked := false},.ended thread.call ret)
  | .wakeup t => some (s.kWakeup t,.none)
  | .suspend t => some (s.set t {s.threads t with linked := false, suspended := true},.none)
  | .resume t => some (s.set t {s.threads t with suspended := false},.none)
  | .abort t => some (s.set t {s.threads t with dead := true, pendedOn := none, linked := false},.none)
  | .announce t =>
    let thread := s.threads t
    some ({s.set t {thread with linked := false} with firing := (t,thread.call)::s.firing},.none)
  | .fire t call => some (State.wakeThread {s with firing := s.firing.erase (t,call)} t)

/-- Only threads that run block, only threads that wait are woken, and timeouts expire from the
list. -/
def Meets (s : State τ ω) : Action τ ω → Prop
  | .pend t _ _ => (s.threads t).ready = true
  | .sleep t => (s.threads t).ready = true
  | .wake t _ => (s.threads t).pendedOn.isSome = true
  | .announce t => (s.threads t).linked = true
  | .fire t call => (t,call) ∈ s.firing
  | _ => True

/-- A thread does not block again before the `z_thread_timeout` of an earlier call has run. -/
def Settled (s : State τ ω) : Action τ ω → Prop
  | .pend t _ _ => ∀ x ∈ s.firing, x.1 ≠ t
  | .sleep t => ∀ x ∈ s.firing, x.1 ≠ t
  | _ => True

instance (s : State τ ω) (a : Action τ ω) : Decidable (Meets s a) := by
  unfold Meets
  split <;> infer_instance

instance (s : State τ ω) (a : Action τ ω) : Decidable (Settled s a) := by
  unfold Settled
  split <;> infer_instance

def wokenBy (woken : List (τ × ℕ)) (s _t : State τ ω) (a : Action τ ω) (_o : Reply) : List (τ × ℕ) :=
  match a with
  | .wake t _ => (t,(s.threads t).call)::woken
  | _ => woken

/-- A timeout ends no other call than the one it was set for, and none that was ended by a wake-up;
a call that waits forever is not ended by one. -/
structure OwnExpiry (x : State τ ω × List (τ × ℕ)) (a : Action τ ω) (o : Reply) : Prop where
  own (t : τ) (call ended : ℕ) (ret : ℤ) : a = .fire t call → o = .ended ended ret →
    ended = call ∧ (x.1.threads t).forever = false
  woken (t : τ) (call : ℕ) : a = .fire t call → (t,call) ∈ x.2 → o = .none

/-- Outstanding timeouts belong to the latest call of their thread. -/
structure Fresh (s : State τ ω) (woken : List (τ × ℕ)) : Prop where
  firing (t : τ) (call : ℕ) : (t,call) ∈ s.firing →
    call = (s.threads t).call ∧ (s.threads t).forever = false
  linked (t : τ) : (s.threads t).linked = true → (s.threads t).forever = false
  past (t : τ) (call : ℕ) : (t,call) ∈ woken → call ≤ (s.threads t).call ∧
    (call = (s.threads t).call → (s.threads t).pendedOn = none)

variable {s : State τ ω} {woken : List (τ × ℕ)}

lemma Fresh.set (h : Fresh s woken) (t : τ) (thread : Thread ω) (hcall : thread.call = (s.threads t).call)
    (hforever : thread.forever = (s.threads t).forever)
    (hlinked : thread.linked = true → (s.threads t).linked = true)
    (hpended : (s.threads t).pendedOn = none → thread.pendedOn = none) : Fresh (s.set t thread) woken := by
  have hsplit : ∀ u, (s.set t thread).threads u = if u = t then thread else s.threads u := by
    intro u
    exact update_apply ..
  refine ⟨fun u call hmem => ?_,fun u hu => ?_,fun u call hmem => ?_⟩
  · obtain ⟨hc,hf⟩ := h.firing u call hmem
    rw [hsplit]
    split_ifs with hut
    · subst hut
      exact ⟨hc.trans hcall.symm,hforever.trans hf⟩
    · exact ⟨hc,hf⟩
  · rw [hsplit] at hu ⊢
    split_ifs with hut
    · subst hut
      rw [if_pos rfl] at hu
      exact hforever.trans (h.linked u (hlinked hu))
    · rw [if_neg hut] at hu
      exact h.linked u hu
  · obtain ⟨hle,hnone⟩ := h.past u call hmem
    rw [hsplit]
    split_ifs with hut
    · subst hut
      exact ⟨hle.trans hcall.ge,fun heq => hpended (hnone (heq.trans hcall))⟩
    · exact ⟨hle,hnone⟩

/-- A thread starts a call. -/
lemma Fresh.newCall (h : Fresh s woken) {t : τ} {thread : Thread ω}
    (hsettled : ∀ x ∈ s.firing, x.1 ≠ t) (hcall : thread.call = (s.threads t).call+1)
    (hlinked : thread.linked = true → thread.forever = false) : Fresh (s.set t thread) woken := by
  have hself : (s.set t thread).threads t = thread := update_self ..
  have hother : ∀ u, u ≠ t → (s.set t thread).threads u = s.threads u := fun u hu =>
    update_of_ne hu ..
  refine ⟨fun u call hmem => ?_,fun u hu => ?_,fun u call hmem => ?_⟩
  · rw [hother u (hsettled _ hmem)]
    exact h.firing u call hmem
  · by_cases hut : u = t
    · subst hut
      rw [hself] at hu ⊢
      exact hlinked hu
    · rw [hother u hut] at hu ⊢
      exact h.linked u hu
  · obtain ⟨hle,hnone⟩ := h.past u call hmem
    by_cases hut : u = t
    · subst hut
      rw [hself]
      exact ⟨by omega,fun heq => by omega⟩
    · rw [hother u hut]
      exact ⟨hle,hnone⟩

lemma Fresh.kWakeup (h : Fresh s woken) (t : τ) : Fresh (s.kWakeup t) woken := by
  unfold State.kWakeup
  dsimp only
  split_ifs
  · exact h
  · exact h.set t _ rfl rfl (by simp) id
  · exact h.set t _ rfl rfl id id
  · exact h

lemma Fresh.wakeThread (h : Fresh s woken) (t : τ) : Fresh (s.wakeThread t).1 woken := by
  unfold State.wakeThread
  dsimp only
  split
  · exact h
  · exact h.set t _ rfl rfl id fun _ => rfl

lemma wakeThread_ended {t : τ} {ended : ℕ} {ret : ℤ} (h : (s.wakeThread t).2 = .ended ended ret) :
    ended = (s.threads t).call ∧ (s.threads t).pendedOn ≠ none := by
  unfold State.wakeThread at h
  dsimp only at h
  split at h
  · cases h
  · dsimp only at h
    split_ifs at h with hsome
    cases h
    exact ⟨rfl,Option.isSome_iff_ne_none.mp hsome⟩

/-- In every settled step only the call's own timeout ends it. -/
lemma step_fresh (h : Fresh s woken) {a : Action τ ω} (ha : Meets s a) (hs : Settled s a) :
    ∃ t o, step s a = some (t,o) ∧ Fresh t (wokenBy woken s t a o) ∧ OwnExpiry (s,woken) a o := by
  have hnone : ∀ {a : Action τ ω} {o : Reply}, (∀ t call, a ≠ .fire t call) → OwnExpiry (s,woken) a o :=
    fun hne => ⟨fun t call _ _ ha _ => absurd ha (hne t call),fun t call ha _ => absurd ha (hne t call)⟩
  cases a with
  | pend t q forever =>
    exact ⟨_,_,rfl,h.newCall hs rfl (by simp),hnone (by simp)⟩
  | sleep t => exact ⟨_,_,rfl,h.newCall hs rfl fun _ => rfl,hnone (by simp)⟩
  | wake t ret =>
    have hset := h.set t {s.threads t with pendedOn := none, linked := false}
      rfl rfl (by simp) fun _ => rfl
    refine ⟨_,_,rfl,⟨hset.firing,hset.linked,fun u call hmem => ?_⟩,hnone (by simp)⟩
    rcases List.mem_cons.mp hmem with heq | hmem
    · obtain ⟨rfl,rfl⟩ := Prod.mk.inj heq
      simp [State.set]
    · exact hset.past u call hmem
  | wakeup t => exact ⟨_,_,rfl,h.kWakeup t,hnone (by simp)⟩
  | suspend t => exact ⟨_,_,rfl,h.set t _ rfl rfl (by simp) id,hnone (by simp)⟩
  | resume t => exact ⟨_,_,rfl,h.set t _ rfl rfl id id,hnone (by simp)⟩
  | abort t => exact ⟨_,_,rfl,h.set t _ rfl rfl (by simp) fun _ => rfl,hnone (by simp)⟩
  | announce t =>
    have hset := h.set t {s.threads t with linked := false} rfl rfl (by simp) id
    refine ⟨_,_,rfl,⟨fun u call hmem => ?_,hset.linked,hset.past⟩,hnone (by simp)⟩
    rcases List.mem_cons.mp hmem with heq | hmem
    · obtain ⟨rfl,rfl⟩ := Prod.mk.inj heq
      simpa [State.set] using h.linked u ha
    · exact hset.firing u call hmem
  | fire t call =>
    obtain ⟨hcall,hforever⟩ := h.firing t call ha
    have herase : Fresh {s with firing := s.firing.erase (t,call)} woken :=
      ⟨fun u c hmem => h.firing u c (List.mem_of_mem_erase hmem),h.linked,h.past⟩
    refine ⟨(State.wakeThread _ t).1,(State.wakeThread _ t).2,rfl,herase.wakeThread t,?_,?_⟩
    · rintro u c ended ret ⟨⟩ ho
      exact ⟨(wakeThread_ended ho).1.trans hcall.symm,hforever⟩
    · rintro u c ⟨⟩ hmem
      cases ho : (State.wakeThread {s with firing := s.firing.erase (t,call)} t).2 with
      | none => rfl
      | ended => exact absurd ((h.past t call hmem).2 hcall) (wakeThread_ended ho).2

/-- In every run in which threads block again only after the `z_thread_timeout` of their earlier
calls, each timeout ends at most the call it was set for, and no wait with K_FOREVER. -/
theorem runs_expire_own_calls {is : List (Action τ ω)}
    (h : Along (fun s a => Meets s a ∧ Settled s a) step init is) :
    ∃ x os, serve? (recording step wokenBy) (init,[]) is = some (x,os) ∧
      Trace (fun x a o _ => OwnExpiry x a o) (init,[]) is os x := by
  have hinit : Fresh (init : State τ ω) [] := ⟨by simp [init],by simp [init],by simp⟩
  refine Trace.of_steps (I := fun x : State τ ω × List (τ × ℕ) => Fresh x.1 x.2) ?_ hinit
    (h.recording (g := wokenBy) [])
  rintro ⟨s,woken⟩ a hx ha
  obtain ⟨t,o,hs,ht,hown⟩ := step_fresh hx ha.1 ha.2
  exact ⟨(t,wokenBy woken s t a o),o,recording_eq_some.mpr ⟨hs,rfl⟩,ht,hown⟩

end Steps

def wokenLate : List (Action Unit Bool) :=
  [.pend () true false,.announce (),.wake () 0,.fire () 1,.pend () false false,.announce (),.fire () 2]

theorem runs_expire_own_calls_wokenLate :
    ∃ x os, serve? (recording step wokenBy) (init,[]) wokenLate = some (x,os) ∧
      Trace (fun x a o _ => OwnExpiry x a o) (init,[]) wokenLate os x :=
  runs_expire_own_calls (by decide)

def waitsAgain : List (Action Unit Bool) :=
  [.pend () true false,.announce (),.wake () 0,.pend () false true,.fire () 1]

/-- The late `z_thread_timeout` ends the second call, which waits forever, with -EAGAIN. -/
theorem forever_wait_times_out :
    Along Meets step init waitsAgain ∧
      ∃ s os, serve? step init waitsAgain = some (s,os) ∧
        os = [.none,.none,.ended 1 0,.none,.ended 2 (-EAGAIN)] ∧ (s.threads ()).forever = true ∧
        (s.threads ()).pendedOn = none :=
  ⟨by decide,_,_,rfl,rfl,rfl,rfl⟩

end ArmFirmware.Zephyr.ThreadTimeout
