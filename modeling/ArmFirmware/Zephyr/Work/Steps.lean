import ArmFirmware.Zephyr.Work.Queues

/-! Every critical section is a sequence of effects that are allowed where they happen. -/
namespace ArmFirmware.Zephyr.Work
open Library State List Effect

section Scripts
variable {ι κ ς δ : Type*}

/-- What a submission to a queue does, if it is not refused. -/
def submits (caller q : Option κ) (i : ι) : List (Effect ι κ ς δ) :=
  (q.map (.enqueue caller · i)).toList

/-- What a cancellation does to an item that is pending at `q` or runs. -/
def cancels (q : Option κ) (i : ι) (run : Bool) : List (Effect ι κ ς δ) :=
  (q.map (.dequeue · i)).toList++if run then [.startCancel i] else []

def undelays (i : ι) (delayed : Bool) : List (Effect ι κ ς δ) :=
  if delayed then [.undelay i] else []

def delayOf : Option ℕ → Delay
  | some n => .ticks n
  | none => .forever

/-- The effects of each step and its reply. -/
inductive Script : Action ι κ ς δ → Reply ι ς δ → List (Effect ι κ ς δ) → Prop
  | submit (caller queue i r q) : Script (.submit caller queue i) (.ret r) (submits caller q i)
  | cancel (i f q run) : Script (.cancel i) (.flags f) (cancels q i run)
  | cancelIdle (c i) : Script (.cancelSync c i) (.returned false) []
  | cancelSync (c i q run) : Script (.cancelSync c i) (.returned true) (cancels q i run)
  | cancelWait (c i q run) : Script (.cancelSync c i) .blocked (cancels q i run++[.register c i])
  | flushIdle (c i) : Script (.flush c i) (.returned false) []
  | flush (c i q) : Script (.flush c i) .blocked [.insertFlusher c q i]
  | drained (d q plug) : Script (.drain d q plug) (.ret 0) []
  | drain (d q plug) : Script (.drain d q plug) .blocked [.drain d q plug]
  | unplug (q r) : Script (.unplug q) (.ret r) [.unplug q]
  | start (q) : Script (.start q) .none [.start q]
  | scheduled (caller queue i delay) : Script (.schedule caller queue i delay) (.ret 0) []
  | scheduleNow (caller queue i r q) :
      Script (.schedule caller queue i .noWait) (.ret r) (submits caller q i)
  | schedule (caller queue i n) :
      Script (.schedule caller queue i (delayOf n)) (.ret 1) [.delay i queue n]
  | rescheduleNow (caller queue i r q d) :
      Script (.reschedule caller queue i .noWait) (.ret r) (undelays i d++submits caller q i)
  | reschedule (caller queue i n d) :
      Script (.reschedule caller queue i (delayOf n)) (.ret 1) (undelays i d++[.delay i queue n])
  | cancelDelayable (i f q run d) :
      Script (.cancelDelayable i) (.flags f) (undelays i d++cancels q i run)
  | cancelDelayableIdle (c i) : Script (.cancelDelayableSync c i) (.returned false) []
  | cancelDelayableSync (c i q run d) :
      Script (.cancelDelayableSync c i) (.returned true) (undelays i d++cancels q i run)
  | cancelDelayableWait (c i q run d) : Script (.cancelDelayableSync c i) .blocked
      (undelays i d++(cancels q i run++[.register c i]))
  | flushDelayableIdle (caller c i q d) :
      Script (.flushDelayable caller c i) (.returned false) (undelays i d++submits caller q i)
  | flushDelayable (caller c i q q' d) : Script (.flushDelayable caller c i) .blocked
      (undelays i d++(submits caller q i++[.insertFlusher c q' i]))
  | take (q n) : Script (.take q) (.took n) [.take q n]
  | idle (q woken) : Script (.take q) (.idle woken) [.idle q]
  | finish (q n) : Script (.finish q) (.ran n) [.finish q n]
  | resume (c) : Script (.resume c) (.returned true) [.resume c]
  | announce (i) : Script (.announce i) .none [.announce i]
  | workTimeout (i q) : Script .workTimeout .none (.expire i::submits none q i)
  | tick : Script .tick .none [.tick]

def Effect.OnItem : Effect ι κ ς δ → Prop
  | enqueue _ _ _ | dequeue _ _ | startCancel _ | delay _ _ _ | undelay _ | expire _ => True
  | _ => False

variable {q : Option κ} {i : ι}

lemma submits_onItem {caller : Option κ} : ∀ e ∈ (submits caller q i : List (Effect ι κ ς δ)), e.OnItem := by
  cases q <;> simp [submits,Effect.OnItem]

lemma cancels_onItem {run : Bool} : ∀ e ∈ (cancels q i run : List (Effect ι κ ς δ)), e.OnItem := by
  cases q <;> cases run <;> simp [cancels,Effect.OnItem]

lemma undelays_onItem {d : Bool} : ∀ e ∈ (undelays i d : List (Effect ι κ ς δ)), e.OnItem := by
  cases d <;> simp [undelays,Effect.OnItem]

variable {a : Action ι κ ς δ} {o : Reply ι ς δ} {es : List (Effect ι κ ς δ)}

lemma Script.onItem (h : Script a o es) : ∀ e ∈ es.dropLast, e.OnItem := by
  have hsub : ∀ {l : List (Effect ι κ ς δ)}, (∀ e ∈ l, e.OnItem) → ∀ e ∈ l.dropLast, e.OnItem :=
    fun hl e he => hl e (mem_of_mem_dropLast he)
  have happend : ∀ {l l' : List (Effect ι κ ς δ)}, (∀ e ∈ l, e.OnItem) → (∀ e ∈ l', e.OnItem) →
      ∀ e ∈ l++l', e.OnItem := fun hl hl' e he => (mem_append.mp he).elim (hl e) (hl' e)
  cases h with
  | submit | scheduleNow => exact hsub submits_onItem
  | cancel | cancelSync => exact hsub cancels_onItem
  | cancelWait => simpa using cancels_onItem
  | rescheduleNow | flushDelayableIdle => exact hsub (happend undelays_onItem submits_onItem)
  | reschedule => simpa using undelays_onItem
  | cancelDelayable | cancelDelayableSync => exact hsub (happend undelays_onItem cancels_onItem)
  | cancelDelayableWait c i q run d =>
    rw [←append_assoc,dropLast_concat]
    exact happend undelays_onItem cancels_onItem
  | flushDelayable caller c i q q' d =>
    rw [←append_assoc,dropLast_concat]
    exact happend undelays_onItem submits_onItem
  | workTimeout i q => exact hsub (forall_mem_cons.mpr ⟨trivial,submits_onItem⟩)
  | _ => simp

lemma Script.of_finish {q : κ}
    {n : Node ι ς} (h : Script a o es) (hmem : .finish q n ∈ es) : a = .finish q ∧ es = [.finish q n] := by
  cases h with
  | finish q' n' =>
    obtain ⟨rfl,rfl⟩ : q = q' ∧ n = n' := by simpa using hmem
    exact ⟨rfl,rfl⟩
  | _ =>
    exfalso
    simp [submits,cancels,undelays] at hmem

end Scripts

section Steps
variable {ι κ ς δ : Type*} [DecidableEq ι] [DecidableEq κ] [DecidableEq ς] {i : ι}

/-- Effects that happen one after the other. -/
inductive Does (delayable : ι → Bool) : State ι κ ς δ → List (Effect ι κ ς δ) → State ι κ ς δ → Prop
  | nil (s) : Does delayable s [] s
  | cons {s t e es} (head : e.Allowed delayable s) (tail : Does delayable (e.apply s) es t) :
      Does delayable s (e::es) t

variable {delayable : ι → Bool} {s t u : State ι κ ς δ} {b : Board (Node ι ς) κ}

lemma Does.one {e : Effect ι κ ς δ} (he : e.Allowed delayable s) (ht : t = e.apply s) : Does delayable s [e] t :=
  ht ▸ .cons he (.nil _)

variable {es : List (Effect ι κ ς δ)}

lemma Does.append {es' : List (Effect ι κ ς δ)} (h : Does delayable s es t)
    (h' : Does delayable t es' u) : Does delayable s (es++es') u := by
  induction h with
  | nil s => exact h'
  | cons head tail ih => exact .cons head (ih h')

lemma Does.good (h : Does delayable s es t) (hs : ∃ b, Good delayable s b) : ∃ b, Good delayable t b := by
  induction h with
  | nil s => exact hs
  | cons head tail ih =>
    obtain ⟨b,hb⟩ := hs
    exact ih ⟨_,hb.apply head⟩

omit [DecidableEq ι] [DecidableEq ς] in
/-- A queue refuses an item and nothing changes, or it takes it. While it drains it takes items
of its own thread only. -/
lemma queueSubmitLocked_cases (s : State ι κ ς δ) (caller queue : Option κ) (i : ι) :
    (∃ r < 0, s.queueSubmitLocked caller queue i = (s,r)) ∨ ∃ q, queue = some q ∧ (s.queues q).started = true ∧
        ((s.queues q).drain = true → caller = some q) ∧ s.queueSubmitLocked caller queue i = ((s.setQueue q
          {s.queues q with pending := (s.queues q).pending++[.item i]}).notifyQueueLocked q,1) := by
  cases queue with
  | none => exact .inl ⟨-EINVAL,by decide,rfl⟩
  | some q =>
    unfold queueSubmitLocked
    by_cases hstart : (s.queues q).started = true
    · by_cases hdrain : (s.queues q).drain = true ∧ caller ≠ some q
      · exact .inl ⟨-EBUSY,by decide,by simp [hstart,hdrain]⟩
      · by_cases hplug : (s.queues q).plugged = true ∧ (s.queues q).drain = false
        · exact .inl ⟨-EBUSY,by decide,by simp [hstart,hplug]⟩
        · refine .inr ⟨q,rfl,hstart,fun hd => ?_,?_⟩
          · by_contra hc
            exact hdrain ⟨hd,hc⟩
          · simp only [hstart,Bool.not_true,Bool.false_eq_true,if_false,Bool.not_eq_true',if_neg hplug]
            rw [if_neg hdrain]
    · exact .inl ⟨-ENODEV,by decide,by simp [hstart]⟩

/-- A submission is refused, has no effect on an item that is queued, or adds the item to one
queue. -/
lemma submitToQueueLocked_does (delayable : ι → Bool) (s : State ι κ ς δ) (caller queue : Option κ) (i : ι) :
    (∃ r < 0, s.submitToQueueLocked caller queue i = (s,r)) ∨
      ((s.flags (.item i)).queued = true ∧ s.submitToQueueLocked caller queue i = (s,0)) ∨
      ∃ q r t, 0 < r ∧ s.submitToQueueLocked caller queue i = (t,r) ∧ Does delayable s [.enqueue caller q i] t := by
  unfold submitToQueueLocked
  by_cases hcancel : (s.flags (.item i)).canceling = true
  · exact .inl ⟨-EBUSY,by decide,by simp [hcancel]⟩
  by_cases hqueued : (s.flags (.item i)).queued = true
  · exact .inr (.inl ⟨hqueued,by simp [hcancel,hqueued]⟩)
  dsimp only
  rw [if_neg hcancel,if_neg hqueued]
  have hrun : (s.flags (.item i)).running = true →
      (if (s.flags (.item i)).running = true then s.queue i else queue <|> s.queue i) = s.queue i :=
    fun hr => if_pos hr
  generalize (if (s.flags (.item i)).running = true then s.queue i else queue <|> s.queue i) = target at hrun ⊢
  have hret : (0 : ℤ) < if (s.flags (.item i)).running = true then 2 else 1 := by split <;> decide
  generalize (if (s.flags (.item i)).running = true then (2 : ℤ) else 1) = ret at hret ⊢
  rcases queueSubmitLocked_cases s caller target i with ⟨r,hr,heq⟩ | ⟨q,rfl,hstart,hdrain,heq⟩
  · refine .inl ⟨r,hr,?_⟩
    simp only [heq,if_pos hr]
  · refine .inr (.inr ⟨q,ret,_,hret,?_,.one ⟨?_,?_,fun hr => (hrun hr).symm,hstart,hdrain⟩ rfl⟩)
    · rw [heq]
      simp only [apply,notify_queue]
      rfl
    · simpa using hcancel
    · simpa using hqueued

lemma mark_does (h : Good delayable s b) (i : ι) (hqueued : (s.flags (.item i)).queued = false)
    (hd : (s.flags (.item i)).delayed = false) :
    Does delayable s (if (s.flags (.item i)).running then [.startCancel i] else [])
      (if (s.flags (.item i)).busy then
        s.setFlags (.item i) {s.flags (.item i) with canceling := true} else s) := by
  have hitem := h.item i
  by_cases hrun : (s.flags (.item i)).running = true
  · simp only [hrun,if_true]
    refine .one ⟨hrun,hqueued⟩ ?_
    simp [Flags.busy,hrun,apply]
  · have hcancel : (s.flags (.item i)).canceling = false := by
      by_contra hc
      exact hrun (hitem.canceling (by simpa using hc)).1
    simpa [Flags.busy,hrun,hcancel,hqueued,hd,hitem.flushing] using Does.nil s

lemma cancelAsyncLocked_does (h : Good delayable s b) (hd : (s.flags (.item i)).delayed = false) :
    ∃ q : Option κ, Does delayable s ((q.map (.dequeue · i)).toList++
      if (s.flags (.item i)).running then [.startCancel i] else []) (s.cancelAsyncLocked i) := by
  have hitem := h.item i
  unfold cancelAsyncLocked
  by_cases hcancel : (s.flags (.item i)).canceling = true
  · simp only [hcancel,if_true]
    exact ⟨none,mark_does h i (hitem.canceling hcancel).2 hd⟩
  · by_cases hqueued : (s.flags (.item i)).queued = true
    · obtain ⟨q,hq⟩ := hitem.queued.mp hqueued
      have hhome := h.queue_of_pending hq
      have hremove : s.queueRemoveLocked i = s.unlink q i := by
        simp [queueRemoveLocked,hqueued,setFlags,hhome,State.setQueue,State.unlink]
      have hdoes := mark_does (h.unlink hhome) i (by simp) (by simpa using hd)
      simp only [hcancel,Bool.false_eq_true,if_false,hremove]
      refine ⟨some q,.cons ⟨by simpa using hcancel,hqueued,hhome⟩ ?_⟩
      change Does delayable (s.unlink q i) _ _
      simpa using hdoes
    · have hremove : s.queueRemoveLocked i = s := by simp [queueRemoveLocked,hqueued]
      simp only [hcancel,Bool.false_eq_true,if_false,hremove]
      exact ⟨none,mark_does h i (by simpa using hqueued) hd⟩

variable {c : ς}

lemma cancelSyncLocked_does (delayable : ι → Bool) {s : State ι κ ς δ} (i : ι) (hc : c ∉ s.blocked) :
    (s.cancelSyncLocked c i).1.wait c (s.cancelSyncLocked c i).2 true = (s,.returned true) ∨
    ∃ t, (s.cancelSyncLocked c i).1.wait c (s.cancelSyncLocked c i).2 true = (t,.blocked) ∧
      Does delayable s [.register c i] t := by
  by_cases hcancel : (s.flags (.item i)).canceling = true
  · refine .inr ⟨_,?_,.one ⟨hcancel,hc⟩ rfl⟩
    simp only [cancelSyncLocked,hcancel,if_true,wait,apply]
  · exact .inl (by simp [cancelSyncLocked,hcancel,wait])

lemma unscheduleLocked_does (delayable : ι → Bool) (s : State ι κ ς δ) (i : ι) :
    Does delayable s (undelays i (s.flags (.item i)).delayed) (s.unscheduleLocked i).1 := by
  unfold unscheduleLocked undelays
  by_cases hd : (s.flags (.item i)).delayed = true
  · simp only [hd,if_true]
    refine .one hd ?_
    cases hdue : s.due i with
    | some d => simp [apply,setFlags,hdue]
    | none =>
      have hnone : Function.update s.due i none = s.due := by
        rw [←hdue,Function.update_eq_self]
      simp [apply,setFlags,hdue,hnone]
  · simpa [hd] using Does.nil s

/-- A flush leaves a sentinel with the queue of the item, if the item is queued or runs. -/
lemma workFlushLocked_does (h : Good delayable s b) (hc : c ∉ s.blocked) :
    (((s.flags (.item i)).queued || (s.flags (.item i)).running) = false ∧
      (s.workFlushLocked c i).1.wait c (s.workFlushLocked c i).2 false = (s,.returned false)) ∨
    ∃ q t, ((s.flags (.item i)).queued || (s.flags (.item i)).running) = true ∧
      (s.workFlushLocked c i).1.wait c (s.workFlushLocked c i).2 false = (t,.blocked) ∧
      Does delayable s [.insertFlusher c q i] t := by
  unfold workFlushLocked
  by_cases hbusy : ((s.flags (.item i)).queued || (s.flags (.item i)).running) = true
  · have hor : (s.flags (.item i)).queued = true ∨ (s.flags (.item i)).running = true := by simpa using hbusy
    have hqueue : ∃ q, s.queue i = some q := by
      rcases hor with hq | hr
      · exact ((h.item i).queued.mp hq).imp fun q => h.queue_of_pending
      · exact ((h.item i).running.mp hr).imp fun q => h.queue_of_active
    obtain ⟨q,hq⟩ := hqueue
    refine .inr ⟨q,_,hbusy,?_,.one ⟨hor,hq,hc⟩ rfl⟩
    simp only [hbusy,if_true,hq,wait,apply]
  · exact .inl (by simp [hbusy,wait])

lemma submit_does (delayable : ι → Bool) (s : State ι κ ς δ) (caller queue : Option κ) (i : ι) :
    ∃ q, Does delayable s (submits caller q i) (s.submitToQueueLocked caller queue i).1 := by
  rcases submitToQueueLocked_does delayable s caller queue i with
    ⟨r,-,heq⟩ | ⟨-,heq⟩ | ⟨q,r,t,-,heq,hdoes⟩
  · exact ⟨none,by rw [heq]; exact .nil s⟩
  · exact ⟨none,by rw [heq]; exact .nil s⟩
  · exact ⟨some q,by rw [heq]; exact hdoes⟩

lemma submit_queued (s : State ι κ ς δ) (caller queue : Option κ) (i : ι) :
    (s.submitToQueueLocked caller queue i).2 < 0 ∨
      ((s.submitToQueueLocked caller queue i).1.flags (.item i)).queued = true := by
  rcases submitToQueueLocked_does (fun _ => true) s caller queue i with
    ⟨r,hr,heq⟩ | ⟨hqueued,heq⟩ | ⟨q,r,t,-,heq,hdoes⟩
  · exact .inl (by rwa [heq])
  · exact .inr (by rwa [heq])
  · refine .inr ?_
    rw [heq]
    obtain - | ⟨-,htail⟩ := hdoes
    cases htail
    simp [enqueue_eq]

lemma scheduleForQueueLocked_does (hi : delayable i = true)
    (hd : (s.flags (.item i)).delayed = false) (caller queue : Option κ) (delay : Delay) : (∃ q, delay = .noWait ∧
      Does delayable s (submits caller q i) (s.scheduleForQueueLocked caller queue i delay).1) ∨
    ∃ n, delay = delayOf n ∧ (s.scheduleForQueueLocked caller queue i delay).2 = 1 ∧
      Does delayable s [.delay i queue n] (s.scheduleForQueueLocked caller queue i delay).1 := by
  cases delay with
  | noWait =>
    obtain ⟨q,hdoes⟩ := submit_does delayable s caller queue i
    exact .inl ⟨q,rfl,hdoes⟩
  | ticks n => exact .inr ⟨some n,rfl,rfl,.one ⟨hi,hd⟩ rfl⟩
  | forever => exact .inr ⟨none,rfl,rfl,.one ⟨hi,hd⟩ rfl⟩

omit [DecidableEq κ] in
lemma unscheduleLocked_flags (s : State ι κ ς δ) (i : ι) :
    ((s.unscheduleLocked i).1.flags (.item i)).delayed = false := by
  unfold unscheduleLocked
  by_cases hd : (s.flags (.item i)).delayed = true
  · cases hdue : s.due i <;> simp [hd,setFlags,hdue]
  · simp [hd]

lemma Does.blocked (h : Does delayable s es t) (hes : ∀ e ∈ es, e.OnItem) : t.blocked = s.blocked := by
  induction h with
  | nil s => rfl
  | @cons s t e es head tail ih =>
    obtain ⟨he,hes⟩ := forall_mem_cons.mp hes
    refine (ih hes).trans ?_
    cases e with
    | enqueue caller q i => rw [enqueue_eq,notify_blocked,append_blocked]
    | dequeue q i => rfl
    | startCancel i => rfl
    | delay i queue due => rfl
    | undelay i => rfl
    | expire i => rfl
    | _ => exact he.elim

lemma cancel_does (h : Good delayable s b) (hd : (s.flags (.item i)).delayed = false) :
    ∃ q run, Does delayable s (cancels q i run) (s.cancelAsyncLocked i) := by
  obtain ⟨q,hdoes⟩ := cancelAsyncLocked_does h hd
  exact ⟨q,_,hdoes⟩

lemma cancelSync_does (h : Good delayable s b) (hd : (s.flags (.item i)).delayed = false)
    (hc : c ∉ s.blocked) : ∃ q run t, (((s.cancelAsyncLocked i).cancelSyncLocked c i).1.wait c
          ((s.cancelAsyncLocked i).cancelSyncLocked c i).2 true = (t,.returned true) ∧
        Does delayable s (cancels q i run) t) ∨ (((s.cancelAsyncLocked i).cancelSyncLocked c i).1.wait c
          ((s.cancelAsyncLocked i).cancelSyncLocked c i).2 true = (t,.blocked) ∧
        Does delayable s (cancels q i run++[.register c i]) t) := by
  obtain ⟨q,run,hdoes⟩ := cancel_does h hd
  rcases cancelSyncLocked_does delayable i (c := c) (s := s.cancelAsyncLocked i)
    (by rwa [hdoes.blocked cancels_onItem]) with heq | ⟨t,heq,hsync⟩
  · exact ⟨q,run,_,.inl ⟨heq,hdoes⟩⟩
  · exact ⟨q,run,t,.inr ⟨heq,hdoes.append hsync⟩⟩

lemma flushDelayable_does (h : Good delayable s b) (caller : Option κ) (hc : c ∉ s.blocked) :
    ∃ q t, (s.kWorkFlushDelayable caller c i = (t,.returned false) ∧
        ∃ d, Does delayable s (undelays i d++submits caller q i) t) ∨
      ∃ q', s.kWorkFlushDelayable caller c i = (t,.blocked) ∧
        ∃ d, Does delayable s (undelays i d++(submits caller q i++[.insertFlusher c q' i])) t := by
  unfold kWorkFlushDelayable
  split
  · have hun := unscheduleLocked_does delayable s i
    have hsubmit : ∃ q, Does delayable (s.unscheduleLocked i).1 (submits caller q i)
        (if (s.unscheduleLocked i).2 then ((s.unscheduleLocked i).1.submitToQueueLocked caller
          ((s.unscheduleLocked i).1.dqueue i) i).1 else (s.unscheduleLocked i).1) := by
      split
      · exact submit_does ..
      · exact ⟨none,.nil _⟩
    obtain ⟨q,hdoes⟩ := hsubmit
    have hboth := hun.append hdoes
    dsimp only
    generalize (if (s.unscheduleLocked i).2 then ((s.unscheduleLocked i).1.submitToQueueLocked caller
      ((s.unscheduleLocked i).1.dqueue i) i).1 else (s.unscheduleLocked i).1) = u at hdoes hboth ⊢
    obtain ⟨b',hb'⟩ := hboth.good ⟨b,h⟩
    have hcu : c ∉ u.blocked := by
      rwa [hdoes.blocked submits_onItem,hun.blocked undelays_onItem]
    rcases workFlushLocked_does hb' (i := i) hcu with ⟨-,heq⟩ | ⟨q',t,-,heq,hflush⟩
    · exact ⟨q,u,.inl ⟨heq,_,hboth⟩⟩
    · exact ⟨q,t,.inr ⟨q',heq,_,by simpa using hboth.append hflush⟩⟩
  · exact ⟨none,s,.inl ⟨rfl,false,.nil s⟩⟩

lemma workTimeout_does (delayable : ι → Bool) (hi : s.firing = some i) :
    ∃ q, Does delayable s (.expire i::submits none q i) (s.workTimeout i) := by
  unfold State.workTimeout
  dsimp only
  split
  · obtain ⟨q,hdoes⟩ := submit_does delayable (apply s (.expire i)) none (s.dqueue i) i
    exact ⟨q,.cons hi hdoes⟩
  · next hd =>
    refine ⟨none,.one hi ?_⟩
    have hsame : {s.flags (.item i) with delayed := false} = s.flags (.item i) := by
      rw [←Bool.eq_false_of_not_eq_true hd]
    simp [apply,setFlags,hsame]

/-- The step has a result, which a script of allowed effects leads to. -/
def Scripted (delayable : ι → Bool) (s : State ι κ ς δ) (a : Action ι κ ς δ) : Prop :=
  ∃ t o es, step s a = some (t,o) ∧ Script a o es ∧ Does delayable s es t

section Branches
variable (h : Good delayable s b)
include h

lemma cancelSync_scripted (ha : Meets delayable s (.cancelSync c i)) : Scripted delayable s (.cancelSync c i) := by
  unfold Scripted
  simp only [step,kWorkCancelSync]
  split
  · obtain ⟨q,run,t,⟨heq,hdoes⟩ | ⟨heq,hdoes⟩⟩ := cancelSync_does h (h.undelayed ha.1) ha.2
    · exact ⟨t,_,_,by rw [heq],.cancelSync c i q run,hdoes⟩
    · exact ⟨t,_,_,by rw [heq],.cancelWait c i q run,hdoes⟩
  · exact ⟨s,_,_,rfl,.cancelIdle c i,.nil s⟩

lemma drain_scripted {d : δ} {q : κ} {plug : Bool} (ha : Meets delayable s (.drain d q plug)) :
    Scripted delayable s (.drain d q plug) := by
  unfold Scripted
  simp only [step,kWorkQueueDrain]
  split
  · next hw =>
    refine ⟨_,_,_,rfl,.drain d q plug,.one ?_ rfl⟩
    by_contra hs
    obtain ⟨hp,-,hb,hd⟩ := h.unstarted q (by simpa [Effect.Allowed] using hs)
    have hplug : plug = true := by simpa [hb,hd,h.pending,hp] using hw
    exact hs (ha hplug)
  · exact ⟨s,_,_,rfl,.drained d q plug,.nil s⟩

lemma cancelDelayableSync_scripted (ha : Meets delayable s (.cancelDelayableSync c i)) :
    Scripted delayable s (.cancelDelayableSync c i) := by
  unfold Scripted
  have hun := unscheduleLocked_does delayable s i
  obtain ⟨b',hb'⟩ := hun.good ⟨b,h⟩
  simp only [step,kWorkCancelDelayableSync,cancelDelayableAsyncLocked]
  split
  · have hc : c ∉ (s.unscheduleLocked i).1.blocked := by
      rw [hun.blocked undelays_onItem]
      exact ha.2
    obtain ⟨q,run,t,⟨heq,hdoes⟩ | ⟨heq,hdoes⟩⟩ := cancelSync_does hb' (unscheduleLocked_flags s i) hc
    · exact ⟨t,_,_,by rw [heq],.cancelDelayableSync c i q run _,hun.append hdoes⟩
    · exact ⟨t,_,_,by rw [heq],.cancelDelayableWait c i q run _,hun.append hdoes⟩
  · exact ⟨s,_,_,rfl,.cancelDelayableIdle c i,.nil s⟩

end Branches

section
variable {caller queue : Option κ} {delay : Delay}

lemma schedule_scripted (ha : Meets delayable s (.schedule caller queue i delay)) :
    Scripted delayable s (.schedule caller queue i delay) := by
  unfold Scripted
  simp only [step,kWorkScheduleForQueue]
  split
  · exact ⟨s,_,_,rfl,.scheduled caller queue i delay,.nil s⟩
  · next hbusy =>
    have hd : (s.flags (.item i)).delayed = false := by
      simp only [Flags.busy,Bool.or_eq_true,not_or] at hbusy
      simpa using hbusy.1.2
    rcases scheduleForQueueLocked_does ha hd caller queue delay with
      ⟨q,rfl,hdoes⟩ | ⟨n,rfl,hret,hdoes⟩
    · exact ⟨_,_,_,rfl,.scheduleNow caller queue i _ q,hdoes⟩
    · exact ⟨_,_,_,rfl,hret ▸ .schedule caller queue i n,hdoes⟩

lemma reschedule_scripted (ha : Meets delayable s (.reschedule caller queue i delay)) :
    Scripted delayable s (.reschedule caller queue i delay) := by
  unfold Scripted
  simp only [step,kWorkRescheduleForQueue]
  have hun := unscheduleLocked_does delayable s i
  rcases scheduleForQueueLocked_does ha (unscheduleLocked_flags s i) caller queue delay with
    ⟨q,rfl,hdoes⟩ | ⟨n,rfl,hret,hdoes⟩
  · exact ⟨_,_,_,rfl,.rescheduleNow caller queue i _ q _,hun.append hdoes⟩
  · exact ⟨_,_,_,rfl,hret ▸ .reschedule caller queue i n _,hun.append hdoes⟩

end

lemma take_scripted {q : κ} (ha : Meets delayable s (.take q)) : Scripted delayable s (.take q) := by
  obtain ⟨hstart,hthread⟩ := ha
  cases hp : (s.queues q).pending with
  | nil =>
    refine ⟨(s.takeStep q).1,_,_,?_,.idle q (if (s.queues q).drain then (s.queues q).drainq else []),
      .one ⟨hstart,hthread,hp⟩ rfl⟩
    simp only [step,takeStep,hp]
    split <;> rfl
  | cons n rest =>
    refine ⟨(s.takeStep q).1,_,_,?_,.take q n,.one ⟨hstart,hthread,rest,hp⟩ rfl⟩
    simp [step,takeStep,hp]

/-- Every step that can happen has a result, which a script of allowed effects leads to. -/
theorem step_does (h : Good delayable s b) {a : Action ι κ ς δ} (ha : Meets delayable s a) :
    ∃ t o es, step s a = some (t,o) ∧ Script a o es ∧ Does delayable s es t := by
  cases a with
  | submit caller queue i =>
    obtain ⟨q,hdoes⟩ := submit_does delayable s caller queue i
    exact ⟨_,_,_,rfl,.submit caller queue i _ q,hdoes⟩
  | cancel i =>
    obtain ⟨q,run,hdoes⟩ := cancel_does h (h.undelayed ha)
    exact ⟨_,_,_,rfl,.cancel i _ q run,hdoes⟩
  | cancelSync c i => exact cancelSync_scripted h ha
  | flush c i =>
    simp only [step,kWorkFlush]
    obtain ⟨-,heq⟩ | ⟨q,t,-,heq,hdoes⟩ := workFlushLocked_does h (i := i) ha.2
    · exact ⟨s,_,_,by rw [heq],.flushIdle c i,.nil s⟩
    · exact ⟨t,_,_,by rw [heq],.flush c i q,hdoes⟩
  | drain d q plug => exact drain_scripted h ha
  | unplug q => exact ⟨_,_,_,rfl,.unplug q _,.one trivial rfl⟩
  | start q => exact ⟨_,_,_,rfl,.start q,.one (by simpa [Meets,Effect.Allowed] using ha) rfl⟩
  | schedule caller queue i delay => exact schedule_scripted ha
  | reschedule caller queue i delay => exact reschedule_scripted ha
  | cancelDelayable i =>
    have hun := unscheduleLocked_does delayable s i
    obtain ⟨b',hb'⟩ := hun.good ⟨b,h⟩
    obtain ⟨q,run,hdoes⟩ := cancel_does hb' (unscheduleLocked_flags s i)
    exact ⟨_,_,_,rfl,.cancelDelayable i _ q run _,hun.append hdoes⟩
  | cancelDelayableSync c i => exact cancelDelayableSync_scripted h ha
  | flushDelayable caller c i =>
    simp only [step]
    obtain ⟨q,t,⟨heq,d,hdoes⟩ | ⟨q',heq,d,hdoes⟩⟩ := flushDelayable_does h caller (i := i) ha.2
    · exact ⟨t,_,_,by rw [heq],.flushDelayableIdle caller c i q d,hdoes⟩
    · exact ⟨t,_,_,by rw [heq],.flushDelayable caller c i q q' d,hdoes⟩
  | take q => exact take_scripted ha
  | finish q =>
    obtain ⟨n,hn⟩ := ha
    exact ⟨_,_,_,by simp only [step,hn]; rfl,.finish q n,.one hn rfl⟩
  | resume c => exact ⟨_,_,_,rfl,.resume c,.one ha rfl⟩
  | announce i => exact ⟨_,_,_,rfl,.announce i,.one ha rfl⟩
  | workTimeout =>
    obtain ⟨i,hi⟩ := Option.isSome_iff_exists.mp ha
    obtain ⟨q,hdoes⟩ := workTimeout_does delayable hi
    exact ⟨_,_,_,by simp only [step,hi,Option.map_some],.workTimeout i q,hdoes⟩
  | tick => exact ⟨_,_,_,rfl,.tick,.one trivial rfl⟩

end Steps
end ArmFirmware.Zephyr.Work
