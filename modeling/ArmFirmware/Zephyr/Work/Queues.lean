import ArmFirmware.Library.Board
import ArmFirmware.Zephyr.Work.Model

/-! The queues as a board of servers: the flags of an item say whether it is pending and whether
it runs, and it is at one queue only. -/
namespace ArmFirmware.Zephyr.Work
open Library State List Function Bool Option Effect Board

attribute [local simp] setFlags

section Notify
variable {ι κ ς δ : Type*} [DecidableEq κ] {s : State ι κ ς δ} {q q' : κ} {n : Node ι ς}

lemma notify_eq : s.notifyQueueLocked q = {s with queues := (s.notifyQueueLocked q).queues} := by
  unfold notifyQueueLocked
  split <;> rfl

@[simp] lemma notify_flags : (s.notifyQueueLocked q).flags = s.flags := by
  rw [notify_eq]

@[simp] lemma notify_queue : (s.notifyQueueLocked q).queue = s.queue := by
  rw [notify_eq]

@[simp] lemma notify_pendingCancels : (s.notifyQueueLocked q).pendingCancels = s.pendingCancels := by
  rw [notify_eq]

@[simp] lemma notify_sem : (s.notifyQueueLocked q).sem = s.sem := by
  rw [notify_eq]

@[simp] lemma notify_blocked : (s.notifyQueueLocked q).blocked = s.blocked := by
  rw [notify_eq]

@[simp] lemma notify_due : (s.notifyQueueLocked q).due = s.due := by
  rw [notify_eq]

@[simp] lemma notify_firing : (s.notifyQueueLocked q).firing = s.firing := by
  rw [notify_eq]

@[simp] lemma notify_now : (s.notifyQueueLocked q).now = s.now := by
  rw [notify_eq]

lemma notify_queues (q' : κ) : (s.notifyQueueLocked q).queues q' = s.queues q' ∨ ((s.queues q').thread = .waiting ∧
      (s.notifyQueueLocked q).queues q' = {s.queues q' with thread := .ready}) := by
  unfold notifyQueueLocked
  split
  · next hw =>
    by_cases hq : q' = q
    · subst hq
      exact .inr ⟨hw,by simp [setQueue]⟩
    · exact .inl (by simp [setQueue,hq])
  · exact .inl rfl

@[simp] lemma notify_pending : ((s.notifyQueueLocked q).queues q').pending = (s.queues q').pending := by
  rcases notify_queues (s := s) (q := q) q' with h | ⟨-,h⟩ <;> rw [h]

@[simp] lemma notify_started : ((s.notifyQueueLocked q).queues q').started = (s.queues q').started := by
  rcases notify_queues (s := s) (q := q) q' with h | ⟨-,h⟩ <;> rw [h]

end Notify

variable {ι κ ς δ : Type*}

/-- The flags of an item say whether it is pending and whether it runs. An item is cancelled
only while it runs and is not queued again. -/
structure ItemOk (delayable : ι → Bool) (s : State ι κ ς δ) (b : Board (Node ι ς) κ) (i : ι) :
    Prop where
  home : s.queue i = b.home (.item i)
  queued : (s.flags (.item i)).queued = true ↔ ∃ q, .item i ∈ b.pending q
  running : (s.flags (.item i)).running = true ↔ ∃ q, b.active q = some (.item i)
  canceling : (s.flags (.item i)).canceling = true →
    (s.flags (.item i)).running = true ∧ (s.flags (.item i)).queued = false
  flushing : (s.flags (.item i)).flushing = false
  delayed : (s.flags (.item i)).delayed = true → delayable i = true

/-- A sync object is with one queue, or registered, while its caller waits for its semaphore. -/
structure SyncOk (s : State ι κ ς δ) (b : Board (Node ι ς) κ) (c : ς) : Prop where
  held (q : κ) : .flusher c ∈ b.pending q ∨ b.active q = some (.flusher c) →
    c ∈ s.blocked ∧ s.sem c = false ∧ (s.flags (.flusher c)).flushing = true ∧
      (s.flags (.flusher c)).canceling = false
  apart (q q' : κ) : b.active q = some (.flusher c) → .flusher c ∉ b.pending q'
  registered (i : ι) : (c,i) ∈ s.pendingCancels → c ∈ s.blocked ∧ s.sem c = false ∧
    ∀ q, .flusher c ∉ b.pending q ∧ b.active q ≠ some (.flusher c)

/-- The state shows the board: its lists and threads are those of the board. -/
structure Good (delayable : ι → Bool) (s : State ι κ ς δ) (b : Board (Node ι ς) κ) : Prop where
  sound : b.Sound
  pending (q : κ) : (s.queues q).pending = b.pending q
  active (q : κ) (n : Node ι ς) : (s.queues q).thread = .running n ↔ b.active q = some n
  unstarted (q : κ) : (s.queues q).started = false → b.pending q = [] ∧ b.active q = none ∧
    (s.queues q).busy = false ∧ (s.queues q).drain = false
  item (i : ι) : ItemOk delayable s b i
  sync (c : ς) : SyncOk s b c
  nodup : (s.pendingCancels.map Prod.fst).Nodup

section Frame
variable {delayable : ι → Bool} {s t : State ι κ ς δ} {b b' : Board (Node ι ς) κ} {i : ι} {c : ς}

lemma ItemOk.congr (h : ItemOk delayable s b i) (hflags : t.flags (.item i) = s.flags (.item i))
    (hqueue : t.queue i = s.queue i) (hhome : b'.home (.item i) = b.home (.item i))
    (hpending : ∀ q, .item i ∈ b'.pending q ↔ .item i ∈ b.pending q)
    (hactive : ∀ q, b'.active q = some (.item i) ↔ b.active q = some (.item i)) : ItemOk delayable t b' i := by
  refine ⟨?_,?_,?_,?_,?_,?_⟩
  · rw [hqueue,hhome,h.home]
  · rw [hflags,h.queued]
    simp only [hpending]
  · rw [hflags,h.running]
    simp only [hactive]
  · exact hflags ▸ h.canceling
  · exact hflags ▸ h.flushing
  · exact hflags ▸ h.delayed

lemma SyncOk.congr (h : SyncOk s b c) (hflags : t.flags (.flusher c) = s.flags (.flusher c))
    (hblocked : c ∈ s.blocked → c ∈ t.blocked) (hsem : t.sem c = s.sem c)
    (hcancels : ∀ i, (c,i) ∈ t.pendingCancels → (c,i) ∈ s.pendingCancels)
    (hpending : ∀ q, .flusher c ∈ b'.pending q ↔ .flusher c ∈ b.pending q)
    (hactive : ∀ q, b'.active q = some (.flusher c) ↔ b.active q = some (.flusher c)) : SyncOk t b' c := by
  refine ⟨fun q hq => ?_,fun q q' hq => ?_,fun i hi => ?_⟩
  · rw [hpending,hactive] at hq
    obtain ⟨hb,hrest⟩ := h.held q hq
    exact ⟨hblocked hb,by rwa [hsem,hflags]⟩
  · rw [hpending]
    exact h.apart q q' ((hactive q).mp hq)
  · obtain ⟨hb,hs,hnone⟩ := h.registered i (hcancels i hi)
    refine ⟨hblocked hb,hsem.trans hs,fun q => ?_⟩
    rw [hpending,ne_eq,hactive]
    exact hnone q

lemma Good.frame (h : Good delayable s b)
    (hitem : ∀ i, ∃ d, t.flags (.item i) = {s.flags (.item i) with delayed := d} ∧ (d = true → delayable i = true))
    (hflusher : ∀ c, t.flags (.flusher c) = s.flags (.flusher c))
    (hqueue : t.queue = s.queue) (hpending : ∀ q, (t.queues q).pending = (s.queues q).pending)
    (hthread : ∀ q n, (t.queues q).thread = .running n ↔ (s.queues q).thread = .running n)
    (hstarted : ∀ q, (t.queues q).started = false → (s.queues q).started = false ∧
      (t.queues q).busy = (s.queues q).busy ∧ (t.queues q).drain = (s.queues q).drain)
    (hcancels : t.pendingCancels = s.pendingCancels) (hsem : t.sem = s.sem)
    (hblocked : t.blocked = s.blocked) : Good delayable t b := by
  refine ⟨h.sound,fun q => (hpending q).trans (h.pending q),
    fun q n => (hthread q n).trans (h.active q n),fun q hq => ?_,fun i => ?_,fun c => ?_,hcancels ▸ h.nodup⟩
  · obtain ⟨hs,hb,hd⟩ := hstarted q hq
    rw [hb,hd]
    exact h.unstarted q hs
  · obtain ⟨d,hd,hdelay⟩ := hitem i
    obtain ⟨hhome,hq,hr,hc,hf,-⟩ := h.item i
    refine ⟨(congrFun hqueue i).trans hhome,?_,?_,?_,?_,?_⟩ <;> rw [hd] <;> assumption
  · exact (h.sync c).congr (hflusher c) (by rw [hblocked]; exact id) (congrFun hsem c)
      (fun i => by rw [hcancels]; exact id) (fun _ => .rfl) fun _ => .rfl

lemma Good.not_pending (h : Good delayable s b) (hi : (s.flags (.item i)).queued = false) (q : κ) :
    .item i ∉ b.pending q := fun hq => by
  simp [(h.item i).queued.mpr ⟨q,hq⟩] at hi

lemma Good.queue_of_pending (h : Good delayable s b) {q : κ} (hq : .item i ∈ b.pending q) : s.queue i = some q :=
  (h.item i).home.trans (h.sound.pending q _ hq)

lemma Good.queue_of_active (h : Good delayable s b) {q : κ} (hq : b.active q = some (.item i)) :
    s.queue i = some q := (h.item i).home.trans (h.sound.active q _ hq)

lemma Good.undelayed (h : Good delayable s b) (hi : (!delayable i) = true) :
    (s.flags (.item i)).delayed = false := by
  by_contra hd
  simp [(h.item i).delayed (by simpa using hd)] at hi

lemma Good.absent (h : Good delayable s b) {c : ς} (hc : c ∉ s.blocked ∨ s.sem c = true) :
    (∀ q, .flusher c ∉ b.pending q ∧ b.active q ≠ some (.flusher c)) ∧ ∀ i, (c,i) ∉ s.pendingCancels := by
  have hnot : ¬(c ∈ s.blocked ∧ s.sem c = false) := by
    rintro ⟨hb,hs⟩
    simp [hb,hs] at hc
  refine ⟨fun q => ⟨fun hp => hnot ?_,fun ha => hnot ?_⟩,fun i hi => hnot ?_⟩
  · exact ((h.sync c).held q (.inl hp)).imp_right And.left
  · exact ((h.sync c).held q (.inr ha)).imp_right And.left
  · exact ((h.sync c).registered i hi).imp_right And.left

lemma Good.start_of_queue (h : Good delayable s b) {q : κ} (hq : s.queue i = some q)
    (hi : (s.flags (.item i)).queued = true ∨ (s.flags (.item i)).running = true) :
    (s.queues q).started = true := by
  by_contra hs
  obtain ⟨hp,ha,-⟩ := h.unstarted q (by simpa using hs)
  rcases hi with hi | hi
  · obtain ⟨q',hq'⟩ := (h.item i).queued.mp hi
    obtain rfl := some.inj ((h.queue_of_pending hq').symm.trans hq)
    simp [hp] at hq'
  · obtain ⟨q',hq'⟩ := (h.item i).running.mp hi
    obtain rfl := some.inj ((h.queue_of_active hq').symm.trans hq)
    simp [ha] at hq'

end Frame

section Queue
variable [DecidableEq κ] {delayable : ι → Bool} {s : State ι κ ς δ} {b : Board (Node ι ς) κ}

lemma Good.setQueue (h : Good delayable s b) (q : κ) (w : WorkQ ι ς δ) (hpending : w.pending = (s.queues q).pending)
    (hthread : ∀ n, w.thread = .running n ↔ (s.queues q).thread = .running n)
    (hstarted : w.started = false → (s.queues q).started = false ∧ w.busy = (s.queues q).busy ∧
      w.drain = (s.queues q).drain) : Good delayable (s.setQueue q w) b := by
  refine h.frame (fun i => ⟨_,rfl,(h.item i).delayed⟩) (fun _ => rfl) rfl (fun q' => ?_)
    (fun q' n => ?_) (fun q' => ?_) rfl rfl rfl
  all_goals
    by_cases hq : q' = q
    · subst hq
      simp only [State.setQueue,update_self]
      first | exact hpending | exact hthread n | exact hstarted
    · simp [State.setQueue,hq]

lemma Good.notify (h : Good delayable s b) (q : κ) : Good delayable (s.notifyQueueLocked q) b := by
  unfold notifyQueueLocked
  split
  · next hw => exact h.setQueue q _ rfl (by simp [hw]) fun hs => ⟨hs,rfl,rfl⟩
  · exact h

lemma Good.pending_update (h : Good delayable s b) (q : κ) (w : WorkQ ι ς δ) (q' : κ) :
    (update s.queues q w q').pending = update b.pending q w.pending q' := by
  by_cases hq : q' = q
  · subst hq
    simp
  · simp [hq,h.pending]

lemma Good.active_update (h : Good delayable s b) (q : κ) (w : WorkQ ι ς δ)
    (hw : w.thread = (s.queues q).thread) (q' : κ) (n : Node ι ς) :
    (update s.queues q w q').thread = .running n ↔ b.active q' = some n := by
  rw [←h.active]
  by_cases hq : q' = q
  · subst hq
    simp [hw]
  · simp [hq]

lemma finish_active (h : Good delayable s b) {q : κ} {n : Node ι ς} (hthread : (s.queues q).thread = .running n)
    (m : Node ι ς) (q' : κ) : (b.finish q).active q' = some m ↔ b.active q' = some m ∧ n ≠ m := by
  have hn := (h.active q n).mp hthread
  by_cases hq : q' = q
  · subst hq
    simp [hn]
  · have hm : b.active q' = some m → n ≠ m := by
      rintro hm rfl
      exact hq (h.sound.active_eq hm hn)
    simpa [hq] using hm

end Queue

section Items
variable [DecidableEq ς] {delayable : ι → Bool} {s : State ι κ ς δ} {b : Board (Node ι ς) κ}

lemma Good.release (h : Good delayable s b) {c : ς} {v : Bool} {blocked : List ς}
    {cancels : List (ς × ι)} (hblocked : ∀ c' ≠ c, c' ∈ s.blocked → c' ∈ blocked)
    (habsent : ∀ q, .flusher c ∉ b.pending q ∧ b.active q ≠ some (.flusher c))
    (hcancels : cancels.Sublist s.pendingCancels) (hc : ∀ i, (c,i) ∉ cancels) : Good delayable {s with
      sem := update s.sem c v, blocked := blocked, pendingCancels := cancels} b := by
  refine ⟨h.sound,h.pending,h.active,h.unstarted,fun i => ?_,fun c' => ?_,h.nodup.sublist (hcancels.map Prod.fst)⟩
  · exact (h.item i).congr rfl rfl rfl (fun _ => .rfl) fun _ => .rfl
  · by_cases hcc : c' = c
    · subst hcc
      refine ⟨fun q hq => ?_,fun q q' hq => absurd hq (habsent q).2,fun i hi => absurd hi (hc i)⟩
      exact absurd hq (not_or.mpr (habsent q))
    · exact (h.sync c').congr rfl (hblocked c' hcc) (by simp [hcc]) (fun i hi => hcancels.subset hi)
        (fun _ => .rfl) fun _ => .rfl

lemma Good.register (h : Good delayable s b) {c : ς} (hc : c ∉ s.blocked) (i : ι) :
    Good delayable {s with
      sem := update s.sem c false
      pendingCancels := s.pendingCancels++[(c,i)]
      blocked := s.blocked++[c]} b := by
  obtain ⟨habsent,hunregistered⟩ := h.absent (.inl hc)
  refine ⟨h.sound,h.pending,h.active,h.unstarted,fun i => ?_,fun c' => ?_,?_⟩
  · exact (h.item i).congr rfl rfl rfl (fun _ => .rfl) fun _ => .rfl
  · by_cases hcc : c' = c
    · subst hcc
      refine ⟨fun q hq => absurd hq (not_or.mpr (habsent q)),fun q q' hq => absurd hq (habsent q).2,
        fun j hj => ⟨by simp,by simp,habsent⟩⟩
    · refine (h.sync c').congr rfl (fun hb => by simp [hb]) (by simp [hcc]) (fun j hj => ?_)
        (fun _ => .rfl) fun _ => .rfl
      simpa [hcc] using hj
  · rw [map_append,nodup_append]
    refine ⟨h.nodup,by simp,?_⟩
    rintro _ hmem _ hsingle rfl
    obtain ⟨⟨_,j⟩,hj,rfl⟩ := mem_map.mp hmem
    obtain rfl : _ = c := by simpa using hsingle
    exact hunregistered j hj

variable [DecidableEq ι]

lemma Good.setDelayed (h : Good delayable s b) (i : ι) (d : Bool) (hd : d = true → delayable i = true)
    {dqueue : ι → Option κ} {due : ι → Option ℕ} {firing : Option ι} :
    Good delayable {s.setFlags (.item i) {s.flags (.item i) with delayed := d} with
      dqueue := dqueue, due := due, firing := firing} b := by
  refine h.frame (fun j => ?_) (fun c => by simp) rfl (fun _ => rfl) (fun _ _ => .rfl)
    (fun _ hs => ⟨hs,rfl,rfl⟩) rfl rfl rfl
  by_cases hj : j = i
  · subst hj
    exact ⟨d,by simp,hd⟩
  · exact ⟨_,by simp [hj],(h.item j).delayed⟩

lemma Good.startCancel (h : Good delayable s b) {i : ι} (hrun : (s.flags (.item i)).running = true)
    (hqueued : (s.flags (.item i)).queued = false) :
    Good delayable (s.setFlags (.item i) {s.flags (.item i) with canceling := true}) b := by
  refine ⟨h.sound,h.pending,h.active,h.unstarted,fun j => ?_,fun c => ?_,h.nodup⟩
  · by_cases hj : j = i
    · subst hj
      obtain ⟨hhome,hq,hr,-,hf,hd⟩ := h.item j
      exact ⟨hhome,by simpa using hq,by simpa using hr,
        by simp [hrun,hqueued],by simpa using hf,by simpa using hd⟩
    · exact (h.item j).congr (by simp [hj]) rfl rfl (fun _ => .rfl) fun _ => .rfl
  · exact (h.sync c).congr (by simp) id rfl (fun _ => id) (fun _ => .rfl) fun _ => .rfl

/-- The first canceller registered for the item is given its semaphore. -/
def State.wakeCanceller (s : State ι κ ς δ) (i : ι) : State ι κ ς δ :=
  match s.pendingCancels.find? fun p => p.2 = i with
  | some p =>
    {s with
      pendingCancels := s.pendingCancels.eraseP fun p => p.2 = i
      sem := update s.sem p.1 true}
  | none => s

lemma wakeCanceller_frame (s : State ι κ ς δ) (i : ι) :
    (s.wakeCanceller i).flags = s.flags ∧ (s.wakeCanceller i).queue = s.queue ∧
      (s.wakeCanceller i).queues = s.queues ∧ (s.wakeCanceller i).blocked = s.blocked ∧
      (s.wakeCanceller i).dqueue = s.dqueue ∧ (s.wakeCanceller i).due = s.due ∧
      (s.wakeCanceller i).firing = s.firing ∧ (s.wakeCanceller i).now = s.now := by
  unfold wakeCanceller
  split <;> simp

/-- The canceller of an item is woken. -/
lemma Good.wakeCanceller (h : Good delayable s b) (i : ι) : Good delayable (s.wakeCanceller i) b := by
  unfold State.wakeCanceller
  split
  · next p hfind =>
    have hmem := mem_of_find?_eq_some hfind
    refine h.release (fun _ _ => id) ((h.sync p.1).registered p.2 hmem).2.2 (eraseP_sublist ..) ?_
    -- a sync object is registered once
    have hnodup := h.nodup
    clear hmem
    generalize s.pendingCancels = l at hfind hnodup
    induction l with
    | nil => simp
    | cons x l ih =>
      rw [map_cons,nodup_cons] at hnodup
      by_cases hx : x.2 = i
      · obtain rfl : x = p := by simpa [List.find?_cons,hx] using hfind
        rw [eraseP_cons_of_pos (by simpa using hx)]
        exact fun j hj => hnodup.1 (mem_map.mpr ⟨_,hj,rfl⟩)
      · have hfind' : l.find? (fun p => decide (p.2 = i)) = some p := by
          simpa [List.find?_cons,hx] using hfind
        rw [eraseP_cons_of_neg (by simpa using hx)]
        intro j hj
        rcases mem_cons.mp hj with rfl | hj
        · exact hnodup.1 (mem_map.mpr ⟨p,mem_of_find?_eq_some hfind',rfl⟩)
        · exact ih hfind' hnodup.2 j hj
  · exact h

end Items

section Effects
variable [DecidableEq ι] [DecidableEq κ] [DecidableEq ς] {delayable : ι → Bool} {s : State ι κ ς δ}
  {b : Board (Node ι ς) κ}

@[simps] def State.append (s : State ι κ ς δ) (q : κ) (i : ι) : State ι κ ς δ :=
  {s with
    flags := update s.flags (.item i) {s.flags (.item i) with queued := true}
    queue := update s.queue i (some q)
    queues := update s.queues q {s.queues q with pending := (s.queues q).pending++[.item i]}}

variable {q : κ} {i : ι}

/-- An item is submitted. -/
lemma Good.append (h : Good delayable s b)
    (hcancel : (s.flags (.item i)).canceling = false) (hqueued : (s.flags (.item i)).queued = false)
    (hrun : (s.flags (.item i)).running = true → s.queue i = some q) (hstart : (s.queues q).started = true) :
    Good delayable (s.append q i) (b.add q (.item i) (b.pending q++[.item i])) := by
  have hperm := perm_append_singleton (.item i) (b.pending q)
  have hmem : ∀ n q', n ∈ (b.add q (.item i) (b.pending q++[.item i])).pending q' ↔
      n ∈ b.pending q' ∨ q' = q ∧ n = .item i := fun n q' => mem_add hperm
  have hactive : ∀ q', b.active q' = some (.item i) → q' = q := fun q' hq' =>
    some.inj ((h.queue_of_active hq').symm.trans (hrun ((h.item i).running.mpr ⟨q',hq'⟩)))
  refine ⟨h.sound.add hperm (h.not_pending hqueued) hactive,?_,?_,?_,fun j => ?_,fun c => ?_,h.nodup⟩
  · intro q'
    rw [append_queues,h.pending_update,h.pending]
    rfl
  · exact h.active_update q _ rfl
  · intro q' hq'
    have hne : q' ≠ q := by
      rintro rfl
      simp [hstart] at hq'
    simpa [add,hne] using h.unstarted q' (by simpa [hne] using hq')
  · by_cases hj : j = i
    · subst hj
      obtain ⟨-,-,hr,-,hf,hd⟩ := h.item j
      refine ⟨by simp [add],?_,?_,?_,?_,?_⟩
      · simp only [append_flags,update_self,true_iff]
        exact ⟨q,(hmem _ _).mpr (.inr ⟨rfl,rfl⟩)⟩
      · simpa using hr
      · simp [hcancel]
      · simpa using hf
      · simpa using hd
    · refine (h.item j).congr (by simp [hj]) (by simp [hj]) (by simp [add,hj]) (fun q' => ?_)
        fun _ => .rfl
      simp [hmem,hj]
  · refine (h.sync c).congr (by simp) id rfl (fun _ => id) (fun q' => ?_) fun _ => .rfl
    simp [hmem]

@[simps] def State.unlink (s : State ι κ ς δ) (q : κ) (i : ι) : State ι κ ς δ :=
  {s with
    flags := update s.flags (.item i) {s.flags (.item i) with queued := false}
    queues := update s.queues q
      {s.queues q with pending := (s.queues q).pending.erase (.item i)}}

/-- An item leaves its queue. -/
lemma Good.unlink (h : Good delayable s b) {q : κ} {i : ι} (hq : s.queue i = some q) :
    Good delayable (s.unlink q i) (b.remove q (.item i)) := by
  have hmem : ∀ n q', n ∈ (b.remove q (.item i)).pending q' ↔
      n ∈ b.pending q' ∧ ¬(q' = q ∧ n = .item i) := fun n q' => h.sound.mem_remove
  refine ⟨h.sound.remove q _,?_,?_,?_,fun j => ?_,fun c => ?_,h.nodup⟩
  · intro q'
    rw [unlink_queues,h.pending_update,h.pending]
    rfl
  · exact h.active_update q _ rfl
  · intro q' hq'
    by_cases hqq : q' = q
    · subst hqq
      obtain ⟨hp,hrest⟩ := h.unstarted q' (by simpa using hq')
      exact ⟨by simp [remove,hp],by simpa using hrest⟩
    · simpa [remove,hqq] using h.unstarted q' (by simpa [hqq] using hq')
  · by_cases hj : j = i
    · subst hj
      obtain ⟨hhome,-,hr,hc,hf,hd⟩ := h.item j
      refine ⟨hhome,?_,by simpa using hr,?_,by simpa using hf,by simpa using hd⟩
      · simp only [unlink_flags,update_self,false_eq_true,false_iff,not_exists,hmem]
        exact fun q' ⟨hq',hne⟩ => hne ⟨some.inj ((h.queue_of_pending hq').symm.trans hq),trivial⟩
      · simpa using fun hcancel => (hc hcancel).1
    · refine (h.item j).congr (by simp [hj]) rfl rfl (fun q' => ?_) fun _ => .rfl
      simp [hmem,hj]
  · refine (h.sync c).congr (by simp) id rfl (fun _ => id) (fun q' => ?_) fun _ => .rfl
    simp [hmem]

variable {n : Node ι ς} {l : List (Node ι ς)}

lemma insertAfter_perm {m : Node ι ς} (h : m ∈ l) : (insertAfter m n l).Perm (n::l) := by
  induction l with
  | nil => simp at h
  | cons x l ih =>
    rw [insertAfter]
    split
    · exact List.Perm.swap ..
    · next hx =>
      have hl : m ∈ l := by simpa [Ne.symm hx] using h
      exact ((ih hl).cons x).trans (List.Perm.swap ..)

/-- Put the sentinel of `c` into the pending list of `q`, which becomes `l`. -/
@[simps] def State.plant (s : State ι κ ς δ) (q : κ) (c : ς) (l : List (Node ι ς)) : State ι κ ς δ :=
  {s with
    flags := update s.flags (.flusher c) ⟨false,false,false,false,true⟩
    queues := update s.queues q {s.queues q with pending := l}
    sem := update s.sem c false
    blocked := s.blocked++[c]}

/-- A flusher is put in a queue. -/
lemma Good.plant (h : Good delayable s b) {c : ς} (hc : c ∉ s.blocked)
    (hperm : l.Perm (.flusher c::b.pending q)) (hstart : (s.queues q).started = true) :
    Good delayable (s.plant q c l) (b.add q (.flusher c) l) := by
  obtain ⟨habsent,hunregistered⟩ := h.absent (.inl hc)
  have hmem : ∀ n q', n ∈ (b.add q (.flusher c) l).pending q' ↔
      n ∈ b.pending q' ∨ q' = q ∧ n = .flusher c := fun n q' => mem_add hperm
  refine ⟨h.sound.add hperm (fun q' => (habsent q').1) fun q' hq' => absurd hq' (habsent q').2,
    ?_,?_,?_,fun i => ?_,fun c' => ?_,h.nodup⟩
  · exact fun q' => h.pending_update q _ q'
  · exact h.active_update q _ rfl
  · intro q' hq'
    have hne : q' ≠ q := by
      rintro rfl
      simp [hstart] at hq'
    simpa [add,hne] using h.unstarted q' (by simpa [hne] using hq')
  · refine (h.item i).congr (by simp) rfl (by simp) (fun q' => ?_) fun _ => .rfl
    simp [hmem]
  · by_cases hcc : c' = c
    · subst hcc
      refine ⟨fun q' _ => by simp,fun q' q'' hq' => absurd hq' (habsent q').2,fun i hi => ?_⟩
      exact absurd hi (hunregistered i)
    · refine (h.sync c').congr (by simp [hcc]) (fun hb => by simp [hb]) (by simp [hcc])
        (fun _ => id) (fun q' => ?_) fun _ => .rfl
      simp [hmem,hcc]

@[simps] def State.begin (s : State ι κ ς δ) (q : κ) (n : Node ι ς) (rest : List (Node ι ς)) : State ι κ ς δ :=
  {s with
    flags := update s.flags n {s.flags n with running := true, queued := false}
    queues := update s.queues q
      {s.queues q with busy := true, pending := rest, thread := .running n}}

/-- The thread of a queue takes the first node. -/
lemma Good.begin (h : Good delayable s b) {rest : List (Node ι ς)}
    (hstart : (s.queues q).started = true) (hthread : (s.queues q).thread = .ready)
    (hpending : (s.queues q).pending = n::rest) : Good delayable (s.begin q n rest) (b.take q) := by
  have hb := (h.pending q).symm.trans hpending
  have hidle : b.active q = none := by
    rw [Option.eq_none_iff_forall_ne_some]
    intro m hm
    simp [(h.active q m).mpr hm] at hthread
  have hmem : ∀ m q', m ∈ (b.take q).pending q' ↔ m ∈ b.pending q' ∧ ¬(q' = q ∧ n = m) := by
    intro m q'
    rw [h.sound.mem_take,hb]
    simp
  have hactive : ∀ m q', (b.take q).active q' = some m ↔ b.active q' = some m ∨ q' = q ∧ n = m := by
    intro m q'
    by_cases hq : q' = q
    · subst hq
      simp [hb,hidle]
    · simp [hq]
  have hn : n ∈ b.pending q := by simp [hb]
  refine ⟨h.sound.take q,?_,?_,?_,fun j => ?_,fun c => ?_,h.nodup⟩
  · intro q'
    rw [begin_queues,h.pending_update]
    simp [Board.take,hb]
  · intro q' m
    rw [hactive,←h.active]
    by_cases hq : q' = q
    · subst hq
      simp [hthread]
    · simp [hq]
  · intro q' hq'
    have hne : q' ≠ q := by
      rintro rfl
      simp [hstart] at hq'
    simpa [Board.take,hne] using h.unstarted q' (by simpa [hne] using hq')
  · by_cases hj : n = .item j
    · subst hj
      obtain ⟨hhome,hq,hr,hc,hf,hd⟩ := h.item j
      refine ⟨hhome,?_,?_,?_,by simpa using hf,by simpa using hd⟩
      · simp only [begin_flags,update_self,false_eq_true,false_iff,not_exists,hmem]
        exact fun q' ⟨hq',hne⟩ => hne ⟨h.sound.pending_eq hq' hn,trivial⟩
      · simp only [begin_flags,update_self,true_iff]
        exact ⟨q,(hactive _ _).mpr (.inr ⟨rfl,rfl⟩)⟩
      · simp
    · refine (h.item j).congr (by simp [Ne.symm hj]) rfl rfl (fun q' => ?_) fun q' => ?_
      · simp [hmem,hj]
      · rw [hactive]
        simp [hj]
  · by_cases hj : n = .flusher c
    · subst hj
      obtain ⟨hheld,-,hregistered⟩ := h.sync c
      obtain ⟨hblocked,hsem,hflush,hcancel⟩ := hheld q (.inl hn)
      refine ⟨fun q' _ => ⟨hblocked,hsem,by simpa using hflush,by simpa using hcancel⟩,
        fun q' q'' hq' => ?_,fun i hi => absurd hn ((hregistered i hi).2.2 q).1⟩
      rw [hmem]
      exact fun ⟨hq'',hne⟩ => hne ⟨h.sound.pending_eq hq'' hn,rfl⟩
    · refine (h.sync c).congr (by simp [Ne.symm hj]) id rfl (fun _ => id) (fun q' => ?_) fun q' => ?_
      · simp [hmem,hj]
      · rw [hactive]
        simp [hj]

@[simps] def State.conclude (s : State ι κ ς δ) (q : κ) (n : Node ι ς) (f : Flags) : State ι κ ς δ :=
  {s with
    flags := update s.flags n f
    queues := update s.queues q {s.queues q with busy := false, thread := .ready}}

section Conclude
variable {q : κ} {n : Node ι ς}

/-- A handler returns. -/
lemma Good.conclude (h : Good delayable s b) (hthread : (s.queues q).thread = .running n) {f : Flags}
    (hf : f.running = false ∧ f.canceling = false ∧ f.queued = (s.flags n).queued ∧
      f.delayed = (s.flags n).delayed ∧ f.flushing = false) : Good delayable (s.conclude q n f) (b.finish q) := by
  have hactive := finish_active h hthread
  have hn := (h.active q n).mp hthread
  obtain ⟨hrun,hcancel,hqueued,hdelayed,hflush⟩ := hf
  refine ⟨h.sound.finish q,?_,?_,?_,fun j => ?_,fun c => ?_,h.nodup⟩
  · intro q'
    rw [conclude_queues,h.pending_update]
    simp [Board.finish,h.pending]
  · intro q' m
    by_cases hq : q' = q
    · subst hq
      simp
    · simp [hq,h.active]
  · intro q' hq'
    by_cases hqq : q' = q
    · subst hqq
      have hnone := (h.unstarted q' (by simpa using hq')).2.1
      simp [hnone] at hn
    · simpa [Board.finish,hqq] using h.unstarted q' (by simpa [hqq] using hq')
  · by_cases hj : n = .item j
    · subst hj
      obtain ⟨hhome,hq,-,-,-,hd⟩ := h.item j
      refine ⟨hhome,by simpa [hqueued] using hq,?_,by simp [hcancel],by simpa using hflush,
        by simpa [hdelayed] using hd⟩
      simp only [conclude_flags,update_self,hrun,false_eq_true,false_iff,not_exists]
      exact fun q' hq' => ((hactive _ _).mp hq').2 rfl
    · refine (h.item j).congr (by simp [Ne.symm hj]) rfl rfl (fun _ => .rfl) fun q' => ?_
      rw [hactive]
      simp [hj]
  · by_cases hj : n = .flusher c
    · subst hj
      obtain ⟨-,hapart,hregistered⟩ := h.sync c
      refine ⟨fun q' hq' => ?_,fun q' q'' hq' => ?_,fun i hi => absurd hn ((hregistered i hi).2.2 q).2⟩
      · exact (hq'.elim (hapart q q' hn) fun ha => ((hactive _ _).mp ha).2 rfl).elim
      · exact (((hactive _ _).mp hq').2 rfl).elim
    · refine (h.sync c).congr (by simp [Ne.symm hj]) id rfl (fun _ => id) (fun _ => .rfl) fun q' => ?_
      rw [hactive]
      simp [hj]

end Conclude

section Apply
variable {q : κ} {i : ι} {c : ς}

lemma enqueue_eq (caller : Option κ) : (enqueue caller q i).apply s = (s.append q i).notifyQueueLocked q := by
  simp only [apply,append,notifyQueueLocked,setFlags,setQueue,update_self]
  split <;> rfl

lemma insertFlusher_eq : (insertFlusher c q i).apply s = (s.plant q c
    (if .item i ∈ (s.queues q).pending then insertAfter (.item i) (.flusher c) (s.queues q).pending
      else .flusher c::(s.queues q).pending)).notifyQueueLocked q := by
  simp only [apply,plant,queueFlusherLocked,notifyQueueLocked,setFlags,setQueue,update_self]
  split <;> rfl

lemma take_eq {n : Node ι ς} {rest : List (Node ι ς)} (h : (s.queues q).pending = n::rest) :
    (take q n).apply s = s.begin q n rest := by
  simp only [apply,takeStep,h]
  rfl

lemma finish_flusher_eq (hflush : (s.flags (.flusher c)).flushing = true)
    (hcancel : (s.flags (.flusher c)).canceling = false) :
    (finish q (.flusher c)).apply s = {s.conclude q (.flusher c)
      {s.flags (.flusher c) with running := false, flushing := false} with
        sem := update s.sem c true} := by
  simp [apply,finishStep,finalizeFlushLocked,conclude,setQueue,hflush,hcancel]

lemma finish_item_eq (hflush : (s.flags (.item i)).flushing = false) :
    (finish q (.item i)).apply s = if (s.flags (.item i)).canceling then
      (s.conclude q (.item i) {s.flags (.item i) with running := false, canceling := false}).wakeCanceller i
      else s.conclude q (.item i) {s.flags (.item i) with running := false} := by
  by_cases hcancel : (s.flags (.item i)).canceling = true
  · have hp : (fun p : ς × ι => decide (Node.item (ς := ς) p.2 = .item i)) = fun p => decide (p.2 = i) := by
      funext p
      simp
    simp only [apply,finishStep,finalizeCancelLocked,wakeCanceller,conclude,setFlags,
      setQueue,hflush,hcancel,update_self,update_idem,false_eq_true,if_true,if_false,hp]
    cases s.pendingCancels.find? fun p => decide (p.2 = i) <;> rfl
  · simp [apply,finishStep,conclude,setQueue,hflush,hcancel]

end Apply

lemma Good.finish_frame (h : Good delayable s b) (hthread : (s.queues q).thread = .running n) :
    (∃ f : Flags, f.running = false ∧ f.canceling = false ∧ f.queued = (s.flags n).queued ∧
      f.delayed = (s.flags n).delayed ∧ f.flushing = false ∧ ((finish q n).apply s).flags = update s.flags n f) ∧
    ((finish q n).apply s).queues = update s.queues q {s.queues q with busy := false, thread := .ready} ∧
    ((finish q n).apply s).queue = s.queue ∧ ((finish q n).apply s).blocked = s.blocked ∧
    ((finish q n).apply s).dqueue = s.dqueue ∧ ((finish q n).apply s).due = s.due ∧
    ((finish q n).apply s).firing = s.firing ∧ ((finish q n).apply s).now = s.now := by
  cases n with
  | item i =>
    have hflush := (h.item i).flushing
    rw [finish_item_eq hflush]
    split
    · let f : Flags := {s.flags (.item i) with running := false, canceling := false}
      obtain ⟨hflags,hqueue,hqueues,hrest⟩ := wakeCanceller_frame (s.conclude q (.item i) f) i
      exact ⟨⟨f,rfl,rfl,rfl,rfl,hflush,hflags⟩,hqueues,hqueue,hrest⟩
    · next hcancel =>
      exact ⟨⟨{s.flags (.item i) with running := false},rfl,by simpa using hcancel,rfl,rfl,hflush,rfl⟩,
        rfl,rfl,rfl,rfl,rfl,rfl,rfl⟩
  | flusher c =>
    obtain ⟨-,-,hflush,hcancel⟩ := (h.sync c).held q (.inr ((h.active q _).mp hthread))
    rw [finish_flusher_eq hflush hcancel]
    exact ⟨⟨{s.flags (.flusher c) with running := false, flushing := false},rfl,hcancel,rfl,rfl,rfl,rfl⟩,
      rfl,rfl,rfl,rfl,rfl,rfl,rfl⟩

/-- What an effect does on the board. -/
def Effect.onBoard (b : Board (Node ι ς) κ) : Effect ι κ ς δ → Board (Node ι ς) κ
  | enqueue _ q i => b.add q (.item i) (b.pending q++[.item i])
  | dequeue q i => b.remove q (.item i)
  | insertFlusher c q i => b.add q (.flusher c)
      (if .item i ∈ b.pending q then insertAfter (.item i) (.flusher c) (b.pending q)
        else .flusher c::b.pending q)
  | take q _ => b.take q
  | finish q _ => b.finish q
  | _ => b

lemma planted_perm {c : ς} (l : List (Node ι ς)) :
    (if .item i ∈ l then insertAfter (.item i) (.flusher c) l else .flusher c::l).Perm (.flusher c::l) := by
  split
  · next hmem => exact insertAfter_perm hmem
  · exact .rfl

/-- The effects refine the operations of the board. -/
theorem Good.apply (h : Good delayable s b) {e : Effect ι κ ς δ} (he : e.Allowed delayable s) :
    Good delayable (e.apply s) (e.onBoard b) := by
  cases e with
  | enqueue caller q i =>
    obtain ⟨hcancel,hqueued,hrun,hstart,-⟩ := he
    rw [enqueue_eq]
    exact (h.append hcancel hqueued hrun hstart).notify q
  | dequeue q i => exact h.unlink he.2.2
  | startCancel i => exact h.startCancel he.1 he.2
  | register c i => exact h.register he.2 i
  | insertFlusher c q i =>
    obtain ⟨hi,hq,hc⟩ := he
    rw [insertFlusher_eq,h.pending]
    exact (h.plant hc (planted_perm _) (h.start_of_queue hq hi)).notify q
  | take q n =>
    obtain ⟨hstart,hthread,rest,hpending⟩ := he
    rw [take_eq hpending]
    exact h.begin hstart hthread hpending
  | finish q n =>
    cases n with
    | item i =>
      have hflush := (h.item i).flushing
      rw [finish_item_eq hflush]
      split
      · refine Good.wakeCanceller (h.conclude he ?_) i
        exact ⟨rfl,rfl,rfl,rfl,hflush⟩
      · next hcancel =>
        refine h.conclude he ?_
        exact ⟨rfl,by simpa using hcancel,rfl,rfl,hflush⟩
    | flusher c =>
      have hactive := (h.active q _).mp he
      obtain ⟨-,-,hflush,hcancel⟩ := (h.sync c).held q (.inr hactive)
      rw [finish_flusher_eq hflush hcancel]
      refine Good.release (h.conclude he ?_) (fun _ _ => id) (fun q' => ⟨?_,?_⟩)
        (List.Sublist.refl _) fun i hi => ((h.sync c).registered i hi).2.2 q |>.2 hactive
      · exact ⟨rfl,hcancel,rfl,rfl,rfl⟩
      · exact (h.sync c).apart q q' hactive
      · exact fun hq' => ((finish_active h he _ _).mp hq').2 rfl
  | idle q =>
    obtain ⟨hstart,hthread,hpending⟩ := he
    simp only [Effect.apply,takeStep,hpending]
    split <;> exact h.setQueue q _ hpending.symm (by simp [hthread]) (by simp [hstart])
  | drain d q plug =>
    have hstart : (s.queues q).started = true := he
    have hdrain : Good delayable
        (s.setQueue q {s.queues q with drain := true, plugged := (s.queues q).plugged || plug}) b :=
      h.setQueue q _ rfl (fun _ => .rfl) fun hs => absurd hs (by simp [hstart])
    refine (hdrain.notify q).setQueue q _ ?_ ?_ ?_
    · rfl
    · exact fun _ => .rfl
    · exact fun hs => ⟨hs,rfl,rfl⟩
  | unplug q => exact h.setQueue q _ rfl (fun _ => .rfl) fun hs => ⟨hs,rfl,rfl⟩
  | start q =>
    obtain ⟨hp,ha,-⟩ := h.unstarted q he
    refine h.setQueue q _ ?_ (fun n => ?_) (by simp)
    · rw [h.pending,hp]
    · simp [h.active,ha]
  | resume c =>
    obtain ⟨habsent,hunregistered⟩ := h.absent (.inr he.2)
    exact h.release (fun c' hc' hb => (mem_erase_of_ne hc').mpr hb) habsent
      (List.Sublist.refl _) hunregistered
  | delay i queue n => exact h.setDelayed i true fun _ => he.1
  | undelay i => exact h.setDelayed i false (by simp)
  | announce i =>
    exact h.frame (fun i => ⟨_,rfl,(h.item i).delayed⟩) (fun _ => rfl) rfl (fun _ => rfl)
      (fun _ _ => .rfl) (fun _ hs => ⟨hs,rfl,rfl⟩) rfl rfl rfl
  | expire i => exact h.setDelayed i false (by simp)
  | tick =>
    exact h.frame (fun i => ⟨_,rfl,(h.item i).delayed⟩) (fun _ => rfl) rfl (fun _ => rfl)
      (fun _ _ => .rfl) (fun _ hs => ⟨hs,rfl,rfl⟩) rfl rfl rfl

end Effects
end ArmFirmware.Zephyr.Work
