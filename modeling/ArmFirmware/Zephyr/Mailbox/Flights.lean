import ArmFirmware.Zephyr.Mailbox.Model

/-! The invariant of a mailbox. A record of what becomes of each message stands beside the code:
it waits for a receiver, it has been taken into a receiver's descriptor, or it has been disposed
of. A sender whose message is taken is in no queue at all until the disposal. -/
namespace ArmFirmware.Zephyr.Mailbox
open Library Function Thread State

/-- What a receiver is to see of a message. -/
structure Parcel (π : Type*) where
  data : Option π
  size : ℕ
  info : Word

/-- What has become of the message of a sender. -/
inductive Flight (τ δ μ π : Type*)
  | none
  | waiting (offer : Offer τ π) (source : τ)
  | taken (receiver : τ) (rx : Addr μ δ) (parcel : Parcel π)
  /-- Disposed of, with the number of bytes received. -/
  | disposed (size : ℕ)

abbrev Flights (τ δ μ π : Type*) := Who τ δ → Flight τ δ μ π

section Runs
variable {τ δ μ π : Type*}

section Next
variable [DecidableEq τ] [DecidableEq δ] [DecidableEq μ]

/-- The receiver disposes of the message in a descriptor. -/
def Flights.settle (g : Flights τ δ μ π) (b : Addr μ δ) (buffer : Bool) : Flights τ δ μ π := fun w =>
  match g w with
  | .taken r b' p => if b' = b then .disposed (if buffer then p.size else 0) else .taken r b' p
  | f => f

def Flights.next (g : Flights τ δ μ π) (s _ : State τ δ μ π) :
    Action τ μ π → Reply τ δ μ → Flights τ δ μ π
  | .put t _ offer _,.matched _ r b =>
    update g (.real t) (.taken r b ⟨offer.data,min offer.size (s.msgs b).size,offer.info⟩)
  | .put t _ offer _,.done => update g (.real t) (.waiting offer t)
  | .asyncPut _ offer _,.matched w r b =>
    update g w (.taken r b ⟨offer.data,min offer.size (s.msgs b).size,offer.info⟩)
  | .asyncPut t offer _,_ =>
    match s.asyncMsgFree with
    | [] => g
    | d::_ => update g (.dummy d) (.waiting offer t)
  | .get t m request _ _,.matched w _ _ =>
    match g w with
    | .waiting offer _ =>
      update g w (.taken t (.user m) ⟨offer.data,min offer.size request.size,offer.info⟩)
    | _ => g
  | .wake t,.returned _ _ => update g (.real t) .none
  | .check t,_ =>
    match s.call t with
    | .got m buffer =>
      if buffer = true ∨ (s.msgs (.user m)).size = 0 then g.settle (.user m) buffer else g
    | _ => g
  | .dataGet _ m buffer,_ => g.settle (.user m) buffer
  | .fire t,_ => if (s.thread t).pendedOn = some .tx then update g (.real t) .none else g
  | _,_ => g

end Next

/-- The message of the sender is taken and not disposed of. -/
def Flights.Taken (g : Flights τ δ μ π) (t : τ) : Prop :=
  match g (.real t) with
  | .taken _ _ _ => True
  | _ => False

instance (g : Flights τ δ μ π) (t : τ) : Decidable (g.Taken t) := by
  unfold Flights.Taken
  split <;> infer_instance

/-- A sender whose message is taken and that does not count as pending is left alone: no timeout
of it is handled, `k_thread_priority_set` hits it only on SMP or while it is suspended, and
`k_thread_resume` only while it is not. -/
def Careful (smp : Bool) (x : State τ δ μ π × Flights τ δ μ π) : Action τ μ π → Prop
  | .fire t => x.2.Taken t → (x.1.thread t).pending = true
  | .prioSet t _ => x.2.Taken t →
    (x.1.thread t).pending = true ∨ smp = true ∨ (x.1.thread t).suspended = true
  | .resume t => x.2.Taken t → (x.1.thread t).pending = true ∨ (x.1.thread t).suspended = false
  | _ => True

instance (smp : Bool) (x : State τ δ μ π × Flights τ δ μ π) (a : Action τ μ π) : Decidable (Careful smp x a) := by
  unfold Careful
  split <;> infer_instance

/-- What the call of a thread says of its queue, its descriptor and its flight. -/
def ThreadOk (s : State τ δ μ π) (g : Flights τ δ μ π) (t : τ) : Prop :=
  ((s.thread t).pendedOn ≠ none →
    (s.thread t).pending = true ∧ (s.thread t).queued = false ∧ (s.thread t).swapRetval ≠ 0) ∧
  match s.call t with
  | .none => g (.real t) = .none ∧ (s.thread t).pendedOn = none
  | .put m => s.swapData (.real t) = some (.user m) ∧ s.use m = .busy t ∧
    match g (.real t) with
    | .none => (s.thread t).pendedOn = none ∧ (s.thread t).swapRetval ≠ 0
    | .waiting offer source => source = t ∧ (s.thread t).pendedOn = some .tx ∧
      s.msgs (.user m) = offer.msg t (.real t) none
    | .taken _ b _ => (s.thread t).pendedOn = none ∧ (s.thread t).queued = false ∧ b ≠ .user m
    | .disposed n => (s.thread t).pendedOn = none ∧ (s.thread t).swapRetval = 0 ∧
      (s.msgs (.user m)).size = n
  | .get m _ => s.use m = .busy t ∧ g (.real t) = .none ∧ (s.thread t).pendedOn ≠ some .tx ∧
    ((s.thread t).pendedOn = some .rx → s.swapData (.real t) = some (.user m) ∧
      (s.msgs (.user m)).txTargetThread = some t) ∧
    ((s.thread t).pendedOn = none → (s.thread t).swapRetval = 0 → ∃ w p, g w = .taken t (.user m) p)
  | .got m _ => s.use m = .busy t ∧ g (.real t) = .none ∧ (s.thread t).pendedOn = none ∧
    ∃ w p, g w = .taken t (.user m) p

/-- The same for the dummy thread of an asynchronous message. -/
def DummyOk (s : State τ δ μ π) (g : Flights τ δ μ π) (d : δ) : Prop :=
  match g (.dummy d) with
  | .waiting offer source => .dummy d ∈ s.txQueue ∧ s.swapData (.dummy d) = some (.async d) ∧
    d ∉ s.asyncMsgFree ∧ ∃ sem, s.msgs (.async d) = offer.msg source (.dummy d) sem
  | .taken _ _ _ => .dummy d ∉ s.txQueue ∧ s.swapData (.dummy d) = some (.async d) ∧ d ∉ s.asyncMsgFree
  | _ => .dummy d ∉ s.txQueue

/-- The receiver has a message in its descriptor, or will find it there when it runs. -/
def Holds (s : State τ δ μ π) (r : τ) (m : μ) : Prop :=
  s.use m = .held ∨ (∃ buffer, s.call r = .got m buffer) ∨
    ((∃ buffer, s.call r = .get m buffer) ∧ (s.thread r).pendedOn = none ∧ (s.thread r).swapRetval = 0)

/-- The descriptor of the receiver has what was taken. -/
def FlightOk (s : State τ δ μ π) (w : Who τ δ) (r : τ) (b : Addr μ δ) (p : Parcel π) : Prop :=
  (s.msgs b).syncingThread = some w ∧ (s.msgs b).txData = p.data ∧ (s.msgs b).size = p.size ∧
  ∃ m, b = .user m ∧ Holds s r m

/-- The queues have the pended threads, and every message is where its flight says. -/
structure Good (s : State τ δ μ π) (g : Flights τ δ μ π) : Prop where
  txNodup : s.txQueue.Nodup
  rxNodup : s.rxQueue.Nodup
  freeNodup : s.asyncMsgFree.Nodup
  tx : ∀ t, .real t ∈ s.txQueue ↔ (s.thread t).pendedOn = some .tx
  rx : ∀ t, t ∈ s.rxQueue ↔ (s.thread t).pendedOn = some .rx
  thread : ∀ t, ThreadOk s g t
  dummy : ∀ d, DummyOk s g d
  flight : ∀ w r b p, g w = .taken r b p → FlightOk s w r b p
  held : ∀ m w, s.use m = .held → (s.msgs (.user m)).syncingThread = some w →
    ∃ r p, g w = .taken r (.user m) p

namespace Thread

@[simp] lemma ready_pendedOn (th : Thread) : th.ready.pendedOn = th.pendedOn := by
  unfold ready; split <;> rfl

@[simp] lemma ready_pending (th : Thread) : th.ready.pending = th.pending := by
  unfold ready; split <;> rfl

@[simp] lemma ready_swapRetval (th : Thread) : th.ready.swapRetval = th.swapRetval := by
  unfold ready; split <;> rfl

/-- A thread that could be dequeued is where it was. -/
lemma prioSet_same {smp : Bool} {th th' : Thread} (h : th.prioSet smp = some th') : th' = th := by
  obtain ⟨_,_,queued,_,_,_⟩ := th
  cases queued <;> simp_all [prioSet,dequeue]

lemma ready_queued {th : Thread} (hq : th.queued = false) (hp : th.isReady = false) : th.ready.queued = false := by
  simp [ready,hq,hp]

end Thread

section Frame
variable {s s' : State τ δ μ π} {g g' : Flights τ δ μ π} {t : τ}

/-- A thread that a step does not touch. -/
lemma ThreadOk.frame (h : ThreadOk s g t) (hthread : s'.thread t = s.thread t) (hcall : s'.call t = s.call t)
    (hswap : s'.swapData (.real t) = s.swapData (.real t)) (hflight : g' (.real t) = g (.real t))
    (hown : ∀ m, s.use m = .busy t → s'.use m = .busy t ∧ s'.msgs (.user m) = s.msgs (.user m))
    (htaken : ∀ m w p, s.use m = .busy t → g w = .taken t (.user m) p → ∃ w' p', g' w' = .taken t (.user m) p') :
    ThreadOk s' g' t := by
  obtain ⟨hpended,h⟩ := h
  refine ⟨by rw [hthread]; exact hpended,?_⟩
  rw [hcall]
  cases hc : s.call t with
  | none =>
    simp only [hc] at h
    simpa only [hflight,hthread] using h
  | put m =>
    simp only [hc] at h
    refine ⟨hswap.trans h.1,(hown m h.2.1).1,?_⟩
    rw [hflight,hthread,(hown m h.2.1).2]
    exact h.2.2
  | get m buffer =>
    simp only [hc] at h
    obtain ⟨huse,hg,hne,hrx,hgot⟩ := h
    simp only [hflight,hthread,hswap,hown m huse]
    refine ⟨trivial,hg,hne,hrx,fun hp hr => ?_⟩
    obtain ⟨w,p,hw⟩ := hgot hp hr
    exact htaken m w p huse hw
  | got m buffer =>
    simp only [hc] at h
    obtain ⟨huse,hg,hp,w,p,hw⟩ := h
    simp only [hflight,hthread,hown m huse]
    exact ⟨trivial,hg,hp,htaken m w p huse hw⟩

/-- Only scheduling flags of a thread change. -/
lemma ThreadOk.sched (h : ThreadOk s g t) (hcall : s'.call t = s.call t) (hswap : s'.swapData = s.swapData)
    (huse : s'.use = s.use) (hmsgs : s'.msgs = s.msgs) (hpendedOn : (s'.thread t).pendedOn = (s.thread t).pendedOn)
    (hpending : (s'.thread t).pending = (s.thread t).pending)
    (hret : (s'.thread t).swapRetval = (s.thread t).swapRetval)
    (hqueued : (s.thread t).queued = false → (s.thread t).pending = true ∨ g.Taken t →
      (s'.thread t).queued = false) :
    ThreadOk s' g t := by
  obtain ⟨hpended,h⟩ := h
  refine ⟨fun hne => ?_,?_⟩
  · obtain ⟨hp,hq,hr⟩ := hpended (hpendedOn ▸ hne)
    exact ⟨hpending.trans hp,hqueued hq (.inl hp),hret ▸ hr⟩
  · rw [hcall]
    cases hc : s.call t with
    | put m =>
      simp only [hc] at h
      simp only [hswap,huse,hmsgs,hpendedOn,hret]
      refine ⟨h.1,h.2.1,?_⟩
      have h := h.2.2
      cases hg : g (.real t) with
      | taken r b p =>
        simp only [hg] at h
        exact ⟨h.1,hqueued h.2.1 (.inr (by simp [Flights.Taken,hg])),h.2.2⟩
      | none => simpa only [hg] using h
      | waiting offer source => simpa only [hg] using h
      | disposed n => simpa only [hg] using h
    | none => simpa only [hc,hpendedOn] using h
    | get m buffer => simpa only [hc,hswap,huse,hmsgs,hpendedOn,hret] using h
    | got m buffer => simpa only [hc,huse,hpendedOn] using h

lemma FlightOk.frame {w : Who τ δ} {r : τ} {b : Addr μ δ} {p : Parcel π} (h : FlightOk s w r b p)
    (hmsg : s'.msgs b = s.msgs b) (hholds : ∀ m, b = .user m → Holds s r m → Holds s' r m) :
    FlightOk s' w r b p := by
  obtain ⟨hsync,hdata,hsize,m,rfl,hold⟩ := h
  exact ⟨hmsg ▸ hsync,hmsg ▸ hdata,hmsg ▸ hsize,m,rfl,hholds m rfl hold⟩

lemma Holds.frame {r : τ} {m : μ} (h : Holds s r m) (hheld : s.use m = .held → s'.use m = .held)
    (hcall : s'.call r = s.call r)
    (hget : ∀ m buffer, s.call r = .get m buffer → (s.thread r).pendedOn = none → (s.thread r).swapRetval = 0 →
      (s'.thread r).pendedOn = none ∧ (s'.thread r).swapRetval = 0) : Holds s' r m := by
  rw [Holds,hcall]
  refine h.imp hheld (Or.imp_right ?_)
  rintro ⟨⟨buffer,hc⟩,hp,hr⟩
  exact ⟨⟨buffer,hc⟩,hget m buffer hc hp hr⟩

end Frame

namespace Good
variable {smp : Bool} {memory : π → ℕ → Byte} {s : State τ δ μ π} {g : Flights τ δ μ π} {t : τ}

section
variable (h : Good s g)
include h

lemma waiting (htx : (s.thread t).pendedOn = some .tx) :
    ∃ m offer, s.call t = .put m ∧ g (.real t) = .waiting offer t ∧ s.swapData (.real t) = some (.user m) ∧
      s.use m = .busy t ∧ s.msgs (.user m) = offer.msg t (.real t) none := by
  obtain ⟨-,ht⟩ := h.thread t
  cases hc : s.call t with
  | none => simp [hc,htx] at ht
  | get m buffer => simp [hc,htx] at ht
  | got m buffer => simp [hc,htx] at ht
  | put m =>
    simp only [hc] at ht
    obtain ⟨hswap,huse,ht⟩ := ht
    cases hg : g (.real t) with
    | none => simp [hg,htx] at ht
    | taken r b p => simp [hg,htx] at ht
    | disposed n => simp [hg,htx] at ht
    | waiting offer source =>
      simp only [hg] at ht
      obtain ⟨rfl,-,hmsg⟩ := ht
      exact ⟨m,offer,rfl,rfl,hswap,huse,hmsg⟩

lemma receiving (hrx : (s.thread t).pendedOn = some .rx) :
    ∃ m buffer, s.call t = .get m buffer ∧ g (.real t) = .none ∧ s.swapData (.real t) = some (.user m) ∧
      s.use m = .busy t ∧ (s.msgs (.user m)).txTargetThread = some t := by
  obtain ⟨-,ht⟩ := h.thread t
  cases hc : s.call t with
  | none => simp [hc,hrx] at ht
  | got m buffer => simp [hc,hrx] at ht
  | put m =>
    simp only [hc] at ht
    cases hg : g (.real t) <;> simp [hg,hrx] at ht
  | get m buffer =>
    simp only [hc] at ht
    exact ⟨m,buffer,rfl,ht.2.1,(ht.2.2.2.1 hrx).1,ht.1,(ht.2.2.2.1 hrx).2⟩

variable [DecidableEq τ]

lemma setThread {f : Thread → Thread} (hpendedOn : (f (s.thread t)).pendedOn = (s.thread t).pendedOn)
    (hpending : (f (s.thread t)).pending = (s.thread t).pending)
    (hret : (f (s.thread t)).swapRetval = (s.thread t).swapRetval)
    (hqueued : (s.thread t).queued = false → (s.thread t).pending = true ∨ g.Taken t →
      (f (s.thread t)).queued = false) :
    Good (s.setThread t f) g := by
  have hother : ∀ u, u ≠ t → (s.setThread t f).thread u = s.thread u := fun u hu => update_of_ne hu ..
  have hself : (s.setThread t f).thread t = f (s.thread t) := update_self ..
  have hpend : ∀ u, ((s.setThread t f).thread u).pendedOn = (s.thread u).pendedOn := by
    intro u
    by_cases hu : u = t
    · rw [hu,hself,hpendedOn]
    · rw [hother u hu]
  have hretval : ∀ u, ((s.setThread t f).thread u).swapRetval = (s.thread u).swapRetval := by
    intro u
    by_cases hu : u = t
    · rw [hu,hself,hret]
    · rw [hother u hu]
  refine ⟨h.txNodup,h.rxNodup,h.freeNodup,fun u => ?_,fun u => ?_,fun u => ?_,h.dummy,fun w r b p hw => ?_,h.held⟩
  · rw [hpend]; exact h.tx u
  · rw [hpend]; exact h.rx u
  · by_cases hu : u = t
    · subst hu
      exact (h.thread u).sched rfl rfl rfl rfl (hpend u) (hself ▸ hpending) (hretval u) (hself ▸ hqueued)
    · exact (h.thread u).frame (hother u hu) rfl rfl rfl (fun m hm => ⟨hm,rfl⟩) fun m w p _ hw => ⟨w,p,hw⟩
  · refine (h.flight w r b p hw).frame rfl fun m _ hm => hm.frame id rfl fun _ _ _ hp hr => ?_
    exact ⟨(hpend r).trans hp,(hretval r).trans hr⟩

lemma suspend (t : τ) : Good (s.setThread t suspend) g := by
  refine h.setThread ?_ ?_ ?_ fun hq _ => ?_
  · unfold Thread.suspend; split <;> rfl
  · unfold Thread.suspend; split <;> rfl
  · unfold Thread.suspend; split <;> rfl
  · unfold Thread.suspend; split
    · exact hq
    · rfl

lemma resume (hcare : Careful smp (s,g) (.resume t)) : Good (s.setThread t resume) g := by
  refine h.setThread ?_ ?_ ?_ fun hq hor => ?_
  · unfold Thread.resume; split <;> simp
  · unfold Thread.resume; split <;> simp
  · unfold Thread.resume; split <;> simp
  · unfold Thread.resume; split
    · rename_i hsuspended
      refine ready_queued hq ?_
      simp only [Careful] at hcare
      rcases hor with hp | htaken
      · simp [isReady,hp]
      · rcases hcare htaken with hp | hp
        · simp [isReady,hp]
        · simp [hp] at hsuspended
    · exact hq

lemma announce (t : τ) :
    Good { s.setThread t fun th => { th with linked := false } with firing := t::s.firing } g := by
  have h' : Good (s.setThread t fun th => { th with linked := false }) g := h.setThread rfl rfl rfl fun hq _ => hq
  exact { h' with }

variable [DecidableEq δ]

lemma prioSet (prio : ℤ) {th : Thread} (hth : (s.thread t).prioSet smp = some th) :
    Good { s.setThread t (fun _ => th) with prio := update s.prio (.real t) prio } g := by
  have hsame := prioSet_same hth
  have h' : Good (s.setThread t fun _ => th) g :=
    h.setThread (by rw [hsame]) (by rw [hsame]) (by rw [hsame]) fun hq _ => by rwa [hsame]
  exact { h' with }

end

variable [DecidableEq τ] [DecidableEq δ]

section Leave
variable {f : Thread → Thread}

lemma mem_leaveQueue_tx (h : Good s g) {w : Who τ δ} :
    w ∈ (s.leaveQueue t).txQueue ↔ w ∈ s.txQueue ∧ w ≠ .real t := by
  simp only [leaveQueue]
  split_ifs with htx
  · rw [h.txNodup.mem_erase_iff,and_comm]
  · refine ⟨fun hw => ⟨hw,?_⟩,And.left⟩
    rintro rfl
    exact htx ((h.tx t).mp hw)

lemma mem_leaveQueue_rx (h : Good s g) {u : τ} : u ∈ (s.leaveQueue t).rxQueue ↔ u ∈ s.rxQueue ∧ u ≠ t := by
  simp only [leaveQueue]
  split_ifs with hrx
  · rw [h.rxNodup.mem_erase_iff,and_comm]
  · refine ⟨fun hu => ⟨hu,?_⟩,And.left⟩
    rintro rfl
    exact hrx ((h.rx u).mp hu)

lemma leaveQueue_txNodup (h : Good s g) : (s.leaveQueue t).txQueue.Nodup := by
  simp only [leaveQueue]
  split_ifs
  · exact h.txNodup.erase _
  · exact h.txNodup

lemma leaveQueue_rxNodup (h : Good s g) : (s.leaveQueue t).rxQueue.Nodup := by
  simp only [leaveQueue]
  split_ifs
  · exact h.rxNodup.erase _
  · exact h.rxNodup

lemma leave_tx (h : Good s g) (hf : (f (s.thread t)).pendedOn = none) (u : τ) : .real u ∈ (s.leaveQueue t).txQueue ↔
      (update s.thread t (f (s.thread t)) u).pendedOn = some .tx := by
  rw [h.mem_leaveQueue_tx,h.tx,update_apply]
  split_ifs with hu
  · simp [hu,hf]
  · simp [hu]

lemma leave_rx (h : Good s g) (hf : (f (s.thread t)).pendedOn = none) (u : τ) : u ∈ (s.leaveQueue t).rxQueue ↔
      (update s.thread t (f (s.thread t)) u).pendedOn = some .rx := by
  rw [h.mem_leaveQueue_rx,h.rx,update_apply]
  split_ifs with hu
  · simp [hu,hf]
  · simp [hu]

end Leave

lemma leaveQueue_eq (hp : (s.thread t).pendedOn = none) : s.leaveQueue t = s := by
  simp [leaveQueue,hp]

/-- A pended thread leaves its queue. -/
lemma leave {f : Thread → Thread} (h : Good s g) (hf : (f (s.thread t)).pendedOn = none)
    (hpended : (s.thread t).pendedOn ≠ none) {g' : Flights τ δ μ π} (hother : ∀ w, w ≠ .real t → g' w = g w)
    (hold : ∀ r b p, g (.real t) ≠ .taken r b p) (hnew : ∀ r b p, g' (.real t) ≠ .taken r b p)
    (ht : ThreadOk ((s.leaveQueue t).setThread t f) g' t) : Good ((s.leaveQueue t).setThread t f) g' := by
  have htaken : ∀ w r b p, g w = .taken r b p → g' w = .taken r b p := by
    intro w r b p hw
    rwa [hother w fun hwt => hold r b p (hwt ▸ hw)]
  refine ⟨h.leaveQueue_txNodup,h.leaveQueue_rxNodup,h.freeNodup,h.leave_tx hf,h.leave_rx hf,fun u => ?_,
    fun d => ?_,fun w r b p hw => ?_,fun m w hm hw => ?_⟩
  · by_cases hu : u = t
    · exact hu ▸ ht
    · exact (h.thread u).frame (update_of_ne hu ..) rfl rfl (hother _ (by simp [hu]))
        (fun m hm => ⟨hm,rfl⟩) fun m w p _ hw => ⟨w,p,htaken w u _ p hw⟩
  · have hmem : .dummy d ∈ ((s.leaveQueue t).setThread t f).txQueue ↔ .dummy d ∈ s.txQueue :=
      h.mem_leaveQueue_tx.trans (by simp)
    have hd := h.dummy d
    simp only [DummyOk,hother (.dummy d) (by simp),hmem]
    exact hd
  · have hne : w ≠ .real t := fun hwt => hnew r b p (hwt ▸ hw)
    refine (h.flight w r b p (hother w hne ▸ hw)).frame rfl fun m _ hm => hm.frame id rfl fun _ _ _ hp hr => ?_
    have hrt : r ≠ t := fun hrt => hpended (hrt ▸ hp)
    simpa [update_of_ne hrt] using ⟨hp,hr⟩
  · obtain ⟨r,p,hr⟩ := h.held m w hm hw
    exact ⟨r,p,htaken w r _ p hr⟩

/-- `z_thread_timeout` runs for a thread. -/
lemma fire (h : Good s g) (hcare : Careful smp (s,g) (.fire t)) (firing : List τ) :
    Good { (s.leaveQueue t).setThread t timeout with firing := firing }
      (if (s.thread t).pendedOn = some .tx then update g (.real t) .none else g) := by
  suffices h' : Good ((s.leaveQueue t).setThread t timeout)
      (if (s.thread t).pendedOn = some .tx then update g (.real t) .none else g) from
    { h' with }
  have hret : (s.thread t).timeout.swapRetval = (s.thread t).swapRetval := by
    simp only [timeout,ready_swapRetval,unpendNoTimeout]
    split_ifs <;> rfl
  have hnone : (s.thread t).timeout.pendedOn = none := by
    simp only [timeout,ready_pendedOn,unpendNoTimeout]
    split_ifs with hp
    · exact hp
    · rfl
  have hself : ((s.leaveQueue t).setThread t timeout).thread t = (s.thread t).timeout := update_self ..
  cases hp : (s.thread t).pendedOn with
  | none =>
    have htimeout : (s.thread t).timeout = ready { s.thread t with suspended := false } := by
      simp [timeout,unpendNoTimeout,hp]
    rw [leaveQueue_eq hp]
    refine h.setThread (hnone.trans hp.symm) ?_ hret fun hq hor => ?_
    · rw [htimeout,ready_pending]
    · have hpending : (s.thread t).pending = true := hor.elim id hcare
      rw [htimeout]
      exact ready_queued hq (by simp [isReady,hpending])
  | some queue =>
    have hne : (s.thread t).pendedOn ≠ none := by simp [hp]
    obtain ⟨-,-,hr⟩ := (h.thread t).1 hne
    cases queue with
    | tx =>
      obtain ⟨m,offer,hc,hg,hswap,huse,hmsg⟩ := h.waiting hp
      refine h.leave hnone hne (fun w hw => by simp [hw]) (by simp [hg]) (by simp) ?_
      refine ⟨fun hne' => absurd (hself ▸ hnone) hne',?_⟩
      simp [hc,hswap,huse,hnone,hret,hr]
    | rx =>
      obtain ⟨m,buffer,hc,hg,hswap,huse,-⟩ := h.receiving hp
      refine h.leave hnone hne (fun w hw => by simp) (by simp [hg]) (by simp [hg]) ?_
      refine ⟨fun hne' => absurd (hself ▸ hnone) hne',?_⟩
      simp [hc,hg,huse,hnone,hret,hr]

end Good
end Runs
end ArmFirmware.Zephyr.Mailbox
