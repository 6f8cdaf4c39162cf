import ArmFirmware.Zephyr.Mailbox.Transfer

/-! Whole runs of a mailbox: the calls keep the invariant, messages are exchanged as they should be,
and a sender whose message is taken does not run before the disposal. -/
namespace ArmFirmware.Zephyr.Mailbox
open Library List Function Option State Flights Reply

attribute [local simp] handOver setCall setThread Offer.msg setMsg Flights.next Request.msg

section Runs
variable {τ δ μ π : Type*} [DecidableEq τ] [DecidableEq δ] [DecidableEq μ]

section Search
variable {s : State τ δ μ π} {tx rx tx' rx' : Msg τ δ π}

omit [DecidableEq δ] in
lemma mboxMessageMatch_eq_some : mboxMessageMatch tx rx = some (tx',rx') ↔
    ((tx.txTargetThread = none ∨ tx.txTargetThread = rx.txTargetThread) ∧
      (rx.rxSourceThread = none ∨ rx.rxSourceThread = tx.rxSourceThread)) ∧
    tx' = { tx with txTargetThread := rx.txTargetThread, info := rx.info } ∧
    rx' = { rx with
      rxSourceThread := tx.rxSourceThread, info := tx.info, size := min tx.size rx.size, txData := tx.txData,
      syncingThread := tx.syncingThread } := by
  have hmin : (if rx.size > tx.size then tx.size else rx.size) = min tx.size rx.size := by
    split_ifs <;> omega
  unfold mboxMessageMatch
  rw [hmin]
  split_ifs with h
  · rw [some.injEq,Prod.mk.injEq]
    exact ⟨fun heq => ⟨h,heq.1.symm,heq.2.symm⟩,fun heq => ⟨heq.2.1.symm,heq.2.2.symm⟩⟩
  · simp [h]

omit [DecidableEq δ] [DecidableEq μ] in
lemma findReceiver_eq_some {r : τ} {b : Addr μ δ} (h : s.findReceiver tx = some (r,b,tx',rx')) :
    r ∈ s.rxQueue ∧ s.swapData (.real r) = some b ∧ mboxMessageMatch tx (s.msgs b) = some (tx',rx') := by
  obtain ⟨r',hr',heq⟩ := exists_of_findSome?_eq_some h
  obtain ⟨b',hb',heq⟩ := bind_eq_some_iff.mp heq
  obtain ⟨p,hp,heq⟩ := map_eq_some_iff.mp heq
  obtain ⟨rfl,rfl,rfl,rfl⟩ := heq
  exact ⟨hr',hb',hp⟩

omit [DecidableEq δ] [DecidableEq μ] in
lemma findSender_eq_some {w : Who τ δ} {a : Addr μ δ} (h : s.findSender rx = some (w,a,tx',rx')) :
    w ∈ s.txQueue ∧ s.swapData w = some a ∧ mboxMessageMatch (s.msgs a) rx = some (tx',rx') := by
  obtain ⟨w',hw',heq⟩ := exists_of_findSome?_eq_some h
  obtain ⟨a',ha',heq⟩ := bind_eq_some_iff.mp heq
  obtain ⟨p,hp,heq⟩ := map_eq_some_iff.mp heq
  obtain ⟨rfl,rfl,rfl,rfl⟩ := heq
  exact ⟨hw',ha',hp⟩

/-- A thread that waits for the receiver it has found may as well wait before it hands its message
over. -/
lemma handOver_comm {a b : Addr μ δ} {r t : τ} (hne : t ≠ r) (f : Thread → Thread) (c : Call μ) (m : μ) (u : Use τ) :
    ((s.handOver a r b tx rx).setThread t f).setCall t c m u =
      (((s.setCall t .none m .free).setThread t f).setCall t c m u).handOver a r b tx rx := by
  simp [leaveQueue,update_of_ne hne,update_of_ne (Ne.symm hne),update_comm hne]
  exact ⟨rfl,rfl⟩

omit [DecidableEq δ] in
lemma pendSender_setCall {t : τ} (w : Who τ δ) (f : Thread → Thread) (c : Call μ) (m : μ) (u : Use τ) :
    (((s.setCall t .none m .free).pendSender w).setThread t f).setCall t c m u =
      ((s.pendSender w).setThread t f).setCall t c m u := by
  simp [pendSender]
  rfl

omit [DecidableEq δ] in
lemma pendReceiver_setCall {t : τ} (swapData : Who τ δ → Option (Addr μ δ)) (f : Thread → Thread) (c : Call μ)
    (m : μ) (u : Use τ) :
    (({ s.setCall t .none m .free with swapData := swapData }.pendReceiver t).setThread t f).setCall t c m u =
      (({ s with swapData := swapData }.pendReceiver t).setThread t f).setCall t c m u := by
  simp [pendReceiver]
  rfl

end Search

namespace Good
variable {smp : Bool} {memory : π → ℕ → Byte} {s s' : State τ δ μ π} {g : Flights τ δ μ π} {t : τ} {m : μ}
  {offer : Offer τ π} {sem : Option ℕ} {request : Request τ} {buffer : Bool} {timeout : Timeout} {r : Reply τ δ μ}

omit [DecidableEq τ] [DecidableEq δ] [DecidableEq μ] in
lemma running_call (hrun : s.Running t) : s.call t = .none := by
  have := hrun.1
  cases hc : s.call t <;> simp [hc] at this
  rfl

section
variable (h : Good s g)
include h

/-- `k_mbox_put` finds a receiver. -/
lemma put_matched (hcall : s.call t = .none) (hm : s.Reusable m) {r : τ} {b : Addr μ δ} {tx rx : Msg τ δ π}
    (hfind : (s.load (.real t) (.user m) (offer.msg t (.real t) none)).findReceiver (offer.msg t (.real t) none) =
      some (r,b,tx,rx)) :
    Good ((((s.load (.real t) (.user m) (offer.msg t (.real t) none)).handOver (.user m) r b tx rx).setThread t
        fun th => th.pend none false).setCall t (.put m) m (.busy t))
      (update g (.real t) (.taken r b ⟨offer.data,min offer.size (s.msgs b).size,offer.info⟩)) := by
  obtain ⟨hr,hb,hmatch⟩ := findReceiver_eq_some hfind
  have ht := (h.thread t).2
  simp only [hcall] at ht
  have hrx := (h.rx r).mp hr
  have hne : t ≠ r := by rintro rfl; simp [ht.2] at hrx
  obtain ⟨m₀,buffer,hc,hg,hswap,huse,-⟩ := h.receiving hrx
  obtain rfl : b = .user m₀ := by simpa [hswap,Ne.symm hne] using hb.symm
  have hmm : m₀ ≠ m := by
    rintro rfl
    rcases hm with hm | ⟨hm,-⟩ <;> simp [huse] at hm
  obtain ⟨-,-,hrx'⟩ := mboxMessageMatch_eq_some.mp hmatch
  have hfill : Good ((s.load (.real t) (.user m) (offer.msg t (.real t) none)).setCall t .none m .free) g :=
    h.fill hcall hm _ fun w hw => update_of_ne hw ..
  have hwait := hfill.pendUnqueued (t := t) (m := m) (by simp) (by simp) (by simp)
  rw [handOver_comm hne]
  refine hwait.handOver ?_ ?_ (by simpa using hne)
    ⟨fun u m' hu hm' => ?_,fun m' hm' => ?_,by simp,fun w' r' b p' hw' => ⟨?_,?_⟩⟩ ?_ ?_ ?_ ?_ (by simp)
  · simpa [Ne.symm hne] using hrx
  · simpa [Ne.symm hne] using hswap
  · rintro ⟨rfl⟩
    simp at hm'
    exact hu (by rw [hm'])
  · rintro ⟨rfl⟩
    simp at hm'
  · rintro rfl; simp [ht.1] at hw'
  · rintro rfl; exact h.unheld hm _ _ _ hw'
  · rw [hrx']; rfl
  · rw [hrx']; rfl
  · rw [hrx']; simp [hmm]
  · rintro u ⟨rfl⟩
    refine ⟨?_,?_⟩
    · simp [Thread.pend,hne]
    · simp [Thread.pend,hne,hmm]

lemma put (hstep : step smp memory s (.put t m offer timeout) = some (s',r)) :
    Good s' (next g s s' (.put t m offer timeout) r) := by
  obtain ⟨⟨hrun,hm⟩,hstep⟩ := ite_none_right_eq_some.mp hstep
  have hcall := running_call hrun
  have hfill : Good ((s.load (.real t) (.user m) (offer.msg t (.real t) none)).setCall t .none m .free) g :=
    h.fill hcall hm _ fun w hw => update_of_ne hw ..
  set s₁ := s.load (.real t) (.user m) (offer.msg t (.real t) none) with hs₁
  cases hfind : s₁.findReceiver (offer.msg t (.real t) none) with
  | none =>
    simp only [hfind] at hstep
    split_ifs at hstep with hwait
    · cases hstep
      exact hfill
    · cases hstep
      have hmsg : (s₁.setCall t .none m .free).msgs (.user m) = offer.msg t (.real t) none := by simp [hs₁]
      have := hfill.pendSender (by simp) (by simp) (by simp [hs₁]) hmsg (timeout = .after)
      rw [pendSender_setCall] at this
      exact this
  | some found =>
    simp only [hfind] at hstep
    cases hstep
    exact h.put_matched hcall hm hfind

/-- A descriptor for an asynchronous message is taken from the stack. -/
lemma allocate {d : δ} {rest : List δ} (hfree : s.asyncMsgFree = d::rest) (tx : Msg τ δ π) (prio : Who τ δ → ℤ) :
    Good ({ s with asyncMsgFree := rest, prio := prio }.load (.dummy d) (.async d) tx) g ∧
      .dummy d ∉ s.txQueue ∧ d ∉ rest ∧ ∀ r b p, g (.dummy d) ≠ .taken r b p := by
  have hmem := hfree ▸ mem_cons_self ..
  have hnodup := hfree ▸ h.freeNodup
  have hd := h.dummy d
  have hidle :
    .dummy d ∉ s.txQueue ∧ (∀ r b p, g (.dummy d) ≠ .taken r b p) ∧ ∀ o u, g (.dummy d) ≠ .waiting o u := by
    simp only [DummyOk] at hd
    cases hg : g (.dummy d) <;> simp [hg,hmem] at hd ⊢ <;> exact hd
  refine ⟨⟨h.txNodup,h.rxNodup,hnodup.of_cons,h.tx,h.rx,fun u => ?_,fun d' => ?_,fun w r b p hw => ?_,
    fun m' w hm hw => ?_⟩,
    hidle.1,(nodup_cons.mp hnodup).1,hidle.2.1⟩
  · exact (h.thread u).frame rfl rfl (by simp) rfl (fun m' hm' => ⟨hm',by simp⟩) fun m' w p _ hw => ⟨w,p,hw⟩
  · by_cases hdd : d' = d
    · subst hdd
      simp only [DummyOk]
      cases hg : g (.dummy d') with
      | none => exact hidle.1
      | disposed n => exact hidle.1
      | taken r b p => exact absurd hg (hidle.2.1 r b p)
      | waiting o u => exact absurd hg (hidle.2.2 o u)
    · have hold := h.dummy d'
      simp only [DummyOk,hfree] at hold ⊢
      simpa [hdd] using hold
  · obtain ⟨-,-,-,m',rfl,-⟩ := h.flight w r b p hw
    exact (h.flight w r _ p hw).frame (by simp) fun m' _ hholds => hholds.frame id rfl fun _ _ _ hp hr => ⟨hp,hr⟩
  · exact h.held m' w hm (by simpa using hw)

omit [DecidableEq μ] in
/-- An asynchronous message is queued. -/
lemma pendDummy {d : δ} (hqueue : .dummy d ∉ s.txQueue)
    (hswap : s.swapData (.dummy d) = some (.async d)) (hfree : d ∉ s.asyncMsgFree)
    (hmsg : s.msgs (.async d) = offer.msg t (.dummy d) sem) (htaken : ∀ r b p, g (.dummy d) ≠ .taken r b p) :
    Good (s.pendSender (.dummy d)) (update g (.dummy d) (.waiting offer t)) := by
  have hsame {w r b p} : update g (.dummy d) (.waiting offer t) w = .taken r b p ↔ g w = .taken r b p :=
    update_taken htaken (by simp)
  refine ⟨(WaitQueue.pend_perm ..).nodup_iff.mpr (h.txNodup.cons hqueue),h.rxNodup,h.freeNodup,fun u => ?_,h.rx,
    fun u => ?_,
    fun d' => ?_,fun w r b p hw => ?_,fun m' w hm hw => ?_⟩
  · simpa using h.tx u
  · exact (h.thread u).frame rfl rfl rfl (update_of_ne (by simp) ..) (fun m' hm' => ⟨hm',rfl⟩)
      fun m' w p _ hw => ⟨w,p,hsame.mpr hw⟩
  · by_cases hdd : d' = d
    · subst hdd
      simp only [DummyOk,update_self]
      exact ⟨by simp,hswap,hfree,sem,hmsg⟩
    · have hold := h.dummy d'
      have hne : Who.dummy (τ := τ) d' ≠ .dummy d := by simpa using hdd
      simp only [DummyOk,update_of_ne hne] at hold ⊢
      simpa [hdd] using hold
  · exact (h.flight w r b p (hsame.mp hw)).frame rfl fun m' _ hholds => hholds.frame id rfl fun _ _ _ hp hr =>
      ⟨hp,hr⟩
  · obtain ⟨r,p,hr⟩ := h.held m' w hm hw
    exact ⟨r,p,hsame.mpr hr⟩

lemma asyncPut (hstep : step smp memory s (.asyncPut t offer sem) = some (s',r)) :
    Good s' (next g s s' (.asyncPut t offer sem) r) := by
  simp only [step] at hstep
  split at hstep
  · cases hstep
  rename_i d rest hfree
  split_ifs at hstep with hrun
  obtain ⟨hload,hqueue,hrest,htaken⟩ := h.allocate hfree (offer.msg t (.dummy d) sem)
    (update s.prio (.dummy d) (s.prio (.real t)))
  split at hstep
  · rename_i r' b tx rx hfind
    cases hstep
    obtain ⟨hr,hb,hmatch⟩ := findReceiver_eq_some hfind
    have hrx := (h.rx r').mp hr
    obtain ⟨m,buffer,hc,hg,hswap,huse,-⟩ := h.receiving hrx
    obtain rfl : b = .user m := by simpa [hswap] using hb.symm
    obtain ⟨-,-,hrx'⟩ := mboxMessageMatch_eq_some.mp hmatch
    refine hload.handOver hrx hb (by simp)
      ⟨by simp,by simp,fun d' hd' => ?_,fun w' r b p' hw' => ⟨?_,?_⟩⟩ ?_ ?_ ?_ (by simp) ?_
    · rintro ⟨rfl⟩; exact hd' rfl
    · rintro rfl; exact htaken _ _ _ hw'
    · rintro rfl
      obtain ⟨-,-,-,m',hm',-⟩ := h.flight w' r _ p' hw'
      simp at hm'
    · rw [hrx']; rfl
    · rw [hrx']; rfl
    · rw [hrx']; simp
    · rintro d' ⟨rfl⟩
      simp only [DummyOk,update_self]
      refine ⟨fun hmem => hqueue (hload.mem_leaveQueue_tx.mp hmem).1,?_,hrest⟩
      simp
  · rename_i hfind
    cases hstep
    simp only [Flights.next,hfree]
    exact hload.pendDummy hqueue (by simp) hrest (update_self ..) htaken

/-- `k_mbox_get` finds a sender. -/
lemma get_matched (hcall : s.call t = .none) (hm : s.Reusable m) {w : Who τ δ} {a : Addr μ δ} {tx rx : Msg τ δ π}
    (hfind : (s.setMsg (.user m) (request.msg t (s.msgs (.user m)))).findSender (request.msg t (s.msgs (.user m))) =
      some (w,a,tx,rx)) (hr : r = .matched w t (.user m)) :
    Good (((((s.setMsg (.user m) (request.msg t (s.msgs (.user m)))).setMsg a tx).setMsg
      (.user m) rx).unpendSender w).setCall t (.got m buffer) m (.busy t))
      (next g s s' (.get t m request buffer timeout) r) := by
  obtain ⟨hw,hswap,hmatch⟩ := findSender_eq_some hfind
  obtain ⟨-,-,hrx⟩ := mboxMessageMatch_eq_some.mp hmatch
  have hfill : Good ((s.setMsg (.user m) (request.msg t (s.msgs (.user m)))).setCall t .none m .free) g :=
    h.fill hcall hm _ fun w hw => rfl
  obtain ⟨offer,source,a',sem,hg,hswap',hmsg,-⟩ := hfill.queued_sender hw
  obtain rfl : a = a' := some.inj (hswap.symm.trans hswap')
  have hmsg' : (s.setMsg (.user m) (request.msg t (s.msgs (.user m)))).msgs a = offer.msg source w sem := hmsg
  have htake := hfill.take (t := t)
    (p := ⟨offer.data,min offer.size request.size,offer.info⟩) tx rx buffer (by simp) (by simp) hw hswap
    (h.unheld hm)
    (by rw [hrx,hmsg']; rfl) (by rw [hrx,hmsg']; rfl) (by rw [hrx,hmsg']; rfl)
  have hcomm :
    (((((s.setMsg (.user m) (request.msg t (s.msgs (.user m)))).setCall t .none m .free).setMsg a tx).setMsg
      (.user m) rx).unpendSender w).setCall t (.got m buffer) m (.busy t) =
      ((((s.setMsg (.user m) (request.msg t (s.msgs (.user m)))).setMsg a tx).setMsg
        (.user m) rx).unpendSender w).setCall t (.got m buffer) m (.busy t) := by
    cases w with
    | real u =>
      simp [unpendSender,leaveQueue]
      exact ⟨rfl,rfl⟩
    | dummy d => simp [unpendSender]
  rw [hcomm] at htake
  simpa only [hr,Flights.next,hg] using htake

lemma get (hstep : step smp memory s (.get t m request buffer timeout) = some (s',r)) :
    Good s' (next g s s' (.get t m request buffer timeout) r) := by
  obtain ⟨⟨hrun,hm⟩,hstep⟩ := ite_none_right_eq_some.mp hstep
  have hcall := running_call hrun
  have hfill : Good ((s.setMsg (.user m) (request.msg t (s.msgs (.user m)))).setCall t .none m .free) g :=
    h.fill hcall hm _ fun w hw => rfl
  split at hstep
  · rename_i w a tx rx hfind
    cases hstep
    exact h.get_matched hcall hm hfind rfl
  · split_ifs at hstep with hwait
    · cases hstep
      exact hfill
    · cases hstep
      have hpend := hfill.pendReceiver (t := t) (m := m) (by simp) (by simp) (by simp) buffer (timeout = .after)
      rw [pendReceiver_setCall] at hpend
      exact hpend

/-- Every careful step keeps the invariant. -/
lemma step {a : Action τ μ π} (hcare : Careful smp (s,g) a)
    (hstep : Mailbox.step smp memory s a = some (s',r)) : Good s' (next g s s' a r) := by
  cases a with
  | put t m offer timeout => exact h.put hstep
  | asyncPut t offer sem => exact h.asyncPut hstep
  | get t m request buffer timeout => exact h.get hstep
  | wake t => exact h.wake hstep
  | check t => exact h.check hstep
  | dataGet t m buffer =>
    obtain ⟨⟨-,hheld⟩,hstep⟩ := ite_none_right_eq_some.mp hstep
    cases hstep
    exact h.dataGet hheld buffer
  | announce t =>
    simp only [Mailbox.step] at hstep
    split_ifs at hstep with hok
    cases hstep
    exact h.announce t
  | fire t =>
    simp only [Mailbox.step] at hstep
    split_ifs at hstep with hok
    cases hstep
    exact h.fire hcare _
  | prioSet t prio =>
    obtain ⟨th,hth,heq⟩ := Option.map_eq_some_iff.mp hstep
    cases heq
    exact h.prioSet prio hth
  | suspend t =>
    cases hstep
    exact h.suspend t
  | resume t =>
    cases hstep
    exact h.resume hcare

lemma limbo_wake (htaken : g.Taken t) :
    (s.thread t).queued = false ∧ Mailbox.step smp memory s (.wake t) = none := by
  unfold Flights.Taken at htaken
  split at htaken
  · rename_i r b p hg
    obtain ⟨m,-,-,-,-,-,hq⟩ := h.limbo hg
    exact ⟨hq,by simp [Mailbox.step,hq]⟩
  · exact htaken.elim

end

omit [DecidableEq τ] [DecidableEq δ] [DecidableEq μ] in
lemma init (msgs : Addr μ δ → Msg τ δ π) (prio : Who τ δ → ℤ) {free : List δ} (hfree : free.Nodup) :
    Good (init msgs prio free) fun _ => .none := by
  refine ⟨nodup_nil,nodup_nil,hfree,?_,?_,?_,?_,?_,?_⟩
  · simp [State.init]
  · simp [State.init]
  · simp [State.init,ThreadOk]
  · simp [State.init,DummyOk]
  · simp
  · simp [State.init]

end Good

lemma runs_good (smp : Bool) (memory : π → ℕ → Byte) (msgs : Addr μ δ → Msg τ δ π) (prio : Who τ δ → ℤ)
    {free : List δ} (as : List (Action τ μ π)) (hfree : free.Nodup)
    (hrun : Along (fun x a => (step smp memory x.1 a).isSome ∧ Careful smp x a)
      (recording (step smp memory) next) (init msgs prio free,fun _ => .none) as) :
    ∃ x os, serve? (recording (step smp memory) next) (init msgs prio free,fun _ => .none) as = some (x,os) ∧
      Trace (fun x a r y => Good x.1 x.2 ∧ ((step smp memory x.1 a).isSome ∧ Careful smp x a) ∧
        recording (step smp memory) next x a = some (y,r)) (init msgs prio free,fun _ => .none) as os x := by
  obtain ⟨x,os,hserve,htrace,-⟩ := Trace.of_along (I := fun x => Good x.1 x.2)
    (fun x a hx hok => by
      obtain ⟨⟨s',r⟩,hs⟩ := isSome_iff_exists.mp hok.1
      exact ⟨(s',_),r,recording_eq_some.mpr ⟨hs,rfl⟩,hx.step hok.2 hs⟩)
    (Good.init msgs prio hfree) hrun
  exact ⟨x,os,hserve,htrace⟩

/-- As long as a sender in between is left alone, no sender runs between the receipt of its message
and the disposal, whoever sets its priority, suspends or resumes it. -/
theorem runs_keep_senders_parked (smp : Bool) (memory : π → ℕ → Byte) (msgs : Addr μ δ → Msg τ δ π)
    (prio : Who τ δ → ℤ) (free : List δ) (as : List (Action τ μ π))
    (hrun : Along (fun x a => (step smp memory x.1 a).isSome ∧ Careful smp x a)
      (recording (step smp memory) next) (init msgs prio free,fun _ => .none) as)
    (hfree : free.Nodup) :
    ∃ x os, serve? (recording (step smp memory) next) (init msgs prio free,fun _ => .none) as = some (x,os) ∧
      Trace (fun _ _ _ y => ∀ t, Flights.Taken y.2 t → (y.1.thread t).queued = false ∧
        step smp memory y.1 (.wake t) = none)
        (init msgs prio free,fun _ => .none) as os x := by
  obtain ⟨x,os,hserve,htrace⟩ := runs_good smp memory msgs prio as hfree hrun
  refine ⟨x,os,hserve,htrace.mono ?_⟩
  rintro ⟨s,g⟩ a r ⟨s',g'⟩ ⟨hgood,hok,hrec⟩ t htaken
  obtain ⟨hs,hg⟩ := recording_eq_some.mp hrec
  dsimp only at hg
  subst hg
  exact (hgood.step hok.2 hs).limbo_wake htaken

/-- The replies that a step can have. -/
def Action.Answers (a : Action τ μ π) (r : Reply τ δ μ) : Prop :=
  match a,r with
  | .put _ _ _ _,.matched _ _ _ | .asyncPut _ _ _,.matched _ _ _ | .get _ _ _ _ _,.matched _ _ _ => True
  | .put _ _ _ _,.returned _ ret | .get _ _ _ _ _,.returned _ ret => ret = -ENOMSG
  | .wake _,.returned _ _ => True
  | .check _,.received _ _ _ | .dataGet _ _ _,.received _ _ _ => True
  | _,.done => True
  | _,_ => False

attribute [local simp] Action.Answers

lemma step_answers {smp : Bool} {memory : π → ℕ → Byte} {s s' : State τ δ μ π} {a : Action τ μ π} {r : Reply τ δ μ}
    (hstep : step smp memory s a = some (s',r)) : a.Answers r := by
  cases a with
  | put t m offer timeout =>
    simp only [step] at hstep
    split_ifs at hstep <;> split at hstep <;> simp at hstep <;> simp [← hstep.2]
  | asyncPut t offer sem =>
    simp only [step] at hstep
    split at hstep
    · cases hstep
    · split_ifs at hstep
      split at hstep <;> simp at hstep <;> simp [← hstep.2]
  | get t m request buffer timeout =>
    simp only [step] at hstep
    split_ifs at hstep <;> split at hstep <;> simp at hstep <;> simp [← hstep.2]
  | wake t =>
    simp only [step] at hstep
    split_ifs at hstep <;> split at hstep <;> simp at hstep <;> simp [← hstep.2]
  | check t =>
    simp only [step] at hstep
    by_cases hq : (s.thread t).queued = true
    · rw [if_pos hq] at hstep
      split at hstep <;> simp at hstep
      simp [← hstep.2]
    · simp [hq] at hstep
  | dataGet t m buffer => simp [step] at hstep; simp [← hstep.2.2]
  | announce t => simp [step] at hstep; simp [← hstep.2.2]
  | fire t => simp [step] at hstep; simp [← hstep.2.2]
  | prioSet t prio =>
    obtain ⟨th,-,heq⟩ := Option.map_eq_some_iff.mp hstep
    cases heq
    simp
  | suspend t => simp [step] at hstep; simp [← hstep.2]
  | resume t => simp [step] at hstep; simp [← hstep.2]

def Parcel.copied (memory : π → ℕ → Byte) (p : Parcel π) : List Byte :=
  match p.data with
  | none => []
  | some q => (List.range p.size).map (memory q)

/-- The message that a sender has in the mailbox or puts there with this very step; it has not been
matched. -/
def Offered (g : Flights τ δ μ π) (a : Action τ μ π) (w : Who τ δ) (offer : Offer τ π) (source : τ) : Prop :=
  match a with
  | .put t _ o _ => w = .real t ∧ g w = .none ∧ offer = o ∧ source = t
  | .asyncPut t o _ => (∃ d, w = .dummy d) ∧ (∀ r b p, g w ≠ .taken r b p) ∧ offer = o ∧ source = t
  | _ => g w = .waiting offer source

def asked (s : State τ δ μ π) (a : Action τ μ π) (b : Addr μ δ) : Request τ :=
  match a with
  | .get _ _ request _ _ => request
  | _ => ⟨(s.msgs b).size,(s.msgs b).info,(s.msgs b).rxSourceThread⟩

attribute [local simp] asked

/-- What the step of a match does to both descriptors. -/
structure Matches (x y : State τ δ μ π × Flights τ δ μ π) (a : Action τ μ π) (w : Who τ δ) (t : τ) (b : Addr μ δ)
    (offer : Offer τ π) (source : τ) : Prop where
  offered : Offered x.2 a w offer source
  taken : y.2 w = .taken t b ⟨offer.data,min offer.size (asked x.1 a b).size,offer.info⟩
  allowed : (offer.target = none ∨ offer.target = some t) ∧
    ((asked x.1 a b).source = none ∨ (asked x.1 a b).source = some source)
  receiver : (y.1.msgs b).size = min offer.size (asked x.1 a b).size ∧ (y.1.msgs b).info = offer.info ∧
    (y.1.msgs b).txData = offer.data ∧ (y.1.msgs b).rxSourceThread = some source
  sender : ∃ c, y.1.swapData w = some c ∧ (y.1.msgs c).info = (asked x.1 a b).info ∧
    (y.1.msgs c).txTargetThread = some t

/-- Matched parties fit, and data and sizes arrive. -/
structure Exchanges (memory : π → ℕ → Byte) (x y : State τ δ μ π × Flights τ δ μ π) (a : Action τ μ π)
    (r : Reply τ δ μ) : Prop where
  matched : ∀ w t b, r = .matched w t b → ∃ offer source, Matches x y a w t b offer source
  /-- The receiver sees the data of the message that it has taken. -/
  received : ∀ t m data, r = .received t m (some data) → ∀ w u p, x.2 w = .taken u (.user m) p →
    data = p.copied memory
  /-- `k_mbox_put` returns 0 after the disposal, with the number of bytes received. -/
  returned : ∀ t m, r = .returned t 0 → x.1.call t = .put m →
    ∃ n, x.2 (.real t) = .disposed n ∧ (y.1.msgs (.user m)).size = n

namespace Good
variable {smp : Bool} {memory : π → ℕ → Byte} {s s' : State τ δ μ π} {g : Flights τ δ μ π} {t u r : τ} {m : μ}
  {w : Who τ δ} {b : Addr μ δ} {p : Parcel π} {a : Action τ μ π} {offer : Offer τ π} {timeout : Timeout}

section
variable (h : Good s g)
include h

lemma put_matches (hstep : Mailbox.step smp memory s (.put t m offer timeout) = some (s',.matched w r b)) :
    Matches (s,g) (s',next g s s' (.put t m offer timeout) (.matched w r b)) (.put t m offer timeout) w r b offer
      t := by
  obtain ⟨⟨hrun,hm⟩,hstep⟩ := ite_none_right_eq_some.mp hstep
  have hcall := running_call hrun
  have ht := (h.thread t).2
  simp only [hcall] at ht
  split at hstep
  case h_2 => split_ifs at hstep <;> simp at hstep
  rename_i r' b' tx rx hfind
  simp only [some.injEq,Prod.mk.injEq,matched.injEq] at hstep
  obtain ⟨rfl,rfl,rfl,rfl⟩ := hstep
  obtain ⟨hr,hb,hmatch⟩ := findReceiver_eq_some hfind
  have hrx := (h.rx r').mp hr
  have hne : t ≠ r' := by rintro rfl; simp [ht.2] at hrx
  obtain ⟨m₀,buffer,hc,hg,hswap,huse,htarget⟩ := h.receiving hrx
  obtain rfl : b' = .user m₀ := by simpa [hswap,Ne.symm hne] using hb.symm
  have hmm : m₀ ≠ m := by
    rintro rfl
    rcases hm with hm | ⟨hm,-⟩ <;> simp [huse] at hm
  obtain ⟨⟨hmt,hms⟩,htx,hrx'⟩ := mboxMessageMatch_eq_some.mp hmatch
  subst htx hrx'
  have hmsg : (s.load (.real t) (.user m) (offer.msg t (.real t) none)).msgs (.user m₀) = s.msgs (.user m₀) := by
    simp [hmm]
  rw [hmsg] at hmt hms ⊢
  rw [htarget] at hmt
  refine ⟨⟨rfl,ht.1,rfl,rfl⟩,by simp,⟨hmt,hms⟩,?_,.user m,?_⟩
  · simp
  · simp [Ne.symm hmm,htarget]

lemma asyncPut_matches {sem : Option ℕ}
    (hstep : Mailbox.step smp memory s (.asyncPut t offer sem) = some (s',.matched w r b)) :
    Matches (s,g) (s',next g s s' (.asyncPut t offer sem) (.matched w r b)) (.asyncPut t offer sem) w r b offer
      t := by
  simp only [Mailbox.step] at hstep
  split at hstep
  · cases hstep
  rename_i d rest hfree
  split_ifs at hstep with hrun
  obtain ⟨hload,hqueue,hrest,htaken⟩ := h.allocate hfree (offer.msg t (.dummy d) sem)
    (update s.prio (.dummy d) (s.prio (.real t)))
  split at hstep
  case h_2 => simp at hstep
  rename_i r' b' tx rx hfind
  simp only [some.injEq,Prod.mk.injEq,matched.injEq] at hstep
  obtain ⟨rfl,rfl,rfl,rfl⟩ := hstep
  obtain ⟨hr,hb,hmatch⟩ := findReceiver_eq_some hfind
  obtain ⟨m₀,buffer,hc,hg,hswap,huse,htarget⟩ := h.receiving ((h.rx r').mp hr)
  obtain rfl : b' = .user m₀ := by simpa [hswap] using hb.symm
  obtain ⟨⟨hmt,hms⟩,htx,hrx⟩ := mboxMessageMatch_eq_some.mp hmatch
  subst htx hrx
  simp only [load_msgs,update_of_ne (by simp : Addr.user m₀ ≠ .async d)] at hmt
  rw [htarget] at hmt
  refine ⟨⟨⟨d,rfl⟩,htaken,rfl,rfl⟩,by simp,⟨hmt,hms⟩,?_,.async d,?_⟩
  · simp
  · simp [htarget]

lemma get_matches {request : Request τ} {buffer : Bool}
    (hstep : Mailbox.step smp memory s (.get t m request buffer timeout) = some (s',.matched w r b)) :
    ∃ offer source, Matches (s,g) (s',next g s s' (.get t m request buffer timeout) (.matched w r b))
      (.get t m request buffer timeout) w r b offer source := by
  obtain ⟨⟨hrun,hm⟩,hstep⟩ := ite_none_right_eq_some.mp hstep
  have hcall := running_call hrun
  split at hstep
  case h_2 => split_ifs at hstep <;> simp at hstep
  rename_i w' a tx rx hfind
  simp only [some.injEq,Prod.mk.injEq,matched.injEq] at hstep
  obtain ⟨rfl,rfl,rfl,rfl⟩ := hstep
  obtain ⟨hw,hswap,hmatch⟩ := findSender_eq_some hfind
  obtain ⟨⟨hmt,hms⟩,htx,hrx⟩ := mboxMessageMatch_eq_some.mp hmatch
  have hfill : Good ((s.setMsg (.user m) (request.msg t (s.msgs (.user m)))).setCall t .none m .free) g :=
    h.fill hcall hm _ fun w hw => rfl
  obtain ⟨offer,source,a',sem,hg,hswap',hmsg,-,hfree⟩ := hfill.queued_sender hw
  obtain rfl : a = a' := some.inj (hswap.symm.trans hswap')
  have hmsg' : (s.setMsg (.user m) (request.msg t (s.msgs (.user m)))).msgs a = offer.msg source w' sem := hmsg
  have hne := hfree m (by simp)
  rw [hmsg'] at hmt hms htx hrx
  subst htx hrx
  obtain ⟨hmsgs,hsd,-⟩ := unpendSender_others (((s.setMsg (.user m) (request.msg t (s.msgs (.user m)))).setMsg a
    { offer.msg source w' sem with
      txTargetThread := (request.msg t (s.msgs (.user m))).txTargetThread
      info := (request.msg t (s.msgs (.user m))).info }).setMsg (.user m)
    { request.msg t (s.msgs (.user m)) with
      rxSourceThread := (offer.msg source w' sem).rxSourceThread
      info := (offer.msg source w' sem).info
      size := min (offer.msg source w' sem).size (request.msg t (s.msgs (.user m))).size
      txData := (offer.msg source w' sem).txData
      syncingThread := (offer.msg source w' sem).syncingThread }) w'
  refine ⟨offer,source,hg,by simp [hg],⟨hmt,hms⟩,?_,a,?_,?_⟩
  · simp only [setCall_msgs,hmsgs]
    simp
  · simp only [setCall_swapData,hsd]
    exact hswap
  · simp only [setCall_msgs,hmsgs]
    simp [hne]

omit [DecidableEq τ] [DecidableEq δ] [DecidableEq μ] in
lemma copied_eq (hw : g w = .taken u b p) : copied memory (s.msgs b) = p.copied memory := by
  obtain ⟨-,hdata,hsize,-⟩ := h.flight w u b p hw
  cases hp : p.data with
  | none => simp [copied,Parcel.copied,hdata,hp]
  | some q => simp [copied,Parcel.copied,hdata,hsize,hp]

lemma received {data : List Byte} (hstep : Mailbox.step smp memory s a = some (s',.received t m (some data)))
    (hw : g w = .taken u (.user m) p) : data = p.copied memory := by
  suffices hdata : data = copied memory (s.msgs (.user m)) from hdata.trans (h.copied_eq hw)
  have hanswer := step_answers hstep
  cases a <;> simp only [Action.Answers] at hanswer
  case check t' =>
    simp only [Mailbox.step] at hstep
    by_cases hq : (s.thread t').queued = true
    case neg => simp [hq] at hstep
    rw [if_pos hq] at hstep
    cases hc : s.call t' with
    | got m' buffer =>
      simp only [hc,some.injEq,Prod.mk.injEq,received.injEq] at hstep
      obtain ⟨-,-,rfl,hdata⟩ := hstep
      cases buffer <;> simp at hdata
      exact hdata.symm
    | none => simp [hc] at hstep
    | put m' => simp [hc] at hstep
    | get m' buffer => simp [hc] at hstep
  case dataGet t' m' buffer =>
    replace hstep := (ite_none_right_eq_some.mp hstep).2
    simp only [some.injEq,Prod.mk.injEq,received.injEq] at hstep
    obtain ⟨-,-,rfl,hdata⟩ := hstep
    cases buffer <;> simp at hdata
    exact hdata.symm

lemma wake_returned (hstep : Mailbox.step smp memory s (.wake t) = some (s',.returned t 0))
    (hcall : s.call t = .put m) : ∃ n, g (.real t) = .disposed n ∧ (s'.msgs (.user m)).size = n := by
  simp only [Mailbox.step] at hstep
  by_cases hq : (s.thread t).queued = true
  case neg => simp [hq] at hstep
  simp only [if_pos hq,hcall,some.injEq,Prod.mk.injEq,returned.injEq] at hstep
  obtain ⟨rfl,-,hret⟩ := hstep
  obtain ⟨hpended,ht⟩ := h.thread t
  simp only [hcall] at ht
  obtain ⟨-,-,ht⟩ := ht
  cases hg : g (.real t) with
  | none => simp [hg,hret] at ht
  | waiting offer source =>
    simp only [hg] at ht
    exact absurd hret (hpended (by simp [ht.2.1])).2.2
  | taken r b p => simp [hg,hq] at ht
  | disposed n =>
    simp only [hg] at ht
    exact ⟨n,rfl,ht.2.2⟩

lemma returned (hstep : Mailbox.step smp memory s a = some (s',.returned t 0))
    (hcall : s.call t = .put m) : ∃ n, g (.real t) = .disposed n ∧ (s'.msgs (.user m)).size = n := by
  have hanswer := step_answers hstep
  cases a <;> simp [ENOMSG] at hanswer
  case wake t' =>
    have hself : t' = t := by
      simp only [Mailbox.step] at hstep
      split_ifs at hstep <;> split at hstep <;> simp at hstep
      · exact hstep.2.1
      · exact hstep.2.1
      · exact hstep.2.1
    subst hself
    exact h.wake_returned hstep hcall

lemma matched (hstep : Mailbox.step smp memory s a = some (s',.matched w r b)) :
    ∃ offer source, Matches (s,g) (s',next g s s' a (.matched w r b)) a w r b offer source := by
  have hanswer := step_answers hstep
  cases a <;> simp only [Action.Answers] at hanswer
  case put t' m' offer timeout => exact ⟨offer,t',h.put_matches hstep⟩
  case asyncPut t' offer sem => exact ⟨offer,t',h.asyncPut_matches hstep⟩
  case get t' m' request buffer timeout => exact h.get_matches hstep

end

end Good

/-- As long as a sender in between is left alone, every message is matched at most once, with a
receiver that both filters allow, the receiver gets its data and the smaller of the two sizes, the
information is exchanged, and `k_mbox_put` returns 0 only when the receiver has disposed of the
message, with the number of bytes received. -/
theorem runs_exchange_messages (smp : Bool) (memory : π → ℕ → Byte) (msgs : Addr μ δ → Msg τ δ π)
    (prio : Who τ δ → ℤ) (free : List δ) (as : List (Action τ μ π))
    (hrun : Along (fun x a => (step smp memory x.1 a).isSome ∧ Careful smp x a)
      (recording (step smp memory) next) (init msgs prio free,fun _ => .none) as)
    (hfree : free.Nodup) :
    ∃ x os, serve? (recording (step smp memory) next) (init msgs prio free,fun _ => .none) as = some (x,os) ∧
      Trace (fun x a r y => Exchanges memory x y a r) (init msgs prio free,fun _ => .none) as os x := by
  obtain ⟨x,os,hserve,htrace⟩ := runs_good smp memory msgs prio as hfree hrun
  refine ⟨x,os,hserve,htrace.mono ?_⟩
  rintro ⟨s,g⟩ a r ⟨s',g'⟩ ⟨hgood,hok,hrec⟩
  obtain ⟨hs,hg⟩ := recording_eq_some.mp hrec
  dsimp only at hg
  subst hg
  exact {
    matched := by
      rintro w t b rfl
      exact hgood.matched hs
    received := by
      rintro t m data rfl w u p hw
      exact hgood.received hs hw
    returned := by
      rintro t m rfl hcall
      exact hgood.returned hs hcall }

end Runs

section TwoThreads

def idle : State (Fin 2) Unit (Fin 3) Unit :=
  .init (fun _ => ⟨0,0,none,none,none,none,none⟩) (fun _ => 0) [()]

def letter : Offer (Fin 2) Unit := ⟨4,7,some (),none⟩

def exchange : List (Action (Fin 2) (Fin 3) Unit) :=
  [.put 0 0 letter .after,.get 1 2 ⟨8,9,some 0⟩ false .noWait,.check 1,.suspend 0,.prioSet 0 3,.dataGet 1 2 true,
    .resume 0,.wake 0,.get 1 2 ⟨2,9,none⟩ true .forever,.asyncPut 0 letter (some 5),.wake 1,.check 1]

theorem runs_keep_senders_parked_exchange :
    ∃ x os, serve? (recording (step false fun _ _ => 65) next) (idle,fun _ => .none) exchange = some (x,os) ∧
      Trace (fun _ _ _ y => ∀ t, Flights.Taken y.2 t →
          (y.1.thread t).queued = false ∧ step false (fun _ _ => 65) y.1 (.wake t) = none)
        (idle,fun _ => .none) exchange os x :=
  runs_keep_senders_parked _ _ _ _ _ _ (by decide +kernel) (by decide)

theorem runs_exchange_messages_exchange :
    ∃ x os, serve? (recording (step false fun _ _ => 65) next) (idle,fun _ => .none) exchange = some (x,os) ∧
      Trace (fun x a r y => Exchanges (fun _ _ => 65) x y a r) (idle,fun _ => .none) exchange os x :=
  runs_exchange_messages _ _ _ _ _ _ (by decide +kernel) (by decide)

/-- `k_thread_resume` puts a suspended sender whose message is taken into the run queue, and its
`k_mbox_put` returns before the disposal. -/
theorem resume_runs_sender :
    ∃ x os y, serve? (recording (step false fun _ _ => 65) next) (idle,fun _ => .none)
        [.put 0 0 letter .forever,.get 1 2 ⟨8,9,none⟩ false .noWait,.check 1,.suspend 0,.resume 0] = some (x,os) ∧
      x.2 (.real 0) = .taken 1 (.user 2) ⟨some (),4,7⟩ ∧ (x.1.thread 0).queued = true ∧
      step false (fun _ _ => 65) x.1 (.wake 0) = some (y,.returned 0 (-EAGAIN)) :=
  ⟨_,_,_,rfl,rfl,rfl,rfl⟩

/-- The timeout of a sender is announced before its message is taken, and handled after that: its
`k_mbox_put` returns. It sends another message, and the disposal of the first one makes the second
call return 0 while its message still waits for a receiver. -/
theorem disposal_ends_other_put :
    ∃ x os y, serve? (recording (step false fun _ _ => 65) next) (idle,fun _ => .none)
        [.put 0 0 letter .after,.announce 0,.get 1 2 ⟨8,9,none⟩ false .noWait,.check 1,.fire 0,.wake 0,
          .put 0 1 ⟨3,1,some (),none⟩ .forever,.dataGet 1 2 true] = some (x,os) ∧
      x.1.call 0 = .put 1 ∧ x.2 (.real 0) = .waiting ⟨3,1,some (),none⟩ 0 ∧
      step false (fun _ _ => 65) x.1 (.wake 0) = some (y,.returned 0 0) ∧ (y.msgs (.user 1)).size = 4 :=
  ⟨_,_,_,rfl,rfl,rfl,rfl,rfl⟩

end TwoThreads
end ArmFirmware.Zephyr.Mailbox
