import ArmFirmware.Zephyr.Mutex.Inheritance

/-! Several mutexes. Each of them records the priority its owner had when it took it, and gives
that one back, whatever the owner has inherited through others since; and what a waiting thread
inherits is not passed on. -/
namespace ArmFirmware.Zephyr.Mutex
open Library State List Function Option Int8 WaitQueue

variable {μ τ : Type*} [DecidableEq μ] [DecidableEq τ] {ceiling : ℤ} {base : τ → Int8} {mutex : KMutex τ}

/-- The owner took the mutex at a priority no lower than those of the threads that wait for its
other mutexes: its priority was raised through those before, so that this mutex is the next one to
be given up. -/
def Innermost (ceiling : ℤ) (s : State μ τ) (m : μ) (owner : τ) : Prop :=
  ∀ m', m' ≠ m → (s.mutexes m').owner = some owner → ∀ w ∈ (s.mutexes m').waitQ,
    (s.mutexes m).ownerOrigPrio.toInt ≤ max ceiling (s.prio w).toInt

/-- Mutexes are given up in the reverse order to which the priority of their owner was raised, the
last one having been taken at the owner's own priority; a lock that times out ends while the same
holds of its mutex, and its owner does not wait; and nobody waits for a mutex of a thread of lower
priority that waits itself. -/
def Disciplined (ceiling : ℤ) (base : τ → Int8) (s : State μ τ) : Action μ τ → Prop
  | .lock t m wait _ => wait = true → ∀ o ∈ (s.mutexes m).owner, o ≠ t → s.pendedOn o ≠ none →
      (s.prio o).toInt ≤ max ceiling (s.prio t).toInt
  | .unlock t m => (s.mutexes m).owner = some t → (s.mutexes m).lockCount = 1 →
      Innermost ceiling s m t ∧
      ((∀ m', m' ≠ m → (s.mutexes m').owner ≠ some t) → (s.mutexes m).ownerOrigPrio = base t)
  | .lockEnd t => ∀ m ∈ s.timedOut t, ∀ o ∈ (s.mutexes m).owner, s.pendedOn o = none ∧ Innermost ceiling s m o
  | .timeout _ => True

instance [Fintype μ] (s : State μ τ) : ∀ a, Decidable (Disciplined ceiling base s a)
  | .lock .. | .unlock .. | .lockEnd _ => by unfold Disciplined Innermost; infer_instance
  | .timeout _ => isTrue trivial

/-- Owners are at least as high as those who wait for them, up to the ceiling, and threads without
a mutex have their own priority. -/
structure Raised (ceiling : ℤ) (base : τ → Int8) (s : State μ τ) : Prop where
  owner (m : μ) (o : τ) : (s.mutexes m).owner = some o → ∀ w ∈ (s.mutexes m).waitQ,
    (s.prio o).toInt ≤ max ceiling (s.prio w).toInt
  idle (t : τ) : (∀ m, (s.mutexes m).owner ≠ some t) → s.prio t = base t

/-- The queue is in the order of priorities. -/
def Ordered (s : State μ τ) (waitQ : List τ) : Prop :=
  waitQ.Pairwise fun u v => (s.prio u).toInt ≤ (s.prio v).toInt

variable {s s' : State μ τ} {a : Action μ τ} {r : Reply τ}

omit [DecidableEq μ] [DecidableEq τ] in
lemma Ordered.congr {waitQ : List τ} (h : Ordered s waitQ) (heq : ∀ w ∈ waitQ, s'.prio w = s.prio w) :
    Ordered s' waitQ := by
  refine List.Pairwise.imp_of_mem (fun {u v} hu hv huv => ?_) h
  rw [heq u hu,heq v hv]
  exact huv

/-- One thread gets another priority and one mutex another owner; nobody starts to wait. -/
lemma Raised.update (h : Raised ceiling base s) {m : μ} {t : τ} (hm : s'.mutexes = update s.mutexes m mutex)
    (hothers : ∀ u, u ≠ t → s'.prio u = s.prio u)
    (hwaiters : ∀ m', ∀ w ∈ (s'.mutexes m').waitQ, s'.prio w = s.prio w)
    (howner : ∀ o, mutex.owner = some o → ∀ w ∈ mutex.waitQ, (s'.prio o).toInt ≤ max ceiling (s.prio w).toInt)
    (hrest : ∀ m', m' ≠ m → (s.mutexes m').owner = some t → ∀ w ∈ (s.mutexes m').waitQ,
      (s'.prio t).toInt ≤ max ceiling (s.prio w).toInt)
    (hidle : ∀ u, (s.mutexes m).owner = some u → mutex.owner ≠ some u → u = t)
    (hown : (∀ m', (s'.mutexes m').owner ≠ some t) → s'.prio t = base t) : Raised ceiling base s' := by
  refine ⟨fun m' o ho w hw => ?_,fun u hu => ?_⟩
  · rw [hwaiters m' w hw]
    by_cases hm' : m' = m
    · subst hm'
      rw [hm,update_self] at ho hw
      exact howner o ho w hw
    · rw [hm,update_of_ne hm'] at ho hw
      by_cases hot : o = t
      · subst hot
        exact hrest m' hm' ho w hw
      · rw [hothers o hot]
        exact h.owner m' o ho w hw
  · by_cases hut : u = t
    · subst hut
      exact hown hu
    · rw [hothers u hut]
      refine h.idle u fun m' hm' => ?_
      by_cases hmm : m' = m
      · subst hmm
        refine hut (hidle u hm' ?_)
        have := hu m'
        rwa [hm,update_self] at this
      · have := hu m'
        rw [hm,update_of_ne hmm] at this
        exact this hm'

omit [DecidableEq τ] in
lemma ordered_update (h : ∀ m, Ordered s (s.mutexes m).waitQ) {m : μ} (hm : s'.mutexes = update s.mutexes m mutex)
    (hwaiters : ∀ m', ∀ w ∈ (s.mutexes m').waitQ, s'.prio w = s.prio w)
    (hq : Ordered s' mutex.waitQ) (m' : μ) : Ordered s' (s'.mutexes m').waitQ := by
  by_cases hm' : m' = m
  · subst hm'
    rwa [hm,update_self]
  · rw [hm,update_of_ne hm']
    exact (h m').congr (hwaiters m')

lemma toInt_ofInt_le {p : ℤ} (h : -2^7 ≤ p) : (ofInt p).toInt ≤ p := by
  by_cases hp : p < 2^7
  · rw [toInt_ofInt_of_le h hp]
  · exact (toInt_lt _).le.trans (not_lt.mp hp)

omit [DecidableEq μ] [DecidableEq τ] in
/-- The priority set at the end of a lock is no lower than the recorded one. -/
lemma lowered_le_orig (m : μ) :
    (ofInt (s.lowered ceiling m)).toInt ≤ max ceiling (s.mutexes m).ownerOrigPrio.toInt := by
  have horig := (s.mutexes m).ownerOrigPrio.le_toInt
  unfold lowered
  dsimp only
  split
  · rw [ofInt_toInt]
    exact le_max_right ..
  · rename_i v _ _
    have hv := (s.prio v).le_toInt
    rw [newPrioForInheritance_eq]
    refine (toInt_ofInt_le ?_).trans ?_ <;> omega

omit [DecidableEq μ] [DecidableEq τ] in
/-- The priority set at the end of a lock is no lower than those of the waiters that are left. -/
lemma lowered_le (m : μ) (hord : Ordered s (s.mutexes m).waitQ) {w : τ} (hw : w ∈ (s.mutexes m).waitQ) :
    (ofInt (s.lowered ceiling m)).toInt ≤ max ceiling (s.prio w).toInt := by
  unfold lowered
  dsimp only
  cases hq : (s.mutexes m).waitQ with
  | nil => simp [hq] at hw
  | cons v q =>
    have hv := (s.prio v).le_toInt
    have horig := (s.mutexes m).ownerOrigPrio.le_toInt
    have hvw : (s.prio v).toInt ≤ (s.prio w).toInt := by
      rw [hq] at hw hord
      rcases mem_cons.mp hw with rfl | hw
      · exact le_rfl
      · exact (pairwise_cons.mp hord).1 w hw
    dsimp only
    rw [newPrioForInheritance_eq]
    refine (toInt_ofInt_le ?_).trans ?_ <;> omega

/-- A thread that waits raises the owner. -/
lemma Raised.waits (h : Raised ceiling base s) (hord : ∀ m, Ordered s (s.mutexes m).waitQ) (hwf : Wf s)
    {t o : τ} {m : μ} (sooner : τ → Bool) (ho : (s.mutexes m).owner = some o) (hot : o ≠ t)
    (hpended : s.pendedOn o ≠ none → (s.prio o).toInt ≤ max ceiling (s.prio t).toInt) :
    Raised ceiling base ((s.boost ceiling t o).pend t m sooner) ∧
      ∀ m', Ordered ((s.boost ceiling t o).pend t m sooner)
        (((s.boost ceiling t o).pend t m sooner).mutexes m').waitQ := by
  have hothers : ∀ u, u ≠ o → (s.boost ceiling t o).prio u = s.prio u := fun u hu =>
    boost_other _ _ _ _ hu
  have hwaiters : ∀ m', ∀ w ∈ (s.mutexes m').waitQ, (s.boost ceiling t o).prio w = s.prio w := by
    intro m' w hw
    by_cases hwo : w = o
    · subst hwo
      rw [← toInt_inj,boost_owner]
      exact min_eq_left (hpended (by simp [(hwf.pended w m').mpr hw]))
    · exact hothers w hwo
  have hle : ((s.boost ceiling t o).prio o).toInt ≤ (s.prio o).toInt := by
    rw [boost_owner]
    exact min_le_left _ _
  have hm : ((s.boost ceiling t o).pend t m sooner).mutexes = Function.update s.mutexes m
      {s.mutexes m with
        waitQ := pend ((s.boost ceiling t o).outranks t sooner) t (s.mutexes m).waitQ} := by
    rw [pend_mutexes,boost_mutexes]
  constructor
  · refine h.update hm hothers (fun m' w hw => ?_) (fun u hu w hw => ?_) (fun m' hm' hu w hw => ?_)
      (fun u hu hne => absurd hu hne) fun hnone => ?_
    · by_cases hmm : m' = m
      · subst hmm
        rw [hm,update_self] at hw
        rcases mem_pend.mp hw with rfl | hw
        · exact hothers w hot.symm
        · exact hwaiters m' w hw
      · rw [hm,update_of_ne hmm] at hw
        exact hwaiters m' w hw
    · obtain rfl : o = u := some.inj (ho.symm.trans hu)
      rcases mem_pend.mp hw with rfl | hw
      · rw [pend_prio,boost_owner]
        exact min_le_right _ _
      · exact hle.trans (h.owner m o ho w hw)
    · exact hle.trans (h.owner m' o hu w hw)
    · have := hnone m
      rw [hm,update_self] at this
      exact absurd ho this
  · refine ordered_update hord hm hwaiters ?_
    refine pend_pairwise (fun huv hvw => huv.trans hvw) ((hord m).congr (hwaiters m))
      (fun u hu hout => ?_) fun u hu hout => ?_
    · rcases Bool.or_eq_true_iff.mp hout with hlt | heq
      · exact (of_decide_eq_true hlt).le
      · obtain ⟨heq,-⟩ := Bool.and_eq_true_iff.mp heq
        exact (congrArg toInt (beq_iff_eq.mp heq)).le
    · obtain ⟨hlt,-⟩ := Bool.or_eq_false_iff.mp hout
      exact not_lt.mp (of_decide_eq_false hlt)

/-- A lock that times out lowers the owner. -/
lemma Raised.lockEnd (h : Raised ceiling base s) (hord : ∀ m, Ordered s (s.mutexes m).waitQ) (hwf : Wf s)
    (t : τ) (m : μ) (hd : ∀ o ∈ (s.mutexes m).owner, s.pendedOn o = none ∧ Innermost ceiling s m o) :
    Raised ceiling base (s.kMutexLockEnd ceiling t m) ∧
      ∀ m', Ordered (s.kMutexLockEnd ceiling t m) ((s.kMutexLockEnd ceiling t m).mutexes m').waitQ := by
  unfold kMutexLockEnd
  dsimp only
  cases ho : (s.mutexes m).owner with
  | none => exact ⟨⟨h.owner,h.idle⟩,hord⟩
  | some o =>
    obtain ⟨hpended,hrest⟩ := hd o ho
    have hlow : State.lowered {s with timedOut := Function.update s.timedOut t none} ceiling m =
        s.lowered ceiling m := rfl
    have hm : s.mutexes = Function.update s.mutexes m (s.mutexes m) := (update_eq_self ..).symm
    have hothers : ∀ u, u ≠ o → Function.update s.prio o (ofInt (s.lowered ceiling m)) u = s.prio u := fun u hu =>
      update_of_ne hu ..
    have hwaiters : ∀ m', ∀ w ∈ (s.mutexes m').waitQ,
        Function.update s.prio o (ofInt (s.lowered ceiling m)) w = s.prio w := by
      intro m' w hw
      refine hothers w fun hwo => ?_
      subst hwo
      simp [(hwf.pended w m').mpr hw] at hpended
    rw [hlow]
    constructor
    · have hm' : (State.adjustOwnerPrio {s with timedOut := Function.update s.timedOut t none} o
          (s.lowered ceiling m)).mutexes = Function.update s.mutexes m (s.mutexes m) := by
        rw [adjustOwnerPrio_mutexes]
        exact hm
      refine h.update (t := o) hm' ?_ ?_ ?_ ?_ ?_ ?_
      · simpa using hothers
      · simpa using hwaiters
      · intro u hu w hw
        obtain rfl : o = u := some.inj (ho.symm.trans hu)
        rw [adjustOwnerPrio_prio,update_self]
        exact lowered_le m (hord m) hw
      · intro m' hm' hu w hw
        rw [adjustOwnerPrio_prio,update_self]
        exact (lowered_le_orig m).trans (max_le (le_max_left ..) (hrest m' hm' hu w hw))
      · exact fun u hu hne => absurd hu hne
      · intro hnone
        rw [adjustOwnerPrio_mutexes] at hnone
        exact absurd ho (hnone m)
    · intro m'
      rw [adjustOwnerPrio_mutexes]
      exact (hord m').congr (by simpa using hwaiters m')

/-- The last unlock gives the recorded priority back, and the first waiter is the new owner. -/
lemma Raised.unlocks (h : Raised ceiling base s) (hord : ∀ m, Ordered s (s.mutexes m).waitQ) (hwf : Wf s)
    {t : τ} {m : μ} (ht : s.pendedOn t = none) (ho : (s.mutexes m).owner = some t)
    (hrest : Innermost ceiling s m t)
    (hlast : (∀ m', m' ≠ m → (s.mutexes m').owner ≠ some t) → (s.mutexes m).ownerOrigPrio = base t)
    (hm : s'.mutexes = Function.update s.mutexes m mutex)
    (hprio : s'.prio = Function.update s.prio t (s.mutexes m).ownerOrigPrio)
    (hq : mutex.waitQ = (s.mutexes m).waitQ.tail) (hnew : mutex.owner = (s.mutexes m).waitQ.head?) :
    Raised ceiling base s' ∧ ∀ m', Ordered s' (s'.mutexes m').waitQ := by
  have hothers : ∀ u, u ≠ t → s'.prio u = s.prio u := by
    intro u hu
    rw [hprio,update_of_ne hu]
  have hwaiters : ∀ m', ∀ w ∈ (s.mutexes m').waitQ, s'.prio w = s.prio w := by
    intro m' w hw
    refine hothers w fun hwt => ?_
    subst hwt
    simp [(hwf.pended w m').mpr hw] at ht
  have hsub : ∀ w ∈ mutex.waitQ, w ∈ (s.mutexes m).waitQ := fun w hw => mem_of_mem_tail (hq ▸ hw)
  constructor
  · refine h.update hm hothers (fun m' w hw => ?_) (fun n hn w hw => ?_) ?_ ?_ fun hnone => ?_
    · by_cases hmm : m' = m
      · subst hmm
        rw [hm,update_self] at hw
        exact hwaiters m' w (hsub w hw)
      · rw [hm,update_of_ne hmm] at hw
        exact hwaiters m' w hw
    · rw [hnew] at hn
      obtain ⟨q,hcons⟩ := List.head?_eq_some_iff.mp hn
      have hpair := hord m
      rw [hcons] at hpair
      rw [hq,hcons,tail_cons] at hw
      rw [hwaiters m n (by simp [hcons])]
      exact ((pairwise_cons.mp hpair).1 w hw).trans (le_max_right ..)
    · intro m' hm' hu w hw
      rw [hprio,update_self]
      exact hrest m' hm' hu w hw
    · exact fun u hu _ => some.inj (hu.symm.trans ho)
    · rw [hprio,update_self]
      refine hlast fun m' hm' => ?_
      have := hnone m'
      rwa [hm,update_of_ne hm'] at this
  · refine ordered_update hord hm hwaiters ?_
    rw [hq]
    exact ((hord m).congr (hwaiters m)).sublist (tail_sublist _)

omit [DecidableEq τ] in
lemma take_waitQ (t : τ) (m m' : μ) : ((s.take t m).mutexes m').waitQ = (s.mutexes m').waitQ := by
  by_cases hm' : m' = m
  · subst hm'
    simp
  · simp [hm']

/-- Every outcome of a disciplined step keeps the owners raised. -/
lemma Outcome.raised (h : Raised ceiling base s) (hord : ∀ m, Ordered s (s.mutexes m).waitQ) (hwf : Wf s)
    (ha : Meets s a) (hd : Disciplined ceiling base s a) (ho : Outcome ceiling s a s' r) :
    Raised ceiling base s' ∧ ∀ m, Ordered s' (s'.mutexes m).waitQ := by
  cases ho with
  | busy | stray => exact ⟨h,hord⟩
  | @taken t m _ _ count owner waitQ =>
    refine ⟨h.update (t := t) rfl (fun _ _ => rfl) (fun _ _ _ => rfl) ?_ ?_ ?_ ?_,fun m' => ?_⟩
    · intro o _ w hw
      rw [waitQ] at hw
      simp at hw
    · exact fun m' _ hu w hw => h.owner m' t hu w hw
    · exact fun u hu _ => absurd (owner.symm.trans hu) (by simp)
    · intro hnone
      exact absurd (by simp) (hnone m)
    · rw [take_waitQ]
      exact hord m'
  | @deeper t m _ _ owner count small =>
    refine ⟨h.update (t := t) rfl (fun _ _ => rfl) (fun _ _ _ => rfl) ?_ ?_ ?_ ?_,fun m' => ?_⟩
    · exact fun o hu w hw => h.owner m o (owner.trans hu) w hw
    · exact fun m' _ hu w hw => h.owner m' t hu w hw
    · exact fun u hu _ => some.inj (hu.symm.trans owner)
    · intro hnone
      exact absurd (by simp) (hnone m)
    · rw [take_waitQ]
      exact hord m'
  | @waits t m sooner o owner ne => exact h.waits hord hwf sooner owner ne (hd rfl o owner ne)
  | @shallower t m owner count =>
    refine ⟨h.update (t := t) rfl (fun _ _ => rfl) (fun _ _ _ => rfl) ?_ ?_ ?_ ?_,
      ordered_update hord rfl (fun _ _ _ => rfl) (hord m)⟩
    · exact h.owner m
    · exact fun m' _ hu w hw => h.owner m' t hu w hw
    · exact fun u hu hne => absurd hu hne
    · intro hnone
      have := hnone m
      rw [setMutex_mutexes,update_self] at this
      exact absurd owner this
  | @released t m owner count waitQ =>
    obtain ⟨hrest,hlast⟩ := hd owner count
    refine h.unlocks hord hwf ha.1 owner hrest hlast (by rw [setMutex_mutexes,adjustOwnerPrio_mutexes])
      ?_ ?_ ?_
    · rw [setMutex_prio,adjustOwnerPrio_prio,ofInt_toInt]
    · simp [waitQ]
    · simp [waitQ]
  | @handedOver t m n q owner count waitQ =>
    obtain ⟨hrest,hlast⟩ := hd owner count
    refine h.unlocks hord hwf ha.1 owner hrest hlast (by rw [handOver_mutexes,adjustOwnerPrio_mutexes])
      ?_ ?_ ?_
    · rw [handOver_prio,adjustOwnerPrio_prio,ofInt_toInt]
    · simp [waitQ]
    · simp [waitQ]
  | @expired t m pended =>
    refine ⟨h.update (t := t) rfl (fun _ _ => rfl) (fun _ _ _ => rfl) ?_ ?_ ?_ ?_,
      ordered_update hord rfl (fun _ _ _ => rfl) ((hord m).sublist (erase_sublist ..))⟩
    · exact fun o hu w hw => h.owner m o hu w (mem_of_mem_erase hw)
    · exact fun m' _ hu w hw => h.owner m' t hu w hw
    · exact fun u hu hne => absurd hu hne
    · intro hnone
      refine h.idle t fun m' hm' => hnone m' ?_
      by_cases hmm : m' = m
      · subst hmm
        simpa using hm'
      · simpa [hmm] using hm'
  | @ended t m timedOut => exact h.lockEnd hord hwf t m (hd m timedOut)

def innerWaited : List (Action (Fin 2) (Fin 3)) :=
  [.lock 0 0 true fun _ => false,.lock 0 1 true fun _ => false,.lock 1 1 true fun _ => false,
    .lock 2 0 true fun _ => false,.unlock 0 1,.unlock 0 0,.unlock 1 1]

def outerUnlocked : List (Action (Fin 2) (Fin 2)) :=
  [.lock 0 0 true fun _ => false,.lock 0 1 true fun _ => false,.lock 1 1 true fun _ => false,.unlock 0 0]

def takenRaised : List (Action (Fin 2) (Fin 2)) :=
  [.lock 0 0 true fun _ => false,.lock 1 0 true fun _ => false,.lock 0 1 true fun _ => false,
    .unlock 0 0,.unlock 0 1]

end ArmFirmware.Zephyr.Mutex
