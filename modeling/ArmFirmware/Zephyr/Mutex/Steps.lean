import ArmFirmware.Zephyr.Mutex.Model

/-! What a step can do. Owners, counts and queues fit together whatever the priorities are. -/
namespace ArmFirmware.Zephyr.Mutex
open Library State List Option Function

attribute [local simp] kMutexUnlock step init

section Frames
variable {μ τ : Type*} [DecidableEq τ] (s : State μ τ) (ceiling : ℤ) (t o : τ) (p : ℤ)

@[simp] lemma adjustOwnerPrio_mutexes : (s.adjustOwnerPrio o p).mutexes = s.mutexes := by
  unfold adjustOwnerPrio
  split_ifs <;> rfl

@[simp] lemma adjustOwnerPrio_pendedOn : (s.adjustOwnerPrio o p).pendedOn = s.pendedOn := by
  unfold adjustOwnerPrio
  split_ifs <;> rfl

@[simp] lemma adjustOwnerPrio_timedOut : (s.adjustOwnerPrio o p).timedOut = s.timedOut := by
  unfold adjustOwnerPrio
  split_ifs <;> rfl

@[simp] lemma adjustOwnerPrio_prio : (s.adjustOwnerPrio o p).prio = update s.prio o (Int8.ofInt p) := by
  unfold adjustOwnerPrio
  split_ifs with h
  · rw [threadPrioSet_prio]
  · obtain rfl := not_not.mp h
    rw [Int8.ofInt_toInt,Function.update_eq_self]

@[simp] lemma boost_mutexes : (s.boost ceiling t o).mutexes = s.mutexes := by
  unfold boost
  dsimp only
  split_ifs <;> simp

@[simp] lemma boost_pendedOn : (s.boost ceiling t o).pendedOn = s.pendedOn := by
  unfold boost
  dsimp only
  split_ifs <;> simp

@[simp] lemma boost_timedOut : (s.boost ceiling t o).timedOut = s.timedOut := by
  unfold boost
  dsimp only
  split_ifs <;> simp

end Frames

variable {μ τ : Type*} [DecidableEq μ] [DecidableEq τ] {ceiling : ℤ} {s s' : State μ τ}
  {a : Action μ τ} {r : Reply τ}

/-- A mutex is free when its count is 0, and then nobody waits for it; a thread waits in the
queue it is pended on, once; the owner does not wait for its mutex. -/
structure Wf (s : State μ τ) : Prop where
  count (m : μ) : (s.mutexes m).lockCount = 0 ↔ (s.mutexes m).owner = none
  free (m : μ) : (s.mutexes m).owner = none → (s.mutexes m).waitQ = []
  nodup (m : μ) : (s.mutexes m).waitQ.Nodup
  owner (m : μ) (t : τ) : (s.mutexes m).owner = some t → t ∉ (s.mutexes m).waitQ
  pended (t : τ) (m : μ) : s.pendedOn t = some m ↔ t ∈ (s.mutexes m).waitQ
  timedOut (t : τ) : s.timedOut t ≠ none → s.pendedOn t = none

omit [DecidableEq μ] [DecidableEq τ] in
lemma init_wf (base : τ → Int8) : Wf (init base : State μ τ) :=
  ⟨fun _ => ⟨fun _ => rfl,fun _ => rfl⟩,fun _ _ => rfl,fun _ => .nil,by simp,by simp,
    by simp⟩

variable (ceiling) in
/-- What each action can come to, with what the code has found out by then. -/
inductive Outcome (s : State μ τ) : Action μ τ → State μ τ → Reply τ → Prop
  | busy {t m sooner} (o) (owner : (s.mutexes m).owner = some o) (ne : o ≠ t) :
      Outcome s (.lock t m false sooner) s (.ret (-EBUSY))
  | taken {t m wait sooner} (count : (s.mutexes m).lockCount = 0)
      (owner : (s.mutexes m).owner = none) (waitQ : (s.mutexes m).waitQ = []) :
      Outcome s (.lock t m wait sooner) (s.take t m) (.ret 0)
  | deeper {t m wait sooner} (owner : (s.mutexes m).owner = some t)
      (count : (s.mutexes m).lockCount ≠ 0) (small : (s.mutexes m).lockCount+1 < 2^32) :
      Outcome s (.lock t m wait sooner) (s.take t m) (.ret 0)
  | waits {t m sooner} (o) (owner : (s.mutexes m).owner = some o) (ne : o ≠ t) :
      Outcome s (.lock t m true sooner) ((s.boost ceiling t o).pend t m sooner) .pended
  | stray {t m} (r) (owner : (s.mutexes m).owner ≠ some t) (neg : r < 0) :
      Outcome s (.unlock t m) s (.ret r)
  | shallower {t m} (owner : (s.mutexes m).owner = some t) (count : 1 < (s.mutexes m).lockCount) :
      Outcome s (.unlock t m)
        (s.setMutex m {s.mutexes m with lockCount := (s.mutexes m).lockCount-1}) (.ret 0)
  | released {t m} (owner : (s.mutexes m).owner = some t) (count : (s.mutexes m).lockCount = 1)
      (waitQ : (s.mutexes m).waitQ = []) :
      Outcome s (.unlock t m) ((s.adjustOwnerPrio t (s.mutexes m).ownerOrigPrio.toInt).setMutex m
        {s.mutexes m with owner := none, lockCount := 0}) (.unlocked none)
  | handedOver {t m} (n q) (owner : (s.mutexes m).owner = some t)
      (count : (s.mutexes m).lockCount = 1) (waitQ : (s.mutexes m).waitQ = n::q) :
      Outcome s (.unlock t m)
        ((s.adjustOwnerPrio t (s.mutexes m).ownerOrigPrio.toInt).handOver m n q) (.unlocked (some n))
  | expired {t} (m) (pended : s.pendedOn t = some m) :
      Outcome s (.timeout t) (s.expire t m) .expired
  | ended {t} (m) (timedOut : s.timedOut t = some m) :
      Outcome s (.lockEnd t) (s.kMutexLockEnd ceiling t m) (.ret (-EAGAIN))

variable (ceiling) in
/-- Every call has an outcome. -/
lemma step_outcome (h : Wf s) (ha : Meets s a) :
    ∃ s' r, step ceiling s a = some (s',r) ∧ Outcome ceiling s a s' r := by
  cases a with
  | lock t m wait sooner =>
    obtain ⟨-,-,hsmall⟩ := ha
    by_cases hcount : (s.mutexes m).lockCount = 0
    · have howner := (h.count m).mp hcount
      exact ⟨_,_,if_pos (.inl hcount),.taken hcount howner (h.free m howner)⟩
    · obtain ⟨o,ho⟩ := ne_none_iff_exists'.mp (mt (h.count m).mpr hcount)
      by_cases hot : o = t
      · subst hot
        exact ⟨_,_,if_pos (.inr ho),.deeper ho hcount (hsmall ho)⟩
      · have hnot : ¬((s.mutexes m).lockCount = 0 ∨ (s.mutexes m).owner = some t) := by
          simp [hcount,ho,hot]
        cases wait with
        | false => exact ⟨s,.ret (-EBUSY),by simp [kMutexLock,hnot],.busy o ho hot⟩
        | true => exact ⟨_,.pended,by simp [kMutexLock,hcount,ho,hot],.waits o ho hot⟩
  | unlock t m =>
    cases ho : (s.mutexes m).owner with
    | none => exact ⟨s,.ret (-EINVAL),by simp [ho],.stray _ (by simp [ho]) (by decide)⟩
    | some o =>
      by_cases hot : o = t
      · subst hot
        have hcount : (s.mutexes m).lockCount ≠ 0 := by
          intro hzero
          simp [(h.count m).mp hzero] at ho
        by_cases hone : 1 < (s.mutexes m).lockCount
        · exact ⟨_,.ret 0,by simp [ho,hcount,hone],.shallower ho hone⟩
        · have hcount1 : (s.mutexes m).lockCount = 1 := by omega
          cases hq : (s.mutexes m).waitQ with
          | nil => exact ⟨_,.unlocked none,by simp [ho,hcount1,hq],.released ho hcount1 hq⟩
          | cons n q =>
            exact ⟨_,.unlocked (some n),by simp [ho,hcount1,hq],.handedOver n q ho hcount1 hq⟩
      · exact ⟨s,.ret (-EPERM),by simp [ho,hot],.stray _ (by simpa [ho] using hot) (by decide)⟩
  | timeout t =>
    obtain ⟨m,hm⟩ := ne_none_iff_exists'.mp ha
    exact ⟨_,_,by simp [hm],.expired m hm⟩
  | lockEnd t =>
    obtain ⟨m,hm⟩ := ne_none_iff_exists'.mp ha
    exact ⟨_,_,by simp [hm],.ended m hm⟩

omit [DecidableEq τ] in
lemma Wf.update (h : Wf s) {m : μ} {mutex : KMutex τ} (hm : s'.mutexes = update s.mutexes m mutex)
    (hcount : mutex.lockCount = 0 ↔ mutex.owner = none) (hfree : mutex.owner = none → mutex.waitQ = [])
    (hnodup : mutex.waitQ.Nodup) (howner : ∀ t, mutex.owner = some t → t ∉ mutex.waitQ)
    (hpended : ∀ t, s'.pendedOn t = some m ↔ t ∈ mutex.waitQ)
    (hothers : ∀ t m', m' ≠ m → (s'.pendedOn t = some m' ↔ s.pendedOn t = some m'))
    (htimedOut : ∀ t, s'.timedOut t ≠ none → s'.pendedOn t = none) : Wf s' := by
  have hsplit : ∀ (P : μ → KMutex τ → Prop), P m mutex → (∀ m' ≠ m, P m' (s.mutexes m')) →
      ∀ m', P m' (s'.mutexes m') := by
    intro P hP hrest m'
    by_cases hm' : m' = m
    · subst hm'
      simpa [hm] using hP
    · simpa [hm,hm'] using hrest m' hm'
  refine ⟨?_,?_,?_,?_,fun t => ?_,htimedOut⟩
  · exact hsplit (fun _ x => x.lockCount = 0 ↔ x.owner = none) hcount fun m' _ => h.count m'
  · exact hsplit (fun _ x => x.owner = none → x.waitQ = []) hfree fun m' _ => h.free m'
  · exact hsplit (fun _ x => x.waitQ.Nodup) hnodup fun m' _ => h.nodup m'
  · exact hsplit (fun _ x => ∀ t, x.owner = some t → t ∉ x.waitQ) howner fun m' _ => h.owner m'
  · exact hsplit (fun m' x => s'.pendedOn t = some m' ↔ t ∈ x.waitQ) (hpended t) fun m' hm' =>
      (hothers t m' hm').trans (h.pended t m')

omit [DecidableEq μ] [DecidableEq τ] in
lemma Wf.congr (h : Wf s) (hm : s'.mutexes = s.mutexes) (hp : s'.pendedOn = s.pendedOn)
    (ht : ∀ t, s'.timedOut t ≠ none → s.timedOut t ≠ none) : Wf s' := by
  refine ⟨?_,?_,?_,?_,?_,fun t hne => ?_⟩
  · exact fun m => hm ▸ h.count m
  · exact fun m => hm ▸ h.free m
  · exact fun m => hm ▸ h.nodup m
  · exact fun m => hm ▸ h.owner m
  · exact fun t m => hm ▸ hp ▸ h.pended t m
  · rw [hp]
    exact h.timedOut t (ht t hne)

omit [DecidableEq μ] in
lemma Wf.lockEnd (h : Wf s) (t : τ) (m : μ) : Wf (s.kMutexLockEnd ceiling t m) := by
  have htimed : ∀ u, Function.update s.timedOut t none u ≠ none → s.timedOut u ≠ none := by
    intro u hu
    by_cases hut : u = t
    · simp [hut] at hu
    · simpa [hut] using hu
  unfold kMutexLockEnd
  dsimp only
  split
  · exact h.congr rfl rfl htimed
  · exact h.congr (by simp) (by simp) (by simpa using htimed)

/-- Every outcome keeps the mutexes well-formed. -/
lemma Outcome.wf (h : Wf s) (ha : Meets s a) (ho : Outcome ceiling s a s' r) : Wf s' := by
  cases ho with
  | busy | stray => exact h
  | @taken t m _ _ count owner waitQ =>
    refine h.update rfl ?_ ?_ ?_ ?_ ?_ (fun _ _ _ => .rfl) h.timedOut
    · simp [count]
    · simp
    · exact h.nodup m
    · simp [waitQ]
    · exact fun u => h.pended u m
  | @deeper t m _ _ owner count small =>
    refine h.update rfl ?_ ?_ ?_ ?_ ?_ (fun _ _ _ => .rfl) h.timedOut
    · change ((s.mutexes m).lockCount+1) % 2^32 = 0 ↔ some t = none
      rw [Nat.mod_eq_of_lt small]
      simp
    · simp
    · exact h.nodup m
    · exact fun u hu => h.owner m u (owner.trans hu)
    · exact fun u => h.pended u m
  | @waits t m sooner o owner ne =>
    have hnot : t ∉ (s.mutexes m).waitQ := fun hmem =>
      absurd ha.1 (by simp [(h.pended t m).mpr hmem])
    refine h.update (by rw [pend_mutexes,boost_mutexes]) ?_ ?_ ?_ ?_ ?_ ?_ ?_
    · exact h.count m
    · simp [owner]
    · exact (WaitQueue.pend_perm ..).nodup_iff.mpr (nodup_cons.mpr ⟨hnot,h.nodup m⟩)
    · intro u hu
      obtain rfl : o = u := some.inj (owner.symm.trans hu)
      simpa [ne] using h.owner m o owner
    · intro u
      by_cases hut : u = t <;> simp [hut,h.pended]
    · intro u m' hm'
      by_cases hut : u = t
      · subst hut
        simp [hm'.symm,ha.1]
      · simp [hut]
    · intro u hu
      by_cases hut : u = t
      · subst hut
        simp [ha.2.1] at hu
      · simpa [hut] using h.timedOut u (by simpa using hu)
  | @shallower t m owner count =>
    refine h.update rfl ?_ ?_ ?_ ?_ ?_ (fun _ _ _ => .rfl) h.timedOut
    · have : (s.mutexes m).lockCount-1 ≠ 0 := by omega
      simp [this,owner]
    · simp [owner]
    · exact h.nodup m
    · exact h.owner m
    · exact fun u => h.pended u m
  | @released t m owner count waitQ =>
    refine h.update (by rw [setMutex_mutexes,adjustOwnerPrio_mutexes]) ?_ ?_ ?_ ?_ ?_ ?_ ?_
    · simp
    · exact fun _ => waitQ
    · exact h.nodup m
    · simp
    · simpa using fun u => h.pended u m
    · simp
    · simpa using h.timedOut
  | @handedOver t m n q owner count waitQ =>
    have hnodup := h.nodup m
    rw [waitQ,nodup_cons] at hnodup
    refine h.update (by rw [handOver_mutexes,adjustOwnerPrio_mutexes]) ?_ ?_ ?_ ?_ ?_ ?_ ?_
    · simp [count]
    · simp
    · exact hnodup.2
    · rintro u ⟨⟩
      exact hnodup.1
    · intro u
      by_cases hun : u = n
      · simp [hun,hnodup.1]
      · simp [hun,h.pended,waitQ]
    · intro u m' hm'
      by_cases hun : u = n
      · have : s.pendedOn n = some m := (h.pended n m).mpr (by simp [waitQ])
        simp [hun,this,hm'.symm]
      · simp [hun]
    · intro u hu
      by_cases hun : u = n
      · simp [hun]
      · simpa [hun] using h.timedOut u (by simpa using hu)
  | @expired t m pended =>
    refine h.update rfl ?_ ?_ ?_ ?_ ?_ ?_ ?_
    · exact h.count m
    · exact fun hnone => by simp [h.free m hnone]
    · exact (h.nodup m).erase t
    · exact fun u hu hmem => h.owner m u hu (mem_of_mem_erase hmem)
    · intro u
      by_cases hut : u = t
      · simp [hut,(h.nodup m).not_mem_erase]
      · simp [hut,h.pended,mem_erase_of_ne hut]
    · intro u m' hm'
      by_cases hut : u = t
      · simp [hut,pended,hm'.symm]
      · simp [hut]
    · intro u hu
      by_cases hut : u = t
      · simp [hut]
      · simpa [hut] using h.timedOut u (by simpa [hut] using hu)
  | @ended t m timedOut => exact h.lockEnd t m

end ArmFirmware.Zephyr.Mutex
