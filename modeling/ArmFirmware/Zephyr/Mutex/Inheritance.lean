import ArmFirmware.Zephyr.Mutex.Steps

/-! One mutex: its owner has the higher of its own priority and that of the best waiter, as far
as the ceiling lets it. The end of a lock that timed out uses another formula than the start, and
the two agree only for owners that are not above the ceiling themselves. -/
namespace ArmFirmware.Zephyr.Mutex
open Library State List Function Int8

/-- The higher of a priority and that of the best waiter, capped at the ceiling. -/
def inherited (ceiling base : ℤ) (waiters : List ℤ) : ℤ :=
  match waiters.min? with
  | none => base
  | some best => min base (max ceiling best)

lemma le_inherited_iff {ceiling base p : ℤ} {waiters : List ℤ} :
    p ≤ inherited ceiling base waiters ↔ p ≤ base ∧ ∀ w ∈ waiters, p ≤ max ceiling w := by
  unfold inherited
  cases h : waiters.min? with
  | none => simp [List.min?_eq_none_iff.mp h]
  | some best =>
    obtain ⟨hmem,hbest⟩ := List.min?_eq_some_iff.mp h
    rw [le_min_iff]
    refine and_congr_right fun _ => ⟨fun hp w hw => ?_,fun hp => hp best hmem⟩
    exact hp.trans (max_le_max_left ceiling (hbest w hw))

lemma inherited_congr {ceiling base : ℤ} {waiters waiters' : List ℤ} (h : ∀ w, w ∈ waiters ↔ w ∈ waiters') :
    inherited ceiling base waiters = inherited ceiling base waiters' := by
  refine eq_of_forall_le_iff fun p => ?_
  simp only [le_inherited_iff,h]

lemma inherited_cons (ceiling base w : ℤ) (waiters : List ℤ) :
    inherited ceiling base (w::waiters) = min (inherited ceiling base waiters) (max ceiling w) := by
  refine eq_of_forall_le_iff fun p => ?_
  rw [le_min_iff,le_inherited_iff,le_inherited_iff,forall_mem_cons]
  tauto

lemma inherited_eq_base {ceiling base : ℤ} {waiters : List ℤ} (h : ∀ w ∈ waiters, base ≤ w) :
    inherited ceiling base waiters = base := by
  refine eq_of_forall_le_iff fun p => ?_
  rw [le_inherited_iff]
  exact ⟨And.left,fun hp => ⟨hp,fun w hw => hp.trans ((h w hw).trans (le_max_right ..))⟩⟩

lemma newPrioForInheritance_eq (ceiling target limit : ℤ) :
    newPrioForInheritance ceiling target limit = max ceiling (min target limit) := by
  unfold newPrioForInheritance newPrioWithCeiling
  split_ifs <;> omega

lemma toInt_ofInt_between {x y : Int8} {p : ℤ} (hx : x.toInt ≤ p) (hy : p ≤ y.toInt) : (ofInt p).toInt = p := by
  have hlow := x.le_toInt
  have hhigh := y.toInt_lt
  exact toInt_ofInt_of_le (by omega) (by omega)

lemma toInt_ofInt_inherited {τ : Type*} (ceiling : ℤ) (b : Int8) (f : τ → Int8) (waiters : List τ) :
    (ofInt (inherited ceiling b.toInt (waiters.map fun t => (f t).toInt))).toInt =
      inherited ceiling b.toInt (waiters.map fun t => (f t).toInt) := by
  have hhigh := b.toInt_lt
  refine toInt_ofInt_of_le (le_inherited_iff.mpr ⟨b.le_toInt,?_⟩)
    ((le_inherited_iff.mp le_rfl).1.trans_lt hhigh)
  simp only [forall_mem_map]
  exact fun t _ => (f t).le_toInt.trans (le_max_right ..)

section Prio
variable {μ τ : Type*} [DecidableEq τ] (s : State μ τ) (ceiling : ℤ) (t o : τ)

lemma boost_owner : ((s.boost ceiling t o).prio o).toInt = min (s.prio o).toInt (max ceiling (s.prio t).toInt) := by
  unfold boost
  dsimp only
  rw [newPrioForInheritance_eq]
  split_ifs with h
  · rw [adjustOwnerPrio_prio,update_self]
    rcases le_total (s.prio t).toInt (s.prio o).toInt with hle | hle
    · rw [toInt_ofInt_between (x := s.prio t) (y := s.prio o) (by omega) (by omega)]
      omega
    · omega
  · omega

lemma boost_other {u : τ} (hu : u ≠ o) : (s.boost ceiling t o).prio u = s.prio u := by
  unfold boost
  dsimp only
  split_ifs
  · rw [adjustOwnerPrio_prio,update_of_ne hu]
  · rfl

end Prio

variable {τ : Type*} [DecidableEq τ] {ceiling : ℤ} {base : τ → Int8}

/-- A lock that timed out ends while nobody else waits, or with an owner whose own priority is not
above the ceiling. -/
def CeilingOk {μ : Type*} (ceiling : ℤ) (s : State μ τ) : Action μ τ → Prop
  | .lockEnd t => ∀ m ∈ s.timedOut t, (s.mutexes m).waitQ ≠ [] →
      ceiling ≤ (s.mutexes m).ownerOrigPrio.toInt
  | _ => True

instance {μ : Type*} (s : State μ τ) (a : Action μ τ) : Decidable (CeilingOk ceiling s a) := by
  unfold CeilingOk
  split <;> infer_instance

/-- The priorities while one mutex is in use. Threads whose lock has timed out may still lend
their priority, until their call ends. -/
structure Inherits (ceiling : ℤ) (base : τ → Int8) (s : State Unit τ) : Prop where
  others (t : τ) : (s.mutexes ()).owner ≠ some t → s.prio t = base t
  owner (o : τ) : (s.mutexes ()).owner = some o → (∀ t, s.timedOut t = none) →
    (s.prio o).toInt = inherited ceiling (base o).toInt
      ((s.mutexes ()).waitQ.map fun t => (s.prio t).toInt)
  leaving (o : τ) : (s.mutexes ()).owner = some o → ∃ lenders : List τ,
    (∀ t ∈ lenders, s.timedOut t ≠ none) ∧ (s.prio o).toInt = inherited ceiling (base o).toInt
      (((s.mutexes ()).waitQ++lenders).map fun t => (base t).toInt)

/-- What the code relies on: the recorded priority is the owner's own, and the queue is in order. -/
structure Lends (ceiling : ℤ) (base : τ → Int8) (s : State Unit τ) : Prop where
  others (t : τ) : (s.mutexes ()).owner ≠ some t → s.prio t = base t
  orig (o : τ) : (s.mutexes ()).owner = some o → (s.mutexes ()).ownerOrigPrio = base o
  sorted : (s.mutexes ()).waitQ.Pairwise fun u v => (base u).toInt ≤ (base v).toInt
  leaving (o : τ) : (s.mutexes ()).owner = some o → ∃ lenders : List τ,
    (∀ t ∈ lenders, s.timedOut t ≠ none) ∧ (s.prio o).toInt = inherited ceiling (base o).toInt
      (((s.mutexes ()).waitQ++lenders).map fun t => (base t).toInt)

variable {s s' : State Unit τ} {a : Action Unit τ} {r : Reply τ}

section
variable (h : Lends ceiling base s)
include h

omit [DecidableEq τ] in
lemma Lends.inherits (hwf : Wf s) : Inherits ceiling base s := by
  refine ⟨h.others,fun o ho hnone => ?_,h.leaving⟩
  obtain ⟨lenders,hlenders,hprio⟩ := h.leaving o ho
  obtain rfl : lenders = [] := eq_nil_iff_forall_not_mem.mpr fun t ht => hlenders t ht (hnone t)
  rw [hprio,append_nil]
  congr 1
  refine map_congr_left fun t ht => ?_
  have hne : (s.mutexes ()).owner ≠ some t := fun hot => hwf.owner () t hot ht
  rw [h.others t hne]

omit [DecidableEq τ] in
/-- The formula for the end of a lock gives what is inherited from those who still wait. -/
lemma Lends.lowered_eq (hwf : Wf s) {o : τ} (ho : (s.mutexes ()).owner = some o)
    (hcap : (s.mutexes ()).waitQ ≠ [] → ceiling ≤ (s.mutexes ()).ownerOrigPrio.toInt) :
    s.lowered ceiling () = inherited ceiling (base o).toInt ((s.mutexes ()).waitQ.map fun t => (base t).toInt) := by
  have horig := h.orig o ho
  have hsorted := h.sorted
  unfold lowered
  dsimp only
  cases hq : (s.mutexes ()).waitQ with
  | nil => simp [inherited,horig]
  | cons w q =>
    have hw := h.others w fun how => hwf.owner () w how (by simp [hq])
    have hcap' := horig ▸ hcap (by simp [hq])
    rw [hq,pairwise_cons] at hsorted
    dsimp only
    rw [newPrioForInheritance_eq,horig,hw]
    refine eq_of_forall_le_iff fun p => ?_
    rw [le_inherited_iff]
    simp only [map_cons,forall_mem_cons,forall_mem_map]
    constructor
    · intro hp
      exact ⟨by omega,by omega,fun v hv => by have := hsorted.1 v hv; omega⟩
    · rintro ⟨hb,hpw,-⟩
      omega

/-- A lock that times out takes its priority back. -/
lemma Lends.lockEnd (hwf : Wf s) (t : τ)
    (hcap : (s.mutexes ()).waitQ ≠ [] → ceiling ≤ (s.mutexes ()).ownerOrigPrio.toInt) :
    Lends ceiling base (s.kMutexLockEnd ceiling t ()) := by
  unfold kMutexLockEnd
  dsimp only
  cases ho : (s.mutexes ()).owner with
  | none => exact ⟨h.others,h.orig,h.sorted,fun o ho' => absurd (ho.symm.trans ho') (by simp)⟩
  | some o =>
    have hlow : State.lowered {s with timedOut := update s.timedOut t none} ceiling () =
        inherited ceiling (base o).toInt ((s.mutexes ()).waitQ.map fun t => (base t).toInt) :=
      h.lowered_eq hwf ho hcap
    rw [hlow]
    refine ⟨fun u hu => ?_,?_,?_,fun u hu => ⟨[],by simp,?_⟩⟩
    · rw [adjustOwnerPrio_mutexes] at hu
      have huo : u ≠ o := fun huo => hu (huo ▸ ho)
      rw [adjustOwnerPrio_prio,update_of_ne huo]
      exact h.others u hu
    · simpa using h.orig
    · simpa using h.sorted
    · rw [adjustOwnerPrio_mutexes] at hu
      obtain rfl : o = u := Option.some.inj (ho.symm.trans hu)
      rw [adjustOwnerPrio_prio,update_self,adjustOwnerPrio_mutexes,append_nil]
      exact toInt_ofInt_inherited ceiling (base o) (fun t => base t) _

/-- A thread that waits lends its priority to the owner. -/
lemma Lends.waits (hwf : Wf s) {t o : τ} (sooner : τ → Bool) (ho : (s.mutexes ()).owner = some o) (hot : o ≠ t) :
    Lends ceiling base ((s.boost ceiling t o).pend t () sooner) := by
  have ht := h.others t fun hot' => hot (Option.some.inj (ho.symm.trans hot'))
  have hwaiter : ∀ u ∈ (s.mutexes ()).waitQ, (s.boost ceiling t o).prio u = base u := by
    intro u hu
    have huo : u ≠ o := fun huo => hwf.owner () o ho (huo ▸ hu)
    rw [boost_other _ _ _ _ huo]
    exact h.others u fun hou => huo (Option.some.inj (hou.symm.trans ho))
  refine ⟨fun u hu => ?_,?_,?_,?_⟩
  · have huo : u ≠ o := by
      rintro rfl
      simp [ho] at hu
    rw [pend_prio,boost_other _ _ _ _ huo]
    exact h.others u fun hou => huo (Option.some.inj (hou.symm.trans ho))
  · simpa using h.orig
  · rw [pend_mutexes,update_self,boost_mutexes]
    refine WaitQueue.pend_pairwise (fun huv hvw => huv.trans hvw) h.sorted (fun u hu hout => ?_)
      fun u hu hout => ?_
    · rw [outranks,boost_other _ _ _ _ hot.symm,hwaiter u hu,ht] at hout
      rcases Bool.or_eq_true_iff.mp hout with hlt | heq
      · exact (of_decide_eq_true hlt).le
      · obtain ⟨heq,-⟩ := Bool.and_eq_true_iff.mp heq
        rw [beq_iff_eq.mp heq]
    · rw [outranks,boost_other _ _ _ _ hot.symm,hwaiter u hu,ht] at hout
      obtain ⟨hlt,-⟩ := Bool.or_eq_false_iff.mp hout
      exact not_lt.mp (of_decide_eq_false hlt)
  · intro u hu
    obtain rfl : o = u := by
      have : (s.mutexes ()).owner = some u := by simpa using hu
      exact Option.some.inj (ho.symm.trans this)
    obtain ⟨lenders,hlenders,hprio⟩ := h.leaving o ho
    refine ⟨lenders,by simpa using hlenders,?_⟩
    rw [pend_prio,boost_owner,hprio,ht,←inherited_cons]
    refine inherited_congr fun w => ?_
    simp only [pend_mutexes,update_self,boost_mutexes,mem_cons,mem_map,mem_append,WaitQueue.mem_pend]
    constructor
    · rintro (rfl | ⟨v,hv,rfl⟩)
      · exact ⟨t,.inl (.inl rfl),rfl⟩
      · exact ⟨v,hv.imp_left .inr,rfl⟩
    · rintro ⟨v,(rfl | hv) | hv,rfl⟩
      · exact .inl rfl
      · exact .inr ⟨v,.inl hv,rfl⟩
      · exact .inr ⟨v,.inr hv,rfl⟩

lemma Lends.expired {t : τ} (ht : t ∈ (s.mutexes ()).waitQ) : Lends ceiling base (s.expire t ()) := by
  refine ⟨?_,?_,?_,fun o ho => ?_⟩
  · simpa using h.others
  · simpa using h.orig
  · rw [expire_mutexes,update_self]
    exact h.sorted.sublist (erase_sublist ..)
  · obtain ⟨lenders,hlenders,hprio⟩ := h.leaving o (by simpa using ho)
    refine ⟨t::lenders,fun u hu => ?_,?_⟩
    · by_cases hut : u = t
      · simp [hut]
      · simpa [hut] using hlenders u ((mem_cons.mp hu).resolve_left hut)
    · rw [expire_prio,hprio]
      refine inherited_congr fun w => ?_
      have hperm := perm_cons_erase ht
      rw [expire_mutexes,update_self]
      refine List.Perm.mem_iff (List.Perm.map _ ?_)
      calc (s.mutexes ()).waitQ++lenders
        List.Perm _ (t::(s.mutexes ()).waitQ.erase t++lenders) := hperm.append_right lenders
        List.Perm _ ((s.mutexes ()).waitQ.erase t++t::lenders) := perm_middle.symm

/-- Every outcome keeps the priorities lent. -/
lemma Outcome.lends (hwf : Wf s) (hcap : CeilingOk ceiling s a)
    (ho : Outcome ceiling s a s' r) : Lends ceiling base s' := by
  cases ho with
  | busy | stray => exact h
  | @taken t _ _ _ count owner waitQ =>
    have ht := h.others t (by simp [owner])
    refine ⟨fun u _ => h.others u (by simp [owner]),?_,?_,?_⟩
    · rintro u hu
      obtain rfl : t = u := by simpa using hu
      simpa [count] using ht
    · simp [waitQ]
    · intro u hu
      obtain rfl : t = u := by simpa using hu
      exact ⟨[],by simp,by simp [waitQ,inherited,ht]⟩
  | @deeper t m _ _ owner count small =>
    have howner : ∀ u, ((s.take t ()).mutexes ()).owner = some u → (s.mutexes ()).owner = some u := by
      intro u hu
      rw [←hu]
      simpa using owner
    refine ⟨fun u hu => h.others u (by simpa [owner] using hu),?_,?_,fun u hu => ?_⟩
    · intro u hu
      simpa [count] using h.orig u (howner u hu)
    · simpa using h.sorted
    · simpa using h.leaving u (howner u hu)
  | @waits t m sooner o owner ne => exact h.waits hwf sooner owner ne
  | @shallower t m owner count =>
    refine ⟨?_,?_,?_,?_⟩
    · simpa using h.others
    · simpa using h.orig
    · simpa using h.sorted
    · simpa using h.leaving
  | @released t m owner count waitQ =>
    refine ⟨fun u _ => ?_,by simp,by simp [waitQ],by simp⟩
    rw [setMutex_prio,adjustOwnerPrio_prio,ofInt_toInt,h.orig t owner]
    by_cases hut : u = t
    · rw [hut,update_self]
    · rw [update_of_ne hut]
      exact h.others u fun hou => hut (Option.some.inj (hou.symm.trans owner))
  | @handedOver t m n q owner count waitQ =>
    have hall : ∀ u, (s.adjustOwnerPrio t (s.mutexes ()).ownerOrigPrio.toInt).prio u = base u := by
      intro u
      rw [adjustOwnerPrio_prio,ofInt_toInt,h.orig t owner]
      by_cases hut : u = t
      · rw [hut,update_self]
      · rw [update_of_ne hut]
        exact h.others u fun hou => hut (Option.some.inj (hou.symm.trans owner))
    have hsorted := h.sorted
    rw [waitQ,pairwise_cons] at hsorted
    refine ⟨fun u _ => hall u,?_,?_,?_⟩
    · intro u hu
      obtain rfl : n = u := by simpa using hu
      simpa using hall n
    · simpa using hsorted.2
    · intro u hu
      obtain rfl : n = u := by simpa using hu
      refine ⟨[],by simp,?_⟩
      rw [handOver_prio,hall n,inherited_eq_base]
      simpa using hsorted.1
  | @expired t m pended => exact h.expired ((hwf.pended t ()).mp pended)
  | @ended t m timedOut => exact h.lockEnd hwf t (hcap () timedOut)

end

/-- In every run on one mutex in which locks that time out end under an owner that is not above
the ceiling, the owner has the higher of its own priority and that of the best waiter, capped at
the ceiling, and every other thread has its own priority. -/
theorem runs_inherit_priority (ceiling : ℤ) (base : τ → Int8) {is : List (Action Unit τ)}
    (h : Along (fun s a => Meets s a ∧ CeilingOk ceiling s a) (step ceiling) (init base) is) :
    ∃ s os, serve? (step ceiling) (init base) is = some (s,os) ∧ Inherits ceiling base s := by
  have hinit : Wf (init base : State Unit τ) ∧ Lends ceiling base (init base) := by
    refine ⟨init_wf base,fun _ _ => rfl,?_,.nil,?_⟩
    · simp [init]
    · simp [init]
  obtain ⟨s,os,hserve,-,hwf,hlends⟩ := Trace.of_along
    (I := fun s => Wf s ∧ Lends ceiling base s) (fun s a hs ha => by
      obtain ⟨s',r,hstep,hout⟩ := step_outcome ceiling hs.1 ha.1
      exact ⟨s',r,hstep,hout.wf hs.1 ha.1,hout.lends hs.2 hs.1 ha.2⟩) hinit h
  exact ⟨s,os,hserve,hlends.inherits hwf⟩

def lockedTwice : List (Action Unit (Fin 3)) :=
  [.lock 0 () true fun _ => false,.lock 0 () true fun _ => false,.lock 1 () true fun _ => false,
    .lock 2 () true fun _ => false,.timeout 2,.lockEnd 2,.unlock 0 (),.unlock 0 ()]

theorem runs_inherit_priority_lockedTwice :
    ∃ s os, serve? (step (-127)) (init ![5,3,1]) lockedTwice = some (s,os) ∧
      Inherits (-127) ![5,3,1] s :=
  runs_inherit_priority (-127) ![5,3,1] (by decide +kernel)

def oneTimesOut : List (Action Unit (Fin 3)) :=
  [.lock 0 () true fun _ => false,.lock 1 () true fun _ => false,.lock 2 () true fun _ => false,
    .timeout 1,.lockEnd 1]

/-- With a ceiling of 2 an owner with priority 1 is lowered to 2 by the end of a lock that timed
out. Without such an owner, a thread that no longer waits lends its priority until its call ends. -/
theorem timed_out_lock_lowers_owner :
    (Along Meets (step 2) (init ![1,5,6]) oneTimesOut ∧
      ∃ s os, serve? (step 2) (init ![1,5,6]) oneTimesOut = some (s,os) ∧
        (s.mutexes ()).owner = some 0 ∧ (s.mutexes ()).waitQ = [2] ∧ s.prio 0 = 2) ∧
    Along Meets (step (-127)) (init ![5,3,6]) (oneTimesOut.take 4) ∧
      ∃ s os, serve? (step (-127)) (init ![5,3,6]) (oneTimesOut.take 4) = some (s,os) ∧
        (s.mutexes ()).owner = some 0 ∧ (s.mutexes ()).waitQ = [2] ∧ s.prio 0 = 3 :=
  ⟨⟨by decide +kernel,_,_,rfl,by decide +kernel⟩,by decide +kernel,_,_,rfl,by decide +kernel⟩

end ArmFirmware.Zephyr.Mutex
