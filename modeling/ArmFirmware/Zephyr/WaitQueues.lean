import ArmFirmware.Zephyr.PriorityQueue
import ArmFirmware.Zephyr.RedBlackTree.Frame

/-! The wait queues of `kernel/sched.c`, lists or red-black trees, and priority changes of threads
that may be pended. The nodes and the keys of the trees are in the threads; those of threads that
are not pended belong to the run queue. -/
namespace ArmFirmware.Zephyr.WaitQueues
open Library RedBlackTree PriorityQueue Function

/-- `_wait_q_t`: CONFIG_WAITQ_DUMB or CONFIG_WAITQ_SCALABLE. -/
inductive WaitQ (τ : Type*)
  | dumb (waitq : List τ)
  | scalable (waitq : PriqRb τ)

def WaitQ.isScalable {τ : Type*} : WaitQ τ → Bool
  | .dumb _ => false
  | .scalable _ => true

/-- Threads and wait queues. -/
structure State (κ τ : Type*) where
  threads : τ → ThreadBase
  /-- `qnode_rb`. -/
  nodes : τ → Rbnode τ
  waitQ : κ → WaitQ τ
  pendedOn : τ → Option κ

inductive Action (κ τ : Type*)
  /-- `add_to_waitq_locked`. -/
  | pend (thread : τ) (waitQ : κ)
  /-- `z_unpend_first_thread`. -/
  | unpendFirst (waitQ : κ)
  /-- `unpend_thread_no_timeout`, by a timeout or by whoever wakes that thread. -/
  | unpend (thread : τ)
  /-- `z_thread_prio_set`, for `k_thread_priority_set` and for the owner of a mutex. -/
  | prioSet (thread : τ) (prio : Int8)
  /-- `k_thread_deadline_set`. -/
  | deadlineSet (thread : τ) (deadline : UInt32)
  /-- The run queue uses the node and the key of a thread. -/
  | runq (thread : τ) (orderKey : UInt32) (node : Rbnode τ)

section Steps
variable {κ τ : Type*} [DecidableEq κ] [DecidableEq τ] (schedDeadline : Bool)

def init (scalable : Bool) (threads : τ → ThreadBase) (nodes : τ → Rbnode τ) : State κ τ :=
  ⟨threads,nodes,fun _ => if scalable then .scalable ⟨none,0,0⟩ else .dumb [],fun _ => none⟩

namespace State
variable (s : State κ τ)

/-- A red-black wait queue with the threads. -/
def view (pq : PriqRb τ) : PriorityQueue.State τ := ⟨s.threads,s.nodes,pq⟩

/-- The threads and a red-black wait queue after an operation on it. -/
def put (c : κ) (r : PriorityQueue.State τ) : State κ τ :=
  {s with threads := r.threads, nodes := r.nodes, waitQ := update s.waitQ c (.scalable r.priq)}

def priqWaitAdd (c : κ) (t : τ) : Option (State κ τ) :=
  match s.waitQ c with
  | .dumb q => some {s with
      waitQ := update s.waitQ c (.dumb (zPriqDumbAdd schedDeadline s.threads q t))}
  | .scalable pq => (zPriqRbAdd schedDeadline (s.view pq) t).map (s.put c)

def priqWaitRemove (c : κ) (t : τ) : Option (State κ τ) :=
  match s.waitQ c with
  | .dumb q => some {s with waitQ := update s.waitQ c (.dumb (zPriqDumbRemove q t))}
  | .scalable pq => (zPriqRbRemove schedDeadline (s.view pq) t).map (s.put c)

def priqWaitBest (c : κ) : Option (Option τ) :=
  match s.waitQ c with
  | .dumb q => some (zPriqDumbBest q)
  | .scalable pq => zPriqRbBest schedDeadline (s.view pq)

def addToWaitq (t : τ) (c : κ) : Option (State κ τ) :=
  State.priqWaitAdd schedDeadline {s with pendedOn := update s.pendedOn t (some c)} c t

/-- Null pointers end the run, as the assertion of `pended_on_thread` does. -/
def unpendThreadNoTimeout (t : τ) : Option (State κ τ) :=
  (s.pendedOn t).bind fun c => (s.priqWaitRemove schedDeadline c t).map fun s =>
    {s with pendedOn := update s.pendedOn t none}

def zUnpendFirstThread (c : κ) : Option (State κ τ × Option τ) :=
  (s.priqWaitBest schedDeadline c).bind fun
    | none => some (s,none)
    | some t => (s.unpendThreadNoTimeout schedDeadline t).map (·,some t)

/-- Only a thread that is ready is requeued, and that in the run queue. -/
def setBase (t : τ) (base : ThreadBase) : State κ τ :=
  {s with threads := update s.threads t base}

end State

def step (s : State κ τ) : Action κ τ → Option (State κ τ × Option τ)
  | .pend t c => (s.addToWaitq schedDeadline t c).map (·,none)
  | .unpendFirst c => s.zUnpendFirstThread schedDeadline c
  | .unpend t => (s.unpendThreadNoTimeout schedDeadline t).map (·,none)
  | .prioSet t prio => some (s.setBase t {s.threads t with prio},none)
  | .deadlineSet t prioDeadline => some (s.setBase t {s.threads t with prioDeadline},none)
  | .runq t orderKey node =>
    some ({s with threads := update s.threads t {s.threads t with orderKey}
                  nodes := setNode s.nodes t fun _ => node},none)

/-- The threads pended on each queue in order of arrival. -/
def arrivals (q : κ → List τ) (_ _ : State κ τ) : Action κ τ → Option τ → κ → List τ
  | .pend t c,_ => update q c (q c++[t])
  | .unpendFirst c,some t => update q c ((q c).erase t)
  | .unpend t,_ => fun c => (q c).erase t
  | _,_ => q

/-- Threads pend when they are not pended, with deadlines in the same half as the others'; only
pended ones are unpended, and the run queue has only those that are not. -/
def Meets (s : State κ τ) (q : κ → List τ) : Action κ τ → Prop
  | .pend t c => s.pendedOn t = none ∧ SameHalf schedDeadline s.threads (t::q c)
  | .unpend t => s.pendedOn t ≠ none
  | .runq t _ _ => s.pendedOn t = none
  | _ => True

/-- Neither the turn of a thread nor, in a tree, its comparisons with the other threads of the queue
change. -/
def SamePlace (w : WaitQ τ) (q : List τ) (threads threads' : τ → ThreadBase) (t : τ) : Prop :=
  SameHalf schedDeadline threads' q ∧ ∀ u ∈ q, u ≠ t →
    (Precedes schedDeadline threads' q t u ↔ Precedes schedDeadline threads q t u) ∧
    (Precedes schedDeadline threads' q u t ↔ Precedes schedDeadline threads q u t) ∧
    (w.isScalable = true →
      zPriqRbLessthan schedDeadline threads' t u = zPriqRbLessthan schedDeadline threads t u ∧
      zPriqRbLessthan schedDeadline threads' u t = zPriqRbLessthan schedDeadline threads u t)

/-- With the change the thread stays where it is in its queue. -/
def KeepsPlace (s : State κ τ) (q : κ → List τ) (t : τ) (base : ThreadBase) : Prop :=
  match s.pendedOn t with
  | none => True
  | some c => SamePlace schedDeadline (s.waitQ c) (q c) s.threads (update s.threads t base) t

/-- Changes of a pended thread leave it in its place, and trees have keys for their threads. -/
def Careful (s : State κ τ) (q : κ → List τ) : Action κ τ → Prop
  | .pend t c =>
    match s.waitQ c with
    | .dumb _ => True
    | .scalable pq => Numbers schedDeadline (s.view pq) (q c) (.add t)
  | .prioSet t prio => KeepsPlace schedDeadline s q t {s.threads t with prio}
  | .deadlineSet t prioDeadline => KeepsPlace schedDeadline s q t {s.threads t with prioDeadline}
  | _ => True

instance (s : State κ τ) (q : κ → List τ) (a : Action κ τ) : Decidable (Meets schedDeadline s q a) := by
  unfold Meets
  split <;> infer_instance

instance (threads : τ → ThreadBase) (q : List τ) (a b : τ) : Decidable (Precedes schedDeadline threads q a b) :=
  inferInstanceAs (Decidable (_ ∨ _))

instance (w : WaitQ τ) (q : List τ) (threads threads' : τ → ThreadBase) (t : τ) :
    Decidable (SamePlace schedDeadline w q threads threads' t) :=
  inferInstanceAs (Decidable (_ ∧ ∀ u ∈ q, u ≠ t → _ ∧ _ ∧ (_ → _ ∧ _)))

instance (s : State κ τ) (q : κ → List τ) (t : τ) (base : ThreadBase) :
    Decidable (KeepsPlace schedDeadline s q t base) :=
  match h : s.pendedOn t with
  | none => isTrue (by simp [KeepsPlace,h])
  | some c => decidable_of_iff
      (SamePlace schedDeadline (s.waitQ c) (q c) s.threads (update s.threads t base) t)
      (by simp [KeepsPlace,h])

instance (s : State κ τ) (q : κ → List τ) (a : Action κ τ) : Decidable (Careful schedDeadline s q a) :=
  match a with
  | .pend t c =>
    match h : s.waitQ c with
    | .dumb _ => isTrue (by simp [Careful,h])
    | .scalable pq => decidable_of_iff (Numbers schedDeadline (s.view pq) (q c) (.add t)) (by simp [Careful,h])
  | .prioSet t prio =>
    inferInstanceAs (Decidable (KeepsPlace schedDeadline s q t {s.threads t with prio}))
  | .deadlineSet t prioDeadline =>
    inferInstanceAs (Decidable (KeepsPlace schedDeadline s q t {s.threads t with prioDeadline}))
  | .unpendFirst _ | .unpend _ | .runq _ _ _ => isTrue trivial

end Steps

/-! Runs of wait queues. They stay in order as long as priority changes leave pended threads in their
places. -/

open Library.WaitQueue Library.RedBlack List Option State List.Pairwise
open RedBlackTree PriorityQueue

section Queues
variable {τ : Type*} [DecidableEq τ] {schedDeadline : Bool} {threads threads' : τ → ThreadBase}
  {nodes nodes' : τ → Rbnode τ} {w : WaitQ τ} {q : List τ} {t : τ} {base : ThreadBase}

/-- A wait queue holds the threads that have arrived in the order of their turns. -/
def QueueGood (schedDeadline : Bool) (threads : τ → ThreadBase) (nodes : τ → Rbnode τ) (w : WaitQ τ)
    (q : List τ) : Prop :=
  match w with
  | .dumb l => l.Perm q ∧ q.Nodup ∧ SameHalf schedDeadline threads q ∧
      l.Pairwise (Precedes schedDeadline threads q)
  | .scalable pq => ∃ T, PriorityQueue.Good schedDeadline ⟨threads,nodes,pq⟩ q T

omit [DecidableEq τ] in
lemma Precedes.congr {a b : τ} (ha : threads' a = threads a) (hb : threads' b = threads b)
    (h : Precedes schedDeadline threads q a b) : Precedes schedDeadline threads' q a b := by
  rwa [Precedes,ha,hb]

lemma QueueGood.congr (h : QueueGood schedDeadline threads nodes w q)
    (hthreads : ∀ u ∈ q, threads' u = threads u) (hnodes : ∀ u ∈ q, nodes' u = nodes u) :
    QueueGood schedDeadline threads' nodes' w q := by
  cases w with
  | dumb l =>
    obtain ⟨hperm,hnodup,hhalf,horder⟩ := h
    refine ⟨hperm,hnodup,hhalf.congr hthreads,?_⟩
    exact imp_of_mem (fun ha hb => Precedes.congr (hthreads _ (hperm.mem_iff.mp ha))
      (hthreads _ (hperm.mem_iff.mp hb))) horder
  | scalable pq =>
    obtain ⟨T,⟨hroot,⟨hlinked,hnodup⟩,hrb,hheight⟩,hperm,hhalf,hkeys,horder⟩ := h
    refine ⟨T,⟨hroot,⟨?_,hnodup⟩,hrb,hheight⟩,hperm,hhalf.congr hthreads,hkeys.congr hthreads,?_⟩
    · exact hlinked.congr fun z hz => hnodes z (hperm.mem_iff.mp hz)
    · exact imp_of_mem (fun ha hb => Precedes.congr (hthreads _ (hperm.mem_iff.mp ha))
        (hthreads _ (hperm.mem_iff.mp hb))) horder

lemma QueueGood.nodup (h : QueueGood schedDeadline threads nodes w q) : q.Nodup := by
  cases w with
  | dumb l => exact h.2.1
  | scalable pq =>
    obtain ⟨T,hT⟩ := h
    exact hT.nodup

omit [DecidableEq τ] in
lemma dumbAdd_spec {l : List τ} (hperm : l.Perm q) (hhalf : SameHalf schedDeadline threads (t::q))
    (horder : l.Pairwise (Precedes schedDeadline threads q)) :
    (zPriqDumbAdd schedDeadline threads l t).Pairwise (Precedes schedDeadline threads (q++[t])) := by
  obtain ⟨rank,hrank⟩ := exists_rank hhalf
  have hmem : ∀ u ∈ l, u ∈ t::q := fun u hu => mem_cons_of_mem _ (hperm.mem_iff.mp hu)
  have ht : t ∈ t::q := mem_cons_self ..
  refine pend_pairwise_of_mem (horder.imp fun h => h.mono fun he => earlier_append.mpr (.inl he))
    (fun u hu hout => ?_) fun u hu hout => ?_
  · have htu := decide_eq_true_eq.mp hout
    refine ⟨.inl htu,fun v hv huv => .inl ?_⟩
    have htu' := (hrank t ht u (hmem u hu)).1.mp htu
    rw [(hrank t ht v (hmem v hv)).1]
    rcases huv with huv | ⟨huv,-⟩
    · exact htu'.trans ((hrank u (hmem u hu) v (hmem v hv)).1.mp huv)
    · exact htu'.trans_eq ((hrank u (hmem u hu) v (hmem v hv)).2.mp huv)
  · have hnot : ¬0 < zSchedPrioCmp schedDeadline (threads t) (threads u) := by simpa using hout
    rw [(hrank t ht u (hmem u hu)).1,not_lt] at hnot
    rcases hnot.lt_or_eq with hlt | heq
    · exact .inl ((hrank u (hmem u hu) t ht).1.mpr hlt)
    · exact .inr ⟨(hrank u (hmem u hu) t ht).2.mpr heq,earlier_append.mpr (.inr ⟨hperm.mem_iff.mp hu,rfl⟩)⟩

lemma SamePlace.precedes {a b : τ}
    (h : SamePlace schedDeadline w q threads (update threads t base) t) (ha : a ∈ q) (hb : b ∈ q)
    (hab : a ≠ b) : Precedes schedDeadline (update threads t base) q a b ↔
      Precedes schedDeadline threads q a b := by
  by_cases hat : a = t
  · subst hat
    exact (h.2 b hb (Ne.symm hab)).1
  · by_cases hbt : b = t
    · subst hbt
      exact (h.2 a ha hab).2.1
    · rw [Precedes,Precedes,update_of_ne hat,update_of_ne hbt]

lemma SamePlace.lessthan {a b : τ} (h : SamePlace schedDeadline w q threads (update threads t base) t)
    (hw : w.isScalable = true) (ha : a ∈ q) (hb : b ∈ q) (hab : a ≠ b) :
    zPriqRbLessthan schedDeadline (update threads t base) a b = zPriqRbLessthan schedDeadline threads a b := by
  by_cases hat : a = t
  · subst hat
    exact ((h.2 b hb (Ne.symm hab)).2.2 hw).1
  · by_cases hbt : b = t
    · subst hbt
      exact ((h.2 a ha hab).2.2 hw).2
    · rw [zPriqRbLessthan,zPriqRbLessthan,update_of_ne hat,update_of_ne hbt]

lemma QueueGood.change (h : QueueGood schedDeadline threads nodes w q)
    (hplace : SamePlace schedDeadline w q threads (update threads t base) t) :
    QueueGood schedDeadline (update threads t base) nodes w q := by
  cases w with
  | dumb l =>
    obtain ⟨hperm,hnodup,-,horder⟩ := h
    refine ⟨hperm,hnodup,hplace.1,?_⟩
    have hne := hperm.nodup_iff.mpr hnodup
    refine imp_of_mem (fun {a b} ha hb hab => ?_) (horder.and hne)
    exact (hplace.precedes (hperm.mem_iff.mp ha) (hperm.mem_iff.mp hb) hab.2).mpr hab.1
  | scalable pq =>
    obtain ⟨T,hT⟩ := h
    have hne := hT.nodup
    have hne' := hT.holds.inMemory.nodup
    refine ⟨T,⟨hT.holds.root,hT.holds.inMemory,hT.holds.rb,hT.holds.height_le⟩,hT.perm,hplace.1,?_,?_⟩
    · -- equal threads have been compared by their keys before, or have become equal in their places
      refine pairwise_iff_earlier.mpr fun a b hab hzero => ?_
      obtain ⟨ha,hb⟩ := hab.mem
      have hdiff := pairwise_iff_earlier.mp hne a b hab
      have hprec := (hplace.precedes ha hb hdiff).mp (.inr ⟨hzero,hab⟩)
      have hlt := (hT.keys.lessthan_iff ha hb).mpr hprec
      rw [← hplace.lessthan rfl ha hb hdiff,zPriqRbLessthan,hzero] at hlt
      simpa [UInt32.lt_iff_toNat_lt] using hlt
    · refine imp_of_mem (fun {a b} ha hb hab => ?_) (hT.order.and hne')
      exact (hplace.precedes (hT.perm.mem_iff.mp ha) (hT.perm.mem_iff.mp hb) hab.2).mpr hab.1

variable {s s' : PriorityQueue.State τ} {T : ColorTree τ} {u : τ}

lemma zPriqRbAdd_outside (h : Holds (s.tree schedDeadline) T) (he : zPriqRbAdd schedDeadline s t = some s')
    (hu : u ∉ T.inorder) (hut : u ≠ t) : s'.threads u = s.threads u ∧ s'.nodes u = s.nodes u := by
  simp only [zPriqRbAdd,bind_eq_bind,bind_eq_some_iff] at he
  obtain ⟨⟨threads,key⟩,hkey,tree,htree,he⟩ := he
  cases he
  have h' : Holds (PriorityQueue.State.tree schedDeadline {s with threads}) T := { h with }
  refine ⟨?_,rbInsert_outside h' htree hu hut⟩
  rw [takeOrderKey_eq h] at hkey
  split_ifs at hkey
  · cases hkey
    simp [numbered,hu,hut]
  · cases hkey
    exact update_of_ne hut ..

lemma zPriqRbRemove_outside (h : Holds (s.tree schedDeadline) T) (ht : t ∈ T.inorder)
    (he : zPriqRbRemove schedDeadline s t = some s') (hu : u ∉ T.inorder) :
    s'.threads u = s.threads u ∧ s'.nodes u = s.nodes u := by
  simp only [zPriqRbRemove,bind_eq_bind,bind_eq_some_iff] at he
  obtain ⟨tree,htree,he⟩ := he
  cases he
  exact ⟨rfl,rbRemove_outside h ht htree hu⟩

end Queues

section States
variable {κ τ : Type*} [DecidableEq κ] [DecidableEq τ] {schedDeadline : Bool} {s s' : State κ τ}
  {c : κ} {t : τ} {q : List τ}

/-- What an operation on one queue may change: that queue and the given threads. -/
structure Touches (s s' : State κ τ) (c : κ) (l : List τ) : Prop where
  others : ∀ c', c' ≠ c → s'.waitQ c' = s.waitQ c'
  pendedOn : s'.pendedOn = s.pendedOn
  threads : ∀ u, u ∉ l → s'.threads u = s.threads u
  nodes : ∀ u, u ∉ l → s'.nodes u = s.nodes u

section
variable (h : QueueGood schedDeadline s.threads s.nodes (s.waitQ c) q)
include h

/-- A thread is added to a queue. -/
lemma priqWaitAdd_spec (ht : t ∉ q) (hhalf : SameHalf schedDeadline s.threads (t::q))
    (hnumbers : ∀ pq, s.waitQ c = .scalable pq → Numbers schedDeadline (s.view pq) q (.add t)) :
    ∃ s', s.priqWaitAdd schedDeadline c t = some s' ∧ Touches s s' c (t::q) ∧
      QueueGood schedDeadline s'.threads s'.nodes (s'.waitQ c) (q++[t]) := by
  unfold priqWaitAdd
  cases hw : s.waitQ c with
  | dumb l =>
    rw [hw] at h
    obtain ⟨hperm,hnodup,-,horder⟩ := h
    refine ⟨_,rfl,⟨fun c' hc => update_of_ne hc ..,rfl,fun _ _ => rfl,fun _ _ => rfl⟩,?_⟩
    dsimp only
    rw [update_self]
    refine ⟨?_,?_,hhalf.mono (by simp [or_comm]),dumbAdd_spec hperm hhalf horder⟩
    · exact (pend_perm ..).trans ((hperm.cons t).trans (perm_append_singleton t q).symm)
    · exact (perm_append_singleton t q).nodup_iff.mpr (nodup_cons.mpr ⟨ht,hnodup⟩)
  | scalable pq =>
    rw [hw] at h
    obtain ⟨T,hT⟩ := h
    obtain ⟨r,T',hadd,hT',-⟩ := hT.add ⟨ht,hhalf⟩ (hnumbers pq hw)
    have hout : ∀ u, u ∉ t::q → r.threads u = s.threads u ∧ r.nodes u = s.nodes u := by
      intro u hu
      rw [mem_cons,not_or] at hu
      exact zPriqRbAdd_outside hT.holds hadd (mt hT.perm.mem_iff.mp hu.2) hu.1
    refine ⟨s.put c r,by simp [view,hadd],⟨fun c' hc => update_of_ne hc ..,rfl,
      fun u hu => (hout u hu).1,fun u hu => (hout u hu).2⟩,?_⟩
    simp only [put,update_self]
    exact ⟨T',hT'⟩

/-- A thread is removed from its queue. -/
lemma priqWaitRemove_spec (ht : t ∈ q) : ∃ s', s.priqWaitRemove schedDeadline c t = some s' ∧ Touches s s' c q ∧
      QueueGood schedDeadline s'.threads s'.nodes (s'.waitQ c) (q.erase t) := by
  unfold priqWaitRemove
  cases hw : s.waitQ c with
  | dumb l =>
    rw [hw] at h
    obtain ⟨hperm,hnodup,hhalf,horder⟩ := h
    refine ⟨_,rfl,⟨fun c' hc => update_of_ne hc ..,rfl,fun _ _ => rfl,fun _ _ => rfl⟩,?_⟩
    dsimp only
    rw [update_self]
    have hn := hperm.nodup_iff.mpr hnodup
    refine ⟨hperm.erase t,hnodup.erase t,hhalf.mono fun u => mem_of_mem_erase,?_⟩
    refine imp_of_mem (fun {a b} ha hb hab => ?_) (horder.sublist erase_sublist)
    exact hab.mono fun he => he.erase (hn.mem_erase_iff.mp ha).1 (hn.mem_erase_iff.mp hb).1
  | scalable pq =>
    rw [hw] at h
    obtain ⟨T,hT⟩ := h
    obtain ⟨r,T',hremove,hT',-⟩ := hT.remove ht
    have hout : ∀ u, u ∉ q → r.threads u = s.threads u ∧ r.nodes u = s.nodes u := fun u hu =>
      zPriqRbRemove_outside hT.holds (hT.perm.mem_iff.mpr ht) hremove (mt hT.perm.mem_iff.mp hu)
    refine ⟨s.put c r,by simp [view,hremove],⟨fun c' hc => update_of_ne hc ..,rfl,
      fun u hu => (hout u hu).1,fun u hu => (hout u hu).2⟩,?_⟩
    simp only [put,update_self]
    exact ⟨T',hT'⟩

omit [DecidableEq κ] in
lemma priqWaitBest_spec :
    ∃ best, s.priqWaitBest schedDeadline c = some best ∧ IsBest schedDeadline s.threads q best := by
  unfold priqWaitBest
  cases hw : s.waitQ c with
  | dumb l =>
    rw [hw] at h
    obtain ⟨hperm,-,-,horder⟩ := h
    refine ⟨_,rfl,?_⟩
    cases l with
    | nil => exact hperm.nil_eq.symm
    | cons t rest =>
      refine ⟨hperm.mem_iff.mp (mem_cons_self ..),fun u hu hut => ?_⟩
      have hrest : u ∈ rest := (mem_cons.mp (hperm.mem_iff.mpr hu)).resolve_left hut
      exact (pairwise_cons.mp horder).1 u hrest
  | scalable pq =>
    rw [hw] at h
    obtain ⟨T,hT⟩ := h
    exact hT.best

end

end States

section Runs
variable {κ τ : Type*} [DecidableEq κ] [DecidableEq τ] {schedDeadline : Bool} {s s' : State κ τ}
  {c : κ} {t : τ} {q : κ → List τ}

/-- All queues are in order, and each pended thread is in the queue it is pended on. -/
structure Good (schedDeadline : Bool) (s : State κ τ) (q : κ → List τ) : Prop where
  queue : ∀ c, QueueGood schedDeadline s.threads s.nodes (s.waitQ c) (q c)
  pended : ∀ t c, s.pendedOn t = some c ↔ t ∈ q c

section
variable (h : Good schedDeadline s q)
include h

/-- A change of one queue leaves the others alone. -/
lemma Good.touched {l q' : List τ} {p : Option κ} (htouch : Touches s s' c l)
    (hl : ∀ u ∈ l, u ∈ q c ∨ s.pendedOn u = none)
    (hqueue : QueueGood schedDeadline s'.threads s'.nodes (s'.waitQ c) q')
    (hold : s.pendedOn t = none ∨ s.pendedOn t = some c) (hnew : p = none ∨ p = some c)
    (ht : t ∈ q' ↔ p = some c) (hmem : ∀ u, u ≠ t → (u ∈ q' ↔ u ∈ q c)) :
    Good schedDeadline {s' with pendedOn := update s'.pendedOn t p} (update q c q') := by
  refine ⟨fun c' => ?_,fun u c' => ?_⟩
  · by_cases hc : c' = c
    · subst hc
      rwa [update_self]
    · have hout : ∀ u ∈ q c', u ∉ l := by
        intro u hu hul
        have hp := (h.pended u c').mpr hu
        rcases hl u hul with hu' | hu'
        · exact hc (some.inj (hp.symm.trans ((h.pended u c).mpr hu')))
        · simp [hp] at hu'
      rw [update_of_ne hc]
      rw [htouch.others c' hc]
      exact (h.queue c').congr (fun u hu => htouch.threads u (hout u hu))
        fun u hu => htouch.nodes u (hout u hu)
  · dsimp only
    rw [htouch.pendedOn]
    by_cases hc : c' = c
    · subst hc
      rw [update_self]
      by_cases hut : u = t
      · subst hut
        rw [update_self,ht]
      · rw [update_of_ne hut,hmem u hut,h.pended u c']
    · rw [update_of_ne hc]
      by_cases hut : u = t
      · subst hut
        have hnot : u ∉ q c' := fun hu => by
          have hp := (h.pended u c').mpr hu
          rcases hold with hold | hold
          · simp [hp] at hold
          · exact hc (some.inj (hp.symm.trans hold))
        rw [update_self]
        refine iff_of_false (fun hp => ?_) hnot
        rcases hnew with hnew | hnew
        · simp [hnew] at hp
        · exact hc (some.inj (hp.symm.trans hnew))
      · rw [update_of_ne hut,h.pended u c']

lemma Good.pend (ha : Meets schedDeadline s q (.pend t c)) (hc : Careful schedDeadline s q (.pend t c)) :
    ∃ s', s.addToWaitq schedDeadline t c = some s' ∧ Good schedDeadline s' (update q c (q c++[t])) := by
  obtain ⟨hnone,hhalf⟩ := ha
  have ht : t ∉ q c := fun ht => by simp [(h.pended t c).mpr ht] at hnone
  let s₁ : State κ τ := {s with pendedOn := update s.pendedOn t (some c)}
  obtain ⟨s',hadd,htouch,hqueue⟩ := priqWaitAdd_spec (s := s₁) (h.queue c) ht hhalf (fun pq hpq => by
    have hpq' : s.waitQ c = .scalable pq := hpq
    have hnumbers : Numbers schedDeadline (s.view pq) (q c) (.add t) := by simpa [Careful,hpq'] using hc
    exact hnumbers)
  have hpended : s'.pendedOn = update s.pendedOn t (some c) := htouch.pendedOn
  refine ⟨s',hadd,?_⟩
  have htouch' : Touches s {s' with pendedOn := s.pendedOn} c (t::q c) :=
    ⟨htouch.others,rfl,htouch.threads,htouch.nodes⟩
  have hgood := h.touched (t := t) (p := some c) htouch' (fun u hu => ?_) hqueue (.inl hnone) (.inr rfl)
    (by simp) fun u hut => by simp [hut]
  · dsimp only at hgood
    rwa [← hpended] at hgood
  · rcases mem_cons.mp hu with rfl | hu
    · exact .inr hnone
    · exact .inl hu

lemma Good.unpend (ht : s.pendedOn t = some c) : ∃ s', s.unpendThreadNoTimeout schedDeadline t = some s' ∧
      Good schedDeadline s' (update q c ((q c).erase t)) := by
  obtain ⟨s',hremove,htouch,hqueue⟩ := priqWaitRemove_spec (h.queue c) ((h.pended t c).mp ht)
  have hnodup := (h.queue c).nodup
  refine ⟨_,by simp only [unpendThreadNoTimeout,ht,bind_some,hremove,map_some]; rfl,?_⟩
  refine h.touched htouch (fun u hu => .inl hu) hqueue (.inr ht) (.inl rfl) ?_ fun u hut => ?_
  · simp [hnodup.not_mem_erase]
  · simp [hnodup.mem_erase_iff,hut]

lemma Good.change {base : ThreadBase}
    (hplace : KeepsPlace schedDeadline s q t base) : Good schedDeadline (s.setBase t base) q := by
  refine ⟨fun c => ?_,h.pended⟩
  by_cases hc : s.pendedOn t = some c
  · have hplace' : SamePlace schedDeadline (s.waitQ c) (q c) s.threads (update s.threads t base) t := by
      simpa [KeepsPlace,hc] using hplace
    exact (h.queue c).change hplace'
  · refine (h.queue c).congr (fun u hu => update_of_ne ?_ ..) fun _ _ => rfl
    rintro rfl
    exact hc ((h.pended u c).mpr hu)

omit [DecidableEq κ] in
lemma Good.runq (ht : s.pendedOn t = none) (base : ThreadBase) (node : Rbnode τ) :
    Good schedDeadline {s with threads := update s.threads t base
                               nodes := setNode s.nodes t fun _ => node} q := by
  have hne : ∀ c, ∀ u ∈ q c, u ≠ t := by
    rintro c u hu rfl
    simp [(h.pended u c).mpr hu] at ht
  refine ⟨fun c => (h.queue c).congr (fun u hu => update_of_ne (hne c u hu) ..) fun u hu => ?_,h.pended⟩
  simp [setNode,hne c u hu]

lemma Good.erase_eq (ht : s.pendedOn t = some c) : (fun c' => (q c').erase t) = update q c ((q c).erase t) := by
  funext c'
  by_cases hc : c' = c
  · subst hc
    rw [update_self]
  · rw [update_of_ne hc]
    refine erase_of_not_mem fun hmem => hc ?_
    exact some.inj (((h.pended t c').mpr hmem).symm.trans ht)

/-- Every careful step keeps the queues in order. -/
lemma step_good {a : Action κ τ} (ha : Meets schedDeadline s q a) (hc : Careful schedDeadline s q a) :
    ∃ s' o, step schedDeadline s a = some (s',o) ∧ Good schedDeadline s' (arrivals q s s' a o) ∧
      ∀ c, a = .unpendFirst c → IsBest schedDeadline s.threads (q c) o := by
  cases a with
  | pend t c =>
    obtain ⟨s',he,h'⟩ := h.pend ha hc
    exact ⟨s',none,by simp [step,he],h',by simp⟩
  | unpendFirst c =>
    obtain ⟨best,hbest,his⟩ := priqWaitBest_spec (h.queue c)
    cases best with
    | none =>
      refine ⟨s,none,by simp [step,zUnpendFirstThread,hbest],h,?_⟩
      rintro c' ⟨⟩
      exact his
    | some t =>
      obtain ⟨s',he,h'⟩ := h.unpend ((h.pended t c).mpr his.1)
      refine ⟨s',some t,by simp [step,zUnpendFirstThread,hbest,he],h',?_⟩
      rintro c' ⟨⟩
      exact his
  | unpend t =>
    obtain ⟨c,hpend⟩ := ne_none_iff_exists'.mp ha
    obtain ⟨s',he,h'⟩ := h.unpend hpend
    refine ⟨s',none,by simp [step,he],?_,by simp⟩
    rw [arrivals,h.erase_eq hpend]
    exact h'
  | prioSet t prio => exact ⟨_,_,rfl,h.change hc,by simp⟩
  | deadlineSet t prioDeadline => exact ⟨_,_,rfl,h.change hc,by simp⟩
  | runq t orderKey node => exact ⟨_,_,rfl,h.runq ha _ _,by simp⟩

end

/-- The threads of a queue from the first one on: in the list, or in order through the tree. -/
def Lists (schedDeadline : Bool) (s : State κ τ) (c : κ) (l : List τ) : Prop :=
  match s.waitQ c with
  | .dumb q => q = l
  | .scalable pq => ∃ T, Holds ((s.view pq).tree schedDeadline) T ∧ T.inorder = l

/-- Every queue has its threads in the order of priorities and then of arrival, and every pended
thread can be found and removed. -/
structure InOrder (schedDeadline : Bool) (s : State κ τ) (q : κ → List τ) : Prop where
  order : ∀ c, ∃ l, Lists schedDeadline s c l ∧ l.Perm (q c) ∧
    l.Pairwise (Precedes schedDeadline s.threads (q c))
  found : ∀ t c, s.pendedOn t = some c → t ∈ q c ∧ ∃ s', step schedDeadline s (.unpend t) = some (s',none) ∧
    ∃ l, Lists schedDeadline s' c l ∧ l.Perm ((q c).erase t)

omit [DecidableEq κ] in
lemma QueueGood.lists {q : List τ} (h : QueueGood schedDeadline s.threads s.nodes (s.waitQ c) q) :
    ∃ l, Lists schedDeadline s c l ∧ l.Perm q ∧ l.Pairwise (Precedes schedDeadline s.threads q) := by
  unfold Lists
  cases hw : s.waitQ c with
  | dumb l =>
    rw [hw] at h
    exact ⟨l,rfl,h.1,h.2.2.2⟩
  | scalable pq =>
    rw [hw] at h
    obtain ⟨T,hT⟩ := h
    exact ⟨_,⟨T,hT.holds,rfl⟩,hT.perm,hT.order⟩

lemma Good.inOrder (h : Good schedDeadline s q) : InOrder schedDeadline s q := by
  refine ⟨fun c => (h.queue c).lists,fun t c ht => ⟨(h.pended t c).mp ht,?_⟩⟩
  obtain ⟨s',he,h'⟩ := h.unpend ht
  obtain ⟨l,hl,hperm,-⟩ := (h'.queue c).lists
  rw [update_self] at hperm
  exact ⟨s',by simp [step,he],l,hl,hperm⟩

omit [DecidableEq κ] in
lemma init_good (scalable : Bool) (threads : τ → ThreadBase) (nodes : τ → Rbnode τ) :
    Good schedDeadline (init scalable threads nodes : State κ τ) fun _ => [] := by
  refine ⟨fun c => ?_,by simp [init]⟩
  cases scalable with
  | false => exact ⟨.refl _,.nil,fun _ => .inl rfl,.nil⟩
  | true => exact ⟨.leaf,PriorityQueue.init_good threads nodes⟩

/-- In every run in which changes of pended threads leave them in their places, and trees have keys
for their threads, every wait queue stays ordered by priority and arrival, `z_unpend_first_thread`
takes the thread whose turn it is, and every pended thread can be removed. -/
theorem runs_keep_waitqs_ordered (schedDeadline scalable : Bool) (threads : τ → ThreadBase)
    (nodes : τ → Rbnode τ) {is : List (Action κ τ)}
    (h : Along (fun x a => Meets schedDeadline x.1 x.2 a ∧ Careful schedDeadline x.1 x.2 a)
      (recording (step schedDeadline) arrivals) (init scalable threads nodes,fun _ => []) is) :
    ∃ x os, serve? (recording (step schedDeadline) arrivals) (init scalable threads nodes,fun _ => []) is =
        some (x,os) ∧
      Trace (fun x a o y => InOrder schedDeadline y.1 y.2 ∧
          ∀ c, a = .unpendFirst c → IsBest schedDeadline x.1.threads (x.2 c) o)
        (init scalable threads nodes,fun _ => []) is os x := by
  refine Trace.of_steps (I := fun x : State κ τ × (κ → List τ) => Good schedDeadline x.1 x.2) (fun x a hx ha => ?_)
    (init_good scalable threads nodes) h
  obtain ⟨s',o,he,h',hbest⟩ := step_good hx ha.1 ha.2
  exact ⟨(s',_),o,recording_eq_some.mpr ⟨he,rfl⟩,h',h'.inOrder,hbest⟩

end Runs

def raisedInPlace : List (Action Unit (Fin 2)) :=
  [.pend 0 (),.pend 1 (),.prioSet 1 6,.unpendFirst (),.unpend 1]

theorem runs_keep_waitqs_ordered_raisedInPlace :
    ∃ x os, serve? (recording (step false) arrivals)
        (init true (withPrios ![5,7]) blankNodes,fun _ => []) raisedInPlace = some (x,os) ∧
      Trace (fun x a o y => InOrder false y.1 y.2 ∧
          ∀ c, a = .unpendFirst c → IsBest false x.1.threads (x.2 c) o)
        (init true (withPrios ![5,7]) blankNodes,fun _ => []) raisedInPlace os x :=
  runs_keep_waitqs_ordered false true (withPrios ![5,7]) blankNodes (by decide +kernel)

def raisedAbove : List (Action Unit (Fin 2)) := [.pend 0 (),.pend 1 (),.prioSet 1 0,.unpendFirst ()]

def loweredBelow : List (Action Unit (Fin 2)) := [.pend 0 (),.pend 1 (),.prioSet 0 9,.unpend 1]

/-- The list serves the thread of the lower priority, and the tree does not find the thread that is to
be removed. -/
theorem priority_set_misplaces_pended :
    (Along (fun x a => Meets false x.1 x.2 a) (recording (step false) arrivals)
        (init false (withPrios ![5,7]) blankNodes,fun _ => []) raisedAbove ∧
      ∃ x os, serve? (recording (step false) arrivals)
          (init false (withPrios ![5,7]) blankNodes,fun _ => []) raisedAbove =
          some (x,os++[some 0]) ∧ x.1.pendedOn 1 = some () ∧ (x.1.threads 1).prio < (x.1.threads 0).prio) ∧
    Along (fun x a => Meets false x.1 x.2 a) (recording (step false) arrivals)
        (init true (withPrios ![5,7]) blankNodes,fun _ => []) loweredBelow ∧
      ∃ x os pq, serve? (recording (step false) arrivals)
          (init true (withPrios ![5,7]) blankNodes,fun _ => []) loweredBelow = some (x,os) ∧
        x.1.pendedOn 1 = none ∧ x.1.waitQ () = .scalable pq ∧ pq.root = some 0 ∧
        getChild x.1.nodes 0 .right = some 1 :=
  ⟨⟨by decide +kernel,_,[none,none,none],rfl,by decide +kernel⟩,by decide +kernel,_,_,_,rfl,
    by decide +kernel,rfl,by decide +kernel⟩

end ArmFirmware.Zephyr.WaitQueues
