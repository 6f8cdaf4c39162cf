import ArmFirmware.Library.WaitQueue
import ArmFirmware.Zephyr.RedBlackTree.Foreach
import ArmFirmware.Zephyr.RedBlackTree.Remove
import ArmFirmware.Library.Trace

/-! Priority queues of threads (`kernel/include/priority_q.h`, `kernel/priority_queues.c`). The list
has the threads in the order of `z_sched_prio_cmp`, later ones behind equal ones. The red-black tree
orders equal threads by a key they get when they are added. -/
namespace ArmFirmware.Zephyr.PriorityQueue
open Library RedBlackTree Function

/-- The fields of `struct _thread_base` that order threads. -/
structure ThreadBase where
  prio : Int8
  prioDeadline : UInt32
  orderKey : UInt32
  deriving DecidableEq

/-- Positive if the first thread has the higher priority; `schedDeadline` is CONFIG_SCHED_DEADLINE. -/
def zSchedPrioCmp (schedDeadline : Bool) (thread1 thread2 : ThreadBase) : ℤ :=
  let b1 := thread1.prio.toInt
  let b2 := thread2.prio.toInt
  if b1 ≠ b2 then b2-b1
  else if schedDeadline ∧ thread1.prioDeadline ≠ thread2.prioDeadline then
    (thread2.prioDeadline-thread1.prioDeadline).toInt32.toInt
  else 0

/-- `struct _priq_rb`. The nodes of its tree are in the threads. -/
structure PriqRb (τ : Type*) where
  root : Option τ
  maxDepth : ℕ
  nextOrderKey : UInt32
  deriving DecidableEq

structure State (τ : Type*) where
  threads : τ → ThreadBase
  nodes : τ → Rbnode τ
  priq : PriqRb τ

section Operations
variable {τ : Type*} [DecidableEq τ] (schedDeadline : Bool)

def zPriqDumbAdd (threads : τ → ThreadBase) (pq : List τ) (thread : τ) : List τ :=
  WaitQueue.pend (fun t => decide (0 < zSchedPrioCmp schedDeadline (threads thread) (threads t))) thread pq

def zPriqDumbRemove (pq : List τ) (thread : τ) : List τ := pq.erase thread

def zPriqDumbBest (pq : List τ) : Option τ := pq.head?

def zPriqRbLessthan (threads : τ → ThreadBase) (a b : τ) : Bool :=
  let cmp := zSchedPrioCmp schedDeadline (threads a) (threads b)
  if 0 < cmp then true
  else if cmp < 0 then false
  else decide ((threads a).orderKey < (threads b).orderKey)

def State.tree (s : State τ) : Rbtree τ :=
  ⟨s.priq.root,zPriqRbLessthan schedDeadline s.threads,s.priq.maxDepth,s.nodes⟩

/-- The loop of `z_priq_rb_add` at the wraparound, for at most the given number of rounds. -/
def renumber (tree : Rbtree τ) :
    ℕ → Foreach τ → (τ → ThreadBase) → UInt32 → Option ((τ → ThreadBase) × UInt32)
  | 0,_,_,_ => none
  | rounds+1,f,threads,nextOrderKey => do
    let (f,t) ← zRbForeachNext tree f
    match t with
    | none => some (threads,nextOrderKey)
    | some t =>
      let threads := update threads t {threads t with orderKey := nextOrderKey}
      renumber tree rounds f threads (nextOrderKey+1)

/-- The part of `z_priq_rb_add` before `rb_insert`. A tree of the given depth has fewer than
`2^maxDepth` nodes. -/
def takeOrderKey (s : State τ) (thread : τ) : Option ((τ → ThreadBase) × UInt32) :=
  let threads := update s.threads thread
    {s.threads thread with orderKey := s.priq.nextOrderKey}
  let nextOrderKey := s.priq.nextOrderKey+1
  if nextOrderKey = 0 then
    renumber (s.tree schedDeadline) (2^s.priq.maxDepth) (.init (s.tree schedDeadline)) threads nextOrderKey
  else some (threads,nextOrderKey)

def zPriqRbAdd (s : State τ) (thread : τ) : Option (State τ) := do
  let (threads,nextOrderKey) ← takeOrderKey schedDeadline s thread
  let tree ← rbInsert (State.tree schedDeadline {s with threads}) thread
  some ⟨threads,tree.mem,tree.root,tree.maxDepth,nextOrderKey⟩

def zPriqRbRemove (s : State τ) (thread : τ) : Option (State τ) := do
  let tree ← rbRemove (s.tree schedDeadline) thread
  some ⟨s.threads,tree.mem,tree.root,tree.maxDepth,
    if tree.root = none then 0 else s.priq.nextOrderKey⟩

def zPriqRbBest (s : State τ) : Option (Option τ) := zRbGetMinmax (s.tree schedDeadline) .left

end Operations

/-! What the comparisons say about threads whose deadlines lie within one half of the 32-bit range,
as the API demands. -/

section Order
open BitVec
variable {τ : Type*} {schedDeadline : Bool} {threads : τ → ThreadBase}

/-- With deadlines, one of the threads has the earliest one, and those of the others are less than
2³¹ cycles after it. -/
def SameHalf (schedDeadline : Bool) (threads : τ → ThreadBase) (q : List τ) : Prop :=
  schedDeadline = true → q = [] ∨
    ∃ first ∈ q, ∀ t ∈ q, ((threads t).prioDeadline-(threads first).prioDeadline).toNat < 2^31

instance (q : List τ) : Decidable (SameHalf schedDeadline threads q) :=
  inferInstanceAs (Decidable (_ → _ ∨ _))

lemma SameHalf.bound {q : List τ} (h : SameHalf schedDeadline threads q) : ∃ first : UInt32,
    schedDeadline = true → ∀ t ∈ q, ((threads t).prioDeadline-first).toNat < 2^31 := by
  by_cases hd : schedDeadline = true
  · obtain rfl | ⟨u,-,hu⟩ := h hd
    · exact ⟨0,by simp⟩
    · exact ⟨_,fun _ => hu⟩
  · exact ⟨0,fun hd' => absurd hd' hd⟩

lemma SameHalf.mono {q q' : List τ} (h : SameHalf schedDeadline threads q) (hsub : ∀ t ∈ q', t ∈ q) :
    SameHalf schedDeadline threads q' := by
  classical
  obtain ⟨first,hfirst⟩ := h.bound
  intro hd
  by_cases hq : q' = []
  · exact .inl hq
  · obtain ⟨u,hu,hmin⟩ := Finset.exists_min_image q'.toFinset
      (fun t => ((threads t).prioDeadline-first).toNat) (List.toFinset_nonempty_iff q' |>.mpr hq)
    refine .inr ⟨u,List.mem_toFinset.mp hu,fun t ht => ?_⟩
    have hle := hmin t (List.mem_toFinset.mpr ht)
    have hlt := hfirst hd t (hsub t ht)
    have h₁ := UInt32.toNat_sub (threads t).prioDeadline (threads u).prioDeadline
    have h₂ := UInt32.toNat_sub (threads t).prioDeadline first
    have h₃ := UInt32.toNat_sub (threads u).prioDeadline first
    have := (threads u).prioDeadline.toNat_lt
    omega

lemma toInt_sub {a b first : UInt32} (ha : (a-first).toNat < 2^31) (hb : (b-first).toNat < 2^31) :
    (b-a).toInt32.toInt = ((b-first).toNat : ℤ)-(a-first).toNat := by
  have hba : (b-a).toInt32.toInt = (b-a).toBitVec.toInt := rfl
  rw [hba,toInt_eq_toNat_cond]
  have h₁ := UInt32.toNat_sub b a
  have h₂ := UInt32.toNat_sub b first
  have h₃ := UInt32.toNat_sub a first
  have := a.toNat_lt
  simp only [UInt32.toNat_toBitVec]
  split <;> omega

lemma toInt_sub_ne_zero {a b : UInt32} (h : a ≠ b) : (b-a).toInt32.toInt ≠ 0 := by
  intro h0
  have hbits := toInt_inj.mp (h0.trans toInt_zero.symm)
  have hsub : b-a = 0 := UInt32.toBitVec_inj.mp hbits
  rw [UInt32.sub_eq_iff_eq_add,UInt32.zero_add] at hsub
  exact h hsub.symm

lemma cmp_eq_zero_iff {a b : ThreadBase} : zSchedPrioCmp schedDeadline a b = 0 ↔
    a.prio = b.prio ∧ (schedDeadline = true → a.prioDeadline = b.prioDeadline) := by
  unfold zSchedPrioCmp
  dsimp only
  split_ifs with hprio hdeadline
  · have : a.prio ≠ b.prio := fun h => hprio (by rw [h])
    simp only [this,false_and,iff_false]
    omega
  · simp only [toInt_sub_ne_zero hdeadline.2,hdeadline.1,hdeadline.2,forall_const,and_false]
  · have : a.prio = b.prio := Int8.toInt_inj.mp (not_not.mp hprio)
    tauto

/-- On threads with deadlines in one half, `z_sched_prio_cmp` compares by a rank. -/
lemma exists_rank {q : List τ} (h : SameHalf schedDeadline threads q) : ∃ rank : τ → ℤ, ∀ a ∈ q, ∀ b ∈ q,
      (0 < zSchedPrioCmp schedDeadline (threads a) (threads b) ↔ rank a < rank b) ∧
      (zSchedPrioCmp schedDeadline (threads a) (threads b) = 0 ↔ rank a = rank b) := by
  obtain ⟨first,hfirst⟩ := h.bound
  refine ⟨fun t => (threads t).prio.toInt*2^32+
    if schedDeadline then ((threads t).prioDeadline-first).toNat else 0,fun a ha b hb => ?_⟩
  cases schedDeadline with
  | false =>
    unfold zSchedPrioCmp
    simp only [Bool.false_eq_true,false_and,if_false]
    split_ifs <;> omega
  | true =>
    have hfa := hfirst rfl a ha
    have hfb := hfirst rfl b hb
    have hsub := toInt_sub hfa hfb
    unfold zSchedPrioCmp
    simp only [if_true,true_and]
    split_ifs with hprio hdeadline
    · omega
    · rw [hsub]
      omega
    · rw [not_not.mp hdeadline]
      omega

end Order

/-! The red-black queue serves threads in order of priority and, among equal ones, in order of
arrival, as long as the keys of equal threads are in order of arrival. After 2³² additions it
renumbers its threads, but not the one that is being added. -/

open Library.WaitQueue Library.RedBlack List UInt32 Option List.Pairwise

section Order
variable {τ : Type*} (schedDeadline : Bool) (threads : τ → ThreadBase)

/-- A thread is to be served before another one, given the queued threads in order of arrival. -/
def Precedes (q : List τ) (a b : τ) : Prop :=
  0 < zSchedPrioCmp schedDeadline (threads a) (threads b) ∨
    zSchedPrioCmp schedDeadline (threads a) (threads b) = 0 ∧ Earlier q a b

def IsBest (q : List τ) : Option τ → Prop
  | none => q = []
  | some t => t ∈ q ∧ ∀ u ∈ q, u ≠ t → Precedes schedDeadline threads q t u

/-- Equal threads have keys in the order of arrival. -/
def KeysInOrder (q : List τ) : Prop :=
  q.Pairwise fun a b => zSchedPrioCmp schedDeadline (threads a) (threads b) = 0 →
    (threads a).orderKey.toNat < (threads b).orderKey.toNat

variable {schedDeadline threads} {q : List τ} {a b : τ}

lemma cmp_comm_zero {a b : ThreadBase} (h : zSchedPrioCmp schedDeadline a b = 0) :
    zSchedPrioCmp schedDeadline b a = 0 := by
  rw [cmp_eq_zero_iff] at h ⊢
  exact ⟨h.1.symm,fun hd => (h.2 hd).symm⟩

lemma KeysInOrder.lessthan_iff (h : KeysInOrder schedDeadline threads q) (ha : a ∈ q) (hb : b ∈ q) :
    zPriqRbLessthan schedDeadline threads a b = true ↔ Precedes schedDeadline threads q a b := by
  rw [KeysInOrder,pairwise_iff_earlier] at h
  unfold zPriqRbLessthan Precedes
  dsimp only
  split_ifs with hpos hneg
  · simp [hpos]
  · simp only [false_iff]
    omega
  · have hzero : zSchedPrioCmp schedDeadline (threads a) (threads b) = 0 := by omega
    simp only [decide_eq_true_eq,lt_iff_toNat_lt,hzero,lt_irrefl,true_and,false_or]
    constructor
    · intro hkey
      have hne : a ≠ b := by
        rintro rfl
        exact lt_irrefl _ hkey
      refine (earlier_or_earlier ha hb hne).resolve_right fun hba => ?_
      exact lt_asymm hkey (h b a hba (cmp_comm_zero hzero))
    · exact fun hab => h a b hab hzero

/-- The comparison is a strict total order of the queued threads. -/
lemma strictTotalOn (hhalf : SameHalf schedDeadline threads q)
    (hkeys : ∀ a ∈ q, ∀ b ∈ q, a ≠ b → zSchedPrioCmp schedDeadline (threads a) (threads b) = 0 →
      (threads a).orderKey.toNat ≠ (threads b).orderKey.toNat) :
    StrictTotalOn (zPriqRbLessthan schedDeadline threads) q := by
  obtain ⟨rank,hrank⟩ := exists_rank hhalf
  have hiff : ∀ a ∈ q, ∀ b ∈ q, zPriqRbLessthan schedDeadline threads a b = true ↔
      rank a < rank b ∨ rank a = rank b ∧ (threads a).orderKey.toNat < (threads b).orderKey.toNat := by
    intro a ha b hb
    obtain ⟨hlt,heq⟩ := hrank a ha b hb
    unfold zPriqRbLessthan
    dsimp only
    split_ifs with hpos hneg
    · simp [hlt.mp hpos]
    · have : ¬rank a < rank b := fun h => hpos (hlt.mpr h)
      have : rank a ≠ rank b := fun h => hneg.ne (heq.mpr h)
      simp [*]
    · have hzero : zSchedPrioCmp schedDeadline (threads a) (threads b) = 0 := by omega
      simp [lt_iff_toNat_lt,heq.mp hzero]
  refine ⟨fun a ha => ?_,fun a ha b hb c hc hab hbc => ?_,fun a ha b hb hne => ?_⟩
  · rw [← Bool.not_eq_true,hiff a ha a ha]
    simp
  · rw [hiff a ha b hb] at hab
    rw [hiff b hb c hc] at hbc
    rw [hiff a ha c hc]
    rcases hab with hab | ⟨hab,hkey⟩
    · rcases hbc with hbc | ⟨hbc,-⟩
      · exact .inl (hab.trans hbc)
      · exact .inl (hbc ▸ hab)
    · rcases hbc with hbc | ⟨hbc,hkey'⟩
      · exact .inl (hab ▸ hbc)
      · exact .inr ⟨hab.trans hbc,hkey.trans hkey'⟩
  · rw [hiff a ha b hb,hiff b hb a ha]
    rcases lt_trichotomy (rank a) (rank b) with hlt | heq | hgt
    · exact .inl (.inl hlt)
    · rcases lt_or_gt_of_ne (hkeys a ha b hb hne ((hrank a ha b hb).2.mpr heq)) with hkey | hkey
      · exact .inl (.inr ⟨heq,hkey⟩)
      · exact .inr (.inr ⟨heq.symm,hkey⟩)
    · exact .inr (.inl hgt)

lemma KeysInOrder.strictTotalOn (h : KeysInOrder schedDeadline threads q)
    (hhalf : SameHalf schedDeadline threads q) : StrictTotalOn (zPriqRbLessthan schedDeadline threads) q := by
  rw [KeysInOrder,pairwise_iff_earlier] at h
  refine PriorityQueue.strictTotalOn hhalf fun a ha b hb hne hzero => ?_
  rcases earlier_or_earlier ha hb hne with hab | hba
  · exact (h a b hab hzero).ne
  · exact (h b a hba (cmp_comm_zero hzero)).ne'

end Order

section Keys
variable {τ : Type*} [DecidableEq τ] {schedDeadline : Bool}

def numbered (l : List τ) (threads : τ → ThreadBase) (key : UInt32) : τ → ThreadBase :=
  fun t => if t ∈ l then {threads t with orderKey := key+ofNat (l.idxOf t)} else threads t

lemma numbered_cons {t : τ} {l : List τ} (ht : t ∉ l) (threads : τ → ThreadBase) (key : UInt32) :
    numbered l (update threads t {threads t with orderKey := key}) (key+1) = numbered (t::l) threads key := by
  funext u
  by_cases hut : u = t
  · subst hut
    simp [numbered,ht]
  · simp only [numbered,Function.update_of_ne hut,mem_cons,hut,false_or]
    split_ifs with hu
    · rw [idxOf_cons_ne _ (Ne.symm hut),Nat.succ_eq_add_one,ofNat_add]
      congr 1
      rw [UInt32.add_assoc,UInt32.add_comm 1]
      rfl
    · rfl

/-- The renumbering gives consecutive keys to the threads in the order of the tree. -/
lemma renumber_spec {tree : Rbtree τ} {T : ColorTree τ} (h : Holds tree T) {rest : List τ}
    {f : Foreach τ} {rounds : ℕ} (hf : Upcoming T f rest) (hstack : f.stack.length = tree.maxDepth)
    (hleft : f.isLeft.length = tree.maxDepth) (hnodup : rest.Nodup) (hrounds : rest.length < rounds)
    (threads : τ → ThreadBase) (key : UInt32) : renumber tree rounds f threads key =
      some (numbered rest threads key,key+ofNat rest.length) := by
  induction rest generalizing f rounds threads key with
  | nil =>
    obtain ⟨rounds,rfl⟩ : ∃ k, rounds = k+1 := ⟨rounds-1,by simp at hrounds; omega⟩
    obtain ⟨f',he,-⟩ := zRbForeachNext_spec h hf hstack hleft
    have hnone : numbered ([] : List τ) threads key = threads := by
      funext t
      simp [numbered]
    simp [renumber,he,hnone]
  | cons t rest ih =>
    obtain ⟨rounds,rfl⟩ : ∃ k, rounds = k+1 := ⟨rounds-1,by simp at hrounds; omega⟩
    obtain ⟨f',he,hstack',hleft',hf'⟩ := zRbForeachNext_spec h hf hstack hleft
    obtain ⟨ht,hnodup'⟩ := nodup_cons.mp hnodup
    have hrest := ih (by simpa using hf') hstack' hleft' hnodup' (by simpa using hrounds)
      (update threads t {threads t with orderKey := key}) (key+1)
    rw [renumber,he]
    simp only [List.head?_cons,Option.bind_eq_bind,Option.bind_some]
    rw [hrest,numbered_cons ht,length_cons,UInt32.ofNat_add,UInt32.add_assoc,UInt32.add_comm 1]
    rfl

variable {s : State τ} {T : ColorTree τ} {t : τ}

lemma takeOrderKey_eq (h : Holds (s.tree schedDeadline) T) (t : τ) : takeOrderKey schedDeadline s t =
      let threads := update s.threads t {s.threads t with orderKey := s.priq.nextOrderKey}
      some (if s.priq.nextOrderKey+1 = 0 then (numbered T.inorder threads 0,ofNat T.inorder.length)
        else (threads,s.priq.nextOrderKey+1)) := by
  unfold takeOrderKey
  dsimp only
  split_ifs with hwrap
  · have hrounds : T.inorder.length < 2^s.priq.maxDepth :=
      (ColorTree.length_inorder_lt T).trans_le (Nat.pow_le_pow_right (by omega) h.height_le)
    rw [renumber_spec h (.start rfl) (by simp [Foreach.init])
      (by simp [Foreach.init]) h.inMemory.nodup hrounds,hwrap]
    simp
  · rfl

end Keys

inductive Op (τ : Type*)
  | add (thread : τ)
  | remove (thread : τ)
  /-- A thread that is not queued changes, or its node is used elsewhere. -/
  | change (thread : τ) (base : ThreadBase) (node : Rbnode τ)

section Steps
variable {τ : Type*} [DecidableEq τ] (schedDeadline : Bool)

def init (threads : τ → ThreadBase) (nodes : τ → Rbnode τ) : State τ := ⟨threads,nodes,none,0,0⟩

def step (s : State τ) : Op τ → Option (State τ × Unit)
  | .add t => (zPriqRbAdd schedDeadline s t).map (·,())
  | .remove t => (zPriqRbRemove schedDeadline s t).map (·,())
  | .change t base node =>
    some ({s with threads := update s.threads t base
                  nodes := setNode s.nodes t fun _ => node},())

def arrivals (q : List τ) (_ _ : State τ) : Op τ → Unit → List τ
  | .add t,_ => q++[t]
  | .remove t,_ => q.erase t
  | .change _ _ _,_ => q

/-- Threads are added once, in the same half of the deadlines as the others, removed if they are
queued, and not changed meanwhile. -/
def Meets (s : State τ) (q : List τ) : Op τ → Prop
  | .add t => t ∉ q ∧ SameHalf schedDeadline s.threads (t::q)
  | .remove t => t ∈ q
  | .change t _ _ => t ∉ q

/-- The key for the new thread is greater than those of the equal ones, and the keys suffice for
all threads. -/
def Numbers (s : State τ) (q : List τ) : Op τ → Prop
  | .add t => (∀ u ∈ q, zSchedPrioCmp schedDeadline (s.threads t) (s.threads u) = 0 →
      (s.threads u).orderKey < s.priq.nextOrderKey) ∧ q.length < 2^32
  | _ => True

instance (s : State τ) (q : List τ) (a : Op τ) : Decidable (Meets schedDeadline s q a) := by
  unfold Meets
  split <;> infer_instance

instance (s : State τ) (q : List τ) (a : Op τ) : Decidable (Numbers schedDeadline s q a) := by
  unfold Numbers
  split <;> infer_instance

end Steps

section Preservation
variable {τ : Type*} {schedDeadline : Bool} {threads threads' : τ → ThreadBase} {q q' : List τ}

/-- Threads that differ in their keys only. -/
def SamePrio (threads threads' : τ → ThreadBase) : Prop :=
  ∀ t, (threads' t).prio = (threads t).prio ∧ (threads' t).prioDeadline = (threads t).prioDeadline

lemma SamePrio.cmp (h : SamePrio threads threads') (a b : τ) :
    zSchedPrioCmp schedDeadline (threads' a) (threads' b) =
      zSchedPrioCmp schedDeadline (threads a) (threads b) := by
  unfold zSchedPrioCmp
  rw [(h a).1,(h a).2,(h b).1,(h b).2]

lemma SamePrio.half (h : SamePrio threads threads') (hq : SameHalf schedDeadline threads q) :
    SameHalf schedDeadline threads' q := by
  intro hd
  simp only [(h _).2]
  exact hq hd

lemma SamePrio.precedes (h : SamePrio threads threads') {a b : τ} :
    Precedes schedDeadline threads' q a b ↔ Precedes schedDeadline threads q a b := by
  rw [Precedes,Precedes,h.cmp]

lemma Precedes.mono {a b : τ} (h : Precedes schedDeadline threads q a b)
    (himp : Earlier q a b → Earlier q' a b) : Precedes schedDeadline threads q' a b :=
  h.imp_right (And.imp_right himp)

lemma SameHalf.congr (heq : ∀ t ∈ q, threads' t = threads t) (h : SameHalf schedDeadline threads q) :
    SameHalf schedDeadline threads' q := by
  intro hd
  refine (h hd).imp_right fun ⟨first,hfirst,hall⟩ => ⟨first,hfirst,fun t ht => ?_⟩
  rw [heq t ht,heq first hfirst]
  exact hall t ht

lemma KeysInOrder.congr (heq : ∀ t ∈ q, threads' t = threads t)
    (h : KeysInOrder schedDeadline threads q) : KeysInOrder schedDeadline threads' q := by
  refine imp_of_mem (fun {a b} ha hb hab => ?_) h
  rwa [heq a ha,heq b hb]

lemma nodup_pairwise_idxOf [DecidableEq τ] (h : q.Nodup) : q.Pairwise fun a b => q.idxOf a < q.idxOf b := by
  rw [pairwise_iff_getElem]
  intro i j hi hj hij
  rwa [h.idxOf_getElem,h.idxOf_getElem]

end Preservation

/-- The tree holds the queued threads in the order in which they are to be served. -/
structure Good {τ : Type*} [DecidableEq τ] (schedDeadline : Bool) (s : State τ) (q : List τ)
    (T : ColorTree τ) : Prop where
  holds : Holds (s.tree schedDeadline) T
  perm : T.inorder.Perm q
  half : SameHalf schedDeadline s.threads q
  keys : KeysInOrder schedDeadline s.threads q
  order : T.inorder.Pairwise (Precedes schedDeadline s.threads q)

section Runs
variable {τ : Type*} [DecidableEq τ] {schedDeadline : Bool} {s : State τ} {q : List τ}
  {T : ColorTree τ} {t : τ}

lemma Good.sorted (h : Good schedDeadline s q T) : Sorted (zPriqRbLessthan schedDeadline s.threads) T :=
  imp_of_mem (fun {_ _} ha hb hab =>
    (h.keys.lessthan_iff (h.perm.mem_iff.mp ha) (h.perm.mem_iff.mp hb)).mpr hab) h.order

lemma Good.nodup (h : Good schedDeadline s q T) : q.Nodup := h.perm.nodup_iff.mp h.holds.inMemory.nodup

lemma Good.best (h : Good schedDeadline s q T) :
    ∃ best, zPriqRbBest schedDeadline s = some best ∧ IsBest schedDeadline s.threads q best := by
  refine ⟨T.inorder.head?,zRbGetMinmax_left h.holds,?_⟩
  have horder := h.order
  have hperm := h.perm
  cases hio : T.inorder with
  | nil =>
    rw [hio] at hperm
    exact hperm.nil_eq.symm
  | cons t rest =>
    rw [hio] at hperm horder
    refine ⟨hperm.mem_iff.mp (mem_cons_self ..),fun u hu hut => ?_⟩
    have hrest : u ∈ rest := (mem_cons.mp (hperm.mem_iff.mpr hu)).resolve_left hut
    exact (pairwise_cons.mp horder).1 u hrest

lemma add_spec (h : Holds (s.tree schedDeadline) T) (ht : t ∉ T.inorder) {threads : τ → ThreadBase}
    {key : UInt32} (hkey : takeOrderKey schedDeadline s t = some (threads,key))
    (hlt : StrictTotalOn (zPriqRbLessthan schedDeadline threads) (t::T.inorder))
    (hs : Sorted (zPriqRbLessthan schedDeadline threads) T) :
    ∃ s' T', zPriqRbAdd schedDeadline s t = some s' ∧ s'.threads = threads ∧
      s'.priq.nextOrderKey = key ∧ Holds (s'.tree schedDeadline) T' ∧
      Sorted (zPriqRbLessthan schedDeadline threads) T' ∧ T'.inorder.Perm (t::T.inorder) := by
  have h' : Holds (State.tree schedDeadline {s with threads}) T := { h with }
  obtain ⟨tree,T',he,hT',hlt',hs',hperm⟩ := h'.insert ht hlt hs
  refine ⟨⟨threads,tree.mem,tree.root,tree.maxDepth,key⟩,T',?_,rfl,rfl,{ hT' with },hs',hperm⟩
  simp only [zPriqRbAdd,hkey,bind_eq_bind,bind_some,he]

lemma remove_spec (h : Holds (s.tree schedDeadline) T) (ht : t ∈ T.inorder)
    (hlt : StrictTotalOn (zPriqRbLessthan schedDeadline s.threads) T.inorder)
    (hs : Sorted (zPriqRbLessthan schedDeadline s.threads) T) :
    ∃ s' T', zPriqRbRemove schedDeadline s t = some s' ∧ s'.threads = s.threads ∧
      (T'.inorder ≠ [] → s'.priq.nextOrderKey = s.priq.nextOrderKey) ∧
      Holds (s'.tree schedDeadline) T' ∧ T'.inorder = T.inorder.erase t := by
  obtain ⟨tree,T',he,hT',hlt',hio⟩ := h.remove ht hlt hs
  refine ⟨⟨s.threads,tree.mem,tree.root,tree.maxDepth,if tree.root = none then 0 else s.priq.nextOrderKey⟩,
    T',by simp only [zPriqRbRemove,bind_eq_bind,bind_some,he],rfl,fun hne => if_neg ?_,{ hT' with },hio⟩
  rw [hT'.root]
  cases T' with
  | leaf => simp at hne
  | node => simp [rootPtr]

lemma samePrio_update (threads : τ → ThreadBase) (t : τ) (key : UInt32) :
    SamePrio threads (update threads t {threads t with orderKey := key}) := by
  intro u
  by_cases hut : u = t
  · subst hut
    simp
  · simp [hut]

lemma samePrio_numbered (l : List τ) (threads : τ → ThreadBase) (key : UInt32) :
    SamePrio threads (numbered l threads key) := by
  intro u
  unfold numbered
  split_ifs <;> exact ⟨rfl,rfl⟩

section
variable (h : Good schedDeadline s q T)
include h

/-- New keys keep equal threads in order. -/
lemma Good.numbered {threads : τ → ThreadBase} {a b : τ}
    (hab : Earlier q a b) (hzero : zSchedPrioCmp schedDeadline (s.threads a) (s.threads b) = 0)
    (hlen : q.length < 2^32) :
    (numbered T.inorder threads 0 a).orderKey.toNat < (numbered T.inorder threads 0 b).orderKey.toNat := by
  have hkeys := pairwise_iff_earlier.mp h.keys
  have horder := pairwise_iff_earlier.mp h.order
  have hkey := hkeys a b hab hzero
  have ha := h.perm.mem_iff.mpr hab.mem.1
  have hb := h.perm.mem_iff.mpr hab.mem.2
  have hne : a ≠ b := by
    rintro rfl
    exact lt_irrefl _ hkey
  have htree : Earlier T.inorder a b := by
    refine (earlier_or_earlier ha hb hne).resolve_right fun hba => ?_
    rcases horder b a hba with hpos | ⟨hzero',hba'⟩
    · rw [cmp_comm_zero hzero] at hpos
      exact lt_irrefl _ hpos
    · exact lt_asymm hkey (hkeys b a hba' hzero')
  have hidx := pairwise_iff_earlier.mp (nodup_pairwise_idxOf h.holds.inMemory.nodup) a b htree
  have hlt := idxOf_lt_length_iff.mpr hb
  rw [h.perm.length_eq] at hlt
  simp only [PriorityQueue.numbered,ha,hb,if_true,UInt32.zero_add,UInt32.toNat_ofNat']
  omega

/-- The keys after `z_priq_rb_add` are in order of arrival again, renumbered or not. -/
lemma Good.newKeys (ht : t ∉ q) (hkeys : ∀ u ∈ q, zSchedPrioCmp schedDeadline (s.threads t) (s.threads u) = 0 →
      (s.threads u).orderKey < s.priq.nextOrderKey) (hlen : q.length < 2^32) :
    ∃ threads key, takeOrderKey schedDeadline s t = some (threads,key) ∧ SamePrio s.threads threads ∧
      KeysInOrder schedDeadline threads (q++[t]) := by
  have hprio := samePrio_update s.threads t s.priq.nextOrderKey
  have ht' := mt h.perm.mem_iff.mp ht
  rw [takeOrderKey_eq h.holds]
  split_ifs with hwrap
  · -- the queued threads are renumbered in the order of the tree, and the new one has the last key
    have hprio' : SamePrio s.threads (PriorityQueue.numbered T.inorder
        (update s.threads t {s.threads t with orderKey := s.priq.nextOrderKey}) 0) := by
      intro u
      have hn := samePrio_numbered T.inorder
        (update s.threads t {s.threads t with orderKey := s.priq.nextOrderKey}) 0 u
      exact ⟨hn.1.trans (hprio u).1,hn.2.trans (hprio u).2⟩
    refine ⟨_,_,rfl,hprio',pairwise_iff_earlier.mpr fun a b hab hzero => ?_⟩
    rw [hprio'.cmp] at hzero
    rcases earlier_append.mp hab with hab | ⟨ha,rfl⟩
    · exact h.numbered hab hzero hlen
    · have ha' := h.perm.mem_iff.mpr ha
      have hlt := idxOf_lt_length_iff.mpr ha'
      have hlast := congrArg UInt32.toNat hwrap
      rw [h.perm.length_eq] at hlt
      simp only [PriorityQueue.numbered,ha',ht',if_true,if_false,update_self,UInt32.zero_add,UInt32.toNat_ofNat']
      simp at hlast
      omega
  · refine ⟨_,_,rfl,hprio,pairwise_iff_earlier.mpr fun a b hab hzero => ?_⟩
    rw [hprio.cmp] at hzero
    rcases earlier_append.mp hab with hab | ⟨ha,rfl⟩
    · have hat : a ≠ t := ne_of_mem_of_not_mem hab.mem.1 ht
      have hbt : b ≠ t := ne_of_mem_of_not_mem hab.mem.2 ht
      rw [update_of_ne hat,update_of_ne hbt]
      exact pairwise_iff_earlier.mp h.keys a b hab hzero
    · have hat : a ≠ b := ne_of_mem_of_not_mem ha ht
      rw [update_of_ne hat,update_self]
      exact UInt32.lt_iff_toNat_lt.mp (hkeys a ha (cmp_comm_zero hzero))

/-- `z_priq_rb_add` queues a thread behind its equals. -/
lemma Good.add (hmeets : Meets schedDeadline s q (.add t)) (hnumbers : Numbers schedDeadline s q (.add t)) :
    ∃ s' T', zPriqRbAdd schedDeadline s t = some s' ∧ Good schedDeadline s' (q++[t]) T' ∧
      takeOrderKey schedDeadline s t = some (s'.threads,s'.priq.nextOrderKey) := by
  obtain ⟨ht,hhalf⟩ := hmeets
  obtain ⟨threads,key,hkey,hprio,hkeys⟩ := h.newKeys ht hnumbers.1 hnumbers.2
  have ht' := mt h.perm.mem_iff.mp ht
  have hhalf' : SameHalf schedDeadline threads (q++[t]) := hprio.half (hhalf.mono (by simp [or_comm]))
  have hmem : ∀ a ∈ T.inorder, a ∈ q++[t] := fun a ha =>
    mem_append_left _ (h.perm.mem_iff.mp ha)
  have hlt : StrictTotalOn (zPriqRbLessthan schedDeadline threads) (t::T.inorder) :=
    (hkeys.strictTotalOn hhalf').mono fun a ha => by
      rcases mem_cons.mp ha with rfl | ha
      · simp
      · exact hmem a ha
  have hs : Sorted (zPriqRbLessthan schedDeadline threads) T := by
    refine imp_of_mem (fun {a b} ha hb hab => ?_) h.order
    refine (hkeys.lessthan_iff (hmem a ha) (hmem b hb)).mpr ((hprio.precedes.mpr hab).mono fun he => ?_)
    exact earlier_append.mpr (.inl he)
  obtain ⟨s',T',hadd,rfl,rfl,hholds,hs',hperm⟩ := add_spec h.holds ht' hkey hlt hs
  have hperm' : T'.inorder.Perm (q++[t]) := hperm.trans ((h.perm.cons t).trans (perm_append_singleton t q).symm)
  refine ⟨s',T',hadd,⟨hholds,hperm',hhalf',hkeys,?_⟩,hkey⟩
  exact imp_of_mem (fun {a b} ha hb hab =>
    (hkeys.lessthan_iff (hperm'.mem_iff.mp ha) (hperm'.mem_iff.mp hb)).mp hab) hs'

lemma Good.remove (ht : t ∈ q) :
    ∃ s' T', zPriqRbRemove schedDeadline s t = some s' ∧ Good schedDeadline s' (q.erase t) T' ∧
      s'.threads = s.threads ∧ (q.erase t ≠ [] → s'.priq.nextOrderKey = s.priq.nextOrderKey) := by
  have hlt : StrictTotalOn (zPriqRbLessthan schedDeadline s.threads) T.inorder :=
    (h.keys.strictTotalOn h.half).mono fun a => h.perm.mem_iff.mp
  obtain ⟨s',T',hremove,hthreads,hnext,hholds,hio⟩ := remove_spec h.holds (h.perm.mem_iff.mpr ht) hlt h.sorted
  have hperm := hio ▸ h.perm.erase t
  refine ⟨s',T',hremove,⟨hholds,hperm,?_,?_,?_⟩,hthreads,fun hne => hnext fun hnil => ?_⟩
  · rw [hthreads]
    exact h.half.mono fun u => mem_of_mem_erase
  · rw [hthreads]
    exact h.keys.sublist erase_sublist
  · rw [hthreads,hio]
    have hn := h.holds.inMemory.nodup
    refine imp_of_mem (fun {a b} ha hb hab => ?_) (h.order.sublist erase_sublist)
    exact hab.mono fun he => he.erase (hn.mem_erase_iff.mp ha).1 (hn.mem_erase_iff.mp hb).1
  · rw [hnil] at hperm
    exact hne hperm.nil_eq.symm

lemma Good.change (ht : t ∉ q) (base : ThreadBase) (node : Rbnode τ) :
    Good schedDeadline {s with threads := update s.threads t base
                               nodes := setNode s.nodes t fun _ => node} q T := by
  have heq : ∀ u ∈ q, update s.threads t base u = s.threads u := fun u hu =>
    update_of_ne (ne_of_mem_of_not_mem hu ht) ..
  have hmem := h.holds.inMemory
  have hmem' : InMemory (setNode s.nodes t fun _ => node) T := hmem.setNode (mt h.perm.mem_iff.mp ht) _
  refine ⟨⟨h.holds.root,hmem',h.holds.rb,h.holds.height_le⟩,h.perm,h.half.congr heq,h.keys.congr heq,?_⟩
  refine imp_of_mem (fun {a b} ha hb hab => ?_) h.order
  dsimp only [Precedes]
  rwa [heq a (h.perm.mem_iff.mp ha),heq b (h.perm.mem_iff.mp hb)]

end

lemma step_good {a : Op τ} (h : ∃ T, Good schedDeadline s q T) (ha : Meets schedDeadline s q a)
    (hn : Numbers schedDeadline s q a) :
    ∃ s' o, step schedDeadline s a = some (s',o) ∧ ∃ T', Good schedDeadline s' (arrivals q s s' a o) T' := by
  obtain ⟨T,hT⟩ := h
  cases a with
  | add t =>
    obtain ⟨s',T',he,h',-⟩ := hT.add ha hn
    exact ⟨s',(),by simp [step,he],T',h'⟩
  | remove t =>
    obtain ⟨s',T',he,h',-⟩ := hT.remove ha
    exact ⟨s',(),by simp [step,he],T',h'⟩
  | change t base node => exact ⟨_,_,rfl,T,hT.change ha base node⟩

lemma init_good (threads : τ → ThreadBase) (nodes : τ → Rbnode τ) :
    Good schedDeadline (init threads nodes) [] .leaf :=
  ⟨⟨rfl,⟨trivial,by simp⟩,⟨0,.leaf,by simp⟩,by simp [ColorTree.height]⟩,by simp,fun _ => .inl rfl,.nil,by simp⟩

/-- In every run in which threads get greater keys than the equal ones that are queued,
`z_priq_rb_best` returns a thread of the highest priority and, among equal ones, the one that was
added earliest. -/
theorem runs_serve_best_first (schedDeadline : Bool) (threads : τ → ThreadBase) (nodes : τ → Rbnode τ)
    {is : List (Op τ)} (h : Along (fun x a => Meets schedDeadline x.1 x.2 a ∧ Numbers schedDeadline x.1 x.2 a)
      (recording (step schedDeadline) arrivals) (init threads nodes,[]) is) :
    ∃ s q os, serve? (recording (step schedDeadline) arrivals) (init threads nodes,[]) is =
        some ((s,q),os) ∧
      ∃ best, zPriqRbBest schedDeadline s = some best ∧ IsBest schedDeadline s.threads q best := by
  obtain ⟨⟨s,q⟩,os,hserve,-,T,hT⟩ := Trace.of_along (I := fun x : State τ × List τ =>
      ∃ T, Good schedDeadline x.1 x.2 T) (fun x a hx ha => by
    obtain ⟨s',o,hstep,hs'⟩ := step_good hx ha.1 ha.2
    exact ⟨(s',_),o,recording_eq_some.mpr ⟨hstep,rfl⟩,hs'⟩) ⟨.leaf,init_good threads nodes⟩ h
  exact ⟨s,q,os,hserve,hT.best⟩

end Runs

def withPrios {τ : Type*} (prio : τ → Int8) : τ → ThreadBase := fun t => ⟨prio t,0,0⟩

def blankNodes {τ : Type*} : τ → Rbnode τ := fun _ => ⟨none,none,.black⟩

def threeAdded : List (Op (Fin 3)) := [.add 0,.add 1,.add 2,.remove 2]

theorem runs_serve_best_first_threeAdded :
    ∃ s q os, serve? (recording (step false) arrivals) (init (withPrios ![5,5,-1]) blankNodes,[])
        threeAdded = some ((s,q),os) ∧
      ∃ best, zPriqRbBest false s = some best ∧ IsBest false s.threads q best :=
  runs_serve_best_first false (withPrios ![5,5,-1]) blankNodes (by decide +kernel)

/-! A thread stays queued while another one comes and goes 2³² - 2 times. When that one is added once
more the keys wrap, and it keeps the greatest key, so that the next one gets ahead of it. -/

section Wraparound

def laps : ℕ → List (Op (Fin 3))
  | 0 => []
  | n+1 => [.add 1,.remove 1]++laps n

def wrapAround : List (Op (Fin 3)) := [.add 0]++(laps (2^32-2)++[.add 1,.add 2,.remove 0])

/-- Runs in which only the rules of the API are kept. -/
def Reaches : State (Fin 3) × List (Fin 3) → List (Op (Fin 3)) → State (Fin 3) × List (Fin 3) → Prop :=
  Leads (fun x a => Meets false x.1 x.2 a) (recording (step false) arrivals)

/-- All threads are equal, and the first one has the first key. -/
structure Equal (s : State (Fin 3)) (next : ℕ) : Prop where
  prio (t : Fin 3) : (s.threads t).prio = 0
  first : (s.threads 0).orderKey.toNat = 0
  next : s.priq.nextOrderKey.toNat = next

variable {s s' : State (Fin 3)} {n : ℕ} {q : List (Fin 3)} {t : Fin 3} {is : List (Op (Fin 3))}
  {x : State (Fin 3) × List (Fin 3)} {T : ColorTree (Fin 3)}

lemma Reaches.add (ht : t ∉ q) (hadd : zPriqRbAdd false s t = some s') (h : Reaches (s',q++[t]) is x) :
    Reaches (s,q) (.add t::is) x :=
  Leads.cons ⟨ht,fun hd => by cases hd⟩
    (recording_eq_some (o := ()) |>.mpr ⟨by simp [step,hadd],rfl⟩) h

lemma Reaches.remove (ht : t ∈ q) (hremove : zPriqRbRemove false s t = some s')
    (h : Reaches (s',q.erase t) is x) : Reaches (s,q) (.remove t::is) x :=
  Leads.cons ht
    (recording_eq_some (o := ()) |>.mpr ⟨by simp [step,hremove],rfl⟩) h

lemma Equal.cmp (h : Equal s n) (a b : Fin 3) : zSchedPrioCmp false (s.threads a) (s.threads b) = 0 := by
  rw [cmp_eq_zero_iff,h.prio a,h.prio b]
  simp

lemma Equal.add (h : Equal s n) (hT : Good false s [0] T) (ht : t ≠ 0) (hpos : 0 < n) :
    ∃ s' T', zPriqRbAdd false s t = some s' ∧ Good false s' [0,t] T' ∧
      takeOrderKey false s t = some (s'.threads,s'.priq.nextOrderKey) := by
  refine hT.add ⟨by simpa using ht,fun hd => by cases hd⟩ ⟨fun u hu _ => ?_,by simp⟩
  rw [mem_singleton.mp hu,lt_iff_toNat_lt,h.first,h.next]
  exact hpos

lemma Equal.lap (h : Equal s n) (hT : Good false s [0] T) (hpos : 0 < n) (hn : n+1 < 2^32) :
    ∃ s' T', Equal s' (n+1) ∧ Good false s' [0] T' ∧ Reaches (s,[0]) [.add 1,.remove 1] (s',[0]) := by
  obtain ⟨s₁,T₁,hadd,hT₁,hkey⟩ := h.add (t := 1) hT (by decide) hpos
  obtain ⟨s₂,T₂,hremove,hT₂,hthreads,hnext⟩ := hT₁.remove (t := 1) (by simp)
  have hnowrap : s.priq.nextOrderKey+1 ≠ 0 := by
    intro hwrap
    have hzero := congrArg toNat hwrap
    rw [UInt32.toNat_add,h.next,UInt32.toNat_zero,UInt32.toNat_one] at hzero
    omega
  rw [takeOrderKey_eq hT.holds] at hkey
  simp only [if_neg hnowrap,some.injEq,Prod.mk.injEq] at hkey
  refine ⟨s₂,T₂,⟨fun t => ?_,?_,?_⟩,hT₂,.add (by decide) hadd (.remove (by decide) hremove .nil)⟩
  · rw [hthreads,← hkey.1,(samePrio_update s.threads 1 _ t).1]
    exact h.prio t
  · rw [hthreads,← hkey.1,update_of_ne (by decide)]
    exact h.first
  · rw [hnext (by decide),← hkey.2,UInt32.toNat_add,h.next,UInt32.toNat_one]
    omega

lemma Equal.laps (h : Equal s n) (hT : Good false s [0] T) (hpos : 0 < n) (k : ℕ) (hn : n+k < 2^32) :
    ∃ s' T', Equal s' (n+k) ∧ Good false s' [0] T' ∧ Reaches (s,[0]) (laps k) (s',[0]) := by
  induction k generalizing s n T with
  | zero => exact ⟨s,T,h,hT,.nil⟩
  | succ k ih =>
    obtain ⟨s₁,T₁,h₁,hT₁,hreach₁⟩ := h.lap hT hpos (by omega)
    obtain ⟨s₂,T₂,h₂,hT₂,hreach₂⟩ := ih h₁ hT₁ (by omega) (by omega)
    exact ⟨s₂,T₂,by rwa [Nat.add_right_comm,Nat.add_assoc] at h₂,hT₂,hreach₁.append hreach₂⟩

/-- At the wraparound the queued thread gets the first key again, and the new one the last. -/
lemma Equal.wrap (h : Equal s (2^32-1)) (hT : Good false s [0] T) :
    ∃ s' T', Equal s' 1 ∧ (s'.threads 1).orderKey.toNat = 2^32-1 ∧ Good false s' [0,1] T' ∧
      zPriqRbAdd false s 1 = some s' := by
  obtain ⟨s₁,T₁,hadd,hT₁,hkey⟩ := h.add (t := 1) hT (by decide) (by omega)
  have hwrap : s.priq.nextOrderKey+1 = 0 := by
    rw [← UInt32.toNat_inj,UInt32.toNat_add,h.next]
    rfl
  have hio := perm_singleton.mp hT.perm
  rw [takeOrderKey_eq hT.holds,hio] at hkey
  simp only [if_pos hwrap,some.injEq,Prod.mk.injEq] at hkey
  refine ⟨s₁,T₁,⟨fun t => ?_,?_,?_⟩,?_,hT₁,hadd⟩
  · rw [← hkey.1,(samePrio_numbered [0] _ 0 t).1,(samePrio_update s.threads 1 _ t).1]
    exact h.prio t
  · rw [← hkey.1]
    simp [numbered]
  · rw [← hkey.2]
    rfl
  · rw [← hkey.1]
    simpa [numbered] using h.next

/-- A thread that gets a key after the wraparound is before one that came first. -/
lemma Equal.overtake (h : Equal s 1) (hlast : (s.threads 1).orderKey.toNat = 2^32-1) (hT : Good false s [0,1] T) :
    ∃ s', Reaches (s,[0,1]) [.add 2,.remove 0] (s',[1,2]) ∧ zPriqRbBest false s' = some (some 2) ∧
      ∀ a b, zSchedPrioCmp false (s'.threads a) (s'.threads b) = 0 := by
  let threads := update s.threads 2 {s.threads 2 with orderKey := s.priq.nextOrderKey}
  have hprio : SamePrio s.threads threads := samePrio_update s.threads 2 _
  have hzero : ∀ a b, zSchedPrioCmp false (threads a) (threads b) = 0 := fun a b =>
    (hprio.cmp a b).trans (h.cmp a b)
  have hkey : takeOrderKey false s 2 = some (threads,s.priq.nextOrderKey+1) := by
    rw [takeOrderKey_eq hT.holds]
    refine congrArg some (if_neg fun hwrap => ?_)
    have := congrArg toNat hwrap
    rw [UInt32.toNat_add,h.next,UInt32.toNat_zero,UInt32.toNat_one] at this
    omega
  have hkeys : ∀ t, (threads t).orderKey.toNat = if t = 0 then 0 else if t = 2 then 1 else 2^32-1 := by
    intro t
    fin_cases t
    · exact h.first
    · exact hlast
    · exact h.next
  have hlt : ∀ a b, zPriqRbLessthan false threads a b = true ↔
      (threads a).orderKey.toNat < (threads b).orderKey.toNat := by
    intro a b
    simp [zPriqRbLessthan,hzero a b,lt_iff_toNat_lt]
  have hmem : ∀ a ∈ T.inorder, a ≠ 2 := by
    intro a ha
    rintro rfl
    exact absurd (hT.perm.mem_iff.mp ha) (by decide)
  have htotal : StrictTotalOn (zPriqRbLessthan false threads) (2::T.inorder) := by
    refine strictTotalOn (fun hd => by cases hd) fun a _ b _ hne _ => ?_
    rw [hkeys a,hkeys b]
    fin_cases a <;> fin_cases b <;> simp at hne ⊢
  have hs : Sorted (zPriqRbLessthan false threads) T := by
    refine imp_of_mem (fun {a b} ha hb hab => ?_) hT.sorted
    simpa [zPriqRbLessthan,threads,hmem a ha,hmem b hb] using hab
  obtain ⟨s₁,T₁,hadd,hthreads,-,hholds,hs₁,hperm⟩ := add_spec hT.holds (fun h2 => hmem 2 h2 rfl) hkey htotal hs
  have hperm' := hperm.trans (hT.perm.cons 2)
  rw [← hthreads] at htotal hs₁
  obtain ⟨s₂,T₂,hremove,hthreads₂,-,hholds₂,hio⟩ := remove_spec (t := 0) hholds
    (hperm'.mem_iff.mpr (by decide)) (htotal.mono fun a => hperm.mem_iff.mp) hs₁
  refine ⟨s₂,.add (by decide) hadd (.remove (by decide) hremove .nil),?_,?_⟩
  · have hperm₂ : T₂.inorder.Perm [2,1] := hio ▸ hperm'.erase 0
    have hs₂ : T₂.inorder.Pairwise fun a b => zPriqRbLessthan false threads a b = true := by
      rw [hio,← hthreads]
      exact hs₁.sublist erase_sublist
    rw [zPriqRbBest,zRbGetMinmax_left hholds₂]
    cases hl : T₂.inorder with
    | nil =>
      rw [hl] at hperm₂
      exact absurd hperm₂.length_eq (by decide)
    | cons a rest =>
      rw [hl] at hperm₂ hs₂
      by_cases ha : a = 2
      · rw [ha]
        rfl
      · have hrest : (2 : Fin 3) ∈ rest := (mem_cons.mp (hperm₂.mem_iff.mpr (by decide))).resolve_left (Ne.symm ha)
        have hfirst := (hlt a 2).mp ((pairwise_cons.mp hs₂).1 2 hrest)
        have hmem₂ := hperm₂.mem_iff.mp (mem_cons_self ..)
        rw [hkeys a,hkeys 2] at hfirst
        fin_cases a <;> simp at hmem₂ hfirst
  · rw [hthreads₂,hthreads]
    exact hzero

/-- Both threads are equal, the first one was added earlier, and the other one is served. -/
theorem wrapped_key_overtaken :
    ∃ s, Along (fun x a => Meets false x.1 x.2 a) (recording (step false) arrivals)
        (init (withPrios fun _ => 0) blankNodes,[]) wrapAround ∧
      (∃ os, serve? (recording (step false) arrivals) (init (withPrios fun _ => 0) blankNodes,[])
        wrapAround = some ((s,[1,2]),os)) ∧
      zPriqRbBest false s = some (some 2) ∧ zSchedPrioCmp false (s.threads 1) (s.threads 2) = 0 := by
  have hinit : Good false (init (withPrios fun _ : Fin 3 => 0) blankNodes) [] .leaf := init_good ..
  obtain ⟨s₀,T₀,hadd₀,hT₀,hkey₀⟩ :=
    hinit.add ⟨by simp,fun hd => by cases hd⟩ ⟨by simp,by simp⟩
  have h₀ : Equal s₀ 1 := by
    obtain ⟨hthreads,hnext⟩ := Prod.mk.inj (some.inj hkey₀)
    refine ⟨fun t => ?_,?_,?_⟩
    · rw [← hthreads,(samePrio_update _ 0 _ t).1]
      rfl
    · rw [← hthreads]
      rfl
    · rw [← hnext]
      rfl
  obtain ⟨s₁,T₁,h₁,hT₁,hreach₁⟩ := h₀.laps hT₀ (by omega) (2^32-2) (by omega)
  obtain ⟨s₂,T₂,h₂,hlast,hT₂,hadd₂⟩ := Equal.wrap (by exact h₁) hT₁
  obtain ⟨s₃,hreach₃,hbest,hzero⟩ := h₂.overtake hlast hT₂
  have hreach : Reaches (init (withPrios fun _ => 0) blankNodes,[]) wrapAround (s₃,[1,2]) :=
    .add (by simp) hadd₀ (hreach₁.append (Reaches.add (by decide) hadd₂ hreach₃))
  exact ⟨s₃,hreach.1,hreach.2,hbest,hzero 1 2⟩

end Wraparound

end ArmFirmware.Zephyr.PriorityQueue
