import ArmFirmware.Library.Trace
import ArmFirmware.Library.WaitQueue

/-! Futexes (`kernel/futex.c`). `k_futex_wait` compares the value before it takes the lock under
which it starts to wait, so that a change of the value and the wake-up that announces it may come
in between. -/
namespace ArmFirmware.Zephyr.Futex
open Library Function

def EAGAIN : ℤ := 11
def ETIMEDOUT : ℤ := 116

/-- The value, the wait queue, and the threads in `k_futex_wait` that have found the value they
expect and do not wait yet. -/
structure State (τ : Type*) where
  val : ℤ
  waitQ : List τ
  tested : τ → Option ℤ

inductive Action (τ : Type*)
  /-- Some thread changes the value. -/
  | store (val : ℤ)
  /-- `k_futex_wait` up to the test of the value. -/
  | wait (thread : τ) (expected : ℤ)
  /-- The rest of it, up to the swap; `outranks` tells which waiting threads the caller outranks. -/
  | pend (thread : τ) (outranks : τ → Bool)
  | wake (wakeAll : Bool)
  /-- The wait of a thread times out. -/
  | timeout (thread : τ)

inductive Reply (τ : Type*)
  | none
  | ret (r : ℤ)
  | tested
  | pended
  /-- `k_futex_wake` returns their number; `k_futex_wait` returns 0 to each. -/
  | woken (threads : List τ)
  deriving DecidableEq

def init {τ : Type*} (val : ℤ) : State τ := ⟨val,[],fun _ => none⟩

section Steps
variable {τ : Type*} [DecidableEq τ]

def kFutexWake (s : State τ) (wakeAll : Bool) : State τ × Reply τ :=
  if wakeAll then ({s with waitQ := []},.woken s.waitQ)
  else ({s with waitQ := s.waitQ.tail},.woken (s.waitQ.take 1))

def step (s : State τ) : Action τ → Option (State τ × Reply τ)
  | .store val => some ({s with val},.none)
  | .wait t expected =>
    if s.val ≠ expected then some (s,.ret (-EAGAIN))
    else some ({s with tested := update s.tested t (some expected)},.tested)
  | .pend t outranks =>
    some ({s with
      waitQ := WaitQueue.pend outranks t s.waitQ, tested := update s.tested t none},.pended)
  | .wake wakeAll => some (kFutexWake s wakeAll)
  | .timeout t => some ({s with waitQ := s.waitQ.erase t},.ret (-ETIMEDOUT))

/-- A thread in `k_futex_wait` makes no other call; only threads that have passed the test start to
wait, and only threads that wait time out. -/
def Meets (s : State τ) : Action τ → Prop
  | .wait t _ => s.tested t = none ∧ t ∉ s.waitQ
  | .pend t _ => s.tested t ≠ none
  | .timeout t => t ∈ s.waitQ
  | _ => True

instance (s : State τ) (a : Action τ) : Decidable (Meets s a) := by
  unfold Meets
  split <;> infer_instance

/-- Of the threads in `k_futex_wait`: what they expect, and whether the value has been changed to
another one since they have passed the test. -/
abbrev Watch (τ : Type*) := τ → Option (ℤ × Bool)

def Watch.next (w : Watch τ) (_s _t : State τ) (a : Action τ) (o : Reply τ) : Watch τ :=
  match a,o with
  | .store val,_ => fun t => (w t).map fun e => (e.1,e.2 || e.1 ≠ val)
  | .wait t expected,.tested => update w t (some (expected,false))
  | .wake _,.woken threads => fun t => if t ∈ threads then none else w t
  | .timeout t,_ => update w t none
  | _,_ => w

def Watch.changed (w : Watch τ) (t : τ) : Bool := (w t).any (·.2)

/-- A wake-up finds every thread whose value has been changed in the wait queue: it wakes one thread
at least, and all of those if it is for all. -/
def Reaches (x : State τ × Watch τ) (a : Action τ) (o : Reply τ) : Prop :=
  ∀ wakeAll, a = .wake wakeAll → ∀ t, x.2.changed t = true → t ∈ x.1.waitQ ∧
    ∃ threads, o = .woken threads ∧ threads ≠ [] ∧ (wakeAll = true → t ∈ threads)

/-- No wake-up comes while a thread that has passed the test, and whose value has been changed
since, does not wait yet. -/
def Heard (x : State τ × Watch τ) : Action τ → Prop
  | .wake _ => ∀ t, x.1.tested t ≠ none → x.2.changed t = false
  | _ => True

instance [Fintype τ] (x : State τ × Watch τ) (a : Action τ) : Decidable (Heard x a) := by
  unfold Heard
  split <;> infer_instance

/-- The threads in `k_futex_wait` have passed the test or wait. -/
def Placed (s : State τ) (w : Watch τ) : Prop := ∀ t, w t ≠ none → s.tested t ≠ none ∨ t ∈ s.waitQ

omit [DecidableEq τ] in
/-- One wake-up takes the first thread or all threads from the wait queue. -/
lemma kFutexWake_spec (s : State τ) (wakeAll : Bool) : ∃ threads waitQ,
    kFutexWake s wakeAll = ({s with waitQ},.woken threads) ∧ s.waitQ = threads++waitQ ∧
      (s.waitQ ≠ [] → threads ≠ []) ∧ (wakeAll = true → waitQ = []) := by
  cases wakeAll with
  | true => exact ⟨s.waitQ,[],rfl,by simp,id,fun _ => rfl⟩
  | false =>
    refine ⟨s.waitQ.take 1,s.waitQ.tail,rfl,?_,by simp,nofun⟩
    rw [← List.drop_one,List.take_append_drop]

/-- Watched threads stay about to pend or in the wait queue. -/
lemma step_placed {s : State τ} {w : Watch τ} (h : Placed s w) (a : Action τ) :
    ∃ t o, step s a = some (t,o) ∧ Placed t (w.next s t a o) := by
  cases a with
  | store val =>
    refine ⟨_,_,rfl,fun t ht => h t ?_⟩
    simpa [Watch.next] using ht
  | wait t expected =>
    dsimp only [step]
    split_ifs
    · exact ⟨_,_,rfl,h⟩
    · refine ⟨_,_,rfl,fun u hu => ?_⟩
      by_cases hut : u = t
      · exact .inl (by simp [hut])
      · simpa [hut] using h u (by simpa [Watch.next,hut] using hu)
  | pend t outranks =>
    refine ⟨_,_,rfl,fun u hu => ?_⟩
    by_cases hut : u = t
    · exact .inr (WaitQueue.mem_pend.mpr (.inl hut))
    · refine (h u hu).imp (fun htested => ?_) fun hwaits => WaitQueue.mem_pend.mpr (.inr hwaits)
      simpa [hut] using htested
  | wake wakeAll =>
    obtain ⟨threads,waitQ,hwake,hsplit,-⟩ := kFutexWake_spec s wakeAll
    refine ⟨_,_,congrArg some hwake,fun u hu => ?_⟩
    simp only [Watch.next,ne_eq,ite_eq_left_iff,Classical.not_imp] at hu
    refine (h u hu.2).imp_right fun hwaits => ?_
    rw [hsplit,List.mem_append] at hwaits
    exact hwaits.resolve_left hu.1
  | timeout t =>
    refine ⟨_,_,rfl,fun u hu => ?_⟩
    have hut : u ≠ t := by
      rintro rfl
      simp [Watch.next] at hu
    refine (h u (by simpa [Watch.next,hut] using hu)).imp_right fun hwaits => ?_
    exact (List.mem_erase_of_ne hut).mpr hwaits

lemma step_reaches {s t : State τ} {w : Watch τ} (h : Placed s w) {a : Action τ} (ha : Heard (s,w) a) {o : Reply τ}
    (hstep : step s a = some (t,o)) : Reaches (s,w) a o := by
  rintro wakeAll rfl u hu
  have hwaits : u ∈ s.waitQ := by
    refine (h u ?_).resolve_left fun htested => ?_
    · intro hnone
      simp [Watch.changed,hnone] at hu
    · exact Bool.false_ne_true ((ha u htested).symm.trans hu)
  obtain ⟨threads,waitQ,hwake,hsplit,hsome,hall⟩ := kFutexWake_spec s wakeAll
  cases hstep.symm.trans (congrArg some hwake)
  refine ⟨hwaits,threads,rfl,hsome (List.ne_nil_of_mem hwaits),fun h => ?_⟩
  rw [hsplit,hall h,List.append_nil] at hwaits
  exact hwaits

end Steps

def heard : List (Action Unit) :=
  [.wait () 0,.pend () fun _ => false,.store 1,.wake false,.wait () 0]

def unheard : List (Action Unit) :=
  [.wait () 0,.store 1,.wake true,.pend () fun _ => false]

end ArmFirmware.Zephyr.Futex
