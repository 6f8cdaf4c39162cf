import Mathlib

/-! Jobs on a board of servers. Each server has a list of pending jobs and works on one job at
a time. A job is at one server: it may be pending and active at once, but only there. -/
namespace ArmFirmware.Library
open List Option Function

variable {ν κ : Type*}

/-- Queues of nodes, the node each one works on, and the queue each node is at. -/
structure Board (ν κ : Type*) where
  pending : κ → List ν
  active : κ → Option ν
  home : ν → Option κ

namespace Board

/-- No job is pending twice, and pending and active jobs are at home. -/
structure Sound (b : Board ν κ) : Prop where
  nodup (q : κ) : (b.pending q).Nodup
  pending (q : κ) (n : ν) : n ∈ b.pending q → b.home n = some q
  active (q : κ) (n : ν) : b.active q = some n → b.home n = some q

def empty : Board ν κ := ⟨fun _ => [],fun _ => none,fun _ => none⟩

variable {b b' : Board ν κ} {q q' : κ} {n m : ν}

lemma empty_sound : (empty : Board ν κ).Sound :=
  ⟨fun _ => nodup_nil,fun _ _ h => absurd h not_mem_nil,fun _ _ h => by simp [empty] at h⟩

lemma Sound.pending_eq (h : b.Sound) (hq : n ∈ b.pending q) (hq' : n ∈ b.pending q') : q = q' :=
  some.inj ((h.pending q n hq).symm.trans (h.pending q' n hq'))

lemma Sound.active_eq (h : b.Sound) (hq : b.active q = some n) (hq' : b.active q' = some n) : q = q' :=
  some.inj ((h.active q n hq).symm.trans (h.active q' n hq'))

lemma Sound.pending_active (h : b.Sound) (hq : b.active q = some n) (hq' : n ∈ b.pending q') : q = q' :=
  some.inj ((h.active q n hq).symm.trans (h.pending q' n hq'))

variable [DecidableEq κ] [DecidableEq ν]

@[simps active home] def add (b : Board ν κ) (q : κ) (n : ν) (l : List ν) : Board ν κ :=
  {b with pending := update b.pending q l, home := update b.home n (some q)}

attribute [local simp] Board.add

@[simps active home] def remove (b : Board ν κ) (q : κ) (n : ν) : Board ν κ :=
  {b with pending := update b.pending q ((b.pending q).erase n)}

attribute [local simp] Board.remove

@[simps active home] def take (b : Board ν κ) (q : κ) : Board ν κ :=
  {b with
    pending := update b.pending q (b.pending q).tail
    active := update b.active q (b.pending q).head?}

attribute [local simp] Board.take

@[simps] def finish (b : Board ν κ) (q : κ) : Board ν κ :=
  {b with active := update b.active q none}

section Members
variable {l : List ν}

lemma mem_add (hperm : l.Perm (n::b.pending q)) :
    m ∈ (b.add q n l).pending q' ↔ m ∈ b.pending q' ∨ q' = q ∧ m = n := by
  by_cases hq : q' = q
  · subst hq
    simp [add,hperm.mem_iff,or_comm]
  · simp [add,hq]

lemma Sound.mem_remove (h : b.Sound) : m ∈ (b.remove q n).pending q' ↔ m ∈ b.pending q' ∧ ¬(q' = q ∧ m = n) := by
  by_cases hq : q' = q
  · subst hq
    simp [(h.nodup q').mem_erase_iff,and_comm]
  · simp [hq]

omit [DecidableEq ν] in
lemma Sound.mem_take (h : b.Sound) :
    m ∈ (b.take q).pending q' ↔ m ∈ b.pending q' ∧ ¬(q' = q ∧ (b.pending q).head? = some m) := by
  by_cases hq : q' = q
  · subst hq
    have hnodup := h.nodup q'
    cases hp : b.pending q' with
    | nil => simp [hp]
    | cons x l =>
      simp only [Board.take,hp,Function.update_self,tail_cons,mem_cons,List.head?_cons,Option.some.injEq,true_and]
      grind
  · simp [hq]

end Members

/-- A node that is pending nowhere is added to a queue. -/
lemma Sound.add (h : b.Sound) {l : List ν} (hperm : l.Perm (n::b.pending q))
    (hpending : ∀ q', n ∉ b.pending q') (hactive : ∀ q', b.active q' = some n → q' = q) : (b.add q n l).Sound := by
  refine ⟨fun q' => ?_,fun q' m hm => ?_,fun q' m hm => ?_⟩
  · by_cases hq : q' = q
    · subst hq
      simpa using hperm.nodup_iff.mpr (nodup_cons.mpr ⟨hpending q',h.nodup q'⟩)
    · simpa [hq] using h.nodup q'
  · by_cases hn : m = n
    · subst hn
      by_cases hq : q' = q
      · simp [hq]
      · exact absurd (by simpa [hq] using hm) (hpending q')
    · by_cases hq : q' = q
      · subst hq
        have hmem : m ∈ b.pending q' := by
          have := hperm.mem_iff.mp (by simpa using hm)
          simpa [hn] using this
        simpa [hn] using h.pending q' m hmem
      · simpa [hn] using h.pending q' m (by simpa [hq] using hm)
  · by_cases hn : m = n
    · subst hn
      simp [hactive q' hm]
    · simpa [hn] using h.active q' m hm

lemma Sound.remove (h : b.Sound) (q : κ) (n : ν) : (b.remove q n).Sound := by
  refine ⟨fun q' => ?_,fun q' m hm => ?_,h.active⟩
  · by_cases hq : q' = q
    · subst hq
      simpa using (h.nodup q').erase n
    · simpa [hq] using h.nodup q'
  · by_cases hq : q' = q
    · subst hq
      exact h.pending q' m (mem_of_mem_erase (by simpa using hm))
    · exact h.pending q' m (by simpa [hq] using hm)

omit [DecidableEq ν] in
lemma Sound.take (h : b.Sound) (q : κ) : (b.take q).Sound := by
  refine ⟨fun q' => ?_,fun q' m hm => ?_,fun q' m hm => ?_⟩
  · by_cases hq : q' = q
    · subst hq
      simpa using (h.nodup q').tail
    · simpa [hq] using h.nodup q'
  · by_cases hq : q' = q
    · subst hq
      exact h.pending q' m (mem_of_mem_tail (by simpa using hm))
    · exact h.pending q' m (by simpa [hq] using hm)
  · by_cases hq : q' = q
    · subst hq
      exact h.pending q' m (mem_of_head? (by simpa using hm))
    · exact h.active q' m (by simpa [hq] using hm)

omit [DecidableEq ν] in
lemma Sound.finish (h : b.Sound) (q : κ) : (b.finish q).Sound := by
  refine ⟨h.nodup,h.pending,fun q' m hm => ?_⟩
  by_cases hq : q' = q
  · simp [Board.finish,hq] at hm
  · exact h.active q' m (by simpa [Board.finish,hq] using hm)

end Board
end ArmFirmware.Library
