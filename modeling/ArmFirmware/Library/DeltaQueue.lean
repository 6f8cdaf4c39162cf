import Mathlib

/-! Queues of timed entries in which each entry keeps its distance to the one before it. The
times of the entries are prefix sums; inserting behind equal times keeps their order. -/
namespace ArmFirmware.Library.DeltaQueue
open List Prod
variable {α : Type*}

/-- The times of the entries of a delta-encoded queue that starts at `base`. -/
def times (base : ℤ) : List (α × ℤ) → List (α × ℤ)
  | [] => []
  | (a,d)::l => (a,base+d)::times (base+d) l

/-- Insert behind every entry that is not later. -/
def insertDue (x : α × ℤ) : List (α × ℤ) → List (α × ℤ)
  | [] => [x]
  | y::l => if x.2 < y.2 then x::y::l else y::insertDue x l

abbrev InTime (l : List (α × ℤ)) : Prop := l.Pairwise (·.2 ≤ ·.2)

/-- Two queues with the same entries and the same order among entries of equal time. -/
def SameOrder (l l' : List (α × ℤ)) : Prop :=
  ∀ e, l.filter (·.2 = e) = l'.filter (·.2 = e)

section Times
variable {base : ℤ} {l : List (α × ℤ)}

@[simp] lemma times_map_fst (base : ℤ) (l : List (α × ℤ)) : (times base l).map fst = l.map fst := by
  induction l generalizing base with
  | nil => rfl
  | cons x l ih => simp [times,ih]

lemma le_of_mem_times (hnonneg : ∀ x ∈ l, 0 ≤ x.2) {q : α × ℤ} (hq : q ∈ times base l) : base ≤ q.2 := by
  induction l generalizing base with
  | nil => simp [times] at hq
  | cons x l ih =>
    have hx := hnonneg x (mem_cons_self ..)
    rcases mem_cons.mp hq with rfl | hq
    · simpa using hx
    · have := ih (fun y hy => hnonneg y (mem_cons_of_mem _ hy)) hq
      omega

lemma times_inTime (hnonneg : ∀ x ∈ l, 0 ≤ x.2) : InTime (times base l) := by
  induction l generalizing base with
  | nil => exact .nil
  | cons x l ih =>
    have htail : ∀ y ∈ l, 0 ≤ y.2 := fun y hy => hnonneg y (mem_cons_of_mem _ hy)
    exact .cons (fun q hq => le_of_mem_times htail hq) (ih htail)

end Times

section Order
variable {l l' : List (α × ℤ)} {x : α × ℤ}

/-- A new item stands behind those that are due at the same time. -/
lemma filter_insertDue (h : InTime l) (e : ℤ) :
    (insertDue x l).filter (·.2 = e) = l.filter (·.2 = e)++[x].filter (·.2 = e) := by
  induction l with
  | nil => simp [insertDue]
  | cons y l ih =>
    obtain ⟨hy,hl⟩ := pairwise_cons.mp h
    rw [insertDue]
    split_ifs with hlt
    · -- nothing at later
      by_cases hx : x.2 = e
      · have hnone : (y::l).filter (·.2 = e) = [] := by
          refine filter_eq_nil_iff.mpr fun q hq => ?_
          have : y.2 ≤ q.2 := by
            rcases mem_cons.mp hq with rfl | hq
            · exact le_rfl
            · exact hy q hq
          simp only [decide_eq_true_eq]
          omega
        rw [filter_cons_of_pos (by simpa using hx),hnone,nil_append,
          filter_cons_of_pos (by simpa using hx),filter_nil]
      · have hnil : [x].filter (·.2 = e) = [] := by simp [hx]
        rw [filter_cons_of_neg (by simpa using hx),hnil,append_nil]
    · rw [filter_cons,filter_cons,ih hl]
      split_ifs <;> simp

lemma eraseP_eq_filter [DecidableEq α] (hnodup : (l.map fst).Nodup) (a : α) :
    l.eraseP (·.1 = a) = l.filter (·.1 ≠ a) := by
  induction l with
  | nil => rfl
  | cons y l ih =>
    obtain ⟨hy,hl⟩ := nodup_cons.mp hnodup
    by_cases ha : y.1 = a
    · have hall : l.filter (·.1 ≠ a) = l := filter_eq_self.mpr fun q hq => by
        have : q.1 ≠ a := fun h => hy (ha ▸ h ▸ mem_map_of_mem hq)
        simpa using this
      rw [eraseP_cons_of_pos (by simpa using ha),filter_cons_of_neg (by simpa using ha),hall]
    · rw [eraseP_cons_of_neg (by simpa using ha),filter_cons_of_pos (by simpa using ha),ih hl]

namespace SameOrder

lemma refl (l : List (α × ℤ)) : SameOrder l l := fun _ => rfl

section
variable (h : SameOrder l l')
include h

lemma mem_iff (q : α × ℤ) : q ∈ l ↔ q ∈ l' := by
  have hf : ∀ m : List (α × ℤ), q ∈ m ↔ q ∈ m.filter (·.2 = q.2) := by simp
  rw [hf l,hf l',h q.2]

lemma perm [DecidableEq α] : l.Perm l' := by
  refine perm_iff_count.mpr fun q => ?_
  have hf : ∀ m : List (α × ℤ), m.count q = (m.filter (·.2 = q.2)).count q := fun m =>
    (count_filter (by simp)).symm
  rw [hf l,hf l',h q.2]

lemma filter (p : α × ℤ → Bool) : SameOrder (l.filter p) (l'.filter p) := by
  intro e
  rw [filter_comm,h e,filter_comm]

lemma insertDue (hl : InTime l) (x : α × ℤ) : SameOrder (insertDue x l) (l'++[x]) := by
  intro e
  rw [filter_insertDue hl,h e,filter_append]

lemma eraseP [DecidableEq α] (hnodup : (l.map fst).Nodup) (a : α) :
    SameOrder (l.eraseP (·.1 = a)) (l'.filter (·.1 ≠ a)) := by
  rw [eraseP_eq_filter hnodup]
  exact h.filter _

end

/-- The first entry of a queue in time is the first of the least time in the other queue. -/
lemma head (h : SameOrder (x::l) l') (hl : InTime (x::l)) :
    ∃ l₁ l₂, l' = l₁++x::l₂ ∧ (∀ q ∈ l₁, x.2 < q.2) ∧ (∀ q ∈ l₂, x.2 ≤ q.2) ∧ SameOrder l (l₁++l₂) := by
  have hx := h x.2
  rw [filter_cons_of_pos (by simp),eq_comm,filter_eq_cons_iff] at hx
  obtain ⟨l₁,l₂,rfl,hfirst,-,hrest⟩ := hx
  have hle : ∀ q ∈ l₁++x::l₂, x.2 ≤ q.2 := by
    intro q hq
    rcases mem_cons.mp ((h.mem_iff q).mpr hq) with rfl | hq
    · exact le_rfl
    · exact (pairwise_cons.mp hl).1 q hq
  refine ⟨l₁,l₂,rfl,fun q hq => ?_,fun q hq => hle q (by simp [hq]),fun e => ?_⟩
  · have hne : q.2 ≠ x.2 := by simpa using hfirst q hq
    exact lt_of_le_of_ne (hle q (by simp [hq])) hne.symm
  · have he := h e
    rw [filter_append] at he ⊢
    by_cases hxe : x.2 = e
    · have hnil : l₁.filter (·.2 = e) = [] := by
        rw [← hxe]
        exact filter_eq_nil_iff.mpr hfirst
      rw [filter_cons_of_pos (by simpa using hxe),filter_cons_of_pos (by simpa using hxe),hnil,nil_append] at he
      rw [hnil,nil_append]
      exact (List.cons.inj he).2
    · rwa [filter_cons_of_neg (by simpa using hxe),filter_cons_of_neg (by simpa using hxe)] at he

end SameOrder
end Order
end ArmFirmware.Library.DeltaQueue
