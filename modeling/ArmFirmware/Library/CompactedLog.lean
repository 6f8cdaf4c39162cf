import Mathlib

/-! A map kept as a log of entries, the last one first. An entry counts if no later one has its key;
entries may be dead, which means that the key has no value. Old entries are collected by appending
those that count once more. -/
namespace ArmFirmware.Library
open List

section CompactedLog
variable {α κ : Type*} [DecidableEq κ] (key : α → κ) (dead : α → Bool)

/-- The entry that counts for a key, if it is not dead. -/
def latest (log : List α) (k : κ) : Option α := (log.find? fun a => key a = k).filter fun a => !dead a

/-- The entries of the old part that are still to be appended, when `newer` are all entries that are later. -/
def collect (newer : List α) : List α → List α → List α
  | [],moved => moved
  | a::old,moved => collect (newer++[a]) old (if (newer.any fun b => key b = key a) ∨ dead a then moved
    else a::moved)

variable {key dead}

lemma latest_append (log old : List α) (k : κ) :
    latest key dead (log++old) k = if log.any (fun b => key b = k) then latest key dead log k
      else latest key dead old k := by
  simp only [latest,List.find?_append]
  cases hfind : log.find? (fun a => key a = k) with
  | none =>
    have hnot : log.any (fun b => key b = k) = false := by simpa using hfind
    simp [hnot]
  | some a =>
    have hany : log.any (fun b => key b = k) = true := by
      rw [any_eq_true]
      exact ⟨a,mem_of_find?_eq_some hfind,List.find?_some (p := fun a => decide (key a = k)) hfind⟩
    simp [hany]

lemma latest_of_not_any {log : List α} {k : κ} (h : log.any (fun b => key b = k) = false) :
    latest key dead log k = none := by
  have hfind : log.find? (fun a => key a = k) = none := by simpa using h
  rw [latest,hfind,Option.filter_none]

lemma latest_cons (a : α) (log : List α) (k : κ) :
    latest key dead (a::log) k = if key a = k then (if dead a then none else some a) else latest key dead log k := by
  by_cases h : key a = k <;> cases hd : dead a <;> simp [latest,h,hd,Option.filter]

lemma latest_nil (k : κ) : latest key dead [] k = none := rfl

/-- Nothing is lost when the entries that count are appended and the old ones dropped. -/
theorem latest_collect (mids old : List α) (k : κ) :
    latest key dead (collect key dead mids old []++mids) k = latest key dead (mids++old) k := by
  suffices h : ∀ done moved : List α, (∀ k, latest key dead (moved++mids) k = latest key dead (mids++done) k) →
      latest key dead (collect key dead (mids++done) old moved++mids) k = latest key dead (mids++(done++old)) k by
    simpa using h [] [] (by simp)
  induction old with
  | nil =>
    intro done moved h
    simpa [collect] using h k
  | cons a old ih =>
    intro done moved h
    rw [collect,append_assoc,show done++a::old = done++[a]++old by simp]
    refine ih (done++[a]) _ fun k => ?_
    rw [← append_assoc,latest_append (mids++done) [a]]
    by_cases hlater : ((mids++done).any fun b => key b = key a) = true
    · -- a later entry has the key
      rw [if_pos (.inl hlater),h k]
      by_cases hk : key a = k
      · rw [if_pos (hk ▸ hlater)]
      · split_ifs with hany
        · rfl
        · rw [Bool.not_eq_true] at hany
          rw [latest_of_not_any hany,latest_cons,if_neg hk,latest_nil]
    by_cases hdead : dead a = true
    · rw [if_pos (.inr hdead),h k]
      split_ifs with hany
      · rfl
      · rw [Bool.not_eq_true] at hany
        rw [latest_of_not_any hany,latest_cons,if_pos hdead,latest_nil,ite_self]
    · rw [if_neg (by simp [hlater,hdead]),cons_append,latest_cons,h k]
      by_cases hk : key a = k
      · subst hk
        simp [hlater,hdead,latest_cons]
      · rw [if_neg hk]
        split_ifs with hany
        · rfl
        · rw [Bool.not_eq_true] at hany
          rw [latest_of_not_any hany,latest_cons,if_neg hk,latest_nil]

end CompactedLog
end ArmFirmware.Library
