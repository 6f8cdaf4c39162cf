import Mathlib

/-! Finite maps as partial functions, the calls a dictionary offers on them, and entry
lists that represent them. -/
namespace ArmFirmware.Library
open List Function Prod

section Calls
variable (K V : Type*)

inductive MapOp where
  | insert (key : K) (value : V)
  | remove (key : K)
  | get (key : K)
  | clear

/-- Replies carry the return value and what is stored through the out pointer; a clear
replies with the entries it hands to its callback. -/
inductive MapReply where
  | inserted (ret : ℤ) (oldValue : Option V)
  | removed (found : Bool) (value : Option V)
  | got (found : Bool) (value : Option V)
  | cleared (entries : List (K × V))
  deriving DecidableEq

end Calls

variable {K V : Type*}

/-- The entries have distinct keys and are the graph of the map. -/
structure Represents (l : List (K × V)) (m : K → Option V) : Prop where
  nodup : (l.map fst).Nodup
  mem_iff : ∀ k v, (k,v) ∈ l ↔ m k = some v

noncomputable def mapSize (m : K → Option V) : ℕ := {k | m k ≠ none}.ncard

/-- The calls on a finite map. What a new key finds as its old value is not said. -/
inductive MapStep [DecidableEq K] : (K → Option V) → MapOp K V → MapReply K V →
    (K → Option V) → Prop
  | insert_new (m k v old) (h : m k = none) :
      MapStep m (.insert k v) (.inserted 1 old) (update m k (some v))
  | insert_existing (m k v old) (h : m k = some old) :
      MapStep m (.insert k v) (.inserted 0 (some old)) (update m k (some v))
  | remove (m k v) (h : m k = some v) :
      MapStep m (.remove k) (.removed true (some v)) (update m k none)
  | remove_missing (m k) (h : m k = none) : MapStep m (.remove k) (.removed false none) m
  | get (m k v) (h : m k = some v) : MapStep m (.get k) (.got true (some v)) m
  | get_missing (m k) (h : m k = none) : MapStep m (.get k) (.got false none) m
  | clear (m entries) (h : Represents entries m) :
      MapStep m .clear (.cleared entries) (fun _ => none)

namespace Represents
variable {l l' : List (K × V)} {m : K → Option V} {k : K} {v w : V}

theorem nil : Represents ([] : List (K × V)) (fun _ => none) := ⟨by simp,by simp⟩

theorem perm (h : Represents l m) (hp : l.Perm l') : Represents l' m :=
  ⟨(hp.map fst).nodup_iff.mp h.nodup,fun k v => hp.mem_iff.symm.trans (h.mem_iff k v)⟩

theorem eq_none_iff (h : Represents l m) : m k = none ↔ k ∉ l.map fst := by
  constructor
  · intro hk hmem
    obtain ⟨⟨k',v⟩,hv,rfl⟩ := mem_map.mp hmem
    rw [(h.mem_iff k' v).mp hv] at hk
    contradiction
  · intro hk
    cases hm : m k with
    | none => rfl
    | some v => exact absurd (mem_map.mpr ⟨(k,v),(h.mem_iff k v).mpr hm,rfl⟩) hk

theorem size (h : Represents l m) : mapSize m = l.length := by
  classical
  have hset : {k | m k ≠ none} = ((l.map fst).toFinset : Set K) := by
    ext k
    change m k ≠ none ↔ _
    simp only [coe_toFinset,ne_eq,h.eq_none_iff,not_not]
    rfl
  rw [mapSize,hset,Set.ncard_coe_finset,toFinset_card_of_nodup h.nodup,length_map]

variable [DecidableEq K]

theorem insert (h : Represents l m) (hk : m k = none) : Represents ((k,v)::l) (update m k (some v)) := by
  have hfresh := h.eq_none_iff.mp hk
  refine ⟨nodup_cons.mpr ⟨hfresh,h.nodup⟩,?_⟩
  intro k' v'
  rw [mem_cons,mk.injEq,h.mem_iff]
  by_cases he : k' = k
  · subst he
    simp [hk,eq_comm]
  · simp [he]

theorem erase (h : Represents ((k,v)::l) m) : Represents l (update m k none) := by
  have hnodup := h.nodup
  rw [map_cons,nodup_cons] at hnodup
  refine ⟨hnodup.2,?_⟩
  intro k' v'
  by_cases he : k' = k
  · subst he
    simp only [Function.update_self,reduceCtorEq,iff_false]
    exact fun hmem => hnodup.1 (mem_map.mpr ⟨_,hmem,rfl⟩)
  · rw [Function.update_of_ne he,← h.mem_iff]
    simp [he]

theorem replace (h : Represents ((k,v)::l) m) : Represents ((k,w)::l) (update m k (some w)) := by
  have := h.erase.insert (k := k) (v := w) (by simp)
  simpa using this

end Represents
end ArmFirmware.Library
