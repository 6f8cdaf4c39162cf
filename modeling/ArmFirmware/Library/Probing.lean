import ArmFirmware.Library.FiniteMap

/-! Linear probing in a table of slots. A key sits on its probe sequence with no free slot
before it, so a search that ends at a free slot, or nowhere, knows that the key is absent. -/
namespace ArmFirmware.Library
open List Nat Function Option

inductive Slot (K V : Type*) where
  | free
  | deleted
  | used (key : K) (value : V)

namespace Slot
variable {K V : Type*}

def pair? : Slot K V → Option (K × V)
  | used k v => some (k,v)
  | _ => none

@[simp] lemma pair?_free : (free : Slot K V).pair? = none := rfl
@[simp] lemma pair?_deleted : (deleted : Slot K V).pair? = none := rfl
@[simp] lemma pair?_used (k : K) (v : V) : (used k v).pair? = some (k,v) := rfl

lemma pair?_eq_some {x : Slot K V} {k : K} {v : V} : x.pair? = some (k,v) ↔ x = used k v := by
  cases x <;> simp

end Slot

section Tables
variable {K V : Type*} {t : List (Slot K V)} {hash : K → ℕ} {m : K → Option V} {k : K} {v : V}

def entries (t : List (Slot K V)) : List (K × V) := t.filterMap Slot.pair?

/-- Slot `i` of the probe sequence that starts at `h`. -/
def probe (t : List (Slot K V)) (h i : ℕ) : ℕ := (h+i) % t.length

/-- The probe sequence from `h` stops at round `i`, for the first time. -/
structure StopsAt (stop : Slot K V → Prop) (t : List (Slot K V)) (h i : ℕ) (x : Slot K V) :
    Prop where
  lt : i < t.length
  get : t[probe t h i]? = some x
  stops : stop x
  first : ∀ j < i, ∀ y, t[probe t h j]? = some y → ¬stop y

/-- Every key is on its probe sequence, with no free slot before it. -/
def Chained (hash : K → ℕ) (t : List (Slot K V)) : Prop :=
  ∀ s k v, t[s]? = some (.used k v) →
    ∃ i < t.length, probe t (hash k) i = s ∧ ∀ j < i, t[probe t (hash k) j]? ≠ some .free

/-- What a search for a key stops at. -/
def Decides (k : K) : Slot K V → Prop
  | .free => True
  | .deleted => False
  | .used k' _ => k' = k

/-- A probe sequence passes every slot. -/
lemma exists_probe_eq (h : ℕ) {s : ℕ} (hs : s < t.length) : ∃ i < t.length, probe t h i = s := by
  have hmod : h % t.length < t.length := mod_lt _ (by omega)
  refine ⟨(s+t.length-h % t.length) % t.length,mod_lt _ (by omega),?_⟩
  rw [probe,add_mod_mod,← mod_add_mod,
    show h % t.length+(s+t.length-h % t.length) = s+t.length by omega,add_mod_right,mod_eq_of_lt hs]

lemma mem_entries : (k,v) ∈ entries t ↔ ∃ s : ℕ, t[s]? = some (.used k v) := by
  rw [entries,mem_filterMap]
  constructor
  · rintro ⟨x,hx,he⟩
    rw [Slot.pair?_eq_some.mp he] at hx
    exact mem_iff_getElem?.mp hx
  · rintro ⟨s,hs⟩
    exact ⟨_,mem_of_getElem? hs,rfl⟩

lemma entries_perm_set {s : ℕ} {x : Slot K V} (hs : t[s]? = some x) :
    ∃ rest, (entries t).Perm (x.pair?.toList ++ rest) ∧
      ∀ y, (entries (t.set s y)).Perm (y.pair?.toList ++ rest) := by
  induction t generalizing s with
  | nil => simp at hs
  | cons a t ih =>
    have hcons : ∀ b (l : List (Slot K V)), entries (b::l) = b.pair?.toList ++ entries l := by
      intro b l
      cases b <;> rfl
    cases s with
    | zero =>
      obtain rfl : a = x := by simpa using hs
      exact ⟨entries t,by rw [hcons],fun y => by rw [set_cons_zero,hcons]⟩
    | succ s =>
      obtain ⟨rest,h₁,h₂⟩ := ih (by simpa using hs)
      refine ⟨a.pair?.toList ++ rest,?_,fun y => ?_⟩
      · rw [hcons]
        exact (h₁.append_left _).trans (perm_append_comm_assoc _ _ _)
      · rw [set_cons_succ,hcons]
        exact ((h₂ y).append_left _).trans (perm_append_comm_assoc _ _ _)

lemma entries_replicate_free (n : ℕ) : entries (replicate n (.free : Slot K V)) = [] := by
  simp [entries,filterMap_replicate]

lemma entries_length_le : (entries t).length ≤ t.length := length_filterMap_le _ _

section Search
variable {i : ℕ} {x : Slot K V}

theorem lookup_used (hm : Represents (entries t) m)
    (h : StopsAt (Decides k) t (hash k) i (.used k v)) : m k = some v :=
  (hm.mem_iff k v).mp (mem_entries.mpr ⟨_,h.get⟩)

/-- A search that stops at a free slot has passed every place the key could be in. -/
theorem lookup_free (hc : Chained hash t) (hm : Represents (entries t) m)
    (h : StopsAt (Decides k) t (hash k) i .free) : m k = none := by
  by_contra hne
  obtain ⟨v,hv⟩ := ne_none_iff_exists'.mp hne
  obtain ⟨s,hs⟩ := mem_entries.mp ((hm.mem_iff k v).mpr hv)
  obtain ⟨j,-,rfl,hfree⟩ := hc s k v hs
  have hij : i ≤ j := by
    by_contra hlt
    exact h.first j (by omega) _ hs rfl
  obtain hlt | rfl := lt_or_eq_of_le hij
  · exact hfree i hlt h.get
  · rw [h.get] at hs
    simp at hs

theorem lookup_none (hc : Chained hash t) (hm : Represents (entries t) m)
    (h : ∀ i < t.length, ∀ x, t[probe t (hash k) i]? = some x → ¬Decides k x) : m k = none := by
  by_contra hne
  obtain ⟨v,hv⟩ := ne_none_iff_exists'.mp hne
  obtain ⟨s,hs⟩ := mem_entries.mp ((hm.mem_iff k v).mpr hv)
  obtain ⟨j,hj,rfl,-⟩ := hc s k v hs
  exact h j hj _ hs rfl

/-- In a table without deleted slots and with room, every search stops. -/
theorem exists_stop (hroom : (entries t).length < t.length) (hd : Slot.deleted ∉ t) (h : ℕ) :
    ∃ i < t.length, ∃ x, t[probe t h i]? = some x ∧ Decides k x := by
  obtain ⟨s,hs⟩ : ∃ s : ℕ, t[s]? = some .free := by
    obtain ⟨x,hx,hnone⟩ := length_filterMap_lt_length_iff_exists.mp hroom
    cases x with
    | free => exact mem_iff_getElem?.mp hx
    | deleted => exact absurd hx hd
    | used k v => simp at hnone
  have hlt := (List.getElem?_eq_some_iff.mp hs).1
  obtain ⟨i,hi,hprobe⟩ := exists_probe_eq h hlt
  exact ⟨i,hi,.free,by rw [hprobe]; exact hs,trivial⟩

end Search

section Updates
variable {s i : ℕ} {x : Slot K V}

@[simp] lemma probe_set (h : ℕ) (y : Slot K V) : probe (t.set s y) h i = probe t h i := by
  simp [probe]

/-- Writing anything but a free slot keeps the other keys on their sequences. -/
theorem Chained.set (hc : Chained hash t) {y : Slot K V} (hy : y ≠ .free)
    (hnew : ∀ k v, y = .used k v → ∃ i < t.length, probe t (hash k) i = s ∧
      ∀ j < i, t[probe t (hash k) j]? ≠ some .free) : Chained hash (t.set s y) := by
  intro s' k v hs'
  rw [getElem?_set] at hs'
  have hchain : ∃ i < t.length, probe t (hash k) i = s' ∧ ∀ j < i, t[probe t (hash k) j]? ≠ some .free := by
    split_ifs at hs' with he
    · subst he
      exact hnew k v (some.inj hs')
    · exact hc s' k v hs'
  obtain ⟨i,hi,hp,hfree⟩ := hchain
  refine ⟨i,by simpa using hi,by simpa using hp,fun j hj => ?_⟩
  rw [probe_set,getElem?_set]
  split_ifs
  · simpa using hy
  · simp
  · exact hfree j hj

theorem Chained.use (hc : Chained hash t) (h : StopsAt (Decides k) t (hash k) i x) :
    Chained hash (t.set (probe t (hash k) i) (.used k v)) := by
  refine hc.set (by simp) fun k' v' he => ?_
  obtain ⟨rfl,-⟩ := Slot.used.inj he
  exact ⟨i,h.lt,rfl,fun j hj hf => h.first j hj _ hf trivial⟩

theorem Chained.delete (hc : Chained hash t) : Chained hash (t.set s .deleted) := hc.set (by simp) (by simp)

lemma chained_replicate_free (n : ℕ) : Chained hash (replicate n (.free : Slot K V)) := by
  intro s k v hs
  rw [getElem?_replicate] at hs
  split_ifs at hs
  simp at hs

theorem entries_use_free (h : StopsAt (Decides k) t (hash k) i .free) :
    (entries (t.set (probe t (hash k) i) (.used k v))).Perm ((k,v)::entries t) := by
  obtain ⟨rest,h₁,h₂⟩ := entries_perm_set h.get
  exact (h₂ _).trans (h₁.symm.cons _)

variable [DecidableEq K]

theorem represents_use_used {w : V} (hm : Represents (entries t) m)
    (h : StopsAt (Decides k) t (hash k) i (.used k v)) :
    Represents (entries (t.set (probe t (hash k) i) (.used k w))) (update m k (some w)) ∧
      (entries (t.set (probe t (hash k) i) (.used k w))).length = (entries t).length := by
  obtain ⟨rest,h₁,h₂⟩ := entries_perm_set h.get
  exact ⟨(hm.perm h₁).replace.perm (h₂ (.used k w)).symm,(h₂ (.used k w)).length_eq.trans h₁.length_eq.symm⟩

theorem represents_delete (hm : Represents (entries t) m) (h : StopsAt (Decides k) t (hash k) i (.used k v)) :
    Represents (entries (t.set (probe t (hash k) i) .deleted)) (update m k none) ∧
      (entries (t.set (probe t (hash k) i) .deleted)).length+1 = (entries t).length := by
  obtain ⟨rest,h₁,h₂⟩ := entries_perm_set h.get
  refine ⟨(hm.perm h₁).erase.perm (h₂ .deleted).symm,?_⟩
  rw [(h₂ .deleted).length_eq,h₁.length_eq]
  rfl

end Updates
end Tables
end ArmFirmware.Library
