import Mathlib

/-! Queues of waiting threads in order of precedence. -/
namespace ArmFirmware.Library.WaitQueue
open List List.Sublist
variable {τ : Type*} {q : List τ} {outranks : τ → Bool} {r : τ → τ → Prop}

/-- Queue up before the first one that is outranked, and last if there is none. -/
def pend (outranks : τ → Bool) (t : τ) : List τ → List τ
  | [] => [t]
  | u::q => if outranks u then t::u::q else u::pend outranks t q

lemma pend_perm (outranks : τ → Bool) (t : τ) (q : List τ) : (pend outranks t q).Perm (t::q) := by
  induction q with
  | nil => exact .refl _
  | cons u q ih =>
    rw [pend]
    split_ifs with h
    · exact .refl _
    · exact (ih.cons u).trans (.swap t u q)

@[simp] lemma mem_pend {t u : τ} : u ∈ pend outranks t q ↔ u = t ∨ u ∈ q :=
  (pend_perm outranks t q).mem_iff.trans mem_cons

lemma map_pend {υ : Type*} (g : τ → υ) (outranks : υ → Bool) (t : τ) (q : List τ) :
    (pend (fun u => outranks (g u)) t q).map g = pend outranks (g t) (q.map g) := by
  induction q with
  | nil => rfl
  | cons u q ih =>
    simp only [pend,map_cons]
    split_ifs <;> simp [ih]

/-- A queue in order stays so if the newcomer may stand before what it outranks, and before what
comes behind that. -/
lemma pend_pairwise_of_mem {t : τ} (hq : q.Pairwise r)
    (hbefore : ∀ u ∈ q, outranks u = true → r t u ∧ ∀ v ∈ q, r u v → r t v)
    (hbehind : ∀ u ∈ q, outranks u = false → r u t) : (pend outranks t q).Pairwise r := by
  induction q with
  | nil => exact pairwise_singleton r t
  | cons u q ih =>
    obtain ⟨hu,hq'⟩ := pairwise_cons.mp hq
    rw [pend]
    split_ifs with h
    · obtain ⟨htu,hover⟩ := hbefore u (mem_cons_self ..) h
      refine pairwise_cons.mpr ⟨fun v hv => ?_,hq⟩
      rcases mem_cons.mp hv with rfl | hvq
      · exact htu
      · exact hover v hv (hu v hvq)
    · refine pairwise_cons.mpr ⟨fun v hv => ?_,ih hq' (fun v hv hout => ?_) ?_⟩
      · rcases mem_pend.mp hv with rfl | hv
        · exact hbehind u (mem_cons_self ..) (by simpa using h)
        · exact hu v hv
      · obtain ⟨htv,hover⟩ := hbefore v (mem_cons_of_mem _ hv) hout
        exact ⟨htv,fun w hw => hover w (mem_cons_of_mem _ hw)⟩
      · exact fun v hv => hbehind v (mem_cons_of_mem _ hv)

lemma pend_pairwise (htrans : ∀ {u v w}, r u v → r v w → r u w) {t : τ} (hq : q.Pairwise r)
    (hbefore : ∀ u ∈ q, outranks u = true → r t u) (hbehind : ∀ u ∈ q, outranks u = false → r u t) :
    (pend outranks t q).Pairwise r :=
  pend_pairwise_of_mem hq (fun u hu hout => ⟨hbefore u hu hout,fun _ _ => htrans (hbefore u hu hout)⟩)
    hbehind

def Earlier (q : List τ) (t u : τ) : Prop := [t,u].Sublist q

instance [DecidableEq τ] (q : List τ) (t u : τ) : Decidable (Earlier q t u) :=
  inferInstanceAs (Decidable (List.Sublist _ _))

lemma pairwise_iff_earlier : q.Pairwise r ↔ ∀ t u, Earlier q t u → r t u := by
  rw [pairwise_iff_forall_sublist]
  exact ⟨fun h t u => h,fun h t u => h t u⟩

lemma earlier_or_earlier {t u : τ} (ht : t ∈ q) (hu : u ∈ q) (hne : t ≠ u) : Earlier q t u ∨ Earlier q u t := by
  induction q with
  | nil => simp at ht
  | cons v q ih =>
    rcases mem_cons.mp ht with rfl | htq
    · have huq := (mem_cons.mp hu).resolve_left hne.symm
      exact .inl ((singleton_sublist.mpr huq).cons_cons t)
    · rcases mem_cons.mp hu with rfl | huq
      · exact .inr ((singleton_sublist.mpr htq).cons_cons u)
      · exact (ih htq huq).imp (cons v) (cons v)

lemma Earlier.mem {t u : τ} (h : Earlier q t u) : t ∈ q ∧ u ∈ q := ⟨h.subset (by simp),h.subset (by simp)⟩

/-- The newcomer is behind all others, which keep their order. -/
lemma earlier_append {t u v : τ} : Earlier (q++[v]) t u ↔ Earlier q t u ∨ t ∈ q ∧ u = v := by
  constructor
  · intro h
    obtain ⟨l₁,l₂,hl,h₁,h₂⟩ := sublist_append_iff.mp h
    rcases sublist_singleton.mp h₂ with rfl | rfl
    · rw [append_nil] at hl
      subst hl
      exact .inl h₁
    · have hsplit : [t]++[u] = l₁++[v] := hl
      obtain ⟨rfl,hv⟩ := append_inj' hsplit rfl
      exact .inr ⟨singleton_sublist.mp h₁,by simpa using hv⟩
  · rintro (h | ⟨ht,rfl⟩)
    · exact h.trans (sublist_append_left ..)
    · exact (singleton_sublist.mpr ht).append (refl [u])

lemma Earlier.erase [DecidableEq τ] {t u v : τ} (h : Earlier q t u) (ht : t ≠ v)
    (hu : u ≠ v) : Earlier (q.erase v) t u := by
  have herase := List.Sublist.erase v h
  rwa [erase_of_not_mem (by simp [ht.symm,hu.symm])] at herase

end ArmFirmware.Library.WaitQueue
