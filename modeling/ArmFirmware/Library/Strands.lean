import ArmFirmware.Library.Ledger

/-! Lists in which the entries of several parties are mixed. What counts is the strand of each
party: its own entries in their order. -/
namespace ArmFirmware.Library
open List Function
variable {θ β : Type*}

def tag (t : θ) (l : List β) : List (θ × β) := l.map (t,·)

@[simp] lemma tag_nil (t : θ) : tag t ([] : List β) = [] := rfl

@[simp] lemma tag_append (t : θ) (l l' : List β) : tag t (l++l') = tag t l++tag t l' := map_append

@[simp] lemma tag_length (t : θ) (l : List β) : (tag t l).length = l.length := length_map _

@[simp] lemma map_snd_tag (t : θ) (l : List β) : (tag t l).map Prod.snd = l := by
  simp [tag,comp_def]

lemma tag_take (t : θ) (n : ℕ) (l : List β) : tag t (l.take n) = (tag t l).take n := map_take

variable [DecidableEq θ]

/-- The entries of party `t`, in their order. -/
def strand (t : θ) (l : List (θ × β)) : List β := (l.filter (·.1 = t)).map Prod.snd

@[simp] lemma strand_nil (t : θ) : strand t ([] : List (θ × β)) = [] := rfl

@[simp] lemma strand_append (t : θ) (l l' : List (θ × β)) : strand t (l++l') = strand t l++strand t l' := by
  simp [strand]

@[simp] lemma strand_tag (t u : θ) (l : List β) : strand t (tag u l) = if u = t then l else [] := by
  by_cases h : u = t
  · simp [strand,tag,h,filter_map,comp_def]
  · simp [strand,tag,h,filter_map,comp_def]

lemma strand_eq_nil {t : θ} {l : List (θ × β)} (h : ∀ x ∈ l, x.1 ≠ t) : strand t l = [] := by
  rw [strand,filter_eq_nil_iff.mpr fun x hx => by simpa using h x hx,map_nil]

section Records
variable {τ : Type*} (name : τ → θ) (g : τ → List β) {l l' : List τ}

/-- Records leave no strand for a party that has none. -/
lemma strand_flatMap_nil {t : θ} (h : t ∉ l.map name) : strand t (l.flatMap fun x => tag (name x) (g x)) = [] := by
  refine strand_eq_nil fun y hy => ?_
  obtain ⟨x,hx,hy⟩ := mem_flatMap.mp hy
  obtain ⟨b,-,rfl⟩ := mem_map.mp hy
  rintro rfl
  exact h (mem_map_of_mem hx)

lemma strand_flatMap_comm {u : θ} (h : u ∉ l.map name) (t : θ) (b : List β) :
    strand t (l.flatMap fun x => tag (name x) (g x))++strand t (tag u b) =
      strand t (tag u b)++strand t (l.flatMap fun x => tag (name x) (g x)) := by
  by_cases ht : u = t
  · subst ht
    rw [strand_flatMap_nil name g h,nil_append,append_nil]
  · simp [ht]

/-- Where every party has one record, the order of the records does not matter. -/
lemma strand_flatMap_perm (t : θ) (h : l.Perm l') (hnodup : (l.map name).Nodup) :
    strand t (l.flatMap fun x => tag (name x) (g x)) = strand t (l'.flatMap fun x => tag (name x) (g x)) := by
  induction h with
  | nil => rfl
  | cons x h ih =>
    rw [flatMap_cons,flatMap_cons,strand_append,strand_append,ih (nodup_cons.mp hnodup).2]
  | swap x y l =>
    have hne : name y ≠ name x := by
      simp only [map_cons,nodup_cons,mem_cons,not_or] at hnodup
      exact hnodup.1.1
    by_cases hx : name x = t
    · simp [hx ▸ hne]
    · simp [hx]
  | trans h₁ h₂ ih₁ ih₂ =>
    exact (ih₁ hnodup).trans (ih₂ ((h₁.map name).nodup_iff.mp hnodup))

end Records

/-- Lists with the same strands have the same length. -/
lemma length_eq_of_strands {l l' : List (θ × β)} (h : ∀ t, strand t l = strand t l') : l.length = l'.length := by
  classical
  refine (perm_iff_count.mpr fun x => ?_).length_eq
  have hf : ∀ m : List (θ × β), m.count x = (strand x.1 m).count x.2 := by
    intro m
    induction m with
    | nil => rfl
    | cons y m ih =>
      obtain ⟨t,b⟩ := x
      obtain ⟨u,c⟩ := y
      by_cases hu : u = t
      · subst hu
        simp [strand,count_cons] at ih ⊢
        omega
      · simp [strand,hu] at ih ⊢
        omega
  rw [hf l,hf l',h]

namespace Trace
variable {σ ι ω γ : Type*} {Step : σ → ι → ω → σ → Prop} {s s' : σ} {is : List ι} {os : List ω}

/-- If every step keeps the account of a party, every trace does. -/
theorem strands (t : θ) {content : σ → List (θ × β)} {input output : ω → List (θ × β)}
    (hstep : ∀ s i o s', Step s i o s' → strand t (content s)++strand t (input o) =
      strand t (output o)++strand t (content s')) (h : Trace Step s is os s') :
    strand t (content s)++strand t (os.flatMap input) = strand t (os.flatMap output)++strand t (content s') := by
  induction h with
  | nil s => simp
  | @cons s s₁ s' i o is os head tail ih =>
    rw [flatMap_cons,flatMap_cons,strand_append,strand_append,← append_assoc,
      hstep _ _ _ _ head,append_assoc,ih,append_assoc]

/-- If every step answers the oldest pending requests of a party and keeps the others, the
answers along a trace are those to its requests, one by one. -/
theorem answered (t : θ) {R : β → γ → Prop} {pending : σ → List (θ × γ)} {request : ι → List (θ × γ)}
    {soFar : σ → List (θ × β)} {answer : ω → List (θ × β)}
    (hnow : ∀ s, List.Forall₂ R (strand t (soFar s)) (strand t (pending s)))
    (hstep : ∀ s i o s', Step s i o s' → ∃ done,
      strand t (pending s)++strand t (request i) = done++strand t (pending s') ∧
        List.Forall₂ R (strand t (answer o)) done) (h : Trace Step s is os s') :
    List.Forall₂ R (strand t (os.flatMap answer)++strand t (soFar s'))
      (strand t (pending s)++strand t (is.flatMap request)) := by
  induction h with
  | nil s => simpa using hnow s
  | @cons s s₁ s' i o is os head tail ih =>
    obtain ⟨done,hsplit,hdone⟩ := hstep _ _ _ _ head
    rw [flatMap_cons,flatMap_cons,strand_append,strand_append,← append_assoc,hsplit,append_assoc,append_assoc]
    exact rel_append hdone ih

end Trace
end ArmFirmware.Library
