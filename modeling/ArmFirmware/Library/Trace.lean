import Mathlib

/-! Labelled traces of a step relation and the rules used about them: what every step
preserves holds along a trace, a step-wise simulation lifts to traces, and a step function
has a trace for every list of requests. -/
namespace ArmFirmware.Library
open Option

/-! The small index types of example runs. -/

instance neZero_two : NeZero 2 := ⟨by decide⟩
instance neZero_three : NeZero 3 := ⟨by decide⟩

variable {σ τ ι ω γ : Type*}

/-- Serve a list of requests one after the other, collecting the replies. -/
inductive Trace (Step : σ → ι → ω → σ → Prop) :
    σ → List ι → List ω → σ → Prop
  | nil (s) : Trace Step s [] [] s
  | cons {s t u i o is os} (head : Step s i o t) (tail : Trace Step t is os u) :
      Trace Step s (i::is) (o::os) u

def serve (f : σ → ι → σ × ω) : σ → List ι → σ × List ω
  | s,[] => (s,[])
  | s,i::is =>
    let r := f s i
    let rest := serve f r.1 is
    (rest.1,r.2::rest.2)

/-- Serve a list of requests with a step function that may have no result, stopping at
the first request without one. -/
def serve? (f : σ → ι → Option (σ × ω)) : σ → List ι → Option (σ × List ω)
  | s,[] => some (s,[])
  | s,i::is =>
    (f s i).bind fun r => (serve? f r.1 is).map fun rest => (rest.1,r.2::rest.2)

/-- Every request of the list is allowed in the state it is served in. -/
def Along (ok : σ → ι → Prop) (f : σ → ι → Option (σ × ω)) : σ → List ι → Prop
  | _,[] => True
  | s,i::is => ok s i ∧ ∀ t o, f s i = some (t,o) → Along ok f t is

instance Along.decidable {ok : σ → ι → Prop} {f : σ → ι → Option (σ × ω)}
    [∀ s i, Decidable (ok s i)] : ∀ s is, Decidable (Along ok f s is)
  | _,[] => isTrue trivial
  | s,i::is =>
    match h : f s i with
    | none => decidable_of_iff (ok s i) ⟨fun hi => ⟨hi,fun t o ht => by simp [h] at ht⟩,And.left⟩
    | some (t,o) =>
      have : Decidable (Along ok f t is) := Along.decidable t is
      decidable_of_iff (ok s i ∧ Along ok f t is)
        ⟨fun ha => ⟨ha.1,fun t' o' ht => by
            cases h.symm.trans ht
            exact ha.2⟩,
          fun ha => ⟨ha.1,ha.2 t o h⟩⟩

lemma Along.mono {ok ok' : σ → ι → Prop} {f : σ → ι → Option (σ × ω)}
    (himp : ∀ s i, ok s i → ok' s i) {s : σ} {is : List ι} (h : Along ok f s is) : Along ok' f s is := by
  induction is generalizing s with
  | nil => trivial
  | cons i is ih => exact ⟨himp s i h.1,fun t o ht => ih (h.2 t o ht)⟩

lemma Along.keep {ok P : σ → ι → Prop} {f : σ → ι → Option (σ × ω)} {I : σ → Prop}
    (hstep : ∀ s i, I s → ok s i → P s i ∧ ∀ t o, f s i = some (t,o) → I t) {s : σ} {is : List ι} (hs : I s)
    (h : Along ok f s is) : Along P f s is := by
  induction is generalizing s with
  | nil => trivial
  | cons i is ih =>
    obtain ⟨hp,ht⟩ := hstep s i hs h.1
    exact ⟨hp,fun t o hf => ih (ht t o hf) (h.2 t o hf)⟩

/-- An allowed list of requests leads from one state to another. -/
def Leads (ok : σ → ι → Prop) (f : σ → ι → Option (σ × ω)) (s : σ) (is : List ι) (t : σ) : Prop :=
  Along ok f s is ∧ ∃ os, serve? f s is = some (t,os)

namespace Leads
variable {ok : σ → ι → Prop} {f : σ → ι → Option (σ × ω)} {s t u : σ} {i : ι} {o : ω}
  {is js : List ι}

lemma nil : Leads ok f s [] s := ⟨trivial,[],rfl⟩

lemma cons (hi : ok s i) (hf : f s i = some (t,o)) (h : Leads ok f t is u) : Leads ok f s (i::is) u := by
  obtain ⟨halong,os,hserve⟩ := h
  refine ⟨⟨hi,fun t' o' hf' => ?_⟩,o::os,by simp [serve?,hf,hserve]⟩
  cases hf.symm.trans hf'
  exact halong

lemma append (h : Leads ok f s is t) (h' : Leads ok f t js u) : Leads ok f s (is++js) u := by
  induction is generalizing s with
  | nil =>
    obtain ⟨-,os,hserve⟩ := h
    cases hserve
    exact h'
  | cons i is ih =>
    obtain ⟨⟨hi,hrest⟩,os,hserve⟩ := h
    obtain ⟨⟨s',o⟩,hf,hmap⟩ := bind_eq_some_iff.mp hserve
    obtain ⟨⟨t',os'⟩,hserve',heq⟩ := map_eq_some_iff.mp hmap
    obtain ⟨rfl,-⟩ := Prod.mk.inj heq
    exact cons hi hf (ih ⟨hrest s' o hf,os',hserve'⟩)

end Leads

/-- A machine with a record of its steps beside it, that no step depends on. -/
def recording (f : σ → ι → Option (σ × ω)) (g : γ → σ → σ → ι → ω → γ) : σ × γ → ι → Option ((σ × γ) × ω) :=
  fun x i => (f x.1 i).map fun r => ((r.1,g x.2 x.1 r.1 i r.2),r.2)

section Recording
variable {f : σ → ι → Option (σ × ω)} {g : γ → σ → σ → ι → ω → γ}

lemma recording_eq_some {x y : σ × γ} {i : ι} {o : ω} :
    recording f g x i = some (y,o) ↔ f x.1 i = some (y.1,o) ∧ y.2 = g x.2 x.1 y.1 i o := by
  obtain ⟨t,c⟩ := y
  simp only [recording,map_eq_some_iff,Prod.mk.injEq]
  constructor
  · rintro ⟨⟨t',o'⟩,hf,⟨rfl,rfl⟩,rfl⟩
    exact ⟨hf,rfl⟩
  · rintro ⟨hf,rfl⟩
    exact ⟨(t,o),hf,⟨rfl,rfl⟩,rfl⟩

lemma Along.recording {ok : σ → ι → Prop} {s : σ} {is : List ι} (h : Along ok f s is) (c : γ) :
    Along (fun x i => ok x.1 i) (recording f g) (s,c) is := by
  induction is generalizing s c with
  | nil => trivial
  | cons i is ih => exact ⟨h.1,fun x o hx => ih (h.2 x.1 o (recording_eq_some.mp hx).1) x.2⟩

end Recording

namespace Trace
variable {Step : σ → ι → ω → σ → Prop} {Spec : τ → ι → ω → τ → Prop}
  {I : σ → Prop} {ok : σ → ι → Prop} {f : σ → ι → Option (σ × ω)} {s t : σ} {is : List ι} {os : List ω}

lemma mono {Step' : σ → ι → ω → σ → Prop} (himp : ∀ s i o t, Step s i o t → Step' s i o t)
    (h : Trace Step s is os t) : Trace Step' s is os t := by
  induction h with
  | nil s => exact .nil s
  | cons head tail ih => exact .cons (himp _ _ _ _ head) ih

lemma restrict {P : ι → Prop} (h : Trace Step s is os t)
    (hP : ∀ i ∈ is, P i) : Trace (fun s i o t => P i ∧ Step s i o t) s is os t := by
  induction h with
  | nil s => exact .nil s
  | cons head tail ih =>
    exact .cons ⟨hP _ (List.mem_cons_self ..),head⟩ (ih fun i hi => hP i (List.mem_cons_of_mem _ hi))

/-- A step-wise forward simulation carries every trace over. -/
theorem simulation {R : σ → τ → Prop} (hstep : ∀ s i o s' t, R s t → Step s i o s' → ∃ t', Spec t i o t' ∧ R s' t')
    {s' : σ} {t : τ} (h : Trace Step s is os s') (hr : R s t) : ∃ t', Trace Spec t is os t' ∧ R s' t' := by
  induction h generalizing t with
  | nil s => exact ⟨t,.nil t,hr⟩
  | cons head tail ih =>
    obtain ⟨t₁,h₁,hr₁⟩ := hstep _ _ _ _ _ hr head
    obtain ⟨t',ht,hr'⟩ := ih hr₁
    exact ⟨t',.cons h₁ ht,hr'⟩

/-- A step function has a trace for every list of requests. -/
theorem of_serve (f : σ → ι → σ × ω) (s : σ) (is : List ι) :
    Trace (fun s i o t => f s i = (t,o)) s is (serve f s is).2 (serve f s is).1 := by
  induction is generalizing s with
  | nil => exact .nil s
  | cons i is ih => exact .cons rfl (ih (f s i).1)

/-- The simulation rule for a partial step function: where every allowed request has a
result that the specification matches, every allowed list of requests has one. -/
theorem of_serve? {R : σ → τ → Prop}
    (hstep : ∀ s t i, R s t → ok s i → ∃ s' o t', f s i = some (s',o) ∧ Spec t i o t' ∧ R s' t')
    {t : τ} (hr : R s t) (hok : Along ok f s is) :
    ∃ s' os t', serve? f s is = some (s',os) ∧ Trace Spec t is os t' ∧ R s' t' := by
  induction is generalizing s t with
  | nil => exact ⟨s,[],t,rfl,.nil t,hr⟩
  | cons i is ih =>
    obtain ⟨s₁,o,t₁,hf,hs,hr₁⟩ := hstep s t i hr hok.1
    obtain ⟨s',os,t',hrest,ht,hr'⟩ := ih hr₁ (hok.2 s₁ o hf)
    refine ⟨s',o::os,t',?_,.cons hs ht,hr'⟩
    simp [serve?,hf,hrest]

/-- Where allowed requests have results and keep an invariant, every allowed list of requests
has a trace, and every step of it starts in a state with the invariant. -/
theorem of_along (hstep : ∀ s i, I s → ok s i → ∃ t o, f s i = some (t,o) ∧ I t)
    (hs : I s) (hok : Along ok f s is) : ∃ t os, serve? f s is = some (t,os) ∧
      Trace (fun s i o t => I s ∧ ok s i ∧ f s i = some (t,o)) s is os t ∧ I t := by
  induction is generalizing s with
  | nil => exact ⟨s,[],rfl,.nil s,hs⟩
  | cons i is ih =>
    obtain ⟨t,o,hf,ht⟩ := hstep s i hs hok.1
    obtain ⟨u,os,hrest,htrace,hu⟩ := ih ht (hok.2 t o hf)
    exact ⟨u,o::os,by simp [serve?,hf,hrest],.cons ⟨hs,hok.1,hf⟩ htrace,hu⟩

/-- Where every allowed request has a result, keeps an invariant and does what is promised, every
allowed list of requests has a trace of such steps. -/
theorem of_steps (hstep : ∀ s i, I s → ok s i → ∃ t o, f s i = some (t,o) ∧ I t ∧ Step s i o t)
    (hs : I s) (hok : Along ok f s is) : ∃ t os, serve? f s is = some (t,os) ∧ Trace Step s is os t := by
  induction is generalizing s with
  | nil => exact ⟨s,[],rfl,.nil s⟩
  | cons i is ih =>
    obtain ⟨t,o,hf,ht,hp⟩ := hstep s i hs hok.1
    obtain ⟨u,os,hrest,htrace⟩ := ih ht (hok.2 t o hf)
    exact ⟨u,o::os,by simp [serve?,hf,hrest],.cons hp htrace⟩

theorem of_recording {I : σ → γ → Prop} {g : γ → σ → σ → ι → ω → γ} {Step : σ × γ → ι → ω → σ × γ → Prop}
    (hstep : ∀ s c i t o, I s c → ok s i → f s i = some (t,o) → I t (g c s t i o) ∧ Step (s,c) i o (t,g c s t i o))
    {c : γ} (hs : I s c) (hok : Along (fun s i => (f s i).isSome ∧ ok s i) f s is) :
    ∃ x os, serve? (recording f g) (s,c) is = some (x,os) ∧ Trace Step (s,c) is os x :=
  of_steps (I := fun x => I x.1 x.2) (fun x i hx hi => by
    obtain ⟨⟨t,o⟩,hf⟩ := isSome_iff_exists.mp hi.1
    exact ⟨(t,_),o,recording_eq_some.mpr ⟨hf,rfl⟩,hstep _ _ _ _ _ hx hi.2 hf⟩) hs (hok.recording c)

end Trace
end ArmFirmware.Library
