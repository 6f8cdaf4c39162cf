import ArmFirmware.Zephyr.Work.Instances

/-! Callers of the synchronous cancels. The end of a cancelled run wakes the first canceller that
is registered for the item and leaves the others: nobody is left behind only if there is one. -/
namespace ArmFirmware.Zephyr.Work
open Library State List Function Effect

section First
variable {ς ι : Type*} [DecidableEq ι] {i : ι} {c : ς} {l : List (ς × ι)}

lemma countP_eraseP_registered (i : ι) (l : List (ς × ι)) :
    (l.eraseP fun p => p.2 = i).countP (fun p => p.2 = i) = l.countP (fun p => p.2 = i)-1 := by
  induction l with
  | nil => rfl
  | cons x l ih =>
    by_cases hx : x.2 = i
    · simp [hx]
    · simp [hx,ih]

lemma find?_registered (hl : l.countP (fun p => p.2 = i) ≤ 1) (hc : (c,i) ∈ l) :
    l.find? (fun p => p.2 = i) = some (c,i) := by
  induction l with
  | nil => simp at hc
  | cons x l ih =>
    by_cases hx : x.2 = i
    · rw [countP_cons_of_pos (by simpa using hx)] at hl
      have hnone : ∀ p ∈ l, ¬decide (p.2 = i) = true := countP_eq_zero.mp (by omega)
      rcases mem_cons.mp hc with rfl | hmem
      · simp
      · simpa using hnone _ hmem
    · rw [countP_cons_of_neg (by simpa using hx)] at hl
      have hmem : (c,i) ∈ l := (mem_cons.mp hc).resolve_left fun h => hx (h ▸ rfl)
      rw [List.find?_cons_of_neg (by simpa using hx)]
      exact ih hl hmem

end First

variable {ι κ ς δ : Type*} [DecidableEq ι] [DecidableEq κ] [DecidableEq ς] {delayable : ι → Bool}
  {s t : State ι κ ς δ} {b : Board (Node ι ς) κ}

/-- Everyone registered for `i` before a step is woken by it. -/
def WakesAll (s t : State ι κ ς δ) (i : ι) : Prop :=
  ∀ c, (c,i) ∈ s.pendingCancels → t.sem c = true ∧ (c,i) ∉ t.pendingCancels

omit [DecidableEq κ] in
lemma wakeCanceller_pendingCancels (s : State ι κ ς δ) (i : ι) :
    (s.wakeCanceller i).pendingCancels = s.pendingCancels.eraseP fun p => p.2 = i := by
  unfold wakeCanceller
  split
  · rfl
  · next hnone => exact (eraseP_of_forall_not (List.find?_eq_none.mp hnone)).symm

omit [DecidableEq κ] in
lemma wakeCanceller_sem {p : ς × ι} {i : ι} (hp : s.pendingCancels.find? (fun p => p.2 = i) = some p) :
    (s.wakeCanceller i).sem p.1 = true := by
  simp [wakeCanceller,hp]

omit [DecidableEq κ] in
lemma wakeCanceller_wakesAll_iff (s : State ι κ ς δ) (i : ι) :
    WakesAll s (s.wakeCanceller i) i ↔ s.pendingCancels.countP (fun p => p.2 = i) ≤ 1 := by
  have hcount := countP_eraseP_registered i s.pendingCancels
  unfold WakesAll
  rw [wakeCanceller_pendingCancels]
  constructor
  · intro hall
    by_contra hmany
    obtain ⟨⟨c,j⟩,hmem,hj⟩ := countP_pos_iff.mp (show 0 <
      (s.pendingCancels.eraseP fun p => p.2 = i).countP fun p => p.2 = i by omega)
    obtain rfl : j = i := by simpa using hj
    exact (hall c (mem_of_mem_eraseP hmem)).2 hmem
  · intro hone c hc
    refine ⟨wakeCanceller_sem (find?_registered hone hc),fun hmem => ?_⟩
    have hzero := countP_eq_zero.mp (hcount.trans (by omega)) _ hmem
    simp at hzero

lemma Good.finish_canceling (h : Good delayable s b) {q : κ} {i : ι}
    (hcancel : (s.flags (.item i)).canceling = true) : (s.finishStep q (.item i)).1 = (s.conclude q (.item i)
      {s.flags (.item i) with running := false, canceling := false}).wakeCanceller i := by
  have := finish_item_eq (s := s) (q := q) (h.item i).flushing
  rwa [if_pos hcancel] at this

theorem finish_wakesAll_iff (h : Good delayable s b) {q : κ} {i : ι}
    (hcancel : (s.flags (.item i)).canceling = true) :
    WakesAll s (s.finishStep q (.item i)).1 i ↔ s.pendingCancels.countP (fun p => p.2 = i) ≤ 1 := by
  rw [h.finish_canceling hcancel]
  exact wakeCanceller_wakesAll_iff (s.conclude q (.item i) _) i

/-- Everyone registered waits for an item that is being cancelled. -/
def CancelsRun (s : State ι κ ς δ) : Prop :=
  ∀ c i, (c,i) ∈ s.pendingCancels → (s.flags (.item i)).canceling = true

/-- Only the end of a handler ends a cancellation. -/
lemma apply_canceling {e : Effect ι κ ς δ} (he : e.Allowed delayable s) (hfinish : ∀ q n, e ≠ .finish q n)
    {i : ι} (hi : (s.flags (.item i)).canceling = true) : ((e.apply s).flags (.item i)).canceling = true := by
  have hupdate : ∀ n (f : Flags), ((s.flags n).canceling = true → f.canceling = true) →
      (update s.flags n f (.item i)).canceling = true := by
    intro n f hf
    rw [Function.update_apply]
    split
    · next hij => exact hf (hij ▸ hi)
    · exact hi
  cases e with
  | enqueue caller q j =>
    rw [enqueue_eq,notify_flags,append_flags]
    exact hupdate _ _ id
  | dequeue q j => exact hupdate _ _ id
  | startCancel j => exact hupdate _ _ fun _ => rfl
  | register c j => exact hi
  | insertFlusher c q j =>
    rw [insertFlusher_eq,notify_flags,plant_flags]
    simpa using hi
  | take q n =>
    obtain ⟨-,-,rest,hp⟩ := he
    rw [take_eq hp,begin_flags]
    exact hupdate _ _ id
  | finish q n => exact absurd rfl (hfinish q n)
  | idle q =>
    simp only [apply,takeStep,he.2.2]
    split <;> exact hi
  | drain d q plug => simpa [apply,setQueue] using hi
  | unplug q => exact hi
  | start q => exact hi
  | resume c => exact hi
  | delay j queue due => exact hupdate _ _ id
  | undelay j => exact hupdate _ _ id
  | announce j => exact hi
  | expire j => exact hupdate _ _ id
  | tick => exact hi

lemma apply_pendingCancels {e : Effect ι κ ς δ} (he : e.Allowed delayable s) (hfinish : ∀ q n, e ≠ .finish q n)
    {c : ς} {i : ι} (hc : (c,i) ∈ (e.apply s).pendingCancels) :
    (c,i) ∈ s.pendingCancels ∨ (s.flags (.item i)).canceling = true := by
  cases e with
  | enqueue caller q j =>
    rw [enqueue_eq,notify_pendingCancels,append_pendingCancels] at hc
    exact .inl hc
  | register c' j =>
    refine (mem_append.mp hc).imp_right fun h => ?_
    obtain ⟨rfl,rfl⟩ : c = c' ∧ i = j := by simpa using h
    exact he.1
  | insertFlusher c' q j =>
    rw [insertFlusher_eq,notify_pendingCancels,plant_pendingCancels] at hc
    exact .inl hc
  | take q n =>
    obtain ⟨-,-,rest,hp⟩ := he
    rw [take_eq hp,begin_pendingCancels] at hc
    exact .inl hc
  | finish q n => exact absurd rfl (hfinish q n)
  | idle q =>
    simp only [apply,takeStep,he.2.2] at hc
    split at hc <;> exact .inl hc
  | drain d q plug => exact .inl (by simpa [apply,setQueue] using hc)
  | _ => exact .inl hc

lemma CancelsRun.does {es : List (Effect ι κ ς δ)} (h : Does delayable s es t)
    (hes : ∀ q n, .finish q n ∉ es) (hs : CancelsRun s) :
    CancelsRun t ∧ ∀ i, (s.flags (.item i)).canceling = true → (t.flags (.item i)).canceling = true := by
  induction h with
  | nil s => exact ⟨hs,fun _ => id⟩
  | @cons s t e es head tail ih =>
    have hfinish : ∀ q n, e ≠ .finish q n := fun q n he => hes q n (he ▸ mem_cons_self ..)
    have hkeep : ∀ {i}, (s.flags (.item i)).canceling = true →
        ((e.apply s).flags (.item i)).canceling = true := apply_canceling head hfinish
    have hstep : CancelsRun (e.apply s) := fun c i hc =>
      hkeep ((apply_pendingCancels head hfinish hc).elim (hs c i) id)
    obtain ⟨ht,hkeep'⟩ := ih (fun q n hmem => hes q n (mem_cons_of_mem _ hmem)) hstep
    exact ⟨ht,fun i hi => hkeep' i (hkeep hi)⟩

/-- The end of a handler wakes the canceller of its item. -/
lemma finish_cancels (h : Good delayable s b) (hs : CancelsRun s) {q : κ} {n : Node ι ς}
    (hthread : (s.queues q).thread = .running n) (hone : OneCanceller s (.finish q)) :
    CancelsRun (s.finishStep q n).1 ∧ ∀ i, (s.flags (.item i)).canceling = true →
      ((s.finishStep q n).1.flags (.item i)).canceling = false → WakesAll s (s.finishStep q n).1 i := by
  -- nothing happens to cancellations unless the node is an item that is being cancelled
  have hsame : ∀ t : State ι κ ς δ, t.pendingCancels = s.pendingCancels →
      (∀ i, (t.flags (.item i)).canceling = (s.flags (.item i)).canceling) →
      CancelsRun t ∧ ∀ i, (s.flags (.item i)).canceling = true → (t.flags (.item i)).canceling = false →
        WakesAll s t i := by
    intro t hcancels hflags
    refine ⟨fun c i hc => ?_,fun i hi hclear => ?_⟩
    · rw [hflags]
      exact hs c i (hcancels ▸ hc)
    · rw [hflags,hi] at hclear
      exact absurd hclear (by decide)
  cases n with
  | item j =>
    have hflags : ∀ i ≠ j, (s.finishStep q (.item j)).1.flags (.item i) = s.flags (.item i) := by
      intro i hi
      obtain ⟨⟨f,-,-,-,-,-,hf⟩,-⟩ := h.finish_frame hthread
      have : (s.finishStep q (.item j)).1.flags = update s.flags (.item j) f := hf
      rw [this,Function.update_of_ne (by simpa using hi)]
    by_cases hcancel : (s.flags (.item j)).canceling = true
    · have hcount : s.pendingCancels.countP (fun p => p.2 = j) ≤ 1 := by
        simp only [OneCanceller,hthread] at hone
        exact hone hcancel
      have hall := (finish_wakesAll_iff h (q := q) hcancel).mpr hcount
      have hkept : ∀ c i, (c,i) ∈ (s.finishStep q (.item j)).1.pendingCancels → (c,i) ∈ s.pendingCancels := by
        rw [h.finish_canceling hcancel,wakeCanceller_pendingCancels]
        exact fun c i => mem_of_mem_eraseP
      refine ⟨fun c i hc => ?_,fun i hi hclear => ?_⟩
      · have hi : i ≠ j := by
          rintro rfl
          exact (hall c (hkept c i hc)).2 hc
        rw [hflags i hi]
        exact hs c i (hkept c i hc)
      · by_cases hij : i = j
        · exact hij ▸ hall
        · rw [hflags i hij,hi] at hclear
          exact absurd hclear (by decide)
    · have heq : (s.finishStep q (.item j)).1 =
          s.conclude q (.item j) {s.flags (.item j) with running := false} := by
        have := finish_item_eq (s := s) (q := q) (h.item j).flushing
        rwa [if_neg hcancel] at this
      rw [heq]
      refine hsame _ rfl fun i => ?_
      by_cases hij : i = j
      · subst hij
        simp
      · simp [hij]
  | flusher c =>
    obtain ⟨-,-,hflush,hnot⟩ := (h.sync c).held q (.inr ((h.active q _).mp hthread))
    have heq := finish_flusher_eq (s := s) (q := q) hflush hnot
    change (s.finishStep q (.flusher c)).1 = _ at heq
    rw [heq]
    exact hsame _ rfl fun i => by simp

lemma step_cancels (hs : (∃ b, Good delayable s b) ∧ CancelsRun s) {a : Action ι κ ς δ}
    (ha : Meets delayable s a ∧ OneCanceller s a) :
    ∃ t o, step s a = some (t,o) ∧ ((∃ b, Good delayable t b) ∧ CancelsRun t) ∧ ∀ i,
      (s.flags (.item i)).canceling = true → (t.flags (.item i)).canceling = false → WakesAll s t i := by
  obtain ⟨⟨b,hb⟩,hcancels⟩ := hs
  obtain ⟨t,o,es,hstep,hscript,hdoes⟩ := step_does hb ha.1
  have hgood := hdoes.good ⟨b,hb⟩
  by_cases hfinish : ∃ q n, .finish q n ∈ es
  · obtain ⟨q,n,hmem⟩ := hfinish
    obtain ⟨rfl,rfl⟩ := hscript.of_finish hmem
    obtain - | ⟨hthread,htail⟩ := hdoes
    cases htail
    obtain ⟨ht,hall⟩ := finish_cancels hb hcancels hthread ha.2
    exact ⟨_,o,hstep,⟨hgood,ht⟩,hall⟩
  · obtain ⟨ht,hkeep⟩ := CancelsRun.does hdoes (fun q n hmem => hfinish ⟨q,n,hmem⟩) hcancels
    refine ⟨t,o,hstep,⟨hgood,ht⟩,fun i hi hclear => ?_⟩
    rw [hkeep i hi] at hclear
    exact absurd hclear (by decide)

/-- In every run in which at most one caller waits when a cancelled run ends, a step that ends a
cancellation gives the semaphore to everyone registered for the item, and whoever is registered
waits for an item that is being cancelled. -/
theorem runs_wake_every_canceller (delayable : ι → Bool) {is : List (Action ι κ ς δ)}
    (h : Along (fun s a => Meets delayable s a ∧ OneCanceller s a) step init is) :
    ∃ s os, serve? step init is = some (s,os) ∧
      Trace (fun s a o t => step s a = some (t,o) ∧ ∀ i, (s.flags (.item i)).canceling = true →
        (t.flags (.item i)).canceling = false → WakesAll s t i) init is os s ∧ CancelsRun s := by
  obtain ⟨s,os,hserve,htrace,-,hs⟩ := Trace.of_along
    (I := fun s => (∃ b, Good delayable s b) ∧ CancelsRun s)
    (fun s a hs ha => by
      obtain ⟨t,o,hstep,ht,-⟩ := step_cancels hs ha
      exact ⟨t,o,hstep,ht⟩) ⟨⟨_,init_good delayable⟩,fun c i hc => absurd hc not_mem_nil⟩ h
  refine ⟨s,os,hserve,htrace.mono ?_,hs⟩
  rintro s a o t ⟨hs,ha,hstep⟩
  obtain ⟨t',o',hstep',-,hall⟩ := step_cancels hs ha
  cases hstep.symm.trans hstep'
  exact ⟨hstep,hall⟩

def cancelledTwice : List (Action Unit Unit Bool Unit) :=
  [.start (),.submit none (some ()) (),.take (),.cancelSync false (),.finish (),.resume false,
    .submit none (some ()) (),.take (),.cancelSync true (),.finish (),.resume true]

theorem runs_wake_every_canceller_cancelledTwice :
    ∃ s os, serve? step init cancelledTwice = some (s,os) ∧
      Trace (fun s a o t => step s a = some (t,o) ∧ ∀ i, (s.flags (.item i)).canceling = true →
        (t.flags (.item i)).canceling = false → WakesAll s t i) init cancelledTwice os s ∧ CancelsRun s :=
  runs_wake_every_canceller (fun _ => false) (by decide +kernel)

def cancelledTogether : List (Action Unit Unit Bool Unit) :=
  [.start (),.submit none (some ()) (),.take (),.cancelSync false (),.cancelSync true (),.finish ()]

/-- The second caller stays registered and waits after the cancellation has ended. -/
theorem second_canceller_keeps_waiting :
    Along (Meets fun _ => false) step init cancelledTogether ∧
      ∃ s os, serve? step init cancelledTogether = some (s,os) ∧
        (s.flags (.item ())).canceling = false ∧ (true,()) ∈ s.pendingCancels ∧ true ∈ s.blocked ∧
        s.sem true = false :=
  ⟨by decide +kernel,_,_,rfl,rfl,by decide,by decide,rfl⟩

end ArmFirmware.Zephyr.Work
