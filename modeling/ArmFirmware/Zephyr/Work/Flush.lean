import ArmFirmware.Zephyr.Work.Instances

/-! Flushes. The sentinel of a flush stands behind the instances it waits for until they have
ended, so that its caller is woken after all of them. -/
namespace ArmFirmware.Zephyr.Work
open Library State Log List Function Option Effect Board

attribute [local simp] onBoard add

section Covers
variable {ι κ ς δ : Type*} {s t : State ι κ ς δ} {b b' : Board (Node ι ς) κ} {l : Log ι ς} {c : ς} {i : ι}
  {m : ℕ}

/-- No instance up to number `m` is queued or runs. -/
def Over (s : State ι κ ς δ) (l : Log ι ς) (i : ι) (m : ℕ) : Prop :=
  ((s.flags (.item i)).queued = true → m < l.born i) ∧ ((s.flags (.item i)).running = true → m < l.serial i)

/-- The sentinel of `c` covers the instances of `i` up to number `m`: those that are left are in
front of it in its queue, or run there. -/
structure Covers (s : State ι κ ς δ) (b : Board (Node ι ς) κ) (l : Log ι ς) (c : ς) (i : ι) (m : ℕ) :
    Prop where
  le : m ≤ l.born i
  ahead (q : κ) : .flusher c ∈ b.pending q → (s.flags (.item i)).queued = true → l.born i ≤ m →
    [.item i,.flusher c].Sublist (b.pending q)
  current (q : κ) : .flusher c ∈ b.pending q → (s.flags (.item i)).running = true → l.serial i ≤ m →
    b.active q = some (.item i)
  passed : (∀ q, .flusher c ∉ b.pending q) → Over s l i m

lemma Over.shift (h : Over s l i m) (hm : m ≤ l.born i)
    (hshift : Shift (s.flags (.item i)) (t.flags (.item i))) : Over t (l.observe s t) i m := by
  obtain ⟨hq,hr⟩ := h
  cases hshift with
  | same hq' hr' => simpa [Over,hq',hr'] using ⟨hq,hr⟩
  | enqueue h₁ h₂ hr' => simpa [Over,h₁,h₂,hr'] using ⟨hm,hr⟩
  | dequeue h₁ h₂ hr' => simpa [Over,h₁,h₂,hr'] using hr
  | take h₁ h₂ h₃ h₄ => simpa [Over,h₁,h₂,h₃,h₄] using hq h₁
  | finish hq' h₁ h₂ => simpa [Over,hq',h₁,h₂] using hq

lemma le_observe_born (hm : m ≤ l.born i) : m ≤ (l.observe s t).born i := by
  rw [observe_born]
  split <;> omega

/-- What leaves the sentinel and the instances in front of it in place keeps them covered. -/
lemma Covers.move (h : Covers s b l c i m) (hshift : Shift (s.flags (.item i)) (t.flags (.item i)))
    (hrun : (t.flags (.item i)).running = true → (s.flags (.item i)).running = true)
    (hpending : ∀ q, .flusher c ∈ b'.pending q ↔ .flusher c ∈ b.pending q)
    (hahead : ∀ q, (t.flags (.item i)).queued = true → [.item i,.flusher c].Sublist (b.pending q) →
      [.item i,.flusher c].Sublist (b'.pending q))
    (hactive : ∀ q, (t.flags (.item i)).running = true → b.active q = some (.item i) →
      b'.active q = some (.item i)) : Covers t b' (l.observe s t) c i m := by
  refine ⟨le_observe_born h.le,fun q hq hqueued hm => ?_,fun q hq hr hm => ?_,fun hq => ?_⟩
  · rw [hpending] at hq
    refine hahead q hqueued ?_
    cases hshift with
    | same hq' hr' => exact h.ahead q hq (hq' ▸ hqueued) (by simpa [hq'] using hm)
    | enqueue h₁ h₂ hr' =>
      -- a new instance is not waited for
      have := h.le
      simp [h₁,h₂] at hm
      omega
    | dequeue h₁ h₂ hr' => simp [h₂] at hqueued
    | take h₁ h₂ h₃ h₄ => simp [h₂] at hqueued
    | finish hq' h₁ h₂ => exact h.ahead q hq (hq' ▸ hqueued) (by simpa [hq'] using hm)
  · rw [hpending] at hq
    refine hactive q hr (h.current q hq (hrun hr) ?_)
    simpa [hrun hr] using hm
  · exact (h.passed fun q => by rw [←hpending]; exact hq q).shift h.le hshift

end Covers

section Effects
variable {ι κ ς δ : Type*} [DecidableEq ι] [DecidableEq κ] [DecidableEq ς] {delayable : ι → Bool}
  {s t : State ι κ ς δ} {b : Board (Node ι ς) κ} {l : Log ι ς} {c : ς} {i : ι} {m : ℕ} {e : Effect ι κ ς δ}

lemma sublist_insertAfter {x n : Node ι ς} (l : List (Node ι ς)) : l.Sublist (insertAfter x n l) := by
  induction l with
  | nil => exact .slnil
  | cons y l ih =>
    rw [insertAfter]
    split
    · exact ((List.Sublist.refl l).cons n).cons_cons y
    · exact ih.cons_cons y

lemma pair_sublist_insertAfter {x n : Node ι ς} {l : List (Node ι ς)} (h : x ∈ l) :
    [x,n].Sublist (insertAfter x n l) := by
  induction l with
  | nil => simp at h
  | cons y l ih =>
    rw [insertAfter]
    split
    · next hy => simp [hy]
    · next hy => exact (ih (by simpa [Ne.symm hy] using h)).cons y

/-- The thread of a queue takes a node. -/
lemma Covers.take (h : Good delayable s b) (hcov : Covers s b l c i m) {q : κ} {n : Node ι ς}
    (he : (take q n).Allowed delayable s) :
    Covers ((take q n).apply s) (b.take q) (l.observe s ((take q n).apply s)) c i m := by
  have hshift := h.shift he i
  obtain ⟨hstart,hthread,rest,hp⟩ := he
  have hb := (h.pending q).symm.trans hp
  have hidle : ∀ m, b.active q ≠ some m := fun m hm => by
    simp [(h.active q m).mpr hm] at hthread
  have hmem : ∀ q', .flusher c ∈ (b.take q).pending q' ↔
      .flusher c ∈ b.pending q' ∧ ¬(q' = q ∧ n = .flusher c) := fun q' => by
    rw [h.sound.mem_take,hb]
    simp
  rw [take_eq hp] at hshift ⊢
  by_cases hn : n = .flusher c
  · -- the sentinel itself: nothing is in front of it, and nothing runs there
    subst hn
    have hover : Over s l i m := by
      have hq : .flusher c ∈ b.pending q := by simp [hb]
      have hnodup := h.sound.nodup q
      rw [hb,nodup_cons] at hnodup
      refine ⟨fun hqueued => ?_,fun hrun => ?_⟩
      · by_contra hm
        have hsub := hcov.ahead q hq hqueued (by omega)
        rw [hb] at hsub
        have hrest := hsub.of_cons_of_ne (by simp)
        exact hnodup.1 (hrest.subset (by simp))
      · by_contra hm
        exact hidle _ (hcov.current q hq hrun (by omega))
    have hgone : ∀ q', .flusher c ∉ (b.take q).pending q' := fun q' hq' => by
      obtain ⟨hq',hne⟩ := (hmem q').mp hq'
      exact hne ⟨h.sound.pending_eq hq' (by simp [hb]),rfl⟩
    exact ⟨le_observe_born hcov.le,fun q' hq' => absurd hq' (hgone q'),
      fun q' hq' => absurd hq' (hgone q'),fun _ => hover.shift hcov.le hshift⟩
  · have hmem' : ∀ q', .flusher c ∈ (b.take q).pending q' ↔ .flusher c ∈ b.pending q' := by
      simp [hmem,hn]
    by_cases hi : n = .item i
    · subst hi
      have hqi : .item i ∈ b.pending q := by simp [hb]
      refine ⟨le_observe_born hcov.le,fun q' hq' hqueued => ?_,fun q' hq' hrun hm => ?_,fun hq' => ?_⟩
      · simp at hqueued
      · have hqueued := (h.item i).queued.mpr ⟨q,hqi⟩
        have hrun' : (s.flags (.item i)).running = false := by
          by_contra hr
          obtain ⟨q'',hq''⟩ := (h.item i).running.mp (by simpa using hr)
          obtain rfl := h.sound.pending_active hq'' hqi
          exact hidle _ hq''
        have hsub := hcov.ahead q' ((hmem' q').mp hq') hqueued (by simpa [hrun'] using hm)
        obtain rfl := h.sound.pending_eq (hsub.subset (by simp)) hqi
        simp [hb]
      · exact (hcov.passed fun q' => by rw [←hmem']; exact hq' q').shift hcov.le hshift
    · refine hcov.move hshift (by simp [Ne.symm hi]) hmem' (fun q' _ hsub => ?_) fun q' _ hactive => ?_
      · by_cases hq : q' = q
        · subst hq
          rw [hb] at hsub
          simpa [Board.take,hb] using hsub.of_cons_of_ne (Ne.symm hi)
        · simpa [Board.take,hq] using hsub
      · have hq : q' ≠ q := by
          rintro rfl
          exact hidle _ hactive
        simpa [hq] using hactive

/-- A flush stays covered by every other effect. -/
lemma Covers.apply (h : Good delayable s b) (hcov : Covers s b l c i m)
    (he : e.Allowed delayable s) (hnew : ∀ q j, e ≠ .insertFlusher c q j) :
    Covers (e.apply s) (e.onBoard b) (l.observe s (e.apply s)) c i m := by
  have hshift := h.shift he i
  cases e with
  | enqueue caller q j =>
    have hperm := perm_append_singleton (.item j) (b.pending q)
    refine hcov.move hshift ?_ (fun q' => ?_) (fun q' _ hsub => ?_) fun q' _ => id
    · rw [apply_running (e := .enqueue caller q j) trivial]
      exact id
    · rw [onBoard,mem_add hperm]
      simp
    · by_cases hq : q' = q
      · subst hq
        simpa using hsub.trans (sublist_append_left ..)
      · simpa [hq] using hsub
  | dequeue q j =>
    refine hcov.move hshift ?_ (fun q' => ?_) (fun q' hqueued hsub => ?_) fun q' _ => id
    · rw [apply_running (e := .dequeue q j) trivial]
      exact id
    · rw [onBoard,h.sound.mem_remove]
      simp
    · have hij : i ≠ j := by
        rintro rfl
        simp [apply,setFlags,State.setQueue] at hqueued
      by_cases hq : q' = q
      · subst hq
        have := hsub.erase (.item j)
        rw [erase_of_not_mem (by simp [Ne.symm hij])] at this
        simpa [remove] using this
      · simpa [remove,hq] using hsub
  | insertFlusher c' q j =>
    have hc : c ≠ c' := by
      rintro rfl
      exact hnew q j rfl
    refine hcov.move hshift ?_ (fun q' => ?_) (fun q' _ hsub => ?_) fun q' _ => id
    · rw [(apply_steady he rfl i).2]
      exact id
    · rw [onBoard,mem_add (planted_perm _)]
      simp [hc]
    · by_cases hq : q' = q
      · subst hq
        simp only [onBoard,add,update_self]
        refine hsub.trans ?_
        split
        · exact sublist_insertAfter _
        · exact sublist_cons_self ..
      · simpa [hq] using hsub
  | take q n => exact hcov.take h he
  | finish q n =>
    obtain ⟨⟨f,hr,-,-,-,-,hf⟩,-⟩ := h.finish_frame he
    have hn : (((finish q n).apply s).flags (.item i)).running = true → n ≠ .item i := by
      rintro hrun rfl
      simp [hf,hr] at hrun
    refine hcov.move hshift (fun hrun => ?_) (fun q' => .rfl) (fun q' _ => id) fun q' hrun hactive => ?_
    · have hne := hn hrun
      rwa [hf,update_of_ne hne.symm] at hrun
    · exact (finish_active h he _ _).mpr ⟨hactive,hn hrun⟩
  | _ =>
    refine hcov.move hshift ?_ (fun q' => .rfl) (fun q' _ => id) fun q' _ => id
    rw [(apply_steady he rfl i).2]
    exact id

/-- A flusher covers the item behind which it is put. -/
lemma Covers.planted (h : Good delayable s b) {q : κ} (he : (insertFlusher c q i).Allowed delayable s) :
    Covers ((insertFlusher c q i).apply s) ((insertFlusher (δ := δ) c q i).onBoard b) l c i
      (l.born i) := by
  have hsteady := apply_steady he rfl i
  obtain ⟨hi,hq,hc⟩ := he
  obtain ⟨habsent,-⟩ := h.absent (.inl hc)
  have hmem : ∀ q', .flusher c ∈ ((insertFlusher (δ := δ) c q i).onBoard b).pending q' ↔ q' = q := by
    intro q'
    rw [onBoard,mem_add (planted_perm _)]
    simp [(habsent q').1]
  refine ⟨le_rfl,fun q' hq' hqueued _ => ?_,fun q' hq' hrun _ => ?_,
    fun hgone => absurd ((hmem q).mpr rfl) (hgone q)⟩
  · obtain rfl := (hmem q').mp hq'
    rw [hsteady.1] at hqueued
    obtain ⟨q',hmem'⟩ := (h.item i).queued.mp hqueued
    obtain rfl := some.inj ((h.queue_of_pending hmem').symm.trans hq)
    simp only [onBoard,add,update_self,if_pos hmem']
    exact pair_sublist_insertAfter hmem'
  · obtain rfl := (hmem q').mp hq'
    rw [hsteady.2] at hrun
    obtain ⟨q',hactive⟩ := (h.item i).running.mp hrun
    obtain rfl := some.inj ((h.queue_of_active hactive).symm.trans hq)
    exact hactive

/-- The board, the instances and the sentinels of the flushes that wait. -/
def Tracked (delayable : ι → Bool) (s : State ι κ ς δ) (l : Log ι ς) : Prop :=
  ∃ b, Good delayable s b ∧ (∀ i, Account s l i) ∧
    ∀ c i m, l.asked c = some (i,m) → Covers s b l c i m

omit [DecidableEq ι] [DecidableEq κ] in
/-- What a log says about instances and what covers them does not depend on who asked. -/
lemma asks_fields (e : Effect ι κ ς δ) : (l.asks e).born = l.born ∧ (l.asks e).serial = l.serial ∧
    (l.asks e).ended = l.ended := by
  cases e <;> exact ⟨rfl,rfl,rfl⟩

omit [DecidableEq ι] [DecidableEq κ] in
lemma Account.asks (h : Account s l i) (e : Effect ι κ ς δ) : Account s (l.asks e) i := by
  obtain ⟨hb,hs,he⟩ := asks_fields (l := l) e
  obtain ⟨hle,hlt,hq,hr,hall⟩ := h
  refine ⟨?_,?_,?_,?_,?_⟩ <;> simpa only [hb,hs,he]

omit [DecidableEq ι] [DecidableEq κ] in
lemma Covers.asks (h : Covers s b l c i m) (e : Effect ι κ ς δ) : Covers s b (l.asks e) c i m := by
  obtain ⟨hb,hs,-⟩ := asks_fields (l := l) e
  obtain ⟨hle,hahead,hcurrent,hpassed⟩ := h
  refine ⟨?_,?_,?_,?_⟩ <;> simpa only [Over,hb,hs]

omit [DecidableEq ι] [DecidableEq κ] in
lemma asked_asks (h : (l.asks e).asked c = some (i,m)) : (∃ q, e = .insertFlusher c q i ∧ m = l.born i) ∨
      (∀ q j, e ≠ .insertFlusher c q j) ∧ l.asked c = some (i,m) := by
  cases e with
  | insertFlusher c' q j =>
    by_cases hc : c = c'
    · subst hc
      obtain ⟨rfl,rfl⟩ : j = i ∧ l.born j = m := by simpa [asks,ask] using h
      exact .inl ⟨q,rfl,rfl⟩
    · refine .inr ⟨?_,by simpa [asks,ask,hc] using h⟩
      rintro q j ⟨⟩
      exact hc rfl
  | resume c' =>
    have hc : c ≠ c' := by
      rintro rfl
      simp [asks,answer] at h
    exact .inr ⟨by simp,by simpa [asks,answer,hc] using h⟩
  | _ => exact .inr ⟨by simp,h⟩

lemma Tracked.apply (h : Tracked delayable s l) (he : e.Allowed delayable s) :
    Tracked delayable (e.apply s) (l.after s e) := by
  obtain ⟨b,hb,hacc,hcov⟩ := h
  refine ⟨e.onBoard b,hb.apply he,fun i => ((hacc i).shift (hb.shift he i)).asks e,fun c i m hasked => ?_⟩
  refine Covers.asks ?_ e
  rcases asked_asks hasked with ⟨q,rfl,rfl⟩ | ⟨hnew,hold⟩
  · rw [observe_of_steady (apply_steady he rfl)]
    exact Covers.planted hb he
  · exact (hcov c i m hold).apply hb he hnew

lemma Tracked.does {es : List (Effect ι κ ς δ)} (hdoes : Does delayable s es t)
    (h : Tracked delayable s l) : Tracked delayable t (l.afterAll s es) := by
  induction hdoes generalizing l with
  | nil s => exact h
  | cons head tail ih => exact ih (h.apply head)

omit [DecidableEq ι] [DecidableEq κ] [DecidableEq ς] in
lemma Tracked.resume (h : Tracked delayable s l) (hc : s.sem c = true) (hasked : l.asked c = some (i,m))
    {k : ℕ} (hk : 0 < k) (hkm : k ≤ m) : (l.ended i k).isSome := by
  obtain ⟨b,hb,hacc,hcov⟩ := h
  have hcovers := hcov c i m hasked
  obtain ⟨hq,hr⟩ := hcovers.passed fun q => ((hb.absent (.inr hc)).1 q).1
  rw [Option.isSome_iff_ne_none]
  intro hnone
  rcases (hacc i).all k hk (hkm.trans hcovers.le) hnone with ⟨hqueued,rfl⟩ | ⟨hrun,rfl⟩
  · have := hq hqueued
    omega
  · have := hr hrun
    omega

end Effects
end ArmFirmware.Zephyr.Work
