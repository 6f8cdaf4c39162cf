import ArmFirmware.Zephyr.Pipe.Steps

/-! Threads that have what they wait for. A waiting thread is woken by the transfer that
completes its request, and by no other: not when it reaches its `min_xfer`, and not when the
refill of the pipe buffer takes the last bytes of a writer. -/
namespace ArmFirmware.Zephyr.Pipe
open Library List
variable {θ β : Type*}

/-- All bytes were transferred, or a positive `min_xfer` was reached. -/
def Reader.Satisfied (r : Reader θ β) : Prop :=
  r.room = 0 ∨ (0 < r.minXfer ∧ r.minXfer ≤ r.received.length)
/-- The put is done or has reached its minimum. -/
def Writer.Satisfied (w : Writer θ β) : Prop :=
  w.rest.length = 0 ∨ (0 < w.minXfer ∧ w.minXfer ≤ w.sent.length)

/-- No thread waits although its request is satisfied. -/
def KPipe.Settled (pipe : KPipe θ β) : Prop :=
  (∀ r ∈ pipe.readers, ¬r.Satisfied) ∧ ∀ w ∈ pipe.writers, ¬w.Satisfied

/-- The reader at which `k` bytes run out is left below its `min_xfer`. -/
def RunsOut (k : ℕ) : List (Reader θ β) → Prop
  | [] => True
  | r::rs =>
    if r.room ≤ k then RunsOut (k-r.room) rs
    else 0 < r.minXfer → r.received.length+k < r.minXfer

/-- A refill of `k` bytes leaves bytes with the first writer, below its `min_xfer`. -/
def Refills (k : ℕ) : List (Writer θ β) → Prop
  | [] => True
  | w::_ => k < w.rest.length ∧ (0 < w.minXfer → w.sent.length+k < w.minXfer)

/-- The writers there are for the refill in a `k_pipe_get` of `n` bytes: those the reader has
not emptied. -/
def KPipe.leftOver (pipe : KPipe θ β) (n : ℕ) (late : θ → Bool) : List (Writer θ β) :=
  ((drain (n-pipe.ring.bytesUsed) pipe.writers).filter (·.rest.length ≠ 0)).filter
    fun w => !late w.thread

/-- A call that passes its checks leaves the threads it serves in part below their `min_xfer`,
and completes no put by the refill. -/
def Prompt (W N : ℕ) (pipe : KPipe θ β) : Action θ β → Prop
  | .put _ data minXfer wait _ =>
    minXfer ≤ data.length → (wait ∨ minXfer ≤ bytesCanWrite W N pipe data.length) →
      RunsOut data.length pipe.readers
  | .get _ n minXfer wait _ late =>
    minXfer ≤ n → (wait ∨ minXfer ≤ bytesCanRead W N pipe n) →
      Refills (N-(pipe.ring.bytesUsed-n)) (pipe.leftOver n late)
  | .timeout _ => True

instance RunsOut.decidable : ∀ (k : ℕ) (rs : List (Reader θ β)), Decidable (RunsOut k rs)
  | _,[] => isTrue trivial
  | k,r::rs => by
    have := RunsOut.decidable (k-r.room) rs
    unfold RunsOut
    infer_instance

instance Refills.decidable (k : ℕ) (ws : List (Writer θ β)) : Decidable (Refills k ws) := by
  unfold Refills
  split <;> infer_instance

instance Prompt.decidable (W N : ℕ) (pipe : KPipe θ β) : ∀ a, Decidable (Prompt W N pipe a)
  | .put .. | .get .. => by unfold Prompt; infer_instance
  | .timeout _ => isTrue trivial

section Lists

/-- Handing out bytes satisfies none of the readers it leaves waiting, unless the bytes run out
at a reader that has reached its `min_xfer`. -/
lemma pour_unsatisfied_iff {rs : List (Reader θ β)} (hrs : ∀ r ∈ rs, ¬r.Satisfied) (bytes : List β) :
    (∀ r ∈ pour bytes rs, r.room ≠ 0 → ¬r.Satisfied) ↔ RunsOut bytes.length rs := by
  induction rs generalizing bytes with
  | nil => simp [pour,RunsOut]
  | cons r rs ih =>
    have htail := fun q hq => hrs q (mem_cons_of_mem _ hq)
    rw [pour,forall_mem_cons,RunsOut]
    split_ifs with hle
    · have hzero : (r.accept (bytes.take r.room)).room = 0 := by
        rw [accept_room,length_take]
        omega
      rw [ih htail,length_drop]
      exact ⟨fun h => h.2,fun h => ⟨fun hne => absurd hzero hne,h⟩⟩
    · have htake : bytes.take r.room = bytes := take_of_length_le (by omega)
      have hdrop : bytes.drop r.room = [] := drop_of_length_le (by omega)
      rw [htake,hdrop,pour_nil]
      simp only [Reader.Satisfied,accept_room,accept_received,accept_minXfer,length_append]
      constructor
      · intro h hmin
        have := h.1 (by omega)
        by_contra hlt
        exact this (.inr ⟨hmin,by omega⟩)
      · intro h
        refine ⟨fun hne => ?_,fun q hq _ => htail q hq⟩
        rintro (hz | ⟨hmin,hreached⟩)
        · exact hne hz
        · have := h hmin
          omega

lemma drain_unsatisfied_iff {ws : List (Writer θ β)} (hws : ∀ w ∈ ws.tail, ¬w.Satisfied) (k : ℕ) :
    (∀ w ∈ drain k ws, ¬w.Satisfied) ↔ Refills k ws := by
  rcases ws with _ | ⟨w,ws⟩
  · simp [drain,Refills]
  rw [drain,forall_mem_cons,Refills]
  constructor
  · rintro ⟨hw,-⟩
    have hlt : k < w.rest.length := by
      by_contra hle
      refine hw (.inl ?_)
      rw [advance_rest,length_drop]
      omega
    refine ⟨hlt,fun hmin => ?_⟩
    by_contra hreached
    refine hw (.inr ⟨hmin,?_⟩)
    rw [advance_minXfer,advance_sent,length_append,length_take]
    omega
  · rintro ⟨hlt,hbelow⟩
    refine ⟨?_,by rw [Nat.sub_eq_zero_of_le hlt.le,drain_zero]; exact hws⟩
    rintro (hz | ⟨hmin,hreached⟩)
    · rw [advance_rest,length_drop] at hz
      omega
    · have := hbelow hmin
      rw [advance_minXfer,advance_sent,length_append,length_take] at hreached
      omega

lemma mem_of_mem_tail_drain {d : ℕ} {ws : List (Writer θ β)} {w : Writer θ β}
    (hw : w ∈ ((drain d ws).filter (·.rest.length ≠ 0)).tail) : w ∈ ws := by
  induction ws generalizing d with
  | nil => simp [drain] at hw
  | cons v ws ih =>
    rw [drain,filter_cons] at hw
    split_ifs at hw with hv
    · have hd : d-v.rest.length = 0 := by
        simp only [advance_rest,length_drop,ne_eq,decide_not,Bool.not_eq_eq_eq_not,Bool.not_true,
          decide_eq_false_iff_not] at hv
        omega
      rw [hd,drain_zero,tail_cons] at hw
      exact mem_cons_of_mem _ (mem_of_mem_filter hw)
    · exact mem_cons_of_mem _ (ih hw)

lemma mem_tail_of_mem_tail_filter {τ : Type*} {p : τ → Bool} {l : List τ} {x : τ}
    (hx : x ∈ (l.filter p).tail) : x ∈ l.tail := by
  rcases l with _ | ⟨y,l⟩
  · exact hx
  · rw [filter_cons] at hx
    split_ifs at hx
    · exact mem_of_mem_filter hx
    · exact mem_of_mem_filter (mem_of_mem_tail hx)

lemma leftOver_tail {pipe : KPipe θ β} {n : ℕ} {late : θ → Bool} {w : Writer θ β}
    (hw : w ∈ (pipe.leftOver n late).tail) : w ∈ pipe.writers :=
  mem_of_mem_tail_drain (mem_tail_of_mem_tail_filter hw)

end Lists

section Steps
variable {W N : ℕ} {pipe : KPipe θ β}

/-- A put leaves no satisfied thread waiting if and only if the condition holds. -/
theorem put_settled_iff (h : pipe.Inv N) (hs : pipe.Settled) (thread : θ) (data : List β)
    (minXfer : ℕ) (wait : Bool) (outranks : θ → Bool) :
    (kPipePut W N pipe thread data minXfer wait outranks).1.Settled ↔
      Prompt W N pipe (.put thread data minXfer wait outranks) := by
  obtain ⟨hfail,ret,heq⟩ | ⟨filled,waiting,ring,copies,hcopies,hlen,hcheck,hrest⟩ :=
    kPipePut_cases h thread data minXfer wait outranks
  · rw [heq]
    exact ⟨fun _ hle hc => absurd hc (hfail hle),fun _ => hs⟩
  have hreaders : (∀ r ∈ waiting, ¬r.Satisfied) ↔ RunsOut data.length pipe.readers := by
    rw [← pour_unsatisfied_iff hs.1,← hcopies.readers,forall_mem_append]
    constructor
    · intro hw
      exact ⟨fun r hr hne => absurd (hcopies.filled_room r hr) hne,fun r hr _ => hw r hr⟩
    · intro hw r hr
      exact hw.2 r hr (hcopies.waiting_room r hr)
  have hprompt : Prompt W N pipe (.put thread data minXfer wait outranks) ↔ RunsOut data.length pipe.readers :=
    ⟨fun hp => hp hlen hcheck,fun hr _ _ => hr⟩
  rw [hprompt,← hreaders]
  rcases hrest with heq | ⟨hshort,hbelow,heq⟩
  · rw [heq]
    exact ⟨fun hw => hw.1,fun hw => ⟨hw,hs.2⟩⟩
  · rw [heq]
    refine ⟨fun hw => hw.1,fun hw => ⟨hw,fun w hmem => ?_⟩⟩
    rcases WaitQueue.mem_pend.mp hmem with rfl | hmem
    · have hcount := hcopies.count
      simp only at hcount
      rintro (hz | ⟨hmin,hreached⟩)
      · simp at hz
        omega
      · have := hbelow hmin
        simp at hreached
        omega
    · exact hs.2 w hmem

/-- A get leaves no satisfied thread waiting if and only if the condition holds. -/
theorem get_settled_iff (h : pipe.Inv N) (hs : pipe.Settled) (thread : θ) (n minXfer : ℕ)
    (wait : Bool) (outranks late : θ → Bool) : (kPipeGet W N pipe thread n minXfer wait outranks late).1.Settled ↔
      Prompt W N pipe (.get thread n minXfer wait outranks late) := by
  obtain ⟨hfail,ret,heq⟩ | ⟨spent,expired,left,ring,copies,hcopies,hlen,hcheck,hrest⟩ :=
    kPipeGet_cases h thread n minXfer wait outranks late
  · rw [heq]
    exact ⟨fun _ hle hc => absurd hc (hfail hle),fun _ => hs⟩
  have hleft : left = pipe.leftOver n late := hcopies.left_eq fun w hw hnil => hs.2 w hw (.inl (by simp [hnil]))
  have hprompt : Prompt W N pipe (.get thread n minXfer wait outranks late) ↔
      Refills (N-(pipe.ring.bytesUsed-n)) left := by
    rw [hleft]
    exact ⟨fun hp => hp hlen hcheck,fun hr _ _ => hr⟩
  rw [hprompt,← drain_unsatisfied_iff fun w hw => hs.2 w (leftOver_tail (hleft ▸ hw))]
  rcases hrest with heq | ⟨hshort,hbelow,heq⟩
  · rw [heq]
    exact ⟨fun hw => hw.2,fun hw => ⟨hs.1,hw⟩⟩
  · rw [heq]
    refine ⟨fun hw => hw.2,fun hw => ⟨fun r hmem => ?_,hw⟩⟩
    rcases WaitQueue.mem_pend.mp hmem with rfl | hmem
    · rintro (hz | ⟨hmin,hreached⟩)
      · simp at hz
        omega
      · have := hbelow hmin
        simp at hreached
        omega
    · exact hs.1 r hmem

lemma expire_settled [DecidableEq θ] (hs : pipe.Settled) (thread : θ) : (expire pipe thread).1.Settled :=
  ⟨fun r hr => hs.1 r (mem_of_mem_filter hr),fun w hw => hs.2 w (mem_of_mem_filter hw)⟩

end Steps

section Runs
variable [DecidableEq θ]

/-- Along every run whose calls meet the condition, no satisfied thread waits. -/
theorem runs_leave_no_satisfied_thread (W N : ℕ) (buffer : ℕ → β) {is : List (Action θ β)}
    (h : Along (fun pipe a => Meets pipe a ∧ Prompt W N pipe a) (step W N) (kPipeInit buffer) is) :
    ∃ pipe os, serve? (step W N) (kPipeInit buffer) is = some (pipe,os) ∧ pipe.Settled := by
  obtain ⟨pipe,os,hserve,-,hinv⟩ := Trace.of_along (I := fun pipe => pipe.Inv N ∧ pipe.Settled)
    (fun pipe a hinv ha => by
      obtain ⟨h,hs⟩ := hinv
      obtain ⟨hmeets,hprompt⟩ := ha
      cases a with
      | put thread data minXfer wait outranks =>
        exact ⟨_,_,rfl,(put_step h hmeets ..).2,(put_settled_iff h hs ..).mpr hprompt⟩
      | get thread n minXfer wait outranks late =>
        exact ⟨_,_,rfl,(get_step h hmeets ..).2,(get_settled_iff h hs ..).mpr hprompt⟩
      | timeout thread => exact ⟨_,_,rfl,(expire_step h thread).2,expire_settled hs thread⟩)
    ⟨inv_init buffer,by simp [KPipe.Settled,kPipeInit]⟩ h
  exact ⟨pipe,os,hserve,hinv.2⟩

def belowMinimum : List (Action ℕ UInt8) :=
  [.put 1 [1,2,3,4,5] 5 true fun _ => false,
    .get 2 2 1 true (fun _ => false) fun _ => false,
    .get 3 5 5 true (fun _ => false) fun _ => false,
    .put 1 [6] 0 true fun _ => false]

theorem runs_leave_no_satisfied_thread_belowMinimum :
    ∃ pipe os, serve? (step 32 2) (kPipeInit fun _ => 0) belowMinimum = some (pipe,os) ∧
      pipe.Settled :=
  runs_leave_no_satisfied_thread 32 2 (fun _ => 0) (by decide +kernel)

/-- A get that has reached its `min_xfer` of 1 still waits, and so does a put whose last bytes
went to the buffer in a refill. -/
theorem satisfied_threads_keep_waiting :
    (∃ pipe os, serve? (step 32 8) (kPipeInit fun _ => (0 : UInt8))
        [.get 1 10 1 true (fun _ => false) fun _ => false,.put 2 [7,8,9] 0 true fun _ => false] =
          some (pipe,os) ∧
      ∃ r ∈ pipe.readers, r.thread = 1 ∧ r.minXfer = 1 ∧ r.received = [7,8,9] ∧ r.Satisfied) ∧
    ∃ pipe os, serve? (step 32 2) (kPipeInit fun _ => (0 : UInt8))
        [.put 1 [1,2,3,4] 4 true fun _ => false,.get 2 2 2 true (fun _ => false) fun _ => false] =
          some (pipe,os) ∧
      ∃ w ∈ pipe.writers, w.thread = 1 ∧ w.rest = [] ∧ w.Satisfied := by
  refine ⟨⟨_,_,rfl,_,mem_cons_self ..,rfl,rfl,rfl,.inr ⟨?_,?_⟩⟩,
    ⟨_,_,rfl,_,mem_cons_self ..,rfl,rfl,.inl rfl⟩⟩ <;> decide

end Runs
end ArmFirmware.Zephyr.Pipe
