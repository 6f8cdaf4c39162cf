import ArmFirmware.Zephyr.Pipe.Steps

/-! Pipes conserve bytes: what was taken from the writers is what the readers have been given
followed by what is in the buffer, and every call reports exactly the bytes copied for it. -/
namespace ArmFirmware.Zephyr.Pipe
open Library List Pipe.Action Prod Moves Reply
variable {θ β : Type*}

/-- The data passed to a put, and the number of bytes a get asks for. -/
def Action.puts : Action θ β → List (θ × List β)
  | .put thread data _ _ _ => tag thread [data]
  | _ => []
def Action.gets : Action θ β → List (θ × ℕ)
  | .get thread bytesToRead _ _ _ _ => tag thread [bytesToRead]
  | _ => []

section Queries
variable {N : ℕ} {ring : Ring β} (h : ring.Ok N)
include h

lemma Ring.Ok.distance : (ring.writeIndex+N-ring.readIndex) % N = ring.bytesUsed % N := by
  rcases h.write_cases with hw | hw
  · rw [show ring.writeIndex+N-ring.readIndex = ring.bytesUsed+N by omega,Nat.add_mod_right]
  · rw [show ring.writeIndex+N-ring.readIndex = ring.bytesUsed by omega]

lemma Ring.Ok.read_avail : kPipeReadAvail N ring = ring.bytesUsed := by
  have hu := h.used
  have hc := h.write_cases
  unfold kPipeReadAvail
  split_ifs <;> omega

lemma Ring.Ok.write_avail : kPipeWriteAvail N ring = N-ring.bytesUsed := by
  have hu := h.used
  have hc := h.write_cases
  unfold kPipeWriteAvail
  split_ifs <;> omega

end Queries

section Runs
variable {W N : ℕ} {pipe : KPipe θ β} [DecidableEq θ]

lemma step_moves (h : pipe.Inv N) {a : Action θ β} (ha : Meets pipe a) :
    ∃ pipe' o, step W N pipe a = some (pipe',o) ∧ Moves N pipe a.puts a.gets o pipe' ∧ pipe'.Inv N := by
  cases a with
  | put thread data minXfer wait outranks =>
    exact ⟨_,_,rfl,put_step h ha data minXfer wait outranks⟩
  | get thread n minXfer wait outranks late =>
    exact ⟨_,_,rfl,get_step h ha n minXfer wait outranks late⟩
  | timeout thread => exact ⟨_,_,rfl,expire_step h thread⟩

/-- No byte is lost, doubled or overtaken. -/
structure Conserved (N : ℕ) (is : List (Action θ β)) (os : List (Reply θ β)) (pipe : KPipe θ β) :
    Prop where
  /-- Every byte taken from a writer has gone to one place in the areas of the readers, or is
  in the buffer, and all are in their order. -/
  fifo : (os.flatMap fun o => acceptedOf o.copies).map snd =
    (os.flatMap fun o => deliveredOf o.copies).map snd++pipe.ring.contents N
  /-- The bytes taken from a thread are those its puts count, and those of the put it waits in. -/
  put (t : θ) : strand t (os.flatMap fun o => acceptedOf o.copies) =
    strand t (os.flatMap fun o => writtenOf o.returned)++strand t (sentOf pipe.writers)
  get (t : θ) : strand t (os.flatMap fun o => deliveredOf o.copies) =
    strand t (os.flatMap fun o => readOf o.returned)++strand t (receivedOf pipe.readers)
  /-- The puts of a thread count, one by one, the first bytes of the data they were passed. -/
  calls (t : θ) : List.Forall₂ (· <+: ·)
    (strand t (os.flatMap fun o => returnsOf o.returned)++
      strand t (returnsOf (pipe.writers.map Writer.ret))) (strand t (is.flatMap puts))
  asks (t : θ) : List.Forall₂ (fun bytes n => bytes.length ≤ n)
    (strand t (os.flatMap fun o => answersOf o.returned)++
      strand t (answersOf (pipe.readers.map Reader.ret))) (strand t (is.flatMap gets))
  total : (os.flatMap fun o => writtenOf o.returned).length+(sentOf pipe.writers).length =
    (os.flatMap fun o => readOf o.returned).length+(receivedOf pipe.readers).length+
      pipe.ring.bytesUsed
  /-- With one writing and one reading thread, what is read is a prefix of what is written. -/
  single (w r : θ) (hw : ∀ x ∈ is.flatMap puts, x.1 = w)
    (hr : ∀ x ∈ is.flatMap gets, x.1 = r) :
    strand r (os.flatMap fun o => readOf o.returned)++strand r (receivedOf pipe.readers) <+:
      strand w (os.flatMap fun o => writtenOf o.returned)++strand w (sentOf pipe.writers)
  used : pipe.ring.bytesUsed ≤ N
  distance : (pipe.ring.writeIndex+N-pipe.ring.readIndex) % N = pipe.ring.bytesUsed % N
  avail : kPipeReadAvail N pipe.ring = pipe.ring.bytesUsed ∧
    kPipeReadAvail N pipe.ring+kPipeWriteAvail N pipe.ring = N

/-- The bytes counted by a thread's puts are those of its puts, one after the other. -/
lemma strand_writtenOf (t : θ) (returned : List (Return θ β)) :
    strand t (writtenOf returned) = (strand t (returnsOf returned)).flatten := by
  induction returned with
  | nil => rfl
  | cons r returned ih =>
    have hw : writtenOf (r::returned) = (if r.writes then tag r.thread r.bytes else [])++writtenOf returned := rfl
    have hr : returnsOf (r::returned) = (if r.writes then tag r.thread [r.bytes] else [])++returnsOf returned := rfl
    rw [hw,hr,strand_append,strand_append,ih,flatten_append]
    congr 1
    split_ifs
    · rw [strand_tag,strand_tag]
      split_ifs <;> simp
    · rfl

lemma strand_readOf (t : θ) (returned : List (Return θ β)) :
    strand t (readOf returned) = (strand t (answersOf returned)).flatten := by
  induction returned with
  | nil => rfl
  | cons r returned ih =>
    have hw : readOf (r::returned) = (if r.writes then [] else tag r.thread r.bytes)++readOf returned := rfl
    have hr : answersOf (r::returned) = (if r.writes then [] else tag r.thread [r.bytes])++answersOf returned := rfl
    rw [hw,hr,strand_append,strand_append,ih,flatten_append]
    congr 1
    split_ifs
    · rfl
    · rw [strand_tag,strand_tag]
      split_ifs <;> simp

lemma strand_nil_of_answered {γ δ : Type*} {R : γ → δ → Prop} {t : θ} {l l' : List (θ × γ)}
    {requests : List (θ × δ)} (h : List.Forall₂ R (strand t l++strand t l') (strand t requests))
    (hnone : ∀ x ∈ requests, x.1 ≠ t) : strand t l = [] ∧ strand t l' = [] := by
  rw [strand_eq_nil hnone,List.forall₂_nil_right_iff] at h
  exact append_eq_nil_iff.mp h

lemma map_snd_eq_strand {γ : Type*} {t : θ} {l : List (θ × γ)} (h : ∀ u, u ≠ t → strand u l = []) :
    l.map snd = strand t l := by
  rw [strand,filter_eq_self.mpr]
  intro x hx
  by_contra hne
  have hmem : x.2 ∈ strand x.1 l := mem_map_of_mem (mem_filter.mpr ⟨hx,by simp⟩)
  rw [h x.1 (by simpa using hne)] at hmem
  exact absurd hmem not_mem_nil

section Account
variable {buffer : ℕ → β} {is : List (Action θ β)} {os : List (Reply θ β)}
variable (h : Trace (fun pipe a o pipe' => Moves N pipe a.puts a.gets o pipe') (kPipeInit buffer) is os
  pipe)
include h

lemma run_fifo : (os.flatMap fun o => acceptedOf o.copies).map snd =
    (os.flatMap fun o => deliveredOf o.copies).map snd++pipe.ring.contents N := by
  have hrun := Trace.fifo (fun _ _ _ _ hm => fifo hm) h
  rw [h.contributions_eq fun o => (acceptedOf o.copies).map snd,
    h.contributions_eq fun o => (deliveredOf o.copies).map snd] at hrun
  rw [map_flatMap,map_flatMap]
  exact hrun

lemma run_put (t : θ) : strand t (os.flatMap fun o => acceptedOf o.copies) =
    strand t (os.flatMap fun o => writtenOf o.returned)++strand t (sentOf pipe.writers) := by
  have hrun := h.strands t fun _ _ _ _ hm => put hm t
  exact hrun

lemma run_get (t : θ) : strand t (os.flatMap fun o => deliveredOf o.copies) =
    strand t (os.flatMap fun o => readOf o.returned)++strand t (receivedOf pipe.readers) := by
  have hrun := h.strands t fun _ _ _ _ hm => get hm t
  exact hrun

lemma run_calls (t : θ) : List.Forall₂ (· <+: ·) (strand t (os.flatMap fun o => returnsOf o.returned)++
      strand t (returnsOf (pipe.writers.map Writer.ret))) (strand t (is.flatMap puts)) :=
  h.answered t (fun p => returns_prefix t p.writers) fun _ _ _ _ hm => calls hm t

lemma run_asks (t : θ) : List.Forall₂ (fun bytes n => bytes.length ≤ n)
    (strand t (os.flatMap fun o => answersOf o.returned)++
      strand t (answersOf (pipe.readers.map Reader.ret))) (strand t (is.flatMap gets)) :=
  h.answered t (fun p => answers_le t p.readers) fun _ _ _ _ hm => asks hm t

lemma run_total : (os.flatMap fun o => writtenOf o.returned).length+(sentOf pipe.writers).length =
    (os.flatMap fun o => readOf o.returned).length+(receivedOf pipe.readers).length+ pipe.ring.bytesUsed := by
  have hput := length_eq_of_strands fun t => (run_put h t).trans (strand_append ..).symm
  have hget := length_eq_of_strands fun t => (run_get h t).trans (strand_append ..).symm
  have hfifo := congrArg List.length (run_fifo h)
  simp only [length_append,length_map,contents_length] at hput hget hfifo
  omega

/-- Nothing is taken from a thread that calls no put, or given to one that calls no get. -/
lemma run_put_nil {t : θ} (ht : ∀ x ∈ is.flatMap puts, x.1 ≠ t) :
    strand t (os.flatMap fun o => acceptedOf o.copies) = [] := by
  obtain ⟨hreturned,hwaiting⟩ := strand_nil_of_answered (run_calls h t) ht
  have hwritten : strand t (os.flatMap fun o => writtenOf o.returned) = [] := by
    have hr : strand t (returnsOf (os.flatMap returned)) = [] := by
      rwa [returnsOf,flatMap_assoc]
    have hw := strand_writtenOf t (os.flatMap returned)
    rwa [hr,writtenOf,flatMap_assoc] at hw
  have hsent : strand t (sentOf pipe.writers) = [] := by
    rw [← writtenOf_writers,strand_writtenOf,hwaiting,flatten_nil]
  rw [run_put h,hwritten,hsent,append_nil]

lemma run_get_nil {t : θ} (ht : ∀ x ∈ is.flatMap gets, x.1 ≠ t) :
    strand t (os.flatMap fun o => deliveredOf o.copies) = [] := by
  obtain ⟨hreturned,hwaiting⟩ := strand_nil_of_answered (run_asks h t) ht
  have hread : strand t (os.flatMap fun o => readOf o.returned) = [] := by
    have hr : strand t (answersOf (os.flatMap returned)) = [] := by
      rwa [answersOf,flatMap_assoc]
    have hw := strand_readOf t (os.flatMap returned)
    rwa [hr,readOf,flatMap_assoc] at hw
  have hreceived : strand t (receivedOf pipe.readers) = [] := by
    rw [← readOf_readers,strand_readOf,hwaiting,flatten_nil]
  rw [run_get h,hread,hreceived,append_nil]

lemma run_single (w r : θ) (hw : ∀ x ∈ is.flatMap puts, x.1 = w) (hr : ∀ x ∈ is.flatMap gets, x.1 = r) :
    strand r (os.flatMap fun o => readOf o.returned)++strand r (receivedOf pipe.readers) <+:
      strand w (os.flatMap fun o => writtenOf o.returned)++strand w (sentOf pipe.writers) := by
  have haccepted := map_snd_eq_strand fun u hu =>
    run_put_nil h fun x hx => (hw x hx).trans_ne hu.symm
  have hdelivered := map_snd_eq_strand fun u hu =>
    run_get_nil h fun x hx => (hr x hx).trans_ne hu.symm
  rw [← run_put h,← run_get h,← haccepted,← hdelivered,run_fifo h]
  exact prefix_append _ _

end Account

/-- Every run of a pipe of any size, by any number of threads, conserves bytes. -/
theorem runs_conserve_bytes (W N : ℕ) (buffer : ℕ → β) {is : List (Action θ β)}
    (h : Along Meets (step W N) (kPipeInit buffer) is) :
    ∃ pipe os, serve? (step W N) (kPipeInit buffer) is = some (pipe,os) ∧ Conserved N is os pipe := by
  obtain ⟨pipe,os,hserve,htrace,hinv⟩ := Trace.of_along
    (fun pipe a hinv ha => by
      obtain ⟨pipe',o,hstep,-,hinv'⟩ := step_moves hinv ha
      exact ⟨pipe',o,hstep,hinv'⟩) (inv_init buffer) h
  have hmoves : Trace (fun pipe a o pipe' => Moves N pipe a.puts a.gets o pipe') (kPipeInit buffer)
      is os pipe := htrace.mono fun pipe a o pipe' ⟨hinv,ha,hstep⟩ => by
    obtain ⟨pipe'',o',hstep',hm,-⟩ := step_moves hinv ha
    cases hstep.symm.trans hstep'
    exact hm
  refine ⟨pipe,os,hserve,run_fifo hmoves,run_put hmoves,run_get hmoves,run_calls hmoves,
    run_asks hmoves,run_total hmoves,run_single hmoves,hinv.ok.used,hinv.ok.distance,
    hinv.ok.read_avail,?_⟩
  rw [hinv.ok.read_avail,hinv.ok.write_avail]
  have := hinv.ok.used
  omega

def mixedCalls : List (Action ℕ UInt8) :=
  [.get 1 3 2 true (fun _ => false) fun _ => false,
    .put 2 [1] 1 false fun _ => false,
    .timeout 1,
    .put 2 [2,3,4,5] 4 true fun _ => false,
    .put 3 [6,7] 0 true fun t => t = 2,
    .get 1 3 0 false (fun _ => false) fun t => t = 3,
    .get 4 9 9 false (fun _ => false) fun _ => false]

theorem runs_conserve_bytes_mixedCalls :
    ∃ pipe os, serve? (step 32 2) (kPipeInit fun _ => 0) mixedCalls = some (pipe,os) ∧
      Conserved 2 mixedCalls os pipe :=
  runs_conserve_bytes 32 2 (fun _ => 0) (by decide +kernel)

end Runs
end ArmFirmware.Zephyr.Pipe
