import ArmFirmware.Zephyr.Pipe.Transfer

/-! The account of one step of a pipe: what is taken from the writers, what is handed to the
readers, what the buffer holds, and what the calls that return report. -/
namespace ArmFirmware.Zephyr.Pipe
open Library List Nat Writer WaitQueue

attribute [local simp] acceptedOf deliveredOf Reply.fail flatMap_map expire dealt ret Reader.ret kPipeInit drain pour
variable {θ β : Type*}

/-- The bytes counted by the calls that have returned. -/
def writtenOf (returned : List (Return θ β)) : List (θ × β) :=
  returned.flatMap fun r => if r.writes then tag r.thread r.bytes else []
def readOf (returned : List (Return θ β)) : List (θ × β) :=
  returned.flatMap fun r => if r.writes then [] else tag r.thread r.bytes

/-- The data of the puts that wait, and the bytes that the puts which have returned count. -/
def callsOf (ws : List (Writer θ β)) : List (θ × List β) :=
  ws.flatMap fun w => tag w.thread [w.sent++w.rest]
def returnsOf (returned : List (Return θ β)) : List (θ × List β) :=
  returned.flatMap fun r => if r.writes then tag r.thread [r.bytes] else []

/-- The sizes asked for by the gets that wait, and the bytes that those which have returned
count. -/
def asksOf (rs : List (Reader θ β)) : List (θ × ℕ) :=
  rs.flatMap fun r => tag r.thread [r.received.length+r.room]
def answersOf (returned : List (Return θ β)) : List (θ × List β) :=
  returned.flatMap fun r => if r.writes then [] else tag r.thread [r.bytes]

section Lists
variable {ws ws' : List (Writer θ β)} {rs rs' : List (Reader θ β)}

@[simp] lemma sentOf_append : sentOf (ws++ws') = sentOf ws++sentOf ws' := flatMap_append
@[simp] lemma restOf_append : restOf (ws++ws') = restOf ws++restOf ws' := flatMap_append
@[simp] lemma receivedOf_append : receivedOf (rs++rs') = receivedOf rs++receivedOf rs' := flatMap_append
@[simp] lemma callsOf_append : callsOf (ws++ws') = callsOf ws++callsOf ws' := flatMap_append
@[simp] lemma returnsOf_append (a b : List (Return θ β)) :
    returnsOf (a++b) = returnsOf a++returnsOf b := flatMap_append
@[simp] lemma asksOf_append : asksOf (rs++rs') = asksOf rs++asksOf rs' := flatMap_append
@[simp] lemma answersOf_append (a b : List (Return θ β)) :
    answersOf (a++b) = answersOf a++answersOf b := flatMap_append
@[simp] lemma dataOf_append : dataOf (ws++ws') = dataOf ws++dataOf ws' := by simp [dataOf]
@[simp] lemma writtenOf_append (a b : List (Return θ β)) :
    writtenOf (a++b) = writtenOf a++writtenOf b := flatMap_append
@[simp] lemma readOf_append (a b : List (Return θ β)) : readOf (a++b) = readOf a++readOf b := flatMap_append

@[simp] lemma writtenOf_writers : writtenOf (ws.map ret) = sentOf ws := by
  simp [writtenOf,sentOf]
@[simp] lemma readOf_writers : readOf (ws.map ret) = [] := by
  simp [readOf]
@[simp] lemma writtenOf_readers : writtenOf (rs.map Reader.ret) = [] := by
  simp [writtenOf]
@[simp] lemma readOf_readers : readOf (rs.map Reader.ret) = receivedOf rs := by
  simp [readOf,receivedOf]

@[simp] lemma returnsOf_readers : returnsOf (rs.map Reader.ret) = [] := by
  simp [returnsOf]

@[simp] lemma answersOf_writers : answersOf (ws.map ret) = [] := by
  simp [answersOf]

@[simp] lemma asksOf_pour (bytes : List β) : asksOf (pour bytes rs) = asksOf rs := by
  induction rs generalizing bytes with
  | nil => rfl
  | cons r rs ih =>
    have hrest := ih (bytes.drop r.room)
    have hsize : (r.received++bytes.take r.room).length+(r.room-(bytes.take r.room).length) =
        r.received.length+r.room := by
      rw [length_append,length_take]
      omega
    simp only [asksOf] at hrest
    simp only [asksOf,pour,flatMap_cons,accept_thread,accept_received,accept_room,hsize,hrest]

@[simp] lemma callsOf_drain (k : ℕ) : callsOf (drain k ws) = callsOf ws := by
  induction ws generalizing k with
  | nil => rfl
  | cons w ws ih =>
    have hrest := ih (k-w.rest.length)
    simp only [callsOf] at hrest
    simp [callsOf,hrest]

@[simp] lemma dataOf_cons (w : Writer θ β) : dataOf (w::ws) = w.rest++dataOf ws := by
  simp [dataOf]

lemma restOf_length : (restOf ws).length = (ws.map (·.rest.length)).sum := by
  induction ws with
  | nil => rfl
  | cons w ws ih => simp [ih]

lemma dataOf_length : (dataOf ws).length = (ws.map (·.rest.length)).sum := by
  rw [dataOf,length_map,restOf_length]

lemma drain_append (k : ℕ) : drain k (ws++ws') = drain k ws++drain (k-(dataOf ws).length) ws' := by
  induction ws generalizing k with
  | nil => simp [dataOf]
  | cons w ws ih =>
    simp only [cons_append,drain,ih,dataOf_cons,length_append,Nat.sub_sub]

lemma pour_append_readers (bytes : List β) :
    pour bytes (rs++rs') = pour bytes rs++pour (bytes.drop (roomOf rs)) rs' := by
  induction rs generalizing bytes with
  | nil => simp
  | cons r rs ih => simp [ih]

lemma dealt_append_readers (bytes : List β) :
    dealt bytes (rs++rs') = dealt bytes rs++dealt (bytes.drop (roomOf rs)) rs' := by
  induction rs generalizing bytes with
  | nil => simp
  | cons r rs ih => simp [ih]

lemma map_snd_dealt (bytes : List β) : (dealt bytes rs).map Prod.snd = bytes.take (roomOf rs) := by
  induction rs generalizing bytes with
  | nil => simp
  | cons r rs ih => simp [ih,take_add]

/-- A writer keeps bytes only if all bytes taken came from it or from those before it. -/
lemma le_of_mem_drain {k : ℕ} {w : Writer θ β} (hw : w ∈ drain k ws) (hrest : w.rest ≠ []) :
    k < (dataOf ws).length := by
  induction ws generalizing k with
  | nil => simp at hw
  | cons v ws ih =>
    rw [dataOf_cons,length_append]
    rcases mem_cons.mp hw with rfl | hw
    · have : k < v.rest.length := by
        by_contra h
        exact hrest (drop_of_length_le (by omega))
      omega
    · have := ih hw
      omega

lemma lt_of_mem_pour {bytes : List β} {r : Reader θ β} (hr : r ∈ pour bytes rs) (hroom : r.room ≠ 0) :
    bytes.length < roomOf rs := by
  induction rs generalizing bytes with
  | nil => simp at hr
  | cons q rs ih =>
    rcases mem_cons.mp hr with rfl | hr
    · simp only [accept_room,length_take,roomOf_cons] at hroom ⊢
      omega
    · have := ih hr
      simp only [length_drop,roomOf_cons] at this ⊢
      omega

variable [DecidableEq θ]

lemma strand_sentOf_perm (t : θ) (h : ws.Perm ws') (hnodup : (ws.map thread).Nodup) :
    strand t (sentOf ws) = strand t (sentOf ws') := strand_flatMap_perm thread sent t h hnodup

lemma strand_receivedOf_perm (t : θ) (h : rs.Perm rs') (hnodup : (rs.map Reader.thread).Nodup) :
    strand t (receivedOf rs) = strand t (receivedOf rs') :=
  strand_flatMap_perm Reader.thread Reader.received t h hnodup

lemma strand_callsOf_perm (t : θ) (h : ws.Perm ws') (hnodup : (ws.map thread).Nodup) :
    strand t (callsOf ws) = strand t (callsOf ws') :=
  strand_flatMap_perm thread (fun w => [w.sent++w.rest]) t h hnodup

lemma strand_asksOf_perm (t : θ) (h : rs.Perm rs') (hnodup : (rs.map Reader.thread).Nodup) :
    strand t (asksOf rs) = strand t (asksOf rs') :=
  strand_flatMap_perm Reader.thread (fun r => [r.received.length+r.room]) t h hnodup

lemma answers_le (t : θ) (rs : List (Reader θ β)) :
    List.Forall₂ (fun bytes n => bytes.length ≤ n) (strand t (answersOf (rs.map Reader.ret)))
      (strand t (asksOf rs)) := by
  induction rs with
  | nil => exact .nil
  | cons r rs ih =>
    have hl : answersOf ((r::rs).map Reader.ret) = tag r.thread [r.received]++answersOf (rs.map Reader.ret) := rfl
    have hr : asksOf (r::rs) = tag r.thread [r.received.length+r.room]++asksOf rs := rfl
    rw [hl,hr,strand_append,strand_append,strand_tag,strand_tag]
    split_ifs
    · exact .cons (le_add_right _ _) ih
    · exact ih

lemma returns_prefix (t : θ) (ws : List (Writer θ β)) :
    List.Forall₂ (· <+: ·) (strand t (returnsOf (ws.map ret))) (strand t (callsOf ws)) := by
  induction ws with
  | nil => exact .nil
  | cons w ws ih =>
    have hl : returnsOf ((w::ws).map ret) = tag w.thread [w.sent]++returnsOf (ws.map ret) := rfl
    have hr : callsOf (w::ws) = tag w.thread [w.sent++w.rest]++callsOf ws := rfl
    rw [hl,hr,strand_append,strand_append,strand_tag,strand_tag]
    split_ifs
    · exact .cons (prefix_append _ _) ih
    · exact ih

variable {u : θ}

lemma strand_sentOf_comm (h : u ∉ ws.map thread) (t : θ) (bytes : List β) :
    strand t (sentOf ws)++strand t (tag u bytes) = strand t (tag u bytes)++strand t (sentOf ws) :=
  strand_flatMap_comm thread sent h t bytes

lemma strand_callsOf_comm (h : u ∉ ws.map thread) (t : θ) (datas : List (List β)) :
    strand t (callsOf ws)++strand t (tag u datas) = strand t (tag u datas)++strand t (callsOf ws) :=
  strand_flatMap_comm thread (fun w => [w.sent++w.rest]) h t datas

lemma strand_asksOf_comm (h : u ∉ rs.map Reader.thread) (t : θ) (sizes : List ℕ) :
    strand t (asksOf rs)++strand t (tag u sizes) = strand t (tag u sizes)++strand t (asksOf rs) :=
  strand_flatMap_comm Reader.thread (fun r => [r.received.length+r.room]) h t sizes

lemma strand_receivedOf_comm (h : u ∉ rs.map Reader.thread) (t : θ) (bytes : List β) :
    strand t (receivedOf rs)++strand t (tag u bytes) = strand t (tag u bytes)++strand t (receivedOf rs) :=
  strand_flatMap_comm Reader.thread Reader.received h t bytes

variable {t : θ}

lemma strand_restOf_take_nil (h : t ∉ ws.map thread) (k : ℕ) : strand t ((restOf ws).take k) = [] := by
  refine strand_eq_nil fun x hx => ?_
  obtain ⟨w,hw,hx⟩ := mem_flatMap.mp (mem_of_mem_take hx)
  obtain ⟨b,-,rfl⟩ := mem_map.mp hx
  rintro rfl
  exact h (mem_map_of_mem hw)

lemma strand_dealt_nil (h : t ∉ rs.map Reader.thread) (bytes : List β) : strand t (dealt bytes rs) = [] := by
  induction rs generalizing bytes with
  | nil => rfl
  | cons r rs ih =>
    simp only [map_cons,mem_cons,not_or] at h
    simp [ih h.2,Ne.symm h.1]

lemma strand_drain (t : θ) (k : ℕ) (hnodup : (ws.map thread).Nodup) :
    strand t (sentOf (drain k ws)) = strand t (sentOf ws)++strand t ((restOf ws).take k) := by
  induction ws generalizing k with
  | nil => simp
  | cons w ws ih =>
    obtain ⟨hw,hws⟩ := nodup_cons.mp hnodup
    simp only [drain,sentOf_cons,restOf_cons,take_append,strand_append,ih _ hws,advance_thread,
      advance_sent,tag_length,← tag_take,strand_tag]
    by_cases ht : w.thread = t
    · subst ht
      simp [sentOf,strand_flatMap_nil thread sent hw,strand_restOf_take_nil hw]
    · simp [ht]

lemma strand_pour (t : θ) (bytes : List β) (hnodup : (rs.map Reader.thread).Nodup) :
    strand t (receivedOf (pour bytes rs)) = strand t (receivedOf rs)++strand t (dealt bytes rs) := by
  induction rs generalizing bytes with
  | nil => simp
  | cons r rs ih =>
    obtain ⟨hr,hrs⟩ := nodup_cons.mp hnodup
    simp only [pour,dealt,receivedOf_cons,strand_append,ih _ hrs,accept_thread,accept_received,strand_tag]
    by_cases ht : r.thread = t
    · subst ht
      simp [receivedOf,strand_flatMap_nil Reader.thread Reader.received hr,strand_dealt_nil hr]
    · simp [ht]

end Lists

section Steps
variable {W N : ℕ} {pipe pipe' : KPipe θ β} {thread : θ}

/-- Readers wait only at an empty pipe without writers, and writers with bytes left only at a
full one. A writer without bytes left may wait at any level. -/
structure KPipe.Inv (N : ℕ) (pipe : KPipe θ β) : Prop where
  ok : pipe.ring.Ok N
  nodup : pipe.waiting.Nodup
  room : ∀ r ∈ pipe.readers, r.room ≠ 0
  readers : pipe.readers ≠ [] → pipe.ring.bytesUsed = 0 ∧ pipe.writers = []
  writers : ∀ w ∈ pipe.writers, w.rest ≠ [] → pipe.ring.bytesUsed = N

/-- What `k_pipe_put` copies from the descriptor `src`: `filled` readers return, and those in
`waiting` stay. -/
structure PutCopies (N : ℕ) (pipe : KPipe θ β) (src : Writer θ β) (filled waiting : List (Reader θ β))
    (ring : Ring β) (copies : List (Copy θ β)) : Prop where
  readers : filled++waiting = pour src.rest pipe.readers
  filled_room : ∀ r ∈ filled, r.room = 0
  waiting_room : ∀ r ∈ waiting, r.room ≠ 0
  accepted : acceptedOf copies =
    tag src.thread (src.rest.take (roomOf pipe.readers+(N-pipe.ring.bytesUsed)))
  delivered : deliveredOf copies = dealt src.rest pipe.readers
  count : bytesCopied copies = min src.rest.length (roomOf pipe.readers+(N-pipe.ring.bytesUsed))
  ok : ring.Ok N
  contents : ring.contents N = pipe.ring.contents N++
    (src.rest.drop (roomOf pipe.readers)).take (N-pipe.ring.bytesUsed)

/-- What `pipe_write` copies in a put. -/
lemma pipeWrite_put (h : pipe.Inv N) (src : Writer θ β)
    (listed unlisted : List (Reader θ β)) (hlisted : listed++unlisted = pipe.readers)
    (henough : unlisted = [] ∨ src.rest.length ≤ roomOf listed) :
    ∃ x, pipeWrite N pipe.ring [src] (destsOf listed (pipe.ring.free N)) = x ∧
      x.spent++x.srcs = [src.advance (roomOf pipe.readers+(N-pipe.ring.bytesUsed))] ∧
      PutCopies N pipe src x.filled (x.waiting++unlisted) x.ring x.copies := by
  have hx := pipeWrite_copied [src] h.ok listed
  have hlen : lengthOf (pipe.ring.free N) = N-pipe.ring.bytesUsed := by
    have := h.ok.free_fits.2
    omega
  have hroom : roomOf pipe.readers = roomOf listed+roomOf unlisted := by
    simp [← hlisted,roomOf]
  have hgone : unlisted = [] ∨ src.rest.drop (roomOf listed) = [] :=
    henough.imp_right fun hle => drop_of_length_le hle
  have hpour : pour src.rest pipe.readers = pour src.rest listed++unlisted := by
    rw [← hlisted,pour_append_readers]
    rcases hgone with rfl | hz
    · rfl
    · rw [hz,pour_nil]
  have hdealt : dealt src.rest pipe.readers = dealt src.rest listed := by
    rw [← hlisted,dealt_append_readers]
    rcases hgone with rfl | hz
    · exact append_nil _
    · rw [hz,dealt_nil,append_nil]
  have hadvance : ∀ k, src.advance (roomOf listed+k) = src.advance (roomOf pipe.readers+k) := by
    intro k
    rcases henough with rfl | hle
    · simp [hroom]
    · simp only [advance]
      rw [take_of_length_le (by omega),take_of_length_le (by omega),
        drop_of_length_le (by omega),drop_of_length_le (by omega)]
  have htake : ∀ k, src.rest.take (roomOf listed+k) = src.rest.take (roomOf pipe.readers+k) := by
    intro k
    simpa [advance] using congrArg sent (hadvance k)
  have hdrop : src.rest.drop (roomOf listed) = src.rest.drop (roomOf pipe.readers) := by
    simpa [advance] using congrArg rest (hadvance 0)
  obtain ⟨hfilled,hwaiting⟩ := hx.satisfied (by simp) fun r hr =>
    h.room r (hlisted ▸ mem_append_left _ hr)
  refine ⟨_,rfl,?_,?_,hfilled,?_,?_,?_,?_,hx.ok,?_⟩
  · rw [hx.sources,hlen,← hadvance]
    rfl
  · rw [← append_assoc,hx.readers,hpour]
    simp [dataOf]
  · intro r hr
    rcases mem_append.mp hr with hr | hr
    · exact hwaiting r hr
    · exact h.room r (hlisted ▸ mem_append_right _ hr)
  · rw [hx.accepted,hlen,← htake,tag_take]
    simp
  · rw [hx.delivered,hdealt]
    simp [dataOf]
  · have hmin := congrArg length (htake (N-pipe.ring.bytesUsed))
    rw [length_take,length_take] at hmin
    rw [hx.count,hlen]
    simp [bytesCopied,dataOf]
    omega
  · rw [hx.contents,hlen]
    simp [dataOf,hdrop]

variable {n : ℕ} {wait : Bool}

lemma passes_check {m : ℕ} (h : ¬(n < m ∧ (!wait) = true)) : wait ∨ m ≤ n := by
  cases wait with
  | false => exact .inr (not_lt.mp fun hlt => h ⟨hlt,rfl⟩)
  | true => exact .inl rfl

lemma fails_check {m : ℕ} (h : n < m ∧ (!wait) = true) : ¬(wait ∨ m ≤ n) := by
  rintro (hw | hle)
  · simp [hw] at h
  · exact absurd h.1 (not_lt.mpr hle)

/-- `bytes_can_write` and `bytes_can_read`, sums in `W` bits. -/
def bytesCanWrite (W N : ℕ) (pipe : KPipe θ β) (n : ℕ) : ℕ :=
  ((pipeWaiterListPopulate W Reader.room n 0 pipe.readers).2.2+lengthOf (pipe.ring.free N)) % 2^W
def bytesCanRead (W N : ℕ) (pipe : KPipe θ β) (n : ℕ) : ℕ :=
  (lengthOf (pipe.ring.used N)+
    (pipeWaiterListPopulate W (fun w : Writer θ β => w.rest.length) n 0 pipe.writers).2.2) % 2^W

/-- `k_pipe_put` fails, or copies and may pend. -/
lemma kPipePut_cases (h : pipe.Inv N) (thread : θ) (data : List β) (minXfer : ℕ) (wait : Bool)
    (outranks : θ → Bool) : ((minXfer ≤ data.length → ¬(wait ∨ minXfer ≤ bytesCanWrite W N pipe data.length)) ∧
      ∃ ret, kPipePut W N pipe thread data minXfer wait outranks = (pipe,.fail thread true ret)) ∨
    ∃ filled waiting ring copies, PutCopies N pipe ⟨thread,[],data,minXfer⟩ filled waiting ring copies ∧
      minXfer ≤ data.length ∧ (wait ∨ minXfer ≤ bytesCanWrite W N pipe data.length) ∧
      (kPipePut W N pipe thread data minXfer wait outranks = ({pipe with ring, readers := waiting},
            ⟨filled.map Reader.ret++[⟨thread,true,0,
              data.take (roomOf pipe.readers+(N-pipe.ring.bytesUsed))⟩],copies⟩) ∨
        (bytesCopied copies < data.length ∧ (0 < minXfer → bytesCopied copies < minXfer) ∧
          kPipePut W N pipe thread data minXfer wait outranks =
            ({ring, readers := waiting, writers := pend (fun w => outranks w.thread)
                (advance ⟨thread,[],data,minXfer⟩
                  (roomOf pipe.readers+(N-pipe.ring.bytesUsed))) pipe.writers},
              ⟨filled.map Reader.ret,copies⟩))) := by
  obtain ⟨hlisted,henough⟩ := pipeWaiterListPopulate_spec W Reader.room data.length 0 pipe.readers
  unfold kPipePut bytesCanWrite
  generalize pipeWaiterListPopulate W Reader.room data.length 0 pipe.readers = r at hlisted henough
  obtain ⟨listed,unlisted,available⟩ := r
  obtain ⟨x,hx,hsrc,hcopies⟩ := pipeWrite_put h ⟨thread,[],data,minXfer⟩ listed unlisted hlisted
    (by simpa [roomOf] using henough)
  simp only [destsOf] at hx
  simp only [hx,hsrc,headD_cons]
  have hcount := hcopies.count
  simp only at hcount
  split_ifs with hinval hio hdone
  · exact .inl ⟨fun hle => absurd hle (not_le.mpr hinval),_,rfl⟩
  · exact .inl ⟨fun _ => fails_check hio,_,rfl⟩
  · exact .inr ⟨_,_,_,_,hcopies,not_lt.mp hinval,passes_check hio,.inl rfl⟩
  · rw [not_or,not_or] at hdone
    refine .inr ⟨_,_,_,_,hcopies,not_lt.mp hinval,passes_check hio,.inr ⟨by omega,fun hmin => ?_,rfl⟩⟩
    by_contra hle
    exact hdone.2.2 ⟨by omega,hmin⟩

lemma inv_init (buffer : ℕ → β) : (kPipeInit buffer : KPipe θ β).Inv N where
  ok := ⟨zero_le _,zero_le _,(zero_mod _).symm⟩
  nodup := nodup_nil
  room := by simp
  readers := by simp
  writers := by simp

lemma KPipe.Inv.nodup_readers (h : pipe.Inv N) : (pipe.readers.map Reader.thread).Nodup :=
  (nodup_append.mp h.nodup).1

lemma KPipe.Inv.nodup_writers (h : pipe.Inv N) : (pipe.writers.map Writer.thread).Nodup :=
  (nodup_append.mp h.nodup).2.1

section Put
variable {thread : θ} {data : List β} {minXfer : ℕ} {filled waiting : List (Reader θ β)}
  {ring : Ring β} {copies : List (Copy θ β)}
variable (hcopies : PutCopies N pipe ⟨thread,[],data,minXfer⟩ filled waiting ring copies)
include hcopies

lemma PutCopies.bytesUsed : ring.bytesUsed = pipe.ring.bytesUsed+
    min (data.length-roomOf pipe.readers) (N-pipe.ring.bytesUsed) := by
  have := congrArg length hcopies.contents
  simp only [contents_length,length_append,length_take,length_drop] at this
  omega

lemma PutCopies.threads_subperm : (waiting.map Reader.thread).Subperm (pipe.readers.map Reader.thread) := by
  have := congrArg (map Reader.thread) hcopies.readers
  rw [map_append,pour_thread] at this
  rw [← this]
  exact (sublist_append_right _ _).subperm

lemma PutCopies.waiting_short (hw : waiting ≠ []) : data.length < roomOf pipe.readers := by
  obtain ⟨r,hr⟩ := exists_mem_of_ne_nil _ hw
  exact lt_of_mem_pour (hcopies.readers ▸ mem_append_right _ hr) (hcopies.waiting_room r hr)

variable (h : pipe.Inv N)
include h

lemma PutCopies.fifo : pipe.ring.contents N++(acceptedOf copies).map Prod.snd =
    (deliveredOf copies).map Prod.snd++ring.contents N := by
  rw [hcopies.accepted,hcopies.delivered,hcopies.contents,map_snd_tag,map_snd_dealt,take_add]
  by_cases hr : pipe.readers = []
  · simp [hr]
  · have hempty : pipe.ring.contents N = [] := length_eq_zero_iff.mp (by simp [(h.readers hr).1])
    simp [hempty]

lemma PutCopies.waiting_empty (hw : waiting ≠ []) :
    ring.bytesUsed = 0 ∧ pipe.writers = [] ∧ bytesCopied copies = data.length := by
  have hshort := hcopies.waiting_short hw
  have hr : pipe.readers ≠ [] := by
    intro hr
    simp [hr] at hshort
  obtain ⟨hused,hwriters⟩ := h.readers hr
  have := hcopies.bytesUsed
  have := hcopies.count
  simp only at this
  exact ⟨by omega,hwriters,by omega⟩

lemma PutCopies.writers_full {w : Writer θ β} (hw : w ∈ pipe.writers) (hrest : w.rest ≠ []) :
    ring.bytesUsed = N := by
  have := h.writers w hw hrest
  have := hcopies.bytesUsed
  omega

lemma PutCopies.get [DecidableEq θ] (t : θ) : strand t (receivedOf pipe.readers)++strand t (deliveredOf copies) =
      strand t (receivedOf filled)++strand t (receivedOf waiting) := by
  rw [hcopies.delivered,← strand_pour t _ h.nodup_readers,← hcopies.readers,receivedOf_append,strand_append]

omit h in
lemma PutCopies.asks [DecidableEq θ] (t : θ) :
    ∃ sizes, strand t (asksOf pipe.readers) = sizes++strand t (asksOf waiting) ∧
      List.Forall₂ (fun bytes n => bytes.length ≤ n) (strand t (answersOf (filled.map Reader.ret))) sizes := by
  refine ⟨strand t (asksOf filled),?_,answers_le t filled⟩
  rw [← strand_append,← asksOf_append,hcopies.readers,asksOf_pour]

end Put

section Get
variable {listed unlisted : List (Writer θ β)}

variable {k : ℕ}

section Listed
variable (henough : unlisted = [] ∨ k ≤ (dataOf listed).length)
include henough

lemma drain_listed : drain k (listed++unlisted) = drain k listed++unlisted := by
  rw [drain_append]
  rcases henough with rfl | hle
  · rfl
  · rw [Nat.sub_eq_zero_of_le hle,drain_zero]

lemma restOf_listed : (restOf (listed++unlisted)).take k = (restOf listed).take k := by
  rw [restOf_append]
  rcases henough with rfl | hle
  · simp
  · rw [take_append_of_le_length (by simpa [dataOf] using hle)]

lemma dataOf_listed : (dataOf (listed++unlisted)).take k = (dataOf listed).take k := by
  simpa only [dataOf,map_take] using congrArg (map Prod.snd) (restOf_listed henough)

end Listed

/-- The refill takes from the writers what the buffer has room for. -/
theorem refill_spec {ring : Ring β} (hok : ring.Ok N) (writers : List (Writer θ β)) :
    ∃ ring' copies, refill W N ring writers = (ring',drain (N-ring.bytesUsed) writers,copies) ∧
      ring'.Ok N ∧ ring'.contents N = ring.contents N++(dataOf writers).take (N-ring.bytesUsed) ∧
      acceptedOf copies = (restOf writers).take (N-ring.bytesUsed) ∧ deliveredOf copies = [] := by
  by_cases hfull : ring.bytesUsed = N
  · exact ⟨ring,[],by simp [refill,hfull],hok,by simp [hfull],by simp [hfull],rfl⟩
  obtain ⟨hlisted,henough⟩ :=
    pipeWaiterListPopulate_spec W (fun w : Writer θ β => w.rest.length) (N-ring.bytesUsed) 0 writers
  rw [refill,if_neg hfull]
  generalize pipeWaiterListPopulate W (fun w : Writer θ β => w.rest.length) (N-ring.bytesUsed) 0
    writers = r at hlisted henough
  obtain ⟨listed,unlisted,available⟩ := r
  simp only [zero_add,← dataOf_length] at henough ⊢
  have hx := pipeWrite_copied listed hok []
  have hlen : lengthOf (ring.free N) = N-ring.bytesUsed := by
    have := hok.free_fits.2
    omega
  have hdests : (ring.free N).map (fun s => (Dest.segment s.1 s.2 : Dest θ β)) = destsOf [] (ring.free N) := rfl
  have hsources := hx.sources
  simp only [roomOf_nil,zero_add,hlen,nil_append] at hsources
  rw [hdests]
  generalize pipeWrite N ring listed (destsOf [] (ring.free N)) = x at hx hsources
  refine ⟨x.ring,x.copies,?_,hx.ok,?_,?_,?_⟩
  · rw [hsources,← drain_listed henough,hlisted]
  · rw [hx.contents,hlen,← hlisted,dataOf_listed henough]
    simp
  · rw [hx.accepted,hlen,← hlisted,restOf_listed henough]
    simp
  · rw [hx.delivered]
    simp

/-- What `k_pipe_get` copies: the writers in `spent` return, those in `expired` time out, and
those in `left` are there for the refill. -/
structure GetCopies (N : ℕ) (pipe : KPipe θ β) (thread : θ) (n : ℕ) (late : θ → Bool)
    (spent expired left : List (Writer θ β)) (ring : Ring β) (copies : List (Copy θ β)) : Prop where
  perm : (spent++expired++left).Perm (drain (n-pipe.ring.bytesUsed) pipe.writers)
  left_eq : (∀ w ∈ pipe.writers, w.rest ≠ []) →
    left = ((drain (n-pipe.ring.bytesUsed) pipe.writers).filter (·.rest.length ≠ 0)).filter
      fun w => !late w.thread
  left_nil : pipe.ring.bytesUsed+(dataOf pipe.writers).length < n → left = []
  accepted : acceptedOf copies = (restOf pipe.writers).take (n-pipe.ring.bytesUsed)++
    (restOf left).take (N-(pipe.ring.bytesUsed-n))
  delivered : deliveredOf copies = tag thread ((pipe.ring.contents N++dataOf pipe.writers).take n)
  ok : ring.Ok N
  contents : ring.contents N = (pipe.ring.contents N).drop n++
    (dataOf left).take (N-(pipe.ring.bytesUsed-n))

/-- `k_pipe_get` fails, or copies and may pend. -/
lemma kPipeGet_cases (h : pipe.Inv N) (thread : θ) (n minXfer : ℕ) (wait : Bool) (outranks late : θ → Bool) :
    ((minXfer ≤ n → ¬(wait ∨ minXfer ≤ bytesCanRead W N pipe n)) ∧
      ∃ ret, kPipeGet W N pipe thread n minXfer wait outranks late = (pipe,.fail thread false ret)) ∨
    ∃ spent expired left ring copies, GetCopies N pipe thread n late spent expired left ring copies ∧
      minXfer ≤ n ∧ (wait ∨ minXfer ≤ bytesCanRead W N pipe n) ∧
      (kPipeGet W N pipe thread n minXfer wait outranks late =
          ({pipe with ring, writers := drain (N-(pipe.ring.bytesUsed-n)) left},
            ⟨spent.map ret++expired.map ret++[⟨thread,false,0,
              (pipe.ring.contents N++dataOf pipe.writers).take n⟩],copies⟩) ∨
        (pipe.ring.bytesUsed+(dataOf pipe.writers).length < n ∧
          (0 < minXfer → pipe.ring.bytesUsed+(dataOf pipe.writers).length < minXfer) ∧
          kPipeGet W N pipe thread n minXfer wait outranks late =
            ({ring, readers := pend (fun r => outranks r.thread)
                (Reader.accept ⟨thread,[],n,minXfer⟩
                  ((pipe.ring.contents N++dataOf pipe.writers).take n)) pipe.readers,
                writers := drain (N-(pipe.ring.bytesUsed-n)) left},⟨spent.map ret++expired.map ret,copies⟩))) := by
  obtain ⟨hlisted,henough⟩ := pipeWaiterListPopulate_spec W (fun w : Writer θ β => w.rest.length) n 0 pipe.writers
  unfold kPipeGet bytesCanRead
  generalize pipeWaiterListPopulate W (fun w : Writer θ β => w.rest.length) n 0 pipe.writers = r
    at hlisted henough
  obtain ⟨listed,unlisted,available⟩ := r
  simp only [zero_add,← dataOf_length] at hlisted henough
  obtain ⟨ring₁,copies₁,hfold,hok₁,hcontents₁,haccepted₁,hdelivered₁,hcount₁⟩ :=
    fetch_spec h.ok thread n minXfer listed
  set drained := drain (n-pipe.ring.bytesUsed) listed
  set kept := drained.filter (·.rest.length ≠ 0)++unlisted with hkept
  obtain ⟨ring₂,copies₂,hrefill,hok₂,hcontents₂,haccepted₂,hdelivered₂⟩ :=
    refill_spec (W := W) hok₁ (kept.filter fun w => !late w.thread)
  have hused : ring₁.bytesUsed = pipe.ring.bytesUsed-n := by
    simpa using congrArg length hcontents₁
  have hsome : unlisted = [] ∨ n-pipe.ring.bytesUsed ≤ (dataOf listed).length :=
    henough.imp_right fun hle => by omega
  have hdata : (pipe.ring.contents N++dataOf listed).take n =
      (pipe.ring.contents N++dataOf pipe.writers).take n := by
    rw [take_append,take_append,contents_length,← hlisted,dataOf_listed hsome]
  have hcount : bytesCopied copies₁ = min n (pipe.ring.bytesUsed+(dataOf pipe.writers).length) := by
    rw [hcount₁,← hlisted,dataOf_append,length_append]
    rcases henough with rfl | hle
    · simp [dataOf]
    · omega
  have hdrain : drain (n-pipe.ring.bytesUsed) pipe.writers = drained++unlisted := by
    rw [← hlisted,drain_listed hsome]
  rw [hused] at hrefill hcontents₂ haccepted₂
  simp only [sourcesOf] at hfold
  simp only [hfold,← hkept,hrefill]
  have hcopies : GetCopies N pipe thread n late (drained.filter (·.rest.length = 0))
      (kept.filter fun w => late w.thread) (kept.filter fun w => !late w.thread) ring₂ (copies₁++copies₂) := by
    constructor
    · have hsplit := filter_append_perm (fun w : Writer θ β => decide (w.rest.length = 0)) drained
      have hlate := filter_append_perm (fun w : Writer θ β => late w.thread) kept
      rw [hdrain,append_assoc]
      refine (hlate.append_left _).trans ?_
      rw [← append_assoc]
      exact List.Perm.append_right _ (by simpa only [ne_eq,decide_not] using hsplit)
    · intro hrest
      have hkeep : unlisted.filter (·.rest.length ≠ 0) = unlisted :=
        filter_eq_self.mpr fun w hw => by
          simpa using hrest w (hlisted ▸ mem_append_right _ hw)
      rw [hdrain,filter_append (p := fun w : Writer θ β => decide (w.rest.length ≠ 0)),hkeep]
    · intro hshort
      obtain rfl : unlisted = [] := henough.resolve_right (by omega)
      have hnone : drained.filter (·.rest.length ≠ 0) = [] := by
        refine filter_eq_nil_iff.mpr fun w hw => ?_
        have := fun hrest => le_of_mem_drain hw hrest
        simp only [decide_eq_true_eq,not_not,ne_eq,length_eq_zero_iff]
        by_contra hrest
        have := this hrest
        omega
      rw [hkept,hnone]
      rfl
    · rw [acceptedOf_append,haccepted₁,haccepted₂,← hlisted,restOf_listed hsome]
    · rw [deliveredOf_append,hdelivered₁,hdelivered₂,hdata,append_nil]
    · exact hok₂
    · rw [hcontents₂,hcontents₁]
  simp only [hcount,hdata]
  split_ifs with hinval hio hdone
  · exact .inl ⟨fun hle => absurd hle (not_le.mpr hinval),_,rfl⟩
  · exact .inl ⟨fun _ => fails_check hio,_,rfl⟩
  · exact .inr ⟨_,_,_,_,_,hcopies,not_lt.mp hinval,passes_check hio,.inl rfl⟩
  · rw [not_or,not_or] at hdone
    refine .inr ⟨_,_,_,_,_,hcopies,not_lt.mp hinval,passes_check hio,.inr ⟨by omega,fun hmin => ?_,rfl⟩⟩
    by_contra hle
    exact hdone.2.2 ⟨by omega,hmin⟩

section Copies
variable {thread : θ} {n : ℕ} {late : θ → Bool} {spent expired left : List (Writer θ β)}
  {ring : Ring β} {copies : List (Copy θ β)}
variable (hcopies : GetCopies N pipe thread n late spent expired left ring copies)
include hcopies

lemma GetCopies.fifo : pipe.ring.contents N++(acceptedOf copies).map Prod.snd =
    (deliveredOf copies).map Prod.snd++ring.contents N := by
  rw [hcopies.accepted,hcopies.delivered,hcopies.contents,map_snd_tag,map_append,map_take,
    map_take,take_append,contents_length]
  change _++((dataOf pipe.writers).take _++(dataOf left).take _) = _
  simp only [← append_assoc]
  congr 1
  rcases le_total n pipe.ring.bytesUsed with h | h
  · simp [Nat.sub_eq_zero_of_le h]
  · have htake : (pipe.ring.contents N).take n = pipe.ring.contents N := take_of_length_le (by simpa)
    rw [htake,drop_of_length_le (by simpa),append_nil]

lemma GetCopies.threads : ((spent++expired++left).map Writer.thread).Perm (pipe.writers.map Writer.thread) := by
  simpa using hcopies.perm.map Writer.thread

lemma GetCopies.threads_subperm : ((drain (N-(pipe.ring.bytesUsed-n)) left).map Writer.thread).Subperm
      (pipe.writers.map Writer.thread) := by
  rw [drain_thread]
  refine List.Sublist.subperm ?_ |>.trans hcopies.threads.subperm
  exact (sublist_append_right _ _).map _

lemma GetCopies.bytesUsed : ring.bytesUsed = pipe.ring.bytesUsed-n+
    min (N-(pipe.ring.bytesUsed-n)) (dataOf left).length := by
  simpa using congrArg length hcopies.contents

lemma GetCopies.writers_full (h : pipe.Inv N) {w : Writer θ β}
    (hw : w ∈ drain (N-(pipe.ring.bytesUsed-n)) left) (hrest : w.rest ≠ []) : ring.bytesUsed = N := by
  have := le_of_mem_drain hw hrest
  have := hcopies.bytesUsed
  have := h.ok.used
  omega

lemma GetCopies.put [DecidableEq θ] (h : pipe.Inv N) (t : θ) :
    strand t (sentOf pipe.writers)++strand t (acceptedOf copies) = strand t (sentOf spent++sentOf expired)++
        strand t (sentOf (drain (N-(pipe.ring.bytesUsed-n)) left)) := by
  have hnodup := hcopies.threads.nodup_iff.mpr h.nodup_writers
  have hleft : (left.map Writer.thread).Nodup := hnodup.sublist ((sublist_append_right _ _).map _)
  rw [hcopies.accepted,strand_append,← append_assoc,← strand_drain t _ h.nodup_writers,
    ← strand_sentOf_perm t hcopies.perm hnodup,sentOf_append,sentOf_append,strand_append,
    append_assoc,← strand_drain t _ hleft]

lemma GetCopies.calls [DecidableEq θ] (h : pipe.Inv N) (t : θ) : ∃ datas, strand t (callsOf pipe.writers) =
        datas++strand t (callsOf (drain (N-(pipe.ring.bytesUsed-n)) left)) ∧ List.Forall₂ (· <+: ·)
        (strand t (returnsOf (spent.map ret++expired.map ret))) datas := by
  refine ⟨strand t (callsOf (spent++expired)),?_,?_⟩
  · rw [callsOf_drain,← strand_append,← callsOf_append,
      strand_callsOf_perm t hcopies.perm (hcopies.threads.nodup_iff.mpr h.nodup_writers),callsOf_drain]
  · rw [← map_append]
    exact returns_prefix t _

end Copies
end Get

/-- Threads may leave the wait queues, and one that does not wait may enter one of them. -/
lemma nodup_of_subperm {τ : Type*} {l l' : List τ} (h : l.Subperm l') (hnodup : l'.Nodup) : l.Nodup := by
  obtain ⟨m,hperm,hsub⟩ := h
  exact hperm.nodup_iff.mp (hnodup.sublist hsub)

variable [DecidableEq θ]

/-- The account of one step in which `puts` and `gets` are called. -/
structure Moves (N : ℕ) (pipe : KPipe θ β) (puts : List (θ × List β)) (gets : List (θ × ℕ))
    (o : Reply θ β) (pipe' : KPipe θ β) : Prop where
  fifo : pipe.ring.contents N++(acceptedOf o.copies).map Prod.snd =
    (deliveredOf o.copies).map Prod.snd++pipe'.ring.contents N
  put (t : θ) : strand t (sentOf pipe.writers)++strand t (acceptedOf o.copies) =
    strand t (writtenOf o.returned)++strand t (sentOf pipe'.writers)
  get (t : θ) : strand t (receivedOf pipe.readers)++strand t (deliveredOf o.copies) =
    strand t (readOf o.returned)++strand t (receivedOf pipe'.readers)
  calls (t : θ) : ∃ datas, strand t (callsOf pipe.writers)++strand t puts =
      datas++strand t (callsOf pipe'.writers) ∧
    List.Forall₂ (· <+: ·) (strand t (returnsOf o.returned)) datas
  asks (t : θ) : ∃ sizes, strand t (asksOf pipe.readers)++strand t gets =
      sizes++strand t (asksOf pipe'.readers) ∧
    List.Forall₂ (fun bytes n => bytes.length ≤ n) (strand t (answersOf o.returned)) sizes

variable {bytes : List β}

lemma put_returns (hfresh : thread ∉ pipe.writers.map Writer.thread) {data : List β}
    (hbytes : bytes <+: data) (t : θ) : ∃ datas, strand t (callsOf pipe.writers)++strand t (tag thread [data]) =
        datas++strand t (callsOf pipe.writers) ∧ List.Forall₂ (· <+: ·) (strand t (tag thread [bytes])) datas := by
  refine ⟨strand t (tag thread [data]),strand_callsOf_comm hfresh t _,?_⟩
  rw [strand_tag,strand_tag]
  split_ifs
  · exact .cons hbytes .nil
  · exact .nil

lemma get_returns (hfresh : thread ∉ pipe.readers.map Reader.thread) (hbytes : bytes.length ≤ n) (t : θ) :
    ∃ sizes, strand t (asksOf pipe.readers)++strand t (tag thread [n]) = sizes++strand t (asksOf pipe.readers) ∧
      List.Forall₂ (fun bytes n => bytes.length ≤ n) (strand t (tag thread [bytes])) sizes := by
  refine ⟨strand t (tag thread [n]),strand_asksOf_comm hfresh t _,?_⟩
  rw [strand_tag,strand_tag]
  split_ifs
  · exact .cons hbytes .nil
  · exact .nil

/-- `k_pipe_put` keeps the invariant. -/
theorem put_step (h : pipe.Inv N) (hthread : thread ∉ pipe.waiting) (data : List β)
    (minXfer : ℕ) (wait : Bool) (outranks : θ → Bool) :
    Moves N pipe (tag thread [data]) [] (kPipePut W N pipe thread data minXfer wait outranks).2
        (kPipePut W N pipe thread data minXfer wait outranks).1 ∧
      (kPipePut W N pipe thread data minXfer wait outranks).1.Inv N := by
  have hfresh : thread ∉ pipe.writers.map Writer.thread := fun hm =>
    hthread (mem_append_right _ hm)
  obtain ⟨-,ret,heq⟩ | ⟨filled,waiting,ring,copies,hcopies,-,-,heq | ⟨hshort,-,heq⟩⟩ :=
    kPipePut_cases h thread data minXfer wait outranks
  · rw [heq]
    refine ⟨⟨?_,fun t => ?_,fun t => ?_,put_returns hfresh nil_prefix,fun t => ⟨[],?_,?_⟩⟩,h⟩
    · simp
    · simp [writtenOf]
    · simp [readOf]
    · simp
    · simp [answersOf]
  · rw [heq]
    refine ⟨⟨hcopies.fifo h,fun t => ?_,fun t => ?_,fun t => ?_,fun t => ?_⟩,hcopies.ok,?_,hcopies.waiting_room,
      fun hw => ⟨(hcopies.waiting_empty h hw).1,(hcopies.waiting_empty h hw).2.1⟩,
      fun w hw hrest => hcopies.writers_full h hw hrest⟩
    · simp only [hcopies.accepted,writtenOf_append,writtenOf_readers,nil_append]
      rw [strand_sentOf_comm hfresh]
      simp [writtenOf]
    · simp only [hcopies.get h,readOf_append,readOf_readers]
      simp [readOf]
    · simp only [returnsOf_append,returnsOf_readers,nil_append]
      exact put_returns hfresh ( take_prefix ..) t
    · simpa [answersOf] using hcopies.asks t
    · exact nodup_of_subperm (hcopies.threads_subperm.append (.refl _)) h.nodup
  · rw [heq]
    have hperm := pend_perm (fun w : Writer θ β => outranks w.thread)
      (Writer.advance ⟨thread,[],data,minXfer⟩ (roomOf pipe.readers+(N-pipe.ring.bytesUsed)))
      pipe.writers
    have hnodup := nodup_of_subperm
      (hcopies.threads_subperm.append (hperm.map Writer.thread).subperm)
      (perm_middle.nodup_iff.mpr (nodup_cons.mpr ⟨hthread,h.nodup⟩))
    refine ⟨⟨hcopies.fifo h,fun t => ?_,fun t => ?_,fun t => ?_,fun t => ?_⟩,hcopies.ok,hnodup,hcopies.waiting_room,
      fun hw => ?_,fun w hw hrest => ?_⟩
    · simp only [hcopies.accepted,writtenOf_readers,strand_nil,nil_append]
      rw [strand_sentOf_perm t hperm (nodup_append.mp hnodup).2.1,strand_sentOf_comm hfresh]
      simp
    · simp only [hcopies.get h,readOf_readers]
    · refine ⟨[],?_,by simp⟩
      rw [strand_callsOf_perm t hperm (nodup_append.mp hnodup).2.1,strand_callsOf_comm hfresh]
      simp [callsOf]
    · simpa using hcopies.asks t
    · have := (hcopies.waiting_empty h hw).2.2
      omega
    · rcases mem_pend.mp hw with rfl | hw
      · have := hcopies.count
        have := hcopies.bytesUsed
        have := hcopies.ok.used
        simp only at *
        omega
      · exact hcopies.writers_full h hw hrest

/-- `k_pipe_get` keeps the invariant. -/
theorem get_step (h : pipe.Inv N) (hthread : thread ∉ pipe.waiting) (n minXfer : ℕ)
    (wait : Bool) (outranks late : θ → Bool) :
    Moves N pipe [] (tag thread [n]) (kPipeGet W N pipe thread n minXfer wait outranks late).2
        (kPipeGet W N pipe thread n minXfer wait outranks late).1 ∧
      (kPipeGet W N pipe thread n minXfer wait outranks late).1.Inv N := by
  have hfresh : thread ∉ pipe.readers.map Reader.thread := fun hm =>
    hthread (mem_append_left _ hm)
  obtain ⟨-,ret,heq⟩ | ⟨spent,expired,left,ring,copies,hcopies,-,-,heq | ⟨hshort,-,heq⟩⟩ :=
    kPipeGet_cases h thread n minXfer wait outranks late
  · rw [heq]
    refine ⟨⟨?_,fun t => ?_,fun t => ?_,fun t => ⟨[],?_,?_⟩,get_returns hfresh (zero_le _)⟩,h⟩
    · simp
    · simp [writtenOf]
    · simp [readOf]
    · simp
    · simp [returnsOf]
  · rw [heq]
    refine ⟨⟨hcopies.fifo,fun t => ?_,fun t => ?_,fun t => ?_,fun t => ?_⟩,hcopies.ok,?_,h.room,
      fun hr => ?_,
      fun w hw hrest => hcopies.writers_full h hw hrest⟩
    · rw [hcopies.put h]
      simp only [writtenOf_append,writtenOf_writers]
      simp [writtenOf]
    · simp only [hcopies.delivered,readOf_append,readOf_writers,nil_append]
      rw [strand_receivedOf_comm hfresh]
      simp [readOf]
    · simpa [returnsOf] using hcopies.calls h t
    · simp only [answersOf_append,answersOf_writers,nil_append]
      exact get_returns hfresh (by simp) t
    · exact nodup_of_subperm ((List.Subperm.refl _).append hcopies.threads_subperm) h.nodup
    · obtain ⟨hused,hwriters⟩ := h.readers hr
      have hleft : left = [] := by
        have hnil := hcopies.perm
        rw [hwriters] at hnil
        exact (append_eq_nil_iff.mp (perm_nil.mp hnil)).2
      subst hleft
      have := hcopies.bytesUsed
      refine ⟨?_,rfl⟩
      simp [dataOf] at this ⊢
      omega
  · rw [heq]
    have hperm := pend_perm (fun r : Reader θ β => outranks r.thread)
      (Reader.accept ⟨thread,[],n,minXfer⟩ ((pipe.ring.contents N++dataOf pipe.writers).take n))
      pipe.readers
    have hnodup := nodup_of_subperm
      ((hperm.map Reader.thread).subperm.append hcopies.threads_subperm)
      (nodup_cons.mpr ⟨hthread,h.nodup⟩)
    refine ⟨⟨hcopies.fifo,fun t => ?_,fun t => ?_,fun t => ?_,fun t => ?_⟩,hcopies.ok,hnodup,
      fun r hr => ?_,fun _ => ?_,
      fun w hw hrest => hcopies.writers_full h hw hrest⟩
    · rw [hcopies.put h]
      simp only [writtenOf_append,writtenOf_writers]
    · simp only [hcopies.delivered,readOf_append,readOf_writers,nil_append,strand_nil]
      rw [strand_receivedOf_perm t hperm (nodup_append.mp hnodup).1,strand_receivedOf_comm hfresh]
      simp
    · simpa using hcopies.calls h t
    · refine ⟨[],?_,by simp⟩
      rw [strand_asksOf_perm t hperm (nodup_append.mp hnodup).1,strand_asksOf_comm hfresh]
      have hsize : min n (pipe.ring.bytesUsed+(dataOf pipe.writers).length)+
          (n-min n (pipe.ring.bytesUsed+(dataOf pipe.writers).length)) = n := by
        omega
      simp [asksOf,hsize]
    · rcases mem_pend.mp hr with rfl | hr
      · simp
        omega
      · exact h.room r hr
    · have hleft := hcopies.left_nil hshort
      subst hleft
      have := hcopies.bytesUsed
      refine ⟨?_,rfl⟩
      simp [dataOf] at this ⊢
      omega

theorem expire_step (h : pipe.Inv N) (thread : θ) :
    Moves N pipe [] [] (expire pipe thread).2 (expire pipe thread).1 ∧ (expire pipe thread).1.Inv N := by
  have hreaders := filter_append_perm (fun r : Reader θ β => decide (r.thread = thread)) pipe.readers
  have hwriters := filter_append_perm (fun w : Writer θ β => decide (w.thread = thread)) pipe.writers
  refine ⟨⟨?_,fun t => ?_,fun t => ?_,fun t => ?_,fun t => ?_⟩,h.ok,?_,?_,?_,?_⟩
  · simp
  · rw [strand_sentOf_perm t hwriters.symm h.nodup_writers,sentOf_append,strand_append]
    simp
  · rw [strand_receivedOf_perm t hreaders.symm h.nodup_readers,receivedOf_append,strand_append]
    simp
  · refine ⟨strand t (callsOf (pipe.writers.filter fun w => decide (w.thread = thread))),?_,?_⟩
    · rw [strand_callsOf_perm t hwriters.symm h.nodup_writers,callsOf_append,strand_append]
      simp
    · simpa using returns_prefix t (pipe.writers.filter fun w => decide (w.thread = thread))
  · refine ⟨strand t (asksOf (pipe.readers.filter fun r => decide (r.thread = thread))),?_,?_⟩
    · rw [strand_asksOf_perm t hreaders.symm h.nodup_readers,asksOf_append,strand_append]
      simp
    · simpa using answers_le t (pipe.readers.filter fun r => decide (r.thread = thread))
  · exact h.nodup.sublist ((filter_sublist.map _).append (filter_sublist.map _))
  · exact fun r hr => h.room r (mem_of_mem_filter hr)
  · intro hr
    have hne : pipe.readers ≠ [] := fun hnil => hr (by simp [hnil])
    obtain ⟨hused,hnil⟩ := h.readers hne
    exact ⟨hused,by simp [hnil]⟩
  · exact fun w hw => h.writers w (mem_of_mem_filter hw)

end Steps
end ArmFirmware.Zephyr.Pipe
