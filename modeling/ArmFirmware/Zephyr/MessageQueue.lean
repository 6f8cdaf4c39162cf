import ArmFirmware.Library.RingWindow
import ArmFirmware.Library.WaitQueue
import ArmFirmware.Library.Ledger

/-! The message queues of `kernel/msg_q.c`. A step is one call, up to the point where it gives up
`msgq->lock`, or the timeout of a waiting thread. What they are for is a bounded queue of messages,
with readers waiting while it is empty and writers waiting while it is full. -/
namespace ArmFirmware.Zephyr.MessageQueue
open Library Prod

def ENOMSG : ℤ := 35

structure Config where
  msgSize : ℕ
  maxMsgs : ℕ

def Config.bufferEnd (cfg : Config) : ℕ := cfg.maxMsgs*cfg.msgSize

/-- A thread in the wait queue with the area its `swap_data` points to. Nothing in it says
which of the two calls it waits in: `writes` is not read by the code. -/
structure Waiter (θ : Type*) where
  thread : θ
  swapData : ℕ → UInt8
  writes : Bool

/-- `struct k_msgq`, pointers relative to `buffer_start`. -/
structure KMsgq (θ : Type*) where
  buffer : ℕ → UInt8
  readPtr : ℕ
  writePtr : ℕ
  usedMsgs : ℕ
  waitQ : List (Waiter θ)

def kMsgqInit {θ : Type*} (buffer : ℕ → UInt8) : KMsgq θ := ⟨buffer,0,0,0,[]⟩

/-- The calls with the area they pass, whether they may wait, and which of the waiting
threads the caller outranks. -/
inductive Action (θ : Type*)
  | put (thread : θ) (data : ℕ → UInt8) (wait : Bool) (outranks : θ → Bool)
  | get (thread : θ) (data : ℕ → UInt8) (wait : Bool) (outranks : θ → Bool)
  | peekAt (idx : ℕ)
  | purge
  | timeout (thread : θ)

/-- A thread that was made ready, with the return value of its call and the message in the
area it passed. -/
structure Woken (θ : Type*) where
  thread : θ
  ret : ℤ
  message : List UInt8
  deriving DecidableEq

/-- The return value and the message a call has read, if any, with the threads it made ready. -/
inductive Reply (θ : Type*)
  | done (ret : ℤ) (read : Option (List UInt8)) (woken : List (Woken θ))
  | pended
  | timedOut
  deriving DecidableEq

section Functions
variable {θ : Type*} (cfg : Config)

def Config.message (data : ℕ → UInt8) : List UInt8 := (List.range cfg.msgSize).map data

def Config.next (ptr : ℕ) : ℕ :=
  if ptr+cfg.msgSize = cfg.bufferEnd then 0 else ptr+cfg.msgSize

def KMsgq.write (msgq : KMsgq θ) (data : ℕ → UInt8) : KMsgq θ :=
  {msgq with
    buffer := blit msgq.buffer msgq.writePtr cfg.msgSize data
    writePtr := cfg.next msgq.writePtr
    usedMsgs := msgq.usedMsgs+1}

def kMsgqPut (msgq : KMsgq θ) (thread : θ) (data : ℕ → UInt8) (wait : Bool)
    (outranks : θ → Bool) : KMsgq θ × Reply θ :=
  if msgq.usedMsgs < cfg.maxMsgs then
    match msgq.waitQ with
    | pending::waitQ =>
      -- the message is copied to the area of the pending thread, whatever it waits for
      ({msgq with waitQ},.done 0 none [⟨pending.thread,0,cfg.message data⟩])
    | [] => (msgq.write cfg data,.done 0 none [])
  else if wait then
    ({msgq with waitQ := WaitQueue.pend (fun w => outranks w.thread) ⟨thread,data,true⟩ msgq.waitQ},
      .pended)
  else (msgq,.done (-ENOMSG) none [])

def kMsgqGet (msgq : KMsgq θ) (thread : θ) (data : ℕ → UInt8) (wait : Bool)
    (outranks : θ → Bool) : KMsgq θ × Reply θ :=
  if 0 < msgq.usedMsgs then
    let message := cfg.message fun i => msgq.buffer (msgq.readPtr+i)
    let msgq := {msgq with readPtr := cfg.next msgq.readPtr, usedMsgs := msgq.usedMsgs-1}
    match msgq.waitQ with
    | pending::waitQ =>
      ({msgq.write cfg pending.swapData with waitQ},
        .done 0 (some message) [⟨pending.thread,0,cfg.message pending.swapData⟩])
    | [] => (msgq,.done 0 (some message) [])
  else if wait then
    ({msgq with waitQ := WaitQueue.pend (fun w => outranks w.thread) ⟨thread,data,false⟩ msgq.waitQ},
      .pended)
  else (msgq,.done (-ENOMSG) none [])

/-- `z_impl_k_msgq_peek_at`; offsets are `uint32_t`. -/
def kMsgqPeekAt (msgq : KMsgq θ) (idx : ℕ) : Reply θ :=
  if idx < msgq.usedMsgs then
    let bytesToEnd := (cfg.bufferEnd-msgq.readPtr) % 2^32
    let byteOffset := idx*cfg.msgSize % 2^32
    let addr := if bytesToEnd ≤ byteOffset then byteOffset-bytesToEnd else msgq.readPtr+byteOffset
    .done 0 (some (cfg.message fun i => msgq.buffer (addr+i))) []
  else .done (-ENOMSG) none []

def kMsgqPurge (msgq : KMsgq θ) : KMsgq θ × Reply θ :=
  ({msgq with usedMsgs := 0, readPtr := msgq.writePtr, waitQ := []},
    .done 0 none (msgq.waitQ.map fun w => ⟨w.thread,-ENOMSG,cfg.message w.swapData⟩))

variable [DecidableEq θ]

def step (msgq : KMsgq θ) : Action θ → Option (KMsgq θ × Reply θ)
  | .put thread data wait outranks => some (kMsgqPut cfg msgq thread data wait outranks)
  | .get thread data wait outranks => some (kMsgqGet cfg msgq thread data wait outranks)
  | .peekAt idx => some (msgq,kMsgqPeekAt cfg msgq idx)
  | .purge => some (kMsgqPurge cfg msgq)
  | .timeout thread =>
    some ({msgq with waitQ := msgq.waitQ.eraseP fun w => w.thread = thread},.timedOut)

/-- A thread that waits makes no calls, and only threads that wait time out. -/
def Meets (msgq : KMsgq θ) : Action θ → Prop
  | .put thread _ _ _ => thread ∉ msgq.waitQ.map Waiter.thread
  | .get thread _ _ _ => thread ∉ msgq.waitQ.map Waiter.thread
  | .timeout thread => thread ∈ msgq.waitQ.map Waiter.thread
  | _ => True

instance (msgq : KMsgq θ) (a : Action θ) : Decidable (Meets msgq a) := by
  cases a <;> simp only [Meets] <;> infer_instance

end Functions

/-- The queue with its waiting threads and its history: the messages accepted so far, and
those that have left, marked whether a reader got them or a purge discarded them. -/
structure Fifo (θ : Type*) where
  stored : List (List UInt8)
  readers : List θ
  writers : List (θ × List UInt8)
  accepted : List (List UInt8)
  left : List (List UInt8 × Bool)

namespace Fifo
variable {θ : Type*}

def init : Fifo θ := ⟨[],[],[],[],[]⟩

/-- Readers wait only for an empty queue and writers only for a full one; what was accepted
has left in order or is stored. -/
structure Sound (cfg : Config) (f : Fifo θ) : Prop where
  bounded : f.stored.length ≤ cfg.maxMsgs
  readers : f.readers ≠ [] → f.stored = []
  writers : f.writers ≠ [] → f.stored.length = cfg.maxMsgs
  history : f.left.map fst++f.stored = f.accepted

lemma Sound.readers_or_writers {cfg : Config} {f : Fifo θ} (h : f.Sound cfg)
    (hmax : 1 ≤ cfg.maxMsgs) : f.readers = [] ∨ f.writers = [] := by
  by_contra hne
  rw [not_or] at hne
  have hfull := h.writers hne.2
  rw [h.readers hne.1,List.length_nil] at hfull
  omega

variable [DecidableEq θ]

/-- A bounded queue with readers and writers that wait. -/
inductive Step (cfg : Config) : Fifo θ → Action θ → Reply θ → Fifo θ → Prop
  | hand {f thread data wait outranks reader readers} (h : f.readers = reader::readers) :
      Step cfg f (.put thread data wait outranks) (.done 0 none [⟨reader,0,cfg.message data⟩])
        {f with readers, accepted := f.accepted++[cfg.message data],
                left := f.left++[(cfg.message data,true)]}
  | store {f thread data wait outranks} (h : f.readers = []) (hroom : f.stored.length < cfg.maxMsgs) :
      Step cfg f (.put thread data wait outranks) (.done 0 none [])
        {f with stored := f.stored++[cfg.message data],
                accepted := f.accepted++[cfg.message data]}
  | full {f thread data outranks} (h : f.stored.length = cfg.maxMsgs) :
      Step cfg f (.put thread data false outranks) (.done (-ENOMSG) none []) f
  | pendWriter {f thread data outranks} (h : f.stored.length = cfg.maxMsgs) :
      Step cfg f (.put thread data true outranks) .pended
        {f with writers := WaitQueue.pend (fun w => outranks w.1) (thread,cfg.message data) f.writers}
  | take {f thread data wait outranks x xs} (h : f.stored = x::xs) (hw : f.writers = []) :
      Step cfg f (.get thread data wait outranks) (.done 0 (some x) [])
        {f with stored := xs, left := f.left++[(x,true)]}
  | refill {f thread data wait outranks x xs writer m writers} (h : f.stored = x::xs)
      (hw : f.writers = (writer,m)::writers) :
      Step cfg f (.get thread data wait outranks) (.done 0 (some x) [⟨writer,0,m⟩])
        {f with stored := xs++[m], writers, accepted := f.accepted++[m],
                left := f.left++[(x,true)]}
  | empty {f thread data outranks} (h : f.stored = []) :
      Step cfg f (.get thread data false outranks) (.done (-ENOMSG) none []) f
  | pendReader {f thread data outranks} (h : f.stored = []) :
      Step cfg f (.get thread data true outranks) .pended
        {f with readers := WaitQueue.pend outranks thread f.readers}
  | peekAt {f idx x} (h : f.stored[idx]? = some x) :
      Step cfg f (.peekAt idx) (.done 0 (some x) []) f
  | peekAt_none {f idx} (h : f.stored.length ≤ idx) :
      Step cfg f (.peekAt idx) (.done (-ENOMSG) none []) f
  | purge {f woken} (h : woken.map (fun w => (w.thread,w.ret)) =
        (f.readers++f.writers.map fst).map (·,-ENOMSG)) :
      Step cfg f .purge (.done 0 none woken)
        {f with stored := [], readers := [], writers := [],
                left := f.left++f.stored.map (·,false)}
  | timeout {f thread} (h : thread ∈ f.readers ∨ thread ∈ f.writers.map fst) :
      Step cfg f (.timeout thread) .timedOut
        {f with readers := f.readers.erase thread,
                writers := f.writers.eraseP fun w => w.1 = thread}

/-- The messages that a step accepts: those of successful puts, and of the writers it wakes. -/
def acceptedBy (cfg : Config) : Action θ → Reply θ → List (List UInt8)
  | .put _ data _ _,.done ret _ _ => if ret = 0 then [cfg.message data] else []
  | .get _ _ _ _,.done _ _ woken => woken.map Woken.message
  | _,_ => []

/-- The messages that successful gets return in a step: of the caller, or of the readers it
wakes. -/
def deliveredBy : Action θ → Reply θ → List (List UInt8)
  | .get _ _ _ _,.done _ read _ => read.toList
  | .put _ _ _ _,.done _ _ woken => woken.map Woken.message
  | _,_ => []

section Steps
variable {cfg : Config} {f f' : Fifo θ} {a : Action θ} {o : Reply θ}

omit [DecidableEq θ] in
lemma sound_init : (init : Fifo θ).Sound cfg := ⟨Nat.zero_le _,fun _ => rfl,by simp [init],rfl⟩

/-- The steps of the bounded queue keep it sound. -/
lemma Step.sound (h : Step cfg f a o f') (hs : f.Sound cfg) : f'.Sound cfg := by
  have hhist := hs.history
  cases h with
  | hand h =>
    have hnil := hs.readers (by simp [h])
    refine ⟨hs.bounded,fun _ => hnil,hs.writers,?_⟩
    simpa [hnil] using hhist
  | store h hroom =>
    refine ⟨by simpa using hroom,fun hr => absurd h hr,fun hw => ?_,by simp [← hhist]⟩
    have := hs.writers hw
    omega
  | pendWriter h => exact ⟨hs.bounded,hs.readers,fun _ => h,hhist⟩
  | @take _ _ _ _ x xs h hw =>
    have hlen := hs.bounded
    rw [h] at hlen hhist
    refine ⟨by simp only [List.length_cons] at hlen ⊢; omega,fun hr => ?_,fun h => absurd hw h,?_⟩
    · have := hs.readers hr
      simp [h] at this
    · simpa using hhist
  | @refill _ _ _ _ x xs writer m writers h hw =>
    have hlen := hs.writers (by simp [hw])
    rw [h] at hlen hhist
    refine ⟨by simpa using hlen.le,fun hr => ?_,fun _ => by simpa using hlen,?_⟩
    · have := hs.readers hr
      simp [h] at this
    · simp [← hhist]
  | pendReader h => exact ⟨hs.bounded,fun _ => h,hs.writers,hhist⟩
  | purge => exact ⟨by simp,fun _ => rfl,by simp,by simpa [Function.comp_def] using hhist⟩
  | timeout =>
    refine ⟨hs.bounded,fun hr => hs.readers fun hnil => hr (by simp [hnil]),fun hw => hs.writers
      fun hnil => hw (by simp [hnil]),hhist⟩
  | full | empty | peekAt | peekAt_none => exact hs

lemma Step.accepted (h : Step cfg f a o f') : f.accepted++acceptedBy cfg a o = f'.accepted := by
  cases h <;> simp [acceptedBy,ENOMSG]

lemma Step.delivered (h : Step cfg f a o f') : (f.left.filter snd).map fst++deliveredBy a o =
      (f'.left.filter snd).map fst := by
  cases h with
  | purge => simp [deliveredBy,List.filter_map,Function.comp_def]
  | _ => simp [deliveredBy]

end Steps
end Fifo

/-! The ring of messages and the one wait queue implement the bounded queue: readers and
writers are never mixed up, because they wait at different fill levels. -/

open Function Nat Config Fifo WaitQueue KMsgq Waiter

section Ring
variable {cfg : Config} {θ : Type*} {msgq : KMsgq θ} {stored : List (List UInt8)}

def Config.slot (cfg : Config) (buffer : ℕ → UInt8) (k : ℕ) : List UInt8 :=
  cfg.message fun i => buffer (k*cfg.msgSize+i)

lemma message_congr {data data' : ℕ → UInt8} (h : ∀ i < cfg.msgSize, data i = data' i) :
    cfg.message data = cfg.message data' := List.map_congr_left fun i hi => h i (List.mem_range.mp hi)

lemma slot_blit (buffer data : ℕ → UInt8) (k : ℕ) : cfg.slot (blit buffer (k*cfg.msgSize) cfg.msgSize data) =
      update (cfg.slot buffer) k (cfg.message data) := by
  funext j
  by_cases hj : j = k
  · subst hj
    rw [update_self]
    apply message_congr
    intro i hi
    rw [blit,if_pos ⟨by omega,by omega⟩,Nat.add_sub_cancel_left]
  · rw [update_of_ne hj]
    apply message_congr
    intro i hi
    rw [blit,if_neg]
    rintro ⟨h₁,h₂⟩
    rcases lt_or_gt_of_ne hj with h | h
    all_goals
      have := Nat.mul_le_mul_right cfg.msgSize (succ_le_of_lt h)
      rw [succ_mul] at this
      omega

lemma next_eq (hmax : 1 ≤ cfg.maxMsgs) (k : ℕ) :
    cfg.next (k % cfg.maxMsgs*cfg.msgSize) = (k+1) % cfg.maxMsgs*cfg.msgSize := by
  have hlt := mod_lt k hmax
  have hsucc : (k+1) % cfg.maxMsgs = if k % cfg.maxMsgs+1 = cfg.maxMsgs then 0
      else k % cfg.maxMsgs+1 := by
    rw [← mod_add_mod]
    split_ifs with h
    · rw [h,mod_self]
    · exact mod_eq_of_lt (by omega)
  unfold next bufferEnd
  rw [hsucc,← succ_mul]
  by_cases hm : cfg.msgSize = 0
  · simp [hm]
  · have hpos := pos_of_ne_zero hm
    by_cases hk : k % cfg.maxMsgs+1 = cfg.maxMsgs
    · simp [hk]
    · rw [if_neg hk,if_neg fun h => hk (eq_of_mul_eq_mul_right hpos h)]

/-- The buffer holds the messages from a slot on. -/
structure HoldsAt (cfg : Config) (msgq : KMsgq θ) (stored : List (List UInt8)) (r : ℕ) : Prop where
  read : msgq.readPtr = r % cfg.maxMsgs*cfg.msgSize
  write : msgq.writePtr = (r+msgq.usedMsgs) % cfg.maxMsgs*cfg.msgSize
  stored : stored = ringRead (cfg.slot msgq.buffer) cfg.maxMsgs r msgq.usedMsgs

variable {r : ℕ}

lemma HoldsAt.length (h : HoldsAt cfg msgq stored r) : stored.length = msgq.usedMsgs := by
  rw [h.stored,ringRead_length]

lemma HoldsAt.put (h : HoldsAt cfg msgq stored r) (hroom : msgq.usedMsgs < cfg.maxMsgs)
    (data : ℕ → UInt8) : HoldsAt cfg (msgq.write cfg data) (stored++[cfg.message data]) r := by
  refine ⟨h.read,?_,?_⟩
  · simp only [KMsgq.write]
    rw [h.write,next_eq (by omega),add_assoc]
  · simp only [KMsgq.write]
    rw [ringRead_append,h.write,slot_blit,ringRead_update_of_disjoint _ le_rfl (by omega),h.stored]
    simp [ringRead]

lemma HoldsAt.get (h : HoldsAt cfg msgq stored r) (hmax : 1 ≤ cfg.maxMsgs) (hused : 0 < msgq.usedMsgs) :
    ∃ rest, stored = (cfg.message fun i => msgq.buffer (msgq.readPtr+i))::rest ∧
      HoldsAt cfg {msgq with readPtr := cfg.next msgq.readPtr, usedMsgs := msgq.usedMsgs-1}
        rest (r+1) := by
  obtain ⟨n,hn⟩ : ∃ n, msgq.usedMsgs = 1+n := ⟨msgq.usedMsgs-1,by omega⟩
  refine ⟨ringRead (cfg.slot msgq.buffer) cfg.maxMsgs (r+1) n,?_,?_,?_,?_⟩
  · rw [h.stored,hn,ringRead_append,h.read]
    simp [ringRead,slot]
  · rw [h.read,next_eq hmax]
  · rw [h.write,hn]
    congr 2
    simp only
    omega
  · simp [hn]

/-- The address that `k_msgq_peek_at` computes. -/
lemma peek_address {m N idx : ℕ} (hmax : 1 ≤ N) (hsize : N*m ≤ 2^32) (hm : 0 < m) (r : ℕ) (hidx : idx < N) :
    (if (N*m-r % N*m) % 2^32 ≤ idx*m % 2^32 then idx*m % 2^32-(N*m-r % N*m) % 2^32
      else r % N*m+idx*m % 2^32) = (r+idx) % N*m := by
  have hk := mod_lt r hmax
  have hmod : (r+idx) % N = if r % N+idx < N then r % N+idx else r % N+idx-N := by
    rw [← mod_add_mod]
    split_ifs with h
    · exact mod_eq_of_lt h
    · rw [mod_eq_sub_mod (by omega),mod_eq_of_lt (by omega)]
  have hoff := mul_lt_mul_of_pos_right hidx hm
  rw [hmod,Nat.mod_eq_of_lt (hoff.trans_le hsize),← Nat.sub_mul]
  by_cases hwhole : r % N = 0 ∧ N*m = 2^32
  · obtain ⟨hr,hw⟩ := hwhole
    simp [hr,hw,hidx]
  · have hend : (N-r % N)*m < 2^32 := by
      by_cases hr : r % N = 0
      · rw [hr,Nat.sub_zero]
        omega
      · exact (mul_lt_mul_of_pos_right (by omega) hm).trans_le hsize
    rw [mod_eq_of_lt hend]
    by_cases hlt : r % N+idx < N
    · rw [if_pos hlt,if_neg (not_le.mpr (mul_lt_mul_of_pos_right (by omega) hm)),add_mul]
    · rw [if_neg hlt,if_pos (Nat.mul_le_mul_right m (by omega)),← Nat.sub_mul]
      congr 1
      omega

/-- `k_msgq_peek_at` finds the slot of the message, if the buffer has at most 2^32 bytes. -/
lemma HoldsAt.peekAt (h : HoldsAt cfg msgq stored r) (hmax : 1 ≤ cfg.maxMsgs)
    (hused : msgq.usedMsgs ≤ cfg.maxMsgs) (hsize : cfg.bufferEnd ≤ 2^32) {idx : ℕ} (hidx : idx < msgq.usedMsgs) :
    ∃ x, stored[idx]? = some x ∧ kMsgqPeekAt cfg msgq idx = .done 0 (some x) [] := by
  refine ⟨cfg.slot msgq.buffer ((r+idx) % cfg.maxMsgs),?_,?_⟩
  · rw [h.stored,ringRead_getElem?,if_pos hidx]
  · rw [kMsgqPeekAt,if_pos hidx,h.read]
    simp only
    congr 2
    rcases Nat.eq_zero_or_pos cfg.msgSize with hm | hm
    · simp [slot,message,hm]
    · rw [bufferEnd,peek_address hmax hsize hm r (hidx.trans_le hused),slot]

end Ring

section Refinement
variable {θ : Type*} {cfg : Config} {msgq : KMsgq θ} {f : Fifo θ}

/-- The queue holds the stored messages, and its wait queue the readers and writers. -/
structure Agrees (cfg : Config) (msgq : KMsgq θ) (f : Fifo θ) : Prop where
  holds : ∃ r, HoldsAt cfg msgq f.stored r
  readers : f.readers = (msgq.waitQ.filter (!·.writes)).map thread
  writers : f.writers = (msgq.waitQ.filter (·.writes)).map fun w =>
    (w.thread,cfg.message w.swapData)

lemma agrees_init (buffer : ℕ → UInt8) : Agrees cfg (kMsgqInit buffer : KMsgq θ) init :=
  ⟨⟨0,by simp [kMsgqInit],by simp [kMsgqInit],rfl⟩,rfl,rfl⟩

namespace Agrees

lemma used (h : Agrees cfg msgq f) : msgq.usedMsgs = f.stored.length := by
  obtain ⟨r,hr⟩ := h.holds
  exact hr.length.symm

lemma all_read (h : Agrees cfg msgq f) (hw : f.writers = []) :
    (∀ w ∈ msgq.waitQ, w.writes = false) ∧ f.readers = msgq.waitQ.map thread := by
  have hnil := h.writers
  rw [hw,eq_comm,List.map_eq_nil_iff,List.filter_eq_nil_iff] at hnil
  have hall : ∀ w ∈ msgq.waitQ, w.writes = false := fun w hw => by simpa using hnil w hw
  refine ⟨hall,?_⟩
  rw [h.readers,List.filter_eq_self.mpr fun w hw => by simp [hall w hw]]

lemma all_write (h : Agrees cfg msgq f) (hr : f.readers = []) : (∀ w ∈ msgq.waitQ, w.writes = true) ∧
      f.writers = msgq.waitQ.map fun w => (w.thread,cfg.message w.swapData) := by
  have hnil := h.readers
  rw [hr,eq_comm,List.map_eq_nil_iff,List.filter_eq_nil_iff] at hnil
  have hall : ∀ w ∈ msgq.waitQ, w.writes = true := fun w hw => by simpa using hnil w hw
  refine ⟨hall,?_⟩
  rw [h.writers,List.filter_eq_self.mpr fun w hw => hall w hw]

end Agrees

variable [DecidableEq θ]

section Steps
variable (hmax : 1 ≤ cfg.maxMsgs) (h : Agrees cfg msgq f) (hs : f.Sound cfg)
include hmax h hs

/-- `k_msgq_put` is a step of the bounded queue. -/
lemma put_refines (thread : θ) (data : ℕ → UInt8) (wait : Bool) (outranks : θ → Bool) :
    ∃ f', Fifo.Step cfg f (.put thread data wait outranks) (kMsgqPut cfg msgq thread data wait outranks).2 f' ∧
      Agrees cfg (kMsgqPut cfg msgq thread data wait outranks).1 f' := by
  obtain ⟨r,hr⟩ := h.holds
  have hused := h.used
  unfold kMsgqPut
  split_ifs with hroom hwait
  · have hw : f.writers = [] := by
      by_contra hne
      have := hs.writers hne
      omega
    obtain ⟨hall,hreaders⟩ := h.all_read hw
    cases hq : msgq.waitQ with
    | nil =>
      rw [hq] at hreaders
      refine ⟨_,.store hreaders (by omega),⟨r,hr.put hroom data⟩,?_,?_⟩
      · simpa [write,hq] using hreaders
      · simpa [write,hq] using hw
    | cons pending waitQ =>
      rw [hq] at hall hreaders
      refine ⟨_,.hand hreaders,⟨r,hr.read,hr.write,hr.stored⟩,?_,?_⟩
      · rw [List.filter_eq_self.mpr fun w hw => by simp [hall w (List.mem_cons_of_mem _ hw)]]
      · have hnone : waitQ.filter (·.writes) = [] := List.filter_eq_nil_iff.mpr fun w hw => by
          simp [hall w (List.mem_cons_of_mem _ hw)]
        simp [hnone,hw]
  · have hfull : f.stored.length = cfg.maxMsgs := by
      have := hs.bounded
      omega
    have hnone : f.readers = [] := by
      by_contra hne
      have := hs.readers hne
      simp [this] at hfull
      omega
    obtain ⟨hall,hwriters⟩ := h.all_write hnone
    have hpend : ∀ w ∈ pend (fun w : Waiter θ => outranks w.thread) ⟨thread,data,true⟩
        msgq.waitQ, w.writes = true := by
      intro w hw
      rcases mem_pend.mp hw with rfl | hw
      · rfl
      · exact hall w hw
    subst hwait
    refine ⟨_,.pendWriter hfull,⟨r,hr.read,hr.write,hr.stored⟩,?_,?_⟩
    · rw [List.filter_eq_nil_iff.mpr fun w hw => by simp [hpend w hw]]
      exact hnone
    · rw [List.filter_eq_self.mpr fun w hw => hpend w hw,hwriters]
      exact (map_pend (fun w : Waiter θ => (w.thread,cfg.message w.swapData))
        (fun w => outranks w.1) ⟨thread,data,true⟩ msgq.waitQ).symm
  · have hfull : f.stored.length = cfg.maxMsgs := by
      have := hs.bounded
      omega
    obtain rfl : wait = false := by simpa using hwait
    exact ⟨f,.full hfull,h⟩

/-- `k_msgq_get` is a step of the bounded queue. -/
lemma get_refines (thread : θ) (data : ℕ → UInt8) (wait : Bool) (outranks : θ → Bool) :
    ∃ f', Fifo.Step cfg f (.get thread data wait outranks) (kMsgqGet cfg msgq thread data wait outranks).2 f' ∧
      Agrees cfg (kMsgqGet cfg msgq thread data wait outranks).1 f' := by
  obtain ⟨r,hr⟩ := h.holds
  have hused := h.used
  unfold kMsgqGet
  split_ifs with hpos hwait
  · obtain ⟨rest,hstored,hrest⟩ := hr.get hmax hpos
    have hnone : f.readers = [] := by
      by_contra hne
      have := hs.readers hne
      simp [this] at hstored
    obtain ⟨hall,hwriters⟩ := h.all_write hnone
    cases hq : msgq.waitQ with
    | nil =>
      rw [hq] at hwriters
      refine ⟨_,.take hstored hwriters,⟨r+1,hrest.read,hrest.write,hrest.stored⟩,?_,?_⟩
      · simpa [hq] using hnone
      · simpa [hq] using hwriters
    | cons pending waitQ =>
      rw [hq] at hall hwriters
      have hfull := hs.writers (by simp [hwriters])
      have hput := hrest.put (by simp only; omega) pending.swapData
      refine ⟨_,.refill hstored hwriters,⟨r+1,hput.read,hput.write,hput.stored⟩,?_,?_⟩
      · rw [List.filter_eq_nil_iff.mpr fun w hw => by simp [hall w (List.mem_cons_of_mem _ hw)]]
        exact hnone
      · rw [List.filter_eq_self.mpr fun w hw => hall w (List.mem_cons_of_mem _ hw)]
  · have hempty : f.stored = [] := List.eq_nil_of_length_eq_zero (by omega)
    have hnone : f.writers = [] := by
      by_contra hne
      have := hs.writers hne
      omega
    obtain ⟨hall,hreaders⟩ := h.all_read hnone
    have hpend : ∀ w ∈ pend (fun w : Waiter θ => outranks w.thread) ⟨thread,data,false⟩
        msgq.waitQ, w.writes = false := by
      intro w hw
      rcases mem_pend.mp hw with rfl | hw
      · rfl
      · exact hall w hw
    subst hwait
    refine ⟨_,.pendReader hempty,⟨r,hr.read,hr.write,hr.stored⟩,?_,?_⟩
    · rw [List.filter_eq_self.mpr fun w hw => by simp [hpend w hw],hreaders]
      exact (map_pend Waiter.thread outranks ⟨thread,data,false⟩ msgq.waitQ).symm
    · rw [List.filter_eq_nil_iff.mpr fun w hw => by simp [hpend w hw]]
      exact hnone
  · obtain rfl : wait = false := by simpa using hwait
    exact ⟨f,.empty (List.eq_nil_of_length_eq_zero (by omega)),h⟩

lemma purge_refines :
    ∃ f', Fifo.Step cfg f .purge (kMsgqPurge cfg msgq).2 f' ∧ Agrees cfg (kMsgqPurge cfg msgq).1 f' := by
  obtain ⟨r,hr⟩ := h.holds
  refine ⟨_,.purge ?_,⟨r+msgq.usedMsgs,?_,?_,rfl⟩,rfl,rfl⟩
  · -- one of the two kinds is missing, so that the order of the wait queue is that of the other
    rcases hs.readers_or_writers hmax with hnone | hnone
    · simp [hnone,(h.all_write hnone).2,comp_def]
    · simp [hnone,(h.all_read hnone).2,comp_def]
  · exact hr.write
  · exact hr.write

/-- A wait that times out is a step of the bounded queue. -/
lemma timeout_refines {thread : θ} (hmem : thread ∈ msgq.waitQ.map Waiter.thread) :
    ∃ f', Fifo.Step cfg f (.timeout thread) .timedOut f' ∧
      Agrees cfg {msgq with waitQ := msgq.waitQ.eraseP fun w => w.thread = thread} f' := by
  obtain ⟨r,hr⟩ := h.holds
  rcases hs.readers_or_writers hmax with hnone | hnone
  · obtain ⟨hall,hwriters⟩ := h.all_write hnone
    refine ⟨_,.timeout (.inr ?_),⟨r,hr.read,hr.write,hr.stored⟩,?_,?_⟩
    · simpa [hwriters] using hmem
    · rw [List.filter_eq_nil_iff.mpr fun w hw => by simp [hall w (List.mem_of_mem_eraseP hw)]]
      simp [hnone]
    · rw [List.filter_eq_self.mpr fun w hw => hall w (List.mem_of_mem_eraseP hw)]
      simp [hwriters,List.eraseP_map,comp_def]
  · obtain ⟨hall,hreaders⟩ := h.all_read hnone
    refine ⟨_,.timeout (.inl ?_),⟨r,hr.read,hr.write,hr.stored⟩,?_,?_⟩
    · rwa [hreaders]
    · rw [List.filter_eq_self.mpr fun w hw => by simp [hall w (List.mem_of_mem_eraseP hw)]]
      simp only [hreaders,List.erase_eq_eraseP,List.eraseP_map]
      congr 2
      funext w
      simp [eq_comm,beq_eq_decide]
    · rw [List.filter_eq_nil_iff.mpr fun w hw => by simp [hall w (List.mem_of_mem_eraseP hw)]]
      simp [hnone]

/-- Every step of the code is a step of the bounded queue. -/
theorem step_refines (hsize : cfg.bufferEnd ≤ 2^32) (a : Action θ) (hok : Meets msgq a) :
    ∃ msgq' o f', step cfg msgq a = some (msgq',o) ∧ Fifo.Step cfg f a o f' ∧ Agrees cfg msgq' f' := by
  cases a with
  | put thread data wait outranks =>
    obtain ⟨f',hstep,hagrees⟩ := put_refines hmax h hs thread data wait outranks
    exact ⟨_,_,f',rfl,hstep,hagrees⟩
  | get thread data wait outranks =>
    obtain ⟨f',hstep,hagrees⟩ := get_refines hmax h hs thread data wait outranks
    exact ⟨_,_,f',rfl,hstep,hagrees⟩
  | peekAt idx =>
    have hused := h.used
    refine ⟨_,_,f,rfl,?_,h⟩
    by_cases hidx : idx < msgq.usedMsgs
    · obtain ⟨r,hr⟩ := h.holds
      obtain ⟨x,hx,heq⟩ := hr.peekAt hmax (hused ▸ hs.bounded) hsize hidx
      rw [heq]
      exact .peekAt hx
    · rw [kMsgqPeekAt,if_neg hidx]
      exact .peekAt_none (by omega)
  | purge =>
    obtain ⟨f',hstep,hagrees⟩ := purge_refines hmax h hs
    exact ⟨_,_,f',rfl,hstep,hagrees⟩
  | timeout thread =>
    obtain ⟨f',hstep,hagrees⟩ := timeout_refines hmax h hs hok
    exact ⟨_,_,f',rfl,hstep,hagrees⟩

end Steps
end Refinement

/-- What holds after a run that the bounded queue `f` accounts for. -/
structure Kept {θ : Type*} [DecidableEq θ] (cfg : Config) (is : List (Action θ))
    (os : List (Reply θ)) (msgq : KMsgq θ) (f : Fifo θ) : Prop where
  stored : f.stored.length = msgq.usedMsgs
  /-- All wait to read from an empty queue, or all to write to a full one. -/
  waiting : (∀ w ∈ msgq.waitQ, w.writes = false ∧ msgq.usedMsgs = 0) ∨
    ∀ w ∈ msgq.waitQ, w.writes = true ∧ msgq.usedMsgs = cfg.maxMsgs
  accepted : contributions (acceptedBy cfg) is os = f.accepted
  delivered : contributions deliveredBy is os = (f.left.filter snd).map fst
  /-- In order of acceptance, the messages have left or are stored. -/
  history : f.left.map fst++f.stored = f.accepted
  /-- The pointers stay inside the buffer. -/
  inside : 0 < cfg.msgSize → msgq.readPtr < cfg.bufferEnd ∧ msgq.writePtr < cfg.bufferEnd

def served : List (Action ℕ) :=
  [.get 0 (fun _ => 0) true fun _ => false,.put 1 (fun _ => 1) true fun _ => false,
    .put 1 (fun _ => 2) true fun _ => false,.put 1 (fun _ => 3) true fun _ => false,
    .put 1 (fun _ => 4) true fun _ => false,.get 2 (fun _ => 0) false fun _ => false,.peekAt 1,
    .get 2 (fun _ => 0) false fun _ => false,.purge]

end ArmFirmware.Zephyr.MessageQueue
