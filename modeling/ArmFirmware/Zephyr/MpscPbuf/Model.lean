import ArmFirmware.Library.RingWindow
import ArmFirmware.Library.WaitQueue

/-! The packet buffer for many producers and one consumer (`lib/os/mpsc_pbuf.c`). What happens under
the buffer's spinlock is one step: one pass through the loop of a producer's call or of
`mpsc_pbuf_claim`, a commit, a free. Utilization statistics are left out. -/
namespace ArmFirmware.Zephyr.MpscPbuf
open Library Function

/-- `union mpsc_pbuf_generic`: two bits of the buffer's own and, in the rest, the length of a skip item
or what belongs to the packet. -/
structure Word where
  valid : Bool
  busy : Bool
  data : BitVec 30
  deriving DecidableEq

structure Config where
  size : ℕ
  overwrite : Bool
  /-- The callback that finds the length of a packet in its first word. -/
  getWlen : BitVec 30 → ℕ

/-- The fields of `struct mpsc_pbuf_buffer` that change. -/
structure Buffer where
  tmpWr : ℕ
  wr : ℕ
  tmpRd : ℕ
  rd : ℕ
  full : Bool
  buf : ℕ → Word

section Functions
variable (c : Config)

/-- `free_space`: whether it was calculated until the end of the buffer, and how much it is. -/
def freeSpace (b : Buffer) : Bool × ℕ :=
  if b.full then (false,0)
  else if b.rd > b.tmpWr then (false,b.rd-b.tmpWr)
  else (true,c.size-b.tmpWr)

def available (b : Buffer) : ℕ :=
  if b.full ∨ b.tmpRd > b.wr then c.size-b.tmpRd else b.wr-b.tmpRd

def isInvalid (item : Word) : Bool := !item.valid && !item.busy

def getSkip (item : Word) : ℕ := if item.busy && !item.valid then item.data.toNat else 0

def isPowerOfTwo (x : ℕ) : Bool := decide (x ≠ 0 ∧ x &&& (x-1) = 0)

def idxInc (idx val : ℕ) : ℕ :=
  let i := (idx+val)%2^32
  if isPowerOfTwo c.size then i &&& (c.size-1)
  else if i ≥ c.size then i-c.size
  else i

def tmpWrIdxInc (b : Buffer) (wlen : ℕ) : Buffer :=
  let tmpWr := idxInc c b.tmpWr wlen
  { b with tmpWr := tmpWr, full := b.full || decide (tmpWr = b.rd) }

def rdIdxInc (b : Buffer) (wlen : ℕ) : Buffer := { b with rd := idxInc c b.rd wlen, full := false }

def skipItem (wlen : ℕ) : Word := ⟨false,true,BitVec.ofNat 30 wlen⟩

def addSkipItem (b : Buffer) (wlen : ℕ) : Buffer :=
  let b := tmpWrIdxInc c { b with buf := update b.buf b.tmpWr (skipItem wlen) } wlen
  { b with wr := idxInc c b.wr wlen }

/-- How a pass through the loop of a producer's call ends. -/
inductive Pass
  /-- There is space for the packet at that index. -/
  | stored (item : ℕ)
  | again
  /-- `mpsc_pbuf_alloc` waits for the semaphore. -/
  | wait
  /-- A packet is dropped; with it come `tmp_wr_idx_shift` and `tmp_wr_idx_val`. -/
  | drop (item shift val : ℕ)
  | failed

def dropItemLocked (b : Buffer) (freeWlen : ℕ) : Buffer × Pass :=
  let item := b.buf b.rd
  let skipWlen := getSkip item
  if skipWlen ≠ 0 then
    let b := rdIdxInc c b skipWlen
    ({ b with tmpRd := b.rd },.again)
  else if !c.overwrite then (b,.failed)
  else
    let rdWlen := c.getWlen item.data
    if !item.valid then (b,.failed)
    else if item.busy then
      let b := if freeWlen ≠ 0 then addSkipItem c b freeWlen else b
      let b := { b with wr := idxInc c b.wr rdWlen }
      let b := if b.rd = b.tmpRd then { b with tmpRd := idxInc c b.tmpRd rdWlen } else b
      ({ b with tmpWr := b.tmpRd, rd := b.tmpRd, full := true },.again)
    else
      let b' := rdIdxInc c b rdWlen
      let b' := { b' with tmpRd := b'.rd }
      let b' := if freeWlen ≠ 0 then { b' with buf := update b'.buf b'.tmpWr ⟨false,false,0⟩ } else b'
      let shift := rdWlen+freeWlen
      ({ b' with
          tmpWr := idxInc c b'.tmpWr shift
          full := true
          buf := update b'.buf b.rd { b'.buf b.rd with valid := false } },
        .drop b.rd shift b.tmpWr)

def postDropAction (b : Buffer) (prevTmpWr shift : ℕ) : Buffer :=
  if idxInc c prevTmpWr shift = b.tmpWr then { b with tmpWr := prevTmpWr, full := false }
  else { b with buf := update b.buf prevTmpWr (skipItem shift), wr := idxInc c b.wr shift }

def resume (b : Buffer) (shift val : ℕ) : Buffer := if shift ≠ 0 then postDropAction c b val shift else b

/-- Words are copied to the writer's index, and both indices of the writer go on. -/
def store (b : Buffer) (ws : List Word) : Buffer :=
  let b := tmpWrIdxInc c { b with buf := blit b.buf b.tmpWr ws.length fun i => ws.getD i ⟨false,false,0⟩ } ws.length
  { b with wr := idxInc c b.wr ws.length }

def putWord (b : Buffer) (item : Word) (shift val : ℕ) : Buffer × Pass :=
  let b := resume c b shift val
  let freeWlen := (freeSpace c b).2
  if freeWlen ≠ 0 then (store c b [item],.stored b.tmpWr)
  else dropItemLocked c b freeWlen

def put (b : Buffer) (ws : List Word) (shift val : ℕ) : Buffer × Pass :=
  let b := resume c b shift val
  let (wrap,freeWlen) := freeSpace c b
  if freeWlen ≥ ws.length then (store c b ws,.stored b.tmpWr)
  else if wrap then (addSkipItem c b freeWlen,.again)
  else dropItemLocked c b freeWlen

/-- The words of `ptr` are those of a pointer. -/
def putWordExt (b : Buffer) (item : Word) (ptr : List Word) (shift val : ℕ) : Buffer × Pass :=
  put c b (item::ptr) shift val

def putData (b : Buffer) (data : List Word) (shift val : ℕ) : Buffer × Pass := put c b data shift val

def alloc (b : Buffer) (wlen : ℕ) (wait : Bool) (shift val : ℕ) : Buffer × Pass :=
  let b := resume c b shift val
  let (wrap,freeWlen) := freeSpace c b
  if freeWlen ≥ wlen then
    (tmpWrIdxInc c
      { b with buf := update b.buf b.tmpWr { b.buf b.tmpWr with valid := false, busy := false } } wlen,
      .stored b.tmpWr)
  else if wrap then (addSkipItem c b freeWlen,.again)
  else if wait then (b,.wait)
  else dropItemLocked c b freeWlen

def commit (b : Buffer) (item : ℕ) : Buffer :=
  let wlen := c.getWlen (b.buf item).data
  { b with buf := update b.buf item { b.buf item with valid := true }, wr := idxInc c b.wr wlen }

inductive Claim
  | null
  | again
  | claimed (item : ℕ)

def claim (b : Buffer) : Buffer × Claim :=
  let item := b.buf b.tmpRd
  if available c b = 0 ∨ isInvalid item then (b,.null)
  else
    let skip := getSkip item
    if skip ≠ 0 ∨ !item.valid then
      let inc := if skip ≠ 0 then skip else c.getWlen item.data
      (rdIdxInc c { b with tmpRd := idxInc c b.tmpRd inc } inc,.again)
    else
      ({ b with
          buf := update b.buf b.tmpRd { item with busy := true }
          tmpRd := idxInc c b.tmpRd (c.getWlen item.data) },
        .claimed b.tmpRd)

def free (b : Buffer) (item : ℕ) : Buffer :=
  let wlen := c.getWlen (b.buf item).data
  if !c.overwrite ∨ item = b.rd then
    let b := { b with buf := update b.buf item { b.buf item with valid := false, busy := false } }
    let b := if b.rd = b.tmpRd then { b with tmpRd := idxInc c b.tmpRd wlen } else b
    rdIdxInc c b wlen
  else
    { b with buf := update b.buf item { b.buf item with valid := false, data := BitVec.ofNat 30 wlen } }

end Functions

/-- The calls of a producer. -/
inductive Job
  | word (item : Word)
  | wordExt (item : Word) (ptr : List Word)
  | data (ws : List Word)
  | alloc (wlen : ℕ) (wait : Bool)

def Job.words? : Job → Option (List Word)
  | .word item => some [item]
  | .wordExt item ptr => some (item::ptr)
  | .data ws => some ws
  | .alloc .. => none

def Job.wlen : Job → ℕ
  | .word _ => 1
  | .wordExt _ ptr => ptr.length+1
  | .data ws => ws.length
  | .alloc wlen _ => wlen

def Job.pass (c : Config) (b : Buffer) (shift val : ℕ) : Job → Buffer × Pass
  | .word item => putWord c b item shift val
  | .wordExt item ptr => putWordExt c b item ptr shift val
  | .data ws => putData c b ws shift val
  | .alloc wlen wait => MpscPbuf.alloc c b wlen wait shift val

/-- What a packet that is copied must look like: its first word is valid and tells its length, and the
words behind the one of `mpsc_pbuf_put_word_ext` are those of a pointer. -/
def Job.Allowed (c : Config) (job : Job) : Prop :=
  (∀ w ∈ job.words?.bind List.head?, w.valid = true ∧ w.busy = false ∧ c.getWlen w.data = job.wlen) ∧
    match job with
    | .wordExt _ ptr => ptr.length = 1 ∨ ptr.length = 2
    | _ => True

instance (c : Config) (job : Job) : Decidable (job.Allowed c) := by
  unfold Job.Allowed
  cases job <;> infer_instance

inductive Producer
  | idle
  /-- Before a pass, with `tmp_wr_idx_shift` and `tmp_wr_idx_val`. -/
  | loop (job : Job) (shift val : ℕ)
  /-- Before the call of `notify_drop`. -/
  | notify (job : Job) (shift val item : ℕ)
  /-- Before `k_sem_take`, for that many words. -/
  | take (wlen : ℕ)
  | waiting (wlen : ℕ)
  /-- Behind `mpsc_pbuf_alloc`, before `mpsc_pbuf_commit`. -/
  | filling (item wlen : ℕ)

inductive Consumer
  | idle
  /-- Between two passes of `mpsc_pbuf_claim`. -/
  | claiming
  | holding (item : ℕ)
  /-- Before the `k_sem_give` of `mpsc_pbuf_free`. -/
  | giving

/-- The buffer, and where its producers and its consumer are. -/
structure State (ι : Type*) extends Buffer where
  /-- The semaphore and the producers that wait for it. -/
  sem : ℕ
  waiters : List ι
  producer : ι → Producer
  consumer : Consumer

/-- The buffer after `mpsc_pbuf_init`, in memory with any contents. -/
def State.init {ι : Type*} (buf : ℕ → Word) : State ι := ⟨⟨0,0,0,0,false,buf⟩,0,[],fun _ => .idle,.idle⟩

inductive Action (ι : Type*)
  | start (i : ι) (job : Job)
  | pass (i : ι)
  | notify (i : ι)
  | take (i : ι)
  | expire (i : ι)
  /-- A producer stores a word of the packet that it has allocated. -/
  | fill (i : ι) (j : ℕ) (w : Word)
  | commit (i : ι)
  | claim
  | free
  | give

inductive Reply
  | done
  | stored (item : ℕ)
  | dropped (item : ℕ)
  | failed
  | null
  | claimed (item : ℕ)
  deriving DecidableEq

section Steps
variable {ι : Type*} [DecidableEq ι] (c : Config) (prio : ι → ℤ)

def State.set (s : State ι) (i : ι) (p : Producer) : State ι := { s with producer := update s.producer i p }

/-- A producer goes on behind a pass. -/
def State.passed (s : State ι) (i : ι) (job : Job) : Buffer × Pass → State ι × Reply
  | (b,.stored item) =>
    let s := { s with toBuffer := b }
    (s.set i (if job.words?.isSome then .idle else .filling item job.wlen),.stored item)
  | (b,.again) => ({ s with toBuffer := b }.set i (.loop job 0 0),.done)
  | (b,.wait) => ({ s with toBuffer := b }.set i (.take job.wlen),.done)
  | (b,.drop item shift val) => ({ s with toBuffer := b }.set i (.notify job shift val item),.dropped item)
  | (b,.failed) => ({ s with toBuffer := b }.set i .idle,.failed)

def State.claimed (s : State ι) : Buffer × Claim → State ι × Reply
  | (b,.null) => ({ s with toBuffer := b, consumer := .idle },.null)
  | (b,.again) => ({ s with toBuffer := b, consumer := .claiming },.done)
  | (b,.claimed item) => ({ s with toBuffer := b, consumer := .holding item },.claimed item)

/-- `k_sem_give`, with a limit of 1. -/
def State.semGive (s : State ι) : State ι :=
  match s.waiters with
  | [] => { s with sem := min 1 (s.sem+1) }
  | i::q =>
    match s.producer i with
    | .waiting wlen => { s with waiters := q }.set i (.loop (.alloc wlen true) 0 0)
    | _ => { s with waiters := q }

/-- A producer keeps to the protocol: a packet that it copies is as it must be, it does not touch
the buffer's bits of the packet that it fills, and the first word tells the length when it is
committed. `mpsc_pbuf_put_data` clears the valid bit of a dropped packet once more, without the
lock. -/
def step (s : State ι) : Action ι → Option (State ι × Reply)
  | .start i job =>
    match s.producer i with
    | .idle =>
      if ¬job.Allowed c then none
      else
        match job with
        | .alloc wlen _ => if wlen > c.size then some (s,.failed) else some (s.set i (.loop job 0 0),.done)
        | _ => some (s.set i (.loop job 0 0),.done)
    | _ => none
  | .pass i =>
    match s.producer i with
    | .loop job shift val => some (s.passed i job (job.pass c s.toBuffer shift val))
    | _ => none
  | .notify i =>
    match s.producer i with
    | .notify job shift val item =>
      let s := s.set i (.loop job shift val)
      match job with
      | .data _ => some ({ s with buf := update s.buf item { s.buf item with valid := false } },.done)
      | _ => some (s,.done)
    | _ => none
  | .take i =>
    match s.producer i with
    | .take wlen =>
      if s.sem > 0 then some ({ s with sem := s.sem-1 }.set i (.loop (.alloc wlen true) 0 0),.done)
      else some ({ s with waiters := WaitQueue.pend (fun u => decide (prio i < prio u)) i s.waiters }.set i
        (.waiting wlen),.done)
    | _ => none
  | .expire i =>
    match s.producer i with
    | .waiting _ => some ({ s with waiters := s.waiters.erase i }.set i .idle,.failed)
    | _ => none
  | .fill i j w =>
    match s.producer i with
    | .filling item wlen =>
      if j < wlen ∧ (j = 0 → w.valid = false ∧ w.busy = false) then
        some ({ s with buf := update s.buf (item+j) w },.done)
      else none
    | _ => none
  | .commit i =>
    match s.producer i with
    | .filling item wlen =>
      if c.getWlen (s.buf item).data = wlen then
        some ({ s with toBuffer := commit c s.toBuffer item }.set i .idle,.done)
      else none
    | _ => none
  | .claim =>
    match s.consumer with
    | .idle | .claiming => some (s.claimed (claim c s.toBuffer))
    | _ => none
  | .free =>
    match s.consumer with
    | .holding item => some ({ s with toBuffer := free c s.toBuffer item, consumer := .giving },.done)
    | _ => none
  | .give =>
    match s.consumer with
    | .giving => some ({ s.semGive with consumer := .idle },.done)
    | _ => none

end Steps

def words (buf : ℕ → Word) (a n : ℕ) : List Word := (List.range n).map fun j => buf (a+j)

/-- A packet that has been given a place and has not been freed or dropped. -/
structure Place where
  ticket : ℕ
  start : ℕ
  len : ℕ
  deriving DecidableEq

/-- What has become of the packets. They are numbered in the order in which they are given a place. -/
structure Log (ι : Type*) where
  tickets : ℕ
  /-- The number of the last packet at an index. -/
  packetAt : ℕ → ℕ
  /-- The words of a packet when it was committed. -/
  committed : ℕ → Option (List Word)
  live : List Place
  claimed : List ℕ
  /-- The packets that `notify_drop` has been called for, and those that it will be called for next. -/
  reported : List ℕ
  dropping : List (ι × ℕ)

def Log.empty {ι : Type*} : Log ι := ⟨0,fun _ => 0,fun _ => none,[],[],[],[]⟩

namespace Log
variable {ι : Type*} [DecidableEq ι]

/-- A packet is given a place, with its words if it is copied. -/
def place (g : Log ι) (item : ℕ) (job : Job) : Log ι :=
  { g with
    tickets := g.tickets+1
    packetAt := update g.packetAt item g.tickets
    committed := update g.committed g.tickets job.words?
    live := g.live++[⟨g.tickets,item,job.wlen⟩] }

def next (g : Log ι) (s s' : State ι) : Action ι → Reply → Log ι
  | .pass i,.stored item =>
    match s.producer i with
    | .loop job _ _ => g.place item job
    | _ => g
  | .pass i,.dropped item =>
    { g with
      dropping := g.dropping++[(i,g.packetAt item)]
      live := g.live.filter fun p => p.ticket ≠ g.packetAt item }
  | .notify i,_ =>
    match s.producer i with
    | .notify _ _ _ item =>
      { g with
        dropping := g.dropping.erase (i,g.packetAt item)
        reported := g.reported++[g.packetAt item] }
    | _ => g
  | .commit i,_ =>
    match s.producer i with
    | .filling item wlen =>
      { g with committed := update g.committed (g.packetAt item) (some (words s'.buf item wlen)) }
    | _ => g
  | .claim,.claimed item => { g with claimed := g.claimed++[g.packetAt item] }
  | .free,_ =>
    match s.consumer with
    | .holding item => { g with live := g.live.filter fun p => p.ticket ≠ g.packetAt item }
    | _ => g
  | _,_ => g

end Log
end ArmFirmware.Zephyr.MpscPbuf
