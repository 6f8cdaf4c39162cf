import ArmFirmware.Library.RingWindow
import ArmFirmware.Library.Strands
import ArmFirmware.Library.WaitQueue

/-! The pipes of `kernel/pipes.c`. A step is one call, up to the point where it gives up
`pipe->lock`, or the timeout of a waiting thread. The code never looks at the bytes it copies,
so that their type is arbitrary; every copy it makes is part of the reply. -/
namespace ArmFirmware.Zephyr.Pipe
open Library

def EIO : ℤ := 5
def EAGAIN : ℤ := 11
def EINVAL : ℤ := 22

/-- The descriptor of a `k_pipe_put`: `buffer` points to `rest`, of `bytes_to_xfer` bytes. -/
structure Writer (θ β : Type*) where
  thread : θ
  sent : List β
  rest : List β
  minXfer : ℕ

/-- The descriptor of a `k_pipe_get`: `buffer` points behind the bytes received, with room for
`bytes_to_xfer` more. -/
structure Reader (θ β : Type*) where
  thread : θ
  received : List β
  room : ℕ
  minXfer : ℕ

/-- The descriptors `pipe_write` copies to. -/
inductive Dest (θ β : Type*)
  | reader (r : Reader θ β)
  | segment (start len : ℕ)

/-- The descriptors `pipe_get_internal` copies from. -/
inductive Source (θ β : Type*)
  | segment (start len : ℕ)
  | writer (w : Writer θ β)

/-- One `pipe_xfer`; the side without a thread is the pipe buffer. -/
structure Copy (θ β : Type*) where
  src : Option θ
  dest : Option θ
  bytes : List β
  deriving DecidableEq

/-- A call that has returned, with the bytes its `bytes_written` or `bytes_read` counts. -/
structure Return (θ β : Type*) where
  thread : θ
  writes : Bool
  ret : ℤ
  bytes : List β
  deriving DecidableEq

structure Reply (θ β : Type*) where
  returned : List (Return θ β)
  copies : List (Copy θ β)
  deriving DecidableEq

/-- The buffer of a pipe. -/
structure Ring (β : Type*) where
  buffer : ℕ → β
  bytesUsed : ℕ
  readIndex : ℕ
  writeIndex : ℕ

/-- `struct k_pipe`; the size is fixed and kept apart. -/
structure KPipe (θ β : Type*) where
  ring : Ring β
  readers : List (Reader θ β)
  writers : List (Writer θ β)

/-- The calls with what they pass, whether they may wait, and which of the waiting threads the
caller outranks. On a multiprocessor, threads may time out while a `k_pipe_get` holds the
lock: the writers in `late` leave the wait queue before the pipe is refilled. -/
inductive Action (θ β : Type*)
  | put (thread : θ) (data : List β) (minXfer : ℕ) (wait : Bool) (outranks : θ → Bool)
  | get (thread : θ) (bytesToRead minXfer : ℕ) (wait : Bool) (outranks late : θ → Bool)
  | timeout (thread : θ)

section Descriptors
variable {θ β : Type*}

def Writer.advance (w : Writer θ β) (n : ℕ) : Writer θ β :=
  {w with sent := w.sent++w.rest.take n, rest := w.rest.drop n}

def Reader.accept (r : Reader θ β) (bytes : List β) : Reader θ β :=
  {r with received := r.received++bytes, room := r.room-bytes.length}

namespace Dest

def bytesToXfer : Dest θ β → ℕ
  | reader r => r.room
  | segment _ len => len

def thread : Dest θ β → Option θ
  | reader r => some r.thread
  | segment _ _ => none

def accept (bytes : List β) : Dest θ β → Dest θ β
  | reader r => reader (r.accept bytes)
  | segment start len => segment (start+bytes.length) (len-bytes.length)

def reader? : Dest θ β → Option (Reader θ β)
  | reader r => some r
  | segment _ _ => none

end Dest

def pipeReturnCode (minXfer transferred : ℕ) : ℤ := if minXfer ≤ transferred then 0 else -EAGAIN

def Writer.ret (w : Writer θ β) : Return θ β :=
  ⟨w.thread,true,pipeReturnCode w.minXfer w.sent.length,w.sent⟩

def Reader.ret (r : Reader θ β) : Return θ β :=
  ⟨r.thread,false,pipeReturnCode r.minXfer r.received.length,r.received⟩

end Descriptors

section Buffer
variable {β : Type*} (N : ℕ)

def wrap (index : ℕ) : ℕ := if N ≤ index then index-N else index

/-- Copy to the cells from `start` on, which are those at `write_index`. -/
def Ring.write (ring : Ring β) (start : ℕ) (bytes : List β) : Ring β :=
  {ring with
    buffer := blit ring.buffer start bytes.length fun i => bytes.getD i (ring.buffer (start+i))
    bytesUsed := ring.bytesUsed+bytes.length
    writeIndex := wrap N (ring.writeIndex+bytes.length)}

/-- Copy `n` bytes from the cells from `start` on, which are those at `read_index`. -/
def Ring.read (ring : Ring β) (start n : ℕ) : List β × Ring β :=
  ((List.range n).map fun i => ring.buffer (start+i),
    {ring with bytesUsed := ring.bytesUsed-n, readIndex := wrap N (ring.readIndex+n)})

def pipeBufferListPopulate (start stop : ℕ) : List (ℕ × ℕ) :=
  if start < stop then [(start,stop-start)] else [(start,N-start),(0,stop)]

def Ring.free (ring : Ring β) : List (ℕ × ℕ) :=
  if ring.bytesUsed = N then [] else pipeBufferListPopulate N ring.writeIndex ring.readIndex

def Ring.used (ring : Ring β) : List (ℕ × ℕ) :=
  if ring.bytesUsed = 0 then [] else pipeBufferListPopulate N ring.readIndex ring.writeIndex

end Buffer

/-- `pipe_waiter_list_populate` with its callback `pipe_walk_op`: the waiters listed, the
others, and `bytes_available`, a `size_t` of `W` bits. -/
def pipeWaiterListPopulate {τ : Type*} (W : ℕ) (bytesToXfer : τ → ℕ) (requested : ℕ) :
    ℕ → List τ → List τ × List τ × ℕ
  | available,[] => ([],[],available)
  | available,t::waitQ =>
    let available := (available+bytesToXfer t) % 2^W
    if requested ≤ available then ([t],waitQ,available)
    else
      let r := pipeWaiterListPopulate W bytesToXfer requested available waitQ
      (t::r.1,r.2)

section Transfer
variable {θ β : Type*} (N : ℕ)

/-- The variables of the loop of `pipe_write`. `srcs` and `dests` start with `src` and `dest`;
descriptors without bytes left go to `spent` and, if they belong to a reader, which is then
made ready, to `filled`. -/
structure Xfer (θ β : Type*) where
  ring : Ring β
  srcs : List (Writer θ β)
  dests : List (Dest θ β)
  spent : List (Writer θ β)
  filled : List (Reader θ β)
  copies : List (Copy θ β)

/-- One iteration, with the descriptors behind `src` and `dest`. -/
def Xfer.copyOnce (x : Xfer θ β) (src : Writer θ β) (srcs : List (Writer θ β))
    (dest : Dest θ β) (dests : List (Dest θ β)) : Xfer θ β :=
  let bytes := src.rest.take (min dest.bytesToXfer src.rest.length)
  let src' := src.advance bytes.length
  let dest' := dest.accept bytes
  { ring := match dest with
      | .reader _ => x.ring
      | .segment start _ => x.ring.write N start bytes
    srcs := if src'.rest.length = 0 then srcs else src'::srcs
    dests := if dest'.bytesToXfer = 0 then dests else dest'::dests
    spent := if src'.rest.length = 0 then x.spent++[src'] else x.spent
    filled := if dest'.bytesToXfer = 0 then x.filled++dest'.reader?.toList else x.filled
    copies := x.copies++[⟨some src.thread,dest.thread,bytes⟩] }

/-- The loop, which takes at least one descriptor off its lists each time. -/
def Xfer.loop : ℕ → Xfer θ β → Xfer θ β
  | 0,x => x
  | fuel+1,x =>
    match x.srcs,x.dests with
    | src::srcs,dest::dests => loop fuel (x.copyOnce N src srcs dest dests)
    | _,_ => x

def pipeWrite (ring : Ring β) (srcs : List (Writer θ β)) (dests : List (Dest θ β)) : Xfer θ β :=
  Xfer.loop N (srcs.length+dests.length) ⟨ring,srcs,dests,[],[],[]⟩

def Xfer.waiting (x : Xfer θ β) : List (Reader θ β) := x.dests.filterMap Dest.reader?

def bytesCopied (copies : List (Copy θ β)) : ℕ := (copies.map (·.bytes.length)).sum

/-- The variables of the first loop of `pipe_get_internal`. -/
structure Fetch (θ β : Type*) where
  ring : Ring β
  dest : Reader θ β
  kept : List (Writer θ β)
  spent : List (Writer θ β)
  copies : List (Copy θ β)

def Fetch.copyOnce (f : Fetch θ β) : Source θ β → Fetch θ β
  | .segment start len =>
    let (bytes,ring) := f.ring.read N start (min f.dest.room len)
    {f with
      ring
      dest := f.dest.accept bytes
      copies := f.copies++[⟨none,some f.dest.thread,bytes⟩]}
  | .writer w =>
    let bytes := w.rest.take (min f.dest.room w.rest.length)
    let w' := w.advance bytes.length
    {f with
      dest := f.dest.accept bytes
      kept := if w'.rest.length = 0 then f.kept else f.kept++[w']
      spent := if w'.rest.length = 0 then f.spent++[w'] else f.spent
      copies := f.copies++[⟨some w.thread,some f.dest.thread,bytes⟩]}

end Transfer

section Calls
variable {θ β : Type*} (W N : ℕ)

def kPipeInit (buffer : ℕ → β) : KPipe θ β := ⟨⟨buffer,0,0,0⟩,[],[]⟩

def Reply.fail (thread : θ) (writes : Bool) (ret : ℤ) : Reply θ β := ⟨[⟨thread,writes,ret,[]⟩],[]⟩

def kPipePut (pipe : KPipe θ β) (thread : θ) (data : List β) (minXfer : ℕ) (wait : Bool)
    (outranks : θ → Bool) : KPipe θ β × Reply θ β :=
  if data.length < minXfer then (pipe,.fail thread true (-EINVAL))
  else
    let (listed,unlisted,available) :=
      pipeWaiterListPopulate W Reader.room data.length 0 pipe.readers
    let free := pipe.ring.free N
    let bytesCanWrite := (available+(free.map Prod.snd).sum) % 2^W
    if bytesCanWrite < minXfer ∧ !wait then (pipe,.fail thread true (- EIO))
    else
      let src := ⟨thread,[],data,minXfer⟩
      let x := pipeWrite N pipe.ring [src]
        (listed.map .reader++free.map fun s => .segment s.1 s.2)
      let bytesWritten := bytesCopied x.copies
      let pipe := {pipe with ring := x.ring, readers := x.waiting++unlisted}
      let src := (x.spent++x.srcs).headD src
      if bytesWritten = data.length ∨ !wait ∨ (minXfer ≤ bytesWritten ∧ 0 < minXfer) then
        (pipe,⟨x.filled.map Reader.ret++[⟨thread,true,0,src.sent⟩],x.copies⟩)
      else
        ({pipe with
            writers := WaitQueue.pend (fun w => outranks w.thread) src pipe.writers},
          ⟨x.filled.map Reader.ret,x.copies⟩)

/-- The second part of `pipe_get_internal`: the pipe is refilled from the waiting writers,
which stay in the wait queue. -/
def refill (ring : Ring β) (writers : List (Writer θ β)) : Ring β × List (Writer θ β) × List (Copy θ β) :=
  if ring.bytesUsed = N then (ring,writers,[])
  else
    let (listed,unlisted,_) :=
      pipeWaiterListPopulate W (·.rest.length) (N-ring.bytesUsed) 0 writers
    let x := pipeWrite N ring listed ((ring.free N).map fun s => .segment s.1 s.2)
    (x.ring,x.spent++x.srcs++unlisted,x.copies)

def kPipeGet (pipe : KPipe θ β) (thread : θ) (bytesToRead minXfer : ℕ) (wait : Bool)
    (outranks late : θ → Bool) : KPipe θ β × Reply θ β :=
  if bytesToRead < minXfer then (pipe,.fail thread false (-EINVAL))
  else
    let used := pipe.ring.used N
    let (listed,unlisted,available) :=
      pipeWaiterListPopulate W (·.rest.length) bytesToRead 0 pipe.writers
    let bytesCanRead := ((used.map Prod.snd).sum+available) % 2^W
    if bytesCanRead < minXfer ∧ !wait then (pipe,.fail thread false (- EIO))
    else
      let srcs := used.map (fun s => Source.segment s.1 s.2)++listed.map .writer
      let f := srcs.foldl (Fetch.copyOnce N) ⟨pipe.ring,⟨thread,[],bytesToRead,minXfer⟩,[],[],[]⟩
      let numBytesRead := bytesCopied f.copies
      let writers := f.kept++unlisted
      let expired := writers.filter fun w => late w.thread
      let (ring,writers,copies) := refill W N f.ring (writers.filter fun w => !late w.thread)
      let returned := f.spent.map Writer.ret++expired.map Writer.ret
      let pipe := {pipe with ring, writers}
      if numBytesRead = bytesToRead ∨ !wait ∨ (minXfer ≤ numBytesRead ∧ 0 < minXfer) then
        (pipe,⟨returned++[⟨thread,false,0,f.dest.received⟩],f.copies++copies⟩)
      else
        ({pipe with
            readers := WaitQueue.pend (fun r => outranks r.thread) f.dest pipe.readers},
          ⟨returned,f.copies++copies⟩)

def kPipeReadAvail (ring : Ring β) : ℕ :=
  if N = 0 then 0
  else if ring.readIndex = ring.writeIndex then ring.bytesUsed
  else if ring.readIndex < ring.writeIndex then ring.writeIndex-ring.readIndex
  else N-(ring.readIndex-ring.writeIndex)

def kPipeWriteAvail (ring : Ring β) : ℕ :=
  if N = 0 then 0
  else if ring.writeIndex = ring.readIndex then N-ring.bytesUsed
  else if ring.writeIndex < ring.readIndex then ring.readIndex-ring.writeIndex
  else N-(ring.writeIndex-ring.readIndex)

variable [DecidableEq θ]

/-- A thread that times out reports what was copied while it waited. -/
def expire (pipe : KPipe θ β) (thread : θ) : KPipe θ β × Reply θ β :=
  ({pipe with
      readers := pipe.readers.filter (·.thread ≠ thread)
      writers := pipe.writers.filter (·.thread ≠ thread)},
    ⟨(pipe.readers.filter (·.thread = thread)).map Reader.ret++
      (pipe.writers.filter (·.thread = thread)).map Writer.ret,[]⟩)

def step (pipe : KPipe θ β) : Action θ β → Option (KPipe θ β × Reply θ β)
  | .put thread data minXfer wait outranks =>
    some (kPipePut W N pipe thread data minXfer wait outranks)
  | .get thread bytesToRead minXfer wait outranks late =>
    some (kPipeGet W N pipe thread bytesToRead minXfer wait outranks late)
  | .timeout thread => some (expire pipe thread)

def KPipe.waiting (pipe : KPipe θ β) : List θ :=
  pipe.readers.map Reader.thread++pipe.writers.map Writer.thread

/-- A thread that waits makes no calls. -/
def Meets (pipe : KPipe θ β) : Action θ β → Prop
  | .put thread _ _ _ _ => thread ∉ pipe.waiting
  | .get thread _ _ _ _ _ => thread ∉ pipe.waiting
  | .timeout _ => True

instance (pipe : KPipe θ β) (a : Action θ β) : Decidable (Meets pipe a) := by
  cases a <;> simp only [Meets] <;> infer_instance

end Calls
end ArmFirmware.Zephyr.Pipe
