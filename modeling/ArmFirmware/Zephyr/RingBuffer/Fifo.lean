import ArmFirmware.Library.Trace
import ArmFirmware.Zephyr.RingBuffer.Indices

/-! The byte interface as a bounded FIFO with claims on both ends, and its runs. -/
namespace ArmFirmware.Zephyr.RingBuffer
open Library List Nat Function Positions

attribute [local simp] finishGet claimGet

inductive Op where
  | put (data : ℕ → UInt8) (size : BitVec 32)
  | get (data : Bool) (size : BitVec 32)
  | peek (size : BitVec 32)
  | putClaim (size : BitVec 32)
  | write (i : ℕ) (v : UInt8)
  | putFinish (size : BitVec 32)
  | getClaim (size : BitVec 32)
  | getFinish (size : BitVec 32)

/-- What the caller learns: a byte count with the bytes copied out, the cells of a claimed
slice with what they hold, a return value, or nothing. -/
inductive Reply where
  | count (n : ℕ) (bytes : Option (List UInt8))
  | slice (cells : List ℕ) (bytes : List UInt8)
  | status (ret : ℤ)
  | done
  deriving DecidableEq

/-- A ring buffer together with the cells its producer may still write to. -/
structure World where
  buf : RingBuf
  claims : List ℕ

def sliceCells (offset : ℕ) (size : BitVec 32) : List ℕ :=
  (range size.toNat).map (offset+·)

def step (w : World) : Op → World × Reply
  | .put data size =>
    let r := ringBufPut w.buf data size
    (⟨r.1,[]⟩,.count r.2.toNat none)
  | .get data size =>
    let r := ringBufGet w.buf data size
    (⟨r.1,w.claims⟩,.count r.2.1.toNat r.2.2)
  | .peek size =>
    let r := ringBufPeek w.buf size
    (⟨r.1,w.claims⟩,.count r.2.1.toNat (some r.2.2))
  | .putClaim size =>
    let r := ringBufPutClaim w.buf size
    let cells := sliceCells r.2.1 r.2.2
    (⟨r.1,w.claims ++ cells⟩,.slice cells (cells.map r.1.buffer))
  | .write i v =>
    match w.claims[i]? with
    | some cell => (⟨{w.buf with buffer := update w.buf.buffer cell v},w.claims⟩,.done)
    | none => (w,.done)
  | .putFinish size =>
    let r := ringBufPutFinish w.buf size
    (⟨r.1,if r.2 = 0 then [] else w.claims⟩,.status r.2)
  | .getClaim size =>
    let r := ringBufGetClaim w.buf size
    let cells := sliceCells r.2.1 r.2.2
    (⟨r.1,w.claims⟩,.slice cells (cells.map r.1.buffer))
  | .getFinish size =>
    let r := ringBufGetFinish w.buf size
    (⟨r.1,w.claims⟩,.status r.2)

/-- A copying call finishes the claims of its side, so it is made with none outstanding. -/
def Separate (w : World) : Op → Prop
  | .put _ _ => w.buf.putHead = w.buf.putTail
  | .get _ _ => w.buf.getHead = w.buf.getTail
  | .peek _ => w.buf.getHead = w.buf.getTail
  | _ => True

instance (w : World) (op : Op) : Decidable (Separate w op) := by
  cases op <;> unfold Separate <;> infer_instance

/-- A bounded FIFO. The first `claimed` bytes of the queue are handed out to the consumer,
the `pending` bytes to the producer. -/
structure Fifo where
  capacity : ℕ
  queue : List UInt8
  claimed : ℕ
  pending : List UInt8

namespace Fifo

def length (f : Fifo) : ℕ := f.queue.length-f.claimed

def room (f : Fifo) : ℕ := f.capacity-(f.queue.length+f.pending.length)

def next (f : Fifo) (k : ℕ) : List UInt8 := (f.queue.drop f.claimed).take k

/-- The calls on a FIFO. Only the size of a claimed slice is left open: it is positive
when bytes were asked for and there are any. -/
inductive Step : Fifo → Op → Reply → Fifo → Prop
  | put (f : Fifo) (data size) : Step f (.put data size) (.count (min size.toNat f.room) none)
      {f with queue := f.queue ++ (range (min size.toNat f.room)).map data}
  | get (f : Fifo) (data : Bool) (size) : Step f (.get data size)
      (.count (min size.toNat f.length)
        (if data then some (f.next (min size.toNat f.length)) else none))
      {f with queue := f.queue.take f.claimed ++
          f.queue.drop (f.claimed+min size.toNat f.length)}
  | peek (f : Fifo) (size) : Step f (.peek size)
      (.count (min size.toNat f.length) (some (f.next (min size.toNat f.length)))) f
  | putClaim (f : Fifo) (size cells bytes) (granted : cells.length ≤ min size.toNat f.room)
      (some_granted : 0 < min size.toNat f.room → 0 < cells.length)
      (inside : ∀ c ∈ cells, c < f.capacity) (hlen : bytes.length = cells.length) :
      Step f (.putClaim size) (.slice cells bytes) {f with pending := f.pending ++ bytes}
  | write (f : Fifo) (i v) : Step f (.write i v) .done {f with pending := f.pending.set i v}
  | putFinish (f : Fifo) (size) (h : size.toNat ≤ f.pending.length) :
      Step f (.putFinish size) (.status 0)
        {f with queue := f.queue ++ f.pending.take size.toNat, pending := []}
  | putFinish_fails (f : Fifo) (size) (h : f.pending.length < size.toNat) :
      Step f (.putFinish size) (.status (-EINVAL)) f
  | getClaim (f : Fifo) (size cells) (granted : cells.length ≤ min size.toNat f.length)
      (some_granted : 0 < min size.toNat f.length → 0 < cells.length)
      (inside : ∀ c ∈ cells, c < f.capacity) :
      Step f (.getClaim size) (.slice cells (f.next cells.length))
        {f with claimed := f.claimed+cells.length}
  | getFinish (f : Fifo) (size) (h : size.toNat ≤ f.claimed) :
      Step f (.getFinish size) (.status 0)
        {f with queue := f.queue.drop size.toNat, claimed := 0}
  | getFinish_fails (f : Fifo) (size) (h : f.claimed < size.toNat) :
      Step f (.getFinish size) (.status (-EINVAL)) f

end Fifo

/-- The cells of the unread bytes, oldest first, from the get tail and its base. -/
def unreadCells (b : RingBuf) : List ℕ :=
  (range (b.putTail-b.getTail).toNat).map fun i =>
    let d := (b.getTail-b.getBase).toNat+i
    if b.size.toNat ≤ d then d-b.size.toNat else d

/-- What a caller can observe of a FIFO state in the buffer. -/
structure Agrees (w : World) (f : Fifo) : Prop where
  capacity : f.capacity = w.buf.size.toNat
  queue : f.queue = (unreadCells w.buf).map w.buf.buffer
  pending : f.pending = w.claims.map w.buf.buffer
  sizeGet : (ringBufSizeGet w.buf).toNat = f.length
  spaceGet : (ringBufSpaceGet w.buf).toNat = f.room
  bounded : f.queue.length+f.pending.length ≤ f.capacity
  inside : ∀ c ∈ w.claims, c < w.buf.size.toNat
  apart : ∀ c ∈ w.claims, c ∉ unreadCells w.buf

def cellsFrom (N start len : ℕ) : List ℕ := (range len).map fun i => (start+i) % N

attribute [local simp] cellsFrom

lemma map_cellsFrom (m : ℕ → UInt8) (N start len : ℕ) : (cellsFrom N start len).map m = ringRead m N start len := by
  simp [ringRead,map_map,Function.comp_def]

lemma cellsFrom_append (N start a c : ℕ) :
    cellsFrom N start (a+c) = cellsFrom N start a ++ cellsFrom N (start+a) c := ringRead_append (m := id) start a c

@[simp] lemma cellsFrom_length (N start len : ℕ) : (cellsFrom N start len).length = len := by
  simp

lemma mem_cellsFrom {N start len c : ℕ} : c ∈ cellsFrom N start len ↔ ∃ i < len, (start+i) % N = c := by
  simp

/-- The FIFO that a memory and positions stand for. -/
def fifoAt (m : ℕ → UInt8) (N : ℕ) (p : Positions) : Fifo where
  capacity := N
  queue := ringRead m N p.getTail (p.putTail-p.getTail)
  claimed := p.getHead-p.getTail
  pending := ringRead m N p.putTail (p.putHead-p.putTail)

/-- The buffer and the producer's cells that a memory and positions stand for. -/
def worldAt (m : ℕ → UInt8) (size : BitVec 32) (p : Positions) : World :=
  ⟨place m size p,cellsFrom size.toNat p.putTail (p.putHead-p.putTail)⟩

attribute [local simp] worldAt

/-- The refinement relation: one memory and one set of positions explain both sides. -/
def Refines (w : World) (f : Fifo) : Prop :=
  ∃ m size p, Ordered size.toNat p ∧ w = worldAt m size p ∧ f = fifoAt m size.toNat p

section Views
variable {m : ℕ → UInt8} {N : ℕ} {p : Positions}

lemma fifoAt_length (h : Ordered N p) : (fifoAt m N p).length = p.unclaimed := by
  have h₁ := h.getTail_le
  simp only [Fifo.length,fifoAt,ringRead_length,unclaimed]
  omega

lemma fifoAt_room (h : Ordered N p) : (fifoAt m N p).room = p.room N := by
  have h₁ := h.getTail_le
  have h₂ := h.getHead_le
  have h₃ := h.putTail_le
  simp only [Fifo.room,fifoAt,ringRead_length,room]
  omega

lemma fifoAt_next (h : Ordered N p) {k : ℕ} (hk : k ≤ p.unclaimed) :
    (fifoAt m N p).next k = ringRead m N p.getHead k := by
  have h₁ := h.getTail_le
  have h₂ := h.getHead_le
  unfold unclaimed at hk
  simp only [Fifo.next,fifoAt]
  rw [ringRead_drop (by omega),ringRead_take (by omega)]
  congr 1
  omega

lemma unreadCells_place {size : BitVec 32} (h : Ordered size.toNat p) :
    unreadCells (place m size p) = cellsFrom size.toNat p.getTail (p.putTail-p.getTail) := by
  obtain ⟨-,h₀,h₁,h₂,h₃,h₄,-,-,-,h₅,h₆,h₇⟩ := h
  have hlen : (BitVec.ofNat 32 p.putTail-BitVec.ofNat 32 p.getTail).toNat =
      p.putTail-p.getTail := ofNat_sub_toNat (by omega) (by omega)
  have hoff : (BitVec.ofNat 32 p.getTail-BitVec.ofNat 32 p.getBase).toNat =
      p.getTail-p.getBase := ofNat_sub_toNat (by omega) (by omega)
  simp only [unreadCells,place,hlen,hoff,cellsFrom]
  apply map_congr_left
  intro i hi
  have hi := mem_range.mp hi
  rw [mod_eq_of_base h₅ (by omega) (by omega)]
  split_ifs <;> omega

end Views

/-- The relation shows everything a caller can observe. -/
theorem Refines.agrees {w : World} {f : Fifo} (h : Refines w f) : Agrees w f := by
  obtain ⟨m,size,p,ho,rfl,rfl⟩ := h
  have h₁ := ho.getTail_le
  have h₂ := ho.getHead_le
  have h₃ := ho.putTail_le
  have h₄ := ho.putHead_le
  refine ⟨rfl,?_,?_,?_,?_,?_,?_,?_⟩
  · simp only [worldAt,unreadCells_place ho,map_cellsFrom,fifoAt]
    rfl
  · exact (map_cellsFrom _ _ _ _).symm
  · exact (sizeGet_place ho).trans (fifoAt_length ho).symm
  · exact (spaceGet_place ho).trans (fifoAt_room ho).symm
  · simp only [fifoAt,ringRead_length]
    omega
  · intro c hmem
    obtain ⟨i,hi,rfl⟩ := mem_cellsFrom.mp hmem
    exact mod_lt _ ho.size_pos
  · intro c hmem hunread
    simp only [worldAt,unreadCells_place ho] at hunread
    obtain ⟨i,hi,rfl⟩ := mem_cellsFrom.mp hmem
    obtain ⟨j,hj,heq⟩ := mem_cellsFrom.mp hunread
    exact mod_ne_of_lt (by omega) (by omega) heq

theorem refines_init {size : BitVec 32} (data : ℕ → UInt8) (hpos : 0 < size.toNat)
    (hlt : size.toNat < ringBufferMaxSize) : Refines ⟨ringBufInit size data,[]⟩ ⟨size.toNat,[],0,[]⟩ :=
  ⟨data,size,⟨0,0,0,0,0,0⟩,Ordered.init hpos hlt,rfl,rfl⟩

section Steps
variable {m : ℕ → UInt8} {size : BitVec 32} {p : Positions}

variable (m size p) in
/-- The call is one on the FIFO, and what it leaves holds one again. -/
abbrev Simulates (op : Op) : Prop :=
  ∃ m' p', Ordered size.toNat p' ∧ (step (worldAt m size p) op).1 = worldAt m' size p' ∧
    Fifo.Step (fifoAt m size.toNat p) op (step (worldAt m size p) op).2 (fifoAt m' size.toNat p')

lemma min_lt_max_size {n : BitVec 32} {a : ℕ} (ha : a ≤ size.toNat)
    (hlt : size.toNat < 0x80000000) : min n.toNat a < 0x80000000 := by omega

lemma room_le (N : ℕ) (p : Positions) : p.room N ≤ N := sub_le _ _

lemma unclaimed_le {N : ℕ} (h : Ordered N p) : p.unclaimed ≤ N := by
  obtain ⟨-,-,h₁,h₂,h₃,h₄,-,-,-,-,-,-⟩ := h
  unfold unclaimed
  omega

/-- `ring_buf_put` is the put of the FIFO. -/
theorem step_put (h : Ordered size.toNat p) (hsep : p.putHead = p.putTail)
    (data : ℕ → UInt8) (n : BitVec 32) : Simulates m size p (.put data n) := by
  set k := min n.toNat (p.room size.toNat) with hk
  have hkroom : k ≤ p.room size.toNat := min_le_right _ _
  have hklt : k < 0x80000000 := min_lt_max_size (room_le _ _) h.size_lt
  obtain ⟨m',hloop,hcopy⟩ := putLoop_place (n.toNat+1) (m := m) h 0 n data (lt_succ_self _)
  simp only [BitVec.ofNat_eq_ofNat,BitVec.zero_add] at hloop
  have hclaim := h.claimPut hkroom
  have hput : ringBufPut (place m size p) data n =
      (place m' size ((p.claimPut k).finishPut size.toNat k),BitVec.ofNat 32 k) := by
    simp only [ringBufPut,BitVec.ofNat_eq_ofNat,hloop]
    rw [putFinish_place hclaim,toNat_ofNat_of_lt hklt,if_neg]
    simp only [claimPut]
    omega
  obtain ⟨-,-,h₁,h₂,h₃,h₄,-,-,-,-,-,-⟩ := id h
  refine ⟨m',(p.claimPut k).finishPut size.toNat k,hclaim.finishPut ?_,?_,?_⟩
  · simp only [claimPut]
    omega
  · simp [step,hput,finishPut]
  · have hqueue : fifoAt m' size.toNat ((p.claimPut k).finishPut size.toNat k) =
        {fifoAt m size.toNat p with
          queue := (fifoAt m size.toNat p).queue ++ (range k).map data} := by
      simp only [fifoAt,finishPut,claimPut,Nat.sub_self,ringRead_zero,hsep]
      rw [show p.putTail+k-p.getTail = p.putTail-p.getTail+k by omega,ringRead_append,
        hcopy.kept _ _ le_rfl (by omega),
        show p.getTail+(p.putTail-p.getTail) = p.putHead by omega,hcopy.written]
    rw [hqueue]
    simp only [step,worldAt,hput,toNat_ofNat_of_lt hklt]
    simp only [hk,← fifoAt_room (m := m) h]
    exact Fifo.Step.put _ _ _

/-- `ring_buf_get` is the get of the FIFO. -/
theorem step_get (h : Ordered size.toNat p) (hsep : p.getHead = p.getTail)
    (data : Bool) (n : BitVec 32) : Simulates m size p (.get data n) := by
  set k := min n.toNat p.unclaimed with hk
  have hkle : k ≤ p.unclaimed := min_le_right _ _
  have hklt : k < 0x80000000 := min_lt_max_size (unclaimed_le h) h.size_lt
  have hclaim := h.claimGet hkle
  have hget : ringBufGet (place m size p) data n =
      (place m size ((p.claimGet k).finishGet size.toNat k),BitVec.ofNat 32 k,
        if data then some (ringRead m size.toNat p.getHead k) else none) := by
    simp only [ringBufGet,getLoop_place (n.toNat+1) h 0 n [] (lt_succ_self _),← hk]
    simp only [BitVec.ofNat_eq_ofNat,BitVec.zero_add,nil_append]
    rw [getFinish_place hclaim,toNat_ofNat_of_lt hklt,if_neg]
    simp only [claimGet]
    omega
  refine ⟨m,(p.claimGet k).finishGet size.toNat k,hclaim.finishGet ?_,?_,?_⟩
  · simp only [claimGet]
    omega
  · simp [step,hget]
  · have hqueue : fifoAt m size.toNat ((p.claimGet k).finishGet size.toNat k) =
        {fifoAt m size.toNat p with
          queue := (fifoAt m size.toNat p).queue.take (fifoAt m size.toNat p).claimed ++
            (fifoAt m size.toNat p).queue.drop ((fifoAt m size.toNat p).claimed+k)} := by
      unfold unclaimed at hkle
      simp only [fifoAt,finishGet,claimGet,hsep,Nat.sub_self,take_zero,nil_append,zero_add]
      rw [ringRead_drop (by omega),show p.putTail-(p.getTail+k) = p.putTail-p.getTail-k by omega]
    rw [hqueue]
    simp only [step,worldAt,hget,toNat_ofNat_of_lt hklt,← fifoAt_next h hkle]
    simp only [hk,← fifoAt_length (m := m) h]
    exact Fifo.Step.get _ _ _

theorem step_peek (h : Ordered size.toNat p) (hsep : p.getHead = p.getTail) (n : BitVec 32) :
    Simulates m size p (.peek n) := by
  set k := min n.toNat p.unclaimed with hk
  have hkle : k ≤ p.unclaimed := min_le_right _ _
  have hklt : k < 0x80000000 := min_lt_max_size (unclaimed_le h) h.size_lt
  have hclaim := h.claimGet hkle
  have hsize : ((if n < ringBufSizeGet (place m size p) then n
      else ringBufSizeGet (place m size p))).toNat = k := by
    rw [toNat_min,sizeGet_place h]
    rfl
  have hpeek : ringBufPeek (place m size p) n =
      (place m size ((p.claimGet k).finishGet size.toNat 0),BitVec.ofNat 32 k,
        ringRead m size.toNat p.getHead k) := by
    simp only [ringBufPeek]
    generalize (if n < ringBufSizeGet (place m size p) then n
      else ringBufSizeGet (place m size p)) = limit at hsize
    simp only [getLoop_place (limit.toNat+1) h 0 limit [] (lt_succ_self _)]
    simp only [hsize,min_eq_left hkle,BitVec.ofNat_eq_ofNat,BitVec.zero_add,nil_append]
    rw [getFinish_place hclaim,if_neg (by simp)]
    rfl
  refine ⟨m,(p.claimGet k).finishGet size.toNat 0,hclaim.finishGet (zero_le _),?_,?_⟩
  · simp [step,hpeek]
  · have hsame : fifoAt m size.toNat ((p.claimGet k).finishGet size.toNat 0) = fifoAt m size.toNat p := by
      simp [fifoAt,hsep]
    rw [hsame]
    simp only [step,worldAt,hpeek,toNat_ofNat_of_lt hklt,← fifoAt_next h hkle]
    simp only [hk,← fifoAt_length (m := m) h]
    exact Fifo.Step.peek _ _

lemma sliceCells_eq {H k : ℕ} (hN : 0 < size.toNat) (hslice : H % size.toNat+k ≤ size.toNat) (hk : k < 0x80000000) :
    sliceCells (H % size.toNat) (BitVec.ofNat 32 k) = cellsFrom size.toNat H k := by
  rw [sliceCells,toNat_ofNat_of_lt hk]
  exact (ringRead_slice (m := id) hN hslice).symm

lemma mem_cellsFrom_lt {N start len c : ℕ} (hN : 0 < N) (h : c ∈ cellsFrom N start len) : c < N := by
  obtain ⟨i,-,rfl⟩ := mem_cellsFrom.mp h
  exact mod_lt _ hN

section
variable (h : Ordered size.toNat p)
include h

theorem step_putClaim (n : BitVec 32) : Simulates m size p (.putClaim n) := by
  obtain ⟨hle,hslice,hzero⟩ := putGrant_cases h n.toNat
  set k := p.putGrant size.toNat n.toNat with hk
  have hkroom := hle.trans (min_le_right _ _)
  have hklt := lt_of_le_of_lt (hkroom.trans (room_le _ _)) h.size_lt
  have hcells := sliceCells_eq h.size_pos hslice hklt
  obtain ⟨-,-,h₁,h₂,h₃,h₄,-,-,-,-,-,-⟩ := id h
  have hgrow : p.putHead+k-p.putTail = p.putHead-p.putTail+k := by omega
  have hend : p.putTail+(p.putHead-p.putTail) = p.putHead := by omega
  refine ⟨m,p.claimPut k,h.claimPut hkroom,?_,?_⟩
  · simp only [step,worldAt,putClaim_place h n,← hk,hcells]
    congr 1
    simp only [claimPut,hgrow,cellsFrom_append,hend]
  · have hpending : fifoAt m size.toNat (p.claimPut k) = {fifoAt m size.toNat p with
        pending := (fifoAt m size.toNat p).pending ++ ringRead m size.toNat p.putHead k} := by
      simp only [fifoAt,claimPut,hgrow,ringRead_append,hend]
    rw [hpending]
    simp only [step,worldAt,putClaim_place h n,← hk,hcells]
    rw [show (place m size (p.claimPut k)).buffer = m from rfl,map_cellsFrom]
    rw [← fifoAt_room (m := m) h] at hle hzero
    refine Fifo.Step.putClaim _ _ _ _ (by simpa using hle) ?_ ?_ (by simp)
    · rw [cellsFrom_length]
      omega
    · intro c hc
      exact mem_cellsFrom_lt h.size_pos hc

theorem step_getClaim (n : BitVec 32) : Simulates m size p (.getClaim n) := by
  obtain ⟨hle,hslice,hzero⟩ := getGrant_cases h n.toNat
  set k := p.getGrant size.toNat n.toNat with hk
  have hkle := hle.trans (min_le_right _ _)
  have hklt := lt_of_le_of_lt (hkle.trans (unclaimed_le h)) h.size_lt
  have hcells := sliceCells_eq h.size_pos hslice hklt
  refine ⟨m,p.claimGet k,h.claimGet hkle,?_,?_⟩
  · simp only [step,worldAt,getClaim_place h n,← hk]
    rfl
  · have hclaimed : fifoAt m size.toNat (p.claimGet k) = {fifoAt m size.toNat p with
        claimed := (fifoAt m size.toNat p).claimed+(cellsFrom size.toNat p.getHead k).length} := by
      have h₁ := h.getTail_le
      simp only [fifoAt,claimGet,cellsFrom_length]
      congr 1
      omega
    rw [hclaimed]
    simp only [step,worldAt,getClaim_place h n,← hk,hcells]
    rw [show (place m size (p.claimGet k)).buffer = m from rfl,map_cellsFrom,← fifoAt_next h hkle]
    rw [← fifoAt_length (m := m) h] at hle hzero
    have hstep := Fifo.Step.getClaim (fifoAt m size.toNat p) n
      (cellsFrom size.toNat p.getHead k) (by simpa using hle)
      (by rw [cellsFrom_length]; omega) (fun c hc => mem_cellsFrom_lt h.size_pos hc)
    simpa using hstep

/-- The caller writes to the area it has claimed. -/
theorem step_write (i : ℕ) (v : UInt8) : Simulates m size p (.write i v) := by
  obtain ⟨-,-,h₁,h₂,h₃,h₄,-,-,-,-,-,-⟩ := id h
  have hlen : p.putHead-p.putTail ≤ size.toNat := by omega
  by_cases hi : i < p.putHead-p.putTail
  · have hcell : (cellsFrom size.toNat p.putTail (p.putHead-p.putTail))[i]? =
        some ((p.putTail+i) % size.toNat) := by simp [hi]
    have hfifo : fifoAt (update m ((p.putTail+i) % size.toNat) v) size.toNat p =
        {fifoAt m size.toNat p with pending := (fifoAt m size.toNat p).pending.set i v} := by
      simp only [fifoAt]
      rw [ringRead_update v hlen hi,ringRead_update_of_disjoint v (by omega) (by omega)]
    refine ⟨update m ((p.putTail+i) % size.toNat) v,p,h,?_,?_⟩
    · simp only [step,worldAt,hcell]
      rfl
    · rw [hfifo]
      simp only [step,worldAt,hcell]
      exact Fifo.Step.write _ _ _
  · have hcell : (cellsFrom size.toNat p.putTail (p.putHead-p.putTail))[i]? = none := by
      simp [hi]
    have hfifo : fifoAt m size.toNat p =
        {fifoAt m size.toNat p with pending := (fifoAt m size.toNat p).pending.set i v} := by
      rw [set_eq_of_length_le]
      simp only [fifoAt,ringRead_length]
      omega
    refine ⟨m,p,h,?_,?_⟩
    · simp only [step,worldAt,hcell]
    · nth_rewrite 2 [hfifo]
      simp only [step,worldAt,hcell]
      exact Fifo.Step.write _ _ _

theorem step_putFinish (n : BitVec 32) : Simulates m size p (.putFinish n) := by
  obtain ⟨-,-,h₁,h₂,h₃,h₄,-,-,-,-,-,-⟩ := id h
  have hpending : (fifoAt m size.toNat p).pending.length = p.putHead-p.putTail := by simp [fifoAt]
  by_cases hn : p.putHead-p.putTail < n.toNat
  · refine ⟨m,p,h,?_,?_⟩
    · simp [step,putFinish_place h n,hn,EINVAL]
    · simp only [step,worldAt,putFinish_place h n,if_pos hn]
      exact Fifo.Step.putFinish_fails _ _ (by omega)
  · refine ⟨m,p.finishPut size.toNat n.toNat,h.finishPut (by omega),?_,?_⟩
    · simp [step,putFinish_place h n,hn,finishPut]
    · have hfifo : fifoAt m size.toNat (p.finishPut size.toNat n.toNat) =
          {fifoAt m size.toNat p with
            queue := (fifoAt m size.toNat p).queue ++
              (fifoAt m size.toNat p).pending.take n.toNat
            pending := []} := by
        simp only [fifoAt,finishPut,Nat.sub_self,ringRead_zero]
        rw [ringRead_take (by omega),
          show p.putTail+n.toNat-p.getTail = p.putTail-p.getTail+n.toNat by omega,ringRead_append,
          show p.getTail+(p.putTail-p.getTail) = p.putTail by omega]
      rw [hfifo]
      simp only [step,worldAt,putFinish_place h n,if_neg hn]
      exact Fifo.Step.putFinish _ _ (by omega)

theorem step_getFinish (n : BitVec 32) : Simulates m size p (.getFinish n) := by
  obtain ⟨-,-,h₁,h₂,h₃,h₄,-,-,-,-,-,-⟩ := id h
  by_cases hn : p.getHead-p.getTail < n.toNat
  · refine ⟨m,p,h,?_,?_⟩
    · simp [step,getFinish_place h n,hn]
    · simp only [step,worldAt,getFinish_place h n,if_pos hn]
      exact Fifo.Step.getFinish_fails _ _ hn
  · refine ⟨m,p.finishGet size.toNat n.toNat,h.finishGet (by omega),?_,?_⟩
    · simp [step,getFinish_place h n,hn]
    · have hfifo : fifoAt m size.toNat (p.finishGet size.toNat n.toNat) =
          {fifoAt m size.toNat p with
            queue := (fifoAt m size.toNat p).queue.drop n.toNat
            claimed := 0} := by
        simp only [fifoAt,finishGet,Nat.sub_self]
        rw [ringRead_drop (by omega),
          show p.putTail-(p.getTail+n.toNat) = p.putTail-p.getTail-n.toNat by omega]
      rw [hfifo]
      simp only [step,worldAt,getFinish_place h n,if_neg hn]
      exact Fifo.Step.getFinish _ _ (by simp only [fifoAt]; omega)

end

/-- Every call that keeps to its side's claims is a call on the FIFO. -/
theorem Refines.step {w : World} {f : Fifo} (h : Refines w f) {op : Op} (hsep : Separate w op) :
    ∃ f', Fifo.Step f op (step w op).2 f' ∧ Refines (step w op).1 f' := by
  obtain ⟨m,size,p,ho,rfl,rfl⟩ := h
  obtain ⟨-,h₀,h₁,h₂,h₃,h₄,-,-,-,-,-,-⟩ := id ho
  have hstep : Simulates m size p op := by
    cases op with
    | put data n => exact step_put ho ((counter_eq_iff h₀ h₃ (by omega)).mp hsep) data n
    | get data n => exact step_get ho ((counter_eq_iff h₀ h₁ (by omega)).mp hsep) data n
    | peek n => exact step_peek ho ((counter_eq_iff h₀ h₁ (by omega)).mp hsep) n
    | putClaim n => exact step_putClaim ho n
    | write i v => exact step_write ho i v
    | putFinish n => exact step_putFinish ho n
    | getClaim n => exact step_getClaim ho n
    | getFinish n => exact step_getFinish ho n
  obtain ⟨m',p',ho',hw,hs⟩ := hstep
  exact ⟨_,hs,m',size,p',ho',hw,rfl⟩

end Steps

/-- A call of a run in which copying calls stay out of each other's claims. -/
def SeparateStep (w : World) (op : Op) (out : Reply) (w' : World) : Prop :=
  Separate w op ∧ step w op = (w',out)

/-- Over every run, of any length and so past any wrap of the counters, the replies are
those of a bounded FIFO, and the final buffer shows the final FIFO: its bytes, its length
and room, and claimed slices that lie in the array apart from every unread byte. -/
theorem separate_runs_are_fifo {size : BitVec 32} (data : ℕ → UInt8) (hpos : 0 < size.toNat)
    (hlt : size.toNat < ringBufferMaxSize) {ops : List Op} {outs : List Reply} {w : World}
    (h : Trace SeparateStep ⟨ringBufInit size data,[]⟩ ops outs w) :
    ∃ f, Trace Fifo.Step ⟨size.toNat,[],0,[]⟩ ops outs f ∧ Agrees w f := by
  obtain ⟨f,ht,hr⟩ := h.simulation
    (fun w op out w' f hr hs => by
      obtain ⟨f',hf,hr'⟩ := hr.step hs.1
      rw [hs.2] at hf hr'
      exact ⟨f',hf,hr'⟩)
    (refines_init data hpos hlt)
  exact ⟨f,ht,hr.agrees⟩

def letters (i : ℕ) : UInt8 := UInt8.ofNat (65+i)

/-- A three-byte buffer: two bytes in, one out, then a claim that stops at the end of the
array, a store into it, and its finish. -/
theorem separate_runs_are_fifo_wrapping : ∃ outs w f,
    Trace SeparateStep ⟨ringBufInit 3 fun _ => 0,[]⟩
      [.put letters 2,.get true 1,.putClaim 2,.write 0 90,.putFinish 1,.get true 5] outs w ∧
    Trace Fifo.Step ⟨3,[],0,[]⟩
      [.put letters 2,.get true 1,.putClaim 2,.write 0 90,.putFinish 1,.get true 5] outs f ∧
    Agrees w f := by
  have h : Trace SeparateStep ⟨ringBufInit 3 fun _ => 0,[]⟩
      [.put letters 2,.get true 1,.putClaim 2,.write 0 90,.putFinish 1,.get true 5] _ _ :=
    .cons ⟨by decide,rfl⟩ (.cons ⟨by decide,rfl⟩ (.cons ⟨by decide,rfl⟩
      (.cons ⟨by decide,rfl⟩ (.cons ⟨by decide,rfl⟩ (.cons ⟨by decide,rfl⟩ (.nil _))))))
  obtain ⟨f,hf⟩ := separate_runs_are_fifo (fun _ => 0) (by decide) (by decide) h
  exact ⟨_,_,f,h,hf⟩

/-- A copying get made while a get claim is outstanding finishes that claim instead of its
own: the bytes it delivered stay in the queue and come out again. -/
theorem mixed_runs_are_not_fifo :
    ¬ ∀ (size : BitVec 32) (data : ℕ → UInt8), 0 < size.toNat →
      size.toNat < ringBufferMaxSize → ∀ (ops : List Op) (outs : List Reply) (w : World),
      Trace (fun w op out w' => step w op = (w',out)) ⟨ringBufInit size data,[]⟩ ops outs w →
      ∃ f, Trace Fifo.Step ⟨size.toNat,[],0,[]⟩ ops outs f ∧ Agrees w f := by
  intro h
  have hrun := Trace.of_serve step ⟨ringBufInit 8 fun _ => 0,[]⟩
    [.put letters 4,.getClaim 2,.get true 2,.get true 2]
  obtain ⟨f,hf,-⟩ := h 8 (fun _ => 0) (by decide) (by decide) _ _ _ hrun
  -- the FIFO is left with the claimed bytes only, so its second get delivers nothing
  cases hf with | cons h₁ hf => cases h₁ with | put =>
  cases hf with | cons h₂ hf => cases h₂ with | getClaim =>
  cases hf with | cons h₃ hf => cases h₃ with | get =>
  cases hf with | cons h₄ hf => cases h₄

end ArmFirmware.Zephyr.RingBuffer
