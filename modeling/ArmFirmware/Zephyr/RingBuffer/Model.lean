import ArmFirmware.Library.RingWindow

/-! The byte and item interfaces of `lib/utils/ring_buffer.c`. Indices are free-running
32-bit counters; the data area is a map from cell numbers to bytes. -/
namespace ArmFirmware.Zephyr.RingBuffer
open Library

/-- `struct ring_buf`. -/
structure RingBuf where
  buffer : ℕ → UInt8
  putHead : BitVec 32
  putTail : BitVec 32
  putBase : BitVec 32
  getHead : BitVec 32
  getTail : BitVec 32
  getBase : BitVec 32
  size : BitVec 32

def EINVAL : ℤ := 22
def EMSGSIZE : ℤ := 90
def EAGAIN : ℤ := 11

/-- The limit that tells an empty buffer from a full one, `RING_BUFFER_MAX_SIZE`. -/
def ringBufferMaxSize : ℕ := 0x80000000

def ringBufInit (size : BitVec 32) (data : ℕ → UInt8) : RingBuf :=
  ⟨data,0,0,0,0,0,0,size⟩

def ringBufIsEmpty (b : RingBuf) : Bool := b.getHead == b.putTail
def ringBufSpaceGet (b : RingBuf) : BitVec 32 := b.size-(b.putHead-b.getTail)
def ringBufSizeGet (b : RingBuf) : BitVec 32 := b.putTail-b.getHead

/-- The body shared by the two claim functions: the cell the slice starts in, and its
length, limited by what is available and by the end of the array. -/
def claimSlice (bufSize base head available size : BitVec 32) : ℕ × BitVec 32 :=
  let wrapSize := head-base
  -- the base is adjusted lazily, by the next finish
  let late := decide (bufSize ≤ wrapSize)
  let wrapSize := if late then wrapSize-bufSize else wrapSize
  let base := if late then base+bufSize else base
  let wrapSize := bufSize-wrapSize
  let size := if size < available then size else available
  let size := if size < wrapSize then size else wrapSize
  ((head-base).toNat,size)

/-- The body shared by the two finish functions, on the tail and base of one side. -/
def finishIndex (bufSize base tail size : BitVec 32) : BitVec 32 × BitVec 32 :=
  let tail := tail+size
  let wrapSize := tail-base
  (tail,if bufSize ≤ wrapSize then base+bufSize else base)

def ringBufPutClaim (b : RingBuf) (size : BitVec 32) : RingBuf × ℕ × BitVec 32 :=
  let slice := claimSlice b.size b.putBase b.putHead (ringBufSpaceGet b) size
  ({b with putHead := b.putHead+slice.2},slice.1,slice.2)

def ringBufPutFinish (b : RingBuf) (size : BitVec 32) : RingBuf × ℤ :=
  let finishSpace := b.putHead-b.putTail
  if finishSpace < size then (b,-EINVAL)
  else
    let index := finishIndex b.size b.putBase b.putTail size
    ({b with putTail := index.1, putHead := index.1, putBase := index.2},0)

def ringBufGetClaim (b : RingBuf) (size : BitVec 32) : RingBuf × ℕ × BitVec 32 :=
  let slice := claimSlice b.size b.getBase b.getHead (ringBufSizeGet b) size
  ({b with getHead := b.getHead+slice.2},slice.1,slice.2)

def ringBufGetFinish (b : RingBuf) (size : BitVec 32) : RingBuf × ℤ :=
  let finishSpace := b.getHead-b.getTail
  if finishSpace < size then (b,-EINVAL)
  else
    let index := finishIndex b.size b.getBase b.getTail size
    ({b with getTail := index.1, getHead := index.1, getBase := index.2},0)

/-- State of the copying loops: bytes done so far, bytes still wanted. -/
structure Progress where
  buf : RingBuf
  totalSize : BitVec 32
  size : BitVec 32

/-- `do { claim; memcpy; … } while (size && partial_size)` of the put functions. Every
round but the last copies a byte, so `size + 1` rounds suffice. -/
def putLoop : ℕ → Progress → (ℕ → UInt8) → Progress
  | 0,s,_ => s
  | rounds+1,s,data =>
    let claim := ringBufPutClaim s.buf s.size
    let dst := claim.2.1
    let partialSize := claim.2.2
    let buf := {claim.1 with buffer := blit claim.1.buffer dst partialSize.toNat data}
    let next : Progress := ⟨buf,s.totalSize+partialSize,s.size-partialSize⟩
    if next.size ≠ 0 ∧ partialSize ≠ 0 then
      putLoop rounds next (fun i => data (partialSize.toNat+i))
    else next

def ringBufPut (b : RingBuf) (data : ℕ → UInt8) (size : BitVec 32) : RingBuf × BitVec 32 :=
  let s := putLoop (size.toNat+1) ⟨b,0,size⟩ data
  ((ringBufPutFinish s.buf s.totalSize).1,s.totalSize)

/-- The copying loop of the get functions; the list is what was copied out. -/
def getLoop : ℕ → Progress → List UInt8 → Progress × List UInt8
  | 0,s,out => (s,out)
  | rounds+1,s,out =>
    let claim := ringBufGetClaim s.buf s.size
    let src := claim.2.1
    let partialSize := claim.2.2
    let out := out ++ (List.range partialSize.toNat).map fun i => claim.1.buffer (src+i)
    let next : Progress := ⟨claim.1,s.totalSize+partialSize,s.size-partialSize⟩
    if next.size ≠ 0 ∧ partialSize ≠ 0 then getLoop rounds next out else (next,out)

/-- `ring_buf_get`. The bytes reach the caller only if it passed a buffer; discarding
them with a null pointer consumes them all the same. -/
def ringBufGet (b : RingBuf) (data : Bool) (size : BitVec 32) : RingBuf × BitVec 32 × Option (List UInt8) :=
  let r := getLoop (size.toNat+1) ⟨b,0,size⟩ []
  ((ringBufGetFinish r.1.buf r.1.totalSize).1,r.1.totalSize,
    if data then some r.2 else none)

/-- `ring_buf_peek`: claims what it copies and then finishes with zero, unclaiming it. -/
def ringBufPeek (b : RingBuf) (size : BitVec 32) : RingBuf × BitVec 32 × List UInt8 :=
  let available := ringBufSizeGet b
  let size := if size < available then size else available
  let r := getLoop (size.toNat+1) ⟨b,0,size⟩ []
  ((ringBufGetFinish r.1.buf 0).1,r.1.totalSize,r.2)

def wordBytes (data32 : ℕ → BitVec 32) (i : ℕ) : UInt8 :=
  UInt8.ofNat ((data32 (i/4)).toNat / 256^(i%4))

def wordAt (bytes : ℕ → UInt8) (k : ℕ) : BitVec 32 :=
  BitVec.ofNat 32 ((bytes (4*k)).toNat+256*(bytes (4*k+1)).toNat+
    65536*(bytes (4*k+2)).toNat+16777216*(bytes (4*k+3)).toNat)

/-- The four bytes of `struct ring_element`: type, then length in words, then value. -/
def ringElement (type : BitVec 16) (length value : UInt8) (i : ℕ) : UInt8 :=
  match i with
  | 0 => UInt8.ofNat type.toNat
  | 1 => UInt8.ofNat (type.toNat / 256)
  | 2 => length
  | _ => value

def ringBufItemPut (b : RingBuf) (type : BitVec 16) (value : UInt8)
    (data32 : ℕ → BitVec 32) (size32 : UInt8) : RingBuf × ℤ :=
  let space := ringBufSpaceGet b
  let size := BitVec.ofNat 32 (size32.toNat*4)
  if space < size+4 then (b,-EMSGSIZE)
  else
    let claim := ringBufPutClaim b 4
    let header := blit claim.1.buffer claim.2.1 4 (ringElement type size32 value)
    let s := putLoop (size.toNat+1) ⟨{claim.1 with buffer := header},4,size⟩
      (wordBytes data32)
    ((ringBufPutFinish s.buf s.totalSize).1,0)

structure ItemOut where
  type : BitVec 16
  value : UInt8
  size32 : UInt8
  data32 : Option (List (BitVec 32))
  deriving DecidableEq

inductive ItemGet where
  | again
  | msgsize (size32 : UInt8)
  | item (out : ItemOut)
  deriving DecidableEq

def ItemGet.ret : ItemGet → ℤ
  | .again => -EAGAIN
  | .msgsize _ => -EMSGSIZE
  | .item _ => 0

/-- `ring_buf_item_get`. `data` tells whether the caller passed a data buffer; without
one the size limit is not looked at. -/
def ringBufItemGet (b : RingBuf) (data : Bool) (size32 : UInt8) : RingBuf × ItemGet :=
  if ringBufIsEmpty b then (b,.again)
  else
    let claim := ringBufGetClaim b 4
    let at' := fun i => claim.1.buffer (claim.2.1+i)
    let length := at' 2
    if data ∧ size32 < length then ((ringBufGetFinish claim.1 0).1,.msgsize length)
    else
      let size := BitVec.ofNat 32 (length.toNat*4)
      let r := getLoop (size.toNat+1) ⟨claim.1,4,size⟩ []
      ((ringBufGetFinish r.1.buf r.1.totalSize).1,
        .item ⟨BitVec.ofNat 16 ((at' 0).toNat+256*(at' 1).toNat),at' 3,length,
          if data then some ((List.range length.toNat).map (wordAt fun i => r.2.getD i 0))
          else none⟩)

end ArmFirmware.Zephyr.RingBuffer
