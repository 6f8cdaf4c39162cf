import ArmFirmware.Library.Alignment
import ArmFirmware.Zephyr.Crc
import ArmFirmware.Library.Trace

/-! `subsys/fs/nvs`. Addresses are numbers of 32 bits, with the sector in the upper half. Flash
never fails; the lookup cache and the data CRC are not configured. Loops have a bound that a correct
file system does not reach. -/
namespace ArmFirmware.Zephyr.Nvs
open Library List

/-- A geometry that `nvs_mount` accepts, and how the cells of the flash take a new value. -/
structure Device where
  sectorSize : ℕ
  sectorCount : ℕ
  /-- The write block has `2^blockLog` bytes. -/
  blockLog : ℕ
  eraseValue : BitVec 8
  program : BitVec 8 → BitVec 8 → BitVec 8
  sectorSize_pos : 0 < sectorSize
  sectorSize_lt : sectorSize < 2^16
  two_le_sectorCount : 2 ≤ sectorCount
  sectorCount_lt : sectorCount < 2^16
  blockLog_le : blockLog ≤ 5
  eraseValue_eq : eraseValue = 0xff ∨ eraseValue = 0
  program_eraseValue : ∀ b, program eraseValue b = b

structure Ate where
  id : ℕ
  offset : ℕ
  len : ℕ
  part : BitVec 8
  crc8 : BitVec 8
  deriving DecidableEq

namespace Ate

def halfword (n : ℕ) : List (BitVec 8) := [BitVec.ofNat 8 n,BitVec.ofNat 8 (n/2^8)]

def front (a : Ate) : List (BitVec 8) := halfword a.id++halfword a.offset++halfword a.len++[a.part]

def bytes (a : Ate) : List (BitVec 8) := a.front++[a.crc8]

def ofBytes (b : ℕ → BitVec 8) : Ate :=
  ⟨(b 0).toNat+2^8*(b 1).toNat,(b 2).toNat+2^8*(b 3).toNat,(b 4).toNat+2^8*(b 5).toNat,b 6,b 7⟩

def crc8Update (a : Ate) : Ate := { a with crc8 := crc8Ccitt 0xff a.front }

def crc8Check (a : Ate) : Bool := crc8Ccitt 0xff a.front = a.crc8

def cmpConst (a : Ate) (value : BitVec 8) : Bool := a.bytes.all (· = value)

end Ate

/-- The write addresses in RAM, and the contents of the flash from `fs->offset` on. -/
structure Fs where
  ateWra : ℕ
  dataWra : ℕ
  flash : ℕ → BitVec 8

def Fs.fill (fs : Fs) (flash : ℕ → BitVec 8) : Fs := { fs with flash := flash }

/-- A file system with the states it has gone through, the last one first: one for each write block
programmed, for each sector erased and for each change of a write address. -/
structure Trail where
  fs : Fs
  past : List Fs

def Trail.set (t : Trail) (fs : Fs) : Trail := ⟨fs,t.fs::t.past⟩

section Routines
variable (d : Device)

def Device.writeBlockSize : ℕ := 2^d.blockLog

def alSize (len : ℕ) : ℕ := ceilTo d.writeBlockSize len

def ateSize : ℕ := alSize d 8

/-- `k` entries less than the size of a sector, with a subtraction of 32 bits. -/
def below (k : ℕ) : ℕ := (d.sectorSize+(2^32-k*ateSize d))%2^32

def place (addr : ℕ) : ℕ := d.sectorSize*(addr/2^16)+addr%2^16

def programCells (flash : ℕ → BitVec 8) (offset : ℕ) (data : List (BitVec 8)) : ℕ → BitVec 8 :=
  fun i => if offset ≤ i ∧ i < offset+data.length then d.program (flash i) (data.getD (i-offset) 0) else flash i

def flashWrite (t : Trail) (offset : ℕ) (data : List (BitVec 8)) : Trail :=
  (range (data.length/d.writeBlockSize)).foldl (fun t i =>
    let block := (data.drop (i*d.writeBlockSize)).take d.writeBlockSize
    t.set (t.fs.fill (programCells d t.fs.flash (offset+i*d.writeBlockSize) block))) t

def flashAlWrt (t : Trail) (addr : ℕ) (data : List (BitVec 8)) : Trail :=
  let offset := place d addr
  let blen := data.length/d.writeBlockSize*d.writeBlockSize
  let t := flashWrite d t offset (data.take blen)
  let rest := data.drop blen
  if rest ≠ [] then flashWrite d t (offset+blen) (rest++replicate (d.writeBlockSize-rest.length) d.eraseValue) else t

def flashRd (fs : Fs) (addr len : ℕ) : List (BitVec 8) := (range len).map fun i => fs.flash (place d addr+i)

def flashAteRd (fs : Fs) (addr : ℕ) : Ate := Ate.ofBytes fun i => fs.flash (place d addr+i)

def flashAteWrt (t : Trail) (entry : Ate) : Trail :=
  let t := flashAlWrt d t t.fs.ateWra entry.bytes
  t.set { t.fs with ateWra := (t.fs.ateWra+(2^32-ateSize d))%2^32 }

def flashDataWrt (t : Trail) (data : List (BitVec 8)) : Trail :=
  let t := flashAlWrt d t t.fs.dataWra data
  t.set { t.fs with dataWra := (t.fs.dataWra+alSize d data.length)%2^32 }

def flashBlockCmp (fs : Fs) (addr : ℕ) (data : List (BitVec 8)) : Bool := flashRd d fs addr data.length = data

def flashCmpConst (fs : Fs) (addr : ℕ) (value : BitVec 8) (len : ℕ) : Bool := (flashRd d fs addr len).all (· = value)

/-- `nvs_flash_block_move`, in pieces of NVS_BLOCK_SIZE bytes. -/
def flashBlockMove (t : Trail) (addr len : ℕ) : Trail :=
  (range ((len+31)/32)).foldl (fun t i => flashDataWrt d t (flashRd d t.fs (addr+32*i) (min 32 (len-32*i)))) t

def flashEraseSector (t : Trail) (addr : ℕ) : Trail :=
  let offset := d.sectorSize*(addr/2^16)
  t.set (t.fs.fill fun i => if offset ≤ i ∧ i < offset+d.sectorSize then d.eraseValue else t.fs.flash i)

def ateValid (entry : Ate) : Bool := entry.crc8Check ∧ entry.offset+entry.len < below d 1

def closeAteValid (entry : Ate) : Bool :=
  ateValid d entry ∧ entry.len = 0 ∧ entry.id = 0xffff ∧ (d.sectorSize+(2^32-entry.offset))%2^32%ateSize d = 0

def newAte (id offset len : ℕ) : Ate := Ate.crc8Update ⟨id,offset,len,0xff,0⟩

def flashWrtEntry (t : Trail) (id : ℕ) (data : List (BitVec 8)) : Trail :=
  let entry := newAte id (t.fs.dataWra%2^16) (data.length%2^16)
  flashAteWrt d (flashDataWrt d t data) entry

end Routines

inductive Errno
  | EINVAL
  | ENOENT
  | ENOSPC
  | EDEADLK
  | ESPIPE
  deriving DecidableEq

section Functions
variable (d : Device)

def recoverLoop (fs : Fs) : ℕ → (ateEnd dataEnd addr : ℕ) → Option ℕ
  | 0,_,_,_ => none
  | fuel+1,ateEnd,dataEnd,addr =>
    if dataEnd < ateEnd then
      let endAte := flashAteRd d fs ateEnd
      if ateValid d endAte then
        recoverLoop fs fuel ((ateEnd+(2^32-ateSize d))%2^32) (dataEnd/2^16*2^16+endAte.offset+endAte.len) ateEnd
      else recoverLoop fs fuel ((ateEnd+(2^32-ateSize d))%2^32) dataEnd addr
    else some addr

def recoverLastAte (fs : Fs) (addr : ℕ) : Option ℕ :=
  let addr := (addr+(2^32-ateSize d))%2^32
  recoverLoop d fs (d.sectorSize+1) addr (addr/2^16*2^16) addr

/-- The address of the last entry of a sector, from that of its closing entry. -/
def lastAte (fs : Fs) (addr : ℕ) (closeAte : Ate) : Option ℕ :=
  if closeAteValid d closeAte then some (addr/2^16*2^16+closeAte.offset) else recoverLastAte d fs addr

/-- `nvs_prev_ate`: the next address and the entry. -/
def prevAte (fs : Fs) (addr : ℕ) : Option (ℕ × Ate) :=
  let ate := flashAteRd d fs addr
  let addr := (addr+ateSize d)%2^32
  if addr%2^16 ≠ below d 1 then some (addr,ate)
  else
    let addr := if addr/2^16 = 0 then (addr+(d.sectorCount-1)*2^16)%2^32 else (addr+(2^32-2^16))%2^32
    let closeAte := flashAteRd d fs addr
    if closeAte.cmpConst d.eraseValue then some (fs.ateWra,ate)
    else (lastAte d fs addr closeAte).map fun addr => (addr,ate)

def sectorAdvance (addr : ℕ) : ℕ :=
  let addr := (addr+2^16)%2^32
  if addr/2^16 = d.sectorCount then (addr+(2^32-d.sectorCount*2^16))%2^32 else addr

def sectorClose (t : Trail) : Trail :=
  let closeAte := newAte 0xffff ((t.fs.ateWra+ateSize d)%2^16) 0
  let t := t.set { t.fs with ateWra := (t.fs.ateWra/2^16*2^16+below d 1)%2^32 }
  let t := flashAteWrt d t closeAte
  let ateWra := sectorAdvance d t.fs.ateWra
  t.set { t.fs with ateWra := ateWra, dataWra := ateWra/2^16*2^16 }

def addGcDoneAte (t : Trail) : Trail := flashAteWrt d t (newAte 0xffff (t.fs.dataWra%2^16) 0)

/-- The walk from an address to the next valid entry of an id: whether there is one, the address of
the last entry that was read, and that entry. -/
def findAte (fs : Fs) (id : ℕ) : ℕ → ℕ → Option (Bool × ℕ × Ate)
  | 0,_ => none
  | fuel+1,addr =>
    (prevAte d fs addr).bind fun (next,ate) =>
      if ate.id = id ∧ ateValid d ate then some (true,addr,ate)
      else if next = fs.ateWra then some (false,addr,ate)
      else findAte fs id fuel next

/-- More than all entries. -/
def walkBound : ℕ := d.sectorCount*d.sectorSize+1

/-- Move one entry to the current sector if it is the last one of its id. -/
def gcMove (t : Trail) (addr : ℕ) (ate : Ate) : Option Trail :=
  if ateValid d ate then
    (findAte d t.fs ate.id (walkBound d) t.fs.ateWra).map fun (_,prev,_) =>
      if prev = addr ∧ ate.len ≠ 0 then
        let moved := Ate.crc8Update { ate with offset := t.fs.dataWra%2^16 }
        flashAteWrt d (flashBlockMove d t (addr/2^16*2^16+ate.offset) ate.len) moved
      else t
  else some t

def gcLoop (stopAddr : ℕ) : ℕ → Trail → ℕ → Option Trail
  | 0,_,_ => none
  | fuel+1,t,gcAddr =>
    (prevAte d t.fs gcAddr).bind fun (next,ate) =>
      (gcMove d t gcAddr ate).bind fun t =>
        if gcAddr = stopAddr then some t else gcLoop stopAddr fuel t next

def gc (t : Trail) : Option Trail :=
  let secAddr := sectorAdvance d (t.fs.ateWra/2^16*2^16)
  let gcAddr := (secAddr+below d 1)%2^32
  let closeAte := flashAteRd d t.fs gcAddr
  let collected :=
    if closeAte.cmpConst d.eraseValue then some t
    else (lastAte d t.fs gcAddr closeAte).bind fun last => gcLoop d ((gcAddr+(2^32-ateSize d))%2^32)
      (d.sectorSize+1) t last
  collected.map fun t =>
    let t := if (t.fs.dataWra+ateSize d)%2^32 ≤ t.fs.ateWra then addGcDoneAte d t else t
    flashEraseSector d t secAddr

/-- The loop of `nvs_write` under the lock, for a call with `len` bytes. -/
def writeLoop (wrtEntry : Trail → Trail) (len requiredSpace : ℕ) : ℕ → Trail → Option (Trail × Except Errno ℕ)
  | 0,t => some (t,.error .ENOSPC)
  | left+1,t =>
    if (t.fs.dataWra+requiredSpace)%2^32 ≤ t.fs.ateWra then some (wrtEntry t,.ok len)
    else (gc d (sectorClose d t)).bind (writeLoop wrtEntry len requiredSpace left)

/-- Whether the last entry of the id makes the call of `nvs_write` superfluous. -/
def duplicate (fs : Fs) (len : ℕ) (compared : List (BitVec 8)) : Bool × ℕ × Ate → Bool
  | (true,addr,ate) =>
    if len = 0 then ate.len = 0
    else compared.length = ate.len ∧ flashBlockCmp d fs (addr/2^16*2^16+ate.offset) compared
  | (false,_,_) => len = 0

/-- `nvs_write` behind the check of the length, with the bytes that it compares to the last entry
and the size of the data CRC. -/
def writeChecked (t : Trail) (id len : ℕ) (compared : List (BitVec 8)) (crcSize : ℕ) (wrtEntry : Trail → Trail) :
    Option (Trail × Except Errno ℕ) :=
  (findAte d t.fs id (walkBound d) t.fs.ateWra).bind fun found =>
    if duplicate d t.fs len compared found then some (t,.ok 0)
    else
      let dataSize := alSize d len
      let requiredSpace := if dataSize ≠ 0 then (dataSize+ateSize d+crcSize)%2^16 else 0
      writeLoop d wrtEntry len requiredSpace d.sectorCount t

def write (t : Trail) (id : ℕ) (data : List (BitVec 8)) : Option (Trail × Except Errno ℕ) :=
  if data.length > below d 4 then some (t,.error .EINVAL)
  else writeChecked d t id data.length data 0 fun t => flashWrtEntry d t id data

def delete (t : Trail) (id : ℕ) : Option (Trail × Except Errno ℕ) := write d t id []

/-- The loop of `nvs_read_hist`: the next address, the address of the last entry that was read, that
entry and the number of entries of the id. -/
def histLoop (fs : Fs) (id cnt : ℕ) : (fuel cntHis addr : ℕ) → Option (ℕ × ℕ × Ate × ℕ)
  | 0,_,_ => none
  | fuel+1,cntHis,addr =>
    (prevAte d fs addr).bind fun (next,ate) =>
      let cntHis := if ate.id = id ∧ ateValid d ate then (cntHis+1)%2^16 else cntHis
      if next = fs.ateWra ∨ cnt < cntHis then some (next,addr,ate,cntHis)
      else histLoop fs id cnt fuel cntHis next

/-- `nvs_read_hist` into a buffer of `len` bytes: the length of the entry and the bytes that are read. -/
def readHist (fs : Fs) (id len cnt : ℕ) : Option (Except Errno (ℕ × List (BitVec 8))) :=
  if len > below d 2 then some (.error .EINVAL)
  else
    (histLoop d fs id cnt (walkBound d) 0 fs.ateWra).map fun (next,addr,ate,cntHis) =>
      if next = fs.ateWra ∧ ate.id ≠ id ∨ ate.len = 0 ∨ cntHis < cnt then .error .ENOENT
      else .ok (ate.len,flashRd d fs (addr/2^16*2^16+ate.offset) (min len ate.len))

def read (fs : Fs) (id len : ℕ) : Option (Except Errno (ℕ × List (BitVec 8))) := readHist d fs id len 0

end Functions

end ArmFirmware.Zephyr.Nvs
