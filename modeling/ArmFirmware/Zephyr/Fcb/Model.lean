import ArmFirmware.Library.Alignment
import ArmFirmware.Library.Trace
import ArmFirmware.Zephyr.Crc

/-! `subsys/fs/fcb` on flash that never fails. The sectors are numbered, and each one has its cells;
offsets in a sector are far from 2^32. -/
namespace ArmFirmware.Zephyr.Fcb
open Library

inductive Errno
  | EINVAL
  | EIOError
  | ENOTSUP
  | EBADMSG
  | ENOSPC
  | ENOMSG
  deriving DecidableEq

/-- What the user sets up, the flash and the configuration. `fcb_init` refuses sectors without room
for a header. -/
structure Config where
  sectorCnt : ℕ
  scratchCnt : ℕ
  fsSize : ℕ → ℕ
  /-- The alignment is `2^alignLog`. -/
  alignLog : ℕ
  eraseValue : BitVec 8
  /-- How a cell takes a new value. -/
  program : BitVec 8 → BitVec 8 → BitVec 8
  magic : BitVec 32
  version : BitVec 8
  /-- CONFIG_FCB_ALLOW_FIXED_ENDMARKER. -/
  allowFixed : Bool
  /-- FCB_FLAGS_CRC_DISABLED. -/
  crcDisabled : Bool
  scratchCnt_lt : scratchCnt < sectorCnt
  sectorCnt_lt : sectorCnt < 2^8
  header_fits : ∀ i < sectorCnt, 8 ≤ fsSize i
  alignLog_le : alignLog ≤ 7
  program_eraseValue : ∀ b, program eraseValue b = b

/-- `struct fcb_entry`. -/
structure Loc where
  sector : ℕ
  elemOff : ℕ
  dataOff : ℕ
  dataLen : ℕ
  deriving DecidableEq

abbrev Flash := ℕ → ℕ → BitVec 8

/-- The fields of `struct fcb` that change, and the flash. -/
structure State where
  flash : Flash
  oldest : ℕ
  /-- `f_active.fe_sector` -/
  active : ℕ
  /-- `f_active.fe_elem_off` -/
  elemOff : ℕ
  activeId : ℕ

section Functions
variable (c : Config)

def Config.align : ℕ := 2^c.alignLog

def lenInFlash (len : ℕ) : ℕ := ceilTo c.align len

def first : ℕ := lenInFlash c 8

def putLen (len : ℕ) : Option (List (BitVec 8)) :=
  if len < 0x80 then some [BitVec.ofNat 8 len ^^^ ~~~c.eraseValue]
  else if len ≤ 0x3fff then
    some [(BitVec.ofNat 8 len ||| 0x80) ^^^ ~~~c.eraseValue,BitVec.ofNat 8 (len/2^7) ^^^ ~~~c.eraseValue]
  else none

def getLen (b₀ b₁ : BitVec 8) : Option (ℕ × ℕ) :=
  let x₀ := b₀ ^^^ ~~~c.eraseValue
  if x₀ &&& 0x80 ≠ 0 then
    if b₀ = c.eraseValue ∧ b₁ = c.eraseValue then none
    else some (2,(x₀ &&& 0x7f).toNat+(b₁ ^^^ ~~~c.eraseValue).toNat*2^7)
  else some (1,x₀.toNat)

def bytesAt (b : ℕ → BitVec 8) (off len : ℕ) : List (BitVec 8) := (List.range len).map fun k => b (off+k)

/-- What `fcb_elem_crc8` and `fcb_elem_endmarker_fixed` begin with: the length of the element. -/
def elemLen (flash : Flash) (loc : Loc) : Option (ℕ × Loc) :=
  if c.fsSize loc.sector < loc.elemOff+2 then none
  else (getLen c (flash loc.sector loc.elemOff) (flash loc.sector (loc.elemOff+1))).map fun (cnt,len) =>
    (cnt,{ loc with dataOff := loc.elemOff+lenInFlash c cnt, dataLen := len })

/-- The CRC over the length and the data of an element. -/
def crcOf (flash : Flash) (cnt : ℕ) (loc : Loc) : BitVec 8 :=
  crc8Ccitt 0xff (bytesAt (flash loc.sector) loc.elemOff cnt++bytesAt (flash loc.sector) loc.dataOff loc.dataLen)

/-- `fcb_elem_crc8`. The data are read in blocks, and the last block is the one that may be outside
of the sector. -/
def elemCrc8 (flash : Flash) (loc : Loc) : Loc × Except Errno (BitVec 8) :=
  match elemLen c flash loc with
  | none => (loc,.error .ENOTSUP)
  | some (cnt,loc) =>
    if loc.dataLen ≠ 0 ∧ c.fsSize loc.sector < loc.dataOff+loc.dataLen then (loc,.error .EIOError)
    else (loc,.ok (crcOf flash cnt loc))

def elemEndmarker (flash : Flash) (loc : Loc) : Loc × Except Errno (BitVec 8) :=
  if c.allowFixed ∧ c.crcDisabled then
    match elemLen c flash loc with
    | none => (loc,.error .ENOTSUP)
    | some (_,loc) => (loc,.ok 0xab)
  else elemCrc8 c flash loc

def crcOff (loc : Loc) : ℕ := loc.dataOff+lenInFlash c loc.dataLen

def elemInfo (flash : Flash) (loc : Loc) : Loc × Except Errno Unit :=
  match elemEndmarker c flash loc with
  | (loc,.error e) => (loc,.error e)
  | (loc,.ok em) =>
    if c.fsSize loc.sector < crcOff c loc+1 then (loc,.error .EIOError)
    else
      let flEm := flash loc.sector (crcOff c loc)
      let r := if c.allowFixed ∧ flEm ≠ em then elemCrc8 c flash loc else (loc,.ok em)
      (r.1,r.2.bind fun em => if flEm ≠ em then .error .EBADMSG else .ok ())

/-- The loop of `fcb_getnext_in_sector`. -/
def inSectorLoop (flash : Flash) : ℕ → Loc → Option (Loc × Except Errno Unit)
  | 0,_ => none
  | fuel+1,loc =>
    let r := elemInfo c flash { loc with elemOff := crcOff c loc+lenInFlash c 1 }
    if r.2 = .error .EBADMSG then inSectorLoop flash fuel r.1 else some r

def getnextInSector (flash : Flash) (loc : Loc) : Option (Loc × Except Errno Unit) :=
  let r := elemInfo c flash loc
  if r.2 = .ok () ∨ r.2 = .error .EBADMSG then inSectorLoop c flash (c.fsSize loc.sector+1) r.1 else some r

def getnextSector (sector : ℕ) : ℕ := if sector+1 ≥ c.sectorCnt then 0 else sector+1

/-- What `fcb_getnext_nolock` does with the first element of a sector; it goes on in its loop unless
that is an entry. -/
def enter (flash : Flash) (loc : Loc) (loop : Bool → Loc → Option (Loc × Except Errno Unit)) :
    Option (Loc × Except Errno Unit) :=
  let r := elemInfo c flash { loc with elemOff := first c }
  if r.2 = .ok () then some r else loop (r.2 = .error .EBADMSG) r.1

/-- The loop of `fcb_getnext_nolock`, from its head with `rc = -EBADMSG` on, or from the label
`next_sector` on. -/
def search (s : State) : ℕ → Bool → Loc → Option (Loc × Except Errno Unit)
  | 0,_,_ => none
  | fuel+1,true,loc =>
    (getnextInSector c s.flash loc).bind fun r =>
      if r.2 = .ok () then some r else search s fuel (r.2 = .error .EBADMSG) r.1
  | fuel+1,false,loc =>
    if loc.sector = s.active then some (loc,.error .ENOTSUP)
    else enter c s.flash { loc with sector := getnextSector c loc.sector } (search s fuel)

/-- `fcb_getnext_nolock`, for a NULL sector with the oldest one in its place. -/
def getnextNolock (s : State) (loc : Loc) : Option (Loc × Except Errno Unit) :=
  let loop := search c s (2*c.sectorCnt+1)
  if loc.elemOff = 0 then enter c s.flash loc loop
  else
    (getnextInSector c s.flash loc).bind fun r =>
      if r.2 = .ok () then some r
      else if r.2 = .error .ENOTSUP then loop false r.1
      else if r.2 = .error .EBADMSG then loop true r.1
      else some (r.1,.ok ())

def start (s : State) (sector : Option ℕ) : Loc := ⟨sector.getD s.oldest,0,0,0⟩

/-- The loop of `fcb_walk`: the entries that the callback is called for, until it stops the walk. -/
def walkLoop (s : State) (sector : Option ℕ) (stop : ℕ → Loc → Bool) : (fuel calls : ℕ) → Loc → Option (List Loc)
  | 0,_,_ => none
  | fuel+1,calls,loc =>
    (getnextNolock c s loc).bind fun r =>
      if r.2 = .error .ENOTSUP ∨ sector.isSome ∧ sector ≠ some r.1.sector then some []
      else if stop calls r.1 then some [r.1]
      else (walkLoop s sector stop fuel (calls+1) r.1).map (r.1::·)

def mk32 (val : BitVec 8) : BitVec 32 := BitVec.ofNat 32 (val.toNat*0x01010101)

def flashMagic : BitVec 32 := c.magic ^^^ ~~~mk32 c.eraseValue

def diskArea (id : ℕ) : List (BitVec 8) :=
  (List.range 4).map (fun k => (flashMagic c >>> (8*k)).setWidth 8)++
    [c.version,c.eraseValue,BitVec.ofNat 8 id,BitVec.ofNat 8 (id/2^8)]

def write (flash : Flash) (sector off : ℕ) (src : List (BitVec 8)) : Flash :=
  fun i k => if i = sector ∧ off ≤ k ∧ k < off+src.length then c.program (flash i k) (src.getD (k-off) 0)
    else flash i k

def sectorHdrInit (flash : Flash) (sector id : ℕ) : Flash := write c flash sector 0 (diskArea c id)

/-- `fcb_sector_hdr_read`: the id if the sector is in use. -/
def sectorHdrRead (b : ℕ → BitVec 8) : Except Errno (Option ℕ) :=
  let magic : BitVec 32 := BitVec.ofNat 32 ((b 0).toNat+2^8*(b 1).toNat+2^16*(b 2).toNat+2^24*(b 3).toNat)
  if magic = mk32 c.eraseValue then .ok none
  else if magic ≠ flashMagic c then .error .ENOMSG
  else .ok (some ((b 6).toNat+2^8*(b 7).toNat))

def int16 (n : ℕ) : ℤ := if n%2^16 < 2^15 then n%2^16 else n%2^16-2^16

def idGt (a b : ℕ) : Bool := int16 a-int16 b > 0

/-- The first and the last used sector and their ids. -/
structure Span where
  oldest : ℕ
  oldestSector : ℕ
  newest : ℕ
  newestSector : ℕ
  deriving DecidableEq

/-- The loop of `fcb_init` over the sectors. -/
def scan (flash : Flash) : List ℕ → Option Span → Except Errno (Option Span)
  | [],found => .ok found
  | i::is,found =>
    match sectorHdrRead c (flash i),found with
    | .error e,_ => .error e
    | .ok none,_ => scan flash is found
    | .ok (some id),none => scan flash is (some ⟨id,i,id,i⟩)
    | .ok (some id),some a =>
      scan flash is (some (if idGt id a.newest then { a with newest := id, newestSector := i }
        else if idGt a.oldest id then { a with oldest := id, oldestSector := i } else a))

/-- The loop of `fcb_init` over the elements of the active sector. -/
def activeLoop (flash : Flash) : ℕ → Loc → Option (Loc × Except Errno Unit)
  | 0,_ => none
  | fuel+1,loc => (getnextInSector c flash loc).bind fun r => if r.2 = .ok () then activeLoop flash fuel r.1
    else some r

def initActive (flash : Flash) (a : Span) : Option (Except Errno State) :=
  (activeLoop c flash (c.fsSize a.newestSector+1) ⟨a.newestSector,first c,0,0⟩).map fun r =>
    let s : State := ⟨flash,a.oldestSector,a.newestSector,r.1.elemOff,a.newest⟩
    if r.2 = .error .ENOTSUP then .ok s else r.2.map fun _ => s

def init (flash : Flash) : Option (Except Errno State) :=
  match scan c flash (List.range c.sectorCnt) none with
  | .error e => some (.error e)
  | .ok (some a) => initActive c flash a
  | .ok none => initActive c (sectorHdrInit c flash 0 0) ⟨0,0,0,0⟩

end Functions
end ArmFirmware.Zephyr.Fcb
