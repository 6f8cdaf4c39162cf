import ArmFirmware.Library.WordBits

/-! Bit arrays (`lib/utils/bitarray.c`). Each function runs under the array's spinlock. A bundle outside
the array is never read or written: an operation that would do so has no result. The width of
`size_t` is a parameter. -/
namespace ArmFirmware.Zephyr
open Library Library.WordBits

/-- `struct sys_bitarray`, which has bits. -/
structure Bitarray where
  numBits : ℕ
  bundles : ℕ → BitVec 32
  pos : 0 < numBits
  lt : numBits < 2^32

namespace Bitarray

def numBundles (b : Bitarray) : ℕ := ((b.numBits+7)/8+3)/4

def read (b : Bitarray) (idx : ℕ) : Option (BitVec 32) := if idx < b.numBundles then some (b.bundles idx) else none

def write (b : Bitarray) (idx : ℕ) (bundle : BitVec 32) : Option Bitarray :=
  if idx < b.numBundles then some { b with bundles := Function.update b.bundles idx bundle } else none

def bit (b : Bitarray) (i : ℕ) : Bool := WordBits.bit b.bundles i

inductive Errno
  | EINVAL
  | ENOSPC
  | EFAULT
  | EEXIST
  | ENOMEM
  deriving DecidableEq

def BIT (n : ℕ) : BitVec 32 := 1#32 <<< n

def findLsbSet (x : BitVec 32) : ℕ := if x = 0 then 0 else lsb x+1

structure BundleData where
  sidx : ℕ
  eidx : ℕ
  soff : ℕ
  eoff : ℕ
  smask : BitVec 32
  emask : BitVec 32

variable (w : ℕ)

def offEnd (offset numBits : ℕ) : ℕ := (offset+numBits+(2^w-1))%2^w

def setupBundleData (offset numBits : ℕ) : BundleData :=
  let sidx := offset/32
  let soff := offset%32
  let eidx := offEnd w offset numBits/32
  let eoff := offEnd w offset numBits%32
  let smask := ~~~(BIT soff-1#32)
  let emask := (BIT eoff-1#32) ||| BIT eoff
  ⟨sidx,eidx,soff,eoff,if sidx = eidx then smask &&& emask else smask,emask⟩

def mismatchAt (idx : ℕ) (bundle : BitVec 32) : ℕ := (findLsbSet bundle-1+idx*32)%2^32

/-- The check of the first or the last bundle: where it does not match, if it does not. -/
def matchBundle (b : Bitarray) (matchSet : Bool) (idx : ℕ) (mask : BitVec 32) : Option (Option ℕ) := do
  let bundle ← b.read idx
  let bundle := if !matchSet then ~~~bundle else bundle
  if bundle &&& mask ≠ mask then return some (mismatchAt idx (~~~bundle &&& mask)) else return none

/-- The loop over the bundles in between, of which `n` are left. -/
def matchBetween (b : Bitarray) (matchSet : Bool) : ℕ → ℕ → Option (Option ℕ)
  | _,0 => some none
  | idx,n+1 => do
    let bundle ← b.read idx
    let bundle := if matchSet then ~~~bundle else bundle
    if bundle ≠ 0 then return some (mismatchAt idx bundle) else matchBetween b matchSet (idx+1) n

/-- `match_region`: a bit of the region that does not match, if there is one. -/
def matchRegion (b : Bitarray) (offset numBits : ℕ) (matchSet : Bool) : Option (Option ℕ) :=
  let bd := setupBundleData w offset numBits
  if bd.sidx = bd.eidx then matchBundle b matchSet bd.sidx bd.smask
  else do
    if let some mismatch ← matchBundle b matchSet bd.sidx bd.smask then return some mismatch
    if let some mismatch ← matchBundle b matchSet bd.eidx bd.emask then return some mismatch
    matchBetween b matchSet (bd.sidx+1) (bd.eidx-(bd.sidx+1))

def modify (b : Bitarray) (idx : ℕ) (f : BitVec 32 → Option (BitVec 32)) : Option Bitarray := do
  let bundle ← b.read idx
  b.write idx (← f bundle)

/-- The loop over the bundles in between, of which `n` are left. -/
def modifyBetween (f : ℕ → BitVec 32 → Option (BitVec 32)) : Bitarray → ℕ → ℕ → Option Bitarray
  | b,_,0 => some b
  | b,idx,n+1 => do modifyBetween f (← b.modify idx (f idx)) (idx+1) n

/-- The bundles of a region are replaced: the first and the last one by their masks, those in between as a
whole. -/
def modifyRegion (b : Bitarray) (bd : BundleData) (masked : ℕ → BitVec 32 → BitVec 32 → Option (BitVec 32))
    (whole : ℕ → BitVec 32 → Option (BitVec 32)) : Option Bitarray :=
  if bd.sidx = bd.eidx then b.modify bd.sidx (masked bd.sidx bd.smask)
  else do
    let b ← b.modify bd.sidx (masked bd.sidx bd.smask)
    let b ← b.modify bd.eidx (masked bd.eidx bd.emask)
    modifyBetween whole b (bd.sidx+1) (bd.eidx-(bd.sidx+1))

def setRegion (b : Bitarray) (offset numBits : ℕ) (toSet : Bool) : Option Bitarray :=
  modifyRegion b (setupBundleData w offset numBits)
    (fun _ mask bundle => some (if toSet then bundle ||| mask else bundle &&& ~~~mask))
    (fun _ _ => some (if toSet then ~~~0#32 else 0#32))

/-- The check of `sys_bitarray_popcount_region`, `sys_bitarray_xor` and `sys_bitarray_find_nth_set`. -/
def outside (b : Bitarray) (numBits offset : ℕ) : Prop := numBits = 0 ∨ (offset+numBits)%2^w > b.numBits

/-- The check of the other functions. -/
def beyond (b : Bitarray) (numBits offset : ℕ) : Prop :=
  numBits = 0 ∨ numBits > b.numBits ∨ offset ≥ b.numBits ∨ offEnd w offset numBits ≥ b.numBits

instance (b : Bitarray) (numBits offset : ℕ) : Decidable (outside w b numBits offset) := by
  unfold outside
  infer_instance

instance (b : Bitarray) (numBits offset : ℕ) : Decidable (beyond w b numBits offset) := by
  unfold beyond
  infer_instance

def popcountBetween (b : Bitarray) : ℕ → ℕ → ℕ → Option ℕ
  | _,0,count => some count
  | idx,n+1,count => do popcountBetween b (idx+1) n (count+popcount (← b.read idx))

def sysBitarrayPopcountRegion (b : Bitarray) (numBits offset : ℕ) : Option (Except Errno ℕ) :=
  if outside w b numBits offset then some (.error .EINVAL)
  else
    let bd := setupBundleData w offset numBits
    if bd.sidx = bd.eidx then do return .ok (popcount ((← b.read bd.sidx) &&& bd.smask))
    else do
      let first := popcount ((← b.read bd.sidx) &&& bd.smask)
      let last := popcount ((← b.read bd.eidx) &&& bd.emask)
      return .ok (← popcountBetween b (bd.sidx+1) (bd.eidx-(bd.sidx+1)) (first+last))

def sysBitarrayXor (dst other : Bitarray) (numBits offset : ℕ) : Option (Except Errno Unit × Bitarray) :=
  if dst.numBits ≠ other.numBits then some (.error .EINVAL,dst)
  else if outside w dst numBits offset then some (.error .EINVAL,dst)
  else do
    let dst ← modifyRegion dst (setupBundleData w offset numBits)
      (fun idx mask bundle => do return ((← other.read idx) ^^^ bundle) &&& mask ||| bundle &&& ~~~mask)
      (fun idx bundle => do return bundle ^^^ (← other.read idx))
    return (.ok (),dst)

def findInBundle (bundle : BitVec 32) : ℕ → ℕ → ℕ → Option ℕ
  | 0,_,_ => none
  | k+1,j,n =>
    if bundle &&& BIT j ≠ 0 then
      if n-1 ≤ 0 then some j else findInBundle bundle k (j+1) (n-1)
    else findInBundle bundle k (j+1) n

/-- The bundle of the bit, with its mask, and how many bits are still to be found in it. -/
def findBetween (b : Bitarray) : ℕ → ℕ → ℕ → Option ((ℕ × BitVec 32 × ℕ) ⊕ ℕ)
  | _,0,n => some (.inr n)
  | idx,k+1,n => do
    let count := popcount (← b.read idx)
    if count ≥ n then return .inl (idx,~~~0#32,n) else findBetween b (idx+1) k (n-count)

def findBundle (b : Bitarray) (bd : BundleData) (n : ℕ) : Option (Option (ℕ × BitVec 32 × ℕ)) := do
  let count := popcount ((← b.read bd.sidx) &&& bd.smask)
  if count ≥ n then return some (bd.sidx,bd.smask,n)
  else if bd.sidx ≠ bd.eidx then
    match ← findBetween b (bd.sidx+1) (bd.eidx-(bd.sidx+1)) (n-count) with
    | .inl found => return some found
    | .inr n =>
      let count := popcount ((← b.read bd.eidx) &&& bd.emask)
      if count ≥ n then return some (bd.eidx,bd.emask,n) else return none
  else return none

/-- The position that is found, or `none` for the result 1. -/
def sysBitarrayFindNthSet (b : Bitarray) (n numBits offset : ℕ) : Option (Except Errno (Option ℕ)) :=
  if n = 0 ∨ outside w b numBits offset then some (.error .EINVAL)
  else do
    match ← findBundle b (setupBundleData w offset numBits) n with
    | none => return .ok none
    | some (idx,mask,n) =>
      let bundle ← b.read idx
      return .ok ((findInBundle (bundle &&& mask) 32 0 n).map fun j => idx*32+j)

def sysBitarrayFree (b : Bitarray) (numBits offset : ℕ) : Option (Except Errno Unit × Bitarray) :=
  if beyond w b numBits offset then some (.error .EINVAL,b)
  else do
    match ← matchRegion w b offset numBits true with
    | none => return (.ok (),← setRegion w b offset numBits false)
    | some _ => return (.error .EFAULT,b)

def isRegionSetClear (b : Bitarray) (numBits offset : ℕ) (toSet : Bool) : Option Bool :=
  if beyond w b numBits offset then some false
  else do return (← matchRegion w b offset numBits toSet).isNone

def sysBitarrayIsRegionSet (b : Bitarray) (numBits offset : ℕ) : Option Bool :=
  isRegionSetClear w b numBits offset true

def sysBitarrayIsRegionCleared (b : Bitarray) (numBits offset : ℕ) : Option Bool :=
  isRegionSetClear w b numBits offset false

def setClearRegion (b : Bitarray) (numBits offset : ℕ) (toSet : Bool) : Option (Except Errno Unit × Bitarray) :=
  if beyond w b numBits offset then some (.error .EINVAL,b)
  else do return (.ok (),← setRegion w b offset numBits toSet)

def sysBitarrayTestAndSetRegion (b : Bitarray) (numBits offset : ℕ) (toSet : Bool) :
    Option (Except Errno Unit × Bitarray) :=
  if beyond w b numBits offset then some (.error .EINVAL,b)
  else do
    match ← matchRegion w b offset numBits (!toSet) with
    | none => return (.ok (),← setRegion w b offset numBits toSet)
    | some _ => return (.error .EEXIST,b)

def sysBitarraySetRegion (b : Bitarray) (numBits offset : ℕ) : Option (Except Errno Unit × Bitarray) :=
  setClearRegion w b numBits offset true

def sysBitarrayClearRegion (b : Bitarray) (numBits offset : ℕ) : Option (Except Errno Unit × Bitarray) :=
  setClearRegion w b numBits offset false

/-- The loop that looks for the first bundle with a clear bit, of which `n` are left. -/
def firstClear (b : Bitarray) : ℕ → ℕ → ℕ → Option ℕ
  | _,0,bitIdx => some bitIdx
  | idx,n+1,bitIdx => do
    let bundle ← b.read idx
    if ~~~bundle = 0 then firstClear b (idx+1) n ((bitIdx+32)%2^32)
    else if bundle ≠ 0 then return (bitIdx+(findLsbSet (~~~bundle)-1))%2^32
    else return bitIdx

/-- The loop that looks for a region, with no result if the fuel is used up. -/
def allocLoop (b : Bitarray) (numBits : ℕ) : ℕ → ℕ → Option (Except Errno ℕ × Bitarray)
  | 0,_ => none
  | fuel+1,bitIdx =>
    if bitIdx ≤ b.numBits-numBits then do
      match ← matchRegion w b bitIdx numBits false with
      | none => return (.ok bitIdx,← setRegion w b bitIdx numBits true)
      | some mismatch => allocLoop b numBits fuel ((mismatch+1)%2^32)
    else some (.error .ENOSPC,b)

def sysBitarrayAlloc (b : Bitarray) (numBits : ℕ) : Option (Except Errno ℕ × Bitarray) :=
  if numBits = 0 ∨ numBits > b.numBits then some (.error .EINVAL,b)
  else do
    let bitIdx ← firstClear b 0 b.numBundles 0
    allocLoop w b numBits (b.numBits+1) bitIdx

end Bitarray
end ArmFirmware.Zephyr
