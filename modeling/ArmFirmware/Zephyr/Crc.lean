import Mathlib

/-! The check sums of `lib/crc`. -/
namespace ArmFirmware.Zephyr

def crc8CcittSmallTable : List (BitVec 8) :=
  [0x00,0x07,0x0e,0x09,0x1c,0x1b,0x12,0x15,0x38,0x3f,0x36,0x31,0x24,0x23,0x2a,0x2d]

def crc8Ccitt (val : BitVec 8) (buf : List (BitVec 8)) : BitVec 8 :=
  buf.foldl (fun val b =>
    let val := val ^^^ b
    let val := (val <<< 4) ^^^ crc8CcittSmallTable.getD (val >>> 4).toNat 0
    (val <<< 4) ^^^ crc8CcittSmallTable.getD (val >>> 4).toNat 0) val

def crc32IeeeTable : List (BitVec 32) :=
  [0x00000000,0x1db71064,0x3b6e20c8,0x26d930ac,0x76dc4190,0x6b6b51f4,0x4db26158,0x5005713c,
    0xedb88320,0xf00f9344,0xd6d6a3e8,0xcb61b38c,0x9b64c2b0,0x86d3d2d4,0xa00ae278,0xbdbdf21c]

def crc32Ieee (data : List (BitVec 8)) : BitVec 32 :=
  ~~~data.foldl (fun (crc : BitVec 32) (byte : BitVec 8) =>
    let crc := (crc >>> 4) ^^^ crc32IeeeTable.getD ((crc ^^^ byte.setWidth 32) &&& 0x0f).toNat 0
    (crc >>> 4) ^^^ crc32IeeeTable.getD ((crc ^^^ (byte.setWidth 32 >>> 4)) &&& 0x0f).toNat 0) (~~~0)

end ArmFirmware.Zephyr
