import Mathlib

/-! Configuration of the hash maps and the rule by which they grow and shrink, from
`include/zephyr/sys/hash_map_api.h` and `hash_map.h`. -/
namespace ArmFirmware.Zephyr.Hashmap
open Nat

def ENOMEM : ℤ := 12
def ENOSPC : ℤ := 28

structure Config where
  maxSize : ℕ
  loadFactor : ℕ
  initialNBuckets : ℕ

/-- What a map is declared with: the target's `size_t`, the configuration, the hash. -/
structure Params where
  sizeBits : ℕ
  cfg : Config
  hashFunc : UInt64 → UInt32
  sizeBits_le : 32 ≤ sizeBits

lemma sizeBits_least : 32 ≤ 32 := le_rfl

def divRoundUp (n d : ℕ) : ℕ := (n+d-1)/d

/-- `NHPOT`: the next higher power of two, or 0 beyond 64 bits. -/
def nhpot (x : ℕ) : ℕ := if x < 1 then 1 else if 2^63 < x then 0 else 2^clog 2 x

/-- `SYS_HASHMAP_CONFIG`; both byte fields are converted to `uint8_t`. -/
def sysHashmapConfig (maxSize loadFactor : ℕ) : Config :=
  ⟨maxSize,loadFactor % 256,nhpot (divRoundUp 100 loadFactor) % 256⟩

/-- `sys_hashmap_should_rehash` on a target with `W`-bit `size_t`: whether to rehash, and
the number of buckets to rehash to. -/
def sysHashmapShouldRehash (W : ℕ) (cfg : Config) (dataSize dataNBuckets : ℕ) (grow : Bool)
    (numReserved : ℕ) : Bool × ℕ :=
  let shrink := !grow
  let size := (dataSize+grow.toNat) % 2^W
  let nBuckets := (dataNBuckets+grow.toNat*(size == 1).toNat*cfg.initialNBuckets) % 2^W
  let nBuckets := nBuckets <<< (grow.toNat*(size != 1).toNat) % 2^W
  let nBuckets := nBuckets >>> shrink.toNat
  let nBuckets := nBuckets*(size != 0).toNat
  let shouldGrow := grow && (dataNBuckets == 0 ||
    decide (cfg.loadFactor < (size+numReserved) % 2^W*100 % 2^W/dataNBuckets))
  let shouldShrink := shrink && (nBuckets == 0 ||
    decide (size*100 % 2^W/nBuckets ≤ cfg.loadFactor))
  (shouldGrow || shouldShrink,nBuckets)

attribute [local simp] sysHashmapShouldRehash

/-- The assertion of `sys_hashmap_should_rehash`: the size it computes with is below
`SIZE_MAX / 100`, the maximum size imposed by the implementation. -/
def SizeAllowed (W size : ℕ) : Prop := size < (2^W-1)/100

instance (W size : ℕ) : Decidable (SizeAllowed W size) := by unfold SizeAllowed; infer_instance

section Rule
variable {W : ℕ} {cfg : Config} {size n reserved : ℕ}

lemma size_lt_pow (hs : SizeAllowed W size) : 100*size < 2^W := by
  unfold SizeAllowed at hs
  omega

lemma shouldRehash_first (h2 : 2 ≤ 2^W) (hi : cfg.initialNBuckets < 2^W) :
    sysHashmapShouldRehash W cfg 0 0 true reserved = (true,cfg.initialNBuckets) := by
  simp [mod_eq_of_lt (show 1 < 2^W by omega),mod_eq_of_lt hi]

lemma shouldRehash_grow (hs : SizeAllowed W (size+1)) (hpos : 0 < size) (hn : 2*n < 2^W) :
    sysHashmapShouldRehash W cfg size n true reserved =
      (n == 0 || decide (cfg.loadFactor < (size+1+reserved) % 2^W*100 % 2^W/n),2*n) := by
  have hlt := size_lt_pow hs
  have h₁ : (size+1) % 2^W = size+1 := mod_eq_of_lt (by omega)
  have h₂ : (size == 0) = false := by simpa using by omega
  have h₃ : (size != 0) = true := by simpa using by omega
  simp [h₁,h₂,h₃,shiftLeft_eq,mul_comm n 2,mod_eq_of_lt hn]

lemma shouldRehash_empty : sysHashmapShouldRehash W cfg 0 n false reserved = (true,0) := by
  simp

lemma shouldRehash_shrink (hs : SizeAllowed W size) (hpos : 0 < size) (hn : n < 2^W) :
    sysHashmapShouldRehash W cfg size n false reserved =
      (n/2 == 0 || decide (size*100/(n/2) ≤ cfg.loadFactor),n/2) := by
  have hlt := size_lt_pow hs
  have h₁ : size % 2^W = size := mod_eq_of_lt (by omega)
  have h₂ := mod_eq_of_lt hn
  have h₃ : (size != 0) = true := by simpa using by omega
  have h₄ : size*100 % 2^W = size*100 := mod_eq_of_lt (by omega)
  simp [h₁,h₂,h₃,h₄,shiftRight_eq_div_pow]

end Rule

lemma initialNBuckets_eq (maxSize : ℕ) {lf : ℕ} (h₁ : 1 ≤ lf) (h₂ : lf < 256) :
    ∃ k ≤ 7, (sysHashmapConfig maxSize lf).initialNBuckets = 2^k := by
  have hle : divRoundUp 100 lf ≤ 100 := by
    exact Nat.div_le_of_le_mul (by omega)
  have hpos : 1 ≤ divRoundUp 100 lf := (one_le_div_iff (by omega)).mpr (by omega)
  have hk : clog 2 (divRoundUp 100 lf) ≤ 7 := clog_le_of_le_pow (by omega)
  refine ⟨clog 2 (divRoundUp 100 lf),hk,?_⟩
  have hpow : 2^Nat.clog 2 (divRoundUp 100 lf) ≤ 2^7 := Nat.pow_le_pow_right (by omega) hk
  simp only [sysHashmapConfig,nhpot]
  rw [if_neg (by omega),if_neg (by omega),mod_eq_of_lt (by omega)]

lemma initialNBuckets_eq_one {maxSize lf : ℕ} (h : 100 ≤ lf) :
    (sysHashmapConfig maxSize lf).initialNBuckets = 1 := by
  have : divRoundUp 100 lf = 1 := by
    unfold divRoundUp
    rw [Nat.div_eq_iff (by omega)]
    omega
  simp [sysHashmapConfig,nhpot,this]

end ArmFirmware.Zephyr.Hashmap
