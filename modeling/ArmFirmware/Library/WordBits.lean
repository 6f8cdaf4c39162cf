import Mathlib

/-! Arrays of bits that are kept in words: the masks that cut a region of bits out of its words, the
lowest set bit of a word, and how many bits of a region are set. -/
namespace ArmFirmware.Library.WordBits
open Nat
variable {w : ℕ}

def bit (ws : ℕ → BitVec w) (i : ℕ) : Bool := (ws (i/w)).getLsbD (i%w)

/-- The mask has the bits of word `k` that belong to the region of `n` bits from `a` on. -/
def Masks (m : BitVec w) (a n k : ℕ) : Prop := ∀ j < w, m.getLsbD j = decide (a ≤ k*w+j ∧ k*w+j < a+n)

variable {k j : ℕ}

lemma div_add_mod_self (hw : 0 < w) (hj : j < w) : (k*w+j)/w = k ∧ (k*w+j)%w = j := by
  rw [mul_comm]
  exact ⟨by rw [mul_add_div hw,div_eq_of_lt hj,add_zero],by rw [mul_add_mod,mod_eq_of_lt hj]⟩

lemma bit_word (hw : 0 < w) (ws : ℕ → BitVec w) (k : ℕ) (hj : j < w) : bit ws (k*w+j) = (ws k).getLsbD j := by
  obtain ⟨hdiv,hmod⟩ := div_add_mod_self hw hj
  rw [bit,hdiv,hmod]

lemma word_add_bit (i : ℕ) : i/w*w+i%w = i := by rw [mul_comm,div_add_mod]

lemma getLsbD_low {s : ℕ} (hs : s < w) : ((1#w <<< s)-1#w).getLsbD j = decide (j < s) := by
  have hone : 1 % 2^w = 1 := Nat.mod_eq_of_lt (Nat.one_lt_two_pow (by omega))
  have hpow : 2^s < 2^w := Nat.pow_lt_pow_right (by norm_num) hs
  have hnat : ((1#w <<< s)-1#w).toNat = 2^s-1 := by
    have hpos := Nat.two_pow_pos s
    rw [BitVec.toNat_sub,BitVec.toNat_shiftLeft,BitVec.toNat_ofNat,hone,one_shiftLeft,mod_eq_of_lt hpow]
    rw [show 2^w-1+2^s = 2^s-1+2^w by omega,add_mod_right,mod_eq_of_lt (by omega)]
  rw [BitVec.getLsbD,hnat,testBit_two_pow_sub_one]

lemma getLsbD_one_shiftLeft {s : ℕ} (hj : j < w) : (1#w <<< s).getLsbD j = decide (j = s) := by
  rw [BitVec.getLsbD_shiftLeft,BitVec.getLsbD_one]
  rcases lt_trichotomy j s with h | rfl | h
  · simp [h,h.ne]
  · simp [hj,zero_lt_of_lt hj]
  · simp [h.ne',Nat.sub_eq_zero_iff_le,Nat.not_le.mpr h]

variable {a n : ℕ}

/-- The word with the first bit of a region that goes on in the next word. -/
lemma masks_start (hw : 0 < w) (hnext : (a/w+1)*w ≤ a+n) : Masks (~~~((1#w <<< (a%w))-1#w)) a n (a/w) := by
  intro j hj
  have ha := word_add_bit (w := w) a
  rw [BitVec.getLsbD_not,getLsbD_low (mod_lt a hw)]
  have hlt : a/w*w+j < a+n := by
    rw [add_mul] at hnext
    omega
  simp only [hj,decide_true,Bool.true_and,← decide_not]
  exact decide_eq_decide.mpr (by omega)

/-- The word with the last bit of a region that comes from the word before. -/
lemma masks_end {e : ℕ} (he : e < w) (hend : k*w+e+1 = a+n) (hbefore : a ≤ k*w) :
    Masks (((1#w <<< e)-1#w) ||| (1#w <<< e)) a n k := by
  intro j hj
  rw [BitVec.getLsbD_or,getLsbD_low he,getLsbD_one_shiftLeft hj,← Bool.decide_or]
  exact decide_eq_decide.mpr (by omega)

lemma masks_single {e : ℕ} (hw : 0 < w) (he : e < w) (hend : a/w*w+e+1 = a+n) :
    Masks (~~~((1#w <<< (a%w))-1#w) &&& (((1#w <<< e)-1#w) ||| (1#w <<< e))) a n (a/w) := by
  intro j hj
  have ha := word_add_bit (w := w) a
  rw [BitVec.getLsbD_and,BitVec.getLsbD_not,BitVec.getLsbD_or,getLsbD_low he,getLsbD_low (mod_lt a hw),
    getLsbD_one_shiftLeft hj]
  simp only [hj,decide_true,Bool.true_and,← decide_not,← Bool.decide_or,← Bool.decide_and]
  exact decide_eq_decide.mpr (by omega)

lemma masks_between (hbefore : a ≤ k*w) (hbehind : (k+1)*w ≤ a+n) : Masks (BitVec.allOnes w) a n k := by
  intro j hj
  rw [add_mul] at hbehind
  rw [BitVec.getLsbD_allOnes]
  exact decide_eq_decide.mpr (by omega)

def lsb (x : BitVec w) : ℕ := x.ctz.toNat

variable {x : BitVec w}

lemma getLsbD_lsb (hx : x ≠ 0) : x.getLsbD (lsb x) = true := BitVec.getLsbD_true_ctz_of_ne_zero hx

lemma getLsbD_of_lt_lsb (hj : j < lsb x) : x.getLsbD j = false := BitVec.getLsbD_false_of_lt_ctz hj

lemma lsb_lt (hx : x ≠ 0) : lsb x < w := BitVec.lt_of_getLsbD (getLsbD_lsb hx)

def popcount (x : BitVec w) : ℕ := count (fun j => x.getLsbD j = true) w

def Within (ws : ℕ → BitVec w) (a n i : ℕ) : Prop := (a ≤ i ∧ i < a+n) ∧ bit ws i = true

instance (ws : ℕ → BitVec w) (a n : ℕ) : DecidablePred (Within ws a n) := fun i => by
  unfold Within
  infer_instance

lemma count_congr {p q : ℕ → Prop} [DecidablePred p] [DecidablePred q] (h : ∀ i < n, (p i ↔ q i)) :
    count p n = count q n :=
  le_antisymm (count_mono_left fun i hi => (h i hi).mp) (count_mono_left fun i hi => (h i hi).mpr)

lemma count_word (hw : 0 < w) {ws : ℕ → BitVec w} {m : BitVec w} (hm : Masks m a n k) (l : ℕ) (hl : l ≤ w) :
    count (Within ws a n) (k*w+l) =
      count (Within ws a n) (k*w)+count (fun j => (ws k &&& m).getLsbD j = true) l := by
  rw [count_add]
  congr 1
  refine count_congr fun j hj => ?_
  rw [Within,bit_word hw ws k (by omega),BitVec.getLsbD_and,hm j (by omega),Bool.and_eq_true,decide_eq_true_eq,
    and_comm]

end ArmFirmware.Library.WordBits
