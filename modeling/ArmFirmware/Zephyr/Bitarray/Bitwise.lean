import ArmFirmware.Zephyr.Bitarray.Regions

/-! What the operations are for, bit by bit, and that the operations on bundles do it. -/
namespace ArmFirmware.Zephyr.Bitarray
open Library Library.WordBits Option

section
open List BitVec

/-- The bits alone. -/
@[ext] structure Bits where
  size : ℕ
  bit : ℕ → Bool

namespace Bits
variable {n a m : ℕ}

def Bad (s : Bits) (n a : ℕ) : Prop := n = 0 ∨ a+n > s.size

instance (s : Bits) (n a : ℕ) : Decidable (s.Bad n a) := by
  unfold Bad
  infer_instance

def change (s : Bits) (n a : ℕ) (F : ℕ → Bool → Bool) : Bits :=
  { s with bit := fun i => if a ≤ i ∧ i < a+n then F i (s.bit i) else s.bit i }

def fill (s : Bits) (n a : ℕ) (v : Bool) : Bits := s.change n a fun _ _ => v

def All (s : Bits) (n a : ℕ) (v : Bool) : Prop := ∀ j < n, s.bit (a+j) = v

instance (s : Bits) (n a : ℕ) (v : Bool) : Decidable (s.All n a v) := by
  unfold All
  infer_instance

def count (s : Bits) (n a : ℕ) : ℕ := Nat.count (fun j => s.bit (a+j) = true) n

def setClear (s : Bits) (n a : ℕ) (v : Bool) : Except Errno Unit × Bits :=
  if s.Bad n a then (.error .EINVAL,s) else (.ok (),s.fill n a v)

def testAndSet (s : Bits) (n a : ℕ) (v : Bool) : Except Errno Unit × Bits :=
  if s.Bad n a then (.error .EINVAL,s)
  else if s.All n a !v then (.ok (),s.fill n a v)
  else (.error .EEXIST,s)

def free (s : Bits) (n a : ℕ) : Except Errno Unit × Bits :=
  if s.Bad n a then (.error .EINVAL,s)
  else if s.All n a true then (.ok (),s.fill n a false)
  else (.error .EFAULT,s)

def xor (s t : Bits) (n a : ℕ) : Except Errno Unit × Bits :=
  if s.size ≠ t.size ∨ s.Bad n a then (.error .EINVAL,s) else (.ok (),s.change n a fun i x => x ^^ t.bit i)

def popcount (s : Bits) (n a : ℕ) : Except Errno ℕ := if s.Bad n a then .error .EINVAL else .ok (s.count n a)

def isRegion (s : Bits) (n a : ℕ) (v : Bool) : Bool := decide (¬s.Bad n a ∧ s.All n a v)

/-- A set bit of the region with as many set bits up to it. -/
def findNthSet (s : Bits) (nth n a : ℕ) : Except Errno (Option ℕ) :=
  if nth = 0 ∨ s.Bad n a then .error .EINVAL
  else .ok (((range n).find? fun j => s.bit (a+j) && s.count j a+1 == nth).map (a+·))

lemma change_bit (s : Bits) (n a : ℕ) (F : ℕ → Bool → Bool) (i : ℕ) :
    (s.change n a F).bit i = if a ≤ i ∧ i < a+n then F i (s.bit i) else s.bit i := rfl

lemma count_split (s : Bits) (hle : a+n ≤ m) : s.count m 0 = s.count a 0+s.count n a+s.count (m-(a+n)) (a+n) := by
  have hm := (Nat.add_sub_cancel' hle).symm
  simp only [count,Nat.zero_add]
  conv_lhs => rw [hm]
  rw [Nat.count_add,Nat.count_add]

lemma count_change (s : Bits) (F : ℕ → Bool → Bool) (hle : a+n ≤ m) :
    (s.change n a F).count m 0+s.count n a = s.count m 0+(s.change n a F).count n a := by
  have hbefore : (s.change n a F).count a 0 = s.count a 0 := count_congr fun j hj => by
    rw [change_bit,if_neg (by omega)]
  have hbehind : (s.change n a F).count (m-(a+n)) (a+n) = s.count (m-(a+n)) (a+n) := count_congr fun j hj => by
    rw [change_bit,if_neg (by omega)]
  rw [s.count_split hle,(s.change n a F).count_split hle,hbefore,hbehind]
  omega

lemma All.count_eq {s : Bits} {n a : ℕ} {v : Bool} (h : s.All n a v) : s.count n a = if v then n else 0 := by
  cases v with
  | true => exact Nat.count_iff_forall.mpr h
  | false => exact Nat.count_iff_forall_not.mpr fun j hj => by simp [h j hj]

lemma all_fill (s : Bits) (n a : ℕ) (v : Bool) : (s.fill n a v).All n a v := fun j hj => if_pos (by omega)

lemma count_fill_true {s : Bits} (hle : a+n ≤ m) (hall : s.All n a false) :
    (s.fill n a true).count m 0 = s.count m 0+n := by
  have hfill : (s.fill n a true).count m 0+s.count n a = s.count m 0+(s.fill n a true).count n a :=
    s.count_change _ hle
  rw [hall.count_eq,(s.all_fill n a true).count_eq] at hfill
  exact hfill

lemma count_fill_false {s : Bits} (hle : a+n ≤ m) (hall : s.All n a true) :
    (s.fill n a false).count m 0+n = s.count m 0 := by
  have hfill : (s.fill n a false).count m 0+s.count n a = s.count m 0+(s.fill n a false).count n a :=
    s.count_change _ hle
  rw [hall.count_eq,(s.all_fill n a false).count_eq] at hfill
  exact hfill

end Bits

def bits (b : Bitarray) : Bits := ⟨b.numBits,b.bit⟩

def shown {α : Type*} (r : α × Bitarray) : α × Bits := (r.1,r.2.bits)

variable {w : ℕ} {b : Bitarray} {a n : ℕ}

lemma outside_iff (hlt : a+n < 2^w) : outside w b n a ↔ b.bits.Bad n a := by
  rw [outside,Nat.mod_eq_of_lt hlt]
  rfl

lemma beyond_iff (hlt : a+n < 2^w) : beyond w b n a ↔ b.bits.Bad n a := by
  rw [beyond,Bits.Bad,bits]
  by_cases hn : n = 0
  · simp [hn]
  · rw [offEnd_eq (by omega) hlt]
    dsimp only
    omega

/-- In an array of less than 2^31 bits nothing wraps around that passes the other checks. -/
lemma beyond_iff_of_small (hw : 32 ≤ w) (hsmall : b.numBits < 2^31) : beyond w b n a ↔ b.bits.Bad n a := by
  by_cases hrange : n ≤ b.numBits ∧ a < b.numBits
  · have hpow : 2^32 ≤ 2^w := Nat.pow_le_pow_right (by norm_num) hw
    exact beyond_iff (by omega)
  · simp only [beyond,Bits.Bad,bits]
    constructor
    · intro _
      omega
    · intro _
      by_cases hn : n = 0
      · exact .inl hn
      · by_cases hle : n ≤ b.numBits
        · exact .inr (.inr (.inl (by omega)))
        · exact .inr (.inl (by omega))

lemma inside_of_not_bad (h : ¬b.bits.Bad n a) : Inside b a n := by
  rw [Bits.Bad,bits] at h
  dsimp only at h
  exact ⟨by omega,by omega⟩

lemma Applied.bits_eq {F : ℕ → Bool → Bool} {b' : Bitarray} (h : Applied F a n b b') :
    b'.bits = b.bits.change n a F := by
  ext i
  · exact h.numBits
  · exact h.bits i

lemma all_iff (v : Bool) : b.bits.All n a v ↔ ∀ i, a ≤ i → i < a+n → b.bit i = v := by
  constructor
  · intro h i hi hi'
    have hj := h (i-a) (by omega)
    rwa [Nat.add_sub_cancel' hi] at hj
  · intro h j hj
    exact h (a+j) (by omega) (by omega)

section
variable (hw : 32 ≤ w)
include hw

lemma matchRegion_all (h : Inside b a n) (v : Bool) :
    ∃ r, matchRegion w b a n v = some r ∧ (r = none ↔ b.bits.All n a v) := by
  obtain ⟨r,hr,hspec⟩ := matchRegion_spec hw h v
  refine ⟨r,hr,?_⟩
  rw [all_iff]
  cases r with
  | none => simpa using hspec
  | some i =>
    obtain ⟨hi,hi',hbit⟩ := hspec
    simp only [reduceCtorEq,false_iff]
    exact fun hall => hbit (hall i hi hi')

lemma setClearRegion_bitwise (hlt : a+n < 2^w) (v : Bool) :
    (setClearRegion w b n a v).map shown = some (b.bits.setClear n a v) := by
  rw [setClearRegion,Bits.setClear]
  by_cases hbad : b.bits.Bad n a
  · rw [if_pos ((beyond_iff hlt).mpr hbad),if_pos hbad]
    rfl
  · obtain ⟨b',hb',happ⟩ := setRegion_spec hw (inside_of_not_bad hbad) v
    rw [if_neg ((beyond_iff hlt).not.mpr hbad),if_neg hbad,hb',Bits.fill,← happ.bits_eq]
    rfl

lemma testAndSetRegion_bitwise (hbey : beyond w b n a ↔ b.bits.Bad n a) (v : Bool) :
    (sysBitarrayTestAndSetRegion w b n a v).map shown = some (b.bits.testAndSet n a v) := by
  rw [sysBitarrayTestAndSetRegion,Bits.testAndSet]
  by_cases hbad : b.bits.Bad n a
  · rw [if_pos (hbey.mpr hbad),if_pos hbad]
    rfl
  · have hin := inside_of_not_bad hbad
    rw [if_neg (hbey.not.mpr hbad),if_neg hbad]
    obtain ⟨r,hr,hall⟩ := matchRegion_all hw hin !v
    cases r with
    | none =>
      obtain ⟨b',hb',happ⟩ := setRegion_spec hw hin v
      rw [if_pos (hall.mp rfl),Bits.fill,← happ.bits_eq]
      simp only [hr,hb',bind_eq_bind,bind_some]
      rfl
    | some i =>
      rw [if_neg (fun h => nomatch hall.mpr h)]
      simp only [hr,bind_eq_bind,bind_some]
      rfl

lemma free_bitwise (hbey : beyond w b n a ↔ b.bits.Bad n a) :
    (sysBitarrayFree w b n a).map shown = some (b.bits.free n a) := by
  rw [sysBitarrayFree,Bits.free]
  by_cases hbad : b.bits.Bad n a
  · rw [if_pos (hbey.mpr hbad),if_pos hbad]
    rfl
  · have hin := inside_of_not_bad hbad
    rw [if_neg (hbey.not.mpr hbad),if_neg hbad]
    obtain ⟨r,hr,hall⟩ := matchRegion_all hw hin true
    cases r with
    | none =>
      obtain ⟨b',hb',happ⟩ := setRegion_spec hw hin false
      rw [if_pos (hall.mp rfl),Bits.fill,← happ.bits_eq]
      simp only [hr,hb',bind_eq_bind,bind_some]
      rfl
    | some i =>
      rw [if_neg (fun h => nomatch hall.mpr h)]
      simp only [hr,bind_eq_bind,bind_some]
      rfl

lemma isRegionSetClear_bitwise (hlt : a+n < 2^w) (v : Bool) :
    isRegionSetClear w b n a v = some (b.bits.isRegion n a v) := by
  rw [isRegionSetClear,Bits.isRegion]
  by_cases hbad : b.bits.Bad n a
  · rw [if_pos ((beyond_iff hlt).mpr hbad)]
    simp [hbad]
  · obtain ⟨r,hr,hall⟩ := matchRegion_all hw (inside_of_not_bad hbad) v
    rw [if_neg ((beyond_iff hlt).not.mpr hbad),hr]
    simp only [hbad,not_false_eq_true,true_and,← hall]
    cases r <;> rfl

lemma popcountRegion_bitwise (hlt : a+n < 2^w) :
    sysBitarrayPopcountRegion w b n a = some (b.bits.popcount n a) := by
  rw [Bits.popcount]
  by_cases hbad : b.bits.Bad n a
  · rw [sysBitarrayPopcountRegion,if_pos ((outside_iff hlt).mpr hbad),if_pos hbad]
  · rw [popcountRegion_spec hw (inside_of_not_bad hbad) ((outside_iff hlt).not.mpr hbad),if_neg hbad]
    rfl

lemma xor_bitwise (hlt : a+n < 2^w) (other : Bitarray) :
    (sysBitarrayXor w b other n a).map shown = some (b.bits.xor other.bits n a) := by
  rw [sysBitarrayXor,Bits.xor]
  by_cases hsize : b.numBits = other.numBits
  · rw [if_neg (not_not.mpr hsize)]
    by_cases hbad : b.bits.Bad n a
    · rw [if_pos ((outside_iff hlt).mpr hbad),if_pos (.inr hbad)]
      rfl
    · have hgood : ¬(b.bits.size ≠ other.bits.size ∨ b.bits.Bad n a) := not_or.mpr ⟨not_not.mpr hsize,hbad⟩
      rw [if_neg ((outside_iff hlt).not.mpr hbad),if_neg hgood]
      have hnum := numBundles_congr hsize.symm
      obtain ⟨b',hb',happ⟩ := modifyRegion_spec (F := fun i x => x ^^ other.bit i) hw (inside_of_not_bad hbad)
        (fun idx mask bundle => do return ((← other.read idx) ^^^ bundle) &&& mask ||| bundle &&& ~~~mask)
        (fun idx bundle => do return bundle ^^^ (← other.read idx))
        (fun k m x hk => by
          refine ⟨_,by rw [read_eq (hnum ▸ hk)]; rfl,fun j hj => ?_⟩
          rw [bit_bundle other k hj]
          cases hm : m.getLsbD j <;>
            simp only [Bool.false_eq_true,if_true,if_false,getLsbD_or,getLsbD_and,getLsbD_xor,
              getLsbD_not,hm,hj,decide_true,Bool.not_true,Bool.not_false,Bool.and_true,Bool.and_false,Bool.or_false,
              Bool.false_or,Bool.xor_comm])
        (fun k x hk => by
          refine ⟨_,by rw [read_eq (hnum ▸ hk)]; rfl,fun j hj => ?_⟩
          rw [bit_bundle other k hj,getLsbD_xor])
      rw [hb',show b.bits.change n a (fun i x => x ^^ other.bits.bit i) = b'.bits from happ.bits_eq.symm]
      rfl
  · rw [if_pos hsize,if_pos (.inl hsize)]
    rfl

end

lemma find_nth {s : Bits} {nth n a i : ℕ} (hi : i < n) (hset : s.bit (a+i) = true) (hcount : s.count i a+1 = nth) :
    ((range n).find? fun j => s.bit (a+j) && s.count j a+1 == nth) = some i := by
  rw [find?_range_eq_some]
  refine ⟨by simp [hset,hcount],mem_range.mpr hi,fun j hj => ?_⟩
  -- a set bit before it is counted
  have hle : s.count (j+1) a ≤ s.count i a := Nat.count_monotone _ hj
  have hsucc : s.count (j+1) a = s.count j a+if s.bit (a+j) = true then 1 else 0 := Nat.count_succ ..
  cases hbit : s.bit (a+j) with
  | false => rfl
  | true =>
    rw [hbit,if_pos rfl] at hsucc
    simp only [Bool.true_and,Bool.not_eq_true',beq_eq_false_iff_ne]
    omega

lemma find_nth_none {s : Bits} {nth n a : ℕ} (hcount : s.count n a < nth) :
    ((range n).find? fun j => s.bit (a+j) && s.count j a+1 == nth) = none := by
  rw [find?_eq_none]
  intro j hj
  rw [mem_range] at hj
  have hle : s.count (j+1) a ≤ s.count n a := Nat.count_monotone _ hj
  have hsucc : s.count (j+1) a = s.count j a+if s.bit (a+j) = true then 1 else 0 := Nat.count_succ ..
  intro hfound
  rw [Bool.and_eq_true,beq_iff_eq] at hfound
  rw [if_pos hfound.1] at hsucc
  omega

lemma findNthSet_bitwise (hw : 32 ≤ w) (hlt : a+n < 2^w) (nth : ℕ) :
    sysBitarrayFindNthSet w b nth n a = some (b.bits.findNthSet nth n a) := by
  rw [sysBitarrayFindNthSet,Bits.findNthSet]
  by_cases hbad : nth = 0 ∨ b.bits.Bad n a
  · rw [if_pos (hbad.imp_right (outside_iff hlt).mpr),if_pos hbad]
  · rw [if_neg (fun h => hbad (h.imp_right (outside_iff hlt).mp)),if_neg hbad]
    obtain ⟨hnth,hin⟩ := not_or.mp hbad
    obtain ⟨r,hr,hspec⟩ := findBundle_spec hw (inside_of_not_bad hin) (Nat.pos_of_ne_zero hnth)
    cases r with
    | none =>
      rw [hr,find_nth_none hspec]
      rfl
    | some found =>
      obtain ⟨j,hj,⟨⟨hge,hlt'⟩,hset⟩,hcount⟩ := hspec.found
      obtain ⟨i,hi⟩ := Nat.exists_eq_add_of_le hge
      rw [hi,count_upto b (by omega)] at hcount
      rw [hi] at hset
      simp only [hr,read_eq hspec.1,hj,bind_eq_bind,bind_some,map_some,hi]
      rw [find_nth (s := b.bits) (show i < n by omega) hset hcount]
      rfl

/-- What every operation on a region of the array does, bit by bit. -/
theorem regions_bitwise (w : ℕ) (hw : 32 ≤ w) (b other : Bitarray) (n a nth : ℕ) (v : Bool) (hle : a+n ≤ b.numBits) :
    (sysBitarraySetRegion w b n a).map shown = some (b.bits.setClear n a true) ∧
    (sysBitarrayClearRegion w b n a).map shown = some (b.bits.setClear n a false) ∧
    (sysBitarrayTestAndSetRegion w b n a v).map shown = some (b.bits.testAndSet n a v) ∧
    (sysBitarrayFree w b n a).map shown = some (b.bits.free n a) ∧
    sysBitarrayPopcountRegion w b n a = some (b.bits.popcount n a) ∧
    (sysBitarrayXor w b other n a).map shown = some (b.bits.xor other.bits n a) ∧
    sysBitarrayFindNthSet w b nth n a = some (b.bits.findNthSet nth n a) := by
  have hlt : a+n < 2^w := (hle.trans_lt b.lt).trans_le (Nat.pow_le_pow_right (by norm_num) hw)
  exact ⟨setClearRegion_bitwise hw hlt true,setClearRegion_bitwise hw hlt false,
    testAndSetRegion_bitwise hw (beyond_iff hlt) v,
    free_bitwise hw (beyond_iff hlt),popcountRegion_bitwise hw hlt,xor_bitwise hw hlt other,findNthSet_bitwise hw
      hlt nth⟩

def seventy : Bitarray := ⟨70,fun _ => 0xf0f0f0f0#32,by norm_num,by norm_num⟩

theorem regions_bitwise_seventy :
    (sysBitarraySetRegion 32 seventy 38 30).map shown = some (seventy.bits.setClear 38 30 true) ∧
    (sysBitarrayClearRegion 32 seventy 38 30).map shown = some (seventy.bits.setClear 38 30 false) ∧
    (sysBitarrayTestAndSetRegion 32 seventy 38 30 true).map shown = some (seventy.bits.testAndSet 38 30 true) ∧
    (sysBitarrayFree 32 seventy 38 30).map shown = some (seventy.bits.free 38 30) ∧
    sysBitarrayPopcountRegion 32 seventy 38 30 = some (seventy.bits.popcount 38 30) ∧
    (sysBitarrayXor 32 seventy seventy 38 30).map shown = some (seventy.bits.xor seventy.bits 38 30) ∧
    sysBitarrayFindNthSet 32 seventy 18 38 30 = some (seventy.bits.findNthSet 18 38 30) :=
  regions_bitwise 32 le_rfl seventy seventy 38 30 18 true (by decide)

example : sysBitarrayFindNthSet 32 seventy 18 38 30 = some (.ok (some 63)) := by decide +kernel

/-! Which requests the two checks let through. -/

/-- Whatever the bits of an array of `m` bits are: the operation touches only its bundles, and does
not accept a region that reaches over its end. -/
def Guards {α : Type*} (m n a : ℕ) (op : Bitarray → Option α) (ok : α → Bool) : Prop :=
  ∀ b, b.numBits = m → ∃ r, op b = some r ∧ (m < a+n → ok r = false)

/-- An array of equal bits. -/
def uniform {m : ℕ} (hm : 0 < m) (hlt : m < 2^32) (v : Bool) : Bitarray :=
  ⟨m,fun _ => if v then allOnes 32 else 0,hm,hlt⟩

section Checks
variable {α : Type*} {m nth : ℕ} {op : Bitarray → Option α} {ok : α → Bool}

lemma Guards.of_inside (h : ∀ b, b.numBits = m →
    (∃ r, op b = some r ∧ ok r = false) ∨ Inside b a n ∧ (op b).isSome) : Guards m n a op ok := by
  intro b hb
  rcases h b hb with ⟨r,hr,hfalse⟩ | ⟨hin,hsome⟩
  · exact ⟨r,hr,fun _ => hfalse⟩
  · obtain ⟨r,hr⟩ := isSome_iff_exists.mp hsome
    exact ⟨r,hr,fun hover => absurd hin.2 (by omega)⟩

/-- An operation that rejects nothing over the end of some array does not guard arrays of its size. -/
lemma not_guards {b : Bitarray} (hb : b.numBits = m) (hover : m < a+n) (h : ∀ r, op b = some r → ok r = true) :
    ¬Guards m n a op ok := by
  intro hguards
  obtain ⟨r,hr,hfalse⟩ := hguards b hb
  exact Bool.false_ne_true ((hfalse hover).symm.trans (h r hr))

lemma outside_or_inside (h : a+n < 2^w ∨ b.numBits < (a+n)%2^w) : outside w b n a ∨ Inside b a n := by
  rw [outside,Inside]
  rcases h with h | h
  · rw [Nat.mod_eq_of_lt h]
    omega
  · exact .inl (.inr h)

lemma not_outside (hw : 32 ≤ w) (ha : a < 2^w) (h : ¬(a+n < 2^w ∨ b.numBits < (a+n)%2^w)) :
    b.numBits < a+n ∧ ¬outside w b n a := by
  have hpow : 2^32 ≤ 2^w := Nat.pow_le_pow_right (by norm_num) hw
  have := b.lt
  rw [outside]
  omega

lemma beyond_or_inside (hw : 32 ≤ w) (h : a+n ≤ 2^w ∨ b.numBits < n ∨ b.numBits ≤ a) :
    beyond w b n a ∨ Inside b a n := by
  have hpow : 2^32 ≤ 2^w := Nat.pow_le_pow_right (by norm_num) hw
  have hsize := b.lt
  rcases h with h | h | h
  · rcases Nat.lt_or_eq_of_le h with hlt | heq
    · exact (em _).imp (beyond_iff hlt).mpr inside_of_not_bad
    · have hend : offEnd w a n = 2^w-1 := by
        rw [offEnd,heq,Nat.add_mod_left,Nat.mod_eq_of_lt (by omega)]
      exact .inl (.inr (.inr (.inr (by omega))))
  · exact .inl (.inr (.inl h))
  · exact .inl (.inr (.inr (.inl h)))

lemma not_beyond (hw : 32 ≤ w) (h : ¬(a+n ≤ 2^w ∨ b.numBits < n ∨ b.numBits ≤ a)) :
    b.numBits < a+n ∧ ¬beyond w b n a := by
  have hpow : 2^32 ≤ 2^w := Nat.pow_le_pow_right (by norm_num) hw
  have hsize := b.lt
  have hend : offEnd w a n = a+n-1-2^w := by
    rw [offEnd,show a+n+(2^w-1) = a+n-1-2^w+2^w*2 by omega,Nat.add_mul_mod_self_left,Nat.mod_eq_of_lt (by omega)]
  rw [beyond,hend]
  omega

lemma read_uniform (hm : 0 < m) (hlt : m < 2^32) {v : Bool} {idx : ℕ} {bundle : BitVec 32}
    (h : (uniform hm hlt v).read idx = some bundle) : (if v then allOnes 32 else 0) = bundle := by
  rw [read] at h
  split_ifs at h with hidx
  · exact some.inj h

lemma matchBundle_uniform (hm : 0 < m) (hlt : m < 2^32) {v : Bool} {idx : ℕ} {mask : BitVec 32} {r : Option ℕ}
    (h : matchBundle (uniform hm hlt v) v idx mask = some r) : r = none := by
  obtain ⟨bundle,hread,h⟩ := bind_eq_some_iff.mp h
  have hones : (if !v then ~~~bundle else bundle) = allOnes 32 := by
    rw [← read_uniform hm hlt hread]
    cases v <;> simp
  rw [hones] at h
  dsimp only at h
  rw [allOnes_and,if_neg (by simp)] at h
  exact (some.inj h).symm

lemma matchBetween_uniform (hm : 0 < m) (hlt : m < 2^32) {v : Bool} {idx l : ℕ} {r : Option ℕ}
    (h : matchBetween (uniform hm hlt v) v idx l = some r) : r = none := by
  induction l generalizing idx with
  | zero => exact (some.inj h).symm
  | succ l ih =>
    obtain ⟨bundle,hread,h⟩ := bind_eq_some_iff.mp h
    have hzero : (if v then ~~~bundle else bundle) = 0 := by
      rw [← read_uniform hm hlt hread]
      cases v <;> simp
    rw [hzero,if_neg (by simp)] at h
    exact ih h

lemma matchRegion_uniform (hm : 0 < m) (hlt : m < 2^32) {v : Bool} {r : Option ℕ}
    (h : matchRegion w (uniform hm hlt v) a n v = some r) : r = none := by
  simp only [matchRegion] at h
  split_ifs at h
  · exact matchBundle_uniform hm hlt h
  · obtain ⟨first,hfirst,h⟩ := bind_eq_some_iff.mp h
    cases matchBundle_uniform hm hlt hfirst
    obtain ⟨last,hlast,h⟩ := bind_eq_some_iff.mp h
    cases matchBundle_uniform hm hlt hlast
    exact matchBetween_uniform hm hlt h

/-- The check of `sys_bitarray_popcount_region` and its like, besides which an operation may have
another one. -/
lemma guards_outside_iff {C : Prop} (hw : 32 ≤ w) (hm : 0 < m) (hlt : m < 2^32) (ha : a < 2^w)
    (hbad : ∀ b, b.numBits = m → C ∨ outside w b n a → ∃ r, op b = some r ∧ ok r = false)
    (hin : ∀ b, Inside b a n → (op b).isSome)
    (hpass : ¬C → ∀ b, b.numBits = m → ¬outside w b n a → ∀ r, op b = some r → ok r = true) :
    Guards m n a op ok ↔ C ∨ a+n < 2^w ∨ m < (a+n)%2^w := by
  refine ⟨fun hguards => by_contra fun h => ?_,fun h => .of_inside fun b hb => ?_⟩
  · obtain ⟨hC,h⟩ := not_or.mp h
    obtain ⟨hover,hnot⟩ := not_outside (b := uniform hm hlt true) hw ha h
    exact not_guards rfl hover (hpass hC _ rfl hnot) hguards
  · rcases h with hC | h
    · exact .inl (hbad b hb (.inl hC))
    · rw [← hb] at h
      exact (outside_or_inside h).imp (fun hout => hbad b hb (.inr hout)) fun h => ⟨h,hin b h⟩

/-- The check of the other functions, which accept some array where it passes. -/
lemma guards_beyond_iff (hw : 32 ≤ w) (hm : 0 < m) (hlt : m < 2^32) (v : Bool)
    (hbad : ∀ b, beyond w b n a → ∃ r, op b = some r ∧ ok r = false)
    (hin : ∀ b, Inside b a n → (op b).isSome)
    (hpass : ¬beyond w (uniform hm hlt v) n a → ∀ r, op (uniform hm hlt v) = some r → ok r = true) :
    Guards m n a op ok ↔ a+n ≤ 2^w ∨ m < n ∨ m ≤ a := by
  refine ⟨fun hguards => by_contra fun h => ?_,fun h => .of_inside fun b hb => ?_⟩
  · obtain ⟨hover,hnot⟩ := not_beyond (b := uniform hm hlt v) hw h
    exact not_guards rfl hover (hpass hnot) hguards
  · rw [← hb] at h
    exact (beyond_or_inside hw h).imp (hbad b) fun h => ⟨h,hin b h⟩

lemma isSome_of_shown {r : Option (α × Bitarray)} {s : α × Bits} (h : r.map shown = some s) : r.isSome := by
  rw [← isSome_map,h]
  rfl

variable (hw : 32 ≤ w) (hm : 0 < m) (hlt : m < 2^32)
include hw hm hlt

lemma popcount_guards_iff (ha : a < 2^w) :
    Guards m n a (sysBitarrayPopcountRegion w · n a) (·.isOk) ↔ a+n < 2^w ∨ m < (a+n)%2^w := by
  rw [guards_outside_iff (C := False) hw hm hlt ha,false_or]
  · exact fun b _ hbad => ⟨_,if_pos (hbad.resolve_left id),rfl⟩
  · intro b hin
    rw [popcountRegion_bitwise hw (hin.lt hw)]
    rfl
  · intro _ b _ hnot r hr
    rw [sysBitarrayPopcountRegion,if_neg hnot] at hr
    dsimp only at hr
    split_ifs at hr
    · obtain ⟨_,-,⟨⟩⟩ := bind_eq_some_iff.mp hr
      rfl
    · obtain ⟨_,-,hr⟩ := bind_eq_some_iff.mp hr
      obtain ⟨_,-,hr⟩ := bind_eq_some_iff.mp hr
      obtain ⟨_,-,⟨⟩⟩ := bind_eq_some_iff.mp hr
      rfl

lemma xor_guards_iff (ha : a < 2^w) (other : Bitarray) :
    Guards m n a (sysBitarrayXor w · other n a) (·.1.isOk) ↔
      m ≠ other.numBits ∨ a+n < 2^w ∨ m < (a+n)%2^w := by
  refine guards_outside_iff hw hm hlt ha ?_ ?_ ?_
  · rintro b rfl hbad
    refine ⟨(.error .EINVAL,b),?_,rfl⟩
    rw [sysBitarrayXor]
    rcases hbad with hsize | hout
    · exact if_pos hsize
    · rw [if_pos hout,ite_self]
  · exact fun b hin => isSome_of_shown (xor_bitwise hw (hin.lt hw) other)
  · rintro hsize b rfl hnot r hr
    rw [sysBitarrayXor,if_neg hsize,if_neg hnot] at hr
    obtain ⟨_,-,⟨⟩⟩ := bind_eq_some_iff.mp hr
    rfl

lemma findNthSet_guards_iff (ha : a < 2^w) (nth : ℕ) :
    Guards m n a (sysBitarrayFindNthSet w · nth n a) (·.isOk) ↔ nth = 0 ∨ a+n < 2^w ∨ m < (a+n)%2^w := by
  refine guards_outside_iff hw hm hlt ha ?_ ?_ ?_
  · exact fun b _ hbad => ⟨_,if_pos hbad,rfl⟩
  · intro b hin
    rw [findNthSet_bitwise hw (hin.lt hw) nth]
    rfl
  · intro hnth b _ hnot r hr
    rw [sysBitarrayFindNthSet,if_neg (not_or.mpr ⟨hnth,hnot⟩)] at hr
    obtain ⟨found,-,hr⟩ := bind_eq_some_iff.mp hr
    cases found with
    | none =>
      cases hr
      rfl
    | some found =>
      obtain ⟨_,-,⟨⟩⟩ := bind_eq_some_iff.mp hr
      rfl

lemma free_guards_iff : Guards m n a (sysBitarrayFree w · n a) (·.1.isOk) ↔ a+n ≤ 2^w ∨ m < n ∨ m ≤ a := by
  refine guards_beyond_iff hw hm hlt true (fun b hbey => ⟨_,if_pos hbey,rfl⟩) (fun b hin => ?_) fun hnot r hr => ?_
  · exact isSome_of_shown (free_bitwise hw (beyond_iff (hin.lt hw)))
  · rw [sysBitarrayFree,if_neg hnot] at hr
    obtain ⟨_,hmatch,hr⟩ := bind_eq_some_iff.mp hr
    cases matchRegion_uniform hm hlt hmatch
    obtain ⟨_,-,⟨⟩⟩ := bind_eq_some_iff.mp hr
    rfl

lemma setClear_guards_iff (v : Bool) :
    Guards m n a (setClearRegion w · n a v) (·.1.isOk) ↔ a+n ≤ 2^w ∨ m < n ∨ m ≤ a := by
  refine guards_beyond_iff hw hm hlt v (fun b hbey => ⟨_,if_pos hbey,rfl⟩) (fun b hin => ?_) fun hnot r hr => ?_
  · exact isSome_of_shown (setClearRegion_bitwise hw (hin.lt hw) v)
  · rw [setClearRegion,if_neg hnot] at hr
    obtain ⟨_,-,⟨⟩⟩ := bind_eq_some_iff.mp hr
    rfl

lemma testAndSet_guards_iff (v : Bool) :
    Guards m n a (sysBitarrayTestAndSetRegion w · n a v) (·.1.isOk) ↔ a+n ≤ 2^w ∨ m < n ∨ m ≤ a := by
  refine guards_beyond_iff hw hm hlt (!v) (fun b hbey => ⟨_,if_pos hbey,rfl⟩) (fun b hin => ?_) fun hnot r hr => ?_
  · exact isSome_of_shown (testAndSetRegion_bitwise hw (beyond_iff (hin.lt hw)) v)
  · rw [sysBitarrayTestAndSetRegion,if_neg hnot] at hr
    obtain ⟨_,hmatch,hr⟩ := bind_eq_some_iff.mp hr
    cases matchRegion_uniform hm hlt hmatch
    obtain ⟨_,-,⟨⟩⟩ := bind_eq_some_iff.mp hr
    rfl

lemma isRegion_guards_iff (v : Bool) :
    Guards m n a (isRegionSetClear w · n a v) id ↔ a+n ≤ 2^w ∨ m < n ∨ m ≤ a := by
  refine guards_beyond_iff hw hm hlt v (fun b hbey => ⟨_,if_pos hbey,rfl⟩) (fun b hin => ?_) fun hnot r hr => ?_
  · rw [isRegionSetClear_bitwise hw (hin.lt hw) v]
    rfl
  · rw [isRegionSetClear,if_neg hnot] at hr
    obtain ⟨_,hmatch,⟨⟩⟩ := bind_eq_some_iff.mp hr
    rw [matchRegion_uniform hm hlt hmatch]
    rfl

end Checks

/-- Exactly which regions over the end of an array each operation rejects, whatever its bits are:
those whose end does not wrap around to a place in the array. -/
theorem regions_stay_inside (w : ℕ) (hw : 32 ≤ w) {m n a : ℕ} (hm : 0 < m) (hlt : m < 2^32) (ha : a < 2^w)
    (other : Bitarray) (nth : ℕ) (v : Bool) :
    (Guards m n a (sysBitarrayPopcountRegion w · n a) (·.isOk) ↔ a+n < 2^w ∨ m < (a+n)%2^w) ∧
    (Guards m n a (sysBitarrayXor w · other n a) (·.1.isOk) ↔
      m ≠ other.numBits ∨ a+n < 2^w ∨ m < (a+n)%2^w) ∧
    (Guards m n a (sysBitarrayFindNthSet w · nth n a) (·.isOk) ↔ nth = 0 ∨ a+n < 2^w ∨ m < (a+n)%2^w) ∧
    (Guards m n a (sysBitarrayFree w · n a) (·.1.isOk) ↔ a+n ≤ 2^w ∨ m < n ∨ m ≤ a) ∧
    (Guards m n a (setClearRegion w · n a v) (·.1.isOk) ↔ a+n ≤ 2^w ∨ m < n ∨ m ≤ a) ∧
    (Guards m n a (sysBitarrayTestAndSetRegion w · n a v) (·.1.isOk) ↔ a+n ≤ 2^w ∨ m < n ∨ m ≤ a) ∧
    (Guards m n a (isRegionSetClear w · n a v) id ↔ a+n ≤ 2^w ∨ m < n ∨ m ≤ a) :=
  ⟨popcount_guards_iff hw hm hlt ha,xor_guards_iff hw hm hlt ha other,findNthSet_guards_iff hw hm hlt ha nth,
    free_guards_iff hw hm hlt,setClear_guards_iff hw hm hlt v,testAndSet_guards_iff hw hm hlt v,
    isRegion_guards_iff hw hm hlt v⟩

/-- A region of all but one of the numbers of 64 bits: its end wraps around to 99, behind the array. -/
theorem regions_stay_inside_around : Guards 70 (2^64-1) 100 (sysBitarrayPopcountRegion 64 · (2^64-1) 100) (·.isOk) :=
  (regions_stay_inside 64 (by norm_num) (by norm_num) (by norm_num) (by norm_num) seventy 1 true).1.mpr
    (.inr (by norm_num))

/-- The sum of offset and length wraps around: the check passes, and a bundle far behind the array is
read. -/
theorem wrapped_end_passes :
    ¬outside 64 seventy 64 (2^64-32) ∧ seventy.numBits < 2^64-32+64 ∧
      (setupBundleData 64 (2^64-32) 64).sidx = 2^59-1 ∧
      sysBitarrayPopcountRegion 64 seventy 64 (2^64-32) = none ∧
      (sysBitarrayXor 64 seventy seventy 64 (2^64-32)).isNone ∧ sysBitarrayFindNthSet 64 seventy 1 64
        (2^64-32) = none := by
  decide +kernel

end

/-! Allocation takes the first region of clear bits. -/

open Nat
variable {w : ℕ} {b : Bitarray} {n : ℕ}

/-- A run of clear bits that can be allocated. -/
def ClearRun (b : Bitarray) (n s : ℕ) : Prop := 0 < n ∧ s+n ≤ b.numBits ∧ b.bits.All n s false

/-- All bits before the bundle where the search begins are set. -/
lemma firstClear_spec (b : Bitarray) (idx l : ℕ) (hl : idx+l = b.numBundles) (hset : ∀ i < idx*32, b.bit i = true) :
    ∃ r, firstClear b idx l (idx*32%2^32) = some r ∧ ∀ i < r, b.bit i = true := by
  induction l generalizing idx with
  | zero =>
    -- the index has wrapped around if there are 2^27 bundles, and the search begins at 0
    exact ⟨_,rfl,fun i hi => hset i (hi.trans_le (mod_le ..))⟩
  | succ l ih =>
    have hidx : idx < b.numBundles := by omega
    have hlt := lt_numBundles.mp hidx
    have hsize := b.lt
    -- set bits of this bundle are those that its complement has not
    have hnext :
      ∀ m, m ≤ 32 → (∀ j < m, (~~~(b.bundles idx)).getLsbD j = false) → ∀ i < idx*32+m, b.bit i = true := by
      intro m hm hclear i hi
      by_cases hi' : i < idx*32
      · exact hset i hi'
      · obtain ⟨j,rfl⟩ := Nat.exists_eq_add_of_le (Nat.not_lt.mp hi')
        have hj := hclear j (by omega)
        rw [BitVec.getLsbD_not,decide_eq_true (show j < 32 by omega),Bool.true_and,Bool.not_eq_false'] at hj
        rw [bit_bundle b idx (by omega),hj]
    rw [firstClear,read_eq hidx,bind_eq_bind,bind_some]
    by_cases hfull : ~~~(b.bundles idx) = 0
    · obtain ⟨r,hr,hbits⟩ := ih (idx+1) (by omega) (by
        rw [add_mul,one_mul]
        exact hnext 32 le_rfl fun j _ => by rw [hfull]; simp)
      refine ⟨r,?_,hbits⟩
      rw [if_pos hfull,mod_add_mod]
      rwa [add_mul,one_mul] at hr
    · rw [if_neg hfull]
      by_cases hempty : b.bundles idx = 0
      · refine ⟨idx*32,?_,hset⟩
        rw [if_neg (not_not.mpr hempty),mod_eq_of_lt (by omega)]
        rfl
      · have hlsb := lsb_lt hfull
        refine ⟨idx*32+lsb (~~~(b.bundles idx)),?_,hnext _ hlsb.le fun j hj => getLsbD_of_lt_lsb hj⟩
        rw [if_pos hempty,findLsbSet,if_neg hfull,Nat.add_sub_cancel,Nat.mod_add_mod,Nat.mod_eq_of_lt (by omega)]
        rfl

lemma not_clearRun_of_set {i m : ℕ} (hset : b.bit i ≠ false) (hmi : m ≤ i) (him : i < m+n) : ¬ClearRun b n m := by
  rintro ⟨-,-,hall⟩
  exact hset ((all_iff false).mp hall i hmi him)

/-- What an allocation of `n` bits must do. -/
structure FirstFit (b : Bitarray) (n : ℕ) (r : Except Errno ℕ) (b' : Bitarray) : Prop where
  ok_iff : (∃ off, r = .ok off) ↔ ∃ s, ClearRun b n s
  taken : ∀ off, r = .ok off → IsLeast {s | ClearRun b n s} off ∧ b'.bits = b.bits.fill n off true
  failed : ∀ e, r = .error e → b' = b ∧ e = if n = 0 ∨ n > b.numBits then .EINVAL else .ENOSPC

lemma FirstFit.of_error {e : Errno} (hnone : ∀ s, ¬ClearRun b n s)
    (he : e = if n = 0 ∨ n > b.numBits then .EINVAL else .ENOSPC) : FirstFit b n (.error e) b := by
  refine ⟨⟨fun ⟨off,hoff⟩ => (nomatch hoff),fun ⟨s,hs⟩ => absurd hs (hnone s)⟩,fun off hoff => (nomatch hoff),?_⟩
  intro e' he'
  obtain rfl := Except.error.inj he'
  exact ⟨rfl,he⟩

/-- The search of `sys_bitarray_alloc` finds the first fit, if there is one. -/
lemma allocLoop_spec (hw : 32 ≤ w) (hn : 0 < n) (hle : n ≤ b.numBits) (fuel bitIdx : ℕ)
    (hfuel : b.numBits-n+1 < bitIdx+fuel) (hpos : 0 < fuel) (hnone : ∀ s < bitIdx, ¬ClearRun b n s) :
    ∃ r b', allocLoop w b n fuel bitIdx = some (r,b') ∧ FirstFit b n r b' := by
  induction fuel generalizing bitIdx with
  | zero => omega
  | succ fuel ih =>
    rw [allocLoop]
    by_cases hend : bitIdx ≤ b.numBits-n
    · have hin : Inside b bitIdx n := ⟨hn,by omega⟩
      obtain ⟨r,hr,hspec⟩ := matchRegion_spec hw hin false
      rw [if_pos hend,hr]
      cases r with
      | none =>
        obtain ⟨b',hb',happ⟩ := setRegion_spec hw hin true
        have hrun : ClearRun b n bitIdx := ⟨hn,hin.2,(all_iff false).mpr hspec⟩
        refine ⟨.ok bitIdx,b',by simp [hb'],⟨fun _ => ⟨bitIdx,hrun⟩,fun _ => ⟨bitIdx,rfl⟩⟩,?_,fun e he => nomatch he⟩
        intro off hoff
        obtain rfl := Except.ok.inj hoff
        refine ⟨⟨hrun,fun s hs => ?_⟩,happ.bits_eq⟩
        by_contra hlt
        exact hnone s (not_le.mp hlt) hs
      | some i =>
        obtain ⟨hi,hi',hset⟩ := hspec
        have hsize := b.lt
        have hmod : (i+1)%2^32 = i+1 := mod_eq_of_lt (by omega)
        simp only [bind_eq_bind,bind_some,hmod]
        refine ih (i+1) (by omega) (by omega) fun s hs => ?_
        by_cases hs' : s < bitIdx
        · exact hnone s hs'
        · exact not_clearRun_of_set hset (by omega) (by omega)
    · refine ⟨_,_,if_neg hend,.of_error (fun s hs => ?_) ?_⟩
      · have := hs.2.1
        exact hnone s (by omega) hs
      · rw [if_neg (by omega)]

lemma sysBitarrayAlloc_spec (hw : 32 ≤ w) (b : Bitarray) (n : ℕ) :
    ∃ r b', sysBitarrayAlloc w b n = some (r,b') ∧ FirstFit b n r b' := by
  rw [sysBitarrayAlloc]
  by_cases hbad : n = 0 ∨ n > b.numBits
  · refine ⟨_,_,if_pos hbad,.of_error (fun s hs => ?_) (if_pos hbad).symm⟩
    obtain ⟨hn,hle,-⟩ := hs
    omega
  · obtain ⟨r,hr,hset⟩ := firstClear_spec b 0 b.numBundles (by omega) (by simp)
    rw [zero_mul,zero_mod] at hr
    rw [if_neg hbad,hr]
    refine allocLoop_spec hw (by omega) (by omega) _ _ (by omega) (by omega) fun s hs hrun => ?_
    exact not_clearRun_of_set (by simp [hset s hs]) le_rfl (by omega) hrun

/-- `sys_bitarray_alloc` finds a region of clear bits exactly if there is one, takes the first and sets its
bits, and otherwise changes nothing. -/
theorem alloc_first_fit (w : ℕ) (hw : 32 ≤ w) (b : Bitarray) (n : ℕ) :
    ∃ r b', sysBitarrayAlloc w b n = some (r,b') ∧ FirstFit b n r b' := sysBitarrayAlloc_spec hw b n

theorem alloc_first_fit_seventy : ∃ r b', sysBitarrayAlloc 64 seventy 5 = some (r,b') ∧ FirstFit seventy 5 r b' :=
  alloc_first_fit 64 (by norm_num) seventy 5

end ArmFirmware.Zephyr.Bitarray
