import Mathlib

/-! Windows on a circular array. Absolute positions are unbounded naturals; position `n`
lives in cell `n % N`, so a window of at most `N` consecutive positions meets no cell twice. -/
namespace ArmFirmware.Library
open List Nat Function

/-- The values in the cells of `len` consecutive absolute positions. -/
def ringRead {α : Type*} (m : ℕ → α) (N start len : ℕ) : List α :=
  (range len).map fun i => m ((start+i) % N)

/-- Copy `n` values of `src` to the cells from `off` on. -/
def blit {α : Type*} (m : ℕ → α) (off n : ℕ) (src : ℕ → α) : ℕ → α :=
  fun i => if off ≤ i ∧ i < off+n then src (i-off) else m i

section Window
variable {α : Type*} {m m' : ℕ → α} {N : ℕ}

@[simp] lemma ringRead_length (start len : ℕ) : (ringRead m N start len).length = len := by
  simp [ringRead]

@[simp] lemma ringRead_zero (start : ℕ) : ringRead m N start 0 = [] := rfl

lemma ringRead_getElem? (start len i : ℕ) :
    (ringRead m N start len)[i]? = if i < len then some (m ((start+i) % N)) else none := by
  by_cases h : i < len <;> simp [ringRead,h]

lemma ringRead_append (start a b : ℕ) :
    ringRead m N start (a+b) = ringRead m N start a ++ ringRead m N (start+a) b := by
  simp only [ringRead,range_add,map_append,map_map]
  congr 1
  apply map_congr_left
  intro i _
  simp [Nat.add_assoc]

lemma ringRead_congr (start len : ℕ) (h : ∀ i < len, m ((start+i) % N) = m' ((start+i) % N)) :
    ringRead m N start len = ringRead m' N start len := by
  apply map_congr_left
  intro i hi
  exact h i (mem_range.mp hi)

variable {start : ℕ}

lemma ringRead_of_mod {start' : ℕ} (h : start%N = start'%N) (len : ℕ) :
    ringRead m N start len = ringRead m N start' len := by
  apply map_congr_left
  intro i _
  rw [add_mod,h,← add_mod]

variable {len n : ℕ}

lemma ringRead_take (h : n ≤ len) : (ringRead m N start len).take n = ringRead m N start n := by
  obtain ⟨k,rfl⟩ := Nat.exists_eq_add_of_le h
  rw [ringRead_append,take_append_of_le_length (by simp),take_of_length_le (by simp)]

lemma ringRead_drop (h : n ≤ len) : (ringRead m N start len).drop n = ringRead m N (start+n) (len-n) := by
  obtain ⟨k,rfl⟩ := Nat.exists_eq_add_of_le h
  rw [ringRead_append,drop_append_of_le_length (by simp),drop_of_length_le (by simp)]
  simp

/-- Two positions closer than one turn never share a cell. -/
lemma mod_ne_of_lt {a b : ℕ} (hab : a < b) (hb : b < a+N) : a % N ≠ b % N := by
  intro h
  have hz := sub_mod_eq_zero_of_mod_eq h.symm
  rw [mod_eq_of_lt (by omega)] at hz
  omega

variable {H : ℕ}

/-- A slice that does not cross the end of the array is contiguous. -/
lemma add_mod_of_slice {j : ℕ} (hN : 0 < N) (hslice : H % N+n ≤ N) (hj : j < n) : (H+j) % N = H % N+j := by
  rw [add_mod,mod_eq_of_lt (a := j) (by have := mod_lt H hN; omega),mod_eq_of_lt (by omega)]

lemma ringRead_slice (hN : 0 < N) (hslice : H % N+n ≤ N) :
    ringRead m N H n = (range n).map fun i => m (H % N+i) := by
  apply map_congr_left
  intro i hi
  rw [add_mod_of_slice hN hslice (mem_range.mp hi)]

variable {src : ℕ → α}

lemma ringRead_blit_self (hN : 0 < N) (hslice : H % N+n ≤ N) :
    ringRead (blit m (H % N) n src) N H n = (range n).map src := by
  rw [ringRead_slice hN hslice]
  apply map_congr_left
  intro i hi
  have hi := mem_range.mp hi
  rw [blit,if_pos (by omega)]
  congr 1
  omega

/-- A window that ends where the slice starts, and begins less than a turn before
the slice ends, keeps its values. -/
lemma ringRead_blit_of_disjoint (hN : 0 < N) (hslice : H % N+n ≤ N) (hend : start+len ≤ H) (hturn : H+n ≤ start+N) :
    ringRead (blit m (H % N) n src) N start len = ringRead m N start len := by
  apply ringRead_congr
  intro i hi
  unfold blit
  rw [if_neg]
  rintro ⟨hlo,hhi⟩
  -- the written cell would be the cell of a later position of the same turn
  have hcell := add_mod_of_slice (j := (start+i) % N-H % N) hN hslice (by omega)
  have hne := mod_ne_of_lt (N := N) (a := start+i) (b := H+((start+i) % N-H % N))
    (by omega) (by omega)
  omega

/-- Overwriting one cell of a window changes one entry of what it reads. -/
lemma ringRead_update {i : ℕ} (v : α) (hN : len ≤ N) (hi : i < len) :
    ringRead (update m ((start+i) % N) v) N start len = (ringRead m N start len).set i v := by
  apply ext_getElem?
  intro j
  rw [ringRead_getElem?,getElem?_set,ringRead_getElem?,ringRead_length]
  by_cases hij : i = j
  · subst hij
    simp [hi]
  · by_cases hj : j < len
    · have hne : (start+j) % N ≠ (start+i) % N := by
        rcases lt_or_gt_of_ne hij with h | h
        · exact (mod_ne_of_lt (by omega) (by omega)).symm
        · exact mod_ne_of_lt (by omega) (by omega)
      simp [hj,hij,Function.update_of_ne hne]
    · simp [hj,hij]

/-- Overwriting a cell of a later window leaves an earlier one of the same turn alone. -/
lemma ringRead_update_of_disjoint {s p : ℕ} (v : α) (hend : s+len ≤ p) (hturn : p < s+N) :
    ringRead (update m (p % N) v) N s len = ringRead m N s len := by
  apply ringRead_congr
  intro i hi
  exact Function.update_of_ne (mod_ne_of_lt (by omega) (by omega)) _ _

/-- Copy `n` values of `src` to the cells from position `H` on, in two pieces if they cross the end of the
array. -/
def ringWrite {α : Type*} (m : ℕ → α) (N H n : ℕ) (src : ℕ → α) : ℕ → α :=
  let k := min n (N-H%N)
  blit (blit m (H%N) k src) 0 (n-k) fun i => src (k+i)

lemma next_turn (H : ℕ) (hN : 0 < N) : (H+(N-H%N))%N = 0 := by
  have hdiv := div_add_mod H N
  have hH := mod_lt H hN
  rw [show H+(N-H%N) = N*(H/N+1) by rw [mul_add,mul_one]; omega,mul_mod_right]

/-- What is written behind a window extends it. -/
lemma ringRead_ringWrite (hN : 0 < N) (hend : start+len = H) (hfit : len+n ≤ N) :
    ringRead (ringWrite m N H n src) N start (len+n) = ringRead m N start len ++ (range n).map src := by
  have hH := mod_lt H hN
  -- the first piece
  have hfirst : ∀ k, k ≤ n → H%N+k ≤ N →
      ringRead (blit m (H%N) k src) N start (len+k) = ringRead m N start len ++ (range k).map src :=
        fun k hk hslice => by
    rw [ringRead_append,ringRead_blit_of_disjoint hN hslice hend.le (by omega),hend,ringRead_blit_self hN hslice]
  by_cases hone : n ≤ N-H%N
  · rw [ringWrite,Nat.min_eq_left hone,Nat.sub_self]
    have hnone : blit (blit m (H%N) n src) 0 0 (fun i => src (n+i)) = blit m (H%N) n src := by
      funext i
      exact if_neg (by omega)
    rw [hnone,hfirst n le_rfl (by omega)]
  · have hk : N-H%N ≤ n := by omega
    obtain ⟨l,rfl⟩ := Nat.exists_eq_add_of_le hk
    -- the second piece begins a new turn
    have hturn := next_turn H hN
    rw [ringWrite,Nat.min_eq_right hk,Nat.add_sub_cancel_left,← Nat.add_assoc,ringRead_append,← hturn,
      ringRead_blit_of_disjoint hN (by omega) (by omega) (by omega),hfirst _ hk (by omega),
      show start+(len+(N-H%N)) = H+(N-H%N) by omega,ringRead_blit_self hN (by omega),range_add,map_append,
      map_map,append_assoc]
    rfl

/-- A window is read in two pieces if it crosses the end of the array. -/
lemma ringRead_pieces (hN : 0 < N) (hn : n ≤ N) :
    ringRead m N H n = (range (min n (N-H%N))).map (fun i => m (H%N+i)) ++ (range (n-min n (N-H%N))).map m := by
  have hH := mod_lt H hN
  by_cases hone : n ≤ N-H%N
  · rw [Nat.min_eq_left hone,Nat.sub_self,range_zero,map_nil,append_nil,ringRead_slice hN (by omega)]
  · have hk : N-H%N ≤ n := by omega
    obtain ⟨l,rfl⟩ := Nat.exists_eq_add_of_le hk
    have hturn := next_turn H hN
    rw [Nat.min_eq_right hk,Nat.add_sub_cancel_left,ringRead_append,ringRead_slice hN (by omega),
      ringRead_slice hN (by omega),hturn]
    simp only [zero_add]

end Window
end ArmFirmware.Library
