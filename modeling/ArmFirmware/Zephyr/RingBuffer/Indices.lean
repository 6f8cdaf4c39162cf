import ArmFirmware.Zephyr.RingBuffer.Model

/-! The six 32-bit counters against unbounded positions. Bases are multiples of the size,
so a position's cell is its remainder, however often counters and array have wrapped. -/
namespace ArmFirmware.Zephyr.RingBuffer
open Library Nat

section
open BitVec

/-- The positions the counters would have if they never wrapped. -/
structure Positions where
  putHead : ℕ
  putTail : ℕ
  putBase : ℕ
  getHead : ℕ
  getTail : ℕ
  getBase : ℕ

/-- The buffer whose counters are the positions `p` modulo 2^32. -/
def place (m : ℕ → UInt8) (size : BitVec 32) (p : Positions) : RingBuf :=
  ⟨m,BitVec.ofNat 32 p.putHead,BitVec.ofNat 32 p.putTail,BitVec.ofNat 32 p.putBase,
    BitVec.ofNat 32 p.getHead,BitVec.ofNat 32 p.getTail,BitVec.ofNat 32 p.getBase,size⟩

/-- The positions are in order and within one buffer of each other, and each tail is
less than one buffer after its base. -/
structure Ordered (N : ℕ) (p : Positions) : Prop where
  size_pos : 0 < N
  size_lt : N < 0x80000000
  getTail_le : p.getTail ≤ p.getHead
  getHead_le : p.getHead ≤ p.putTail
  putTail_le : p.putTail ≤ p.putHead
  putHead_le : p.putHead ≤ p.getTail+N
  putBase_dvd : N ∣ p.putBase
  putBase_le : p.putBase ≤ p.putTail
  putTail_lt : p.putTail < p.putBase+N
  getBase_dvd : N ∣ p.getBase
  getBase_le : p.getBase ≤ p.getTail
  getTail_lt : p.getTail < p.getBase+N

lemma ofNat_sub_toNat {a c : ℕ} (h : a ≤ c) (hd : c-a < 2^32) :
    (BitVec.ofNat 32 c-BitVec.ofNat 32 a).toNat = c-a := by
  rw [toNat_sub,toNat_ofNat,toNat_ofNat]
  omega

lemma ofNat_add (a : ℕ) (n : BitVec 32) : BitVec.ofNat 32 a+n = BitVec.ofNat 32 (a+n.toNat) := by
  apply eq_of_toNat_eq
  simp

lemma toNat_min (a c : BitVec 32) : (if a < c then a else c).toNat = min a.toNat c.toNat := by
  simp only [lt_def]
  split_ifs with h <;> omega

lemma mod_eq_of_base {N B H : ℕ} (hB : N ∣ B) (h₁ : B ≤ H) (h₂ : H < B+2*N) :
    H % N = if N ≤ H-B then H-B-N else H-B := by
  obtain ⟨k,rfl⟩ := hB
  obtain ⟨d,rfl⟩ := Nat.exists_eq_add_of_le h₁
  rw [Nat.mul_add_mod,Nat.add_sub_cancel_left]
  split_ifs with hd
  · rw [mod_eq_sub_mod hd,mod_eq_of_lt (by omega)]
  · exact mod_eq_of_lt (by omega)

/-- A claim starts in the cell of its head and stops at the end of the array. -/
theorem claimSlice_spec (bufSize available size : BitVec 32) {B H : ℕ}
    (hlt : bufSize.toNat < 0x80000000) (hB : bufSize.toNat ∣ B) (h₁ : B ≤ H) (h₂ : H < B+2*bufSize.toNat) :
    (claimSlice bufSize (BitVec.ofNat 32 B) (BitVec.ofNat 32 H) available size).1 = H % bufSize.toNat ∧
      (claimSlice bufSize (BitVec.ofNat 32 B) (BitVec.ofNat 32 H) available size).2.toNat =
        min (min size.toNat available.toNat) (bufSize.toNat-H % bufSize.toNat) := by
  have hwrap := ofNat_sub_toNat h₁ (by omega)
  have hmod := mod_eq_of_base hB h₁ h₂
  by_cases hlate : bufSize.toNat ≤ H-B
  · have hle : bufSize ≤ BitVec.ofNat 32 H-BitVec.ofNat 32 B := by
      rw [le_def,hwrap]; exact hlate
    rw [if_pos hlate] at hmod
    simp only [claimSlice,hle,decide_true,if_true,toNat_min]
    constructor
    · rw [ofNat_add,ofNat_sub_toNat (by omega) (by omega)]
      omega
    · rw [BitVec.toNat_sub,BitVec.toNat_sub,hwrap]
      omega
  · have hnle : ¬ bufSize ≤ BitVec.ofNat 32 H-BitVec.ofNat 32 B := by
      rw [le_def,hwrap]; exact hlate
    rw [if_neg hlate] at hmod
    simp only [claimSlice,hnle,decide_false,Bool.false_eq_true,if_false,toNat_min]
    constructor
    · rw [hwrap,hmod]
    · rw [BitVec.toNat_sub,hwrap]
      omega

def nextBase (N base tail : ℕ) : ℕ := if N ≤ tail-base then base+N else base

lemma finishIndex_spec (bufSize size : BitVec 32) {B T : ℕ}
    (hlt : bufSize.toNat < 0x80000000) (h₁ : B ≤ T) (h₂ : T < B+bufSize.toNat) (hn : size.toNat ≤ bufSize.toNat) :
    finishIndex bufSize (BitVec.ofNat 32 B) (BitVec.ofNat 32 T) size = (BitVec.ofNat 32 (T+size.toNat),
        BitVec.ofNat 32 (nextBase bufSize.toNat B (T+size.toNat))) := by
  have hwrap : (BitVec.ofNat 32 (T+size.toNat)-BitVec.ofNat 32 B).toNat = T+size.toNat-B :=
    ofNat_sub_toNat (by omega) (by omega)
  simp only [finishIndex,ofNat_add,le_def,hwrap,nextBase]
  split_ifs <;> rfl

lemma nextBase_spec {N B T : ℕ} (hB : N ∣ B) (h₁ : B ≤ T) (h₂ : T < B+2*N) :
    N ∣ nextBase N B T ∧ nextBase N B T ≤ T ∧ T < nextBase N B T+N := by
  unfold nextBase
  split_ifs with h
  · exact ⟨dvd_add hB dvd_rfl,by omega,by omega⟩
  · exact ⟨hB,h₁,by omega⟩

lemma toNat_ofNat_of_lt {n : ℕ} (h : n < 0x80000000) : (BitVec.ofNat 32 n).toNat = n := by
  rw [toNat_ofNat]
  omega

lemma eq_ofNat_of_toNat {x : BitVec 32} {n : ℕ} (h : x.toNat = n) : x = BitVec.ofNat 32 n := by
  rw [← h]
  simp

namespace Positions

def putGrant (N : ℕ) (p : Positions) (n : ℕ) : ℕ :=
  min (min n (N-(p.putHead-p.getTail))) (N-p.putHead % N)

def getGrant (N : ℕ) (p : Positions) (n : ℕ) : ℕ :=
  min (min n (p.putTail-p.getHead)) (N-p.getHead % N)

def claimPut (p : Positions) (k : ℕ) : Positions := {p with putHead := p.putHead+k}
def claimGet (p : Positions) (k : ℕ) : Positions := {p with getHead := p.getHead+k}

def finishPut (N : ℕ) (p : Positions) (n : ℕ) : Positions :=
  {p with putHead := p.putTail+n, putTail := p.putTail+n,
          putBase := nextBase N p.putBase (p.putTail+n)}

def finishGet (N : ℕ) (p : Positions) (n : ℕ) : Positions :=
  {p with getHead := p.getTail+n, getTail := p.getTail+n,
          getBase := nextBase N p.getBase (p.getTail+n)}

end Positions

namespace Ordered
variable {N : ℕ} {p : Positions}

theorem init (hpos : 0 < N) (hlt : N < 0x80000000) : Ordered N ⟨0,0,0,0,0,0⟩ := by
  constructor <;> simp [hpos,hlt]

theorem claimPut (h : Ordered N p) {k : ℕ} (hk : k ≤ N-(p.putHead-p.getTail)) :
    Ordered N (p.claimPut k) where
  __ := h
  putTail_le := h.putTail_le.trans (le_add_right _ _)
  putHead_le := by
    have h₁ := h.putHead_le
    change p.putHead+k ≤ p.getTail+N
    omega

theorem claimGet (h : Ordered N p) {k : ℕ} (hk : k ≤ p.putTail-p.getHead) :
    Ordered N (p.claimGet k) where
  __ := h
  getTail_le := h.getTail_le.trans (le_add_right _ _)
  getHead_le := by
    have h₁ := h.getHead_le
    change p.getHead+k ≤ p.putTail
    omega

theorem finishPut (h : Ordered N p) {n : ℕ} (hn : n ≤ p.putHead-p.putTail) : Ordered N (p.finishPut N n) := by
  obtain ⟨-,-,h₁,h₂,h₃,h₄,h₅,h₆,h₇,-,-,-⟩ := id h
  obtain ⟨hd,hle,hlt⟩ := nextBase_spec (T := p.putTail+n) h₅ (by omega) (by omega)
  exact { h with
    getHead_le := h₂.trans (le_add_right _ _)
    putTail_le := le_rfl
    putHead_le := by change p.putTail+n ≤ p.getTail+N; omega
    putBase_dvd := hd
    putBase_le := hle
    putTail_lt := hlt }

theorem finishGet (h : Ordered N p) {n : ℕ} (hn : n ≤ p.getHead-p.getTail) : Ordered N (p.finishGet N n) := by
  obtain ⟨-,-,h₁,h₂,h₃,h₄,-,-,-,h₅,h₆,h₇⟩ := id h
  obtain ⟨hd,hle,hlt⟩ := nextBase_spec (T := p.getTail+n) h₅ (by omega) (by omega)
  exact { h with
    getTail_le := le_rfl
    getHead_le := by change p.getTail+n ≤ p.putTail; omega
    putHead_le := by change p.putHead ≤ p.getTail+n+N; omega
    getBase_dvd := hd
    getBase_le := hle
    getTail_lt := hlt }

end Ordered

section Placed
variable {m : ℕ → UInt8} {size : BitVec 32} {p : Positions}

theorem spaceGet_place (h : Ordered size.toNat p) :
    (ringBufSpaceGet (place m size p)).toNat = size.toNat-(p.putHead-p.getTail) := by
  obtain ⟨-,h₀,h₁,h₂,h₃,h₄,-,-,-,-,-,-⟩ := h
  simp only [ringBufSpaceGet,place]
  rw [toNat_sub,ofNat_sub_toNat (by omega) (by omega)]
  omega

theorem sizeGet_place (h : Ordered size.toNat p) :
    (ringBufSizeGet (place m size p)).toNat = p.putTail-p.getHead := by
  obtain ⟨-,h₀,h₁,h₂,h₃,h₄,-,-,-,-,-,-⟩ := h
  exact ofNat_sub_toNat (by omega) (by omega)

/-- Two counters at most one buffer apart are equal only if their positions are. -/
theorem counter_eq_iff {x y : ℕ} (hlt : size.toNat < 0x80000000) (hxy : x ≤ y)
    (hy : y ≤ x+size.toNat) : BitVec.ofNat 32 y = BitVec.ofNat 32 x ↔ y = x := by
  constructor
  · intro he
    have hd := ofNat_sub_toNat hxy (by omega)
    rw [he,BitVec.sub_self,BitVec.toNat_zero] at hd
    omega
  · rintro rfl; rfl

section
variable (h : Ordered size.toNat p)
include h

theorem putClaim_place (n : BitVec 32) : ringBufPutClaim (place m size p) n =
      (place m size (p.claimPut (p.putGrant size.toNat n.toNat)),p.putHead % size.toNat,
        BitVec.ofNat 32 (p.putGrant size.toNat n.toNat)) := by
  obtain ⟨-,h₀,h₁,h₂,h₃,h₄,h₅,h₆,h₇,-,-,-⟩ := id h
  obtain ⟨hcell,hsize⟩ := claimSlice_spec size (ringBufSpaceGet (place m size p)) n
    (H := p.putHead) h₀ h₅ (by omega) (by omega)
  rw [spaceGet_place h] at hsize
  have hgrant := eq_ofNat_of_toNat hsize
  have hhead := (ofNat_add p.putHead _).trans
    (congrArg (fun k => BitVec.ofNat 32 (p.putHead+k)) hsize)
  exact Prod.ext (congrArg (fun x => {place m size p with putHead := x}) hhead)
    (Prod.ext hcell hgrant)

theorem getClaim_place (n : BitVec 32) : ringBufGetClaim (place m size p) n =
      (place m size (p.claimGet (p.getGrant size.toNat n.toNat)),p.getHead % size.toNat,
        BitVec.ofNat 32 (p.getGrant size.toNat n.toNat)) := by
  obtain ⟨-,h₀,h₁,h₂,h₃,h₄,-,-,-,h₅,h₆,h₇⟩ := id h
  obtain ⟨hcell,hsize⟩ := claimSlice_spec size (ringBufSizeGet (place m size p)) n
    (H := p.getHead) h₀ h₅ (by omega) (by omega)
  rw [sizeGet_place h] at hsize
  have hgrant := eq_ofNat_of_toNat hsize
  have hhead := (ofNat_add p.getHead _).trans
    (congrArg (fun k => BitVec.ofNat 32 (p.getHead+k)) hsize)
  exact Prod.ext (congrArg (fun x => {place m size p with getHead := x}) hhead)
    (Prod.ext hcell hgrant)

/-- A put finish commits what it is told to, and fails without effect when that is more
than the outstanding claims. -/
theorem putFinish_place (n : BitVec 32) : ringBufPutFinish (place m size p) n =
      if p.putHead-p.putTail < n.toNat then (place m size p,-EINVAL)
      else (place m size (p.finishPut size.toNat n.toNat),0) := by
  obtain ⟨-,h₀,h₁,h₂,h₃,h₄,h₅,h₆,h₇,-,-,-⟩ := id h
  have hspace : (BitVec.ofNat 32 p.putHead-BitVec.ofNat 32 p.putTail).toNat =
      p.putHead-p.putTail := ofNat_sub_toNat h₃ (by omega)
  simp only [ringBufPutFinish,place,lt_def,hspace]
  split_ifs with hn
  · rfl
  · rw [finishIndex_spec size n h₀ h₆ h₇ (by omega)]
    rfl

theorem getFinish_place (n : BitVec 32) : ringBufGetFinish (place m size p) n =
      if p.getHead-p.getTail < n.toNat then (place m size p,-EINVAL)
      else (place m size (p.finishGet size.toNat n.toNat),0) := by
  obtain ⟨-,h₀,h₁,h₂,h₃,h₄,-,-,-,h₅,h₆,h₇⟩ := id h
  have hspace : (BitVec.ofNat 32 p.getHead-BitVec.ofNat 32 p.getTail).toNat =
      p.getHead-p.getTail := ofNat_sub_toNat h₁ (by omega)
  simp only [ringBufGetFinish,place,lt_def,hspace]
  split_ifs with hn
  · rfl
  · rw [finishIndex_spec size n h₀ h₆ h₇ (by omega)]
    rfl

end

end Placed
end

/-! The copying loops move as many bytes as fit, whatever slices the claims hand out. -/

open List Positions
variable {p : Positions}

namespace Positions

/-- Bytes that put claims can still be granted. -/
def room (N : ℕ) (p : Positions) : ℕ := N-(p.putHead-p.getTail)

/-- Committed bytes that no get claim has handed out. -/
def unclaimed (p : Positions) : ℕ := p.putTail-p.getHead

end Positions

section Rounds
variable {N : ℕ} {p : Positions}

lemma putGrant_cases (h : Ordered N p) (n : ℕ) :
    p.putGrant N n ≤ min n (p.room N) ∧ p.putHead % N+p.putGrant N n ≤ N ∧
      (p.putGrant N n = 0 → min n (p.room N) = 0) := by
  have hlt := mod_lt p.putHead h.size_pos
  unfold putGrant room
  omega

lemma getGrant_cases (h : Ordered N p) (n : ℕ) :
    p.getGrant N n ≤ min n p.unclaimed ∧ p.getHead % N+p.getGrant N n ≤ N ∧
      (p.getGrant N n = 0 → min n p.unclaimed = 0) := by
  have hlt := mod_lt p.getHead h.size_pos
  unfold getGrant unclaimed
  omega

@[simp] lemma claimPut_claimPut (a c : ℕ) : (p.claimPut a).claimPut c = p.claimPut (a+c) := by
  simp [claimPut,add_assoc]

@[simp] lemma claimGet_claimGet (a c : ℕ) : (p.claimGet a).claimGet c = p.claimGet (a+c) := by
  simp [claimGet,add_assoc]

lemma room_claimPut (k : ℕ) : (p.claimPut k).room N = N-(p.putHead+k-p.getTail) := rfl

lemma unclaimed_claimGet (k : ℕ) : (p.claimGet k).unclaimed = p.putTail-(p.getHead+k) := rfl

end Rounds

lemma toNat_sub_ofNat {n : BitVec 32} {k : ℕ} (hk : k ≤ n.toNat) : (n-BitVec.ofNat 32 k).toNat = n.toNat-k := by
  rw [BitVec.toNat_sub,BitVec.toNat_ofNat]
  omega

lemma sub_ofNat_sub_ofNat (n : BitVec 32) (a c : ℕ) :
    n-BitVec.ofNat 32 a-BitVec.ofNat 32 c = n-BitVec.ofNat 32 (a+c) := by
  apply BitVec.eq_of_toNat_eq
  simp only [BitVec.toNat_sub,BitVec.toNat_ofNat]
  omega

lemma ofNat_eq_zero_iff {k : ℕ} (hk : k < 0x80000000) : BitVec.ofNat 32 k = 0 ↔ k = 0 := by
  constructor
  · intro h
    have := congrArg BitVec.toNat h
    rwa [toNat_ofNat_of_lt hk] at this
  · rintro rfl; rfl

lemma sub_ofNat_eq_zero_iff {n : BitVec 32} {k : ℕ} (hk : k ≤ n.toNat) : n-BitVec.ofNat 32 k = 0 ↔ n.toNat = k := by
  have hs := toNat_sub_ofNat hk
  constructor
  · intro h
    rw [h] at hs
    simp only [BitVec.toNat_zero,BitVec.ofNat_eq_ofNat] at hs
    omega
  · intro h
    apply BitVec.eq_of_toNat_eq
    rw [hs,h]
    simp

/-- What the put loop leaves in memory: the data after the old head, and every byte
between the get tail and the old head as it was. -/
structure Copied (N : ℕ) (p : Positions) (k : ℕ) (data : ℕ → UInt8) (m m' : ℕ → UInt8) : Prop where
  written : ringRead m' N p.putHead k = (List.range k).map data
  kept : ∀ start len, p.getTail ≤ start → start+len ≤ p.putHead →
    ringRead m' N start len = ringRead m N start len

lemma Copied.slice {N : ℕ} {k : ℕ} (h : Ordered N p) (data m : ℕ → UInt8)
    (hk : k ≤ p.room N) (hslice : p.putHead % N+k ≤ N) : Copied N p k data m (blit m (p.putHead % N) k data) := by
  refine ⟨ringRead_blit_self h.size_pos hslice,?_⟩
  intro start len hlo hhi
  have h₁ := h.putHead_le
  unfold room at hk
  exact ringRead_blit_of_disjoint h.size_pos hslice hhi (by omega)

lemma Copied.trans {N : ℕ} {g k : ℕ} {data m m₁ m₂ : ℕ → UInt8} (h : Ordered N p) (h₁ : Copied N p g data m m₁)
    (h₂ : Copied N (p.claimPut g) k (fun i => data (g+i)) m₁ m₂) : Copied N p (g+k) data m m₂ := by
  have hle₁ := h.getTail_le
  have hle₂ := h.getHead_le
  have hle₃ := h.putTail_le
  constructor
  · have hold := h₂.kept p.putHead g (by change p.getTail ≤ _; omega) le_rfl
    rw [ringRead_append,hold,h₁.written,range_add,map_append,map_map]
    exact congrArg _ h₂.written
  · intro start len hlo hhi
    rw [h₂.kept start len hlo (hhi.trans (le_add_right _ _)),h₁.kept start len hlo hhi]

/-- The loop of `ring_buf_put` stores what there is room for. -/
theorem putLoop_place {size : BitVec 32} (rounds : ℕ) {m : ℕ → UInt8}
    (h : Ordered size.toNat p) (total n : BitVec 32) (data : ℕ → UInt8) (hrounds : n.toNat < rounds) :
    ∃ m', putLoop rounds ⟨place m size p,total,n⟩ data =
        ⟨place m' size (p.claimPut (min n.toNat (p.room size.toNat))),
          total+BitVec.ofNat 32 (min n.toNat (p.room size.toNat)),
          n-BitVec.ofNat 32 (min n.toNat (p.room size.toNat))⟩ ∧
      Copied size.toNat p (min n.toNat (p.room size.toNat)) data m m' := by
  induction rounds generalizing m p total n data with
  | zero => omega
  | succ rounds ih =>
    obtain ⟨hle,hslice,hzero⟩ := putGrant_cases h n.toNat
    set g := p.putGrant size.toNat n.toNat with hg
    have hroom := hle.trans (min_le_right _ _)
    have hglt : g < 0x80000000 := by
      have := h.size_lt
      omega
    have hcopy := Copied.slice h data m hroom hslice
    simp only [putLoop,putClaim_place h n,← hg,toNat_ofNat_of_lt hglt,ne_eq,
      sub_ofNat_eq_zero_iff (hle.trans (min_le_left _ _)),ofNat_eq_zero_iff hglt]
    split_ifs with hmore
    · -- another round, from the new head
      have hn := toNat_sub_ofNat (hle.trans (min_le_left _ _))
      obtain ⟨m',heq,hcopied⟩ := ih
        (h.claimPut hroom) (total+BitVec.ofNat 32 g) (n-BitVec.ofNat 32 g)
        (fun i => data (g+i)) (by omega)
      have hsum : g+min (n-BitVec.ofNat 32 g).toNat ((p.claimPut g).room size.toNat) =
          min n.toNat (p.room size.toNat) := by
        have h₁ := h.putTail_le
        have h₂ := h.getHead_le
        have h₃ := h.getTail_le
        rw [hn,room_claimPut]
        unfold room at hroom ⊢
        omega
      refine ⟨m',?_,hsum ▸ hcopy.trans h hcopied⟩
      rw [← hsum]
      refine heq.trans ?_
      simp only [claimPut_claimPut,sub_ofNat_sub_ofNat,BitVec.ofNat_add,BitVec.add_assoc]
    · have hall : min n.toNat (p.room size.toNat) = g := by
        by_cases hz : g = 0
        · rw [hzero hz,hz]
        · have : n.toNat = g := by tauto
          omega
      rw [hall]
      exact ⟨_,rfl,hcopy⟩

/-- The loop of `ring_buf_get` takes what there is. -/
theorem getLoop_place {size : BitVec 32} (rounds : ℕ) {m : ℕ → UInt8}
    (h : Ordered size.toNat p) (total n : BitVec 32) (out : List UInt8) (hrounds : n.toNat < rounds) :
    getLoop rounds ⟨place m size p,total,n⟩ out = (⟨place m size (p.claimGet (min n.toNat p.unclaimed)),
        total+BitVec.ofNat 32 (min n.toNat p.unclaimed), n-BitVec.ofNat 32 (min n.toNat p.unclaimed)⟩,
        out ++ ringRead m size.toNat p.getHead (min n.toNat p.unclaimed)) := by
  induction rounds generalizing p total n out with
  | zero => omega
  | succ rounds ih =>
    obtain ⟨hle,hslice,hzero⟩ := getGrant_cases h n.toNat
    set g := p.getGrant size.toNat n.toNat with hg
    have hthere := hle.trans (min_le_right _ _)
    have h₄ := h.size_lt
    have hglt : g < 0x80000000 := by
      omega
    have hread : (List.range g).map (fun i => (place m size (p.claimGet g)).buffer
        (p.getHead % size.toNat+i)) = ringRead m size.toNat p.getHead g := (ringRead_slice h.size_pos hslice).symm
    simp only [getLoop,getClaim_place h n,← hg,toNat_ofNat_of_lt hglt,hread,ne_eq,
      sub_ofNat_eq_zero_iff (hle.trans (min_le_left _ _)),ofNat_eq_zero_iff hglt]
    split_ifs with hmore
    · have hn := toNat_sub_ofNat (hle.trans (min_le_left _ _))
      have hsum : g+min (n-BitVec.ofNat 32 g).toNat (p.claimGet g).unclaimed = min n.toNat p.unclaimed := by
        rw [hn,unclaimed_claimGet]
        unfold unclaimed at hthere ⊢
        omega
      rw [ih (h.claimGet hthere) _ _ _ (by omega),← hsum,ringRead_append]
      simp only [claimGet_claimGet,sub_ofNat_sub_ofNat,BitVec.ofNat_add,BitVec.add_assoc,append_assoc]
      rfl
    · have hall : min n.toNat p.unclaimed = g := by
        by_cases hz : g = 0
        · rw [hzero hz,hz]
        · have : n.toNat = g := by tauto
          omega
      rw [hall]

end ArmFirmware.Zephyr.RingBuffer
