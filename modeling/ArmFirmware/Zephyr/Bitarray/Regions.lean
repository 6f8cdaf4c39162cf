import ArmFirmware.Zephyr.Bitarray.Model

/-! The operations on regions of bits agree with what they say about single bits. -/
namespace ArmFirmware.Zephyr.Bitarray
open Library Library.WordBits Function Option Nat Set
variable {w : ℕ} {b : Bitarray} {a n : ℕ}

variable {k : ℕ}

lemma lt_numBundles : k < b.numBundles ↔ k*32 < b.numBits := by
  unfold numBundles
  omega

lemma read_eq (hk : k < b.numBundles) : b.read k = some (b.bundles k) := if_pos hk

lemma write_eq (hk : k < b.numBundles) (x : BitVec 32) :
    b.write k x = some { b with bundles := update b.bundles k x } := if_pos hk

/-- How the masks cut the region of `n` bits from `a` on into bundles. -/
structure Cuts (bd : BundleData) (a n : ℕ) : Prop where
  le : bd.sidx ≤ bd.eidx
  smask : Masks bd.smask a n bd.sidx
  emask : bd.sidx ≠ bd.eidx → Masks bd.emask a n bd.eidx
  middle : ∀ k, bd.sidx < k → k < bd.eidx → Masks (BitVec.allOnes 32) a n k
  start : bd.sidx*32 ≤ a
  stop : a+n ≤ (bd.eidx+1)*32

lemma Cuts.covers {bd : BundleData} (h : Cuts bd a n) (i : ℕ) (hi : a ≤ i) (hi' : i < a+n) :
    bd.sidx ≤ i/32 ∧ i/32 ≤ bd.eidx := by
  have hstart := h.start
  have hstop := h.stop
  omega

lemma offEnd_eq (hn : 0 < n) (hlt : a+n < 2^w) : offEnd w a n = a+n-1 := by
  rw [offEnd,show a+n+(2^w-1) = a+n-1+2^w by omega,add_mod_right,mod_eq_of_lt (by omega)]

/-- `setup_bundle_data` cuts the region at the ends of bundles. -/
lemma setup_cuts (hn : 0 < n) (hlt : a+n < 2^w) : Cuts (setupBundleData w a n) a n := by
  have hend := offEnd_eq hn hlt
  by_cases hsame : a/32 = (a+n-1)/32
  · refine ⟨?_,?_,?_,?_,?_,?_⟩
    · simp only [setupBundleData,hend]
      omega
    · simp only [setupBundleData,hend,hsame,if_true]
      rw [← hsame]
      exact masks_single (by norm_num) (mod_lt _ (by norm_num)) (by omega)
    · intro hne
      simp only [setupBundleData,hend] at hne
      exact absurd hsame hne
    · intro k hk hk'
      simp only [setupBundleData,hend] at hk hk'
      omega
    · simp only [setupBundleData]
      omega
    · simp only [setupBundleData,hend]
      omega
  · refine ⟨?_,?_,?_,?_,?_,?_⟩
    · simp only [setupBundleData,hend]
      omega
    · simp only [setupBundleData,hend,if_neg hsame]
      exact masks_start (by norm_num) (by omega)
    · intro _
      simp only [setupBundleData,hend]
      exact masks_end (mod_lt _ (by norm_num)) (by omega) (by omega)
    · intro k hk hk'
      simp only [setupBundleData,hend] at hk hk'
      exact masks_between (by omega) (by omega)
    · simp only [setupBundleData]
      omega
    · simp only [setupBundleData,hend]
      omega

lemma setup_eidx (hn : 0 < n) (hlt : a+n < 2^w) (hle : a+n ≤ b.numBits) :
    (setupBundleData w a n).eidx < b.numBundles := by
  rw [lt_numBundles]
  simp only [setupBundleData,offEnd_eq hn hlt]
  omega

/-- The region is not empty and lies within the array. -/
def Inside (b : Bitarray) (a n : ℕ) : Prop := 0 < n ∧ a+n ≤ b.numBits

lemma Inside.lt (h : Inside b a n) (hw : 32 ≤ w) : a+n < 2^w :=
  (h.2.trans_lt b.lt).trans_le (Nat.pow_le_pow_right (by norm_num) hw)

section Match
variable {v : Bool}

/-- What the search for a bit that does not match has found in the bundles from `k` on and before `l`. -/
def Finds (b : Bitarray) (v : Bool) (a n k l : ℕ) : Option ℕ → Prop
  | none => ∀ i, a ≤ i → i < a+n → k ≤ i/32 → i/32 < l → b.bit i = v
  | some i => a ≤ i ∧ i < a+n ∧ b.bit i ≠ v

lemma bit_bundle (b : Bitarray) (k : ℕ) {j : ℕ} (hj : j < 32) : b.bit (k*32+j) = (b.bundles k).getLsbD j :=
  bit_word (by norm_num) b.bundles k hj

lemma bit_eq (b : Bitarray) (i : ℕ) : b.bit i = (b.bundles (i/32)).getLsbD (i%32) := rfl

variable {k : ℕ} {x : BitVec 32}

lemma mismatchAt_eq (hk : k < b.numBundles) (hx : x ≠ 0) : mismatchAt k x = k*32+lsb x := by
  have hlt := lsb_lt hx
  have hsize := b.lt
  rw [lt_numBundles] at hk
  rw [mismatchAt,findLsbSet,if_neg hx,Nat.add_sub_cancel,Nat.add_comm,Nat.mod_eq_of_lt (by omega)]

variable {m : BitVec 32}

lemma finds_mismatch (hk : k < b.numBundles) (hm : Masks m a n k) (hx : x ≠ 0)
    (hbad : ∀ j < 32, x.getLsbD j = true → m.getLsbD j = true ∧ (b.bundles k).getLsbD j ≠ v) (l l' : ℕ) :
    Finds b v a n l l' (some (mismatchAt k x)) := by
  have hlt := lsb_lt hx
  obtain ⟨hmask,hbit⟩ := hbad _ hlt (getLsbD_lsb hx)
  rw [hm _ hlt,decide_eq_true_eq] at hmask
  rw [mismatchAt_eq hk hx]
  exact ⟨hmask.1,hmask.2,by rwa [bit_bundle b k hlt]⟩

lemma finds_none (hm : Masks m a n k)
    (hgood : ∀ j < 32, m.getLsbD j = true → (b.bundles k).getLsbD j = v) : Finds b v a n k (k+1) none := by
  intro i hi hi' hk hk'
  obtain rfl : i/32 = k := by omega
  have hj : i%32 < 32 := mod_lt _ (by norm_num)
  rw [bit_eq]
  refine hgood _ hj ?_
  rw [hm _ hj,word_add_bit]
  exact decide_eq_true ⟨hi,hi'⟩

lemma Finds.append {l l' : ℕ} {r : Option ℕ} (h : Finds b v a n k l none) (h' : Finds b v a n l l' r) :
    Finds b v a n k l' r := by
  cases r with
  | some i => exact h'
  | none =>
    intro i hi hi' hk hl
    by_cases hil : i/32 < l
    · exact h i hi hi' hk hil
    · exact h' i hi hi' (by omega) hl

lemma matchBundle_spec (hk : k < b.numBundles) (hm : Masks m a n k) :
    ∃ r, matchBundle b v k m = some r ∧ Finds b v a n k (k+1) r := by
  -- the bits of the bundle that match are set
  have hflip :
    ∀ j < 32, (if !v then ~~~(b.bundles k) else b.bundles k).getLsbD j = ((b.bundles k).getLsbD j == v) := by
    intro j hj
    cases v <;> simp [hj]
  have hmatch : matchBundle b v k m =
      let x := if !v then ~~~(b.bundles k) else b.bundles k
      if x &&& m ≠ m then some (some (mismatchAt k (~~~x &&& m))) else some none := by
    rw [matchBundle,read_eq hk]
    rfl
  rw [hmatch]
  generalize (if !v then ~~~(b.bundles k) else b.bundles k) = x at hflip
  by_cases hall : x &&& m = m
  · refine ⟨none,by simp [hall],finds_none hm fun j hj hmj => ?_⟩
    have hxj := congrArg (BitVec.getLsbD · j) hall
    simp only [BitVec.getLsbD_and,hmj,Bool.and_true,hflip j hj,beq_iff_eq] at hxj
    exact hxj
  · have hne : ~~~x &&& m ≠ 0 := fun hzero => hall (by
      refine BitVec.eq_of_getLsbD_eq fun j hj => ?_
      have hzj := congrArg (BitVec.getLsbD · j) hzero
      simp only [BitVec.getLsbD_and,BitVec.getLsbD_not,hj,decide_true,Bool.true_and,BitVec.ofNat_eq_ofNat,
        BitVec.getLsbD_zero] at hzj
      rw [BitVec.getLsbD_and]
      cases hxj : x.getLsbD j <;> simp_all)
    refine ⟨some (mismatchAt k (~~~x &&& m)),by simp [hall],finds_mismatch hk hm hne (fun j hj hxj => ?_) _ _⟩
    simp only [BitVec.getLsbD_and,BitVec.getLsbD_not,hj,decide_true,Bool.true_and,hflip j hj,Bool.and_eq_true,
      Bool.not_eq_true',beq_eq_false_iff_ne] at hxj
    exact ⟨hxj.2,hxj.1⟩

lemma matchBetween_spec (idx l : ℕ) (hl : idx+l ≤ b.numBundles) (hm : ∀ k, idx ≤ k → k < idx+l →
    Masks (BitVec.allOnes 32) a n k) :
    ∃ r, matchBetween b v idx l = some r ∧ Finds b v a n idx (idx+l) r := by
  induction l generalizing idx with
  | zero =>
    refine ⟨none,rfl,fun i _ _ hk hk' => ?_⟩
    omega
  | succ l ih =>
    have hidx : idx < b.numBundles := by omega
    have hmask := hm idx le_rfl (by omega)
    -- here the bits that do not match are set
    have hflip : ∀ j < 32, (if v then ~~~(b.bundles idx) else b.bundles idx).getLsbD j = true ↔
      (b.bundles idx).getLsbD j ≠ v := by
      intro j hj
      cases v <;> simp [hj]
    generalize hx : (if v then ~~~(b.bundles idx) else b.bundles idx) = x at hflip
    by_cases hzero : x = 0
    · obtain ⟨r,hr,hfinds⟩ := ih (idx+1) (by omega) fun k hk hk' => hm k (by omega) (by omega)
      refine ⟨r,by simp [matchBetween,read_eq hidx,hx,hzero,hr],?_⟩
      have hnone : Finds b v a n idx (idx+1) none := finds_none hmask fun j hj _ => by
        have := (hflip j hj).not.mp (by simp [hzero])
        exact not_not.mp this
      rw [show idx+(l+1) = idx+1+l by omega]
      exact hnone.append hfinds
    · refine ⟨some (mismatchAt idx x),?_,finds_mismatch hidx hmask hzero (fun j hj hxj => ?_) _ _⟩
      · have hzero' : ¬x = 0#32 := hzero
        simp [matchBetween,read_eq hidx,hx,hzero']
      · exact ⟨by rw [BitVec.getLsbD_allOnes,decide_eq_true hj],(hflip j hj).mp hxj⟩

/-- `match_region` finds a bit of the region that differs, or there is none. -/
lemma matchRegion_spec (hw : 32 ≤ w) (h : Inside b a n) (v : Bool) : ∃ r, matchRegion w b a n v = some r ∧
      match r with | none => ∀ i, a ≤ i → i < a+n → b.bit i = v | some i => a ≤ i ∧ i < a+n ∧ b.bit i ≠ v := by
  have hcuts := setup_cuts h.1 (h.lt hw)
  have heidx := setup_eidx h.1 (h.lt hw) h.2
  generalize hbd : setupBundleData w a n = bd at hcuts heidx
  have hle := hcuts.le
  obtain ⟨r₁,hr₁,hfinds₁⟩ := matchBundle_spec (b := b) (by omega) hcuts.smask
  -- from a search of all bundles of the region
  have hall : ∀ r, Finds b v a n bd.sidx (bd.eidx+1) r → match r with
      | none => ∀ i, a ≤ i → i < a+n → b.bit i = v
      | some i => a ≤ i ∧ i < a+n ∧ b.bit i ≠ v := by
    intro r hr
    cases r with
    | some i => exact hr
    | none =>
      intro i hi hi'
      have := hcuts.covers i hi hi'
      exact hr i hi hi' this.1 (by omega)
  by_cases hsame : bd.sidx = bd.eidx
  · refine ⟨r₁,?_,hall r₁ (hsame ▸ hfinds₁)⟩
    simp only [matchRegion,hbd,if_pos hsame]
    exact hr₁
  · cases r₁ with
    | some i => exact ⟨some i,by simp [matchRegion,hbd,hsame,hr₁],hfinds₁⟩
    | none =>
      obtain ⟨r₂,hr₂,hfinds₂⟩ := matchBundle_spec heidx (hcuts.emask hsame)
      cases r₂ with
      | some i => exact ⟨some i,by simp [matchRegion,hbd,hsame,hr₁,hr₂],hfinds₂⟩
      | none =>
        obtain ⟨r,hr,hfinds⟩ := matchBetween_spec (b := b) (v := v) (bd.sidx+1) (bd.eidx-(bd.sidx+1)) (by omega)
          fun k hk hk' => hcuts.middle k (by omega) (by omega)
        refine ⟨r,by simp [matchRegion,hbd,hsame,hr₁,hr₂,hr],hall r ?_⟩
        rw [show bd.sidx+1+(bd.eidx-(bd.sidx+1)) = bd.eidx by omega] at hfinds
        have hhead := hfinds₁.append hfinds
        cases r with
        | some i => exact hhead
        | none => exact hhead.append hfinds₂

end Match

section Modify
variable {F : ℕ → Bool → Bool} {b' b'' : Bitarray} {K L : Set ℕ}

/-- In the bundles `K` the bits of the region are changed by `F`, and no other bits. -/
structure Changed (F : ℕ → Bool → Bool) (a n : ℕ) (K : Set ℕ) (b b' : Bitarray) : Prop where
  numBits : b'.numBits = b.numBits
  inside : ∀ i, a ≤ i → i < a+n → i/32 ∈ K → b'.bit i = F i (b.bit i)
  outside : ∀ i, ¬(a ≤ i ∧ i < a+n ∧ i/32 ∈ K) → b'.bit i = b.bit i

lemma numBundles_congr (h : b'.numBits = b.numBits) : b'.numBundles = b.numBundles := by rw [numBundles,h,numBundles]

lemma Changed.append (h : Changed F a n K b b') (h' : Changed F a n L b' b'') (hdisj : Disjoint K L) :
    Changed F a n (K ∪ L) b b'' := by
  refine ⟨h'.numBits.trans h.numBits,fun i hi hi' hmem => ?_,fun i hout => ?_⟩
  · rcases hmem with hk | hl
    · have hnl : i/32 ∉ L := disjoint_left.mp hdisj hk
      rw [h'.outside i fun hin => hnl hin.2.2,h.inside i hi hi' hk]
    · have hnk : i/32 ∉ K := disjoint_right.mp hdisj hl
      rw [h'.inside i hi hi' hl,h.outside i fun hin => hnk hin.2.2]
  · rw [h'.outside i fun hin => hout ⟨hin.1,hin.2.1,.inr hin.2.2⟩,
      h.outside i fun hin => hout ⟨hin.1,hin.2.1,.inl hin.2.2⟩]

lemma modify_spec {k : ℕ} (hk : k < b.numBundles) {m : BitVec 32} (hm : Masks m a n k)
    {f : BitVec 32 → Option (BitVec 32)} (hf : ∃ y, f (b.bundles k) = some y ∧ ∀ j < 32, y.getLsbD j =
      if m.getLsbD j then F (k*32+j) ((b.bundles k).getLsbD j) else (b.bundles k).getLsbD j) :
    ∃ b', b.modify k f = some b' ∧ Changed F a n {k} b b' := by
  obtain ⟨y,hy,hbits⟩ := hf
  refine ⟨{ b with bundles := update b.bundles k y },by simp [modify,read_eq hk,hy,write_eq hk],rfl,?_,?_⟩
  · rintro i hi hi' rfl
    have hj : i%32 < 32 := mod_lt _ (by norm_num)
    have hmask : m.getLsbD (i%32) = true := by
      rw [hm _ hj,word_add_bit]
      exact decide_eq_true ⟨hi,hi'⟩
    rw [bit_eq,bit_eq]
    dsimp only
    rw [update_self,hbits _ hj,if_pos hmask,word_add_bit]
  · intro i hout
    rw [bit_eq,bit_eq]
    dsimp only
    by_cases hik : i/32 = k
    · subst hik
      have hj : i%32 < 32 := mod_lt _ (by norm_num)
      have hmask : ¬m.getLsbD (i%32) = true := by
        rw [hm _ hj,word_add_bit,decide_eq_true_eq]
        exact fun hin => hout ⟨hin.1,hin.2,rfl⟩
      rw [update_self,hbits _ hj,if_neg hmask]
    · rw [update_of_ne hik]

lemma modifyBetween_spec {f : ℕ → BitVec 32 → Option (BitVec 32)} (idx l : ℕ) (hl : idx+l ≤ b.numBundles)
    (hm : ∀ k, idx ≤ k → k < idx+l → Masks (BitVec.allOnes 32) a n k)
    (hf : ∀ k x, k < b.numBundles → ∃ y, f k x = some y ∧ ∀ j < 32, y.getLsbD j = F (k*32+j) (x.getLsbD j)) :
    ∃ b', modifyBetween f b idx l = some b' ∧ Changed F a n (Set.Ico idx (idx+l)) b b' := by
  induction l generalizing b idx with
  | zero => exact ⟨b,rfl,rfl,by simp,fun _ _ => rfl⟩
  | succ l ih =>
    have hidx : idx < b.numBundles := by omega
    obtain ⟨y,hy,hbits⟩ := hf idx (b.bundles idx) hidx
    obtain ⟨b',hb',hchanged⟩ := modify_spec hidx (hm idx le_rfl (by omega))
      ⟨y,hy,fun j hj => by rw [hbits j hj,BitVec.getLsbD_allOnes,decide_eq_true hj,if_pos rfl]⟩
    have hnum := numBundles_congr hchanged.numBits
    obtain ⟨b'',hb'',hrest⟩ := ih (idx+1) (by omega) (fun k hk hk' => hm k (by omega) (by omega))
      (fun k x hk => hf k x (hnum ▸ hk))
    refine ⟨b'',by simp [modifyBetween,hb',hb''],?_⟩
    have hsplit : Set.Ico idx (idx+(l+1)) = {idx} ∪ Set.Ico (idx+1) (idx+1+l) := by
      ext k
      simp only [mem_Ico,mem_union,mem_singleton_iff]
      omega
    rw [hsplit]
    exact hchanged.append hrest (by simp)

/-- A function has been applied to the bits of a region. -/
structure Applied (F : ℕ → Bool → Bool) (a n : ℕ) (b b' : Bitarray) : Prop where
  numBits : b'.numBits = b.numBits
  bits : ∀ i, b'.bit i = if a ≤ i ∧ i < a+n then F i (b.bit i) else b.bit i

lemma Changed.applied (h : Changed F a n K b b') (hK : ∀ i, a ≤ i → i < a+n → i/32 ∈ K) : Applied F a n b b' := by
  refine ⟨h.numBits,fun i => ?_⟩
  split_ifs with hi
  · exact h.inside i hi.1 hi.2 (hK i hi.1 hi.2)
  · exact h.outside i fun hin => hi ⟨hin.1,hin.2.1⟩

/-- Bundle by bundle, the function is applied to the bits of the region. -/
lemma modifyRegion_spec (hw : 32 ≤ w) (h : Inside b a n) (masked : ℕ → BitVec 32 → BitVec 32 → Option (BitVec 32))
    (whole : ℕ → BitVec 32 → Option (BitVec 32)) (hmasked : ∀ k m x, k < b.numBundles → ∃ y, masked k m x = some y ∧
      ∀ j < 32, y.getLsbD j = if m.getLsbD j then F (k*32+j) (x.getLsbD j) else x.getLsbD j)
    (hwhole : ∀ k x, k < b.numBundles → ∃ y, whole k x = some y ∧ ∀ j < 32, y.getLsbD j = F (k*32+j) (x.getLsbD j)) :
    ∃ b', modifyRegion b (setupBundleData w a n) masked whole = some b' ∧ Applied F a n b b' := by
  have hcuts := setup_cuts h.1 (h.lt hw)
  have heidx := setup_eidx h.1 (h.lt hw) h.2
  generalize setupBundleData w a n = bd at hcuts heidx
  have hle := hcuts.le
  obtain ⟨b₁,hb₁,hchanged₁⟩ := modify_spec (b := b) (by omega) hcuts.smask (hmasked _ _ _ (by omega))
  by_cases hsame : bd.sidx = bd.eidx
  · refine ⟨b₁,by rw [modifyRegion,if_pos hsame,hb₁],hchanged₁.applied fun i hi hi' => ?_⟩
    have := hcuts.covers i hi hi'
    simp only [mem_singleton_iff]
    omega
  · have hnum₁ := numBundles_congr hchanged₁.numBits
    obtain ⟨b₂,hb₂,hchanged₂⟩ := modify_spec (b := b₁) (by omega) (hcuts.emask hsame) (hmasked _ _ _ (by omega))
    have hnum₂ := numBundles_congr hchanged₂.numBits
    obtain ⟨b₃,hb₃,hchanged₃⟩ := modifyBetween_spec (b := b₂) (bd.sidx+1) (bd.eidx-(bd.sidx+1)) (by omega)
      (fun k hk hk' => hcuts.middle k (by omega) (by omega)) (fun k x hk => hwhole k x (by omega))
    refine ⟨b₃,by simp [modifyRegion,hsame,hb₁,hb₂,hb₃],?_⟩
    have hends := hchanged₁.append hchanged₂ (by simpa using hsame)
    refine (hends.append hchanged₃ ?_).applied fun i hi hi' => ?_
    · simp only [disjoint_left,mem_union,mem_singleton_iff,mem_Ico]
      omega
    · have := hcuts.covers i hi hi'
      simp only [mem_union,mem_singleton_iff,mem_Ico]
      omega

lemma setRegion_spec (hw : 32 ≤ w) (h : Inside b a n) (v : Bool) :
    ∃ b', setRegion w b a n v = some b' ∧ Applied (fun _ _ => v) a n b b' := by
  refine modifyRegion_spec hw h _ _ (fun k m x _ => ⟨_,rfl,fun j hj => ?_⟩) (fun k x _ => ⟨_,rfl,fun j hj => ?_⟩)
  · cases v <;> cases hm : m.getLsbD j <;>
      simp only [Bool.false_eq_true,if_true,if_false,BitVec.getLsbD_or,BitVec.getLsbD_and,BitVec.getLsbD_not,hm,hj,
        decide_true,
        Bool.not_true,Bool.not_false,Bool.and_true,Bool.and_false,Bool.or_true,Bool.or_false]
  · cases v <;>
      simp only [Bool.false_eq_true,if_true,if_false,BitVec.getLsbD_not,BitVec.getLsbD_zero,hj,decide_true,
        Bool.not_false,
        Bool.and_true]

end Modify

section Count

lemma count_before {ws : ℕ → BitVec 32} {e : ℕ} (he : e ≤ a) : count (Within ws a n) e = 0 := by
  rw [count_iff_forall_not]
  intro i hi hin
  have := hin.1.1
  omega

lemma count_upto (b : Bitarray) {i : ℕ} (hi : i ≤ n) :
    count (Within b.bundles a n) (a+i) = count (fun j => b.bit (a+j) = true) i := by
  rw [count_add,count_before le_rfl,zero_add]
  refine count_congr fun j hj => ?_
  rw [Within,and_iff_right]
  · rfl
  · omega

lemma count_all (b : Bitarray) {e : ℕ} (he : a+n ≤ e) :
    Nat.count (Within b.bundles a n) e = Nat.count (fun j => b.bit (a+j) = true) n := by
  rw [← count_upto b le_rfl,← Nat.add_sub_cancel' he,Nat.count_add,Nat.add_eq_left,Nat.count_iff_forall_not]
  intro j _ hin
  have := hin.1.2
  omega

variable {m : BitVec 32} {k : ℕ}

lemma count_bundle (hm : Masks m a n k) : count (Within b.bundles a n) ((k+1)*32) =
      count (Within b.bundles a n) (k*32)+popcount (b.bundles k &&& m) := by
  rw [add_mul,one_mul,count_word (by norm_num) hm 32 le_rfl]
  rfl

lemma count_middle (hm : Masks (BitVec.allOnes 32) a n k) :
    count (Within b.bundles a n) ((k+1)*32) = count (Within b.bundles a n) (k*32)+popcount (b.bundles k) := by
  rw [count_bundle hm,BitVec.and_allOnes]

lemma popcountBetween_spec (idx l count : ℕ) (hl : idx+l ≤ b.numBundles)
    (hm : ∀ k, idx ≤ k → k < idx+l → Masks (BitVec.allOnes 32) a n k) :
    ∃ c, popcountBetween b idx l count = some (count+c) ∧
      Nat.count (Within b.bundles a n) ((idx+l)*32) = Nat.count (Within b.bundles a n) (idx*32)+c := by
  induction l generalizing idx count with
  | zero => exact ⟨0,rfl,rfl⟩
  | succ l ih =>
    obtain ⟨c,hc,hcount⟩ := ih (idx+1) (count+popcount (b.bundles idx)) (by omega)
      fun k hk hk' => hm k (by omega) (by omega)
    refine ⟨popcount (b.bundles idx)+c,?_,?_⟩
    · rw [popcountBetween,read_eq (by omega)]
      exact hc.trans (by rw [add_assoc])
    · rw [show idx+(l+1) = idx+1+l by omega,hcount,count_middle (hm idx le_rfl (by omega)),add_assoc]

/-- The loop over the bits of a bundle stops at the `nth` set one from `j` on. -/
lemma findInBundle_spec (x : BitVec 32) (k j nth : ℕ) (hk : j+k = 32) (hnth : 0 < nth) :
    match findInBundle x k j nth with
    | none => count (fun i => x.getLsbD i = true) 32 < count (fun i => x.getLsbD i = true) j+nth
    | some i => x.getLsbD i = true ∧ count (fun i => x.getLsbD i = true) i+1 = count
      (fun i => x.getLsbD i = true) j+nth := by
  induction k generalizing j nth with
  | zero =>
    obtain rfl : j = 32 := by omega
    simpa [findInBundle] using hnth
  | succ k ih =>
    have hbit : (x &&& BIT j ≠ 0) ↔ x.getLsbD j = true := by
      rw [← not_iff_not,not_not]
      constructor
      · intro hzero hset
        have hj := congrArg (BitVec.getLsbD · j) hzero
        simp only [BitVec.getLsbD_and,hset,BIT,getLsbD_one_shiftLeft (show j < 32 by omega),Bool.true_and] at hj
        simp at hj
      · intro hclear
        refine BitVec.eq_of_getLsbD_eq fun i hi => ?_
        rw [BitVec.getLsbD_and,BIT,getLsbD_one_shiftLeft hi]
        by_cases hij : i = j
        · subst hij
          simp [hclear]
        · simp [hij]
    have hnext : count (fun i => x.getLsbD i = true) (j+1) =
        count (fun i => x.getLsbD i = true) j+if x.getLsbD j = true then 1 else 0 := count_succ ..
    rw [findInBundle]
    by_cases hset : x.getLsbD j = true
    · rw [if_pos (hbit.mpr hset)]
      rw [if_pos hset] at hnext
      by_cases hlast : nth-1 ≤ 0
      · rw [if_pos hlast]
        exact ⟨hset,by omega⟩
      · rw [if_neg hlast]
        have hrest := ih (j+1) (nth-1) (by omega) (by omega)
        rw [hnext,show count (fun i => x.getLsbD i = true) j+1+(nth-1) = count (fun i => x.getLsbD i = true) j+nth
          by omega] at hrest
        exact hrest
    · rw [if_neg (hbit.not.mpr hset)]
      rw [if_neg hset,add_zero] at hnext
      have hrest := ih (j+1) nth (by omega) hnth
      rwa [hnext] at hrest

/-- `sys_bitarray_popcount_region` counts the set bits of the region. -/
lemma popcountRegion_spec (hw : 32 ≤ w) (h : Inside b a n) (hin : ¬outside w b n a) :
    sysBitarrayPopcountRegion w b n a = some (.ok (count (fun j => b.bit (a+j) = true) n)) := by
  have hcuts := setup_cuts h.1 (h.lt hw)
  have heidx := setup_eidx h.1 (h.lt hw) h.2
  rw [sysBitarrayPopcountRegion,if_neg hin]
  generalize setupBundleData w a n = bd at hcuts heidx
  have hle := hcuts.le
  have hfirst := count_bundle (b := b) hcuts.smask
  rw [count_before hcuts.start,zero_add] at hfirst
  have htotal := count_all b hcuts.stop
  have hread := read_eq (show bd.sidx < b.numBundles by omega)
  by_cases hsame : bd.sidx = bd.eidx
  · rw [← htotal,← hsame,hfirst]
    simp only [if_pos hsame,hread]
    rfl
  · obtain ⟨c,hc,hcount⟩ := popcountBetween_spec (b := b) (bd.sidx+1) (bd.eidx-(bd.sidx+1))
      (popcount (b.bundles bd.sidx &&& bd.smask)+popcount (b.bundles bd.eidx &&& bd.emask)) (by omega)
      fun k hk hk' => hcuts.middle k (by omega) (by omega)
    rw [show bd.sidx+1+(bd.eidx-(bd.sidx+1)) = bd.eidx by omega] at hcount
    have hlast := count_bundle (b := b) (hcuts.emask hsame)
    simp only [if_neg hsame,hread,read_eq heidx,bind_eq_bind,bind_some,hc]
    rw [← htotal,hlast,hcount,hfirst,add_right_comm]
    rfl

/-- What the search for a bundle has found: where the bit that is looked for lies, or how many bits are still
to be found behind the bundles before `l`. -/
def Locates (b : Bitarray) (a n nth l : ℕ) : (ℕ × BitVec 32 × ℕ) ⊕ ℕ → Prop
  | .inl (k,m,left) => k < b.numBundles ∧ Masks m a n k ∧ 0 < left ∧ left ≤ popcount (b.bundles k &&& m) ∧
      count (Within b.bundles a n) (k*32)+left = nth
  | .inr left => 0 < left ∧ count (Within b.bundles a n) (l*32)+left = nth

lemma findBetween_spec (nth idx l left : ℕ) (hl : idx+l ≤ b.numBundles)
    (hm : ∀ k, idx ≤ k → k < idx+l → Masks (BitVec.allOnes 32) a n k) (hleft : 0 < left)
    (hnth : count (Within b.bundles a n) (idx*32)+left = nth) :
    ∃ r, findBetween b idx l left = some r ∧ Locates b a n nth (idx+l) r := by
  induction l generalizing idx left with
  | zero => exact ⟨.inr left,rfl,hleft,hnth⟩
  | succ l ih =>
    have hmask := hm idx le_rfl (by omega)
    rw [findBetween,read_eq (by omega)]
    by_cases hge : popcount (b.bundles idx) ≥ left
    · refine ⟨.inl (idx,BitVec.allOnes 32,left),by simp [hge],by omega,hmask,hleft,?_,hnth⟩
      rwa [BitVec.and_allOnes]
    · obtain ⟨r,hr,hloc⟩ := ih (idx+1) (left-popcount (b.bundles idx)) (by omega)
        (fun k hk hk' => hm k (by omega) (by omega)) (by omega) (by rw [count_middle hmask]; omega)
      refine ⟨r,by simpa [hge] using hr,?_⟩
      rwa [show idx+(l+1) = idx+1+l by omega]

lemma Locates.found {nth left l : ℕ} (h : Locates b a n nth l (.inl (k,m,left))) :
    ∃ j, findInBundle (b.bundles k &&& m) 32 0 left = some j ∧ Within b.bundles a n (k*32+j) ∧
      count (Within b.bundles a n) (k*32+j)+1 = nth := by
  obtain ⟨-,hm,hpos,hle,hnth⟩ := h
  have hfind := findInBundle_spec (b.bundles k &&& m) 32 0 left rfl hpos
  rw [count_zero,zero_add] at hfind
  cases hj : findInBundle (b.bundles k &&& m) 32 0 left with
  | none =>
    rw [hj] at hfind
    exact absurd hle (not_le.mpr hfind)
  | some j =>
    rw [hj] at hfind
    obtain ⟨hset,hcount⟩ := hfind
    have hlt : j < 32 := BitVec.lt_of_getLsbD hset
    rw [BitVec.getLsbD_and,Bool.and_eq_true,hm j hlt,decide_eq_true_eq] at hset
    refine ⟨j,rfl,⟨hset.2,by rw [bit_word (by norm_num) b.bundles k hlt,hset.1]⟩,?_⟩
    rw [count_word (by norm_num) hm j hlt.le]
    omega

/-- The bundle with the `nth` set bit of the region is found, if there is one. -/
lemma findBundle_spec (hw : 32 ≤ w) (h : Inside b a n) {nth : ℕ} (hnth : 0 < nth) :
    ∃ r, findBundle b (setupBundleData w a n) nth = some r ∧ match r with
      | none => count (fun j => b.bit (a+j) = true) n < nth | some found => Locates b a n nth 0 (.inl found) := by
  have hcuts := setup_cuts h.1 (h.lt hw)
  have heidx := setup_eidx h.1 (h.lt hw) h.2
  generalize setupBundleData w a n = bd at hcuts heidx
  have hle := hcuts.le
  have hfirst := count_bundle (b := b) hcuts.smask
  rw [count_before hcuts.start,zero_add] at hfirst
  have htotal := count_all b hcuts.stop
  simp only [findBundle,read_eq (show bd.sidx < b.numBundles by omega),read_eq heidx,bind_eq_bind,bind_some]
  by_cases hge : popcount (b.bundles bd.sidx &&& bd.smask) ≥ nth
  · refine ⟨some (bd.sidx,bd.smask,nth),by simp [hge],by omega,hcuts.smask,hnth,hge,?_⟩
    rw [count_before hcuts.start,zero_add]
  · by_cases hsame : bd.sidx = bd.eidx
    · refine ⟨none,by rw [if_neg hge,if_neg (not_not.mpr hsame)]; rfl,?_⟩
      rw [← htotal,← hsame,hfirst]
      omega
    · obtain ⟨r,hr,hloc⟩ := findBetween_spec (b := b) nth (bd.sidx+1) (bd.eidx-(bd.sidx+1))
        (nth-popcount (b.bundles bd.sidx &&& bd.smask)) (by omega)
          (fun k hk hk' => hcuts.middle k (by omega) (by omega))
        (by omega) (by omega)
      rw [show bd.sidx+1+(bd.eidx-(bd.sidx+1)) = bd.eidx by omega] at hloc
      cases r with
      | inl found => exact ⟨some found,by simp [hge,hsame,hr],hloc⟩
      | inr left =>
        obtain ⟨hpos,hleft⟩ := hloc
        have hlast := count_bundle (b := b) (hcuts.emask hsame)
        by_cases hge' : popcount (b.bundles bd.eidx &&& bd.emask) ≥ left
        · exact ⟨some (bd.eidx,bd.emask,left),by simp [hge,hsame,hr,hge'],heidx,hcuts.emask hsame,hpos,hge',hleft⟩
        · refine ⟨none,by simp [hge,hsame,hr,hge'],?_⟩
          rw [← htotal,hlast]
          omega

end Count
end ArmFirmware.Zephyr.Bitarray
