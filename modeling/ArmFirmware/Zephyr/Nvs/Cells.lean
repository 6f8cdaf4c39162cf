import ArmFirmware.Zephyr.Nvs.Model
import ArmFirmware.Library.RingWindow

/-! What the flash routines do to the cells: erased cells take what is written to them, all others stay. -/
namespace ArmFirmware.Zephyr.Nvs
open Library List Nat Ate

section Sizes
variable (d : Device)

lemma writeBlockSize_pos : 0 < d.writeBlockSize := Nat.pow_pos (by norm_num)

lemma le_alSize (len : ℕ) : len ≤ alSize d len := le_ceilTo (writeBlockSize_pos d)

lemma alSize_zero : alSize d 0 = 0 := by
  have hpos := writeBlockSize_pos d
  rw [alSize,ceilTo,zero_add,div_eq_of_lt (by omega),zero_mul]

variable {len : ℕ}

lemma alSize_eq_zero : alSize d len = 0 ↔ len = 0 := by
  constructor
  · intro h
    have := le_alSize d len
    omega
  · rintro rfl
    exact alSize_zero d

lemma alSize_of_dvd (h : d.writeBlockSize ∣ len) : alSize d len = len := by
  obtain ⟨k,rfl⟩ := h
  have hpos := writeBlockSize_pos d
  rw [alSize,ceilTo,mul_add_div hpos,div_eq_of_lt (by omega),add_zero,mul_comm]

lemma alSize_of_mod (h : len%d.writeBlockSize ≠ 0) :
    alSize d len = len/d.writeBlockSize*d.writeBlockSize+d.writeBlockSize := by
  have hpos := writeBlockSize_pos d
  have hdiv : (len+(d.writeBlockSize-1))/d.writeBlockSize = len/d.writeBlockSize+1 := by
    rw [Nat.add_div hpos,Nat.div_eq_of_lt (show d.writeBlockSize-1 < d.writeBlockSize by omega),
      mod_eq_of_lt (show d.writeBlockSize-1 < d.writeBlockSize by omega),if_pos (by omega)]
  rw [alSize,ceilTo,hdiv,add_mul,one_mul]

lemma alSize_add {a b : ℕ} (h : d.writeBlockSize ∣ a) : alSize d (a+b) = a+alSize d b := by
  obtain ⟨k,rfl⟩ := h
  have hpos := writeBlockSize_pos d
  rw [alSize,alSize,ceilTo,ceilTo,add_assoc,mul_add_div hpos,add_mul,mul_comm k]

lemma ateSize_pos : 0 < ateSize d := lt_of_lt_of_le (by norm_num) (le_alSize d 8)

lemma eight_le_ateSize : 8 ≤ ateSize d := le_alSize d 8

variable {k : ℕ}

lemma below_eq (h : k*ateSize d ≤ d.sectorSize) : below d k = d.sectorSize-k*ateSize d := by
  have hlt := d.sectorSize_lt
  rw [below]
  omega

variable {o : ℕ}

lemma address_div (ho : o < 2^16) : (k*2^16+o)/2^16 = k := by omega

lemma address_mod (ho : o < 2^16) : (k*2^16+o)%2^16 = o := by omega

lemma address_sub {n : ℕ} (hk : k < 2^16) (ho : o < 2^16) (hn : n ≤ o) :
    (k*2^16+o+(2^32-n))%2^32 = k*2^16+(o-n) := by omega

lemma place_eq (ho : o < 2^16) : place d (k*2^16+o) = d.sectorSize*k+o := by
  rw [place,address_div ho,address_mod ho]

end Sizes

section Program
variable {d : Device}

lemma programCells_append (flash : ℕ → BitVec 8) (p : ℕ) (xs ys : List (BitVec 8)) :
    programCells d (programCells d flash p xs) (p+xs.length) ys = programCells d flash p (xs++ys) := by
  funext i
  simp only [programCells,length_append]
  by_cases hx : p ≤ i ∧ i < p+xs.length
  · rw [if_neg (by omega),if_pos hx,if_pos (by omega),getD_append _ _ _ _ (by omega)]
  · by_cases hy : p+xs.length ≤ i ∧ i < p+xs.length+ys.length
    · rw [if_pos hy,if_neg hx,if_pos (by omega),getD_append_right _ _ _ _ (by omega),sub_add_eq]
    · rw [if_neg hy,if_neg hx,if_neg (by omega)]

lemma programCells_nil (flash : ℕ → BitVec 8) (p : ℕ) : programCells d flash p [] = flash := by
  funext i
  exact if_neg (by simp)

lemma flashWrite_fs (t : Trail) (p : ℕ) (data : List (BitVec 8)) : (flashWrite d t p data).fs =
      t.fs.fill (programCells d t.fs.flash p (data.take (data.length/d.writeBlockSize*d.writeBlockSize))) := by
  rw [flashWrite]
  suffices h : ∀ n, n ≤ data.length/d.writeBlockSize → ∀ t : Trail, ((range n).foldl (fun t i =>
      t.set (t.fs.fill (programCells d t.fs.flash (p+i*d.writeBlockSize)
        ((data.drop (i*d.writeBlockSize)).take d.writeBlockSize)))) t).fs =
      t.fs.fill (programCells d t.fs.flash p (data.take (n*d.writeBlockSize))) from h _ le_rfl t
  intro n hn t
  induction n with
  | zero =>
    rw [zero_mul,take_zero,programCells_nil]
    rfl
  | succ n ih =>
    have hle : n*d.writeBlockSize ≤ data.length :=
      (mul_le_mul_right _ (show n ≤ data.length/d.writeBlockSize by omega)).trans (div_mul_le_self _ _)
    have happend := programCells_append (d := d) t.fs.flash p (data.take (n*d.writeBlockSize))
      ((data.drop (n*d.writeBlockSize)).take d.writeBlockSize)
    rw [length_take_of_le hle,← take_add] at happend
    rw [range_succ,foldl_append,foldl_cons,foldl_nil,Trail.set,ih (by omega),add_mul,one_mul,← happend]
    rfl

/-- `nvs_flash_al_wrt` fills the last write block with the erase value. -/
lemma flashAlWrt_fs (t : Trail) (addr : ℕ) (data : List (BitVec 8)) :
    (flashAlWrt d t addr data).fs = t.fs.fill (programCells d t.fs.flash (place d addr)
      (data++replicate (alSize d data.length-data.length) d.eraseValue)) := by
  have hpos := writeBlockSize_pos d
  obtain ⟨blen,hblen⟩ : ∃ blen, blen = data.length/d.writeBlockSize*d.writeBlockSize := ⟨_,rfl⟩
  have hle := hblen ▸ div_mul_le_self _ _
  have hwhole : blen/d.writeBlockSize*d.writeBlockSize = blen := by rw [hblen,Nat.mul_div_cancel _ hpos]
  have hfirst : (flashWrite d t (place d addr) (data.take blen)).fs =
      t.fs.fill (programCells d t.fs.flash (place d addr) (data.take blen)) := by
    rw [flashWrite_fs,length_take_of_le hle,hwhole,take_of_length_le (by simp)]
  simp only [flashAlWrt,← hblen]
  by_cases hrest : data.drop blen = []
  · have hlen : data.length = blen := le_antisymm (drop_eq_nil_iff.mp hrest) hle
    have hal : alSize d data.length = data.length :=
      alSize_of_dvd d ⟨data.length/d.writeBlockSize,by rw [mul_comm]; omega⟩
    rw [if_neg (by simp [hrest]),hfirst,hal,Nat.sub_self,replicate_zero,append_nil,← hlen,take_length]
  · have hlt : blen < data.length := by
      by_contra hge
      exact hrest (drop_eq_nil_iff.mpr (by omega))
    have hdiv := div_add_mod' data.length d.writeBlockSize
    have hmod := mod_lt data.length hpos
    have hal : alSize d data.length = _ := alSize_of_mod d (by omega)
    have hrestlen : (data.drop blen).length = data.length-blen := length_drop
    have hpad : (data.drop blen++replicate (d.writeBlockSize-(data.drop blen).length) d.eraseValue).length =
      d.writeBlockSize := by
      rw [length_append,length_replicate,hrestlen]
      omega
    have happend := programCells_append (d := d) t.fs.flash (place d addr) (data.take blen)
      (data.drop blen++replicate (d.writeBlockSize-(data.drop blen).length) d.eraseValue)
    rw [length_take_of_le hle,← append_assoc,take_append_drop] at happend
    rw [if_pos hrest,flashWrite_fs,hpad,Nat.div_self hpos,Nat.one_mul,take_of_length_le hpad.le,hfirst,
      show alSize d data.length-data.length = d.writeBlockSize-(data.drop blen).length by omega]
    exact congrArg t.fs.fill happend

lemma flashAlWrt_blank {t : Trail} {addr : ℕ} {data : List (BitVec 8)}
    (hblank : ∀ i, place d addr ≤ i → i < place d addr+alSize d data.length → t.fs.flash i = d.eraseValue) :
    (flashAlWrt d t addr data).fs = t.fs.fill (blit t.fs.flash (place d addr) data.length fun i =>
      data.getD i 0) := by
  rw [flashAlWrt_fs]
  congr 1
  funext i
  have hle := le_alSize d data.length
  simp only [programCells,blit,length_append,length_replicate]
  by_cases hdata : place d addr ≤ i ∧ i < place d addr+data.length
  · rw [if_pos hdata,if_pos (by omega),hblank i hdata.1 (by omega),d.program_eraseValue,
      getD_append _ _ _ _ (by omega)]
  · rw [if_neg hdata]
    by_cases hpad : place d addr ≤ i ∧ i < place d addr+(data.length+(alSize d data.length-data.length))
    · rw [if_pos hpad,hblank i hpad.1 (by omega),d.program_eraseValue,getD_append_right _ _ _ _ (by omega),
        getD_replicate _ (by omega)]
    · rw [if_neg hpad]

end Program

namespace Ate

/-- The fields fit into 16 bits. -/
structure Fits (a : Ate) : Prop where
  id : a.id < 2^16
  offset : a.offset < 2^16
  len : a.len < 2^16

lemma ofBytes_bytes {a : Ate} (h : a.Fits) : ofBytes (fun i => a.bytes.getD i 0) = a := by
  obtain ⟨id,offset,len,part,crc8⟩ := a
  obtain ⟨hid,hoffset,hlen⟩ := h
  simp only [ofBytes,bytes,front,halfword,cons_append,nil_append,getD_cons_zero,getD_cons_succ,
    BitVec.toNat_ofNat,mk.injEq,and_true]
  dsimp only at hid hoffset hlen
  omega

lemma bytes_length (a : Ate) : a.bytes.length = 8 := rfl

lemma bytes_ofBytes (b : ℕ → BitVec 8) : (ofBytes b).bytes = [b 0,b 1,b 2,b 3,b 4,b 5,b 6,b 7] := by
  have hlow : ∀ x y : BitVec 8, BitVec.ofNat 8 (x.toNat+2^8*y.toNat) = x := by
    intro x y
    apply BitVec.eq_of_toNat_eq
    rw [BitVec.toNat_ofNat,add_mul_mod_self_left,mod_eq_of_lt x.isLt]
  have hhigh : ∀ x y : BitVec 8, BitVec.ofNat 8 ((x.toNat+2^8*y.toNat)/2^8) = y := by
    intro x y
    apply BitVec.eq_of_toNat_eq
    rw [BitVec.toNat_ofNat,add_mul_div_left _ _ (by norm_num),div_eq_of_lt x.isLt,zero_add,mod_eq_of_lt y.isLt]
  simp only [bytes,front,halfword,ofBytes,hlow,hhigh,cons_append,nil_append]

variable {b : ℕ → BitVec 8}

lemma cmpConst_ofBytes {value : BitVec 8} : (ofBytes b).cmpConst value = true ↔ ∀ i < 8, b i = value := by
  rw [cmpConst,bytes_ofBytes]
  simp only [all_cons,all_nil,Bool.and_true,Bool.and_eq_true,decide_eq_true_eq]
  constructor
  · rintro ⟨h0,h1,h2,h3,h4,h5,h6,h7⟩ i hi
    interval_cases i <;> assumption
  · intro h
    exact ⟨h 0 (by norm_num),h 1 (by norm_num),h 2 (by norm_num),h 3 (by norm_num),h 4 (by norm_num),
      h 5 (by norm_num),
      h 6 (by norm_num),h 7 (by norm_num)⟩

lemma ofBytes_congr {b' : ℕ → BitVec 8} (h : ∀ i < 8, b i = b' i) : ofBytes b = ofBytes b' := by
  simp only [ofBytes,h 0 (by norm_num),h 1 (by norm_num),h 2 (by norm_num),h 3 (by norm_num),h 4 (by norm_num),
    h 5 (by norm_num),h 6 (by norm_num),h 7 (by norm_num)]

lemma ofBytes_fits (b : ℕ → BitVec 8) : (ofBytes b).Fits := by
  have hb : ∀ i, (b i).toNat < 2^8 := fun i => (b i).isLt
  constructor <;> simp only [ofBytes]
  · have := hb 0
    omega
  · have := hb 2
    omega
  · have := hb 4
    omega

end Ate

section Valid
variable {d : Device}

lemma ateValid_crc8Update {a : Ate} : ateValid d a.crc8Update = true ↔ a.offset+a.len < below d 1 := by
  simp [ateValid,crc8Check,crc8Update,front]

variable {b : ℕ → BitVec 8}

lemma ateValid_blank (hroom : ateSize d ≤ d.sectorSize) (h : ∀ i < 8, b i = d.eraseValue) :
    ateValid d (ofBytes b) = false := by
  rw [show ofBytes b = ofBytes fun _ => d.eraseValue from ofBytes_congr h]
  have hsize := d.sectorSize_lt
  rcases d.eraseValue_eq with he | he
  · have hlarge : ¬(ofBytes fun _ => d.eraseValue).offset+(ofBytes fun _ => d.eraseValue).len < below d 1 := by
      rw [he,below_eq d (by omega)]
      simp only [ofBytes]
      rw [show (255 : BitVec 8).toNat = 255 from rfl]
      omega
    simp [ateValid,hlarge]
  · have hcrc : (ofBytes fun _ => d.eraseValue).crc8Check = false := by
      rw [he]
      decide
    simp [ateValid,hcrc]

lemma closeAte_not_blank (hroom : ateSize d ≤ d.sectorSize) (h : closeAteValid d (ofBytes b) = true) :
    (ofBytes b).cmpConst d.eraseValue = false := by
  by_contra hblank
  rw [Bool.not_eq_false,cmpConst_ofBytes] at hblank
  rw [closeAteValid,ateValid_blank hroom hblank] at h
  simp at h

end Valid
end ArmFirmware.Zephyr.Nvs
