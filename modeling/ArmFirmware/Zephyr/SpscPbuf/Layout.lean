import ArmFirmware.Library.Alignment
import ArmFirmware.Library.RecordRing
import ArmFirmware.Library.RingWindow

/-! The packet buffer for one producer and one consumer (`lib/os/spsc_pbuf.c`): the arithmetic on its
indices, with the widths of the source's variables, and how packets lie in the data area. -/
namespace ArmFirmware.Zephyr.SpscPbuf
open Library Function BitVec List

abbrev Byte := BitVec 8

def LEN_SZ : ℕ := 4
/-- What is left unused to tell an empty buffer from a full one. -/
def FREE_SPACE_DISTANCE : ℕ := 4
def PADDING_MARK : Byte := 0xFF
def SPSC_PBUF_MAX_LEN : ℕ := 0xFF00

/-- `spsc_pbuf_alloc` with `wr_idx >= rd_idx`: the packet does not fit at the end, so that padding
must be added. The comparison with the remaining space is one of unsigned numbers. -/
def pads (pblen wr rd len : ℕ) : Bool :=
  let remaining : ℤ := pblen-wr
  let space := if len = SPSC_PBUF_MAX_LEN then LEN_SZ+1 else len+LEN_SZ
  decide (rd ≤ wr ∧ ¬(space ≤ remaining%2^32 ∨ rd ≤ space))

def freeSpace (pblen wr rd len : ℕ) : ℤ :=
  if rd ≤ wr then
    if pads pblen wr rd len then (rd : ℤ)-FREE_SPACE_DISTANCE
    else (pblen : ℤ)-wr-(if rd > 0 then 0 else FREE_SPACE_DISTANCE)
  else (rd : ℤ)-wr-FREE_SPACE_DISTANCE

def allocLen (pblen wr rd len : ℕ) : ℕ := min len (freeSpace pblen wr rd len-LEN_SZ).toNat

def wrBehind (pblen wr len : ℕ) : ℕ :=
  let wr := ceilTo 4 ((wr+(len+LEN_SZ))%2^32)%2^32
  if wr = pblen then 0 else wr

/-- `rd_idx` behind a packet, in `spsc_pbuf_free`, where it has 16 bits. -/
def rdBehind (rd len : ℕ) : ℕ := ceilTo 4 ((rd+len+LEN_SZ)%2^16)%2^16

/-- The bytes of the length field, most significant first. -/
def lenHi (len : ℕ) : Byte := BitVec.ofNat 8 (len/256)
def lenLo (len : ℕ) : Byte := BitVec.ofNat 8 len

def getBe16 (hi lo : Byte) : ℕ := hi.toNat*256+lo.toNat

def lenAt (data : ℕ → Byte) (rd : ℕ) : ℕ := getBe16 (data rd) (data (rd+1))

def payload (data : ℕ → Byte) (a len : ℕ) : List Byte := (range len).map fun i => data (a+LEN_SZ+i)

@[simp] lemma payload_length (data : ℕ → Byte) (a len : ℕ) : (payload data a len).length = len := by
  simp [payload]

lemma getBe16_len {len : ℕ} (h : len < 2^16) : getBe16 (lenHi len) (lenLo len) = len := by
  simp only [getBe16,lenHi,lenLo,toNat_ofNat]
  omega

lemma lenHi_ne_mark {len : ℕ} (h : len ≤ 0xFEFF) : lenHi len ≠ PADDING_MARK := by
  intro heq
  have hmark : PADDING_MARK.toNat = 255 := rfl
  have := congrArg BitVec.toNat heq
  rw [hmark,lenHi,toNat_ofNat] at this
  omega

/-- A packet with its length is at the index. -/
structure Packet (data : ℕ → Byte) (a : ℕ) (p : List Byte) : Prop where
  pos : 0 < p.length
  short : p.length ≤ 0xFEFF
  hi : data a = lenHi p.length
  lo : data (a+1) = lenLo p.length
  bytes : p = payload data a p.length

lemma Packet.congr {data data' : ℕ → Byte} {a : ℕ} {p : List Byte} (h : Packet data a p)
    (heq : ∀ x, a ≤ x → x < a+ceilTo 4 (p.length+LEN_SZ) → data x = data' x) : Packet data' a p := by
  have hle : p.length+4 ≤ ceilTo 4 (p.length+LEN_SZ) := le_ceilTo (by omega)
  refine ⟨h.pos,h.short,?_,?_,?_⟩
  · rw [← heq a le_rfl (by omega)]; exact h.hi
  · rw [← heq (a+1) (by omega) (by omega)]; exact h.lo
  · refine h.bytes.trans (map_congr_left fun i hi => ?_)
    have hi := mem_range.mp hi
    exact heq _ (by simp only [LEN_SZ]; omega) (by simp only [LEN_SZ] at *; omega)

/-- Packets as records: each one is rounded up to words, and padding starts with its mark. -/
def format : RecordFormat Byte (List Byte) where
  size p := ceilTo 4 (p.length+LEN_SZ)
  lies := Packet
  mark b := b = PADDING_MARK
  size_pos p := lt_of_lt_of_le (by simp [LEN_SZ]) (le_ceilTo (by omega))
  lies_congr heq h := h.congr heq
  lies_not_mark h := by
    rw [h.hi]
    exact lenHi_ne_mark h.short

/-- A data area that is a multiple of words and has indices of 16 bits. -/
structure Area (pblen : ℕ) : Prop where
  word : 4 ∣ pblen
  short : pblen ≤ 2^16
  pos : 0 < pblen

/-- Both indices are in the data area, at word boundaries. -/
structure Indices (pblen rd wr : ℕ) : Prop where
  rd_lt : rd < pblen
  wr_lt : wr < pblen
  rd_word : 4 ∣ rd
  wr_word : 4 ∣ wr

/-- A packet fits behind the write index. -/
def Room (pblen rd wr len : ℕ) : Prop :=
  if rd ≤ wr then wr+LEN_SZ+len+(if rd = 0 then FREE_SPACE_DISTANCE else 0) ≤ pblen
  else wr+LEN_SZ+len+FREE_SPACE_DISTANCE ≤ rd

section Arithmetic
variable {pblen rd wr len n : ℕ}

section
variable (h : Room pblen rd wr len)
include h

lemma Room.mono (hn : n ≤ len) : Room pblen rd wr n := by
  unfold Room at *
  split_ifs at h ⊢ <;> omega

lemma Room.forward {rd' : ℕ} (hlt : rd < rd') (hle : rd ≤ wr → rd' ≤ wr) : Room pblen rd' wr len := by
  unfold Room at *
  split_ifs at h ⊢ <;> omega

lemma Room.restart (hwr : wr < rd) (hrd : rd ≤ pblen) : Room pblen 0 wr len := by
  unfold Room at *
  split_ifs at h ⊢ <;> omega

lemma Room.unused {x : ℕ} (hwr : wr ≤ x) (hx : x < wr+LEN_SZ+len) : ¬RecordFormat.Used pblen rd wr x := by
  unfold Room RecordFormat.Used at *
  split_ifs at h ⊢ <;> omega

end

/-- `spsc_pbuf_alloc` leaves the writer where it is: there is room for what it returns. -/
lemma room_of_alloc (hn : 0 < n) (hle : n ≤ allocLen pblen wr rd len) (hpads : pads pblen wr rd len = false) :
    Room pblen rd wr n := by
  simp only [allocLen,freeSpace,hpads,Bool.false_eq_true,if_false] at hle
  simp only [Room,LEN_SZ,FREE_SPACE_DISTANCE] at *
  split_ifs at hle ⊢ <;> omega

/-- `spsc_pbuf_alloc` adds padding: there is room for what it returns at the start. -/
lemma room_of_pads (hn : 0 < n) (hle : n ≤ allocLen pblen wr rd len) (hpads : pads pblen wr rd len = true) :
    Room pblen rd 0 n := by
  have hrd : rd ≤ wr := by
    simp only [pads,decide_eq_true_eq] at hpads
    exact hpads.1
  simp only [allocLen,freeSpace,hpads,if_pos hrd,if_true] at hle
  simp only [Room,LEN_SZ,FREE_SPACE_DISTANCE] at *
  split_ifs <;> omega

lemma pads_bounds (hpads : pads pblen wr rd len = true) : rd ≤ wr ∧ 0 < rd := by
  simp only [pads,decide_eq_true_eq] at hpads
  refine ⟨hpads.1,?_⟩
  by_contra hzero
  exact hpads.2 (.inr (by omega))

end Arithmetic

section Advance
variable {pblen rd wr : ℕ} {data : ℕ → Byte} {p : List Byte} {Q : List (List Byte)}

lemma size_eq (p : List Byte) : format.size p = ceilTo 4 (p.length+LEN_SZ) := rfl

lemma size_word (p : List Byte) : 4 ∣ format.size p := dvd_ceilTo ..

lemma Room.size_le (h : Room pblen rd wr p.length) (harea : Area pblen) (hidx : Indices pblen rd wr) :
    if rd ≤ wr then wr+format.size p+(if rd = 0 then 4 else 0) ≤ pblen else wr+format.size p+4 ≤ rd := by
  have := harea.word
  have := hidx.rd_word
  have := hidx.wr_word
  simp only [size_eq,ceilTo,Room,LEN_SZ,FREE_SPACE_DISTANCE] at *
  split_ifs at h ⊢ <;> omega

lemma wrBehind_eq (h : Room pblen rd wr p.length) (harea : Area pblen) (hidx : Indices pblen rd wr) :
    wrBehind pblen wr p.length = if wr+format.size p = pblen then 0 else wr+format.size p := by
  have hsize := h.size_le harea hidx
  have := harea.short
  have := hidx.wr_word
  have := hidx.rd_lt
  have hbound : wr+format.size p ≤ pblen := by split_ifs at hsize <;> omega
  have heq : ceilTo 4 ((wr+(p.length+LEN_SZ))%2^32)%2^32 = wr+format.size p := by
    simp only [size_eq,ceilTo,LEN_SZ] at *
    omega
  simp only [wrBehind,heq]

lemma rdBehind_eq (harea : Area pblen) (hword : 4 ∣ rd) (hle : rd+format.size p ≤ pblen) :
    rdBehind rd p.length = if rd+format.size p = 2^16 then 0 else rd+format.size p := by
  have := harea.short
  have heq : ceilTo 4 ((rd+p.length+LEN_SZ)%2^16)%2^16 = (rd+format.size p)%2^16 := by
    simp only [size_eq,ceilTo,LEN_SZ] at *
    omega
  rw [rdBehind,heq]
  split_ifs <;> omega

lemma used_header (hidx : Indices pblen rd wr) (harea : Area pblen) (hne : rd ≠ wr) :
    RecordFormat.Used pblen rd wr rd ∧ RecordFormat.Used pblen rd wr (rd+1) := by
  have := hidx.rd_word
  have := hidx.wr_word
  have := hidx.rd_lt
  have := harea.word
  unfold RecordFormat.Used
  split_ifs <;> omega

lemma packet_commit {data : ℕ → Byte} {wr len : ℕ} (hpos : 0 < len) (hshort : len ≤ 0xFEFF) :
    Packet (update (update data wr (lenHi len)) (wr+1) (lenLo len)) wr (payload data wr len) := by
  refine ⟨by simpa using hpos,by simpa using hshort,?_,by simp,?_⟩
  · simp
  · simp only [payload_length]
    refine map_congr_left fun i _ => ?_
    rw [Function.update_of_ne (by simp only [LEN_SZ]; omega),Function.update_of_ne (by simp only [LEN_SZ]; omega)]

lemma Packet.lenAt_eq (h : Packet data rd p) : lenAt data rd = p.length := by
  rw [lenAt,h.hi,h.lo]
  exact getBe16_len (lt_of_le_of_lt h.short (by norm_num))

/-- The index that `spsc_pbuf_free` leaves: behind the packet, or at the start if the data area ends
there or padding follows. -/
lemma free_laid (h : format.Laid data pblen rd wr (p::Q)) (hp : Packet data rd p) (harea : Area pblen)
    (hidx : Indices pblen rd wr) : ∃ rd', (if rdBehind rd p.length ≠ pblen then
          if data (rdBehind rd p.length) = PADDING_MARK ∧ rdBehind rd p.length ≠ wr then 0 else rdBehind rd p.length
        else 0) = rd' ∧
      format.Laid data pblen rd' wr Q ∧ Indices pblen rd' wr ∧ ∀ n, Room pblen rd wr n → Room pblen rd' wr n := by
  have hsize := format.size_pos p
  have hword := size_word p
  rcases h.tail hp hidx.rd_lt hidx.wr_lt with ⟨hlt,hle,htail⟩ | ⟨heq,hwr,htail⟩
  · have hbehind : rdBehind rd p.length = rd+format.size p := by
      have := harea.short
      rw [rdBehind_eq harea hidx.rd_word hlt.le,if_neg (by omega)]
    have hidx' : Indices pblen (rd+format.size p) wr := ⟨hlt,hidx.wr_lt,hidx.rd_word.add hword,hidx.wr_word⟩
    rw [hbehind,if_pos (by omega)]
    by_cases hpad : data (rd+format.size p) = PADDING_MARK ∧ rd+format.size p ≠ wr
    · obtain ⟨hwr,hskip⟩ := htail.skip hpad.2 hpad.1
      refine ⟨0,if_pos hpad,hskip,⟨harea.pos,hidx.wr_lt,dvd_zero 4,hidx.wr_word⟩,fun n hn => ?_⟩
      exact (hn.forward (by omega) hle).restart hwr hlt.le
    · exact ⟨rd+format.size p,if_neg hpad,htail,hidx',fun n hn => hn.forward (by omega) hle⟩
  · have hzero : (if rdBehind rd p.length ≠ pblen then
        if data (rdBehind rd p.length) = PADDING_MARK ∧ rdBehind rd p.length ≠ wr then 0 else rdBehind rd p.length
        else 0) = 0 := by
      rw [rdBehind_eq harea hidx.rd_word heq.le]
      split_ifs <;> omega
    exact ⟨0,hzero,htail,⟨harea.pos,hidx.wr_lt,dvd_zero 4,hidx.wr_word⟩,fun n hn => hn.restart hwr hidx.rd_lt.le⟩

lemma commit_laid (h : format.Laid data pblen rd wr Q) (hp : Packet data wr p) (hroom : Room pblen rd wr p.length)
    (harea : Area pblen) (hidx : Indices pblen rd wr) :
    format.Laid data pblen rd (wrBehind pblen wr p.length) (Q++[p]) ∧ Indices pblen rd
      (wrBehind pblen wr p.length) := by
  have hsize := hroom.size_le harea hidx
  have hword := size_word p
  rw [wrBehind_eq hroom harea hidx]
  by_cases hend : wr+format.size p = pblen
  · rw [if_pos hend]
    have hrd : rd ≤ wr ∧ 0 < rd := by
      have := hidx.rd_lt
      split_ifs at hsize <;> omega
    exact ⟨h.snoc_end hp hrd.1 hrd.2 hend,hidx.rd_lt,harea.pos,hidx.rd_word,dvd_zero 4⟩
  · rw [if_neg hend]
    have hlt : wr+format.size p < pblen := by
      have := hidx.rd_lt
      split_ifs at hsize <;> omega
    refine ⟨h.snoc hp fun hwr => ?_,hidx.rd_lt,hlt,hidx.rd_word,hidx.wr_word.add hword⟩
    rw [if_neg (by omega)] at hsize
    omega

lemma commit_ne (hroom : Room pblen rd wr p.length) (harea : Area pblen) (hidx : Indices pblen rd wr) :
    rd ≠ wrBehind pblen wr p.length := by
  have hsize := hroom.size_le harea hidx
  have hpos := format.size_pos p
  rw [wrBehind_eq hroom harea hidx]
  split_ifs at hsize ⊢ <;> omega

end Advance
end ArmFirmware.Zephyr.SpscPbuf
