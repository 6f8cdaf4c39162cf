import ArmFirmware.Library.Trace
import ArmFirmware.Zephyr.RingBuffer.Indices

/-! The item interface as a bounded queue of items. A buffer whose size is a multiple of
four keeps every index a multiple of four, so an item header never wraps. -/
namespace ArmFirmware.Zephyr.RingBuffer
open Library List Nat Positions UInt8

/-- What one successful put stores; at most 255 words fit the length field. -/
structure Item where
  type : BitVec 16
  value : UInt8
  words : List (BitVec 32)
  size_lt : words.length < 256

namespace Item

def size32 (it : Item) : UInt8 := ofNat it.words.length

def bytes (it : Item) : ℕ := 4+4*it.words.length

def encode (it : Item) : List UInt8 :=
  (range 4).map (ringElement it.type it.size32 it.value) ++
    (range (4*it.words.length)).map (wordBytes fun k => it.words.getD k 0)

@[simp] lemma size32_toNat (it : Item) : it.size32.toNat = it.words.length := by
  have := it.size_lt
  simp only [size32,toNat_ofNat']
  omega

@[simp] lemma encode_length (it : Item) : it.encode.length = it.bytes := by
  simp [encode,bytes]

def ofPut (type : BitVec 16) (value : UInt8) (data32 : ℕ → BitVec 32) (size32 : UInt8) : Item where
  type := type
  value := value
  words := (range size32.toNat).map data32
  size_lt := by simpa using size32.toNat_lt

end Item

inductive ItemOp where
  | put (type : BitVec 16) (value : UInt8) (data32 : ℕ → BitVec 32) (size32 : UInt8)
  | get (data : Bool) (size32 : UInt8)

inductive ItemReply where
  | put (ret : ℤ)
  | get (result : ItemGet)
  deriving DecidableEq

def itemStep (b : RingBuf) : ItemOp → RingBuf × ItemReply
  | .put type value data32 size32 =>
    let r := ringBufItemPut b type value data32 size32
    (r.1,.put r.2)
  | .get data size32 =>
    let r := ringBufItemGet b data size32
    (r.1,.get r.2)

def Item.out (it : Item) (data : Bool) : ItemOut :=
  ⟨it.type,it.value,it.size32,if data then some it.words else none⟩

def itemsBytes (q : List Item) : ℕ := (q.map Item.bytes).sum

/-- A queue of items in `capacity` bytes. A call that fails leaves it alone. -/
inductive ItemStep (capacity : ℕ) : List Item → ItemOp → ItemReply → List Item → Prop
  | put (q type value data32) (size32 : UInt8)
      (fits : itemsBytes q+4+4*size32.toNat ≤ capacity) :
      ItemStep capacity q (.put type value data32 size32) (.put 0)
        (q ++ [Item.ofPut type value data32 size32])
  | put_fails (q type value data32) (size32 : UInt8)
      (full : capacity < itemsBytes q+4+4*size32.toNat) :
      ItemStep capacity q (.put type value data32 size32) (.put (-EMSGSIZE)) q
  | get_empty (data size32) : ItemStep capacity [] (.get data size32) (.get .again) []
  | get_small (it : Item) (q) (size32 : UInt8) (small : size32.toNat < it.words.length) :
      ItemStep capacity (it::q) (.get true size32) (.get (.msgsize it.size32)) (it::q)
  | get (it : Item) (q) (data : Bool) (size32 : UInt8)
      (room : data = true → it.words.length ≤ size32.toNat) :
      ItemStep capacity (it::q) (.get data size32) (.get (.item (it.out data))) q

/-- Items lie one after the other between the get tail and the put tail, both multiples of
four, and no claim is outstanding. -/
structure Holds (m : ℕ → UInt8) (N : ℕ) (p : Positions) (q : List Item) : Prop where
  ordered : Ordered N p
  size_dvd : 4 ∣ N
  getTail_dvd : 4 ∣ p.getTail
  putTail_dvd : 4 ∣ p.putTail
  putHead_eq : p.putHead = p.putTail
  getHead_eq : p.getHead = p.getTail
  items : ringRead m N p.getTail (p.putTail-p.getTail) = q.flatMap Item.encode

/-- A buffer that holds a queue of items; a buffer of size zero holds the empty one. -/
def HoldsItems (b : RingBuf) (q : List Item) : Prop :=
  (b.size = 0 ∧ b.putHead = b.getTail ∧ b.getHead = b.putTail ∧ q = []) ∨
    ∃ m p, b = place m b.size p ∧ Holds m b.size.toNat p q

lemma flatMap_encode_length (q : List Item) : (q.flatMap Item.encode).length = itemsBytes q := by
  simp [length_flatMap,itemsBytes]

namespace Holds
variable {m : ℕ → UInt8} {N : ℕ} {p : Positions} {q : List Item}

lemma used (h : Holds m N p q) : p.putTail-p.getTail = itemsBytes q := by
  have := congrArg length h.items
  rwa [ringRead_length,flatMap_encode_length] at this

lemma four_le_slice {H : ℕ} (hN : 0 < N) (h₁ : 4 ∣ N) (h₂ : 4 ∣ H) : 4 ≤ N-H % N := by
  have hlt := mod_lt H hN
  have hd : 4 ∣ H % N := (dvd_mod_iff h₁).mpr h₂
  omega

end Holds

lemma wordAt_wordBytes (data32 : ℕ → BitVec 32) (k : ℕ) : wordAt (wordBytes data32) k = data32 k := by
  have h₀ : (4*k)/4 = k := by omega
  have h₁ : (4*k+1)/4 = k := by omega
  have h₂ : (4*k+2)/4 = k := by omega
  have h₃ : (4*k+3)/4 = k := by omega
  have g₀ : (4*k)%4 = 0 := by omega
  have g₁ : (4*k+1)%4 = 1 := by omega
  have g₂ : (4*k+2)%4 = 2 := by omega
  have g₃ : (4*k+3)%4 = 3 := by omega
  apply BitVec.eq_of_toNat_eq
  simp only [wordAt,wordBytes,h₀,h₁,h₂,h₃,g₀,g₁,g₂,g₃,toNat_ofNat',BitVec.toNat_ofNat]
  norm_num
  omega

lemma wordAt_congr {f g : ℕ → UInt8} {k : ℕ} (h : ∀ i < 4, f (4*k+i) = g (4*k+i)) : wordAt f k = wordAt g k := by
  simp only [wordAt,h 1 (by omega),h 2 (by omega),h 3 (by omega)]
  rw [show f (4*k) = g (4*k) from h 0 (by omega)]

lemma words_decode (it : Item) {out : List UInt8}
    (h : out = (range (4*it.words.length)).map (wordBytes fun k => it.words.getD k 0)) :
    (range it.words.length).map (wordAt fun i => out.getD i 0) = it.words := by
  apply ext_getElem
  · simp
  · intro k h₁ h₂
    rw [getElem_map,getElem_range]
    rw [wordAt_congr (g := wordBytes fun k => it.words.getD k 0),wordAt_wordBytes]
    · simp [h₂]
    · intro i hi
      subst h
      simp only [getD_eq_getElem?_getD,getElem?_map]
      rw [getElem?_range (by omega)]
      rfl

section Calls
variable {m : ℕ → UInt8} {size : BitVec 32} {p : Positions} {q : List Item}

lemma ofNat_size32 (size32 : UInt8) : (BitVec.ofNat 32 (size32.toNat*4)).toNat = 4*size32.toNat := by
  have := size32.toNat_lt
  rw [toNat_ofNat_of_lt (by omega)]
  omega

lemma itemPut_full_iff (h : Ordered size.toNat p) (size32 : UInt8) :
    ringBufSpaceGet (place m size p) < BitVec.ofNat 32 (size32.toNat*4)+4 ↔
      p.room size.toNat < 4+4*size32.toNat := by
  have hn := ofNat_size32 size32
  have hlt := size32.toNat_lt
  rw [BitVec.lt_def,spaceGet_place h,BitVec.toNat_add,hn]
  change size.toNat-(p.putHead-p.getTail) < (4*size32.toNat+4) % 2^32 ↔ _
  rw [mod_eq_of_lt (by omega),room,add_comm]

lemma ofPut_encode (type : BitVec 16) (value : UInt8) (data32 : ℕ → BitVec 32) (size32 : UInt8) :
    (Item.ofPut type value data32 size32).encode = (range 4).map (ringElement type size32 value) ++
        (range (4*size32.toNat)).map (wordBytes data32) := by
  have hsize : (Item.ofPut type value data32 size32).size32 = size32 := by
    apply UInt8.toNat_inj.mp
    simp [Item.ofPut]
  simp only [Item.encode,hsize]
  congr 1
  simp only [Item.ofPut,length_map,length_range]
  apply map_congr_left
  intro i hi
  have hi := mem_range.mp hi
  simp only [wordBytes,getD_eq_getElem?_getD,getElem?_map]
  rw [getElem?_range (by omega)]
  rfl

/-- `ring_buf_item_put` stores an item that fits. -/
theorem itemPut_fits (h : Holds m size.toNat p q) (type : BitVec 16) (value : UInt8)
    (data32 : ℕ → BitVec 32) (size32 : UInt8) (fits : itemsBytes q+4+4*size32.toNat ≤ size.toNat) :
    ∃ m' p', ringBufItemPut (place m size p) type value data32 size32 = (place m' size p',0) ∧
      Holds m' size.toNat p' (q ++ [Item.ofPut type value data32 size32]) := by
  have hused := h.used
  obtain ⟨hpos,hlt,h₁,h₂,h₃,h₄,-,-,-,-,-,-⟩ := id h.ordered
  have hhead := h.putHead_eq
  have hfree : 4+4*size32.toNat ≤ p.room size.toNat := by
    unfold room
    omega
  -- the header, in one slice
  have hslice := Holds.four_le_slice hpos h.size_dvd (hhead ▸ h.putTail_dvd)
  have hgrant : p.putGrant size.toNat (4 : BitVec 32).toNat = 4 := by
    change min (min 4 _) _ = 4
    omega
  have hclaim := h.ordered.claimPut (k := 4) (by unfold room at hfree; omega)
  have hheader := Copied.slice (k := 4) h.ordered (ringElement type size32 value) m
    (by omega) (by omega)
  -- the payload, in as many as it takes
  have hsize := ofNat_size32 size32
  obtain ⟨m',hloop,hpayload⟩ := putLoop_place ((BitVec.ofNat 32 (size32.toNat*4)).toNat+1)
    hclaim 4
    (BitVec.ofNat 32 (size32.toNat*4)) (wordBytes data32) (lt_succ_self _)
  have hall : min (BitVec.ofNat 32 (size32.toNat*4)).toNat ((p.claimPut 4).room size.toNat) = 4*size32.toNat := by
    rw [hsize,room_claimPut]
    omega
  rw [hall,claimPut_claimPut] at hloop
  rw [hall] at hpayload
  have htotal : (4+BitVec.ofNat 32 (4*size32.toNat) : BitVec 32).toNat = 4+4*size32.toNat := by
    rw [BitVec.toNat_add,toNat_ofNat_of_lt (by omega)]
    exact mod_eq_of_lt (by change 4+_ < _; omega)
  have hdone := h.ordered.claimPut (by unfold room at hfree; omega)
  refine ⟨m',(p.claimPut (4+4*size32.toNat)).finishPut size.toNat (4+4*size32.toNat),?_,?_⟩
  · unfold ringBufItemPut
    rw [if_neg (by rw [itemPut_full_iff h.ordered]; omega)]
    simp only [putClaim_place h.ordered,hgrant]
    rw [show ({place m size (p.claimPut 4) with
        buffer := blit (place m size (p.claimPut 4)).buffer (p.putHead % size.toNat) 4
          (ringElement type size32 value)} : RingBuf) =
      place (blit m (p.putHead % size.toNat) 4 (ringElement type size32 value)) size
        (p.claimPut 4) from rfl,hloop]
    simp only
    rw [putFinish_place hdone,htotal,if_neg]
    simp only [claimPut]
    omega
  · refine ⟨hdone.finishPut ?_,h.size_dvd,h.getTail_dvd,?_,rfl,h.getHead_eq,?_⟩
    · simp only [claimPut]
      omega
    · have := h.putTail_dvd
      simp only [finishPut,claimPut]
      omega
    · simp only [finishPut,claimPut]
      rw [show p.putTail+(4+4*size32.toNat)-p.getTail =
          (p.putTail-p.getTail)+(4+4*size32.toNat) by omega,ringRead_append,ringRead_append,
        show p.getTail+(p.putTail-p.getTail) = p.putHead by omega,
        hpayload.kept p.getTail _ le_rfl (by simp only [claimPut]; omega),
        hheader.kept p.getTail _ le_rfl (by omega),h.items,
        hpayload.kept p.putHead 4 (by simp only [claimPut]; omega) le_rfl,hheader.written]
      have hw := hpayload.written
      simp only [claimPut] at hw
      rw [hw,flatMap_append,flatMap_singleton,ofPut_encode]

theorem itemGet_empty (h : Holds m size.toNat p []) (data : Bool) (size32 : UInt8) :
    ringBufItemGet (place m size p) data size32 = (place m size p,.again) := by
  have hused := h.used
  have h₂ := h.ordered.getHead_le
  have hempty : ringBufIsEmpty (place m size p) = true := by
    have : p.getHead = p.putTail := by
      have := h.getHead_eq
      simp only [itemsBytes,map_nil,sum_nil] at hused
      omega
    simp [ringBufIsEmpty,place,this]
  rw [ringBufItemGet,if_pos hempty]

/-- The header of the first item is in front. -/
lemma itemGet_header {it : Item} (h : Holds m size.toNat p (it::q)) :
    ringBufIsEmpty (place m size p) = false ∧ p.getGrant size.toNat 4 = 4 ∧
      (∀ i < 4, m (p.getHead % size.toNat+i) = ringElement it.type it.size32 it.value i) ∧
      4+4*it.words.length ≤ p.unclaimed := by
  have hused := h.used
  obtain ⟨hpos,hlt,h₁,h₂,h₃,h₄,-,-,-,-,-,-⟩ := id h.ordered
  have hhead := h.getHead_eq
  simp only [itemsBytes,map_cons,sum_cons,Item.bytes] at hused
  have hslice := Holds.four_le_slice hpos h.size_dvd (hhead ▸ h.getTail_dvd)
  refine ⟨?_,?_,?_,?_⟩
  · have hne : ¬ BitVec.ofNat 32 p.putTail = BitVec.ofNat 32 p.getHead := by
      rw [counter_eq_iff hlt h₂ (by omega)]
      omega
    simpa [ringBufIsEmpty,place] using fun he => hne he.symm
  · unfold getGrant
    omega
  · intro i hi
    have hitems := congrArg (fun l => l[i]?) h.items
    simp only [ringRead_getElem?,if_pos (show i < p.putTail-p.getTail by omega),flatMap_cons,Item.encode] at hitems
    rw [append_assoc,getElem?_append_left (by simpa using hi),getElem?_map,getElem?_range hi] at hitems
    rw [← add_mod_of_slice hpos (by omega) hi,hhead]
    exact Option.some.inj hitems
  · unfold unclaimed
    omega

lemma ringElement_two (it : Item) : ringElement it.type it.size32 it.value 2 = it.size32 := rfl

theorem itemGet_small {it : Item} (h : Holds m size.toNat p (it::q)) (size32 : UInt8)
    (small : size32.toNat < it.words.length) : ∃ p', ringBufItemGet (place m size p) true size32 =
        (place m size p',.msgsize it.size32) ∧ Holds m size.toNat p' (it::q) := by
  obtain ⟨hne,hgrant,hheader,hthere⟩ := itemGet_header h
  have hclaim := h.ordered.claimGet (k := 4) (by unfold unclaimed at hthere; omega)
  refine ⟨(p.claimGet 4).finishGet size.toNat 0,?_,?_⟩
  · unfold ringBufItemGet
    rw [if_neg (by simp [hne])]
    simp only [getClaim_place h.ordered,show (4 : BitVec 32).toNat = 4 from rfl,hgrant]
    rw [show (place m size (p.claimGet 4)).buffer = m from rfl,hheader 2 (by omega),
      ringElement_two,if_pos ⟨trivial,lt_iff_toNat_lt.mpr (by simpa using small)⟩,
      getFinish_place hclaim,if_neg (by simp)]
    rfl
  · exact ⟨hclaim.finishGet (zero_le _),h.size_dvd,h.getTail_dvd,h.putTail_dvd,h.putHead_eq,rfl,h.items⟩

/-- `ring_buf_item_get` takes the first item. -/
theorem itemGet_item {it : Item} (h : Holds m size.toNat p (it::q)) (data : Bool) (size32 : UInt8)
    (room : data = true → it.words.length ≤ size32.toNat) : ∃ p', ringBufItemGet (place m size p) data size32 =
        (place m size p',.item (it.out data)) ∧ Holds m size.toNat p' q := by
  obtain ⟨hne,hgrant,hheader,hthere⟩ := itemGet_header h
  have hused := h.used
  simp only [itemsBytes,map_cons,sum_cons,Item.bytes] at hused
  obtain ⟨hpos,hlt,h₁,h₂,h₃,h₄,-,-,-,-,-,-⟩ := id h.ordered
  have hhead := h.getHead_eq
  have hclaim := h.ordered.claimGet (k := 4) (by unfold unclaimed at hthere; omega)
  have hsize := ofNat_size32 it.size32
  rw [it.size32_toNat] at hsize
  have hall : min (BitVec.ofNat 32 (it.words.length*4)).toNat (p.claimGet 4).unclaimed = 4*it.words.length := by
    rw [hsize,unclaimed_claimGet]
    omega
  have hloop := getLoop_place ((BitVec.ofNat 32 (it.words.length*4)).toNat+1) (m := m) hclaim 4
    (BitVec.ofNat 32 (it.words.length*4)) [] (lt_succ_self _)
  rw [hall,claimGet_claimGet] at hloop
  have htotal : (4+BitVec.ofNat 32 (4*it.words.length) : BitVec 32).toNat = 4+4*it.words.length := by
    rw [BitVec.toNat_add,toNat_ofNat_of_lt (by omega)]
    exact mod_eq_of_lt (by change 4+_ < _; omega)
  have hdone := h.ordered.claimGet
    (by unfold unclaimed at hthere; omega)
  have hsplit := h.items
  rw [show p.putTail-p.getTail = 4+(4*it.words.length+(p.putTail-(p.getTail+(4+4*it.words.length))))
    by omega,ringRead_append,ringRead_append,flatMap_cons,Item.encode,append_assoc] at hsplit
  obtain ⟨-,hsplit⟩ := append_inj hsplit (by simp)
  obtain ⟨hpayload,hrest⟩ := append_inj hsplit (by simp)
  have htype : BitVec.ofNat 16 ((ringElement it.type it.size32 it.value 0).toNat+
      256*(ringElement it.type it.size32 it.value 1).toNat) = it.type := by
    apply BitVec.eq_of_toNat_eq
    simp only [ringElement,toNat_ofNat',BitVec.toNat_ofNat]
    omega
  refine ⟨(p.claimGet (4+4*it.words.length)).finishGet size.toNat (4+4*it.words.length),?_,?_⟩
  · unfold ringBufItemGet
    rw [if_neg (by simp [hne])]
    simp only [getClaim_place h.ordered,show (4 : BitVec 32).toNat = 4 from rfl,hgrant]
    rw [show (place m size (p.claimGet 4)).buffer = m from rfl,hheader 2 (by omega),
      hheader 1 (by omega),hheader 3 (by omega),
      show m (p.getHead % size.toNat+0) = _ from hheader 0 (by omega),ringElement_two,
      if_neg (by rintro ⟨hd,hs⟩; have := room hd; have := lt_iff_toNat_lt.mp hs; simp at this; omega)]
    simp only [it.size32_toNat,hloop,nil_append]
    rw [getFinish_place hdone,htotal,if_neg (by simp only [claimGet]; omega),htype,
      words_decode it (by simp only [claimGet,hhead]; exact hpayload)]
    rfl
  · refine ⟨hdone.finishGet (by simp only [claimGet]; omega),h.size_dvd,?_,h.putTail_dvd,h.putHead_eq,rfl,?_⟩
    · have := h.getTail_dvd
      simp only [finishGet,claimGet]
      omega
    · simp only [finishGet,claimGet]
      rw [← hrest]
      congr 1
      omega

end Calls

lemma itemStep_of_size_zero {b : RingBuf} (hsize : b.size = 0) (hput : b.putHead = b.getTail)
    (hget : b.getHead = b.putTail) (op : ItemOp) :
    ItemStep 0 [] op (itemStep b op).2 [] ∧ (itemStep b op).1 = b := by
  cases op with
  | put type value data32 size32 =>
    have hlt := size32.toNat_lt
    have hfull : ringBufSpaceGet b < BitVec.ofNat 32 (size32.toNat*4)+4 := by
      rw [ringBufSpaceGet,hsize,hput,BitVec.lt_def,BitVec.toNat_add,ofNat_size32]
      change (0-(b.getTail-b.getTail) : BitVec 32).toNat < (4*size32.toNat+4) % 2^32
      rw [mod_eq_of_lt (by omega)]
      simp
    simp only [itemStep,ringBufItemPut,if_pos hfull,and_true]
    exact .put_fails _ _ _ _ _ (by simp [itemsBytes])
  | get data size32 =>
    have hempty : ringBufIsEmpty b = true := by simp [ringBufIsEmpty,hget]
    simp only [itemStep,ringBufItemGet,if_pos hempty,and_true]
    exact .get_empty _ _

/-- One call on a buffer that holds a queue is one call on the queue. -/
theorem HoldsItems.step {b : RingBuf} {q : List Item} (h : HoldsItems b q) (op : ItemOp) :
    ∃ q', ItemStep b.size.toNat q op (itemStep b op).2 q' ∧ HoldsItems (itemStep b op).1 q' ∧
      (itemStep b op).1.size = b.size := by
  obtain ⟨hz,hput,hget,rfl⟩ | ⟨m,p,hb,hq⟩ := h
  · obtain ⟨hs,he⟩ := itemStep_of_size_zero hz hput hget op
    rw [he,hz]
    exact ⟨[],hs,.inl ⟨hz,hput,hget,rfl⟩,rfl⟩
  · generalize b.size = size at hb hq
    subst hb
    have hroom := hq.used
    cases op with
    | put type value data32 size32 =>
      by_cases fits : itemsBytes q+4+4*size32.toNat ≤ size.toNat
      · obtain ⟨m',p',heq,hq'⟩ := itemPut_fits hq type value data32 size32 fits
        simp only [itemStep,heq]
        exact ⟨_,.put _ _ _ _ _ fits,.inr ⟨m',p',rfl,hq'⟩,rfl⟩
      · have hfull : ringBufSpaceGet (place m size p) < BitVec.ofNat 32 (size32.toNat*4)+4 := by
          rw [itemPut_full_iff hq.ordered,room,hq.putHead_eq]
          omega
        simp only [itemStep,ringBufItemPut,if_pos hfull]
        exact ⟨q,.put_fails _ _ _ _ _ (by omega),.inr ⟨m,p,rfl,hq⟩,rfl⟩
    | get data size32 =>
      cases q with
      | nil =>
        simp only [itemStep,itemGet_empty hq]
        exact ⟨[],.get_empty _ _,.inr ⟨m,p,rfl,hq⟩,rfl⟩
      | cons it q =>
        by_cases room : data = true → it.words.length ≤ size32.toNat
        · obtain ⟨p',heq,hq'⟩ := itemGet_item hq data size32 room
          simp only [itemStep,heq]
          exact ⟨q,.get _ _ _ _ room,.inr ⟨m,p',rfl,hq'⟩,rfl⟩
        · obtain ⟨rfl,small⟩ : data = true ∧ size32.toNat < it.words.length := by
            simpa using room
          obtain ⟨p',heq,hq'⟩ := itemGet_small hq size32 small
          simp only [itemStep,heq]
          exact ⟨_,.get_small _ _ _ small,.inr ⟨m,p',rfl,hq'⟩,rfl⟩

lemma holdsItems_init {size : BitVec 32} (data : ℕ → UInt8) (hdvd : 4 ∣ size.toNat)
    (hlt : size.toNat < ringBufferMaxSize) : HoldsItems (ringBufInit size data) [] := by
  by_cases hpos : 0 < size.toNat
  · exact .inr ⟨data,⟨0,0,0,0,0,0⟩,rfl,Ordered.init hpos hlt,hdvd,by simp,by simp,rfl,rfl,rfl⟩
  · refine .inl ⟨BitVec.eq_of_toNat_eq ?_,rfl,rfl,rfl⟩
    change size.toNat = 0
    omega

/-- Over every run of the item calls the replies are those of a bounded queue of items: a
successful get returns the oldest item with its type, value and words, and a refused call
leaves the queue as it was. -/
theorem item_runs_are_queue {size : BitVec 32} (data : ℕ → UInt8) (hdvd : 4 ∣ size.toNat)
    (hlt : size.toNat < ringBufferMaxSize) {ops : List ItemOp} {outs : List ItemReply}
    {b : RingBuf}
    (h : Trace (fun b op out b' => itemStep b op = (b',out)) (ringBufInit size data) ops outs b) :
    ∃ q, Trace (ItemStep size.toNat) [] ops outs q ∧ HoldsItems b q := by
  obtain ⟨q,ht,-,hq⟩ := h.simulation (R := fun b q => b.size = size ∧ HoldsItems b q)
    (fun b op out b' q hr hs => by
      obtain ⟨q',hq,hr',hsize⟩ := hr.2.step op
      rw [hs] at hq hr' hsize
      rw [hr.1] at hq hsize
      exact ⟨q',hq,hsize,hr'⟩)
    ⟨rfl,holdsItems_init data hdvd hlt⟩
  exact ⟨q,ht,hq⟩

/-- Two items in a five-word buffer: the second wraps, and a get with too small a buffer
leaves it in place for the next one. -/
theorem item_runs_are_queue_wrapping : ∃ b q,
    Trace (fun b op out b' => itemStep b op = (b',out)) (ringBufInit 20 fun _ => 0)
      [.put 7 1 (fun k => BitVec.ofNat 32 (k+1000)) 2,.get true 2,
        .put 8 2 (fun k => BitVec.ofNat 32 (k+2000)) 3,.get true 1,.get true 3]
      [.put 0,.get (.item ⟨7,1,2,some [1000,1001]⟩),.put 0,.get (.msgsize 3),
        .get (.item ⟨8,2,3,some [2000,2001,2002]⟩)] b ∧
    Trace (ItemStep 20) []
      [.put 7 1 (fun k => BitVec.ofNat 32 (k+1000)) 2,.get true 2,
        .put 8 2 (fun k => BitVec.ofNat 32 (k+2000)) 3,.get true 1,.get true 3]
      [.put 0,.get (.item ⟨7,1,2,some [1000,1001]⟩),.put 0,.get (.msgsize 3),
        .get (.item ⟨8,2,3,some [2000,2001,2002]⟩)] q ∧ HoldsItems b q := by
  have hrun := Trace.of_serve itemStep (ringBufInit 20 fun _ => 0)
    [.put 7 1 (fun k => BitVec.ofNat 32 (k+1000)) 2,.get true 2,
      .put 8 2 (fun k => BitVec.ofNat 32 (k+2000)) 3,.get true 1,.get true 3]
  obtain ⟨q,hq⟩ := item_runs_are_queue (fun _ => 0) (by decide) (by decide) hrun
  exact ⟨_,q,hrun,hq⟩

end ArmFirmware.Zephyr.RingBuffer
