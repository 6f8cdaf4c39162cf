import ArmFirmware.Zephyr.Nvs.Cells

/-! How the entries of the log lie in flash, and the walk of `nvs_prev_ate` through them. -/
namespace ArmFirmware.Zephyr.Nvs
open Library List Nat Ate

/-- What an entry of the log says; without data, that the id is deleted. -/
structure Entry where
  id : ℕ
  data : List (BitVec 8)
  deriving DecidableEq

section Sector
variable (d : Device)

def sector (flash : ℕ → BitVec 8) (k : ℕ) : ℕ → BitVec 8 :=
  fun i => if i < d.sectorSize then flash (d.sectorSize*k+i) else d.eraseValue

/-- The offset of the slot below `j` others; the one at the very end of the sector is for closing it. -/
def slot (j : ℕ) : ℕ := d.sectorSize-(j*ateSize d+2*ateSize d)

def ateAt (b : ℕ → BitVec 8) (o : ℕ) : Ate := ofBytes fun i => b (o+i)

def bytesAt (b : ℕ → BitVec 8) (o len : ℕ) : List (BitVec 8) := (range len).map fun i => b (o+i)

/-- The entries of a sector, the last one first, with their data below `limit`. -/
def Stores (b : ℕ → BitVec 8) (limit : ℕ) : List Entry → Prop
  | [] => True
  | e::es => (∃ offset, offset+e.data.length ≤ limit ∧ bytesAt b offset e.data.length = e.data ∧
      ateAt b (slot d es.length) = newAte e.id offset e.data.length) ∧ Stores b limit es

/-- What the entries with data take when they are moved. -/
def load : List Entry → ℕ
  | [] => 0
  | e::es => (if e.data = [] then 0 else alSize d e.data.length+ateSize d)+load es

/-- A sector with its entries and its close entry. -/
structure Closed (b : ℕ → BitVec 8) (es : List Entry) : Prop where
  ne_nil : es ≠ []
  fits : es.length*ateSize d+ateSize d ≤ d.sectorSize
  stores : Stores d b (d.sectorSize-(es.length*ateSize d+ateSize d)) es
  close : ateAt b (d.sectorSize-ateSize d) = newAte 0xffff (d.sectorSize-(es.length*ateSize d+ateSize d)) 0
  load_fits : load d es+2*ateSize d ≤ d.sectorSize

def Past (b : ℕ → BitVec 8) : Option (List Entry) → Prop
  | some es => Closed d b es
  | none => b = fun _ => d.eraseValue

/-- The sector that was the current one `i` sectors ago. -/
def back (c i : ℕ) : ℕ := (c+(d.sectorCount-i))%d.sectorCount

/-- The current sector `c` has the entries `cur` and data up to `limit`; the sectors before it have `olds`. -/
structure Layout (fs : Fs) (c limit : ℕ) (cur : List Entry) (olds : List (List Entry)) : Prop where
  room : 4*ateSize d ≤ d.sectorSize
  lt : c < d.sectorCount
  dataWra : fs.dataWra = c*2^16+limit
  ateWra : fs.ateWra = (c*2^16+2^32+d.sectorSize-(cur.length*ateSize d+2*ateSize d))%2^32
  fits : limit+(cur.length*ateSize d+ateSize d) ≤ d.sectorSize
  stores : Stores d (sector d fs.flash c) limit cur
  blank : ∀ i, limit ≤ i → i < d.sectorSize-(cur.length*ateSize d+ateSize d) ∨ d.sectorSize-ateSize d ≤ i →
    sector d fs.flash c i = d.eraseValue
  past : ∀ i < d.sectorCount-1, Past d (sector d fs.flash (back d c (i+1))) olds[i]?
  olds_le : olds.length ≤ d.sectorCount-1
  load_le : load d cur ≤ limit+cur.length*ateSize d
  load_fits : load d cur+2*ateSize d ≤ d.sectorSize

/-- No entry is at the write address, which is in the sector of the data. -/
def Open (fs : Fs) : Prop := fs.ateWra/2^16 = fs.dataWra/2^16 ∧ ateValid d (flashAteRd d fs fs.ateWra) = false

instance (fs : Fs) : Decidable (Open d fs) := inferInstanceAs (Decidable (_ ∧ _))

end Sector

section Reading
variable {d : Device} {fs : Fs} {k o n : ℕ}

lemma flashRd_eq (h : o+n ≤ d.sectorSize) : flashRd d fs (k*2^16+o) n = bytesAt (sector d fs.flash k) o n := by
  have hlt := d.sectorSize_lt
  apply map_congr_left
  intro i hi
  have hi := mem_range.mp hi
  by_cases ho : o < 2^16
  · rw [place_eq d ho,sector,if_pos (by omega),add_assoc]
  · omega

lemma flashAteRd_eq (h : o+8 ≤ d.sectorSize) : flashAteRd d fs (k*2^16+o) = ateAt (sector d fs.flash k) o := by
  have hlt := d.sectorSize_lt
  apply ofBytes_congr
  intro i hi
  rw [place_eq d (by omega),sector,if_pos (by omega),add_assoc]

/-- The address that the walk comes to behind the first entry of a sector. -/
def jump (d : Device) (fs : Fs) (k : ℕ) : Option ℕ :=
  let k := (k+(d.sectorCount-1))%d.sectorCount
  let closeAte := ateAt (sector d fs.flash k) (d.sectorSize-ateSize d)
  if closeAte.cmpConst d.eraseValue then some fs.ateWra else lastAte d fs (k*2^16+(d.sectorSize-ateSize d)) closeAte

def behind (d : Device) (k next : ℕ) : ℕ → ℕ
  | 0 => next
  | j+1 => k*2^16+slot d j

/-- `nvs_prev_ate` goes from slot to slot, and on to the sector before. -/
lemma prevAte_slot {j next : ℕ} (hk : k < d.sectorCount) (hj : j*ateSize d+2*ateSize d ≤ d.sectorSize)
    (hjump : jump d fs k = some next) :
    prevAte d fs (k*2^16+slot d j) = some (behind d k next j,ateAt (sector d fs.flash k) (slot d j)) := by
  have hlt := d.sectorSize_lt
  have hcount := d.sectorCount_lt
  have height := eight_le_ateSize d
  have hnext : (k*2^16+slot d j+ateSize d)%2^32 = k*2^16+(d.sectorSize-(j*ateSize d+ateSize d)) := by
    simp only [slot]
    omega
  have hate : flashAteRd d fs (k*2^16+slot d j) = ateAt (sector d fs.flash k) (slot d j) :=
    flashAteRd_eq (by rw [slot]; omega)
  have hbelow : below d 1 = d.sectorSize-ateSize d := by rw [below_eq d (by omega),one_mul]
  simp only [prevAte,hate,hnext,hbelow]
  cases j with
  | succ j =>
    have hslot : slot d j = d.sectorSize-((j+1)*ateSize d+ateSize d) := by
      rw [slot,two_mul,succ_mul,add_assoc]
    rw [if_pos (by rw [succ_mul]; omega),behind,hslot]
  | zero =>
    rw [zero_mul,zero_add,if_neg (by omega)]
    -- the sector before, which is the last one before the first
    have hback : (if (k*2^16+(d.sectorSize-ateSize d))/2^16 = 0 then
          (k*2^16+(d.sectorSize-ateSize d)+(d.sectorCount-1)*2^16)%2^32
        else (k*2^16+(d.sectorSize-ateSize d)+(2^32-2^16))%2^32) =
        (k+(d.sectorCount-1))%d.sectorCount*2^16+(d.sectorSize-ateSize d) := by
      by_cases hzero : k = 0
      · subst hzero
        rw [if_pos (by omega),zero_add,mod_eq_of_lt (by omega : d.sectorCount-1 < d.sectorCount)]
        omega
      · rw [if_neg (by omega),show k+(d.sectorCount-1) = k-1+d.sectorCount by omega,add_mod_right,
          mod_eq_of_lt (by omega : k-1 < d.sectorCount)]
        omega
    rw [hback,flashAteRd_eq (by omega)]
    simp only [jump] at hjump
    split_ifs at hjump ⊢ with hclosed
    · rw [Option.some.inj hjump,behind]
    · rw [hjump,Option.map_some,behind]

/-- An entry that the walk reads at an address. -/
structure Shows (d : Device) (fs : Fs) (addr : ℕ) (e : Entry) (ate : Ate) : Prop where
  eq : ate = newAte e.id ate.offset e.data.length
  id_lt : e.id < 2^16
  valid : ateValid d ate = true
  data : flashRd d fs (addr/2^16*2^16+ate.offset) e.data.length = e.data

/-- The walk from an address up to the end, by address and entry. -/
def Walk (d : Device) (fs : Fs) : ℕ → List (ℕ × Entry) → Prop
  | addr,[] => addr = fs.ateWra
  | addr,v::vs => v.1 = addr ∧ addr ≠ fs.ateWra ∧
      ∃ next ate, prevAte d fs addr = some (next,ate) ∧ Shows d fs addr v.2 ate ∧ Walk d fs next vs

def slots (d : Device) (k : ℕ) : List Entry → List (ℕ × Entry)
  | [] => []
  | e::es => (k*2^16+slot d es.length,e)::slots d k es

@[simp] lemma slots_map (k : ℕ) (es : List Entry) : (slots d k es).map Prod.snd = es := by
  induction es with
  | nil => rfl
  | cons e es ih => rw [slots,map_cons,ih]

lemma walk_slots {limit next : ℕ} {es : List Entry} {rest : List (ℕ × Entry)} (hk : k < d.sectorCount)
    (hjump : jump d fs k = some next) (hrest : Walk d fs next rest)
    (hfits : limit+(es.length*ateSize d+ateSize d) ≤ d.sectorSize)
    (hne : ∀ j < es.length, k*2^16+slot d j ≠ fs.ateWra)
    (hstores : Stores d (sector d fs.flash k) limit es) :
    Walk d fs (behind d k next es.length) (slots d k es++rest) := by
  have height := eight_le_ateSize d
  have hlt := d.sectorSize_lt
  induction es with
  | nil => exact hrest
  | cons e es ih =>
    obtain ⟨⟨offset,hoffset,hdata,hate⟩,hstores⟩ := hstores
    rw [length_cons,succ_mul] at hfits
    refine ⟨rfl,hne _ (by simp),_,_,prevAte_slot hk (by omega) hjump,?_,
      ih (by omega) (fun j hj => hne j (by simp; omega)) hstores⟩
    have hid : (newAte e.id offset e.data.length).id < 2^16 := hate ▸ (ofBytes_fits _).id
    rw [hate]
    refine ⟨rfl,hid,ateValid_crc8Update.mpr ?_,?_⟩
    · rw [below_eq d (by omega)]
      dsimp only
      omega
    · have hsector : (behind d k next (e::es).length)/2^16*2^16 = k*2^16 := by
        rw [length_cons,behind,slot]
        omega
      rw [hsector]
      exact (flashRd_eq (by dsimp only [newAte,crc8Update]; omega)).trans hdata

lemma jump_blank
    (hblank : ∀ i, d.sectorSize-ateSize d ≤ i → sector d fs.flash ((k+(d.sectorCount-1))%d.sectorCount)
      i = d.eraseValue) :
    jump d fs k = some fs.ateWra := if_pos (cmpConst_ofBytes.mpr fun _ _ => hblank _ (le_add_right _ _))

/-- The close entry leads to the last entry of its sector. -/
lemma Closed.last {es : List Entry} (next : ℕ) (hclosed : Closed d (sector d fs.flash k) es) :
    (ateAt (sector d fs.flash k) (d.sectorSize-ateSize d)).cmpConst d.eraseValue = false ∧
      lastAte d fs (k*2^16+(d.sectorSize-ateSize d)) (ateAt (sector d fs.flash k) (d.sectorSize-ateSize d)) =
        some (behind d k next es.length) := by
  have height := eight_le_ateSize d
  have hlt := d.sectorSize_lt
  obtain ⟨e,es,rfl⟩ := exists_cons_of_ne_nil hclosed.ne_nil
  have hfits := hclosed.fits
  have hclose := hclosed.close
  rw [length_cons,succ_mul] at hfits hclose
  have hvalid : closeAteValid d (ateAt (sector d fs.flash k) (d.sectorSize-ateSize d)) = true := by
    have hate : ateValid d (newAte 0xffff (d.sectorSize-(es.length*ateSize d+ateSize d+ateSize d)) 0) = true :=
      ateValid_crc8Update.mpr (by rw [below_eq d (by omega)]; dsimp only; omega)
    have hmod : (d.sectorSize+(2^32-(d.sectorSize-(es.length*ateSize d+ateSize d+ateSize d))))%2^32 =
      (es.length+2)*ateSize d := by
      rw [add_mul]
      omega
    rw [hclose,closeAteValid,hate,newAte,crc8Update]
    rw [hmod,mul_mod_left]
    simp
  have hslot : slot d es.length = d.sectorSize-(es.length*ateSize d+ateSize d+ateSize d) := by
    rw [slot]
    omega
  refine ⟨closeAte_not_blank (by omega) hvalid,?_⟩
  rw [lastAte,if_pos hvalid,hclose,length_cons,behind,hslot,address_div (by omega)]
  rfl

lemma jump_closed {es : List Entry} (next : ℕ)
    (hclosed : Closed d (sector d fs.flash ((k+(d.sectorCount-1))%d.sectorCount)) es) :
    jump d fs k = some (behind d ((k+(d.sectorCount-1))%d.sectorCount) next es.length) := by
  obtain ⟨hblank,hlast⟩ := hclosed.last next
  simp only [jump,hblank]
  exact hlast

end Reading

section Log
variable {d : Device} {fs : Fs} {c limit : ℕ} {cur : List Entry} {olds : List (List Entry)}

lemma mod_spec {x n : ℕ} (h : x < 2*n) : x%n < n ∧ (x%n = x ∨ x%n+n = x) := by
  refine ⟨mod_lt _ (by omega),?_⟩
  by_cases hlt : x < n
  · exact .inl (mod_eq_of_lt hlt)
  · obtain ⟨y,rfl⟩ := Nat.exists_eq_add_of_le (not_lt.mp hlt)
    rw [add_mod_left,mod_eq_of_lt (by omega)]
    omega

lemma back_spec {i : ℕ} (hc : c < d.sectorCount) (hi : i < d.sectorCount) :
    back d c i < d.sectorCount ∧ (back d c i+i = c ∨ back d c i+i = c+d.sectorCount) := by
  have h := mod_spec (x := c+(d.sectorCount-i)) (n := d.sectorCount) (by omega)
  rw [back]
  omega

lemma back_prev {i : ℕ} (hc : c < d.sectorCount) (hi : i+1 < d.sectorCount) :
    (back d c i+(d.sectorCount-1))%d.sectorCount = back d c (i+1) := by
  have hback := back_spec hc (show i < d.sectorCount by omega)
  have hback' := back_spec hc hi
  have hprev := mod_spec (x := back d c i+(d.sectorCount-1)) (n := d.sectorCount) (by omega)
  omega

lemma back_last (hc : c < d.sectorCount) : (back d c (d.sectorCount-1)+(d.sectorCount-1))%d.sectorCount = c := by
  have hback := back_spec hc (show d.sectorCount-1 < d.sectorCount by omega)
  have hprev := mod_spec (x := back d c (d.sectorCount-1)+(d.sectorCount-1)) (n := d.sectorCount) (by omega)
  omega

/-- The entries of the sectors that came before the one `i` sectors ago. -/
def pastSlots (d : Device) (c : ℕ) : ℕ → List (List Entry) → List (ℕ × Entry)
  | _,[] => []
  | i,es::olds => slots d (back d c (i+1)) es++pastSlots d c (i+1) olds

def visits (d : Device) (c : ℕ) (cur : List Entry) (olds : List (List Entry)) : List (ℕ × Entry) :=
  slots d c cur++pastSlots d c 0 olds

lemma visits_map : (visits d c cur olds).map Prod.snd = cur++olds.flatten := by
  have hpast : ∀ i, (pastSlots d c i olds).map Prod.snd = olds.flatten := by
    induction olds with
    | nil => exact fun _ => rfl
    | cons es olds ih =>
      intro i
      rw [pastSlots,map_append,slots_map,ih,flatten_cons]
  rw [visits,map_append,slots_map,hpast]

lemma Layout.position (h : Layout d fs c limit cur olds) (hopen : Open d fs) :
    cur.length*ateSize d+2*ateSize d ≤ d.sectorSize ∧ fs.ateWra = c*2^16+slot d cur.length := by
  have hlt := d.sectorSize_lt
  have hat := hopen.1
  have hfits := h.fits
  have hate := h.ateWra
  rw [h.dataWra] at hat
  rw [slot]
  omega

lemma Layout.opens (h : Layout d fs c limit cur olds)
    (hroom : limit+(cur.length*ateSize d+2*ateSize d) ≤ d.sectorSize) : Open d fs := by
  have hlt := d.sectorSize_lt
  have hcount := d.sectorCount_lt
  have height := eight_le_ateSize d
  have hc := h.lt
  have hate := h.ateWra
  have hat : fs.ateWra = c*2^16+slot d cur.length := by
    rw [slot]
    omega
  refine ⟨by rw [hat,h.dataWra,slot]; omega,?_⟩
  rw [hat,flashAteRd_eq (by rw [slot]; omega)]
  exact ateValid_blank (by omega) fun i hi => h.blank _ (by rw [slot]; omega) (.inl (by rw [slot]; omega))

/-- The walk goes on through the older sectors. -/
lemma Layout.walk_past (h : Layout d fs c limit cur olds) (hopen : Open d fs) {i : ℕ} (hi : i < d.sectorCount) :
    ∃ next, jump d fs (back d c i) = some next ∧ Walk d fs next (pastSlots d c i (olds.drop i)) ∧
      (pastSlots d c i (olds.drop i)).length ≤ (d.sectorCount-1-i)*d.sectorSize := by
  have hlt := d.sectorSize_lt
  obtain ⟨rest,hdrop⟩ : ∃ rest, olds.drop i = rest := ⟨_,rfl⟩
  rw [hdrop]
  induction rest generalizing i with
  | nil =>
    refine ⟨fs.ateWra,jump_blank fun j hj => ?_,rfl,zero_le _⟩
    by_cases hlast : i = d.sectorCount-1
    · rw [hlast,back_last h.lt]
      have hfits := h.fits
      exact h.blank j (by omega) (.inr hj)
    · have hpast := h.past i (by omega)
      rw [getElem?_eq_none (drop_eq_nil_iff.mp hdrop)] at hpast
      rw [back_prev h.lt (by omega)]
      exact congrFun hpast j
  | cons es rest ih =>
    have hlen : i < olds.length := by
      by_contra hge
      rw [drop_eq_nil_of_le (by omega)] at hdrop
      cases hdrop
    have holds := h.olds_le
    rw [drop_eq_getElem_cons hlen] at hdrop
    obtain ⟨hes,hrest⟩ := cons.inj hdrop
    have hclosed := h.past i (by omega)
    rw [getElem?_eq_getElem hlen,hes] at hclosed
    obtain ⟨next,hjump,hwalk,hbound⟩ := ih (by omega) hrest
    have hback := back_spec h.lt (show i+1 < d.sectorCount by omega)
    have hfits := hclosed.fits
    have hprev := back_prev h.lt (show i+1 < d.sectorCount by omega)
    have hstep := jump_closed next (hprev.symm ▸ hclosed)
    rw [hprev] at hstep
    refine ⟨_,hstep,walk_slots hback.1 hjump hwalk (Nat.le_of_eq (Nat.sub_add_cancel hfits)) (fun j hj => ?_)
      hclosed.stores,?_⟩
    · -- the slot of the next entry is in another sector
      rw [(h.position hopen).2,slot,slot]
      omega
    · have hes : es.length ≤ es.length*ateSize d := Nat.le_mul_of_pos_right _ (ateSize_pos d)
      have hsize : (slots d (back d c (i+1)) es).length = es.length := by rw [← length_map,slots_map]
      rw [pastSlots,length_append,hsize,show d.sectorCount-1-i = d.sectorCount-1-(i+1)+1 by omega,add_mul]
      omega

/-- The walk begins at the slot of the next entry and passes all entries. -/
def Starts (d : Device) (fs : Fs) (vs : List (ℕ × Entry)) : Prop :=
  vs.length+1 < walkBound d ∧ ∃ next ate, prevAte d fs fs.ateWra = some (next,ate) ∧ ateValid d ate = false ∧
    Walk d fs next vs

/-- The walk visits all entries, the newest first. -/
theorem Layout.starts (h : Layout d fs c limit cur olds) (hopen : Open d fs) :
    Starts d fs (visits d c cur olds) := by
  have height := eight_le_ateSize d
  have hfits := h.fits
  have htwo := d.two_le_sectorCount
  obtain ⟨hslot,hat⟩ := h.position hopen
  obtain ⟨next,hjump,hwalk,hbound⟩ := h.walk_past hopen (show 0 < d.sectorCount by omega)
  have hback : back d c 0 = c := by
    have := back_spec h.lt (show 0 < d.sectorCount by omega)
    omega
  rw [hback] at hjump
  rw [drop_zero] at hbound
  have hprev := prevAte_slot h.lt hslot hjump
  refine ⟨?_,_,_,hat ▸ hprev,?_,walk_slots h.lt hjump hwalk hfits (fun j hj => ?_) h.stores⟩
  · have hsize : (slots d c cur).length = cur.length := by rw [← length_map,slots_map]
    have hcur : cur.length ≤ cur.length*ateSize d := Nat.le_mul_of_pos_right _ (ateSize_pos d)
    have hall : d.sectorCount*d.sectorSize = (d.sectorCount-1)*d.sectorSize+d.sectorSize := by
      rw [← succ_mul,show (d.sectorCount-1).succ = d.sectorCount by omega]
    rw [Nat.sub_zero] at hbound
    rw [visits,length_append,hsize,walkBound,hall]
    omega
  · rw [← flashAteRd_eq (by rw [slot]; omega),← hat]
    exact hopen.2
  · have hj := mul_le_mul_right (ateSize d) (show j+1 ≤ cur.length from hj)
    rw [succ_mul] at hj
    rw [hat,slot,slot]
    omega

end Log
end ArmFirmware.Zephyr.Nvs
