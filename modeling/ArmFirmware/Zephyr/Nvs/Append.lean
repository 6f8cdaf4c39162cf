import ArmFirmware.Zephyr.Nvs.Layout

/-! What is appended to the log: the data and then the entry, in the current sector; or the closing entry, which
makes the next sector the current one. -/
namespace ArmFirmware.Zephyr.Nvs
open Library List Nat Ate

section Cells
variable {d : Device} {flash b : ℕ → BitVec 8} {src : ℕ → BitVec 8} {c k o n limit : ℕ} {es : List Entry}

lemma sector_blit (h : o+n ≤ d.sectorSize) :
    sector d (blit flash (d.sectorSize*c+o) n src) k = if k = c then blit (sector d flash c) o n src
      else sector d flash k := by
  funext i
  by_cases hk : k = c
  · subst hk
    simp only [sector,blit,if_true]
    by_cases hi : i < d.sectorSize
    · by_cases hin : o ≤ i ∧ i < o+n
      · rw [if_pos hi,if_pos (by omega),if_pos hin,Nat.add_sub_add_left]
      · rw [if_pos hi,if_neg (by omega),if_neg hin,if_pos hi]
    · rw [if_neg hi,if_neg (by omega),if_neg hi]
  · rw [if_neg hk]
    simp only [sector,blit]
    by_cases hi : i < d.sectorSize
    · rw [if_pos hi,if_neg,if_pos hi]
      rcases lt_or_gt_of_ne hk with hlt | hgt
      · have := mul_le_mul_left d.sectorSize (show k+1 ≤ c from hlt)
        rw [mul_succ] at this
        omega
      · have := mul_le_mul_left d.sectorSize (show c+1 ≤ k from hgt)
        rw [mul_succ] at this
        omega
    · rw [if_neg hi,if_neg hi]

lemma flashAlWrt_sector {t : Trail} {data : List (BitVec 8)} (h : o+alSize d data.length ≤ d.sectorSize)
    (hblank : ∀ i, o ≤ i → i < o+alSize d data.length → sector d t.fs.flash c i = d.eraseValue) :
    (flashAlWrt d t (c*2^16+o) data).fs = t.fs.fill (blit t.fs.flash (d.sectorSize*c+o) data.length fun i =>
      data.getD i 0) := by
  have hlt := d.sectorSize_lt
  have hplace : place d (c*2^16+o) = d.sectorSize*c+o := place_eq d (by omega)
  rw [← hplace]
  apply flashAlWrt_blank
  intro i hlo hhi
  have hcell := hblank (i-d.sectorSize*c) (by omega) (by omega)
  rwa [sector,if_pos (by omega),Nat.add_sub_cancel' (by omega)] at hcell

lemma bytesAt_blit (h : o+n ≤ limit ∨ limit+k ≤ o) : bytesAt (blit b limit k src) o n = bytesAt b o n := by
  apply map_congr_left
  intro i hi
  have hi := mem_range.mp hi
  exact if_neg (by omega)

lemma ateAt_blit (h : o+8 ≤ limit ∨ limit+k ≤ o) : ateAt (blit b limit k src) o = ateAt b o :=
  ofBytes_congr fun _ hi => if_neg (by omega)

lemma bytesAt_blit_self (data : List (BitVec 8)) :
    bytesAt (blit b o data.length fun i => data.getD i 0) o data.length = data := by
  apply ext_getElem
  · simp [bytesAt]
  · intro i hi _
    have hi : i < data.length := by simpa [bytesAt] using hi
    simp only [bytesAt,getElem_map,getElem_range]
    rw [blit,if_pos (by omega),Nat.add_sub_cancel_left,getD_eq_getElem _ _ hi]

lemma ateAt_blit_self {a : Ate} (h : a.Fits) : ateAt (blit b o a.bytes.length fun i => a.bytes.getD i 0) o = a := by
  refine Eq.trans (ofBytes_congr fun i hi => ?_) (ofBytes_bytes h)
  rw [blit,bytes_length,if_pos (by omega),Nat.add_sub_cancel_left]

/-- Entries stay when something is written between the data and the slots, or behind the slots. -/
lemma Stores.blit {limit' : ℕ} (h : Stores d b limit es) (hle : limit ≤ limit') (ho : limit ≤ o)
    (hfits : es.length*ateSize d+ateSize d ≤ d.sectorSize)
    (hn : o+n ≤ d.sectorSize-(es.length*ateSize d+ateSize d) ∨ d.sectorSize-ateSize d ≤ o) :
    Stores d (blit b o n src) limit' es := by
  have height := eight_le_ateSize d
  induction es with
  | nil => trivial
  | cons e es ih =>
    obtain ⟨⟨offset,hoffset,hdata,hate⟩,hes⟩ := h
    rw [length_cons,succ_mul] at hn hfits
    refine ⟨⟨offset,by omega,?_,?_⟩,ih hes (by omega) (by omega)⟩
    · rw [bytesAt_blit (by omega),hdata]
    · rw [ateAt_blit (by rw [slot]; omega),hate]

end Cells

section Append
variable {d : Device} {t : Trail} {c limit : ℕ} {cur : List Entry} {olds : List (List Entry)}

lemma past_blit {o n : ℕ} {src : ℕ → BitVec 8} (h : Layout d t.fs c limit cur olds) (hn : o+n ≤ d.sectorSize) :
    ∀ i < d.sectorCount-1, Past d (sector d (blit t.fs.flash (d.sectorSize*c+o) n src) (back d c (i+1)))
      olds[i]? := by
  intro i hi
  have hback := back_spec h.lt (show i+1 < d.sectorCount by omega)
  rw [sector_blit hn,if_neg (by omega)]
  exact h.past i hi

/-- Data is written behind that of the sector. -/
theorem Layout.data (data : List (BitVec 8)) (h : Layout d t.fs c limit cur olds)
    (hfit : limit+alSize d data.length+(cur.length*ateSize d+ateSize d) ≤ d.sectorSize) :
    Layout d (flashDataWrt d t data).fs c (limit+alSize d data.length) cur olds ∧
      ∀ k, sector d (flashDataWrt d t data).fs.flash k =
        if k = c then blit (sector d t.fs.flash c) limit data.length (fun i => data.getD i 0)
          else sector d t.fs.flash k := by
  have hlt := d.sectorSize_lt
  have hcount := d.sectorCount_lt
  have hc := h.lt
  have hal := le_alSize d data.length
  have hwrt : (flashAlWrt d t t.fs.dataWra data).fs =
      t.fs.fill (blit t.fs.flash (d.sectorSize*c+limit) data.length fun i => data.getD i 0) := by
    rw [h.dataWra]
    exact flashAlWrt_sector (by omega) fun i hlo hhi => h.blank i hlo (.inl (by omega))
  have hsector : ∀ k, sector d (flashDataWrt d t data).fs.flash k =
      if k = c then blit (sector d t.fs.flash c) limit data.length (fun i => data.getD i 0)
        else sector d t.fs.flash k := by
    intro k
    simp only [flashDataWrt,Trail.set,hwrt,Fs.fill]
    exact sector_blit (by omega)
  have hfs : (flashDataWrt d t data).fs = ⟨t.fs.ateWra,c*2^16+(limit+alSize d data.length),
      blit t.fs.flash (d.sectorSize*c+limit) data.length fun i => data.getD i 0⟩ := by
    simp only [flashDataWrt,Trail.set,hwrt,Fs.fill]
    rw [h.dataWra,show (c*2^16+limit+alSize d data.length)%2^32 = c*2^16+(limit+alSize d data.length) by omega]
  refine ⟨⟨h.room,hc,?_,?_,by omega,?_,?_,?_,h.olds_le,by have := h.load_le; omega,h.load_fits⟩,hsector⟩
  · rw [hfs]
  · rw [hfs]
    exact h.ateWra
  · rw [hsector,if_pos rfl]
    exact h.stores.blit (by omega) le_rfl (by omega) (.inl (by omega))
  · intro i hlo hhi
    rw [hsector,if_pos rfl,blit,if_neg (by omega)]
    exact h.blank i (by omega) hhi
  · rw [hfs]
    dsimp only
    exact past_blit h (by omega)

/-- An entry is written for data that is there. -/
theorem Layout.ate {e : Entry} {offset : ℕ} (h : Layout d t.fs c limit cur olds) (hid : e.id < 2^16)
    (hroom : limit+(cur.length*ateSize d+2*ateSize d) ≤ d.sectorSize) (hoffset : offset+e.data.length ≤ limit)
    (hdata : bytesAt (sector d t.fs.flash c) offset e.data.length = e.data)
    (hle : load d (e::cur) ≤ limit+(cur.length*ateSize d+ateSize d))
    (hload : load d (e::cur)+2*ateSize d ≤ d.sectorSize) :
    Layout d (flashAteWrt d t (newAte e.id offset e.data.length)).fs c limit (e::cur) olds ∧
      ∀ k, k ≠ c → sector d (flashAteWrt d t (newAte e.id offset e.data.length)).fs.flash k = sector d t.fs.flash
        k := by
  have hlt := d.sectorSize_lt
  have hc := h.lt
  have height := eight_le_ateSize d
  obtain ⟨-,hat⟩ := h.position (h.opens hroom)
  obtain ⟨a,ha⟩ : ∃ a, a = newAte e.id offset e.data.length := ⟨_,rfl⟩
  have hfits : a.Fits := by
    rw [ha]
    exact ⟨hid,show offset < 2^16 by omega,show e.data.length < 2^16 by omega⟩
  have hlen : alSize d a.bytes.length = ateSize d := rfl
  have hmore : (e::cur).length*ateSize d = cur.length*ateSize d+ateSize d := succ_mul _ _
  have hslot : slot d cur.length = d.sectorSize-(cur.length*ateSize d+2*ateSize d) := rfl
  have hend : slot d cur.length+a.bytes.length ≤ d.sectorSize := by
    rw [bytes_length]
    omega
  rw [← ha]
  have hfs : (flashAteWrt d t a).fs = ⟨(t.fs.ateWra+(2^32-ateSize d))%2^32,t.fs.dataWra,
      blit t.fs.flash (d.sectorSize*c+slot d cur.length) a.bytes.length fun i => a.bytes.getD i 0⟩ := by
    simp only [flashAteWrt,Trail.set]
    rw [hat,flashAlWrt_sector (by omega) fun i hlo hhi => h.blank i (by omega) (.inl (by omega)),Fs.fill,hat]
  have hsector : ∀ k, sector d (flashAteWrt d t a).fs.flash k =
      if k = c then blit (sector d t.fs.flash c) (slot d cur.length) a.bytes.length (fun i => a.bytes.getD i 0)
      else sector d t.fs.flash k := by
    intro k
    rw [hfs]
    dsimp only
    exact sector_blit hend
  refine ⟨⟨h.room,hc,?_,?_,?_,?_,?_,?_,h.olds_le,?_,hload⟩,fun k hk => by rw [hsector,if_neg hk]⟩
  · rw [hfs]
    exact h.dataWra
  · rw [hfs,h.ateWra]
    dsimp only
    omega
  · omega
  · rw [hsector,if_pos rfl]
    refine ⟨⟨offset,hoffset,?_,ha ▸ ateAt_blit_self hfits⟩,h.stores.blit le_rfl (by omega) (by omega) (.inl ?_)⟩
    · rw [bytesAt_blit (by omega),hdata]
    · rw [bytes_length]
      omega
  · intro i hlo hhi
    rw [hsector,if_pos rfl,blit,if_neg (by rw [bytes_length]; omega)]
    exact h.blank i hlo (by omega)
  · rw [hfs]
    dsimp only
    exact past_blit h hend
  · omega

/-- What an entry takes, with the slot that it has to leave for a deletion. -/
def space (d : Device) (data : List (BitVec 8)) : ℕ := if data = [] then 0 else alSize d data.length+ateSize d

lemma load_cons (e : Entry) (es : List Entry) : load d (e::es) = space d e.data+load d es := rfl

lemma alSize_le_space (data : List (BitVec 8)) :
    alSize d data.length ≤ space d data ∧ space d data ≤ alSize d data.length+ateSize d := by
  rw [space]
  split_ifs with h
  · rw [h,length_nil,alSize_zero]
    omega
  · omega

section
variable (h : Layout d t.fs c limit cur olds)
include h

lemma Layout.load_next {e : Entry}
    (hroom : limit+space d e.data+(cur.length*ateSize d+2*ateSize d) ≤ d.sectorSize) :
    load d (e::cur) ≤ limit+alSize d e.data.length+(cur.length*ateSize d+ateSize d) ∧
      load d (e::cur)+2*ateSize d ≤ d.sectorSize := by
  have hspace := alSize_le_space (d := d) e.data
  have hle := h.load_le
  rw [load_cons]
  omega

theorem Layout.entry {id : ℕ} {data : List (BitVec 8)} (hid : id < 2^16)
    (hroom : limit+space d data+(cur.length*ateSize d+2*ateSize d) ≤ d.sectorSize) :
    Layout d (flashWrtEntry d t id data).fs c (limit+alSize d data.length) (⟨id,data⟩::cur) olds := by
  have hlt := d.sectorSize_lt
  have hal := le_alSize d data.length
  have hspace := alSize_le_space (d := d) data
  obtain ⟨hdata,hsector⟩ := h.data data (by omega)
  obtain ⟨hle,hload⟩ := h.load_next (e := ⟨id,data⟩) hroom
  have hate := hdata.ate hid (by omega) (show limit+data.length ≤ limit+alSize d data.length by omega)
    (by rw [hsector,if_pos rfl]; exact bytesAt_blit_self data) hle hload
  rw [flashWrtEntry,h.dataWra,show (c*2^16+limit)%2^16 = limit by omega,mod_eq_of_lt (by omega : data.length < 2^16)]
  exact hate.1

theorem Layout.gcDone (hroom : limit+(cur.length*ateSize d+2*ateSize d) ≤ d.sectorSize) :
    Layout d (addGcDoneAte d t).fs c limit (⟨0xffff,[]⟩::cur) olds := by
  have hlt := d.sectorSize_lt
  have hle := h.load_le
  rw [addGcDoneAte,h.dataWra,show (c*2^16+limit)%2^16 = limit by omega]
  exact (h.ate (e := ⟨0xffff,[]⟩) (by norm_num) hroom le_rfl rfl (by rw [load_cons,space,if_pos rfl]; omega)
    (by rw [load_cons,space,if_pos rfl]; omega)).1

/-- Moving data in pieces is writing them at once. -/
theorem Layout.blockMove {k o len : ℕ} (hk : k ≠ c) (ho : o+len ≤ d.sectorSize)
    (hfit : limit+alSize d len+(cur.length*ateSize d+ateSize d) ≤ d.sectorSize) :
    Layout d (flashBlockMove d t (k*2^16+o) len).fs c (limit+alSize d len) cur olds ∧
      bytesAt (sector d (flashBlockMove d t (k*2^16+o) len).fs.flash c) limit len = bytesAt
        (sector d t.fs.flash k) o len ∧
      ∀ j, j ≠ c → sector d (flashBlockMove d t (k*2^16+o) len).fs.flash j = sector d t.fs.flash j := by
  have hdvd := pow_dvd_pow 2 d.blockLog_le
  suffices hpieces : ∀ m, m ≤ (len+31)/32 → ∀ t', t' = (range m).foldl (fun t i =>
      flashDataWrt d t (flashRd d t.fs (k*2^16+o+32*i) (min 32 (len-32*i)))) t →
      Layout d t'.fs c (limit+alSize d (min (32*m) len)) cur olds ∧
      bytesAt (sector d t'.fs.flash c) limit (min (32*m) len) = bytesAt (sector d t.fs.flash k) o (min (32*m) len) ∧
      ∀ j, j ≠ c → sector d t'.fs.flash j = sector d t.fs.flash j by
    have hall := hpieces _ le_rfl _ rfl
    rwa [show min (32*((len+31)/32)) len = len by omega] at hall
  intro m hm t' ht'
  induction m generalizing t' with
  | zero =>
    rw [ht',mul_zero,zero_min,alSize_zero]
    exact ⟨h,rfl,fun _ _ => rfl⟩
  | succ m ih =>
    obtain ⟨u,hu⟩ : ∃ u, u = (range m).foldl
      (fun t i => flashDataWrt d t (flashRd d t.fs (k*2^16+o+32*i) (min 32 (len-32*i)))) t :=
      ⟨_,rfl⟩
    obtain ⟨hlayout,hbytes,hother⟩ := ih (by omega) u hu
    have hm32 : min (32*m) len = 32*m := by omega
    obtain ⟨n,hn⟩ : ∃ n, n = min 32 (len-32*m) := ⟨_,rfl⟩
    have hnext : min (32*(m+1)) len = 32*m+n := by omega
    have hadd : alSize d (32*m+n) = 32*m+alSize d n := alSize_add d (dvd_mul_of_dvd_left hdvd m)
    have hwhole : alSize d (32*m) = 32*m := alSize_of_dvd d (dvd_mul_of_dvd_left hdvd m)
    have hlen : alSize d (32*m+n) ≤ alSize d len := Nat.mul_le_mul_right _ (Nat.div_le_div_right (by omega))
    have hpiece : flashRd d u.fs (k*2^16+o+32*m) n = bytesAt (sector d t.fs.flash k) (o+32*m) n := by
      rw [add_assoc,flashRd_eq (by omega),hother k hk]
    rw [hm32,hwhole] at hlayout
    rw [hm32] at hbytes
    have hsize : (bytesAt (sector d t.fs.flash k) (o+32*m) n).length = n := by simp [bytesAt]
    obtain ⟨hdata,hsector⟩ := hlayout.data (bytesAt (sector d t.fs.flash k) (o+32*m) n) (by rw [hsize]; omega)
    rw [range_succ,foldl_append,← hu,foldl_cons,foldl_nil,← hn,hpiece] at ht'
    rw [← ht',hsize,add_assoc,← hadd] at hdata
    rw [← ht'] at hsector
    have hsplit : ∀ (b : ℕ → BitVec 8) (p : ℕ), bytesAt b p (32*m+n) = bytesAt b p (32*m)++bytesAt b (p+32*m) n := by
      intro b p
      simp only [bytesAt,range_add,map_append,map_map,Function.comp_def,add_assoc]
    rw [hnext]
    refine ⟨hdata,?_,fun j hj => by rw [hsector,if_neg hj,hother j hj]⟩
    have hself :=
      bytesAt_blit_self (b := sector d u.fs.flash c) (o := limit+32*m) (bytesAt (sector d t.fs.flash k) (o+32*m) n)
    rw [hsector,if_pos rfl,hsplit,hsplit,bytesAt_blit (.inl le_rfl),hbytes]
    rw [hsize] at hself ⊢
    rw [hself]

end

lemma sectorAdvance_eq {o : ℕ} (hc : c < d.sectorCount) (ho : o < 2^16) :
    sectorAdvance d (c*2^16+o) = (c+1)%d.sectorCount*2^16+o := by
  have hcount := d.sectorCount_lt
  have hmod := mod_spec (x := c+1) (n := d.sectorCount) (by omega)
  have hnext : (c*2^16+o+2^16)%2^32 = (c+1)*2^16+o := by omega
  simp only [sectorAdvance,hnext]
  rw [show ((c+1)*2^16+o)/2^16 = c+1 by omega]
  split_ifs with hlast
  · rw [← hlast,mod_self,zero_mul,zero_add,show (c+1)*2^16+o+(2^32-(c+1)*2^16) = o+2^32 by omega,add_mod_right,
      mod_eq_of_lt (by omega)]
  · omega

lemma back_next (hc : c < d.sectorCount) : back d c (d.sectorCount-1) = (c+1)%d.sectorCount := by
  have hback := back_spec hc (show d.sectorCount-1 < d.sectorCount by omega)
  have hmod := mod_spec (x := c+1) (n := d.sectorCount) (by omega)
  omega

/-- A full sector is closed and the next one, which is blank, becomes the current one. -/
theorem Layout.close (h : Layout d t.fs c limit cur olds) (hopen : Open d t.fs) (hne : cur ≠ [])
    (hold : olds.length < d.sectorCount-1) :
    Layout d (sectorClose d t).fs ((c+1)%d.sectorCount) 0 [] (cur::olds) := by
  have hlt := d.sectorSize_lt
  have hcount := d.sectorCount_lt
  have hc := h.lt
  have hroom := h.room
  have hfits := h.fits
  have height := eight_le_ateSize d
  obtain ⟨hslot,hat⟩ := h.position hopen
  have hmod := mod_spec (x := c+1) (n := d.sectorCount) (by omega)
  obtain ⟨a,ha⟩ : ∃ a, a = newAte 0xffff (d.sectorSize-(cur.length*ateSize d+ateSize d)) 0 := ⟨_,rfl⟩
  have hafits : a.Fits := by
    rw [ha]
    exact ⟨show 0xffff < 2^16 by norm_num,show d.sectorSize-(cur.length*ateSize d+ateSize d) < 2^16 by omega,
      show 0 < 2^16 by norm_num⟩
  have hlen : alSize d a.bytes.length = ateSize d := rfl
  have hclose : (sectorClose d t).fs = ⟨(c+1)%d.sectorCount*2^16+slot d 0,(c+1)%d.sectorCount*2^16,
      blit t.fs.flash (d.sectorSize*c+(d.sectorSize-ateSize d)) a.bytes.length fun i => a.bytes.getD i 0⟩ := by
    have hlast : (t.fs.ateWra/2^16*2^16+below d 1)%2^32 = c*2^16+(d.sectorSize-ateSize d) := by
      rw [hat,slot,address_div (by omega),below_eq d (by omega),one_mul,mod_eq_of_lt (by omega)]
    have hfirst : slot d 0 = d.sectorSize-ateSize d-ateSize d := by
      rw [slot]
      omega
    have hnext : (c*2^16+(d.sectorSize-ateSize d)+(2^32-ateSize d))%2^32 = c*2^16+slot d 0 := by
      rw [address_sub (by omega) (by omega) (by omega),hfirst]
    have hoffset : (t.fs.ateWra+ateSize d)%2^16 = d.sectorSize-(cur.length*ateSize d+ateSize d) := by
      rw [hat,add_assoc,slot,address_mod (by omega)]
      omega
    have hwrt := flashAlWrt_sector (t := ⟨⟨c*2^16+(d.sectorSize-ateSize d),t.fs.dataWra,t.fs.flash⟩,t.fs::t.past⟩)
      (show d.sectorSize-ateSize d+alSize d a.bytes.length ≤ d.sectorSize by omega) fun i hlo hhi => h.blank i
        (by omega) (.inr hlo)
    simp only [sectorClose,flashAteWrt,Trail.set,hoffset,hlast,← ha]
    rw [hwrt]
    simp only [Fs.fill,hnext,sectorAdvance_eq hc (show slot d 0 < 2^16 by omega),
      address_div (show slot d 0 < 2^16 by omega)]
  have hend : d.sectorSize-ateSize d+a.bytes.length ≤ d.sectorSize := by
    rw [bytes_length]
    omega
  have hother : ∀ k, k ≠ c → sector d (sectorClose d t).fs.flash k = sector d t.fs.flash k := by
    intro k hk
    rw [hclose]
    rw [sector_blit hend,if_neg hk]
  -- the next sector is blank
  have hblank : sector d (sectorClose d t).fs.flash ((c+1)%d.sectorCount) = fun _ => d.eraseValue := by
    have hpast := h.past (d.sectorCount-2) (by omega)
    rwa [getElem?_eq_none (by omega),show d.sectorCount-2+1 = d.sectorCount-1 by omega,back_next hc,
      ← hother _ (by omega)] at hpast
  refine ⟨hroom,hmod.1,?_,?_,by rw [length_nil]; omega,trivial,fun i _ _ => by rw [hblank],?_,?_,zero_le _,?_⟩
  · rw [hclose]
    exact (add_zero _).symm
  · rw [hclose,slot,length_nil,zero_mul,zero_add]
    dsimp only
    omega
  · intro i hi
    have hback := back_spec hmod.1 (show i+1 < d.sectorCount by omega)
    cases i with
    | zero =>
      have hprev : back d ((c+1)%d.sectorCount) (0+1) = c := by omega
      rw [hprev,hclose]
      rw [sector_blit hend,if_pos rfl]
      refine ⟨hne,by omega,?_,?_,h.load_fits⟩
      · exact h.stores.blit (by omega) (by omega) (by omega) (.inr le_rfl)
      · rw [← ha]
        exact ateAt_blit_self hafits
    | succ i =>
      have hold := back_spec hc (show i+1 < d.sectorCount by omega)
      have hprev : back d ((c+1)%d.sectorCount) (i+1+1) = back d c (i+1) := by omega
      rw [hprev,hother _ (by omega)]
      exact h.past i (by omega)
  · rw [length_cons]
    omega
  · rw [load]
    omega

end Append
end ArmFirmware.Zephyr.Nvs
