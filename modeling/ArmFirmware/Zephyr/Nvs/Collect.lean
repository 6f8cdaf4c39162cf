import ArmFirmware.Zephyr.Nvs.Append
import ArmFirmware.Zephyr.Nvs.Lookup
import ArmFirmware.Library.CompactedLog

/-! `nvs_gc`: the entries of the oldest sector that still count are appended to the log before it is erased. -/
namespace ArmFirmware.Zephyr.Nvs
open Library List Option Nat Entry Closed

/-- An entry of a deletion, or one that the file system made for itself. -/
def Entry.dead (e : Entry) : Bool := e.data = []

section Collect
variable {d : Device} {t : Trail} {c limit : ℕ} {mids : List (List Entry)} {olds : List (List Entry)}

/-- Only the newest entry of an ID that has data is copied. -/
lemma gcMove_eq {a : ℕ} {e : Entry} {ate : Ate} {pre suf : List (ℕ × Entry)} (h : Starts d t.fs (pre++(a,e)::suf))
    (hshows : Shows d t.fs a e ate) : gcMove d t a ate = some (if (pre.any fun v => v.2.id = e.id) ∨ e.dead then t
      else flashAteWrt d (flashBlockMove d t (a/2^16*2^16+ate.offset) e.data.length)
        (newAte e.id (t.fs.dataWra%2^16) e.data.length)) := by
  obtain ⟨⟨found,prev,wlk⟩,hfind,hfound⟩ := h.findAte ate.id
  have hmoved : ∀ o, Ate.crc8Update ⟨ate.id,o,e.data.length,ate.part,ate.crc8⟩ = newAte e.id o e.data.length := by
    intro o
    rw [hshows.eq]
    rfl
  have hprev : prev = a ↔ ¬(pre.any fun v => v.2.id = e.id) = true := by
    rw [Found,hshows.id_eq,find?_append] at hfound
    cases hpre : pre.find? fun v => v.2.id = e.id with
    | none =>
      rw [hpre,none_or,find?_cons_of_pos (by simp)] at hfound
      have hnot : (pre.any fun v => v.2.id = e.id) = false := by simpa using hpre
      have hat : prev = a := hfound.2.1
      simp [hnot,hat]
    | some v =>
      rw [hpre,some_or] at hfound
      have hmem := mem_of_find?_eq_some hpre
      have hany : (pre.any fun v => v.2.id = e.id) = true := any_eq_true.mpr ⟨v,hmem,by simpa using find?_some hpre⟩
      obtain ⟨-,next,-,-,-,hwalk⟩ := h
      have hne : v.1 ≠ a := hwalk.ne_of_mem hmem
      simp only [hany,not_true_eq_false,iff_false]
      exact fun hp => hne (hfound.2.1.symm.trans hp)
  rw [gcMove,if_pos hshows.valid,hfind,map_some]
  simp only [hmoved,hshows.len_eq,ne_eq,length_eq_zero_iff,hprev]
  by_cases hstays : (pre.any fun v => v.2.id = e.id) = true ∨ e.dead = true
  · rw [if_pos hstays,if_neg]
    rintro ⟨hnot,hdata⟩
    exact hstays.elim hnot (by simp [dead,hdata])
  · rw [if_neg hstays,if_pos]
    simpa [dead] using hstays

lemma slots_append (k : ℕ) (dn es : List Entry) :
    ∃ pre, slots d k (dn++es) = pre++slots d k es ∧ pre.map Prod.snd = dn := by
  induction dn with
  | nil => exact ⟨[],rfl,rfl⟩
  | cons e dn ih =>
    obtain ⟨pre,hpre,hmap⟩ := ih
    exact ⟨(k*2^16+slot d (dn++es).length,e)::pre,by rw [cons_append,slots,hpre,cons_append],by rw [map_cons,hmap]⟩

lemma pastSlots_append (i : ℕ) (mids : List (List Entry)) (old : List Entry) :
    pastSlots d c i (mids++[old]) = pastSlots d c i mids++slots d (back d c (i+mids.length+1)) old := by
  induction mids generalizing i with
  | nil => simp [pastSlots]
  | cons es mids ih =>
    rw [cons_append,pastSlots,pastSlots,ih,append_assoc,length_cons,add_right_comm i 1,add_assoc i]

lemma visits_old (moved dn rest : List Entry) (e : Entry) (hc : c < d.sectorCount)
    (hmids : mids.length = d.sectorCount-2) : ∃ pre, visits d c moved (mids++[dn++e::rest]) =
        pre++((c+1)%d.sectorCount*2^16+slot d rest.length,e)::slots d ((c+1)%d.sectorCount) rest ∧
      pre.map Prod.snd = moved++(mids.flatten++dn) := by
  have htwo := d.two_le_sectorCount
  obtain ⟨pre,hpre,hmap⟩ := slots_append ((c+1)%d.sectorCount) dn (e::rest)
  refine ⟨visits d c moved mids++pre,?_,by rw [map_append,visits_map,hmap,append_assoc]⟩
  rw [visits,pastSlots_append,show 0+mids.length+1 = d.sectorCount-1 by omega,back_next hc,hpre,visits,append_assoc,
    append_assoc,slots]

lemma Layout.move {moved : List Entry} {e : Entry} {ate : Ate} {k a : ℕ}
    (h : Layout d t.fs c limit moved olds) (hk : k ≠ c) (ha : a/2^16 = k) (hshows : Shows d t.fs a e ate)
    (hroom : limit+space d e.data+(moved.length*ateSize d+2*ateSize d) ≤ d.sectorSize) :
    Layout d (flashAteWrt d (flashBlockMove d t (a/2^16*2^16+ate.offset) e.data.length)
      (newAte e.id (t.fs.dataWra%2^16) e.data.length)).fs c (limit+alSize d e.data.length) (e::moved) olds := by
  have hlt := d.sectorSize_lt
  have hal := le_alSize d e.data.length
  have hspace := alSize_le_space (d := d) e.data
  have hvalid : ate.offset+e.data.length < d.sectorSize-ateSize d := by
    have hv := hshows.valid
    rw [ateValid,hshows.len_eq,below_eq d (by omega),one_mul,decide_eq_true_eq] at hv
    exact hv.2
  have hdata := hshows.data
  rw [ha,flashRd_eq (by omega)] at hdata
  obtain ⟨hlayout,hbytes,hother⟩ := h.blockMove hk (show ate.offset+e.data.length ≤ d.sectorSize by omega) (by omega)
  obtain ⟨hle,hload⟩ := h.load_next hroom
  rw [ha,h.dataWra,address_mod (by omega)]
  exact (hlayout.ate hshows.id_lt (by omega) (by omega) (hbytes.trans hdata) hle hload).1

/-- The current sector while the oldest one is collected: `dn` of its entries are done, `es` are left. -/
structure Collecting (d : Device) (fs : Fs) (c limit : ℕ) (moved : List Entry) (mids : List (List Entry))
    (dn es : List Entry) : Prop where
  layout : Layout d fs c limit moved (mids++[dn++es])
  mids : mids.length = d.sectorCount-2
  load : limit+moved.length*ateSize d+load d es+2*ateSize d ≤ d.sectorSize
  sub : ∀ x ∈ moved, x ∈ dn
  zero : moved = [] → limit = 0

/-- One entry of the oldest sector is examined. -/
lemma Collecting.move {moved dn rest : List Entry} {e : Entry}
    (h : Collecting d t.fs c limit moved mids dn (e::rest)) :
    ∃ next ate t₁ limit₁, prevAte d t.fs ((c+1)%d.sectorCount*2^16+slot d rest.length) = some (next,ate) ∧
      Walk d t.fs next (slots d ((c+1)%d.sectorCount) rest) ∧
      gcMove d t ((c+1)%d.sectorCount*2^16+slot d rest.length) ate = some t₁ ∧
      Collecting d t₁.fs c limit₁ (if ((mids.flatten++dn).any fun b => b.id = e.id) ∨ e.dead then moved
        else e::moved) mids (dn++[e]) rest := by
  have hlt := d.sectorSize_lt
  have htwo := d.two_le_sectorCount
  have hc := h.layout.lt
  have hmod := mod_spec (x := c+1) (n := d.sectorCount) (by omega)
  have hload := h.load
  rw [load_cons] at hload
  obtain ⟨pre,hvisits,hmap⟩ := visits_old moved dn rest e hc h.mids
  have hstarts := h.layout.starts (h.layout.opens (by omega))
  rw [hvisits] at hstarts
  have hslot : slot d rest.length < 2^16 := by
    rw [slot]
    omega
  -- what the walk reads there
  obtain ⟨_,_,_,_,_,hwalk⟩ := id hstarts
  obtain ⟨-,-,next,ate,hprev,hshows,hrest⟩ := hwalk.from
  dsimp only at hshows
  have hmove := gcMove_eq hstarts hshows
  have hany : (pre.any fun v => v.2.id = e.id) = (mids.flatten++dn).any fun x => x.id = e.id := by
    have hpre : (pre.any fun v => v.2.id = e.id) = (pre.map Prod.snd).any fun x => x.id = e.id := by
      rw [List.any_map]
      rfl
    rw [hpre,hmap,Bool.eq_iff_iff]
    simp only [List.any_append,Bool.or_eq_true,List.any_eq_true]
    constructor
    · rintro (⟨x,hx,hxid⟩ | h')
      · exact .inr ⟨x,h.sub x hx,hxid⟩
      · exact h'
    · exact .inr
  rw [hany] at hmove
  have hdone : dn++[e]++rest = dn++e::rest := by rw [append_assoc,singleton_append]
  refine ⟨next,ate,?_⟩
  by_cases hstays : ((mids.flatten++dn).any fun b => b.id = e.id) ∨ e.dead
  · simp only [if_pos hstays] at hmove ⊢
    exact ⟨t,limit,hprev,hrest,hmove,hdone ▸ h.layout,h.mids,by omega,fun x hx => mem_append_left _ (h.sub x hx),
      h.zero⟩
  · simp only [if_neg hstays] at hmove ⊢
    have hspace : space d e.data = alSize d e.data.length+ateSize d := by
      rw [space,if_neg fun hnil => hstays (.inr (by simp [dead,hnil]))]
    have hmore : (e::moved).length*ateSize d = moved.length*ateSize d+ateSize d := succ_mul _ _
    refine ⟨_,_,hprev,hrest,hmove,hdone ▸ h.layout.move (by omega) (address_div hslot) hshows (by omega),
      h.mids,by omega,?_,by simp⟩
    intro x hx
    rcases mem_cons.mp hx with rfl | hx
    · exact mem_append_right _ (mem_singleton_self _)
    · exact mem_append_left _ (h.sub x hx)

/-- The loop over the oldest sector appends what counts. -/
theorem Collecting.loop {moved dn es : List Entry} {fuel : ℕ}
    (h : Collecting d t.fs c limit moved mids dn es) (hne : es ≠ []) (hfuel : es.length ≤ fuel) (next : ℕ) :
    ∃ t' limit', gcLoop d ((c+1)%d.sectorCount*2^16+slot d 0) fuel t
      (behind d ((c+1)%d.sectorCount) next es.length) = some t' ∧
      Collecting d t'.fs c limit' (collect Entry.id Entry.dead (mids.flatten++dn) es moved) mids (dn++es) [] := by
  have height := eight_le_ateSize d
  have htwo := d.two_le_sectorCount
  induction es generalizing t limit moved dn fuel with
  | nil => exact absurd rfl hne
  | cons e rest ih =>
    obtain ⟨fuel,rfl⟩ : ∃ f, fuel = f+1 := ⟨fuel-1,by rw [length_cons] at hfuel; omega⟩
    rw [length_cons,add_le_add_iff_right] at hfuel
    obtain ⟨next',ate,t₁,limit₁,hprev,hwalk,hmove,hnext⟩ := h.move
    rw [gcLoop,length_cons,behind,hprev,bind_some]
    dsimp only
    rw [hmove,bind_some,collect,show dn++e::rest = dn++[e]++rest by simp]
    cases rest with
    | nil =>
      rw [length_nil,if_pos rfl,append_nil]
      exact ⟨t₁,limit₁,rfl,by simpa [collect] using hnext⟩
    | cons e' rest =>
      -- the slots of the sector are different
      have hfits := h.layout.past (d.sectorCount-2) (by omega)
      rw [getElem?_append_right (by rw [h.mids]),h.mids,Nat.sub_self,getElem?_cons_zero] at hfits
      have hfits := fits hfits
      have hlen : (dn++e::e'::rest).length*ateSize d = dn.length*ateSize d+rest.length*ateSize d+2*ateSize d := by
        simp only [length_append,length_cons,add_mul]
        omega
      have hrestlen : (e'::rest).length*ateSize d = rest.length*ateSize d+ateSize d := succ_mul _ _
      rw [if_neg (by simp only [slot]; omega)]
      obtain ⟨t',limit',hloop,hrec⟩ := ih hnext (by simp) hfuel
      exact ⟨t',limit',hwalk.1 ▸ hloop,by simpa using hrec⟩

/-- The oldest sector is erased. -/
lemma Layout.erase {cur : List Entry} (h : Layout d t.fs c limit cur olds) :
    Layout d (flashEraseSector d t ((c+1)%d.sectorCount*2^16)).fs c limit cur (olds.take (d.sectorCount-2)) := by
  have htwo := d.two_le_sectorCount
  have hc := h.lt
  have hmod := mod_spec (x := c+1) (n := d.sectorCount) (by omega)
  have hsector : ∀ k, sector d (flashEraseSector d t ((c+1)%d.sectorCount*2^16)).fs.flash k =
      if k = (c+1)%d.sectorCount then fun _ => d.eraseValue else sector d t.fs.flash k := by
    intro k
    have hdiv := address_div (k := (c+1)%d.sectorCount) (show 0 < 2^16 by norm_num)
    rw [add_zero] at hdiv
    simp only [flashEraseSector,Trail.set,Fs.fill,hdiv]
    funext i
    simp only [sector]
    split_ifs with hi hin hk hk hk
    · rfl
    · -- another sector
      rcases lt_or_gt_of_ne hk with hlt | hgt
      · have := mul_le_mul_left d.sectorSize (show k+1 ≤ (c+1)%d.sectorCount from hlt)
        rw [mul_succ] at this
        omega
      · have := mul_le_mul_left d.sectorSize (show (c+1)%d.sectorCount+1 ≤ k from hgt)
        rw [mul_succ] at this
        omega
    · subst hk
      omega
    · simp [sector,hi]
    · rfl
    · simp [sector,hi]
  have hcur : sector d (flashEraseSector d t ((c+1)%d.sectorCount*2^16)).fs.flash c = sector d t.fs.flash c := by
    rw [hsector,if_neg (by omega)]
  refine ⟨h.room,hc,h.dataWra,h.ateWra,h.fits,hcur ▸ h.stores,hcur ▸ h.blank,fun i hi => ?_,?_,h.load_le,h.load_fits⟩
  · have hback := back_spec hc (show i+1 < d.sectorCount by omega)
    have hnext := back_next hc
    rw [hsector]
    by_cases hlast : i = d.sectorCount-2
    · rw [if_pos (by rw [← hnext,hlast]; congr 1; omega),getElem?_eq_none (by rw [length_take]; omega)]
      rfl
    · rw [if_neg (by omega),getElem?_take_of_lt (by omega)]
      exact h.past i hi
  · rw [length_take]
    omega

/-- A collection starts in a blank sector, moves what counts there and leaves the next sector blank. -/
theorem Layout.gc (h : Layout d t.fs c 0 [] olds) :
    ∃ t' limit cur, gc d t = some t' ∧ Layout d t'.fs c limit cur (olds.take (d.sectorCount-2)) ∧ cur ≠ [] ∧
      limit+(cur.length*ateSize d+2*ateSize d) ≤ d.sectorSize ∧
      ∀ id, id ≠ 0xffff → latest Entry.id Entry.dead (cur++(olds.take (d.sectorCount-2)).flatten) id =
        latest Entry.id Entry.dead olds.flatten id := by
  have hlt := d.sectorSize_lt
  have hcount := d.sectorCount_lt
  have htwo := d.two_le_sectorCount
  have hroom := h.room
  have height := eight_le_ateSize d
  have hc := h.lt
  have hmod := mod_spec (x := c+1) (n := d.sectorCount) (by omega)
  -- what the loop leaves
  obtain ⟨t₁,limit,moved,hcollected,hlayout,hload,hzero,hlatest⟩ : ∃ t₁ limit moved,
      (if (ateAt (sector d t.fs.flash ((c+1)%d.sectorCount)) (d.sectorSize-ateSize d)).cmpConst d.eraseValue
        then some t
        else (lastAte d t.fs ((c+1)%d.sectorCount*2^16+(d.sectorSize-ateSize d))
            (ateAt (sector d t.fs.flash ((c+1)%d.sectorCount)) (d.sectorSize-ateSize d))).bind fun last =>
          gcLoop d ((c+1)%d.sectorCount*2^16+slot d 0) (d.sectorSize+1) t last) = some t₁ ∧
      Layout d t₁.fs c limit moved olds ∧ limit+moved.length*ateSize d+2*ateSize d ≤ d.sectorSize ∧
        (moved = [] → limit = 0) ∧
      ∀ id, latest Entry.id Entry.dead (moved++(olds.take (d.sectorCount-2)).flatten) id = latest Entry.id
        Entry.dead olds.flatten id := by
    have hpast := h.past (d.sectorCount-2) (by omega)
    rw [show d.sectorCount-2+1 = d.sectorCount-1 by omega,back_next hc] at hpast
    by_cases hfull : d.sectorCount-2 < olds.length
    · -- all other sectors are in use
      obtain ⟨old,hold⟩ : ∃ old, olds[d.sectorCount-2]? = some old := ⟨_,getElem?_eq_getElem hfull⟩
      rw [hold] at hpast
      obtain ⟨hblank,hlast⟩ := last 0 (show Closed d (sector d t.fs.flash ((c+1)%d.sectorCount)) old from hpast)
      have holds : olds.take (d.sectorCount-2)++[old] = olds := by
        have hlen := h.olds_le
        rw [getElem?_eq_getElem hfull,Option.some.injEq] at hold
        rw [← hold,← drop_eq_nil_of_le (show olds.length ≤ d.sectorCount-2+1 by omega),← drop_eq_getElem_cons hfull,
          take_append_drop]
      obtain ⟨mids,hmids⟩ : ∃ mids, mids = olds.take (d.sectorCount-2) := ⟨_,rfl⟩
      rw [← hmids] at holds ⊢
      subst holds
      have hfits := Closed.fits hpast
      have hlen : old.length ≤ old.length*ateSize d := Nat.le_mul_of_pos_right _ (ateSize_pos d)
      have hstart : Collecting d t.fs c 0 [] mids [] old :=
        ⟨h,by rw [hmids,length_take]; omega,by have := Closed.load_fits hpast; simp; omega,by simp,fun _ => rfl⟩
      obtain ⟨t',limit',hloop,hdone⟩ := hstart.loop (ne_nil hpast) (show old.length ≤ d.sectorSize+1 by omega) 0
      have hlayout := hdone.layout
      have hload := hdone.load
      rw [append_nil,nil_append,append_nil] at hlayout
      rw [append_nil,load,add_zero] at hload
      refine ⟨t',limit',_,by rw [hblank,hlast]; exact hloop,hlayout,hload,by simpa using hdone.zero,fun id => ?_⟩
      rw [latest_collect,flatten_append,flatten_singleton]
    · have hall : olds.take (d.sectorCount-2) = olds := take_of_length_le (by omega)
      rw [getElem?_eq_none (by omega)] at hpast
      have hblank :
        (ateAt (sector d t.fs.flash ((c+1)%d.sectorCount)) (d.sectorSize-ateSize d)).cmpConst d.eraseValue = true :=
        Ate.cmpConst_ofBytes.mpr fun i _ => congrFun hpast _
      exact ⟨t,0,[],by rw [if_pos hblank],h,by simp; omega,fun _ => rfl,fun id => by rw [hall]; rfl⟩
  -- the end of the collection
  have hopen := hlayout.opens (by omega)
  obtain ⟨-,hat⟩ := hlayout.position hopen
  obtain ⟨-,hat₀⟩ := h.position (h.opens (by simp; omega))
  have hslot : slot d 0 < 2^16 ∧ slot d 0 = d.sectorSize-ateSize d-ateSize d := by
    rw [slot]
    omega
  have hsec : sectorAdvance d (t.fs.ateWra/2^16*2^16) = (c+1)%d.sectorCount*2^16 := by
    have hadvance := sectorAdvance_eq hc (show 0 < 2^16 by norm_num)
    rw [add_zero,add_zero] at hadvance
    rw [hat₀,length_nil,address_div hslot.1,hadvance]
  have hgc : ((c+1)%d.sectorCount*2^16+below d 1)%2^32 = (c+1)%d.sectorCount*2^16+(d.sectorSize-ateSize d) := by
    rw [below_eq d (by omega),one_mul,mod_eq_of_lt (by omega)]
  have hstop : ((c+1)%d.sectorCount*2^16+(d.sectorSize-ateSize d)+(2^32-ateSize d))%2^32 =
    (c+1)%d.sectorCount*2^16+slot d 0 := by
    rw [address_sub (by omega) (by omega) (by omega),hslot.2]
  have hdata :
    (t₁.fs.dataWra+ateSize d)%2^32 ≤ t₁.fs.ateWra ↔ limit+(moved.length*ateSize d+3*ateSize d) ≤ d.sectorSize := by
    rw [hlayout.dataWra,hat,slot]
    omega
  simp only [Nvs.gc,hsec,hgc,hstop,flashAteRd_eq (show d.sectorSize-ateSize d+8 ≤ d.sectorSize by omega),
    hcollected,map_some,hdata]
  by_cases hmarker : limit+(moved.length*ateSize d+3*ateSize d) ≤ d.sectorSize
  · rw [if_pos hmarker]
    have hdone := hlayout.gcDone (by omega)
    have hmore : ((⟨0xffff,[]⟩ : Entry)::moved).length*ateSize d = moved.length*ateSize d+ateSize d := succ_mul _ _
    refine ⟨_,limit,_,rfl,hdone.erase,by simp,by omega,fun id hid => ?_⟩
    rw [cons_append,latest_cons,if_neg (Ne.symm hid),hlatest]
  · rw [if_neg hmarker]
    refine ⟨_,limit,moved,rfl,hlayout.erase,fun hnil => ?_,by omega,fun id _ => hlatest id⟩
    have hl := hzero hnil
    rw [hnil,hl] at hmarker
    exact hmarker (by simp; omega)

end Collect
end ArmFirmware.Zephyr.Nvs
