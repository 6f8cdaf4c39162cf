import ArmFirmware.Zephyr.Fcb.Model

/-! The iteration over flash with any contents on which `fcb_init` succeeds. -/
namespace ArmFirmware.Zephyr.Fcb
open Library Option

section Info
variable (c : Config) (flash : Flash)

/-- The element ends with its CRC, or with the fixed mark where that is allowed. -/
def Marked (cnt : ℕ) (loc : Loc) : Prop :=
  flash loc.sector (crcOff c loc) = crcOf flash cnt loc ∨
    c.allowFixed ∧ c.crcDisabled ∧ flash loc.sector (crcOff c loc) = 0xab

instance (cnt : ℕ) (loc : Loc) : Decidable (Marked c flash cnt loc) := inferInstanceAs (Decidable (_ ∨ _))

/-- An entry that lies in its sector and has its end marker. -/
def Valid (loc : Loc) : Prop :=
  ∃ cnt, elemLen c flash loc = some (cnt,loc) ∧ crcOff c loc < c.fsSize loc.sector ∧ Marked c flash cnt loc

variable {c flash} {loc l : Loc} {cnt : ℕ}

lemma align_pos : 0 < c.align := Nat.pow_pos (by norm_num)

lemma le_lenInFlash (len : ℕ) : len ≤ lenInFlash c len := le_ceilTo align_pos

lemma elemLen_eq_some (h : elemLen c flash loc = some (cnt,l)) :
    loc.elemOff+2 ≤ c.fsSize loc.sector ∧ 0 < cnt ∧ l.sector = loc.sector ∧ l.elemOff = loc.elemOff ∧
      l.dataOff = loc.elemOff+lenInFlash c cnt ∧ elemLen c flash l = some (cnt,l) := by
  have hself :
    ∀ l' : Loc, l'.sector = loc.sector → l'.elemOff = loc.elemOff → elemLen c flash l' = elemLen c flash loc := by
    rintro ⟨i,off,dataOff,dataLen⟩ rfl rfl
    rfl
  have hlen := h
  rw [elemLen] at h
  split_ifs at h with hsize
  obtain ⟨⟨cnt',len⟩,hget,heq⟩ := Option.map_eq_some_iff.mp h
  cases heq
  refine ⟨by omega,?_,rfl,rfl,rfl,(hself _ rfl rfl).trans hlen⟩
  simp only [getLen] at hget
  split_ifs at hget <;> cases hget <;> norm_num

lemma Valid.elemOff_lt (h : Valid c flash loc) : loc.elemOff < c.fsSize loc.sector := by
  obtain ⟨cnt,hlen,-⟩ := h
  have := (elemLen_eq_some hlen).1
  omega

/-- What `fcb_elem_info` finds. -/
theorem elemInfo_eq : elemInfo c flash loc =
    match elemLen c flash loc with
    | none => (loc,.error .ENOTSUP)
    | some (cnt,l) => (l,if c.fsSize l.sector < crcOff c l+1 then .error .EIOError
        else if Marked c flash cnt l then .ok () else .error .EBADMSG) := by
  cases hlen : elemLen c flash loc with
  | none => by_cases hfixed : c.allowFixed ∧ c.crcDisabled <;> simp [elemInfo,elemEndmarker,elemCrc8,hlen,hfixed]
  | some r =>
    obtain ⟨cnt,l⟩ := r
    obtain ⟨-,-,-,-,-,hself⟩ := elemLen_eq_some hlen
    -- if the data are too long then so is the element
    have hshort : l.dataLen ≠ 0 ∧ c.fsSize l.sector < l.dataOff+l.dataLen → c.fsSize l.sector < crcOff c l+1 := by
      have := le_lenInFlash (c := c) l.dataLen
      rw [crcOff]
      omega
    by_cases hroom : c.fsSize l.sector < crcOff c l+1
    · by_cases hfixed : c.allowFixed ∧ c.crcDisabled
      · simp [elemInfo,elemEndmarker,hlen,hfixed,hroom]
      · by_cases hdata : l.dataLen ≠ 0 ∧ c.fsSize l.sector < l.dataOff+l.dataLen <;>
          simp [elemInfo,elemEndmarker,elemCrc8,hlen,hfixed,hroom,hdata]
    · have hcrc : ∀ l', elemLen c flash l' = some (cnt,l) → elemCrc8 c flash l' = (l,.ok (crcOf flash cnt l)) := by
        intro l' hl'
        simp only [elemCrc8,hl',if_neg (mt hshort hroom)]
      simp only [elemInfo,elemEndmarker,hlen,hcrc loc hlen,Marked]
      by_cases hfixed : c.allowFixed ∧ c.crcDisabled
      · by_cases hmark : flash l.sector (crcOff c l) = 0xab#8
        · simp [hfixed,hroom,hmark,Except.bind]
        · simp [hfixed,hroom,hmark,hcrc l hself,Except.bind]
      · have hother : ¬(c.allowFixed ∧ c.crcDisabled ∧ flash l.sector (crcOff c l) = 0xab) :=
          fun h => hfixed ⟨h.1,h.2.1⟩
        simp only [if_neg hfixed,if_neg hroom,hother,or_false]
        by_cases hmark : c.allowFixed ∧ flash l.sector (crcOff c l) ≠ crcOf flash cnt l
        · simp [hmark,hcrc l hself,Except.bind]
        · simp [hmark,Except.bind]

end Info

section Elements
variable (c : Config) (flash : Flash) (loc : Loc)

lemma elemInfo_sector :
    (elemInfo c flash loc).1.sector = loc.sector ∧ (elemInfo c flash loc).1.elemOff = loc.elemOff := by
  rw [elemInfo_eq]
  cases hlen : elemLen c flash loc with
  | none => exact ⟨rfl,rfl⟩
  | some r =>
    obtain ⟨-,-,hsector,helem,-⟩ := elemLen_eq_some hlen
    exact ⟨hsector,helem⟩

lemma elemInfo_found (h : (elemInfo c flash loc).2 = .ok () ∨ (elemInfo c flash loc).2 = .error .EBADMSG) :
    loc.elemOff < crcOff c (elemInfo c flash loc).1 ∧ crcOff c (elemInfo c flash loc).1 < c.fsSize loc.sector ∧
      ((elemInfo c flash loc).2 = .ok () → Valid c flash (elemInfo c flash loc).1) := by
  rw [elemInfo_eq] at h ⊢
  cases hlen : elemLen c flash loc with
  | none => simp [hlen] at h
  | some r =>
    obtain ⟨cnt,l⟩ := r
    obtain ⟨-,hcnt,hsector,helem,hdata,hself⟩ := elemLen_eq_some hlen
    have hle := le_lenInFlash (c := c) cnt
    simp only [hlen] at h ⊢
    split_ifs at h ⊢ with hroom hmark
    · simp at h
    · exact ⟨by rw [crcOff]; omega,by rw [← hsector]; omega,fun _ => ⟨cnt,hself,by omega,hmark⟩⟩
    · exact ⟨by rw [crcOff]; omega,by rw [← hsector]; omega,by simp⟩

variable {c flash loc} in
lemma elemInfo_error {e : Errno} (h : (elemInfo c flash loc).2 = .error e) :
    e = .ENOTSUP ∨ e = .EBADMSG ∨ ¬Valid c flash (elemInfo c flash loc).1 := by
  rw [elemInfo_eq] at h ⊢
  cases hlen : elemLen c flash loc with
  | none =>
    simp only [hlen,Except.error.injEq] at h
    exact .inl h.symm
  | some r =>
    obtain ⟨cnt,l⟩ := r
    simp only [hlen] at h ⊢
    split_ifs at h with hroom hmark
    · refine .inr (.inr ?_)
      rintro ⟨-,-,hin,-⟩
      omega
    · exact .inr (.inl (Except.error.inj h).symm)

variable {loc} {l : Loc}

lemma elemInfo_at (hsector : l.sector = loc.sector) (helem : l.elemOff = loc.elemOff) :
    (elemInfo c flash l).2 = (elemInfo c flash loc).2 ∧
      ((elemInfo c flash loc).2 ≠ .error .ENOTSUP → elemInfo c flash l = elemInfo c flash loc) := by
  obtain ⟨i,off,dataOff,dataLen⟩ := l
  obtain rfl : i = loc.sector := hsector
  obtain rfl : off = loc.elemOff := helem
  have hlen : elemLen c flash ⟨loc.sector,loc.elemOff,dataOff,dataLen⟩ = elemLen c flash loc := rfl
  rw [elemInfo_eq,elemInfo_eq,hlen]
  cases elemLen c flash loc <;> simp

variable {c flash}

/-- The loop within a sector ends, at a valid element or at none. -/
lemma inSectorLoop_ends {fuel : ℕ} (hpos : 0 < fuel) (hfuel : c.fsSize loc.sector < crcOff c loc+fuel) :
    ∃ r, inSectorLoop c flash fuel loc = some r ∧ r.1.sector = loc.sector ∧ r.2 ≠ .error .EBADMSG ∧
      (r.2 = .ok () → Valid c flash r.1 ∧ crcOff c loc < r.1.elemOff) ∧
      ∀ e, r.2 = .error e → e = .ENOTSUP ∨ ¬Valid c flash r.1 := by
  induction fuel generalizing loc with
  | zero => omega
  | succ fuel ih =>
    have hone := le_lenInFlash (c := c) 1
    obtain ⟨hsector,helem⟩ := elemInfo_sector c flash { loc with elemOff := crcOff c loc+lenInFlash c 1 }
    have hfound := elemInfo_found c flash { loc with elemOff := crcOff c loc+lenInFlash c 1 }
    have herror := @elemInfo_error c flash { loc with elemOff := crcOff c loc+lenInFlash c 1 }
    rw [inSectorLoop]
    generalize elemInfo c flash { loc with elemOff := crcOff c loc+lenInFlash c 1 } = r at *
    dsimp only at hsector helem hfound
    by_cases hbad : r.2 = .error .EBADMSG
    · obtain ⟨hlt,hin,-⟩ := hfound (.inr hbad)
      rw [if_pos hbad]
      obtain ⟨r',hr',hsector',hbad',hok',herror'⟩ := @ih r.1 (by omega) (by rw [hsector]; omega)
      refine ⟨r',hr',hsector'.trans hsector,hbad',fun hok => ?_,herror'⟩
      obtain ⟨hvalid,hafter⟩ := hok' hok
      exact ⟨hvalid,by omega⟩
    · rw [if_neg hbad]
      refine ⟨r,rfl,hsector,hbad,fun hok => ⟨(hfound (.inl hok)).2.2 hok,by omega⟩,fun e he => ?_⟩
      exact (herror he).imp_right fun h => h.resolve_left fun hmsg => hbad (hmsg ▸ he)

/-- `fcb_getnext_in_sector` returns, what it reports is an entry further on in the sector, and what
it fails at is not one. -/
theorem getnextInSector_spec (c : Config) (flash : Flash) (loc : Loc) :
    ∃ r, getnextInSector c flash loc = some r ∧ r.1.sector = loc.sector ∧ r.2 ≠ .error .EBADMSG ∧
      (r.2 = .ok () → Valid c flash r.1 ∧ loc.elemOff < r.1.elemOff) ∧
      ∀ e, r.2 = .error e → e = .ENOTSUP ∨ ¬Valid c flash r.1 := by
  obtain ⟨hsector,helem⟩ := elemInfo_sector c flash loc
  rw [getnextInSector]
  by_cases hrc : (elemInfo c flash loc).2 = .ok () ∨ (elemInfo c flash loc).2 = .error .EBADMSG
  · obtain ⟨hlt,hin,-⟩ := elemInfo_found c flash loc hrc
    rw [if_pos hrc]
    obtain ⟨r,hr,hsector',hbad,hok,herror⟩ := @inSectorLoop_ends c flash (elemInfo c flash loc).1 _
      (Nat.succ_pos (c.fsSize loc.sector)) (by rw [hsector]; omega)
    exact ⟨r,hr,hsector'.trans hsector,hbad,fun h => ⟨(hok h).1,hlt.trans (hok h).2⟩,herror⟩
  · rw [if_neg hrc]
    refine ⟨_,rfl,hsector,fun h => hrc (.inr h),fun h => absurd (.inl h) hrc,fun e he => ?_⟩
    exact (elemInfo_error he).imp_right fun h => h.resolve_left fun hmsg => hrc (.inr (hmsg ▸ he))

/-- From the entry on `fcb_getnext_in_sector` finds entries until the sector is over, as it does in
the active sector when `fcb_init` succeeds. -/
def Tame (c : Config) (flash : Flash) (loc : Loc) : Prop :=
  ∃ fuel r, activeLoop c flash fuel loc = some r ∧ r.2 = .error .ENOTSUP

lemma Tame.next (h : Tame c flash loc) {r : Loc × Except Errno Unit} (hr : getnextInSector c flash loc = some r) :
    r.2 = .ok () ∧ Tame c flash r.1 ∨ r.2 = .error .ENOTSUP := by
  obtain ⟨fuel,r',hloop,hend⟩ := h
  cases fuel with
  | zero => cases hloop
  | succ fuel =>
    rw [activeLoop,hr,bind_some] at hloop
    by_cases hok : r.2 = .ok ()
    · rw [if_pos hok] at hloop
      exact .inl ⟨hok,fuel,r',hloop,hend⟩
    · rw [if_neg hok] at hloop
      cases hloop
      exact .inr hend

lemma Tame.congr (h : Tame c flash loc) (hsector : l.sector = loc.sector) (helem : l.elemOff = loc.elemOff) :
    Tame c flash l := by
  obtain ⟨hrc,hsame⟩ := elemInfo_at c flash hsector helem
  obtain ⟨fuel,r,hloop,hend⟩ := h
  cases fuel with
  | zero => cases hloop
  | succ fuel =>
    by_cases hnot : (elemInfo c flash loc).2 = .error .ENOTSUP
    · refine ⟨1,(elemInfo c flash l),?_,hrc.trans hnot⟩
      simp [activeLoop,getnextInSector,hrc.trans hnot]
    · refine ⟨fuel+1,r,?_,hend⟩
      rw [← hloop,activeLoop,activeLoop,getnextInSector,getnextInSector,hsame hnot,hsector]

end Elements

section Search
variable {c : Config} {s : State} {loc : Loc}

/-- How many sectors the search has to pass up to the active one. -/
def dist (c : Config) (s : State) (i : ℕ) : ℕ := if i ≤ s.active then s.active-i else s.active+c.sectorCnt-i

lemma dist_next {i : ℕ} (hactive : s.active < c.sectorCnt) (hi : i < c.sectorCnt) (hne : i ≠ s.active) :
    getnextSector c i < c.sectorCnt ∧ dist c s (getnextSector c i)+1 = dist c s i := by
  simp only [getnextSector,dist]
  split_ifs <;> omega

/-- An entry that may be passed to `fcb_getnext` again. -/
structure Good (c : Config) (s : State) (loc : Loc) : Prop where
  valid : Valid c s.flash loc
  lt : loc.sector < c.sectorCnt
  tame : loc.sector = s.active → Tame c s.flash loc

/-- What the loop of `fcb_getnext_nolock` returns: an entry of a later sector or, where the sector
is not over, of the same one. -/
def Later (c : Config) (s : State) (loc : Loc) (same : Bool) (r : Loc × Except Errno Unit) : Prop :=
  r.2 = .error .ENOTSUP ∨ r.2 = .ok () ∧ Good c s r.1 ∧
    (dist c s r.1.sector < dist c s loc.sector ∨ same = true ∧ r.1.sector = loc.sector ∧ loc.elemOff < r.1.elemOff)

/-- The first element of a sector is reported or passed. -/
lemma enter_ends (loc : Loc) (htame : Tame c s.flash ⟨s.active,first c,0,0⟩) (hsector : loc.sector < c.sectorCnt)
    {loop : Bool → Loc → Option (Loc × Except Errno Unit)}
    (hloop : ∀ bad l, l.sector = loc.sector → (l.sector = s.active → Tame c s.flash l) →
      ∃ r, loop bad l = some r ∧ Later c s l bad r) :
    ∃ r, enter c s.flash loc loop = some r ∧ (r.2 = .error .ENOTSUP ∨ r.2 = .ok () ∧ Good c s r.1 ∧
      (dist c s r.1.sector < dist c s loc.sector ∨ r.1.sector = loc.sector ∧ first c ≤ r.1.elemOff)) := by
  obtain ⟨hsame,helem⟩ := elemInfo_sector c s.flash { loc with elemOff := first c }
  have hfound := elemInfo_found c s.flash { loc with elemOff := first c }
  rw [enter]
  generalize elemInfo c s.flash { loc with elemOff := first c } = r at *
  have hfirst : r.1.sector = s.active → Tame c s.flash r.1 := fun hact => htame.congr hact helem
  by_cases hrc : r.2 = .ok ()
  · rw [if_pos hrc]
    exact ⟨r,rfl,.inr ⟨hrc,⟨(hfound (.inl hrc)).2.2 hrc,hsame ▸ hsector,hfirst⟩,.inr ⟨hsame,helem.ge⟩⟩⟩
  · rw [if_neg hrc]
    obtain ⟨r',hr',hlater⟩ := hloop _ r.1 hsame hfirst
    rw [Later,hsame,helem] at hlater
    exact ⟨r',hr',hlater.imp_right fun h => ⟨h.1,h.2.1,h.2.2.imp_right fun h => ⟨h.2.1,h.2.2.le⟩⟩⟩

variable {fuel : ℕ}

/-- The search from sector to sector ends. -/
lemma search_ends (hactive : s.active < c.sectorCnt) (htame : Tame c s.flash ⟨s.active,first c,0,0⟩) (bad : Bool)
    (loc : Loc) (hsector : loc.sector < c.sectorCnt) (hfuel : 2*dist c s loc.sector+bad.toNat+1 ≤ fuel)
    (hbad : bad = true → loc.sector = s.active → Tame c s.flash loc) :
    ∃ r, search c s fuel bad loc = some r ∧ Later c s loc bad r := by
  induction fuel generalizing bad loc with
  | zero => omega
  | succ fuel ih =>
    cases bad with
    | true =>
      obtain ⟨r,hr,hsame,hnot,hok,-⟩ := getnextInSector_spec c s.flash loc
      rw [search,hr,bind_some]
      by_cases hrc : r.2 = .ok ()
      · rw [if_pos hrc]
        obtain ⟨hvalid,hlt⟩ := hok hrc
        refine ⟨r,rfl,.inr ⟨hrc,⟨hvalid,hsame ▸ hsector,fun hact => ?_⟩,.inr ⟨rfl,hsame,hlt⟩⟩⟩
        rcases (hbad rfl (hsame.symm.trans hact)).next hr with h | h
        · exact h.2
        · simp [hrc] at h
      · rw [if_neg hrc,decide_eq_false hnot]
        obtain ⟨r',hr',hlater⟩ := ih false r.1 (hsame ▸ hsector) (by rw [hsame]; simp at hfuel ⊢; omega) (by simp)
        rw [Later,hsame] at hlater
        exact ⟨r',hr',hlater.imp_right fun h => ⟨h.1,h.2.1,.inl (by simpa using h.2.2)⟩⟩
    | false =>
      rw [search]
      by_cases hend : loc.sector = s.active
      · rw [if_pos hend]
        exact ⟨_,rfl,.inl rfl⟩
      rw [if_neg hend]
      obtain ⟨hnext,hdist⟩ := dist_next hactive hsector hend
      obtain ⟨r,hr,hlater⟩ := enter_ends { loc with sector := getnextSector c loc.sector } htame hnext
        fun bad l hl htame =>
        ih bad l (hl ▸ hnext) (by rw [hl]; have := Bool.toNat_le bad; simp; omega) fun _ => htame
      refine ⟨r,hr,hlater.imp_right fun h => ⟨h.1,h.2.1,.inl ?_⟩⟩
      rcases h.2.2 with h | ⟨h,-⟩
      · exact h.trans (by dsimp only; omega)
      · rw [h]
        dsimp only
        omega

variable (c s) in
/-- The entries that a caller of `fcb_getnext` has at hand: it begins with a sector or none, and
goes on with what was reported. -/
inductive Visited : Loc → Prop
  | start (sector : Option ℕ) (h : ∀ i ∈ sector, i < c.sectorCnt) : Visited (start s sector)
  | next {loc l : Loc} (h : Visited loc) (hnext : getnextNolock c s loc = some (l,.ok ())) : Visited l

/-- `fcb_getnext_in_sector` fails behind this entry: the length of an element makes it reach beyond
the sector. -/
def Broken (c : Config) (flash : Flash) (loc : Loc) : Prop :=
  ∃ l e, getnextInSector c flash loc = some (l,.error e) ∧ e ≠ .ENOTSUP

/-- `fcb_getnext_nolock` ends, with a later element if any. -/
lemma getnext_ends (hactive : s.active < c.sectorCnt) (htame : Tame c s.flash ⟨s.active,first c,0,0⟩)
    (hsector : loc.sector < c.sectorCnt) (hloc : loc.elemOff ≠ 0 → (loc.sector = s.active → Tame c s.flash loc) ∧
      (loc.sector ≠ s.active → ¬Broken c s.flash loc)) :
    ∃ r, getnextNolock c s loc = some r ∧ Later c s loc true r := by
  have hdist : 2*dist c s loc.sector+1+1 ≤ 2*c.sectorCnt+1 := by
    rw [dist]
    split_ifs <;> omega
  have hloop : ∀ bad l, l.sector = loc.sector → (bad = true → l.sector = s.active → Tame c s.flash l) →
      ∃ r, search c s (2*c.sectorCnt+1) bad l = some r ∧ Later c s l bad r := fun bad l hl =>
    search_ends hactive htame bad l (hl ▸ hsector) (by rw [hl]; have := Bool.toNat_le bad; omega)
  rw [getnextNolock]
  by_cases hzero : loc.elemOff = 0
  · rw [if_pos hzero]
    obtain ⟨r,hr,hlater⟩ := enter_ends loc htame hsector fun bad l hl htame => hloop bad l hl fun _ => htame
    have hpos : 0 < first c := lt_of_lt_of_le (by norm_num) (le_lenInFlash 8)
    exact ⟨r,hr,hlater.imp_right fun h => ⟨h.1,h.2.1,h.2.2.imp_right fun h => ⟨rfl,h.1,by omega⟩⟩⟩
  · rw [if_neg hzero]
    obtain ⟨htame',hsound⟩ := hloc hzero
    obtain ⟨r,hr,hsame,hnot,hok,-⟩ := getnextInSector_spec c s.flash loc
    rw [hr,bind_some]
    have hcases : r.2 = .ok () ∧ (r.1.sector = s.active → Tame c s.flash r.1) ∨ r.2 = .error .ENOTSUP := by
      by_cases hact : loc.sector = s.active
      · exact ((htame' hact).next hr).imp_left fun h => ⟨h.1,fun _ => h.2⟩
      · obtain ⟨l,rc⟩ := r
        cases rc with
        | ok u => exact .inl ⟨rfl,fun h => absurd (hsame.symm.trans h) hact⟩
        | error e =>
          by_contra hne
          exact hsound hact ⟨l,e,hr,fun he => hne (.inr (congrArg _ he))⟩
    rcases hcases with ⟨hrc,htame''⟩ | hrc
    · rw [if_pos hrc]
      exact ⟨r,rfl,.inr ⟨hrc,⟨(hok hrc).1,hsame ▸ hsector,htame''⟩,.inr ⟨rfl,hsame,(hok hrc).2⟩⟩⟩
    · rw [if_neg (by simp [hrc]),if_pos hrc]
      obtain ⟨r',hr',hlater⟩ := hloop false r.1 hsame (by simp)
      rw [Later,hsame] at hlater
      exact ⟨r',hr',hlater.imp_right fun h => ⟨h.1,h.2.1,.inl (by simpa using h.2.2)⟩⟩

/-- `fcb_walk` ends. -/
lemma walk_ends (hactive : s.active < c.sectorCnt) (htame : Tame c s.flash ⟨s.active,first c,0,0⟩)
    (hsound : ∀ l, Visited c s l → l.elemOff ≠ 0 → l.sector ≠ s.active → ¬Broken c s.flash l) (sector : Option ℕ)
    (stop : ℕ → Loc → Bool)
    {loc : Loc} (hvisited : Visited c s loc) (hsector : loc.sector < c.sectorCnt)
    (hloc : loc.elemOff ≠ 0 → Good c s loc) (calls : ℕ) :
    ∃ fuel locs, walkLoop c s sector stop fuel calls loc = some locs := by
  obtain ⟨⟨l,rc⟩,hr,hlater⟩ :=
    getnext_ends hactive htame hsector fun hne => ⟨(hloc hne).tame,hsound loc hvisited hne⟩
  by_cases hend : rc = .error .ENOTSUP ∨ sector.isSome ∧ sector ≠ some l.sector
  · exact ⟨1,[],by simp only [walkLoop,hr,bind_some,if_pos hend]⟩
  by_cases hstop : stop calls l = true
  · exact ⟨1,[l],by simp only [walkLoop,hr,bind_some,if_neg hend,if_pos hstop]⟩
  obtain ⟨rfl,hgood,hmore⟩ := hlater.resolve_left (mt .inl hend)
  dsimp only at hgood hmore
  have hin := hgood.valid.elemOff_lt
  have hless : Prod.Lex (· < ·) (· < ·) (dist c s l.sector,c.fsSize l.sector-l.elemOff)
      (dist c s loc.sector,c.fsSize loc.sector-loc.elemOff) := by
    rcases hmore with h | ⟨-,h,hlt⟩
    · exact .left _ _ h
    · rw [h] at hin ⊢
      exact .right _ (by omega)
  obtain ⟨fuel,locs,hwalk⟩ := walk_ends hactive htame hsound sector stop (.next hvisited hr) hgood.lt
    (fun _ => hgood) (calls+1)
  exact ⟨fuel+1,l::locs,by simp only [walkLoop,hr,bind_some,if_neg hend,if_neg hstop,hwalk,map_some]⟩
termination_by (dist c s loc.sector,c.fsSize loc.sector-loc.elemOff)
decreasing_by exact hless

variable {flash : Flash}

lemma scan_lt {is : List ℕ} {found : Option Span} {a : Span} (his : ∀ i ∈ is, i < c.sectorCnt)
    (hfound : ∀ b ∈ found, b.oldestSector < c.sectorCnt ∧ b.newestSector < c.sectorCnt)
    (h : scan c flash is found = .ok (some a)) :
    a.oldestSector < c.sectorCnt ∧ a.newestSector < c.sectorCnt := by
  induction is generalizing found with
  | nil => exact hfound a (by simpa [scan] using h)
  | cons i is ih =>
    have hi := his i (List.mem_cons_self ..)
    have his := fun j hj => his j (List.mem_cons_of_mem _ hj)
    unfold scan at h
    split at h
    · cases h
    · exact ih his hfound h
    · exact ih his (by simpa using hi) h
    · rename_i id b _
      obtain ⟨hold,hnew⟩ := hfound b rfl
      refine ih his ?_ h
      rintro b' ⟨⟩
      split_ifs
      · exact ⟨hold,hi⟩
      · exact ⟨hi,hnew⟩
      · exact ⟨hold,hnew⟩

lemma activeLoop_error {r : Loc × Except Errno Unit} (h : activeLoop c flash fuel loc = some r) :
    ∃ e, r.2 = .error e := by
  induction fuel generalizing loc with
  | zero => cases h
  | succ fuel ih =>
    obtain ⟨r',-,hr'⟩ := bind_eq_some_iff.mp h
    split_ifs at hr' with hok
    · exact ih hr'
    · cases hr'
      cases hrc : r.2 with
      | ok u => exact absurd hrc hok
      | error e => exact ⟨e,rfl⟩

/-- The fuel of the loops of `fcb_init` is enough. -/
lemma activeLoop_ends (hpos : 0 < fuel) (hfuel : c.fsSize loc.sector < loc.elemOff+fuel) :
    ∃ r, activeLoop c flash fuel loc = some r := by
  induction fuel generalizing loc with
  | zero => omega
  | succ fuel ih =>
    obtain ⟨r,hr,hsame,-,hok,-⟩ := getnextInSector_spec c flash loc
    rw [activeLoop,hr,bind_some]
    by_cases hrc : r.2 = .ok ()
    · obtain ⟨hvalid,hlt⟩ := hok hrc
      have hin := hvalid.elemOff_lt
      rw [if_pos hrc]
      exact ih (by rw [hsame] at hin; omega) (by rw [hsame]; omega)
    · exact ⟨r,if_neg hrc⟩

lemma init_returns (c : Config) (flash : Flash) : ∃ r, init c flash = some r := by
  have hactive : ∀ flash a, ∃ r, initActive c flash a = some r := fun flash a => by
    obtain ⟨r,hr⟩ : ∃ r, activeLoop c flash (c.fsSize a.newestSector+1) ⟨a.newestSector,first c,0,0⟩ = some r :=
      activeLoop_ends (Nat.succ_pos _) (by dsimp only; omega)
    exact ⟨_,by rw [initActive,hr]; rfl⟩
  rw [init]
  split
  · exact ⟨_,rfl⟩
  · exact hactive ..
  · exact hactive ..

lemma init_tame (h : init c flash = some (.ok s)) :
    s.oldest < c.sectorCnt ∧ s.active < c.sectorCnt ∧ Tame c s.flash ⟨s.active,first c,0,0⟩ := by
  have hactive : ∀ flash a, initActive c flash a = some (.ok s) →
      s.oldest = a.oldestSector ∧ s.active = a.newestSector ∧ Tame c s.flash ⟨s.active,first c,0,0⟩ := by
    intro flash a ha
    obtain ⟨r,hloop,hr⟩ := map_eq_some_iff.mp ha
    split_ifs at hr with hend
    · cases hr
      exact ⟨rfl,rfl,_,r,hloop,hend⟩
    · obtain ⟨e,he⟩ := activeLoop_error hloop
      simp [he,Except.map] at hr
  have hcnt := c.scratchCnt_lt
  rw [init] at h
  split at h
  · simp at h
  · rename_i a hscan
    obtain ⟨hold,hnew,htame⟩ := hactive _ _ h
    have hlt := scan_lt (fun i hi => List.mem_range.mp hi) (by simp) hscan
    exact ⟨hold ▸ hlt.1,hnew ▸ hlt.2,htame⟩
  · obtain ⟨hold,hnew,htame⟩ := hactive _ _ h
    exact ⟨by rw [hold]; dsimp only; omega,by rw [hnew]; dsimp only; omega,htame⟩

lemma Broken.reported (h : Broken c s.flash loc) (hne : loc.elemOff ≠ 0) :
    ∃ l, getnextNolock c s loc = some (l,.ok ()) ∧ ¬Valid c s.flash l := by
  obtain ⟨l,e,hr,he⟩ := h
  obtain ⟨r,hr',-,hnot,-,herror⟩ := getnextInSector_spec c s.flash loc
  cases hr.symm.trans hr'
  refine ⟨l,?_,(herror e rfl).resolve_left he⟩
  have hmsg : e ≠ .EBADMSG := fun h => hnot (congrArg _ h)
  simp [getnextNolock,hne,hr,he,hmsg]

/-- `fcb_init` returns, whatever the flash holds. Where it succeeds, `fcb_getnext` reports valid
entries only, and then `fcb_walk` comes to an end, exactly if no element of a sector before the
active one reaches beyond its sector behind a reported entry. -/
theorem damaged_flash_is_passed (c : Config) (flash : Flash) : (∃ r, init c flash = some r) ∧
    ∀ s, init c flash = some (.ok s) →
      ((∀ loc, Visited c s loc → ∃ r, getnextNolock c s loc = some r ∧ (r.2 = .ok () → Valid c s.flash r.1)) ∧
        (∀ sector stop, (∀ i ∈ sector, i < c.sectorCnt) →
          ∃ fuel locs, walkLoop c s sector stop fuel 0 (start s sector) = some locs) ↔
        ∀ loc, Visited c s loc → loc.elemOff ≠ 0 → loc.sector ≠ s.active → ¬Broken c s.flash loc) := by
  refine ⟨init_returns c flash,fun s hinit => ⟨fun h loc hvisited hne _ hbroken => ?_,fun hsound => ?_⟩⟩
  · obtain ⟨l,hl,hvalid⟩ := hbroken.reported hne
    obtain ⟨r,hr,hok⟩ := h.1 loc hvisited
    cases hl.symm.trans hr
    exact hvalid (hok rfl)
  obtain ⟨hold,hactive,htame⟩ := init_tame hinit
  have hvisited : ∀ loc, Visited c s loc → loc.sector < c.sectorCnt ∧ (loc.elemOff ≠ 0 → Good c s loc) := by
    intro loc h
    induction h with
    | start sector h =>
      refine ⟨?_,fun hne => absurd rfl hne⟩
      cases sector with
      | none => exact hold
      | some i => exact h i rfl
    | next h hnext ih =>
      obtain ⟨r,hr,hlater⟩ := getnext_ends hactive htame ih.1 fun hne => ⟨(ih.2 hne).tame,hsound _ h hne⟩
      cases hr.symm.trans hnext
      have hgood := (hlater.resolve_left (by simp)).2.1
      exact ⟨hgood.lt,fun _ => hgood⟩
  constructor
  · intro loc h
    obtain ⟨hlt,hgood⟩ := hvisited loc h
    obtain ⟨r,hr,hlater⟩ := getnext_ends hactive htame hlt fun hne => ⟨(hgood hne).tame,hsound loc h hne⟩
    refine ⟨r,hr,fun hok => ?_⟩
    rcases hlater with hend | ⟨-,hgood,-⟩
    · simp [hok] at hend
    · exact hgood.valid
  · intro sector stop h
    obtain ⟨hlt,hgood⟩ := hvisited _ (.start sector h)
    exact walk_ends hactive htame hsound sector stop (.start sector h) hlt hgood 0

end Search

def twoSectors : Config :=
  ⟨2,0,fun _ => 24,0,0xff,fun old new => old &&& new,0x12345678,1,false,false,by norm_num,by norm_num,by simp,
    by norm_num,by decide⟩

/-- What `fcb_init` makes of a sector with an empty entry and some more bytes, and of one without entries. -/
def behindEntryInit (more : List (BitVec 8)) : State :=
  ⟨fun i k => (if i = 0 then diskArea twoSectors 0++[0x00,crc8Ccitt 0xff [0x00]]++more
    else diskArea twoSectors 1).getD k 0xff,0,1,8,1⟩

variable {c : Config}

lemma Visited.mem {s : State} {V : List Loc} (hold : s.oldest < c.sectorCnt)
    (hstart : ∀ i < c.sectorCnt, ⟨i,0,0,0⟩ ∈ V)
    (hnext : ∀ loc ∈ V, ∀ r ∈ getnextNolock c s loc, r.2 = .ok () → r.1 ∈ V) {loc : Loc} (h : Visited c s loc) :
    loc ∈ V := by
  induction h with
  | start sector h =>
    cases sector with
    | none => exact hstart _ hold
    | some i => exact hstart i (h i rfl)
  | next h hr ih => exact hnext _ ih _ hr rfl

def unmarked : State := behindEntryInit [0x01,0x33,0x00]

theorem damaged_flash_is_passed_unmarked :
    ∃ fuel locs, walkLoop twoSectors unmarked none (fun _ _ => false) fuel 0 (start unmarked none) = some locs := by
  have hends : ∀ loc ∈ [⟨0,0,0,0⟩,⟨1,0,0,0⟩,⟨0,8,9,0⟩], loc.elemOff ≠ 0 →
      ∀ r ∈ getnextInSector twoSectors unmarked.flash loc, r.2 = .error .ENOTSUP := by decide +kernel
  have hinit : init twoSectors unmarked.flash = some (.ok unmarked) := rfl
  refine (((damaged_flash_is_passed twoSectors unmarked.flash).2 unmarked hinit).mpr ?_).2 none _ (by simp)
  rintro loc h hne - ⟨l,e,hr,he⟩
  have hmem := h.mem (V := [⟨0,0,0,0⟩,⟨1,0,0,0⟩,⟨0,8,9,0⟩]) (by decide) (by decide) (by decide +kernel)
  exact he (Except.error.inj (hends loc hmem hne _ hr))

lemma walkLoop_stuck {s : State} {loc l : Loc} (h : getnextNolock c s loc = some (l,.ok ()))
    (hl : getnextNolock c s l = some (l,.ok ()))
    (fuel calls : ℕ) : walkLoop c s none (fun _ _ => false) fuel calls loc = none := by
  induction fuel generalizing loc calls with
  | zero => rfl
  | succ fuel ih => simp [walkLoop,h,ih hl]

def tooLong : State := behindEntryInit [0xfe]

/-- The element that reaches beyond the sector is reported again and again. -/
theorem damaged_element_reported :
    init twoSectors tooLong.flash = some (.ok tooLong) ∧
      getnextNolock twoSectors tooLong (start tooLong none) = some (⟨0,8,9,0⟩,.ok ()) ∧
      getnextNolock twoSectors tooLong ⟨0,8,9,0⟩ = some (⟨0,10,12,32766⟩,.ok ()) ∧ twoSectors.fsSize 0 < 12+32766 ∧
      ∀ fuel, walkLoop twoSectors tooLong none (fun _ _ => false) fuel 0 (start tooLong none) = none := by
  have hfirst : getnextNolock twoSectors tooLong (start tooLong none) = some (⟨0,8,9,0⟩,.ok ()) := by decide +kernel
  have hnext : getnextNolock twoSectors tooLong ⟨0,8,9,0⟩ = some (⟨0,10,12,32766⟩,.ok ()) := by decide +kernel
  have hagain : getnextNolock twoSectors tooLong ⟨0,10,12,32766⟩ = some (⟨0,10,12,32766⟩,.ok ()) := by decide +kernel
  refine ⟨rfl,hfirst,hnext,by decide,fun fuel => ?_⟩
  cases fuel with
  | zero => rfl
  | succ fuel =>
    rw [walkLoop,hfirst,bind_some,walkLoop_stuck hnext hagain]
    rfl

end ArmFirmware.Zephyr.Fcb
