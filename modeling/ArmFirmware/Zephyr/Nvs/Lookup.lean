import ArmFirmware.Zephyr.Nvs.Layout

/-! What the loops of `nvs_write`, `nvs_gc` and `nvs_read_hist` find on their walk. -/
namespace ArmFirmware.Zephyr.Nvs
open Library List Option Nat Prod Nvs

section Lookup
variable {d : Device} {fs : Fs} {addr id : ℕ} {vs : List (ℕ × Entry)}

/-- The newest entry of the ID, if there is one. -/
def Found (d : Device) (fs : Fs) (vs : List (ℕ × Entry)) (id : ℕ) (r : Bool × ℕ × Ate) : Prop :=
  match vs.find? fun v => v.2.id = id with
  | some v => r.1 = true ∧ r.2.1 = v.1 ∧ Shows d fs v.1 v.2 r.2.2
  | none => r.1 = false

lemma Shows.id_eq {e : Entry} {ate : Ate} (h : Shows d fs addr e ate) : ate.id = e.id := by
  rw [h.eq]
  rfl

lemma Shows.len_eq {e : Entry} {ate : Ate} (h : Shows d fs addr e ate) : ate.len = e.data.length := by
  rw [h.eq]
  rfl

lemma Walk.nil_iff (h : Walk d fs addr vs) : vs = [] ↔ addr = fs.ateWra := by
  cases vs with
  | nil => exact iff_of_true rfl h
  | cons v vs => exact iff_of_false (by simp) h.2.1

lemma Walk.findAte (h : Walk d fs addr vs) (hne : vs ≠ []) {fuel : ℕ} (hfuel : vs.length ≤ fuel) :
    ∃ r, findAte d fs id fuel addr = some r ∧ Found d fs vs id r := by
  induction vs generalizing addr fuel with
  | nil => exact absurd rfl hne
  | cons v vs ih =>
    obtain ⟨fuel,rfl⟩ : ∃ f, fuel = f+1 := ⟨fuel-1,by rw [length_cons] at hfuel; omega⟩
    obtain ⟨hv,-,next,ate,hprev,hshows,hwalk⟩ := h
    simp only [findAte,hprev,bind_some,hshows.id_eq,hshows.valid,and_true,Found,find?_cons]
    by_cases hid : v.2.id = id
    · rw [if_pos hid]
      simp [hid,hv,hshows]
    rw [if_neg hid]
    simp only [hid,decide_false]
    by_cases hend : next = fs.ateWra
    · rw [if_pos hend]
      exact ⟨_,rfl,by rw [hwalk.nil_iff.mpr hend]; rfl⟩
    · rw [if_neg hend]
      exact ih hwalk (mt hwalk.nil_iff.mp hend) (by rw [length_cons] at hfuel; omega)

theorem Starts.findAte (h : Starts d fs vs) (id : ℕ) :
    ∃ r, findAte d fs id (walkBound d) fs.ateWra = some r ∧ Found d fs vs id r := by
  obtain ⟨hbound,next,ate,hprev,hinvalid,hwalk⟩ := h
  obtain ⟨fuel,hfuel⟩ : ∃ f, walkBound d = f+1 := ⟨walkBound d-1,by omega⟩
  simp only [hfuel,Nvs.findAte,hprev,bind_some,hinvalid,Bool.false_eq_true,and_false,if_false]
  by_cases hend : next = fs.ateWra
  · rw [if_pos hend]
    exact ⟨_,rfl,by rw [hwalk.nil_iff.mpr hend]; rfl⟩
  · rw [if_neg hend]
    exact hwalk.findAte (mt hwalk.nil_iff.mp hend) (by omega)

lemma Walk.length_eq {vs' : List (ℕ × Entry)} (h : Walk d fs addr vs) (h' : Walk d fs addr vs') :
    vs.length = vs'.length := by
  induction vs generalizing addr vs' with
  | nil => rw [h'.nil_iff.mpr h]
  | cons v vs ih =>
    cases vs' with
    | nil => exact absurd h' h.2.1
    | cons v' vs' =>
      obtain ⟨-,-,next,ate,hprev,-,hwalk⟩ := h
      obtain ⟨-,-,next',ate',hprev',-,hwalk'⟩ := h'
      rw [hprev,Option.some.injEq,mk.injEq] at hprev'
      rw [← hprev'.1] at hwalk'
      rw [length_cons,length_cons,ih hwalk hwalk']

lemma Walk.from {pre suf : List (ℕ × Entry)} {v : ℕ × Entry} (h : Walk d fs addr (pre++v::suf)) :
    Walk d fs v.1 (v::suf) := by
  induction pre generalizing addr with
  | nil => exact h.1 ▸ h
  | cons w pre ih =>
    obtain ⟨-,-,next,ate,-,-,hwalk⟩ := h
    exact ih hwalk

lemma Walk.ne_of_mem {pre suf : List (ℕ × Entry)} {v w : ℕ × Entry} (h : Walk d fs addr (pre++v::suf))
    (hw : w ∈ pre) : w.1 ≠ v.1 := by
  intro heq
  have hv := h.from
  obtain ⟨a,b,rfl⟩ := append_of_mem hw
  rw [append_assoc,cons_append] at h
  have hw := h.from
  have hlen := (heq ▸ hw).length_eq hv
  simp only [length_cons,length_append] at hlen
  omega

/-- The walk of `nvs_read_hist` stops at the entry it was asked for, or else at the last one. -/
def Counted (d : Device) (fs : Fs) (vs : List (ℕ × Entry)) (id cnt cntHis : ℕ) (r : ℕ × ℕ × Ate × ℕ) : Prop :=
  match (vs.filter fun v => v.2.id = id)[cnt-cntHis]? with
  | some v => r.2.1 = v.1 ∧ Shows d fs v.1 v.2 r.2.2.1 ∧ r.2.2.2 = cnt+1
  | none => r.1 = fs.ateWra ∧ r.2.2.2 = cntHis+(vs.filter fun v => v.2.id = id).length ∧
      ∃ v, vs.getLast? = some v ∧ r.2.1 = v.1 ∧ Shows d fs v.1 v.2 r.2.2.1

/-- The loop of `nvs_read_hist`. -/
lemma Walk.histLoop {cnt cntHis : ℕ} (h : Walk d fs addr vs) (hne : vs ≠ []) {fuel : ℕ} (hfuel : vs.length ≤ fuel)
    (hcnt : cntHis ≤ cnt) (hwrap : cnt < 65535 ∨ cnt = 65535 ∧
      cntHis+(vs.filter fun v => v.2.id = id).length ≤ 65535) :
    ∃ r, histLoop d fs id cnt fuel cntHis addr = some r ∧ Counted d fs vs id cnt cntHis r := by
  induction vs generalizing addr fuel cntHis with
  | nil => exact absurd rfl hne
  | cons v vs ih =>
    obtain ⟨fuel,rfl⟩ : ∃ f, fuel = f+1 := ⟨fuel-1,by rw [length_cons] at hfuel; omega⟩
    obtain ⟨hv,-,next,ate,hprev,hshows,hwalk⟩ := h
    rw [length_cons,add_le_add_iff_right] at hfuel
    have hlast := hwalk.nil_iff.mpr
    have hshow := hv.symm ▸ hshows
    simp only [histLoop,hprev,bind_some,hshows.id_eq,hshows.valid,and_true]
    by_cases hid : v.2.id = id
    · have hfilter : (v::vs).filter (fun v => v.2.id = id) = v::vs.filter fun v => v.2.id = id :=
        filter_cons_of_pos (by simpa using hid)
      rw [hfilter,length_cons] at hwrap
      rw [if_pos hid,mod_eq_of_lt (by omega)]
      by_cases hthis : cntHis = cnt
      · rw [if_pos (.inr (by omega))]
        refine ⟨_,rfl,?_⟩
        rw [Counted,hfilter,hthis,Nat.sub_self]
        exact ⟨hv.symm,hshow,rfl⟩
      have hrest : cnt-cntHis = cnt-(cntHis+1)+1 := by omega
      by_cases hend : next = fs.ateWra
      · rw [if_pos (.inl hend)]
        refine ⟨_,rfl,?_⟩
        rw [Counted,hfilter,hrest,hlast hend]
        exact ⟨hend,rfl,v,rfl,hv.symm,hshow⟩
      · rw [if_neg (by omega)]
        have hne := mt hwalk.nil_iff.mp hend
        obtain ⟨r,hr,hcounted⟩ := ih hwalk hne hfuel (show cntHis+1 ≤ cnt by omega) (by omega)
        refine ⟨r,hr,?_⟩
        rw [Counted] at hcounted ⊢
        rw [hfilter,hrest,getElem?_cons_succ,getLast?_cons,length_cons]
        split at hcounted
        · exact hcounted
        · obtain ⟨hat,hcount,w,hw,hlast⟩ := hcounted
          exact ⟨hat,by omega,w,by rw [hw]; rfl,hlast⟩
    · have hfilter : (v::vs).filter (fun v => v.2.id = id) = vs.filter fun v => v.2.id = id :=
        filter_cons_of_neg (by simpa using hid)
      rw [hfilter] at hwrap
      rw [if_neg hid]
      by_cases hend : next = fs.ateWra
      · rw [if_pos (.inl hend)]
        refine ⟨_,rfl,?_⟩
        rw [Counted,hfilter,hlast hend]
        exact ⟨hend,rfl,v,rfl,hv.symm,hshow⟩
      · rw [if_neg (by omega)]
        have hne := mt hwalk.nil_iff.mp hend
        obtain ⟨r,hr,hcounted⟩ := ih hwalk hne hfuel hcnt hwrap
        refine ⟨r,hr,?_⟩
        rw [Counted] at hcounted ⊢
        rw [hfilter,getLast?_cons]
        split at hcounted
        · exact hcounted
        · obtain ⟨hat,hcount,w,hw,hlast⟩ := hcounted
          exact ⟨hat,hcount,w,by rw [hw]; rfl,hlast⟩

/-- What `nvs_read_hist` should return. -/
def history (d : Device) (log : List Entry) (id len cnt : ℕ) : Except Errno (ℕ × List (BitVec 8)) :=
  if len > below d 2 then .error .EINVAL
  else
    match (log.filter fun e => e.id = id)[cnt]? with
    | some e => if e.data = [] then .error .ENOENT else .ok (e.data.length,e.data.take len)
    | none => .error .ENOENT

/-- The test at the end of `nvs_read_hist` takes the oldest entry of the log for one more entry of its id. -/
def Overcounts (log : List Entry) (id cnt : ℕ) : Prop :=
  0 < cnt ∧ (log.filter fun e => e.id = id).length = cnt ∧ ∃ e ∈ log.getLast?, e.id = id ∧ e.data ≠ []

theorem Starts.readHist (h : Starts d fs vs) (hne : vs ≠ []) {cnt : ℕ} (len : ℕ)
    (hwrap : cnt < 65535 ∨ cnt = 65535 ∧ ((vs.map snd).filter fun e => e.id = id).length ≤ 65535)
    (hover : ¬Overcounts (vs.map snd) id cnt) :
    readHist d fs id len cnt = some (history d (vs.map snd) id len cnt) := by
  obtain ⟨hbound,next,ate,hprev,hinvalid,hwalk⟩ := h
  obtain ⟨fuel,hfuel⟩ : ∃ f, walkBound d = f+1 := ⟨walkBound d-1,by omega⟩
  have hmap : (vs.map snd).filter (fun e => e.id = id) = (vs.filter fun v => v.2.id = id).map snd := filter_map
  have hstart : histLoop d fs id cnt (walkBound d) 0 fs.ateWra = histLoop d fs id cnt fuel 0 next := by
    simp only [hfuel,histLoop,hprev,bind_some,hinvalid,Bool.false_eq_true,and_false,if_false]
    exact if_neg (by have := mt hwalk.nil_iff.mpr hne; omega)
  rw [Overcounts,hmap,length_map] at hover
  rw [hmap,length_map] at hwrap
  obtain ⟨⟨next',addr,ate',cntHis⟩,hloop,hcounted⟩ :=
    hwalk.histLoop hne (show vs.length ≤ fuel by omega) (zero_le cnt) (by rw [zero_add]; exact hwrap)
  rw [Nvs.readHist,history,hmap,hstart,hloop]
  split_ifs with hlen
  · rfl
  rw [map_some,getElem?_map]
  rw [Counted,Nat.sub_zero] at hcounted
  congr 1
  split at hcounted
  · rename_i v hv
    obtain ⟨hat,hshows,hcount⟩ := hcounted
    dsimp only at hat hshows hcount
    have hid : v.2.id = id := by simpa using (mem_filter.mp (mem_of_getElem? hv)).2
    simp only [hv,map_some,hshows.id_eq,hshows.len_eq,hid,ne_eq,not_true_eq_false,and_false,false_or,
      length_eq_zero_iff]
    rw [hcount]
    by_cases hdata : v.2.data = []
    · rw [if_pos (.inl hdata),if_pos hdata]
    · have htake : ∀ n, flashRd d fs (v.1/2^16*2^16+ate'.offset) (min n v.2.data.length) = v.2.data.take n := by
        intro n
        nth_rewrite 2 [← hshows.data]
        rw [flashRd,flashRd,← map_take,take_range]
      rw [if_neg (by simp [hdata]),if_neg hdata,hat,htake]
  · rename_i hnone
    obtain ⟨hat,hcount,v,hlast,-,hshows⟩ := hcounted
    dsimp only at hat hshows hcount
    simp only [hnone,map_none,hshows.id_eq,hshows.len_eq,hat,true_and,length_eq_zero_iff]
    rw [if_pos]
    -- otherwise the last entry is of the id and there are as many entries as were skipped
    by_contra hnot
    simp only [not_or,not_not,not_lt] at hnot
    obtain ⟨hid,hdata,hle⟩ := hnot
    have hmem : v ∈ vs.filter fun v => v.2.id = id := mem_filter.mpr ⟨mem_of_getLast? hlast,by simpa using hid⟩
    have hpos := length_pos_of_mem hmem
    have hge := getElem?_eq_none_iff.mp hnone
    exact hover ⟨by omega,by omega,v.2,by rw [getLast?_map,hlast]; rfl,hid,hdata⟩

end Lookup
end ArmFirmware.Zephyr.Nvs
