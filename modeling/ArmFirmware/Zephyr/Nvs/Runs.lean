import ArmFirmware.Zephyr.Nvs.Collect

/-! What the file system holds after any sequence of writes and deletes, and `nvs_write` with the
memory of its caller, with or without CONFIG_NVS_DATA_CRC. -/
namespace ArmFirmware.Zephyr.Nvs
open Library List Function Option

abbrev Values := ℕ → Option (List (BitVec 8))

def value (log : List Entry) (id : ℕ) : Option (List (BitVec 8)) :=
  (latest Entry.id Entry.dead log id).map Entry.data

def written (data : List (BitVec 8)) : Option (List (BitVec 8)) := if data = [] then none else some data

section Write
variable {d : Device} {t : Trail} {g : Values} {id : ℕ} {data : List (BitVec 8)}

/-- The log in flash says what the values are. -/
def Holds (d : Device) (fs : Fs) (g : Values) : Prop :=
  ∃ c limit cur olds, Layout d fs c limit cur olds ∧ cur ≠ [] ∧ olds.length < d.sectorCount-1 ∧
    ∀ id, id ≠ 0xffff → value (cur++olds.flatten) id = g id

/-- Only a write that succeeds changes the values. -/
def Values.next (g : Values) (id : ℕ) (data : List (BitVec 8)) : Except Errno ℕ → Values
  | .ok _ => update g id (written data)
  | .error _ => g

lemma value_eq (log : List Entry) (id : ℕ) :
    value log id = (log.find? fun e => e.id = id).bind fun e => written e.data := by
  rw [value,latest]
  cases log.find? fun e => e.id = id with
  | none => rfl
  | some e => by_cases hdata : e.data = [] <;> simp [Option.filter,Entry.dead,written,hdata]

lemma value_cons (e : Entry) (log : List Entry) (id : ℕ) :
    value (e::log) id = if e.id = id then written e.data else value log id := by
  rw [value_eq,value_eq,find?_cons]
  by_cases hid : e.id = id <;> simp [hid]

/-- The loop of `nvs_write`, with garbage collection until there is space. -/
lemma Holds.writeLoop (h : Holds d t.fs g) (hopen : Open d t.fs) (hid : id < 0xffff)
    (hspace : space d data < 2^16) (left : ℕ) :
    ∃ t' r, writeLoop d (fun t => flashWrtEntry d t id data) data.length (space d data) left t = some (t',r) ∧
      Holds d t'.fs (g.next id data r) := by
  induction left generalizing t with
  | zero => exact ⟨t,_,rfl,h⟩
  | succ left ih =>
    have hlt := d.sectorSize_lt
    have hcount := d.sectorCount_lt
    obtain ⟨c,limit,cur,olds,hlayout,hne,holds,hvalue⟩ := h
    obtain ⟨hslot,hat⟩ := hlayout.position hopen
    have hc := hlayout.lt
    have hfits : (t.fs.dataWra+space d data)%2^32 ≤ t.fs.ateWra ↔
        limit+space d data+(cur.length*ateSize d+2*ateSize d) ≤ d.sectorSize := by
      have hfits := hlayout.fits
      rw [hlayout.dataWra,hat,slot]
      omega
    simp only [Nvs.writeLoop,hfits]
    by_cases hroom : limit+space d data+(cur.length*ateSize d+2*ateSize d) ≤ d.sectorSize
    · rw [if_pos hroom]
      refine ⟨_,_,rfl,c,_,⟨id,data⟩::cur,olds,hlayout.entry (by omega) hroom,by simp,holds,fun k hk => ?_⟩
      rw [cons_append,value_cons,hvalue k hk,Values.next]
      by_cases hkey : id = k
      · rw [if_pos hkey,hkey,update_self]
      · rw [if_neg hkey,update_of_ne (Ne.symm hkey)]
    · rw [if_neg hroom]
      obtain ⟨t',limit',cur',hgc,hlayout',hne',hroom',hlatest⟩ := (hlayout.close hopen hne holds).gc
      rw [hgc,bind_some]
      refine ih ⟨_,limit',cur',_,hlayout',hne',by rw [length_take]; omega,fun k hk => ?_⟩ (hlayout'.opens hroom')
      rw [← hvalue k hk,value,hlatest k hk]
      rfl

/-- A value is written again exactly if it is not the one stored. -/
lemma duplicate_iff {vs : List (ℕ × Entry)} {r : Bool × ℕ × Ate} (h : Found d t.fs vs id r) :
    duplicate d t.fs data.length data r = true ↔ value (vs.map Prod.snd) id = written data := by
  obtain ⟨found,addr,ate⟩ := r
  rw [value_eq,find?_map,bind_map]
  change _ ↔ ((vs.find? fun v => v.2.id = id).bind fun v => written v.2.data) = written data
  rw [Found] at h
  split at h
  · rename_i v hv
    obtain ⟨rfl,rfl,hshows⟩ := h
    dsimp only at hshows
    rw [hv,bind_some]
    have hcmp : flashBlockCmp d t.fs (v.1/2^16*2^16+ate.offset) data = true ∧ data.length = v.2.data.length ↔
      v.2.data = data := by
      rw [flashBlockCmp,decide_eq_true_iff]
      constructor
      · rintro ⟨hrd,hlen⟩
        rw [← hshows.data,← hlen,hrd]
      · intro heq
        rw [← heq]
        exact ⟨hshows.data,rfl⟩
    by_cases hdata : data = []
    · simp [duplicate,hshows.len_eq,written,hdata]
    · simp only [duplicate,hdata,length_eq_zero_iff,if_false,hshows.len_eq,decide_eq_true_eq,written]
      rw [and_comm,hcmp]
      by_cases hold : v.2.data = []
      · simp [hold,Ne.symm hdata]
      · simp [hold]
  · rename_i hv
    obtain rfl := h
    by_cases hdata : data = [] <;> simp [duplicate,written,hdata,hv]

/-- A write returns, and the log says afterwards what it should. -/
theorem Holds.write (data : List (BitVec 8)) (h : Holds d t.fs g) (hopen : Open d t.fs) (hid : id < 0xffff) :
    ∃ t' r, Nvs.write d t id data = some (t',r) ∧ Holds d t'.fs (g.next id data r) ∧
      (g id = written data → t' = t) := by
  have hlt := d.sectorSize_lt
  have hlog := h
  obtain ⟨c,limit,cur,olds,hlayout,hne,holds,hvalue⟩ := hlog
  have hroom := hlayout.room
  rw [Nvs.write,below_eq d hroom]
  by_cases hlong : data.length > d.sectorSize-4*ateSize d
  · rw [if_pos hlong]
    exact ⟨t,_,rfl,h,fun _ => rfl⟩
  rw [if_neg hlong,writeChecked]
  obtain ⟨r,hfind,hfound⟩ := (hlayout.starts hopen).findAte id
  have hdup : duplicate d t.fs data.length data r = true ↔ g id = written data := by
    rw [duplicate_iff hfound,visits_map,hvalue id (by omega)]
  rw [hfind,bind_some]
  by_cases hsame : g id = written data
  · rw [if_pos (hdup.mpr hsame)]
    refine ⟨t,_,rfl,?_,fun _ => rfl⟩
    rw [Values.next,update_eq_self_iff.mpr hsame.symm]
    exact h
  rw [if_neg (mt hdup.mp hsame)]
  -- the space that the code asks for
  have hal := ceilTo_lt (x := data.length) (writeBlockSize_pos d)
  have hblock := Nat.le_of_dvd (ateSize_pos d) (dvd_ceilTo ..)
  have hrequired : (if alSize d data.length ≠ 0 then (alSize d data.length+ateSize d+0)%2^16 else 0) = space d
    data ∧ space d data < 2^16 := by
    rw [space]
    by_cases hdata : data = []
    · simp [hdata,alSize_zero]
    · have hpos : alSize d data.length ≠ 0 := by rwa [ne_eq,alSize_eq_zero,length_eq_zero_iff]
      rw [if_pos hpos,if_neg hdata,alSize]
      omega
  obtain ⟨t',r',hloop,hholds⟩ := h.writeLoop hopen hid hrequired.2 d.sectorCount
  exact ⟨t',r',by rw [← hloop,← hrequired.1],hholds,fun heq => absurd heq hsame⟩

end Write

section Runs
variable (d : Device)

def mounted : Fs := (addGcDoneAte d ⟨⟨below d 2,0,fun _ => d.eraseValue⟩,[]⟩).fs

inductive Action
  | write (id : ℕ) (data : List (BitVec 8))
  | delete (id : ℕ)
  deriving DecidableEq

def Action.id : Action → ℕ
  | .write id _ => id
  | .delete id => id

def Action.data : Action → List (BitVec 8)
  | .write _ data => data
  | .delete _ => []

def step (fs : Fs) : Action → Option (Fs × Except Errno ℕ)
  | .write id data => (write d ⟨fs,[]⟩ id data).map fun r => (r.1.fs,r.2)
  | .delete id => (delete d ⟨fs,[]⟩ id).map fun r => (r.1.fs,r.2)

/-- The calls with the values that the replies promise. -/
def keeping : Fs × Values → Action → Option ((Fs × Values) × Except Errno ℕ) :=
  recording (step d) fun g _ _ a r => g.next a.id a.data r

def Careful (fs : Fs) (a : Action) : Prop := a.id < 0xffff ∧ Open d fs

instance (fs : Fs) (a : Action) : Decidable (Careful d fs a) := inferInstanceAs (Decidable (_ ∧ _))

def expected (g : Values) (id len : ℕ) : Except Errno (ℕ × List (BitVec 8)) :=
  if len > below d 2 then .error .EINVAL
  else
    match g id with
    | some data => .ok (data.length,data.take len)
    | none => .error .ENOENT

variable {d}

lemma step_eq (fs : Fs) (a : Action) : step d fs a = (write d ⟨fs,[]⟩ a.id a.data).map fun r => (r.1.fs,r.2) := by
  cases a <;> rfl

lemma history_zero {log : List Entry} {g : Values} {id : ℕ} (h : value log id = g id) (len : ℕ) :
    history d log id len 0 = expected d g id len := by
  rw [value_eq] at h
  rw [history,expected,← head?_eq_getElem?,head?_filter,← h]
  cases log.find? fun e => e.id = id with
  | none => rfl
  | some e => by_cases hdata : e.data = [] <;> simp [written,hdata]

lemma mounted_holds (hroom : 4*ateSize d ≤ d.sectorSize) : Holds d (mounted d) fun _ => none := by
  have hlt := d.sectorSize_lt
  have htwo := d.two_le_sectorCount
  have hbelow : below d 2 = d.sectorSize-2*ateSize d := below_eq d (by omega)
  have hblank : Layout d ⟨below d 2,0,fun _ => d.eraseValue⟩ 0 0 [] [] := by
    have hcells : ∀ k, sector d (fun _ => d.eraseValue) k = fun _ => d.eraseValue :=
      fun k => funext fun i => ite_self _
    refine ⟨hroom,by omega,rfl,?_,by simp; omega,trivial,fun i _ _ => by rw [hcells],fun i _ => hcells _,by simp,
      by simp [load],by simp [load]; omega⟩
    simp only [hbelow,length_nil,Nat.zero_mul,Nat.zero_add]
    omega
  refine ⟨0,0,[⟨0xffff,[]⟩],[],hblank.gcDone (by simp; omega),by simp,by simp; omega,fun k hk => ?_⟩
  rw [flatten_nil,append_nil,value_cons,if_neg (Ne.symm hk)]
  rfl

lemma Holds.step {fs : Fs} {g : Values} (h : Holds d fs g) {a : Action} (hcare : Careful d fs a) :
    ∃ y r, keeping d (fs,g) a = some (y,r) ∧ Holds d y.1 y.2 := by
  obtain ⟨t,r,hwrite,hholds,-⟩ := Holds.write (t := ⟨fs,[]⟩) a.data h hcare.2 hcare.1
  exact ⟨(t.fs,_),r,recording_eq_some.mpr ⟨by rw [step_eq,hwrite]; rfl,rfl⟩,hholds⟩

lemma runs_hold (hroom : 4*ateSize d ≤ d.sectorSize) {as : List Action}
    (hcare : Along (Careful d) (step d) (mounted d) as) :
    ∃ y rs, serve? (keeping d) (mounted d,fun _ => none) as = some (y,rs) ∧ Holds d y.1 y.2 := by
  obtain ⟨y,rs,hserve,-,hholds⟩ :=
    Trace.of_along (I := fun x : Fs × Values => Holds d x.1 x.2) (fun x a hx ha => hx.step ha)
    (mounted_holds hroom) (hcare.recording _)
  exact ⟨y,rs,hserve,hholds⟩

lemma visits_ne_nil {c : ℕ} {cur : List Entry} {olds : List (List Entry)} (hne : cur ≠ []) :
    visits d c cur olds ≠ [] :=
  fun hnil => hne (append_eq_nil_iff.mp (by rw [← visits_map,hnil]; rfl)).1

/-- After any careful calls `nvs_read` returns the value of the last successful write of the id that
was not deleted. -/
theorem runs_keep_values (hroom : 4*ateSize d ≤ d.sectorSize) {as : List Action}
    (hcare : Along (Careful d) (step d) (mounted d) as) :
    ∃ y rs, serve? (keeping d) (mounted d,fun _ => none) as = some (y,rs) ∧
      (Open d y.1 → ∀ id < 0xffff, ∀ len, read d y.1 id len = some (expected d y.2 id len)) := by
  obtain ⟨y,rs,hserve,c,limit,cur,olds,hlayout,hne,-,hvalue⟩ := runs_hold hroom hcare
  refine ⟨y,rs,hserve,fun hopen id hid len => ?_⟩
  have hstarts := hlayout.starts hopen
  rw [read,hstarts.readHist (visits_ne_nil hne) len (.inl (by norm_num)) (fun h => absurd h.1 (by norm_num)),
    visits_map,
    history_zero (hvalue id (by omega))]

/-- The valid entries that `nvs_prev_ate` passes on its way back to the write address. -/
def entriesFrom (d : Device) (fs : Fs) : (fuel addr : ℕ) → List Entry
  | 0,_ => []
  | fuel+1,addr =>
    match prevAte d fs addr with
    | none => []
    | some (next,ate) =>
      let rest := if next = fs.ateWra then [] else entriesFrom d fs fuel next
      if ateValid d ate then ⟨ate.id,flashRd d fs (addr/2^16*2^16+ate.offset) ate.len⟩::rest else rest

def entries (d : Device) (fs : Fs) : List Entry := entriesFrom d fs (walkBound d) fs.ateWra

lemma Walk.entriesFrom {fs : Fs} {vs : List (ℕ × Entry)} {addr : ℕ} (h : Walk d fs addr vs) {fuel : ℕ}
    (hfuel : vs.length ≤ fuel) :
    (if addr = fs.ateWra then [] else entriesFrom d fs fuel addr) = vs.map Prod.snd := by
  induction vs generalizing addr fuel with
  | nil => exact if_pos h
  | cons v vs ih =>
    obtain ⟨fuel,rfl⟩ : ∃ f, fuel = f+1 := ⟨fuel-1,by rw [length_cons] at hfuel; omega⟩
    obtain ⟨hv,hne,next,ate,hprev,hshows,hwalk⟩ := h
    rw [if_neg hne]
    simp only [Nvs.entriesFrom,hprev,hshows.valid,if_true,hshows.id_eq,hshows.len_eq,hshows.data,map_cons]
    rw [ih hwalk (by rw [length_cons] at hfuel; omega)]

lemma Starts.entries {fs : Fs} {vs : List (ℕ × Entry)} (h : Starts d fs vs) : entries d fs = vs.map Prod.snd := by
  obtain ⟨hbound,next,ate,hprev,hinvalid,hwalk⟩ := h
  obtain ⟨fuel,hfuel⟩ : ∃ f, walkBound d = f+1 := ⟨walkBound d-1,by omega⟩
  simp only [Nvs.entries,hfuel,Nvs.entriesFrom,hprev,hinvalid,Bool.false_eq_true,if_false]
  exact hwalk.entriesFrom (by omega)

/-- After any careful calls `nvs_read_hist` returns the entry of the log that it was asked for. -/
theorem runs_read_history (hroom : 4*ateSize d ≤ d.sectorSize) {as : List Action}
    (hcare : Along (Careful d) (step d) (mounted d) as) :
    ∃ y rs, serve? (keeping d) (mounted d,fun _ => none) as = some (y,rs) ∧
      (Open d y.1 → ∀ id < 0xffff, ∀ len, ∀ cnt < 2^16, ¬Overcounts (entries d y.1) id cnt →
        (cnt = 65535 → ((entries d y.1).filter fun e => e.id = id).length ≤ 65535) →
        readHist d y.1 id len cnt = some (history d (entries d y.1) id len cnt)) := by
  obtain ⟨y,rs,hserve,c,limit,cur,olds,hlayout,hne,-,-⟩ := runs_hold hroom hcare
  refine ⟨y,rs,hserve,fun hopen id hid len cnt hcnt hover hwrap => ?_⟩
  have hstarts := hlayout.starts hopen
  rw [hstarts.entries] at hover hwrap ⊢
  exact hstarts.readHist (visits_ne_nil hne) len (by omega) hover

end Runs

lemma ones_and : ∀ b : BitVec 8, 0xff &&& b = b := by decide

def twoSectors : Device :=
  ⟨64,2,3,0xff,fun old new => old &&& new,by norm_num,by norm_num,by norm_num,by norm_num,by norm_num,.inl rfl,
    ones_and⟩

def recycled : List Action := [.write 1 [5,6],.write 2 [7],.delete 2,.write 3 [1,2,3]]

theorem runs_keep_values_recycled : 4*ateSize twoSectors ≤ twoSectors.sectorSize ∧
    Along (Careful twoSectors) (step twoSectors) (mounted twoSectors) recycled ∧
    ∃ y rs, serve? (keeping twoSectors) (mounted twoSectors,fun _ => none) recycled = some (y,rs) ∧
      (Open twoSectors y.1 → ∀ id < 0xffff, ∀ len, read twoSectors y.1 id len = some
        (expected twoSectors y.2 id len)) :=
  ⟨by decide,by decide +kernel,runs_keep_values (by decide) (by decide +kernel)⟩

/-- A delete entry may go right below the data; if these look like an entry, the walk takes them for one. -/
theorem payload_read_as_entry :
    ∃ y rs, serve? (keeping twoSectors) (mounted twoSectors,fun _ => none)
        [.write 1 (replicate 8 5),.write 2 (newAte 7 0 8).bytes,.delete 1,.delete 2] = some (y,rs) ∧
      expected twoSectors y.2 7 8 = .error .ENOENT ∧ read twoSectors y.1 7 8 = some (.ok (8,replicate 8 5)) :=
  ⟨_,_,rfl,by decide +kernel,by decide +kernel⟩

theorem runs_read_history_recycled : 4*ateSize twoSectors ≤ twoSectors.sectorSize ∧
    Along (Careful twoSectors) (step twoSectors) (mounted twoSectors) recycled ∧
    ∃ y rs, serve? (keeping twoSectors) (mounted twoSectors,fun _ => none) recycled = some (y,rs) ∧
      (Open twoSectors y.1 → ∀ id < 0xffff, ∀ len, ∀ cnt < 2^16, ¬Overcounts (entries twoSectors y.1) id cnt →
        (cnt = 65535 → ((entries twoSectors y.1).filter fun e => e.id = id).length ≤ 65535) →
        readHist twoSectors y.1 id len cnt = some (history twoSectors (entries twoSectors y.1) id len cnt)) :=
  ⟨by decide,by decide +kernel,runs_read_history (by decide) (by decide +kernel)⟩

/-- The one entry of id 1 is the oldest one of the log and is returned as the one before it. -/
theorem oldest_entry_counted_twice :
    ∃ y rs, serve? (keeping twoSectors) (mounted twoSectors,fun _ => none) recycled = some (y,rs) ∧
      Open twoSectors y.1 ∧ (entries twoSectors y.1).map Entry.id = [3,0xffff,1] ∧
      history twoSectors (entries twoSectors y.1) 1 8 1 = .error .ENOENT ∧
      readHist twoSectors y.1 1 8 1 = some (.ok (2,[5,6])) :=
  ⟨_,_,rfl,by decide +kernel,by decide +kernel,by decide +kernel,by decide +kernel⟩

def dataCrc (data : List (BitVec 8)) : List (BitVec 8) :=
  (range 4).map fun i => (crc32Ieee data >>> (8*i)).setWidth 8

section Calls
variable (d : Device)

/-- `nvs_flash_data_wrt` with a CRC behind the data. -/
def flashDataWrtCrc (t : Trail) (data : List (BitVec 8)) : Trail :=
  let alignedLen := data.length/d.writeBlockSize*d.writeBlockSize
  let t := flashAlWrt d t t.fs.dataWra (data.take alignedLen)
  let t := t.set { t.fs with dataWra := (t.fs.dataWra+alignedLen)%2^32 }
  flashDataWrt d t (data.drop alignedLen++dataCrc data)

/-- `nvs_flash_wrt_entry` with CONFIG_NVS_DATA_CRC. -/
def flashWrtEntryCrc (t : Trail) (id : ℕ) (data : List (BitVec 8)) : Trail :=
  if data = [] then flashWrtEntry d t id data
  else
    let entry := newAte id (t.fs.dataWra%2^16) ((data.length+4)%2^16)
    flashAteWrt d (flashDataWrtCrc d t data) entry

/-- `nvs_write` of the first `len` bytes of a memory. -/
def writeFrom (crc : Bool) (t : Trail) (id : ℕ) (mem : ℕ → BitVec 8) (len : ℕ) : Option (Trail × Except Errno ℕ) :=
  let crcSize := if crc then 4 else 0
  let data := (range len).map mem
  if len > (d.sectorSize+(2^32-4*ateSize d-crcSize))%2^32 then some (t,.error .EINVAL)
  else writeChecked d t id len ((range (len+crcSize)).map mem) crcSize fun t =>
    if crc then flashWrtEntryCrc d t id data else flashWrtEntry d t id data

variable {d}

lemma writeFrom_false (t : Trail) (id : ℕ) (mem : ℕ → BitVec 8) (len : ℕ) :
    writeFrom d false t id mem len = write d t id ((range len).map mem) := by
  simp [writeFrom,write,below]

/-- Without the data CRC a call reads no other memory than its data, and writing what an id has
already changes no cell. -/
theorem runs_write_same (hroom : 4*ateSize d ≤ d.sectorSize) {as : List Action}
    (hcare : Along (Careful d) (step d) (mounted d) as) :
    ∃ y rs, serve? (keeping d) (mounted d,fun _ => none) as = some (y,rs) ∧ ∀ t, t.fs = y.1 → ∀ id mem len,
      (∀ mem', (∀ i < len, mem' i = mem i) → writeFrom d false t id mem' len = writeFrom d false t id mem len) ∧
      (Open d y.1 → id < 0xffff → y.2 id = written ((range len).map mem) →
        ∃ r, writeFrom d false t id mem len = some (t,r)) := by
  obtain ⟨y,rs,hserve,hholds⟩ := runs_hold hroom hcare
  refine ⟨y,rs,hserve,fun t ht id mem len => ⟨fun mem' hmem => ?_,fun hopen hid hsame => ?_⟩⟩
  · have hdata : (range len).map mem' = (range len).map mem :=
      map_congr_left fun i hi => hmem i (mem_range.mp hi)
    rw [writeFrom_false,writeFrom_false,hdata]
  · rw [← ht] at hholds hopen
    obtain ⟨t',r,hwrite,-,hkeep⟩ := hholds.write ((range len).map mem) hopen hid
    rw [writeFrom_false,hwrite,hkeep hsame]
    exact ⟨r,rfl⟩

end Calls

theorem runs_write_same_recycled : 4*ateSize twoSectors ≤ twoSectors.sectorSize ∧
    Along (Careful twoSectors) (step twoSectors) (mounted twoSectors) recycled ∧
    ∃ y rs, serve? (keeping twoSectors) (mounted twoSectors,fun _ => none) recycled = some (y,rs) ∧
      ∀ t, t.fs = y.1 → ∀ id mem len,
      (∀ mem', (∀ i < len, mem' i = mem i) →
        writeFrom twoSectors false t id mem' len = writeFrom twoSectors false t id mem len) ∧
      (Open twoSectors y.1 → id < 0xffff → y.2 id = written ((range len).map mem) →
        ∃ r, writeFrom twoSectors false t id mem len = some (t,r)) :=
  ⟨by decide,by decide +kernel,runs_write_same (by decide) (by decide +kernel)⟩

/-- With the data CRC the four bytes behind the data are compared to the CRC in flash: the same byte is written
again, unless its CRC happens to follow it in memory. -/
theorem crc_compares_memory_behind :
    ∃ t, writeFrom twoSectors true ⟨mounted twoSectors,[]⟩ 1 (fun i => [5].getD i 0) 1 = some (t,.ok 1) ∧
      (∃ t', writeFrom twoSectors true t 1 (fun i => [5].getD i 0) 1 = some (t',.ok 1) ∧
        ∃ i, t'.fs.flash i ≠ t.fs.flash i) ∧
      ∃ t', writeFrom twoSectors true t 1 (fun i => (5::dataCrc [5]).getD i 0) 1 = some (t',.ok 0) :=
  ⟨_,rfl,⟨_,rfl,8,by decide +kernel⟩,_,rfl⟩

end ArmFirmware.Zephyr.Nvs
