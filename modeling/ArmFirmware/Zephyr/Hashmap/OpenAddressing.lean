import ArmFirmware.Library.Probing
import ArmFirmware.Library.Trace
import ArmFirmware.Zephyr.Hashmap.Config

/-! The open-addressing, linear-probe hash map of `lib/hash/hash_map_oa_lp.c`. A removed
entry stays in its bucket as a tombstone, key and value included. -/
namespace ArmFirmware.Zephyr.Hashmap.OpenAddressing
open Library

inductive BucketState where
  | unused
  | used
  | tombstone
  deriving DecidableEq

structure OalpEntry where
  key : UInt64
  value : UInt64
  state : BucketState
  deriving DecidableEq

def zeroed : OalpEntry := ⟨0,0,.unused⟩

/-- `struct sys_hashmap_oa_lp_data`; null `buckets` are the empty list. -/
structure Data where
  buckets : List OalpEntry
  nBuckets : ℕ
  size : ℕ
  nTombstones : ℕ
  deriving DecidableEq

def empty : Data := ⟨[],0,0,0⟩

def Data.bucket (d : Data) (j : ℕ) : OalpEntry := d.buckets.getD j zeroed

/-- The probing loop of `sys_hashmap_oa_lp_find`, from the rounds left and the position
before masking. -/
def findLoop (d : Data) (key : UInt64) (usedOk unusedOk tombstoneOk : Bool) : ℕ → ℕ → Option ℕ
  | 0,_ => none
  | rounds+1,j =>
    let j := j &&& (d.nBuckets-1)
    let entry := d.bucket j
    let found := match entry.state with
      | .used => usedOk && entry.key == key
      | .unused => unusedOk
      | .tombstone => tombstoneOk
    if found then some j else findLoop d key usedOk unusedOk tombstoneOk rounds (j+1)

def sysHashmapOaLpFind (P : Params) (d : Data) (key : UInt64) (usedOk unusedOk tombstoneOk : Bool) : Option ℕ :=
  findLoop d key usedOk unusedOk tombstoneOk d.nBuckets (P.hashFunc key).toNat

/-- `sys_hashmap_oa_lp_insert_no_rehash`, without a result when the assertion that a bucket
was found fails. -/
def sysHashmapOaLpInsertNoRehash (P : Params) (d : Data) (key value : UInt64) : Option (Data × ℤ × UInt64) :=
  (sysHashmapOaLpFind P d key true true true).map fun j =>
    let entry := d.bucket j
    let counted : Data := match entry.state with
      | .unused => {d with size := (d.size+1) % 2^P.sizeBits}
      | .tombstone => {d with
          nTombstones := (d.nTombstones+2^P.sizeBits-1) % 2^P.sizeBits
          size := (d.size+1) % 2^P.sizeBits}
      | .used => d
    let ret : ℤ := match entry.state with
      | .unused => 1
      | .tombstone => 0
      | .used => 0
    ({counted with buckets := d.buckets.set j ⟨key,value,.used⟩},ret,entry.value)

/-- The loop that moves entries to the new buckets; it stops when `left` of them are moved. -/
def reinsert (P : Params) : Data → List OalpEntry → ℕ → Option Data
  | d,[],_ => some d
  | d,entry::old,left =>
    if left = 0 then some d
    else if entry.state = .used then
      (sysHashmapOaLpInsertNoRehash P d entry.key entry.value).bind fun r =>
        reinsert P r.1 old (left-1)
    else reinsert P d old left

def sysHashmapOaLpRehash (P : Params) (d : Data) (grow granted : Bool) : Option (Data × ℤ) :=
  let r := sysHashmapShouldRehash P.sizeBits P.cfg d.size d.nBuckets grow d.nTombstones
  if !r.1 then some (d,0)
  else if d.size ≠ 2^P.sizeBits-1 ∧ d.size = P.cfg.maxSize then some (d,-ENOSPC)
  else if r.2 ≠ 0 ∧ granted = false then some (d,-ENOMEM)
  else
    -- the count of tombstones is kept
    (reinsert P ⟨List.replicate r.2 zeroed,r.2,0,d.nTombstones⟩ d.buckets d.size).map (·,0)

/-- `sys_hashmap_oa_lp_clear`, with the entries its callback sees. -/
def sysHashmapOaLpClear (d : Data) : Data × List (UInt64 × UInt64) :=
  (empty,((d.buckets.filter (·.state = .used)).take d.size).map fun e => (e.key,e.value))

def sysHashmapOaLpInsert (P : Params) (d : Data) (key value : UInt64) (granted : Bool) :
    Option (Data × ℤ × Option UInt64) :=
  (sysHashmapOaLpRehash P d true granted).bind fun r =>
    if r.2 < 0 then some (r.1,r.2,none)
    else (sysHashmapOaLpInsertNoRehash P r.1 key value).map fun s => (s.1,s.2.1,some s.2.2)

def sysHashmapOaLpRemove (P : Params) (d : Data) (key : UInt64) (granted : Bool) :
    Option (Data × Bool × Option UInt64) :=
  match sysHashmapOaLpFind P d key true true false with
  | none => some (d,false,none)
  | some j =>
    let entry := d.bucket j
    if entry.state = .unused then some (d,false,none)
    else
      let buried : Data := {d with
        buckets := d.buckets.set j {entry with state := .tombstone}
        size := (d.size+2^P.sizeBits-1) % 2^P.sizeBits
        nTombstones := (d.nTombstones+1) % 2^P.sizeBits}
      (sysHashmapOaLpRehash P buried false granted).map fun r => (r.1,true,some entry.value)

def sysHashmapOaLpGet (P : Params) (d : Data) (key : UInt64) : Bool × Option UInt64 :=
  match sysHashmapOaLpFind P d key true true false with
  | none => (false,none)
  | some j =>
    let entry := d.bucket j
    if entry.state = .unused then (false,none) else (true,some entry.value)

/-- One call of the map interface with an allocator that grants every request. There is no
result when an entry finds no bucket. -/
def step (P : Params) (d : Data) : MapOp UInt64 UInt64 → Option (Data × MapReply UInt64 UInt64)
  | .insert key value =>
    (sysHashmapOaLpInsert P d key value true).map fun r => (r.1,.inserted r.2.1 r.2.2)
  | .remove key =>
    (sysHashmapOaLpRemove P d key true).map fun r => (r.1,.removed r.2.1 r.2.2)
  | .get key =>
    let r := sysHashmapOaLpGet P d key
    some (d,.got r.1 r.2)
  | .clear =>
    let r := sysHashmapOaLpClear d
    some (r.1,.cleared r.2)

/-- The allocation succeeds: an array of this many 24-byte entries exists. -/
def ArrayExists (P : Params) (n : ℕ) : Prop := n*24 < 2^P.sizeBits

/-- An insert finds the map below its maximum size and the assertion of
`sys_hashmap_should_rehash` satisfied, and the array it may grow to exists. -/
def Allowed (P : Params) (d : Data) : MapOp UInt64 UInt64 → Prop
  | .insert _ _ =>
    d.size < P.cfg.maxSize ∧ SizeAllowed P.sizeBits (d.size+1) ∧
      let r := sysHashmapShouldRehash P.sizeBits P.cfg d.size d.nBuckets true d.nTombstones
      (r.1 = true → ArrayExists P r.2)
  | _ => True

instance (P : Params) (d : Data) : ∀ op, Decidable (Allowed P d op) := by
  intro op
  unfold Allowed ArrayExists
  split <;> infer_instance

/-- Some bucket on the probe sequence of the key is unused or holds the key, and no
tombstone comes before it. -/
def ProbeClear (P : Params) (d : Data) (key : UInt64) : Prop :=
  ∃ i < d.nBuckets,
    ((d.bucket (((P.hashFunc key).toNat+i) % d.nBuckets)).state = .unused ∨
      (d.bucket (((P.hashFunc key).toNat+i) % d.nBuckets)).state = .used ∧
        (d.bucket (((P.hashFunc key).toNat+i) % d.nBuckets)).key = key) ∧
    ∀ j < i, (d.bucket (((P.hashFunc key).toNat+j) % d.nBuckets)).state ≠ .tombstone

instance (P : Params) (d : Data) (key : UInt64) : Decidable (ProbeClear P d key) :=
  inferInstanceAs (Decidable (∃ i < d.nBuckets, (_ ∨ _) ∧ ∀ j < i, _))

/-- The branches that go wrong are not taken: an insert into a table that does not grow has
a clear probe sequence, and a removal does not shrink the table below its entries. -/
def Unobstructed (P : Params) (d : Data) : MapOp UInt64 UInt64 → Prop
  | .insert key _ =>
    (sysHashmapShouldRehash P.sizeBits P.cfg d.size d.nBuckets true d.nTombstones).1 = false →
      ProbeClear P d key
  | .remove key =>
    let r := sysHashmapShouldRehash P.sizeBits P.cfg (d.size-1) d.nBuckets false
      ((d.nTombstones+1) % 2^P.sizeBits)
    (∃ e ∈ d.buckets, e.state = .used ∧ e.key = key) → r.1 = true → d.size-1 ≤ r.2
  | _ => True

instance (P : Params) (d : Data) : ∀ op, Decidable (Unobstructed P d op) := by
  intro op
  unfold Unobstructed
  split <;> infer_instance

/-! The open-addressing hash map as a finite map, along the runs that never let an insert
stop at a tombstone. -/

open List Nat Function Option OalpEntry Data Slot Prod

attribute [local simp] Decides sysHashmapOaLpGet step

/-- A bucket as a slot of a probing table; what a tombstone still holds is forgotten. -/
def OalpEntry.slot (e : OalpEntry) : Slot UInt64 UInt64 :=
  match e.state with
  | .unused => .free
  | .used => .used e.key e.value
  | .tombstone => .deleted

attribute [local simp] slot

def Data.slots (d : Data) : List (Slot UInt64 UInt64) := d.buckets.map slot

@[simp] lemma slot_zeroed : zeroed.slot = .free := rfl

def hash (P : Params) (key : UInt64) : ℕ := (P.hashFunc key).toNat

/-- The array is as long as it is said to be, and empty or a power of two long. -/
structure Shaped (d : Data) : Prop where
  length_eq : d.buckets.length = d.nBuckets
  pow : d.nBuckets = 0 ∨ ∃ k, d.nBuckets = 2^k

section Search
variable {P : Params} {d : Data} {key : UInt64}

lemma Shaped.slots_length (h : Shaped d) : d.slots.length = d.nBuckets := by
  rw [slots,length_map,h.length_eq]

lemma Shaped.mask (h : Shaped d) (hpos : 0 < d.nBuckets) (j : ℕ) : j &&& (d.nBuckets-1) = j % d.nBuckets := by
  obtain hz | ⟨k,hk⟩ := h.pow
  · omega
  · rw [hk,and_two_pow_sub_one_eq_mod]

lemma Shaped.probe_eq (h : Shaped d) (a i : ℕ) : probe d.slots a i = (a+i) % d.nBuckets := by
  rw [probe,h.slots_length]

lemma Shaped.get_slot (h : Shaped d) {j : ℕ} (hj : j < d.nBuckets) : d.slots[j]? = some (d.bucket j).slot := by
  have hlt : j < d.buckets.length := by rw [h.length_eq]; exact hj
  simp [slots,bucket,hlt]

def found (key : UInt64) (usedOk unusedOk tombstoneOk : Bool) (e : OalpEntry) : Bool :=
  match e.state with
  | .used => usedOk && e.key == key
  | .unused => unusedOk
  | .tombstone => tombstoneOk

/-- The loop stops at the first bucket it looks for on the way. -/
lemma findLoop_spec (hd : Shaped d) (key : UInt64) (u n t : Bool) (a rounds i j : ℕ)
    (hi : i+rounds = d.nBuckets) (hj : j % d.nBuckets = (a+i) % d.nBuckets) :
    (∃ l, i ≤ l ∧ l < d.nBuckets ∧ findLoop d key u n t rounds j = some ((a+l) % d.nBuckets) ∧
      found key u n t (d.bucket ((a+l) % d.nBuckets)) = true ∧
      ∀ l', i ≤ l' → l' < l → found key u n t (d.bucket ((a+l') % d.nBuckets)) = false) ∨
    (findLoop d key u n t rounds j = none ∧
      ∀ l, i ≤ l → l < d.nBuckets → found key u n t (d.bucket ((a+l) % d.nBuckets)) = false) := by
  induction rounds generalizing i j with
  | zero =>
    right
    exact ⟨rfl,fun l h₁ h₂ => by omega⟩
  | succ rounds ih =>
    have hmask := hd.mask (by omega) j
    have hloop : findLoop d key u n t (rounds+1) j =
        if found key u n t (d.bucket ((a+i) % d.nBuckets)) then some ((a+i) % d.nBuckets)
        else findLoop d key u n t rounds ((a+i) % d.nBuckets+1) := by
      rw [findLoop,hmask,hj]
      rfl
    rw [hloop]
    cases hf : found key u n t (d.bucket ((a+i) % d.nBuckets)) with
    | true =>
      left
      exact ⟨i,le_refl i,by omega,by simp,hf,fun l' h₁ h₂ => by omega⟩
    | false =>
      have hnext : ((a+i) % d.nBuckets+1) % d.nBuckets = (a+(i+1)) % d.nBuckets := by
        rw [mod_add_mod,add_assoc]
      obtain ⟨l,h₁,h₂,h₃,h₄,h₅⟩ | ⟨h₁,h₂⟩ := ih (i+1) _ (by omega) hnext
      · refine .inl ⟨l,by omega,h₂,by simpa using h₃,h₄,fun l' hl hl' => ?_⟩
        obtain rfl | hlt := eq_or_lt_of_le hl
        · exact hf
        · exact h₅ l' hlt hl'
      · refine .inr ⟨by simpa using h₁,fun l hl hl' => ?_⟩
        obtain rfl | hlt := eq_or_lt_of_le hl
        · exact hf
        · exact h₂ l hlt hl'

variable {e : OalpEntry}

lemma found_lookup_iff : found key true true false e = true ↔ Decides key e.slot := by
  obtain ⟨k,v,s⟩ := e
  cases s <;> simp [found]

lemma found_insert_iff : found key true true true e = true ↔ Decides key e.slot ∨ e.state = .tombstone := by
  obtain ⟨k,v,s⟩ := e
  cases s <;> simp [found]

/-- The buckets before the one the loop stops at are passed by a search for the key. -/
lemma Shaped.stopsAt (hd : Shaped d) {a l : ℕ} (hl : l < d.nBuckets)
    (hstop : Decides key (d.bucket ((a+l) % d.nBuckets)).slot)
    (hfirst : ∀ l' < l, ¬Decides key (d.bucket ((a+l') % d.nBuckets)).slot) :
    StopsAt (Decides key) d.slots a l (d.bucket ((a+l) % d.nBuckets)).slot := by
  refine ⟨by rwa [hd.slots_length],?_,hstop,fun j hj y hy => ?_⟩
  · rw [hd.probe_eq]
    exact hd.get_slot (mod_lt _ (by omega))
  · rw [hd.probe_eq,hd.get_slot (mod_lt _ (by omega))] at hy
    rw [← some.inj hy]
    exact hfirst j hj

theorem find_lookup (P : Params) (key : UInt64) (hd : Shaped d) :
    (∃ i, sysHashmapOaLpFind P d key true true false = some ((hash P key+i) % d.nBuckets) ∧
      i < d.nBuckets ∧ StopsAt (Decides key) d.slots (hash P key) i (d.bucket ((hash P key+i) % d.nBuckets)).slot) ∨
    (sysHashmapOaLpFind P d key true true false = none ∧
      ∀ i < d.slots.length, ∀ x, d.slots[probe d.slots (hash P key) i]? = some x → ¬Decides key x) := by
  obtain ⟨i,-,hi,hf,hstop,hfirst⟩ | ⟨hf,hall⟩ :=
    findLoop_spec hd key true true false (hash P key) d.nBuckets 0 (hash P key) (by omega) rfl
  · refine .inl ⟨i,hf,hi,hd.stopsAt hi (found_lookup_iff.mp hstop) fun j hj => ?_⟩
    rw [← found_lookup_iff,hfirst j (by omega) hj]
    simp
  · refine .inr ⟨hf,fun i hi x hx => ?_⟩
    rw [hd.slots_length] at hi
    rw [hd.probe_eq,hd.get_slot (mod_lt _ (by omega))] at hx
    rw [← some.inj hx,← found_lookup_iff,hall i (by omega) hi]
    simp

/-- The search before an insertion stops where the key belongs. -/
theorem find_insert (hd : Shaped d) (hclear : ProbeClear P d key) :
    ∃ i, sysHashmapOaLpFind P d key true true true = some ((hash P key+i) % d.nBuckets) ∧
      i < d.nBuckets ∧ StopsAt (Decides key) d.slots (hash P key) i
        (d.bucket ((hash P key+i) % d.nBuckets)).slot := by
  obtain ⟨c,hc,hstop,hbefore⟩ := hclear
  change ((d.bucket ((hash P key+c) % d.nBuckets)).state = .unused ∨
    (d.bucket ((hash P key+c) % d.nBuckets)).state = .used ∧
      (d.bucket ((hash P key+c) % d.nBuckets)).key = key) at hstop
  have hdec : Decides key (d.bucket ((hash P key+c) % d.nBuckets)).slot := by
    obtain h | ⟨h,hk⟩ := hstop
    · simp [h]
    · simp [h,hk]
  obtain ⟨i,-,hi,hf,hs,hfirst⟩ | ⟨-,hall⟩ :=
    findLoop_spec hd key true true true (hash P key) d.nBuckets 0 (hash P key) (by omega) rfl
  · have hic : i ≤ c := by
      by_contra hlt
      have := hfirst c (by omega) (by omega)
      rw [found_insert_iff.mpr (.inl hdec)] at this
      contradiction
    refine ⟨i,hf,hi,hd.stopsAt hi ?_ fun j hj hd' => ?_⟩
    · obtain h | h := found_insert_iff.mp hs
      · exact h
      · -- a tombstone at the clear bucket, or before it
        obtain hlt | rfl := lt_or_eq_of_le hic
        · exact absurd h (hbefore i hlt)
        · exact hdec
    · have := hfirst j (by omega) hj
      rw [found_insert_iff.mpr (.inl hd')] at this
      contradiction
  · have := hall c (by omega) hc
    rw [found_insert_iff.mpr (.inl hdec)] at this
    contradiction

lemma probeClear_of_room (P : Params) (key : UInt64) (hd : Shaped d) (hdel : deleted ∉ d.slots)
    (hroom : (entries d.slots).length < d.nBuckets) : ProbeClear P d key := by
  rw [← hd.slots_length] at hroom
  obtain ⟨i,hi,x,hx,hdec⟩ := exists_stop hroom hdel (hash P key)
  rw [hd.slots_length] at hi
  have hslot : ∀ j, d.slots[probe d.slots (hash P key) j]? =
      some (d.bucket (((P.hashFunc key).toNat+j) % d.nBuckets)).slot := by
    intro j
    rw [hd.probe_eq]
    exact hd.get_slot (mod_lt _ (by omega))
  refine ⟨i,hi,?_,fun j hj htomb => ?_⟩
  · rw [hslot] at hx
    rw [← some.inj hx] at hdec
    cases hs : (d.bucket (((P.hashFunc key).toNat+i) % d.nBuckets)).state with
    | unused => exact .inl rfl
    | used => exact .inr ⟨rfl,by simpa [hs] using hdec⟩
    | tombstone => simp [hs] at hdec
  · refine hdel (mem_of_getElem? ((hslot j).trans ?_))
    simp [htomb]

end Search

/-- A table in which every key can be found and the entries are counted. -/
structure Table (P : Params) (d : Data) : Prop extends Shaped d where
  chained : Chained (hash P) d.slots
  size_eq : d.size = (entries d.slots).length

section Table
variable {P : Params} {d : Data} {key value : UInt64} {i : ℕ}

def Data.write (d : Data) (j : ℕ) (e : OalpEntry) (size : ℕ) : Data :=
  {d with buckets := d.buckets.set j e, size := size}

lemma slots_write (j : ℕ) (e : OalpEntry) (size : ℕ) : (d.write j e size).slots = d.slots.set j e.slot := by
  rw [slots,slots,write,map_set]

lemma Shaped.write (h : Shaped d) (j : ℕ) (e : OalpEntry) (size : ℕ) : Shaped (d.write j e size) :=
  ⟨by simpa [Data.write] using h.length_eq,h.pow⟩

/-- A new key gets an unused bucket. -/
lemma insertNoRehash_free (h : Table P d) (hlt : d.size+1 < 2^P.sizeBits)
    (hf : sysHashmapOaLpFind P d key true true true = some ((hash P key+i) % d.nBuckets))
    (hs : StopsAt (Decides key) d.slots (hash P key) i (d.bucket ((hash P key+i) % d.nBuckets)).slot)
    (hu : (d.bucket ((hash P key+i) % d.nBuckets)).state = .unused) (value : UInt64) :
    ∃ d' old, sysHashmapOaLpInsertNoRehash P d key value = some (d',1,old) ∧ Table P d' ∧
      d'.nBuckets = d.nBuckets ∧ d'.size = d.size+1 ∧
      d'.slots = d.slots.set ((hash P key+i) % d.nBuckets) (.used key value) ∧
      (entries d'.slots).Perm ((key,value)::entries d.slots) := by
  have hx : (d.bucket ((hash P key+i) % d.nBuckets)).slot = .free := by simp [hu]
  rw [hx] at hs
  have hslots := slots_write (d := d) ((hash P key+i) % d.nBuckets) ⟨key,value,.used⟩ (d.size+1)
  have hperm := entries_use_free hs (v := value)
  have hchain := h.chained.use hs (v := value)
  rw [h.probe_eq] at hperm hchain
  refine ⟨d.write ((hash P key+i) % d.nBuckets) ⟨key,value,.used⟩ (d.size+1),
    (d.bucket ((hash P key+i) % d.nBuckets)).value,?_,⟨h.write _ _ _,?_,?_⟩,rfl,rfl,hslots,?_⟩
  · rw [sysHashmapOaLpInsertNoRehash,hf,map_some]
    simp only [hu,mod_eq_of_lt hlt]
    rfl
  · rw [hslots]
    exact hchain
  · rw [hslots]
    rw [h.size_eq]
    exact hperm.length_eq.symm
  · rw [hslots]
    exact hperm

/-- The value of a key is replaced. -/
lemma insertNoRehash_used (h : Table P d) {m : UInt64 → Option UInt64} (hm : Represents (entries d.slots) m)
    (hf : sysHashmapOaLpFind P d key true true true = some ((hash P key+i) % d.nBuckets))
    (hs : StopsAt (Decides key) d.slots (hash P key) i (d.bucket ((hash P key+i) % d.nBuckets)).slot)
    (hu : (d.bucket ((hash P key+i) % d.nBuckets)).state = .used) (value : UInt64) :
    ∃ d' old, sysHashmapOaLpInsertNoRehash P d key value = some (d',0,old) ∧ m key = some old ∧
      Table P d' ∧ d'.nBuckets = d.nBuckets ∧ d'.size = d.size ∧
      Represents (entries d'.slots) (update m key (some value)) := by
  obtain ⟨e,he⟩ : ∃ e, d.bucket ((hash P key+i) % d.nBuckets) = e := ⟨_,rfl⟩
  rw [he] at hs hu
  have hkey : e.key = key := by
    have := hs.stops
    simpa [hu] using this
  have hx : e.slot = .used key e.value := by simp [hu,hkey]
  rw [hx] at hs
  have hslots := slots_write (d := d) ((hash P key+i) % d.nBuckets) ⟨key,value,.used⟩ d.size
  obtain ⟨hrep,hlen⟩ := represents_use_used hm hs
  have hchain := h.chained.use hs (v := value)
  rw [h.probe_eq] at hrep hchain hlen
  refine ⟨d.write ((hash P key+i) % d.nBuckets) ⟨key,value,.used⟩ d.size,_,?_,lookup_used hm hs,
    ⟨h.write _ _ _,?_,?_⟩,rfl,rfl,?_⟩
  · rw [sysHashmapOaLpInsertNoRehash,hf,map_some,he]
    simp only [hu]
    rfl
  · rw [hslots]
    exact hchain
  · rw [hslots]
    exact h.size_eq.trans hlen.symm
  · rw [hslots]
    exact hrep

/-- The entries of the old array are inserted in the new one. -/
lemma reinsert_spec (old : List OalpEntry) (left : ℕ) (h : Table P d)
    (hdel : deleted ∉ d.slots) (hlt : d.nBuckets < 2^P.sizeBits) (hleft : left = (entries (old.map slot)).length)
    (hroom : d.size+left ≤ d.nBuckets) (hnodup : ((entries d.slots ++ entries (old.map slot)).map fst).Nodup) :
    ∃ d', reinsert P d old left = some d' ∧ Table P d' ∧ deleted ∉ d'.slots ∧ d'.nBuckets = d.nBuckets ∧
      (entries d'.slots).Perm (entries d.slots ++ entries (old.map slot)) := by
  induction old generalizing d left with
  | nil => exact ⟨d,rfl,h,hdel,rfl,by simp [entries]⟩
  | cons e old ih =>
    by_cases hz : left = 0
    · -- the entries that are left are none
      subst hz
      have hnil := eq_nil_of_length_eq_zero hleft.symm
      exact ⟨d,by rw [reinsert,if_pos rfl],h,hdel,rfl,by rw [hnil,append_nil]⟩
    · rw [reinsert,if_neg hz]
      by_cases hu : e.state = .used
      · have he : e.slot = .used e.key e.value := by simp [hu]
        have hcons : entries ((e::old).map slot) = (e.key,e.value)::entries (old.map slot) := by
          rw [map_cons,he,entries,filterMap_cons]
          rfl
        rw [hcons] at hleft hnodup ⊢
        rw [length_cons] at hleft
        have hsize := h.size_eq
        obtain ⟨i,hf,-,hs⟩ := find_insert h.toShaped
          (probeClear_of_room P e.key h.toShaped hdel (by omega))
        -- the key is not in the new table yet
        have hfree : (d.bucket ((hash P e.key+i) % d.nBuckets)).state = .unused := by
          cases hst : (d.bucket ((hash P e.key+i) % d.nBuckets)).state with
          | unused => rfl
          | tombstone =>
            have := hs.stops
            simp [hst] at this
          | used =>
            have hk := hs.stops
            have hget := hs.get
            simp only [slot,hst,Decides] at hk hget
            rw [hk] at hget
            have hmem := mem_map_of_mem (f := fst) (mem_entries.mpr ⟨_,hget⟩)
            rw [map_append,map_cons,nodup_append] at hnodup
            exact absurd rfl (hnodup.2.2 _ hmem _ (mem_cons_self ..))
        obtain ⟨d₁,o,hins,ht,hn,hsz,hslots,hperm⟩ := insertNoRehash_free h (by omega) hf hs
          hfree e.value
        have hdel₁ : deleted ∉ d₁.slots := by
          rw [hslots]
          intro hmem
          obtain hmem | hmem := mem_or_eq_of_mem_set hmem
          · exact hdel hmem
          · contradiction
        have hmove := (hperm.append_right (entries (old.map slot))).trans
          (perm_middle).symm
        obtain ⟨d',hre,ht',hd',hn',hp'⟩ := ih (left-1) ht hdel₁ (by omega) (by omega) (by omega)
          ((hmove.map fst).nodup_iff.mpr hnodup)
        refine ⟨d',?_,ht',hd',hn'.trans hn,hp'.trans hmove⟩
        rw [if_pos hu,hins]
        exact hre
      · have hcons : entries ((e::old).map slot) = entries (old.map slot) := by
          have : e.slot.pair? = none := by
            cases hst : e.state with
            | used => exact absurd hst hu
            | unused => simp [hst]
            | tombstone => simp [hst]
          rw [map_cons,entries,filterMap_cons,this]
          rfl
        rw [hcons] at hleft hnodup ⊢
        rw [if_neg hu]
        exact ih left h hdel hlt hleft hroom hnodup

lemma table_fresh {n : ℕ} (hn : n = 0 ∨ ∃ k, n = 2^k) (nTombstones : ℕ) :
    Table P ⟨replicate n zeroed,n,0,nTombstones⟩ ∧
      (⟨replicate n zeroed,n,0,nTombstones⟩ : Data).slots = replicate n .free := by
  have hslots : (⟨replicate n zeroed,n,0,nTombstones⟩ : Data).slots = replicate n .free := by
    rw [slots,map_replicate,slot_zeroed]
  refine ⟨⟨⟨by simp,hn⟩,?_,?_⟩,hslots⟩
  · rw [hslots]
    exact chained_replicate_free n
  · rw [hslots,entries_replicate_free]
    rfl

lemma rehash_spec {grow : Bool} (h : Table P d) (hnodup : ((entries d.slots).map fst).Nodup)
    (hmax : d.size ≠ P.cfg.maxSize) {n : ℕ} {should : Bool}
    (hr : sysHashmapShouldRehash P.sizeBits P.cfg d.size d.nBuckets grow d.nTombstones = (should,n))
    (hpow : n = 0 ∨ ∃ k, n = 2^k) (hlt : n < 2^P.sizeBits) (hroom : should = true → d.size ≤ n) :
    ∃ d', sysHashmapOaLpRehash P d grow true = some (d',0) ∧ Table P d' ∧
      (entries d'.slots).Perm (entries d.slots) ∧ d'.size = d.size ∧
      (should = true → deleted ∉ d'.slots ∧ d'.nBuckets = n) ∧ (should = false → d' = d) := by
  cases should with
  | false => exact ⟨d,by simp [sysHashmapOaLpRehash,hr],h,.refl _,rfl,by simp,fun _ => rfl⟩
  | true =>
    obtain ⟨hfresh,hslots⟩ := table_fresh hpow d.nTombstones
    obtain ⟨d',hre,ht,hdel,hn,hperm⟩ := reinsert_spec d.buckets d.size hfresh
      (by rw [hslots]; simp [mem_replicate]) hlt h.size_eq
      (by have := hroom rfl; simp only; omega)
      (by rw [hslots,entries_replicate_free]; exact hnodup)
    rw [hslots,entries_replicate_free,nil_append] at hperm
    refine ⟨d',?_,ht,hperm,?_,fun _ => ⟨hdel,hn⟩,by simp⟩
    · simp [sysHashmapOaLpRehash,hr,hmax,hre]
    · rw [ht.size_eq,h.size_eq]
      exact hperm.length_eq

end Table

/-- The table represents the map, within its limits. -/
structure Inv (P : Params) (d : Data) (m : UInt64 → Option UInt64) : Prop extends Table P d where
  represents : Represents (entries d.slots) m
  size_pos_iff : 0 < d.size ↔ 0 < d.nBuckets
  size_allowed : SizeAllowed P.sizeBits d.size
  size_le_max : d.size ≤ P.cfg.maxSize
  array_exists : ArrayExists P d.nBuckets

section Calls
variable {P : Params} {d : Data} {m : UInt64 → Option UInt64} {key value : UInt64}

lemma two_mul_lt {n : ℕ} (h : ArrayExists P n) : 2*n < 2^P.sizeBits := by
  unfold ArrayExists at h
  omega

theorem inv_empty : Inv P empty (fun _ => none) := by
  have h32 : 2^32 ≤ 2^P.sizeBits := Nat.pow_le_pow_right (by omega) P.sizeBits_le
  refine ⟨⟨⟨rfl,.inl rfl⟩,?_,rfl⟩,Represents.nil,by simp [empty],?_,zero_le _,?_⟩
  · intro s k v hs
    simp [slots,empty] at hs
  · change 0 < (2^P.sizeBits-1)/100
    omega
  · change 0*24 < 2^P.sizeBits
    omega

section
variable (h : Inv P d m)
include h

lemma Inv.size_le : d.size ≤ d.nBuckets := by
  rw [h.size_eq,← h.slots_length]
  exact entries_length_le

variable {maxSize lf : ℕ}

/-- Whether an insertion rehashes, and to how many buckets. -/
lemma Inv.grow_cases (hcfg : P.cfg = sysHashmapConfig maxSize lf)
    (h₁ : 1 ≤ lf) (h₂ : lf ≤ 100) (hs : SizeAllowed P.sizeBits (d.size+1)) :
    ∃ should n, sysHashmapShouldRehash P.sizeBits P.cfg d.size d.nBuckets true d.nTombstones =
        (should,n) ∧ (∃ k, n = 2^k) ∧ n < 2^P.sizeBits ∧ d.size < n ∧ (should = false → 0 < d.nBuckets) := by
  obtain hz | hpos := Nat.eq_zero_or_pos d.size
  · have hn : d.nBuckets = 0 := by
      have := h.size_pos_iff
      omega
    obtain ⟨k,hk,hinit⟩ := initialNBuckets_eq maxSize h₁ (by omega)
    rw [← hcfg] at hinit
    have hpow : 2^k < 2^P.sizeBits :=
      Nat.pow_lt_pow_right (by omega) (lt_of_le_of_lt hk (by have := P.sizeBits_le; omega))
    have h2 : 2^1 ≤ 2^P.sizeBits := Nat.pow_le_pow_right (by omega) (by have := P.sizeBits_le; omega)
    refine ⟨true,P.cfg.initialNBuckets,?_,⟨k,hinit⟩,by rw [hinit]; exact hpow,?_,by simp⟩
    · rw [hz,hn]
      exact shouldRehash_first h2 (by rw [hinit]; exact hpow)
    · rw [hz,hinit]
      positivity
  · have hn := h.size_pos_iff.mp hpos
    have hle := h.size_le
    obtain hz | ⟨k,hk⟩ := h.pow
    · omega
    · refine ⟨_,2*d.nBuckets,shouldRehash_grow hs hpos (two_mul_lt h.array_exists),
        ⟨k+1,by rw [hk,Nat.pow_succ,mul_comm]⟩,two_mul_lt h.array_exists,by omega,
        fun _ => hn⟩

/-- The rehash before an insertion keeps the map. -/
lemma Inv.rehash_grow (hcfg : P.cfg = sysHashmapConfig maxSize lf)
    (h₁ : 1 ≤ lf) (h₂ : lf ≤ 100) (hok : Allowed P d (.insert key value))
    (hclear : Unobstructed P d (.insert key value)) :
    ∃ d', sysHashmapOaLpRehash P d true true = some (d',0) ∧ Table P d' ∧
      Represents (entries d'.slots) m ∧ d'.size = d.size ∧ 0 < d'.nBuckets ∧
      ArrayExists P d'.nBuckets ∧ ProbeClear P d' key := by
  obtain ⟨hmax,hs,harray⟩ := hok
  obtain ⟨should,n,hr,hpow,hlt,hsize,hpos⟩ := h.grow_cases hcfg h₁ h₂ hs
  obtain ⟨d',hre,ht,hperm,hsz,hgrown,hkept⟩ := rehash_spec h.toTable h.represents.nodup
    (by omega) hr (.inr hpow) hlt (fun _ => by omega)
  refine ⟨d',hre,ht,h.represents.perm hperm.symm,hsz,?_⟩
  cases should with
  | true =>
    obtain ⟨hdel,hn⟩ := hgrown rfl
    have := ht.size_eq
    refine ⟨by omega,?_,probeClear_of_room P key ht.toShaped hdel (by omega)⟩
    rw [hn]
    rw [hr] at harray
    exact harray rfl
  | false =>
    obtain rfl := hkept rfl
    exact ⟨hpos rfl,h.array_exists,hclear (by rw [hr])⟩

/-- An insertion is one in the map. -/
theorem Inv.insert (hcfg : P.cfg = sysHashmapConfig maxSize lf)
    (h₁ : 1 ≤ lf) (h₂ : lf ≤ 100) (hok : Allowed P d (.insert key value))
    (hclear : Unobstructed P d (.insert key value)) : ∃ d' o, step P d (.insert key value) = some (d',o) ∧
      MapStep m (.insert key value) o (update m key (some value)) ∧ Inv P d' (update m key (some value)) := by
  obtain ⟨d₁,hre,ht,hrep,hsz,hpos,harray,hprobe⟩ := h.rehash_grow hcfg h₁ h₂ hok hclear
  obtain ⟨hmax,hs,-⟩ := hok
  have hlt := size_lt_pow hs
  obtain ⟨i,hf,hi,hstop⟩ := find_insert ht.toShaped hprobe
  cases hst : (d₁.bucket ((hash P key+i) % d₁.nBuckets)).state with
  | unused =>
    have hfree := hstop
    rw [show (d₁.bucket ((hash P key+i) % d₁.nBuckets)).slot = .free by
      simp [hst]] at hfree
    have hnew := lookup_free ht.chained hrep hfree
    obtain ⟨d',old,hins,ht',hn,hsz',-,hperm⟩ := insertNoRehash_free ht (by omega) hf hstop hst value
    refine ⟨d',.inserted 1 (some old),by simp [sysHashmapOaLpInsert,hre,hins],
      .insert_new _ _ _ _ hnew,ht',(hrep.insert hnew).perm hperm.symm,by omega,?_,by omega,
      by rw [hn]; exact harray⟩
    rw [hsz',hsz]
    exact hs
  | used =>
    obtain ⟨d',old,hins,hold,ht',hn,hsz',hrep'⟩ := insertNoRehash_used ht hrep hf hstop hst value
    have hle := ht.size_eq
    have hmem : 0 < d₁.size := by
      rw [hle]
      exact length_pos_of_mem ((hrep.mem_iff _ _).mpr hold)
    refine ⟨d',.inserted 0 (some old),by simp [sysHashmapOaLpInsert,hre,hins],
      .insert_existing _ _ _ _ hold,ht',hrep',by omega,?_,by omega,by rw [hn]; exact harray⟩
    rw [hsz',hsz]
    exact h.size_allowed
  | tombstone =>
    have := hstop.stops
    simp [hst] at this

lemma Inv.shrink_cases {size : ℕ} (hsz : d.size = size+1) (nTombstones : ℕ) :
    ∃ should n, sysHashmapShouldRehash P.sizeBits P.cfg size d.nBuckets false nTombstones =
        (should,n) ∧ (n = 0 ∨ ∃ k, n = 2^k) ∧ n ≤ d.nBuckets ∧ (size = 0 → should = true ∧ n = 0) := by
  obtain rfl | hpos := Nat.eq_zero_or_pos size
  · exact ⟨true,0,shouldRehash_empty,.inl rfl,zero_le _,fun _ => ⟨rfl,rfl⟩⟩
  · have htwo := two_mul_lt h.array_exists
    have hs : SizeAllowed P.sizeBits size := lt_of_le_of_lt (by omega) h.size_allowed
    refine ⟨_,d.nBuckets/2,shouldRehash_shrink hs hpos (by omega),?_,div_le_self _ _,
      by omega⟩
    obtain hz | ⟨k,hk⟩ := h.pow
    · exact .inl (by omega)
    · cases k with
      | zero => exact .inl (by omega)
      | succ k => exact .inr ⟨k,by rw [hk,Nat.pow_succ,Nat.mul_div_cancel _ (by omega)]⟩

/-- A removed key leaves a tombstone, or a smaller table without it. -/
theorem Inv.remove_existing (hroom : Unobstructed P d (.remove key)) {i : ℕ}
    (hf : sysHashmapOaLpFind P d key true true false = some ((hash P key+i) % d.nBuckets)) (hi : i < d.nBuckets)
    (hs : StopsAt (Decides key) d.slots (hash P key) i (d.bucket ((hash P key+i) % d.nBuckets)).slot)
    (hu : (d.bucket ((hash P key+i) % d.nBuckets)).state = .used) :
    ∃ d' v, sysHashmapOaLpRemove P d key true = some (d',true,some v) ∧ m key = some v ∧
      Inv P d' (update m key none) := by
  obtain ⟨e,he⟩ : ∃ e, d.bucket ((hash P key+i) % d.nBuckets) = e := ⟨_,rfl⟩
  rw [he] at hs hu
  have hkey : e.key = key := by
    have := hs.stops
    simpa [hu] using this
  rw [show e.slot = .used key e.value by simp [hu,hkey]] at hs
  obtain ⟨hrep,hlen⟩ := represents_delete h.represents hs
  rw [h.probe_eq] at hrep hlen
  obtain ⟨size,hsz⟩ : ∃ size, d.size = size+1 := ⟨_,h.size_eq.trans hlen.symm⟩
  have hlt := size_lt_pow h.size_allowed
  have hwrap : (d.size+2^P.sizeBits-1) % 2^P.sizeBits = size := by
    rw [show d.size+2^P.sizeBits-1 = size+2^P.sizeBits by omega,add_mod_right]
    exact mod_eq_of_lt (by omega)
  -- the table with the tombstone, before it is rehashed
  let buried : Data := {d.write ((hash P key+i) % d.nBuckets) {e with state := .tombstone} size with
    nTombstones := (d.nTombstones+1) % 2^P.sizeBits}
  have hslots : buried.slots = d.slots.set ((hash P key+i) % d.nBuckets) .deleted :=
    slots_write ((hash P key+i) % d.nBuckets) {e with state := .tombstone} size
  have hshape := h.toShaped.write ((hash P key+i) % d.nBuckets) {e with state := .tombstone} size
  have ht : Table P buried := by
    refine ⟨⟨hshape.length_eq,hshape.pow⟩,?_,?_⟩
    · rw [hslots]
      exact h.chained.delete
    · rw [hslots]
      change size = _
      have := h.size_eq
      omega
  rw [← hslots] at hrep
  obtain ⟨should,n,hr,hpow,hle,hempty⟩ := h.shrink_cases hsz ((d.nTombstones+1) % 2^P.sizeBits)
  have hmax := h.size_le_max
  have hmem : e ∈ d.buckets := by
    have hlt' : (hash P key+i) % d.nBuckets < d.buckets.length := by
      rw [h.length_eq]
      exact mod_lt _ (by omega)
    rw [← he,bucket]
    simp [hlt']
  have hfit : should = true → size ≤ n := by
    intro hshould
    have := hroom ⟨e,hmem,hu,hkey⟩
    rw [hsz,Nat.add_sub_cancel,hr] at this
    exact this hshould
  have htwo := two_mul_lt h.array_exists
  obtain ⟨d',hre,ht',hperm,hsz',hshrunk,hkept⟩ := rehash_spec ht hrep.nodup
    (show size ≠ P.cfg.maxSize by omega) hr hpow (by omega) hfit
  have hn' : d'.nBuckets = if should then n else d.nBuckets := by
    cases should with
    | true => exact (hshrunk rfl).2
    | false => rw [hkept rfl]; rfl
  change d'.size = size at hsz'
  refine ⟨d',e.value,?_,lookup_used h.represents hs,ht',hrep.perm hperm.symm,?_,?_,by omega,?_⟩
  · rw [sysHashmapOaLpRemove,hf]
    simp only [he,hu,hwrap]
    rw [if_neg (by simp)]
    change (sysHashmapOaLpRehash P buried false true).map _ = _
    rw [hre]
    rfl
  · have hpos := h.size_pos_iff
    rw [hsz',hn']
    cases should with
    | true =>
      have := hfit rfl
      simp only [if_true]
      omega
    | false =>
      have : size ≠ 0 := fun hz => by simpa using (hempty hz).1
      simp only [Bool.false_eq_true,if_false]
      omega
  · exact lt_of_le_of_lt (by omega) h.size_allowed
  · have harray := h.array_exists
    unfold ArrayExists at harray ⊢
    rw [hn']
    split_ifs <;> omega

end

lemma cleared_eq (h : Table P d) : (sysHashmapOaLpClear d).2 = entries d.slots := by
  have hpairs : (d.buckets.filter (·.state = .used)).map (fun e => (e.key,e.value)) = entries d.slots := by
    rw [slots,entries]
    induction d.buckets with
    | nil => rfl
    | cons e es ih =>
      rw [map_cons,filterMap_cons]
      cases hst : e.state <;> simp [hst,ih]
  have hsize := h.size_eq
  rw [← hpairs,length_map] at hsize
  rw [sysHashmapOaLpClear,hsize,take_length,hpairs]

/-- One call of the interface refines one call on the map. -/
theorem step_refines {maxSize lf : ℕ} (hcfg : P.cfg = sysHashmapConfig maxSize lf) (h₁ : 1 ≤ lf)
    (h₂ : lf ≤ 100) (op : MapOp UInt64 UInt64) (h : Inv P d m) (hok : Allowed P d op ∧ Unobstructed P d op) :
    ∃ d' o m', step P d op = some (d',o) ∧ MapStep m op o m' ∧ Inv P d' m' := by
  cases op with
  | insert key value =>
    obtain ⟨d',o,he,hs,hi⟩ := h.insert hcfg h₁ h₂ hok.1 hok.2
    exact ⟨d',o,_,he,hs,hi⟩
  | remove key =>
    obtain ⟨i,hf,hi,hs⟩ | ⟨hf,hall⟩ := find_lookup P key h.toShaped
    · cases hst : (d.bucket ((hash P key+i) % d.nBuckets)).state with
      | unused =>
        rw [show (d.bucket ((hash P key+i) % d.nBuckets)).slot = .free by
          simp [hst]] at hs
        refine ⟨d,_,m,?_,.remove_missing _ _ (lookup_free h.chained h.represents hs),h⟩
        simp [sysHashmapOaLpRemove,hf,hst]
      | used =>
        obtain ⟨d',v,he,hm,hinv⟩ := h.remove_existing hok.2 hf hi hs hst
        exact ⟨d',_,_,by rw [step,he]; rfl,.remove _ _ _ hm,hinv⟩
      | tombstone =>
        have := hs.stops
        simp [hst] at this
    · refine ⟨d,_,m,?_,.remove_missing _ _ (lookup_none h.chained h.represents hall),h⟩
      simp [sysHashmapOaLpRemove,hf]
  | get key =>
    obtain ⟨i,hf,-,hs⟩ | ⟨hf,hall⟩ := find_lookup P key h.toShaped
    · cases hst : (d.bucket ((hash P key+i) % d.nBuckets)).state with
      | unused =>
        rw [show (d.bucket ((hash P key+i) % d.nBuckets)).slot = .free by
          simp [hst]] at hs
        refine ⟨d,_,m,?_,.get_missing _ _ (lookup_free h.chained h.represents hs),h⟩
        simp [hf,hst]
      | used =>
        have hstops := hs.stops
        simp only [slot,hst,Decides] at hstops
        rw [show (d.bucket ((hash P key+i) % d.nBuckets)).slot =
          .used key (d.bucket ((hash P key+i) % d.nBuckets)).value by
            simp [hst,hstops]] at hs
        refine ⟨d,_,m,?_,.get _ _ _ (lookup_used h.represents hs),h⟩
        simp [hf,hst]
      | tombstone =>
        have := hs.stops
        simp [hst] at this
    · refine ⟨d,_,m,?_,.get_missing _ _ (lookup_none h.chained h.represents hall),h⟩
      simp [hf]
  | clear =>
    refine ⟨_,_,_,rfl,.clear _ _ ?_,inv_empty⟩
    rw [cleared_eq h.toTable]
    exact h.represents

end Calls

/-- A run has a result, replies as a finite map does, and ends with as many entries as the
map has keys. -/
def RunsAsMap (P : Params) (ops : List (MapOp UInt64 UInt64)) : Prop :=
  ∃ d outs m, serve? (step P) empty ops = some (d,outs) ∧
    Trace MapStep (fun _ => none) ops outs m ∧ d.size = mapSize m

/-- Every run in which allocation succeeds and the maximum size is not reached behaves as a
finite map, if no insert stops at a tombstone or finds no bucket and no removal shrinks the
table below its entries. -/
theorem unobstructed_runs_as_map (P : Params) {maxSize lf : ℕ}
    (hcfg : P.cfg = sysHashmapConfig maxSize lf) (h₁ : 1 ≤ lf) (h₂ : lf ≤ 100)
    (ops : List (MapOp UInt64 UInt64))
    (hok : Along (fun d op => Allowed P d op ∧ Unobstructed P d op) (step P) empty ops) :
    RunsAsMap P ops := by
  obtain ⟨d,outs,m,he,ht,hi⟩ := Trace.of_serve?
    (fun d m op hinv hallowed => step_refines hcfg h₁ h₂ op hinv hallowed) inv_empty hok
  exact ⟨d,outs,m,he,ht,by rw [hi.size_eq,hi.represents.size]⟩

def colliding (lf : ℕ) : Params := ⟨32,sysHashmapConfig (2^32-1) lf,fun _ => 0,le_refl 32⟩

theorem unobstructed_runs_as_map_default : RunsAsMap (colliding 75)
    [.insert 1 10,.insert 2 20,.insert 1 11,.remove 2,.get 1,.insert 3 30,.remove 3,.clear] :=
  unobstructed_runs_as_map (colliding 75) rfl (by decide) (by decide) _ (by decide +kernel)

def rewriting : List (MapOp UInt64 UInt64) :=
  [.insert 1 10,.insert 2 20,.insert 3 30,.insert 4 40,.insert 5 50,.remove 1,.insert 2 99]

lemma rewriting_replies : ((serve? (step (colliding 75)) empty rewriting).map snd) =
    some [.inserted 1 (some 0),.inserted 1 (some 0),.inserted 1 (some 0),.inserted 1 (some 0),
      .inserted 1 (some 0),.removed true (some 10),.inserted 0 (some 10)] := by
  decide +kernel

/-- The second insert of key 2 stops at the tombstone of key 1 and replies with its value. -/
theorem rewriting_stops_at_tombstone :
    Along (Allowed (colliding 75)) (step (colliding 75)) empty rewriting ∧
      ¬RunsAsMap (colliding 75) rewriting := by
  refine ⟨by decide +kernel,?_⟩
  rintro ⟨d,outs,m,he,ht,-⟩
  have hreplies := rewriting_replies
  rw [he] at hreplies
  obtain rfl := some.inj hreplies
  -- follow the map through the first six calls
  obtain _ | ⟨⟨⟩,ht⟩ := ht
  obtain _ | ⟨⟨⟩,ht⟩ := ht
  obtain _ | ⟨⟨⟩,ht⟩ := ht
  obtain _ | ⟨⟨⟩,ht⟩ := ht
  obtain _ | ⟨⟨⟩,ht⟩ := ht
  obtain _ | ⟨⟨⟩,ht⟩ := ht
  obtain _ | ⟨hlast,-⟩ := ht
  cases hlast with
  | insert_existing _ _ _ h => simp [update] at h

end ArmFirmware.Zephyr.Hashmap.OpenAddressing
