import ArmFirmware.Library.FiniteMap
import ArmFirmware.Library.Trace
import ArmFirmware.Zephyr.Hashmap.Config

/-! The separate-chaining hash map of `lib/hash/hash_map_sc.c`. A bucket is the list of
entries of its dlist; the entries themselves are key and value. -/
namespace ArmFirmware.Zephyr.Hashmap.SeparateChaining
open Library

abbrev Entry := UInt64 × UInt64

structure Data where
  buckets : List (List Entry)
  nBuckets : ℕ
  size : ℕ
  deriving DecidableEq

def empty : Data := ⟨[],0,0⟩

/-- How the allocator answers the two requests an operation can make. -/
structure Granted where
  buckets : Bool
  entry : Bool

/-- `hash % n_buckets`, which has no value when there are no buckets. -/
def bucketIndex (P : Params) (d : Data) (key : UInt64) : Option ℕ :=
  if d.nBuckets = 0 then none else some ((P.hashFunc key).toNat % d.nBuckets)

def sysHashmapScInsertEntry (P : Params) (d : Data) (entry : Entry) : Option Data := do
  let i ← bucketIndex P d entry.1
  some {d with buckets := d.buckets.modify i (· ++ [entry])
               size := (d.size+1) % 2^P.sizeBits}

def sysHashmapScInsertAll (P : Params) (d : Data) (list : List Entry) : Option Data :=
  list.foldlM (sysHashmapScInsertEntry P) d

def sysHashmapScToList (d : Data) : List Entry × Data :=
  (d.buckets.flatten,{d with buckets := d.buckets.map fun _ => []})

def sysHashmapScRehash (P : Params) (d : Data) (grow : Bool) (granted : Bool) : Option (Data × ℤ) :=
  let r := sysHashmapShouldRehash P.sizeBits P.cfg d.size d.nBuckets grow 0
  if !r.1 then some (d,0)
  else
    let (list,emptied) := sysHashmapScToList d
    if r.2 ≠ 0 ∧ granted = false then
      -- the old buckets take the entries back
      (sysHashmapScInsertAll P emptied list).map (·,-ENOMEM)
    else
      (sysHashmapScInsertAll P ⟨List.replicate r.2 [],r.2,0⟩ list).map (·,0)

def bucketOf (P : Params) (d : Data) (key : UInt64) : ℕ := (P.hashFunc key).toNat % d.nBuckets

def sysHashmapScFind (P : Params) (d : Data) (key : UInt64) : Option Entry :=
  if d.nBuckets = 0 then none
  else (d.buckets.getD (bucketOf P d key) []).find? (·.1 == key)

/-- `entry->value = value` on the entry that the search for `key` stops at. -/
def assign (key value : UInt64) : List Entry → List Entry
  | [] => []
  | e::es => if e.1 = key then (e.1,value)::es else e::assign key value es

def sysHashmapScInsert (P : Params) (d : Data) (key value : UInt64) (granted : Granted) :
    Option (Data × ℤ × Option UInt64) :=
  match sysHashmapScFind P d key with
  | some entry =>
    some ({d with buckets := d.buckets.modify (bucketOf P d key) (assign key value)},0,
      some entry.2)
  | none =>
    (sysHashmapScRehash P d true granted.buckets).bind fun r =>
      if r.2 < 0 then some (r.1,r.2,none)
      else if granted.entry = false then some (r.1,-ENOMEM,none)
      else (sysHashmapScInsertEntry P r.1 (key,value)).map (·,1,none)

def sysHashmapScRemove (P : Params) (d : Data) (key : UInt64) (granted : Granted) :
    Option (Data × Bool × Option UInt64) :=
  match sysHashmapScFind P d key with
  | none => some (d,false,none)
  | some entry =>
    let unlinked : Data := {d with
      buckets := d.buckets.modify (bucketOf P d key) (·.eraseP (·.1 == key))
      size := (d.size+2^P.sizeBits-1) % 2^P.sizeBits}
    (sysHashmapScRehash P unlinked false granted.buckets).map fun r => (r.1,true,some entry.2)

def sysHashmapScGet (P : Params) (d : Data) (key : UInt64) : Bool × Option UInt64 :=
  match sysHashmapScFind P d key with
  | none => (false,none)
  | some entry => (true,some entry.2)

/-- `sys_hashmap_sc_clear`, with the entries its callback sees. -/
def sysHashmapScClear (d : Data) : Data × List Entry := (empty,d.buckets.flatten)

/-- One call of the map interface with an allocator that grants every request. There is no
result when a bucket index has to be taken modulo zero. -/
def step (P : Params) (d : Data) : MapOp UInt64 UInt64 → Option (Data × MapReply UInt64 UInt64)
  | .insert key value =>
    (sysHashmapScInsert P d key value ⟨true,true⟩).map fun r => (r.1,.inserted r.2.1 r.2.2)
  | .remove key =>
    (sysHashmapScRemove P d key ⟨true,true⟩).map fun r => (r.1,.removed r.2.1 r.2.2)
  | .get key =>
    let r := sysHashmapScGet P d key
    some (d,.got r.1 r.2)
  | .clear =>
    let r := sysHashmapScClear d
    some (r.1,.cleared r.2)

/-- The allocation succeeds: an array of this many list heads, two pointers each, exists. -/
def ArrayExists (P : Params) (n : ℕ) : Prop := n*(P.sizeBits/4) < 2^P.sizeBits

/-- What an insert of a new key asks for: its size passes the assertion of
`sys_hashmap_should_rehash`, and the array it may grow to exists. -/
def Allowed (P : Params) (d : Data) : MapOp UInt64 UInt64 → Prop
  | .insert key _ => sysHashmapScFind P d key = none →
    SizeAllowed P.sizeBits (d.size+1) ∧
      let r := sysHashmapShouldRehash P.sizeBits P.cfg d.size d.nBuckets true 0
      (r.1 = true → ArrayExists P r.2)
  | _ => True

/-! The separate-chaining hash map as a finite map. Entries sit in the bucket of their
hash, so a search of one bucket decides about the whole table, and rehashing permutes
the entries. -/

open List Nat Function Represents

attribute [local simp] sysHashmapScToList sysHashmapScInsert bucketIndex mod_one

section Buckets
variable {α : Type*}

lemma flatten_perm_modify (l : List (List α)) {i : ℕ} (hi : i < l.length) :
    ∃ rest, l.flatten.Perm (l.getD i [] ++ rest) ∧ ∀ f, (l.modify i f).flatten.Perm (f (l.getD i []) ++ rest) := by
  induction l generalizing i with
  | nil => simp at hi
  | cons b l ih =>
    cases i with
    | zero => exact ⟨l.flatten,by simp,by simp⟩
    | succ i =>
      obtain ⟨rest,h₁,h₂⟩ := ih (by simpa using hi)
      refine ⟨b ++ rest,?_,fun f => ?_⟩
      · simp only [flatten_cons,getD_cons_succ]
        exact (h₁.append_left b).trans (perm_append_comm_assoc _ _ _)
      · simp only [modify_succ_cons,flatten_cons,getD_cons_succ]
        exact ((h₂ f).append_left b).trans (perm_append_comm_assoc _ _ _)

end Buckets

section Search
variable {key value : UInt64} {e : Entry} {l : List Entry}

lemma perm_of_find? (h : l.find? (·.1 == key) = some e) (value : UInt64) :
    e.1 = key ∧ l.Perm (e::l.eraseP (·.1 == key)) ∧
      (assign key value l).Perm ((key,value)::l.eraseP (·.1 == key)) := by
  induction l with
  | nil => simp at h
  | cons x l ih =>
    by_cases hx : x.1 = key
    · obtain rfl : x = e := by simpa [hx] using h
      simp [assign,hx]
    · have hx' : (x.1 == key) = false := by simpa using hx
      obtain ⟨h₁,h₂,h₃⟩ := ih (by simpa [hx'] using h)
      refine ⟨h₁,?_,?_⟩
      · rw [eraseP_cons_of_neg (by simpa using hx)]
        exact (h₂.cons x).trans (List.Perm.swap _ _ _)
      · rw [eraseP_cons_of_neg (by simpa using hx),assign,if_neg hx]
        exact (h₃.cons x).trans (List.Perm.swap _ _ _)

lemma not_mem_keys_of_find? (h : l.find? (·.1 == key) = none) : key ∉ l.map Prod.fst := by
  intro hmem
  obtain ⟨x,hx,rfl⟩ := mem_map.mp hmem
  have := List.find?_eq_none.mp h x hx
  simp at this

lemma mem_assign_keys {x : Entry} (h : x ∈ assign key value l) : ∃ y ∈ l, y.1 = x.1 := by
  induction l with
  | nil => simp [assign] at h
  | cons y l ih =>
    by_cases hy : y.1 = key
    · rw [assign,if_pos hy,mem_cons] at h
      obtain rfl | h := h
      · exact ⟨y,by simp,rfl⟩
      · exact ⟨x,by simp [h],rfl⟩
    · rw [assign,if_neg hy,mem_cons] at h
      obtain rfl | h := h
      · exact ⟨x,by simp,rfl⟩
      · obtain ⟨z,hz,he⟩ := ih h
        exact ⟨z,by simp [hz],he⟩

end Search

/-- Every bucket has its array slot, and every entry is in the bucket of its hash. -/
structure Placed (P : Params) (d : Data) : Prop where
  length_eq : d.buckets.length = d.nBuckets
  hashed : ∀ i < d.nBuckets, ∀ e ∈ d.buckets.getD i [], bucketOf P d e.1 = i

/-- The table stands for the map, and its header fields for the table. -/
structure Holds (P : Params) (d : Data) (m : UInt64 → Option UInt64) : Prop where
  placed : Placed P d
  represents : Represents d.buckets.flatten m
  size_eq : d.size = d.buckets.flatten.length
  size_pos_iff : 0 < d.size ↔ 0 < d.nBuckets
  size_allowed : SizeAllowed P.sizeBits d.size
  array_exists : ArrayExists P d.nBuckets

lemma two_mul_lt {P : Params} {n : ℕ} (h : ArrayExists P n) : 2*n < 2^P.sizeBits := by
  have hle := P.sizeBits_le
  have h2 : 2 ≤ P.sizeBits/4 := by omega
  calc 2*n = n*2 := mul_comm _ _
    _ ≤ n*(P.sizeBits/4) := mul_le_mul_left _ h2
    _ < 2^P.sizeBits := h

lemma arrayExists_of_le {P : Params} {a c : ℕ} (h : ArrayExists P c) (hle : a ≤ c) : ArrayExists P a :=
  lt_of_le_of_lt (mul_le_mul_right _ hle) h

section Table
variable {P : Params} {d : Data} {m : UInt64 → Option UInt64} {key value : UInt64}

lemma getD_modify (l : List (List Entry)) (i j : ℕ) (f : List Entry → List Entry) (hi : i < l.length) :
    (l.modify i f).getD j [] = if i = j then f (l.getD i []) else l.getD j [] := by
  by_cases hij : i = j
  · subst hij
    simp [hi]
  · simp [hij]

lemma Placed.modify (h : Placed P d) (hpos : 0 < d.nBuckets) (key : UInt64) (s : ℕ) {f : List Entry → List Entry}
    (hf : ∀ x ∈ f (d.buckets.getD (bucketOf P d key) []), bucketOf P d x.1 = bucketOf P d key) :
    Placed P {d with buckets := d.buckets.modify (bucketOf P d key) f, size := s} := by
  have hlt : bucketOf P d key < d.buckets.length := by
    rw [h.length_eq]
    exact mod_lt _ hpos
  refine ⟨by simpa using h.length_eq,?_⟩
  intro i hi x hx
  simp only [getD_modify _ _ _ _ hlt] at hx
  split_ifs at hx with hij
  · subst hij
    exact hf x hx
  · exact h.hashed i hi x hx

lemma bucketOf_lt (h : Placed P d) (hpos : 0 < d.nBuckets) (key : UInt64) :
    bucketOf P d key < d.buckets.length := by
  rw [h.length_eq]
  exact mod_lt _ hpos

lemma find_eq (hpos : 0 < d.nBuckets) : sysHashmapScFind P d key =
    (d.buckets.getD (bucketOf P d key) []).find? (·.1 == key) := by
  rw [sysHashmapScFind,if_neg (by omega)]

theorem Holds.find_none (h : Holds P d m) (hf : sysHashmapScFind P d key = none) : m key = none := by
  rw [h.represents.eq_none_iff]
  intro hmem
  obtain ⟨x,hx,rfl⟩ := mem_map.mp hmem
  obtain ⟨b,hb,hxb⟩ := mem_flatten.mp hx
  obtain ⟨i,hi,rfl⟩ := getElem_of_mem hb
  have hpos : 0 < d.nBuckets := by
    rw [← h.placed.length_eq]
    omega
  have hbucket := h.placed.hashed i (by rw [← h.placed.length_eq]; exact hi) x (by simpa [hi] using hxb)
  rw [find_eq hpos,hbucket] at hf
  exact not_mem_keys_of_find? hf (mem_map.mpr ⟨x,by simpa [hi] using hxb,rfl⟩)

theorem Holds.find_some (h : Holds P d m) {e : Entry} (hf : sysHashmapScFind P d key = some e) :
    0 < d.nBuckets ∧ e.1 = key ∧ m key = some e.2 := by
  have hpos : 0 < d.nBuckets := by
    by_contra hz
    rw [sysHashmapScFind,if_pos (by omega)] at hf
    contradiction
  have hf' := hf
  rw [find_eq hpos] at hf'
  obtain ⟨hkey,-,-⟩ := perm_of_find? hf' 0
  obtain ⟨rest,hperm,-⟩ := flatten_perm_modify d.buckets (bucketOf_lt h.placed hpos key)
  refine ⟨hpos,hkey,(h.represents.mem_iff _ _).mp ?_⟩
  rw [← hkey]
  exact hperm.mem_iff.mpr (mem_append_left _ (mem_of_find?_eq_some hf'))

lemma insertEntry_spec (h : Placed P d) (hpos : 0 < d.nBuckets) (e : Entry) (hsize : d.size+1 < 2^P.sizeBits) :
    ∃ d', sysHashmapScInsertEntry P d e = some d' ∧ Placed P d' ∧
      d'.buckets.flatten.Perm (e::d.buckets.flatten) ∧ d'.size = d.size+1 ∧ d'.nBuckets = d.nBuckets := by
  obtain ⟨rest,h₁,h₂⟩ := flatten_perm_modify d.buckets (bucketOf_lt h hpos e.1)
  refine ⟨{d with buckets := d.buckets.modify (bucketOf P d e.1) (· ++ [e]), size := d.size+1},?_,?_,?_,rfl,rfl⟩
  · rw [sysHashmapScInsertEntry,bucketIndex,if_neg (by omega),mod_eq_of_lt hsize]
    rfl
  · refine h.modify hpos e.1 _ fun x hx => ?_
    obtain hx | hx := mem_append.mp hx
    · exact h.hashed _ (mod_lt _ hpos) x hx
    · rw [mem_singleton.mp hx]
  · refine (h₂ _).trans ?_
    rw [append_assoc]
    exact perm_middle.trans (h₁.symm.cons e)

lemma insertAll_spec (list : List Entry) (h : Placed P d) (hpos : 0 < d.nBuckets)
    (hsize : d.size+list.length < 2^P.sizeBits) : ∃ d', sysHashmapScInsertAll P d list = some d' ∧ Placed P d' ∧
      d'.buckets.flatten.Perm (list ++ d.buckets.flatten) ∧ d'.size = d.size+list.length ∧
      d'.nBuckets = d.nBuckets := by
  induction list generalizing d with
  | nil => exact ⟨d,rfl,h,by simp,rfl,rfl⟩
  | cons e list ih =>
    rw [length_cons] at hsize
    obtain ⟨d₁,he,hp,hperm,hs,hn⟩ := insertEntry_spec h hpos e (by omega)
    obtain ⟨d',hall,hp',hperm',hs',hn'⟩ := ih hp (by omega) (by omega)
    refine ⟨d',?_,hp',?_,?_,hn'.trans hn⟩
    · rw [sysHashmapScInsertAll,foldlM_cons,he]
      exact hall
    · exact hperm'.trans ((hperm.append_left list).trans perm_middle)
    · rw [hs',hs,length_cons]
      omega

lemma rehash_spec {grow : Bool} (h : Placed P d) (hsize : d.buckets.flatten.length = d.size)
    (hlt : d.size < 2^P.sizeBits) {n : ℕ} {should : Bool}
    (hr : sysHashmapShouldRehash P.sizeBits P.cfg d.size d.nBuckets grow 0 = (should,n))
    (hn : should = true → 0 < d.size → 0 < n) : ∃ d', sysHashmapScRehash P d grow true = some (d',0) ∧ Placed P d' ∧
      d'.buckets.flatten.Perm d.buckets.flatten ∧ d'.size = d.size ∧
      d'.nBuckets = if should then n else d.nBuckets := by
  cases should with
  | false => exact ⟨d,by simp [sysHashmapScRehash,hr],h,.refl _,rfl,rfl⟩
  | true =>
    have hfresh : Placed P ⟨List.replicate n [],n,0⟩ := by
      refine ⟨by simp,fun i hi e he => ?_⟩
      simp [hi] at he
    obtain hz | hpos := Nat.eq_zero_or_pos d.size
    · -- nothing to refill the new buckets with
      have hnil : d.buckets.flatten = [] := eq_nil_of_length_eq_zero (by omega)
      refine ⟨⟨List.replicate n [],n,0⟩,?_,hfresh,by simp [hnil],hz.symm,rfl⟩
      simp [sysHashmapScRehash,hr,hnil,sysHashmapScInsertAll]
    · obtain ⟨d',he,hp,hperm,hs,hn'⟩ := insertAll_spec d.buckets.flatten hfresh (hn rfl hpos)
        (by simp only; omega)
      refine ⟨d',?_,hp,by simpa using hperm,by simp only at hs; omega,hn'⟩
      simp [sysHashmapScRehash,hr,he]

end Table

section Calls
variable {P : Params} {d : Data} {m : UInt64 → Option UInt64} {key value : UInt64} {maxSize lf : ℕ}

/-- The invariant of a run: below a load factor of 200 a single bucket is never shared. -/
structure Inv (P : Params) (d : Data) (m : UInt64 → Option UInt64) : Prop extends Holds P d m where
  single : d.nBuckets = 1 → d.size ≤ 1

lemma sizeAllowed_of_le {size : ℕ} (h : size ≤ 1000) : SizeAllowed P.sizeBits size := by
  have : 2^32 ≤ 2^P.sizeBits := Nat.pow_le_pow_right (by omega) P.sizeBits_le
  rw [SizeAllowed,lt_div_iff_mul_lt (by omega)]
  omega

theorem inv_empty : Inv P empty (fun _ => none) := by
  refine ⟨⟨⟨rfl,by simp [empty]⟩,nil,rfl,by simp [empty],?_,?_⟩,by simp [empty]⟩
  · exact sizeAllowed_of_le (by simp [empty])
  · exact (Nat.zero_mul _).trans_lt (Nat.two_pow_pos _)

theorem Inv.insert_existing (h : Inv P d m) {e : Entry} (hf : sysHashmapScFind P d key = some e) (value : UInt64) :
    ∃ d', sysHashmapScInsert P d key value ⟨true,true⟩ = some (d',0,some e.2) ∧
      Inv P d' (update m key (some value)) := by
  obtain ⟨hpos,hkey,-⟩ := h.find_some hf
  refine ⟨_,by rw [sysHashmapScInsert,hf],?_⟩
  rw [find_eq hpos] at hf
  obtain ⟨-,hb,ha⟩ := perm_of_find? hf value
  obtain ⟨rest,h₁,h₂⟩ := flatten_perm_modify d.buckets (bucketOf_lt h.placed hpos key)
  have hold := h₁.trans (hb.append_right rest)
  have hnew := (h₂ (assign key value)).trans (ha.append_right rest)
  have hplaced : Placed P {d with
      buckets := d.buckets.modify (bucketOf P d key) (assign key value)} := by
    refine h.placed.modify hpos key d.size fun x hx => ?_
    obtain ⟨y,hy,he⟩ := mem_assign_keys hx
    rw [← he]
    exact h.placed.hashed _ (mod_lt _ hpos) y hy
  have hrep := h.represents.perm hold
  rw [show e = (key,e.2) from Prod.ext hkey rfl] at hrep
  refine ⟨⟨hplaced,(replace hrep).perm hnew.symm,?_,h.size_pos_iff,h.size_allowed,h.array_exists⟩,h.single⟩
  rw [h.size_eq,hold.length_eq,hnew.length_eq]
  rfl

/-- Whether an insertion rehashes, and to how many buckets. -/
lemma Inv.grow_cases (h : Inv P d m) (hcfg : P.cfg = sysHashmapConfig maxSize lf)
    (h₁ : 1 ≤ lf) (h₂ : lf < 200) (hs : SizeAllowed P.sizeBits (d.size+1)) :
    ∃ should n, sysHashmapShouldRehash P.sizeBits P.cfg d.size d.nBuckets true 0 = (should,n) ∧
      0 < (if should then n else d.nBuckets) ∧ ((if should then n else d.nBuckets) = 1 → d.size = 0) := by
  obtain hz | hpos := Nat.eq_zero_or_pos d.size
  · have hn : d.nBuckets = 0 := by
      have := h.size_pos_iff
      omega
    obtain ⟨k,hk,hinit⟩ := initialNBuckets_eq maxSize h₁ (by omega)
    rw [← hcfg] at hinit
    have hpow : 2^k < 2^P.sizeBits :=
      Nat.pow_lt_pow_right (by omega) (lt_of_le_of_lt hk (by have := P.sizeBits_le; omega))
    have h2 : 2^1 ≤ 2^P.sizeBits := Nat.pow_le_pow_right (by omega) (by have := P.sizeBits_le; omega)
    refine ⟨true,P.cfg.initialNBuckets,?_,?_,fun _ => hz⟩
    · rw [hz,hn]
      exact shouldRehash_first h2 (by rw [hinit]; exact hpow)
    · rw [if_pos rfl,hinit]
      positivity
  · have hn := h.size_pos_iff.mp hpos
    refine ⟨_,_,shouldRehash_grow hs hpos (two_mul_lt h.array_exists),?_,?_⟩
    · split_ifs <;> omega
    · split_ifs with hg
      · omega
      · intro hone
        -- one bucket with an entry in it is at one
        have hlf : P.cfg.loadFactor = lf := by
          rw [hcfg]
          exact mod_eq_of_lt (by omega)
        have hlt := size_lt_pow hs
        have hsmall : (d.size+1)*100 < 2^P.sizeBits := by omega
        rw [hone,hlf,add_zero,mod_eq_of_lt (show d.size+1 < 2^P.sizeBits by omega),
          Nat.mod_eq_of_lt hsmall,Nat.div_one] at hg
        simp at hg
        omega

/-- A new key is inserted. -/
theorem Inv.insert_new (h : Inv P d m) (hcfg : P.cfg = sysHashmapConfig maxSize lf)
    (h₁ : 1 ≤ lf) (h₂ : lf < 200) (hf : sysHashmapScFind P d key = none) (hok : Allowed P d (.insert key value)) :
    ∃ d', sysHashmapScInsert P d key value ⟨true,true⟩ = some (d',1,none) ∧
      Inv P d' (update m key (some value)) := by
  obtain ⟨hs,harray⟩ := hok hf
  obtain ⟨should,n,hr,hpos,hone⟩ := h.grow_cases hcfg h₁ h₂ hs
  have hlt := size_lt_pow hs
  obtain ⟨d₁,hre,hp,hperm,hsize,hn⟩ := rehash_spec h.placed h.size_eq.symm (by omega) hr
    (by rintro rfl -; simpa using hpos)
  rw [← hn] at hpos
  obtain ⟨d',he,hp',hperm',hs',hn'⟩ := insertEntry_spec hp hpos (key,value) (by omega)
  refine ⟨d',by simp [hf,hre,he],⟨⟨hp',?_,?_,?_,?_,?_⟩,?_⟩⟩
  · exact ((h.represents.perm hperm.symm).insert (h.find_none hf)).perm hperm'.symm
  · rw [hs',hsize,hperm'.length_eq,length_cons,hperm.length_eq,h.size_eq]
  · omega
  · rwa [hs',hsize]
  · rw [hn',hn]
    split_ifs with hshould
    · rw [hr] at harray
      exact harray hshould
    · exact h.array_exists
  · intro h1
    omega

/-- Whether a removal rehashes, and to how many buckets. -/
lemma Inv.shrink_cases (h : Inv P d m) (hcfg : P.cfg = sysHashmapConfig maxSize lf)
    (h₁ : 1 ≤ lf) (h₂ : lf < 200) {size : ℕ} (hsz : d.size = size+1) :
    ∃ should n, sysHashmapShouldRehash P.sizeBits P.cfg size d.nBuckets false 0 = (should,n) ∧
      n ≤ d.nBuckets ∧ (0 < size ↔ 0 < (if should then n else d.nBuckets)) ∧
      ((if should then n else d.nBuckets) = 1 → size ≤ 1) := by
  obtain rfl | hpos := Nat.eq_zero_or_pos size
  · exact ⟨true,0,shouldRehash_empty,zero_le _,by simp,by simp⟩
  · have hn := h.size_pos_iff.mp (by omega)
    have hnone : d.nBuckets ≠ 1 := fun h1 => by
      have := h.single h1
      omega
    have hlf : P.cfg.loadFactor = lf := by
      rw [hcfg]
      exact mod_eq_of_lt (by omega)
    have hs : SizeAllowed P.sizeBits size := lt_of_le_of_lt (by omega) h.size_allowed
    have htwo := two_mul_lt h.array_exists
    refine ⟨_,_,shouldRehash_shrink hs hpos (by omega),div_le_self _ _,?_,?_⟩
    · split_ifs <;> omega
    · split_ifs with hg
      · intro hone
        rw [hone,hlf,Nat.div_one] at hg
        simp at hg
        omega
      · exact fun h1 => absurd h1 hnone

/-- A key is removed. -/
theorem Inv.remove_existing (h : Inv P d m)
    (hcfg : P.cfg = sysHashmapConfig maxSize lf) (h₁ : 1 ≤ lf) (h₂ : lf < 200) {e : Entry}
    (hf : sysHashmapScFind P d key = some e) :
    ∃ d', sysHashmapScRemove P d key ⟨true,true⟩ = some (d',true,some e.2) ∧ Inv P d' (update m key none) := by
  obtain ⟨hpos,hkey,-⟩ := h.find_some hf
  have hsome := hf
  rw [find_eq hpos] at hf
  obtain ⟨-,hb,-⟩ := perm_of_find? hf 0
  obtain ⟨rest,hp₁,hp₂⟩ := flatten_perm_modify d.buckets (bucketOf_lt h.placed hpos key)
  have hold := hp₁.trans (hb.append_right rest)
  have hnew := hp₂ (·.eraseP (·.1 == key))
  obtain ⟨size,hsz⟩ : ∃ size, d.size = size+1 := ⟨_,by rw [h.size_eq,hold.length_eq]; rfl⟩
  have hlt := size_lt_pow h.size_allowed
  have hwrap : (d.size+2^P.sizeBits-1) % 2^P.sizeBits = size := by
    rw [show d.size+2^P.sizeBits-1 = size+2^P.sizeBits by omega,add_mod_right]
    exact mod_eq_of_lt (by omega)
  obtain ⟨should,n,hr,hle,hiff,hone⟩ := h.shrink_cases hcfg h₁ h₂ hsz
  have hplaced := h.placed.modify hpos key size (f := (·.eraseP (·.1 == key)))
    fun x hx => h.placed.hashed _ (mod_lt _ hpos) x (mem_of_mem_eraseP hx)
  have hlen : (d.buckets.modify (bucketOf P d key) (·.eraseP (·.1 == key))).flatten.length = size := by
    have hd := h.size_eq
    rw [hold.length_eq] at hd
    rw [hnew.length_eq]
    simp only [cons_append,length_cons] at hd
    omega
  obtain ⟨d',hre,hp',hperm,hs',hn'⟩ := rehash_spec hplaced hlen (by simp only; omega) hr
    (by rintro rfl hp; exact (by simpa using hiff : 0 < size ↔ 0 < n).mp hp)
  simp only at hs' hn'
  have hrep := h.represents.perm hold
  rw [show e = (key,e.2) from Prod.ext hkey rfl] at hrep
  refine ⟨d',?_,⟨⟨hp',?_,?_,?_,?_,?_⟩,?_⟩⟩
  · simp only [sysHashmapScRemove,hsome,hwrap]
    rw [hre]
    rfl
  · exact (erase hrep).perm (hperm.trans hnew).symm
  · rw [hs',hperm.length_eq,hlen]
  · rw [hs',hn']
    exact hiff
  · exact lt_of_le_of_lt (by omega) h.size_allowed
  · refine arrayExists_of_le h.array_exists ?_
    rw [hn']
    split_ifs <;> omega
  · rw [hn',hs']
    exact hone

/-- One call of the interface refines one call on the map. -/
theorem step_refines (hcfg : P.cfg = sysHashmapConfig maxSize lf) (h₁ : 1 ≤ lf)
    (h₂ : lf < 200) (op : MapOp UInt64 UInt64) (h : Inv P d m) (hok : Allowed P d op) :
    ∃ d' o m', step P d op = some (d',o) ∧ MapStep m op o m' ∧ Inv P d' m' := by
  cases op with
  | insert key value =>
    cases hf : sysHashmapScFind P d key with
    | none =>
      obtain ⟨d',he,hi⟩ := h.insert_new hcfg h₁ h₂ hf hok
      exact ⟨d',_,_,by rw [step,he]; rfl,.insert_new _ _ _ _ (h.find_none hf),hi⟩
    | some e =>
      obtain ⟨d',he,hi⟩ := h.insert_existing hf value
      exact ⟨d',_,_,by rw [step,he]; rfl,.insert_existing _ _ _ _ (h.find_some hf).2.2,hi⟩
  | remove key =>
    cases hf : sysHashmapScFind P d key with
    | none =>
      refine ⟨d,_,m,?_,.remove_missing _ _ (h.find_none hf),h⟩
      simp [step,sysHashmapScRemove,hf]
    | some e =>
      obtain ⟨d',he,hi⟩ := h.remove_existing hcfg h₁ h₂ hf
      exact ⟨d',_,_,by rw [step,he]; rfl,.remove _ _ _ (h.find_some hf).2.2,hi⟩
  | get key =>
    cases hf : sysHashmapScFind P d key with
    | none =>
      refine ⟨d,_,m,?_,.get_missing _ _ (h.find_none hf),h⟩
      simp [step,sysHashmapScGet,hf]
    | some e =>
      refine ⟨d,_,m,?_,.get _ _ _ (h.find_some hf).2.2,h⟩
      simp [step,sysHashmapScGet,hf]
  | clear => exact ⟨_,_,_,rfl,.clear _ _ h.represents,inv_empty⟩

/-- The header of a table agrees with the map: its size counts the keys, and a table with
keys has buckets. -/
structure Agrees (d : Data) (m : UInt64 → Option UInt64) : Prop where
  size_eq : d.size = mapSize m
  buckets_pos : 0 < d.size → 0 < d.nBuckets

/-- Every run from an empty table in which allocation succeeds has a result, replies as a
finite map does, and ends in a table that agrees with the map. -/
def BehavesAsMap (P : Params) : Prop :=
  ∀ ops, Along (Allowed P) (step P) empty ops → ∃ d outs m,
    serve? (step P) empty ops = some (d,outs) ∧
      Trace MapStep (fun _ => none) ops outs m ∧ Agrees d m

def crowding : List (MapOp UInt64 UInt64) := [.insert 1 10,.insert 2 20,.remove 1]

/-- From a load factor of 200 on, two keys share a single bucket. Removing one halves one
bucket to none, and the other key has nowhere to go. -/
lemma crowding_fails (hcfg : P.cfg = sysHashmapConfig maxSize lf) (h₁ : 200 ≤ lf) (h₂ : lf < 256) :
    Along (Allowed P) (step P) empty crowding ∧ serve? (step P) empty crowding = none := by
  have hlf : P.cfg.loadFactor = lf := by
    rw [hcfg]
    exact mod_eq_of_lt h₂
  have hinit : P.cfg.initialNBuckets = 1 := by
    rw [hcfg]
    exact initialNBuckets_eq_one (by omega)
  have hbig : 2^32 ≤ 2^P.sizeBits := Nat.pow_le_pow_right (by omega) P.sizeBits_le
  have hfirst : sysHashmapShouldRehash P.sizeBits P.cfg 0 0 true 0 = (true,1) := by
    rw [shouldRehash_first (by omega) (by omega),hinit]
  have hgrow : sysHashmapShouldRehash P.sizeBits P.cfg 1 1 true 0 = (false,2) := by
    rw [shouldRehash_grow (sizeAllowed_of_le (by omega)) (by omega) (by omega),hlf,
      mod_eq_of_lt (show 1+1+0 < 2^P.sizeBits by omega),mod_eq_of_lt (show (1+1+0)*100 < 2^P.sizeBits by omega)]
    simp
    omega
  have hshrink : sysHashmapShouldRehash P.sizeBits P.cfg 1 1 false 0 = (true,0) := by
    rw [shouldRehash_shrink (sizeAllowed_of_le (by omega)) (by omega) (by omega)]
    rfl
  have hone : 1 % 2^P.sizeBits = 1 := mod_eq_of_lt (by omega)
  have htwo : (1+1) % 2^P.sizeBits = 2 := mod_eq_of_lt (by omega)
  have hs₁ : step P empty (.insert 1 10) = some (⟨[[(1,10)]],1,1⟩,.inserted 1 none) := by
    simp [step,sysHashmapScFind,empty,sysHashmapScRehash,hfirst,sysHashmapScInsertAll,sysHashmapScInsertEntry,hone]
  have hs₂ : step P ⟨[[(1,10)]],1,1⟩ (.insert 2 20) = some (⟨[[(1,10),(2,20)]],1,2⟩,.inserted 1 none) := by
    simp [step,sysHashmapScFind,bucketOf,sysHashmapScRehash,hgrow,sysHashmapScInsertEntry,htwo]
  have hs₃ : step P ⟨[[(1,10),(2,20)]],1,2⟩ (.remove 1) = none := by
    simp [step,sysHashmapScRemove,sysHashmapScFind,bucketOf,sysHashmapScRehash,hone,hshrink,sysHashmapScInsertAll,
      sysHashmapScInsertEntry]
  have harray : ArrayExists P 1 := by
    have : P.sizeBits < 2^P.sizeBits := Nat.lt_two_pow_self
    unfold ArrayExists
    omega
  refine ⟨?_,by simp [crowding,serve?,hs₁,hs₂,hs₃]⟩
  refine ⟨fun _ => ⟨sizeAllowed_of_le (by simp [empty]),fun _ => ?_⟩,?_⟩
  · simpa [empty,hfirst] using harray
  · intro t o ht
    cases hs₁.symm.trans ht
    refine ⟨fun _ => ⟨sizeAllowed_of_le (by simp),fun h => ?_⟩,?_⟩
    · simp [hgrow] at h
    · intro t o ht
      cases hs₂.symm.trans ht
      exact ⟨trivial,fun t o ht => by simp [hs₃] at ht⟩

end Calls

/-- The separate-chaining map is a finite map, and never without a bucket for its keys,
exactly for the load factors below 200. -/
theorem behavesAsMap_iff (P : Params) {maxSize lf : ℕ}
    (hcfg : P.cfg = sysHashmapConfig maxSize lf) (h₁ : 1 ≤ lf) (h₂ : lf ≤ 255) :
    BehavesAsMap P ↔ lf < 200 := by
  constructor
  · intro h
    by_contra hge
    obtain ⟨halong,hnone⟩ := crowding_fails hcfg (by omega) (by omega)
    obtain ⟨d,outs,m,hsome,-⟩ := h crowding halong
    rw [hnone] at hsome
    contradiction
  · intro hlt ops hok
    obtain ⟨d,outs,m,he,ht,hi⟩ := Trace.of_serve?
      (fun d m op hinv hallowed => step_refines hcfg h₁ hlt op hinv hallowed) inv_empty hok
    exact ⟨d,outs,m,he,ht,by rw [hi.size_eq,hi.represents.size],hi.size_pos_iff.mp⟩

def colliding (lf : ℕ) : Params := ⟨32,sysHashmapConfig (2^32-1) lf,fun _ => 7,sizeBits_least⟩

theorem behavesAsMap_iff_default : BehavesAsMap (colliding 75) ↔ 75 < 200 :=
  behavesAsMap_iff (colliding 75) rfl (by decide) (by decide)

/-- With a load factor of 200 the third call takes a hash modulo zero. -/
theorem crowding_divides_by_zero :
    Along (Allowed (colliding 200)) (step (colliding 200)) empty crowding ∧
      serve? (step (colliding 200)) empty crowding = none :=
  crowding_fails rfl (by decide) (by decide)

end ArmFirmware.Zephyr.Hashmap.SeparateChaining
