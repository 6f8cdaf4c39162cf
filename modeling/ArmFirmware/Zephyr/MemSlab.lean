import ArmFirmware.Library.Trace
import ArmFirmware.Library.WaitQueue

/-! Memory slabs (`kernel/mem_slab.c`). A free block has the address of the next one in its first
word. Addresses are those of a flat memory, and sums and differences of them wrap around. -/
namespace ArmFirmware.Zephyr.MemSlab
open Library List Function Nat Prod MemSlab WaitQueue

def ENOMEM : ℤ := 12
def EAGAIN : ℤ := 11
def EINVAL : ℤ := 22

/-- The bits of a pointer and of `size_t`, and whether CONFIG_MULTITHREADING is set. -/
structure Config where
  wordBits : ℕ
  multithreading : Bool
  word : wordBits = 32 ∨ wordBits = 64

def Config.wordBytes (cfg : Config) : ℕ := cfg.wordBits/8

/-- `struct k_mem_slab` with the words of the memory, and the threads in `k_mem_slab_alloc`. -/
structure Slab where
  buffer : ℕ
  blockSize : ℕ
  numBlocks : ℕ
  numUsed : ℕ
  freeList : ℕ
  mem : ℕ → ℕ

inductive Call
  | none
  | pended
  /-- The wait is over, with the value `z_pend_curr` returns and `swap_data`. -/
  | woken (ret : ℤ) (swapData : ℕ)
  deriving DecidableEq

/-- A slab and the threads that wait for its blocks. -/
structure State (τ : Type*) where
  slab : Slab
  waitQ : List τ
  call : τ → Call

/-- What `k_mem_slab_init` is called with: a buffer of memory for at least one block, aligned as
the blocks are. -/
structure Params (cfg : Config) where
  buffer : ℕ
  blockSize : ℕ
  numBlocks : ℕ
  pos : 1 ≤ numBlocks
  numBlocks_lt : numBlocks < 2^32
  blockSize_aligned : cfg.wordBytes ∣ blockSize
  buffer_aligned : cfg.wordBytes ∣ buffer
  inside : buffer+blockSize*numBlocks ≤ 2^cfg.wordBits
  size_lt : blockSize*numBlocks < 2^(cfg.wordBits-1)

section Init
variable (cfg : Config)

/-- The loop of `create_free_list`, for a bounded number of rounds. -/
def createLoop (buffer blockSize : ℕ) : ℕ → ℕ → ℕ → (ℕ → ℕ) → Option (ℕ × (ℕ → ℕ))
  | 0,_,_,_ => none
  | rounds+1,p,freeList,mem =>
    if buffer ≤ p then
      createLoop buffer blockSize rounds ((p+2^cfg.wordBits-blockSize)%2^cfg.wordBits) p
        (update mem p freeList)
    else some (freeList,mem)

def createFreeList (rounds : ℕ) (slab : Slab) : Option (Slab × ℤ) :=
  if (slab.blockSize ||| slab.buffer) &&& (cfg.wordBytes-1) ≠ 0 then some (slab,-EINVAL)
  else
    let p := (slab.buffer+slab.blockSize*((slab.numBlocks+2^32-1)%2^32))%2^cfg.wordBits
    (createLoop cfg slab.buffer slab.blockSize rounds p 0 slab.mem).map fun (freeList,mem) =>
      ({slab with freeList, mem},0)

def kMemSlabInit {τ : Type*} (rounds : ℕ) (p : Params cfg) (mem : ℕ → ℕ) : Option (State τ × ℤ) :=
  (createFreeList cfg rounds ⟨p.buffer,p.blockSize,p.numBlocks,0,0,mem⟩).map fun (slab,rc) =>
    (⟨slab,[],fun _ => .none⟩,rc)

/-- The difference is a `ptrdiff_t`. -/
def slabPtrIsGood (slab : Slab) (ptr : ℕ) : Bool :=
  let offset := (ptr+2^cfg.wordBits-slab.buffer)%2^cfg.wordBits
  decide (offset < 2^(cfg.wordBits-1)) &&
    decide (offset < slab.blockSize*slab.numBlocks%2^cfg.wordBits) && offset%slab.blockSize == 0

end Init

/-- `outranks` tells which waiting threads the caller outranks. -/
inductive Action (τ : Type*)
  | alloc (thread : τ) (wait : Bool) (outranks : τ → Bool)
  | free (mem : ℕ)
  /-- The wait of a thread times out. -/
  | timeout (thread : τ)
  /-- A thread whose wait is over returns from `k_mem_slab_alloc`. -/
  | ret (thread : τ)
  /-- A caller writes to a word of a block. -/
  | store (addr val : ℕ)

inductive Reply (τ : Type*)
  | none
  /-- The allocation returns 0 and the block. -/
  | got (mem : ℕ)
  | failed (r : ℤ)
  | pended
  /-- The block goes to a waiting thread. -/
  | passed (thread : τ)
  deriving DecidableEq

section Steps
variable {τ : Type*} [DecidableEq τ] (cfg : Config)

def kMemSlabAlloc (s : State τ) (t : τ) (wait : Bool) (outranks : τ → Bool) : Option (State τ × Reply τ) :=
  if s.slab.freeList ≠ 0 then
    let next := s.slab.mem s.slab.freeList
    let slab : Slab := {s.slab with freeList := next, numUsed := (s.slab.numUsed+1)%2^32}
    -- the assertion against corruption
    if next = 0 ∧ slab.numUsed = slab.numBlocks ∨ slabPtrIsGood cfg slab next then
      some ({s with slab},.got s.slab.freeList)
    else none
  else if !wait || !cfg.multithreading then some (s,.failed (-ENOMEM))
  else some ({s with
    waitQ := pend outranks t s.waitQ, call := update s.call t .pended},.pended)

def kMemSlabFree (s : State τ) (mem : ℕ) : Option (State τ × Reply τ) :=
  if !slabPtrIsGood cfg s.slab mem then none
  else
    let listed : State τ × Reply τ := ({s with slab := {s.slab with
      mem := update s.slab.mem mem s.slab.freeList
      freeList := mem
      numUsed := (s.slab.numUsed+2^32-1)%2^32}},.none)
    if s.slab.freeList = 0 ∧ cfg.multithreading = true then
      match s.waitQ with
      | t::q => some ({s with waitQ := q, call := update s.call t (.woken 0 mem)},.passed t)
      | [] => some listed
    else some listed

def step (s : State τ) : Action τ → Option (State τ × Reply τ)
  | .alloc t wait outranks => kMemSlabAlloc cfg s t wait outranks
  | .free mem => kMemSlabFree cfg s mem
  | .timeout t =>
    some ({s with
      waitQ := s.waitQ.erase t, call := update s.call t (.woken (-EAGAIN) 0)},.none)
  | .ret t =>
    match s.call t with
    | .woken ret swapData =>
      some ({s with call := update s.call t .none},
        if ret = 0 then .got swapData else .failed ret)
    | _ => none
  | .store addr val => some ({s with slab := {s.slab with mem := update s.slab.mem addr val}},.none)

abbrev Held (τ : Type*) := List (τ × ℕ)

def Held.next (held : Held τ) (_s _t : State τ) (a : Action τ) (o : Reply τ) : Held τ :=
  match a,o with
  | .alloc t _ _,.got mem => (t,mem)::held
  | .free mem,.passed t => (t,mem)::held.filter (·.2 ≠ mem)
  | .free mem,_ => held.filter (·.2 ≠ mem)
  | _,_ => held

/-- A thread in a call makes no other one; blocks are freed and written to while they are held, and
not before the call that gets them has returned. -/
def Meets (x : State τ × Held τ) : Action τ → Prop
  | .alloc t _ _ => x.1.call t = .none
  | .free mem => ∃ h ∈ x.2, h.2 = mem ∧ x.1.call h.1 = .none
  | .timeout t => x.1.call t = .pended
  | .ret t => x.1.call t ≠ .none ∧ x.1.call t ≠ .pended
  | .store addr _ => ∃ h ∈ x.2, h.2 ≤ addr ∧ addr < h.2+x.1.slab.blockSize ∧ x.1.call h.1 = .none

instance (x : State τ × Held τ) (a : Action τ) : Decidable (Meets x a) := by
  unfold Meets
  split <;> infer_instance

/-- The blocks of a list, as far as the given number. -/
def walk (mem : ℕ → ℕ) : ℕ → ℕ → List ℕ
  | 0,_ => []
  | n+1,p => if p = 0 then [] else p::walk mem n (mem p)

/-- The free list; more blocks than there are would show. -/
def Slab.free (slab : Slab) : List ℕ := walk slab.mem (slab.numBlocks+1) slab.freeList

def Slab.blocks (slab : Slab) : List ℕ := (List.range slab.numBlocks).map (slab.buffer+slab.blockSize*·)

/-- The free list and the blocks that callers hold are all blocks, each once. -/
structure Partition (x : State τ × Held τ) : Prop where
  perm : (x.1.slab.free++x.2.map snd).Perm x.1.slab.blocks
  numUsed : x.1.slab.numUsed = x.2.length
  pended : ∀ t, x.1.call t = .pended → x.1.slab.freeList = 0
  alone : ∀ t u mem, (t,mem) ∈ x.2 → (u,mem) ∈ x.2 → t = u

/-- What an allocation returns is a block that its caller holds, and so is what is passed on. -/
def Given (a : Action τ) (o : Reply τ) (y : State τ × Held τ) : Prop :=
  (∀ t wait outranks mem, a = .alloc t wait outranks → o = .got mem → (t,mem) ∈ y.2) ∧
  (∀ t mem, a = .ret t → o = .got mem → (t,mem) ∈ y.2) ∧
  ∀ t mem, a = .free mem → o = .passed t → (t,mem) ∈ y.2

end Steps

def Chain (mem : ℕ → ℕ) : ℕ → List ℕ → Prop
  | p,[] => p = 0
  | p,b::l => p = b ∧ b ≠ 0 ∧ Chain mem (mem b) l

section Chains
variable {mem mem' : ℕ → ℕ} {p n : ℕ} {l : List ℕ}

lemma Chain.walk (h : Chain mem p l) (hn : l.length ≤ n) : walk mem n p = l := by
  induction l generalizing p n with
  | nil =>
    obtain rfl : p = 0 := h
    cases n <;> rfl
  | cons b l ih =>
    obtain ⟨rfl,hb,hl⟩ := h
    cases n with
    | zero => simp at hn
    | succ n => rw [walk,if_neg hb,ih hl (by simpa using hn)]

lemma Chain.congr (h : Chain mem p l) (hmem : ∀ b ∈ l, mem' b = mem b) : Chain mem' p l := by
  induction l generalizing p with
  | nil => exact h
  | cons b l ih =>
    obtain ⟨hp,hb,hl⟩ := h
    refine ⟨hp,hb,?_⟩
    rw [hmem b (mem_cons_self ..)]
    exact ih hl fun c hc => hmem c (mem_cons_of_mem _ hc)

end Chains

section Runs
variable {τ : Type*} {cfg : Config} {p : Params cfg}

/-- The loop of `create_free_list` links the blocks from the last to the first. -/
lemma createLoop_spec (cfg : Config) {buffer blockSize k freeList rounds : ℕ} {mem : ℕ → ℕ} {l : List ℕ}
    (hpos : 0 < blockSize) (hlow : blockSize ≤ buffer) (hk : buffer+blockSize*k < 2^cfg.wordBits)
    (hl : Chain mem freeList l) (hbehind : ∀ b ∈ l, buffer+blockSize*k < b) (hrounds : k+2 ≤ rounds) :
    ∃ mem', createLoop cfg buffer blockSize rounds (buffer+blockSize*k) freeList mem = some (buffer,mem') ∧
      Chain mem' buffer ((List.range (k+1)).map (buffer+blockSize*·)++l) := by
  have hlisted : ∀ {k : ℕ} {mem : ℕ → ℕ} {freeList : ℕ} {l : List ℕ}, Chain mem freeList l →
      (∀ b ∈ l, buffer+blockSize*k < b) →
      Chain (update mem (buffer+blockSize*k) freeList) (buffer+blockSize*k)
        ((buffer+blockSize*k)::l) := by
    intro k mem freeList l hl hbehind
    refine ⟨rfl,by omega,?_⟩
    rw [update_self]
    exact hl.congr fun b hb => update_of_ne (hbehind b hb).ne' ..
  induction k generalizing mem freeList l rounds with
  | zero =>
    obtain ⟨rounds,rfl⟩ := Nat.exists_eq_add_of_le' hrounds
    have hend : (buffer+2^cfg.wordBits-blockSize)%2^cfg.wordBits = buffer-blockSize := by
      rw [show buffer+2^cfg.wordBits-blockSize = buffer-blockSize+2^cfg.wordBits by omega,add_mod_right]
      exact mod_eq_of_lt (by omega)
    refine ⟨update mem buffer freeList,?_,by simpa using hlisted hl hbehind⟩
    simp [createLoop,hend,show ¬buffer ≤ buffer-blockSize by omega]
  | succ k ih =>
    obtain ⟨rounds,rfl⟩ := Nat.exists_eq_add_of_le' hrounds
    have hmul : blockSize*(k+1) = blockSize*k+blockSize := by ring
    have hnext : (buffer+blockSize*(k+1)+2^cfg.wordBits-blockSize)%2^cfg.wordBits = buffer+blockSize*k := by
      rw [show buffer+blockSize*(k+1)+2^cfg.wordBits-blockSize = buffer+blockSize*k+2^cfg.wordBits by omega,
        add_mod_right]
      exact mod_eq_of_lt (by omega)
    have hbehind' : ∀ b ∈ (buffer+blockSize*(k+1))::l, buffer+blockSize*k < b := by
      intro b hb
      rcases mem_cons.mp hb with rfl | hb
      · omega
      · have := hbehind b hb
        omega
    obtain ⟨mem',hloop,hchain⟩ := ih (by omega) (hlisted hl hbehind) hbehind'
      (show k+2 ≤ rounds+(k+2) by omega)
    refine ⟨mem',?_,?_⟩
    · rw [show rounds+(k+1+2) = rounds+(k+2)+1 by omega,createLoop,if_pos (by omega),hnext]
      exact hloop
    · rw [range_succ,map_append,append_assoc]
      exact hchain

lemma blocks_nodup (slab : Slab) (hpos : 0 < slab.blockSize) : slab.blocks.Nodup := by
  refine nodup_range.map fun i j hij => ?_
  exact Nat.eq_of_mul_eq_mul_left hpos (Nat.add_left_cancel hij)

/-- The buffer is not below the size of a block. -/
def Low (p : Params cfg) : Prop := 0 < p.blockSize ∧ p.blockSize ≤ p.buffer

instance (p : Params cfg) : Decidable (Low p) := inferInstanceAs (Decidable (_ ∧ _))

/-- The slab has the parameters it was initialised with. -/
structure Slab.Of (slab : Slab) (p : Params cfg) : Prop where
  buffer : slab.buffer = p.buffer
  blockSize : slab.blockSize = p.blockSize
  numBlocks : slab.numBlocks = p.numBlocks

lemma slabPtrIsGood_of_mem {slab : Slab} (h : slab.Of p) (hlow : Low p) {b : ℕ} (hb : b ∈ slab.blocks) :
    slabPtrIsGood cfg slab b = true := by
  obtain ⟨i,hi,rfl⟩ := mem_map.mp hb
  rw [mem_range] at hi
  have hsize := p.size_lt
  have hlt : slab.blockSize*i < slab.blockSize*slab.numBlocks := by
    refine mul_lt_mul_of_pos_left hi ?_
    rw [h.blockSize]
    exact hlow.1
  rw [← h.blockSize,← h.numBlocks] at hsize
  have hword : 2^(cfg.wordBits-1) ≤ 2^cfg.wordBits := Nat.pow_le_pow_right (by decide) (by omega)
  have hoffset : (slab.buffer+slab.blockSize*i+2^cfg.wordBits-slab.buffer)%2^cfg.wordBits = slab.blockSize*i := by
    rw [show slab.buffer+slab.blockSize*i+2^cfg.wordBits-slab.buffer =
      slab.blockSize*i+2^cfg.wordBits by omega,add_mod_right]
    exact mod_eq_of_lt (by omega)
  rw [slabPtrIsGood,hoffset,mod_eq_of_lt (by omega)]
  simp [hlt,show slab.blockSize*i < 2^(cfg.wordBits-1) by omega]

/-- Every block is free or held once; threads wait only while none is free. -/
structure Good (p : Params cfg) (x : State τ × Held τ) : Prop where
  slab : x.1.slab.Of p
  chain : ∃ l, Chain x.1.slab.mem x.1.slab.freeList l ∧ (l++x.2.map snd).Perm x.1.slab.blocks
  numUsed : x.1.slab.numUsed = x.2.length
  waits : x.1.waitQ ≠ [] → x.1.slab.freeList = 0
  pended : ∀ t, t ∈ x.1.waitQ ↔ x.1.call t = .pended
  nodup : x.1.waitQ.Nodup
  single : cfg.multithreading = false → x.1.waitQ = []
  given : ∀ t mem, x.1.call t = .woken 0 mem → (t,mem) ∈ x.2

namespace Good
variable {x : State τ × Held τ}

section
variable (h : Good p x) {held : τ × ℕ}
include h

lemma length_le : x.2.length ≤ p.numBlocks := by
  obtain ⟨l,-,hperm⟩ := h.chain
  have := hperm.length_eq
  rw [length_append,length_map,Slab.blocks,length_map,length_range,h.slab.numBlocks] at this
  omega

lemma nodup_held (hlow : Low p) : (x.2.map snd).Nodup := by
  obtain ⟨l,-,hperm⟩ := h.chain
  have hblocks := blocks_nodup x.1.slab (by rw [h.slab.blockSize]; exact hlow.1)
  exact (nodup_append.mp (hperm.nodup_iff.mpr hblocks)).2.1

lemma partition (hlow : Low p) : Partition x := by
  obtain ⟨l,hl,hperm⟩ := h.chain
  have hlen := hperm.length_eq
  rw [length_append,Slab.blocks,length_map (f := fun i => x.1.slab.buffer+x.1.slab.blockSize*i),
    length_range] at hlen
  refine ⟨?_,h.numUsed,fun t ht => h.waits ?_,fun t u mem ht hu => ?_⟩
  · rw [Slab.free,hl.walk (by omega)]
    exact hperm
  · exact ne_nil_of_mem ((h.pended t).mpr ht)
  · exact congrArg fst (inj_on_of_nodup_map (h.nodup_held hlow) ht hu rfl)

lemma not_mem_free (hlow : Low p) {l : List ℕ}
    (hperm : (l++x.2.map snd).Perm x.1.slab.blocks) (hheld : held ∈ x.2) : held.2 ∉ l := by
  have hblocks := blocks_nodup x.1.slab (by rw [h.slab.blockSize]; exact hlow.1)
  have hdisj := (nodup_append.mp (hperm.nodup_iff.mpr hblocks)).2.2
  exact fun hl => hdisj held.2 hl held.2 (mem_map_of_mem hheld) rfl

lemma held_perm (hlow : Low p) (hheld : held ∈ x.2) :
    (x.2.map snd).Perm (held.2::(x.2.filter (·.2 ≠ held.2)).map snd) := by
  have hmap : (x.2.filter (·.2 ≠ held.2)).map snd = (x.2.map snd).erase held.2 := by
    rw [(h.nodup_held hlow).erase_eq_filter,filter_map]
    refine congrArg _ (filter_congr fun y _ => ?_)
    simp [bne,Bool.beq_eq_decide_eq]
  rw [hmap]
  exact perm_cons_erase (mem_map_of_mem hheld)

/-- Blocks that are passed on and not returned yet are others than one that is freed. -/
lemma given_filter (hlow : Low p) (hheld : held ∈ x.2)
    (hcall : x.1.call held.1 = .none) {u : τ} {mem : ℕ} (hu : x.1.call u = .woken 0 mem) :
    (u,mem) ∈ x.2.filter (·.2 ≠ held.2) := by
  have hmem := h.given u mem hu
  refine mem_filter.mpr ⟨hmem,decide_eq_true fun heq => ?_⟩
  have huh := (h.partition hlow).alone u held.1 held.2 (heq ▸ hmem) hheld
  rw [huh,hcall] at hu
  cases hu

/-- A block goes to the head of the free list. -/
lemma putBack (hlow : Low p) (hheld : held ∈ x.2)
    (hcall : x.1.call held.1 = .none) (hq : x.1.waitQ = []) {numUsed : ℕ} (hused : numUsed+1 = x.2.length) :
    Good p ({x.1 with slab := {x.1.slab with
      mem := update x.1.slab.mem held.2 x.1.slab.freeList, freeList := held.2, numUsed}},
      x.2.filter (·.2 ≠ held.2)) := by
  obtain ⟨l,hl,hperm⟩ := h.chain
  have hheldp := h.held_perm hlow hheld
  have hlen := hheldp.length_eq
  rw [length_map,length_cons,length_map] at hlen
  have hne : held.2 ≠ 0 := by
    obtain ⟨i,-,hi⟩ := mem_map.mp (hperm.subset (mem_append_right l (mem_map_of_mem hheld)))
    have := hlow.2
    have := hlow.1
    rw [← hi,h.slab.buffer]
    omega
  have hchain : Chain (update x.1.slab.mem held.2 x.1.slab.freeList)
      (update x.1.slab.mem held.2 x.1.slab.freeList held.2) l := by
    rw [update_self]
    refine hl.congr fun b hb => update_of_ne ?_ ..
    rintro rfl
    exact h.not_mem_free hlow hperm hheld hb
  have hperm' : (held.2::l++(x.2.filter (·.2 ≠ held.2)).map snd).Perm x.1.slab.blocks :=
    perm_middle.symm.trans ((hheldp.symm.append_left l).trans hperm)
  exact ⟨⟨h.slab.buffer,h.slab.blockSize,h.slab.numBlocks⟩,⟨held.2::l,⟨rfl,hne,hchain⟩,hperm'⟩,
    Nat.succ.inj (hused.trans hlen),by simp [hq],h.pended,h.nodup,h.single,
    fun u mem hu => h.given_filter hlow hheld hcall hu⟩

/-- A holder writes to its block. -/
lemma store (hlow : Low p) (hheld : held ∈ x.2) {addr : ℕ}
    (hle : held.2 ≤ addr) (hlt : addr < held.2+x.1.slab.blockSize) (val : ℕ) :
    Good p ({x.1 with slab := {x.1.slab with mem := update x.1.slab.mem addr val}},x.2) := by
  obtain ⟨l,hl,hperm⟩ := h.chain
  refine ⟨⟨h.slab.buffer,h.slab.blockSize,h.slab.numBlocks⟩,⟨l,?_,hperm⟩,h.numUsed,h.waits,h.pended,h.nodup,
    h.single,h.given⟩
  refine hl.congr fun b hb => update_of_ne (fun heq => ?_) ..
  obtain ⟨i,-,hi⟩ := mem_map.mp (hperm.subset (mem_append_left _ hb))
  obtain ⟨j,-,hj⟩ := mem_map.mp (hperm.subset (mem_append_right l (mem_map_of_mem hheld)))
  have hij : i = j := by
    have h₁ : x.1.slab.blockSize*j ≤ x.1.slab.blockSize*i := by omega
    have h₂ : x.1.slab.blockSize*i < x.1.slab.blockSize*(j+1) := by
      rw [mul_add_one]
      omega
    have hpos : 0 < x.1.slab.blockSize := by
      rw [h.slab.blockSize]
      exact hlow.1
    have := le_of_mul_le_mul_left h₁ hpos
    have := lt_of_mul_lt_mul_left h₂
    omega
  subst hij
  exact h.not_mem_free hlow hperm hheld (hj ▸ hi ▸ hb)

end

variable [DecidableEq τ]

section
variable (h : Good p x)
include h

/-- A free block is given to a thread. -/
lemma take (hlow : Low p) (t : τ) (hfree : x.1.slab.freeList ≠ 0) :
    ∃ s mem, (∀ wait outranks, kMemSlabAlloc cfg x.1 t wait outranks = some (s,.got mem)) ∧
      Good p (s,(t,mem)::x.2) := by
  obtain ⟨l,hl,hperm⟩ := h.chain
  have hlt := p.numBlocks_lt
  have hlen := hperm.length_eq
  rw [length_append,length_map,Slab.blocks,length_map,length_range,h.slab.numBlocks] at hlen
  cases l with
  | nil => exact absurd hl hfree
  | cons b l =>
    obtain ⟨hb,-,hl⟩ := hl
    rw [length_cons] at hlen
    have hcount : (x.1.slab.numUsed+1)%2^32 = x.2.length+1 := by
      rw [h.numUsed]
      exact mod_eq_of_lt (by omega)
    have hassert : x.1.slab.mem b = 0 ∧ x.2.length+1 = x.1.slab.numBlocks ∨
        slabPtrIsGood cfg x.1.slab (x.1.slab.mem b) = true := by
      cases l with
      | nil =>
        rw [h.slab.numBlocks]
        exact .inl ⟨hl,by simpa [add_comm] using hlen⟩
      | cons c l =>
        rw [hl.1]
        exact .inr (slabPtrIsGood_of_mem h.slab hlow (hperm.subset (by simp)))
    refine ⟨{x.1 with slab := {x.1.slab with freeList := x.1.slab.mem b, numUsed := x.2.length+1}},b,
      fun wait outranks => ?_,?_⟩
    · rw [kMemSlabAlloc,if_pos hfree]
      rw [hb,hcount]
      exact if_pos hassert
    · refine ⟨⟨h.slab.buffer,h.slab.blockSize,h.slab.numBlocks⟩,⟨l,hl,?_⟩,rfl,fun hne => ?_,h.pended,h.nodup,
        h.single,fun u mem hu => mem_cons_of_mem _ (h.given u mem hu)⟩
      · exact perm_middle.trans hperm
      · exact absurd (h.waits hne) hfree

lemma alloc (hlow : Low p) {t : τ} {wait : Bool} {outranks : τ → Bool}
    (ht : x.1.call t = .none) : ∃ s o, kMemSlabAlloc cfg x.1 t wait outranks = some (s,o) ∧
      Good p (s,x.2.next x.1 s (.alloc t wait outranks) o) ∧
      Given (.alloc t wait outranks) o (s,x.2.next x.1 s (.alloc t wait outranks) o) := by
  by_cases hfree : x.1.slab.freeList = 0
  · have hout : t ∉ x.1.waitQ := fun hin => by simp [(h.pended t).mp hin] at ht
    rw [kMemSlabAlloc,if_neg (not_not.mpr hfree)]
    split_ifs
    · exact ⟨_,_,rfl,h,by simp [Given]⟩
    · refine ⟨_,_,rfl,⟨h.slab,h.chain,h.numUsed,fun _ => hfree,fun u => ?_,?_,?_,fun u mem hu => ?_⟩,by simp [Given]⟩
      · rw [mem_pend]
        by_cases hut : u = t
        · simp [hut]
        · simpa [hut] using h.pended u
      · exact (pend_perm outranks t _).nodup_iff.mpr (nodup_cons.mpr ⟨hout,h.nodup⟩)
      · simp_all
      · by_cases hut : u = t
        · simp [hut] at hu
        · exact h.given u mem (by simpa [hut] using hu)
  · obtain ⟨s,mem,hs,hgood⟩ := h.take hlow t hfree
    refine ⟨s,.got mem,hs wait outranks,hgood,?_,by simp,by simp⟩
    rintro u wait' outranks' mem' ⟨⟩ ⟨⟩
    exact mem_cons_self ..

/-- A freed block goes to the first thread that waits. -/
lemma passOn (hlow : Low p) {held : τ × ℕ} (hheld : held ∈ x.2)
    (hcall : x.1.call held.1 = .none) {t : τ} {q : List τ} (hq : x.1.waitQ = t::q) :
    Good p ({x.1 with waitQ := q, call := update x.1.call t (.woken 0 held.2)},
      (t,held.2)::x.2.filter (·.2 ≠ held.2)) := by
  obtain ⟨l,hl,hperm⟩ := h.chain
  have hnodup := h.nodup
  rw [hq,nodup_cons] at hnodup
  have hheldp := h.held_perm hlow hheld
  refine ⟨h.slab,⟨l,hl,?_⟩,?_,fun _ => h.waits (by simp [hq]),fun u => ?_,hnodup.2,fun hmt => ?_,
    fun u mem hu => ?_⟩
  · exact (hheldp.symm.append_left l).trans hperm
  · have := hheldp.length_eq
    rw [length_map,length_cons,length_map] at this
    exact h.numUsed.trans this
  · by_cases hut : u = t
    · simp [hut,hnodup.1]
    · have hpended := h.pended u
      rw [hq] at hpended
      simpa [hut] using hpended
  · simp [h.single hmt] at hq
  · by_cases hut : u = t
    · obtain rfl : held.2 = mem := by simpa [hut] using hu
      simp [hut]
    · exact mem_cons_of_mem _ (h.given_filter hlow hheld hcall (by simpa [hut] using hu))

lemma free (hlow : Low p) {held : τ × ℕ} (hheld : held ∈ x.2) (hcall : x.1.call held.1 = .none) :
    ∃ s o, kMemSlabFree cfg x.1 held.2 = some (s,o) ∧ Good p (s,x.2.next x.1 s (.free held.2) o) ∧
      Given (.free held.2) o (s,x.2.next x.1 s (.free held.2) o) := by
  obtain ⟨l,hl,hperm⟩ := h.chain
  have hgood : slabPtrIsGood cfg x.1.slab held.2 = true :=
    slabPtrIsGood_of_mem h.slab hlow (hperm.subset (mem_append_right _ (mem_map_of_mem hheld)))
  have hnone : ∀ y : State τ × Held τ, Given (.free held.2) .none y := by simp [Given]
  have hused : (x.1.slab.numUsed+2^32-1)%2^32+1 = x.2.length := by
    have := length_pos_of_mem hheld
    have := h.length_le
    have := p.numBlocks_lt
    rw [h.numUsed]
    omega
  rw [kMemSlabFree,if_neg (by simp [hgood])]
  split_ifs with hfree
  · split
    · rename_i t q hq
      refine ⟨_,_,rfl,h.passOn hlow hheld hcall hq,by simp,by simp,?_⟩
      rintro u mem ⟨⟩ ⟨⟩
      exact mem_cons_self ..
    · rename_i hq
      exact ⟨_,_,rfl,h.putBack hlow hheld hcall hq hused,hnone _⟩
  · have hq : x.1.waitQ = [] := by
      by_contra hne
      refine hfree ⟨h.waits hne,?_⟩
      by_contra hmt
      exact hne (h.single (by simpa using hmt))
    exact ⟨_,_,rfl,h.putBack hlow hheld hcall hq hused,hnone _⟩

lemma timeout {t : τ} (ht : x.1.call t = .pended) : Good p ({x.1 with
      waitQ := x.1.waitQ.erase t, call := update x.1.call t (.woken (-EAGAIN) 0)},x.2) := by
  have hin := (h.pended t).mpr ht
  refine ⟨h.slab,h.chain,h.numUsed,fun _ => h.waits (ne_nil_of_mem hin),fun u => ?_,h.nodup.erase t,
    fun hmt => ?_,fun u mem hu => ?_⟩
  · by_cases hut : u = t
    · simp [hut,h.nodup.mem_erase_iff]
    · simpa [hut,h.nodup.mem_erase_iff] using h.pended u
  · simp [h.single hmt]
  · by_cases hut : u = t
    · simp [hut,EAGAIN] at hu
    · exact h.given u mem (by simpa [hut] using hu)

lemma ret {t : τ} {r : ℤ} {mem : ℕ} (ht : x.1.call t = .woken r mem) :
    Good p ({x.1 with call := update x.1.call t .none},x.2) := by
  refine ⟨h.slab,h.chain,h.numUsed,h.waits,fun u => ?_,h.nodup,h.single,fun u mem hu => ?_⟩
  · by_cases hut : u = t
    · subst hut
      simp [h.pended,ht]
    · simpa [hut] using h.pended u
  · by_cases hut : u = t
    · simp [hut] at hu
    · exact h.given u mem (by simpa [hut] using hu)

/-- Every step keeps the invariant, and gives what it replies. -/
lemma step (hlow : Low p) {a : Action τ} (ha : Meets x a) :
    ∃ y o, recording (step cfg) Held.next x a = some (y,o) ∧ Good p y ∧ Given a o y := by
  obtain ⟨s,held⟩ := x
  have hrec : ∀ {s' o}, step cfg s a = some (s',o) → Good p (s',held.next s s' a o) →
      Given a o (s',held.next s s' a o) →
      ∃ y o, recording (step cfg) Held.next (s,held) a = some (y,o) ∧ Good p y ∧ Given a o y :=
    fun hs hgood hgiven => ⟨_,_,recording_eq_some.mpr ⟨hs,rfl⟩,hgood,hgiven⟩
  cases a with
  | alloc t wait outranks =>
    obtain ⟨s',o,hs,hgood,hgiven⟩ := h.alloc hlow ha
    exact hrec hs hgood hgiven
  | free mem =>
    obtain ⟨b,hb,rfl,hcall⟩ := ha
    obtain ⟨s',o,hs,hgood,hgiven⟩ := h.free hlow hb hcall
    exact hrec hs hgood hgiven
  | timeout t => exact hrec rfl (h.timeout ha) (by simp [Given])
  | ret t =>
    cases hcall : s.call t with
    | none => exact absurd hcall ha.1
    | pended => exact absurd hcall ha.2
    | woken r mem =>
      refine hrec (by rw [step,hcall]) (h.ret hcall) ⟨by simp,?_,by simp⟩
      rintro u mem' ⟨⟩ hgot
      split_ifs at hgot with hr
      obtain rfl : mem = mem' := by simpa using hgot
      subst hr
      exact h.given t mem hcall
  | store addr val =>
    obtain ⟨b,hb,hle,hlt,-⟩ := ha
    exact hrec rfl (h.store hlow hb hle hlt val) (by simp [Given])

end

end Good

/-- `k_mem_slab_init` makes a slab of free blocks. -/
lemma kMemSlabInit_good (hlow : Low p) {rounds : ℕ} (hrounds : p.numBlocks < rounds) (mem : ℕ → ℕ) :
    ∃ s : State τ, kMemSlabInit cfg rounds p mem = some (s,0) ∧ Good p (s,[]) := by
  obtain ⟨k,hk⟩ := Nat.exists_eq_add_of_le' p.pos
  have hpos := hlow.1
  have hinside := p.inside
  have hlt := p.numBlocks_lt
  rw [hk,mul_add_one] at hinside
  have hlast : (p.numBlocks+2^32-1)%2^32 = k := by omega
  have haddr : (p.buffer+p.blockSize*k)%2^cfg.wordBits = p.buffer+p.blockSize*k := mod_eq_of_lt (by omega)
  have haligned : (p.blockSize ||| p.buffer) &&& (cfg.wordBytes-1) = 0 := by
    obtain ⟨j,hj⟩ : ∃ j, cfg.wordBytes = 2^j := by
      obtain hw | hw := cfg.word
      · exact ⟨2,by simp [Config.wordBytes,hw]⟩
      · exact ⟨3,by simp [Config.wordBytes,hw]⟩
    rw [hj,and_two_pow_sub_one_eq_mod,or_mod_two_pow,← hj,mod_eq_zero_of_dvd p.blockSize_aligned,
      mod_eq_zero_of_dvd p.buffer_aligned,zero_or]
  obtain ⟨mem',hloop,hchain⟩ := createLoop_spec cfg hpos hlow.2 (by omega) (show Chain mem 0 [] from rfl)
    (by simp) (show k+2 ≤ rounds by omega)
  refine ⟨⟨⟨p.buffer,p.blockSize,p.numBlocks,0,p.buffer,mem'⟩,[],fun _ => .none⟩,?_,?_⟩
  · rw [kMemSlabInit,createFreeList,if_neg (by simp [haligned])]
    dsimp only
    rw [hlast,haddr,hloop]
    rfl
  · refine ⟨⟨rfl,rfl,rfl⟩,⟨_,hchain,?_⟩,rfl,by simp,by simp,nodup_nil,fun _ => rfl,by simp⟩
    rw [Slab.blocks,hk]
    simp

end Runs

def cfg32 : Config := ⟨32,true,.inl rfl⟩

def twoBlocks : Params cfg32 :=
  ⟨0x20000000,8,2,by decide,by decide,by decide,by decide,by decide,by decide⟩

def twoListed : State (Fin 4) :=
  ⟨⟨0x20000000,8,2,0,0x20000000,
    update (update (fun _ => 7) 0x20000008 0) 0x20000000 0x20000008⟩,[],fun _ => .none⟩

def handOver : List (Action (Fin 4)) :=
  [.alloc 0 true fun _ => false,.alloc 1 false fun _ => false,.store 0x20000004 5,.alloc 2 true fun _ => false,
    .alloc 3 true fun _ => true,.alloc 0 false fun _ => false,.free 0x20000000,.timeout 2,.ret 3,.ret 2,
    .free 0x20000008,.free 0x20000000]

def largeBlock : Params cfg32 :=
  ⟨0x20000000,0x30000000,1,by decide,by decide,by decide,by decide,by decide,by decide⟩

end ArmFirmware.Zephyr.MemSlab
