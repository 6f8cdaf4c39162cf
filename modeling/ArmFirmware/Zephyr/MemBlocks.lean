import ArmFirmware.Library.Trace
import ArmFirmware.Zephyr.Bitarray.Bitwise

/-! Pools of memory blocks (`lib/mem_blocks/mem_blocks.c`), with the statistics of
CONFIG_SYS_MEM_BLOCKS_RUNTIME_STATS and without listeners. Addresses are those of a flat memory, and their
differences wrap around. -/
namespace ArmFirmware.Zephyr.MemBlocks
open Library Bitarray List Int Prod

/-- What a pool is defined with: memory for some blocks, the size of a block being a power of 2. -/
structure Pool where
  /-- The bits of a pointer and of `size_t`. -/
  w : ℕ
  numBlocks : ℕ
  blkSzShift : ℕ
  buffer : ℕ
  word : 32 ≤ w
  pos : 0 < numBlocks
  lt : numBlocks < 2^32
  base : 0 < buffer
  inside : buffer+numBlocks*2^blkSzShift ≤ 2^w
  /-- The memory is an array, whose size is in `ptrdiff_t`. -/
  size_lt : numBlocks*2^blkSzShift < 2^(w-1)

/-- What the calls change. -/
structure State where
  bitmap : Bitarray
  usedBlocks : ℕ
  maxUsedBlocks : ℕ

def Pool.init (c : Pool) : State := ⟨⟨c.numBlocks,fun _ => 0,c.pos,c.lt⟩,0,0⟩

section Functions
variable (c : Pool)

/-- The difference of a pointer and the buffer as `ptrdiff_t`, shifted to a number of blocks. -/
def blocksFrom (ptr : ℕ) : ℤ :=
  let diff := (ptr+(2^c.w-c.buffer))%2^c.w
  (if diff < 2^(c.w-1) then (diff : ℤ) else diff-2^c.w)/2^c.blkSzShift

def State.use (s : State) (bitmap : Bitarray) (num : ℕ) : State :=
  let used := (s.usedBlocks+num)%2^32
  ⟨bitmap,used,if s.maxUsedBlocks < used then used else s.maxUsedBlocks⟩

def allocBlocks (s : State) (numBlocks : ℕ) : Option (ℕ × State) := do
  match ← sysBitarrayAlloc c.w s.bitmap numBlocks with
  | (.error _,bitmap) => return (0,{ s with bitmap := bitmap })
  | (.ok offset,bitmap) => return ((c.buffer+offset*2^c.blkSzShift)%2^c.w,s.use bitmap numBlocks)

def freeBlocks (s : State) (ptr numBlocks : ℕ) : Option (Except Errno Unit × State) :=
  if ptr < c.buffer then some (.error .EFAULT,s)
  else
    let offset := (blocksFrom c ptr%2^c.w).toNat
    if offset ≥ c.numBlocks then some (.error .EFAULT,s)
    else do
      match ← sysBitarrayFree c.w s.bitmap numBlocks offset with
      | (.ok (),bitmap) =>
        return (.ok (),{ s with bitmap := bitmap, usedBlocks := (s.usedBlocks+(2^32-numBlocks))%2^32 })
      | (.error e,bitmap) => return (.error e,{ s with bitmap := bitmap })

def sysMemBlocksAllocContiguous (s : State) (count : ℕ) : Option (Except Errno ℕ × State) :=
  if count = 0 then some (.ok 0,s)
  else if count > c.numBlocks then some (.error .ENOMEM,s)
  else do
    let (ptr,s) ← allocBlocks c s count
    if ptr = 0 then return (.error .ENOMEM,s) else return (.ok ptr,s)

/-- The loop of `sys_mem_blocks_free`, with the result so far. Its counter is an `int`, there is no result if
it overflows. -/
def freeEach (s : State) (ret : Except Errno Unit) (i : ℕ) : List ℕ → Option (Except Errno Unit × State)
  | [] => some (ret,s)
  | ptr::ptrs => do
    let (r,s) ← freeBlocks c s ptr 1
    let ret := match r with
      | .ok () => ret
      | .error e => .error e
    if i+1 < 2^31 then freeEach s ret (i+1) ptrs else none

def sysMemBlocksFree (s : State) (inBlocks : List ℕ) : Option (Except Errno Unit × State) :=
  if inBlocks.length = 0 then some (.ok (),s)
  else if inBlocks.length > c.numBlocks then some (.error .EINVAL,s)
  else freeEach c s (.ok ()) 0 inBlocks

/-- The loop of `sys_mem_blocks_alloc`: the blocks that it gets, of which `n` are still missing. Its counter is
an `int`, too. -/
def allocEach (s : State) : ℕ → List ℕ → Option (List ℕ × State)
  | 0,outBlocks => some (outBlocks,s)
  | n+1,outBlocks => do
    let (ptr,s) ← allocBlocks c s 1
    if ptr = 0 then return (outBlocks,s)
    else if outBlocks.length+1 < 2^31 then allocEach s n (outBlocks++[ptr]) else none

def sysMemBlocksAlloc (s : State) (count : ℕ) : Option (Except Errno (List ℕ) × State) :=
  if count = 0 then some (.ok [],s)
  else if count > c.numBlocks then some (.error .ENOMEM,s)
  else do
    let (outBlocks,s) ← allocEach c s count []
    if outBlocks.length < count then
      let (_,s) ← sysMemBlocksFree c s outBlocks
      return (.error .ENOMEM,s)
    else return (.ok outBlocks,s)

def sysMemBlocksGet (s : State) (inBlock count : ℕ) : Option (Except Errno Unit × State) :=
  if count = 0 then some (.ok (),s)
  else
    -- an `int`, that is made `size_t` again
    let int := (blocksFrom c inBlock+2^31)%2^32-2^31
    let offset := (int%2^c.w).toNat
    if (offset+count)%2^c.w > c.numBlocks then some (.error .ENOMEM,s)
    else do
      match ← sysBitarrayTestAndSetRegion c.w s.bitmap count offset true with
      | (.ok (),bitmap) => return (.ok (),s.use bitmap count)
      | (.error _,bitmap) => return (.error .ENOMEM,{ s with bitmap := bitmap })

def sysMemBlocksFreeContiguous (s : State) (block count : ℕ) : Option (Except Errno Unit × State) :=
  if count = 0 then some (.ok (),s)
  else if count > c.numBlocks then some (.error .EINVAL,s)
  else freeBlocks c s block count

end Functions

inductive Action
  | alloc (count : ℕ)
  | allocContiguous (count : ℕ)
  | get (inBlock count : ℕ)
  | free (inBlocks : List ℕ)
  | freeContiguous (block count : ℕ)
  deriving DecidableEq

inductive Reply
  | done (ret : Except Errno Unit)
  | block (ret : Except Errno ℕ)
  | blocks (ret : Except Errno (List ℕ))
  deriving DecidableEq

def step (c : Pool) (s : State) : Action → Option (State × Reply)
  | .alloc count => (sysMemBlocksAlloc c s count).map fun r => (r.2,.blocks r.1)
  | .allocContiguous count => (sysMemBlocksAllocContiguous c s count).map fun r => (r.2,.block r.1)
  | .get inBlock count => (sysMemBlocksGet c s inBlock count).map fun r => (r.2,.done r.1)
  | .free inBlocks => (sysMemBlocksFree c s inBlocks).map fun r => (r.2,.done r.1)
  | .freeContiguous block count => (sysMemBlocksFreeContiguous c s block count).map fun r => (r.2,.done r.1)

attribute [local simp] MemBlocks.step

def Pool.row (c : Pool) (ptr count : ℕ) : List ℕ := (List.range count).map fun k => ptr+k*2^c.blkSzShift

attribute [local simp] Pool.row

def next (c : Pool) (held : List ℕ) (_ _ : State) : Action → Reply → List ℕ
  | .alloc _,.blocks (.ok ptrs) => held++ptrs
  | .allocContiguous count,.block (.ok ptr) => held++c.row ptr count
  | .get inBlock count,.done (.ok ()) => held++c.row inBlock count
  | .free inBlocks,_ => if inBlocks.length > c.numBlocks then held else held.filter fun p => p ∉ inBlocks
  | .freeContiguous block count,.done (.ok ()) => held.filter fun p => p ∉ c.row block count
  | _,_ => held

/-- A pointer is a whole number of blocks away from the buffer. -/
def Aligned (c : Pool) (ptr : ℕ) : Prop := ptr < 2^c.w ∧ (2^c.blkSzShift : ℤ) ∣ (ptr : ℤ)-c.buffer

/-- Pointers that callers pass are those of blocks, and not too far away for an `int`. -/
def Careful (c : Pool) : Action → Prop
  | .get inBlock _ => Aligned c inBlock ∧ -2^31 ≤ blocksFrom c inBlock ∧ blocksFrom c inBlock < 2^31
  | .free inBlocks => ∀ p ∈ inBlocks, Aligned c p
  | .freeContiguous block _ => Aligned c block
  | _ => True

instance (c : Pool) (ptr : ℕ) : Decidable (Aligned c ptr) := by
  unfold Aligned
  infer_instance

instance (c : Pool) (a : Action) : Decidable (Careful c a) := by
  unfold Careful
  split <;> infer_instance

def Pool.addr (c : Pool) (k : ℕ) : ℕ := c.buffer+k*2^c.blkSzShift

/-- The bitmap has the blocks that are handed out, and the statistics count them. -/
structure Good (c : Pool) (s : State) (held : List ℕ) : Prop where
  size : s.bitmap.numBits = c.numBlocks
  used : s.usedBlocks = s.bitmap.bits.count c.numBlocks 0
  bits : ∀ i, s.bitmap.bit i = true ↔ i < c.numBlocks ∧ c.addr i ∈ held
  blocks : ∀ p ∈ held, ∃ k < c.numBlocks, p = c.addr k
  nodup : held.Nodup

section Blocks
variable {c : Pool} {s s' : State} {held : List ℕ}

variable {k : ℕ}

lemma addr_inj {l : ℕ} (h : c.addr k = c.addr l) : k = l := by
  exact Nat.eq_of_mul_eq_mul_right (Nat.two_pow_pos c.blkSzShift) (Nat.add_left_cancel h)

lemma row_addr (a n : ℕ) : c.row (c.addr a) n = (List.range n).map fun k => c.addr (a+k) := by
  refine map_congr_left fun k _ => ?_
  rw [Pool.addr,Pool.addr]
  ring

variable {a n : ℕ}

lemma mem_row : c.addr k ∈ c.row (c.addr a) n ↔ a ≤ k ∧ k < a+n := by
  rw [row_addr,mem_map]
  constructor
  · rintro ⟨j,hj,hjk⟩
    have := addr_inj hjk
    rw [mem_range] at hj
    omega
  · intro ⟨hle,hlt⟩
    exact ⟨k-a,mem_range.mpr (by omega),by rw [Nat.add_sub_cancel' hle]⟩

lemma row_nodup (a n : ℕ) : (c.row (c.addr a) n).Nodup := by
  rw [row_addr]
  exact nodup_range.map_on fun k _ l _ hkl => Nat.add_left_cancel (addr_inj hkl)

lemma addr_lt (hk : k < c.numBlocks) : k*2^c.blkSzShift < 2^(c.w-1) ∧ c.addr k < 2^c.w := by
  have hmul : (k+1)*2^c.blkSzShift ≤ c.numBlocks*2^c.blkSzShift := Nat.mul_le_mul_right _ hk
  have hpos := Nat.two_pow_pos c.blkSzShift
  have hinside := c.inside
  have hsize := c.size_lt
  rw [Nat.add_mul] at hmul
  rw [Pool.addr]
  constructor <;> omega

lemma blocksFrom_addr (hk : k < c.numBlocks) : blocksFrom c (c.addr k) = k := by
  obtain ⟨hlt,hlt'⟩ := addr_lt hk
  have hinside := c.inside
  have hdiff : (c.addr k+(2^c.w-c.buffer))%2^c.w = k*2^c.blkSzShift := by
    have hpow : 2^(c.w-1) < 2^c.w := Nat.pow_lt_pow_right (by norm_num) (by have := c.word; omega)
    rw [Pool.addr,show c.buffer+k*2^c.blkSzShift+(2^c.w-c.buffer) = k*2^c.blkSzShift+2^c.w by omega,
      Nat.add_mod_right,
      Nat.mod_eq_of_lt (by omega)]
  simp only [blocksFrom,hdiff,if_pos hlt]
  push_cast
  exact mul_ediv_cancel _ (by positivity)

/-- An aligned pointer is the address of its block. -/
lemma eq_addr {ptr : ℕ} (halign : Aligned c ptr) (hk : k < c.numBlocks) (hfrom : blocksFrom c ptr = k) :
    ptr = c.addr k := by
  obtain ⟨hptr,hdvd⟩ := halign
  obtain ⟨hlt,hlt'⟩ := addr_lt hk
  have hinside := c.inside
  -- the difference, modulo the address space, is a whole number of blocks, too
  have hpow : (2^c.blkSzShift : ℤ) ∣ 2^c.w := by
    refine pow_dvd_pow 2 (Nat.le_of_lt ((Nat.pow_lt_pow_iff_right (a := 2) (by norm_num)).mp ?_))
    have hblock : 1*2^c.blkSzShift ≤ c.numBlocks*2^c.blkSzShift := Nat.mul_le_mul_right _ c.pos
    have := c.base
    omega
  have hmul : ∀ d : ℤ, (2^c.blkSzShift : ℤ) ∣ d → d/2^c.blkSzShift = k → d = (k*2^c.blkSzShift : ℕ) := by
    intro d hd hdk
    rw [← Int.ediv_mul_cancel hd,hdk]
    rfl
  by_cases hle : c.buffer ≤ ptr
  · have hdiff : (ptr+(2^c.w-c.buffer))%2^c.w = ptr-c.buffer := by
      rw [show ptr+(2^c.w-c.buffer) = ptr-c.buffer+2^c.w by omega,Nat.add_mod_right,Nat.mod_eq_of_lt (by omega)]
    simp only [blocksFrom,hdiff] at hfrom
    rw [ofNat_sub hle] at hfrom
    split_ifs at hfrom
    · have := hmul _ hdvd hfrom
      rw [Pool.addr]
      omega
    · have := hmul _ (dvd_sub hdvd hpow) hfrom
      have hcast : ((2^c.w : ℕ) : ℤ) = 2^c.w := by push_cast; rfl
      omega
  · have hdiff : (ptr+(2^c.w-c.buffer))%2^c.w = ptr+2^c.w-c.buffer := by
      rw [Nat.mod_eq_of_lt (by omega)]
      omega
    have hcast : ((ptr+2^c.w-c.buffer : ℕ) : ℤ) = ptr-c.buffer+2^c.w := by
      rw [ofNat_sub (by omega)]
      push_cast
      ring
    simp only [blocksFrom,hdiff,hcast] at hfrom
    rw [Pool.addr] at hlt'
    split_ifs at hfrom
    · have := hmul _ (dvd_add hdvd hpow) hfrom
      omega
    · have := hmul _ (by simpa using hdvd) hfrom
      omega

variable {b : Bitarray}

/-- A run of free blocks is taken. -/
lemma Good.take (h : Good c s held) (hin : a+n ≤ c.numBlocks) (hall : s.bitmap.bits.All n a false)
    (hb : b.bits = s.bitmap.bits.fill n a true) : Good c (s.use b n) (held++c.row (c.addr a) n) := by
  have hbit : ∀ i, b.bit i = if a ≤ i ∧ i < a+n then true else s.bitmap.bit i :=
    fun i => congrFun (congrArg Bits.bit hb) i
  have hfresh : ∀ k, a ≤ k → k < a+n → c.addr k ∉ held := fun k hk hk' hmem => by
    have hclear := (all_iff false).mp hall k hk hk'
    have hset := (h.bits k).mpr ⟨by omega,hmem⟩
    rw [hclear] at hset
    cases hset
  have hcount : b.bits.count c.numBlocks 0 = s.bitmap.bits.count c.numBlocks 0+n := by
    rw [hb,Bits.count_fill_true hin hall]
  have hsmall : b.bits.count c.numBlocks 0 ≤ c.numBlocks := Nat.count_le _
  refine ⟨(congrArg Bits.size hb).trans h.size,?_,fun i => ?_,fun p hp => ?_,?_⟩
  · have := c.lt
    simp only [State.use]
    rw [h.used,← hcount,Nat.mod_eq_of_lt (by omega)]
  · simp only [State.use]
    rw [hbit,mem_append,mem_row]
    split_ifs with hi
    · simp only [true_iff]
      exact ⟨by omega,.inr hi⟩
    · rw [h.bits]
      simp only [hi,or_false]
  · rcases mem_append.mp hp with hp | hp
    · exact h.blocks p hp
    · rw [row_addr,mem_map] at hp
      obtain ⟨k,hk,rfl⟩ := hp
      rw [mem_range] at hk
      exact ⟨a+k,by omega,rfl⟩
  · refine nodup_append'.mpr ⟨h.nodup,row_nodup a n,fun p hp hrow => ?_⟩
    obtain ⟨k,-,rfl⟩ := h.blocks p hp
    obtain ⟨hk,hk'⟩ := mem_row.mp hrow
    exact hfresh k hk hk' hp

lemma Good.give (h : Good c s held) (hin : a+n ≤ c.numBlocks) (hall : s.bitmap.bits.All n a true)
    (hb : b.bits = s.bitmap.bits.fill n a false) :
    Good c { s with bitmap := b, usedBlocks := (s.usedBlocks+(2^32-n))%2^32 }
      (held.filter fun p => p ∉ c.row (c.addr a) n) := by
  have hbit : ∀ i, b.bit i = if a ≤ i ∧ i < a+n then false else s.bitmap.bit i :=
    fun i => congrFun (congrArg Bits.bit hb) i
  have hcount : b.bits.count c.numBlocks 0+n = s.bitmap.bits.count c.numBlocks 0 := by
    rw [hb,Bits.count_fill_false hin hall]
  have hsmall : s.bitmap.bits.count c.numBlocks 0 ≤ c.numBlocks := Nat.count_le _
  refine ⟨(congrArg Bits.size hb).trans h.size,?_,fun i => ?_,fun p hp => h.blocks p (mem_of_mem_filter hp),
    h.nodup.filter _⟩
  · have := c.lt
    rw [h.used,← hcount,show b.bits.count c.numBlocks 0+n+(2^32-n) = b.bits.count c.numBlocks 0+2^32 by omega,
      Nat.add_mod_right,Nat.mod_eq_of_lt (by omega)]
  · dsimp only
    rw [hbit,mem_filter,decide_eq_true_eq,mem_row]
    split_ifs with hi
    · simp [hi]
    · rw [h.bits]
      simp only [hi,not_false_eq_true,and_true]

lemma Good.bits_eq (h : Good c s held) (h' : Good c s' held) : s'.bitmap.bits = s.bitmap.bits := by
  ext i
  · exact h'.size.trans h.size.symm
  · exact Bool.eq_iff_iff.mpr ((h'.bits i).trans (h.bits i).symm)

lemma Good.of_bits (h : Good c s held) (hb : b.bits = s.bitmap.bits) : Good c { s with bitmap := b } held := by
  refine ⟨(congrArg Bits.size hb).trans h.size,?_,fun i => ?_,h.blocks,h.nodup⟩
  · dsimp only
    rw [hb,h.used]
  · exact (Bool.eq_iff_iff.mp (congrFun (congrArg Bits.bit hb) i)).trans (h.bits i)

lemma addr_ne_zero (k : ℕ) : c.addr k ≠ 0 := by
  have := c.base
  rw [Pool.addr]
  omega

/-- Blocks behind each other are handed out, or `NULL`. -/
lemma allocBlocks_spec (h : Good c s held) (n : ℕ) : ∃ ptr s', allocBlocks c s n = some (ptr,s') ∧
      (ptr = 0 ∧ Good c s' held ∨ ∃ a, ptr = c.addr a ∧ Good c s' (held++c.row (c.addr a) n)) := by
  obtain ⟨r,b,hb,hfit⟩ := sysBitarrayAlloc_spec c.word s.bitmap n
  rw [allocBlocks,hb]
  cases r with
  | error e =>
    obtain ⟨rfl,-⟩ := hfit.failed e rfl
    exact ⟨0,s,rfl,.inl ⟨rfl,h⟩⟩
  | ok a =>
    obtain ⟨⟨⟨hn,hle,hall⟩,-⟩,hbits⟩ := hfit.taken a rfl
    rw [h.size] at hle
    refine ⟨c.addr a,s.use b n,?_,.inr ⟨a,rfl,h.take hle hall hbits⟩⟩
    have haddr := (addr_lt (show a < c.numBlocks by omega)).2
    rw [Pool.addr] at haddr
    simp only [Option.bind_eq_bind,Option.bind_some,Nat.mod_eq_of_lt haddr]
    rfl

lemma all_iff_row (h : Good c s held) (hin : a+n ≤ c.numBlocks) :
    s.bitmap.bits.All n a true ↔ ∀ p ∈ c.row (c.addr a) n, p ∈ held := by
  rw [all_iff,row_addr]
  constructor
  · intro hall p hp
    obtain ⟨k,hk,rfl⟩ := mem_map.mp hp
    rw [mem_range] at hk
    exact ((h.bits _).mp (hall (a+k) (by omega) (by omega))).2
  · intro hall i hi hi'
    refine (h.bits i).mpr ⟨by omega,hall _ (mem_map.mpr ⟨i-a,mem_range.mpr (by omega),?_⟩)⟩
    rw [Nat.add_sub_cancel' hi]

lemma blocksFrom_bounds (c : Pool) (ptr : ℕ) : -2^(c.w-1) ≤ blocksFrom c ptr ∧ blocksFrom c ptr < 2^(c.w-1) := by
  have hw := c.word
  have hhalf : (2 : ℤ)^c.w = 2*2^(c.w-1) := by
    rw [← pow_succ',Nat.sub_add_cancel (by omega)]
  have hblock : (0 : ℤ) < 2^c.blkSzShift := by positivity
  have hlt : ((ptr+(2^c.w-c.buffer))%2^c.w : ℕ) < 2^c.w := Nat.mod_lt _ (by positivity)
  rw [blocksFrom]
  generalize (ptr+(2^c.w-c.buffer))%2^c.w = d at hlt
  have hlt' : (d : ℤ) < 2^c.w := by exact_mod_cast hlt
  split_ifs with hd
  · have hd' : (d : ℤ) < 2^(c.w-1) := by exact_mod_cast hd
    have hnonneg : (0 : ℤ) ≤ d/2^c.blkSzShift := ediv_nonneg (by omega) hblock.le
    have hle : (d : ℤ)/2^c.blkSzShift ≤ d := ediv_le_self _ (by omega)
    omega
  · have hd' : (2 : ℤ)^(c.w-1) ≤ d := by exact_mod_cast Nat.not_lt.mp hd
    have hneg : ((d : ℤ)-2^c.w)/2^c.blkSzShift < 0 := ediv_neg_of_neg_of_pos (by omega) hblock
    have hle : (d : ℤ)-2^c.w ≤ (d-2^c.w)/2^c.blkSzShift := by
      rw [Int.le_ediv_iff_mul_le hblock]
      nlinarith
    omega

lemma eq_of_toNat_emod {w : ℕ} (hw : 32 ≤ w) {x : ℤ} (hlo : -2^(w-1) ≤ x) (hhi : x < 2^(w-1))
    (hk : (x%2^w).toNat = k) (hsmall : k < 2^31) : x = k := by
  have hhalf : (2 : ℤ)^w = 2*2^(w-1) := by
    rw [← pow_succ',Nat.sub_add_cancel (by omega)]
  have hpow : (2 : ℤ)^31 ≤ 2^(w-1) := pow_le_pow_right₀ (by norm_num) (by omega)
  by_cases hx : 0 ≤ x
  · rw [emod_eq_of_lt hx (by omega)] at hk
    omega
  · rw [← add_emod_right,emod_eq_of_lt (by omega) (by omega)] at hk
    omega

/-- `free_blocks` frees a run of blocks that are all in use, or fails. -/
lemma freeBlocks_spec (h : Good c s held) (hsmall : c.numBlocks < 2^31) {ptr : ℕ} (hn : 0 < n)
    (halign : Aligned c ptr) :
    ∃ r s', freeBlocks c s ptr n = some (r,s') ∧
      (r = .ok () ∧ (∀ p ∈ c.row ptr n, p ∈ held) ∧ Good c s' (held.filter fun p => p ∉ c.row ptr n) ∨
        ∃ e, r = .error e ∧ ¬(∀ p ∈ c.row ptr n, p ∈ held) ∧ Good c s' held) := by
  have hfirst : ptr ∈ c.row ptr n := mem_map.mpr ⟨0,mem_range.mpr hn,by simp⟩
  rw [freeBlocks]
  by_cases hlow : ptr < c.buffer
  · refine ⟨_,_,if_pos hlow,.inr ⟨_,rfl,fun hall => ?_,h⟩⟩
    obtain ⟨a,-,heq⟩ := h.blocks ptr (hall ptr hfirst)
    rw [heq,Pool.addr] at hlow
    omega
  · rw [if_neg hlow]
    generalize hoff : (blocksFrom c ptr%2^c.w).toNat = offset
    by_cases hhigh : offset ≥ c.numBlocks
    · refine ⟨_,_,if_pos hhigh,.inr ⟨_,rfl,fun hall => ?_,h⟩⟩
      obtain ⟨a,ha,heq⟩ := h.blocks ptr (hall ptr hfirst)
      rw [heq,blocksFrom_addr ha,emod_eq_of_lt (by omega) (by omega)] at hoff
      omega
    · obtain ⟨hlo,hhi⟩ := blocksFrom_bounds c ptr
      have hptr : ptr = c.addr offset := eq_addr halign (by omega) (eq_of_toNat_emod c.word hlo hhi hoff (by omega))
      have hfree := free_bitwise c.word (beyond_iff_of_small (n := n) (a := offset) c.word (h.size ▸ hsmall))
      obtain ⟨⟨r,b⟩,hb,hshown⟩ := Option.map_eq_some_iff.mp hfree
      simp only [if_neg hhigh,hb,Option.bind_eq_bind,Option.bind_some]
      rw [hptr]
      by_cases hin : offset+n ≤ c.numBlocks
      · have hgood : ¬s.bitmap.bits.Bad n offset := by
          rintro (hzero | hover)
          · omega
          · exact absurd (h.size ▸ hover) (Nat.not_lt.mpr hin)
        rw [Bits.free,if_neg hgood] at hshown
        by_cases hall : s.bitmap.bits.All n offset true
        · rw [if_pos hall] at hshown
          obtain ⟨rfl,hbits⟩ := mk.inj hshown
          exact ⟨_,_,rfl,.inl ⟨rfl,(all_iff_row h hin).mp hall,h.give hin hall hbits⟩⟩
        · rw [if_neg hall] at hshown
          obtain ⟨rfl,hbits⟩ := mk.inj hshown
          exact ⟨_,_,rfl,.inr ⟨_,rfl,(all_iff_row h hin).not.mp hall,h.of_bits hbits⟩⟩
      · have hbad : s.bitmap.bits.Bad n offset := .inr (by
          change offset+n > s.bitmap.numBits
          rw [h.size]
          omega)
        rw [Bits.free,if_pos hbad] at hshown
        obtain ⟨rfl,hbits⟩ := mk.inj hshown
        refine ⟨_,_,rfl,.inr ⟨_,rfl,fun hall => ?_,h.of_bits hbits⟩⟩
        -- the last of the blocks is outside
        obtain ⟨k,hk,heq⟩ := h.blocks _ (hall (c.addr (offset+(n-1))) (mem_row.mpr ⟨by omega,by omega⟩))
        have := addr_inj heq
        omega

lemma aligned_addr (hk : k < c.numBlocks) : Aligned c (c.addr k) := by
  refine ⟨(addr_lt hk).2,k,?_⟩
  rw [Pool.addr]
  push_cast
  ring

lemma row_one (ptr : ℕ) : c.row ptr 1 = [ptr] := by simp

/-- The loop of `sys_mem_blocks_free`. -/
lemma freeEach_spec (hsmall : c.numBlocks < 2^31) (ptrs : List ℕ) (h : Good c s held) (ret : Except Errno Unit)
    (i : ℕ) (hi : i+ptrs.length < 2^31) (halign : ∀ p ∈ ptrs, Aligned c p) :
    ∃ r s', freeEach c s ret i ptrs = some (r,s') ∧ Good c s' (held.filter fun p => p ∉ ptrs) ∧
      (r = .ok () → ret = .ok () ∧ ptrs.Nodup ∧ ∀ p ∈ ptrs, p ∈ held) := by
  induction ptrs generalizing s held ret i with
  | nil => exact ⟨ret,s,rfl,by simpa using h,fun hr => ⟨hr,nodup_nil,by simp⟩⟩
  | cons ptr ptrs ih =>
    rw [length_cons] at hi
    obtain ⟨r,s',hfree,hspec⟩ := freeBlocks_spec h hsmall Nat.one_pos (halign ptr (by simp))
    rw [row_one] at hspec
    have hrest : ∀ p ∈ ptrs, Aligned c p := fun p hp => halign p (by simp [hp])
    rw [freeEach,hfree,Option.bind_eq_bind,Option.bind_some]
    dsimp only
    rw [if_pos (by omega)]
    rcases hspec with ⟨rfl,hheld,hgood⟩ | ⟨e,rfl,hnot,hgood⟩
    · obtain ⟨r,s'',heach,hgood',hok⟩ := ih hgood ret (i+1) (by omega) hrest
      refine ⟨r,s'',heach,?_,fun hr => ?_⟩
      · rw [filter_filter] at hgood'
        refine cast (congrArg _ (filter_congr fun p _ => ?_)) hgood'
        simp [Bool.and_comm]
      · obtain ⟨hret,hnodup,hmem⟩ := hok hr
        have hne : ∀ p ∈ ptrs, p ∈ held ∧ p ≠ ptr := fun p hp => by simpa using mem_filter.mp (hmem p hp)
        refine ⟨hret,nodup_cons.mpr ⟨fun hp => (hne ptr hp).2 rfl,hnodup⟩,fun p hp => ?_⟩
        rcases mem_cons.mp hp with rfl | hp
        · exact hheld p (by simp)
        · exact (hne p hp).1
    · obtain ⟨r,s'',heach,hgood',hok⟩ := ih hgood (.error e) (i+1) (by omega) hrest
      refine ⟨r,s'',heach,?_,fun hr => nomatch (hok hr).1⟩
      refine cast (congrArg _ (filter_congr fun p hp => ?_)) hgood'
      have hne : p ≠ ptr := by
        rintro rfl
        exact hnot (by simpa using hp)
      simp [hne]

lemma free_spec (hsmall : c.numBlocks < 2^31) (h : Good c s held) (ptrs : List ℕ)
    (halign : ∀ p ∈ ptrs, Aligned c p) :
    ∃ r s', sysMemBlocksFree c s ptrs = some (r,s') ∧
      Good c s' (if ptrs.length > c.numBlocks then held else held.filter fun p => p ∉ ptrs) ∧
      (r = .ok () → ptrs.Nodup ∧ ∀ p ∈ ptrs, p ∈ held) := by
  rw [sysMemBlocksFree]
  by_cases hnil : ptrs.length = 0
  · obtain rfl := length_eq_zero_iff.mp hnil
    exact ⟨_,_,if_pos rfl,by simpa using h,fun _ => ⟨nodup_nil,by simp⟩⟩
  · rw [if_neg hnil]
    by_cases hlong : ptrs.length > c.numBlocks
    · rw [if_pos hlong,if_pos hlong]
      exact ⟨_,_,rfl,h,fun hr => nomatch hr⟩
    · rw [if_neg hlong,if_neg hlong]
      obtain ⟨r,s',heach,hgood,hok⟩ := freeEach_spec hsmall ptrs h (.ok ()) 0 (by omega) halign
      exact ⟨r,s',heach,hgood,fun hr => (hok hr).2⟩

lemma allocEach_spec (n : ℕ) (outs : List ℕ) (h : Good c s (held++outs)) (hlen : outs.length+n < 2^31) :
    ∃ outs' s', allocEach c s n outs = some (outs',s') ∧ Good c s' (held++outs') ∧ outs'.length ≤ outs.length+n := by
  induction n generalizing s outs with
  | zero => exact ⟨outs,s,rfl,h,le_rfl⟩
  | succ n ih =>
    obtain ⟨ptr,s',halloc,hspec⟩ := allocBlocks_spec h 1
    rw [allocEach,halloc,Option.bind_eq_bind,Option.bind_some]
    rcases hspec with ⟨rfl,hgood⟩ | ⟨a,rfl,hgood⟩
    · exact ⟨outs,s',rfl,hgood,by omega⟩
    · rw [row_one,append_assoc] at hgood
      obtain ⟨outs',s'',heach,hgood',hlen'⟩ :=
        ih (outs++[c.addr a]) hgood (by simp only [length_append,length_singleton]; omega)
      refine ⟨outs',s'',?_,hgood',by simp only [length_append,length_singleton] at hlen'; omega⟩
      dsimp only
      rw [if_neg (addr_ne_zero a),if_pos (by omega),heach]

/-- `sys_mem_blocks_alloc` allocates as many blocks as wanted, or none. -/
lemma alloc_spec (hsmall : c.numBlocks < 2^31) (h : Good c s held) (count : ℕ) :
    ∃ r s', sysMemBlocksAlloc c s count = some (r,s') ∧
      ((∃ ptrs, r = .ok ptrs ∧ ptrs.length = count ∧ Good c s' (held++ptrs)) ∨ r = .error .ENOMEM ∧
        Good c s' held) := by
  rw [sysMemBlocksAlloc]
  by_cases hzero : count = 0
  · exact ⟨_,_,if_pos hzero,.inl ⟨[],rfl,hzero.symm,by simpa using h⟩⟩
  · rw [if_neg hzero]
    by_cases hmany : count > c.numBlocks
    · exact ⟨_,_,if_pos hmany,.inr ⟨rfl,h⟩⟩
    · obtain ⟨outs,s',heach,hgood,hlen⟩ :=
        allocEach_spec count [] (by simpa using h) (by simp only [length_nil]; omega)
      simp only [if_neg hmany,heach,Option.bind_eq_bind,Option.bind_some]
      rw [length_nil,Nat.zero_add] at hlen
      by_cases hshort : outs.length < count
      · -- the blocks go back
        obtain ⟨-,-,hdisj⟩ := nodup_append'.mp hgood.nodup
        obtain ⟨r,s'',hfree,hgood',-⟩ := free_spec hsmall hgood outs fun p hp => by
          obtain ⟨k,hk,rfl⟩ := hgood.blocks p (by simp [hp])
          exact aligned_addr hk
        rw [if_neg (by omega)] at hgood'
        refine ⟨_,_,by simp only [if_pos hshort,hfree,Option.bind_some]; rfl,.inr ⟨rfl,?_⟩⟩
        refine cast (congrArg _ ?_) hgood'
        rw [filter_append,filter_eq_self.mpr fun p hp => by simpa using fun hp' => hdisj hp hp',
          filter_eq_nil_iff.mpr fun p hp => by simpa using hp,append_nil]
      · exact ⟨_,_,if_neg hshort,.inl ⟨outs,rfl,by omega,hgood⟩⟩

lemma allocContiguous_spec (h : Good c s held) (count : ℕ) :
    ∃ r s', sysMemBlocksAllocContiguous c s count = some (r,s') ∧
      ((∃ ptr, r = .ok ptr ∧ Good c s' (held++c.row ptr count)) ∨ r = .error .ENOMEM ∧ Good c s' held) := by
  rw [sysMemBlocksAllocContiguous]
  by_cases hzero : count = 0
  · exact ⟨_,_,if_pos hzero,.inl ⟨0,rfl,by simpa [hzero] using h⟩⟩
  · rw [if_neg hzero]
    by_cases hmany : count > c.numBlocks
    · exact ⟨_,_,if_pos hmany,.inr ⟨rfl,h⟩⟩
    · obtain ⟨ptr,s',halloc,hspec⟩ := allocBlocks_spec h count
      simp only [if_neg hmany,halloc,Option.bind_eq_bind,Option.bind_some]
      rcases hspec with ⟨rfl,hgood⟩ | ⟨a,rfl,hgood⟩
      · exact ⟨_,_,if_pos rfl,.inr ⟨rfl,hgood⟩⟩
      · exact ⟨_,_,if_neg (addr_ne_zero a),.inl ⟨_,rfl,hgood⟩⟩

lemma freeContiguous_spec (hsmall : c.numBlocks < 2^31) (h : Good c s held) (ptr count : ℕ)
    (halign : Aligned c ptr) :
    ∃ r s', sysMemBlocksFreeContiguous c s ptr count = some (r,s') ∧
      (r = .ok () ∧ (∀ p ∈ c.row ptr count, p ∈ held) ∧ Good c s' (held.filter fun p => p ∉ c.row ptr count) ∨
        ∃ e, r = .error e ∧ Good c s' held) := by
  rw [sysMemBlocksFreeContiguous]
  by_cases hzero : count = 0
  · exact ⟨_,_,if_pos hzero,.inl ⟨rfl,by simp [hzero],by simpa [hzero] using h⟩⟩
  · rw [if_neg hzero]
    by_cases hmany : count > c.numBlocks
    · exact ⟨_,_,if_pos hmany,.inr ⟨_,rfl,h⟩⟩
    · obtain ⟨r,s',hfree,hspec⟩ := freeBlocks_spec h hsmall (Nat.pos_of_ne_zero hzero) halign
      refine ⟨r,s',by rw [if_neg hmany,hfree],hspec.imp_right ?_⟩
      rintro ⟨e,hr,-,hgood⟩
      exact ⟨e,hr,hgood⟩

/-- `sys_mem_blocks_get` takes the wanted blocks, or fails. -/
lemma get_spec (hsmall : c.numBlocks < 2^31) (h : Good c s held) (ptr count : ℕ) (halign : Aligned c ptr)
    (hlo : -2^31 ≤ blocksFrom c ptr) (hhi : blocksFrom c ptr < 2^31) :
    ∃ r s', sysMemBlocksGet c s ptr count = some (r,s') ∧
      (r = .ok () ∧ Good c s' (held++c.row ptr count) ∨ r = .error .ENOMEM ∧ Good c s' held) := by
  rw [sysMemBlocksGet]
  by_cases hzero : count = 0
  · exact ⟨_,_,if_pos hzero,.inl ⟨rfl,by simpa [hzero] using h⟩⟩
  · have hint : (blocksFrom c ptr+2^31)%2^32-2^31 = blocksFrom c ptr := by
      rw [emod_eq_of_lt (by omega) (by omega)]
      omega
    simp only [if_neg hzero,hint]
    generalize hoff : (blocksFrom c ptr%2^c.w).toNat = offset
    by_cases hsum : (offset+count)%2^c.w > c.numBlocks
    · exact ⟨_,_,if_pos hsum,.inr ⟨rfl,h⟩⟩
    · have hset := testAndSetRegion_bitwise c.word
        (beyond_iff_of_small (n := count) (a := offset) c.word (h.size ▸ hsmall)) true
      obtain ⟨⟨r,b⟩,hb,hshown⟩ := Option.map_eq_some_iff.mp hset
      simp only [if_neg hsum,hb,Option.bind_eq_bind,Option.bind_some]
      rw [Bits.testAndSet] at hshown
      split_ifs at hshown with hbad hall
      · obtain ⟨rfl,hbits⟩ := mk.inj hshown
        exact ⟨_,_,rfl,.inr ⟨rfl,h.of_bits hbits⟩⟩
      · obtain ⟨rfl,hbits⟩ := mk.inj hshown
        have hin := h.size ▸ (inside_of_not_bad hbad).2
        obtain ⟨hlo',hhi'⟩ := blocksFrom_bounds c ptr
        have hptr : ptr = c.addr offset :=
          eq_addr halign (by omega) (eq_of_toNat_emod c.word hlo' hhi' hoff (by omega))
        exact ⟨_,_,rfl,.inl ⟨rfl,hptr ▸ h.take hin hall hbits⟩⟩
      · obtain ⟨rfl,hbits⟩ := mk.inj hshown
        exact ⟨_,_,rfl,.inr ⟨rfl,h.of_bits hbits⟩⟩

/-- What every step of a run must be like, with the blocks that are handed out before and after it. -/
structure Sound (c : Pool) (x y : State × List ℕ) (a : Action) (r : Reply) : Prop where
  inside : ∀ p ∈ y.2, c.buffer ≤ p ∧ p+2^c.blkSzShift ≤ c.buffer+c.numBlocks*2^c.blkSzShift
  apart : y.2.Pairwise fun p q => p+2^c.blkSzShift ≤ q ∨ q+2^c.blkSzShift ≤ p
  used : y.1.usedBlocks = y.1.bitmap.bits.count c.numBlocks 0
  alloc : ∀ count, a = .alloc count → (∃ ptrs, r = .blocks (.ok ptrs) ∧ ptrs.length = count ∧ y.2 = x.2++ptrs) ∨
    r = .blocks (.error .ENOMEM) ∧ y.1.bitmap.bits = x.1.bitmap.bits ∧ y.2 = x.2
  free : ∀ ptrs, a = .free ptrs → r = .done (.ok ()) → ptrs.Nodup ∧ ∀ p ∈ ptrs, p ∈ x.2
  freeContiguous : ∀ ptr count, a = .freeContiguous ptr count → r = .done (.ok ()) → ∀ p ∈ c.row ptr count, p ∈ x.2

lemma Good.inside (h : Good c s held) (p : ℕ) (hp : p ∈ held) :
    c.buffer ≤ p ∧ p+2^c.blkSzShift ≤ c.buffer+c.numBlocks*2^c.blkSzShift := by
  obtain ⟨k,hk,rfl⟩ := h.blocks p hp
  have hmul : (k+1)*2^c.blkSzShift ≤ c.numBlocks*2^c.blkSzShift := Nat.mul_le_mul_right _ hk
  rw [Nat.add_mul,Nat.one_mul] at hmul
  rw [Pool.addr]
  constructor <;> omega

lemma Good.apart (h : Good c s held) : held.Pairwise fun p q => p+2^c.blkSzShift ≤ q ∨ q+2^c.blkSzShift ≤ p := by
  refine h.nodup.imp_of_mem fun {p q} hp hq hne => ?_
  obtain ⟨k,-,rfl⟩ := h.blocks p hp
  obtain ⟨l,-,rfl⟩ := h.blocks q hq
  have hmul : ∀ i j, i < j → c.addr i+2^c.blkSzShift ≤ c.addr j := fun i j hij => by
    have hle : (i+1)*2^c.blkSzShift ≤ j*2^c.blkSzShift := Nat.mul_le_mul_right _ hij
    rw [Nat.add_mul,Nat.one_mul] at hle
    rw [Pool.addr,Pool.addr]
    omega
  rcases Nat.lt_or_gt_of_ne fun heq => hne (congrArg c.addr heq) with hlt | hlt
  · exact .inl (hmul k l hlt)
  · exact .inr (hmul l k hlt)

/-- Every careful call keeps the blocks in use apart. -/
lemma Good.step (h : Good c s held) (hsmall : c.numBlocks < 2^31) (a : Action) (hcare : Careful c a) :
    ∃ s' r, MemBlocks.step c s a = some (s',r) ∧ Good c s' (next c held s s' a r) ∧
      Sound c (s,held) (s',next c held s s' a r) a r := by
  cases a with
  | alloc count =>
    obtain ⟨r,s',halloc,hspec⟩ := alloc_spec hsmall h count
    refine ⟨s',.blocks r,by simp [halloc],?_⟩
    rcases hspec with ⟨ptrs,rfl,hlen,hgood⟩ | ⟨rfl,hgood⟩
    · refine ⟨hgood,hgood.inside,hgood.apart,hgood.used,?_,by simp,by simp⟩
      rintro _ ⟨⟩
      exact .inl ⟨ptrs,rfl,hlen,rfl⟩
    · refine ⟨hgood,hgood.inside,hgood.apart,hgood.used,?_,by simp,by simp⟩
      rintro _ ⟨⟩
      exact .inr ⟨rfl,h.bits_eq hgood,rfl⟩
  | allocContiguous count =>
    obtain ⟨r,s',halloc,hspec⟩ := allocContiguous_spec h count
    refine ⟨s',.block r,by simp [halloc],?_⟩
    rcases hspec with ⟨ptr,rfl,hgood⟩ | ⟨rfl,hgood⟩ <;>
      exact ⟨hgood,hgood.inside,hgood.apart,hgood.used,by simp,by simp,by simp⟩
  | get ptr count =>
    obtain ⟨r,s',hget,hspec⟩ := get_spec hsmall h ptr count hcare.1 hcare.2.1 hcare.2.2
    refine ⟨s',.done r,by simp [hget],?_⟩
    rcases hspec with ⟨rfl,hgood⟩ | ⟨rfl,hgood⟩ <;>
      exact ⟨hgood,hgood.inside,hgood.apart,hgood.used,by simp,by simp,by simp⟩
  | free ptrs =>
    obtain ⟨r,s',hfree,hgood,hok⟩ := free_spec hsmall h ptrs hcare
    refine ⟨s',.done r,by simp [hfree],hgood,hgood.inside,hgood.apart,hgood.used,by simp,?_,by simp⟩
    rintro _ ⟨⟩ hr
    exact hok (Reply.done.inj hr)
  | freeContiguous ptr count =>
    obtain ⟨r,s',hfree,hspec⟩ := freeContiguous_spec hsmall h ptr count hcare
    refine ⟨s',.done r,by simp [hfree],?_⟩
    rcases hspec with ⟨rfl,hheld,hgood⟩ | ⟨e,rfl,hgood⟩
    · refine ⟨hgood,hgood.inside,hgood.apart,hgood.used,by simp,by simp,?_⟩
      rintro _ _ ⟨⟩ -
      exact hheld
    · refine ⟨hgood,hgood.inside,hgood.apart,hgood.used,by simp,by simp,?_⟩
      rintro _ _ ⟨⟩ hr
      cases hr

end Blocks

lemma init_good (c : Pool) : Good c c.init [] := by
  have hclear : ∀ i, c.init.bitmap.bit i = false := fun i => by simp [Pool.init,Bitarray.bit,WordBits.bit]
  refine ⟨rfl,?_,fun i => by simp [hclear i],by simp,nodup_nil⟩
  exact (Nat.count_iff_forall_not.mpr fun i _ => by simp [bits,hclear]).symm

/-- Whatever sequence of calls is made with pointers to blocks: blocks that are handed out lie in the buffer and
do not overlap, the statistics count the set bits, `sys_mem_blocks_alloc` hands out all blocks or none, and only
blocks that are handed out are freed. -/
theorem runs_keep_blocks_apart (c : Pool) (hsmall : c.numBlocks < 2^31) (as : List Action)
    (hrun : Along (fun _ a => Careful c a) (step c) c.init as) :
    ∃ x os, serve? (recording (step c) (next c)) (c.init,[]) as = some (x,os) ∧
      Trace (fun x a r y => Sound c x y a r) (c.init,[]) as os x := by
  refine Trace.of_steps (I := fun x => Good c x.1 x.2) (fun x a hx hcare => ?_) (init_good c) (hrun.recording [])
  obtain ⟨s',r,hs,hgood,hsound⟩ := hx.step hsmall a hcare
  exact ⟨(s',_),r,recording_eq_some.mpr ⟨hs,rfl⟩,hgood,hsound⟩

lemma word_least : 32 ≤ 32 := le_rfl

def four : Pool := ⟨32,4,4,4096,word_least,by norm_num,by norm_num,by norm_num,by norm_num,by norm_num⟩

def shortOfBlocks : List Action :=
  [.alloc 2,.get 4144 1,.alloc 2,.free [4096,4144],.allocContiguous 1,.freeContiguous 4096 2,.freeContiguous 4000 1]

theorem runs_keep_blocks_apart_four :
    ∃ x os, serve? (recording (step four) (next four)) (four.init,[]) shortOfBlocks = some (x,os) ∧
      Trace (fun x a r y => Sound four x y a r) (four.init,[]) shortOfBlocks os x :=
  runs_keep_blocks_apart four (by decide) shortOfBlocks (by decide +kernel)

/-- An address in the middle of a block is accepted as the block's. -/
theorem frees_from_the_middle :
    ∃ x os, serve? (recording (step four) (next four)) (four.init,[]) [.alloc 1,.freeContiguous 4097 1] = some
      (x,os) ∧
      os = [.blocks (.ok [4096]),.done (.ok ())] ∧ x.1.usedBlocks = 0 ∧ 4097 ∉ [4096] :=
  ⟨_,_,rfl,by decide +kernel,by decide +kernel,by decide⟩

end ArmFirmware.Zephyr.MemBlocks
