import ArmFirmware.Library.Trace
import ArmFirmware.Zephyr.Crc

/-! The GUID partition table of `disk/part_efi.c`: how a copy of it is read from the device and
validated, and the entries that `part_get_info_efi` and `part_print_efi` look at. The array is as
large as the header says, and is indexed by the size of the structure. -/
namespace ArmFirmware.UBoot.Gpt
open Library List Zephyr

abbrev Byte := BitVec 8

abbrev Buffer := ℕ → Byte

def bytes (buf : Buffer) (off len : ℕ) : List Byte := (List.range len).map fun i => buf (off+i)

def le (buf : Buffer) (off len : ℕ) : ℕ := (bytes buf off len).foldr (fun b v => b.toNat+256*v) 0

/-! The fields of `gpt_header`. -/

def signature (h : Buffer) : ℕ := le h 0 8
def headerSize (h : Buffer) : ℕ := le h 12 4
def headerCrc32 (h : Buffer) : ℕ := le h 16 4
def myLba (h : Buffer) : ℕ := le h 24 8
def firstUsableLba (h : Buffer) : ℕ := le h 40 8
def lastUsableLba (h : Buffer) : ℕ := le h 48 8
def partitionEntryLba (h : Buffer) : ℕ := le h 72 8
def numPartitionEntries (h : Buffer) : ℕ := le h 80 4
def sizeofPartitionEntry (h : Buffer) : ℕ := le h 84 4
def partitionEntryArrayCrc32 (h : Buffer) : ℕ := le h 88 4

/-- The bytes of the entry array, a product of 32-bit numbers. -/
def arraySize (h : Buffer) : ℕ := numPartitionEntries h*sizeofPartitionEntry h%2^32

def sizeofGptEntry : ℕ := 128

/-- The fields of `struct blk_desc` that are read, and the device behind it. -/
structure BlkDesc where
  blksz : ℕ
  pos : 0 < blksz
  lba : ℕ
  rawblksz : ℕ
  rawlba : ℕ
  /-- `blk_dread`: the buffer after a number of blocks has been read from a block on, if the read
  succeeds (and the buffer could be allocated). -/
  dread : ℕ → ℕ → Option Buffer

def BlkDesc.sector (dev : BlkDesc) : ℕ := dev.rawblksz/dev.blksz

def BlkDesc.lastBlock (dev : BlkDesc) : ℕ := (dev.rawlba+(2^64-1))%2^64

/-- The entry array in memory, with the number of bytes that were read into it. -/
structure Entries where
  mem : Buffer
  read : ℕ

def GPT_HEADER_SIGNATURE : ℕ := 0x5452415020494645
def FACTORY_UNKNOWN_LBA : ℕ := 0xffffffff-34

section Validation
variable (crc32 : List Byte → BitVec 32)

def validateGptHeader (h : Buffer) (lba lastlba : ℕ) : Bool :=
  signature h = GPT_HEADER_SIGNATURE &&
  (crc32 (bytes (fun i => if 16 ≤ i ∧ i < 20 then 0 else h i) 0 (headerSize h))).toNat = headerCrc32 h &&
  myLba h = lba &&
  firstUsableLba h ≤ lastlba &&
  (lastUsableLba h ≤ lastlba || lastUsableLba h = FACTORY_UNKNOWN_LBA)

def validateGptEntries (h e : Buffer) : Bool :=
  (crc32 (bytes e 0 (arraySize h))).toNat = partitionEntryArrayCrc32 h

def allocReadGptEntries (dev : BlkDesc) (h : Buffer) : Option Entries :=
  let count := arraySize h
  if count = 0 then none else
  let blkCnt := (count-1)/dev.blksz+1
  (dev.dread (partitionEntryLba h*dev.rawblksz/dev.blksz) blkCnt).map fun mem => ⟨mem,blkCnt*dev.blksz⟩

/-- `is_gpt_valid`: the answer, the header and the entries. -/
def isGptValid (dev : BlkDesc) (lba : ℕ) (head : Buffer) (pte : Option Entries) : Bool × Buffer × Option Entries :=
  if pte.isSome then (true,head,pte) else
  match dev.dread 0 dev.sector,dev.dread (lba*dev.sector) dev.sector with
  | some _,some head =>
    if validateGptHeader crc32 head lba dev.rawlba then
      match allocReadGptEntries dev head with
      | some e => if validateGptEntries crc32 head e.mem then (true,head,some e) else (false,head,none)
      | none => (false,head,none)
    else (false,head,none)
  | _,_ => (false,head,none)

end Validation

/-- `is_pte_valid`: the type of the entry is not the unused one. -/
def isPteValid (pte : Buffer) (i : ℕ) : Bool := bytes pte (i*sizeofGptEntry) 16 ≠ replicate 16 0

/-- An entry that is looked at, with the header and the entries in memory. -/
structure Look where
  head : Buffer
  pte : Entries
  index : ℕ

/-- The static variables of `part_get_info_efi`. -/
structure Statics where
  gptHead : Option Buffer
  gptPte : Option Entries

inductive Call
  /-- With what a header buffer holds when it has been allocated. -/
  | partGetInfoEfi (dev : BlkDesc) (part : ℕ) (fresh : Buffer)
  | partPrintEfi (dev : BlkDesc) (fresh : Buffer)

/-- The device with the raw geometry it has when none is set. -/
def BlkDesc.withRaw (dev : BlkDesc) : BlkDesc :=
  if dev.rawblksz = 0 ∨ dev.rawlba = 0 then { dev with rawblksz := dev.blksz,rawlba := dev.lba } else dev

section Looks
variable (crc32 : List Byte → BitVec 32)

def readGpt (dev : BlkDesc) (head : Buffer) (pte : Option Entries) : Bool × Buffer × Option Entries :=
  let r := isGptValid crc32 dev 1 head pte
  if r.1 then r else isGptValid crc32 dev dev.lastBlock r.2.1 r.2.2

/-- The loop of `part_print_efi`, from an index on. -/
def printed (head : Buffer) (e : Entries) (i : ℕ) : List Look :=
  if i < numPartitionEntries head then
    ⟨head,e,i⟩::if isPteValid e.mem i then printed head e (i+1) else []
  else []
termination_by numPartitionEntries head-i

def partPrintEfi (dev : BlkDesc) (fresh : Buffer) : List Look :=
  match readGpt crc32 dev fresh none with
  | (true,head,some e) => printed head e 0
  | _ => []

/-- The entries that the last call has left, unless they are not for a device of this size. -/
def reused (dev : BlkDesc) (fresh : Buffer) (s : Statics) : Buffer × Option Entries :=
  let head := s.gptHead.getD fresh
  let bGptNsec := if dev.rawblksz = 4096 then 6 else 0x22
  if (lastUsableLba head+bGptNsec)%2^64 ≠ dev.rawlba then (if dev.rawblksz = 4096 then fresh else head,none)
  else (head,s.gptPte)

def partGetInfoEfi (dev : BlkDesc) (part : ℕ) (fresh : Buffer) (s : Statics) : Statics × List Look :=
  let r := reused dev fresh s
  if part < 1 then (⟨some r.1,r.2⟩,[]) else
  match readGpt crc32 dev r.1 r.2 with
  | (true,head,some e) =>
    (⟨some head,some e⟩,if part > numPartitionEntries head then [] else [⟨head,e,part-1⟩])
  | (_,head,pte) => (⟨some head,pte⟩,[])

def step (s : Statics) : Call → Statics × List Look
  | .partGetInfoEfi dev part fresh => partGetInfoEfi crc32 dev.withRaw part fresh s
  | .partPrintEfi dev fresh => (s,partPrintEfi crc32 dev fresh)

end Looks

/-- The entry lies within the bytes read from the device, and within those that the check sum covers. -/
def Look.Inside (l : Look) : Prop :=
  (l.index+1)*sizeofGptEntry ≤ l.pte.read ∧ (l.index+1)*sizeofGptEntry ≤ arraySize l.head

/-- In the array of the header that a call uses lie the entry asked for, or the entries up to the
first unused one. -/
def Call.Covered (crc32 : List Byte → BitVec 32) (s : Statics) : Call → Prop
  | .partGetInfoEfi dev part fresh => ∀ head e,
      readGpt crc32 dev.withRaw (reused dev.withRaw fresh s).1 (reused dev.withRaw fresh s).2 = (true,head,some e) →
      1 ≤ part → part ≤ numPartitionEntries head → part*sizeofGptEntry ≤ arraySize head
  | .partPrintEfi dev fresh => ∀ head e, readGpt crc32 dev fresh none = (true,head,some e) →
      numPartitionEntries head*sizeofGptEntry ≤ arraySize head ∨
      ∃ i < numPartitionEntries head, (i+1)*sizeofGptEntry ≤ arraySize head ∧ isPteValid e.mem i = false

/-- What the entries in memory are: all the bytes of the array of the header have been read. -/
def Held (head : Buffer) (pte : Option Entries) : Prop := ∀ e ∈ pte, arraySize head ≤ e.read

section Runs
variable {crc32 : List Byte → BitVec 32} {dev : BlkDesc} {head : Buffer} {pte : Option Entries} {e : Entries} {i : ℕ}

lemma allocReadGptEntries_read (he : e ∈ allocReadGptEntries dev head) : arraySize head ≤ e.read := by
  simp only [allocReadGptEntries,Option.mem_def] at he
  split at he
  · cases he
  · obtain ⟨mem,-,rfl⟩ := Option.map_eq_some_iff.mp he
    have := Nat.lt_div_mul_add dev.pos (a := arraySize head-1)
    simp only [Nat.add_mul]
    omega

lemma held_none (head : Buffer) : Held head none := by simp [Held]

lemma isGptValid_held (lba : ℕ) (h : Held head pte) :
    Held (isGptValid crc32 dev lba head pte).2.1 (isGptValid crc32 dev lba head pte).2.2 := by
  unfold isGptValid
  split
  · exact h
  · split
    · split
      · split
        · next e he =>
          split
          · rintro e' ⟨⟩
            exact allocReadGptEntries_read he
          · exact held_none _
        · exact held_none _
      · exact held_none _
    · exact held_none _

lemma readGpt_held (crc32 : List Byte → BitVec 32) (dev : BlkDesc) (h : Held head pte) :
    Held (readGpt crc32 dev head pte).2.1 (readGpt crc32 dev head pte).2.2 := by
  have hfirst : Held (isGptValid crc32 dev 1 head pte).2.1 _ := isGptValid_held 1 h
  unfold readGpt
  dsimp only
  split
  · exact hfirst
  · exact isGptValid_held _ hfirst

lemma Held.inside_iff (h : Held head (some e)) :
    Look.Inside ⟨head,e,i⟩ ↔ (i+1)*sizeofGptEntry ≤ arraySize head :=
  ⟨And.right,fun hle => ⟨hle.trans (h e rfl),hle⟩⟩

/-- The loop looks at the entries up to the first unused one. -/
lemma printed_inside_iff (h : Held head (some e)) (i : ℕ) : (∀ l ∈ printed head e i, l.Inside) ↔
    numPartitionEntries head ≤ i ∨ numPartitionEntries head*sizeofGptEntry ≤ arraySize head ∨
      ∃ j, i ≤ j ∧ j < numPartitionEntries head ∧ (j+1)*sizeofGptEntry ≤ arraySize head ∧
        isPteValid e.mem j = false := by
  fun_induction printed head e i with
  | case1 i hi ih =>
    rw [forall_mem_cons,h.inside_iff,sizeofGptEntry] at *
    by_cases hvalid : isPteValid e.mem i
    · rw [if_pos hvalid,ih]
      constructor
      · rintro ⟨hle,hlast | hall | ⟨j,hj,hrest⟩⟩
        · exact .inr (.inl (by omega))
        · exact .inr (.inl hall)
        · exact .inr (.inr ⟨j,by omega,hrest⟩)
      · rintro (hlast | hall | ⟨j,hj,hlt,hle,hunused⟩)
        · omega
        · exact ⟨by omega,.inr (.inl hall)⟩
        · have hne : j ≠ i := by
            rintro rfl
            simp [hvalid] at hunused
          exact ⟨by omega,.inr (.inr ⟨j,by omega,hlt,hle,hunused⟩)⟩
    · rw [if_neg hvalid]
      constructor
      · exact fun ⟨hle,_⟩ => .inr (.inr ⟨i,le_rfl,hi,hle,by simpa using hvalid⟩)
      · rintro (hlast | hall | ⟨j,hj,hlt,hle,-⟩) <;> exact ⟨by omega,by simp⟩
  | case2 i hi => exact iff_of_true (by simp) (.inl (by omega))

lemma partPrintEfi_inside_iff (s : Statics) (dev : BlkDesc) (fresh : Buffer) :
    (∀ l ∈ partPrintEfi crc32 dev fresh, l.Inside) ↔ (Call.partPrintEfi dev fresh).Covered crc32 s := by
  have hheld := readGpt_held crc32 dev (held_none fresh)
  unfold partPrintEfi Call.Covered
  split
  · next head e heq =>
    rw [heq] at hheld
    rw [printed_inside_iff hheld]
    simp only [heq,Prod.mk.injEq,Option.some.injEq,true_and,Nat.zero_le]
    constructor
    · rintro (hnone | hinside) head' e' ⟨rfl,rfl⟩
      · exact .inl (by simp [Nat.le_zero.mp hnone])
      · exact hinside
    · exact fun h => .inr (h head e ⟨rfl,rfl⟩)
  · next hnone =>
    exact iff_of_true (by simp) fun head e heq => absurd heq (hnone head e)

/-- What the static variables hold, whatever a header buffer is allocated with. -/
def Statics.Held (s : Statics) : Prop := ∀ fresh, Gpt.Held (s.gptHead.getD fresh) s.gptPte

lemma reused_held (dev : BlkDesc) {s : Statics} (h : s.Held) (fresh : Buffer) :
    Held (reused dev fresh s).1 (reused dev fresh s).2 := by
  simp only [reused]
  split_ifs
  exacts [held_none fresh,h fresh,held_none _,h fresh]

lemma partGetInfoEfi_held (part : ℕ) (fresh : Buffer) {s : Statics} (h : s.Held) :
    (partGetInfoEfi crc32 dev part fresh s).1.Held := by
  have hreused := reused_held dev h fresh
  have hheld := readGpt_held crc32 dev hreused
  simp only [partGetInfoEfi]
  split
  · exact fun _ => hreused
  · split
    all_goals
      next heq =>
      rw [heq] at hheld
      exact fun _ => hheld

lemma partGetInfoEfi_inside_iff (dev : BlkDesc) (part : ℕ) (fresh : Buffer) {s : Statics} (h : s.Held) :
    (∀ l ∈ (partGetInfoEfi crc32 dev.withRaw part fresh s).2, l.Inside) ↔
      (Call.partGetInfoEfi dev part fresh).Covered crc32 s := by
  have hheld := readGpt_held crc32 dev.withRaw (reused_held dev.withRaw h fresh)
  simp only [partGetInfoEfi,Call.Covered]
  split
  · exact iff_of_true (by simp) fun _ _ _ hpart => by omega
  · split
    · next hpart head e heq =>
      rw [heq] at hheld
      have hindex : part-1+1 = part := by omega
      split
      · simp [heq]
        omega
      · simp [heq,hheld.inside_iff,hindex]
        omega
    · next hnone heq =>
      refine iff_of_true (by simp) fun head e htrue => ?_
      cases heq.symm.trans htrue
      exact (hnone e rfl rfl).elim

lemma step_held {s : Statics} (h : s.Held) (c : Call) : (step crc32 s c).1.Held := by
  cases c with
  | partGetInfoEfi dev part fresh => exact partGetInfoEfi_held part fresh h
  | partPrintEfi dev fresh => exact h

lemma serve_held (calls : List Call) {s : Statics} (h : s.Held) : (serve (step crc32) s calls).1.Held := by
  induction calls generalizing s with
  | nil => exact h
  | cons c calls ih => exact ih (step_held h c)

end Runs

/-- After any calls on any devices: the entries that the next call looks at have been read and are
covered by the check sum exactly if those of the header it uses lie in the array that this header
describes. -/
theorem examined_entries_inside (crc32 : List Byte → BitVec 32) (calls : List Call) (c : Call) :
    let s := (serve (step crc32) ⟨none,none⟩ calls).1
    (∀ l ∈ (step crc32 s c).2, l.Inside) ↔ c.Covered crc32 s := by
  have hheld : (serve (step crc32) ⟨none,none⟩ calls).1.Held := serve_held calls fun _ => held_none _
  cases c with
  | partGetInfoEfi dev part fresh => exact partGetInfoEfi_inside_iff dev part fresh hheld
  | partPrintEfi dev fresh => exact partPrintEfi_inside_iff _ dev fresh

section Disks

def leBytes : ℕ → ℕ → List Byte
  | 0,_ => []
  | n+1,v => BitVec.ofNat 8 v::leBytes n (v/256)

/-- The header of a table on a disk of a hundred blocks. -/
def header (lba entryLba num size arrayCrc crc : ℕ) : List Byte :=
  [(8,GPT_HEADER_SIGNATURE),(4,0x10000),(4,92),(4,crc),(4,0),(8,lba),(8,100-lba),(8,34),(8,66),(16,0),(8,entryLba),
    (4,num),(4,size),(4,arrayCrc)].flatMap fun f => leBytes f.1 f.2

def disk (blocks : ℕ → List Byte) : BlkDesc where
  blksz := 512
  pos := by decide
  lba := 100
  rawblksz := 512
  rawlba := 100
  dread := fun blk _ => some fun i => (blocks blk).getD i 0

def primaryOnly (num size arrayCrc crc : ℕ) : BlkDesc :=
  disk fun blk => if blk = 1 then header 1 2 num size arrayCrc crc else if blk = 2 then [1] else []

def printOnce : Call := .partPrintEfi (primaryOnly 2 128 0xc3a5f493 0x6dc590c3) fun _ => 0

theorem examined_entries_inside_printed : ((step crc32Ieee ⟨none,none⟩ printOnce).2.map (·.index) = [0,1]) ∧
    printOnce.Covered crc32Ieee ⟨none,none⟩ :=
  ⟨by decide +kernel,(examined_entries_inside crc32Ieee [] printOnce).mp (by unfold Look.Inside; decide +kernel)⟩

/-- Entries of half the size: the second one lies behind the array. -/
theorem second_half_entry_outside :
    let looks :=
      (step crc32Ieee ⟨none,none⟩ (.partGetInfoEfi (primaryOnly 2 64 0xf1570fae 0x42eeb906) 2 fun _ => 0)).2
    looks.map (fun l => (l.index,arraySize l.head)) = [(1,128)] ∧ ∀ l ∈ looks, ¬l.Inside := by
  unfold Look.Inside
  decide +kernel

end Disks

end ArmFirmware.UBoot.Gpt
