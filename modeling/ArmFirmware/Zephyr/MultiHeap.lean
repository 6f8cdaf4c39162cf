import ArmFirmware.Library.Trace

/-! Multi heaps (`lib/heap/multi_heap.c` and `lib/heap/shared_multi_heap.c`): the records are sorted
by the addresses of the heaps, and the heap of a block is that of the last record below it. -/
namespace ArmFirmware.Zephyr.MultiHeap
open Library List
variable {υ : Type}

def MAX_MULTI_HEAPS : ℕ := 8

/-- A heap in memory: the control structure is at `addr`, the blocks lie behind that and before `stop`. -/
structure Heap where
  addr : ℕ
  stop : ℕ
  room : addr+1 < stop

/-- `struct sys_multi_heap_rec`. -/
structure Rec (υ : Type) where
  heap : Heap
  userData : υ

section Functions
variable (uintptrMax : ℕ)

/-- The inner loop of the extraction sort, from a record on. -/
def lowestFrom (j : ℕ) (lowest : Option ℕ) (lowestAddr : ℕ) : List (Rec υ) → Option ℕ
  | [] => lowest
  | r::recs =>
    if r.heap.addr < lowestAddr then lowestFrom (j+1) (some j) r.heap.addr recs
    else lowestFrom (j+1) lowest lowestAddr recs

/-- The extraction sort of the last records, which are as many as is said. -/
def extractionSort : ℕ → List (Rec υ) → Option (List (Rec υ))
  | n+1,r::recs => do
    let lowest ← lowestFrom 0 none uintptrMax (r::recs)
    let swap ← (r::recs)[lowest]?
    (extractionSort n ((r::recs).set lowest r).tail).map (swap::·)
  | _,recs => some recs

/-- `sys_multi_heap_add_heap`; the first write is to the entry behind the records. -/
def sysMultiHeapAddHeap (recs : List (Rec υ)) (r : Rec υ) : Option (List (Rec υ)) :=
  extractionSort uintptrMax (recs.length+1) (recs++[r])

/-- `sys_multi_heap_get_heap`: the record before the first one above the address. -/
def sysMultiHeapGetHeap (recs : List (Rec υ)) (addr : ℕ) : Option (Rec υ) :=
  (recs.takeWhile fun r => r.heap.addr ≤ addr).getLast?

/-- `sys_multi_heap_free`: the heap that the block is given back to. -/
def sysMultiHeapFree (recs : List (Rec υ)) (block : ℕ) : Option Heap :=
  (sysMultiHeapGetHeap recs block).map Rec.heap

end Functions

def Heap.Disjoint (h h' : Heap) : Prop := h.stop ≤ h'.addr ∨ h'.stop ≤ h.addr

instance (h h' : Heap) : Decidable (h.Disjoint h') := by
  unfold Heap.Disjoint
  infer_instance

/-- Heaps in an address space of the given size, apart from one another. -/
structure Apart (uintptrMax : ℕ) (rs : List (Rec υ)) : Prop where
  pairwise : rs.Pairwise fun r r' => r.heap.Disjoint r'.heap
  inside : ∀ r ∈ rs, r.heap.stop ≤ uintptrMax+1

/-- The records of the heaps that were added, sorted. -/
structure Sorted (recs rs : List (Rec υ)) : Prop where
  sorted : recs.Pairwise fun r r' => r.heap.addr ≤ r'.heap.addr
  perm : recs.Perm rs

/-- Blocks of the heaps are found to be theirs. -/
def Finds (recs rs : List (Rec υ)) : Prop :=
  ∀ r ∈ rs, ∀ b, r.heap.addr < b → b < r.heap.stop →
    sysMultiHeapGetHeap recs b = some r ∧ sysMultiHeapFree recs b = some r.heap

section Sorting
variable {uintptrMax : ℕ} {recs rs : List (Rec υ)} {r : Rec υ}

/-- Unless no record is below the address, the first of the lowest records is found. -/
lemma lowestFrom_spec (recs : List (Rec υ)) (j : ℕ) (lowest : Option ℕ) (a : ℕ) :
    (∀ y ∈ recs, a ≤ y.heap.addr) ∧ lowestFrom j lowest a recs = lowest ∨
      ∃ i x, recs[i]? = some x ∧ lowestFrom j lowest a recs = some (j+i) ∧ x.heap.addr < a ∧
        ∀ y ∈ recs, x.heap.addr ≤ y.heap.addr := by
  induction recs generalizing j lowest a with
  | nil => exact .inl ⟨by simp,rfl⟩
  | cons r recs ih =>
    by_cases hr : r.heap.addr < a
    · rw [lowestFrom,if_pos hr]
      rcases ih (j+1) (some j) r.heap.addr with ⟨hall,he⟩ | ⟨i,x,hx,he,hlt,hall⟩
      · exact .inr ⟨0,r,rfl,he,hr,forall_mem_cons.mpr ⟨le_rfl,hall⟩⟩
      · exact .inr ⟨i+1,x,hx,by rw [he]; congr 1; omega,hlt.trans hr,forall_mem_cons.mpr ⟨hlt.le,hall⟩⟩
    · rw [lowestFrom,if_neg hr]
      rcases ih (j+1) lowest a with ⟨hall,he⟩ | ⟨i,x,hx,he,hlt,hall⟩
      · exact .inl ⟨forall_mem_cons.mpr ⟨not_lt.mp hr,hall⟩,he⟩
      · exact .inr ⟨i+1,x,hx,by rw [he]; congr 1; omega,hlt,forall_mem_cons.mpr ⟨by omega,hall⟩⟩

lemma swap_perm {k : ℕ} {x : Rec υ} (hx : (r::recs)[k]? = some x) :
    (x::((r::recs).set k r).tail).Perm (r::recs) := by
  cases k with
  | zero =>
    cases hx
    exact .refl _
  | succ k =>
    obtain ⟨hk,rfl⟩ := List.getElem?_eq_some_iff.mp hx
    simp only [length_cons,Nat.add_lt_add_iff_right] at hk
    simp only [set_cons_succ,tail_cons,getElem_cons_succ]
    calc recs[k]::recs.set k r
      _ ~ recs[k]::r::recs.eraseIdx k := (set_perm_cons_eraseIdx hk r).cons _
      _ ~ r::recs[k]::recs.eraseIdx k := .swap ..
      _ ~ r::recs := (getElem_cons_eraseIdx_perm hk).cons r

lemma extractionSort_spec (n : ℕ) (hlen : recs.length = n) (hmax : ∀ r ∈ recs, r.heap.addr < uintptrMax) :
    ∃ recs', extractionSort uintptrMax n recs = some recs' ∧ Sorted recs' recs := by
  induction n generalizing recs with
  | zero =>
    obtain rfl := length_eq_zero_iff.mp hlen
    exact ⟨[],rfl,.nil,.refl _⟩
  | succ n ih =>
    obtain ⟨r,recs,rfl⟩ := exists_cons_of_length_eq_add_one hlen
    obtain ⟨hall,-⟩ | ⟨k,x,hx,hk,-,hle⟩ := lowestFrom_spec (r::recs) 0 none uintptrMax
    · exact absurd (hmax r (mem_cons_self ..)) (hall r (mem_cons_self ..)).not_gt
    rw [Nat.zero_add] at hk
    have hperm := swap_perm hx
    obtain ⟨recs',he,hsorted,hperm'⟩ := ih (show ((r::recs).set k r).tail.length = n by simpa using hlen)
      fun y hy => hmax y (hperm.mem_iff.mp (mem_cons_of_mem _ hy))
    refine ⟨x::recs',by simp [extractionSort,hk,hx,he],pairwise_cons.mpr ⟨fun y hy => ?_,hsorted⟩,
      (hperm'.cons x).trans hperm⟩
    exact hle y (hperm.mem_iff.mp (mem_cons_of_mem _ (hperm'.mem_iff.mp hy)))

lemma Apart.of_append {rs' : List (Rec υ)} (h : Apart uintptrMax (rs++rs')) : Apart uintptrMax rs :=
  ⟨(pairwise_append.mp h.pairwise).1,fun r hr => h.inside r (mem_append_left _ hr)⟩

lemma Apart.perm (h : Apart uintptrMax rs) {rs' : List (Rec υ)} (hperm : rs.Perm rs') : Apart uintptrMax rs' :=
  ⟨(hperm.pairwise_iff fun hd => Or.symm hd).mp h.pairwise,fun r hr => h.inside r (hperm.mem_iff.mpr hr)⟩

lemma Apart.addr_lt (h : Apart uintptrMax rs) (hr : r ∈ rs) : r.heap.addr < uintptrMax := by
  have hroom := r.heap.room
  have hstop := h.inside r hr
  omega

lemma Sorted.addHeap (h : Sorted recs rs) (hapart : Apart uintptrMax (rs++[r])) :
    ∃ recs', sysMultiHeapAddHeap uintptrMax recs r = some recs' ∧ Sorted recs' (rs++[r]) := by
  have hperm := h.perm.append_right [r]
  obtain ⟨recs',he,hsorted,hperm'⟩ := extractionSort_spec _ length_append
    fun x hx => hapart.addr_lt (hperm.mem_iff.mp hx)
  exact ⟨recs',he,hsorted,hperm'.trans hperm⟩

lemma Sorted.finds (h : Sorted recs rs) (hapart : Apart uintptrMax rs) : Finds recs rs := by
  intro r hr b hb hstop
  obtain ⟨pre,post,rfl⟩ := mem_iff_append.mp (h.perm.mem_iff.mpr hr)
  obtain ⟨-,hpost,hpre⟩ := pairwise_append.mp h.sorted
  have hbelow : ∀ x ∈ pre, x.heap.addr ≤ b := fun x hx => (hpre x hx r (mem_cons_self ..)).trans hb.le
  -- the heaps of the records behind that of the heap begin after its end
  have habove : ∀ x ∈ post, b < x.heap.addr := fun x hx => by
    have hdisj := (h.perm.pairwise_iff fun hd => Or.symm hd).mpr hapart.pairwise
    have hle := (pairwise_cons.mp hpost).1 x hx
    have hroom := x.heap.room
    rcases (pairwise_cons.mp (pairwise_append.mp hdisj).2.1).1 x hx with hd | hd <;> omega
  have hlast : post.takeWhile (fun x => x.heap.addr ≤ b) = [] := by
    cases post with
    | nil => rfl
    | cons x post => simp [habove x (mem_cons_self ..)]
  have hget : sysMultiHeapGetHeap (pre++r::post) b = some r := by
    rw [sysMultiHeapGetHeap,takeWhile_append_of_pos (by simpa using hbelow)]
    simp [hlast,hb.le]
  exact ⟨hget,by rw [sysMultiHeapFree,hget]; rfl⟩

lemma foldlM_addHeap (rs : List (Rec υ)) (added : List (Rec υ)) (h : Sorted recs added)
    (hapart : Apart uintptrMax (added++rs)) :
    ∃ recs', rs.foldlM (sysMultiHeapAddHeap uintptrMax) recs = some recs' ∧ Sorted recs' (added++rs) := by
  induction rs generalizing recs added with
  | nil => exact ⟨recs,rfl,by rwa [append_nil]⟩
  | cons r rs ih =>
    rw [append_cons] at hapart ⊢
    obtain ⟨recs',he,hsorted⟩ := h.addHeap hapart.of_append
    obtain ⟨recs'',he',hsorted'⟩ := ih _ hsorted hapart
    exact ⟨recs'',by simp [he,he'],hsorted'⟩

end Sorting

/-- However disjoint heaps are added, the records are sorted, and every block finds the heap it lies in. -/
theorem blocks_find_heap (uintptrMax : ℕ) (rs : List (Rec υ)) (hlen : rs.length ≤ MAX_MULTI_HEAPS)
    (hapart : Apart uintptrMax rs) :
    ∃ recs, rs.foldlM (sysMultiHeapAddHeap uintptrMax) [] = some recs ∧ recs.length ≤ MAX_MULTI_HEAPS ∧
      Sorted recs rs ∧
      Finds recs rs := by
  obtain ⟨recs,he,hsorted⟩ := foldlM_addHeap rs [] ⟨.nil,.refl _⟩ hapart
  exact ⟨recs,he,hsorted.perm.length_eq.trans_le hlen,hsorted,hsorted.finds hapart⟩

def heapAt (addr : ℕ) : Rec ℕ := ⟨⟨addr,addr+100,by omega⟩,addr⟩

def threeHeaps : List (Rec ℕ) := [heapAt 500,heapAt 100,heapAt 300]

theorem blocks_find_heap_three :
    ∃ recs, threeHeaps.foldlM (sysMultiHeapAddHeap (2^32-1)) [] = some recs ∧ recs.length ≤ MAX_MULTI_HEAPS ∧
      Sorted recs threeHeaps ∧ Finds recs threeHeaps :=
  blocks_find_heap _ _ (by decide) ⟨by decide,by decide⟩

def MAX_SHARED_MULTI_HEAP_ATTR : ℕ := 2

inductive Ret
  | ok
  | EINVAL
  | ENOMEM
  deriving DecidableEq

/-- The shared multi heap, and `heap_cnt` of each attribute. -/
structure Shared (υ : Type) where
  recs : List (Rec υ)
  heapCnt : ℕ → ℕ

def Shared.init : Shared υ := ⟨[],fun _ => 0⟩

/-- `shared_multi_heap_add` of a region with an attribute, given as the heap that is made of it. -/
def sharedMultiHeapAdd (uintptrMax : ℕ) (s : Shared υ) (region : ℕ × Rec υ) : Option (Shared υ × Ret) :=
  if MAX_SHARED_MULTI_HEAP_ATTR ≤ region.1 then some (s,.EINVAL)
  else if MAX_MULTI_HEAPS ≤ s.heapCnt region.1 then some (s,.ENOMEM)
  else (sysMultiHeapAddHeap uintptrMax s.recs region.2).map fun recs =>
    (⟨recs,Function.update s.heapCnt region.1 (s.heapCnt region.1+1)⟩,.ok)

/-- A region whose attribute exists and has not yet MAX_MULTI_HEAPS regions finds a free record, and
is apart from the regions that are recorded. -/
def Fits (uintptrMax : ℕ) (s : Shared υ) (region : ℕ × Rec υ) : Prop :=
  region.1 < MAX_SHARED_MULTI_HEAP_ATTR → s.heapCnt region.1 < MAX_MULTI_HEAPS →
    s.recs.length < MAX_MULTI_HEAPS ∧ Apart uintptrMax (s.recs++[region.2])

instance (rs : List (Rec υ)) (uintptrMax : ℕ) : Decidable (Apart uintptrMax rs) :=
  decidable_of_iff ((rs.Pairwise fun r r' => r.heap.Disjoint r'.heap) ∧ ∀ r ∈ rs, r.heap.stop ≤ uintptrMax+1)
    ⟨fun h => ⟨h.1,h.2⟩,fun h => ⟨h.1,h.2⟩⟩

instance (uintptrMax : ℕ) (s : Shared υ) (region : ℕ × Rec υ) : Decidable (Fits uintptrMax s region) := by
  unfold Fits
  infer_instance

/-- The regions whose call has returned 0. -/
def accepted : List (ℕ × Rec υ) → List Ret → List (Rec υ)
  | region::regions,.ok::os => region.2::accepted regions os
  | _::regions,_::os => accepted regions os
  | _,_ => []

/-- Only a region without an attribute or one too many of its attribute is refused. -/
def Answers (s : Shared υ) (region : ℕ × Rec υ) (o : Ret) : Prop :=
  (o = .EINVAL ↔ MAX_SHARED_MULTI_HEAP_ATTR ≤ region.1) ∧
    (o = .ENOMEM ↔ region.1 < MAX_SHARED_MULTI_HEAP_ATTR ∧ MAX_MULTI_HEAPS ≤ s.heapCnt region.1)

lemma sharedMultiHeapAdd_cases {uintptrMax : ℕ} {s : Shared υ} {added : List (Rec υ)} {region : ℕ × Rec υ}
    (h : Sorted s.recs added) (hfits : Fits uintptrMax s region) :
    (∃ o, sharedMultiHeapAdd uintptrMax s region = some (s,o) ∧ o ≠ .ok ∧ Answers s region o) ∨
      ∃ s', sharedMultiHeapAdd uintptrMax s region = some (s',.ok) ∧ Answers s region .ok ∧
        Sorted s'.recs (added++[region.2]) ∧ Apart uintptrMax (added++[region.2]) ∧
          s'.recs.length ≤ MAX_MULTI_HEAPS := by
  unfold sharedMultiHeapAdd
  by_cases hattr : MAX_SHARED_MULTI_HEAP_ATTR ≤ region.1
  · rw [if_pos hattr]
    exact .inl ⟨_,rfl,by simp,by simp [Answers,hattr]⟩
  rw [if_neg hattr]
  by_cases hcnt : MAX_MULTI_HEAPS ≤ s.heapCnt region.1
  · rw [if_pos hcnt]
    exact .inl ⟨_,rfl,by simp,by simp [Answers,hattr,hcnt,not_le.mp hattr]⟩
  rw [if_neg hcnt]
  obtain ⟨hroom,hapart⟩ := hfits (not_le.mp hattr) (not_le.mp hcnt)
  have hapart := hapart.perm (h.perm.append_right [region.2])
  obtain ⟨recs,he,hsorted⟩ := h.addHeap hapart
  refine .inr ⟨_,by rw [he]; rfl,by simp [Answers,hattr,hcnt],hsorted,hapart,?_⟩
  rw [hsorted.perm.length_eq,length_append,← h.perm.length_eq]
  exact hroom

lemma Sorted.serve {uintptrMax : ℕ} {s : Shared υ} {added : List (Rec υ)} (h : Sorted s.recs added)
    (hapart : Apart uintptrMax added) (hlen : s.recs.length ≤ MAX_MULTI_HEAPS) {regions : List (ℕ × Rec υ)}
    (hrun : Along (Fits uintptrMax) (sharedMultiHeapAdd uintptrMax) s regions) :
    ∃ s' os, serve? (sharedMultiHeapAdd uintptrMax) s regions = some (s',os) ∧
      Trace (fun s region o _ => Answers s region o) s regions os s' ∧ Sorted s'.recs (added++accepted regions os) ∧
      Apart uintptrMax (added++accepted regions os) ∧ s'.recs.length ≤ MAX_MULTI_HEAPS := by
  induction regions generalizing s added with
  | nil => exact ⟨s,[],rfl,.nil s,by simpa [accepted] using h,by simpa [accepted] using hapart,hlen⟩
  | cons region regions ih =>
    rcases sharedMultiHeapAdd_cases h hrun.1 with ⟨o,hstep,hok,hanswers⟩ | ⟨s₁,hstep,hanswers,hsorted,hapart₁,hlen₁⟩
    · obtain ⟨s',os,hserve,htrace,hrest⟩ := ih h hapart hlen (hrun.2 _ _ hstep)
      have hsame : accepted (region::regions) (o::os) = accepted regions os := by
        cases o <;> simp_all [accepted]
      exact ⟨s',o::os,by simp [serve?,hstep,hserve],.cons hanswers htrace,hsame ▸ hrest⟩
    · obtain ⟨s',os,hserve,htrace,hrest⟩ := ih hsorted hapart₁ hlen₁ (hrun.2 _ _ hstep)
      rw [append_assoc] at hrest
      exact ⟨s',.ok::os,by simp [serve?,hstep,hserve],.cons hanswers htrace,hrest⟩

/-- If every region that passes the check of its own attribute finds a free record, the regions that
are accepted are recorded within the array, and what is allocated from them can be freed. -/
theorem shared_regions_recorded (uintptrMax : ℕ) (regions : List (ℕ × Rec υ))
    (hrun : Along (Fits uintptrMax) (sharedMultiHeapAdd uintptrMax) Shared.init regions) :
    ∃ s os, serve? (sharedMultiHeapAdd uintptrMax) Shared.init regions = some (s,os) ∧
      Trace (fun s region o _ => Answers s region o) Shared.init regions os s ∧ s.recs.length ≤ MAX_MULTI_HEAPS ∧
      (∀ r ∈ accepted regions os, r ∈ s.recs) ∧ Finds s.recs (accepted regions os) := by
  have hinit : Sorted (Shared.init : Shared υ).recs [] := ⟨.nil,.refl _⟩
  obtain ⟨s,os,hserve,htrace,hsorted,hapart,hlen⟩ := hinit.serve ⟨.nil,by simp⟩ (by simp [Shared.init]) hrun
  exact ⟨s,os,hserve,htrace,hlen,fun r hr => hsorted.perm.mem_iff.mpr hr,hsorted.finds hapart⟩

/-- Eight regions of one attribute are accepted, the ninth one is refused. -/
def nineRegions : List (ℕ × Rec ℕ) := (7,heapAt 500)::(List.range 9).map fun i => (1,heapAt (100*i+100))

theorem shared_regions_recorded_nine :
    ∃ s os, serve? (sharedMultiHeapAdd (2^32-1)) Shared.init nineRegions = some (s,os) ∧
      Trace (fun s region o _ => Answers s region o) Shared.init nineRegions os s ∧ s.recs.length ≤ MAX_MULTI_HEAPS ∧
      (∀ r ∈ accepted nineRegions os, r ∈ s.recs) ∧ Finds s.recs (accepted nineRegions os) :=
  shared_regions_recorded (2^32-1) nineRegions (by decide +kernel)

/-- Eight regions of one attribute and one of the other: the ninth record is behind the array. -/
theorem ninth_region_accepted :
    ∃ s os, serve? (sharedMultiHeapAdd (2^32-1)) Shared.init
        ((0,heapAt 900)::(List.range 8).map fun i => (1,heapAt (100*i+100))) = some (s,os) ∧
      os = replicate 9 Ret.ok ∧ s.recs.length = MAX_MULTI_HEAPS+1 :=
  ⟨_,_,rfl,rfl,rfl⟩

end ArmFirmware.Zephyr.MultiHeap
