import ArmFirmware.Library.RecordCircle
import ArmFirmware.Zephyr.MpscPbuf.Model

/-! The buffer as a list of segments, from the reader's index to the producers' one, and what the
functions do to this list. -/
namespace ArmFirmware.Zephyr.MpscPbuf
open Library Library.RecordFormat List Function Nat MpscPbuf
variable {ι : Type*}

/-- What a stretch of the buffer is used for. -/
inductive Kind (ι : Type*)
  /-- A packet that a producer has allocated and not yet committed. -/
  | held (i : ι) (k : ℕ)
  | stored (k : ℕ) (ws : List Word)
  | claimed (k : ℕ) (ws : List Word)
  | skip
  /-- The packet that a producer has just dropped, with the free space before it. -/
  | window (i : ι)

def markBusy (ws : List Word) : List Word := ws.modifyHead fun w => { w with busy := true }

/-- What is in the memory. -/
def Kind.Lies (c : Config) (m : ℕ → Word) (a n : ℕ) : Kind ι → Prop
  | .held .. | .window _ => (m a).valid = false ∧ (m a).busy = false
  | .stored _ ws => (m a).valid = true ∧ (m a).busy = false ∧ c.getWlen (m a).data = n ∧ words m a n = ws
  | .claimed _ ws => (m a).valid = true ∧ (m a).busy = true ∧ c.getWlen (m a).data = n ∧ words m a n = markBusy ws
  | .skip => (m a).valid = false ∧ (m a).busy = true ∧ (m a).data.toNat = n

attribute [local simp] Kind.Lies

def Kind.counted : Kind ι → Bool
  | .held .. | .window _ => false
  | .stored .. | .claimed .. | .skip => true

/-- A stretch of the buffer that is in use. -/
structure Seg (ι : Type*) where
  start : ℕ
  len : ℕ
  kind : Kind ι
  pos : 0 < len

variable {m m' : ℕ → Word} {a n : ℕ}

lemma words_congr (heq : ∀ x, a ≤ x → x < a+n → m x = m' x) : words m a n = words m' a n :=
  map_congr_left fun j hj => heq _ (by omega) (by have := mem_range.mp hj; omega)

lemma Kind.Lies.congr {c : Config} {kind : Kind ι} (h : kind.Lies c m a n) (hn : 0 < n)
    (heq : ∀ x, a ≤ x → x < a+n → m x = m' x) : kind.Lies c m' a n := by
  have ha := heq a le_rfl (by omega)
  have hw := words_congr heq
  cases kind <;> simpa only [Kind.Lies,← ha,← hw] using h

lemma Kind.Lies.bits {c : Config} {kind : Kind ι} (h : kind.Lies c m a n) (hk : kind.counted = false) :
    (m a).valid = false ∧ (m a).busy = false := by
  revert h hk
  cases kind <;> simp [Kind.counted]

lemma words_markBusy (hn : 0 < n) : words (update m a { m a with busy := true }) a n = markBusy (words m a n) := by
  obtain ⟨n,rfl⟩ := exists_eq_succ_of_ne_zero hn.ne'
  simp [words,markBusy,range_succ_eq_map]

def format (c : Config) : RecordFormat Word (Seg ι) where
  size p := p.len
  lies m a p := p.start = a ∧ p.kind.Lies c m a p.len
  mark _ := False
  size_pos p := p.pos
  lies_congr heq h := ⟨h.1,h.2.congr (Seg.pos _) heq⟩
  lies_not_mark _ := id

def counted (Q : List (Seg ι)) : ℕ := (Q.map fun p => if p.kind.counted then p.len else 0).sum

@[simp] lemma counted_nil : counted ([] : List (Seg ι)) = 0 := rfl

@[simp] lemma counted_cons (p : Seg ι) (Q : List (Seg ι)) :
    counted (p::Q) = (if p.kind.counted then p.len else 0)+counted Q := by simp [counted]

@[simp] lemma counted_append (Q₁ Q₂ : List (Seg ι)) : counted (Q₁++Q₂) = counted Q₁+counted Q₂ := by simp [counted]

lemma counted_le (c : Config) (Q : List (Seg ι)) : counted Q ≤ (format c).total Q := by
  induction Q with
  | nil => simp
  | cons p Q ih =>
    have hsize : (format c).size p = p.len := rfl
    rw [counted_cons,total_cons,hsize]
    split_ifs <;> omega

/-- A size for which neither an index nor the length of a skip item overflows. -/
structure Config.Sized (c : Config) : Prop where
  pos : 0 < c.size
  lt : c.size < 2^30

section Indices
variable {c : Config}

lemma idxInc_eq (hc : c.Sized) {idx val : ℕ} (hidx : idx < c.size) (hval : val ≤ c.size) :
    idxInc c idx val = (idx+val)%c.size := by
  have := hc.lt
  have hi : (idx+val)%2^32 = idx+val := mod_eq_of_lt (by omega)
  unfold idxInc
  dsimp only
  rw [hi]
  split_ifs with hpow hge
  · simp only [isPowerOfTwo,decide_eq_true_eq] at hpow
    obtain ⟨k,hk⟩ := ne_zero_and_sub_one_eq_zero_iff_isPowerOfTwo.mp hpow
    rw [hk,and_two_pow_sub_one_eq_mod]
  · rw [mod_eq_sub_mod hge,mod_eq_of_lt (by omega)]
  · rw [mod_eq_of_lt (by omega)]

lemma skipItem_toNat (hc : c.Sized) {n : ℕ} (hn : n ≤ c.size) : (skipItem n).data.toNat = n := by
  have := hc.lt
  simp only [skipItem,BitVec.toNat_ofNat]
  omega

end Indices

/-- The segments between the indices. -/
structure Ring (c : Config) (b : Buffer) (Q : List (Seg ι)) : Prop where
  circle : (format c).Circle b.buf c.size b.rd b.tmpWr b.full Q
  count : b.wr = (b.rd+counted Q)%c.size

namespace Ring
variable {c : Config} {b : Buffer} {Q Q₁ Q₂ : List (Seg ι)} {p : Seg ι}

section
variable (h : Ring c b Q)
include h

lemma wr_lt (hc : c.Sized) : b.wr < c.size := h.count ▸ mod_lt _ hc.pos

variable {n : ℕ}

lemma idxInc_wr (hc : c.Sized) (hn : n ≤ c.size) : idxInc c b.wr n = (b.rd+(counted Q+n))%c.size := by
  rw [idxInc_eq hc (h.wr_lt hc) hn,h.count,mod_add_mod,add_assoc]

omit h in
lemma room (hn : 0 < n) (hle : n ≤ (freeSpace c b).2) :
    b.full = false ∧ b.tmpWr+n ≤ if b.rd ≤ b.tmpWr then c.size else b.rd := by
  unfold freeSpace at hle
  split_ifs at hle ⊢ <;> simp_all <;> omega

lemma push (hc : c.Sized) (hstart : p.start = b.tmpWr) (hle : p.len ≤ (freeSpace c b).2) {m : ℕ → Word}
    (hm : ∀ x, x < b.tmpWr ∨ b.tmpWr+p.len ≤ x → m x = b.buf x) (hlies : p.kind.Lies c m b.tmpWr p.len) :
    b.tmpWr+p.len ≤ c.size ∧
      (format c).Circle m c.size b.rd (tmpWrIdxInc c b p.len).tmpWr (tmpWrIdxInc c b p.len).full (Q++[p]) := by
  obtain ⟨hfull,hfit⟩ := room p.pos hle
  have hcircle := h.circle
  have hrd := hcircle.rd_lt
  have hend : b.tmpWr+p.len ≤ c.size := by split_ifs at hfit <;> omega
  refine ⟨hend,?_⟩
  have hidx : idxInc c b.tmpWr p.len = (b.tmpWr+p.len)%c.size := idxInc_eq hc hcircle.wr_lt (by omega)
  rw [hfull] at hcircle
  have hcongr : (format c).Circle m c.size b.rd b.tmpWr false Q := by
    refine hcircle.congr fun x hx => (hm x ?_).symm
    simp only [Taken,Bool.false_eq_true,if_false,Used] at hx
    split_ifs at hx hfit <;> omega
  have hpush := hcongr.push ⟨hstart,hlies⟩ hfit
  simp only [tmpWrIdxInc,hfull,Bool.false_or,hidx]
  exact hpush

lemma addSkipItem (hc : c.Sized) (hn : 0 < n) (hle : n ≤ (freeSpace c b).2) :
    Ring c (addSkipItem c b n) (Q++[⟨b.tmpWr,n,.skip,hn⟩]) := by
  obtain ⟨hend,hcircle⟩ := h.push (p := ⟨b.tmpWr,n,.skip,hn⟩) hc rfl hle (m := update b.buf b.tmpWr (skipItem n))
    (fun x hx => update_of_ne (by dsimp only at hx; omega) _ _)
    (by
      simp only [Kind.Lies,update_self]
      exact ⟨rfl,rfl,
        skipItem_toNat hc (by have := (room hn hle).2; have := h.circle.rd_lt; split_ifs at * <;> omega)⟩)
  dsimp only at hend
  refine ⟨hcircle,?_⟩
  have := h.idxInc_wr hc (n := n) (by omega)
  simpa [MpscPbuf.addSkipItem,tmpWrIdxInc,Kind.counted] using this

lemma store (hc : c.Sized) {ws : List Word} {k : ℕ} (hn : 0 < ws.length) (hle : ws.length ≤ (freeSpace c b).2)
    (hhead : ∀ w ∈ ws.head?, w.valid = true ∧ w.busy = false ∧ c.getWlen w.data = ws.length) :
    Ring c (store c b ws) (Q++[⟨b.tmpWr,ws.length,.stored k ws,hn⟩]) := by
  have hwords : words (blit b.buf b.tmpWr ws.length fun i => ws.getD i ⟨false,false,0⟩) b.tmpWr ws.length = ws := by
    refine ext_getElem (by simp [words]) fun i h₁ h₂ => ?_
    simp [words,blit,h₂]
  have hfirst : blit b.buf b.tmpWr ws.length (fun i => ws.getD i ⟨false,false,0⟩) b.tmpWr ∈ ws.head? := by
    simp [blit,hn,List.head?_eq_getElem?]
  obtain ⟨hvalid,hbusy,hlen⟩ := hhead _ hfirst
  obtain ⟨hend,hcircle⟩ := h.push (p := ⟨b.tmpWr,ws.length,.stored k ws,hn⟩) hc rfl hle
    (m := blit b.buf b.tmpWr ws.length fun i => ws.getD i ⟨false,false,0⟩)
    (fun x hx => if_neg (by dsimp only at hx; omega)) ⟨hvalid,hbusy,hlen,hwords⟩
  dsimp only at hend
  refine ⟨hcircle,?_⟩
  have := h.idxInc_wr hc (n := ws.length) (by omega)
  simpa [MpscPbuf.store,tmpWrIdxInc,Kind.counted] using this

lemma hold (hc : c.Sized) (hn : 0 < n) (hle : n ≤ (freeSpace c b).2) (i : ι) (k : ℕ) : Ring c (tmpWrIdxInc c
        { b with buf := update b.buf b.tmpWr { b.buf b.tmpWr with valid := false, busy := false } } n)
      (Q++[⟨b.tmpWr,n,.held i k,hn⟩]) := by
  obtain ⟨-,hcircle⟩ := h.push (p := ⟨b.tmpWr,n,.held i k,hn⟩) hc rfl hle
    (m := update b.buf b.tmpWr { b.buf b.tmpWr with valid := false, busy := false })
    (fun x hx => update_of_ne (by dsimp only at hx; omega) _ _) (by simp)
  refine ⟨hcircle,?_⟩
  simpa [tmpWrIdxInc,Kind.counted] using h.count

end

section
variable (h : Ring c b (p::Q))
include h

lemma head : p.start = b.rd ∧ p.kind.Lies c b.buf b.rd p.len ∧ b.rd+p.len ≤ c.size :=
  ⟨h.circle.head.1.1,h.circle.head.1.2,h.circle.head.2⟩

lemma idxInc_rd (hc : c.Sized) : idxInc c b.rd p.len = (b.rd+p.len)%c.size :=
  idxInc_eq hc h.circle.rd_lt (by have := h.head.2.2; omega)

variable {m : ℕ → Word}

lemma pop (hc : c.Sized) (hp : p.kind.counted = true)
    (hm : ∀ x, x < b.rd ∨ b.rd+p.len ≤ x → m x = b.buf x) : Ring c (rdIdxInc c { b with buf := m } p.len) Q := by
  have hidx := h.idxInc_rd hc
  refine ⟨?_,?_⟩
  · simp only [rdIdxInc,hidx]
    refine h.circle.pop.congr fun x hx => (hm x ?_).symm
    by_contra hx'
    exact h.circle.pop_free (by omega) (by have : (format c).size p = p.len := rfl; omega) hx
  · simp only [rdIdxInc,hidx,h.count,counted_cons,hp,if_true,mod_add_mod,add_assoc]

/-- What is free and the first segment lie one behind the other if nothing is free at the end. -/
lemma gap (hwrap : (freeSpace c b).1 = false) : b.tmpWr+(freeSpace c b).2 = b.rd := by
  unfold freeSpace at hwrap ⊢
  rcases h.circle with ⟨hfull,hle,-⟩ | ⟨hrd,hwr,-⟩
  · simp [hfull,not_lt.mpr hle] at hwrap
  · by_cases hfull : b.full = true
    · rw [if_pos hfull] at hwr ⊢
      exact hwr
    · rw [if_neg hfull] at hwr ⊢
      rw [if_pos hwr]
      exact Nat.add_sub_cancel' hwr.le

lemma full_of_eq (heq : b.tmpWr = b.rd) : b.full = true := by
  rcases h.circle with ⟨-,-,-,hrow⟩ | ⟨-,hwr,-⟩
  · rw [heq] at hrow
    exact absurd hrow.eq_nil (cons_ne_nil _ _)
  · by_contra hfull
    rw [if_neg hfull] at hwr
    omega

/-- The first segment is exchanged for one at the other end, that takes in the free space. -/
lemma turn (hwrap : (freeSpace c b).1 = false) {q : Seg ι} (hstart : q.start = b.tmpWr)
    (hlen : q.len = p.len+(freeSpace c b).2)
    (hm : ∀ x, x < b.tmpWr ∨ b.rd+p.len ≤ x → m x = b.buf x) (hlies : q.kind.Lies c m b.tmpWr q.len) :
    (format c).Circle m c.size ((b.rd+p.len)%c.size) ((b.rd+p.len)%c.size) true (Q++[q]) := by
  have hgap := h.gap hwrap
  have hend := h.head.2.2
  have hsize : (format c).size p = p.len := rfl
  have hsize' : (format c).size q = q.len := rfl
  have hpop := h.circle.pop
  have hfit : b.tmpWr+q.len ≤ if (b.rd+p.len)%c.size ≤ b.tmpWr then c.size else (b.rd+p.len)%c.size := by
    rcases lt_or_eq_of_le hend with hlt | heq
    · rw [mod_eq_of_lt hlt]
      split_ifs <;> omega
    · rw [heq,mod_self,if_pos (zero_le _)]
      omega
  have hcongr : (format c).Circle m c.size ((b.rd+p.len)%c.size) b.tmpWr false Q := by
    refine hpop.congr fun x hx => (hm x ?_).symm
    simp only [Taken,Bool.false_eq_true,if_false,Used,hsize] at hx
    split_ifs at hx hfit <;> omega
  have hpush := hcongr.push ⟨hstart,hlies⟩ hfit
  rw [hsize',show b.tmpWr+q.len = b.rd+p.len by omega] at hpush
  simpa using hpush

end

lemma replace (h : Ring c b (Q₁++p::Q₂)) {m : ℕ → Word} (hm : ∀ x, x < p.start ∨ p.start+p.len ≤ x → m x = b.buf x)
    (kind : Kind ι) (hlies : kind.Lies c m p.start p.len) :
    (format c).Circle m c.size b.rd b.tmpWr b.full (Q₁++⟨p.start,p.len,kind,p.pos⟩::Q₂) := by
  obtain ⟨a,⟨rfl,-⟩,-,-,-,hrep⟩ := h.circle.split
  exact hrep m ⟨p.start,p.len,kind,p.pos⟩ hm ⟨rfl,hlies⟩ rfl

lemma mem (h : Ring c b Q) (hp : p ∈ Q) : p.kind.Lies c b.buf p.start p.len ∧ p.start+p.len ≤ c.size := by
  obtain ⟨Q₁,Q₂,rfl⟩ := append_of_mem hp
  obtain ⟨a,⟨rfl,hlies⟩,hend,-⟩ := h.circle.split
  exact ⟨hlies,hend⟩

lemma fill (h : Ring c b Q) (hp : p ∈ Q) (hkind : p.kind.counted = false) {x : ℕ} (hx : p.start ≤ x)
    (hx' : x < p.start+p.len) {w : Word} (hw : x = p.start → w.valid = false ∧ w.busy = false) :
    Ring c { b with buf := update b.buf x w } Q := by
  have hlies := (h.mem hp).1
  obtain ⟨Q₁,Q₂,rfl⟩ := append_of_mem hp
  have hbits : (update b.buf x w p.start).valid = false ∧ (update b.buf x w p.start).busy = false := by
    by_cases heq : x = p.start
    · rw [heq,update_self]
      exact hw heq
    · rw [update_of_ne (Ne.symm heq)]
      exact hlies.bits hkind
  refine ⟨?_,h.count⟩
  have := h.replace (m := update b.buf x w) (fun y hy => update_of_ne (by omega) _ _) p.kind (by
    revert hkind
    cases p.kind <;> simp [Kind.counted,hbits])
  exact this

lemma apart (h : Ring c b Q) {n : ℕ} (hn : 0 < n) (hle : n ≤ (freeSpace c b).2) (hp : p ∈ Q) :
    p.start+p.len ≤ b.tmpWr ∨ b.tmpWr+n ≤ p.start := by
  obtain ⟨hfull,hfit⟩ := room hn hle
  obtain ⟨Q₁,Q₂,rfl⟩ := append_of_mem hp
  obtain ⟨a,⟨rfl,-⟩,-,htaken,-⟩ := h.circle.split
  have hpos := p.pos
  have hsize : (format c).size p = p.len := rfl
  by_contra hcon
  -- the first free word would be one of the segment
  have hmid := htaken (max p.start b.tmpWr) (by omega) (by omega)
  simp only [Taken,hfull,Bool.false_eq_true,if_false,Used] at hmid
  split_ifs at hmid hfit <;> omega

lemma disjoint (h : Ring c b (Q₁++p::Q₂)) {q : Seg ι} (hq : q ∈ Q₁ ∨ q ∈ Q₂) :
    p.start+p.len ≤ q.start ∨ q.start+q.len ≤ p.start := by
  have hstart : ∀ {m a} {p : Seg ι}, (format c).lies m a p → p.start = a := fun hlies => hlies.1
  obtain ⟨-,hpair⟩ := h.circle.places hstart
  obtain ⟨-,hright,hleft⟩ := pairwise_append.mp hpair
  rcases hq with hq | hq
  · exact (hleft q hq p (mem_cons_self ..)).symm
  · exact (pairwise_cons.mp hright).1 q hq

lemma not_full (h : Ring c b ([] : List (Seg ι))) : b.full = false := by
  have hrd := h.circle.rd_lt
  by_contra hfull
  have htotal := h.circle.total_eq.2.1.mp (by simpa using hfull)
  rw [total_nil] at htotal
  omega

lemma exists_head (h : Ring c b Q) (hwrap : (freeSpace c b).1 = false) : ∃ p Q', Q = p::Q' := by
  cases Q with
  | cons p Q => exact ⟨p,Q,rfl⟩
  | nil =>
    have heq := h.circle.total_eq.2.2
    rw [total_nil,add_zero,mod_eq_of_lt h.circle.rd_lt] at heq
    simp [freeSpace,h.not_full,heq] at hwrap

section Drop

section
variable (h : Ring c b (p::Q))
include h

lemma drop_skip (hc : c.Sized) (hp : p.kind = .skip) (f : ℕ) :
    ∃ b', dropItemLocked c b f = (b',.again) ∧ Ring c b' Q ∧ b'.tmpRd = b'.rd ∧ b'.tmpWr = b.tmpWr := by
  obtain ⟨-,hlies,-⟩ := h.head
  rw [hp] at hlies
  obtain ⟨hvalid,hbusy,hlen⟩ := hlies
  have hskip : getSkip (b.buf b.rd) = p.len := by simp [getSkip,hvalid,hbusy,hlen]
  have hpop := h.pop hc (by simp [hp,Kind.counted]) fun _ _ => rfl
  refine ⟨{ rdIdxInc c b p.len with tmpRd := (rdIdxInc c b p.len).rd },?_,⟨hpop.circle,hpop.count⟩,rfl,rfl⟩
  simp [dropItemLocked,hskip,p.pos.ne']

lemma drop_uncounted (hp : p.kind.counted = false) (f : ℕ) : dropItemLocked c b f = (b,.failed) := by
  have hbits := h.head.2.1.bits hp
  simp [dropItemLocked,getSkip,hbits]

lemma drop_kept (hp : p.kind ≠ .skip) (hmode : c.overwrite = false) (f : ℕ) :
    dropItemLocked c b f = (b,.failed) := by
  obtain ⟨-,hlies,-⟩ := h.head
  have hskip : getSkip (b.buf b.rd) = 0 := by
    revert hlies hp
    cases p.kind <;> simp +contextual [Kind.Lies,getSkip]
  simp [dropItemLocked,hskip,hmode]

variable {ws : List Word}

/-- The claimed packet is jumped over: it goes to the other end, with the free space before it as a
skip item. -/
lemma drop_claimed (hc : c.Sized) {k : ℕ} (hp : p.kind = .claimed k ws)
    (hmode : c.overwrite = true) (hwrap : (freeSpace c b).1 = false)
    (htmp : b.tmpRd = b.rd ∨ b.tmpRd = (b.rd+p.len)%c.size) :
    ∃ b' S, dropItemLocked c b (freeSpace c b).2 = (b',.again) ∧ Ring c b' (Q++S++[p]) ∧ (∀ q ∈ S, q.kind = .skip) ∧
      b'.tmpRd = b'.rd := by
  obtain ⟨hstart,hlies,hend⟩ := h.head
  rw [hp] at hlies
  obtain ⟨hvalid,hbusy,hlen,-⟩ := hlies
  have hgap := h.gap hwrap
  have hidx := h.idxInc_rd hc
  -- the free space before the packet becomes a skip item
  obtain ⟨b₁,S,hb₁,hring,hS,htmpWr,hrd,htmpRd⟩ : ∃ b₁ S,
      (if (freeSpace c b).2 ≠ 0 then MpscPbuf.addSkipItem c b (freeSpace c b).2 else b) = b₁ ∧
        Ring c b₁ (p::(Q++S)) ∧
        (∀ q ∈ S, q.kind = .skip) ∧ b₁.tmpWr = b.rd ∧ b₁.rd = b.rd ∧ b₁.tmpRd = b.tmpRd := by
    by_cases hfree : (freeSpace c b).2 = 0
    · exact ⟨b,[],by simp [hfree],by simpa using h,by simp,by omega,rfl,rfl⟩
    · refine ⟨_,[_],if_pos hfree,h.addSkipItem hc (pos_of_ne_zero hfree) le_rfl,by simp,?_,rfl,rfl⟩
      simp only [MpscPbuf.addSkipItem,tmpWrIdxInc]
      rw [idxInc_eq hc h.circle.wr_lt (by omega),hgap,mod_eq_of_lt h.circle.rd_lt]
  have hfull := hring.full_of_eq (by rw [htmpWr,hrd])
  have hspace : freeSpace c b₁ = (false,0) := by simp [freeSpace,hfull]
  have hturn := hring.turn (by rw [hspace]) (by rw [hstart,htmpWr]) (by rw [hspace]; rfl)
    (fun _ _ => rfl) (by rw [htmpWr,← hrd]; exact hring.head.2.1)
  have hcount := hring.idxInc_wr hc (n := p.len) (by omega)
  have hcounted : p.kind.counted = true := by simp [hp,Kind.counted]
  rw [hrd] at hturn
  have ht : (if b₁.rd = b₁.tmpRd then idxInc c b₁.tmpRd p.len else b₁.tmpRd) = (b.rd+p.len)%c.size := by
    rw [hrd,htmpRd]
    rcases htmp with heq | heq
    · rw [if_pos heq.symm,heq,hidx]
    · split_ifs with hif
      · rw [← hif,hidx]
      · exact heq
  refine ⟨{ b₁ with
    wr := idxInc c b₁.wr p.len, tmpRd := (b.rd+p.len)%c.size, tmpWr := (b.rd+p.len)%c.size,
    rd := (b.rd+p.len)%c.size, full := true },S,?_,⟨hturn,?_⟩,hS,rfl⟩
  · simp only [dropItemLocked]
    rw [if_neg (by simp [getSkip,hvalid]),if_neg (by simp [hmode]),if_neg (by simp [hvalid]),if_pos hbusy,hb₁,hlen]
    split_ifs at ht ⊢ <;> simp [ht]
  · rw [hcount]
    simp only [counted_cons,counted_append,counted_nil,hcounted,if_true,mod_add_mod]
    congr 1
    omega

/-- A packet is dropped: its place and the free space before it are the producer's. -/
lemma drop_stored (hc : c.Sized) {k : ℕ} (hp : p.kind = .stored k ws)
    (hmode : c.overwrite = true) (hwrap : (freeSpace c b).1 = false) (i : ι) :
    ∃ b' hn, dropItemLocked c b (freeSpace c b).2 = (b',.drop b.rd (p.len+(freeSpace c b).2) b.tmpWr) ∧
      Ring c b' (Q++[⟨b.tmpWr,p.len+(freeSpace c b).2,.window i,hn⟩]) ∧ b'.tmpRd = b'.rd := by
  obtain ⟨hstart,hlies,hend⟩ := h.head
  rw [hp] at hlies
  obtain ⟨hvalid,hbusy,hlen,-⟩ := hlies
  have hgap := h.gap hwrap
  have hpos := p.pos
  have hn : 0 < p.len+(freeSpace c b).2 := by omega
  have hidx := h.idxInc_rd hc
  have hidx' : idxInc c b.tmpWr (p.len+(freeSpace c b).2) = (b.rd+p.len)%c.size := by
    rw [idxInc_eq hc h.circle.wr_lt (by omega)]
    congr 1
    omega
  let m₁ := if (freeSpace c b).2 ≠ 0 then update b.buf b.tmpWr (⟨false,false,0⟩ : Word) else b.buf
  let m := update m₁ b.rd { m₁ b.rd with valid := false }
  have hm₁ : ∀ x, x ≠ b.tmpWr → m₁ x = b.buf x := fun x hx => by
    simp only [m₁]
    split_ifs
    · exact update_of_ne hx _ _
    · rfl
  have hm : ∀ x, x < b.tmpWr ∨ b.rd+p.len ≤ x → m x = b.buf x := fun x hx => by
    simp only [m]
    rw [update_of_ne (by omega),hm₁ x (by omega)]
  have hbits : (m b.tmpWr).valid = false ∧ (m b.tmpWr).busy = false := by
    by_cases hfree : (freeSpace c b).2 = 0
    · have heq : b.tmpWr = b.rd := by omega
      simp [m,m₁,hfree,heq,hbusy]
    · have hne : b.tmpWr ≠ b.rd := by omega
      simp [m,m₁,hfree,hne]
  have hturn := h.turn hwrap (q := ⟨b.tmpWr,p.len+(freeSpace c b).2,.window i,hn⟩) rfl rfl hm hbits
  refine ⟨{ b with
    rd := (b.rd+p.len)%c.size, tmpRd := (b.rd+p.len)%c.size, tmpWr := (b.rd+p.len)%c.size, full := true, buf :=
      m },hn,
    ?_,⟨hturn,?_⟩,rfl⟩
  · simp only [dropItemLocked]
    rw [if_neg (by simp [getSkip,hvalid]),if_neg (by simp [hmode]),if_neg (by simp [hvalid]),
      if_neg (by simp [hbusy]),hlen]
    simp only [rdIdxInc,hidx]
    split_ifs with hfree
    · simp [m,m₁,hfree,hidx']
    · simp [m,m₁,not_not.mp hfree,← hidx']
  · have hcount := h.count
    simp only [counted_cons,hp,Kind.counted,if_true] at hcount
    simp only [hcount,counted_append,counted_cons,counted_nil,Kind.counted,mod_add_mod]
    congr 1
    simp [add_assoc]

end

end Drop

lemma commit (h : Ring c b (Q₁++p::Q₂)) (hc : c.Sized) {i : ι} {k : ℕ} (hp : p.kind = .held i k)
    (hlen : c.getWlen (b.buf p.start).data = p.len) : Ring c (commit c b p.start)
      (Q₁++⟨p.start,p.len,.stored k (words (commit c b p.start).buf p.start p.len),p.pos⟩::Q₂) := by
  obtain ⟨hlies,hend⟩ := h.mem (p := p) (by simp)
  rw [hp] at hlies
  have hpos := p.pos
  have hcount := h.idxInc_wr hc (n := p.len) (by omega)
  refine ⟨?_,?_⟩
  · refine h.replace (fun x hx => ?_) (.stored k _) ?_
    · exact update_of_ne (by omega) _ _
    · simp [MpscPbuf.commit,hlies.2,hlen]
  · simp only [MpscPbuf.commit,hlen,hcount,counted_append,counted_cons,hp,Kind.counted]
    congr 1
    simp
    omega

section Claim

lemma claim_null (h : Ring c b Q) (htmp : b.tmpRd = b.rd) (hQ : ∀ p ∈ Q.head?, p.kind.counted = false) :
    claim c b = (b,.null) := by
  cases Q with
  | nil =>
    have hwr : b.wr = b.rd := by
      rw [h.count,counted_nil,add_zero,mod_eq_of_lt h.circle.rd_lt]
    simp [claim,available,h.not_full,hwr,htmp]
  | cons p Q =>
    have hbits := h.head.2.1.bits (hQ p (by simp))
    simp [claim,isInvalid,htmp,hbits]

lemma available_ne (h : Ring c b (p::Q)) (htmp : b.tmpRd = b.rd) (hp : p.kind.counted = true) :
    available c b ≠ 0 := by
  have hrd := h.circle.rd_lt
  obtain ⟨hle,hfull,-⟩ := h.circle.total_eq
  have hpos := p.pos
  have hcount := h.count
  have hcle := counted_le c (p::Q)
  have hcpos : p.len ≤ counted (p::Q) := by simp [hp]
  unfold available
  rw [htmp]
  split_ifs with hif
  · omega
  · simp only [not_or,not_lt] at hif
    have hlt := lt_of_le_of_ne hle fun heq => hif.1 (hfull.mpr heq)
    by_cases hend : b.rd+counted (p::Q) < c.size
    · rw [mod_eq_of_lt hend] at hcount
      omega
    · rw [mod_eq_sub_mod (by omega),mod_eq_of_lt (by omega)] at hcount
      omega

lemma claim_skip (h : Ring c b (p::Q)) (hc : c.Sized) (htmp : b.tmpRd = b.rd) (hp : p.kind = .skip) :
    ∃ b', claim c b = (b',.again) ∧ Ring c b' Q ∧ b'.tmpRd = b'.rd ∧ b'.buf = b.buf := by
  obtain ⟨-,hlies,-⟩ := h.head
  have hkind : p.kind.counted = true := by simp [hp,Kind.counted]
  have havail := h.available_ne htmp hkind
  rw [hp] at hlies
  obtain ⟨hvalid,hbusy,hlen⟩ := hlies
  have hskip : getSkip (b.buf b.rd) = p.len := by simp [getSkip,hvalid,hbusy,hlen]
  have hpop := h.pop hc hkind fun _ _ => rfl
  refine ⟨rdIdxInc c { b with tmpRd := idxInc c b.tmpRd p.len } p.len,?_,⟨hpop.circle,hpop.count⟩,?_,rfl⟩
  · simp [claim,htmp,havail,isInvalid,hbusy,hskip,p.pos.ne']
  · simp [rdIdxInc,htmp]

/-- A stored packet is at the read index. -/
lemma claim_stored (h : Ring c b (p::Q)) (hc : c.Sized) (htmp : b.tmpRd = b.rd) {k : ℕ} {ws : List Word}
    (hp : p.kind = .stored k ws) :
    ∃ b', claim c b = (b',.claimed b.rd) ∧ Ring c b' (⟨p.start,p.len,.claimed k ws,p.pos⟩::Q) ∧
      b'.tmpRd = (b'.rd+p.len)%c.size ∧ b'.rd = b.rd ∧ ∀ x, x < p.start ∨ p.start+p.len ≤ x →
        b'.buf x = b.buf x := by
  obtain ⟨hstart,hlies,hend⟩ := h.head
  have hpos := p.pos
  have havail := h.available_ne htmp (by simp [hp,Kind.counted])
  rw [hp] at hlies
  obtain ⟨hvalid,hbusy,hlen,hwords⟩ := hlies
  have hm : ∀ x, x < p.start ∨ p.start+p.len ≤ x →
      update b.buf b.rd { b.buf b.rd with busy := true } x = b.buf x := fun x hx =>
    update_of_ne (by omega) _ _
  refine ⟨{ b with
    buf := update b.buf b.rd { b.buf b.rd with busy := true }, tmpRd := (b.rd+p.len)%c.size },?_,⟨?_,?_⟩,rfl,rfl,hm⟩
  · have hidx : idxInc c b.rd p.len = (b.rd+p.len)%c.size := idxInc_eq hc h.circle.rd_lt (by omega)
    simp [claim,htmp,havail,isInvalid,hvalid,getSkip,hlen,hidx]
  · have hnil : Ring c b ([]++p::Q) := h
    refine hnil.replace hm (.claimed k ws) ?_
    rw [hstart]
    refine ⟨by simp [hvalid],by simp,by simpa using hlen,?_⟩
    rw [← hwords]
    exact words_markBusy hpos
  · simpa [hp,Kind.counted] using h.count

end Claim

section Free

variable {ws : List Word}

lemma free_head (h : Ring c b (p::Q)) (hc : c.Sized) {k : ℕ} (hp : p.kind = .claimed k ws)
    (htmp : b.tmpRd = b.rd ∨ b.tmpRd = (b.rd+p.len)%c.size) :
    Ring c (free c b b.rd) Q ∧ (free c b b.rd).tmpRd = (free c b b.rd).rd := by
  obtain ⟨hstart,hlies,hend⟩ := h.head
  have hpos := p.pos
  rw [hp] at hlies
  have hlen := hlies.2.2.1
  have hidx := h.idxInc_rd hc
  have hpop := h.pop hc (by simp [hp,Kind.counted])
    (m := update b.buf b.rd { b.buf b.rd with valid := false, busy := false })
    fun x hx => update_of_ne (by omega) _ _
  have hcircle := hpop.circle
  have hcount := hpop.count
  unfold free
  rw [if_pos (.inr rfl),hlen]
  dsimp only
  split_ifs with hif
  · refine ⟨⟨hcircle,hcount⟩,?_⟩
    simp only [rdIdxInc,← hif]
  · refine ⟨⟨hcircle,hcount⟩,?_⟩
    simp only [rdIdxInc,hidx]
    exact htmp.resolve_left (Ne.symm hif)

lemma free_middle (h : Ring c b (Q₁++p::Q₂)) (hc : c.Sized) {k : ℕ} (hp : p.kind = .claimed k ws)
    (hmode : c.overwrite = true) (hne : p.start ≠ b.rd) :
    Ring c (free c b p.start) (Q₁++⟨p.start,p.len,.skip,p.pos⟩::Q₂) ∧ (free c b p.start).tmpRd = b.tmpRd ∧
      (free c b p.start).rd = b.rd := by
  obtain ⟨hlies,hend⟩ := h.mem (p := p) (by simp)
  rw [hp] at hlies
  obtain ⟨hvalid,hbusy,hlen,-⟩ := hlies
  have hpos := p.pos
  unfold free
  rw [if_neg (by simp [hmode,hne]),hlen]
  refine ⟨⟨?_,?_⟩,rfl,rfl⟩
  · refine h.replace (fun x hx => update_of_ne (by omega) _ _) .skip ?_
    have := skipItem_toNat hc (n := p.len) (by omega)
    simp only [skipItem] at this
    simp [hbusy,this]
  · simpa [hp,Kind.counted] using h.count

end Free

/-- The next pass behind a drop: the producer gives up its window if it is the last segment, and leaves
a skip item there otherwise. -/
lemma resume (h : Ring c b (Q₁++p::Q₂)) (hc : c.Sized) {i : ι} (hp : p.kind = .window i) :
    ∃ S, (∀ q ∈ S, q.kind = .skip) ∧ Ring c (resume c b p.len p.start) (Q₁++S++Q₂) ∧
      (resume c b p.len p.start).tmpRd = b.tmpRd ∧ (resume c b p.len p.start).rd = b.rd ∧
      ∀ x, x ≠ p.start → (resume c b p.len p.start).buf x = b.buf x := by
  have hpos := p.pos
  obtain ⟨a,⟨rfl,-⟩,hend,-,hlast,-⟩ := h.circle.split
  have hsize : (format c).size p = p.len := rfl
  have hidx : idxInc c p.start p.len = (p.start+p.len)%c.size := idxInc_eq hc (by omega) (by omega)
  unfold MpscPbuf.resume postDropAction
  rw [if_pos hpos.ne',hidx]
  split_ifs with hif
  · obtain rfl := hlast hif
    obtain ⟨a,⟨rfl,-⟩,-,-,hcircle⟩ := h.circle.unpush
    refine ⟨[],by simp,⟨by simpa using hcircle,?_⟩,rfl,rfl,fun _ _ => rfl⟩
    simpa [hp,Kind.counted] using h.count
  · refine ⟨[⟨p.start,p.len,.skip,hpos⟩],by simp,⟨?_,?_⟩,rfl,rfl,fun x hx => update_of_ne hx _ _⟩
    · rw [append_assoc]
      refine h.replace (fun x hx => update_of_ne (by omega) _ _) .skip ?_
      simp only [Kind.Lies,update_self]
      exact ⟨rfl,rfl,skipItem_toNat hc (by omega)⟩
    · simp only [h.idxInc_wr hc (n := p.len) (by omega),counted_append,counted_cons,hp,Kind.counted]
      congr 1
      simp
      omega

end Ring
end ArmFirmware.Zephyr.MpscPbuf
