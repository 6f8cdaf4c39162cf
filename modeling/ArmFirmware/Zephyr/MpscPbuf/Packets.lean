import ArmFirmware.Zephyr.MpscPbuf.Runs

/-! What becomes of the packets: without the overwrite mode all of them are claimed in the order in
which they were given a place, with it each one is claimed or reported. -/
namespace ArmFirmware.Zephyr.MpscPbuf
open Library List Function Option Log State MpscPbuf Prod Producer List.Sublist

attribute [local simp] Kind.counted role
variable {ι : Type*}

def Own (s : State ι) (p : Place) : Action ι → Prop
  | .fill i _ _ | .commit i => ∃ n, s.producer i = .filling p.start n
  | .claim | .free | .give => True
  | _ => False

/-- The consumer is shown the words that were committed. -/
def Shown (s : State ι) (g : Log ι) : Prop :=
  ∀ item, s.consumer = .holding item → ∃ k ws, g.claimed.getLast? = some k ∧ g.committed k = some ws ∧
    words s.buf item ws.length = markBusy ws

/-- Packets are claimed in the order of their numbers, with their words. `mpsc_pbuf_claim` finds nothing only
if the next one has not been committed. No producer writes to a packet that is not its own. -/
structure Stores (x y : State ι × Log ι) (a : Action ι) (r : Reply) : Prop where
  order : y.2.claimed = range y.2.claimed.length
  shown : Shown y.1 y.2
  all : r = .null → x.2.committed x.2.claimed.length = none
  untouched : ∀ p ∈ x.2.live, ¬Own x.1 p a → words y.1.buf p.start p.len = words x.1.buf p.start p.len

def Producer.drops : Producer → Bool
  | .loop _ shift _ => shift ≠ 0
  | .notify .. => true
  | _ => false

/-- A packet that has been committed is claimed once, or reported once, or about to be reported, or still
there: `mpsc_pbuf_claim` finds nothing only if all packets before one that has not been committed are
gone, or while a producer drops one. -/
structure Keeps (x y : State ι × Log ι) (r : Reply) : Prop where
  once : (y.2.claimed++(y.2.reported++y.2.dropping.map snd)).Nodup
  committed : ∀ k, k ∈ y.2.claimed ∨ k ∈ y.2.reported ∨ k ∈ y.2.dropping.map snd → (y.2.committed k).isSome
  dropping : ∀ i k, (i,k) ∈ y.2.dropping → ∃ job shift val item,
    y.1.producer i = .notify job shift val item ∧ y.2.packetAt item = k
  order : y.2.claimed.Pairwise (· < ·)
  shown : Shown y.1 y.2
  all : r = .null → (∃ i, (x.1.producer i).drops = true) ∨ ∃ k, x.2.committed k = none ∧
    ∀ j < k, j ∈ x.2.claimed ∨ j ∈ x.2.reported ∨ j ∈ x.2.dropping.map snd

section Results
variable [DecidableEq ι] {c : Config} {prio : ι → ℤ} {s : State ι} {g : Log ι} {Q : List (Seg ι)} {i : ι}

lemma markBusy_length (ws : List Word) : (markBusy ws).length = ws.length := by simp [markBusy]

lemma drops_of_window {p : Producer} {v n : ℕ} {o : Option ℕ} (h : p.role = .window v n o) : p.drops = true := by
  cases p with
  | loop job shift val =>
    by_cases hshift : shift = 0
    · simp [hshift] at h
    · simp [drops,hshift]
  | notify job shift val item => rfl
  | _ => cases h

lemma dropItemLocked_buf {b : Buffer} (hmode : c.overwrite = false) (f : ℕ) :
    (dropItemLocked c b f).1.buf = b.buf := by
  simp only [dropItemLocked]
  split_ifs <;> simp_all [rdIdxInc]

/-- Only `mpsc_pbuf_claim` returns `NULL` for an empty buffer. -/
lemma eq_claim_of_null {a : Action ι} {s' : State ι} (hstep : step c prio s a = some (s',.null)) : a = .claim := by
  cases a with
  | claim => rfl
  | pass i =>
    simp only [step] at hstep
    split at hstep
    · rename_i job shift val hi
      have hr := congrArg snd (some.inj hstep)
      generalize job.pass c s.toBuffer shift val = out at hr
      obtain ⟨b,pass⟩ := out
      cases pass <;> cases hr
    · cases hstep
  | _ =>
    simp only [step] at hstep
    repeat' split at hstep
    all_goals cases hstep

namespace Good
variable {a : Action ι} {s' : State ι}

section
variable (h : Good c s g Q)
include h

omit [DecidableEq ι] in
lemma shown : Shown s g := by
  intro item hitem
  have hbooks := h.books
  simp only [hitem,Consumer.item?] at hbooks
  obtain ⟨p,hp,rfl,k,ws,hkind⟩ := hbooks.holding item rfl
  have htold := hbooks.told p hp
  simp only [Told,hkind] at htold
  have hlies := (h.ring.mem hp).1
  rw [hkind] at hlies
  have hlen : p.len = ws.length := by
    have := congrArg length hlies.2.2.2
    simpa [words,markBusy_length] using this
  exact ⟨k,ws,htold.2.2.2,htold.2.2.1,hlen ▸ hlies.2.2.2⟩

omit [DecidableEq ι] in
lemma range (hmode : c.overwrite = false) : g.claimed++tickets Q = range g.tickets := by
  obtain ⟨hreported,hdropping⟩ := h.kept hmode
  have hperm := h.books.account.perm
  simp only [hreported,hdropping,map_nil,nil_append] at hperm
  exact hperm.eq_of_pairwise (fun a b _ _ hab hba => absurd hab (Nat.lt_asymm hba)) h.books.account.sorted
    pairwise_lt_range

omit [DecidableEq ι] in
lemma order (hmode : c.overwrite = false) : g.claimed = List.range g.claimed.length := by
  have hrange := h.range hmode
  have hlen : g.claimed.length ≤ g.tickets := by
    have := congrArg length hrange
    simp only [length_append,length_range] at this
    omega
  have htake := prefix_iff_eq_take.mp ⟨_,hrange⟩
  rwa [take_range,Nat.min_eq_left hlen] at htake

omit [DecidableEq ι] in
/-- A packet that cannot be claimed yet is not committed. -/
lemma next_uncommitted (hmode : c.overwrite = false) (hhead : ∀ p ∈ Q.head?, p.kind.counted = false) :
    g.committed g.claimed.length = none := by
  have hrange := h.range hmode
  cases Q with
  | nil =>
    have hlen := congrArg length hrange
    rw [tickets_nil,append_nil,length_range] at hlen
    exact h.books.account.fresh _ hlen.ge
  | cons p Q =>
    have hcounted := hhead p (by simp)
    cases hkind : p.kind with
    | held i k =>
      have hk : (List.range g.tickets)[g.claimed.length]? = some k := by
        rw [← hrange,tickets_cons,hkind]
        simp [Kind.ticket?]
      obtain ⟨hlt,hk⟩ := List.getElem?_eq_some_iff.mp hk
      rw [getElem_range] at hk
      subst hk
      have htold := h.books.told p (by simp)
      simp only [Told,hkind] at htold
      exact htold.2.2
    | window i => exact absurd hkind (h.reader.whole hmode p (by simp) i)
    | stored k ws => simp [hkind] at hcounted
    | claimed k ws => simp [hkind] at hcounted
    | skip => simp [hkind] at hcounted

omit [DecidableEq ι] in
/-- All packets before one that has not been committed are gone if the first segment is not counted, or
a producer is dropping one. -/
lemma gone (hhead : ∀ p ∈ Q.head?, p.kind.counted = false) :
    (∃ i, (s.producer i).drops = true) ∨ ∃ k, g.committed k = none ∧
      ∀ j < k, j ∈ g.claimed ∨ j ∈ g.reported ∨ j ∈ g.dropping.map snd := by
  have haccount := h.books.account
  have hmem : ∀ j, j < g.tickets → j ∈ g.claimed ∨ j ∈ g.reported ∨ j ∈ g.dropping.map snd ∨ j ∈ tickets Q :=
    fun j hj => by
    have := haccount.perm.mem_iff.mpr (mem_range.mpr hj)
    simpa only [mem_append] using this
  cases Q with
  | nil =>
    refine .inr ⟨g.tickets,haccount.fresh _ le_rfl,fun j hj => ?_⟩
    have := hmem j hj
    simp only [tickets_nil,not_mem_nil,or_false] at this
    exact this
  | cons p Q =>
    have hcounted := hhead p (by simp)
    have htold := h.books.told p (by simp)
    cases hkind : p.kind with
    | held i k =>
      simp only [Told,hkind] at htold
      have hk : k < g.tickets := haccount.lt (.inr (.inr (.inr (by simp [tickets_cons,hkind,Kind.ticket?]))))
      refine .inr ⟨k,htold.2.2,fun j hj => ?_⟩
      have hsorted := (pairwise_append.mp haccount.sorted).2.1
      simp only [tickets_cons,hkind,Kind.ticket?,Option.toList_some,singleton_append,pairwise_cons] at hsorted
      rcases hmem j (hj.trans hk) with hj' | hj' | hj' | hj'
      · exact .inl hj'
      · exact .inr (.inl hj')
      · exact .inr (.inr hj')
      · -- the packets in the buffer come behind that one
        simp only [tickets_cons,hkind,Kind.ticket?,Option.toList_some,singleton_append,mem_cons] at hj'
        rcases hj' with rfl | hj'
        · omega
        · have := hsorted.1 j hj'
          omega
    | window i =>
      simp only [Told,hkind] at htold
      obtain ⟨o,ho⟩ := htold
      exact .inl ⟨i,drops_of_window ho⟩
    | stored k ws => simp [hkind] at hcounted
    | claimed k ws => simp [hkind] at hcounted
    | skip => simp [hkind] at hcounted

lemma pass_untouched (hc : c.Sized) (hmode : c.overwrite = false) {job : Job} {shift val : ℕ}
    (hi : s.producer i = .loop job shift val) {p : Seg ι} (hp : p ∈ Q) {x : ℕ} (hx : p.start ≤ x)
    (hx' : x < p.start+p.len) :
    (job.pass c s.toBuffer shift val).1.buf x = s.buf x := by
  obtain ⟨hn,-⟩ : 0 < job.wlen ∧ job.Allowed c := by simpa [hi,Producer.Ready] using h.ready i
  obtain ⟨-,-,hsame⟩ := h.resumed hc hi
  rw [job.pass_resume,hsame hmode]
  rcases Job.pass_cases h.ring with ⟨hle,⟨ws,-,hlen,heq⟩ | ⟨-,heq⟩⟩ | ⟨-,-,hfree,heq⟩ | ⟨-,⟨-,heq⟩ | heq⟩
  · have := h.ring.apart hn hle hp
    rw [heq]
    exact if_neg (by omega)
  · have := h.ring.apart hn hle hp
    rw [heq]
    exact update_of_ne (by omega) _ _
  · have := h.ring.apart hfree le_rfl hp
    rw [heq]
    exact update_of_ne (by omega) _ _
  · rw [heq]
  · rw [heq,dropItemLocked_buf hmode]

omit [DecidableEq ι] in
lemma apart {p q : Seg ι} (hp : p ∈ Q) (hq : q ∈ Q) (hne : p.start ≠ q.start) :
    p.start+p.len ≤ q.start ∨ q.start+q.len ≤ p.start := by
  obtain ⟨Q₁,Q₂,rfl⟩ := append_of_mem hp
  refine h.ring.disjoint ?_
  simp only [mem_append,mem_cons] at hq
  rcases hq with hq | rfl | hq
  · exact .inl hq
  · exact absurd rfl hne
  · exact .inr hq

end

lemma passed_buf (s : State ι) (i : ι) (job : Job) (out : Buffer × Pass) :
    (s.passed i job out).1.buf = out.1.buf := by
  obtain ⟨b,pass⟩ := out
  cases pass <;> rfl

/-- The steps of others leave the words of a packet alone. -/
lemma untouched (h : Good c s g Q) (hc : c.Sized) (hmode : c.overwrite = false) {r : Reply}
    (hstep : MpscPbuf.step c prio s a = some (s',r)) {x : Place} (hx : x ∈ g.live) (hown : ¬Own s x a) :
    words s'.buf x.start x.len = words s.buf x.start x.len := by
  obtain ⟨p,hp,hstart,hlen,-⟩ := h.books.live x hx
  rw [← hstart,← hlen]
  -- a producer writes to another packet, its own
  have hother : ∀ i item wlen, s.producer i = .filling item wlen → ¬(∃ n, s.producer i = .filling x.start n) →
      ∀ y, item ≤ y → y < item+wlen → y < p.start ∨ p.start+p.len ≤ y := by
    intro i item wlen hi hown y hy hy'
    obtain ⟨q,hq,rfl,rfl,-⟩ := h.held hi
    have hne : p.start ≠ q.start := fun heq => hown ⟨_,(heq.symm.trans hstart) ▸ hi⟩
    have := h.apart hp hq hne
    omega
  refine words_congr fun y hy hy' => ?_
  cases a with
  | start i job =>
    simp only [MpscPbuf.step] at hstep
    repeat' split at hstep
    all_goals cases hstep
    all_goals rfl
  | pass i =>
    simp only [MpscPbuf.step] at hstep
    split at hstep
    · rename_i job shift val hi
      have hs' := congrArg (fun o => o.1.buf y) (some.inj hstep)
      rw [← hs',passed_buf]
      exact h.pass_untouched hc hmode hi hp hy hy'
    · cases hstep
  | notify i =>
    cases hi : s.producer i with
    | notify job shift val item =>
      have hrole : (s.producer i).role = .window val shift (some item) := by simp [hi]
      obtain ⟨q,hq,-,-,hkind⟩ := h.books.window i _ _ _ hrole
      exact absurd hkind (h.reader.whole hmode q hq i)
    | _ => simp [MpscPbuf.step,hi] at hstep
  | take i =>
    simp only [MpscPbuf.step] at hstep
    repeat' split at hstep
    all_goals cases hstep
    all_goals rfl
  | expire i =>
    simp only [MpscPbuf.step] at hstep
    repeat' split at hstep
    all_goals cases hstep
    all_goals rfl
  | fill i j w =>
    simp only [MpscPbuf.step] at hstep
    split at hstep
    · rename_i item wlen hi
      split_ifs at hstep with hw
      cases hstep
      have := hother i item wlen hi hown (item+j) (by omega) (by omega)
      exact update_of_ne (by omega) _ _
    · cases hstep
  | commit i =>
    simp only [MpscPbuf.step] at hstep
    split at hstep
    · rename_i item wlen hi
      split_ifs at hstep with hw
      cases hstep
      obtain ⟨q,-,-,hqlen,-⟩ := h.held hi
      have := q.pos
      have := hother i item wlen hi hown item le_rfl (by omega)
      exact update_of_ne (by omega) _ _
    · cases hstep
  | claim => exact absurd trivial hown
  | free => exact absurd trivial hown
  | give => exact absurd trivial hown

lemma head_of_null (h : Good c s g Q) (hc : c.Sized)
    (hstep : MpscPbuf.step c prio s a = some (s',.null)) : ∀ p ∈ Q.head?, p.kind.counted = false := by
  obtain rfl : a = .claim := eq_claim_of_null hstep
  obtain ⟨hitem,hclaimed⟩ := step_claim hstep
  rcases h.claim hc hitem with ⟨-,hhead⟩ | ⟨b,Q',heq,-⟩ | ⟨b,item,Q',heq,-⟩
  · exact hhead
  · rw [heq] at hclaimed
    cases hclaimed
  · rw [heq] at hclaimed
    cases hclaimed

lemma stores (h : Good c s g Q) (hc : c.Sized) (hmode : c.overwrite = false) (hcare : Careful a)
    {r : Reply} (hstep : MpscPbuf.step c prio s a = some (s',r)) : Stores (s,g) (s',g.next s s' a r) a r := by
  obtain ⟨Q',h'⟩ := h.step hc hcare hstep
  refine ⟨h'.order hmode,h'.shown,?_,fun x hx hown => h.untouched hc hmode hstep hx hown⟩
  rintro rfl
  exact h.next_uncommitted hmode (h.head_of_null hc hstep)

lemma keeps (h : Good c s g Q) (hc : c.Sized) (hcare : Careful a) {r : Reply}
    (hstep : MpscPbuf.step c prio s a = some (s',r)) : Keeps (s,g) (s',g.next s s' a r) r := by
  obtain ⟨Q',h'⟩ := h.step hc hcare hstep
  have haccount := h'.books.account
  refine ⟨?_,haccount.done,fun i k hk => ?_,(pairwise_append.mp haccount.sorted).1,h'.shown,?_⟩
  · refine haccount.nodup.sublist ?_
    refine append_left (append_left (sublist_append_left ..) _) _
  · obtain ⟨v,n,item,hi,hitem⟩ := h'.books.dropping i k hk
    cases hprod : s'.producer i with
    | notify job shift val item' =>
      rw [hprod] at hi
      obtain ⟨-,-,hsome⟩ := Role.window.inj hi
      obtain rfl := some.inj hsome
      exact ⟨job,shift,val,item',rfl,hitem⟩
    | loop job shift val =>
      by_cases hshift : shift = 0 <;> simp [hprod,hshift] at hi
    | _ => simp [hprod] at hi
  · rintro rfl
    exact h.gone (h.head_of_null hc hstep)

end Good

omit [DecidableEq ι] in
lemma init_good (hc : c.Sized) (buf : ℕ → Word) : Good c (init buf : State ι) empty [] := by
  refine ⟨⟨.empty hc.pos,?_⟩,?_,⟨.inl rfl,by simp,by simp⟩,fun _ => trivial,fun _ => ⟨rfl,rfl⟩⟩
  · simp [init]
  · refine ⟨by simp,?_,?_,?_,?_,?_,?_,?_⟩
    all_goals simp [init,empty,Consumer.item?]
    exact ⟨by simp,by simp,by simp,by simp⟩

def sample (size : ℕ) (overwrite : Bool) : Config := ⟨size,overwrite,BitVec.toNat⟩

def header (wlen : ℕ) : Word := ⟨true,false,BitVec.ofNat 30 wlen⟩

def outOfOrder : List (Action ℕ) :=
  [.start 0 (.alloc 3 false),.pass 0,.start 1 (.data [header 3,header 0,header 1]),.pass 1,
    .start 2 (.word (header 1)),.pass 2,
    .claim,.fill 0 0 ⟨false,false,3⟩,.commit 0,.claim,.free,.give,.start 0 (.wordExt (header 2) [header 5]),.pass
      0,.claim,
    .pass 0,.free,.give,.claim,.free,.give,.claim,.claim]

def twoDrops : List (Action ℕ) :=
  [.start 0 (.data [header 2,header 7]),.pass 0,.start 0 (.data [header 2,header 8]),.pass 0,
    .start 0 (.data [header 2,header 9]),.pass 0,.start 1 (.word (header 1)),.pass 1,.notify 0,.notify 1,.pass
      0,.claim,.pass 0,
    .pass 1,.pass 1,.claim,.free,.give,.claim]

end Results
end ArmFirmware.Zephyr.MpscPbuf
