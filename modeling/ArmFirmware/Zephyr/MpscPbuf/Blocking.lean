import ArmFirmware.Zephyr.MpscPbuf.Packets

/-! Producers that wait for space: which of them `mpsc_pbuf_free` will wake. -/
namespace ArmFirmware.Zephyr.MpscPbuf
open Library List Function State Log Producer WaitQueue

attribute [local simp] State.set State.init
variable {ι : Type*}

/-- A packet has a place in the buffer, or `mpsc_pbuf_free` has not returned. -/
def Busy (x : State ι × Log ι) : Prop := x.2.live ≠ [] ∨ x.1.consumer = .giving

/-- A producer is blocked, and nothing is left in the buffer that could be freed. -/
def Stuck (c : Config) (x : State ι × Log ι) : Prop :=
  (∃ i wlen, x.1.producer i = .waiting wlen ∧ wlen ≤ c.size) ∧ x.1.sem = 0 ∧ ¬Busy x

def Waits : Action ι → Prop
  | .start _ (.alloc _ wait) => wait = true
  | .start .. => False
  | _ => True

/-- A producer has decided to wait and has not been woken. -/
def Producer.blocks : Producer → Bool
  | .take _ | .waiting _ => true
  | _ => false

/-- A request is for at most half of the buffer, rounded up, so that it fits before a skip item that such
a request has left; and when the last packet has been freed at most one producer waits. -/
def Provident (c : Config) (x : State ι × Log ι) : Action ι → Prop
  | .start _ job => 0 < job.wlen ∧ 2*job.wlen ≤ c.size+1
  | .give => x.2.live = [] → ∀ i j, (x.1.producer i).blocks = true → (x.1.producer j).blocks = true → i = j
  | _ => True

instance (x : State ι × Log ι) : Decidable (Busy x) :=
  decidable_of_iff (x.2.live ≠ [] ∨ x.1.consumer matches .giving) (by
    unfold Busy
    cases x.1.consumer <;> simp)

instance : ∀ a : Action ι, Decidable (Waits a)
  | .start _ (.alloc ..) => by unfold Waits; infer_instance
  | .start _ (.word _) | .start _ (.wordExt ..) | .start _ (.data _) => isFalse id
  | .pass _ | .notify _ | .take _ | .expire _ | .fill .. | .commit _ | .claim | .free | .give => isTrue trivial

instance [Fintype ι] [DecidableEq ι] (c : Config) (x : State ι × Log ι) : ∀ a, Decidable (Provident c x a)
  | .start .. | .give => by unfold Provident; infer_instance
  | .pass _ | .notify _ | .take _ | .expire _ | .fill .. | .commit _ | .claim | .free => isTrue trivial

def Producer.Patient (c : Config) : Producer → Prop
  | .loop job shift _ => (∃ wlen, job = .alloc wlen true ∧ 2*wlen ≤ c.size+1) ∧ shift = 0
  | .take wlen | .waiting wlen => 2*wlen ≤ c.size+1
  | .notify .. => False
  | .idle | .filling .. => True

/-- Whoever has decided to wait has a packet to wait for, or the semaphore for itself. -/
structure Watched (c : Config) (x : State ι × Log ι) : Prop where
  patient : ∀ i, (x.1.producer i).Patient c
  queued : ∀ i ∈ x.1.waiters, ∃ wlen, x.1.producer i = .waiting wlen
  nodup : x.1.waiters.Nodup
  served : ∀ i, (x.1.producer i).blocks = true →
    Busy x ∨ x.1.sem = 1 ∧ ∀ j, (x.1.producer j).blocks = true → j = i

/-- A skip item lies at the end of the buffer and is shorter than half of it, and the packets of the list
are those that have not been freed. -/
structure Spaced (c : Config) (g : Log ι) (Q : List (Seg ι)) : Prop where
  skips : ∀ p ∈ Q, p.kind = .skip → p.start+p.len = c.size ∧ 2*p.len < c.size
  alive : ∀ p ∈ Q, p.kind.isPacket = true → ∃ x ∈ g.live, x.ticket = g.packetAt p.start

section Results
variable {c : Config} {prio : ι → ℤ} {s s' : State ι} {g g' : Log ι} {Q Q' : List (Seg ι)} {i : ι}

lemma pass_patient (c : Config) (b : Buffer) (wlen val : ℕ) :
    (wlen ≤ (freeSpace c b).2 ∧ (Job.alloc wlen true).pass c b 0 val = (tmpWrIdxInc c
        { b with buf := update b.buf b.tmpWr { b.buf b.tmpWr with valid := false, busy := false } } wlen,
        .stored b.tmpWr)) ∨
      (freeSpace c b).2 < wlen ∧
        ((freeSpace c b).1 = true ∧ (Job.alloc wlen true).pass c b 0 val = (addSkipItem c b (freeSpace c b).2,
          .again) ∨
          (freeSpace c b).1 = false ∧ (Job.alloc wlen true).pass c b 0 val = (b,.wait)) := by
  rcases le_or_gt wlen (freeSpace c b).2 with hle | hlt
  · exact .inl ⟨hle,if_pos hle⟩
  · refine .inr ⟨hlt,?_⟩
    by_cases hwrap : (freeSpace c b).1 = true
    · exact .inl ⟨hwrap,(if_neg hlt.not_ge).trans (if_pos hwrap)⟩
    · exact .inr ⟨by simpa using hwrap,(if_neg hlt.not_ge).trans (if_neg hwrap)⟩

lemma freeSpace_wrap {b : Buffer} (hwrap : (freeSpace c b).1 = true) : (freeSpace c b).2 = c.size-b.tmpWr := by
  unfold freeSpace at hwrap ⊢
  split_ifs at hwrap ⊢
  rfl

namespace Spaced

lemma within (h : Spaced c g Q) (hwithin : Within Q' Q) (hlive : g'.live = g.live) (hat : g'.packetAt = g.packetAt) :
    Spaced c g' Q' := by
  refine ⟨fun q hq hk => h.skips q ((hwithin q hq).1 hk) hk,fun q hq hk => ?_⟩
  obtain ⟨p,hp,hpacket,hstart⟩ := (hwithin q hq).2 hk
  rw [hlive,hat,← hstart]
  exact h.alive p hp hpacket

/-- With nothing allocated, committed or claimed there is at most a skip item, and any request for half of the
buffer fits before it or behind the last packet. -/
lemma finds_space (h : Spaced c g Q) (hgood : Good c s g Q) (hmode : c.overwrite = false) (hlive : g.live = [])
    {wlen : ℕ}
    (hhalf : 2*wlen ≤ c.size+1) (hlt : (freeSpace c s.toBuffer).2 < wlen) : (freeSpace c s.toBuffer).1 = true := by
  by_contra hcon
  have hwrap : (freeSpace c s.toBuffer).1 = false := by simpa using hcon
  have hskip : ∀ p ∈ Q, p.kind = .skip := fun p hp => by
    have hwindow := hgood.reader.whole hmode p hp
    have halive := h.alive p hp
    simp only [hlive,not_mem_nil,false_and,exists_false] at halive
    revert hwindow halive
    cases p.kind <;> simp [Kind.isPacket]
  obtain ⟨p,R,rfl⟩ := hgood.ring.exists_head hwrap
  have hp := h.skips p (by simp) (hskip p (by simp))
  cases R with
  | cons q R =>
    have hq := h.skips q (by simp) (hskip q (by simp))
    have := (show Ring c s.toBuffer ([]++p::q::R) from hgood.ring).disjoint (.inr (mem_cons_self ..))
    have := p.pos
    have := q.pos
    omega
  | nil =>
    have hgap := hgood.ring.gap hwrap
    have hstart := hgood.ring.head.1
    have hwr := hgood.ring.circle.total_eq.2.2
    have htotal : (format c).total [p] = p.len := by simp [format,RecordFormat.total]
    rw [htotal,← hstart,hp.1,Nat.mod_self] at hwr
    omega

variable [DecidableEq ι]

lemma pass (h : Spaced c g Q) (hgood : Good c s g Q) (hc : c.Sized) {wlen val : ℕ}
    (hi : s.producer i = .loop (.alloc wlen true) 0 val) (hhalf : 2*wlen ≤ c.size+1) {r : Reply}
    (hpass : s.passed i (.alloc wlen true) ((Job.alloc wlen true).pass c s.toBuffer 0 val) = (s',r)) :
    ∃ Q', Good c s' (g.next s s' (.pass i) r) Q' ∧ Spaced c (g.next s s' (.pass i) r) Q' := by
  have hready : (loop (.alloc wlen true) 0 0).Ready c := by simpa [hi,Producer.Ready] using hgood.ready i
  have hrole : (s.producer i).role = .none := by simp [hi,role]
  have hn : 0 < wlen := hready.1
  rcases pass_patient c s.toBuffer wlen val with ⟨hle,heq⟩ | ⟨hlt,⟨hwrap,heq⟩ | ⟨-,heq⟩⟩
  · rw [heq] at hpass
    obtain ⟨rfl,rfl⟩ := Prod.mk.inj hpass
    simp only [Log.next,hi]
    refine ⟨_,hgood.allocated hc hrole (show (Job.alloc wlen true).words? = none from rfl) hn hle rfl,
      fun q hq hk => ?_,fun q hq hk => ?_⟩
    · rcases mem_append.mp hq with hq | hq
      · exact h.skips q hq hk
      · obtain rfl := mem_singleton.mp hq
        cases hk
    · rcases mem_append.mp hq with hq | hq
      · obtain ⟨x,hx,hticket⟩ := h.alive q hq hk
        have hne : q.start ≠ s.tmpWr := fun heq => by
          have := hgood.ring.apart hn hle hq
          have := q.pos
          omega
        exact ⟨x,mem_append_left _ hx,hticket.trans (update_of_ne hne _ _).symm⟩
      · obtain rfl := mem_singleton.mp hq
        exact ⟨_,mem_append_right _ (mem_singleton_self _),by simp [place]⟩
  · rw [heq] at hpass
    obtain ⟨rfl,rfl⟩ := Prod.mk.inj hpass
    have hfree := freeSpace_wrap hwrap
    have hwr := hgood.ring.circle.wr_lt
    refine ⟨_,hgood.skipped hc hrole hready (by omega),fun q hq hk => ?_,fun q hq hk => ?_⟩
    · rcases mem_append.mp hq with hq | hq
      · exact h.skips q hq hk
      · obtain rfl := mem_singleton.mp hq
        dsimp only
        omega
    · rcases mem_append.mp hq with hq | hq
      · exact h.alive q hq hk
      · obtain rfl := mem_singleton.mp hq
        cases hk
  · rw [heq] at hpass
    obtain ⟨rfl,rfl⟩ := Prod.mk.inj hpass
    exact ⟨Q,hgood.of_role hrole.symm hn,h⟩

omit [DecidableEq ι] in
lemma free {p : Seg ι} (h : Spaced c g (p::Q)) (hgood : Good c s g (p::Q)) (hp : ∃ k ws, p.kind = .claimed k ws) :
    Spaced c { g with live := g.live.filter fun x => x.ticket ≠ g.packetAt p.start } Q := by
  obtain ⟨k,ws,hkind⟩ := hp
  have hpt := hgood.books.told p (by simp)
  simp only [Told,hkind] at hpt
  have hk : k ∈ g.claimed := mem_of_getLast? hpt.2.2.2
  refine ⟨fun q hq => h.skips q (mem_cons_of_mem p hq),fun q hq hpacket => ?_⟩
  obtain ⟨x,hx,hticket⟩ := h.alive q (mem_cons_of_mem p hq) hpacket
  refine ⟨x,mem_filter.mpr ⟨hx,?_⟩,hticket⟩
  have hcons : p::Q = []++p::Q := rfl
  have hne := hgood.starts hcons q (.inr hq)
  have hqt := hgood.books.told q (mem_cons_of_mem p hq)
  -- a packet that has not been claimed has another number
  have hother : ∀ l, q.kind.ticket? = some l → l ≠ k := fun l hl heq => by
    have hmem : l ∈ tickets (p::Q) := mem_filterMap.mpr ⟨q,mem_cons_of_mem p hq,hl⟩
    have hnodup := hgood.books.account.nodup
    rw [← append_assoc,← append_assoc] at hnodup
    exact disjoint_of_nodup_append hnodup (mem_append_left _ (mem_append_left _ (heq ▸ hk))) hmem
  rw [hticket,hpt.2.1]
  cases hq' : q.kind with
  | held j l =>
    simp only [Told,hq'] at hqt
    simpa [hqt.2.1] using hother l (by simp [hq',Kind.ticket?])
  | stored l vs =>
    simp only [Told,hq'] at hqt
    simpa [hqt.1] using hother l (by simp [hq',Kind.ticket?])
  | claimed l vs =>
    simp only [Told,hq'] at hqt
    exact absurd (Option.some.inj (hqt.1.symm.trans hpt.1)) hne
  | _ => simp [hq',Kind.isPacket] at hpacket

lemma step (h : Spaced c g Q) (hgood : Good c s g Q) (hc : c.Sized) (hmode : c.overwrite = false)
    (hpatient : ∀ i, (s.producer i).Patient c) {a : Action ι} (hprov : Provident c (s,g) a) {r : Reply}
    (hstep : MpscPbuf.step c prio s a = some (s',r)) :
    ∃ Q', Good c s' (g.next s s' a r) Q' ∧ Spaced c (g.next s s' a r) Q' := by
  cases a with
  | start i job => exact ⟨Q,hgood.start hprov.1 hstep,h⟩
  | pass i =>
    have hi := hpatient i
    simp only [MpscPbuf.step] at hstep
    split at hstep
    · rename_i heq
      rw [heq] at hi
      obtain ⟨⟨wlen,rfl,hhalf⟩,rfl⟩ := hi
      exact h.pass hgood hc heq hhalf (Option.some.inj hstep)
    · cases hstep
  | notify i =>
    have hi := hpatient i
    simp only [MpscPbuf.step] at hstep
    split at hstep
    · rename_i heq
      simp [heq,Producer.Patient] at hi
    · cases hstep
  | take i => exact ⟨Q,hgood.take hstep,h⟩
  | expire i => exact ⟨Q,hgood.expire hstep,h⟩
  | fill i j w => exact ⟨Q,hgood.filled hstep,h⟩
  | commit i =>
    obtain ⟨Q',hgood',hwithin⟩ := hgood.committed hc hstep
    refine ⟨Q',hgood',h.within hwithin ?_ ?_⟩
    all_goals
      simp only [Log.next]
      split <;> rfl
  | claim =>
    obtain ⟨Q',hgood',hwithin⟩ := hgood.claims hc hstep
    exact ⟨Q',hgood',h.within hwithin (by cases r <;> rfl) (by cases r <;> rfl)⟩
  | free =>
    simp only [MpscPbuf.step] at hstep
    split at hstep
    · rename_i item hitem
      cases hstep
      simp only [Log.next,hitem]
      obtain ⟨p,Q',rfl,rfl,hp,hgood'⟩ := hgood.free_first hc hitem (hgood.item_eq_rd hmode hitem)
      exact ⟨Q',hgood',h.free hgood hp⟩
    · cases hstep
  | give => exact ⟨Q,hgood.give hstep,h⟩

end Spaced

variable [DecidableEq ι]

lemma semGive_nil (hwaiters : s.waiters = []) : s.semGive = { s with sem := min 1 (s.sem+1) } := by
  simp [semGive,hwaiters]

lemma semGive_cons {q : List ι} {wlen : ℕ} (hwaiters : s.waiters = i::q) (hi : s.producer i = .waiting wlen) :
    s.semGive = { s with waiters := q }.set i (.loop (.alloc wlen true) 0 0) := by
  simp [semGive,hwaiters,hi]

namespace Watched

section
variable (h : Watched c (s,g))
include h

lemma patient_update {p : Producer} (hp : p.Patient c) (j : ι) : (update s.producer i p j).Patient c := by
  by_cases hj : j = i
  · subst hj
    rwa [update_self]
  · rw [update_of_ne hj]
    exact h.patient j

lemma queued_update (hi : i ∉ s.waiters) (p : Producer) :
    ∀ j ∈ s.waiters, ∃ wlen, update s.producer i p j = .waiting wlen := fun j hj => by
  have hne : j ≠ i := fun heq => hi (heq ▸ hj)
  rw [update_of_ne hne]
  exact h.queued j hj

omit [DecidableEq ι] in
lemma not_mem (hi : ∀ wlen, s.producer i ≠ .waiting wlen) : i ∉ s.waiters := fun hmem => by
  obtain ⟨wlen,hwait⟩ := h.queued i hmem
  exact hi wlen hwait

omit [DecidableEq ι] in
lemma of_quiet (hpatient : ∀ j, (s'.producer j).Patient c)
    (hqueued : ∀ j ∈ s'.waiters, ∃ wlen, s'.producer j = .waiting wlen) (hnodup : s'.waiters.Nodup)
    (hsem : s'.sem = s.sem)
    (hblocks : ∀ j, (s'.producer j).blocks = true → (s.producer j).blocks = true)
    (hbusy : Busy (s,g) → Busy (s',g')) :
    Watched c (s',g') := by
  refine ⟨hpatient,hqueued,hnodup,fun j hj => ?_⟩
  rcases h.served j (hblocks j hj) with hb | ⟨hone,hall⟩
  · exact .inl (hbusy hb)
  · exact .inr ⟨hsem.trans hone,fun k hk => hall k (hblocks k hk)⟩

lemma of_set {b : Buffer} {p : Producer} (hp : p.Patient c) (hidle : p.blocks = false)
    (hi : i ∉ s.waiters) (hlive : g.live ≠ [] → g'.live ≠ []) : Watched c ({ s with toBuffer := b }.set i p,g') := by
  refine h.of_quiet (h.patient_update hp) (h.queued_update hi p) h.nodup rfl (fun j hj => ?_) (Or.imp_left hlive)
  by_cases hji : j = i
  · subst hji
    simp [hidle] at hj
  · simpa [update_of_ne hji] using hj

lemma pass {job : Job} {shift val : ℕ} (hi : s.producer i = .loop job shift val)
    (hspace : ∀ wlen, 2*wlen ≤ c.size+1 → (freeSpace c s.toBuffer).2 < wlen → ¬Busy (s,g) →
      (freeSpace c s.toBuffer).1 = true) (out : State ι × Reply)
    (hout : s.passed i job (job.pass c s.toBuffer shift val) = out) :
    Watched c (out.1,g.next s out.1 (.pass i) out.2) := by
  have hpatient := h.patient i
  rw [hi] at hpatient
  obtain ⟨⟨wlen,rfl,hhalf⟩,rfl⟩ := hpatient
  have hmem : i ∉ s.waiters := h.not_mem (by simp [hi])
  rcases pass_patient c s.toBuffer wlen val with ⟨-,heq⟩ | ⟨hlt,⟨-,heq⟩ | ⟨hwrap,heq⟩⟩
  · rw [heq] at hout
    subst hout
    refine h.of_set trivial rfl hmem fun _ => ?_
    simp [State.passed,Log.next,hi,place]
  · rw [heq] at hout
    subst hout
    exact h.of_set ⟨⟨wlen,rfl,hhalf⟩,rfl⟩ rfl hmem id
  · have hbusy : Busy (s,g) := by
      by_contra hcon
      simp [hspace wlen hhalf hlt hcon] at hwrap
    rw [heq] at hout
    subst hout
    exact ⟨h.patient_update hhalf,h.queued_update hmem _,h.nodup,fun _ _ => .inl hbusy⟩

lemma take {wlen : ℕ} (hi : s.producer i = .take wlen) :
    Watched c ({ s with sem := s.sem-1 }.set i (.loop (.alloc wlen true) 0 0),g) := by
  have hmem : i ∉ s.waiters := h.not_mem (by simp [hi])
  have hhalf := h.patient i
  rw [hi] at hhalf
  refine ⟨h.patient_update ⟨⟨wlen,rfl,hhalf⟩,rfl⟩,h.queued_update hmem _,h.nodup,fun j hj => .inl ?_⟩
  have hne : j ≠ i := by
    rintro rfl
    simp [blocks] at hj
  rcases h.served i (by simp [hi,blocks]) with hb | ⟨-,hall⟩
  · exact hb
  · exact absurd (hall j (by simpa [update_of_ne hne] using hj)) hne

lemma pend {wlen : ℕ} (hi : s.producer i = .take wlen) (hsem : ¬s.sem > 0) (before : ι → Bool) :
    Watched c ({ s with waiters := pend before i s.waiters }.set i (.waiting wlen),g) := by
  have hmem : i ∉ s.waiters := h.not_mem (by simp [hi])
  have hhalf : 2*wlen ≤ c.size+1 := by simpa [hi,Producer.Patient] using h.patient i
  have hbusy : Busy (s,g) := by
    rcases h.served i (by simp [hi,blocks]) with hb | ⟨hone,-⟩
    · exact hb
    · exact absurd (hone ▸ Nat.one_pos) hsem
  refine ⟨h.patient_update hhalf,fun j hj => ?_,?_,fun _ _ => .inl hbusy⟩
  · rcases mem_pend.mp hj with rfl | hj
    · exact ⟨wlen,update_self ..⟩
    · exact h.queued_update hmem _ j hj
  · exact (pend_perm ..).nodup_iff.mpr (nodup_cons.mpr ⟨hmem,h.nodup⟩)

lemma expire : Watched c ({ s with waiters := s.waiters.erase i }.set i .idle,g) := by
  refine h.of_quiet (h.patient_update trivial) (fun j hj => ?_) (h.nodup.erase i) rfl (fun j hj => ?_) id
  · have hne : j ≠ i := (h.nodup.mem_erase_iff.mp hj).1
    simp only [State.set,update_of_ne hne]
    exact h.queued j (mem_of_mem_erase hj)
  · by_cases hji : j = i
    · subst hji
      simp [blocks] at hj
    · simpa [update_of_ne hji] using hj

/-- `k_sem_give`: with no packet left, the only producer that waits is woken or finds the count. -/
lemma give (hprov : Provident c (s,g) .give) : Watched c ({ s.semGive with consumer := .idle },g) := by
  cases hwaiters : s.waiters with
  | nil =>
    rw [semGive_nil hwaiters]
    refine ⟨h.patient,h.queued,h.nodup,fun j hj => ?_⟩
    by_cases hlive : g.live = []
    · exact .inr ⟨by simp,fun k hk => hprov hlive k j hk hj⟩
    · exact .inl (.inl hlive)
  | cons i q =>
    obtain ⟨wlen,hi⟩ : ∃ wlen, s.producer i = .waiting wlen := h.queued i (by simp [hwaiters])
    rw [semGive_cons hwaiters hi]
    obtain ⟨hmem,hq⟩ := nodup_cons.mp (hwaiters ▸ h.nodup)
    have hhalf := h.patient i
    rw [hi] at hhalf
    refine ⟨h.patient_update ⟨⟨wlen,rfl,hhalf⟩,rfl⟩,fun j hj => ?_,hq,fun j hj => .inl (.inl fun hlive => ?_)⟩
    · have hne : j ≠ i := fun heq => hmem (heq ▸ hj)
      simp only [State.set,update_of_ne hne]
      exact h.queued j (hwaiters ▸ mem_cons_of_mem i hj)
    · -- the producer that is woken was the only one
      have hne : j ≠ i := by
        rintro rfl
        simp [blocks] at hj
      simp only [State.set,update_of_ne hne] at hj
      exact hne (hprov hlive j i hj (by simp [hi,blocks]))

lemma claim (hcons : s.consumer ≠ .giving) (out : Buffer × Claim) :
    Watched c ((s.claimed out).1,g.next s (s.claimed out).1 .claim (s.claimed out).2) := by
  have hlive : Busy (s,g) → g.live ≠ [] := fun hb => hb.resolve_right hcons
  obtain ⟨b,_ | _ | item⟩ := out
  all_goals exact h.of_quiet h.patient h.queued h.nodup rfl (fun _ => id) fun hb => .inl (hlive hb)

lemma step {a : Action ι} {r : Reply} (hwaits : Waits a) (hprov : Provident c (s,g) a)
    (hspace : ∀ wlen, 2*wlen ≤ c.size+1 → (freeSpace c s.toBuffer).2 < wlen → ¬Busy (s,g) →
      (freeSpace c s.toBuffer).1 = true)
    (hstep : MpscPbuf.step c prio s a = some (s',r)) : Watched c (s',g.next s s' a r) := by
  cases a with
  | start i job =>
    simp only [MpscPbuf.step] at hstep
    split at hstep
    · rename_i hi
      have hmem : i ∉ s.waiters := h.not_mem (by simp [hi])
      cases job with
      | alloc wlen wait =>
        obtain rfl : wait = true := hwaits
        dsimp only at hstep
        split_ifs at hstep
        · cases hstep
          exact h
        · cases hstep
          exact h.of_set ⟨⟨wlen,rfl,hprov.2⟩,rfl⟩ rfl hmem id
      | _ => exact hwaits.elim
    · cases hstep
  | pass i =>
    simp only [MpscPbuf.step] at hstep
    split at hstep
    · rename_i job shift val hi
      exact h.pass hi hspace (s',r) (Option.some.inj hstep)
    · cases hstep
  | notify i =>
    have hi := h.patient i
    simp only [MpscPbuf.step] at hstep
    split at hstep
    · rename_i heq
      simp [heq,Producer.Patient] at hi
    · cases hstep
  | take i =>
    simp only [MpscPbuf.step] at hstep
    split at hstep
    · rename_i wlen hi
      split_ifs at hstep with hsem
      · cases hstep
        exact h.take hi
      · cases hstep
        exact h.pend hi hsem _
    · cases hstep
  | expire i =>
    simp only [MpscPbuf.step] at hstep
    split at hstep
    · cases hstep
      exact h.expire
    · cases hstep
  | fill i j w =>
    simp only [MpscPbuf.step] at hstep
    split at hstep
    · split_ifs at hstep
      cases hstep
      exact h.of_quiet h.patient h.queued h.nodup rfl (fun _ => id) id
    · cases hstep
  | commit i =>
    simp only [MpscPbuf.step] at hstep
    split at hstep
    · rename_i item wlen hi
      split_ifs at hstep
      cases hstep
      refine h.of_set trivial rfl (h.not_mem (by simp [hi])) ?_
      simp [Log.next,hi]
    · cases hstep
  | claim =>
    have hcons : s.consumer ≠ .giving := fun hgiving => by simp [MpscPbuf.step,hgiving] at hstep
    obtain ⟨rfl,rfl⟩ := Prod.mk.inj (Good.step_claim hstep).2
    exact h.claim hcons _
  | free =>
    simp only [MpscPbuf.step] at hstep
    split at hstep
    · cases hstep
      exact ⟨h.patient,h.queued,h.nodup,fun _ _ => .inl (.inr rfl)⟩
    · cases hstep
  | give =>
    simp only [MpscPbuf.step] at hstep
    split at hstep
    · cases hstep
      exact h.give hprov
    · cases hstep

end

end Watched

/-- The overwrite mode makes no difference to producers that wait. -/
lemma step_kept {a : Action ι} (hpatient : ∀ i, (s.producer i).Patient c)
    (hrd : ∀ item, s.consumer = .holding item → item = s.rd) :
    MpscPbuf.step { c with overwrite := false } prio s a = MpscPbuf.step c prio s a := by
  cases a with
  | pass i =>
    have hi := hpatient i
    simp only [MpscPbuf.step]
    split
    · rename_i heq
      rw [heq] at hi
      obtain ⟨⟨wlen,rfl,-⟩,rfl⟩ := hi
      rfl
    · rfl
  | free =>
    simp only [MpscPbuf.step]
    split
    · rename_i item hitem
      simp [MpscPbuf.free,hrd item hitem,rdIdxInc,idxInc]
    · rfl
  | _ => rfl

omit [DecidableEq ι] in
lemma init_watched (buf : ℕ → Word) : Watched c ((init buf : State ι),empty) :=
  ⟨fun _ => trivial,by simp,by simp,by simp [blocks]⟩

/-- Producers that call `mpsc_pbuf_alloc` with a timeout for at most half of the buffer, at most one of them
waiting when the last packet is freed, are never left waiting for nothing. -/
theorem runs_leave_none_stuck (c : Config) (prio : ι → ℤ) (buf : ℕ → Word) (as : List (Action ι)) (hc : c.Sized)
    (hrun : Along (fun x a => (step c prio x.1 a).isSome ∧ Waits a ∧ Provident c x a) (recording (step c prio) next)
      (init buf,empty) as) :
    ∃ x os, serve? (recording (step c prio) next) (init buf,empty) as = some (x,os) ∧
      Trace (fun _ _ _ y => ¬Stuck c y) (init buf,empty) as os x := by
  have hc' : Config.Sized { c with overwrite := false } := ⟨hc.pos,hc.lt⟩
  refine Trace.of_steps (I := fun x => Watched c x ∧
    ∃ Q, Good { c with overwrite := false } x.1 x.2 Q ∧ Spaced { c with overwrite := false } x.2 Q) ?_
    ⟨init_watched buf,[],init_good hc' buf,by simp,by simp⟩ hrun
  rintro ⟨s,g⟩ a ⟨hx,Q,hgood,hspaced⟩ ⟨hsome,hwaits,hprov⟩
  obtain ⟨⟨s',r⟩,hs⟩ := Option.isSome_iff_exists.mp hsome
  have hy := hx.step hwaits hprov (fun wlen hhalf hlt hbusy => hspaced.finds_space hgood rfl (by
    simpa [Busy] using fun hlive => hbusy (.inl hlive)) hhalf hlt) hs
  have hs' := hs
  rw [← step_kept hx.patient fun item => hgood.item_eq_rd rfl] at hs'
  refine ⟨(s',_),r,recording_eq_some.mpr ⟨hs,rfl⟩,⟨hy,hspaced.step hgood hc' rfl hx.patient hprov hs'⟩,?_⟩
  dsimp only [Stuck]
  rintro ⟨⟨i,wlen,hi,-⟩,hsem,hbusy⟩
  rcases hy.served i (by simp [hi,blocks]) with hb | ⟨hone,-⟩
  · exact hbusy hb
  · exact absurd (hsem.symm.trans hone) Nat.zero_ne_one

def claimedFour : List (Action (Fin 2)) :=
  [.start 0 (.alloc 4 true),.pass 0,.fill 0 0 ⟨false,false,4⟩,.commit 0,.claim]

theorem runs_leave_none_stuck_woken :
    ∃ x os, serve? (recording (step (sample 7 false) fun _ => 0) next) (init fun _ => header 0,empty)
        (claimedFour++[.start 1 (.alloc 4 true),.pass 1,.pass 1,.take 1,.free,.give,.pass 1]) = some (x,os) ∧
      Trace (fun _ _ _ y => ¬Stuck (sample 7 false) y) (init fun _ => header 0,empty)
        (claimedFour++[.start 1 (.alloc 4 true),.pass 1,.pass 1,.take 1,.free,.give,.pass 1]) os x :=
  runs_leave_none_stuck (sample 7 false) (fun _ => 0) _ _ ⟨by decide,by decide⟩ (by decide +kernel)

/-- The second producer leaves a skip item and waits. It is woken when the packet is freed, finds too few
words before the skip item and waits again, for nothing. The consumer frees the skip item and wakes
nobody. -/
theorem waits_for_skip_item :
    ∃ x os, serve? (recording (step (sample 8 false) fun _ => 0) next) (init fun _ => header 0,empty)
        (claimedFour++[.start 1 (.alloc 6 true),.pass 1,.pass 1,.take 1,.free,.give,.pass 1,.take 1,.claim,.claim]) =
          some (x,os) ∧ Stuck (sample 8 false) x :=
  ⟨_,_,rfl,⟨1,6,rfl,by decide⟩,rfl,by decide +kernel⟩

end Results
end ArmFirmware.Zephyr.MpscPbuf
