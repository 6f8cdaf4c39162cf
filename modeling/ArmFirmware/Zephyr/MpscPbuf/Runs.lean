import ArmFirmware.Library.Trace
import ArmFirmware.Zephyr.MpscPbuf.Books

/-! Producers and the consumer in any order: what every step preserves, and what becomes of the
packets, without and with the overwrite mode. -/
namespace ArmFirmware.Zephyr.MpscPbuf
open Library List Function Option MpscPbuf Prod Job Producer

attribute [local simp] role resume alloc tickets_cons Kind.ticket? State.set putWord put
variable {ι : Type*}

/-- A call is for at least one word. -/
def Careful : Action ι → Prop
  | .start _ job => 0 < job.wlen
  | _ => True

instance (a : Action ι) : Decidable (Careful a) := by
  unfold Careful
  split <;> infer_instance

/-- The calls that are being made are for at least one word and keep to the protocol. -/
def Producer.Ready (c : Config) : Producer → Prop
  | .loop job _ _ | .notify job _ _ _ => 0 < job.wlen ∧ job.Allowed c
  | .take wlen | .waiting wlen => 0 < wlen
  | .idle | .filling .. => True

/-- Where the reader's temporary index is. Without the overwrite mode a claimed packet stays the first
one, and no packet is dropped. -/
structure Reader (c : Config) (b : Buffer) (Q : List (Seg ι)) : Prop where
  idx : b.tmpRd = b.rd ∨ ∃ p Q' k ws, Q = p::Q' ∧ p.kind = .claimed k ws ∧ b.tmpRd = (b.rd+p.len)%c.size
  first : c.overwrite = false → ∀ p ∈ Q, ∀ k ws, p.kind = .claimed k ws → Q.head? = some p
  whole : c.overwrite = false → ∀ p ∈ Q, ∀ i, p.kind ≠ .window i

/-- The buffer is a ring of segments, and the books agree with it. -/
structure Good (c : Config) (s : State ι) (g : Log ι) (Q : List (Seg ι)) : Prop where
  ring : Ring c s.toBuffer Q
  books : Books (fun i => (s.producer i).role) s.consumer.item? g Q
  reader : Reader c s.toBuffer Q
  ready : ∀ i, (s.producer i).Ready c
  kept : c.overwrite = false → g.reported = [] ∧ g.dropping = []

/-- There are no new skip items, and packets only where there were some. -/
def Within (Q' Q : List (Seg ι)) : Prop :=
  ∀ q ∈ Q', (q.kind = .skip → q ∈ Q) ∧ (q.kind.isPacket = true → ∃ p ∈ Q, p.kind.isPacket = true ∧ p.start = q.start)

lemma Within.of_subset {Q' Q : List (Seg ι)} (h : Q' ⊆ Q) : Within Q' Q := fun q hq =>
  ⟨fun _ => h hq,fun hk => ⟨q,h hq,hk,rfl⟩⟩

lemma Within.replace {p : Seg ι} {kind : Kind ι} (hp : p.kind.isPacket = true) (hkind : kind.isPacket = true)
    (Q₁ Q₂ : List (Seg ι)) : Within (Q₁++⟨p.start,p.len,kind,p.pos⟩::Q₂) (Q₁++p::Q₂) := by
  intro q hq
  simp only [mem_append,mem_cons] at hq
  have hsame : q ∈ Q₁ ∨ q ∈ Q₂ → q ∈ Q₁++p::Q₂ := by
    simp only [mem_append,mem_cons]
    tauto
  rcases hq with hq | rfl | hq
  · exact ⟨fun _ => hsame (.inl hq),fun hk => ⟨q,hsame (.inl hq),hk,rfl⟩⟩
  · exact ⟨fun (hskip : kind = .skip) => absurd hkind (by simp [hskip,Kind.isPacket]),fun _ => ⟨p,by simp,hp,rfl⟩⟩
  · exact ⟨fun _ => hsame (.inr hq),fun hk => ⟨q,hsame (.inr hq),hk,rfl⟩⟩

namespace Reader
variable {c : Config} {b b' : Buffer} {Q Q₁ Q₂ : List (Seg ι)} {p : Seg ι}

lemma push (h : Reader c b Q) (htmp : b'.tmpRd = b.tmpRd) (hrd : b'.rd = b.rd)
    (hclaimed : ∀ k ws, p.kind ≠ .claimed k ws) (hwindow : ∀ i, p.kind ≠ .window i) : Reader c b' (Q++[p]) := by
  refine ⟨?_,fun hmode q hq k ws hk => ?_,fun hmode q hq => ?_⟩
  · rw [htmp,hrd]
    rcases h.idx with hidx | ⟨q,Q',k,ws,rfl,hk,hidx⟩
    · exact .inl hidx
    · exact .inr ⟨q,Q'++[p],k,ws,rfl,hk,hidx⟩
  · rcases mem_append.mp hq with hq | hq
    · rw [head?_append,h.first hmode q hq k ws hk]
      rfl
    · obtain rfl := mem_singleton.mp hq
      exact absurd hk (hclaimed k ws)
  · rcases mem_append.mp hq with hq | hq
    · exact h.whole hmode q hq
    · obtain rfl := mem_singleton.mp hq
      exact hwindow

lemma pop (h : Reader c b (p::Q)) (hp : ∀ k ws, p.kind ≠ .claimed k ws) (htmp : b'.tmpRd = b'.rd) :
    Reader c b' Q := by
  refine ⟨.inl htmp,fun hmode q hq k ws hk => ?_,fun hmode q hq => h.whole hmode q (mem_cons_of_mem _ hq)⟩
  have := h.first hmode q (mem_cons_of_mem _ hq) k ws hk
  rw [head?_cons,some.injEq] at this
  exact absurd (this ▸ hk) (hp k ws)

lemma idx_head (h : Reader c b (p::Q)) : b.tmpRd = b.rd ∨ b.tmpRd = (b.rd+p.len)%c.size := by
  rcases h.idx with hidx | ⟨q,Q',k,ws,hq,-,hidx⟩
  · exact .inl hidx
  · obtain ⟨rfl,-⟩ := cons.inj hq
    exact .inr hidx

lemma idx_replace (h : Reader c b (Q₁++p::Q₂)) (hp : ∀ k ws, p.kind ≠ .claimed k ws) (S : List (Seg ι)) :
    b.tmpRd = b.rd ∨ ∃ q Q' k ws, Q₁++S++Q₂ = q::Q' ∧ q.kind = .claimed k ws ∧ b.tmpRd = (b.rd+q.len)%c.size := by
  rcases h.idx with hidx | ⟨q,Q',k,ws,hq,hk,hidx⟩
  · exact .inl hidx
  · cases Q₁ with
    | nil =>
      obtain ⟨rfl,-⟩ := cons.inj hq
      exact absurd hk (hp k ws)
    | cons t Q₁ =>
      obtain ⟨rfl,-⟩ := cons.inj hq
      exact .inr ⟨t,Q₁++S++Q₂,k,ws,rfl,hk,hidx⟩

end Reader

lemma Job.pass_resume (c : Config) (b : Buffer) (job : Job) (shift val : ℕ) :
    job.pass c b shift val = job.pass c (resume c b shift val) 0 0 := by
  cases job <;> simp [pass,putWordExt,putData]

/-- What one pass of a producer's loop does. -/
lemma Job.pass_cases {c : Config} {b : Buffer} {Q : List (Seg ι)} (h : Ring c b Q) {job : Job} :
    (job.wlen ≤ (freeSpace c b).2 ∧
      ((∃ ws, job.words? = some ws ∧ ws.length = job.wlen ∧ job.pass c b 0 0 = (store c b ws,.stored b.tmpWr)) ∨
        job.words? = none ∧ job.pass c b 0 0 = (tmpWrIdxInc c
            { b with buf := update b.buf b.tmpWr { b.buf b.tmpWr with valid := false, busy := false } } job.wlen,
            .stored b.tmpWr))) ∨
      ((freeSpace c b).1 = true ∧ (freeSpace c b).2 < job.wlen ∧ 0 < (freeSpace c b).2 ∧
        job.pass c b 0 0 = (addSkipItem c b (freeSpace c b).2,.again)) ∨
      (freeSpace c b).1 = false ∧
        ((∃ wlen, job = .alloc wlen true) ∧ job.pass c b 0 0 = (b,.wait) ∨
          job.pass c b 0 0 = dropItemLocked c b (freeSpace c b).2) := by
  have hwrap : (freeSpace c b).1 = true → 0 < (freeSpace c b).2 := by
    have := h.circle.wr_lt
    unfold freeSpace
    split_ifs <;> simp
    omega
  by_cases hle : job.wlen ≤ (freeSpace c b).2
  · refine .inl ⟨hle,?_⟩
    cases job with
    | word item => exact .inl ⟨[item],rfl,rfl,if_pos (ne_of_gt hle)⟩
    | wordExt item ptr => exact .inl ⟨_,rfl,rfl,if_pos hle⟩
    | data ws => exact .inl ⟨_,rfl,rfl,if_pos hle⟩
    | alloc wlen wait => exact .inr ⟨rfl,if_pos hle⟩
  by_cases hw : (freeSpace c b).1 = true
  · refine .inr (.inl ⟨hw,not_le.mp hle,hwrap hw,?_⟩)
    cases job with
    | word item => exact absurd (hwrap hw) hle
    | _ => exact (if_neg hle).trans (if_pos hw)
  · refine .inr (.inr ⟨by simpa using hw,?_⟩)
    cases job with
    | word item => exact .inr (if_neg (by simp [wlen] at hle ⊢; omega))
    | wordExt item ptr => exact .inr ((if_neg hle).trans (if_neg hw))
    | data ws => exact .inr ((if_neg hle).trans (if_neg hw))
    | alloc wlen wait =>
      cases wait with
      | true => exact .inl ⟨⟨wlen,rfl⟩,(if_neg hle).trans (if_neg hw)⟩
      | false => exact .inr ((if_neg hle).trans (if_neg hw))

section Steps
variable [DecidableEq ι] {c : Config} {prio : ι → ℤ} {s : State ι} {g : Log ι} {Q : List (Seg ι)} {i : ι}

lemma role_set (s : State ι) (i : ι) (p : Producer) :
    (fun j => ((s.set i p).producer j).role) = update (fun j => (s.producer j).role) i p.role := by
  funext j
  by_cases hj : j = i
  · subst hj
    simp
  · simp [hj]

lemma passed_set (s : State ι) (i : ι) (job : Job) (p : Producer) (b : Buffer) (out : Buffer × Pass) :
    ({ s with toBuffer := b }.set i p).passed i job out = s.passed i job out := by
  obtain ⟨b',_ | _ | _ | _ | _⟩ := out <;> simp [State.passed]

namespace Good

section
variable (h : Good c s g Q)
include h

variable {b : Buffer} {g' : Log ι} {Q' : List (Seg ι)} {p : Producer}

lemma of_set (hring : Ring c b Q')
    (hbooks : Books (update (fun j => (s.producer j).role) i p.role) s.consumer.item? g' Q')
    (hreader : Reader c b Q') (hready : p.Ready c) (hkept : c.overwrite = false → g'.reported = [] ∧
      g'.dropping = []) :
    Good c ({ s with toBuffer := b }.set i p) g' Q' := by
  refine ⟨hring,?_,hreader,fun j => ?_,hkept⟩
  · rw [role_set]
    exact hbooks
  · by_cases hj : j = i
    · subst hj
      simpa using hready
    · simpa [hj] using h.ready j

lemma of_same (hring : Ring c b Q') (hbooks : Books (fun j => (s.producer j).role) s.consumer.item? g' Q')
    (hreader : Reader c b Q') (hrole : p.role = (s.producer i).role) (hready : p.Ready c)
    (hkept : c.overwrite = false → g'.reported = [] ∧ g'.dropping = []) :
    Good c ({ s with toBuffer := b }.set i p) g' Q' := by
  refine h.of_set hring ?_ hreader hready hkept
  rw [hrole,update_eq_self_iff.mpr rfl]
  exact hbooks

lemma of_role (hrole : p.role = (s.producer i).role) (hready : p.Ready c) : Good c (s.set i p) g Q :=
  h.of_same h.ring h.books h.reader hrole hready h.kept

omit [DecidableEq ι] in
lemma starts {Q₁ Q₂ : List (Seg ι)} {p : Seg ι} (hQ : Q = Q₁++p::Q₂) :
    ∀ q, q ∈ Q₁ ∨ q ∈ Q₂ → q.start ≠ p.start := by
  subst hQ
  intro q hq heq
  have := h.ring.disjoint hq
  have := p.pos
  have := q.pos
  omega

variable {job : Job} {shift val : ℕ}

/-- A producer that has dropped a packet first gives its place back. -/
lemma resumed (hc : c.Sized) (hi : s.producer i = .loop job shift val) :
    ∃ Q', Good c ({ s with toBuffer := resume c s.toBuffer shift val }.set i (.loop job 0 0)) g Q' ∧
      (c.overwrite = false → resume c s.toBuffer shift val = s.toBuffer) := by
  have hready : (loop job 0 0).Ready c := by simpa [hi,Producer.Ready] using h.ready i
  by_cases hshift : shift = 0
  · have hid : resume c s.toBuffer shift val = s.toBuffer := by simp [hshift]
    rw [hid]
    exact ⟨Q,h.of_role (by simp [hi,hshift]) hready,fun _ => rfl⟩
  · have hrole : (s.producer i).role = .window val shift none := by simp [hi,hshift]
    obtain ⟨p,hp,rfl,rfl,hkind⟩ := h.books.window i _ _ _ hrole
    have hmode : c.overwrite = false → False := fun hmode => h.reader.whole hmode p hp i hkind
    obtain ⟨Q₁,Q₂,rfl⟩ := append_of_mem hp
    obtain ⟨S,hS,hring,htmp,hrd,-⟩ := h.ring.resume hc hkind
    have hbooks := h.books.resume hkind hrole (h.starts rfl) hS
    have hnone : Role.none = (loop job 0 0).role := by simp
    rw [hnone] at hbooks
    refine ⟨_,h.of_set hring hbooks ⟨?_,fun h => (hmode h).elim,fun h => (hmode h).elim⟩ hready h.kept,
      fun h => (hmode h).elim⟩
    rw [htmp,hrd]
    exact h.reader.idx_replace (by simp [hkind]) S

section Branches
variable (hc : c.Sized) (hrole : (s.producer i).role = .none)
include hc hrole

lemma copied {ws : List Word} (hws : job.words? = some ws) (hlen : ws.length = job.wlen) (hallowed : job.Allowed c)
    (hn : 0 < ws.length) (hle : ws.length ≤ (freeSpace c s.toBuffer).2) :
    Good c ({ s with toBuffer := store c s.toBuffer ws }.set i .idle) (g.place s.tmpWr job)
      (Q++[⟨s.tmpWr,ws.length,.stored g.tickets ws,hn⟩]) := by
  have hhead : ∀ w ∈ ws.head?, w.valid = true ∧ w.busy = false ∧ c.getWlen w.data = ws.length := by
    intro w hw
    rw [hlen]
    exact hallowed.1 w (by simpa [hws] using hw)
  refine h.of_same (h.ring.store hc hn hle hhead) ?_ (h.reader.push rfl rfl (by simp) (by simp)) hrole.symm
    trivial h.kept
  refine h.books.place ?_ rfl hlen rfl ⟨update_self ..,by simp [Log.place,hws]⟩ (fun j _ => rfl) (by simp)
  intro q hq
  have := h.ring.apart hn hle hq
  omega

lemma allocated (hws : job.words? = none) (hn : 0 < job.wlen) (hle : job.wlen ≤ (freeSpace c s.toBuffer).2)
    (hb : b = tmpWrIdxInc c
      { s.toBuffer with buf := update s.buf s.tmpWr { s.buf s.tmpWr with valid := false, busy := false } }
        job.wlen) :
    Good c ({ s with toBuffer := b }.set i (.filling s.tmpWr job.wlen)) (g.place s.tmpWr job)
      (Q++[⟨s.tmpWr,job.wlen,.held i g.tickets,hn⟩]) := by
  subst hb
  refine h.of_set (h.ring.hold hc hn hle i g.tickets) ?_ (h.reader.push rfl rfl (by simp) (by simp)) trivial h.kept
  refine h.books.place ?_ rfl rfl rfl ?_ (fun j hj => update_of_ne ?_ _ _) (fun j hj => ?_)
  · intro q hq
    have := h.ring.apart hn hle hq
    omega
  · exact ⟨update_self ..,update_self ..,by simp [Log.place,hws]⟩
  · rintro rfl
    exact hj hrole
  · rcases eq_or_ne j i with rfl | hji
    · exact ⟨_,update_self ..,rfl⟩
    · simp [hji] at hj

lemma skipped (hready : (loop job 0 0).Ready c) (hfree : 0 < (freeSpace c s.toBuffer).2) :
    Good c ({ s with toBuffer := addSkipItem c s.toBuffer (freeSpace c s.toBuffer).2 }.set i (.loop job 0 0)) g
      (Q++[⟨s.tmpWr,(freeSpace c s.toBuffer).2,.skip,hfree⟩]) := by
  refine h.of_same (h.ring.addSkipItem hc hfree le_rfl) ?_ (h.reader.push rfl rfl (by simp) (by simp)) hrole.symm
    hready h.kept
  refine h.books.congr (fun p hp => ?_) (by simp)
  simp only [mem_append,mem_singleton]
  refine ⟨fun hmem => hmem.resolve_right ?_,.inl⟩
  rintro rfl
  exact hp rfl

end Branches

end

section Drops
variable {p : Seg ι} {job : Job} (h : Good c s g (p::Q)) (hc : c.Sized) (hrole : (s.producer i).role = .none)
  (hready : (loop job 0 0).Ready c)
include h hc hrole hready

lemma drop_skip (hkind : p.kind = .skip) (f : ℕ) : ∃ b, dropItemLocked c s.toBuffer f = (b,.again) ∧
    Good c ({ s with toBuffer := b }.set i (.loop job 0 0)) g Q := by
  obtain ⟨b,hdrop,hring,htmp,-⟩ := h.ring.drop_skip hc hkind f
  exact ⟨b,hdrop,h.of_same hring (h.books.pop_skip hkind) (h.reader.pop (by simp [hkind]) htmp) hrole.symm hready
    h.kept⟩

variable (hmode : c.overwrite = true) (hwrap : (freeSpace c s.toBuffer).1 = false) {k : ℕ} {ws : List Word}
include hmode hwrap

lemma drop_stored (hkind : p.kind = .stored k ws) :
    ∃ b shift val Q', dropItemLocked c s.toBuffer (freeSpace c s.toBuffer).2 = (b,.drop s.rd shift val) ∧
      Good c ({ s with toBuffer := b }.set i (.notify job shift val s.rd))
        { g with
          dropping := g.dropping++[(i,g.packetAt s.rd)]
          live := g.live.filter fun x => x.ticket ≠ g.packetAt s.rd } Q' := by
  obtain ⟨b,hn,hdrop,hring,htmp⟩ := h.ring.drop_stored hc hkind hmode hwrap i
  have hgap := h.ring.gap hwrap
  have hstart := h.ring.head.1
  have hpos := p.pos
  have hbooks := h.books.drop hkind hrole (v := s.tmpWr) hn (by omega) (by omega)
  rw [hstart] at hbooks
  exact ⟨b,_,_,_,hdrop,h.of_set hring hbooks ⟨.inl htmp,by simp [hmode],by simp [hmode]⟩ hready (by simp [hmode])⟩

lemma drop_claimed (hkind : p.kind = .claimed k ws) :
    ∃ b Q', dropItemLocked c s.toBuffer (freeSpace c s.toBuffer).2 = (b,.again) ∧
      Good c ({ s with toBuffer := b }.set i (.loop job 0 0)) g Q' := by
  obtain ⟨b,S,hdrop,hring,hS,htmp⟩ := h.ring.drop_claimed hc hkind hmode hwrap h.reader.idx_head
  refine ⟨b,_,hdrop,h.of_same hring ?_ ⟨.inl htmp,by simp [hmode],by simp [hmode]⟩ hrole.symm hready h.kept⟩
  refine h.books.congr (fun q hq => ?_) (by simp [hkind,tickets_skips hS])
  simp only [mem_append,mem_cons,not_mem_nil,or_false]
  tauto

end Drops

section
variable (h : Good c s g Q)
include h

variable {b : Buffer} {g' : Log ι} {Q' : List (Seg ι)} {s' : State ι} {job : Job} {shift val : ℕ}

/-- `mpsc_pbuf` finds no space, and `drop_item_locked` is asked for some. -/
lemma dropped (hc : c.Sized) (hrole : (s.producer i).role = .none) (hready : (loop job 0 0).Ready c)
    (hwrap : (freeSpace c s.toBuffer).1 = false) {r : Reply}
    (hpass : s.passed i job (dropItemLocked c s.toBuffer (freeSpace c s.toBuffer).2) = (s',r)) :
    ∃ Q', Good c s' (g.next s s' (.pass i) r) Q' := by
  have hfailed : dropItemLocked c s.toBuffer (freeSpace c s.toBuffer).2 = (s.toBuffer,.failed) →
      ∃ Q', Good c s' (g.next s s' (.pass i) r) Q' := by
    intro hdrop
    rw [hdrop] at hpass
    obtain ⟨rfl,rfl⟩ := mk.inj hpass
    exact ⟨Q,h.of_role hrole.symm trivial⟩
  obtain ⟨p,Q',rfl⟩ := h.ring.exists_head hwrap
  by_cases hcounted : p.kind.counted = false
  · exact hfailed (h.ring.drop_uncounted hcounted _)
  by_cases hskip : p.kind = .skip
  · obtain ⟨b,hdrop,hgood⟩ := h.drop_skip hc hrole hready hskip (freeSpace c s.toBuffer).2
    rw [hdrop] at hpass
    obtain ⟨rfl,rfl⟩ := mk.inj hpass
    exact ⟨Q',hgood⟩
  by_cases hmode : c.overwrite = false
  · exact hfailed (h.ring.drop_kept hskip hmode _)
  have hmode : c.overwrite = true := by simpa using hmode
  cases hkind : p.kind with
  | stored k ws =>
    obtain ⟨b,shift,val,Q',hdrop,hgood⟩ := h.drop_stored hc hrole hready hmode hwrap hkind
    rw [hdrop] at hpass
    obtain ⟨rfl,rfl⟩ := mk.inj hpass
    exact ⟨Q',hgood⟩
  | claimed k ws =>
    obtain ⟨b,Q',hdrop,hgood⟩ := h.drop_claimed hc hrole hready hmode hwrap hkind
    rw [hdrop] at hpass
    obtain ⟨rfl,rfl⟩ := mk.inj hpass
    exact ⟨Q',hgood⟩
  | _ => simp [hkind,Kind.counted] at hcounted hskip

lemma pass_loop (hc : c.Sized) (hi : s.producer i = .loop job 0 0) {r : Reply}
    (hpass : s.passed i job (job.pass c s.toBuffer 0 0) = (s',r)) :
    ∃ Q', Good c s' (g.next s s' (.pass i) r) Q' := by
  have hready : (loop job 0 0).Ready c := hi ▸ h.ready i
  have hrole : (s.producer i).role = .none := by simp [hi]
  rcases pass_cases h.ring with ⟨hle,⟨ws,hws,hlen,heq⟩ | ⟨hws,heq⟩⟩ | ⟨-,-,hfree,heq⟩ | ⟨hwrap,⟨-,heq⟩ | heq⟩
  · rw [heq] at hpass
    obtain ⟨rfl,rfl⟩ := mk.inj hpass
    simp only [Log.next,hi,hws,isSome_some,if_true]
    exact ⟨_,h.copied hc hrole hws hlen hready.2 (hlen ▸ hready.1) (hlen ▸ hle)⟩
  · rw [heq] at hpass
    obtain ⟨rfl,rfl⟩ := mk.inj hpass
    simp only [Log.next,hi,hws,isSome_none,Bool.false_eq_true,if_false]
    exact ⟨_,h.allocated hc hrole hws hready.1 hle rfl⟩
  · rw [heq] at hpass
    obtain ⟨rfl,rfl⟩ := mk.inj hpass
    exact ⟨_,h.skipped hc hrole hready hfree⟩
  · rw [heq] at hpass
    obtain ⟨rfl,rfl⟩ := mk.inj hpass
    exact ⟨Q,h.of_role hrole.symm hready.1⟩
  · rw [heq] at hpass
    exact h.dropped hc hrole hready hwrap hpass

lemma pass (hc : c.Sized) (hi : s.producer i = .loop job shift val) {r : Reply}
    (hpass : s.passed i job (job.pass c s.toBuffer shift val) = (s',r)) :
    ∃ Q', Good c s' (g.next s s' (.pass i) r) Q' := by
  obtain ⟨Q₁,h₁,-⟩ := h.resumed hc hi
  have hnext : ∀ t : State ι, t.producer i = .loop job 0 0 → g.next t s' (.pass i) r = g.next s s' (.pass i) r :=
    fun t ht => by cases r <;> simp [Log.next,ht,hi]
  rw [job.pass_resume,← passed_set s i job (.loop job 0 0) (resume c s.toBuffer shift val)] at hpass
  have hi' :
    ({ s with toBuffer := resume c s.toBuffer shift val }.set i (.loop job 0 0)).producer i = .loop job 0 0 :=
    update_self ..
  rw [← hnext _ hi']
  exact h₁.pass_loop hc hi' hpass

omit [DecidableEq ι] in
lemma of_consumer {k : Consumer} (hring : Ring c b Q')
    (hbooks : Books (fun j => (s.producer j).role) k.item? g' Q') (hreader : Reader c b Q')
    (hkept : c.overwrite = false → g'.reported = [] ∧ g'.dropping = []) :
    Good c { s with toBuffer := b, consumer := k } g' Q' := ⟨hring,hbooks,hreader,h.ready,hkept⟩

variable {item wlen : ℕ}

omit [DecidableEq ι] in
lemma held (hi : s.producer i = .filling item wlen) :
    ∃ p ∈ Q, p.start = item ∧ p.len = wlen ∧ ∃ k, p.kind = .held i k := h.books.filling i item wlen (by simp [hi])

omit [DecidableEq ι] in
lemma fill {j : ℕ} (hi : s.producer i = .filling item wlen) (hj : j < wlen) {w : Word}
    (hw : j = 0 → w.valid = false ∧ w.busy = false) : Good c { s with buf := update s.buf (item+j) w } g Q := by
  obtain ⟨p,hp,rfl,rfl,k,hkind⟩ := h.held hi
  have hring := h.ring.fill hp (by simp [hkind,Kind.counted]) (x := p.start+j) (by omega) (by omega)
    fun hx => hw (by omega)
  exact ⟨hring,h.books,⟨h.reader.idx,h.reader.first,h.reader.whole⟩,h.ready,h.kept⟩

/-- `mpsc_pbuf_commit`. -/
lemma commit (hc : c.Sized) (hi : s.producer i = .filling item wlen) (hlen : c.getWlen (s.buf item).data = wlen)
    (hs' : s' = { s with toBuffer := commit c s.toBuffer item }.set i .idle) (r : Reply) :
    ∃ Q', Good c s' (g.next s s' (.commit i) r) Q' ∧ Within Q' Q := by
  obtain ⟨p,hp,rfl,rfl,k,hkind⟩ := h.held hi
  obtain ⟨Q₁,Q₂,rfl⟩ := append_of_mem hp
  subst hs'
  have hring := h.ring.commit hc hkind hlen
  have hbooks := h.books.commit hkind (h.starts rfl) (words (commit c s.toBuffer p.start).buf p.start p.len)
  refine ⟨Q₁++⟨p.start,p.len,.stored k (words (commit c s.toBuffer p.start).buf p.start p.len),p.pos⟩::Q₂,?_,
    .replace (by simp [hkind,Kind.isPacket]) rfl Q₁ Q₂⟩
  simp only [Log.next,hi]
  refine h.of_set hring hbooks ⟨?_,fun hmode q hq l vs hl => ?_,fun hmode q hq j hj => ?_⟩ trivial h.kept
  · rw [append_cons]
    exact h.reader.idx_replace (by simp [hkind]) [_]
  · have hmem : q ∈ Q₁++p::Q₂ := by
      simp only [mem_append,mem_cons] at hq ⊢
      rcases hq with hq | rfl | hq
      · exact .inl hq
      · cases hl
      · exact .inr (.inr hq)
    have hfirst := h.reader.first hmode q hmem l vs hl
    cases Q₁ with
    | nil =>
      obtain rfl := some.inj hfirst
      simp [hkind] at hl
    | cons t Q₁ => exact hfirst
  · simp only [mem_append,mem_cons] at hq
    rcases hq with hq | rfl | hq
    · exact h.reader.whole hmode q (by simp [hq]) j hj
    · cases hj
    · exact h.reader.whole hmode q (by simp [hq]) j hj

/-- `notify_drop` is called. -/
lemma report (hi : s.producer i = .notify job shift val item)
    {r : Reply} (hstep : step c prio s (.notify i) = some (s',r)) : Good c s' (g.next s s' (.notify i) r) Q := by
  have hrole : (s.producer i).role = .window val shift (some item) := by simp [hi]
  obtain ⟨hval,hitem,-⟩ := h.books.notify i _ _ _ hrole
  obtain ⟨p,hp,rfl,rfl,hkind⟩ := h.books.window i _ _ _ hrole
  have hbooks := h.books.report hrole
  have hready : (loop job p.len p.start).Ready c := by simpa [hi,Producer.Ready] using h.ready i
  have hloop : (loop job p.len p.start).role = .window p.start p.len none := by simp [p.pos.ne']
  have hkept : c.overwrite = false → False := fun hmode => h.reader.whole hmode p hp i hkind
  have hlies := (h.ring.mem hp).1
  rw [hkind] at hlies
  have hclear := h.ring.fill hp (by simp [hkind,Kind.counted]) (w := { s.buf item with valid := false }) hval hitem
    fun hx => ⟨rfl,by rw [hx]; exact hlies.2⟩
  -- the two ways to go on differ in one bit of the memory
  have hset : ∀ m, Ring c { s.toBuffer with buf := m } Q →
      Good c ({ s with buf := m }.set i (.loop job p.len p.start))
        { g with dropping := g.dropping.erase (i,g.packetAt item), reported := g.reported++[g.packetAt item] }
          Q := by
    intro m hring
    refine h.of_set hring ?_ ⟨h.reader.idx,h.reader.first,h.reader.whole⟩ hready fun hmode => (hkept hmode).elim
    rw [hloop]
    exact hbooks
  simp only [step,hi] at hstep
  simp only [Log.next,hi]
  split at hstep
  · cases hstep
    exact hset _ hclear
  · cases hstep
    exact hset _ h.ring

end

variable {s' : State ι}

lemma step_claim {r : Reply} (hstep : step c prio s .claim = some (s',r)) :
    s.consumer.item? = none ∧ s.claimed (claim c s.toBuffer) = (s',r) := by
  simp only [step] at hstep
  cases hcons : s.consumer with
  | idle =>
    rw [hcons] at hstep
    exact ⟨rfl,some.inj hstep⟩
  | claiming =>
    rw [hcons] at hstep
    exact ⟨rfl,some.inj hstep⟩
  | holding item => simp [hcons] at hstep
  | giving => simp [hcons] at hstep

omit [DecidableEq ι] in
lemma tmpRd_eq (h : Good c s g Q) (hitem : s.consumer.item? = none) : s.tmpRd = s.rd := by
  rcases h.reader.idx with hidx | ⟨p,Q',k,ws,rfl,hkind,-⟩
  · exact hidx
  · have htold := h.books.told p (by simp)
    simp [Told,hkind,hitem] at htold

omit [DecidableEq ι] in
/-- A pass of `mpsc_pbuf_claim`. It finds nothing only if the first segment belongs to a producer, or if
there is none. -/
lemma claim (h : Good c s g Q) (hc : c.Sized) (hitem : s.consumer.item? = none) :
    (claim c s.toBuffer = (s.toBuffer,.null) ∧ ∀ p ∈ Q.head?, p.kind.counted = false) ∨
      (∃ b Q', claim c s.toBuffer = (b,.again) ∧ Within Q' Q ∧
        ∀ k : Consumer, k.item? = none → Good c { s with toBuffer := b, consumer := k } g Q') ∨
      ∃ b item Q', claim c s.toBuffer = (b,.claimed item) ∧ Within Q' Q ∧
        Good c { s with toBuffer := b, consumer := .holding item }
          { g with claimed := g.claimed++[g.packetAt item] } Q' := by
  have htmp := h.tmpRd_eq hitem
  have hbooks := h.books
  rw [hitem] at hbooks
  by_cases hhead : ∀ p ∈ Q.head?, p.kind.counted = false
  · exact .inl ⟨h.ring.claim_null htmp hhead,hhead⟩
  · cases Q with
    | nil => simp at hhead
    | cons p Q =>
      cases hkind : p.kind with
      | held i k => simp [hkind,Kind.counted] at hhead
      | window i => simp [hkind,Kind.counted] at hhead
      | claimed k ws =>
        have htold := hbooks.told p (by simp)
        simp [Told,hkind] at htold
      | skip =>
        obtain ⟨b,heq,hring,htmp',-⟩ := h.ring.claim_skip hc htmp hkind
        refine .inr (.inl ⟨b,Q,heq,.of_subset (subset_cons_self p Q),fun k hk => ?_⟩)
        refine h.of_consumer hring ?_ (h.reader.pop (by simp [hkind]) htmp') h.kept
        rw [hk]
        exact hbooks.pop_skip hkind
      | stored k ws =>
        obtain ⟨b,heq,hring,htmp',-⟩ := h.ring.claim_stored hc htmp hkind
        have hstart := h.ring.head.1
        refine .inr (.inr ⟨b,s.rd,⟨p.start,p.len,.claimed k ws,p.pos⟩::Q,heq,
          .replace (by simp [hkind,Kind.isPacket]) rfl [] Q,?_⟩)
        have hclaim := hbooks.claim hkind
        refine h.of_consumer (hstart ▸ hring) (hstart ▸ hclaim) ⟨.inr ⟨_,Q,k,ws,rfl,rfl,htmp'⟩,?_,?_⟩ h.kept
        · intro hmode q hq l vs hl
          rcases mem_cons.mp hq with rfl | hq
          · rfl
          · have htold := hbooks.told q (mem_cons_of_mem _ hq)
            simp [Told,hl] at htold
        · intro hmode q hq j hj
          rcases mem_cons.mp hq with rfl | hq
          · cases hj
          · exact h.reader.whole hmode q (mem_cons_of_mem _ hq) j hj

omit [DecidableEq ι] in
/-- Without the overwrite mode the consumer holds the first packet. -/
lemma item_eq_rd (h : Good c s g Q) (hmode : c.overwrite = false) {item : ℕ} (hitem : s.consumer = .holding item) :
    item = s.rd := by
  obtain ⟨p,hp,rfl,k,ws,hkind⟩ := h.books.holding item (by rw [hitem]; rfl)
  have hring := h.ring
  cases Q with
  | nil => simp at hp
  | cons q Q =>
    obtain rfl := some.inj (h.reader.first hmode p hp k ws hkind)
    exact hring.head.1

omit [DecidableEq ι] in
/-- `mpsc_pbuf_free` of the packet at the read index. -/
lemma free_first (h : Good c s g Q) (hc : c.Sized) {item : ℕ} (hitem : s.consumer = .holding item)
    (hrd : item = s.rd) :
    ∃ p Q', Q = p::Q' ∧ p.start = item ∧ (∃ k ws, p.kind = .claimed k ws) ∧
      Good c { s with toBuffer := free c s.toBuffer item, consumer := .giving }
        { g with live := g.live.filter fun x => x.ticket ≠ g.packetAt item } Q' := by
  have hbooks := h.books
  simp only [hitem,Consumer.item?] at hbooks
  obtain ⟨p,hp,rfl,k,ws,hkind⟩ := hbooks.holding item rfl
  obtain ⟨q,Q',rfl⟩ : ∃ q Q', Q = q::Q' := exists_cons_of_ne_nil (ne_nil_of_mem hp)
  have hcons : q::Q' = []++q::Q' := rfl
  have hne := h.starts hcons
  have hstart := h.ring.head.1
  obtain rfl : p = q := by
    rcases mem_cons.mp hp with hpq | hp
    · exact hpq
    · exact absurd (hrd.trans hstart.symm) (hne p (.inr hp))
  obtain ⟨hring,htmp⟩ := h.ring.free_head hc hkind h.reader.idx_head
  have hfree := hbooks.free hkind hne (S := []) (by simp)
  rw [← hrd] at hring htmp
  refine ⟨p,Q',rfl,rfl,⟨k,ws,hkind⟩,h.of_consumer hring hfree ⟨.inl htmp,fun hmode t ht l vs hl => ?_,
    fun hmode t ht => ?_⟩
    h.kept⟩
  · obtain rfl := some.inj (h.reader.first hmode t (mem_cons_of_mem _ ht) l vs hl)
    exact absurd rfl (hne _ (.inr ht))
  · exact h.reader.whole hmode t (mem_cons_of_mem _ ht)

omit [DecidableEq ι] in
/-- In the overwrite mode the packet may have been jumped over. -/
lemma free_later (h : Good c s g Q) (hc : c.Sized) {item : ℕ} (hitem : s.consumer = .holding item)
    (hrd : item ≠ s.rd) :
    ∃ Q', Good c { s with toBuffer := free c s.toBuffer item, consumer := .giving }
      { g with live := g.live.filter fun x => x.ticket ≠ g.packetAt item } Q' := by
  have hmode : c.overwrite = true := by
    by_contra hcon
    exact hrd (h.item_eq_rd (by simpa using hcon) hitem)
  have hbooks := h.books
  simp only [hitem,Consumer.item?] at hbooks
  obtain ⟨p,hp,rfl,k,ws,hkind⟩ := hbooks.holding item rfl
  obtain ⟨Q₁,Q₂,rfl⟩ := append_of_mem hp
  obtain ⟨hring,htmp,hrd'⟩ := h.ring.free_middle hc hkind hmode hrd
  have hfree := hbooks.free hkind (h.starts rfl) (S := [⟨p.start,p.len,.skip,p.pos⟩]) (by simp)
  rw [append_assoc] at hfree
  refine ⟨_,h.of_consumer hring hfree ⟨.inl ?_,by simp [hmode],by simp [hmode]⟩ h.kept⟩
  rw [htmp,hrd']
  rcases h.reader.idx with hidx | ⟨t,Q',l,vs,ht,hl,-⟩
  · exact hidx
  · -- then the claimed packet would be the first one
    have htold := hbooks.told t (by simp [ht])
    simp only [Told,hl,some.injEq] at htold
    have hring := h.ring
    rw [ht] at hring
    exact absurd (htold.1.trans hring.head.1) hrd

lemma semGive (h : Good c s g Q) : Good c s.semGive g Q := by
  unfold State.semGive
  split
  · exact { h with }
  · have h' : ∀ q, Good c { s with waiters := q } g Q := fun q => { h with }
    split
    · rename_i j q hq p wlen hj
      have hready := h.ready j
      rw [hj] at hready
      exact (h' q).of_role (by simp [hj]) ⟨hready,by simp [Job.Allowed,words?]⟩
    · exact h' _

section Quiet
variable (h : Good c s g Q) {r : Reply}
include h

lemma start {job : Job} (hn : 0 < job.wlen) (hstep : step c prio s (.start i job) = some (s',r)) :
    Good c s' g Q := by
  simp only [step] at hstep
  split at hstep
  · rename_i hi
    split_ifs at hstep with hallowed
    have hset : Good c (s.set i (.loop job 0 0)) g Q := h.of_role (by simp [hi]) ⟨hn,hallowed⟩
    split at hstep
    · split_ifs at hstep
      · cases hstep
        exact h
      · cases hstep
        exact hset
    · cases hstep
      exact hset
  · cases hstep

lemma take (hstep : step c prio s (.take i) = some (s',r)) : Good c s' g Q := by
  simp only [step] at hstep
  split at hstep
  · rename_i wlen hi
    have hready := h.ready i
    rw [hi] at hready
    split_ifs at hstep
    · cases hstep
      have h' : Good c { s with sem := s.sem-1 } g Q := { h with }
      exact h'.of_role (by simp [hi]) ⟨hready,by simp [Job.Allowed,words?]⟩
    · cases hstep
      have h' : ∀ q, Good c { s with waiters := q } g Q := fun q => { h with }
      exact (h' _).of_role (by simp [hi]) hready
  · cases hstep

lemma expire (hstep : step c prio s (.expire i) = some (s',r)) : Good c s' g Q := by
  simp only [step] at hstep
  split at hstep
  · rename_i wlen hi
    cases hstep
    have h' : ∀ q, Good c { s with waiters := q } g Q := fun q => { h with }
    exact (h' _).of_role (by simp [hi]) trivial
  · cases hstep

lemma filled {j : ℕ} {w : Word} (hstep : step c prio s (.fill i j w) = some (s',r)) : Good c s' g Q := by
  simp only [step] at hstep
  split at hstep
  · rename_i item wlen hi
    split_ifs at hstep with hw
    cases hstep
    exact h.fill hi hw.1 hw.2
  · cases hstep

lemma give (hstep : step c prio s .give = some (s',r)) : Good c s' g Q := by
  simp only [step] at hstep
  split at hstep
  · rename_i hcons
    cases hstep
    have hgive := h.semGive
    refine hgive.of_consumer hgive.ring ?_ hgive.reader hgive.kept
    have hsame : s.semGive.consumer = .giving := by
      rw [← hcons]
      unfold State.semGive
      split
      · rfl
      · split <;> rfl
    have hbooks := hgive.books
    rw [hsame] at hbooks
    exact hbooks
  · cases hstep

lemma committed (hc : c.Sized) (hstep : step c prio s (.commit i) = some (s',r)) :
    ∃ Q', Good c s' (g.next s s' (.commit i) r) Q' ∧ Within Q' Q := by
  simp only [step] at hstep
  split at hstep
  · rename_i item wlen hi
    split_ifs at hstep with hlen
    cases hstep
    exact h.commit hc hi hlen rfl _
  · cases hstep

lemma claims (hc : c.Sized) (hstep : step c prio s .claim = some (s',r)) :
    ∃ Q', Good c s' (g.next s s' .claim r) Q' ∧ Within Q' Q := by
  obtain ⟨hitem,hclaimed⟩ := step_claim hstep
  rcases h.claim hc hitem with ⟨heq,-⟩ | ⟨b,Q',heq,hwithin,hgood⟩ | ⟨b,item,Q',heq,hwithin,hgood⟩
  · rw [heq] at hclaimed
    obtain ⟨rfl,rfl⟩ := mk.inj hclaimed
    refine ⟨Q,h.of_consumer h.ring ?_ h.reader h.kept,.of_subset (Subset.refl Q)⟩
    rw [← show s.consumer.item? = Consumer.idle.item? from hitem]
    exact h.books
  · rw [heq] at hclaimed
    obtain ⟨rfl,rfl⟩ := mk.inj hclaimed
    exact ⟨Q',hgood .claiming rfl,hwithin⟩
  · rw [heq] at hclaimed
    obtain ⟨rfl,rfl⟩ := mk.inj hclaimed
    exact ⟨Q',hgood,hwithin⟩

end Quiet

/-- Every step keeps the invariant. -/
theorem step (h : Good c s g Q) (hc : c.Sized) {a : Action ι} (hcare : Careful a) {r : Reply}
    (hstep : step c prio s a = some (s',r)) : ∃ Q', Good c s' (g.next s s' a r) Q' := by
  cases a with
  | start i job => exact ⟨Q,h.start hcare hstep⟩
  | pass i =>
    simp only [MpscPbuf.step] at hstep
    split at hstep
    · rename_i job shift val hi
      exact h.pass hc hi (some.inj hstep)
    · cases hstep
  | notify i =>
    cases hi : s.producer i with
    | notify job shift val item => exact ⟨Q,h.report hi hstep⟩
    | _ => simp [MpscPbuf.step,hi] at hstep
  | take i => exact ⟨Q,h.take hstep⟩
  | expire i => exact ⟨Q,h.expire hstep⟩
  | fill i j w => exact ⟨Q,h.filled hstep⟩
  | commit i => exact (h.committed hc hstep).imp fun _ => And.left
  | claim => exact (h.claims hc hstep).imp fun _ => And.left
  | free =>
    simp only [MpscPbuf.step] at hstep
    split at hstep
    · rename_i item hitem
      cases hstep
      simp only [Log.next,hitem]
      by_cases hrd : item = s.rd
      · obtain ⟨-,Q',-,-,-,hgood⟩ := h.free_first hc hitem hrd
        exact ⟨Q',hgood⟩
      · exact h.free_later hc hitem hrd
    · cases hstep
  | give => exact ⟨Q,h.give hstep⟩

end Good
end Steps
end ArmFirmware.Zephyr.MpscPbuf
