import ArmFirmware.Zephyr.MpscPbuf.Segments

/-! Which packet each segment is, whose it is, and what has become of all others. -/
namespace ArmFirmware.Zephyr.MpscPbuf
open Library List Function Option Kind Prod
variable {ι : Type*}

/-- What a producer has in the buffer. -/
inductive Role
  | none
  | filling (item wlen : ℕ)
  /-- The place of a dropped packet, with the packet as long as it has not been reported. -/
  | window (val shift : ℕ) (item : Option ℕ)

def Producer.role : Producer → Role
  | .loop _ shift val => if shift = 0 then .none else .window val shift none
  | .notify _ shift val item => .window val shift (some item)
  | .filling item wlen => .filling item wlen
  | _ => .none

def Consumer.item? : Consumer → Option ℕ
  | .holding item => some item
  | _ => none

def Kind.ticket? : Kind ι → Option ℕ
  | .held _ k | .stored k _ => some k
  | .claimed .. | .skip | .window _ => none

def tickets (Q : List (Seg ι)) : List ℕ := Q.filterMap fun p => p.kind.ticket?

def Kind.isPacket : Kind ι → Bool
  | .held .. | .stored .. | .claimed .. => true
  | .skip | .window _ => false

/-- The parties and the log say of a segment what its kind says. -/
def Told (role : ι → Role) (item? : Option ℕ) (g : Log ι) (p : Seg ι) : Prop :=
  match p.kind with
  | .held i k => role i = .filling p.start p.len ∧ g.packetAt p.start = k ∧ g.committed k = none
  | .stored k ws => g.packetAt p.start = k ∧ g.committed k = some ws
  | .claimed k ws => item? = some p.start ∧ g.packetAt p.start = k ∧ g.committed k = some ws ∧
    g.claimed.getLast? = some k
  | .skip => True
  | .window i => ∃ o, role i = .window p.start p.len o

/-- The packets by number: every one is in the buffer, or has been claimed, or has been or will be
reported. -/
structure Account (g : Log ι) (Q : List (Seg ι)) : Prop where
  sorted : (g.claimed++tickets Q).Pairwise (· < ·)
  perm : (g.claimed++(g.reported++(g.dropping.map snd++tickets Q))).Perm (List.range g.tickets)
  done : ∀ k, k ∈ g.claimed ∨ k ∈ g.reported ∨ k ∈ g.dropping.map snd → (g.committed k).isSome
  fresh : ∀ k, g.tickets ≤ k → g.committed k = none

/-- The segments, the parties and the log agree. -/
structure Books (role : ι → Role) (item? : Option ℕ) (g : Log ι) (Q : List (Seg ι)) : Prop where
  told : ∀ p ∈ Q, Told role item? g p
  filling : ∀ i a n, role i = .filling a n → ∃ p ∈ Q, p.start = a ∧ p.len = n ∧ ∃ k, p.kind = .held i k
  window : ∀ i v n o, role i = .window v n o → ∃ p ∈ Q, p.start = v ∧ p.len = n ∧ p.kind = .window i
  holding : ∀ a, item? = some a → ∃ p ∈ Q, p.start = a ∧ ∃ k ws, p.kind = .claimed k ws
  notify : ∀ i v n item, role i = .window v n (some item) → v ≤ item ∧ item < v+n ∧ (i,g.packetAt item) ∈ g.dropping
  dropping : ∀ i k, (i,k) ∈ g.dropping → ∃ v n item, role i = .window v n (some item) ∧ g.packetAt item = k
  live : ∀ x ∈ g.live, ∃ p ∈ Q, p.start = x.start ∧ p.len = x.len ∧ p.kind.isPacket = true ∧
    g.packetAt p.start = x.ticket
  account : Account g Q

@[simp] lemma tickets_nil : tickets ([] : List (Seg ι)) = [] := rfl

@[simp] lemma tickets_append (Q₁ Q₂ : List (Seg ι)) : tickets (Q₁++Q₂) = tickets Q₁++tickets Q₂ := filterMap_append

lemma tickets_cons (p : Seg ι) (Q : List (Seg ι)) : tickets (p::Q) = p.kind.ticket?.toList++tickets Q := by
  unfold tickets
  cases h : p.kind.ticket? <;> simp [h]

attribute [local simp] tickets_cons

lemma tickets_skips {S : List (Seg ι)} (hS : ∀ p ∈ S, p.kind = .skip) : tickets S = [] := by
  simp only [tickets,filterMap_eq_nil_iff]
  intro p hp
  rw [hS p hp]
  rfl

namespace Account
variable {g : Log ι} {Q Q₁ Q₂ : List (Seg ι)} {p : Seg ι}

lemma lt (h : Account g Q) {k : ℕ}
    (hk : k ∈ g.claimed ∨ k ∈ g.reported ∨ k ∈ g.dropping.map snd ∨ k ∈ tickets Q) : k < g.tickets := by
  have : k ∈ g.claimed++(g.reported++(g.dropping.map snd++tickets Q)) := by simpa using hk
  exact mem_range.mp (h.perm.mem_iff.mp this)

lemma nodup (h : Account g Q) : (g.claimed++(g.reported++(g.dropping.map snd++tickets Q))).Nodup :=
  h.perm.nodup_iff.mpr nodup_range

lemma ne (h : Account g (Q₁++p::Q₂)) {k : ℕ} (hp : p.kind.ticket? = some k) {j : ℕ}
    (hj : j ∈ g.claimed ∨ j ∈ g.reported ∨ j ∈ g.dropping.map snd ∨ j ∈ tickets Q₁ ∨ j ∈ tickets Q₂) : j ≠ k := by
  rintro rfl
  have hnodup := h.nodup
  rw [tickets_append,tickets_cons,hp] at hnodup
  have hcount := nodup_iff_count_le_one.mp hnodup j
  simp only [count_append,toList_some,count_singleton_self] at hcount
  have hpos : 0 < g.claimed.count j ∨ 0 < g.reported.count j ∨ 0 < (g.dropping.map snd).count j ∨
      0 < (tickets Q₁).count j ∨ 0 < (tickets Q₂).count j := by
    simpa only [count_pos_iff] using hj
  omega

lemma congr (h : Account g Q) {Q' : List (Seg ι)} (htickets : tickets Q' = tickets Q) : Account g Q' := by
  obtain ⟨hsorted,hperm,hdone,hfresh⟩ := h
  exact ⟨by rwa [htickets],by rwa [htickets],hdone,hfresh⟩

lemma place (h : Account g Q) {job : Job} {a : ℕ} (hp : p.kind.ticket? = some g.tickets) :
    Account (g.place a job) (Q++[p]) := by
  have hold : ∀ k, k < g.tickets → (g.place a job).committed k = g.committed k := fun k hk =>
    update_of_ne hk.ne _ _
  have htickets : tickets (Q++[p]) = tickets Q++[g.tickets] := by simp [hp]
  refine ⟨?_,?_,fun k hk => ?_,fun k hk => ?_⟩
  · rw [htickets,← append_assoc]
    refine pairwise_append.mpr ⟨h.sorted,pairwise_singleton ..,fun j hj k hk => ?_⟩
    obtain rfl := mem_singleton.mp hk
    refine h.lt ?_
    rcases mem_append.mp hj with hj | hj
    · exact .inl hj
    · exact .inr (.inr (.inr hj))
  · rw [htickets]
    simpa [Log.place,range_succ] using h.perm.append_right [g.tickets]
  · rw [hold k (h.lt (by tauto))]
    exact h.done k hk
  · have hk : g.tickets+1 ≤ k := hk
    rw [show (g.place a job).committed k = g.committed k from update_of_ne (by omega) _ _]
    exact h.fresh k (by omega)

end Account

lemma Told.congr {role role' : ι → Role} {item? item?' : Option ℕ} {g g' : Log ι} {p : Seg ι}
    (h : Told role item? g p) (hheld : ∀ i, role i = .filling p.start p.len → role' i = role i)
    (hwindow : ∀ i o, p.kind = .window i → role i = .window p.start p.len o →
      ∃ o', role' i = .window p.start p.len o')
    (hat : g'.packetAt p.start = g.packetAt p.start)
    (hold : ∀ k, p.kind.ticket? = some k ∨ k ∈ g.claimed → g'.committed k = g.committed k)
    (hclaimed : ∀ k ws, p.kind = .claimed k ws → item? = some p.start → item?' = item? ∧ g'.claimed = g.claimed) :
    Told role' item?' g' p := by
  unfold Told at h ⊢
  cases hkind : p.kind with
  | held i k =>
    simp only [hkind] at h
    exact ⟨(hheld i h.1).trans h.1,hat.trans h.2.1,(hold k (.inl (by rw [hkind]; rfl))).trans h.2.2⟩
  | stored k ws =>
    simp only [hkind] at h
    exact ⟨hat.trans h.1,(hold k (.inl (by rw [hkind]; rfl))).trans h.2⟩
  | claimed k ws =>
    simp only [hkind] at h
    obtain ⟨hitem,hlast⟩ := hclaimed k ws hkind h.1
    exact ⟨hitem.trans h.1,hat.trans h.2.1,(hold k (.inr (mem_of_getLast? h.2.2.2))).trans h.2.2.1,
      by rw [hlast]; exact h.2.2.2⟩
  | skip => trivial
  | window i =>
    simp only [hkind] at h
    exact h.elim fun o ho => hwindow i o hkind ho

namespace Books
variable {role : ι → Role} {item? : Option ℕ} {g : Log ι} {Q Q' Q₁ Q₂ : List (Seg ι)} {p : Seg ι}

lemma kept (h : Books role item? g Q) (P : Kind ι → Prop) (hmem : ∀ q ∈ Q, P q.kind → q ∈ Q') :
    (∀ {i a n}, role i = .filling a n → (∀ k, P (.held i k)) →
        ∃ q ∈ Q', q.start = a ∧ q.len = n ∧ ∃ k, q.kind = .held i k) ∧
      (∀ {i v n o}, role i = .window v n o → P (.window i) → ∃ q ∈ Q', q.start = v ∧ q.len = n ∧
        q.kind = .window i) ∧
      ∀ {a}, item? = some a → (∀ k ws, P (.claimed k ws)) → ∃ q ∈ Q', q.start = a ∧
        ∃ k ws, q.kind = .claimed k ws := by
  refine ⟨fun hi hP => ?_,fun hi hP => ?_,fun ha hP => ?_⟩
  · obtain ⟨q,hq,h₁,h₂,k,hk⟩ := h.filling _ _ _ hi
    exact ⟨q,hmem q hq (hk ▸ hP k),h₁,h₂,k,hk⟩
  · obtain ⟨q,hq,h₁,h₂,hk⟩ := h.window _ _ _ _ hi
    exact ⟨q,hmem q hq (hk ▸ hP),h₁,h₂,hk⟩
  · obtain ⟨q,hq,h₁,k,ws,hk⟩ := h.holding _ ha
    exact ⟨q,hmem q hq (hk ▸ hP k ws),h₁,k,ws,hk⟩

/-- Skip items come and go, and a claimed packet may change its place in the order. -/
lemma congr (h : Books role item? g Q) (hmem : ∀ p : Seg ι, p.kind ≠ .skip → (p ∈ Q' ↔ p ∈ Q))
    (htickets : tickets Q' = tickets Q) : Books role item? g Q' := by
  have hto : ∀ p ∈ Q, p.kind ≠ .skip → p ∈ Q' := fun p hp hk => (hmem p hk).mpr hp
  obtain ⟨hfill,hwindow,hhold⟩ := h.kept (· ≠ .skip) hto
  refine ⟨?_,fun _ _ _ hi => hfill hi (by simp),fun _ _ _ _ hi => hwindow hi (by simp),
    fun _ ha => hhold ha (by simp),
    h.notify,h.dropping,?_,h.account.congr htickets⟩
  · intro p hp
    by_cases hskip : p.kind = .skip
    · simp [Told,hskip]
    · exact h.told p ((hmem p hskip).mp hp)
  · intro x hx
    obtain ⟨p,hp,h₁,h₂,hk,h₃⟩ := h.live x hx
    refine ⟨p,hto p hp fun hskip => ?_,h₁,h₂,hk,h₃⟩
    simp [hskip,isPacket] at hk

lemma pop_skip (h : Books role item? g (p::Q)) (hkind : p.kind = .skip) : Books role item? g Q := by
  refine h.congr (fun q hq => ⟨mem_cons_of_mem _,fun hmem => (mem_cons.mp hmem).resolve_left ?_⟩)
    (by simp [hkind,ticket?])
  rintro rfl
  exact hq hkind

/-- A packet gets a place behind the others. -/
lemma place (h : Books role item? g Q) {job : Job} {a : ℕ} {role' : ι → Role}
    (hfree : ∀ q ∈ Q, q.start+q.len ≤ a ∨ a < q.start)
    (hstart : p.start = a) (hlen : p.len = job.wlen) (hticket : p.kind.ticket? = some g.tickets)
    (hp : Told role' item? (g.place a job) p) (hrole : ∀ j, role j ≠ .none → role' j = role j)
    (hnew : ∀ j, role' j ≠ role j → ∃ k, role' j = .filling p.start p.len ∧ p.kind = .held j k) :
    Books role' item? (g.place a job) (Q++[p]) := by
  have hne : ∀ q ∈ Q, q.start ≠ a := fun q hq heq => by
    have := hfree q hq
    have := q.pos
    omega
  have hat : ∀ x, x ≠ a → (g.place a job).packetAt x = g.packetAt x := fun x hx => update_of_ne hx _ _
  -- a packet that has been dropped lies in its producer's window
  have hitem : ∀ i v n item, role i = .window v n (some item) → item ≠ a := by
    rintro i v n item hi rfl
    obtain ⟨q,hq,rfl,rfl,-⟩ := h.window i v n _ hi
    have := h.notify i _ _ _ hi
    have := hfree q hq
    omega
  have hkeep : ∀ j v n o, role' j = .window v n o → role j = .window v n o := fun j v n o hj => by
    by_contra hcon
    obtain ⟨k,hfill,-⟩ := hnew j (fun heq => hcon (heq ▸ hj))
    rw [hfill] at hj
    cases hj
  obtain ⟨hfilling,hwindow,hhold⟩ := h.kept (fun _ => True) fun q hq _ => mem_append_left [p] hq
  refine ⟨?_,?_,fun j v n o hj => hwindow (hkeep j v n o hj) trivial,fun _ ha => hhold ha fun _ _ => trivial,?_,?_,
    ?_,
    h.account.place hticket⟩
  · intro q hq
    rcases mem_append.mp hq with hq | hq
    · refine (h.told q hq).congr (fun i hi => hrole i (by simp [hi]))
        (fun i o _ hi => ⟨o,(hrole i (by simp [hi])).trans hi⟩)
        (hat _ (hne q hq)) (fun k hk => update_of_ne (h.account.lt ?_).ne _ _) fun _ _ _ _ => ⟨rfl,rfl⟩
      exact hk.elim (fun hk => .inr (.inr (.inr (mem_filterMap.mpr ⟨q,hq,hk⟩)))) .inl
    · obtain rfl := mem_singleton.mp hq
      exact hp
  · intro i b n hi
    by_cases heq : role' i = role i
    · exact hfilling (heq ▸ hi) fun _ => trivial
    · obtain ⟨k,hfill,hkind⟩ := hnew i heq
      rw [hfill] at hi
      obtain ⟨rfl,rfl⟩ := Role.filling.inj hi
      exact ⟨p,by simp,rfl,rfl,k,hkind⟩
  · intro i v n item hi
    have hi := hkeep i v n _ hi
    rw [hat item (hitem i v n item hi)]
    exact h.notify i v n item hi
  · intro i k hk
    obtain ⟨v,n,item,hi,hitem'⟩ := h.dropping i k hk
    exact ⟨v,n,item,(hrole i (by simp [hi])).trans hi,(hat item (hitem i v n item hi)).trans hitem'⟩
  · intro x hx
    rcases mem_append.mp hx with hx | hx
    · obtain ⟨q,hq,h₁,h₂,hk,h₃⟩ := h.live x hx
      exact ⟨q,mem_append_left _ hq,h₁,h₂,hk,(hat _ (hne q hq)).trans h₃⟩
    · obtain rfl := mem_singleton.mp hx
      refine ⟨p,by simp,hstart,hlen,?_,?_⟩
      · revert hticket
        cases p.kind <;> simp [ticket?,isPacket]
      · rw [hstart]
        exact update_self ..

section Update
variable [DecidableEq ι] {i : ι}

lemma of_update_none {j : ι} {r : Role} (hj : update role i .none j = r) (hr : r ≠ .none) : j ≠ i ∧ role j = r := by
  have hji : j ≠ i := by
    rintro rfl
    rw [update_self] at hj
    exact hr hj.symm
  rw [update_of_ne hji] at hj
  exact ⟨hji,hj⟩

/-- A packet is committed. -/
lemma commit (h : Books role item? g (Q₁++p::Q₂)) {k : ℕ} (hkind : p.kind = .held i k)
    (hne : ∀ q, q ∈ Q₁ ∨ q ∈ Q₂ → q.start ≠ p.start) (ws : List Word) : Books (update role i .none) item?
      { g with committed := update g.committed (g.packetAt p.start) (some ws) }
      (Q₁++⟨p.start,p.len,.stored k ws,p.pos⟩::Q₂) := by
  have hp := h.told p (by simp)
  simp only [Told,hkind] at hp
  obtain ⟨hrole,hat,hnone⟩ := hp
  have hticket : p.kind.ticket? = some k := by simp [hkind,ticket?]
  have hold : ∀ j, j ≠ k → update g.committed (g.packetAt p.start) (some ws) j = g.committed j := fun j hj =>
    update_of_ne (by rwa [hat]) _ _
  have hother : ∀ q, q ∈ Q₁ ∨ q ∈ Q₂ → ∀ j, q.kind.ticket? = some j → j ≠ k := fun q hq j hj => by
    refine h.account.ne hticket (.inr (.inr (.inr ?_)))
    exact hq.imp (fun hq => mem_filterMap.mpr ⟨q,hq,hj⟩) fun hq => mem_filterMap.mpr ⟨q,hq,hj⟩
  have hother' : ∀ j, j ∈ g.claimed ∨ j ∈ g.reported ∨ j ∈ g.dropping.map snd → j ≠ k := fun j hj =>
    h.account.ne hticket (by tauto)
  have hset : ∀ j, role j ≠ .filling p.start p.len → update role i .none j = role j := fun j hj =>
    update_of_ne (by rintro rfl; exact hj hrole) _ _
  have hmem : ∀ q, q ∈ Q₁++p::Q₂ → q ≠ p → q ∈ Q₁++⟨p.start,p.len,.stored k ws,p.pos⟩::Q₂ := fun q hq hqp => by
    simp only [mem_append,mem_cons] at hq ⊢
    tauto
  obtain ⟨hfill,hwindow,hhold⟩ := h.kept (· ≠ p.kind) fun q hq hqp => hmem q hq fun heq => hqp (by rw [heq])
  rw [hkind] at hfill hwindow hhold
  refine ⟨?_,?_,?_,fun _ ha => hhold ha (by simp),?_,?_,?_,?_⟩
  · intro q hq
    simp only [mem_append,mem_cons] at hq
    by_cases hqp : q = ⟨p.start,p.len,.stored k ws,p.pos⟩
    · subst hqp
      exact ⟨hat,by rw [← hat]; exact update_self ..⟩
    · have hq' : q ∈ Q₁ ∨ q ∈ Q₂ := by tauto
      have htold := h.told q (by simp only [mem_append,mem_cons]; tauto)
      refine htold.congr (fun j hj => hset j fun hj' => ?_) (fun j o _ hj => ⟨o,(hset j (by simp [hj])).trans hj⟩)
        rfl
        (fun m hm => hold m (hm.elim (hother q hq' m) fun hm => hother' m (.inl hm))) fun _ _ _ _ => ⟨rfl,rfl⟩
      exact hne q hq' (Role.filling.inj (hj.symm.trans hj')).1
  · intro j a n hj
    obtain ⟨hji,hj⟩ := of_update_none hj (by simp)
    exact hfill hj (by simp [hji])
  · intro j v n o hj
    obtain ⟨-,hj⟩ := of_update_none hj (by simp)
    exact hwindow hj (by simp)
  · intro j v n item hj
    obtain ⟨-,hj⟩ := of_update_none hj (by simp)
    exact h.notify j v n item hj
  · intro j m hm
    obtain ⟨v,n,item,hj,hitem⟩ := h.dropping j m hm
    exact ⟨v,n,item,(hset j (by simp [hj])).trans hj,hitem⟩
  · intro x hx
    obtain ⟨q,hq,h₁,h₂,hm,h₃⟩ := h.live x hx
    by_cases hqp : q = p
    · subst hqp
      exact ⟨⟨q.start,q.len,.stored k ws,q.pos⟩,by simp,h₁,h₂,rfl,h₃⟩
    · exact ⟨q,hmem q hq hqp,h₁,h₂,hm,h₃⟩
  · have htickets : tickets (Q₁++⟨p.start,p.len,.stored k ws,p.pos⟩::Q₂) = tickets (Q₁++p::Q₂) := by
      simp [hkind,ticket?]
    obtain ⟨hsorted,hperm,hdone,hfresh⟩ := h.account
    have hlt : k < g.tickets := h.account.lt (.inr (.inr (.inr (by simp [hticket]))))
    refine ⟨by rwa [htickets],by rwa [htickets],fun j hj => ?_,fun j hj => ?_⟩
    · dsimp only
      rw [hold j (hother' j hj)]
      exact hdone j hj
    · have hj : g.tickets ≤ j := hj
      dsimp only
      rw [hold j (by omega)]
      exact hfresh j hj

/-- The first packet is dropped for a new one. -/
lemma drop (h : Books role item? g (p::Q)) {k : ℕ} {ws : List Word} (hkind : p.kind = .stored k ws)
    (hi : role i = .none) {v n : ℕ} (hn : 0 < n) (hv : v ≤ p.start) (hvn : p.start < v+n) :
    Books (update role i (.window v n (some p.start))) item? { g with
        dropping := g.dropping++[(i,g.packetAt p.start)]
        live := g.live.filter fun x => x.ticket ≠ g.packetAt p.start }
      (Q++[⟨v,n,.window i,hn⟩]) := by
  have hp := h.told p (by simp)
  simp only [Told,hkind] at hp
  obtain ⟨hat,hsome⟩ := hp
  have hset : ∀ j, role j ≠ .none → update role i (.window v n (some p.start)) j = role j := fun j hj =>
    update_of_ne (by rintro rfl; exact hj hi) _ _
  have hmem : ∀ q, q ∈ p::Q → q.kind ≠ .stored k ws → q ∈ Q++[⟨v,n,.window i,hn⟩] := fun q hq hqp => by
    rcases mem_cons.mp hq with rfl | hq
    · exact absurd hkind hqp
    · exact mem_append_left _ hq
  obtain ⟨hfill,hwindow,hhold⟩ := h.kept (· ≠ .stored k ws) hmem
  refine ⟨?_,?_,?_,fun _ ha => hhold ha (by simp),?_,?_,?_,?_⟩
  · intro q hq
    rcases mem_append.mp hq with hq | hq
    · exact (h.told q (mem_cons_of_mem _ hq)).congr (fun j hj => hset j (by simp [hj]))
        (fun j o _ hj => ⟨o,(hset j (by simp [hj])).trans hj⟩) rfl (fun _ _ => rfl) fun _ _ _ _ => ⟨rfl,rfl⟩
    · obtain rfl := mem_singleton.mp hq
      exact ⟨_,update_self ..⟩
  · intro j a m hj
    by_cases hji : j = i
    · subst hji
      simp at hj
    · rw [update_of_ne hji] at hj
      exact hfill hj (by simp)
  · intro j w m o hj
    by_cases hji : j = i
    · subst hji
      rw [update_self] at hj
      obtain ⟨rfl,rfl,-⟩ := Role.window.inj hj
      exact ⟨_,mem_append_right _ (mem_singleton_self _),rfl,rfl,rfl⟩
    · rw [update_of_ne hji] at hj
      exact hwindow hj (by simp)
  · intro j w m item hj
    by_cases hji : j = i
    · subst hji
      rw [update_self] at hj
      obtain ⟨rfl,rfl,hitem⟩ := Role.window.inj hj
      obtain rfl := some.inj hitem
      exact ⟨hv,hvn,by simp⟩
    · rw [update_of_ne hji] at hj
      obtain ⟨h₁,h₂,h₃⟩ := h.notify j w m item hj
      exact ⟨h₁,h₂,mem_append_left _ h₃⟩
  · intro j l hl
    rcases mem_append.mp hl with hl | hl
    · obtain ⟨w,m,item,hj,hitem⟩ := h.dropping j l hl
      exact ⟨w,m,item,(hset j (by simp [hj])).trans hj,hitem⟩
    · obtain ⟨rfl,rfl⟩ := mk.inj (mem_singleton.mp hl)
      exact ⟨v,n,p.start,update_self ..,rfl⟩
  · intro x hx
    obtain ⟨hx,hticket⟩ := mem_filter.mp hx
    obtain ⟨q,hq,h₁,h₂,hm,h₃⟩ := h.live x hx
    rcases mem_cons.mp hq with rfl | hq
    · simp [h₃] at hticket
    · exact ⟨q,mem_append_left _ hq,h₁,h₂,hm,h₃⟩
  · obtain ⟨hsorted,hperm,hdone,hfresh⟩ := h.account
    have htickets : tickets (Q++[⟨v,n,.window i,hn⟩]) = tickets Q := by simp [ticket?]
    simp only [tickets_cons,hkind,ticket?,toList_some] at hsorted hperm
    refine ⟨?_,?_,?_,hfresh⟩
    · rw [htickets]
      exact hsorted.sublist (List.Sublist.append_left (sublist_append_right ..) _)
    · rw [htickets]
      refine .trans (perm_iff_count.mpr fun j => ?_) hperm
      simp only [map_append,map_cons,map_nil,hat,count_append]
      omega
    · intro j hj
      by_cases hjk : j = k
      · subst hjk
        simp [hsome]
      · refine hdone j ?_
        simp only [map_append,map_cons,map_nil,hat,mem_append,mem_singleton] at hj
        tauto

/-- A producer goes on once a dropped packet is reported. -/
lemma resume (h : Books role item? g (Q₁++p::Q₂)) (hkind : p.kind = .window i)
    (hi : role i = .window p.start p.len none) (hne : ∀ q, q ∈ Q₁ ∨ q ∈ Q₂ → q.start ≠ p.start) {S : List (Seg ι)}
    (hS : ∀ q ∈ S, q.kind = .skip) : Books (update role i .none) item? g (Q₁++S++Q₂) := by
  have hmem : ∀ q, q ∈ Q₁++p::Q₂ → q.kind ≠ .window i → q ∈ Q₁++S++Q₂ := fun q hq hqp => by
    simp only [mem_append,mem_cons] at hq ⊢
    rcases hq with hq | rfl | hq
    · exact .inl (.inl hq)
    · exact absurd hkind hqp
    · exact .inr hq
  obtain ⟨hfill,hwindow,hhold⟩ := h.kept (· ≠ .window i) hmem
  refine ⟨?_,fun _ _ _ hj => hfill (of_update_none hj (by simp)).2 (by simp),?_,fun _ ha => hhold ha (by simp),
    fun j v n item hj => h.notify j v n item (of_update_none hj (by simp)).2,?_,?_,
    h.account.congr (by simp [hkind,ticket?,tickets_skips hS])⟩
  · intro q hq
    simp only [mem_append] at hq
    by_cases hskip : q ∈ S
    · simp [Told,hS q hskip]
    · have hq' : q ∈ Q₁ ∨ q ∈ Q₂ := by tauto
      have htold := h.told q (by simp only [mem_append,mem_cons]; tauto)
      refine htold.congr (fun j hj => update_of_ne ?_ _ _)
        (fun j o _ hj => ⟨o,(update_of_ne ?_ _ _).trans hj⟩) rfl (fun _ _ => rfl) fun _ _ _ _ => ⟨rfl,rfl⟩
      · rintro rfl
        simp [hi] at hj
      · rintro rfl
        exact hne q hq' (Role.window.inj (hi.symm.trans hj)).1.symm
  · intro j v n o hj
    obtain ⟨hji,hj⟩ := of_update_none hj (by simp)
    exact hwindow hj (by simpa using hji)
  · intro j k hk
    obtain ⟨v,n,item,hj,hitem⟩ := h.dropping j k hk
    refine ⟨v,n,item,(update_of_ne ?_ _ _).trans hj,hitem⟩
    rintro rfl
    simp [hi] at hj
  · intro x hx
    obtain ⟨q,hq,h₁,h₂,hm,h₃⟩ := h.live x hx
    refine ⟨q,hmem q hq (fun hw => ?_),h₁,h₂,hm,h₃⟩
    simp [hw,isPacket] at hm

/-- A dropped packet is reported. -/
lemma report (h : Books role item? g Q) {v n item : ℕ} (hi : role i = .window v n (some item)) :
    Books (update role i (.window v n none)) item?
      { g with
        dropping := g.dropping.erase (i,g.packetAt item)
        reported := g.reported++[g.packetAt item] } Q := by
  have hmem := (h.notify i v n item hi).2.2
  have hperm' := perm_cons_erase hmem
  have hnodup : g.dropping.Nodup := by
    have := h.account.nodup
    simp only [nodup_append] at this
    exact this.2.1.2.1.1.of_map
  have hset : ∀ j a m, update role i (.window v n none) j = .filling a m → role j = .filling a m :=
    fun j a m hj => by
    by_cases hji : j = i
    · subst hji
      simp at hj
    · rwa [update_of_ne hji] at hj
  have hset' : ∀ j w m o, update role i (.window v n none) j = .window w m o → ∃ o, role j = .window w m o :=
    fun j w m o hj => by
      by_cases hji : j = i
      · subst hji
        rw [update_self] at hj
        obtain ⟨rfl,rfl,-⟩ := Role.window.inj hj
        exact ⟨_,hi⟩
      · rw [update_of_ne hji] at hj
        exact ⟨_,hj⟩
  refine ⟨?_,?_,?_,h.holding,?_,?_,h.live,?_⟩
  · intro q hq
    refine (h.told q hq).congr (fun j hj => update_of_ne ?_ _ _) (fun j o _ hj => ?_) rfl (fun _ _ => rfl)
      fun _ _ _ _ => ⟨rfl,rfl⟩
    · rintro rfl
      simp [hi] at hj
    · by_cases hji : j = i
      · subst hji
        obtain ⟨rfl,rfl,-⟩ := Role.window.inj (hi.symm.trans hj)
        exact ⟨_,update_self ..⟩
      · exact ⟨o,(update_of_ne hji _ _).trans hj⟩
  · exact fun j a m hj => h.filling j a m (hset j a m hj)
  · intro j w m o hj
    obtain ⟨o',hj⟩ := hset' j w m o hj
    exact h.window j w m o' hj
  · intro j w m item' hj
    by_cases hji : j = i
    · subst hji
      simp at hj
    · rw [update_of_ne hji] at hj
      obtain ⟨h₁,h₂,h₃⟩ := h.notify j w m item' hj
      exact ⟨h₁,h₂,(mem_erase_of_ne (by simp [hji])).mpr h₃⟩
  · intro j k hk
    obtain ⟨hne,hk⟩ := hnodup.mem_erase_iff.mp hk
    obtain ⟨w,m,item',hj,hitem⟩ := h.dropping j k hk
    refine ⟨w,m,item',(update_of_ne ?_ _ _).trans hj,hitem⟩
    rintro rfl
    obtain ⟨-,-,hsome⟩ := Role.window.inj (hi.symm.trans hj)
    obtain rfl := some.inj hsome
    exact hne (by rw [hitem])
  · obtain ⟨hsorted,hperm,hdone,hfresh⟩ := h.account
    have hcount := (hperm'.map snd).count_eq
    refine ⟨hsorted,?_,?_,hfresh⟩
    · refine .trans (perm_iff_count.mpr fun j => ?_) hperm
      have := hcount j
      simp only [map_cons,count_cons,count_append,count_nil] at this ⊢
      omega
    · intro j hj
      refine hdone j ?_
      simp only [mem_append,mem_singleton] at hj
      rcases hj with hj | (hj | rfl) | hj
      · exact .inl hj
      · exact .inr (.inl hj)
      · exact .inr (.inr (mem_map.mpr ⟨_,hmem,rfl⟩))
      · obtain ⟨x,hx,rfl⟩ := mem_map.mp hj
        exact .inr (.inr (mem_map.mpr ⟨x,mem_of_mem_erase hx,rfl⟩))

end Update

variable {ws : List Word}

/-- The first packet is claimed. -/
lemma claim (h : Books role none g (p::Q)) {k : ℕ} (hkind : p.kind = .stored k ws) :
    Books role (some p.start) { g with claimed := g.claimed++[g.packetAt p.start] }
      (⟨p.start,p.len,.claimed k ws,p.pos⟩::Q) := by
  have hp := h.told p (by simp)
  simp only [Told,hkind] at hp
  obtain ⟨hat,hsome⟩ := hp
  have hmem : ∀ q, q ∈ p::Q → q.kind ≠ .stored k ws → q ∈ (⟨p.start,p.len,.claimed k ws,p.pos⟩ : Seg ι)::Q :=
    fun q hq hqp => by
    rcases mem_cons.mp hq with rfl | hq
    · exact absurd hkind hqp
    · exact mem_cons_of_mem _ hq
  obtain ⟨hfill,hwindow,-⟩ := h.kept (· ≠ .stored k ws) hmem
  refine ⟨?_,fun _ _ _ hi => hfill hi (by simp),fun _ _ _ _ hi => hwindow hi (by simp),?_,h.notify,h.dropping,?_,?_⟩
  · intro q hq
    rcases mem_cons.mp hq with rfl | hq
    · exact ⟨rfl,hat,hsome,by simp [hat]⟩
    · exact (h.told q (mem_cons_of_mem _ hq)).congr (fun _ _ => rfl) (fun _ o _ hi => ⟨o,hi⟩) rfl (fun _ _ => rfl)
        fun _ _ _ hnone => nomatch hnone
  · rintro a ⟨⟩
    exact ⟨_,mem_cons_self ..,rfl,k,ws,rfl⟩
  · intro x hx
    obtain ⟨q,hq,h₁,h₂,hm,h₃⟩ := h.live x hx
    rcases mem_cons.mp hq with rfl | hq
    · exact ⟨_,mem_cons_self ..,h₁,h₂,rfl,h₃⟩
    · exact ⟨q,mem_cons_of_mem _ hq,h₁,h₂,hm,h₃⟩
  · obtain ⟨hsorted,hperm,hdone,hfresh⟩ := h.account
    simp only [tickets_cons,hkind,ticket?,toList_some] at hsorted hperm
    refine ⟨by simpa [hat,ticket?] using hsorted,?_,?_,hfresh⟩
    · simp only [tickets_cons,ticket?,toList_none,nil_append,hat]
      refine .trans (perm_iff_count.mpr fun j => ?_) hperm
      simp only [count_append]
      omega
    · intro j hj
      by_cases hjk : j = k
      · subst hjk
        simp [hsome]
      · refine hdone j ?_
        simp only [hat,mem_append,mem_singleton] at hj
        tauto

/-- A claimed packet is freed. -/
lemma free {a : ℕ} (h : Books role (some a) g (Q₁++p::Q₂)) {k : ℕ} (hkind : p.kind = .claimed k ws)
    (hne : ∀ q, q ∈ Q₁ ∨ q ∈ Q₂ → q.start ≠ p.start) {S : List (Seg ι)} (hS : ∀ q ∈ S, q.kind = .skip) :
    Books role none { g with live := g.live.filter fun x => x.ticket ≠ g.packetAt p.start } (Q₁++S++Q₂) := by
  have hp := h.told p (by simp)
  simp only [Told,hkind] at hp
  obtain rfl : a = p.start := some.inj hp.1
  have hmem : ∀ q, q ∈ Q₁++p::Q₂ → (∀ m vs, q.kind ≠ .claimed m vs) → q ∈ Q₁++S++Q₂ := fun q hq hqp => by
    simp only [mem_append,mem_cons] at hq ⊢
    rcases hq with hq | rfl | hq
    · exact .inl (.inl hq)
    · exact absurd hkind (hqp k ws)
    · exact .inr hq
  obtain ⟨hfill,hwindow,-⟩ := h.kept (∀ m vs, · ≠ .claimed m vs) hmem
  refine ⟨?_,fun _ _ _ hi => hfill hi (by simp),fun _ _ _ _ hi => hwindow hi (by simp),by simp,h.notify,h.dropping,
    ?_,?_⟩
  · intro q hq
    simp only [mem_append] at hq
    by_cases hskip : q ∈ S
    · simp [Told,hS q hskip]
    · have hq' : q ∈ Q₁ ∨ q ∈ Q₂ := by tauto
      have htold := h.told q (by simp only [mem_append,mem_cons]; tauto)
      exact htold.congr (fun _ _ => rfl) (fun _ o _ hi => ⟨o,hi⟩) rfl (fun _ _ => rfl) fun _ _ _ hitem =>
        absurd (some.inj hitem).symm (hne q hq')
  · intro x hx
    obtain ⟨hx,hticket⟩ := mem_filter.mp hx
    obtain ⟨q,hq,h₁,h₂,hm,h₃⟩ := h.live x hx
    refine ⟨q,?_,h₁,h₂,hm,h₃⟩
    simp only [mem_append,mem_cons] at hq ⊢
    rcases hq with hq | rfl | hq
    · exact .inl (.inl hq)
    · simp [h₃] at hticket
    · exact .inr hq
  · have haccount : Account g (Q₁++S++Q₂) := h.account.congr (by simp [hkind,ticket?,tickets_skips hS])
    exact { haccount with }

end Books
end ArmFirmware.Zephyr.MpscPbuf
