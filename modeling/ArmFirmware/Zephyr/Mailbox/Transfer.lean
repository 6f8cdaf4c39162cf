import ArmFirmware.Zephyr.Mailbox.Flights

/-! What becomes of a message, step by step: a caller fills in its descriptor and waits, a sender and
a receiver find each other, and the receiver disposes of the message. -/
namespace ArmFirmware.Zephyr.Mailbox
open Library Function Option State Ne Thread Flights

attribute [local simp] pend setMsg dispose setCall DummyOk EAGAIN

section Runs
variable {τ δ μ π : Type*}

/-- The descriptor is the sender's own: it is no other caller's, and no message is held or under
way in it. -/
structure Owns (s : State τ δ μ π) (g : Flights τ δ μ π) (w : Who τ δ) (a : Addr μ δ) : Prop where
  busy : ∀ u m, .real u ≠ w → s.use m = .busy u → a ≠ .user m
  held : ∀ m, s.use m = .held → a ≠ .user m
  async : ∀ d, .dummy d ≠ w → a ≠ .async d
  taken : ∀ w' r b p, g w' = .taken r b p → w' ≠ w ∧ b ≠ a

/-- The receiver gets the message of the sender in its own descriptor, which only it uses, and all
that belongs to others is as it was. -/
structure Taking (s s' : State τ δ μ π) (w : Who τ δ) (a : Addr μ δ) (r : τ) (m : μ) : Prop where
  txNodup : s'.txQueue.Nodup
  rxNodup : s'.rxQueue.Nodup
  tx : ∀ t, .real t ∈ s'.txQueue ↔ (s'.thread t).pendedOn = some .tx
  rx : ∀ t, t ∈ s'.rxQueue ↔ (s'.thread t).pendedOn = some .rx
  dummy : ∀ d, w ≠ .dummy d → (.dummy d ∈ s'.txQueue ↔ .dummy d ∈ s.txQueue)
  free : s'.asyncMsgFree = s.asyncMsgFree
  swapData : s'.swapData = s.swapData
  msgs : ∀ b, b ≠ a → b ≠ .user m → s'.msgs b = s.msgs b
  thread : ∀ t, t ≠ r → (w = .real t → (s.thread t).pendedOn = none) → s'.thread t = s.thread t
  call : ∀ t, t ≠ r → s'.call t = s.call t
  use : ∀ m', m' ≠ m → s'.use m' = s.use m'
  idle : s.use m = .free ∨ s.use m = .busy r
  busy : s'.use m = .busy r
  held : ∀ m', Holds s r m' → s.use m' = .held
  holds : Holds s' r m

lemma update_taken [DecidableEq τ] [DecidableEq δ] {g : Flights τ δ μ π} {w w' : Who τ δ} {f : Flight τ δ μ π}
    (hg : ∀ r b p, g w ≠ .taken r b p) (hf : ∀ r b p, f ≠ .taken r b p) {r : τ} {b : Addr μ δ} {p : Parcel π} :
    update g w f w' = .taken r b p ↔ g w' = .taken r b p := by
  by_cases hw : w' = w
  · subst hw
    simp [hg,hf]
  · rw [update_of_ne hw]

namespace Good
variable {smp : Bool} {memory : π → ℕ → Byte} {s s' : State τ δ μ π} {g : Flights τ δ μ π} {t : τ} {w : Who τ δ}
  {m : μ} {p : Parcel π} {buffer : Bool}

lemma holder (h : Good s g) {w : Who τ δ} {r : τ} {p : Parcel π} (hw : g w = .taken r (.user m) p)
    (huse : s.use m = .busy t) : r = t ∧ ((∃ buffer, s.call t = .got m buffer) ∨
      ((∃ buffer, s.call t = .get m buffer) ∧ (s.thread t).pendedOn = none ∧ (s.thread t).swapRetval = 0)) := by
  obtain ⟨-,-,-,m',hm,hholds⟩ := h.flight w r _ p hw
  obtain rfl : m = m' := by simpa using hm
  have hr := (h.thread r).2
  rcases hholds with hheld | ⟨buffer,hc⟩ | ⟨⟨buffer,hc⟩,hrest⟩
  · simp [huse] at hheld
  · simp only [hc] at hr
    obtain rfl : t = r := by simpa [huse] using hr.1
    exact ⟨rfl,.inl ⟨buffer,hc⟩⟩
  · simp only [hc] at hr
    obtain rfl : t = r := by simpa [huse] using hr.1
    exact ⟨rfl,.inr ⟨⟨buffer,hc⟩,hrest⟩⟩

lemma limbo (h : Good s g) {r : τ} {b : Addr μ δ} (hg : g (.real t) = .taken r b p) :
    ∃ m, s.call t = .put m ∧ s.swapData (.real t) = some (.user m) ∧ s.use m = .busy t ∧ b ≠ .user m ∧
      (s.thread t).pendedOn = none ∧ (s.thread t).queued = false := by
  have ht := (h.thread t).2
  cases hc : s.call t with
  | none => simp [hc,hg] at ht
  | get m buffer => simp [hc,hg] at ht
  | got m buffer => simp [hc,hg] at ht
  | put m =>
    simp only [hc,hg] at ht
    obtain ⟨hswap,huse,hp,hq,hb⟩ := ht
    exact ⟨m,rfl,hswap,huse,hb,hp,hq⟩

lemma unheld (h : Good s g) (hm : s.Reusable m) (w : Who τ δ) (r : τ) (p : Parcel π) :
    g w ≠ .taken r (.user m) p := by
  intro hw
  have hbusy : ∀ u, s.use m ≠ .busy u := by
    intro u hu
    rcases hm with hm | ⟨hm,-⟩ <;> simp [hu] at hm
  obtain ⟨hsync,-,-,m',hm',hholds⟩ := h.flight w r _ p hw
  obtain rfl : m = m' := by simpa using hm'
  have hr := (h.thread r).2
  rcases hholds with hheld | ⟨buffer,hc⟩ | ⟨⟨buffer,hc⟩,-⟩
  · rcases hm with hm | ⟨-,hnone⟩
    · simp [hm] at hheld
    · simp [hnone] at hsync
  · simp only [hc] at hr
    exact hbusy r hr.1
  · simp only [hc] at hr
    exact hbusy r hr.1

/-- What is known of a sender in the queue. -/
lemma queued_sender (h : Good s g) (hw : w ∈ s.txQueue) :
    ∃ offer source a sem, g w = .waiting offer source ∧ s.swapData w = some a ∧
      s.msgs a = offer.msg source w sem ∧ Owns s g w a ∧ ∀ m, s.use m = .free → a ≠ .user m := by
  cases w with
  | real u =>
    obtain ⟨m,offer,hc,hg,hswap,huse,hmsg⟩ := h.waiting ((h.tx u).mp hw)
    refine ⟨offer,u,.user m,none,hg,hswap,hmsg,⟨fun u' m' hu hm' => ?_,fun m' hm' => ?_,by simp,
      fun w' r' b p' hw' => ⟨?_,?_⟩⟩,fun m' hm' => ?_⟩
    · rintro ⟨rfl⟩; exact hu (by simpa [huse,eq_comm] using hm')
    · rintro ⟨rfl⟩; simp [huse] at hm'
    · rintro rfl; simp [hg] at hw'
    · rintro rfl
      have := h.holder hw' huse
      simp [hc] at this
    · rintro ⟨rfl⟩; simp [huse] at hm'
  | dummy d =>
    have hd := h.dummy d
    simp only [DummyOk] at hd
    cases hg : g (.dummy d) with
    | none => simp [hg,hw] at hd
    | disposed n => simp [hg,hw] at hd
    | taken r b p => simp [hg,hw] at hd
    | waiting offer source =>
      simp only [hg] at hd
      obtain ⟨-,hswap,-,sem,hmsg⟩ := hd
      refine ⟨offer,source,.async d,sem,rfl,hswap,hmsg,⟨by simp,by simp,fun d' hd' => ?_,
        fun w' r' b p' hw' => ⟨?_,?_⟩⟩,by simp⟩
      · rintro ⟨rfl⟩; exact hd' rfl
      · rintro rfl; simp [hg] at hw'
      · rintro rfl
        obtain ⟨-,-,-,m',hm',-⟩ := h.flight w' r' _ p' hw'
        simp at hm'

section
variable [DecidableEq τ] [DecidableEq μ]

/-- A receiver finds that it was handed a message. -/
lemma found (h : Good s g) (huse : s.use m = .busy t) (hc : s.call t = .get m buffer)
    (hg : g (.real t) = .none) (hp : (s.thread t).pendedOn = none) (hw : ∃ w p, g w = .taken t (.user m) p) :
    Good (s.setCall t (.got m buffer) m (.busy t)) g := by
  have hsame : (s.setCall t (.got m buffer) m (.busy t)).use = s.use := by
    rw [← huse]
    exact update_eq_self ..
  refine ⟨h.txNodup,h.rxNodup,h.freeNodup,h.tx,h.rx,fun u => ?_,h.dummy,fun w r b p hw => ?_,
    fun m' w hm => h.held m' w (hsame ▸ hm)⟩
  · by_cases hu : u = t
    · subst hu
      exact ⟨(h.thread u).1,by simp [hg,hp,hw]⟩
    · exact (h.thread u).frame rfl (update_of_ne hu ..) rfl rfl (fun m' hm' => ⟨hsame ▸ hm',rfl⟩)
        fun m' w p _ hw => ⟨w,p,hw⟩
  · refine (h.flight w r b p hw).frame rfl fun m' hm' hholds => ?_
    by_cases hrt : r = t
    · subst hrt
      rcases hholds with hheld | ⟨buffer',hc'⟩ | ⟨⟨buffer',hc'⟩,-⟩
      · exact .inl (hsame ▸ hheld)
      · simp [hc] at hc'
      · obtain ⟨rfl,-⟩ : m = m' ∧ _ := by simpa [hc] using hc'
        exact .inr (.inl ⟨buffer,by simp⟩)
    · exact hholds.frame (fun hm => hsame ▸ hm) (update_of_ne hrt ..) fun _ _ _ hp hr => ⟨hp,hr⟩

/-- `k_mbox_get` returns with the message still held. -/
lemma keep (h : Good s g) (hc : s.call t = .got m buffer) : Good (s.setCall t .none m .held) g := by
  have ht := (h.thread t).2
  simp only [hc] at ht
  obtain ⟨huse,hg,hp,w₀,p₀,hw₀⟩ := ht
  refine ⟨h.txNodup,h.rxNodup,h.freeNodup,h.tx,h.rx,fun u => ?_,h.dummy,fun w r b p hw => ?_,fun m' w hm hw => ?_⟩
  · by_cases hu : u = t
    · subst hu
      exact ⟨(h.thread u).1,by simp [hg,hp]⟩
    · refine (h.thread u).frame rfl (update_of_ne hu ..) rfl rfl (fun m' hm' => ⟨?_,rfl⟩)
        fun m' w p _ hw => ⟨w,p,hw⟩
      have hne : m' ≠ m := by rintro rfl; simp [huse,symm hu] at hm'
      simpa [hne] using hm'
  · refine (h.flight w r b p hw).frame rfl fun m' hm' hholds => ?_
    by_cases hne : m' = m
    · exact .inl (by simp [hne])
    · by_cases hrt : r = t
      · subst hrt
        rcases hholds with hheld | ⟨buffer',hc'⟩ | ⟨⟨buffer',hc'⟩,-⟩
        · exact .inl (by simpa [hne] using hheld)
        · exact absurd (by simpa [hc,eq_comm] using And.left (Call.got.inj (hc.symm.trans hc'))) hne
        · simp [hc] at hc'
      · exact hholds.frame (fun hm => by simpa [hne] using hm) (update_of_ne hrt ..)
          fun _ _ _ hp hr => ⟨hp,hr⟩
  · by_cases hne : m' = m
    · subst hne
      obtain ⟨hsync,-⟩ := h.flight w₀ t _ p₀ hw₀
      obtain rfl : w₀ = w := some.inj (hsync.symm.trans hw)
      exact ⟨t,p₀,hw₀⟩
    · exact h.held m' w (by simpa [hne] using hm) hw

variable [DecidableEq δ]

/-- A call returns, and its descriptor is free. -/
lemma finish (h : Good s g) (huse : s.use m = .busy t) (hp : (s.thread t).pendedOn = none)
    (hcall : ∀ m' buffer, s.call t = .get m' buffer ∨ s.call t = .got m' buffer → m' = m)
    (hfree : ∀ w r p, g w ≠ .taken r (.user m) p) (htaken : ∀ r b p, g (.real t) ≠ .taken r b p) :
    Good (s.setCall t .none m .free) (update g (.real t) .none) := by
  have hsame {w r b p} : update g (.real t) .none w = .taken r b p ↔ g w = .taken r b p :=
    update_taken htaken (by simp)
  refine ⟨h.txNodup,h.rxNodup,h.freeNodup,h.tx,h.rx,fun u => ?_,fun d => ?_,fun w r b p hw => ?_,
    fun m' w hm hw => ?_⟩
  · by_cases hu : u = t
    · subst hu
      exact ⟨(h.thread u).1,by simp [hp]⟩
    · refine (h.thread u).frame rfl (update_of_ne hu ..) rfl (update_of_ne (by simp [hu]) ..)
        (fun m' hm' => ⟨?_,rfl⟩) fun m' w p _ hw => ⟨w,p,hsame.mpr hw⟩
      have hne : m' ≠ m := by rintro rfl; simp [huse,symm hu] at hm'
      simpa [hne] using hm'
  · simpa using h.dummy d
  · have hw' := hsame.mp hw
    refine (h.flight w r b p hw').frame rfl fun m' hm' hholds => ?_
    have hne : m' ≠ m := by rintro rfl; exact hfree w r p (hm' ▸ hw')
    rcases hholds with hheld | hgot | hget
    · exact .inl (by simpa [hne] using hheld)
    · obtain ⟨buffer,hc⟩ := hgot
      have hrt : r ≠ t := by rintro rfl; exact hne (hcall m' buffer (.inr hc))
      exact .inr (.inl ⟨buffer,by simpa [hrt] using hc⟩)
    · obtain ⟨⟨buffer,hc⟩,hrest⟩ := hget
      have hrt : r ≠ t := by rintro rfl; exact hne (hcall m' buffer (.inl hc))
      exact .inr (.inr ⟨⟨buffer,by simpa [hrt] using hc⟩,hrest⟩)
  · have hne : m' ≠ m := by rintro rfl; simp at hm
    obtain ⟨r,p,hr⟩ := h.held m' w (by simpa [hne] using hm) hw
    exact ⟨r,p,hsame.mpr hr⟩

/-- A thread that was pended runs again. -/
lemma wake (h : Good s g) {s' : State τ δ μ π} {r : Reply τ δ μ}
    (hstep : step smp memory s (.wake t) = some (s',r)) : Good s' (next g s s' (.wake t) r) := by
  simp only [step] at hstep
  by_cases hq : (s.thread t).queued = true
  case neg => simp [hq] at hstep
  rw [if_pos hq] at hstep
  obtain ⟨hpended,ht⟩ := h.thread t
  have hp : (s.thread t).pendedOn = none := by
    by_contra hp
    simp [(hpended hp).2.1] at hq
  cases hc : s.call t with
  | none => simp [hc] at hstep
  | got m buffer => simp [hc] at hstep
  | put m =>
    simp only [hc,Option.some.injEq,Prod.mk.injEq] at hstep ht
    obtain ⟨rfl,rfl⟩ := hstep
    refine h.finish ht.2.1 hp (by simp [hc]) (fun w r p hw => ?_) fun r b p hg => ?_
    · have := h.holder hw ht.2.1
      simp [hc] at this
    · simp [hg,hq] at ht
  | get m buffer =>
    simp only [hc] at hstep ht
    obtain ⟨huse,hg,-,-,hgot⟩ := ht
    split_ifs at hstep with hr
    · cases hstep
      exact h.found huse hc hg hp (hgot hp hr)
    · cases hstep
      refine h.finish huse hp (by simp [hc,eq_comm]) (fun w r p hw => ?_) (by simp [hg])
      have := h.holder hw huse
      simp [hc,hr] at this

end

end Good

section Settle
variable [DecidableEq δ] [DecidableEq μ]
variable {g : Flights τ δ μ π} {b : Addr μ δ} {buffer : Bool} {w : Who τ δ}

variable {p : Parcel π}

lemma settle_taken {r : τ} (hw : g w = .taken r b p) :
    g.settle b buffer w = .disposed (if buffer then p.size else 0) := by
  simp [settle,hw]

lemma settle_of_ne (hw : ∀ r p, g w ≠ .taken r b p) : g.settle b buffer w = g w := by
  unfold settle
  split
  · rename_i r b' p heq
    have hne : b' ≠ b := by rintro rfl; exact hw r p heq
    rw [if_neg hne,heq]
  · rfl

lemma settle_eq_taken {r : τ} {b' : Addr μ δ} :
    g.settle b buffer w = .taken r b' p ↔ g w = .taken r b' p ∧ b' ≠ b := by
  unfold settle
  split
  · rename_i r' b'' p' heq
    rw [heq]
    split_ifs with hb
    · simp only [Flight.taken.injEq,false_iff]
      rintro ⟨⟨-,rfl,-⟩,hne⟩
      exact hne hb
    · constructor
      · intro heq
        obtain ⟨rfl,rfl,rfl⟩ := Flight.taken.inj heq
        exact ⟨rfl,hb⟩
      · exact And.left
  · rename_i hne
    constructor
    · intro heq
      exact absurd heq (hne r b' p)
    · intro heq
      exact absurd heq.1 (hne r b' p)

end Settle

namespace Good
variable {smp : Bool} {memory : π → ℕ → Byte} {s s' : State τ δ μ π} {g : Flights τ δ μ π} {t : τ} {w : Who τ δ}
  {m : μ} {p : Parcel π} {buffer : Bool} [DecidableEq δ] [DecidableEq μ]

lemma settle_eq_self (h : Good s g) {b : Addr μ δ} (hsync : (s.msgs b).syncingThread = none) (buffer : Bool) :
    g.settle b buffer = g := by
  funext w
  refine settle_of_ne fun r p hw => ?_
  have := (h.flight w r b p hw).1
  simp [hsync] at this

lemma settle_others (h : Good s g)
    (hsync : (s.msgs (.user m)).syncingThread = some w) (buffer : Bool) (w' : Who τ δ) (hne : w' ≠ w) :
    g.settle (.user m) buffer w' = g w' := by
  refine settle_of_ne fun r p hw' => hne ?_
  exact some.inj ((h.flight w' r _ p hw').1.symm.trans hsync)

end Good

variable [DecidableEq τ] [DecidableEq δ] [DecidableEq μ]

section Dispose
variable {s : State τ δ μ π} {m : μ} {buffer : Bool} {a : Addr μ δ}

def State.taken (s : State τ δ μ π) (m : μ) (buffer : Bool) : ℕ :=
  if buffer then (s.msgs (.user m)).size else 0

def State.settled (s : State τ δ μ π) (m : μ) (buffer : Bool) (a : Addr μ δ) : Addr μ δ → Msg τ δ π :=
  update (update s.msgs (.user m)
      { s.msgs (.user m) with size := s.taken m buffer, syncingThread := none })
    a { s.msgs a with size := s.taken m buffer }

lemma dataGet_eq : s.dataGet m buffer =
    (s.setMsg (.user m) { s.msgs (.user m) with size := s.taken m buffer }).dispose (.user m) := by
  cases buffer with
  | false => rfl
  | true =>
    have hsame : s.setMsg (.user m) { s.msgs (.user m) with size := s.taken m true } = s := by
      simp [taken]
    rw [hsame]
    rfl

lemma dataGet_real {t : τ} (hsync : (s.msgs (.user m)).syncingThread = some (.real t))
    (hswap : s.swapData (.real t) = some a) (hne : a ≠ .user m) :
    s.dataGet m buffer = { s with msgs := s.settled m buffer a }.setThread t release := by
  rw [dataGet_eq]
  simp [hsync,hswap,settled,setThread,hne]

lemma dataGet_dummy {d : δ} (buffer : Bool) (hsync : (s.msgs (.user m)).syncingThread = some (.dummy d))
    (hswap : s.swapData (.dummy d) = some a) (hne : a ≠ .user m) : ∃ gives, s.dataGet m buffer =
      { s with msgs := s.settled m buffer a, asyncMsgFree := d::s.asyncMsgFree, gives := gives } := by
  rw [dataGet_eq]
  exact ⟨_,by simp [hsync,hswap,settled,hne]; rfl⟩

lemma dataGet_none (hsync : (s.msgs (.user m)).syncingThread = none) :
    s.dataGet m buffer = s.setMsg (.user m) { s.msgs (.user m) with size := s.taken m buffer } := by
  rw [dataGet_eq]
  simp [hsync]

end Dispose

namespace Good
variable {smp : Bool} {memory : π → ℕ → Byte} {s s' : State τ δ μ π} {g : Flights τ δ μ π} {t : τ} {w : Who τ δ}
  {m : μ} {p : Parcel π} {buffer : Bool}

/-- The message of a waiting sender is disposed of. -/
lemma dispose_real (h : Good s g) (hheld : s.use m = .held)
    (hsync : (s.msgs (.user m)).syncingThread = some (.real t)) (buffer : Bool) :
    Good (s.dataGet m buffer) (g.settle (.user m) buffer) := by
  obtain ⟨r,p,hg⟩ := h.held m _ hheld hsync
  obtain ⟨m₀,hc,hswap,huse,hne,hp,hq⟩ := h.limbo hg
  have hmm : m₀ ≠ m := by rintro rfl; simp [huse] at hheld
  rw [dataGet_real hsync hswap (Ne.symm hne)]
  have hmsgs : ∀ b, b ≠ .user m → b ≠ .user m₀ → s.settled m buffer (.user m₀) b = s.msgs b := by
    intro b hb hb'
    rw [settled,update_of_ne hb',update_of_ne hb]
  have hpend : ∀ u, (update s.thread t (s.thread t).release u).pendedOn = (s.thread u).pendedOn := by
    intro u
    rw [update_apply]
    split_ifs with hu
    · simp [hu,release]
    · rfl
  refine ⟨h.txNodup,h.rxNodup,h.freeNodup,fun u => (h.tx u).trans (by simp [hpend]),
    fun u => (h.rx u).trans (by simp [hpend]),fun u => ?_,fun d => ?_,fun w r' b p' hw => ?_,fun m' w hm hw => ?_⟩
  · by_cases hu : u = t
    · subst hu
      refine ⟨by simp [release,hp],?_⟩
      have hsize : (s.settled m buffer (.user m₀) (.user m₀)).size = if buffer then p.size else 0 := by
        simp [settled,taken,(h.flight _ _ _ _ hg).2.2.1]
      simp [hc,settle_taken hg,hswap,huse,hp,release,hsize]
    · refine (h.thread u).frame (update_of_ne hu ..) rfl rfl
        (h.settle_others hsync buffer _ (by simp [hu])) (fun m' hm' => ⟨hm',hmsgs _ ?_ ?_⟩) fun m' w p hm' hw =>
          ⟨w,p,?_⟩
      · rintro ⟨rfl⟩; simp [hheld] at hm'
      · rintro ⟨rfl⟩; simp [huse,symm hu] at hm'
      · refine settle_eq_taken.mpr ⟨hw,?_⟩
        rintro ⟨rfl⟩; simp [hheld] at hm'
  · have hd := h.dummy d
    simp only [DummyOk,h.settle_others hsync buffer (.dummy d) (by simp)]
    simpa [hmsgs] using hd
  · obtain ⟨hw,hb⟩ := settle_eq_taken.mp hw
    obtain ⟨hs₁,hs₂,hs₃,m',rfl,hholds⟩ := h.flight w r' b p' hw
    have hb' : m' ≠ m₀ := by
      rintro rfl
      have := h.holder hw huse
      simp [hc] at this
    refine (h.flight w r' _ p' hw).frame (hmsgs _ hb (by simpa using hb')) fun m'' _ hholds => ?_
    refine hholds.frame id rfl fun m₁ buffer' hc' hp' hr' => ?_
    have hrt : r' ≠ t := by rintro rfl; simp [hc] at hc'
    simpa [hrt] using ⟨hp',hr'⟩
  · have hm : s.use m' = .held := hm
    have hne' : m' ≠ m := by
      rintro rfl
      simp [settled,Ne.symm hmm] at hw
    have hne₀ : m' ≠ m₀ := by rintro rfl; simp [huse] at hm
    have hmsg : s.settled m buffer (.user m₀) (.user m') = s.msgs (.user m') :=
      hmsgs _ (by simpa using hne') (by simpa using hne₀)
    obtain ⟨r',p',hr'⟩ := h.held m' w hm (hmsg ▸ hw)
    exact ⟨r',p',settle_eq_taken.mpr ⟨hr',by simpa using hne'⟩⟩

/-- An asynchronous message is disposed of. -/
lemma dispose_dummy (h : Good s g) {d : δ} (hheld : s.use m = .held)
    (hsync : (s.msgs (.user m)).syncingThread = some (.dummy d)) (buffer : Bool) :
    Good (s.dataGet m buffer) (g.settle (.user m) buffer) := by
  obtain ⟨r,p,hg⟩ := h.held m _ hheld hsync
  have hd := h.dummy d
  simp only [DummyOk,hg] at hd
  obtain ⟨hqueue,hswap,hfree⟩ := hd
  obtain ⟨gives,heq⟩ := dataGet_dummy buffer hsync hswap (by simp)
  rw [heq]
  have hmsgs : ∀ m', m' ≠ m → s.settled m buffer (.async d) (.user m') = s.msgs (.user m') := by
    intro m' hm'
    simp [settled,hm']
  have hmsgs' : ∀ d', d' ≠ d → s.settled m buffer (.async d) (.async d') = s.msgs (.async d') := by
    intro d' hd'
    simp [settled,hd']
  refine ⟨h.txNodup,h.rxNodup,h.freeNodup.cons hfree,h.tx,h.rx,fun u => ?_,fun d' => ?_,fun w r' b p' hw => ?_,
    fun m' w hm hw => ?_⟩
  · refine (h.thread u).frame rfl rfl rfl (h.settle_others hsync buffer _ (by simp))
      (fun m' hm' => ⟨hm',hmsgs _ ?_⟩) fun m' w p hm' hw => ⟨w,p,settle_eq_taken.mpr ⟨hw,?_⟩⟩
    · rintro rfl; simp [hheld] at hm'
    · rintro ⟨rfl⟩; simp [hheld] at hm'
  · by_cases hd' : d' = d
    · subst hd'
      simpa [settle_taken hg] using hqueue
    · have hold := h.dummy d'
      simp only [DummyOk,h.settle_others hsync buffer (.dummy d') (by simp [hd'])]
      simpa [hmsgs' d' hd',hd'] using hold
  · obtain ⟨hw,hb⟩ := settle_eq_taken.mp hw
    obtain ⟨-,-,-,m',rfl,-⟩ := h.flight w r' b p' hw
    exact (h.flight w r' _ p' hw).frame (hmsgs m' (by simpa using hb)) fun m'' _ hholds =>
      hholds.frame id rfl fun _ _ _ hp hr => ⟨hp,hr⟩
  · have hm : s.use m' = .held := hm
    have hne' : m' ≠ m := by
      rintro rfl
      simp [settled] at hw
    obtain ⟨r',p',hr'⟩ := h.held m' w hm (hmsgs m' hne' ▸ hw)
    exact ⟨r',p',settle_eq_taken.mpr ⟨hr',by simpa using hne'⟩⟩

lemma dispose_none (h : Good s g) (hheld : s.use m = .held)
    (hsync : (s.msgs (.user m)).syncingThread = none) (buffer : Bool) :
    Good (s.dataGet m buffer) (g.settle (.user m) buffer) := by
  rw [dataGet_none hsync,h.settle_eq_self hsync]
  have hmsgs : ∀ b n, b ≠ .user m → (s.setMsg (.user m) { s.msgs (.user m) with size := n }).msgs b = s.msgs b :=
    fun b n hb => update_of_ne hb ..
  refine ⟨h.txNodup,h.rxNodup,h.freeNodup,h.tx,h.rx,fun u => ?_,fun d => ?_,fun w r b p hw => ?_,
    fun m' w hm hw => ?_⟩
  · refine (h.thread u).frame rfl rfl rfl rfl (fun m' hm' => ⟨hm',hmsgs _ _ ?_⟩) fun m' w p _ hw => ⟨w,p,hw⟩
    rintro ⟨rfl⟩; simp [hheld] at hm'
  · simpa using h.dummy d
  · refine (h.flight w r b p hw).frame (hmsgs _ _ ?_) fun m' _ hholds => hholds.frame id rfl fun _ _ _ hp hr =>
      ⟨hp,hr⟩
    rintro rfl
    simp [(h.flight w r _ p hw).1] at hsync
  · refine h.held m' w hm ?_
    by_cases hm' : m' = m <;> simpa [hm'] using hw

lemma dataGet (h : Good s g) (hheld : s.use m = .held) (buffer : Bool) :
    Good (s.dataGet m buffer) (g.settle (.user m) buffer) := by
  cases hsync : (s.msgs (.user m)).syncingThread with
  | none => exact h.dispose_none hheld hsync buffer
  | some w =>
    cases w with
    | real t => exact h.dispose_real hheld hsync buffer
    | dummy d => exact h.dispose_dummy hheld hsync buffer

lemma dataGet_setCall (c : Call μ) (m : μ) (u : Use τ) (buffer : Bool) :
    (s.dataGet m buffer).setCall t c m u = (s.setCall t c m u).dataGet m buffer := by
  rw [dataGet_eq,dataGet_eq]
  cases hsync : (s.msgs (.user m)).syncingThread with
  | none => simp [hsync,taken]
  | some w =>
    cases hswap : s.swapData w with
    | none => simp [hsync,hswap,taken]
    | some a =>
      cases w <;> simp [hsync,hswap,State.setThread,State.taken]

section
variable (h : Good s g)
include h

lemma check {s' : State τ δ μ π} {r : Reply τ δ μ}
    (hstep : step smp memory s (.check t) = some (s',r)) : Good s' (next g s s' (.check t) r) := by
  simp only [step] at hstep
  by_cases hq : (s.thread t).queued = true
  case neg => simp [hq] at hstep
  rw [if_pos hq] at hstep
  cases hc : s.call t with
  | none => simp [hc] at hstep
  | put m => simp [hc] at hstep
  | get m buffer => simp [hc] at hstep
  | got m buffer =>
    simp only [hc] at hstep
    cases hstep
    have hkeep := h.keep hc
    have hheld : (s.setCall t .none m .held).use m = .held := update_self ..
    simp only [next,hc]
    cases buffer with
    | true =>
      rw [if_pos rfl,dataGet_setCall,if_pos (.inl rfl)]
      exact hkeep.dataGet hheld true
    | false =>
      by_cases hsize : (s.msgs (.user m)).size = 0
      · have hsame : s.dispose (.user m) = s.dataGet m false := by
          have : { s.msgs (.user m) with size := 0 } = s.msgs (.user m) := by rw [← hsize]
          simp [State.dataGet,this]
        rw [if_neg Bool.false_ne_true,if_pos hsize,hsame,dataGet_setCall,if_pos (.inr hsize)]
        exact hkeep.dataGet hheld false
      · rw [if_neg Bool.false_ne_true,if_neg hsize,if_neg (by simp [hsize])]
        exact hkeep

variable {swapData : Who τ δ → Option (Addr μ δ)}

/-- A thread fills in a descriptor. -/
lemma fill (hcall : s.call t = .none) (hm : s.Reusable m) (msg : Msg τ δ π)
    (hswap : ∀ w, w ≠ .real t → swapData w = s.swapData w) :
    Good ({ s with msgs := update s.msgs (.user m) msg, swapData := swapData }.setCall t .none m .free) g := by
  have hbusy : ∀ u m', s.use m' = .busy u → m' ≠ m := by
    rintro u m' hu rfl
    rcases hm with hm | ⟨hm,-⟩ <;> simp [hu] at hm
  have hc : update s.call t .none = s.call := by rw [← hcall]; exact update_eq_self ..
  refine ⟨h.txNodup,h.rxNodup,h.freeNodup,h.tx,h.rx,fun u => ?_,fun d => ?_,fun w r b p hw => ?_,
    fun m' w hm' hw => ?_⟩
  · by_cases hu : u = t
    · subst hu
      have ht := h.thread u
      simp only [ThreadOk,hcall] at ht
      exact ⟨ht.1,by simpa using ht.2⟩
    · exact (h.thread u).frame rfl (congrFun hc u) (hswap _ (by simp [hu])) rfl
        (fun m' hm' => by simp [hbusy u m' hm',hm']) fun m' w p _ hw => ⟨w,p,hw⟩
  · have hd := h.dummy d
    simp only [DummyOk,setCall_txQueue,setCall_swapData,setCall_asyncMsgFree,setCall_msgs,
      hswap (.dummy d) (by simp)]
    simpa using hd
  · have hne : b ≠ .user m := by rintro rfl; exact h.unheld hm w r p hw
    refine (h.flight w r b p hw).frame (update_of_ne hne ..) fun m' hm' hholds => ?_
    have hne' : m' ≠ m := by rintro rfl; exact hne hm'
    exact hholds.frame (fun hu => by simpa [hne'] using hu) (congrFun hc r) fun _ _ _ hp hr => ⟨hp,hr⟩
  · have hne : m' ≠ m := by rintro rfl; simp at hm'
    exact h.held m' w (by simpa [hne] using hm') (by simpa [hne] using hw)

lemma enter (hcall : s.call t = .none) (huse : s.use m = .free)
    {tx : List (Who τ δ)} {rx : List τ} {th : Thread} {c : Call μ}
    {f : Flight τ δ μ π} (htxNodup : tx.Nodup) (hrxNodup : rx.Nodup)
    (htx : ∀ u, .real u ∈ tx ↔ (update s.thread t th u).pendedOn = some .tx)
    (hrx : ∀ u, u ∈ rx ↔ (update s.thread t th u).pendedOn = some .rx)
    (hdummy : ∀ d, .dummy d ∈ tx ↔ .dummy d ∈ s.txQueue)
    (hswap : ∀ w, w ≠ .real t → swapData w = s.swapData w) (hf : ∀ r b p, f ≠ .taken r b p) {s' : State τ δ μ π}
    (hs' : s' = { s with
      txQueue := tx, rxQueue := rx, swapData := swapData, thread := update s.thread t th }.setCall t c m (.busy t))
    (ht : ThreadOk s' (update g (.real t) f) t) : Good s' (update g (.real t) f) := by
  subst hs'
  have hnone := (h.thread t).2
  simp only [hcall] at hnone
  have hsame {w r b p} : update g (.real t) f w = .taken r b p ↔ g w = .taken r b p :=
    update_taken (by simp [hnone.1]) hf
  refine ⟨htxNodup,hrxNodup,h.freeNodup,htx,hrx,fun u => ?_,fun d => ?_,fun w r b p hw => ?_,fun m' w hm hw => ?_⟩
  · by_cases hu : u = t
    · exact hu ▸ ht
    · refine (h.thread u).frame (update_of_ne hu ..) (update_of_ne hu ..) (hswap _ (by simp [hu]))
        (update_of_ne (by simp [hu]) ..) (fun m' hm' => ⟨?_,rfl⟩) fun m' w p _ hw => ⟨w,p,hsame.mpr hw⟩
      have hne : m' ≠ m := by rintro rfl; simp [huse] at hm'
      simpa [hne] using hm'
  · have hd := h.dummy d
    simp only [DummyOk,setCall_txQueue,setCall_swapData,setCall_asyncMsgFree,setCall_msgs,
      hswap (.dummy d) (by simp),hdummy d]
    simpa using hd
  · refine (h.flight w r b p (hsame.mp hw)).frame rfl fun m' hm' hholds => ?_
    have hrt : r = t → s.use m' = .held := by
      rintro rfl
      simpa [Holds,hcall] using hholds
    have hne : s.use m' = .held → m' ≠ m := by rintro hu rfl; simp [huse] at hu
    by_cases hr : r = t
    · exact .inl (by simpa [hne (hrt hr)] using hrt hr)
    · exact hholds.frame (fun hu => by simpa [hne hu] using hu) (update_of_ne hr ..)
        fun _ _ _ hp hr' => by simpa [hr] using ⟨hp,hr'⟩
  · have hne : m' ≠ m := by rintro rfl; simp at hm
    obtain ⟨r,p,hr⟩ := h.held m' w (by simpa [hne] using hm) hw
    exact ⟨r,p,hsame.mpr hr⟩

lemma pendSender {offer : Offer τ π} (hcall : s.call t = .none) (huse : s.use m = .free)
    (hswap : s.swapData (.real t) = some (.user m)) (hmsg : s.msgs (.user m) = offer.msg t (.real t) none)
    (linked : Bool) :
    Good (((s.pendSender (.real t)).setThread t fun th => th.pend (some .tx) linked).setCall t (.put m) m (.busy t))
      (update g (.real t) (.waiting offer t)) := by
  have ht := (h.thread t).2
  simp only [hcall] at ht
  have hnot : .real t ∉ s.txQueue := by simp [h.tx,ht.2]
  refine h.enter hcall huse ?_ h.rxNodup (fun u => ?_) (fun u => ?_) (by simp) (fun _ _ => rfl) (by simp) rfl ?_
  · exact (WaitQueue.pend_perm ..).nodup_iff.mpr (h.txNodup.cons hnot)
  · by_cases hu : u = t <;> simp [hu,h.tx]
  · by_cases hu : u = t <;> simp [hu,h.rx,ht.2]
  · exact ⟨by simp,by simp [hswap,hmsg]⟩

lemma pendReceiver (hcall : s.call t = .none) (huse : s.use m = .free)
    (hmsg : (s.msgs (.user m)).txTargetThread = some t) (buffer linked : Bool) :
    Good ((({ s with swapData := update s.swapData (.real t) (some (.user m)) }.pendReceiver t).setThread t
      fun th => th.pend (some .rx) linked).setCall t (.get m buffer) m (.busy t)) g := by
  have ht := (h.thread t).2
  simp only [hcall] at ht
  have hnot : t ∉ s.rxQueue := by simp [h.rx,ht.2]
  have hg : update g (.real t) .none = g := by rw [← ht.1]; exact update_eq_self ..
  rw [← hg]
  refine h.enter hcall huse h.txNodup ?_ (fun u => ?_) (fun u => ?_) (by simp) (fun w hw => update_of_ne hw ..)
    (by simp) rfl ?_
  · exact (WaitQueue.pend_perm ..).nodup_iff.mpr (h.rxNodup.cons hnot)
  · by_cases hu : u = t <;> simp [hu,h.tx,ht.2]
  · by_cases hu : u = t <;> simp [hu,h.rx]
  · exact ⟨by simp,by simp [hmsg]⟩

lemma pendUnqueued (hcall : s.call t = .none) (huse : s.use m = .free)
    (hswap : s.swapData (.real t) = some (.user m)) :
    Good ((s.setThread t fun th => th.pend none false).setCall t (.put m) m (.busy t)) g := by
  have ht := (h.thread t).2
  simp only [hcall] at ht
  have hg : update g (.real t) .none = g := by rw [← ht.1]; exact update_eq_self ..
  rw [← hg]
  refine h.enter hcall huse h.txNodup h.rxNodup (fun u => ?_) (fun u => ?_) (by simp) (fun _ _ => rfl)
    (by simp) rfl ?_
  · by_cases hu : u = t <;> simp [hu,h.tx,ht.2]
  · by_cases hu : u = t <;> simp [hu,h.rx,ht.2]
  · exact ⟨by simp,by simp [hswap]⟩

end

variable {th : Thread} {r : τ} {a : Addr μ δ}

lemma handOver_pendedOn (hp : th.pendedOn ≠ none) : th.handOver.pendedOn = none := by
  simp [Thread.handOver,Thread.unpend,Thread.unpendNoTimeout,hp]

lemma handOver_swapRetval (th : Thread) : th.handOver.swapRetval = 0 := by
  simp [Thread.handOver]

section Take
omit [DecidableEq μ]

/-- Taking a message keeps the invariant, when it does for the receiver and the sender. -/
lemma taking (h : Good s g) (howns : Owns s g w a) (hs : Taking s s' w a r m)
    (hempty : ∀ w' r' p', g w' ≠ .taken r' (.user m) p') (hsync : (s'.msgs (.user m)).syncingThread = some w)
    (hdata : (s'.msgs (.user m)).txData = p.data) (hsize : (s'.msgs (.user m)).size = p.size)
    (hthread : ∀ u, u = r ∨ w = .real u → ThreadOk s' (update g w (.taken r (.user m) p)) u)
    (hdummy : ∀ d, w = .dummy d → DummyOk s' (update g w (.taken r (.user m) p)) d) :
    Good s' (update g w (.taken r (.user m) p)) := by
  have hsame : ∀ w' r' b p', g w' = .taken r' b p' → update g w (.taken r (.user m) p) w' = .taken r' b p' := by
    intro w' r' b p' hw'
    rwa [update_of_ne (howns.taken w' r' b p' hw').1]
  refine ⟨hs.txNodup,hs.rxNodup,hs.free ▸ h.freeNodup,hs.tx,hs.rx,fun u => ?_,fun d => ?_,
    fun w' r' b p' hw' => ?_,fun m' w' hm hw' => ?_⟩
  · by_cases hu : u = r ∨ w = .real u
    · exact hthread u hu
    · obtain ⟨hur,huw⟩ := not_or.mp hu
      refine (h.thread u).frame (hs.thread u hur fun hw => absurd hw huw) (hs.call u hur)
        (congrFun hs.swapData _) (update_of_ne (Ne.symm huw) ..) (fun m' hm' => ?_)
        fun m' w' p' _ hw' => ⟨w',p',hsame _ _ _ _ hw'⟩
      have hne : m' ≠ m := by
        rintro rfl
        rcases hs.idle with hm | hm
        · simp [hm] at hm'
        · exact hur (by simpa [hm] using hm'.symm)
      exact ⟨(hs.use m' hne).trans hm',
        hs.msgs _ (Ne.symm (howns.busy u m' (Ne.symm huw) hm')) (by simpa using hne)⟩
  · by_cases hd : w = .dummy d
    · exact hdummy d hd
    · have hmsg := hs.msgs _ (Ne.symm (howns.async d (Ne.symm hd))) (by simp)
      have hold := h.dummy d
      simp only [DummyOk,update_of_ne (Ne.symm hd),hs.dummy d hd,hs.swapData,hs.free,hmsg]
      exact hold
  · by_cases hww : w' = w
    · subst hww
      rw [update_self] at hw'
      obtain ⟨rfl,rfl,rfl⟩ := Flight.taken.inj hw'
      exact ⟨hsync,hdata,hsize,m,rfl,hs.holds⟩
    · rw [update_of_ne hww] at hw'
      have hbm : b ≠ .user m := by rintro rfl; exact hempty _ _ _ hw'
      refine (h.flight w' r' b p' hw').frame (hs.msgs b (howns.taken _ _ _ _ hw').2 hbm) fun m' hm' hholds => ?_
      have hne : m' ≠ m := by rintro rfl; exact hbm hm'
      by_cases hr : r' = r
      · exact .inl ((hs.use m' hne).trans (hs.held m' (hr ▸ hholds)))
      · refine hholds.frame (hs.use m' hne).trans (hs.call r' hr) fun _ _ _ hp hret => ?_
        rw [hs.thread r' hr fun _ => hp]
        exact ⟨hp,hret⟩
  · have hne : m' ≠ m := by rintro rfl; simp [hs.busy] at hm
    have hm : s.use m' = .held := (hs.use m' hne).symm.trans hm
    rw [hs.msgs _ (Ne.symm (howns.held m' hm)) (by simpa using hne)] at hw'
    obtain ⟨r',p',hr'⟩ := h.held m' w' hm hw'
    exact ⟨r',p',hsame _ _ _ _ hr'⟩

lemma mem_unpendSender (h : Good s g) {w w' : Who τ δ} :
    w' ∈ (s.unpendSender w).txQueue ↔ w' ∈ s.txQueue ∧ w' ≠ w := by
  cases w with
  | real u => exact h.mem_leaveQueue_tx
  | dummy d =>
    simp only [unpendSender]
    rw [h.txNodup.mem_erase_iff,and_comm]

lemma unpend_queued : th.unpend.queued = th.queued := by
  unfold unpend unpendNoTimeout
  split_ifs <;> rfl

lemma unpend_pendedOn : th.unpend.pendedOn = none := by
  unfold unpend unpendNoTimeout
  split_ifs with hp
  · exact hp
  · rfl

lemma unpendSender_nodup (h : Good s g) (w : Who τ δ) :
    (s.unpendSender w).txQueue.Nodup ∧ (s.unpendSender w).rxQueue.Nodup := by
  cases w with
  | real u => exact ⟨h.leaveQueue_txNodup,h.leaveQueue_rxNodup⟩
  | dummy d => exact ⟨h.txNodup.erase _,h.rxNodup⟩

lemma unpendSender_thread (s : State τ δ μ π) (w : Who τ δ) (u : τ) :
    (s.unpendSender w).thread u = if w = .real u then (s.thread u).unpend else s.thread u := by
  cases w with
  | real u' =>
    simp only [unpendSender,setThread_thread,leaveQueue_thread,update_apply,Who.real.injEq]
    split_ifs with h₁ h₂ h₂
    · rw [h₁]
    · exact absurd h₁.symm h₂
    · exact absurd h₂.symm h₁
    · rfl
  | dummy d => rfl

lemma unpendSender_rx (h : Good s g) (hw : w ∈ s.txQueue) (u : τ) :
    u ∈ (s.unpendSender w).rxQueue ↔ u ∈ s.rxQueue := by
  cases w with
  | dummy d => rfl
  | real u' =>
    refine h.mem_leaveQueue_rx.trans ⟨And.left,fun hu => ⟨hu,?_⟩⟩
    rintro rfl
    have := (h.rx u).mp hu
    simp [(h.tx u).mp hw] at this

lemma unpendSender_others (s : State τ δ μ π) (w : Who τ δ) :
    (s.unpendSender w).msgs = s.msgs ∧ (s.unpendSender w).swapData = s.swapData ∧ (s.unpendSender w).call = s.call ∧
      (s.unpendSender w).use = s.use ∧ (s.unpendSender w).asyncMsgFree = s.asyncMsgFree := by
  cases w <;> exact ⟨rfl,rfl,rfl,rfl,rfl⟩

lemma unpendSender_pendedOn (s : State τ δ μ π) (w : Who τ δ) (u : τ) :
    ((s.unpendSender w).thread u).pendedOn = if w = .real u then none else (s.thread u).pendedOn := by
  rw [unpendSender_thread]
  split_ifs
  · exact unpend_pendedOn
  · rfl

end Take

/-- A sender hands its message over to a receiver that waits. -/
lemma handOver (h : Good s g) {tx rx : Msg τ δ π} (hrx : (s.thread r).pendedOn = some .rx)
    (hswap : s.swapData (.real r) = some (.user m)) (hwr : w ≠ .real r) (howns : Owns s g w a)
    (hsync : rx.syncingThread = some w) (hdata : rx.txData = p.data) (hsize : rx.size = p.size)
    (hthread : ∀ t, w = .real t → ThreadOk (s.handOver a r (.user m) tx rx) (update g w (.taken r (.user m) p)) t)
    (hdummy : ∀ d, w = .dummy d → DummyOk (s.handOver a r (.user m) tx rx) (update g w (.taken r (.user m) p)) d) :
    Good (s.handOver a r (.user m) tx rx) (update g w (.taken r (.user m) p)) := by
  obtain ⟨m',buffer,hc,hg,hswap',huse,-⟩ := h.receiving hrx
  obtain rfl : m = m' := by simpa [hswap] using hswap'
  have hnone : (s.thread r).handOver.pendedOn = none := handOver_pendedOn (by simp [hrx])
  have hself : (s.handOver a r (.user m) tx rx).thread r = (s.thread r).handOver := update_self ..
  have hmsg : (s.handOver a r (.user m) tx rx).msgs (.user m) = rx := update_self ..
  have htaking : Taking s (s.handOver a r (.user m) tx rx) w a r m := {
    txNodup := h.leaveQueue_txNodup
    rxNodup := h.leaveQueue_rxNodup
    tx := h.leave_tx hnone
    rx := h.leave_rx hnone
    dummy := fun d _ => h.mem_leaveQueue_tx.trans (by simp)
    free := rfl
    swapData := rfl
    msgs := fun b hba hbm => by simp [State.handOver,hba,hbm]
    thread := fun u hu _ => update_of_ne hu ..
    call := fun _ _ => rfl
    use := fun _ _ => rfl
    idle := .inr huse
    busy := huse
    held := fun m' hm' => by simpa [Holds,hc,hrx] using hm'
    holds := .inr (.inr ⟨⟨buffer,hc⟩,hself ▸ hnone,hself ▸ handOver_swapRetval _⟩) }
  refine h.taking howns htaking (fun w' r' p' hw' => ?_) (by rwa [hmsg]) (by rwa [hmsg]) (by rwa [hmsg]) ?_ hdummy
  · have := h.holder hw' huse
    simp [hc,hrx] at this
  · rintro u (rfl | hu)
    · have hflight : update g w (.taken u (.user m) p) (.real u) = .none := by
        rw [update_of_ne (Ne.symm hwr),hg]
      have hcall : (s.handOver a u (.user m) tx rx).call u = .get m buffer := hc
      refine ⟨fun hne' => absurd (hself ▸ hnone) hne',?_⟩
      simp only [hcall,hself,hnone,hflight]
      exact ⟨huse,trivial,by simp,by simp,fun _ _ => ⟨w,p,update_self ..⟩⟩
    · exact hthread u hu

/-- What the others have stays as it was when a caller of `k_mbox_get` takes the message of a
sender that waits. -/
lemma take_taking (h : Good s g) (tx rx : Msg τ δ π) (hcall : s.call t = .none) (huse : s.use m = .free)
    (hw : w ∈ s.txQueue) : Taking s
      ((((s.unpendSender w).setMsg a tx).setMsg (.user m) rx).setCall t (.got m buffer) m (.busy t)) w a t m := by
  obtain ⟨hmsgs,hsd,hcl,hus,hfr⟩ := unpendSender_others s w
  refine {
    txNodup := (h.unpendSender_nodup w).1
    rxNodup := (h.unpendSender_nodup w).2
    tx := fun u => ?_
    rx := fun u => ?_
    dummy := fun d hd => h.mem_unpendSender.trans (by simp [Ne.symm hd])
    free := hfr
    swapData := hsd
    msgs := fun b hba hbm => by simp [hba,hbm,hmsgs]
    thread := fun u hu hnone => ?_
    call := fun u hu => by simp [hu,hcl]
    use := fun m' hm' => by simp [hm',hus]
    idle := .inl huse
    busy := update_self ..
    held := fun m' hm' => by simpa [Holds,hcall] using hm'
    holds := .inr (.inl ⟨buffer,by simp⟩) }
  · refine h.mem_unpendSender.trans ?_
    simp only [setCall_thread,setMsg_thread,unpendSender_pendedOn,h.tx]
    split_ifs with hu
    · simp [hu]
    · simp [Ne.symm hu]
  · refine (h.unpendSender_rx hw u).trans ?_
    simp only [setCall_thread,setMsg_thread,unpendSender_pendedOn,h.rx]
    split_ifs with hu
    · subst hu
      simp [(h.tx u).mp hw]
    · rfl
  · have hne : w ≠ .real u := by
      rintro rfl
      simp [(h.tx u).mp hw] at hnone
    simp [unpendSender_thread,hne]

/-- A receiver takes the message of a queued sender. -/
lemma take (h : Good s g) (tx rx : Msg τ δ π) (buffer : Bool)
    (hcall : s.call t = .none) (huse : s.use m = .free) (hw : w ∈ s.txQueue) (hswap : s.swapData w = some a)
    (hempty : ∀ w' r' p', g w' ≠ .taken r' (.user m) p')
    (hsync : rx.syncingThread = some w) (hdata : rx.txData = p.data) (hsize : rx.size = p.size) :
    Good ((((s.setMsg a tx).setMsg (.user m) rx).unpendSender w).setCall t (.got m buffer) m (.busy t))
      (update g w (.taken t (.user m) p)) := by
  obtain ⟨offer,source,a',sem,hg,hswap',hmsg,howns,-⟩ := h.queued_sender hw
  obtain rfl : a = a' := some.inj (hswap.symm.trans hswap')
  have ht := (h.thread t).2
  simp only [hcall] at ht
  have hwt : w ≠ .real t := by rintro rfl; simp [ht.1] at hg
  have hcomm : ((s.setMsg a tx).setMsg (.user m) rx).unpendSender w =
      ((s.unpendSender w).setMsg a tx).setMsg (.user m) rx := by
    cases w <;> rfl
  rw [hcomm]
  obtain ⟨hmsgs,hsd,hcl,hus,hfr⟩ := unpendSender_others s w
  refine h.taking howns (h.take_taking tx rx hcall huse hw) hempty (by simpa using hsync)
    (by simpa using hdata) (by simpa using hsize) ?_ ?_
  · rintro u (rfl | rfl)
    · refine ⟨by simp [unpendSender_pendedOn,hwt,ht.2],?_⟩
      simp only [setCall_call,update_self,setCall_use,setCall_thread,setMsg_thread,unpendSender_pendedOn,
        if_neg hwt,update_of_ne (Ne.symm hwt)]
      exact ⟨trivial,ht.1,ht.2,w,p,update_self ..⟩
    · obtain ⟨m₀,offer',hc,-,hswap₀,huse₀,-⟩ := h.waiting ((h.tx u).mp hw)
      have hm₀ : m₀ ≠ m := by rintro rfl; simp [huse] at huse₀
      have hut : u ≠ t := by rintro rfl; exact hwt rfl
      have hqueued : ((s.unpendSender (.real u)).thread u).queued = false := by
        rw [unpendSender_thread,if_pos rfl,unpend_queued]
        exact ((h.thread u).1 (by simp [(h.tx u).mp hw])).2.1
      refine ⟨by simp [unpendSender_pendedOn],?_⟩
      simp [hut,hcl,hc,hsd,hswap₀,hus,hm₀,huse₀,unpendSender_pendedOn,hqueued,Ne.symm hm₀]
  · rintro d rfl
    have hd := h.dummy d
    simp only [DummyOk,hg] at hd
    simp only [DummyOk,update_self]
    exact ⟨fun hmem => (h.mem_unpendSender.mp hmem).2 rfl,by simpa [hsd] using hd.2.1,by simpa [hfr] using hd.2.2.1⟩

end Good

end Runs
end ArmFirmware.Zephyr.Mailbox
