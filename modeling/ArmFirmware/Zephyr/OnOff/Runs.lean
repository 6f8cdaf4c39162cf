import ArmFirmware.Zephyr.OnOff.Manager

/-! Every run of an on-off service, with whatever is called from its callbacks, and the assertion of
`onoff_cancel`. -/
namespace ArmFirmware.Zephyr.OnOff
open Library List Option Nat Record Leads Service State OnOff

attribute [local simp] frameClients onoffRequest onoffRelease frameGrants init onoffReset act

/-- What holds of the manager whenever its lock is free, and at the head of the loop. The length of
the queue counts only in runs in which `few` requests are queued at a time. -/
structure Tidy (few : Prop) (resets : Bool) (m : Manager) : Prop where
  on_clients : m.state = .on → m.clients = []
  refs_zero : m.state ≠ .on → m.refs = 0
  refs_lt : m.refs < 2^16
  queue : few → m.state = .off ∨ m.state = .toOff ∨ m.state = .toOn → m.clients.length < 2^16
  resettable : m.state = .error → m.clients ≠ [] → resets = true

def frameTransit (frame : Option Frame) : Bool :=
  match frame with
  | some f => f.transit.isSome
  | none => false

attribute [local simp] frameTransit

lemma refs_fold (clients : List ℕ) {refs : ℕ} (h : refs < 2^16) :
    clients.foldl (fun refs _ => (refs+1)%2^16) refs = (refs+clients.length)%2^16 := by
  induction clients generalizing refs with
  | nil => exact (mod_eq_of_lt h).symm
  | cons cli clients ih =>
    rw [foldl_cons,ih (mod_lt _ (by norm_num)),length_cons,mod_add_mod]
    congr 1
    omega

/-- What the loop leaves when it unlocks or returns. -/
structure Passed (few : Prop) (resets : Bool) (m : Manager) (evt : Event) (r : Manager × Option Frame) : Prop where
  tidy : Tidy few resets r.1
  complete : r.1.complete = false
  owed : processRecheck r.1 ≠ .nop → r.1.recheck = true
  idle : r.2 = none → r.1.processing = false ∧ r.1.recheck = false
  busy : ∀ f, r.2 = some f → r.1.processing = true ∧ f.state = r.1.state
  transit : m.state.transition.toNat+(frameTransit r.2).toNat = r.1.state.transition.toNat+if evt = .complete
    then 1 else 0
  clients : r.1.clients++frameClients r.2 = m.clients
  refs : few → r.1.refs = m.refs+(frameGrants r.2).length

section Loop
variable {few : Prop} {resets : Bool} {m : Manager}

lemma processRecheck_of_transition (h : m.state.transition = true) : processRecheck m = .nop := by
  obtain ⟨clients,monitors,lastRes,refs,state,processing,complete,recheck⟩ := m
  cases state <;> simp_all [processRecheck,transition]

/-- A transition is begun. -/
lemma begins_passed (h : Tidy few resets m) (hcomp : m.complete = false) (hstable : m.state.transition = false)
    (hrefs : m.refs = 0) (state : Service) (hstate : state.transition = true)
    (hqueue : few → state = .toOff ∨ state = .toOn → m.clients.length < 2^16) (walk : Walk) (t : Transition) :
    Passed few resets m .recheck ({ m with state := state, processing := true },some ⟨walk,state,0,[],some t⟩) := by
  have hnot : ∀ x : Service, x.transition = false → state ≠ x := by
    rintro x hx rfl
    rw [hstate] at hx
    cases hx
  constructor
  · constructor
    · exact fun hon => absurd hon (hnot .on rfl)
    · exact fun _ => hrefs
    · exact h.refs_lt
    · exact fun hfew hq => hqueue hfew (hq.resolve_left (hnot .off rfl))
    · exact fun herr => absurd herr (hnot .error rfl)
  · exact hcomp
  · exact fun hne => absurd (processRecheck_of_transition hstate) hne
  · exact fun hnone => absurd hnone (by simp)
  · rintro f ⟨⟩
    exact ⟨rfl,rfl⟩
  · simp [hstable,hstate]
  · simp
  · simp

/-- The loop is entered with a recheck. -/
lemma recheck_passed (h : Tidy few resets m) (hproc : m.processing = false) (hcomp : m.complete = false)
    (hrecheck : m.recheck = false) (fuel : ℕ) :
    ∃ r, processLoop resets (fuel+1) m .recheck = some r ∧ Passed few resets m .recheck r := by
  by_cases hoff : m.state = .off ∧ m.clients ≠ []
  · have hevt : processRecheck m = .start := by simp [processRecheck,hoff]
    refine ⟨_,by simp [processLoop,hevt]; rfl,?_⟩
    exact begins_passed h hcomp (by simp [hoff.1,transition]) (h.refs_zero (by simp [hoff.1])) .toOn rfl
      (fun hfew _ => h.queue hfew (.inl hoff.1)) _ _
  by_cases hon : m.state = .on ∧ m.refs = 0
  · have hevt : processRecheck m = .stop := by simp [processRecheck,hon]
    refine ⟨_,by simp [processLoop,hevt]; rfl,?_⟩
    exact begins_passed h hcomp (by simp [hon.1,transition]) hon.2 .toOff rfl
      (fun _ _ => by simp [h.on_clients hon.1]) _ _
  by_cases herr : m.state = .error ∧ m.clients ≠ []
  · have hresets := h.resettable herr.1 herr.2
    have hevt : processRecheck m = .reset := by simp [processRecheck,herr]
    refine ⟨_,by simp [processLoop,hevt,hresets]; rfl,?_⟩
    exact begins_passed h hcomp (by simp [herr.1,transition]) (h.refs_zero (by simp [herr.1])) .resetting rfl
      (by simp) _ _
  · have hnop : processRecheck m = .nop := by simp only [processRecheck,hoff,hon,herr,if_false]
    refine ⟨(m,none),by simp [processLoop,hnop],h,hcomp,fun hne => absurd hnop hne,fun _ => ⟨hproc,hrecheck⟩,
      by simp,?_,?_,?_⟩
    · simp
    · simp
    · simp

/-- What `process_complete` does: the manager is in a stable state, and what that state still needs is noted. -/
structure Completed (few : Prop) (resets : Bool) (m m' : Manager) (moved : List ℕ) : Prop where
  tidy : Tidy few resets m'
  stable : m'.state.transition = false
  complete : m'.complete = m.complete
  processing : m'.processing = m.processing
  owed : processRecheck m' ≠ .nop → m'.recheck = true
  clients : m'.clients++moved = m.clients
  refs : few → m'.refs = m.refs+(if m'.state = .on then moved else []).length

lemma settle_eq (m : Manager) : settle m = { m with recheck := m.recheck || decide (processRecheck m ≠ .nop) } := by
  by_cases h : processRecheck m = .nop <;> simp [settle,h]

lemma Completed.settle {moved : List ℕ} {m' : Manager} (htidy : Tidy few resets m')
    (hstable : m'.state.transition = false) (hcomplete : m'.complete = m.complete)
    (hprocessing : m'.processing = m.processing)
    (hclients : m'.clients++moved = m.clients)
    (hrefs : few → m'.refs = m.refs+(if m'.state = .on then moved else []).length) :
    Completed few resets m (settle m') moved := by
  rw [settle_eq]
  refine ⟨{ htidy with },hstable,hcomplete,hprocessing,?_,hclients,hrefs⟩
  intro hne
  have hsame :
    processRecheck { m' with recheck := m'.recheck || decide (processRecheck m' ≠ .nop) } = processRecheck m' := rfl
  rw [hsame] at hne
  simp [hne]

/-- `process_complete` ends the transition. -/
lemma processComplete_spec (h : Tidy few resets m) (hstate : m.state.transition = true) (res : ℤ) :
    Completed few resets m (processComplete m res).1 (processComplete m res).2 := by
  have hon : m.state ≠ .on := by
    intro hon
    simp [hon,transition] at hstate
  have hrefs := h.refs_zero hon
  rw [processComplete]
  by_cases hres : res < 0
  · rw [if_pos hres]
    exact ⟨⟨by simp,fun _ => hrefs,h.refs_lt,by simp,by simp⟩,rfl,rfl,rfl,by simp [processRecheck],by simp,by simp⟩
  rw [if_neg hres]
  cases hs : m.state with
  | toOn =>
    have hfold := refs_fold m.clients h.refs_lt
    apply Completed.settle
    · refine ⟨by simp,by simp,?_,by simp,by simp⟩
      show m.clients.foldl (fun refs _ => (refs+1)%2^16) m.refs < 2^16
      omega
    · rfl
    · rfl
    · rfl
    · simp
    · intro hfew
      have hqueue := h.queue hfew (.inr (.inr hs))
      rw [hfold,mod_eq_of_lt (by omega)]
      simp
  | resetting =>
    dsimp only
    exact .settle ⟨by simp,fun _ => hrefs,h.refs_lt,by simp,by simp⟩ rfl rfl rfl (by simp) (by simp)
  | toOff =>
    exact .settle ⟨by simp,fun _ => hrefs,h.refs_lt,fun hfew _ => h.queue hfew (.inr (.inl hs)),
      by simp⟩ rfl rfl rfl (by simp) (by simp)
  | off | on | error => simp [hs,transition] at hstate

/-- The loop is entered with a completion. -/
lemma complete_passed (h : Tidy few resets m) (hproc : m.processing = false) (hcomp : m.complete = false)
    (hstate : m.state.transition = true) (fuel : ℕ) :
    ∃ r, processLoop resets (fuel+2) m .complete = some r ∧ Passed few resets m .complete r := by
  have hspec := processComplete_spec h hstate m.lastRes
  obtain ⟨m',hm'⟩ : ∃ m', (processComplete m m.lastRes).1 = m' := ⟨_,rfl⟩
  obtain ⟨moved,hmoved⟩ : ∃ moved, (processComplete m m.lastRes).2 = moved := ⟨_,rfl⟩
  rw [hm',hmoved] at hspec
  have hproc' := hspec.processing.trans hproc
  have hcomp' := hspec.complete.trans hcomp
  by_cases hunlock : (m.state ≠ m'.state ∧ m'.monitors ≠ []) ∨ moved ≠ []
  · refine ⟨_,by
      simp only [processLoop,act,hm',hmoved,reduceCtorEq,if_false,isSome_none,Bool.false_eq_true,or_false,
        if_pos hunlock]
      rfl,?_⟩
    have htidy := hspec.tidy
    refine ⟨{ htidy with },hcomp',hspec.owed,by simp,?_,?_,?_,?_⟩
    · rintro f ⟨⟩
      exact ⟨rfl,rfl⟩
    · simp [hstate,hspec.stable]
    · exact hspec.clients
    · exact hspec.refs
  have hmoved' := not_not.mp (not_or.mp hunlock).2
  have hclients : m'.clients = m.clients := by
    have := hspec.clients
    rwa [hmoved',append_nil] at this
  have hrefs : few → m'.refs = m.refs := fun hfew => by
    have := hspec.refs hfew
    simpa [hmoved'] using this
  by_cases hrecheck : m'.recheck = true
  · have htidy := hspec.tidy
    have htidy' : Tidy few resets { m' with recheck := false } := { htidy with }
    obtain ⟨r,hr,hpassed⟩ := recheck_passed htidy' hproc' hcomp' rfl fuel
    refine ⟨r,by
      rw [← hr,processLoop]
      simp only [act,hm',hmoved,reduceCtorEq,if_false,isSome_none,Bool.false_eq_true,or_false,
        if_neg hunlock,deferred,hcomp',hrecheck,if_true],?_⟩
    refine ⟨hpassed.tidy,hpassed.complete,hpassed.owed,hpassed.idle,hpassed.busy,?_,hpassed.clients.trans hclients,
      fun hfew => (hpassed.refs hfew).trans (congrArg (· + _) (hrefs hfew))⟩
    have htransit := hpassed.transit
    simp only [hspec.stable,hstate,reduceCtorEq,if_false,if_true,Bool.toNat_false,Bool.toNat_true] at htransit ⊢
    omega
  · refine ⟨(m',none),by
      simp only [processLoop,act,hm',hmoved,reduceCtorEq,if_false,isSome_none,Bool.false_eq_true,or_false,
        if_neg hunlock,deferred,hcomp',hrecheck,if_true],?_⟩
    refine ⟨hspec.tidy,hcomp',hspec.owed,fun _ => ⟨hproc',by simpa using hrecheck⟩,by simp,?_,?_,?_⟩
    · simp [hstate,hspec.stable]
    · simpa using hclients
    · simpa using hrefs

end Loop

/-- The part of the invariant that does not speak of the flags. An event that is about to be
processed counts. -/
structure Core (few : Prop) (resets : Bool) (evt : Event) (s : State) (g : Record) : Prop where
  tidy : Tidy few resets s.mgr
  owed : processRecheck s.mgr ≠ .nop → s.mgr.recheck = true ∨ evt = .recheck
  transit : s.transits+s.mgr.complete.toNat+(frameTransit s.frame).toNat+(if evt = .complete then 1 else 0) =
    s.mgr.state.transition.toNat
  nodup : s.waiting.Nodup
  once : ∀ cli, g.accepted cli = g.notified cli+g.cancelled cli+if cli ∈ s.waiting then 1 else 0
  refs : few → s.mgr.refs+g.released = g.granted+(frameGrants s.frame).length+s.pending.length

/-- While no call of `process_event` is under way no flag is set. -/
structure Flags (s : State) : Prop where
  idle : s.frame = none → s.mgr.processing = false ∧ s.mgr.complete = false ∧ s.mgr.recheck = false
  busy : ∀ f, s.frame = some f → s.mgr.processing = true ∧ f.state = s.mgr.state

def Good (few : Prop) (resets : Bool) (s : State) (g : Record) : Prop := Core few resets .nop s g ∧ Flags s

section Steps
variable {few : Prop} {resets : Bool} {s : State} {g : Record}

lemma Good.settled (h : Good few resets s g) (hnone : s.frame = none) :
    (s.mgr.state = .off ∨ s.mgr.state = .error → s.mgr.clients = []) ∧ (s.mgr.state = .on → 0 < s.mgr.refs) := by
  obtain ⟨hcore,hflags⟩ := h
  have hnop : processRecheck s.mgr = .nop := by
    by_contra hne
    have := (hcore.owed hne).resolve_right (by simp)
    rw [(hflags.idle hnone).2.2] at this
    cases this
  simp only [processRecheck] at hnop
  split_ifs at hnop with hoff hon herr
  refine ⟨?_,?_⟩
  · rintro (hstate | hstate)
    · simpa [hstate] using hoff
    · simpa [hstate] using herr
  · intro hstate
    simp only [hstate,true_and] at hon
    omega

lemma Good.sound (h : Good few resets s g) (hfew : few) : Sound s g := by
  have ⟨hcore,hflags⟩ := h
  have htransit := hcore.transit
  have hle := Bool.toNat_le s.mgr.state.transition
  refine ⟨by omega,hcore.once,hcore.refs hfew,fun hne => ?_,h.settled,fun hnone hclients => ?_⟩
  · by_contra hon
    exact hne (hcore.tidy.refs_zero hon)
  · have hsettled := (h.settled hnone).1
    have hon : s.mgr.state ≠ .on := fun hon => hclients (hcore.tidy.on_clients hon)
    have hstate : s.mgr.state.transition = true := by
      cases hs : s.mgr.state <;> simp_all [transition]
    rw [(hflags.idle hnone).2.1,hnone,hstate] at htransit
    simpa using htransit

variable {evt : Event}

/-- `process_event` runs its loop until it unlocks or returns. -/
lemma Core.enter (h : Core few resets evt s g) (hframe : s.frame = none) (hproc : s.mgr.processing = false)
    (hcomp : s.mgr.complete = false) (hevt : evt = .recheck ∧ s.mgr.recheck = false ∨ evt = .complete) :
    ∃ r, processLoop resets 3 s.mgr evt = some r ∧ Good few resets { s with mgr := r.1, frame := r.2 } g := by
  have htransit := h.transit
  rw [hcomp,hframe] at htransit
  have hpassed : ∃ r, processLoop resets 3 s.mgr evt = some r ∧ Passed few resets s.mgr evt r := by
    rcases hevt with ⟨rfl,hrecheck⟩ | rfl
    · exact recheck_passed h.tidy hproc hcomp hrecheck 2
    · refine complete_passed h.tidy hproc hcomp ?_ 1
      by_contra hstate
      rw [Bool.not_eq_true] at hstate
      simp [hstate] at htransit
  obtain ⟨r,hr,hpassed⟩ := hpassed
  have hwaiting : { s with mgr := r.1, frame := r.2 : State }.waiting = s.waiting := by
    simp only [waiting,hpassed.clients,hframe]
    simp
  refine ⟨r,hr,⟨hpassed.tidy,fun hne => .inl (hpassed.owed hne),?_,hwaiting ▸ h.nodup,hwaiting ▸ h.once,?_⟩,?_,?_⟩
  · have hnext := hpassed.transit
    simp only [hpassed.complete,frameTransit,Bool.toNat_false,reduceCtorEq,if_false] at htransit hnext ⊢
    omega
  · intro hfew
    have hrefs := h.refs hfew
    rw [hframe] at hrefs
    simp only [frameGrants,length_nil] at hrefs
    simp only [hpassed.refs hfew]
    omega
  · exact fun hnone => ⟨(hpassed.idle hnone).1,hpassed.complete,(hpassed.idle hnone).2⟩
  · exact hpassed.busy

/-- `process_event` with a recheck or a completion. -/
lemma Core.processEvent (h : Core few resets evt s g) (hflags : Flags s) (hevt : evt = .recheck ∨ evt = .complete) :
    ∃ s', processEvent resets s evt = some s' ∧ Good few resets s' g := by
  cases hframe : s.frame with
  | none =>
    obtain ⟨hproc,hcomp,hrecheck⟩ := hflags.idle hframe
    obtain ⟨r,hr,hgood⟩ := h.enter hframe hproc hcomp (hevt.imp_left fun he => ⟨he,hrecheck⟩)
    exact ⟨_,by simp [OnOff.processEvent,hproc,hr],hgood⟩
  | some f =>
    obtain ⟨hproc,hstate⟩ := hflags.busy f hframe
    have htransit := h.transit
    rcases hevt with rfl | rfl
    · -- the event is recorded for the call that is under way
      refine ⟨{ s with mgr.recheck := true },by simp [processEvent,hproc],?_,?_⟩
      · have htidy := h.tidy
        exact ⟨{ htidy with },fun _ => .inl rfl,htransit,h.nodup,h.once,h.refs⟩
      · exact ⟨fun hnone => (nomatch hframe.symm.trans hnone),fun f' hf' => hflags.busy f' hf'⟩
    · refine ⟨{ s with mgr.complete := true },by simp [processEvent,hproc],?_,?_⟩
      · have htidy := h.tidy
        have hle := Bool.toNat_le s.mgr.state.transition
        refine ⟨{ htidy with },?_,?_,h.nodup,h.once,h.refs⟩
        · intro hne
          exact .inl ((h.owed hne).resolve_right (by simp))
        · simp only [if_true,Bool.toNat_true,reduceCtorEq,if_false] at htransit ⊢
          omega
      · exact ⟨fun hnone => (nomatch hframe.symm.trans hnone),fun f' hf' => hflags.busy f' hf'⟩

lemma bump_apply (f : ℕ → ℕ) (i c : ℕ) : bump f i c = f c+if c = i then 1 else 0 := by
  by_cases h : c = i
  · subst h
    simp [bump]
  · simp [bump,h]

variable {s' : State} {cli : ℕ}

lemma Core.joined (h : Core few resets .nop s g) (hcli : cli ∉ s.waiting)
    (hwaiting : List.Perm s'.waiting (cli::s.waiting)) :
    s'.waiting.Nodup ∧ ∀ c, bump g.accepted cli c = g.notified c+g.cancelled c+if c ∈ s'.waiting then 1 else 0 := by
  refine ⟨hwaiting.nodup_iff.mpr (nodup_cons.mpr ⟨hcli,h.nodup⟩),fun c => ?_⟩
  have hmem : c ∈ s'.waiting ↔ c = cli ∨ c ∈ s.waiting := by rw [hwaiting.mem_iff,mem_cons]
  have honce := h.once c
  rw [bump_apply,honce]
  simp only [hmem]
  by_cases hc : c = cli
  · subst hc
    simp [hcli]
  · simp [hc]

lemma Core.left (h : Core few resets .nop s g) (done : ℕ → ℕ) (hwaiting : List.Perm s.waiting (cli::s'.waiting))
    (hdone : ∀ c, done c = g.notified c+g.cancelled c+if c = cli then 1 else 0) :
    s'.waiting.Nodup ∧ ∀ c, g.accepted c = done c+if c ∈ s'.waiting then 1 else 0 := by
  obtain ⟨hcli,hnodup⟩ := nodup_cons.mp (hwaiting.nodup_iff.mp h.nodup)
  refine ⟨hnodup,fun c => ?_⟩
  have hmem : c ∈ s.waiting ↔ c = cli ∨ c ∈ s'.waiting := by rw [hwaiting.mem_iff,mem_cons]
  have honce := h.once c
  simp only [hmem] at honce
  rw [honce,hdone]
  by_cases hc : c = cli
  · subst hc
    simp [hcli]
  · simp [hc]

lemma Core.queue (h : Core few resets .nop s g) (hcli : cli ∉ s.waiting)
    (htidy : Tidy few resets { s.mgr with clients := s.mgr.clients++[cli] })
    (hevt : evt = .recheck ∨ evt = .nop ∧ s.mgr.state.transition = true) :
    Core few resets evt (s.append cli) { g with accepted := bump g.accepted cli } := by
  have hwaiting : List.Perm (s.append cli).waiting (cli::s.waiting) := by
    simp only [State.waiting,State.append,append_assoc]
    exact perm_middle
  obtain ⟨hnodup,honce⟩ := h.joined hcli hwaiting
  refine ⟨htidy,?_,?_,hnodup,honce,h.refs⟩
  · intro hne
    rcases hevt with rfl | ⟨-,hstate⟩
    · exact .inr rfl
    · exact absurd (processRecheck_of_transition (m := { s.mgr with clients := s.mgr.clients++[cli] }) hstate) hne
  · have htransit := h.transit
    rcases hevt with rfl | ⟨rfl,-⟩ <;> exact htransit

section
variable (h : Good few resets s g) {s' : State} {r : Reply}
include h

lemma Good.refused {a : Action} {e : Errno} (hs : some (s,Reply.rv (.error e)) = some (s',r)) :
    Good few resets s' (g.next s s' a r) := by
  cases hs
  cases a <;> exact h

variable {cli : ℕ}

lemma Good.request {notify : Notify}
    (hcare : few → Careful s (.request cli notify)) (hs : onoffRequest resets s cli notify = some (s',r)) :
    Good few resets s' (g.next s s' (.request cli notify) r) := by
  have ⟨hcore,hflags⟩ := h
  have htidy := hcore.tidy
  -- a client of a transition that is under way is queued
  have hqueue : s.mgr.state = .toOff ∨ s.mgr.state = .toOn → cli ∉ s.waiting →
      Good few resets (s.append cli) { g with accepted := bump g.accepted cli } := by
    intro hstate hcli
    have hlen : few → _ := fun hfew => hcare hfew (.inr hstate)
    refine ⟨hcore.queue hcli ⟨?_,htidy.refs_zero,htidy.refs_lt,fun hfew _ => ?_,?_⟩ (.inr ⟨rfl,?_⟩),hflags.1,
      hflags.2⟩
    · rcases hstate with hstate | hstate <;> simp [hstate]
    · have := hlen hfew
      simp
      omega
    all_goals rcases hstate with hstate | hstate <;> simp [hstate,transition]
  by_cases hcli : cli ∈ s.waiting
  · simp [hcli] at hs
  cases hvalid : validateArgs notify with
  | error e => exact h.refused (by simpa [hcli,hvalid] using hs)
  | ok u =>
    by_cases hmax : s.mgr.refs = 2^16-1
    · exact h.refused (by simpa [hcli,hvalid,hmax] using hs)
    simp only [onoffRequest,hcli,hvalid,hmax,if_false] at hs
    cases hstate : s.mgr.state with
    | on =>
      simp only [hstate] at hs
      cases hs
      have hlt := htidy.refs_lt
      have hmod : (s.mgr.refs+1)%2^16 = s.mgr.refs+1 := mod_eq_of_lt (by omega)
      have hwaiting : List.Perm (s.acquire cli).waiting (cli::s.waiting) := by
        simp only [waiting,acquire,← append_assoc]
        exact perm_append_singleton _ _
      obtain ⟨hnodup,honce⟩ := hcore.joined hcli hwaiting
      refine ⟨⟨⟨fun _ => htidy.on_clients hstate,fun hne => absurd hstate hne,mod_lt _ (by norm_num),htidy.queue,
        htidy.resettable⟩,?_,hcore.transit,hnodup,honce,?_⟩,hflags.1,hflags.2⟩
      · intro hne
        have hused : (s.acquire cli).mgr.refs ≠ 0 := by
          show (s.mgr.refs+1)%2^16 ≠ 0
          omega
        exact absurd (by simp [processRecheck,show (s.acquire cli).mgr.state = .on from hstate,hused]) hne
      · intro hfew
        have hrefs := hcore.refs hfew
        show (s.mgr.refs+1)%2^16+g.released = g.granted+(frameGrants s.frame).length+(s.pending++[cli]).length
        rw [hmod,length_append,length_singleton]
        omega
    | off =>
      simp only [hstate] at hs
      have hlen : few → (s.mgr.clients++[cli]).length < 2^16 := fun hfew => by
        have := hcare hfew (.inl hstate)
        simp
        omega
      have hnew : Core few resets .recheck (s.append cli) { g with accepted := bump g.accepted cli } :=
        hcore.queue hcli ⟨by simp [hstate],htidy.refs_zero,htidy.refs_lt,fun hfew _ => hlen hfew,by simp [hstate]⟩
          (.inl rfl)
      obtain ⟨t,ht,hgood⟩ := hnew.processEvent ⟨hflags.1,hflags.2⟩ (.inl rfl)
      rw [ht] at hs
      cases hs
      exact hgood
    | toOff =>
      simp only [hstate] at hs
      cases hs
      exact hqueue (.inl hstate) hcli
    | toOn =>
      simp only [hstate] at hs
      cases hs
      exact hqueue (.inr hstate) hcli
    | resetting => exact h.refused (by simpa [hstate] using hs)
    | error => exact h.refused (by simpa [hstate] using hs)

lemma Good.release (hs : onoffRelease resets s = some (s',r)) : Good few resets s' (g.next s s' .release r) := by
  have ⟨hcore,hflags⟩ := h
  have htidy := hcore.tidy
  cases hstate : s.mgr.state with
  | on =>
    by_cases hzero : s.mgr.refs = 0
    · simp [hstate,hzero] at hs
    have hcore' : ∀ evt, (evt = .recheck ∨ evt = .nop ∧ s.drop.mgr.refs ≠ 0) →
        Core few resets evt s.drop { g with released := g.released+1 } := by
      intro evt hevt
      have hlt := htidy.refs_lt
      refine ⟨⟨htidy.on_clients,fun hne => absurd hstate hne,?_,htidy.queue,htidy.resettable⟩,?_,?_,hcore.nodup,
        hcore.once,?_⟩
      · show s.mgr.refs-1 < 2^16
        omega
      · intro hne
        rcases hevt with rfl | ⟨-,hused⟩
        · exact .inr rfl
        · exact absurd (by simp [processRecheck,show s.drop.mgr.state = .on from hstate,hused]) hne
      · have htransit := hcore.transit
        rcases hevt with rfl | ⟨rfl,-⟩ <;> exact htransit
      · intro hfew
        have hrefs := hcore.refs hfew
        show s.mgr.refs-1+(g.released+1) = g.granted+(frameGrants s.frame).length+s.pending.length
        omega
    have hflags' : Flags s.drop := ⟨hflags.1,hflags.2⟩
    simp only [onoffRelease,hstate,hzero,if_false] at hs
    by_cases hlast : s.drop.mgr.refs = 0
    · obtain ⟨t,ht,hgood⟩ := (hcore' .recheck (.inl rfl)).processEvent hflags' (.inl rfl)
      rw [if_pos hlast,ht] at hs
      cases hs
      exact hgood
    · rw [if_neg hlast] at hs
      cases hs
      exact ⟨hcore' .nop (.inr ⟨rfl,hlast⟩),hflags'⟩
  | off | toOn | toOff | resetting | error => exact h.refused (by simpa [hstate] using hs)

lemma Good.reset {notify : Notify}
    (hs : onoffReset resets s cli notify = some (s',r)) :
    Good few resets s' (g.next s s' (.reset cli notify) r) := by
  have ⟨hcore,hflags⟩ := h
  have htidy := hcore.tidy
  by_cases hcli : cli ∈ s.waiting
  · simp [hcli] at hs
  cases hvalid : validateArgs notify with
  | error e => exact h.refused (by simpa [hcli,hvalid] using hs)
  | ok u =>
    by_cases hresets : resets = false
    · exact h.refused (by simpa [hcli,hvalid,hresets] using hs)
    simp only [onoffReset,hcli,hvalid,if_false,if_neg hresets] at hs
    have hresets : resets = true := by simpa using hresets
    cases hstate : s.mgr.state with
    | error =>
      simp only [hstate] at hs
      have hnew : Core few resets .recheck (s.append cli) { g with accepted := bump g.accepted cli } :=
        hcore.queue hcli ⟨by simp [hstate],htidy.refs_zero,htidy.refs_lt,by simp [hstate],fun _ _ => hresets⟩
          (.inl rfl)
      obtain ⟨t,ht,hgood⟩ := hnew.processEvent ⟨hflags.1,hflags.2⟩ (.inl rfl)
      rw [ht] at hs
      cases hs
      exact hgood
    | resetting =>
      simp only [hstate] at hs
      cases hs
      exact ⟨hcore.queue hcli ⟨by simp [hstate],htidy.refs_zero,htidy.refs_lt,by simp [hstate],fun _ _ => hresets⟩
        (.inr ⟨rfl,by simp [hstate,transition]⟩),hflags.1,hflags.2⟩
    | off | on | toOn | toOff => exact h.refused (by simpa [hstate] using hs)

lemma Good.cancel (cli : ℕ) :
    Good few resets (onoffCancel s cli).1 (g.next s (onoffCancel s cli).1 (.cancel cli) (onoffCancel s cli).2) := by
  obtain ⟨hcore,hflags⟩ := h
  have htidy := hcore.tidy
  by_cases hcli : cli ∈ s.mgr.clients
  · simp only [onoffCancel,hcli,if_true]
    have hwaiting : List.Perm s.waiting (cli::{ s with mgr.clients := s.mgr.clients.erase cli : State }.waiting) :=
      ((perm_cons_erase hcli).append_right _).append_right _
    obtain ⟨hnodup,honce⟩ := hcore.left (fun c => g.notified c+bump g.cancelled cli c) hwaiting
      fun c => by rw [bump_apply]; omega
    have hne := ne_nil_of_mem hcli
    refine ⟨⟨⟨fun hon => absurd (htidy.on_clients hon) hne,htidy.refs_zero,htidy.refs_lt,?_,
      fun herr _ => htidy.resettable herr hne⟩,
      ?_,hcore.transit,hnodup,honce,hcore.refs⟩,hflags.1,hflags.2⟩
    · intro hfew hstate
      exact (length_erase_le ..).trans_lt (htidy.queue hfew hstate)
    · -- with one client less there is no more to do
      intro howed
      refine hcore.owed fun hnop => howed ?_
      simp only [processRecheck] at hnop ⊢
      split_ifs at hnop with hoff hon
      rw [if_neg (by tauto),if_neg hon,if_neg (by tauto)]
  · simp only [onoffCancel,hcli,if_false]
    exact ⟨hcore,hflags⟩

lemma Good.monitors (monitors : List ℕ) : Good few resets { s with mgr.monitors := monitors } g := by
  obtain ⟨hcore,hflags⟩ := h
  have htidy := hcore.tidy
  exact ⟨⟨{ htidy with },hcore.2,hcore.3,hcore.4,hcore.5,hcore.6⟩,hflags.1,hflags.2⟩

lemma Good.complete {res : ℤ} (hs : transitionComplete resets s res = some (s',r)) :
    Good few resets s' (g.next s s' (.complete res) r) := by
  obtain ⟨hcore,hflags⟩ := h
  have htidy := hcore.tidy
  by_cases hzero : s.transits = 0
  · simp [transitionComplete,hzero] at hs
  have hnew : Core few resets .complete { s with mgr.lastRes := res, transits := s.transits-1 } g := by
    refine ⟨{ htidy with },?_,?_,hcore.nodup,hcore.once,hcore.refs⟩
    · intro hne
      exact .inl ((hcore.owed hne).resolve_right (by simp))
    · have htransit := hcore.transit
      simp only [reduceCtorEq,if_false,if_true] at htransit ⊢
      omega
  obtain ⟨t,ht,hgood⟩ := hnew.processEvent ⟨hflags.1,hflags.2⟩ (.inr rfl)
  simp only [transitionComplete,hzero,if_false,ht,map_some] at hs
  cases hs
  exact hgood

lemma Good.notifyOne (hs : notifyOne s cli = some (s',r)) : Good few resets s' (g.next s s' (.notifyOne cli) r) := by
  obtain ⟨hcore,hflags⟩ := h
  by_cases hcli : cli ∈ s.pending
  · simp only [OnOff.notifyOne,hcli,if_true] at hs
    cases hs
    have hwaiting : List.Perm s.waiting (cli::{ s with pending := s.pending.erase cli : State }.waiting) := by
      refine ((perm_cons_erase hcli).append_left (s.mgr.clients++frameClients s.frame)).trans ?_
      exact perm_middle
    obtain ⟨hnodup,honce⟩ := hcore.left (fun c => bump g.notified cli c+g.cancelled c) hwaiting
      fun c => by rw [bump_apply]; omega
    refine ⟨⟨hcore.tidy,hcore.owed,hcore.transit,hnodup,honce,?_⟩,hflags.1,hflags.2⟩
    intro hfew
    have hrefs := hcore.refs hfew
    have hlen := length_erase_of_mem hcli
    have hpos := length_pos_of_mem hcli
    show s.mgr.refs+g.released = g.granted+1+(frameGrants s.frame).length+(s.pending.erase cli).length
    omega
  · simp [OnOff.notifyOne,hcli] at hs

variable {f : Frame}

lemma Good.callMonitor (hframe : s.frame = some f) (mon : Option ℕ) :
    Good few resets (callMonitor s f mon).1 (g.next s (callMonitor s f mon).1 .proceed (callMonitor s f mon).2) := by
  obtain ⟨mgr,frame,pending,transits⟩ := s
  obtain rfl : frame = some f := hframe
  obtain ⟨hcore,hflags⟩ := h
  have hwalk : ∀ walk, Good few resets ⟨mgr,some { f with walk := walk },pending,transits⟩ g := by
    intro walk
    refine ⟨{ hcore with },by simp,?_⟩
    rintro f' ⟨⟩
    exact hflags.busy f rfl
  cases mon with
  | none => exact hwalk .finished
  | some mon => exact hwalk _

/-- A client is notified by the call of `process_event` that is under way. -/
lemma Good.notify (hframe : s.frame = some f) {clients : List ℕ} (hclients : f.clients = cli::clients) :
    Good few resets { s with frame := some { f with clients := clients } }
      { g with notified := bump g.notified cli, granted := g.granted+if f.state = .on then 1 else 0 } := by
  obtain ⟨hcore,hflags⟩ := h
  have hwaiting :
    List.Perm s.waiting (cli::{ s with frame := some { f with clients := clients } : State }.waiting) := by
    simp only [waiting,hframe,frameClients,map_some,getD_some,hclients,append_assoc,cons_append]
    exact perm_middle
  obtain ⟨hnodup,honce⟩ := hcore.left (fun c => bump g.notified cli c+g.cancelled c) hwaiting
    fun c => by rw [bump_apply]; omega
  have htransit := hcore.transit
  rw [hframe] at htransit
  refine ⟨⟨hcore.tidy,hcore.owed,htransit,hnodup,honce,?_⟩,by simp,?_⟩
  · intro hfew
    have hrefs := hcore.refs hfew
    simp only [hframe,frameGrants,hclients] at hrefs ⊢
    split_ifs at hrefs ⊢
    · rw [length_cons] at hrefs
      omega
    · omega
  · rintro f' ⟨⟩
    exact hflags.busy f hframe

lemma Good.transit (hframe : s.frame = some f) {t : Transition} (ht : f.transit = some t) :
    Good few resets { s with frame := some { f with transit := none }, transits := s.transits+1 } g := by
  obtain ⟨mgr,frame,pending,transits⟩ := s
  obtain rfl : frame = some f := hframe
  obtain ⟨hcore,hflags⟩ := h
  refine ⟨⟨hcore.tidy,hcore.owed,?_,hcore.nodup,hcore.once,hcore.refs⟩,by simp,?_⟩
  · have htransit := hcore.transit
    simp only [frameTransit,ht,isSome_some,isSome_none,Bool.toNat_true,Bool.toNat_false] at htransit ⊢
    omega
  · rintro f' ⟨⟩
    exact hflags.busy f rfl

lemma Good.relock (hframe : s.frame = some f) (hclients : f.clients = []) (ht : f.transit = none) :
    Core few resets .nop { s with mgr.processing := false, frame := none } g := by
  obtain ⟨mgr,frame,pending,transits⟩ := s
  obtain ⟨walk,state,res,clients,transit⟩ := f
  obtain rfl : frame = some ⟨walk,state,res,clients,transit⟩ := hframe
  obtain rfl : clients = [] := hclients
  obtain rfl : transit = none := ht
  obtain ⟨hcore,-⟩ := h
  have htidy := hcore.tidy
  refine ⟨{ htidy with },hcore.owed,hcore.transit,hcore.nodup,hcore.once,?_⟩
  have hrefs := hcore.refs
  simp only [frameGrants,ite_self] at hrefs
  exact hrefs

end

/-- The loop goes on with what was deferred. -/
lemma Core.resume (h : Core few resets .nop s g) (hframe : s.frame = none) (hproc : s.mgr.processing = false) :
    ∃ r, (if (deferred s.mgr).2 = .nop then some ((deferred s.mgr).1,none)
      else processLoop resets 3 (deferred s.mgr).1 (deferred s.mgr).2) = some r ∧
      Good few resets { s with mgr := r.1, frame := r.2 } g := by
  have htidy := h.tidy
  have htransit := h.transit
  by_cases hcomp : s.mgr.complete = true
  · have hcore : Core few resets .complete { s with mgr.complete := false } g := by
      refine ⟨{ htidy with },?_,?_,h.nodup,h.once,h.refs⟩
      · exact fun hne => .inl ((h.owed hne).resolve_right (by simp))
      · simpa [hcomp,add_assoc,add_comm,add_left_comm] using htransit
    obtain ⟨r,hr,hgood⟩ := hcore.enter hframe hproc rfl (.inr rfl)
    have hdeferred : deferred s.mgr = ({ s.mgr with complete := false },.complete) := by rw [deferred,if_pos hcomp]
    refine ⟨r,?_,hgood⟩
    rw [hdeferred,if_neg (by simp)]
    exact hr
  rw [Bool.not_eq_true] at hcomp
  by_cases hrecheck : s.mgr.recheck = true
  · have hcore : Core few resets .recheck { s with mgr.recheck := false } g :=
      ⟨{ htidy with },fun _ => .inr rfl,htransit,h.nodup,h.once,h.refs⟩
    obtain ⟨r,hr,hgood⟩ := hcore.enter hframe hproc hcomp (.inl ⟨rfl,rfl⟩)
    have hdeferred : deferred s.mgr = ({ s.mgr with recheck := false },.recheck) := by
      rw [deferred,if_neg (by simp [hcomp]),if_pos hrecheck]
    refine ⟨r,?_,hgood⟩
    rw [hdeferred,if_neg (by simp)]
    exact hr
  · rw [Bool.not_eq_true] at hrecheck
    refine ⟨(s.mgr,none),by simp [deferred,hcomp,hrecheck],?_⟩
    rw [show ({ s with mgr := s.mgr, frame := none } : State) = s by rw [← hframe]]
    exact ⟨h,fun _ => ⟨hproc,hcomp,hrecheck⟩,fun f hf => (nomatch hframe.symm.trans hf)⟩

/-- The call of `process_event` that is under way goes on. -/
lemma Good.proceed (h : Good few resets s g) {r : Reply} (hs : proceed resets s = some (s',r)) :
    Good few resets s' (g.next s s' .proceed r) := by
  cases hframe : s.frame with
  | none => simp [OnOff.proceed,hframe] at hs
  | some f =>
    obtain ⟨walk,state,res,clients,transit⟩ := f
    simp only [OnOff.proceed,hframe] at hs
    cases walk with
    | begin =>
      obtain ⟨rfl,rfl⟩ := Prod.ext_iff.mp (some.inj hs)
      exact h.callMonitor hframe _
    | next mon =>
      obtain ⟨rfl,rfl⟩ := Prod.ext_iff.mp (some.inj hs)
      exact h.callMonitor hframe _
    | finished =>
      cases clients with
      | cons cli clients =>
        cases hs
        exact h.notify hframe rfl
      | nil =>
        cases transit with
        | some t =>
          cases hs
          exact h.transit hframe rfl
        | none =>
          obtain ⟨r,hr,hgood⟩ := (h.relock hframe rfl rfl).resume rfl rfl
          by_cases hevt : (deferred { s.mgr with processing := false }).2 = .nop
          · rw [if_pos hevt] at hr hs
            cases hs
            obtain rfl := some.inj hr
            exact hgood
          · rw [if_neg hevt] at hr hs
            rw [hr] at hs
            cases hs
            exact hgood

/-- Every step keeps the invariant. -/
lemma Good.step (h : Good few resets s g) {a : Action} {r : Reply} (hcare : few → Careful s a)
    (hs : step resets s a = some (s',r)) : Good few resets s' (g.next s s' a r) := by
  cases a with
  | request cli notify => exact h.request hcare hs
  | release => exact h.release hs
  | reset cli notify => exact h.reset hs
  | cancel cli =>
    obtain ⟨rfl,rfl⟩ := Prod.ext_iff.mp (some.inj hs)
    exact h.cancel cli
  | register mon =>
    simp only [OnOff.step,onoffMonitorRegister,ite_none_left_eq_some,Option.some.injEq,Prod.mk.injEq] at hs
    obtain ⟨-,rfl,rfl⟩ := hs
    exact h.monitors _
  | unregister mon =>
    obtain ⟨rfl,rfl⟩ := Prod.ext_iff.mp (some.inj hs)
    by_cases hmon : mon ∈ s.mgr.monitors
    · simp only [onoffMonitorUnregister,hmon,if_true]
      exact h.monitors _
    · simp only [onoffMonitorUnregister,hmon,if_false]
      exact h
  | complete res => exact h.complete hs
  | proceed => exact h.proceed hs
  | notifyOne cli => exact h.notifyOne hs

end Steps

lemma init_good (few : Prop) (resets : Bool) : Good few resets init empty :=
  ⟨⟨⟨fun _ => rfl,fun _ => rfl,by simp,by simp,by simp⟩,by simp [processRecheck],rfl,
    by simp [waiting],by simp [waiting,empty],fun _ => rfl⟩,
    fun _ => ⟨rfl,rfl,rfl⟩,by simp⟩

/-- Whatever clients, monitors, transition functions, threads and interrupt routines call, and from
wherever: if never more than 2^16-1 requests are queued, then at most one transition is in progress,
every accepted client is notified or cancelled once, `refs` counts the granted requests that are not
released and is 0 outside ON, and whenever no call of `process_event` is under way the service is
where its clients want it. -/
theorem runs_settle (resets : Bool) (as : List Action)
    (hrun : Along (fun s a => (step resets s a).isSome ∧ Careful s a) (step resets) init as) :
    ∃ x os, serve? (recording (step resets) next) (init,empty) as = some (x,os) ∧
      Trace (fun _ _ _ y => Sound y.1 y.2) (init,empty) as os x := by
  refine Trace.of_recording (fun s g a s' r hgood hcare hs => ?_) (init_good True resets) hrun
  have hnext := hgood.step (fun _ => hcare) hs
  exact ⟨hnext,hnext.sound trivial⟩

def callback : Notify := ⟨3,false⟩

def nestedCalls : List Action :=
  [.register 1,.register 2,.request 0 callback,.proceed,.unregister 2,.request 1 callback,.proceed,.proceed,.proceed,
    .complete 0,.request 2 callback,.cancel 2,.proceed,.proceed,.proceed,.proceed,.release,.proceed,.release,
    .request 3 callback,.notifyOne 3,.release,.proceed,.proceed,.proceed,.proceed,.proceed,.request 4 callback,
    .complete (-5),.proceed,.proceed,.proceed,.reset 4 callback,.proceed,.proceed,.proceed,.proceed,.proceed,
    .complete 0]

theorem runs_settle_nested :
    ∃ x os, serve? (recording (step true) next) (init,empty) nestedCalls = some (x,os) ∧
      Trace (fun _ _ _ y => Sound y.1 y.2) (init,empty) nestedCalls os x :=
  runs_settle true nestedCalls (by decide +kernel)

def crowd (n : ℕ) : List Action :=
  .request 0 callback::((range' 1 n).map fun cli => .request cli callback)++[.proceed,.proceed,.complete 0]++
    (replicate (n+1) .proceed++[.proceed])

section Crowd

def Runs (x : State × Record) (as : List Action) (y : State × Record) : Prop :=
  Leads (fun _ _ => True) (recording (step false) next) x as y

lemma Runs.one {x : State × Record} {s' : State} {a : Action} {r : Reply} (h : step false x.1 a = some (s',r)) :
    Runs x [a] (s',x.2.next x.1 s' a r) := cons trivial (recording_eq_some.mpr ⟨h,rfl⟩) nil

def starting (clients : List ℕ) : State :=
  ⟨⟨clients,[],0,0,.toOn,true,false,false⟩,some ⟨.finished,.toOn,0,[],some .start⟩,[],0⟩

/-- Requests are queued while the service starts. -/
lemma requests_queue (n k : ℕ) (clients : List ℕ) (g : Record) (hfresh : ∀ cli ∈ clients, cli < k) :
    ∃ g', g'.granted = g.granted ∧ g'.released = g.released ∧
      Runs (starting clients,g) ((range' k n).map fun cli => .request cli callback)
        (starting (clients++range' k n),g') := by
  induction n generalizing k clients g with
  | zero =>
    rw [range'_zero,append_nil]
    exact ⟨g,rfl,rfl,nil⟩
  | succ n ih =>
    have hk : k ∉ (starting clients).waiting := by
      simpa [waiting,starting] using fun hmem => lt_irrefl k (hfresh k hmem)
    have hstep :
      step false (starting clients) (.request k callback) = some (starting (clients++[k]),.rv (.ok .toOn)) := by
      simp only [step,onoffRequest,hk,if_false]
      rfl
    obtain ⟨g',hgranted,hreleased,hruns⟩ := ih (k+1) (clients++[k]) { g with accepted := bump g.accepted k } (by
      intro cli hcli
      rcases mem_append.mp hcli with hcli | hcli
      · exact (hfresh cli hcli).trans (lt_succ_self k)
      · exact mem_singleton.mp hcli ▸ lt_succ_self k)
    refine ⟨g',hgranted,hreleased,?_⟩
    rw [append_assoc,singleton_append] at hruns
    rw [range'_succ,map_cons]
    have hone : Runs (starting clients,g) [.request k callback] _ := Runs.one hstep
    exact append hone hruns

lemma clients_notified (m : Manager) (pending : List ℕ) (transits : ℕ) (clients : List ℕ) (g : Record) :
    ∃ g', g'.granted = g.granted+clients.length ∧ g'.released = g.released ∧
      Runs (⟨m,some ⟨.finished,.on,0,clients,none⟩,pending,transits⟩,g) (replicate clients.length .proceed)
        (⟨m,some ⟨.finished,.on,0,[],none⟩,pending,transits⟩,g') := by
  induction clients generalizing g with
  | nil => exact ⟨g,rfl,rfl,nil⟩
  | cons cli clients ih =>
    obtain ⟨g',hgranted,hreleased,hruns⟩ := ih { g with notified := bump g.notified cli, granted := g.granted+1 }
    refine ⟨g',?_,hreleased,?_⟩
    · rw [hgranted,length_cons]
      show g.granted+1+clients.length = _
      omega
    · rw [length_cons,replicate_succ]
      have hone : Runs (⟨m,some ⟨.finished,.on,0,cli::clients,none⟩,pending,transits⟩,g) [.proceed] _ :=
        Runs.one rfl
      exact append hone hruns

/-- All are granted, and the count has wrapped. -/
lemma crowd_runs (n : ℕ) (hn : (n+1)%2^16 = 0) :
    ∃ x, x.1.mgr.state = .toOff ∧ x.1.mgr.refs = 0 ∧ x.2.granted = n+1 ∧ x.2.released = 0 ∧ Runs (init,empty)
      (crowd n) x := by
  have hfirst : Runs (init,empty) [.request 0 callback] (starting [0],_) := Runs.one rfl
  obtain ⟨g,hgranted,hreleased,hqueue⟩ := requests_queue n 1 [0] { empty with accepted := bump empty.accepted 0 }
    (by simp)
  obtain ⟨clients,hclients⟩ : ∃ clients, clients = [0]++range' 1 n := ⟨_,rfl⟩
  have hlen : clients.length = n+1 := by simp [hclients]
  rw [← hclients] at hqueue
  -- the transition function is called and completes
  have hreturn : Runs (starting clients,g) [.proceed,.proceed]
      (⟨⟨clients,[],0,0,.toOn,false,false,false⟩,none,[],1⟩,g) :=
    append (Runs.one (r := .transit .start) rfl) (Runs.one (r := .silent) rfl)
  have hcomplete : Runs (⟨⟨clients,[],0,0,.toOn,false,false,false⟩,none,[],1⟩,g) [.complete 0]
      (⟨⟨[],[],0,0,.on,true,false,true⟩,some ⟨.finished,.on,0,clients,none⟩,[],0⟩,g) := by
    have hfold : clients.foldl (fun refs _ => (refs+1)%2^16) 0 = 0 := by
      rw [refs_fold clients (by norm_num),zero_add,hlen,hn]
    have hdone :
      processComplete ⟨clients,[],0,0,.toOn,false,false,false⟩ 0 = (⟨[],[],0,0,.on,false,false,true⟩,clients) := by
      show (settle ⟨[],[],0,clients.foldl (fun refs _ => (refs+1)%2^16) 0,.on,false,false,false⟩,clients) = _
      rw [hfold]
      rfl
    have hne : clients ≠ [] := by simp [hclients]
    refine Runs.one (r := .done) ?_
    simp [step,transitionComplete,processEvent,processLoop,hdone,hne]
  obtain ⟨g',hgranted',hreleased',hnotify⟩ := clients_notified ⟨[],[],0,0,.on,true,false,true⟩ [] 0 clients g
  rw [hlen] at hnotify
  have hstop : Runs (⟨⟨[],[],0,0,.on,true,false,true⟩,some ⟨.finished,.on,0,[],none⟩,[],0⟩,g') [.proceed]
      (⟨⟨[],[],0,0,.toOff,true,false,false⟩,some ⟨.finished,.toOff,0,[],some .stop⟩,[],0⟩,g') :=
        Runs.one (r := .silent) rfl
  refine ⟨_,?_,?_,?_,?_,append (append (append hfirst hqueue) (append hreturn hcomplete))
    (append hnotify hstop)⟩
  · rfl
  · rfl
  · rw [hgranted',hgranted,hlen]
    exact zero_add _
  · exact hreleased'.trans hreleased

end Crowd

/-- The reference count has 16 bits: after 2^16 requests that were queued and granted it is 0, and
the service is turned off although nobody has released it. -/
theorem crowd_is_turned_off :
    ∃ x os, serve? (recording (step false) next) (init,empty) (crowd (2^16-1)) = some (x,os) ∧
      x.1.mgr.state = .toOff ∧ x.1.mgr.refs = 0 ∧ x.2.granted = 2^16 ∧ x.2.released = 0 := by
  obtain ⟨x,hstate,hrefs,hgranted,hreleased,-,os,hserve⟩ := crowd_runs (2^16-1) (by norm_num)
  exact ⟨x,os,hserve,hstate,hrefs,hgranted,hreleased⟩

def CancelAsserted (s : State) : Action → Prop
  | .cancel cli => cli ∈ s.mgr.clients → s.mgr.state = .toOn ∨ s.mgr.state = .toOff ∨ s.mgr.state = .resetting
  | _ => True

/-- Clients are not cancelled in OFF or ERROR while a call of `process_event` is unlocked. -/
def Cancellable (s : State) : Action → Prop
  | .cancel _ => s.mgr.processing = true → s.mgr.state ≠ .off ∧ s.mgr.state ≠ .error
  | _ => True

instance (s : State) (a : Action) : Decidable (Cancellable s a) := by
  unfold Cancellable
  split <;> infer_instance

lemma Good.cancelAsserted {few : Prop} {resets : Bool} {s : State} {g : Record} {a : Action}
    (h : Good few resets s g) (hcare : Cancellable s a) : CancelAsserted s a := by
  cases a with
  | cancel cli =>
    intro hcli
    have hne := List.ne_nil_of_mem hcli
    have hstable : s.mgr.state ≠ .off ∧ s.mgr.state ≠ .error := by
      cases hframe : s.frame with
      | some f => exact hcare (h.2.busy f hframe).1
      | none => exact not_or.mp fun hstate => hne ((h.settled hframe).1 hstate)
    cases hstate : s.mgr.state with
    | on => exact absurd (h.1.tidy.on_clients hstate) hne
    | off => exact absurd hstate hstable.1
    | error => exact absurd hstate hstable.2
    | toOn => exact .inl rfl
    | toOff => exact .inr (.inl rfl)
    | resetting => exact .inr (.inr rfl)
  | _ => trivial

/-- If no client is cancelled in OFF or ERROR from a callback or while one runs, the assertion of
`onoff_cancel` holds in every run. -/
theorem runs_cancel_in_transition (resets : Bool) (as : List Action)
    (hrun : Along (fun s a => (step resets s a).isSome ∧ Cancellable s a) (step resets) init as) :
    ∃ x os, serve? (recording (step resets) next) (init,empty) as = some (x,os) ∧
      Trace (fun x a _ _ => CancelAsserted x.1 a) (init,empty) as os x := by
  refine Trace.of_recording (fun s g a s' r hgood hcare hs => ?_) (init_good False resets) hrun
  exact ⟨hgood.step False.elim hs,hgood.cancelAsserted hcare⟩

/-- One client is cancelled from the callback of a monitor that is told of the transition, another
one behind it. -/
def cancelledStarting : List Action :=
  [.register 1,.request 0 callback,.request 1 callback,.request 2 callback,.proceed,.cancel 2,.proceed,.proceed,
    .proceed,.cancel 1,.complete 0]

theorem runs_cancel_in_transition_starting :
    ∃ x os, serve? (recording (step true) next) (init,empty) cancelledStarting = some (x,os) ∧
      Trace (fun x a _ _ => CancelAsserted x.1 a) (init,empty) cancelledStarting os x :=
  runs_cancel_in_transition true cancelledStarting (by decide +kernel)

/-- A monitor that is told of OFF requests the service and cancels the request. -/
theorem cancelled_from_monitor :
    ∃ s os, serve? (step true) init [.register 1,.request 0 callback,.proceed,.proceed,.proceed,.complete 0,
        .proceed,.proceed,.proceed,.proceed,.release,.proceed,.proceed,.proceed,.proceed,.complete 0,.proceed,
        .request 2 callback] = some (s,os) ∧
      2 ∈ s.mgr.clients ∧ s.mgr.state = .off ∧ ¬CancelAsserted s (.cancel 2) := by
  refine ⟨_,_,rfl,?_,rfl,?_⟩
  · decide
  · unfold CancelAsserted
    decide

end ArmFirmware.Zephyr.OnOff
