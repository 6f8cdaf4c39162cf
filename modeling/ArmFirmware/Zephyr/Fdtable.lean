import ArmFirmware.Library.Trace

/-! The descriptor table of `lib/os/fdtable.c`, with every access to it as a step of its own. The
`mode` of an entry and the calls of its `ioctl` change nothing that is modelled. -/
namespace ArmFirmware.Zephyr.Fdtable
open Library Function Option List

section Model
variable (θ ο υ : Type*)

/-- `struct fd_entry`. -/
structure Entry where
  obj : Option ο
  vtable : Option υ
  refcount : ℕ
  /-- The owner of `lock`. -/
  lock : Option θ

/-- Where a thread is in a call, with what it has read. -/
inductive Call
  | idle
  -- `zvfs_reserve_fd`
  | lockTable
  | find (fd : ℕ)
  | ref (fd : ℕ)
  | resetObj (fd : ℕ)
  | resetVtable (fd : ℕ)
  | initLock (fd : ℕ)
  | unlockTable (ret : Option ℕ)
  -- `zvfs_finalize_typed_fd`
  | setObj (fd : ℕ) (obj : Option ο) (vtable : υ)
  | setVtable (fd : ℕ) (obj : Option ο) (vtable : υ)
  -- `zvfs_close`, once the number has been checked
  | lockEntry (fd : ℕ)
  | readVtable (fd : ℕ)
  | close (fd : ℕ) (vtable : Option υ)
  | unlockEntry (fd : ℕ)
  -- `z_fd_unref`
  | unref (fd : ℕ)
  | cas (fd oldRc : ℕ)
  | clearObj (fd : ℕ)
  | clearVtable (fd : ℕ)
  deriving DecidableEq

/-- The table, its lock and the calls under way. -/
structure State where
  table : ℕ → Entry θ ο υ
  tableLock : Option θ
  call : θ → Call ο υ

inductive Action
  | reserve (t : θ)
  | finalize (t : θ) (fd : ℕ) (obj : Option ο) (vtable : υ)
  | free (t : θ) (fd : ℕ)
  | close (t : θ) (fd : ℕ)
  /-- The thread goes on with its call. -/
  | go (t : θ)

inductive Reply
  | nothing
  | EBADF
  | reserved (fd : Option ℕ)
  | finalized (fd : ℕ) (obj : Option ο) (vtable : υ)
  | closing (fd : ℕ)
  /-- The close method was called. -/
  | called (fd : ℕ) (obj : Option ο) (vtable : Option υ)
  deriving DecidableEq

variable {θ ο υ} [DecidableEq θ] (openMax : ℕ)

namespace State
variable (s : State θ ο υ) (t : θ)

def goto (c : Call ο υ) : State θ ο υ := { s with call := update s.call t c }

def put (fd : ℕ) (e : Entry θ ο υ) (c : Call ο υ) : State θ ο υ :=
  { s.goto t c with table := update s.table fd e }

end State

/-- One step of a call. A thread that waits for a lock has none. -/
def go (s : State θ ο υ) (t : θ) : Option (State θ ο υ × Reply ο υ) :=
  match s.call t with
  | .idle => none
  | .lockTable => if s.tableLock = none then some ({ s.goto t (.find 0) with tableLock := some t },.nothing)
    else none
  | .find fd =>
    if openMax ≤ fd then some (s.goto t (.unlockTable none),.nothing)
    else if (s.table fd).refcount = 0 then some (s.put t fd (s.table fd) (.ref fd),.nothing)
    else some (s.goto t (.find (fd+1)),.nothing)
  | .ref fd => some (s.put t fd { s.table fd with refcount := (s.table fd).refcount+1 } (.resetObj fd),.nothing)
  | .resetObj fd => some (s.put t fd { s.table fd with obj := none } (.resetVtable fd),.nothing)
  | .resetVtable fd => some (s.put t fd { s.table fd with vtable := none } (.initLock fd),.nothing)
  | .initLock fd => some (s.put t fd { s.table fd with lock := none } (.unlockTable (some fd)),.nothing)
  | .unlockTable ret => some ({ s.goto t .idle with tableLock := none },.reserved ret)
  | .setObj fd obj vtable => some (s.put t fd { s.table fd with obj := obj } (.setVtable fd obj vtable),.nothing)
  | .setVtable fd obj vtable => some (s.put t fd { s.table fd with vtable := some vtable } .idle,
    .finalized fd obj vtable)
  | .lockEntry fd =>
    if (s.table fd).lock = none ∨ (s.table fd).lock = some t then
      some (s.put t fd { s.table fd with lock := some t } (.readVtable fd),.nothing)
    else none
  | .readVtable fd => some (s.put t fd (s.table fd) (.close fd (s.table fd).vtable),.nothing)
  | .close fd vtable => some (s.put t fd (s.table fd) (.unlockEntry fd),.called fd (s.table fd).obj vtable)
  | .unlockEntry fd =>
    some (s.put t fd { s.table fd with lock := if (s.table fd).lock = some t then none else (s.table fd).lock }
      (.unref fd),.nothing)
  | .unref fd =>
    some (s.put t fd (s.table fd) (if (s.table fd).refcount = 0 then .idle else .cas fd (s.table fd).refcount),
      .nothing)
  | .cas fd oldRc =>
    if (s.table fd).refcount = oldRc then
      some (s.put t fd { s.table fd with refcount := oldRc-1 } (if oldRc = 1 then .clearObj fd else .idle),.nothing)
    else some (s.put t fd (s.table fd) (.unref fd),.nothing)
  | .clearObj fd => some (s.put t fd { s.table fd with obj := none } (.clearVtable fd),.nothing)
  | .clearVtable fd => some (s.put t fd { s.table fd with vtable := none } .idle,.nothing)

def step [DecidableEq ο] [DecidableEq υ] (s : State θ ο υ) : Action θ ο υ → Option (State θ ο υ × Reply ο υ)
  | .go t => go openMax s t
  | .reserve t => if s.call t = .idle then some (s.goto t .lockTable,.nothing) else none
  | .finalize t fd obj vtable => if s.call t = .idle then some (s.put t fd (s.table fd) (.setObj fd obj vtable),
    .nothing) else none
  | .free t fd => if s.call t = .idle then some (s.put t fd (s.table fd) (.unref fd),.nothing) else none
  | .close t fd =>
    if s.call t ≠ .idle then none
    -- `_check_fd`
    else if openMax ≤ fd ∨ (s.table fd).refcount = 0 then some (s,.EBADF)
    else some (s.put t fd (s.table fd) (.lockEntry fd),.closing fd)

/-- The table at first; some descriptors may be open. -/
def init (vtables : ℕ → Option υ) : State θ ο υ :=
  ⟨fun fd => ⟨none,vtables fd,if (vtables fd).isSome then 1 else 0,none⟩,none,fun _ => .idle⟩

variable (ο υ) in
/-- For each number what was opened, what its close method was called with, and whether it is
finalized and no close has begun. -/
structure Log where
  given : ℕ → List (Option ο × Option υ)
  called : ℕ → List (Option ο × Option υ)
  isOpen : ℕ → Bool

def Log.init (vtables : ℕ → Option υ) : Log ο υ :=
  ⟨fun fd => if (vtables fd).isSome then [(none,vtables fd)] else [],fun _ => [],fun fd => (vtables fd).isSome⟩

def Log.next (g : Log ο υ) : Reply ο υ → Log ο υ
  | .finalized fd obj vtable =>
    { g with given := update g.given fd (g.given fd++[(obj,some vtable)]), isOpen := update g.isOpen fd true }
  | .closing fd => { g with isOpen := update g.isOpen fd false }
  | .called fd obj vtable => { g with called := update g.called fd (g.called fd++[(obj,vtable)]) }
  | .nothing | .EBADF | .reserved _ => g

def logging [DecidableEq ο] [DecidableEq υ] :
    State θ ο υ × Log ο υ → Action θ ο υ → Option ((State θ ο υ × Log ο υ) × Reply ο υ) :=
  recording (step openMax) fun g _ _ _ r => g.next r

def Call.fd? : Call ο υ → Option ℕ
  | .idle | .lockTable | .find _ | .unlockTable _ => none
  | .ref fd | .resetObj fd | .resetVtable fd | .initLock fd | .setObj fd _ _ | .setVtable fd _ _ | .lockEntry
    fd | .readVtable fd
  | .close fd _ | .unlockEntry fd | .unref fd | .cas fd _ | .clearObj fd | .clearVtable fd => some fd

def Call.toClose : Call ο υ → Bool
  | .lockEntry _ | .readVtable _ | .close .. => true
  | _ => false

/-- The number whose reference count is read next by `_find_fd_entry`. -/
def Call.looks? : Call ο υ → Option ℕ
  | .find fd => some fd
  | _ => none

/-- No call is about the descriptor. -/
def Unused (s : State θ ο υ) (fd : ℕ) : Prop := ∀ t, (s.call t).fd? ≠ some fd

/-- The condition on a step: a number is finalized or freed by its reserver, closed when nobody else
works on it, and not given out again before its entry has been cleared. -/
def Careful (s : State θ ο υ) : Action θ ο υ → Prop
  | .reserve _ => True
  | .finalize _ fd _ _ | .free _ fd => (s.table fd).refcount ≠ 0 ∧ (s.table fd).vtable = none ∧ Unused s fd
  | .close _ fd => (s.table fd).refcount ≠ 0 → (s.table fd).vtable ≠ none ∧ Unused s fd
  | .go t => ∀ fd ∈ (s.call t).looks?, ∀ u, s.call u ≠ .clearObj fd ∧ s.call u ≠ .clearVtable fd

instance [Fintype θ] [DecidableEq ο] [DecidableEq υ] (s : State θ ο υ) : ∀ a, Decidable (Careful s a) := by
  intro a
  unfold Careful Unused
  split <;> infer_instance

/-- An open entry has what it was given, and the close method has been called with everything that
was opened and is not open, once and in order. -/
structure Sound (s : State θ ο υ) (g : Log ο υ) : Prop where
  holds : ∀ fd, g.isOpen fd = true → (g.given fd).getLast? = some ((s.table fd).obj,(s.table fd).vtable)
  once : ∀ fd, g.given fd = g.called fd ∨ ∃ x, g.given fd = g.called fd++[x]
  closed : ∀ fd, g.isOpen fd = false → (∀ t, (s.call t).fd? = some fd → (s.call t).toClose = false) →
    g.given fd = g.called fd

end Model

section Steps
variable {θ ο υ : Type*} [DecidableEq θ] {openMax : ℕ} {s : State θ ο υ} {g g' : Log ο υ} {t : θ} {fd : ℕ}
  {e : Entry θ ο υ} {c : Call ο υ}

/-- The descriptor is not open, and all it was given has been closed. -/
def Settled (g : Log ο υ) (fd : ℕ) : Prop := g.isOpen fd = false ∧ g.given fd = g.called fd

/-- All but the last, and that is in the entry. -/
def Held (e : Entry θ ο υ) (g : Log ο υ) (fd : ℕ) : Prop :=
  e.vtable ≠ none ∧ g.given fd = g.called fd++[(e.obj,e.vtable)]

/-- An entry that some call works on. -/
def Used (e : Entry θ ο υ) (g : Log ο υ) (fd : ℕ) : Call ο υ → Prop
  | .ref _ | .clearObj _ | .clearVtable _ => e.refcount = 0 ∧ Settled g fd
  | .initLock _ => e.refcount = 1 ∧ Settled g fd ∧ e.vtable = none
  | .setVtable _ obj _ => e.refcount = 1 ∧ Settled g fd ∧ e.obj = obj
  | .cas _ oldRc => e.refcount = 1 ∧ Settled g fd ∧ oldRc = 1
  | .lockEntry _ | .readVtable _ => e.refcount = 1 ∧ g.isOpen fd = false ∧ Held e g fd
  | .close _ vtable => e.refcount = 1 ∧ g.isOpen fd = false ∧ Held e g fd ∧ vtable = e.vtable
  | _ => e.refcount = 1 ∧ Settled g fd

/-- An entry that no call works on is free, reserved or open. -/
def Resting (e : Entry θ ο υ) (g : Log ο υ) (fd : ℕ) : Prop :=
  e.refcount = 0 ∧ Settled g fd ∨ e.refcount = 1 ∧ Settled g fd ∧ e.vtable = none ∨ e.refcount = 1 ∧
    g.isOpen fd = true ∧ Held e g fd

def Call.locked : Call ο υ → Bool
  | .find _ | .ref _ | .resetObj _ | .resetVtable _ | .initLock _ | .unlockTable _ => true
  | _ => false

/-- At most one call is about a descriptor. The entry is as far as that call, or at rest. -/
structure Good (s : State θ ο υ) (g : Log ο υ) : Prop where
  lock : ∀ t, (s.call t).locked = true → s.tableLock = some t
  unique : ∀ t u fd, (s.call t).fd? = some fd → (s.call u).fd? = some fd → t = u
  used : ∀ t fd, (s.call t).fd? = some fd → Used (s.table fd) g fd (s.call t)
  unused : ∀ fd, Unused s fd → Resting (s.table fd) g fd

/-- Nothing has been logged about the descriptor. -/
def Log.Same (g g' : Log ο υ) (fd : ℕ) : Prop :=
  g'.given fd = g.given fd ∧ g'.called fd = g.called fd ∧ g'.isOpen fd = g.isOpen fd

omit [DecidableEq θ] in
lemma Used.congr (h : Used e g fd c) (hsame : g.Same g' fd) : Used e g' fd c := by
  obtain ⟨h₁,h₂,h₃⟩ := hsame
  cases c <;> simpa only [Used,Settled,Held,h₁,h₂,h₃] using h

/-- A thread works on a number alone, and leaves it in order. -/
lemma Good.put (h : Good s g) (halone : ∀ u, u ≠ t → (s.call u).fd? ≠ some fd)
    (hold : ∀ n, (s.call t).fd? = some n → n = fd)
    (hlock : c.locked = true → (s.call t).locked = true) (hsame : ∀ n, n ≠ fd → g.Same g' n)
    (hnew : c.fd? = some fd ∧ Used e g' fd c ∨ c.fd? = none ∧ Resting e g' fd) : Good (s.put t fd e c) g' := by
  have hfd : ∀ n, c.fd? = some n → n = fd ∧ Used e g' fd c := by
    rintro n hn
    rcases hnew with ⟨hc,hused⟩ | ⟨hc,-⟩
    · exact ⟨some.inj (hn.symm.trans hc),hused⟩
    · rw [hc] at hn
      cases hn
  refine ⟨fun u hu => ?_,fun u v n hu hv => ?_,fun u n hu => ?_,fun n hn => ?_⟩
  · by_cases hut : u = t
    · subst hut
      exact h.lock u (hlock (by simpa [State.put,State.goto] using hu))
    · exact h.lock u (by simpa [State.put,State.goto,hut] using hu)
  · by_cases hut : u = t <;> by_cases hvt : v = t
    · rw [hut,hvt]
    · simp only [State.put,State.goto,hut,hvt,update_self,update_of_ne,ne_eq,not_false_eq_true] at hu hv
      exact absurd ((hfd n hu).1 ▸ hv) (halone v hvt)
    · simp only [State.put,State.goto,hut,hvt,update_self,update_of_ne,ne_eq,not_false_eq_true] at hu hv
      exact absurd ((hfd n hv).1 ▸ hu) (halone u hut)
    · simp only [State.put,State.goto,hut,hvt,update_of_ne,ne_eq,not_false_eq_true] at hu hv
      exact h.unique u v n hu hv
  · by_cases hut : u = t
    · subst hut
      simp only [State.put,State.goto,update_self] at hu ⊢
      obtain ⟨rfl,hused⟩ := hfd n hu
      simpa using hused
    · simp only [State.put,State.goto,hut,update_of_ne,ne_eq,not_false_eq_true] at hu ⊢
      have hne : n ≠ fd := fun heq => halone u hut (heq ▸ hu)
      simpa [hne] using (h.used u n hu).congr (hsame n hne)
  · have hc : c.fd? ≠ some n := by simpa [State.put,State.goto] using hn t
    by_cases hne : n = fd
    · subst hne
      simpa [State.put] using (hnew.resolve_left fun h => hc h.1).2
    · have hrest : Unused s n := by
        intro u hu
        by_cases hut : u = t
        · subst hut
          exact hne (hold n hu)
        · exact hn u (by simpa [State.put,State.goto,hut] using hu)
      obtain ⟨h₁,h₂,h₃⟩ := hsame n hne
      simpa [State.put,hne,Resting,Settled,Held,h₁,h₂,h₃] using h.unused n hrest

/-- A thread goes on without an entry; it may take or give back the lock of the table. -/
lemma Good.goto (h : Good s g) (hold : (s.call t).fd? = none) (hnew : c.fd? = none) (lock : Option θ)
    (hlock : c.locked = true → lock = some t) (hothers : lock = s.tableLock ∨ s.tableLock = none ∨
      s.tableLock = some t) :
    Good { s.goto t c with tableLock := lock } g := by
  have hcall : ∀ u n, (update s.call t c u).fd? = some n → u ≠ t ∧ (s.call u).fd? = some n := by
    intro u n hu
    by_cases hut : u = t
    · rw [hut,update_self,hnew] at hu
      cases hu
    · exact ⟨hut,by simpa [hut] using hu⟩
  refine ⟨fun u hu => ?_,fun u v n hu hv => h.unique u v n (hcall u n hu).2 (hcall v n hv).2,fun u n hu => ?_,
    fun n hn => ?_⟩
  · by_cases hut : u = t
    · subst hut
      exact hlock (by simpa [State.goto] using hu)
    · have hheld := h.lock u (by simpa [State.goto,hut] using hu)
      rcases hothers with hsame | hnone | hmine
      · exact hsame.trans hheld
      · rw [hheld] at hnone
        cases hnone
      · exact absurd (some.inj (hheld.symm.trans hmine)) hut
  · obtain ⟨hut,hu'⟩ := hcall u n hu
    simpa [State.goto,hut] using h.used u n hu'
  · refine h.unused n fun u hu => hn u ?_
    have hut : u ≠ t := by
      rintro rfl
      rw [hold] at hu
      cases hu
    simpa [State.goto,hut] using hu

lemma Log.same_of_ne (g : Log ο υ) (n : ℕ) (_ : n ≠ fd) : g.Same g n := ⟨rfl,rfl,rfl⟩

lemma Log.same_next {r : Reply ο υ} (hr : (∃ obj vtable, r = .finalized fd obj vtable) ∨ r = .closing fd ∨
    ∃ obj vtable, r = .called fd obj vtable)
    (n : ℕ) (hn : n ≠ fd) : g.Same (g.next r) n := by
  obtain ⟨obj,vtable,rfl⟩ | rfl | ⟨obj,vtable,rfl⟩ := hr <;> simp [Log.Same,Log.next,hn]

omit [DecidableEq θ] in
/-- An entry that was found free is not in another call. -/
lemma Good.found (h : Good s g) (hc : s.call t = .find fd) (hcare : Careful s (.go t))
    (hfree : (s.table fd).refcount = 0) :
    Unused s fd := by
  intro u hu
  have hused := h.used u fd hu
  have hcare := hcare fd (by rw [hc]; rfl)
  have hlock := h.lock t (by rw [hc]; rfl)
  cases hcall : s.call u with
  | idle | lockTable | find | unlockTable => simp [hcall,Call.fd?] at hu
  | ref n =>
    have := some.inj (hlock.symm.trans (h.lock u (by rw [hcall]; rfl)))
    subst this
    rw [hc] at hcall
    cases hcall
  | clearObj n =>
    rw [hcall] at hu
    exact (hcare u).1 (by rw [hcall,some.inj hu])
  | clearVtable n =>
    rw [hcall] at hu
    exact (hcare u).2 (by rw [hcall,some.inj hu])
  | _ =>
    rw [hcall] at hused
    exact absurd (hfree.symm.trans hused.1) (by norm_num)

/-- A call that is under way goes on. -/
lemma Good.go {s' : State θ ο υ} {r : Reply ο υ} (h : Good s g) (hcare : Careful s (.go t))
    (hs : go openMax s t = some (s',r)) :
    Good s' (g.next r) := by
  have hused := h.used t
  have hlock := h.lock t
  -- a step on the entry that the call works on, and one without an entry
  have hput : ∀ fd e c r, (s.call t).fd? = some fd → (c.locked = true → (s.call t).locked = true) →
      (∀ n, n ≠ fd → g.Same (g.next r) n) → (c.fd? = some fd ∧ Used e (g.next r) fd c ∨ c.fd? = none ∧
        Resting e (g.next r) fd) →
      Good (s.put t fd e c) (g.next r) := fun fd e c r ht =>
    h.put (fun u hut hu => hut (h.unique u t fd hu ht)) fun _ hn => some.inj (hn.symm.trans ht)
  rw [Fdtable.go] at hs
  cases hc : s.call t <;> simp only [hc] at hs hused hlock hput
  case idle => cases hs
  case lockTable =>
    split_ifs at hs with hfree
    cases hs
    exact h.goto (by rw [hc]; rfl) rfl _ (fun _ => rfl) (.inr (.inl hfree))
  case find fd =>
    split_ifs at hs with hend hfree
    · cases hs
      exact h.goto (by rw [hc]; rfl) rfl _ hlock (.inl rfl)
    · have hunused := h.found hc hcare hfree
      cases hs
      refine h.put (fun u _ => hunused u) (by simp [hc,Call.fd?]) (by simp [hc,Call.locked]) g.same_of_ne
        (.inl ⟨rfl,hfree,?_⟩)
      rcases h.unused fd hunused with hrest | hrest | hrest
      · exact hrest.2
      all_goals exact absurd (hfree.symm.trans hrest.1) (by norm_num)
    · cases hs
      exact h.goto (by rw [hc]; rfl) rfl _ hlock (.inl rfl)
  case unlockTable ret =>
    cases hs
    exact h.goto (by rw [hc]; rfl) rfl _ (by simp [Call.locked]) (.inr (.inr (hlock rfl)))
  case lockEntry fd =>
    split_ifs at hs with hfree
    cases hs
    exact hput fd _ _ .nothing rfl id g.same_of_ne (.inl ⟨rfl,hused fd rfl⟩)
  case unref fd =>
    obtain ⟨hrc,hsettled⟩ := hused fd rfl
    rw [if_neg (by rw [hrc]; norm_num)] at hs
    cases hs
    exact hput fd _ _ .nothing rfl id g.same_of_ne (.inl ⟨rfl,hrc,hsettled,hrc⟩)
  case cas fd oldRc =>
    obtain ⟨hrc,hsettled,rfl⟩ := hused fd rfl
    rw [if_pos hrc,if_pos rfl] at hs
    cases hs
    exact hput fd _ _ .nothing rfl id g.same_of_ne (.inl ⟨rfl,rfl,hsettled⟩)
  case ref fd =>
    obtain ⟨hrc,hsettled⟩ := hused fd rfl
    cases hs
    exact hput fd _ _ .nothing rfl id g.same_of_ne (.inl ⟨rfl,by simp [hrc],hsettled⟩)
  case resetVtable fd =>
    obtain ⟨hrc,hsettled⟩ := hused fd rfl
    cases hs
    exact hput fd _ _ .nothing rfl id g.same_of_ne (.inl ⟨rfl,hrc,hsettled,rfl⟩)
  case initLock fd =>
    cases hs
    exact hput fd _ _ .nothing rfl id g.same_of_ne (.inr ⟨rfl,.inr (.inl (hused fd rfl))⟩)
  case setObj fd obj vtable =>
    obtain ⟨hrc,hsettled⟩ := hused fd rfl
    cases hs
    exact hput fd _ _ .nothing rfl id g.same_of_ne (.inl ⟨rfl,hrc,hsettled,rfl⟩)
  case setVtable fd obj vtable =>
    obtain ⟨hrc,hsettled,hobj⟩ := hused fd rfl
    cases hs
    refine hput fd _ _ (.finalized fd obj vtable) rfl id (Log.same_next (.inl ⟨_,_,rfl⟩))
      (.inr ⟨rfl,.inr (.inr ⟨hrc,?_,?_,?_⟩)⟩)
    · simp [Log.next]
    · simp
    · simp [Log.next,hsettled.2,hobj]
  case readVtable fd =>
    obtain ⟨hrc,hopen,hheld⟩ := hused fd rfl
    cases hs
    exact hput fd _ _ .nothing rfl id g.same_of_ne (.inl ⟨rfl,hrc,hopen,hheld,rfl⟩)
  case close fd vtable =>
    obtain ⟨hrc,hopen,hheld,hvtable⟩ := hused fd rfl
    cases hs
    refine hput fd _ _ (.called fd _ _) rfl id (Log.same_next (.inr (.inr ⟨_,_,rfl⟩))) (.inl ⟨rfl,hrc,hopen,?_⟩)
    simp [Log.next,hvtable,hheld.2]
  case clearVtable fd =>
    cases hs
    exact hput fd _ _ .nothing rfl id g.same_of_ne (.inr ⟨rfl,.inl (hused fd rfl)⟩)
  case resetObj fd | unlockEntry fd | clearObj fd =>
    cases hs
    exact hput fd _ _ .nothing rfl id g.same_of_ne (.inl ⟨rfl,hused fd rfl⟩)

/-- Every careful step keeps the invariant. -/
lemma Good.step [DecidableEq ο] [DecidableEq υ] {a : Action θ ο υ} {s' : State θ ο υ} {r : Reply ο υ} (h : Good s g)
    (hcare : Careful s a) (hs : step openMax s a = some (s',r)) : Good s' (g.next r) := by
  -- a call that begins with an entry that no other one works on
  have hbegin : ∀ t fd c g', Unused s fd → s.call t = .idle → c.locked = false → (∀ n, n ≠ fd → g.Same g' n) →
      c.fd? = some fd → Used (s.table fd) g' fd c → Good (s.put t fd (s.table fd) c) g' := by
    intro t fd c g' hunused hidle hc hsame hfd hused
    exact h.put (fun u _ => hunused u) (by simp [hidle,Call.fd?]) (by simp [hc]) hsame (.inl ⟨hfd,hused⟩)
  have hreserved : ∀ fd, (s.table fd).refcount ≠ 0 ∧ (s.table fd).vtable = none ∧ Unused s fd →
      (s.table fd).refcount = 1 ∧ Settled g fd := by
    rintro fd ⟨hrc,hvtable,hunused⟩
    rcases h.unused fd hunused with hrest | hrest | hrest
    · exact absurd hrest.1 hrc
    · exact ⟨hrest.1,hrest.2.1⟩
    · exact absurd hvtable hrest.2.2.1
  cases a with
  | go t => exact h.go hcare hs
  | reserve t =>
    simp only [Fdtable.step] at hs
    split_ifs at hs with hidle
    cases hs
    exact h.goto (by rw [hidle]; rfl) rfl _ (by simp [Call.locked]) (.inl rfl)
  | finalize t fd obj vtable =>
    simp only [Fdtable.step] at hs
    split_ifs at hs with hidle
    cases hs
    exact hbegin t fd _ g hcare.2.2 hidle rfl g.same_of_ne rfl (hreserved fd hcare)
  | free t fd =>
    simp only [Fdtable.step] at hs
    split_ifs at hs with hidle
    cases hs
    exact hbegin t fd _ g hcare.2.2 hidle rfl g.same_of_ne rfl (hreserved fd hcare)
  | close t fd =>
    simp only [Fdtable.step] at hs
    split_ifs at hs with hidle hbad
    · cases hs
      exact h
    · obtain ⟨hvtable,hunused⟩ := hcare (not_or.mp hbad).2
      cases hs
      refine hbegin t fd _ _ hunused (not_not.mp hidle) rfl (Log.same_next (.inr (.inl rfl))) rfl ?_
      rcases h.unused fd hunused with hrest | hrest | hrest
      · exact absurd hrest.1 (not_or.mp hbad).2
      · exact absurd hrest.2.2 hvtable
      · exact ⟨hrest.1,by simp [Log.next],hrest.2.2⟩

omit [DecidableEq θ] in
lemma Good.sound (h : Good s g) : Sound s g := by
  have hcases : ∀ fd, Settled g fd ∨ Held (s.table fd) g fd ∧
      (g.isOpen fd = true ∨ ∃ t, (s.call t).fd? = some fd ∧ (s.call t).toClose = true) := by
    intro fd
    by_cases hunused : Unused s fd
    · rcases h.unused fd hunused with hrest | hrest | hrest
      · exact .inl hrest.2
      · exact .inl hrest.2.1
      · exact .inr ⟨hrest.2.2,.inl hrest.2.1⟩
    · obtain ⟨t,ht⟩ := not_forall.mp hunused
      rw [not_not] at ht
      have hused := h.used t fd ht
      cases hc : s.call t <;> simp only [hc,Used] at hused
      case lockEntry | readVtable => exact .inr ⟨hused.2.2,.inr ⟨t,ht,by rw [hc]; rfl⟩⟩
      case close => exact .inr ⟨hused.2.2.1,.inr ⟨t,ht,by rw [hc]; rfl⟩⟩
      case initLock | setVtable | cas => exact .inl hused.2.1
      all_goals exact .inl hused.2
  refine ⟨fun fd hopen => ?_,fun fd => ?_,fun fd hclosed hnone => ?_⟩
  · rcases hcases fd with hsettled | ⟨hheld,-⟩
    · rw [hsettled.1] at hopen
      cases hopen
    · simp [hheld.2]
  · exact (hcases fd).imp (·.2) fun hheld => ⟨_,hheld.1.2⟩
  · rcases hcases fd with hsettled | ⟨-,hopen | ⟨t,ht,hclose⟩⟩
    · exact hsettled.2
    · rw [hclosed] at hopen
      cases hopen
    · rw [hnone t ht] at hclose
      cases hclose

omit [DecidableEq θ] in
lemma init_good (vtables : ℕ → Option υ) : Good (init vtables : State θ ο υ) (Log.init vtables) := by
  refine ⟨by simp [init,Call.locked],by simp [init,Call.fd?],by simp [init,Call.fd?],fun fd _ => ?_⟩
  cases hv : vtables fd with
  | none => exact .inl (by simp [init,Settled,Log.init,hv])
  | some v => exact .inr (.inr (by simp [init,Held,Log.init,hv]))

end Steps

/-- If every number is finalized or freed by its reserver alone, closed by one thread at a time, and
not given out again before it has been cleared, an entry keeps what it was given until it is closed,
and its close method is called once. -/
theorem runs_close_once {θ ο υ : Type*} [DecidableEq θ] [DecidableEq ο] [DecidableEq υ] (openMax : ℕ)
    (vtables : ℕ → Option υ)
    (as : List (Action θ ο υ)) (hrun : Along (fun s a => (step openMax s a).isSome ∧ Careful s a) (step openMax)
      (init vtables) as) :
    ∃ x os, serve? (logging openMax) (init vtables,Log.init vtables) as = some (x,os) ∧
      Trace (fun _ _ _ y => Sound y.1 y.2) (init vtables,Log.init vtables) as os x := by
  refine Trace.of_recording (fun s g a s' r hgood hcare hs => ?_) (init_good vtables) hrun
  exact ⟨hgood.step hcare hs,(hgood.step hcare hs).sound⟩

section TwoThreads

def blank : State (Fin 2) Bool Unit × Log Bool Unit := (init fun _ => none,Log.init fun _ => none)

def opened (t : Fin 2) (obj : Bool) : List (Action (Fin 2) Bool Unit) :=
  .reserve t::replicate 7 (.go t)++[.finalize t 0 (some obj) (),.go t,.go t]

def reopened : List (Action (Fin 2) Bool Unit) :=
  opened 0 true++.close 1 0::replicate 8 (.go 1)++.close 0 0::opened 0 false

theorem runs_close_once_reopened :
    ∃ x os, serve? (logging 1) blank reopened = some (x,os) ∧
      Trace (fun _ _ _ y => Sound y.1 y.2) blank reopened os x :=
  runs_close_once 1 _ _ (by decide +kernel)

/-- A number is given out again before it has been cleared, and the entry loses its new object. Two
threads close one number, and the close method is called twice. -/
theorem entry_lost_and_closed_twice :
    (∃ x os, serve? (logging 1) blank
        (opened 0 true++.close 0 0::replicate 6 (.go 0)++opened 1 false++[.go 0,.go 0]) = some (x,os) ∧
      x.2.isOpen 0 = true ∧ (x.2.given 0).getLast? = some (some false,some ()) ∧ (x.1.table 0).obj = none ∧
      (x.1.table 0).vtable = none) ∧
    ∃ x os, serve? (logging 1) blank
        (opened 0 true++.close 0 0::.close 1 0::replicate 4 (.go 0)++replicate 3 (.go 1)) = some (x,os) ∧
      x.2.given 0 = [(some true,some ())] ∧ x.2.called 0 = [(some true,some ()),(some true,some ())] :=
  ⟨⟨_,_,rfl,rfl,rfl,rfl,rfl⟩,_,_,rfl,rfl,rfl⟩

end TwoThreads
end ArmFirmware.Zephyr.Fdtable
