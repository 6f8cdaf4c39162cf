import ArmFirmware.Zephyr.Poll

/-! The counter of an eventfd (`lib/os/zvfs/zvfs_eventfd.c`), the two signals that `k_poll` waits for, and what
`poll` reports. -/
namespace ArmFirmware.Zephyr.Eventfd
open Library

inductive Errno
  | EBADF
  | EAGAIN
  | EINVAL
  | ENOMEM
  deriving DecidableEq

def UINT64_MAX : ℕ := 2^64-1

structure Flags where
  inUse : Bool
  semaphore : Bool
  nonblock : Bool
  deriving DecidableEq

/-- `struct zvfs_eventfd`. -/
structure Efd where
  readSig : Bool
  writeSig : Bool
  cnt : ℕ
  flags : Flags
  deriving DecidableEq

def zvfsEventfd (initval : ℕ) (semaphore nonblock : Bool) : Efd :=
  ⟨initval ≠ 0,true,initval,⟨true,semaphore,nonblock⟩⟩

def readLocked (efd : Efd) : Except Errno (Efd × ℕ) :=
  if !efd.flags.inUse then .error .EBADF
  else if efd.cnt = 0 then .error .EAGAIN
  else
    let (value,cnt) := if efd.flags.semaphore then (1,efd.cnt-1) else (efd.cnt,0)
    .ok ({ efd with cnt, readSig := if cnt = 0 then false else efd.readSig, writeSig := true },value)

def writeLocked (efd : Efd) (value : ℕ) : Except Errno Efd :=
  if !efd.flags.inUse then .error .EBADF
  else if value = UINT64_MAX then .error .EINVAL
  else
    let result := efd.cnt+value
    if 2^64 ≤ result ∨ result = UINT64_MAX then .error .EAGAIN
    else
      .ok { efd with
        cnt := result
        writeSig := if result = UINT64_MAX-1 then false else efd.writeSig
        readSig := true }

inductive Signal
  | read
  | write
  deriving DecidableEq

def Signal.mask : Signal → BitVec 16
  | .read => 1
  | .write => 4

def Efd.signaled (efd : Efd) : Signal → Bool
  | .read => efd.readSig
  | .write => efd.writeSig

/-- `zvfs_eventfd_poll_prepare` with room for a number of events: the objects of the events that it adds. -/
def pollPrepare (events : BitVec 16) (room : ℕ) : Except Errno (List Signal) :=
  let wanted := [Signal.read,.write].filter fun sig => events &&& sig.mask ≠ 0
  if room < wanted.length then .error .ENOMEM else .ok wanted

def pollUpdate (efd : Efd) (events revents : BitVec 16) : BitVec 16 :=
  let revents := if events &&& Signal.read.mask ≠ 0 ∧ 0 < efd.cnt then revents ||| Signal.read.mask else revents
  if events &&& Signal.write.mask ≠ 0 ∧ efd.cnt < UINT64_MAX-1 then revents ||| Signal.write.mask else revents

inductive Action
  | read
  | write (value : ℕ)
  deriving DecidableEq

/-- A call that has to wait leaves the counter alone, and is made again later. -/
def step (efd : Efd) : Action → Option (Efd × Except Errno ℕ)
  | .read =>
    match readLocked efd with
    | .ok (efd',value) => some (efd',.ok value)
    | .error e => some (efd,.error e)
  | .write value =>
    if 2^64 ≤ value then none
    else
      match writeLocked efd value with
      | .ok efd' => some (efd',.ok 0)
      | .error e => some (efd,.error e)

/-- What `k_poll` finds out about an event of a thread in its loop over the events, with the signals
as they are. -/
def Polled {τ : Type*} [DecidableEq τ] (efd : Efd) (s : Poll.State τ Signal) (t : τ) (ii : ℕ) (sig : Signal)
    (noWait : Bool) : Prop :=
  (Poll.registerEvent { s with amount := fun sig => (efd.signaled sig).toNat } t ii (some sig) noWait).1.ready t
    ii = true

/-- The signals agree with the counter, and an event that was prepared becomes ready iff
`poll_update` reports it. -/
structure Agrees (efd : Efd) : Prop where
  readSig : efd.readSig = true ↔ 0 < efd.cnt
  writeSig : efd.writeSig = true ↔ efd.cnt < UINT64_MAX-1
  polled :
    ∀ events room prepared, pollPrepare events room = .ok prepared → ∀ (ii : ℕ) sig, prepared[ii]? = some sig →
    ∀ (s : Poll.State ℕ Signal) t noWait, s.ready t ii = false →
      (Polled efd s t ii sig noWait ↔ pollUpdate efd events 0 &&& sig.mask ≠ 0)

/-- Nothing is added to an empty counter. -/
def Careful (efd : Efd) : Action → Prop
  | .write value => value = 0 → 0 < efd.cnt
  | .read => True

instance (efd : Efd) (a : Action) : Decidable (Careful efd a) := by
  unfold Careful
  split <;> infer_instance

/-- Both signals agree with the counter, which stays below its greatest value. -/
structure Good (efd : Efd) : Prop where
  inUse : efd.flags.inUse = true
  le : efd.cnt ≤ UINT64_MAX-1
  readSig : efd.readSig = decide (0 < efd.cnt)
  writeSig : efd.writeSig = decide (efd.cnt < UINT64_MAX-1)

lemma Good.create {initval : ℕ} (h : initval < 2^32) (semaphore nonblock : Bool) :
    Good (zvfsEventfd initval semaphore nonblock) := by
  have hmax : 2^32 < UINT64_MAX-1 := by decide
  refine ⟨rfl,by simp only [zvfsEventfd]; omega,?_,?_⟩
  · simp [zvfsEventfd,Nat.pos_iff_ne_zero]
  · simp only [zvfsEventfd]
    exact (decide_eq_true (by omega)).symm

lemma polled_iff {efd : Efd} {s : Poll.State ℕ Signal} {t ii : ℕ} {sig : Signal} {noWait : Bool}
    (h : s.ready t ii = false) :
    Polled efd s t ii sig noWait ↔ efd.signaled sig = true := by
  rw [Polled,Poll.registerEvent]
  cases hsig : efd.signaled sig with
  | false =>
    simp only [hsig,Bool.toNat_false,gt_iff_lt,lt_irrefl,if_false]
    split_ifs <;> simp [h]
  | true => simp [hsig,Poll.setEventReady]

lemma Good.agrees {efd : Efd} (h : Good efd) : Agrees efd := by
  have hread : efd.readSig = true ↔ 0 < efd.cnt := by rw [h.readSig,decide_eq_true_iff]
  have hwrite : efd.writeSig = true ↔ efd.cnt < UINT64_MAX-1 := by rw [h.writeSig,decide_eq_true_iff]
  refine ⟨hread,hwrite,fun events room prepared hprepare ii sig hsig s t noWait hready => ?_⟩
  rw [polled_iff hready]
  have hwanted : events &&& sig.mask ≠ 0 := by
    simp only [pollPrepare] at hprepare
    split_ifs at hprepare
    obtain rfl := Except.ok.inj hprepare
    simpa using (List.mem_filter.mp (List.mem_of_getElem? hsig)).2
  cases sig with
  | read =>
    simp only [Efd.signaled,hread,pollUpdate,hwanted,ne_eq,not_false_eq_true,true_and]
    split_ifs <;> simp [*,Signal.mask]
  | write =>
    simp only [Efd.signaled,hwrite,pollUpdate,hwanted,ne_eq,not_false_eq_true,true_and]
    split_ifs <;> simp [*,Signal.mask]

lemma Good.step {efd efd' : Efd} {a : Action} {r : Except Errno ℕ} (h : Good efd) (hcare : Careful efd a)
    (hs : Eventfd.step efd a = some (efd',r)) : Good efd' := by
  have hmax : UINT64_MAX = 2^64-1 := rfl
  have hle := h.le
  cases a with
  | read =>
    simp only [Eventfd.step,readLocked,h.inUse,Bool.not_true,Bool.false_eq_true,if_false] at hs
    by_cases hzero : efd.cnt = 0
    · rw [if_pos hzero] at hs
      cases hs
      exact h
    rw [if_neg hzero] at hs
    cases hsem : efd.flags.semaphore with
    | false =>
      simp only [hsem,Bool.false_eq_true,if_false] at hs
      cases hs
      exact ⟨h.inUse,Nat.zero_le _,by simp,by simp; omega⟩
    | true =>
      simp only [hsem,if_true] at hs
      cases hs
      refine ⟨h.inUse,by dsimp only; omega,?_,?_⟩
      · dsimp only
        split_ifs with hone
        · simp [hone]
        · rw [h.readSig,decide_eq_true (by omega),decide_eq_true (by omega)]
      · exact (decide_eq_true (by dsimp only; omega)).symm
  | write value =>
    simp only [Eventfd.step,Option.ite_none_left_eq_some] at hs
    obtain ⟨-,hs⟩ := hs
    simp only [writeLocked,h.inUse,Bool.not_true,Bool.false_eq_true,if_false] at hs
    by_cases hbad : value = UINT64_MAX
    · rw [if_pos hbad] at hs
      cases hs
      exact h
    rw [if_neg hbad] at hs
    by_cases hfull : 2^64 ≤ efd.cnt+value ∨ efd.cnt+value = UINT64_MAX
    · rw [if_pos hfull] at hs
      cases hs
      exact h
    rw [if_neg hfull] at hs
    cases hs
    -- something is in the counter afterwards
    have hpos : 0 < efd.cnt+value := by
      by_contra hnot
      have := hcare (by omega)
      omega
    refine ⟨h.inUse,by dsimp only; omega,(decide_eq_true hpos).symm,?_⟩
    dsimp only
    split_ifs with hlast
    · simp [hlast]
    · rw [h.writeSig,decide_eq_true (by omega),decide_eq_true (by omega)]

/-- For every initial value, both modes and every sequence of reads and writes: if no 0 is written to an empty
counter, the signals agree with the counter after every call, and with what `poll` reports. -/
theorem runs_agree (initval : ℕ) (hinitval : initval < 2^32) (semaphore nonblock : Bool) (as : List Action)
    (hrun : Along (fun efd a => (step efd a).isSome ∧ Careful efd a) step
      (zvfsEventfd initval semaphore nonblock) as) :
    Agrees (zvfsEventfd initval semaphore nonblock) ∧
      ∃ efd os, serve? step (zvfsEventfd initval semaphore nonblock) as = some (efd,os) ∧
        Trace (fun _ _ _ efd' => Agrees efd') (zvfsEventfd initval semaphore nonblock) as os efd := by
  refine ⟨(Good.create hinitval ..).agrees,Trace.of_steps (fun efd a hgood hok => ?_) (Good.create hinitval ..) hrun⟩
  obtain ⟨⟨efd',r⟩,hs⟩ := Option.isSome_iff_exists.mp hok.1
  have hgood' := hgood.step hok.2 hs
  exact ⟨efd',r,hs,hgood',hgood'.agrees⟩

def filledUp : List Action := [.write (2^64-3),.write 1,.read,.write 0,.write 1]

theorem runs_agree_filledUp :
    Agrees (zvfsEventfd 1 true false) ∧
      ∃ efd os, serve? step (zvfsEventfd 1 true false) filledUp = some (efd,os) ∧
        Trace (fun _ _ _ efd' => Agrees efd') (zvfsEventfd 1 true false) filledUp os efd :=
  runs_agree 1 (by norm_num) true false filledUp (by decide +kernel)

/-- A 0 written to an empty counter raises the read signal. -/
theorem zero_raises_read :
    ∃ efd, step (zvfsEventfd 0 false true) (.write 0) = some (efd,.ok 0) ∧ efd.cnt = 0 ∧ efd.readSig = true ∧
      pollPrepare 1 1 = .ok [.read] ∧ pollUpdate efd 1 0 = 0 :=
  ⟨_,rfl,rfl,rfl,by decide,by decide⟩

end ArmFirmware.Zephyr.Eventfd
