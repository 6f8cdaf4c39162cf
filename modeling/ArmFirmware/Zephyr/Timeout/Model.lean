import Mathlib

/-! The timeout queue of `kernel/timeout.c`. A step is what one CPU does while it holds
`timeout_lock`: `sys_clock_announce` gives the lock up for every callback, so that other steps
come between the call and its return. -/
namespace ArmFirmware.Zephyr.Timeout

def EINVAL : ℤ := 22

/-- `CONFIG_SMP` and `CONFIG_TIMEOUT_64BIT`. -/
structure Config where
  smp : Bool
  timeout64 : Bool

/-- Conversion to a signed type of the given width. -/
def toSigned (w : ℕ) (x : ℤ) : ℤ := x.bmod (2^w)

def Config.dticksBits (cfg : Config) : ℕ := if cfg.timeout64 then 64 else 32

def Config.toTicks (cfg : Config) (x : ℤ) : ℤ :=
  if cfg.timeout64 then toSigned 64 x else x % 2^32

def Config.kTicksForever (cfg : Config) : ℤ := cfg.toTicks (-1)

/-- `Z_TICK_ABS` with 64-bit ticks. -/
def zTickAbs (ticks : ℤ) : ℤ := toSigned 64 (-1-1-ticks)

/-- The file's variables, and for every `sys_clock_announce` inside a callback the timeout
it called and its local `dt`. -/
structure State (α : Type*) where
  currTick : ℕ
  timeoutList : List (α × ℤ)
  announceRemaining : ℤ
  calling : List (α × ℤ)

def init {α : Type*} : State α := ⟨0,[],0,[]⟩

inductive Action (α : Type*)
  /-- `z_add_timeout` with the driver's `sys_clock_elapsed()` at that time. -/
  | add (t : α) (ticks : ℤ) (sysClockElapsed : ℕ)
  | abort (t : α)
  /-- `sys_clock_announce`, up to its first callback or its end. -/
  | announce (ticks : ℤ)
  /-- The callback of one announcement returns, and its loop goes on. -/
  | resume (i : ℕ)
  | remaining (t : α) (sysClockElapsed : ℕ)
  | expires (t : α)

inductive Reply (α : Type*)
  | added
  | aborted (ret : ℤ)
  | called (t : α) (currTick : ℤ)
  | absorbed
  | finished
  | ticks (n : ℤ)
  deriving DecidableEq

section Functions
variable {α : Type*} [DecidableEq α] (cfg : Config)

def shiftHead (w : ℕ) (d : ℤ) : List (α × ℤ) → List (α × ℤ)
  | [] => []
  | (u,e)::l => (u,toSigned w (e+d))::l

def removeTimeout (w : ℕ) (t : α) : List (α × ℤ) → List (α × ℤ)
  | [] => []
  | (u,d)::l => if u = t then shiftHead w d l else (u,d)::removeTimeout w t l

/-- `elapsed()`: within an announcement new timeouts count from the tick being announced. -/
def elapsed (s : State α) (sysClockElapsed : ℕ) : ℤ :=
  if s.announceRemaining = 0 then toSigned 32 sysClockElapsed else 0

def insertTimeout (w : ℕ) (t : α) (d : ℤ) : List (α × ℤ) → List (α × ℤ)
  | [] => [(t,d)]
  | (u,e)::l => if d < e then (t,d)::(u,toSigned w (e-d))::l
    else (u,e)::insertTimeout w t (toSigned w (d-e)) l

/-- The `dticks` that a new timeout starts the search with. -/
def startTicks (s : State α) (ticks : ℤ) (sysClockElapsed : ℕ) : ℤ :=
  if cfg.timeout64 ∧ 0 ≤ zTickAbs ticks then
    max 1 (toSigned 64 (zTickAbs ticks-s.currTick))
  else toSigned cfg.dticksBits (ticks+1+elapsed s sysClockElapsed)

def Linked (s : State α) (t : α) : Prop := t ∈ s.timeoutList.map Prod.fst

instance (s : State α) (t : α) : Decidable (Linked s t) := by unfold Linked; infer_instance

/-- `z_add_timeout`; a linked timeout fails its assertion. -/
def zAddTimeout (s : State α) (t : α) (ticks : ℤ) (sysClockElapsed : ℕ) : Option (State α) :=
  if ticks = cfg.kTicksForever then some s
  else if Linked s t then none
  else
    let dticks := startTicks cfg s ticks sysClockElapsed
    some {s with timeoutList := insertTimeout cfg.dticksBits t dticks s.timeoutList}

def zAbortTimeout (s : State α) (t : α) : State α × ℤ :=
  if Linked s t then ({s with timeoutList := removeTimeout cfg.dticksBits t s.timeoutList},0)
  else (s,-EINVAL)

def advance (currTick : ℕ) (dt : ℤ) : ℕ := ((currTick+dt) % 2^64).toNat

def announceEnd (s : State α) : State α :=
  ⟨advance s.currTick s.announceRemaining,
    shiftHead cfg.dticksBits (-s.announceRemaining) s.timeoutList,0,s.calling⟩

/-- The loop of `sys_clock_announce`, up to the next callback or the end. -/
def announceLoop (s : State α) : State α × Reply α :=
  match s.timeoutList with
  | [] => (announceEnd cfg s,.finished)
  | (t,d)::l =>
    if d ≤ s.announceRemaining then
      let dt := toSigned 32 d
      let currTick := advance s.currTick dt
      (⟨currTick,removeTimeout cfg.dticksBits t ((t,0)::l),s.announceRemaining,(t,dt)::s.calling⟩,
        .called t currTick)
    else (announceEnd cfg s,.finished)

def sysClockAnnounce (s : State α) (ticks : ℤ) : State α × Reply α :=
  if cfg.smp ∧ s.announceRemaining ≠ 0 then
    ({s with announceRemaining := toSigned 32 (s.announceRemaining+ticks)},.absorbed)
  else announceLoop cfg {s with announceRemaining := ticks}

/-- The callback of the `i`-th announcement under way returns. -/
def callbackReturn (s : State α) (i : ℕ) : Option (State α × Reply α) :=
  s.calling[i]?.map fun c => announceLoop cfg
    {s with
      announceRemaining := toSigned 32 (s.announceRemaining-c.2)
      calling := s.calling.eraseIdx i}

def timeoutRem (t : α) (ticks : ℤ) : List (α × ℤ) → ℤ
  | [] => ticks
  | (u,d)::l => if t = u then cfg.toTicks (ticks+d) else timeoutRem t (cfg.toTicks (ticks+d)) l

def zTimeoutRemaining (s : State α) (t : α) (sysClockElapsed : ℕ) : ℤ :=
  if Linked s t then
    cfg.toTicks (timeoutRem cfg t 0 s.timeoutList-elapsed s sysClockElapsed)
  else 0

def zTimeoutExpires (s : State α) (t : α) : ℤ :=
  if Linked s t then
    cfg.toTicks (cfg.toTicks s.currTick+timeoutRem cfg t 0 s.timeoutList)
  else cfg.toTicks s.currTick

def step (s : State α) : Action α → Option (State α × Reply α)
  | .add t ticks e => (zAddTimeout cfg s t ticks e).map fun s' => (s',.added)
  | .abort t =>
    let r := zAbortTimeout cfg s t
    some (r.1,.aborted r.2)
  | .announce ticks => some (sysClockAnnounce cfg s ticks)
  | .resume i => callbackReturn cfg s i
  | .remaining t e => some (s,.ticks (zTimeoutRemaining cfg s t e))
  | .expires t => some (s,.ticks (zTimeoutExpires cfg s t))

/-- The steps that keep the times: values stay in the range of their types, and no
announcement starts while another one is inside a callback with no ticks left to announce. -/
def Meets (s : State α) : Action α → Prop
  | .add t ticks e => ticks = cfg.kTicksForever ∨ ¬Linked s t ∧ e < 2^31 ∧
    (cfg.timeout64 ∧ -2^63 ≤ ticks ∧ ticks ≤ -2 ∨
      0 ≤ ticks ∧ ticks+1+elapsed s e < 2^(cfg.dticksBits-1))
  | .announce ticks => 0 ≤ ticks ∧ s.announceRemaining+ticks < 2^31 ∧
    s.currTick+s.announceRemaining+ticks < 2^63 ∧
    (s.calling = [] ∨ cfg.smp ∧ s.announceRemaining ≠ 0)
  | .resume i => i < s.calling.length
  | .remaining _ e => e < 2^31
  | _ => True

instance (s : State α) : ∀ a, Decidable (Meets cfg s a) := by
  intro a
  unfold Meets
  split <;> infer_instance

end Functions
end ArmFirmware.Zephyr.Timeout
