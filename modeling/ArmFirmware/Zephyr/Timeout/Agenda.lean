import ArmFirmware.Library.Trace
import ArmFirmware.Zephyr.Timeout.Model

/-! What the timeout queue is for: every timeout has a fixed expiry, and the announcements call
the timeouts they reach in order of expiry, the first added first. -/
namespace ArmFirmware.Zephyr.Timeout
open Library List

/-- The timeouts that are to be called with their expiries, in the order they were added. -/
structure Agenda (α : Type*) where
  now : ℤ
  announced : ℤ
  pending : List (α × ℤ)
  busy : Bool

namespace Agenda
variable {α : Type*} [DecidableEq α]

def init : Agenda α := ⟨0,0,[],false⟩

/-- An announcement goes on: it calls the first added of the timeouts that expire next, at the
tick of its expiry, or ends at the announced tick when none is left to expire by then. -/
inductive Proceeds : Agenda α → Reply α → Agenda α → Prop
  | calls {a : Agenda α} {l₁ l₂ : List (α × ℤ)} {t : α} {e : ℤ} (h : a.pending = l₁++(t,e)::l₂)
      (hdue : e ≤ a.announced) (h₁ : ∀ q ∈ l₁, e < q.2) (h₂ : ∀ q ∈ l₂, e ≤ q.2) :
      Proceeds a (.called t e) {a with now := e, pending := l₁++l₂, busy := true}
  | ends {a : Agenda α} (h : ∀ q ∈ a.pending, a.announced < q.2) :
      Proceeds a .finished {a with now := a.announced, busy := false}

/-- The steps of an agenda. -/
inductive Step (cfg : Config) : Agenda α → Action α → Reply α → Agenda α → Prop
  | forever (a t e) : Step cfg a (.add t cfg.kTicksForever e) .added a
  | absolute (a t ticks e) (hcfg : cfg.timeout64) (hticks : ticks ≤ -2)
      (hnew : ∀ q ∈ a.pending, q.1 ≠ t) : Step cfg a (.add t ticks e) .added
        {a with pending := a.pending++[(t,max (a.now+1) (-2-ticks))]}
  | relative (a t ticks e) (hforever : ticks ≠ cfg.kTicksForever) (hticks : 0 ≤ ticks)
      (hnew : ∀ q ∈ a.pending, q.1 ≠ t) (el : ℕ) (hel : el = e ∨ a.busy ∧ el = 0) :
      Step cfg a (.add t ticks e) .added {a with pending := a.pending++[(t,a.now+ticks+1+el)]}
  | abort (a t) (h : ∃ q ∈ a.pending, q.1 = t) : Step cfg a (.abort t) (.aborted 0)
      {a with pending := a.pending.filter (·.1 ≠ t)}
  | abort_inactive (a t) (h : ∀ q ∈ a.pending, q.1 ≠ t) :
      Step cfg a (.abort t) (.aborted (-EINVAL)) a
  | announce {a n o a'} (hidle : a.busy = false) (hn : 0 ≤ n)
      (h : Proceeds {a with announced := a.announced+n} o a') : Step cfg a (.announce n) o a'
  | absorb {a n} (hbusy : a.busy = true) (hn : 0 ≤ n) :
      Step cfg a (.announce n) .absorbed {a with announced := a.announced+n}
  | resume {a i o a'} (hbusy : a.busy = true) (h : Proceeds a o a') : Step cfg a (.resume i) o a'
  | remaining (a t e expiry) (h : (t,expiry) ∈ a.pending) (el : ℕ)
      (hel : el = e ∨ a.busy ∧ el = 0) :
      Step cfg a (.remaining t e) (.ticks (cfg.toTicks (expiry-a.now-el))) a
  | remaining_inactive (a t e) (h : ∀ q ∈ a.pending, q.1 ≠ t) :
      Step cfg a (.remaining t e) (.ticks 0) a
  | expires (a t expiry) (h : (t,expiry) ∈ a.pending) :
      Step cfg a (.expires t) (.ticks (cfg.toTicks expiry)) a
  | expires_inactive (a t) (h : ∀ q ∈ a.pending, q.1 ≠ t) :
      Step cfg a (.expires t) (.ticks (cfg.toTicks a.now)) a

/-- No timeout is pending twice or past its expiry, and between announcements all that was
announced has been dealt with. -/
structure Sound (a : Agenda α) : Prop where
  nodup : (a.pending.map Prod.fst).Nodup
  due : ∀ q ∈ a.pending, a.now ≤ q.2
  announced : a.now ≤ a.announced
  idle : a.busy = false → a.now = a.announced ∧ ∀ q ∈ a.pending, a.announced < q.2

/-- A call that puts the timeout on the agenda. -/
def isAddition (cfg : Config) (t : α) : Action α → Bool
  | .add u ticks _ => u = t ∧ ticks ≠ cfg.kTicksForever
  | _ => false

attribute [local simp] isAddition

/-- A call that takes the timeout off the agenda before it is called. -/
def isAbort (t : α) : Action α × Reply α → Bool
  | (.abort u,.aborted ret) => u = t ∧ ret = 0
  | _ => false

attribute [local simp] isAbort

def isCall (t : α) : Reply α → Bool
  | .called u _ => u = t
  | _ => false

attribute [local simp] isCall

def callTicks (os : List (Reply α)) : List ℤ :=
  os.filterMap fun
    | .called _ e => some e
    | _ => none

section Invariant
omit [DecidableEq α]
variable {a a' : Agenda α} {o : Reply α}

lemma sound_init : (init : Agenda α).Sound := ⟨by simp [init],by simp [init],le_rfl,by simp [init]⟩

lemma Sound.add (h : a.Sound) {t : α} {e : ℤ} (hnew : ∀ q ∈ a.pending, q.1 ≠ t) (he : a.now < e) :
    Sound {a with pending := a.pending++[(t,e)]} := by
  refine ⟨?_,?_,h.announced,fun hb => ⟨(h.idle hb).1,?_⟩⟩
  · simpa [nodup_append,h.nodup] using fun u x hq hu => hnew (u,x) hq hu
  · intro q hq
    rcases mem_append.mp hq with hq | hq
    · exact h.due q hq
    · rw [mem_singleton.mp hq]
      exact he.le
  · intro q hq
    rcases mem_append.mp hq with hq | hq
    · exact (h.idle hb).2 q hq
    · rw [mem_singleton.mp hq]
      exact (h.idle hb).1 ▸ he

lemma Proceeds.sound (h : Proceeds a o a') (hnodup : (a.pending.map Prod.fst).Nodup) : a'.Sound := by
  cases h with
  | @calls l₁ l₂ t e h hdue h₁ h₂ =>
    refine ⟨?_,?_,hdue,by simp⟩
    · rw [h] at hnodup
      exact hnodup.sublist (((List.Sublist.refl l₁).append (sublist_cons_self _ l₂)).map _)
    · intro q hq
      rcases mem_append.mp hq with hq | hq
      · exact (h₁ q hq).le
      · exact h₂ q hq
  | ends h => exact ⟨hnodup,fun q hq => (h q hq).le,le_rfl,fun _ => ⟨rfl,h⟩⟩

lemma Proceeds.now_le (h : Proceeds a o a') (hdue : ∀ q ∈ a.pending, a.now ≤ q.2)
    (hann : a.now ≤ a.announced) : a.now ≤ a'.now := by
  cases h with
  | @calls l₁ l₂ t e h => exact hdue (t,e) (by simp [h])
  | ends => exact hann

end Invariant

section Steps
variable {cfg : Config} {a a' : Agenda α} {i : Action α} {o : Reply α}

lemma Step.sound (h : Step cfg a i o a') (hs : a.Sound) : a'.Sound := by
  cases h with
  | absolute t ticks e _ _ hnew => exact hs.add hnew (by omega)
  | relative t ticks e _ _ hnew el => exact hs.add hnew (by omega)
  | abort t =>
    exact ⟨hs.nodup.sublist (filter_sublist.map _),fun q hq => hs.due q (mem_of_mem_filter hq),
      hs.announced,fun hb => ⟨(hs.idle hb).1,fun q hq => (hs.idle hb).2 q (mem_of_mem_filter hq)⟩⟩
  | announce _ _ h => exact h.sound hs.nodup
  | resume _ h => exact h.sound hs.nodup
  | absorb hbusy hn =>
    have := hs.announced
    exact ⟨hs.nodup,hs.due,by simp only; omega,by simp [hbusy]⟩
  | forever | abort_inactive | remaining | remaining_inactive | expires | expires_inactive =>
    exact hs

lemma Step.now_le (h : Step cfg a i o a') (hs : a.Sound) : a.now ≤ a'.now := by
  have hann := hs.announced
  cases h with
  | announce _ hn h => exact h.now_le hs.due (by simp only; omega)
  | resume _ h => exact h.now_le hs.due hann
  | _ => exact le_rfl

lemma Step.now_of_called {t : α} {e : ℤ} (h : Step cfg a i (.called t e) a') : a'.now = e := by
  cases h with
  | announce _ _ h => cases h; rfl
  | resume _ h => cases h; rfl

/-- What is added is called, aborted or pending. -/
lemma Step.accounts (h : Step cfg a i o a') (hs : a.Sound) (t : α) :
    a.pending.countP (·.1 = t)+[i].countP (isAddition cfg t) =
      [o].countP (isCall t)+[(i,o)].countP (isAbort t)+a'.pending.countP (·.1 = t) := by
  have hproceeds : ∀ {b b' : Agenda α}, Proceeds b o b' →
      b.pending.countP (·.1 = t) = [o].countP (isCall t)+b'.pending.countP (·.1 = t) := by
    intro b b' hp
    cases hp with
    | @calls l₁ l₂ u e hpending =>
      rw [hpending,countP_append,countP_append,countP_cons]
      by_cases hu : u = t
      · simp [hu]
        omega
      · simp [hu]
    | ends => simp
  cases h with
  | forever => simp
  | absolute u ticks e hcfg hticks =>
    have : ticks ≠ cfg.kTicksForever := by
      simp only [Config.kTicksForever,Config.toTicks,hcfg,if_true]
      intro h
      rw [h] at hticks
      exact absurd hticks (by decide)
    simp [countP_cons,this]
  | relative u ticks e hforever => simp [countP_cons,hforever]
  | abort u hmem =>
    by_cases hu : u = t
    · subst hu
      obtain ⟨q,hq,rfl⟩ := hmem
      have hone : a.pending.countP (·.1 = q.1) = 1 := by
        have := count_eq_one_of_mem hs.nodup (mem_map_of_mem (f := Prod.fst) hq)
        rw [List.count,countP_map] at this
        rw [← this]
        exact countP_congr fun x _ => by simp
      have hnone : (a.pending.filter (·.1 ≠ q.1)).countP (·.1 = q.1) = 0 := by
        simp [countP_eq_zero]
      simp only [hone,hnone]
      simp
    · have hsame : (a.pending.filter (·.1 ≠ u)).countP (·.1 = t) = a.pending.countP (·.1 = t) := by
        rw [countP_filter]
        refine countP_congr fun x _ => ?_
        simp only [Bool.and_eq_true,decide_eq_true_eq,and_iff_left_iff_imp]
        rintro rfl
        exact fun h => hu h.symm
      simp only [hsame]
      simp [hu]
  | abort_inactive => simp [EINVAL]
  | announce _ _ h =>
    have := hproceeds h
    simpa using this
  | absorb => simp
  | resume _ h =>
    have := hproceeds h
    simpa using this
  | remaining | remaining_inactive | expires | expires_inactive =>
    simp

end Steps

section Runs
variable {cfg : Config} {a a' : Agenda α} {is : List (Action α)} {os : List (Reply α)}

/-- Along a run every timeout that is put on the agenda is called or aborted once, or still
to be called. -/
theorem accounts (h : Trace (Step cfg) a is os a') (hs : a.Sound) (t : α) :
    a.pending.countP (·.1 = t)+is.countP (isAddition cfg t) =
      os.countP (isCall t)+(is.zip os).countP (isAbort t)+a'.pending.countP (·.1 = t) := by
  induction h with
  | nil => simp
  | @cons a b c i o is os head tail ih =>
    have h₁ := head.accounts hs t
    have h₂ := ih (head.sound hs)
    rw [← singleton_append (l := is),← singleton_append (l := os),
      zip_append (by simp),countP_append,countP_append,countP_append]
    simp only [zip_cons_cons,zip_nil_left]
    omega

theorem callTicks_sorted (h : Trace (Step cfg) a is os a') (hs : a.Sound) :
    (callTicks os).Pairwise (· ≤ ·) ∧ ∀ e ∈ callTicks os, a.now ≤ e := by
  induction h with
  | nil => simp [callTicks]
  | @cons a b c i o is os head tail ih =>
    obtain ⟨hsorted,hlater⟩ := ih (head.sound hs)
    have hle := head.now_le hs
    cases o with
    | called t e =>
      have hnow := head.now_of_called
      refine ⟨.cons (fun x hx => hnow ▸ hlater x hx) hsorted,fun x hx => ?_⟩
      rcases mem_cons.mp hx with rfl | hx
      · exact hnow ▸ hle
      · exact hle.trans (hlater x hx)
    | _ => exact ⟨hsorted,fun x hx => hle.trans (hlater x hx)⟩

end Runs
end Agenda
end ArmFirmware.Zephyr.Timeout
