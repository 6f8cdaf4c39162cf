import ArmFirmware.Library.DeltaQueue
import ArmFirmware.Zephyr.Timeout.Agenda

/-! The delta-encoded list keeps the agenda: its prefix sums from `curr_tick` are the expiries,
also while an announcement is under way and callbacks edit the list. -/
namespace ArmFirmware.Zephyr.Timeout
open Library Library.DeltaQueue List Agenda Int Prod

lemma toSigned_of_mem {w : ℕ} (hw : 0 < w) {x : ℤ} (h₀ : -2^(w-1) ≤ x) (h : x < 2^(w-1)) : toSigned w x = x := by
  obtain ⟨k,rfl⟩ : ∃ k, w = k+1 := ⟨w-1,by omega⟩
  rw [Nat.add_sub_cancel] at h₀ h
  apply bmod_eq_of_le_mul_two
  · push_cast
    rw [pow_succ]
    omega
  · push_cast
    rw [pow_succ]
    omega

lemma toSigned_of_nonneg {w : ℕ} (hw : 0 < w) {x : ℤ} (h₀ : 0 ≤ x) (h : x < 2^(w-1)) : toSigned w x = x :=
  toSigned_of_mem hw ((neg_nonpos.mpr (by positivity)).trans h₀) h

lemma dticksBits_pos (cfg : Config) : 0 < cfg.dticksBits := by
  unfold Config.dticksBits
  split <;> decide

lemma advance_eq {currTick : ℕ} {dt : ℤ} (h₀ : 0 ≤ dt) (h : currTick+dt < 2^63) :
    (advance currTick dt : ℤ) = currTick+dt := by
  rw [advance,emod_eq_of_lt (by omega) (by omega),toNat_of_nonneg (by omega)]

lemma toTicks_add (cfg : Config) (x y : ℤ) : cfg.toTicks (cfg.toTicks x+y) = cfg.toTicks (x+y) := by
  unfold Config.toTicks
  split
  · exact bmod_add_bmod
  · exact emod_add_emod ..

section Lists
variable {α : Type*} {w : ℕ} {base d : ℤ} {l : List (α × ℤ)}

lemma times_shiftHead (hw : 0 < w) (h : ∀ x ∈ l.head?, 0 ≤ x.2+d ∧ x.2+d < 2^(w-1)) :
    times base (shiftHead w d l) = times (base+d) l := by
  cases l with
  | nil => rfl
  | cons x l =>
    obtain ⟨h₀,h₁⟩ := h x rfl
    have : base+(x.2+d) = base+d+x.2 := by ring
    simp [shiftHead,times,toSigned_of_nonneg hw h₀ h₁,this]

lemma shiftHead_nonneg (hw : 0 < w) (hnonneg : ∀ x ∈ l, 0 ≤ x.2)
    (h : ∀ x ∈ l.head?, 0 ≤ x.2+d ∧ x.2+d < 2^(w-1)) : ∀ x ∈ shiftHead w d l, 0 ≤ x.2 := by
  cases l with
  | nil => simp [shiftHead]
  | cons x l =>
    obtain ⟨h₀,h₁⟩ := h x rfl
    intro y hy
    rcases mem_cons.mp hy with rfl | hy
    · rw [toSigned_of_nonneg hw h₀ h₁]
      exact h₀
    · exact hnonneg y (mem_cons_of_mem _ hy)

lemma head_near (hd : 0 ≤ d) (hnonneg : ∀ x ∈ l, 0 ≤ x.2) (hnear : ∀ q ∈ times (base+d) l, q.2 < base+2^(w-1)) :
    ∀ x ∈ l.head?, 0 ≤ x.2+d ∧ x.2+d < 2^(w-1) := by
  intro x hx
  cases l with
  | nil => simp at hx
  | cons y l =>
    obtain rfl : y = x := by simpa using hx
    have h₀ := hnonneg y (mem_cons_self ..)
    have h₁ := hnear _ (mem_cons_self ..)
    omega

/-- The list of deltas has the times of the agenda after an insertion. -/
lemma times_insertTimeout (hw : 0 < w) (t : α) (hd : 0 ≤ d) (hd' : d < 2^(w-1))
    (hnonneg : ∀ x ∈ l, 0 ≤ x.2) (hnear : ∀ q ∈ times base l, q.2 < base+2^(w-1)) :
    times base (insertTimeout w t d l) = insertDue (t,base+d) (times base l) ∧
      ∀ x ∈ insertTimeout w t d l, 0 ≤ x.2 := by
  induction l generalizing base d with
  | nil => simp [insertTimeout,times,insertDue,hd]
  | cons x l ih =>
    obtain ⟨u,e⟩ := x
    have he : 0 ≤ e := hnonneg (u,e) (mem_cons_self ..)
    have hlast := hnear (u,base+e) (mem_cons_self ..)
    have htail : ∀ x ∈ l, 0 ≤ x.2 := fun x hx => hnonneg x (mem_cons_of_mem _ hx)
    simp only [insertTimeout,times,insertDue,add_lt_add_iff_left]
    split_ifs with hlt
    · rw [toSigned_of_nonneg hw (by omega) (by omega)]
      refine ⟨?_,?_⟩
      · have : base+d+(e-d) = base+e := by ring
        simp [times,this]
      · simp only [forall_mem_cons]
        exact ⟨hd,by omega,htail⟩
    · rw [toSigned_of_nonneg hw (by omega) (by omega)]
      obtain ⟨htimes,hpos⟩ := @ih (base+e) (d-e) (by omega) (by omega) htail
        fun q hq => by
          have := hnear q (mem_cons_of_mem _ hq)
          omega
      refine ⟨?_,forall_mem_cons.mpr ⟨he,hpos⟩⟩
      have : base+e+(d-e) = base+d := by ring
      rw [times,htimes,this]

variable [DecidableEq α]

lemma times_removeTimeout (hw : 0 < w) (t : α) (hnonneg : ∀ x ∈ l, 0 ≤ x.2)
    (hnear : ∀ q ∈ times base l, q.2 < base+2^(w-1)) :
    times base (removeTimeout w t l) = (times base l).eraseP (·.1 = t) ∧ ∀ x ∈ removeTimeout w t l, 0 ≤ x.2 := by
  induction l generalizing base with
  | nil => simp [removeTimeout,times]
  | cons x l ih =>
    obtain ⟨u,e⟩ := x
    have he : 0 ≤ e := hnonneg (u,e) (mem_cons_self ..)
    have htail : ∀ x ∈ l, 0 ≤ x.2 := fun x hx => hnonneg x (mem_cons_of_mem _ hx)
    have hnear' : ∀ q ∈ times (base+e) l, q.2 < base+2^(w-1) := fun q hq =>
      hnear q (mem_cons_of_mem _ hq)
    simp only [removeTimeout,times]
    split_ifs with hu
    · have hhead := head_near he htail hnear'
      rw [times_shiftHead hw hhead,eraseP_cons_of_pos (by simpa using hu)]
      exact ⟨rfl,shiftHead_nonneg hw htail hhead⟩
    · obtain ⟨htimes,hpos⟩ := @ih (base+e) htail fun q hq => by
        have := hnear' q hq
        omega
      rw [eraseP_cons_of_neg (by simpa using hu)]
      exact ⟨by rw [times,htimes],forall_mem_cons.mpr ⟨he,hpos⟩⟩

lemma timeoutRem_eq (cfg : Config) {t : α} {e : ℤ} (h : (t,e) ∈ times base l)
    (hnodup : (l.map fst).Nodup) (ticks : ℤ) : timeoutRem cfg t ticks l = cfg.toTicks (ticks+(e-base)) := by
  induction l generalizing base ticks with
  | nil => simp [times] at h
  | cons x l ih =>
    obtain ⟨u,d⟩ := x
    obtain ⟨hu,hl⟩ := nodup_cons.mp hnodup
    rw [timeoutRem]
    rcases mem_cons.mp h with heq | htail
    · obtain ⟨rfl,rfl⟩ := mk.inj heq
      rw [if_pos rfl]
      ring_nf
    · have hmem : t ∈ l.map fst := by
        rw [← times_map_fst (base+d)]
        exact mem_map_of_mem htail
      have hne : t ≠ u := fun htu => hu (htu ▸ hmem)
      rw [if_neg hne,ih htail hl,toTicks_add]
      ring_nf

end Lists

section Refinement
variable {α : Type*} {cfg : Config} {s : State α} {a : Agenda α}

/-- The list spells out the agenda, and the ticks left to announce are those between the
current tick and the announced one. -/
structure Agrees (cfg : Config) (s : State α) (a : Agenda α) : Prop where
  tick : (s.currTick : ℤ) = a.now
  nonneg : ∀ x ∈ s.timeoutList, 0 ≤ x.2
  order : SameOrder (times a.now s.timeoutList) a.pending
  near : ∀ q ∈ a.pending, q.2 < a.now+2^(cfg.dticksBits-1)
  idle : a.busy = false → s.calling = [] ∧ s.announceRemaining = 0
  busy : a.busy = true → ∃ t dt, s.calling = [(t,dt)] ∧ 0 ≤ dt ∧ dt ≤ s.announceRemaining ∧
    a.announced = a.now+s.announceRemaining-dt
  remaining : s.announceRemaining < 2^31
  announced : a.announced < 2^63

lemma agrees_init : Agrees cfg (init : State α) Agenda.init :=
  ⟨rfl,by simp [init],.refl _,by simp [Agenda.init],by simp [init],by simp [Agenda.init],
    by simp [init],by simp [Agenda.init]⟩

namespace Agrees

section
variable (h : Agrees cfg s a)
include h

lemma near_times : ∀ q ∈ times a.now s.timeoutList, q.2 < a.now+2^(cfg.dticksBits-1) := fun q hq =>
  h.near q ((h.order.mem_iff q).mp hq)

lemma nodup [DecidableEq α] (hs : a.Sound) : (s.timeoutList.map fst).Nodup := by
  rw [← times_map_fst a.now]
  exact (h.order.perm.map fst).nodup_iff.mpr hs.nodup

lemma linked_iff (t : α) : Linked s t ↔ ∃ q ∈ a.pending, q.1 = t := by
  rw [Linked,← times_map_fst a.now,mem_map]
  exact exists_congr fun q => and_congr_left fun _ => h.order.mem_iff q

lemma not_linked_iff (t : α) : ¬Linked s t ↔ ∀ q ∈ a.pending, q.1 ≠ t := by
  rw [h.linked_iff]
  exact not_exists.trans (forall_congr' fun q => not_and)

lemma elapsed_cases {e : ℕ} (he : e < 2^31) : ∃ el : ℕ, elapsed s e = el ∧ (el = e ∨ a.busy ∧ el = 0) := by
  unfold elapsed
  split_ifs with hr
  · exact ⟨e,toSigned_of_nonneg (by decide) (by omega) (by exact_mod_cast he),.inl rfl⟩
  · refine ⟨0,rfl,.inr ⟨?_,rfl⟩⟩
    by_contra hb
    exact hr (h.idle (by simpa using hb)).2

lemma add {t : α} {d : ℤ} (h₀ : 0 ≤ d) (h₁ : d < 2^(cfg.dticksBits-1)) :
    Agrees cfg {s with timeoutList := insertTimeout cfg.dticksBits t d s.timeoutList}
      {a with pending := a.pending++[(t,a.now+d)]} := by
  obtain ⟨htimes,hpos⟩ := times_insertTimeout (dticksBits_pos cfg) t h₀ h₁ h.nonneg h.near_times
  refine ⟨h.tick,hpos,?_,?_,h.idle,h.busy,h.remaining,h.announced⟩
  · rw [htimes]
    exact h.order.insertDue (times_inTime h.nonneg) _
  · intro q hq
    rcases mem_append.mp hq with hq | hq
    · exact h.near q hq
    · rw [mem_singleton.mp hq]
      exact add_lt_add_of_le_of_lt le_rfl h₁

lemma abort [DecidableEq α] (hs : a.Sound) (t : α) :
    Agrees cfg {s with timeoutList := removeTimeout cfg.dticksBits t s.timeoutList}
      {a with pending := a.pending.filter (·.1 ≠ t)} := by
  obtain ⟨htimes,hpos⟩ := times_removeTimeout (dticksBits_pos cfg) t h.nonneg h.near_times
  refine ⟨h.tick,hpos,?_,fun q hq => h.near q (mem_of_mem_filter hq),h.idle,h.busy,h.remaining,h.announced⟩
  rw [htimes]
  refine h.order.eraseP ?_ t
  rw [times_map_fst]
  exact h.nodup hs

end

end Agrees

/-- Between two callbacks the loop of `sys_clock_announce` does what the agenda asks for. -/
lemma announceLoop_spec [DecidableEq α] (cfg : Config) (htick : (s.currTick : ℤ) = a.now)
    (hnonneg : ∀ x ∈ s.timeoutList, 0 ≤ x.2) (horder : SameOrder (times a.now s.timeoutList) a.pending)
    (hnear : ∀ q ∈ a.pending, q.2 < a.now+2^(cfg.dticksBits-1)) (hcalling : s.calling = [])
    (h₀ : 0 ≤ s.announceRemaining) (h₁ : s.announceRemaining < 2^31)
    (hann : a.announced = a.now+s.announceRemaining) (h₂ : a.announced < 2^63) :
    ∃ a', a.Proceeds (announceLoop cfg s).2 a' ∧ Agrees cfg (announceLoop cfg s).1 a' := by
  have hend : (∀ q ∈ a.pending, a.announced < q.2) →
      (∀ x ∈ s.timeoutList.head?, s.announceRemaining < x.2) →
      a.Proceeds .finished {a with now := a.announced, busy := false} ∧
        Agrees cfg (announceEnd cfg s) {a with now := a.announced, busy := false} := by
    intro hlater hhead
    have hshift : ∀ x ∈ s.timeoutList.head?, 0 ≤ x.2+-s.announceRemaining ∧
        x.2+-s.announceRemaining < 2^(cfg.dticksBits-1) := by
      intro x hx
      have hlt := hhead x hx
      have hmem : (x.1,a.now+x.2) ∈ a.pending := by
        rw [← horder.mem_iff]
        obtain ⟨l,hl⟩ := List.head?_eq_some_iff.mp (Option.mem_def.mp hx)
        simp [hl,times]
      have := hnear _ hmem
      simp only at this
      omega
    refine ⟨.ends hlater,?_,?_,?_,?_,?_,by simp,by simp [announceEnd],h₂⟩
    · rw [announceEnd,advance_eq h₀ (by omega),htick,hann]
    · exact shiftHead_nonneg (dticksBits_pos cfg) hnonneg hshift
    · rw [announceEnd,times_shiftHead (dticksBits_pos cfg) hshift,hann,add_neg_cancel_right]
      exact horder
    · intro q hq
      have := hnear q hq
      simp only
      omega
    · exact fun _ => ⟨hcalling,rfl⟩
  unfold announceLoop
  cases hl : s.timeoutList with
  | nil =>
    refine ⟨_,hend (fun q hq => ?_) (by simp [hl])⟩
    rw [← horder.mem_iff,hl] at hq
    simp [times] at hq
  | cons x l =>
    obtain ⟨t,d⟩ := x
    rw [hl] at horder hnonneg
    have hd : 0 ≤ d := hnonneg (t,d) (mem_cons_self ..)
    have htail : ∀ x ∈ l, 0 ≤ x.2 := fun x hx => hnonneg x (mem_cons_of_mem _ hx)
    simp only
    split_ifs with hle
    · obtain ⟨l₁,l₂,hp,hbefore,hafter,hrest⟩ := horder.head (times_inTime hnonneg)
      have hdt : toSigned 32 d = d := toSigned_of_nonneg (by decide) hd (by omega)
      have hadv : (advance s.currTick d : ℤ) = a.now+d := by rw [advance_eq hd (by omega),htick]
      have hnear' : ∀ q ∈ times (a.now+d+0) l, q.2 < a.now+d+2^(cfg.dticksBits-1) := by
        intro q hq
        rw [add_zero] at hq
        have := hnear q ((horder.mem_iff q).mp (mem_cons_of_mem _ hq))
        omega
      have hhead := head_near le_rfl htail hnear'
      rw [hdt,hadv]
      refine ⟨{a with now := a.now+d, pending := l₁++l₂, busy := true},
        .calls hp (by omega) hbefore hafter,hadv,?_,?_,?_,by simp,?_,h₁,h₂⟩
      · simpa [removeTimeout] using shiftHead_nonneg (dticksBits_pos cfg) htail hhead
      · simpa [removeTimeout,times_shiftHead (dticksBits_pos cfg) hhead] using hrest
      · intro q hq
        have := hnear q (by rw [hp]; simp only [mem_append,mem_cons] at hq ⊢; tauto)
        simp only
        omega
      · intro _
        exact ⟨t,d,by simp [hcalling],hd,hle,by simp only; omega⟩
    · refine ⟨_,hend (fun q hq => ?_) (by simp [hl]; omega)⟩
      rcases mem_cons.mp ((horder.mem_iff q).mpr hq) with rfl | hq
      · simp only
        omega
      · have := le_of_mem_times htail hq
        omega


lemma startTicks_absolute (h : Agrees cfg s a) (hs : a.Sound) (hcfg : cfg.timeout64) {ticks : ℤ}
    (h₀ : -2^63 ≤ ticks) (h₁ : ticks ≤ -2) (e : ℕ) : startTicks cfg s ticks e = max 1 (-2-ticks-a.now) := by
  have habs : zTickAbs ticks = -2-ticks := by
    rw [zTickAbs,toSigned_of_nonneg (by decide) (by omega) (by omega)]
    ring
  have hnow := h.tick
  have hann := hs.announced
  have hsmall := h.announced
  rw [startTicks,if_pos ⟨hcfg,by omega⟩,habs,hnow,toSigned_of_mem (by decide) (by omega) (by omega)]

lemma startTicks_relative {ticks : ℤ} {e : ℕ} (h₀ : 0 ≤ ticks) (hel : 0 ≤ elapsed s e)
    (h₁ : ticks+1+elapsed s e < 2^(cfg.dticksBits-1)) : startTicks cfg s ticks e = ticks+1+elapsed s e := by
  rw [startTicks,if_neg ?_,toSigned_of_nonneg (dticksBits_pos cfg) (by omega) h₁]
  rintro ⟨hcfg,hle⟩
  have hbits : cfg.dticksBits = 64 := if_pos hcfg
  rw [hbits] at h₁
  rw [zTickAbs,toSigned_of_mem (by decide) (by omega) (by omega)] at hle
  omega

section Steps
variable [DecidableEq α]

section
variable (h : Agrees cfg s a)
include h

/-- `z_add_timeout` is a step of the agenda. -/
lemma add_refines (hs : a.Sound) {t : α} {ticks : ℤ} {e : ℕ} (hok : Meets cfg s (.add t ticks e)) :
    ∃ s' a', zAddTimeout cfg s t ticks e = some s' ∧ Agenda.Step cfg a (.add t ticks e) .added a' ∧
      Agrees cfg s' a' := by
  by_cases hforever : ticks = cfg.kTicksForever
  · subst hforever
    exact ⟨s,a,if_pos rfl,.forever a t e,h⟩
  · obtain ⟨hlinked,he,hrange⟩ := hok.resolve_left hforever
    have hnew := (h.not_linked_iff t).mp hlinked
    rw [zAddTimeout,if_neg hforever,if_neg hlinked]
    rcases hrange with ⟨hcfg,h₀,h₁⟩ | ⟨h₀,h₁⟩
    · have hbits : cfg.dticksBits = 64 := if_pos hcfg
      have hnow := h.tick ▸ natCast_nonneg _
      have hmax : a.now+max 1 (-2-ticks-a.now) = max (a.now+1) (-2-ticks) := by omega
      rw [startTicks_absolute h hs hcfg h₀ h₁]
      refine ⟨_,_,rfl,.absolute a t ticks e hcfg h₁ hnew,?_⟩
      rw [← hmax]
      exact h.add (by omega) (by rw [hbits]; omega)
    · obtain ⟨el,hel,hcases⟩ := h.elapsed_cases he
      rw [startTicks_relative h₀ (by omega) h₁]
      refine ⟨_,_,rfl,.relative a t ticks e hforever h₀ hnew el hcases,?_⟩
      have hsum : a.now+ticks+1+el = a.now+(ticks+1+elapsed s e) := by rw [hel]; ring
      rw [hsum]
      exact h.add (by omega) h₁

lemma abort_refines (hs : a.Sound) (t : α) :
    ∃ a', Agenda.Step cfg a (.abort t) (.aborted (zAbortTimeout cfg s t).2) a' ∧
      Agrees cfg (zAbortTimeout cfg s t).1 a' := by
  by_cases hl : Linked s t
  · rw [zAbortTimeout,if_pos hl]
    exact ⟨_,.abort a t ((h.linked_iff t).mp hl),h.abort hs t⟩
  · rw [zAbortTimeout,if_neg hl]
    exact ⟨a,.abort_inactive a t ((h.not_linked_iff t).mp hl),h⟩

/-- `sys_clock_announce` is a step of the agenda. -/
lemma announce_refines (hs : a.Sound) {n : ℤ} (hok : Meets cfg s (.announce n)) :
    ∃ a', Agenda.Step cfg a (.announce n) (sysClockAnnounce cfg s n).2 a' ∧
      Agrees cfg (sysClockAnnounce cfg s n).1 a' := by
  obtain ⟨hn,hrem,hcurr,hfree⟩ := hok
  have htick := h.tick
  cases hb : a.busy with
  | false =>
    obtain ⟨hcalling,hzero⟩ := h.idle hb
    have hnow := (hs.idle hb).1
    rw [sysClockAnnounce,if_neg fun hc => hc.2 hzero]
    obtain ⟨a',hp,hagrees⟩ := announceLoop_spec cfg (s := {s with announceRemaining := n})
      (a := {a with announced := a.announced+n}) htick h.nonneg h.order h.near hcalling hn
      (by simp only; omega) (by simp only; omega) (by simp only; omega)
    exact ⟨a',.announce hb hn hp,hagrees⟩
  | true =>
    obtain ⟨t,dt,hcalling,h₀,h₁,hann⟩ := h.busy hb
    have hsmp := hfree.resolve_left (by simp [hcalling])
    have hsum : toSigned 32 (s.announceRemaining+n) = s.announceRemaining+n :=
      toSigned_of_nonneg (by decide) (by omega) (by omega)
    rw [sysClockAnnounce,if_pos hsmp,hsum]
    refine ⟨_,.absorb hb hn,htick,h.nonneg,h.order,h.near,by simp [hb],fun _ => ?_,hrem,?_⟩
    · exact ⟨t,dt,hcalling,h₀,by simp only; omega,by simp only; omega⟩
    · simp only
      omega

lemma resume_refines {i : ℕ} (hok : Meets cfg s (.resume i)) :
    ∃ s' o a', callbackReturn cfg s i = some (s',o) ∧ Agenda.Step cfg a (.resume i) o a' ∧ Agrees cfg s' a' := by
  have hlt : i < s.calling.length := hok
  have hb : a.busy = true := by
    by_contra hb
    simp [(h.idle (by simpa using hb)).1] at hlt
  obtain ⟨t,dt,hcalling,h₀,h₁,hann⟩ := h.busy hb
  have hrem := h.remaining
  obtain rfl : i = 0 := by
    simp only [hcalling,length_singleton] at hlt
    omega
  have hsub : toSigned 32 (s.announceRemaining-dt) = s.announceRemaining-dt :=
    toSigned_of_nonneg (by decide) (by omega) (by omega)
  obtain ⟨a',hp,hagrees⟩ := announceLoop_spec cfg
    (s := {s with announceRemaining := s.announceRemaining-dt, calling := []}) h.tick h.nonneg
    h.order h.near rfl (by simp only; omega) (by simp only; omega) (by simp only; omega) h.announced
  refine ⟨_,_,a',?_,.resume hb hp,hagrees⟩
  simp [callbackReturn,hcalling,hsub]

/-- Every step keeps the list in agreement with the agenda. -/
theorem step_refines (hs : a.Sound) (i : Action α) (hok : Meets cfg s i) :
    ∃ s' o a', step cfg s i = some (s',o) ∧ Agenda.Step cfg a i o a' ∧ Agrees cfg s' a' := by
  cases i with
  | add t ticks e =>
    obtain ⟨s',a',he,hstep,hagrees⟩ := add_refines h hs hok
    exact ⟨s',_,a',by rw [step,he]; rfl,hstep,hagrees⟩
  | abort t =>
    obtain ⟨a',hstep,hagrees⟩ := abort_refines h hs t
    exact ⟨_,_,a',rfl,hstep,hagrees⟩
  | announce n =>
    obtain ⟨a',hstep,hagrees⟩ := announce_refines h hs hok
    exact ⟨_,_,a',rfl,hstep,hagrees⟩
  | resume i => exact resume_refines h hok
  | remaining t e =>
    refine ⟨s,_,a,rfl,?_,h⟩
    by_cases hl : Linked s t
    · obtain ⟨⟨t',x⟩,hq,rfl⟩ := (h.linked_iff t).mp hl
      obtain ⟨el,hel,hcases⟩ := h.elapsed_cases hok
      rw [zTimeoutRemaining,if_pos hl,timeoutRem_eq cfg ((h.order.mem_iff _).mpr hq) (h.nodup hs),
        hel,sub_eq_add_neg,toTicks_add,zero_add,← sub_eq_add_neg]
      exact .remaining a _ e x hq el hcases
    · rw [zTimeoutRemaining,if_neg hl]
      exact .remaining_inactive a t e ((h.not_linked_iff t).mp hl)
  | expires t =>
    refine ⟨s,_,a,rfl,?_,h⟩
    by_cases hl : Linked s t
    · obtain ⟨⟨t',x⟩,hq,rfl⟩ := (h.linked_iff t).mp hl
      have hsum : a.now+(0+(x-a.now)) = x := by ring
      rw [zTimeoutExpires,if_pos hl,timeoutRem_eq cfg ((h.order.mem_iff _).mpr hq) (h.nodup hs),
        h.tick,toTicks_add,add_comm,toTicks_add,add_comm,hsum]
      exact .expires a _ x hq
    · rw [zTimeoutExpires,if_neg hl,h.tick]
      exact .expires_inactive a t ((h.not_linked_iff t).mp hl)

end

end Steps
end Refinement

/-- What holds after a run of which the agenda `a` is the account. -/
structure Kept {α : Type*} [DecidableEq α] (cfg : Config) (is : List (Action α))
    (os : List (Reply α)) (s : State α) (a : Agenda α) : Prop where
  nonneg : ∀ x ∈ s.timeoutList, 0 ≤ x.2
  /-- Every queued timeout expires when it was to expire when it was added. -/
  expiries : SameOrder (times s.currTick s.timeoutList) a.pending
  /-- What was added was called once, or aborted once, or is queued. -/
  once : ∀ t, is.countP (isAddition cfg t) = os.countP (isCall t)+
    (is.zip os).countP (isAbort t)+a.pending.countP (·.1 = t)
  ordered : (callTicks os).Pairwise (· ≤ ·)
  /-- An announcement leaves no timeout behind that it reaches. -/
  reached : s.calling = [] → (s.currTick : ℤ) = a.announced ∧ ∀ q ∈ a.pending, a.announced < q.2

/-- In every run of additions, aborts, announcements and returning callbacks that meet the
condition, the queue follows the agenda. -/
theorem runs_keep_agenda {α : Type*} [DecidableEq α] (cfg : Config) (is : List (Action α))
    (h : Along (Meets cfg) (step cfg) init is) :
    ∃ s os a, serve? (step cfg) init is = some (s,os) ∧
      Trace (Agenda.Step cfg) Agenda.init is os a ∧ Kept cfg is os s a := by
  have hstep : ∀ (s : State α) (a : Agenda α) i, Agrees cfg s a ∧ a.Sound → Meets cfg s i →
      ∃ s' o a', step cfg s i = some (s',o) ∧ Agenda.Step cfg a i o a' ∧
        Agrees cfg s' a' ∧ a'.Sound := by
    intro s a i hr hok
    obtain ⟨s',o,a',he,hstep,hagrees⟩ := step_refines hr.1 hr.2 i hok
    exact ⟨s',o,a',he,hstep,hagrees,hstep.sound hr.2⟩
  obtain ⟨s,os,a,he,ht,hagrees,hs⟩ := Trace.of_serve? (R := fun s a => Agrees cfg s a ∧ a.Sound)
    hstep ⟨agrees_init,sound_init⟩ h
  refine ⟨s,os,a,he,ht,hagrees.nonneg,hagrees.tick ▸ hagrees.order,fun t => ?_,
    (callTicks_sorted ht sound_init).1,fun hcalling => ?_⟩
  · have := accounts ht sound_init t
    simpa [Agenda.init] using this
  · have hb : a.busy = false := by
      by_contra hb
      obtain ⟨t,dt,hc,-⟩ := hagrees.busy (by simpa using hb)
      simp [hcalling] at hc
    rw [hagrees.tick]
    exact hs.idle hb

def nested : List (Action ℕ) :=
  [.add 0 4 0,.add 1 (-7) 0,.add 3 9 0,.announce 5,.add 2 0 3,.announce 1,.abort 3,.resume 0,.abort 7,.resume 0,
    .expires 2,.resume 0]

theorem runs_keep_agenda_nested :
    ∃ s os a, serve? (step ⟨true,true⟩) init nested = some (s,os) ∧
      Trace (Agenda.Step ⟨true,true⟩) Agenda.init nested os a ∧ Kept ⟨true,true⟩ nested os s a :=
  runs_keep_agenda ⟨true,true⟩ nested (by decide +kernel)

def overlapping : List (Action ℕ) :=
  [.add 0 4 0,.add 1 4 0,.announce 5,.resume 0,.add 2 4 0,.add 3 8 0,.announce 7,.resume 1]

def announcedTicks {α : Type*} (is : List (Action α)) : ℤ :=
  (is.filterMap fun
    | .announce n => some n
    | _ => none).sum

/-- Twelve ticks have been announced when the timeout of tick 14 is called. -/
theorem overlapping_calls_early :
    (serve? (step ⟨true,true⟩) init overlapping).map snd =
      some [.added,.added,.called 0 5,.called 1 5,.added,.added,.called 2 10,.called 3 14] ∧
      announcedTicks overlapping = 12 := by
  decide +kernel

end ArmFirmware.Zephyr.Timeout
