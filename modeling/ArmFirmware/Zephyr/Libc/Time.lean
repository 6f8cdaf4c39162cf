import Mathlib

/-! Conversion between seconds since 1970 and civil time (`lib/libc/common/source/time/gmtime_r.c` and
`lib/utils/timeutil.c`). -/
namespace ArmFirmware.Zephyr.Libc
open Nat Int And

/-- `struct tm`. -/
structure Tm where
  sec : ℤ
  min : ℤ
  hour : ℤ
  mday : ℤ
  mon : ℤ
  year : ℤ
  wday : ℤ
  yday : ℤ
  isdst : ℤ
  deriving DecidableEq

def uint (x : ℤ) : ℕ := (x % 2^32).toNat

def int (x : ℤ) : ℤ := x.bmod (2^32)

def yearOfEra (doe : ℕ) : ℕ := (doe-doe/1460+doe/36524-doe/146096)/365

/-- Times are numbers of 64 bits; for years that fit `tm_year` nothing overflows. -/
def timeCivilFromDays (days : ℤ) (tp : Tm) : Tm :=
  let z := days+719468
  let era := (if z ≥ 0 then z else z-146096).tdiv 146097
  let doe := uint (z-era*146097)
  let yoe := yearOfEra doe
  let y := yoe+era*400
  let doy := doe-(365*yoe+yoe/4-yoe/100)
  let mp := (5*doy+2)/153
  let d := doy-(153*mp+2)/5+1
  let m := if mp < 10 then mp+3 else mp-9
  { tp with
    wday := if days ≥ -4 then (days+4).tmod 7 else (days+5).tmod 7+6
    year := int (y+(if m ≤ 2 then 1 else 0)-1900)
    mon := m-1
    mday := d
    yday :=
      if doy ≥ 306 then doy-306
      else doy+59+if (yoe%4 = 0 ∧ yoe%100 ≠ 0) ∨ yoe = 0 then 1 else 0 }

def gmtimeR (z : ℤ) : Tm :=
  let days := (if z ≥ 0 then z else z-86399).tdiv 86400
  let rem := uint (z-days*86400)
  let hour := rem/60/60
  let rem := rem-hour*60*60
  let min := rem/60
  { timeCivilFromDays days ⟨0,0,0,0,0,0,0,0,0⟩ with hour, min, sec := rem-min*60 }

def timeDaysFromCivil (y : ℤ) (m d : ℕ) : ℤ :=
  let y := y-if m ≤ 2 then 1 else 0
  let era := (if y ≥ 0 then y else y-399).tdiv 400
  let yoe := uint (y-era*400)
  let doy := (153*(if m > 2 then m-3 else m+9)+2)/5+d
  let doe := yoe*365+yoe/4-yoe/100+doy
  era*146097+doe-719468

def timeutilTimegm64 (tm : Tm) : ℤ :=
  let ndays := timeDaysFromCivil (1900+tm.year) (uint (tm.mon+1)) (uint (tm.mday-1))
  tm.sec+60*(tm.min+60*tm.hour)+86400*ndays

/-! The proleptic Gregorian calendar. -/

def Leap (y : ℤ) : Prop := y%4 = 0 ∧ (y%100 ≠ 0 ∨ y%400 = 0)

instance (y : ℤ) : Decidable (Leap y) := inferInstanceAs (Decidable (_ ∧ (_ ∨ _)))

def yearDays (y : ℤ) : ℤ := if Leap y then 366 else 365

def newYear (y : ℤ) : ℤ := 365*(y-1)+(y-1)/4-(y-1)/100+(y-1)/400-719162

def monthDays (y : ℤ) : ℕ → ℤ
  | 1 => if Leap y then 29 else 28
  | 3 | 5 | 8 | 10 => 30
  | _ => 31

def monthStart (y : ℤ) : ℕ → ℤ
  | 0 => 0
  | n+1 => monthStart y n+monthDays y n

namespace Tm
variable (d : Tm)

def yearDay : ℤ := monthStart (1900+d.year) d.mon.toNat+d.mday-1

def dayNumber : ℤ := newYear (1900+d.year)+d.yearDay

def seconds : ℤ := 86400*d.dayNumber+3600*d.hour+60*d.min+d.sec

/-- The first day of 1970 was a Thursday. -/
def weekday : ℤ := (d.dayNumber+4)%7

/-- A date of the calendar whose year fits `tm_year`, and a time of day. -/
structure Civil : Prop where
  sec : 0 ≤ d.sec ∧ d.sec < 60
  min : 0 ≤ d.min ∧ d.min < 60
  hour : 0 ≤ d.hour ∧ d.hour < 24
  mday : 1 ≤ d.mday ∧ d.mday ≤ monthDays (1900+d.year) d.mon.toNat
  mon : 0 ≤ d.mon ∧ d.mon < 12
  year : -2^31 ≤ d.year ∧ d.year < 2^31

/-- Years count most, and seconds least. -/
def fields : List ℤ := [d.year,d.mon,d.mday,d.hour,d.min,d.sec]

end Tm

/-- The times of the years that fit `tm_year`. -/
def YearFits (t : ℤ) : Prop := 86400*newYear (1900-2^31) ≤ t ∧ t < 86400*newYear (1900+2^31)

example : newYear 1970 = 0 := by decide

lemma newYear_succ (y : ℤ) : newYear (y+1) = newYear y+yearDays y := by
  simp only [newYear,yearDays,Leap]
  split_ifs <;> omega

lemma newYear_add_le (y : ℤ) (n : ℕ) : newYear y+365*n ≤ newYear (y+n) := by
  simp only [newYear]
  omega

lemma monthStart_year (y : ℤ) : monthStart y 12 = yearDays y := by
  simp only [monthStart,monthDays,yearDays]
  split_ifs <;> norm_num

lemma monthDays_pos (y : ℤ) (n : ℕ) : 0 < monthDays y n := by
  unfold monthDays
  split <;> [split_ifs <;> norm_num; norm_num; norm_num; norm_num; norm_num; norm_num]

lemma monthStart_mono (y : ℤ) : Monotone (monthStart y) :=
  monotone_nat_of_le_succ fun n => by
    have := monthDays_pos y n
    rw [monthStart]
    omega

/-- Where years begin in March, with the leap day at their end. -/
def march (y : ℤ) : ℤ := 365*y+y/4-y/100+y/400-719468

lemma newYear_eq_march (y : ℤ) : newYear (y+1) = march y+306 := by
  simp only [newYear,march,add_sub_cancel_right]
  ring

lemma march_eq (y : ℤ) : march y = newYear y+monthStart y 2 := by
  simp only [march,newYear,monthStart,monthDays,Leap]
  split_ifs <;> omega

lemma tdiv_floor (a : ℤ) : (if a ≥ 0 then a else a-399).tdiv 400 = a/400 ∧
    (if a ≥ 0 then a else a-146096).tdiv 146097 = a/146097 ∧
    (if a ≥ 0 then a else a-86399).tdiv 86400 = a/86400 := by
  simp only [tdiv_eq_ediv,sign_eq_one_of_pos (by norm_num : (0 : ℤ) < 400),
    sign_eq_one_of_pos (by norm_num : (0 : ℤ) < 146097),sign_eq_one_of_pos (by norm_num : (0 : ℤ) < 86400)]
  refine ⟨?_,?_,?_⟩ <;> split_ifs <;> omega

lemma weekday_floor (days : ℤ) : (if days ≥ -4 then (days+4).tmod 7 else (days+5).tmod 7+6) = (days+4)%7 := by
  have h7 : (7 : ℤ).natAbs = 7 := rfl
  simp only [tmod_eq_emod,h7]
  split_ifs <;> omega

lemma uint_eq {x : ℤ} (h : 0 ≤ x) (hlt : x < 2^32) : (uint x : ℤ) = x := by
  rw [uint,emod_eq_of_lt h hlt,toNat_of_nonneg h]

lemma int_eq {x : ℤ} (h : -2^31 ≤ x) (hlt : x < 2^31) : int x = x := bmod_eq_of_le (by omega) (by omega)

lemma timeDaysFromCivil_eq (y : ℤ) (m d : ℕ) : timeDaysFromCivil y m d =
      march (if m ≤ 2 then y-1 else y)+((153*(if m > 2 then m-3 else m+9)+2)/5+d : ℕ) := by
  have hy : y-(if m ≤ 2 then 1 else 0) = if m ≤ 2 then y-1 else y := by split_ifs <;> omega
  simp only [timeDaysFromCivil,hy]
  generalize (if m ≤ 2 then y-1 else y) = y'
  have hyoe := uint_eq (x := y'-y'/400*400) (by omega) (by omega)
  rw [(tdiv_floor y').1]
  simp only [march]
  omega

/-- `timeutil_timegm64` counts the seconds since the epoch. -/
lemma timegm64_eq {d : Tm} (h : d.Civil) : timeutilTimegm64 d = d.seconds := by
  obtain ⟨-,-,-,hday,hmon,-⟩ := h
  have hm := uint_eq (x := d.mon+1) (by omega) (by omega)
  have hlen : monthDays (1900+d.year) d.mon.toNat ≤ 31 := by
    unfold monthDays
    split <;> [split_ifs <;> norm_num; norm_num; norm_num; norm_num; norm_num; norm_num]
  have hd := uint_eq (x := d.mday-1) (by omega) (by omega)
  have hdays : timeDaysFromCivil (1900+d.year) (uint (d.mon+1)) (uint (d.mday-1)) = d.dayNumber := by
    rw [timeDaysFromCivil_eq,Tm.dayNumber,Tm.yearDay]
    have hprev := newYear_eq_march (1900+d.year-1)
    have hmarch := march_eq (1900+d.year)
    rw [sub_add_cancel] at hprev
    simp only [monthStart,monthDays] at hmarch
    obtain ⟨k,hk⟩ := eq_ofNat_of_zero_le hmon.1
    rw [hk] at hm ⊢
    have hlt : k < 12 := by omega
    have hu : uint ((k : ℤ)+1) = k+1 := by omega
    rw [hu,toNat_natCast]
    interval_cases k <;> simp [monthStart,monthDays] <;> omega
  rw [timeutilTimegm64,Tm.seconds]
  simp only [hdays]
  ring

def eraDay (y : ℕ) : ℕ := 365*y+y/4-y/100+y/400

/-- The year of an era in which a day lies. -/
lemma yearOfEra_spec {doe : ℕ} (h : doe < 146097) :
    yearOfEra doe < 400 ∧ eraDay (yearOfEra doe) ≤ doe ∧ doe < eraDay (yearOfEra doe+1) := by
  -- the days without leap days grow with the days, and it is enough to look at years
  let flat (doe : ℕ) := doe-doe/1460+doe/36524-doe/146096
  have hmono : Monotone flat := monotone_nat_of_le_succ fun doe => by
    simp only [flat]
    omega
  have hends : ∀ y < 400, 365*y ≤ flat (eraDay y) ∧ flat (eraDay (y+1)-1) < 365*(y+1) := by decide +kernel
  have hyoe : yearOfEra doe = flat doe/365 := rfl
  have hlast := hmono (le_of_lt_succ h)
  have hflat : flat 146096 = 145999 := rfl
  have hlt : yearOfEra doe < 400 := by omega
  refine ⟨hlt,?_,?_⟩
  · by_contra hnot
    have hpos : yearOfEra doe ≠ 0 := by
      intro hzero
      simp [hzero,eraDay] at hnot
    have hend := (hends (yearOfEra doe-1) (by omega)).2
    rw [Nat.sub_add_cancel (by omega)] at hend
    have := hmono (show doe ≤ eraDay (yearOfEra doe)-1 by omega)
    omega
  · by_contra hnot
    have hne : yearOfEra doe+1 < 400 := by
      by_contra hlast
      have hyear : yearOfEra doe+1 = 400 := by omega
      simp [hyear,eraDay] at hnot
      omega
    have hstart := (hends (yearOfEra doe+1) hne).1
    have := hmono (not_lt.mp hnot)
    omega

lemma eraDay_succ_le (y : ℕ) : eraDay (y+1) ≤ eraDay y+366 := by
  simp only [eraDay]
  omega

lemma march_era (y : ℕ) (era : ℤ) : march (y+era*400) = eraDay y+era*146097-719468 := by
  have h₁ : ((y : ℤ)+era*400)/4 = y/4+era*100 := by omega
  have h₂ : ((y : ℤ)+era*400)/100 = y/100+era*4 := by omega
  have h₃ : ((y : ℤ)+era*400)/400 = y/400+era := by omega
  simp only [march,eraDay,h₁,h₂,h₃]
  omega

/-- What `time_civil_from_days` computes, with years that begin in March. -/
lemma timeCivilFromDays_eq (days : ℤ) (tp : Tm) :
    ∃ (y : ℤ) (doy mp : ℕ), mp = (5*doy+2)/153 ∧ days = march y+doy ∧ days < march (y+1) ∧
      timeCivilFromDays days tp =
        { tp with
          wday := (days+4)%7
          year := int ((if mp < 10 then y else y+1)-1900)
          mon := if mp < 10 then mp+2 else mp-10
          mday := doy-(153*mp+2)/5+1
          yday := if 306 ≤ doy then doy-306 else doy+59+if Leap y then 1 else 0 } := by
  obtain ⟨doe,hdoe⟩ := eq_ofNat_of_zero_le (emod_nonneg (days+719468) (by norm_num : (146097 : ℤ) ≠ 0))
  have huint := uint_eq (x := days+719468-(days+719468)/146097*146097) (by omega) (by omega)
  obtain ⟨hyoe,hle,hlt⟩ := yearOfEra_spec (show doe < 146097 by omega)
  have hdoe' : uint (days+719468-(days+719468)/146097*146097) = doe := by omega
  have hsucc := eraDay_succ_le (yearOfEra doe)
  have hera : 365*yearOfEra doe+yearOfEra doe/4-yearOfEra doe/100 = eraDay (yearOfEra doe) := by
    simp only [eraDay]
    omega
  have hmarch := march_era (yearOfEra doe) ((days+719468)/146097)
  have hmarch' := march_era (yearOfEra doe+1) ((days+719468)/146097)
  refine ⟨yearOfEra doe+(days+719468)/146097*400,doe-eraDay (yearOfEra doe),_,rfl,by omega,?_,?_⟩
  · rw [add_right_comm]
    push_cast at hmarch'
    omega
  · simp only [timeCivilFromDays,weekday_floor,(tdiv_floor _).2.1,hdoe',hera]
    generalize hy : yearOfEra doe = yoe at *
    generalize hd : doe-eraDay yoe = doy
    generalize hmp : (5*doy+2)/153 = mp
    congr 1
    · omega
    · split_ifs <;> push_cast <;> omega
    · congr 1
      split_ifs <;> omega
    · simp only [Leap]
      split_ifs <;> omega

lemma monthStart_march (y : ℤ) {mp : ℕ} (h : mp ≤ 10) : monthStart y (mp+2) = monthStart y 2+((153*mp+2)/5 : ℕ) := by
  interval_cases mp <;> simp [monthStart,monthDays] <;> ring

/-- The date of a day, with the fields that are derived from it. -/
structure Tm.OnDay (d : Tm) (days : ℤ) : Prop where
  number : d.dayNumber = days
  wday : d.wday = d.weekday
  yday : d.yday = d.yearDay
  mday : 1 ≤ d.mday ∧ d.mday ≤ monthDays (1900+d.year) d.mon.toNat
  mon : 0 ≤ d.mon ∧ d.mon < 12
  year : -2^31 ≤ d.year ∧ d.year < 2^31

lemma year_bounds {days y : ℤ} (hfirst : newYear (1900-2^31) ≤ days) (hlast : days < newYear (1900+2^31))
    (h : newYear y ≤ days) (h' : days < newYear (y+1)) : -2^31 ≤ y-1900 ∧ y-1900 < 2^31 := by
  constructor
  · by_contra hlow
    have := newYear_add_le (y+1) (1900-2^31-(y+1)).toNat
    rw [toNat_of_nonneg (by omega),add_sub_cancel] at this
    omega
  · by_contra hhigh
    have := newYear_add_le (1900+2^31) (y-(1900+2^31)).toNat
    rw [toNat_of_nonneg (by omega),add_sub_cancel] at this
    omega

/-- `time_civil_from_days` finds the date of a day. -/
lemma timeCivilFromDays_onDay {days : ℤ} (hfirst : newYear (1900-2^31) ≤ days) (hlast : days < newYear (1900+2^31))
    (tp : Tm) : (timeCivilFromDays days tp).OnDay days := by
  obtain ⟨y,doy,mp,hmp,hdays,hend,heq⟩ := timeCivilFromDays_eq days tp
  have hthis := march_eq y
  have hnext := newYear_eq_march y
  have hfeb := march_eq (y+1)
  have hupper : doy < (153*(mp+1)+2)/5 := by omega
  rw [heq]
  by_cases hspring : mp < 10
  · obtain ⟨hlow,hhigh⟩ := year_bounds hfirst hlast (y := y) (by
      have := monthStart_mono y (zero_le 2)
      rw [monthStart] at this
      omega) (by omega)
    have hstart := monthStart_march y (show mp ≤ 10 by omega)
    have hstop := monthStart_march y (show mp+1 ≤ 10 by omega)
    rw [show mp+1+2 = mp+2+1 by rfl,monthStart] at hstop
    have hmon : ((mp : ℤ)+2).toNat = mp+2 := by omega
    have hint := int_eq hlow hhigh
    have hyear : 1900+(y-1900) = y := by ring
    have htwo : monthStart y 2 = 59+if Leap y then 1 else 0 := by
      simp only [monthStart,monthDays]
      split_ifs <;> rfl
    constructor <;> simp only [Tm.weekday,Tm.dayNumber,Tm.yearDay,if_pos hspring,hint,hyear,hmon]
    · omega
    · congr 2
      omega
    · rw [if_neg (by omega)]
      omega
    · omega
    · omega
    · exact ⟨hlow,hhigh⟩
  · have hstart : monthStart (y+1) 2 = 31+monthDays (y+1) 1 := by simp [monthStart,monthDays]
    have hlen : monthDays (y+1) 1 ≤ 29 := by
      simp only [monthDays]
      split_ifs <;> norm_num
    obtain ⟨hlow,hhigh⟩ := year_bounds hfirst hlast (y := y+1) (by omega) (by
      rw [newYear_eq_march]
      omega)
    have hint := int_eq hlow hhigh
    have hyear : 1900+(y+1-1900) = y+1 := by ring
    have hmon : mp = 10 ∨ mp = 11 := by omega
    have hyday : monthStart (y+1) ((mp : ℤ)-10).toNat+(doy-(153*mp+2)/5+1)-1 = doy-306 := by
      rcases hmon with rfl | rfl
      · simp [monthStart]
      · simp [monthStart,monthDays]
        omega
    constructor <;> simp only [Tm.weekday,Tm.dayNumber,Tm.yearDay,if_neg hspring,hint,hyear,hyday]
    · omega
    · congr 2
      omega
    · rw [if_pos (by omega)]
    · rcases hmon with rfl | rfl
      · change 1 ≤ _ ∧ _ ≤ (31 : ℤ)
        omega
      · change 1 ≤ _ ∧ _ ≤ monthDays (y+1) 1
        omega
    · omega
    · exact ⟨hlow,hhigh⟩

/-- `gmtime_r` finds the civil time. -/
lemma gmtimeR_onDay {t : ℤ} (h : YearFits t) :
    (gmtimeR t).OnDay (t/86400) ∧ (gmtimeR t).Civil ∧ (gmtimeR t).seconds = t := by
  obtain ⟨hfirst,hlast⟩ := h
  have hday := timeCivilFromDays_onDay (show newYear (1900-2^31) ≤ t/86400 by omega) (by omega) ⟨0,0,0,0,0,0,0,0,0⟩
  have hrem := uint_eq (x := t-t/86400*86400) (by omega) (by omega)
  obtain ⟨rem,d,hrem,hday,heq⟩ : ∃ (rem : ℕ) (d : Tm), (rem : ℤ) = t-t/86400*86400 ∧ d.OnDay (t/86400) ∧ gmtimeR t =
      { d with
        hour := (rem/60/60 : ℕ)
        min := ((rem-rem/60/60*60*60)/60 : ℕ)
        sec := (rem-rem/60/60*60*60 : ℕ)-((rem-rem/60/60*60*60)/60 : ℕ)*60 } :=
    ⟨_,_,hrem,hday,by simp only [gmtimeR,(tdiv_floor t).2.2]⟩
  have hon : (gmtimeR t).OnDay (t/86400) := by
    rw [heq]
    exact { hday with }
  refine ⟨hon,⟨?_,?_,?_,hon.mday,hon.mon,hon.year⟩,?_⟩
  · simp only [heq]
    omega
  · simp only [heq]
    omega
  · simp only [heq]
    omega
  · rw [Tm.seconds,hon.number,heq]
    dsimp only
    omega

lemma Tm.Civil.yearDay_lt {d : Tm} (h : d.Civil) :
    monthStart (1900+d.year) d.mon.toNat ≤ d.yearDay ∧ d.yearDay < monthStart (1900+d.year) (d.mon.toNat+1) ∧
      0 ≤ d.yearDay ∧ d.yearDay < yearDays (1900+d.year) := by
  have hmday := h.mday
  have hmon := h.mon
  have hstart := monthStart_mono (1900+d.year) (zero_le d.mon.toNat)
  have hend := monthStart_mono (1900+d.year) (show d.mon.toNat+1 ≤ 12 by omega)
  rw [monthStart_year] at hend
  simp only [monthStart,Tm.yearDay] at *
  omega

/-- Later fields are later seconds. -/
lemma Tm.Civil.seconds_lt {d e : Tm} (hd : d.Civil) (he : e.Civil) (h : d.fields < e.fields) :
    d.seconds < e.seconds := by
  obtain ⟨hd₁,hd₂,hd₃,hd₄⟩ := hd.yearDay_lt
  obtain ⟨he₁,he₂,he₃,he₄⟩ := he.yearDay_lt
  have hdt := intro hd.sec (intro hd.min hd.hour)
  have het := intro he.sec (intro he.min he.hour)
  have hlater : d.dayNumber < e.dayNumber → d.seconds < e.seconds := by
    intro hday
    simp only [Tm.seconds]
    omega
  simp only [Tm.fields,List.cons_lt_cons_iff,List.not_lt_nil,and_false,or_false] at h
  rcases h with hyear | ⟨hyear,hmon | ⟨hmon,hmday | ⟨hmday,htime⟩⟩⟩
  · apply hlater
    have hsucc := newYear_succ (1900+d.year)
    have hle := newYear_add_le (1900+d.year+1) (e.year-(d.year+1)).toNat
    rw [toNat_of_nonneg (by omega),show 1900+d.year+1+(e.year-(d.year+1)) = 1900+e.year by ring] at hle
    simp only [Tm.dayNumber]
    omega
  · apply hlater
    have hle := monthStart_mono (1900+d.year) (show d.mon.toNat+1 ≤ e.mon.toNat by have := hd.mon; omega)
    simp only [Tm.dayNumber,← hyear] at *
    omega
  · apply hlater
    simp only [Tm.dayNumber,Tm.yearDay,← hyear,← hmon]
    omega
  · have hday : d.dayNumber = e.dayNumber := by
      simp only [Tm.dayNumber,Tm.yearDay,hyear,hmon,hmday]
    simp only [Tm.seconds,hday]
    omega

lemma Tm.Civil.yearFits {d : Tm} (h : d.Civil) : YearFits d.seconds := by
  obtain ⟨-,-,hlow,hhigh⟩ := h.yearDay_lt
  have hyear := h.year
  have hsucc := newYear_succ (1900+d.year)
  have hfirst := newYear_add_le (1900-2^31) (d.year+2^31).toNat
  have hlast := newYear_add_le (1900+d.year+1) (2^31-1-d.year).toNat
  rw [toNat_of_nonneg (by omega),show 1900-2^31+(d.year+2^31) = 1900+d.year by ring] at hfirst
  rw [toNat_of_nonneg (by omega),show 1900+d.year+1+(2^31-1-d.year) = 1900+2^31 by ring] at hlast
  have hdt := intro h.sec (intro h.min h.hour)
  simp only [YearFits,Tm.seconds,Tm.dayNumber]
  omega

lemma Tm.Civil.fields_eq {d e : Tm} (hd : d.Civil) (he : e.Civil) (h : d.seconds = e.seconds) :
    d.fields = e.fields := by
  rcases lt_trichotomy d.fields e.fields with hlt | heq | hgt
  · exact absurd (hd.seconds_lt he hlt) (by omega)
  · exact heq
  · exact absurd (he.seconds_lt hd hgt) (by omega)

lemma gmtimeR_seconds {d : Tm} (h : d.Civil) :
    gmtimeR d.seconds = { d with wday := d.weekday, yday := d.yearDay, isdst := 0 } := by
  obtain ⟨hon,hcivil,hsec⟩ := gmtimeR_onDay h.yearFits
  have hfields := hcivil.fields_eq h hsec
  have hwday := hon.wday
  have hyday := hon.yday
  have hisdst : (gmtimeR d.seconds).isdst = 0 := rfl
  generalize gmtimeR d.seconds = e at *
  obtain ⟨sec,min,hour,mday,mon,year,wday,yday,isdst⟩ := e
  obtain ⟨rfl,rfl,rfl,rfl,rfl,rfl⟩ := hfields
  simp only at hwday hyday hisdst
  rw [hwday,hyday,hisdst]
  rfl

/-- Both conversions are right and inverse to each other, and keep the order. -/
theorem gmtime_timegm_inverse :
    (∀ t, YearFits t → (gmtimeR t).Civil ∧ (gmtimeR t).wday = (gmtimeR t).weekday ∧
      (gmtimeR t).yday = (gmtimeR t).yearDay ∧ timeutilTimegm64 (gmtimeR t) = t) ∧
    (∀ d : Tm, d.Civil → YearFits (timeutilTimegm64 d) ∧
      gmtimeR (timeutilTimegm64 d) = { d with wday := d.weekday, yday := d.yearDay, isdst := 0 }) ∧
    (∀ t u, YearFits t → YearFits u → t < u → (gmtimeR t).fields < (gmtimeR u).fields) ∧
    ∀ d e : Tm, d.Civil → e.Civil → d.fields < e.fields → timeutilTimegm64 d < timeutilTimegm64 e := by
  refine ⟨fun t ht => ?_,fun d hd => ?_,fun t u ht hu htu => ?_,fun d e hd he hde => ?_⟩
  · obtain ⟨hon,hcivil,hsec⟩ := gmtimeR_onDay ht
    exact ⟨hcivil,hon.wday,hon.yday,(timegm64_eq hcivil).trans hsec⟩
  · rw [timegm64_eq hd]
    exact ⟨hd.yearFits,gmtimeR_seconds hd⟩
  · obtain ⟨-,hct,hst⟩ := gmtimeR_onDay ht
    obtain ⟨-,hcu,hsu⟩ := gmtimeR_onDay hu
    rcases lt_trichotomy (gmtimeR t).fields (gmtimeR u).fields with hlt | heq | hgt
    · exact hlt
    · simp only [Tm.fields,List.cons.injEq,and_true] at heq
      obtain ⟨h₁,h₂,h₃,h₄,h₅,h₆⟩ := heq
      have : (gmtimeR t).seconds = (gmtimeR u).seconds := by
        simp only [Tm.seconds,Tm.dayNumber,Tm.yearDay,h₁,h₂,h₃,h₄,h₅,h₆]
      omega
    · exact absurd (hcu.seconds_lt hct hgt) (by omega)
  · rw [timegm64_eq hd,timegm64_eq he]
    exact hd.seconds_lt he hde

/-- The leap day of the year 2000, a Tuesday. -/
theorem gmtime_timegm_inverse_leapDay :
    gmtimeR 951782400 = ⟨0,0,0,29,1,100,2,59,0⟩ ∧ timeutilTimegm64 ⟨0,0,0,29,1,100,2,59,0⟩ = 951782400 := by
  have hday : gmtimeR 951782400 = ⟨0,0,0,29,1,100,2,59,0⟩ := by decide +kernel
  have hback := (gmtime_timegm_inverse.1 951782400 (by unfold YearFits; decide +kernel)).2.2.2
  rw [hday] at hback
  exact ⟨hday,hback⟩

end ArmFirmware.Zephyr.Libc
