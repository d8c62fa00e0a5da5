import Mathlib.Tactic.IntervalCases

/-!
# Dates

The days of a month and the day of the week of a date, Sunday being 0. The divisions are those of
C, which truncate; `rint` of an integer is that integer. The sum is a double and is turned into an
int, which is defined only in the range of an int.
-/

namespace Condor.DateUtil

structure Date where
  month : Int
  day : Int
  year : Int
  deriving DecidableEq

def leap (year : Int) : Prop :=
  (year.tmod 4 = 0 ∧ year.tmod 100 ≠ 0) ∨ year.tmod 400 = 0
deriving Decidable

def monthDays : List Int := [0,31,28,31,30,31,30,31,31,30,31,30,31]

def daysInMonth (month year : Int) : Int :=
  if month > 0 ∧ month ≤ 12 then
    monthDays.getD month.toNat 0 + (if month = 2 ∧ leap year then 1 else 0)
  else 0

/-- The sum that `dayOfWeek` computes, month and year being already shifted. -/
def temp (month day year : Int) : Int :=
  day + 1 + 2 * month + (6 * (month + 1)).tdiv 10 + year + year.tdiv 4 - year.tdiv 100 +
    year.tdiv 400

def shifted (d : Date) : Date :=
  if d.month < 3 then ⟨d.month + 12,d.day,d.year - 1⟩ else d

/-- The conversion of a double that holds a whole number. -/
def doubleToInt (x : Int) : Option Int := if -2^31 ≤ x ∧ x < 2^31 then some x else none

def dayOfWeek (d : Date) : Option Int :=
  (doubleToInt (temp (shifted d).month (shifted d).day (shifted d).year)).map (·.tmod 7)

def Valid (d : Date) : Prop :=
  1 ≤ d.month ∧ d.month ≤ 12 ∧ 1 ≤ d.day ∧ d.day ≤ daysInMonth d.month d.year
deriving Decidable

def successor (d : Date) : Date :=
  if d.day < daysInMonth d.month d.year then ⟨d.month,d.day + 1,d.year⟩
  else if d.month < 12 then ⟨d.month + 1,1,d.year⟩
  else ⟨1,1,d.year + 1⟩

theorem leap_iff {year : Int} (h : 1 ≤ year) :
    leap year ↔ (year % 4 = 0 ∧ year % 100 ≠ 0) ∨ year % 400 = 0 := by
  rw [leap,Int.tmod_eq_emod_of_nonneg (by omega),Int.tmod_eq_emod_of_nonneg (by omega),
    Int.tmod_eq_emod_of_nonneg (by omega)]

private theorem temp_eq {month day year : Int} (hm : 0 ≤ month) (hy : 0 ≤ year) :
    temp month day year = day + 1 + 2 * month + 6 * (month + 1) / 10 + year + year / 4 -
      year / 100 + year / 400 := by
  rw [temp,Int.tdiv_eq_ediv_of_nonneg (by omega),Int.tdiv_eq_ediv_of_nonneg hy,
    Int.tdiv_eq_ediv_of_nonneg hy,Int.tdiv_eq_ediv_of_nonneg hy]

private theorem daysInMonth_pos {month year : Int} (h1 : 1 ≤ month) (h2 : month ≤ 12) :
    28 ≤ daysInMonth month year ∧ daysInMonth month year ≤ 31 := by
  by_cases hl : leap year <;> interval_cases month <;> simp [daysInMonth,monthDays,hl]

/-- The sum over the date's own month and year, January and February in the year before. -/
def dayNumber (d : Date) : Int :=
  if d.month < 3 then
    d.day + 1 + 2 * (d.month + 12) + 6 * (d.month + 13) / 10 + (d.year - 1) + (d.year - 1) / 4 -
      (d.year - 1) / 100 + (d.year - 1) / 400
  else
    d.day + 1 + 2 * d.month + 6 * (d.month + 1) / 10 + d.year + d.year / 4 - d.year / 100 +
      d.year / 400

variable {d : Date}

private theorem temp_shifted (hm : 1 ≤ d.month) (hy : 1 ≤ d.year) :
    temp (shifted d).month (shifted d).day (shifted d).year = dayNumber d := by
  rw [dayNumber,shifted]
  split_ifs with h
  · rw [temp_eq (by dsimp; omega) (by dsimp; omega)]
    dsimp only
    omega
  · exact temp_eq (by omega) (by omega)

private theorem dayNumber_pos (hd : Valid d) (hy : 1 ≤ d.year) : 0 ≤ dayNumber d := by
  obtain ⟨h1,-,h3,-⟩ := hd
  rw [dayNumber]
  split_ifs <;> omega

/-- The date's number is in the range of an int. -/
def FitsInt (d : Date) : Prop := dayNumber d < 2^31
deriving Decidable

private theorem dayOfWeek_eq (hd : Valid d) (hy : 1 ≤ d.year) :
    dayOfWeek d = if FitsInt d then some (dayNumber d % 7) else none := by
  have hpos := dayNumber_pos hd hy
  rw [dayOfWeek,temp_shifted hd.1 hy,doubleToInt]
  by_cases hfits : FitsInt d
  · rw [if_pos hfits,if_pos ⟨by omega,hfits⟩,Option.map_some,Int.tmod_eq_emod_of_nonneg hpos]
  · rw [if_neg hfits,if_neg fun h => hfits h.2]
    rfl

private theorem dayOfWeek_of_fits (hd : Valid d) (hy : 1 ≤ d.year) (hfits : FitsInt d) :
    dayOfWeek d = some (dayNumber d % 7) := by
  rw [dayOfWeek_eq hd hy,if_pos hfits]

private theorem successor_valid (hd : Valid d) : Valid (successor d) := by
  obtain ⟨h1,h2,h3,h4⟩ := hd
  rw [successor]
  split_ifs with hday hmonth
  · exact ⟨h1,h2,by dsimp; omega,by dsimp; omega⟩
  · refine ⟨by dsimp; omega,by dsimp; omega,le_refl _,?_⟩
    have := (@daysInMonth_pos (d.month + 1) d.year (by omega) (by omega)).1
    dsimp
    omega
  · refine ⟨le_refl _,by dsimp; omega,le_refl _,?_⟩
    have := (@daysInMonth_pos 1 (d.year + 1) (by omega) (by omega)).1
    dsimp
    omega

private theorem successor_year (d : Date) : d.year ≤ (successor d).year := by
  rw [successor]
  split_ifs <;> dsimp <;> omega

private theorem pred_div {year k : Int} (hk : k = 4 ∨ k = 100 ∨ k = 400) :
    (year - 1) / k = if year % k = 0 then year / k - 1 else year / k := by
  rcases hk with rfl | rfl | rfl <;> split_ifs <;> omega

private theorem dayNumber_successor (hd : Valid d) (hy : 1 ≤ d.year) :
    dayNumber (successor d) % 7 = (dayNumber d + 1) % 7 := by
  obtain ⟨month,day,year⟩ := d
  obtain ⟨h1,h2,h3,h4⟩ := hd
  have hl := leap_iff hy
  dsimp only at h1 h2 h3 h4 hy hl
  by_cases hday : day < daysInMonth month year
  · simp only [successor,if_pos hday,dayNumber]
    split_ifs <;> omega
  · have hlast : day = daysInMonth month year := by omega
    subst hlast
    by_cases hfeb : month = 2
    · -- the leap rule decides, and the quotients of the year before with it
      have h4 := @pred_div year 4 (by simp)
      have h100 := @pred_div year 100 (by simp)
      have h400 := @pred_div year 400 (by simp)
      subst hfeb
      by_cases hleap : leap year
      · have := hl.mp hleap
        simp [successor,dayNumber,daysInMonth,monthDays,hleap]
        split_ifs at h4 h100 h400 <;> omega
      · have := mt hl.mpr hleap
        simp [successor,dayNumber,daysInMonth,monthDays,hleap]
        split_ifs at h4 h100 h400 <;> omega
    · clear hl
      interval_cases month <;> simp [successor,dayNumber,daysInMonth,monthDays] at hfeb ⊢ <;>
        omega

private theorem successor_iterate (hd : Valid d) (hy : 1 ≤ d.year) (n : Nat) :
    Valid (successor^[n] d) ∧ 1 ≤ (successor^[n] d).year ∧
      dayNumber (successor^[n] d) % 7 = (dayNumber d + n) % 7 := by
  induction n with
  | zero => exact ⟨hd,hy,by simp⟩
  | succ n ih =>
    obtain ⟨hv,hyear,hweek⟩ := ih
    rw [Function.iterate_succ_apply']
    refine ⟨successor_valid hv,hyear.trans (successor_year _),?_⟩
    rw [dayNumber_successor hv hyear]
    omega

/-- The weekday of a date is there, is one of the seven, and the next day has the next one. -/
def FollowedBy (d d' : Date) : Prop :=
  ∃ w, dayOfWeek d = some w ∧ (0 ≤ w ∧ w ≤ 6) ∧ dayOfWeek d' = some ((w + 1) % 7)

theorem followedBy_iff (hd : Valid d) (hy : 1 ≤ d.year) :
    FollowedBy d (successor d) ↔ FitsInt d ∧ FitsInt (successor d) := by
  have hd' := successor_valid hd
  have hy' := hy.trans (successor_year d)
  constructor
  · rintro ⟨w,hw,-,hnext⟩
    rw [dayOfWeek_eq hd hy] at hw
    rw [dayOfWeek_eq hd' hy'] at hnext
    split at hw
    · split at hnext
      · exact ⟨‹_›,‹_›⟩
      · cases hnext
    · cases hw
  · rintro ⟨hfits,hfits'⟩
    refine ⟨_,dayOfWeek_of_fits hd hy hfits,by omega,?_⟩
    rw [dayOfWeek_of_fits hd' hy' hfits',dayNumber_successor hd hy]
    congr 1
    omega

private theorem dayNumber_bounds (hd : Valid d) :
    d.year + d.year / 4 - d.year / 100 + d.year / 400 + 10 ≤ dayNumber d ∧
      dayNumber d ≤ d.year + d.year / 4 - d.year / 100 + d.year / 400 + 68 := by
  obtain ⟨month,day,year⟩ := d
  obtain ⟨h1,h2,h3,h4⟩ := hd
  have hdays := (@daysInMonth_pos month year h1 h2).2
  dsimp only at h1 h2 h3 h4 hdays ⊢
  rw [dayNumber]
  dsimp only
  split_ifs <;> omega

/-- Only the last years of the int range are in doubt. -/
theorem fitsInt_of_year (hd : Valid d) :
    (d.year ≤ 1728357006 → FitsInt d) ∧ (1728357052 < d.year → ¬ FitsInt d) := by
  have h := dayNumber_bounds hd
  rw [FitsInt]
  omega

/-- The day of the week follows the Gregorian calendar from day to day and is right on a known date,
if and only if the sum behind it fits an int. -/
theorem dayOfWeek_gregorian (d : Date) (hd : Valid d) (hy : 1 ≤ d.year) :
    (FollowedBy d (successor d) ↔ FitsInt d ∧ FitsInt (successor d)) ∧
      (∀ n : Nat, FitsInt d → FitsInt (successor^[n] d) → ∃ w, dayOfWeek d = some w ∧
        dayOfWeek (successor^[n] d) = some ((w + n) % 7)) ∧
      dayOfWeek ⟨1,1,1970⟩ = some 4 ∧
      (d.year ≤ 1728357006 → FitsInt d) ∧ (1728357052 < d.year → ¬ FitsInt d) := by
  refine ⟨followedBy_iff hd hy,fun n hfits hlater => ?_,by decide,fitsInt_of_year hd⟩
  obtain ⟨hv,hyear,hweek⟩ := successor_iterate hd hy n
  refine ⟨_,dayOfWeek_of_fits hd hy hfits,?_⟩
  rw [dayOfWeek_of_fits hv hyear hlater,hweek]
  congr 1
  omega

theorem dayOfWeek_gregorian_leap : FollowedBy ⟨2,29,2000⟩ ⟨3,1,2000⟩ :=
  (dayOfWeek_gregorian ⟨2,29,2000⟩ (by decide) (by decide)).1.mpr (by decide)

/-- A valid date whose sum, 2485000010, is not in the range of an int. -/
theorem dayOfWeek_overflow : Valid ⟨3,1,2000000000⟩ ∧ temp 3 1 2000000000 = 2485000010 ∧
    dayOfWeek ⟨3,1,2000000000⟩ = none ∧
    ¬ FollowedBy ⟨3,1,2000000000⟩ (successor ⟨3,1,2000000000⟩) := by
  have hnone : dayOfWeek ⟨3,1,2000000000⟩ = none := by decide
  refine ⟨by decide,by decide,hnone,?_⟩
  rintro ⟨w,hw,-⟩
  cases hnone.symm.trans hw

end Condor.DateUtil
