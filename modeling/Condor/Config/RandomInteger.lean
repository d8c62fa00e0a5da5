import Condor.Utils.CString

/-!
# `$RANDOM_INTEGER`

The macro picks a value between its bounds, read as `long`. The checks that end the program, an
overflow of `long` and a division by zero are faults.
-/

namespace Condor.Config

inductive RandomFault
  | invalidMin
  | invalidMax
  | invalidStep
  | minAboveMax
  | overflow
  | divideByZero
  deriving DecidableEq

def IsLong (v : Int) : Prop := -(2^63) ≤ v ∧ v < 2^63

instance (v : Int) : Decidable (IsLong v) := by
  unfold IsLong
  infer_instance

private theorem isLong_toLong (v : Int) : IsLong (toLong v) := by
  unfold IsLong toLong
  omega

def stringToLong (s : Option (List Byte)) : Int × Option Int :=
  match s with
  | none => (-1,none)
  | some s =>
    match scanDecimal s with
    | none => (-2,none)
    | some v => (0,some (toLong v))

private theorem isLong_stringToLong {s : Option (List Byte)} {rc v : Int}
    (h : stringToLong s = (rc,some v)) : IsLong v := by
  unfold stringToLong at h
  split at h
  · simp at h
  · split at h
    · simp at h
    · simp only [Prod.mk.injEq,Option.some.injEq] at h
      rw [← h.2]
      exact isLong_toLong _

/-- What the macro has checked of its arguments. -/
structure Bounds where
  minValue : Int
  maxValue : Int
  step : Int
  isLong_min : IsLong minValue
  isLong_max : IsLong maxValue
  isLong_step : IsLong step
  one_le_step : 1 ≤ step
  min_le_max : minValue ≤ maxValue

def longOr (s : Option (List Byte)) (old : Int) : Int := (stringToLong s).2.getD old

private theorem isLong_longOr (s : Option (List Byte)) {old : Int} (h : IsLong old) :
    IsLong (longOr s old) := by
  unfold longOr
  rcases hs : stringToLong s with ⟨rc,_ | v⟩
  · exact h
  · exact isLong_stringToLong hs

def parseBounds (entries : List (List Byte)) : Except RandomFault Bounds :=
  if (stringToLong entries[0]?).1 < 0 then .error .invalidMin
  else if (stringToLong entries[1]?).1 < 0 then .error .invalidMax
  else if (stringToLong entries[2]?).1 < -1 then .error .invalidStep
  else if hstep : longOr entries[2]? 1 < 1 then .error .invalidStep
  else if horder : longOr entries[1]? 0 < longOr entries[0]? 0 then .error .minAboveMax
  else .ok
    { minValue := longOr entries[0]? 0
      maxValue := longOr entries[1]? 0
      step := longOr entries[2]? 1
      isLong_min := isLong_longOr _ (by decide)
      isLong_max := isLong_longOr _ (by decide)
      isLong_step := isLong_longOr _ (by decide)
      one_le_step := Int.not_lt.mp hstep
      min_le_max := Int.not_lt.mp horder }

/-- A result of signed arithmetic in `long`. -/
def long (v : Int) : Except RandomFault Int := if IsLong v then .ok v else .error .overflow

def divide (a b : Int) : Except RandomFault Int :=
  if b = 0 then .error .divideByZero else long (a.tdiv b)

def modulo (a b : Int) : Except RandomFault Int :=
  if b = 0 then .error .divideByZero else long (a.tmod b)

def randomValue (b : Bounds) (random : Int) : Except RandomFault Int := do
  let sum ← long (b.step + b.maxValue)
  let range ← long (sum - b.minValue)
  let num ← divide range b.step
  let k ← modulo random num
  let offset ← long (k * b.step)
  long (b.minValue + offset)

/-- The value of `$RANDOM_INTEGER(entries)`. -/
def randomInteger (entries : List (List Byte)) (random : Int) : Except RandomFault Int := do
  let b ← parseBounds entries
  randomValue b random

private theorem long_eq {v : Int} (h : IsLong v) : long v = .ok v := if_pos h

private theorem long_error {v : Int} (h : ¬IsLong v) : long v = .error .overflow := if_neg h

private theorem count_spec {lo hi step : Int} (hstep : 1 ≤ step) (hle : lo ≤ hi) :
    1 ≤ (step + hi - lo).tdiv step ∧ ((step + hi - lo).tdiv step - 1) * step ≤ hi - lo ∧
      (step + hi - lo).tdiv step ≤ step + hi - lo := by
  have hsplit : step + hi - lo = hi - lo + 1 * step := by omega
  have hquot : (step + hi - lo).tdiv step = (hi - lo) / step + 1 := by
    rw [Int.tdiv_eq_ediv_of_nonneg (by omega),hsplit,Int.add_mul_ediv_right _ _ (by omega)]
  have hnonneg : 0 ≤ (hi - lo) / step := Int.ediv_nonneg (by omega) (by omega)
  have hmul : (hi - lo) / step * step ≤ hi - lo := Int.ediv_mul_le _ (by omega)
  have hdiv : (hi - lo) / step ≤ hi - lo := Int.ediv_le_self _ (by omega)
  rw [hquot]
  refine ⟨by omega,?_,by omega⟩
  rw [Int.add_sub_cancel]
  exact hmul

/-- With checked bounds and step, the macro stays in range exactly when neither `step + max` nor
`step + max - min` overflows. -/
theorem randomValue_inRange_iff (b : Bounds) {random : Int} (hrandom : 0 ≤ random) :
    (∃ v, randomValue b random = .ok v ∧ (∃ k : Nat, v = b.minValue + k * b.step) ∧
      v ≤ b.maxValue) ↔
        b.step + b.maxValue < 2^63 ∧ b.step + b.maxValue - b.minValue < 2^63 := by
  obtain ⟨lo,hi,step,hlo,hhi,hlong,hstep,hle⟩ := b
  obtain ⟨hcount,hlast,hfew⟩ := count_spec hstep hle
  have hsum : IsLong (step + hi) ↔ step + hi < 2^63 := by
    unfold IsLong at hhi ⊢
    omega
  have hrange : IsLong (step + hi - lo) ↔ step + hi - lo < 2^63 := by
    unfold IsLong
    omega
  constructor
  · rintro ⟨v,hv,-,-⟩
    by_contra hbad
    rw [← hsum,← hrange] at hbad
    by_cases h1 : IsLong (step + hi)
    · have h2 : ¬IsLong (step + hi - lo) := fun h2 => hbad ⟨h1,h2⟩
      simp [randomValue,long_eq h1,long_error h2,bind,Except.bind] at hv
    · simp [randomValue,long_error h1,bind,Except.bind] at hv
  · intro h
    have h1 : step + hi < 2^63 := h.1
    have h2 : step + hi - lo < 2^63 := h.2
    generalize hnum : (step + hi - lo).tdiv step = num at hcount hlast hfew
    have hk0 : 0 ≤ random.tmod num := Int.tmod_nonneg num hrandom
    have hk1 : random.tmod num < num := Int.tmod_lt_of_pos random (by omega)
    generalize hk : random.tmod num = k at hk0 hk1
    have hoff : k * step ≤ hi - lo :=
      (Int.mul_le_mul_of_nonneg_right (by omega : k ≤ num - 1) (by omega)).trans hlast
    have hoff0 : 0 ≤ k * step := Int.mul_nonneg hk0 (by omega)
    have hlo' := hlo
    have hhi' := hhi
    unfold IsLong at hlo' hhi'
    have hdivide : divide (step + hi - lo) step = .ok num := by
      rw [divide,if_neg (by omega),hnum,long_eq (by unfold IsLong; omega)]
    have hmodulo : modulo random num = .ok k := by
      rw [modulo,if_neg (by omega),hk,long_eq (by unfold IsLong; omega)]
    refine ⟨lo + k * step,?_,⟨k.toNat,?_⟩,by show lo + k * step ≤ hi; omega⟩
    · simp only [randomValue,bind,Except.bind]
      rw [long_eq (hsum.mpr h1)]
      simp only []
      rw [long_eq (hrange.mpr h2)]
      simp only []
      rw [hdivide]
      simp only []
      rw [hmodulo]
      simp only []
      rw [long_eq (by unfold IsLong; omega)]
      simp only []
      exact long_eq (by unfold IsLong; omega)
    · rw [Int.toNat_of_nonneg hk0]

theorem randomValue_inRange_dice :
    ∃ v, randomValue ⟨1,6,1,by decide,by decide,by decide,by decide,by decide⟩ 10 = .ok v ∧
      v ≤ 6 := by
  obtain ⟨v,hv,-,hle⟩ := (randomValue_inRange_iff
    ⟨1,6,1,by decide,by decide,by decide,by decide,by decide⟩ (by decide : (0 : Int) ≤ 10)).mpr
      (by decide)
  exact ⟨v,hv,hle⟩

/-- `$RANDOM_INTEGER(0,9223372036854775807)` overflows. -/
theorem randomInteger_overflows :
    randomInteger [[48],"9223372036854775807".toUTF8.data.toList] 5 = .error .overflow := by
  decide

end Condor.Config
