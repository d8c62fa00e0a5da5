import Mathlib.Tactic.IntervalCases

/-!
# Rounding of attributes

`SetAttribute` rounds an integer up to a power of ten. The base is unsigned, so the sum, the
division and the product are those of unsigned words, and only the result is an int again.
-/

namespace Condor.Schedd.Rounding

/-- `for (base=1; exp > 0; exp--, base *= 10)`. -/
def baseLoop : Nat → UInt32 → UInt32
  | 0, base => base
  | exp + 1, base => baseLoop exp (base * 10)

def roundToPower (exp : Nat) (ivalue : Int32) : Int32 :=
  let base := baseLoop exp 1
  ((ivalue.toUInt32 + base - 1) / base * base).toInt32

def storedInteger (round_param : String) (exp : Nat) (ivalue : Int32) : Int32 :=
  if round_param ≠ "" ∧ round_param ≠ "0" then roundToPower exp ivalue else ivalue

/-- What is stored is the least multiple of `10^exp` from the value on, where it fits an int;
storing it again changes nothing. -/
def RoundsUp (round_param : String) (exp : Nat) (v : Int32) : Prop :=
  ∀ m, IsLeast {m : Int | 10^exp ∣ m ∧ v.toInt ≤ m} m → m < 2^31 →
    (storedInteger round_param exp v).toInt = m ∧
      v.toInt ≤ (storedInteger round_param exp v).toInt ∧
      storedInteger round_param exp (storedInteger round_param exp v) =
        storedInteger round_param exp v

private theorem toNat_toUInt32 (v : Int32) :
    (v.toUInt32.toNat : Int) = if v.toInt < 0 then v.toInt + 2^32 else v.toInt := by
  have h := BitVec.toInt_eq_toNat_cond v.toBitVec
  have hv : v.toInt = v.toBitVec.toInt := rfl
  have hu : v.toUInt32.toNat = v.toBitVec.toNat := rfl
  have := v.toBitVec.isLt
  rw [hv,hu]
  split_ifs at h ⊢ <;> omega

private theorem toInt_toInt32 (u : UInt32) :
    u.toInt32.toInt = if u.toNat < 2^31 then (u.toNat : Int) else u.toNat - 2^32 := by
  have h := BitVec.toInt_eq_toNat_cond u.toBitVec
  have hv : u.toInt32.toInt = u.toBitVec.toInt := rfl
  have hu : u.toNat = u.toBitVec.toNat := rfl
  rw [hv,hu]
  split_ifs at h ⊢ <;> omega

variable {exp : Nat}

private theorem baseLoop_toNat (h : exp ≤ 9) : (baseLoop exp 1).toNat = 10^exp := by
  interval_cases exp <;> decide

private theorem roundToPower_word (h : exp ≤ 9) (v : Int32) :
    ((v.toUInt32 + baseLoop exp 1 - 1) / baseLoop exp 1 * baseLoop exp 1).toNat =
      (v.toUInt32.toNat + (10^exp - 1)) % 2^32 / 10^exp * 10^exp := by
  have hb := baseLoop_toNat h
  have hpos : 0 < 10^exp := Nat.pow_pos (by omega)
  have hle : 10^exp ≤ 10^9 := Nat.pow_le_pow_right (by omega) h
  have hsum : (v.toUInt32 + baseLoop exp 1 - 1).toNat =
      (v.toUInt32.toNat + (10^exp - 1)) % 2^32 := by
    rw [UInt32.toNat_sub,UInt32.toNat_add,hb,UInt32.toNat_one]
    omega
  rw [UInt32.toNat_mul,UInt32.toNat_div,hsum,hb]
  refine Nat.mod_eq_of_lt (lt_of_le_of_lt (Nat.div_mul_le_self _ _) ?_)
  exact Nat.mod_lt _ (by omega)

private theorem least_multiple {b v m : Int} (hb : 0 < b)
    (h : IsLeast {m : Int | b ∣ m ∧ v ≤ m} m) :
    b ∣ m ∧ v ≤ m ∧ m < v + b := by
  obtain ⟨⟨hd,hv⟩,hleast⟩ := h
  refine ⟨hd,hv,?_⟩
  by_contra hc
  have := hleast ⟨Int.dvd_sub hd (dvd_refl b),show v ≤ m - b by omega⟩
  omega

private theorem multiple_unique {b m n x : Int} (hm : b ∣ m) (hn : b ∣ n) (h1 : x ≤ m)
    (h2 : m < x + b)
    (h3 : x ≤ n) (h4 : n < x + b) : m = n := by
  have hd : b ∣ m - n := Int.dvd_sub hm hn
  have := Int.eq_zero_of_abs_lt_dvd hd (abs_lt.mpr ⟨by omega,by omega⟩)
  omega

/-- Above `-10^exp` the unsigned sum is right or wraps to a number below the base, and the word is
the least multiple. -/
theorem roundToPower_above (h : exp ≤ 9) {v : Int32} (hv : -10^exp < v.toInt)
    {m : Int} (hm : IsLeast {m : Int | 10^exp ∣ m ∧ v.toInt ≤ m} m) (hfit : m < 2^31) :
    (roundToPower exp v).toInt = m ∧ 0 ≤ m := by
  have hpos : 0 < 10^exp := Nat.pow_pos (by omega)
  have hle : 10^exp ≤ 10^9 := Nat.pow_le_pow_right (by omega) h
  obtain ⟨hd,hvm,hmb⟩ := least_multiple (by positivity) hm
  have hw := roundToPower_word h v
  set w := ((v.toUInt32 + baseLoop exp 1 - 1) / baseLoop exp 1 * baseLoop exp 1)
  have hu := toNat_toUInt32 v
  have hlt := v.toUInt32.toNat_lt
  generalize v.toUInt32.toNat = u at *
  have hcast : ((10^exp : Nat) : Int) = 10^exp := by push_cast; rfl
  have hdw : (10^exp : Int) ∣ w.toNat := by
    rw [hw,← hcast]
    exact Int.natCast_dvd_natCast.mpr (Nat.dvd_mul_left _ _)
  have hlo := Nat.div_mul_le_self ((u + (10^exp - 1)) % 2^32) (10^exp)
  have hhi := @Nat.lt_div_mul_add ((u + (10^exp - 1)) % 2^32) _ hpos
  rw [← hw] at hlo hhi
  have hwm : (w.toNat : Int) = m := by
    refine @multiple_unique _ _ _ v.toInt hdw hd ?_ ?_ hvm (by omega) <;> split_ifs at hu <;> omega
  refine ⟨?_,by omega⟩
  show w.toInt32.toInt = m
  rw [toInt_toInt32,if_pos (by omega),hwm]

/-- From `-10^exp` down the sum does not wrap, and what is stored differs from a multiple of the
base by `2^32`. -/
theorem roundToPower_below (h0 : exp ≠ 0) (h : exp ≤ 9) {v : Int32}
    (hv : v.toInt ≤ -10^exp) : ¬ (10^exp : Int) ∣ (roundToPower exp v).toInt := by
  have hpos : 0 < 10^exp := Nat.pow_pos (by omega)
  have hle : 10^exp ≤ 10^9 := Nat.pow_le_pow_right (by omega) h
  have hw := roundToPower_word h v
  have hdef : roundToPower exp v =
    ((v.toUInt32 + baseLoop exp 1 - 1) / baseLoop exp 1 * baseLoop exp 1).toInt32 := rfl
  set w := ((v.toUInt32 + baseLoop exp 1 - 1) / baseLoop exp 1 * baseLoop exp 1)
  have hu := toNat_toUInt32 v
  have hlt := v.toUInt32.toNat_lt
  have hmin : -2^31 ≤ v.toInt := v.le_toInt
  have hcast : ((10^exp : Nat) : Int) = 10^exp := by push_cast; rfl
  generalize v.toUInt32.toNat = u at *
  have hlo := Nat.div_mul_le_self ((u + (10^exp - 1)) % 2^32) (10^exp)
  have hhi := @Nat.lt_div_mul_add ((u + (10^exp - 1)) % 2^32) _ hpos
  rw [← hw] at hlo hhi
  rw [hdef,toInt_toInt32,if_neg (by split_ifs at hu <;> omega)]
  intro hd
  have hdw : (10^exp : Int) ∣ w.toNat := by
    rw [hw,← hcast]
    exact Int.natCast_dvd_natCast.mpr (Nat.dvd_mul_left _ _)
  have h5 : (5 : Int) ∣ 10^exp := Dvd.dvd.trans (by norm_num) (dvd_pow_self 10 h0)
  have hpow : (10^exp : Int) ∣ 2^32 := by simpa using Int.dvd_sub hdw hd
  have := h5.trans hpow
  omega

private theorem roundToPower_zero (v : Int32) : roundToPower 0 v = v := by
  simp [roundToPower,baseLoop]

private theorem exists_least {b : Int} (hb : 0 < b) (v : Int) :
    IsLeast {m : Int | b ∣ m ∧ v ≤ m} (-((-v) / b * b)) := by
  have hlo := Int.ediv_mul_le (-v) hb.ne'
  refine ⟨⟨Int.dvd_neg.mpr (Int.dvd_mul_left _ _),by omega⟩,fun n hn => ?_⟩
  obtain ⟨k,rfl⟩ := hn.1
  have hk : -k ≤ -v / b := by
    rw [Int.le_ediv_iff_mul_le hb,Int.neg_mul,Int.mul_comm]
    exact Int.neg_le_neg hn.2
  have := Int.mul_le_mul_of_nonneg_right hk hb.le
  rw [Int.neg_mul,Int.mul_comm k] at this
  omega

private theorem storedInteger_zero (round_param : String) (v : Int32) :
    storedInteger round_param 0 v = v := by
  rw [storedInteger,roundToPower_zero,ite_self]

/-- The code rounds up exactly for exponent zero and above `-10^exp`. -/
theorem storedInteger_roundsUp (round_param : String) (exp : Nat) (v : Int32) (he : exp ≤ 9)
    (hconf : round_param = "" ∨ round_param = "0" → exp = 0) :
    RoundsUp round_param exp v ↔ exp = 0 ∨ -10^exp < v.toInt := by
  have hpos : (0 : Int) < 10^exp := by positivity
  by_cases h0 : exp = 0
  · subst h0
    refine iff_of_true (fun m hm _ => ?_) (.inl rfl)
    have := least_multiple hpos hm
    simp only [storedInteger_zero]
    exact ⟨by omega,le_refl _,trivial⟩
  have hon : round_param ≠ "" ∧ round_param ≠ "0" :=
    ⟨fun h => h0 (hconf (.inl h)),fun h => h0 (hconf (.inr h))⟩
  have hstored : ∀ x, storedInteger round_param exp x = roundToPower exp x := fun x => if_pos hon
  simp only [RoundsUp,hstored,h0,false_or]
  constructor
  · intro hround
    by_contra hv
    have hleast := exists_least hpos v.toInt
    have hrange := least_multiple hpos hleast
    obtain ⟨heq,-,-⟩ := hround _ hleast (by omega)
    exact roundToPower_below h0 he (by omega) (heq ▸ hrange.1)
  · intro hv m hm hfit
    obtain ⟨heq,hm0⟩ := roundToPower_above he hv hm hfit
    obtain ⟨hd,hvm,-⟩ := least_multiple hpos hm
    refine ⟨heq,heq ▸ hvm,Int32.toInt_inj.mp ?_⟩
    -- the stored value is its own least multiple, and is not negative
    have hself : IsLeast {n : Int | 10^exp ∣ n ∧ (roundToPower exp v).toInt ≤ n} m := by
      rw [heq]
      exact ⟨⟨hd,le_refl m⟩,fun _ h => h.2⟩
    rw [(roundToPower_above he (by omega) hself hfit).1,heq]

theorem storedInteger_roundsUp_minutes : RoundsUp "2" 2 250 :=
  (storedInteger_roundsUp "2" 2 250 (by decide) (by decide)).mpr (.inr (by decide))

theorem storedInteger_negative : ¬ RoundsUp "1" 1 (-25) := by
  intro h
  have hleast : IsLeast {m : Int | 10^1 ∣ m ∧ (-25 : Int32).toInt ≤ m} (-20) := by
    refine ⟨⟨by decide,by decide⟩,fun n hn => ?_⟩
    have h1 : (10 : Int) ∣ n := hn.1
    have h2 : -25 ≤ n := hn.2
    omega
  exact absurd (h _ hleast (by decide)).1 (by decide)

end Condor.Schedd.Rounding
