import Condor.ClassAds.Operators

/-!
# Operations that can stop the program

The operators again, with what C++ leaves undefined: a quotient that does not fit into an `int`, a
shift not within the width, and the exceptions that the code raises where it should not get.
-/

namespace Condor.ClassAds

open List

/-- What ends the process. -/
inductive Trap
  | quotient | shiftAmount | exception
  deriving DecidableEq

namespace Trapping

variable {D : Type} [Doubles D]

open Doubles Operation

def quotient (i j : Int32) : Except Trap Int32 :=
  if i = Int32.minValue ∧ j = -1 then .error .quotient else .ok (i / j)

def remainder (i j : Int32) : Except Trap Int32 :=
  if i = Int32.minValue ∧ j = -1 then .error .quotient else .ok (i % j)

/-- The amounts by which an `int` can be shifted. -/
def isShiftAmount (n : Int32) : Bool := 0 ≤ n && n < 32

def shiftLeft (i n : Int32) : Except Trap Int32 :=
  if isShiftAmount n then .ok (i <<< n) else .error .shiftAmount

def shiftRight (i n : Int32) : Except Trap Int32 :=
  if isShiftAmount n then .ok (i >>> n) else .error .shiftAmount

def compareBy (op : OpKind) (lt eq gt : Bool) : Except Trap (EvalValue D) :=
  match op with
  | .lessThan | .lessOrEqual | .equal | .notEqual | .greaterThan | .greaterOrEqual =>
    .ok (Operation.compareBy op lt eq gt)
  | _ => .error .exception

/-- Strings are compared without a `switch`. -/
def compareCoerced (op : OpKind) (exact : Bool) (coerced : ValueType) (v1 v2 : EvalValue D) :
    Except Trap (EvalValue D) :=
  match coerced, v1, v2 with
  | .string, .string s1, .string s2 => .ok (compareStrings op exact s1 s2)
  | .string, _, _ => .ok .error
  | .integer, .integer i, .integer j => compareBy op (i < j) (i = j) (j < i)
  | .real, .real r, .real s => compareBy op (lt r s) (eq r s) (lt s r)
  | .list, _, _ => .ok .error
  | .classAd, _, _ => .ok .error
  | .absoluteTime, .absTime s _, .absTime t _ => compareBy op (s < t) (s = t) (t < s)
  | .absoluteTime, _, _ => .ok .error
  | .relativeTime, .relTime s, .relTime t => compareBy op (lt s t) (eq s t) (lt t s)
  | .relativeTime, _, _ => .ok .error
  | _, _, _ => .error .exception

def doComparison (op : OpKind) (v1 v2 : EvalValue D) : Except Trap (EvalValue D) :=
  let (coerced,v1,v2) := coerceToNumber v1 v2
  let exceptional := v1.type = .undefined ∨ v1.type = .error
  match op with
  | .metaEqual =>
    if v1.type ≠ v2.type then .ok (.boolean false)
    else if exceptional then .ok (.boolean true)
    else compareCoerced .equal true coerced v1 v2
  | .metaNotEqual =>
    if v1.type ≠ v2.type then .ok (.boolean true)
    else if exceptional then .ok (.boolean false)
    else compareCoerced .notEqual true coerced v1 v2
  | op => compareCoerced op false coerced v1 v2

def doIntegerArithmetic (op : OpKind) (i j : Int32) : Except Trap (EvalValue D) :=
  match op with
  | .addition => .ok (.integer (i + j))
  | .subtraction => .ok (.integer (i - j))
  | .multiplication => .ok (.integer (i * j))
  | .division => if j ≠ 0 then (quotient i j).map .integer else .ok .error
  | .modulus => if j ≠ 0 then (remainder i j).map .integer else .ok .error
  | _ => .error .exception

def doRealArithmetic (op : OpKind) (r s : D) : Except Trap (EvalValue D) :=
  match op with
  | .addition | .subtraction | .multiplication | .division | .modulus =>
    .ok (Operation.doRealArithmetic op r s)
  | _ => .error .exception

def doArithmetic (op : OpKind) (v1 v2 : EvalValue D) : Except Trap (EvalValue D) :=
  if !isArithmetic v1 || (op ≠ .unaryMinus && !isArithmetic v2) then .ok .error
  else if op = .unaryMinus then .ok (Operation.doArithmetic op v1 v2)
  else
    let (coerced,v1,v2) := coerceToNumber v1 v2
    match coerced, v1, v2 with
    | .integer, .integer i, .integer j => doIntegerArithmetic op i j
    | .real, .real r, .real s => doRealArithmetic op r s
    | .absoluteTime, v1, v2 => .ok (doTimeArithmetic op v1 v2)
    | .relativeTime, v1, v2 => .ok (doTimeArithmetic op v1 v2)
    | _, _, _ => .error .exception

/-- An operand of another type than a truth value is an error before the operator is looked at. -/
def doLogical (oldSemantics : Bool) (op : OpKind) (v1 v2 : EvalValue D) :
    Except Trap (EvalValue D) :=
  match op with
  | .logicalNot | .logicalOr | .logicalAnd => .ok (Operation.doLogical oldSemantics op v1 v2)
  | _ =>
    if truth oldSemantics v1 = .other ∨ truth oldSemantics v2 = .other then .ok .error
    else .error .exception

def doBitwise (op : OpKind) (v1 v2 : EvalValue D) : Except Trap (EvalValue D) :=
  match op, v1, v2 with
  | .bitwiseNot, .integer i, _ => .ok (.integer (~~~i))
  | .bitwiseNot, _, _ => .ok .error
  | .bitwiseOr, .integer i, .integer j => .ok (.integer (i ||| j))
  | .bitwiseAnd, .integer i, .integer j => .ok (.integer (i &&& j))
  | .bitwiseXor, .integer i, .integer j => .ok (.integer (i ^^^ j))
  | .leftShift, .integer i, .integer j => (shiftLeft i j).map .integer
  | .rightShift, .integer i, .integer j =>
    -- the loop shifts by one
    if 0 ≤ i then (shiftRight i j).map .integer
    else .ok (.integer (shiftSigned i j.toInt.toNat))
  | .urightShift, .integer i, .integer j =>
    if 0 ≤ i then (shiftRight i j).map .integer
    else (shiftRight ((i >>> 1) &&& Int32.maxValue) (j - 1)).map .integer
  | _, .integer _, .integer _ => .error .exception
  | _, _, _ => .ok .error

def doSubscript (element : EvalValue D → EvalValue D → Except Trap (EvalValue D))
    (v1 v2 : EvalValue D) : Except Trap (EvalValue D) :=
  match v1, v2 with
  | .classAd _, .string _ => element v1 v2
  | .list _ _, .integer _ => element v1 v2
  | _, _ => .ok .error

def doOperation (oldSemantics : Bool) (op : OpKind) (vs : List (EvalValue D))
    (element : EvalValue D → EvalValue D → Except Trap (EvalValue D)) :
    Except Trap (EvalValue D) :=
  let v1 := vs.getD 0 .undefined
  let v2 := vs.getD 1 .undefined
  match op with
  | .parentheses | .unaryPlus | .ternary =>
    Operation.doOperation oldSemantics op vs (doSubscript element)
  | op =>
    match if isStrictOperator op then strictResult vs else none with
    | some v => .ok v
    | none =>
      match opClass op with
      | .comparison => doComparison op v1 v2
      | .arithmetic => doArithmetic op v1 v2
      | .logic => doLogical oldSemantics op v1 v2
      | .bitwise => doBitwise op v1 v2
      | .misc => doSubscript element v1 v2

variable {v1 v2 v : EvalValue D} {op : OpKind}

omit [Doubles D] in
theorem compareBy_ok {lt eq gt : Bool} (h : compareBy op lt eq gt = .ok v) :
    Operation.compareBy op lt eq gt = v := by
  unfold compareBy at h
  split at h
  case h_7 => simp at h
  all_goals exact Except.ok.inj h

private theorem compareCoerced_ok {exact : Bool} {coerced : ValueType}
    (h : compareCoerced op exact coerced v1 v2 = .ok v) :
    Operation.compareCoerced op exact coerced v1 v2 = v := by
  unfold compareCoerced at h
  split at h
  case h_1 => exact Except.ok.inj h
  case h_3 => exact compareBy_ok h
  case h_4 => exact compareBy_ok h
  case h_7 => exact compareBy_ok h
  case h_9 => exact compareBy_ok h
  case h_11 => simp at h
  -- the operands are not both of the coerced type
  all_goals
    obtain rfl := Except.ok.inj h
    unfold Operation.compareCoerced
    split
  all_goals first
    | rfl
    | contradiction
    | next hne => exact absurd rfl (hne _ _ _ _ rfl)
    | next hne => exact absurd rfl (hne _ _ rfl)

private theorem doComparison_ok (h : doComparison op v1 v2 = .ok v) :
    Operation.doComparison op v1 v2 = v := by
  unfold doComparison at h
  unfold Operation.doComparison
  dsimp only at h ⊢
  cases op with
  | metaEqual | metaNotEqual =>
    dsimp only at h ⊢
    split at h
    · next hne => rw [if_pos hne]; exact Except.ok.inj h
    · next hne =>
      rw [if_neg hne]
      split at h
      · next hexc => rw [if_pos hexc]; exact Except.ok.inj h
      · next hexc => rw [if_neg hexc]; exact compareCoerced_ok h
  | _ => exact compareCoerced_ok h

omit [Doubles D] in
theorem doIntegerArithmetic_ok {i j : Int32} (h : doIntegerArithmetic op i j = .ok v) :
    Operation.doIntegerArithmetic op i j = v := by
  unfold doIntegerArithmetic at h
  split at h
  case h_4 =>
    rw [Operation.doIntegerArithmetic]
    split at h
    · next hj =>
      rw [if_pos hj]
      unfold quotient at h
      split at h
      · simp [Except.map] at h
      · exact Except.ok.inj h
    · next hj => rw [if_neg hj]; exact Except.ok.inj h
  case h_5 =>
    rw [Operation.doIntegerArithmetic]
    split at h
    · next hj =>
      rw [if_pos hj]
      unfold remainder at h
      split at h
      · simp [Except.map] at h
      · exact Except.ok.inj h
    · next hj => rw [if_neg hj]; exact Except.ok.inj h
  case h_6 => simp at h
  all_goals exact Except.ok.inj h

private theorem doRealArithmetic_ok {r s : D} (h : doRealArithmetic op r s = .ok v) :
    Operation.doRealArithmetic op r s = v := by
  unfold doRealArithmetic at h
  split at h
  case h_6 => simp at h
  all_goals exact Except.ok.inj h

private theorem doArithmetic_ok (h : doArithmetic op v1 v2 = .ok v) :
    Operation.doArithmetic op v1 v2 = v := by
  unfold doArithmetic at h
  split at h
  · next hno =>
    unfold Operation.doArithmetic
    rw [if_pos hno]
    exact Except.ok.inj h
  · next hyes =>
    split at h
    · exact Except.ok.inj h
    · next hop =>
      unfold Operation.doArithmetic
      rw [if_neg hyes,if_neg hop]
      generalize coerceToNumber v1 v2 = c at h ⊢
      obtain ⟨coerced,w1,w2⟩ := c
      dsimp only at h ⊢
      split at h
      · exact doIntegerArithmetic_ok h
      · exact doRealArithmetic_ok h
      · exact Except.ok.inj h
      · exact Except.ok.inj h
      · simp at h

private theorem doLogical_ok {oldSemantics : Bool} (h : doLogical oldSemantics op v1 v2 = .ok v) :
    Operation.doLogical oldSemantics op v1 v2 = v := by
  unfold doLogical at h
  split at h
  case h_4 =>
    split at h
    · next hother =>
      obtain rfl := Except.ok.inj h
      unfold Operation.doLogical
      split
      · rfl
      · rfl
      · next h1 h2 => exact absurd hother (not_or.mpr ⟨h1,h2⟩)
    · simp at h
  all_goals exact Except.ok.inj h

omit [Doubles D] in
theorem doBitwise_ok (h : doBitwise op v1 v2 = .ok v) : Operation.doBitwise op v1 v2 = v := by
  have hshift {i n : Int32} {f : Int32 → EvalValue D} (hs : (shiftRight i n).map f = .ok v) :
      f (i >>> n) = v := by
    unfold shiftRight at hs
    split at hs
    · exact Except.ok.inj hs
    · simp [Except.map] at hs
  unfold doBitwise at h
  split at h
  case h_6 =>
    unfold shiftLeft at h
    split at h
    · exact Except.ok.inj h
    · simp [Except.map] at h
  case h_7 =>
    rw [Operation.doBitwise]
    split at h
    · next hi => rw [if_pos hi]; exact hshift h
    · next hi => rw [if_neg hi]; exact Except.ok.inj h
  case h_8 =>
    rw [Operation.doBitwise]
    split at h
    · next hi => rw [if_pos hi]; exact hshift h
    · next hi => rw [if_neg hi]; exact hshift h
  case h_9 => simp at h
  case h_2 =>
    obtain rfl := Except.ok.inj h
    unfold Operation.doBitwise
    split <;> simp_all
  case h_10 =>
    obtain rfl := Except.ok.inj h
    unfold Operation.doBitwise
    split <;> simp_all
  all_goals exact Except.ok.inj h

variable {element : EvalValue D → EvalValue D → Except Trap (EvalValue D)}

private theorem doOperation_ok {oldSemantics : Bool} {vs : List (EvalValue D)}
    (h : doOperation oldSemantics op vs element = .ok v) :
    Operation.doOperation oldSemantics op vs (doSubscript element) = .ok v := by
  unfold doOperation at h
  unfold Operation.doOperation
  cases op with
  | parentheses | unaryPlus | ternary => exact h
  | _ =>
    dsimp only at h ⊢
    generalize (if isStrictOperator _ = true then strictResult vs else none) = strict at h ⊢
    cases strict with
    | some w => exact h
    | none =>
      dsimp only [opClass] at h ⊢
      first
        | exact congrArg Except.ok (doComparison_ok h)
        | exact congrArg Except.ok (doArithmetic_ok h)
        | exact congrArg Except.ok (doLogical_ok h)
        | exact congrArg Except.ok (doBitwise_ok h)
        | exact h

def arithmeticShift (i : Int32) (n : Nat) : Int32 := .ofBitVec (i.toBitVec.sshiftRight n)

def logicalShift (i : Int32) (n : Nat) : Int32 := .ofBitVec (i.toBitVec >>> n)

private theorem toBitVec_shiftRight_ofNat (i : Int32) {n : Nat} (hn : n < 32) :
    (i >>> Int32.ofNat n).toBitVec = i.toBitVec.sshiftRight n := by
  have hmod : ∀ k : Fin 32, ((Int32.ofNat k).toBitVec.smod 32).toNat = k := by decide
  rw [Int32.toBitVec_shiftRight,BitVec.sshiftRight',hmod ⟨n,hn⟩]

private theorem shiftRight_ofNat (i : Int32) {n : Nat} (hn : n < 32) :
    i >>> Int32.ofNat n = arithmeticShift i n :=
  Int32.toBitVec_inj.mp (toBitVec_shiftRight_ofNat i hn)

variable {i : Int32}

private theorem msb_of_nonneg (h : 0 ≤ i) : i.toBitVec.msb = false := by
  have h : (0 : Int) ≤ i.toBitVec.toInt := Int32.le_iff_toInt_le.mp h
  rw [BitVec.msb_eq_toInt]
  simpa using h

private theorem msb_of_neg (h : ¬0 ≤ i) : i.toBitVec.msb = true := by
  have h : ¬(0 : Int) ≤ i.toBitVec.toInt := fun hi => h (Int32.le_iff_toInt_le.mpr hi)
  rw [BitVec.msb_eq_toInt]
  simpa using h

private theorem arithmeticShift_of_nonneg (h : 0 ≤ i) (n : Nat) :
    arithmeticShift i n = logicalShift i n :=
  congrArg Int32.ofBitVec (BitVec.sshiftRight_eq_of_msb_false (msb_of_nonneg h))

private theorem shiftSigned_eq (h : ¬0 ≤ i) (n : Nat) :
    shiftSigned i n = arithmeticShift i n := by
  have hmin : ∀ k : Fin 32, Int32.minValue.toBitVec[k] = decide (k = 31) := by decide
  induction n with
  | zero => exact Int32.toBitVec_inj.mp (BitVec.sshiftRight_zero).symm
  | succ n ih =>
    have hone : (Int32.ofNat 1) = 1 := rfl
    rw [shiftSigned,ih]
    apply Int32.toBitVec_inj.mp
    rw [Int32.toBitVec_or,← hone,toBitVec_shiftRight_ofNat _ (by omega)]
    change ((i.toBitVec.sshiftRight n).sshiftRight 1) ||| _ = i.toBitVec.sshiftRight (n + 1)
    rw [← BitVec.sshiftRight_add]
    ext k hk
    rw [BitVec.getElem_or]
    have hbit := hmin ⟨k,hk⟩
    rw [Fin.getElem_fin] at hbit
    rw [hbit]
    by_cases hlast : k = 31
    · -- the sign is there already
      rw [BitVec.getElem_sshiftRight hk,dif_neg (by omega),msb_of_neg h]
      rfl
    · have hne : (⟨k,hk⟩ : Fin 32) ≠ 31 := fun he => hlast (congrArg Fin.val he)
      rw [decide_eq_false hne,Bool.or_false]

private theorem masked_eq (i : Int32) : (i >>> 1) &&& Int32.maxValue = logicalShift i 1 := by
  have hmax : ∀ k : Fin 32, Int32.maxValue.toBitVec[k] = decide (k ≠ 31) := by decide
  have hone : (Int32.ofNat 1) = 1 := rfl
  apply Int32.toBitVec_inj.mp
  rw [Int32.toBitVec_and,← hone,toBitVec_shiftRight_ofNat _ (by omega)]
  change _ = i.toBitVec >>> 1
  ext k hk
  have hbit := hmax ⟨k,hk⟩
  rw [Fin.getElem_fin] at hbit
  rw [BitVec.getElem_and,hbit,BitVec.getElem_sshiftRight hk,BitVec.getElem_ushiftRight]
  by_cases hlast : k = 31
  · subst hlast
    simp
  · have hne : (⟨k,hk⟩ : Fin 32) ≠ 31 := fun he => hlast (congrArg Fin.val he)
    have hlt : 1 + k < 32 := by omega
    rw [decide_eq_true hne,Bool.and_true,dif_pos hlt]
    exact (BitVec.getLsbD_eq_getElem hlt).symm

private theorem masked_shiftRight (i : Int32) {n : Nat} (hn : n < 32) :
    ((i >>> 1) &&& Int32.maxValue) >>> Int32.ofNat n = logicalShift i (n + 1) := by
  have hmsb : (i.toBitVec >>> 1).msb = false := by
    rw [BitVec.msb_ushiftRight]
    simp
  rw [masked_eq,shiftRight_ofNat _ hn,Nat.add_comm]
  apply Int32.toBitVec_inj.mp
  change (i.toBitVec >>> 1).sshiftRight n = i.toBitVec >>> (1 + n)
  rw [BitVec.sshiftRight_eq_of_msb_false hmsb,BitVec.shiftRight_add]

def arity : OpKind → Nat
  | .unaryPlus | .unaryMinus | .logicalNot | .bitwiseNot | .parentheses => 1
  | .ternary => 3
  | _ => 2

def isIntegral : EvalValue D → Bool
  | .integer _ | .boolean _ => true
  | _ => false

/-- The operator returns, with the value that `Operation` computes, and the right shifts are what
they should be. -/
def Returns (oldSemantics : Bool) (op : OpKind) (vs : List (EvalValue D))
    (element : EvalValue D → EvalValue D → Except Trap (EvalValue D)) : Prop :=
  ∃ v, doOperation oldSemantics op vs element = .ok v ∧
    Operation.doOperation oldSemantics op vs (doSubscript element) = .ok v ∧
    ∀ i n, n < 32 → vs = [.integer i,.integer (.ofNat n)] →
      (op = .urightShift → v = .integer (logicalShift i n)) ∧
      (op = .rightShift → v = .integer (arithmeticShift i n))

/-- The operation on these integers is defined. -/
def isSafe (op : OpKind) (vs : List (EvalValue D)) : Bool :=
  match op, vs with
  | .division, [.integer i,.integer j] => !(i = Int32.minValue && j = -1)
  | .modulus, [.integer i,.integer j] => !(i = Int32.minValue && j = -1)
  | .leftShift, [.integer _,.integer n] => isShiftAmount n
  | .rightShift, [.integer i,.integer n] => !(0 ≤ i) || isShiftAmount n
  -- a negative operand is shifted by one before the rest
  | .urightShift, [.integer i,.integer n] => isShiftAmount (if 0 ≤ i then n else n - 1)
  | _, _ => true

variable {vs : List (EvalValue D)} {oldSemantics : Bool}

omit [Doubles D] in
theorem strictResult_integral (h : ∀ v ∈ vs, isIntegral v = true) : strictResult vs = none := by
  have hno (t : ValueType) (ht : t = .error ∨ t = .undefined) :
      (vs.any fun v => v.type = t) = false := by
    refine List.any_eq_false.mpr fun v hv => ?_
    have hint := h v hv
    unfold isIntegral at hint
    split at hint
    · rcases ht with rfl | rfl <;> simp [EvalValue.type]
    · rcases ht with rfl | rfl <;> simp [EvalValue.type]
    · simp at hint
  rw [strictResult,hno .error (.inl rfl),hno .undefined (.inr rfl)]
  rfl

/-- The value as an `int`. -/
def toInt : EvalValue D → Int32
  | .integer i => i
  | .boolean b => if b then 1 else 0
  | _ => 0

private theorem coerceToNumber_integral (h1 : isIntegral v1 = true) (h2 : isIntegral v2 = true) :
    coerceToNumber v1 v2 = (.integer,.integer (toInt v1),.integer (toInt v2)) := by
  unfold isIntegral at h1 h2
  split at h1
  all_goals first
    | simp at h1; done
    | split at h2
  all_goals first
    | simp at h2; done
    | rfl

private theorem doComparison_integral (h1 : isIntegral v1 = true) (h2 : isIntegral v2 = true)
    (hop : opClass op = .comparison) : ∃ v, doComparison op v1 v2 = .ok v := by
  unfold doComparison
  rw [coerceToNumber_integral h1 h2]
  cases op with
  | lessThan | lessOrEqual | notEqual | equal | greaterOrEqual | greaterThan | metaEqual
  | metaNotEqual => exact ⟨_,rfl⟩
  | _ => simp [opClass] at hop

private theorem doArithmetic_integral (h1 : isIntegral v1 = true) (h2 : isIntegral v2 = true)
    (hop : op ≠ .unaryMinus) :
    doArithmetic op v1 v2 = doIntegerArithmetic op (toInt v1) (toInt v2) := by
  have harith {w : EvalValue D} (hw : isIntegral w = true) : isArithmetic w = true := by
    unfold isIntegral at hw
    split at hw
    · rfl
    · rfl
    · simp at hw
  unfold doArithmetic
  rw [harith h1,harith h2,coerceToNumber_integral h1 h2,if_neg (by simp),if_neg hop]

omit [Doubles D] in
theorem doIntegerArithmetic_ok_iff (i j : Int32) (hop : opClass op = .arithmetic)
    (hplus : op ≠ .unaryPlus) (hminus : op ≠ .unaryMinus) :
    (∃ v : EvalValue D, doIntegerArithmetic op i j = .ok v) ↔
      ((op = .division ∨ op = .modulus) → ¬(i = Int32.minValue ∧ j = -1)) := by
  have hone : (-1 : Int32) ≠ 0 := by decide
  cases op with
  | unaryPlus => exact absurd rfl hplus
  | unaryMinus => exact absurd rfl hminus
  | division =>
    by_cases htrap : i = Int32.minValue ∧ j = -1
    · simp [doIntegerArithmetic,quotient,htrap,hone,Except.map]
    · by_cases hj : j = 0
      · simp [doIntegerArithmetic,hj]
      · simp [doIntegerArithmetic,quotient,htrap,hj,Except.map]
  | modulus =>
    by_cases htrap : i = Int32.minValue ∧ j = -1
    · simp [doIntegerArithmetic,remainder,htrap,hone,Except.map]
    · by_cases hj : j = 0
      · simp [doIntegerArithmetic,hj]
      · simp [doIntegerArithmetic,remainder,htrap,hj,Except.map]
  | addition | subtraction | multiplication => simp [doIntegerArithmetic]
  | _ => simp [opClass] at hop

private theorem returns_iff_ok (hu : op ≠ .urightShift) (hr : op ≠ .rightShift) :
    Returns oldSemantics op vs element ↔ ∃ v, doOperation oldSemantics op vs element = .ok v := by
  constructor
  · intro h
    obtain ⟨v,hv,-⟩ := h
    exact ⟨v,hv⟩
  · intro h
    obtain ⟨v,hv⟩ := h
    exact ⟨v,hv,doOperation_ok hv,fun _ _ _ _ => ⟨fun he => absurd he hu,fun he => absurd he hr⟩⟩

private theorem returns_of_value {w : Int32} {i n : Int32}
    (hw : doOperation oldSemantics op [.integer i,.integer n] element = .ok (.integer w))
    (hval : ∀ k, k < 32 → n = .ofNat k → (op = .urightShift → w = logicalShift i k) ∧
      (op = .rightShift → w = arithmeticShift i k)) :
    Returns oldSemantics op [.integer i,.integer n] element := by
  refine ⟨_,hw,doOperation_ok hw,fun j k hk hvs => ?_⟩
  simp only [List.cons.injEq,EvalValue.scalar.injEq,Scalar.integer.injEq,and_true] at hvs
  obtain ⟨rfl,hn⟩ := hvs
  obtain ⟨hu,hr⟩ := hval k hk hn
  exact ⟨fun hop => congrArg EvalValue.integer (hu hop),fun hop =>
    congrArg EvalValue.integer (hr hop)⟩

omit [Doubles D] in
theorem shiftRight_ok_iff {i n : Int32} :
    (∃ v : EvalValue D, (shiftRight i n).map EvalValue.integer = .ok v) ↔
      isShiftAmount n = true := by
  unfold shiftRight
  cases isShiftAmount n with
  | true | false => simp [Except.map]

theorem returns_rightShift_iff
    (element : EvalValue D → EvalValue D → Except Trap (EvalValue D))
    (i n : Int32) : Returns oldSemantics .rightShift [.integer i,.integer n] element ↔
      (0 ≤ i → isShiftAmount n = true) := by
  have hop : doOperation oldSemantics .rightShift [.integer i,.integer n] element =
      if 0 ≤ i then (shiftRight i n).map .integer
      else .ok (.integer (shiftSigned i n.toInt.toNat)) := rfl
  by_cases hi : 0 ≤ i
  · rw [if_pos hi] at hop
    constructor
    · intro h _
      obtain ⟨v,hv,-⟩ := h
      exact shiftRight_ok_iff.mp ⟨v,hop.symm.trans hv⟩
    · intro h
      rw [shiftRight,if_pos (h hi)] at hop
      refine returns_of_value hop fun k hk hn => ⟨nofun,fun _ => ?_⟩
      rw [hn]
      exact shiftRight_ofNat i hk
  · rw [if_neg hi] at hop
    refine ⟨fun _ h => absurd h hi,fun _ => returns_of_value hop fun k hk hn => ⟨nofun,fun _ => ?_⟩⟩
    have hk' : (Int32.ofNat k).toInt.toNat = k := by
      rw [Int32.toInt_ofNat_of_lt (by omega)]
      rfl
    rw [hn,hk']
    exact shiftSigned_eq hi k

theorem returns_urightShift_iff
    (element : EvalValue D → EvalValue D → Except Trap (EvalValue D))
    (i n : Int32) : Returns oldSemantics .urightShift [.integer i,.integer n] element ↔
      isShiftAmount (if 0 ≤ i then n else n - 1) = true := by
  have hop : doOperation oldSemantics .urightShift [.integer i,.integer n] element =
      if 0 ≤ i then (shiftRight i n).map .integer
      else (shiftRight ((i >>> 1) &&& Int32.maxValue) (n - 1)).map .integer := rfl
  by_cases hi : 0 ≤ i
  · rw [if_pos hi] at hop ⊢
    constructor
    · intro h
      obtain ⟨v,hv,-⟩ := h
      exact shiftRight_ok_iff.mp ⟨v,hop.symm.trans hv⟩
    · intro h
      rw [shiftRight,if_pos h] at hop
      refine returns_of_value hop fun k hk hn => ⟨fun _ => ?_,nofun⟩
      rw [hn,shiftRight_ofNat i hk]
      exact arithmeticShift_of_nonneg hi k
  · rw [if_neg hi] at hop ⊢
    constructor
    · intro h
      obtain ⟨v,hv,-⟩ := h
      exact shiftRight_ok_iff.mp ⟨v,hop.symm.trans hv⟩
    · intro h
      rw [shiftRight,if_pos h] at hop
      refine returns_of_value hop fun k hk hn => ⟨fun _ => ?_,nofun⟩
      subst hn
      cases k with
      | zero =>
        have hno : isShiftAmount (Int32.ofNat 0 - 1) = false := by decide
        rw [hno] at h
        simp at h
      | succ k =>
        have hk' : Int32.ofNat (k + 1) - 1 = Int32.ofNat k := by
          rw [Int32.ofNat_add]
          exact Int32.add_sub_cancel ..
        rw [hk']
        exact masked_shiftRight i (by omega)

private theorem doOperation_integral (h : ∀ v ∈ vs, isIntegral v = true)
    (hop : op ≠ .parentheses ∧ op ≠ .unaryPlus ∧ op ≠ .ternary) :
    doOperation oldSemantics op vs element =
      match opClass op with
      | .comparison => doComparison op (vs.getD 0 .undefined) (vs.getD 1 .undefined)
      | .arithmetic => doArithmetic op (vs.getD 0 .undefined) (vs.getD 1 .undefined)
      | .logic => doLogical oldSemantics op (vs.getD 0 .undefined) (vs.getD 1 .undefined)
      | .bitwise => doBitwise op (vs.getD 0 .undefined) (vs.getD 1 .undefined)
      | .misc => doSubscript element (vs.getD 0 .undefined) (vs.getD 1 .undefined) := by
  have hnone : (if isStrictOperator op then strictResult vs else none) = none := by
    rw [strictResult_integral h]
    split <;> rfl
  unfold doOperation
  dsimp only
  split
  · exact absurd rfl hop.1
  · exact absurd rfl hop.2.1
  · exact absurd rfl hop.2.2
  · rw [hnone]

omit [Doubles D] in
theorem integral_cases (h : isIntegral v = true) : (∃ i, v = .integer i) ∨ ∃ b, v = .boolean b := by
  unfold isIntegral at h
  split at h
  · next i => exact .inl ⟨i,rfl⟩
  · next b => exact .inr ⟨b,rfl⟩
  · simp at h

omit [Doubles D] in
theorem doBitwise_integral (h1 : isIntegral v1 = true) (h2 : isIntegral v2 = true)
    (hop : op = .bitwiseOr ∨ op = .bitwiseAnd ∨ op = .bitwiseXor) :
    ∃ v, doBitwise op v1 v2 = .ok v := by
  rcases integral_cases h1 with ⟨i,rfl⟩ | ⟨b,rfl⟩
  · rcases integral_cases h2 with ⟨j,rfl⟩ | ⟨c,rfl⟩
    · rcases hop with rfl | rfl | rfl
      · exact ⟨_,rfl⟩
      · exact ⟨_,rfl⟩
      · exact ⟨_,rfl⟩
    · rcases hop with rfl | rfl | rfl
      · exact ⟨_,rfl⟩
      · exact ⟨_,rfl⟩
      · exact ⟨_,rfl⟩
  · rcases hop with rfl | rfl | rfl
    · exact ⟨_,rfl⟩
    · exact ⟨_,rfl⟩
    · exact ⟨_,rfl⟩

private theorem doOperation_ok_of_arity (h : ∀ v ∈ vs, isIntegral v = true) (hop : arity op ≠ 2) :
    ∃ v, doOperation oldSemantics op vs element = .ok v := by
  cases op with
  | parentheses | unaryPlus => exact ⟨_,rfl⟩
  | ternary =>
    have heq := Operation.doOperation_eq oldSemantics .ternary vs (doSubscript element)
    rw [if_neg (by simp)] at heq
    exact ⟨_,heq⟩
  | unaryMinus =>
    rw [doOperation_integral h (by simp)]
    dsimp only [opClass]
    unfold doArithmetic
    split
    · exact ⟨_,rfl⟩
    · exact ⟨_,rfl⟩
  | logicalNot =>
    rw [doOperation_integral h (by simp)]
    exact ⟨_,rfl⟩
  | bitwiseNot =>
    rw [doOperation_integral h (by simp)]
    dsimp only [opClass]
    cases vs with
    | nil => exact ⟨_,rfl⟩
    | cons v vs =>
      rcases integral_cases (h v mem_cons_self) with ⟨i,rfl⟩ | ⟨b,rfl⟩
      · exact ⟨_,rfl⟩
      · exact ⟨_,rfl⟩
  | _ => exact absurd rfl hop

private theorem doOperation_ok_of_binary
    (h1 : isIntegral v1 = true) (h2 : isIntegral v2 = true) (harity : arity op = 2)
    (hop : op ≠ .division ∧ op ≠ .modulus ∧ op ≠ .leftShift ∧ op ≠ .rightShift ∧
      op ≠ .urightShift) : ∃ v, doOperation oldSemantics op [v1,v2] element = .ok v := by
  have h : ∀ v ∈ [v1,v2], isIntegral v = true := by
    intro v hv
    rcases List.mem_pair.mp hv with rfl | rfl
    · exact h1
    · exact h2
  have hoperator : op ≠ .parentheses ∧ op ≠ .unaryPlus ∧ op ≠ .ternary := by
    refine ⟨?_,?_,?_⟩
    all_goals
      intro he
      rw [he] at harity
      simp [arity] at harity
  rw [doOperation_integral h hoperator]
  change ∃ v, (match opClass op with
      | .comparison => doComparison op v1 v2
      | .arithmetic => doArithmetic op v1 v2
      | .logic => doLogical oldSemantics op v1 v2
      | .bitwise => doBitwise op v1 v2
      | .misc => doSubscript element v1 v2) = .ok v
  split
  · next hclass => exact doComparison_integral h1 h2 hclass
  · next hclass =>
    have hminus : op ≠ .unaryMinus := by
      intro he
      rw [he] at harity
      simp [arity] at harity
    rw [doArithmetic_integral h1 h2 hminus]
    exact (doIntegerArithmetic_ok_iff _ _ hclass hoperator.2.1 hminus).mpr fun he =>
      (he.elim hop.1 hop.2.1).elim
  · next hclass =>
    cases op with
    | logicalNot | logicalOr | logicalAnd => exact ⟨_,rfl⟩
    | _ => simp [opClass] at hclass
  · next hclass =>
    refine doBitwise_integral h1 h2 ?_
    cases op with
    | bitwiseOr => exact .inl rfl
    | bitwiseAnd => exact .inr (.inl rfl)
    | bitwiseXor => exact .inr (.inr rfl)
    | bitwiseNot => simp [arity] at harity
    | leftShift => exact absurd rfl hop.2.2.1
    | rightShift => exact absurd rfl hop.2.2.2.1
    | urightShift => exact absurd rfl hop.2.2.2.2
    | _ => simp [opClass] at hclass
  · rcases integral_cases h1 with ⟨i,rfl⟩ | ⟨b,rfl⟩
    · exact ⟨_,rfl⟩
    · exact ⟨_,rfl⟩

theorem returns_quotient_iff
    (h : ∀ v ∈ [v1,v2], isIntegral v = true) (hop : op = .division ∨ op = .modulus) :
    Returns oldSemantics op [v1,v2] element ↔ isSafe op [v1,v2] = true := by
  have h1 := h v1 mem_cons_self
  have h2 := h v2 (mem_cons_of_mem _ mem_cons_self)
  have hvalue : (∃ v, doOperation oldSemantics op [v1,v2] element = .ok v) ↔
      ¬(toInt v1 = Int32.minValue ∧ toInt v2 = -1) := by
    have harith : doOperation oldSemantics op [v1,v2] element =
        doIntegerArithmetic op (toInt v1) (toInt v2) := by
      rw [← doArithmetic_integral h1 h2 (by rcases hop with rfl | rfl <;> simp)]
      rw [doOperation_integral h (by rcases hop with rfl | rfl <;> simp)]
      rcases hop with rfl | rfl <;> rfl
    rw [harith,doIntegerArithmetic_ok_iff _ _ (by rcases hop with rfl | rfl <;> rfl)
      (by rcases hop with rfl | rfl <;> simp) (by rcases hop with rfl | rfl <;> simp)]
    exact ⟨fun hno => hno hop,fun hno _ => hno⟩
  have hsafe : isSafe op [v1,v2] = true ↔ ¬(toInt v1 = Int32.minValue ∧ toInt v2 = -1) := by
    have hbool (b : Bool) : (if b then 1 else 0 : Int32) ≠ Int32.minValue ∧
        (if b then 1 else 0 : Int32) ≠ -1 := by
      cases b <;> decide
    rcases integral_cases h1 with ⟨i,rfl⟩ | ⟨b,rfl⟩
    · rcases integral_cases h2 with ⟨j,rfl⟩ | ⟨c,rfl⟩
      · rcases hop with rfl | rfl <;> simp [isSafe,toInt,imp_iff_not_or]
      · have hsafe : isSafe op [(.integer i : EvalValue D),.boolean c] = true := by
          rcases hop with rfl | rfl <;> rfl
        exact ⟨fun _ hno => (hbool c).2 hno.2,fun _ => hsafe⟩
    · have hsafe : isSafe op [(.boolean b : EvalValue D),v2] = true := by
        rcases hop with rfl | rfl <;> rfl
      exact ⟨fun _ hno => (hbool b).1 hno.1,fun _ => hsafe⟩
  rw [returns_iff_ok (by rcases hop with rfl | rfl <;> simp)
    (by rcases hop with rfl | rfl <;> simp),hvalue,hsafe]

theorem returns_leftShift_iff
    (element : EvalValue D → EvalValue D → Except Trap (EvalValue D))
    (i n : Int32) : Returns oldSemantics .leftShift [.integer i,.integer n] element ↔
      isShiftAmount n = true := by
  have hop : doOperation oldSemantics .leftShift [.integer i,.integer n] element =
      (shiftLeft i n).map .integer := rfl
  rw [returns_iff_ok (by simp) (by simp),hop]
  unfold shiftLeft
  cases isShiftAmount n with
  | true | false => simp [Except.map]

private theorem returns_shift_of_boolean
    (hop : op = .leftShift ∨ op = .rightShift ∨ op = .urightShift)
    (h : ∀ v ∈ [v1,v2], isIntegral v = true) (hbool : ∀ i n, [v1,v2] ≠ [.integer i,.integer n]) :
    Returns oldSemantics op [v1,v2] element := by
  have herror : doOperation oldSemantics op [v1,v2] element = .ok .error := by
    rcases integral_cases (h v1 mem_cons_self) with ⟨i,rfl⟩ | ⟨b,rfl⟩
    · rcases integral_cases (h v2 (mem_cons_of_mem _ mem_cons_self)) with ⟨j,rfl⟩ | ⟨c,rfl⟩
      · exact absurd rfl (hbool i j)
      · rcases hop with rfl | rfl | rfl
        · rfl
        · rfl
        · rfl
    · rw [doOperation_integral h (by rcases hop with rfl | rfl | rfl <;> simp)]
      rcases hop with rfl | rfl | rfl
      · rfl
      · rfl
      · rfl
  exact ⟨_,herror,doOperation_ok herror,fun i n _ hvs => absurd hvs (hbool i _)⟩

theorem returns_shift_iff (hop : op = .leftShift ∨ op = .rightShift ∨ op = .urightShift)
    (h : ∀ v ∈ [v1,v2], isIntegral v = true) :
    Returns oldSemantics op [v1,v2] element ↔ isSafe op [v1,v2] = true := by
  rcases integral_cases (h v1 mem_cons_self) with ⟨i,rfl⟩ | ⟨b,rfl⟩
  · rcases integral_cases (h v2 (mem_cons_of_mem _ mem_cons_self)) with ⟨n,rfl⟩ | ⟨c,rfl⟩
    · rcases hop with rfl | rfl | rfl
      · exact returns_leftShift_iff element i n
      · rw [returns_rightShift_iff]
        simp [isSafe,imp_iff_not_or]
      · exact returns_urightShift_iff element i n
    · have hret : Returns oldSemantics op [.integer i,.boolean c] element :=
        returns_shift_of_boolean hop h (by simp)
      rcases hop with rfl | rfl | rfl
      · exact iff_of_true hret rfl
      · exact iff_of_true hret rfl
      · exact iff_of_true hret rfl
  · have hret : Returns oldSemantics op [.boolean b,v2] element :=
      returns_shift_of_boolean hop h (by simp)
    rcases hop with rfl | rfl | rfl
    · exact iff_of_true hret rfl
    · exact iff_of_true hret rfl
    · exact iff_of_true hret rfl

/-- The operands for which an integer operator gets by. -/
theorem integral_returns_iff {element : EvalValue D → EvalValue D → Except Trap (EvalValue D)}
    (hlen : vs.length = arity op) (h : ∀ v ∈ vs, isIntegral v = true) :
    Returns oldSemantics op vs element ↔ isSafe op vs = true := by
  by_cases harity : arity op = 2
  · rw [harity] at hlen
    obtain ⟨v1,v2,rfl⟩ := List.length_eq_two.mp hlen
    by_cases hquotient : op = .division ∨ op = .modulus
    · exact returns_quotient_iff h hquotient
    · by_cases hshift : op = .leftShift ∨ op = .rightShift ∨ op = .urightShift
      · exact returns_shift_iff hshift h
      · rw [not_or] at hquotient
        rw [not_or,not_or] at hshift
        have hok : ∃ v, doOperation oldSemantics op [v1,v2] element = .ok v :=
          doOperation_ok_of_binary (h v1 mem_cons_self)
            (h v2 (mem_cons_of_mem _ mem_cons_self)) harity
            ⟨hquotient.1,hquotient.2,hshift⟩
        have hsafe : isSafe op [v1,v2] = true := by
          unfold isSafe
          split
          · exact absurd rfl hquotient.1
          · exact absurd rfl hquotient.2
          · exact absurd rfl hshift.1
          · exact absurd rfl hshift.2.1
          · exact absurd rfl hshift.2.2
          · rfl
        rw [returns_iff_ok hshift.2.2 hshift.2.1]
        exact iff_of_true hok hsafe
  · have hop : op ≠ .urightShift ∧ op ≠ .rightShift := by
      refine ⟨?_,?_⟩
      all_goals
        intro he
        rw [he] at harity
        exact harity rfl
    have hok : ∃ v, doOperation oldSemantics op vs element = .ok v :=
      doOperation_ok_of_arity h harity
    rw [returns_iff_ok hop.1 hop.2]
    refine iff_of_true hok ?_
    unfold isSafe
    split
    all_goals first
      | rfl
      | exact absurd rfl harity

/-- A shift of a negative operand that gets by. -/
theorem integral_returns_iff_negative :
    Returns (D := Float) true .urightShift [.integer (-8),.integer 32] (fun _ _ => .ok .error) :=
  (integral_returns_iff rfl (by simp [isIntegral])).mpr (by decide)

/-- A quotient that does not fit, a shift by the width, and a shift of a negative operand by
nothing, which is turned into a shift by -1. -/
theorem operators_trap :
    ¬Returns (D := Float) true .division [.integer Int32.minValue,.integer (-1)]
      (fun _ _ => .ok .error) ∧
    ¬Returns (D := Float) true .leftShift [.integer 1,.integer 32] (fun _ _ => .ok .error) ∧
    ¬Returns (D := Float) true .urightShift [.integer (-8),.integer 0] (fun _ _ => .ok .error) := by
  refine ⟨?_,?_,?_⟩
  · rintro ⟨v,hv,-⟩
    have htrap : doOperation (D := Float) true .division [.integer Int32.minValue,.integer (-1)]
        (fun _ _ => .ok .error) = .error .quotient := rfl
    rw [htrap] at hv
    simp at hv
  · rintro ⟨v,hv,-⟩
    have htrap : doOperation (D := Float) true .leftShift [.integer 1,.integer 32]
        (fun _ _ => .ok .error) = .error .shiftAmount := rfl
    rw [htrap] at hv
    simp at hv
  · rintro ⟨v,hv,-⟩
    have htrap : doOperation (D := Float) true .urightShift [.integer (-8),.integer 0]
        (fun _ _ => .ok .error) = .error .shiftAmount := rfl
    rw [htrap] at hv
    simp at hv

end Trapping

end Condor.ClassAds
