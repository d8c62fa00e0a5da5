import Condor.ClassAds.Parser

/-!
# Values and operators

What `Operation` computes from the values of its operands. A double is a parameter with the
operations that the code uses, and an `int` has 32 bits.
-/

namespace Condor.ClassAds

/-- The operations of C++ on doubles. -/
class Doubles (D : Type) where
  ofInt : Int → D
  add : D → D → D
  sub : D → D → D
  mul : D → D → D
  div : D → D → D
  neg : D → D
  lt : D → D → Bool
  eq : D → D → Bool
  isHugeVal : D → Bool
  /-- The conversion to an `int`. -/
  truncate : D → Int
  scaleFactor : NumberFactor → D

instance : Doubles Float where
  ofInt := Float.ofInt
  add := Float.add
  sub := Float.sub
  mul := Float.mul
  div := Float.div
  neg := Float.neg
  lt r s := decide (r < s)
  eq r s := r == s
  isHugeVal r := r == 1.0 / 0.0
  truncate r := r.toInt32.toInt
  scaleFactor
    | .none | .b => 1.0
    | .k => 1024.0
    | .m => 1024.0 * 1024.0
    | .g => 1024.0 * 1024.0 * 1024.0
    | .t => 1024.0 * 1024.0 * 1024.0 * 1024.0

abbrev AdId := Nat

inductive Scalar (D : Type)
  | undefined | error
  | boolean (b : Bool)
  | integer (i : Int32)
  | real (r : D)
  | string (s : List Char)
  | absTime (secs offset : Int)
  | relTime (secs : D)

inductive Expr (D : Type)
  | literal (value : Scalar D) (factor : NumberFactor)
  | attrRef (attr : Name) (absolute : Bool)
  | select (expr : Expr D) (attr : Name)
  | op1 (op : OpKind) (t : Expr D)
  | op2 (op : OpKind) (t1 t2 : Expr D)
  | op3 (op : OpKind) (t1 t2 t3 : Expr D)
  | fnCall (name : Name) (args : List (Expr D))
  | exprList (exprs : List (Expr D)) (parentScope : Option AdId)
  | classAd (ad : AdId)

/-- `Value`. -/
inductive EvalValue (D : Type)
  | scalar (s : Scalar D)
  | list (exprs : List (Expr D)) (parentScope : Option AdId)
  | classAd (ad : AdId)

inductive ValueType
  | error | undefined | boolean | integer | real | relativeTime | absoluteTime | string
  | classAd | list
  deriving DecidableEq

namespace EvalValue

variable {D : Type}

@[match_pattern] abbrev undefined : EvalValue D := .scalar .undefined
@[match_pattern] abbrev error : EvalValue D := .scalar .error
@[match_pattern] abbrev boolean (b : Bool) : EvalValue D := .scalar (.boolean b)
@[match_pattern] abbrev integer (i : Int32) : EvalValue D := .scalar (.integer i)
@[match_pattern] abbrev real (r : D) : EvalValue D := .scalar (.real r)
@[match_pattern] abbrev string (s : List Char) : EvalValue D := .scalar (.string s)
@[match_pattern] abbrev absTime (secs offset : Int) : EvalValue D := .scalar (.absTime secs offset)
@[match_pattern] abbrev relTime (secs : D) : EvalValue D := .scalar (.relTime secs)

/-- `GetType`. -/
def type : EvalValue D → ValueType
  | .undefined => .undefined
  | .error => .error
  | .boolean _ => .boolean
  | .integer _ => .integer
  | .real _ => .real
  | .string _ => .string
  | .absTime _ _ => .absoluteTime
  | .relTime _ => .relativeTime
  | .list _ _ => .list
  | .classAd _ => .classAd

/-- `IsBooleanValueEquiv`, with the flag `_useOldClassAdSemantics`. -/
def isBooleanValueEquiv [Doubles D] (oldSemantics : Bool) : EvalValue D → Option Bool
  | .boolean b => some b
  | .integer i => if oldSemantics then some (i ≠ 0) else none
  | .real r => if oldSemantics then some (!Doubles.eq r (Doubles.ofInt 0)) else none
  | _ => none

end EvalValue

namespace Operation

variable {D : Type} [Doubles D]

open Doubles

def isStrictOperator : OpKind → Bool
  | .metaEqual | .metaNotEqual | .logicalAnd | .logicalOr | .ternary => false
  | _ => true

def promoteBoolean : EvalValue D → EvalValue D
  | .boolean b => .integer (if b then 1 else 0)
  | v => v

def asInt : EvalValue D → Option Int32
  | .integer i => some i
  | .boolean b => some (if b then 1 else 0)
  | _ => none

def coerceToNumber (v1 v2 : EvalValue D) : ValueType × EvalValue D × EvalValue D :=
  if v1.type = .classAd ∨ v2.type = .classAd then (.classAd,v1,v2)
  else if v1.type = .list ∨ v2.type = .list then (.list,v1,v2)
  else if v1.type = .string ∨ v2.type = .string then (.string,v1,v2)
  else if v1.type = .undefined ∨ v2.type = .undefined then (.undefined,v1,v2)
  else if v1.type = .error ∨ v2.type = .error then (.error,v1,v2)
  else if v1.type = .absoluteTime ∨ v2.type = .absoluteTime then (.absoluteTime,v1,v2)
  else if v1.type = .relativeTime ∨ v2.type = .relativeTime then (.relativeTime,v1,v2)
  else
    match promoteBoolean v1, promoteBoolean v2 with
    | .integer i, .integer j => (.integer,.integer i,.integer j)
    | .integer i, .real r => (.real,.real (ofInt i.toInt),.real r)
    | .real r, .integer j => (.real,.real r,.real (ofInt j.toInt))
    | v1, v2 => (.real,v1,v2)

def compareBy (op : OpKind) (lt eq gt : Bool) : EvalValue D :=
  match op with
  | .lessThan => .boolean lt
  | .lessOrEqual => .boolean (lt || eq)
  | .equal => .boolean eq
  | .notEqual => .boolean (!eq)
  | .greaterThan => .boolean gt
  | .greaterOrEqual => .boolean (gt || eq)
  -- no other operator gets here
  | _ => .error

/-- `strcmp`, or `strcasecmp` for strings that are not compared exactly. -/
def compareStrings (op : OpKind) (exact : Bool) (s1 s2 : List Char) : EvalValue D :=
  let s1 := if exact then s1 else s1.map Char.toLower
  let s2 := if exact then s2 else s2.map Char.toLower
  compareBy op (s1 < s2) (s1 = s2) (s2 < s1)

/-- The `switch` of `doComparison`, on the coerced operands. -/
def compareCoerced (op : OpKind) (exact : Bool) (coerced : ValueType) (v1 v2 : EvalValue D) :
    EvalValue D :=
  match coerced, v1, v2 with
  | .string, .string s1, .string s2 => compareStrings op exact s1 s2
  | .integer, .integer i, .integer j => compareBy op (i < j) (i = j) (j < i)
  | .real, .real r, .real s => compareBy op (lt r s) (eq r s) (lt s r)
  | .absoluteTime, .absTime s _, .absTime t _ => compareBy op (s < t) (s = t) (t < s)
  | .relativeTime, .relTime s, .relTime t => compareBy op (lt s t) (eq s t) (lt t s)
  | _, _, _ => .error

def doComparison (op : OpKind) (v1 v2 : EvalValue D) : EvalValue D :=
  let (coerced,v1,v2) := coerceToNumber v1 v2
  let exceptional := v1.type = .undefined ∨ v1.type = .error
  match op with
  | .metaEqual =>
    if v1.type ≠ v2.type then .boolean false
    else if exceptional then .boolean true
    else compareCoerced .equal true coerced v1 v2
  | .metaNotEqual =>
    if v1.type ≠ v2.type then .boolean true
    else if exceptional then .boolean false
    else compareCoerced .notEqual true coerced v1 v2
  | op => compareCoerced op false coerced v1 v2

def isArithmetic (v : EvalValue D) : Bool :=
  match v.type with
  | .integer | .real | .absoluteTime | .relativeTime | .boolean => true
  | _ => false

def doIntegerArithmetic (op : OpKind) (i j : Int32) : EvalValue D :=
  match op with
  | .addition => .integer (i + j)
  | .subtraction => .integer (i - j)
  | .multiplication => .integer (i * j)
  | .division => if j ≠ 0 then .integer (i / j) else .error
  | .modulus => if j ≠ 0 then .integer (i % j) else .error
  | _ => .error

/-- `errno` is set for `%` only, and the result is compared with `HUGE_VAL`. -/
def doRealArithmetic (op : OpKind) (r s : D) : EvalValue D :=
  let checked (comp : D) : EvalValue D := if isHugeVal comp then .error else .real comp
  match op with
  | .addition => checked (add r s)
  | .subtraction => checked (sub r s)
  | .multiplication => checked (mul r s)
  | .division => checked (div r s)
  | _ => .error

/-- The last branch reads the real operand as a time and the time as a real, each of which is
left 0. -/
def doTimeArithmetic (op : OpKind) (v1 v2 : EvalValue D) : EvalValue D :=
  match op, v1, v2 with
  | .addition, .absTime s z, .relTime t => .absTime (s + truncate t) z
  | .addition, .relTime s, .absTime t z => .absTime (t + truncate s) z
  | .addition, .relTime s, .relTime t => .relTime (add s t)
  | .subtraction, .absTime s _, .absTime t _ => .relTime (ofInt (s - t))
  | .subtraction, .absTime s z, .relTime t => .absTime (s - truncate t) z
  | .subtraction, .relTime s, .relTime t => .relTime (sub s t)
  | .multiplication, .relTime s, .integer j => .relTime (mul s (ofInt j.toInt))
  | .division, .relTime s, .integer j => .relTime (div s (ofInt j.toInt))
  | .multiplication, .relTime s, .real r => .relTime (mul s r)
  | .division, .relTime s, .real r => .relTime (div s r)
  | .multiplication, .integer i, .relTime t => .relTime (mul (ofInt i.toInt) t)
  | .multiplication, .real _, .relTime _ => .relTime (mul (ofInt 0) (ofInt 0))
  | _, _, _ => .error

def doArithmetic (op : OpKind) (v1 v2 : EvalValue D) : EvalValue D :=
  if !isArithmetic v1 || (op ≠ .unaryMinus && !isArithmetic v2) then .error
  else if op = .unaryMinus then
    match v1 with
    | .integer i => .integer (-i)
    | .real r => .real (neg r)
    | .relTime t => .relTime (neg t)
    -- a boolean is negated, and then overwritten
    | _ => .error
  else
    let (coerced,v1,v2) := coerceToNumber v1 v2
    match coerced, v1, v2 with
    | .integer, .integer i, .integer j => doIntegerArithmetic op i j
    | .real, .real r, .real s => doRealArithmetic op r s
    | .absoluteTime, v1, v2 => doTimeArithmetic op v1 v2
    | .relativeTime, v1, v2 => doTimeArithmetic op v1 v2
    | _, _, _ => .error

inductive Truth
  | undefined | error | other
  | value (b : Bool)
  deriving DecidableEq

def truth (oldSemantics : Bool) (v : EvalValue D) : Truth :=
  match v.isBooleanValueEquiv oldSemantics with
  | some b => .value b
  | none =>
    match v with
    | .undefined => .undefined
    | .error => .error
    | _ => .other

def ofTruth : Truth → EvalValue D
  | .undefined => .undefined
  | .value b => .boolean b
  | _ => .error

/-- The types of both operands are checked before the operator looks at them. -/
def doLogical (oldSemantics : Bool) (op : OpKind) (v1 v2 : EvalValue D) : EvalValue D :=
  match truth oldSemantics v1, truth oldSemantics v2 with
  | .other, _ => .error
  | _, .other => .error
  | t1, t2 =>
    match op with
    | .logicalNot =>
      match t1 with
      | .value b => .boolean (!b)
      | t => ofTruth t
    | .logicalOr =>
      match t1, t2 with
      | .value true, _ => .boolean true
      | .error, _ => .error
      | .value false, t2 => ofTruth t2
      | _, .value true => .boolean true
      | _, .value false => .undefined
      | _, t2 => ofTruth t2
    | .logicalAnd =>
      match t1, t2 with
      | .value false, _ => .boolean false
      | .error, _ => .error
      | .value true, t2 => ofTruth t2
      | _, .value false => .boolean false
      | _, .value true => .undefined
      | _, t2 => ofTruth t2
    | _ => .error

/-- `val = (val >> 1) | signMask`, as often as the operand says. -/
def shiftSigned (i : Int32) : Nat → Int32
  | 0 => i
  | n + 1 => ((shiftSigned i n) >>> 1) ||| Int32.minValue

def doBitwise (op : OpKind) (v1 v2 : EvalValue D) : EvalValue D :=
  match op, v1, v2 with
  | .bitwiseNot, .integer i, _ => .integer (~~~i)
  | .bitwiseOr, .integer i, .integer j => .integer (i ||| j)
  | .bitwiseAnd, .integer i, .integer j => .integer (i &&& j)
  | .bitwiseXor, .integer i, .integer j => .integer (i ^^^ j)
  | .leftShift, .integer i, .integer j => .integer (i <<< j)
  | .rightShift, .integer i, .integer j =>
    if 0 ≤ i then .integer (i >>> j) else .integer (shiftSigned i j.toInt.toNat)
  | .urightShift, .integer i, .integer j =>
    if 0 ≤ i then .integer (i >>> j)
    else .integer (((i >>> 1) &&& Int32.maxValue) >>> (j - 1))
  | _, _, _ => .error

inductive OpClass
  | comparison | arithmetic | logic | bitwise | misc

def opClass : OpKind → OpClass
  | .lessThan | .lessOrEqual | .notEqual | .equal | .greaterOrEqual | .greaterThan
  | .metaEqual | .metaNotEqual => .comparison
  | .unaryPlus | .unaryMinus | .addition | .subtraction | .multiplication | .division
  | .modulus => .arithmetic
  | .logicalNot | .logicalOr | .logicalAnd => .logic
  | .bitwiseNot | .bitwiseOr | .bitwiseXor | .bitwiseAnd | .leftShift | .rightShift
  | .urightShift => .bitwise
  | .parentheses | .subscript | .ternary => .misc

def isUnaryPlusOperand (v : EvalValue D) : Bool :=
  match v.type with
  | .boolean | .string | .list | .classAd | .absoluteTime => false
  | _ => true

def strictResult (vs : List (EvalValue D)) : Option (EvalValue D) :=
  if vs.any fun v => v.type = .error then some .error
  else if vs.any fun v => v.type = .undefined then some .undefined
  else none

/-- `_doOperation` on the values of one, two or three children, of which the missing ones are given
as undefined. -/
def doOperation {m : Type → Type} [Monad m] (oldSemantics : Bool) (op : OpKind)
    (vs : List (EvalValue D)) (subscript : EvalValue D → EvalValue D → m (EvalValue D)) :
    m (EvalValue D) :=
  let v1 := vs.getD 0 .undefined
  let v2 := vs.getD 1 .undefined
  let v3 := vs.getD 2 .undefined
  match op with
  | .parentheses => pure v1
  | .unaryPlus => pure (if isUnaryPlusOperand v1 then v1 else .error)
  | op =>
    match if isStrictOperator op then strictResult vs else none with
    | some v => pure v
    | none =>
      match opClass op with
      | .comparison => pure (doComparison op v1 v2)
      | .arithmetic => pure (doArithmetic op v1 v2)
      | .logic => pure (doLogical oldSemantics op v1 v2)
      | .bitwise => pure (doBitwise op v1 v2)
      | .misc =>
        match op with
        | .ternary =>
          match v1 with
          | .undefined => pure .undefined
          | v1 =>
            match v1.isBooleanValueEquiv oldSemantics with
            | none => pure .error
            | some true => pure v2
            | some false => pure v3
        | _ => subscript v1 v2

theorem doOperation_eq {m : Type → Type} [Monad m] (oldSemantics : Bool) (op : OpKind)
    (vs : List (EvalValue D)) (f : EvalValue D → EvalValue D → m (EvalValue D)) :
    doOperation oldSemantics op vs f =
      if op = .subscript ∧ (strictResult vs).isNone then
        f (vs.getD 0 .undefined) (vs.getD 1 .undefined)
      else pure (Id.run (doOperation oldSemantics op vs fun _ _ => pure .undefined)) := by
  cases op with
  | parentheses | unaryPlus => rfl
  | ternary =>
    simp only [doOperation,isStrictOperator,opClass]
    simp
    split
    · rfl
    · split <;> rfl
  | _ => cases hs : strictResult vs <;> simp [doOperation,isStrictOperator,opClass,hs]

end Operation

end Condor.ClassAds
