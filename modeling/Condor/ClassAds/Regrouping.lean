import Mathlib.Data.Fintype.Option
import Condor.ClassAds.Denotation

/-!
# Moving constants to the front

`Flatten` takes the operands of a commutative and associative operator to be interchangeable.
-/

namespace Condor.ClassAds

open Option

namespace Operation

instance : Fintype Truth where
  elems := {.undefined,.error,.other,.value true,.value false}
  complete := by
    intro t
    cases t with
    | value b => cases b <;> decide
    | _ => decide

/-- What `||` (for `d` true) and `&&` (for `d` false) make of two operands. -/
def logicOf (d : Bool) : Truth → Truth → Truth
  | .other, _ => .error
  | _, .other => .error
  | .value b, t => if b = d then .value d else t
  | .error, _ => .error
  | .undefined, .value b => if b = d then .value d else .undefined
  | .undefined, t => t

def logicApply (d : Bool) (x y : Option Truth) : Option Truth :=
  x.bind fun t => if t = .value d then some t else y.map (logicOf d t)

def Truth.isErring : Truth → Bool
  | .error | .other => true
  | _ => false

/-- `c1`, `c2` move to the front of `(c1 ⊙ x1) ⊙ (c2 ⊙ x2)`, and an operand `x1` that decides comes
behind a constant that errs. -/
def logicMoved (d : Bool) (c1 : Truth) (x1 : Option Truth) (c2 : Truth) (x2 : Option Truth) :
    Bool :=
  x1 = some (.value d) && if c1.isErring then x2 = none else c2.isErring

private theorem logic_regroup : ∀ (d : Bool) (c1 : Truth) (x1 : Option Truth) (c2 : Truth)
    (x2 : Option Truth), c1 ≠ .value d → c2 ≠ .value d →
    (logicApply d (logicApply d (some c1) x1) (logicApply d (some c2) x2) =
      logicApply d (some (logicOf d c1 c2)) (logicApply d x1 x2) ↔
      logicMoved d c1 x1 c2 x2 = false) := by
  decide

private theorem logic_swap : ∀ (d : Bool) (x1 : Option Truth) (c2 : Truth), c2 ≠ .value d →
    (logicApply d x1 (some c2) = logicApply d (some c2) x1 ↔
      logicMoved d (.value !d) x1 c2 (some (.value !d)) = false) := by
  decide

private theorem logic_left : ∀ (d : Bool) (c1 : Truth) (x1 : Option Truth) (c2 : Truth),
    c1 ≠ .value d → c2 ≠ .value d →
    (logicApply d (logicApply d (some c1) x1) (some c2) =
      logicApply d (some (logicOf d c1 c2)) x1 ↔
      logicMoved d c1 x1 c2 (some (.value !d)) = false) := by
  decide

private theorem logic_right : ∀ (d : Bool) (c1 c2 : Truth) (x2 : Option Truth),
    c1 ≠ .value d → c2 ≠ .value d →
    (logicApply d (some c1) (logicApply d (some c2) x2) =
      logicApply d (some (logicOf d c1 c2)) x2 ↔
      logicMoved d c1 (some (.value !d)) c2 x2 = false) := by
  decide

private theorem logic_first : ∀ (d : Bool) (c1 : Truth) (x1 x2 : Option Truth), c1 ≠ .value d →
    (logicApply d (logicApply d (some c1) x1) x2 =
      logicApply d (some c1) (logicApply d x1 x2) ↔
      logicMoved d c1 x1 (.value !d) x2 = false) := by
  decide

private theorem logic_second : ∀ (d : Bool) (x1 : Option Truth) (c2 : Truth) (x2 : Option Truth),
    c2 ≠ .value d →
    (logicApply d x1 (logicApply d (some c2) x2) =
      logicApply d (some c2) (logicApply d x1 x2) ↔
      logicMoved d (.value !d) x1 c2 x2 = false) := by
  decide

/-- An operand of `+`, `*`, `|`, `^` or `&`. -/
inductive Kind
  | error | undefined
  | illTyped
  | number (i : Int32)
  deriving DecidableEq

def strictOf (f : Int32 → Int32 → Int32) : Kind → Kind → Kind
  | .error, _ => .error
  | _, .error => .error
  | .undefined, _ => .undefined
  | _, .undefined => .undefined
  | .number i, .number j => .number (f i j)
  | _, _ => .error

def strictApply (f : Int32 → Int32 → Int32) (x y : Option Kind) : Option Kind :=
  x.bind fun k => y.map (strictOf f k)

def clash : Option Kind → Option Kind → Bool
  | some .illTyped, some .illTyped => true
  | some .illTyped, some (.number _) => true
  | some (.number _), some .illTyped => true
  | _, _ => false

/-- `c1`, `c2` move to the front of `(c1 ⊙ x1) ⊙ (c2 ⊙ x2)` without an error, and a pair that
clashes is made or parted. -/
def strictMoved (c1 x1 c2 x2 : Option Kind) : Bool :=
  let operands := [c1,x1,c2,x2]
  operands.all (· ≠ some .error) && operands.any (· = some .undefined) &&
    (clash c1 x1 || clash c2 x2) != (clash c1 c2 || clash x1 x2)

section

variable {f : Int32 → Int32 → Int32} (hcomm : ∀ i j, f i j = f j i)
  (hassoc : ∀ i j k, f (f i j) k = f i (f j k))

include hcomm in
private theorem strict_swap (x1 c2 : Kind) : strictOf f x1 c2 = strictOf f c2 x1 := by
  cases x1 <;> cases c2 <;> simp [strictOf]
  exact hcomm _ _

include hassoc hcomm in
private theorem strict_regroup (c1 x1 c2 x2 : Kind) :
    strictOf f (strictOf f c1 x1) (strictOf f c2 x2) =
      strictOf f (strictOf f c1 c2) (strictOf f x1 x2) ↔
      strictMoved (some c1) (some x1) (some c2) (some x2) = false := by
  have hswap (i j k l : Int32) : f (f i j) (f k l) = f (f i k) (f j l) := by
    rw [hassoc,hassoc,← hassoc j k l,hcomm j k,hassoc]
  cases c1 <;> cases x1 <;> cases c2 <;> cases x2 <;>
    first
    | exact iff_of_true rfl rfl
    | exact iff_of_false (by intro h; cases h) (by intro h; cases h)
    | exact iff_of_true (congrArg Kind.number (hswap _ _ _ _)) rfl

include hassoc hcomm in
private theorem strict_left (c1 x1 c2 : Kind) :
    strictOf f (strictOf f c1 x1) c2 = strictOf f (strictOf f c1 c2) x1 ↔
      strictMoved (some c1) (some x1) (some c2) none = false := by
  have hswap (i j k : Int32) : f (f i j) k = f (f i k) j := by
    rw [hassoc,hassoc,hcomm j k]
  cases c1 <;> cases x1 <;> cases c2 <;>
    first
    | exact iff_of_true rfl rfl
    | exact iff_of_false (by intro h; cases h) (by intro h; cases h)
    | exact iff_of_true (congrArg Kind.number (hswap _ _ _)) rfl

include hassoc in
private theorem strict_right (c1 c2 x2 : Kind) :
    strictOf f c1 (strictOf f c2 x2) = strictOf f (strictOf f c1 c2) x2 ↔
      strictMoved (some c1) none (some c2) (some x2) = false := by
  cases c1 <;> cases c2 <;> cases x2 <;>
    first
    | exact iff_of_true rfl rfl
    | exact iff_of_false (by intro h; cases h) (by intro h; cases h)
    | exact iff_of_true (congrArg Kind.number ((hassoc _ _ _).symm)) rfl

include hassoc in
private theorem strict_first (c1 x1 x2 : Kind) :
    strictOf f (strictOf f c1 x1) x2 = strictOf f c1 (strictOf f x1 x2) ↔
      strictMoved (some c1) (some x1) none (some x2) = false := by
  cases c1 <;> cases x1 <;> cases x2 <;>
    first
    | exact iff_of_true rfl rfl
    | exact iff_of_false (by intro h; cases h) (by intro h; cases h)
    | exact iff_of_true (congrArg Kind.number (hassoc _ _ _)) rfl

include hassoc hcomm in
private theorem strict_second (x1 c2 x2 : Kind) :
    strictOf f x1 (strictOf f c2 x2) = strictOf f c2 (strictOf f x1 x2) ↔
      strictMoved none (some x1) (some c2) (some x2) = false := by
  have hswap (i j k : Int32) : f i (f j k) = f j (f i k) := by
    rw [← hassoc,← hassoc,hcomm i j]
  cases x1 <;> cases c2 <;> cases x2 <;>
    first
    | exact iff_of_true rfl rfl
    | exact iff_of_false (by intro h; cases h) (by intro h; cases h)
    | exact iff_of_true (congrArg Kind.number (hswap _ _ _)) rfl

end

variable {D : Type}

def kind (op : OpKind) : EvalValue D → Kind
  | .error => .error
  | .undefined => .undefined
  | .integer i => .number i
  | .boolean b =>
    match op with
    | .addition | .multiplication => .number (if b then 1 else 0)
    | _ => .illTyped
  | _ => .illTyped

def ofKind : Kind → EvalValue D
  | .undefined => .undefined
  | .number i => .integer i
  | _ => .error

def onNumbers : OpKind → Int32 → Int32 → Int32
  | .addition, i, j => i + j
  | .multiplication, i, j => i * j
  | .bitwiseOr, i, j => i ||| j
  | .bitwiseXor, i, j => i ^^^ j
  | _, i, j => i &&& j

private theorem onNumbers_comm (op : OpKind)
    (i j : Int32) : onNumbers op i j = onNumbers op j i := by
  cases op <;>
    first
    | exact Int32.add_comm _ _
    | exact Int32.mul_comm _ _
    | exact Int32.or_comm _ _
    | exact Int32.xor_comm _ _
    | exact Int32.and_comm _ _

private theorem onNumbers_assoc (op : OpKind) (i j k : Int32) :
    onNumbers op (onNumbers op i j) k = onNumbers op i (onNumbers op j k) := by
  cases op <;>
    first
    | exact Int32.add_assoc _ _ _
    | exact Int32.mul_assoc _ _ _
    | exact Int32.or_assoc _ _ _
    | exact Int32.xor_assoc _ _ _
    | exact Int32.and_assoc _ _ _

def deciding : OpKind → Option Bool
  | .logicalOr => some true
  | .logicalAnd => some false
  | _ => none

private theorem truth_ofTruth (oldSemantics : Bool) [Doubles D] {t : Truth} (h : t ≠ .other) :
    truth oldSemantics (ofTruth t : EvalValue D) = t := by
  cases t with
  | undefined | error | value => rfl
  | other => exact absurd rfl h

private theorem logicOf_ne_other (d : Bool) (t t' : Truth) : logicOf d t t' ≠ .other := by
  revert d t t'
  decide

private theorem kind_ofKind (op : OpKind) {k : Kind} (h : k ≠ .illTyped) :
    kind op (ofKind k : EvalValue D) = k := by
  cases k with
  | illTyped => exact absurd rfl h
  | _ => rfl

private theorem strictOf_ne_illTyped (f : Int32 → Int32 → Int32) (k k' : Kind) :
    strictOf f k k' ≠ .illTyped := by
  cases k <;> cases k' <;> simp [strictOf]

variable [Doubles D]

theorem compute_logical (oldSemantics : Bool) {op : OpKind} {d : Bool} (h : deciding op = some d)
    (v w : EvalValue D) :
    compute oldSemantics op [v,w] =
      ofTruth (logicOf d (truth oldSemantics v) (truth oldSemantics w)) := by
  have hop : op = if d then .logicalOr else .logicalAnd := by
    cases op <;> cases h <;> rfl
  subst hop
  have hcompute : compute oldSemantics (if d then .logicalOr else .logicalAnd) [v,w] =
      doLogical oldSemantics (if d then .logicalOr else .logicalAnd) v w := by
    cases d <;> rfl
  rw [hcompute]
  unfold doLogical
  generalize truth oldSemantics v = t
  generalize truth oldSemantics w = t'
  cases d <;> rcases t with _ | _ | _ | (_ | _) <;> rcases t' with _ | _ | _ | (_ | _) <;> rfl

private theorem compute_strict (oldSemantics : Bool) {op : OpKind} (hop : splits op)
    (hlog : deciding op = none) {v w : EvalValue D} (hv : v.isSimple) (hw : w.isSimple) :
    compute oldSemantics op [v,w] = ofKind (strictOf (onNumbers op) (kind op v) (kind op w)) := by
  cases v with
  | list | classAd => cases hv
  | scalar c =>
    cases w with
    | list | classAd => cases hw
    | scalar d =>
      cases op <;> cases hop <;> cases hlog <;> cases c <;> cases hv <;> cases d <;>
        cases hw <;> rfl

end Operation

namespace Universe

open Operation

variable {D : Type} [Doubles D] {u : Universe D} {op : OpKind}

section

variable {d : Bool} (hd : deciding op = some d)

include hd in
theorem decided_logical (v : EvalValue D) :
    u.decided op v = if truth u.oldSemantics v = .value d then some d else none := by
  have hop : op = if d then .logicalOr else .logicalAnd := by
    cases op <;> cases hd <;> rfl
  subst hop
  unfold decided truth
  cases v.isBooleanValueEquiv u.oldSemantics with
  | none => cases d <;> cases v <;> first | rfl | (rename_i c; cases c <;> rfl)
  | some b => cases d <;> cases b <;> rfl

include hd in
theorem apply_logical (x y : Option (EvalValue D)) :
    u.apply op x y = (logicApply d (x.map (truth u.oldSemantics))
      (y.map (truth u.oldSemantics))).map ofTruth := by
  cases x with
  | none => rfl
  | some v =>
    simp only [apply,logicApply,bind_some,map_some,decided_logical hd]
    by_cases hv : truth u.oldSemantics v = .value d
    · rw [if_pos hv,if_pos hv,hv]
      rfl
    · rw [if_neg hv,if_neg hv]
      cases y with
      | none => rfl
      | some w => simp only [map_some,compute_logical u.oldSemantics hd]

private theorem logicApply_ne_other (x y : Option Truth) : logicApply d x y ≠ some .other := by
  revert d x y
  decide

include hd in
private theorem truth_apply (x y : Option (EvalValue D)) :
    (u.apply op x y).map (truth u.oldSemantics) =
      logicApply d (x.map (truth u.oldSemantics)) (y.map (truth u.oldSemantics)) := by
  rw [apply_logical hd,map_map]
  cases h : logicApply d (x.map (truth u.oldSemantics)) (y.map (truth u.oldSemantics)) with
  | none => rfl
  | some t =>
    have ht : t ≠ .other := by
      rintro rfl
      exact logicApply_ne_other _ _ h
    exact congrArg some (truth_ofTruth u.oldSemantics ht)

include hd in
theorem apply_logical_iff (x y x' y' : Option (EvalValue D)) :
    u.apply op x y = u.apply op x' y' ↔
      logicApply d (x.map (truth u.oldSemantics)) (y.map (truth u.oldSemantics)) =
        logicApply d (x'.map (truth u.oldSemantics)) (y'.map (truth u.oldSemantics)) := by
  constructor
  · intro h
    rw [← truth_apply hd,← truth_apply hd,h]
  · intro h
    rw [apply_logical hd,apply_logical hd,h]

end

def SimpleOr (x : Option (EvalValue D)) : Prop := ∀ v, x = some v → v.isSimple

section

variable (hop : splits op) (hd : deciding op = none)

include hd in
theorem decided_strict (v : EvalValue D) : u.decided op v = none := by
  cases op <;> cases hd <;> rfl

include hop hd in
private theorem apply_strict {x y : Option (EvalValue D)} (hx : SimpleOr x) (hy : SimpleOr y) :
    u.apply op x y =
      (strictApply (onNumbers op) (x.map (kind op)) (y.map (kind op))).map ofKind := by
  cases x with
  | none => rfl
  | some v =>
    cases y with
    | none => simp [apply,decided_strict hd,strictApply]
    | some w =>
      simp only [apply,bind_some,decided_strict hd,strictApply,map_some,
        compute_strict u.oldSemantics hop hd (hx v rfl) (hy w rfl)]

include hop hd in
private theorem kind_apply {x y : Option (EvalValue D)} (hx : SimpleOr x) (hy : SimpleOr y) :
    (u.apply op x y).map (kind op) =
      strictApply (onNumbers op) (x.map (kind op)) (y.map (kind op)) := by
  rw [apply_strict hop hd hx hy,map_map]
  cases x with
  | none => rfl
  | some v =>
    cases y with
    | none => rfl
    | some w => exact congrArg some (kind_ofKind op (strictOf_ne_illTyped _ _ _))

include hop hd in
theorem apply_strict_iff {x y x' y' : Option (EvalValue D)} (hx : SimpleOr x)
    (hy : SimpleOr y)
    (hx' : SimpleOr x') (hy' : SimpleOr y') :
    u.apply op x y = u.apply op x' y' ↔
      strictApply (onNumbers op) (x.map (kind op)) (y.map (kind op)) =
        strictApply (onNumbers op) (x'.map (kind op)) (y'.map (kind op)) := by
  constructor
  · intro h
    rw [← kind_apply hop hd hx hy,← kind_apply hop hd hx' hy',h]
  · intro h
    rw [apply_strict hop hd hx hy,apply_strict hop hd hx' hy',h]

end

variable (u op)

/-- Constants `c1`, `c2` that are moved to the front of `(c1 ⊙ x1) ⊙ (c2 ⊙ x2)` change its value. -/
def Moved (c1 : Option (EvalValue D)) (x1 : Option (Option (EvalValue D)))
    (c2 : Option (EvalValue D)) (x2 : Option (Option (EvalValue D))) : Prop :=
  match deciding op with
  | some d =>
    logicMoved d ((c1.map (truth u.oldSemantics)).getD (.value !d))
      ((x1.map (Option.map (truth u.oldSemantics))).getD (some (.value !d)))
      ((c2.map (truth u.oldSemantics)).getD (.value !d))
      ((x2.map (Option.map (truth u.oldSemantics))).getD (some (.value !d)))
  | none =>
    x1 ≠ some none ∧ x2 ≠ some none ∧
      strictMoved (c1.map (kind op)) (x1.join.map (kind op)) (c2.map (kind op))
        (x2.join.map (kind op))

def Undecided (c : EvalValue D) : Prop :=
  ∀ d, deciding op = some d → truth u.oldSemantics c ≠ .value d

variable {u op}

private theorem simpleOr_apply {x y : Option (EvalValue D)} (hx : SimpleOr x) (hy : SimpleOr y) :
    SimpleOr (u.apply op x y) :=
  fun _ h => isSimple_apply hx hy h

theorem simpleOr_compute {v w : EvalValue D} (hv : v.isSimple) (hw : w.isSimple) :
    SimpleOr (some (compute u.oldSemantics op [v,w])) := by
  intro z hz
  cases hz
  exact isSimple_compute _ _ (by simp [hv,hw])

omit [Doubles D] in
theorem simpleOr_some {v : EvalValue D} (hv : v.isSimple) : SimpleOr (some v) := by
  intro w hw
  cases hw
  exact hv

private theorem kind_compute (hop : splits op) (hd : deciding op = none) {v w : EvalValue D}
    (hv : v.isSimple) (hw : w.isSimple) :
    kind op (compute u.oldSemantics op [v,w]) =
      strictOf (onNumbers op) (kind op v) (kind op w) := by
  rw [compute_strict u.oldSemantics hop hd hv hw]
  exact kind_ofKind op (strictOf_ne_illTyped _ _ _)

theorem truth_compute {d : Bool} (hd : deciding op = some d) (v w : EvalValue D) :
    truth u.oldSemantics (compute u.oldSemantics op [v,w]) =
      logicOf d (truth u.oldSemantics v) (truth u.oldSemantics w) := by
  rw [compute_logical u.oldSemantics hd]
  exact truth_ofTruth u.oldSemantics (logicOf_ne_other d _ _)

section

variable {c1 c2 : EvalValue D} {x1 x2 : Option (EvalValue D)} (hop : splits op)
  (hc1 : c1.isSimple) (hc2 : c2.isSimple) (hx1 : SimpleOr x1) (hx2 : SimpleOr x2)
  (hu1 : u.Undecided op c1) (hu2 : u.Undecided op c2)

include hop hc1 hc2 hx1 hx2 hu1 hu2 in
theorem regroup_iff :
    u.apply op (u.apply op (some c1) x1) (u.apply op (some c2) x2) =
      u.apply op (some (compute u.oldSemantics op [c1,c2])) (u.apply op x1 x2) ↔
      ¬ u.Moved op (some c1) (some x1) (some c2) (some x2) := by
  cases hd : deciding op with
  | some d =>
    rw [apply_logical_iff hd]
    simp only [truth_apply hd,map_some,truth_compute hd]
    rw [logic_regroup d _ _ _ _ (hu1 d hd) (hu2 d hd),← Bool.not_eq_true]
    simp only [Moved,hd,map_some,getD_some]
  | none =>
    have hs1 := simpleOr_some hc1
    have hs2 := simpleOr_some hc2
    rw [apply_strict_iff hop hd (simpleOr_apply hs1 hx1) (simpleOr_apply hs2 hx2)
      (simpleOr_compute hc1 hc2) (simpleOr_apply hx1 hx2)]
    simp only [kind_apply hop hd hs1 hx1,kind_apply hop hd hs2 hx2,kind_apply hop hd hx1 hx2,
      map_some,kind_compute hop hd hc1 hc2]
    cases x1 with
    | none => exact iff_of_true rfl (by simp [Moved,hd])
    | some v1 =>
      cases x2 with
      | none => exact iff_of_true rfl (by simp [Moved,hd])
      | some v2 =>
        simp only [strictApply,map_some,bind_some,Option.some.injEq]
        rw [strict_regroup (onNumbers_comm op) (onNumbers_assoc op),← Bool.not_eq_true]
        simp [Moved,hd]

include hop hx1 hc2 hu2 in
theorem swap_iff :
    u.apply op x1 (some c2) = u.apply op (some c2) x1 ↔
      ¬ u.Moved op none (some x1) (some c2) none := by
  cases hd : deciding op with
  | some d =>
    rw [apply_logical_iff hd,map_some,logic_swap d _ _ (hu2 d hd),← Bool.not_eq_true]
    simp only [Moved,hd,map_some,map_none,getD_some,getD_none]
  | none =>
    have hs2 := simpleOr_some hc2
    rw [apply_strict_iff hop hd hx1 hs2 hs2 hx1]
    cases x1 with
    | none => exact iff_of_true rfl (by simp [Moved,hd])
    | some v1 =>
      refine iff_of_true ?_ ?_
      · simp only [strictApply,map_some,bind_some,Option.some.injEq]
        exact strict_swap (onNumbers_comm op) _ _
      · cases h1 : kind op v1 <;> cases h2 : kind op c2 <;> simp [Moved,hd,h1,h2,strictMoved,clash]

include hop hc1 hx1 hc2 hu1 hu2 in
theorem left_iff :
    u.apply op (u.apply op (some c1) x1) (some c2) =
      u.apply op (some (compute u.oldSemantics op [c1,c2])) x1 ↔
      ¬ u.Moved op (some c1) (some x1) (some c2) none := by
  cases hd : deciding op with
  | some d =>
    rw [apply_logical_iff hd]
    simp only [truth_apply hd,map_some,truth_compute hd]
    rw [logic_left d _ _ _ (hu1 d hd) (hu2 d hd),← Bool.not_eq_true]
    simp only [Moved,hd,map_some,map_none,getD_some,getD_none]
  | none =>
    have hs1 := simpleOr_some hc1
    have hs2 := simpleOr_some hc2
    rw [apply_strict_iff hop hd (simpleOr_apply hs1 hx1) hs2 (simpleOr_compute hc1 hc2) hx1]
    simp only [kind_apply hop hd hs1 hx1,map_some,kind_compute hop hd hc1 hc2]
    cases x1 with
    | none => exact iff_of_true rfl (by simp [Moved,hd])
    | some v1 =>
      simp only [strictApply,map_some,bind_some,Option.some.injEq]
      rw [strict_left (onNumbers_comm op) (onNumbers_assoc op),← Bool.not_eq_true]
      simp [Moved,hd]

include hop hc1 hc2 hx2 hu1 hu2 in
theorem right_iff :
    u.apply op (some c1) (u.apply op (some c2) x2) =
      u.apply op (some (compute u.oldSemantics op [c1,c2])) x2 ↔
      ¬ u.Moved op (some c1) none (some c2) (some x2) := by
  cases hd : deciding op with
  | some d =>
    rw [apply_logical_iff hd]
    simp only [truth_apply hd,map_some,truth_compute hd]
    rw [logic_right d _ _ _ (hu1 d hd) (hu2 d hd),← Bool.not_eq_true]
    simp only [Moved,hd,map_some,map_none,getD_some,getD_none]
  | none =>
    have hs1 := simpleOr_some hc1
    have hs2 := simpleOr_some hc2
    rw [apply_strict_iff hop hd hs1 (simpleOr_apply hs2 hx2) (simpleOr_compute hc1 hc2) hx2]
    simp only [kind_apply hop hd hs2 hx2,map_some,kind_compute hop hd hc1 hc2]
    cases x2 with
    | none => exact iff_of_true rfl (by simp [Moved,hd])
    | some v2 =>
      simp only [strictApply,map_some,bind_some,Option.some.injEq]
      rw [strict_right (onNumbers_assoc op),← Bool.not_eq_true]
      simp [Moved,hd]

include hop hc1 hx1 hx2 hu1 in
theorem first_iff :
    u.apply op (u.apply op (some c1) x1) x2 = u.apply op (some c1) (u.apply op x1 x2) ↔
      ¬ u.Moved op (some c1) (some x1) none (some x2) := by
  cases hd : deciding op with
  | some d =>
    rw [apply_logical_iff hd]
    simp only [truth_apply hd,map_some]
    rw [logic_first d _ _ _ (hu1 d hd),← Bool.not_eq_true]
    simp only [Moved,hd,map_some,map_none,getD_some,getD_none]
  | none =>
    have hs1 := simpleOr_some hc1
    rw [apply_strict_iff hop hd (simpleOr_apply hs1 hx1) hx2 hs1 (simpleOr_apply hx1 hx2)]
    simp only [kind_apply hop hd hs1 hx1,kind_apply hop hd hx1 hx2,map_some]
    cases x1 with
    | none => exact iff_of_true rfl (by simp [Moved,hd])
    | some v1 =>
      cases x2 with
      | none => exact iff_of_true rfl (by simp [Moved,hd])
      | some v2 =>
        simp only [strictApply,map_some,bind_some,Option.some.injEq]
        rw [strict_first (onNumbers_assoc op),← Bool.not_eq_true]
        simp [Moved,hd]

include hop hx1 hc2 hx2 hu2 in
theorem second_iff :
    u.apply op x1 (u.apply op (some c2) x2) = u.apply op (some c2) (u.apply op x1 x2) ↔
      ¬ u.Moved op none (some x1) (some c2) (some x2) := by
  cases hd : deciding op with
  | some d =>
    rw [apply_logical_iff hd]
    simp only [truth_apply hd,map_some]
    rw [logic_second d _ _ _ (hu2 d hd),← Bool.not_eq_true]
    simp only [Moved,hd,map_some,map_none,getD_some,getD_none]
  | none =>
    have hs2 := simpleOr_some hc2
    rw [apply_strict_iff hop hd hx1 (simpleOr_apply hs2 hx2) hs2 (simpleOr_apply hx1 hx2)]
    simp only [kind_apply hop hd hs2 hx2,kind_apply hop hd hx1 hx2,map_some]
    cases x1 with
    | none => exact iff_of_true rfl (by simp [Moved,hd])
    | some v1 =>
      cases x2 with
      | none => exact iff_of_true rfl (by simp [Moved,hd])
      | some v2 =>
        simp only [strictApply,map_some,bind_some,Option.some.injEq]
        rw [strict_second (onNumbers_comm op) (onNumbers_assoc op),← Bool.not_eq_true]
        simp [Moved,hd]

end

end Universe

end Condor.ClassAds
