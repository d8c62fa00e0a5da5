import Condor.ClassAds.Operators

/-!
# The identity operators

What `=?=` and `=!=` are for: to tell whether two values are the same, without ever being undefined
or an error themselves.
-/

namespace Condor.ClassAds

open Option

variable {D : Type} [Doubles D]

namespace EvalValue

def isDiscrete : EvalValue D → Bool
  | .real _ | .relTime _ | .absTime _ _ => false
  | _ => true

end EvalValue

namespace Operation

/-- `=?=` is the equality of the values, and `=!=` its negation. -/
def TellsIdentity (v1 v2 : EvalValue D) : Prop :=
  ∃ b, doComparison .metaEqual v1 v2 = .boolean b ∧
    doComparison .metaNotEqual v1 v2 = .boolean (!b) ∧ (b = true ↔ v1 = v2)

def arePromoted : EvalValue D → EvalValue D → Bool
  | .boolean b, .integer i => i = if b then 1 else 0
  | .integer i, .boolean b => i = if b then 1 else 0
  | _, _ => false

/-- The operators can tell whether the values are the same: they are not two lists, not two ads, and
not a boolean and its number. -/
def AreTold (v1 v2 : EvalValue D) : Prop :=
  ¬(v1.type = .list ∧ v2.type = .list) ∧ ¬(v1.type = .classAd ∧ v2.type = .classAd) ∧
    arePromoted v1 v2 = false

variable {v1 v2 : EvalValue D}

private theorem tellsIdentity_numbers {i j : Int32} (h1 : asInt v1 = some i)
    (h2 : asInt v2 = some j) :
    TellsIdentity v1 v2 ↔ (i = j ↔ v1 = v2) := by
  have hcoerce : coerceToNumber v1 v2 = (.integer,.integer i,.integer j) := by
    unfold asInt at h1 h2
    split at h1
    all_goals first
      | simp at h1; done
      | obtain rfl := some.inj h1
        split at h2
    all_goals first
      | simp at h2; done
      | obtain rfl := some.inj h2
        rfl
  have heq : doComparison .metaEqual v1 v2 = .boolean (i = j) := by
    unfold doComparison
    rw [hcoerce]
    rfl
  have hne : doComparison .metaNotEqual v1 v2 = .boolean (!decide (i = j)) := by
    unfold doComparison
    rw [hcoerce]
    rfl
  unfold TellsIdentity
  rw [heq,hne]
  constructor
  · intro h
    obtain ⟨b,hb,-,hiff⟩ := h
    have hb : decide (i = j) = b := by simpa using hb
    rw [← hiff,← hb,decide_eq_true_iff]
  · intro h
    exact ⟨decide (i = j),rfl,rfl,decide_eq_true_iff.trans h⟩

omit [Doubles D] in
theorem type_of_asInt_none {v : EvalValue D} (hv : v.isDiscrete = true) (ha : asInt v = none) :
    v.type = .classAd ∨ v.type = .list ∨ v.type = .string ∨ v.type = .undefined ∨
      v.type = .error := by
  unfold EvalValue.type
  split
  all_goals first
    | simp [asInt] at ha; done
    | simp [EvalValue.isDiscrete] at hv; done
    | simp

omit [Doubles D] in
theorem asInt_eq_none_of_type (ht : v1.type = v2.type) (h : asInt v2 = none) : asInt v1 = none := by
  have hnone {v : EvalValue D} : asInt v = none ↔ v.type ≠ .boolean ∧ v.type ≠ .integer := by
    unfold EvalValue.type
    split <;> simp [asInt]
  rw [hnone,ht]
  exact hnone.mp h

private theorem coerceToNumber_unchanged (h1 : v1.isDiscrete = true) (h2 : v2.isDiscrete = true)
    (hnum : asInt v1 = none ∨ asInt v2 = none) : ∃ c, coerceToNumber v1 v2 = (c,v1,v2) := by
  have htype : v1.type = .classAd ∨ v2.type = .classAd ∨ v1.type = .list ∨ v2.type = .list ∨
      v1.type = .string ∨ v2.type = .string ∨ v1.type = .undefined ∨ v2.type = .undefined ∨
      v1.type = .error ∨ v2.type = .error := by
    rcases hnum with hnum | hnum
    · have ht := type_of_asInt_none h1 hnum
      tauto
    · have ht := type_of_asInt_none h2 hnum
      tauto
  unfold coerceToNumber
  by_cases hclassAd : v1.type = .classAd ∨ v2.type = .classAd
  · exact ⟨_,if_pos hclassAd⟩
  rw [if_neg hclassAd]
  by_cases hlist : v1.type = .list ∨ v2.type = .list
  · exact ⟨_,if_pos hlist⟩
  rw [if_neg hlist]
  by_cases hstring : v1.type = .string ∨ v2.type = .string
  · exact ⟨_,if_pos hstring⟩
  rw [if_neg hstring]
  by_cases hundefined : v1.type = .undefined ∨ v2.type = .undefined
  · exact ⟨_,if_pos hundefined⟩
  rw [if_neg hundefined]
  rw [not_or] at hclassAd hlist hstring hundefined
  have herror : v1.type = .error ∨ v2.type = .error := by
    simpa [hclassAd,hlist,hstring,hundefined] using htype
  exact ⟨_,if_pos herror⟩

omit [Doubles D] in
theorem arePromoted_eq_false (hnum : asInt v1 = none ∨ asInt v2 = none) :
    arePromoted v1 v2 = false := by
  unfold arePromoted
  split
  · rcases hnum with hnum | hnum <;> simp [asInt] at hnum
  · rcases hnum with hnum | hnum <;> simp [asInt] at hnum
  · rfl

private theorem tellsIdentity_of_type {c : ValueType} (hc : coerceToNumber v1 v2 = (c,v1,v2))
    (ht : v1.type ≠ v2.type) : TellsIdentity v1 v2 := by
  refine ⟨false,?_,?_,by simp,fun he => absurd (congrArg EvalValue.type he) ht⟩
  · unfold doComparison
    rw [hc]
    exact if_pos ht
  · unfold doComparison
    rw [hc]
    exact if_pos ht

private theorem tellsIdentity_of_same_type (h1 : v1.isDiscrete = true) (hnum : asInt v1 = none)
    (ht : v1.type = v2.type) : TellsIdentity v1 v2 ↔ v1.type ≠ .list ∧ v1.type ≠ .classAd := by
  cases v1 with
  | list exprs scope =>
    cases v2 with
    | list exprs' scope' =>
      refine iff_of_false ?_ (fun h => h.1 rfl)
      rintro ⟨b,hb,-⟩
      have herror : doComparison (D := D) .metaEqual (.list exprs scope) (.list exprs' scope') =
        .error := rfl
      rw [herror] at hb
      simp at hb
    | classAd ad => simp [EvalValue.type] at ht
    | scalar t => cases t <;> simp [EvalValue.type] at ht
  | classAd ad =>
    cases v2 with
    | classAd ad' =>
      refine iff_of_false ?_ (fun h => h.2 rfl)
      rintro ⟨b,hb,-⟩
      have herror : doComparison (D := D) .metaEqual (.classAd ad) (.classAd ad') = .error := rfl
      rw [herror] at hb
      simp at hb
    | list exprs scope => simp [EvalValue.type] at ht
    | scalar t => cases t <;> simp [EvalValue.type] at ht
  | scalar s =>
    have hright : (EvalValue.scalar s).type ≠ .list ∧ (EvalValue.scalar s).type ≠ .classAd := by
      cases s <;> simp [EvalValue.type]
    refine iff_of_true ?_ hright
    cases v2 with
    | list exprs scope => exact absurd ht hright.1
    | classAd ad => exact absurd ht hright.2
    | scalar t =>
      cases s with
      | undefined =>
        cases t with
        | undefined => exact ⟨true,rfl,rfl,by simp⟩
        | _ => simp [EvalValue.type] at ht
      | error =>
        cases t with
        | error => exact ⟨true,rfl,rfl,by simp⟩
        | _ => simp [EvalValue.type] at ht
      | string s =>
        cases t with
        | string t => exact ⟨decide (s = t),rfl,rfl,by simp⟩
        | _ => simp [EvalValue.type] at ht
      | boolean | integer => simp [asInt] at hnum
      | real | relTime | absTime => simp [EvalValue.isDiscrete] at h1

omit [Doubles D] in
theorem same_iff_of_numbers {i j : Int32} (h1 : asInt v1 = some i) (h2 : asInt v2 = some j) :
    (i = j ↔ v1 = v2) ↔ AreTold v1 v2 := by
  have hbool (b c : Bool) : ((if b then 1 else 0 : Int32) = if c then 1 else 0) ↔ b = c := by
    cases b <;> cases c <;> decide
  unfold asInt at h1 h2
  split at h1
  · next i =>
    obtain rfl := some.inj h1
    split at h2
    · next j =>
      obtain rfl := some.inj h2
      simp [AreTold,arePromoted,EvalValue.type]
    · next c =>
      obtain rfl := some.inj h2
      simp [AreTold,arePromoted,EvalValue.type]
    · simp at h2
  · next b =>
    obtain rfl := some.inj h1
    split at h2
    · next j =>
      obtain rfl := some.inj h2
      simp [AreTold,arePromoted,EvalValue.type,eq_comm]
    · next c =>
      obtain rfl := some.inj h2
      simp [AreTold,arePromoted,EvalValue.type,hbool]
    · simp at h2
  · simp at h1

/-- The values whose identity the operators tell. -/
theorem tellsIdentity_iff (h1 : v1.isDiscrete = true) (h2 : v2.isDiscrete = true) :
    TellsIdentity v1 v2 ↔ AreTold v1 v2 := by
  by_cases hnum : asInt v1 = none ∨ asInt v2 = none
  · have hpromoted := arePromoted_eq_false hnum
    obtain ⟨c,hc⟩ := coerceToNumber_unchanged h1 h2 hnum
    by_cases ht : v1.type = v2.type
    · have hnone : asInt v1 = none := hnum.elim id (asInt_eq_none_of_type ht)
      rw [tellsIdentity_of_same_type h1 hnone ht,AreTold,← ht,and_self,and_self]
      exact ⟨fun h => ⟨h.1,h.2,hpromoted⟩,fun h => ⟨h.1,h.2.1⟩⟩
    · refine iff_of_true (tellsIdentity_of_type hc ht) ⟨?_,?_,hpromoted⟩
      · exact fun h => ht (h.1.trans h.2.symm)
      · exact fun h => ht (h.1.trans h.2.symm)
  · rw [not_or] at hnum
    obtain ⟨i,hi⟩ := Option.ne_none_iff_exists'.mp hnum.1
    obtain ⟨j,hj⟩ := Option.ne_none_iff_exists'.mp hnum.2
    rw [tellsIdentity_numbers hi hj]
    exact same_iff_of_numbers hi hj

/-- Strings are told apart by case. -/
theorem tellsIdentity_iff_string :
    TellsIdentity (D := Float) (.string ['a']) (.string ['A']) :=
  (tellsIdentity_iff rfl rfl).mpr (by simp [AreTold,EvalValue.type,arePromoted])

/-- A boolean is the same as a number, and a list is not even the same as itself. -/
theorem identity_not_told :
    doComparison (D := Float) .metaEqual (.boolean true) (.integer 1) = .boolean true ∧
    doComparison (D := Float) .metaEqual (.list [] none) (.list [] none) = .error ∧
    doComparison (D := Float) .metaNotEqual (.classAd 0) (.classAd 0) = .error :=
  ⟨rfl,rfl,rfl⟩

end Operation

end Condor.ClassAds
