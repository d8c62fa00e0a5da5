import Condor.ClassAds.ScopeKeeping

/-!
# Flattening and the scope

`FlattenAndInline` gives the state back in all of its calls exactly if every reference that it
replaces by a tree is found in the current ad; evaluation and plain flattening always do.
-/

namespace Condor.ClassAds

open Lib

namespace Stateful

variable {D : Type} {inl : Bool} {s : EvalState} {u : Universe D}
  {newAd : List (Name × Expr D) → AdId} {eval : Expr D → Scoped (Result D)}
  {eval' : Evaluator D} {flat : Expr D → Scoped (Flat D)}

private theorem flattenReference_returns {find : Scoped (Lookup D)}
    (hflat : ∀ e, Steady inl (flat e))
    (self : Expr D) (expr : Option (Expr D × Name)) (hfind : Moves inl find s) :
    Returns inl isOk (flattenReference inl flat self expr find) s fun _ => True := by
  apply Keeps.get
  apply Keeps.bind hfind
  intro r s' hmoved
  have hback {f : Flat D} {P : Flat D × Option Left → EvalState → Prop} (h : P (f,none) s) :
      Keeps inl (do
        setCurAd s.curAd
        return ((f,none) : Flat D × Option Left)) s' P := by
    apply Keeps.setCurAd
    rw [setBack hmoved]
    exact Keeps.pure h
  cases r with
  | fail =>
    obtain ⟨c,rfl⟩ := hmoved
    exact Keeps.get (Keeps.pure ⟨trivial,rfl,fun h => by cases h⟩)
  | error => exact hback ⟨trivial,rfl⟩
  | undefined =>
    dsimp only
    cases (if inl = true then expr else none) with
    | none => exact hback ⟨trivial,rfl⟩
    | some target =>
      apply Keeps.get
      apply Keeps.ite
      · exact fun _ => hback ⟨trivial,rfl⟩
      · intro hd
        apply Keeps.bind (deeper_steady hd (hflat target.1))
        rintro f _ rfl
        apply Keeps.setCurAd
        cases f.folded with
        | tree | fail | value => exact Keeps.pure ⟨trivial,setBack hmoved⟩
  | ok tree =>
    apply Keeps.get
    apply Keeps.ite
    · exact fun _ => hback ⟨trivial,rfl⟩
    · intro hd
      apply Keeps.get
      apply Keeps.bind (deeper_steady hd (hflat tree))
      rintro f _ rfl
      cases f.folded with
      | fail | value => exact hback ⟨trivial,rfl⟩
      | tree t p =>
        apply Keeps.ite
        · intro hinl
          obtain ⟨c,rfl⟩ := hmoved
          exact Keeps.pure ⟨trivial,rfl,fun _ => ⟨hinl,rfl⟩⟩
        · exact fun _ => hback ⟨trivial,rfl⟩

private theorem flattenEach_steady (hflat : ∀ e, Steady inl (flat e)) (es : List (Expr D)) :
    Steady inl (flattenEach flat es) := by
  induction es with
  | nil => exact Steady.pure _
  | cons e es ih =>
    apply Steady.bind (hflat e)
    intro f
    cases f with
    | fail => exact Steady.pure _
    | value | tree => exact Steady.bind ih fun _ => Steady.pure _

private theorem flattenCall_steady (heval : FollowsAll inl eval eval')
    (hflat : ∀ e, Steady inl (flat e)) (name : Name) (args : List (Expr D)) :
    Steady inl (flattenCall u eval flat name args) := by
  unfold flattenCall
  cases u.functions name with
  | none => exact Steady.pure _
  | some f =>
    apply Steady.bind (flattenEach_steady hflat args)
    intro fs s
    cases fs with
    | none => exact Keeps.pure rfl
    | some fs =>
      apply Keeps.ite
      · intro _
        apply Keeps.get
        apply Keeps.bind (runProgram_follows heval args _)
        rintro r _ ⟨rfl,-⟩
        exact Keeps.pure rfl
      · exact fun _ => Keeps.pure rfl

private theorem flattenAd_steady (hflat : ∀ e, Steady inl (flat e)) (ad : AdId) :
    Steady inl (flattenAd u newAd flat ad) := by
  intro s
  apply Keeps.get
  apply Keeps.setCurAd
  apply Keeps.bind (flattenEach_steady hflat _ _)
  rintro fs _ rfl
  apply Keeps.setCurAd
  cases fs with
  | none | some => exact Keeps.pure rfl

private theorem subscriptOwn_steady (heval : FollowsAll inl eval eval') (v w : EvalValue D) :
    Steady inl (match v with
      | .list _ scope => under (u.setScopes scope) (subscript u eval v w)
      | _ => subscript u eval v w) := by
  have hsubscript : Steady inl (subscript u eval v w) :=
    Follows.steady fun _ => subscript_follows heval v w
  cases v with
  | scalar | classAd => exact hsubscript
  | list exprs scope =>
    intro s
    exact Keeps.mono (subscript_follows heval _ w).under fun _ _ ha => ha.1

variable [Doubles D]

private theorem doOperation_steady (op : OpKind) (vs : List (EvalValue D))
    {f : EvalValue D → EvalValue D → Scoped (EvalValue D)} (h : ∀ v w, Steady inl (f v w)) :
    Steady inl (Operation.doOperation u.oldSemantics op vs f) := by
  intro s
  rw [Operation.doOperation_eq]
  apply Keeps.ite
  · exact fun _ => h _ _ s
  · exact fun _ => Keeps.pure rfl

private theorem flattenBinary_steady (heval : FollowsAll inl eval eval')
    (hflat : ∀ e, Steady inl (flat e)) (op : OpKind) (t1 t2 : Expr D) :
    Steady inl (flattenBinary u eval flat op t1 t2) := by
  apply Steady.bind (hflat t1)
  intro f1
  cases f1 with
  | fail => exact Steady.pure _
  | value | tree =>
    apply Steady.bind (hflat t2)
    intro f2
    split
    · apply Steady.bind (doOperation_steady .subscript _ fun v w => subscriptOwn_steady heval v w)
      exact fun _ => Steady.pure _
    · exact Steady.pure _

omit [Doubles D] in
theorem flattenConditional_steady (hflat : ∀ e, Steady inl (flat e)) (op : OpKind)
    (t1 t2 t3 : Expr D) : Steady inl (flattenConditional flat op t1 t2 t3) := by
  have hkeep {g : Flat D → Flat D} : Steady inl (flat t3 >>= fun f3 => pure (g f3)) :=
    Steady.bind (hflat t3) fun _ => Steady.pure _
  have harms {k : Flat D → Scoped (Flat D)} (hfail : Steady inl (k .fail))
      (hvalue : ∀ v, Steady inl (k (.value v))) (htree : ∀ t p, Steady inl (k (.tree t p))) :
      Steady inl (flat t2 >>= k) := by
    apply Steady.bind (hflat t2)
    intro f2
    cases f2 with
    | fail => exact hfail
    | value v => exact hvalue v
    | tree t p => exact htree t p
  apply Steady.bind (hflat t1)
  intro f1
  cases f1 with
  | fail => exact Steady.pure _
  | tree t p => exact harms (Steady.pure _) (fun _ => hkeep) fun _ _ => hkeep
  | value v =>
    cases v with
    | scalar c =>
      cases c with
      | undefined => exact harms (Steady.pure _) (fun _ => hkeep) fun _ _ => hkeep
      | boolean b => exact Steady.bind (hflat _) fun _ => Steady.pure _
      | _ => exact Steady.pure _
    | _ => exact Steady.pure _

private theorem flattenStep_returns (heval : FollowsAll inl eval eval')
    (hflat : ∀ e, Steady inl (flat e)) (e : Expr D) :
    Returns inl isOk (flattenStep u inl newAd eval flat e) s fun _ => True := by
  cases e with
  | literal value factor => exact restoring_steady (Steady.pure _)
  | attrRef attr absolute =>
    exact flattenReference_returns hflat _ none (findAttr_moves attr absolute s)
  | select t attr =>
    exact flattenReference_returns hflat _ (some (t,attr))
      (findSelected_moves heval.steady t attr s)
  | op1 op t => exact restoring_steady (Steady.bind (hflat t) fun _ => Steady.pure _)
  | op2 op t1 t2 => exact restoring_steady (flattenBinary_steady heval hflat op t1 t2)
  | op3 op t1 t2 t3 => exact restoring_steady (flattenConditional_steady hflat op t1 t2 t3)
  | fnCall name args => exact restoring_steady (flattenCall_steady heval hflat name args)
  | exprList exprs scope =>
    apply restoring_steady
    apply Steady.bind (flattenEach_steady hflat exprs)
    intro fs
    cases fs with
    | none | some => exact Steady.pure _
  | classAd ad => exact restoring_steady (flattenAd_steady hflat ad)

private theorem flatten_steady (u : Universe D) (newAd : List (Name × Expr D) → AdId) (n : Nat) :
    ∀ e, Steady inl (flatten u inl newAd n e) := by
  induction n with
  | zero => exact fun _ _ => Keeps.exhausted
  | succ n ih =>
    exact fun e => recorded_steady fun s => flattenStep_returns (evaluate_follows u n) ih e

private theorem enter_steady (u : Universe D) (newAd : List (Name × Expr D) → AdId) (way : Entrance)
    (n : Nat) (e : Expr D) :
    Steady (decide (way = .flattenAndInline)) (enter u newAd way n e) := by
  cases way with
  | evaluate => exact Steady.bind ((evaluate_follows u n).steady e) fun _ => Steady.pure _
  | evaluateSig => exact Steady.bind (evaluateSig_steady u n e) fun _ => Steady.pure _
  | flatten
  | flattenAndInline => exact Steady.bind (flatten_steady u newAd n e) fun _ => Steady.pure _

/-- As long as no reference fails in another ad, all calls that succeed give the state back; with
inlining exactly if every reference replaced is found in the current ad. -/
theorem scope_restored_iff (u : Universe D) (newAd : List (Name × Expr D) → AdId) (way : Entrance)
    (n : Nat) (e : Expr D) (s : EvalState)
    (hfails : ∀ c ∈ (enter u newAd way n e s).seen, c.FailsAtHome) :
    ((∀ c ∈ (enter u newAd way n e s).seen, c.Restored) ↔
      (way = .flattenAndInline → ∀ c ∈ (enter u newAd way n e s).seen, c.InPlace)) ∧
    ((way = .flattenAndInline → ∀ c ∈ (enter u newAd way n e s).seen, c.InPlace) →
      ∀ r, (enter u newAd way n e s).value = some r → r.2 = s) := by
  obtain ⟨hiff,hreturn⟩ := enter_steady u newAd way n e s hfails
  have hway : (∀ c ∈ (enter u newAd way n e s).seen,
      decide (way = .flattenAndInline) = true → c.InPlace) ↔
      (way = .flattenAndInline → ∀ c ∈ (enter u newAd way n e s).seen, c.InPlace) := by
    rw [decide_eq_true_iff]
    exact ⟨fun h hw c hc => h c hc hw,fun h c hc hw => h hw c hc⟩
  exact ⟨hiff.trans hway,fun h => hreturn (hway.mpr h)⟩

/-- The ad `[ a = b + 1; child = [ c = 5 ] ]`, where the inner ad has the number 1. -/
def nestedAd : AdId → AdNode Float
  | 0 => {
      attrs := [("a".toList,.op2 .addition (.attrRef "b".toList false)
        (.literal (.integer 1) .none)),
        ("child".toList,.classAd 1)] }
  | 1 => { attrs := [("c".toList,.literal (.integer 5) .none)], parentScope := some 0 }
  | _ => { attrs := [] }

def nested : Universe Float where
  ad := nestedAd
  parent_lt := by
    intro id p h
    match id with
    | 0 => cases h
    | 1 =>
      cases h
      exact Nat.zero_lt_one
    | _ + 2 => cases h
  newRoot := 2
  functions := fun _ => none
  oldSemantics := false

/-- Behind `a`, which is inlined, the inner ad is not the current one any more, so that `c` is not
found in `a + c`. -/
theorem inlined_leaves_scope :
    (enter nested (fun _ => 2) .flattenAndInline 3 (.attrRef "a".toList false)
      (nested.setScopes (some 1))).value =
        some (true,{ nested.setScopes (some 1) with curAd := some 0 }) ∧
    (nested.setScopes (some 1)).curAd = some 1 ∧
    (flatten nested true (fun _ => 2) 4
      (.op2 .addition (.attrRef "a".toList false) (.attrRef "c".toList false))
      (nested.setScopes (some 1))).value.map Prod.fst =
        some (.tree (.op2 .addition
          (.op2 .addition (.literal (.integer 1) .none) (.attrRef "b".toList false))
          (.attrRef "c".toList false)) none) :=
  ⟨rfl,rfl,rfl⟩

/-- `c` is found in the current ad. -/
theorem scope_restored_iff_value :
    ((∀ c ∈ (enter nested (fun _ => 2) .flattenAndInline 3 (.attrRef "c".toList false)
        (nested.setScopes (some 1))).seen, c.Restored) ↔
      (Entrance.flattenAndInline = .flattenAndInline →
        ∀ c ∈ (enter nested (fun _ => 2) .flattenAndInline 3 (.attrRef "c".toList false)
          (nested.setScopes (some 1))).seen, c.InPlace)) ∧
    ((Entrance.flattenAndInline = .flattenAndInline →
        ∀ c ∈ (enter nested (fun _ => 2) .flattenAndInline 3 (.attrRef "c".toList false)
          (nested.setScopes (some 1))).seen, c.InPlace) →
      ∀ r, (enter nested (fun _ => 2) .flattenAndInline 3 (.attrRef "c".toList false)
        (nested.setScopes (some 1))).value = some r → r.2 = nested.setScopes (some 1)) := by
  apply scope_restored_iff
  have hleft : (enter nested (fun _ => 2) .flattenAndInline 3 (.attrRef "c".toList false)
      (nested.setScopes (some 1))).seen.map Call.left = [none,none] := rfl
  intro c hc l hl
  have hmem := List.mem_map_of_mem (f := Call.left) hc
  rw [hleft,hl] at hmem
  simp at hmem

end Stateful

end Condor.ClassAds
