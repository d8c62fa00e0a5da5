import Condor.ClassAds.Stateful

/-!
# The state is given back

Whether the calls give the state back is read off their record: they all do exactly if no attribute
reference puts a tree in its place that was found in another ad.
-/

namespace Condor.ClassAds

open Lib

namespace Call

/-- A call that succeeds leaves the current ad and the depth as they were. -/
def Restored (c : Call) : Prop :=
  c.ok = true → c.exit.curAd = c.entry.curAd ∧ c.exit.depthRemaining = c.entry.depthRemaining

/-- A tree that is put in place of a reference was found in the current ad. -/
def InPlace (c : Call) : Prop :=
  ∀ l, c.left = some l → l.how = .inlined → l.found = c.entry.curAd

/-- A reference that fails without setting the ad back ended in the current ad. -/
def FailsAtHome (c : Call) : Prop :=
  ∀ l, c.left = some l → l.how ≠ .inlined → l.found = c.entry.curAd

end Call

namespace Stateful

variable {D α β : Type} {inl : Bool} {s : EvalState}

/-- The record accounts for the state, and then the computation ends with `Q`. -/
def Keeps (inl : Bool) (x : Scoped α) (s : EvalState) (Q : α → EvalState → Prop) : Prop :=
  Watch.Accounts Call.FailsAtHome Call.Restored (fun c => inl = true → c.InPlace) (x s) fun r =>
    Q r.1 r.2

variable {x : Scoped α} {P Q : α → EvalState → Prop}

theorem Keeps.pure {a : α} (h : Q a s) : Keeps inl (pure a) s Q := Watch.Accounts.pure h

theorem Keeps.mono (hx : Keeps inl x s P) (h : ∀ a s', P a s' → Q a s') : Keeps inl x s Q :=
  Watch.Accounts.mono hx fun r hr => h r.1 r.2 hr

variable {f : α → Scoped β} {R : β → EvalState → Prop}

theorem Keeps.bind (hx : Keeps inl x s P)
    (hf : ∀ a s', P a s' → Keeps inl (f a) s' R) : Keeps inl (x >>= f) s R :=
  Watch.Accounts.bind hx fun r hr => hf r.1 r.2 hr

theorem Keeps.get {f : EvalState → Scoped β} (h : Keeps inl (f s) s R) :
    Keeps inl (get >>= f) s R := h

theorem Keeps.modify {g : EvalState → EvalState} {f : PUnit → Scoped β}
    (h : Keeps inl (f ⟨⟩) (g s) R) : Keeps inl (modify g >>= f) s R := h

theorem Keeps.setCurAd {c : Option AdId} {f : Unit → Scoped β}
    (h : Keeps inl (f ()) { s with curAd := c } R) : Keeps inl (Stateful.setCurAd c >>= f) s R :=
  Keeps.modify h

theorem Keeps.exhausted : Keeps inl (StateT.lift Watch.exhausted : Scoped α) s Q :=
  Watch.Accounts.bind (P := fun _ => False) Watch.Accounts.exhausted fun _ h => h.elim

theorem Keeps.ite {c : Prop} [Decidable c] {y : Scoped α} (hx : c → Keeps inl x s Q)
    (hy : ¬ c → Keeps inl y s Q) : Keeps inl (if c then x else y) s Q := by
  split
  · exact hx ‹_›
  · exact hy ‹_›

def Steady (inl : Bool) (x : Scoped α) : Prop := ∀ s, Keeps inl x s fun _ s' => s' = s

theorem Steady.bind (hx : Steady inl x) (hf : ∀ a, Steady inl (f a)) :
    Steady inl (x >>= f) := by
  intro s
  apply Keeps.bind (hx s)
  rintro a _ rfl
  exact hf a _

theorem Steady.pure (a : α) : Steady inl (pure a) := fun _ => Keeps.pure rfl

variable {R : α → Prop}

private theorem deeper_keeps (hd : s.depthRemaining ≠ 0)
    (h : Keeps inl x { s with depthRemaining := s.depthRemaining - 1 } fun a s' =>
      s' = { s with depthRemaining := s.depthRemaining - 1 } ∧ R a) :
    Keeps inl (deeper x) s fun a s' => s' = s ∧ R a := by
  apply Keeps.modify
  apply Keeps.bind h
  rintro a _ ⟨rfl,ha⟩
  apply Keeps.modify
  refine Keeps.pure ⟨?_,ha⟩
  have hdepth : s.depthRemaining - 1 + 1 = s.depthRemaining := by omega
  simp only [hdepth]

private theorem under_keeps {s1 : EvalState} (h : Keeps inl x s1 fun a _ => R a) :
    Keeps inl (under s1 x) s fun a s' => s' = s ∧ R a :=
  Watch.Accounts.bind h fun _ ha => Watch.Accounts.pure ⟨rfl,ha⟩

def Returns (inl : Bool) (ok : α → Bool) (x : Scoped (α × Option Left)) (s : EvalState)
    (R : α → Prop) : Prop :=
  Keeps inl x s fun r s' => R r.1 ∧
    match r.2 with
    | none => s' = s
    | some l => s' = { s with curAd := l.found } ∧ (l.how = .inlined → inl = true ∧ ok r.1 = true)

variable {ok : α → Bool}

private theorem restoring_returns
    (h : Keeps inl x s fun a s' => s' = s ∧ R a) : Returns inl ok (restoring x) s R :=
  Keeps.bind h fun _ _ ha => Keeps.pure ⟨ha.2,ha.1⟩

variable {s' : EvalState}

private theorem note_accounts {a : α} {left : Option Left} (h : match left with
      | none => s' = s
      | some l =>
        s' = { s with curAd := l.found } ∧ (l.how = .inlined → inl = true ∧ ok a = true)) :
    Watch.Accounts Call.FailsAtHome Call.Restored (fun c => inl = true → c.InPlace)
      (Watch.note ⟨s,s',ok a,left⟩) fun _ => s' = s := by
  cases left with
  | none =>
    subst h
    refine Watch.Accounts.mono (Watch.Accounts.note fun _ => ?_) fun _ _ => rfl
    constructor
    · rintro - - _ hl
      cases hl
    · intro _ _
      exact ⟨rfl,rfl⟩
  | some l =>
    obtain ⟨rfl,hok⟩ := h
    have hhome (hf : l.found = s.curAd) : ({ s with curAd := l.found } : EvalState) = s := by
      rw [hf]
    refine Watch.Accounts.mono (Watch.Accounts.note fun hfails => ?_) ?_
    · by_cases hhow : l.how = .inlined
      · obtain ⟨hinl,ha⟩ := hok hhow
        constructor
        · rintro hrestored - _ hl -
          cases hl
          exact (hrestored ha).1
        · intro hplace _
          exact ⟨hplace hinl l rfl hhow,rfl⟩
      · constructor
        · rintro - - _ hl hinlined
          cases hl
          exact absurd hinlined hhow
        · intro _ _
          exact ⟨hfails l rfl hhow,rfl⟩
    · rintro _ ⟨hfails,hplace⟩
      apply hhome
      by_cases hhow : l.how = .inlined
      · exact hplace (hok hhow).1 l rfl hhow
      · exact hfails l rfl hhow

private theorem recorded_keeps {y : Scoped (α × Option Left)}
    (h : Returns inl ok y s R) : Keeps inl (recorded ok y) s fun a s' => s' = s ∧ R a := by
  apply Keeps.get
  apply Keeps.bind h
  rintro ⟨a,left⟩ s' ⟨ha,hleft⟩
  apply Keeps.get
  apply Keeps.bind (P := fun _ t => t = s)
  · exact Watch.Accounts.bind (note_accounts hleft) fun _ hs => Watch.Accounts.pure hs
  · rintro _ _ rfl
    exact Keeps.pure ⟨rfl,ha⟩

/-- The state in which a lookup ends differs in its ad only, and what is found is what the other
lookup finds. -/
def FoundAs (s : EvalState) (found : Heap.Found D) (r : Lookup D) (s' : EvalState) : Prop :=
  (∃ c, s' = { s with curAd := c }) ∧
    match found with
    | .fail => r = .fail
    | .undefined => r = .undefined
    | .ok e ad => r = .ok e ∧ s' = { s with curAd := some ad }

theorem FoundAs.moved {found : Heap.Found D} {r : Lookup D} {c : Option AdId}
    (h : FoundAs { s with curAd := c } found r s') : FoundAs s found r s' := by
  obtain ⟨⟨c',rfl⟩,hfound⟩ := h
  exact ⟨⟨c',rfl⟩,hfound⟩

variable {u : Universe D}

private theorem lookupFrom_keeps (name : Name) (n : Nat) (id : AdId) (s : EvalState) :
    Keeps inl (lookupFrom u name n id) s (FoundAs s (u.lookupFrom s.rootAd name n id)) := by
  induction n generalizing id s with
  | zero => exact Keeps.pure ⟨⟨s.curAd,rfl⟩,rfl⟩
  | succ n ih =>
    apply Keeps.setCurAd
    rw [Heap.lookupFrom.eq_def]
    dsimp only
    cases (u.ad id).lookup name with
    | some e => exact Keeps.pure ⟨⟨_,rfl⟩,rfl,rfl⟩
    | none =>
      dsimp only
      apply Keeps.ite
      · intro htop
        apply Keeps.get
        rw [if_pos htop]
        cases hroot : s.rootAd with
        | none => exact Keeps.pure ⟨⟨some id,by rw [hroot]⟩,rfl⟩
        | some root => exact Keeps.pure ⟨⟨some id,by rw [hroot]⟩,rfl,by rw [hroot]⟩
      · intro htop
        rw [if_neg htop]
        apply Keeps.ite
        · intro hself
          rw [if_pos hself]
          exact Keeps.pure ⟨⟨_,rfl⟩,rfl,rfl⟩
        · intro hself
          rw [if_neg hself]
          cases (u.ad id).parentScope with
          | none => exact Keeps.pure ⟨⟨_,rfl⟩,rfl⟩
          | some p =>
            dsimp only
            apply Keeps.ite
            · intro hparent
              rw [if_pos hparent]
              exact Keeps.pure ⟨⟨_,rfl⟩,rfl,rfl⟩
            · intro hparent
              rw [if_neg hparent]
              exact Keeps.mono (ih p _) fun r s' h => h.moved

private theorem lookupInScope_keeps (id : AdId) (name : Name) (s : EvalState) :
    Keeps inl (lookupInScope u id name) s (FoundAs s (u.lookupInScope s.rootAd id name)) :=
  lookupFrom_keeps name (id + 1) id s

private theorem findAttr_keeps (attr : Name) (absolute : Bool) (s : EvalState) :
    Keeps inl (findAttr u attr absolute) s (FoundAs s (u.findAttr s attr absolute)) := by
  apply Keeps.get
  unfold Universe.findAttr
  cases (if absolute = true then s.rootAd else s.curAd) with
  | none => exact Keeps.pure ⟨⟨s.curAd,rfl⟩,rfl⟩
  | some ad =>
    dsimp only
    apply Keeps.bind (lookupInScope_keeps ad attr s)
    intro r s' hfound
    cases hf : u.lookupInScope s.rootAd ad attr with
    | fail =>
      rw [hf] at hfound
      obtain ⟨hmoved,rfl⟩ := hfound
      exact Keeps.pure ⟨hmoved,rfl⟩
    | ok e ad' =>
      rw [hf] at hfound
      obtain ⟨hmoved,rfl,hs⟩ := hfound
      exact Keeps.pure ⟨hmoved,rfl,hs⟩
    | undefined =>
      rw [hf] at hfound
      obtain ⟨⟨c,rfl⟩,rfl⟩ := hfound
      dsimp only
      cases (u.ad ad).alternateScope with
      | none => exact Keeps.pure ⟨⟨c,rfl⟩,rfl⟩
      | some alternate =>
        exact Keeps.mono (lookupInScope_keeps alternate attr _) fun r s' h => h.moved

def Follows (inl : Bool) (x : Scoped α) (s : EvalState) (w : Watch (Expr D) α) : Prop :=
  Keeps inl x s fun a s' => s' = s ∧ w.value = some a

theorem Follows.pure (a : α) : Follows inl (pure a) s (Pure.pure a : Watch (Expr D) α) :=
  Keeps.pure ⟨rfl,rfl⟩

variable {w : Watch (Expr D) α}

theorem Follows.bind {g : α → Watch (Expr D) β}
    (h : Follows inl x s w) (hf : ∀ a, Follows inl (f a) s (g a)) :
    Follows inl (x >>= f) s (w >>= g) := by
  apply Keeps.bind h
  rintro a _ ⟨rfl,ha⟩
  apply Keeps.mono (hf a)
  rintro b _ ⟨rfl,hb⟩
  exact ⟨rfl,(Watch.value_bind_of_some ha).trans hb⟩

theorem Follows.escape {e : Expr D} (h : Follows inl x s w) :
    Follows inl x s (escape e w) := by
  apply Keeps.mono h
  rintro a _ ⟨rfl,ha⟩
  exact ⟨rfl,(Watch.value_bind_of_some (a := ()) rfl).trans ha⟩

theorem Follows.under {s1 : EvalState} (h : Follows inl x s1 w) :
    Follows inl (Stateful.under s1 x) s w :=
  under_keeps (Keeps.mono h fun _ _ ha => ha.2)

theorem Follows.steady {w : EvalState → Watch (Expr D) α} (h : ∀ s, Follows inl x s (w s)) :
    Steady inl x := fun s => Keeps.mono (h s) fun _ _ ha => ha.1

def FollowsAll (inl : Bool) (eval : Expr D → Scoped (Result D)) (eval' : Evaluator D) : Prop :=
  ∀ s e, Follows inl (eval e) s (eval' s e)

variable {eval self : Expr D → Scoped (Result D)} {eval' self' : Evaluator D}

def evaluateLookup (eval' : Evaluator D) (s : EvalState) : Lookup D → Watch (Expr D) (Result D)
  | .fail => failWith .undefined
  | .undefined => succeed .undefined
  | .error => succeed .error
  | .ok e => deepen eval' s e

/-- The lookup ends in a state that differs in its ad, from where the rest is the other
evaluation. -/
def Finds (inl : Bool) (eval' : Evaluator D) (find : Scoped (Lookup D)) (s : EvalState)
    (w : Watch (Expr D) (Result D)) : Prop :=
  Keeps inl find s fun r s' =>
    (∃ c, s' = { s with curAd := c }) ∧ w.value = (evaluateLookup eval' s' r).value

theorem FoundAs.value {found : Heap.Found D} {r : Lookup D} (h : FoundAs s found r s') :
    (Universe.evaluateFound eval' s found).value = (evaluateLookup eval' s' r).value := by
  obtain ⟨-,hfound⟩ := h
  cases found with
  | fail | undefined =>
    subst hfound
    rfl
  | ok e ad =>
    obtain ⟨rfl,rfl⟩ := hfound
    rfl

private theorem findAttr_finds (attr : Name) (absolute : Bool) (s : EvalState) :
    Finds inl eval' (findAttr u attr absolute) s
      (Universe.evaluateFound eval' s (u.findAttr s attr absolute)) :=
  Keeps.mono (findAttr_keeps attr absolute s) fun _ _ h => ⟨h.1,h.value⟩

private theorem selectEach_follows (hself : FollowsAll inl self self') (attr : Name)
    (es : List (Expr D)) :
    Follows inl (selectEach u self s.curAd attr es) s (u.selectEach self' s attr es) := by
  induction es with
  | nil => exact Follows.pure _
  | cons e es ih =>
    apply Follows.bind (hself _ _).under.escape
    intro r
    apply Keeps.ite
    · intro hr
      rw [if_pos hr]
      exact Follows.bind ih fun _ => Follows.pure _
    · intro hr
      rw [if_neg hr]
      exact Follows.pure _

private theorem selectFrom_finds (eval' : Evaluator D) (hself : FollowsAll inl self self')
    (attr : Name)
    (v : EvalValue D) (s : EvalState) :
    Finds inl eval' (match v with
      | .undefined => return .undefined
      | .classAd ad => lookupInScope u ad attr
      | .list exprs _ => do
        let s ← get
        match ← selectEach u self s.curAd attr exprs with
        | none => return .fail
        | some made => return .ok (.exprList made (some u.newRoot))
      | _ => return .error) s (u.selectFrom self' eval' s attr v) := by
  cases v with
  | scalar c =>
    cases c with
    | _ => exact Keeps.pure ⟨⟨s.curAd,rfl⟩,rfl⟩
  | classAd ad => exact Keeps.mono (lookupInScope_keeps ad attr s) fun _ _ h => ⟨h.1,h.value⟩
  | list exprs scope =>
    apply Keeps.get
    apply Keeps.bind (selectEach_follows hself attr exprs)
    rintro made _ ⟨rfl,hmade⟩
    have hvalue : (u.selectFrom self' eval' _ attr (.list exprs scope)).value = _ :=
      Watch.value_bind_of_some hmade
    cases made with
    | none | some => exact Keeps.pure ⟨⟨_,rfl⟩,hvalue⟩

private theorem findSelected_finds (eval' : Evaluator D) (hself : FollowsAll inl self self')
    (e : Expr D)
    (attr : Name) (s : EvalState) :
    Finds inl eval' (findSelected u self e attr) s (u.select self' eval' s e attr) := by
  apply Keeps.bind (hself s e)
  rintro r _ ⟨rfl,hr⟩
  have hvalue : (u.select self' eval' _ e attr).value = _ := Watch.value_bind_of_some hr
  apply Keeps.ite
  · intro hok
    apply Keeps.mono (selectFrom_finds eval' hself attr r.2 _)
    rintro found s' ⟨hmoved,hfound⟩
    rw [hvalue,if_pos hok]
    exact ⟨hmoved,hfound⟩
  · intro hok
    rw [hvalue,if_neg hok]
    exact Keeps.pure ⟨⟨_,rfl⟩,rfl⟩

private theorem deeper_follows (heval : FollowsAll inl eval eval') (hd : s.depthRemaining ≠ 0)
    (e : Expr D) : Follows inl (deeper (eval e)) s (deepen eval' s e) := by
  rw [deepen,if_neg hd]
  exact deeper_keeps hd (heval _ e)

theorem setBack (h : ∃ c, s' = { s with curAd := c }) :
    ({ s' with curAd := s.curAd } : EvalState) = s := by
  obtain ⟨c,rfl⟩ := h
  rfl

variable {find : Scoped (Lookup D)}

private theorem evaluateReference_returns {w : Watch (Expr D) (Result D)}
    (heval : FollowsAll inl eval eval') (hfind : Finds inl eval' find s w) :
    Returns inl Prod.fst (evaluateReference eval find) s fun r => w.value = some r := by
  apply Keeps.get
  apply Keeps.bind hfind
  rintro r s' ⟨hmoved,hw⟩
  rw [hw]
  cases r with
  | fail =>
    obtain ⟨c,rfl⟩ := hmoved
    exact Keeps.get (Keeps.pure ⟨rfl,rfl,fun h => by cases h⟩)
  | undefined | error => exact Keeps.setCurAd (Keeps.pure ⟨rfl,setBack hmoved⟩)
  | ok e =>
    apply Keeps.get
    apply Keeps.ite
    · intro hd
      refine Keeps.setCurAd (Keeps.pure ⟨?_,setBack hmoved⟩)
      rw [evaluateLookup,deepen,if_pos hd]
      rfl
    · intro hd
      apply Keeps.bind (deeper_follows heval hd e)
      rintro r _ ⟨rfl,hr⟩
      exact Keeps.setCurAd (Keeps.pure ⟨hr,setBack hmoved⟩)

private theorem getValue_follows (heval : FollowsAll inl eval eval') (scope : Option AdId)
    (e : Expr D) :
    Follows inl (getValue eval scope e) s (do
      let r ← deepen eval' { s with curAd := scope } e
      return r.2) := by
  apply Keeps.get
  apply Keeps.ite
  · intro hd
    refine Keeps.pure ⟨rfl,?_⟩
    rw [deepen,if_pos hd]
    rfl
  · intro hd
    rw [deepen,if_neg hd]
    apply Follows.bind
    · apply deeper_keeps hd
      apply Keeps.get
      apply Keeps.setCurAd
      apply Keeps.bind (heval _ e)
      rintro r _ ⟨rfl,hr⟩
      exact Keeps.setCurAd (Keeps.pure ⟨rfl,hr⟩)
    · exact fun r => Follows.pure _

theorem subscript_follows (heval : FollowsAll inl eval eval') (v w : EvalValue D) :
    Follows inl (subscript u eval v w) s (u.subscript eval' s v w) := by
  unfold subscript Universe.subscript
  cases v with
  | scalar c => exact Follows.pure _
  | classAd ad =>
    cases w with
    | scalar c =>
      cases c with
      | string index =>
        dsimp only
        cases (u.ad ad).lookup index with
        | none => exact Follows.pure _
        | some e => exact Follows.bind (heval _ e).under.escape fun _ => Follows.pure _
      | _ => exact Follows.pure _
    | _ => exact Follows.pure _
  | list exprs scope =>
    cases w with
    | scalar c =>
      cases c with
      | integer i =>
        dsimp only
        cases (if i < 0 then none else exprs[i.toInt.toNat]?) with
        | none => exact Follows.pure _
        | some e => exact getValue_follows heval scope e
      | _ => exact Follows.pure _
    | _ => exact Follows.pure _

private theorem operands_follows (hself : FollowsAll inl self self') (ts : List (Expr D)) :
    Follows inl (operands self ts) s (Universe.operands self' s ts) := by
  induction ts with
  | nil => exact Follows.pure _
  | cons t ts ih =>
    apply Follows.bind (hself s t)
    intro r
    apply Keeps.ite
    · intro hr
      rw [if_pos hr]
      exact Follows.bind ih fun _ => Follows.pure _
    · intro hr
      rw [if_neg hr]
      exact Follows.pure _

theorem runProgram_follows (heval : FollowsAll inl eval eval') (args : List (Expr D))
    (p : Program D) : Follows inl (runProgram u eval args p) s (u.run eval' s args p) := by
  induction p with
  | answer ok v => exact Follows.pure _
  | argument i next ih =>
    unfold runProgram Universe.run
    cases args[i]? with
    | none => exact ih _
    | some e => exact Follows.bind (heval s e) ih
  | evaluate e next ih => exact Follows.bind (heval s e).escape ih
  | evaluateIn scope e next ih => exact Follows.bind (heval _ e).under.escape ih

private theorem call_follows (heval : FollowsAll inl eval eval') (name : Name)
    (args : List (Expr D)) :
    Follows inl (call u eval name args) s (u.call eval' s name args) := by
  unfold call Universe.call
  cases u.functions name with
  | none => exact Follows.pure _
  | some f => exact Keeps.get (runProgram_follows heval args _)

def valuesOf (eval : Expr D → Scoped (Result D)) : Evaluator D :=
  fun s e => ⟨(eval e s).value.map Prod.fst,[]⟩

private theorem Steady.followsAll (h : ∀ e, Steady inl (self e)) : FollowsAll inl self
    (valuesOf self) := by
  intro s e hfails
  obtain ⟨hiff,hreturn⟩ := h e s hfails
  refine ⟨hiff,?_⟩
  intro hplace r hr
  refine ⟨hreturn hplace r hr,?_⟩
  rw [valuesOf,hr]
  rfl

theorem FollowsAll.steady (h : FollowsAll inl self self') (e : Expr D) : Steady inl (self e) :=
  Follows.steady fun s => h s e

def Moves (inl : Bool) (find : Scoped (Lookup D)) (s : EvalState) : Prop :=
  Keeps inl find s fun _ s' => ∃ c, s' = { s with curAd := c }

theorem Finds.moves {w : Watch (Expr D) (Result D)}
    (h : Finds inl eval' find s w) : Moves inl find s := Keeps.mono h fun _ _ hr => hr.1

theorem findAttr_moves (attr : Name) (absolute : Bool) (s : EvalState) :
    Moves inl (findAttr u attr absolute) s :=
  Keeps.mono (findAttr_keeps attr absolute s) fun _ _ h => h.1

theorem findSelected_moves (h : ∀ e, Steady inl (self e)) (e : Expr D) (attr : Name)
    (s : EvalState) : Moves inl (findSelected u self e attr) s :=
  (findSelected_finds (valuesOf self) (Steady.followsAll h) e attr s).moves

theorem deeper_steady {y : Scoped α} (hd : s.depthRemaining ≠ 0) (h : Steady inl y) :
    Keeps inl (deeper y) s fun _ s' => s' = s :=
  Keeps.mono (deeper_keeps (R := fun _ => True) hd (Keeps.mono (h _) fun _ _ ha => ⟨ha,trivial⟩))
    fun _ _ ha => ha.1

theorem restoring_steady {y : Scoped α} (h : Steady inl y) :
    Returns inl ok (restoring y) s fun _ => True :=
  restoring_returns (Keeps.mono (h s) fun _ _ ha => ⟨ha,trivial⟩)

theorem recorded_steady {y : Scoped (α × Option Left)}
    (h : ∀ s, Returns inl ok y s fun _ => True) : Steady inl (recorded ok y) :=
  fun s => Keeps.mono (recorded_keeps (h s)) fun _ _ ha => ha.1

private theorem evaluateReferenceSig_returns (heval : ∀ e, Steady inl (eval e))
    (hfind : Moves inl find s) :
    Returns inl Prod.fst (evaluateReferenceSig eval find) s fun _ => True := by
  apply Keeps.get
  apply Keeps.bind hfind
  intro r s' hmoved
  cases r with
  | fail =>
    obtain ⟨c,rfl⟩ := hmoved
    exact Keeps.get (Keeps.pure ⟨trivial,rfl,fun h => by cases h⟩)
  | undefined | error => exact Keeps.setCurAd (Keeps.pure ⟨trivial,setBack hmoved⟩)
  | ok e =>
    apply Keeps.get
    apply Keeps.ite
    · intro _
      exact Keeps.setCurAd (Keeps.pure ⟨trivial,setBack hmoved⟩)
    · intro hd
      apply Keeps.get
      apply Keeps.bind (deeper_steady hd (heval e))
      rintro r _ rfl
      apply Keeps.ite
      · intro _
        exact Keeps.setCurAd (Keeps.pure ⟨trivial,setBack hmoved⟩)
      · intro _
        obtain ⟨c,rfl⟩ := hmoved
        exact Keeps.pure ⟨trivial,rfl,fun h => by cases h⟩

private theorem signArguments_steady (h : ∀ e, Steady inl (self e)) (ok : Bool)
    (args : List (Expr D)) :
    Steady inl (signArguments self ok args) := by
  induction args generalizing ok with
  | nil => exact Steady.pure _
  | cons e es ih => exact Steady.bind (h e) fun r => ih r.1

variable [Doubles D]

private theorem doOperation_follows (op : OpKind) (vs : List (EvalValue D))
    {f : EvalValue D → EvalValue D → Scoped (EvalValue D)}
    {g : EvalValue D → EvalValue D → Watch (Expr D) (EvalValue D)}
    (h : ∀ v w, Follows inl (f v w) s (g v w)) :
    Follows inl (Operation.doOperation u.oldSemantics op vs f) s
      (Operation.doOperation u.oldSemantics op vs g) := by
  rw [Operation.doOperation_eq,Operation.doOperation_eq (f := g)]
  apply Keeps.ite
  · intro hop
    rw [if_pos hop]
    exact h _ _
  · intro hop
    rw [if_neg hop]
    exact Follows.pure _

private theorem operate_follows (hself : FollowsAll inl self self')
    (heval : FollowsAll inl eval eval')
    (op : OpKind) (vs : List (EvalValue D)) (ts : List (Expr D)) :
    Follows inl (operate u self eval op vs ts) s (u.operate self' eval' s op vs ts) := by
  apply Follows.bind (operands_follows hself ts)
  intro ws
  cases ws with
  | none => exact Follows.pure _
  | some ws =>
    apply Follows.bind (doOperation_follows op _ fun v w => subscript_follows heval v w)
    exact fun _ => Follows.pure _

private theorem step_returns (heval : FollowsAll inl eval eval') (e : Expr D) :
    Returns inl Prod.fst (step u eval e) s fun r => (u.step eval' s e).value = some r := by
  cases e with
  | literal | exprList | classAd => exact restoring_returns (Follows.pure _)
  | attrRef attr absolute => exact evaluateReference_returns heval (findAttr_finds attr absolute s)
  | select e attr => exact evaluateReference_returns heval (findSelected_finds eval' heval e attr s)
  | op1 op t => exact restoring_returns (operate_follows heval heval op _ _)
  | op2 op t1 t2 =>
    apply restoring_returns
    apply Follows.bind (heval s t1)
    intro r
    apply Keeps.ite
    · intro hr
      rw [if_pos hr]
      cases u.decided op r.2 with
      | none => exact operate_follows heval heval op _ _
      | some b => exact Follows.pure _
    · intro hr
      rw [if_neg hr]
      exact Follows.pure _
  | op3 op t1 t2 t3 =>
    apply restoring_returns
    apply Follows.bind (heval s t1)
    intro r
    apply Keeps.ite
    · intro hr
      rw [if_pos hr]
      cases u.chosen op r.2 t2 t3 with
      | none => exact operate_follows heval heval op _ _
      | some t =>
        apply Follows.bind (heval s t)
        intro c
        apply Keeps.ite
        · intro hc
          rw [if_pos hc]
          exact Follows.pure _
        · intro hc
          rw [if_neg hc]
          exact operate_follows heval heval op _ _
    · intro hr
      rw [if_neg hr]
      exact Follows.pure _
  | fnCall name args => exact restoring_returns (call_follows heval name args)

theorem evaluate_follows (u : Universe D) (n : Nat) :
    FollowsAll inl (evaluate u n) (u.evaluate n) := by
  induction n with
  | zero => exact fun _ _ => Keeps.exhausted
  | succ n ih => exact fun s e => recorded_keeps (step_returns ih e)

private theorem operate_steady (hself : ∀ e, Steady inl (self e))
    (heval : FollowsAll inl eval eval')
    (op : OpKind) (ts : List (Expr D)) : Steady inl (operate u self eval op [] ts) :=
  Follows.steady fun _ => operate_follows (Steady.followsAll hself) heval op [] ts

private theorem stepSig_returns (hself : ∀ e, Steady inl (self e))
    (heval : FollowsAll inl eval eval')
    (e : Expr D) : Returns inl Prod.fst (stepSig u eval self e) s fun _ => True := by
  cases e with
  | literal | exprList | classAd => exact restoring_steady (Steady.pure _)
  | attrRef attr absolute =>
    exact evaluateReferenceSig_returns heval.steady (findAttr_moves attr absolute s)
  | select e attr =>
    exact evaluateReferenceSig_returns heval.steady (findSelected_moves hself e attr s)
  | op1 op t | op2 op t1 t2
  | op3 op t1 t2 t3 => exact restoring_steady (operate_steady hself heval op _)
  | fnCall name args =>
    apply restoring_steady
    apply Steady.bind (Follows.steady fun s => call_follows heval name args)
    intro r s
    apply Keeps.ite
    · intro _
      exact Steady.bind (signArguments_steady hself true args) (fun _ => Steady.pure _) s
    · exact fun _ => Keeps.pure rfl

theorem evaluateSig_steady (u : Universe D) (n : Nat) : ∀ e, Steady inl (evaluateSig u n e) := by
  induction n with
  | zero => exact fun _ _ => Keeps.exhausted
  | succ n ih =>
    exact fun e => recorded_steady fun s => stepSig_returns ih (evaluate_follows u n) e

end Stateful

end Condor.ClassAds
