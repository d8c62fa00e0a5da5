import Condor.ClassAds.ParserRuns
import Condor.ClassAds.Termination

/-!
# A parser that is used again

A `ClassAdParser` keeps its lexer from call to call, and `Initialize` sets neither the type of the
last token nor its value. The value does no harm: it is read only for a token that has just set it.
-/

namespace Condor.ClassAds

open Lib (Watch)
open Lib.Watch Option
open Lexer (SameToken Scanning)

namespace Lexer

def new : Lexer :=
  { initializeFrom .endOfInput (.ofText .string []) with ch := some '\x00' }

/-- `Initialize`: the last token and its value are left as they were. -/
def initializeOn (l : Lexer) (source : LexerSource) : Lexer :=
  { initializeFrom l.tokenType source with yylval := l.yylval }

private theorem initializeOn_scanning (l l' : Lexer) (source : LexerSource) :
    Scanning l.tokenType l'.tokenType (l.initializeOn source) (l'.initializeOn source) :=
  ⟨.refl _,rfl,rfl,rfl,rfl,rfl⟩

private theorem ahead_initializeOn (l : Lexer) (source : LexerSource) :
    (l.initializeOn source).ahead = source.rest :=
  ahead_advance { l.initializeOn source with source := source }

private theorem startsNegative_initializeOn (l l' : Lexer) (source : LexerSource) (n : Nat) :
    (l.initializeOn source).startsNegative n = (l'.initializeOn source).startsNegative n :=
  startsNegative_scanning n (initializeOn_scanning l l' source)

variable {n : Nat} {l m : Lexer}

variable {och : Option Char}

private theorem integerPart_inl (h : integerPart n och l = some (.inl m)) :
    m.tokenType = .tokenError := by
  unfold integerPart at h
  dsimp only at h
  split at h
  · split at h
    · split at h
      · cases h
        rfl
      · simp [map_eq_some_iff] at h
    · obtain ⟨⟨t,l₁⟩,_,h⟩ := Option.map_eq_some_iff.mp h
      dsimp only at h
      split at h
      · cases h
      split at h
      · cases h
        rfl
      · cases h
  split at h
  · obtain ⟨l₁,_,h⟩ := Option.map_eq_some_iff.mp h
    split at h <;> cases h
  · cases h

private theorem fractionPart_inl {t : NumberType} (h : fractionPart n och t l = some (.inl m)) :
    m.tokenType = .tokenError ∨ m.tokenType = .selection := by
  unfold fractionPart at h
  dsimp only at h
  generalize (if l.ch = some '.' then l.wind else l) = l₁ at h
  split at h
  · split at h
    · simp [map_eq_some_iff] at h
    split at h
    · cases h
      exact .inl rfl
    · cases h
      exact .inr rfl
  · cases h

private theorem exponentPart_inl {t : NumberType} (h : exponentPart n t l = some (.inl m)) :
    m.tokenType = .tokenError := by
  unfold exponentPart at h
  dsimp only at h
  generalize (if l.wind.ch = some '+' ∨ l.wind.ch = some '-' then l.wind.wind
    else l.wind) = l₁ at h
  split at h
  · split at h
    · cases h
      rfl
    · simp [map_eq_some_iff] at h
  · cases h

private theorem numberValue_type {o : Bool} {t : NumberType} (h : numberValue o t l = some m) :
    m.tokenType = .integerValue ∨ m.tokenType = .realValue := by
  cases t with
  | none => cases h
  | integer => cases h; exact .inl rfl
  | real => cases h; exact .inr rfl

def IsNumberToken (t : TokenType) : Prop :=
  t = .tokenError ∨ t = .selection ∨ t = .integerValue ∨ t = .realValue

private theorem tokenizeDigits_type {o : Bool} (h : tokenizeDigits o n och l = some m) :
    IsNumberToken m.tokenType := by
  unfold tokenizeDigits at h
  obtain ⟨p,hp,h⟩ := Option.bind_eq_some_iff.mp h
  rcases p with l₁ | ⟨t1,l₁⟩
  · cases h
    exact .inl (integerPart_inl hp)
  obtain ⟨q,hq,h⟩ := Option.bind_eq_some_iff.mp h
  rcases q with l₂ | ⟨t2,l₂⟩
  · cases h
    rcases fractionPart_inl hq with ht | ht
    · exact .inl ht
    · exact .inr (.inl ht)
  obtain ⟨r,hr,h⟩ := Option.bind_eq_some_iff.mp h
  rcases r with l₃ | ⟨t3,l₃⟩
  · cases h
    exact .inl (exponentPart_inl hr)
  · exact .inr (.inr (numberValue_type h))

private theorem tokenizeNumber_type {o : Bool} (hneg : l.negativeNumber = true)
    (h : tokenizeNumber o n l = some m) : IsNumberToken m.tokenType := by
  simp only [negativeNumber,Bool.and_eq_true,Bool.or_eq_true,beq_iff_eq] at hneg
  obtain ⟨hch,hneg⟩ := hneg
  have hwind : l.mark.wind.ch = l.wind.ch ∧ l.mark.wind.source = l.wind.source := by
    simp [wind,mark,hch,advance]
  unfold tokenizeNumber at h
  dsimp only at h
  rw [if_pos hch,hwind.1,hwind.2] at h
  split at h
  · exact tokenizeDigits_type h
  rename_i hdigit
  rcases hneg with hd | ⟨hpoint,hd⟩
  · exact absurd hd hdigit
  · rw [if_pos hpoint,if_neg (by simp [hd])] at h
    exact tokenizeDigits_type h

private theorem nextToken_negative {o : Bool} (hneg : l.startsNegative n = true)
    (h : nextToken o n l = some m) :
    if minusIsOperator l.tokenType then m.tokenType = .minus else IsNumberToken m.tokenType := by
  have hblank := skipBlank_scanning n n (Scanning.refl { l with tokenConsumed := false })
  unfold startsNegative at hneg
  unfold nextToken at h
  generalize skipBlank n n { l with tokenConsumed := false } = x at hneg hblank h
  match x with
  | none => cases h
  | some (true,k) => cases hneg
  | some (false,k) =>
    have htype : k.tokenType = l.tokenType := by
      cases hblank with
      | some hk => exact hk.2.tokenType
    have hch : k.ch = some '-' := by
      simp only [negativeNumber,Bool.and_eq_true,beq_iff_eq] at hneg
      exact hneg.1
    dsimp only at h hneg
    unfold tokenize at h
    simp only [hch] at h
    rw [if_neg (by decide),if_pos trivial,htype] at h
    split
    · rename_i hop
      rw [if_pos hop] at h
      cases h
      simp [tokenizePunctOperator,hch,punctOperator,setToken]
    · rename_i hop
      rw [if_neg hop] at h
      exact tokenizeNumber_type hneg h

end Lexer

namespace ExprTree

def leadsWithMinus : ExprTree → Bool
  | .op1 op _ => op = .unaryMinus
  | .op2 _ t _ => t.leadsWithMinus
  | .op3 _ t _ _ => t.leadsWithMinus
  | .select t _ => t.leadsWithMinus
  | _ => false

end ExprTree

namespace Surroundings

variable (c : Surroundings) {n : Nat}

def Leads (c : Surroundings) (n : Nat) (p : Parser) : Prop :=
  ∀ l m, (c.peekToken n l).value = some m → Gives (p l) fun r =>
    ∀ tree, r.1 = some tree → tree.leadsWithMinus = (m.tokenType == .minus)

variable {c}

private theorem parseBinary_leads {operator : TokenType → Option OpKind} {operand : Parser}
    (h : c.Leads n operand) : c.Leads n (c.parseBinary n operator operand) := by
  intro l m hm
  refine Gives.bind (h l m hm) ?_
  rintro ⟨tree,l₁⟩ htree
  cases tree with
  | none => exact Gives.pure fun _ h => by cases h
  | some tree =>
    refine Gives.loop (fun s => s.1.leadsWithMinus = (m.tokenType == .minus)) ?_ n (tree,l₁)
      (htree tree rfl)
    rintro ⟨treeL,l₂⟩ hl2
    refine Gives.skip fun l₃ => ?_
    cases operator l₃.tokenType with
    | none =>
      refine Gives.pure ?_
      rintro _ ⟨⟩
      exact hl2
    | some op =>
      refine Gives.skip fun l4 => Gives.skip fun r => ?_
      obtain ⟨treeR,l5⟩ := r
      cases treeR with
      | none => exact Gives.pure fun _ h => by cases h
      | some treeR => exact Gives.pure hl2

section Collections

variable {expression : Parser}

/-- A result without a tree, or with a tree that does not begin with a minus. -/
def Plain (r : Option ExprTree × Lexer) : Prop :=
  ∀ tree, r.1 = some tree → tree.leadsWithMinus = false

theorem Plain.none (l : Lexer) : Plain (none,l) := fun _ h => by cases h

theorem Plain.some {tree : ExprTree} (h : tree.leadsWithMinus = false) (l : Lexer) :
    Plain (some tree,l) := by
  rintro _ ⟨⟩
  exact h

private theorem makeFunctionCall_plain (name : Name) (args : List ExprTree) :
    (c.makeFunctionCall name args).leadsWithMinus = false := by
  unfold makeFunctionCall
  split
  · split
    · rfl
    split
    · rfl
    · rfl
  · rfl

private theorem parsePrimaryExpression_plain (l : Lexer) :
    Gives (c.parsePrimaryExpression expression n l) Plain := by
  have hliteral : ∀ (value : Value) (factor : NumberFactor) (l : Lexer),
      Gives (do let l ← c.consumeToken n l; return (some (.literal value factor),l)) Plain :=
    fun _ _ _ => Gives.skip fun l => Gives.pure (.some rfl l)
  refine Gives.skip fun l => ?_
  dsimp only
  split
  · refine Gives.skip fun l => Gives.skip fun l => ?_
    split
    · refine Gives.skip fun r => ?_
      obtain ⟨args,l⟩ := r
      cases args with
      | none => exact Gives.pure (.none l)
      | some args => exact Gives.pure (.some (makeFunctionCall_plain _ args) l)
    · exact Gives.pure (.some rfl l)
  · refine Gives.skip fun l => Gives.skip fun l => ?_
    split
    · exact Gives.pure (.some rfl l)
    · exact Gives.pure (.none l)
  · refine Gives.skip fun l => Gives.skip fun r => ?_
    obtain ⟨tree,l⟩ := r
    cases tree with
    | none => exact Gives.pure (.none l)
    | some tree =>
      refine Gives.skip fun l => ?_
      split
      · exact Gives.pure (.none l)
      · exact Gives.pure (.some rfl l)
  · refine Gives.skip fun r => ?_
    obtain ⟨ad,l⟩ := r
    cases ad with
    | none => exact Gives.pure (.none l)
    | some ad => exact Gives.pure (.some rfl l)
  · refine Gives.skip fun r => ?_
    obtain ⟨list,l⟩ := r
    cases list with
    | none => exact Gives.pure (.none l)
    | some list => exact Gives.pure (.some rfl l)
  · exact hliteral _ _ _
  · exact hliteral _ _ _
  · exact hliteral _ _ _
  · exact hliteral _ _ _
  · exact hliteral _ _ _
  · exact hliteral _ _ _
  · exact Gives.pure (.none l)

private theorem parsePostfixExpression_plain (l : Lexer) :
    Gives (c.parsePostfixExpression expression n l) Plain := by
  refine Gives.bind (parsePrimaryExpression_plain l) ?_
  rintro ⟨tree,l⟩ htree
  cases tree with
  | none => exact Gives.pure (.none l)
  | some tree =>
    refine Gives.loop (fun s => s.1.leadsWithMinus = false) ?_ n (tree,l) (htree tree rfl)
    rintro ⟨treeL,l⟩ hl
    refine Gives.skip fun l => ?_
    split
    · refine Gives.skip fun l => Gives.skip fun r => ?_
      obtain ⟨treeR,l⟩ := r
      cases treeR with
      | none => exact Gives.pure (Plain.none l)
      | some treeR =>
        refine Gives.skip fun l => ?_
        split
        · exact Gives.pure hl
        · exact Gives.pure (Plain.none l)
    split
    · refine Gives.skip fun l => Gives.skip fun l => ?_
      split
      · exact Gives.pure (Plain.none l)
      · exact Gives.pure hl
    · exact Gives.pure (Plain.some hl l)

private theorem unaryOperator_minus (t : TokenType) :
    (match unaryOperator t with
    | none => false
    | some op => decide (op = .unaryMinus)) = (t == .minus) := by
  cases t <;> rfl

private theorem parseUnaryExpression_leads (k : Nat) :
    c.Leads n (c.parseUnaryExpression expression n k) := by
  intro l m hm
  cases k with
  | zero => exact Gives.exhausted
  | succ k =>
    have hpeek : Gives (c.peekToken n l) (· = m) := by
      intro l₁ hl1
      rw [hm] at hl1
      exact (some.inj hl1).symm
    refine Gives.bind hpeek ?_
    rintro m1 rfl
    have hminus := unaryOperator_minus m1.tokenType
    cases hop : unaryOperator m1.tokenType with
    | none =>
      rw [hop] at hminus
      refine Gives.mono (parsePostfixExpression_plain m1) ?_
      intro r hr tree htree
      rw [hr tree htree]
      exact hminus
    | some op =>
      rw [hop] at hminus
      refine Gives.skip fun l₁ => Gives.skip fun r => ?_
      obtain ⟨tree,l₂⟩ := r
      cases tree with
      | none => exact Gives.pure fun _ h => by cases h
      | some tree =>
        refine Gives.pure ?_
        rintro _ ⟨⟩
        exact hminus

private theorem parseLogicalORExpression_leads : c.Leads n
    (c.parseLogicalORExpression expression n) := by
  have hadd : c.Leads n (c.parseAdditiveExpression expression n) :=
    parseBinary_leads (parseBinary_leads (parseUnaryExpression_leads n))
  have heq : c.Leads n (c.parseEqualityExpression expression n) :=
    parseBinary_leads (parseBinary_leads (parseBinary_leads hadd))
  have hor : c.Leads n (c.parseInclusiveORExpression expression n) :=
    parseBinary_leads (parseBinary_leads (parseBinary_leads heq))
  exact parseBinary_leads (parseBinary_leads hor)

end Collections

private theorem parseExpression_leads (k : Nat) (full : Bool) {l m : Lexer}
    (hm : (c.peekToken n l).value = some m) :
    Gives (c.parseExpression n k full l) fun r =>
      ∀ tree, r.2.1 = some tree → tree.leadsWithMinus = (m.tokenType == .minus) := by
  cases k with
  | zero => exact Gives.exhausted
  | succ k =>
    refine Gives.bind (parseLogicalORExpression_leads l m hm) ?_
    rintro ⟨tree,l₁⟩ htree
    cases tree with
    | none => exact Gives.pure fun _ h => by cases h
    | some tree =>
      have hlead := htree tree rfl
      refine Gives.skip fun l₂ => ?_
      split
      · refine Gives.skip fun l₃ => Gives.skip fun r => Gives.skip fun l5 => ?_
        split
        · exact Gives.pure fun _ h => by cases h
        refine Gives.skip fun r' => ?_
        obtain ⟨treeM,l4⟩ := r
        obtain ⟨treeR,l6⟩ := r'
        dsimp only
        split
        · refine Gives.pure ?_
          rintro _ ⟨⟩
          exact hlead
        · exact Gives.pure fun _ h => by cases h
      split
      · refine Gives.skip fun l₃ => Gives.pure ?_
        rintro _ ⟨⟩
        exact hlead
      · refine Gives.pure ?_
        rintro _ ⟨⟩
        exact hlead

variable (c)

inductive Call
  | parseExpression (source : LexerSource) (full : Bool)
  | parseClassAd (source : LexerSource) (full : Bool)

def Call.source : Call → LexerSource
  | .parseExpression source _ => source
  | .parseClassAd source _ => source

inductive Answer
  | expression (success : Bool) (tree : Option ExprTree)
  | classAd (ad : Option (List (Name × ExprTree)))

/-- A call, by a parser with lexer `l`, and the lexer that it leaves. -/
def answer (n : Nat) (l : Lexer) : Call → Watch Lexer (Answer × Lexer)
  | .parseExpression source full => do
    let (success,tree,l) ← c.parseExpression n n full (l.initializeOn source)
    return (.expression success tree,l)
  | .parseClassAd source full => do
    let (ad,l) ← c.parseClassAd (fun l => (·.2) <$> c.parseExpression n n false l) n full
      (l.initializeOn source)
    if ad.isSome ∧ l.source.previous.isSome then
      return (.classAd ad,{ l with source := l.source.unreadCharacter })
    else return (.classAd ad,l)

def after (n : Nat) : Lexer → List Call → Option Lexer
  | l, [] => some l
  | l, call :: calls => (c.answer n l call).value.bind fun r => after n r.2 calls

/-- The text is no expression that begins with a negative number behind a token that makes a
minus an operator. -/
def Clear (n : Nat) (l : Lexer) : Call → Prop
  | .parseExpression source _ =>
    Lexer.minusIsOperator l.tokenType = true → (l.initializeOn source).startsNegative n = false
  | .parseClassAd _ _ => True

def outcome (n : Nat) (l : Lexer) (call : Call) : Option Answer :=
  (c.answer n l call).value.map (·.1)

private theorem outcome_eq {l l' : Lexer} (call : Call)
    (h : c.Ready n (l.initializeOn call.source) (l'.initializeOn call.source)) :
    c.outcome n l call = c.outcome n l' call := by
  cases call with
  | parseExpression source full =>
    have hrun := parseExpression_alike n full h
    refine Lib.map_eq_of_rel (R := fun r r' => r.1 = r'.1) ?_ fun _ _ hr => hr
    refine Alike.bind hrun ?_
    rintro ⟨success,tree,m⟩ ⟨_,_,m'⟩ ⟨rfl,rfl,hm⟩
    exact Alike.pure rfl
  | parseClassAd source full =>
    have hrun := parseClassAd_alike full (expression_steady n) h
    refine Lib.map_eq_of_rel (R := fun r r' => r.1 = r'.1) ?_ fun _ _ hr => hr
    refine Alike.bind hrun ?_
    rintro ⟨ad,m⟩ ⟨_,m'⟩ ⟨rfl,hm⟩
    dsimp only
    split <;> split <;> exact Alike.pure rfl

private theorem ready_initializeOn {l l' : Lexer} (source : LexerSource)
    (h : Lexer.minusIsOperator l.tokenType = Lexer.minusIsOperator l'.tokenType ∨
      (l.initializeOn source).startsNegative n = false) :
    c.Ready n (l.initializeOn source) (l'.initializeOn source) :=
  Alike.call (Lexer.nextToken_scanning _ n (Lexer.initializeOn_scanning l l' source) h)

/-- The parser of a history answers as `ParseExpression` does on the type of its last token. -/
theorem outcome_eq_parse (n : Nat) (l : Lexer) (source : LexerSource) (full : Bool) :
    c.outcome n l (.parseExpression source full) =
      (c.parseExpressionFrom n l.tokenType source full).value.map fun r => .expression r.1 r.2 := by
  have hl : c.outcome n l (.parseExpression source full) =
      c.outcome n (Lexer.initializeFrom l.tokenType source) (.parseExpression source full) :=
    outcome_eq c _ (ready_initializeOn c source (.inl rfl))
  have hinit : (Lexer.initializeFrom l.tokenType source).initializeOn source =
      Lexer.initializeFrom l.tokenType source := rfl
  rw [hl,parseExpressionFrom,outcome,answer,hinit]
  cases hx : (c.parseExpression n n full (Lexer.initializeFrom l.tokenType source)).value with
  | none =>
    rw [value_bind_of_none hx,value_bind_of_none hx]
    rfl
  | some r =>
    rw [value_bind_of_some hx,value_bind_of_some hx]
    rfl

private theorem parseClassAd_negative {expression : Parser} {full : Bool} {l m : Lexer}
    (hl : l.tokenConsumed = true) (hm : Lexer.nextToken c.oldSemantics n l = some m)
    (hneg : l.startsNegative n = true) :
    (c.parseClassAd expression n full l).value = some (none,m.consume) := by
  have hbox : m.tokenType ≠ .openBox := by
    have htype := Lexer.nextToken_negative hneg hm
    split at htype
    · simp [htype]
    · rcases htype with ht | ht | ht | ht <;> simp [ht]
  have hpeek : (c.peekToken n l).value = some m := by
    unfold peekToken
    rw [if_pos hl]
    exact hm
  have hconsume : (c.consumeToken n l).value = some m.consume := value_bind_of_some hpeek
  unfold parseClassAd
  rw [value_bind_of_some hconsume,if_pos (show m.consume.tokenType ≠ .openBox from hbox)]
  rfl

private theorem outcome_parseClassAd_negative (l l' : Lexer) {source : LexerSource} (full : Bool)
    (hn : source.rest.length < n) (hneg : (l.initializeOn source).startsNegative n = true) :
    c.outcome n l (.parseClassAd source full) = c.outcome n l' (.parseClassAd source full) := by
  have hahead := Lexer.ahead_initializeOn l source
  have hahead' := Lexer.ahead_initializeOn l' source
  have hneg' : (l'.initializeOn source).startsNegative n = true := by
    rw [← Lexer.startsNegative_initializeOn l l' source n]
    exact hneg
  have hopen : openComment source.rest = false := by
    by_contra hopen
    have hnone : Lexer.skipBlank n n { l.initializeOn source
      with tokenConsumed := false } = none := by
      refine Lexer.skipBlank_open n _ ?_ ?_
      · rw [← hahead] at hn
        exact hn
      · rw [← hahead,Bool.not_eq_false] at hopen
        exact hopen
    unfold Lexer.startsNegative at hneg
    rw [hnone] at hneg
    cases hneg
  obtain ⟨m,hm,_⟩ := Lexer.nextToken_steps c.oldSemantics (by rw [hahead]; exact hn)
    (by rw [hahead]; exact hopen)
  obtain ⟨m',hm',_⟩ := Lexer.nextToken_steps c.oldSemantics (by rw [hahead']; exact hn)
    (by rw [hahead']; exact hopen)
  unfold outcome answer
  rw [value_bind_of_some (parseClassAd_negative c rfl hm hneg),
    value_bind_of_some (parseClassAd_negative c rfl hm' hneg')]
  rfl

private theorem outcome_parseExpression (l : Lexer) (source : LexerSource) (full : Bool) :
    c.outcome n l (.parseExpression source full) =
      (c.parseExpression n n full (l.initializeOn source)).value.map
        fun r => .expression r.1 r.2.1 := by
  unfold outcome answer
  cases h : (c.parseExpression n n full (l.initializeOn source)).value with
  | none => rw [value_bind_of_none h]; rfl
  | some r => rw [value_bind_of_some h]; rfl

/-- A tree that was read from a negative number begins with a minus exactly if the token before
made the minus an operator. -/
theorem leadsWithMinus_of_outcome {l : Lexer} {source : LexerSource} {full success : Bool}
    {tree : ExprTree} (hneg : (l.initializeOn source).startsNegative n = true)
    (h : c.outcome n l (.parseExpression source full) = some (.expression success (some tree))) :
    tree.leadsWithMinus = Lexer.minusIsOperator l.tokenType := by
  rw [outcome_parseExpression,map_eq_some_iff] at h
  obtain ⟨⟨success',tree',l'⟩,hvalue,hanswer⟩ := h
  cases hanswer
  cases hm : (c.peekToken n (l.initializeOn source)).value with
  | none =>
    rw [c.parseExpression_stuck hm] at hvalue
    cases hvalue
  | some m =>
    have hlead := parseExpression_leads n full hm _ hvalue tree rfl
    have htype := Lexer.nextToken_negative hneg hm
    change if Lexer.minusIsOperator l.tokenType then _ else _ at htype
    rw [hlead]
    split at htype
    · rename_i hop
      rw [hop,htype]
      rfl
    · rename_i hop
      rw [Bool.not_eq_true] at hop
      rw [hop]
      rcases htype with ht | ht | ht | ht <;> rw [ht] <;> rfl

/-- A call on a clear text gives what it gives to a new parser, whatever came before. Another
expression is read in another way, with a unary minus for the sign. -/
theorem outcome_eq_new (calls : List Call) (call : Call) {l : Lexer}
    (hn : call.source.after.length < n) (_ : c.after n .new calls = some l) :
    (Clear n l call → c.outcome n l call = c.outcome n .new call) ∧
    (¬ Clear n l call → (∃ success tree, c.outcome n .new call =
      some (.expression success (some tree))) → c.outcome n l call ≠ c.outcome n .new call) := by
  constructor
  · intro hclear
    cases call with
    | parseExpression source full =>
      refine c.outcome_eq _ (c.ready_initializeOn source ?_)
      cases hop : Lexer.minusIsOperator l.tokenType with
      | false => exact .inl rfl
      | true => exact .inr (hclear hop)
    | parseClassAd source full =>
      have hrest : source.rest.length < n :=
        Nat.lt_of_le_of_lt (List.takeWhile_sublist _).length_le hn
      cases hneg : (l.initializeOn source).startsNegative n with
      | false => exact c.outcome_eq _ (c.ready_initializeOn source (.inr hneg))
      | true => exact c.outcome_parseClassAd_negative l .new full hrest hneg
  · rintro hclear ⟨success,tree,hnew⟩ heq
    cases call with
    | parseClassAd source full => exact hclear trivial
    | parseExpression source full =>
      simp only [Clear,Classical.not_imp,Bool.not_eq_false] at hclear
      obtain ⟨hop,hneg⟩ := hclear
      have hneg' := hneg
      rw [Lexer.startsNegative_initializeOn l .new] at hneg'
      have hminus := c.leadsWithMinus_of_outcome hneg (heq.trans hnew)
      have hplain := c.leadsWithMinus_of_outcome hneg' hnew
      rw [hminus,hop] at hplain
      exact Bool.noConfusion hplain

/-! A parser reads an ad, the last token of which is the closing bracket, and then `-5`. -/

def callAd : Call := .parseClassAd (.ofText .string ['[',']']) false

def callMinusFive : Call := .parseExpression (.ofText .string ['-','5']) true

def callMinusName : Call := .parseExpression (.ofText .string ['-','a']) true

private theorem after_ad : ∃ l, plain.after 8 .new [callAd] = some l ∧ l.tokenType = .closeBox :=
  ⟨_,rfl,rfl⟩

private theorem outcome_minusFive_new : plain.outcome 8 .new callMinusFive =
    some (.expression true (some (.literal (.integer (-5)) .none))) := rfl

private theorem outcome_minusFive_used : ∃ l, plain.after 8 .new [callAd] = some l ∧
    plain.outcome 8 l callMinusFive =
      some (.expression true (some (.op1 .unaryMinus (.literal (.integer 5) .none)))) :=
  ⟨_,rfl,rfl⟩

/-- A new parser reads the number, the used one reads an operator. -/
theorem outcome_used_ne_new : ∃ l, plain.after 8 .new [callAd] = some l ∧
    plain.outcome 8 l callMinusFive ≠ plain.outcome 8 .new callMinusFive := by
  obtain ⟨l,hl,hused⟩ := outcome_minusFive_used
  refine ⟨l,hl,?_⟩
  rw [hused,outcome_minusFive_new]
  simp

/-- Behind the ad, `-a` is read as by a new parser, and `-5` is not. -/
theorem outcome_eq_new_ad : ∃ l, plain.after 8 .new [callAd] = some l ∧
    plain.outcome 8 l callMinusName = plain.outcome 8 .new callMinusName ∧
    plain.outcome 8 l callMinusFive ≠ plain.outcome 8 .new callMinusFive := by
  obtain ⟨l,hl,htype⟩ := after_ad
  have hname : Clear 8 l callMinusName := by
    intro _
    rw [Lexer.startsNegative_initializeOn l .new]
    rfl
  have hfive : ¬ Clear 8 l callMinusFive := by
    intro hclear
    have hneg := hclear (by rw [htype]; rfl)
    rw [Lexer.startsNegative_initializeOn l .new] at hneg
    cases hneg
  exact ⟨l,hl,(outcome_eq_new plain [callAd] callMinusName (by decide) hl).1 hname,
    (outcome_eq_new plain [callAd] callMinusFive (by decide) hl).2 hfive
      ⟨true,_,outcome_minusFive_new⟩⟩

end Surroundings

end Condor.ClassAds
