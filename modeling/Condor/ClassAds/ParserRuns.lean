import Condor.ClassAds.LexerRuns
import Condor.ClassAds.Parser

/-!
# Two runs of the parser

Runs of the parser on lexers that agree on the next token agree on their results.
-/

namespace Condor.ClassAds

open Lib (Watch)
open Lib.Watch
open Lexer (SameToken Scanning)

theorem Lexer.SameToken.consume {l l' : Lexer} (h : SameToken l l') :
    SameToken { l with tokenConsumed := true } { l' with tokenConsumed := true } :=
  ⟨⟨h.scanning.source,h.scanning.ch,h.scanning.lexBuffer,rfl,rfl,h.scanning.tokenType'⟩,h.seen⟩

/-! The values of the tokens that have one. -/

theorem Lexer.SameToken.strValue {l l' : Lexer} (h : SameToken l l')
    (ht : l.tokenType = .identifier ∨ l.tokenType = .stringValue) :
    l.yylval.strValue = l'.yylval.strValue := by
  have hseen := congrArg TokenValue.strValue h.seen
  rcases ht with ht | ht
  · rw [ht] at hseen
    exact hseen
  · rw [ht] at hseen
    exact hseen

theorem Lexer.SameToken.boolValue {l l' : Lexer} (h : SameToken l l')
    (ht : l.tokenType = .booleanValue) : l.yylval.boolValue = l'.yylval.boolValue := by
  have hseen := congrArg TokenValue.boolValue h.seen
  rw [ht] at hseen
  exact hseen

theorem Lexer.SameToken.intValue {l l' : Lexer} (h : SameToken l l')
    (ht : l.tokenType = .integerValue) :
    l.yylval.intValue = l'.yylval.intValue ∧ l.yylval.factor = l'.yylval.factor := by
  have hint := congrArg TokenValue.intValue h.seen
  have hfactor := congrArg TokenValue.factor h.seen
  rw [ht] at hint hfactor
  exact ⟨hint,hfactor⟩

theorem Lexer.SameToken.realValue {l l' : Lexer} (h : SameToken l l')
    (ht : l.tokenType = .realValue) :
    l.yylval.realValue = l'.yylval.realValue ∧ l.yylval.factor = l'.yylval.factor := by
  have hreal := congrArg TokenValue.realValue h.seen
  have hfactor := congrArg TokenValue.factor h.seen
  rw [ht] at hreal hfactor
  exact ⟨hreal,hfactor⟩

def SameResult {α : Type} (r r' : α × Lexer) : Prop := r.1 = r'.1 ∧ SameToken r.2 r'.2

namespace Surroundings

variable (c : Surroundings) (n : Nat)

def Ready (l l' : Lexer) : Prop := Alike (c.peekToken n l) (c.peekToken n l') SameToken

variable {c n} {l l' : Lexer}

private theorem ready_of_same (h : SameToken l l') : c.Ready n l l' := by
  unfold Ready peekToken
  rw [← h.scanning.tokenConsumed]
  split
  · exact Alike.call (Lexer.nextToken_scanning _ n h.scanning (.inl rfl))
  · exact Alike.pure h

private theorem consumeToken_alike (h : c.Ready n l l') :
    Alike (c.consumeToken n l) (c.consumeToken n l') SameToken :=
  Alike.bind h fun _ _ hm => Alike.pure hm.consume

/-- A parser whose result depends on the next token, but not on the one before. -/
def Steady (c : Surroundings) (n : Nat) (p : Parser) : Prop :=
  ∀ l l', c.Ready n l l' → Alike (p l) (p l') SameResult

private theorem parseBinary_steady {operator : TokenType → Option OpKind} {operand : Parser}
    (h : c.Steady n operand) : c.Steady n (c.parseBinary n operator operand) := by
  intro l l' hl
  apply Alike.bind (h l l' hl)
  rintro ⟨tree,m⟩ ⟨_,m'⟩ ⟨rfl,hm⟩
  cases tree with
  | none => exact Alike.pure ⟨rfl,hm⟩
  | some tree =>
    refine Alike.loop (Q := SameResult) ?_ n (tree,m) (tree,m') ⟨rfl,hm⟩
    rintro ⟨treeL,m⟩ ⟨_,m'⟩ ⟨rfl,hm⟩
    apply Alike.bind (ready_of_same hm)
    intro p p' hp
    rw [← hp.type_eq]
    cases operator p.tokenType with
    | none => exact Alike.pure (.inr ⟨rfl,hp⟩)
    | some op =>
      apply Alike.bind (consumeToken_alike (ready_of_same hp))
      intro q q' hq
      apply Alike.bind (h q q' (ready_of_same hq))
      rintro ⟨treeR,r⟩ ⟨_,r'⟩ ⟨rfl,hr⟩
      cases treeR with
      | none => exact Alike.pure (.inr ⟨rfl,hr⟩)
      | some treeR => exact Alike.pure (.inl ⟨rfl,hr⟩)

section Collections

variable {expression : Parser}

def SameRound {α : Type} (s s' : α × TokenType × Lexer) : Prop :=
  s.1 = s'.1 ∧ s.2.1 = s'.2.1 ∧ SameToken s.2.2 s'.2.2

private theorem parseItems_alike {isSeparator : TokenType → Bool} {closing : TokenType}
    (h : c.Steady n expression) (hl : c.Ready n l l') :
    Alike (c.parseItems expression n isSeparator closing l)
      (c.parseItems expression n isSeparator closing l') SameResult := by
  apply Alike.bind hl
  intro m m' hm
  refine Alike.loop (Q := SameRound) ?_ n _ _ ⟨rfl,hm.type_eq,hm⟩
  rintro ⟨items,tt,m⟩ ⟨_,_,m'⟩ ⟨rfl,rfl,hm⟩
  dsimp only at hm ⊢
  split
  · exact Alike.bind (consumeToken_alike (ready_of_same hm)) fun _ _ hp =>
      Alike.pure (.inr ⟨rfl,hp⟩)
  apply Alike.bind (h m m' (ready_of_same hm))
  rintro ⟨tree,p⟩ ⟨_,p'⟩ ⟨rfl,hp⟩
  cases tree with
  | none => exact Alike.pure (.inr ⟨rfl,hp⟩)
  | some tree =>
    apply Alike.bind (ready_of_same hp)
    intro q q' hq
    rw [← hq.type_eq]
    split
    · exact Alike.bind (consumeToken_alike (ready_of_same hq)) fun _ _ hr =>
        Alike.pure (.inl ⟨rfl,rfl,hr⟩)
    split
    · exact Alike.pure (.inr ⟨rfl,hq⟩)
    · exact Alike.pure (.inl ⟨rfl,rfl,hq⟩)

private theorem parseArgumentList_alike (h : c.Steady n expression) (hl : c.Ready n l l') :
    Alike (c.parseArgumentList expression n l) (c.parseArgumentList expression n l')
      SameResult := by
  apply Alike.bind (consumeToken_alike hl)
  intro m m' hm
  rw [← hm.type_eq]
  split
  · exact Alike.pure ⟨rfl,hm⟩
  · exact parseItems_alike h (ready_of_same hm)

private theorem parseExprList_alike (h : c.Steady n expression) (hl : c.Ready n l l') :
    Alike (c.parseExprList expression n l) (c.parseExprList expression n l') SameResult := by
  apply Alike.bind (consumeToken_alike hl)
  intro m m' hm
  rw [← hm.type_eq]
  split
  · exact Alike.pure ⟨rfl,hm⟩
  · exact parseItems_alike h (ready_of_same hm)

private theorem slurpSemicolons_alike (hl : SameToken l l') :
    Alike (c.slurpSemicolons n l) (c.slurpSemicolons n l') SameToken := by
  refine Alike.loop (Q := SameToken) ?_ n l l' hl
  intro m m' hm
  rw [← hm.type_eq]
  split
  · apply Alike.bind (consumeToken_alike (ready_of_same hm))
    intro p p' hp
    exact Alike.bind (ready_of_same hp) fun _ _ hq => Alike.pure (.inl hq)
  · exact Alike.pure (.inr hm)

private theorem parseAttribute_alike (h : c.Steady n expression)
    {s s' : List (Name × ExprTree) × TokenType × Lexer} (hs : SameRound s s') :
    Alike (c.parseAttribute expression n s) (c.parseAttribute expression n s')
      (Sum.LiftRel SameRound SameResult) := by
  obtain ⟨ad,tt,l⟩ := s
  obtain ⟨_,_,l'⟩ := s'
  obtain ⟨rfl,rfl,hl⟩ := hs
  dsimp only at hl
  unfold parseAttribute
  dsimp only
  split
  · exact Alike.bind (consumeToken_alike (ready_of_same hl)) fun _ _ hm =>
      Alike.pure (.inr ⟨rfl,hm⟩)
  apply Alike.bind (consumeToken_alike (ready_of_same hl))
  intro m m' hm
  rw [← hm.type_eq]
  split
  · exact Alike.pure (.inl ⟨rfl,rfl,hm⟩)
  split
  · exact Alike.pure (.inr ⟨rfl,hm⟩)
  rename_i hid
  rw [← hm.strValue (.inl (Decidable.not_not.mp hid))]
  apply Alike.bind (consumeToken_alike (ready_of_same hm))
  intro p p' hp
  rw [← hp.type_eq]
  split
  · exact Alike.pure (.inr ⟨rfl,hp⟩)
  apply Alike.bind (h p p' (ready_of_same hp))
  rintro ⟨tree,q⟩ ⟨_,q'⟩ ⟨rfl,hq⟩
  cases tree with
  | none => exact Alike.pure (.inr ⟨rfl,hq⟩)
  | some tree =>
    dsimp only
    split
    · exact Alike.pure (.inr ⟨rfl,hq⟩)
    apply Alike.bind (ready_of_same hq)
    intro r r' hr
    rw [← hr.type_eq]
    split
    · exact Alike.pure (.inr ⟨rfl,hr⟩)
    exact Alike.bind (slurpSemicolons_alike hr) fun _ _ hk =>
      Alike.pure (.inl ⟨rfl,hk.type_eq,hk⟩)

theorem parseClassAd_alike (full : Bool) (h : c.Steady n expression) (hl : c.Ready n l l') :
    Alike (c.parseClassAd expression n full l) (c.parseClassAd expression n full l')
      SameResult := by
  apply Alike.bind (consumeToken_alike hl)
  intro m m' hm
  rw [← hm.type_eq]
  split
  · exact Alike.pure ⟨rfl,hm⟩
  apply Alike.bind (ready_of_same hm)
  intro p p' hp
  refine Alike.bind (Alike.loop (Q := SameRound) (fun _ _ hs => parseAttribute_alike h hs) n _ _
    ⟨rfl,hp.type_eq,hp⟩) ?_
  rintro ⟨ad,q⟩ ⟨_,q'⟩ ⟨rfl,hq⟩
  cases ad with
  | none => exact Alike.pure ⟨rfl,hq⟩
  | some ad =>
    dsimp only
    split
    · apply Alike.bind (consumeToken_alike (ready_of_same hq))
      intro r r' hr
      rw [← hr.type_eq]
      split
      · exact Alike.pure ⟨rfl,hr⟩
      · exact Alike.pure ⟨rfl,hr⟩
    · exact Alike.pure ⟨rfl,hq⟩

private theorem parsePrimaryExpression_steady (h : c.Steady n expression) :
    c.Steady n (c.parsePrimaryExpression expression n) := by
  intro l l' hl
  apply Alike.bind hl
  intro m m' hm
  have hnext : Alike (c.consumeToken n m) (c.consumeToken n m') SameToken :=
    consumeToken_alike (ready_of_same hm)
  have hliteral : ∀ tree : ExprTree, Alike
      (do let l ← c.consumeToken n m; return (some tree,l))
      (do let l ← c.consumeToken n m'; return (some tree,l)) SameResult := by
    intro tree
    exact Alike.bind hnext fun _ _ hp => Alike.pure ⟨rfl,hp⟩
  dsimp only
  rw [← hm.type_eq]
  split
  · -- an identifier: a function call or an attribute
    rename_i ht
    rw [← hm.strValue (.inl ht)]
    apply Alike.bind hnext
    intro p p' hp
    apply Alike.bind (ready_of_same hp)
    intro q q' hq
    rw [← hq.type_eq]
    split
    · apply Alike.bind (parseArgumentList_alike h (ready_of_same hq))
      rintro ⟨args,r⟩ ⟨_,r'⟩ ⟨rfl,hr⟩
      cases args with
      | none | some => exact Alike.pure ⟨rfl,hr⟩
    · exact Alike.pure ⟨rfl,hq⟩
  · -- an absolute reference
    apply Alike.bind hnext
    intro p p' hp
    apply Alike.bind (consumeToken_alike (ready_of_same hp))
    intro q q' hq
    rw [← hq.type_eq]
    split
    · rename_i ht
      rw [← hq.strValue (.inl ht)]
      exact Alike.pure ⟨rfl,hq⟩
    · exact Alike.pure ⟨rfl,hq⟩
  · -- a parenthesised expression
    apply Alike.bind hnext
    intro p p' hp
    apply Alike.bind (h p p' (ready_of_same hp))
    rintro ⟨tree,q⟩ ⟨_,q'⟩ ⟨rfl,hq⟩
    cases tree with
    | none => exact Alike.pure ⟨rfl,hq⟩
    | some tree =>
      apply Alike.bind (consumeToken_alike (ready_of_same hq))
      intro r r' hr
      rw [← hr.type_eq]
      split
      · exact Alike.pure ⟨rfl,hr⟩
      · exact Alike.pure ⟨rfl,hr⟩
  · apply Alike.bind (parseClassAd_alike false h (ready_of_same hm))
    rintro ⟨ad,q⟩ ⟨_,q'⟩ ⟨rfl,hq⟩
    exact Alike.pure ⟨rfl,hq⟩
  · apply Alike.bind (parseExprList_alike h (ready_of_same hm))
    rintro ⟨list,q⟩ ⟨_,q'⟩ ⟨rfl,hq⟩
    exact Alike.pure ⟨rfl,hq⟩
  · exact hliteral _
  · exact hliteral _
  · rename_i ht
    rw [← hm.boolValue ht]
    exact hliteral _
  · rename_i ht
    rw [← (hm.intValue ht).1,← (hm.intValue ht).2]
    exact hliteral _
  · rename_i ht
    rw [← (hm.realValue ht).1,← (hm.realValue ht).2]
    exact hliteral _
  · rename_i ht
    rw [← hm.strValue (.inr ht)]
    exact hliteral _
  · exact Alike.pure ⟨rfl,hm⟩

private theorem parsePostfixExpression_steady (h : c.Steady n expression) :
    c.Steady n (c.parsePostfixExpression expression n) := by
  intro l l' hl
  apply Alike.bind (parsePrimaryExpression_steady h l l' hl)
  rintro ⟨tree,m⟩ ⟨_,m'⟩ ⟨rfl,hm⟩
  cases tree with
  | none => exact Alike.pure ⟨rfl,hm⟩
  | some tree =>
    refine Alike.loop (Q := SameResult) ?_ n (tree,m) (tree,m') ⟨rfl,hm⟩
    rintro ⟨treeL,m⟩ ⟨_,m'⟩ ⟨rfl,hm⟩
    apply Alike.bind (ready_of_same hm)
    intro p p' hp
    rw [← hp.type_eq]
    split
    · apply Alike.bind (consumeToken_alike (ready_of_same hp))
      intro q q' hq
      apply Alike.bind (h q q' (ready_of_same hq))
      rintro ⟨treeR,r⟩ ⟨_,r'⟩ ⟨rfl,hr⟩
      cases treeR with
      | none => exact Alike.pure (.inr ⟨rfl,hr⟩)
      | some treeR =>
        apply Alike.bind (consumeToken_alike (ready_of_same hr))
        intro k k' hk
        rw [← hk.type_eq]
        split
        · exact Alike.pure (.inl ⟨rfl,hk⟩)
        · exact Alike.pure (.inr ⟨rfl,hk⟩)
    split
    · apply Alike.bind (consumeToken_alike (ready_of_same hp))
      intro q q' hq
      apply Alike.bind (consumeToken_alike (ready_of_same hq))
      intro r r' hr
      rw [← hr.type_eq]
      split
      · exact Alike.pure (.inr ⟨rfl,hr⟩)
      · rename_i hid
        rw [← hr.strValue (.inl (Decidable.not_not.mp hid))]
        exact Alike.pure (.inl ⟨rfl,hr⟩)
    · exact Alike.pure (.inr ⟨rfl,hp⟩)

private theorem parseUnaryExpression_steady (h : c.Steady n expression) : ∀ k : Nat,
    c.Steady n (c.parseUnaryExpression expression n k) := by
  intro k
  induction k with
  | zero => intro l l' _; exact .exhausted
  | succ k ih =>
    intro l l' hl
    apply Alike.bind hl
    intro m m' hm
    rw [← hm.type_eq]
    cases unaryOperator m.tokenType with
    | none => exact parsePostfixExpression_steady h m m' (ready_of_same hm)
    | some op =>
      apply Alike.bind (consumeToken_alike (ready_of_same hm))
      intro p p' hp
      apply Alike.bind (ih p p' (ready_of_same hp))
      rintro ⟨tree,q⟩ ⟨_,q'⟩ ⟨rfl,hq⟩
      cases tree with
      | none | some => exact Alike.pure ⟨rfl,hq⟩

private theorem parseLogicalORExpression_steady (h : c.Steady n expression) :
    c.Steady n (c.parseLogicalORExpression expression n) := by
  have hadd : c.Steady n (c.parseAdditiveExpression expression n) :=
    parseBinary_steady (parseBinary_steady (parseUnaryExpression_steady h n))
  have heq : c.Steady n (c.parseEqualityExpression expression n) :=
    parseBinary_steady (parseBinary_steady (parseBinary_steady hadd))
  have hor : c.Steady n (c.parseInclusiveORExpression expression n) :=
    parseBinary_steady (parseBinary_steady (parseBinary_steady heq))
  exact parseBinary_steady (parseBinary_steady hor)

def SameOutcome (r r' : Bool × Option ExprTree × Lexer) : Prop :=
  r.1 = r'.1 ∧ SameResult r.2 r'.2

private theorem parseTernary_alike (full : Bool) (h : c.Steady n expression) (hl : c.Ready n l l') :
    Alike (c.parseTernary expression n full l) (c.parseTernary expression n full l')
      SameOutcome := by
  apply Alike.bind (parseLogicalORExpression_steady h l l' hl)
  rintro ⟨tree,m⟩ ⟨_,m'⟩ ⟨rfl,hm⟩
  cases tree with
  | none => exact Alike.pure ⟨rfl,rfl,hm⟩
  | some tree =>
    apply Alike.bind (ready_of_same hm)
    intro p p' hp
    rw [← hp.type_eq]
    split
    · apply Alike.bind (consumeToken_alike (ready_of_same hp))
      intro q q' hq
      apply Alike.bind (h q q' (ready_of_same hq))
      rintro ⟨treeM,r⟩ ⟨_,r'⟩ ⟨rfl,hr⟩
      apply Alike.bind (consumeToken_alike (ready_of_same hr))
      intro k k' hk
      rw [← hk.type_eq]
      split
      · exact Alike.pure ⟨rfl,rfl,hk⟩
      apply Alike.bind (h k k' (ready_of_same hk))
      rintro ⟨treeR,u⟩ ⟨_,u'⟩ ⟨rfl,hu⟩
      cases treeM <;> cases treeR <;> exact Alike.pure ⟨rfl,rfl,hu⟩
    split
    · apply Alike.bind (consumeToken_alike (ready_of_same hp))
      intro q q' hq
      rw [← hq.type_eq]
      exact Alike.pure ⟨rfl,rfl,hq⟩
    · exact Alike.pure ⟨rfl,rfl,hp⟩

end Collections

theorem parseExpression_alike : ∀ (k : Nat) (full : Bool) {l l' : Lexer}, c.Ready n l l' →
    Alike (c.parseExpression n k full l) (c.parseExpression n k full l') SameOutcome := by
  intro k
  induction k with
  | zero => intro full l l' _; exact .exhausted
  | succ k ih =>
    intro full l l' hl
    refine parseTernary_alike full ?_ hl
    intro m m' hm
    exact Alike.map (ih false hm) fun _ _ hr => hr.2

theorem expression_steady (k : Nat) :
    c.Steady n fun l => (·.2) <$> c.parseExpression n k false l :=
  fun _ _ hl => Alike.map (parseExpression_alike k false hl) fun _ _ hr => hr.2

end Surroundings

end Condor.ClassAds
