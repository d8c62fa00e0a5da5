import Condor.ClassAds.Progress
import Condor.ClassAds.Parser

/-!
# The parser returns unless a comment is left open

A token counts as work to do until it is consumed.
-/

namespace Condor.ClassAds

open Lib (Watch)
open Lib.Watch

namespace Lexer

/-- A comment has been opened that nothing closes. -/
def Stuck (l : Lexer) : Prop := openComment l.ahead = true
deriving Decidable

def todo (l : Lexer) : Nat :=
  weight l.ahead + if l.tokenConsumed = false ∧ l.tokenType ≠ .endOfInput then 1 else 0

/-- The state behind `tokenConsumed = true`. -/
def consume (l : Lexer) : Lexer := { l with tokenConsumed := true }

theorem length_le_todo (l : Lexer) : l.ahead.length ≤ l.todo :=
  Nat.le_trans (Nat.le_add_right _ _) (Nat.le_add_right _ _)

private theorem todo_consume (l : Lexer) : l.consume.todo = weight l.ahead := by
  simp only [todo,consume]
  rfl

private theorem todo_consume_le (l : Lexer) : l.consume.todo ≤ l.todo := by
  rw [todo_consume]
  exact Nat.le_add_right _ _

private theorem todo_consume_lt {l : Lexer} (hl : l.tokenConsumed = false)
    (ht : l.tokenType ≠ .endOfInput) : l.consume.todo < l.todo := by
  rw [todo_consume,todo,if_pos ⟨hl,ht⟩]
  exact Nat.lt_succ_self _

private theorem Stepped.todo_le {l l' : Lexer} (h : Stepped l l') : l'.todo ≤ weight l.ahead := by
  unfold todo
  split
  · rename_i ht
    exact h.lt ht.2
  · exact h.le

end Lexer

namespace Surroundings

variable (c : Surroundings) {n b : Nat}

variable {l : Lexer}

private theorem peekToken_ends (hn : l.todo < n) :
    Ends Lexer.Stuck (c.peekToken n l) fun l' => l'.tokenConsumed = false ∧ l'.todo ≤ l.todo := by
  have hlen : l.ahead.length < n := Nat.lt_of_le_of_lt l.length_le_todo hn
  unfold peekToken
  split
  · apply Ends.call
    · intro hst
      exact Lexer.nextToken_open _ hlen hst
    · intro hst
      obtain ⟨l',hl',hstep⟩ := Lexer.nextToken_steps c.oldSemantics hlen
        (by simpa [Lexer.Stuck] using hst)
      exact ⟨l',hl',hstep.unconsumed,Nat.le_trans hstep.todo_le (Nat.le_add_right _ _)⟩
  · rename_i hl
    exact Ends.pure ⟨by simpa using hl,Nat.le_refl _⟩

private theorem consumeToken_ends (hn : l.todo < n) :
    Ends Lexer.Stuck (c.consumeToken n l) fun l' =>
      l'.todo ≤ l.todo ∧ (l'.tokenType ≠ .endOfInput → l'.todo < l.todo) := by
  refine Ends.bind (c.peekToken_ends hn) ?_
  rintro l' ⟨hl',hle⟩
  refine Ends.pure ⟨Nat.le_trans l'.todo_consume_le hle,?_⟩
  intro ht
  exact Nat.lt_of_lt_of_le (Lexer.todo_consume_lt hl' ht) hle

private theorem consumeToken_peeked (hl : l.tokenConsumed = false)
    (ht : l.tokenType ≠ .endOfInput) :
    Ends Lexer.Stuck (c.consumeToken n l) fun l' => l'.todo < l.todo := by
  unfold consumeToken peekToken
  rw [if_neg (by simp [hl])]
  exact Ends.pure (Lexer.todo_consume_lt hl ht)

/-- A parser returns on every state with less to do than `b`, and leaves no more to do. -/
def Good (b : Nat) (p : Parser) : Prop :=
  ∀ l, l.todo < b → Ends Lexer.Stuck (p l) fun r => r.2.todo ≤ l.todo

private theorem parseBinary_good {operator : TokenType → Option OpKind} {operand : Parser}
    (hop : operator .endOfInput = none) (hb : b ≤ n) (h : Good b operand) :
    Good b (c.parseBinary n operator operand) := by
  intro l hl
  refine Ends.bind (h l hl) ?_
  rintro ⟨tree,l₁⟩ hl1
  cases tree with
  | none => exact Ends.pure hl1
  | some tree =>
    refine Ends.loop (fun s => s.2.todo ≤ l.todo) (fun s => s.2.todo) ?_ n (tree,l₁) hl1
      (by dsimp only at hl1 ⊢; omega)
    rintro ⟨treeL,l₂⟩ hl2
    dsimp only at hl2 ⊢
    refine Ends.bind (c.peekToken_ends (by omega)) ?_
    rintro l₃ ⟨hc3,hl3⟩
    cases hopr : operator l₃.tokenType with
    | none => exact Ends.pure (Nat.le_trans hl3 hl2)
    | some op =>
      have ht : l₃.tokenType ≠ .endOfInput := by
        intro ht
        rw [ht,hop] at hopr
        simp at hopr
      refine Ends.bind (c.consumeToken_peeked hc3 ht) ?_
      intro l4 hl4
      refine Ends.bind (h l4 (by omega)) ?_
      rintro ⟨treeR,l5⟩ hl5
      dsimp only at hl5
      cases treeR with
      | none => exact Ends.pure (by dsimp only [Sum.elim_inr]; omega)
      | some treeR => exact Ends.pure ⟨by dsimp only; omega,by dsimp only; omega⟩

section Collections

variable {expression : Parser}

private theorem parseItems_ends {isSeparator : TokenType → Bool} {closing : TokenType}
    (hsep : isSeparator .endOfInput = false) (hb : 2 * b < n) (h : Good b expression)
    (hl : l.todo < b) :
    Ends Lexer.Stuck (c.parseItems expression n isSeparator closing l) fun r =>
      r.2.todo ≤ l.todo := by
  refine Ends.bind (c.peekToken_ends (by omega)) ?_
  rintro l0 ⟨-,hl0⟩
  refine Ends.loop (fun s => s.2.2.todo ≤ l.todo)
    (fun s => 2 * s.2.2.todo + if s.2.1 = closing then 0 else 1) ?_ n _ hl0 ?_
  · rintro ⟨items,tt,l₁⟩ hl1
    dsimp only at hl1 ⊢
    split
    · refine Ends.bind (c.consumeToken_ends (by omega)) ?_
      rintro l₂ ⟨hl2,-⟩
      exact Ends.pure (Nat.le_trans hl2 hl1)
    · rename_i htt
      refine Ends.bind (h l₁ (by omega)) ?_
      rintro ⟨tree,l₂⟩ hl2
      dsimp only at hl2
      cases tree with
      | none => exact Ends.pure (Nat.le_trans hl2 hl1)
      | some tree =>
        refine Ends.bind (c.peekToken_ends (by omega)) ?_
        rintro l₃ ⟨hc3,hl3⟩
        split
        · rename_i hs
          have ht : l₃.tokenType ≠ .endOfInput := by
            intro ht
            rw [ht,hsep] at hs
            simp at hs
          refine Ends.bind (c.consumeToken_peeked hc3 ht) ?_
          intro l4 hl4
          refine Ends.pure ⟨by dsimp only; omega,?_⟩
          dsimp only
          split <;> omega
        · split
          · exact Ends.pure (by dsimp only [Sum.elim_inr]; omega)
          · rename_i hclose
            refine Ends.pure ⟨by dsimp only; omega,?_⟩
            dsimp only
            rw [if_pos (not_not.mp hclose)]
            omega
  · dsimp only
    split <;> omega

private theorem bracketed_ends {α : Type} {opening : TokenType}
    {x : Lexer → Watch Lexer (Option α × Lexer)} (hopening : opening ≠ .endOfInput)
    (hn : l.todo < n)
    (hx : ∀ l', l'.todo < l.todo → Ends Lexer.Stuck (x l') fun r => r.2.todo ≤ l'.todo) :
    Ends Lexer.Stuck (do
      let l ← c.consumeToken n l
      if l.tokenType ≠ opening then return (none,l) else x l) fun r => r.2.todo ≤ l.todo := by
  refine Ends.bind (c.consumeToken_ends hn) ?_
  rintro l₁ ⟨hl1,hlt1⟩
  split
  · exact Ends.pure hl1
  · rename_i hopen
    have hlt := hlt1 (by rwa [not_not.mp hopen])
    refine (hx l₁ hlt).mono ?_
    intro r hr
    exact Nat.le_trans hr hl1

private theorem parseArgumentList_ends (hb : 2 * b < n) (h : Good b expression)
    (hl : l.todo ≤ b) (hn : l.todo < n) :
    Ends Lexer.Stuck (c.parseArgumentList expression n l) fun r => r.2.todo ≤ l.todo :=
  c.bracketed_ends (by simp) hn fun _ hlt => c.parseItems_ends (by simp) hb h (by omega)

private theorem parseExprList_ends (hb : 2 * b < n) (h : Good b expression)
    (hl : l.todo ≤ b) (hn : l.todo < n) :
    Ends Lexer.Stuck (c.parseExprList expression n l) fun r => r.2.todo ≤ l.todo :=
  c.bracketed_ends (by simp) hn fun _ hlt => c.parseItems_ends (by simp) hb h (by omega)

private theorem slurpSemicolons_ends (hc : l.tokenConsumed = false) (hl : l.todo < n) :
    Ends Lexer.Stuck (c.slurpSemicolons n l) fun l' => l'.todo ≤ l.todo := by
  refine Ends.loop (fun m => m.tokenConsumed = false ∧ m.todo ≤ l.todo) Lexer.todo ?_ n l
    ⟨hc,Nat.le_refl _⟩ hl
  rintro m ⟨hm,hle⟩
  split
  · rename_i ht
    refine Ends.bind (c.consumeToken_peeked hm (by simp [ht])) ?_
    intro l₁ hl1
    refine Ends.bind (c.peekToken_ends (by omega)) ?_
    rintro l₂ ⟨hc2,hl2⟩
    exact Ends.pure ⟨⟨hc2,by omega⟩,by omega⟩
  · exact Ends.pure hle

private theorem parseAttribute_ends (hb : b ≤ n) (h : Good b expression)
    {ad : List (Name × ExprTree)} {tt : TokenType} (hl : l.todo < b) :
    Ends Lexer.Stuck (c.parseAttribute expression n (ad,tt,l))
      (Sum.elim (fun s => s.2.2.todo < l.todo) fun r => r.2.todo ≤ l.todo) := by
  have hstart := c.consumeToken_ends (n := n) (l := l) (by omega)
  unfold parseAttribute
  dsimp only
  split
  · refine Ends.bind hstart ?_
    rintro l₁ ⟨hl1,-⟩
    exact Ends.pure hl1
  · refine Ends.bind hstart ?_
    rintro l₁ ⟨hl1,hlt1⟩
    split
    · rename_i hsemi
      exact Ends.pure (hlt1 (by simp [hsemi]))
    · split
      · exact Ends.pure hl1
      · rename_i hid
        have hlt : l₁.todo < l.todo := hlt1 (by simp [not_not.mp hid])
        refine Ends.bind (c.consumeToken_ends (by omega)) ?_
        rintro l₂ ⟨hl2,-⟩
        split
        · exact Ends.pure (by dsimp only [Sum.elim_inr]; omega)
        · refine Ends.bind (h l₂ (by omega)) ?_
          rintro ⟨tree,l₃⟩ hl3
          dsimp only at hl3
          cases tree with
          | none => exact Ends.pure (by dsimp only [Sum.elim_inr]; omega)
          | some tree =>
            dsimp only
            split
            · exact Ends.pure (by dsimp only [Sum.elim_inr]; omega)
            · refine Ends.bind (c.peekToken_ends (by omega)) ?_
              rintro l4 ⟨hc4,hl4⟩
              split
              · exact Ends.pure (by dsimp only [Sum.elim_inr]; omega)
              · refine Ends.bind (c.slurpSemicolons_ends hc4 (by omega)) ?_
                intro l5 hl5
                exact Ends.pure (by dsimp only [Sum.elim_inl]; omega)

private theorem parseClassAd_ends (full : Bool) (hb : b < n) (h : Good b expression)
    (hl : l.todo ≤ b) :
    Ends Lexer.Stuck (c.parseClassAd expression n full l) fun r => r.2.todo ≤ l.todo := by
  refine Ends.bind (c.consumeToken_ends (by omega)) ?_
  rintro l₁ ⟨hl1,hlt1⟩
  split
  · exact Ends.pure hl1
  · rename_i hopen
    have hlt := hlt1 (by simp [not_not.mp hopen])
    refine Ends.bind (c.peekToken_ends (by omega)) ?_
    rintro l₂ ⟨-,hl2⟩
    have hloop : Ends Lexer.Stuck
        (Watch.loop (c.parseAttribute expression n) n ([],l₂.tokenType,l₂)) fun r =>
          r.2.todo ≤ l.todo := by
      refine Ends.loop (fun s => s.2.2.todo < l.todo) (fun s => s.2.2.todo) ?_ n _
        (Nat.lt_of_le_of_lt hl2 hlt) (by dsimp only; omega)
      rintro ⟨ad,tt,l₃⟩ hl3
      dsimp only at hl3 ⊢
      refine (c.parseAttribute_ends (Nat.le_of_lt hb) h (by omega)).mono ?_
      rintro (s | r) hr
      · exact ⟨Nat.lt_trans hr hl3,hr⟩
      · exact Nat.le_of_lt (Nat.lt_of_le_of_lt hr hl3)
    refine Ends.bind hloop ?_
    rintro ⟨ad,l₃⟩ hl3
    dsimp only at hl3
    cases ad with
    | none => exact Ends.pure hl3
    | some ad =>
      dsimp only
      split
      · refine Ends.bind (c.consumeToken_ends (by omega)) ?_
        rintro l4 ⟨hl4,-⟩
        split
        · exact Ends.pure (Nat.le_trans hl4 hl3)
        · exact Ends.pure (Nat.le_trans hl4 hl3)
      · exact Ends.pure hl3

private theorem parsePrimaryExpression_good (hb : 2 * b < n) (h : Good b expression) :
    Good (b + 1) (c.parsePrimaryExpression expression n) := by
  intro l hl
  refine Ends.bind (c.peekToken_ends (by omega)) ?_
  rintro l₁ ⟨hc1,hl1⟩
  have hliteral (ht : l₁.tokenType ≠ .endOfInput) (tree : ExprTree) :
      Ends Lexer.Stuck (do
        let l ← c.consumeToken n l₁
        return (some tree,l)) fun r => r.2.todo ≤ l.todo := by
    refine Ends.bind (c.consumeToken_peeked hc1 ht) ?_
    intro l₂ hl2
    exact Ends.pure (by dsimp only; omega)
  cases ht : l₁.tokenType with
  | identifier =>
    refine Ends.bind (c.consumeToken_peeked hc1 (by simp [ht])) ?_
    intro l₂ hl2
    refine Ends.bind (c.peekToken_ends (by omega)) ?_
    rintro l₃ ⟨-,hl3⟩
    split
    · refine Ends.bind (c.parseArgumentList_ends hb h (by omega) (by omega)) ?_
      rintro ⟨args,l4⟩ hl4
      dsimp only at hl4
      cases args with
      | none | some => exact Ends.pure (by dsimp only; omega)
    · exact Ends.pure (by dsimp only; omega)
  | selection =>
    refine Ends.bind (c.consumeToken_peeked hc1 (by simp [ht])) ?_
    intro l₂ hl2
    refine Ends.bind (c.consumeToken_ends (by omega)) ?_
    rintro l₃ ⟨hl3,-⟩
    split
    · exact Ends.pure (by dsimp only; omega)
    · exact Ends.pure (by dsimp only; omega)
  | openParen =>
    refine Ends.bind (c.consumeToken_peeked hc1 (by simp [ht])) ?_
    intro l₂ hl2
    refine Ends.bind (h l₂ (by omega)) ?_
    rintro ⟨tree,l₃⟩ hl3
    dsimp only at hl3
    cases tree with
    | none => exact Ends.pure (by dsimp only; omega)
    | some tree =>
      refine Ends.bind (c.consumeToken_ends (by omega)) ?_
      rintro l4 ⟨hl4,-⟩
      split
      · exact Ends.pure (by dsimp only; omega)
      · exact Ends.pure (by dsimp only; omega)
  | openBox =>
    refine Ends.bind (c.parseClassAd_ends false (by omega) h (by omega)) ?_
    rintro ⟨ad,l₂⟩ hl2
    exact Ends.pure (by dsimp only at hl2 ⊢; omega)
  | openBrace =>
    refine Ends.bind (c.parseExprList_ends hb h (by omega) (by omega)) ?_
    rintro ⟨list,l₂⟩ hl2
    exact Ends.pure (by dsimp only at hl2 ⊢; omega)
  | undefinedValue | errorValue | booleanValue | integerValue | realValue
  | stringValue => exact hliteral (by simp [ht]) _
  | _ => exact Ends.pure hl1

private theorem parsePostfixExpression_good (hb : 2 * b < n) (h : Good b expression) :
    Good (b + 1) (c.parsePostfixExpression expression n) := by
  intro l hl
  refine Ends.bind (c.parsePrimaryExpression_good hb h l hl) ?_
  rintro ⟨tree,l₁⟩ hl1
  cases tree with
  | none => exact Ends.pure hl1
  | some tree =>
    refine Ends.loop (fun s => s.2.todo ≤ l.todo) (fun s => s.2.todo) ?_ n (tree,l₁) hl1
      (by dsimp only at hl1 ⊢; omega)
    rintro ⟨treeL,l₂⟩ hl2
    dsimp only at hl2 ⊢
    refine Ends.bind (c.peekToken_ends (by omega)) ?_
    rintro l₃ ⟨hc3,hl3⟩
    split
    · rename_i ht
      refine Ends.bind (c.consumeToken_peeked hc3 (by simp [ht])) ?_
      intro l4 hl4
      refine Ends.bind (h l4 (by omega)) ?_
      rintro ⟨treeR,l5⟩ hl5
      dsimp only at hl5
      cases treeR with
      | none => exact Ends.pure (by dsimp only [Sum.elim_inr]; omega)
      | some treeR =>
        refine Ends.bind (c.consumeToken_ends (by omega)) ?_
        rintro l6 ⟨hl6,-⟩
        split
        · exact Ends.pure ⟨by dsimp only; omega,by dsimp only; omega⟩
        · exact Ends.pure (by dsimp only [Sum.elim_inr]; omega)
    · split
      · rename_i ht
        refine Ends.bind (c.consumeToken_peeked hc3 (by simp [ht])) ?_
        intro l4 hl4
        refine Ends.bind (c.consumeToken_ends (by omega)) ?_
        rintro l5 ⟨hl5,-⟩
        split
        · exact Ends.pure (by dsimp only [Sum.elim_inr]; omega)
        · exact Ends.pure ⟨by dsimp only; omega,by dsimp only; omega⟩
      · exact Ends.pure (Nat.le_trans hl3 hl2)

private theorem parseUnaryExpression_good (hb : 2 * b < n) (h : Good b expression) :
    ∀ (k d : Nat), d ≤ k → d ≤ b + 1 → Good d (c.parseUnaryExpression expression n k) := by
  intro k
  induction k with
  | zero => intro d hd _ l hl; omega
  | succ k ih =>
    intro d hd hdb l hl
    refine Ends.bind (c.peekToken_ends (by omega)) ?_
    rintro l₁ ⟨hc1,hl1⟩
    cases hop : unaryOperator l₁.tokenType with
    | none =>
      refine (c.parsePostfixExpression_good hb h l₁ (by omega)).mono ?_
      intro r hr
      exact Nat.le_trans hr hl1
    | some op =>
      have ht : l₁.tokenType ≠ .endOfInput := by
        intro ht
        simp [ht,unaryOperator] at hop
      refine Ends.bind (c.consumeToken_peeked hc1 ht) ?_
      intro l₂ hl2
      refine Ends.bind (ih (d - 1) (by omega) (by omega) l₂ (by omega)) ?_
      rintro ⟨tree,l₃⟩ hl3
      dsimp only at hl3
      cases tree with
      | none | some => exact Ends.pure (by dsimp only; omega)

private theorem parseLogicalORExpression_good (hb : 2 * b < n) (h : Good b expression) :
    Good (b + 1) (c.parseLogicalORExpression expression n) := by
  have hn : b + 1 ≤ n := by omega
  have hunary : Good (b + 1) (c.parseUnaryExpression expression n n) :=
    c.parseUnaryExpression_good hb h n (b + 1) hn (Nat.le_refl _)
  have hadd : Good (b + 1) (c.parseAdditiveExpression expression n) :=
    c.parseBinary_good rfl hn (c.parseBinary_good rfl hn hunary)
  have heq : Good (b + 1) (c.parseEqualityExpression expression n) :=
    c.parseBinary_good rfl hn (c.parseBinary_good rfl hn (c.parseBinary_good rfl hn hadd))
  have hor : Good (b + 1) (c.parseInclusiveORExpression expression n) :=
    c.parseBinary_good rfl hn (c.parseBinary_good rfl hn (c.parseBinary_good rfl hn heq))
  exact c.parseBinary_good rfl hn (c.parseBinary_good rfl hn hor)

private theorem parseTernary_ends (full : Bool) (hb : 2 * b < n) (h : Good b expression)
    (hl : l.todo < b + 1) :
    Ends Lexer.Stuck (c.parseTernary expression n full l) fun r => r.2.2.todo ≤ l.todo := by
  refine Ends.bind (c.parseLogicalORExpression_good hb h l hl) ?_
  rintro ⟨tree,l₁⟩ hl1
  dsimp only at hl1
  cases tree with
  | none => exact Ends.pure hl1
  | some tree =>
    refine Ends.bind (c.peekToken_ends (by omega)) ?_
    rintro l₂ ⟨hc2,hl2⟩
    split
    · rename_i ht
      refine Ends.bind (c.consumeToken_peeked hc2 (by simp [ht])) ?_
      intro l₃ hl3
      refine Ends.bind (h l₃ (by omega)) ?_
      rintro ⟨treeM,l4⟩ hl4
      dsimp only at hl4 ⊢
      refine Ends.bind (c.consumeToken_ends (by omega)) ?_
      rintro l5 ⟨hl5,-⟩
      split
      · exact Ends.pure (by dsimp only; omega)
      · refine Ends.bind (h l5 (by omega)) ?_
        rintro ⟨treeR,l6⟩ hl6
        dsimp only at hl6 ⊢
        split
        · exact Ends.pure (by dsimp only; omega)
        · exact Ends.pure (by dsimp only; omega)
    · split
      · refine Ends.bind (c.consumeToken_ends (by omega)) ?_
        rintro l₃ ⟨hl3,-⟩
        exact Ends.pure (by dsimp only; omega)
      · exact Ends.pure (by dsimp only; omega)

end Collections

private theorem parseExpression_ends : ∀ (k b : Nat) (full : Bool) {l : Lexer}, b ≤ k → 2 * b < n →
    l.todo < b →
    Ends Lexer.Stuck (c.parseExpression n k full l) fun r => r.2.2.todo ≤ l.todo := by
  intro k
  induction k with
  | zero => intro b full l hb _ hl; omega
  | succ k ih =>
    intro b full l hb hn hl
    have hgood : Good (b - 1) fun l => (·.2) <$> c.parseExpression n k false l := by
      intro m hm
      exact Ends.map (ih (b - 1) false (by omega) (by omega) hm)
    exact c.parseTernary_ends full (by omega) hgood (by omega)

def fuelFor (source : LexerSource) : Nat := 4 * source.after.length + 3

theorem todo_initializeFrom (tt : TokenType) (source : LexerSource) :
    (Lexer.initializeFrom tt source).todo ≤ 2 * source.after.length := by
  have hahead : (Lexer.initializeFrom tt source).ahead = source.rest :=
    Lexer.ahead_advance { Lexer.initializeFrom tt source with source := source }
  have htext : weight source.rest ≤ weight source.after :=
    weight_mono (List.takeWhile_sublist _)
  have hcount : source.after.count '=' ≤ source.after.length := List.count_le_length
  have htodo : (Lexer.initializeFrom tt source).todo = weight source.rest := by
    rw [Lexer.todo,hahead]
    rfl
  rw [htodo]
  unfold weight at htext ⊢
  omega

/-- With enough fuel, the parsers return on every text, from every source and after every earlier
parse, exactly if no token is asked for behind a C comment that is left open. -/
theorem parse_returns_iff (tt : TokenType) (source : LexerSource) (full : Bool)
    (hn : fuelFor source ≤ n) :
    ((c.parseExpressionFrom n tt source full).value.isSome ↔
      ∀ l ∈ (c.parseExpressionFrom n tt source full).seen, ¬ l.Stuck) ∧
    ((c.parseClassAdFrom n tt source full).value.isSome ↔
      ∀ l ∈ (c.parseClassAdFrom n tt source full).seen, ¬ l.Stuck) := by
  have htodo := todo_initializeFrom tt source
  unfold fuelFor at hn
  constructor
  · have hends : Ends Lexer.Stuck (c.parseExpressionFrom n tt source full) fun _ => True := by
      refine Ends.bind (c.parseExpression_ends n (2 * source.after.length + 1) full (by omega)
        (by omega) (by omega)) ?_
      rintro ⟨success,tree,l⟩ _
      exact Ends.pure trivial
    exact hends.returns_iff
  · have hgood : Good (2 * source.after.length + 1) fun l =>
        (·.2) <$> c.parseExpression n n false l := by
      intro l hl
      exact Ends.map (c.parseExpression_ends n _ false (by omega) (by omega) hl)
    have hends : Ends Lexer.Stuck (c.parseClassAdFrom n tt source full) fun _ => True := by
      refine Ends.bind (c.parseClassAd_ends full (by omega) hgood (by omega)) ?_
      rintro ⟨ad,l⟩ _
      dsimp only
      split
      · exact Ends.pure trivial
      · exact Ends.pure trivial
    exact hends.returns_iff

def plain : Surroundings := ⟨false,fun _ => .error,fun _ => .error⟩

/-- A text with comments that are closed, and an ad with one. -/
theorem parse_returns_iff_closed :
    (((plain.parseExpressionFrom 100 .endOfInput
        (.ofText .file "a /* b */ + 1".toList) true).value.isSome ↔
      ∀ l ∈ (plain.parseExpressionFrom 100 .endOfInput
        (.ofText .file "a /* b */ + 1".toList) true).seen, ¬ l.Stuck) ∧
    ((plain.parseClassAdFrom 100 .endOfInput
        (.ofText .file "a /* b */ + 1".toList) true).value.isSome ↔
      ∀ l ∈ (plain.parseClassAdFrom 100 .endOfInput
        (.ofText .file "a /* b */ + 1".toList) true).seen, ¬ l.Stuck)) ∧
    ∀ l ∈ (plain.parseExpressionFrom 100 .endOfInput
      (.ofText .file "a /* b */ + 1".toList) true).seen, ¬ l.Stuck :=
  ⟨parse_returns_iff plain .endOfInput (.ofText .file "a /* b */ + 1".toList) true (by decide),
    by decide⟩

private theorem parseBinary_stuck {operator : TokenType → Option OpKind} {operand : Parser}
    (h : (operand l).value = none) : (c.parseBinary n operator operand l).value = none :=
  value_bind_of_none h

theorem parseExpression_stuck (h : (c.peekToken n l).value = none) (k : Nat)
    (full : Bool) : (c.parseExpression n k full l).value = none := by
  cases k with
  | zero => rfl
  | succ k =>
    refine value_bind_of_none ?_
    have hunary (expression : Parser) :
        (c.parseUnaryExpression expression n n l).value = none := by
      cases n with
      | zero => rfl
      | succ n => exact value_bind_of_none h
    have hadd (expression : Parser) : (c.parseAdditiveExpression expression n l).value = none :=
      c.parseBinary_stuck (c.parseBinary_stuck (hunary expression))
    have heq (expression : Parser) : (c.parseEqualityExpression expression n l).value = none :=
      c.parseBinary_stuck (c.parseBinary_stuck (c.parseBinary_stuck (hadd expression)))
    have hor (expression : Parser) : (c.parseInclusiveORExpression expression n l).value = none :=
      c.parseBinary_stuck (c.parseBinary_stuck (c.parseBinary_stuck (heq expression)))
    exact c.parseBinary_stuck (c.parseBinary_stuck (hor _))

/-- `/*` and nothing more: with no amount of fuel does the parser return. -/
theorem parse_stuck_in_comment :
    ¬ ∃ n, (plain.parseExpressionFrom n .endOfInput (.ofText .string "/*".toList)
    true).value.isSome := by
  rintro ⟨n,h⟩
  have hlexer : Lexer.nextToken false n
      (Lexer.initializeFrom .endOfInput (.ofText .string ['/','*'])) = none := by
    cases n with
    | zero => rfl
    | succ n =>
      rw [Lexer.nextToken,Lexer.skipBlank,Lexer.skipRound_open (n + 1) rfl rfl]
  have hnone : (plain.parseExpressionFrom n .endOfInput (.ofText .string "/*".toList) true).value =
      none := by
    refine value_bind_of_none (plain.parseExpression_stuck ?_ n true)
    exact hlexer
  rw [hnone] at h
  cases h

end Surroundings

end Condor.ClassAds
