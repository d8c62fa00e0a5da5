import Condor.ClassAds.Lexer

/-!
# The grammar of expressions

The grammar that the comments of the parser document, over the types of the tokens.
-/

namespace Condor.ClassAds

/-- The operators of the levels from `LogicalORExpression` to `MultiplicativeExpression`. -/
def operatorLevels : List (List TokenType) :=
  [[.logicalOr],[.logicalAnd],[.bitwiseOr],[.bitwiseXor],[.bitwiseAnd],
    [.equal,.notEqual,.metaEqual,.metaNotEqual],
    [.lessThan,.greaterThan,.lessOrEqual,.greaterOrEqual],
    [.leftShift,.rightShift,.urightShift],[.plus,.minus],[.multiply,.divide,.modulus]]

def isUnaryOperator : TokenType → Bool
  | .minus | .plus | .bitwiseNot | .logicalNot => true
  | _ => false

def isLiteral : TokenType → Bool
  | .booleanValue | .undefinedValue | .errorValue | .stringValue | .integerValue
  | .realValue => true
  | _ => false

inductive Phrase
  | expression
  | level (k : Nat)
  | unaryExpression | postfixExpression | primaryExpression
  | arguments | expressions | attributes

inductive Derives (oldSemantics : Bool) : Phrase → List TokenType → Prop
  | plain {ts : List TokenType} : Derives oldSemantics (.level 0) ts →
      Derives oldSemantics .expression ts
  | conditional {ts tm tr : List TokenType} : Derives oldSemantics (.level 0) ts →
      Derives oldSemantics .expression tm → Derives oldSemantics .expression tr →
      Derives oldSemantics .expression (ts ++ .qmark :: (tm ++ .colon :: tr))
  | operand {k : Nat} {ts : List TokenType} : Derives oldSemantics (.level (k + 1)) ts →
      Derives oldSemantics (.level k) ts
  | operation {k : Nat} {ops : List TokenType} {t : TokenType} {ts ts' : List TokenType} :
      operatorLevels[k]? = some ops → t ∈ ops → Derives oldSemantics (.level k) ts →
      Derives oldSemantics (.level (k + 1)) ts' →
      Derives oldSemantics (.level k) (ts ++ t :: ts')
  | unary {ts : List TokenType} : Derives oldSemantics .unaryExpression ts →
      Derives oldSemantics (.level operatorLevels.length) ts
  | signed {t : TokenType} {ts : List TokenType} : isUnaryOperator t = true →
      Derives oldSemantics .unaryExpression ts → Derives oldSemantics .unaryExpression (t :: ts)
  | unsigned {ts : List TokenType} : Derives oldSemantics .postfixExpression ts →
      Derives oldSemantics .unaryExpression ts
  | primary {ts : List TokenType} : Derives oldSemantics .primaryExpression ts →
      Derives oldSemantics .postfixExpression ts
  | selected {ts : List TokenType} : Derives oldSemantics .postfixExpression ts →
      Derives oldSemantics .postfixExpression (ts ++ [.selection,.identifier])
  | subscript {ts ts' : List TokenType} : Derives oldSemantics .postfixExpression ts →
      Derives oldSemantics .expression ts' →
      Derives oldSemantics .postfixExpression (ts ++ .openBox :: (ts' ++ [.closeBox]))
  | identifier : Derives oldSemantics .primaryExpression [.identifier]
  | absolute : Derives oldSemantics .primaryExpression [.selection,.identifier]
  | literal {t : TokenType} : isLiteral t = true → Derives oldSemantics .primaryExpression [t]
  | parentheses {ts : List TokenType} : Derives oldSemantics .expression ts →
      Derives oldSemantics .primaryExpression (.openParen :: (ts ++ [.closeParen]))
  | emptyCall : Derives oldSemantics .primaryExpression [.identifier,.openParen,.closeParen]
  | call {ts : List TokenType} : Derives oldSemantics .arguments ts →
      Derives oldSemantics .primaryExpression
        (.identifier :: .openParen :: (ts ++ [.closeParen]))
  | emptyList : Derives oldSemantics .primaryExpression [.openBrace,.closeBrace]
  | list {ts : List TokenType} : Derives oldSemantics .expressions ts →
      Derives oldSemantics .primaryExpression (.openBrace :: (ts ++ [.closeBrace]))
  | emptyAd : Derives oldSemantics .primaryExpression [.openBox,.closeBox]
  | ad {ts : List TokenType} : Derives oldSemantics .attributes ts →
      Derives oldSemantics .primaryExpression (.openBox :: (ts ++ [.closeBox]))
  | argument {ts : List TokenType} : Derives oldSemantics .expression ts →
      Derives oldSemantics .arguments ts
  | nextArgument {t : TokenType} {ts ts' : List TokenType} :
      t = .comma ∨ (t = .semicolon ∧ oldSemantics = true) → Derives oldSemantics .arguments ts →
      Derives oldSemantics .expression ts' → Derives oldSemantics .arguments (ts ++ t :: ts')
  | item {ts : List TokenType} : Derives oldSemantics .expression ts →
      Derives oldSemantics .expressions ts
  | nextItem {ts ts' : List TokenType} : Derives oldSemantics .expressions ts →
      Derives oldSemantics .expression ts' →
      Derives oldSemantics .expressions (ts ++ .comma :: ts')
  | firstAttribute {ts : List TokenType} : Derives oldSemantics .expression ts →
      Derives oldSemantics .attributes (.identifier :: .boundTo :: ts)
  | leading {ts : List TokenType} : Derives oldSemantics .attributes ts →
      Derives oldSemantics .attributes (.semicolon :: ts)
  | trailing {ts : List TokenType} : Derives oldSemantics .attributes ts →
      Derives oldSemantics .attributes (ts ++ [.semicolon])
  | nextAttribute {ts ts' : List TokenType} : Derives oldSemantics .attributes ts →
      Derives oldSemantics .expression ts' →
      Derives oldSemantics .attributes (ts ++ .semicolon :: .identifier :: .boundTo :: ts')

inductive Opened
  | parenthesis | arguments | braces | subscript | ad | conditional
  deriving DecidableEq

/-- Where the next token stands: at an operand, an item of a list, an attribute or its `=`, the name
behind a dot, or behind an operand, which may be a name that arguments can follow. -/
inductive Place
  | operand | item | attribute | binding | name
  | behind (callable : Bool)
  deriving DecidableEq

abbrev ScanState := Place × List Opened

def binaryOperators : List TokenType := operatorLevels.flatten

def scanOperand (t : TokenType) (s : List Opened) : Option ScanState :=
  match t with
  | .identifier => some (.behind true,s)
  | .selection => some (.name,s)
  | .openParen => some (.operand,.parenthesis :: s)
  | .openBrace => some (.item,.braces :: s)
  | .openBox => some (.attribute,.ad :: s)
  | t =>
    if isLiteral t then some (.behind false,s)
    else if isUnaryOperator t then some (.operand,s)
    else none

def scanClosing : TokenType → List Opened → Option ScanState
  | .closeParen, .parenthesis :: s => some (.behind false,s)
  | .closeParen, .arguments :: s => some (.behind false,s)
  | .closeBrace, .braces :: s => some (.behind false,s)
  | .closeBox, .subscript :: s => some (.behind false,s)
  | .closeBox, .ad :: s => some (.behind false,s)
  | _, _ => none

def scanBehind (oldSemantics callable : Bool) (t : TokenType) (s : List Opened) :
    Option ScanState :=
  if t ∈ binaryOperators then some (.operand,s)
  else
    match t, s with
    | .qmark, s => some (.operand,.conditional :: s)
    | .selection, s => some (.name,s)
    | .openBox, s => some (.operand,.subscript :: s)
    | .openParen, s => if callable then some (.item,.arguments :: s) else none
    | .colon, .conditional :: s => some (.operand,s)
    | .comma, .arguments :: s => some (.operand,.arguments :: s)
    | .comma, .braces :: s => some (.operand,.braces :: s)
    | .semicolon, .ad :: s => some (.attribute,.ad :: s)
    | .semicolon, .arguments :: s =>
      if oldSemantics then some (.operand,.arguments :: s) else none
    | t, s => scanClosing t s

def scanToken (oldSemantics : Bool) : ScanState → TokenType → Option ScanState
  | (.operand,s), t => scanOperand t s
  | (.item,s), t => (scanOperand t s).orElse fun _ => scanClosing t s
  | (.attribute,s), .semicolon => some (.attribute,s)
  | (.attribute,s), .identifier => some (.binding,s)
  | (.attribute,s), .closeBox => scanClosing .closeBox s
  | (.binding,s), .boundTo => some (.operand,s)
  | (.name,s), .identifier => some (.behind false,s)
  | (.behind callable,s), t => scanBehind oldSemantics callable t s
  | _, _ => none

def scanTokens (oldSemantics : Bool) : ScanState → List TokenType → Option ScanState
  | s, [] => some s
  | s, t :: ts => (scanToken oldSemantics s t).bind fun s => scanTokens oldSemantics s ts

variable {o : Bool}

theorem scanTokens_append (s : ScanState) (ts ts' : List TokenType) :
    scanTokens o s (ts ++ ts') = (scanTokens o s ts).bind fun s => scanTokens o s ts' := by
  induction ts generalizing s with
  | nil => rfl
  | cons t ts ih =>
    simp only [List.cons_append,scanTokens]
    cases scanToken o s t with
    | none => rfl
    | some s' => exact ih s'

theorem scanTokens_then {s s' : ScanState} {ts : List TokenType}
    (h : scanTokens o s ts = some s') (ts' : List TokenType) :
    scanTokens o s (ts ++ ts') = scanTokens o s' ts' := by
  rw [scanTokens_append,h]
  rfl

def Operand (o : Bool) (ts : List TokenType) (callable : Bool) : Prop :=
  ∀ s, scanTokens o (.operand,s) ts = some (.behind callable,s)

variable {t : TokenType}

private theorem scanBehind_operator (h : t ∈ binaryOperators) (callable : Bool)
    (s : List Opened) : scanToken o (.behind callable,s) t = some (.operand,s) := by
  change scanBehind o callable t s = _
  unfold scanBehind
  rw [if_pos h]

private theorem scanTokens_item {ts : List TokenType} {callable : Bool} (h : Operand o ts callable)
    (s : List Opened) : scanTokens o (.item,s) ts = some (.behind callable,s) := by
  cases ts with
  | nil => exact absurd (h s) (by simp [scanTokens])
  | cons t ts =>
    have hs := h s
    simp only [scanTokens,scanToken] at hs ⊢
    cases hop : scanOperand t s with
    | none => rw [hop] at hs; cases hs
    | some s' => rw [hop] at hs; exact hs

/-! The phrases that are operands, by their parts. -/

namespace Operand

variable {ts ts' tm tr : List TokenType} {a b d : Bool}

theorem operation (ht : t ∈ binaryOperators) (h : Operand o ts a)
    (h' : Operand o ts' b) : Operand o (ts ++ t :: ts') b := by
  intro s
  rw [scanTokens_then (h s),scanTokens,scanBehind_operator ht]
  exact h' s

theorem conditional (h : Operand o ts a) (hm : Operand o tm b) (hr : Operand o tr d) :
    Operand o (ts ++ .qmark :: (tm ++ .colon :: tr)) d := by
  intro s
  rw [scanTokens_then (h s)]
  change scanTokens o (.operand,.conditional :: s) (tm ++ .colon :: tr) = _
  rw [scanTokens_then (hm _)]
  exact hr s

theorem signed (ht : isUnaryOperator t = true) (h : Operand o ts a) :
    Operand o (t :: ts) a := by
  intro s
  have hstep : scanToken o (.operand,s) t = some (.operand,s) := by
    cases t <;> first | rfl | simp [isUnaryOperator] at ht
  rw [scanTokens,hstep]
  exact h s

theorem selected (h : Operand o ts a) : Operand o (ts ++ [.selection,.identifier]) false := by
  intro s
  rw [scanTokens_then (h s)]
  rfl

theorem subscript (h : Operand o ts a) (h' : Operand o ts' b) :
    Operand o (ts ++ .openBox :: (ts' ++ [.closeBox])) false := by
  intro s
  rw [scanTokens_then (h s)]
  change scanTokens o (.operand,.subscript :: s) (ts' ++ [.closeBox]) = _
  rw [scanTokens_then (h' _)]
  rfl

theorem literal (ht : isLiteral t = true) : Operand o [t] false := by
  intro s
  cases t <;> first | rfl | simp [isLiteral] at ht

theorem parentheses (h : Operand o ts a) :
    Operand o (.openParen :: (ts ++ [.closeParen])) false := by
  intro s
  change scanTokens o (.operand,.parenthesis :: s) (ts ++ [.closeParen]) = _
  rw [scanTokens_then (h _)]
  rfl

end Operand

def Scanned (o : Bool) : Phrase → List TokenType → Prop
  | .arguments, ts => ∀ s, ∃ b,
      scanTokens o (.item,.arguments :: s) ts = some (.behind b,.arguments :: s)
  | .expressions, ts => ∀ s, ∃ b,
      scanTokens o (.item,.braces :: s) ts = some (.behind b,.braces :: s)
  | .attributes, ts => ∀ s, scanTokens o (.attribute,.ad :: s) (ts ++ [.closeBox]) =
      some (.behind false,s) ∧
      scanTokens o (.attribute,.ad :: s) (ts ++ [.semicolon]) = some (.attribute,.ad :: s)
  | _, ts => ∃ b, Operand o ts b

private theorem operand_call {ts : List TokenType} (h : Scanned o .arguments ts) :
    Operand o (.identifier :: .openParen :: (ts ++ [.closeParen])) false := by
  intro s
  obtain ⟨b,h⟩ := h s
  change scanTokens o (.item,.arguments :: s) (ts ++ [.closeParen]) = _
  rw [scanTokens_then h]
  rfl

private theorem operand_list {ts : List TokenType} (h : Scanned o .expressions ts) :
    Operand o (.openBrace :: (ts ++ [.closeBrace])) false := by
  intro s
  obtain ⟨b,h⟩ := h s
  change scanTokens o (.item,.braces :: s) (ts ++ [.closeBrace]) = _
  rw [scanTokens_then h]
  rfl

private theorem scanTokens_attribute {ts : List TokenType} {a : Bool} (h : Operand o ts a)
    (s : List Opened) :
    scanTokens o (.attribute,.ad :: s) (.identifier :: .boundTo :: (ts ++ [.closeBox])) =
      some (.behind false,s) ∧
    scanTokens o (.attribute,.ad :: s) (.identifier :: .boundTo :: (ts ++ [.semicolon])) =
      some (.attribute,.ad :: s) := by
  constructor
  · change scanTokens o (.operand,.ad :: s) (ts ++ [.closeBox]) = _
    rw [scanTokens_then (h _)]
    rfl
  · change scanTokens o (.operand,.ad :: s) (ts ++ [.semicolon]) = _
    rw [scanTokens_then (h _)]
    rfl

private theorem scanTokens_nextItem {p : Opened} {ts ts' : List TokenType} {a b : Bool}
    {s : List Opened} (h : scanTokens o (.item,p :: s) ts = some (.behind a,p :: s))
    (ht : scanBehind o a t (p :: s) = some (.operand,p :: s)) (h' : Operand o ts' b) :
    scanTokens o (.item,p :: s) (ts ++ t :: ts') = some (.behind b,p :: s) := by
  rw [scanTokens_then h,scanTokens]
  change (scanBehind o a t (p :: s)).bind _ = _
  rw [ht]
  exact h' _

theorem mem_binaryOperators {k : Nat} {ops : List TokenType}
    (hk : operatorLevels[k]? = some ops) (ht : t ∈ ops) : t ∈ binaryOperators :=
  List.mem_flatten.mpr ⟨ops,List.mem_of_getElem? hk,ht⟩

private theorem scanned_of_derives {p : Phrase} {ts : List TokenType} (h : Derives o p ts) :
    Scanned o p ts := by
  induction h with
  | plain _ ih | operand _ ih | unary _ ih | unsigned _ ih | primary _ ih => exact ih
  | conditional _ _ _ ih ihm ihr =>
    obtain ⟨a,h⟩ := ih
    obtain ⟨b,hm⟩ := ihm
    obtain ⟨d,hr⟩ := ihr
    exact ⟨d,h.conditional hm hr⟩
  | operation hk ht _ _ ih ih' =>
    obtain ⟨a,h⟩ := ih
    obtain ⟨b,h'⟩ := ih'
    exact ⟨b,h.operation (mem_binaryOperators hk ht) h'⟩
  | signed ht _ ih =>
    obtain ⟨a,h⟩ := ih
    exact ⟨a,h.signed ht⟩
  | selected _ ih =>
    obtain ⟨a,h⟩ := ih
    exact ⟨false,h.selected⟩
  | subscript _ _ ih ih' =>
    obtain ⟨a,h⟩ := ih
    obtain ⟨b,h'⟩ := ih'
    exact ⟨false,h.subscript h'⟩
  | identifier => exact ⟨true,fun _ => rfl⟩
  | absolute | emptyCall | emptyList | emptyAd => exact ⟨false,fun _ => rfl⟩
  | literal ht => exact ⟨false,Operand.literal ht⟩
  | parentheses _ ih =>
    obtain ⟨a,h⟩ := ih
    exact ⟨false,h.parentheses⟩
  | call _ ih => exact ⟨false,operand_call ih⟩
  | list _ ih => exact ⟨false,operand_list ih⟩
  | ad _ ih => exact ⟨false,fun s => (ih s).1⟩
  | argument _ ih | item _ ih =>
    obtain ⟨a,h⟩ := ih
    exact fun s => ⟨a,scanTokens_item h _⟩
  | nextArgument ht _ _ ih ih' =>
    obtain ⟨b,h'⟩ := ih'
    intro s
    obtain ⟨a,h⟩ := ih s
    refine ⟨b,scanTokens_nextItem h ?_ h'⟩
    rcases ht with rfl | ⟨rfl,ho⟩
    · rfl
    · subst ho
      rfl
  | nextItem _ _ ih ih' =>
    obtain ⟨b,h'⟩ := ih'
    intro s
    obtain ⟨a,h⟩ := ih s
    exact ⟨b,scanTokens_nextItem h rfl h'⟩
  | firstAttribute _ ih =>
    obtain ⟨a,h⟩ := ih
    exact fun s => scanTokens_attribute h s
  | leading _ ih => exact fun s => ih s
  | trailing _ ih =>
    intro s
    rw [scanTokens_then (ih s).2,scanTokens_then (ih s).2]
    exact ⟨rfl,rfl⟩
  | @nextAttribute ts ts' _ _ ih ih' =>
    obtain ⟨b,h'⟩ := ih'
    intro s
    have hsplit : ∀ t : TokenType, (ts ++ .semicolon :: .identifier :: .boundTo :: ts') ++ [t] =
        (ts ++ [.semicolon]) ++ (.identifier :: .boundTo :: (ts' ++ [t])) := by
      intro t
      simp
    rw [hsplit,hsplit,scanTokens_then (ih s).2,scanTokens_then (ih s).2]
    exact scanTokens_attribute h' s

/-! The brackets with what they enclose, which may be nothing. -/

theorem derives_call {ts : List TokenType} (h : ts = [] ∨ Derives o .arguments ts) :
    Derives o .primaryExpression (.identifier :: .openParen :: (ts ++ [.closeParen])) ∧
      Operand o (.identifier :: .openParen :: (ts ++ [.closeParen])) false := by
  rcases h with rfl | h
  · exact ⟨.emptyCall,fun _ => rfl⟩
  · exact ⟨.call h,operand_call (scanned_of_derives h)⟩

theorem derives_list {ts : List TokenType} (h : ts = [] ∨ Derives o .expressions ts) :
    Derives o .primaryExpression (.openBrace :: (ts ++ [.closeBrace])) ∧
      Operand o (.openBrace :: (ts ++ [.closeBrace])) false := by
  rcases h with rfl | h
  · exact ⟨.emptyList,fun _ => rfl⟩
  · exact ⟨.list h,operand_list (scanned_of_derives h)⟩

theorem derives_ad {ts : List TokenType} (h : ts = [] ∨ Derives o .attributes ts) :
    Derives o .primaryExpression (.openBox :: (ts ++ [.closeBox])) ∧
      Operand o (.openBox :: (ts ++ [.closeBox])) false := by
  rcases h with rfl | h
  · exact ⟨.emptyAd,fun _ => rfl⟩
  · exact ⟨.ad h,fun s => (scanned_of_derives h s).1⟩

def Viable (oldSemantics : Bool) (ts : List TokenType) : Prop :=
  (scanTokens oldSemantics (.operand,[]) ts).isSome
deriving Decidable

theorem viable_of_derives {ts ts' : List TokenType} (h : Derives o .expression (ts ++ ts')) :
    Viable o ts := by
  obtain ⟨b,h⟩ := scanned_of_derives h
  have hs := h []
  rw [scanTokens_append] at hs
  unfold Viable
  cases hts : scanTokens o (.operand,[]) ts with
  | none => rw [hts] at hs; cases hs
  | some s => rfl

end Condor.ClassAds
