import Condor.Lib.Watch
import Condor.ClassAds.Lexer

/-!
# The parser

A recursive descent with fuel. The lexer states in which a new token is asked for are recorded,
since a call of the lexer may not return.
-/

namespace Condor.ClassAds

open Lib (Watch)

abbrev Name := List Char

inductive Value
  | undefined | error
  | boolean (b : Bool)
  | integer (i : Int)
  | real (r : Double)
  | string (s : List Char)
  | absTime (secs offset : Int)
  | relTime (secs : Double)
  deriving DecidableEq

/-- `Operation::OpKind`. -/
inductive OpKind
  | lessThan | lessOrEqual | notEqual | equal | greaterOrEqual | greaterThan
  | metaEqual | metaNotEqual
  | unaryPlus | unaryMinus | addition | subtraction | multiplication | division | modulus
  | logicalNot | logicalOr | logicalAnd
  | bitwiseNot | bitwiseOr | bitwiseXor | bitwiseAnd | leftShift | rightShift | urightShift
  | parentheses | subscript | ternary
  deriving DecidableEq

/-- What the parser makes; `Expr` is what is evaluated, its numbers those of any doubles. -/
inductive ExprTree
  | literal (value : Value) (factor : NumberFactor)
  | attrRef (attr : Name) (absolute : Bool)
  | select (expr : ExprTree) (attr : Name)
  | op1 (op : OpKind) (t : ExprTree)
  | op2 (op : OpKind) (t1 t2 : ExprTree)
  | op3 (op : OpKind) (t1 t2 t3 : ExprTree)
  | fnCall (name : Name) (args : List ExprTree)
  | exprList (exprs : List ExprTree)
  | classAd (attrs : List (Name × ExprTree))

/-- What the parser takes from its surroundings: the flag `_useOldClassAdSemantics`, and the
literals of times. -/
structure Surroundings where
  oldSemantics : Bool
  makeAbsTime : List Char → Value
  makeRelTime : List Char → Value

abbrev Parser := Lexer → Watch Lexer (Option ExprTree × Lexer)

/-- `ClassAd::Insert`: an attribute that is there, under any spelling, gets the new
expression. -/
def insertAttr (ad : List (Name × ExprTree)) (name : Name) (tree : ExprTree) :
    List (Name × ExprTree) :=
  match ad with
  | [] => [(name,tree)]
  | (n,t) :: ad =>
    if strcasecmp n name then (n,tree) :: ad else (n,t) :: insertAttr ad name tree

namespace Surroundings

variable (c : Surroundings)

def peekToken (n : Nat) (l : Lexer) : Watch Lexer Lexer :=
  if l.tokenConsumed then Watch.call (Lexer.nextToken c.oldSemantics n) l else return l

def consumeToken (n : Nat) (l : Lexer) : Watch Lexer Lexer := do
  let l ← c.peekToken n l
  return { l with tokenConsumed := true }

/-- `while (tt is an operator) { ConsumeToken(); ... tt = PeekToken(); }`, the shape of all levels
with binary operators. -/
def parseBinary (n : Nat) (operator : TokenType → Option OpKind) (operand : Parser) :
    Parser := fun l => do
  match ← operand l with
  | (none,l) => return (none,l)
  | (some tree,l) => Watch.loop (fun (treeL,l) => do
      let l ← c.peekToken n l
      match operator l.tokenType with
      | none => return .inr (some treeL,l)
      | some op =>
        let l ← c.consumeToken n l
        match ← operand l with
        | (none,l) => return .inr (none,l)
        | (some treeR,l) => return .inl (ExprTree.op2 op treeL treeR,l)) n (tree,l)

section Collections

variable (expression : Parser)

/-- The list of `parseArgumentList` and `parseExprList` behind the opening token. -/
def parseItems (n : Nat) (isSeparator : TokenType → Bool) (closing : TokenType) (l : Lexer) :
    Watch Lexer (Option (List ExprTree) × Lexer) := do
  let l ← c.peekToken n l
  Watch.loop (fun (items,tt,l) => do
    if tt = closing then
      let l ← c.consumeToken n l
      return .inr (some items,l)
    else
      match ← expression l with
      | (none,l) => return .inr (none,l)
      | (some tree,l) =>
        let l ← c.peekToken n l
        let tt := l.tokenType
        if isSeparator tt then
          let l ← c.consumeToken n l
          return .inl (items ++ [tree],tt,l)
        else if tt ≠ closing then return .inr (none,l)
        else return .inl (items ++ [tree],tt,l)) n ([],l.tokenType,l)

def parseArgumentList (n : Nat) (l : Lexer) : Watch Lexer (Option (List ExprTree) × Lexer) := do
  let l ← c.consumeToken n l
  if l.tokenType ≠ .openParen then return (none,l)
  else
    c.parseItems expression n (fun tt => tt == .comma || (tt == .semicolon && c.oldSemantics))
      .closeParen l

def parseExprList (n : Nat) (l : Lexer) : Watch Lexer (Option (List ExprTree) × Lexer) := do
  let l ← c.consumeToken n l
  if l.tokenType ≠ .openBrace then return (none,l)
  else
    c.parseItems expression n (· == .comma) .closeBrace l

def slurpSemicolons (n : Nat) (l : Lexer) : Watch Lexer Lexer :=
  Watch.loop (fun l => do
    if l.tokenType = .semicolon then
      let l ← c.consumeToken n l
      let l ← c.peekToken n l
      return .inl l
    else return .inr l) n l

/-- A round of the loop of `parseClassAd`: an attribute or an empty expression. -/
def parseAttribute (n : Nat) :
    List (Name × ExprTree) × TokenType × Lexer →
    Watch Lexer ((List (Name × ExprTree) × TokenType × Lexer) ⊕
      (Option (List (Name × ExprTree)) × Lexer)) := fun (ad,tt,l) => do
  if tt = .closeBox then
    let l ← c.consumeToken n l
    return .inr (some ad,l)
  else
    let l ← c.consumeToken n l
    if l.tokenType = .semicolon then return .inl (ad,.semicolon,l)
    else if l.tokenType ≠ .identifier then return .inr (none,l)
    else
      let name := l.yylval.strValue
      let l ← c.consumeToken n l
      if l.tokenType ≠ .boundTo then return .inr (none,l)
      else
        match ← expression l with
        | (none,l) => return .inr (none,l)
        | (some tree,l) =>
          if name = [] then return .inr (none,l)
          else
            let ad := insertAttr ad name tree
            let l ← c.peekToken n l
            if l.tokenType ≠ .semicolon ∧ l.tokenType ≠ .closeBox then return .inr (none,l)
            else
              let l ← c.slurpSemicolons n l
              return .inl (ad,l.tokenType,l)

def parseClassAd (n : Nat) (full : Bool) (l : Lexer) :
    Watch Lexer (Option (List (Name × ExprTree)) × Lexer) := do
  let l ← c.consumeToken n l
  if l.tokenType ≠ .openBox then return (none,l)
  else
    let l ← c.peekToken n l
    match ← Watch.loop (c.parseAttribute expression n) n ([],l.tokenType,l) with
    | (none,l) => return (none,l)
    | (some ad,l) =>
      if full then
        let l ← c.consumeToken n l
        if l.tokenType ≠ .endOfInput then return (none,l) else return (some ad,l)
      else return (some ad,l)

/-- The calls of `absTime` and `relTime` on a string are literals. -/
def makeFunctionCall (name : Name) (args : List ExprTree) : ExprTree :=
  match args with
  | [.literal (.string s) _] =>
    if strcasecmp name "absTime".toList then .literal (c.makeAbsTime s) .none
    else if strcasecmp name "relTime".toList then .literal (c.makeRelTime s) .none
    else .fnCall name args
  | _ => .fnCall name args

def parsePrimaryExpression (n : Nat) : Parser := fun l => do
  let l ← c.peekToken n l
  let tv := l.yylval
  match l.tokenType with
  | .identifier =>
    let l ← c.consumeToken n l
    let l ← c.peekToken n l
    if l.tokenType = .openParen then
      match ← c.parseArgumentList expression n l with
      | (none,l) => return (none,l)
      | (some args,l) => return (some (c.makeFunctionCall tv.strValue args),l)
    else return (some (.attrRef tv.strValue false),l)
  | .selection =>
    let l ← c.consumeToken n l
    let l ← c.consumeToken n l
    if l.tokenType = .identifier then return (some (.attrRef l.yylval.strValue true),l)
    else return (none,l)
  | .openParen =>
    let l ← c.consumeToken n l
    match ← expression l with
    | (none,l) => return (none,l)
    | (some tree,l) =>
      let l ← c.consumeToken n l
      if l.tokenType ≠ .closeParen then return (none,l)
      else return (some (.op1 .parentheses tree),l)
  | .openBox =>
    let (ad,l) ← c.parseClassAd expression n false l
    return (ad.map .classAd,l)
  | .openBrace =>
    let (list,l) ← c.parseExprList expression n l
    return (list.map .exprList,l)
  | .undefinedValue =>
    let l ← c.consumeToken n l
    return (some (.literal .undefined .none),l)
  | .errorValue =>
    let l ← c.consumeToken n l
    return (some (.literal .error .none),l)
  | .booleanValue =>
    let l ← c.consumeToken n l
    return (some (.literal (.boolean tv.boolValue) .none),l)
  | .integerValue =>
    let l ← c.consumeToken n l
    return (some (.literal (.integer tv.intValue) tv.factor),l)
  | .realValue =>
    let l ← c.consumeToken n l
    return (some (.literal (.real tv.realValue) tv.factor),l)
  | .stringValue =>
    let l ← c.consumeToken n l
    return (some (.literal (.string tv.strValue) .none),l)
  -- the lexer has no tokens for times
  | _ => return (none,l)

def parsePostfixExpression (n : Nat) : Parser := fun l => do
  match ← c.parsePrimaryExpression expression n l with
  | (none,l) => return (none,l)
  | (some tree,l) => Watch.loop (fun (treeL,l) => do
      let l ← c.peekToken n l
      if l.tokenType = .openBox then
        let l ← c.consumeToken n l
        match ← expression l with
        | (none,l) => return .inr (none,l)
        | (some treeR,l) =>
          let l ← c.consumeToken n l
          if l.tokenType = .closeBox then return .inl (ExprTree.op2 .subscript treeL treeR,l)
          else return .inr (none,l)
      else if l.tokenType = .selection then
        let l ← c.consumeToken n l
        let l ← c.consumeToken n l
        if l.tokenType ≠ .identifier then return .inr (none,l)
        else return .inl (ExprTree.select treeL l.yylval.strValue,l)
      else return .inr (some treeL,l)) n (tree,l)

def unaryOperator : TokenType → Option OpKind
  | .minus => some .unaryMinus
  | .plus => some .unaryPlus
  | .bitwiseNot => some .bitwiseNot
  | .logicalNot => some .logicalNot
  | _ => none

def parseUnaryExpression (n : Nat) : Nat → Parser
  | 0 => fun _ => Watch.exhausted
  | k + 1 => fun l => do
    let l ← c.peekToken n l
    match unaryOperator l.tokenType with
    | some op =>
      let l ← c.consumeToken n l
      match ← parseUnaryExpression n k l with
      | (none,l) => return (none,l)
      | (some tree,l) => return (some (.op1 op tree),l)
    | none => c.parsePostfixExpression expression n l

def parseMultiplicativeExpression (n : Nat) : Parser :=
  c.parseBinary n
    (fun
      | .multiply => some .multiplication
      | .divide => some .division
      | .modulus => some .modulus
      | _ => none)
    (c.parseUnaryExpression expression n n)

def parseAdditiveExpression (n : Nat) : Parser :=
  c.parseBinary n
    (fun
      | .plus => some .addition
      | .minus => some .subtraction
      | _ => none)
    (c.parseMultiplicativeExpression expression n)

def parseShiftExpression (n : Nat) : Parser :=
  c.parseBinary n
    (fun
      | .leftShift => some .leftShift
      | .rightShift => some .rightShift
      | .urightShift => some .urightShift
      | _ => none)
    (c.parseAdditiveExpression expression n)

def parseRelationalExpression (n : Nat) : Parser :=
  c.parseBinary n
    (fun
      | .lessThan => some .lessThan
      | .lessOrEqual => some .lessOrEqual
      | .greaterThan => some .greaterThan
      | .greaterOrEqual => some .greaterOrEqual
      | _ => none)
    (c.parseShiftExpression expression n)

def parseEqualityExpression (n : Nat) : Parser :=
  c.parseBinary n
    (fun
      | .equal => some .equal
      | .notEqual => some .notEqual
      | .metaEqual => some .metaEqual
      | .metaNotEqual => some .metaNotEqual
      | _ => none)
    (c.parseRelationalExpression expression n)

def parseANDExpression (n : Nat) : Parser :=
  c.parseBinary n
    (fun
      | .bitwiseAnd => some .bitwiseAnd
      | _ => none)
    (c.parseEqualityExpression expression n)

def parseExclusiveORExpression (n : Nat) : Parser :=
  c.parseBinary n
    (fun
      | .bitwiseXor => some .bitwiseXor
      | _ => none)
    (c.parseANDExpression expression n)

def parseInclusiveORExpression (n : Nat) : Parser :=
  c.parseBinary n
    (fun
      | .bitwiseOr => some .bitwiseOr
      | _ => none)
    (c.parseExclusiveORExpression expression n)

def parseLogicalANDExpression (n : Nat) : Parser :=
  c.parseBinary n
    (fun
      | .logicalAnd => some .logicalAnd
      | _ => none)
    (c.parseInclusiveORExpression expression n)

def parseLogicalORExpression (n : Nat) : Parser :=
  c.parseBinary n
    (fun
      | .logicalOr => some .logicalOr
      | _ => none)
    (c.parseLogicalANDExpression expression n)

end Collections

/-- `parseExpression` with the recursive calls made by `expression`. -/
def parseTernary (expression : Parser) (n : Nat) (full : Bool) (l : Lexer) :
    Watch Lexer (Bool × Option ExprTree × Lexer) := do
  match ← c.parseLogicalORExpression expression n l with
  | (none,l) => return (false,none,l)
  | (some tree,l) =>
    let l ← c.peekToken n l
    if l.tokenType = .qmark then
      let l ← c.consumeToken n l
      let (treeM,l) ← expression l
      let l ← c.consumeToken n l
      if l.tokenType ≠ .colon then return (false,none,l)
      else
        let (treeR,l) ← expression l
        match treeM, treeR with
        | some treeM, some treeR => return (true,some (.op3 .ternary tree treeM treeR),l)
        | _, _ => return (false,none,l)
    else if full then
      let l ← c.consumeToken n l
      return (l.tokenType == .endOfInput,some tree,l)
    else return (true,some tree,l)

def parseExpression (n : Nat) : Nat → Bool → Lexer → Watch Lexer (Bool × Option ExprTree × Lexer)
  | 0, _, _ => Watch.exhausted
  | k + 1, full, l =>
    c.parseTernary (fun l => (·.2) <$> parseExpression n k false l) n full l

/-- `ParseExpression` on a source, by a parser whose last token was of type `tt`. -/
def parseExpressionFrom (n : Nat) (tt : TokenType) (source : LexerSource) (full : Bool) :
    Watch Lexer (Bool × Option ExprTree) := do
  let (success,tree,_) ← c.parseExpression n n full (Lexer.initializeFrom tt source)
  return (success,tree)

/-- `ParseClassAd` on a source, with the source as it is left. -/
def parseClassAdFrom (n : Nat) (tt : TokenType) (source : LexerSource) (full : Bool) :
    Watch Lexer (Option (List (Name × ExprTree)) × LexerSource) := do
  let (ad,l) ← c.parseClassAd (fun l => (·.2) <$> c.parseExpression n n false l) n full
    (Lexer.initializeFrom tt source)
  if ad.isSome ∧ l.source.previous.isSome then return (ad,l.source.unreadCharacter)
  else return (ad,l.source)

end Surroundings

end Condor.ClassAds
