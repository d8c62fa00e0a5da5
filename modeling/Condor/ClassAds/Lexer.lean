import Mathlib.Algebra.Group.Int.Defs
import Condor.ClassAds.LexerSource

/-!
# The lexer

`ch` is the character under the cursor, `none` standing for -1. `wind` moves the cursor, and the
buffer holds what was passed over since `mark`. Every loop is given fuel, and `none` means that it
was used up, or the `CLASSAD_EXCEPT` of `tokenizeNumber`.

A double is represented by the text that `strtod` is given for it.
-/

namespace Condor.ClassAds

/-- The `LEX_` tokens. -/
inductive TokenType
  | tokenError | endOfInput | tokenTooLong
  | integerValue | realValue | booleanValue | stringValue | undefinedValue | errorValue
  | identifier | selection
  | multiply | divide | modulus | plus | minus
  | bitwiseAnd | bitwiseOr | bitwiseNot | bitwiseXor
  | leftShift | rightShift | urightShift
  | logicalAnd | logicalOr | logicalNot
  | lessThan | lessOrEqual | greaterThan | greaterOrEqual | equal | notEqual
  | metaEqual | metaNotEqual | boundTo
  | qmark | colon | comma | semicolon
  | openBox | closeBox | openParen | closeParen | openBrace | closeBrace
  | backslash | absoluteTimeValue | relativeTimeValue
  deriving DecidableEq

/-- `Value::NumberFactor`, the size suffix of a number. -/
inductive NumberFactor
  | none | b | k | m | g | t
  deriving DecidableEq

abbrev Double := List Char

structure TokenValue where
  factor : NumberFactor := .none
  intValue : Int := 0
  realValue : Double := []
  boolValue : Bool := false
  strValue : List Char := []
  deriving DecidableEq

structure Lexer where
  source : LexerSource
  ch : Option Char
  lexBuffer : List Char
  tokenType : TokenType
  yylval : TokenValue
  tokenConsumed : Bool

def isspace (c : Char) : Bool := c == ' ' || ('\t' ≤ c && c ≤ '\r')

def isdigit (c : Char) : Bool := '0' ≤ c && c ≤ '9'

def isodigit (c : Char) : Bool := '0' ≤ c && c ≤ '7'

def isxdigit (c : Char) : Bool := isdigit c || ('a' ≤ c && c ≤ 'f') || ('A' ≤ c && c ≤ 'F')

def isalpha (c : Char) : Bool := ('a' ≤ c && c ≤ 'z') || ('A' ≤ c && c ≤ 'Z')

def isalnum (c : Char) : Bool := isalpha c || isdigit c

/-- `strcasecmp(s, t) == 0`. -/
def strcasecmp (s t : List Char) : Bool := s.map Char.toLower == t.map Char.toLower

def digitValue (c : Char) : Nat :=
  if isdigit c then c.toNat - 48 else if 'a' ≤ c then c.toNat - 87 else c.toNat - 55

def numeral (base : Nat) (digits : List Char) : Nat :=
  digits.foldl (fun v c => v * base + digitValue c) 0

/-- `strtol` without a sign, for base 10 or, to be read off the number itself, base 0. -/
def strtoul (base : Nat) (text : List Char) : Nat :=
  match base, text with
  | 0, '0' :: 'x' :: digits => numeral 16 (digits.takeWhile isxdigit)
  | 0, '0' :: 'X' :: digits => numeral 16 (digits.takeWhile isxdigit)
  | 0, '0' :: digits => numeral 8 (digits.takeWhile isodigit)
  | _, _ => numeral 10 (text.takeWhile isdigit)

/-- `strtol` on a platform with a 64-bit `long`. -/
def strtol (base : Nat) (text : List Char) : Int :=
  match text with
  | '-' :: digits => max (-(strtoul base digits : Int)) (-2^63)
  | _ => min (strtoul base text) (2^63 - 1)

/-- The number is cut to the range of an `int`. -/
def clampInt (l : Int) : Int :=
  if l > 2^31 - 1 then 2^31 - 1 else if l < -2^31 then -2^31 else l

namespace Lexer

def ahead (l : Lexer) : List Char :=
  match l.ch with
  | none => []
  | some c => c :: l.source.rest

/-- `Initialize`. The type of the last token is left from the text lexed before. -/
def initializeFrom (tokenType : TokenType) (source : LexerSource) : Lexer :=
  { source := source.readCharacter, ch := source.next, lexBuffer := [], tokenType := tokenType,
    yylval := {}, tokenConsumed := true }

def mark (l : Lexer) : Lexer := { l with lexBuffer := [] }

/-- `ReadCharacter` into `ch`. -/
def advance (l : Lexer) : Lexer :=
  { l with ch := l.source.next, source := l.source.readCharacter }

def wind (l : Lexer) : Lexer :=
  match l.ch with
  | none => l
  | some c => { l.advance with lexBuffer := l.lexBuffer ++ [c] }

def setCh (l : Lexer) (c : Char) : Lexer := { l with ch := some c }

def setToken (l : Lexer) (t : TokenType) : Lexer := { l with tokenType := t }

/-- `while (p(ch)) wind();` -/
def windWhile (p : Option Char → Bool) : Nat → Lexer → Option Lexer
  | 0, _ => none
  | n + 1, l => if p l.ch then windWhile p n l.wind else some l

/-- `do { oldCh = ch; wind(); } while (oldCh != '*' || ch != '/');` -/
def skipComment : Nat → Lexer → Option Lexer
  | 0, _ => none
  | n + 1, l =>
    if l.ch ≠ some '*' ∨ l.wind.ch ≠ some '/' then skipComment n l.wind else some l.wind

/-- `ch > 0 && ch != '\n'`. -/
def inLineComment (ch : Option Char) : Bool := ch.any fun c => c ≠ '\x00' && c ≠ '\n'

/-- What the loop of `PeekToken` over white space and comments does in a round. -/
inductive Skip
  | again (l : Lexer) | division (l : Lexer) | break (l : Lexer)

def skipRound (n : Nat) (l : Lexer) : Option Skip :=
  if l.ch.any isspace then some (.again l.wind)
  else if l.ch = some '/' then
    let l := l.mark.wind
    if l.ch = some '/' then
      (windWhile inLineComment n l).map .again
    else if l.ch = some '*' then
      (skipComment n (l.setCh '\n')).map fun l => .again l.wind
    else some (.division l)
  else some (.break l)

/-- The loop: `true` comes with the cursor behind a division operator. -/
def skipBlank (n : Nat) : Nat → Lexer → Option (Bool × Lexer)
  | 0, _ => none
  | k + 1, l =>
    match skipRound n l with
    | none => none
    | some (.again l) => skipBlank n k l
    | some (.division l) => some (true,l)
    | some (.break l) => some (false,l)

inductive NumberType
  | none | integer | real
  deriving DecidableEq

def octalDigits : Nat → NumberType → Lexer → Option (NumberType × Lexer)
  | 0, _, _ => none
  | n + 1, t, l =>
    if l.ch.any isdigit then
      octalDigits n (if l.wind.ch.any isodigit then t else .real) l.wind
    else some (t,l)

/-- The digits before the point; `inl` is the end with `LEX_TOKEN_ERROR`. -/
def integerPart (n : Nat) (och : Option Char) (l : Lexer) :
    Option (Lexer ⊕ NumberType × Lexer) :=
  if och = some '0' then
    if l.ch.any fun c => c.toLower = 'x' then
      let l := l.wind
      if ¬ l.ch.any isxdigit then some (.inl (l.setToken .tokenError))
      else (windWhile (·.any isxdigit) n l).map fun l => .inr (.integer,l)
    else
      (octalDigits n .integer l).map fun (t,l) =>
        if l.ch = some '.' ∨ l.ch.any fun c => c.toLower = 'e' then .inr (.real,l)
        else if t = .real then .inl (l.setToken .tokenError)
        else .inr (t,l)
  else if och.any isdigit then
    (windWhile (·.any isdigit) n l).map fun l =>
      if l.ch = some '.' ∨ l.ch.any fun c => c.toLower = 'e' then .inr (.real,l)
      else .inr (.integer,l)
  else some (.inr (.none,l))

def fractionPart (n : Nat) (och : Option Char) (t : NumberType) (l : Lexer) :
    Option (Lexer ⊕ NumberType × Lexer) :=
  if och = some '.' ∨ l.ch = some '.' then
    let l := if l.ch = some '.' then l.wind else l
    if l.ch.any isdigit then
      (windWhile (·.any isdigit) n l).map fun l => .inr (.real,l)
    else if t ≠ .none then some (.inl (l.setToken .tokenError))
    else some (.inl (l.setToken .selection))
  else some (.inr (t,l))

def exponentPart (n : Nat) (t : NumberType) (l : Lexer) :
    Option (Lexer ⊕ NumberType × Lexer) :=
  if t = .real ∧ l.ch.any fun c => c.toLower = 'e' then
    let l := l.wind
    let l := if l.ch = some '+' ∨ l.ch = some '-' then l.wind else l
    if ¬ l.ch.any isdigit then some (.inl (l.setToken .tokenError))
    else (windWhile (·.any isdigit) n l).map fun l => .inr (t,l)
  else some (.inr (t,l))

def factorOf (ch : Option Char) : NumberFactor :=
  match ch.map Char.toUpper with
  | some 'B' => .b
  | some 'K' => .k
  | some 'M' => .m
  | some 'G' => .g
  | some 'T' => .t
  | _ => .none

def numberValue (oldSemantics : Bool) (t : NumberType) (l : Lexer) : Option Lexer :=
  let text := l.lexBuffer
  let f := factorOf l.ch
  let l := if f = .none then l else l.wind
  match t with
  | .integer =>
    let i := clampInt (strtol (if oldSemantics then 10 else 0) text)
    some { l with
      yylval := { l.yylval with intValue := i, factor := f }, tokenType := .integerValue }
  | .real =>
    some { l with
      yylval := { l.yylval with realValue := text, factor := f }, tokenType := .realValue }
  | .none => none

/-- `tokenizeNumber` from the test for a leading 0 on. -/
def tokenizeDigits (oldSemantics : Bool) (n : Nat) (och : Option Char) (l : Lexer) :
    Option Lexer := do
  match ← integerPart n och l with
  | .inl l => return l
  | .inr (t,l) =>
    match ← fractionPart n och t l with
    | .inl l => return l
    | .inr (t,l) =>
      match ← exponentPart n t l with
      | .inl l => return l
      | .inr (t,l) => numberValue oldSemantics t l

def tokenizeNumber (oldSemantics : Bool) (n : Nat) (l : Lexer) : Option Lexer :=
  let och := l.ch
  let l := l.mark.wind
  if och = some '-' then
    if l.ch.any isdigit then tokenizeDigits oldSemantics n l.ch l.wind
    else if l.ch = some '.' then
      let ch2 := l.source.next
      let source := l.source.readCharacter
      let l := { l with source := if ch2.isSome then source.unreadCharacter else source }
      if ¬ ch2.any isdigit then some (l.setToken .minus)
      else tokenizeDigits oldSemantics n och l
    else some (l.setToken .minus)
  else tokenizeDigits oldSemantics n och l

def reserved : List (List Char × TokenType) :=
  [("true".toList,.booleanValue),("false".toList,.booleanValue),
    ("undefined".toList,.undefinedValue),("error".toList,.errorValue),
    ("is".toList,.metaEqual),("isnt".toList,.metaNotEqual)]

def wordToken (l : Lexer) : Lexer :=
  match reserved.find? fun w => strcasecmp l.lexBuffer w.1 with
  | some (w,t) =>
    if t = .booleanValue then
      { l with yylval := { l.yylval with boolValue := w == "true".toList }, tokenType := t }
    else l.setToken t
  | none =>
    { l with yylval := { l.yylval with strValue := l.lexBuffer }, tokenType := .identifier }

def tokenizeAlphaHead (n : Nat) (l : Lexer) : Option Lexer := do
  let l ← windWhile (·.any isalpha) n l.mark
  if l.ch.any fun c => isdigit c || c == '_' then
    let l ← windWhile (·.any fun c => isalnum c || c == '_') n l.wind
    return { l with
      yylval := { l.yylval with strValue := l.lexBuffer }, tokenType := .identifier }
  else return l.wordToken

/-- The inner loop of `tokenizeString`, up to a delimiter that is not escaped. -/
def scanString (delim : Char) : Nat → Bool → Char → Lexer → Option Lexer
  | 0, _, _, _ => none
  | n + 1, oddBackWhacks, oldCh, l =>
    match l.ch with
    | none => some l
    | some c =>
      if c ≠ '\x00' ∧ (c ≠ delim ∨ (c = delim ∧ oldCh = '\\' ∧ oddBackWhacks)) then
        scanString delim n (!oddBackWhacks && c == '\\') c l.wind
      else some l

def readPastSpace : Nat → LexerSource → Option (Option Char × LexerSource)
  | 0, _ => none
  | n + 1, s =>
    if s.next.any isspace then readPastSpace n s.readCharacter
    else some (s.next,s.readCharacter)

end Lexer

def escapeOf : Char → Option Char
  | 'a' => some '\x07'
  | 'b' => some '\x08'
  | 'f' => some '\x0c'
  | 'n' => some '\n'
  | 'r' => some '\r'
  | 't' => some '\t'
  | 'v' => some '\x0b'
  | '\\' => some '\\'
  | '?' => some '?'
  | '\'' => some '\''
  | '"' => some '"'
  | _ => none

/-- The character of an octal escape; `none` for NUL, which makes the string invalid. -/
def octalChar (digits : List Char) : Option Char :=
  if numeral 8 digits = 0 then none else some (Char.ofNat (numeral 8 digits))

/-- `convert_escapes`, `none` standing for `validStr` false. -/
def convertEscapes : List Char → Option (List Char)
  | [] => some []
  | c :: cs =>
    if c ≠ '\\' then (convertEscapes cs).map (c :: ·)
    else
      match cs with
      | [] => some []
      | e :: es =>
        match escapeOf e with
        | some x => (convertEscapes es).map (x :: ·)
        | none =>
          if isodigit e then
            match es with
            | [] => (octalChar [e]).map ([·])
            | e2 :: es2 =>
              if isodigit e2 then
                match es2 with
                | [] => (octalChar [e,e2]).map ([·])
                | e3 :: es3 =>
                  -- three digits only when the first of them is at most 3
                  if e ≤ '3' ∧ isodigit e3 then do
                    let x ← octalChar [e,e2,e3]
                    return x :: (← convertEscapes es3)
                  else do
                    let x ← octalChar [e,e2]
                    return x :: (← convertEscapes (e3 :: es3))
              else do
                let x ← octalChar [e]
                return x :: (← convertEscapes (e2 :: es2))
          else (convertEscapes es).map (e :: ·)

namespace Lexer

/-- The end of `tokenizeString`, with the cursor on the closing delimiter. -/
def stringToken (delim : Char) (l : Lexer) : Lexer :=
  let text := l.lexBuffer
  let l := l.wind
  match convertEscapes text with
  | some s =>
    { l with
      yylval := { l.yylval with strValue := s }
      tokenType := if delim = '"' then .stringValue else .identifier }
  | none => { l with yylval := { l.yylval with strValue := text }, tokenType := .tokenError }

/-- The outer loop of `tokenizeString`: strings with only white space between them are one. -/
def stringParts (delim : Char) (n : Nat) : Nat → Lexer → Option Lexer
  | 0, _ => none
  | k + 1, l => do
    let l ← scanString delim n false '\x00' l
    if l.ch = some delim then
      let (tempch,source) ← readPastSpace n l.source
      if tempch ≠ some delim then
        let source := if tempch.isSome then source.unreadCharacter else source
        return stringToken delim { l with source := source }
      else
        -- the closing delimiter is erased from the buffer
        stringParts delim n k { l with source := source }.advance
    else return l.setToken .tokenError

def tokenizeString (delim : Char) (n : Nat) (l : Lexer) : Option Lexer :=
  stringParts delim n n l.wind.mark

def punctOperator : Char → Option TokenType
  | '.' => some .selection
  | '*' => some .multiply
  | '/' => some .divide
  | '%' => some .modulus
  | '+' => some .plus
  | '-' => some .minus
  | '~' => some .bitwiseNot
  | '^' => some .bitwiseXor
  | '?' => some .qmark
  | ':' => some .colon
  | ';' => some .semicolon
  | ',' => some .comma
  | '[' => some .openBox
  | ']' => some .closeBox
  | '(' => some .openParen
  | ')' => some .closeParen
  | '{' => some .openBrace
  | '}' => some .closeBrace
  | _ => none

/-- `=`, `==`, `=?=` and `=!=`. -/
def equalsOperator (l : Lexer) : Lexer :=
  match l.ch with
  | some '=' => l.wind.setToken .equal
  | some '?' =>
    let l := l.wind
    if l.ch ≠ some '=' then l.setToken .tokenError else l.wind.setToken .metaEqual
  | some '!' =>
    let extraLookahead := l.source.next
    let l := { l with source := l.source.readCharacter.unreadCharacter }
    if extraLookahead = some '=' then l.wind.wind.setToken .metaNotEqual
    else l.setToken .boundTo
  | _ => l.setToken .boundTo

def tokenizePunctOperator (l : Lexer) : Lexer :=
  let oldch := l.ch
  let l := l.mark.wind
  match oldch with
  | none => l.setToken .tokenError
  | some c =>
    match punctOperator c with
    | some t => l.setToken t
    | none =>
      match c with
      | '&' => if l.ch = some '&' then l.wind.setToken .logicalAnd else l.setToken .bitwiseAnd
      | '|' => if l.ch = some '|' then l.wind.setToken .logicalOr else l.setToken .bitwiseOr
      | '<' =>
        if l.ch = some '=' then l.wind.setToken .lessOrEqual
        else if l.ch = some '<' then l.wind.setToken .leftShift
        else l.setToken .lessThan
      | '>' =>
        if l.ch = some '=' then l.wind.setToken .greaterOrEqual
        else if l.ch = some '>' then
          if l.wind.ch = some '>' then l.wind.wind.setToken .urightShift
          else l.wind.setToken .rightShift
        else l.setToken .greaterThan
      | '=' => l.equalsOperator
      | '!' => if l.ch = some '=' then l.wind.setToken .notEqual else l.setToken .logicalNot
      | _ => l.setToken .tokenError

def minusIsOperator : TokenType → Bool
  | .integerValue | .realValue | .booleanValue | .stringValue | .undefinedValue | .errorValue
  | .identifier | .selection | .closeBox | .closeParen | .closeBrace | .backslash
  | .absoluteTimeValue | .relativeTimeValue => true
  | _ => false

def tokenize (oldSemantics : Bool) (n : Nat) (l : Lexer) : Option Lexer :=
  match l.ch with
  | none => some (l.setToken .endOfInput)
  | some c =>
    if c = '\x00' then some (l.setToken .endOfInput)
    else if c = '-' then
      if minusIsOperator l.tokenType then some l.tokenizePunctOperator
      else tokenizeNumber oldSemantics n l
    else if isdigit c || c == '.' then tokenizeNumber oldSemantics n l
    else if isalpha c || c == '_' then tokenizeAlphaHead n l
    else if c = '"' then tokenizeString '"' n l
    else if c = '\'' then tokenizeString '\'' n l
    else some l.tokenizePunctOperator

/-- `PeekToken` when the last token has been consumed. -/
def nextToken (oldSemantics : Bool) (n : Nat) (l : Lexer) : Option Lexer :=
  match skipBlank n n { l with tokenConsumed := false } with
  | none => none
  | some (true,l) => some (l.setToken .divide)
  | some (false,l) => tokenize oldSemantics n l

end Lexer

end Condor.ClassAds
