import Condor.ClassAds.Parser

/-!
# Literals in the old and in the new syntax

The old syntax escapes the quotes in a string and nothing else, the new one the backslashes too. A
text in the old syntax is converted for the parser, and a quote behind a backslash ends the string
if the line ends there. The end of a text is its NUL.
-/

namespace Condor.ClassAds

/-- `ClassAdUnParser`, with the texts of its formats for reals and times. -/
structure ClassAdUnParser where
  oldClassAd : Bool := false
  xmlUnparse : Bool := false
  delimiter : Char := '"'
  realText : Bool → Double → List Char
  absTimeToString : Int → Int → List Char
  relTimeToString : Double → List Char

/-- `isprint` of a byte in the "C" locale. -/
def isprint (c : Char) : Bool := ' ' ≤ c && c ≤ '~'

/-- The digits that `%03o` prints of a byte. -/
def octalText (c : Char) : List Char :=
  [c.toNat / 64 % 8,c.toNat / 8 % 8,c.toNat % 8].map fun d => Char.ofNat (48 + d)

def newEscape (c : Char) : Option (List Char) :=
  match c with
  | '\x07' => some ['\\','a']
  | '\x08' => some ['\\','b']
  | '\x0c' => some ['\\','f']
  | '\n' => some ['\\','n']
  | '\r' => some ['\\','r']
  | '\t' => some ['\\','t']
  | '\x0b' => some ['\\','v']
  | '\\' => some ['\\','\\']
  | '\'' => some ['\'']
  | '"' => some ['"']
  | c => if isprint c then none else some ('\\' :: octalText c)

def xmlText (c : Char) : List Char :=
  match c with
  | '&' => "&amp;".toList
  | '<' => "&lt;".toList
  | '>' => "&gt;".toList
  | c => [c]

namespace ClassAdUnParser

variable (u : ClassAdUnParser)

def unparseChar (c : Char) : List Char :=
  if c = u.delimiter then if u.delimiter = '"' then ['\\','"'] else ['\\','\'']
  else
    match if u.oldClassAd then none else newEscape c with
    | some text => text
    | none => if u.xmlUnparse then xmlText c else [c]

/-- `Unparse` of a value. -/
def unparse : Value → List Char
  | .string s => '"' :: s.flatMap u.unparseChar ++ ['"']
  | .integer i => (toString i).toList
  | .real r => u.realText u.oldClassAd r
  | .boolean b => if b then "true".toList else "false".toList
  | .undefined => "undefined".toList
  | .error => "error".toList
  | .absTime secs offset => "absTime(\"".toList ++ u.absTimeToString secs offset ++ "\")".toList
  | .relTime secs => "relTime(\"".toList ++ u.relTimeToString secs ++ "\")".toList

/-- `IsNumber`. -/
def isNumber : Value → Bool
  | .integer _ | .real _ => true
  | _ => false

def factorText : NumberFactor → List Char
  | .none => []
  | .b => ['B']
  | .k => ['K']
  | .m => ['M']
  | .g => ['G']
  | .t => ['T']

/-- `UnparseAux` of a literal. -/
def unparseLiteral (value : Value) (factor : NumberFactor) : List Char :=
  if isNumber value then u.unparse value ++ factorText factor else u.unparse value

/-- `ExprTreeToString` of a literal. -/
def exprTreeToString (value : Value) (factor : NumberFactor) : List Char :=
  { u with oldClassAd := true, xmlUnparse := false, delimiter := '"' }.unparseLiteral value factor

end ClassAdUnParser

/-- `IsStringEnd`. -/
def isStringEnd (str : List Char) (off : Nat) : Bool :=
  match str[off]? with
  | none => true
  | some c => c == '\n' || c == '\r'

/-- `ConvertEscapingOldToNew`, which appends to the buffer. -/
def convertEscapingInto (str buffer : List Char) : List Char :=
  let buffer := buffer ++ str.takeWhile (· ≠ '\\')
  match _h : str.dropWhile (· ≠ '\\') with
  | [] => buffer
  | _ :: rest =>
    let buffer := buffer ++ ['\\']
    convertEscapingInto rest
      (if rest[0]? ≠ some '"' ∨ (rest[0]? = some '"' ∧ isStringEnd rest 1) then buffer ++ ['\\']
      else buffer)
  termination_by str.length
  decreasing_by
    have hle := (List.dropWhile_suffix (l := str) (· ≠ '\\')).length_le
    rw [_h,List.length_cons] at hle
    omega

def convertEscapingOldToNew (str : List Char) : List Char := convertEscapingInto str []

/-- The loop of `ClassAd::Insert(const char *)` over the characters. -/
def insertChars : List Char → List Char → List Char
  | [], newAdStr => newAdStr
  | c :: str, newAdStr =>
    let newAdStr :=
      if c = '\\' then
        if (c :: str)[1]? ≠ some '"' ∨ ((c :: str)[1]? = some '"' ∧ isStringEnd (c :: str) 2) then
          newAdStr ++ ['\\']
        else newAdStr
      else newAdStr
    insertChars str (newAdStr ++ [c])

/-- The text that `ClassAd::Insert(const char *)` gives to the parser. -/
def insertText (str : List Char) : List Char := insertChars str ['['] ++ [']']

end Condor.ClassAds
