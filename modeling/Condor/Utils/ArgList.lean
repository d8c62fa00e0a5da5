import Condor.Utils.CString

/-!
# Argument lists

`ArgList` turns a list of arguments into one string and back. The old syntax (V1) separates
arguments by white space and cannot quote; the new one (V2) quotes with single quotes.
-/

namespace Condor

inductive ArgV1Syntax where
  | win32ArgV1Syntax
  | unixArgV1Syntax
  | unknownArgV1Syntax
  deriving DecidableEq

structure ArgList where
  argsList : List CString
  v1Syntax : ArgV1Syntax
  inputWasUnknownPlatformV1 : Bool

namespace ArgList

def new : ArgList := ⟨[],.unknownArgV1Syntax,false⟩

def setArgV1Syntax (l : ArgList) (v1Syntax : ArgV1Syntax) : ArgList :=
  { l with v1Syntax := v1Syntax }

def space : CChar := ⟨32,by decide⟩
def singleQuote : CChar := ⟨39,by decide⟩
def doubleQuote : CChar := ⟨34,by decide⟩
def backslash : CChar := ⟨92,by decide⟩

def isArgSpace (c : CChar) : Bool := c.val = 32 || c.val = 9 || c.val = 10 || c.val = 13

inductive ArgError where
  | unbalancedQuote (quote : CString)
  | unterminatedWindowsQuote (beginQuote : CString)
  | unterminatedDoubleQuote
  | unexpectedCharacters (quoteTerminated : CString)
  | unescapedDoubleQuote (input : CString)
  | expectingV2
  | notRepresentable (arg : CString)
  deriving DecidableEq

/-- One turn of the loop of `append_arg`. -/
def appendArgChar (result : CString) (c : CChar) : CString :=
  if isArgSpace c || c = singleQuote then
    let opened :=
      if result.getLast? = some singleQuote then result.dropLast else result ++ [singleQuote]
    opened ++ (if c = singleQuote then [singleQuote] else []) ++ [c] ++ [singleQuote]
  else result ++ [c]

def appendArg (arg result : CString) : CString :=
  let result := if result ≠ [] then result ++ [space] else result
  let result := if arg = [] then result ++ [singleQuote,singleQuote] else result
  arg.foldl appendArgChar result

def joinArgs (args : List CString) (result : CString) : CString :=
  args.foldl (fun result arg => appendArg arg result) result

/-- The loops of `split_args`: the quote of the open quoted section, whether a token is being
read, what was read of it, and the input. -/
def splitLoop : Option CString → Bool → CString → CString → List CString × Option ArgError
  | none, parsedToken, buf, [] => (if parsedToken then [buf] else [],none)
  | some quote, _, _, [] => ([],some (.unbalancedQuote quote))
  | none, parsedToken, buf, c :: cs =>
    if c = singleQuote then splitLoop (some (c :: cs)) true buf cs
    else if isArgSpace c then
      if parsedToken then
        let rest := splitLoop none false [] cs
        (buf :: rest.1,rest.2)
      else splitLoop none false buf cs
    else splitLoop none true (buf ++ [c]) cs
  | some quote, parsedToken, buf, [c] =>
    if c = singleQuote then splitLoop none parsedToken buf []
    else splitLoop (some quote) parsedToken (buf ++ [c]) []
  | some quote, parsedToken, buf, c :: d :: cs =>
    if c = singleQuote then
      -- a repeated quote stands for a quote
      if d = singleQuote then splitLoop (some quote) parsedToken (buf ++ [c]) cs
      else splitLoop none parsedToken buf (d :: cs)
    else splitLoop (some quote) parsedToken (buf ++ [c]) (d :: cs)

theorem splitLoop_plain (cs buf : CString) (parsedToken : Bool) {c : CChar}
    (hc : (isArgSpace c || c = singleQuote) = false) :
    splitLoop none parsedToken buf (c :: cs) = splitLoop none true (buf ++ [c]) cs := by
  obtain ⟨hspace,hquote⟩ := Bool.or_eq_false_iff.mp hc
  rw [splitLoop,if_neg (of_decide_eq_false hquote),hspace]
  rfl

/-- `split_args`: the arguments that were appended, and the error. -/
def splitArgs (args : CString) : List CString × Option ArgError := splitLoop none false [] args

def appendRead (l : ArgList) (read : List CString × Option ArgError) :
    ArgList × Option ArgError :=
  ({ l with argsList := l.argsList ++ read.1 },read.2)

/-- Where the Windows parser is: between arguments, in one, or in a quoted section of one with
a number of backslashes pending. -/
inductive Win32State where
  | between
  | inArg (buf : CString)
  | inQuote (beginQuote buf : CString) (backslashes : Nat)

/-- The loops of `AppendArgsV1Raw_win32`. -/
def win32Loop : Win32State → CString → List CString × Option ArgError
  | .between, [] => ([],none)
  | .inArg buf, [] => ([buf],none)
  | .inQuote beginQuote _ _, [] => ([],some (.unterminatedWindowsQuote beginQuote))
  | .between, c :: cs =>
    if isArgSpace c then win32Loop .between cs
    else if c = doubleQuote then win32Loop (.inQuote (c :: cs) [] 0) cs
    else win32Loop (.inArg [c]) cs
  | .inArg buf, c :: cs =>
    if isArgSpace c then
      let rest := win32Loop .between cs
      (buf :: rest.1,rest.2)
    else if c = doubleQuote then win32Loop (.inQuote (c :: cs) buf 0) cs
    else win32Loop (.inArg (buf ++ [c])) cs
  | .inQuote beginQuote buf backslashes, c :: cs =>
    if c = backslash then win32Loop (.inQuote beginQuote buf (backslashes + 1)) cs
    else if c = doubleQuote then
      let buf := buf ++ List.replicate (backslashes / 2) backslash
      -- an odd backslash makes the quote a literal one
      if backslashes % 2 = 1 then win32Loop (.inQuote beginQuote (buf ++ [c]) 0) cs
      else win32Loop (.inArg buf) cs
    else
      win32Loop (.inQuote beginQuote (buf ++ List.replicate backslashes backslash ++ [c]) 0) cs

theorem win32Loop_backslashes (beginQuote buf cs : CString) (pending more : Nat) :
    win32Loop (.inQuote beginQuote buf pending) (List.replicate more backslash ++ cs) =
      win32Loop (.inQuote beginQuote buf (pending + more)) cs := by
  induction more generalizing pending with
  | zero => rfl
  | succ more ih =>
    rw [List.replicate_succ,List.cons_append,win32Loop,if_pos rfl,ih (pending + 1)]
    congr 2
    omega

def appendArgsV1RawWin32 (l : ArgList) (args : CString) : ArgList × Option ArgError :=
  l.appendRead (win32Loop .between args)

/-- The loop of `AppendArgsV1Raw_unix`. -/
def unixLoop : Bool → CString → CString → List CString
  | parsedToken, buf, [] => if parsedToken then [buf] else []
  | parsedToken, buf, c :: cs =>
    if isArgSpace c then
      if parsedToken then buf :: unixLoop false [] cs else unixLoop false buf cs
    else unixLoop true (buf ++ [c]) cs

def appendArgsV1RawUnix (l : ArgList) (args : CString) : ArgList × Option ArgError :=
  l.appendRead (unixLoop false [] args,none)

def appendArgsV1Raw (l : ArgList) (args : CString) : ArgList × Option ArgError :=
  match l.v1Syntax with
  | .win32ArgV1Syntax => l.appendArgsV1RawWin32 args
  | .unixArgV1Syntax => l.appendArgsV1RawUnix args
  | .unknownArgV1Syntax =>
    { l with inputWasUnknownPlatformV1 := true }.appendArgsV1RawUnix args

def appendArgsV2Raw (l : ArgList) (args : CString) : ArgList × Option ArgError :=
  l.appendRead (splitArgs args)

/-- `RAW_V2_ARGS_MARKER`. -/
def rawV2ArgsMarker : CChar := space

def appendArgsV1or2Raw (l : ArgList) (args : CString) : ArgList × Option ArgError :=
  if args.head? = some rawV2ArgsMarker then l.appendArgsV2Raw args.tail
  else l.appendArgsV1Raw args

def isV2QuotedString (str : CString) : Bool :=
  (str.dropWhile fun c => isspace c.val).head? = some doubleQuote

/-- The loop of `V2QuotedToV2Raw`: the raw text, and the input from the closing quote on. -/
def v2QuotedLoop : CString → CString → CString × Option CString
  | raw, [] => (raw,none)
  | raw, [c] => if c = doubleQuote then (raw,some [c]) else v2QuotedLoop (raw ++ [c]) []
  | raw, c :: d :: cs =>
    if c = doubleQuote then
      if d = doubleQuote then v2QuotedLoop (raw ++ [d]) cs else (raw,some (c :: d :: cs))
    else v2QuotedLoop (raw ++ [c]) (d :: cs)

/-- `V2QuotedToV2Raw`. It asserts that the input is quoted, which its callers have checked. -/
def v2QuotedToV2Raw (input : CString) : Except ArgError CString :=
  match v2QuotedLoop [] (input.dropWhile fun c => isspace c.val).tail with
  | (_,none) => .error .unterminatedDoubleQuote
  | (raw,some quoteTerminated) =>
    if (quoteTerminated.tail.dropWhile fun c => isspace c.val) = [] then .ok raw
    else .error (.unexpectedCharacters quoteTerminated)

/-- The loop of `V1WackedToV1Raw`. -/
def v1WackedLoop : CString → CString → Except ArgError CString
  | raw, [] => .ok raw
  | raw, [c] =>
    if c = doubleQuote then .error (.unescapedDoubleQuote [c])
    else v1WackedLoop (raw ++ [c]) []
  | raw, c :: d :: cs =>
    if c = doubleQuote then .error (.unescapedDoubleQuote (c :: d :: cs))
    else if c = backslash ∧ d = doubleQuote then v1WackedLoop (raw ++ [d]) cs
    else v1WackedLoop (raw ++ [c]) (d :: cs)

def v1WackedToV1Raw (input : CString) : Except ArgError CString := v1WackedLoop [] input

def appendInner (l : ArgList) (append : CString → ArgList × Option ArgError) :
    Except ArgError CString → ArgList × Option ArgError
  | .error e => (l,some e)
  | .ok raw => append raw

def appendArgsV1WackedOrV2Quoted (l : ArgList) (args : CString) : ArgList × Option ArgError :=
  if isV2QuotedString args then l.appendInner l.appendArgsV2Raw (v2QuotedToV2Raw args)
  else l.appendInner l.appendArgsV1Raw (v1WackedToV1Raw args)

def appendArgsV2Quoted (l : ArgList) (args : CString) : ArgList × Option ArgError :=
  if isV2QuotedString args then l.appendInner l.appendArgsV2Raw (v2QuotedToV2Raw args)
  else (l,some .expectingV2)

def isSafeArgV1Value (str : CString) : Bool := str.all fun c => !isArgSpace c

/-- The loop of `GetArgsStringV1Raw`. -/
def v1RawLoop : List CString → CString → CString × Option ArgError
  | [], result => (result,none)
  | arg :: args, result =>
    if isSafeArgV1Value arg then
      v1RawLoop args ((if result ≠ [] then result ++ [space] else result) ++ arg)
    else (result,some (.notRepresentable arg))

def getArgsStringV1Raw (l : ArgList) (result : CString) : CString × Option ArgError :=
  v1RawLoop l.argsList result

def getArgsStringV2Raw (l : ArgList) (result : CString) : CString := joinArgs l.argsList result

/-- `EscapeChars` of `MyString`. -/
def escapeChars (q : CString) (escape : CChar) (s : CString) : CString :=
  s.flatMap fun c => if c ∈ q then [escape,c] else [c]

def v2RawToV2Quoted (v2Raw result : CString) : CString :=
  result ++ [doubleQuote] ++ escapeChars [doubleQuote] doubleQuote v2Raw ++ [doubleQuote]

def v1RawToV1Wacked (v1Raw result : CString) : CString :=
  result ++ escapeChars [doubleQuote] backslash v1Raw

def getArgsStringV2Quoted (l : ArgList) (result : CString) : CString :=
  v2RawToV2Quoted (l.getArgsStringV2Raw []) result

def getArgsStringV1WackedOrV2Quoted (l : ArgList) (result : CString) : CString :=
  match l.getArgsStringV1Raw [] with
  | (v1Raw,none) => v1RawToV1Wacked v1Raw result
  | (_,some _) => l.getArgsStringV2Quoted result

def getArgsStringV1or2Raw (l : ArgList) (result : CString) : CString :=
  match l.getArgsStringV1Raw result with
  | (result',none) => result'
  | (result',some _) =>
    -- clear the partial output
    l.getArgsStringV2Raw (result'.take result.length ++ [rawV2ArgsMarker])

/-- Whether `GetArgsStringWin32` quotes an argument: blanks, tabs and double quotes are
special. -/
def isSpecialWin32 (arg : CString) : Bool :=
  arg.any fun c => c.val = 32 || c.val = 9 || c = doubleQuote

/-- The loop of `GetArgsStringWin32` over a quoted argument, up to its closing quote, with the
number of backslashes that were just copied. -/
def quotedWin32Loop : Nat → CString → CString
  | backslashes, [] => List.replicate backslashes backslash ++ [doubleQuote]
  | backslashes, c :: cs =>
    if c = backslash then c :: quotedWin32Loop (backslashes + 1) cs
    else if c = doubleQuote then
      List.replicate backslashes backslash ++ [backslash,c] ++ quotedWin32Loop 0 cs
    else c :: quotedWin32Loop 0 cs

/-- One turn of the loop of `GetArgsStringWin32`. -/
def appendArgWin32 (inputWasUnknownPlatformV1 : Bool) (result arg : CString) : CString :=
  let result := if result ≠ [] then result ++ [space] else result
  if inputWasUnknownPlatformV1 || !isSpecialWin32 arg then result ++ arg
  else result ++ [doubleQuote] ++ quotedWin32Loop 0 arg

def getArgsStringWin32 (l : ArgList) (skipArgs : Nat) (result : CString) : CString :=
  (l.argsList.drop skipArgs).foldl (appendArgWin32 l.inputWasUnknownPlatformV1) result

end ArgList

end Condor
