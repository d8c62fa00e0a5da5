import Condor.Utils.ArgList
import Condor.Utils.HashTableRuns

/-!
# Environments

`Env` maps variable names to values. The old syntax (V1) separates `name=value` entries by a
delimiter of the platform and cannot escape anything; the new one (V2) is that of argument lists.
-/

namespace Condor

open ArgList (ArgError isArgSpace joinArgs splitArgs isV2QuotedString v2QuotedToV2Raw)

inductive EnvPlatform where
  | unix
  | win32
  deriving DecidableEq

/-- `env_delimiter`. -/
def envDelimiter : EnvPlatform → CChar
  | .unix => ⟨59,by decide⟩
  | .win32 => ⟨124,by decide⟩

def myStringHash (s : CString) : UInt32 :=
  s.foldl (fun result c => (result <<< 5) + result + c.val.toUInt32) 0

structure Env where
  envTable : HashTable CString CString
  inputWasV1 : Bool
  updates : envTable.duplicateKeyBehavior = .updateDuplicateKeys
  unique : envTable.Unique

namespace Env

def new : Env where
  envTable := HashTable.initializeWith myStringHash .updateDuplicateKeys
  inputWasV1 := false
  updates := rfl
  unique := HashTable.unique_initializeWith _ _

def equalsSign : CChar := ⟨61,by decide⟩
def dollar : CChar := ⟨36,by decide⟩
def newlineChar : CChar := ⟨10,by decide⟩

/-- `NO_ENVIRONMENT_VALUE`, by which an entry is kept without a value. -/
def noEnvironmentValue : CString :=
  [⟨1,by decide⟩,⟨2,by decide⟩,⟨3,by decide⟩,⟨4,by decide⟩,⟨5,by decide⟩,⟨6,by decide⟩]

inductive EnvError where
  | emptyExpression
  | missingEquals (nameValueExpr : CString)
  | missingVariable (expr : CString)
  | badArgs (e : ArgError)
  | notCompatible (var val : CString)
  deriving DecidableEq

theorem holds (env : Env) :
    HashTable.Holds env.envTable.hashfcn .updateDuplicateKeys env.envTable env.envTable.lookup :=
  ⟨rfl,env.updates,env.unique,fun _ => rfl⟩

theorem holds_insert (env : Env) (var val : CString) :
    HashTable.Holds env.envTable.hashfcn .updateDuplicateKeys (env.envTable.insert var val).1
      (Function.update env.envTable.lookup var (some val)) := by
  have h := (env.holds.insert (by decide) var val).1
  simpa [HashTable.call,HashTable.mapCall] using h

/-- `SetEnv` with a name and a value. -/
def setEnv (env : Env) (var val : CString) : Env × Bool :=
  if var = [] then (env,false)
  else
    ({ env with
        envTable := (env.envTable.insert var val).1
        updates := (env.holds_insert var val).behaves
        unique := (env.holds_insert var val).unique },true)

/-- `strstr(s, "$$")`. -/
def hasMacro : CString → Bool
  | c :: d :: cs => (c = dollar && d = dollar) || hasMacro (d :: cs)
  | _ => false

/-- `SetEnvWithErrorMessage`. -/
def setEnvWithErrorMessage (env : Env) (nameValueExpr : CString) : Env × Option EnvError :=
  if nameValueExpr = [] then (env,some .emptyExpression)
  else
    match nameValueExpr.dropWhile fun c => c ≠ equalsSign with
    | [] =>
      -- an unexpanded macro is kept verbatim
      if hasMacro nameValueExpr then ((env.setEnv nameValueExpr noEnvironmentValue).1,none)
      else (env,some (.missingEquals nameValueExpr))
    | _ :: val =>
      if nameValueExpr.head? = some equalsSign then (env,some (.missingVariable nameValueExpr))
      else ((env.setEnv (nameValueExpr.takeWhile fun c => c ≠ equalsSign) val).1,none)

def setEntries (env : Env) : List CString → Env × Option EnvError
  | [] => (env,none)
  | entry :: entries =>
    match env.setEnvWithErrorMessage entry with
    | (env',none) => env'.setEntries entries
    | (env',some e) => (env',some e)

def mergeFromV2Raw (env : Env) (delimitedString : CString) : Env × Option EnvError :=
  match splitArgs delimitedString with
  | (_,some e) => (env,some (.badArgs e))
  | (envList,none) => env.setEntries envList

variable (platform : EnvPlatform)

/-- The second loop of `ReadFromDelimitedString`: the entry, and the input behind it. -/
def readEntry : CString → CString × CString
  | [] => ([],[])
  | c :: cs =>
    if c = newlineChar ∨ c = envDelimiter platform then ([],cs)
    else (c :: (readEntry cs).1,(readEntry cs).2)

def readFromDelimitedString (input : CString) : CString × CString :=
  readEntry platform (input.dropWhile isArgSpace)

theorem length_readEntry (cs : CString) : (readEntry platform cs).2.length ≤ cs.length := by
  induction cs with
  | nil => exact Nat.le_refl _
  | cons c cs ih =>
    rw [readEntry]
    split
    · exact Nat.le_succ _
    · exact Nat.le_succ_of_le ih

theorem length_readFromDelimitedString {input : CString} (h : input ≠ []) :
    (readFromDelimitedString platform input).2.length < input.length := by
  have hdrop := (List.dropWhile_suffix (l := input) isArgSpace).length_le
  have hpos := List.length_pos_iff.mpr h
  rw [readFromDelimitedString]
  cases hcs : input.dropWhile isArgSpace with
  | nil => exact hpos
  | cons c cs =>
    rw [hcs] at hdrop
    have hrest := length_readEntry platform cs
    have hstep : (readEntry platform (c :: cs)).2.length ≤ cs.length := by
      rw [readEntry]
      split
      · exact Nat.le_refl _
      · exact hrest
    exact Nat.lt_of_le_of_lt hstep hdrop

/-- The loop of `MergeFromV1Raw`. -/
def mergeV1Loop (env : Env) (input : CString) : Env × Option EnvError :=
  if h : input = [] then (env,none)
  else
    have := length_readFromDelimitedString platform h
    let read := readFromDelimitedString platform input
    if read.1 = [] then mergeV1Loop env read.2
    else
      match env.setEnvWithErrorMessage read.1 with
      | (env',none) => mergeV1Loop env' read.2
      | (env',some e) => (env',some e)
termination_by input.length

def mergeFromV1Raw (env : Env) (delimitedString : CString) : Env × Option EnvError :=
  mergeV1Loop platform { env with inputWasV1 := true } delimitedString

/-- `RAW_V2_ENV_MARKER`. -/
def rawV2EnvMarker : CChar := ArgList.space

def mergeFromV1or2Raw (env : Env) (delimitedString : CString) : Env × Option EnvError :=
  if delimitedString.head? = some rawV2EnvMarker then env.mergeFromV2Raw delimitedString
  else env.mergeFromV1Raw platform delimitedString

def mergeFromV1RawOrV2Quoted (env : Env) (delimitedString : CString) : Env × Option EnvError :=
  if isV2QuotedString delimitedString then
    match v2QuotedToV2Raw delimitedString with
    | .error e => (env,some (.badArgs e))
    | .ok v2 => env.mergeFromV2Raw v2
  else env.mergeFromV1Raw platform delimitedString

/-- `IsSafeEnvV1Value`; without a delimiter that of the platform counts. -/
def isSafeEnvV1Value (str : CString) (delim : Option CChar) : Bool :=
  str.all fun c => c ≠ delim.getD (envDelimiter platform) && c ≠ newlineChar

/-- `WriteToDelimitedString`. Its lists of special characters are empty. -/
def writeToDelimitedString (input output : CString) : CString := output ++ input

/-- The loop of `getDelimitedStringV1Raw`. -/
def v1RawLoop (delim : Option CChar) :
    List (CString × CString) → Bool → CString → CString × Option EnvError
  | [], _, result => (result,none)
  | (var,val) :: entries, emptyString, result =>
    if !isSafeEnvV1Value platform var delim || !isSafeEnvV1Value platform val delim then
      (result,some (.notCompatible var val))
    else
      let result :=
        if emptyString then result else result ++ [delim.getD (envDelimiter platform)]
      let result := writeToDelimitedString var result
      let result :=
        if val = noEnvironmentValue then result
        else writeToDelimitedString val (writeToDelimitedString [equalsSign] result)
      v1RawLoop delim entries false result

def getDelimitedStringV1Raw (env : Env) (result : CString) (delim : Option CChar) :
    CString × Option EnvError :=
  v1RawLoop platform delim env.envTable.entries true result

def entryText (e : CString × CString) : CString :=
  if e.2 = noEnvironmentValue then e.1 else e.1 ++ [equalsSign] ++ e.2

def getDelimitedStringV2Raw (env : Env) (result : CString) (markV2 : Bool) : CString :=
  joinArgs (env.envTable.entries.map entryText)
    (if markV2 then result ++ [rawV2EnvMarker] else result)

def getDelimitedStringV1or2Raw (env : Env) (result : CString) (v1Delim : Option CChar) :
    CString :=
  match env.getDelimitedStringV1Raw platform result v1Delim with
  | (result',none) => result'
  | (result',some _) =>
    -- clear the partial output
    env.getDelimitedStringV2Raw (result'.take result.length) true

inductive Call where
  | mergeFromV1Raw (delimitedString : CString)
  | mergeFromV2Raw (delimitedString : CString)
  | mergeFromV1RawOrV2Quoted (delimitedString : CString)
  | setEnv (nameValueExpr : CString)

def call (env : Env) : Call → Env × Option EnvError
  | .mergeFromV1Raw delimitedString => env.mergeFromV1Raw platform delimitedString
  | .mergeFromV2Raw delimitedString => env.mergeFromV2Raw delimitedString
  | .mergeFromV1RawOrV2Quoted delimitedString =>
    env.mergeFromV1RawOrV2Quoted platform delimitedString
  | .setEnv nameValueExpr => env.setEnvWithErrorMessage nameValueExpr

/-- The environment after some calls. A call that fails keeps what it has set. -/
def after (calls : List Call) : Env :=
  calls.foldl (fun env c => (env.call platform c).1) new

end Env

end Condor
