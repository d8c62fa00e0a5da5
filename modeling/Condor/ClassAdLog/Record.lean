import Condor.Lib.Reader
import Condor.Utils.CString

/-!
# Log records

The seven record kinds of the ClassAd log, their text encoding and the reader. A record is one line:
the operation number, a blank, the body, a newline.
-/

namespace Condor

open Lib Lib.Reader

abbrev AttrText := {v : CString // v ≠ []}

def attrText (v : CString) : AttrText :=
  if h : v = [] then ⟨cstr "UNDEFINED",by decide⟩ else ⟨v,h⟩

inductive LogRecord where
  | newClassAd (key mytype targettype : CString)
  | destroyClassAd (key : CString)
  | setAttribute (key name : CString) (value : AttrText) (isDirty : Bool)
  | deleteAttribute (key name : CString)
  | beginTransaction
  | endTransaction
  | historicalSequenceNumber (number timestamp : UInt64)
  deriving DecidableEq

namespace LogRecord

/-- The constructor of `LogSetAttribute`. -/
def mkSetAttribute (key name value : CString) (dirty : Bool) : LogRecord :=
  .setAttribute key name (attrText value) dirty

def getOpType : LogRecord → Nat
  | newClassAd .. => 101
  | destroyClassAd .. => 102
  | setAttribute .. => 103
  | deleteAttribute .. => 104
  | beginTransaction => 105
  | endTransaction => 106
  | historicalSequenceNumber .. => 107

/-- `get_key`; records without a key answer NULL. -/
def getKey : LogRecord → Option CString
  | newClassAd key _ _ => some key
  | destroyClassAd key => some key
  | setAttribute key _ _ _ => some key
  | deleteAttribute key _ => some key
  | beginTransaction => none
  | endTransaction => none
  | historicalSequenceNumber .. => none

end LogRecord

/-- `EMPTY_CLASSAD_TYPE_NAME`. -/
def emptyClassAdTypeName : CString := cstr "(empty)"

def typePlaceholder (s : CString) : CString := if s = [] then emptyClassAdTypeName else s

def hasNewline (s : CString) : Bool := s.any fun c => c.val == newline

/-- `WriteBody`. Only `LogSetAttribute` can refuse: its three texts must stay on one line. -/
def writeBody : LogRecord → Option (List Byte)
  | .newClassAd key mytype targettype =>
    some (bytes key ++ [blank] ++ bytes (typePlaceholder mytype) ++ [blank] ++
      bytes (typePlaceholder targettype))
  | .destroyClassAd key => some (bytes key)
  | .setAttribute key name value _ =>
    if hasNewline key || hasNewline name || hasNewline value.val then none
    else some (bytes key ++ [blank] ++ bytes name ++ [blank] ++ bytes value.val)
  | .deleteAttribute key name => some (bytes key ++ [blank] ++ bytes name)
  | .beginTransaction => some []
  | .endTransaction => some []
  | .historicalSequenceNumber number timestamp =>
    some (bytes (decimal number.toNat) ++ [blank] ++ bytes (cstr "CreationTimestamp") ++
      [blank] ++ bytes (decimal timestamp.toNat))

/-- `WriteHeader`: the operation number and a blank. -/
def writeHeader (r : LogRecord) : List Byte := bytes (decimal r.getOpType) ++ [blank]

/-- `LogRecord::Write` on a stream whose own writes succeed: the bytes put out and whether the call
reports success. -/
def write (r : LogRecord) : List Byte × Bool :=
  match writeBody r with
  | none => (writeHeader r,false)
  | some body => (writeHeader r ++ body ++ [newline],true)

/-- Characters up to a stop byte, which is consumed. End of file and NUL are errors. -/
def readUntilFrom (stop : Byte → Bool) : List Byte → Except Unit CString × List Byte
  | [] => (.error (),[])
  | b :: rest =>
    if h : b = 0 then (.error (),rest)
    else if stop b then (.ok [],rest)
    else
      match readUntilFrom stop rest with
      | (.ok w,tail) => (.ok (⟨b,h⟩ :: w),tail)
      | (.error e,tail) => (.error e,tail)

def readUntil (stop : Byte → Bool) : Reader Byte Unit CString := readUntilFrom stop

def skipBlanks : List Byte → List Byte
  | [] => []
  | b :: rest => if isspace b && b != newline then skipBlanks rest else b :: rest

def nonEmpty (p : Reader Byte Unit CString) : Reader Byte Unit AttrText := fun s =>
  match p s with
  | (.ok (c :: w),rest) => (.ok ⟨c :: w,by simp⟩,rest)
  | (.ok [],rest) => (.error (),rest)
  | (.error e,rest) => (.error e,rest)

def readword : Reader Byte Unit CString := fun s =>
  match nonEmpty (readUntil isspace) (skipBlanks s) with
  | (.ok w,rest) => (.ok w.val,rest)
  | (.error e,rest) => (.error e,rest)

def readline : Reader Byte Unit AttrText := nonEmpty (readUntil (· == newline))

/-- The one character that `LogBeginTransaction` and `LogEndTransaction` read. -/
def readNewline : Reader Byte Unit Unit := fun s =>
  match s with
  | [] => (.error (),[])
  | b :: rest => if b = newline then (.ok (),rest) else (.error (),rest)

def typeOfPlaceholder (w : CString) : CString := if w = emptyClassAdTypeName then [] else w

/-- `ReadBody` of the record kind with the given operation number, on a freshly made record. -/
def readBody (op : Int) : Option (Reader Byte Unit LogRecord) :=
  if op = 101 then some do
    let key ← readword
    let mytype ← readword
    let targettype ← readword
    return .newClassAd key (typeOfPlaceholder mytype) (typeOfPlaceholder targettype)
  else if op = 102 then some do
    let key ← readword
    return .destroyClassAd key
  else if op = 103 then some do
    let key ← readword
    let name ← readword
    let value ← readline
    return .setAttribute key name value false
  else if op = 104 then some do
    let key ← readword
    let name ← readword
    return .deleteAttribute key name
  else if op = 105 then some do
    let _ ← readNewline
    return .beginTransaction
  else if op = 106 then some do
    let _ ← readNewline
    return .endTransaction
  else if op = 107 then some do
    let number ← readword
    let _ ← readword
    let timestamp ← readword
    return .historicalSequenceNumber (sscanfUnsignedLong number 0)
      (sscanfUnsignedLong timestamp 0)
  else none

/-- Why no record came back: a NULL result, or a fatal `EXCEPT`. -/
inductive ReadFailure where
  | null
  | except
  deriving DecidableEq

/-- `ATTRLIST_MAX_EXPRESSION + 64`, the line buffer of the recovery scan. -/
def recoveryLineSize : Nat := 10240 + 64

/-- Does some line of the rest of the file start with the number of an end of transaction? -/
def findsEndTransaction : Nat → List Byte → Bool
  | 0, _ => false
  | _+1, [] => false
  | fuel+1, b :: rest =>
    let line := fgets (recoveryLineSize - 1) (b :: rest)
    if sscanfInt line.1 = some 106 then true else findsEndTransaction fuel line.2

def recoverCorrupt (s : List Byte) : ReadFailure × List Byte :=
  if findsEndTransaction s.length s then (.except,s) else (.null,[])

def instantiateLogEntry (op : Int) : Reader Byte ReadFailure LogRecord := fun s =>
  match readBody op with
  | none => (.error .null,s)
  | some body =>
    match body s with
    | (.ok r,rest) => (.ok r,rest)
    | (.error _,rest) => (.error (recoverCorrupt rest).1,(recoverCorrupt rest).2)

def readLogEntry : Reader Byte ReadFailure LogRecord := fun s =>
  match readword s with
  | (.error _,rest) => (.error .null,rest)
  | (.ok op,rest) => instantiateLogEntry (atoi op) rest

end Condor
