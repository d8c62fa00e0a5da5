import Condor.Utils.Scanf

/-!
# Reading events from a job event log

`readEventOld` reads one event while the writer may be appending. The first attempt sees the file as
it is at the call, the second as it is after the wait.
-/

namespace Condor.UserLog

structure Header where
  cluster : Int
  proc : Int
  subproc : Int
  month : Int
  day : Int
  hour : Int
  minute : Int
  second : Int
  deriving DecidableEq

/-- What `readEvent` makes of the rest of the stream: the fields it has read, if it succeeds, and
how far it has gone. -/
abbrev ReadEvent (ε : Type) := Int → List Byte → Option ε × Nat

structure Event (ε : Type) where
  number : Int
  header : Header
  body : ε
  deriving DecidableEq

inductive Outcome
  | ok
  | noEvent
  | rdError
  | unkError
  deriving DecidableEq

def synchDelimiter : List Byte := [46,46,46,10]

/-- `%0wd`. -/
def zeroPadded (w : Nat) (v : Int) : List Byte :=
  let sign : List Byte := if v < 0 then [45] else []
  let digits := bytes (decimal v.natAbs)
  sign ++ List.replicate (w - sign.length - digits.length) 48 ++ digits

/-- `" (%03d.%03d.%03d) %02d/%02d %02d:%02d:%02d "`. -/
def headerFields (h : Header) : List Byte :=
  32 :: 40 :: (zeroPadded 3 h.cluster ++ [46] ++ zeroPadded 3 h.proc ++ [46] ++
    zeroPadded 3 h.subproc ++ [41,32] ++ zeroPadded 2 (h.month + 1) ++ [47] ++ zeroPadded 2 h.day ++
    [32] ++ zeroPadded 2 h.hour ++ [58] ++ zeroPadded 2 h.minute ++ [58] ++ zeroPadded 2 h.second ++
    [32])

def writeHeader (number : Int) (h : Header) : List Byte := zeroPadded 3 number ++ headerFields h

/-- `synchronize`: read lines, in pieces of at most 511 bytes, up to one that is the delimiter. -/
def synchronizeFrom : List Byte → List Byte → Option (List Byte)
  | _, [] => none
  | piece, b :: s =>
    let piece := piece ++ [b]
    if b = newline ∨ piece.length = 511 then
      if piece = synchDelimiter then some s else synchronizeFrom [] s
    else synchronizeFrom piece s

def synchronize (s : List Byte) : Option (List Byte) := synchronizeFrom [] s

/-- The kinds of events that `instantiateEvent` knows. -/
def instantiable (n : Int) : Bool := (0 ≤ n && n ≤ 30) || n == 33

/-- `" (%d.%d.%d) %d/%d %d:%d:%d "`. -/
def headerFormat : List Directive :=
  [.space,.char 40,.int,.char 46,.int,.char 46,.int,.char 41,.space,.int,.char 47,.int,.space,.int,
    .char 58,.int,.char 58,.int,.space]

def readHeader (s : List Byte) : Option Header × List Byte :=
  let r := scanf headerFormat s
  match r.converted with
  | [cluster,proc,subproc,month,day,hour,minute,second] =>
    (some ⟨cluster,proc,subproc,month - 1,day,hour,minute,second⟩,r.rest)
  | _ => (none,r.rest)

/-- `GenericEvent::readEvent`, with the format `"%[^\n]\n"`. -/
def readGenericEvent (_ : Int) (s : List Byte) : Option (List Byte) × Nat :=
  let info := s.takeWhile (· ≠ newline)
  if s = [] then (none,0)
  else if info = [] then (some [],0)
  else (some info,s.length - (skipSpace (s.drop info.length)).length)

section Reading

variable {ε : Type} (readEvent : ReadEvent ε)

def getEvent (number : Int) (s : List Byte) : Option (Event ε) × List Byte :=
  match readHeader s with
  | (none,rest) => (none,rest)
  | (some header,rest) =>
    let r := readEvent number rest
    (r.1.map fun body => ⟨number,header,body⟩,rest.drop r.2)

structure Answer (ε : Type) where
  outcome : Outcome
  event : Option (Event ε)
  advance : Nat
  deriving DecidableEq

/-- The event was read: it counts when its delimiter is there. The position is not restored. -/
def finish (event : Event ε) (s rest : List Byte) : Answer ε :=
  match synchronize rest with
  | some t => ⟨.ok,some event,s.length - t.length⟩
  | none => ⟨.noEvent,none,s.length⟩

def retry (number : Int) (first : Option (Event ε)) (s : List Byte) : Answer ε :=
  match synchronize s with
  | none => ⟨.noEvent,none,0⟩
  | some _ =>
    let r := scanf [.int] s
    match r.converted with
    | number' :: _ =>
      if number' ≠ number ∧ ¬ instantiable number' then ⟨.unkError,none,s.length - r.rest.length⟩
      else
        -- retval1 is 1, so that !retval1 != 1 holds whatever was read
        let rest := (getEvent readEvent number' r.rest).2
        ⟨.rdError,none,s.length - ((synchronize rest).getD []).length⟩
    | [] =>
      -- retval1 is 0 or EOF, and retval2 that of the first attempt
      if r.retval = 0 then
        match first with
        | some event => finish event s r.rest
        | none => ⟨.rdError,none,s.length - ((synchronize r.rest).getD []).length⟩
      else ⟨.rdError,none,s.length - ((synchronize r.rest).getD []).length⟩

/-- `readEventOld` from a position on, with what the file shows there now and after the wait. -/
def readEventOld (now later : List Byte) : Answer ε :=
  let r := scanf [.int] now
  match r.converted with
  | number :: _ =>
    if instantiable number then
      match getEvent readEvent number r.rest with
      | (some event,rest) => finish event now rest
      | (none,_) => retry readEvent number none later
    else ⟨.unkError,none,now.length - r.rest.length⟩
  | [] =>
    if r.rest = [] then ⟨.noEvent,none,now.length⟩
    else
      -- not a number: the event is read as if its number were 1
      retry readEvent 1 (getEvent readEvent 1 r.rest).1 later

end Reading

end Condor.UserLog
