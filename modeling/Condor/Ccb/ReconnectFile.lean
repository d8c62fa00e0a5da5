import Condor.Ccb.ReconnectInfo
import Condor.Lib.Run

/-!
# The reconnect file

The broker appends a line to its reconnect file for every new target, and rewrites the file through
`<name>.new` when a sweep has pruned records.
-/

namespace Condor.Ccb

/-- The line that `SaveReconnectInfo` prints for a record. -/
def recordLine (info : CCBReconnectInfo) : List Byte :=
  bytes info.peerIp ++ blank :: (bytes (ccbidToString info.ccbid) ++
    blank :: (bytes (ccbidToString info.reconnectCookie) ++ [newline]))

/-- The three words of a line, with the numbers read; a line that is invalid is `none`. -/
def parseRecord (buf : List Byte) (now : Int) : Option CCBReconnectInfo :=
  let ip := scanWord (buf.takeWhile fun b => b ≠ 0)
  let ccbidStr := scanWord ip.2
  let cookieStr := scanWord ccbidStr.2
  if ip.1 = [] ∨ ccbidStr.1 = [] ∨ cookieStr.1 = [] then none
  else
    match ccbidFromString (toCString ccbidStr.1),ccbidFromString (toCString cookieStr.1) with
    | some ccbid,some cookie => some (.new ccbid cookie (toCString ip.1) now)
    | _,_ => none

/-- The loop of `LoadReconnectInfo` over the lines of the file. -/
def loadLines (now : Int) : Nat → List Byte → ReconnectTable → CCBID →
    Except Fault (ReconnectTable × CCBID)
  | 0, _, table, next => .ok (table,next)
  | fuel + 1, s, table, next =>
    if s = [] then .ok (table,next)
    else
      let line := fgets 127 s
      match parseRecord line.1 now with
      | none => loadLines now fuel line.2 table next
      | some info =>
        match table.addReconnectInfo info with
        | .error fault => .error fault
        | .ok table => loadLines now fuel line.2 table (if info.ccbid > next then info.ccbid + 1
          else next)

/-- `LoadReconnectInfo` into an empty table, with the counter; a file that does not exist leaves
both as the constructor has them. -/
def loadReconnectInfo (now : Int) (file : Option (List Byte)) :
    Except Fault (ReconnectTable × CCBID) :=
  match file with
  | none => .ok (.new,1)
  | some s => (loadLines now s.length s .new 1).map fun (table,next) => (table,next + 100)

inductive Name
  | main
  | new
  deriving DecidableEq

structure Files where
  main : Option (List Byte)
  new : Option (List Byte)
  /-- `m_reconnect_fp`, with what is in its buffer. -/
  fp : Option (Name × List Byte)

namespace Files

variable (f : Files)

def content : Name → Option (List Byte)
  | .main => f.main
  | .new => f.new

def set (content : Option (List Byte)) : Name → Files
  | .main => { f with main := content }
  | .new => { f with new := content }

def flush : Files :=
  match f.fp with
  | none => f
  | some (name,buffer) =>
    { f.set (some ((f.content name).getD [] ++ buffer)) name with fp := some (name,[]) }

end Files

inductive FileOp
  /-- Create the file, or else open the existing one. -/
  | openFile (name : Name)
  /-- Write the buffer out, on `fseek`, `fflush` and `fclose`. -/
  | seekEnd
  | print (line : List Byte)
  | flush
  | close
  | removeMain
  | rotate
  deriving DecidableEq

def Files.exec (f : Files) : FileOp → Files
  | .openFile name => { f.set (some ((f.content name).getD [])) name with fp := some (name,[]) }
  | .seekEnd => f.flush
  | .print line =>
    match f.fp with
    | none => f
    | some (name,buffer) => { f with fp := some (name,buffer ++ line) }
  | .flush => f.flush
  | .close => { f.flush with fp := none }
  | .removeMain => { f with main := none }
  | .rotate => { f with main := f.new, new := none }

def Files.stop (f : Files) (flushed : Bool) : Files :=
  { (if flushed then f.flush else f) with fp := none }

structure Broker where
  table : ReconnectTable
  nextCcbid : CCBID
  lastReconnectInfoSweep : Int
  interval : Int
  /-- The table as it was loaded, and whether the counter has come around since. -/
  loaded : ReconnectTable
  cameAround : Bool

structure World where
  files : Files
  broker : Option Broker

abbrev PeerIp := {s : CString // IsWord s ∧ s.length < ipStringBufSize}

inductive Op
  /-- `AddTarget`, where `taken` are the ids under which a target is registered. -/
  | addTarget (taken : CCBID → Bool) (cookie : UInt32) (peerIp : PeerIp) (now : Int)
  /-- `SweepReconnectInfo`, where `connected` are the ids of the targets. -/
  | sweep (connected : List CCBID) (now : Int)

namespace Broker

variable (b : Broker)

def tryCcbid (taken : CCBID → Bool) (ccbid : CCBID) : Attempt Unit :=
  if b.table.lookup ccbid ≠ none then .taken else if taken ccbid then .taken else .placed ()

/-- The id that `AddTarget` hands out. -/
def handOut (taken : CCBID → Bool) : Except Fault CCBID :=
  (nextId (b.tryCcbid taken) ids b.nextCcbid).map fun r => r.2.1

/-- `SaveReconnectInfo` on an open file. -/
def saveReconnectInfo (info : CCBReconnectInfo) : List FileOp := [.seekEnd,.print (recordLine info)]

/-- `SaveAllReconnectInfo` -/
def saveAllReconnectInfo (table : ReconnectTable) : List FileOp :=
  .close :: if table.numElems = 0 then [.removeMain]
    else .openFile .new :: ((table.entries.map Prod.snd).flatMap saveReconnectInfo ++
      [.close,.rotate])

def perform (isOpen : Bool) : Op → Except Fault (Broker × List FileOp)
  | .addTarget taken cookie peerIp now => do
    let ccbid ← b.handOut taken
    let info := CCBReconnectInfo.new ccbid cookie.toUInt64 peerIp.val now
    let table ← b.table.addReconnectInfo info
    .ok ({ b with
      table := table
      nextCcbid := ccbid + 1
      cameAround := b.cameAround || ccbid < b.nextCcbid || ccbid + 1 < ccbid },
      (if isOpen then [] else [.openFile .main]) ++ saveReconnectInfo info)
  | .sweep connected now => do
    let flush := if isOpen then [FileOp.flush] else []
    if b.lastReconnectInfoSweep + b.interval > now then .ok (b,flush)
    else
      let table ← b.table.sweep now b.interval connected
      let b' := { b with table := table, lastReconnectInfoSweep := now }
      .ok (b',flush ++ if table.numElems = b.table.numElems then [] else saveAllReconnectInfo table)

end Broker

inductive Action
  | complete (op : Op)
  /-- The process stops after some of the file operations. -/
  | stopDuring (op : Op) (count : Nat) (flushed : Bool)
  /-- The constructor with `InitAndReconfig`. -/
  | start (now interval : Int)

def Action.op : Action → Option Op
  | .complete op | .stopDuring op _ _ => some op
  | .start _ _ => none

namespace World

def rewrites (w : World) (op : Op) : Bool :=
  match w.broker with
  | none => false
  | some b =>
    match b.perform w.files.fp.isSome op with
    | .error _ => false
    | .ok (_,ops) => .openFile .new ∈ ops

def step (w : World) : Action → Option World
  | .complete op =>
    match w.broker with
    | none => none
    | some b =>
      match b.perform w.files.fp.isSome op with
      | .error _ => none
      | .ok (b,ops) => some ⟨ops.foldl Files.exec w.files,some b⟩
  | .stopDuring op count flushed =>
    match w.broker with
    | none => none
    | some b =>
      match b.perform w.files.fp.isSome op with
      | .error _ => none
      | .ok (_,ops) => some ⟨((ops.take count).foldl Files.exec w.files).stop flushed,none⟩
  | .start now interval =>
    match w.broker with
    | some _ => none
    | none =>
      match loadReconnectInfo now w.files.main with
      | .error _ => none
      | .ok (table,next) =>
        some ⟨{ w.files with fp := w.files.main.map fun _ => (.main,[]) },
          some ⟨table,next,now,interval,table,table.entries.any fun e => e.1.toNat + 101 ≥ 2^64⟩⟩

end World

end Condor.Ccb
