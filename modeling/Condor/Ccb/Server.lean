import Condor.Ccb.ReconnectInfo

/-!
# The connection broker

Target daemons register and keep a connection; clients ask for a reversed connection to a target.
-/

namespace Condor.Ccb

open Function

abbrev Sock := Nat

structure CCBTarget where
  ccbid : CCBID
  pendingRequestResults : Int := 0
  socketIsRegistered : Bool := false
  requests : Option (HashTable CCBID Sock) := none

structure CCBServerRequest where
  targetCcbid : CCBID
  requestId : CCBID
  returnAddr : CString
  connectId : CString
  deriving DecidableEq

/-- What `daemonCore` calls when a registered socket can be read. -/
inductive Handler
  | handleRequestResultsMsg
  | handleRequestDisconnect
  deriving DecidableEq

structure CCBServer where
  targets : HashTable CCBID Sock
  reconnectInfo : ReconnectTable
  requests : HashTable CCBID Sock
  lastReconnectInfoSweep : Int
  reconnectInfoSweepInterval : Int
  nextCcbid : CCBID
  nextRequestId : CCBID
  targetAt : Sock → Option CCBTarget
  requestAt : Sock → Option CCBServerRequest
  /-- The sockets that are registered with `daemonCore`; the data pointer is the owner. -/
  sockTable : Sock → Option Handler
  nextSock : Sock

inductive TargetMsg
  /-- The connection is gone or the ad cannot be read. -/
  | disconnect
  /-- A heartbeat, and whether the response can be sent. -/
  | alive (sent : Bool)
  /-- The result of a request, and whether the client's socket can be read. -/
  | result (requestId connectId : CString) (clientReady : Bool)

namespace CCBServer

/-- The constructor, with what `InitAndReconfig` sets and loads. -/
def new (reconnectInfo : ReconnectTable) (nextCcbid : CCBID) (now interval : Int) : CCBServer where
  targets := .initializeWith ccbidHash .rejectDuplicateKeys
  reconnectInfo := reconnectInfo
  requests := .initializeWith ccbidHash .rejectDuplicateKeys
  lastReconnectInfoSweep := now
  reconnectInfoSweepInterval := interval
  nextCcbid := nextCcbid
  nextRequestId := 1
  targetAt _ := none
  requestAt _ := none
  sockTable _ := none
  nextSock := 0

variable (s : CCBServer)

def target (p : Sock) : Except Fault CCBTarget :=
  match s.targetAt p with
  | none => .error .freed
  | some target => .ok target

def request (r : Sock) : Except Fault CCBServerRequest :=
  match s.requestAt r with
  | none => .error .freed
  | some request => .ok request

def setTarget (p : Sock) (target : Option CCBTarget) : CCBServer :=
  { s with targetAt := update s.targetAt p target }

def setRequest (r : Sock) (request : Option CCBServerRequest) : CCBServer :=
  { s with requestAt := update s.requestAt r request }

/-- `Register_Socket` with `Register_DataPtr`; a socket cannot be registered twice. -/
def registerSocket (p : Sock) (handler : Handler) : Except Fault CCBServer :=
  match s.sockTable p with
  | some _ => .error .except
  | none => .ok { s with sockTable := update s.sockTable p (some handler) }

def cancelSocket (p : Sock) : CCBServer :=
  { s with sockTable := update s.sockTable p none }

/-- `incPendingRequestResults` -/
def incPendingRequestResults (p : Sock) : Except Fault CCBServer := do
  let target ← s.target p
  let target := { target with pendingRequestResults := target.pendingRequestResults + 1 }
  if target.socketIsRegistered then .ok (s.setTarget p (some target))
  else
    let s ← s.registerSocket p .handleRequestResultsMsg
    .ok (s.setTarget p (some { target with socketIsRegistered := true }))

/-- `decPendingRequestResults` -/
def decPendingRequestResults (p : Sock) : Except Fault CCBServer := do
  let target ← s.target p
  let target := { target with pendingRequestResults := target.pendingRequestResults - 1 }
  if target.pendingRequestResults ≤ 0 ∧ target.socketIsRegistered then
    .ok ((s.cancelSocket p).setTarget p (some { target with socketIsRegistered := false }))
  else .ok (s.setTarget p (some target))

/-- `CCBTarget::AddRequest` -/
def targetAddRequest (p r : Sock) (requestId : CCBID) : Except Fault CCBServer := do
  let s ← s.incPendingRequestResults p
  let target ← s.target p
  let table := target.requests.getD (.initializeWith ccbidHash .rejectDuplicateKeys)
  match table.insert requestId r with
  | (_,false) => .error .except
  | (table,true) => .ok (s.setTarget p (some { target with requests := some table }))

/-- `CCBTarget::RemoveRequest`; an empty table is deleted. -/
def targetRemoveRequest (p : Sock) (requestId : CCBID) : Except Fault CCBServer := do
  let target ← s.target p
  match target.requests with
  | none => .ok s
  | some table =>
    let table := table.remove requestId
    .ok (s.setTarget p
      (some { target with requests := if table.numElems = 0 then none else some table }))

def removeRequest (r : Sock) : Except Fault CCBServer := do
  let request ← s.request r
  let s := s.cancelSocket r
  if s.requests.lookup request.requestId = none then .error .except
  else
    let s := { s with requests := s.requests.remove request.requestId }
    let s ← match s.targets.lookup request.targetCcbid with
      | none => .ok s
      | some p => s.targetRemoveRequest p request.requestId
    .ok (s.setRequest r none)

/-- The loop of `RemoveTarget`, which removes a request of the target until there is none. -/
def hangUp : Nat → CCBServer → Sock → Except Fault CCBServer
  | 0, _, _ => .error .looping
  | fuel + 1, s, p => do
    let target ← s.target p
    match target.requests with
    | none => .ok s
    | some table =>
      match table.entries.head? with
      | none => .ok s
      | some e =>
        let s ← s.removeRequest e.2
        hangUp fuel s p

def removeTarget (p : Sock) : Except Fault CCBServer := do
  let s ← hangUp (s.requests.numElems + 1) s p
  let target ← s.target p
  if s.targets.lookup target.ccbid = none then .error .except
  else
    let s := { s with targets := s.targets.remove target.ccbid }
    -- the destructor
    let s := if target.socketIsRegistered then s.cancelSocket p else s
    .ok (s.setTarget p none)

/-- `ReconnectTarget` for a target that is not in the table yet; false is none. -/
def reconnectTarget (p : Sock) (ccbid cookie : CCBID) (peerIp : CString) (now : Int) :
    Except Fault (Option CCBServer) :=
  match s.reconnectInfo.lookup ccbid with
  | none => .ok none
  | some info =>
    if info.peerIp ≠ peerIp then .ok none
    else if cookie ≠ info.reconnectCookie then .ok none
    else do
      let s := { s with reconnectInfo := s.reconnectInfo.adjust ccbid (ReconnectTable.alive now) }
      let s ← match s.targets.lookup ccbid with
        | none => .ok s
        | some existing => s.removeTarget existing
      match s.targets.insert ccbid p with
      | (_,false) => .error .except
      | (targets,true) =>
        .ok (some ({ s with targets := targets }.setTarget p (some { ccbid := ccbid })))

/-- The body of the loop of `AddTarget`. -/
def tryTarget (p : Sock) (ccbid : CCBID) : Attempt (HashTable CCBID Sock) :=
  if s.reconnectInfo.lookup ccbid ≠ none then .taken
  else
    match s.targets.insert ccbid p with
    | (targets,true) => .placed targets
    | (_,false) => if s.targets.lookup ccbid = none then .refused else .taken

/-- `AddTarget`, with the id that the target has got. -/
def addTarget (p : Sock) (cookie : UInt32) (peerIp : CString) (now : Int) :
    Except Fault (CCBServer × CCBID) := do
  let (targets,ccbid,nextCcbid) ← nextId (s.tryTarget p) ids s.nextCcbid
  let reconnectInfo ← s.reconnectInfo.addReconnectInfo (.new ccbid cookie.toUInt64 peerIp now)
  let s := { s with targets := targets, nextCcbid := nextCcbid, reconnectInfo := reconnectInfo }
  .ok (s.setTarget p (some { ccbid := ccbid }),ccbid)

/-- The body of the loop of `AddRequest`. -/
def tryRequest (r : Sock) (requestId : CCBID) : Attempt (HashTable CCBID Sock) :=
  match s.requests.insert requestId r with
  | (requests,true) => .placed requests
  | (_,false) => if s.requests.lookup requestId = none then .refused else .taken

def addRequest (r p : Sock) (targetCcbid : CCBID) (returnAddr connectId : CString) :
    Except Fault CCBServer := do
  let (requests,requestId,nextRequestId) ← nextId (s.tryRequest r) ids s.nextRequestId
  let s := { s with requests := requests, nextRequestId := nextRequestId }
  let s := s.setRequest r (some ⟨targetCcbid,requestId,returnAddr,connectId⟩)
  let s ← s.targetAddRequest p r requestId
  s.registerSocket r .handleRequestDisconnect

structure Msg where
  ccbid : Option CString
  claimId : Option CString
  myAddress : Option CString := none

def reconnecting (msg : Msg) : Option (CCBID × CCBID) := do
  let cookie ← ccbidFromString (← msg.claimId)
  let ccbid ← ccbidFromContactString (← msg.ccbid)
  return (ccbid,cookie)

/-- `HandleRegistration`: `sent` says whether the reply could be sent. -/
def handleRegistration (msg : Msg) (peerIp : CString) (cookie : UInt32) (sent : Bool) (now : Int) :
    Except Fault CCBServer := do
  let p := s.nextSock
  let s := { s with nextSock := p + 1 }
  let reconnected ← match reconnecting msg with
    | none => .ok none
    | some (ccbid,cookie) => (s.reconnectTarget p ccbid cookie peerIp now)
  let s ← match reconnected with
    | some s => .ok s
    | none => (s.addTarget p cookie peerIp now).map Prod.fst
  let target ← s.target p
  if s.reconnectInfo.lookup target.ccbid = none then .error .except
  else if sent then .ok s else s.removeTarget p

/-- `HandleRequest`: `forwarded` says whether the message could be sent to the target. -/
def handleRequest (msg : Msg) (forwarded : Bool) : Except Fault CCBServer :=
  match msg.ccbid,msg.myAddress,msg.claimId with
  | some ccbidStr,some returnAddr,some connectId =>
    match ccbidFromString ccbidStr with
    | none => .ok s
    | some ccbid =>
      match s.targets.lookup ccbid with
      | none => .ok s
      | some p => do
        let r := s.nextSock
        let s ← { s with nextSock := r + 1 }.addRequest r p ccbid returnAddr connectId
        if forwarded then .ok s else s.removeRequest r
  | _,_,_ => .ok s

def handleRequestResultsMsg (p : Sock) (msg : TargetMsg) : Except Fault CCBServer :=
  match msg with
  | .disconnect => s.removeTarget p
  | .alive sent => do
    let _ ← s.target p
    if sent then .ok s else s.removeTarget p
  | .result requestId connectId clientReady => do
    let s ← s.decPendingRequestResults p
    match ccbidFromString requestId with
    | none => s.removeTarget p
    | some reqid =>
      match s.requests.lookup reqid with
      | none => .ok s
      | some r => do
        let request ← s.request r
        if clientReady then s.removeRequest r
        else if connectId ≠ request.connectId then s.removeTarget p
        else s.removeRequest r

def sweepReconnectInfo (now : Int) : Except Fault CCBServer := do
  if s.lastReconnectInfoSweep + s.reconnectInfoSweepInterval > now then .ok s
  else
    let connected ← s.targets.entries.mapM fun e => (s.target e.2).map CCBTarget.ccbid
    let reconnectInfo ← s.reconnectInfo.sweep now s.reconnectInfoSweepInterval connected
    .ok { s with lastReconnectInfoSweep := now, reconnectInfo := reconnectInfo }

/-- The loop of `PollSockets`. An entry that has been removed is not visited. -/
def pollTargets (msgs : Sock → Option TargetMsg) :
    List (CCBID × Sock) → CCBServer → Except Fault CCBServer
  | [], s => .ok s
  | e :: es, s =>
    match s.targets.lookup e.1,msgs e.2 with
    | some p,some msg => do
      let s ← if p = e.2 then s.handleRequestResultsMsg p msg else .ok s
      pollTargets msgs es s
    | _,_ => pollTargets msgs es s

def pollSockets (msgs : Sock → Option TargetMsg) (now : Int) : Except Fault CCBServer := do
  let s ← pollTargets msgs s.targets.entries s
  s.sweepReconnectInfo now

inductive Event
  | registration (msg : Option Msg) (peerIp : CString) (cookie : UInt32) (sent : Bool) (now : Int)
  | request (msg : Option Msg) (forwarded : Bool)
  /-- A registered socket can be read; the message matters for the socket of a target only. -/
  | socketReady (p : Sock) (msg : TargetMsg)
  | pollSockets (msgs : Sock → Option TargetMsg) (now : Int)
  | sweepReconnectInfo (now : Int)

def step : Event → Except Fault CCBServer
  | .registration none _ _ _ _ => .ok s
  | .registration (some msg) peerIp cookie sent now =>
    s.handleRegistration msg peerIp cookie sent now
  | .request none _ => .ok s
  | .request (some msg) forwarded => s.handleRequest msg forwarded
  | .socketReady p msg =>
    match s.sockTable p with
    | none => .ok s
    | some .handleRequestResultsMsg => s.handleRequestResultsMsg p msg
    | some .handleRequestDisconnect => s.removeRequest p
  | .pollSockets msgs now => s.pollSockets msgs now
  | .sweepReconnectInfo now => s.sweepReconnectInfo now

def run : CCBServer → List Event → Except Fault CCBServer
  | s, [] => .ok s
  | s, e :: es =>
    match s.step e with
    | .error fault => .error fault
    | .ok s => run s es

end CCBServer

end Condor.Ccb
