import Condor.Lib.Run
import Condor.ClassAdLog.ClassAd
import Condor.Schedd.JobQueue

/-!
# Attributes of the job queue

Every write is checked against the owner of the ad as it is committed; an ad that is not committed
yet may be written when it belongs to the active cluster. Where the schedd stops, by `EXCEPT`,
`ASSERT` or a null pointer, the result is `none`.
-/

namespace Condor.Schedd

open Lib

/-- The settings of the cluster numbers, with the bounds that the configuration enforces. -/
structure ClusterSettings where
  initial : Int
  increment : Int
  maximum : Int
  initial_pos : 1 ≤ initial
  increment_pos : 1 ≤ increment
  maximum_nonneg : 0 ≤ maximum

/-- `QmgmtPeer`: the authenticated user at the other end of the connection, and whether the
host has `WRITE` permission. -/
structure Peer where
  owner : Option CString
  isAuthenticated : Bool
  writeGranted : Bool

/-- What a request finds outside of the queue: the ClassAd language, the configuration, the
clock, and what an uninitialised variable holds. -/
structure Env where
  parse : CString → Option AttrExpr
  evalString : Attrs → AttrName → Option CString
  evalInteger : Attrs → AttrName → Option Int
  evalBool : Attrs → AttrName → Option Bool
  evalConstraint : Attrs → CString → Bool
  allUsersTrusted : Bool
  superUsers : List CString
  runsAsRootOrCondor : Bool
  realUsername : CString
  uidDomain : CString
  maxJobsSubmitted : Int
  roundParam : CString → Bool
  roundedValue : CString → CString → Option CString
  signatureContains : CString → AttrName → Bool
  globalJobId : ProcId → AttrExpr
  /-- Whether an undefined value that `Delete` left has been written out by a rotation. -/
  rotated : ProcId → AttrName → Bool
  now : Int
  uninitialized : AttrName → Int

structure Qmgmt where
  jobQueue : JobQueue
  nextClusterNum : Int
  nextProcNum : Int
  activeClusterNum : Int
  clusterSize : Int → Option Int
  totalJobsCount : Int
  xactStartTime : Int
  ownerHistory : List CString
  prioRecArrayIsDirty : Bool
  settings : ClusterSettings
  peer : Option Peer

/-- The bits of a `SetAttributeFlags_t` that have a meaning. -/
structure Flags where
  setDirty : Bool
  shouldLog : Bool

def noFlags : Flags := ⟨false,false⟩

section

variable (E : Env)

def lookupString (attrs : Attrs) (n : AttrName) : Option CString :=
  match attrs n with
  | some (.string s) => some s
  | some (.other _) => E.evalString attrs n
  | _ => none

def lookupInteger (attrs : Attrs) (n : AttrName) : Option Int :=
  match attrs n with
  | some (.integer k) => some k
  | some (.boolean b) => some (if b then 1 else 0)
  | some (.other _) => E.evalInteger attrs n
  | _ => none

def lookupBool (attrs : Attrs) (n : AttrName) : Option Bool :=
  match attrs n with
  | some (.boolean b) => some b
  | some (.integer k) => some (k ≠ 0)
  | some (.other _) => E.evalBool attrs n
  | _ => none

end

namespace Qmgmt

variable (E : Env) (q : Qmgmt)

def log (op : QueueOp) : Qmgmt := { q with jobQueue := q.jobQueue.append op }

/-- The attributes in which the `GetAttribute` functions look for one: the value of the
transaction alone, or the committed ad. -/
def attrsSeen (id : ProcId) (n : AttrName) : Attrs :=
  match q.jobQueue.lookupInTransaction id n with
  | some v => Function.update (fun _ => none) n v
  | none =>
    match q.jobQueue.lookupClassAd id with
    | none => fun _ => none
    | some ad => JobQueue.allAttrs q.jobQueue.committed id ad

def getAttributeString (id : ProcId) (n : AttrName) : Option CString :=
  lookupString E (q.attrsSeen id n) n

def getAttributeInt (id : ProcId) (n : AttrName) : Option Int :=
  lookupInteger E (q.attrsSeen id n) n

def getAttributeBool (id : ProcId) (n : AttrName) : Option Bool :=
  lookupBool E (q.attrsSeen id n) n

def isQueueSuperUser (user : CString) : Bool := E.superUsers.contains user

/-- `OwnerCheck2`, given the owner of the ad, if there is an ad and it has one. -/
def ownerCheck2 (testOwner jobOwner : Option CString) : Bool :=
  if E.allUsersTrusted then true
  else
    match testOwner with
    | none => false
    | some user =>
      if isQueueSuperUser E user then true
      else if !E.runsAsRootOrCondor then E.realUsername == user
      else
        match jobOwner with
        | none => true
        | some owner => owner == user

def ownerOf (id : ProcId) (ad : QueueAd) : Option CString :=
  lookupString E (JobQueue.allAttrs q.jobQueue.committed id ad) attrOwner

/-- `!Q_SOCK || OwnerCheck(ad, Q_SOCK->getOwner())`. -/
def ownerCheck (jobOwner : Option CString) : Bool :=
  match q.peer with
  | none => true
  | some p => p.writeGranted && ownerCheck2 E p.owner jobOwner

def isalpha (b : Byte) : Bool := (65 ≤ b && b ≤ 90) || (97 ≤ b && b ≤ 122)

def isValidAttrName : Option CString → Bool
  | none => false
  | some [] => false
  | some (c :: rest) =>
    (isalpha c.val || c.val == 95) &&
      rest.all fun c => isalpha c.val || isdigit c.val || c.val == 95

def isValidAttrValue : Option CString → Bool
  | none => true
  | some v => v.all fun c => c.val != 10 && c.val != 13

/-- The checks at the front of `SetAttribute`: none if the write is refused, else the committed
ad, if there is one. -/
def writableAd (id : ProcId) (name value : Option CString) : Option (Option QueueAd) :=
  if q.peer.any fun p => !p.isAuthenticated then none
  else if !isValidAttrName name then none
  else if !isValidAttrValue value then none
  else
    match q.jobQueue.lookupClassAd id with
    | some ad => if q.ownerCheck E (q.ownerOf E id ad) then some (some ad) else none
    | none =>
      -- an ad that is not committed yet: only in the active cluster, only procs handed out
      if id.cluster ≠ q.activeClusterNum ∨ q.nextProcNum ≤ id.proc then none else some none

def undefinedText : CString := cstr "UNDEFINED"

/-- The record of a value; `LogSetAttribute` writes `UNDEFINED` for a null or empty text. -/
def valueExpr (value : Option CString) : Option AttrExpr :=
  match value with
  | none => E.parse undefinedText
  | some v => E.parse (if v = [] then undefinedText else v)

/-- The committed ad forgets its auto cluster, whatever becomes of the transaction. -/
def dropAutoCluster (id : ProcId) : Qmgmt :=
  let t := q.jobQueue.committed
  let drop (ad : QueueAd) : QueueAd :=
    deleteAttr t id attrAutoClusterAttrs (deleteAttr t id attrAutoClusterId ad)
  { q with jobQueue := { q.jobQueue with committed := t.adjust drop id } }

def forgetAutoCluster (id : ProcId) (ad : Option QueueAd) (n : AttrName) : Qmgmt :=
  let signature := ad.bind fun ad =>
    lookupString E (JobQueue.allAttrs q.jobQueue.committed id ad) attrAutoClusterAttrs
  if signature.any (E.signatureContains · n) then q.dropAutoCluster id else q

def idle : Int := 1
def running : Int := 2
def completed : Int := 4
def universeGrid : Int := 9

/-- The rounding of `SCHEDD_ROUND_ATTR_...`: the value given is kept under another name, and
the rounded one takes its place. -/
def roundAttribute (id : ProcId) (ad : Option QueueAd) (name : CString) (value : Option CString)
    (flags : Flags) : Option (Qmgmt × Option CString) :=
  if E.roundParam name then
    match value with
    | none => none
    | some v =>
      match E.roundedValue name v with
      | none => some (q,value)
      | some v' =>
        let q := q.log (.setAttribute id (attrName (name ++ cstr "_RAW")) (valueExpr E value))
        if flags.shouldLog && ad.isNone then none else some (q,some v')
  else some (q,value)

/-- `DirtyPrioRecArray`, where a write calls for it. -/
def touchPrioRec (n : AttrName) (value : Option CString) : Option Qmgmt :=
  if q.prioRecArrayIsDirty then some q
  else if n = attrAccountingGroup ∨ n = attrJobPrio then
    some { q with prioRecArrayIsDirty := true }
  else if n = attrJobStatus then
    match value with
    | none => none
    | some v => some { q with prioRecArrayIsDirty := atoi v == idle }
  else some q

/-- The part of `SetAttribute` behind its checks. -/
def storeAttribute (id : ProcId) (ad : Option QueueAd) (name : CString) (value : Option CString)
    (flags : Flags) : Option Qmgmt :=
  let n := attrName name
  let q := q.forgetAutoCluster E id ad n
  (q.roundAttribute E id ad name value flags).bind fun r =>
    (r.1.touchPrioRec n r.2).bind fun q =>
      let q := q.log (.setAttribute id n (valueExpr E r.2))
      -- the old value is looked up in the committed ad
      if flags.shouldLog && ad.isNone then none
      else
        let status := (q.getAttributeInt E id attrJobStatus).getD (E.uninitialized attrJobStatus)
        let univ :=
          (q.getAttributeInt E id attrJobUniverse).getD (E.uninitialized attrJobUniverse)
        -- `jobExternallyManaged` asserts that there is an ad
        if flags.setDirty && status != running && univ == universeGrid && ad.isNone then none
        else some q

/-- `SetAttribute` of a name that it does not treat specially. -/
def setOrdinary (id : ProcId) (name : CString) (value : Option CString) (flags : Flags) :
    Option (Qmgmt × Int) :=
  match q.writableAd E id (some name) value with
  | none => some (q,-1)
  | some ad => (q.storeAttribute E id ad name value flags).map fun q => (q,0)

/-- `SetAttributeInt`. -/
def setAttributeInt (id : ProcId) (name : CString) (n : Int) (flags : Flags) :
    Option (Qmgmt × Int) :=
  q.setOrdinary E id name (some (decimalInt n)) flags

def userText (nice : Bool) (owner : CString) : CString :=
  quote :: (if nice then cstr "nice-user." else []) ++ owner ++ cstr "@" ++ E.uidDomain ++ [quote]

/-- The checks of a new value of `Owner`: the owner and the value to be written. -/
def checkOwner (id : ProcId) (value : CString) : Option (CString × CString) :=
  let sockOwner := (q.peer.bind Peer.owner).getD []
  let value :=
    if strcaseeq value undefinedText then
      (if sockOwner = [] then none else some (quote :: sockOwner ++ [quote]))
    else some value
  value.bind fun value =>
    (unquote value).bind fun owner =>
      if (q.getAttributeString E id attrOwner).any (· ≠ owner) && !E.allUsersTrusted then none
      else if !E.allUsersTrusted && owner != sockOwner &&
          (!isQueueSuperUser E sockOwner || !q.ownerHistory.contains owner) then none
      else some (owner,value)

/-- The attributes that `SetAttribute` treats specially: none if the value is refused, else the
value to be written. -/
def specialAttribute (id : ProcId) (n : AttrName) (value : Option CString) (flags : Flags) :
    Option (Option (Qmgmt × Option CString)) :=
  if n = attrOwner then
    value.bind fun v =>
      match q.checkOwner E id v with
      | none => some none
      | some (owner,v) =>
        let nice := (q.getAttributeInt E id attrNiceUser).getD 0
        (q.setOrdinary E id (cstr "User") (some (userText E (nice != 0) owner)) flags).map
          fun r => some ({ r.1 with ownerHistory := owner :: r.1.ownerHistory },some v)
  else if n = attrClusterId then
    value.map fun v => if atoi v ≠ id.cluster then none else some (q,value)
  else if n = attrNiceUser then
    value.bind fun v =>
      match q.getAttributeString E id attrOwner with
      | none => some (some (q,value))
      | some owner =>
        let nice := strcaseeq v (cstr "TRUE")
        (q.setOrdinary E id (cstr "User") (some (userText E nice owner)) flags).map
          fun r => some (r.1,value)
  else if n = attrProcId then
    value.map fun v => if atoi v ≠ id.proc then none else some (q,value)
  else if n = attrJobStatus then
    let status := (q.getAttributeInt E id attrJobStatus).getD 0
    (q.setAttributeInt E id (cstr "LastJobStatus") status flags).map fun r => some (r.1,value)
  else some (some (q,value))

/-- `SetAttribute`. -/
def setAttribute (id : ProcId) (name value : Option CString) (flags : Flags) :
    Option (Qmgmt × Int) :=
  match q.writableAd E id name value with
  | none => some (q,-1)
  | some ad =>
    let name := name.getD []
    (q.specialAttribute E id (attrName name) value flags).bind fun
      | none => some (q,-1)
      | some (q,value) => (q.storeAttribute E id ad name value flags).map fun q => (q,0)

/-- The state of the loop of `SetAttributeByConstraint`: the queue, whether a job was found, and
whether a write was refused. -/
structure Matching where
  q : Qmgmt
  found : Bool
  failed : Bool

/-- One turn of the loop of `SetAttributeByConstraint`. -/
def constraintTurn (constraint name value : Option CString) (flags : Flags) (s : Matching)
    (e : ProcId × QueueAd) : Option Matching :=
  if e.1.cluster ≤ 0 ∨ e.1.proc ≤ -1 then some s
  else
    constraint.bind fun c =>
      let ad := (s.q.jobQueue.lookupClassAd e.1).getD e.2
      if E.evalConstraint (JobQueue.allAttrs s.q.jobQueue.committed e.1 ad) c then
        (s.q.setAttribute E e.1 name value flags).map fun r =>
          ⟨r.1,true,s.failed || decide (r.2 < 0)⟩
      else some s

/-- `SetAttributeByConstraint`, over the ads of the jobs that are committed. -/
def setAttributeByConstraint (constraint name value : Option CString) (flags : Flags) :
    Option (Qmgmt × Int) :=
  (run (constraintTurn E constraint name value flags) ⟨q,false,false⟩ q.jobQueue.committed).map
    fun s => (s.q,if s.failed || !s.found then -1 else 0)

/-- `DeleteAttribute`. -/
def deleteAttribute (id : ProcId) (name : Option CString) : Option (Qmgmt × Int) :=
  let ad := q.jobQueue.lookupClassAd id
  let found := ad.isSome ||
    (name.bind fun s => q.jobQueue.lookupInTransaction id (attrName s)).isSome
  if !found then some (q,-1)
  else if !q.ownerCheck E (ad.bind fun ad => q.ownerOf E id ad) then some (q,-1)
  else
    match name with
    | none => none
    | some s => some (q.log (.deleteAttribute id (attrName s)),1)

/-- `SetTimerAttribute`: a time counted from the begin of the transaction. -/
def setTimerAttribute (id : ProcId) (name : Option CString) (duration : Int) :
    Option (Qmgmt × Int) :=
  if q.xactStartTime = 0 then some (q,-1)
  else q.setAttribute E id name (some (decimalInt (q.xactStartTime + duration))) noFlags

def myProxyPasswordExists : CString := cstr "MyProxyPasswordExists"

/-- `SetMyProxyPassword`, whose file could be written. -/
def setMyProxyPassword (id : ProcId) : Option (Qmgmt × Int) :=
  let id : ProcId := if id.proc = -1 then ⟨id.cluster,0⟩ else id
  (q.setOrdinary E id myProxyPasswordExists (some (cstr "TRUE")) noFlags).bind fun r =>
    if r.2 < 0 then none else some (r.1,0)

/-- `DestroyMyProxyPassword`, whose file could be removed. -/
def destroyMyProxyPassword (id : ProcId) : Option Qmgmt :=
  if q.getAttributeBool E id attrMyProxyPasswordExists ≠ some true then some q
  else
    (q.setOrdinary E id myProxyPasswordExists (some (cstr "FALSE")) noFlags).bind fun r =>
      if r.2 < 0 then none else some r.1

end Qmgmt

/-! ## A plain environment

Values are literals, nobody is a super user, and nothing is rounded. It serves to run requests
on concrete queues. -/

def parseLiteral (s : CString) : Option AttrExpr :=
  match unquote s with
  | some v => some (.string v)
  | none =>
    if strcaseeq s (cstr "TRUE") then some (.boolean true)
    else if strcaseeq s (cstr "FALSE") then some (.boolean false)
    else
      match scanDecimal (bytes s) with
      | some n => some (.integer n)
      | none => some (.other s)

def plainEnv : Env where
  parse := parseLiteral
  evalString _ _ := none
  evalInteger _ _ := none
  evalBool _ _ := none
  evalConstraint _ _ := true
  allUsersTrusted := false
  superUsers := [cstr "root"]
  runsAsRootOrCondor := true
  realUsername := cstr "root"
  uidDomain := cstr "cs.wisc.edu"
  maxJobsSubmitted := 100
  roundParam _ := false
  roundedValue _ _ := none
  signatureContains _ _ := false
  globalJobId id := .string (procIdToStr id)
  rotated _ _ := false
  now := 1000
  uninitialized _ := 0

def plainPeer (user : CString) : Peer where
  owner := some user
  isAuthenticated := true
  writeGranted := true

def plainSettings : ClusterSettings where
  initial := 1
  increment := 1
  maximum := 0
  initial_pos := by decide
  increment_pos := by decide
  maximum_nonneg := by decide

end Condor.Schedd
