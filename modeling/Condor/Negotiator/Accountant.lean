import Condor.Lib.RecordStore
import Condor.Lib.Run
import Condor.Negotiator.Groups

/-!
# The accountant of the negotiator

Records of customers, accounting groups and resources in a log with transactions. Groups have their
records among those of the customers.
-/

namespace Condor.Negotiator

open Condor.Lib

inductive Key
  | acct
  | customer (name : CString)
  | resource (name : CString)
  deriving DecidableEq

inductive Attr
  | priority
  | priorityFactor
  | resourcesUsed
  | weightedResourcesUsed
  | unchargedTime
  | weightedUnchargedTime
  | accumulatedUsage
  | weightedAccumulatedUsage
  | beginUsageTime
  | lastUsageTime
  | remoteUser
  | slotWeight
  | startTime
  | matchedConcurrencyLimits
  | lastUpdateTime
  deriving DecidableEq

/-- The value of an attribute; a string is kept as the text that was put between quotes. -/
inductive Value
  | int (i : Int)
  | real (q : ℚ)
  | quoted (s : CString)

abbrev AcctLog := RecordStore.Log Key Attr Value

structure Config where
  root : GroupTree
  useSlotWeights : Bool
  discountSuspendedResources : Bool
  /-- What LookupString finds in an attribute that was assigned a text between quotes, without
  escapes. -/
  stringValue : CString → Option CString

inductive MachineState
  | matched
  | claimed
  | preempting
  | other
  deriving DecidableEq

structure ResourceAd where
  name : CString
  startdIpAddr : Option CString
  slotWeight : Option ℚ
  matchedConcurrencyLimits : Option CString
  state : Option MachineState
  accountingGroup : Option CString
  remoteUser : Option CString
  activity : Option CString

structure Accountant where
  log : AcctLog
  lastUpdateTime : Int
  groupMap : GroupMap

/-- `LookupInteger` and `LookupFloat`. -/
def Value.toInt? : Value → Option Int
  | int i => some i
  | _ => none

def Value.toReal? : Value → Option ℚ
  | real q => some q
  | int i => some i
  | quoted _ => none

def getInt (l : AcctLog) (k : Key) (a : Attr) : Option Int := (l.get k a).bind Value.toInt?

def getReal (l : AcctLog) (k : Key) (a : Attr) : Option ℚ := (l.get k a).bind Value.toReal?

def getString (cfg : Config) (l : AcctLog) (k : Key) (a : Attr) : Option CString :=
  match l.get k a with
  | some (.quoted s) => cfg.stringValue s
  | _ => none

def getResourceName (ad : ResourceAd) : CString :=
  ad.name ++ [atSign] ++ ad.startdIpAddr.getD []

def getSlotWeight (cfg : Config) (ad : ResourceAd) : ℚ :=
  if cfg.useSlotWeights then
    match ad.slotWeight with
    | some w => if w < 0 then 1 else w
    | none => 1
  else 1

def claimant (ad : ResourceAd) : Option CString :=
  match ad.accountingGroup with
  | some g => some g
  | none => ad.remoteUser

def activityCounts (cfg : Config) (ad : ResourceAd) : Bool :=
  if cfg.discountSuspendedResources then
    match ad.activity with
    | none => false
    | some a => !strcaseeq (cstr "Suspended") a
  else true

def isClaimed (cfg : Config) (ad : ResourceAd) : Option CString :=
  match ad.state with
  | some .claimed | some .preempting =>
    match claimant ad with
    | none => none
    | some user => if activityCounts cfg ad then some user else none
  | _ => none

def checkClaimedOrMatched (cfg : Config) (ad : ResourceAd) (customerName : CString) : Bool :=
  match ad.state with
  | some .matched => true
  | some .claimed | some .preempting =>
    match claimant ad with
    | none => false
    | some user => if customerName ≠ user then false else activityCounts cfg ad
  | _ => false

structure Usage where
  resourcesUsed : Int
  weightedResourcesUsed : ℚ
  unchargedTime : Int
  weightedUnchargedTime : ℚ

namespace Usage

def read (l : AcctLog) (name : CString) : Usage where
  resourcesUsed := (getInt l (.customer name) .resourcesUsed).getD 0
  weightedResourcesUsed := (getReal l (.customer name) .weightedResourcesUsed).getD 0
  unchargedTime := (getInt l (.customer name) .unchargedTime).getD 0
  weightedUnchargedTime := (getReal l (.customer name) .weightedUnchargedTime).getD 0

def write (l : AcctLog) (name : CString) (u : Usage) : AcctLog :=
  (((l.setAttribute (.customer name) .resourcesUsed (.int u.resourcesUsed)).setAttribute
    (.customer name) .weightedResourcesUsed (.real u.weightedResourcesUsed)).setAttribute
    (.customer name) .unchargedTime (.int u.unchargedTime)).setAttribute
    (.customer name) .weightedUnchargedTime (.real u.weightedUnchargedTime)

/-- One more resource; the time since the last update is charged negatively. -/
def added (u : Usage) (slotWeight : ℚ) (elapsed : Int) : Usage where
  resourcesUsed := u.resourcesUsed + 1
  weightedResourcesUsed := u.weightedResourcesUsed + slotWeight
  unchargedTime := u.unchargedTime - elapsed
  weightedUnchargedTime := u.weightedUnchargedTime - elapsed * slotWeight

def weightedRemoved (u : Usage) (slotWeight : ℚ) : ℚ :=
  if u.weightedResourcesUsed - slotWeight < 0 then 0 else u.weightedResourcesUsed - slotWeight

def removed (u : Usage) (slotWeight : ℚ) (elapsed : Int) : Usage where
  resourcesUsed := if 0 < u.resourcesUsed then u.resourcesUsed - 1 else u.resourcesUsed
  weightedResourcesUsed := u.weightedRemoved slotWeight
  unchargedTime := u.unchargedTime + elapsed
  weightedUnchargedTime := u.weightedUnchargedTime + elapsed * slotWeight

def groupRemoved (u : Usage) (slotWeight : ℚ) (elapsed : Int) : Usage where
  resourcesUsed := if u.resourcesUsed - 1 < 0 then 0 else u.resourcesUsed - 1
  weightedResourcesUsed := u.weightedRemoved slotWeight
  unchargedTime := u.unchargedTime + elapsed
  weightedUnchargedTime := u.weightedUnchargedTime + elapsed * slotWeight

end Usage

namespace Accountant

variable (cfg : Config)

def removeMatch (s : Accountant) (resourceName : CString) (now : Int) : Accountant :=
  match getString cfg s.log (.resource resourceName) .remoteUser with
  | none => { s with log := s.log.deleteClassAd (.resource resourceName) }
  | some customerName =>
    let startTime := (getInt s.log (.resource resourceName) .startTime).getD 0
    let usage := Usage.read s.log customerName
    let slotWeight := (getReal s.log (.resource resourceName) .slotWeight).getD 1
    let (groupName,groupMap) := getAssignedGroup cfg.root s.groupMap customerName
    let groupUsage := Usage.read s.log groupName
    let startTime := if startTime < s.lastUpdateTime then s.lastUpdateTime else startTime
    let log := s.log.beginTransaction
    let log := (usage.removed slotWeight (now - startTime)).write log customerName
    let log := (groupUsage.groupRemoved slotWeight (now - startTime)).write log groupName
    let log := log.deleteClassAd (.resource resourceName)
    { s with log := log.commitTransaction, groupMap }

def addNewMatch (s : Accountant) (customerName : CString) (ad : ResourceAd) (now : Int) :
    Accountant :=
  let key := Key.resource (getResourceName ad)
  let slotWeight := getSlotWeight cfg ad
  let usage := Usage.read s.log customerName
  let (groupName,groupMap) := getAssignedGroup cfg.root s.groupMap customerName
  let groupUsage := Usage.read s.log groupName
  let log := s.log.beginTransaction
  let log := (usage.added slotWeight (now - s.lastUpdateTime)).write log customerName
  let log := (groupUsage.added slotWeight (now - s.lastUpdateTime)).write log groupName
  let log := log.setAttribute key .remoteUser (.quoted customerName)
  let log := log.setAttribute key .slotWeight (.real slotWeight)
  let log := log.setAttribute key .startTime (.int now)
  let log := match ad.matchedConcurrencyLimits with
    | none => log
    | some limits => log.setAttribute key .matchedConcurrencyLimits (.quoted limits)
  { s with log := log.commitTransaction, groupMap }

def addMatch (s : Accountant) (customerName : CString) (ad : ResourceAd) (now : Int) :
    Accountant :=
  match getString cfg s.log (.resource (getResourceName ad)) .remoteUser with
  | some user =>
    if customerName = user then s
    else (s.removeMatch cfg (getResourceName ad) now).addNewMatch cfg customerName ad now
  | none => s.addNewMatch cfg customerName ad now

def minPriority : ℚ := 1 / 2

def updateCustomer (l : AcctLog) (key : Key) (ad : RecordStore.Rec Attr Value)
    (now timePassed : Int)
    (agingFactor : ℚ) : AcctLog :=
  let int a := (ad a).bind Value.toInt?
  let real a := (ad a).bind Value.toReal?
  let oldPriority := (real .priority).getD 0
  let oldPriority := if oldPriority < minPriority then minPriority else oldPriority
  let setPrioFactor := (real .priorityFactor).isSome
  let unchargedTime := (int .unchargedTime).getD 0
  let accumulatedUsage := (real .accumulatedUsage).getD 0
  let weightedUnchargedTime := (real .weightedUnchargedTime).getD 0
  let weightedAccumulatedUsage := (real .weightedAccumulatedUsage).getD accumulatedUsage
  let beginUsageTime := (int .beginUsageTime).getD 0
  let resourcesUsed := (int .resourcesUsed).getD 0
  let weightedResourcesUsed := (real .weightedResourcesUsed).getD 0
  let recentUsage : ℚ := resourcesUsed + unchargedTime / timePassed
  let weightedRecentUsage := weightedResourcesUsed + weightedUnchargedTime / timePassed
  let priority := oldPriority * agingFactor + weightedRecentUsage * (1 - agingFactor)
  let accumulatedUsage : ℚ := accumulatedUsage + (resourcesUsed * timePassed + unchargedTime)
  let weightedAccumulatedUsage :=
    weightedAccumulatedUsage + (weightedResourcesUsed * timePassed + weightedUnchargedTime)
  let l := l.setAttribute key .priority (.real priority)
  let l := l.setAttribute key .accumulatedUsage (.real accumulatedUsage)
  let l := l.setAttribute key .weightedAccumulatedUsage (.real weightedAccumulatedUsage)
  let l := if 0 < accumulatedUsage ∧ beginUsageTime = 0
    then l.setAttribute key .beginUsageTime (.int now) else l
  let l := if 0 < recentUsage then l.setAttribute key .lastUsageTime (.int now) else l
  let l := l.setAttribute key .unchargedTime (.int 0)
  let l := l.setAttribute key .weightedUnchargedTime (.real 0)
  if priority < minPriority ∧ resourcesUsed = 0 ∧ accumulatedUsage = 0 ∧ setPrioFactor = false
  then l.deleteClassAd key else l

def updatePriorities (s : Accountant) (now : Int) (agingFactor : ℚ) : Accountant :=
  let timePassed := now - s.lastUpdateTime
  if timePassed = 0 then s
  -- the clock has been reset
  else if timePassed < 0 then { s with lastUpdateTime := now }
  else
    let log := s.log.setAttribute .acct .lastUpdateTime (.int now)
    let log := log.table.foldl (fun l e =>
      match e.1 with
      | .customer name => updateCustomer l (.customer name) e.2 now timePassed agingFactor
      | _ => l) log.beginTransaction
    { s with log := log.commitTransaction, lastUpdateTime := now }

end Accountant

/-! CheckMatches over any state that has the log in it, with RemoveMatch and AddMatch given. The
clock is read once in each of their calls. -/

section CheckMatches

variable {σ : Type} (cfg : Config) (log : σ → AcctLog) (remove : σ → CString → Int → σ)
  (add : σ → CString → ResourceAd → Int → σ) (ads : List ResourceAd) (clock : Nat → Int)

def removeRound (x : σ × CString × Nat) (key : Key) : σ × CString × Nat :=
  match key with
  | .resource name =>
    match ads.reverse.find? fun ad => getResourceName ad = name with
    | none => (remove x.1 name (clock x.2.2),x.2.1,x.2.2 + 1)
    | some ad =>
      let customerName := (getString cfg (log x.1) (.resource name) .remoteUser).getD x.2.1
      if checkClaimedOrMatched cfg ad customerName then (x.1,customerName,x.2.2)
      else (remove x.1 name (clock x.2.2),customerName,x.2.2 + 1)
  | _ => x

def addRound (x : σ × Nat) (ad : ResourceAd) : σ × Nat :=
  match isClaimed cfg ad with
  | some user => (add x.1 user ad (clock x.2),x.2 + 1)
  | none => x

def checkMatchesWith (s : σ) : σ :=
  let afterRemoves := ((log s).table.map Prod.fst).foldl (removeRound cfg log remove ads clock)
    (s,[],0)
  (ads.foldl (addRound cfg add clock) (afterRemoves.1,afterRemoves.2.2)).1

end CheckMatches

def Accountant.start (cfg : Config) (lastUpdateTime : Int) : Accountant :=
  ⟨⟨[],none⟩,lastUpdateTime,initialGroups cfg.root⟩

end Condor.Negotiator
