import Mathlib.Algebra.GroupWithZero.Nat
import Condor.Lib.DoubleList
import Condor.Lib.SiblingTree

/-!
# The process family monitor

The objects of the monitor live at addresses that are never used again; an object that was deleted
is not there any more, and to look at it ends the daemon, as a failed `ASSERT` does.
-/

namespace Condor.Procd

open Condor.Lib Function

abbrev Pid := Int

/-- `procInfo`, and the groups that the status file of the process names, none when it cannot be
read. -/
structure ProcInfo where
  pid : Pid
  ppid : Pid
  birthday : Nat
  userTime : Nat := 0
  sysTime : Nat := 0
  owner : Nat := 0
  penvid : List String := []
  groups : List (BitVec 32) := []
  deriving DecidableEq

structure ProcFamily where
  rootPid : Pid := 0
  rootBirthday : Nat := 0
  watcherPid : Pid := 0
  exitedUserCpuTime : Nat := 0
  exitedSysCpuTime : Nat := 0
  deriving DecidableEq

structure ProcFamilyMember where
  family : Nat
  procInfo : ProcInfo
  stillAlive : Bool
  deriving DecidableEq

/-- `GIDPool` -/
structure GIDPool where
  allocating : Bool
  offset : BitVec 32
  map : List (Option Nat)
  deriving DecidableEq

structure Monitor where
  nextFamily : Nat := 0
  nextMember : Nat := 0
  families : Nat → Option ProcFamily := fun _ => none
  members : Nat → Option ProcFamilyMember := fun _ => none
  memberList : Nat → Option Nat := fun _ => none
  /-- `m_prev` and `m_next` of the members. -/
  neighbours : Neighbours Nat := ⟨fun _ => none,fun _ => none⟩
  links : TreeLinks Nat := ⟨fun _ => none,fun _ => none,fun _ => none⟩
  everybodyElse : Nat := 0
  tree : Nat := 1
  exceptIfPidDies : Bool
  familyTable : Pid → Option Nat := fun _ => none
  memberTable : Pid → Option Nat := fun _ => none
  pidTracker : List ((Pid × Nat) × Nat) := []
  loginTracker : List (Nat × Nat) := []
  environmentTracker : List (List String × Nat) := []
  groupTracker : Option GIDPool := none

inductive ProcFamilyError
  | success
  | badRootPid
  | badWatcherPid
  | badSnapshotInterval
  | alreadyRegistered
  | familyNotFound
  | processNotFamily
  | unregisterRoot
  | noGroupIdAvailable
  deriving DecidableEq

/-- `TrackerHelperList::remove_mapping`: the first mapping of the family goes. -/
def removeMapping {α : Type} (family : Nat) : List (α × Nat) → List (α × Nat)
  | [] => []
  | e :: es => if e.2 = family then es else e :: removeMapping family es

/-- `TrackerHelperList::find_family` -/
def findFamily {α : Type} (test : α → Bool) (es : List (α × Nat)) : Option Nat :=
  (es.find? fun e => test e.1).map Prod.snd

/-- `PIDTag::test` -/
def testPid (pi : ProcInfo) (tag : Pid × Nat) : Bool := pi.pid = tag.1 && pi.birthday = tag.2

/-- `LoginTag::test` -/
def testLogin (pi : ProcInfo) (uid : Nat) : Bool := pi.owner = uid

/-- `pidenvid_match`, on the active entries: each of the left is counted for each of the right that
is the same. -/
def pidenvidMatch (left right : List String) : Bool :=
  (left.map fun e => right.count e).sum = left.length && left.length != 0

namespace GIDPool

def allocate (pool : GIDPool) (family : Nat) : Option (GIDPool × BitVec 32) :=
  match pool.map.findIdx? (· = none) with
  | none => none
  | some i =>
    some ({ pool with map := pool.map.set i (some family) },pool.offset + BitVec.ofNat 32 i)

def index (pool : GIDPool) (gid : BitVec 32) : Option Nat :=
  let i := (gid - pool.offset).toInt
  if i < 0 ∨ pool.map.length ≤ i then none else some i.toNat

def associate (pool : GIDPool) (family : Nat) (gid : BitVec 32) : Option GIDPool :=
  match pool.index gid with
  | none => none
  | some i =>
    match pool.map[i]? with
    | some none => some { pool with map := pool.map.set i (some family) }
    | _ => none

def getFamily (pool : GIDPool) (gid : BitVec 32) : Option Nat :=
  match pool.index gid with
  | none => none
  | some i => (pool.map[i]?).join

def free (pool : GIDPool) (family : Nat) : GIDPool :=
  match pool.map.findIdx? (· = some family) with
  | none => pool
  | some i => { pool with map := pool.map.set i none }

/-- `GroupTracker::add_mapping` -/
def addMapping (pool : GIDPool) (family : Nat) (gid : BitVec 32) : Option (GIDPool × BitVec 32) :=
  if pool.allocating then pool.allocate family
  else (pool.associate family gid).map fun pool => (pool,gid)

end GIDPool

namespace Monitor

/-- `lookup_family` -/
def lookupFamily (m : Monitor) (pid : Pid) (zeroMeansRoot : Bool) : Option Nat :=
  if zeroMeansRoot && pid = 0 then some m.tree else m.familyTable pid

def added (m : Monitor) (family : Nat) (pi : ProcInfo) : Monitor :=
  { m with
    nextMember := m.nextMember + 1
    members := update m.members m.nextMember (some ⟨family,pi,false⟩)
    neighbours := m.neighbours.push (m.memberList family) m.nextMember
    memberList := update m.memberList family (some m.nextMember)
    memberTable := update m.memberTable pi.pid (some m.nextMember) }

/-- `ProcFamily::add_member`, with `ProcFamilyMonitor::add_member`. -/
def addMember (m : Monitor) (family : Nat) (pi : ProcInfo) : Option Monitor :=
  if m.memberTable pi.pid = none then some (m.added family pi) else none

def setMember (m : Monitor) (x : Nat) (member : ProcFamilyMember) : Monitor :=
  { m with members := update m.members x (some member) }

/-- `ProcFamilyMember::still_alive` -/
def stillAlive (m : Monitor) (x : Nat) (member : ProcFamilyMember) (pi : ProcInfo) : Monitor :=
  m.setMember x { member with procInfo := pi, stillAlive := true }

def unlinked (m : Monitor) (family : Nat) (prev next : Option Nat) : Monitor :=
  { m with
    neighbours := (m.neighbours.join (m.memberList family) prev next).1
    memberList := update m.memberList family
      (m.neighbours.join (m.memberList family) prev next).2 }

def relinked (m : Monitor) (x : Nat) (member : ProcFamilyMember) (family : Nat) : Monitor :=
  { m with
    members := update m.members x (some { member with family := family })
    neighbours := m.neighbours.push (m.memberList family) x
    memberList := update m.memberList family (some x) }

/-- `ProcFamilyMember::move_to_subfamily` -/
def moveToSubfamily (m : Monitor) (x : Nat) (subfamily : Nat) : Option Monitor := do
  let member ← m.members x
  let m := m.unlinked member.family (m.neighbours.prev x) (m.neighbours.next x)
  some (m.relinked x member subfamily)

def buried (m : Monitor) (family : Nat) (fam : ProcFamily) (x : Nat) (member : ProcFamilyMember) :
    Monitor :=
  { m with
    families := update m.families family (some { fam with
      exitedUserCpuTime := fam.exitedUserCpuTime + member.procInfo.userTime
      exitedSysCpuTime := fam.exitedSysCpuTime + member.procInfo.sysTime })
    memberTable := update m.memberTable member.procInfo.pid none
    members := update m.members x none }

/-- The part of `ProcFamily::remove_exited_processes` for a member that has exited. -/
def removeExited (m : Monitor) (family : Nat) (x : Nat) (member : ProcFamilyMember)
    (prev next : Option Nat) : Option Monitor := do
  let fam ← m.families family
  let _ ← m.memberTable member.procInfo.pid
  some ((m.buried family fam x member).unlinked family prev next)

/-- The loop of `ProcFamily::remove_exited_processes`, from a member on. -/
def removeExitedFrom (family : Nat) : Nat → Monitor → Option Nat → Option Nat → Option Monitor
  | 0, _, _, _ => none
  | _ + 1, m, _, none => some m
  | n + 1, m, prev, some x => do
    let member ← m.members x
    let next := m.neighbours.next x
    if member.stillAlive then
      removeExitedFrom family n (m.setMember x { member with stillAlive := false }) (some x) next
    else
      let m ← m.removeExited family x member prev next
      removeExitedFrom family n m prev next

def removeExitedProcesses (m : Monitor) (family : Nat) : Option Monitor :=
  removeExitedFrom family (m.nextMember + 1) m none (m.memberList family)

def repoint (family : Nat) : Nat → Monitor → Nat → Option (Monitor × Nat)
  | 0, _, _ => none
  | n + 1, m, x => do
    let member ← m.members x
    let m := m.setMember x { member with family := family }
    match m.neighbours.next x with
    | none => some (m,x)
    | some y => repoint family n m y

def inherited (m : Monitor) (parent : Nat) (par fam : ProcFamily) : Monitor :=
  { m with
    families := update m.families parent (some { par with
      exitedUserCpuTime := par.exitedUserCpuTime + fam.exitedUserCpuTime
      exitedSysCpuTime := par.exitedSysCpuTime + fam.exitedSysCpuTime }) }

def spliced (m : Monitor) (family parent head last : Nat) : Monitor :=
  { m with
    neighbours := m.neighbours.link last (m.memberList parent)
    memberList := update (update m.memberList parent (some head)) family none }

/-- `ProcFamily::fold_into_parent` -/
def foldIntoParent (m : Monitor) (family parent : Nat) : Option Monitor := do
  let fam ← m.families family
  let par ← m.families parent
  let m := m.inherited parent par fam
  match m.memberList family with
  | none => some m
  | some head => do
    let (m,last) ← repoint parent (m.nextMember + 1) m head
    some (m.spliced family parent head last)

/-- `unregister_subfamily` for a node of the tree. -/
def unregisterNode (m : Monitor) (node : Nat) : Option Monitor := do
  let m := { m with
    pidTracker := removeMapping node m.pidTracker
    groupTracker := m.groupTracker.map fun pool : GIDPool => pool.free node
    loginTracker := removeMapping node m.loginTracker
    environmentTracker := removeMapping node m.environmentTracker }
  let fam ← m.families node
  let _ ← m.familyTable fam.rootPid
  let m := { m with familyTable := update m.familyTable fam.rootPid none }
  let parent ← m.links.parent node
  let m ← m.foldIntoParent node parent
  let links ← m.links.remove m.nextFamily node
  some { m with links := links, families := update m.families node none }

def isAbove (m : Monitor) (family : Nat) : Nat → Nat → Option Bool
  | 0, _ => none
  | n + 1, node =>
    match m.links.parent node with
    | none => some false
    | some node => if node = family then some true else m.isAbove family n node

/-- `add_member_to_family`; true when the process is in another family than before. -/
def addMemberToFamily (m : Monitor) (family : Nat) (pi : ProcInfo) : Option (Monitor × Bool) := do
  let fam ← m.families family
  match m.memberTable pi.pid with
  | none =>
    let m ← m.addMember family pi
    some (m,true)
  | some x =>
    let member ← m.members x
    if family ≠ member.family then
      let node ← m.lookupFamily fam.rootPid false
      let moreSpecific ← m.isAbove member.family m.nextFamily node
      if moreSpecific then
        let m ← m.moveToSubfamily x family
        some (m,true)
      else some (m,false)
    else some (m,false)

def checkProcess (find : Monitor → ProcInfo → Option Nat) (m : Monitor) (pi : ProcInfo) :
    Option (Monitor × Bool) :=
  match find m pi with
  | none => some (m,false)
  | some family => m.addMemberToFamily family pi

/-- `ProcFamilyTracker::find_processes`; true when some process has changed its family. -/
def findProcesses (find : Monitor → ProcInfo → Option Nat) :
    Monitor → List ProcInfo → Option (Monitor × Bool)
  | m, [] => some (m,false)
  | m, pi :: pis => do
    let (m,changed) ← m.checkProcess find pi
    let (m,changed') ← findProcesses find m pis
    some (m,changed || changed')

def findByPid (m : Monitor) (pi : ProcInfo) : Option Nat := findFamily (testPid pi) m.pidTracker

def findByLogin (m : Monitor) (pi : ProcInfo) : Option Nat :=
  findFamily (testLogin pi) m.loginTracker

def findByEnvironment (m : Monitor) (pi : ProcInfo) : Option Nat :=
  findFamily (fun tag => pidenvidMatch tag pi.penvid) m.environmentTracker

def findByGroup (m : Monitor) (pi : ProcInfo) : Option Nat :=
  match m.groupTracker with
  | none => none
  | some pool => pi.groups.findSome? pool.getFamily

/-- `ParentTracker::check_process`: the family of the parent, unless it is younger. -/
def findByParent (m : Monitor) (pi : ProcInfo) : Option Nat := do
  let x ← m.memberTable pi.ppid
  let member ← m.members x
  let fam ← m.families member.family
  if fam.rootPid = 0 then none
  else if pi.birthday < member.procInfo.birthday then none
  else some member.family

/-- `ParentTracker::find_processes`, again and again while something changes. -/
def findByParents : Nat → Monitor → List ProcInfo → Option Monitor
  | 0, _, _ => none
  | n + 1, m, pis => do
    let (m,changed) ← m.findProcesses findByParent pis
    if changed then findByParents n m pis else some m

def markAlive : Monitor → List ProcInfo → Option (Monitor × List ProcInfo)
  | m, [] => some (m,[])
  | m, pi :: pis =>
    if pi.pid = 0 then markAlive m pis
    else
      match m.memberTable pi.pid with
      | none => do
        let (m,rest) ← markAlive m pis
        some (m,pi :: rest)
      | some x => do
        let member ← m.members x
        if member.procInfo.birthday = pi.birthday then markAlive (m.stillAlive x member pi) pis
        else
          let (m,rest) ← markAlive m pis
          some (m,pi :: rest)

def addEverybodyElse : Monitor → List ProcInfo → Option Monitor
  | m, [] => some m
  | m, pi :: pis =>
    match m.memberTable pi.pid with
    | some _ => addEverybodyElse m pis
    | none => do
      let m ← m.addMember m.everybodyElse pi
      addEverybodyElse m pis

/-- The watcher of a family that is watched is there, and not younger than the family. -/
def watcherAlive (m : Monitor) (fam : ProcFamily) : Option Bool :=
  match m.memberTable fam.watcherPid with
  | none => some false
  | some x => do
    let member ← m.members x
    some (member.procInfo.birthday ≤ fam.rootBirthday)

def checkWatcher (m : Monitor) (node : Nat) : Option Monitor := do
  let fam ← m.families node
  if fam.watcherPid = 0 then some m
  else
    let alive ← m.watcherAlive fam
    if alive then some m else m.unregisterNode node

/-- `delete_unwatched_families` for a node and the siblings behind it; the next sibling is saved
before the node may go. -/
def deleteUnwatchedFrom : Nat → Monitor → Option Nat → Option Monitor
  | 0, _, _ => none
  | _ + 1, m, none => some m
  | n + 1, m, some node => do
    let next := m.links.sibling node
    let m ← deleteUnwatchedFrom n m (m.links.child node)
    let m ← m.checkWatcher node
    deleteUnwatchedFrom n m next

/-- `ProcFamilyMonitor::snapshot`, on what `ProcAPI::getProcInfoList` returns. -/
def snapshot (m : Monitor) (piList : List ProcInfo) : Option Monitor := do
  let (m,piList) ← m.markAlive piList
  let m ← m.links.visit (fun m family => m.bind (·.removeExitedProcesses family)) m.nextFamily
    (some m) (some m.tree)
  let m ← m.removeExitedProcesses m.everybodyElse
  let (m,_) ← m.findProcesses findByPid piList
  let (m,_) ← m.findProcesses findByGroup piList
  let (m,_) ← m.findProcesses findByLogin piList
  let (m,_) ← m.findProcesses findByEnvironment piList
  let m ← findByParents (piList.length * (m.nextFamily + 1) + 1) m piList
  let m ← m.addEverybodyElse piList
  deleteUnwatchedFrom m.nextFamily m (some m.tree)

def newFamily (m : Monitor) (fam : ProcFamily) : Monitor :=
  { m with
    nextFamily := m.nextFamily + 1
    families := update m.families m.nextFamily (some fam)
    memberList := update m.memberList m.nextFamily none }

def construct (pid : Pid) (birthday : Nat) (exceptIfPidDies : Bool) (piList : List ProcInfo) :
    Option Monitor :=
  let m : Monitor := { exceptIfPidDies := exceptIfPidDies }
  let m := (m.newFamily {}).newFamily
    { rootPid := pid, rootBirthday := birthday, watcherPid := if exceptIfPidDies then pid else 0 }
  snapshot { m with
    pidTracker := [((pid,birthday),m.tree)]
    familyTable := update m.familyTable pid (some m.tree) } piList

def enableGroupTracking (m : Monitor) (min : BitVec 32) (size : Nat) (allocating : Bool) :
    Monitor :=
  { m with groupTracker := some ⟨allocating,min,List.replicate size none⟩ }

/-- The last part of `register_subfamily`: the new family, below the one that its root process has
been in. -/
def createFamily (m : Monitor) (x : Nat) (member : ProcFamilyMember) (rootPid watcherPid : Pid) :
    Option Monitor := do
  let family := m.nextFamily
  let m := m.newFamily ⟨rootPid,member.procInfo.birthday,watcherPid,0,0⟩
  let m := { m with pidTracker := ((rootPid,member.procInfo.birthday),family) :: m.pidTracker }
  let fam ← m.families member.family
  let parent ← m.lookupFamily fam.rootPid false
  let m := { m with links := m.links.addChild parent family }
  let m ← m.moveToSubfamily x family
  some { m with familyTable := update m.familyTable rootPid (some family) }

def registerSubfamily (m : Monitor) (piList : List ProcInfo) (rootPid watcherPid : Pid)
    (maxSnapshotInterval : Int) : Option (Monitor × ProcFamilyError) :=
  if rootPid ≤ 0 then some (m,.badRootPid)
  else if watcherPid < 0 then some (m,.badWatcherPid)
  else if maxSnapshotInterval < -1 then some (m,.badSnapshotInterval)
  else do
    let m ← m.snapshot piList
    match m.memberTable rootPid with
    | none => some (m,.processNotFamily)
    | some x => do
      let member ← m.members x
      if member.family = m.everybodyElse then some (m,.processNotFamily)
      else
        match m.lookupFamily rootPid false with
        | some _ => some (m,.alreadyRegistered)
        | none => do
          let m ← m.createFamily x member rootPid watcherPid
          some (m,.success)

def unregisterSubfamily (m : Monitor) (pid : Pid) : Option (Monitor × ProcFamilyError) :=
  match m.lookupFamily pid false with
  | none => some (m,.familyNotFound)
  | some node =>
    if m.links.parent node = none then some (m,.unregisterRoot)
    else do
      let m ← m.unregisterNode node
      some (m,.success)

def trackFamilyViaEnvironment (m : Monitor) (pid : Pid) (penvid : List String) :
    Monitor × ProcFamilyError :=
  match m.lookupFamily pid true with
  | none => (m,.familyNotFound)
  | some family =>
    ({ m with environmentTracker := (penvid,family) :: m.environmentTracker },.success)

/-- The login, as the user id that `getpwnam` finds for it. -/
def trackFamilyViaLogin (m : Monitor) (pid : Pid) (uid : Nat) : Monitor × ProcFamilyError :=
  match m.lookupFamily pid true with
  | none => (m,.familyNotFound)
  | some family => ({ m with loginTracker := (uid,family) :: m.loginTracker },.success)

def trackFamilyViaSupplementaryGroup (m : Monitor) (pid : Pid) (gid : BitVec 32) :
    Monitor × BitVec 32 × ProcFamilyError :=
  match m.groupTracker with
  | none => (m,gid,.noGroupIdAvailable)
  | some pool =>
    match m.lookupFamily pid true with
    | none => (m,gid,.familyNotFound)
    | some family =>
      match pool.addMapping family gid with
      | none => (m,gid,.noGroupIdAvailable)
      | some (pool,gid) => ({ m with groupTracker := some pool },gid,.success)

def foldMembers {β : Type} (m : Monitor) (f : β → ProcFamilyMember → β) :
    Nat → β → Option Nat → Option β
  | 0, _, _ => none
  | _ + 1, b, none => some b
  | n + 1, b, some x => do
    let member ← m.members x
    m.foldMembers f n (f b member) (m.neighbours.next x)

/-- `ProcFamily::spree`: the processes that are sent the signal, after those so far. -/
def spree (m : Monitor) (pids : List Pid) (family : Nat) : Option (List Pid) := do
  let _ ← m.families family
  m.foldMembers (fun pids member => pids ++ [member.procInfo.pid]) (m.nextMember + 1) pids
    (m.memberList family)

/-- `signal_family` for a node of the tree. -/
def signalNode (m : Monitor) (node : Nat) : Option (List Pid) :=
  m.links.visit (fun pids family => pids.bind (m.spree · family)) m.nextFamily
    (m.spree [] node) (m.links.child node)

def signalFamily (m : Monitor) (piList : List ProcInfo) (pid : Pid) :
    Option (Monitor × ProcFamilyError × List Pid) := do
  let m ← m.snapshot piList
  match m.lookupFamily pid true with
  | none => some (m,.familyNotFound,[])
  | some node => do
    let pids ← m.signalNode node
    some (m,.success,pids)

/-- What `get_family_usage` gathers, without memory and the percentage of the processor. -/
structure ProcFamilyUsage where
  userCpuTime : Nat := 0
  sysCpuTime : Nat := 0
  numProcs : Nat := 0
  deriving DecidableEq

/-- `ProcFamily::aggregate_usage` -/
def aggregateUsage (m : Monitor) (usage : ProcFamilyUsage)
    (family : Nat) : Option ProcFamilyUsage := do
  let fam ← m.families family
  let usage ← m.foldMembers (fun usage member =>
    { userCpuTime := usage.userCpuTime + member.procInfo.userTime
      sysCpuTime := usage.sysCpuTime + member.procInfo.sysTime
      numProcs := usage.numProcs + 1 }) (m.nextMember + 1) usage (m.memberList family)
  some { usage with
    userCpuTime := usage.userCpuTime + fam.exitedUserCpuTime
    sysCpuTime := usage.sysCpuTime + fam.exitedSysCpuTime }

/-- `get_family_usage` for a node of the tree. -/
def nodeUsage (m : Monitor) (node : Nat) : Option ProcFamilyUsage :=
  m.links.visit (fun usage family => usage.bind (m.aggregateUsage · family)) m.nextFamily
    (m.aggregateUsage {} node) (m.links.child node)

def getFamilyUsage (m : Monitor) (pid : Pid) : Option (ProcFamilyUsage × ProcFamilyError) :=
  match m.lookupFamily pid true with
  | none => some ({},.familyNotFound)
  | some node => (m.nodeUsage node).map fun usage => (usage,.success)

end Monitor

end Condor.Procd
