import Condor.Utils.CString
import Condor.Lib.Run

/-!
# Auto clusters

`AutoCluster` gives the same id to jobs that print the same for the significant attributes. The id
is cached in the job ad, so that the ads and the table of signatures change together.
-/

namespace Condor.Schedd

open Lib Function

namespace StringList

def isSeparator (b : Byte) : Bool := b == 32 || b == 44

/-- `initializeFromString`, with the item that is being collected, last character first. -/
def initializeFromString : CString → CString → List CString
  | [], [] => []
  | [], item => [item.reverse]
  | c :: cs, [] =>
    if isSeparator c.val || isspace c.val then initializeFromString cs []
    else initializeFromString cs [c]
  | c :: cs, item =>
    if isSeparator c.val then item.reverse :: initializeFromString cs []
    else initializeFromString cs (c :: item)

def ofString : Option CString → List CString
  | none => []
  | some s => initializeFromString s []

def containsAnycase (l : List CString) (s : CString) : Bool := l.any fun x => strcaseeq s x

def removeAnycase (l : List CString) (s : CString) : List CString :=
  l.filter fun x => !strcaseeq s x

/-- `create_union` regardless of case; true when the list was modified. -/
def createUnion (l : List CString) : List CString → List CString × Bool
  | [] => (l,false)
  | x :: xs =>
    if containsAnycase l x then createUnion l xs else ((createUnion (l ++ [x]) xs).1,true)

/-- `print_to_string`; a list without items prints as nothing. -/
def printToString (l : List CString) : CString := List.intercalate (cstr ",") l

end StringList

structure Attributes where
  expr : CString → Option CString
  anycase : ∀ a b, strcaseeq a b = true → expr a = expr b

namespace Attributes

def empty : Attributes := ⟨fun _ => none,fun _ _ _ => rfl⟩

def set (as : Attributes) (name : CString) (value : Option CString) : Attributes where
  expr a := if strcaseeq name a then value else as.expr a
  anycase a b h := by
    rw [strcaseeq_comm name a,strcaseeq_comm name b,strcaseeq_trans (u := name) h,as.anycase a b h]

end Attributes

/-- A job ad, with the two attributes that `getAutoClusterid` keeps in it. -/
structure JobAd where
  attrs : Attributes := .empty
  autoClusterId : Option Int := none
  autoClusterAttrs : Option CString := none

def attrRequirements : CString := cstr "Requirements"

def attrCurrentTime : CString := cstr "CurrentTime"

def attrNiceUserName : CString := cstr "NiceUser"

def attrConcurrencyLimits : CString := cstr "ConcurrencyLimits"

structure ClassAds where
  /-- The internal references that `GetReferences` finds for the Requirements. -/
  getReferences : Attributes → List CString
  /-- The string that a literal between quotes stands for; none when it does not parse. -/
  literal : CString → Option CString

def intMax : Int := 2^31-1

structure AutoCluster where
  clusterMap : List (CString × Int) := []
  clusterInUse : List Int := []
  nextId : Int := 1
  significantAttrs : Option (List CString) := none
  oldSigAttrs : Option CString := none
  sigAttrsCameFromConfigFile : Bool := false

namespace AutoCluster

def clearArray (c : AutoCluster) : AutoCluster :=
  { c with clusterMap := [], clusterInUse := [], nextId := 1 }

def nextIdExhausted (c : AutoCluster) : Bool := intMax / 2 < c.nextId

/-- The first part of `config`: a setting that has come or gone wipes the slate clean. -/
def wipe (c : AutoCluster) (setting : Option CString) : AutoCluster × Bool :=
  if c.sigAttrsCameFromConfigFile = setting.isSome then (c,false)
  else ({ c with significantAttrs := none, sigAttrsCameFromConfigFile := setting.isSome },true)

def newSigAttrs (setting target : Option CString) : Option CString := setting.or target

/-- The last part of `config`: make or extend the list, and clear the table if the list has
changed or the ids run out. -/
def merge (c : AutoCluster) (new : Option CString) : AutoCluster × Bool :=
  let union : List CString × Bool :=
    match c.significantAttrs with
    | none => (StringList.ofString new,true)
    | some attrs => StringList.createUnion attrs (StringList.ofString new)
  let cleared := if union.2 || c.nextIdExhausted then c.clearArray else c
  ({ cleared with significantAttrs := some union.1, oldSigAttrs := new },union.2)

/-- `config`; none is the comparison with a null pointer. -/
def config (c : AutoCluster) (setting target : Option CString) : Option (AutoCluster × Bool) :=
  let (c,changed) := c.wipe setting
  let new := newSigAttrs setting target
  if new = none ∧ !changed ∧ !c.nextIdExhausted then some (c,false)
  else
    match c.significantAttrs,c.oldSigAttrs with
    | some _,some old =>
      match new with
      | none => none
      | some s =>
        if strcaseeq s old && !c.nextIdExhausted then some (c,false) else some (c.merge new)
    | _,_ => some (c.merge new)

def mark (c : AutoCluster) : AutoCluster := { c with clusterInUse := [] }

def sweep (c : AutoCluster) : AutoCluster :=
  { c with clusterMap := c.clusterMap.filter fun e => c.clusterInUse.contains e.2 }

variable (lib : ClassAds)

def selfRefs (j : JobAd) : List CString :=
  StringList.removeAnycase (lib.getReferences j.attrs) attrCurrentTime ++
    [attrRequirements,attrNiceUserName,attrConcurrencyLimits]

/-- `internal_refs` as it is left by the loop over it. -/
def internalRefs (c : AutoCluster) (sig : List CString) (j : JobAd) : List CString :=
  if c.sigAttrsCameFromConfigFile then []
  else (selfRefs lib j).filter fun a => !StringList.containsAnycase sig a

def names (c : AutoCluster) (sig : List CString) (j : JobAd) : List CString :=
  sig ++ c.internalRefs lib sig j

def signature (c : AutoCluster) (sig : List CString) (j : JobAd) : List (CString × CString) :=
  (c.names lib sig j).filterMap fun a => (j.attrs.expr a).map fun e => (a,e)

/-- `sPrintExpr`, one behind the other. -/
def text (signature : List (CString × CString)) : CString :=
  signature.flatMap fun p => p.1 ++ cstr " = " ++ p.2

def findId (c : AutoCluster) (s : CString) : Option Int :=
  (c.clusterMap.find? fun e => e.1 = s).map Prod.snd

def fit (c : AutoCluster) (s : CString) : Option (AutoCluster × Int) :=
  match c.findId s with
  | some id => some (c,id)
  | none =>
    if c.nextId < intMax then
      some ({ c with clusterMap := c.clusterMap ++ [(s,c.nextId)], nextId := c.nextId + 1 },
        c.nextId)
    else none

def use (c : AutoCluster) (id : Int) : AutoCluster :=
  { c with clusterInUse := id :: c.clusterInUse }

def cache (c : AutoCluster) (sig : List CString) (j : JobAd) (id : Int) : JobAd :=
  { j with
    autoClusterId := some id
    autoClusterAttrs :=
      (lib.literal (StringList.printToString (c.names lib sig j))).or j.autoClusterAttrs }

/-- `getAutoClusterid`, with the id it returns. -/
def getAutoClusterid (c : AutoCluster) (j : JobAd) : Option (AutoCluster × JobAd × Int) :=
  match c.significantAttrs with
  | none => some (c,j,-1)
  | some sig =>
    let curId := j.autoClusterId.getD (-1)
    if curId ≠ -1 then some (c.use curId,j,curId)
    else
      (c.fit (text (c.signature lib sig j))).map fun (c',id) =>
        (c'.use id,c.cache lib sig j id,id)

end AutoCluster

structure Queue where
  autocluster : AutoCluster := {}
  jobs : Nat → JobAd := fun _ => {}

inductive Action where
  | config (setting target : Option CString)
  | mark
  | sweep
  | getAutoClusterid (n : Nat)
  | setAttribute (n : Nat) (name : CString) (value : Option CString)
  | newJob (n : Nat) (attrs : Attributes)

def JobAd.lists (j : JobAd) (name : CString) : Bool :=
  StringList.containsAnycase (StringList.ofString j.autoClusterAttrs) name

def JobAd.setAttribute (j : JobAd) (name : CString) (value : Option CString) : JobAd :=
  let j' := { j with attrs := j.attrs.set name value }
  if j.lists name then { j' with autoClusterId := none, autoClusterAttrs := none } else j'

def JobAd.clearAutoclusterId (j : JobAd) : JobAd := { j with autoClusterId := none }

namespace Queue

variable (lib : ClassAds)

def step (q : Queue) : Action → Option Queue
  | .config setting target =>
    (q.autocluster.config setting target).map fun (c,changed) =>
      { autocluster := c
        jobs := if changed then fun n => (q.jobs n).clearAutoclusterId else q.jobs }
  | .mark => some { q with autocluster := q.autocluster.mark }
  | .sweep => some { q with autocluster := q.autocluster.sweep }
  | .getAutoClusterid n =>
    (q.autocluster.getAutoClusterid lib (q.jobs n)).map fun (c,j,_) =>
      { autocluster := c, jobs := update q.jobs n j }
  | .setAttribute n name value =>
    some { q with jobs := update q.jobs n ((q.jobs n).setAttribute name value) }
  | .newJob n attrs =>
    some { q with jobs := update q.jobs n { attrs := attrs } }

end Queue

end Condor.Schedd
