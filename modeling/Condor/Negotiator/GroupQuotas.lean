import Mathlib.Data.NNRat.Defs
import Mathlib.Algebra.Order.Ring.Rat
import Mathlib.Algebra.Order.Field.Basic
import Mathlib.Algebra.BigOperators.Group.List.Basic
import Condor.Lib.RoseTree

/-!
# Hierarchical group quotas

The negotiator gives the slots to a tree of groups: first quotas, then allocations up to the
requests, and last the surplus to those that accept it. Doubles are rationals.
-/

namespace Condor.Negotiator

open Condor.Lib

structure GroupDemand where
  configQuota : ℚ≥0
  staticQuota : Bool
  acceptSurplus : Bool
  requested : ℚ≥0

structure GroupEntry where
  configQuota : ℚ
  staticQuota : Bool
  acceptSurplus : Bool
  quota : ℚ
  requested : ℚ
  allocated : ℚ
  subtreeQuota : ℚ
  subtreeRequested : ℚ

abbrev QuotaTree := RoseTree GroupEntry

def GroupDemand.load (d : GroupDemand) : GroupEntry where
  configQuota := d.configQuota
  staticQuota := d.staticQuota
  acceptSurplus := d.acceptSurplus
  quota := 0
  requested := d.requested
  allocated := 0
  subtreeQuota := 0
  subtreeRequested := 0

def childQuota (staticRate dynamicRate : ℚ) (g : GroupEntry) : ℚ :=
  let q := if g.staticQuota then g.configQuota * staticRate else g.configQuota * dynamicRate
  if q < 0 then 0 else q

def staticSum (cs : List QuotaTree) : ℚ :=
  (cs.map fun c => if c.value.staticQuota then c.value.configQuota else 0).sum

def dynamicSum (cs : List QuotaTree) : ℚ :=
  (cs.map fun c => if c.value.staticQuota then 0 else c.value.configQuota).sum

def staticRate (quota : ℚ) (cs : List QuotaTree) : ℚ :=
  min (staticSum cs) quota / if 0 < staticSum cs then staticSum cs else 1

def dynamicRate (quota : ℚ) (cs : List QuotaTree) : ℚ :=
  (quota - min (staticSum cs) quota) / max (dynamicSum cs) 1

mutual

def assignQuotas : QuotaTree → ℚ → QuotaTree
  | .node g cs, quota =>
    if quota ≤ 0 then .node g cs
    else
      let children := assignChildren (staticRate quota cs) (dynamicRate quota cs) cs
      let rest := quota - children.2
      .node { g with subtreeQuota := quota, quota := if rest < 0 then 0 else rest } children.1

def assignChildren (staticRate dynamicRate : ℚ) : List QuotaTree → List QuotaTree × ℚ
  | [] => ([],0)
  | c :: cs =>
    let q := childQuota staticRate dynamicRate c.value
    let rest := assignChildren staticRate dynamicRate cs
    (assignQuotas c q :: rest.1,q + rest.2)

end

/-- A group in the competition for surplus: its weight, what it has got and what it still
requests. -/
structure Share where
  weight : ℚ
  allocated : ℚ
  requested : ℚ

structure Distribution where
  shares : List Share
  surplus : ℚ
  requested : ℚ

namespace Share

variable (byQuota : Bool)

def factor (s : Share) : ℚ := if byQuota then s.weight else 1

def due (surplus z : ℚ) (s : Share) : ℚ := surplus * (s.factor byQuota / z)

def portion (surplus z : ℚ) (s : Share) : ℚ :=
  if 0 < s.requested then
    if s.requested < s.due byQuota surplus z then s.requested else s.due byQuota surplus z
  else 0

def give (surplus z : ℚ) (s : Share) : Share where
  weight := s.weight
  allocated := s.allocated + s.portion byQuota surplus z
  requested := s.requested - s.portion byQuota surplus z

end Share

def normalizer (byQuota : Bool) (shares : List Share) : ℚ :=
  (shares.map fun s => if 0 < s.requested then s.factor byQuota else 0).sum

def neverGt (byQuota : Bool) (surplus z : ℚ) (shares : List Share) : Bool :=
  shares.all fun s => decide (0 < s.requested → ¬ s.requested < s.due byQuota surplus z)

def distributeRound (byQuota : Bool) (z : ℚ) (d : Distribution) : Distribution :=
  let sumalloc := (d.shares.map (Share.portion byQuota d.surplus z)).sum
  let surplus := d.surplus - sumalloc
  { shares := d.shares.map (Share.give byQuota d.surplus z)
    surplus := if neverGt byQuota d.surplus z d.shares ∨ surplus < 0 then 0 else surplus
    requested := d.requested - sumalloc }

def allocateSurplusLoop (byQuota : Bool) : Nat → Distribution → Option Distribution
  | 0, _ => none
  | fuel + 1, d =>
    if 0 < d.surplus then
      let z := normalizer byQuota d.shares
      if z ≤ 0 then some d
      else allocateSurplusLoop byQuota fuel (distributeRound byQuota z d)
    else some d

def claim (acceptSurplus : Bool) (subtreeRequested : ℚ) : ℚ :=
  if acceptSurplus ∧ 0 < subtreeRequested then subtreeRequested else 0

/-- The children and, last, the group itself, which takes part like a child that accepts surplus. -/
def shares (g : GroupEntry) (cs : List QuotaTree) : List Share :=
  (cs.map fun c => ⟨c.value.subtreeQuota,0,claim c.value.acceptSurplus c.value.subtreeRequested⟩) ++
    [⟨g.quota,0,claim true g.requested⟩]

/-- The allocations to the children and the group, with what is left of the surplus and of the
requests. -/
def distribute (fuel : Nat) (g : GroupEntry) (cs : List QuotaTree) (surplus : ℚ) :
    Option Distribution :=
  if g.subtreeRequested ≤ surplus then
    -- enough for all requests
    some {
      shares := (shares g cs).map fun s => { s with allocated := s.requested, requested := 0 }
      surplus := surplus - g.subtreeRequested
      requested := 0 }
  else
    -- first the groups with a quota, then those with none
    (allocateSurplusLoop true fuel ⟨shares g cs,surplus,g.subtreeRequested⟩).bind
      (allocateSurplusLoop false fuel)

section Allocate

variable (autoregroup : Bool) (fuel : Nat)

mutual

def allocateSurplus : QuotaTree → ℚ → Option (QuotaTree × ℚ)
  | .node g cs, surplus =>
    if surplus ≤ 0 then some (.node g cs,0)
    else if autoregroup then some (.node g cs,surplus)
    else if g.subtreeRequested ≤ 0 then some (.node g cs,surplus)
    else
      (distribute fuel g cs surplus).bind fun d =>
      (allocateChildren cs d.shares).map fun r =>
        (.node { g with
            allocated := g.allocated + r.2
            requested := g.requested - r.2
            subtreeRequested := d.requested } r.1,d.surplus)

/-- The children take their allocations; the one that is left belongs to the group itself. -/
def allocateChildren : List QuotaTree → List Share → Option (List QuotaTree × ℚ)
  | [], ss => some ([],(ss.getLast?.map Share.allocated).getD 0)
  | cs, [] => some (cs,0)
  | c :: cs, s :: ss =>
    (if 0 < s.allocated then (allocateSurplus c s.allocated).map Prod.fst else some c).bind
      fun c' => (allocateChildren cs ss).map fun r => (c' :: r.1,r.2)

end

mutual

def fairshare : QuotaTree → Option (QuotaTree × ℚ)
  | .node g cs =>
    let allocated := min g.requested g.quota
    let requested := g.requested - allocated
    let surplus := g.quota - allocated
    match cs with
    | [] => some (.node { g with allocated, requested, subtreeRequested := requested } [],surplus)
    | c :: cs =>
      (fairshareChildren (c :: cs) surplus requested).bind fun r =>
        allocateSurplus autoregroup fuel
          (.node { g with allocated, requested, subtreeRequested := r.2.2 } r.1) r.2.1

/-- The children, the surplus with theirs added, and the requests with theirs added if they accept
surplus. -/
def fairshareChildren : List QuotaTree → ℚ → ℚ → Option (List QuotaTree × ℚ × ℚ)
  | [], surplus, requested => some ([],surplus,requested)
  | c :: cs, surplus, requested =>
    (fairshare c).bind fun r =>
      let requested := if r.1.value.acceptSurplus then requested + r.1.value.subtreeRequested
        else requested
      (fairshareChildren cs (surplus + r.2) requested).map fun q => (r.1 :: q.1,q.2)

end

end Allocate

end Condor.Negotiator
