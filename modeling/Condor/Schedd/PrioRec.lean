import Condor.Lib.OptionalKeys
import Condor.Schedd.ProcId

/-!
# The order of the jobs by priority

`prio_compar` compares eight keys, four of which it passes over where one of the two jobs does not
define them. It is a strict total order on a set of jobs unless three of them clash.
-/

namespace Condor.Schedd

open Lib

def intMin : Int := -2^31

structure PrioRec where
  id : ProcId
  preJobPrio1 : Int
  preJobPrio2 : Int
  postJobPrio1 : Int
  postJobPrio2 : Int
  jobPrio : Int
  qdate : Int
  deriving DecidableEq

def bothDefined (x y : Int) : Prop := x > intMin ∧ y > intMin
deriving Decidable

def prioCompar (a b : PrioRec) : Int :=
  if bothDefined a.preJobPrio1 b.preJobPrio1 ∧ a.preJobPrio1 < b.preJobPrio1 then 1
  else if bothDefined a.preJobPrio1 b.preJobPrio1 ∧ a.preJobPrio1 > b.preJobPrio1 then -1
  else if bothDefined a.preJobPrio2 b.preJobPrio2 ∧ a.preJobPrio2 < b.preJobPrio2 then 1
  else if bothDefined a.preJobPrio2 b.preJobPrio2 ∧ a.preJobPrio2 > b.preJobPrio2 then -1
  else if a.jobPrio < b.jobPrio then 1
  else if a.jobPrio > b.jobPrio then -1
  else if bothDefined a.postJobPrio1 b.postJobPrio1 ∧ a.postJobPrio1 < b.postJobPrio1 then 1
  else if bothDefined a.postJobPrio1 b.postJobPrio1 ∧ a.postJobPrio1 > b.postJobPrio1 then -1
  else if bothDefined a.postJobPrio2 b.postJobPrio2 ∧ a.postJobPrio2 < b.postJobPrio2 then 1
  else if bothDefined a.postJobPrio2 b.postJobPrio2 ∧ a.postJobPrio2 > b.postJobPrio2 then -1
  else if a.qdate < b.qdate then -1
  else if a.qdate > b.qdate then 1
  else if a.id.cluster < b.id.cluster then -1
  else if a.id.cluster > b.id.cluster then 1
  else if a.id.proc < b.id.proc then -1
  else if a.id.proc > b.id.proc then 1
  else 0

def prioKey (x : Int) : Option Int := if x > intMin then some x else none

/-- The keys of a job in the order of their comparison, the undefined ones missing; a key of which
the lower value comes first is negated. -/
def prioKeys (a : PrioRec) : List (Option Int) :=
  [prioKey a.preJobPrio1,prioKey a.preJobPrio2,some a.jobPrio,prioKey a.postJobPrio1,
    prioKey a.postJobPrio2,some (-a.qdate),some (-a.id.cluster),some (-a.id.proc)]

private theorem higher_first (x y r : Int) :
    (if x < y then 1 else if x > y then -1 else r) =
      if compareKey (some x) (some y) = 0 then r else compareKey (some x) (some y) := by
  rcases lt_trichotomy x y with h | rfl | h
  · simp [compareKey,h]
  · simp [compareKey]
  · simp [compareKey,h,h.not_gt]

private theorem lower_first (x y r : Int) :
    (if x < y then -1 else if x > y then 1 else r) =
      if compareKey (some (-x)) (some (-y)) = 0 then r
      else compareKey (some (-x)) (some (-y)) := by
  rw [← higher_first]
  split_ifs <;> first | rfl | omega

private theorem passes_over (x y r : Int) :
    (if bothDefined x y ∧ x < y then 1 else if bothDefined x y ∧ x > y then -1 else r) =
      if compareKey (prioKey x) (prioKey y) = 0 then r
      else compareKey (prioKey x) (prioKey y) := by
  by_cases hx : x > intMin
  · by_cases hy : y > intMin
    · simpa only [bothDefined,prioKey,hx,hy,if_true,true_and,and_self] using
        higher_first x y r
    · simp [bothDefined,prioKey,compareKey,hy]
  · simp [bothDefined,prioKey,compareKey,hx]

private theorem prioCompar_eq (a b : PrioRec) :
    prioCompar a b = compareKeys (prioKeys a) (prioKeys b) := by
  simp only [prioCompar,passes_over,higher_first,lower_first,prioKeys,compareKeys]

private theorem prioCompar_swap (a b : PrioRec) : prioCompar b a = -prioCompar a b := by
  rw [prioCompar_eq,prioCompar_eq,compareKeys_swap]

private theorem prioCompar_ne {a b : PrioRec} (h : a.id ≠ b.id) : prioCompar a b ≠ 0 := by
  rw [prioCompar_eq]
  intro h0
  have hkeys := compareKeys_eq_zero h0
  have hcluster := compareKey_some (hkeys (some (-a.id.cluster),some (-b.id.cluster)) (by
    simp [prioKeys]))
  have hproc := compareKey_some (hkeys (some (-a.id.proc),some (-b.id.proc)) (by simp [prioKeys]))
  refine h ?_
  rcases a with ⟨⟨m,n⟩⟩
  rcases b with ⟨⟨k,l⟩⟩
  exact congrArg₂ ProcId.mk (neg_inj.mp hcluster) (neg_inj.mp hproc)

/-- A strict total order on a set of jobs, by which the array comes out in one order only,
whatever the order of the visits was. -/
def OrdersJobs (S : Set PrioRec) : Prop :=
  (∀ a ∈ S, ∀ b ∈ S, prioCompar a b < 0 ↔ prioCompar b a > 0) ∧
    (∀ a ∈ S, ∀ b ∈ S, a ≠ b → prioCompar a b ≠ 0) ∧
    (∀ a ∈ S, ∀ b ∈ S, ∀ c ∈ S, prioCompar a b < 0 → prioCompar b c < 0 → prioCompar a c < 0) ∧
    ∀ visited : List PrioRec, (∀ a ∈ visited, a ∈ S) →
      ∃! array : List PrioRec, array.Perm visited ∧ array.Pairwise fun a b => prioCompar a b ≤ 0

/-- The comparison orders a set of jobs with different ids unless three of them clash. -/
theorem prioCompar_orders (S : Set PrioRec) (hid : ∀ a ∈ S, ∀ b ∈ S, a.id = b.id → a = b) :
    OrdersJobs S ↔
      ¬ ∃ a ∈ S, ∃ b ∈ S, ∃ c ∈ S, Clash (prioKeys a) (prioKeys b) (prioKeys c) := by
  have hne : ∀ a ∈ S, ∀ b ∈ S, a ≠ b → prioCompar a b ≠ 0 :=
    fun a ha b hb hab => prioCompar_ne fun h => hab (hid a ha b hb h)
  constructor
  · rintro ⟨-,-,htrans,-⟩ ⟨a,ha,b,hb,c,hc,hclash⟩
    obtain ⟨hab,hbc,hca⟩ := compareKeys_clash hclash
    rw [← prioCompar_eq] at hab hbc hca
    have := htrans a ha b hb c hc hab hbc
    have := prioCompar_swap a c
    omega
  · intro hclash
    have htrans : ∀ a ∈ S, ∀ b ∈ S, ∀ c ∈ S,
        prioCompar a b < 0 → prioCompar b c < 0 → prioCompar a c < 0 := by
      intro a ha b hb c hc hab hbc
      have hswap := prioCompar_swap a c
      by_contra hac
      have hca : prioCompar c a < 0 := by
        rcases eq_or_ne a c with rfl | h
        · have := prioCompar_swap a b
          omega
        · have := hne a ha c hc h
          omega
      rw [prioCompar_eq] at hab hbc hca
      rcases @clash_of_circle _ _ (prioKeys a) (prioKeys b) (prioKeys c) rfl rfl hab hbc hca
        with h | h | h
      · exact hclash ⟨a,ha,b,hb,c,hc,h⟩
      · exact hclash ⟨b,hb,c,hc,a,ha,h⟩
      · exact hclash ⟨c,hc,a,ha,b,hb,h⟩
    refine ⟨fun a _ b _ => ?_,hne,htrans,sorted_unique prioCompar_swap hne htrans⟩
    have := prioCompar_swap a b
    omega

/-- Two jobs of one cluster, the earlier of which is the lesser by its pre priority. -/
theorem prioCompar_orders_pair :
    OrdersJobs {⟨⟨1,0⟩,1,intMin,intMin,intMin,0,0⟩,
      ⟨⟨1,1⟩,2,intMin,intMin,intMin,0,0⟩} := by
  refine (prioCompar_orders _ ?_).mpr ?_
  · simp
  · rintro ⟨a,ha,b,hb,c,hc,h⟩
    have := compareKeys_clash h
    rw [← prioCompar_eq,← prioCompar_eq,← prioCompar_eq] at this
    simp only [Set.mem_insert_iff,Set.mem_singleton_iff] at ha hb hc
    rcases ha with rfl | rfl <;> rcases hb with rfl | rfl <;> rcases hc with rfl | rfl <;>
      exact absurd this (by decide)

/-- The second of three jobs does not define the pre priority: each job precedes the next. -/
theorem prioCompar_circle :
    ¬ OrdersJobs {⟨⟨1,0⟩,1,intMin,intMin,intMin,0,0⟩,
      ⟨⟨2,0⟩,intMin,intMin,intMin,intMin,0,0⟩,
      ⟨⟨3,0⟩,2,intMin,intMin,intMin,0,0⟩} := by
  rintro ⟨-,-,htrans,-⟩
  exact absurd (htrans ⟨⟨1,0⟩,1,intMin,intMin,intMin,0,0⟩ (by simp)
    ⟨⟨2,0⟩,intMin,intMin,intMin,intMin,0,0⟩ (by simp)
    ⟨⟨3,0⟩,2,intMin,intMin,intMin,0,0⟩ (by simp) (by decide) (by decide)) (by decide)

end Condor.Schedd
