import Condor.Lib.DepthFirst
import Condor.Dagman.Dag

/-!
# The detection of cycles

`isCycle` numbers the nodes in the order in which a depth-first search leaves them, and compares
the numbers of parents and children.
-/

namespace Condor.Dagman

open Lib Lib.DepthFirst Relation List

namespace Dag

def findNodeByNodeID (n : JobID) (d : Dag) : Option JobID := if n < d.numNodes then some n else none

/-- The children that are found. `DFSVisit` passes over the others. -/
def childNodes (d : Dag) (n : JobID) : List JobID :=
  (d.jobs n).children.elems.filterMap fun c => d.findNodeByNodeID c

def dfsVisit (fuel : Nat) (n : JobID) (d : Dag) (s : Search JobID) : Option (Search JobID) :=
  visit d.childNodes fuel n s

/-- The first loop of `isCycle`. -/
def numberNodes (fuel : Nat) (jobs : List JobID) (d : Dag) : Option (Search JobID) :=
  jobs.foldlM (fun s n =>
    if !s.visited n && (d.jobs n).parents.isEmpty then d.dfsVisit fuel n s else some s) start

def detectCycle (jobs : List JobID) (s : Search JobID) (d : Dag) : Option Bool :=
  jobs.foldlM (fun cycle n =>
    (d.jobs n).children.elems.foldlM (fun cycle c =>
      (d.findNodeByNodeID c).map fun child => cycle || decide (s.order n ≤ s.order child))
      cycle) false

/-- The first call of `isCycle`. -/
def isCycle (fuel : Nat) (jobs : List JobID) (d : Dag) : Option Bool :=
  (d.numberNodes fuel jobs).bind fun s => d.detectCycle jobs s

def Child (d : Dag) (p c : JobID) : Prop := p < d.numNodes ∧ c ∈ (d.jobs p).children

/-- The parent and child sets are symmetric, and every ID in them is that of a node. -/
structure Linked (d : Dag) : Prop where
  children : ∀ n < d.numNodes, ∀ c ∈ (d.jobs n).children, c < d.numNodes
  parents : ∀ n < d.numNodes, ∀ p ∈ (d.jobs n).parents, p < d.numNodes
  symmetric : ∀ p < d.numNodes, ∀ c < d.numNodes,
    c ∈ (d.jobs p).children ↔ p ∈ (d.jobs c).parents

variable {d : Dag} {jobs : List JobID} {s : Search JobID}

private theorem edge_childNodes {p c : JobID} :
    Edge d.childNodes p c ↔ c ∈ (d.jobs p).children ∧ c < d.numNodes := by
  rw [Edge,childNodes,mem_filterMap]
  simp only [findNodeByNodeID,Option.ite_none_right_eq_some,Option.some.injEq]
  constructor
  · rintro ⟨a,ha,hlt,rfl⟩
    exact ⟨ha,hlt⟩
  · rintro ⟨hc,hlt⟩
    exact ⟨c,hc,hlt,rfl⟩

theorem acyclic_iff (hd : d.Linked) :
    Acyclic d.childNodes ↔ ¬∃ n, TransGen d.Child n n := by
  have hforth {p c : JobID} (hp : p < d.numNodes) (h : TransGen (Edge d.childNodes) p c) :
      TransGen d.Child p c ∧ c < d.numNodes := by
    induction h with
    | single hedge =>
      obtain ⟨hc,hlt⟩ := edge_childNodes.mp hedge
      exact ⟨TransGen.single ⟨hp,hc⟩,hlt⟩
    | tail _ hedge ih =>
      obtain ⟨hc,hlt⟩ := edge_childNodes.mp hedge
      exact ⟨ih.1.tail ⟨ih.2,hc⟩,hlt⟩
  have hback {p c : JobID} (h : TransGen d.Child p c) : TransGen (Edge d.childNodes) p c :=
    TransGen.mono (fun p c hpc => edge_childNodes.mpr ⟨hpc.2,hd.children p hpc.1 c hpc.2⟩) _ _ h
  constructor
  · rintro hacyclic ⟨n,hn⟩
    exact hacyclic n (hback hn)
  · intro hnone n hn
    have hlt : n < d.numNodes := by
      obtain ⟨m,-,hedge⟩ := TransGen.tail'_iff.mp hn
      exact (edge_childNodes.mp hedge).2
    exact hnone ⟨n,(hforth hlt hn).1⟩

private theorem foldlM_flag {α : Type} {f : Bool → α → Option Bool} {P : α → Prop} {xs : List α}
    (hf : ∀ x ∈ xs, ∀ flag, ∃ b, f flag x = some b ∧ (b = true ↔ flag = true ∨ P x)) (flag : Bool) :
    ∃ b, xs.foldlM f flag = some b ∧ (b = true ↔ flag = true ∨ ∃ x ∈ xs, P x) := by
  induction xs generalizing flag with
  | nil => exact ⟨flag,rfl,by simp⟩
  | cons x xs ih =>
    obtain ⟨b,hb,hiff⟩ := hf x (by simp) flag
    obtain ⟨b',hb',hiff'⟩ := ih (fun y hy => hf y (by simp [hy])) b
    refine ⟨b',by rw [foldlM_cons,hb]; exact hb',?_⟩
    rw [hiff',hiff,or_assoc]
    simp

private theorem detectCycle_eq (hd : d.Linked) (hjobs : ∀ n ∈ jobs, n < d.numNodes) :
    ∃ b, d.detectCycle jobs s = some b ∧ (b = true ↔
      ∃ n ∈ jobs, ∃ c ∈ (d.jobs n).children, s.order n ≤ s.order c) := by
  have hinner (n : JobID) (hn : n ∈ jobs) (flag : Bool) :
      ∃ b, (d.jobs n).children.elems.foldlM (fun cycle c =>
        (d.findNodeByNodeID c).map fun child => cycle || decide (s.order n ≤ s.order child))
        flag = some b ∧
        (b = true ↔ flag = true ∨ ∃ c ∈ (d.jobs n).children, s.order n ≤ s.order c) := by
    refine foldlM_flag (fun c hc flag => ?_) flag
    have hfound : d.findNodeByNodeID c = some c := if_pos (hd.children n (hjobs n hn) c hc)
    exact ⟨flag || decide (s.order n ≤ s.order c),by rw [hfound]; rfl,by simp⟩
  obtain ⟨b,hb,hiff⟩ := foldlM_flag hinner false
  exact ⟨b,hb,by simpa using hiff⟩

private theorem numberNodes_returns {fuel : Nat} (hfuel : d.numNodes ≤ fuel)
    (hjobs : ∀ n ∈ jobs, n < d.numNodes) : ∃ s, d.numberNodes fuel jobs = some s := by
  have hclosed : ∀ n ∈ Finset.range d.numNodes, ∀ c ∈ d.childNodes n,
      c ∈ Finset.range d.numNodes := by
    intro n _ c hc
    exact Finset.mem_range.mpr (edge_childNodes.mp hc).2
  have hstep (n : JobID) (hn : n < d.numNodes) (s : Search JobID) :
      ∃ t, d.dfsVisit fuel n s = some t := by
    refine visit_returns hclosed (Finset.mem_range.mpr hn) ?_
    have hcard := Finset.card_le_card (Finset.filter_subset (fun n => s.visited n = false)
      (Finset.range d.numNodes))
    rw [Finset.card_range] at hcard
    exact hcard.trans hfuel
  have hfrom (more : List JobID) (hmore : ∀ n ∈ more, n < d.numNodes) (s : Search JobID) :
      ∃ t, more.foldlM (fun s n =>
        if !s.visited n && (d.jobs n).parents.isEmpty then d.dfsVisit fuel n s else some s) s =
          some t := by
    induction more generalizing s with
    | nil => exact ⟨s,rfl⟩
    | cons n more ih =>
      rw [foldlM_cons]
      have hrest := ih fun m hm => hmore m (by simp [hm])
      split
      · obtain ⟨t,ht⟩ := hstep n (hmore n (by simp)) s
        rw [ht]
        exact hrest t
      · exact hrest s
  exact hfrom jobs hjobs start

private theorem numberNodes_spec {fuel : Nat} (hd : d.Linked) (hacyclic : Acyclic d.childNodes)
    (hjobs : ∀ n, n ∈ jobs ↔ n < d.numNodes) (h : d.numberNodes fuel jobs = some s) :
    Numbered d.childNodes s ∧ ∀ n < d.numNodes, s.Finished n := by
  have hnone (s' : Search JobID) (hadv : Advances start s') (w : JobID) : ¬s'.Open w := by
    rw [hadv.opened]
    simp [Search.Open,start]
  obtain ⟨hnum,hadv,hroots⟩ := foldlM_spec
    (P := fun n s => (d.jobs n).parents.isEmpty = true → s.Finished n)
    (f := fun n s => if !s.visited n && (d.jobs n).parents.isEmpty then d.dfsVisit fuel n s
      else some s)
    (fun n s' t' hadv hn hroot => hadv.finished n (hn hroot))
    (fun n hn s' t' hs' hadv ht => by
      split at ht
      · obtain ⟨hnum,hstep,hfin⟩ := visit_spec hacyclic hs'
          (fun w hw => absurd hw (hnone s' hadv w)) ht
        exact ⟨hnum,hstep,fun _ => hfin⟩
      · next hskip =>
        obtain rfl := Option.some.inj ht
        refine ⟨hs',Advances.refl s',fun hroot => ?_⟩
        have hvisited : s'.visited n = true := by simpa [hroot] using hskip
        exact not_not.mp fun hfin => hnone s' hadv n ⟨hvisited,hfin⟩)
    numbered_start h
  refine ⟨hnum,fun n hn => ?_⟩
  refine reached_of_acyclic (Finset.range d.numNodes) hacyclic ?_ ?_
    (Finset.mem_range.mpr hn)
  · intro v hv hroot
    rw [Finset.mem_range] at hv
    refine hroots v ((hjobs v).mpr hv) ((OrderedSet.isEmpty_iff _).mpr fun p hp => ?_)
    have hlt := hd.parents v hv p hp
    exact hroot p (Finset.mem_range.mpr hlt)
      (edge_childNodes.mpr ⟨(hd.symmetric p hlt v hv).mpr hp,hv⟩)
  · intro v _ w _ hedge hw
    exact (hnum.decreasing w hw v hedge).1

/-- `isCycle` tells whether the child relation has a cycle. -/
theorem isCycle_iff (hd : d.Linked) (hjobs : ∀ n, n ∈ jobs ↔ n < d.numNodes) {fuel : Nat}
    (hfuel : d.numNodes ≤ fuel) :
    ∃ b, d.isCycle fuel jobs = some b ∧ (b = true ↔ ∃ n, TransGen d.Child n n) := by
  have hlt : ∀ n ∈ jobs, n < d.numNodes := fun n hn => (hjobs n).mp hn
  obtain ⟨s,hs⟩ := numberNodes_returns hfuel hlt
  obtain ⟨b,hb,hiff⟩ := detectCycle_eq (s := s) hd hlt
  refine ⟨b,by rw [isCycle,hs]; exact hb,hiff.trans ?_⟩
  constructor
  · rintro ⟨n,hn,c,hc,hle⟩
    by_contra hnone
    obtain ⟨hnum,hfin⟩ := numberNodes_spec hd ((acyclic_iff hd).mpr hnone) hjobs hs
    have hlt := hlt n hn
    have hedge : c ∈ d.childNodes n := edge_childNodes.mpr ⟨hc,hd.children n hlt c hc⟩
    have hless := (hnum.decreasing n (hfin n hlt) c hedge).2
    omega
  · -- numbers that fall along every edge cannot go round a cycle
    rintro ⟨n,hn⟩
    by_contra hnone
    have hfalls {p c : JobID} (h : TransGen d.Child p c) : s.order c < s.order p := by
      have hedge {p c : JobID} (h : d.Child p c) : s.order c < s.order p := by
        by_contra hge
        exact hnone ⟨p,(hjobs p).mpr h.1,c,h.2,not_lt.mp hge⟩
      induction h with
      | single h => exact hedge h
      | tail _ h ih => exact (hedge h).trans ih
    exact lt_irrefl _ (hfalls hn)

def cyclicDag : Dag :=
  { numNodes := 3
    jobs := fun n => match n with
      | 0 => { children := OrderedSet.empty.insert 1 }
      | 1 => { parents := (OrderedSet.empty.insert 0).insert 2,
               children := OrderedSet.empty.insert 2 }
      | _ => { parents := OrderedSet.empty.insert 1, children := OrderedSet.empty.insert 1 } }

private theorem linked_cyclicDag : cyclicDag.Linked where
  children := (by decide : ∀ n < 3, ∀ c ∈ (cyclicDag.jobs n).children.elems, c < 3)
  parents := (by decide : ∀ n < 3, ∀ p ∈ (cyclicDag.jobs n).parents.elems, p < 3)
  symmetric := (by decide : ∀ p < 3, ∀ c < 3, c ∈ (cyclicDag.jobs p).children.elems ↔
    p ∈ (cyclicDag.jobs c).parents.elems)

theorem isCycle_cyclicDag : ∃ b, cyclicDag.isCycle 3 [2,0,1] = some b ∧
    (b = true ↔ ∃ n, TransGen cyclicDag.Child n n) :=
  isCycle_iff linked_cyclicDag (fun (n : Nat) => by
    change n ∈ [2,0,1] ↔ n < 3
    simp only [mem_cons,not_mem_nil,or_false]
    omega) (le_refl 3)

example : cyclicDag.isCycle 3 [2,0,1] = some true := by decide

end Dag

end Condor.Dagman
