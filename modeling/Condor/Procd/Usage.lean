import Condor.Procd.Registration

/-!
# What is reported of a family

The loops over the members of a family and over the tree add up what the family and those below it
have used, and reach each of their processes once.
-/

namespace Condor.Procd.Monitor

open Condor.Lib List Option

variable {m : Monitor} {F : Forest Nat} {L : Nat → List Nat} {β : Type}

private theorem foldMembers_eq (f : β → ProcFamilyMember → β) {n : Nat} {b : β} {xs : List Nat}
    {q p : Option Nat} (hw : m.neighbours.Walk q p xs none)
    (hmem : ∀ z ∈ xs, (m.members z).isSome = true) (hn : xs.length < n) :
    m.foldMembers f n b p = some ((xs.filterMap m.members).foldl f b) := by
  induction xs generalizing n b q p with
  | nil =>
    obtain rfl : p = none := hw
    cases n with
    | zero => simp at hn
    | succ n => rfl
  | cons x xs ih =>
    obtain ⟨rfl,-,hw⟩ := hw
    obtain ⟨c,hc⟩ := Option.isSome_iff_exists.mp (hmem x mem_cons_self)
    cases n with
    | zero => simp at hn
    | succ n =>
      have hrest := ih (b := f b c) hw (fun z hz => hmem z (mem_cons_of_mem x hz))
        (by simpa using hn)
      simp [foldMembers,hc,hrest]

def membersOf (m : Monitor) (L : Nat → List Nat) (g : Nat) : List ProcFamilyMember :=
  (L g).filterMap m.members

theorem MemberShape.foldMembers (h : MemberShape m L) (f : β → ProcFamilyMember → β) (b : β)
    (g : Nat) :
    m.foldMembers f (m.nextMember + 1) b (m.memberList g) = some ((membersOf m L g).foldl f b) := by
  apply foldMembers_eq f (h.chain g)
  · intro x hx
    obtain ⟨c,hc,-⟩ := (h.mem g x).mp hx
    simp [hc]
  · exact Nat.lt_succ_of_le (h.length_le g)

variable {g : Nat}

private theorem TreeShape.visit_covered (h : TreeShape m F) (hg : g ∈ F.ids) (f : β → Nat → β)
    (b : β) : m.links.visit f m.nextFamily (f b g) (m.links.child g) = (covered F g).foldl f b := by
  have hlen := (F.under_sublist g).length_le
  have hlt := h.length_lt
  rw [(h.holds.under hg).visit_eq f (by omega)]
  rfl

theorem Shape.signalNode (h : Shape m F L) (hg : g ∈ F.ids) :
    m.signalNode g =
      some ((covered F g).flatMap fun z => (membersOf m L z).map fun c => c.procInfo.pid) := by
  have hspree : ∀ z ∈ F.ids, ∀ pids, m.spree pids z =
      some (pids ++ (membersOf m L z).map fun c => c.procInfo.pid) := by
    intro z hz pids
    obtain ⟨fam,hfam⟩ := h.tree.exists_family hz
    simp only [spree,hfam,bind_eq_bind,bind_some,h.members.foldMembers]
    congr 1
    induction membersOf m L z generalizing pids with
    | nil => simp
    | cons c cs ih => simp [ih]
  have hfold : ∀ zs ⊆ F.ids, ∀ pids, zs.foldl (fun pids z => pids.bind (m.spree · z)) (some pids) =
      some (pids ++ zs.flatMap fun z => (membersOf m L z).map fun c => c.procInfo.pid) := by
    intro zs
    induction zs with
    | nil => simp
    | cons z zs ih =>
      intro hsub pids
      obtain ⟨hz,hsub⟩ := List.cons_subset.mp hsub
      rw [foldl_cons,bind_some,hspree z hz,ih hsub]
      simp
  have hvisit := h.tree.visit_covered hg (fun pids z => pids.bind (m.spree · z)) (some [])
  rw [hfold _ (covered_subset hg)] at hvisit
  exact hvisit

def usageOf (m : Monitor) (L : Nat → List Nat) (zs : List Nat) : ProcFamilyUsage where
  userCpuTime := (zs.map (load .user m L)).sum
  sysCpuTime := (zs.map (load .sys m L)).sum
  numProcs := (zs.map (load .procs m L)).sum

def ProcFamilyUsage.add (u v : ProcFamilyUsage) : ProcFamilyUsage where
  userCpuTime := u.userCpuTime + v.userCpuTime
  sysCpuTime := u.sysCpuTime + v.sysCpuTime
  numProcs := u.numProcs + v.numProcs

theorem ProcFamilyUsage.add_assoc (u v w : ProcFamilyUsage) :
    (u.add v).add w = u.add (v.add w) := by
  simp only [add,Nat.add_assoc]

private theorem ProcFamilyUsage.empty_add (u : ProcFamilyUsage) : ProcFamilyUsage.add {} u = u := by
  simp [add]

theorem usageOf_cons (z : Nat) (zs : List Nat) :
    usageOf m L (z :: zs) = (usageOf m L [z]).add (usageOf m L zs) := by
  simp [usageOf,ProcFamilyUsage.add]

private theorem sum_memberLoad (k : Gauge) (xs : List Nat) :
    (xs.map (memberLoad k m)).sum = ((xs.filterMap m.members).map
    fun c => k.live c.procInfo).sum := by
  induction xs with
  | nil => rfl
  | cons x xs ih =>
    cases hc : m.members x with
    | none | some => simp [hc,memberLoad,ih]

theorem Shape.aggregateUsage (h : Shape m F L) (hg : g ∈ F.ids) (usage : ProcFamilyUsage) :
    m.aggregateUsage usage g = some (usage.add (usageOf m L [g])) := by
  obtain ⟨fam,hfam⟩ := h.tree.exists_family hg
  have hfold : ∀ (cs : List ProcFamilyMember) (u : ProcFamilyUsage),
      cs.foldl (fun u c => (⟨u.userCpuTime + c.procInfo.userTime,
        u.sysCpuTime + c.procInfo.sysTime,u.numProcs + 1⟩ : ProcFamilyUsage)) u =
      ⟨u.userCpuTime + (cs.map fun c => c.procInfo.userTime).sum,
        u.sysCpuTime + (cs.map fun c => c.procInfo.sysTime).sum,u.numProcs + cs.length⟩ := by
    intro cs
    induction cs with
    | nil => intro u; simp
    | cons c cs ih =>
      intro u
      rw [foldl_cons,ih]
      simp only [map_cons,sum_cons,length_cons,ProcFamilyUsage.mk.injEq]
      omega
  simp only [Monitor.aggregateUsage,hfam,bind_eq_bind,bind_some,h.members.foldMembers,
    hfold]
  simp only [ProcFamilyUsage.add,usageOf,map_cons,map_nil,sum_cons,sum_nil,load,
    sum_memberLoad,hfam,elim_some,Gauge.exited,Gauge.live,membersOf,map_const',
    sum_replicate_nat,Nat.mul_one,Option.some.injEq,ProcFamilyUsage.mk.injEq]
  omega

theorem Shape.nodeUsage (h : Shape m F L) (hg : g ∈ F.ids) :
    m.nodeUsage g = some (usageOf m L (covered F g)) := by
  have hfold : ∀ zs ⊆ F.ids, ∀ usage,
      zs.foldl (fun u z => u.bind (m.aggregateUsage · z)) (some usage) =
        some (usage.add (usageOf m L zs)) := by
    intro zs
    induction zs with
    | nil => simp [usageOf,ProcFamilyUsage.add]
    | cons z zs ih =>
      intro hsub usage
      obtain ⟨hz,hsub⟩ := List.cons_subset.mp hsub
      rw [foldl_cons,bind_some,h.aggregateUsage hz,ih hsub,usageOf_cons z zs,
        ProcFamilyUsage.add_assoc]
  have hvisit := h.tree.visit_covered hg (fun u z => u.bind (m.aggregateUsage · z)) (some {})
  rw [hfold _ (covered_subset hg),ProcFamilyUsage.empty_add] at hvisit
  exact hvisit

theorem TreeShape.lookup_mem (h : TreeShape m F) {pid : Pid} {b : Bool}
    (hl : m.lookupFamily pid b = some g) : g ∈ F.ids := by
  unfold lookupFamily at hl
  split at hl
  · obtain rfl := some.inj hl
    exact h.tree_mem
  · exact ((h.table pid g).mp hl).1

theorem Shape.getFamilyUsage (h : Shape m F L) {pid : Pid} (hl : m.lookupFamily pid true = some g) :
    m.getFamilyUsage pid = some (usageOf m L (covered F g),.success) := by
  simp [Monitor.getFamilyUsage,hl,h.nodeUsage (h.tree.lookup_mem hl)]

end Condor.Procd.Monitor
