import Condor.Dagman.Begun

/-!
# Building the DAG

Adding and removing dependencies in terms of the three sets of every node. A building step
begins no node.
-/

namespace Condor.Dagman

open Lib Function Option

namespace View

def relink (v : View) (parents children waiting : JobID → OrderedSet JobID) : View :=
  { v with node := fun m =>
      { v.node m with parents := parents m, children := children m, waiting := waiting m } }

def parents (v : View) (m : JobID) : OrderedSet JobID := (v.node m).parents

def children (v : View) (m : JobID) : OrderedSet JobID := (v.node m).children

def waiting (v : View) (m : JobID) : OrderedSet JobID := (v.node m).waiting

def limit (v : View) (c : Category) (maxJobs : Nat) : View :=
  let info := { v.throttles c with maxJobs := some maxJobs }
  { v with throttles := update v.throttles c info }

end View

namespace Dag

private theorem view_modify_children (d : Dag) (n : JobID)
    (f : OrderedSet JobID → OrderedSet JobID) :
    (d.modify n fun j => { j with children := f j.children }).view = d.view.relink d.view.parents
      (update d.view.children n (f (d.view.children n))) d.view.waiting := by
  rw [view_modify]
  refine congrArg (fun node => { d.view with node := node }) ?_
  funext m
  by_cases hm : m = n
  · subst hm
    simp only [update_self]
    rfl
  · simp only [update_of_ne hm]
    rfl

private theorem view_modify_parents (d : Dag) (n : JobID)
    (f g : OrderedSet JobID → OrderedSet JobID) :
    (d.modify n fun j => { j with parents := f j.parents, waiting := g j.waiting }).view =
      d.view.relink (update d.view.parents n (f (d.view.parents n))) d.view.children
        (update d.view.waiting n (g (d.view.waiting n))) := by
  rw [view_modify]
  refine congrArg (fun node => { d.view with node := node }) ?_
  funext m
  by_cases hm : m = n
  · subst hm
    simp only [update_self]
    rfl
  · simp only [update_of_ne hm]
    rfl

theorem mem_update_insert {f : JobID → OrderedSet JobID} {n a m x : JobID} :
    x ∈ update f n ((f n).insert a) m ↔ x ∈ f m ∨ (m = n ∧ x = a) := by
  by_cases hm : m = n
  · subst hm
    rw [update_self,OrderedSet.mem_insert]
    tauto
  · rw [update_of_ne hm]
    simp [hm]

theorem mem_update_erase {f : JobID → OrderedSet JobID} {n a m x : JobID} :
    x ∈ update f n ((f n).erase a) m ↔ x ∈ f m ∧ ¬(m = n ∧ x = a) := by
  by_cases hm : m = n
  · subst hm
    rw [update_self,OrderedSet.mem_erase]
    tauto
  · rw [update_of_ne hm]
    simp [hm]

variable {r : Dag × Bool}

private theorem addParent_view {p c : JobID} {d : Dag} (h : d.addParent p c = some r) :
    (r.2 = false ∧ (d.jobs c).canAddParent (d.jobs p) = false ∧ r.1 = d) ∨
    (r.2 = true ∧ (d.jobs c).canAddParent (d.jobs p) = true ∧ (d.jobs c).final = false ∧ ∃ P W,
      r.1.view = d.view.relink P d.view.children W ∧
      (∀ m x, x ∈ P m ↔ x ∈ d.view.parents m ∨ (m = c ∧ x = p)) ∧
      (∀ m x, x ∈ W m ↔ x ∈ d.view.waiting m ∨
        (m = c ∧ x = p ∧ p ∉ d.view.parents c ∧ (d.jobs p).status ≠ .done))) := by
  unfold addParent at h
  split at h
  · next hno =>
    obtain rfl := some.inj h
    exact .inl ⟨rfl,by simpa using hno,rfl⟩
  · next hcan =>
    have hcan : (d.jobs c).canAddParent (d.jobs p) = true := by simpa using hcan
    have hfinal : (d.jobs c).final = false := by
      simp only [Job.canAddParent,Bool.not_eq_true',Bool.and_eq_true] at hcan
      exact hcan.1
    right
    split at h
    · next hmem =>
      obtain rfl := some.inj h
      have hmem : p ∈ d.view.parents c := hmem
      refine ⟨rfl,hcan,hfinal,d.view.parents,d.view.waiting,rfl,fun m x => ?_,fun m x => ?_⟩
      · constructor
        · exact .inl
        · rintro (hx | ⟨rfl,rfl⟩)
          · exact hx
          · exact hmem
      · simp [hmem]
    · next hmem =>
      have hmem : p ∉ d.view.parents c := hmem
      split at h
      · next hdone =>
        obtain rfl := some.inj h
        refine ⟨rfl,hcan,hfinal,_,_,view_modify_parents d c (OrderedSet.insert p) id,
          fun m x => mem_update_insert,fun m x => ?_⟩
        rw [id_eq,update_eq_self]
        simp [hdone]
      · next hdone =>
        split at h
        · simp at h
        · obtain rfl := some.inj h
          refine ⟨rfl,hcan,hfinal,_,_,
            view_modify_parents d c (OrderedSet.insert p) (OrderedSet.insert p),
            fun m x => mem_update_insert,fun m x => ?_⟩
          rw [mem_update_insert]
          simp [hmem,hdone]

/-- What `AddDependency` does: a refusal by the child also takes an edge away that was there
before. -/
theorem addDependency_view {p c : JobID} {d : Dag} (h : d.addDependency p c = some r) :
    (r.2 = false ∧ (d.jobs p).canAddChild = false ∧ r.1.view = d.view) ∨
    (r.2 = false ∧ (d.jobs p).canAddChild = true ∧
      (d.jobs c).canAddParent (d.jobs p) = false ∧ ∃ C,
      r.1.view = d.view.relink d.view.parents C d.view.waiting ∧
      ∀ m x, x ∈ C m ↔ x ∈ d.view.children m ∧ ¬(m = p ∧ x = c)) ∨
    (r.2 = true ∧ (d.jobs c).canAddParent (d.jobs p) = true ∧
      (d.jobs c).final = false ∧ ∃ P C W, r.1.view = d.view.relink P C W ∧
      (∀ m x, x ∈ P m ↔ x ∈ d.view.parents m ∨ (m = c ∧ x = p)) ∧
      (∀ m x, x ∈ C m ↔ x ∈ d.view.children m ∨ (m = p ∧ x = c)) ∧
      (∀ m x, x ∈ W m ↔ x ∈ d.view.waiting m ∨
        (m = c ∧ x = p ∧ p ∉ d.view.parents c ∧ (d.jobs p).status ≠ .done))) := by
  unfold addDependency at h
  split at h
  · next hno =>
    obtain rfl := some.inj h
    exact .inl ⟨rfl,by simpa using hno,rfl⟩
  · next hcan =>
    have hcan : (d.jobs p).canAddChild = true := by simpa using hcan
    dsimp only at h
    generalize hd1 : (if c ∈ (d.jobs p).children then d
      else d.modify p fun j => { j with children := j.children.insert c }) = d1 at h
    obtain ⟨r',hr',rfl⟩ := Option.map_eq_some_iff.mp h
    have hadded : ∃ C, d1.view = d.view.relink d.view.parents C d.view.waiting ∧
        ∀ m x, x ∈ C m ↔ x ∈ d.view.children m ∨ (m = p ∧ x = c) := by
      split at hd1
      · next hmem =>
        subst hd1
        refine ⟨d.view.children,rfl,fun m x => ?_⟩
        constructor
        · exact .inl
        · rintro (hx | ⟨rfl,rfl⟩)
          · exact hx
          · exact hmem
      · subst hd1
        exact ⟨_,view_modify_children d p (OrderedSet.insert c),fun m x => mem_update_insert⟩
    obtain ⟨C,hv1,hC⟩ := hadded
    have hjob (m : JobID) : (d1.jobs m).view =
        { (d.jobs m).view with children := C m } := congrFun (congrArg View.node hv1) m
    have hst (m : JobID) : (d1.jobs m).status = (d.jobs m).status :=
      (congrArg NodeView.status (hjob m)).trans rfl
    have hfin (m : JobID) : (d1.jobs m).final = (d.jobs m).final :=
      (congrArg NodeView.final (hjob m)).trans rfl
    have hpar (m : JobID) : d1.view.parents m = d.view.parents m := by rw [hv1]; rfl
    have hwait (m : JobID) : d1.view.waiting m = d.view.waiting m := by rw [hv1]; rfl
    rcases addParent_view hr' with ⟨hf,hrefused,hr1⟩ | ⟨ht,haccepts,hfinal,P,W,hv2,hP,hW⟩
    · -- the child refuses: the edge is taken out of the children again
      refine .inr (.inl ⟨by rw [if_neg (by rw [hf]; simp)],hcan,?_,?_⟩)
      · simpa only [Job.canAddParent,hst,hfin] using hrefused
      · rw [if_neg (by rw [hf]; simp),hr1]
        refine ⟨update C p ((C p).erase c),?_,fun m x => ?_⟩
        · dsimp only
          rw [view_modify_children d1 p (OrderedSet.erase c),hv1]
          rfl
        · rw [mem_update_erase,hC]
          tauto
    · have haccepts : (d.jobs c).canAddParent (d.jobs p) = true := by
        simpa only [Job.canAddParent,hst,hfin] using haccepts
      refine .inr (.inr ⟨by rw [if_pos ht]; exact ht,haccepts,(hfin c).symm.trans hfinal,
        P,C,W,?_,fun m x => ?_,hC,fun m x => ?_⟩)
      · rw [if_pos ht,hv2,hv1]
        rfl
      · rw [hP,hpar]
      · rw [hW,hwait,hpar,hst]

private theorem removeDependency_view {p c : JobID} {d : Dag}
    (h : d.removeDependency p c = some r) :
    r.1.view = d.view ∨ ∃ P C, r.1.view = d.view.relink P C d.view.waiting ∧
      (∀ m x, x ∈ P m ↔ x ∈ d.view.parents m ∧ ¬(m = c ∧ x = p)) ∧
      (∀ m x, x ∈ C m ↔ x ∈ d.view.children m ∧ ¬(m = p ∧ x = c)) := by
  unfold removeDependency at h
  split at h
  · obtain rfl := some.inj h
    exact .inl rfl
  · split at h
    · simp at h
    · obtain rfl := some.inj h
      right
      have h1 := view_modify_children d p (OrderedSet.erase c)
      have h2 := view_modify_parents (d.modify p fun j => { j with children := j.children.erase c })
        c (OrderedSet.erase p) id
      refine ⟨update d.view.parents c ((d.view.parents c).erase p),
        update d.view.children p ((d.view.children p).erase c),?_,
        fun m x => mem_update_erase,fun m x => mem_update_erase⟩
      dsimp only
      refine h2.trans ?_
      rw [id_eq,update_eq_self,h1]
      rfl

private theorem addNode_view (spec : NodeSpec) (d : Dag) :
    (d.addNode spec).view = d.view ∨
    ((spec.isFinal = true → d.finalJob = none) ∧
      (d.addNode spec).view = { d.view.setNode d.numNodes spec.toJob.view with
        numNodes := d.numNodes + 1
        finalJob := if spec.isFinal then some d.numNodes else d.finalJob }) := by
  unfold addNode
  split
  · exact .inl rfl
  · next hf =>
    refine .inr ⟨fun hs => ?_,?_⟩
    · simpa [hs] using hf
    · refine congrArg (fun node => ({ d.view with
        node := node
        numNodes := d.numNodes + 1
        finalJob := if spec.isFinal then some d.numNodes else d.finalJob } : View)) ?_
      funext m
      by_cases hm : m = d.numNodes
      · subst hm
        simp [setJob]
      · simp only [setJob,View.setNode,update_of_ne hm]
        rfl

end Dag

inductive Builds (s : System) : Action → System → Prop
  | same {action : Action} {s' : System} (hv : s'.dag.view = s.dag.view)
      (hc : s'.clusters = s.clusters) (hk : s'.calls = s.calls)
      (hb : s'.bootstrapped = s.bootstrapped) : Builds s action s'
  | addNode {spec : NodeSpec} {s' : System} (hf : spec.isFinal = true → s.dag.finalJob = none)
      (hv : s'.dag.view = { s.dag.view.setNode s.dag.numNodes spec.toJob.view with
        numNodes := s.dag.numNodes + 1
        finalJob := if spec.isFinal then some s.dag.numNodes else s.dag.finalJob })
      (hc : s'.clusters = s.clusters) (hk : s'.calls = s.calls)
      (hb : s'.bootstrapped = s.bootstrapped) : Builds s (.addNode spec) s'
  /-- A refused edge, with the children as they are after the attempt was undone. -/
  | refused {p c : JobID} {C : JobID → OrderedSet JobID} {s' : System}
      (hp : p < s.dag.numNodes) (hn : c < s.dag.numNodes)
      (hcan : (s.dag.jobs c).canAddParent (s.dag.jobs p) = false)
      (hv : s'.dag.view = s.dag.view.relink s.dag.view.parents C s.dag.view.waiting)
      (hC : ∀ m x, x ∈ C m ↔ x ∈ s.dag.view.children m ∧ ¬(m = p ∧ x = c))
      (hc : s'.clusters = s.clusters) (hk : s'.calls = s.calls)
      (hb : s'.bootstrapped = s.bootstrapped) : Builds s (.addDependency p c) s'
  | linked {p c : JobID} {P C W : JobID → OrderedSet JobID} {s' : System}
      (hp : p < s.dag.numNodes) (hn : c < s.dag.numNodes) (hf : (s.dag.jobs c).final = false)
      (hv : s'.dag.view = s.dag.view.relink P C W)
      (hP : ∀ m x, x ∈ P m ↔ x ∈ s.dag.view.parents m ∨ (m = c ∧ x = p))
      (hC : ∀ m x, x ∈ C m ↔ x ∈ s.dag.view.children m ∨ (m = p ∧ x = c))
      (hW : ∀ m x, x ∈ W m ↔ x ∈ s.dag.view.waiting m ∨
        (m = c ∧ x = p ∧ p ∉ s.dag.view.parents c ∧ (s.dag.jobs p).status ≠ .done))
      (hc : s'.clusters = s.clusters) (hk : s'.calls = s.calls)
      (hb : s'.bootstrapped = s.bootstrapped) : Builds s (.addDependency p c) s'
  | removed {p c : JobID} {P C : JobID → OrderedSet JobID} {s' : System}
      (hv : s'.dag.view = s.dag.view.relink P C s.dag.view.waiting)
      (hP : ∀ m x, x ∈ P m ↔ x ∈ s.dag.view.parents m ∧ ¬(m = c ∧ x = p))
      (hC : ∀ m x, x ∈ C m ↔ x ∈ s.dag.view.children m ∧ ¬(m = p ∧ x = c))
      (hc : s'.clusters = s.clusters) (hk : s'.calls = s.calls)
      (hb : s'.bootstrapped = s.bootstrapped) : Builds s (.removeDependency p c) s'
  | markDone {n : JobID} {s' : System} (hn : n < s.dag.numNodes)
      (hf : (s.dag.jobs n).final = false)
      (hv : s'.dag.view = s.dag.view.setNode n { s.dag.view.node n with status := .done })
      (hc : s'.clusters = s.clusters) (hk : s'.calls = s.calls)
      (hb : s'.bootstrapped = s.bootstrapped) : Builds s (.markDone n) s'
  | setThrottle {c : Category} {maxJobs : Nat} {s' : System}
      (hv : s'.dag.view = s.dag.view.limit c maxJobs)
      (hc : s'.clusters = s.clusters) (hk : s'.calls = s.calls)
      (hb : s'.bootstrapped = s.bootstrapped) : Builds s (.setThrottle c maxJobs) s'
  | bootstrap {s' : System} (hv : s'.dag.view = s.dag.view) (hc : s'.clusters = s.clusters)
      (hk : s'.calls = (List.range s.dag.numNodes).map Call.bootstrapDone ++
        (List.range s.dag.numNodes).map Call.bootstrapStart)
      (hb : s'.bootstrapped = true) : Builds s .bootstrap s'

namespace System

variable {s s' : System}

private theorem buildAct_builds {action : Action} (h : s.buildAct action = some s') :
    Builds s action s' := by
  cases action with
  | addNode spec =>
    obtain rfl := some.inj h
    rcases Dag.addNode_view spec s.dag with hv | ⟨hf,hv⟩
    · exact .same hv rfl rfl rfl
    · exact .addNode hf hv rfl rfl rfl
  | addDependency p c =>
    simp only [buildAct] at h
    split at h
    · next hlt =>
      obtain ⟨r,hr,rfl⟩ := Option.map_eq_some_iff.mp h
      rcases Dag.addDependency_view hr with ⟨-,-,hv⟩ | ⟨-,-,hcan,C,hv,hC⟩ |
        ⟨-,-,hf,P,C,W,hv,hP,hC,hW⟩
      · exact .same hv rfl rfl rfl
      · exact .refused hlt.1 hlt.2 hcan hv hC rfl rfl rfl
      · exact .linked hlt.1 hlt.2 hf hv hP hC hW rfl rfl rfl
    · simp at h
  | removeDependency p c =>
    simp only [buildAct] at h
    split at h
    · obtain ⟨r,hr,rfl⟩ := Option.map_eq_some_iff.mp h
      rcases Dag.removeDependency_view hr with hv | ⟨P,C,hv,hP,hC⟩
      · exact .same hv rfl rfl rfl
      · exact .removed hv hP hC rfl rfl rfl
    · simp at h
  | markDone n =>
    simp only [buildAct] at h
    split at h
    · next hn =>
      obtain rfl := some.inj h
      exact .markDone hn.1 hn.2 (Dag.view_setStatus s.dag n .done) rfl rfl rfl
    · simp at h
  | setThrottle c maxJobs =>
    obtain rfl := some.inj h
    exact .setThrottle rfl rfl rfl rfl
  | bootstrap =>
    obtain rfl := some.inj h
    exact .bootstrap rfl rfl rfl rfl
  | _ => simp [buildAct] at h

theorem step_builds {o : Options} {l : Label} (hb : s.bootstrapped = false)
    (hk : s.calls = []) (h : s.step o l = some s') :
    ∃ action, l = .act action ∧ Builds s action s' := by
  cases l with
  | act action =>
    simp only [step,hb] at h
    split at h
    · simp at h
    · exact ⟨action,rfl,buildAct_builds h⟩
  | exec a =>
    simp [step,hk] at h

private theorem begun_congr {m : JobID}
    (hp : s'.places m = s.places m) (hh : s'.dag.view.hash = s.dag.view.hash)
    (hc : s'.clusters = s.clusters) (hs : (s'.dag.view.node m).status = (s.dag.view.node m).status ∨
      (s'.dag.view.node m).status = .ready ∨ (s'.dag.view.node m).status = .done ∨
      (s'.dag.view.node m).status = .notReady) (h : s'.Begun m) : s.Begun m := by
  rcases h with h | h | h | h
  · exact .inl (by rw [← hp]; exact h)
  · exact .inr (.inl (by rw [← hh]; exact h))
  · exact .inr (.inr (.inl (by rw [← hc]; exact h)))
  · rcases hs with hs | hs | hs | hs
    · exact .inr (.inr (.inr (by rw [← hs]; exact h)))
    · exact absurd hs h.1
    · exact absurd hs h.2.1
    · exact absurd hs h.2.2

private theorem toJob_status (spec : NodeSpec) : spec.toJob.status = .ready ∨
    spec.toJob.status = .done ∨ spec.toJob.status = .notReady := by
  unfold NodeSpec.toJob
  dsimp only
  split
  · simp
  · split <;> simp

private theorem placesIn_bootstrap (nodes : List JobID) (m : JobID) :
    placesIn (nodes.map Call.bootstrapDone ++ nodes.map Call.bootstrapStart) m = 0 := by
  apply placesIn_eq_zero
  intro call hcall
  rcases List.mem_append.mp hcall with hcall | hcall
  · obtain ⟨n,-,rfl⟩ := List.mem_map.mp hcall
    rfl
  · obtain ⟨n,-,rfl⟩ := List.mem_map.mp hcall
    rfl

private theorem orderly_builds {action : Action} (h : Orderly s)
    (hb : s.bootstrapped = false) (hm : Builds s action s') : Orderly s' := by
  obtain ⟨hk0,hnone⟩ := h.building hb
  have hplaces (hready : s'.dag.view.ready = s.dag.view.ready) (hk : s'.calls = s.calls)
      (m : JobID) : s'.places m = s.places m := by
    rw [places,places,hready,hk]
  have howed (hk : s'.calls = s.calls) (m : JobID) :
      ¬(.bootstrapDone m ∈ s'.owed ∨ .bootstrapStart m ∈ s'.owed) := by
    simp [owed,hk,hk0]
  -- no node has begun, so only the final node and the calls need attention
  have hassemble (hbegun : ∀ m, ¬s'.Begun m) (hk : s'.calls = s.calls)
      (hfinal : ∀ f, s'.dag.view.finalJob = some f →
        s'.Free f ∧ (s'.dag.view.node f).final = true) : Orderly s' :=
    ⟨fun m hm => absurd hm (hbegun m),hfinal,fun m hm => absurd hm (howed hk m),
      fun _ => ⟨hk.trans hk0,hbegun⟩⟩
  cases hm with
  | same hv hc hk hb' =>
    refine hassemble (fun m hm => hnone m ?_) hk (fun f hf => ?_)
    · exact begun_congr (hplaces (by rw [hv]) hk m) (by rw [hv]) hc (.inl (by rw [hv])) hm
    · have := h.final f (by rw [← hv]; exact hf)
      simpa only [Free,hv] using this
  | @addNode spec _ hf hv hc hk hb' =>
    refine hassemble (fun m hm => hnone m ?_) hk (fun f hf' => ?_)
    · refine begun_congr (hplaces (by rw [hv]; rfl) hk m) (by rw [hv]; rfl) hc ?_ hm
      rw [hv]
      by_cases hmn : m = s.dag.numNodes
      · subst hmn
        simp only [View.setNode_node_self]
        exact .inr (toJob_status _)
      · simp [View.setNode,hmn]
    · by_cases hfn : f = s.dag.numNodes
      · subst hfn
        have hspec : spec.isFinal = true := by
          rw [hv] at hf'
          dsimp only at hf'
          split at hf'
          · assumption
          · exact absurd (h.final _ hf').1.1 (Nat.lt_irrefl _)
        rw [Free,hv]
        simp only [View.setNode_node_self]
        exact ⟨⟨Nat.lt_succ_self _,rfl⟩,hspec⟩
      · have hold : s.dag.view.finalJob = some f := by
          rw [hv] at hf'
          dsimp only at hf'
          split at hf'
          · exact absurd (some.inj hf').symm hfn
          · exact hf'
        obtain ⟨⟨hlt,hw⟩,hfin⟩ := h.final f hold
        rw [Free,hv]
        simp only [View.setNode,update_of_ne hfn]
        exact ⟨⟨Nat.lt_succ_of_lt hlt,hw⟩,hfin⟩
  | refused hp hn hcan hv hC hc hk hb' | removed hv hP hC hc hk hb' | setThrottle hv hc hk hb' =>
    refine hassemble (fun m hm => hnone m ?_) hk (fun f hf => ?_)
    · exact begun_congr (hplaces (by rw [hv]; rfl) hk m) (by rw [hv]; rfl) hc
        (.inl (by rw [hv]; rfl)) hm
    · rw [hv] at hf
      rw [Free,hv]
      exact h.final f hf
  | @linked p c P C W _ hp hn hfin hv hP hC hW hc hk hb' =>
    refine hassemble (fun m hm => hnone m ?_) hk (fun f hf => ?_)
    · exact begun_congr (hplaces (by rw [hv]; rfl) hk m) (by rw [hv]; rfl) hc
        (.inl (by rw [hv]; rfl)) hm
    · rw [hv] at hf
      obtain ⟨⟨hlt,hw⟩,hff⟩ := h.final f hf
      rw [Free,hv]
      refine ⟨⟨hlt,?_⟩,hff⟩
      change (W f).isEmpty = true
      rw [OrderedSet.isEmpty_iff]
      intro x hx
      rcases (hW f x).mp hx with hx | ⟨rfl,-⟩
      · exact (OrderedSet.isEmpty_iff _).mp hw x hx
      · -- the final node takes no parents
        have hff : (s.dag.jobs f).final = true := hff
        rw [hfin] at hff
        simp at hff
  | @markDone n _ hn hfin hv hc hk hb' =>
    refine hassemble (fun m hm => hnone m ?_) hk (fun f hf => ?_)
    · refine begun_congr (hplaces (by rw [hv]; rfl) hk m) (by rw [hv]; rfl) hc ?_ hm
      rw [hv]
      by_cases hmn : m = n
      · subst hmn
        simp
      · simp [View.setNode,hmn]
    · rw [hv] at hf
      have hff := h.final f hf
      have htouch : View.Touches s.dag.view n s'.dag.view := hv ▸ .setNode rfl
      refine ⟨free_of_shape htouch.toSameShape hff.1,?_⟩
      rw [htouch.field NodeView.final (fun _ => rfl)]
      exact hff.2
  | bootstrap hv hc hk hb' =>
    have hbegun (m : JobID) : ¬s'.Begun m := by
      intro hm
      refine hnone m (begun_congr ?_ (by rw [hv]) hc (.inl (by rw [hv])) hm)
      rw [places,places,hv,hk,hk0,placesIn_bootstrap]
      rfl
    refine ⟨fun m hm => absurd hm (hbegun m),fun f hf => ?_,fun m hm => ?_,fun hb'' => ?_⟩
    · rw [hv] at hf
      rw [Free,hv]
      exact h.final f hf
    · rw [hv]
      change m < s.dag.numNodes
      simpa [owed,hk,Call.owed] using hm
    · rw [hb'] at hb''
      simp at hb''

theorem orderly_init : Orderly {} := by
  refine ⟨fun m hm => ?_,fun f hf => ?_,fun m hm => ?_,fun _ => ⟨rfl,fun m hm => ?_⟩⟩
  · simp [Begun,places,Dag.view,PriorityList.occurrences,Job.view] at hm
  · simp [Dag.view] at hf
  · simp [owed] at hm
  · simp [Begun,places,Dag.view,PriorityList.occurrences,Job.view] at hm

theorem orderly_step {o : Options} {l : Label} (h : Orderly s)
    (hs : s.step o l = some s') : Orderly s' := by
  cases hb : s.bootstrapped with
  | false =>
    obtain ⟨action,-,hm⟩ := step_builds hb (h.building hb).1 hs
    exact orderly_builds h hb hm
  | true => exact orderly_moves h (step_bootstrapped hb hs) (step_moves hb hs)

/-- Whatever the events and in whatever order, a node that is in the ready queue, runs a script, has
been submitted or has failed waits for no parent. -/
theorem free_of_begun (o : Options) (labels : List Label) : run (System.step o) {} labels = none ∨
    ∃ s, run (System.step o) {} labels = some s ∧ ∀ m, s.Begun m → s.Free m := by
  cases hr : run (System.step o) {} labels with
  | none => exact .inl rfl
  | some s =>
    exact .inr ⟨s,rfl,(run_preserves (fun _ _ _ h hs => orderly_step h hs) orderly_init hr).begun⟩

end System

namespace Dag

def SameLinks (j j' : Job) : Prop :=
  j'.parents = j.parents ∧ j'.children = j.children ∧ j'.waiting = j.waiting

def AddsOnly (parent child : JobID) (d d' : Dag) : Prop :=
  ∀ n x, (x ∈ (d'.jobs n).children ↔ x ∈ (d.jobs n).children ∨ (n = parent ∧ x = child)) ∧
    (x ∈ (d'.jobs n).parents ↔ x ∈ (d.jobs n).parents ∨ (n = child ∧ x = parent)) ∧
    (x ∈ (d.jobs n).waiting → x ∈ (d'.jobs n).waiting) ∧
    (x ∈ (d'.jobs n).waiting → x ∈ (d.jobs n).waiting ∨ (n = child ∧ x = parent))

/-- A refused `AddDependency` changes no links, an accepted one adds the edge. -/
def Atomic (parent child : JobID) (d : Dag) : Prop :=
  ∀ r, d.addDependency parent child = some r →
    (r.2 = false → ∀ n, SameLinks (d.jobs n) (r.1.jobs n)) ∧
    (r.2 = true → AddsOnly parent child d r.1)

/-- The child refuses a parent that has it as a child already: the old edge is taken out of the
parent's children. -/
theorem not_atomic_of_refused {parent child : JobID} {d : Dag}
    (hcan : (d.jobs parent).canAddChild = true)
    (hrefused : (d.jobs child).canAddParent (d.jobs parent) = false)
    (hmem : child ∈ (d.jobs parent).children) : ¬ d.Atomic parent child := by
  intro hatomic
  obtain ⟨r,hr,hf⟩ : ∃ r, d.addDependency parent child = some r ∧ r.2 = false := by
    rw [addDependency,if_neg (by simp [hcan])]
    simp only [if_pos hmem,addParent,hrefused]
    exact ⟨_,rfl,rfl⟩
  rcases addDependency_view hr with ⟨-,hno,-⟩ | ⟨-,-,-,C,hv,hC⟩ | ⟨ht,-⟩
  · simp [hcan] at hno
  · have hlinks := ((hatomic r hr).1 hf parent).2.1
    have hchildren : (r.1.jobs parent).children = C parent :=
      congrArg NodeView.children (congrFun (congrArg View.node hv) parent)
    rw [← hlinks,hchildren,hC] at hmem
    exact hmem.2 ⟨rfl,rfl⟩
  · simp [hf] at ht

/-- That is the only case in which a dependency is not added atomically. -/
theorem addDependency_atomic_iff (parent child : JobID) (d : Dag) :
    d.Atomic parent child ↔ ¬((d.jobs parent).canAddChild = true ∧
      (d.jobs child).canAddParent (d.jobs parent) = false ∧
      child ∈ (d.jobs parent).children) := by
  constructor
  · rintro hatomic ⟨hcan,hrefused,hmem⟩
    exact not_atomic_of_refused hcan hrefused hmem hatomic
  · intro hnot r hr
    have hnode {v : View} (hv : r.1.view = v) (n : JobID) : (r.1.jobs n).view = v.node n :=
      congrFun (congrArg View.node hv) n
    rcases addDependency_view hr with ⟨hf,-,hv⟩ | ⟨hf,hcan,hrefused,C,hv,hC⟩ |
      ⟨ht,-,-,P,C,W,hv,hP,hC,hW⟩
    · refine ⟨fun _ n => ?_,fun ht => by simp [hf] at ht⟩
      exact ⟨congrArg NodeView.parents (hnode hv n),congrArg NodeView.children (hnode hv n),
        congrArg NodeView.waiting (hnode hv n)⟩
    · refine ⟨fun _ n => ?_,fun ht => by simp [hf] at ht⟩
      refine ⟨congrArg NodeView.parents (hnode hv n),?_,congrArg NodeView.waiting (hnode hv n)⟩
      refine (congrArg NodeView.children (hnode hv n)).trans (OrderedSet.ext fun x => ?_)
      change x ∈ C n ↔ x ∈ (d.jobs n).children
      rw [hC]
      refine and_iff_left_of_imp fun hx => ?_
      rintro ⟨rfl,rfl⟩
      exact hnot ⟨hcan,hrefused,hx⟩
    · refine ⟨fun hf => by simp [ht] at hf,fun _ n x => ?_⟩
      have hchildren : (r.1.jobs n).children = C n := congrArg NodeView.children (hnode hv n)
      have hparents : (r.1.jobs n).parents = P n := congrArg NodeView.parents (hnode hv n)
      have hwaiting : (r.1.jobs n).waiting = W n := congrArg NodeView.waiting (hnode hv n)
      rw [hchildren,hparents,hwaiting]
      refine ⟨hC n x,hP n x,fun hx => (hW n x).mpr (.inl hx),fun hx => ?_⟩
      exact ((hW n x).mp hx).imp_right fun hx => ⟨hx.1,hx.2.1⟩

/-- A child that is marked done refuses a parent that it has already: the parent loses it. -/
theorem addDependency_drops_edge :
    let labels : List Label := [.act (.addNode {}),.act (.addNode {}),.act (.addDependency 0 1),
      .act (.markDone 1)]
    ∃ s, run (System.step {}) {} labels = some s ∧ ¬ s.dag.Atomic 0 1 := by
  intro labels
  obtain ⟨s,hrun,hs⟩ := run_exists (System.step {}) {} labels
    (fun s => decide ((s.dag.jobs 0).canAddChild = true ∧
      (s.dag.jobs 1).canAddParent (s.dag.jobs 0) = false ∧ 1 ∈ (s.dag.jobs 0).children))
    (by decide)
  obtain ⟨hcan,hrefused,hmem⟩ := of_decide_eq_true hs
  exact ⟨s,hrun,not_atomic_of_refused hcan hrefused hmem⟩

end Dag

end Condor.Dagman
