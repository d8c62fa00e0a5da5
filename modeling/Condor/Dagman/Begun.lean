import Condor.Dagman.Moves

/-!
# Nodes that have begun

A node in the ready queue, in a script, in the batch system or in error has no parent left to
wait for. This holds in every run, whatever the events.
-/

namespace Condor.Dagman

open Lib List Function

/-- The node without the fields that change while the DAG runs; the parents it waits for only
change when a parent releases it. -/
def NodeView.static (x : NodeView) : NodeView :=
  { x with status := .ready, retries := 0, queued := 0, condorID := none, countedAsDone := false }

namespace View

structure SameShape (v w : View) : Prop where
  numNodes : w.numNodes = v.numNodes
  finalJob : w.finalJob = v.finalJob
  static : ∀ m, (w.node m).static = (v.node m).static

namespace SameShape

variable {u v w : View}

theorem trans (h : SameShape u v) (h' : SameShape v w) : SameShape u w :=
  ⟨h'.numNodes.trans h.numNodes,h'.finalJob.trans h.finalJob,
    fun m => (h'.static m).trans (h.static m)⟩

theorem field {α : Type} (f : NodeView → α) (hf : ∀ x, f x.static = f x) (h : SameShape v w)
    (m : JobID) : f (w.node m) = f (v.node m) := by
  rw [← hf,h.static m,hf]

end SameShape

/-- The second view differs from the first in the progress of one node at most. -/
structure Touches (v : View) (n : JobID) (w : View) : Prop extends SameShape v w where
  other : ∀ m, m ≠ n → w.node m = v.node m
  hash : ∀ k m, w.hash k = some m → v.hash k = some m ∨ m = n

namespace Touches

variable {u v w : View} {n : JobID}

theorem refl (v : View) (n : JobID) : Touches v n v :=
  ⟨⟨rfl,rfl,fun _ => rfl⟩,fun _ _ => rfl,fun _ _ h => .inl h⟩

theorem of_eq (h : w = v) (n : JobID) : Touches v n w := by
  rw [h]
  exact refl v n

theorem trans (h : Touches u n v) (h' : Touches v n w) : Touches u n w := by
  refine ⟨h.toSameShape.trans h'.toSameShape,
    fun m hm => (h'.other m hm).trans (h.other m hm),?_⟩
  intro k m hk
  rcases h'.hash k m hk with hk | hk
  · exact h.hash k m hk
  · exact .inr hk

theorem setNode {x : NodeView} (h : x.static = (v.node n).static) :
    Touches v n (v.setNode n x) := by
  refine ⟨⟨rfl,rfl,fun m => ?_⟩,fun m hm => ?_,fun _ _ hk => .inl hk⟩
  · by_cases hm : m = n
    · subst hm
      rw [setNode_node_self]
      exact h
    · simp [View.setNode,hm]
  · simp [View.setNode,hm]

theorem of_node (hn : w.numNodes = v.numNodes) (hf : w.finalJob = v.finalJob)
    (h : w.node = v.node) (hh : w.hash = v.hash) : Touches v n w :=
  ⟨⟨hn,hf,fun m => by rw [h]⟩,fun m _ => by rw [h],
    fun k m hk => .inl (by rw [← hh]; exact hk)⟩

theorem settle (fate : Fate) (k : Nat) : Touches v n (v.settle n fate k) := by
  have h (x : NodeView) (hx : x.static = (v.node n).static) : Touches v n (v.setNode n x) :=
    setNode hx
  cases fate with
  | finished =>
    exact (h { v.node n with status := .done, retries := k, countedAsDone := true } rfl).trans
      (of_node rfl rfl rfl rfl)
  | _ =>
    exact (h { v.node n with status := _, retries := k } rfl).trans (of_node rfl rfl rfl rfl)

theorem countJob (change : Int) : Touches v n (v.countJob n change) :=
  of_node rfl rfl rfl rfl

theorem endProc : Touches v n (v.endProc n) := by
  have h : Touches v n (v.setNode n { v.node n with queued := (v.node n).queued - 1 }) :=
    setNode rfl
  unfold View.endProc
  dsimp only
  split
  · exact h.trans (countJob _)
  · exact h

theorem forget : Touches v n (v.forget n) := by
  unfold View.forget
  split
  · exact refl v n
  · next key hkey =>
    have h : Touches v n (v.setNode n { v.node n with condorID := none }) := setNode rfl
    refine ⟨⟨rfl,rfl,h.static⟩,h.other,fun k m hk => ?_⟩
    dsimp only at hk
    by_cases hkk : k = key
    · rw [hkk,update_self] at hk
      simp at hk
    · rw [update_of_ne hkk] at hk
      exact .inl hk

theorem attempt : Touches v n (Dag.attempt v n) := by
  have h : Touches v n { v with ready := update v.ready n (v.ready n - 1) } :=
    of_node rfl rfl rfl rfl
  exact h.trans forget

theorem assign (key : EventKey) : Touches v n (v.assign n key) := by
  have h : Touches v n (v.setNode n { v.node n with condorID := some key }) := setNode rfl
  refine ⟨⟨rfl,rfl,h.static⟩,h.other,fun k m hk => ?_⟩
  simp only [View.assign] at hk
  by_cases hkk : k = key
  · rw [hkk,update_self] at hk
    exact .inr (Option.some.inj hk).symm
  · rw [update_of_ne hkk] at hk
    exact .inl hk

theorem seeSubmit (key : EventKey) (count : Bool) : Touches v n (v.seeSubmit n key count) :=
  (assign key).trans (setNode rfl)

theorem startFinal : Touches v n (v.startFinal n) := by
  have h : Touches v n (v.setNode n { v.node n with status := .ready }) := setNode rfl
  exact h.trans (of_node rfl rfl rfl rfl)

theorem leave (post : Bool) : Touches v n (v.leave post) := by
  cases post
  · exact of_node rfl rfl rfl rfl
  · exact of_node rfl rfl rfl rfl

theorem handle (j : Job) (fate : Option Fate) : Touches v n (v.handle n j fate) := by
  cases fate with
  | some fate => exact settle fate _
  | none => exact setNode rfl

theorem submitted (key : EventKey) :
    Touches v n ((((Dag.attempt v n).setNode n
      { (Dag.attempt v n).node n with status := .submitted }).countJob n 1).assign n key) := by
  refine (Touches.trans ?_ (countJob 1)).trans (assign key)
  exact attempt.trans (setNode rfl)

end Touches

theorem settle_status (v : View) (n : JobID) (fate : View.Fate) (k : Nat) :
    ((v.settle n fate k).node n).status = fate.status := by
  cases fate <;> simp [settle,View.setNode]

theorem handle_status (v : View) (n : JobID) (j : Job) (fate : Option View.Fate) :
    ((v.handle n j fate).node n).status = match fate with
      | some fate => fate.status
      | none => j.status := by
  cases fate with
  | some fate => exact settle_status v n fate _
  | none => simp [View.handle]

theorem attempt_status (v : View) (n m : JobID) :
    ((Dag.attempt v n).node m).status = (v.node m).status := by
  unfold Dag.attempt View.forget
  split
  · rfl
  · by_cases hm : m = n
    · subst hm
      simp
    · simp [View.setNode,hm]

end View

namespace System

def ending (s : System) (i : Nat) : Option (Cluster × Job) :=
  s.clusters[i]?.bind fun c => (s.dag.eventIDHash c.key).map fun n => (c,s.dag.jobs n)

def EndMeets (P : Cluster → Job → ProcEnd → Answer → Prop) (s : System) : Label → Prop
  | .act (.endEvent i _ result a) => ∀ x ∈ s.ending i, P x.1 x.2 result a
  | _ => True

instance (P : Cluster → Job → ProcEnd → Answer → Prop) [∀ c j r a, Decidable (P c j r a)]
    (s : System) : ∀ l, Decidable (s.EndMeets P l)
  | .act (.endEvent i _ result a) =>
    inferInstanceAs (Decidable (∀ x ∈ s.ending i, P x.1 x.2 result a))
  | .act (.addNode _) | .act (.addDependency ..) | .act (.removeDependency ..) | .act (.markDone _)
  | .act (.setThrottle ..) | .act .bootstrap | .act (.submitReadyJobs ..) | .act (.submitEvent ..)
  | .act (.postEvent _) | .act (.quietEvent ..) | .act (.scriptReaper ..) | .act .startFinalNode
  | .exec _ => .isTrue trivial

theorem EndMeets.apply {P : Cluster → Job → ProcEnd → Answer → Prop} {s : System} {i p : Nat}
    {result : ProcEnd} {a : Answer} (h : s.EndMeets P (.act (.endEvent i p result a)))
    {c : Cluster} {n : JobID} (hi : s.clusters[i]? = some c)
    (hh : s.dag.view.hash c.key = some n) : P c (s.dag.jobs n) result a := by
  have hh : s.dag.eventIDHash c.key = some n := hh
  exact h (c,s.dag.jobs n) (by simp [ending,hi,hh])

end System

namespace System

/-- Queued, at work on a script, submitted, or failed. -/
def Begun (s : System) (m : JobID) : Prop :=
  s.places m ≠ 0 ∨ (∃ k, s.dag.view.hash k = some m) ∨ (∃ c ∈ s.clusters, c.node = m) ∨
    ((s.dag.view.node m).status ≠ .ready ∧ (s.dag.view.node m).status ≠ .done ∧
      (s.dag.view.node m).status ≠ .notReady)

/-- A node that waits for no parent. -/
def Free (s : System) (m : JobID) : Prop :=
  m < s.dag.view.numNodes ∧ (s.dag.view.node m).waiting.isEmpty = true

structure Orderly (s : System) : Prop where
  begun : ∀ m, s.Begun m → s.Free m
  final : ∀ f, s.dag.view.finalJob = some f →
    s.Free f ∧ (s.dag.view.node f).final = true
  bootstrap : ∀ m, .bootstrapDone m ∈ s.owed ∨ .bootstrapStart m ∈ s.owed →
    m < s.dag.view.numNodes
  building : s.bootstrapped = false → s.calls = [] ∧ ∀ m, ¬s.Begun m

variable {o : Options} {s s' : System} {l : Label}

private theorem begun_of_touches {n m : JobID} (hv : View.Touches s.dag.view n s'.dag.view)
    (hp : s'.places m ≤ s.places m ∨ m = n)
    (hc : ∀ c ∈ s'.clusters, c.node = n ∨ ∃ c' ∈ s.clusters, c'.node = c.node)
    (h : s'.Begun m) : s.Begun m ∨ m = n := by
  by_cases hm : m = n
  · exact .inr hm
  left
  rcases h with h | ⟨k,hk⟩ | ⟨c,hcs,hcm⟩ | h
  · rcases hp with hp | hp
    · exact .inl (by omega)
    · exact absurd hp hm
  · rcases hv.hash k m hk with hk | hk
    · exact .inr (.inl ⟨k,hk⟩)
    · exact absurd hk hm
  · rcases hc c hcs with hn | ⟨c',hc',he⟩
    · exact absurd (hcm.symm.trans hn) hm
    · exact .inr (.inr (.inl ⟨c',hc',he.trans hcm⟩))
  · rw [hv.other m hm] at h
    exact .inr (.inr (.inr h))

theorem free_of_shape {m : JobID} (hv : View.SameShape s.dag.view s'.dag.view)
    (h : s.Free m) : s'.Free m := by
  refine ⟨by rw [hv.numNodes]; exact h.1,?_⟩
  rw [hv.field NodeView.waiting (fun _ => rfl)]
  exact h.2

private theorem clusters_set {i : Nat} {c : Cluster} {procs : List ProcState}
    (hi : s.clusters[i]? = some c) (hc : s'.clusters = s.clusters.set i { c with procs := procs }) :
    ∀ x ∈ s'.clusters, ∃ y ∈ s.clusters, y.node = x.node := by
  intro x hx
  rw [hc] at hx
  rcases mem_or_eq_of_mem_set hx with hx | rfl
  · exact ⟨x,hx,rfl⟩
  · exact ⟨c,mem_of_getElem? hi,rfl⟩

theorem Orderly.of_shape (h : Orderly s) (hb : s'.bootstrapped = true)
    (hv : View.SameShape s.dag.view s'.dag.view) (hbegun : ∀ m, s'.Begun m → s.Begun m ∨ s.Free m)
    (ho : ∀ m, .bootstrapDone m ∈ s'.owed ∨ .bootstrapStart m ∈ s'.owed →
      .bootstrapDone m ∈ s.owed ∨ .bootstrapStart m ∈ s.owed) : Orderly s' := by
  refine ⟨fun m hm => ?_,fun f hf => ?_,fun m hm => ?_,fun hb' => by rw [hb] at hb'; simp at hb'⟩
  · apply free_of_shape hv
    rcases hbegun m hm with hm | hm
    · exact h.begun m hm
    · exact hm
  · rw [hv.finalJob] at hf
    obtain ⟨hfree,hfinal⟩ := h.final f hf
    refine ⟨free_of_shape hv hfree,?_⟩
    rw [hv.field NodeView.final (fun _ => rfl)]
    exact hfinal
  · rw [hv.numNodes]
    exact h.bootstrap m (ho m hm)

theorem Orderly.of_node {n : JobID} (h : Orderly s) (hb : s'.bootstrapped = true)
    (hv : View.Touches s.dag.view n s'.dag.view) (hn : s.Free n)
    (hp : ∀ m, s'.places m ≤ s.places m ∨ m = n)
    (hc : ∀ c ∈ s'.clusters, c.node = n ∨ ∃ c' ∈ s.clusters, c'.node = c.node)
    (ho : ∀ m, .bootstrapDone m ∈ s'.owed ∨ .bootstrapStart m ∈ s'.owed →
      .bootstrapDone m ∈ s.owed ∨ .bootstrapStart m ∈ s.owed) : Orderly s' := by
  refine h.of_shape hb hv.toSameShape (fun m hm => ?_) ho
  rcases begun_of_touches hv (hp m) hc hm with hm | rfl
  · exact .inl hm
  · exact .inr hn

private theorem same_clusters (n : JobID) (hc : s'.clusters = s.clusters) :
    ∀ c ∈ s'.clusters, c.node = n ∨ ∃ c' ∈ s.clusters, c'.node = c.node :=
  fun c hcs => .inr ⟨c,hc ▸ hcs,rfl⟩

theorem bootstrap_mem_append {m : JobID} {calls rest : List Call}
    (h : ∀ call ∈ calls, ∃ b p c, call = .releaseChild b p c) :
    (.bootstrapDone m ∈ calls ++ rest ∨ .bootstrapStart m ∈ calls ++ rest) →
      (.bootstrapDone m ∈ rest ∨ .bootstrapStart m ∈ rest) := by
  rintro (hm | hm)
  · rcases List.mem_append.mp hm with hm | hm
    · obtain ⟨b,p,c,hc⟩ := h _ hm
      simp at hc
    · exact .inl hm
  · rcases List.mem_append.mp hm with hm | hm
    · obtain ⟨b,p,c,hc⟩ := h _ hm
      simp at hc
    · exact .inr hm

theorem release_of_mem_owed {n : JobID} {children : OrderedSet JobID} {fate : View.Fate}
    {call : Call} (h : call ∈ fate.owed n children) : ∃ c ∈ children, call =
    .releaseChild false n c := by
  cases fate with
  | finished =>
    obtain ⟨c,hc,rfl⟩ := List.mem_map.mp h
    exact ⟨c,hc,rfl⟩
  | _ => simp [View.Fate.owed] at h

theorem release_of_mem_fateOwed {n : JobID} {children : OrderedSet JobID}
    {fate : Option View.Fate} {call : Call} (h : call ∈ fateOwed n children fate) :
    ∃ c ∈ children, call = .releaseChild false n c := by
  cases fate with
  | some fate => exact release_of_mem_owed h
  | none => simp [fateOwed] at h

theorem orderly_moves (h : Orderly s) (hb : s'.bootstrapped = true) (hm : Moves o s l s') :
    Orderly s' := by
  have hplace {n : JobID} (hn : s.places n ≠ 0) : s.Free n := h.begun n (.inl hn)
  cases hm with
  | quiet hv hc hp ho =>
    have hnode : s'.dag.view.node = s.dag.view.node := by rw [hv]
    have hhash : s'.dag.view.hash = s.dag.view.hash := by rw [hv]
    have htouch : View.Touches s.dag.view 0 s'.dag.view :=
      .of_node (by rw [hv]) (by rw [hv]) hnode hhash
    refine h.of_shape hb htouch.toSameShape (fun m hm => .inl ?_) (fun m hm => ho ▸ hm)
    simpa only [Begun,hp,hc,hnode,hhash] using hm
  | skipped n hs hv hc hp ho =>
    refine h.of_shape hb (View.Touches.of_eq hv n).toSameShape
      (fun m hm => .inl ?_) (fun m hm => ?_)
    · simpa only [Begun,hp,hc,hv] using hm
    · rw [ho]
      exact hm.imp (mem_cons_of_mem _) (mem_cons_of_mem _)
  | preDone n rest hs hv hc hp ho ho' =>
    have htouch : View.Touches s.dag.view n s'.dag.view := hv ▸ .settle _ _
    have hst : (s'.dag.view.node n).status = .done := by
      rw [hv]
      simp [View.settle,View.setNode,View.Fate.status]
    refine h.of_shape hb htouch.toSameShape (fun m hm => .inl ?_) (fun m hm => ?_)
    · rcases begun_of_touches htouch (.inl (Nat.le_of_eq (hp m))) (same_clusters n hc) hm
        with hm | rfl
      · exact hm
      · -- a node that was done stays done
        rcases hm with hm | hm | hm | hm
        · exact .inl (by rw [← hp]; exact hm)
        · rw [hv] at hm
          exact .inr (.inl hm)
        · rw [hc] at hm
          exact .inr (.inr (.inl hm))
        · exact absurd hst hm.2.1
    · rw [ho'] at hm
      rw [ho]
      refine (bootstrap_mem_append (fun call hcall => ?_) hm).imp (mem_cons_of_mem _)
        (mem_cons_of_mem _)
      obtain ⟨c,-,rfl⟩ := List.mem_map.mp hcall
      exact ⟨true,n,c,rfl⟩
  | looked n hn hv hc hp ho =>
    refine h.of_shape hb (View.Touches.of_eq hv n).toSameShape (fun m hm => ?_) (fun m hm => ?_)
    · by_cases hcan : m = n ∧ (s.dag.jobs n).canSubmit = true
      · obtain ⟨rfl,hcan⟩ := hcan
        refine .inr ⟨h.bootstrap m (.inr (by rw [ho]; exact mem_cons_self)),?_⟩
        exact (Job.canSubmit_iff.mp hcan).1
      · left
        have hpm := hp m
        rw [if_neg hcan,Nat.add_zero] at hpm
        simpa only [Begun,hpm,hc,hv] using hm
    · rw [ho]
      exact hm.imp (mem_cons_of_mem _) (mem_cons_of_mem _)
  | preStarted n hs hv hc hp ho =>
    have hpn := hp n
    rw [if_pos rfl] at hpn
    refine h.of_node hb (hv ▸ .settle _ _) (hplace (by omega)) (fun m => ?_)
      (same_clusters n hc) (fun m hm => ho ▸ hm)
    have hpm := hp m
    exact .inl (by omega)
  | released b p c hn hv hc hp ho =>
    have hw (m : JobID) (hm : s.Free m) : s'.Free m := by
      refine ⟨by rw [hv]; exact hm.1,?_⟩
      rw [hv]
      by_cases hmc : m = c
      · subst hmc
        have he := (OrderedSet.isEmpty_iff _).mp hm.2
        rw [View.release,View.setNode_node_self,OrderedSet.isEmpty_iff]
        intro a ha
        exact he a (OrderedSet.mem_erase.mp ha).2
      · simp only [View.release,View.setNode,update_of_ne hmc]
        exact hm.2
    have hst (m : JobID) : (s'.dag.view.node m).status = (s.dag.view.node m).status ∧
        (s'.dag.view.node m).final = (s.dag.view.node m).final :=
      hv ▸ ⟨View.node_release NodeView.status fun _ _ => rfl,
        View.node_release NodeView.final fun _ _ => rfl⟩
    have hhash : s'.dag.view.hash = s.dag.view.hash := by rw [hv]; rfl
    refine ⟨fun m hm => ?_,fun f hf => ?_,fun m hm => ?_,fun hb' => by rw [hb] at hb'; simp at hb'⟩
    · by_cases hcan : m = c ∧ b = false ∧ (s'.dag.jobs c).canSubmit = true
      · obtain ⟨rfl,-,hcan⟩ := hcan
        exact ⟨by rw [hv]; exact hn,(Job.canSubmit_iff.mp hcan).1⟩
      · have hpm := hp m
        rw [if_neg hcan,Nat.add_zero] at hpm
        apply hw
        apply h.begun
        simpa only [Begun,hpm,hc,hhash,(hst m).1] using hm
    · have hf' : s.dag.view.finalJob = some f := by
        rw [hv] at hf
        exact hf
      obtain ⟨hfree,hfinal⟩ := h.final f hf'
      exact ⟨hw f hfree,by rw [(hst f).2]; exact hfinal⟩
    · have hmem := h.bootstrap m (by
        rw [ho]
        exact hm.imp (mem_cons_of_mem _) (mem_cons_of_mem _))
      rw [hv]
      exact hmem
  | scriptEnded post n fate k hs hfate hlost hv hc hp ho =>
    have hn : s.Free n := by
      apply h.begun
      have hs' : (s.dag.view.node n).status = if post then .postrun else .prerun := hs
      exact .inr (.inr (.inr (by rw [hs']; cases post <;> simp)))
    refine h.of_node hb (hv ▸ (View.Touches.leave post).trans (.settle _ _)) hn (fun m => ?_)
      (same_clusters n hc) (fun m hm => ?_)
    · by_cases hm : m = n
      · exact .inr hm
      · exact .inl (by rw [hp,if_neg hm]; exact Nat.le_refl _)
    · rw [ho] at hm
      refine bootstrap_mem_append (fun call hcall => ?_) hm
      obtain ⟨c,-,rfl⟩ := release_of_mem_owed hcall
      exact ⟨false,n,c,rfl⟩
  | finalStarted f extra hf hs hv hc hp ho hextra =>
    refine h.of_node hb (hv ▸ .startFinal) (h.final f hf).1 (fun m => ?_) (same_clusters f hc)
      (fun m hm => ?_)
    · have hpm := hp m
      by_cases hm : m = f
      · exact .inr hm
      · rw [if_neg hm] at hpm
        exact .inl hpm
    · rw [ho] at hm
      rcases hextra with rfl | ⟨i,p,c,rfl,-⟩
      · exact hm
      · simpa using hm
  | submitSeen i p c count extra hi hpr hw hh hcount hv hc hp ho hextra =>
    have hmem : c ∈ s.clusters := mem_of_getElem? hi
    refine h.of_node hb (hv ▸ .seeSubmit _ _)
      (h.begun c.node (.inr (.inr (.inl ⟨c,hmem,rfl⟩))))
      (fun m => .inl (Nat.le_of_eq (hp m))) (fun x hx => ?_) (fun m hm => ?_)
    · exact .inr (clusters_set hi hc x hx)
    · rw [ho]
      exact hm.imp (mem_append_right _) (mem_append_right _)
  | orphaned i p c hi hpr hh hv hc hp ho =>
    refine h.of_shape hb (View.Touches.of_eq hv 0).toSameShape
      (fun m hm => .inl ?_) (fun m hm => ho ▸ hm)
    rcases hm with hm | hm | ⟨x,hx,hxm⟩ | hm
    · exact .inl (by rw [← hp]; exact hm)
    · rw [hv] at hm
      exact .inr (.inl hm)
    · obtain ⟨y,hy,hyx⟩ := clusters_set hi hc x hx
      exact .inr (.inr (.inl ⟨y,hy,hyx.trans hxm⟩))
    · rw [hv] at hm
      exact .inr (.inr (.inr hm))
  | ended i p c n result a monitored hl hi hpr hh hm hv hc hp ho =>
    refine h.of_node hb (hv ▸ View.Touches.endProc.trans (.handle _ _))
      (h.begun n (.inr (.inl ⟨_,hh⟩))) (fun m => ?_)
      (fun x hx => .inr (clusters_set hi hc x hx)) (fun m hm => ?_)
    · by_cases hmn : m = n
      · exact .inr hmn
      · exact .inl (by rw [hp,if_neg hmn]; exact Nat.le_refl _)
    · rw [ho] at hm
      refine bootstrap_mem_append (fun call hcall => ?_) hm
      obtain ⟨c,-,rfl⟩ := release_of_mem_fateOwed hcall
      exact ⟨false,n,c,rfl⟩
  | endedFinal i p c n f result a v hl ht hi hpr hh hpost hab hf hs hv hv' hc hp ho =>
    -- two nodes: first the one that ended, then the final node
    have hmid : View.Touches s.dag.view n v := hv ▸ View.Touches.endProc.trans (.handle _ _)
    have hlast : View.Touches v f s'.dag.view := hv' ▸ .startFinal
    have hn : s.Free n := h.begun n (.inr (.inl ⟨_,hh⟩))
    refine h.of_shape hb (hmid.toSameShape.trans hlast.toSameShape) (fun m hm => ?_)
      (fun m hm => ho ▸ hm)
    by_cases hmf : m = f
    · subst hmf
      exact .inr (h.final m hf).1
    by_cases hmn : m = n
    · subst hmn
      exact .inr hn
    left
    rcases hm with hm | ⟨k,hk⟩ | ⟨x,hx,hxm⟩ | hm
    · have hpm := hp m
      rw [if_neg hmf] at hpm
      exact .inl (by omega)
    · rcases hlast.hash k m hk with hk | hk
      · rcases hmid.hash k m hk with hk | hk
        · exact .inr (.inl ⟨k,hk⟩)
        · exact absurd hk hmn
      · exact absurd hk hmf
    · obtain ⟨y,hy,hyx⟩ := clusters_set hi hc x hx
      exact .inr (.inr (.inl ⟨y,hy,hyx.trans hxm⟩))
    · rw [hlast.other m hmf,hmid.other m hmn] at hm
      exact .inr (.inr (.inr hm))
  | submitted n key moreProcs hn hs hr hend hthr hh hv hc hp ho =>
    refine h.of_node hb (hv ▸ .submitted key) (hplace hr) (fun m => ?_) (fun x hx => ?_)
      (fun m hm => ho ▸ hm)
    · have hpm := hp m
      exact .inl (by omega)
    · rw [hc] at hx
      rcases List.mem_append.mp hx with hx | hx
      · exact .inr ⟨x,hx,rfl⟩
      · rw [List.mem_singleton.mp hx]
        exact .inl rfl
  | attempted n fate k hn hs hr hfate hlost hv hc hp ho =>
    refine h.of_node hb (hv ▸ View.Touches.attempt.trans (.settle _ _)) (hplace hr) (fun m => ?_)
      (same_clusters n hc) (fun m hm => ho ▸ hm)
    have hpm := hp m
    by_cases hm : m = n
    · exact .inr hm
    · rw [if_neg hm,if_neg hm] at hpm
      exact .inl (by omega)
  | dropped n hn hs hr hd hv hc hp ho =>
    refine h.of_node hb (hv ▸ .attempt) (hplace hr) (fun m => ?_) (same_clusters n hc)
      (fun m hm => ho ▸ hm)
    have hpm := hp m
    exact .inl (by omega)

end System

end Condor.Dagman
