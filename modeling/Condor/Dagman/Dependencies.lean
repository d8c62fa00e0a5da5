import Condor.Dagman.Build

/-!
# Nodes and their parents

The three sets of the nodes stay consistent: an edge is known to both of its ends, and a node waits
for exactly the parents that are not done.
-/

namespace Condor.Dagman

open Lib List Function

namespace System

def Exempt (strict : Bool) (s : System) (c : JobID) : Prop :=
  strict = false ∧ (s.dag.view.node c).status = .done
deriving Decidable

def Owes (s : System) (p c : JobID) : Prop :=
  (∃ b, .releaseChild b p c ∈ s.owed) ∨ .bootstrapDone p ∈ s.owed

structure Graph (strict : Bool) (s : System) : Prop where
  bound : ∀ p c, p ∈ s.dag.view.parents c ∨ p ∈ s.dag.view.waiting c →
    p < s.dag.view.numNodes ∧ c < s.dag.view.numNodes
  child : ∀ p c, p ∈ s.dag.view.parents c → c ∈ s.dag.view.children p ∨ s.Exempt strict c
  parent : ∀ p c, c ∈ s.dag.view.children p → p ∈ s.dag.view.parents c
  blocked : ∀ p c, p ∈ s.dag.view.parents c → (s.dag.view.node p).status ≠ .done →
    p ∈ s.dag.view.waiting c
  owes : ∀ p c, p ∈ s.dag.view.waiting c → s.Exempt strict c ∨ (p ∈ s.dag.view.parents c ∧
    (s.bootstrapped = true → (s.dag.view.node p).status ≠ .done ∨ s.Owes p c))
  releasing : ∀ b p c, .releaseChild b p c ∈ s.owed → (s.dag.view.node p).status = .done

variable {o : Options} {s s' : System} {l : Label} {strict : Bool}

/-- An edge that exists is not added again while its child would refuse it, and no edge is
removed while the child waits for the parent. -/
def BuildsCleanly (strict : Bool) (s : System) : Label → Prop
  | .act (.addDependency p c) => c ∈ (s.dag.jobs p).children →
      (s.dag.jobs c).canAddParent (s.dag.jobs p) = true ∨ s.Exempt strict c
  | .act (.removeDependency p c) => p ∉ (s.dag.jobs c).waiting ∨ s.Exempt strict c
  | _ => True

instance (strict : Bool) (s : System) : ∀ l, Decidable (BuildsCleanly strict s l)
  | .act (.addDependency p c) => inferInstanceAs (Decidable (c ∈ (s.dag.jobs p).children →
      (s.dag.jobs c).canAddParent (s.dag.jobs p) = true ∨ s.Exempt strict c))
  | .act (.removeDependency p c) =>
    inferInstanceAs (Decidable (p ∉ (s.dag.jobs c).waiting ∨ s.Exempt strict c))
  | .act (.addNode _) | .act (.endEvent ..) | .act (.markDone _) | .act (.setThrottle ..)
  | .act .bootstrap | .act (.submitReadyJobs ..) | .act (.submitEvent ..) | .act (.postEvent _)
  | .act (.quietEvent ..) | .act (.scriptReaper ..) | .act .startFinalNode | .exec _ =>
    .isTrue trivial

private theorem graph_same (h : Graph strict s) (hb : s.bootstrapped = false)
    (hb' : s'.bootstrapped = s.bootstrapped) (hn : s'.dag.view.numNodes = s.dag.view.numNodes)
    (hp : s'.dag.view.parents = s.dag.view.parents)
    (hc : s'.dag.view.children = s.dag.view.children)
    (hw : s'.dag.view.waiting = s.dag.view.waiting)
    (hd : ∀ m, (s.dag.view.node m).status = .done → (s'.dag.view.node m).status = .done)
    (ho : s'.owed = []) : Graph strict s' := by
  refine ⟨?_,?_,?_,?_,?_,?_⟩
  · rw [hn,hp,hw]
    exact h.bound
  · intro p c hpc
    rw [hp] at hpc
    rw [hc]
    exact (h.child p c hpc).imp id fun he => ⟨he.1,hd c he.2⟩
  · rw [hp,hc]
    exact h.parent
  · intro p c hpc hnd
    rw [hp] at hpc
    rw [hw]
    exact h.blocked p c hpc fun hdone => hnd (hd p hdone)
  · intro p c hpc
    rw [hw] at hpc
    rw [hp]
    rcases h.owes p c hpc with he | ⟨hpar,-⟩
    · exact .inl ⟨he.1,hd c he.2⟩
    · refine .inr ⟨hpar,fun hboot => ?_⟩
      rw [hb',hb] at hboot
      simp at hboot
  · intro b p c hmem
    rw [ho] at hmem
    simp at hmem

private theorem graph_builds {action : Action} (h : Graph strict s) (hb : s.bootstrapped = false)
    (hk0 : s.calls = []) (hok : BuildsCleanly strict s (.act action)) (hm : Builds s action s') :
    Graph strict s' := by
  have howed (hk : s'.calls = s.calls) : s'.owed = [] := by rw [owed,hk,hk0]; rfl
  have hnever (hb' : s'.bootstrapped = s.bootstrapped) {P : Prop} (hboot : s'.bootstrapped = true) :
      P := by
    rw [hb',hb] at hboot
    simp at hboot
  cases hm with
  | same hv hc hk hb' =>
    exact graph_same h hb hb' (by rw [hv]) (by rw [hv]) (by rw [hv]) (by rw [hv])
      (fun m hm => by rw [hv]; exact hm) (howed hk)
  | @addNode spec _ hf hv hc hk hb' =>
    -- the new node is in no set, and its own sets are empty
    have hnew (f : NodeView → OrderedSet JobID) (hfn : f spec.toJob.view = .empty) (m x : JobID) :
        x ∈ f (s'.dag.view.node m) → x ∈ f (s.dag.view.node m) ∧ m ≠ s.dag.numNodes := by
      intro hx
      rw [hv] at hx
      by_cases hm : m = s.dag.numNodes
      · subst hm
        simp only [View.setNode_node_self] at hx
        rw [hfn] at hx
        exact absurd hx (OrderedSet.not_mem_empty x)
      · simp only [View.setNode,update_of_ne hm] at hx
        exact ⟨hx,hm⟩
    have hold (m : JobID) (hm : m ≠ s.dag.numNodes) :
        s'.dag.view.node m = s.dag.view.node m := by
      rw [hv]
      simp only [View.setNode,update_of_ne hm]
    have hN : s'.dag.view.numNodes = s.dag.view.numNodes + 1 := by rw [hv]; rfl
    refine ⟨fun p c hpc => ?_,fun p c hpc => ?_,fun p c hpc => ?_,fun p c hpc hnd => ?_,
      fun p c hpc => ?_,fun b p c hmem => ?_⟩
    · have hlt := h.bound p c (hpc.imp (fun hx => (hnew NodeView.parents rfl c p hx).1)
        fun hx => (hnew NodeView.waiting rfl c p hx).1)
      rw [hN]
      exact ⟨Nat.lt_succ_of_lt hlt.1,Nat.lt_succ_of_lt hlt.2⟩
    · obtain ⟨hx,hm⟩ := hnew NodeView.parents rfl c p hpc
      have hlt := (h.bound p c (.inl hx)).1
      have hpn : p ≠ s.dag.numNodes := Nat.ne_of_lt hlt
      refine (h.child p c hx).imp (fun hc => ?_) fun he => ⟨he.1,?_⟩
      · change c ∈ (s'.dag.view.node p).children
        rw [hold p hpn]
        exact hc
      · rw [hold c hm]
        exact he.2
    · obtain ⟨hx,hm⟩ := hnew NodeView.children rfl p c hpc
      have hpar := h.parent p c hx
      have hcn : c ≠ s.dag.numNodes := Nat.ne_of_lt (h.bound p c (.inl hpar)).2
      change p ∈ (s'.dag.view.node c).parents
      rw [hold c hcn]
      exact hpar
    · obtain ⟨hx,hm⟩ := hnew NodeView.parents rfl c p hpc
      have hpn : p ≠ s.dag.numNodes := Nat.ne_of_lt (h.bound p c (.inl hx)).1
      rw [hold p hpn] at hnd
      change p ∈ (s'.dag.view.node c).waiting
      rw [hold c hm]
      exact h.blocked p c hx hnd
    · obtain ⟨hx,hm⟩ := hnew NodeView.waiting rfl c p hpc
      rcases h.owes p c hx with he | ⟨hpar,-⟩
      · exact .inl ⟨he.1,by rw [hold c hm]; exact he.2⟩
      · refine .inr ⟨?_,hnever hb'⟩
        change p ∈ (s'.dag.view.node c).parents
        rw [hold c hm]
        exact hpar
    · rw [howed hk] at hmem
      simp at hmem
  | @refused p c C _ hp hn hcan hv hC hc hk hb' =>
    have hchildren (m : JobID) : s'.dag.view.children m = C m := by rw [hv]; rfl
    refine ⟨fun q x hq => ?_,fun q x hq => ?_,fun q x hq => ?_,fun q x hq hnd => ?_,
      fun q x hq => ?_,fun b q x hmem => ?_⟩
    · rw [hv] at hq ⊢
      exact h.bound q x hq
    · rw [hv] at hq
      have hex (he : s.Exempt strict x) : s'.Exempt strict x := ⟨he.1,by rw [hv]; exact he.2⟩
      rcases h.child q x hq with hx | he
      · by_cases heq : q = p ∧ x = c
        · obtain ⟨rfl,rfl⟩ := heq
          rcases hok hx with hcan' | he
          · rw [hcan] at hcan'
            simp at hcan'
          · exact .inr (hex he)
        · rw [hchildren]
          exact .inl ((hC q x).mpr ⟨hx,heq⟩)
      · exact .inr (hex he)
    · rw [hchildren] at hq
      rw [hv]
      exact h.parent q x ((hC q x).mp hq).1
    · rw [hv] at hq hnd ⊢
      exact h.blocked q x hq hnd
    · rw [hv] at hq
      rcases h.owes q x hq with he | ⟨hpar,-⟩
      · exact .inl ⟨he.1,by rw [hv]; exact he.2⟩
      · exact .inr ⟨by rw [hv]; exact hpar,hnever hb'⟩
    · rw [howed hk] at hmem
      simp at hmem
  | @linked p c P C W _ hp hn hfin hv hP hC hW hc hk hb' =>
    have hpar (m : JobID) : s'.dag.view.parents m = P m := by rw [hv]; rfl
    have hchi (m : JobID) : s'.dag.view.children m = C m := by rw [hv]; rfl
    have hwai (m : JobID) : s'.dag.view.waiting m = W m := by rw [hv]; rfl
    have hst (m : JobID) : (s'.dag.view.node m).status = (s.dag.view.node m).status := by
      rw [hv]; rfl
    have hN : s'.dag.view.numNodes = s.dag.view.numNodes := by rw [hv]; rfl
    refine ⟨fun q x hq => ?_,fun q x hq => ?_,fun q x hq => ?_,fun q x hq hnd => ?_,
      fun q x hq => ?_,fun b q x hmem => ?_⟩
    · rw [hpar,hwai,hP,hW] at hq
      rw [hN]
      rcases hq with (hq | ⟨rfl,rfl⟩) | (hq | ⟨rfl,rfl,-⟩)
      · exact h.bound q x (.inl hq)
      · exact ⟨hp,hn⟩
      · exact h.bound q x (.inr hq)
      · exact ⟨hp,hn⟩
    · rw [hpar,hP] at hq
      rw [hchi,hC]
      rcases hq with hq | ⟨rfl,rfl⟩
      · exact (h.child q x hq).imp .inl fun he => ⟨he.1,by rw [hst]; exact he.2⟩
      · exact .inl (.inr ⟨rfl,rfl⟩)
    · rw [hchi,hC] at hq
      rw [hpar,hP]
      rcases hq with hq | ⟨rfl,rfl⟩
      · exact .inl (h.parent q x hq)
      · exact .inr ⟨rfl,rfl⟩
    · rw [hpar,hP] at hq
      rw [hst] at hnd
      rw [hwai,hW]
      rcases hq with hq | ⟨rfl,rfl⟩
      · exact .inl (h.blocked q x hq hnd)
      · by_cases hmem : q ∈ s.dag.view.parents x
        · exact .inl (h.blocked q x hmem hnd)
        · exact .inr ⟨rfl,rfl,hmem,hnd⟩
    · rw [hwai,hW] at hq
      rw [hpar,hP]
      rcases hq with hq | ⟨rfl,rfl,-⟩
      · rcases h.owes q x hq with he | ⟨hx,-⟩
        · exact .inl ⟨he.1,by rw [hst]; exact he.2⟩
        · exact .inr ⟨.inl hx,hnever hb'⟩
      · exact .inr ⟨.inr ⟨rfl,rfl⟩,hnever hb'⟩
    · rw [howed hk] at hmem
      simp at hmem
  | @removed p c P C _ hv hP hC hc hk hb' =>
    have hpar (m : JobID) : s'.dag.view.parents m = P m := by rw [hv]; rfl
    have hchi (m : JobID) : s'.dag.view.children m = C m := by rw [hv]; rfl
    have hwai (m : JobID) : s'.dag.view.waiting m = s.dag.view.waiting m := by rw [hv]; rfl
    have hst (m : JobID) : (s'.dag.view.node m).status = (s.dag.view.node m).status := by
      rw [hv]; rfl
    have hN : s'.dag.view.numNodes = s.dag.view.numNodes := by rw [hv]; rfl
    refine ⟨fun q x hq => ?_,fun q x hq => ?_,fun q x hq => ?_,fun q x hq hnd => ?_,
      fun q x hq => ?_,fun b q x hmem => ?_⟩
    · rw [hpar,hwai,hP] at hq
      rw [hN]
      exact h.bound q x (hq.imp (fun hx => hx.1) id)
    · rw [hpar,hP] at hq
      rw [hchi,hC]
      exact (h.child q x hq.1).imp (fun hx => ⟨hx,fun hc => hq.2 ⟨hc.2,hc.1⟩⟩)
        fun he => ⟨he.1,by rw [hst]; exact he.2⟩
    · rw [hchi,hC] at hq
      rw [hpar,hP]
      exact ⟨h.parent q x hq.1,fun hc => hq.2 ⟨hc.2,hc.1⟩⟩
    · rw [hpar,hP] at hq
      rw [hst] at hnd
      rw [hwai]
      exact h.blocked q x hq.1 hnd
    · rw [hwai] at hq
      rw [hpar,hP]
      rcases h.owes q x hq with he | ⟨hx,-⟩
      · exact .inl ⟨he.1,by rw [hst]; exact he.2⟩
      · by_cases heq : x = c ∧ q = p
        · obtain ⟨rfl,rfl⟩ := heq
          rcases hok with hno | he
          · exact absurd hq hno
          · exact .inl ⟨he.1,by rw [hst]; exact he.2⟩
        · exact .inr ⟨⟨hx,heq⟩,hnever hb'⟩
    · rw [howed hk] at hmem
      simp at hmem
  | @markDone n _ hn hfin hv hc hk hb' =>
    have htouch : View.Touches s.dag.view n s'.dag.view := hv ▸ .setNode rfl
    refine graph_same h hb hb' htouch.numNodes ?_ ?_ ?_ (fun m hm => ?_) (howed hk)
    · funext m
      exact htouch.field NodeView.parents (fun _ => rfl) m
    · funext m
      exact htouch.field NodeView.children (fun _ => rfl) m
    · funext m
      exact htouch.field NodeView.waiting (fun _ => rfl) m
    · by_cases hmn : m = n
      · subst hmn
        rw [hv]
        simp
      · rw [htouch.other m hmn]
        exact hm
  | setThrottle hv hc hk hb' =>
    exact graph_same h hb hb' (by rw [hv]; rfl) (by rw [hv]; rfl) (by rw [hv]; rfl)
      (by rw [hv]; rfl) (fun m hm => by rw [hv]; exact hm) (howed hk)
  | bootstrap hv hc hk hb' =>
    have hmem (call : Call) : call ∈ s'.owed ↔ (∃ m < s.dag.numNodes, call = .bootstrapDone m) ∨
        ∃ m < s.dag.numNodes, call = .bootstrapStart m := by
      simp only [owed,hk,mem_filter,mem_append,mem_map,mem_range]
      constructor
      · rintro ⟨⟨m,hm,rfl⟩ | ⟨m,hm,rfl⟩,-⟩
        · exact .inl ⟨m,hm,rfl⟩
        · exact .inr ⟨m,hm,rfl⟩
      · rintro (⟨m,hm,rfl⟩ | ⟨m,hm,rfl⟩)
        · exact ⟨.inl ⟨m,hm,rfl⟩,rfl⟩
        · exact ⟨.inr ⟨m,hm,rfl⟩,rfl⟩
    refine ⟨by rw [hv]; exact h.bound,fun p c hpc => ?_,by rw [hv]; exact h.parent,
      by rw [hv]; exact h.blocked,fun p c hpc => ?_,fun b p c hpc => ?_⟩
    · rw [hv] at hpc ⊢
      exact (h.child p c hpc).imp id fun he => ⟨he.1,by rw [hv]; exact he.2⟩
    · rw [hv] at hpc
      rcases h.owes p c hpc with he | ⟨hpar,-⟩
      · exact .inl ⟨he.1,by rw [hv]; exact he.2⟩
      · refine .inr ⟨by rw [hv]; exact hpar,fun _ => .inr (.inr ?_)⟩
        exact (hmem _).mpr (.inl ⟨p,(h.bound p c (.inr hpc)).1,rfl⟩)
    · rcases (hmem _).mp hpc with ⟨m,-,hm⟩ | ⟨m,-,hm⟩
      · simp at hm
      · simp at hm

private theorem graph_init (strict : Bool) : Graph strict {} := by
  refine ⟨fun p c h => ?_,fun p c h => ?_,fun p c h => ?_,fun p c h => ?_,fun p c h => ?_,
    fun b p c h => ?_⟩
  · rcases h with h | h
    · exact absurd h (OrderedSet.not_mem_empty p)
    · exact absurd h (OrderedSet.not_mem_empty p)
  · exact absurd h (OrderedSet.not_mem_empty p)
  · exact absurd h (OrderedSet.not_mem_empty c)
  · exact absurd h (OrderedSet.not_mem_empty p)
  · exact absurd h (OrderedSet.not_mem_empty p)
  · simp [owed] at h

theorem Graph.of_shape (h : Graph strict s) (hb : s.bootstrapped = true)
    (hv : View.SameShape s.dag.view s'.dag.view)
    (hdone : ∀ m, (s.dag.view.node m).status = .done → (s'.dag.view.node m).status = .done)
    (howes : ∀ p c, c ∈ s.dag.view.children p → (s'.dag.view.node p).status = .done →
      (s.dag.view.node p).status ≠ .done ∨ s.Owes p c → s'.Owes p c)
    (hrel : ∀ b p c, .releaseChild b p c ∈ s'.owed →
      .releaseChild b p c ∈ s.owed ∨ (s'.dag.view.node p).status = .done) : Graph strict s' := by
  have hpar (m : JobID) : s'.dag.view.parents m = s.dag.view.parents m :=
    hv.field NodeView.parents (fun _ => rfl) m
  have hchi (m : JobID) : s'.dag.view.children m = s.dag.view.children m :=
    hv.field NodeView.children (fun _ => rfl) m
  have hwai (m : JobID) : s'.dag.view.waiting m = s.dag.view.waiting m :=
    hv.field NodeView.waiting (fun _ => rfl) m
  have hex {c : JobID} (he : s.Exempt strict c) : s'.Exempt strict c := ⟨he.1,hdone c he.2⟩
  refine ⟨fun p c hpc => ?_,fun p c hpc => ?_,fun p c hpc => ?_,fun p c hpc hnd => ?_,
    fun p c hpc => ?_,fun b p c hmem => ?_⟩
  · rw [hpar,hwai] at hpc
    rw [hv.numNodes]
    exact h.bound p c hpc
  · rw [hpar] at hpc
    rw [hchi]
    exact (h.child p c hpc).imp id hex
  · rw [hchi] at hpc
    rw [hpar]
    exact h.parent p c hpc
  · rw [hpar] at hpc
    rw [hwai]
    exact h.blocked p c hpc fun hd => hnd (hdone p hd)
  · rw [hwai] at hpc
    rw [hpar]
    rcases h.owes p c hpc with he | ⟨hx,ho⟩
    · exact .inl (hex he)
    · rcases h.child p c hx with hc | he
      · refine .inr ⟨hx,fun _ => ?_⟩
        by_cases hd : (s'.dag.view.node p).status = .done
        · exact .inr (howes p c hc hd (ho hb))
        · exact .inl hd
      · exact .inl (hex he)
  · rcases hrel b p c hmem with hold | hd
    · exact hdone p (h.releasing b p c hold)
    · exact hd

variable {n : JobID}

private theorem Graph.of_idle (h : Graph strict s) (hb : s.bootstrapped = true)
    (hv : View.Touches s.dag.view n s'.dag.view)
    (hdone : (s'.dag.view.node n).status = .done ↔ (s.dag.view.node n).status = .done)
    (ho : ∀ p, (∀ b c, .releaseChild b p c ∈ s'.owed ↔ .releaseChild b p c ∈ s.owed) ∧
      (.bootstrapDone p ∈ s.owed → .bootstrapDone p ∈ s'.owed)) : Graph strict s' := by
  have hd (m : JobID) : (s'.dag.view.node m).status = .done ↔
    (s.dag.view.node m).status = .done := by
    by_cases hm : m = n
    · subst hm
      exact hdone
    · rw [hv.other m hm]
  refine h.of_shape hb hv.toSameShape (fun m => (hd m).mpr) (fun p c _ hdp hor => ?_)
    (fun b p c hmem => .inl (((ho p).1 b c).mp hmem))
  rcases hor with hnd | ⟨b,hmem⟩ | hmem
  · exact absurd ((hd p).mp hdp) hnd
  · exact .inl ⟨b,((ho p).1 b c).mpr hmem⟩
  · exact .inr ((ho p).2 hmem)

private theorem Graph.of_fate {calls : List Call} (h : Graph strict s)
    (hb : s.bootstrapped = true) (hv : View.Touches s.dag.view n s'.dag.view)
    (hdone : (s.dag.view.node n).status = .done → (s'.dag.view.node n).status = .done)
    (hcalls : ∀ call ∈ calls, ∃ c, call = .releaseChild false n c)
    (hfin : (s'.dag.view.node n).status = .done → (s.dag.view.node n).status = .done ∨
      ∀ c ∈ s.dag.view.children n, .releaseChild false n c ∈ calls)
    (hrel : calls ≠ [] → (s'.dag.view.node n).status = .done)
    (ho : s'.owed = calls ++ s.owed) : Graph strict s' := by
  have hkeep {p c : JobID} (howes : s.Owes p c) : s'.Owes p c := by
    rcases howes with ⟨b,hmem⟩ | hmem
    · exact .inl ⟨b,by rw [ho]; exact mem_append_right _ hmem⟩
    · exact .inr (by rw [ho]; exact mem_append_right _ hmem)
  refine h.of_shape hb hv.toSameShape
    (fun m hm => ?_) (fun p c hc hd hor => ?_) (fun b p c hmem => ?_)
  · by_cases hmn : m = n
    · subst hmn
      exact hdone hm
    · rw [hv.other m hmn]
      exact hm
  · rcases hor with hnd | howes
    · by_cases hpn : p = n
      · subst hpn
        rcases hfin hd with hold | hall
        · exact absurd hold hnd
        · exact .inl ⟨false,by rw [ho]; exact mem_append_left _ (hall c hc)⟩
      · rw [hv.other p hpn] at hd
        exact absurd hd hnd
    · exact hkeep howes
  · rw [ho] at hmem
    rcases List.mem_append.mp hmem with hmem | hmem
    · obtain ⟨x,hx⟩ := hcalls _ hmem
      obtain ⟨rfl,rfl,rfl⟩ := Call.releaseChild.inj hx
      exact .inr (hrel (ne_nil_of_mem hmem))
    · exact .inl hmem

private theorem mem_fateOwed {children : OrderedSet JobID} {fate : View.Fate}
    (hd : fate.status = .done) {c : JobID} (hc : c ∈ children) :
    .releaseChild false n c ∈ fate.owed n children := by
  cases fate with
  | finished => exact List.mem_map.mpr ⟨c,hc,rfl⟩
  | _ => simp [View.Fate.status] at hd

private theorem status_of_owed {children : OrderedSet JobID} {fate : View.Fate}
    (h : fate.owed n children ≠ []) : fate.status = .done := by
  cases fate with
  | finished => rfl
  | _ => simp [View.Fate.owed] at h

private theorem graph_moves (h : Graph strict s) (hb : s.bootstrapped = true) (hm : Moves o s l s')
    (hback : ∀ m, (s.dag.view.node m).status = .done → (s'.dag.view.node m).status = .done) :
    Graph strict s' := by
  have hsame (ho : s'.owed = s.owed) (p : JobID) :
      (∀ b c, .releaseChild b p c ∈ s'.owed ↔ .releaseChild b p c ∈ s.owed) ∧
        (.bootstrapDone p ∈ s.owed → .bootstrapDone p ∈ s'.owed) := by
    rw [ho]
    exact ⟨fun _ _ => Iff.rfl,id⟩
  cases hm with
  | quiet hv hc hp ho =>
    have hnode : s'.dag.view.node = s.dag.view.node := by rw [hv]
    exact h.of_idle hb (.of_node (n := 0) (by rw [hv]) (by rw [hv]) hnode (by rw [hv]))
      (by rw [hnode]) (hsame ho)
  | skipped n hs hv hc hp ho =>
    refine h.of_shape hb (View.Touches.of_eq hv n).toSameShape hback
      (fun p c _ hd hor => ?_) (fun b p c hmem => ?_)
    · rw [hv] at hd
      rcases hor with hnd | ⟨b,hmem⟩ | hmem
      · exact absurd hd hnd
      · rw [ho,mem_cons] at hmem
        simp only [reduceCtorEq,false_or] at hmem
        exact .inl ⟨b,hmem⟩
      · rw [ho,mem_cons] at hmem
        rcases hmem with heq | hmem
        · obtain rfl := Call.bootstrapDone.inj heq
          exact absurd hd hs
        · exact .inr hmem
    · rw [ho]
      exact .inl (mem_cons_of_mem _ hmem)
  | preDone n rest hs hv hc hp ho ho' =>
    have hst : (s.dag.view.node n).status = .done := hs
    have htouch : View.Touches s.dag.view n s'.dag.view := hv ▸ .settle _ _
    refine h.of_shape hb htouch.toSameShape hback (fun p c hc hd hor => ?_) (fun b p c hmem => ?_)
    · by_cases hpn : p = n
      · subst hpn
        refine .inl ⟨true,?_⟩
        rw [ho']
        exact mem_append_left _ (List.mem_map.mpr ⟨c,hc,rfl⟩)
      · have hold : (s.dag.view.node p).status = .done := by
          rw [hv] at hd
          simpa [View.settle,View.setNode,hpn] using hd
        rcases hor with hnd | ⟨b,hmem⟩ | hmem
        · exact absurd hold hnd
        · rw [ho,mem_cons] at hmem
          simp only [reduceCtorEq,false_or] at hmem
          exact .inl ⟨b,by rw [ho']; exact mem_append_right _ hmem⟩
        · rw [ho,mem_cons] at hmem
          rcases hmem with heq | hmem
          · exact absurd (Call.bootstrapDone.inj heq) hpn
          · exact .inr (by rw [ho']; exact mem_append_right _ hmem)
    · rw [ho'] at hmem
      rcases List.mem_append.mp hmem with hmem | hmem
      · obtain ⟨x,-,hx⟩ := List.mem_map.mp hmem
        obtain ⟨rfl,rfl,rfl⟩ := Call.releaseChild.inj hx
        exact .inr (hback _ hst)
      · rw [ho]
        exact .inl (mem_cons_of_mem _ hmem)
  | looked n hn hv hc hp ho =>
    refine h.of_idle hb (.of_eq hv n) (by rw [hv]) (fun p => ?_)
    rw [ho]
    simp
  | preStarted n hs hv hc hp ho =>
    have hready : (s.dag.view.node n).status = .ready := (Job.canSubmit_iff.mp hs).2
    refine h.of_idle hb (hv ▸ .settle _ _ : View.Touches s.dag.view n s'.dag.view) ?_ (hsame ho)
    rw [hv,View.settle_status,hready]
    simp [View.Fate.status]
  | released b p c hn hv hc hp ho =>
    -- the child forgets a parent that is done
    have hst (m : JobID) : (s'.dag.view.node m).status = (s.dag.view.node m).status :=
      hv ▸ View.node_release NodeView.status fun _ _ => rfl
    have hpar (m : JobID) : s'.dag.view.parents m = s.dag.view.parents m :=
      hv ▸ View.node_release NodeView.parents fun _ _ => rfl
    have hchi (m : JobID) : s'.dag.view.children m = s.dag.view.children m :=
      hv ▸ View.node_release NodeView.children fun _ _ => rfl
    have hwai (m x : JobID) : x ∈ s'.dag.view.waiting m ↔
        x ∈ s.dag.view.waiting m ∧ ¬(m = c ∧ x = p) := by
      have hupd : s'.dag.view.waiting =
          update s.dag.view.waiting c ((s.dag.view.waiting c).erase p) := by
        funext m
        rw [hv]
        by_cases hmc : m = c
        · subst hmc
          rw [update_self]
          simp only [View.waiting,View.release,View.setNode_node_self]
        · rw [update_of_ne hmc]
          simp only [View.waiting,View.release,View.setNode,update_of_ne hmc]
      rw [hupd]
      exact Dag.mem_update_erase
    have hpd : (s.dag.view.node p).status = .done :=
      h.releasing b p c (by rw [ho]; exact mem_cons_self)
    have hex {x : JobID} (he : s.Exempt strict x) : s'.Exempt strict x :=
      ⟨he.1,(hst x).trans he.2⟩
    refine ⟨fun q x hq => ?_,fun q x hq => ?_,fun q x hq => ?_,fun q x hq hnd => ?_,
      fun q x hq => ?_,fun b' q x hmem => ?_⟩
    · rw [hpar,hwai] at hq
      rw [hv]
      exact h.bound q x (hq.imp id (fun hx => hx.1))
    · rw [hpar] at hq
      rw [hchi]
      exact (h.child q x hq).imp id hex
    · rw [hchi] at hq
      rw [hpar]
      exact h.parent q x hq
    · rw [hpar] at hq
      rw [hst] at hnd
      refine (hwai x q).mpr ⟨h.blocked q x hq hnd,fun heq => ?_⟩
      rw [heq.2] at hnd
      exact hnd hpd
    · obtain ⟨hw,hne⟩ := (hwai x q).mp hq
      rw [hpar]
      rcases h.owes q x hw with he | ⟨hx,howes⟩
      · exact .inl (hex he)
      · refine .inr ⟨hx,fun _ => ?_⟩
        rw [hst]
        rcases howes hb with hnd | ⟨b',hmem⟩ | hmem
        · exact .inl hnd
        · rw [ho,mem_cons] at hmem
          rcases hmem with heq | hmem
          · obtain ⟨-,rfl,rfl⟩ := Call.releaseChild.inj heq
            exact absurd ⟨rfl,rfl⟩ hne
          · exact .inr (.inl ⟨b',hmem⟩)
        · rw [ho,mem_cons] at hmem
          simp only [reduceCtorEq,false_or] at hmem
          exact .inr (.inr hmem)
    · rw [hst]
      exact h.releasing b' q x (by rw [ho]; exact mem_cons_of_mem _ hmem)
  | scriptEnded post n fate k hs hfate hlost hv hc hp ho =>
    have hst' : (s'.dag.view.node n).status = fate.status := by rw [hv,View.settle_status]
    refine h.of_fate hb (hv ▸ (View.Touches.leave post).trans (.settle _ _)) (hback n)
      (fun call hcall => ?_) (fun hd => .inr fun c hc => ?_) (fun hne => ?_) ho
    · obtain ⟨c,-,hcall⟩ := release_of_mem_owed hcall
      exact ⟨c,hcall⟩
    · exact mem_fateOwed (hst'.symm.trans hd) hc
    · exact hst'.trans (status_of_owed hne)
  | finalStarted f extra hf hs hv hc hp ho hextra =>
    have hnr : (s.dag.view.node f).status = .notReady := hs
    refine h.of_idle hb (hv ▸ .startFinal : View.Touches s.dag.view f s'.dag.view) ?_
      (fun p => ?_)
    · rw [hv,hnr]
      simp [View.startFinal,View.setNode]
    · rw [ho]
      rcases hextra with rfl | ⟨i,q,c,rfl,-⟩
      · exact ⟨fun _ _ => Iff.rfl,id⟩
      · simp
  | submitSeen i p c count extra hi hpr hw hh hcount hv hc hp ho hextra =>
    refine h.of_idle hb (hv ▸ .seeSubmit _ _ : View.Touches s.dag.view c.node s'.dag.view) ?_
      (fun q => ?_)
    · rw [hv]
      simp [View.seeSubmit,View.assign]
    · rw [ho]
      rcases hextra with rfl | rfl
      · exact ⟨fun _ _ => Iff.rfl,id⟩
      · simp
  | orphaned i p c hi hpr hh hv hc hp ho =>
    exact h.of_idle hb (.of_eq hv 0) (by rw [hv]) (hsame ho)
  | ended i p c n result a monitored hl hi hpr hh hm hv hc hp ho =>
    generalize procEndFate ((s.dag.jobs n).afterEnd result) result.failed monitored = fate
      at ho hv
    have hst' := View.handle_status (s.dag.view.endProc n) n ((s.dag.jobs n).afterEnd result) fate
    rw [← hv] at hst'
    refine h.of_fate hb (hv ▸ View.Touches.endProc.trans (.handle _ _)) (hback n)
      (fun call hcall => ?_) (fun hd => ?_) (fun hne => ?_) ho
    · obtain ⟨c,-,hcall⟩ := release_of_mem_fateOwed hcall
      exact ⟨c,hcall⟩
    · cases fate with
      | some fate => exact .inr fun c hc => mem_fateOwed (hst'.symm.trans hd) hc
      | none =>
        left
        exact Job.done_of_afterEnd (hst'.symm.trans hd)
    · cases fate with
      | some fate => exact hst'.trans (status_of_owed hne)
      | none => exact absurd rfl hne
  | endedFinal i p c n f result a v hl ht hi hpr hh hpost hab hf hs hv hv' hc hp ho =>
    have hmid : View.Touches s.dag.view n v := hv ▸ View.Touches.endProc.trans (.handle _ _)
    have hlast : View.Touches v f s'.dag.view := hv' ▸ .startFinal
    have hmid_status : (v.node n).status = ((s.dag.jobs n).afterEnd result).status := by
      rw [hv,View.handle_status]
    have hf' : (s'.dag.view.node f).status = .ready := by
      rw [hv']
      simp [View.startFinal,View.setNode]
    -- no node becomes done: the view in between only has a new error
    have hno (m : JobID) (hd : (s'.dag.view.node m).status = .done) :
        (s.dag.view.node m).status = .done := by
      by_cases hmf : m = f
      · rw [hmf,hf'] at hd
        simp at hd
      · rw [hlast.other m hmf] at hd
        by_cases hmn : m = n
        · rw [hmn,hmid_status] at hd
          rw [hmn]
          exact Job.done_of_afterEnd hd
        · rw [hmid.other m hmn] at hd
          exact hd
    refine h.of_shape hb (hmid.toSameShape.trans hlast.toSameShape) hback
      (fun q x _ hd hor => ?_) (fun b q x hmem => .inl (ho ▸ hmem))
    rcases hor with hnd | howes
    · exact absurd (hno q hd) hnd
    · simpa only [Owes,ho] using howes
  | submitted n key moreProcs hn hs hr hend hthr hh hv hc hp ho =>
    have hready : (s.dag.view.node n).status = .ready := hs
    refine h.of_idle hb (hv ▸ .submitted key : View.Touches s.dag.view n s'.dag.view) ?_
      (hsame ho)
    rw [hv,hready]
    simp [View.assign,View.countJob,View.setNode]
  | attempted n fate k hn hs hr hfate hlost hv hc hp ho =>
    have hready : (s.dag.view.node n).status = .ready := hs
    refine h.of_idle hb (hv ▸ View.Touches.attempt.trans (.settle _ _) :
      View.Touches s.dag.view n s'.dag.view) ?_ (hsame ho)
    rw [hv,View.settle_status,hready]
    rcases hfate with rfl | rfl | rfl | rfl <;> simp [View.Fate.status]
  | dropped n hn hs hr hd hv hc hp ho =>
    refine h.of_idle hb (hv ▸ .attempt : View.Touches s.dag.view n s'.dag.view) ?_ (hsame ho)
    rw [hv,View.attempt_status]

/-- Neither a failure nor the last proc of a node with a POST script comes in for a node that is
done. -/
def KeepsDone (s : System) (l : Label) : Prop :=
  s.EndMeets (fun _ j result _ => ¬(j.status = .done ∧
    (result.failed = true ∨ (j.scriptPost = true ∧ j.queuedNodeJobProcs = 1)))) l
deriving Decidable

private theorem done_of_touches (hv : View.Touches s.dag.view n s'.dag.view)
    (hn : (s.dag.view.node n).status ≠ .done ∨ (s'.dag.view.node n).status = .done) (m : JobID)
    (hd : (s.dag.view.node m).status = .done) : (s'.dag.view.node m).status = .done := by
  by_cases hm : m = n
  · subst hm
    rcases hn with hn | hn
    · exact absurd hd hn
    · exact hn
  · rw [hv.other m hm]
    exact hd

private theorem procEndFate_done {j : Job} {result : ProcEnd} {monitored : Bool}
    (hd : j.status = .done)
    (hok : ¬(result.failed = true ∨ (j.scriptPost = true ∧ j.queuedNodeJobProcs = 1))) :
    (match procEndFate (j.afterEnd result) result.failed monitored with
      | some fate => fate.status
      | none => (j.afterEnd result).status) = .done := by
  have hf : result.failed = false := by
    cases hr : result.failed
    · rfl
    · exact absurd (.inl hr) hok
  have hj : j.afterEnd result =
      { j with queuedNodeJobProcs := j.queuedNodeJobProcs - 1, retval := 0 } := by
    unfold Job.afterEnd
    dsimp only
    rw [if_neg (by rw [hd]; simp),if_neg (by rw [hf]; simp)]
  rw [hj,hf,procEndFate]
  simp only [Bool.false_and,Bool.false_eq_true,if_false]
  by_cases hq : j.queuedNodeJobProcs - 1 = 0
  · have hpost : j.scriptPost ≠ true := fun hp => hok (.inr ⟨hp,by omega⟩)
    rw [if_pos hq,if_neg hpost,if_pos (by rw [hd]; simp)]
    rfl
  · rw [if_neg hq]
    exact hd

private theorem done_moves (hm : Moves o s l s') (hok : KeepsDone s l) (m : JobID)
    (hd : (s.dag.view.node m).status = .done) : (s'.dag.view.node m).status = .done := by
  cases hm with
  | quiet hv =>
    have hnode : s'.dag.view.node = s.dag.view.node := by rw [hv]
    rw [hnode]
    exact hd
  | skipped n hs hv | looked n hn hv | orphaned i p c hi hpr hh hv => rw [hv]; exact hd
  | preDone n rest hs hv =>
    refine done_of_touches (hv ▸ .settle _ _ : View.Touches s.dag.view n s'.dag.view)
      (.inr ?_) m hd
    rw [hv,View.settle_status]
    rfl
  | preStarted n hs hv =>
    refine done_of_touches (hv ▸ .settle _ _ : View.Touches s.dag.view n s'.dag.view)
      (.inl ?_) m hd
    change (s.dag.jobs n).status ≠ .done
    rw [(Job.canSubmit_iff.mp hs).2]
    simp
  | released b p c hn hv =>
    rw [hv,View.node_release NodeView.status fun _ _ => rfl]
    exact hd
  | scriptEnded post n fate k hs hfate hlost hv =>
    refine done_of_touches (hv ▸ (View.Touches.leave post).trans (.settle _ _) :
      View.Touches s.dag.view n s'.dag.view) (.inl ?_) m hd
    change (s.dag.jobs n).status ≠ .done
    rw [hs]
    cases post <;> simp
  | finalStarted f extra hf hs hv =>
    refine done_of_touches (hv ▸ .startFinal : View.Touches s.dag.view f s'.dag.view)
      (.inl ?_) m hd
    change (s.dag.jobs f).status ≠ .done
    rw [hs]
    simp
  | submitSeen i p c count extra hi hpr hw hh hcount hv =>
    have hst : (s'.dag.view.node c.node).status = (s.dag.view.node c.node).status := by
      rw [hv]
      simp [View.seeSubmit,View.assign]
    refine done_of_touches (hv ▸ .seeSubmit _ _ : View.Touches s.dag.view c.node s'.dag.view) ?_
      m hd
    rw [hst]
    exact (em _).symm
  | ended i p c n result a monitored hl hi hpr hh hmon hv =>
    subst hl
    refine done_of_touches (hv ▸ View.Touches.endProc.trans (.handle _ _) :
      View.Touches s.dag.view n s'.dag.view) ?_ m hd
    by_cases hn : (s.dag.jobs n).status = .done
    · right
      have hno := hok.apply hi hh
      rw [hv,View.handle_status]
      exact procEndFate_done hn fun hor => hno ⟨hn,hor⟩
    · exact .inl hn
  | endedFinal i p c n f result a v hl ht hi hpr hh hpost hab hf hs hv hv' =>
    subst hl
    have hmid : View.Touches s.dag.view n v := hv ▸ View.Touches.endProc.trans (.handle _ _)
    have hlast : View.Touches v f s'.dag.view := hv' ▸ .startFinal
    -- the final node was not done, and the other keeps its status unless its proc failed
    by_cases hmn : m = n
    · subst hmn
      have hno := hok.apply hi hh
      have hd' : (s.dag.jobs m).status = .done := hd
      have hv_done : (v.node m).status = .done := by
        rw [hv,View.handle_status]
        dsimp only
        rw [Job.afterEnd_status,if_neg fun hf => hno ⟨hd',.inl hf⟩]
        exact hd'
      by_cases hmf : m = f
      · rw [hmf,hs] at hv_done
        simp at hv_done
      · rw [hlast.other m hmf]
        exact hv_done
    · have hv_done : (v.node m).status = .done := by
        rw [hmid.other m hmn]
        exact hd
      by_cases hmf : m = f
      · rw [hmf,hs] at hv_done
        simp at hv_done
      · rw [hlast.other m hmf]
        exact hv_done
  | submitted n key moreProcs hn hs hr hend hthr hh hv =>
    refine done_of_touches (hv ▸ .submitted key : View.Touches s.dag.view n s'.dag.view)
      (.inl ?_) m hd
    change (s.dag.jobs n).status ≠ .done
    rw [hs]
    simp
  | attempted n fate k hn hs hr hfate hlost hv =>
    refine done_of_touches (hv ▸ View.Touches.attempt.trans (.settle _ _) :
      View.Touches s.dag.view n s'.dag.view) (.inl ?_) m hd
    change (s.dag.jobs n).status ≠ .done
    rw [hs]
    simp
  | dropped n hn hs hr hdr hv =>
    rw [hv,View.attempt_status]
    exact hd

/-- Edges are added and taken away cleanly, and no event ends a node that is done. -/
def KeepsDependencies (s : System) (l : Label) : Prop := BuildsCleanly true s l ∧ KeepsDone s l
deriving Decidable

private theorem graph_step (hord : Orderly s) (h : Graph strict s) (hok : BuildsCleanly strict s l)
    (hdone : s.bootstrapped = true → KeepsDone s l) (hs : s.step o l = some s') :
    Graph strict s' := by
  cases hb : s.bootstrapped with
  | false =>
    obtain ⟨action,rfl,hm⟩ := step_builds hb (hord.building hb).1 hs
    exact graph_builds h hb (hord.building hb).1 hok hm
  | true =>
    have hm := step_moves hb hs
    exact graph_moves h hb hm (done_moves hm (hdone hb))

private theorem waiting_empty_of_startNode (h : Orderly s) {isRetry : Bool}
    {rest : List Call} (hs : s.calls = .startNode n isRetry :: rest) :
    (s.dag.jobs n).waiting.isEmpty = true := by
  refine (h.begun n (.inl ?_)).2
  rw [places,hs,placesIn_cons]
  simp [Call.places]

/-- A node of the running DAG waits for exactly those of its parents that are not done, and
`StartNode` is only reached when all of them are. -/
theorem waiting_iff_of_run {labels : List Label}
    (hok : Along (System.step o) KeepsDependencies {} labels)
    (hrun : run (System.step o) {} labels = some s) :
    (∀ p c, c ∈ (s.dag.jobs p).children ↔ p ∈ (s.dag.jobs c).parents) ∧
    (s.bootstrapped = true → s.calls = [] → ∀ p c, p ∈ (s.dag.jobs c).waiting ↔
      p ∈ (s.dag.jobs c).parents ∧ (s.dag.jobs p).status ≠ .done) ∧
    ∀ n isRetry rest, s.calls = .startNode n isRetry :: rest →
      ∀ p ∈ (s.dag.jobs n).parents, (s.dag.jobs p).status = .done := by
  have hstep (s : System) (l : Label) (s' : System) (h : Orderly s ∧ Graph true s)
      (hok : KeepsDependencies s l) (hs : s.step o l = some s') : Orderly s' ∧ Graph true s' :=
    ⟨orderly_step h.1 hs,graph_step h.1 h.2 hok.1 (fun _ => hok.2) hs⟩
  obtain ⟨hord,hg⟩ := run_invariant hstep hok ⟨orderly_init,graph_init true⟩ hrun
  have hex (c : JobID) : ¬s.Exempt true c := fun h => by simp [Exempt] at h
  refine ⟨fun p c => ⟨hg.parent p c,fun h => (hg.child p c h).resolve_right (hex c)⟩,
    fun hb hk p c => ⟨fun h => ?_,fun h => hg.blocked p c h.1 h.2⟩,
    fun n isRetry rest hs p hp => ?_⟩
  · obtain ⟨hpar,howes⟩ := (hg.owes p c h).resolve_left (hex c)
    refine ⟨hpar,(howes hb).resolve_right fun ho => ?_⟩
    simp [Owes,owed,hk] at ho
  · by_contra hnd
    have hempty := waiting_empty_of_startNode hord hs
    exact (OrderedSet.isEmpty_iff _).mp hempty p (hg.blocked p n hp hnd)

/-- A parent with one child: the child is started when the parent has ended. -/
theorem waiting_iff_of_run_chain :
    let labels : List Label := [.act (.addNode {}),.act (.addNode {}),.act (.addDependency 0 1),
      .act .bootstrap,.exec {},.exec {},.exec {},.exec {},.exec {},
      .act (.submitReadyJobs 0 false),.exec { submitted := some (.condor 1,0) },.exec {},.exec {},
      .act (.submitEvent 0 0),.act (.endEvent 0 0 (.terminated (.exited 0)) {}),.exec {}]
    ∃ s, run (System.step {}) {} labels = some s ∧
      s.calls = [.startNode 1 false,.processNotIdleEvent 0] ∧
      ∀ p ∈ (s.dag.jobs 1).parents, (s.dag.jobs p).status = .done := by
  intro labels
  obtain ⟨s,hrun,hs⟩ := run_exists (System.step {}) {} labels
    (fun s => s.calls == [.startNode 1 false,.processNotIdleEvent 0]) (by decide)
  have hs : s.calls = [.startNode 1 false,.processNotIdleEvent 0] := by simpa using hs
  have hok : Along (System.step {}) KeepsDependencies {} labels := by decide
  exact ⟨s,hrun,hs,(waiting_iff_of_run hok hrun).2.2 1 false _ hs⟩

/-- `RemoveDependency` leaves the parent among those the child waits for, and the child is never
started. -/
theorem removeDependency_keeps_waiting :
    let labels : List Label := [.act (.addNode {}),.act (.addNode {}),.act (.addDependency 0 1),
      .act (.removeDependency 0 1),.act .bootstrap,.exec {},.exec {},.exec {},.exec {},.exec {},
      .act (.submitReadyJobs 0 false),.exec { submitted := some (.condor 1,0) },.exec {},.exec {},
      .act (.submitEvent 0 0),.act (.endEvent 0 0 (.terminated (.exited 0)) {}),.exec {}]
    ∃ s, run (System.step {}) {} labels = some s ∧ s.bootstrapped = true ∧ s.calls = [] ∧
      0 ∈ (s.dag.jobs 1).waiting ∧ 0 ∉ (s.dag.jobs 1).parents ∧ (s.dag.jobs 0).status = .done := by
  intro labels
  obtain ⟨s,hrun,hs⟩ := run_exists (System.step {}) {} labels
    (fun s => decide (s.bootstrapped = true ∧ s.calls = [] ∧ 0 ∈ (s.dag.jobs 1).waiting ∧
      0 ∉ (s.dag.jobs 1).parents ∧ (s.dag.jobs 0).status = .done)) (by decide)
  exact ⟨s,hrun,of_decide_eq_true hs⟩

end System

end Condor.Dagman
