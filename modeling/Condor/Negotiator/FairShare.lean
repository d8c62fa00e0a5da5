import Condor.Negotiator.SurplusLoop

/-!
# Fair share conserves slots and respects the quotas

Every group is served from its own quota, and the surplus of a subtree is shared among the groups
that accept it; what is left goes up.
-/

namespace Condor.Negotiator

open Condor.Lib List

def allocatedSum (t : QuotaTree) : ℚ := (t.values.map GroupEntry.allocated).sum

def quotaSum (t : QuotaTree) : ℚ := (t.values.map GroupEntry.quota).sum

private theorem sum_flatMap_values (f : GroupEntry → ℚ) (cs : List QuotaTree) :
    ((cs.flatMap RoseTree.values).map f).sum = (cs.map fun c => (c.values.map f).sum).sum := by
  induction cs with
  | nil => rfl
  | cons c cs ih =>
    rw [flatMap_cons,map_append,sum_append,ih,map_cons,sum_cons]

private theorem allocatedSum_node (g : GroupEntry) (cs : List QuotaTree) :
    allocatedSum (.node g cs) = g.allocated + (cs.map allocatedSum).sum := by
  rw [allocatedSum,RoseTree.values_node,map_cons,sum_cons,sum_flatMap_values]
  rfl

private theorem quotaSum_node (g : GroupEntry) (cs : List QuotaTree) :
    quotaSum (.node g cs) = g.quota + (cs.map quotaSum).sum := by
  rw [quotaSum,RoseTree.values_node,map_cons,sum_cons,sum_flatMap_values]
  rfl

def acceptedRequests (cs : List QuotaTree) : ℚ :=
  (cs.map fun c => if c.value.acceptSurplus then c.value.subtreeRequested else 0).sum

def Consistent : QuotaTree → Prop
  | .node g cs => 0 ≤ g.requested ∧ 0 ≤ g.quota ∧ 0 ≤ g.subtreeQuota ∧
      g.subtreeRequested = g.requested + acceptedRequests cs

def Capped (t : QuotaTree) : Prop :=
  t.value.acceptSurplus = false → allocatedSum t ≤ t.value.subtreeQuota

structure GroupEntry.Granted (g g' : GroupEntry) : Prop where
  acceptSurplus : g'.acceptSurplus = g.acceptSurplus
  quota : g'.quota = g.quota
  subtreeQuota : g'.subtreeQuota = g.subtreeQuota
  sum : g'.allocated + g'.requested = g.allocated + g.requested
  more : g.allocated ≤ g'.allocated
  nonneg : 0 ≤ g'.requested

variable {t : QuotaTree}

private theorem subtreeRequested_nonneg (h : t.Everywhere Consistent) :
    0 ≤ t.value.subtreeRequested := by
  induction t using RoseTree.induct with
  | h g cs ih =>
    obtain ⟨hreq,-,-,hsub⟩ := h.root
    have hsum : 0 ≤ acceptedRequests cs := by
      apply sum_nonneg
      intro y hy
      obtain ⟨c,hc,rfl⟩ := List.mem_map.mp hy
      split
      · exact ih c hc (h.child c hc)
      · exact le_refl _
    rw [RoseTree.value_node,hsub]
    exact add_nonneg hreq hsum

private theorem claim_eq {accept : Bool} {requested : ℚ} (h : 0 ≤ requested) :
    claim accept requested = if accept then requested else 0 := by
  rw [claim]
  cases accept with
  | false => simp
  | true =>
    by_cases hpos : 0 < requested
    · simp [hpos]
    · have hzero : requested = 0 := le_antisymm (not_lt.mp hpos) h
      simp [hzero]

variable {g : GroupEntry}

private theorem sum_requested_shares {cs : List QuotaTree}
    (h : (RoseTree.node g cs).Everywhere Consistent) :
    g.subtreeRequested = ((shares g cs).map Share.requested).sum := by
  obtain ⟨hreq,-,-,hsub⟩ := h.root
  have hchildren : acceptedRequests cs =
      (cs.map fun c => claim c.value.acceptSurplus c.value.subtreeRequested).sum := by
    rw [acceptedRequests]
    congr 1
    apply map_congr_left
    intro c hc
    rw [claim_eq (subtreeRequested_nonneg (h.child c hc))]
  rw [hsub,hchildren,shares,map_append,sum_append,map_map]
  have hown : claim true g.requested = g.requested := by
    rw [claim_eq hreq,if_pos rfl]
  simp only [map_cons,map_nil,sum_cons,sum_nil,hown,Function.comp_def]
  ring

private theorem valid_shares {cs : List QuotaTree}
    (h : (RoseTree.node g cs).Everywhere Consistent) : ∀ s ∈ shares g cs, s.Valid := by
  intro s hs
  rw [shares,mem_append,mem_map,mem_singleton] at hs
  obtain ⟨c,hc,rfl⟩ | rfl := hs
  · have hsub := subtreeRequested_nonneg (h.child c hc)
    have hquota : 0 ≤ c.value.subtreeQuota := by
      cases c with
      | node g' cs' => exact (h.child _ hc).root.2.2.1
    refine ⟨hquota,?_⟩
    show 0 ≤ claim _ _
    rw [claim_eq hsub]
    split
    · exact hsub
    · exact le_refl _
  · obtain ⟨hreq,hquota,-,-⟩ := h.root
    refine ⟨hquota,?_⟩
    show 0 ≤ claim _ _
    rw [claim_eq hreq,if_pos rfl]
    exact hreq

structure Gives (t t' : QuotaTree) (given : ℚ) : Prop where
  consistent : t'.Everywhere Consistent
  granted : List.Forall₂ GroupEntry.Granted t.values t'.values
  requested : t'.value.subtreeRequested = t.value.subtreeRequested - given
  sum : allocatedSum t' = allocatedSum t + given
  capped : (∀ c ∈ t.children, c.Everywhere Capped) → ∀ c ∈ t'.children, c.Everywhere Capped

structure GivesAll (cs cs' : List QuotaTree) (given : ℚ) : Prop where
  consistent : ∀ c ∈ cs', c.Everywhere Consistent
  granted : List.Forall₂ (fun c c' => List.Forall₂ GroupEntry.Granted c.values c'.values) cs cs'
  requested : acceptedRequests cs' = acceptedRequests cs - given
  sum : (cs'.map allocatedSum).sum = (cs.map allocatedSum).sum + given
  capped : (∀ c ∈ cs, c.Everywhere Capped) → ∀ c ∈ cs', c.Everywhere Capped

private theorem requested_nonneg (h : t.Everywhere Consistent) :
    ∀ g ∈ t.values, 0 ≤ g.requested := by
  induction t using RoseTree.induct with
  | h g cs ih =>
    intro g' hg'
    rcases RoseTree.mem_values_node.mp hg' with rfl | ⟨c,hc,hg'⟩
    · exact h.root.1
    · exact ih c hc (h.child c hc) g' hg'

theorem Gives.refl (h : t.Everywhere Consistent) : Gives t t 0 where
  consistent := h
  granted := by
    rw [forall₂_same]
    exact fun g hg => ⟨rfl,rfl,rfl,rfl,le_refl _,requested_nonneg h g hg⟩
  requested := (sub_zero _).symm
  sum := (add_zero _).symm
  capped := id

theorem Gives.value {t t' : QuotaTree} {given : ℚ} (h : Gives t t' given) :
    t.value.Granted t'.value := by
  have hg := h.granted
  cases t with
  | node g cs =>
    cases t' with
    | node g' cs' =>
      rw [RoseTree.values_node,RoseTree.values_node,forall₂_cons] at hg
      exact hg.1

private theorem Gives.everywhere_capped {t t' : QuotaTree} {given : ℚ} (h : Gives t t' given)
    (haccept : t.value.acceptSurplus = true) (hc : t.Everywhere Capped) :
    t'.Everywhere Capped := by
  have hvalue := h.value.acceptSurplus
  have hcapped := h.capped
  cases t with
  | node g cs =>
    cases t' with
    | node g' cs' =>
      refine .node (fun hno => ?_) (hcapped hc.child)
      rw [hvalue,haccept] at hno
      cases hno

private theorem forall₂_snoc {α β : Type} {R : α → β → Prop} {xs : List α} {x : α} {zs : List β}
    (h : List.Forall₂ R (xs ++ [x]) zs) :
    ∃ ys y, zs = ys ++ [y] ∧ List.Forall₂ R xs ys ∧ R x y := by
  induction xs generalizing zs with
  | nil =>
    rw [nil_append,forall₂_cons_left_iff] at h
    obtain ⟨y,ys,hxy,hnil,rfl⟩ := h
    rw [forall₂_nil_left_iff] at hnil
    subst hnil
    exact ⟨[],y,rfl,.nil,hxy⟩
  | cons a xs ih =>
    rw [cons_append,forall₂_cons_left_iff] at h
    obtain ⟨b,bs,hab,hrest,rfl⟩ := h
    obtain ⟨ys,y,rfl,hys,hxy⟩ := ih hrest
    exact ⟨b :: ys,y,rfl,.cons hab hys,hxy⟩

def Fits (c : QuotaTree) (s : Share) : Prop :=
  0 ≤ s.allocated ∧ s.allocated ≤ claim c.value.acceptSurplus c.value.subtreeRequested

section Allocate

variable {fuel : Nat}

private theorem allocateChildren_spec {cs : List QuotaTree} {ss : List Share} (last : Share)
    (ih : ∀ c ∈ cs, ∀ a, 0 < a → ∃ c',
      allocateSurplus false fuel c a = some (c',a - min a c.value.subtreeRequested) ∧
        Gives c c' (min a c.value.subtreeRequested))
    (hcons : ∀ c ∈ cs, c.Everywhere Consistent) (hfits : List.Forall₂ Fits cs ss) :
    ∃ cs', allocateChildren false fuel cs (ss ++ [last]) = some (cs',last.allocated) ∧
      GivesAll cs cs' (ss.map Share.allocated).sum := by
  induction hfits with
  | nil =>
    refine ⟨[],rfl,by simp,.nil,?_,?_,by simp⟩
    · simp [acceptedRequests]
    · simp
  | @cons c s cs ss hcs _ ihcs =>
    obtain ⟨cs',hcs',hall⟩ := ihcs (fun c hc => ih c (mem_cons_of_mem _ hc))
      (fun c hc => hcons c (mem_cons_of_mem _ hc))
    have hc := hcons c mem_cons_self
    have hclaim := hcs.2
    rw [claim_eq (subtreeRequested_nonneg hc)] at hclaim
    -- the child takes the whole amount, and only if it accepts surplus
    obtain ⟨c',hc',hgives,hcap⟩ : ∃ c', (if 0 < s.allocated
        then (allocateSurplus false fuel c s.allocated).map Prod.fst else some c) = some c' ∧
        Gives c c' s.allocated ∧ (c.Everywhere Capped → c'.Everywhere Capped) := by
      by_cases hpos : 0 < s.allocated
      · have haccept : c.value.acceptSurplus = true := by
          by_contra hno
          rw [if_neg hno] at hclaim
          linarith
        rw [if_pos haccept] at hclaim
        obtain ⟨c',hc',hgives⟩ := ih c mem_cons_self s.allocated hpos
        rw [min_eq_left hclaim] at hgives
        refine ⟨c',?_,hgives,hgives.everywhere_capped haccept⟩
        rw [if_pos hpos,hc']
        rfl
      · have hzero : s.allocated = 0 := le_antisymm (not_lt.mp hpos) hcs.1
        rw [if_neg hpos,hzero]
        exact ⟨c,rfl,.refl hc,id⟩
    have haccepted : (if c'.value.acceptSurplus then c'.value.subtreeRequested else 0) =
        (if c.value.acceptSurplus then c.value.subtreeRequested else 0) - s.allocated := by
      rw [hgives.value.acceptSurplus,hgives.requested]
      split
      · rfl
      · next hno =>
        rw [if_neg hno] at hclaim
        have := hcs.1
        linarith
    refine ⟨c' :: cs',?_,?_,.cons hgives.granted hall.granted,?_,?_,?_⟩
    · rw [cons_append,allocateChildren,hc',Option.bind_some,hcs']
      rfl
    · intro x hx
      rcases List.mem_cons.mp hx with rfl | hx
      · exact hgives.consistent
      · exact hall.consistent x hx
    · have hrest := hall.requested
      simp only [acceptedRequests,map_cons,sum_cons] at hrest ⊢
      rw [haccepted,hrest]
      ring
    · simp only [map_cons,sum_cons]
      rw [hgives.sum,hall.sum]
      ring
    · intro hcapped x hx
      rcases List.mem_cons.mp hx with rfl | hx
      · exact hcap (hcapped c mem_cons_self)
      · exact hall.capped (fun c hc => hcapped c (mem_cons_of_mem _ hc)) x hx

theorem length_le_values (g : GroupEntry) (cs : List QuotaTree) :
    cs.length + 1 ≤ (RoseTree.node g cs).values.length := by
  rw [RoseTree.values_node,length_cons]
  have hlen : cs.length ≤ (cs.flatMap RoseTree.values).length := by
    induction cs with
    | nil => simp
    | cons c cs ih =>
      have hpos : 0 < c.values.length := length_pos_of_mem (RoseTree.value_mem_values c)
      rw [flatMap_cons,length_append,length_cons]
      omega
  omega

theorem values_length_child {cs : List QuotaTree} {c : QuotaTree} (hc : c ∈ cs) :
    c.values.length ≤ (RoseTree.node g cs).values.length := by
  rw [RoseTree.values_node,length_cons]
  have hsub : c.values.Sublist (cs.flatMap RoseTree.values) := by
    obtain ⟨pre,post,rfl⟩ := append_of_mem hc
    rw [flatMap_append,flatMap_cons]
    exact (sublist_append_left _ _).trans (sublist_append_right _ _)
  have := hsub.length_le
  omega

private theorem allocateSurplus_spec (h : t.Everywhere Consistent)
    (hfuel : t.values.length < fuel) {surplus : ℚ} (hs : 0 ≤ surplus) :
    ∃ t', allocateSurplus false fuel t surplus =
        some (t',surplus - min surplus t.value.subtreeRequested) ∧
      Gives t t' (min surplus t.value.subtreeRequested) := by
  induction t using RoseTree.induct generalizing surplus with
  | h g cs ih =>
    have hsub := subtreeRequested_nonneg h
    rw [RoseTree.value_node] at hsub ⊢
    rw [allocateSurplus]
    by_cases hzero : surplus ≤ 0
    · have heq : surplus = 0 := le_antisymm hzero hs
      rw [if_pos hzero,heq,min_eq_left hsub,sub_zero]
      exact ⟨_,rfl,.refl h⟩
    · rw [if_neg hzero,if_neg Bool.false_ne_true]
      by_cases hnone : g.subtreeRequested ≤ 0
      · have heq : g.subtreeRequested = 0 := le_antisymm hnone hsub
        rw [if_pos hnone,heq,min_eq_right hs,sub_zero]
        exact ⟨_,rfl,.refl h⟩
      · rw [if_neg hnone]
        have hlen := length_le_values g cs
        obtain ⟨d,hd,hprogress,hsum,hsurplus,hrequested⟩ := distribute_spec (not_le.mp hzero)
          (valid_shares h) (sum_requested_shares h) (lt_of_le_of_lt hlen hfuel)
        obtain ⟨ss,last,hds,hss,hlast⟩ := forall₂_snoc hprogress
        have hfits : List.Forall₂ Fits cs ss := by
          rw [forall₂_map_left_iff] at hss
          refine hss.imp fun c s hp => ?_
          have h1 := hp.more
          have h2 := hp.sum
          have h3 := hp.nonneg
          dsimp only at h1 h2
          exact ⟨h1,by linarith⟩
        obtain ⟨cs',hcs',hall⟩ := allocateChildren_spec last
          (fun c hc a ha => ih c hc (h.child c hc)
            (lt_of_le_of_lt (values_length_child hc) hfuel) ha.le) h.child hfits
        obtain ⟨hreq,hquota,hsubquota,hsubreq⟩ := h.root
        have hown := hlast.more
        have hownsum := hlast.sum
        have hownleft := hlast.nonneg
        dsimp only at hown hownsum
        rw [claim_eq hreq,if_pos rfl] at hownsum
        rw [hds,map_append,sum_append,map_singleton,sum_singleton] at hsum
        rw [hd,Option.bind_some,hds,hcs',Option.map_some,hsurplus]
        refine ⟨_,rfl,.node ⟨?_,hquota,hsubquota,?_⟩ hall.consistent,?_,?_,?_,?_⟩
        · show 0 ≤ g.requested - last.allocated
          linarith
        · show d.requested = g.requested - last.allocated + acceptedRequests cs'
          rw [hrequested,hall.requested,hsubreq]
          rw [hsubreq] at hsum
          linarith
        · refine RoseTree.forall₂_values_node ⟨rfl,rfl,rfl,?_,?_,?_⟩ hall.granted
          · show g.allocated + last.allocated + (g.requested - last.allocated) = _
            ring
          · show g.allocated ≤ g.allocated + last.allocated
            linarith
          · show 0 ≤ g.requested - last.allocated
            linarith
        · exact hrequested
        · rw [allocatedSum_node,allocatedSum_node,hall.sum,← hsum]
          show g.allocated + last.allocated + _ = _
          ring
        · exact hall.capped

end Allocate

/-- A group has quotas and a request that are not negative, and the quota of its subtree is the
sum of the quotas there. -/
def Provided (t : QuotaTree) : Prop :=
  0 ≤ t.value.quota ∧ 0 ≤ t.value.requested ∧ t.value.subtreeQuota = quotaSum t

structure GroupEntry.Served (g g' : GroupEntry) : Prop where
  acceptSurplus : g'.acceptSurplus = g.acceptSurplus
  quota : g'.quota = g.quota
  subtreeQuota : g'.subtreeQuota = g.subtreeQuota
  nonneg : 0 ≤ g'.allocated
  most : g'.allocated ≤ g.requested
  requested : g'.requested = g.requested - g'.allocated

private theorem GroupEntry.Served.grant {g g' g'' : GroupEntry} (h : g.Served g')
    (h' : g'.Granted g'') :
    g.Served g'' where
  acceptSurplus := h'.acceptSurplus.trans h.acceptSurplus
  quota := h'.quota.trans h.quota
  subtreeQuota := h'.subtreeQuota.trans h.subtreeQuota
  nonneg := h.nonneg.trans h'.more
  most := by
    have h1 := h'.sum
    have h2 := h'.nonneg
    have h3 := h.requested
    linarith
  requested := by
    have h1 := h'.sum
    have h3 := h.requested
    linarith

private theorem forall₂_serve_grant {xs ys zs : List GroupEntry}
    (h : List.Forall₂ GroupEntry.Served xs ys) (h' : List.Forall₂ GroupEntry.Granted ys zs) :
    List.Forall₂ GroupEntry.Served xs zs := by
  induction h generalizing zs with
  | nil =>
    cases h'
    exact .nil
  | cons hxy _ ih =>
    cases h' with
    | cons hyz hrest => exact .cons (hxy.grant hyz) (ih hrest)

private theorem quotaSum_nonneg (h : t.Everywhere Provided) : 0 ≤ quotaSum t := by
  induction t using RoseTree.induct with
  | h g cs ih =>
    rw [quotaSum_node]
    refine add_nonneg h.root.1 (sum_nonneg fun y hy => ?_)
    obtain ⟨c,hc,rfl⟩ := List.mem_map.mp hy
    exact ih c hc (h.child c hc)

structure Serves (t t' : QuotaTree) (surplus : ℚ) : Prop where
  consistent : t'.Everywhere Consistent
  served : List.Forall₂ GroupEntry.Served t.values t'.values
  left : 0 ≤ surplus
  sum : allocatedSum t' + surplus = quotaSum t
  capped : t'.Everywhere Capped
  met : 0 < surplus → t'.value.subtreeRequested = 0

structure ServesAll (cs cs' : List QuotaTree) (surplus : ℚ) : Prop where
  consistent : ∀ c ∈ cs', c.Everywhere Consistent
  served : List.Forall₂ (fun c c' => List.Forall₂ GroupEntry.Served c.values c'.values) cs cs'
  left : 0 ≤ surplus
  sum : (cs'.map allocatedSum).sum + surplus = (cs.map quotaSum).sum
  capped : ∀ c ∈ cs', c.Everywhere Capped

private theorem fairshareChildren_spec {fuel : Nat} {cs : List QuotaTree}
    (ih : ∀ c ∈ cs, ∃ c' s, fairshare false fuel c = some (c',s) ∧ Serves c c' s)
    (surplus requested : ℚ) :
    ∃ cs' s, fairshareChildren false fuel cs surplus requested =
        some (cs',surplus + s,requested + acceptedRequests cs') ∧ ServesAll cs cs' s := by
  induction cs generalizing surplus requested with
  | nil =>
    refine ⟨[],0,?_,by simp,.nil,le_refl _,by simp,by simp⟩
    rw [fairshareChildren,acceptedRequests]
    simp
  | cons c cs ihcs =>
    obtain ⟨c',s,hc',hserves⟩ := ih c mem_cons_self
    obtain ⟨cs',s',hcs',hall⟩ := ihcs (fun c hc => ih c (mem_cons_of_mem _ hc)) (surplus + s)
      (if c'.value.acceptSurplus then requested + c'.value.subtreeRequested else requested)
    have hrequested : (if c'.value.acceptSurplus then requested + c'.value.subtreeRequested
        else requested) + acceptedRequests cs' = requested + acceptedRequests (c' :: cs') := by
      simp only [acceptedRequests,map_cons,sum_cons]
      split <;> ring
    refine ⟨c' :: cs',s + s',?_,?_,.cons hserves.served hall.served,
      add_nonneg hserves.left hall.left,?_,?_⟩
    · rw [fairshareChildren,hc',Option.bind_some]
      dsimp only
      rw [hcs',hrequested,add_assoc]
      rfl
    · intro x hx
      rcases List.mem_cons.mp hx with rfl | hx
      · exact hserves.consistent
      · exact hall.consistent x hx
    · have h1 := hserves.sum
      have h2 := hall.sum
      simp only [map_cons,sum_cons]
      linarith
    · intro x hx
      rcases List.mem_cons.mp hx with rfl | hx
      · exact hserves.capped
      · exact hall.capped x hx

private theorem forall₂_values_length {R : GroupEntry → GroupEntry → Prop} {cs cs' : List QuotaTree}
    (h : List.Forall₂ (fun c c' => List.Forall₂ R c.values c'.values) cs cs') (g g' : GroupEntry) :
    (RoseTree.node g' cs').values.length = (RoseTree.node g cs).values.length := by
  rw [RoseTree.values_node,RoseTree.values_node,length_cons,length_cons]
  induction h with
  | nil => rfl
  | cons hcc _ ih =>
    rw [flatMap_cons,flatMap_cons,length_append,length_append,
      hcc.length_eq]
    omega

private theorem fairshare_spec {fuel : Nat} (h : t.Everywhere Provided)
    (hfuel : t.values.length < fuel) :
    ∃ t' s, fairshare false fuel t = some (t',s) ∧ Serves t t' s := by
  induction t using RoseTree.induct with
  | h g cs ih =>
    obtain ⟨hquota,hreq,hsub⟩ := h.root
    rw [RoseTree.value_node] at hquota hreq hsub
    have hsub0 : 0 ≤ g.subtreeQuota := by
      rw [hsub]
      exact quotaSum_nonneg h
    have hmin : 0 ≤ min g.requested g.quota := le_min hreq hquota
    have hminr : min g.requested g.quota ≤ g.requested := min_le_left _ _
    have hminq : min g.requested g.quota ≤ g.quota := min_le_right _ _
    have hown : ∀ r, g.Served { g with
        allocated := min g.requested g.quota
        requested := g.requested - min g.requested g.quota
        subtreeRequested := r } :=
      fun r => ⟨rfl,rfl,rfl,hmin,hminr,rfl⟩
    rw [quotaSum_node] at hsub
    cases cs with
    | nil =>
      rw [fairshare]
      refine ⟨_,_,rfl,.node ⟨?_,hquota,hsub0,?_⟩ (by simp),RoseTree.forall₂_values_node
        (hown _) .nil,
        ?_,?_,.node (fun _ => ?_) (by simp),fun hs => ?_⟩
      · show 0 ≤ g.requested - _
        linarith
      · show g.requested - _ = g.requested - _ + acceptedRequests []
        rw [acceptedRequests,map_nil,sum_nil,add_zero]
      · linarith
      · rw [allocatedSum_node,quotaSum_node]
        show min g.requested g.quota + _ + (g.quota - min g.requested g.quota) = _
        simp
      · rw [allocatedSum_node]
        show min g.requested g.quota + _ ≤ g.subtreeQuota
        rw [hsub]
        simp
      · show g.requested - min g.requested g.quota = 0
        rcases le_total g.requested g.quota with hle | hle
        · rw [min_eq_left hle,sub_self]
        · rw [min_eq_right hle] at hs
          linarith
    | cons c cs =>
      obtain ⟨cs',s,hcs',hall⟩ := fairshareChildren_spec
        (fun x hx => ih x hx (h.child x hx) (lt_of_le_of_lt (values_length_child hx) hfuel))
        (g.quota - min g.requested g.quota) (g.requested - min g.requested g.quota)
      have hcons : (RoseTree.node { g with
          allocated := min g.requested g.quota
          requested := g.requested - min g.requested g.quota
          subtreeRequested := g.requested - min g.requested g.quota + acceptedRequests cs' }
          cs').Everywhere Consistent :=
        .node ⟨by dsimp only; linarith,hquota,hsub0,rfl⟩ hall.consistent
      have hlen := forall₂_values_length hall.served g { g with
          allocated := min g.requested g.quota
          requested := g.requested - min g.requested g.quota
          subtreeRequested := g.requested - min g.requested g.quota + acceptedRequests cs' }
      have hs := hall.left
      obtain ⟨t',ht',hgives⟩ := allocateSurplus_spec hcons (lt_of_eq_of_lt hlen hfuel)
        (show 0 ≤ g.quota - min g.requested g.quota + s by linarith)
      have hleft : 0 ≤ g.quota - min g.requested g.quota + s - min (g.quota -
          min g.requested g.quota + s) (g.requested - min g.requested g.quota +
          acceptedRequests cs') := by
        have := min_le_left (g.quota - min g.requested g.quota + s)
          (g.requested - min g.requested g.quota + acceptedRequests cs')
        linarith
      have hsum : allocatedSum t' + (g.quota - min g.requested g.quota + s - min (g.quota -
          min g.requested g.quota + s) (g.requested - min g.requested g.quota +
          acceptedRequests cs')) = quotaSum (.node g (c :: cs)) := by
        have h1 := hgives.sum
        have h2 := hall.sum
        rw [allocatedSum_node,RoseTree.value_node] at h1
        dsimp only at h1
        rw [quotaSum_node]
        linarith
      have hvalue := hgives.value
      refine ⟨t',_,?_,hgives.consistent,?_,hleft,hsum,?_,fun hpos => ?_⟩
      · rw [fairshare,hcs',Option.bind_some,ht']
        rfl
      · exact forall₂_serve_grant (RoseTree.forall₂_values_node (hown _) hall.served) hgives.granted
      · have hbelow := hgives.capped hall.capped
        cases t' with
        | node g' ds =>
          refine .node (fun _ => ?_) hbelow
          have hsame : g'.subtreeQuota = g.subtreeQuota := hvalue.subtreeQuota
          rw [RoseTree.value_node,hsame]
          rw [hsub,← quotaSum_node]
          linarith
      · rw [hgives.requested]
        show g.requested - min g.requested g.quota + acceptedRequests cs' - min _
          (g.requested - min g.requested g.quota + acceptedRequests cs') = 0
        rcases le_total (g.quota - min g.requested g.quota + s)
          (g.requested - min g.requested g.quota + acceptedRequests cs') with hle | hle
        · rw [min_eq_left hle] at hpos
          linarith
        · rw [min_eq_right hle,sub_self]

def Fresh (g : GroupEntry) : Prop :=
  0 ≤ g.configQuota ∧ g.quota = 0 ∧ 0 ≤ g.requested ∧ g.subtreeQuota = 0

structure GroupEntry.Assigned (g g' : GroupEntry) : Prop where
  acceptSurplus : g'.acceptSurplus = g.acceptSurplus
  requested : g'.requested = g.requested

private theorem quotaSum_fresh (h : ∀ g ∈ t.values, Fresh g) : quotaSum t = 0 := by
  apply sum_eq_zero
  intro y hy
  obtain ⟨g,hg,rfl⟩ := List.mem_map.mp hy
  exact (h g hg).2.1

private theorem provided_fresh (h : ∀ g ∈ t.values, Fresh g) : t.Everywhere Provided := by
  induction t using RoseTree.induct with
  | h g cs ih =>
    obtain ⟨-,hq,hr,hs⟩ := h g (RoseTree.value_mem_values _)
    refine .node ⟨hq.ge,hr,?_⟩ fun c hc => ih c hc fun g' hg' => ?_
    · rw [quotaSum_fresh h]
      exact hs
    · exact h g' (RoseTree.mem_values_node.mpr (.inr ⟨c,hc,hg'⟩))

variable {rate rate' : ℚ}

private theorem childQuota_eq (hg : 0 ≤ g.configQuota) (h : 0 ≤ rate)
    (h' : 0 ≤ rate') : childQuota rate rate' g =
      if g.staticQuota then g.configQuota * rate else g.configQuota * rate' := by
  rw [childQuota]
  split
  · exact if_neg (not_lt.mpr (mul_nonneg hg h))
  · exact if_neg (not_lt.mpr (mul_nonneg hg h'))

private theorem sum_childQuota (h : 0 ≤ rate) (h' : 0 ≤ rate') {cs : List QuotaTree}
    (hcs : ∀ c ∈ cs, 0 ≤ c.value.configQuota) :
    (cs.map fun c => childQuota rate rate' c.value).sum =
      staticSum cs * rate + dynamicSum cs * rate' := by
  induction cs with
  | nil => simp [staticSum,dynamicSum]
  | cons c cs ih =>
    have hrest := ih fun c hc => hcs c (mem_cons_of_mem _ hc)
    simp only [staticSum,dynamicSum,map_cons,sum_cons] at hrest ⊢
    rw [hrest,childQuota_eq (hcs c mem_cons_self) h h']
    split <;> ring

section Assign

variable {cs : List QuotaTree} (hcs : ∀ c ∈ cs, 0 ≤ c.value.configQuota)

include hcs

private theorem staticSum_nonneg : 0 ≤ staticSum cs := by
  apply sum_nonneg
  intro y hy
  obtain ⟨c,hc,rfl⟩ := List.mem_map.mp hy
  split
  · exact hcs c hc
  · exact le_refl _

private theorem staticRate_nonneg {quota : ℚ} (hq : 0 ≤ quota) : 0 ≤ staticRate quota cs := by
  rw [staticRate]
  refine div_nonneg (le_min (staticSum_nonneg hcs) hq) ?_
  split
  · exact staticSum_nonneg hcs
  · exact zero_le_one

omit hcs in
theorem dynamicRate_nonneg {quota : ℚ} : 0 ≤ dynamicRate quota cs := by
  rw [dynamicRate]
  refine div_nonneg (sub_nonneg.mpr (min_le_right _ _)) (zero_le_one.trans (le_max_right _ _))

private theorem sum_childQuota_le {quota : ℚ} (hq : 0 ≤ quota) :
    (cs.map fun c => childQuota (staticRate quota cs) (dynamicRate quota cs) c.value).sum ≤
      quota := by
  have hstatic : staticSum cs * staticRate quota cs = min (staticSum cs) quota := by
    rw [staticRate]
    split
    · next hpos => rw [mul_div_cancel₀ _ hpos.ne']
    · next hno =>
      have hzero : staticSum cs = 0 := le_antisymm (not_lt.mp hno) (staticSum_nonneg hcs)
      rw [hzero,zero_mul,min_eq_left hq]
  have hdynamic : dynamicSum cs * dynamicRate quota cs ≤ quota - min (staticSum cs) quota := by
    have hmax : (0 : ℚ) < max (dynamicSum cs) 1 := lt_of_lt_of_le zero_lt_one (le_max_right _ _)
    have hrest : 0 ≤ quota - min (staticSum cs) quota := sub_nonneg.mpr (min_le_right _ _)
    rw [dynamicRate,mul_div_assoc',div_le_iff₀ hmax,mul_comm]
    exact mul_le_mul_of_nonneg_left (le_max_left _ _) hrest
  rw [sum_childQuota (staticRate_nonneg hcs hq) dynamicRate_nonneg hcs]
  linarith

end Assign

structure Assigns (t t' : QuotaTree) (quota : ℚ) : Prop where
  provided : t'.Everywhere Provided
  sum : quotaSum t' = quota
  assigned : List.Forall₂ GroupEntry.Assigned t.values t'.values

private theorem assigned_refl (gs : List GroupEntry) : List.Forall₂ GroupEntry.Assigned gs gs := by
  rw [forall₂_same]
  exact fun _ _ => ⟨rfl,rfl⟩

private theorem assignChildren_spec {cs : List QuotaTree}
    (ih : ∀ c ∈ cs, Assigns c (assignQuotas c (childQuota rate rate' c.value))
      (childQuota rate rate' c.value)) :
    (∀ c ∈ (assignChildren rate rate' cs).1, c.Everywhere Provided) ∧
      ((assignChildren rate rate' cs).1.map quotaSum).sum = (assignChildren rate rate' cs).2 ∧
      (assignChildren rate rate' cs).2 =
        (cs.map fun c => childQuota rate rate' c.value).sum ∧
      List.Forall₂ (fun c c' => List.Forall₂ GroupEntry.Assigned c.values c'.values) cs
        (assignChildren rate rate' cs).1 := by
  induction cs with
  | nil => exact ⟨by simp [assignChildren],rfl,rfl,.nil⟩
  | cons c cs ihcs =>
    obtain ⟨h1,h2,h3,h4⟩ := ihcs fun c hc => ih c (mem_cons_of_mem _ hc)
    have hc := ih c mem_cons_self
    rw [assignChildren]
    dsimp only
    refine ⟨fun x hx => ?_,?_,?_,.cons hc.assigned h4⟩
    · rcases List.mem_cons.mp hx with rfl | hx
      · exact hc.provided
      · exact h1 x hx
    · rw [map_cons,sum_cons,h2,hc.sum]
    · rw [map_cons,sum_cons,h3]

private theorem childQuota_nonneg (rate rate' : ℚ)
    (g : GroupEntry) : 0 ≤ childQuota rate rate' g := by
  rw [childQuota]
  generalize (if g.staticQuota = true then g.configQuota * rate else g.configQuota * rate') = q
  split
  · exact le_refl _
  · next h => exact not_lt.mp h

private theorem assignQuotas_spec (h : ∀ g ∈ t.values, Fresh g) {quota : ℚ}
    (hq : 0 ≤ quota) : Assigns t (assignQuotas t quota) quota := by
  induction t using RoseTree.induct generalizing quota with
  | h g cs ih =>
    rw [assignQuotas]
    split
    · next hle =>
      obtain rfl : quota = 0 := le_antisymm hle hq
      exact ⟨provided_fresh h,quotaSum_fresh h,assigned_refl _⟩
    · have hchild : ∀ c ∈ cs, ∀ g ∈ c.values, Fresh g := fun c hc g' hg' =>
        h g' (RoseTree.mem_values_node.mpr (.inr ⟨c,hc,hg'⟩))
      have hchildren : ∀ c ∈ cs, Assigns c (assignQuotas c (childQuota (staticRate quota cs)
          (dynamicRate quota cs) c.value)) (childQuota (staticRate quota cs)
          (dynamicRate quota cs) c.value) :=
        fun c hc => ih c hc (hchild c hc) (childQuota_nonneg _ _ _)
      obtain ⟨h1,h2,h3,h4⟩ := assignChildren_spec hchildren
      have hle := sum_childQuota_le
        (fun c hc => (hchild c hc _ (RoseTree.value_mem_values c)).1) hq
      rw [← h3] at hle
      have hrest : ¬ quota - (assignChildren (staticRate quota cs) (dynamicRate quota cs) cs).2
        < 0 :=
        by linarith
      obtain ⟨-,-,hr,-⟩ := h g (RoseTree.value_mem_values _)
      simp only [hrest,if_false]
      have hsum : quotaSum (.node { g with
          subtreeQuota := quota
          quota := quota - (assignChildren (staticRate quota cs) (dynamicRate quota cs) cs).2 }
          (assignChildren (staticRate quota cs) (dynamicRate quota cs) cs).1) = quota := by
        rw [quotaSum_node,h2]
        ring
      refine ⟨.node ⟨not_lt.mp hrest,hr,hsum.symm⟩ h1,hsum,?_⟩
      exact RoseTree.forall₂_values_node ⟨rfl,rfl⟩ h4

inductive Reaches : QuotaTree → GroupEntry → Prop
  | root (g : GroupEntry) (cs : List QuotaTree) : Reaches (.node g cs) g
  | child {g g' : GroupEntry} {cs : List QuotaTree} {c : QuotaTree} (hc : c ∈ cs)
    (haccept : c.value.acceptSurplus = true) (h : Reaches c g') : Reaches (.node g cs) g'

private theorem requested_of_reaches (hg : Reaches t g)
    (h : t.Everywhere Consistent) (hzero : t.value.subtreeRequested = 0) : g.requested = 0 := by
  induction hg with
  | root g cs =>
    obtain ⟨hreq,-,-,hsub⟩ := h.root
    rw [RoseTree.value_node,hsub] at hzero
    have hsum : 0 ≤ acceptedRequests cs := by
      apply sum_nonneg
      intro y hy
      obtain ⟨c,hc,rfl⟩ := List.mem_map.mp hy
      split
      · exact subtreeRequested_nonneg (h.child c hc)
      · exact le_refl _
    linarith
  | @child g g' cs c hc haccept _ ih =>
    apply ih (h.child c hc)
    obtain ⟨hreq,-,-,hsub⟩ := h.root
    rw [RoseTree.value_node,hsub] at hzero
    have hle : c.value.subtreeRequested ≤ acceptedRequests cs := by
      refine single_le_sum (fun y hy => ?_) _
        (List.mem_map.mpr ⟨c,hc,by rw [if_pos haccept]⟩)
      obtain ⟨x,hx,rfl⟩ := List.mem_map.mp hy
      split
      · exact subtreeRequested_nonneg (h.child x hx)
      · exact le_refl _
    have := subtreeRequested_nonneg (h.child c hc)
    linarith

private theorem quota_nonneg (h : t.Everywhere Provided) : ∀ g ∈ t.values, 0 ≤ g.quota := by
  induction t using RoseTree.induct with
  | h g cs ih =>
    intro g' hg'
    rcases RoseTree.mem_values_node.mp hg' with rfl | ⟨c,hc,hg'⟩
    · exact h.root.1
    · exact ih c hc (h.child c hc) g' hg'

structure FairlyShared (demand : RoseTree GroupDemand) (total : ℚ) (assigned t : QuotaTree)
    (surplus : ℚ) : Prop where
  left : 0 ≤ surplus
  conserved : allocatedSum t + surplus = total
  bounded : List.Forall₂ (fun (d : GroupDemand) (g : GroupEntry) => 0 ≤ g.allocated ∧
    g.allocated ≤ d.requested ∧ g.requested = d.requested - g.allocated) demand.values t.values
  quotas : List.Forall₂ (fun g g' : GroupEntry => g'.acceptSurplus = g.acceptSurplus ∧
    g'.quota = g.quota ∧ g'.subtreeQuota = g.subtreeQuota) assigned.values t.values
  capped : t.Everywhere fun u => u.value.acceptSurplus = false →
    allocatedSum u ≤ u.value.subtreeQuota
  met : 0 < surplus → ∀ g, Reaches t g → g.requested = 0

private theorem bounded_of_served {ds : List GroupDemand} {gs gs' : List GroupEntry}
    (h : List.Forall₂ GroupEntry.Assigned (ds.map GroupDemand.load) gs)
    (h' : List.Forall₂ GroupEntry.Served gs gs') :
    List.Forall₂ (fun (d : GroupDemand) (g : GroupEntry) => 0 ≤ g.allocated ∧
      g.allocated ≤ d.requested ∧ g.requested = d.requested - g.allocated) ds gs' := by
  induction ds generalizing gs gs' with
  | nil =>
    cases h
    cases h'
    exact .nil
  | cons d ds ih =>
    rw [map_cons,forall₂_cons_left_iff] at h
    obtain ⟨g,gs,hg,hgs,rfl⟩ := h
    rw [forall₂_cons_left_iff] at h'
    obtain ⟨g',gs',hg',hgs',rfl⟩ := h'
    have hreq : g.requested = d.requested := hg.requested
    have hmost := hg'.most
    have hleft := hg'.requested
    rw [hreq] at hmost hleft
    exact .cons ⟨hg'.nonneg,hmost,hleft⟩ (ih hgs hgs')

/-- hgq_assign_quotas and hgq_fairshare on any tree of groups, any requests and any number of
slots. -/
theorem fairlyShared_of_demand (demand : RoseTree GroupDemand) {total : ℚ} (htotal : 0 ≤ total)
    {fuel : Nat} (hfuel : demand.values.length < fuel) :
    let assigned := assignQuotas (demand.map GroupDemand.load) total
    (∀ g ∈ assigned.values, 0 ≤ g.quota) ∧ quotaSum assigned = total ∧
      (assigned.Everywhere fun u => u.value.subtreeQuota = quotaSum u) ∧
      ∃ t surplus, fairshare false fuel assigned = some (t,surplus) ∧
        FairlyShared demand total assigned t surplus := by
  have hfresh : ∀ g ∈ (demand.map GroupDemand.load).values, Fresh g := by
    intro g hg
    rw [RoseTree.values_map] at hg
    obtain ⟨d,-,rfl⟩ := List.mem_map.mp hg
    exact ⟨d.configQuota.2,rfl,d.requested.2,rfl⟩
  have hassign := assignQuotas_spec hfresh htotal
  have hassigned := hassign.assigned
  rw [RoseTree.values_map] at hassigned
  have hlen := hassigned.length_eq
  rw [length_map] at hlen
  obtain ⟨t,surplus,ht,hserves⟩ := fairshare_spec hassign.provided (lt_of_eq_of_lt hlen.symm hfuel)
  refine ⟨quota_nonneg hassign.provided,hassign.sum,hassign.provided.imp fun _ hu => hu.2.2,
    t,surplus,ht,hserves.left,?_,bounded_of_served hassigned hserves.served,?_,hserves.capped,
    fun hpos g hg => requested_of_reaches hg hserves.consistent (hserves.met hpos)⟩
  · rw [hserves.sum,hassign.sum]
  · exact hserves.served.imp fun g g' hs => ⟨hs.acceptSurplus,hs.quota,hs.subtreeQuota⟩

def physicsAndChemistry : RoseTree GroupDemand :=
  .node ⟨0,false,true,1⟩ [.node ⟨4,true,false,9⟩ [],.node ⟨1 / 2,false,true,7⟩ []]

theorem fairlyShared_of_demand_two :
    (0 : ℚ) ≤ 10 ∧ physicsAndChemistry.values.length < 4 ∧
      ∃ t surplus, fairshare false 4
        (assignQuotas (physicsAndChemistry.map GroupDemand.load) 10) = some (t,surplus) ∧
          FairlyShared physicsAndChemistry 10
            (assignQuotas (physicsAndChemistry.map GroupDemand.load) 10) t surplus := by
  have htotal : (0 : ℚ) ≤ 10 := by decide
  have hfuel : physicsAndChemistry.values.length < 4 := by decide
  exact ⟨htotal,hfuel,(fairlyShared_of_demand physicsAndChemistry htotal hfuel).2.2.2⟩

end Condor.Negotiator
