import Mathlib.Tactic.Ring
import Mathlib.Tactic.Linarith
import Mathlib.Tactic.FieldSimp
import Mathlib.Tactic.Positivity
import Condor.Negotiator.GroupQuotas

/-!
# The surplus loop ends and gives away what it can

Each round gives away the whole surplus or meets the request of one group more, so the number of
groups that request something bounds the rounds.
-/

namespace Condor.Negotiator

open Condor.Lib List

def Share.Valid (s : Share) : Prop := 0 ≤ s.weight ∧ 0 ≤ s.requested

structure Share.Progress (s s' : Share) : Prop where
  weight : s'.weight = s.weight
  sum : s'.allocated + s'.requested = s.allocated + s.requested
  more : s.allocated ≤ s'.allocated
  nonneg : 0 ≤ s'.requested

theorem Share.Progress.trans {s s' s'' : Share} (h : s.Progress s') (h' : s'.Progress s'') :
    s.Progress s'' where
  weight := h'.weight.trans h.weight
  sum := h'.sum.trans h.sum
  more := h.more.trans h'.more
  nonneg := h'.nonneg

theorem Share.Progress.refl {s : Share} (h : s.Valid) : s.Progress s := ⟨rfl,rfl,le_refl _,h.2⟩

section Round

variable {byQuota : Bool} {surplus z : ℚ} {s : Share}

private theorem Share.factor_nonneg (h : s.Valid) : 0 ≤ s.factor byQuota := by
  rw [Share.factor]
  split
  · exact h.1
  · exact zero_le_one

private theorem Share.due_nonneg (h : s.Valid) (hs : 0 ≤ surplus) (hz : 0 < z) :
    0 ≤ s.due byQuota surplus z := by
  rw [Share.due]
  exact mul_nonneg hs (div_nonneg (Share.factor_nonneg h) hz.le)

private theorem Share.portion_bounds (h : s.Valid) (hs : 0 ≤ surplus) (hz : 0 < z) :
    0 ≤ s.portion byQuota surplus z ∧ s.portion byQuota surplus z ≤ s.requested := by
  have hdue : 0 ≤ s.due byQuota surplus z := Share.due_nonneg h hs hz
  rw [Share.portion]
  split
  · split
    · exact ⟨h.2,le_refl _⟩
    · next hle => exact ⟨hdue,not_lt.mp hle⟩
  · exact ⟨le_refl _,h.2⟩

private theorem Share.progress_give (h : s.Valid) (hs : 0 ≤ surplus) (hz : 0 < z) :
    s.Progress (s.give byQuota surplus z) := by
  obtain ⟨h0,h1⟩ : 0 ≤ s.portion byQuota surplus z ∧ s.portion byQuota surplus z ≤ s.requested :=
    Share.portion_bounds h hs hz
  refine ⟨rfl,?_,?_,?_⟩
  · show s.allocated + _ + (s.requested - _) = _
    ring
  · show s.allocated ≤ s.allocated + _
    linarith
  · show 0 ≤ s.requested - _
    linarith

private theorem sum_due (byQuota : Bool) (surplus z : ℚ) (shares : List Share) :
    (shares.map fun s => if 0 < s.requested then s.due byQuota surplus z else 0).sum =
      surplus * (normalizer byQuota shares / z) := by
  induction shares with
  | nil => simp [normalizer]
  | cons s shares ih =>
    rw [map_cons,sum_cons,ih,normalizer,normalizer,map_cons,sum_cons,Share.due]
    split <;> ring

private theorem portion_le (byQuota : Bool) (surplus z : ℚ) (s : Share) :
    s.portion byQuota surplus z ≤ if 0 < s.requested then s.due byQuota surplus z else 0 := by
  rw [Share.portion]
  split
  · split
    · next hlt => exact hlt.le
    · exact le_refl _
  · exact le_refl _

private theorem portion_eq {shares : List Share} (h : neverGt byQuota surplus z shares = true) :
    ∀ s ∈ shares, s.portion byQuota surplus z =
      if 0 < s.requested then s.due byQuota surplus z else 0 := by
  intro s hs
  have hgt := of_decide_eq_true (List.all_eq_true.mp h s hs)
  rw [Share.portion]
  split
  · next hpos => rw [if_neg (hgt hpos)]
  · rfl

variable {shares : List Share} (hz : 0 < normalizer byQuota shares)

include hz

private theorem sum_portion_le : (shares.map
    (Share.portion byQuota surplus (normalizer byQuota shares))).sum ≤ surplus := by
  calc (shares.map (Share.portion byQuota surplus (normalizer byQuota shares))).sum
      ≤ (shares.map fun s => if 0 < s.requested
          then s.due byQuota surplus (normalizer byQuota shares) else 0).sum :=
        sum_le_sum fun s _ => portion_le byQuota surplus _ s
    _ = surplus := by rw [sum_due,div_self hz.ne',mul_one]

private theorem sum_portion_eq
    (h : neverGt byQuota surplus (normalizer byQuota shares) shares = true) : (shares.map
      (Share.portion byQuota surplus (normalizer byQuota shares))).sum = surplus := by
  rw [map_congr_left (portion_eq h),sum_due,div_self hz.ne',mul_one]

end Round

def outstanding (shares : List Share) : Nat := shares.countP fun s => 0 < s.requested

private theorem countP_lt {α : Type} {p q : α → Bool} {xs : List α} (hqp : ∀ x ∈ xs, q x → p x)
    {x : α} (hx : x ∈ xs) (hp : p x = true) (hq : q x = false) :
    xs.countP q < xs.countP p := by
  obtain ⟨pre,post,rfl⟩ := append_of_mem hx
  rw [countP_append,countP_append,countP_cons,countP_cons,if_pos hp,
    if_neg (by simp [hq])]
  have h1 : pre.countP q ≤ pre.countP p := countP_mono_left fun y hy => hqp y (by simp [hy])
  have h2 : post.countP q ≤ post.countP p := countP_mono_left fun y hy => hqp y (by simp [hy])
  omega

structure Distribution.Leads (d d' : Distribution) : Prop where
  progress : List.Forall₂ Share.Progress d.shares d'.shares
  surplus : 0 ≤ d'.surplus
  paid : (d'.shares.map Share.allocated).sum - (d.shares.map Share.allocated).sum =
    d.surplus - d'.surplus
  requested : d'.requested = d.requested - (d.surplus - d'.surplus)

def Distribution.Valid (d : Distribution) : Prop := 0 ≤ d.surplus ∧ ∀ s ∈ d.shares, s.Valid

private theorem forall₂_refl {shares : List Share} (h : ∀ s ∈ shares, s.Valid) :
    List.Forall₂ Share.Progress shares shares := by
  induction shares with
  | nil => exact .nil
  | cons s shares ih =>
    exact .cons (.refl (h s mem_cons_self)) (ih fun s hs => h s (mem_cons_of_mem _ hs))

private theorem forall₂_trans {xs ys zs : List Share} (h : List.Forall₂ Share.Progress xs ys)
    (h' : List.Forall₂ Share.Progress ys zs) : List.Forall₂ Share.Progress xs zs := by
  induction h generalizing zs with
  | nil =>
    cases h'
    exact .nil
  | cons hxy _ ih =>
    cases h' with
    | cons hyz hrest => exact .cons (hxy.trans hyz) (ih hrest)

private theorem valid_of_progress {xs ys : List Share} (h : List.Forall₂ Share.Progress xs ys)
    (hx : ∀ s ∈ xs, s.Valid) : ∀ s ∈ ys, s.Valid := by
  induction h with
  | nil => exact hx
  | cons hxy _ ih =>
    intro s hs
    rcases List.mem_cons.mp hs with rfl | hs
    · refine ⟨?_,hxy.nonneg⟩
      rw [hxy.weight]
      exact (hx _ mem_cons_self).1
    · exact ih (fun s hs => hx s (mem_cons_of_mem _ hs)) s hs

theorem Distribution.Leads.refl {d : Distribution} (h : d.Valid) : d.Leads d where
  progress := forall₂_refl h.2
  surplus := h.1
  paid := by ring
  requested := by ring

theorem Distribution.Leads.trans {d d' d'' : Distribution} (h : d.Leads d') (h' : d'.Leads d'') :
    d.Leads d'' where
  progress := forall₂_trans h.progress h'.progress
  surplus := h'.surplus
  paid := by
    have h1 := h.paid
    have h2 := h'.paid
    linarith
  requested := by
    rw [h'.requested,h.requested]
    ring

theorem Distribution.Leads.valid {d d' : Distribution} (h : d.Leads d') (hd : d.Valid) :
    d'.Valid := by
  exact ⟨h.surplus,valid_of_progress h.progress hd.2⟩

section Loop

variable {byQuota : Bool} {d : Distribution}

private theorem leads_round (h : d.Valid) (hz : 0 < normalizer byQuota d.shares) :
    d.Leads (distributeRound byQuota (normalizer byQuota d.shares) d) := by
  have hle : (d.shares.map (Share.portion byQuota d.surplus
      (normalizer byQuota d.shares))).sum ≤ d.surplus := sum_portion_le hz
  -- nothing is lost when the surplus is set to zero
  have hsurplus : (distributeRound byQuota (normalizer byQuota d.shares) d).surplus =
      d.surplus - (d.shares.map (Share.portion byQuota d.surplus
        (normalizer byQuota d.shares))).sum := by
    show (if _ then _ else _) = _
    split
    · next hzero =>
      rcases hzero with hnever | hneg
      · rw [sum_portion_eq hz hnever,sub_self]
      · linarith
    · rfl
  have halloc : ((d.shares.map (Share.give byQuota d.surplus (normalizer byQuota d.shares))).map
      Share.allocated).sum = (d.shares.map Share.allocated).sum +
        (d.shares.map (Share.portion byQuota d.surplus (normalizer byQuota d.shares))).sum := by
    rw [map_map,← sum_map_add]
    rfl
  refine ⟨?_,?_,?_,?_⟩
  · show List.Forall₂ _ d.shares (d.shares.map _)
    rw [forall₂_map_right_iff,forall₂_same]
    exact fun s hs => Share.progress_give (h.2 s hs) h.1 hz
  · rw [hsurplus]
    linarith
  · rw [hsurplus]
    show ((d.shares.map (Share.give byQuota d.surplus (normalizer byQuota d.shares))).map
      Share.allocated).sum - _ = _
    rw [halloc]
    ring
  · rw [hsurplus]
    show d.requested - _ = _
    ring

private theorem outstanding_round (h : d.Valid) (hz : 0 < normalizer byQuota d.shares)
    (hs : 0 < (distributeRound byQuota (normalizer byQuota d.shares) d).surplus) :
    outstanding (distributeRound byQuota (normalizer byQuota d.shares) d).shares <
      outstanding d.shares := by
  have hgt : ¬ neverGt byQuota d.surplus (normalizer byQuota d.shares) d.shares = true := by
    intro hnever
    have hzero : (distributeRound byQuota (normalizer byQuota d.shares) d).surplus = 0 :=
      if_pos (.inl hnever)
    linarith
  rw [neverGt,all_eq_true] at hgt
  push Not at hgt
  obtain ⟨s,hmem,hcut⟩ := hgt
  rw [ne_eq,decide_eq_true_eq] at hcut
  push Not at hcut
  have hgive : (s.give byQuota d.surplus (normalizer byQuota d.shares)).requested = 0 := by
    show s.requested - s.portion byQuota d.surplus _ = 0
    rw [Share.portion,if_pos hcut.1,if_pos hcut.2,sub_self]
  show (d.shares.map _).countP _ < _
  rw [countP_map]
  refine countP_lt (fun x hx hpos => ?_) hmem (decide_eq_true hcut.1) ?_
  · have hbounds : 0 ≤ x.portion byQuota d.surplus (normalizer byQuota d.shares) ∧ _ :=
      Share.portion_bounds (h.2 x hx) h.1 hz
    have hpos' : 0 < x.requested - x.portion byQuota d.surplus (normalizer byQuota d.shares) :=
      of_decide_eq_true hpos
    exact decide_eq_true (by linarith)
  · rw [Function.comp_apply,hgive]
    rfl

private theorem factor_eq_zero (h : ∀ s ∈ d.shares, s.Valid)
    (hz : normalizer byQuota d.shares ≤ 0) :
    ∀ s ∈ d.shares, 0 < s.requested → s.factor byQuota = 0 := by
  intro s hs hpos
  have hle : s.factor byQuota ≤ normalizer byQuota d.shares := by
    have hmem : s.factor byQuota ∈ d.shares.map
        fun s => if 0 < s.requested then s.factor byQuota else 0 :=
      List.mem_map.mpr ⟨s,hs,if_pos hpos⟩
    refine single_le_sum (fun y hy => ?_) _ hmem
    obtain ⟨t,ht,rfl⟩ := List.mem_map.mp hy
    split
    · exact Share.factor_nonneg (h t ht)
    · exact le_refl _
  exact le_antisymm (hle.trans hz) (Share.factor_nonneg (h s hs))

private theorem allocateSurplusLoop_spec {fuel : Nat} (h : d.Valid)
    (hfuel : outstanding d.shares < fuel) :
    ∃ d', allocateSurplusLoop byQuota fuel d = some d' ∧ d.Leads d' ∧
      (0 < d'.surplus → ∀ s ∈ d'.shares, 0 < s.requested → s.factor byQuota = 0) := by
  induction fuel generalizing d with
  | zero => omega
  | succ fuel ih =>
    rw [allocateSurplusLoop]
    by_cases hs : 0 < d.surplus
    · rw [if_pos hs]
      dsimp only
      by_cases hz : normalizer byQuota d.shares ≤ 0
      · rw [if_pos hz]
        exact ⟨d,rfl,.refl h,fun _ => factor_eq_zero h.2 hz⟩
      · rw [if_neg hz]
        have hz' := not_le.mp hz
        have hleads := leads_round h hz'
        have hvalid := hleads.valid h
        by_cases hs' : 0 < (distributeRound byQuota (normalizer byQuota d.shares) d).surplus
        · have hfewer := outstanding_round h hz' hs'
          obtain ⟨d',hd',hl,hend⟩ := ih hvalid (by omega)
          exact ⟨d',hd',hleads.trans hl,hend⟩
        · -- the surplus is gone: the next test of the loop ends it
          have hpos : 0 < fuel := by
            have : 0 < outstanding d.shares := by
              by_contra hnone
              have hall := List.countP_eq_zero.mp (Nat.eq_zero_of_not_pos hnone)
              have hzero : normalizer byQuota d.shares = 0 := by
                rw [normalizer]
                apply sum_eq_zero
                intro y hy
                obtain ⟨s,hmem,rfl⟩ := List.mem_map.mp hy
                rw [if_neg fun hpos => hall s hmem (decide_eq_true hpos)]
              linarith
            omega
          obtain ⟨n,rfl⟩ := Nat.exists_eq_succ_of_ne_zero hpos.ne'
          refine ⟨_,?_,hleads,fun hpos' => absurd hpos' hs'⟩
          rw [allocateSurplusLoop,if_neg hs']
    · rw [if_neg hs]
      exact ⟨d,rfl,.refl h,fun hpos => absurd hpos hs⟩

end Loop

private theorem sum_progress {xs ys : List Share} (h : List.Forall₂ Share.Progress xs ys) :
    (ys.map Share.allocated).sum + (ys.map Share.requested).sum =
      (xs.map Share.allocated).sum + (xs.map Share.requested).sum := by
  induction h with
  | nil => rfl
  | cons hxy _ ih =>
    have hsum := hxy.sum
    simp only [map_cons,sum_cons]
    linarith

private theorem sum_allocated_shares (g : GroupEntry) (cs : List QuotaTree) :
    ((shares g cs).map Share.allocated).sum = 0 := by
  apply sum_eq_zero
  intro y hy
  obtain ⟨s,hs,rfl⟩ := List.mem_map.mp hy
  rw [shares,mem_append,mem_map,mem_singleton] at hs
  obtain ⟨c,-,rfl⟩ | rfl := hs
  · rfl
  · rfl

theorem distribute_spec {fuel : Nat} {g : GroupEntry} {cs : List QuotaTree} {surplus : ℚ}
    (hs : 0 < surplus) (hvalid : ∀ s ∈ shares g cs, s.Valid)
    (hsum : g.subtreeRequested = ((shares g cs).map Share.requested).sum)
    (hfuel : cs.length + 1 < fuel) :
    ∃ d, distribute fuel g cs surplus = some d ∧
      List.Forall₂ Share.Progress (shares g cs) d.shares ∧
      (d.shares.map Share.allocated).sum = min surplus g.subtreeRequested ∧
      d.surplus = surplus - min surplus g.subtreeRequested ∧
      d.requested = g.subtreeRequested - min surplus g.subtreeRequested := by
  have hzero := sum_allocated_shares g cs
  rw [distribute]
  by_cases henough : g.subtreeRequested ≤ surplus
  · rw [if_pos henough,min_eq_right henough]
    refine ⟨_,rfl,?_,?_,rfl,(sub_self _).symm⟩
    · rw [forall₂_map_right_iff,forall₂_same]
      intro s hmem
      have hv := hvalid s hmem
      rw [shares,mem_append,mem_map,mem_singleton] at hmem
      obtain ⟨c,-,rfl⟩ | rfl := hmem
      · exact ⟨rfl,by simp,hv.2,le_refl _⟩
      · exact ⟨rfl,by simp,hv.2,le_refl _⟩
    · rw [hsum,map_map]
      rfl
  · have hlt := not_le.mp henough
    rw [if_neg henough,min_eq_left hlt.le]
    have hlen : (shares g cs).length = cs.length + 1 := by
      rw [shares,length_append,length_map,length_singleton]
    have hout : ∀ ss : List Share, ss.length = (shares g cs).length → outstanding ss < fuel := by
      intro ss hss
      have hle : outstanding ss ≤ ss.length := countP_le_length
      omega
    have hvalid0 : Distribution.Valid ⟨shares g cs,surplus,g.subtreeRequested⟩ := ⟨hs.le,hvalid⟩
    obtain ⟨d1,hd1,hl1,-⟩ : ∃ d', allocateSurplusLoop true fuel _ = some d' ∧ _ :=
      allocateSurplusLoop_spec hvalid0 (hout _ rfl)
    obtain ⟨d2,hd2,hl2,hend⟩ : ∃ d', allocateSurplusLoop false fuel d1 = some d' ∧ _ :=
      allocateSurplusLoop_spec (hl1.valid hvalid0) (hout _ hl1.progress.length_eq.symm)
    have hl := hl1.trans hl2
    have hpaid := hl.paid
    have hreq := hl.requested
    rw [hzero] at hpaid
    -- surplus that was left would mean that nothing is requested any more
    have hgone : d2.surplus = 0 := by
      by_contra hne
      have hpos : 0 < d2.surplus := lt_of_le_of_ne hl.surplus fun heq => hne heq.symm
      have hnone : (d2.shares.map Share.requested).sum ≤ 0 := by
        have hle := sum_le_card_nsmul (d2.shares.map Share.requested) 0 fun y hy => ?_
        · rwa [nsmul_zero] at hle
        · obtain ⟨s,hmem,rfl⟩ := List.mem_map.mp hy
          by_contra hs'
          exact one_ne_zero (hend hpos s hmem (not_le.mp hs'))
      have htotal := sum_progress hl.progress
      rw [hzero,← hsum] at htotal
      linarith
    refine ⟨d2,?_,hl.progress,?_,?_,?_⟩
    · rw [hd1,Option.bind_some,hd2]
    · rw [hgone] at hpaid
      linarith
    · rw [hgone,sub_self]
    · rw [hreq,hgone,sub_zero]

end Condor.Negotiator
