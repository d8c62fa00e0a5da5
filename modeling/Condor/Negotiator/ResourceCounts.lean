import Mathlib.Algebra.Order.BigOperators.Group.List
import Condor.Negotiator.Watched

/-!
# Resource counts match the records

What ties the records of the accountant to the history of the matches: which resources have a
record, what stands in it, and how many each customer and group has in use.
-/

namespace Condor.Negotiator

open Condor.Lib Condor.Lib.RecordStore List

namespace Match

variable (cfg : Config) (x : CString) (m : Match)

def held : Int := if m.stop = none ∧ m.Concerns cfg x then 1 else 0

def heldWeight : ℚ := if m.stop = none ∧ m.Concerns cfg x then m.weight else 0

end Match

structure Recorded (l : AcctLog) (r : CString) (m : Match) : Prop where
  user : l.get (.resource r) .remoteUser = some (.quoted m.customer)
  weight : l.get (.resource r) .slotWeight = some (.real m.weight)
  start : l.get (.resource r) .startTime = some (.int m.start)

structure Registered (cfg : Config) (w : Watched) : Prop where
  settled : Settled w.acct.log
  remembers : Remembers cfg.root w.acct.groupMap
  oneHolder : OneHolder w.history
  recorded : ∀ m ∈ w.history, ∀ r, m.Holds r → Recorded w.acct.log r m
  held : ∀ r, w.acct.log.There (.resource r) → ∃ m ∈ w.history, m.Holds r
  readsBack : ∀ m ∈ w.history, cfg.stringValue m.customer = some m.customer
  weight : ∀ m ∈ w.history, 0 ≤ m.weight
  used : ∀ x, (Usage.read w.acct.log x).resourcesUsed = total w.history (Match.held cfg x)
  weightedUsed : ∀ x, (Usage.read w.acct.log x).weightedResourcesUsed =
    total w.history (Match.heldWeight cfg x)
  paired : Paired w.acct.log
  unclamped : w.clamped = false

variable {cfg : Config}

namespace Usage

def less (u : Usage) (slotWeight : ℚ) (elapsed : Int) : Usage where
  resourcesUsed := u.resourcesUsed - 1
  weightedResourcesUsed := u.weightedResourcesUsed - slotWeight
  unchargedTime := u.unchargedTime + elapsed
  weightedUnchargedTime := u.weightedUnchargedTime + elapsed * slotWeight

variable {u : Usage} {slotWeight : ℚ}

private theorem removed_eq_less (hn : 0 < u.resourcesUsed)
    (hw : slotWeight ≤ u.weightedResourcesUsed)
    (elapsed : Int) : u.removed slotWeight elapsed = u.less slotWeight elapsed := by
  have hw' : ¬ u.weightedResourcesUsed - slotWeight < 0 := by linarith
  rw [removed,less,weightedRemoved,if_pos hn,if_neg hw']

private theorem groupRemoved_eq_less (hn : 0 < u.resourcesUsed)
    (hw : slotWeight ≤ u.weightedResourcesUsed) (elapsed : Int) :
    u.groupRemoved slotWeight elapsed = u.less slotWeight elapsed := by
  have hw' : ¬ u.weightedResourcesUsed - slotWeight < 0 := by linarith
  have hn' : ¬ u.resourcesUsed - 1 < 0 := by omega
  rw [groupRemoved,less,weightedRemoved,if_neg hn',if_neg hw']

end Usage

def Changed (cfg : Config) (l l' : AcctLog) (m : Match) (f : Usage → Usage) : Prop :=
  ∀ x, Usage.read l' x = if m.Concerns cfg x then f (Usage.read l x) else Usage.read l x

variable {f : Usage → Usage}

theorem Posted.changed {l l' : AcctLog} {m : Match}
    (h : Posted l l' m.customer (assignedGroup cfg.root m.customer) (f (Usage.read l m.customer))
      (f (Usage.read l (assignedGroup cfg.root m.customer)))) : Changed cfg l l' m f := by
  intro x
  rw [h.usage]
  by_cases hg : x = assignedGroup cfg.root m.customer
  · rw [if_pos hg,hg,if_pos (.inr rfl)]
  · rw [if_neg hg]
    by_cases hc : x = m.customer
    · rw [if_pos hc,hc,if_pos (.inl rfl)]
    · have hno : ¬ m.Concerns cfg x := by
        rintro (h | h)
        · exact hc h.symm
        · exact hg h.symm
      rw [if_neg hc,if_neg hno]

structure Booked (cfg : Config) (s s' : Accountant) (m : Match) (f : Usage → Usage) : Prop where
  settled : Settled s'.log
  remembers : Remembers cfg.root s'.groupMap
  time : s'.lastUpdateTime = s.lastUpdateTime
  changed : Changed cfg s.log s'.log m f
  accumulated : ∀ x, getReal s'.log (.customer x) .accumulatedUsage =
    getReal s.log (.customer x) .accumulatedUsage
  weightedAccumulated : ∀ x, getReal s'.log (.customer x) .weightedAccumulatedUsage =
    getReal s.log (.customer x) .weightedAccumulatedUsage

private theorem booked_of_posted {s s' : Accountant} {m : Match}
    (h : Posted s.log s'.log m.customer (assignedGroup cfg.root m.customer)
      (f (Usage.read s.log m.customer))
      (f (Usage.read s.log (assignedGroup cfg.root m.customer))))
    (hrem : Remembers cfg.root s'.groupMap) (htime : s'.lastUpdateTime = s.lastUpdateTime) :
    Booked cfg s s' m f where
  settled := h.settled
  remembers := hrem
  time := htime
  changed := h.changed
  accumulated x := by
    rw [getReal,getReal,h.other x _ (by simp) (by simp) (by simp) (by simp)]
  weightedAccumulated x := by
    rw [getReal,getReal,h.other x _ (by simp) (by simp) (by simp) (by simp)]

theorem Booked.paired {s s' : Accountant} {m : Match}
    (h : Booked cfg s s' m f) (hp : Paired s.log) : Paired s'.log := by
  intro x
  rw [h.weightedAccumulated,h.accumulated]
  exact hp x

variable {ms : List Match}

private theorem total_nonneg_le {M : Type} [AddCommGroup M] [PartialOrder M] [IsOrderedAddMonoid M]
    {f : Match → M} (hf : ∀ m ∈ ms, 0 ≤ f m) {m : Match} (hm : m ∈ ms) :
    f m ≤ total ms f := by
  apply single_le_sum
  · intro y hy
    obtain ⟨m',hm',rfl⟩ := List.mem_map.mp hy
    exact hf m' hm'
  · exact mem_map_of_mem hm

theorem Match.held_nonneg (x : CString) (m : Match) : 0 ≤ m.held cfg x := by
  rw [Match.held]
  split <;> decide

private theorem Match.heldWeight_nonneg {m : Match} (h : 0 ≤ m.weight) (x : CString) :
    0 ≤ m.heldWeight cfg x := by
  rw [Match.heldWeight]
  split
  · exact h
  · exact le_refl _

namespace Registered

variable {w : Watched} (h : Registered cfg w) {m : Match} {r : CString}

include h

theorem getString_user (hm : m ∈ w.history) (hr : m.Holds r) :
    getString cfg w.acct.log (.resource r) .remoteUser = some m.customer := by
  rw [getString,(h.recorded m hm r hr).user]
  exact h.readsBack m hm

private theorem lookup_free (hr : ∀ m ∈ w.history, ¬ m.Holds r) :
    lookup w.acct.log.table (.resource r) = none := by
  by_contra hne
  obtain ⟨m,hm,hmr⟩ := h.held r ((h.settled.there _).mpr hne)
  exact hr m hm hmr

private theorem getString_free (hr : ∀ m ∈ w.history, ¬ m.Holds r) :
    getString cfg w.acct.log (.resource r) .remoteUser = none := by
  rw [getString,Log.get,h.lookup_free hr]
  rfl

private theorem enough (hm : m ∈ w.history) (hr : m.Holds r) {x : CString} (hx : m.Concerns cfg x) :
    0 < (Usage.read w.acct.log x).resourcesUsed ∧
      m.weight ≤ (Usage.read w.acct.log x).weightedResourcesUsed := by
  rw [h.used,h.weightedUsed]
  have h1 := total_nonneg_le (fun m _ => (Match.held_nonneg x m : 0 ≤ m.held cfg x)) hm
  have h2 := total_nonneg_le
    (fun m hm => (Match.heldWeight_nonneg (h.weight m hm) x : 0 ≤ m.heldWeight cfg x)) hm
  rw [Match.held,if_pos ⟨hr.2,hx⟩] at h1
  rw [Match.heldWeight,if_pos ⟨hr.2,hx⟩] at h2
  exact ⟨by omega,h2⟩

private theorem group_eq : (getAssignedGroup cfg.root w.acct.groupMap m.customer).1 =
    assignedGroup cfg.root m.customer :=
  (h.remembers.getAssignedGroup m.customer).1

private theorem not_clamps (hm : m ∈ w.history) (hr : m.Holds r) : clamps cfg w.acct r = false := by
  obtain ⟨hc,hcw⟩ := h.enough hm hr (x := m.customer) (.inl rfl)
  obtain ⟨hg,hgw⟩ := h.enough hm hr (x := assignedGroup cfg.root m.customer) (.inr rfl)
  rw [clamps,h.getString_user hm hr]
  simp only [h.group_eq,getReal,(h.recorded m hm r hr).weight,Option.bind_some,Value.toReal?,
    Option.getD_some]
  rw [decide_eq_false_iff_not]
  rintro (h | h | h | h)
  · omega
  · linarith
  · omega
  · linarith

theorem removeMatch (hm : m ∈ w.history) (hr : m.Holds r) (now : Int) :
    Released w.acct.log (w.acct.removeMatch cfg r now).log r ∧
      Booked cfg w.acct (w.acct.removeMatch cfg r now) m fun u => u.less m.weight
        (now - if m.start < w.acct.lastUpdateTime then w.acct.lastUpdateTime else m.start) := by
  have hrec := h.recorded m hm r hr
  obtain ⟨hc,hcw⟩ := h.enough hm hr (x := m.customer) (.inl rfl)
  obtain ⟨hg,hgw⟩ := h.enough hm hr (x := assignedGroup cfg.root m.customer) (.inr rfl)
  have hs : w.acct.removeMatch cfg r now =
      { w.acct with
        log := ((bothWritten w.acct.log m.customer (assignedGroup cfg.root m.customer)
          ((Usage.read w.acct.log m.customer).less m.weight (now -
            if m.start < w.acct.lastUpdateTime then w.acct.lastUpdateTime else m.start))
          ((Usage.read w.acct.log (assignedGroup cfg.root m.customer)).less m.weight (now -
            if m.start < w.acct.lastUpdateTime then w.acct.lastUpdateTime
              else m.start))).deleteClassAd (.resource r)).commitTransaction
        groupMap := (getAssignedGroup cfg.root w.acct.groupMap m.customer).2 } := by
    rw [Accountant.removeMatch,h.getString_user hm hr]
    simp only [h.group_eq,getReal,getInt,hrec.weight,hrec.start,Option.bind_some,Value.toReal?,
      Value.toInt?,Option.getD_some]
    rw [Usage.removed_eq_less hc hcw,Usage.groupRemoved_eq_less hg hgw,bothWritten]
  obtain ⟨hp,hrel⟩ := posted_released h.settled r m.customer (assignedGroup cfg.root m.customer)
    ((Usage.read w.acct.log m.customer).less m.weight (now -
      if m.start < w.acct.lastUpdateTime then w.acct.lastUpdateTime else m.start))
    ((Usage.read w.acct.log (assignedGroup cfg.root m.customer)).less m.weight (now -
      if m.start < w.acct.lastUpdateTime then w.acct.lastUpdateTime else m.start))
  rw [hs]
  exact ⟨hrel,booked_of_posted hp (h.remembers.getAssignedGroup m.customer).2 rfl⟩

theorem removeMatch_free (hr : ∀ m ∈ w.history, ¬ m.Holds r) (now : Int) :
    w.acct.removeMatch cfg r now = w.acct := by
  rw [Accountant.removeMatch,h.getString_free hr,Log.deleteClassAd,h.lookup_free hr]
  rfl

theorem not_clamps_free (hr : ∀ m ∈ w.history, ¬ m.Holds r) : clamps cfg w.acct r = false := by
  rw [clamps,h.getString_free hr]

end Registered

private theorem total_held_close {M : Type} [AddCommGroup M] {m : Match} {r : CString}
    (hone : OneHolder ms) (hm : m ∈ ms) (hr : m.Holds r) (now : Int) (f : Match → M)
    (hclosed : f { m with stop := some now } = 0) :
    total (closeMatch ms r now) f = total ms f - f m := by
  rw [total_close hone hm hr,hclosed,add_zero]

theorem Registered.released {w : Watched} (h : Registered cfg w) {m : Match} {r : CString}
    (hm : m ∈ w.history) (hr : m.Holds r) {s' : Accountant} {now elapsed : Int}
    (hrel : Released w.acct.log s'.log r)
    (hb : Booked cfg w.acct s' m fun u => u.less m.weight elapsed) (t : Int) :
    Registered cfg ⟨s',closeMatch w.history r now,t,false⟩ where
  settled := hb.settled
  remembers := hb.remembers
  oneHolder := h.oneHolder.close r now
  recorded m' hm' r' hr' := by
    obtain ⟨m0,hm₀,rfl⟩ := mem_closeMatch hm'
    obtain ⟨hne,hr0,heq⟩ := holds_close hr'
    have hrec := h.recorded m0 hm₀ r' hr0
    rw [heq]
    exact ⟨by rw [hrel.get,if_neg hne,hrec.user],by rw [hrel.get,if_neg hne,hrec.weight],
      by rw [hrel.get,if_neg hne,hrec.start]⟩
  held r' hthere := by
    obtain ⟨hne,hthere⟩ := (hrel.there r').mp hthere
    obtain ⟨m',hm',hr'⟩ := h.held r' hthere
    refine ⟨m'.close r now,mem_map_of_mem hm',?_⟩
    have hnot : ¬ m'.Holds r := fun hr => hne (hr'.1.symm.trans hr.1)
    rw [Match.close,if_neg hnot]
    exact hr'
  readsBack m' hm' := by
    obtain ⟨m0,hm₀,rfl⟩ := mem_closeMatch hm'
    rw [close_customer]
    exact h.readsBack m0 hm₀
  weight m' hm' := by
    obtain ⟨m0,hm₀,rfl⟩ := mem_closeMatch hm'
    rw [close_weight]
    exact h.weight m0 hm₀
  used x := by
    rw [hb.changed,total_held_close h.oneHolder hm hr now (Match.held cfg x) (by simp [Match.held])]
    by_cases hx : m.Concerns cfg x
    · rw [if_pos hx,Match.held,if_pos ⟨hr.2,hx⟩,← h.used]
      rfl
    · rw [if_neg hx,h.used,Match.held,if_neg fun hc => hx hc.2,sub_zero]
  weightedUsed x := by
    rw [hb.changed,total_held_close h.oneHolder hm hr now (Match.heldWeight cfg x)
      (by simp [Match.heldWeight])]
    by_cases hx : m.Concerns cfg x
    · rw [if_pos hx,Match.heldWeight,if_pos ⟨hr.2,hx⟩,← h.weightedUsed]
      rfl
    · rw [if_neg hx,h.weightedUsed,Match.heldWeight,if_neg fun hc => hx hc.2,sub_zero]
  paired := hb.paired h.paired
  unclamped := rfl

def newMatch (cfg : Config) (customer : CString) (ad : ResourceAd) (now : Int) : Match :=
  ⟨getResourceName ad,customer,getSlotWeight cfg ad,now,none⟩

theorem addNewMatch_booked {s : Accountant} (hs : Settled s.log)
    (hrem : Remembers cfg.root s.groupMap) (customer : CString) (ad : ResourceAd) (now : Int) :
    Taken s.log (s.addNewMatch cfg customer ad now).log (getResourceName ad) customer
        (getSlotWeight cfg ad) now ∧
      Booked cfg s (s.addNewMatch cfg customer ad now) (newMatch cfg customer ad now)
        fun u => u.added (getSlotWeight cfg ad) (now - s.lastUpdateTime) := by
  have heq : s.addNewMatch cfg customer ad now =
      { s with
        log := ((bothWritten s.log customer (assignedGroup cfg.root customer)
          ((Usage.read s.log customer).added (getSlotWeight cfg ad) (now - s.lastUpdateTime))
          ((Usage.read s.log (assignedGroup cfg.root customer)).added (getSlotWeight cfg ad)
            (now - s.lastUpdateTime))).setAll (.resource (getResourceName ad))
          (resourceFields customer (getSlotWeight cfg ad) now
            ad.matchedConcurrencyLimits)).commitTransaction
        groupMap := (getAssignedGroup cfg.root s.groupMap customer).2 } := by
    rw [Accountant.addNewMatch]
    simp only [(hrem.getAssignedGroup customer).1]
    refine congrArg (fun l : AcctLog => (⟨l.commitTransaction,_,_⟩ : Accountant)) ?_
    exact (setAll_resourceFields ..).symm
  obtain ⟨hp,ht⟩ := posted_taken hs (getResourceName ad) customer (assignedGroup cfg.root customer)
    ((Usage.read s.log customer).added (getSlotWeight cfg ad) (now - s.lastUpdateTime))
    ((Usage.read s.log (assignedGroup cfg.root customer)).added (getSlotWeight cfg ad)
      (now - s.lastUpdateTime)) (getSlotWeight cfg ad) now ad.matchedConcurrencyLimits
  rw [heq]
  exact ⟨ht,booked_of_posted (m := newMatch cfg customer ad now) hp
    (hrem.getAssignedGroup customer).2 rfl⟩

theorem getSlotWeight_nonneg (cfg : Config) (ad : ResourceAd) : 0 ≤ getSlotWeight cfg ad := by
  rw [getSlotWeight]
  split
  · split
    · split
      · exact zero_le_one
      · linarith
    · exact zero_le_one
  · exact zero_le_one

theorem Registered.taken {w : Watched} (h : Registered cfg w) {m : Match}
    (hfree : ∀ m' ∈ w.history, ¬ m'.Holds m.resource) (hopen : m.stop = none)
    (hback : cfg.stringValue m.customer = some m.customer) (hweight : 0 ≤ m.weight)
    {s' : Accountant} {elapsed : Int}
    (ht : Taken w.acct.log s'.log m.resource m.customer m.weight m.start)
    (hb : Booked cfg w.acct s' m fun u => u.added m.weight elapsed) (t : Int) :
    Registered cfg ⟨s',w.history ++ [m],t,false⟩ where
  settled := hb.settled
  remembers := hb.remembers
  oneHolder := by
    refine List.pairwise_append.mpr ⟨h.oneHolder,pairwise_singleton _ _,fun a ha b hb => ?_⟩
    rw [mem_singleton] at hb
    subst hb
    intro r hr hbr
    apply hfree a ha
    rw [hbr.1]
    exact hr
  recorded m' hm' r hr := by
    rcases List.mem_append.mp hm' with hm' | hm'
    · have hrec := h.recorded m' hm' r hr
      have hne : r ≠ m.resource := by
        rintro rfl
        exact hfree m' hm' hr
      exact ⟨by rw [ht.other r _ hne,hrec.user],by rw [ht.other r _ hne,hrec.weight],
        by rw [ht.other r _ hne,hrec.start]⟩
    · obtain rfl := List.mem_singleton.mp hm'
      rw [← hr.1]
      exact ⟨ht.user,ht.weight,ht.start⟩
  held r hthere := by
    rcases (ht.there r).mp hthere with rfl | hthere
    · exact ⟨m,by simp,rfl,hopen⟩
    · obtain ⟨m',hm',hr'⟩ := h.held r hthere
      exact ⟨m',by simp [hm'],hr'⟩
  readsBack m' hm' := by
    rcases List.mem_append.mp hm' with hm' | hm'
    · exact h.readsBack m' hm'
    · obtain rfl := List.mem_singleton.mp hm'
      exact hback
  weight m' hm' := by
    rcases List.mem_append.mp hm' with hm' | hm'
    · exact h.weight m' hm'
    · obtain rfl := List.mem_singleton.mp hm'
      exact hweight
  used x := by
    rw [hb.changed,total_append,total_singleton]
    by_cases hx : m.Concerns cfg x
    · rw [if_pos hx,Match.held,if_pos ⟨hopen,hx⟩,← h.used]
      rfl
    · rw [if_neg hx,h.used,Match.held,if_neg fun hc => hx hc.2,add_zero]
  weightedUsed x := by
    rw [hb.changed,total_append,total_singleton]
    by_cases hx : m.Concerns cfg x
    · rw [if_pos hx,Match.heldWeight,if_pos ⟨hopen,hx⟩,← h.weightedUsed]
      rfl
    · rw [if_neg hx,h.weightedUsed,Match.heldWeight,if_neg fun hc => hx hc.2,add_zero]
  paired := hb.paired h.paired
  unclamped := rfl

theorem total_eq_zero {M N : Type} [AddCommGroup M] [PartialOrder M] [IsOrderedAddMonoid M]
    [AddCommGroup N] {f : Match → M} {g : Match → N} (hf : ∀ m ∈ ms, 0 ≤ f m)
    (h : total ms f = 0) (hg : ∀ m ∈ ms, f m = 0 → g m = 0) : total ms g = 0 := by
  have hall : ∀ m ∈ ms, g m = 0 := by
    intro m hm
    have hle := total_nonneg_le hf hm
    rw [h] at hle
    exact hg m hm (le_antisymm hle (hf m hm))
  rw [total_congr hall,total]
  simp

theorem Registered.remove {w : Watched} (h : Registered cfg w) (r : CString) (now : Int) :
    Registered cfg (w.call cfg (.remove r now)) := by
  by_cases hm : ∃ m ∈ w.history, m.Holds r
  · obtain ⟨m,hm,hr⟩ := hm
    obtain ⟨hrel,hb⟩ := h.removeMatch hm hr now
    have hc := h.not_clamps hm hr
    rw [Watched.call,hc,h.unclamped]
    exact h.released hm hr hrel hb now
  · have hfree : ∀ m ∈ w.history, ¬ m.Holds r := fun m hm' hr => hm ⟨m,hm',hr⟩
    rw [Watched.call,h.removeMatch_free hfree,closeMatch_of_free hfree,h.not_clamps_free hfree,
      Bool.or_false]
    exact { h with }

theorem Registered.add_cases {w : Watched} (h : Registered cfg w) (customer : CString)
    (ad : ResourceAd) (now : Int) :
    (w.call cfg (.add customer ad now) = { w with now }) ∨
    ((∀ m ∈ w.history, ¬ m.Holds (getResourceName ad)) ∧
      w.call cfg (.add customer ad now) = { w with
        acct := w.acct.addNewMatch cfg customer ad now
        history := w.history ++ [newMatch cfg customer ad now]
        now }) ∨
    ((∃ m ∈ w.history, m.Holds (getResourceName ad) ∧ m.customer ≠ customer) ∧
      w.call cfg (.add customer ad now) =
        let w' := w.call cfg (.remove (getResourceName ad) now)
        { w' with
          acct := w'.acct.addNewMatch cfg customer ad now
          history := w'.history ++ [newMatch cfg customer ad now] }) := by
  by_cases hm : ∃ m ∈ w.history, m.Holds (getResourceName ad)
  · obtain ⟨m,hm,hr⟩ := hm
    have huser := h.getString_user hm hr
    by_cases hc : customer = m.customer
    · left
      have hopen : ∃ m ∈ w.history, m.Holds (getResourceName ad) ∧ m.customer = customer :=
        ⟨m,hm,hr,hc.symm⟩
      have hre : reassigns cfg w.acct customer (getResourceName ad) = false := by
        rw [reassigns,huser]
        simp [hc]
      rw [Watched.call,openMatch,if_pos hopen,Accountant.addMatch,huser,hre]
      simp [hc]
    · right
      right
      refine ⟨⟨m,hm,hr,fun he => hc he.symm⟩,?_⟩
      have hopen : ¬ ∃ m ∈ w.history, m.Holds (getResourceName ad) ∧ m.customer = customer := by
        rintro ⟨m',hm',hr',hc'⟩
        have huser' := h.getString_user hm' hr'
        rw [huser,hc'] at huser'
        exact hc (Option.some.inj huser').symm
      have hre : reassigns cfg w.acct customer (getResourceName ad) = true := by
        rw [reassigns,huser]
        simp [hc]
      rw [Watched.call,openMatch,if_neg hopen,Accountant.addMatch,huser,hre,Bool.true_and]
      simp only [hc,if_false]
      rfl
  · right
    left
    have hfree : ∀ m ∈ w.history, ¬ m.Holds (getResourceName ad) := fun m hm' hr => hm ⟨m,hm',hr⟩
    refine ⟨hfree,?_⟩
    have huser := h.getString_free hfree
    have hopen : ¬ ∃ m ∈ w.history, m.Holds (getResourceName ad) ∧ m.customer = customer :=
      fun ⟨m,hm',hr,_⟩ => hm ⟨m,hm',hr⟩
    have hre : reassigns cfg w.acct customer (getResourceName ad) = false := by
      rw [reassigns,huser]
    rw [Watched.call,openMatch,if_neg hopen,Accountant.addMatch,huser,hre,
      closeMatch_of_free hfree,Bool.false_and,Bool.or_false]
    rfl

theorem free_closeMatch (ms : List Match) (r : CString) (now : Int) :
    ∀ m ∈ closeMatch ms r now, ¬ m.Holds r := by
  intro m hm hr
  obtain ⟨m',hm',rfl⟩ := mem_closeMatch hm
  exact (holds_close hr).1 rfl

theorem Registered.addNew {w : Watched} (h : Registered cfg w) {customer : CString}
    (hback : cfg.stringValue customer = some customer) {ad : ResourceAd}
    (hfree : ∀ m ∈ w.history, ¬ m.Holds (getResourceName ad)) (now t : Int) :
    Registered cfg { w with
      acct := w.acct.addNewMatch cfg customer ad now
      history := w.history ++ [newMatch cfg customer ad now]
      now := t } := by
  obtain ⟨ht,hb⟩ := addNewMatch_booked h.settled h.remembers customer ad now
  have hreg := h.taken (m := newMatch cfg customer ad now) hfree rfl hback
    (getSlotWeight_nonneg cfg ad) ht hb t
  rw [h.unclamped]
  exact hreg

theorem Registered.add {w : Watched} (h : Registered cfg w) {customer : CString}
    (hback : cfg.stringValue customer = some customer) (ad : ResourceAd) (now : Int) :
    Registered cfg (w.call cfg (.add customer ad now)) := by
  rcases h.add_cases customer ad now with heq | ⟨hfree,heq⟩ | ⟨-,heq⟩
  · rw [heq]
    exact { h with }
  · rw [heq]
    exact h.addNew hback hfree now now
  · rw [heq]
    exact (h.remove (getResourceName ad) now).addNew hback (free_closeMatch _ _ _) now now

theorem Registered.update {w : Watched} (h : Registered cfg w) (now : Int) (agingFactor : ℚ) :
    Registered cfg (w.call cfg (.update now agingFactor)) := by
  rw [Watched.call]
  rcases lt_trichotomy w.acct.lastUpdateTime now with hlt | heq | hgt
  · have hu := updates_updatePriorities h.settled h.paired hlt agingFactor
    refine ⟨hu.settled,?_,h.oneHolder,?_,?_,h.readsBack,h.weight,?_,?_,hu.paired,h.unclamped⟩
    · rw [hu.groupMap]
      exact h.remembers
    · intro m hm r hr
      have hrec := h.recorded m hm r hr
      have hsame := (hu.resources r).get h.settled hu.settled
      exact ⟨by rw [hsame,hrec.user],by rw [hsame,hrec.weight],by rw [hsame,hrec.start]⟩
    · intro r hthere
      exact h.held r ((hu.resources r).2.mp hthere)
    · intro x
      rw [(hu.billed x).used]
      exact h.used x
    · intro x
      rcases (hu.billed x).weighted with ⟨hw,-⟩ | ⟨hzero,-,hw,-⟩
      · rw [hw]
        exact h.weightedUsed x
      · rw [h.used] at hzero
        rw [hw]
        refine (total_eq_zero (fun m _ => m.held_nonneg x) hzero fun m _ hm0 => ?_).symm
        rw [Match.held] at hm0
        rw [Match.heldWeight]
        split at hm0
        · cases hm0
        · next hno => rw [if_neg hno]
  · rw [Accountant.updatePriorities]
    have h1 : now - w.acct.lastUpdateTime = 0 := by omega
    simp only [h1,if_true]
    exact { h with }
  · rw [Accountant.updatePriorities]
    have h1 : ¬ now - w.acct.lastUpdateTime = 0 := by omega
    have h2 : now - w.acct.lastUpdateTime < 0 := by omega
    simp only [h1,h2,if_true,if_false]
    exact { h with }

def resourceNames (l : AcctLog) : List CString :=
  l.table.filterMap fun e =>
    match e.1 with
    | .resource r => some r
    | _ => none

def userOf (cfg : Config) (l : AcctLog) (r : CString) : Option CString :=
  getString cfg l (.resource r) .remoteUser

def weightOf (l : AcctLog) (r : CString) : ℚ := (getReal l (.resource r) .slotWeight).getD 1

def usedBy (cfg : Config) (l : AcctLog) (p : CString → Bool) : List CString :=
  (resourceNames l).filter fun r => (userOf cfg l r).any p

theorem mem_resourceNames {l : AcctLog} {r : CString} :
    r ∈ resourceNames l ↔ Key.resource r ∈ l.table.map Prod.fst := by
  rw [resourceNames,mem_filterMap,mem_map]
  constructor
  · rintro ⟨⟨k,ad⟩,he,hk⟩
    cases k with
    | resource r' =>
      obtain rfl := Option.some.inj hk
      exact ⟨_,he,rfl⟩
    | customer | acct => cases hk
  · rintro ⟨⟨k,ad⟩,he,hk⟩
    obtain rfl : k = .resource r := hk
    exact ⟨_,he,rfl⟩

private theorem nodup_resourceNames {l : AcctLog} (h : Distinct l.table) :
    (resourceNames l).Nodup := by
  have hnames : resourceNames l = (l.table.map Prod.fst).filterMap fun k =>
      match k with
      | .resource r => some r
      | _ => none := by
    rw [resourceNames,filterMap_map]
    rfl
  rw [hnames]
  refine h.filterMap fun k k' r hk hk' => ?_
  cases k <;> cases k' <;> simp_all

theorem sum_filter {α M : Type} [AddCommMonoid M] (xs : List α) (p : α → Bool) (f : α → M) :
    ((xs.filter p).map f).sum = (xs.map fun x => if p x then f x else 0).sum := by
  induction xs with
  | nil => rfl
  | cons x xs ih =>
    by_cases hx : p x = true
    · rw [filter_cons_of_pos hx,map_cons,sum_cons,map_cons,sum_cons,ih,
        if_pos hx]
    · rw [filter_cons_of_neg hx,map_cons,sum_cons,ih,if_neg hx,zero_add]

namespace Registered

variable {w : Watched} (h : Registered cfg w)

include h

private theorem perm_resourceNames :
    (resourceNames w.acct.log).Perm ((w.history.filter
    fun m => m.stop = none).map Match.resource) := by
  refine (perm_ext_iff_of_nodup (nodup_resourceNames h.settled.distinct) ?_).mpr fun r => ?_
  · refine List.Pairwise.map _ (fun _ _ hab => hab) ?_
    refine (h.oneHolder.filter _).imp_of_mem fun {a b} ha hb hab heq => ?_
    simp only [mem_filter,decide_eq_true_eq] at ha hb
    exact hab a.resource ⟨rfl,ha.2⟩ ⟨heq.symm,hb.2⟩
  · rw [mem_resourceNames]
    constructor
    · intro hk
      obtain ⟨m,hm,hr⟩ := h.held r ((h.settled.there _).mpr fun hn => lookup_eq_none.mp hn hk)
      exact List.mem_map.mpr ⟨m,List.mem_filter.mpr ⟨hm,by simpa using hr.2⟩,hr.1⟩
    · intro hmap
      obtain ⟨m,hm,rfl⟩ := List.mem_map.mp hmap
      obtain ⟨hm,hopen⟩ := List.mem_filter.mp hm
      have hrec := h.recorded m hm m.resource ⟨rfl,by simpa using hopen⟩
      by_contra hk
      have hnone := hrec.user
      rw [Log.get,lookup_eq_none.mpr hk] at hnone
      cases hnone

private theorem sum_usedBy {M : Type} [AddCommGroup M] (p : CString → Bool) (f : CString → M)
    (g : Match → M) (hfg : ∀ m ∈ w.history, m.stop = none → f m.resource = g m) :
    ((usedBy cfg w.acct.log p).map f).sum =
      total w.history fun m => if m.stop = none ∧ p m.customer then g m else 0 := by
  rw [usedBy,sum_filter,(h.perm_resourceNames.map _).sum_eq,map_map,sum_filter,total]
  congr 1
  refine map_congr_left fun m hm => ?_
  by_cases hopen : m.stop = none
  · have huser : userOf cfg w.acct.log m.resource = some m.customer :=
      h.getString_user hm ⟨rfl,hopen⟩
    by_cases hp : p m.customer = true
    · simp [hopen,huser,hp,hfg m hm hopen]
    · simp [hopen,huser,hp]
  · simp [hopen]

theorem counts {x : CString} {p : CString → Bool}
    (hp : ∀ m ∈ w.history, p m.customer = true ↔ m.Concerns cfg x) :
    (Usage.read w.acct.log x).resourcesUsed = (usedBy cfg w.acct.log p).length ∧
      (Usage.read w.acct.log x).weightedResourcesUsed =
        ((usedBy cfg w.acct.log p).map (weightOf w.acct.log)).sum := by
  constructor
  · have hlen : ((usedBy cfg w.acct.log p).length : Int) =
        ((usedBy cfg w.acct.log p).map fun _ => (1 : Int)).sum := by simp
    rw [hlen,h.sum_usedBy p _ (fun _ => 1) fun _ _ _ => rfl,h.used]
    refine total_congr fun m hm => ?_
    rw [Match.held]
    simp only [hp m hm]
  · rw [h.sum_usedBy p _ Match.weight,h.weightedUsed]
    · refine total_congr fun m hm => ?_
      rw [Match.heldWeight]
      simp only [hp m hm]
    · intro m hm hopen
      rw [weightOf,getReal,(h.recorded m hm m.resource ⟨rfl,hopen⟩).weight]
      rfl

end Registered

theorem registered_start (cfg : Config) (lastUpdateTime : Int) :
    Registered cfg (Watched.start cfg lastUpdateTime) where
  settled := ⟨nodup_nil,rfl⟩
  remembers := remembers_initial cfg.root
  oneHolder := List.Pairwise.nil
  recorded m hm := by cases hm
  held r hthere := absurd rfl hthere
  readsBack m hm := by cases hm
  weight m hm := by cases hm
  used _ := rfl
  weightedUsed _ := rfl
  paired _ _ := rfl
  unclamped := rfl

/-- The name of a customer is read back as it is written. -/
def NamesReadBack (cfg : Config) (_ : Watched) : Call → Prop
  | .add customer _ _ => cfg.stringValue customer = some customer
  | _ => True

theorem Registered.call {w : Watched} (h : Registered cfg w) (c : Call)
    (hok : NamesReadBack cfg w c) : Registered cfg (w.call cfg c) := by
  cases c with
  | add customer ad now => exact h.add hok ad now
  | remove r now => exact h.remove r now
  | update now agingFactor => exact h.update now agingFactor

instance (cfg : Config) (w : Watched) (c : Call) : Decidable (NamesReadBack cfg w c) :=
  match c with
  | .add customer _ _ => inferInstanceAs (Decidable (cfg.stringValue customer = some customer))
  | .remove _ _ => .isTrue trivial
  | .update _ _ => .isTrue trivial

/-- The numbers and weights on record are those of the resources in use. -/
structure CountsMatch (cfg : Config) (w : Watched) : Prop where
  customers : ∀ x, x ∉ cfg.root.values →
    (Usage.read w.acct.log x).resourcesUsed = (usedBy cfg w.acct.log fun u => u = x).length ∧
      (Usage.read w.acct.log x).weightedResourcesUsed =
        ((usedBy cfg w.acct.log fun u => u = x).map (weightOf w.acct.log)).sum
  groups : ∀ g ∈ cfg.root.values,
    (Usage.read w.acct.log g).resourcesUsed = (usedBy cfg w.acct.log fun u =>
      (getAssignedGroup cfg.root w.acct.groupMap u).1 = g).length ∧
      (Usage.read w.acct.log g).weightedResourcesUsed = ((usedBy cfg w.acct.log fun u =>
        (getAssignedGroup cfg.root w.acct.groupMap u).1 = g).map (weightOf w.acct.log)).sum
  unclamped : w.clamped = false
  oneRecord : (resourceNames w.acct.log).Nodup

/-- In every run whose names read back, the counts are those of the records. -/
theorem countsMatch_of_run {cfg : Config} (hd : DistinctGroups cfg.root) {lastUpdateTime : Int}
    {es : List Event} {w : Watched}
    (hok : Watched.Admits cfg (NamesReadBack cfg) (Watched.start cfg lastUpdateTime) es)
    (hr : run (Watched.step cfg) (Watched.start cfg lastUpdateTime) es = some w) :
    CountsMatch cfg w := by
  have h : Registered cfg w := Watched.run_call_invariant cfg (fun w c hw hc => hw.call c hc) hok
    (registered_start cfg lastUpdateTime) hr
  refine ⟨fun x hx => h.counts fun m _ => ?_,fun g hg => h.counts fun m _ => ?_,h.unclamped,
    nodup_resourceNames h.settled.distinct⟩
  · rw [decide_eq_true_eq,Match.Concerns]
    refine ⟨.inl,fun hc => hc.resolve_right fun hgroup => hx ?_⟩
    rw [← hgroup]
    exact assignedGroup_mem cfg.root m.customer
  · rw [decide_eq_true_eq,h.group_eq,Match.Concerns]
    refine ⟨.inr,fun hc => ?_⟩
    rcases hc with rfl | hc
    · exact assignedGroup_group hd hg
    · exact hc

/-- A text without quotes or backslashes is read as it was written; a quote inside ends the string
early. -/
def plainValue (s : CString) : Option CString :=
  if s.any fun c => c.val = 34 ∨ c.val = 92 then none else some s

def twoGroups : Config where
  root := .node (cstr "<none>") [.node (cstr "physics") []]
  useSlotWeights := true
  discountSuspendedResources := false
  stringValue := plainValue

def slotAd (name : CString) (state : Option MachineState) (user : Option CString) : ResourceAd where
  name := name
  startdIpAddr := none
  slotWeight := some 2
  matchedConcurrencyLimits := none
  state := state
  accountingGroup := none
  remoteUser := user
  activity := none

instance (root : GroupTree) : Decidable (DistinctGroups root) :=
  inferInstanceAs (Decidable (∀ g ∈ root.values, ∀ h ∈ root.values, _ → g = h))

def checkedEvents : List Event :=
  [.add (cstr "ann@home") (slotAd (cstr "s1") none none) 10,
    .add (cstr "physics.bob@home") (slotAd (cstr "s2") none none) 12,.update 20 (1 / 2),
    .check [slotAd (cstr "s1") (some .claimed) (some (cstr "ann@home")),
      slotAd (cstr "s3") (some .claimed) (some (cstr "ann@home"))] fun n => 30 + n]

theorem countsMatch_of_run_checked : ∃ w, run (Watched.step twoGroups) (Watched.start twoGroups 0)
    checkedEvents = some w ∧ CountsMatch twoGroups w := by
  have hok : Watched.Admits twoGroups (NamesReadBack twoGroups) (Watched.start twoGroups 0)
      checkedEvents := by decide +kernel
  exact ⟨_,rfl,countsMatch_of_run (by decide) hok rfl⟩

/-- A name with a quote in it does not come back from the record of the resource. -/
theorem countsMatch_fails_quoted : ∃ w, run (Watched.step twoGroups) (Watched.start twoGroups 0)
    [.add (cstr "a\"b@c") (slotAd (cstr "s1") none none) 10] = some w ∧
      atSign ∈ cstr "a\"b@c" ∧ cstr "a\"b@c" ∉ twoGroups.root.values ∧
      (Usage.read w.acct.log (cstr "a\"b@c")).resourcesUsed = 1 ∧
      usedBy twoGroups w.acct.log (fun u => u = cstr "a\"b@c") = [] ∧
      ¬ CountsMatch twoGroups w := by
  refine ⟨_,rfl,by decide,by decide,by decide,by decide,fun h => ?_⟩
  have hcount := (h.customers (cstr "a\"b@c") (by decide)).1
  revert hcount
  decide

end Condor.Negotiator
