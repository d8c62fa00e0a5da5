import Condor.Negotiator.ResourceCounts
import Condor.Negotiator.CandidateLists

/-!
# The match list against the scan

The match list is transparent when every answer that is taken from it is as good as the one of a
scan in the same state.
-/

namespace Condor.Negotiator

open Condor.Lib List Option

namespace Matchmaker

variable {mm : Matchmaker} {t : Turn}

private theorem Lists.tighter {s s' : Negotiation} {r : JobRequest} {only : Bool}
    {entries : List AdListEntry} (h : mm.Lists t s r only entries)
    (hads : s'.startdAds = s.startdAds) (ht : Tighter s s') : mm.Lists t s' r only entries where
  entry := by rw [hads]; exact h.entry
  sorted := h.sorted
  separate := h.separate
  complete := by
    intro o ho state hst
    rw [hads] at ho
    exact (h.complete o ho state hst).imp_right (mm.scanPermits_anti t ht)

theorem Lists.drop {s : Negotiation} {r : JobRequest} {only : Bool}
    {dropped rest : List AdListEntry} (h : mm.Lists t s r only (dropped ++ rest))
    (hno : ∀ e ∈ dropped, mm.scanPermits t s e.preemptStateValue e.ad = false) :
    mm.Lists t s r only rest where
  entry e he := h.entry e (mem_append_right _ he)
  sorted := (List.pairwise_append.mp h.sorted).2.1
  separate := by
    have hnodup := h.separate
    rw [map_append] at hnodup
    exact (List.nodup_append.mp hnodup).2.1
  complete := by
    intro o ho state hst
    rcases h.complete o ho state hst with ⟨e,he,rfl⟩ | hperm
    · rcases List.mem_append.mp he with hd | hr
      · obtain ⟨_,state',hst',heq⟩ := h.entry e he
        obtain rfl : state = state' := some.inj (hst.symm.trans hst')
        have hrefused := hno e hd
        rw [heq] at hrefused
        exact .inr hrefused
      · exact .inl ⟨e,hr,rfl⟩
    · exact .inr hperm

private theorem Lists.handedOut {s s' : Negotiation} {r : JobRequest} {only : Bool}
    {e : AdListEntry}
    {rest : List AdListEntry} (h : mm.Lists t s r only (e :: rest))
    (hads : s'.startdAds = removeOffer s.startdAds e.ad) (ht : Tighter s s') :
    mm.Lists t s' r only rest where
  entry x hx := by
    obtain ⟨hmem,hrest⟩ := h.entry x (mem_cons_of_mem _ hx)
    have hne : x.ad.address ≠ e.ad.address := by
      have hnodup := h.separate
      rw [map_cons,nodup_cons] at hnodup
      intro heq
      exact hnodup.1 (List.mem_map.mpr ⟨x,hx,heq⟩)
    rw [hads]
    exact ⟨mem_removeOffer.mpr ⟨hmem,hne⟩,hrest⟩
  sorted := (List.pairwise_cons.mp h.sorted).2
  separate := by
    have hnodup := h.separate
    rw [map_cons,nodup_cons] at hnodup
    exact hnodup.2
  complete := by
    intro o ho state hst
    rw [hads] at ho
    obtain ⟨ho,hne⟩ := mem_removeOffer.mp ho
    rcases h.complete o ho state hst with ⟨x,hx,rfl⟩ | hperm
    · rcases List.mem_cons.mp hx with rfl | hx
      · exact absurd rfl hne
      · exact .inl ⟨x,hx,rfl⟩
    · exact .inr (mm.scanPermits_anti t ht hperm)

variable (mm t)

def Foreign (l : MatchList) : Prop := ¬ (l.cachedName = t.scheddName ∧ l.cachedAddr = t.scheddAddr)

def makesList (s : Negotiation) (r : JobRequest) : Bool :=
  mm.wantMatchlistCaching && r.autoCluster ≠ -1 && 0 < s.startdAds.length

def sortedFound (s : Negotiation) (r : JobRequest) : List AdListEntry :=
  let found := (mm.scan t s r).found
  if 1 < found.length then mm.qsort found else found

/-- Of the candidates that tie for the best, `qsort` puts that one first which comes first among the
machine ads. -/
def BestFirst (s : Negotiation) (r : JobRequest) : Prop :=
  mm.makesList s r = true → ∀ e ∈ (mm.sortedFound t s r).head?,
    ((s.startdAds.filterMap (mm.candidate t s r)).find? fun c => c.key = e.key).map
      (fun c => c.ad.address) = some e.ad.address

/-- An answer is taken from the list only while it refuses and permits what the scan does, and a new
list begins with the first of the best candidates. -/
def Harmless (s : Negotiation) : Prop :=
  match s.request with
  | none => True
  | some r =>
    match s.matchList with
    | none => mm.BestFirst t s r
    | some l => if mm.usable t s r l then mm.AgreesUpTo t s l.entries else mm.BestFirst t s r

/-- The state of a negotiation for jobs that are all like `r`. -/
structure Consistent (r : JobRequest) (s : Negotiation) : Prop where
  separate : Separate s.startdAds
  list : ∀ l, s.matchList = some l →
    Foreign t l ∨ mm.Lists t s r l.cachedOnlyForStartdRank l.entries

/-- A machine is sought for a job like `r`, if for any. -/
def AsksFor (r : JobRequest) (s : Negotiation) : Prop := ∀ r', s.request = some r' → r' = r

/-- `qsort` as it is documented: the same entries, in an order that the comparison allows. -/
structure Sorts (qsort : List AdListEntry → List AdListEntry) : Prop where
  perm : ∀ es, (qsort es).Perm es
  sorted : ∀ es, (qsort es).Pairwise fun a b => sortCompare a b ≤ 0

variable {mm t} {r : JobRequest} {s : Negotiation}

private theorem sortedFound_perm (hq : Sorts mm.qsort) :
    (mm.sortedFound t s r).Perm (mm.scan t s r).found := by
  unfold sortedFound
  dsimp only
  split
  · exact hq.perm _
  · exact List.Perm.refl _

private theorem sortedFound_sorted (hq : Sorts mm.qsort) :
    (mm.sortedFound t s r).Pairwise fun a b => b.key ≤ a.key := by
  unfold sortedFound
  dsimp only
  split
  · exact (hq.sorted _).imp fun h => (sortCompare_le_iff _ _).mp h
  · rename_i hlen
    match h : (mm.scan t s r).found with
    | [] => exact List.Pairwise.nil
    | [e] => exact pairwise_singleton _ e
    | _ :: _ :: _ => rw [h] at hlen; simp at hlen

private theorem usable_foreign {l : MatchList} (h : Foreign t l) : mm.usable t s r l = false := by
  rw [Bool.eq_false_iff]
  intro hu
  simp only [usable,Bool.and_eq_true,decide_eq_true_eq] at hu
  exact h ⟨hu.1.1.2,hu.1.2⟩

private theorem usable_only {l : MatchList} (h : mm.usable t s r l = true) :
    l.cachedOnlyForStartdRank = s.onlyConsiderStartdRank := by
  simp only [usable,Bool.and_eq_true,decide_eq_true_eq] at h
  exact h.1.1.1.2

structure SameLimits (s s' : Negotiation) : Prop where
  ads : s'.startdAds = s.startdAds
  used : s'.limitUsed = s.limitUsed
  unclaimed : s'.limitUsedUnclaimed = s.limitUsedUnclaimed
  pie : s'.pieLeft = s.pieLeft
  request : s'.request = s.request

private theorem SameLimits.tighter {s s' : Negotiation} (h : SameLimits s s') : Tighter s s' :=
  ⟨h.used.ge,h.unclaimed.ge,h.pie.le⟩

private theorem sameLimits_fromMatchList (l : MatchList) : SameLimits s
    (mm.fromMatchList t s l).2 := by
  unfold fromMatchList
  dsimp only
  split
  · exact ⟨rfl,rfl,rfl,rfl,rfl⟩
  · exact ⟨rfl,rfl,rfl,rfl,rfl⟩

private theorem sameLimits_algorithm : SameLimits s (mm.matchmakingAlgorithm t s r).2 := by
  unfold matchmakingAlgorithm
  split
  · exact ⟨rfl,rfl,rfl,rfl,rfl⟩
  · split
    · split
      · exact sameLimits_fromMatchList _
      · exact ⟨rfl,rfl,rfl,rfl,rfl⟩
    · exact ⟨rfl,rfl,rfl,rfl,rfl⟩

/-- What a call leaves: the list is good for the state without the offer, or for the state
itself when there is no offer. -/
structure LeavesList (mm : Matchmaker) (t : Turn) (r : JobRequest) (s : Negotiation)
    (offer : Option Offer) (list : Option MatchList) : Prop where
  kept : offer = none → ∀ l, list = some l →
    mm.Lists t s r l.cachedOnlyForStartdRank l.entries
  handedOut : ∀ o, offer = some o → ∀ l, list = some l → ∀ s' : Negotiation,
    s'.startdAds = removeOffer s.startdAds o → Tighter s s' →
    mm.Lists t s' r l.cachedOnlyForStartdRank l.entries

private theorem leavesList_fromMatchList {l : MatchList}
    (hl : mm.Lists t s r s.onlyConsiderStartdRank l.entries)
    (honly : l.cachedOnlyForStartdRank = s.onlyConsiderStartdRank)
    (hagree : mm.AgreesUpTo t s l.entries) :
    LeavesList mm t r s (mm.fromMatchList t s l).1 (mm.fromMatchList t s l).2.matchList := by
  unfold fromMatchList
  rcases mm.popPermitted_cases t s l.entries with ⟨hpop,hnone⟩ | ⟨dropped,e,rest,hes,hpop,_,hd⟩
  · rw [hpop]
    dsimp only
    refine ⟨?_,by simp⟩
    rintro - l' hl'
    obtain rfl := some.inj hl'
    dsimp only
    rw [honly]
    rw [← append_nil l.entries] at hl hagree
    exact hl.drop (hagree.append mm t hnone).1
  · rw [hpop]
    dsimp only
    refine ⟨by simp,?_⟩
    rintro o ho l' hl' s' hads ht
    obtain rfl := some.inj ho
    obtain rfl := some.inj hl'
    dsimp only
    rw [honly]
    rw [hes] at hl hagree
    exact (hl.drop (hagree.append mm t hd).1).handedOut hads ht

theorem BestFirst.head (hq : Sorts mm.qsort) (hs : Separate s.startdAds)
    (h : mm.BestFirst t s r) (hmake : mm.makesList s r = true) {c : AdListEntry}
    (hbest : (mm.scan t s r).bestSoFar = some c) :
    ∃ e rest, mm.sortedFound t s r = e :: rest ∧ e.ad = c.ad := by
  have hlists := mm.lists_scan t hs (sortedFound_perm (t := t) (r := r) hq) (sortedFound_sorted hq)
  have hperm : (mm.sortedFound t s r).Perm (mm.scan t s r).found := sortedFound_perm hq
  have hpick := (mm.scan_eq t s r).2.symm.trans hbest
  obtain ⟨hempty,hnone⟩ | ⟨c',hc,hc',hmax⟩ :=
    foldl_pick_cases (s.startdAds.filterMap (mm.candidate t s r))
  · rw [hpick] at hnone
    simp at hnone
  obtain rfl : c = c' := some.inj (hpick.symm.trans hc')
  rw [← (mm.scan_eq t s r).1] at hc hmax
  have hcin : c ∈ mm.sortedFound t s r := hperm.mem_iff.mpr hc
  have hcad := (hlists.entry c hcin).1
  cases hsorted : mm.sortedFound t s r with
  | nil =>
    rw [hsorted] at hcin
    simp at hcin
  | cons e rest =>
    have hfirst := h hmake e (by rw [hsorted]; simp)
    have hefound : e ∈ (mm.scan t s r).found := hperm.mem_iff.mp (by rw [hsorted]; simp)
    rw [hsorted] at hlists hcin
    -- the first entry is one of the best
    have hce : c.key ≤ e.key := by
      rcases List.mem_cons.mp hcin with rfl | hin
      · exact le_refl _
      · exact (List.pairwise_cons.mp hlists.sorted).1 c hin
    have hkey : e.key = c.key := le_antisymm (hmax e hefound) hce
    rw [hkey,find_pick hpick] at hfirst
    have haddr : c.ad.address = e.ad.address := by simpa using hfirst
    have head := (hlists.entry e (mem_cons_self ..)).1
    exact ⟨e,rest,rfl,hs.eq_of_address head hcad haddr.symm⟩

private theorem leavesList_fromScan (hq : Sorts mm.qsort) (hs : Separate s.startdAds)
    (hfirst : mm.BestFirst t s r) :
    LeavesList mm t r s (mm.fromScan t s r).1 (mm.fromScan t s r).2.matchList := by
  have hlists := mm.lists_scan t hs (sortedFound_perm (t := t) (r := r) hq) (sortedFound_sorted hq)
  have hnew {l : MatchList} (h : mm.newMatchList t s r = some l) :
      mm.makesList s r = true ∧ l.entries = (mm.sortedFound t s r).tail ∧
        l.cachedOnlyForStartdRank = s.onlyConsiderStartdRank := by
    unfold newMatchList at h
    split at h
    · rename_i hmake
      obtain rfl := some.inj h
      exact ⟨hmake,rfl,rfl⟩
    · simp at h
  have hbest := foldl_pick_cases (mm.scan t s r).found
  rw [(mm.scan_eq t s r).1,← (mm.scan_eq t s r).2,← (mm.scan_eq t s r).1] at hbest
  unfold fromScan
  dsimp only
  constructor
  · intro hnone l hl
    obtain ⟨_,hentries,honly⟩ := hnew hl
    have hempty : mm.sortedFound t s r = [] := by
      rcases hbest with ⟨hfound,_⟩ | ⟨c,_,hc,_⟩
      · exact (hfound ▸ sortedFound_perm (t := t) (r := r) (s := s) hq).eq_nil
      · rw [hc] at hnone
        simp at hnone
    rw [hentries,honly]
    rw [hempty] at hlists ⊢
    exact hlists
  · intro o ho l hl s' hads ht
    obtain ⟨hmake,hentries,honly⟩ := hnew hl
    rw [hentries,honly]
    obtain ⟨c,hc,rfl⟩ := Option.map_eq_some_iff.mp ho
    obtain ⟨e,rest,hsorted,hsame⟩ := hfirst.head hq hs hmake hc
    rw [hsorted] at hlists ⊢
    exact hlists.handedOut (by rw [hsame]; exact hads) ht

private theorem leavesList_algorithm (hq : Sorts mm.qsort) (hr : r.withinLimits = true)
    (hc : mm.Consistent t r s) (hh : mm.Harmless t s) (hreq : s.request = some r) :
    LeavesList mm t r s (mm.matchmakingAlgorithm t s r).1
      (mm.matchmakingAlgorithm t s r).2.matchList := by
  unfold Harmless at hh
  rw [hreq] at hh
  unfold matchmakingAlgorithm
  rw [if_neg (by simp [hr])]
  cases hml : s.matchList with
  | none =>
    simp only [hml] at hh
    exact leavesList_fromScan hq hc.separate hh
  | some l =>
    simp only [hml] at hh
    dsimp only
    by_cases hu : mm.usable t s r l = true
    · rw [if_pos hu] at hh ⊢
      rcases hc.list l hml with hforeign | hl
      · rw [usable_foreign hforeign] at hu
        simp at hu
      · rw [usable_only hu] at hl
        exact leavesList_fromMatchList hl (usable_only hu) hh
    · rw [if_neg hu] at hh ⊢
      exact leavesList_fromScan hq hc.separate hh

private theorem tighter_matched (offer : Offer) (now : Int) : Tighter s
    (mm.matched t s offer now) := by
  have hw : 0 ≤ offer.weight mm.cfg := getSlotWeight_nonneg mm.cfg offer.toResourceAd
  refine ⟨?_,?_,?_⟩
  · simp only [matched]
    linarith
  · simp only [matched]
    split
    · linarith
    · exact le_refl _
  · simp only [matched]
    linarith

/-- The states between which `negotiate` goes on. -/
def goesOn (mm : Matchmaker) (t : Turn) (s : Negotiation) (e : NegotiateEvent) :
    Option Negotiation :=
  match mm.negotiateStep t s e with
  | .inl _ => none
  | .inr s => some s

variable {e : NegotiateEvent} {s' : Negotiation}

private theorem goesOn_cases (h : goesOn mm t s e = some s') :
    (s.request = none ∧ askForJob t s e = .inr s') ∨
      ∃ r, s.request = some r ∧ mm.findOffer t s r e = .inr s' := by
  unfold goesOn negotiateStep at h
  cases hreq : s.request with
  | none =>
    rw [hreq] at h
    dsimp only at h
    split at h
    · simp at h
    · rename_i hstep
      obtain rfl := some.inj h
      exact .inl ⟨rfl,hstep⟩
  | some r =>
    rw [hreq] at h
    dsimp only at h
    split at h
    · simp at h
    · rename_i hstep
      obtain rfl := some.inj h
      exact .inr ⟨r,rfl,hstep⟩

theorem AsksFor.step (h : AsksFor r s) (he : ∀ r', e = .jobInfo r' → r' = r)
    (hstep : goesOn mm t s e = some s') : AsksFor r s' := by
  intro r' hr'
  rcases goesOn_cases hstep with ⟨-,hask⟩ | ⟨r'',hreq,hfind⟩
  · obtain ⟨r'',rfl,-,rfl⟩ := askForJob_cases hask
    obtain rfl := some.inj hr'
    exact he r'' rfl
  · obtain ⟨-,-,limited,rfl⟩ | ⟨offer,-,⟨now,-,rfl⟩ | ⟨-,rfl⟩⟩ := findOffer_cases hfind
    · simp at hr'
    · simp [matched] at hr'
    · exact h r' (sameLimits_algorithm.request.symm.trans hr')

theorem AsksFor.run {events : List NegotiateEvent}
    (hevents : ∀ e ∈ events, ∀ r', e = .jobInfo r' → r' = r) (h : AsksFor r s)
    (hrun : Lib.run (goesOn mm t) s events = some s') : AsksFor r s' :=
  run_invariant (fun s _ _ (hs : AsksFor r s) he hstep => hs.step he hstep)
    (Along.of_mem hevents s) h hrun

theorem Consistent.askForJob (hc : mm.Consistent t r s)
    (h : Matchmaker.askForJob t s e = .inr s') : mm.Consistent t r s' := by
  obtain ⟨r',rfl,-,rfl⟩ := askForJob_cases h
  refine ⟨hc.separate,?_⟩
  intro l hl
  exact (hc.list l hl).imp_right fun hlists =>
    hlists.tighter rfl ⟨le_refl _,le_refl _,le_refl _⟩

theorem Consistent.findOffer (hq : Sorts mm.qsort) (hr : r.withinLimits = true)
    (hc : mm.Consistent t r s) (hh : mm.Harmless t s) (hreq : s.request = some r)
    (h : mm.findOffer t s r e = .inr s') :
    mm.Consistent t r s' := by
  have hleaves := leavesList_algorithm hq hr hc hh hreq
  have hsame : SameLimits s (mm.matchmakingAlgorithm t s r).2 := sameLimits_algorithm
  have hsep : Separate (mm.matchmakingAlgorithm t s r).2.startdAds := by
    rw [hsame.ads]
    exact hc.separate
  obtain ⟨hnone,-,limited,rfl⟩ | ⟨offer,hsome,⟨now,-,rfl⟩ | ⟨-,rfl⟩⟩ := findOffer_cases h
  · refine ⟨hsep,?_⟩
    intro l hl
    have hlists := hleaves.kept hnone l hl
    exact .inr (hlists.tighter hsame.ads ⟨hsame.used.ge,hsame.unclaimed.ge,hsame.pie.le⟩)
  · refine ⟨hsep.remove offer,?_⟩
    intro l hl
    have hused : Tighter (mm.matchmakingAlgorithm t s r).2
        (mm.matched t (mm.matchmakingAlgorithm t s r).2 offer now) := tighter_matched offer now
    refine .inr (hleaves.handedOut offer hsome l hl _ ?_ (hsame.tighter.trans hused))
    rw [← hsame.ads]
    rfl
  · refine ⟨hsep.remove offer,?_⟩
    intro l hl
    refine .inr (hleaves.handedOut offer hsome l hl _ ?_ ?_)
    · rw [← hsame.ads]
    · exact ⟨hsame.used.ge,hsame.unclaimed.ge,hsame.pie.le⟩

theorem Consistent.step (hq : Sorts mm.qsort) (hr : r.withinLimits = true)
    (hc : mm.Consistent t r s) (hreq : AsksFor r s) (hh : mm.Harmless t s)
    (h : goesOn mm t s e = some s') : mm.Consistent t r s' := by
  rcases goesOn_cases h with ⟨-,hask⟩ | ⟨r',hr',hfind⟩
  · exact hc.askForJob hask
  · obtain rfl := hreq r' hr'
    exact hc.findOffer hq hr hh hr' hfind

/-- The answer of a full scan. -/
def uncached (mm : Matchmaker) (t : Turn) (s : Negotiation) (r : JobRequest) : Option Offer :=
  (({ mm with wantMatchlistCaching := false } : Matchmaker).matchmakingAlgorithm t
    { s with matchList := none } r).1

private theorem uncached_eq (hr : r.withinLimits = true) :
    uncached mm t s r = (mm.scan t s r).bestSoFar.map AdListEntry.ad := by
  unfold uncached matchmakingAlgorithm
  rw [if_neg (by simp [hr])]
  rfl

private theorem asGood_algorithm (hr : r.withinLimits = true) (hc : mm.Consistent t r s)
    (hh : mm.Harmless t s) (hreq : s.request = some r) :
    mm.AsGood t s r (mm.matchmakingAlgorithm t s r).1 (uncached mm t s r) := by
  unfold Harmless at hh
  rw [hreq] at hh
  rw [uncached_eq hr]
  unfold matchmakingAlgorithm
  rw [if_neg (by simp [hr])]
  cases hml : s.matchList with
  | none => exact mm.asGood_scan t s r
  | some l =>
    simp only [hml] at hh
    dsimp only
    by_cases hu : mm.usable t s r l = true
    · rw [if_pos hu] at hh ⊢
      rcases hc.list l hml with hforeign | hl
      · rw [usable_foreign hforeign] at hu
        simp at hu
      · rw [usable_only hu] at hl
        exact mm.asGood_fromMatchList t hl hh
    · rw [if_neg hu]
      exact mm.asGood_scan t s r

/-- In a negotiation for jobs that are all alike, whose calls are harmless, every call gives an
offer as good as without the match list. -/
theorem matchList_transparent (mm : Matchmaker) (t : Turn) (hq : Sorts mm.qsort) (r : JobRequest)
    (hr : r.withinLimits = true) (accountant : Accountant) (ads : List Offer)
    (hads : Separate ads) (list : Option MatchList) (hlist : ∀ l, list = some l → Foreign t l)
    (rej : Nat) (pieLeft : ℚ) (events : List NegotiateEvent)
    (hevents : ∀ e ∈ events, ∀ r', e = .jobInfo r' → r' = r) {s : Negotiation}
    (hrun : run (goesOn mm t) (beginNegotiate accountant ads list rej pieLeft) events = some s)
    (hok : Along (goesOn mm t) (fun s _ => mm.Harmless t s)
      (beginNegotiate accountant ads list rej pieLeft) events)
    (hh : mm.Harmless t s) (hreq : s.request = some r) :
    mm.AsGood t s r (mm.matchmakingAlgorithm t s r).1 (uncached mm t s r) := by
  let Inv (s : Negotiation) : Prop := mm.Consistent t r s ∧ AsksFor r s
  have h0 : Inv (beginNegotiate accountant ads list rej pieLeft) :=
    ⟨⟨hads,fun l hl => .inl (hlist l hl)⟩,by simp [AsksFor,beginNegotiate]⟩
  have hstep (s : Negotiation) (e : NegotiateEvent) (s' : Negotiation) (hs : Inv s)
      (hok : mm.Harmless t s ∧ ∀ r', e = .jobInfo r' → r' = r) (h : goesOn mm t s e = some s') :
      Inv s' :=
    ⟨hs.1.step hq hr hs.2 hok.1 h,hs.2.step hok.2 h⟩
  have hinv : Inv s := run_invariant hstep (hok.and (Along.of_mem hevents _)) h0 hrun
  exact asGood_algorithm hr hinv.1 hh hreq

instance (mm : Matchmaker) (t : Turn) (s : Negotiation) (e : AdListEntry) :
    Decidable (mm.EntryAgrees t s e) :=
  match h : e.preemptStateValue with
  | .rankPreemption =>
    decidable_of_iff
      (submitterLimitPermits mm.cfg e.ad s.limitUsed t.submitterLimit s.pieLeft = true ∨
        submitterLimitPermits mm.cfg e.ad s.limitUsedUnclaimed t.submitterLimitUnclaimed
          s.pieLeft = true) (by simp only [EntryAgrees,h])
  | .prioPreemption =>
    decidable_of_iff
      (submitterLimitPermits mm.cfg e.ad s.limitUsedUnclaimed t.submitterLimitUnclaimed
          s.pieLeft = true →
        submitterLimitPermits mm.cfg e.ad s.limitUsed t.submitterLimit s.pieLeft = true)
      (by simp only [EntryAgrees,h])
  | .noPreemption => .isTrue (by simp only [EntryAgrees,h])

instance AgreesUpTo.instDecidable (mm : Matchmaker) (t : Turn) (s : Negotiation) :
    ∀ es, Decidable (mm.AgreesUpTo t s es)
  | [] => .isTrue trivial
  | e :: es =>
    have := AgreesUpTo.instDecidable mm t s es
    inferInstanceAs (Decidable (mm.EntryAgrees t s e ∧
      (mm.cachePermits t s e = false → mm.AgreesUpTo t s es)))

instance (mm : Matchmaker) (t : Turn) (s : Negotiation) (r : JobRequest) :
    Decidable (mm.BestFirst t s r) :=
  inferInstanceAs (Decidable (mm.makesList s r = true → ∀ e ∈ (mm.sortedFound t s r).head?,
    ((s.startdAds.filterMap (mm.candidate t s r)).find? fun c => c.key = e.key).map
      (fun c => c.ad.address) = some e.ad.address))

instance (mm : Matchmaker) (t : Turn) (s : Negotiation) : Decidable (mm.Harmless t s) :=
  match h : s.request, h' : s.matchList with
  | none, _ => .isTrue (by simp only [Harmless,h])
  | some r, none => decidable_of_iff (mm.BestFirst t s r) (by simp only [Harmless,h,h'])
  | some r, some l =>
    decidable_of_iff
      (if mm.usable t s r l then mm.AgreesUpTo t s l.entries else mm.BestFirst t s r)
      (by simp only [Harmless,h,h'])

private theorem sorts_insertionSort :
    Sorts fun es => es.insertionSort fun a b => sortCompare a b ≤ 0 where
  perm es := perm_insertionSort _ es
  sorted es := by
    have htotal : Std.Total fun a b => sortCompare a b ≤ 0 := by
      refine ⟨fun a b => ?_⟩
      simp only [sortCompare_le_iff]
      exact le_total _ _
    have htrans : IsTrans AdListEntry fun a b => sortCompare a b ≤ 0 := by
      refine ⟨fun a b c hab hbc => ?_⟩
      simp only [sortCompare_le_iff] at hab hbc ⊢
      exact hbc.trans hab
    exact pairwise_insertionSort _ es

def plainMatchmaker : Matchmaker where
  cfg := ⟨.node (cstr "<none>") [],false,false,some⟩
  priority := fun _ => 1
  priorityDelta := 0
  considerPreemption := true
  wantMatchlistCaching := true
  preemptionReqUnstable := false
  preemptionRankUnstable := false
  qsort := fun es => es.insertionSort fun a b => sortCompare a b ≤ 0

def offer (address : Nat) (name : CString) (remoteUser : Option CString) : Offer where
  name := name
  startdIpAddr := some (cstr "<10.0.0.1:9618>")
  slotWeight := none
  matchedConcurrencyLimits := none
  state := none
  accountingGroup := none
  remoteUser := remoteUser
  activity := none
  address := address
  preemptingAccountingGroup := none
  preemptingUser := none

def preferredJob : JobRequest where
  autoCluster := 1
  withinLimits := true
  eval := fun o => ⟨true,true,true,true,0,o.address,0,0⟩

def turn (submitterLimit submitterLimitUnclaimed : ℚ) : Turn where
  scheddName := cstr "alice"
  scheddAddr := cstr "<10.0.0.2:9618>"
  priority := 1
  submitterLimit := submitterLimit
  submitterLimitUnclaimed := submitterLimitUnclaimed
  ignoreScheddLimit := true

/-- Three machines that nobody uses: one match, one bad match, and the last from the list. -/
theorem matchList_transparent_unclaimed :
    let ads := [offer 1 (cstr "slot1") none,offer 2 (cstr "slot2") none,
      offer 3 (cstr "slot3") none]
    let events := [.jobInfo preferredJob,.goodMatch 0,.jobInfo preferredJob,.badMatch]
    ∃ s, run (goesOn plainMatchmaker (turn 3 3))
        (beginNegotiate (Accountant.start plainMatchmaker.cfg 0) ads none 0 3) events = some s ∧
      plainMatchmaker.AsGood (turn 3 3) s preferredJob
        (plainMatchmaker.matchmakingAlgorithm (turn 3 3) s preferredJob).1
        (uncached plainMatchmaker (turn 3 3) s preferredJob) := by
  intro ads events
  have hevents : ∀ e ∈ events, ∀ r', e = .jobInfo r' → r' = preferredJob := by
    simp [events]
  have hok : Along (goesOn plainMatchmaker (turn 3 3))
      (fun s _ => plainMatchmaker.Harmless (turn 3 3) s)
      (beginNegotiate (Accountant.start plainMatchmaker.cfg 0) ads none 0 3) events := by
    decide +kernel
  obtain ⟨s,hrun,hs⟩ := run_exists (goesOn plainMatchmaker (turn 3 3))
    (beginNegotiate (Accountant.start plainMatchmaker.cfg 0) ads none 0 3) events
    (fun s => decide (plainMatchmaker.Harmless (turn 3 3) s) && s.request.isSome)
    (by decide +kernel)
  simp only [Bool.and_eq_true,decide_eq_true_eq] at hs
  obtain ⟨r,hr⟩ := Option.isSome_iff_exists.mp hs.2
  obtain rfl : r = preferredJob :=
    AsksFor.run hevents (by simp [AsksFor,beginNegotiate]) hrun r hr
  exact ⟨s,hrun,matchList_transparent plainMatchmaker (turn 3 3) sorts_insertionSort preferredJob
    rfl _ ads (by simp [ads,Separate,offer]) none (by simp) 0 3 events hevents hrun hok hs.1 hr⟩

/-- A machine that prefers the job is refused by the list and found by the scan. -/
theorem matchList_refuses_preferred :
    let ads := [offer 1 (cstr "slot1") (some (cstr "bob")),
      offer 2 (cstr "slot2") (some (cstr "bob")),offer 3 (cstr "slot3") (some (cstr "bob"))]
    let events := [.jobInfo preferredJob,.goodMatch 0,.jobInfo preferredJob,.goodMatch 0,
      .jobInfo preferredJob]
    ∃ s, run (goesOn plainMatchmaker (turn 1 0))
        (beginNegotiate (Accountant.start plainMatchmaker.cfg 0) ads none 0 1) events = some s ∧
      s.request = some preferredJob ∧
      (plainMatchmaker.matchmakingAlgorithm (turn 1 0) s preferredJob).1.map Offer.address = none ∧
      (uncached plainMatchmaker (turn 1 0) s preferredJob).map Offer.address = some 1 := by
  intro ads events
  obtain ⟨s,hrun,hs⟩ := run_exists (goesOn plainMatchmaker (turn 1 0))
    (beginNegotiate (Accountant.start plainMatchmaker.cfg 0) ads none 0 1) events
    (fun s => s.request.isSome &&
      (plainMatchmaker.matchmakingAlgorithm (turn 1 0) s preferredJob).1.map Offer.address = none &&
      (uncached plainMatchmaker (turn 1 0) s preferredJob).map Offer.address = some 1)
    (by decide +kernel)
  simp only [Bool.and_eq_true,decide_eq_true_eq] at hs
  obtain ⟨r,hr⟩ := Option.isSome_iff_exists.mp hs.1.1
  obtain rfl : r = preferredJob :=
    AsksFor.run (by simp [events]) (by simp [AsksFor,beginNegotiate]) hrun r hr
  exact ⟨s,hrun,hr,hs.1.2,hs.2⟩

end Matchmaker

end Condor.Negotiator
