import Condor.Negotiator.Accountant

/-!
# Negotiation with one submitter

`negotiate` asks a schedd for jobs and hands them machines.
-/

namespace Condor.Negotiator

/-- The ad of a machine, with the address at which the negotiator keeps it. -/
structure Offer extends ResourceAd where
  address : Nat
  preemptingAccountingGroup : Option CString
  preemptingUser : Option CString

namespace Offer

/-- The user who has to be preempted; empty for a machine that nobody uses. -/
def occupant (o : Offer) : CString :=
  match o.preemptingAccountingGroup with
  | some u => u
  | none =>
    match o.preemptingUser with
    | some u => u
    | none =>
      match o.accountingGroup with
      | some u => u
      | none => o.remoteUser.getD []

def weight (cfg : Config) (o : Offer) : ℚ := getSlotWeight cfg o.toResourceAd

end Offer

/-- What the expressions of a job and a machine evaluate to: Requirements, rank conditions,
PREEMPTION_REQUIREMENTS (true if not set) and ranks. -/
structure Evaluation where
  isAMatch : Bool
  rankCondStd : Bool
  preemptionReq : Bool
  rankCondPrioPreempt : Bool
  preJobRank : ℚ
  rank : ℚ
  postJobRank : ℚ
  preemptionRank : ℚ

structure JobRequest where
  autoCluster : Int
  withinLimits : Bool
  eval : Offer → Evaluation

inductive PreemptState
  | prioPreemption | rankPreemption | noPreemption
  deriving DecidableEq

namespace PreemptState

def toNat : PreemptState → Nat
  | prioPreemption => 0
  | rankPreemption => 1
  | noPreemption => 2

end PreemptState

structure AdListEntry where
  ad : Offer
  rankValue : ℚ
  preJobRankValue : ℚ
  postJobRankValue : ℚ
  preemptRankValue : ℚ
  preemptStateValue : PreemptState

/-- The entries from the head of the list on, and what the list was made for. -/
structure MatchList where
  entries : List AdListEntry
  cachedAutoCluster : Int
  cachedPrio : ℚ
  cachedOnlyForStartdRank : Bool
  cachedName : CString
  cachedAddr : CString
  rejForSubmitterLimit : Nat

structure Matchmaker where
  cfg : Config
  /-- `GetPriority` of the accountant. -/
  priority : CString → ℚ
  priorityDelta : ℚ
  considerPreemption : Bool
  wantMatchlistCaching : Bool
  preemptionReqUnstable : Bool
  preemptionRankUnstable : Bool
  qsort : List AdListEntry → List AdListEntry

/-- The arguments of `negotiate`. -/
structure Turn where
  scheddName : CString
  scheddAddr : CString
  priority : ℚ
  submitterLimit : ℚ
  submitterLimitUnclaimed : ℚ
  ignoreScheddLimit : Bool

/-- The state of the loop of `negotiate`, with the job that a machine is sought for. -/
structure Negotiation where
  accountant : Accountant
  startdAds : List Offer
  matchList : Option MatchList
  rejForSubmitterLimit : Nat
  limitUsed : ℚ
  limitUsedUnclaimed : ℚ
  pieLeft : ℚ
  onlyConsiderStartdRank : Bool
  limitedBySubmitterLimit : Bool
  request : Option JobRequest

def fltMax : ℚ := (2 - 1 / 2 ^ 23) * 2 ^ 127

def submitterLimitPermits (cfg : Config) (candidate : Offer) (used allowed pieLeft : ℚ) : Bool :=
  let slotWeight := candidate.weight cfg
  used + slotWeight ≤ allowed ||
    -- one machine a spin is rounded up
    (used ≤ 0 && 0 < allowed && 99 / 100 * slotWeight ≤ pieLeft)

def newBestFound (candidate best : AdListEntry) : Bool :=
  if candidate.preJobRankValue < best.preJobRankValue then false
  else if best.preJobRankValue < candidate.preJobRankValue then true
  else if candidate.rankValue < best.rankValue then false
  else if best.rankValue < candidate.rankValue then true
  else if candidate.postJobRankValue < best.postJobRankValue then false
  else if best.postJobRankValue < candidate.postJobRankValue then true
  else if candidate.preemptStateValue.toNat < best.preemptStateValue.toNat then false
  else if best.preemptStateValue.toNat < candidate.preemptStateValue.toNat then true
  else if candidate.preemptRankValue < best.preemptRankValue then false
  else if best.preemptRankValue < candidate.preemptRankValue then true
  else false

/-- The comparison for `qsort`, with its own copy of the chain. -/
def sortCompare (elem1 elem2 : AdListEntry) : Int :=
  if elem1.rankValue = elem2.rankValue ∧ elem1.preJobRankValue = elem2.preJobRankValue ∧
      elem1.postJobRankValue = elem2.postJobRankValue ∧
      elem1.preemptRankValue = elem2.preemptRankValue ∧
      elem1.preemptStateValue = elem2.preemptStateValue then 0
  else if newBestFound elem1 elem2 then -1
  else 1

namespace Matchmaker

variable (mm : Matchmaker) (t : Turn)

/-- The preemption state of a candidate, `none` if the offer is passed over for a reason other
than the limits of the submitter. -/
def candidateState (onlyForStartdRank : Bool) (ev : Evaluation) (candidate : Offer) :
    Option PreemptState :=
  if !ev.isAMatch then none
  else if onlyForStartdRank then
    if candidate.occupant = [] then none
    else if !ev.rankCondStd then none
    else some .rankPreemption
  else if candidate.occupant ≠ [] then
    if ev.rankCondStd then some .rankPreemption
    else if t.priority + mm.priorityDelta ≤ mm.priority candidate.occupant then
      if !ev.preemptionReq then none
      else if !ev.rankCondPrioPreempt then none
      else some .prioPreemption
    else none
  else some .noPreemption

/-- The limit that the scan applies; a machine that prefers the job is given regardless. -/
def scanPermits (s : Negotiation) (state : PreemptState) (candidate : Offer) : Bool :=
  match state with
  | .prioPreemption =>
    submitterLimitPermits mm.cfg candidate s.limitUsed t.submitterLimit s.pieLeft
  | .noPreemption =>
    submitterLimitPermits mm.cfg candidate s.limitUsedUnclaimed t.submitterLimitUnclaimed
      s.pieLeft
  | .rankPreemption => true

def adListEntry (ev : Evaluation) (candidate : Offer) (state : PreemptState) : AdListEntry where
  ad := candidate
  rankValue := ev.rank
  preJobRankValue := ev.preJobRank
  postJobRankValue := ev.postJobRank
  preemptRankValue := if state = .noPreemption then -fltMax else ev.preemptionRank
  preemptStateValue := state

structure Scan where
  bestSoFar : Option AdListEntry
  found : List AdListEntry
  rejForSubmitterLimit : Nat

def scanOffer (s : Negotiation) (r : JobRequest) (scan : Scan) (candidate : Offer) : Scan :=
  match mm.candidateState t s.onlyConsiderStartdRank (r.eval candidate) candidate with
  | none => scan
  | some state =>
    if !mm.scanPermits t s state candidate then
      { scan with rejForSubmitterLimit := scan.rejForSubmitterLimit + 1 }
    else
      let entry := adListEntry (r.eval candidate) candidate state
      { scan with
        found := scan.found ++ [entry]
        bestSoFar :=
          match scan.bestSoFar with
          | none => some entry
          | some best => some (if newBestFound entry best then entry else best) }

def scan (s : Negotiation) (r : JobRequest) : Scan :=
  s.startdAds.foldl (mm.scanOffer t s r) ⟨none,[],0⟩

def cachePermits (s : Negotiation) (e : AdListEntry) : Bool :=
  (e.preemptStateValue ≠ .noPreemption &&
    submitterLimitPermits mm.cfg e.ad s.limitUsed t.submitterLimit s.pieLeft) ||
  submitterLimitPermits mm.cfg e.ad s.limitUsedUnclaimed t.submitterLimitUnclaimed s.pieLeft

def cacheStillValid (r : JobRequest) (entries : List AdListEntry) : Bool :=
  if !mm.preemptionReqUnstable && !mm.preemptionRankUnstable then true
  else
    match entries with
    | [] => !mm.preemptionReqUnstable
    | e :: _ =>
      !(mm.preemptionReqUnstable && e.preemptStateValue = .prioPreemption &&
        !(r.eval e.ad).preemptionReq) &&
      !(mm.preemptionRankUnstable && e.preemptStateValue ≠ .noPreemption &&
        (r.eval e.ad).preemptionRank ≠ e.preemptRankValue)

def usable (s : Negotiation) (r : JobRequest) (l : MatchList) : Bool :=
  l.cachedAutoCluster ≠ -1 && l.cachedAutoCluster = r.autoCluster && l.cachedPrio = t.priority &&
    l.cachedOnlyForStartdRank = s.onlyConsiderStartdRank && l.cachedName = t.scheddName &&
    l.cachedAddr = t.scheddAddr && mm.cacheStillValid r l.entries

/-- Pop the entries up to the first that the limits permit: it, the entries behind it and the
number of those passed over. -/
def popPermitted (s : Negotiation) : List AdListEntry → Option AdListEntry × List AdListEntry × Nat
  | [] => (none,[],0)
  | e :: es =>
    if mm.cachePermits t s e then (some e,es,0)
    else
      let (found,rest,rejected) := popPermitted s es
      (found,rest,rejected + 1)

def fromMatchList (s : Negotiation) (l : MatchList) : Option Offer × Negotiation :=
  let (found,rest,rejected) := mm.popPermitted t s l.entries
  let l := { l with
    entries := rest, rejForSubmitterLimit := l.rejForSubmitterLimit + rejected }
  match found with
  | some e => (some e.ad,{ s with matchList := some l })
  | none =>
    (none,{ s with matchList := some l, rejForSubmitterLimit := l.rejForSubmitterLimit })

def newMatchList (s : Negotiation) (r : JobRequest) : Option MatchList :=
  if mm.wantMatchlistCaching && r.autoCluster ≠ -1 && 0 < s.startdAds.length then
    let scan := mm.scan t s r
    some {
      entries := (if 1 < scan.found.length then mm.qsort scan.found else scan.found).tail
      cachedAutoCluster := r.autoCluster
      cachedPrio := t.priority
      cachedOnlyForStartdRank := s.onlyConsiderStartdRank
      cachedName := t.scheddName
      cachedAddr := t.scheddAddr
      rejForSubmitterLimit := scan.rejForSubmitterLimit }
  else none

def fromScan (s : Negotiation) (r : JobRequest) : Option Offer × Negotiation :=
  let scan := mm.scan t s r
  (scan.bestSoFar.map AdListEntry.ad,
    { s with
      matchList := mm.newMatchList t s r
      rejForSubmitterLimit := scan.rejForSubmitterLimit })

def matchmakingAlgorithm (s : Negotiation) (r : JobRequest) : Option Offer × Negotiation :=
  if !r.withinLimits then (none,s)
  else
    match s.matchList with
    | some l => if mm.usable t s r l then mm.fromMatchList t s l else mm.fromScan t s r
    | none => mm.fromScan t s r

end Matchmaker

inductive NegotiateEvent
  /-- MAX_TIME_PER_PIESPIN is over when the next job is asked for. -/
  | timeUp
  | jobInfo (r : JobRequest)
  | noMoreJobs
  | rejected
  | goodMatch (now : Int)
  | badMatch
  /-- The schedd does not answer, or not as expected. -/
  | failed

inductive NegotiateResult
  | resume | done | error
  deriving DecidableEq

/-- `startdAds.Remove(offer)`. -/
def removeOffer (offers : List Offer) (o : Offer) : List Offer :=
  offers.filter fun x => x.address ≠ o.address

namespace Matchmaker

variable (mm : Matchmaker) (t : Turn)

def matched (s : Negotiation) (offer : Offer) (now : Int) : Negotiation :=
  let slotWeight := offer.weight mm.cfg
  { s with
    accountant := s.accountant.addMatch mm.cfg t.scheddName offer.toResourceAd now
    startdAds := removeOffer s.startdAds offer
    limitUsed := s.limitUsed + slotWeight
    limitUsedUnclaimed :=
      if offer.occupant = [] then s.limitUsedUnclaimed + slotWeight else s.limitUsedUnclaimed
    pieLeft := s.pieLeft - slotWeight
    request := none }

def askForJob (s : Negotiation) (e : NegotiateEvent) :
    NegotiateResult × Negotiation ⊕ Negotiation :=
  match e with
  | .timeUp => .inl (.resume,s)
  | _ =>
    if t.submitterLimit ≤ s.limitUsed ∧ !t.ignoreScheddLimit then .inl (.resume,s)
    else
      let s := { s with onlyConsiderStartdRank := t.submitterLimit ≤ s.limitUsed }
      match e with
      | .noMoreJobs =>
        if t.submitterLimit ≤ s.limitUsed ∨ s.limitedBySubmitterLimit then .inl (.resume,s)
        else .inl (.done,s)
      | .jobInfo r => .inr { s with request := some r }
      | _ => .inl (.error,s)

def findOffer (s : Negotiation) (r : JobRequest) (e : NegotiateEvent) :
    NegotiateResult × Negotiation ⊕ Negotiation :=
  match mm.matchmakingAlgorithm t s r with
  | (none,s) =>
    let s := if 0 < s.rejForSubmitterLimit then { s with limitedBySubmitterLimit := true } else s
    match e with
    | .rejected =>
      if 0 < s.rejForSubmitterLimit ∧ !mm.considerPreemption ∧ !mm.cfg.useSlotWeights then
        .inl (.resume,s)
      else .inr { s with request := none }
    | _ => .inl (.error,s)
  | (some offer,s) =>
    match e with
    | .goodMatch now => .inr (mm.matched t s offer now)
    | .badMatch => .inr { s with startdAds := removeOffer s.startdAds offer }
    | _ => .inl (.error,s)

def negotiateStep (s : Negotiation) (e : NegotiateEvent) :
    NegotiateResult × Negotiation ⊕ Negotiation :=
  match s.request with
  | none => askForJob t s e
  | some r => mm.findOffer t s r e

/-- The state at the start of `negotiate`. -/
def beginNegotiate (accountant : Accountant) (startdAds : List Offer)
    (matchList : Option MatchList) (rejForSubmitterLimit : Nat) (pieLeft : ℚ) : Negotiation where
  accountant := accountant
  startdAds := startdAds
  matchList := matchList
  rejForSubmitterLimit := rejForSubmitterLimit
  limitUsed := 0
  limitUsedUnclaimed := 0
  pieLeft := pieLeft
  onlyConsiderStartdRank := false
  limitedBySubmitterLimit := false
  request := none

variable {mm t} {s s' : Negotiation} {e : NegotiateEvent}

theorem askForJob_cases (h : askForJob t s e = .inr s') :
    ∃ r, e = .jobInfo r ∧ (t.submitterLimit ≤ s.limitUsed → t.ignoreScheddLimit = true) ∧
      s' = { s with
        onlyConsiderStartdRank := t.submitterLimit ≤ s.limitUsed
        request := some r } := by
  cases e with
  | jobInfo r =>
    unfold askForJob at h
    dsimp only at h
    split at h
    · simp at h
    · rename_i hlimit
      refine ⟨r,rfl,?_,(Sum.inr.inj h).symm⟩
      intro hle
      simpa [hle] using hlimit
  | noMoreJobs =>
    unfold askForJob at h
    dsimp only at h
    split at h
    · simp at h
    · split at h <;> simp at h
  | timeUp => simp [askForJob] at h
  | rejected | goodMatch _ | badMatch | failed =>
    unfold askForJob at h
    dsimp only at h
    split at h <;> simp at h

theorem findOffer_cases {r : JobRequest} (h : mm.findOffer t s r e = .inr s') :
    ((mm.matchmakingAlgorithm t s r).1 = none ∧ e = .rejected ∧
      ∃ limited, s' = { (mm.matchmakingAlgorithm t s r).2 with
        limitedBySubmitterLimit := limited, request := none }) ∨
    ∃ offer, (mm.matchmakingAlgorithm t s r).1 = some offer ∧
      ((∃ now, e = .goodMatch now ∧
          s' = mm.matched t (mm.matchmakingAlgorithm t s r).2 offer now) ∨
        e = .badMatch ∧ s' = { (mm.matchmakingAlgorithm t s r).2 with
          startdAds := removeOffer (mm.matchmakingAlgorithm t s r).2.startdAds offer }) := by
  unfold findOffer at h
  generalize mm.matchmakingAlgorithm t s r = answer at h ⊢
  obtain ⟨offer,s1⟩ := answer
  cases offer with
  | none =>
    cases e with
    | rejected =>
      dsimp only at h
      refine .inl ⟨rfl,rfl,?_⟩
      by_cases hrej : 0 < s1.rejForSubmitterLimit
      · rw [if_pos hrej] at h
        split at h
        · simp at h
        · exact ⟨true,(Sum.inr.inj h).symm⟩
      · rw [if_neg hrej] at h
        split at h
        · simp at h
        · exact ⟨s1.limitedBySubmitterLimit,(Sum.inr.inj h).symm⟩
    | timeUp | jobInfo _ | noMoreJobs | goodMatch _ | badMatch | failed => simp at h
  | some offer =>
    refine .inr ⟨offer,rfl,?_⟩
    cases e with
    | goodMatch now => exact .inl ⟨now,rfl,(Sum.inr.inj h).symm⟩
    | badMatch => exact .inr ⟨rfl,(Sum.inr.inj h).symm⟩
    | timeUp | jobInfo _ | noMoreJobs | rejected | failed => simp at h

end Matchmaker

end Condor.Negotiator
