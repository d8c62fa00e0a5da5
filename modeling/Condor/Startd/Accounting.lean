import Mathlib.Algebra.BigOperators.Fin
import Condor.Utils.CString
import Condor.Startd.ResState

/-!
# The time that a slot spends in its states

`ResState::change` adds the time since the last change to the total of the pair that is left.
-/

namespace Condor.Startd

open Condor.Lib Function

/-- The `m_time_*` totals, each with the attribute that it is published as. -/
inductive History
  | ownerIdle
  | unclaimedIdle
  | unclaimedBenchmarking
  | matchedIdle
  | claimedIdle
  | claimedBusy
  | claimedSuspended
  | claimedRetiring
  | preemptingVacating
  | preemptingKilling
  | drainedIdle
  | drainedRetiring
  | backfillIdle
  | backfillBusy
  | backfillKilling
  deriving DecidableEq

instance : Fintype History where
  elems := {.ownerIdle,.unclaimedIdle,.unclaimedBenchmarking,.matchedIdle,.claimedIdle,.claimedBusy,
    .claimedSuspended,.claimedRetiring,.preemptingVacating,.preemptingKilling,.drainedIdle,
    .drainedRetiring,.backfillIdle,.backfillBusy,.backfillKilling}
  complete h := by cases h <;> decide

/-- `getHistoryInfo`, none where it EXCEPTs. -/
def getHistoryInfo : State → Activity → Option History
  | .owner, _ => some .ownerIdle
  | .unclaimed, .idle => some .unclaimedIdle
  | .unclaimed, .benchmarking => some .unclaimedBenchmarking
  | .matched, _ => some .matchedIdle
  | .claimed, .idle => some .claimedIdle
  | .claimed, .busy => some .claimedBusy
  | .claimed, .suspended => some .claimedSuspended
  | .claimed, .retiring => some .claimedRetiring
  | .preempting, .vacating => some .preemptingVacating
  | .preempting, .killing => some .preemptingKilling
  | .drained, .idle => some .drainedIdle
  | .drained, .retiring => some .drainedRetiring
  | .backfill, .idle => some .backfillIdle
  | .backfill, .busy => some .backfillBusy
  | .backfill, .killing => some .backfillKilling
  | _, _ => none

structure ResState where
  state : State := .owner
  /-- `r_destination`, none for no_state. -/
  destination : Option State := none
  act : Activity := .idle
  actWasBenchmark : Bool := false
  stime : Int
  atime : Int
  time : History → Int := fun _ => 0

def ResState.updateHistoryTotals (r : ResState) (now : Int) : Option ResState :=
  (getHistoryInfo r.state r.act).map fun h =>
    { r with time := update r.time h (r.time h + (now - r.atime)) }

/-- What `change` sets after the totals, with its flags from before `leave_action`. -/
def ResState.moved (r : ResState) (state : State) (act : Activity) (statechange actchange : Bool)
    (now : Int) : ResState :=
  let r :=
    if statechange then
      { r with
        stime := now
        atime := now
        state := state
        destination := if r.destination = some state then none else r.destination }
    else r
  if actchange then { r with actWasBenchmark := r.act = .benchmarking, act := act, atime := now }
  else r

/-- A call of `change` that has not returned, inside `leave_action` or inside `enter_action`. -/
inductive Pending
  | leaving (state : State) (act : Activity) (statechange actchange : Bool)
  | entering

structure Changing where
  resState : ResState
  calls : List Pending := []
  clock : Int

inductive Action
  | change (state : State) (act : Activity)
  /-- `leave_action` returns; where it returns FALSE, the clock is read. -/
  | leaveReturns (result : Bool) (now : Int)
  /-- `enter_action` returns. The policy that `change` evaluates afterwards may call it again, and
  then `change` returns. -/
  | enterReturns
  | setDestination (destination : State)

namespace Changing

def construct (now : Int) : Changing where
  resState := { stime := now, atime := now }
  clock := now

def step (m : Changing) : Action → Option Changing
  | .change state act =>
    let r := m.resState
    if r.state = state ∧ r.act = act then some m
    else some { m with calls := .leaving state act (r.state ≠ state) (r.act ≠ act) :: m.calls }
  | .leaveReturns result now =>
    match m.calls with
    | .leaving state act statechange actchange :: calls =>
      if result then some { m with calls := calls }
      else if now < m.clock then none
      else
        -- the reading is kept in an int
        (m.resState.updateHistoryTotals (toInt now)).map fun r =>
          ⟨r.moved state act statechange actchange (toInt now),.entering :: calls,now⟩
    | _ => none
  | .enterReturns =>
    match m.calls with
    | .entering :: calls => some { m with calls := calls }
    | _ => none
  | .setDestination destination =>
    some { m with resState := { m.resState with destination := some destination } }

/-- A call of `change` that goes on changes the state or the activity. -/
def Flagged (m : Changing) : Prop :=
  ∀ state act statechange actchange, .leaving state act statechange actchange ∈ m.calls →
    statechange = true ∨ actchange = true

def Accounted (start : Int) (m : Changing) : Prop :=
  ∀ now, m.clock ≤ now →
    (∑ h, m.resState.time h) + (now - m.resState.atime) = now - start ∧
      m.resState.stime ≤ m.resState.atime ∧ m.resState.atime ≤ now

/-- No time goes down, and together they are the time since the start. -/
def StaysAccounted (start : Int) (m : Changing) (a : Action) : Prop :=
  ∀ m', m.step a = some m' →
    (∀ h, m.resState.time h ≤ m'.resState.time h) ∧ m'.Accounted start

def FitsInt (m : Changing) : Action → Prop
  | .leaveReturns false now => m.resState.atime ≤ toInt now ∧ toInt now ≤ now
  | _ => True

variable {m m' : Changing} {start : Int} {a : Action}

structure Same (m m' : Changing) : Prop where
  time : m'.resState.time = m.resState.time
  stime : m'.resState.stime = m.resState.stime
  atime : m'.resState.atime = m.resState.atime
  clock : m'.clock = m.clock

structure Charged (m m' : Changing) (now : Int) : Prop where
  le : m.clock ≤ now
  clock : m'.clock = now
  time : ∃ h, m'.resState.time =
    update m.resState.time h (m.resState.time h + (toInt now - m.resState.atime))
  atime : m'.resState.atime = toInt now
  stime : m'.resState.stime = toInt now ∨ m'.resState.stime = m.resState.stime

private theorem flagged_construct (now : Int) : (construct now).Flagged := by
  simp [Flagged,construct]

private theorem moved_atime {r : ResState} {state : State} {act : Activity}
    {statechange actchange : Bool}
    {now : Int} (h : statechange = true ∨ actchange = true) :
    (r.moved state act statechange actchange now).atime = now := by
  unfold ResState.moved
  cases statechange <;> cases actchange <;> simp_all

private theorem moved_stime (r : ResState) (state : State) (act : Activity)
    (statechange actchange : Bool)
    (now : Int) : (r.moved state act statechange actchange now).stime = now ∨
      (r.moved state act statechange actchange now).stime = r.stime := by
  unfold ResState.moved
  cases statechange <;> cases actchange <;> simp

private theorem moved_time (r : ResState) (state : State) (act : Activity)
    (statechange actchange : Bool)
    (now : Int) : (r.moved state act statechange actchange now).time = r.time := by
  unfold ResState.moved
  cases statechange <;> cases actchange <;> rfl

private theorem step_spec (hf : m.Flagged) (h : m.step a = some m') :
    m'.Flagged ∧ (Same m m' ∧ (∀ now, a ≠ .leaveReturns false now) ∨
      ∃ now, a = .leaveReturns false now ∧ Charged m m' now) := by
  cases a with
  | change state act =>
    simp only [step] at h
    split at h
    next =>
      cases h
      exact ⟨hf,.inl ⟨⟨rfl,rfl,rfl,rfl⟩,by simp⟩⟩
    next hne =>
      cases h
      refine ⟨?_,.inl ⟨⟨rfl,rfl,rfl,rfl⟩,by simp⟩⟩
      intro state' act' statechange actchange hmem
      rcases List.mem_cons.mp hmem with heq | hmem
      · cases heq
        by_contra hnot
        simp only [not_or,Bool.not_eq_true,decide_eq_false_iff_not,not_not] at hnot
        exact hne hnot
      · exact hf _ _ _ _ hmem
  | leaveReturns result now =>
    simp only [step] at h
    split at h
    next state act statechange actchange calls hcalls =>
      have hflags := hf state act statechange actchange (by simp [hcalls])
      have hrest : ∀ p ∈ calls, p ∈ m.calls := by
        intro p hp
        rw [hcalls]
        exact List.mem_cons_of_mem _ hp
      split at h
      next hres =>
        cases h
        subst hres
        exact ⟨fun s a b c hmem => hf s a b c (hrest _ hmem),.inl ⟨⟨rfl,rfl,rfl,rfl⟩,by simp⟩⟩
      next hres =>
        split at h
        next => cases h
        next hle =>
          obtain ⟨r,hr,rfl⟩ := Option.map_eq_some_iff.mp h
          obtain ⟨k,-,rfl⟩ := Option.map_eq_some_iff.mp hr
          refine ⟨?_,.inr ⟨now,by simpa using hres,by omega,rfl,⟨k,moved_time ..⟩,
            moved_atime hflags,moved_stime ..⟩⟩
          intro s a b c hmem
          rcases List.mem_cons.mp hmem with heq | hmem
          · cases heq
          · exact hf s a b c (hrest _ hmem)
    next => cases h
  | enterReturns =>
    simp only [step] at h
    split at h
    next calls hcalls =>
      cases h
      refine ⟨fun s a b c hmem => hf s a b c ?_,.inl ⟨⟨rfl,rfl,rfl,rfl⟩,by simp⟩⟩
      rw [hcalls]
      exact List.mem_cons_of_mem _ hmem
    next => cases h
  | setDestination destination =>
    cases h
    exact ⟨hf,.inl ⟨⟨rfl,rfl,rfl,rfl⟩,by simp⟩⟩

private theorem accounted_construct (now : Int) : (construct now).Accounted now := by
  intro later hlater
  simpa [construct] using hlater

theorem Accounted.same (h : m.Accounted start) (hs : Same m m') : m'.Accounted start := by
  intro now hnow
  rw [hs.time,hs.stime,hs.atime]
  exact h now (by rw [← hs.clock]; exact hnow)

private theorem sum_charged (h : History) (f : History → Int) (d : Int) :
    ∑ k, update f h (f h + d) k = ∑ k, f k + d := by
  rw [Finset.sum_update_of_mem (Finset.mem_univ h),
    Finset.sum_eq_add_sum_sdiff_singleton_of_mem (Finset.mem_univ h) f]
  omega

theorem Charged.accounted_iff {now : Int} (h : m.Accounted start) (hc : Charged m m' now) :
    ((∀ k, m.resState.time k ≤ m'.resState.time k) ∧ m'.Accounted start) ↔
      m.resState.atime ≤ toInt now ∧ toInt now ≤ now := by
  obtain ⟨hsum,hstime,-⟩ := h now hc.le
  obtain ⟨k,htime⟩ := hc.time
  constructor
  · rintro ⟨hgrow,hacc⟩
    have hk := hgrow k
    rw [htime,update_self] at hk
    have hnow := (hacc now (by rw [hc.clock])).2.2
    rw [hc.atime] at hnow
    exact ⟨by omega,hnow⟩
  · rintro ⟨hle,hnow⟩
    refine ⟨fun j => ?_,fun later hlater => ?_⟩
    · rw [htime]
      by_cases hj : j = k
      · rw [hj,update_self]
        omega
      · rw [update_of_ne hj]
    · rw [hc.clock] at hlater
      rw [htime,sum_charged,hc.atime]
      refine ⟨by omega,?_,by omega⟩
      rcases hc.stime with hs | hs <;> omega

/-- The time stays accounted for exactly if each reading that a change keeps in an int is not before
the last change. -/
theorem staysAccounted_iff {acts : List Action} (hr : run step (construct start) acts = some m) :
    Along step (StaysAccounted start) (construct start) acts ↔
      Along step FitsInt (construct start) acts := by
  have hgen : ∀ t : Changing, t.Flagged → t.Accounted start → run step t acts = some m →
      (Along step (StaysAccounted start) t acts ↔ Along step FitsInt t acts) := by
    clear hr
    induction acts with
    | nil => exact fun _ _ _ _ => Iff.rfl
    | cons a acts ih =>
      intro t hf hacc hr
      obtain ⟨u,hu,hr⟩ := run_cons_eq_some hr
      obtain ⟨hf',hstep⟩ := step_spec hf hu
      have hstays : t.StaysAccounted start a ↔
          (∀ h, t.resState.time h ≤ u.resState.time h) ∧ u.Accounted start := by
        constructor
        · intro h
          exact h u hu
        · intro h u' hu'
          obtain rfl := Option.some.inj (hu.symm.trans hu')
          exact h
      have hiff : t.StaysAccounted start a ↔ t.FitsInt a := by
        rw [hstays]
        rcases hstep with ⟨hsame,hne⟩ | ⟨now,rfl,hc⟩
        · have hfits : t.FitsInt a := by
            unfold FitsInt
            split
            next now => exact absurd rfl (hne now)
            next => trivial
          simp only [hfits,iff_true]
          exact ⟨fun h => by rw [hsame.time],hacc.same hsame⟩
        · exact hc.accounted_iff hacc
      constructor
      · intro h
        refine .cons (hiff.mp h.1) hu ((ih u hf' (hstays.mp h.1).2 hr).mp (h.2 u hu))
      · intro h
        have hnow := hiff.mpr h.1
        exact .cons hnow hu ((ih u hf' (hstays.mp hnow).2 hr).mpr (h.2 u hu))
  exact hgen _ (flagged_construct start) (accounted_construct start) hr

/-- IS_OWNER is false when the slot enters the owner state, so `enter_action` changes it back. -/
def ownerFirst : List Action :=
  [.change .unclaimed .idle,.leaveReturns false 110,.enterReturns,.change .owner .idle,
    .leaveReturns false 125,.change .unclaimed .idle,.leaveReturns false 130,.enterReturns,
    .enterReturns]

theorem staysAccounted_ownerFirst :
    Along step (StaysAccounted 100) (construct 100) ownerFirst ↔
      Along step FitsInt (construct 100) ownerFirst := by
  obtain ⟨m,hr,-⟩ := run_exists step (construct 100) ownerFirst (fun _ => true) (by decide)
  exact staysAccounted_iff hr

/-- A change at the time 2^31 makes a total negative. -/
theorem change_overflows : ∃ m m',
    run step (construct 100) [.change .unclaimed .idle] = some m ∧
      m.step (.leaveReturns false (2^31)) = some m' ∧
        m'.resState.time .ownerIdle < m.resState.time .ownerIdle :=
  ⟨_,_,rfl,rfl,by decide⟩

end Changing

end Condor.Startd
