import Condor.Lib.Run

/-!
# The state of a slot

`ResState::change` leaves a state and enters another; both actions, and the evaluation of the
policy that may follow, call `change` again.
-/

namespace Condor.Startd

inductive State
  | owner
  | unclaimed
  | matched
  | claimed
  | preempting
  | shutdown
  | delete
  | backfill
  | drained
  deriving DecidableEq

inductive Activity
  | idle
  | busy
  | retiring
  | vacating
  | suspended
  | benchmarking
  | killing
  deriving DecidableEq

/-- The destinations that can be set without a request to claim the slot. -/
inductive Destination
  | owner
  | delete
  deriving DecidableEq

def Destination.state : Destination → State
  | .owner => .owner
  | .delete => .delete

inductive ClaimState
  | unclaimed
  | idle
  | running
  | suspended
  | vacating
  | killing
  deriving DecidableEq

/-- `Claim`, as far as the states look at it. A new claim has the default values. -/
structure Claim where
  state : ClaimState := .unclaimed
  starter : Bool := false
  mayUnretire : Bool := true
  preemptWasTrue : Bool := false
  deriving DecidableEq

def Claim.isActive (c : Claim) : Bool :=
  match c.state with
  | .running | .suspended | .vacating | .killing => true
  | .idle | .unclaimed => false

/-- A `Resource` with its `ResState`. -/
structure Slot where
  state : State := .owner
  act : Activity := .idle
  destination : Option Destination := none
  actWasBenchmark : Bool := false
  /-- `r_cur` -/
  cur : Option Claim := some {}
  /-- `r_pre`, and whether it has a request stream. -/
  pre : Option Bool := none
  /-- `get_feature() == DYNAMIC_SLOT` -/
  dynamic : Bool := false
  /-- The flag of the `ResMgr`. -/
  draining : Bool := false
  /-- How many signals have been sent to the starter. -/
  sent : Nat := 0
  deriving DecidableEq

/-- What the policy answers, and what comes of signals and replies, during one call. -/
structure Answers where
  isOwner : Bool := false
  startIsFalse : Bool := false
  preempt : Bool := false
  suspend : Bool := false
  continues : Bool := false
  kill : Bool := false
  wantVacate : Bool := false
  wantSuspend : Bool := false
  wantHold : Bool := false
  retirementExpired : Bool := false
  claimWorklifeExpired : Bool := false
  suspendedForCOD : Bool := false
  currentlyFetching : Bool := false
  drainingIsComplete : Bool := false
  resumesAfterDraining : Bool := false
  runBenchmarks : Bool := false
  benchmarksStarted : Bool := false
  /-- START is defined and false for the preempting claim. -/
  refusesPreempting : Bool := false
  replySent : Bool := true
  /-- The signals to the starter that cannot be sent, counted as `Slot.sent` counts them. -/
  lost : List Nat := []

def Answers.signals (a : Answers) (n : Nat) : Bool := n ∉ a.lost

inductive Fault
  /-- An `EXCEPT` or a failed `ASSERT`. -/
  | except
  /-- A slot that was removed, or a claim that does not exist, is used. -/
  | freed
  | looping
  deriving DecidableEq

abbrev Outcome := Except Fault (Option Slot)

def Outcome.andThen (o : Outcome) (f : Slot → Outcome) : Outcome :=
  match o with
  | .error fault => .error fault
  | .ok none => .error .freed
  | .ok (some s) => f s

/-- What `leave_action` and `enter_action` return: true after a change of their own. -/
inductive Reply
  | done (o : Outcome)
  | proceed (s : Slot)

/-- The pairs for which `getHistoryInfo` has a counter. -/
def accepts : State → Activity → Bool
  | .owner, _ => true
  | .unclaimed, a => a = .idle ∨ a = .benchmarking
  | .matched, _ => true
  | .claimed, a => a = .idle ∨ a = .busy ∨ a = .suspended ∨ a = .retiring
  | .preempting, a => a = .vacating ∨ a = .killing
  | .drained, a => a = .idle ∨ a = .retiring
  | .backfill, a => a = .idle ∨ a = .busy ∨ a = .killing
  | .shutdown, _ => false
  | .delete, _ => false

namespace Slot

variable (a : Answers) (change : Slot → State → Activity → Outcome) (s : Slot)

def claimIsActive : Bool := s.cur.any Claim.isActive

def hasPreemptingClaim : Bool := s.pre = some true

def mayUnretire : Bool := !s.draining && s.cur.any Claim.mayUnretire && !s.hasPreemptingClaim

def inRetirement : Bool := s.hasPreemptingClaim || !s.mayUnretire

def preemptWasTrue : Bool := s.cur.any Claim.preemptWasTrue

/-- `wants_vacate` -/
def wantsVacate : Bool := !s.claimIsActive || a.wantVacate

def setClaimState (state : ClaimState) : Slot :=
  { s with cur := s.cur.map fun c => { c with state := state } }

def hasStarter : Bool := s.cur.any Claim.starter

/-- A claim state and a signal that goes with it, when there is a starter; without one all is
well. -/
def signal (state : ClaimState) : Slot × Bool :=
  if s.hasStarter then ({ s.setClaimState state with sent := s.sent + 1 },a.signals s.sent)
    else (s,true)

def starterKillSoft : Slot × Bool := s.signal a .vacating

def starterKillHard : Slot × Bool := s.signal a .killing

def starterKillPg : Slot := if s.hasStarter then s.setClaimState .killing else s

def suspendClaim : Slot × Bool :=
  if s.hasStarter then s.signal a .suspended else (s.setClaimState .suspended,true)

def resumeClaim : Slot × Bool :=
  if s.hasStarter then s.signal a .running else (s.setClaimState .idle,true)

/-- `hold_job`: a starter that cannot be told to hold the job is killed. -/
def holdJob (soft : Bool) : Slot :=
  if s.hasStarter then
    if a.signals s.sent then { s with sent := s.sent + 1 }
    else if soft then (starterKillSoft a { s with sent := s.sent + 1 }).1
    else (starterKillHard a { s with sent := s.sent + 1 }).1
  else s

/-- `change` with a state only. -/
def changeTo (state : State) : Outcome :=
  match state with
  | .preempting =>
    if !s.preemptWasTrue || s.wantsVacate a then change s .preempting .vacating
    else change s .preempting .killing
  | state => change s state .idle

def leaveAction (state : State) : Reply :=
  match s.state with
  | .preempting | .backfill | .matched | .owner | .unclaimed | .drained => .proceed s
  | .claimed =>
    if s.act = .suspended then
      match s.resumeClaim a with
      | (s,true) => .proceed s
      | (s,false) =>
        let s := s.starterKillPg
        if state ≠ .preempting then .done (s.changeTo a change .preempting) else .proceed s
    else .proceed s
  | .shutdown | .delete => .done (.error .except)

/-- `accept_request_claim`, for a claim that has a request stream. -/
def acceptClaimRequest : Outcome :=
  if a.replySent then s.changeTo a change .claimed else s.changeTo a change .owner

def leavePreemptingState : Outcome :=
  if s.cur = none then .error .freed
  else
    match s.destination with
    | some destination => { s with cur := none, pre := none }.changeTo a change destination.state
    | none =>
      if s.hasPreemptingClaim && !a.refusesPreempting then
        { s with cur := some {}, pre := none }.acceptClaimRequest a change
      else { s with cur := none, pre := none }.changeTo a change .owner

/-- The part of `enter_action` for the claimed state; the claim has begun. -/
def enterClaimed : Reply :=
  match s.act with
  | .suspended =>
    match s.suspendClaim a with
    | (s,true) => .proceed s
    | (s,false) => .done (s.starterKillPg.changeTo a change .preempting)
  | .busy => if s.inRetirement then .done (change s .claimed .retiring) else .proceed s
  | .retiring => if s.claimIsActive then .proceed s else .done (s.changeTo a change .preempting)
  | _ => .proceed s

def enterAction (statechange : Bool) : Reply :=
  match s.state with
  | .owner =>
    let s := { s with cur := some {}, pre := none }
    if a.isOwner then .proceed s else .done (s.changeTo a change .unclaimed)
  | .claimed =>
    if statechange then
      match s.cur with
      | none => .done (.error .freed)
      | some c =>
        -- `beginClaim`
        if c.state = .unclaimed then
          enterClaimed a change { s.setClaimState .idle with pre := some false }
        else .done (.error .except)
    else s.enterClaimed a change
  | .unclaimed | .matched | .drained => .proceed s
  | .backfill =>
    match s.act with
    | .killing | .idle | .busy => .proceed s
    | _ => .done (.error .except)
  | .preempting =>
    match s.act with
    | .killing =>
      if s.claimIsActive then
        if s.preemptWasTrue && a.wantHold then .proceed (s.holdJob a false)
        else
          match s.starterKillHard a with
          | (s,true) => .proceed s
          | (s,false) => .done (s.leavePreemptingState a change)
      else .done (s.leavePreemptingState a change)
    | .vacating =>
      if s.claimIsActive then
        if s.preemptWasTrue && a.wantHold then .proceed (s.holdJob a true)
        else
          match s.starterKillSoft a with
          | (s,true) => .proceed s
          | (s,false) => .done (s.starterKillPg.changeTo a change .owner)
      else .done (s.leavePreemptingState a change)
    | _ => .done (.error .except)
  | .delete => .done (.ok none)
  | .shutdown => .done (.error .except)

/-- The part of `set_destination` that moves towards the destination. -/
def moveToward (destination : Destination) : Outcome :=
  match s.state with
  | .owner | .matched | .unclaimed => s.changeTo a change destination.state
  | .preempting => .ok (some s)
  | .claimed => s.changeTo a change .preempting
  | .backfill =>
    if s.act = .idle then s.changeTo a change destination.state else change s .backfill .killing
  | .shutdown | .delete | .drained => .error .except

def setDestination (destination : Destination) : Outcome :=
  moveToward a change { s with destination := some destination } destination

/-- In a state that knows nothing of the command the starter is killed, if there is one. -/
def killAnyway (r : Slot × Bool) : Outcome := if s.cur = none then .error .freed else .ok (some r.1)

def retireClaim (reversible : Bool) : Outcome :=
  match s.state with
  | .claimed =>
    let s := if reversible then s
      else { s with cur := s.cur.map fun c => { c with mayUnretire := false } }
    change s .claimed .retiring
  | .matched => s.changeTo a change .owner
  | .backfill => s.setDestination a change .owner
  | _ => s.killAnyway (s.starterKillSoft a)

def releaseClaim : Outcome :=
  match s.state with
  | .claimed => change s .preempting .vacating
  | .preempting => if s.act ≠ .killing then change s .preempting .vacating else .ok (some s)
  | .matched => s.changeTo a change .owner
  | .backfill => s.setDestination a change .owner
  | _ => s.killAnyway (s.starterKillHard a)

def killClaim : Outcome :=
  match s.state with
  | .claimed | .preempting => change s .preempting .killing
  | .matched => s.changeTo a change .owner
  | .backfill => s.setDestination a change .owner
  | _ => s.killAnyway (s.starterKillHard a)

def preemptIsTrue : Slot := { s with cur := s.cur.map fun c => { c with preemptWasTrue := true } }

def evalClaimed : Outcome :=
  if s.act = .suspended ∧ a.suspendedForCOD then .ok (some s)
  else if s.inRetirement ∧ a.retirementExpired then s.changeTo a change .preempting
  else if ((s.act = .busy ∧ ¬a.wantSuspend) ∨
      (s.act = .retiring ∧ ¬s.preemptWasTrue ∧ ¬a.wantSuspend) ∨
      (s.act = .suspended ∧ ¬s.preemptWasTrue)) ∧ a.preempt then
    s.preemptIsTrue.retireClaim a change false
  else if s.act = .retiring ∧ s.mayUnretire then change s .claimed .busy
  else if s.act = .retiring ∧ a.retirementExpired then s.changeTo a change .preempting
  else if (s.act = .busy ∨ s.act = .retiring) ∧ a.wantSuspend ∧ a.suspend then
    change s .claimed .suspended
  else if s.act = .suspended ∧ a.continues then
    if s.inRetirement then change s .claimed .retiring else change s .claimed .busy
  else if s.act = .busy ∧ s.hasPreemptingClaim then change s .claimed .retiring
  else if s.act = .idle ∧ (s.hasPreemptingClaim ∨ a.startIsFalse ∨ a.claimWorklifeExpired ∨
    s.draining)
    then s.changeTo a change .preempting
  else .ok (some s)

/-- `start_benchmarks`, after which `eval` goes on. -/
def startBenchmarks : Outcome :=
  (change s s.state .benchmarking).andThen fun s =>
    if a.benchmarksStarted then .ok (some s) else change s s.state .idle

def eval : Outcome :=
  match s.state with
  | .claimed => s.evalClaimed a change
  | .preempting =>
    if s.act = .vacating ∧ a.kill then change s .preempting .killing else .ok (some s)
  | .unclaimed =>
    if s.dynamic then
      if a.currentlyFetching then .ok (some s) else s.changeTo a change .delete
    else if s.draining then change s .drained .retiring
    else if a.isOwner then s.changeTo a change .owner
    else if !s.actWasBenchmark && a.runBenchmarks then
      (s.startBenchmarks a change).andThen fun s => .ok (some s)
    else .ok (some s)
  | .owner =>
    if s.dynamic then
      if a.currentlyFetching then .ok (some s) else s.changeTo a change .delete
    else if s.draining then change s .drained .retiring
    else if a.isOwner then .ok (some s)
    else s.changeTo a change .unclaimed
  | .matched => .ok (some s)
  -- there is no backfill manager
  | .backfill => .error .except
  | .drained =>
    if !s.draining then s.changeTo a change .owner
    else if s.act = .retiring then
      if a.drainingIsComplete then change s .drained .idle else .ok (some s)
    else if s.act = .idle ∧ a.resumesAfterDraining then .ok (some { s with draining := false })
    else .ok (some s)
  | .shutdown | .delete => .error .except

def moved (state : State) (act : Activity) : Slot :=
  { s with
    state := state
    act := act
    destination :=
      if s.state ≠ state ∧ s.destination.map Destination.state = some state then none
      else s.destination
    actWasBenchmark := if s.act ≠ act then s.act = .benchmarking else s.actWasBenchmark }

/-- What `change` does after `enter_action`: idleness and retirement are looked at right away. -/
def entered : Reply → Outcome
  | .done o => o
  | .proceed s =>
    if s.state = .backfill then .ok (some s)
    else if s.act = .retiring ∨ s.act = .idle then s.eval a change
    else .ok (some s)

/-- The body of `ResState::change`. -/
def changeBody (state : State) (act : Activity) : Outcome :=
  if s.state = state ∧ s.act = act then .ok (some s)
  else
    match s.leaveAction a change state with
    | .done o => o
    | .proceed s =>
      -- `updateHistoryTotals` asks for the counter of the pair that is left
      if accepts s.state s.act then
        entered a change ((s.moved state act).enterAction a change (s.state ≠ state))
      else .error .except

end Slot

/-- `ResState::change`, nested at most so deep. -/
def change (a : Answers) : Nat → Slot → State → Activity → Outcome
  | 0, _, _, _ => .error .looping
  | depth + 1, s, state, act => s.changeBody a (change a depth) state act

def depth : Nat := 16

namespace Slot

variable (a : Answers) (s : Slot)

/-- `ResState::starterExited` -/
def stateStarterExited : Outcome :=
  match s.destination with
  | some destination => s.changeTo a (change a depth) destination.state
  | none =>
    match s.state with
    | .claimed | .preempting => .ok (some s)
    | .backfill => if s.act = .idle then .ok (some s) else change a depth s .backfill .idle
    | _ => .error .except

/-- `Claim::starterExited` with `Resource::starterExited`, which goes on when the state has dealt
with its destination. -/
def starterExited : Outcome :=
  let s := { s with cur := s.cur.map fun _ => { state := .idle } }
  (s.stateStarterExited a).andThen fun s =>
    match s.state with
    | .claimed =>
      if s.act = .retiring then s.changeTo a (change a depth) .preempting
      else change a depth s .claimed .idle
    | .preempting => s.leavePreemptingState a (change a depth)
    | _ => s.changeTo a (change a depth) .owner

inductive Drain
  | graceful
  | quick
  | fast
  deriving DecidableEq

def shutdownClaim (how : Drain) : Outcome :=
  match how with
  | .graceful => s.retireClaim a (change a depth) true
  | .quick => s.retireClaim a (change a depth) false
  | .fast => s.killClaim a (change a depth)

/-- `shutdownAllClaims`; a static slot is updated afterwards. -/
def shutdownAllClaims (how : Drain) : Outcome :=
  if s.dynamic then s.shutdownClaim a how
  else (s.shutdownClaim a how).andThen fun s => .ok (some s)

end Slot

inductive Event
  | eval
  | retireClaim (reversible : Bool)
  | releaseClaim
  | killClaim
  /-- A request to claim a slot that is not claimed is accepted. -/
  | accept
  | activate
  | preemptingRequest
  | startDraining (how : Slot.Drain)
  | endDraining
  | setDestination (destination : Destination)
  | starterExited
  deriving DecidableEq

namespace Slot

def handle (a : Answers) (s : Slot) : Event → Outcome
  | .eval => s.eval a (change a depth)
  | .retireClaim reversible => s.retireClaim a (change a depth) reversible
  | .releaseClaim => s.releaseClaim a (change a depth)
  | .killClaim => s.killClaim a (change a depth)
  | .accept =>
    match s.state with
    | .owner | .unclaimed | .matched => s.changeTo a (change a depth) .claimed
    | _ => .ok (some s)
  | .activate =>
    if s.state = .claimed ∧ !s.claimIsActive then
      change a depth { s with cur := s.cur.map fun c =>
        { c with state := .running, starter := true } }
        .claimed .busy
    else .ok (some s)
  | .preemptingRequest =>
    if s.state = .claimed ∧ s.pre ≠ none then
      { s with pre := some true }.eval a (change a depth)
    else .ok (some s)
  | .startDraining how =>
    if s.draining then .ok (some s) else { s with draining := true }.shutdownAllClaims a how
  | .endDraining => .ok (some { s with draining := false })
  | .setDestination destination => s.setDestination a (change a depth) destination
  | .starterExited => if s.hasStarter then s.starterExited a else .ok (some s)

/-- Nothing happens to a slot that was removed; a fault ends the daemon. -/
def step (s : Option Slot) (e : Answers × Event) : Option (Option Slot) :=
  match s with
  | none => some none
  | some s =>
    match s.handle e.1 e.2 with
    | .ok o => some o
    | .error _ => none

end Slot

end Condor.Startd
