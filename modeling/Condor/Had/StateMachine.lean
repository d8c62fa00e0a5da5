import Condor.Lib.Run

/-!
# High availability daemons

Each daemon of `HAD_LIST` runs a state machine that takes one step in every round and then sends
its id or a sign of life to the others.
-/

namespace Condor.Had

open Function

inductive State where
  | pre
  | passive
  | election
  | leader
  deriving DecidableEq

inductive Command where
  | alive
  | sendId
  deriving DecidableEq

structure Config where
  /-- The length of `HAD_LIST`. -/
  hads : Nat
  usePrimary : Bool := false
  standAloneMode : Bool := false

namespace Config

/-- `getHadList` makes the first of the list the primary. -/
def isPrimary (c : Config) (selfId : Nat) : Bool := c.usePrimary && selfId + 1 == c.hads

end Config

/-- `HADStateMachine`. -/
structure Machine where
  state : State := .pre
  receivedAliveList : List Nat := []
  receivedIdList : List Nat := []
  deriving DecidableEq

namespace Machine

/-- `checkList`: no id is bigger than mine. -/
def checkList (selfId : Nat) (ids : List Nat) : Bool := ids.all fun id => id ≤ selfId

def clearBuffers (m : Machine) : Machine :=
  { m with receivedAliveList := [], receivedIdList := [] }

/-- `step`; the flag tells whether the command to the master succeeds. -/
def step (c : Config) (selfId : Nat) (master : Bool) (m : Machine) : Machine :=
  match m.state with
  | .pre => { m with state := .passive }.clearBuffers
  | .passive =>
    -- the buffers are kept for the election
    if m.receivedAliveList.isEmpty || c.isPrimary selfId then { m with state := .election }
    else m.clearBuffers
  | .election =>
    if !m.receivedAliveList.isEmpty && !c.isPrimary selfId then
      { m with state := .passive }.clearBuffers
    else if !checkList selfId m.receivedIdList then { m with state := .passive }.clearBuffers
    else if c.standAloneMode || master then { m with state := .leader }.clearBuffers
    else m.clearBuffers
  | .leader =>
    if !m.receivedAliveList.isEmpty && !checkList selfId m.receivedAliveList then
      { m with state := .passive }.clearBuffers
    else m.clearBuffers

/-- What `sendMessages` sends in a state. -/
def message (m : Machine) : Option Command :=
  match m.state with
  | .election => some .sendId
  | .leader => some .alive
  | _ => none

/-- `commandHandlerHad`. -/
def receive (cmd : Command) (id : Nat) (m : Machine) : Machine :=
  match cmd with
  | .alive => { m with receivedAliveList := m.receivedAliveList ++ [id] }
  | .sendId => { m with receivedIdList := m.receivedIdList ++ [id] }

end Machine

structure Message where
  receiver : Nat
  cmd : Command
  id : Nat
  deriving DecidableEq

structure World where
  machine : Nat → Option Machine := fun _ => none
  /-- The daemons that have had their step in this round. -/
  done : Nat → Bool := fun _ => false
  inFlight : List Message := []

inductive Action where
  /-- A daemon starts, with its first step in this round or in the next. -/
  | start (i : Nat) (waits : Bool)
  | stop (i : Nat)
  | cycle (i : Nat) (master : Bool)
  | deliver (k : Nat)
  | newRound

namespace World

variable (c : Config)

/-- `sendCommandToOthers`; there is no connection to a daemon that does not run. -/
def sendCommandToOthers (w : World) (i : Nat) (cmd : Command) : List Message :=
  ((List.range c.hads).filter fun j => j != i && (w.machine j).isSome).map fun j => ⟨j,cmd,i⟩

def sendMessages (w : World) (i : Nat) (m : Machine) : World :=
  match m.message with
  | none => w
  | some cmd => { w with inFlight := w.inFlight ++ w.sendCommandToOthers c i cmd }

/-- `cycle`, with a step. -/
def cycle (i : Nat) (master : Bool) (m : Machine) (w : World) : World :=
  let m' := m.step c i master
  let w := { w with
    machine := update w.machine i (some m')
    done := update w.done i true }
  w.sendMessages c i m'

def step (w : World) : Action → Option World
  | .start i waits =>
    if i < c.hads ∧ w.machine i = none then
      some { w with
        machine := update w.machine i (some {})
        done := update w.done i waits }
    else none
  | .stop i => some { w with machine := update w.machine i none }
  | .cycle i master =>
    match w.machine i with
    | none => none
    | some m =>
      if w.done i = false ∧ ∀ x ∈ w.inFlight, x.receiver ≠ i then some (w.cycle c i master m)
      else none
  | .deliver k =>
    match w.inFlight[k]? with
    | none => none
    | some x =>
      let machine :=
        match w.machine x.receiver with
        | none => w.machine
        | some m => update w.machine x.receiver (some (m.receive x.cmd x.id))
      some { w with machine := machine, inFlight := w.inFlight.eraseIdx k }
  | .newRound =>
    if ∀ i < c.hads, w.machine i ≠ none → w.done i = true then
      some { w with done := fun _ => false }
    else none

def inState (w : World) (i : Nat) (s : State) : Bool := (w.machine i).any fun m => m.state == s

end World

end Condor.Had
