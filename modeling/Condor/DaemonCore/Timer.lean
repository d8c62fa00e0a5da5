import Mathlib.Algebra.Group.Nat.Defs
import Mathlib.Data.List.AList
import Condor.Lib.LinkedList
import Condor.Lib.Run
import Condor.Utils.CString

/-!
# The timer manager

`TimerManager` keeps its timers in a singly linked list with a tail pointer.
-/

namespace Condor.DaemonCore

def timerNever : UInt32 := 0xffffffff

def timeTNever : Int := 0x7fffffff

def maxFiresPerTimeout : Int := 3

def intMax : Int := 0x7fffffff

/-- The part of a timeslice that computes with floating point numbers. -/
class Timeslice (σ : Type) where
  setStartTimeNow : Int → σ → σ
  setFinishTimeNow : Int → σ → σ
  getNextStartTime : σ → Int

variable {σ : Type} [Timeslice σ]

def getTimeToNextRun (now : Int) (s : σ) : UInt32 :=
  let delta := toInt (Timeslice.getNextStartTime s - now)
  if delta < 0 then 0 else delta.toNat.toUInt32

abbrev Addr := Nat

structure Timer (σ : Type) where
  when : Int
  periodStarted : Int
  period : UInt32
  id : Int
  next : Option Addr
  timeslice : Option σ

def Timer.repeats (t : Timer σ) : Bool := decide (0 < t.period) || t.timeslice.isSome

structure TimerManager (σ : Type) where
  heap : AList fun _ : Addr => Timer σ
  timerList : Option Addr
  listTail : Option Addr
  timerIds : Int
  inTimeout : Option Addr
  didReset : Bool
  didCancel : Bool

inductive Fault
  | badRemove
  | noTrail
  /-- The ASSERT in Timeout after the handler has returned. -/
  | lostTimer
  | dangling
  | endless
  /-- `timer_ids++` overflows, which is undefined. -/
  | idOverflow
  deriving DecidableEq

structure Readings where
  sample : Int
  start : Int
  finish : Int
  period : Int
  nextRun : Int
  sanity : Int
  result : Int

def Timer.fresh (id : Int) (deltawhen period : UInt32) (timeslice : Option σ) (r : Readings) :
    Timer σ :=
  let deltawhen := match timeslice with
    | some s => getTimeToNextRun r.nextRun s
    | none => deltawhen
  { when := if deltawhen = timerNever then timeTNever else deltawhen.toNat + r.period
    periodStarted := r.period
    period := period
    id := id
    next := none
    timeslice := timeslice }

def Timer.started (t : Timer σ) (r : Readings) : Timer σ :=
  { t with timeslice := t.timeslice.map (Timeslice.setStartTimeNow r.start) }

def Timer.finished (t : Timer σ) (r : Readings) : Timer σ :=
  { t with timeslice := t.timeslice.map (Timeslice.setFinishTimeNow r.finish) }

def Timer.renewed (t : Timer σ) (r : Readings) : Timer σ :=
  let wait := match t.timeslice with
    | some s => getTimeToNextRun r.nextRun s
    | none => t.period
  { t with periodStarted := r.period, when := r.period + wait.toNat }

def Timer.rescheduled (t : Timer σ) (when period : UInt32)
    (recomputeWhen : Bool) (newTimeslice : Option σ) (r : Readings) : Option (Timer σ) :=
  match newTimeslice,t.timeslice with
  | some s,_ => some { t with timeslice := some s, when := Timeslice.getNextStartTime s, period }
  | none,some _ => none
  | none,none =>
    if recomputeWhen then
      if toInt (toInt (t.periodStarted + period.toNat) - toInt r.sanity) > period.toNat then
        -- start a new period now to restore sanity
        some { t with periodStarted := r.period, when := r.period + period.toNat, period }
      else some { t with when := t.periodStarted + period.toNat, period }
    else if when = timerNever then
      some { t with periodStarted := r.period, when := timeTNever, period }
    else some { t with periodStarted := r.period, when := when.toNat + r.period, period }

namespace TimerManager

def init : TimerManager σ where
  heap := ∅
  timerList := none
  listTail := none
  timerIds := 0
  inTimeout := none
  didReset := false
  didCancel := false

def read (m : TimerManager σ) (p : Addr) : Option (Timer σ) := m.heap.lookup p

def load (m : TimerManager σ) (p : Addr) : Except Fault (Timer σ) :=
  match m.read p with
  | some t => .ok t
  | none => .error .dangling

def store (m : TimerManager σ) (p : Addr) (t : Timer σ) : TimerManager σ :=
  { m with heap := m.heap.insert p t }

def deleteTimer (m : TimerManager σ) (timer : Addr) : Except Fault (TimerManager σ) := do
  let _ ← m.load timer
  pure { m with heap := m.heap.erase timer }

def fuel (m : TimerManager σ) : Nat := m.heap.entries.length + 1

/-- A loop over the list up to the first timer with a property, with the pointer that trails
behind. -/
def walk (m : TimerManager σ) (stop : Timer σ → Bool) :
    Nat → Option Addr → Option Addr → Except Fault (Option Addr × Option Addr)
  | 0, _, _ => .error .endless
  | _ + 1, none, trail => .ok (none,trail)
  | n + 1, some p, trail => do
    let t ← m.load p
    if stop t then .ok (some p,trail) else walk m stop n t.next (some p)

def getTimer (m : TimerManager σ) (id : Int) : Except Fault (Option Addr × Option Addr) :=
  m.walk (fun t => t.id = id) m.fuel m.timerList none

def insertPoint (m : TimerManager σ) (when : Int) : Except Fault (Option Addr × Option Addr) :=
  m.walk (fun t => when < t.when) m.fuel m.timerList none

def removeTimer (m : TimerManager σ) (timer : Addr) (prev : Option Addr) :
    Except Fault (TimerManager σ) := do
  match prev with
  | none =>
    if m.timerList ≠ some timer then throw .badRemove
    let t ← m.load timer
    let m := { m with timerList := t.next }
    pure (if m.listTail = some timer then { m with listTail := none } else m)
  | some q =>
    let c ← m.load q
    if c.next ≠ some timer then throw .badRemove
    let t ← m.load timer
    let m := if m.timerList = some timer then { m with timerList := t.next } else m
    let m := if m.listTail = some timer then { m with listTail := some q } else m
    let c ← m.load q
    pure (m.store q { c with next := t.next })

def insertTimer (m : TimerManager σ) (timer : Addr) : Except Fault (TimerManager σ) := do
  let t ← m.load timer
  match m.timerList with
  | none =>
    pure ({ m with timerList := some timer, listTail := some timer }.store timer
      { t with next := none })
  | some h =>
    let first ← m.load h
    if t.when < first.when then
      pure ({ m with timerList := some timer }.store timer { t with next := some h })
    else if t.when = timeTNever then
      -- to the very back of the list
      match m.listTail with
      | none => throw .dangling
      | some z =>
        let m := m.store timer { t with next := none }
        let last ← m.load z
        pure ({ m with listTail := some timer }.store z { last with next := some timer })
    else
      let (ptr,trail) ← m.insertPoint t.when
      match trail with
      | none => throw .noTrail
      | some q =>
        let m := m.store timer { t with next := ptr }
        let c ← m.load q
        let m := m.store q { c with next := some timer }
        pure (if m.listTail = some q then { m with listTail := some timer } else m)

def newTimer (m : TimerManager σ) (a : Addr) (deltawhen period : UInt32) (timeslice : Option σ)
    (r : Readings) : Except Fault (Int × TimerManager σ) := do
  if m.timerIds = intMax then throw .idOverflow
  let t := Timer.fresh m.timerIds deltawhen period timeslice r
  let m ← ({ m with timerIds := m.timerIds + 1 }.store a t).insertTimer a
  pure (t.id,m)

def resetTimer (m : TimerManager σ) (id : Int) (when period : UInt32) (recomputeWhen : Bool)
    (newTimeslice : Option σ) (r : Readings) : Except Fault (Int × TimerManager σ) := do
  if m.timerList = none then return (-1,m)
  match ← m.getTimer id with
  | (none,_) => pure (-1,m)
  | (some p,trail) =>
    let t ← m.load p
    match t.rescheduled when period recomputeWhen newTimeslice r with
    | none => pure (0,m)
    | some t =>
      let m ← (m.store p t).removeTimer p trail
      let m ← m.insertTimer p
      -- Timeout needs to know that the running timer has been reset for its next call
      pure (0,if m.inTimeout = some p then { m with didReset := true } else m)

def resetTimerPeriod (m : TimerManager σ) (id : Int) (period : UInt32) (r : Readings) :
    Except Fault (Int × TimerManager σ) :=
  m.resetTimer id 0 period true none r

def resetTimerTimeslice (m : TimerManager σ) (id : Int) (newTimeslice : σ) (r : Readings) :
    Except Fault (Int × TimerManager σ) :=
  m.resetTimer id 0 0 false (some newTimeslice) r

def cancelTimer (m : TimerManager σ) (id : Int) : Except Fault (Int × TimerManager σ) := do
  if m.timerList = none then return (-1,m)
  match ← m.getTimer id with
  | (none,_) => pure (-1,m)
  | (some p,trail) =>
    let m ← m.removeTimer p trail
    if m.inTimeout = some p then
      -- Timeout still needs the running timer and deletes it later
      pure (0,{ m with didCancel := true })
    else
      let m ← m.deleteTimer p
      pure (0,m)

def cancelAllLoop : Nat → TimerManager σ → Except Fault (TimerManager σ)
  | 0, _ => .error .endless
  | n + 1, m =>
    match m.timerList with
    | none => .ok { m with timerList := none, listTail := none }
    | some p => do
      let t ← m.load p
      let m := { m with timerList := t.next }
      if m.inTimeout = some p then cancelAllLoop n { m with didCancel := true }
      else
        let m ← m.deleteTimer p
        cancelAllLoop n m

def cancelAllTimers (m : TimerManager σ) : Except Fault (TimerManager σ) := cancelAllLoop m.fuel m

end TimerManager

structure Frame where
  now : Int
  numFires : Int
  timerCheckCntr : Int
  deriving DecidableEq

/-- Every eleventh round of the loop looks whether `now` is in the future. -/
def Frame.checkSkew (f : Frame) (r : Readings) : Frame :=
  let cntr := f.timerCheckCntr + 1
  if 10 < cntr then
    { f with timerCheckCntr := 0, now := if r.sample < f.now then r.sample else f.now }
  else { f with timerCheckCntr := cntr }

/-- The timer manager between two calls, or inside a handler that Timeout has called. -/
structure Daemon (σ : Type) where
  manager : TimerManager σ
  frame : Option Frame

inductive Event
  | created (id : Int) (repeats : Bool)
  | reset (id : Int) (repeats : Bool)
  | cancelled (id : Int)
  | fired (id when now : Int)
  | returned (result numFired : Int)
  deriving DecidableEq

inductive Call (σ : Type)
  | newTimer (a : Addr) (deltawhen period : UInt32) (timeslice : Option σ) (r : Readings)
  | resetTimer (id : Int) (when period : UInt32) (r : Readings)
  | resetTimerPeriod (id : Int) (period : UInt32) (r : Readings)
  | resetTimerTimeslice (id : Int) (timeslice : σ) (r : Readings)
  | cancelTimer (id : Int)
  | cancelAllTimers
  | timeout (r : Readings)
  | handlerReturns (r : Readings)

namespace Daemon

def init : Daemon σ := ⟨TimerManager.init,none⟩

def secondsLeft (when now : Int) : Int :=
  let result := toInt (when - now)
  if result < 0 then 0 else result

def leave (m : TimerManager σ) (f : Frame) (r : Readings) :
    Except Fault (Daemon σ × List Event) := do
  let result ← match m.timerList with
    | none => pure (-1)
    | some p => do
      let t ← m.load p
      pure (secondsLeft t.when r.result)
  pure (⟨{ m with inTimeout := none },none⟩,[.returned result f.numFires])

def fire (m : TimerManager σ) (f : Frame) (p : Addr) (t : Timer σ) (r : Readings) :
    Daemon σ × List Event :=
  let m := { m with inTimeout := some p, didReset := false, didCancel := false }
  (⟨m.store p (t.started r),some (f.checkSkew r)⟩,[.fired t.id t.when f.now])

def loop (m : TimerManager σ) (f : Frame) (r : Readings) :
    Except Fault (Daemon σ × List Event) := do
  match m.timerList with
  | none => leave m f r
  | some p =>
    let t ← m.load p
    if t.when ≤ f.now then
      let f' := { f with numFires := f.numFires + 1 }
      if f.numFires < maxFiresPerTimeout then pure (fire m f' p t r) else leave m f' r
    else leave m f r

def timeout (d : Daemon σ) (r : Readings) : Except Fault (Daemon σ × List Event) :=
  match d.manager.inTimeout with
  | some _ =>
    -- Timeout is not re-entrant
    match d.manager.timerList with
    | none => pure (d,[.returned 0 0])
    | some p => do
      let t ← d.manager.load p
      pure (d,[.returned (secondsLeft t.when r.result) 0])
  | none => loop d.manager ⟨r.period,0,0⟩ r

def serviced (m : TimerManager σ) (p : Addr) (r : Readings) : Except Fault (TimerManager σ) := do
  -- a timer set in the past may have landed before this one
  let t ← m.load p
  let (found,prev) ← m.getTimer t.id
  if found ≠ some p then throw .lostTimer
  let m ← m.removeTimer p prev
  let t ← m.load p
  if t.repeats then (m.store p (t.renewed r)).insertTimer p else m.deleteTimer p

/-- The rest of the loop body of Timeout, after the handler of the timer `p`. -/
def afterHandler (m : TimerManager σ) (p : Addr) (r : Readings) :
    Except Fault (TimerManager σ) := do
  let t ← m.load p
  let m := m.store p (t.finished r)
  if m.didCancel then m.deleteTimer p
  else if m.didReset then pure m
  else serviced m p r

def handlerReturns (d : Daemon σ) (r : Readings) : Except Fault (Daemon σ × List Event) :=
  match d.frame,d.manager.inTimeout with
  | some f,some p => do
    let m ← afterHandler d.manager p r
    loop m f r
  | _,_ => .error .dangling

def observeReset (d : Daemon σ) (id : Int) (repeats : Bool)
    (answer : Except Fault (Int × TimerManager σ)) : Except Fault (Daemon σ × List Event) := do
  let (rc,m) ← answer
  pure ({ d with manager := m },if rc = 0 then [.reset id repeats] else [])

def step (d : Daemon σ) : Call σ → Except Fault (Daemon σ × List Event)
  | .newTimer a deltawhen period timeslice r => do
    let (id,m) ← d.manager.newTimer a deltawhen period timeslice r
    pure ({ d with manager := m },
      [.created id (decide (0 < period) || timeslice.isSome)])
  | .resetTimer id when period r =>
    d.observeReset id (decide (0 < period)) (d.manager.resetTimer id when period false none r)
  | .resetTimerPeriod id period r =>
    d.observeReset id (decide (0 < period)) (d.manager.resetTimerPeriod id period r)
  | .resetTimerTimeslice id timeslice r =>
    d.observeReset id true (d.manager.resetTimerTimeslice id timeslice r)
  | .cancelTimer id => do
    let (rc,m) ← d.manager.cancelTimer id
    pure ({ d with manager := m },if rc = 0 then [.cancelled id] else [])
  | .cancelAllTimers => do
    let m ← d.manager.cancelAllTimers
    pure ({ d with manager := m },[])
  | .timeout r => d.timeout r
  | .handlerReturns r => d.handlerReturns r

/-- An allocation gives a free address, and a handler returns only where one runs. -/
def Possible (d : Daemon σ) : Call σ → Prop
  | .newTimer a .. => d.manager.read a = none
  | .handlerReturns _ => d.frame.isSome
  | _ => True

instance (d : Daemon σ) (c : Call σ) : Decidable (d.Possible c) :=
  match c with
  | .newTimer a .. =>
    decidable_of_iff ((d.manager.read a).isNone = true) Option.isNone_iff_eq_none
  | .handlerReturns _ => inferInstanceAs (Decidable (d.frame.isSome = true))
  | .resetTimer .. | .resetTimerPeriod .. | .resetTimerTimeslice .. | .cancelTimer _
  | .cancelAllTimers | .timeout _ => .isTrue trivial

end Daemon

structure Observed (σ : Type) where
  daemon : Daemon σ
  events : List Event

def Observed.step (o : Observed σ) (c : Call σ) : Option (Observed σ) :=
  if o.daemon.Possible c then
    match o.daemon.step c with
    | .ok (d,es) => some ⟨d,o.events ++ es⟩
    | .error _ => none
  else none

def Observed.init : Observed σ := ⟨Daemon.init,[]⟩

end Condor.DaemonCore
