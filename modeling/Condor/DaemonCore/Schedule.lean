import Condor.DaemonCore.TimerList

/-!
# The schedule that a timer manager keeps

What the timer manager is for: a list of timers, ordered by the time at which they are due, and the
id of the timer whose handler runs. There are no addresses here.
-/

namespace Condor.DaemonCore

variable {σ : Type} [Timeslice σ]

structure Schedule (σ : Type) where
  timers : List (Timer σ)
  timerIds : Int
  running : Option Int
  didReset : Bool
  didCancel : Bool
  frame : Option Frame

namespace Schedule

def init : Schedule σ := ⟨[],0,none,false,false,none⟩

def find (s : Schedule σ) (id : Int) : Option (Timer σ) := s.timers.find? fun t => t.id = id

def without (us : List (Timer σ)) (id : Int) : List (Timer σ) := us.eraseP fun t => t.id = id

def reset (s : Schedule σ) (id : Int) (when period : UInt32) (recomputeWhen : Bool)
    (newTimeslice : Option σ) (r : Readings) (repeats : Bool) : Schedule σ × List Event :=
  match s.find id with
  | none => (s,[])
  | some t =>
    match t.rescheduled when period recomputeWhen newTimeslice r with
    | none => (s,[.reset id repeats])
    | some t =>
      ({ s with
          timers := enqueue t (without s.timers id)
          didReset := s.didReset || s.running = some id },[.reset id repeats])

def cancel (s : Schedule σ) (id : Int) : Schedule σ × List Event :=
  match s.find id with
  | none => (s,[])
  | some _ =>
    ({ s with
        timers := without s.timers id
        didCancel := s.didCancel || s.running = some id },[.cancelled id])

def cancelAll (s : Schedule σ) : Schedule σ :=
  { s with timers := [], didCancel := s.didCancel || s.timers.any fun t => s.running = some t.id }

def leave (s : Schedule σ) (f : Frame) (r : Readings) : Schedule σ × List Event :=
  let result := match s.timers with
    | [] => -1
    | t :: _ => Daemon.secondsLeft t.when r.result
  ({ s with running := none, frame := none },[.returned result f.numFires])

def loop (s : Schedule σ) (f : Frame) (r : Readings) : Schedule σ × List Event :=
  match s.timers with
  | [] => s.leave f r
  | t :: us =>
    if t.when ≤ f.now then
      let f' := { f with numFires := f.numFires + 1 }
      if f.numFires < maxFiresPerTimeout then
        ({ s with
            timers := t.started r :: us
            running := some t.id
            didReset := false
            didCancel := false
            frame := some (f'.checkSkew r) },[.fired t.id t.when f.now])
      else s.leave f' r
    else s.leave f r

def timeout (s : Schedule σ) (r : Readings) : Schedule σ × List Event :=
  match s.running with
  | some _ =>
    match s.timers with
    | [] => (s,[.returned 0 0])
    | t :: _ => (s,[.returned (Daemon.secondsLeft t.when r.result) 0])
  | none => s.loop ⟨r.period,0,0⟩ r

def finish (s : Schedule σ) (id : Int) (r : Readings) : Schedule σ :=
  { s with timers := s.timers.map fun t => if t.id = id then t.finished r else t }

def renew (s : Schedule σ) (id : Int) (r : Readings) : List (Timer σ) :=
  if s.didCancel || s.didReset then s.timers
  else
    match s.find id with
    | none => s.timers
    | some t =>
      if t.repeats then enqueue (t.renewed r) (without s.timers id) else without s.timers id

def handlerReturns (s : Schedule σ) (r : Readings) : Schedule σ × List Event :=
  match s.frame,s.running with
  | some f,some id => loop { s with timers := (s.finish id r).renew id r, running := none } f r
  | _,_ => (s,[])

def step (s : Schedule σ) : Call σ → Option (Schedule σ × List Event)
  | .newTimer _ deltawhen period timeslice r =>
    if s.timerIds = intMax then none
    else
      let t := Timer.fresh s.timerIds deltawhen period timeslice r
      some ({ s with timers := enqueue t s.timers, timerIds := s.timerIds + 1 },
        [.created t.id (decide (0 < period) || timeslice.isSome)])
  | .resetTimer id when period r =>
    some (s.reset id when period false none r (decide (0 < period)))
  | .resetTimerPeriod id period r => some (s.reset id 0 period true none r (decide (0 < period)))
  | .resetTimerTimeslice id timeslice r => some (s.reset id 0 0 false (some timeslice) r true)
  | .cancelTimer id => some (s.cancel id)
  | .cancelAllTimers => some (s.cancelAll,[])
  | .timeout r => some (s.timeout r)
  | .handlerReturns r => some (s.handlerReturns r)

end Schedule

end Condor.DaemonCore
