import Condor.DaemonCore.TimerRuns

/-!
# How many handlers one call of Timeout invokes

The counter of a call of Timeout is incremented by the loop condition, so the round that stops at
the limit counts too.
-/

namespace Condor.DaemonCore

open Condor.Lib TimerManager List Option

variable {σ : Type} {d d' : Daemon σ} {es : List Event}

def Event.isFired : Event → Bool
  | .fired .. => true
  | _ => false

def FirstDue (m : TimerManager σ) (now : Int) : Prop :=
  ∃ p t, m.timerList = some p ∧ m.read p = some t ∧ t.when ≤ now

variable {m : TimerManager σ}

private theorem load_eq_ok {p : Addr} {t : Timer σ} (h : m.load p = .ok t) :
    m.read p = some t := by
  rw [load] at h
  split at h
  next u hu =>
    cases h
    exact hu
  next => cases h

theorem read_store {p : Addr} (t : Timer σ) :
    (m.store p t).read p = some t := by
  simp [TimerManager.store,TimerManager.read]

private theorem checkSkew_numFires (f : Frame) (r : Readings) :
    (f.checkSkew r).numFires = f.numFires := by
  simp only [Frame.checkSkew]
  split <;> rfl

variable [Timeslice σ]

namespace Daemon

/-- The handler that returns is the last one that the call may invoke, and the first timer of the
list is due all the same. -/
def StopsShort (d : Daemon σ) : Call σ → Prop
  | .handlerReturns r => ∃ f p m, d.frame = some f ∧ d.manager.inTimeout = some p ∧
      afterHandler d.manager p r = .ok m ∧ maxFiresPerTimeout ≤ f.numFires ∧ FirstDue m f.now
  | _ => False

/-- What fires is the first timer of the list, and is due. -/
def FiresFirst (d : Daemon σ) (c : Call σ) : Prop :=
  ∀ d' es, d.step c = .ok (d',es) → ∀ id when now, .fired id when now ∈ es →
    ∃ p t, d'.manager.timerList = some p ∧ d'.manager.inTimeout = some p ∧
      d'.manager.read p = some t ∧ t.id = id ∧ t.when = when ∧ when ≤ now

inductive Looped (m : TimerManager σ) (f : Frame) (r : Readings) : Daemon σ → List Event → Prop
  | fires (p : Addr) (t : Timer σ) (hlist : m.timerList = some p) (hread : m.read p = some t)
      (hdue : t.when ≤ f.now) (hfew : f.numFires < maxFiresPerTimeout) :
      Looped m f r
        ⟨{ m with inTimeout := some p, didReset := false, didCancel := false }.store p
          (t.started r),
          some ({ f with numFires := f.numFires + 1 }.checkSkew r)⟩ [.fired t.id t.when f.now]
  | capped (m' : TimerManager σ) (result : Int) (hdue : FirstDue m f.now)
      (hmany : maxFiresPerTimeout ≤ f.numFires) :
      Looped m f r ⟨m',none⟩ [.returned result (f.numFires + 1)]
  | leaves (m' : TimerManager σ) (result : Int) (hdue : ¬FirstDue m f.now) :
      Looped m f r ⟨m',none⟩ [.returned result f.numFires]

variable {r : Readings}

omit [Timeslice σ] in
theorem leave_eq_ok {f : Frame} (h : leave m f r = .ok (d,es)) :
    ∃ m' result, d = ⟨m',none⟩ ∧ es = [.returned result f.numFires] := by
  unfold leave at h
  split at h
  · cases h
    exact ⟨_,_,rfl,rfl⟩
  · next p hp =>
    cases hload : m.load p with
    | error e =>
      rw [hload] at h
      cases h
    | ok t =>
      rw [hload] at h
      cases h
      exact ⟨_,_,rfl,rfl⟩

private theorem loop_spec {f : Frame} (h : loop m f r = .ok (d,es)) :
    Looped m f r d es := by
  unfold loop at h
  split at h
  next hnone =>
    obtain ⟨m',result,rfl,rfl⟩ := leave_eq_ok h
    apply Looped.leaves
    rintro ⟨p,t,hp,-,-⟩
    rw [hnone] at hp
    cases hp
  next p hp =>
    cases hload : m.load p with
    | error e =>
      rw [hload] at h
      cases h
    | ok t =>
      have hread := load_eq_ok hload
      rw [hload] at h
      change (if t.when ≤ f.now then _ else _) = _ at h
      split at h
      next hdue =>
        split at h
        next hfew =>
          cases h
          exact .fires p t hp hread hdue hfew
        next hmany =>
          obtain ⟨m',result,rfl,rfl⟩ := leave_eq_ok h
          exact .capped m' result ⟨p,t,hp,hread,hdue⟩ (by omega)
      next hdue =>
        obtain ⟨m',result,rfl,rfl⟩ := leave_eq_ok h
        apply Looped.leaves
        rintro ⟨q,u,hq,hu,hle⟩
        obtain rfl := some.inj (hp.symm.trans hq)
        obtain rfl := some.inj (hread.symm.trans hu)
        exact hdue hle

private theorem step_quiet {c : Call σ} (hreturn : ∀ r, c ≠ .handlerReturns r)
    (hin : ∀ r, c = .timeout r → d.manager.inTimeout.isSome) (h : d.step c = .ok (d',es)) :
    d'.frame = d.frame ∧ ∀ e ∈ es, e.isFired = false := by
  have hreset : ∀ id repeats answer, d.observeReset id repeats answer = .ok (d',es) →
      d'.frame = d.frame ∧ ∀ e ∈ es, e.isFired = false := by
    intro id repeats answer ho
    unfold observeReset at ho
    cases answer with
    | error e => cases ho
    | ok x =>
      cases ho
      refine ⟨rfl,fun e he => ?_⟩
      split at he
      · rw [List.mem_singleton.mp he]
        rfl
      · cases he
  cases c with
  | handlerReturns r => exact absurd rfl (hreturn r)
  | newTimer a deltawhen period timeslice r =>
    rw [Daemon.step] at h
    cases hn : d.manager.newTimer a deltawhen period timeslice r with
    | error e =>
      rw [hn] at h
      cases h
    | ok x =>
      rw [hn] at h
      cases h
      exact ⟨rfl,by simp [Event.isFired]⟩
  | resetTimer | resetTimerPeriod | resetTimerTimeslice => exact hreset _ _ _ h
  | cancelTimer id =>
    rw [Daemon.step] at h
    cases hn : d.manager.cancelTimer id with
    | error e =>
      rw [hn] at h
      cases h
    | ok x =>
      rw [hn] at h
      cases h
      refine ⟨rfl,fun e he => ?_⟩
      split at he
      · rw [List.mem_singleton.mp he]
        rfl
      · cases he
  | cancelAllTimers =>
    rw [Daemon.step] at h
    cases hn : d.manager.cancelAllTimers with
    | error e =>
      rw [hn] at h
      cases h
    | ok x =>
      rw [hn] at h
      cases h
      exact ⟨rfl,by simp⟩
  | timeout r =>
    rw [Daemon.step,Daemon.timeout] at h
    obtain ⟨p,hp⟩ := Option.isSome_iff_exists.mp (hin r rfl)
    rw [hp] at h
    simp only at h
    split at h
    · cases h
      exact ⟨rfl,by simp [Event.isFired]⟩
    · next q hq =>
      cases hl : d.manager.load q with
      | error e =>
        rw [hl] at h
        cases h
      | ok t =>
        rw [hl] at h
        cases h
        exact ⟨rfl,by simp [Event.isFired]⟩

private theorem handlerReturns_spec (h : d.step (.handlerReturns r) = .ok (d',es)) :
    ∃ f p m, d.frame = some f ∧ d.manager.inTimeout = some p ∧
      afterHandler d.manager p r = .ok m ∧ Looped m f r d' es := by
  rw [Daemon.step,Daemon.handlerReturns] at h
  split at h
  next f p hf hp =>
    cases ha : afterHandler d.manager p r with
    | error e =>
      rw [ha] at h
      cases h
    | ok m =>
      rw [ha] at h
      exact ⟨f,p,m,hf,hp,ha,loop_spec h⟩
  next => cases h

theorem Looped.first {f : Frame} (h : Looped m f r d es)
    {id when now : Int} (he : Event.fired id when now ∈ es) :
    ∃ p t, d.manager.timerList = some p ∧ d.manager.inTimeout = some p ∧
      d.manager.read p = some t ∧ t.id = id ∧ t.when = when ∧ when ≤ now := by
  cases h with
  | fires p t hlist hread hdue hfew =>
    simp only [mem_singleton,Event.fired.injEq] at he
    obtain ⟨rfl,rfl,rfl⟩ := he
    exact ⟨p,t.started r,hlist,rfl,read_store _,rfl,rfl,hdue⟩
  | capped | leaves => simp at he

private theorem firesFirst (d : Daemon σ) (c : Call σ) : d.FiresFirst c := by
  intro d' es h id when now he
  by_cases hreturn : ∃ r, c = .handlerReturns r
  · obtain ⟨r,rfl⟩ := hreturn
    obtain ⟨f,p,m,-,-,-,hloop⟩ := handlerReturns_spec h
    exact hloop.first he
  · by_cases hout : ∃ r, c = .timeout r ∧ d.manager.inTimeout = none
    · obtain ⟨r,rfl,hnone⟩ := hout
      rw [Daemon.step,Daemon.timeout,hnone] at h
      exact (loop_spec h).first he
    · have hquiet := step_quiet (fun r hr => hreturn ⟨r,hr⟩)
        (fun r hr => Option.isSome_iff_ne_none.mpr fun hn => hout ⟨r,hr,hn⟩) h
      have := hquiet.2 _ he
      cases this

end Daemon

namespace Observed

def InHandler (o : Observed σ) (_ : Call σ) : Prop := o.daemon.frame.isSome = true

def StopsInTime (o : Observed σ) (c : Call σ) : Prop := ¬o.daemon.StopsShort c

def handlers (es : List Event) : Nat := es.countP Event.isFired

/-- What a call of Timeout has done so far, from a state where it has invoked `k` handlers on. -/
structure Accounted (o o' : Observed σ) (cs : List (Call σ)) (k : Int) (es : List Event) :
    Prop where
  events : o'.events = o.events ++ es
  few : k + handlers es ≤ maxFiresPerTimeout
  inside : ∀ f, o'.daemon.frame = some f →
    f.numFires = k + handlers es ∧ Along Observed.step StopsInTime o cs
  done : o'.daemon.frame = none → ∃ es' result numFired,
    es = es' ++ [.returned result numFired] ∧
      (numFired = k + handlers es ↔ Along Observed.step StopsInTime o cs)

variable {c : Call σ} {o o' : Observed σ}

private theorem step_eq_some (h : o.step c = some o') :
    ∃ es, o.daemon.step c = .ok (o'.daemon,es) ∧ o'.events = o.events ++ es := by
  rw [Observed.step] at h
  split at h
  · split at h
    next d es hd =>
      cases h
      exact ⟨es,hd,rfl⟩
    next => cases h
  · cases h

def Framed (o : Observed σ) : Prop := ∃ s l, o.daemon.Refines s l

theorem Framed.step (h : o.Framed) (hs : o.step c = some o') :
    o'.Framed := by
  obtain ⟨s,l,href⟩ := h
  have hpos : o.daemon.Possible c := by
    by_contra hnot
    rw [Observed.step,if_neg hnot] at hs
    cases hs
  obtain ⟨es,hd,-⟩ := step_eq_some hs
  rcases href.step hpos with ⟨d',s',es',l',hd',-,href'⟩ | ⟨hd',-⟩
  · rw [hd'] at hd
    cases hd
    exact ⟨s',l',href'⟩
  · rw [hd'] at hd
    cases hd

private theorem handlers_eq_zero {es : List Event}
    (h : ∀ e ∈ es, e.isFired = false) : handlers es = 0 := by
  apply List.countP_eq_zero.mpr
  intro e he
  simp [h e he]

theorem handlers_append (es es' : List Event) :
    handlers (es ++ es') = handlers es + handlers es' := countP_append

variable {cs : List (Call σ)}

theorem along_cons_iff (h : o.step c = some o') :
    Along Observed.step StopsInTime o (c :: cs) ↔
      o.StopsInTime c ∧ Along Observed.step StopsInTime o' cs :=
  ⟨fun ha => ⟨ha.1,ha.2 o' h⟩,fun ha => .cons ha.1 h ha.2⟩

theorem Accounted.cons {o o1 o' : Observed σ} {k : Int}
    {es es' : List Event} (hs : o.step c = some o1) (hes : o1.events = o.events ++ es)
    (hok : o.StopsInTime c) (h : Accounted o1 o' cs (k + handlers es) es') :
    Accounted o o' (c :: cs) k (es ++ es') where
  events := by
    rw [h.events,hes,append_assoc]
  few := by
    have := h.few
    rw [handlers_append]
    omega
  inside f hf := by
    obtain ⟨hn,hal⟩ := h.inside f hf
    rw [handlers_append,along_cons_iff hs]
    exact ⟨by omega,hok,hal⟩
  done hnone := by
    obtain ⟨es1,result,numFired,heq,hiff⟩ := h.done hnone
    refine ⟨es ++ es1,result,numFired,by rw [heq,append_assoc],?_⟩
    rw [along_cons_iff hs,handlers_append]
    constructor
    · intro hn
      exact ⟨hok,hiff.mp (by omega)⟩
    · intro hn
      have := hiff.mpr hn.2
      omega

theorem Accounted.last {k result numFired : Int}
    (hs : o.step c = some o') (hes : o'.events = o.events ++ [.returned result numFired])
    (hnone : o'.daemon.frame = none) (hk : k ≤ maxFiresPerTimeout)
    (hiff : numFired = k ↔ o.StopsInTime c) :
    Accounted o o' [c] k [.returned result numFired] where
  events := hes
  few := by
    simp [handlers,Event.isFired,hk]
  inside f hf := by
    rw [hnone] at hf
    cases hf
  done _ := by
    refine ⟨[],result,numFired,rfl,?_⟩
    rw [along_cons_iff hs]
    simpa [handlers,Event.isFired,Along] using hiff

private theorem accounted_of_run {f : Frame} (hfr : o.Framed)
    (hf : o.daemon.frame = some f) (hk : f.numFires ≤ maxFiresPerTimeout)
    (hin : Along Observed.step InHandler o cs) (hr : run Observed.step o cs = some o') :
    ∃ es, Accounted o o' cs f.numFires es := by
  induction cs generalizing o f with
  | nil =>
    obtain rfl := some.inj hr
    refine ⟨[],by simp,by simpa [handlers] using hk,fun g hg => ?_,fun hn => ?_⟩
    · rw [hf] at hg
      obtain rfl := some.inj hg
      exact ⟨by simp [handlers],trivial⟩
    · rw [hf] at hn
      cases hn
  | cons c cs ih =>
    obtain ⟨o1,hs,hrest⟩ := run_cons_eq_some hr
    obtain ⟨es,hd,hes⟩ := step_eq_some hs
    have hfr1 := hfr.step hs
    have hin1 := hin.2 o1 hs
    by_cases hreturn : ∃ r, c = .handlerReturns r
    · obtain ⟨r,rfl⟩ := hreturn
      obtain ⟨g,p,m,hg,hp,hafter,hloop⟩ := Daemon.handlerReturns_spec hd
      obtain rfl := some.inj (hf.symm.trans hg)
      have hshort : o.daemon.StopsShort (.handlerReturns r) ↔
          maxFiresPerTimeout ≤ f.numFires ∧ FirstDue m f.now := by
        constructor
        · rintro ⟨g',p',m',hg',hp',hafter',hmany,hdue⟩
          obtain rfl := some.inj (hf.symm.trans hg')
          obtain rfl := some.inj (hp.symm.trans hp')
          rw [hafter] at hafter'
          cases hafter'
          exact ⟨hmany,hdue⟩
        · rintro ⟨hmany,hdue⟩
          exact ⟨f,p,m,hf,hp,hafter,hmany,hdue⟩
      -- the run ends where no handler runs any more
      have hend : o1.daemon.frame = none → cs = [] ∧ o' = o1 := by
        intro hnone
        cases cs with
        | nil => exact ⟨rfl,(some.inj hrest).symm⟩
        | cons c' cs =>
          have := hin1.1
          rw [InHandler,hnone] at this
          cases this
      cases hd1 : o1.daemon with
      | mk m1 frame1 =>
      rw [hd1] at hloop
      cases hloop with
      | fires q t hlist hread hdue hfew =>
        have hnum : ({ f with numFires := f.numFires + 1 }.checkSkew r).numFires =
            f.numFires + 1 := checkSkew_numFires _ r
        obtain ⟨es',hacc⟩ := ih hfr1 (by rw [hd1]) (by rw [hnum]; omega) hin1 hrest
        rw [hnum] at hacc
        refine ⟨_,hacc.cons hs hes ?_⟩
        intro hst
        have := (hshort.mp hst).1
        omega
      | capped m' result hdue hmany =>
        obtain ⟨rfl,rfl⟩ := hend (by rw [hd1])
        refine ⟨_,Accounted.last hs hes (by rw [hd1]) hk ?_⟩
        exact ⟨fun hn => by omega,fun hst => absurd (hshort.mpr ⟨hmany,hdue⟩) hst⟩
      | leaves m' result hdue =>
        obtain ⟨rfl,rfl⟩ := hend (by rw [hd1])
        refine ⟨_,Accounted.last hs hes (by rw [hd1]) hk ?_⟩
        have hnot : ¬o.daemon.StopsShort (.handlerReturns r) := fun hst => hdue (hshort.mp hst).2
        simp [StopsInTime,hnot]
    · have hrunning : o.daemon.manager.inTimeout.isSome = true := by
        obtain ⟨s,l,href⟩ := hfr
        rw [← href.framed,hf]
        rfl
      obtain ⟨hframe,hquiet⟩ := Daemon.step_quiet (fun r hr => hreturn ⟨r,hr⟩)
        (fun _ _ => hrunning) hd
      obtain ⟨es',hacc⟩ := ih hfr1 (hframe.trans hf) hk hin1 hrest
      refine ⟨es ++ es',Accounted.cons hs hes ?_ (by simpa [handlers_eq_zero hquiet] using hacc)⟩
      intro hst
      unfold Daemon.StopsShort at hst
      split at hst
      next r => exact hreturn ⟨r,rfl⟩
      next => exact hst

private theorem along_firesFirst (o : Observed σ) (cs : List (Call σ)) :
    Along Observed.step (fun o c => o.daemon.FiresFirst c) o cs := by
  induction cs generalizing o with
  | nil => trivial
  | cons c cs ih => exact ⟨o.daemon.firesFirst c,fun o' _ => ih o'⟩

private theorem Framed.of_run {o : Observed σ} (hr : run Observed.step init cs = some o) :
    o.Framed :=
  run_preserves (fun _ _ _ => Framed.step)
    ⟨Schedule.init,[],Daemon.refines_init⟩ hr

/-- A call of Timeout invokes few handlers, each of the first timer, which is due. It stores their
number exactly if no step stops at the limit with a timer that is due. -/
theorem timeout_accounted {o o' : Observed σ} {cs0 cs : List (Call σ)} {r : Readings}
    (h0 : run Observed.step init cs0 = some o) (hout : o.daemon.frame = none)
    (hin : ∀ o1, o.step (.timeout r) = some o1 → Along Observed.step InHandler o1 cs)
    (hr : run Observed.step o (.timeout r :: cs) = some o') :
    ∃ es, o'.events = o.events ++ es ∧ (handlers es : Int) ≤ maxFiresPerTimeout ∧
      Along Observed.step (fun o c => o.daemon.FiresFirst c) o (.timeout r :: cs) ∧
      (o'.daemon.frame = none → ∃ es' result, ∃ numFired : Int,
        es = es' ++ [.returned result numFired] ∧
          (numFired = handlers es ↔
            Along Observed.step StopsInTime o (.timeout r :: cs))) := by
  have hfr := Framed.of_run h0
  have hidle : o.daemon.manager.inTimeout = none := by
    obtain ⟨s,l,href⟩ := hfr
    have := href.framed
    rw [hout] at this
    simpa using this.symm
  obtain ⟨o1,hs,hrest⟩ := run_cons_eq_some hr
  obtain ⟨es,hd,hes⟩ := step_eq_some hs
  have hin1 := hin o1 hs
  have hintime : o.StopsInTime (.timeout r) := fun hst => hst
  obtain ⟨es',hacc⟩ : ∃ es', Accounted o o' (.timeout r :: cs) 0 es' := by
    rw [Daemon.step,Daemon.timeout,hidle] at hd
    have hloop := Daemon.loop_spec hd
    have hend : o1.daemon.frame = none → cs = [] ∧ o' = o1 := by
      intro hnone
      cases cs with
      | nil => exact ⟨rfl,(some.inj hrest).symm⟩
      | cons c' cs =>
        have := hin1.1
        rw [InHandler,hnone] at this
        cases this
    cases hd1 : o1.daemon with
    | mk m1 frame1 =>
    rw [hd1] at hloop
    cases hloop with
    | fires q t hlist hread hdue hfew =>
      obtain ⟨es',hacc⟩ := accounted_of_run (hfr.step hs) (by rw [hd1])
        (by rw [checkSkew_numFires]; exact (by decide : (0 : Int) + 1 ≤ maxFiresPerTimeout))
          hin1 hrest
      rw [checkSkew_numFires] at hacc
      exact ⟨_,hacc.cons hs hes hintime⟩
    | capped m' result hdue hmany => exact absurd hmany (by decide : ¬maxFiresPerTimeout ≤ 0)
    | leaves m' result hdue =>
      obtain ⟨rfl,rfl⟩ := hend (by rw [hd1])
      refine ⟨_,Accounted.last hs hes (by rw [hd1]) (by decide) ?_⟩
      simp [hintime]
  refine ⟨es',hacc.events,by simpa using hacc.few,along_firesFirst o _,fun hnone => ?_⟩
  simpa using hacc.done hnone

def dueTimers (n : Nat) : List (Call Int) :=
  (List.range n).map fun i => .newTimer (i + 1) 0 0 none (readAt 100)

/-- One timer that is due, and the call in which its handler returns. -/
theorem timeout_accounted_one : ∃ o o' : Observed Int,
    run Observed.step init (dueTimers 1) = some o ∧
    run Observed.step o [.timeout (readAt 105),.handlerReturns (readAt 105)] = some o' ∧
    ∃ es, o'.events = o.events ++ es ∧ (handlers es : Int) ≤ maxFiresPerTimeout ∧
      Along Observed.step (fun o c => o.daemon.FiresFirst c) o
        [.timeout (readAt 105),.handlerReturns (readAt 105)] ∧
      (o'.daemon.frame = none → ∃ es' result, ∃ numFired : Int,
        es = es' ++ [.returned result numFired] ∧
          (numFired = handlers es ↔ Along Observed.step StopsInTime o
            [.timeout (readAt 105),.handlerReturns (readAt 105)])) := by
  obtain ⟨o',hr,-⟩ := run_exists Observed.step (init : Observed Int)
    (dueTimers 1 ++ [.timeout (readAt 105),.handlerReturns (readAt 105)])
      (fun _ => true) (by decide)
  obtain ⟨o,h0,hout⟩ := run_exists Observed.step (init : Observed Int) (dueTimers 1)
    (fun o => o.daemon.frame.isNone) (by decide)
  obtain ⟨o1,h1,hin⟩ := run_exists Observed.step (init : Observed Int)
    (dueTimers 1 ++ [.timeout (readAt 105)]) (fun o => o.daemon.frame.isSome) (by decide)
  rw [run_append,h0] at hr h1
  refine ⟨o,o',h0,hr,timeout_accounted h0 (by simpa using hout) (fun o2 h2 => ?_) hr⟩
  obtain rfl : o1 = o2 := by
    simpa [run,h2] using h1.symm
  exact ⟨hin,fun _ _ => trivial⟩

/-- With four timers that are due, the call invokes three handlers and stores four. -/
theorem timeout_miscounts : ∃ o o' : Observed Int,
    run Observed.step init (dueTimers 4) = some o ∧ o.daemon.frame = none ∧
    run Observed.step o (.timeout (readAt 105) :: List.replicate 3 (.handlerReturns (readAt 105))) =
      some o' ∧ o'.daemon.frame = none ∧
    ∃ es result, ∃ numFired : Int, o'.events = o.events ++ (es ++ [.returned result numFired]) ∧
      numFired ≠ handlers (es ++ [.returned result numFired]) := by
  obtain ⟨o',hr,ho'⟩ := run_exists Observed.step (init : Observed Int)
    (dueTimers 4 ++ .timeout (readAt 105) :: List.replicate 3 (.handlerReturns (readAt 105)))
    (fun o => o.daemon.frame.isNone && o.events == (List.range 4).map (fun i => .created i false) ++
      [.fired 0 100 105,.fired 1 100 105,.fired 2 100 105,.returned 0 4]) (by decide)
  obtain ⟨o,h0,ho⟩ := run_exists Observed.step (init : Observed Int) (dueTimers 4)
    (fun o => o.daemon.frame.isNone && o.events == (List.range 4).map fun i => .created i false)
    (by decide)
  rw [run_append,h0] at hr
  simp only [Bool.and_eq_true,isNone_iff_eq_none,beq_iff_eq] at ho ho'
  refine ⟨o,o',h0,ho.1,hr,ho'.1,[.fired 0 100 105,.fired 1 100 105,.fired 2 100 105],0,4,?_,
    by decide⟩
  rw [ho.2,ho'.2]
  rfl

end Observed

end Condor.DaemonCore
