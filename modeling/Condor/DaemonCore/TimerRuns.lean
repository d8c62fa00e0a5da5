import Condor.DaemonCore.TimerEvents

/-!
# Runs of the timer manager

Every run of calls, those made by handlers included, keeps the linked list intact and reaches no
assertion, and its events show which timers can fire.
-/

namespace Condor.DaemonCore

open Condor.Lib TimerManager List

variable {σ : Type}

structure Daemon.Intact (d : Daemon σ) (l : List Addr) : Prop where
  list : Segment d.manager.read Timer.next d.manager.timerList l none
  sorted : l.Pairwise fun p q => ∀ t u, d.manager.read p = some t → d.manager.read q = some u →
    t.when ≤ u.when
  tail : d.manager.listTail = l.getLast?
  empty : d.manager.listTail = none ↔ d.manager.timerList = none
  ids : l.Pairwise fun p q => ∀ t u, d.manager.read p = some t → d.manager.read q = some u →
    t.id ≠ u.id
  allocated : ∀ p ∈ l, (d.manager.read p).isSome
  running : ∀ p, d.frame.isSome → d.manager.inTimeout = some p → (d.manager.read p).isSome

/-- Every time that is stored in a timer is at most `TIME_T_NEVER`. -/
def Daemon.Bounded (d : Daemon σ) : Prop :=
  ∀ e ∈ d.manager.heap.entries, e.2.when ≤ timeTNever
deriving Decidable

theorem Daemon.Bounded.read {d : Daemon σ} {p : Addr} {t : Timer σ} (h : d.Bounded)
    (hp : d.manager.read p = some t) : t.when ≤ timeTNever :=
  h ⟨p,t⟩ (AList.mem_lookup_iff.mp hp)

variable {s : Schedule σ}

private theorem TimerManager.Mirrors.coherent {m : TimerManager σ} {l : List Addr}
    (h : Mirrors m s l) : s.Coherent := by
  have hmem : ∀ t ∈ s.timers, ∃ p, m.cell p = some t := by
    intro t ht
    have hmem : some t ∈ s.timers.map some := mem_map_of_mem ht
    rw [← h.timers] at hmem
    obtain ⟨p,-,hp⟩ := List.mem_map.mp hmem
    exact ⟨p,hp⟩
  refine ⟨?_,fun t ht => ?_,fun id hrun => ?_⟩
  · have hpair : (l.map m.cell).Pairwise fun a b =>
        ∀ t u, a = some t → b = some u → t.id ≠ u.id := by
      refine List.pairwise_map.mpr (h.linked.nodup.imp fun {p q} hpq t u hp hq hid => ?_)
      exact hpq (h.distinct p q t u hp hq hid)
    rw [h.timers,pairwise_map] at hpair
    exact hpair.imp fun {t u} htu => htu t u rfl rfl
  · obtain ⟨p,hp⟩ := hmem t ht
    rw [h.timerIds]
    exact h.below p t hp
  · cases hin : m.inTimeout with
    | none =>
      rw [h.idle hin] at hrun
      cases hrun
    | some p =>
      obtain ⟨-,-,-,hcancel⟩ := h.busy p hin
      rw [h.didCancel,hcancel,h.mem_of_running hin,hrun]
      constructor
      · rintro ⟨t,ht,hid⟩
        exact ⟨t,ht,(Option.some.inj hid).symm⟩
      · rintro ⟨t,ht,rfl⟩
        exact ⟨t,ht,rfl⟩

private theorem pairwise_cells {m : TimerManager σ} {l : List Addr}
    {R : Timer σ → Timer σ → Prop} (h : Mirrors m s l) (hR : s.timers.Pairwise R) :
    l.Pairwise fun p q => ∀ t u, m.read p = some t → m.read q = some u → R t.unlink u.unlink := by
  have hpair : (s.timers.map some).Pairwise fun a b => ∀ t u, a = some t → b = some u → R t u := by
    refine List.pairwise_map.mpr (hR.imp fun {t u} htu v w hv hw => ?_)
    cases hv
    cases hw
    exact htu
  rw [← h.timers,pairwise_map] at hpair
  refine hpair.imp fun {p q} hpq t u ht hu => ?_
  exact hpq t.unlink u.unlink (cell_of_read ht) (cell_of_read hu)

private theorem Daemon.Refines.intact {d : Daemon σ} {l : List Addr}
    (h : d.Refines s l) (hs : Sorted s.timers) : d.Intact l where
  list := h.mirrors.linked.chain
  sorted := pairwise_cells h.mirrors hs
  tail := h.mirrors.linked.tail
  empty := by
    rw [h.mirrors.linked.tail,h.mirrors.linked.chain.head_eq,getLast?_eq_none_iff,
      head?_eq_none_iff]
  ids := pairwise_cells h.mirrors h.mirrors.coherent.distinct
  allocated p hp := Option.isSome_iff_exists.mpr (h.mirrors.linked.read hp)
  running p _ hp := by
    obtain ⟨t,ht,-⟩ := h.mirrors.busy p hp
    obtain ⟨u,hu,-⟩ := read_of_cell ht
    exact Option.isSome_iff_exists.mpr ⟨u,hu⟩

variable [Timeslice σ]

namespace Observed

/-- The call computes no time beyond `TIME_T_NEVER`. -/
def ComputesBelow (o : Observed σ) (c : Call σ) : Prop :=
  match o.step c with
  | some o' => o'.daemon.Bounded
  | none => True

instance (o : Observed σ) (c : Call σ) : Decidable (o.ComputesBelow c) :=
  match h : o.step c with
  | some o' => decidable_of_iff o'.daemon.Bounded (by rw [ComputesBelow,h])
  | none => .isTrue (by rw [ComputesBelow,h]; trivial)

def Good (o : Observed σ) : Prop :=
  o.daemon.Bounded ∧
    ∃ s l, o.daemon.Refines s l ∧ Sorted s.timers ∧ s.Told o.events

omit [Timeslice σ] in
theorem good_init : (init : Observed σ).Good := by
  have htells : Tells [] :=
    ⟨List.Pairwise.nil,(fun _ _ _ hf => nomatch hf),fun _ _ => Nat.le_refl _⟩
  have htold : (Schedule.init : Schedule σ).Told [] := by
    refine ⟨(fun _ hi => nomatch hi),(fun _ _ _ ht => nomatch ht),?_,htells⟩
    rintro i - ⟨⟨t,ht,-⟩,-⟩
    cases ht
  exact ⟨(fun _ he => nomatch he),Schedule.init,[],Daemon.refines_init,List.Pairwise.nil,htold⟩

theorem Good.step {o o' : Observed σ} {c : Call σ} (h : o.Good) (hok : o.ComputesBelow c)
    (hs : o.step c = some o') : o'.Good := by
  rw [ComputesBelow,hs] at hok
  refine ⟨hok,?_⟩
  obtain ⟨hbound,s,l,href,hsort,htold⟩ := h
  rw [Observed.step] at hs
  split at hs
  · next hpos =>
    rcases href.step hpos with ⟨d',s',es,l',hd,hs',href'⟩ | ⟨hd,-⟩
    · rw [hd] at hs
      obtain rfl := Option.some.inj hs
      have hb : ∀ t ∈ s.timers, t.when ≤ timeTNever := by
        intro t ht
        have hmem : some t ∈ s.timers.map some := mem_map_of_mem ht
        rw [← href.mirrors.timers] at hmem
        obtain ⟨p,-,hp⟩ := List.mem_map.mp hmem
        obtain ⟨u,hu,rfl⟩ := read_of_cell hp
        show u.when ≤ timeTNever
        exact hbound.read hu
      exact ⟨s',l',href',Schedule.sorted_step hsort hb hs',htold.step href.mirrors.coherent hs'⟩
    · rw [hd] at hs
      cases hs
  · cases hs

/-- In every run the list is intact, no call reaches an assertion or a freed timer, cancelled timers
stay silent, none fires early, and one that does not repeat fires once for each time it is set. -/
theorem intact_of_run {o : Observed σ} {cs : List (Call σ)}
    (hok : Along Observed.step ComputesBelow init cs) (hr : run Observed.step init cs = some o) :
    (∃ l, o.daemon.Intact l) ∧
    (∀ c, o.daemon.Possible c → ∀ f, o.daemon.step c = .error f → f = .idOverflow) ∧
    Tells o.events := by
  have hstep : ∀ (o : Observed σ) (c : Call σ) (o' : Observed σ), o.Good → o.ComputesBelow c →
      o.step c = some o' → o'.Good := fun _ _ _ => Good.step
  obtain ⟨-,s,l,href,hsort,htold⟩ := run_invariant hstep hok good_init hr
  refine ⟨⟨l,href.intact hsort⟩,fun c hc f hf => ?_,htold.tells⟩
  rcases href.step hc with ⟨d',s',es,l',hd,-⟩ | ⟨hd,-⟩
  · rw [hd] at hf
    cases hf
  · rw [hd] at hf
    cases hf
    rfl

def scheduled (x : Schedule σ × List Event) (c : Call σ) : Option (Schedule σ × List Event) :=
  (x.1.step c).map fun r => (r.1,x.2 ++ r.2)

/-- A run of the timer manager that is not cut short is one of the schedule, with the same timers in
the same order and the same events. -/
theorem schedule_of_run (cs : List (Call σ)) : run Observed.step init cs = none ∨
    ∃ o s, run Observed.step init cs = some o ∧
      run scheduled (Schedule.init,[]) cs = some (s,o.events) ∧ ∃ l, o.daemon.Refines s l := by
  cases hr : run Observed.step init cs with
  | none => exact Or.inl rfl
  | some o =>
    have hstep (o : Observed σ) (x : Schedule σ × List Event) (c : Call σ) (o' : Observed σ)
        (h : x.2 = o.events ∧ ∃ l, o.daemon.Refines x.1 l) (hs : o.step c = some o') :
        ∃ y, scheduled x c = some y ∧ y.2 = o'.events ∧ ∃ l, o'.daemon.Refines y.1 l := by
      obtain ⟨he,l,href⟩ := h
      rw [Observed.step] at hs
      split at hs
      · next hpos =>
        rcases href.step hpos with ⟨d',s',es,l',hd,hs',href'⟩ | ⟨hd,-⟩ <;> rw [hd] at hs
        · obtain rfl := Option.some.inj hs
          exact ⟨(s',x.2 ++ es),by rw [scheduled,hs']; rfl,by rw [he],l',href'⟩
        · cases hs
      · cases hs
    obtain ⟨⟨s,es⟩,hx,rfl,hl⟩ := run_simulates (t := (Schedule.init,[])) hstep
      ⟨rfl,[],Daemon.refines_init⟩ hr
    exact Or.inr ⟨o,s,rfl,hx,hl⟩

instance fixedTimeslice : Timeslice Int := ⟨fun _ s => s,fun _ s => s,fun s => s⟩

def readAt (now : Int) : Readings := ⟨now,now,now,now,now,now,now⟩

/-- A handler that resets and then cancels its own timer, sets a timer in the past, and cancels
all others. -/
def selfCancel : List (Call Int) :=
  [.newTimer 1 5 0 none (readAt 100),.newTimer 2 timerNever 0 none (readAt 100),
    .newTimer 3 0 0 (some 103) (readAt 100),.timeout (readAt 105),.handlerReturns (readAt 105),
    .resetTimer 0 1 0 (readAt 105),.resetTimerTimeslice 2 90 (readAt 105),.cancelTimer 0,
    .handlerReturns (readAt 106),.cancelAllTimers,.handlerReturns (readAt 106)]

theorem intact_of_run_selfCancel : ∃ o, run Observed.step init selfCancel = some o ∧
    (∃ l, o.daemon.Intact l) ∧
    (∀ c, o.daemon.Possible c → ∀ f, o.daemon.step c = .error f → f = .idOverflow) ∧
    Tells o.events := by
  obtain ⟨o,hr,-⟩ := run_exists Observed.step (init : Observed Int) selfCancel
    (fun o => o.events.length == 10) (by decide)
  exact ⟨o,hr,intact_of_run (by decide) hr⟩

end Observed

end Condor.DaemonCore
