import Condor.DaemonCore.TimerRefinement

/-!
# What the schedule lets happen

A cancelled timer never fires, and a timer that does not repeat fires at most once for each time it
was set.
-/

namespace Condor.DaemonCore

open List Option

variable {σ : Type} {t u : Timer σ} {us : List (Timer σ)} {id : Int}

private theorem place_perm (t : Timer σ) (us : List (Timer σ)) : (place t us).Perm (t :: us) := by
  induction us with
  | nil => exact List.Perm.refl _
  | cons u us ih =>
    rw [place]
    split
    · exact List.Perm.refl _
    · exact (ih.cons u).trans (List.Perm.swap t u us)

private theorem enqueue_perm (t : Timer σ) (us : List (Timer σ)) : (enqueue t us).Perm
    (t :: us) := by
  cases us with
  | nil => exact List.Perm.refl _
  | cons u us =>
    rw [enqueue]
    split
    · exact List.Perm.refl _
    · split
      · exact perm_append_singleton t (u :: us)
      · exact place_perm t (u :: us)

theorem mem_enqueue : u ∈ enqueue t us ↔ u = t ∨ u ∈ us := by
  rw [(enqueue_perm t us).mem_iff,mem_cons]

def Sorted (us : List (Timer σ)) : Prop := us.Pairwise fun t u => t.when ≤ u.when

theorem place_sorted (h : Sorted us) : Sorted (place t us) := by
  induction us with
  | nil => exact pairwise_singleton _ t
  | cons u us ih =>
    obtain ⟨hu,hus⟩ := List.pairwise_cons.mp h
    rw [place]
    split
    · next hlt =>
      refine List.pairwise_cons.mpr ⟨fun v hv => ?_,h⟩
      rcases List.mem_cons.mp hv with rfl | hv
      · omega
      · have := hu v hv
        omega
    · next hlt =>
      refine List.pairwise_cons.mpr ⟨fun v hv => ?_,ih hus⟩
      rcases List.mem_cons.mp ((place_perm t us).mem_iff.mp hv) with rfl | hv
      · omega
      · exact hu v hv

private theorem enqueue_sorted (h : Sorted us) (hb : ∀ u ∈ us, u.when ≤ timeTNever) :
    Sorted (enqueue t us) := by
  cases us with
  | nil => exact pairwise_singleton _ t
  | cons u us =>
    rw [enqueue]
    split
    · next hlt =>
      have hplace := place_sorted (t := t) h
      rw [place,if_pos hlt] at hplace
      exact hplace
    · split
      · next hnever =>
        refine List.pairwise_append.mpr ⟨h,pairwise_singleton _ t,fun v hv w hw => ?_⟩
        rw [List.mem_singleton.mp hw,hnever]
        exact hb v hv
      · exact place_sorted h

private theorem without_sublist (us : List (Timer σ)) (id : Int) :
    (Schedule.without us id).Sublist us := eraseP_sublist

theorem mem_without (h : us.Pairwise fun t u => t.id ≠ u.id) :
    u ∈ Schedule.without us id ↔ u ∈ us ∧ u.id ≠ id := by
  induction us with
  | nil => simp [Schedule.without]
  | cons t us ih =>
    obtain ⟨ht,hus⟩ := List.pairwise_cons.mp h
    by_cases hid : t.id = id
    · rw [Schedule.without,eraseP_cons_of_pos (by simpa using hid),mem_cons]
      constructor
      · intro hu
        exact ⟨.inr hu,fun heq => ht u hu (hid.trans heq.symm)⟩
      · rintro ⟨rfl | hu,hne⟩
        · exact absurd hid hne
        · exact hu
    · rw [Schedule.without,eraseP_cons_of_neg (by simpa using hid),mem_cons,
        mem_cons]
      constructor
      · rintro (rfl | hu)
        · exact ⟨.inl rfl,hid⟩
        · have hmem := (ih hus).mp hu
          exact ⟨.inr hmem.1,hmem.2⟩
      · rintro ⟨rfl | hu,hne⟩
        · exact .inl rfl
        · exact .inr ((ih hus).mpr ⟨hu,hne⟩)

def Event.fires (id : Int) : Event → Bool
  | .fired i _ _ => i = id
  | _ => false

def Event.sets (id : Int) : Event → Bool
  | .created i _ => i = id
  | .reset i _ => i = id
  | _ => false

def OneShot (id : Int) (es : List Event) : Prop :=
  Event.created id true ∉ es ∧ Event.reset id true ∉ es

theorem OneShot.left {es : List Event} {e : Event} (h : OneShot id (es ++ [e])) : OneShot id es :=
  ⟨fun hmem => h.1 (mem_append_left _ hmem),fun hmem => h.2 (mem_append_left _ hmem)⟩

/-- Cancelled timers are silent, none fires early, a one-shot once for each time it is set. -/
structure Tells (es : List Event) : Prop where
  silent : es.Pairwise fun a b => ∀ id, a = .cancelled id → Event.fires id b = false
  due : ∀ id when now, .fired id when now ∈ es → when ≤ now
  once : ∀ id, OneShot id es → es.countP (Event.fires id) ≤ es.countP (Event.sets id)

theorem Tells.snoc {es : List Event} {e : Event} (h : Tells es)
    (hsilent : ∀ id, .cancelled id ∈ es → e.fires id = false)
    (hdue : ∀ id when now, e = .fired id when now → when ≤ now)
    (honce : ∀ id, e.fires id = true → OneShot id es →
      es.countP (Event.fires id) < es.countP (Event.sets id)) : Tells (es ++ [e]) where
  silent := by
    refine List.pairwise_append.mpr ⟨h.silent,pairwise_singleton _ e,fun a ha b hb id hid => ?_⟩
    rw [List.mem_singleton.mp hb]
    exact hsilent id (hid ▸ ha)
  due id when now hmem := by
    rcases List.mem_append.mp hmem with hmem | hmem
    · exact h.due id when now hmem
    · exact hdue id when now (List.mem_singleton.mp hmem).symm
  once id hone := by
    have hle := h.once id hone.left
    rw [countP_append,countP_append,countP_singleton,countP_singleton]
    split
    · next hf =>
      have hlt := honce id hf hone.left
      omega
    · omega

namespace Schedule

variable {s s' : Schedule σ} {es : List Event} {r : Readings}

/-- The timer is in the list and its handler is not running since it was last set. -/
def Armed (s : Schedule σ) (id : Int) : Prop :=
  (∃ t ∈ s.timers, t.id = id) ∧ (s.running = some id → s.didReset = true)

structure Told (s : Schedule σ) (es : List Event) : Prop where
  quiet : ∀ id, .cancelled id ∈ es → id < s.timerIds ∧ ∀ t ∈ s.timers, t.id ≠ id
  single : ∀ id, OneShot id es → ∀ t ∈ s.timers, t.id = id → t.repeats = false
  credit : ∀ id, OneShot id es → s.Armed id →
    es.countP (Event.fires id) < es.countP (Event.sets id)
  tells : Tells es

theorem Told.keep (h : Told s es) (hids : s.timerIds ≤ s'.timerIds)
    (hmem : ∀ t' ∈ s'.timers, ∃ t ∈ s.timers, t.id = t'.id ∧ t.repeats = t'.repeats)
    (harmed : ∀ id, OneShot id es → s'.Armed id → s.Armed id) : Told s' es where
  quiet id hid := by
    obtain ⟨hlt,hne⟩ := h.quiet id hid
    refine ⟨Int.lt_of_lt_of_le hlt hids,fun t' ht' => ?_⟩
    obtain ⟨t,ht,heq,-⟩ := hmem t' ht'
    rw [← heq]
    exact hne t ht
  single id hone t' ht' hid := by
    obtain ⟨t,ht,heq,hrep⟩ := hmem t' ht'
    rw [← hrep]
    exact h.single id hone t ht (heq.trans hid)
  credit id hone harm := h.credit id hone (harmed id hone harm)
  tells := h.tells

theorem Told.returned (h : Told s es) (result fired : Int) :
    Told s (es ++ [.returned result fired]) where
  quiet id hid := h.quiet id (by simpa using hid)
  single id hone := h.single id hone.left
  credit id hone harm := by
    have hlt := h.credit id hone.left harm
    rw [countP_append,countP_append]
    exact hlt
  tells := h.tells.snoc (fun _ _ => rfl) (fun _ _ _ he => nomatch he) fun _ hf => nomatch hf

theorem Told.refused (h : Told s es) (id : Int) (repeats : Bool) :
    Told s (es ++ [.reset id repeats]) where
  quiet i hi := h.quiet i (by simpa using hi)
  single i hone := h.single i hone.left
  credit i hone harm := by
    have hlt := h.credit i hone.left harm
    rw [countP_append,countP_append]
    exact Nat.lt_of_lt_of_le hlt (Nat.le_add_right _ _)
  tells := h.tells.snoc (fun _ _ => rfl) (fun _ _ _ he => nomatch he) fun _ hf => nomatch hf

theorem Told.set {id : Int} {e : Event} (h : Told s es) (he : e = .created id t.repeats ∨
      e = .reset id t.repeats) (hid : t.id = id) (hids : s.timerIds ≤ s'.timerIds)
    (hcancel : .cancelled id ∉ es)
    (hmem : ∀ u ∈ s'.timers, u = t ∨ u ∈ s.timers)
    (hrun : ∀ i, i ≠ id → s.running = some i → s'.running = some i ∧ s'.didReset = s.didReset) :
    Told s' (es ++ [e]) where
  quiet i hi := by
    have hi : .cancelled i ∈ es := by
      rcases List.mem_append.mp hi with hi | hi
      · exact hi
      · rw [mem_singleton] at hi
        rcases he with rfl | rfl <;> cases hi
    obtain ⟨hilt,hne⟩ := h.quiet i hi
    refine ⟨Int.lt_of_lt_of_le hilt hids,fun u hu => ?_⟩
    rcases hmem u hu with rfl | hu
    · rintro rfl
      exact hcancel (hid ▸ hi)
    · exact hne u hu
  single i hone u hu hui := by
    rcases hmem u hu with rfl | hu
    · cases hrep : u.repeats with
      | false => rfl
      | true =>
        rw [hrep] at he
        obtain rfl : id = i := hid.symm.trans hui
        rcases he with rfl | rfl
        · exact absurd (mem_append_right _ (mem_singleton_self _)) hone.1
        · exact absurd (mem_append_right _ (mem_singleton_self _)) hone.2
    · exact h.single i hone.left u hu hui
  credit i hone harm := by
    have hle := h.tells.once i hone.left
    have hfires : e.fires i = false := by rcases he with rfl | rfl <;> rfl
    rw [countP_append,countP_append,countP_singleton,countP_singleton,hfires]
    by_cases hi : i = id
    · have hsets : e.sets i = true := by
        rcases he with rfl | rfl <;> simp [Event.sets,hi]
      rw [hsets]
      simp
      omega
    · have hlt := h.credit i hone.left ?_
      · simp
        omega
      · obtain ⟨⟨u,hu,hui⟩,hreset⟩ := harm
        refine ⟨⟨u,(hmem u hu).resolve_left ?_,hui⟩,fun hr => ?_⟩
        · rintro rfl
          exact hi (hui.symm.trans hid)
        · obtain ⟨hr',hd⟩ := hrun i hi hr
          rw [← hd]
          exact hreset hr'
  tells := by
    have hfires : ∀ i, e.fires i = false := by rcases he with rfl | rfl <;> exact fun _ => rfl
    refine h.tells.snoc (fun i _ => hfires i) (fun i w n hn => ?_) fun i hf => ?_
    · rcases he with rfl | rfl <;> cases hn
    · rw [hfires] at hf
      cases hf

structure Coherent (s : Schedule σ) : Prop where
  distinct : s.timers.Pairwise fun t u => t.id ≠ u.id
  below : ∀ t ∈ s.timers, t.id < s.timerIds
  running : ∀ id, s.running = some id → (s.didCancel = false ↔ ∃ t ∈ s.timers, t.id = id)

private theorem find_eq_some (h : s.find id = some t) : t ∈ s.timers ∧ t.id = id :=
  ⟨mem_of_find?_eq_some h,by simpa using find?_some h⟩

theorem Told.cancel (h : Told s es) (hc : s.Coherent) (id : Int) :
    Told (s.cancel id).1 (es ++ (s.cancel id).2) := by
  unfold Schedule.cancel
  cases hf : s.find id with
  | none =>
    rw [append_nil]
    exact h
  | some t =>
    obtain ⟨ht,hid⟩ := find_eq_some hf
    have hlt : id < s.timerIds := hid ▸ hc.below t ht
    have hkeep : Told { s with
        timers := without s.timers id
        didCancel := s.didCancel || s.running = some id } es := by
      refine h.keep (Int.le_refl _) (fun u hu =>
        ⟨u,(without_sublist s.timers id).subset hu,rfl,rfl⟩) ?_
      rintro i - ⟨⟨u,hu,hui⟩,hreset⟩
      exact ⟨⟨u,(without_sublist s.timers id).subset hu,hui⟩,hreset⟩
    refine ⟨fun i hi => ?_,fun i hone => hkeep.single i hone.left,fun i hone harm => ?_,?_⟩
    · rcases List.mem_append.mp hi with hi | hi
      · exact hkeep.quiet i hi
      · obtain rfl : i = id := by simpa using hi
        exact ⟨hlt,fun u hu => ((mem_without hc.distinct).mp hu).2⟩
    · have hcr := hkeep.credit i hone.left harm
      rw [countP_append,countP_append]
      exact hcr
    · exact h.tells.snoc (fun _ _ => rfl) (fun _ _ _ he => nomatch he) fun _ hf => nomatch hf

theorem Told.cancelAll (h : Told s es) : Told s.cancelAll es := by
  refine h.keep (Int.le_refl _) (fun u hu => nomatch hu) ?_
  rintro i - ⟨⟨u,hu,-⟩,-⟩
  cases hu

theorem Told.leave (h : Told s es) (hrun : s.running = none) (f : Frame) (r : Readings) :
    Told (s.leave f r).1 (es ++ (s.leave f r).2) := by
  have hkeep : Told (s.leave f r).1 es := ?_
  · exact hkeep.returned _ _
  refine h.keep (Int.le_refl _) (fun u hu => ⟨u,hu,rfl,rfl⟩) ?_
  rintro i - ⟨hmem,-⟩
  refine ⟨hmem,fun hr => ?_⟩
  rw [hrun] at hr
  cases hr

variable [Timeslice σ]

theorem Told.newTimer (h : Told s es) (deltawhen period : UInt32) (timeslice : Option σ)
    (r : Readings) :
    Told { s with
      timers := enqueue (Timer.fresh s.timerIds deltawhen period timeslice r) s.timers
      timerIds := s.timerIds + 1 }
      (es ++ [.created s.timerIds (decide (0 < period) || timeslice.isSome)]) := by
  refine h.set (t := Timer.fresh s.timerIds deltawhen period timeslice r) (.inl rfl) rfl
    (Int.le_of_lt (Int.lt_succ s.timerIds)) (fun hc => Int.lt_irrefl _ (h.quiet _ hc).1)
    (fun u hu => mem_enqueue.mp hu) fun i _ hr => ⟨hr,rfl⟩

private theorem rescheduled_repeats {when period : UInt32} {recomputeWhen : Bool}
    {newTimeslice : Option σ} {r : Readings} {t' : Timer σ}
    (h : t.rescheduled when period recomputeWhen newTimeslice r = some t') :
    t'.repeats = (decide (0 < period) || newTimeslice.isSome) := by
  unfold Timer.rescheduled at h
  split at h
  · cases h
    rfl
  · cases h
  · next hts =>
    split at h
    · split at h <;> cases h <;> simp [Timer.repeats,hts]
    · split at h <;> cases h <;> simp [Timer.repeats,hts]

theorem Told.reset (h : Told s es) (id : Int) (when period : UInt32) (recomputeWhen : Bool)
    (newTimeslice : Option σ) (r : Readings) {repeats : Bool}
    (hrep : repeats = (decide (0 < period) || newTimeslice.isSome)) :
    Told (s.reset id when period recomputeWhen newTimeslice r repeats).1
      (es ++ (s.reset id when period recomputeWhen newTimeslice r repeats).2) := by
  unfold Schedule.reset
  cases hf : s.find id with
  | none =>
    rw [append_nil]
    exact h
  | some t =>
    obtain ⟨ht,hid⟩ := find_eq_some hf
    have hcancel : Event.cancelled id ∉ es := fun hc => (h.quiet id hc).2 t ht hid
    simp only
    cases hr : t.rescheduled when period recomputeWhen newTimeslice r with
    | none => exact h.refused id repeats
    | some t' =>
      have hid' : t'.id = id := (TimerManager.rescheduled_keeps hr).1.trans hid
      refine h.set (t := t') (.inr ?_) hid' (Int.le_refl _) hcancel (fun u hu => ?_) ?_
      · rw [hrep,rescheduled_repeats hr]
      · rcases mem_enqueue.mp hu with rfl | hu
        · exact .inl rfl
        · exact .inr ((without_sublist s.timers id).subset hu)
      · intro i hi hrun
        refine ⟨hrun,?_⟩
        have hne : ¬ s.running = some id := fun heq => hi (some.inj (hrun.symm.trans heq))
        simp [hne]

private theorem started_repeats (t : Timer σ) (r : Readings) :
    (t.started r).repeats = t.repeats := by
  rw [Timer.repeats,Timer.started,isSome_map]
  rfl

private theorem finished_repeats (t : Timer σ) (r : Readings) :
    (t.finished r).repeats = t.repeats := by
  rw [Timer.repeats,Timer.finished,isSome_map]
  rfl

theorem Told.fire {us : List (Timer σ)} (h : Told s es) (hrun : s.running = none)
    (hus : s.timers = t :: us) {now : Int} (hdue : t.when ≤ now) (f : Frame) (r : Readings) :
    Told { s with
      timers := t.started r :: us
      running := some t.id
      didReset := false
      didCancel := false
      frame := some f } (es ++ [.fired t.id t.when now]) := by
  have ht : t ∈ s.timers := by rw [hus]; exact mem_cons_self
  have harmed : ∀ u ∈ s.timers, s.Armed u.id := by
    intro u hu
    refine ⟨⟨u,hu,rfl⟩,fun hr => ?_⟩
    rw [hrun] at hr
    cases hr
  have hmem : ∀ u ∈ t.started r :: us, ∃ v ∈ s.timers, v.id = u.id ∧ v.repeats = u.repeats := by
    intro u hu
    rcases List.mem_cons.mp hu with rfl | hu
    · exact ⟨t,ht,rfl,(started_repeats t r).symm⟩
    · exact ⟨u,by rw [hus]; exact mem_cons_of_mem t hu,rfl,rfl⟩
  refine ⟨fun i hi => ?_,fun i hone u hu hui => ?_,fun i hone harm => ?_,h.tells.snoc ?_ ?_ ?_⟩
  · obtain ⟨hlt,hne⟩ := h.quiet i (by simpa using hi)
    refine ⟨hlt,fun u hu => ?_⟩
    obtain ⟨v,hv,heq,-⟩ := hmem u hu
    rw [← heq]
    exact hne v hv
  · obtain ⟨v,hv,heq,hrep⟩ := hmem u hu
    rw [← hrep]
    exact h.single i hone.left v hv (heq.trans hui)
  · obtain ⟨⟨u,hu,hui⟩,hreset⟩ := harm
    have hi : ¬ t.id = i := fun heq => by
      have hr := hreset (congrArg some heq)
      cases hr
    obtain ⟨v,hv,heq,-⟩ := hmem u hu
    have hlt := h.credit i hone.left (by rw [← hui,← heq]; exact harmed v hv)
    rw [countP_append,countP_append,countP_singleton,countP_singleton]
    simp [Event.fires,Event.sets,hi]
    exact hlt
  · intro i hi
    have hne := (h.quiet i hi).2 t ht
    simp [Event.fires,hne]
  · intro i w n hf
    cases hf
    exact hdue
  · intro i hf hone
    obtain rfl : t.id = i := by simpa [Event.fires] using hf
    exact h.credit t.id hone (harmed t ht)

theorem Told.loop (h : Told s es) (hrun : s.running = none) (f : Frame) (r : Readings) :
    Told (s.loop f r).1 (es ++ (s.loop f r).2) := by
  unfold Schedule.loop
  split
  · exact h.leave hrun f r
  · next t us hus =>
    split
    · next hdue =>
      split
      · exact h.fire hrun hus hdue _ r
      · exact h.leave hrun _ r
    · exact h.leave hrun f r

theorem Told.timeout (h : Told s es) (r : Readings) :
    Told (s.timeout r).1 (es ++ (s.timeout r).2) := by
  unfold Schedule.timeout
  split
  · split <;> exact h.returned _ _
  · next hrun => exact h.loop hrun _ r

theorem mem_finish (h : u ∈ (s.finish id r).timers) :
    ∃ v ∈ s.timers, v.id = u.id ∧ v.repeats = u.repeats := by
  obtain ⟨v,hv,rfl⟩ := List.mem_map.mp h
  refine ⟨v,hv,?_⟩
  split
  · exact ⟨rfl,(finished_repeats v r).symm⟩
  · exact ⟨rfl,rfl⟩

private theorem finish_distinct (h : s.timers.Pairwise fun t u => t.id ≠ u.id) (id : Int)
    (r : Readings) :
    (s.finish id r).timers.Pairwise fun t u => t.id ≠ u.id := by
  refine List.Pairwise.map _ (fun v w hvw => ?_) h
  have hid : ∀ v : Timer σ, (if v.id = id then v.finished r else v).id = v.id := by
    intro v
    split <;> rfl
  rw [hid,hid]
  exact hvw

theorem mem_renew (hc : s.Coherent) (hrun : s.running = some id)
    (h : u ∈ (s.finish id r).renew id r) : (∃ v ∈ s.timers, v.id = u.id ∧ v.repeats = u.repeats) ∧
      (u.id = id → s.didReset = true ∨ u.repeats = true) := by
  unfold renew at h
  split at h
  · next hflags =>
    obtain ⟨v,hv,hid,hrep⟩ := mem_finish h
    refine ⟨⟨v,hv,hid,hrep⟩,fun hui => .inl ?_⟩
    have hcancel : s.didCancel = false := (hc.running id hrun).mpr ⟨v,hv,hid.trans hui⟩
    have hflags : (s.didCancel || s.didReset) = true := hflags
    rw [hcancel] at hflags
    exact hflags
  · split at h
    · next hf =>
      obtain ⟨v,hv,hid,hrep⟩ := mem_finish h
      refine ⟨⟨v,hv,hid,hrep⟩,fun hui => ?_⟩
      rw [find,find?_eq_none] at hf
      exact absurd (decide_eq_true hui) (hf u h)
    · next t hf =>
      obtain ⟨ht,hid⟩ := find_eq_some hf
      split at h
      · next hrep =>
        rcases mem_enqueue.mp h with rfl | h
        · obtain ⟨v,hv,hvid,hvrep⟩ := mem_finish ht
          exact ⟨⟨v,hv,hvid,hvrep⟩,fun _ => .inr hrep⟩
        · obtain ⟨hmem,hne⟩ := (mem_without (finish_distinct hc.distinct id r)).mp h
          exact ⟨mem_finish hmem,fun hui => absurd hui hne⟩
      · obtain ⟨hmem,hne⟩ := (mem_without (finish_distinct hc.distinct id r)).mp h
        exact ⟨mem_finish hmem,fun hui => absurd hui hne⟩

theorem Told.handlerReturns (h : Told s es) (hc : s.Coherent) (r : Readings) :
    Told (s.handlerReturns r).1 (es ++ (s.handlerReturns r).2) := by
  unfold Schedule.handlerReturns
  split
  · next f id hf hrun =>
    refine Told.loop (s := { s with timers := (s.finish id r).renew id r, running := none })
      (h.keep (Int.le_refl _) (fun u hu => (mem_renew hc hrun hu).1) ?_) rfl f r
    rintro i hone ⟨⟨u,hu,hui⟩,-⟩
    obtain ⟨⟨v,hv,hid,hrep⟩,hreset⟩ := mem_renew hc hrun hu
    refine ⟨⟨v,hv,hid.trans hui⟩,fun hr => ?_⟩
    obtain rfl : id = i := some.inj (hrun.symm.trans hr)
    rcases hreset hui with hreset | hreset
    · exact hreset
    · rw [← hrep,h.single id hone v hv (hid.trans hui)] at hreset
      cases hreset
  · rw [append_nil]
    exact h

theorem Told.step {c : Call σ} {x : Schedule σ × List Event} (h : Told s es) (hc : s.Coherent)
    (hs : s.step c = some x) : Told x.1 (es ++ x.2) := by
  cases c with
  | newTimer a deltawhen period timeslice r =>
    rw [Schedule.step] at hs
    split at hs
    · cases hs
    · cases hs
      exact h.newTimer deltawhen period timeslice r
  | resetTimer id when period r =>
    cases hs
    exact h.reset id when period false none r (by simp)
  | resetTimerPeriod id period r =>
    cases hs
    exact h.reset id 0 period true none r (by simp)
  | resetTimerTimeslice id timeslice r =>
    cases hs
    exact h.reset id 0 0 false (some timeslice) r (by simp)
  | cancelTimer id =>
    cases hs
    exact h.cancel hc id
  | cancelAllTimers =>
    cases hs
    rw [append_nil]
    exact h.cancelAll
  | timeout r =>
    cases hs
    exact h.timeout r
  | handlerReturns r =>
    cases hs
    exact h.handlerReturns hc r

private theorem sorted_loop (h : Sorted s.timers) (f : Frame) (r : Readings) :
    Sorted (s.loop f r).1.timers := by
  unfold Schedule.loop
  split
  · exact h
  · next t us hus =>
    rw [hus] at h
    split
    · split
      · exact List.pairwise_cons.mpr (List.pairwise_cons.mp h)
      · rw [← hus] at h
        exact h
    · rw [← hus] at h
      exact h

private theorem sorted_renew (h : Sorted s.timers) (hb : ∀ t ∈ s.timers, t.when ≤ timeTNever)
    (id : Int)
    (r : Readings) : Sorted ((s.finish id r).renew id r) := by
  have hwhen : ∀ v : Timer σ, (if v.id = id then v.finished r else v).when = v.when := by
    intro v
    split <;> rfl
  have hsort : Sorted (s.finish id r).timers := by
    refine List.Pairwise.map _ (fun v w hvw => ?_) h
    rw [hwhen,hwhen]
    exact hvw
  have hbound : ∀ t ∈ (s.finish id r).timers, t.when ≤ timeTNever := by
    intro t ht
    obtain ⟨v,hv,rfl⟩ := List.mem_map.mp ht
    rw [hwhen]
    exact hb v hv
  have hsub := without_sublist (s.finish id r).timers id
  unfold renew
  split
  · exact hsort
  · split
    · exact hsort
    · split
      · exact enqueue_sorted (hsort.sublist hsub) fun u hu => hbound u (hsub.subset hu)
      · exact hsort.sublist hsub

theorem sorted_step {c : Call σ} {x : Schedule σ × List Event} (h : Sorted s.timers)
    (hb : ∀ t ∈ s.timers, t.when ≤ timeTNever) (hs : s.step c = some x) : Sorted x.1.timers := by
  have hsub : ∀ id, Sorted (without s.timers id) := fun id => h.sublist (without_sublist _ id)
  have hreset : ∀ id when period recomputeWhen newTimeslice r repeats,
      Sorted (s.reset id when period recomputeWhen newTimeslice r repeats).1.timers := by
    intro id when period recomputeWhen newTimeslice r repeats
    unfold Schedule.reset
    split
    · exact h
    · split
      · exact h
      · exact enqueue_sorted (hsub id) fun u hu => hb u ((without_sublist _ id).subset hu)
  cases c with
  | newTimer a deltawhen period timeslice r =>
    rw [Schedule.step] at hs
    split at hs
    · cases hs
    · cases hs
      exact enqueue_sorted h hb
  | resetTimer | resetTimerPeriod | resetTimerTimeslice =>
    cases hs
    exact hreset ..
  | cancelTimer id =>
    cases hs
    unfold Schedule.cancel
    split
    · exact h
    · exact hsub id
  | cancelAllTimers =>
    cases hs
    exact List.Pairwise.nil
  | timeout r =>
    cases hs
    unfold Schedule.timeout
    split
    · split <;> exact h
    · exact sorted_loop h _ r
  | handlerReturns r =>
    cases hs
    unfold Schedule.handlerReturns
    split
    · exact sorted_loop (sorted_renew h hb _ r) _ r
    · exact h

end Schedule

end Condor.DaemonCore
