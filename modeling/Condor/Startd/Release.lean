import Condor.Startd.ResState

/-!
# Leaving a claim

How a slot comes to rest: in the states in which nobody holds it, and from there, perhaps at once,
in no state at all. The nested calls of `change` that this takes are counted.
-/

namespace Condor.Startd

namespace Slot

structure Free (s : Slot) : Prop where
  cur : s.cur = some {}
  pre : s.pre = none

def Resting (s : Slot) : Prop :=
  match s.state with
  | .owner => s.act = .idle
  | .unclaimed => s.act = .idle ∨ s.act = .benchmarking
  | .drained => s.act = .idle ∨ s.act = .retiring
  | _ => False

def Released (s : Slot) : Prop := s.Resting ∧ s.Free

def Running (s : Slot) : Prop := ∃ c, s.cur = some c ∧ c.isActive = true ∧ c.starter = true

theorem Running.congr {s t : Slot} (h : s.Running) (hc : t.cur = s.cur) : t.Running := by
  obtain ⟨c,hs⟩ := h
  exact ⟨c,hc.trans hs.1,hs.2⟩

theorem Free.not_running {s : Slot} (h : s.Free) : ¬s.Running := by
  intro ⟨c,hc,ha,hs⟩
  obtain rfl : {} = c := Option.some.inj (h.cur.symm.trans hc)
  simp at hs

/-- What a call leaves as it is: what kind of slot it is, that it is not to be deleted, and, unless
a signal is lost, its starter. -/
structure Onward (a : Answers) (s t : Slot) : Prop where
  dynamic : t.dynamic = s.dynamic
  delete : t.destination = some .delete → s.destination = some .delete
  running : s.Running → t.Running ∨ a.lost ≠ []

theorem Onward.rfl {a : Answers} {s : Slot} : s.Onward a s := ⟨Eq.refl _,id,.inl⟩

theorem Onward.trans {a : Answers} {s t u : Slot} (h : s.Onward a t) (h' : t.Onward a u) :
    s.Onward a u :=
  ⟨h'.dynamic.trans h.dynamic,fun hd => h.delete (h'.delete hd),
    fun hr => (h.running hr).elim h'.running .inr⟩

/-- The reasons for which a slot is removed. One that is to be deleted waits for its starter. -/
def Removable (a : Answers) (s : Slot) : Prop :=
  (s.dynamic = true ∧ a.currentlyFetching = false) ∨
    (s.destination = some .delete ∧ (s.Running → a.lost ≠ []))

theorem Removable.of_onward {a : Answers} {s t : Slot} (h : s.Onward a t) (ht : t.Removable a) :
    s.Removable a := by
  cases ht with
  | inl hd => exact .inl ⟨h.dynamic ▸ hd.1,hd.2⟩
  | inr hd => exact .inr ⟨h.delete hd.1,fun hr => (h.running hr).elim hd.2 id⟩

/-- A call that begins in `s` and either leaves the slot such that `P` or rightly removes it. -/
def Ends (a : Answers) (s : Slot) (P : Slot → Prop) : Outcome → Prop
  | .ok (some t) => P t ∧ s.Onward a t
  | .ok none => s.Removable a
  | .error _ => False

variable {a : Answers} {s t : Slot} {P Q : Slot → Prop} {o : Outcome}

theorem Ends.stay (h : P s) : Ends a s P (.ok (some s)) := ⟨h,Onward.rfl⟩

theorem Ends.of_onward (hst : s.Onward a t) (h : Ends a t P o) : Ends a s P o := by
  match o with
  | .ok (some u) => exact ⟨h.1,hst.trans h.2⟩
  | .ok none => exact Removable.of_onward hst h
  | .error _ => exact h

theorem Ends.mono (hPQ : ∀ u, P u → Q u) (h : Ends a s P o) : Ends a s Q o := by
  match o with
  | .ok (some u) => exact ⟨hPQ u h.1,h.2⟩
  | .ok none => exact h
  | .error _ => exact h

theorem Ends.ne_none (h : Ends a s P o) (hs : ¬s.Removable a) : o ≠ .ok none := by
  intro ho
  rw [ho] at h
  exact hs h

theorem Ends.andThen {f : Slot → Outcome} (h : Ends a s P o) (ho : o ≠ .ok none)
    (hf : ∀ u, P u → s.Onward a u → Ends a u Q (f u)) : Ends a s Q (o.andThen f) := by
  match o with
  | .ok (some u) => exact (hf u h.1 h.2).of_onward h.2
  | .ok none => exact absurd rfl ho
  | .error _ => exact h

theorem moved_onward (s : Slot) (state : State) (act : Activity) :
    s.Onward a (s.moved state act) := by
  constructor
  · rfl
  · intro h
    simp only [moved] at h
    split at h
    · simp at h
    · exact h
  · exact fun hr => .inl (hr.congr rfl)

@[simp] theorem moved_state (s : Slot) (state : State) (act : Activity) :
    (s.moved state act).state = state := rfl

@[simp] theorem moved_act (s : Slot) (state : State) (act : Activity) :
    (s.moved state act).act = act := rfl

@[simp] theorem moved_cur (s : Slot) (state : State) (act : Activity) :
    (s.moved state act).cur = s.cur := rfl

@[simp] theorem moved_pre (s : Slot) (state : State) (act : Activity) :
    (s.moved state act).pre = s.pre := rfl

@[simp] theorem moved_draining (s : Slot) (state : State) (act : Activity) :
    (s.moved state act).draining = s.draining := rfl

theorem Free.moved (h : s.Free) (state : State) (act : Activity) : (s.moved state act).Free :=
  ⟨h.cur,h.pre⟩

variable (a) in
theorem change_eq (n : Nat) {state : State} {act : Activity}
    (hne : ¬(s.state = state ∧ s.act = act))
    (hl : s.leaveAction a (change a n) state = .proceed t) (ht : accepts t.state t.act = true) :
    change a (n + 1) s state act =
      entered a (change a n) ((t.moved state act).enterAction a (change a n)
        (t.state ≠ state)) := by
  rw [change,changeBody,if_neg hne,hl]
  simp only [ht,if_true]

theorem change_same (n : Nat) : change a (n + 1) s s.state s.act = .ok (some s) := by
  rw [change,changeBody,if_pos ⟨rfl,rfl⟩]

theorem leaveAction_eq (change : Slot → State → Activity → Outcome) (state : State)
    (hs : accepts s.state s.act = true) (hc : s.state = .claimed → s.act ≠ .suspended) :
    s.leaveAction a change state = .proceed s := by
  unfold leaveAction
  cases h : s.state <;> simp_all [accepts]

theorem leaveAction_of_no_starter (change : Slot → State → Activity → Outcome) (state : State)
    (hs : accepts s.state s.act = true) (hc : s.hasStarter = false) :
    ∃ cur, s.leaveAction a change state = .proceed { s with cur := cur } := by
  by_cases h : s.state = .claimed ∧ s.act = .suspended
  · refine ⟨(s.setClaimState .idle).cur,?_⟩
    simp [leaveAction,h.1,h.2,resumeClaim,hc,setClaimState]
  · exact ⟨s.cur,leaveAction_eq change state hs fun hs ha => h ⟨hs,ha⟩⟩

theorem Released.accepts (h : s.Released) : accepts s.state s.act = true := by
  have hr := h.1
  unfold Resting at hr
  cases hs : s.state <;> simp_all [Startd.accepts]

theorem Released.not_claimed (h : s.Released) : s.state ≠ .claimed := by
  intro hs
  have hr := h.1
  simp [Resting,hs] at hr

theorem change_delete (n : Nat) (hs : Startd.accepts s.state s.act = true) (hc : s.state ≠ .claimed)
    (act : Activity) : change a (n + 1) s .delete act = .ok none := by
  have hne : ¬(s.state = .delete ∧ s.act = act) := by
    intro h
    simp [h.1,Startd.accepts] at hs
  rw [change_eq a n hne (leaveAction_eq _ _ hs fun h => absurd h hc) hs]
  simp [enterAction,entered]

theorem change_drained_idle (n : Nat) (hs : s.state = .drained) (ha : s.act = .retiring)
    (hf : s.Free) (hd : s.draining = true) :
    ∃ t, change a (n + 1) s .drained .idle = .ok (some t) ∧ t.Released ∧ s.Onward a t := by
  have hacc : Startd.accepts s.state s.act = true := by simp [hs,ha,Startd.accepts]
  have hm : s.Onward a (s.moved .drained .idle) := moved_onward s _ _
  have hfm : (s.moved .drained .idle).Free := hf.moved _ _
  rw [change_eq a n (by simp [ha]) (leaveAction_eq _ _ hacc (by simp [hs])) hacc]
  simp only [enterAction,moved_state,entered,moved_act,reduceCtorEq,if_false,or_true,if_true,eval,
    moved_draining,hd,Bool.not_true,Bool.false_eq_true,true_and]
  split
  · exact ⟨_,rfl,⟨by simp [Resting],⟨hfm.cur,hfm.pre⟩⟩,hm.dynamic,hm.delete,
      fun hr => absurd hr hf.not_running⟩
  · exact ⟨_,rfl,⟨by simp [Resting],hfm⟩,hm⟩

theorem change_drained_retiring (n : Nat) (hs : s.Released) (hne : s.state ≠ .drained)
    (hd : s.draining = true) :
    ∃ t, change a (n + 2) s .drained .retiring = .ok (some t) ∧ t.Released ∧ s.Onward a t := by
  have hm : s.Onward a (s.moved .drained .retiring) := moved_onward s _ _
  have hfm : (s.moved .drained .retiring).Free := hs.2.moved _ _
  rw [change_eq a (n + 1) (fun h => hne h.1) (leaveAction_eq _ _ hs.accepts
    fun h => absurd h hs.not_claimed) hs.accepts]
  simp only [enterAction,moved_state,entered,moved_act,reduceCtorEq,if_false,or_false,if_true,eval,
    moved_draining,hd,Bool.not_true,Bool.false_eq_true]
  split
  · obtain ⟨t,ht,hr,ho⟩ := change_drained_idle (a := a) n (s := s.moved .drained .retiring)
      (by simp) (by simp) hfm (by simpa using hd)
    exact ⟨t,ht,hr,hm.trans ho⟩
  · exact ⟨_,rfl,⟨by simp [Resting],hfm⟩,hm⟩

theorem Ends.of_exists (h : ∃ t, o = .ok (some t) ∧ P t ∧ s.Onward a t) : Ends a s P o := by
  obtain ⟨t,rfl,ht⟩ := h
  exact ht

private theorem startBenchmarks_ends (n : Nat) (hs : s.state = .unclaimed) (hr : s.Released)
    (hdyn : s.dynamic = false) (hd : s.draining = false) (ho : a.isOwner = false) :
    Ends a s Released ((s.startBenchmarks a (change a (n + 1))).andThen fun s => .ok (some s)) := by
  have hb : ∃ t, change a (n + 1) s s.state .benchmarking = .ok (some t) ∧ t.state = .unclaimed ∧
      t.act = .benchmarking ∧ t.Free ∧ t.dynamic = false ∧ t.draining = false ∧ s.Onward a t := by
    by_cases hact : s.act = .benchmarking
    · refine ⟨s,?_,hs,hact,hr.2,hdyn,hd,Onward.rfl⟩
      rw [← hact,change_same]
    · rw [change_eq a n (by simp [hact]) (leaveAction_eq _ _ hr.accepts
        fun h => absurd h hr.not_claimed) hr.accepts]
      refine ⟨s.moved .unclaimed .benchmarking,?_,rfl,rfl,hr.2.moved _ _,hdyn,hd,
        moved_onward s _ _⟩
      simp [enterAction,entered,hs]
  obtain ⟨t,ht,hts,hta,htf,htd,htr,hst⟩ := hb
  rw [startBenchmarks,ht]
  simp only [Outcome.andThen]
  cases a.benchmarksStarted with
  | true => exact ⟨⟨by simp [Resting,hts,hta],htf⟩,hst⟩
  | false =>
    have hacc : Startd.accepts t.state t.act = true := by simp [hts,hta,Startd.accepts]
    have hi : change a (n + 1) t t.state .idle = .ok (some (t.moved .unclaimed .idle)) := by
      rw [change_eq a n (by simp [hta]) (leaveAction_eq _ _ hacc (by simp [hts])) hacc]
      simp [enterAction,entered,eval,moved,hts,hta,htd,htr,ho]
    simp only [hi,Bool.false_eq_true,if_false]
    exact ⟨⟨by simp [Resting],htf.moved _ _⟩,hst.trans (moved_onward t _ _)⟩

theorem eval_unclaimed (n : Nat) (hs : s.state = .unclaimed) (hr : s.Released)
    (ho : a.isOwner = false) : Ends a s Released (s.eval a (change a (n + 2))) := by
  simp only [eval,hs]
  split
  · rename_i hdyn
    split
    · exact Ends.stay hr
    · rename_i hf
      simp only [changeTo,change_delete (n + 1) hr.accepts hr.not_claimed]
      exact .inl ⟨hdyn,by simpa using hf⟩
  · split
    · rename_i hd
      exact Ends.of_exists (change_drained_retiring n hr (by simp [hs]) hd)
    · rename_i hdyn hd
      simp only [ho,Bool.false_eq_true,if_false]
      split
      · exact startBenchmarks_ends (n + 1) hs hr (by simpa using hdyn) (by simpa using hd) ho
      · exact Ends.stay hr

private theorem change_unclaimed (n : Nat) (hs : s.state = .owner) (hr : s.Released)
    (ho : a.isOwner = false) : Ends a s Released (change a (n + 3) s .unclaimed .idle) := by
  rw [change_eq a (n + 2) (by simp [hs]) (leaveAction_eq _ _ hr.accepts
    fun h => absurd h hr.not_claimed) hr.accepts]
  simp only [enterAction,moved_state,entered,moved_act,reduceCtorEq,if_false,or_true,if_true]
  refine (eval_unclaimed n rfl ⟨?_,hr.2.moved _ _⟩ ho).of_onward (moved_onward s _ _)
  simp [Resting]

theorem eval_owner (n : Nat) (hs : s.state = .owner) (hr : s.Released) :
    Ends a s Released (s.eval a (change a (n + 3))) := by
  simp only [eval,hs]
  split
  · rename_i hdyn
    split
    · exact Ends.stay hr
    · rename_i hf
      simp only [changeTo,change_delete (n + 2) hr.accepts hr.not_claimed]
      exact .inl ⟨hdyn,by simpa using hf⟩
  · split
    · rename_i hd
      exact Ends.of_exists (change_drained_retiring (n + 1) hr (by simp [hs]) hd)
    · split
      · exact Ends.stay hr
      · rename_i ho
        exact change_unclaimed n hs hr (by simpa using ho)

theorem change_owner (n : Nat) (hs : Startd.accepts s.state s.act = true)
    (hl : ∃ cur, s.leaveAction a (change a (n + 3)) .owner = .proceed { s with cur := cur })
    (hr : s.state = .owner → s.Released) (hrun : s.Running → a.lost ≠ []) :
    Ends a s Released (change a (n + 4) s .owner .idle) := by
  by_cases hne : s.state = .owner ∧ s.act = .idle
  · have hsame : change a (n + 4) s s.state s.act = .ok (some s) := change_same (n + 3)
    rw [hne.1,hne.2] at hsame
    rw [hsame]
    exact Ends.stay (hr hne.1)
  · obtain ⟨cur,hl⟩ := hl
    rw [change_eq a (n + 3) hne hl hs]
    have ho : s.Onward a
        { (moved { s with cur := cur } .owner .idle) with cur := some {}, pre := none } :=
      ⟨rfl,(moved_onward (a := a) { s with cur := cur } .owner .idle).delete,fun h => .inr (hrun h)⟩
    have hf : Released { (moved { s with cur := cur } .owner .idle) with
        cur := some {}, pre := none } :=
      ⟨by simp [Resting],rfl,rfl⟩
    simp only [enterAction,moved_state]
    split
    · simp only [entered,moved_act,reduceCtorEq,if_false,or_true,if_true]
      exact (eval_owner n rfl hf).of_onward ho
    · rename_i hown
      simp only [entered,changeTo]
      exact (change_unclaimed n rfl hf (by simpa using hown)).of_onward ho

end Slot

end Condor.Startd
