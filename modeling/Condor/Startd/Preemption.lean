import Condor.Startd.Release

/-!
# Preempting a claim

A claim either has a starter and is active, or has none and is idle.
-/

namespace Condor.Startd.Slot

def Vacant (s : Slot) : Prop := ∃ c, s.cur = some c ∧ c.state = .idle ∧ c.starter = false

/-- The states in which somebody holds the slot, and in which activities a starter runs. -/
def Held (s : Slot) : Prop :=
  s.pre ≠ none ∧
    ((s.state = .claimed ∧ s.act = .idle ∧ s.Vacant) ∨
      (s.state = .claimed ∧ (s.act = .busy ∨ s.act = .retiring ∨ s.act = .suspended) ∧ s.Running) ∨
      (s.state = .preempting ∧ (s.act = .vacating ∨ s.act = .killing) ∧ s.Running))

def Settled (s : Slot) : Prop := s.Released ∨ s.Held

/-- Everything but the current claim and the signals sent to its starter is the same. -/
structure Alike (s t : Slot) : Prop where
  state : t.state = s.state
  act : t.act = s.act
  pre : t.pre = s.pre
  draining : t.draining = s.draining
  dynamic : t.dynamic = s.dynamic
  destination : t.destination = s.destination

variable {a : Answers} {s t : Slot} {change' : Slot → State → Activity → Outcome}

theorem Alike.rfl : s.Alike s := ⟨Eq.refl _,Eq.refl _,Eq.refl _,Eq.refl _,Eq.refl _,Eq.refl _⟩

theorem Alike.trans {u : Slot} (h : s.Alike t) (h' : t.Alike u) : s.Alike u :=
  ⟨h'.state.trans h.state,h'.act.trans h.act,h'.pre.trans h.pre,h'.draining.trans h.draining,
    h'.dynamic.trans h.dynamic,h'.destination.trans h.destination⟩

theorem Alike.onward (h : s.Alike t) (hr : s.Running → t.Running) : s.Onward a t :=
  ⟨h.dynamic,fun hd => h.destination ▸ hd,fun hs => .inl (hr hs)⟩

theorem Held.accepts (h : s.Held) : accepts s.state s.act = true := by
  rcases h.2 with ⟨hs,ha,-⟩ | ⟨hs,ha,-⟩ | ⟨hs,ha,-⟩
  · simp [hs,ha,Startd.accepts]
  · rcases ha with ha | ha | ha <;> simp [hs,ha,Startd.accepts]
  · rcases ha with ha | ha <;> simp [hs,ha,Startd.accepts]

theorem Settled.accepts (h : s.Settled) : Startd.accepts s.state s.act = true := by
  cases h with
  | inl hr => exact hr.accepts
  | inr hh => exact hh.accepts

theorem Running.claimIsActive (h : s.Running) : s.claimIsActive = true := by
  obtain ⟨c,hc,hi,-⟩ := h
  simp [Slot.claimIsActive,hc,hi]

theorem Running.hasStarter (h : s.Running) : s.hasStarter = true := by
  obtain ⟨c,hc,-,hs⟩ := h
  simp [Slot.hasStarter,hc,hs]

theorem Vacant.claimIsActive (h : s.Vacant) : s.claimIsActive = false := by
  obtain ⟨c,hc,hi,-⟩ := h
  simp [Slot.claimIsActive,hc,Claim.isActive,hi]

theorem Vacant.hasStarter (h : s.Vacant) : s.hasStarter = false := by
  obtain ⟨c,hc,-,hs⟩ := h
  simp [Slot.hasStarter,hc,hs]

theorem Vacant.not_running (h : s.Vacant) : ¬s.Running :=
  fun hr => absurd hr.hasStarter (by simp [h.hasStarter])

theorem Vacant.congr (h : s.Vacant) (hc : t.cur = s.cur) : t.Vacant := by
  obtain ⟨c,hs⟩ := h
  exact ⟨c,hc.trans hs.1,hs.2⟩

theorem Running.setClaimState (h : s.Running) {state : ClaimState}
    (hstate : Claim.isActive { state := state } = true) : (s.setClaimState state).Running := by
  obtain ⟨c,hc,-,hs⟩ := h
  refine ⟨{ c with state := state },by simp [Slot.setClaimState,hc],?_,hs⟩
  exact hstate

theorem setClaimState_alike (s : Slot) (state : ClaimState) : s.Alike (s.setClaimState state) :=
  ⟨rfl,rfl,rfl,rfl,rfl,rfl⟩

theorem Running.signal (h : s.Running) (state : ClaimState)
    (hstate : Claim.isActive { state := state } = true) :
    (s.signal a state).1.Running ∧ s.Alike (s.signal a state).1 := by
  simp only [Slot.signal,h.hasStarter,if_true]
  exact ⟨(h.setClaimState hstate).congr rfl,rfl,rfl,rfl,rfl,rfl,rfl⟩

private theorem signal_lost {state : ClaimState} (h : s.signal a state = (t,false)) : a.lost ≠
    [] := by
  intro hnil
  have h2 : (s.signal a state).2 = false := congrArg Prod.snd h
  unfold Slot.signal at h2
  split at h2
  · simp [Answers.signals,hnil] at h2
  · simp at h2

theorem Running.starterKillPg (h : s.Running) :
    s.starterKillPg.Running ∧ s.Alike s.starterKillPg := by
  simp only [Slot.starterKillPg,h.hasStarter,if_true]
  exact ⟨h.setClaimState rfl,setClaimState_alike s _⟩

theorem Running.holdJob (h : s.Running) (soft : Bool) :
    (s.holdJob a soft).Running ∧ s.Alike (s.holdJob a soft) := by
  have hsent : ∀ state, Claim.isActive { state := state } = true →
      (Slot.signal a { s with sent := s.sent + 1 } state).1.Running ∧
        s.Alike (Slot.signal a { s with sent := s.sent + 1 } state).1 := by
    intro state hstate
    have hr : Running { s with sent := s.sent + 1 } := h.congr rfl
    obtain ⟨hr',hal⟩ := hr.signal (a := a) state hstate
    exact ⟨hr',hal.state,hal.act,hal.pre,hal.draining,hal.dynamic,hal.destination⟩
  simp only [Slot.holdJob,h.hasStarter,if_true]
  split
  · exact ⟨h.congr rfl,rfl,rfl,rfl,rfl,rfl,rfl⟩
  · split
    · exact hsent .vacating rfl
    · exact hsent .killing rfl

private theorem leaveAction_preempting (change' : Slot → State → Activity → Outcome)
    (hs : Startd.accepts s.state s.act = true) (ho : s.Running ∨ s.Vacant) :
    ∃ t, s.leaveAction a change' .preempting = .proceed t ∧ s.Alike t ∧
      (t.Running ∨ t.Vacant) ∧ (s.Running → t.Running) := by
  by_cases h : s.state = .claimed ∧ s.act = .suspended
  · cases ho with
    | inl hr =>
      obtain ⟨hr',hal⟩ := hr.signal (a := a) .running rfl
      simp only [leaveAction,h.1,h.2,if_true,resumeClaim,hr.hasStarter]
      rcases hb : s.signal a .running with ⟨t,b⟩
      rw [hb] at hr' hal
      cases b with
      | true => exact ⟨t,rfl,hal,.inl hr',fun _ => hr'⟩
      | false =>
        obtain ⟨hk,hka⟩ := hr'.starterKillPg
        exact ⟨t.starterKillPg,by simp,hal.trans hka,.inl hk,fun _ => hk⟩
    | inr hv =>
      refine ⟨s.setClaimState .idle,?_,setClaimState_alike s _,.inr ?_,
        fun hr => absurd hr hv.not_running⟩
      · simp [leaveAction,h.1,h.2,resumeClaim,hv.hasStarter]
      · obtain ⟨c,hc,-,hst⟩ := hv
        exact ⟨{ c with state := .idle },by simp [setClaimState,hc],rfl,hst⟩
  · exact ⟨s,leaveAction_eq _ _ hs fun hc ha => h ⟨hc,ha⟩,Alike.rfl,ho,id⟩

theorem Ends.released {o : Outcome} (h : Ends a s Released o) : Ends a s Settled o :=
  h.mono fun _ hr => .inl hr

private theorem leavePreemptingState_released (n : Nat) (hs : s.state = .preempting)
    (hacc : Startd.accepts s.state s.act = true) (hc : s.cur ≠ none)
    (hrun : s.Running → a.lost ≠ []) (hp : s.hasPreemptingClaim = false) :
    Ends a s Released (s.leavePreemptingState a (change a (n + 4))) := by
  have howner : Ends a s Released
      (change a (n + 4) { s with cur := none, pre := none } .owner .idle) := by
    have hl := leaveAction_eq (a := a) (s := { s with cur := none, pre := none }) (change a (n + 3))
      .owner hacc (by simp [hs])
    have ho : s.Onward a { s with cur := none, pre := none } :=
      ⟨rfl,id,fun hr => .inr (hrun hr)⟩
    exact (change_owner (s := { s with cur := none, pre := none }) n hacc ⟨none,hl⟩
      (by simp [hs]) (by simp [Running])).of_onward ho
  simp only [leavePreemptingState,hc,if_false]
  cases hd : s.destination with
  | none => simpa [hp,changeTo,hd] using howner
  | some d =>
    cases d with
    | owner =>
      simpa only [Destination.state,changeTo,hd] using howner
    | delete =>
      simp only [Destination.state,changeTo]
      rw [change_delete (s := { s with cur := none, pre := none, destination := some .delete })
        (n + 3) hacc (by simp [hs])]
      exact .inr ⟨hd,hrun⟩

private theorem enterAction_preempting (n : Nat) (statechange : Bool) (hs : s.state = .preempting)
    (ha : s.act = .vacating ∨ s.act = .killing) (hp : s.pre ≠ none) (ho : s.Running ∨ s.Vacant)
    (hlp : ∀ t, s.Alike t → t.cur ≠ none → (t.Running → a.lost ≠ []) →
      Ends a t Settled (t.leavePreemptingState a (change a (n + 4)))) :
    Ends a s Settled (entered a (change a (n + 4))
    (s.enterAction a (change a (n + 4)) statechange)) := by
  have hacc : Startd.accepts s.state s.act = true := by
    rcases ha with ha | ha <;> simp [hs,ha,Startd.accepts]
  have hstay : ∀ t, s.Alike t → t.Running →
      Ends a s Settled (entered a (change a (n + 4)) (.proceed t)) := by
    intro t hal hr
    have hts : t.state = .preempting := hal.state.trans hs
    have hta : t.act = .vacating ∨ t.act = .killing := by rwa [hal.act]
    have hheld : t.Held := ⟨by rwa [hal.pre],.inr (.inr ⟨hts,hta,hr⟩)⟩
    have he : entered a (change a (n + 4)) (.proceed t) = .ok (some t) := by
      rcases hta with hta | hta <;> simp [entered,hts,hta]
    rw [he]
    exact ⟨.inr hheld,hal.onward fun _ => hr⟩
  cases ho with
  | inr hv =>
    have hcur : s.cur ≠ none := by
      obtain ⟨c,hc,-⟩ := hv
      simp [hc]
    rcases ha with ha | ha
    · simp only [enterAction,hs,ha,hv.claimIsActive,Bool.false_eq_true,if_false,entered]
      exact hlp s Alike.rfl hcur fun hr => absurd hr hv.not_running
    · simp only [enterAction,hs,ha,hv.claimIsActive,Bool.false_eq_true,if_false,entered]
      exact hlp s Alike.rfl hcur fun hr => absurd hr hv.not_running
  | inl hr =>
    rcases ha with ha | ha
    · simp only [enterAction,hs,ha,hr.claimIsActive,if_true]
      split
      · exact hstay _ (hr.holdJob true).2 (hr.holdJob true).1
      · obtain ⟨hr',hal⟩ := hr.signal (a := a) .vacating rfl
        rcases hk : s.starterKillSoft a with ⟨t,b⟩
        obtain rfl : (s.signal a .vacating).1 = t := congrArg Prod.fst hk
        cases b with
        | true => exact hstay _ hal hr'
        | false =>
          obtain ⟨hrk,halk⟩ := hr'.starterKillPg
          have hacck : Startd.accepts (s.signal a .vacating).1.starterKillPg.state
              (s.signal a .vacating).1.starterKillPg.act = true := by
            rw [halk.state,halk.act,hal.state,hal.act]
            exact hacc
          have hts : (s.signal a .vacating).1.starterKillPg.state = .preempting := by
            rw [halk.state,hal.state,hs]
          simp only [entered,changeTo]
          have ho : s.Onward a (s.signal a .vacating).1.starterKillPg :=
            (hal.onward fun _ => hr').trans (halk.onward fun _ => hrk)
          refine ((change_owner n hacck ⟨_,leaveAction_eq _ _ hacck ?_⟩ ?_ ?_).released).of_onward
            ho
          · simp [hts]
          · simp [hts]
          · exact fun _ => signal_lost hk
    · simp only [enterAction,hs,ha,hr.claimIsActive,if_true]
      split
      · exact hstay _ (hr.holdJob false).2 (hr.holdJob false).1
      · obtain ⟨hr',hal⟩ := hr.signal (a := a) .killing rfl
        rcases hk : s.starterKillHard a with ⟨t,b⟩
        obtain rfl : (s.signal a .killing).1 = t := congrArg Prod.fst hk
        cases b with
        | true => exact hstay _ hal hr'
        | false =>
          have hcur : (s.signal a .killing).1.cur ≠ none := by
            obtain ⟨c,hc,-⟩ := hr'
            simp [hc]
          exact (hlp _ hal hcur fun _ => signal_lost hk).of_onward (hal.onward fun _ => hr')

private theorem change_preempting_of (n : Nat) (hacc : Startd.accepts s.state s.act = true)
    (hp : s.pre ≠ none) (ho : s.Running ∨ s.Vacant) (hset : s.state = .preempting → s.Held)
    {act : Activity} (hact : act = .vacating ∨ act = .killing)
    (hlp : ∀ t, t.state = .preempting → Startd.accepts t.state t.act = true → t.cur ≠ none →
      (t.Running → a.lost ≠ []) → t.pre = s.pre →
        Ends a t Settled (t.leavePreemptingState a (change a (n + 4)))) :
    Ends a s Settled (change a (n + 5) s .preempting act) := by
  by_cases hne : s.state = .preempting ∧ s.act = act
  · have hsame : change a (n + 5) s s.state s.act = .ok (some s) := change_same (n + 4)
    rw [hne.1,hne.2] at hsame
    rw [hsame]
    exact Ends.stay (.inr (hset hne.1))
  · obtain ⟨t,hl,hal,hto,hrt⟩ := leaveAction_preempting (a := a) (change a (n + 4)) hacc ho
    have htacc : Startd.accepts t.state t.act = true := by
      rw [hal.state,hal.act]
      exact hacc
    rw [change_eq a (n + 4) hne hl htacc]
    have hmo : (t.moved .preempting act).Running ∨ (t.moved .preempting act).Vacant :=
      hto.imp (fun h => h.congr rfl) fun h => h.congr rfl
    refine (enterAction_preempting n _ rfl hact ?_ hmo ?_).of_onward
      ((hal.onward hrt).trans (moved_onward t _ _))
    · rw [moved_pre,hal.pre]
      exact hp
    · intro u hu hc hlost
      have hus : u.state = .preempting := hu.state
      have hua : u.act = act := hu.act
      refine hlp u hus ?_ hc hlost (hu.pre.trans hal.pre)
      rcases hact with h | h <;> simp [hus,hua,h,Startd.accepts]

theorem changeTo_preempting {P : Slot → Prop}
    (h : ∀ act, act = .vacating ∨ act = .killing → Ends a s P (change' s .preempting act)) :
    Ends a s P (s.changeTo a change' .preempting) := by
  simp only [changeTo]
  split
  · exact h .vacating (.inl rfl)
  · exact h .killing (.inr rfl)

theorem evalClaimed_idle (hs : s.Held) (ha : s.act = .idle)
    (hpre : Ends a s Settled (s.changeTo a change' .preempting)) :
    Ends a s Settled (s.evalClaimed a change') := by
  simp only [evalClaimed,ha,reduceCtorEq,false_and,if_false,false_or,true_and]
  split
  · exact hpre
  · split
    · exact hpre
    · exact Ends.stay (.inr hs)

theorem change_claimed_idle (n : Nat) (hacc : Startd.accepts s.state s.act = true)
    (hne : s.state ≠ .claimed) {c : Claim} (hcur : s.cur = some c) (hc : c.state = .unclaimed)
    (hst : c.starter = false) : Ends a s Settled (change a (n + 6) s .claimed .idle) := by
  rw [change_eq a (n + 5) (fun h => hne h.1) (leaveAction_eq _ _ hacc fun h => absurd h hne) hacc]
  simp only [enterAction,moved_state,ne_eq,hne,not_false_eq_true,decide_true,if_true,moved_cur,hcur,
    hc,enterClaimed,moved_act,setClaimState,entered,reduceCtorEq,if_false,or_true,eval,
      Option.map_some]
  suffices h : ∀ u : Slot, u = { s.moved .claimed .idle with
      cur := some { c with state := .idle }, pre := some false } →
      Ends a s Settled (u.evalClaimed a (change a (n + 5))) from h _ rfl
  intro u hu
  have hus : u.state = .claimed := by rw [hu]; rfl
  have hua : u.act = .idle := by rw [hu]; rfl
  have hup : u.pre = some false := by rw [hu]
  have huv : u.Vacant := ⟨{ c with state := .idle },by rw [hu],rfl,hst⟩
  have hheld : u.Held := ⟨by simp [hup],.inl ⟨hus,hua,huv⟩⟩
  have hou : s.Onward a u := by
    have hm : s.Onward a (s.moved .claimed .idle) := moved_onward s .claimed .idle
    rw [hu]
    refine ⟨hm.dynamic,hm.delete,fun hr => ?_⟩
    obtain ⟨d,hd,-,hstd⟩ := hr
    obtain rfl : c = d := Option.some.inj (hcur.symm.trans hd)
    simp [hst] at hstd
  refine (evalClaimed_idle hheld hua (changeTo_preempting fun act hact => ?_)).of_onward hou
  apply change_preempting_of n hheld.accepts hheld.1 (.inr huv) (by simp [hus]) hact
  intro t hts hta htc htr htp
  exact (leavePreemptingState_released n hts hta htc htr
    (by simp [hasPreemptingClaim,htp,hup])).released

theorem leavePreemptingState_ends (n : Nat) (hs : s.state = .preempting)
    (hacc : Startd.accepts s.state s.act = true) (hc : s.cur ≠ none)
    (hrun : s.Running → a.lost ≠ []) :
    Ends a s Settled (s.leavePreemptingState a (change a (n + 6))) := by
  cases hp : s.hasPreemptingClaim with
  | false => exact (leavePreemptingState_released (n + 2) hs hacc hc hrun hp).released
  | true =>
    cases hd : s.destination with
    | some d =>
      -- with a destination nobody is asked who waits
      have hsame : s.leavePreemptingState a (change a (n + 6)) =
          Slot.leavePreemptingState a (change a (n + 6)) { s with pre := none } := by
        simp [leavePreemptingState,hd]
      have ho : s.Onward a { s with pre := none } := ⟨rfl,id,fun hr => .inl (hr.congr rfl)⟩
      rw [hsame]
      exact (leavePreemptingState_released (s := { s with pre := none }) (n + 2) hs hacc hc
        (fun hr => hrun (hr.congr rfl)) rfl).released.of_onward ho
    | none =>
      have ho : ∀ cur, s.Onward a { s with cur := cur, pre := none } :=
        fun cur => ⟨rfl,id,fun hr => .inr (hrun hr)⟩
      have howner : ∀ cur : Option Claim, cur.all (fun c => !c.starter) = true → Ends a s Settled
          (change a (n + 6) { s with cur := cur, pre := none } .owner .idle) := by
        intro cur hcur
        have hl := leaveAction_eq (a := a) (s := { s with cur := cur, pre := none })
          (change a (n + 5)) .owner hacc (by simp [hs])
        refine (change_owner (s := { s with cur := cur, pre := none }) (n + 2) hacc ⟨cur,hl⟩
          (by simp [hs]) ?_).released.of_onward (ho cur)
        intro ⟨c,hc,_,hst⟩
        obtain rfl : cur = some c := hc
        simp [hst] at hcur
      have hclaimed : Ends a s Settled
          (change a (n + 6) { s with cur := some {}, pre := none } .claimed .idle) :=
        (change_claimed_idle (s := { s with cur := some {}, pre := none }) n hacc (by simp [hs])
          rfl rfl rfl).of_onward (ho _)
      simp only [leavePreemptingState,hc,if_false,hp,Bool.true_and,acceptClaimRequest,changeTo]
      rw [hd] at howner hclaimed ⊢
      dsimp only
      split
      · split
        · exact hclaimed
        · exact howner _ rfl
      · exact howner none rfl

theorem change_preempting (n : Nat) (hacc : Startd.accepts s.state s.act = true)
    (hp : s.pre ≠ none) (ho : s.Running ∨ s.Vacant) (hset : s.state = .preempting → s.Held)
    {act : Activity} (hact : act = .vacating ∨ act = .killing) :
    Ends a s Settled (change a (n + 7) s .preempting act) :=
  change_preempting_of (n + 2) hacc hp ho hset hact fun _ hs hacc hc hrun _ =>
    leavePreemptingState_ends n hs hacc hc hrun

theorem Held.change_preempting (n : Nat) (hs : s.Held) {act : Activity}
    (hact : act = .vacating ∨ act = .killing) :
    Ends a s Settled (change a (n + 7) s .preempting act) := by
  apply Slot.change_preempting n hs.accepts hs.1 _ (fun _ => hs) hact
  rcases hs.2 with ⟨-,-,hv⟩ | ⟨-,-,hr⟩ | ⟨-,-,hr⟩
  · exact .inr hv
  · exact .inl hr
  · exact .inl hr

theorem Held.changeTo_preempting (n : Nat) (hs : s.Held) :
    Ends a s Settled (s.changeTo a (change a (n + 7)) .preempting) :=
  Slot.changeTo_preempting fun _ hact => hs.change_preempting n hact

end Condor.Startd.Slot
