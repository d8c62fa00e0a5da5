import Condor.Startd.Retirement

/-!
# Runs of a slot

Every call that a slot can get leaves it in a pair of state and activity that is one of its own, or
removes it for good.
-/

namespace Condor.Startd.Slot

open Condor.Lib

variable {a : Answers} {s t : Slot}

/-- The slot is in a state that the event can happen in without stopping the startd. -/
def Admissible (s : Slot) (e : Answers × Event) : Prop :=
  match e.2 with
  | .setDestination _ => s.state ≠ .drained
  | .starterExited =>
    s.hasStarter = true → s.destination ≠ some .delete ∧
      (s.destination = some .owner → ¬(s.dynamic = true ∧ e.1.currentlyFetching = false))
  | .startDraining how =>
    s.draining = true ∨ s.dynamic = true ∨ s.destination ≠ some .delete ∨
      (s.state ≠ .claimed ∧ s.state ≠ .preempting) ∨ (s.state = .preempting ∧ how ≠ .fast) ∨
      (s.hasStarter = true ∧ e.1.lost = [])
  | _ => True

instance (s : Slot) : ∀ e : Answers × Event, Decidable (s.Admissible e)
  | (_,.setDestination _) => inferInstanceAs (Decidable (s.state ≠ .drained))
  | (a,.starterExited) => inferInstanceAs (Decidable
      (s.hasStarter = true → s.destination ≠ some .delete ∧
        (s.destination = some .owner → ¬(s.dynamic = true ∧ a.currentlyFetching = false))))
  | (a,.startDraining how) => inferInstanceAs (Decidable
      (s.draining = true ∨ s.dynamic = true ∨ s.destination ≠ some .delete ∨
        (s.state ≠ .claimed ∧ s.state ≠ .preempting) ∨ (s.state = .preempting ∧ how ≠ .fast) ∨
        (s.hasStarter = true ∧ a.lost = [])))
  | (_,.eval) | (_,.retireClaim _) | (_,.releaseClaim) | (_,.killClaim) | (_,.accept)
  | (_,.activate) | (_,.preemptingRequest) | (_,.endDraining) => .isTrue trivial

def Answered (o : Outcome) : Prop := ∃ r, o = .ok r ∧ ∀ t, r = some t → t.Settled

theorem Ends.answered {o : Outcome} (h : Ends a s Settled o) : Answered o := by
  match o with
  | .ok (some t) => exact ⟨some t,rfl,fun u hu => Option.some.inj hu ▸ h.1⟩
  | .ok none => exact ⟨none,rfl,fun _ hu => nomatch hu⟩
  | .error _ => exact absurd h id

private theorem Released.changeTo_owner (n : Nat) (hs : s.Released) :
    Ends a s Released (s.changeTo a (change a (n + 4)) .owner) :=
  change_owner n hs.accepts ⟨s.cur,leaveAction_eq _ _ hs.accepts fun h => absurd h hs.not_claimed⟩
    (fun _ => hs) fun hr => absurd hr hs.2.not_running

theorem Released.eval (n : Nat) (hs : s.Released) :
    Ends a s Released (s.eval a (change a (n + 4))) := by
  have hr := hs.1
  unfold Resting at hr
  split at hr
  case h_1 h => exact eval_owner (n + 1) h hs
  case h_2 h =>
    cases ho : a.isOwner with
    | false => exact eval_unclaimed (n + 2) h hs ho
    | true =>
      simp only [Slot.eval,h,ho,if_true]
      split
      · rename_i hdyn
        split
        · exact Ends.stay hs
        · rename_i hf
          simp only [changeTo,change_delete (n + 3) hs.accepts hs.not_claimed]
          exact .inl ⟨hdyn,by simpa using hf⟩
      · split
        · rename_i hd
          exact Ends.of_exists (change_drained_retiring (n + 2) hs (by simp [h]) hd)
        · exact hs.changeTo_owner n
  case h_3 h =>
    simp only [Slot.eval,h]
    split
    · exact hs.changeTo_owner n
    · rename_i hd
      split
      · rename_i ha
        split
        · exact Ends.of_exists (change_drained_idle (n + 3) h ha hs.2 (by simpa using hd))
        · exact Ends.stay hs
      · split
        · exact ⟨⟨by simp only [Resting]; exact hr,hs.2.cur,hs.2.pre⟩,rfl,id,
            fun hr => .inl (hr.congr rfl)⟩
        · exact Ends.stay hs
  case h_4 => exact absurd hr id

theorem Held.eval (n : Nat) (hs : s.Held) : Ends a s Settled (s.eval a (change a (n + 10))) := by
  rcases hs.2 with ⟨hc,ha,-⟩ | ⟨hc,ha,hr⟩ | ⟨hp,-,-⟩
  · simp only [Slot.eval,hc]
    exact evalClaimed_idle hs ha (hs.changeTo_preempting (n + 3))
  · simp only [Slot.eval,hc]
    exact Working.evalClaimed n ⟨hc,ha,hr,hs.1⟩
  · simp only [Slot.eval,hp]
    split
    · exact hs.change_preempting (n + 3) (.inr rfl)
    · exact Ends.stay (.inr hs)

theorem Settled.eval (hs : s.Settled) : Ends a s Settled (s.eval a (change a depth)) := by
  cases hs with
  | inl hr => exact (hr.eval 12).released
  | inr hh => exact hh.eval 6

theorem Released.hasStarter (hs : s.Released) : s.hasStarter = false := by
  simp [Slot.hasStarter,hs.2.cur]

theorem Released.killAnyway (hs : s.Released) (state : ClaimState) :
    Ends a s Settled (s.killAnyway (s.signal a state)) := by
  have hc : s.cur ≠ none := by simp [hs.2.cur]
  simp only [Slot.killAnyway,hc,if_false,signal,hs.hasStarter,Bool.false_eq_true]
  exact Ends.stay (.inl hs)

private theorem Released.not_held (hs : s.Released) :
    s.state = .owner ∨ s.state = .unclaimed ∨ s.state = .drained := by
  have hr := hs.1
  unfold Resting at hr
  split at hr
  case h_1 h => exact .inl h
  case h_2 h => exact .inr (.inl h)
  case h_3 h => exact .inr (.inr h)
  case h_4 => exact absurd hr id

theorem Vacant.change_retiring (n : Nat) (hv : s.Vacant) (hc : s.state = .claimed)
    (ha : s.act = .idle) (hp : s.pre ≠ none) :
    Ends a s Settled (change a (n + 8) s .claimed .retiring) := by
  have hdec : decide (s.state ≠ .claimed) = false := by simp [hc]
  have hacc : Startd.accepts s.state s.act = true := by simp [hc,ha,Startd.accepts]
  have hvm : (s.moved .claimed .retiring).Vacant := hv.congr rfl
  rw [change_eq a (n + 7) (by simp [ha]) (leaveAction_eq _ _ hacc (by simp [ha])) hacc]
  simp only [enterAction,moved_state,hdec,Bool.false_eq_true,if_false,enterClaimed,moved_act,
    hvm.claimIsActive,entered]
  have hpre : Ends a (s.moved .claimed .retiring) Settled
      ((s.moved .claimed .retiring).changeTo a (change a (n + 7)) .preempting) :=
    changeTo_preempting fun act hact =>
      change_preempting (s := s.moved .claimed .retiring) n rfl hp (.inr hvm) (by simp) hact
  exact hpre.of_onward (moved_onward s _ _)

theorem Settled.retireClaim (hs : s.Settled) (reversible : Bool) :
    Ends a s Settled (s.retireClaim a (change a depth) reversible) := by
  cases hs with
  | inl hr =>
    rcases hr.not_held with h | h | h
    all_goals
      simp only [Slot.retireClaim,h,starterKillSoft]
      exact hr.killAnyway .vacating
  | inr hh =>
    rcases hh.2 with ⟨hc,ha,hv⟩ | ⟨hc,ha,hr⟩ | ⟨hp,ha,hr⟩
    · rw [retireClaim_claimed hc]
      split
      · exact hv.change_retiring 8 hc ha hh.1
      · have ho : s.Onward a { s with cur := s.cur.map fun c => { c with mayUnretire := false } } :=
          ⟨rfl,id,fun hr => absurd hr hv.not_running⟩
        have hv' : Vacant { s with cur := s.cur.map fun c => { c with mayUnretire := false } } :=
          hv.mapCur _ fun _ => ⟨rfl,rfl⟩
        exact (hv'.change_retiring 8 hc ha hh.1).of_onward ho
    · exact Working.retireClaim_of ⟨hc,ha,hr,hh.1⟩ (fun t ht _ => ht.change_retiring 7) reversible
    · obtain ⟨hr',hal⟩ := hr.signal (a := a) .vacating rfl
      have hc : s.cur ≠ none := by
        obtain ⟨c,hc,-⟩ := hr
        simp [hc]
      simp only [Slot.retireClaim,hp,starterKillSoft,Slot.killAnyway,hc,if_false]
      refine ⟨.inr ⟨by rw [hal.pre]; exact hh.1,.inr (.inr ⟨hal.state.trans hp,?_,hr'⟩)⟩,
        hal.onward fun _ => hr'⟩
      rw [hal.act]
      exact ha

private theorem Held.claimed_or_preempting
    (hs : s.Held) : s.state = .claimed ∨ s.state = .preempting := by
  rcases hs.2 with ⟨h,-⟩ | ⟨h,-⟩ | ⟨h,-⟩
  · exact .inl h
  · exact .inl h
  · exact .inr h

theorem Settled.releaseClaim (hs : s.Settled) :
    Ends a s Settled (s.releaseClaim a (change a depth)) := by
  cases hs with
  | inl hr =>
    rcases hr.not_held with h | h | h
    all_goals
      simp only [Slot.releaseClaim,h,starterKillHard]
      exact hr.killAnyway .killing
  | inr hh =>
    rcases hh.claimed_or_preempting with h | h
    · simp only [Slot.releaseClaim,h]
      exact hh.change_preempting 9 (.inl rfl)
    · simp only [Slot.releaseClaim,h]
      split
      · exact hh.change_preempting 9 (.inl rfl)
      · exact Ends.stay (.inr hh)

theorem Settled.killClaim (hs : s.Settled) :
    Ends a s Settled (s.killClaim a (change a depth)) := by
  cases hs with
  | inl hr =>
    rcases hr.not_held with h | h | h
    all_goals
      simp only [Slot.killClaim,h,starterKillHard]
      exact hr.killAnyway .killing
  | inr hh =>
    rcases hh.claimed_or_preempting with h | h
    all_goals
      simp only [Slot.killClaim,h]
      exact hh.change_preempting 9 (.inr rfl)

theorem Running.change_busy (n : Nat) (hr : s.Running) (hc : s.state = .claimed)
    (ha : s.act = .idle) (hp : s.pre ≠ none) :
    Ends a s Settled (change a (n + 10) s .claimed .busy) := by
  have hdec : decide (s.state ≠ .claimed) = false := by simp [hc]
  have hacc : Startd.accepts s.state s.act = true := by simp [hc,ha,Startd.accepts]
  have hw : (s.moved .claimed .busy).Working := ⟨rfl,.inl rfl,hr.congr rfl,hp⟩
  rw [change_eq a (n + 9) (by simp [ha]) (leaveAction_eq _ _ hacc (by simp [ha])) hacc]
  simp only [enterAction,moved_state,hdec,Bool.false_eq_true,if_false,enterClaimed,moved_act]
  split
  · exact (hw.change_retiring n).of_onward (moved_onward s _ _)
  · simp only [entered,moved_state,moved_act,reduceCtorEq,or_self,if_false]
    exact ⟨hw.settled,moved_onward s _ _⟩

private theorem Vacant.change_idle (n : Nat) (hv : s.Vacant) (hc : s.state = .claimed)
    (ha : s.act ≠ .idle) (hacc : Startd.accepts s.state s.act = true) (hp : s.pre ≠ none) :
    Ends a s Settled (change a (n + 8) s .claimed .idle) := by
  have hl : ∃ t, s.leaveAction a (change a (n + 7)) .claimed = .proceed t ∧ s.Alike t ∧
    t.Vacant := by
    by_cases hsus : s.act = .suspended
    · refine ⟨s.setClaimState .idle,?_,setClaimState_alike s _,?_⟩
      · simp [leaveAction,hc,hsus,resumeClaim,hv.hasStarter]
      · obtain ⟨c,hcur,-,hst⟩ := hv
        exact ⟨{ c with state := .idle },by simp [setClaimState,hcur],rfl,hst⟩
    · exact ⟨s,leaveAction_eq _ _ hacc fun _ => hsus,Alike.rfl,hv⟩
  obtain ⟨t,hl,hal,hvt⟩ := hl
  have htc : t.state = .claimed := hal.state.trans hc
  have hdec : decide (t.state ≠ .claimed) = false := by simp [htc]
  have hheld : (t.moved .claimed .idle).Held :=
    ⟨by rw [moved_pre,hal.pre]; exact hp,.inl ⟨rfl,rfl,hvt.congr rfl⟩⟩
  rw [change_eq a (n + 7) (fun h => ha h.2) hl (by rw [hal.state,hal.act]; exact hacc)]
  simp only [enterAction,moved_state,hdec,Bool.false_eq_true,if_false,enterClaimed,moved_act,
    entered,
    reduceCtorEq,or_true,if_true,Slot.eval]
  exact (evalClaimed_idle hheld rfl (hheld.changeTo_preempting n)).of_onward
    ((hal.onward fun hr => absurd hr hv.not_running).trans (moved_onward t _ _))

theorem Held.starterExited (hs : s.Held) (hr : s.Running) (hadm : s.destination ≠ some .delete)
    (hown : s.destination = some .owner → ¬(s.dynamic = true ∧ a.currentlyFetching = false)) :
    Answered (s.starterExited a) := by
  generalize hu : ({ s with cur := s.cur.map fun _ => { state := .idle } } : Slot) = u
  have hst : u.state = s.state := by rw [← hu]
  have hact : u.act = s.act := by rw [← hu]
  have hpre : u.pre ≠ none := by
    rw [← hu]
    exact hs.1
  have hdest : u.destination = s.destination := by rw [← hu]
  have hdyn : u.dynamic = s.dynamic := by rw [← hu]
  have hacc : Startd.accepts u.state u.act = true := by
    rw [hst,hact]
    exact hs.accepts
  have hv : u.Vacant := by
    obtain ⟨c,hc,-⟩ := hr
    exact ⟨{ state := .idle },by simp [← hu,hc],rfl,rfl⟩
  have hcur : u.cur ≠ none := by
    obtain ⟨c,hc,-⟩ := hv
    simp [hc]
  simp only [Slot.starterExited,hu]
  refine Ends.answered (a := a) (s := u) ?_
  cases hd : u.destination with
  | none =>
    -- the state does nothing, and the resource goes on
    rcases hs.claimed_or_preempting with h | h
    · have hstate : u.stateStarterExited a = .ok (some u) := by
        simp [stateStarterExited,hd,hst,h]
      rw [hstate]
      simp only [Outcome.andThen,hst,h]
      split
      · exact Slot.changeTo_preempting fun act hact' =>
          Slot.change_preempting 9 hacc hpre (.inr hv) (by simp [hst,h]) hact'
      · refine hv.change_idle 8 (hst.trans h) ?_ hacc hpre
        -- a starter was running
        intro hidle
        rw [hact] at hidle
        rcases hs.2 with ⟨-,-,hv'⟩ | ⟨-,ha,-⟩ | ⟨hp,-,-⟩
        · exact absurd hr.hasStarter (by simp [hv'.hasStarter])
        · simp [hidle] at ha
        · simp [hp] at h
    · have hstate : u.stateStarterExited a = .ok (some u) := by
        simp [stateStarterExited,hd,hst,h]
      rw [hstate]
      simp only [Outcome.andThen,hst,h]
      exact leavePreemptingState_ends 10 (hst.trans h) hacc hcur fun hr => absurd hr hv.not_running
  | some d =>
    cases d with
    | delete => exact absurd (hdest.symm.trans hd) hadm
    | owner =>
      have hnot : ¬u.Removable a := by
        intro hrem
        cases hrem with
        | inl h => exact hown (hdest.symm.trans hd) ⟨hdyn ▸ h.1,h.2⟩
        | inr h => simp [hd] at h
      have howner : Ends a u Released (u.stateStarterExited a) := by
        simp only [stateStarterExited,hd,Destination.state,changeTo]
        refine change_owner 12 hacc (leaveAction_of_no_starter _ _ hacc hv.hasStarter) ?_
          fun hr => absurd hr hv.not_running
        intro h
        rcases hs.claimed_or_preempting with h' | h' <;> simp [hst,h'] at h
      refine howner.andThen (howner.ne_none hnot) fun w hw _ => ?_
      rcases hw.not_held with h | h | h
      all_goals
        simp only [h]
        exact (hw.changeTo_owner 12).released

private theorem Settled.held_of_hasStarter (hs : s.Settled) (h : s.hasStarter = true) :
    s.Held ∧ s.Running := by
  cases hs with
  | inl hr => exact absurd h (by simp [hr.hasStarter])
  | inr hh =>
    refine ⟨hh,?_⟩
    rcases hh.2 with ⟨-,-,hv⟩ | ⟨-,-,hr⟩ | ⟨-,-,hr⟩
    · exact absurd h (by simp [hv.hasStarter])
    · exact hr
    · exact hr

theorem Held.congr (hs : s.Held) (hst : t.state = s.state) (ha : t.act = s.act) (hc : t.cur = s.cur)
    (hp : t.pre ≠ none) : t.Held := by
  refine ⟨hp,?_⟩
  rw [hst,ha]
  refine hs.2.imp ?_ (Or.imp ?_ ?_)
  · exact fun h => ⟨h.1,h.2.1,h.2.2.congr hc⟩
  · exact fun h => ⟨h.1,h.2.1,h.2.2.congr hc⟩
  · exact fun h => ⟨h.1,h.2.1,h.2.2.congr hc⟩

theorem Settled.congr (hs : s.Settled) (hst : t.state = s.state) (ha : t.act = s.act)
    (hc : t.cur = s.cur) (hp : t.pre = s.pre) : t.Settled := by
  cases hs with
  | inl hr =>
    refine .inl ⟨?_,hc.trans hr.2.cur,hp.trans hr.2.pre⟩
    have hrest := hr.1
    unfold Resting at hrest ⊢
    rw [hst,ha]
    exact hrest
  | inr hh => exact .inr (hh.congr hst ha hc (by rw [hp]; exact hh.1))

private theorem killAnyway_ne_none (r : Slot × Bool) : s.killAnyway r ≠ .ok none := by
  unfold Slot.killAnyway
  split <;> simp

theorem Settled.shutdownAllClaims (hs : s.Settled) (how : Drain)
    (hadm : s.dynamic = true ∨ s.destination ≠ some .delete ∨
      (s.state ≠ .claimed ∧ s.state ≠ .preempting) ∨ (s.state = .preempting ∧ how ≠ .fast) ∨
      (s.hasStarter = true ∧ a.lost = [])) :
    Ends a s Settled (s.shutdownAllClaims a how) := by
  have hdown : Ends a s Settled (s.shutdownClaim a how) := by
    cases how with
    | graceful => exact hs.retireClaim true
    | quick => exact hs.retireClaim false
    | fast => exact hs.killClaim
  unfold Slot.shutdownAllClaims
  split
  · exact hdown
  · rename_i hdyn
    refine hdown.andThen ?_ fun t ht _ => Ends.stay ht
    rcases hadm with h | h | ⟨hc,hp⟩ | ⟨hp,hfast⟩ | ⟨hst,hlost⟩
    · exact absurd h hdyn
    · exact hdown.ne_none fun hrem => hrem.elim (fun hd => hdyn hd.1) fun hd => h hd.1
    · have hr : s.Released := hs.resolve_right fun hh => hh.claimed_or_preempting.elim hc hp
      rcases hr.not_held with h | h | h
      all_goals
        cases how <;> simp only [shutdownClaim,Slot.retireClaim,Slot.killClaim,h] <;>
          exact killAnyway_ne_none _
    · cases how with
      | graceful
      | quick => simpa only [shutdownClaim,Slot.retireClaim,hp] using killAnyway_ne_none _
      | fast => exact absurd rfl hfast
    · refine hdown.ne_none fun hrem => hrem.elim (fun hd => hdyn hd.1) fun hd => ?_
      exact hd.2 (hs.held_of_hasStarter hst).2 hlost

theorem Settled.moveToward (hs : s.Settled) (hd : s.state ≠ .drained) {d : Destination}
    (hdest : s.destination = some d) : Ends a s Settled (s.moveToward a (change a depth) d) := by
  cases hs with
  | inl hr =>
    have hgo : Ends a s Settled (s.changeTo a (change a depth) d.state) := by
      cases d with
      | owner => exact (hr.changeTo_owner 12).released
      | delete =>
        have hgone : change a depth s .delete .idle = .ok none :=
          change_delete 15 hr.accepts hr.not_claimed .idle
        simp only [Destination.state,changeTo,hgone]
        exact .inr ⟨hdest,fun hr' => absurd hr' hr.2.not_running⟩
    rcases hr.not_held with h | h | h
    · simpa only [Slot.moveToward,h] using hgo
    · simpa only [Slot.moveToward,h] using hgo
    · exact absurd h hd
  | inr hh =>
    rcases hh.claimed_or_preempting with h | h
    · simp only [Slot.moveToward,h]
      exact hh.changeTo_preempting 9
    · simpa only [Slot.moveToward,h] using Ends.stay (.inr hh)

theorem Settled.handle (hs : s.Settled) (e : Event) (hadm : s.Admissible (a,e)) :
    Answered (s.handle a e) := by
  cases e with
  | eval => exact hs.eval.answered
  | retireClaim reversible => exact (hs.retireClaim reversible).answered
  | releaseClaim => exact hs.releaseClaim.answered
  | killClaim => exact hs.killClaim.answered
  | accept =>
    have hfree : s.Released → Answered (s.changeTo a (change a depth) .claimed) := fun hr =>
      (change_claimed_idle 10 hr.accepts hr.not_claimed hr.2.cur rfl rfl).answered
    cases hs with
    | inl hr =>
      rcases hr.not_held with h | h | h
      · simpa only [Slot.handle,h] using hfree hr
      · simpa only [Slot.handle,h] using hfree hr
      · simpa only [Slot.handle,h] using (Ends.stay (a := a) (.inl hr)).answered
    | inr hh =>
      rcases hh.claimed_or_preempting with h | h
      all_goals simpa only [Slot.handle,h] using (Ends.stay (a := a) (.inr hh)).answered
  | activate =>
    simp only [Slot.handle]
    split
    · rename_i h
      have hh : s.Held := hs.resolve_left fun hr => hr.not_claimed h.1
      rcases hh.2 with ⟨hc,ha,hv⟩ | ⟨-,-,hr⟩ | ⟨hp,-,-⟩
      · obtain ⟨c,hcur,-⟩ := hv
        have hr : Running { s with
            cur := s.cur.map fun c => { c with state := .running, starter := true } } :=
          ⟨_,by rw [hcur]; rfl,rfl,rfl⟩
        exact (hr.change_busy 6 hc ha hh.1).answered
      · simp [hr.claimIsActive] at h
      · simp [hp] at h
    · exact (Ends.stay (a := a) hs).answered
  | preemptingRequest =>
    simp only [Slot.handle]
    split
    · rename_i h
      have hh : s.Held := hs.resolve_left fun hr => hr.not_claimed h.1
      have hs' : Settled { s with pre := some true } := .inr (hh.congr rfl rfl rfl (by simp))
      exact hs'.eval.answered
    · exact (Ends.stay (a := a) hs).answered
  | startDraining how =>
    simp only [Slot.handle]
    split
    · exact (Ends.stay (a := a) hs).answered
    · rename_i hd
      have hs' : Settled { s with draining := true } := hs.congr rfl rfl rfl rfl
      exact (hs'.shutdownAllClaims how (hadm.resolve_left hd)).answered
  | endDraining =>
    have hs' : Settled { s with draining := false } := hs.congr rfl rfl rfl rfl
    exact (Ends.stay (a := a) hs').answered
  | setDestination d =>
    have hs' : Settled { s with destination := some d } := hs.congr rfl rfl rfl rfl
    exact (hs'.moveToward hadm rfl).answered
  | starterExited =>
    simp only [Slot.handle]
    split
    · rename_i h
      obtain ⟨hh,hr⟩ := hs.held_of_hasStarter h
      exact hh.starterExited hr (hadm h).1 (hadm h).2
    · exact (Ends.stay (a := a) hs).answered

def AdmissibleStep (s : Option Slot) (e : Answers × Event) : Prop := ∀ t ∈ s, t.Admissible e
deriving Decidable

private theorem step_settled (s : Option Slot) (e : Answers × Event)
    (hs : ∀ t, s = some t → t.Settled)
    (hadm : AdmissibleStep s e) : ∃ s', step s e = some s' ∧ ∀ t, s' = some t → t.Settled := by
  cases s with
  | none => exact ⟨none,rfl,fun _ h => nomatch h⟩
  | some s =>
    obtain ⟨r,hr,hset⟩ := (hs s rfl).handle e.2 (hadm s rfl)
    exact ⟨r,by simp only [step,hr],hset⟩

/-- Whatever a slot is asked to do, it answers itself, in a state and an activity that go
together. -/
theorem slot_settles (dynamic : Bool) (es : List (Answers × Event))
    (hadm : Along step AdmissibleStep (some { dynamic := dynamic }) es) :
    ∃ s, run step (some { dynamic := dynamic }) es = some s ∧
      ∀ t, s = some t → accepts t.state t.act = true := by
  obtain ⟨s,hr,hs⟩ := run_total (fun s : Option Slot => ∀ t, s = some t → t.Settled)
    step_settled hadm
    (fun t ht => Option.some.inj ht ▸ .inl ⟨rfl,rfl,rfl⟩)
  exact ⟨s,hr,fun t ht => (hs t ht).accepts⟩

/-- A job runs, its slot is drained and comes back, and then the slot is deleted. -/
theorem slot_settles_sample :
    ∃ s, run step (some {}) [({},.accept),({},.activate),({ retirementExpired := true },
        .startDraining .graceful),({},.starterExited),({ isOwner := true },.endDraining),
        ({ isOwner := true },.eval),({},.setDestination .delete)] = some s ∧
      ∀ t, s = some t → accepts t.state t.act = true :=
  slot_settles false _ (by decide)

/-- Nothing guards the drained state, a slot whose starter exits, or one that is to be deleted when
draining begins. -/
theorem slot_fails :
    run step (some {}) [({ isOwner := true },.startDraining .graceful),({ isOwner := true },.eval),
      ({},.setDestination .owner)] = none ∧
    run step (some { dynamic := true }) [({},.accept),({},.activate),({},.setDestination .delete),
      ({},.starterExited)] = none ∧
    run step (some {}) [({},.accept),({},.activate),({},.setDestination .delete),
      ({ lost := [1] },.startDraining .fast)] = none := by
  decide

end Condor.Startd.Slot
