import Condor.Startd.Preemption

/-!
# The activities of a claimed slot

A claim that runs may retire, be suspended and go on. Each of these changes may find that a signal
to the starter fails, and then the claim is preempted.
-/

namespace Condor.Startd.Slot

variable {a : Answers} {s t : Slot} {change' : Slot → State → Activity → Outcome}

structure Working (s : Slot) : Prop where
  state : s.state = .claimed
  act : s.act = .busy ∨ s.act = .retiring ∨ s.act = .suspended
  running : s.Running
  pre : s.pre ≠ none

theorem Working.held (h : s.Working) : s.Held := ⟨h.pre,.inr (.inl ⟨h.state,h.act,h.running⟩)⟩

theorem Working.settled (h : s.Working) : s.Settled := .inr h.held

theorem Working.congr (h : s.Working) (hal : s.Alike t) (hr : t.Running) : t.Working :=
  ⟨hal.state.trans h.state,by rw [hal.act]; exact h.act,hr,by rw [hal.pre]; exact h.pre⟩

theorem Running.mapCur (h : s.Running) (f : Claim → Claim)
    (hf : ∀ c, (f c).state = c.state ∧ (f c).starter = c.starter) :
    Running { s with cur := s.cur.map f } := by
  obtain ⟨c,hc,ha,hs⟩ := h
  refine ⟨f c,by simp [hc],?_,by rw [(hf c).2,hs]⟩
  rw [Claim.isActive,(hf c).1]
  exact ha

theorem Vacant.mapCur (h : s.Vacant) (f : Claim → Claim)
    (hf : ∀ c, (f c).state = c.state ∧ (f c).starter = c.starter) :
    Vacant { s with cur := s.cur.map f } := by
  obtain ⟨c,hc,hi,hs⟩ := h
  exact ⟨f c,by simp [hc],by rw [(hf c).1,hi],by rw [(hf c).2,hs]⟩

private theorem Working.change_within (n : Nat) (hs : s.Working) {act : Activity}
    (hne : s.act ≠ act)
    (hen : ∀ u : Slot, u.state = .claimed → u.act = act → u.Running → u.pre ≠ none →
      Ends a u Settled (entered a (change a (n + 7)) (u.enterClaimed a (change a (n + 7))))) :
    Ends a s Settled (change a (n + 8) s .claimed act) := by
  have hen' : ∀ t : Slot, t.Working →
      Ends a t Settled (entered a (change a (n + 7))
        ((t.moved .claimed act).enterAction a (change a (n + 7)) (t.state ≠ .claimed))) := by
    intro t ht
    have hdec : decide (t.state ≠ .claimed) = false := by simp [ht.state]
    simp only [enterAction,moved_state,hdec,Bool.false_eq_true,if_false]
    exact (hen (t.moved .claimed act) rfl rfl (ht.running.congr rfl) ht.pre).of_onward
      (moved_onward t _ _)
  by_cases hsus : s.act = .suspended
  · obtain ⟨hr,hal⟩ := hs.running.signal (a := a) .running rfl
    rcases hb : s.signal a .running with ⟨t,b⟩
    rw [hb] at hr hal
    have ht : t.Working := hs.congr hal hr
    have hl : s.leaveAction a (change a (n + 7)) .claimed =
        bif b then .proceed t
        else .done (t.starterKillPg.changeTo a (change a (n + 7)) .preempting) := by
      simp only [leaveAction,hs.state,hsus,if_true,resumeClaim,hs.running.hasStarter,hb]
      cases b <;> simp
    cases b with
    | true =>
      rw [change_eq a (n + 7) (fun h => hne h.2) hl ht.held.accepts]
      exact (hen' t ht).of_onward (hal.onward fun _ => hr)
    | false =>
      obtain ⟨hk,hka⟩ := hr.starterKillPg
      rw [change,changeBody,if_neg (fun h => hne h.2),hl]
      exact ((ht.congr hka hk).held.changeTo_preempting n).of_onward
        ((hal.trans hka).onward fun _ => hk)
  · rw [change_eq a (n + 7) (fun h => hne h.2)
      (leaveAction_eq _ _ hs.held.accepts fun _ => hsus) hs.held.accepts]
    exact hen' s hs

private theorem Working.change_suspended (n : Nat) (hs : s.Working) (ha : s.act ≠ .suspended) :
    Ends a s Settled (change a (n + 8) s .claimed .suspended) := by
  refine hs.change_within n ha fun u hus hua hur hup => ?_
  obtain ⟨hr,hal⟩ := hur.signal (a := a) .suspended rfl
  rcases hb : u.signal a .suspended with ⟨t,b⟩
  rw [hb] at hr hal
  have hu : u.Working := ⟨hus,.inr (.inr hua),hur,hup⟩
  have ht : t.Working := hu.congr hal hr
  simp only [enterClaimed,hua,suspendClaim,hur.hasStarter,if_true,hb]
  cases b with
  | true =>
    have hta : t.act = .suspended := hal.act.trans hua
    have he : entered a (change a (n + 7)) (.proceed t) = .ok (some t) := by
      simp [entered,ht.state,hta]
    rw [he]
    exact ⟨ht.settled,hal.onward fun _ => hr⟩
  | false =>
    obtain ⟨hk,hka⟩ := hr.starterKillPg
    exact ((ht.congr hka hk).held.changeTo_preempting n).of_onward
      ((hal.trans hka).onward fun _ => hk)

private theorem Working.change_busy_of_mayUnretire (n : Nat) (hs : s.Working)
    (ha : s.act = .retiring)
    (hm : s.mayUnretire = true) : Ends a s Settled (change a (n + 1) s .claimed .busy) := by
  have hdec : decide (s.state ≠ .claimed) = false := by simp [hs.state]
  have hret : (s.moved .claimed .busy).inRetirement = false := by
    simp only [inRetirement,mayUnretire,hasPreemptingClaim,moved_draining,moved_cur,moved_pre]
      at hm ⊢
    simp_all
  rw [change_eq a n (by simp [ha]) (leaveAction_eq _ _ hs.held.accepts (by simp [ha]))
    hs.held.accepts]
  simp only [enterAction,moved_state,hdec,Bool.false_eq_true,if_false,enterClaimed,moved_act,hret,
    entered,reduceCtorEq,or_self]
  refine ⟨Working.settled ⟨rfl,.inl rfl,hs.running.congr rfl,hs.pre⟩,moved_onward s _ _⟩

theorem retireClaim_claimed (hs : s.state = .claimed) (reversible : Bool) :
    s.retireClaim a change' reversible = change' (if reversible then s
      else { s with cur := s.cur.map fun c =>
        { c with mayUnretire := false } }) .claimed .retiring := by
  unfold retireClaim
  split
  · rfl
  all_goals simp_all

theorem Working.retireClaim_of (hs : s.Working)
    (h : ∀ t : Slot, t.Working → t.act = s.act → Ends a t Settled (change' t .claimed .retiring))
    (reversible : Bool) : Ends a s Settled (s.retireClaim a change' reversible) := by
  rw [retireClaim_claimed hs.state]
  split
  · exact h s hs rfl
  · have hw : Working { s with cur := s.cur.map fun c => { c with mayUnretire := false } } :=
      ⟨hs.state,hs.act,hs.running.mapCur _ fun _ => ⟨rfl,rfl⟩,hs.pre⟩
    have ho : s.Onward a { s with cur := s.cur.map fun c => { c with mayUnretire := false } } :=
      ⟨rfl,id,fun _ => .inl hw.running⟩
    exact (h _ hw rfl).of_onward ho

theorem Working.preemptIsTrue (hs : s.Working) : s.preemptIsTrue.Working :=
  ⟨hs.state,hs.act,hs.running.mapCur _ fun _ => ⟨rfl,rfl⟩,hs.pre⟩

private theorem preemptIsTrue_onward (s : Slot) : s.Onward a s.preemptIsTrue :=
  ⟨rfl,id,fun hr => .inl (hr.mapCur _ fun _ => ⟨rfl,rfl⟩)⟩

private theorem Working.evalClaimed_retiring (n : Nat) (hs : s.Working) (ha : s.act = .retiring) :
    Ends a s Settled (s.evalClaimed a (change a (n + 8))) := by
  have hpre : Ends a s Settled (s.changeTo a (change a (n + 8)) .preempting) :=
    hs.held.changeTo_preempting (n + 1)
  simp only [evalClaimed,ha,reduceCtorEq,false_and,if_false,false_or,true_and,or_false,or_true]
  split
  · exact hpre
  · split
    · refine (hs.preemptIsTrue.retireClaim_of ?_ false).of_onward (preemptIsTrue_onward s)
      intro t ht hta
      have hsame : change a (n + 8) t t.state t.act = .ok (some t) := change_same (n + 7)
      rw [ht.state,hta,show s.preemptIsTrue.act = .retiring from ha] at hsame
      rw [hsame]
      exact Ends.stay ht.settled
    · split
      · rename_i hm
        exact hs.change_busy_of_mayUnretire (n + 7) ha hm
      · split
        · exact hpre
        · split
          · exact hs.change_suspended n (by simp [ha])
          · exact Ends.stay hs.settled

theorem Working.change_retiring (n : Nat) (hs : s.Working) :
    Ends a s Settled (change a (n + 9) s .claimed .retiring) := by
  by_cases ha : s.act = .retiring
  · have hsame : change a (n + 9) s s.state s.act = .ok (some s) := change_same (n + 8)
    rw [hs.state,ha] at hsame
    rw [hsame]
    exact Ends.stay hs.settled
  · refine hs.change_within (n + 1) ha fun u hus hua hur hup => ?_
    have hu : u.Working := ⟨hus,.inr (.inl hua),hur,hup⟩
    simp only [enterClaimed,hua,hur.claimIsActive,if_true,entered,hus,reduceCtorEq,if_false,true_or,
      eval]
    exact hu.evalClaimed_retiring n hua

theorem Working.change_busy (n : Nat) (hs : s.Working) :
    Ends a s Settled (change a (n + 10) s .claimed .busy) := by
  by_cases ha : s.act = .busy
  · have hsame : change a (n + 10) s s.state s.act = .ok (some s) := change_same (n + 9)
    rw [hs.state,ha] at hsame
    rw [hsame]
    exact Ends.stay hs.settled
  · refine hs.change_within (n + 2) ha fun u hus hua hur hup => ?_
    have hu : u.Working := ⟨hus,.inl hua,hur,hup⟩
    simp only [enterClaimed,hua]
    split
    · exact hu.change_retiring n
    · simp only [entered,hus,hua,reduceCtorEq,or_self,if_false]
      exact Ends.stay hu.settled

theorem Working.evalClaimed (n : Nat) (hs : s.Working) :
    Ends a s Settled (s.evalClaimed a (change a (n + 10))) := by
  have hpre : Ends a s Settled (s.changeTo a (change a (n + 10)) .preempting) :=
    hs.held.changeTo_preempting (n + 3)
  have hret : Ends a s Settled (change a (n + 10) s .claimed .retiring) :=
    hs.change_retiring (n + 1)
  have hirr : Ends a s Settled (s.preemptIsTrue.retireClaim a (change a (n + 10)) false) :=
    (hs.preemptIsTrue.retireClaim_of (fun t ht _ => ht.change_retiring (n + 1)) false).of_onward
      (preemptIsTrue_onward s)
  rcases hs.act with ha | ha | ha
  · simp only [Slot.evalClaimed,ha,reduceCtorEq,false_and,if_false,true_and,or_false]
    split
    · exact hpre
    · split
      · exact hirr
      · split
        · exact hs.change_suspended (n + 2) (by simp [ha])
        · split
          · exact hret
          · exact Ends.stay hs.settled
  · exact hs.evalClaimed_retiring (n + 2) ha
  · simp only [Slot.evalClaimed,ha,reduceCtorEq,false_and,if_false,true_and,false_or,or_self]
    split
    · exact Ends.stay hs.settled
    · split
      · exact hpre
      · split
        · exact hirr
        · split
          · split
            · exact hret
            · exact hs.change_busy n
          · exact Ends.stay hs.settled

end Condor.Startd.Slot
