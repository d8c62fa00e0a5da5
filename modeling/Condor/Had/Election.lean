import Condor.Had.StateMachine

/-!
# At most one leader

A daemon that stands for election has heard of every leader, unless the leader's turn in the round
is still to come; so it does not become a leader beside another.
-/

namespace Condor.Had

open Lib Option

variable {c : Config} {w w' : World} {i j k : Nat} {m : Machine} {master : Bool}

theorem Config.isPrimary_iff : c.isPrimary i = true ↔ c.usePrimary = true ∧ i + 1 =
    c.hads := by
  rw [Config.isPrimary,Bool.and_eq_true,beq_iff_eq]

namespace Machine

private theorem step_election (h : (m.step c i master).state = .election) :
    (m.state = .passive ∨ m.state = .election) ∧
      (c.isPrimary i = false → m.receivedAliveList = []) := by
  unfold step at h
  split at h
  · simp [clearBuffers] at h
  · next hs =>
    split at h
    · next hgo =>
      refine ⟨.inl hs,fun hp => ?_⟩
      simpa [hp] using hgo
    · simp [clearBuffers,hs] at h
  · next hs =>
    split at h
    · simp [clearBuffers] at h
    · next halive =>
      refine ⟨.inr hs,fun hp => ?_⟩
      simpa [hp] using halive
  · next hs =>
    split at h <;> simp [clearBuffers,hs] at h

private theorem step_leader (h : (m.step c i master).state = .leader) :
    (m.state = .election ∧ (c.isPrimary i = false → m.receivedAliveList = [])) ∨
      (m.state = .leader ∧ ∀ id ∈ m.receivedAliveList, id ≤ i) := by
  unfold step at h
  split at h
  · simp [clearBuffers] at h
  · next hs =>
    split at h <;> simp [clearBuffers,hs] at h
  · next hs =>
    split at h
    · simp [clearBuffers] at h
    · next halive =>
      refine .inl ⟨hs,fun hp => ?_⟩
      simpa [hp] using halive
  · next hs =>
    split at h
    · simp [clearBuffers] at h
    · next hstay =>
      refine .inr ⟨hs,fun id hid => ?_⟩
      have hne : m.receivedAliveList.isEmpty = false := by
        rw [List.isEmpty_eq_false_iff]
        exact List.ne_nil_of_mem hid
      simp only [hne,Bool.not_false,Bool.true_and,Bool.not_eq_true',Bool.not_eq_false] at hstay
      simpa using List.all_eq_true.mp hstay id hid

private theorem message_of_leader (h : m.state = .leader) : m.message = some .alive := by
  rw [message,h]

@[simp] theorem receive_state (cmd : Command) (id : Nat) : (m.receive cmd id).state = m.state := by
  cases cmd <;> rfl

theorem mem_receive {cmd : Command} {id : Nat} (h : j ∈ m.receivedAliveList) :
    j ∈ (m.receive cmd id).receivedAliveList := by
  cases cmd with
  | alive => exact List.mem_append_left _ h
  | sendId => exact h

end Machine

namespace World

theorem inState_iff {s : State} :
    w.inState i s = true ↔ ∃ m, w.machine i = some m ∧ m.state = s := by
  rw [inState]
  cases w.machine i with
  | none | some => simp

/-- A sign of life of the daemon has reached the other or is on its way. -/
def Informed (w : World) (i j : Nat) : Prop :=
  (∃ m, w.machine i = some m ∧ j ∈ m.receivedAliveList) ∨ ⟨i,.alive,j⟩ ∈ w.inFlight

structure Settled (c : Config) (w : World) : Prop where
  bounded : ∀ i, w.machine i ≠ none → i < c.hads
  election : ∀ i j, i ≠ j → c.isPrimary i = false → w.inState i .election = true →
    w.inState j .leader = true → (w.done i = true ∧ w.done j = false) ∨ w.Informed i j
  passive : ∀ i j, i ≠ j → c.isPrimary i = false → w.inState i .passive = true →
    w.done i = false → w.inState j .leader = true → w.done j = true → w.Informed i j
  leaders : ∀ i j, i ≠ j → c.isPrimary i = false → w.inState i .leader = true →
    w.inState j .leader = true → c.isPrimary j = true ∧ w.Informed i j

theorem Settled.start : Settled c {} where
  bounded i h := by simp at h
  election i j _ _ h := by simp [inState] at h
  passive i j _ _ h := by simp [inState] at h
  leaders i j _ _ h := by simp [inState] at h

theorem Settled.update (h : Settled c w) {x : Option Machine} {b : Bool}
    (hx : ∀ m, x = some m → m.state = .pre ∧ k < c.hads) :
    Settled c { w with machine := Function.update w.machine k x, done := Function.update w.done k b
    } := by
  set w' : World :=
    { w with machine := Function.update w.machine k x, done := Function.update w.done k b } with hw'
  have hmachine {i : Nat} (hi : i ≠ k) : w'.machine i = w.machine i := Function.update_of_ne hi _ _
  have hdone {i : Nat} (hi : i ≠ k) : w'.done i = w.done i := Function.update_of_ne hi _ _
  have hne {i : Nat} {s : State} (hs : s ≠ .pre) (hi : w'.inState i s = true) : i ≠ k := by
    rintro rfl
    obtain ⟨m,hm,rfl⟩ := inState_iff.mp hi
    exact hs (hx m (by simpa [hw'] using hm)).1
  have hstate {i : Nat} {s : State} (hi : i ≠ k) : w'.inState i s = w.inState i s := by
    rw [inState,inState,hmachine hi]
  have hinf {i j : Nat} (hi : i ≠ k) (h : w.Informed i j) : w'.Informed i j := by
    rcases h with ⟨m,hm,hj⟩ | hj
    · exact .inl ⟨m,(hmachine hi).trans hm,hj⟩
    · exact .inr hj
  constructor
  · intro i hi
    by_cases hik : i = k
    · subst hik
      obtain ⟨m,hm⟩ := Option.ne_none_iff_exists'.mp hi
      exact (hx m (by simpa [hw'] using hm)).2
    · exact h.bounded i (by rw [← hmachine hik]; exact hi)
  · intro i j hij hp hi hj
    have hik := hne (by simp) hi
    have hjk := hne (by simp) hj
    rw [hstate hik] at hi
    rw [hstate hjk] at hj
    rw [hdone hik,hdone hjk]
    exact (h.election i j hij hp hi hj).imp_right (hinf hik)
  · intro i j hij hp hi hdi hj hdj
    have hik := hne (by simp) hi
    have hjk := hne (by simp) hj
    rw [hstate hik] at hi
    rw [hstate hjk] at hj
    rw [hdone hik] at hdi
    rw [hdone hjk] at hdj
    exact hinf hik (h.passive i j hij hp hi hdi hj hdj)
  · intro i j hij hp hi hj
    have hik := hne (by simp) hi
    have hjk := hne (by simp) hj
    rw [hstate hik] at hi
    rw [hstate hjk] at hj
    exact (h.leaders i j hij hp hi hj).imp_right (hinf hik)

private theorem Settled.of_informed (h : Settled c w)
    (hrun : ∀ i, w'.machine i ≠ none → w.machine i ≠ none)
    (hstate : ∀ i s, w'.inState i s = w.inState i s) (hdone : w'.done = w.done)
    (hinf : ∀ i j, w.machine i ≠ none → w.Informed i j → w'.Informed i j) : Settled c w' := by
  have hruns {i : Nat} {s : State} (hi : w.inState i s = true) : w.machine i ≠ none := by
    obtain ⟨m,hm,-⟩ := inState_iff.mp hi
    simp [hm]
  constructor
  · intro i hi
    exact h.bounded i (hrun i hi)
  · intro i j hij hp hi hj
    rw [hstate] at hi hj
    rw [hdone]
    exact (h.election i j hij hp hi hj).imp_right (hinf i j (hruns hi))
  · intro i j hij hp hi hdi hj hdj
    rw [hstate] at hi hj
    rw [hdone] at hdi hdj
    exact hinf i j (hruns hi) (h.passive i j hij hp hi hdi hj hdj)
  · intro i j hij hp hi hj
    rw [hstate] at hi hj
    exact (h.leaders i j hij hp hi hj).imp_right (hinf i j (hruns hi))

private theorem mem_eraseIdx {α : Type} {l : List α} {x : α} (n : Nat) (h : x ∈ l) :
    x ∈ l.eraseIdx n ∨ l[n]? = some x := by
  induction l generalizing n with
  | nil => simp at h
  | cons y ys ih =>
    cases n with
    | zero =>
      rcases List.mem_cons.mp h with rfl | h
      · exact .inr rfl
      · exact .inl h
    | succ n =>
      rcases List.mem_cons.mp h with rfl | h
      · exact .inl (List.mem_cons_self ..)
      · rcases ih n h with h | h
        · exact .inl (List.mem_cons_of_mem _ h)
        · exact .inr h

theorem Settled.deliver (h : Settled c w) {n : Nat} (hs : w.step c (.deliver n) = some w') :
    Settled c w' := by
  simp only [World.step] at hs
  split at hs
  · simp at hs
  · next x hx =>
    obtain rfl := some.inj hs
    cases hm : w.machine x.receiver with
    | none =>
      apply h.of_informed
      · intro i hi
        exact hi
      · intro i s
        rfl
      · rfl
      · -- the lost message was for a daemon that does not run
        rintro i j hi (hj | hj)
        · exact .inl hj
        · rcases mem_eraseIdx n hj with hj | hj
          · exact .inr hj
          · obtain rfl := some.inj (hx.symm.trans hj)
            exact absurd hm hi
    | some m =>
      have hother {i : Nat} (hi : i ≠ x.receiver) :
          Function.update w.machine x.receiver (some (m.receive x.cmd x.id)) i = w.machine i :=
        Function.update_of_ne hi _ _
      have hself : Function.update w.machine x.receiver (some (m.receive x.cmd x.id)) x.receiver =
          some (m.receive x.cmd x.id) := Function.update_self ..
      apply h.of_informed
      · intro i hi
        by_cases hix : i = x.receiver
        · rw [hix,hm]
          simp
        · dsimp only at hi
          rw [hother hix] at hi
          exact hi
      · intro i s
        by_cases hix : i = x.receiver
        · subst hix
          simp [inState,hm]
        · simp only [inState,hother hix]
      · rfl
      · rintro i j hi (⟨m',hm',hj⟩ | hj)
        · left
          by_cases hix : i = x.receiver
          · subst hix
            obtain rfl : m = m' := some.inj (hm.symm.trans hm')
            exact ⟨_,hself,Machine.mem_receive hj⟩
          · exact ⟨m',(hother hix).trans hm',hj⟩
        · rcases mem_eraseIdx n hj with hj | hj
          · exact .inr hj
          · obtain rfl := some.inj (hx.symm.trans hj)
            exact .inl ⟨_,hself,List.mem_append_right _ (List.mem_singleton.mpr rfl)⟩

theorem Settled.newRound (h : Settled c w) (hs : w.step c .newRound = some w') :
    Settled c w' := by
  simp only [World.step] at hs
  split at hs
  · next hall =>
    obtain rfl := some.inj hs
    have hdone {i : Nat} {s : State} (hi : w.inState i s = true) : w.done i = true := by
      obtain ⟨m,hm,-⟩ := inState_iff.mp hi
      have hne : w.machine i ≠ none := by simp [hm]
      exact hall i (h.bounded i hne) hne
    constructor
    · exact h.bounded
    · intro i j hij hp hi hj
      rcases h.election i j hij hp hi hj with ⟨-,hf⟩ | hinf
      · rw [hdone hj] at hf
        simp at hf
      · exact .inr hinf
    · intro i j _ _ _ _ _ hdj
      simp at hdj
    · exact h.leaders
  · simp at hs

structure Cycled (c : Config) (w : World) (k : Nat) (m' : Machine) (w' : World) : Prop where
  self : w'.machine k = some m'
  other : ∀ i, i ≠ k → w'.machine i = w.machine i
  done : w'.done k = true
  doneOther : ∀ i, i ≠ k → w'.done i = w.done i
  sent : ∀ x ∈ w.inFlight, x ∈ w'.inFlight
  alive : m'.state = .leader → ∀ i, i ≠ k → i < c.hads → w.machine i ≠ none →
    ⟨i,.alive,k⟩ ∈ w'.inFlight

private theorem cycle_cycled (w : World) (k : Nat) (master : Bool) (m : Machine) :
    Cycled c w k (m.step c k master) (w.cycle c k master m) := by
  have hkeep : (w.cycle c k master m).machine =
        Function.update w.machine k (some (m.step c k master)) ∧
      (w.cycle c k master m).done = Function.update w.done k true := by
    unfold cycle sendMessages
    dsimp only
    split <;> exact ⟨rfl,rfl⟩
  constructor
  · rw [hkeep.1,Function.update_self]
  · intro i hi
    rw [hkeep.1,Function.update_of_ne hi]
  · rw [hkeep.2,Function.update_self]
  · intro i hi
    rw [hkeep.2,Function.update_of_ne hi]
  · intro x hx
    unfold cycle sendMessages
    dsimp only
    split
    · exact hx
    · exact List.mem_append_left _ hx
  · intro hl i hi hlt hrun
    unfold cycle sendMessages
    dsimp only
    rw [Machine.message_of_leader hl]
    apply List.mem_append_right
    refine List.mem_map.mpr ⟨i,List.mem_filter.mpr ⟨List.mem_range.mpr hlt,?_⟩,rfl⟩
    have hsome : (w.machine i).isSome = true := Option.isSome_iff_ne_none.mpr hrun
    simp [hi,hsome]

private theorem not_informed (hm : w.machine k = some m) (hquiet : ∀ x ∈ w.inFlight, x.receiver ≠ k)
    (hempty : m.receivedAliveList = []) (j : Nat) : ¬w.Informed k j := by
  rintro (⟨m',hm',hj⟩ | hj)
  · obtain rfl : m = m' := some.inj (hm.symm.trans hm')
    simp [hempty] at hj
  · exact hquiet _ hj rfl

theorem Informed.mem (h : w.Informed k j) (hm : w.machine k = some m)
    (hquiet : ∀ x ∈ w.inFlight, x.receiver ≠ k) : j ∈ m.receivedAliveList := by
  rcases h with ⟨m',hm',hj⟩ | hj
  · obtain rfl : m = m' := some.inj (hm.symm.trans hm')
    exact hj
  · exact absurd rfl (hquiet _ hj)

private theorem Settled.alone (h : Settled c w) (hm : w.machine k = some m)
    (hs : m.state = .election)
    (hd : w.done k = false) (hp : c.isPrimary k = false)
    (hquiet : ∀ x ∈ w.inFlight, x.receiver ≠ k) (hempty : m.receivedAliveList = []) (hj : j ≠ k) :
    w.inState j .leader = false := by
  by_contra hl
  rcases h.election k j (Ne.symm hj) hp (inState_iff.mpr ⟨m,hm,hs⟩) (by simpa using hl) with
    ⟨hdone,-⟩ | hinf
  · rw [hd] at hdone
    simp at hdone
  · exact not_informed hm hquiet hempty j hinf

theorem Settled.cycle (h : Settled c w) (hm : w.machine k = some m) (hd : w.done k = false)
    (hquiet : ∀ x ∈ w.inFlight, x.receiver ≠ k) (master : Bool) :
    Settled c (w.cycle c k master m) := by
  have hc := cycle_cycled (c := c) w k master m
  generalize w.cycle c k master m = w' at hc
  have hstate {i : Nat} {s : State} (hi : i ≠ k) : w'.inState i s = w.inState i s := by
    rw [inState,inState,hc.other i hi]
  have hself {s : State} (hi : w'.inState k s = true) : (m.step c k master).state = s := by
    obtain ⟨m',hm',hs⟩ := inState_iff.mp hi
    obtain rfl := some.inj (hc.self.symm.trans hm')
    exact hs
  have hinf {i j : Nat} (hi : i ≠ k) (hij : w.Informed i j) : w'.Informed i j := by
    rcases hij with ⟨m',hm',hj⟩ | hj
    · exact .inl ⟨m',(hc.other i hi).trans hm',hj⟩
    · exact .inr (hc.sent _ hj)
  -- whoever runs gets the sign of life of a leader
  have htold {i : Nat} {s : State} (hi : i ≠ k) (hs : w.inState i s = true)
      (hl : w'.inState k .leader = true) : w'.Informed i k := by
    obtain ⟨m',hm',-⟩ := inState_iff.mp hs
    have hne : w.machine i ≠ none := by simp [hm']
    exact .inr (hc.alive (hself hl) i hi (h.bounded i hne) hne)
  constructor
  · intro i hi
    by_cases hik : i = k
    · rw [hik]
      exact h.bounded k (by simp [hm])
    · exact h.bounded i (by rw [← hc.other i hik]; exact hi)
  · intro i j hij hp hi hj
    by_cases hik : i = k
    · subst hik
      have hji : j ≠ i := Ne.symm hij
      obtain ⟨hs,hempty⟩ := Machine.step_election (hself hi)
      rw [hstate hji] at hj
      rw [hc.done,hc.doneOther j hji]
      cases hdj : w.done j with
      | false => exact .inl ⟨rfl,rfl⟩
      | true =>
        exfalso
        rcases hs with hs | hs
        · exact not_informed hm hquiet (hempty hp) j
            (h.passive i j hij hp (inState_iff.mpr ⟨m,hm,hs⟩) hd hj hdj)
        · rw [h.alone hm hs hd hp hquiet (hempty hp) hji] at hj
          simp at hj
    · rw [hstate hik] at hi
      by_cases hjk : j = k
      · subst hjk
        exact .inr (htold hik hi hj)
      · rw [hstate hjk] at hj
        rw [hc.doneOther i hik,hc.doneOther j hjk]
        exact (h.election i j hij hp hi hj).imp_right (hinf hik)
  · intro i j hij hp hi hdi hj hdj
    have hik : i ≠ k := by
      rintro rfl
      rw [hc.done] at hdi
      simp at hdi
    rw [hstate hik] at hi
    rw [hc.doneOther i hik] at hdi
    by_cases hjk : j = k
    · subst hjk
      exact htold hik hi hj
    · rw [hstate hjk] at hj
      rw [hc.doneOther j hjk] at hdj
      exact hinf hik (h.passive i j hij hp hi hdi hj hdj)
  · intro i j hij hp hi hj
    by_cases hik : i = k
    · subst hik
      have hji : j ≠ i := Ne.symm hij
      rw [hstate hji] at hj
      exfalso
      rcases Machine.step_leader (hself hi) with ⟨hs,hempty⟩ | ⟨hs,hle⟩
      · rw [h.alone hm hs hd hp hquiet (hempty hp) hji] at hj
        simp at hj
      · -- a leader beside the primary has its higher id in the list and steps down
        obtain ⟨hpj,hinf⟩ := h.leaders i j hij hp (inState_iff.mpr ⟨m,hm,hs⟩) hj
        have hji := hle j (hinf.mem hm hquiet)
        have hlt := h.bounded i (by simp [hm])
        have hmax := (Config.isPrimary_iff.mp hpj).2
        omega
    · rw [hstate hik] at hi
      by_cases hjk : j = k
      · subst hjk
        refine ⟨?_,htold hik hi hj⟩
        rcases Machine.step_leader (hself hj) with ⟨hs,hempty⟩ | ⟨hs,-⟩
        · by_contra hpj
          have hpj : c.isPrimary j = false := by simpa using hpj
          rw [h.alone hm hs hd hpj hquiet (hempty hpj) hij] at hi
          simp at hi
        · exact (h.leaders i j hij hp hi (inState_iff.mpr ⟨m,hm,hs⟩)).1
      · rw [hstate hjk] at hj
        exact (h.leaders i j hij hp hi hj).imp_right (hinf hik)

theorem Settled.step (h : Settled c w) {a : Action} (hs : w.step c a = some w') : Settled c w' := by
  cases a with
  | start i waits =>
    simp only [World.step] at hs
    split at hs
    · next hi =>
      obtain rfl := some.inj hs
      apply h.update
      intro m hm
      obtain rfl := some.inj hm
      exact ⟨rfl,hi.1⟩
    · simp at hs
  | stop i =>
    obtain rfl := some.inj hs
    have hu := h.update (k := i) (x := none) (b := w.done i) (by simp)
    rw [Function.update_eq_self] at hu
    exact hu
  | cycle i master =>
    simp only [World.step] at hs
    split at hs
    · simp at hs
    · next m hm =>
      split at hs
      · next hgo =>
        obtain rfl := some.inj hs
        exact h.cycle hm hgo.1 hgo.2 master
      · simp at hs
  | deliver n => exact h.deliver hs
  | newRound => exact h.newRound hs

/-- There is at most one leader without a primary. With one, two leaders are the primary and one
other, which is about to see the primary's sign of life and is no leader after that. -/
theorem leaders_of_run {actions : List Action} (hr : run (World.step c) {} actions = some w) :
    (c.usePrimary = false → ∀ i j, w.inState i .leader = true → w.inState j .leader = true →
    i = j) ∧
    (c.usePrimary = true →
      (∀ i j, w.inState i .leader = true → w.inState j .leader = true → i ≠ j →
        i + 1 = c.hads ∨ j + 1 = c.hads) ∧
      (∀ i p, p + 1 = c.hads → i ≠ p → w.inState i .leader = true →
        w.inState p .leader = true → w.Informed i p) ∧
      ∀ i p m master w', p + 1 = c.hads → i ≠ p → w.machine i = some m →
        p ∈ m.receivedAliveList → w.step c (.cycle i master) = some w' →
        w'.inState i .leader = false) := by
  have h : Settled c w :=
    run_preserves (fun s a s' hs hstep => Settled.step hs hstep) Settled.start hr
  constructor
  · intro hno i j hi hj
    by_contra hij
    have hp (i : Nat) : c.isPrimary i = false := by simp [Config.isPrimary,hno]
    have hpj := (h.leaders i j hij (hp i) hi hj).1
    rw [hp j] at hpj
    simp at hpj
  · intro huse
    have hother {i p : Nat} (hp : p + 1 = c.hads) (hi : i ≠ p) : c.isPrimary i = false := by
      by_contra hpi
      have := (Config.isPrimary_iff.mp (by simpa using hpi)).2
      omega
    refine ⟨fun i j hi hj hij => ?_,fun i p hp hi hli hlp => ?_,?_⟩
    · cases hpi : c.isPrimary i with
      | true => exact .inl (Config.isPrimary_iff.mp hpi).2
      | false => exact .inr (Config.isPrimary_iff.mp (h.leaders i j hij hpi hi hj).1).2
    · exact (h.leaders i p hi (hother hp hi) hli hlp).2
    · intro i p m master w' hp hi hm hmem hs
      by_contra hl
      simp only [World.step,hm] at hs
      split at hs
      · obtain rfl := some.inj hs
        obtain ⟨m',hm',hleader⟩ := inState_iff.mp (by simpa using hl)
        obtain rfl := some.inj ((cycle_cycled w i master m).self.symm.trans hm')
        rcases Machine.step_leader hleader with ⟨-,hempty⟩ | ⟨-,hle⟩
        · simp [hempty (hother hp hi)] at hmem
        · have hip := hle p hmem
          have hlt := h.bounded i (by simp [hm])
          omega
      · simp at hs

def sampleActions : List Action :=
  [.start 0 false,.cycle 0 true,.newRound,.cycle 0 true,.newRound,.cycle 0 true,.start 1 true,
    .newRound,.cycle 1 true,.cycle 0 true,.deliver 0,.newRound,.cycle 1 true,.deliver 0,
    .cycle 0 true,.deliver 0,.newRound,.cycle 1 true]

theorem leaders_of_run_sample :
    ∃ w, run (World.step ⟨2,true,false⟩) {} sampleActions = some w ∧
      w.inState 0 .leader = true ∧ w.inState 1 .leader = true ∧ w.Informed 0 1 := by
  obtain ⟨w,hw,hl⟩ := run_exists (World.step ⟨2,true,false⟩) {} sampleActions
    (fun w => w.inState 0 .leader && w.inState 1 .leader) (by decide)
  simp only [Bool.and_eq_true] at hl
  exact ⟨w,hw,hl.1,hl.2,((leaders_of_run hw).2 rfl).2.1 0 1 rfl (by decide) hl.1 hl.2⟩

end World

end Condor.Had
