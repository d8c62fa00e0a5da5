import Condor.Utils.StatsWindow

/-!
# Runs of a windowed statistic

As long as a change of the size leaves room behind the head and a window starts from nothing, the
statistic answers as the window of its most recent slots.
-/

namespace Condor.Utils

open Condor.Lib List

variable {T : Type} [AddCommGroup T]

namespace StatsEntryRecent

/-- The size only changes when there is room behind the head, and a window is only opened when
nothing was added without one. -/
def Allowed (s : StatsEntryRecent T) : Call T → Prop
  | .advanceBy cSlots => s.buf.cMax = 0 → cSlots < 0 → s.recent = 0
  | .setRecentMax cRecentMax =>
    s.buf.Fits cRecentMax ∧ (s.buf.cMax = 0 → 0 < cRecentMax → s.recent = 0)
  | _ => True

instance [DecidableEq T] (s : StatsEntryRecent T) (c : Call T) : Decidable (s.Allowed c) := by
  cases c <;> unfold Allowed <;> infer_instance

/-- The statistic holds the window, and `recent` is the sum of its slots. -/
structure Exact (s : StatsEntryRecent T) (w : Window T) : Prop where
  buf : s.buf.Refines w
  recent : 0 < w.max → s.recent = w.slots.sum

variable {s : StatsEntryRecent T} {w : Window T}

private theorem exact_new (cRecentMax : Int) :
    (new cRecentMax : StatsEntryRecent T).Exact (Window.start cRecentMax.toNat) :=
  ⟨RingBuffer.refines_new cRecentMax,fun _ => rfl⟩

theorem Exact.clear (h : s.Exact w) : s.clear.Exact w.clear :=
  ⟨h.buf.clear,fun _ => rfl⟩

theorem Exact.add (h : s.Exact w) (val : T) : ∃ s', s.add val = .ok s' ∧ s'.Exact (w.add val) := by
  have hcMax := h.buf.cMax
  have hcItems := h.buf.cItems
  rcases Nat.eq_zero_or_pos w.max with hz | hpos
  · have hslots := Window.slots_eq_nil hz
    have hadd : w.add val = w := by
      obtain ⟨max,slots,fits⟩ := w
      obtain rfl : slots = [] := hslots
      obtain rfl : max = 0 := hz
      rfl
    rw [hadd]
    refine ⟨⟨s.value + val,s.recent + val,s.buf⟩,?_,h.buf,fun hmax => by omega⟩
    rw [StatsEntryRecent.add]
    exact if_neg (by show ¬0 < s.buf.cMax; omega)
  · have hrecent : s.recent + val = (w.add val).slots.sum := by
      rw [Window.sum_add hpos,h.recent hpos]
    have hmax : 0 < s.buf.cMax := by omega
    have hgoal : ∀ (buf : RingBuffer T) (w1 : Window T), buf.Refines w1 → w1.max = w.max →
      0 < w1.slots.length →
        w1.add val = w.add val → ∃ buf', buf.add val = .ok buf' ∧ buf'.Refines (w.add val) := by
      intro buf w1 hbuf hm hlen hw1
      obtain ⟨max,slots,fits⟩ := w1
      cases slots with
      | nil => simp at hlen
      | cons x l =>
        obtain ⟨buf',hb',h'⟩ := RingBuffer.Refines.add (w := ⟨max,x :: l,fits⟩) hbuf val
        refine ⟨buf',hb',?_⟩
        rw [← hw1]
        exact h'
    by_cases hempty : s.buf.cItems = 0
    · obtain ⟨buf,hb,hpush⟩ := h.buf.pushZero hpos
      have hslots : w.slots = [] := eq_nil_of_length_eq_zero (by omega)
      obtain ⟨n,hn⟩ : ∃ n, w.max = n + 1 := ⟨w.max - 1,by omega⟩
      have hone : (w.push (0 : T)).slots = [0] := by simp [Window.push,hslots,hn]
      have hw : (w.push (0 : T)).add val = w.add val := by
        obtain ⟨max,slots,fits⟩ := w
        obtain rfl : slots = [] := hslots
        obtain rfl : max = n + 1 := hn
        simp [Window.add,Window.push]
      obtain ⟨buf',hb',h'⟩ := hgoal buf (w.push 0) hpush rfl (by simp [hone]) hw
      refine ⟨⟨s.value + val,s.recent + val,buf'⟩,?_,h',fun _ => hrecent⟩
      rw [StatsEntryRecent.add]
      show (if 0 < s.buf.cMax then _ else _) = _
      rw [if_pos hmax,if_pos hempty]
      show (s.buf.pushZero >>= _) = _
      rw [hb]
      show (buf.add val >>= _) = _
      rw [hb']
      rfl
    · obtain ⟨buf',hb',h'⟩ := hgoal s.buf w h.buf rfl (by omega) rfl
      refine ⟨⟨s.value + val,s.recent + val,buf'⟩,?_,h',fun _ => hrecent⟩
      rw [StatsEntryRecent.add]
      show (if 0 < s.buf.cMax then _ else _) = _
      rw [if_pos hmax,if_neg hempty]
      show (s.buf.add val >>= _) = _
      rw [hb']
      rfl

theorem Exact.advanceAndSub (h : s.Exact w) (cSlots : Int) :
    ∃ s', s.advanceAndSub cSlots = .ok s' ∧ s'.Exact (w.advance cSlots) ∧
      ((w.max = 0 → cSlots < 0 → s.recent = 0) →
        s'.recent = (w.advance cSlots).slots.sum) := by
  have hcMax := h.buf.cMax
  by_cases hlt : cSlots < s.buf.cMax
  · rcases Nat.eq_zero_or_pos w.max with hz | hpos
    · have hadv : w.advance cSlots = w := by
        obtain ⟨max,slots,fits⟩ := w
        obtain rfl : slots = [] := Window.slots_eq_nil hz
        obtain rfl : max = 0 := hz
        simp [Window.advance,Window.clear]
      rw [hadv]
      refine ⟨⟨s.value,s.recent - 0,s.buf⟩,?_,⟨h.buf,fun hmax => by omega⟩,fun hzero => ?_⟩
      · rw [StatsEntryRecent.advanceAndSub,if_pos hlt,RingBuffer.advanceAccum,if_pos (by omega)]
        rfl
      · rw [sub_zero,Window.slots_eq_nil hz]
        exact hzero hz (by omega)
    · obtain ⟨buf,accum,hb,hbuf,hsum⟩ := h.buf.accumLoop hpos cSlots.toNat 0
      have hadv : w.advance cSlots = w.pushes cSlots.toNat := by
        rw [Window.advance,if_pos (by omega)]
        rfl
      rw [hadv]
      have hrecent : s.recent - accum = (w.pushes cSlots.toNat).slots.sum := by
        rw [h.recent hpos,← zero_add w.slots.sum,← hsum,add_sub_cancel_left]
      refine ⟨⟨s.value,s.recent - accum,buf⟩,?_,⟨hbuf,fun _ => hrecent⟩,fun _ => hrecent⟩
      rw [StatsEntryRecent.advanceAndSub,if_pos hlt,RingBuffer.advanceAccum,if_neg (by omega),hb]
      rfl
  · have hadv : w.advance cSlots = w.clear := by rw [Window.advance,if_neg (by omega)]
    rw [hadv]
    refine ⟨⟨s.value,0,s.buf.clear⟩,?_,⟨h.buf.clear,fun _ => rfl⟩,fun _ => rfl⟩
    rw [StatsEntryRecent.advanceAndSub,if_neg hlt]

theorem Exact.advanceBySum (h : s.Exact w) {cSlots : Int} (hpos : 0 < cSlots) :
    ∃ s', s.advanceBySum cSlots = .ok s' ∧ s'.recent = (w.advance cSlots).slots.sum := by
  have hcMax := h.buf.cMax
  have hcall : ∀ (buf : RingBuffer T) (w1 : Window T), s.buf.advanceBy cSlots = .ok buf →
    buf.Refines w1 →
      ∃ s', s.advanceBySum cSlots = .ok s' ∧ s'.recent = w1.slots.sum := by
    intro buf w1 hb hbuf
    refine ⟨⟨s.value,w1.slots.sum,buf⟩,?_,rfl⟩
    rw [StatsEntryRecent.advanceBySum,if_neg (by omega),hb]
    show (buf.sum >>= _) = _
    rw [hbuf.sum]
    rfl
  rcases Nat.eq_zero_or_pos w.max with hz | hmax
  · obtain ⟨s',hs',hrec⟩ := hcall s.buf w (by rw [RingBuffer.advanceBy,if_pos (by omega)]) h.buf
    refine ⟨s',hs',?_⟩
    rw [hrec,Window.advance,if_neg (by omega),Window.slots_eq_nil hz]
    rfl
  · obtain ⟨buf,hb,hbuf⟩ := h.buf.advanceLoop hmax cSlots.toNat
    obtain ⟨s',hs',hrec⟩ := hcall buf _ (by rw [RingBuffer.advanceBy,if_neg (by omega),hb]) hbuf
    refine ⟨s',hs',?_⟩
    rw [hrec,Window.advance]
    split
    · rfl
    · -- only new slots are left
      have hle : w.max ≤ cSlots.toNat := by omega
      rw [Window.pushes]
      show ((List.replicate cSlots.toNat 0 ++ w.slots).take w.max).sum = 0
      rw [take_append_of_le_length (by rwa [length_replicate]),take_replicate,
        sum_replicate,nsmul_zero]

theorem Exact.setRecentMax (h : s.Exact w) {cRecentMax : Nat}
    (hok : s.Allowed (.setRecentMax cRecentMax)) :
    ∃ s', s.setRecentMax cRecentMax = .ok s' ∧ s'.Exact (w.resize cRecentMax) := by
  have hcMax := h.buf.cMax
  obtain ⟨buf,hb,hbuf,hfits⟩ := h.buf.setSize hok.1
  refine ⟨⟨s.value,s.recent,buf⟩,?_,hbuf,fun hpos => ?_⟩
  · rw [StatsEntryRecent.setRecentMax,hb]
    rfl
  · show s.recent = (w.slots.take cRecentMax).sum
    rw [take_of_length_le hfits]
    rcases Nat.eq_zero_or_pos w.max with hz | hmax
    · rw [Window.slots_eq_nil hz,hok.2 (by omega) hpos]
      rfl
    · exact h.recent hmax

theorem Exact.call (h : s.Exact w) {c : Call T} (hok : s.Allowed c) :
    ∃ s', s.step c = some s' ∧ s'.Exact (w.call c) := by
  have hstep : ∀ s', s.call c = .ok s' → s.step c = some s' := fun s' hs' => by
    rw [StatsEntryRecent.step,hs']
    rfl
  cases c with
  | add val =>
    obtain ⟨s',hs',h'⟩ := h.add val
    exact ⟨s',hstep s' hs',h'⟩
  | advanceBy cSlots | advanceAndSub cSlots =>
    obtain ⟨s',hs',h',-⟩ := h.advanceAndSub cSlots
    exact ⟨s',hstep s' hs',h'⟩
  | clear => exact ⟨s.clear,rfl,h.clear⟩
  | setRecentMax cRecentMax =>
    obtain ⟨s',hs',h'⟩ := h.setRecentMax hok
    exact ⟨s',hstep s' hs',h'⟩

theorem Exact.run (h : s.Exact w) {cs : List (Call T)} (hok : Along step Allowed s cs) :
    ∃ s', run step s cs = some s' ∧ s'.Exact (cs.foldl Window.call w) := by
  induction cs generalizing s w with
  | nil => exact ⟨s,rfl,h⟩
  | cons c cs ih =>
    obtain ⟨s1,hs1,h1⟩ := h.call hok.1
    obtain ⟨s2,hs2,h2⟩ := ih h1 (hok.2 s1 hs1)
    refine ⟨s2,?_,h2⟩
    rw [Lib.run,hs1]
    exact hs2

def windowAfter (cRecentMax : Int) (cs : List (Call T)) : Window T :=
  cs.foldl Window.call (Window.start cRecentMax.toNat)

/-- As long as every change of the size leaves room behind the head, no call fails, and advancing
makes `recent` the sum of the slots of the window. -/
theorem windowed_of_run (cRecentMax : Int) {cs : List (Call T)}
    (hok : Along step Allowed (new cRecentMax) cs) :
    ∃ s, run step (new cRecentMax) cs = some s ∧ s.buf.Refines (windowAfter cRecentMax cs) ∧
      (0 ≤ s.buf.cItems ∧ s.buf.cItems ≤ s.buf.cMax ∧ s.buf.cMax ≤ s.buf.cAlloc ∧
        0 ≤ s.buf.ixHead ∧
        (s.buf.ixHead < s.buf.cMax ∨ s.buf.cMax = 0 ∧ s.buf.ixHead = 0)) ∧
      (∀ cSlots, s.Allowed (.advanceBy cSlots) → ∃ s', s.advanceBy cSlots = .ok s' ∧
        s.advanceAndSub cSlots = .ok s' ∧
        s'.recent = ((windowAfter cRecentMax cs).advance cSlots).slots.sum) ∧
      ∀ cSlots, 0 < cSlots → ∃ s₁ s₂, s.advanceBySum cSlots = .ok s₁ ∧
        s.advanceAndSub cSlots = .ok s₂ ∧ s₁.recent = s₂.recent := by
  obtain ⟨s,hs,h⟩ := (exact_new cRecentMax).run hok
  have hcMax := h.buf.cMax
  refine ⟨s,hs,h.buf,h.buf.bounds,fun cSlots hallowed => ?_,fun cSlots hpos => ?_⟩
  · obtain ⟨s',hs',-,hrec⟩ := h.advanceAndSub cSlots
    exact ⟨s',hs',hs',hrec fun hz => hallowed (by rw [hcMax,hz]; rfl)⟩
  · obtain ⟨s₁,hs₁,hrec1⟩ := h.advanceBySum hpos
    obtain ⟨s₂,hs₂,-,hrec2⟩ := h.advanceAndSub cSlots
    exact ⟨s₁,s₂,hs₁,hs₂,hrec1.trans (hrec2 fun _ hneg => by omega).symm⟩

theorem windowed_of_run_resized :
    ∃ s, run step (new 4) [.add (1 : Int),.advanceBy 1,.add 2,.setRecentMax 8,.advanceAndSub 5,
      .add 3,.setRecentMax 8] = some s ∧
        s.buf.Refines (windowAfter 4 [.add (1 : Int),.advanceBy 1,.add 2,.setRecentMax 8,
          .advanceAndSub 5,.add 3,.setRecentMax 8]) := by
  have hok : Along step Allowed (new 4) [.add (1 : Int),.advanceBy 1,.add 2,.setRecentMax 8,
      .advanceAndSub 5,.add 3,.setRecentMax 8] := by decide
  obtain ⟨s,hs,h,-⟩ := windowed_of_run 4 hok
  exact ⟨s,hs,h⟩

/-- Closing a used window takes a modulus by zero, the size of a full one puts the head outside, a
head on the boundary loses its slot, and what was added without a window stays. -/
theorem windowed_fails :
    (∃ s, run step (new 4) [.add (7 : Int)] = some s ∧
      s.call (.setRecentMax 0) = .error .modZero) ∧
    (∃ s, run step (new 2) [.add (1 : Int),.advanceBy 1,.add 2,.setRecentMax 2] = some s ∧
      s.buf.ixHead = s.buf.cMax ∧ 0 < s.buf.cMax) ∧
    (∃ s s', run step (new 4) [.add (1 : Int),.advanceBy 1,.add 2] = some s ∧
      s.buf.get 0 = .ok 2 ∧ s.call (.setRecentMax 2) = .ok s' ∧
        s'.buf.get 0 = .error .indeterminate) ∧
    ∃ s, run step (new 0) [.add (5 : Int),.setRecentMax 4,.advanceBy 1] = some s ∧
      s.recent = 5 ∧ s.buf.sum = .ok 0 :=
  ⟨⟨_,rfl,rfl⟩,⟨_,rfl,rfl,by decide⟩,⟨_,_,rfl,rfl,rfl,rfl⟩,⟨_,rfl,rfl,rfl⟩⟩

end StatsEntryRecent

end Condor.Utils
