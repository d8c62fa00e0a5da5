import Mathlib.Tactic.FieldSimp
import Condor.Negotiator.ResourceCounts

/-!
# Usage is charged for the time matches are held

At an update a customer is charged the number of its resources times the time that has passed, plus
what stands under its uncharged time.
-/

namespace Condor.Negotiator

open Condor.Lib Condor.Lib.RecordStore Option

namespace Match

variable (cfg : Config) (x : CString) (m : Match)

def heldUntil (time : Int) : Int := min (m.stop.getD time) time - m.start

def share (time : Int) : ℚ :=
  if m.Concerns cfg x then ((m.stop.getD time - m.start : Int) : ℚ) else 0

def weightedShare (time : Int) : ℚ :=
  if m.Concerns cfg x then ((m.stop.getD time - m.start : Int) : ℚ) * m.weight else 0

end Match

structure Charged (cfg : Config) (w : Watched) : Prop extends Registered cfg w where
  clock : w.acct.lastUpdateTime ≤ w.now
  begun : ∀ m ∈ w.history, m.start ≤ w.now
  ended : ∀ m ∈ w.history, ∀ e, m.stop = some e → m.start ≤ e ∧ e ≤ w.now
  balance : ∀ x, accumulatedUsage w.acct.log x + (Usage.read w.acct.log x).unchargedTime =
    total w.history fun m => m.share cfg x w.acct.lastUpdateTime
  weightedBalance : ∀ x, weightedAccumulatedUsage w.acct.log x +
      (Usage.read w.acct.log x).weightedUnchargedTime =
    total w.history fun m => m.weightedShare cfg x w.acct.lastUpdateTime
  rest : w.now = w.acct.lastUpdateTime → ∀ x, (Usage.read w.acct.log x).unchargedTime = 0 ∧
    (Usage.read w.acct.log x).weightedUnchargedTime = 0

/-- The clock does not go back, names can be read back, and only matches that began before the
last update are taken away. -/
def Prompt (cfg : Config) (w : Watched) : Call → Prop
  | .add customer ad now => w.now ≤ now ∧ cfg.stringValue customer = some customer ∧
      ∀ m ∈ w.history, m.Holds (getResourceName ad) → m.customer ≠ customer →
        m.start ≤ w.acct.lastUpdateTime
  | .remove r now => w.now ≤ now ∧
      ∀ m ∈ w.history, m.Holds r → m.start ≤ w.acct.lastUpdateTime
  | .update now _ => w.now ≤ now

instance (cfg : Config) (w : Watched) (c : Call) : Decidable (Prompt cfg w c) :=
  match c with
  | .add _ _ _ => inferInstanceAs (Decidable (_ ∧ _ ∧ ∀ m ∈ w.history, _))
  | .remove _ _ => inferInstanceAs (Decidable (_ ∧ ∀ m ∈ w.history, _))
  | .update _ _ => inferInstanceAs (Decidable (_ ≤ _))

/-- The customer that holds a resource, and that customer's group. -/
def holders (cfg : Config) (s : Accountant) (resource : CString) : List CString :=
  match getString cfg s.log (.resource resource) .remoteUser with
  | none => []
  | some user => [user,(getAssignedGroup cfg.root s.groupMap user).1]

def customers (l : AcctLog) : List CString :=
  l.table.filterMap fun e => match e.1 with
    | .customer name => some name
    | _ => none

/-- The values that a call computes as an `int`. -/
def Watched.ints (cfg : Config) (w : Watched) : Call → List Int
  | .add customer ad now =>
    let elapsed := now - w.acct.lastUpdateTime
    now :: ((holders cfg w.acct (getResourceName ad)).map fun x =>
      (Usage.read w.acct.log x).unchargedTime + elapsed) ++
    [customer,(getAssignedGroup cfg.root w.acct.groupMap customer).1].flatMap fun x =>
      [(Usage.read w.acct.log x).resourcesUsed + 1,(Usage.read w.acct.log x).unchargedTime -
        elapsed]
  | .remove resource now => (holders cfg w.acct resource).map fun x =>
      (Usage.read w.acct.log x).unchargedTime + (now - w.acct.lastUpdateTime)
  | .update now _ =>
    let timePassed := now - w.acct.lastUpdateTime
    now :: timePassed :: (customers w.acct.log).flatMap fun x =>
      let charge := (Usage.read w.acct.log x).resourcesUsed * timePassed
      [charge,charge + (Usage.read w.acct.log x).unchargedTime]

/-- The calls that charge exactly: prompt ones in which no `int` overflows. -/
def Charges (cfg : Config) (w : Watched) (c : Call) : Prop :=
  Prompt cfg w c ∧ ∀ n ∈ w.ints cfg c, IsInt n

instance (cfg : Config) (w : Watched) (c : Call) : Decidable (Charges cfg w c) :=
  inferInstanceAs (Decidable (_ ∧ ∀ n ∈ w.ints cfg c, IsInt n))

variable {cfg : Config}

private theorem Booked.accumulatedUsage_eq {s s' : Accountant} {m : Match} {f : Usage → Usage}
    (h : Booked cfg s s' m f) (x : CString) :
    accumulatedUsage s'.log x = accumulatedUsage s.log x ∧
      weightedAccumulatedUsage s'.log x = weightedAccumulatedUsage s.log x := by
  rw [accumulatedUsage,accumulatedUsage,weightedAccumulatedUsage,weightedAccumulatedUsage,
    h.accumulated,h.weightedAccumulated]
  exact ⟨rfl,rfl⟩

namespace Charged

variable {w : Watched} (h : Charged cfg w)

include h

variable {now : Int}

theorem later (hnow : w.now ≤ now) : Charged cfg { w with now } where
  toRegistered := { h.toRegistered with }
  clock := h.clock.trans hnow
  begun m hm := (h.begun m hm).trans hnow
  ended m hm e he := ⟨(h.ended m hm e he).1,(h.ended m hm e he).2.trans hnow⟩
  balance := h.balance
  weightedBalance := h.weightedBalance
  rest heq := h.rest (le_antisymm (hnow.trans_eq heq) h.clock)

theorem remove {r : CString} (hnow : w.now ≤ now)
    (hprompt : ∀ m ∈ w.history, m.Holds r → m.start ≤ w.acct.lastUpdateTime) :
    Charged cfg (w.call cfg (.remove r now)) := by
  have hreg := h.toRegistered.remove r now
  by_cases hm : ∃ m ∈ w.history, m.Holds r
  · obtain ⟨m,hm,hr⟩ := hm
    obtain ⟨-,hb⟩ := h.removeMatch hm hr now
    have hstart := hprompt m hm hr
    have helapsed : (now - if m.start < w.acct.lastUpdateTime then w.acct.lastUpdateTime
        else m.start) = now - w.acct.lastUpdateTime := by
      split <;> omega
    rw [helapsed] at hb
    have hL : (w.call cfg (.remove r now)).acct.lastUpdateTime = w.acct.lastUpdateTime := hb.time
    have htime := h.clock
    refine ⟨hreg,?_,?_,?_,fun x => ?_,fun x => ?_,fun heq x => ?_⟩
    · rw [hL]
      exact h.clock.trans hnow
    · intro m' hm'
      obtain ⟨m0,hm₀,rfl⟩ := mem_closeMatch hm'
      rw [close_start]
      exact (h.begun m0 hm₀).trans hnow
    · intro m' hm' e he
      obtain ⟨m0,hm₀,rfl⟩ := mem_closeMatch hm'
      rw [close_start]
      rw [Match.close] at he
      split at he
      · obtain rfl := some.inj he
        exact ⟨(h.begun m0 hm₀).trans hnow,le_refl _⟩
      · exact ⟨(h.ended m0 hm₀ e he).1,(h.ended m0 hm₀ e he).2.trans hnow⟩
    · rw [hL]
      show accumulatedUsage (w.acct.removeMatch cfg r now).log x +
        ((Usage.read (w.acct.removeMatch cfg r now).log x).unchargedTime : ℚ) =
        total (closeMatch w.history r now) _
      rw [(hb.accumulatedUsage_eq x).1,hb.changed,total_close h.oneHolder hm hr,← h.balance]
      by_cases hx : m.Concerns cfg x
      · have hx' : ({ m with stop := some now } : Match).Concerns cfg x := hx
        rw [if_pos hx,Match.share,Match.share,if_pos hx,if_pos hx',hr.2]
        simp only [Usage.less,getD_none,getD_some]
        push_cast
        ring
      · have hx' : ¬ ({ m with stop := some now } : Match).Concerns cfg x := hx
        rw [if_neg hx,Match.share,Match.share,if_neg hx,if_neg hx']
        ring
    · rw [hL]
      show weightedAccumulatedUsage (w.acct.removeMatch cfg r now).log x +
        (Usage.read (w.acct.removeMatch cfg r now).log x).weightedUnchargedTime =
        total (closeMatch w.history r now) _
      rw [(hb.accumulatedUsage_eq x).2,hb.changed,total_close h.oneHolder hm hr,
        ← h.weightedBalance]
      by_cases hx : m.Concerns cfg x
      · have hx' : ({ m with stop := some now } : Match).Concerns cfg x := hx
        rw [if_pos hx,Match.weightedShare,Match.weightedShare,if_pos hx,if_pos hx',hr.2]
        simp only [Usage.less,getD_none,getD_some]
        push_cast
        ring
      · have hx' : ¬ ({ m with stop := some now } : Match).Concerns cfg x := hx
        rw [if_neg hx,Match.weightedShare,Match.weightedShare,if_neg hx,if_neg hx']
        ring
    · rw [hL] at heq
      have heq' : now = w.acct.lastUpdateTime := heq
      have hrest := h.rest (by omega) x
      show (Usage.read (w.acct.removeMatch cfg r now).log x).unchargedTime = 0 ∧
        (Usage.read (w.acct.removeMatch cfg r now).log x).weightedUnchargedTime = 0
      rw [hb.changed,heq']
      split
      · simp [Usage.less,hrest.1,hrest.2]
      · exact hrest
  · have hfree : ∀ m ∈ w.history, ¬ m.Holds r := fun m hm' hr => hm ⟨m,hm',hr⟩
    have hlater := h.later hnow
    rw [Watched.call,h.removeMatch_free hfree,closeMatch_of_free hfree,h.not_clamps_free hfree,
      Bool.or_false]
    exact hlater

theorem addNew {customer : CString} (hback : cfg.stringValue customer = some customer)
    {ad : ResourceAd} (hfree : ∀ m ∈ w.history, ¬ m.Holds (getResourceName ad))
    (hnow : w.now ≤ now) : Charged cfg { w with
      acct := w.acct.addNewMatch cfg customer ad now
      history := w.history ++ [newMatch cfg customer ad now]
      now } := by
  have hreg := h.toRegistered.addNew hback hfree now now
  obtain ⟨-,hb⟩ := addNewMatch_booked h.settled h.remembers customer ad now
  have hL := hb.time
  have hclock := h.clock
  refine ⟨hreg,?_,?_,?_,fun x => ?_,fun x => ?_,fun heq x => ?_⟩
  · rw [hL]
    exact h.clock.trans hnow
  · intro m hm
    rcases List.mem_append.mp hm with hm | hm
    · exact (h.begun m hm).trans hnow
    · obtain rfl := List.mem_singleton.mp hm
      exact le_refl _
  · intro m hm e he
    rcases List.mem_append.mp hm with hm | hm
    · exact ⟨(h.ended m hm e he).1,(h.ended m hm e he).2.trans hnow⟩
    · obtain rfl := List.mem_singleton.mp hm
      cases he
  · rw [hL,(hb.accumulatedUsage_eq x).1,hb.changed,total_append,total_singleton,← h.balance]
    by_cases hx : (newMatch cfg customer ad now).Concerns cfg x
    · rw [if_pos hx,Match.share,if_pos hx]
      simp only [Usage.added,newMatch,getD_none]
      push_cast
      ring
    · rw [if_neg hx,Match.share,if_neg hx]
      ring
  · rw [hL,(hb.accumulatedUsage_eq x).2,hb.changed,total_append,total_singleton,
      ← h.weightedBalance]
    by_cases hx : (newMatch cfg customer ad now).Concerns cfg x
    · rw [if_pos hx,Match.weightedShare,if_pos hx]
      simp only [Usage.added,newMatch,getD_none]
      push_cast
      ring
    · rw [if_neg hx,Match.weightedShare,if_neg hx]
      ring
  · rw [hL] at heq
    have heq' : now = w.acct.lastUpdateTime := heq
    have hrest := h.rest (by omega) x
    rw [hb.changed,heq']
    split
    · simp [Usage.added,hrest.1,hrest.2]
    · exact hrest

theorem add {customer : CString} {ad : ResourceAd} (hok : Prompt cfg w (.add customer ad now)) :
    Charged cfg (w.call cfg (.add customer ad now)) := by
  obtain ⟨hnow,hback,hprompt⟩ := hok
  rcases h.add_cases customer ad now with heq | ⟨hfree,heq⟩ | ⟨⟨m,hm,hr,hc⟩,heq⟩
  · rw [heq]
    exact h.later hnow
  · rw [heq]
    exact h.addNew hback hfree hnow
  · rw [heq]
    have hremoved : Charged cfg (w.call cfg (.remove (getResourceName ad) now)) := by
      refine h.remove hnow fun m' hm' hr' => hprompt m' hm' hr' ?_
      have huser := h.getString_user hm hr
      rw [h.getString_user hm' hr'] at huser
      rw [some.inj huser]
      exact hc
    exact hremoved.addNew hback (free_closeMatch _ _ _) (le_refl _)

end Charged

private theorem total_grow (ms : List Match) {f g n : Match → ℚ} {c : ℚ}
    (h : ∀ m ∈ ms, f m = g m + n m * c) : total ms f = total ms g + total ms n * c := by
  induction ms with
  | nil => simp [total]
  | cons m ms ih =>
    rw [total_cons,total_cons,total_cons,ih fun m hm => h m (List.mem_cons_of_mem _ hm),
      h m List.mem_cons_self]
    ring

private theorem cast_total (ms : List Match) (f : Match → Int) :
    ((total ms f : Int) : ℚ) = total ms fun m => (f m : ℚ) := by
  induction ms with
  | nil => simp [total]
  | cons m ms ih =>
    rw [total_cons,total_cons,← ih]
    push_cast
    rfl

private theorem Match.share_update (x : CString) (m : Match) (time now : Int) :
    m.share cfg x now = m.share cfg x time + (m.held cfg x : ℚ) * (now - time : Int) := by
  rw [Match.share,Match.share,Match.held]
  by_cases hx : m.Concerns cfg x
  · cases hs : m.stop with
    | none =>
      simp only [hx,if_true,getD_none,and_self]
      push_cast
      ring
    | some e => simp [hx]
  · simp [hx]

private theorem Match.weightedShare_update (x : CString) (m : Match) (time now : Int) :
    m.weightedShare cfg x now =
      m.weightedShare cfg x time + m.heldWeight cfg x * (now - time : Int) := by
  rw [Match.weightedShare,Match.weightedShare,Match.heldWeight]
  by_cases hx : m.Concerns cfg x
  · cases hs : m.stop with
    | none =>
      simp only [hx,if_true,getD_none,and_self]
      push_cast
      ring
    | some e => simp [hx]
  · simp [hx]

namespace Charged

variable {w : Watched} (h : Charged cfg w)

include h

private theorem share_update (x : CString) (now : Int) :
    (total w.history fun m => m.share cfg x now) = accumulatedUsage w.acct.log x +
      ((Usage.read w.acct.log x).resourcesUsed * (now - w.acct.lastUpdateTime : Int) +
        (Usage.read w.acct.log x).unchargedTime) := by
  rw [total_grow w.history fun m _ => m.share_update x w.acct.lastUpdateTime now,← h.balance,
    h.used,cast_total]
  ring

private theorem weightedShare_update (x : CString) (now : Int) :
    (total w.history fun m => m.weightedShare cfg x now) = weightedAccumulatedUsage w.acct.log x +
      ((Usage.read w.acct.log x).weightedResourcesUsed * (now - w.acct.lastUpdateTime : Int) +
        (Usage.read w.acct.log x).weightedUnchargedTime) := by
  rw [total_grow w.history fun m _ => m.weightedShare_update x w.acct.lastUpdateTime now,
    ← h.weightedBalance,h.weightedUsed]
  ring

theorem held_nonneg {now : Int} (hnow : w.now ≤ now) {m : Match} (hm : m ∈ w.history) :
    0 ≤ m.stop.getD now - m.start := by
  cases hs : m.stop with
  | none =>
    have := h.begun m hm
    rw [getD_none]
    omega
  | some e =>
    have := (h.ended m hm e hs).1
    rw [getD_some]
    omega

theorem update {now : Int} (hnow : w.now ≤ now) (agingFactor : ℚ) :
    Charged cfg (w.call cfg (.update now agingFactor)) := by
  have hreg := h.toRegistered.update now agingFactor
  have hclock := h.clock
  rcases Int.lt_or_eq_of_le (h.clock.trans hnow) with hlt | heq
  · have hu := updates_updatePriorities h.settled h.paired hlt agingFactor
    have hL : (w.call cfg (.update now agingFactor)).acct.lastUpdateTime = now := hu.time
    refine ⟨hreg,hL.le,fun m hm => (h.begun m hm).trans hnow,fun m hm e he =>
      ⟨(h.ended m hm e he).1,(h.ended m hm e he).2.trans hnow⟩,fun x => ?_,fun x => ?_,
      fun _ x => ⟨(hu.billed x).uncharged,(hu.billed x).weightedUncharged⟩⟩
    · rw [hL]
      show accumulatedUsage (w.acct.updatePriorities now agingFactor).log x +
        ((Usage.read (w.acct.updatePriorities now agingFactor).log x).unchargedTime : ℚ) =
        total w.history fun m => m.share cfg x now
      rw [(hu.billed x).uncharged,(hu.billed x).accumulated,h.share_update x now]
      push_cast
      ring
    · rw [hL]
      show weightedAccumulatedUsage (w.acct.updatePriorities now agingFactor).log x +
        (Usage.read (w.acct.updatePriorities now agingFactor).log x).weightedUnchargedTime =
        total w.history fun m => m.weightedShare cfg x now
      rw [(hu.billed x).weightedUncharged,add_zero]
      rcases (hu.billed x).weighted with ⟨-,hw⟩ | ⟨-,hacc,-,hw⟩
      · rw [hw,h.weightedShare_update x now]
      · -- the record was dropped: its matches have taken no time
        have hzero : (total w.history fun m => m.share cfg x now) = 0 := by
          rw [h.share_update x now,← (hu.billed x).accumulated]
          exact hacc
        rw [hw]
        refine (total_eq_zero (fun m hm => ?_) hzero fun m hm hm0 => ?_).symm
        · rw [Match.share]
          split
          · exact_mod_cast h.held_nonneg hnow hm
          · exact le_refl _
        · rw [Match.share] at hm0
          rw [Match.weightedShare]
          split at hm0
          · next hx => rw [if_pos hx,hm0,zero_mul]
          · next hx => rw [if_neg hx]
  · have hsame : w.acct.updatePriorities now agingFactor = w.acct := by
      rw [Accountant.updatePriorities]
      have h1 : now - w.acct.lastUpdateTime = 0 := by omega
      simp only [h1,if_true]
    have hlater := h.later hnow
    rw [Watched.call,hsame]
    exact hlater

theorem call (c : Call) (hok : Prompt cfg w c) : Charged cfg (w.call cfg c) := by
  cases c with
  | add customer ad now => exact h.add hok
  | remove r now => exact h.remove hok.1 hok.2
  | update now agingFactor => exact h.update hok agingFactor

end Charged

private theorem charged_start (cfg : Config) (lastUpdateTime : Int) :
    Charged cfg (Watched.start cfg lastUpdateTime) where
  toRegistered := registered_start cfg lastUpdateTime
  clock := le_refl _
  begun m hm := by cases hm
  ended m hm := by cases hm
  balance _ := add_zero 0
  weightedBalance _ := add_zero 0
  rest _ _ := ⟨rfl,rfl⟩

def timeHeld (ms : List Match) (p : Match → Bool) (time : Int) : ℚ :=
  ((ms.filter p).map fun m => (m.heldUntil time : ℚ)).sum

def weightedTimeHeld (ms : List Match) (p : Match → Bool) (time : Int) : ℚ :=
  ((ms.filter p).map fun m => (m.heldUntil time : ℚ) * m.weight).sum

/-- What is charged is the time held, to each customer and to each group. -/
structure ChargedExactly (cfg : Config) (w : Watched) (time : Int) : Prop where
  customers : ∀ x, x ∉ cfg.root.values →
    accumulatedUsage w.acct.log x = timeHeld w.history (fun m => m.customer = x) time ∧
      weightedAccumulatedUsage w.acct.log x =
        weightedTimeHeld w.history (fun m => m.customer = x) time
  groups : ∀ g ∈ cfg.root.values,
    accumulatedUsage w.acct.log g =
        timeHeld w.history (fun m => assignedGroup cfg.root m.customer = g) time ∧
      weightedAccumulatedUsage w.acct.log g =
        weightedTimeHeld w.history (fun m => assignedGroup cfg.root m.customer = g) time

private theorem updatePriorities_time (s : Accountant) (now : Int) (agingFactor : ℚ) :
    (s.updatePriorities now agingFactor).lastUpdateTime = now := by
  rw [Accountant.updatePriorities]
  dsimp only
  split
  · omega
  · split <;> rfl

private theorem Charged.exactly {w : Watched} (h : Charged cfg w)
    (htime : w.acct.lastUpdateTime = w.now) {x : CString} {p : Match → Bool}
    (hp : ∀ m ∈ w.history, p m = true ↔ m.Concerns cfg x) :
    accumulatedUsage w.acct.log x = timeHeld w.history p w.now ∧
      weightedAccumulatedUsage w.acct.log x = weightedTimeHeld w.history p w.now := by
  obtain ⟨hu,hwu⟩ := h.rest htime.symm x
  have hheld : ∀ m ∈ w.history, m.heldUntil w.now = m.stop.getD w.now - m.start := by
    intro m hm
    rw [Match.heldUntil]
    cases hs : m.stop with
    | none => rw [getD_none,min_self]
    | some e => rw [getD_some,min_eq_left (h.ended m hm e hs).2]
  constructor
  · have hb := h.balance x
    rw [hu,Int.cast_zero,add_zero,htime] at hb
    rw [hb,timeHeld,sum_filter]
    refine total_congr fun m hm => ?_
    rw [Match.share,hheld m hm]
    simp only [hp m hm]
  · have hb := h.weightedBalance x
    rw [hwu,add_zero,htime] at hb
    rw [hb,weightedTimeHeld,sum_filter]
    refine total_congr fun m hm => ?_
    rw [Match.weightedShare,hheld m hm]
    simp only [hp m hm]

/-- Right after an update in a run without overflows the usages are the times held, if no match that
is taken away began after the update before. -/
theorem chargedExactly_of_run {cfg : Config} (hd : DistinctGroups cfg.root) {lastUpdateTime : Int}
    {es : List Event} {time : Int} {agingFactor : ℚ} {w : Watched}
    (hok : Watched.Admits cfg (Charges cfg) (Watched.start cfg lastUpdateTime)
      (es ++ [.update time agingFactor]))
    (hr : run (Watched.step cfg) (Watched.start cfg lastUpdateTime)
      (es ++ [.update time agingFactor]) = some w) : ChargedExactly cfg w time := by
  have h : Charged cfg w := Watched.run_call_invariant cfg (fun w c hw hc => hw.call c hc.1) hok
    (charged_start cfg lastUpdateTime) hr
  obtain ⟨v,-,hv⟩ := run_snoc_eq_some hr
  obtain rfl := some.inj hv
  have htime := updatePriorities_time v.acct time agingFactor
  refine ⟨fun x hx => h.exactly htime fun m _ => ?_,fun g hg => h.exactly htime fun m _ => ?_⟩
  · rw [decide_eq_true_eq,Match.Concerns]
    refine ⟨.inl,fun hc => hc.resolve_right fun hgroup => hx ?_⟩
    rw [← hgroup]
    exact assignedGroup_mem cfg.root m.customer
  · rw [decide_eq_true_eq,Match.Concerns]
    refine ⟨.inr,fun hc => ?_⟩
    rcases hc with rfl | hc
    · exact assignedGroup_group hd hg
    · exact hc

def promptEvents : List Event :=
  [.add (cstr "physics.bob@home") (slotAd (cstr "s1") none none) 10,.update 20 (1 / 2),
    .remove (cstr "s1@") 25]

theorem chargedExactly_of_run_prompt : ∃ w, run (Watched.step twoGroups)
    (Watched.start twoGroups 0) (promptEvents ++ [.update 40 (1 / 2)]) = some w ∧
      ChargedExactly twoGroups w 40 ∧
      accumulatedUsage w.acct.log (cstr "physics.bob@home") = 15 := by
  have hok : Watched.Admits twoGroups (Charges twoGroups) (Watched.start twoGroups 0)
      (promptEvents ++ [.update 40 (1 / 2)]) := by decide +kernel
  exact ⟨_,rfl,chargedExactly_of_run (by decide +kernel) hok rfl,by decide +kernel⟩

/-- A match that begins and ends between two updates is charged too little, here a negative
time. -/
theorem chargedExactly_fails_between : ∃ w, run (Watched.step twoGroups)
    (Watched.start twoGroups 0) [.add (cstr "ann@home") (slotAd (cstr "s1") none none) 10,
      .remove (cstr "s1@") 15,.update 20 (1 / 2)] = some w ∧
      accumulatedUsage w.acct.log (cstr "ann@home") = -5 ∧
      timeHeld w.history (fun m => m.customer = cstr "ann@home") 20 = 5 ∧
      ¬ ChargedExactly twoGroups w 20 := by
  refine ⟨_,rfl,by decide +kernel,by decide +kernel,fun h => ?_⟩
  have hcharge := (h.customers (cstr "ann@home") (by decide)).1
  revert hcharge
  decide +kernel

end Condor.Negotiator
