import Condor.Negotiator.Postings

/-!
# The accountant with the history of its matches

An observer hears the calls, and writes down each match with its times and whether RemoveMatch has
ever had to stop a count at zero.
-/

namespace Condor.Negotiator

open Condor.Lib Condor.Lib.RecordStore List

inductive Call
  | add (customer : CString) (ad : ResourceAd) (now : Int)
  | remove (resource : CString) (now : Int)
  | update (now : Int) (agingFactor : ℚ)

inductive Event
  | add (customer : CString) (ad : ResourceAd) (now : Int)
  | remove (resource : CString) (now : Int)
  | check (ads : List ResourceAd) (clock : Nat → Int)
  | update (now : Int) (agingFactor : ℚ)

/-- The accountant, its matches so far, and whether a count was clamped. -/
structure Watched where
  acct : Accountant
  history : List Match
  now : Int
  clamped : Bool

def clamps (cfg : Config) (s : Accountant) (resource : CString) : Bool :=
  match getString cfg s.log (.resource resource) .remoteUser with
  | none => false
  | some customer =>
    let usage := Usage.read s.log customer
    let groupUsage := Usage.read s.log (getAssignedGroup cfg.root s.groupMap customer).1
    let slotWeight := (getReal s.log (.resource resource) .slotWeight).getD 1
    decide (¬ 0 < usage.resourcesUsed ∨ usage.weightedResourcesUsed - slotWeight < 0 ∨
      groupUsage.resourcesUsed - 1 < 0 ∨ groupUsage.weightedResourcesUsed - slotWeight < 0)

def reassigns (cfg : Config) (s : Accountant) (customer resource : CString) : Bool :=
  match getString cfg s.log (.resource resource) .remoteUser with
  | none => false
  | some user => customer ≠ user

namespace Watched

variable (cfg : Config)

def call (w : Watched) : Call → Watched
  | .add customer ad now => {
      acct := w.acct.addMatch cfg customer ad now
      history := openMatch w.history customer (getResourceName ad) (getSlotWeight cfg ad) now
      now
      clamped := w.clamped || (reassigns cfg w.acct customer (getResourceName ad) &&
        clamps cfg w.acct (getResourceName ad)) }
  | .remove resource now => {
      acct := w.acct.removeMatch cfg resource now
      history := closeMatch w.history resource now
      now
      clamped := w.clamped || clamps cfg w.acct resource }
  | .update now agingFactor => { w with acct := w.acct.updatePriorities now agingFactor, now }

def checkMatches (w : Watched) (ads : List ResourceAd) (clock : Nat → Int) : Watched :=
  checkMatchesWith cfg (fun w : Watched => w.acct.log) (fun w r t => w.call cfg (.remove r t))
    (fun w c ad t => w.call cfg (.add c ad t)) ads clock w

def handle (w : Watched) : Event → Watched
  | .add customer ad now => w.call cfg (.add customer ad now)
  | .remove resource now => w.call cfg (.remove resource now)
  | .check ads clock => w.checkMatches cfg ads clock
  | .update now agingFactor => w.call cfg (.update now agingFactor)

def step (w : Watched) (e : Event) : Option Watched := some (w.handle cfg e)

def start (lastUpdateTime : Int) : Watched :=
  ⟨Accountant.start cfg lastUpdateTime,[],lastUpdateTime,false⟩

def checkCalls (w : Watched) (ads : List ResourceAd) (clock : Nat → Int) : List Call :=
  (checkMatchesWith cfg (fun x : Watched × List Call => x.1.acct.log)
    (fun x r t => (x.1.call cfg (.remove r t),x.2 ++ [.remove r t]))
    (fun x c ad t => (x.1.call cfg (.add c ad t),x.2 ++ [.add c ad t])) ads clock (w,[])).2

def calls (w : Watched) : Event → List Call
  | .add customer ad now => [.add customer ad now]
  | .remove resource now => [.remove resource now]
  | .check ads clock => w.checkCalls cfg ads clock
  | .update now agingFactor => [.update now agingFactor]

end Watched

section CheckMatches

variable {σ τ : Type} (cfg : Config)

private theorem checkMatchesWith_invariant {P : σ → Prop} {log : σ → AcctLog}
    {remove : σ → CString → Int → σ} {add : σ → CString → ResourceAd → Int → σ}
    (hr : ∀ s r t, P s → P (remove s r t)) (ha : ∀ s c ad t, P s → P (add s c ad t))
    (ads : List ResourceAd) (clock : Nat → Int) {s : σ} (h : P s) :
    P (checkMatchesWith cfg log remove add ads clock s) := by
  rw [checkMatchesWith]
  refine List.foldlRecOn (motive := fun x : σ × Nat => P x.1) ads _ ?_ fun x hx ad _ => ?_
  · refine List.foldlRecOn (motive := fun x : σ × CString × Nat => P x.1) _ _ h
      fun x hx key _ => ?_
    cases key with
    | resource name =>
      rw [removeRound]
      split
      · exact hr _ _ _ hx
      · dsimp only
        split
        · exact hx
        · exact hr _ _ _ hx
    | customer | acct => exact hx
  · rw [addRound]
    split
    · exact ha _ _ _ _ hx
    · exact hx

private theorem checkMatchesWith_map (f : σ → τ) {log : σ → AcctLog} {log' : τ → AcctLog}
    {remove : σ → CString → Int → σ} {remove' : τ → CString → Int → τ}
    {add : σ → CString → ResourceAd → Int → σ} {add' : τ → CString → ResourceAd → Int → τ}
    (hl : ∀ s, log' (f s) = log s) (hr : ∀ s r t, f (remove s r t) = remove' (f s) r t)
    (ha : ∀ s c ad t, f (add s c ad t) = add' (f s) c ad t) (ads : List ResourceAd)
    (clock : Nat → Int) (s : σ) : f (checkMatchesWith cfg log remove add ads clock s) =
      checkMatchesWith cfg log' remove' add' ads clock (f s) := by
  have hremove : ∀ (x : σ × CString × Nat) key,
      removeRound cfg log' remove' ads clock (f x.1,x.2) key =
        (f (removeRound cfg log remove ads clock x key).1,
          (removeRound cfg log remove ads clock x key).2) := by
    intro x key
    cases key with
    | resource name =>
      rw [removeRound,removeRound]
      split
      · rw [hr]
      · dsimp only
        rw [hl]
        split
        · rfl
        · rw [hr]
    | customer | acct => rfl
  have hadd : ∀ (x : σ × Nat) ad, addRound cfg add' clock (f x.1,x.2) ad =
      (f (addRound cfg add clock x ad).1,(addRound cfg add clock x ad).2) := by
    intro x ad
    rw [addRound,addRound]
    split
    · rw [ha]
    · rfl
  rw [checkMatchesWith,checkMatchesWith,hl]
  have h1 : ∀ (keys : List Key) (x : σ × CString × Nat),
      keys.foldl (removeRound cfg log' remove' ads clock) (f x.1,x.2) =
        (f (keys.foldl (removeRound cfg log remove ads clock) x).1,
          (keys.foldl (removeRound cfg log remove ads clock) x).2) :=
    fun _ _ => foldl_hom (fun x : σ × CString × Nat => (f x.1,x.2)) hremove
  rw [h1 _ (s,[],0)]
  exact (congrArg Prod.fst (foldl_hom (fun x : σ × Nat => (f x.1,x.2)) hadd)).symm

end CheckMatches

namespace Watched

variable (cfg : Config)

private theorem checkMatches_eq (w : Watched) (ads : List ResourceAd) (clock : Nat → Int) :
    w.checkMatches cfg ads clock = (w.checkCalls cfg ads clock).foldl (call cfg) w := by
  have hfst : (checkMatchesWith cfg (fun x : Watched × List Call => x.1.acct.log)
      (fun x r t => (x.1.call cfg (.remove r t),x.2 ++ [.remove r t]))
      (fun x c ad t => (x.1.call cfg (.add c ad t),x.2 ++ [.add c ad t])) ads clock (w,[])).1 =
      w.checkMatches cfg ads clock := by
    rw [checkMatches]
    refine checkMatchesWith_map cfg Prod.fst ?_ ?_ ?_ ads clock (w,[])
    · exact fun _ => rfl
    · exact fun _ _ _ => rfl
    · exact fun _ _ _ _ => rfl
  rw [← hfst,checkCalls]
  refine checkMatchesWith_invariant cfg
    (P := fun x : Watched × List Call => x.1 = x.2.foldl (call cfg) w) (fun x r t hx => ?_)
    (fun x c ad t hx => ?_) ads clock rfl
  · rw [foldl_append,← hx]
    rfl
  · rw [foldl_append,← hx]
    rfl

private theorem handle_eq (w : Watched) (e : Event) :
    w.handle cfg e = (w.calls cfg e).foldl (call cfg) w := by
  cases e with
  | add | remove | update => rfl
  | check ads clock => exact checkMatches_eq cfg w ads clock

/-- Every call that an event makes meets the condition. -/
def Admits (ok : Watched → Call → Prop) (w : Watched) (es : List Event) : Prop :=
  Along (step cfg) (fun w e => Along (fun w c => some (w.call cfg c)) ok w (w.calls cfg e)) w es

instance (ok : Watched → Call → Prop) [∀ w c, Decidable (ok w c)] (w : Watched) (es : List Event) :
    Decidable (Admits cfg ok w es) :=
  inferInstanceAs (Decidable (Along (step cfg) (fun w e =>
    Along (fun w c => some (w.call cfg c)) ok w (w.calls cfg e)) w es))

theorem run_call_invariant {ok : Watched → Call → Prop} {Inv : Watched → Prop}
    (hcall : ∀ w c, Inv w → ok w c → Inv (w.call cfg c)) {w w' : Watched} {es : List Event}
    (hok : Admits cfg ok w es) (h0 : Inv w) (hr : run (step cfg) w es = some w') : Inv w' := by
  have hsteps : ∀ (w : Watched) (cs : List Call),
      run (fun w c => some (w.call cfg c)) w cs = some (cs.foldl (call cfg) w) := by
    intro w cs
    induction cs generalizing w with
    | nil => rfl
    | cons c cs ih =>
      rw [run,foldl_cons]
      exact ih (w.call cfg c)
  refine run_invariant (fun w e w' hw hcalls hw' => ?_) hok h0 hr
  obtain rfl := Option.some.inj hw'
  rw [handle_eq]
  refine run_invariant (fun w c w' hw hc hw' => ?_) hcalls hw (hsteps w (w.calls cfg e))
  obtain rfl := Option.some.inj hw'
  exact hcall w c hw hc

end Watched

end Condor.Negotiator
