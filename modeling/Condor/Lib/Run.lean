import Mathlib.Data.List.Basic

/-!
# Runs of a partial step function

A step either yields the next state or aborts the program. An invariant that every admissible
step preserves holds at the end of every run whose steps are all admissible.
-/

namespace Condor.Lib

open List Option

variable {σ τ α : Type}

def run (step : σ → α → Option σ) : σ → List α → Option σ
  | s, [] => some s
  | s, a :: as => (step s a).bind fun s' => run step s' as

/-- Every step of the run is admissible in the state in which it is taken. -/
def Along (step : σ → α → Option σ) (ok : σ → α → Prop) : σ → List α → Prop
  | _, [] => True
  | s, a :: as => ok s a ∧ ∀ s', step s a = some s' → Along step ok s' as

variable {step : σ → α → Option σ} {ok : σ → α → Prop}

instance Along.instDecidable [∀ s a, Decidable (ok s a)] :
    ∀ (s : σ) (as : List α), Decidable (Along step ok s as)
  | _, [] => .isTrue trivial
  | s, a :: as =>
    match h : step s a with
    | none => decidable_of_iff (ok s a)
        ⟨fun hok => ⟨hok,fun s' hs' => by rw [h] at hs'; simp at hs'⟩,fun hal => hal.1⟩
    | some t =>
      have : Decidable (Along step ok t as) := instDecidable t as
      decidable_of_iff (ok s a ∧ Along step ok t as)
        ⟨fun hok => ⟨hok.1,fun s' hs' => some.inj (h.symm.trans hs') ▸ hok.2⟩,
          fun hal => ⟨hal.1,hal.2 t h⟩⟩

theorem Along.cons {s t : σ} {a : α} {as : List α} (h : ok s a) (ht : step s a = some t)
    (hs : Along step ok t as) : Along step ok s (a :: as) := by
  refine ⟨h,fun u hu => ?_⟩
  obtain rfl : t = u := some.inj (ht.symm.trans hu)
  exact hs

theorem Along.of_mem {P : α → Prop} {as : List α} (hp : ∀ a ∈ as, P a) (s : σ) :
    Along step (fun _ a => P a) s as := by
  induction as generalizing s with
  | nil => trivial
  | cons a as ih =>
    refine ⟨hp a mem_cons_self,fun t _ => ?_⟩
    exact ih (fun b hb => hp b (mem_cons_of_mem _ hb)) t

theorem Along.and {ok' : σ → α → Prop} {s : σ} {as : List α} (h : Along step ok s as)
    (h' : Along step ok' s as) : Along step (fun s a => ok s a ∧ ok' s a) s as := by
  induction as generalizing s with
  | nil => trivial
  | cons a as ih => exact ⟨⟨h.1,h'.1⟩,fun t ht => ih (h.2 t ht) (h'.2 t ht)⟩

theorem run_cons_eq_some {s s' : σ} {a : α} {as : List α} (h : run step s (a :: as) = some s') :
    ∃ t, step s a = some t ∧ run step t as = some s' := by
  rw [run,bind_eq_some_iff] at h
  exact h

theorem run_append (s : σ) (as bs : List α) :
    run step s (as ++ bs) = (run step s as).bind fun t => run step t bs := by
  induction as generalizing s with
  | nil => rfl
  | cons a as ih =>
    rw [cons_append,run,run]
    cases step s a with
    | none => rfl
    | some t => exact ih t

theorem run_snoc_eq_some {s s' : σ} {a : α} {as : List α} (h : run step s (as ++ [a]) = some s') :
    ∃ t, run step s as = some t ∧ step t a = some s' := by
  rw [run_append,bind_eq_some_iff] at h
  obtain ⟨t,ht,hs⟩ := h
  obtain ⟨u,hu,he⟩ := run_cons_eq_some hs
  exact ⟨t,ht,by rw [hu,he.symm]; rfl⟩

theorem run_take {s s' : σ} {as : List α} (h : run step s as = some s') (k : Nat) :
    ∃ t, run step s (as.take k) = some t := by
  rw [← take_append_drop k as,run_append,bind_eq_some_iff] at h
  obtain ⟨t,ht,-⟩ := h
  exact ⟨t,ht⟩

theorem run_exists (step : σ → α → Option σ) (s : σ) (as : List α) (P : σ → Bool)
    (h : (run step s as).map P = some true) : ∃ t, run step s as = some t ∧ P t = true :=
  Option.map_eq_some_iff.mp h

theorem run_invariant {Inv : σ → Prop}
    (hstep : ∀ s a s', Inv s → ok s a → step s a = some s' → Inv s') {s s' : σ} {as : List α}
    (hok : Along step ok s as) (h0 : Inv s) (hr : run step s as = some s') : Inv s' := by
  induction as generalizing s with
  | nil =>
    obtain rfl := some.inj hr
    exact h0
  | cons a as ih =>
    obtain ⟨t,ht,hr⟩ := run_cons_eq_some hr
    exact ih (hok.2 t ht) (hstep s a t h0 hok.1 ht) hr

/-- Where a step from a good state is admissible exactly if it leads to a good state, a run is
admissible exactly if all its states are good. -/
theorem along_iff_prefixes {Inv P : σ → Prop} (hinv : ∀ s a s', Inv s → step s a = some s' → Inv s')
    (hstep : ∀ s a s', Inv s → P s → step s a = some s' → (P s' ↔ ok s a)) {s s' : σ} {as : List α}
    (hi : Inv s) (hp : P s) (hr : run step s as = some s') :
    Along step ok s as ↔ ∀ k t, run step s (as.take k) = some t → P t := by
  induction as generalizing s with
  | nil =>
    refine ⟨fun _ k t ht => ?_,fun _ => trivial⟩
    rw [take_nil] at ht
    rw [← some.inj ht]
    exact hp
  | cons a as ih =>
    obtain ⟨u,hu,hr⟩ := run_cons_eq_some hr
    have hgood := hstep s a u hi hp hu
    constructor
    · intro hok k t ht
      cases k with
      | zero =>
        rw [← some.inj ht]
        exact hp
      | succ k =>
        rw [take_succ_cons,run,hu] at ht
        exact (ih (hinv s a u hi hu) (hgood.mpr hok.1) hr).mp (hok.2 u hu) k t ht
    · intro hall
      have hpu : P u := by
        refine hall 1 u ?_
        rw [take_succ_cons,run,hu]
        rfl
      refine .cons (hgood.mp hpu) hu ((ih (hinv s a u hi hu) hpu hr).mpr fun k t ht => ?_)
      refine hall (k + 1) t ?_
      rw [take_succ_cons,run,hu]
      exact ht

theorem run_total (Inv : σ → Prop)
    (hstep : ∀ s a, Inv s → ok s a → ∃ s', step s a = some s' ∧ Inv s') {s : σ} {as : List α}
    (hok : Along step ok s as) (h0 : Inv s) : ∃ s', run step s as = some s' ∧ Inv s' := by
  induction as generalizing s with
  | nil => exact ⟨s,rfl,h0⟩
  | cons a as ih =>
    obtain ⟨t,ht,hinv⟩ := hstep s a h0 hok.1
    rw [run,ht]
    exact ih (hok.2 t ht) hinv

theorem run_total_mem (Inv : σ → Prop) {as : List α}
    (hstep : ∀ s, ∀ a ∈ as, Inv s → ∃ s', step s a = some s' ∧ Inv s') {s : σ} (h0 : Inv s) :
    ∃ s', run step s as = some s' ∧ Inv s' := by
  induction as generalizing s with
  | nil => exact ⟨s,rfl,h0⟩
  | cons a as ih =>
    obtain ⟨t,ht,hinv⟩ := hstep s a mem_cons_self h0
    rw [run,ht]
    exact ih (fun s' a' ha' => hstep s' a' (mem_cons_of_mem _ ha')) hinv

theorem run_preserves {Inv : σ → Prop} (hstep : ∀ s a s', Inv s → step s a = some s' → Inv s')
    {s s' : σ} {as : List α} (h0 : Inv s) (hr : run step s as = some s') : Inv s' := by
  induction as generalizing s with
  | nil =>
    obtain rfl := some.inj hr
    exact h0
  | cons a as ih =>
    obtain ⟨t,ht,hr⟩ := run_cons_eq_some hr
    exact ih (hstep s a t h0 ht) hr

theorem run_simulates {step' : τ → α → Option τ} {R : σ → τ → Prop}
    (hstep : ∀ s t a s', R s t → step s a = some s' → ∃ t', step' t a = some t' ∧ R s' t')
    {s s' : σ} {t : τ} {as : List α} (h0 : R s t) (hr : run step s as = some s') :
    ∃ t', run step' t as = some t' ∧ R s' t' := by
  induction as generalizing s t with
  | nil =>
    obtain rfl := some.inj hr
    exact ⟨t,rfl,h0⟩
  | cons a as ih =>
    obtain ⟨u,hu,hr⟩ := run_cons_eq_some hr
    obtain ⟨v,hv,hR⟩ := hstep s t a u h0 hu
    obtain ⟨t',ht',hR'⟩ := ih hR hr
    exact ⟨t',by rw [run,hv]; exact ht',hR'⟩

end Condor.Lib
