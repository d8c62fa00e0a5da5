import Condor.Lib.Watch
import Mathlib.Data.Sum.Basic

/-!
# Two runs

Two machines answer alike on every sequence of calls if a relation between their states is kept by
every call and related states answer alike.
-/

namespace Condor.Lib

section Machines

variable {σ τ α ρ : Type}

/-- The last state of a run and its answers. -/
def answers (step : σ → α → σ × ρ) : σ → List α → σ × List ρ
  | s, [] => (s,[])
  | s, a :: as =>
    let (s',answer) := step s a
    let (s'',rest) := answers step s' as
    (s'',answer :: rest)

theorem answers_simulates {step : σ → α → σ × ρ} {step' : τ → α → τ × ρ} {R : σ → τ → Prop}
    (hstep : ∀ s t a, R s t → R (step s a).1 (step' t a).1 ∧ (step s a).2 = (step' t a).2)
    {s : σ} {t : τ} (h : R s t) (as : List α) :
    R (answers step s as).1 (answers step' t as).1 ∧
      (answers step s as).2 = (answers step' t as).2 := by
  induction as generalizing s t with
  | nil => exact ⟨h,rfl⟩
  | cons a as ih =>
    obtain ⟨hrel,hsame⟩ := hstep s t a h
    obtain ⟨hend,hrest⟩ := ih hrel
    exact ⟨hend,congrArg₂ List.cons hsame hrest⟩

theorem answers_forall {step : σ → α → σ × ρ} {P : ρ → Prop} (hstep : ∀ s a, P (step s a).2)
    (s : σ) (as : List α) : ∀ r ∈ (answers step s as).2, P r := by
  induction as generalizing s with
  | nil => simp [answers]
  | cons a as ih => exact List.forall_mem_cons.mpr ⟨hstep s a,ih _⟩

end Machines

section Partial

variable {α β γ δ : Type} {R : α → β → Prop} {Q : γ → δ → Prop}

theorem rel_bind {x : Option α} {y : Option β} {f : α → Option γ} {g : β → Option δ}
    (h : Option.Rel R x y) (hf : ∀ a b, R a b → Option.Rel Q (f a) (g b)) :
    Option.Rel Q (x >>= f) (y >>= g) := by
  cases h with
  | none => exact .none
  | some h => exact hf _ _ h

theorem rel_map {x : Option α} {y : Option β} {f : α → γ} {g : β → δ}
    (h : Option.Rel R x y) (hf : ∀ a b, R a b → Q (f a) (g b)) :
    Option.Rel Q (x.map f) (y.map g) := by
  cases h with
  | none => exact .none
  | some h => exact .some (hf _ _ h)

theorem map_eq_of_rel {x : Option α} {y : Option β} {f : α → γ} {g : β → γ}
    (h : Option.Rel R x y) (hf : ∀ a b, R a b → f a = g b) : x.map f = y.map g := by
  cases h with
  | none => rfl
  | some h => exact congrArg some (hf _ _ h)

end Partial

namespace Watch

variable {σ α α' β β' γ γ' : Type} {R : α → α' → Prop} {Q : β → β' → Prop}

/-- Both fail, or their values are related. -/
def Alike (x : Watch σ α) (y : Watch σ α') (R : α → α' → Prop) : Prop :=
  Option.Rel R x.value y.value

theorem Alike.pure {a : α} {a' : α'} (h : R a a') :
    Alike (pure a : Watch σ α) (pure a' : Watch σ α') R :=
  .some h

theorem Alike.exhausted : Alike (exhausted : Watch σ α) (exhausted : Watch σ α') R := .none

theorem Alike.call {f : σ → Option α} {g : σ → Option α'} {s s' : σ}
    (h : Option.Rel R (f s) (g s')) : Alike (call f s) (call g s') R :=
  h

theorem Alike.bind {x : Watch σ α} {y : Watch σ α'} {f : α → Watch σ β} {g : α' → Watch σ β'}
    (h : Alike x y R) (hf : ∀ a a', R a a' → Alike (f a) (g a') Q) :
    Alike (x >>= f) (y >>= g) Q := by
  obtain ⟨xv,xs⟩ := x
  obtain ⟨yv,ys⟩ := y
  cases h with
  | none => exact .none
  | some h => exact hf _ _ h

theorem Alike.map {x : Watch σ α} {y : Watch σ α'} {f : α → β} {g : α' → β'}
    (h : Alike x y R) (hf : ∀ a a', R a a' → Q (f a) (g a')) : Alike (f <$> x) (g <$> y) Q :=
  Alike.bind h fun a a' ha => Alike.pure (hf a a' ha)

theorem Alike.loop {round : β → Watch σ (β ⊕ γ)} {round' : β' → Watch σ (β' ⊕ γ')}
    {P : γ → γ' → Prop} (h : ∀ b b', Q b b' → Alike (round b) (round' b') (Sum.LiftRel Q P)) :
    ∀ (n : Nat) (b : β) (b' : β'), Q b b' → Alike (Watch.loop round n b)
    (Watch.loop round' n b') P := by
  intro n
  induction n with
  | zero => intro b b' _; exact .exhausted
  | succ n ih =>
    intro b b' hb
    apply Alike.bind (h b b' hb)
    rintro _ _ (hr | hr)
    · exact ih _ _ hr
    · exact Alike.pure hr

end Watch

end Condor.Lib
