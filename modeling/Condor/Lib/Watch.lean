import Mathlib.Data.List.Basic

/-!
# Programs that return or get stuck

A program is run with fuel and keeps a record of the states in which it called a primitive that may
never return.
-/

namespace Condor.Lib

open List

/-- The value of a program, `none` when the fuel is used up, and the states seen. -/
structure Watch (σ α : Type) where
  value : Option α
  seen : List σ

namespace Watch

variable {σ α β γ : Type}

protected def pure (a : α) : Watch σ α := ⟨some a,[]⟩

protected def bind (x : Watch σ α) (f : α → Watch σ β) : Watch σ β :=
  match x.value with
  | none => ⟨none,x.seen⟩
  | some a => ⟨(f a).value,x.seen ++ (f a).seen⟩

instance : Monad (Watch σ) where
  pure := Watch.pure
  bind := Watch.bind

def exhausted : Watch σ α := ⟨none,[]⟩

/-- A call in state `s` of a primitive that may not return. -/
def call (f : σ → Option α) (s : σ) : Watch σ α := ⟨f s,[s]⟩

def note (s : σ) : Watch σ Unit := ⟨some (),[s]⟩

/-- Rounds of a loop: a round goes on with a new state or leaves with a value. -/
def loop (round : β → Watch σ (β ⊕ γ)) : Nat → β → Watch σ γ
  | 0, _ => exhausted
  | n + 1, b => do
    match ← round b with
    | .inl b' => loop round n b'
    | .inr c => return c

theorem pure_def (a : α) : (pure a : Watch σ α) = ⟨some a,[]⟩ := rfl

theorem bind_def (x : Watch σ α) (f : α → Watch σ β) : (x >>= f) = x.bind f := rfl

theorem value_bind_of_none {x : Watch σ α} {f : α → Watch σ β} (h : x.value = none) :
    (x >>= f).value = none := by
  simp [bind_def,Watch.bind,h]

theorem value_bind_of_some {x : Watch σ α} {f : α → Watch σ β} {a : α} (h : x.value = some a) :
    (x >>= f).value = (f a).value := by
  simp [bind_def,Watch.bind,h]

theorem eq_some_of_bind {x : Watch σ α} {f : α → Watch σ β} {b : β}
    (h : (x >>= f).value = some b) : ∃ a, x.value = some a ∧ (f a).value = some b := by
  cases ha : x.value with
  | none => rw [value_bind_of_none ha] at h; cases h
  | some a => exact ⟨a,rfl,by rwa [value_bind_of_some ha] at h⟩

/-- The program returns with `Q` without a call in a stuck state, or it does not return and
made such a call. -/
def Ends (stuck : σ → Prop) (x : Watch σ α) (Q : α → Prop) : Prop :=
  (∃ a, x.value = some a ∧ Q a ∧ ∀ s ∈ x.seen, ¬ stuck s) ∨
    (x.value = none ∧ ∃ s ∈ x.seen, stuck s)

variable {stuck : σ → Prop} {x : Watch σ α} {P Q : α → Prop}

theorem Ends.pure {a : α} (h : Q a) : Ends stuck (pure a) Q :=
  .inl ⟨a,rfl,h,by simp [pure_def]⟩

theorem Ends.bind {f : α → Watch σ β} {R : β → Prop} (hx : Ends stuck x P)
    (hf : ∀ a, P a → Ends stuck (f a) R) : Ends stuck (x >>= f) R := by
  rw [bind_def]
  rcases hx with ⟨a,ha,hp,hseen⟩ | ⟨hn,hseen⟩
  · have hbind : x.bind f = ⟨(f a).value,x.seen ++ (f a).seen⟩ := by simp [Watch.bind,ha]
    rw [hbind]
    rcases hf a hp with ⟨b,hb,hr,hrest⟩ | ⟨hb,s,hs,hst⟩
    · refine .inl ⟨b,hb,hr,?_⟩
      intro s hs
      rcases List.mem_append.mp hs with hs | hs
      · exact hseen s hs
      · exact hrest s hs
    · exact .inr ⟨hb,s,mem_append_right _ hs,hst⟩
  · have hbind : x.bind f = ⟨none,x.seen⟩ := by simp [Watch.bind,hn]
    rw [hbind]
    exact .inr ⟨rfl,hseen⟩

theorem Ends.map {f : α → β} {R : β → Prop} (hx : Ends stuck x fun a => R (f a)) :
    Ends stuck (f <$> x) R :=
  Ends.bind hx fun _ h => Ends.pure h

theorem Ends.mono (hx : Ends stuck x P) (h : ∀ a, P a → Q a) : Ends stuck x Q := by
  rcases hx with ⟨a,ha,hp,hseen⟩ | hn
  · exact .inl ⟨a,ha,h a hp,hseen⟩
  · exact .inr hn

theorem Ends.call {f : σ → Option α} {s : σ} (hstuck : stuck s → f s = none)
    (hfree : ¬ stuck s → ∃ a, f s = some a ∧ Q a) : Ends stuck (call f s) Q := by
  by_cases hs : stuck s
  · exact .inr ⟨hstuck hs,s,by simp [Watch.call],hs⟩
  · obtain ⟨a,ha,hq⟩ := hfree hs
    exact .inl ⟨a,ha,hq,by simpa [Watch.call] using hs⟩

theorem Ends.loop {round : β → Watch σ (β ⊕ γ)} {R : γ → Prop} (inv : β → Prop) (μ : β → Nat)
    (hround : ∀ b, inv b → Ends stuck (round b) (Sum.elim (fun b' => inv b' ∧ μ b' < μ b) R)) :
    ∀ (n : Nat) (b : β), inv b → μ b < n → Ends stuck (Watch.loop round n b) R := by
  intro n
  induction n with
  | zero => intro b _ hn; exact absurd hn (Nat.not_lt_zero _)
  | succ n ih =>
    intro b hb hn
    apply Ends.bind (hround b hb)
    rintro (b' | c) hr
    · exact ih b' hr.1 (by have := hr.2; omega)
    · exact Ends.pure hr

theorem Ends.returns_iff (hx : Ends stuck x Q) :
    x.value.isSome ↔ ∀ s ∈ x.seen, ¬ stuck s := by
  rcases hx with ⟨a,ha,_,hseen⟩ | ⟨hn,s,hs,hst⟩
  · exact ⟨fun _ => hseen,fun _ => by simp [ha]⟩
  · constructor
    · intro h
      simp [hn] at h
    · intro h
      exact absurd hst (h s hs)

/-- Whatever the program returns has `Q`. -/
def Gives (x : Watch σ α) (Q : α → Prop) : Prop := ∀ a, x.value = some a → Q a

theorem Gives.pure {a : α} (h : Q a) : Gives (pure a : Watch σ α) Q := by
  intro b hb
  cases hb
  exact h

theorem Gives.exhausted : Gives (exhausted : Watch σ α) Q := by
  intro b hb
  cases hb

theorem Gives.bind {f : α → Watch σ β} {R : β → Prop} (hx : Gives x P)
    (hf : ∀ a, P a → Gives (f a) R) : Gives (x >>= f) R := by
  intro b hb
  rw [bind_def] at hb
  unfold Watch.bind at hb
  cases ha : x.value with
  | none => rw [ha] at hb; cases hb
  | some a => rw [ha] at hb; exact hf a (hx a ha) b hb

theorem Gives.skip {f : α → Watch σ β} {R : β → Prop} (hf : ∀ a, Gives (f a) R) :
    Gives (x >>= f) R := by
  refine Gives.bind (P := fun _ => True) (fun _ _ => trivial) ?_
  intro a _
  exact hf a

theorem Gives.mono (hx : Gives x P) (h : ∀ a, P a → Q a) : Gives x Q :=
  fun a ha => h a (hx a ha)

theorem Gives.map {f : α → β} {R : β → Prop} (hx : Gives x fun a => R (f a)) :
    Gives (f <$> x) R :=
  Gives.bind hx fun _ h => Gives.pure h

theorem Gives.loop {round : β → Watch σ (β ⊕ γ)} {R : γ → Prop} (inv : β → Prop)
    (hround : ∀ b, inv b → Gives (round b) (Sum.elim inv R)) :
    ∀ (n : Nat) (b : β), inv b → Gives (Watch.loop round n b) R := by
  intro n
  induction n with
  | zero => intro b _; exact Gives.exhausted
  | succ n ih =>
    intro b hb
    refine Gives.bind (hround b hb) ?_
    rintro (b' | c) hr
    · exact ih b' hr
    · exact Gives.pure hr

/-- The second run goes as far as the first, and they are one if the first returns. -/
def Below (x y : Watch σ α) : Prop :=
  x.seen <+: y.seen ∧ ∀ a, x.value = some a → y = x

theorem Below.refl (x : Watch σ α) : Below x x := ⟨prefix_rfl,fun _ _ => rfl⟩

theorem Below.exhausted (y : Watch σ α) : Below exhausted y := by
  refine ⟨List.nil_prefix,?_⟩
  intro a h
  cases h

theorem Below.bind {x y : Watch σ α} {f g : α → Watch σ β} (hxy : Below x y)
    (hfg : ∀ a, Below (f a) (g a)) : Below (x >>= f) (y >>= g) := by
  obtain ⟨hseen,hsame⟩ := hxy
  simp only [bind_def,Watch.bind]
  cases ha : x.value with
  | none =>
    refine ⟨?_,fun _ h => by cases h⟩
    refine hseen.trans ?_
    cases y.value with
    | none => exact prefix_rfl
    | some b => exact prefix_append _ _
  | some a =>
    rw [hsame a ha,ha]
    refine ⟨(prefix_append_right_inj _).mpr (hfg a).1,?_⟩
    intro b hb
    simp only [(hfg a).2 b hb]

theorem Below.ite {c : Bool} {x x' y y' : Watch σ α} (hx : Below x x') (hy : Below y y') :
    Below (if c = true then x else y) (if c = true then x' else y') := by
  cases c with
  | true => exact hx
  | false => exact hy

/-- Programs for ever more fuel, of which all from some on return a value. -/
def Yields (x : Nat → Watch σ α) (a : α) : Prop := ∃ n, ∀ k, n ≤ k → (x k).value = some a

theorem Yields.const {x : Watch σ α} {a : α} (h : x.value = some a) : Yields (fun _ => x) a :=
  ⟨0,fun _ _ => h⟩

theorem Yields.of_below {x : Nat → Watch σ α} {n : Nat} {a : α}
    (hx : ∀ k, n ≤ k → Below (x n) (x k)) (h : (x n).value = some a) : Yields x a := by
  refine ⟨n,?_⟩
  intro k hk
  rw [(hx k hk).2 a h,h]

theorem Yields.bind {x : Nat → Watch σ α} {f : Nat → α → Watch σ β} {a : α} {b : β}
    (hx : Yields x a) (hf : Yields (fun k => f k a) b) : Yields (fun k => x k >>= f k) b := by
  obtain ⟨n,hn⟩ := hx
  obtain ⟨m,hm⟩ := hf
  refine ⟨max n m,?_⟩
  intro k hk
  rw [value_bind_of_some (hn k (by omega))]
  exact hm k (by omega)

theorem Yields.unique {x : Nat → Watch σ α} {a b : α} (ha : Yields x a) (hb : Yields x b) :
    a = b := by
  obtain ⟨n,hn⟩ := ha
  obtain ⟨m,hm⟩ := hb
  have h := hn (max n m) (by omega)
  rw [hm (max n m) (by omega)] at h
  exact (Option.some.inj h).symm

/-- The program returns with `Q`, or its record is not one of the `few`. -/
def Settles (few : List σ → Prop) (x : Watch σ α) (Q : α → Prop) : Prop :=
  few x.seen → ∃ a, x.value = some a ∧ Q a

theorem Settles.pure {few : List σ → Prop} {a : α} (h : Q a) :
    Settles few (pure a : Watch σ α) Q :=
  fun _ => ⟨a,rfl,h⟩

theorem Settles.note {few : List σ → Prop} {s : σ} (hx : Settles (fun l => few (s::l)) x Q) :
    Settles few (note s >>= fun _ => x) Q :=
  hx

theorem Settles.bind {few : List σ → Prop} {f : α → Watch σ β} {R : β → Prop}
    (hfew : ∀ l m, few (l ++ m) → few l ∧ few m) (hx : Settles few x P)
    (hf : ∀ a, P a → Settles few (f a) R) : Settles few (x >>= f) R := by
  intro hseen
  rw [bind_def] at hseen ⊢
  unfold Watch.bind at hseen ⊢
  cases ha : x.value with
  | none =>
    rw [ha] at hseen
    obtain ⟨a,ha',_⟩ := hx hseen
    rw [ha] at ha'
    cases ha'
  | some a =>
    rw [ha] at hseen
    obtain ⟨hl,hm⟩ := hfew _ _ hseen
    obtain ⟨a',ha',hp⟩ := hx hl
    rw [ha] at ha'
    cases ha'
    exact hf a hp hm

section Accounts

variable {σ α β : Type} {F A B : σ → Prop}

/-- The entries all have `A` exactly if they all have `B`, and then what is returned has `Q`. -/
def Accounts (F A B : σ → Prop) (x : Watch σ α) (Q : α → Prop) : Prop :=
  (∀ e ∈ x.seen, F e) →
    ((∀ e ∈ x.seen, A e) ↔ ∀ e ∈ x.seen, B e) ∧
    ((∀ e ∈ x.seen, B e) → ∀ a, x.value = some a → Q a)

variable {x : Watch σ α} {P Q : α → Prop}

theorem Accounts.pure {a : α} (h : Q a) : Accounts F A B (pure a) Q := by
  intro _
  refine ⟨by simp [pure_def],?_⟩
  intro _ b hb
  cases hb
  exact h

theorem Accounts.exhausted : Accounts F A B exhausted Q := by
  intro _
  refine ⟨by simp [Watch.exhausted],?_⟩
  intro _ b hb
  cases hb

theorem Accounts.mono (hx : Accounts F A B x P) (h : ∀ a, P a → Q a) : Accounts F A B x Q := by
  intro hf
  obtain ⟨hiff,hreturn⟩ := hx hf
  exact ⟨hiff,fun hb a ha => h a (hreturn hb a ha)⟩

theorem Accounts.bind {f : α → Watch σ β} {R : β → Prop} (hx : Accounts F A B x P)
    (hf : ∀ a, P a → Accounts F A B (f a) R) : Accounts F A B (x >>= f) R := by
  rw [bind_def]
  cases ha : x.value with
  | none =>
    have hbind : x.bind f = ⟨none,x.seen⟩ := by simp [Watch.bind,ha]
    rw [hbind]
    intro hF
    refine ⟨(hx hF).1,?_⟩
    intro _ b hb
    cases hb
  | some a =>
    have hbind : x.bind f = ⟨(f a).value,x.seen ++ (f a).seen⟩ := by simp [Watch.bind,ha]
    rw [hbind]
    intro hF
    obtain ⟨hiff,hreturn⟩ := hx fun e he => hF e (mem_append_left _ he)
    have hF' : ∀ e ∈ (f a).seen, F e := fun e he => hF e (mem_append_right _ he)
    refine ⟨?_,?_⟩
    · -- a fault of the first program is a fault of the whole
      constructor
      · intro hA
        have hB := hiff.mp fun e he => hA e (mem_append_left _ he)
        have hB' := (hf a (hreturn hB a ha) hF').1.mp fun e he =>
          hA e (mem_append_right _ he)
        exact List.forall_mem_append.mpr ⟨hB,hB'⟩
      · intro h
        obtain ⟨hB,hB'⟩ := List.forall_mem_append.mp h
        have hA' := (hf a (hreturn hB a ha) hF').1.mpr hB'
        exact List.forall_mem_append.mpr ⟨hiff.mpr hB,hA'⟩
    · intro h b hb
      obtain ⟨hB,hB'⟩ := List.forall_mem_append.mp h
      exact (hf a (hreturn hB a ha) hF').2 hB' b hb

theorem Accounts.note {e : σ} (h : F e → (A e ↔ B e)) :
    Accounts F A B (note e) fun _ => F e ∧ B e := by
  intro hF
  have he : F e := hF e (mem_singleton_self e)
  constructor
  · constructor
    · intro hA d hd
      obtain rfl := List.mem_singleton.mp hd
      exact (h he).mp (hA d hd)
    · intro hB d hd
      obtain rfl := List.mem_singleton.mp hd
      exact (h he).mpr (hB d hd)
  · intro hB _ _
    exact ⟨he,hB e (mem_singleton_self e)⟩

end Accounts

end Watch

end Condor.Lib
