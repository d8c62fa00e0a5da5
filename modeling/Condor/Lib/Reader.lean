import Mathlib.Data.List.Infix

/-!
# Self-delimiting stream readers

A reader consumes symbols from the front of a list and either yields a value or gives up with an
error; in both cases the unread rest is returned.
-/

namespace Condor.Lib

open List

/-- A reader over symbols `β` that fails with an error in `ε`. -/
def Reader (β ε α : Type) := List β → Except ε α × List β

namespace Reader

variable {β ε α γ σ : Type}

protected def pure (a : α) : Reader β ε α := fun s => (.ok a,s)

protected def bind (p : Reader β ε α) (f : α → Reader β ε γ) : Reader β ε γ := fun s =>
  match p s with
  | (.ok a,rest) => f a rest
  | (.error e,rest) => (.error e,rest)

instance : Monad (Reader β ε) where
  pure := Reader.pure
  bind := Reader.bind

theorem pure_apply (a : α) (s : List β) :
    (pure a : Reader β ε α) s = (.ok a,s) := rfl

theorem bind_ok {p : Reader β ε α} {f : α → Reader β ε γ} {a : α} {s rest : List β}
    (h : p s = (.ok a,rest)) : (p >>= f) s = f a rest := by
  change Reader.bind p f s = _
  simp only [Reader.bind,h]

theorem bind_error {p : Reader β ε α} {f : α → Reader β ε γ} {e : ε} {s rest : List β}
    (h : p s = (.error e,rest)) : (p >>= f) s = (.error e,rest) := by
  change Reader.bind p f s = _
  simp only [Reader.bind,h]

theorem bind_eq_ok {p : Reader β ε α} {f : α → Reader β ε γ} {c : γ} {s rest : List β}
    (h : (p >>= f) s = (.ok c,rest)) :
    ∃ a mid, p s = (.ok a,mid) ∧ f a mid = (.ok c,rest) := by
  cases hp : p s with
  | mk r mid =>
    cases r with
    | ok a => exact ⟨a,mid,rfl,by rw [← h,bind_ok hp]⟩
    | error e => rw [bind_error hp] at h; simp at h

/-- `bs` is a frame for `a`: it is read back whatever follows, and on every proper prefix the reader
stops with `e`. -/
structure Frames (p : Reader β ε α) (e : ε) (bs : List β) (a : α) : Prop where
  reads : ∀ rest, p (bs ++ rest) = (.ok a,rest)
  starves : ∀ cut, cut <+: bs → cut ≠ bs → p cut = (.error e,[])

theorem frames_pure (e : ε) (a : α) : Frames (pure a : Reader β ε α) e [] a where
  reads _ := rfl
  starves _ hc hne := absurd (List.prefix_nil.mp hc) hne

theorem prefix_append_cases {cut xs ys : List β} (h : cut <+: xs ++ ys) :
    (cut <+: xs ∧ cut ≠ xs) ∨ ∃ cut', cut = xs ++ cut' ∧ cut' <+: ys := by
  rcases prefix_or_prefix_of_prefix h (prefix_append xs ys) with hx | ⟨t,rfl⟩
  · by_cases he : cut = xs
    · exact .inr ⟨[],by simp [he],List.nil_prefix⟩
    · exact .inl ⟨hx,he⟩
  · exact .inr ⟨t,rfl,(prefix_append_right_inj xs).mp h⟩

theorem Frames.bind {p : Reader β ε α} {f : α → Reader β ε γ} {e : ε} {xs ys : List β}
    {a : α} {c : γ} (hp : Frames p e xs a) (hf : Frames (f a) e ys c) :
    Frames (p >>= f) e (xs ++ ys) c where
  reads rest := by
    rw [append_assoc,bind_ok (hp.reads _)]
    exact hf.reads rest
  starves cut hc hne := by
    rcases prefix_append_cases hc with ⟨hx,hn⟩ | ⟨cut',rfl,hy⟩
    · exact bind_error (hp.starves cut hx hn)
    · rw [bind_ok (hp.reads cut')]
      exact hf.starves cut' hy (fun he => hne (by rw [he]))

/-- The accumulated state, the error that ended the scan, and the unread input before and after the
last attempt. -/
structure ScanEnd (β ε σ : Type) where
  state : σ
  error : Option ε
  before : List β
  after : List β

def scan (p : Reader β ε α) (f : σ → α → σ) : Nat → σ → List β → ScanEnd β ε σ
  | 0, st, s => ⟨st,none,s,s⟩
  | fuel+1, st, s =>
    match p s with
    | (.ok a,rest) => scan p f fuel (f st a) rest
    | (.error e,rest) => ⟨st,some e,s,rest⟩

theorem scan_ok {p : Reader β ε α} {f : σ → α → σ} {fuel : Nat} {st : σ} {a : α}
    {s rest : List β} (h : p s = (.ok a,rest)) :
    scan p f (fuel+1) st s = scan p f fuel (f st a) rest := by
  simp only [scan,h]

theorem scan_error {p : Reader β ε α} {f : σ → α → σ} {fuel : Nat} {st : σ} {e : ε}
    {s rest : List β} (h : p s = (.error e,rest)) :
    scan p f (fuel+1) st s = ⟨st,some e,s,rest⟩ := by
  simp only [scan,h]

def Consumes (p : Reader β ε α) : Prop :=
  ∀ s a rest, p s = (.ok a,rest) → rest.length < s.length

def Shrinks (p : Reader β ε α) : Prop :=
  ∀ s a rest, p s = (.ok a,rest) → rest.length ≤ s.length

theorem shrinks_pure (a : α) : Shrinks (pure a : Reader β ε α) := by
  intro s b rest h
  rw [pure_apply] at h
  exact Nat.le_of_eq (congrArg List.length (Prod.mk.inj h).2.symm)

theorem Shrinks.bind {p : Reader β ε α} {f : α → Reader β ε γ} (hp : Shrinks p)
    (hf : ∀ a, Shrinks (f a)) : Shrinks (p >>= f) := by
  intro s c rest h
  obtain ⟨a,mid,ha,hc⟩ := bind_eq_ok h
  exact (hf a mid c rest hc).trans (hp s a mid ha)

theorem scan_fuel {p : Reader β ε α} (hp : Consumes p) (f : σ → α → σ) (n m : Nat) (st : σ)
    (s : List β) (hn : s.length < n) (hm : s.length < m) : scan p f n st s = scan p f m st s := by
  induction n generalizing m st s with
  | zero => omega
  | succ n ih =>
    cases m with
    | zero => omega
    | succ m =>
      cases hr : p s with
      | mk r rest =>
        cases r with
        | ok a =>
          have hl := hp s a rest hr
          rw [scan_ok hr,scan_ok hr]
          exact ih m _ rest (by omega) (by omega)
        | error e => rw [scan_error hr,scan_error hr]

theorem scan_invariant {p : Reader β ε α} {f : σ → α → σ} {Inv : σ → Prop}
    (hstep : ∀ st s a rest, Inv st → p s = (.ok a,rest) → Inv (f st a)) (n : Nat) (st : σ)
    (s : List β) (h : Inv st) : Inv (scan p f n st s).state := by
  induction n generalizing st s with
  | zero => exact h
  | succ n ih =>
    cases hr : p s with
    | mk r rest =>
      cases r with
      | ok a =>
        rw [scan_ok hr]
        exact ih _ rest (hstep st s a rest h hr)
      | error e => rw [scan_error hr]; exact h

def scanAll (p : Reader β ε α) (f : σ → α → σ) (st : σ) (s : List β) : ScanEnd β ε σ :=
  scan p f (s.length+1) st s

theorem scanAll_frames {p : Reader β ε α} (hp : Consumes p) {e : ε} (enc : α → List β)
    (f : σ → α → σ) (as : List α) (h : ∀ a ∈ as, Frames p e (enc a) a) (st : σ) (rest : List β) :
    scanAll p f st (as.flatMap enc ++ rest) = scanAll p f (as.foldl f st) rest := by
  induction as generalizing st with
  | nil => rfl
  | cons a as ih =>
    have ha := (h a (by simp)).reads (as.flatMap enc ++ rest)
    have hl := hp _ _ _ ha
    rw [flatMap_cons,append_assoc,foldl_cons,
      ← ih (fun b hb => h b (by simp [hb])) (f st a)]
    unfold scanAll
    rw [scan_ok ha]
    exact scan_fuel hp f _ _ _ _ hl (by omega)

theorem prefix_flatMap_cases (enc : α → List β) (as : List α) {cut : List β}
    (h : cut <+: as.flatMap enc) :
    ∃ k ≤ as.length, ∃ tail, cut = (as.take k).flatMap enc ++ tail ∧
      (tail = [] ∨ ∃ a ∈ as, tail <+: enc a ∧ tail ≠ enc a) := by
  induction as generalizing cut with
  | nil => exact ⟨0,by simp,[],by simpa using h,.inl rfl⟩
  | cons a as ih =>
    rw [flatMap_cons] at h
    rcases prefix_append_cases h with ⟨hx,hn⟩ | ⟨cut',rfl,hy⟩
    · exact ⟨0,by simp,cut,by simp,.inr ⟨a,by simp,hx,hn⟩⟩
    · obtain ⟨k,hk,tail,rfl,ht⟩ := ih hy
      refine ⟨k+1,by simpa using hk,tail,by simp [append_assoc],?_⟩
      rcases ht with ht | ⟨b,hb,ht⟩
      · exact .inl ht
      · exact .inr ⟨b,by simp [hb],ht⟩

theorem scanAll_cut {p : Reader β ε α} (hp : Consumes p) {e : ε} (hnil : p [] = (.error e,[]))
    (enc : α → List β) (f : σ → α → σ) (as : List α) (h : ∀ a ∈ as, Frames p e (enc a) a)
    (st : σ) {cut : List β} (hc : cut <+: as.flatMap enc) :
    ∃ k ≤ as.length, ∃ tail, cut = (as.take k).flatMap enc ++ tail ∧
      scanAll p f st cut = ⟨(as.take k).foldl f st,some e,tail,[]⟩ := by
  obtain ⟨k,hk,tail,rfl,ht⟩ := prefix_flatMap_cases enc as hc
  refine ⟨k,hk,tail,rfl,?_⟩
  rw [scanAll_frames hp enc f _ (fun a ha => h a (mem_of_mem_take ha))]
  rcases ht with rfl | ⟨a,ha,hpre,hne⟩
  · exact scan_error hnil
  · exact scan_error ((h a ha).starves tail hpre hne)

end Reader

end Condor.Lib
