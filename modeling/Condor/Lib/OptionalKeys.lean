import Mathlib.Data.List.Sort
import Mathlib.Tactic.Linarith

/-!
# Lexicographic comparison with missing keys

Two lists of keys are compared from their heads, a greater key coming first. A key that one side
lacks is passed over.
-/

namespace Condor.Lib

open List

variable {α ι : Type*} [LinearOrder α]

def compareKey : Option α → Option α → Int
  | some x, some y => if x < y then 1 else if y < x then -1 else 0
  | _, _ => 0

def compareKeys : List (Option α) → List (Option α) → Int
  | x :: xs, y :: ys => if compareKey x y = 0 then compareKeys xs ys else compareKey x y
  | _, _ => 0

/-- The first two differ in a key that the third lacks, and the keys below put the third between
them. -/
inductive Clash : List (Option α) → List (Option α) → List (Option α) → Prop
  | here {x y : α} {as bs cs : List (Option α)} (hxy : y < x) (hbc : compareKeys bs cs < 0)
      (hca : compareKeys cs as < 0) : Clash (some x :: as) (some y :: bs) (none :: cs)
  | agree {x y z : Option α} {as bs cs : List (Option α)} (hxy : compareKey x y = 0)
      (hyz : compareKey y z = 0) (hzx : compareKey z x = 0) (h : Clash as bs cs) :
      Clash (x :: as) (y :: bs) (z :: cs)

theorem compareKey_swap (x y : Option α) : compareKey y x = -compareKey x y := by
  rcases x with _ | x <;> rcases y with _ | y <;> simp only [compareKey,neg_zero]
  rcases lt_trichotomy x y with h | rfl | h
  · simp [h,h.not_gt]
  · simp
  · simp [h,h.not_gt]

theorem compareKeys_swap (xs ys : List (Option α)) :
    compareKeys ys xs = -compareKeys xs ys := by
  induction xs generalizing ys with
  | nil => cases ys <;> rfl
  | cons x xs ih =>
    cases ys with
    | nil => rfl
    | cons y ys =>
      simp only [compareKeys,compareKey_swap x y,neg_eq_zero,ih ys]
      split_ifs <;> rfl

theorem compareKey_circle {x y z : Option α} (hxy : compareKey x y < 0)
    (hyz : compareKey y z ≤ 0) (hzx : compareKey z x ≤ 0) :
    ∃ u v, x = some u ∧ y = some v ∧ v < u ∧ z = none := by
  rcases x with _ | u
  · simp [compareKey] at hxy
  rcases y with _ | v
  · simp [compareKey] at hxy
  have huv : v < u := by
    simp only [compareKey] at hxy
    split_ifs at hxy with h1 h2
    · exact absurd hxy (by decide)
    · exact h2
    · exact absurd hxy (lt_irrefl 0)
  refine ⟨u,v,rfl,rfl,huv,?_⟩
  rcases z with _ | w
  · rfl
  have hvw : w ≤ v := by
    by_contra h
    simp [compareKey,not_le.mp h] at hyz
  have hwu : u ≤ w := by
    by_contra h
    simp [compareKey,not_le.mp h] at hzx
  exact absurd (huv.trans_le (hwu.trans hvw)) (lt_irrefl v)

theorem compareKey_le {x y : Option α} {xs ys : List (Option α)}
    (h : compareKeys (x :: xs) (y :: ys) < 0) :
    compareKey x y < 0 ∨ compareKey x y = 0 ∧ compareKeys xs ys < 0 := by
  rw [compareKeys] at h
  split_ifs at h with h0
  · exact .inr ⟨h0,h⟩
  · exact .inl h

variable {as bs cs : List (Option α)}

theorem clash_head {x y z : Option α} (hxy : compareKey x y < 0)
    (hbc : compareKeys (y :: bs) (z :: cs) < 0) (hca : compareKeys (z :: cs) (x :: as) < 0) :
    Clash (x :: as) (y :: bs) (z :: cs) := by
  have hyz := compareKey_le hbc
  have hzx := compareKey_le hca
  obtain ⟨u,v,rfl,rfl,huv,rfl⟩ := @compareKey_circle _ _ x y z hxy (by omega) (by omega)
  simp only [compareKey,lt_irrefl,true_and,false_or] at hyz hzx
  exact Clash.here huv hyz hzx

theorem compareKeys_clash (h : Clash as bs cs) :
    compareKeys as bs < 0 ∧ compareKeys bs cs < 0 ∧ compareKeys cs as < 0 := by
  induction h with
  | @here x y _ _ _ hxy hbc hca => simp [compareKeys,compareKey,hxy,hxy.not_gt,hbc,hca]
  | agree hxy hyz hzx _ ih => simpa [compareKeys,hxy,hyz,hzx] using ih

/-- Three lists of one length that precede each other in a circle clash, one of them being the
one that lacks the key. -/
theorem clash_of_circle (hb : as.length = bs.length)
    (hc : as.length = cs.length) (hab : compareKeys as bs < 0) (hbc : compareKeys bs cs < 0)
    (hca : compareKeys cs as < 0) : Clash as bs cs ∨ Clash bs cs as ∨ Clash cs as bs := by
  induction as generalizing bs cs with
  | nil => cases bs <;> simp [compareKeys] at hab
  | cons x as ih =>
    cases bs with
    | nil => simp at hb
    | cons y bs =>
      cases cs with
      | nil => simp at hc
      | cons z cs =>
        rcases compareKey_le hab with h1 | ⟨h1,hab'⟩
        · exact .inl (clash_head h1 hbc hca)
        rcases compareKey_le hbc with h2 | ⟨h2,hbc'⟩
        · exact .inr (.inl (clash_head h2 hca hab))
        rcases compareKey_le hca with h3 | ⟨h3,hca'⟩
        · exact .inr (.inr (clash_head h3 hab hbc))
        -- no pair is decided here: the circle is one of the keys below
        rcases ih (by simpa using hb) (by simpa using hc) hab' hbc' hca' with h | h | h
        · exact .inl (Clash.agree h1 h2 h3 h)
        · exact .inr (.inl (Clash.agree h2 h3 h1 h))
        · exact .inr (.inr (Clash.agree h3 h1 h2 h))

theorem compareKey_some {x y : α} (h : compareKey (some x) (some y) = 0) : x = y := by
  rcases lt_trichotomy x y with hlt | rfl | hlt
  · simp [compareKey,hlt] at h
  · rfl
  · simp [compareKey,hlt,hlt.not_gt] at h

theorem compareKeys_eq_zero {xs ys : List (Option α)} (h : compareKeys xs ys = 0) :
    ∀ p ∈ xs.zip ys, compareKey p.1 p.2 = 0 := by
  induction xs generalizing ys with
  | nil => simp
  | cons x xs ih =>
    cases ys with
    | nil => simp
    | cons y ys =>
      rw [compareKeys] at h
      split_ifs at h with h0
      · simpa [h0] using ih h
      · exact absurd h h0

/-- A comparison that is a strict total order on a set puts every list of its elements in one
order only, whatever their order was. -/
theorem sorted_unique {S : Set ι} {cmp : ι → ι → Int}
    (hswap : ∀ a b, cmp b a = -cmp a b) (hne : ∀ a ∈ S, ∀ b ∈ S, a ≠ b → cmp a b ≠ 0)
    (htrans : ∀ a ∈ S, ∀ b ∈ S, ∀ c ∈ S, cmp a b < 0 → cmp b c < 0 → cmp a c < 0)
    (l : List ι) (hl : ∀ a ∈ l, a ∈ S) :
    ∃! s : List ι, s.Perm l ∧ s.Pairwise fun a b => cmp a b ≤ 0 := by
  classical
  obtain ⟨l,rfl⟩ : ∃ l' : List S, l'.map Subtype.val = l :=
    ⟨l.attachWith _ hl,attachWith_map_subtype_val hl⟩
  let le : S → S → Bool := fun a b => decide (cmp a b ≤ 0)
  have hself : ∀ a : S, cmp a a = 0 := fun a => by have := hswap a a; omega
  have hle : ∀ a b c : S, le a b → le b c → le a c := by
    intro a b c hab hbc
    simp only [le,decide_eq_true_eq] at hab hbc ⊢
    rcases eq_or_ne a b with rfl | h1
    · exact hbc
    rcases eq_or_ne b c with rfl | h2
    · exact hab
    have h1' := hne a a.2 b b.2 (fun h => h1 (Subtype.ext h))
    have h2' := hne b b.2 c c.2 (fun h => h2 (Subtype.ext h))
    exact (htrans a a.2 b b.2 c c.2 (by omega) (by omega)).le
  have htotal : ∀ a b : S, (le a b || le b a) = true := by
    intro a b
    have := hswap a b
    simp only [le,Bool.or_eq_true,decide_eq_true_eq]
    omega
  refine ⟨(l.mergeSort le).map Subtype.val,⟨(mergeSort_perm l le).map _,?_⟩,?_⟩
  · exact List.pairwise_map.mpr ((pairwise_mergeSort hle htotal l).imp (by simp [le]))
  · rintro s ⟨hperm,hsorted⟩
    refine List.Perm.eq_of_pairwise ?_ hsorted
      (List.pairwise_map.mpr ((pairwise_mergeSort hle htotal l).imp (by simp [le])))
      (hperm.trans ((mergeSort_perm l le).map _).symm)
    intro a b ha hb hab hba
    obtain ⟨a,-,rfl⟩ := List.mem_map.mp (hperm.subset ha)
    obtain ⟨b,-,rfl⟩ := List.mem_map.mp hb
    by_contra hc
    have := hne a a.2 b b.2 hc
    have := hswap a b
    omega

end Condor.Lib
