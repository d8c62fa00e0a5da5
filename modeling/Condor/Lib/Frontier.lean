import Mathlib.Data.List.Induction
import Mathlib.Data.List.Nodup
import Mathlib.Data.List.Pairwise
import Mathlib.Order.Minimal

/-!
# Keeping the greatest elements

A list of elements no two of which are comparable is kept up to date: a new element is dropped
if a kept one covers it, otherwise it takes out those that it covers and comes last.
-/

namespace Condor.Lib

open List

variable {α β : Type*}

def coverScan (r : α → α → Bool) (a : α) : List α → List α × Bool
  | [] => ([],true)
  | b :: bs =>
    if r a b then (b :: bs,false)
    else if r b a then coverScan r a bs
    else (b :: (coverScan r a bs).1,(coverScan r a bs).2)

def addToFrontier (r : α → α → Bool) (kept : List α) (a : α) : List α :=
  if (coverScan r a kept).2 then (coverScan r a kept).1 ++ [a] else (coverScan r a kept).1

def frontier (r : α → α → Bool) (l : List α) : List α :=
  l.foldl (addToFrontier r) []

structure IsFrontier [PartialOrder β] (key : α → β) (l kept : List α) : Prop where
  subset : ∀ a ∈ kept, a ∈ l
  apart : kept.Pairwise fun a b => ¬key a ≤ key b ∧ ¬key b ≤ key a
  covers : ∀ a ∈ l, ∃ b ∈ kept, key a ≤ key b

variable [PartialOrder β] {key : α → β} {r : α → α → Bool} {l kept : List α}

theorem coverScan_spec (hr : ∀ a b, r a b = true ↔ key a ≤ key b) (a : α)
    (h : kept.Pairwise fun a b => ¬key a ≤ key b ∧ ¬key b ≤ key a) :
    (coverScan r a kept).1.Sublist kept ∧
      (∀ b ∈ kept, b ∈ (coverScan r a kept).1 ∨
        key b ≤ key a ∧ (coverScan r a kept).2 = true) ∧
      ((coverScan r a kept).2 = true →
        ∀ b ∈ (coverScan r a kept).1, ¬key a ≤ key b ∧ ¬key b ≤ key a) ∧
      ((coverScan r a kept).2 = false → ∃ b ∈ (coverScan r a kept).1, key a ≤ key b) := by
  induction kept with
  | nil => simp [coverScan]
  | cons b bs ih =>
    obtain ⟨hb,hbs⟩ := List.pairwise_cons.mp h
    obtain ⟨hsub,hkept,hapart,hcover⟩ := ih hbs
    rw [coverScan]
    split
    next hab =>
      have hab := (hr a b).mp hab
      exact ⟨List.Sublist.refl _,fun c hc => .inl hc,nofun,fun _ => ⟨b,mem_cons_self,hab⟩⟩
    next hab =>
      have hab := mt (hr a b).mpr hab
      split
      next hba =>
        have hba := (hr b a).mp hba
        -- what comes later cannot cover the new element, as it would cover the old one
        have hadd : (coverScan r a bs).2 = true := by
          by_contra hadd
          obtain ⟨c,hc,hac⟩ := hcover (Bool.eq_false_iff.mpr hadd)
          exact (hb c (hsub.subset hc)).1 (hba.trans hac)
        refine ⟨hsub.cons _,?_,hapart,hcover⟩
        intro c hc
        rcases List.mem_cons.mp hc with rfl | hc
        · exact .inr ⟨hba,hadd⟩
        · exact hkept c hc
      next hba =>
        have hba := mt (hr b a).mpr hba
        refine ⟨hsub.cons_cons _,?_,?_,?_⟩
        · intro c hc
          rcases List.mem_cons.mp hc with rfl | hc
          · exact .inl mem_cons_self
          · exact (hkept c hc).imp_left (mem_cons_of_mem _)
        · intro hadd c hc
          rcases List.mem_cons.mp hc with rfl | hc
          · exact ⟨hab,hba⟩
          · exact hapart hadd c hc
        · intro hadd
          obtain ⟨c,hc,hac⟩ := hcover hadd
          exact ⟨c,mem_cons_of_mem _ hc,hac⟩

theorem IsFrontier.add (hr : ∀ a b, r a b = true ↔ key a ≤ key b) (h : IsFrontier key l kept)
    (a : α) : IsFrontier key (l ++ [a]) (addToFrontier r kept a) := by
  obtain ⟨hsub,hkept,hapart,hcover⟩ := coverScan_spec hr a h.apart
  have hpair := h.apart.sublist hsub
  have hin : ∀ b ∈ (coverScan r a kept).1, b ∈ l ++ [a] := fun b hb =>
    mem_append_left _ (h.subset b (hsub.subset hb))
  unfold addToFrontier
  split
  next hadd =>
    constructor
    · intro b hb
      rcases List.mem_append.mp hb with hb | hb
      · exact hin b hb
      · exact mem_append_right _ hb
    · refine List.pairwise_append.mpr ⟨hpair,pairwise_singleton _ _,?_⟩
      intro b hb c hc
      obtain rfl := List.mem_singleton.mp hc
      exact (hapart hadd b hb).symm
    · intro b hb
      rcases List.mem_append.mp hb with hb | hb
      · obtain ⟨c,hc,hbc⟩ := h.covers b hb
        rcases hkept c hc with hc | ⟨hca,-⟩
        · exact ⟨c,mem_append_left _ hc,hbc⟩
        · exact ⟨a,by simp,hbc.trans hca⟩
      · obtain rfl := List.mem_singleton.mp hb
        exact ⟨b,by simp,le_rfl⟩
  next hadd =>
    refine ⟨hin,hpair,?_⟩
    intro b hb
    rcases List.mem_append.mp hb with hb | hb
    · obtain ⟨c,hc,hbc⟩ := h.covers b hb
      rcases hkept c hc with hc | ⟨-,hadd'⟩
      · exact ⟨c,hc,hbc⟩
      · exact absurd hadd' hadd
    · obtain rfl := List.mem_singleton.mp hb
      exact hcover (Bool.eq_false_iff.mpr hadd)

theorem isFrontier (hr : ∀ a b, r a b = true ↔ key a ≤ key b) (l : List α) :
    IsFrontier key l (frontier r l) := by
  unfold frontier
  induction l using List.reverseRecOn with
  | nil => exact ⟨nofun,List.Pairwise.nil,nofun⟩
  | append_singleton l a ih =>
    rw [foldl_append]
    exact ih.add hr a

theorem IsFrontier.incomparable (h : IsFrontier key l kept) {a b : α} (ha : a ∈ kept)
    (hb : b ∈ kept) (hne : a ≠ b) : ¬key a ≤ key b := by
  have : Std.Symm fun a b => ¬key a ≤ key b ∧ ¬key b ≤ key a := ⟨fun _ _ hab => hab.symm⟩
  exact (h.apart.forall ha hb hne).1

theorem IsFrontier.nodup (h : IsFrontier key l kept) : (kept.map key).Nodup := by
  rw [List.Nodup,pairwise_map]
  refine h.apart.imp ?_
  intro a b hab heq
  exact hab.1 heq.le

theorem IsFrontier.mem_iff (h : IsFrontier key l kept) (k : β) :
    k ∈ kept.map key ↔ Maximal (fun k => ∃ a ∈ l, key a = k) k := by
  constructor
  · rw [mem_map]
    rintro ⟨a,ha,rfl⟩
    refine ⟨⟨a,h.subset a ha,rfl⟩,?_⟩
    rintro _ ⟨b,hb,rfl⟩ hab
    obtain ⟨c,hc,hbc⟩ := h.covers b hb
    -- two kept elements are equal or incomparable
    have heq : a = c := by
      by_contra hne
      exact h.incomparable ha hc hne (hab.trans hbc)
    rwa [heq]
  · rintro ⟨⟨a,ha,rfl⟩,hmax⟩
    obtain ⟨b,hb,hab⟩ := h.covers a ha
    exact List.mem_map.mpr ⟨b,hb,(hmax ⟨b,h.subset b hb,rfl⟩ hab).antisymm hab⟩

end Condor.Lib
