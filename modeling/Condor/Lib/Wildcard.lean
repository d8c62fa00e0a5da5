import Mathlib.Data.List.TakeWhile
import Mathlib.Data.List.Infix

/-!
# Patterns with a wildcard

A pattern is a list in which one character, the star, stands for any text; every other character
stands for the characters that have the same image under a map, such as the map to lower case.
-/

namespace Condor.Lib.Wildcard

open List

variable {α β : Type*} {star : α} {f : α → β}

/-- The texts that come from a pattern when each star is replaced by some text. -/
inductive Matches (star : α) (f : α → β) : List α → List α → Prop
  | nil : Matches star f [] []
  | char {c d : α} {p s : List α} (hc : c ≠ star) (hd : f c = f d) (h : Matches star f p s) :
      Matches star f (c :: p) (d :: s)
  | star {p s : List α} (u : List α) (h : Matches star f p s) : Matches star f (star :: p) (u ++ s)

theorem matches_star (p s : List α) :
    Matches star f (star :: p) s ↔ ∃ u v, s = u ++ v ∧ Matches star f p v := by
  constructor
  · intro h
    cases h with
    | char hc => exact absurd rfl hc
    | star u h => exact ⟨u,_,rfl,h⟩
  · intro h
    obtain ⟨u,v,rfl,hv⟩ := h
    exact .star u hv

theorem matches_char {c : α} (hc : c ≠ star) (p s : List α) :
    Matches star f (c :: p) s ↔ ∃ d v, s = d :: v ∧ f c = f d ∧ Matches star f p v := by
  constructor
  · intro h
    cases h with
    | char _ hd h => exact ⟨_,_,rfl,hd,h⟩
    | star => exact absurd rfl hc
  · intro h
    obtain ⟨d,v,rfl,hd,hv⟩ := h
    exact .char hc hd hv

theorem matches_plain {p : List α} (hp : star ∉ p) (s : List α) :
    Matches star f p s ↔ p.map f = s.map f := by
  induction p generalizing s with
  | nil =>
    constructor
    · intro h
      cases h
      rfl
    · intro h
      rw [List.map_eq_nil_iff.mp h.symm]
      exact .nil
  | cons c p ih =>
    have hc : c ≠ star := fun he => hp (he ▸ mem_cons_self ..)
    have hp' : star ∉ p := fun hm => hp (mem_cons_of_mem _ hm)
    rw [matches_char hc]
    constructor
    · intro h
      obtain ⟨d,v,rfl,hd,hv⟩ := h
      rw [map_cons,map_cons,hd,(ih hp' v).mp hv]
    · intro h
      cases s with
      | nil => exact absurd h (cons_ne_nil _ _)
      | cons d v =>
        rw [map_cons,map_cons,List.cons.injEq] at h
        exact ⟨d,v,rfl,h.1,(ih hp' v).mpr h.2⟩

theorem matches_append (p q s : List α) :
    Matches star f (p ++ q) s ↔ ∃ u v, s = u ++ v ∧ Matches star f p u ∧ Matches star f q v := by
  constructor
  · intro h
    induction p generalizing s with
    | nil => exact ⟨[],s,rfl,.nil,h⟩
    | cons c p ih =>
      cases h with
      | char hc hd h =>
        obtain ⟨u,v,rfl,hu,hv⟩ := ih _ h
        exact ⟨_ :: u,v,rfl,.char hc hd hu,hv⟩
      | star w h =>
        obtain ⟨u,v,rfl,hu,hv⟩ := ih _ h
        exact ⟨w ++ u,v,(append_assoc ..).symm,.star w hu,hv⟩
  · intro h
    obtain ⟨u,v,rfl,hu,hv⟩ := h
    induction hu with
    | nil => exact hv
    | char hc hd _ ih => exact .char hc hd ih
    | star w _ ih =>
      rw [append_assoc]
      exact .star w ih

theorem matches_one {a b : List α} (ha : star ∉ a) (hb : star ∉ b) (s : List α) :
    Matches star f (a ++ star :: b) s ↔
      a.map f <+: s.map f ∧ b.map f <:+ s.map f ∧ a.length + b.length ≤ s.length := by
  rw [matches_append]
  constructor
  · intro h
    obtain ⟨u,v,rfl,hu,hv⟩ := h
    obtain ⟨w,t,rfl,ht⟩ := (matches_star b v).mp hv
    rw [matches_plain ha] at hu
    rw [matches_plain hb] at ht
    have hau := congrArg List.length hu
    have hbt := congrArg List.length ht
    rw [length_map,length_map] at hau hbt
    rw [hu,ht,map_append,map_append]
    refine ⟨prefix_append _ _,⟨u.map f ++ w.map f,append_assoc ..⟩,?_⟩
    rw [length_append,length_append]
    omega
  · intro h
    obtain ⟨⟨r,hr⟩,⟨l,hl⟩,hlen⟩ := h
    have hsr := congrArg List.length hr
    have hsl := congrArg List.length hl
    rw [length_append,length_map,length_map] at hsr hsl
    refine ⟨s.take a.length,s.drop a.length,(take_append_drop ..).symm,?_,?_⟩
    · rw [matches_plain ha,map_take,← hr,take_left' (length_map f)]
    · rw [matches_star]
      refine ⟨_,_,(take_append_drop (s.length - b.length - a.length) _).symm,?_⟩
      have hsum : a.length + (s.length - b.length - a.length) = s.length - b.length := by omega
      have hl' : l.length = s.length - b.length := by omega
      rw [matches_plain hb,drop_drop,hsum,map_drop,← hl,drop_left' hl']

theorem matches_between {m : List α} (hm : star ∉ m) (s : List α) :
    Matches star f (star :: (m ++ [star])) s ↔ m.map f <:+: s.map f := by
  rw [matches_star]
  constructor
  · intro h
    obtain ⟨u,v,rfl,hv⟩ := h
    obtain ⟨w,t,rfl,hw,-⟩ := (matches_append m [star] v).mp hv
    rw [(matches_plain hm w).mp hw,map_append,map_append,← append_assoc]
    exact ⟨u.map f,t.map f,rfl⟩
  · intro h
    obtain ⟨l,r,hlr⟩ := h
    obtain ⟨lm,r',rfl,hlm,rfl⟩ := List.append_eq_map_iff.mp hlr
    obtain ⟨l',m',rfl,rfl,hm'⟩ := List.map_eq_append_iff.mp hlm
    refine ⟨l',m' ++ r',append_assoc ..,?_⟩
    rw [matches_append]
    refine ⟨m',r',rfl,(matches_plain hm m').mpr hm'.symm,?_⟩
    rw [← append_nil r']
    exact .star r' .nil

end Condor.Lib.Wildcard
