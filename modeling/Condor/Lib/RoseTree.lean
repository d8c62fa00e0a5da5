import Mathlib.Data.List.Forall2

/-!
# Rose trees

Trees whose nodes carry a value and any number of children, with their breadth-first walk.
-/

namespace Condor.Lib

open List

inductive RoseTree (α : Type) where
  | node (value : α) (children : List (RoseTree α))

namespace RoseTree

variable {α : Type}

def value : RoseTree α → α
  | node a _ => a

def children : RoseTree α → List (RoseTree α)
  | node _ cs => cs

@[simp] theorem value_node (a : α) (cs : List (RoseTree α)) : (node a cs).value = a := rfl

variable {P : RoseTree α → Prop}

theorem induct (h : ∀ a cs, (∀ c ∈ cs, P c) → P (node a cs)) :
    ∀ t, P t
  | node a cs => h a cs fun c _ => induct h c

mutual

def values : RoseTree α → List α
  | node a cs => a :: valuesAll cs

def valuesAll : List (RoseTree α) → List α
  | [] => []
  | c :: cs => values c ++ valuesAll cs

end

theorem valuesAll_eq (cs : List (RoseTree α)) : valuesAll cs = cs.flatMap values := by
  induction cs with
  | nil => rfl
  | cons c cs ih => rw [valuesAll,ih,flatMap_cons]

theorem values_node (a : α) (cs : List (RoseTree α)) :
    (node a cs).values = a :: cs.flatMap values := by
  rw [values,valuesAll_eq]

variable {cs : List (RoseTree α)}

theorem mem_values_node {a b : α} :
    b ∈ (node a cs).values ↔ b = a ∨ ∃ c ∈ cs, b ∈ c.values := by
  rw [values_node,mem_cons,mem_flatMap]

theorem value_mem_values (t : RoseTree α) : t.value ∈ t.values := by
  cases t with
  | node a cs => exact mem_values_node.mpr (.inl rfl)

mutual

def map {β : Type} (f : α → β) : RoseTree α → RoseTree β
  | node a cs => node (f a) (mapAll f cs)

def mapAll {β : Type} (f : α → β) : List (RoseTree α) → List (RoseTree β)
  | [] => []
  | c :: cs => map f c :: mapAll f cs

end

variable {β : Type}

theorem mapAll_eq (f : α → β) (cs : List (RoseTree α)) :
    mapAll f cs = cs.map (map f) := by
  induction cs with
  | nil => rfl
  | cons c cs ih => rw [mapAll,ih,map_cons]

theorem map_node (f : α → β) (a : α) (cs : List (RoseTree α)) :
    (node a cs).map f = node (f a) (cs.map (map f)) := by
  rw [map,mapAll_eq]

theorem values_map (f : α → β) (t : RoseTree α) :
    (t.map f).values = t.values.map f := by
  induction t using induct with
  | h a cs ih =>
    rw [map_node,values_node,values_node,map_cons,map_flatMap,flatMap_map]
    congr 1
    exact flatMap_congr ih

inductive Everywhere (P : RoseTree α → Prop) : RoseTree α → Prop
  | node {a : α} {cs : List (RoseTree α)} (here : P (node a cs))
    (below : ∀ c ∈ cs, Everywhere P c) : Everywhere P (node a cs)

theorem Everywhere.root {t : RoseTree α} (h : Everywhere P t) : P t := by
  cases h with
  | node here below => exact here

theorem Everywhere.child {a : α}
    (h : Everywhere P (RoseTree.node a cs)) : ∀ c ∈ cs, Everywhere P c := by
  cases h with
  | node here below => exact below

theorem Everywhere.imp {P Q : RoseTree α → Prop} {t : RoseTree α} (h : Everywhere P t)
    (hPQ : ∀ u, P u → Q u) : Everywhere Q t := by
  induction h with
  | node here below ih => exact .node (hPQ _ here) ih

theorem forall₂_values_node {R : α → β → Prop} {a : α} {b : β} {ds : List (RoseTree β)}
    (hab : R a b)
    (h : List.Forall₂ (fun c d => List.Forall₂ R c.values d.values) cs ds) :
    List.Forall₂ R (node a cs).values (node b ds).values := by
  rw [values_node,values_node]
  exact .cons hab (rel_flatMap h fun _ _ hcd => hcd)

def breadthFirst : Nat → List (RoseTree α) → List α
  | 0, _ => []
  | _, [] => []
  | n + 1, node a cs :: q => a :: breadthFirst n (q ++ cs)

theorem mem_breadthFirst (n : Nat) : ∀ (q : List (RoseTree α)), (q.flatMap values).length ≤ n →
    ∀ b, b ∈ breadthFirst n q ↔ b ∈ q.flatMap values := by
  induction n with
  | zero =>
    intro q hq b
    rw [eq_nil_of_length_eq_zero (Nat.le_zero.mp hq)]
    simp [breadthFirst]
  | succ n ih =>
    intro q hq b
    cases q with
    | nil => simp [breadthFirst]
    | cons t q =>
      cases t with
      | node a cs =>
        have hlen : ((q ++ cs).flatMap values).length ≤ n := by
          rw [flatMap_cons,values_node,length_append,length_cons] at hq
          rw [flatMap_append,length_append]
          omega
        rw [breadthFirst,mem_cons,ih (q ++ cs) hlen b,flatMap_cons,values_node,
          flatMap_append,mem_append,mem_append,mem_cons]
        tauto

end RoseTree

end Condor.Lib
