import Mathlib.Data.Fin.VecNotation
import Mathlib.Data.Fintype.Basic
import Condor.Lib.Frontier

/-!
# Conflicts between conditions

A table of the values of some conditions, the rows, for some machines, the columns.
-/

namespace Condor.ClassAdAnalysis

open Condor.Lib List

inductive BoolValue
  | trueValue
  | falseValue
  | undefinedValue
  | errorValue
  deriving DecidableEq

abbrev BoolVector (numRows : Nat) := Fin numRows → BoolValue

structure BoolTable (numRows : Nat) where
  cols : List (BoolVector numRows)

variable {n : Nat}

namespace BoolVector

def setValue (bv : BoolVector n) (i : Fin n) (bval : BoolValue) : BoolVector n :=
  fun j => if j = i then bval else bv j

def isTrueSubsetOf (bv bv' : BoolVector n) : Bool :=
  (List.finRange n).all fun i => !(bv i == .trueValue && bv' i != .trueValue)

/-- `NEGATE`. -/
def negate (bv : BoolVector n) : BoolVector n :=
  fun i => if bv i = .trueValue then .falseValue else .trueValue

def trueRows (bv : BoolVector n) : Finset (Fin n) :=
  Finset.univ.filter fun i => bv i = .trueValue

@[simp] theorem mem_trueRows {bv : BoolVector n} {i : Fin n} :
    i ∈ bv.trueRows ↔ bv i = .trueValue := by
  simp [trueRows]

theorem isTrueSubsetOf_iff (bv bv' : BoolVector n) :
    bv.isTrueSubsetOf bv' = true ↔ bv.trueRows ≤ bv'.trueRows := by
  rw [isTrueSubsetOf,all_eq_true]
  constructor
  · intro h i hi
    have hall := h i (mem_finRange i)
    simpa [mem_trueRows.mp hi] using hall
  · intro h i _
    have hsub := @h i
    simp only [mem_trueRows] at hsub
    by_cases hi : bv i = .trueValue <;> simp [hi,hsub]

@[simp] theorem negate_eq_trueValue {bv : BoolVector n} {i : Fin n} :
    bv.negate i = .trueValue ↔ bv i ≠ .trueValue := by
  unfold negate
  split <;> simp_all

@[simp] theorem trueRows_setValue (bv : BoolVector n) (i : Fin n) :
    (bv.setValue i .trueValue).trueRows = insert i bv.trueRows := by
  ext j
  by_cases hj : j = i <;> simp [setValue,hj]

end BoolVector

namespace BoolTable

open BoolVector

def generateMaximalTrueBVList (t : BoolTable n) : List (BoolVector n) :=
  frontier isTrueSubsetOf t.cols

/-- `DISTRIB & COMBINE` for one vector of the base list: every old vector with every row that is
TRUE in it. -/
def distribute (oldBVList : List (BoolVector n)) (baseBV : BoolVector n) : List (BoolVector n) :=
  (List.finRange n).flatMap fun i =>
    if baseBV i = .trueValue then
      if oldBVList.isEmpty then [fun j => if i = j then .trueValue else .falseValue]
      else oldBVList.map fun oldBV => oldBV.setValue i .trueValue
    else []

def generateMinimalFalseBVList (t : BoolTable n) : List (BoolVector n) :=
  let baseBVList := t.generateMaximalTrueBVList
  if baseBVList.isEmpty then []
  else
    frontier (fun newBV oldBV => oldBV.isTrueSubsetOf newBV)
      ((baseBVList.map negate).foldl distribute [])

def Conflict (t : BoolTable n) (s : Finset (Fin n)) : Prop :=
  ∀ col ∈ t.cols, ∃ i ∈ s, col i ≠ .trueValue

def Hits (bvs : List (BoolVector n)) (s : Finset (Fin n)) : Prop :=
  ∀ bv ∈ bvs, ∃ i ∈ s, bv i = .trueValue

/-- The vectors hit the base list, and every set that does contains one of them. -/
structure Distributed (bvs : List (BoolVector n)) (l : List (BoolVector n)) : Prop where
  hits : ∀ bv ∈ l, Hits bvs bv.trueRows
  covers : ∀ s, Hits bvs s → ∃ bv ∈ l, bv.trueRows ⊆ s

variable {t : BoolTable n} {bvs l : List (BoolVector n)}

theorem mem_distribute {old : List (BoolVector n)} {base bv : BoolVector n} :
    bv ∈ distribute old base ↔ ∃ i, base i = .trueValue ∧
      (old = [] ∧ bv = (fun j => if i = j then .trueValue else .falseValue) ∨
        ∃ v ∈ old, v.setValue i .trueValue = bv) := by
  simp only [distribute,mem_flatMap,mem_finRange,true_and]
  refine exists_congr fun i => ?_
  by_cases hi : base i = .trueValue
  · cases old <;> simp [hi,eq_comm]
  · simp [hi]

private theorem distributed_single (base : BoolVector n) : Distributed [base]
    (distribute [] base) := by
  constructor
  · intro bv hbv
    obtain ⟨i,hi,⟨-,rfl⟩ | ⟨v,hv,-⟩⟩ := mem_distribute.mp hbv
    · intro b hb
      rw [List.mem_singleton.mp hb]
      exact ⟨i,by simp,hi⟩
    · cases hv
  · intro s hs
    obtain ⟨i,his,hi⟩ := hs base mem_cons_self
    refine ⟨_,mem_distribute.mpr ⟨i,hi,.inl ⟨rfl,rfl⟩⟩,?_⟩
    intro j hj
    by_cases hij : i = j
    · exact hij ▸ his
    · simp [hij] at hj

theorem Distributed.distribute (h : Distributed bvs l) (hl : l ≠ []) (base : BoolVector n) :
    Distributed (bvs ++ [base]) (distribute l base) := by
  constructor
  · intro bv hbv
    obtain ⟨i,hi,⟨hnil,-⟩ | ⟨v,hv,rfl⟩⟩ := mem_distribute.mp hbv
    · exact absurd hnil hl
    · intro b hb
      rw [trueRows_setValue]
      rcases List.mem_append.mp hb with hb | hb
      · obtain ⟨j,hj,hbj⟩ := h.hits v hv b hb
        exact ⟨j,Finset.mem_insert_of_mem hj,hbj⟩
      · rw [List.mem_singleton.mp hb]
        exact ⟨i,Finset.mem_insert_self _ _,hi⟩
  · intro s hs
    obtain ⟨v,hv,hvs⟩ := h.covers s fun b hb => hs b (mem_append_left _ hb)
    obtain ⟨i,his,hi⟩ := hs base (by simp)
    refine ⟨_,mem_distribute.mpr ⟨i,hi,.inr ⟨v,hv,rfl⟩⟩,?_⟩
    rw [trueRows_setValue]
    exact Finset.insert_subset his hvs

theorem distribute_ne_nil {base : BoolVector n} {i : Fin n} (hi : base i = .trueValue)
    (l : List (BoolVector n)) : BoolTable.distribute l base ≠ [] := by
  cases l with
  | nil => exact ne_nil_of_mem (mem_distribute.mpr ⟨i,hi,.inl ⟨rfl,rfl⟩⟩)
  | cons v l =>
    exact ne_nil_of_mem (mem_distribute.mpr ⟨i,hi,.inr ⟨v,mem_cons_self,rfl⟩⟩)

private theorem foldl_distribute (htrue : ∀ bv ∈ bvs, ∃ i, bv i = .trueValue) (hne : bvs ≠ []) :
    Distributed bvs (bvs.foldl BoolTable.distribute []) ∧
      bvs.foldl BoolTable.distribute [] ≠ [] := by
  induction bvs using List.reverseRecOn with
  | nil => exact absurd rfl hne
  | append_singleton bvs base ih =>
    obtain ⟨i,hi⟩ := htrue base (by simp)
    rw [foldl_append]
    refine ⟨?_,distribute_ne_nil hi _⟩
    by_cases hnil : bvs = []
    · subst hnil
      exact distributed_single base
    · obtain ⟨hdist,hold⟩ := ih (fun bv hbv => htrue bv (mem_append_left _ hbv)) hnil
      exact hdist.distribute hold base

private theorem hits_negate (h : IsFrontier trueRows t.cols l) {s : Finset (Fin n)} :
    Hits (l.map negate) s ↔ t.Conflict s := by
  constructor
  · intro hs col hcol
    obtain ⟨bv,hbv,hle⟩ := h.covers col hcol
    obtain ⟨i,his,hi⟩ := hs _ (mem_map_of_mem hbv)
    refine ⟨i,his,fun htrue => ?_⟩
    exact negate_eq_trueValue.mp hi (mem_trueRows.mp (hle (mem_trueRows.mpr htrue)))
  · intro hs b hb
    obtain ⟨bv,hbv,rfl⟩ := List.mem_map.mp hb
    obtain ⟨i,his,hi⟩ := hs bv (h.subset bv hbv)
    exact ⟨i,his,negate_eq_trueValue.mpr hi⟩

private theorem distributed_negate (h : IsFrontier trueRows t.cols l) (hne : l ≠ []) :
    Distributed (l.map negate) ((l.map negate).foldl BoolTable.distribute []) := by
  by_cases htrue : ∀ bv ∈ l.map negate, ∃ i, bv i = .trueValue
  · exact (foldl_distribute htrue (by simpa using hne)).1
  · -- a machine that meets all conditions leaves no other vector in the list
    push Not at htrue
    obtain ⟨b,hb,hall⟩ := htrue
    obtain ⟨bv,hbv,rfl⟩ := List.mem_map.mp hb
    have honly : ∀ bv' ∈ l, bv' = bv := by
      intro bv' hbv'
      by_contra hne'
      refine h.incomparable hbv' hbv hne' fun i _ => ?_
      simpa using hall i
    have hsingle : l = [bv] := by
      cases l with
      | nil => exact absurd rfl hne
      | cons c cs =>
        obtain rfl := honly c mem_cons_self
        cases cs with
        | nil => rfl
        | cons d ds =>
          obtain rfl := honly d (by simp)
          exact absurd le_rfl ((List.pairwise_cons.mp h.apart).1 d mem_cons_self).1
    rw [hsingle]
    exact distributed_single bv.negate

/-- The list has exactly the minimal sets of conditions that no column has all true. -/
theorem conflicts_exact (t : BoolTable n) (h : t.cols ≠ []) :
    (t.generateMinimalFalseBVList.map trueRows).Nodup ∧
      (∀ s, s ∈ t.generateMinimalFalseBVList.map trueRows ↔ Minimal t.Conflict s) ∧
      ((∃ col ∈ t.cols, ∀ i, col i = .trueValue) → t.generateMinimalFalseBVList = []) ∧
      (t.generateMaximalTrueBVList.map trueRows).Nodup ∧
      ∀ s, s ∈ t.generateMaximalTrueBVList.map trueRows ↔
        Maximal (fun s => ∃ col ∈ t.cols, trueRows col = s) s := by
  have hmax : IsFrontier trueRows t.cols t.generateMaximalTrueBVList :=
    isFrontier isTrueSubsetOf_iff t.cols
  have hne : t.generateMaximalTrueBVList ≠ [] := by
    obtain ⟨col,hcol⟩ := exists_mem_of_ne_nil _ h
    obtain ⟨bv,hbv,-⟩ := hmax.covers col hcol
    exact ne_nil_of_mem hbv
  have hdist := distributed_negate hmax hne
  have hmin : IsFrontier (fun bv => OrderDual.toDual (trueRows bv))
      ((t.generateMaximalTrueBVList.map negate).foldl BoolTable.distribute [])
      t.generateMinimalFalseBVList := by
    rw [generateMinimalFalseBVList]
    simp only [List.isEmpty_iff,hne,if_false]
    exact isFrontier (fun a b => isTrueSubsetOf_iff b a) _
  have hexact : ∀ s, s ∈ t.generateMinimalFalseBVList.map trueRows ↔ Minimal t.Conflict s := by
    intro s
    have hiff := hmin.mem_iff (OrderDual.toDual s)
    have hconflict : ∀ bv ∈ _, t.Conflict (trueRows bv) := fun bv hbv =>
      (hits_negate hmax).mp (hdist.hits bv hbv)
    constructor
    · intro hs
      obtain ⟨⟨bv,hbv,heq⟩,hle⟩ := hiff.mp hs
      refine ⟨(OrderDual.toDual.injective heq) ▸ hconflict bv hbv,fun s' hs' hsub => ?_⟩
      obtain ⟨bv',hbv',hsub'⟩ := hdist.covers s' ((hits_negate hmax).mpr hs')
      have hback : s ≤ trueRows bv' := hle ⟨bv',hbv',rfl⟩ (hsub'.trans hsub)
      exact hback.trans hsub'
    · rintro ⟨hs,hle⟩
      obtain ⟨bv,hbv,hsub⟩ := hdist.covers s ((hits_negate hmax).mpr hs)
      have heq : trueRows bv = s := hsub.antisymm (hle (hconflict bv hbv) hsub)
      refine hiff.mpr ⟨⟨bv,hbv,congrArg OrderDual.toDual heq⟩,?_⟩
      rintro _ ⟨bv',hbv',rfl⟩ hsub'
      exact hle (hconflict bv' hbv') hsub'
  refine ⟨hmin.nodup,hexact,?_,hmax.nodup,hmax.mem_iff⟩
  rintro ⟨col,hcol,hall⟩
  by_contra hnil
  obtain ⟨bv,hbv⟩ := exists_mem_of_ne_nil _ hnil
  obtain ⟨i,-,hi⟩ := ((hexact _).mp (mem_map_of_mem hbv)).1 col hcol
  exact hi (hall i)

theorem conflicts_exact_sample : ∃ t : BoolTable 2,
    (t.generateMinimalFalseBVList.map trueRows).Nodup ∧
      (∀ s, s ∈ t.generateMinimalFalseBVList.map trueRows ↔ Minimal t.Conflict s) ∧
      t.generateMinimalFalseBVList.map trueRows = [{0,1}] := by
  refine ⟨⟨[![.trueValue,.falseValue],![.undefinedValue,.trueValue]]⟩,?_⟩
  have h := conflicts_exact ⟨[![.trueValue,.falseValue],![.undefinedValue,.trueValue]]⟩ (by simp)
  exact ⟨h.1,h.2.1,by decide⟩

end BoolTable

end Condor.ClassAdAnalysis
