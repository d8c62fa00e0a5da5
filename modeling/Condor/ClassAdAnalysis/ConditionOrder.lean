import Mathlib.Data.List.Perm.Basic
import Mathlib.Data.List.Nodup
import Mathlib.Data.List.GetD
import Mathlib.Data.List.TakeWhile
import Mathlib.Algebra.Order.Group.Int

/-!
# The order of the conditions

The analysis prints the conditions of a profile by their numbers of matches and names them in the
conflicts by their places in that list.
-/

namespace Condor.ClassAdAnalysis

open List Option

/-- The rounds over the sorted list behind its first part, the condition `index` being placed. -/
def insertLoop (numberOfMatches : Nat → Int) (index : Nat) (mapList : List Nat) :
    List Nat → List Nat → List Nat × List Nat
  | before, [] => (before,mapList)
  | before, sortedCond :: rest =>
    if numberOfMatches index < numberOfMatches sortedCond then
      (before ++ index :: sortedCond :: rest,index :: mapList)
    else if rest = [] then (before ++ [sortedCond,index],mapList ++ [index])
    else insertLoop numberOfMatches index mapList (before ++ [sortedCond]) rest

/-- One round of the outer loop; the conditions are named by their places in the profile. -/
def placeCondition (numberOfMatches : Nat → Int) (lists : List Nat × List Nat) (index : Nat) :
    List Nat × List Nat :=
  if lists.1 = [] then ([index],lists.2 ++ [index])
  else insertLoop numberOfMatches index lists.2 [] lists.1

/-- `sortedCondList` and `mapList`. -/
def sortConditions (numberOfMatches : Nat → Int) (n : Nat) : List Nat × List Nat :=
  (List.range n).foldl (placeCondition numberOfMatches) ([],[])

/-- `condMap[index] = i` for the places `i` on. -/
def fillMap : List Nat → Nat → List Nat → List Nat
  | [], _, condMap => condMap
  | index :: mapList, i, condMap => fillMap mapList (i + 1) (condMap.set index i)

def condMap (numberOfMatches : Nat → Int) (n : Nat) : List Nat :=
  fillMap (sortConditions numberOfMatches n).2 0 (List.replicate n 0)

/-- The rounds of `IndexSet::Translate`; a set is the list of its bits. -/
def translateLoop (newSize : Nat) : List Bool → List Nat → List Bool → Option (List Bool)
  | inSet :: is, index :: map, result =>
    if index ≥ newSize then none
    else translateLoop newSize is map (if inSet then result.set index true else result)
  | _, _, result => some result

def translate (is : List Bool) (map : List Nat) (mapSize newSize : Nat) : Option (List Bool) :=
  if mapSize ≠ is.length then none
  else if newSize = 0 then none
  else translateLoop newSize is map (List.replicate newSize false)

def printedConflict (numberOfMatches : Nat → Int) (n : Nat) (rawIS : List Bool) : List Nat :=
  match translate rawIS (condMap numberOfMatches n) n n with
  | none => []
  | some sortedIS => ((List.range n).filter fun i => sortedIS.getD i false).map (· + 1)

/-- The sorted list holds every condition by its number of matches, the map gives the places in it,
and a conflict prints the lines of its conditions. -/
structure NumberedRight (numberOfMatches : Nat → Int) (n : Nat) : Prop where
  complete : (sortConditions numberOfMatches n).1.Perm (List.range n)
  sorted : (sortConditions numberOfMatches n).1.Pairwise
    fun i j => numberOfMatches i ≤ numberOfMatches j
  map_eq : ∀ j < n, (condMap numberOfMatches n)[j]? =
    some ((sortConditions numberOfMatches n).1.idxOf j)
  conflicts : ∀ rawIS : List Bool, rawIS.length = n →
    printedConflict numberOfMatches n rawIS = ((List.range n).filter fun i =>
      (sortConditions numberOfMatches n).1[i]?.any (rawIS.getD · false)).map (· + 1)

section

variable (m : Nat → Int)

private theorem insertLoop_eq (k : Nat) (mapList before : List Nat) {rest : List Nat}
    (h : rest ≠ []) :
    insertLoop m k mapList before rest =
      (before ++ (rest.takeWhile (m · ≤ m k) ++ k :: rest.dropWhile (m · ≤ m k)),
        if ∀ s ∈ rest, m s ≤ m k then mapList ++ [k] else k :: mapList) := by
  induction rest generalizing before with
  | nil => exact absurd rfl h
  | cons s rest ih =>
    rw [insertLoop]
    by_cases hs : m k < m s
    · simp [hs,hs.not_ge]
    rw [if_neg hs]
    replace hs := not_lt.mp hs
    by_cases hr : rest = []
    · simp [hr,hs]
    · rw [if_neg hr,ih _ hr]
      simp [hs]

private theorem placeCondition_eq (lists : List Nat × List Nat) (k : Nat) :
    placeCondition m lists k =
      (lists.1.takeWhile (m · ≤ m k) ++ k :: lists.1.dropWhile (m · ≤ m k),
        if ∀ s ∈ lists.1, m s ≤ m k then lists.2 ++ [k] else k :: lists.2) := by
  rw [placeCondition]
  split_ifs with h h' h'
  · simp [h]
  · exact absurd (by simp [h]) h'
  · rw [insertLoop_eq m k _ _ h,if_pos h',nil_append]
  · rw [insertLoop_eq m k _ _ h,if_neg h',nil_append]

private theorem sortConditions_succ (n : Nat) :
    sortConditions m (n + 1) = placeCondition m (sortConditions m n) n := by
  rw [sortConditions,range_succ,foldl_append]
  rfl

theorem lt_of_mem_dropWhile {l : List Nat} {k : Nat} (h : l.Pairwise fun i j => m i ≤ m j) :
    ∀ s ∈ l.dropWhile (m · ≤ m k), m k < m s := by
  induction l with
  | nil => simp
  | cons a l ih =>
    obtain ⟨ha,hl⟩ := List.pairwise_cons.mp h
    by_cases hak : m a ≤ m k
    · simpa [hak] using ih hl
    · intro s hs
      rw [dropWhile_cons_of_neg (by simpa using hak)] at hs
      rcases List.mem_cons.mp hs with rfl | hs
      · exact not_le.mp hak
      · exact (not_le.mp hak).trans_le (ha s hs)

private theorem sortConditions_spec (n : Nat) :
    (sortConditions m n).1.Perm (List.range n) ∧ (sortConditions m n).2.Perm (List.range n) ∧
      (sortConditions m n).1.Pairwise fun i j => m i ≤ m j := by
  induction n with
  | zero => exact ⟨List.Perm.refl _,List.Perm.refl _,List.Pairwise.nil⟩
  | succ n ih =>
    obtain ⟨hsorted,hmap,hle⟩ := ih
    rw [sortConditions_succ,placeCondition_eq,range_succ]
    refine ⟨?_,?_,?_⟩
    · refine List.perm_middle.trans ?_
      rw [takeWhile_append_dropWhile]
      exact (hsorted.cons n).trans (perm_append_singleton n _).symm
    · dsimp only
      split_ifs
      · exact hmap.append_right [n]
      · exact (hmap.cons n).trans (perm_append_singleton n _).symm
    · have hlt := lt_of_mem_dropWhile m hle (k := n)
      rw [pairwise_append,pairwise_cons]
      refine ⟨hle.sublist (takeWhile_sublist _),⟨fun s hs => (hlt s hs).le,
        hle.sublist (dropWhile_sublist _)⟩,fun i hi j hj => ?_⟩
      have hi : m i ≤ m n := by simpa using mem_takeWhile_imp hi
      rcases List.mem_cons.mp hj with rfl | hj
      · exact hi
      · exact hi.trans (hlt j hj).le

def GoesToEnd (j : Nat) : Prop := (∀ i < j, m i ≤ m j) ∨ ∀ i < j, m j < m i

theorem lists_agree_iff (n : Nat) :
    (sortConditions m n).2 = (sortConditions m n).1 ↔ ∀ j < n, GoesToEnd m j := by
  induction n with
  | zero => exact iff_of_true rfl (by simp)
  | succ n ih =>
    obtain ⟨hsorted,-,hle⟩ := sortConditions_spec m n
    have hmem : ∀ i, i ∈ (sortConditions m n).1 ↔ i < n := fun i => by
      rw [hsorted.mem_iff,mem_range]
    rw [sortConditions_succ,placeCondition_eq,Nat.forall_lt_succ_right,← ih]
    dsimp only
    by_cases hall : ∀ s ∈ (sortConditions m n).1, m s ≤ m n
    · -- behind all others, in both lists
      rw [if_pos hall,List.takeWhile_eq_self_iff.mpr (by simpa using hall),
        List.dropWhile_eq_nil_iff.mpr (by simpa using hall),append_left_inj]
      exact (and_iff_left (Or.inl fun i hi => hall i ((hmem i).mpr hi))).symm
    rw [if_neg hall]
    rcases hl : (sortConditions m n).1 with _ | ⟨a,l⟩
    · exact absurd (by simp [hl]) hall
    rw [hl] at hle hall hmem
    by_cases ha : m a ≤ m n
    · -- in the middle of the one list and in front in the other
      have han : a ≠ n := ((hmem a).mp mem_cons_self).ne
      rw [takeWhile_cons_of_pos (by simpa using ha)]
      refine iff_of_false (fun h => han (List.cons.inj h).1.symm) fun h => ?_
      rcases h.2 with h | h
      · exact hall fun s hs => h s ((hmem s).mp hs)
      · exact absurd (h a ((hmem a).mp mem_cons_self)) (not_lt.mpr ha)
    · rw [takeWhile_cons_of_neg (by simpa using ha),
        dropWhile_cons_of_neg (by simpa using ha),nil_append,cons_inj_right]
      refine (and_iff_left (Or.inr fun i hi => ?_)).symm
      rcases List.mem_cons.mp ((hmem i).mpr hi) with rfl | hil
      · exact not_le.mp ha
      · exact (not_le.mp ha).trans_le ((List.pairwise_cons.mp hle).1 i hil)

end

private theorem getElem?_fillMap {mapList : List Nat} (hn : mapList.Nodup) (i : Nat) (a : List Nat)
    (hfit : ∀ j ∈ mapList, j < a.length) (j : Nat) :
    (fillMap mapList i a)[j]? = if j ∈ mapList then some (i + mapList.idxOf j) else a[j]? := by
  induction mapList generalizing i a with
  | nil => simp [fillMap]
  | cons k mapList ih =>
    obtain ⟨hk,hn⟩ := List.nodup_cons.mp hn
    rw [fillMap,ih hn _ _ fun j hj => by
      rw [length_set]
      exact hfit j (mem_cons_of_mem k hj)]
    rcases eq_or_ne j k with rfl | hjk
    · rw [if_neg hk,getElem?_set_self (hfit j mem_cons_self)]
      simp
    · rw [getElem?_set_ne hjk.symm]
      simp [hjk,idxOf_cons_ne _ hjk.symm,Nat.add_assoc,Nat.add_comm 1]

private theorem condMap_eq (m : Nat → Int) {n j : Nat} (hj : j < n) :
    (condMap m n)[j]? = some ((sortConditions m n).2.idxOf j) := by
  obtain ⟨-,hmap,-⟩ := sortConditions_spec m n
  rw [condMap,getElem?_fillMap (hmap.nodup_iff.mpr nodup_range) _ _ (by
    simpa using fun j hj => List.mem_range.mp (hmap.mem_iff.mp hj)),
    if_pos (hmap.mem_iff.mpr (List.mem_range.mpr hj)),Nat.zero_add]

theorem length_fillMap (mapList : List Nat) (i : Nat) (a : List Nat) :
    (fillMap mapList i a).length = a.length := by
  induction mapList generalizing i a with
  | nil => rfl
  | cons k mapList ih => rw [fillMap,ih,length_set]

private theorem translateLoop_spec {newSize : Nat} {is : List Bool} {map : List Nat}
    (hlen : is.length = map.length) (hmap : ∀ k ∈ map, k < newSize) (result : List Bool)
    (hr : result.length = newSize) :
    ∃ r, translateLoop newSize is map result = some r ∧ r.length = newSize ∧
      ∀ i, i < newSize →
        (r.getD i false = true ↔ result.getD i false = true ∨ (true,i) ∈ is.zip map) := by
  induction is generalizing map result with
  | nil => exact ⟨result,by cases map <;> rfl,hr,by simp⟩
  | cons b is ih =>
    rcases map with _ | ⟨k,map⟩
    · simp at hlen
    obtain ⟨hk,hmap⟩ := List.forall_mem_cons.mp hmap
    rw [translateLoop,if_neg (not_le.mpr hk)]
    obtain ⟨r,hr,hlr,hspec⟩ := ih (by simpa using hlen) hmap
      (if b then result.set k true else result) (by split_ifs <;> simp [hr])
    refine ⟨r,hr,hlr,fun i hi => ?_⟩
    rw [hspec i hi,zip_cons_cons,mem_cons]
    cases b
    · simp
    · rcases eq_or_ne k i with rfl | hki
      · simp [List.getD, *]
      · simp [List.getD,getElem?_set_ne hki,hki.symm]

private theorem printedConflict_eq {m : Nat → Int} {n : Nat}
    (h : (sortConditions m n).2 = (sortConditions m n).1) {rawIS : List Bool}
    (hraw : rawIS.length = n) :
    printedConflict m n rawIS = ((List.range n).filter fun i =>
      (sortConditions m n).1[i]?.any (rawIS.getD · false)).map (· + 1) := by
  obtain ⟨hsorted,-,-⟩ := sortConditions_spec m n
  have hmem : ∀ j, j ∈ (sortConditions m n).1 ↔ j < n := fun j => by
    rw [hsorted.mem_iff,mem_range]
  have hcond : ∀ j < n, (condMap m n)[j]? = some ((sortConditions m n).1.idxOf j) :=
    fun j hj => by rw [condMap_eq m hj,h]
  have hlen : (condMap m n).length = n := by rw [condMap,length_fillMap,length_replicate]
  have hplace : ∀ i j, (sortConditions m n).1[i]? = some j ↔
      j < n ∧ (sortConditions m n).1.idxOf j = i := by
    intro i j
    constructor
    · intro hi
      obtain ⟨hlt,rfl⟩ := List.getElem?_eq_some_iff.mp hi
      exact ⟨(hmem _).mp (getElem_mem hlt),
        (hsorted.nodup_iff.mpr nodup_range).idxOf_getElem i hlt⟩
    · rintro ⟨hj,rfl⟩
      exact getElem?_idxOf ((hmem j).mpr hj)
  rw [printedConflict,translate,if_neg (not_not.mpr hraw.symm)]
  by_cases hn : n = 0
  · simp [hn]
  have hbound : ∀ k ∈ condMap m n, k < n := by
    intro k hk
    obtain ⟨j,hj⟩ := List.mem_iff_getElem?.mp hk
    have hjn : j < n := hlen ▸ (List.getElem?_eq_some_iff.mp hj).1
    rw [hcond j hjn,some_inj] at hj
    have := idxOf_lt_length_of_mem ((hmem j).mpr hjn)
    rwa [hj,hsorted.length_eq,length_range] at this
  obtain ⟨r,hr,-,hspec⟩ := translateLoop_spec (hraw.trans hlen.symm) hbound
    (List.replicate n false) length_replicate
  rw [if_neg hn,hr]
  refine congrArg (List.map (· + 1)) (filter_congr fun i hi => ?_)
  rw [Bool.eq_iff_iff,hspec i (List.mem_range.mp hi),Option.any_eq_true]
  have hfalse : (List.replicate n false).getD i false = false := by
    rw [getD_eq_getElem _ _ (by simpa using hi),getElem_replicate]
  simp only [hfalse,Bool.false_eq_true,false_or,hplace]
  rw [mem_iff_getElem?]
  constructor
  · rintro ⟨j,hj⟩
    obtain ⟨hbit,hmap⟩ := List.getElem?_zip_eq_some.mp hj
    have hjn : j < n := hraw ▸ (List.getElem?_eq_some_iff.mp hbit).1
    rw [hcond j hjn,some_inj] at hmap
    exact ⟨j,⟨hjn,hmap⟩,by simp [hbit]⟩
  · rintro ⟨j,⟨hjn,hidx⟩,hbit⟩
    refine ⟨j,List.getElem?_zip_eq_some.mpr ⟨?_,by rw [hcond j hjn,hidx]⟩⟩
    rw [getD_eq_getElem _ _ (hraw.symm ▸ hjn)] at hbit
    exact List.getElem?_eq_some_iff.mpr ⟨hraw.symm ▸ hjn,hbit⟩

/-- The numbers are right exactly if every condition has at least as many matches as all the earlier
ones, or fewer than each of them. -/
theorem conditions_numbered (m : Nat → Int) (n : Nat) :
    NumberedRight m n ↔ ∀ j < n, GoesToEnd m j := by
  obtain ⟨hsorted,hmap,hle⟩ := sortConditions_spec m n
  rw [← lists_agree_iff]
  constructor
  · intro h
    refine ext_getElem (hmap.length_eq.trans hsorted.length_eq.symm) fun i h1 h2 => ?_
    have hj : (sortConditions m n).2[i] < n :=
      List.mem_range.mp (hmap.mem_iff.mp (getElem_mem h1))
    have hidx := h.map_eq _ hj
    rw [condMap_eq m hj,(hmap.nodup_iff.mpr nodup_range).idxOf_getElem i h1,
      some_inj] at hidx
    have hget := getElem?_idxOf (hsorted.mem_iff.mpr (List.mem_range.mpr hj))
    rw [← hidx,getElem?_eq_getElem h2] at hget
    exact (Option.some_inj.mp hget).symm
  · exact fun h => ⟨hsorted,hle,fun j hj => by rw [condMap_eq m hj,h],
      fun rawIS hraw => printedConflict_eq h hraw⟩

/-- The third of three conditions goes between the other two. -/
theorem conditions_misnumbered : ¬ NumberedRight ([1,3,2].getD · 0) 3 := by
  intro h
  exact absurd (h.map_eq 0 (by decide)) (by decide)

end Condor.ClassAdAnalysis
