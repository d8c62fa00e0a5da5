import Condor.Lib.RoseTree
import Condor.Utils.CString

/-!
# Accounting groups of submitters

`GetAssignedGroup` maps the name of a submitter to that of its accounting group. The answers are
kept in a map without regard to case.
-/

namespace Condor.Negotiator

open Condor.Lib List

def atSign : CChar := ⟨64,by decide⟩

def beforeLast (c : CChar) : CString → Option CString
  | [] => none
  | d :: s =>
    match beforeLast c s with
    | some p => some (d :: p)
    | none => if d = c then some [] else none

/-- `parse_group_name`: the parts between the dots. -/
def parseGroupName : CString → List CString
  | [] => [[]]
  | c :: s =>
    if c = dot then [] :: parseGroupName s
    else
      match parseGroupName s with
      | [] => [[c]]
      | p :: ps => (c :: p) :: ps

abbrev GroupTree := RoseTree CString

/-- `chmap` and `children`: the child under a part of a name. -/
def child (g : GroupTree) (part : CString) : Option GroupTree :=
  g.children.find? fun h => strcaseeq ((parseGroupName h.value).getLast?.getD []) part

def walk : GroupTree → List CString → GroupTree
  | g, [] => g
  | g, part :: path =>
    match child g part with
    | none => g
    | some h => walk h path

def computedGroup (root : GroupTree) (subname : CString) : CString :=
  match beforeLast atSign subname with
  -- a defunct group or a malformed submitter name
  | none => root.value
  | some gname =>
    match beforeLast dot gname with
    -- no group in the name
    | none => root.value
    | some gname => (walk root (parseGroupName gname)).value

abbrev GroupMap := List (CString × CString)

def initialGroups (root : GroupTree) : GroupMap :=
  (RoseTree.breadthFirst root.values.length [root]).foldl
    (fun m g => KeyedList.insert strcaseeq m g g) []

def getAssignedGroup (root : GroupTree) (m : GroupMap) (subname : CString) : CString × GroupMap :=
  match KeyedList.find strcaseeq m subname with
  | some g => (g,m)
  | none =>
    let g := computedGroup root subname
    (g,KeyedList.insert strcaseeq m subname g)

def assignedGroup (root : GroupTree) (subname : CString) : CString :=
  (KeyedList.find strcaseeq (initialGroups root) subname).getD (computedGroup root subname)

private theorem tolower_eq {b : Byte} {c : Byte} (hc : c = 64 ∨ c = 46) :
    tolower b = c ↔ b = c := by
  rw [tolower]
  split
  · next h =>
    simp only [Bool.and_eq_true,decide_eq_true_eq,UInt8.le_iff_toNat_le] at h
    have hadd : (b + 32).toNat = b.toNat + 32 := by
      rw [UInt8.toNat_add]
      have h1 : (32 : UInt8).toNat = 32 := rfl
      have h2 : (90 : UInt8).toNat = 90 := rfl
      omega
    have h1 : (65 : UInt8).toNat = 65 := rfl
    rw [← UInt8.toNat_inj,← UInt8.toNat_inj,hadd]
    rcases hc with rfl | rfl
    · have h2 : (64 : UInt8).toNat = 64 := rfl
      omega
    · have h2 : (46 : UInt8).toNat = 46 := rfl
      omega
  · exact Iff.rfl

def SameChar (a b : CChar) : Prop := tolower a.val = tolower b.val

private theorem SameChar.eq_iff {a b c : CChar} (h : SameChar a b) (hc : c = atSign ∨ c = dot) :
    a = c ↔ b = c := by
  have hcv : c.val = 64 ∨ c.val = 46 := by
    rcases hc with rfl | rfl
    · exact .inl rfl
    · exact .inr rfl
  rw [Subtype.ext_iff,Subtype.ext_iff,← tolower_eq hcv,← tolower_eq (b := b.val) hcv,h]

variable {s t : CString}

private theorem forall₂_of_strcaseeq (h : strcaseeq s t = true) :
    List.Forall₂ SameChar s t := by
  rw [strcaseeq_iff,bytes,bytes,map_map,map_map] at h
  induction s generalizing t with
  | nil =>
    cases t with
    | nil => exact .nil
    | cons b t => cases h
  | cons a s ih =>
    cases t with
    | nil => cases h
    | cons b t =>
      obtain ⟨hab,hst⟩ := List.cons_eq_cons.mp h
      exact .cons hab (ih hst)

private theorem strcaseeq_of_forall₂ (h : List.Forall₂ SameChar s t) :
    strcaseeq s t = true := by
  rw [strcaseeq_iff]
  induction h with
  | nil => rfl
  | cons hab _ ih => exact List.cons_eq_cons.mpr ⟨hab,ih⟩

private theorem beforeLast_congr {c : CChar} (hc : c = atSign ∨ c = dot)
    (h : List.Forall₂ SameChar s t) :
    Option.Rel (List.Forall₂ SameChar) (beforeLast c s) (beforeLast c t) := by
  induction h with
  | nil => exact .none
  | @cons a b s t hab hst ih =>
    rw [beforeLast,beforeLast]
    revert ih
    cases beforeLast c s <;> cases beforeLast c t <;> intro ih
    · by_cases ha : a = c
      · rw [if_pos ha,if_pos ((hab.eq_iff hc).mp ha)]
        exact .some .nil
      · rw [if_neg ha,if_neg fun hb => ha ((hab.eq_iff hc).mpr hb)]
        exact .none
    · cases ih
    · cases ih
    · cases ih with
      | some ih => exact .some (.cons hab ih)

private theorem parseGroupName_congr (h : List.Forall₂ SameChar s t) :
    List.Forall₂ (List.Forall₂ SameChar) (parseGroupName s) (parseGroupName t) := by
  induction h with
  | nil => exact .cons .nil .nil
  | @cons a b s t hab hst ih =>
    rw [parseGroupName,parseGroupName]
    by_cases ha : a = dot
    · rw [if_pos ha,if_pos ((hab.eq_iff (.inr rfl)).mp ha)]
      exact .cons .nil ih
    · rw [if_neg ha,if_neg fun hb => ha ((hab.eq_iff (.inr rfl)).mpr hb)]
      revert ih
      cases parseGroupName s <;> cases parseGroupName t <;> intro ih
      · exact .cons (.cons hab .nil) .nil
      · cases ih
      · cases ih
      · cases ih with
        | cons hp hps => exact .cons (.cons hab hp) hps

private theorem walk_congr {g : GroupTree} {ps qs : List CString}
    (h : List.Forall₂ (List.Forall₂ SameChar) ps qs) : walk g ps = walk g qs := by
  induction h generalizing g with
  | nil => rfl
  | @cons p q ps qs hpq _ ih =>
    have hchild : child g p = child g q := by
      rw [child,child]
      congr 1
      funext x
      rw [strcaseeq_comm,strcaseeq_comm _ q,strcaseeq_trans (strcaseeq_of_forall₂ hpq)]
    rw [walk,walk,hchild]
    split
    · rfl
    · exact ih

private theorem computedGroup_congr (root : GroupTree) (h : strcaseeq s t = true) :
    computedGroup root s = computedGroup root t := by
  have hat := beforeLast_congr (c := atSign) (.inl rfl) (forall₂_of_strcaseeq h)
  rw [computedGroup,computedGroup]
  revert hat
  cases beforeLast atSign s <;> cases beforeLast atSign t <;> intro hat
  · rfl
  · cases hat
  · cases hat
  · cases hat with
    | some hg =>
      have hdot := beforeLast_congr (c := dot) (.inr rfl) hg
      simp only
      revert hdot
      generalize beforeLast dot _ = x
      generalize beforeLast dot _ = y
      intro hdot
      cases hdot with
      | none => rfl
      | some hp => simp only [walk_congr (parseGroupName_congr hp)]

private theorem assignedGroup_congr (root : GroupTree) (h : strcaseeq s t = true) :
    assignedGroup root s = assignedGroup root t := by
  rw [assignedGroup,assignedGroup,computedGroup_congr root h,
    KeyedList.find_congr strcaseeq_isEquiv _ h]

structure Remembers (root : GroupTree) (m : GroupMap) : Prop where
  right : ∀ s g, KeyedList.find strcaseeq m s = some g → g = assignedGroup root s
  groups : ∀ s, KeyedList.find strcaseeq m s = none →
    KeyedList.find strcaseeq (initialGroups root) s = none

theorem remembers_initial (root : GroupTree) : Remembers root (initialGroups root) where
  right s g h := by rw [assignedGroup,h,Option.getD_some]
  groups _ h := h

theorem Remembers.getAssignedGroup {root : GroupTree} {m : GroupMap} (h : Remembers root m)
    (subname : CString) : (getAssignedGroup root m subname).1 = assignedGroup root subname ∧
      Remembers root (getAssignedGroup root m subname).2 := by
  unfold Negotiator.getAssignedGroup
  cases hf : KeyedList.find strcaseeq m subname with
  | some g => exact ⟨h.right subname g hf,h⟩
  | none =>
    have hg : computedGroup root subname = assignedGroup root subname := by
      rw [assignedGroup,h.groups subname hf,Option.getD_none]
    refine ⟨hg,fun s g hs => ?_,fun s hs => ?_⟩
    · rw [KeyedList.find_insert strcaseeq_isEquiv] at hs
      split at hs
      · next heq =>
        rw [← Option.some.inj hs,hg]
        exact assignedGroup_congr root heq
      · exact h.right s g hs
    · rw [KeyedList.find_insert strcaseeq_isEquiv] at hs
      split at hs
      · cases hs
      · exact h.groups s hs

private theorem find_groups (gs : List CString) : ∀ (m : GroupMap) (s : CString),
    KeyedList.find strcaseeq (gs.foldl (fun m g => KeyedList.insert strcaseeq m g g) m) s =
      match gs.reverse.find? fun g => strcaseeq g s with
      | some g => some g
      | none => KeyedList.find strcaseeq m s := by
  induction gs with
  | nil => intro m s; rfl
  | cons g gs ih =>
    intro m s
    rw [foldl_cons,ih,reverse_cons,find?_append,
      KeyedList.find_insert strcaseeq_isEquiv]
    cases gs.reverse.find? fun g => strcaseeq g s with
    | some g' => rfl
    | none =>
      by_cases hg : strcaseeq g s = true <;> simp [hg]

theorem mem_breadthFirst_root (root : GroupTree) (g : CString) :
    g ∈ RoseTree.breadthFirst root.values.length [root] ↔ g ∈ root.values := by
  rw [RoseTree.mem_breadthFirst _ [root] (by simp) g]
  simp

private theorem walk_mem (g : GroupTree) (path : List CString) :
    (walk g path).value ∈ g.values := by
  induction path generalizing g with
  | nil => exact RoseTree.value_mem_values g
  | cons part path ih =>
    rw [walk]
    split
    · exact RoseTree.value_mem_values g
    · next h hchild =>
      have hmem := mem_of_find?_eq_some hchild
      cases g with
      | node a cs => exact RoseTree.mem_values_node.mpr (.inr ⟨h,hmem,ih h⟩)

theorem assignedGroup_mem (root : GroupTree) (s : CString) :
    assignedGroup root s ∈ root.values := by
  rw [assignedGroup,initialGroups,find_groups]
  cases hf : (RoseTree.breadthFirst root.values.length [root]).reverse.find?
      fun g => strcaseeq g s with
  | some g =>
    have hmem := List.mem_reverse.mp (mem_of_find?_eq_some hf)
    exact (mem_breadthFirst_root root g).mp hmem
  | none =>
    simp only [KeyedList.find_nil,Option.getD_none]
    rw [computedGroup]
    split
    · exact RoseTree.value_mem_values root
    · split
      · exact RoseTree.value_mem_values root
      · exact walk_mem root _

def DistinctGroups (root : GroupTree) : Prop :=
  ∀ g ∈ root.values, ∀ h ∈ root.values, strcaseeq g h = true → g = h

theorem assignedGroup_group {root : GroupTree} (hd : DistinctGroups root) {g : CString}
    (hg : g ∈ root.values) : assignedGroup root g = g := by
  rw [assignedGroup,initialGroups,find_groups]
  cases hf : (RoseTree.breadthFirst root.values.length [root]).reverse.find?
      fun h => strcaseeq h g with
  | some h =>
    have hmem := List.mem_reverse.mp (mem_of_find?_eq_some hf)
    have heq := find?_some hf
    exact hd h ((mem_breadthFirst_root root h).mp hmem) g hg heq
  | none =>
    rw [find?_eq_none] at hf
    have hmem := List.mem_reverse.mpr ((mem_breadthFirst_root root g).mpr hg)
    exact absurd (strcaseeq_refl g) (hf g hmem)

/-- Whatever was asked before, a submitter is in the group that its name gives, in any case. -/
theorem assignedGroup_after (root : GroupTree) (asked : List CString) (subname : CString) :
    let m := asked.foldl (fun m s => (getAssignedGroup root m s).2) (initialGroups root)
    (getAssignedGroup root m subname).1 ∈ root.values ∧
      ∀ t, strcaseeq subname t = true →
        (getAssignedGroup root m t).1 = assignedGroup root subname := by
  intro m
  have hm : Remembers root m :=
    List.foldlRecOn asked _ (remembers_initial root) fun m hm s _ => (hm.getAssignedGroup s).2
  refine ⟨?_,fun t ht => ?_⟩
  · rw [(hm.getAssignedGroup subname).1]
    exact assignedGroup_mem root subname
  · rw [(hm.getAssignedGroup t).1,assignedGroup_congr root ht]

end Condor.Negotiator
