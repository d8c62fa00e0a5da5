import Condor.Procd.Shape

/-!
# How often to take a snapshot

The daemon asks for the least of the intervals that its families want, where -1 stands for no
limit.
-/

namespace Condor.Procd

open Condor.Lib List

def combine (retValue childValue : Int) : Int :=
  if retValue = -1 then childValue else if childValue < retValue then childValue else retValue

def childrenInterval (l : TreeLinks Nat) (interval : Nat → Int) :
    Nat → Int → Option Nat → Option Int
  | 0, _, _ => none
  | _ + 1, retValue, none => some retValue
  | n + 1, retValue, some child => do
    let childValue ← childrenInterval l interval n (interval child) (l.child child)
    childrenInterval l interval n (combine retValue childValue) (l.sibling child)

/-- `get_snapshot_interval`, where each family has its `m_max_snapshot_interval`. -/
def Monitor.getSnapshotInterval (m : Monitor) (interval : Nat → Int) : Option Int :=
  childrenInterval m.links interval m.nextFamily (interval m.tree) (m.links.child m.tree)

/-- The least value, where -1 stands for none. -/
def Least (vs : List Int) (r : Int) : Prop :=
  (r = -1 ∧ ∀ v ∈ vs, v = -1) ∨ (r ∈ vs ∧ 0 ≤ r ∧ ∀ v ∈ vs, 0 ≤ v → r ≤ v)

namespace Least

variable {us vs : List Int} {r s : Int}

theorem neg_iff (h : Least vs r) : r = -1 ↔ ∀ v ∈ vs, v = -1 := by
  constructor
  · intro hr
    rcases h with ⟨-,hall⟩ | ⟨-,hr0,-⟩
    · exact hall
    · omega
  · intro hall
    rcases h with ⟨hr,-⟩ | ⟨hmem,-,-⟩
    · exact hr
    · exact hall r hmem

theorem ge (h : Least vs r) : -1 ≤ r := by
  rcases h with ⟨hr,-⟩ | ⟨-,hr,-⟩ <;> omega

theorem single (h : -1 ≤ r) : Least [r] r := by
  by_cases hr : r = -1
  · exact .inl ⟨hr,by simp [hr]⟩
  · exact .inr ⟨by simp,by omega,by simp⟩

theorem append (h : Least us r) (h' : Least (r :: vs) s) : Least (us ++ vs) s := by
  rcases h' with ⟨hs,hall⟩ | ⟨hmem,hs,hall⟩
  · refine .inl ⟨hs,fun v hv => ?_⟩
    rcases List.mem_append.mp hv with hv | hv
    · exact h.neg_iff.mp (hall r mem_cons_self) v hv
    · exact hall v (mem_cons_of_mem _ hv)
  · refine .inr ⟨?_,hs,fun v hv hv0 => ?_⟩
    · rcases List.mem_cons.mp hmem with rfl | hmem
      · rcases h with ⟨hneg,-⟩ | ⟨hin,-,-⟩
        · omega
        · exact mem_append_left _ hin
      · exact mem_append_right _ hmem
    · rcases List.mem_append.mp hv with hv | hv
      · have hr : r ≤ v ∧ 0 ≤ r := by
          rcases h with ⟨hneg,hnone⟩ | ⟨-,hr0,hle⟩
          · have := hnone v hv
            omega
          · exact ⟨hle v hv hv0,hr0⟩
        have := hall r mem_cons_self hr.2
        omega
      · exact hall v (mem_cons_of_mem _ hv) hv0

theorem congr (h : Least us r) (heq : ∀ v, v ∈ us ↔ v ∈ vs) : Least vs r := by
  simpa only [Least,heq] using h

theorem combine (hr : -1 ≤ r) (hs : 0 ≤ s) : Least [r,s] (Procd.combine r s) := by
  unfold Procd.combine
  split
  next h => exact .inr ⟨by simp,hs,by simp [h]⟩
  next h =>
    split
    next hlt => exact .inr ⟨by simp,hs,by simp; omega⟩
    next hle => exact .inr ⟨by simp,by omega,by simp; omega⟩

end Least

private theorem combine_neg {r : Int} (hr : -1 ≤ r) : combine r (-1) = -1 := by
  unfold combine
  split
  · rfl
  · rw [if_pos (by omega)]

section

variable (interval : Nat → Int)

def loopResult (retValue : Int) : Forest Nat → Int
  | .nil => retValue
  | .cons x c s => loopResult (combine retValue (loopResult (interval x) c)) s

def EndsUnlimited (x : Nat) (c : Forest Nat) : Prop :=
  interval ((x :: c.ids).getLast (by simp)) = -1
deriving Decidable

def Limited : Forest Nat → Prop
  | .nil => True
  | .cons x c s => ¬EndsUnlimited interval x c ∧ Limited s

instance Limited.instDecidable : ∀ f : Forest Nat, Decidable (Limited interval f)
  | .nil => .isTrue trivial
  | .cons x c s =>
    have : Decidable (Limited interval s) := instDecidable s
    inferInstanceAs (Decidable (¬EndsUnlimited interval x c ∧ Limited interval s))

/-- The families that are heard: none of the trees behind a family, its children or later siblings
on its way up has a last node without a limit. -/
def heard : Forest Nat → List Nat
  | .nil => []
  | .cons x c s =>
    (if Limited interval s then (if Limited interval c then [x] else []) ++ heard c else []) ++
      heard s

variable {interval : Nat → Int} {l : TreeLinks Nat} {q p : Option Nat} {f : Forest Nat} {r : Int}

private theorem childrenInterval_eq {n : Nat} (h : l.Holds q p f) (hn : f.ids.length < n)
    (r : Int) :
    childrenInterval l interval n r p = some (loopResult interval r f) := by
  induction f generalizing n q p r with
  | nil =>
    obtain rfl : p = none := h
    obtain ⟨n,rfl⟩ : ∃ k, n = k + 1 := ⟨n - 1,by simp at hn; omega⟩
    rfl
  | cons x c s ihc ihs =>
    obtain ⟨rfl,-,hc,hs⟩ := h
    simp only [Forest.ids_cons,length_cons,length_append] at hn
    obtain ⟨n,rfl⟩ : ∃ k, n = k + 1 := ⟨n - 1,by omega⟩
    rw [childrenInterval,ihc hc (by omega)]
    exact ihs hs (by omega) _

private theorem loopResult_ge (hf : ∀ x ∈ f.ids, -1 ≤ interval x) (hr : -1 ≤ r) :
    -1 ≤ loopResult interval r f := by
  induction f generalizing r with
  | nil => exact hr
  | cons x c s ihc ihs =>
    rw [loopResult]
    have hv : -1 ≤ loopResult interval (interval x) c :=
      ihc (fun y hy => hf y (by simp [hy])) (hf x (by simp))
    apply ihs (fun y hy => hf y (by simp [hy]))
    unfold combine
    split
    · exact hv
    · split <;> omega

private theorem loopResult_neg (hf : ∀ x ∈ f.ids, -1 ≤ interval x) (hr : -1 ≤ r) :
    loopResult interval r f = -1 ↔ (r :: f.ids.map interval).getLast (by simp) = -1 := by
  induction f generalizing r with
  | nil => simp [loopResult]
  | cons x c s ihc ihs =>
    have hc : ∀ y ∈ c.ids, -1 ≤ interval y := fun y hy => hf y (by simp [hy])
    have hv := loopResult_ge hc (hf x (by simp))
    have hcombine : -1 ≤ combine r (loopResult interval (interval x) c) ∧
        (combine r (loopResult interval (interval x) c) = -1 ↔
          loopResult interval (interval x) c = -1) := by
      unfold combine
      split
      next h => simp [hv]
      next h => split <;> omega
    rw [loopResult,ihs (fun y hy => hf y (by simp [hy])) hcombine.1]
    by_cases hs : s.ids = []
    · simp only [hs,map_nil,getLast_singleton,hcombine.2,ihc hc (hf x (by simp)),
        Forest.ids_cons,append_nil,map_cons]
      rw [getLast_cons (a := r) (by simp)]
    · have hne : s.ids.map interval ≠ [] := by simpa using hs
      rw [getLast_cons hne]
      simp only [Forest.ids_cons,map_cons,map_append]
      rw [getLast_cons (by simp),getLast_cons (by simpa using fun _ => hs),
        getLast_append_of_ne_nil _ hne]

theorem loopResult_neg_iff {x : Nat} (hf : ∀ y ∈ x :: f.ids, -1 ≤ interval y) :
    loopResult interval (interval x) f = -1 ↔ EndsUnlimited interval x f := by
  rw [loopResult_neg (fun y hy => hf y (by simp [hy])) (hf x (by simp))]
  unfold EndsUnlimited
  rw [← getLast_map (f := interval) (by simp)]
  simp

private theorem least_heard (hf : ∀ x ∈ f.ids, -1 ≤ interval x) (hr : -1 ≤ r) :
    Least ((if Limited interval f then [r] else []) ++ (heard interval f).map interval)
      (loopResult interval r f) := by
  induction f generalizing r with
  | nil => simpa [Limited,heard,loopResult] using Least.single hr
  | cons x c s ihc ihs =>
    have hc : ∀ y ∈ c.ids, -1 ≤ interval y := fun y hy => hf y (by simp [hy])
    have hs : ∀ y ∈ s.ids, -1 ≤ interval y := fun y hy => hf y (by simp [hy])
    have hx : -1 ≤ interval x := hf x (by simp)
    have hv := loopResult_ge hc hx
    have hneg : loopResult interval (interval x) c = -1 ↔ EndsUnlimited interval x c :=
      loopResult_neg_iff (by simpa [hx] using hc)
    have hchild := ihc hc hx
    rw [loopResult]
    simp only [Limited,heard]
    by_cases hls : Limited interval s
    · by_cases hend : EndsUnlimited interval x c
      · -- the child answers that it has no limit, and the loop starts again
        rw [hneg.mpr hend] at hchild ⊢
        rw [combine_neg hr]
        have hrest := ihs hs (r := -1) (by omega)
        rw [if_pos hls] at hrest
        have := hchild.append hrest
        simp only [hend,not_true,false_and,if_false,hls,if_true,nil_append]
        apply this.congr
        intro v
        split <;> simp
      · have hv0 : 0 ≤ loopResult interval (interval x) c := by
          have := mt hneg.mp hend
          omega
        have hboth := Least.combine hr hv0
        have hrest := ihs hs (r := combine r (loopResult interval (interval x) c)) hboth.ge
        rw [if_pos hls] at hrest
        have hlist : Least (loopResult interval (interval x) c ::
            ([r] ++ (heard interval s).map interval)) _ :=
          (hboth.append hrest).congr (by intro v; simp; tauto)
        apply (hchild.append hlist).congr
        intro v
        grind
    · have := ihs hs (r := combine r (loopResult interval (interval x) c)) (by
        unfold combine
        split
        · exact hv
        · split <;> omega)
      simpa [hls] using this

private theorem heard_mem {x : Nat} (h : x ∈ heard interval f) : x ∈ f.ids := by
  induction f with
  | nil => simp [heard] at h
  | cons y c s ihc ihs =>
    simp only [heard,mem_append] at h
    rcases h with h | h
    · split at h
      · rcases List.mem_append.mp h with h | h
        · split at h
          · simp_all
          · simp at h
        · simp [ihc h]
      · simp at h
    · simp [ihs h]

/-- The interval that the daemon gets is the least one exactly if no family has a limit, or if a
family with the least limit is heard. -/
theorem Monitor.getSnapshotInterval_least_iff {m : Monitor} {C : Forest Nat}
    (hm : m.links.Holds none (some m.tree) (.cons m.tree C .nil))
    (hlen : C.ids.length < m.nextFamily) (hI : ∀ g ∈ m.tree :: C.ids, -1 ≤ interval g) :
    ∃ r, m.getSnapshotInterval interval = some r ∧
      (Least ((m.tree :: C.ids).map interval) r ↔
        (∀ g ∈ m.tree :: C.ids, interval g = -1) ∨
          ∃ z ∈ heard interval (.cons m.tree C .nil), 0 ≤ interval z ∧
            ∀ g ∈ m.tree :: C.ids, 0 ≤ interval g → interval z ≤ interval g) := by
  refine ⟨loopResult interval (interval m.tree) C,childrenInterval_eq hm.2.2.1 hlen _,?_⟩
  have hleast : Least ((heard interval (.cons m.tree C .nil)).map interval)
      (loopResult interval (interval m.tree) C) := by
    apply (least_heard (fun x hx => hI x (by simp [hx])) (hI m.tree (by simp))).congr
    intro v
    simp only [heard,Limited]
    split <;> simp
  have hin : ∀ z ∈ heard interval (.cons m.tree C .nil), z ∈ m.tree :: C.ids := by
    intro z hz
    simpa using heard_mem hz
  constructor
  · intro h
    rcases h with ⟨-,hall⟩ | ⟨-,hr,hmin⟩
    · exact .inl (by simpa using hall)
    · rcases hleast with ⟨hneg,-⟩ | ⟨hmem,-,-⟩
      · omega
      · obtain ⟨z,hz,hzr⟩ := List.mem_map.mp hmem
        rw [← hzr] at hr hmin
        exact .inr ⟨z,hz,hr,fun g hg hg0 => hmin _ (mem_map_of_mem hg) hg0⟩
  · intro h
    rcases hleast with ⟨hneg,hnone⟩ | ⟨hmem,hr,hmin⟩
    · rcases h with hall | ⟨z,hz,hz0,-⟩
      · exact .inl ⟨hneg,by simpa using hall⟩
      · have := hnone _ (mem_map_of_mem hz)
        omega
    · obtain ⟨y,hy,hyr⟩ := List.mem_map.mp hmem
      rcases h with hall | ⟨z,hz,hz0,hzmin⟩
      · have := hall y (hin y hy)
        omega
      · refine .inr ⟨?_,hr,?_⟩
        · rw [← hyr]
          exact mem_map_of_mem (hin y hy)
        · intro v hv hv0
          obtain ⟨g,hg,rfl⟩ := List.mem_map.mp hv
          have hzr := hmin _ (mem_map_of_mem hz) hz0
          have hzg := hzmin g hg hv0
          omega

end

def parentAndChild : Monitor where
  exceptIfPidDies := true
  nextFamily := 2
  tree := 0
  links :=
    { parent := fun g => if g = 1 then some 0 else none
      child := fun g => if g = 0 then some 1 else none
      sibling := fun _ => none }

private theorem parentAndChild_holds :
    parentAndChild.links.Holds none (some 0) (.cons 0 (.cons 1 .nil .nil) .nil) :=
  ⟨rfl,rfl,⟨rfl,rfl,rfl,rfl⟩,rfl⟩

/-- The child wants a snapshot each minute, and the root has no limit. -/
theorem Monitor.getSnapshotInterval_least_child :
    ∃ r, parentAndChild.getSnapshotInterval (fun g => if g = 1 then 60 else -1) = some r ∧
      (Least ([0,1].map (fun g : Nat => if g = 1 then (60 : Int) else -1)) r ↔
        (∀ g ∈ [0,1], (if g = 1 then (60 : Int) else -1) = -1) ∨
          ∃ z ∈ heard (fun g => if g = 1 then 60 else -1) (.cons 0 (.cons 1 .nil .nil) .nil),
            (0 : Int) ≤ (if z = 1 then 60 else -1) ∧
              ∀ g ∈ [0,1], (0 : Int) ≤ (if g = 1 then 60 else -1) →
                (if z = 1 then 60 else -1) ≤ (if g = 1 then (60 : Int) else -1)) :=
  Monitor.getSnapshotInterval_least_iff (m := parentAndChild) parentAndChild_holds (by decide)
    (by decide)

/-- The root wants a snapshot each minute, and the child without a limit makes the daemon forget
it. -/
theorem Monitor.getSnapshotInterval_forgets :
    parentAndChild.getSnapshotInterval (fun g => if g = 0 then 60 else -1) = some (-1) ∧
      ¬Least ([0,1].map (fun g : Nat => if g = 0 then (60 : Int) else -1)) (-1) := by
  refine ⟨by decide,fun h => ?_⟩
  have := h.neg_iff.mp rfl 60 (by decide)
  omega

end Condor.Procd
