import Mathlib.Tactic.Positivity
import Mathlib.Tactic.Linarith
import Condor.Utils.CString

/-!
# The distance of a value from the accepted ones

`GetDistance` looks for the end of an interval that is nearest to a point, in one pass that also
widens the bounds by which the distance is divided. Doubles are exact.
-/

namespace Condor.ClassAdAnalysis

open List

def fltMax : Int := (2^24 - 1) * 2^104

structure Interval where
  lower : Int
  upper : Int
  openLower : Bool
  openUpper : Bool

/-- What the loop has found: the bounds, and the least distance with the value it is suggested by.
-/
structure Search where
  minD : Rat
  maxD : Rat
  minDist : Int
  upperIsNearest : Bool
  nearestVal : Option Int

def Search.turn (ptD : Int) (s : Search) (ival : Interval) : Search :=
  let minD : Rat := if ival.lower < s.minD ∧ ival.lower ≠ -fltMax then ival.lower
    else if ival.upper < s.minD then ival.upper else s.minD
  let maxD : Rat := if ival.upper > s.maxD ∧ ival.upper ≠ fltMax then ival.upper
    else if ival.lower > s.maxD then ival.lower else s.maxD
  let currDist := if ival.lower > ptD then ival.lower - ptD
    else if ival.upper < ptD then ptD - ival.upper else 0
  let upperIsNearest := if ival.lower > ptD then false
    else if ival.upper < ptD then false else s.upperIsNearest
  let nearestVal := if ival.lower > ptD ∨ ival.upper < ptD then s.nearestVal else none
  if currDist < s.minDist then
    ⟨minD,maxD,currDist,upperIsNearest,
      if currDist > 0 then some (if upperIsNearest then ival.upper else ival.lower) else none⟩
  else ⟨minD,maxD,s.minDist,upperIsNearest,nearestVal⟩

def Search.start (pt : Int) (min max : Rat) (old : Option Int) : Search :=
  ⟨if pt < min then pt else min,if pt > max then pt else max,fltMax,true,old⟩

def search (iList : List Interval) (pt : Int) (min max : Rat) (old : Option Int) : Search :=
  iList.foldl (Search.turn pt) (Search.start pt min max old)

/-- The return value, the distance, `none` for a division by zero, and the nearest value, `none`
where it is undefined. -/
def getDistance (iList : List Interval) (pt : Int) (min max : Rat) (old : Option Int) :
    Bool × Option Rat × Option Int :=
  if iList = [] then (true,some 1,none)
  else if max < min then (false,some 1,old)
  else
    let s := search iList pt min max old
    (true,if s.maxD - s.minD = 0 then none else some (s.minDist / (s.maxD - s.minD)),s.nearestVal)

/-- Sorted, disjoint intervals between integers of 32 bits or the infinite ends. -/
structure Ranged (iList : List Interval) : Prop where
  ne_nil : iList ≠ []
  lower : ∀ i ∈ iList, i.lower = -fltMax ∨ IsInt i.lower
  upper : ∀ i ∈ iList, i.upper = fltMax ∨ IsInt i.upper
  proper : ∀ i ∈ iList, i.lower < i.upper ∨
    i.lower = i.upper ∧ i.openLower = false ∧ i.openUpper = false
  sorted : iList.Pairwise fun i j =>
    i.upper < j.lower ∨ i.upper = j.lower ∧ (i.openUpper = true ∨ j.openLower = true)

def Interval.Contains (i : Interval) (pt : Int) : Prop :=
  (i.lower < pt ∨ i.lower = pt ∧ i.openLower = false) ∧
    (pt < i.upper ∨ pt = i.upper ∧ i.openUpper = false)

def IsNearestEnd (iList : List Interval) (pt e : Int) : Prop :=
  (∃ i ∈ iList, e = i.lower ∨ e = i.upper) ∧
    ∀ i ∈ iList, |e - pt| ≤ |i.lower - pt| ∧ |e - pt| ≤ |i.upper - pt|

def SuggestsNearest (iList : List Interval) (pt : Int) (min max : Rat) (old : Option Int) : Prop :=
  ((∀ i ∈ iList, ¬ i.Contains pt) → ∃ r e, getDistance iList pt min max old = (true,some r,some e) ∧
    0 < r ∧ r ≤ 1 ∧ IsNearestEnd iList pt e) ∧
  ((∃ i ∈ iList, i.lower < pt ∧ pt < i.upper) →
    getDistance iList pt min max old = (true,some 0,none))

def Interval.gap (i : Interval) (pt : Int) : Int :=
  if i.lower > pt then i.lower - pt else if i.upper < pt then pt - i.upper else 0

/-- The point is not an open end, and every interval below it is a single value or farther away
than another interval. -/
def EndFound (iList : List Interval) (pt : Int) : Prop :=
  (∀ i ∈ iList, pt ≠ i.lower ∧ pt ≠ i.upper) ∧
    ∀ i ∈ iList, i.upper < pt → i.lower < i.upper → ∃ j ∈ iList, j.gap pt < i.gap pt

/-- There is no width to divide by. -/
def NoWidth (iList : List Interval) (pt : Int) (min max : Rat) : Prop :=
  min = pt ∧ max = pt ∧ ∃ i ∈ iList, i.lower = -fltMax ∧ i.upper = fltMax

/-- The bounds reach the intervals seen and the point, and the best interval so far is the first of
the least gap. -/
structure Searched (pt : Int) (min max : Rat) (seen : List Interval) (s : Search) : Prop where
  minD_le : s.minD ≤ min ∧ s.minD ≤ pt
  le_maxD : max ≤ s.maxD ∧ pt ≤ s.maxD
  reach : ∀ i ∈ seen, s.minD ≤ i.upper ∧ i.lower ≤ s.maxD
  finite : ∀ i ∈ seen, (i.lower ≠ -fltMax → s.minD ≤ i.lower) ∧
    (i.upper ≠ fltMax → i.upper ≤ s.maxD)
  best : seen = [] ∧ s.minDist = fltMax ∨ ∃ before i after, seen = before ++ i :: after ∧
    (∀ j ∈ before, i.gap pt < j.gap pt) ∧ (∀ j ∈ after, i.gap pt ≤ j.gap pt) ∧
    s.minDist = i.gap pt ∧ s.nearestVal = if 0 < i.gap pt then some i.lower else none

private theorem gap_nonneg (i : Interval) (pt : Int) : 0 ≤ i.gap pt := by
  rw [Interval.gap]
  split_ifs <;> omega

theorem Searched.start (pt : Int) (min max : Rat) (old : Option Int) :
    Searched pt min max [] (Search.start pt min max old) := by
  refine ⟨?_,?_,by simp,by simp,.inl ⟨rfl,rfl⟩⟩ <;> simp only [Search.start] <;>
    split_ifs <;> constructor <;> linarith

private theorem turn_minDist (pt : Int) (s : Search) (i : Interval) :
    (s.turn pt i).minDist = if i.gap pt < s.minDist then i.gap pt else s.minDist := by
  show Search.minDist (if i.gap pt < s.minDist then _ else _) = _
  rw [apply_ite Search.minDist]
  rfl

private theorem turn_nearestVal (pt : Int) (s : Search) (i : Interval) :
    (s.turn pt i).nearestVal =
      if i.gap pt < s.minDist then if 0 < i.gap pt then some i.lower else none
      else if i.gap pt = 0 then none else s.nearestVal := by
  simp only [Search.turn,Interval.gap]
  rcases lt_or_ge pt i.lower with h | h
  · simp only [gt_iff_lt,h,true_or,if_true,Int.sub_pos.mpr h,Bool.false_eq_true,if_false,
      (Int.sub_pos.mpr h).ne']
    split_ifs <;> rfl
  rcases lt_or_ge i.upper pt with h' | h'
  · simp only [gt_iff_lt,h.not_gt,h',or_true,if_true,if_false,Int.sub_pos.mpr h',
      Bool.false_eq_true,(Int.sub_pos.mpr h').ne']
    split_ifs <;> rfl
  · simp only [gt_iff_lt,h.not_gt,h'.not_gt,or_self,if_false,lt_irrefl,if_true]
    split_ifs <;> rfl

private theorem turn_minD (pt : Int) (s : Search) (i : Interval) :
    (s.turn pt i).minD = if i.lower < s.minD ∧ i.lower ≠ -fltMax then (i.lower : Rat)
      else if i.upper < s.minD then i.upper else s.minD := by
  show Search.minD (if i.gap pt < s.minDist then _ else _) = _
  rw [apply_ite Search.minD,ite_self]

private theorem turn_maxD (pt : Int) (s : Search) (i : Interval) :
    (s.turn pt i).maxD = if i.upper > s.maxD ∧ i.upper ≠ fltMax then (i.upper : Rat)
      else if i.lower > s.maxD then i.lower else s.maxD := by
  show Search.maxD (if i.gap pt < s.minDist then _ else _) = _
  rw [apply_ite Search.maxD,ite_self]

private theorem turn_bounds (pt : Int) (s : Search) (i : Interval) (hi : i.lower ≤ i.upper) :
    ((s.turn pt i).minD ≤ s.minD ∧ s.maxD ≤ (s.turn pt i).maxD) ∧
      ((s.turn pt i).minD ≤ i.upper ∧ i.lower ≤ (s.turn pt i).maxD) ∧
      (i.lower ≠ -fltMax → (s.turn pt i).minD ≤ i.lower) ∧
      (i.upper ≠ fltMax → i.upper ≤ (s.turn pt i).maxD) := by
  have hcast : (i.lower : Rat) ≤ i.upper := Int.cast_le.mpr hi
  rw [turn_minD,turn_maxD]
  split_ifs <;> grind

variable {pt : Int} {min max : Rat} {i : Interval}

theorem Searched.turn {seen : List Interval} {s : Search}
    (h : Searched pt min max seen s) (hi : i.lower ≤ i.upper) (hgap : i.gap pt < fltMax) :
    Searched pt min max (seen ++ [i]) (s.turn pt i) := by
  obtain ⟨⟨hmin,hmax⟩,hreach,hfinite⟩ := turn_bounds pt s i hi
  obtain ⟨hmin1,hmin2⟩ := h.minD_le
  obtain ⟨hmax1,hmax2⟩ := h.le_maxD
  refine ⟨⟨hmin.trans hmin1,hmin.trans hmin2⟩,⟨hmax1.trans hmax,hmax2.trans hmax⟩,
    fun j hj => ?_,fun j hj => ?_,.inr ?_⟩
  · rcases List.mem_append.mp hj with hj | hj
    · have := h.reach j hj
      exact ⟨hmin.trans this.1,this.2.trans hmax⟩
    · rwa [List.mem_singleton.mp hj]
  · rcases List.mem_append.mp hj with hj | hj
    · obtain ⟨h1,h2⟩ := h.finite j hj
      exact ⟨fun hne => hmin.trans (h1 hne),fun hne => (h2 hne).trans hmax⟩
    · rwa [List.mem_singleton.mp hj]
  · rw [turn_minDist,turn_nearestVal]
    rcases h.best with ⟨rfl,hd⟩ | ⟨before,k,after,rfl,hb,ha,hd,hn⟩
    · rw [hd,if_pos hgap,if_pos hgap]
      exact ⟨[],i,[],rfl,by simp,by simp,rfl,rfl⟩
    · by_cases hlt : i.gap pt < k.gap pt
      · rw [hd,if_pos hlt,if_pos hlt]
        refine ⟨before ++ k :: after,i,[],rfl,fun j hj => ?_,by simp,rfl,rfl⟩
        rcases List.mem_append.mp hj with hj | hj
        · exact hlt.trans (hb j hj)
        · rcases List.mem_cons.mp hj with rfl | hj
          · exact hlt
          · exact hlt.trans_le (ha j hj)
      · rw [hd,if_neg hlt,if_neg hlt,hn]
        refine ⟨before,k,after ++ [i],by simp,hb,fun j hj => ?_,rfl,?_⟩
        · rcases List.mem_append.mp hj with hj | hj
          · exact ha j hj
          · rw [List.mem_singleton.mp hj]
            exact not_lt.mp hlt
        · have := gap_nonneg k pt
          split_ifs <;> first | rfl | omega

variable {iList : List Interval} {pt : Int}

private theorem Ranged.gap_lt (h : Ranged iList) (hpt : IsInt pt) :
    ∀ i ∈ iList, i.lower ≤ i.upper ∧ i.gap pt < fltMax := by
  intro i hi
  have hp := h.proper i hi
  have hl := h.lower i hi
  have hu := h.upper i hi
  obtain ⟨h1,h2⟩ := hpt
  simp only [IsInt,fltMax] at hl hu
  simp only [Interval.gap,fltMax]
  refine ⟨by omega,?_⟩
  split_ifs <;> omega

private theorem searched (h : Ranged iList) (hpt : IsInt pt) (min max : Rat) (old : Option Int) :
    Searched pt min max iList (search iList pt min max old) := by
  have hgap := h.gap_lt hpt
  clear h
  induction iList using List.reverseRecOn with
  | nil => exact Searched.start pt min max old
  | append_singleton l i ih =>
    rw [search,foldl_append]
    have hi := hgap i (by simp)
    exact (ih fun j hj => hgap j (by simp [hj])).turn hi.1 hi.2

private theorem contains_or_gap (h : Ranged iList) (hi : i ∈ iList) (hout : ¬ i.Contains pt) :
    0 < i.gap pt ↔ pt ≠ i.lower ∧ pt ≠ i.upper := by
  have hp := h.proper i hi
  simp only [Interval.Contains] at hout
  simp only [Interval.gap]
  rcases Bool.eq_false_or_eq_true i.openLower with h1 | h1 <;>
    rcases Bool.eq_false_or_eq_true i.openUpper with h2 | h2 <;>
    simp only [h1,h2,and_true,and_false,or_false,reduceCtorEq] at hout hp <;>
    split_ifs <;> omega

/-- The gap is the distance to the nearer end of an interval that the point is not in. -/
theorem gap_le_ends (hi : i.lower ≤ i.upper) (hgap : 0 < i.gap pt) :
    i.gap pt ≤ |i.lower - pt| ∧ i.gap pt ≤ |i.upper - pt| := by
  simp only [Interval.gap] at hgap ⊢
  constructor <;> rw [le_abs] <;> split_ifs at hgap ⊢ <;> omega

private theorem gap_eq_abs (hgap : 0 < i.gap pt)
    (hlow : i.upper < pt → i.lower = i.upper) : |i.lower - pt| = i.gap pt := by
  simp only [Interval.gap] at hgap ⊢
  split_ifs at hgap ⊢ with h1 h2
  · exact abs_of_pos hgap
  · rw [hlow h2,abs_sub_comm]
    exact abs_of_pos hgap
  · exact absurd hgap (lt_irrefl 0)

/-- Outside of the intervals. -/
theorem outside_iff (h : Ranged iList) (hpt : IsInt pt)
    (hle : min ≤ max) (old : Option Int) (hout : ∀ i ∈ iList, ¬ i.Contains pt) :
    (∃ r e, getDistance iList pt min max old = (true,some r,some e) ∧ 0 < r ∧ r ≤ 1 ∧
      IsNearestEnd iList pt e) ↔ EndFound iList pt := by
  have hs := searched h hpt min max old
  obtain hnil | ⟨before,i,after,hsplit,hbefore,hafter,hd,hn⟩ := hs.best
  · exact absurd hnil.1 h.ne_nil
  have hmem : i ∈ iList := by simp [hsplit]
  have hle' := (h.gap_lt hpt i hmem).1
  have hmin : ∀ j ∈ iList, i.gap pt ≤ j.gap pt := by
    intro j hj
    rw [hsplit] at hj
    rcases List.mem_append.mp hj with hj | hj
    · exact (hbefore j hj).le
    · rcases List.mem_cons.mp hj with rfl | hj
      · exact le_refl _
      · exact hafter j hj
  rw [getDistance,if_neg h.ne_nil,if_neg (not_lt.mpr hle)]
  set s := search iList pt min max old
  constructor
  · rintro ⟨r,e,heq,hr,hr1,⟨-,hnear⟩⟩
    simp only [Prod.mk.injEq,true_and] at heq
    obtain ⟨heq,he⟩ := heq
    rw [hn] at he
    split_ifs at he with hgap
    obtain rfl := Option.some.inj he
    refine ⟨fun j hj => (contains_or_gap h hj (hout j hj)).mp (hgap.trans_le (hmin j hj)),?_⟩
    intro j hj hbelow hwide
    by_contra hnone
    have hji : j.gap pt ≤ i.gap pt := not_lt.mp fun hc => hnone ⟨i,hmem,hc⟩
    have hjgap : j.gap pt = pt - j.upper := by
      rw [Interval.gap,if_neg (by omega),if_pos hbelow]
    rcases List.mem_append.mp (hsplit ▸ hj) with hj' | hj'
    · exact absurd (hbefore j hj') (not_lt.mpr hji)
    rcases List.mem_cons.mp hj' with rfl | hj'
    · -- the lower end of a proper interval below is not the nearest end
      have := (hnear _ hmem).2
      rw [abs_of_neg (by omega),abs_of_neg (by omega)] at this
      omega
    · have hsorted := h.sorted
      rw [hsplit,pairwise_append,pairwise_cons] at hsorted
      have hij := hsorted.2.1.1 j hj'
      have hleast := hmin j hj
      have higap : i.gap pt = pt - i.upper := by
        rw [Interval.gap,if_neg (by omega),if_pos (by omega)]
      omega
  · rintro ⟨hends,hbelow⟩
    have hpos : ∀ j ∈ iList, 0 < j.gap pt := fun j hj =>
      (contains_or_gap h hj (hout j hj)).mpr (hends j hj)
    have hgap := hpos i hmem
    have hreach := hs.reach i hmem
    have hwidth : (i.gap pt : Rat) ≤ s.maxD - s.minD := by
      obtain ⟨-,hmin2⟩ := hs.minD_le
      obtain ⟨-,hmax2⟩ := hs.le_maxD
      simp only [Interval.gap]
      split_ifs <;> push_cast <;> linarith
    have hw : (0 : Rat) < s.maxD - s.minD := (Int.cast_pos.mpr hgap).trans_le hwidth
    have habs : |i.lower - pt| = i.gap pt := by
      refine gap_eq_abs hgap fun hup => ?_
      by_contra hne
      obtain ⟨j,hj,hlt⟩ := hbelow i hmem hup (lt_of_le_of_ne hle' hne)
      exact absurd hlt (not_lt.mpr (hmin j hj))
    dsimp only
    rw [if_neg hw.ne',hn,if_pos hgap,hd]
    refine ⟨_,_,rfl,div_pos (Int.cast_pos.mpr hgap) hw,(div_le_one hw).mpr hwidth,
      ⟨i,hmem,.inl rfl⟩,fun j hj => ?_⟩
    obtain ⟨h1,h2⟩ := gap_le_ends (h.gap_lt hpt j hj).1 (hpos j hj)
    have := hmin j hj
    rw [habs]
    exact ⟨this.trans h1,this.trans h2⟩

private theorem noWidth_alone (h : Ranged iList) (hi : i ∈ iList)
    (hlow : i.lower = -fltMax) (hup : i.upper = fltMax) : iList = [i] := by
  obtain ⟨before,after,rfl⟩ := append_of_mem hi
  have hsorted := h.sorted
  rw [pairwise_append,pairwise_cons] at hsorted
  obtain ⟨-,⟨hafter,-⟩,hbefore⟩ := hsorted
  have hfin := h.lower
  have hfin' := h.upper
  simp only [IsInt,fltMax] at hlow hup hfin hfin'
  rcases before with _ | ⟨j,before⟩
  · rcases after with _ | ⟨j,after⟩
    · rfl
    · have := hafter j mem_cons_self
      have := hfin j (by simp)
      omega
  · have := hbefore j mem_cons_self i mem_cons_self
    have := hfin' j (by simp)
    omega

theorem inside_iff (h : Ranged iList) (hpt : IsInt pt)
    (hle : min ≤ max) (old : Option Int) (hin : ∃ i ∈ iList, i.lower < pt ∧ pt < i.upper) :
    getDistance iList pt min max old = (true,some 0,none) ↔ ¬ NoWidth iList pt min max := by
  obtain ⟨k,hk,hlow,hup⟩ := hin
  have hs := searched h hpt min max old
  obtain hnil | ⟨before,i,after,hsplit,hbefore,hafter,hd,hn⟩ := hs.best
  · exact absurd hnil.1 h.ne_nil
  have hk0 : k.gap pt = 0 := by rw [Interval.gap,if_neg (by omega),if_neg (by omega)]
  have hi0 : i.gap pt = 0 := by
    have hpos := gap_nonneg i pt
    rw [hsplit] at hk
    rcases List.mem_append.mp hk with hk | hk
    · have := hbefore k hk
      omega
    · rcases List.mem_cons.mp hk with rfl | hk
      · exact hk0
      · have := hafter k hk
        omega
  rw [getDistance,if_neg h.ne_nil,if_neg (not_lt.mpr hle)]
  dsimp only
  rw [hn,hd,hi0,if_neg (lt_irrefl 0),Int.cast_zero,zero_div]
  constructor
  · rintro heq ⟨rfl,rfl,w,hw,hwl,hwu⟩
    obtain rfl := noWidth_alone h hw hwl hwu
    obtain ⟨h1,h2⟩ := hpt
    have hlow : ¬ (fltMax : Rat) < pt := by
      rw [Int.cast_lt,fltMax]
      omega
    have hhigh : ¬ (-fltMax : Int) > (pt : Rat) := by
      rw [gt_iff_lt,Int.cast_lt,fltMax]
      omega
    have hwidth : (search [w] pt pt pt old).maxD - (search [w] pt pt pt old).minD = 0 := by
      simp only [search,foldl_cons,foldl_nil,turn_minD,turn_maxD,Search.start,hwl,hwu,
        lt_irrefl,gt_iff_lt,if_false,ne_eq,not_true_eq_false,and_false,hlow,hhigh,sub_self]
    rw [if_pos hwidth] at heq
    simp at heq
  · intro hno
    rw [if_neg]
    intro hzero
    obtain ⟨hmin1,hmin2⟩ := hs.minD_le
    obtain ⟨hmax1,hmax2⟩ := hs.le_maxD
    obtain ⟨hf1,hf2⟩ := hs.finite k hk
    have hlow' : (k.lower : Rat) < pt := Int.cast_lt.mpr hlow
    have hup' : (pt : Rat) < k.upper := Int.cast_lt.mpr hup
    refine hno ⟨by linarith,by linarith,k,hk,?_,?_⟩
    · by_contra hne
      have := hf1 hne
      linarith
    · by_contra hne
      have := hf2 hne
      linarith

/-- The answer is right exactly if the nearest end is no upper end of a proper interval and no open
end is met; inside of an interval, if there is a width to divide by. -/
theorem getDistance_suggests {iList : List Interval} (h : Ranged iList) {pt : Int} {min max : Rat}
    (hpt : IsInt pt) (hle : min ≤ max) (old : Option Int) :
    SuggestsNearest iList pt min max old ↔
      ((∀ i ∈ iList, ¬ i.Contains pt) → EndFound iList pt) ∧
      ((∃ i ∈ iList, i.lower < pt ∧ pt < i.upper) → ¬ NoWidth iList pt min max) :=
  and_congr (forall_congr' fun hout => outside_iff h hpt hle old hout)
    (forall_congr' fun hin => inside_iff h hpt hle old hin)

private theorem ranged_single {low up : Int} (hlow : IsInt low) (hup : IsInt up) (hlt : low < up) :
    Ranged [⟨low,up,false,false⟩] :=
  ⟨by simp,by simpa using .inr hlow,by simpa using .inr hup,by simpa using .inl hlt,
    List.pairwise_singleton _ _⟩

theorem getDistance_suggests_above :
    SuggestsNearest [⟨5,9,false,false⟩] 2 0 10 none := by
  refine (getDistance_suggests (ranged_single ⟨by decide,by decide⟩ ⟨by decide,by decide⟩
    (by decide)) ⟨by decide,by decide⟩ (by decide) none).mpr ⟨fun _ => ⟨by simp,by simp⟩,?_⟩
  simp

/-- The values from 0 to 5 are accepted, and 0 is suggested in place of 7. -/
theorem getDistance_below : ¬ SuggestsNearest [⟨0,5,false,false⟩] 7 0 10 none := by
  intro h
  obtain ⟨r,e,heq,-,-,-,hnear⟩ := h.1 (by simp [Interval.Contains])
  have he : some 0 = some e := congrArg (fun x => x.2.2) heq
  obtain rfl := Option.some.inj he
  exact absurd (hnear _ List.mem_cons_self).2 (by decide)

end Condor.ClassAdAnalysis
