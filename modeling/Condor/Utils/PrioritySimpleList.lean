import Condor.Lib.Priority

/-!
# The array list with priorities

`PrioritySimpleList` keeps its items in one array and their priorities in another.
-/

namespace Condor

open Lib List Function Option

/-- The loop of `BinarySearch::Search`: whether the key is found, and where it is or belongs. -/
def binarySearch (array : Nat → Int) (key low high : Int) : Bool × Int :=
  if low ≤ high then
    let mid := low + (high - low) / 2
    if array mid.toNat < key then binarySearch array key (mid + 1) high
    else if key < array mid.toNat then binarySearch array key low (mid - 1)
    else (true,mid)
  else (false,low)
termination_by (high + 1 - low).toNat
decreasing_by all_goals omega

structure PrioritySimpleList (α : Type) where
  items : Nat → α
  priorities : Nat → Int
  size : Nat
  maximumSize : Nat
  current : Int
  fits : size ≤ maximumSize
  positive : 0 < maximumSize

namespace PrioritySimpleList

variable {α β : Type}

def new [Inhabited α] : PrioritySimpleList α :=
  ⟨fun _ => default,fun _ => 0,0,1,-1,by omega,by omega⟩

/-- The loop that moves slots back by one, from the last one down to an index; the first argument
counts them. -/
def shiftUp (index : Nat) : Nat → (Nat → β) → Nat → β
  | 0, a => a
  | n + 1, a => shiftUp index n (update a (index + n + 1) (a (index + n)))

def shiftDown : Nat → Nat → (Nat → β) → Nat → β
  | 0, _, a => a
  | n + 1, j, a => shiftDown n (j + 1) (update a j (a (j + 1)))

def copied [Inhabited β] (n : Nat) (a : Nat → β) : Nat → β :=
  fun i => if i < n then a i else default

def resize [Inhabited α] (l : PrioritySimpleList α) (newsize : Nat) (h : 0 < newsize) :
    PrioritySimpleList α where
  items := copied (min newsize l.size) l.items
  priorities := copied (min newsize l.size) l.priorities
  size := min l.size (newsize - 1)
  maximumSize := newsize
  current := if l.current > newsize - 1 then newsize else l.current
  fits := by omega
  positive := h

def enlarge [Inhabited α] (l : PrioritySimpleList α) : PrioritySimpleList α :=
  if l.maximumSize ≤ l.size then l.resize (2 * l.maximumSize) (by have := l.positive; omega) else l

private theorem size_enlarge [Inhabited α] (l : PrioritySimpleList α) :
    l.enlarge.size = l.size ∧ l.size < l.enlarge.maximumSize := by
  have hpos := l.positive
  have hfits := l.fits
  rw [enlarge]
  split
  · exact ⟨by change min l.size (2 * l.maximumSize - 1) = l.size; omega,
      by change l.size < 2 * l.maximumSize; omega⟩
  · exact ⟨rfl,by omega⟩

def insertAt [Inhabited α] (l : PrioritySimpleList α) (index : Nat) (item : α) (prio : Int) :
    PrioritySimpleList α where
  items := update (shiftUp index (l.size - index) l.enlarge.items) index item
  priorities := update (shiftUp index (l.size - index) l.enlarge.priorities) index prio
  size := l.size + 1
  maximumSize := l.enlarge.maximumSize
  current := l.enlarge.current
  fits := l.size_enlarge.2
  positive := l.enlarge.positive

/-- The loop of `FindInsertBefore`, from the slot below an index on down. -/
def walkBack (priorities : Nat → Int) (priority : Int) : Nat → Nat
  | 0 => 0
  | i + 1 => if priorities i < priority then i + 1 else walkBack priorities priority i

/-- The loop of `FindInsertAfter` over the given number of slots. -/
def walkOn (priorities : Nat → Int) (priority : Int) : Nat → Nat → Nat
  | 0, i => i
  | n + 1, i => if priority < priorities i then i else walkOn priorities priority n (i + 1)

def findInsertBefore (l : PrioritySimpleList α) (priority : Int) : Nat :=
  if l.size = 0 ∨ priority ≤ l.priorities 0 then 0
  else
    match binarySearch l.priorities priority 0 ((l.size : Int) - 1) with
    | (true,index) => walkBack l.priorities priority (index.toNat + 1)
    | (false,index) => index.toNat

def findInsertAfter (l : PrioritySimpleList α) (priority : Int) : Nat :=
  if l.size = 0 ∨ l.priorities (l.size - 1) ≤ priority then l.size
  else
    match binarySearch l.priorities priority 0 ((l.size : Int) - 1) with
    | (true,index) => walkOn l.priorities priority (l.size - index.toNat) index.toNat
    | (false,index) => index.toNat

def append [Inhabited α] (l : PrioritySimpleList α) (item : α) (prio : Int) :
    PrioritySimpleList α :=
  l.insertAt (l.findInsertAfter prio) item prio

def prepend [Inhabited α] (l : PrioritySimpleList α) (item : α) (prio : Int) :
    PrioritySimpleList α :=
  l.insertAt (l.findInsertBefore prio) item prio

def rewind (l : PrioritySimpleList α) : PrioritySimpleList α := { l with current := -1 }

/-- `Next`, with the item it hands out. -/
def next (l : PrioritySimpleList α) : PrioritySimpleList α × Option α :=
  if (l.size : Int) - 1 ≤ l.current then (l,none)
  else ({ l with current := l.current + 1 },some (l.items (l.current + 1).toNat))

def removeSlot (l : PrioritySimpleList α) (i : Nat) : PrioritySimpleList α :=
  { l with
    items := shiftDown (l.size - 1 - i) i l.items
    priorities := shiftDown (l.size - 1 - i) i l.priorities
    size := l.size - 1
    fits := by have := l.fits; omega }

def deleteCurrent (l : PrioritySimpleList α) : PrioritySimpleList α :=
  if (l.size : Int) ≤ l.current ∨ l.current < 0 then l
  else { l.removeSlot l.current.toNat with current := l.current - 1 }

/-- The loop of `Delete` from an index on, over the given number of slots. -/
def deleteLoop [DecidableEq α] (item : α) (deleteAll : Bool) :
    Nat → Nat → PrioritySimpleList α → Bool → PrioritySimpleList α × Bool
  | 0, _, l, found => (l,found)
  | n + 1, i, l, found =>
    if l.items i = item then
      let l' := { l.removeSlot i with
        current := if (i : Int) ≤ l.current then l.current - 1 else l.current }
      if deleteAll then deleteLoop item deleteAll n i l' true else (l',true)
    else deleteLoop item deleteAll n (i + 1) l found

def delete [DecidableEq α] (l : PrioritySimpleList α) (item : α) (deleteAll : Bool) :
    PrioritySimpleList α × Bool :=
  deleteLoop item deleteAll l.size 0 l false

def entries (l : PrioritySimpleList α) : List (α × Int) :=
  (List.range l.size).map fun i => (l.items i,l.priorities i)

def InOrder (a : Nat → Int) (n : Nat) : Prop := ∀ i j, i ≤ j → j < n → a i ≤ a j

/-- What the search narrows down: all slots in front of the window are smaller than the key, all
slots behind it are larger. -/
structure Window (a : Nat → Int) (n : Nat) (key low high : Int) : Prop where
  low_nonneg : 0 ≤ low
  high_lt : high < n
  low_le : low ≤ high + 1
  below : ∀ i : Nat, (i : Int) < low → a i < key
  above : ∀ i : Nat, high < i → i < n → key < a i

/-- An index splits the slots into those in front, which are smaller, and those from it on, which
are larger. -/
def Splits (a : Nat → Int) (n : Nat) (key : Int) (k : Nat) : Prop :=
  k ≤ n ∧ (∀ i < k, a i < key) ∧ ∀ i, k ≤ i → i < n → key < a i

variable {a : Nat → Int}

private theorem binarySearch_spec {n : Nat} {key low high : Int} (ha : InOrder a n)
    (h : Window a n key low high) :
    ∃ k : Nat, (binarySearch a key low high).2 = k ∧
      match (binarySearch a key low high).1 with
      | true => k < n ∧ a k = key
      | false => Splits a n key k := by
  obtain ⟨hlow,hhigh,hle,hbelow,habove⟩ := h
  fun_induction binarySearch a key low high with
  | case1 low high hlh mid hlt ih =>
    have hmid : mid = low + (high - low) / 2 := rfl
    refine ih (by omega) hhigh (by omega) (fun i hi => ?_) habove
    have horder := ha i mid.toNat (by omega) (by omega)
    omega
  | case2 low high hlh mid hge hgt ih =>
    have hmid : mid = low + (high - low) / 2 := rfl
    refine ih hlow (by omega) (by omega) hbelow fun i hi hin => ?_
    have horder := ha mid.toNat i (by omega) hin
    omega
  | case3 low high hlh mid hge hle' =>
    have hmid : mid = low + (high - low) / 2 := rfl
    exact ⟨mid.toNat,by omega,by omega,by omega⟩
  | case4 low high hlh =>
    refine ⟨low.toNat,by omega,by omega,fun i hi => hbelow i (by omega),fun i hi hin => ?_⟩
    exact habove i (by omega) hin

private theorem window_whole (a : Nat → Int) (n : Nat) (key : Int) :
    Window a n key 0 ((n : Int) - 1) where
  low_nonneg := by omega
  high_lt := by omega
  low_le := by omega
  below i hi := by omega
  above i hi hin := by omega

private theorem walkBack_spec {n : Nat} {prio : Int} (ha : InOrder a n) {i : Nat}
    (hi : i ≤ n) (habove : ∀ j, i ≤ j → j < n → prio ≤ a j) :
    walkBack a prio i ≤ n ∧ (∀ j < walkBack a prio i, a j < prio) ∧
      ∀ j, walkBack a prio i ≤ j → j < n → prio ≤ a j := by
  induction i with
  | zero => exact ⟨hi,by simp [walkBack],habove⟩
  | succ i ih =>
    rw [walkBack]
    split
    · next hlt =>
      refine ⟨hi,fun j hj => ?_,habove⟩
      have horder := ha j i (by omega) (by omega)
      omega
    · next hge =>
      refine ih (by omega) fun j hj hjn => ?_
      have horder := ha i j hj hjn
      omega

private theorem walkOn_spec {size : Nat} {prio : Int} (ha : InOrder a size) {n i : Nat}
    (hn : n = size - i) (hi : i ≤ size) (hbelow : ∀ j < i, a j ≤ prio) :
    walkOn a prio n i ≤ size ∧ (∀ j < walkOn a prio n i, a j ≤ prio) ∧
      ∀ j, walkOn a prio n i ≤ j → j < size → prio < a j := by
  induction n generalizing i with
  | zero => exact ⟨hi,hbelow,fun j hj hjn => by rw [walkOn] at hj; omega⟩
  | succ n ih =>
    rw [walkOn]
    split
    · next hgt =>
      refine ⟨hi,hbelow,fun j hj hjn => ?_⟩
      have horder := ha i j hj hjn
      omega
    · next hle =>
      refine ih (by omega) (by omega) fun j hj => ?_
      by_cases hji : j = i
      · rw [hji]
        omega
      · exact hbelow j (by omega)

variable {l : PrioritySimpleList α}

private theorem findInsertBefore_spec (h : InOrder l.priorities l.size) (prio : Int) :
    l.findInsertBefore prio ≤ l.size ∧
      (∀ i < l.findInsertBefore prio, l.priorities i < prio) ∧
      ∀ i, l.findInsertBefore prio ≤ i → i < l.size → prio ≤ l.priorities i := by
  rw [findInsertBefore]
  split
  · next hfirst =>
    refine ⟨by omega,by simp,fun i _ hi => ?_⟩
    have horder := h 0 i (by omega) hi
    omega
  · obtain ⟨k,hk,hfound⟩ := binarySearch_spec h (window_whole l.priorities l.size prio)
    split
    · next index hs =>
      rw [hs] at hk hfound
      obtain rfl : index = k := hk
      obtain ⟨hlt,heq⟩ := hfound
      refine walkBack_spec h (by omega) fun j hj hjn => ?_
      have horder := h k j (by omega) hjn
      omega
    · next index hs =>
      rw [hs] at hk hfound
      obtain rfl : index = k := hk
      obtain ⟨hle,hbelow,habove⟩ := hfound
      exact ⟨by omega,fun i hi => hbelow i (by omega),fun i hi hin => (habove i (by omega) hin).le⟩

private theorem findInsertAfter_spec (h : InOrder l.priorities l.size) (prio : Int) :
    l.findInsertAfter prio ≤ l.size ∧
      (∀ i < l.findInsertAfter prio, l.priorities i ≤ prio) ∧
      ∀ i, l.findInsertAfter prio ≤ i → i < l.size → prio < l.priorities i := by
  rw [findInsertAfter]
  split
  · next hlast =>
    refine ⟨Nat.le_refl _,fun i hi => ?_,fun i hi hin => by omega⟩
    have horder := h i (l.size - 1) (by omega) (by omega)
    omega
  · obtain ⟨k,hk,hfound⟩ := binarySearch_spec h (window_whole l.priorities l.size prio)
    split
    · next index hs =>
      rw [hs] at hk hfound
      obtain rfl : index = k := hk
      obtain ⟨hlt,heq⟩ := hfound
      refine walkOn_spec h rfl (by omega) fun j hj => ?_
      have horder := h j k (by omega) hlt
      omega
    · next index hs =>
      rw [hs] at hk hfound
      obtain rfl : index = k := hk
      obtain ⟨hle,hbelow,habove⟩ := hfound
      exact ⟨by omega,fun i hi => (hbelow i (by omega)).le,fun i hi hin => habove i (by omega) hin⟩

private theorem shiftUp_apply (index n : Nat) (a : Nat → β) (j : Nat) :
    shiftUp index n a j = if index < j ∧ j ≤ index + n then a (j - 1) else a j := by
  induction n generalizing a with
  | zero => rw [shiftUp,if_neg (by omega)]
  | succ n ih =>
    rw [shiftUp,ih]
    by_cases hj : j = index + n + 1
    · rw [if_neg (by omega),if_pos (by omega),hj,update_self]
      rfl
    · by_cases hin : index < j ∧ j ≤ index + n
      · rw [if_pos hin,if_pos (by omega),update_of_ne (by omega)]
      · rw [if_neg hin,if_neg (by omega),update_of_ne hj]

private theorem shiftDown_apply (n i : Nat) (a : Nat → β) (j : Nat) :
    shiftDown n i a j = if i ≤ j ∧ j < i + n then a (j + 1) else a j := by
  induction n generalizing i a with
  | zero => rw [shiftDown,if_neg (by omega)]
  | succ n ih =>
    rw [shiftDown,ih]
    by_cases hj : j = i
    · rw [if_neg (by omega),if_pos (by omega),hj,update_self]
    · by_cases hin : i + 1 ≤ j ∧ j < i + 1 + n
      · rw [if_pos hin,if_pos (by omega),update_of_ne (by omega)]
      · rw [if_neg hin,if_neg (by omega),update_of_ne hj]

theorem length_entries (l : PrioritySimpleList α) : l.entries.length = l.size :=
  by simp [entries]

private theorem getElem?_entries (l : PrioritySimpleList α) (i : Nat) :
    l.entries[i]? = if i < l.size then some (l.items i,l.priorities i) else none := by
  rw [entries,getElem?_map]
  by_cases hi : i < l.size
  · rw [getElem?_range hi,if_pos hi]
    rfl
  · rw [getElem?_eq_none (by simpa using hi),if_neg hi]
    rfl

private theorem enlarge_slots [Inhabited α] (l : PrioritySimpleList α) {i : Nat} (hi : i < l.size) :
    l.enlarge.items i = l.items i ∧ l.enlarge.priorities i = l.priorities i := by
  have hfits := l.fits
  rw [enlarge]
  split
  · have hmin : i < min (2 * l.maximumSize) l.size := by omega
    exact ⟨if_pos hmin,if_pos hmin⟩
  · exact ⟨rfl,rfl⟩

private theorem entries_insertAt [Inhabited α] (l : PrioritySimpleList α) {index : Nat}
    (hindex : index ≤ l.size) (item : α) (prio : Int) :
    (l.insertAt index item prio).entries =
      l.entries.take index ++ (item,prio) :: l.entries.drop index := by
  refine ext_getElem? fun i => ?_
  have hlen := l.length_entries
  rw [getElem?_entries]
  change (if i < l.size + 1 then
    some (update (shiftUp index (l.size - index) l.enlarge.items) index item i,
      update (shiftUp index (l.size - index) l.enlarge.priorities) index prio i)
    else none) = _
  have htake : (l.entries.take index).length = index := by simp [hlen,hindex]
  rcases Nat.lt_trichotomy i index with hi | rfl | hi
  · obtain ⟨hitem,hprio⟩ := l.enlarge_slots (show i < l.size by omega)
    rw [if_pos (by omega),update_of_ne (by omega),update_of_ne (by omega),
      shiftUp_apply,shiftUp_apply,if_neg (by omega),if_neg (by omega),hitem,hprio,
      getElem?_append_left (by omega),getElem?_take,if_pos hi,getElem?_entries,
      if_pos (by omega)]
  · rw [if_pos (by omega),update_self,update_self,
      getElem?_append_right (by omega),htake,Nat.sub_self]
    rfl
  · obtain ⟨k,rfl⟩ : ∃ k, i = index + k + 1 := ⟨i - index - 1,by omega⟩
    rw [getElem?_append_right (by omega),htake,
      show index + k + 1 - index = k + 1 by omega,getElem?_cons_succ,getElem?_drop,
      getElem?_entries,update_of_ne (by omega),update_of_ne (by omega),
      shiftUp_apply,shiftUp_apply]
    by_cases hk : index + k < l.size
    · obtain ⟨hitem,hprio⟩ := l.enlarge_slots hk
      rw [if_pos (by omega),if_pos (by omega),if_pos (by omega),if_pos hk,
        show index + k + 1 - 1 = index + k by omega,hitem,hprio]
    · rw [if_neg (by omega),if_neg hk]

private theorem entries_removeSlot (l : PrioritySimpleList α) {i : Nat} (hi : i < l.size) :
    (l.removeSlot i).entries = l.entries.eraseIdx i := by
  refine ext_getElem? fun j => ?_
  rw [getElem?_entries,getElem?_eraseIdx]
  change (if j < l.size - 1 then
    some (shiftDown (l.size - 1 - i) i l.items j,shiftDown (l.size - 1 - i) i l.priorities j)
    else none) = _
  rw [shiftDown_apply,shiftDown_apply]
  by_cases hj : j < i
  · have hlt : j < l.size := by omega
    have hlt' : j < l.size - 1 := by omega
    have hstay : ¬(i ≤ j ∧ j < i + (l.size - 1 - i)) := by omega
    rw [if_pos hj,getElem?_entries,if_pos hlt,if_pos hlt',if_neg hstay,if_neg hstay]
  · rw [if_neg hj,getElem?_entries]
    by_cases hlt : j < l.size - 1
    · have hlt' : j + 1 < l.size := by omega
      have hmove : i ≤ j ∧ j < i + (l.size - 1 - i) := by omega
      rw [if_pos hlt,if_pos hmove,if_pos hmove,if_pos hlt']
    · have hlt' : ¬j + 1 < l.size := by omega
      rw [if_neg hlt,if_neg hlt']

theorem inOrder_iff (l : PrioritySimpleList α) :
    InOrder l.priorities l.size ↔ Priority.Sorted l.entries := by
  rw [Priority.Sorted,entries,pairwise_map,pairwise_iff_getElem]
  simp only [length_range,getElem_range]
  constructor
  · intro h i j _ hj hij
    exact h i j (Nat.le_of_lt hij) hj
  · intro h i j hij hj
    rcases Nat.lt_or_eq_of_le hij with hlt | rfl
    · exact h i j (by omega) hj hlt
    · exact Int.le_refl _

private theorem take_drop_eq_filter (l : PrioritySimpleList α) {k : Nat} {f g : α × Int → Bool}
    (hf : ∀ i < k, i < l.size → f (l.items i,l.priorities i) = true)
    (hg : ∀ i, k ≤ i → i < l.size → g (l.items i,l.priorities i) = true)
    (hfg : ∀ y, g y = !f y) : l.entries.take k = l.entries.filter f ∧
      l.entries.drop k = l.entries.filter g := by
  have htake : ∀ y ∈ l.entries.take k, f y = true := by
    intro y hy
    obtain ⟨i,hi⟩ := List.mem_iff_getElem?.mp hy
    rw [getElem?_take,getElem?_entries] at hi
    split at hi
    · next hik =>
      split at hi
      · next his => exact some.inj hi ▸ hf i hik his
      · simp at hi
    · simp at hi
  have hdrop : ∀ y ∈ l.entries.drop k, g y = true := by
    intro y hy
    obtain ⟨i,hi⟩ := List.mem_iff_getElem?.mp hy
    rw [getElem?_drop,getElem?_entries] at hi
    split at hi
    · next his => exact some.inj hi ▸ hg (k + i) (by omega) his
    · simp at hi
  have hfdrop : (l.entries.drop k).filter f = [] := by
    refine List.filter_eq_nil_iff.mpr fun y hy hfy => ?_
    have hgy := hdrop y hy
    rw [hfg,hfy] at hgy
    simp at hgy
  have hgtake : (l.entries.take k).filter g = [] := by
    refine List.filter_eq_nil_iff.mpr fun y hy hgy => ?_
    rw [hfg,htake y hy] at hgy
    simp at hgy
  constructor
  · conv_rhs => rw [← take_append_drop k l.entries,filter_append,hfdrop,
      List.filter_eq_self.mpr htake,append_nil]
  · conv_rhs => rw [← take_append_drop k l.entries,filter_append,hgtake,
      List.filter_eq_self.mpr hdrop,nil_append]

theorem entries_append [Inhabited α] (h : Priority.Sorted l.entries) (item : α)
    (prio : Int) :
    (l.append item prio).entries = Priority.append (item,prio) l.entries := by
  obtain ⟨hle,hbelow,habove⟩ := findInsertAfter_spec (l.inOrder_iff.mpr h) prio
  obtain ⟨htake,hdrop⟩ := l.take_drop_eq_filter (k := l.findInsertAfter prio)
    (f := fun y => y.2 ≤ prio) (g := fun y => prio < y.2)
    (fun i hi _ => by simpa using hbelow i hi) (fun i hi his => by simpa using habove i hi his)
    (fun y => by rw [← decide_not,decide_eq_decide,not_le])
  rw [append,l.entries_insertAt hle,htake,hdrop]
  rfl

private theorem entries_prepend [Inhabited α] (h : Priority.Sorted l.entries) (item : α)
    (prio : Int) :
    (l.prepend item prio).entries = Priority.prepend (item,prio) l.entries := by
  obtain ⟨hle,hbelow,habove⟩ := findInsertBefore_spec (l.inOrder_iff.mpr h) prio
  obtain ⟨htake,hdrop⟩ := l.take_drop_eq_filter (k := l.findInsertBefore prio)
    (f := fun y => y.2 < prio) (g := fun y => prio ≤ y.2)
    (fun i hi _ => by simpa using hbelow i hi) (fun i hi his => by simpa using habove i hi his)
    (fun y => by rw [← decide_not,decide_eq_decide,not_lt])
  rw [prepend,l.entries_insertAt hle,htake,hdrop]
  rfl

private theorem entries_deleteCurrent (l : PrioritySimpleList α) :
    l.deleteCurrent.entries =
      if 0 ≤ l.current ∧ l.current < l.size then l.entries.eraseIdx l.current.toNat
      else l.entries := by
  rw [deleteCurrent]
  split
  · rw [if_neg (by omega)]
  · rw [if_pos (by omega)]
    exact l.entries_removeSlot (by omega)

private theorem entries_deleteLoop [DecidableEq α] (item : α) (deleteAll : Bool) {n i : Nat}
    (hn : i + n = l.size) (found : Bool) :
    (deleteLoop item deleteAll n i l found).1.entries = l.entries.take i ++
      if deleteAll then (l.entries.drop i).filter fun y => y.1 ≠ item
      else (l.entries.drop i).eraseP fun y => y.1 = item := by
  induction n generalizing i l found with
  | zero =>
    have hdrop : l.entries.drop i = [] :=
      drop_eq_nil_of_le (by rw [length_entries]; omega)
    have htake : l.entries.take i = l.entries := take_of_length_le (by rw [length_entries]; omega)
    rw [deleteLoop,hdrop,htake]
    cases deleteAll <;> simp
  | succ n ih =>
    have hi : i < l.entries.length := by rw [length_entries]; omega
    have hget : l.entries[i] = (l.items i,l.priorities i) := by
      have hget? := l.getElem?_entries i
      rw [getElem?_eq_getElem hi,if_pos (by omega)] at hget?
      exact some.inj hget?
    rw [deleteLoop,drop_eq_getElem_cons hi,hget]
    by_cases hitem : l.items i = item
    · have herase := l.entries_removeSlot (i := i) (by omega)
      rw [if_pos hitem]
      cases deleteAll with
      | true =>
        simp only [if_true]
        rw [ih (by change i + n = l.size - 1; omega)]
        change (l.removeSlot i).entries.take i ++
          (if true then ((l.removeSlot i).entries.drop i).filter fun y => y.1 ≠ item
          else ((l.removeSlot i).entries.drop i).eraseP fun y => y.1 = item) = _
        have htake : (l.entries.take i).length = i := by rw [length_take]; omega
        rw [herase,eraseIdx_eq_take_drop_succ,take_left' htake,drop_left' htake]
        simp [hitem]
      | false =>
        simp only [Bool.false_eq_true,if_false]
        change (l.removeSlot i).entries = _
        rw [herase,eraseIdx_eq_take_drop_succ]
        simp [hitem]
    · rw [if_neg hitem,ih (by omega)]
      cases deleteAll with
      | true | false => simp [hitem,take_add_one,getElem?_eq_getElem hi,hget]

private theorem entries_delete [DecidableEq α] (l : PrioritySimpleList α) (item : α)
    (deleteAll : Bool) :
    (l.delete item deleteAll).1.entries =
      if deleteAll then l.entries.filter fun y => y.1 ≠ item
      else l.entries.eraseP fun y => y.1 = item := by
  have hloop := entries_deleteLoop (l := l) item deleteAll (n := l.size) (i := 0) (by omega) false
  simpa [delete] using hloop

inductive Call (α : Type) where
  | append (item : α) (prio : Int)
  | prepend (item : α) (prio : Int)
  | delete (item : α) (deleteAll : Bool)
  | deleteCurrent
  | rewind
  | next

def perform [Inhabited α] [DecidableEq α] (l : PrioritySimpleList α) :
    Call α → PrioritySimpleList α
  | .append item prio => l.append item prio
  | .prepend item prio => l.prepend item prio
  | .delete item deleteAll => (l.delete item deleteAll).1
  | .deleteCurrent => l.deleteCurrent
  | .rewind => l.rewind
  | .next => l.next.1

def effect [DecidableEq α] (l : PrioritySimpleList α) : Call α → List (α × Int)
  | .append item prio => Priority.append (item,prio) l.entries
  | .prepend item prio => Priority.prepend (item,prio) l.entries
  | .delete item true => l.entries.filter fun y => y.1 ≠ item
  | .delete item false => l.entries.eraseP fun y => y.1 = item
  | .deleteCurrent =>
    if 0 ≤ l.current ∧ l.current < l.size then l.entries.eraseIdx l.current.toNat else l.entries
  | .rewind => l.entries
  | .next => l.entries

theorem entries_perform [Inhabited α] [DecidableEq α] (h : Priority.Sorted l.entries)
    (call : Call α) : (l.perform call).entries = l.effect call := by
  cases call with
  | append item prio => exact entries_append h item prio
  | prepend item prio => exact entries_prepend h item prio
  | delete item deleteAll =>
    rw [perform,entries_delete]
    cases deleteAll <;> rfl
  | deleteCurrent => exact l.entries_deleteCurrent
  | rewind => rfl
  | next =>
    rw [perform,next]
    split <;> rfl

private theorem sorted_perform [Inhabited α] [DecidableEq α] (h : Priority.Sorted l.entries)
    (call : Call α) : Priority.Sorted (l.perform call).entries := by
  rw [entries_perform h]
  cases call with
  | append item prio => exact Priority.sorted_append h (item,prio)
  | prepend item prio => exact Priority.sorted_prepend h (item,prio)
  | delete item deleteAll =>
    cases deleteAll with
    | true => exact h.filter _
    | false => exact h.sublist eraseP_sublist
  | deleteCurrent =>
    rw [effect]
    split
    · exact h.sublist (eraseIdx_sublist ..)
    · exact h
  | rewind | next => exact h

theorem sorted_run [Inhabited α] [DecidableEq α] (calls : List (Call α)) :
    Priority.Sorted (calls.foldl perform (new : PrioritySimpleList α)).entries := by
  have hfrom (more : List (Call α)) {l : PrioritySimpleList α} (hl : Priority.Sorted l.entries) :
      Priority.Sorted (more.foldl perform l).entries := by
    induction more generalizing l with
    | nil => exact hl
    | cons call more ih => exact ih (sorted_perform hl call)
  exact hfrom calls List.Pairwise.nil

end PrioritySimpleList

end Condor
