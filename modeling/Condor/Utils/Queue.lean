import Mathlib.Data.Int.ModEq
import Condor.Lib.TwoRuns

/-!
# Queue

A first-in first-out queue in a ring of cells that doubles when it is full.
-/

namespace Condor.Utils

open Lib List

variable {α : Type}

structure Queue (α : Type) where
  tableSize : Nat
  ht : List (Option α)
  length : Nat
  head : Nat
  tail : Nat
  compareFunc : Option (α → α → Int)

namespace Queue

def new (tableSz : Int) (fnPtr : Option (α → α → Int)) : Queue α :=
  let tableSize := if tableSz > 0 then tableSz.toNat else 32
  ⟨tableSize,List.replicate tableSize none,0,0,0,fnPtr⟩

def isFull (q : Queue α) : Bool := q.length = q.tableSize

def isEmpty (q : Queue α) : Bool := q.length = 0

/-- `new_ht[j++] = ht[i]`, so many times. -/
def copyCells (ht : List (Option α)) : Nat → Nat → Nat → List (Option α) → List (Option α)
  | 0, _, _, newHt => newHt
  | n + 1, i, j, newHt => copyCells ht n (i + 1) (j + 1) (newHt.set j ht[i]?.join)

/-- The table of twice the size, the part from `head` on in front. -/
def grown (q : Queue α) : Queue α :=
  let newHt := copyCells q.ht (q.tableSize - q.head) q.head 0
    (List.replicate (q.tableSize * 2) none)
  { q with ht := copyCells q.ht q.head 0 (q.tableSize - q.head) newHt, tail := 0, head := q.length,
           tableSize := q.tableSize * 2 }

def put (q : Queue α) (value : α) : Queue α :=
  { q with ht := q.ht.set q.head (some value), head := (q.head + 1) % q.tableSize,
           length := q.length + 1 }

/-- `none` is the failure of the assertion that the full ring has its head at its tail. -/
def enqueue (q : Queue α) (value : α) : Option (Queue α) :=
  if q.isFull then if q.head = q.tail then some (q.grown.put value) else none
  else some (q.put value)

def dequeue (q : Queue α) : Queue α × Int × Option α :=
  if q.isEmpty then (q,-1,none)
  else ({ q with tail := (q.tail + 1) % q.tableSize, length := q.length - 1 },0,q.ht[q.tail]?.join)

def clear (q : Queue α) : Queue α := { q with length := 0, head := 0, tail := 0 }

def isSame [BEq α] (compareFunc : Option (α → α → Int)) (x value : α) : Bool :=
  match compareFunc with
  | some f => f x value == 0
  | none => x == value

/-- The rounds of `IsMember` from the cell `j` on. -/
def memberLoop [BEq α] (q : Queue α) (value : α) : Nat → Nat → Bool
  | 0, _ => false
  | n + 1, j =>
    q.ht[j]?.join.any (isSame q.compareFunc · value) ||
      memberLoop q value n ((j + 1) % q.tableSize)

def isMember [BEq α] (q : Queue α) (value : α) : Bool := memberLoop q value q.length q.tail

inductive Call (α : Type) where
  | enqueue (value : α)
  | dequeue
  | clear
  | length
  | isEmpty
  | isMember (value : α)

inductive Answer (α : Type) where
  | aborted
  | done
  | code (n : Int) (value : Option α)
  | count (n : Nat)
  | truth (b : Bool)

def call [BEq α] (q : Queue α) : Call α → Queue α × Answer α
  | .enqueue value =>
    match q.enqueue value with
    | none => (q,.aborted)
    | some q' => (q',.code 0 none)
  | .dequeue => (q.dequeue.1,.code q.dequeue.2.1 q.dequeue.2.2)
  | .clear => (q.clear,.done)
  | .length => (q,.count q.length)
  | .isEmpty => (q,.truth q.isEmpty)
  | .isMember value => (q,.truth (q.isMember value))

/-- The list that the queue stands for: the first element is the one to be removed. -/
def listCall [BEq α] (compareFunc : Option (α → α → Int)) (l : List α) : Call α → List α × Answer α
  | .enqueue value => (l ++ [value],.code 0 none)
  | .dequeue =>
    match l with
    | [] => ([],.code (-1) none)
    | x :: l => (l,.code 0 (some x))
  | .clear => ([],.done)
  | .length => (l,.count l.length)
  | .isEmpty => (l,.truth l.isEmpty)
  | .isMember value => (l,.truth (l.any (isSame compareFunc · value)))

structure Holds (q : Queue α) (l : List α) : Prop where
  allocated : q.ht.length = q.tableSize
  tail_lt : q.tail < q.tableSize
  length_eq : q.length = l.length
  length_le : q.length ≤ q.tableSize
  head_eq : q.head = (q.tail + q.length) % q.tableSize
  cell : ∀ i (h : i < l.length), q.ht[(q.tail + i) % q.tableSize]? = some (some l[i])

private theorem ring_ne {n t i j : Nat} (hij : i < j) (hj : j < n) : (t + i) % n ≠ (t + j) % n := by
  intro h
  have hdvd : n ∣ (t + j) - (t + i) := (Nat.modEq_iff_dvd' (by omega)).mp h
  have := Nat.le_of_dvd (by omega) hdvd
  omega

private theorem holds_new (tableSz : Int) (fnPtr : Option (α → α → Int)) :
    Holds (new tableSz fnPtr) [] := by
  have hpos : 0 < (new tableSz fnPtr).tableSize := by
    simp only [new]
    split_ifs <;> omega
  refine ⟨by simp [new],hpos,rfl,Nat.zero_le _,?_,by simp⟩
  simp [new]

theorem length_copyCells (ht : List (Option α)) (n i j : Nat) (newHt : List (Option α)) :
    (copyCells ht n i j newHt).length = newHt.length := by
  induction n generalizing i j newHt with
  | zero => rfl
  | succ n ih => rw [copyCells,ih,length_set]

private theorem getElem?_copyCells (ht : List (Option α)) (n i j : Nat) (newHt : List (Option α))
    (hfit : j + n ≤ newHt.length) (k : Nat) :
    (copyCells ht n i j newHt)[k]? =
      if j ≤ k ∧ k < j + n then some ht[i + (k - j)]?.join else newHt[k]? := by
  induction n generalizing i j newHt with
  | zero => simp [copyCells,show ¬ (j ≤ k ∧ k < j) by omega]
  | succ n ih =>
    rw [copyCells,ih _ _ _ (by rw [length_set]; omega)]
    rcases lt_trichotomy j k with h | rfl | h
    · rw [show i + 1 + (k - (j + 1)) = i + (k - j) by omega,getElem?_set_ne (by omega)]
      exact if_congr (by omega) rfl rfl
    · rw [if_neg (by omega),if_pos (by omega),getElem?_set_self (by omega),Nat.sub_self]
      rfl
    · rw [if_neg (by omega),if_neg (by omega),getElem?_set_ne (by omega)]

variable {q : Queue α} {l : List α}

private theorem holds_grown (h : Holds q l) (hfull : q.length = q.tableSize) :
    Holds q.grown l ∧ q.grown.length < q.grown.tableSize := by
  have htail : q.head = q.tail := by
    rw [h.head_eq,hfull,Nat.add_mod_right,Nat.mod_eq_of_lt h.tail_lt]
  have hpos := h.tail_lt
  have hlen : q.grown.ht.length = q.tableSize * 2 := by
    simp [grown,length_copyCells]
  refine ⟨⟨hlen,by simp [grown]; omega,h.length_eq,by simp [grown]; omega,?_,?_⟩,
    by simp [grown]; omega⟩
  · simp only [grown,Nat.zero_add]
    exact (Nat.mod_eq_of_lt (by omega)).symm
  · intro i hi
    have hcell := h.cell i hi
    have hlt : i < q.tableSize := by rw [← hfull,h.length_eq]; exact hi
    simp only [grown,Nat.zero_add,Nat.mod_eq_of_lt (show i < q.tableSize * 2 by omega)]
    rw [getElem?_copyCells _ _ _ _ _ (by rw [length_copyCells,length_replicate]; omega),
      getElem?_copyCells _ _ _ _ _ (by rw [length_replicate]; omega)]
    -- the part before the end of the old table, and the part that had wrapped
    rcases Nat.lt_or_ge (q.tail + i) q.tableSize with hw | hw
    · rw [if_neg (by omega),if_pos (by omega),Nat.sub_zero,htail]
      rw [Nat.mod_eq_of_lt hw] at hcell
      rw [hcell]
      rfl
    · rw [if_pos (by omega),Nat.zero_add,htail,
        show i - (q.tableSize - q.tail) = q.tail + i - q.tableSize by omega]
      rw [Nat.mod_eq_sub_mod hw,Nat.mod_eq_of_lt (by omega)] at hcell
      rw [hcell]
      rfl

private theorem holds_put (h : Holds q l) (hroom : q.length < q.tableSize)
    (value : α) : Holds (q.put value) (l ++ [value]) := by
  have hhead : q.head < q.ht.length := by
    rw [h.head_eq,h.allocated]
    exact Nat.mod_lt _ (by omega)
  refine ⟨by simp [put,h.allocated],h.tail_lt,by simp [put,h.length_eq],hroom,?_,?_⟩
  · simp only [put,h.head_eq,Nat.mod_add_mod,Nat.add_assoc]
  · intro i hi
    simp only [put]
    rcases Nat.lt_or_ge i l.length with hlt | hge
    · have hne : q.head ≠ (q.tail + i) % q.tableSize := by
        rw [h.head_eq]
        exact (ring_ne (by rw [h.length_eq]; exact hlt) hroom).symm
      rw [getElem?_set_ne hne,h.cell i hlt,getElem_append_left hlt]
    · obtain rfl : i = l.length := by simp at hi; omega
      have : (q.tail + l.length) % q.tableSize = q.head := by rw [h.head_eq,h.length_eq]
      rw [this,getElem?_set_self hhead]
      simp

private theorem holds_enqueue (h : Holds q l) (value : α) :
    ∃ q', q.enqueue value = some q' ∧ Holds q' (l ++ [value]) ∧ q'.compareFunc = q.compareFunc := by
  rw [enqueue]
  by_cases hfull : q.length = q.tableSize
  · have htail : q.head = q.tail := by
      rw [h.head_eq,hfull,Nat.add_mod_right,Nat.mod_eq_of_lt h.tail_lt]
    obtain ⟨hgrown,hroom⟩ := holds_grown h hfull
    exact ⟨_,by simp [isFull,hfull,htail],holds_put hgrown hroom value,rfl⟩
  · exact ⟨_,by simp [isFull,hfull],holds_put h (by have := h.length_le; omega) value,rfl⟩

private theorem holds_dequeue {x : α} (h : Holds q (x :: l)) :
    Holds q.dequeue.1 l ∧ q.dequeue.2 = (0,some x) := by
  have hlen : q.length = l.length + 1 := h.length_eq
  have hfirst := h.cell 0 (by simp)
  rw [Nat.add_zero,Nat.mod_eq_of_lt h.tail_lt] at hfirst
  have hle := h.length_le
  have hpos := h.tail_lt
  simp only [dequeue,isEmpty,show ¬ q.length = 0 by omega,decide_false,Bool.false_eq_true,
    if_false,hfirst]
  refine ⟨⟨h.allocated,Nat.mod_lt _ (by omega),by dsimp; omega,by dsimp; omega,?_,?_⟩,rfl⟩
  · rw [h.head_eq,Nat.mod_add_mod]
    congr 1
    dsimp
    omega
  · intro i hi
    have := h.cell (i + 1) (by simpa using hi)
    rw [Nat.mod_add_mod,show q.tail + 1 + i = q.tail + (i + 1) by omega,this]
    rfl

private theorem memberLoop_eq [BEq α] (h : Holds q l) (value : α) :
    ∀ n k, k + n = l.length → memberLoop q value n ((q.tail + k) % q.tableSize) =
      (l.drop k).any (isSame q.compareFunc · value) := by
  intro n
  induction n with
  | zero =>
    intro k hk
    rw [drop_eq_nil_of_le (by omega)]
    rfl
  | succ n ih =>
    intro k hk
    have hlt : k < l.length := by omega
    rw [memberLoop,h.cell k hlt,drop_eq_getElem_cons hlt,Nat.mod_add_mod,
      Nat.add_assoc,ih (k + 1) (by omega)]
    simp only [Option.join_some,Option.any_some,any_cons]

def Matches (compareFunc : Option (α → α → Int)) (q : Queue α) (l : List α) : Prop :=
  Holds q l ∧ q.compareFunc = compareFunc

private theorem call_matches [BEq α] {f : Option (α → α → Int)} {c : Call α} (h : Matches f q l) :
    Matches f (call q c).1 (listCall f l c).1 ∧ (call q c).2 = (listCall f l c).2 := by
  obtain ⟨h,rfl⟩ := h
  cases c with
  | enqueue value =>
    obtain ⟨q',hq,hholds,hf⟩ := holds_enqueue h value
    simp only [call,hq]
    exact ⟨⟨hholds,hf⟩,rfl⟩
  | dequeue =>
    cases l with
    | nil =>
      have hlen : q.length = 0 := h.length_eq
      simp [call,listCall,dequeue,isEmpty,hlen,Matches,h]
    | cons x l =>
      obtain ⟨hholds,hret⟩ := holds_dequeue h
      refine ⟨⟨hholds,?_⟩,by simp [call,listCall,hret]⟩
      simp only [call,dequeue]
      split_ifs <;> rfl
  | clear =>
    have hpos := h.tail_lt
    exact ⟨⟨⟨h.allocated,by simp only [call,clear]; omega,rfl,Nat.zero_le _,
      by simp [call,clear],by simp [listCall]⟩,rfl⟩,rfl⟩
  | length => exact ⟨⟨h,rfl⟩,congrArg Answer.count h.length_eq⟩
  | isEmpty =>
    refine ⟨⟨h,rfl⟩,congrArg Answer.truth ?_⟩
    rw [isEmpty,h.length_eq,Bool.eq_iff_iff]
    simp
  | isMember value =>
    refine ⟨⟨h,rfl⟩,congrArg Answer.truth ?_⟩
    have := memberLoop_eq h value q.length 0 (by rw [h.length_eq,Nat.zero_add])
    rwa [Nat.add_zero,Nat.mod_eq_of_lt h.tail_lt] at this

private theorem listCall_ne_aborted [BEq α] (f : Option (α → α → Int)) (l : List α) (c : Call α) :
    (listCall f l c).2 ≠ .aborted := by
  cases c with
  | dequeue => cases l <;> simp [listCall]
  | _ => simp [listCall]

/-- Over every sequence of calls the queue answers as the list does, and no assertion fails. -/
theorem queue_is_fifo [BEq α] (tableSz : Int) (fnPtr : Option (α → α → Int))
    (calls : List (Call α)) :
    let queue := answers call (new tableSz fnPtr) calls
    let list := answers (listCall fnPtr) [] calls
    queue.2 = list.2 ∧ Answer.aborted ∉ queue.2 ∧ Holds queue.1 list.1 ∧
      queue.1.head = (queue.1.tail + queue.1.length) % queue.1.tableSize ∧
      queue.1.length = list.1.length ∧ queue.1.length ≤ queue.1.tableSize := by
  obtain ⟨⟨h,-⟩,hsame⟩ := @answers_simulates _ _ _ _ call (listCall fnPtr)
    (Matches fnPtr) (fun q l c hq => call_matches hq) _ _ ⟨holds_new tableSz fnPtr,rfl⟩ calls
  refine ⟨hsame,fun hmem => ?_,h,h.head_eq,h.length_eq,h.length_le⟩
  rw [hsame] at hmem
  exact answers_forall (P := (· ≠ Answer.aborted)) (listCall_ne_aborted fnPtr) [] calls _ hmem rfl

end Queue

end Condor.Utils
