import Mathlib.Data.List.Nodup
import Condor.Lib.Buckets

/-!
# The generic hash table

`HashTable<Index,Value>` with its three duplicate-key behaviours.
-/

namespace Condor

open Lib List

/-- `duplicateKeyBehavior_t`. -/
inductive DuplicateKeyBehavior where
  | allowDuplicateKeys
  | rejectDuplicateKeys
  | updateDuplicateKeys
  deriving DecidableEq

structure HashTable (α β : Type) where
  hashfcn : α → UInt32
  duplicateKeyBehavior : DuplicateKeyBehavior
  ht : Buckets.Chains α β
  numElems : Nat
  nonempty : 0 < ht.length
  placed : Buckets.Placed (fun k => (hashfcn k).toNat) ht
  counted : numElems = ht.flatten.length

namespace HashTable

variable {α β : Type}

def hash (t : HashTable α β) (k : α) : Nat := (t.hashfcn k).toNat

def tableSize (t : HashTable α β) : Nat := t.ht.length

/-- `initialize`, by which the constructors set the table up. -/
def initializeWith (hashF : α → UInt32) (behavior : DuplicateKeyBehavior) : HashTable α β where
  hashfcn := hashF
  duplicateKeyBehavior := behavior
  ht := List.replicate 7 []
  numElems := 0
  nonempty := by simp
  placed := Buckets.placed_replicate _ 7
  counted := rfl

def needsResizing (t : HashTable α β) : Bool := 4 * t.tableSize ≤ 5 * t.numElems

/-- Move to the next size of the form `2^n-1`. -/
def resizeHashTable (t : HashTable α β) : HashTable α β :=
  have hn : 0 < (t.tableSize + 1) * 2 - 1 := by omega
  have h := Buckets.rehash_spec t.hash t.ht hn
  { t with
    ht := Buckets.rehash t.hash t.ht ((t.tableSize + 1) * 2 - 1)
    nonempty := by rw [h.2.1]; exact hn
    placed := h.1
    counted := t.counted.trans h.2.2.symm }

/-- The first half of `addItem`: link a new bucket. -/
def link (t : HashTable α β) (k : α) (v : β) : HashTable α β :=
  { t with
    ht := Buckets.push t.hash t.ht (k,v)
    numElems := t.numElems + 1
    nonempty := by
      rw [Buckets.push,Buckets.length_rewrite]
      exact t.nonempty
    placed := Buckets.placed_push t.hash t.placed (k,v)
    counted := by rw [Buckets.length_flatten_push t.hash t.nonempty,t.counted] }

def addItem (t : HashTable α β) (k : α) (v : β) : HashTable α β :=
  if (t.link k v).needsResizing then (t.link k v).resizeHashTable else t.link k v

def entries (t : HashTable α β) : List (α × β) := t.ht.flatten

variable [DecidableEq α]

/-- `lookup`; a result of -1 is `none`. -/
def lookup (t : HashTable α β) (k : α) : Option β :=
  if t.numElems = 0 then none
  else ((Buckets.chain t.hash t.ht k).find? fun e => e.1 = k).map Prod.snd

def adjust (t : HashTable α β) (k : α) (g : β → β) : HashTable α β :=
  { t with
    ht := Buckets.rewrite t.hash t.ht k (Buckets.adjustFirst k g)
    nonempty := by
      rw [Buckets.length_rewrite]
      exact t.nonempty
    placed := Buckets.placed_adjust t.hash t.placed k g
    counted := by
      have h := Buckets.length_flatten_rewrite t.hash t.nonempty k (Buckets.adjustFirst k g)
      rw [Buckets.length_adjustFirst] at h
      have hc := t.counted
      omega }

/-- `insert`; the result is false where the source returns -1. -/
def insert (t : HashTable α β) (k : α) (v : β) : HashTable α β × Bool :=
  let found := (Buckets.chain t.hash t.ht k).any fun e => e.1 = k
  match t.duplicateKeyBehavior with
  | .rejectDuplicateKeys => if found then (t,false) else (t.addItem k v,true)
  | .updateDuplicateKeys => if found then (t.adjust k fun _ => v,true) else (t.addItem k v,true)
  | .allowDuplicateKeys => (t.addItem k v,true)

/-- `remove`: unlink the first bucket of the key. -/
def remove (t : HashTable α β) (k : α) : HashTable α β :=
  { t with
    ht := Buckets.rewrite t.hash t.ht k (List.eraseP fun e => e.1 = k)
    numElems :=
      if (Buckets.chain t.hash t.ht k).any fun e => e.1 = k then t.numElems - 1 else t.numElems
    nonempty := by
      rw [Buckets.length_rewrite]
      exact t.nonempty
    placed := Buckets.placed_rewrite t.hash t.placed k _ fun c e he =>
      .inl (mem_of_mem_eraseP he)
    counted := by
      have h := Buckets.length_flatten_rewrite t.hash t.nonempty k (List.eraseP fun e => e.1 = k)
      have hc := t.counted
      rw [length_eraseP] at h
      split at h
      · next hany =>
        have hpos : 0 < (Buckets.chain t.hash t.ht k).length := by
          obtain ⟨e,he,-⟩ := List.any_eq_true.mp hany
          exact length_pos_of_mem he
        rw [if_pos hany]
        omega
      · next hany =>
        rw [if_neg hany]
        omega }

def stack (t : HashTable α β) (k : α) : List β := Buckets.stack t.ht k

@[simp] theorem stack_initializeWith (hashF : α → UInt32) (b : DuplicateKeyBehavior) (k : α) :
    (initializeWith hashF b : HashTable α β).stack k = [] := rfl

theorem lookup_eq_head? (t : HashTable α β) (k : α) : t.lookup k = (t.stack k).head? := by
  have h := Buckets.find?_chain t.hash t.placed k
  rw [lookup]
  split
  · next h0 =>
    have hnil : t.ht.flatten = [] := by
      have hc := t.counted
      rw [h0] at hc
      exact List.length_eq_zero_iff.mp hc.symm
    simp [stack,Buckets.stack,hnil]
  · exact h

theorem any_chain (t : HashTable α β) (k : α) :
    ((Buckets.chain t.hash t.ht k).any fun e => e.1 = k) = (t.lookup k).isSome := by
  rw [lookup_eq_head?,stack,← Buckets.find?_chain t.hash t.placed k,Option.isSome_map,
    isSome_find?]

theorem stack_link (t : HashTable α β) (k : α) (v : β) (k' : α) :
    (t.link k v).stack k' = if k' = k then v :: t.stack k' else t.stack k' :=
  Buckets.stack_push t.hash t.placed t.nonempty (k,v) k'

theorem stack_resizeHashTable (t : HashTable α β) (k : α) :
    t.resizeHashTable.stack k = (t.stack k).reverse :=
  Buckets.stack_rehash t.hash t.ht (by omega) k

theorem stack_adjust (t : HashTable α β) (k : α) (g : β → β) (k' : α) :
    (t.adjust k g).stack k' = if k' = k then (t.stack k').modifyHead g else t.stack k' :=
  Buckets.stack_adjust t.hash t.placed t.nonempty k k' g

theorem stack_remove (t : HashTable α β) (k k' : α) :
    (t.remove k).stack k' = if k' = k then (t.stack k').tail else t.stack k' :=
  Buckets.stack_erase t.hash t.placed t.nonempty k k'

theorem lookup_eq_none_iff (t : HashTable α β) (k : α) : t.lookup k = none ↔ t.stack k = [] := by
  rw [lookup_eq_head?,head?_eq_none_iff]

/-- No key is in the table twice. -/
def Unique (t : HashTable α β) : Prop := ∀ k, (t.stack k).length ≤ 1

variable {t : HashTable α β} {k : α}

theorem Unique.stack_eq (h : t.Unique) {v : β} (hv : t.lookup k = some v) : t.stack k = [v] := by
  have hlen := h k
  rw [lookup_eq_head?] at hv
  cases hs : t.stack k with
  | nil => simp [hs] at hv
  | cons x xs =>
    rw [hs] at hv hlen
    have hxs : xs = [] := List.length_eq_zero_iff.mp (by simpa using hlen)
    have hx : x = v := by simpa using hv
    rw [hxs,hx]

theorem unique_initializeWith (hashF : α → UInt32) (b : DuplicateKeyBehavior) :
    (initializeWith hashF b : HashTable α β).Unique := fun _ => by simp

private theorem reverse_of_length_le_one {l : List β} (h : l.length ≤ 1) : l.reverse = l := by
  match l with
  | [] => rfl
  | [_] => rfl
  | _ :: _ :: _ => simp at h

/-- Linking a bucket for a new key changes the stack of that key only, and a stack of at most
one value survives a resize as it is. -/
theorem stack_addItem (hk : t.lookup k = none) (v : β) {k' : α} (hlen : (t.stack k').length ≤ 1) :
    (t.addItem k v).stack k' = if k' = k then [v] else t.stack k' := by
  have hlink : (t.link k v).stack k' = if k' = k then [v] else t.stack k' := by
    rw [stack_link]
    by_cases h : k' = k
    · rw [if_pos h,if_pos h,h,(lookup_eq_none_iff t k).mp hk]
    · rw [if_neg h,if_neg h]
  rw [addItem]
  split
  · rw [stack_resizeHashTable,hlink]
    apply reverse_of_length_le_one
    split
    · simp
    · exact hlen
  · exact hlink

theorem Unique.addItem (hu : t.Unique) (hk : t.lookup k = none)
    (v : β) : (t.addItem k v).Unique := by
  intro k'
  rw [stack_addItem hk v (hu k')]
  split
  · simp
  · exact hu k'

theorem Unique.adjust (hu : t.Unique) (k : α) (g : β → β) :
    (t.adjust k g).Unique := by
  intro k'
  have hlen := hu k'
  rw [stack_adjust]
  split
  · rw [length_modifyHead]
    exact hlen
  · exact hlen

theorem Unique.remove (hu : t.Unique) (k : α) : (t.remove k).Unique := by
  intro k'
  have hlen := hu k'
  rw [stack_remove]
  split
  · rw [length_tail]
    omega
  · exact hlen

theorem lookup_addItem (hu : t.Unique) (hk : t.lookup k = none)
    (v : β) (k' : α) : (t.addItem k v).lookup k' = if k' = k then some v else t.lookup k' := by
  rw [lookup_eq_head?,stack_addItem hk v (hu k'),lookup_eq_head?]
  split <;> rfl

theorem lookup_remove (hu : t.Unique) (k k' : α) :
    (t.remove k).lookup k' = if k' = k then none else t.lookup k' := by
  have hlen := hu k'
  rw [lookup_eq_head?,stack_remove,lookup_eq_head?]
  split
  · rw [head?_eq_none_iff,← length_eq_zero_iff,length_tail]
    omega
  · rfl

theorem numElems_remove {v : β} (h : t.lookup k = some v) :
    (t.remove k).numElems + 1 = t.numElems := by
  have hany : ((Buckets.chain t.hash t.ht k).any fun e => e.1 = k) = true := by
    rw [any_chain,h]
    rfl
  have hpos : t.numElems ≠ 0 := by
    intro h0
    rw [lookup,if_pos h0] at h
    cases h
  rw [remove]
  dsimp only
  rw [if_pos hany]
  omega

theorem insert_absent (hk : t.lookup k = none) (v : β) :
    t.insert k v = (t.addItem k v,true) := by
  have hany : ((Buckets.chain t.hash t.ht k).any fun e => e.1 = k) = false := by
    rw [any_chain,hk]
    rfl
  rw [insert,hany]
  cases t.duplicateKeyBehavior <;> rfl

theorem insert_present {u : β} (hk : t.lookup k = some u)
    (hb : t.duplicateKeyBehavior = .rejectDuplicateKeys) (v : β) : t.insert k v = (t,false) := by
  have hany : ((Buckets.chain t.hash t.ht k).any fun e => e.1 = k) = true := by
    rw [any_chain,hk]
    rfl
  rw [insert,hany,hb]
  rfl

omit [DecidableEq α] in
@[simp] theorem duplicateKeyBehavior_addItem (t : HashTable α β) (k : α) (v : β) :
    (t.addItem k v).duplicateKeyBehavior = t.duplicateKeyBehavior := by
  rw [addItem]
  split <;> rfl

theorem stack_insert_other {k k' : α} (hne : k' ≠ k) (v : β)
    (hlen : (t.stack k').length ≤ 1) : (t.insert k v).1.stack k' = t.stack k' := by
  have hadd : (t.addItem k v).stack k' = t.stack k' := by
    rw [addItem]
    split
    · rw [stack_resizeHashTable,stack_link,if_neg hne,reverse_of_length_le_one hlen]
    · rw [stack_link,if_neg hne]
  have hadjust : (t.adjust k fun _ => v).stack k' = t.stack k' := by
    rw [stack_adjust,if_neg hne]
  rw [insert]
  cases t.duplicateKeyBehavior with
  | allowDuplicateKeys => exact hadd
  | rejectDuplicateKeys =>
    dsimp only
    split
    · rfl
    · exact hadd
  | updateDuplicateKeys =>
    dsimp only
    split
    · exact hadjust
    · exact hadd

theorem Unique.lookup_of_mem (h : t.Unique) {e : α × β}
    (he : e ∈ t.entries) : t.lookup e.1 = some e.2 := by
  have hmem : e.2 ∈ t.stack e.1 :=
    List.mem_map.mpr ⟨e,List.mem_filter.mpr ⟨he,by simp⟩,rfl⟩
  have hlen := h e.1
  rw [lookup_eq_head?]
  match hs : t.stack e.1 with
  | [] => simp [hs] at hmem
  | [x] => simp [hs] at hmem; simp [hmem]
  | _ :: _ :: _ => simp [hs] at hlen

theorem Unique.mem_entries_iff (h : t.Unique) (e : α × β) :
    e ∈ t.entries ↔ t.lookup e.1 = some e.2 := by
  refine ⟨h.lookup_of_mem,?_⟩
  intro hl
  rw [lookup_eq_head?] at hl
  obtain ⟨e',he',hv⟩ := List.mem_map.mp (mem_of_mem_head? hl)
  have hk := List.mem_filter.mp he'
  have heq : e' = e := Prod.ext (by simpa using hk.2) hv
  exact heq ▸ hk.1

theorem Unique.nodup_keys (h : t.Unique) : (t.entries.map Prod.fst).Nodup := by
  rw [nodup_iff_count_le_one]
  intro k
  have hlen := h k
  rw [stack,Buckets.stack,length_map] at hlen
  rw [count_eq_countP,countP_map,countP_eq_length_filter]
  exact hlen

theorem mem_stack_adjust {k k' : α} {g : β → β} {x : β} (h : x ∈ (t.adjust k g).stack k') :
    x ∈ t.stack k' ∨ (k' = k ∧ ∃ y ∈ t.stack k', x = g y) := by
  rw [stack_adjust] at h
  split at h
  · next hk =>
    cases hs : t.stack k' with
    | nil => simp [hs] at h
    | cons y ys =>
      rw [hs,modifyHead_cons] at h
      rcases List.mem_cons.mp h with rfl | h
      · exact .inr ⟨hk,y,by simp,rfl⟩
      · exact .inl (by simp [h])
  · exact .inl h

theorem mem_stack_remove {k k' : α} {x : β} (h : x ∈ (t.remove k).stack k') : x ∈ t.stack k' := by
  rw [stack_remove] at h
  split at h
  · exact mem_of_mem_tail h
  · exact h

theorem mem_stack_addItem {k k' : α} {v x : β}
    (h : x ∈ (t.addItem k v).stack k') : x ∈ t.stack k' ∨ (k' = k ∧ x = v) := by
  have hlink : ∀ y ∈ (t.link k v).stack k', y ∈ t.stack k' ∨ (k' = k ∧ y = v) := by
    intro y hy
    rw [stack_link] at hy
    split at hy
    · next hk =>
      rcases List.mem_cons.mp hy with rfl | hy
      · exact .inr ⟨hk,rfl⟩
      · exact .inl hy
    · exact .inl hy
  rw [addItem] at h
  split at h
  · rw [stack_resizeHashTable,mem_reverse] at h
    exact hlink x h
  · exact hlink x h

theorem mem_stack_insert {k k' : α} {v x : β}
    (h : x ∈ (t.insert k v).1.stack k') : x ∈ t.stack k' ∨ (k' = k ∧ x = v) := by
  have hadjust : x ∈ (t.adjust k fun _ => v).stack k' → x ∈ t.stack k' ∨ (k' = k ∧ x = v) := by
    intro h
    rcases mem_stack_adjust h with h | ⟨hk,_,-,hx⟩
    · exact .inl h
    · exact .inr ⟨hk,hx⟩
  rw [insert] at h
  cases hb : t.duplicateKeyBehavior with
  | allowDuplicateKeys =>
    rw [hb] at h
    exact mem_stack_addItem h
  | rejectDuplicateKeys =>
    simp only [hb] at h
    split at h
    · exact .inl h
    · exact mem_stack_addItem h
  | updateDuplicateKeys =>
    simp only [hb] at h
    split at h
    · exact hadjust h
    · exact mem_stack_addItem h

theorem lookup_adjust (t : HashTable α β) (k : α) (g : β → β) (k' : α) :
    (t.adjust k g).lookup k' = if k' = k then (t.lookup k').map g else t.lookup k' := by
  rw [lookup_eq_head?,lookup_eq_head?,stack_adjust]
  split
  · cases t.stack k' <;> rfl
  · rfl

end HashTable

end Condor
