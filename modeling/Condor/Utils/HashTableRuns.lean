import Mathlib.Data.Set.Card
import Condor.Lib.TwoRuns
import Condor.Utils.HashTable

/-!
# Runs of the hash table

A table that rejects or updates duplicate keys is a finite map: whatever is inserted, looked
up, removed and cleared, its answers are those of the map, and so is what it holds.
-/

namespace Condor

open Lib List Function

namespace HashTable

variable {α β : Type} [DecidableEq α]

/-- `exists`; a result of -1 is false. -/
def existsKey (t : HashTable α β) (k : α) : Bool :=
  if t.numElems = 0 then false else (Buckets.chain t.hash t.ht k).any fun e => e.1 = k

omit [DecidableEq α] in
/-- `clear`. The array keeps its size. -/
def clear (t : HashTable α β) : HashTable α β :=
  { t with
    ht := List.replicate t.tableSize []
    numElems := 0
    nonempty := by
      rw [length_replicate]
      exact t.nonempty
    placed := Buckets.placed_replicate _ _
    counted := by simp }

inductive Call (α β : Type)
  | insert (k : α) (v : β)
  | lookup (k : α)
  | existsKey (k : α)
  | remove (k : α)
  | clear

inductive Reply (β : Type)
  | ok
  | failed
  | value (v : β)
  deriving DecidableEq

def Reply.of (found : Bool) : Reply β := if found then .ok else .failed

def call (t : HashTable α β) : Call α β → HashTable α β × Reply β
  | .insert k v => ((t.insert k v).1,.of (t.insert k v).2)
  | .lookup k => (t,((t.lookup k).map Reply.value).getD .failed)
  | .existsKey k => (t,.of (t.existsKey k))
  | .remove k => (t.remove k,.of ((Buckets.chain t.hash t.ht k).any fun e => e.1 = k))
  | .clear => (t.clear,.ok)

def mapCall (b : DuplicateKeyBehavior) (m : α → Option β) :
    Call α β → (α → Option β) × Reply β
  | .insert k v =>
    if (m k).isSome ∧ b = .rejectDuplicateKeys then (m,.failed)
    else (update m k (some v),.ok)
  | .lookup k => (m,((m k).map Reply.value).getD .failed)
  | .existsKey k => (m,.of (m k).isSome)
  | .remove k => (update m k none,.of (m k).isSome)
  | .clear => (fun _ => none,.ok)

private theorem existsKey_eq (t : HashTable α β) (k : α) : t.existsKey k = (t.lookup k).isSome := by
  rw [existsKey]
  split
  · next h0 =>
    rw [lookup,if_pos h0]
    rfl
  · exact t.any_chain k

private theorem stack_clear (t : HashTable α β) (k : α) : t.clear.stack k = [] := by
  have hnil : t.clear.ht.flatten = [] :=
    List.length_eq_zero_iff.mp t.clear.counted.symm
  rw [stack,Buckets.stack,hnil]
  rfl

structure Holds (hashF : α → UInt32) (b : DuplicateKeyBehavior) (t : HashTable α β)
    (m : α → Option β) : Prop where
  hashes : t.hashfcn = hashF
  behaves : t.duplicateKeyBehavior = b
  unique : t.Unique
  lookup : ∀ k, t.lookup k = m k

variable {hashF : α → UInt32} {b : DuplicateKeyBehavior} {t : HashTable α β} {m : α → Option β}

private theorem holds_initializeWith (hashF : α → UInt32) (b : DuplicateKeyBehavior) :
    Holds hashF b (initializeWith hashF b : HashTable α β) fun _ => none where
  hashes := rfl
  behaves := rfl
  unique := unique_initializeWith hashF b
  lookup k := (lookup_eq_none_iff _ k).mpr (stack_initializeWith hashF b k)

omit [DecidableEq α] in
theorem hashfcn_addItem (t : HashTable α β) (k : α) (v : β) :
    (t.addItem k v).hashfcn = t.hashfcn := by
  rw [addItem]
  split <;> rfl

theorem Holds.addItem (h : Holds hashF b t m) {k : α} (hk : m k = none) (v : β) :
    Holds hashF b (t.addItem k v) (update m k (some v)) where
  hashes := (t.hashfcn_addItem k v).trans h.hashes
  behaves := (t.duplicateKeyBehavior_addItem k v).trans h.behaves
  unique := h.unique.addItem ((h.lookup k).trans hk) v
  lookup k' := by
    rw [lookup_addItem h.unique ((h.lookup k).trans hk),update_apply,h.lookup]

theorem Holds.adjust (h : Holds hashF b t m) {k : α} {u : β} (hk : m k = some u) (v : β) :
    Holds hashF b (t.adjust k fun _ => v) (update m k (some v)) where
  hashes := h.hashes
  behaves := h.behaves
  unique := h.unique.adjust k _
  lookup k' := by
    rw [lookup_adjust,update_apply,h.lookup]
    split
    · next heq =>
      rw [heq,hk]
      rfl
    · rfl

theorem Holds.remove (h : Holds hashF b t m) (k : α) :
    Holds hashF b (t.remove k) (update m k none) where
  hashes := h.hashes
  behaves := h.behaves
  unique := h.unique.remove k
  lookup k' := by rw [lookup_remove h.unique,update_apply,h.lookup]

theorem Holds.clear (h : Holds hashF b t m) : Holds hashF b t.clear fun _ => none where
  hashes := h.hashes
  behaves := h.behaves
  unique k := by simp [stack_clear]
  lookup k := (lookup_eq_none_iff _ k).mpr (t.stack_clear k)

theorem Holds.insert (hb : b ≠ .allowDuplicateKeys) (h : Holds hashF b t m) (k : α) (v : β) :
    Holds hashF b (t.call (.insert k v)).1 (mapCall b m (.insert k v)).1 ∧
      (t.call (.insert k v)).2 = (mapCall b m (.insert k v)).2 := by
  cases hk : m k with
  | none =>
    have hins := insert_absent ((h.lookup k).trans hk) v
    simp only [call,mapCall,hins,hk,Option.isSome_none,Bool.false_eq_true,false_and,if_false]
    exact ⟨h.addItem hk v,rfl⟩
  | some u =>
    have hl : t.lookup k = some u := (h.lookup k).trans hk
    cases hbeh : b with
    | allowDuplicateKeys => exact absurd hbeh hb
    | rejectDuplicateKeys =>
      have hins := insert_present hl (h.behaves.trans hbeh) v
      simp only [call,mapCall,hins,hk,Option.isSome_some,true_and,if_true]
      exact ⟨hbeh ▸ h,rfl⟩
    | updateDuplicateKeys =>
      have hfound : ((Buckets.chain t.hash t.ht k).any fun e => e.1 = k) = true := by
        rw [any_chain,hl]
        rfl
      have hins : t.insert k v = (t.adjust k fun _ => v,true) := by
        rw [HashTable.insert,h.behaves,hbeh,hfound]
        rfl
      simp only [call,mapCall,hins,hk,reduceCtorEq,and_false,if_false]
      exact ⟨hbeh ▸ h.adjust hk v,rfl⟩

theorem Holds.call (hb : b ≠ .allowDuplicateKeys) (h : Holds hashF b t m) (c : Call α β) :
    Holds hashF b (t.call c).1 (mapCall b m c).1 ∧ (t.call c).2 = (mapCall b m c).2 := by
  cases c with
  | insert k v => exact h.insert hb k v
  | lookup k => exact ⟨h,by simp only [HashTable.call,mapCall,h.lookup]⟩
  | existsKey k => exact ⟨h,by simp only [HashTable.call,mapCall,existsKey_eq,h.lookup]⟩
  | remove k => exact ⟨h.remove k,by simp only [HashTable.call,mapCall,any_chain,h.lookup]⟩
  | clear => exact ⟨h.clear,rfl⟩

private theorem Holds.numElems_eq (h : Holds hashF b t m) : t.numElems =
    {k | (m k).isSome}.ncard := by
  have hkeys : {k | (m k).isSome} = ((t.entries.map Prod.fst).toFinset : Set α) := by
    ext k
    simp only [Set.mem_ofPred_eq,coe_toFinset,mem_map]
    rw [← h.lookup k,Option.isSome_iff_exists]
    constructor
    · rintro ⟨v,hv⟩
      exact ⟨(k,v),(h.unique.mem_entries_iff (k,v)).mpr hv,rfl⟩
    · rintro ⟨e,he,rfl⟩
      exact ⟨e.2,h.unique.lookup_of_mem he⟩
  rw [hkeys,Set.ncard_coe_finset,toFinset_card_of_nodup h.unique.nodup_keys,length_map,
    t.counted]
  rfl

/-- Without duplicate keys a table answers every sequence of calls as the map does, every bucket
sits in the chain of its hash, and the elements are counted. -/
theorem refines_map (hashF : α → UInt32) {b : DuplicateKeyBehavior}
    (hb : b ≠ .allowDuplicateKeys) (calls : List (Call α β)) :
    let table := answers call (initializeWith hashF b : HashTable α β) calls
    let map := answers (mapCall b) (fun _ => none) calls
    table.2 = map.2 ∧ (∀ k, table.1.lookup k = map.1 k) ∧
      (∀ i, ∀ e ∈ table.1.ht.getD i [], (hashF e.1).toNat % table.1.tableSize = i) ∧
      table.1.numElems = {k | (map.1 k).isSome}.ncard := by
  intro table map
  obtain ⟨hholds,hsame⟩ := answers_simulates (R := Holds hashF b)
    (fun _ _ c h => Holds.call hb h c) (holds_initializeWith hashF b) calls
  refine ⟨hsame,hholds.lookup,?_,hholds.numElems_eq⟩
  intro i e he
  have hslot := table.1.placed i e he
  rw [Buckets.slot,hholds.hashes] at hslot
  exact hslot

/-- Six keys of one hash, enough for a resize, then an update and two removals. -/
theorem refines_map_colliding :
    let calls : List (Call Nat Nat) :=
      [.insert 1 10,.insert 2 20,.insert 3 30,.insert 4 40,.insert 5 50,.insert 6 60,
        .insert 3 31,.remove 1,.remove 1,.lookup 3]
    let table :=
      answers call (initializeWith (fun _ => 5) .updateDuplicateKeys : HashTable Nat Nat) calls
    table.2 = [.ok,.ok,.ok,.ok,.ok,.ok,.ok,.ok,.failed,.value 31] ∧ table.1.tableSize = 15 ∧
      table.1.numElems =
        {k | ((answers (mapCall .updateDuplicateKeys)
          (fun _ => none) calls).1 k).isSome}.ncard := by
  intro calls table
  exact ⟨by decide,by decide,
    (refines_map (fun _ => 5) (by decide) calls).2.2.2⟩

end HashTable

end Condor
