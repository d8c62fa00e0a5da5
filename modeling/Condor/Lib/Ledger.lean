import Mathlib.Data.List.Perm.Basic

/-!
# Tables and states with pending changes

A table of entries under keys that takes several entries under one key, the newest first.
-/

namespace Condor.Lib

open List

abbrev Table (κ β : Type) := List (κ × β)

namespace Table

variable {κ β : Type}

def keys (t : Table κ β) : List κ := t.map Prod.fst

@[simp] theorem keys_nil : keys ([] : Table κ β) = [] := rfl

@[simp] theorem keys_cons (e : κ × β) (t : Table κ β) : keys (e :: t) = e.1 :: keys t := rfl

variable [DecidableEq κ]

def lookup (t : Table κ β) (k : κ) : Option β := (t.find? fun e => e.1 = k).map Prod.snd

def adjust (f : β → β) (k : κ) : Table κ β → Table κ β
  | [] => []
  | e :: t => if e.1 = k then (e.1,f e.2) :: t else e :: adjust f k t

def remove (t : Table κ β) (k : κ) : Table κ β := t.eraseP fun e => e.1 = k

@[simp] theorem lookup_nil (k : κ) : lookup ([] : Table κ β) k = none := rfl

theorem lookup_cons (e : κ × β) (t : Table κ β) (k : κ) :
    lookup (e :: t) k = if e.1 = k then some e.2 else lookup t k := by
  by_cases h : e.1 = k <;> simp [lookup,h]

variable {t : Table κ β} {k : κ}

theorem lookup_isSome : (lookup t k).isSome ↔ k ∈ keys t := by
  simp [lookup,keys]

theorem mem_of_lookup {b : β} (h : lookup t k = some b) : (k,b) ∈ t := by
  rw [lookup,Option.map_eq_some_iff] at h
  obtain ⟨e,he,rfl⟩ := h
  have hk : e.1 = k := by simpa using find?_some he
  exact hk ▸ mem_of_find?_eq_some he

@[simp] theorem keys_adjust (f : β → β) (k : κ) (t : Table κ β) : keys (adjust f k t) = keys t := by
  induction t with
  | nil => rfl
  | cons e t ih =>
    rw [adjust]
    split
    · rfl
    · rw [keys_cons,ih,keys_cons]

theorem keys_remove (t : Table κ β) (k : κ) : keys (remove t k) = (keys t).erase k := by
  induction t with
  | nil => rfl
  | cons e t ih =>
    rw [remove] at ih ⊢
    by_cases h : e.1 = k
    · simp [h]
    · rw [eraseP_cons_of_neg (by simpa using h),keys_cons,ih,keys_cons,
        erase_cons_tail (by simpa using h)]

theorem lookup_adjust (f : β → β) (k : κ) (t : Table κ β) (k' : κ) :
    lookup (adjust f k t) k' = if k' = k then (lookup t k).map f else lookup t k' := by
  induction t with
  | nil => simp [adjust]
  | cons e t ih =>
    rw [adjust]
    by_cases h : e.1 = k
    · rw [if_pos h,lookup_cons,lookup_cons,lookup_cons,if_pos h]
      by_cases hk : k' = k
      · simp [h,hk]
      · have hne : ¬ e.1 = k' := fun he => hk (he.symm.trans h)
        simp [hne,hk]
    · rw [if_neg h,lookup_cons,ih,lookup_cons,lookup_cons,if_neg h]
      by_cases hk : k' = k
      · subst hk
        simp [h]
      · rw [if_neg hk,if_neg hk]

theorem lookup_remove_ne (t : Table κ β) {k k' : κ} (hne : k' ≠ k) :
    lookup (remove t k) k' = lookup t k' := by
  induction t with
  | nil => rfl
  | cons e t ih =>
    rw [remove] at ih ⊢
    by_cases h : e.1 = k
    · have hk : ¬ e.1 = k' := fun he => hne (he.symm.trans h)
      rw [eraseP_cons_of_pos (by simpa using h),lookup_cons,if_neg hk]
    · rw [eraseP_cons_of_neg (by simpa using h),lookup_cons,lookup_cons,ih]

/-! The entries of one key. A change under another key does not touch them. -/

def column (t : Table κ β) (k : κ) : List β := (t.filter fun e => e.1 = k).map Prod.snd

theorem column_cons (e : κ × β) (t : Table κ β) (k : κ) :
    column (e :: t) k = if e.1 = k then e.2 :: column t k else column t k := by
  by_cases h : e.1 = k <;> simp [column,h]

theorem lookup_eq_head (t : Table κ β) (k : κ) : lookup t k = (column t k).head? := by
  induction t with
  | nil => rfl
  | cons e t ih =>
    rw [lookup_cons,column_cons]
    split
    · rfl
    · exact ih

theorem column_adjust_ne (f : β → β) {k k' : κ} (h : k' ≠ k) (t : Table κ β) :
    column (adjust f k t) k' = column t k' := by
  induction t with
  | nil => rfl
  | cons e t ih =>
    rw [adjust]
    split
    · next he =>
      have hne : ¬ e.1 = k' := fun hk => h (hk.symm.trans he)
      rw [column_cons,column_cons,if_neg hne,if_neg hne]
    · rw [column_cons,column_cons,ih]

theorem column_remove_ne {k k' : κ} (h : k' ≠ k) (t : Table κ β) :
    column (remove t k) k' = column t k' := by
  induction t with
  | nil => rfl
  | cons e t ih =>
    rw [remove] at ih ⊢
    by_cases he : e.1 = k
    · have hne : ¬ e.1 = k' := fun hk => h (hk.symm.trans he)
      rw [eraseP_cons_of_pos (by simpa using he),column_cons,if_neg hne]
    · rw [eraseP_cons_of_neg (by simpa using he),column_cons,column_cons,ih]

theorem column_remove_self (k : κ) (t : Table κ β) :
    column (remove t k) k = (column t k).tail := by
  induction t with
  | nil => rfl
  | cons e t ih =>
    rw [remove] at ih ⊢
    by_cases he : e.1 = k
    · rw [eraseP_cons_of_pos (by simpa using he),column_cons,if_pos he,tail_cons]
    · rw [eraseP_cons_of_neg (by simpa using he),column_cons,column_cons,if_neg he,if_neg he,ih]

def adjustHead (f : β → β) : List β → List β
  | [] => []
  | b :: bs => f b :: bs

theorem column_adjust_self (f : β → β) (k : κ) (t : Table κ β) :
    column (adjust f k t) k = adjustHead f (column t k) := by
  induction t with
  | nil => rfl
  | cons e t ih =>
    rw [adjust]
    by_cases he : e.1 = k
    · rw [if_pos he,column_cons,column_cons,if_pos he,if_pos he,adjustHead]
    · rw [if_neg he,column_cons,column_cons,if_neg he,if_neg he,ih]

theorem mem_adjust {f : β → β} {e : κ × β} (h : e ∈ adjust f k t) :
    e ∈ t ∨ ∃ b, (k,b) ∈ t ∧ e = (k,f b) := by
  induction t with
  | nil => exact .inl h
  | cons e' t ih =>
    rw [adjust] at h
    split at h
    · next he =>
      rcases List.mem_cons.mp h with rfl | h
      · exact .inr ⟨e'.2,by rw [← he]; exact mem_cons_self,by rw [he]⟩
      · exact .inl (mem_cons_of_mem _ h)
    · rcases List.mem_cons.mp h with rfl | h
      · exact .inl mem_cons_self
      · exact (ih h).imp (mem_cons_of_mem _) fun ⟨b,hb,he⟩ => ⟨b,mem_cons_of_mem _ hb,he⟩

theorem mem_column {b : β} : b ∈ column t k ↔ (k,b) ∈ t := by
  simp [column]

theorem column_of_nodup (h : (keys t).Nodup) {b : β}
    (hb : lookup t k = some b) : column t k = [b] := by
  induction t with
  | nil => simp at hb
  | cons e t ih =>
    rw [keys_cons,nodup_cons] at h
    rw [lookup_cons] at hb
    rw [column_cons]
    split at hb
    · next he =>
      have hnone : column t k = [] := by
        refine List.eq_nil_iff_forall_not_mem.mpr fun b' hb' => h.1 ?_
        rw [he]
        exact mem_map_of_mem (f := Prod.fst) (mem_column.mp hb')
      cases hb
      rw [if_pos he,hnone]
    · next he =>
      rw [if_neg he]
      exact ih h.2 hb

end Table

structure Ledger (σ ο : Type) where
  committed : σ
  pending : Option (List ο)

namespace Ledger

variable {σ ο : Type} (play : ο → σ → σ)

def playAll (ops : List ο) (s : σ) : σ := ops.foldl (fun s o => play o s) s

def view (l : Ledger σ ο) : σ := playAll play (l.pending.getD []) l.committed

def append (l : Ledger σ ο) (o : ο) : Ledger σ ο :=
  match l.pending with
  | none => { l with committed := play o l.committed }
  | some ops => { l with pending := some (ops ++ [o]) }

def commit (l : Ledger σ ο) : Ledger σ ο := ⟨l.view play,none⟩

def abort (l : Ledger σ ο) : Ledger σ ο := { l with pending := none }

def start (l : Ledger σ ο) : Ledger σ ο := { l with pending := some [] }

@[simp] theorem playAll_nil (s : σ) : playAll play [] s = s := rfl

@[simp] theorem playAll_cons (o : ο) (ops : List ο) (s : σ) :
    playAll play (o :: ops) s = playAll play ops (play o s) := rfl

@[simp] theorem view_append (l : Ledger σ ο) (o : ο) :
    (l.append play o).view play = play o (l.view play) := by
  rw [append,view,view]
  split
  · next h => simp [h]
  · next ops h => simp [h,playAll]

theorem view_of_none {l : Ledger σ ο} (h : l.pending = none) : l.view play = l.committed := by
  rw [view,h]
  rfl

theorem committed_append {l : Ledger σ ο} {ops : List ο} (h : l.pending = some ops) (o : ο) :
    (l.append play o).committed = l.committed := by
  rw [append,h]

@[simp] theorem pending_append_isSome (l : Ledger σ ο) (o : ο) :
    (l.append play o).pending.isSome = l.pending.isSome := by
  rw [append]
  split <;> simp_all

/-- A property of the committed state and of what a commit would leave. -/
def Both (P : σ → Prop) (l : Ledger σ ο) : Prop := P l.committed ∧ P (l.view play)

variable {play} {P : σ → Prop} {l : Ledger σ ο}

theorem Both.append (h : Both play P l) {o : ο} (ho : P (l.view play) → P (play o (l.view play))) :
    Both play P (l.append play o) := by
  refine ⟨?_,?_⟩
  · cases hp : l.pending with
    | none =>
      have hview := ho h.2
      rw [view_of_none play hp] at hview
      rw [Ledger.append,hp]
      exact hview
    | some ops =>
      rw [committed_append play hp]
      exact h.1
  · rw [view_append]
    exact ho h.2

theorem Both.mono {Q : σ → Prop} (h : Both play P l) (hPQ : ∀ s, P s → Q s) : Both play Q l :=
  ⟨hPQ _ h.1,hPQ _ h.2⟩

theorem Both.abort (h : Both play P l) : Both play P l.abort := ⟨h.1,h.1⟩

theorem Both.start (h : Both play P l) : Both play P l.start := ⟨h.1,h.1⟩

end Ledger

end Condor.Lib
