import Mathlib.Data.List.Nodup

/-!
# A store of records with transactions

A table of records under keys, changed by operations that make a record, set one of its fields, or
destroy it.
-/

namespace Condor.Lib.RecordStore

open List Function Option

variable {κ α ν : Type}

abbrev Rec (α ν : Type) := α → Option ν

abbrev Table (κ α ν : Type) := List (κ × Rec α ν)

inductive Op (κ α ν : Type)
  | new (k : κ)
  | set (k : κ) (a : α) (v : ν)
  | destroy (k : κ)

variable [DecidableEq κ]

def lookup (t : Table κ α ν) (k : κ) : Option (Rec α ν) := (t.find? fun e => e.1 = k).map Prod.snd

def adjust (f : Rec α ν → Rec α ν) (k : κ) : Table κ α ν → Table κ α ν
  | [] => []
  | e :: t => if e.1 = k then (e.1,f e.2) :: t else e :: adjust f k t

def Distinct (t : Table κ α ν) : Prop := (t.map Prod.fst).Nodup

theorem lookup_cons (e : κ × Rec α ν) (t : Table κ α ν) (k : κ) :
    lookup (e :: t) k = if e.1 = k then some e.2 else lookup t k := by
  by_cases h : e.1 = k <;> simp [lookup,h]

variable {t : Table κ α ν}

theorem lookup_eq_none {k : κ} : lookup t k = none ↔ k ∉ t.map Prod.fst := by
  induction t with
  | nil => simp [lookup]
  | cons e t ih =>
    rw [lookup_cons]
    by_cases h : e.1 = k
    · simp [h]
    · rw [if_neg h,ih,map_cons,mem_cons,not_or]
      exact ⟨fun hk => ⟨fun heq => h heq.symm,hk⟩,fun hk => hk.2⟩

theorem keys_adjust (f : Rec α ν → Rec α ν) (k : κ) (t : Table κ α ν) :
    (adjust f k t).map Prod.fst = t.map Prod.fst := by
  induction t with
  | nil => rfl
  | cons e t ih =>
    rw [adjust]
    split
    · rfl
    · rw [map_cons,ih,map_cons]

theorem lookup_adjust (f : Rec α ν → Rec α ν) (k : κ) (t : Table κ α ν) (k' : κ) :
    lookup (adjust f k t) k' = if k' = k then (lookup t k).map f else lookup t k' := by
  induction t with
  | nil => simp [adjust,lookup]
  | cons e t ih =>
    rw [adjust]
    by_cases h : e.1 = k
    · rw [if_pos h,lookup_cons,lookup_cons,lookup_cons,if_pos h]
      by_cases hk : k' = k
      · simp [h,hk]
      · have hne : ¬ e.1 = k' := fun he => hk (he.symm.trans h)
        simp [hne,hk]
    · rw [if_neg h,lookup_cons,ih,lookup_cons,lookup_cons,if_neg h]
      by_cases hk : k' = k
      · subst hk
        simp [h]
      · rw [if_neg hk,if_neg hk]

theorem lookup_erase (h : Distinct t) (k k' : κ) :
    lookup (t.eraseP fun e => e.1 = k) k' = if k' = k then none else lookup t k' := by
  induction t with
  | nil => simp [lookup]
  | cons e t ih =>
    obtain ⟨he,ht⟩ := List.nodup_cons.mp h
    by_cases hk : e.1 = k
    · rw [eraseP_cons_of_pos (by simpa using hk)]
      by_cases hk' : k' = k
      · rw [if_pos hk',hk',← hk]
        exact lookup_eq_none.mpr he
      · have hne : ¬ e.1 = k' := fun he => hk' (he.symm.trans hk)
        rw [if_neg hk',lookup_cons,if_neg hne]
    · rw [eraseP_cons_of_neg (by simpa using hk),lookup_cons,lookup_cons,ih ht]
      by_cases hk' : k' = k
      · subst hk'
        simp [hk]
      · rw [if_neg hk',if_neg hk']

theorem distinct_erase (h : Distinct t) (k : κ) :
    Distinct (t.eraseP fun e => e.1 = k) :=
  h.sublist (List.eraseP_sublist.map Prod.fst)

variable [DecidableEq α]

def play : Op κ α ν → Table κ α ν → Table κ α ν
  | .new k, t => (k,fun _ => none) :: t
  | .set k a v, t => adjust (fun r => update r a (some v)) k t
  | .destroy k, t => t.eraseP fun e => e.1 = k

def playAll (ops : List (Op κ α ν)) (t : Table κ α ν) : Table κ α ν :=
  ops.foldl (fun t op => play op t) t

structure Log (κ α ν : Type) where
  table : Table κ α ν
  transaction : Option (List (Op κ α ν))

namespace Log

def beginTransaction (l : Log κ α ν) : Log κ α ν := { l with transaction := some [] }

def commitTransaction (l : Log κ α ν) : Log κ α ν where
  table := playAll (l.transaction.getD []) l.table
  transaction := none

def append (l : Log κ α ν) (op : Op κ α ν) : Log κ α ν :=
  match l.transaction with
  | none => { l with table := play op l.table }
  | some ops => { l with transaction := some (ops ++ [op]) }

def get (l : Log κ α ν) (k : κ) (a : α) : Option ν := (lookup l.table k).bind fun r => r a

def tells (k : κ) (there : Bool) : Op κ α ν → Bool
  | .new k' => if k' = k then true else there
  | .destroy k' => if k' = k then false else there
  | .set .. => there

def adExists (l : Log κ α ν) (k : κ) : Bool :=
  (l.transaction.getD []).foldl (tells k) (lookup l.table k).isSome

def setAttribute (l : Log κ α ν) (k : κ) (a : α) (v : ν) : Log κ α ν :=
  (if l.adExists k then l else l.append (.new k)).append (.set k a v)

def deleteClassAd (l : Log κ α ν) (k : κ) : Log κ α ν :=
  if (lookup l.table k).isSome then l.append (.destroy k) else l

def view (l : Log κ α ν) : Table κ α ν := playAll (l.transaction.getD []) l.table

structure Clean (l : Log κ α ν) : Prop where
  distinct : Distinct l.view
  known : ∀ k, l.adExists k = (lookup l.view k).isSome

theorem view_append (l : Log κ α ν) (op : Op κ α ν) : (l.append op).view = play op l.view := by
  rw [append,view,view]
  split
  · next h => simp [h,playAll]
  · next ops h => simp [h,playAll]

variable {l : Log κ α ν}

theorem adExists_append (hl : ∀ k, l.adExists k = (lookup l.view k).isSome)
    (op : Op κ α ν) (k : κ) (hop : (lookup (play op l.view) k).isSome =
      tells k (lookup l.view k).isSome op) :
    (l.append op).adExists k = (lookup (l.append op).view k).isSome := by
  rw [view_append,hop,← hl k,append,adExists,adExists]
  split
  · next h =>
    have hv : l.view = l.table := by rw [view,h]; rfl
    rw [hv] at hop
    simp [h,hop]
  · next ops h => simp [h]

theorem Clean.new (h : l.Clean) {k : κ} (hk : l.adExists k = false) :
    (l.append (.new k)).Clean := by
  have hnone : lookup l.view k = none := by
    rw [h.known k] at hk
    simpa using hk
  refine ⟨?_,fun k' => adExists_append h.known _ k' ?_⟩
  · rw [view_append]
    exact List.nodup_cons.mpr ⟨lookup_eq_none.mp hnone,h.distinct⟩
  · rw [play,lookup_cons,tells]
    split <;> rfl

theorem Clean.set (h : l.Clean) (k : κ) (a : α) (v : ν) :
    (l.append (.set k a v)).Clean := by
  refine ⟨?_,fun k' => adExists_append h.known _ k' ?_⟩
  · rw [view_append,Distinct,play,keys_adjust]
    exact h.distinct
  · rw [play,lookup_adjust,tells]
    split
    · next hk => rw [hk,isSome_map]
    · rfl

theorem Clean.setAttribute (h : l.Clean) (k : κ) (a : α) (v : ν) :
    (l.setAttribute k a v).Clean := by
  rw [Log.setAttribute]
  split
  · exact h.set k a v
  · next hk => exact (h.new (by simpa using hk)).set k a v

theorem Clean.deleteClassAd (h : l.Clean) (k : κ) :
    (l.deleteClassAd k).Clean := by
  rw [Log.deleteClassAd]
  split
  · refine ⟨?_,fun k' => adExists_append h.known _ k' ?_⟩
    · rw [view_append]
      exact distinct_erase h.distinct k
    · rw [play,lookup_erase h.distinct,tells]
      by_cases hk : k' = k
      · simp [hk]
      · rw [if_neg hk,if_neg fun he => hk he.symm]
  · exact h

theorem lookup_setAttribute (h : l.Clean) (k : κ) (a : α) (v : ν) (k' : κ) :
    lookup (l.setAttribute k a v).view k' =
      if k' = k then some (update ((lookup l.view k).getD fun _ => none) a (some v))
      else lookup l.view k' := by
  rw [Log.setAttribute,view_append,play,lookup_adjust]
  by_cases hk : k' = k
  · rw [if_pos hk,if_pos hk]
    cases hex : l.adExists k with
    | true =>
      rw [if_pos rfl]
      rw [h.known k,isSome_iff_exists] at hex
      obtain ⟨r,hr⟩ := hex
      rw [hr]
      rfl
    | false =>
      have hnone : lookup l.view k = none := by
        rw [h.known k] at hex
        simpa using hex
      rw [if_neg (by simp),view_append,play,lookup_cons,if_pos rfl,hnone]
      rfl
  · rw [if_neg hk,if_neg hk]
    split
    · rfl
    · rw [view_append,play,lookup_cons,if_neg fun he => hk he.symm]

theorem lookup_deleteClassAd (h : l.Clean) (k k' : κ)
    (hk : lookup l.view k ≠ none → lookup l.table k ≠ none) :
    lookup (l.deleteClassAd k).view k' = if k' = k then none else lookup l.view k' := by
  rw [Log.deleteClassAd]
  split
  · rw [view_append,play,lookup_erase h.distinct]
  · next hnone =>
    split
    · next hk' =>
      have hn : lookup l.table k = none := by simpa using hnone
      rw [hk']
      by_contra hv
      exact hk hv hn
    · rfl

def Open (l : Log κ α ν) (t : Table κ α ν) : Prop := l.transaction.isSome ∧ l.table = t

theorem Open.append (h : l.Open t) (op : Op κ α ν) :
    (l.append op).Open t := by
  obtain ⟨ops,hops⟩ := Option.isSome_iff_exists.mp h.1
  rw [Log.append,hops]
  exact ⟨rfl,h.2⟩

theorem Open.setAttribute (h : l.Open t) (k : κ) (a : α)
    (v : ν) : (l.setAttribute k a v).Open t := by
  rw [Log.setAttribute]
  split
  · exact h.append _
  · exact (h.append _).append _

theorem Open.deleteClassAd (h : l.Open t) (k : κ) :
    (l.deleteClassAd k).Open t := by
  rw [Log.deleteClassAd]
  split
  · exact h.append _
  · exact h

theorem begin_view : l.beginTransaction.view = l.table := rfl

theorem Clean.begin (h : Distinct l.table) : l.beginTransaction.Clean :=
  ⟨h,fun _ => rfl⟩

def viewGet (l : Log κ α ν) (k : κ) (a : α) : Option ν := (lookup l.view k).bind fun r => r a

theorem viewGet_setAttribute (h : l.Clean) (k : κ) (a : α) (v : ν) (k' : κ)
    (a' : α) : (l.setAttribute k a v).viewGet k' a' =
      if k' = k ∧ a' = a then some v else l.viewGet k' a' := by
  rw [viewGet,lookup_setAttribute h]
  by_cases hk : k' = k
  · subst hk
    rw [if_pos rfl,bind_some,update_apply]
    by_cases ha : a' = a
    · simp [ha]
    · rw [if_neg ha,if_neg (by simp [ha]),viewGet]
      cases lookup l.view k' <;> rfl
  · rw [if_neg hk,if_neg (by simp [hk]),viewGet]

def There (l : Log κ α ν) (k : κ) : Prop := lookup l.view k ≠ none

theorem commit_get (l : Log κ α ν) (k : κ) (a : α) :
    l.commitTransaction.get k a = l.viewGet k a := rfl

theorem commit_there (l : Log κ α ν) (k : κ) : l.commitTransaction.There k ↔ l.There k := Iff.rfl

theorem there_setAttribute (h : l.Clean) (k : κ) (a : α) (v : ν) (k' : κ) :
    (l.setAttribute k a v).There k' ↔ k' = k ∨ l.There k' := by
  rw [There,lookup_setAttribute h]
  by_cases hk : k' = k
  · simp [hk]
  · simp [hk,There]

theorem viewGet_deleteClassAd (h : l.Clean) {k : κ}
    (hk : l.There k → lookup l.table k ≠ none) (k' : κ) (a : α) :
    (l.deleteClassAd k).viewGet k' a = if k' = k then none else l.viewGet k' a := by
  rw [viewGet,lookup_deleteClassAd h k k' hk]
  split <;> rfl

theorem there_deleteClassAd (h : l.Clean) {k : κ}
    (hk : l.There k → lookup l.table k ≠ none) (k' : κ) :
    (l.deleteClassAd k).There k' ↔ k' ≠ k ∧ l.There k' := by
  rw [There,lookup_deleteClassAd h k k' hk]
  by_cases hk' : k' = k
  · simp [hk']
  · simp [hk',There]

def setAll (l : Log κ α ν) (k : κ) (ws : List (α × ν)) : Log κ α ν :=
  ws.foldl (fun l w => l.setAttribute k w.1 w.2) l

def lastWritten (ws : List (α × ν)) (a : α) : Option ν :=
  (ws.reverse.find? fun w => w.1 = a).map Prod.snd

omit [DecidableEq κ] in
theorem lastWritten_cons (w : α × ν) (ws : List (α × ν)) (a : α) :
    lastWritten (w :: ws) a = (lastWritten ws a).or (if w.1 = a then some w.2 else none) := by
  rw [lastWritten,lastWritten,reverse_cons,find?_append]
  cases ws.reverse.find? fun w => w.1 = a with
  | some v => rfl
  | none => by_cases h : w.1 = a <;> simp [h]

theorem Clean.setAll (h : l.Clean) (k : κ) (ws : List (α × ν)) :
    (l.setAll k ws).Clean := by
  induction ws generalizing l with
  | nil => exact h
  | cons w ws ih => exact ih (h.setAttribute k w.1 w.2)

theorem Open.setAll (h : l.Open t) (k : κ) (ws : List (α × ν)) : (l.setAll k ws).Open t := by
  induction ws generalizing l with
  | nil => exact h
  | cons w ws ih => exact ih (h.setAttribute k w.1 w.2)

theorem viewGet_setAll (h : l.Clean) (k : κ) (ws : List (α × ν)) (k' : κ)
    (a : α) : (l.setAll k ws).viewGet k' a =
      if k' = k then (lastWritten ws a).or (l.viewGet k' a) else l.viewGet k' a := by
  induction ws generalizing l with
  | nil => simp [setAll,lastWritten]
  | cons w ws ih =>
    have hcons : l.setAll k (w :: ws) = (l.setAttribute k w.1 w.2).setAll k ws := rfl
    rw [hcons,ih (h.setAttribute k w.1 w.2),viewGet_setAttribute h,lastWritten_cons]
    by_cases hk : k' = k
    · by_cases ha : a = w.1
      · simp [hk,ha]
      · have ha' : ¬ w.1 = a := fun he => ha he.symm
        simp [hk,ha,ha']
    · simp [hk]

theorem there_setAll (h : l.Clean) (k : κ) {ws : List (α × ν)} (hne : ws ≠ [])
    (k' : κ) : (l.setAll k ws).There k' ↔ k' = k ∨ l.There k' := by
  induction ws generalizing l with
  | nil => exact absurd rfl hne
  | cons w ws ih =>
    have hcons : l.setAll k (w :: ws) = (l.setAttribute k w.1 w.2).setAll k ws := rfl
    rw [hcons]
    cases ws with
    | nil => exact there_setAttribute h k w.1 w.2 k'
    | cons w' ws =>
      rw [ih (h.setAttribute k w.1 w.2) (cons_ne_nil _ _),there_setAttribute h]
      tauto

end Log

end Condor.Lib.RecordStore
