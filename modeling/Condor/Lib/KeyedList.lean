import Mathlib.Data.List.Perm.Basic

/-!
# Association lists up to an equivalence of keys

A list of key-value pairs in which at most one key of every equivalence class occurs. Inserting
under an equivalent key replaces the value and keeps the stored spelling of the key.
-/

namespace Condor.Lib.KeyedList

open List

variable {α β : Type} (eqv : α → α → Bool)

def find (l : List (α × β)) (k : α) : Option β :=
  (l.find? fun e => eqv e.1 k).map Prod.snd

def insert : List (α × β) → α → β → List (α × β)
  | [], k, v => [(k,v)]
  | e :: l, k, v => if eqv e.1 k then (e.1,v) :: l else e :: insert l k v

def erase (l : List (α × β)) (k : α) : List (α × β) := l.eraseP fun e => eqv e.1 k

def Distinct (l : List (α × β)) : Prop := l.Pairwise fun a b => eqv a.1 b.1 = false

structure IsEquiv : Prop where
  refl : ∀ a, eqv a a = true
  comm : ∀ a b, eqv a b = eqv b a
  trans : ∀ a b c, eqv a b = true → eqv b c = eqv a c

variable {eqv}

@[simp] theorem find_nil (k : α) : find eqv ([] : List (α × β)) k = none := rfl

theorem find_cons (e : α × β) (l : List (α × β)) (k : α) :
    find eqv (e :: l) k = if eqv e.1 k then some e.2 else find eqv l k := by
  by_cases h : eqv e.1 k <;> simp [find,h]

theorem find_congr (heq : IsEquiv eqv) (l : List (α × β)) {k k' : α} (h : eqv k k' = true) :
    find eqv l k = find eqv l k' := by
  induction l with
  | nil => rfl
  | cons e l ih =>
    have he : eqv e.1 k = eqv e.1 k' := by
      rw [heq.comm e.1 k,heq.comm e.1 k',heq.trans k k' e.1 h]
    rw [find_cons,find_cons,he,ih]

variable {l : List (α × β)}

theorem find_eq_none {k : α} :
    find eqv l k = none ↔ ∀ e ∈ l, eqv e.1 k = false := by
  simp [find]

theorem find_insert (heq : IsEquiv eqv) (l : List (α × β)) (k : α) (v : β) (k' : α) :
    find eqv (insert eqv l k v) k' = if eqv k k' then some v else find eqv l k' := by
  induction l with
  | nil => rw [insert,find_cons]
  | cons e l ih =>
    rw [insert]
    split
    · next h =>
      have hk : eqv e.1 k' = eqv k k' := (heq.trans e.1 k k' h).symm
      rw [find_cons,find_cons,hk]
      split <;> rfl
    · next h =>
      rw [find_cons,ih,find_cons]
      by_cases hk : eqv k k' = true
      · have he : eqv e.1 k' = false := by
          rw [heq.comm k k'] at hk
          rw [heq.comm e.1 k',← heq.trans k' k e.1 hk,heq.comm k e.1]
          simpa using h
        simp [hk,he]
      · simp [hk]

theorem distinct_insert (heq : IsEquiv eqv) (h : Distinct eqv l) (k : α)
    (v : β) : Distinct eqv (insert eqv l k v) := by
  induction l with
  | nil => simp [insert,Distinct]
  | cons e l ih =>
    obtain ⟨he,hl⟩ := List.pairwise_cons.mp h
    rw [insert]
    split
    · exact List.pairwise_cons.mpr ⟨he,hl⟩
    · next hk =>
      refine List.pairwise_cons.mpr ⟨?_,ih hl⟩
      intro x hx
      have hfind : find eqv (insert eqv l k v) e.1 = none := by
        rw [find_insert heq,heq.comm k e.1,if_neg hk]
        rw [find_eq_none]
        intro y hy
        rw [heq.comm]
        exact he y hy
      rw [heq.comm]
      exact find_eq_none.mp hfind x hx

theorem mem_insert {k : α} {v : β} {e : α × β}
    (h : e ∈ insert eqv l k v) : e.1 = k ∨ ∃ x ∈ l, x.1 = e.1 := by
  induction l with
  | nil =>
    left
    have he : e = (k,v) := by simpa [insert] using h
    rw [he]
  | cons x l ih =>
    rw [insert] at h
    split at h
    · rcases List.mem_cons.mp h with rfl | h
      · exact .inr ⟨x,by simp,rfl⟩
      · exact .inr ⟨e,by simp [h],rfl⟩
    · rcases List.mem_cons.mp h with rfl | h
      · exact .inr ⟨e,by simp,rfl⟩
      · rcases ih h with h | ⟨y,hy,hk⟩
        · exact .inl h
        · exact .inr ⟨y,by simp [hy],hk⟩

theorem find_erase (heq : IsEquiv eqv) (h : Distinct eqv l) (k k' : α) :
    find eqv (erase eqv l k) k' = if eqv k k' then none else find eqv l k' := by
  induction l with
  | nil => simp [erase]
  | cons e l ih =>
    obtain ⟨he,hl⟩ := List.pairwise_cons.mp h
    by_cases hk : eqv e.1 k = true
    · have hkk : eqv e.1 k' = eqv k k' := (heq.trans e.1 k k' hk).symm
      rw [erase,eraseP_cons,hk,cond_true,find_cons,hkk]
      split
      · next h' =>
        rw [find_eq_none]
        intro x hx
        rw [heq.comm,heq.trans e.1 k' x.1 (hkk.trans h')]
        exact he x hx
      · rfl
    · have hrec := ih hl
      rw [erase] at hrec
      rw [erase,eraseP_cons,(Bool.not_eq_true _).mp hk,cond_false,find_cons,hrec,find_cons]
      by_cases h' : eqv k k' = true
      · have hek : eqv e.1 k' = false := by
          rw [heq.comm k k'] at h'
          rw [heq.comm e.1 k',← heq.trans k' k e.1 h',heq.comm k e.1]
          simpa using hk
        simp [h',hek]
      · simp [h']

theorem distinct_erase (h : Distinct eqv l) (k : α) :
    Distinct eqv (erase eqv l k) :=
  List.Pairwise.sublist eraseP_sublist h

theorem find_of_mem (heq : IsEquiv eqv) (h : Distinct eqv l) {e : α × β}
    (he : e ∈ l) : find eqv l e.1 = some e.2 := by
  induction l with
  | nil => simp at he
  | cons x l ih =>
    obtain ⟨hx,hl⟩ := List.pairwise_cons.mp h
    rw [find_cons]
    rcases List.mem_cons.mp he with rfl | he
    · rw [if_pos (heq.refl _)]
    · rw [if_neg (by rw [hx e he]; decide),ih hl he]

theorem mem_of_find {k : α} {v : β} (h : find eqv l k = some v) :
    ∃ e ∈ l, eqv e.1 k = true ∧ e.2 = v := by
  rw [find,Option.map_eq_some_iff] at h
  obtain ⟨e,he,hv⟩ := h
  exact ⟨e,mem_of_find?_eq_some he,by simpa using find?_some he,hv⟩

theorem find_perm (heq : IsEquiv eqv) {l l' : List (α × β)} (hp : l.Perm l')
    (h : Distinct eqv l) (k : α) : find eqv l k = find eqv l' k := by
  have h' : Distinct eqv l' := hp.pairwise h fun {a b} hab => by rw [heq.comm]; exact hab
  cases hf : find eqv l' k with
  | none =>
    rw [find_eq_none]
    intro e he
    exact find_eq_none.mp hf e (hp.mem_iff.mp he)
  | some v =>
    obtain ⟨e,he,hk,rfl⟩ := mem_of_find hf
    rw [← find_congr heq l hk]
    exact find_of_mem heq h (hp.mem_iff.mpr he)

theorem find_foldl_insert (heq : IsEquiv eqv) (es l : List (α × β)) (h : Distinct eqv es) (k : α) :
    find eqv (es.foldl (fun l e => insert eqv l e.1 e.2) l) k =
      (find eqv es k).or (find eqv l k) := by
  induction es generalizing l with
  | nil => rfl
  | cons e es ih =>
    obtain ⟨he,hes⟩ := List.pairwise_cons.mp h
    rw [foldl_cons,ih _ hes,find_insert heq,find_cons]
    by_cases hk : eqv e.1 k = true
    · have hnone : find eqv es k = none := by
        rw [find_eq_none]
        intro x hx
        rw [heq.comm,heq.trans e.1 k x.1 hk]
        exact he x hx
      simp [hk,hnone]
    · simp [hk]

end Condor.Lib.KeyedList
