import Mathlib.Data.List.Basic
import Mathlib.Data.List.GetD

/-!
# Chained bucket arrays

An array of chains in which every entry sits in the chain its hash selects. What a lookup observes
of a key is the stack of its values, first entry on top.
-/

namespace Condor.Lib.Buckets

open List

abbrev Chains (α β : Type) := List (List (α × β))

variable {α β : Type} (hash : α → Nat)

def slot (ht : Chains α β) (k : α) : Nat := hash k % ht.length

def chain (ht : Chains α β) (k : α) : List (α × β) := ht.getD (slot hash ht k) []

def rewrite (ht : Chains α β) (k : α) (f : List (α × β) → List (α × β)) : Chains α β :=
  ht.modify (slot hash ht k) f

def push (ht : Chains α β) (e : α × β) : Chains α β := rewrite hash ht e.1 (e :: ·)

/-- Move every entry, chain by chain, to a new array of `n` chains. -/
def rehash (ht : Chains α β) (n : Nat) : Chains α β :=
  ht.flatten.foldl (push hash) (List.replicate n [])

def Placed (ht : Chains α β) : Prop := ∀ b, ∀ e ∈ ht.getD b [], slot hash ht e.1 = b

theorem getD_modify (ht : Chains α β) (i b : Nat) (f : List (α × β) → List (α × β)) :
    (ht.modify i f).getD b [] =
      if i = b ∧ b < ht.length then f (ht.getD b []) else ht.getD b [] := by
  rw [getD_eq_getElem?_getD,getD_eq_getElem?_getD,getElem?_modify]
  by_cases hb : b < ht.length
  · by_cases hi : i = b <;> simp [hi,hb]
  · simp [hb]

@[simp] theorem length_rewrite (ht : Chains α β) (k : α) (f : List (α × β) → List (α × β)) :
    (rewrite hash ht k f).length = ht.length := by simp [rewrite]

@[simp] theorem slot_rewrite (ht : Chains α β) (k : α) (f : List (α × β) → List (α × β)) (k' : α) :
    slot hash (rewrite hash ht k f) k' = slot hash ht k' := by simp [slot]

variable {ht : Chains α β}

theorem slot_lt (hlen : 0 < ht.length) (k : α) : slot hash ht k < ht.length :=
  Nat.mod_lt _ hlen

theorem chain_rewrite (hlen : 0 < ht.length) (k k' : α) (f : List (α × β) → List (α × β)) :
    chain hash (rewrite hash ht k f) k' =
      if slot hash ht k = slot hash ht k' then f (chain hash ht k') else chain hash ht k' := by
  rw [chain,slot_rewrite,rewrite,getD_modify]
  by_cases h : slot hash ht k = slot hash ht k'
  · simp [h,slot_lt hash hlen k',chain]
  · simp [h,chain]

theorem placed_rewrite (hp : Placed hash ht) (k : α)
    (f : List (α × β) → List (α × β)) (hf : ∀ c, ∀ e ∈ f c, e ∈ c ∨ e.1 = k) :
    Placed hash (rewrite hash ht k f) := by
  intro b e he
  rw [slot_rewrite]
  rw [rewrite,getD_modify] at he
  split at he
  · next h =>
    rcases hf _ e he with hmem | rfl
    · exact hp b e hmem
    · exact h.1
  · exact hp b e he

theorem placed_replicate (n : Nat) : Placed hash (List.replicate n ([] : List (α × β))) := by
  intro b e he
  rw [getD_eq_getElem?_getD,getElem?_replicate] at he
  split at he <;> simp at he

theorem placed_push (hp : Placed hash ht) (e : α × β) :
    Placed hash (push hash ht e) := by
  apply placed_rewrite hash hp
  intro c x hx
  rcases List.mem_cons.mp hx with rfl | hx
  · exact .inr rfl
  · exact .inl hx

theorem length_flatten_modify (ht : Chains α β) {i : Nat} (hi : i < ht.length)
    (f : List (α × β) → List (α × β)) :
    (ht.modify i f).flatten.length + (ht.getD i []).length =
      ht.flatten.length + (f (ht.getD i [])).length := by
  induction ht generalizing i with
  | nil => simp at hi
  | cons c ht ih =>
    cases i with
    | zero =>
      simp
      omega
    | succ i =>
      have h := ih (by simpa using hi)
      simp only [modify_succ_cons,flatten_cons,length_append,getD_cons_succ]
      omega

theorem length_flatten_rewrite (hlen : 0 < ht.length) (k : α) (f : List (α × β) → List (α × β)) :
    (rewrite hash ht k f).flatten.length + (chain hash ht k).length =
      ht.flatten.length + (f (chain hash ht k)).length :=
  length_flatten_modify ht (slot_lt hash hlen k) f

theorem length_flatten_push (hlen : 0 < ht.length) (e : α × β) :
    (push hash ht e).flatten.length = ht.flatten.length + 1 := by
  have h := length_flatten_rewrite hash hlen e.1 (e :: ·)
  simp only [length_cons] at h
  rw [push]
  omega

private theorem foldl_push (es : List (α × β)) (hp : Placed hash ht) (hlen : 0 < ht.length) :
    Placed hash (es.foldl (push hash) ht) ∧ (es.foldl (push hash) ht).length = ht.length ∧
      (es.foldl (push hash) ht).flatten.length = ht.flatten.length + es.length := by
  induction es generalizing ht with
  | nil => exact ⟨hp,rfl,rfl⟩
  | cons e es ih =>
    have hl : (push hash ht e).length = ht.length := length_rewrite hash ht e.1 _
    obtain ⟨h1,h2,h3⟩ := ih (placed_push hash hp e) (by rw [hl]; exact hlen)
    refine ⟨h1,h2.trans hl,?_⟩
    rw [foldl_cons,h3,length_flatten_push hash hlen,length_cons]
    omega

private theorem flatten_replicate_nil (n : Nat) :
    (List.replicate n ([] : List (α × β))).flatten = [] := by
  induction n with
  | zero => rfl
  | succ n ih => simp [replicate_succ,ih]

theorem rehash_spec (ht : Chains α β) {n : Nat} (hn : 0 < n) :
    Placed hash (rehash hash ht n) ∧ (rehash hash ht n).length = n ∧
      (rehash hash ht n).flatten.length = ht.flatten.length := by
  obtain ⟨h1,h2,h3⟩ := foldl_push hash ht.flatten (placed_replicate hash n) (by simpa using hn)
  exact ⟨h1,h2.trans (by simp),h3.trans (by rw [flatten_replicate_nil]; simp)⟩

variable [DecidableEq α]

def stack (ht : Chains α β) (k : α) : List β :=
  (ht.flatten.filter fun e => e.1 = k).map Prod.snd

def adjustFirst (k : α) (g : β → β) : List (α × β) → List (α × β)
  | [] => []
  | e :: es => if e.1 = k then (e.1,g e.2) :: es else e :: adjustFirst k g es

private theorem flatten_filter_eq_nil (ht : Chains α β) (k : α)
    (h : ∀ i, ∀ e ∈ ht.getD i [], e.1 ≠ k) : (ht.flatten.filter fun e => e.1 = k) = [] := by
  rw [filter_eq_nil_iff]
  intro e he
  obtain ⟨c,hc,hec⟩ := List.mem_flatten.mp he
  obtain ⟨i,hi,rfl⟩ := getElem_of_mem hc
  simpa using h i e (by rw [getD_eq_getElem _ _ hi]; exact hec)

private theorem flatten_filter_slot (ht : Chains α β) (k : α) (j : Nat)
    (h : ∀ i, ∀ e ∈ ht.getD i [], e.1 = k → i = j) :
    (ht.flatten.filter fun e => e.1 = k) = (ht.getD j []).filter fun e => e.1 = k := by
  induction ht generalizing j with
  | nil => simp
  | cons c ht ih =>
    rw [flatten_cons,filter_append]
    cases j with
    | zero =>
      rw [flatten_filter_eq_nil ht k,append_nil,getD_cons_zero]
      intro i e he hk
      exact absurd (h (i+1) e (by simpa using he) hk) (by omega)
    | succ j =>
      have hc : (c.filter fun e => e.1 = k) = [] := by
        rw [filter_eq_nil_iff]
        intro e he hk
        exact absurd (h 0 e (by simpa using he) (by simpa using hk)) (by omega)
      rw [hc,nil_append,getD_cons_succ]
      apply ih
      intro i e he hk
      have hij := h (i+1) e (by simpa using he) hk
      omega

theorem stack_eq_chain (hp : Placed hash ht) (k : α) :
    stack ht k = ((chain hash ht k).filter fun e => e.1 = k).map Prod.snd := by
  rw [stack,flatten_filter_slot ht k (slot hash ht k)]
  · rfl
  · intro i e he hk
    rw [← hk]
    exact (hp i e he).symm

theorem stack_rewrite (hp : Placed hash ht) (hlen : 0 < ht.length) (k : α)
    (f : List (α × β) → List (α × β)) (hf : ∀ c, ∀ e ∈ f c, e ∈ c ∨ e.1 = k)
    (hkeep : ∀ c k', k' ≠ k → ((f c).filter fun e => e.1 = k') = c.filter fun e => e.1 = k')
    (k' : α) :
    stack (rewrite hash ht k f) k' =
      if k' = k then ((f (chain hash ht k)).filter fun e => e.1 = k).map Prod.snd
      else stack ht k' := by
  rw [stack_eq_chain hash (placed_rewrite hash hp k f hf),chain_rewrite hash hlen]
  by_cases hk : k' = k
  · simp [hk]
  · rw [if_neg hk,stack_eq_chain hash hp]
    split
    · rw [hkeep _ _ hk]
    · rfl

theorem stack_push (hp : Placed hash ht) (hlen : 0 < ht.length) (e : α × β)
    (k : α) : stack (push hash ht e) k = if k = e.1 then e.2 :: stack ht k else stack ht k := by
  rw [push,stack_rewrite hash hp hlen e.1 (e :: ·)]
  · split
    · next h => simp [h,stack_eq_chain hash hp]
    · rfl
  · intro c x hx
    rcases List.mem_cons.mp hx with rfl | hx
    · exact .inr rfl
    · exact .inl hx
  · intro c k' hk
    rw [filter_cons,if_neg (by simpa using Ne.symm hk)]

private theorem stack_foldl_push (es : List (α × β)) (hp : Placed hash ht)
    (hlen : 0 < ht.length) (k : α) :
    stack (es.foldl (push hash) ht) k =
      ((es.filter fun e => e.1 = k).map Prod.snd).reverse ++ stack ht k := by
  induction es generalizing ht with
  | nil => rfl
  | cons e es ih =>
    have hl : (push hash ht e).length = ht.length := length_rewrite hash ht e.1 _
    rw [foldl_cons,ih (placed_push hash hp e) (by rw [hl]; exact hlen),
      stack_push hash hp hlen]
    by_cases h : k = e.1
    · simp [h]
    · rw [if_neg h,filter_cons,if_neg (by simpa using Ne.symm h)]

theorem stack_rehash (ht : Chains α β) {n : Nat} (hn : 0 < n) (k : α) :
    stack (rehash hash ht n) k = (stack ht k).reverse := by
  rw [rehash,stack_foldl_push hash _ (placed_replicate hash n) (by simpa using hn)]
  simp [stack]

private theorem filter_eraseP_self (c : List (α × β)) (k : α) :
    ((c.eraseP fun e => e.1 = k).filter fun e => e.1 = k) =
      (c.filter fun e => e.1 = k).tail := by
  induction c with
  | nil => rfl
  | cons e c ih => by_cases h : e.1 = k <;> simp [h,ih]

private theorem filter_eraseP_other (c : List (α × β)) {k k' : α} (hk : k' ≠ k) :
    ((c.eraseP fun e => e.1 = k).filter fun e => e.1 = k') =
      c.filter fun e => e.1 = k' := by
  induction c with
  | nil => rfl
  | cons e c ih =>
    by_cases h : e.1 = k
    · simp [h,Ne.symm hk]
    · simp [h,filter_cons,ih]

theorem stack_erase (hp : Placed hash ht) (hlen : 0 < ht.length) (k k' : α) :
    stack (rewrite hash ht k (List.eraseP fun e => e.1 = k)) k' =
      if k' = k then (stack ht k').tail else stack ht k' := by
  rw [stack_rewrite hash hp hlen k]
  · split
    · next h => rw [filter_eraseP_self,h,stack_eq_chain hash hp,map_tail]
    · rfl
  · exact fun c e he => .inl (mem_of_mem_eraseP he)
  · exact fun c k' hk => filter_eraseP_other c hk

private theorem mem_adjustFirst {k : α} {g : β → β} {c : List (α × β)} {e : α × β}
    (h : e ∈ adjustFirst k g c) : e ∈ c ∨ e.1 = k := by
  induction c with
  | nil => simp [adjustFirst] at h
  | cons x c ih =>
    simp only [adjustFirst] at h
    split at h
    · next hx =>
      rcases List.mem_cons.mp h with rfl | h
      · exact .inr hx
      · exact .inl (mem_cons_of_mem _ h)
    · rcases List.mem_cons.mp h with rfl | h
      · exact .inl mem_cons_self
      · exact (ih h).imp_left (mem_cons_of_mem _)

theorem length_adjustFirst (k : α) (g : β → β) (c : List (α × β)) :
    (adjustFirst k g c).length = c.length := by
  induction c with
  | nil => rfl
  | cons e c ih =>
    simp only [adjustFirst]
    split <;> simp [ih]

private theorem filter_adjustFirst_self (k : α) (g : β → β) (c : List (α × β)) :
    ((adjustFirst k g c).filter fun e => e.1 = k).map Prod.snd =
      ((c.filter fun e => e.1 = k).map Prod.snd).modifyHead g := by
  induction c with
  | nil => rfl
  | cons e c ih => by_cases h : e.1 = k <;> simp [adjustFirst,h,ih]

private theorem filter_adjustFirst_other (g : β → β) (c : List (α × β)) {k k' : α} (hk : k' ≠ k) :
    ((adjustFirst k g c).filter fun e => e.1 = k') = c.filter fun e => e.1 = k' := by
  induction c with
  | nil => rfl
  | cons e c ih =>
    by_cases h : e.1 = k
    · simp [adjustFirst,h,Ne.symm hk]
    · simp [adjustFirst,h,filter_cons,ih]

theorem placed_adjust (hp : Placed hash ht) (k : α) (g : β → β) :
    Placed hash (rewrite hash ht k (adjustFirst k g)) :=
  placed_rewrite hash hp k _ fun _ _ he => mem_adjustFirst he

theorem stack_adjust (hp : Placed hash ht) (hlen : 0 < ht.length) (k k' : α) (g : β → β) :
    stack (rewrite hash ht k (adjustFirst k g)) k' =
      if k' = k then (stack ht k').modifyHead g else stack ht k' := by
  rw [stack_rewrite hash hp hlen k]
  · split
    · next h => rw [filter_adjustFirst_self,h,stack_eq_chain hash hp]
    · rfl
  · exact fun _ _ he => mem_adjustFirst he
  · exact fun c k' hk => filter_adjustFirst_other g c hk

theorem find?_chain (hp : Placed hash ht) (k : α) :
    ((chain hash ht k).find? fun e => e.1 = k).map Prod.snd = (stack ht k).head? := by
  rw [stack_eq_chain hash hp,head?_map,head?_filter]

end Condor.Lib.Buckets
