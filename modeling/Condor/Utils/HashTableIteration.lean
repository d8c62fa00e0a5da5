import Condor.Utils.HashTable

/-!
# Iterating over a hash table while entries are removed

`remove` moves a cursor that stands at the removed bucket back by one.
-/

namespace Condor

open Lib List Option

namespace HashTable

variable {α β : Type}

structure Iteration (α β : Type) where
  table : HashTable α β
  currentBucket : Int
  currentItem : Option α

def startIterations (t : HashTable α β) : Iteration α β := ⟨t,-1,none⟩

/-- The loop of `iterate` over the chains from some index on: the first one that is not empty,
and its head. -/
def firstFrom : Int → Buckets.Chains α β → Option (Int × (α × β))
  | _, [] => none
  | b, [] :: chains => firstFrom (b + 1) chains
  | b, (e :: _) :: _ => some (b,e)

private theorem firstFrom_eq_none {b : Int} {chains : Buckets.Chains α β}
    (h : firstFrom b chains = none) : chains.flatten = [] := by
  induction chains generalizing b with
  | nil => rfl
  | cons c chains ih =>
    cases c with
    | nil => exact ih h
    | cons e c => simp [firstFrom] at h

variable {e : α × β}

private theorem firstFrom_eq_some {b b' : Int} {chains : Buckets.Chains α β}
    (h : firstFrom b chains = some (b',e)) :
    ∃ n : Nat, b' = b + n ∧ ∃ c, chains[n]? = some (e :: c) ∧
      chains.flatten = e :: c ++ (chains.drop (n + 1)).flatten := by
  induction chains generalizing b with
  | nil => simp [firstFrom] at h
  | cons c chains ih =>
    cases c with
    | nil =>
      obtain ⟨n,hb,c,hc,hflat⟩ := ih h
      refine ⟨n + 1,by omega,c,by simpa using hc,by simpa using hflat⟩
    | cons x c =>
      simp only [firstFrom,some.injEq,Prod.mk.injEq] at h
      obtain ⟨rfl,rfl⟩ := h
      exact ⟨0,by simp,c,by simp,by simp⟩

private theorem chain_of_mem {t : HashTable α β} {j : α} (he : e ∈ Buckets.chain t.hash t.ht j) :
    Buckets.slot t.hash t.ht e.1 = Buckets.slot t.hash t.ht j ∧
      Buckets.chain t.hash t.ht e.1 = Buckets.chain t.hash t.ht j := by
  have hslot : Buckets.slot t.hash t.ht e.1 = Buckets.slot t.hash t.ht j :=
    t.placed (Buckets.slot t.hash t.ht j) e he
  exact ⟨hslot,by rw [Buckets.chain,hslot,Buckets.chain]⟩

variable [DecidableEq α]

/-- The rest of a chain, from `next` of the bucket of a key on. -/
def behind (k : α) (c : List (α × β)) : List (α × β) := (c.dropWhile fun e => e.1 ≠ k).tail

namespace Iteration

/-- `iterate`; a result of 0 is `none`, and puts the cursor back to the start. -/
def iterate (i : Iteration α β) : Iteration α β × Option (α × β) :=
  match i.currentItem.bind fun k => (behind k (Buckets.chain i.table.hash i.table.ht k)).head? with
  | some e => ({ i with currentItem := some e.1 },some e)
  | none =>
    match firstFrom (i.currentBucket + 1) (i.table.ht.drop (i.currentBucket + 1).toNat) with
    | some (b,e) => ({ i with currentBucket := b, currentItem := some e.1 },some e)
    | none => ({ i with currentBucket := -1, currentItem := none },none)

/-- `remove` with what it does to the cursor: at the head of a chain it goes in front of the
chain, elsewhere to the bucket before. -/
def remove (i : Iteration α β) (k : α) : Iteration α β :=
  let chain := Buckets.chain i.table.hash i.table.ht k
  let moved : Iteration α β := { i with table := i.table.remove k }
  if chain.any (fun e => e.1 = k) ∧ i.currentItem = some k then
    match (chain.takeWhile fun e => e.1 ≠ k).getLast? with
    | none => { moved with currentBucket := i.currentBucket - 1, currentItem := none }
    | some e => { moved with currentItem := some e.1 }
  else moved

def ahead (i : Iteration α β) : List (α × β) :=
  (i.currentItem.elim [] fun k => behind k (Buckets.chain i.table.hash i.table.ht k)) ++
    (i.table.ht.drop (i.currentBucket + 1).toNat).flatten

/-- The cursor stands at a bucket of the current chain or in front of a chain. -/
structure Valid (i : Iteration α β) : Prop where
  unique : i.table.Unique
  lower : -1 ≤ i.currentBucket
  current : ∀ k, i.currentItem = some k →
    (Buckets.slot i.table.hash i.table.ht k : Int) = i.currentBucket ∧
    k ∈ (Buckets.chain i.table.hash i.table.ht k).map Prod.fst

end Iteration

private theorem behind_filter {j k : α} (hjk : j ≠ k) (c : List (α × β)) :
    behind j (c.filter fun e => e.1 ≠ k) = (behind j c).filter fun e => e.1 ≠ k := by
  induction c with
  | nil => rfl
  | cons e c ih =>
    by_cases hj : e.1 = j
    · have hk : e.1 ≠ k := hj ▸ hjk
      simp [behind,hj,hjk]
    · by_cases hk : e.1 = k
      · have hkj : k ≠ j := hjk.symm
        simpa [behind,hk,hkj] using ih
      · simpa [behind,hj,hk] using ih

variable {k : α}

theorem behind_append {pre post : List (α × β)} {v : β}
    (hpre : k ∉ pre.map Prod.fst) : behind k (pre ++ (k,v) :: post) = post := by
  induction pre with
  | nil => simp [behind]
  | cons e pre ih =>
    simp only [map_cons,mem_cons,not_or] at hpre
    have hek : e.1 ≠ k := fun h => hpre.1 h.symm
    simpa [behind,hek] using ih hpre.2

variable {c : List (α × β)}

private theorem eraseP_eq_filter (h : (c.map Prod.fst).Nodup) (k : α) :
    c.eraseP (fun e => e.1 = k) = c.filter fun e => e.1 ≠ k := by
  induction c with
  | nil => rfl
  | cons e c ih =>
    rw [map_cons,nodup_cons] at h
    by_cases hk : e.1 = k
    · have hrest : c.filter (fun e => e.1 ≠ k) = c := by
        refine List.filter_eq_self.mpr fun x hx => ?_
        have hne : x.1 ≠ k := fun hxk => h.1 (hk ▸ hxk ▸ mem_map_of_mem hx)
        simpa using hne
      rw [eraseP_cons_of_pos (by simpa using hk),filter_cons_of_neg (by simpa using hk),
        hrest]
    · rw [eraseP_cons_of_neg (by simpa using hk),filter_cons_of_pos (by simpa using hk),
        ih h.2]

variable {t : HashTable α β}

private theorem Unique.nodup_chain (h : t.Unique) (hc : c ∈ t.ht) :
    (c.map Prod.fst).Nodup :=
  h.nodup_keys.sublist ((sublist_flatten_of_mem hc).map Prod.fst)

private theorem ht_remove (h : t.Unique) (k : α) :
    (t.remove k).ht = t.ht.map (List.filter fun e => e.1 ≠ k) := by
  have heq : (t.remove k).ht = t.ht.modify (Buckets.slot t.hash t.ht k)
    (List.eraseP fun e => e.1 = k) := rfl
  refine heq.trans (ext_getElem? fun i => ?_)
  rw [getElem?_modify,getElem?_map]
  cases hc : t.ht[i]? with
  | none => rfl
  | some c =>
    have hmem : c ∈ t.ht := mem_of_getElem? hc
    by_cases hi : Buckets.slot t.hash t.ht k = i
    · simpa [hi] using eraseP_eq_filter (h.nodup_chain hmem) k
    · have hself : c.filter (fun e => e.1 ≠ k) = c := by
        refine List.filter_eq_self.mpr fun e he => ?_
        have hplaced := t.placed i e (by rw [getD_eq_getElem?_getD,hc]; exact he)
        have hne : e.1 ≠ k := fun hk => hi (hk ▸ hplaced)
        simpa using hne
      exact congrArg some ((if_neg hi).trans hself.symm)

private theorem chain_remove (h : t.Unique) (k j : α) :
    Buckets.chain (t.remove k).hash (t.remove k).ht j =
      (Buckets.chain t.hash t.ht j).filter fun e => e.1 ≠ k := by
  have hslot : Buckets.slot (t.remove k).hash (t.remove k).ht j = Buckets.slot t.hash t.ht j :=
    Buckets.slot_rewrite t.hash t.ht k _ j
  rw [Buckets.chain,hslot,ht_remove h,Buckets.chain,getD_eq_getElem?_getD,
    getElem?_map,getD_eq_getElem?_getD]
  cases t.ht[Buckets.slot t.hash t.ht j]? <;> rfl

namespace Iteration

variable {i : Iteration α β}

private theorem valid_start (h : t.Unique) : (startIterations t).Valid where
  unique := h
  lower := Int.le_refl _
  current k hk := by simp [startIterations] at hk

private theorem ahead_start (t : HashTable α β) : (startIterations t).ahead = t.entries := rfl

theorem Valid.split (h : i.Valid) (hk : i.currentItem = some k) :
    ∃ pre v post, Buckets.chain i.table.hash i.table.ht k = pre ++ (k,v) :: post ∧
      ((pre ++ (k,v) :: post).map Prod.fst).Nodup ∧
      behind k (Buckets.chain i.table.hash i.table.ht k) = post := by
  obtain ⟨e,he,rfl⟩ := List.mem_map.mp (h.current k hk).2
  obtain ⟨pre,post,hc⟩ := append_of_mem he
  have hmem : Buckets.chain i.table.hash i.table.ht e.1 ∈ i.table.ht := by
    rw [Buckets.chain,getD_eq_getElem?_getD]
    rw [Buckets.chain,getD_eq_getElem?_getD] at he
    cases hget : i.table.ht[Buckets.slot i.table.hash i.table.ht e.1]? with
    | none => simp [hget] at he
    | some c => exact mem_of_getElem? hget
  have hnodup := h.unique.nodup_chain hmem
  rw [hc] at hnodup
  refine ⟨pre,e.2,post,hc,hnodup,?_⟩
  rw [hc]
  rw [map_append,nodup_append] at hnodup
  exact behind_append (v := e.2) fun hpre => hnodup.2.2 e.1 hpre e.1 (by simp) rfl

theorem Valid.next (h : i.Valid) (hk : i.currentItem = some k) {rest : List (α × β)}
    (hbehind : behind k (Buckets.chain i.table.hash i.table.ht k) = e :: rest) :
    let i' : Iteration α β := { i with currentItem := some e.1 }
    i'.Valid ∧ i.ahead = e :: i'.ahead := by
  intro i'
  obtain ⟨pre,v,post,hc,hnodup,hpost⟩ := h.split hk
  rw [hbehind] at hpost
  have hmem : e ∈ Buckets.chain i.table.hash i.table.ht k := by simp [hc,← hpost]
  obtain ⟨hslot,hchain⟩ := chain_of_mem hmem
  have hrest : behind e.1 (Buckets.chain i.table.hash i.table.ht e.1) = rest := by
    have hsplit : pre ++ (k,v) :: post = (pre ++ [(k,v)]) ++ e :: rest := by simp [← hpost]
    rw [hsplit,map_append,nodup_append] at hnodup
    rw [hchain,hc,hsplit]
    exact behind_append (v := e.2) fun hpre => hnodup.2.2 e.1 hpre e.1 (by simp) rfl
  refine ⟨⟨h.unique,h.lower,?_⟩,?_⟩
  · intro j hj
    obtain rfl : e.1 = j := some.inj hj
    refine ⟨?_,?_⟩
    · rw [← (h.current k hk).1]
      exact congrArg Nat.cast hslot
    · change e.1 ∈ (Buckets.chain i.table.hash i.table.ht e.1).map Prod.fst
      rw [hchain]
      exact mem_map_of_mem hmem
  · rw [ahead,ahead,hk]
    change behind k (Buckets.chain i.table.hash i.table.ht k) ++ _ =
      e :: (behind e.1 (Buckets.chain i.table.hash i.table.ht e.1) ++ _)
    rw [hbehind,hrest]
    rfl

private theorem Valid.nextChain (h : i.Valid) {b : Int} (hfirst : firstFrom (i.currentBucket + 1)
      (i.table.ht.drop (i.currentBucket + 1).toNat) = some (b,e)) :
    let i' : Iteration α β := { i with currentBucket := b, currentItem := some e.1 }
    i'.Valid ∧ (i.table.ht.drop (i.currentBucket + 1).toNat).flatten = e :: i'.ahead := by
  intro i'
  have hlower := h.lower
  obtain ⟨n,hb,c,hc,hflat⟩ := firstFrom_eq_some hfirst
  rw [getElem?_drop] at hc
  have hindex : (b.toNat : Int) = b := by omega
  have hget : (i.currentBucket + 1).toNat + n = b.toNat := by omega
  have hdrop : (i.currentBucket + 1).toNat + (n + 1) = (b + 1).toNat := by omega
  rw [hget] at hc
  have hslot : Buckets.slot i.table.hash i.table.ht e.1 = b.toNat :=
    i.table.placed b.toNat e (by rw [getD_eq_getElem?_getD,hc]; simp)
  have hchain : Buckets.chain i.table.hash i.table.ht e.1 = e :: c := by
    rw [Buckets.chain,hslot,getD_eq_getElem?_getD,hc]
    rfl
  refine ⟨⟨h.unique,by change -1 ≤ b; omega,?_⟩,?_⟩
  · intro j hj
    obtain rfl : e.1 = j := some.inj hj
    refine ⟨?_,?_⟩
    · change (Buckets.slot i.table.hash i.table.ht e.1 : Int) = b
      rw [hslot,hindex]
    · change e.1 ∈ (Buckets.chain i.table.hash i.table.ht e.1).map Prod.fst
      simp [hchain]
  · rw [hflat,drop_drop,hdrop]
    change e :: c ++ _ = e :: (behind e.1 (Buckets.chain i.table.hash i.table.ht e.1) ++ _)
    rw [hchain]
    simp [behind,i']

theorem Valid.iterate (h : i.Valid) :
    i.iterate.1.Valid ∧ (i.iterate.2 = none → i.ahead = []) ∧
      ∀ e, i.iterate.2 = some e → i.ahead = e :: i.iterate.1.ahead := by
  rw [Iteration.iterate]
  split
  · next e hnext =>
    obtain ⟨k,hk,hhead⟩ := Option.bind_eq_some_iff.mp hnext
    obtain ⟨rest,hrest⟩ := List.head?_eq_some_iff.mp hhead
    obtain ⟨hvalid,hahead⟩ := h.next hk hrest
    refine ⟨hvalid,by simp,fun e' he' => ?_⟩
    obtain rfl : e = e' := some.inj he'
    exact hahead
  · next hnone =>
    have hahead : i.ahead = (i.table.ht.drop (i.currentBucket + 1).toNat).flatten := by
      rw [ahead]
      cases hk : i.currentItem with
      | none => rfl
      | some k =>
        rw [hk,bind_some,head?_eq_none_iff] at hnone
        rw [elim_some,hnone,nil_append]
    split
    · next b e hfirst =>
      obtain ⟨hvalid,hfound⟩ := h.nextChain hfirst
      refine ⟨hvalid,by simp,fun e' he' => ?_⟩
      obtain rfl : e = e' := some.inj he'
      exact hahead.trans hfound
    · next hfirst =>
      have hvalid : (startIterations i.table).Valid := valid_start h.unique
      exact ⟨hvalid,fun _ => hahead.trans (firstFrom_eq_none hfirst),by simp⟩

private theorem flatten_drop_remove (h : t.Unique) (k : α) (n : Nat) :
    ((t.remove k).ht.drop n).flatten = (t.ht.drop n).flatten.filter fun e => e.1 ≠ k := by
  rw [ht_remove h,← map_drop,filter_flatten]

private theorem filter_of_notMem (h : k ∉ c.map Prod.fst) :
    c.filter (fun e => e.1 ≠ k) = c := by
  refine List.filter_eq_self.mpr fun e he => ?_
  have hne : e.1 ≠ k := fun hk => h (hk ▸ mem_map_of_mem he)
  simpa using hne

private theorem Valid.remove_other (h : i.Valid) (hk : i.currentItem ≠ some k) :
    let i' : Iteration α β := { i with table := i.table.remove k }
    i'.Valid ∧ i'.ahead = i.ahead.filter fun e => e.1 ≠ k := by
  intro i'
  have hchain (j : α) := chain_remove h.unique k j
  refine ⟨⟨h.unique.remove k,h.lower,?_⟩,?_⟩
  · intro j hj
    have hjk : j ≠ k := fun heq => hk (heq ▸ hj)
    obtain ⟨hslot,hmem⟩ := h.current j hj
    refine ⟨(congrArg Nat.cast (Buckets.slot_rewrite i.table.hash i.table.ht k _ j)).trans hslot,?_⟩
    obtain ⟨e,he,rfl⟩ := List.mem_map.mp hmem
    change e.1 ∈ (Buckets.chain (i.table.remove k).hash (i.table.remove k).ht e.1).map Prod.fst
    rw [hchain]
    exact mem_map_of_mem (List.mem_filter.mpr ⟨he,by simpa using hjk⟩)
  · rw [ahead,ahead,filter_append,flatten_drop_remove h.unique]
    refine congrArg (· ++ _) ?_
    change i.currentItem.elim [] _ = _
    cases hj : i.currentItem with
    | none => rfl
    | some j =>
      have hjk : j ≠ k := fun heq => hk (heq ▸ hj)
      change behind j (Buckets.chain (i.table.remove k).hash (i.table.remove k).ht j) = _
      rw [hchain,behind_filter hjk]
      rfl

private theorem Valid.remove_head (h : i.Valid) (hk : i.currentItem = some k) {v : β}
    {post : List (α × β)} (hc : Buckets.chain i.table.hash i.table.ht k = (k,v) :: post) :
    let i' : Iteration α β :=
      { table := i.table.remove k, currentBucket := i.currentBucket - 1, currentItem := none }
    i'.Valid ∧ i'.ahead = i.ahead.filter fun e => e.1 ≠ k := by
  intro i'
  obtain ⟨hslot,hmem⟩ := h.current k hk
  refine ⟨⟨h.unique.remove k,by change -1 ≤ i.currentBucket - 1; omega,by simp [i']⟩,?_⟩
  have hindex : (i.currentBucket - 1 + 1).toNat = Buckets.slot i.table.hash i.table.ht k := by
    omega
  have hnext : (i.currentBucket + 1).toNat = Buckets.slot i.table.hash i.table.ht k + 1 := by
    omega
  have hlt : Buckets.slot i.table.hash i.table.ht k < i.table.ht.length :=
    Buckets.slot_lt i.table.hash i.table.nonempty k
  have hget : i.table.ht[Buckets.slot i.table.hash i.table.ht k] = (k,v) :: post := by
    rw [← hc,Buckets.chain,getD_eq_getElem _ _ hlt]
  have hbehind : behind k (Buckets.chain i.table.hash i.table.ht k) = post := by
    rw [hc]
    have hnil : (k,v) :: post = [] ++ (k,v) :: post := rfl
    rw [hnil]
    exact behind_append (by simp)
  change [] ++ ((i.table.remove k).ht.drop (i.currentBucket - 1 + 1).toNat).flatten = _
  rw [nil_append,flatten_drop_remove h.unique,hindex,drop_eq_getElem_cons hlt,hget,
    flatten_cons,ahead,hk,hnext,elim_some,hbehind]
  simp

private theorem Valid.remove_inside (h : i.Valid) (hk : i.currentItem = some k) {v : β}
    {pre post : List (α × β)}
    (hc : Buckets.chain i.table.hash i.table.ht k = pre ++ [e] ++ (k,v) :: post)
    (hnodup : ((pre ++ [e] ++ (k,v) :: post).map Prod.fst).Nodup) :
    let i' : Iteration α β := { i with table := i.table.remove k, currentItem := some e.1 }
    i'.Valid ∧ i'.ahead = i.ahead.filter fun e => e.1 ≠ k := by
  intro i'
  rw [map_append,nodup_append] at hnodup
  obtain ⟨hfront,hback,hapart⟩ := hnodup
  have hpre : k ∉ (pre ++ [e]).map Prod.fst := fun hmem => hapart k hmem k (by simp) rfl
  have hpost : k ∉ post.map Prod.fst := by
    rw [map_cons,nodup_cons] at hback
    exact hback.1
  have hepre : e.1 ∉ pre.map Prod.fst := by
    rw [map_append,nodup_append] at hfront
    exact fun hmem => hfront.2.2 e.1 hmem e.1 (by simp) rfl
  obtain ⟨hslot,hsame⟩ := chain_of_mem (t := i.table) (j := k) (e := e) (by simp [hc])
  have hchain : Buckets.chain (i.table.remove k).hash (i.table.remove k).ht e.1 =
      pre ++ e :: post := by
    rw [chain_remove h.unique,hsame,hc,filter_append,filter_of_notMem hpre,
      filter_cons_of_neg (by simp),filter_of_notMem hpost]
    simp
  refine ⟨⟨h.unique.remove k,h.lower,?_⟩,?_⟩
  · intro j hj
    obtain rfl : e.1 = j := some.inj hj
    refine ⟨?_,?_⟩
    · rw [← (h.current k hk).1,← hslot]
      exact congrArg Nat.cast (Buckets.slot_rewrite i.table.hash i.table.ht k _ e.1)
    · change e.1 ∈ (Buckets.chain (i.table.remove k).hash (i.table.remove k).ht e.1).map Prod.fst
      rw [hchain]
      simp
  · have hbehind : behind k (Buckets.chain i.table.hash i.table.ht k) = post := by
      rw [hc]
      exact behind_append hpre
    have hbehind' : behind e.1 (pre ++ e :: post) = post := behind_append (v := e.2) hepre
    rw [ahead,ahead,filter_append,← flatten_drop_remove h.unique,hk]
    refine congrArg (· ++ _) ?_
    change behind e.1 (Buckets.chain (i.table.remove k).hash (i.table.remove k).ht e.1) =
      (behind k (Buckets.chain i.table.hash i.table.ht k)).filter fun e => e.1 ≠ k
    rw [hchain,hbehind',hbehind,filter_of_notMem hpost]

theorem Valid.remove (h : i.Valid) (k : α) :
    (i.remove k).Valid ∧ (i.remove k).ahead = i.ahead.filter fun e => e.1 ≠ k := by
  rw [Iteration.remove]
  by_cases hk : i.currentItem = some k
  · obtain ⟨pre,v,post,hc,hnodup,-⟩ := h.split hk
    have hparts := hnodup
    rw [map_append,nodup_append] at hparts
    have hpre : k ∉ pre.map Prod.fst := fun hmem => hparts.2.2 k hmem k (by simp) rfl
    have hfound : (Buckets.chain i.table.hash i.table.ht k).any (fun e => e.1 = k) = true := by
      simp [hc]
    have hbefore : (Buckets.chain i.table.hash i.table.ht k).takeWhile (fun e => e.1 ≠ k) =
        pre := by
      rw [hc,takeWhile_append_of_pos]
      · simp
      · intro e he
        have hne : e.1 ≠ k := fun heq => hpre (heq ▸ mem_map_of_mem he)
        simpa using hne
    simp only [hfound,hk,and_self,if_true,hbefore]
    rcases eq_nil_or_concat pre with rfl | ⟨pre,e,rfl⟩
    · exact h.remove_head hk hc
    · rw [concat_eq_append] at hc hnodup ⊢
      rw [getLast?_concat]
      exact h.remove_inside hk hc hnodup
  · simp only [hk,and_false,if_false]
    exact h.remove_other hk

inductive Op (α : Type) where
  | iterate
  | remove (k : α)
  deriving DecidableEq

/-- How far an iteration has come: the table with its cursor, what was returned, and whether the
end was. -/
structure Progress (α β : Type) where
  state : Iteration α β
  returned : List (α × β)
  ended : Bool

def perform : Iteration α β → List (Op α) → Progress α β
  | i, [] => ⟨i,[],false⟩
  | i, .remove k :: calls => perform (i.remove k) calls
  | i, .iterate :: calls =>
    match i.iterate with
    | (i',none) => ⟨i',[],true⟩
    | (i',some e) =>
      let rest := perform i' calls
      { rest with returned := e :: rest.returned }

theorem Valid.perform (h : i.Valid) (calls : List (Op α)) :
    (i.perform calls).state.Valid ∧ (i.perform calls).returned.Sublist i.ahead := by
  induction calls generalizing i with
  | nil => exact ⟨h,nil_sublist _⟩
  | cons call calls ih =>
    cases call with
    | remove k =>
      obtain ⟨hvalid,hahead⟩ := h.remove k
      obtain ⟨hvalid',hsub⟩ := ih hvalid
      rw [hahead] at hsub
      exact ⟨hvalid',hsub.trans filter_sublist⟩
    | iterate =>
      obtain ⟨hvalid,-,hnext⟩ := h.iterate
      rw [Iteration.perform]
      split
      · next i' hend =>
        rw [hend] at hvalid
        exact ⟨hvalid,nil_sublist _⟩
      · next i' e hsome =>
        rw [hsome] at hvalid hnext
        obtain ⟨hvalid',hsub⟩ := ih hvalid
        rw [hnext e rfl]
        exact ⟨hvalid',hsub.cons_cons e⟩

theorem Valid.ends (h : i.Valid) {calls : List (Op α)}
    (hcalls : i.ahead.length < calls.count .iterate) : (i.perform calls).ended = true := by
  induction calls generalizing i with
  | nil => simp at hcalls
  | cons call calls ih =>
    cases call with
    | remove k =>
      obtain ⟨hvalid,hahead⟩ := h.remove k
      refine ih hvalid ?_
      rw [hahead]
      rw [count_cons_of_ne (by simp)] at hcalls
      exact Nat.lt_of_le_of_lt (length_filter_le _ _) hcalls
    | iterate =>
      obtain ⟨hvalid,-,hnext⟩ := h.iterate
      rw [Iteration.perform]
      split
      · rfl
      · next i' e hsome =>
        rw [hsome] at hvalid hnext
        rw [hnext e rfl,count_cons_self,length_cons] at hcalls
        exact ih hvalid (Nat.lt_of_succ_lt_succ hcalls)

theorem Valid.returned (h : i.Valid) {calls : List (Op α)}
    (hended : (i.perform calls).ended = true) (he : e ∈ i.ahead)
    (hkept : Op.remove e.1 ∉ calls) : e ∈ (i.perform calls).returned := by
  induction calls generalizing i with
  | nil => simp [Iteration.perform] at hended
  | cons call calls ih =>
    have hkept' : Op.remove e.1 ∉ calls := fun hmem => hkept (mem_cons_of_mem _ hmem)
    cases call with
    | remove k =>
      obtain ⟨hvalid,hahead⟩ := h.remove k
      have hne : e.1 ≠ k := fun hk => hkept (by simp [hk])
      refine ih hvalid hended ?_ hkept'
      rw [hahead]
      exact List.mem_filter.mpr ⟨he,by simpa using hne⟩
    | iterate =>
      obtain ⟨hvalid,hend,hnext⟩ := h.iterate
      rw [Iteration.perform] at hended ⊢
      split at hended
      · next i' hnone =>
        rw [hend (by rw [hnone])] at he
        simp at he
      · next i' e' hsome =>
        rw [hsome] at hvalid hnext
        rw [hnext e' rfl] at he
        rcases List.mem_cons.mp he with rfl | he
        · exact mem_cons_self
        · exact mem_cons_of_mem _ (ih hvalid hended he hkept')

theorem perform_append (i : Iteration α β) {before : List (Op α)}
    (hended : (i.perform before).ended = false) (after : List (Op α)) :
    (i.perform (before ++ after)).returned =
      (i.perform before).returned ++ ((i.perform before).state.perform after).returned := by
  induction before generalizing i with
  | nil => rfl
  | cons call before ih =>
    cases call with
    | remove k => exact ih (i.remove k) hended
    | iterate =>
      rw [cons_append,Iteration.perform]
      rw [Iteration.perform] at hended
      rw [Iteration.perform]
      split at hended
      · simp at hended
      · next i' e hsome => exact congrArg (e :: ·) (ih i' hended)

/-- However removals come in between, an iteration ends, returns every entry that is not removed
exactly once, and none after its removal. -/
theorem iterate_tolerates_removal (h : t.Unique) (calls : List (Op α)) :
    let progress := (startIterations t).perform calls
    (t.numElems < calls.count .iterate → progress.ended = true) ∧
      (progress.ended = true → ∀ e ∈ t.entries, Op.remove e.1 ∉ calls →
        progress.returned.filter (fun x => x.1 = e.1) = [e]) ∧
      progress.returned.Sublist t.entries ∧
      ∀ before k after, calls = before ++ .remove k :: after →
        ((startIterations t).perform before).ended = false →
        ∃ later, progress.returned = ((startIterations t).perform before).returned ++ later ∧
          ∀ e ∈ later, e.1 ≠ k := by
  intro progress
  have hvalid := valid_start h
  obtain ⟨-,hsub⟩ := hvalid.perform calls
  rw [ahead_start] at hsub
  refine ⟨?_,?_,hsub,?_⟩
  · intro hcalls
    refine hvalid.ends ?_
    rw [ahead_start,entries,← t.counted]
    exact hcalls
  · intro hended e he hkept
    have hmem : e ∈ progress.returned := hvalid.returned hended he hkept
    have hnodup : (progress.returned.map Prod.fst).Nodup :=
      h.nodup_keys.sublist (hsub.map Prod.fst)
    obtain ⟨pre,post,hsplit⟩ := append_of_mem hmem
    rw [hsplit] at hnodup ⊢
    rw [map_append,nodup_append,map_cons,nodup_cons] at hnodup
    obtain ⟨-,⟨hpost,-⟩,hapart⟩ := hnodup
    have hnone {c : List (α × β)} (hc : e.1 ∉ c.map Prod.fst) :
        c.filter (fun x => x.1 = e.1) = [] := by
      refine List.filter_eq_nil_iff.mpr fun x hx => ?_
      have hne : x.1 ≠ e.1 := fun heq => hc (heq ▸ mem_map_of_mem hx)
      simpa using hne
    rw [filter_append,filter_cons_of_pos (by simp),
      hnone fun hpre => hapart e.1 hpre e.1 (by simp) rfl,hnone hpost]
    rfl
  · intro before k after hcalls hgoing
    obtain ⟨hvalid',-⟩ := hvalid.perform before
    obtain ⟨hremoved,hahead⟩ := hvalid'.remove k
    obtain ⟨-,hlater⟩ := hremoved.perform after
    rw [hahead] at hlater
    refine ⟨((((startIterations t).perform before).state.remove k).perform after).returned,?_,
      fun e he => ?_⟩
    · change ((startIterations t).perform calls).returned = _
      rw [hcalls]
      exact perform_append _ hgoing _
    · have hkept := (List.mem_filter.mp (hlater.subset he)).2
      simpa using hkept

def collidingTable : HashTable Nat Nat :=
  ((((initializeWith (fun _ => 5) .rejectDuplicateKeys).addItem 1 10).addItem 2 20).addItem
    3 30).addItem 4 40

private theorem unique_collidingTable : collidingTable.Unique :=
  ((((unique_initializeWith _ _).addItem (by decide) 10).addItem (by decide)
    20).addItem (by decide) 30).addItem (by decide) 40

/-- The head of the chain is removed when it has been returned, then an entry inside the chain,
the one before it and one ahead. -/
theorem iterate_tolerates_removal_colliding :
    let calls : List (Op Nat) :=
      [.iterate,.remove 4,.iterate,.iterate,.remove 2,.remove 3,.remove 4,.iterate,.iterate,
        .iterate]
    let progress := (startIterations collidingTable).perform calls
    progress.returned = [(4,40),(3,30),(2,20),(1,10)] ∧ progress.ended = true ∧
      progress.returned.filter (fun x => x.1 = 1) = [(1,10)] := by
  intro calls progress
  have h := iterate_tolerates_removal unique_collidingTable calls
  have hended := h.1 (by decide)
  exact ⟨by decide,hended,h.2.1 hended (1,10) (by decide) (by decide)⟩

end Iteration

end HashTable

end Condor
