import Mathlib.Algebra.Order.BigOperators.Group.List
import Condor.Security.KeyCache

/-!
# The session index

How often an entry is in the list of a string is how often the string is among its three. From
this follows what the two queries return, and when they run into their own assertions.
-/

namespace Condor.Security

open Lib List Function Option

namespace KeyCacheIndex

variable {index index' : KeyCacheIndex} {s : CString} {p : Ptr} {ss : List CString}

def listed (index : KeyCacheIndex) (s : CString) : List Ptr := (index.lookup s).getD []

structure Sound (index : KeyCacheIndex) : Prop where
  unique : index.Unique
  nonempty : ∀ s, index.lookup s ≠ some []
  blank : index.lookup [] = none

theorem Sound.start (hash : CString → UInt32) :
    Sound (HashTable.initializeWith hash .rejectDuplicateKeys) where
  unique := HashTable.unique_initializeWith _ _
  nonempty s := by simp [HashTable.lookup_eq_head?]
  blank := by simp [HashTable.lookup_eq_head?]

theorem Sound.adjust (h : Sound index) (hs : s ≠ []) {g : List Ptr → List Ptr}
    (hg : g (index.listed s) ≠ []) (hsome : index.lookup s ≠ none) :
    Sound (index.adjust s g) ∧
      ∀ s', listed (index.adjust s g) s' = if s' = s then g (index.listed s)
        else index.listed s' := by
  obtain ⟨l,hl⟩ := Option.ne_none_iff_exists'.mp hsome
  have hlist : index.listed s = l := by rw [listed,hl]; rfl
  refine ⟨⟨h.unique.adjust s g,?_,?_⟩,?_⟩
  · intro s'
    rw [HashTable.lookup_adjust]
    split
    · next he =>
      rw [he,hl,map_some]
      rw [hlist] at hg
      simpa using hg
    · exact h.nonempty s'
  · rw [HashTable.lookup_adjust,if_neg (Ne.symm hs)]
    exact h.blank
  · intro s'
    simp only [listed,HashTable.lookup_adjust]
    split
    · next he =>
      rw [he,hl]
      rfl
    · rfl

theorem Sound.addToIndex (h : Sound index) (s : CString) (p : Ptr) :
    ∃ index', index.addToIndex s p = some index' ∧ Sound index' ∧
      ∀ s', index'.listed s' = if s' = s ∧ s ≠ [] then index.listed s' ++ [p]
        else index.listed s' := by
  unfold KeyCacheIndex.addToIndex
  by_cases hs : s = []
  · rw [if_pos hs]
    exact ⟨index,rfl,h,fun s' => by simp [hs]⟩
  · rw [if_neg hs]
    cases hl : index.lookup s with
    | some l =>
      obtain ⟨hsound,hlist⟩ := h.adjust hs (g := fun l => l ++ [p]) (by simp) (by simp [hl])
      refine ⟨_,rfl,hsound,?_⟩
      intro s'
      rw [hlist s']
      by_cases he : s' = s
      · simp [he,hs]
      · simp [he]
    | none =>
      -- a new list, which is empty until the key is appended
      dsimp only
      rw [HashTable.insert_absent hl]
      dsimp only
      have hlook (s' : CString) := HashTable.lookup_addItem h.unique hl [] s'
      have hunique := h.unique.addItem hl []
      refine ⟨_,rfl,⟨hunique.adjust s _,?_,?_⟩,?_⟩
      · intro s'
        rw [HashTable.lookup_adjust,hlook]
        split
        · simp
        · exact h.nonempty s'
      · rw [HashTable.lookup_adjust,hlook,if_neg (Ne.symm hs),if_neg (Ne.symm hs)]
        exact h.blank
      · intro s'
        simp only [listed,HashTable.lookup_adjust,hlook]
        by_cases he : s' = s
        · simp [he,hs,hl]
        · simp [he]

theorem Sound.removeFromIndex (h : Sound index) (hp : s ≠ [] → p ∈ index.listed s) :
    ∃ index', index.removeFromIndex s p = some index' ∧ Sound index' ∧
      ∀ s', index'.listed s' =
        if s' = s ∧ s ≠ [] then (index.listed s').erase p else index.listed s' := by
  unfold KeyCacheIndex.removeFromIndex
  by_cases hs : s = []
  · rw [hs,h.blank]
    exact ⟨index,rfl,h,fun s' => by simp⟩
  · have hmem := hp hs
    cases hl : index.lookup s with
    | none => simp [listed,hl] at hmem
    | some l =>
      have hlist : index.listed s = l := by rw [listed,hl]; rfl
      rw [hlist] at hmem
      dsimp only
      rw [if_pos hmem]
      split
      · next hnil =>
        refine ⟨_,rfl,⟨h.unique.remove s,?_,?_⟩,?_⟩
        · intro s'
          rw [HashTable.lookup_remove h.unique]
          split
          · simp
          · exact h.nonempty s'
        · rw [HashTable.lookup_remove h.unique,if_neg (Ne.symm hs)]
          exact h.blank
        · intro s'
          simp only [listed,HashTable.lookup_remove h.unique]
          by_cases he : s' = s
          · rw [if_pos he,if_pos ⟨he,hs⟩,he,hl]
            exact hnil.symm
          · rw [if_neg he,if_neg (fun hc => he hc.1)]
      · next hne =>
        obtain ⟨hsound,hlist'⟩ := h.adjust hs (g := fun l => l.erase p) (by rw [hlist]; exact hne)
          (by simp [hl])
        refine ⟨_,rfl,hsound,?_⟩
        intro s'
        rw [hlist' s']
        by_cases he : s' = s
        · simp [he,hs]
        · simp [he]

theorem Sound.addAll (h : Sound index) (p : Ptr) (ss : List CString) :
    ∃ index', addAll p ss index = some index' ∧ Sound index' ∧ ∀ s q, s ≠ [] →
      (index'.listed s).count q = (index.listed s).count q + if q = p then ss.count s else 0 := by
  induction ss generalizing index with
  | nil => exact ⟨index,rfl,h,fun s q _ => by simp⟩
  | cons s ss ih =>
    obtain ⟨index1,h₁,hsound,hlist⟩ := h.addToIndex s p
    obtain ⟨index2,h₂,hsound',hcount⟩ := ih hsound
    refine ⟨index2,by rw [KeyCacheIndex.addAll,h₁]; exact h₂,hsound',?_⟩
    intro s' q hs'
    rw [hcount s' q hs',hlist s']
    by_cases he : s' = s
    · subst he
      by_cases hq : q = p
      · subst hq
        simp [hs']
        omega
      · have hq' : p ≠ q := Ne.symm hq
        simp [hs',hq,hq']
    · have he' : s ≠ s' := Ne.symm he
      simp [he,he']

theorem Sound.removeAll (h : Sound index) (p : Ptr) (ss : List CString)
    (hp : ∀ s, s ≠ [] → ss.count s ≤ (index.listed s).count p) :
    ∃ index', removeAll p ss index = some index' ∧ Sound index' ∧ ∀ s q, s ≠ [] →
      (index'.listed s).count q = (index.listed s).count q - if q = p then ss.count s else 0 := by
  induction ss generalizing index with
  | nil => exact ⟨index,rfl,h,fun s q _ => by simp⟩
  | cons s ss ih =>
    have hmem : s ≠ [] → p ∈ index.listed s := by
      intro hs
      have hle := hp s hs
      rw [count_cons_self] at hle
      exact List.count_pos_iff.mp (by omega)
    obtain ⟨index1,h₁,hsound,hlist⟩ := h.removeFromIndex hmem
    have hp1 : ∀ s', s' ≠ [] → ss.count s' ≤ (index1.listed s').count p := by
      intro s' hs'
      have hle := hp s' hs'
      rw [hlist s']
      by_cases he : s' = s
      · subst he
        rw [if_pos ⟨rfl,hs'⟩,count_erase_self]
        rw [count_cons_self] at hle
        omega
      · have he' : s ≠ s' := Ne.symm he
        rw [if_neg (fun hc => he hc.1)]
        simpa [List.count_cons,he'] using hle
    obtain ⟨index2,h₂,hsound',hcount⟩ := ih hsound hp1
    refine ⟨index2,by rw [KeyCacheIndex.removeAll,h₁]; exact h₂,hsound',?_⟩
    intro s' q hs'
    rw [hcount s' q hs',hlist s']
    by_cases he : s' = s
    · subst he
      rw [if_pos ⟨rfl,hs'⟩]
      by_cases hq : q = p
      · subst hq
        rw [if_pos rfl,if_pos rfl,count_erase_self,count_cons_self]
        omega
      · rw [if_neg hq,if_neg hq,count_erase_of_ne hq]
    · have he' : s ≠ s' := Ne.symm he
      rw [if_neg (fun hc => he hc.1)]
      simp [he']

end KeyCacheIndex

private theorem append_cons_inj {α : Type} {x : α} {p p' a a' : List α} (ha : x ∉ a) (ha' : x ∉ a')
    (h : p ++ x :: a = p' ++ x :: a') : p = p' ∧ a = a' := by
  rcases List.append_eq_append_iff.mp h with ⟨c,hp,hc⟩ | ⟨c,hp,hc⟩
  · cases c with
    | nil => exact ⟨by simpa using hp.symm,by simpa using hc⟩
    | cons y c =>
      obtain ⟨-,rfl⟩ := List.cons.inj hc
      simp at ha
  · cases c with
    | nil => exact ⟨by simpa using hp,by simpa using hc.symm⟩
    | cons y c =>
      obtain ⟨-,rfl⟩ := List.cons.inj hc
      simp at ha'

private theorem makeServerUniqueId_injective {p p' : CString} {n n' : Int} (hp : p ≠ [])
    (hn : n ≠ 0)
    (h : makeServerUniqueId p' n' = makeServerUniqueId p n) : p' = p ∧ n' = n := by
  have hright : makeServerUniqueId p n = p ++ cstr "." ++ decimalInt n := by
    rw [makeServerUniqueId,if_neg (by simp [hp,hn])]
  rw [hright] at h
  unfold makeServerUniqueId at h
  split at h
  · simp [hp] at h
  · have hdot : cstr "." = [dot] := by decide
    rw [hdot,append_assoc,append_assoc] at h
    have hne (i : Int) : dot ∉ decimalInt i := fun hd => decimalInt_ne_dot i dot hd rfl
    obtain ⟨h1,h2⟩ := append_cons_inj (hne n') (hne n) h
    exact ⟨h1,decimalInt_injective h2⟩

theorem makeServerUniqueId_ne_nil {p : CString} {n : Int} (hp : p ≠ []) (hn : n ≠ 0) :
    makeServerUniqueId p n ≠ [] := by
  rw [makeServerUniqueId,if_neg (by simp [hp,hn])]
  simp [hp]

namespace KeyCache

variable {k k' : KeyCache} {e : KeyCacheEntry} {p : Ptr}

/-- The tables name the live entries and nothing else: each under its own id, and in the lists of
its own strings. -/
structure Exact (k : KeyCache) : Prop where
  distinct : (k.heap.map Prod.fst).Nodup
  unique : k.keyTable.Unique
  rejects : k.keyTable.duplicateKeyBehavior = .rejectDuplicateKeys
  stored : ∀ id p, k.keyTable.lookup id = some p ↔ ∃ e, (p,e) ∈ k.heap ∧ e.id = id
  sound : KeyCacheIndex.Sound k.index
  live : ∀ s p, s ≠ [] → p ∈ k.index.listed s → ∃ e, (p,e) ∈ k.heap
  listed : ∀ s p e, s ≠ [] → (p,e) ∈ k.heap → (k.index.listed s).count p = e.strings.count s

private theorem Exact.entry_eq (h : k.Exact) {e e' : KeyCacheEntry} (he : (p,e) ∈ k.heap)
    (he' : (p,e') ∈ k.heap) : e = e' := by
  have hinj := inj_on_of_nodup_map h.distinct he he' rfl
  exact (Prod.mk.inj hinj).2

theorem Exact.deref_iff (h : k.Exact) : k.deref p = some e ↔ (p,e) ∈ k.heap := by
  unfold deref
  constructor
  · intro hd
    obtain ⟨x,hx,rfl⟩ := Option.map_eq_some_iff.mp hd
    have hkey : x.1 = p := by simpa using find?_some hx
    rw [← hkey]
    exact mem_of_find?_eq_some hx
  · intro he
    have hsome : (k.heap.find? fun x => x.1 = p).isSome := by
      rw [find?_isSome]
      exact ⟨(p,e),he,by simp⟩
    obtain ⟨x,hx⟩ := Option.isSome_iff_exists.mp hsome
    have hkey : x.1 = p := by simpa using find?_some hx
    have hmem : (p,x.2) ∈ k.heap := by
      rw [← hkey]
      exact mem_of_find?_eq_some hx
    rw [hx,map_some,h.entry_eq he hmem]

private theorem Exact.id_inj (h : k.Exact) {q : Ptr} {e' : KeyCacheEntry} (he : (p,e) ∈ k.heap)
    (he' : (q,e') ∈ k.heap) (hid : e.id = e'.id) : p = q := by
  have h1 := (h.stored e.id p).mpr ⟨e,he,rfl⟩
  have h2 := (h.stored e.id q).mpr ⟨e',he',hid.symm⟩
  exact some.inj (h1.symm.trans h2)

theorem Exact.empty (env : Env) : (KeyCache.empty env).Exact where
  distinct := nodup_nil
  unique := HashTable.unique_initializeWith _ _
  rejects := rfl
  stored id p := by simp [KeyCache.empty,HashTable.lookup_eq_head?]
  sound := KeyCacheIndex.Sound.start _
  live s p _ hp := by
    simp [KeyCache.empty,KeyCacheIndex.listed,HashTable.lookup_eq_head?] at hp
  listed s p e _ he := by simp [KeyCache.empty] at he

theorem Exact.insert (h : k.Exact) (env : Env) (e : KeyCacheEntry) :
    ∃ r, k.insert env e = some r ∧ r.1.Exact := by
  unfold KeyCache.insert
  dsimp only
  generalize hp : env.alloc (k.heap.map Prod.fst) = p
  have hfresh : p ∉ k.heap.map Prod.fst := hp ▸ env.fresh _
  have hnew (e' : KeyCacheEntry) : (p,e') ∉ k.heap := by
    intro he
    exact hfresh (mem_map_of_mem (f := Prod.fst) he)
  cases hl : k.keyTable.lookup e.id with
  | some q =>
    rw [HashTable.insert_present hl h.rejects]
    exact ⟨_,rfl,h⟩
  | none =>
    rw [HashTable.insert_absent hl]
    dsimp only
    obtain ⟨index,hadd,hsound,hcount⟩ := h.sound.addAll p e.strings
    rw [hadd]
    refine ⟨_,rfl,?_⟩
    have hlook (id : CString) := HashTable.lookup_addItem h.unique hl p id
    constructor
    · rw [map_append,nodup_append]
      refine ⟨h.distinct,by simp,?_⟩
      intro a ha b hb hab
      have hb : b = p := by simpa using hb
      exact hfresh (hb ▸ hab ▸ ha)
    · exact h.unique.addItem hl p
    · exact (HashTable.duplicateKeyBehavior_addItem ..).trans h.rejects
    · intro id q
      dsimp only
      rw [hlook id]
      constructor
      · intro hq
        split at hq
        · next hid =>
          obtain rfl := some.inj hq
          exact ⟨e,by simp,hid.symm⟩
        · obtain ⟨e',he',hid⟩ := (h.stored id q).mp hq
          exact ⟨e',mem_append_left _ he',hid⟩
      · rintro ⟨e',he',rfl⟩
        rcases List.mem_append.mp he' with he' | he'
        · have hq := (h.stored e'.id q).mpr ⟨e',he',rfl⟩
          rw [if_neg,hq]
          intro hid
          rw [hid,hl] at hq
          simp at hq
        · simp only [mem_singleton,Prod.mk.injEq] at he'
          rw [he'.1,he'.2,if_pos rfl]
    · exact hsound
    · intro s q hs hq
      dsimp only at hq ⊢
      have hpos := List.count_pos_iff.mpr hq
      rw [hcount s q hs] at hpos
      by_cases hqp : q = p
      · exact ⟨e,by simp [hqp]⟩
      · rw [if_neg hqp,Nat.add_zero] at hpos
        obtain ⟨e',he'⟩ := h.live s q hs (List.count_pos_iff.mp hpos)
        exact ⟨e',mem_append_left _ he'⟩
    · intro s q e' hs he'
      dsimp only at he' ⊢
      rw [hcount s q hs]
      rcases List.mem_append.mp he' with he' | he'
      · have hqp : q ≠ p := fun heq => hnew e' (heq ▸ he')
        rw [if_neg hqp,Nat.add_zero]
        exact h.listed s q e' hs he'
      · simp only [mem_singleton,Prod.mk.injEq] at he'
        obtain ⟨rfl,rfl⟩ := he'
        rw [if_pos rfl,count_eq_zero_of_not_mem,Nat.zero_add]
        intro hq
        obtain ⟨e'',he''⟩ := h.live s q hs hq
        exact hnew e'' he''

theorem Exact.remove (h : k.Exact) (keyId : CString) :
    ∃ r, k.remove keyId = some r ∧ r.1.Exact := by
  unfold KeyCache.remove
  cases hl : k.keyTable.lookup keyId with
  | none => exact ⟨_,rfl,h⟩
  | some p =>
    obtain ⟨e,he,hid⟩ := (h.stored keyId p).mp hl
    dsimp only
    rw [h.deref_iff.mpr he]
    dsimp only
    have henough (s : CString) (hs : s ≠ []) : e.strings.count s ≤ (k.index.listed s).count p := by
      rw [h.listed s p e hs he]
    obtain ⟨index,hrem,hsound,hcount⟩ := h.sound.removeAll p e.strings henough
    rw [hrem]
    refine ⟨_,rfl,?_⟩
    have hlook (id : CString) := HashTable.lookup_remove h.unique keyId id
    have hheap (q : Ptr) (e' : KeyCacheEntry) :
        (q,e') ∈ (k.heap.filter fun x => x.1 ≠ p) ↔ (q,e') ∈ k.heap ∧ q ≠ p := by simp
    constructor
    · exact (h.distinct.sublist (List.filter_sublist.map _))
    · exact h.unique.remove keyId
    · exact h.rejects
    · intro id q
      dsimp only
      rw [hlook id]
      constructor
      · intro hq
        split at hq
        · simp at hq
        · next hne =>
          obtain ⟨e',he',hid'⟩ := (h.stored id q).mp hq
          refine ⟨e',(hheap q e').mpr ⟨he',?_⟩,hid'⟩
          rintro rfl
          rw [h.entry_eq he' he] at hid'
          exact hne (hid'.symm.trans hid)
      · rintro ⟨e',he',rfl⟩
        obtain ⟨he',hqp⟩ := (hheap q e').mp he'
        rw [if_neg]
        · exact (h.stored e'.id q).mpr ⟨e',he',rfl⟩
        · intro hid'
          exact hqp (h.id_inj he' he (hid'.trans hid.symm))
    · exact hsound
    · intro s q hs hq
      dsimp only at hq ⊢
      have hpos := List.count_pos_iff.mpr hq
      rw [hcount s q hs] at hpos
      have hqp : q ≠ p := by
        rintro rfl
        rw [if_pos rfl,h.listed s q e hs he] at hpos
        omega
      rw [if_neg hqp] at hpos
      obtain ⟨e',he'⟩ := h.live s q hs (List.count_pos_iff.mp hpos)
      exact ⟨e',(hheap q e').mpr ⟨he',hqp⟩⟩
    · intro s q e' hs he'
      obtain ⟨he',hqp⟩ := (hheap q e').mp he'
      dsimp only
      rw [hcount s q hs,if_neg hqp]
      exact h.listed s q e' hs he'

theorem Exact.expire (h : k.Exact) (he : (p,e) ∈ k.heap) :
    ∃ k', k.expire p = some k' ∧ k'.Exact := by
  obtain ⟨r,hr,hexact⟩ := h.remove e.id
  refine ⟨r.1,?_,hexact⟩
  rw [KeyCache.expire,h.deref_iff.mpr he]
  dsimp only
  rw [hr]
  rfl

theorem Exact.insertAll (h : k.Exact) (env : Env) (es : List KeyCacheEntry) :
    ∃ k', insertAll env es k = some k' ∧ k'.Exact := by
  induction es generalizing k with
  | nil => exact ⟨k,rfl,h⟩
  | cons e es ih =>
    obtain ⟨r,hr,hexact⟩ := h.insert env e
    obtain ⟨k',hk',hexact'⟩ := ih hexact
    refine ⟨k',?_,hexact'⟩
    rw [KeyCache.insertAll,hr]
    exact hk'

private theorem mapM_some {α β : Type} {f : α → Option β} {l : List α}
    (h : ∀ x ∈ l, ∃ y, f x = some y) : ∃ ys, l.mapM f = some ys := by
  induction l with
  | nil => exact ⟨[],rfl⟩
  | cons x xs ih =>
    obtain ⟨y,hy⟩ := h x (mem_cons_self ..)
    obtain ⟨ys,hys⟩ := ih fun z hz => h z (mem_cons_of_mem _ hz)
    exact ⟨y :: ys,by rw [mapM_cons,hy,hys]; rfl⟩

theorem Exact.copyStorage (h : k.Exact)
    (env : Env) : ∃ k', copyStorage env k = some k' ∧ k'.Exact := by
  have hes : ∃ es, (k.keyTable.entries.mapM fun x => k.deref x.2) = some es := by
    apply mapM_some
    intro x hx
    obtain ⟨e,he,-⟩ := (h.stored x.1 x.2).mp (h.unique.lookup_of_mem hx)
    exact ⟨e,h.deref_iff.mpr he⟩
  obtain ⟨es,hes⟩ := hes
  obtain ⟨k',hk',hexact⟩ := (Exact.empty env).insertAll env es
  exact ⟨k',by rw [KeyCache.copyStorage,hes]; exact hk',hexact⟩

def idsOf (k : KeyCache) (cond : KeyCacheEntry → Bool) : List CString :=
  (k.heap.filter fun x => cond x.2).map fun x => x.2.id

/-- The query returns the ids of exactly the live entries that satisfy the condition, each once,
without running into its assertion. -/
def Answers (k : KeyCache) (cond : KeyCacheEntry → Bool) (answer : Option (Option (List CString))) :
    Prop :=
  ∃ r, answer = some r ∧ (r.getD []).Perm (k.idsOf cond)

def ListsOnce (k : KeyCache) (cond : KeyCacheEntry → Bool) (s : CString) : Prop :=
  ∀ p e, (p,e) ∈ k.heap → e.strings.count s = if cond e then 1 else 0

private theorem Exact.perm_of_listsOnce (h : k.Exact) {cond : KeyCacheEntry → Bool} {s : CString}
    (hs : s ≠ []) (honce : k.ListsOnce cond s) :
    (k.index.listed s).Perm ((k.heap.filter fun x => cond x.2).map Prod.fst) := by
  rw [perm_iff_count]
  intro p
  by_cases hp : ∃ e, (p,e) ∈ k.heap
  · obtain ⟨e,he⟩ := hp
    rw [h.listed s p e hs he,honce p e he]
    have hsub : ((k.heap.filter fun x => cond x.2).map Prod.fst).Nodup :=
      h.distinct.sublist (List.filter_sublist.map _)
    by_cases hc : cond e = true
    · rw [if_pos hc]
      exact (count_eq_one_of_mem hsub
        (List.mem_map.mpr ⟨(p,e),List.mem_filter.mpr ⟨he,hc⟩,rfl⟩)).symm
    · rw [if_neg hc]
      refine (count_eq_zero_of_not_mem fun hmem => ?_).symm
      obtain ⟨x,hx,rfl⟩ := List.mem_map.mp hmem
      obtain ⟨hx,hcx⟩ := List.mem_filter.mp hx
      rw [h.entry_eq he hx] at hc
      exact hc hcx
  · rw [count_eq_zero_of_not_mem fun hmem => hp (h.live s p hs hmem)]
    refine (count_eq_zero_of_not_mem fun hmem => hp ?_).symm
    obtain ⟨x,hx,rfl⟩ := List.mem_map.mp hmem
    exact ⟨x.2,mem_of_mem_filter hx⟩

variable {ok : KeyCacheEntry → Bool}

private theorem Exact.keyIds_eq_some (h : k.Exact) {ps : List Ptr}
    (hok : ∀ p ∈ ps, ∃ e, (p,e) ∈ k.heap ∧ ok e = true) :
    k.keyIds ok ps = some (ps.map fun p => ((k.deref p).map KeyCacheEntry.id).getD []) := by
  unfold keyIds
  induction ps with
  | nil => rfl
  | cons p ps ih =>
    obtain ⟨e,he,hoke⟩ := hok p (mem_cons_self ..)
    rw [mapM_cons,ih fun q hq => hok q (mem_cons_of_mem _ hq),h.deref_iff.mpr he]
    simp [hoke,h.deref_iff.mpr he]

private theorem Exact.keyIds_fails (h : k.Exact) {ps : List Ptr}
    (hp : p ∈ ps) (he : (p,e) ∈ k.heap) (hbad : ok e = false) : k.keyIds ok ps = none := by
  unfold keyIds
  induction ps with
  | nil => simp at hp
  | cons q qs ih =>
    rw [mapM_cons]
    rcases List.mem_cons.mp hp with rfl | hp
    · rw [h.deref_iff.mpr he]
      simp [hbad]
    · rw [ih hp]
      cases (k.deref q).bind fun e => if ok e = true then some e.id else none <;> rfl

def query (k : KeyCache) (ok : KeyCacheEntry → Bool) (s : CString) :
    Option (Option (List CString)) :=
  match k.index.lookup s with
  | none => some none
  | some keylist => (k.keyIds ok keylist).map some

private theorem Exact.ids_nodup (h : k.Exact) (cond : KeyCacheEntry → Bool) :
    (k.idsOf cond).Nodup := by
  unfold idsOf
  refine List.Nodup.map_on ?_ (List.Nodup.filter _ (List.Nodup.of_map _ h.distinct))
  rintro ⟨p,e⟩ hx ⟨q,e'⟩ hy hid
  have he := mem_of_mem_filter hx
  have he' := mem_of_mem_filter hy
  obtain rfl := h.id_inj he he' hid
  rw [h.entry_eq he he']

private theorem query_getD {k : KeyCache} {s : CString}
    {ids : List CString} (h : k.keyIds ok (k.index.listed s) = some ids) :
    ∃ r, k.query ok s = some r ∧ r.getD [] = ids := by
  unfold query
  unfold KeyCacheIndex.listed at h
  cases hl : k.index.lookup s with
  | none =>
    rw [hl] at h
    exact ⟨none,rfl,some.inj h⟩
  | some l =>
    rw [hl] at h
    exact ⟨some ids,by dsimp only; rw [show k.keyIds ok l = some ids from h]; rfl,rfl⟩

theorem Exact.query_iff (h : k.Exact) {cond : KeyCacheEntry → Bool} {s : CString}
    (hs : s ≠ [])
    (hcond : ∀ e : KeyCacheEntry, cond e = true → s ∈ e.strings) :
    k.Answers cond (k.query cond s) ↔ k.ListsOnce cond s := by
  constructor
  · rintro ⟨r,hr,hperm⟩ p e he
    have hcount := h.listed s p e hs he
    -- an entry that does not belong there would fail the assertion
    have hpass (q : Ptr) (hq : q ∈ k.index.listed s) : ∃ e, (q,e) ∈ k.heap ∧ cond e = true := by
      obtain ⟨e',he'⟩ := h.live s q hs hq
      refine ⟨e',he',?_⟩
      by_contra hbad
      have hfail : k.keyIds cond (k.index.listed s) = none :=
        h.keyIds_fails hq he' (by simpa using hbad)
      unfold query at hr
      unfold KeyCacheIndex.listed at hfail hq
      cases hl : k.index.lookup s with
      | none => simp [hl] at hq
      | some l =>
        rw [hl] at hr hfail
        simp only [getD_some] at hfail
        simp [hfail] at hr
    by_cases hc : cond e = true
    · rw [if_pos hc]
      have hpos : 0 < e.strings.count s := List.count_pos_iff.mpr (hcond e hc)
      obtain ⟨r',hr',hids⟩ := query_getD (h.keyIds_eq_some hpass)
      obtain rfl : r = r' := some.inj (hr.symm.trans hr')
      have hle : (k.index.listed s).count p ≤ (r.getD []).count e.id := by
        rw [hids]
        have hid : ((k.deref p).map KeyCacheEntry.id).getD [] = e.id := by
          rw [h.deref_iff.mpr he]
          rfl
        rw [← hid]
        exact count_le_count_map (f := fun p => ((k.deref p).map KeyCacheEntry.id).getD [])
      have hone : (r.getD []).count e.id ≤ 1 := by
        rw [hperm.count_eq]
        exact List.nodup_iff_count_le_one.mp (h.ids_nodup cond) e.id
      omega
    · rw [if_neg hc,← hcount]
      apply count_eq_zero_of_not_mem
      intro hmem
      obtain ⟨e',he',hc'⟩ := hpass p hmem
      rw [h.entry_eq he' he] at hc'
      exact hc hc'
  · intro honce
    have hpass (q : Ptr) (hq : q ∈ k.index.listed s) : ∃ e, (q,e) ∈ k.heap ∧ cond e = true := by
      obtain ⟨e,he⟩ := h.live s q hs hq
      refine ⟨e,he,?_⟩
      by_contra hc
      have hpos := List.count_pos_iff.mpr hq
      rw [h.listed s q e hs he,honce q e he,if_neg hc] at hpos
      omega
    obtain ⟨r,hr,hids⟩ := query_getD (h.keyIds_eq_some hpass)
    refine ⟨r,hr,?_⟩
    rw [hids]
    refine ((h.perm_of_listsOnce hs honce).map _).trans ?_
    unfold idsOf
    rw [List.map_map]
    apply List.Perm.of_eq
    apply map_congr_left
    intro x hx
    rw [comp_apply,h.deref_iff.mpr (mem_of_mem_filter hx)]
    rfl

def hasAddress (addr : CString) (e : KeyCacheEntry) : Bool :=
  e.serverAddr == addr || e.peerAddr == addr

theorem Exact.getKeysForPeerAddress_iff (h : k.Exact) {addr : CString} (ha : addr ≠ []) :
    k.Answers (hasAddress addr) (k.getKeysForPeerAddress addr) ↔
      ∀ p e, (p,e) ∈ k.heap → e.serverUniqueId ≠ addr ∧
        ¬(e.peerAddr = addr ∧ e.serverAddr = addr) := by
  have hq : k.getKeysForPeerAddress addr = k.query (hasAddress addr) addr := by
    rw [getKeysForPeerAddress,if_neg ha]
    rfl
  rw [hq,h.query_iff ha]
  · refine forall_congr' fun p => forall_congr' fun e => imp_congr_right fun _ => ?_
    by_cases h1 : e.peerAddr = addr <;> by_cases h2 : e.serverAddr = addr <;>
      by_cases h3 : e.serverUniqueId = addr <;>
      simp [KeyCacheEntry.strings,hasAddress,h1,h2,h3]
  · intro e he
    simp only [hasAddress,Bool.or_eq_true,beq_iff_eq] at he
    rcases he with he | he <;> simp [KeyCacheEntry.strings,he]

def ofProcess (parentUniqueId : CString) (pid : Int) (e : KeyCacheEntry) : Bool :=
  e.policy.parentUniqueId.getD [] == parentUniqueId && e.policy.serverPid.getD 0 == pid

variable {parentUniqueId : CString}

theorem ofProcess_iff {pid : Int} (hp : parentUniqueId ≠ []) (hn : pid ≠ 0)
    (e : KeyCacheEntry) :
    ofProcess parentUniqueId pid e =
    (e.serverUniqueId == makeServerUniqueId parentUniqueId pid) := by
  rw [Bool.eq_iff_iff]
  simp only [ofProcess,Bool.and_eq_true,beq_iff_eq]
  constructor
  · rintro ⟨h1,h2⟩
    rw [KeyCacheEntry.serverUniqueId,h1,h2]
  · intro h
    exact makeServerUniqueId_injective hp hn h

theorem Exact.getKeysForProcess_iff (h : k.Exact) {pid : Int}
    (hp : parentUniqueId ≠ []) (hn : pid ≠ 0) :
    k.Answers (ofProcess parentUniqueId pid) (k.getKeysForProcess parentUniqueId pid) ↔
      ∀ p e, (p,e) ∈ k.heap → e.peerAddr ≠ makeServerUniqueId parentUniqueId pid ∧
        e.serverAddr ≠ makeServerUniqueId parentUniqueId pid := by
  have hs := makeServerUniqueId_ne_nil hp hn
  rw [funext (ofProcess_iff hp hn)]
  rw [show k.getKeysForProcess parentUniqueId pid = k.query
    (fun e => e.serverUniqueId == makeServerUniqueId parentUniqueId pid)
    (makeServerUniqueId parentUniqueId pid) from rfl]
  generalize makeServerUniqueId parentUniqueId pid = s at hs
  rw [h.query_iff hs]
  · refine forall_congr' fun p => forall_congr' fun e => imp_congr_right fun _ => ?_
    by_cases h1 : e.peerAddr = s <;> by_cases h2 : e.serverAddr = s <;>
      by_cases h3 : e.serverUniqueId = s <;> simp [KeyCacheEntry.strings,h1,h2,h3]
  · intro e he
    have he : e.serverUniqueId = s := by simpa using he
    simp [KeyCacheEntry.strings,he]

private theorem Exact.getKeysForProcess_none (h : k.Exact) {pid : Int}
    (hp : parentUniqueId = [] ∨ pid = 0) : k.getKeysForProcess parentUniqueId pid = some none := by
  rw [getKeysForProcess,makeServerUniqueId,if_pos hp,h.sound.blank]

end KeyCache

namespace Caches

variable {env : Env} {cs : Caches}

private theorem exact_step (h : ∀ i, (cs i).Exact) (a : Action) :
    ∃ cs', cs.step env a = some cs' ∧ ∀ i, (cs' i).Exact := by
  have hupdate {k : KeyCache} (hk : k.Exact) (i j : Nat) : (update cs i k j).Exact := by
    by_cases hij : j = i
    · subst hij
      rw [update_self]
      exact hk
    · rw [update_of_ne hij]
      exact h j
  cases a with
  | insert i e =>
    obtain ⟨r,hr,hexact⟩ := (h i).insert env e
    exact ⟨_,by rw [step,hr]; rfl,hupdate hexact i⟩
  | remove i keyId =>
    obtain ⟨r,hr,hexact⟩ := (h i).remove keyId
    exact ⟨_,by rw [step,hr]; rfl,hupdate hexact i⟩
  | expire i keyId =>
    simp only [step]
    cases hl : (cs i).keyTable.lookup keyId with
    | none => exact ⟨cs,rfl,h⟩
    | some p =>
      obtain ⟨e,he,-⟩ := ((h i).stored keyId p).mp hl
      obtain ⟨k,hk,hexact⟩ := (h i).expire he
      simp only [hk]
      exact ⟨_,rfl,hupdate hexact i⟩
  | assign i j =>
    unfold step
    dsimp only
    split
    · exact ⟨cs,rfl,h⟩
    · obtain ⟨k,hk,hexact⟩ := (h j).copyStorage env
      exact ⟨_,by rw [hk]; rfl,hupdate hexact i⟩

private theorem exact_run (actions : List Action) (h : ∀ i, (cs i).Exact) :
    ∃ cs', run (step env) cs actions = some cs' ∧ ∀ i, (cs' i).Exact := by
  induction actions generalizing cs with
  | nil => exact ⟨cs,rfl,h⟩
  | cons a as ih =>
    obtain ⟨cs',hstep,hexact⟩ := exact_step h a
    obtain ⟨cs'',hrun,hexact'⟩ := ih hexact
    exact ⟨cs'',by rw [run,hstep]; exact hrun,hexact'⟩

structure Indexed (k : KeyCache) : Prop where
  /-- The list of a string has exactly the live entries of the string. -/
  lists : ∀ s p, s ≠ [] → (p ∈ k.index.listed s ↔ ∃ e, (p,e) ∈ k.heap ∧
    (e.peerAddr = s ∨ e.serverAddr = s ∨ e.serverUniqueId = s))
  nonempty : ∀ s, k.index.lookup s ≠ some []
  blank : k.index.lookup [] = none
  stored : ∀ id p, k.keyTable.lookup id = some p ↔ ∃ e, (p,e) ∈ k.heap ∧ e.id = id
  peer : ∀ addr, addr ≠ [] →
    (k.Answers (KeyCache.hasAddress addr) (k.getKeysForPeerAddress addr) ↔
      ∀ p e, (p,e) ∈ k.heap → e.serverUniqueId ≠ addr ∧
        ¬(e.peerAddr = addr ∧ e.serverAddr = addr))
  process : ∀ parentUniqueId pid, parentUniqueId ≠ [] → pid ≠ 0 →
    (k.Answers (KeyCache.ofProcess parentUniqueId pid)
        (k.getKeysForProcess parentUniqueId pid) ↔
      ∀ p e, (p,e) ∈ k.heap → e.peerAddr ≠ makeServerUniqueId parentUniqueId pid ∧
        e.serverAddr ≠ makeServerUniqueId parentUniqueId pid)
  nobody : ∀ parentUniqueId pid, parentUniqueId = [] ∨ pid = 0 →
    k.getKeysForProcess parentUniqueId pid = some none

private theorem Indexed.of_exact {k : KeyCache} (h : k.Exact) : Indexed k where
  lists s p hs := by
    constructor
    · intro hp
      obtain ⟨e,he⟩ := h.live s p hs hp
      have hpos := List.count_pos_iff.mpr hp
      rw [h.listed s p e hs he,count_pos_iff] at hpos
      simp only [KeyCacheEntry.strings,mem_cons,not_mem_nil,or_false] at hpos
      refine ⟨e,he,?_⟩
      rcases hpos with hpos | hpos | hpos
      · exact .inl hpos.symm
      · exact .inr (.inl hpos.symm)
      · exact .inr (.inr hpos.symm)
    · rintro ⟨e,he,hstr⟩
      apply List.count_pos_iff.mp
      rw [h.listed s p e hs he,count_pos_iff]
      rcases hstr with hstr | hstr | hstr <;> simp [KeyCacheEntry.strings,hstr]
  nonempty := h.sound.nonempty
  blank := h.sound.blank
  stored := h.stored
  peer _ ha := h.getKeysForPeerAddress_iff ha
  process _ _ hp hn := h.getKeysForProcess_iff hp hn
  nobody _ _ hp := h.getKeysForProcess_none hp

/-- No sequence of operations fails an assertion, and every cache it leads to is indexed. -/
theorem indexed_of_run (env : Env) (actions : List Action) :
    ∃ cs, run (step env) (fun _ => KeyCache.empty env) actions = some cs ∧ ∀ i, Indexed (cs i) := by
  obtain ⟨cs,hrun,hexact⟩ :=
    @exact_run env (fun _ => KeyCache.empty env) actions fun _ => KeyCache.Exact.empty env
  exact ⟨cs,hrun,fun i => Indexed.of_exact (hexact i)⟩

def sampleEnv : Env where
  alloc ps := ps.sum + 1
  fresh ps hmem := by
    have := single_le_sum (fun x _ => Nat.zero_le x) _ hmem
    omega
  hash _ := 0

def meetingActions : List Action :=
  [.insert 0 { id := cstr "A",
               policy := { parentUniqueId := some (cstr "host"), serverPid := some 7 } },
    .insert 0 { id := cstr "B", policy := { serverCommandSock := some (cstr "host.7") } },
    .insert 0 { id := cstr "C", addr := some (cstr "<1.2.3.4:5>"),
                policy := { serverCommandSock := some (cstr "<1.2.3.4:5>") } }]

theorem indexed_queries_fail :
    ∃ cs, run (step sampleEnv) (fun _ => KeyCache.empty sampleEnv) meetingActions = some cs ∧
      (cs 0).getKeysForProcess (cstr "host") 7 = none ∧
      (cs 0).getKeysForPeerAddress (cstr "host.7") = none ∧
      (cs 0).getKeysForPeerAddress (cstr "<1.2.3.4:5>") = some (some [cstr "C",cstr "C"]) := by
  refine ⟨_,rfl,?_,?_,?_⟩
  all_goals decide

end Caches

end Condor.Security
