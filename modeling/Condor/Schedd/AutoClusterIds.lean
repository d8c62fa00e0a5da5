import Condor.Schedd.AutoCluster

/-!
# Equal ids, equal jobs

Two ads that carry the same id print the same for the attributes that count.
-/

namespace Condor.Schedd

open Lib List Function Option

namespace StringList

private theorem createUnion_of_contained {l xs : List CString}
    (h : ∀ x ∈ xs, containsAnycase l x = true) : createUnion l xs = (l,false) := by
  induction xs with
  | nil => rfl
  | cons x xs ih =>
    rw [createUnion,if_pos (h x (mem_cons_self ..))]
    exact ih fun y hy => h y (mem_cons_of_mem _ hy)

private theorem createUnion_of_new {l xs : List CString} {x : CString} (hx : x ∈ xs)
    (h : containsAnycase l x = false) : (createUnion l xs).2 = true := by
  induction xs with
  | nil => simp at hx
  | cons y ys ih =>
    rw [createUnion]
    split
    · next hy =>
      rcases List.mem_cons.mp hx with rfl | hx
      · rw [h] at hy
        simp at hy
      · exact ih hx
    · rfl

theorem containsAnycase_iff {l : List CString} {s : CString} :
    containsAnycase l s = true ↔ ∃ x ∈ l, strcaseeq s x = true := by
  rw [containsAnycase,List.any_eq_true]

end StringList

namespace AutoCluster

variable {lib : ClassAds} {c c' : AutoCluster}

def ChangesList (c : AutoCluster) (setting target : Option CString) : Prop :=
  c.sigAttrsCameFromConfigFile ≠ setting.isSome ∨
    ∀ sig, c.significantAttrs = some sig →
      ∃ a ∈ StringList.ofString (newSigAttrs setting target),
        StringList.containsAnycase sig a = false

/-- A call of `config` tells that all is to be computed again, with the table empty, or changes
nothing. -/
structure Configured (c : AutoCluster) (r : AutoCluster × Bool) : Prop where
  told : r.2 = true → r.1.clusterMap = [] ∧ r.1.nextId = 1
  kept : r.2 = false → r.1.clusterMap = c.clusterMap ∧ r.1.nextId = c.nextId ∧
    r.1.significantAttrs = c.significantAttrs ∧
    r.1.sigAttrsCameFromConfigFile = c.sigAttrsCameFromConfigFile

private theorem merge_of_none (h : c.significantAttrs = none) (new : Option CString) :
    Configured c (c.merge new) := by
  unfold merge
  rw [h]
  constructor
  · intro _
    exact ⟨rfl,rfl⟩
  · intro hf
    simp at hf

variable {sig : List CString}

private theorem merge_of_some (h : c.significantAttrs = some sig) (new : Option CString)
    (hok : c.nextIdExhausted = false ∨
      ∃ a ∈ StringList.ofString new, StringList.containsAnycase sig a = false) :
    Configured c (c.merge new) := by
  unfold merge
  rw [h]
  by_cases hnew : ∃ a ∈ StringList.ofString new, StringList.containsAnycase sig a = false
  · obtain ⟨a,ha,hc⟩ := hnew
    have hu := StringList.createUnion_of_new ha hc
    constructor
    · intro _
      simp [hu,clearArray]
    · intro hf
      exact absurd (hu.symm.trans hf) (by simp)
  · have hex : c.nextIdExhausted = false := hok.resolve_right hnew
    have hall : ∀ a ∈ StringList.ofString new, StringList.containsAnycase sig a = true := by
      intro a ha
      by_contra hc
      exact hnew ⟨a,ha,by simpa using hc⟩
    have hu := StringList.createUnion_of_contained hall
    constructor
    · intro ht
      simp [hu] at ht
    · intro _
      simp [hu,hex,h]

/-- While there are ids left, or when the list changes, `config` keeps the table and the caches
in step and compares no null pointer. -/
theorem config_configured (setting target : Option CString)
    (hok : c.nextIdExhausted = false ∨ c.ChangesList setting target) :
    ∃ r, c.config setting target = some r ∧ Configured c r := by
  by_cases hcame : c.sigAttrsCameFromConfigFile = setting.isSome
  · have hw : c.wipe setting = (c,false) := if_pos hcame
    unfold config
    rw [hw]
    dsimp only
    split
    · next hnone =>
      refine ⟨_,rfl,?_⟩
      constructor
      · intro ht
        simp at ht
      · intro _
        exact ⟨rfl,rfl,rfl,rfl⟩
    · next hgo =>
      have hok' (sig : List CString) (hsig : c.significantAttrs = some sig) :
          c.nextIdExhausted = false ∨
            ∃ a ∈ StringList.ofString (newSigAttrs setting target),
              StringList.containsAnycase sig a = false := by
        rcases hok with hok | hok | hok
        · exact .inl hok
        · exact absurd hcame hok
        · exact .inr (hok sig hsig)
      split
      · next sig old hsig hold =>
        split
        · next hnew =>
          -- nothing to compare with only when the ids run out and the list stays
          exfalso
          rcases hok' sig hsig with hex | ⟨a,ha,-⟩
          · simp [hnew,hex] at hgo
          · simp [hnew,StringList.ofString] at ha
        · next s hnew =>
          split
          · refine ⟨_,rfl,?_⟩
            constructor
            · intro ht
              simp at ht
            · intro _
              exact ⟨rfl,rfl,rfl,rfl⟩
          · exact ⟨_,rfl,merge_of_some hsig _ (hok' sig hsig)⟩
      · cases hsig : c.significantAttrs with
        | none => exact ⟨_,rfl,merge_of_none hsig _⟩
        | some sig => exact ⟨_,rfl,merge_of_some hsig _ (hok' sig hsig)⟩
  · have hw : c.wipe setting =
        ({ c with significantAttrs := none, sigAttrsCameFromConfigFile := setting.isSome },true) :=
      if_neg hcame
    unfold config
    rw [hw]
    dsimp only
    rw [if_neg (by simp)]
    refine ⟨_,rfl,?_⟩
    have h := merge_of_none (c := { c with
      significantAttrs := none, sigAttrsCameFromConfigFile := setting.isSome }) rfl
      (newSigAttrs setting target)
    exact ⟨h.told,fun hf => absurd hf (by simp [merge])⟩

theorem mem_signature {j : JobAd} {a e : CString} :
    (a,e) ∈ c.signature lib sig j ↔ a ∈ c.names lib sig j ∧ j.attrs.expr a = some e := by
  simp only [signature,mem_filterMap,map_eq_some_iff,Prod.mk.injEq]
  constructor
  · rintro ⟨b,hb,e',he,rfl,rfl⟩
    exact ⟨hb,he⟩
  · rintro ⟨ha,he⟩
    exact ⟨a,ha,e,he,rfl,rfl⟩

private theorem signature_congr (h : c.sigAttrsCameFromConfigFile = c'.sigAttrsCameFromConfigFile)
    (sig : List CString) (j : JobAd) :
    c.names lib sig j = c'.names lib sig j ∧ c.signature lib sig j = c'.signature lib sig j := by
  have hn : c.names lib sig j = c'.names lib sig j := by
    simp only [names,internalRefs,h]
  exact ⟨hn,by simp only [signature,hn]⟩

/-- The jobs print the same for the significant attributes and, unless these were chosen, for what
their Requirements refer to. -/
structure Alike (lib : ClassAds) (c : AutoCluster) (sig : List CString) (j j' : JobAd) : Prop where
  significant : ∀ a ∈ sig, j.attrs.expr a = j'.attrs.expr a
  always : c.sigAttrsCameFromConfigFile = false →
    ∀ a ∈ [attrRequirements,attrNiceUserName,attrConcurrencyLimits],
      j.attrs.expr a = j'.attrs.expr a
  referred : c.sigAttrsCameFromConfigFile = false →
    ∀ a ∈ selfRefs lib j, ∀ e, j.attrs.expr a = some e → j'.attrs.expr a = some e

variable {j j' : JobAd}

private theorem expr_eq_of_imp {a : CString}
    (h : ∀ e, j.attrs.expr a = some e → j'.attrs.expr a = some e)
    (h' : ∀ e, j'.attrs.expr a = some e → j.attrs.expr a = some e) :
    j.attrs.expr a = j'.attrs.expr a := by
  cases he : j.attrs.expr a with
  | some e => exact (h e he).symm
  | none =>
    cases he' : j'.attrs.expr a with
    | none => rfl
    | some e => exact absurd (he.symm.trans (h' e he')) (by simp)

private theorem expr_of_signature
    (h : c.signature lib sig j = c.signature lib sig j') {a e : CString}
    (ha : a ∈ c.names lib sig j) (he : j.attrs.expr a = some e) : j'.attrs.expr a = some e :=
  (mem_signature.mp (h ▸ mem_signature.mpr ⟨ha,he⟩)).2

private theorem expr_of_mem_sig
    (h : c.signature lib sig j = c.signature lib sig j') {a : CString} (ha : a ∈ sig) :
    j.attrs.expr a = j'.attrs.expr a := by
  apply expr_eq_of_imp
  · intro e he
    exact expr_of_signature h (mem_append_left _ ha) he
  · intro e he
    exact expr_of_signature h.symm (mem_append_left _ ha) he

private theorem expr_of_mem_selfRefs (h : c.signature lib sig j = c.signature lib sig j')
    (hc : c.sigAttrsCameFromConfigFile = false) {a e : CString} (ha : a ∈ selfRefs lib j)
    (he : j.attrs.expr a = some e) : j'.attrs.expr a = some e := by
  by_cases hsig : StringList.containsAnycase sig a = true
  · -- the significant attribute of the same name stands for it
    obtain ⟨b,hb,hab⟩ := StringList.containsAnycase_iff.mp hsig
    rw [j'.attrs.anycase a b hab,← expr_of_mem_sig h hb,← j.attrs.anycase a b hab]
    exact he
  · apply expr_of_signature h _ he
    apply mem_append_right
    rw [internalRefs,if_neg (by simp [hc])]
    exact List.mem_filter.mpr ⟨ha,by simpa using hsig⟩

private theorem Alike.of_signature
    (h : c.signature lib sig j = c.signature lib sig j') : Alike lib c sig j j' where
  significant _ ha := expr_of_mem_sig h ha
  always hc a ha := by
    apply expr_eq_of_imp
    · intro e he
      exact expr_of_mem_selfRefs h hc (mem_append_right _ ha) he
    · intro e he
      exact expr_of_mem_selfRefs h.symm hc (mem_append_right _ ha) he
  referred hc _ ha _ he := expr_of_mem_selfRefs h hc ha he

private theorem signature_set {j : JobAd} {name : CString} {value : Option CString}
    (hrefs : c.internalRefs lib sig { j with attrs := j.attrs.set name value } =
      c.internalRefs lib sig j)
    (hname : StringList.containsAnycase (c.names lib sig j) name = false) :
    c.signature lib sig { j with attrs := j.attrs.set name value } = c.signature lib sig j := by
  have hn : c.names lib sig { j with attrs := j.attrs.set name value } = c.names lib sig j := by
    rw [names,hrefs,names]
  rw [signature,hn,signature]
  apply filterMap_congr
  intro a ha
  have hne : strcaseeq name a = false := by
    by_contra hc
    have := StringList.containsAnycase_iff.mpr ⟨a,ha,by simpa using hc⟩
    rw [hname] at this
    simp at this
  simp [Attributes.set,hne]

private theorem fit_cases {s : CString} {r : AutoCluster × Int} (h : c.fit s = some r) :
    (r.1 = c ∧ (s,r.2) ∈ c.clusterMap) ∨
    (r.2 = c.nextId ∧
      r.1 = { c with clusterMap := c.clusterMap ++ [(s,c.nextId)], nextId := c.nextId + 1 }) := by
  unfold fit at h
  split at h
  · next id hid =>
    obtain rfl := some.inj h
    obtain ⟨e,he,rfl⟩ := Option.map_eq_some_iff.mp hid
    have hkey : e.1 = s := by simpa using find?_some he
    refine .inl ⟨rfl,?_⟩
    rw [← hkey]
    exact mem_of_find?_eq_some he
  · split at h
    · obtain rfl := some.inj h
      exact .inr ⟨rfl,rfl⟩
    · simp at h

end AutoCluster

namespace Queue

open AutoCluster

variable {lib : ClassAds} {q q' : Queue}

structure Consistent (lib : ClassAds) (q : Queue) : Prop where
  /-- A cached id is one that was handed out; the ad lists the names it was computed from. -/
  cached : ∀ n id, (q.jobs n).autoClusterId = some id →
    ∃ sig, q.autocluster.significantAttrs = some sig ∧ 0 < id ∧ id < q.autocluster.nextId ∧
      StringList.ofString (q.jobs n).autoClusterAttrs = q.autocluster.names lib sig (q.jobs n)
  issued : ∀ s id, (s,id) ∈ q.autocluster.clusterMap → 0 < id ∧ id < q.autocluster.nextId
  next : 0 < q.autocluster.nextId
  unique : ∀ s s' id, (s,id) ∈ q.autocluster.clusterMap → (s',id) ∈ q.autocluster.clusterMap →
    s = s'
  told : ∀ sig, q.autocluster.significantAttrs = some sig → ∀ n s id,
    (q.jobs n).autoClusterId = some id → (s,id) ∈ q.autocluster.clusterMap →
      s = text (q.autocluster.signature lib sig (q.jobs n))
  alike : ∀ sig, q.autocluster.significantAttrs = some sig → ∀ n m id,
    (q.jobs n).autoClusterId = some id → (q.jobs m).autoClusterId = some id →
      q.autocluster.signature lib sig (q.jobs n) = q.autocluster.signature lib sig (q.jobs m)

def Admits (lib : ClassAds) (q : Queue) : Action → Prop
  | .config setting target =>
    q.autocluster.nextIdExhausted = false ∨ q.autocluster.ChangesList setting target
  | .getAutoClusterid n =>
    (q.jobs n).autoClusterId = none → ∀ sig, q.autocluster.significantAttrs = some sig →
      (lib.literal (StringList.printToString (q.autocluster.names lib sig (q.jobs n)))).map
          (fun t => StringList.ofString (some t)) =
        some (q.autocluster.names lib sig (q.jobs n)) ∧
      ∀ m, (q.jobs m).autoClusterId ≠ none →
        text (q.autocluster.signature lib sig (q.jobs m)) =
          text (q.autocluster.signature lib sig (q.jobs n)) →
        q.autocluster.signature lib sig (q.jobs m) = q.autocluster.signature lib sig (q.jobs n)
  | .setAttribute n name value =>
    (q.jobs n).autoClusterId ≠ none → (q.jobs n).lists name = false →
      ∀ sig, q.autocluster.significantAttrs = some sig →
        q.autocluster.internalRefs lib sig { q.jobs n
          with attrs := (q.jobs n).attrs.set name value } =
          q.autocluster.internalRefs lib sig (q.jobs n)
  | _ => True

theorem Consistent.start : Consistent lib {} where
  cached _ _ h := by simp at h
  issued _ _ h := by simp at h
  next := by decide
  unique _ _ _ h := by simp at h
  told _ h := by simp at h
  alike _ h := by simp at h

private theorem Consistent.update_none (h : Consistent lib q) (n : Nat) {j : JobAd}
    (hj : j.autoClusterId = none) :
    Consistent lib { q with jobs := update q.jobs n j } := by
  have hold (m : Nat) (id : Int) (hm : (update q.jobs n j m).autoClusterId = some id) :
      update q.jobs n j m = q.jobs m := by
    by_cases hmn : m = n
    · subst hmn
      rw [update_self,hj] at hm
      simp at hm
    · exact update_of_ne hmn j q.jobs
  constructor
  · intro m id hm
    dsimp only at hm ⊢
    have he := hold m id hm
    rw [he] at hm ⊢
    exact h.cached m id hm
  · exact h.issued
  · exact h.next
  · exact h.unique
  · intro sig hsig m s id hm
    dsimp only at hm ⊢
    have he := hold m id hm
    rw [he] at hm ⊢
    exact h.told sig hsig m s id hm
  · intro sig hsig m k id hm hk
    dsimp only at hm hk ⊢
    have he := hold m id hm
    have hf := hold k id hk
    rw [he] at hm
    rw [hf] at hk
    rw [he,hf]
    exact h.alike sig hsig m k id hm hk

private theorem Consistent.update_same (h : Consistent lib q) (n : Nat) {j : JobAd}
    (hid : j.autoClusterId = (q.jobs n).autoClusterId)
    (hattrs : j.autoClusterAttrs = (q.jobs n).autoClusterAttrs)
    (hsame : j.autoClusterId ≠ none → ∀ sig, q.autocluster.significantAttrs = some sig →
      q.autocluster.names lib sig j = q.autocluster.names lib sig (q.jobs n) ∧
      q.autocluster.signature lib sig j = q.autocluster.signature lib sig (q.jobs n)) :
    Consistent lib { q with jobs := update q.jobs n j } := by
  have hids (m : Nat) : (update q.jobs n j m).autoClusterId = (q.jobs m).autoClusterId := by
    by_cases hmn : m = n
    · subst hmn
      rw [update_self,hid]
    · rw [update_of_ne hmn]
  have hlists (m : Nat) : (update q.jobs n j m).autoClusterAttrs =
      (q.jobs m).autoClusterAttrs := by
    by_cases hmn : m = n
    · subst hmn
      rw [update_self,hattrs]
    · rw [update_of_ne hmn]
  have hsigs (m : Nat) (hm : (q.jobs m).autoClusterId ≠ none) (sig : List CString)
      (hsig : q.autocluster.significantAttrs = some sig) :
      q.autocluster.names lib sig (update q.jobs n j m) =
        q.autocluster.names lib sig (q.jobs m) ∧
      q.autocluster.signature lib sig (update q.jobs n j m) =
        q.autocluster.signature lib sig (q.jobs m) := by
    by_cases hmn : m = n
    · subst hmn
      rw [update_self]
      exact hsame (by rw [hid]; exact hm) sig hsig
    · rw [update_of_ne hmn]
      exact ⟨rfl,rfl⟩
  constructor
  · intro m id hm
    dsimp only at hm ⊢
    rw [hids m] at hm
    obtain ⟨sig,hsig,hpos,hlt,hn⟩ := h.cached m id hm
    refine ⟨sig,hsig,hpos,hlt,?_⟩
    rw [hlists m,(hsigs m (by simp [hm]) sig hsig).1]
    exact hn
  · exact h.issued
  · exact h.next
  · exact h.unique
  · intro sig hsig m s id hm hs
    dsimp only at hm ⊢
    rw [hids m] at hm
    rw [(hsigs m (by simp [hm]) sig hsig).2]
    exact h.told sig hsig m s id hm hs
  · intro sig hsig m k id hm hk
    dsimp only at hm hk ⊢
    rw [hids m] at hm
    rw [hids k] at hk
    rw [(hsigs m (by simp [hm]) sig hsig).2,(hsigs k (by simp [hk]) sig hsig).2]
    exact h.alike sig hsig m k id hm hk

theorem Consistent.forget (h : Consistent lib q) {c : AutoCluster}
    (hmap : ∀ e ∈ c.clusterMap, e ∈ q.autocluster.clusterMap)
    (hnext : c.nextId = q.autocluster.nextId)
    (hsig : c.significantAttrs = q.autocluster.significantAttrs)
    (hcame : c.sigAttrsCameFromConfigFile = q.autocluster.sigAttrsCameFromConfigFile) :
    Consistent lib { q with autocluster := c } := by
  have hs := @signature_congr lib c q.autocluster hcame
  constructor
  · intro n id hn
    obtain ⟨sig,hsig',hpos,hlt,hnames⟩ := h.cached n id hn
    refine ⟨sig,hsig.trans hsig',hpos,hnext ▸ hlt,?_⟩
    rw [(hs sig (q.jobs n)).1]
    exact hnames
  · intro s id he
    rw [hnext]
    exact h.issued s id (hmap _ he)
  · rw [hnext]
    exact h.next
  · intro s s' id he he'
    exact h.unique s s' id (hmap _ he) (hmap _ he')
  · intro sig hsig' n s id hn he
    rw [(hs sig (q.jobs n)).2]
    exact h.told sig (hsig ▸ hsig') n s id hn (hmap _ he)
  · intro sig hsig' n m id hn hm
    rw [(hs sig (q.jobs n)).2,(hs sig (q.jobs m)).2]
    exact h.alike sig (hsig ▸ hsig') n m id hn hm

structure Fitted (lib : ClassAds) (q : Queue) (sig : List CString) (n : Nat)
    (r : AutoCluster × Int) : Prop where
  came : r.1.sigAttrsCameFromConfigFile = q.autocluster.sigAttrsCameFromConfigFile
  significant : r.1.significantAttrs = some sig
  later : q.autocluster.nextId ≤ r.1.nextId
  issued : 0 < r.2 ∧ r.2 < r.1.nextId
  entries : ∀ s id, (s,id) ∈ r.1.clusterMap → (s,id) ∈ q.autocluster.clusterMap ∨
    (s = text (q.autocluster.signature lib sig (q.jobs n)) ∧ id = r.2)
  entry : ∀ s, (s,r.2) ∈ q.autocluster.clusterMap →
    s = text (q.autocluster.signature lib sig (q.jobs n))
  others : ∀ m, (q.jobs m).autoClusterId = some r.2 →
    q.autocluster.signature lib sig (q.jobs m) = q.autocluster.signature lib sig (q.jobs n)

private theorem Consistent.fitted (h : Consistent lib q) {n : Nat} {sig : List CString}
    (hsig : q.autocluster.significantAttrs = some sig) (hnone : (q.jobs n).autoClusterId = none)
    (hok : Admits lib q (.getAutoClusterid n)) {r : AutoCluster × Int}
    (hfit : q.autocluster.fit (text (q.autocluster.signature lib sig (q.jobs n))) = some r) :
    Fitted lib q sig n r := by
  rcases fit_cases hfit with ⟨hr,hmem⟩ | ⟨hid,hr⟩
  · constructor
    · rw [hr]
    · rw [hr]
      exact hsig
    · rw [hr]
    · rw [hr]
      exact h.issued _ _ hmem
    · intro s id hs
      exact .inl (hr ▸ hs)
    · intro s hs
      exact h.unique _ _ _ hs hmem
    · intro m hm
      exact (hok hnone sig hsig).2 m (by simp [hm]) (h.told sig hsig m _ _ hm hmem).symm
  · -- a new id is carried by no ad and stands for no other signature
    constructor
    · rw [hr]
    · rw [hr]
      exact hsig
    · rw [hr]
      dsimp only
      omega
    · rw [hid,hr]
      exact ⟨h.next,by dsimp only; omega⟩
    · intro s id hs
      rw [hr] at hs
      rcases List.mem_append.mp hs with hs | hs
      · exact .inl hs
      · simp only [mem_singleton,Prod.mk.injEq] at hs
        exact .inr ⟨hs.1,hs.2.trans hid.symm⟩
    · intro s hs
      have := (h.issued _ _ hs).2
      omega
    · intro m hm
      obtain ⟨-,-,-,hlt,-⟩ := h.cached m _ hm
      omega

private theorem Consistent.cache_fitted (h : Consistent lib q) {n : Nat} {sig : List CString}
    (hsig : q.autocluster.significantAttrs = some sig) (hnone : (q.jobs n).autoClusterId = none)
    (hok : Admits lib q (.getAutoClusterid n)) {r : AutoCluster × Int} (hr : Fitted lib q sig n r) :
    Consistent lib
      { autocluster := r.1
        jobs := update q.jobs n (q.autocluster.cache lib sig (q.jobs n) r.2) } := by
  have hs := @signature_congr lib r.1 q.autocluster hr.came
  have hother {m : Nat} (hm : m ≠ n) :
      update q.jobs n (q.autocluster.cache lib sig (q.jobs n) r.2) m = q.jobs m :=
    update_of_ne hm _ _
  have hself : update q.jobs n (q.autocluster.cache lib sig (q.jobs n) r.2) n =
      q.autocluster.cache lib sig (q.jobs n) r.2 := update_self ..
  constructor
  · intro m id hm
    refine ⟨sig,hr.significant,?_⟩
    dsimp only at hm ⊢
    by_cases hmn : m = n
    · subst hmn
      rw [hself] at hm ⊢
      obtain rfl : r.2 = id := some.inj hm
      refine ⟨hr.issued.1,hr.issued.2,?_⟩
      rw [(hs sig _).1]
      obtain ⟨t,ht,hnames⟩ := Option.map_eq_some_iff.mp (hok hnone sig hsig).1
      change StringList.ofString
        ((lib.literal (StringList.printToString (q.autocluster.names lib sig (q.jobs m)))).or _) = _
      rw [ht,some_or]
      exact hnames
    · rw [hother hmn] at hm ⊢
      obtain ⟨sig',hsig',hpos,hlt,hnames⟩ := h.cached m id hm
      obtain rfl : sig = sig' := some.inj (hsig.symm.trans hsig')
      refine ⟨hpos,lt_of_lt_of_le hlt hr.later,?_⟩
      rw [(hs sig _).1]
      exact hnames
  · intro s id he
    rcases hr.entries s id he with he | ⟨-,rfl⟩
    · obtain ⟨hpos,hlt⟩ := h.issued s id he
      exact ⟨hpos,lt_of_lt_of_le hlt hr.later⟩
    · exact hr.issued
  · exact lt_of_lt_of_le h.next hr.later
  · intro s s' id he he'
    rcases hr.entries s id he with he | ⟨rfl,rfl⟩
    · rcases hr.entries s' id he' with he' | ⟨rfl,rfl⟩
      · exact h.unique s s' id he he'
      · exact hr.entry s he
    · rcases hr.entries s' r.2 he' with he' | ⟨rfl,-⟩
      · exact (hr.entry s' he').symm
      · rfl
  · intro sig' hsig' m s id hm he
    obtain rfl : sig = sig' := some.inj (hr.significant.symm.trans hsig')
    dsimp only at hm ⊢
    rw [(hs sig _).2]
    by_cases hmn : m = n
    · subst hmn
      rw [hself] at hm ⊢
      obtain rfl : r.2 = id := some.inj hm
      rcases hr.entries s r.2 he with he | ⟨rfl,-⟩
      · exact hr.entry s he
      · rfl
    · rw [hother hmn] at hm ⊢
      rcases hr.entries s id he with he | ⟨rfl,rfl⟩
      · exact h.told sig hsig m s id hm he
      · exact congrArg text (hr.others m hm).symm
  · intro sig' hsig' m k id hm hk
    obtain rfl : sig = sig' := some.inj (hr.significant.symm.trans hsig')
    dsimp only at hm hk ⊢
    rw [(hs sig _).2,(hs sig _).2]
    -- every ad with the new job's id has its signature
    have hnew (m : Nat) (hm : (update q.jobs n
        (q.autocluster.cache lib sig (q.jobs n) r.2) m).autoClusterId = some r.2) :
        q.autocluster.signature lib sig (update q.jobs n
          (q.autocluster.cache lib sig (q.jobs n) r.2) m) =
          q.autocluster.signature lib sig (q.jobs n) := by
      by_cases hmn : m = n
      · subst hmn
        rw [hself]
        rfl
      · rw [hother hmn] at hm ⊢
        exact hr.others m hm
    by_cases hid : id = r.2
    · subst hid
      rw [hnew m hm,hnew k hk]
    · have hne {m : Nat} (hm : (update q.jobs n
          (q.autocluster.cache lib sig (q.jobs n) r.2) m).autoClusterId = some id) : m ≠ n := by
        rintro rfl
        rw [hself] at hm
        exact hid (some.inj hm).symm
      have hmn := hne hm
      have hkn := hne hk
      rw [hother hmn] at hm ⊢
      rw [hother hkn] at hk ⊢
      exact h.alike sig hsig m k id hm hk

theorem Consistent.getAutoClusterid (h : Consistent lib q) {n : Nat}
    (hok : Admits lib q (.getAutoClusterid n))
    (hs : q.step lib (.getAutoClusterid n) = some q') : Consistent lib q' := by
  simp only [step,AutoCluster.getAutoClusterid] at hs
  split at hs
  · obtain rfl := some.inj hs
    dsimp only
    rw [update_eq_self]
    exact h
  · next sig hsig =>
    cases hid : (q.jobs n).autoClusterId with
    | some id =>
      obtain ⟨-,-,hpos,-,-⟩ := h.cached n id hid
      rw [hid,if_pos (by simp; omega)] at hs
      obtain rfl := some.inj hs
      dsimp only
      rw [update_eq_self]
      exact h.forget (fun e he => he) rfl rfl rfl
    | none =>
      rw [hid,if_neg (by simp)] at hs
      simp only [Option.map_map,map_eq_some_iff] at hs
      obtain ⟨r,hr,rfl⟩ := hs
      have hf := h.fitted hsig hid hok hr
      exact (h.cache_fitted hsig hid hok hf).forget (fun e he => he) rfl rfl rfl

theorem Consistent.config (h : Consistent lib q) {setting target : Option CString}
    (hok : Admits lib q (.config setting target))
    (hs : q.step lib (.config setting target) = some q') : Consistent lib q' := by
  obtain ⟨r,hr,hc⟩ := config_configured setting target hok
  simp only [step,hr,map_some] at hs
  obtain rfl := some.inj hs
  cases hb : r.2 with
  | true =>
    obtain ⟨hmap,hnext⟩ := hc.told hb
    constructor
    · intro n id hn
      simp [JobAd.clearAutoclusterId] at hn
    · intro s id he
      simp [hmap] at he
    · simp [hnext]
    · intro s s' id he
      simp [hmap] at he
    · intro sig _ n s id hn
      simp [JobAd.clearAutoclusterId] at hn
    · intro sig _ n m id hn
      simp [JobAd.clearAutoclusterId] at hn
  | false =>
    obtain ⟨hmap,hnext,hsig,hcame⟩ := hc.kept hb
    exact h.forget (fun e he => hmap ▸ he) hnext hsig hcame

theorem Consistent.setAttribute (h : Consistent lib q) {n : Nat} {name : CString}
    {value : Option CString} (hok : Admits lib q (.setAttribute n name value)) :
    Consistent lib
      { q with jobs := update q.jobs n ((q.jobs n).setAttribute name value) } := by
  unfold JobAd.setAttribute
  dsimp only
  split
  · exact h.update_none n rfl
  · next hlists =>
    refine h.update_same n ?_ ?_ ?_
    · rfl
    · rfl
    intro hcached sig hsig
    have hrefs := hok hcached (by simpa using hlists) sig hsig
    obtain ⟨id,hid⟩ := Option.ne_none_iff_exists'.mp hcached
    obtain ⟨sig',hsig',-,-,hnames⟩ := h.cached n id hid
    obtain rfl : sig = sig' := some.inj (hsig.symm.trans hsig')
    constructor
    · rw [names,hrefs,names]
    · apply signature_set hrefs
      rw [← hnames]
      simpa [JobAd.lists] using hlists

theorem Consistent.step (h : Consistent lib q) {a : Action} (hok : Admits lib q a)
    (hs : q.step lib a = some q') : Consistent lib q' := by
  cases a with
  | config setting target => exact h.config hok hs
  | mark =>
    obtain rfl := some.inj hs
    exact h.forget (fun e he => he) rfl rfl rfl
  | sweep =>
    obtain rfl := some.inj hs
    exact h.forget (fun e he => mem_of_mem_filter he) rfl rfl rfl
  | getAutoClusterid n => exact h.getAutoClusterid hok hs
  | setAttribute n name value =>
    obtain rfl := some.inj hs
    exact h.setAttribute hok
  | newJob n attrs =>
    obtain rfl := some.inj hs
    exact h.update_none n rfl

/-- Ads that carry the same id are alike, and the next `config` compares no null pointer. -/
theorem equal_ids_of_run {actions : List Action}
    (hal : Along (Queue.step lib) (Admits lib) {} actions)
    (hr : run (Queue.step lib) {} actions = some q) :
    (∀ n m id, (q.jobs n).autoClusterId = some id → (q.jobs m).autoClusterId = some id →
      ∃ sig, q.autocluster.significantAttrs = some sig ∧
        Alike lib q.autocluster sig (q.jobs n) (q.jobs m)) ∧
    ∀ setting target, Admits lib q (.config setting target) →
      (q.autocluster.config setting target).isSome := by
  have h : Consistent lib q :=
    run_invariant (fun s a s' hs hok hstep => Consistent.step hs hok hstep) hal Consistent.start hr
  constructor
  · intro n m id hn hm
    obtain ⟨sig,hsig,-⟩ := h.cached n id hn
    exact ⟨sig,hsig,Alike.of_signature (h.alike sig hsig n m id hn hm)⟩
  · intro setting target hok
    obtain ⟨r,hr,-⟩ := config_configured setting target hok
    rw [hr]
    rfl

/-- The library on ads whose Requirements are the name of an attribute, which is an internal
reference when the ad has it. -/
def plainLib : ClassAds where
  getReferences as :=
    match as.expr attrRequirements with
    | some r => if (as.expr r).isSome then [r] else []
    | none => []
  literal t := if t.any fun c => c.val == 34 || c.val == 92 then none else some t

def sampleJob (a b c : String) (e f : String) : Attributes :=
  ((Attributes.empty.set (cstr a) (some (cstr e))).set (cstr b) (some (cstr f))).set (cstr c) none

def sampleActions : List Action :=
  [.config none (some (cstr "A, B")),.newJob 0 (sampleJob "A" "Requirements" "B" "1" "B"),
    .newJob 1 (sampleJob "A" "Requirements" "B" "1" "B"),.getAutoClusterid 0,.getAutoClusterid 1]

private theorem id_outside (f : Nat → JobAd) (j : JobAd) {n m : Nat} (h : m ≠ n) :
    (update f n j m).autoClusterId = (f m).autoClusterId := by
  rw [update_of_ne h]

theorem equal_ids_of_run_sample :
    ∃ q, run (Queue.step plainLib) {} sampleActions = some q ∧
      (q.jobs 0).autoClusterId = some 1 ∧ (q.jobs 1).autoClusterId = some 1 ∧
      ∃ sig, q.autocluster.significantAttrs = some sig ∧
        Alike plainLib q.autocluster sig (q.jobs 0) (q.jobs 1) := by
  have hal : Along (Queue.step plainLib) (Admits plainLib) {} sampleActions := by
    refine Along.cons (.inl (by decide)) rfl ?_
    refine Along.cons trivial rfl ?_
    refine Along.cons trivial rfl ?_
    refine Along.cons ?_ rfl (Along.cons ?_ rfl trivial)
    · intro _ sig hsig
      obtain rfl := some.inj hsig
      refine ⟨by decide,fun m hm => absurd ?_ hm⟩
      by_cases h1 : m = 1
      · rw [h1]
        rfl
      · by_cases h0 : m = 0
        · rw [h0]
          rfl
        · exact (id_outside _ _ h1).trans (id_outside _ _ h0)
    · intro _ sig hsig
      obtain rfl := some.inj hsig
      refine ⟨by decide,fun m hm => ?_⟩
      by_cases h0 : m = 0
      · rw [h0]
        decide
      · refine absurd ?_ hm
        by_cases h1 : m = 1
        · rw [h1]
          rfl
        · exact (id_outside _ _ h0).trans ((id_outside _ _ h1).trans (id_outside _ _ h0))
  obtain ⟨q,hq,hids⟩ := run_exists (Queue.step plainLib) {} sampleActions
    (fun q => (q.jobs 0).autoClusterId == some 1 && (q.jobs 1).autoClusterId == some 1)
    (by decide)
  simp only [Bool.and_eq_true,beq_iff_eq] at hids
  exact ⟨q,hq,hids.1,hids.2,(equal_ids_of_run hal hq).1 0 1 1 hids.1 hids.2⟩

/-- Texts of different signatures that are the same, and an attribute that becomes a reference
of the Requirements only when it is set. -/
def collidingActions : List Action :=
  [.config none (some (cstr "A,yz,z")),.newJob 0 (sampleJob "A" "yz" "z" "x" "2"),
    .newJob 1 (sampleJob "A" "z" "yz" "xy" "2"),.getAutoClusterid 0,.getAutoClusterid 1]

def lateActions : List Action :=
  [.config none (some (cstr "A")),.newJob 0 (sampleJob "A" "Requirements" "B" "1" "B"),
    .newJob 1 (sampleJob "A" "Requirements" "B" "1" "B"),.getAutoClusterid 0,.getAutoClusterid 1,
    .setAttribute 0 (cstr "B") (some (cstr "5"))]

def exhausted : AutoCluster where
  clusterMap := [(cstr "A = 1",2^30-1)]
  nextId := 2^30
  significantAttrs := some [cstr "A"]
  oldSigAttrs := some (cstr "A")

theorem equal_ids_fails :
    (∃ q, run (Queue.step plainLib) {} collidingActions = some q ∧
      (q.jobs 0).autoClusterId = some 1 ∧ (q.jobs 1).autoClusterId = some 1 ∧
      (q.jobs 0).attrs.expr (cstr "A") = some (cstr "x") ∧
      (q.jobs 1).attrs.expr (cstr "A") = some (cstr "xy")) ∧
    (∃ q, run (Queue.step plainLib) {} lateActions = some q ∧
      (q.jobs 0).autoClusterId = some 1 ∧ (q.jobs 1).autoClusterId = some 1 ∧
      selfRefs plainLib (q.jobs 0) = [cstr "B",attrRequirements,attrNiceUserName,
        attrConcurrencyLimits] ∧
      (q.jobs 0).attrs.expr (cstr "B") = some (cstr "5") ∧
      (q.jobs 1).attrs.expr (cstr "B") = none) ∧
    exhausted.config none none = none ∧
    (∃ c, exhausted.config none (some (cstr "a")) = some (c,false) ∧ c.nextId = 1) := by
  refine ⟨⟨_,rfl,?_,?_,?_,?_⟩,⟨_,rfl,?_,?_,?_,?_,?_⟩,rfl,⟨_,rfl,rfl⟩⟩
  all_goals decide

end Queue

end Condor.Schedd
