import Condor.Schedd.OwnerIsolation

/-!
# Requests that do not stop the schedd

A schedd stops when a request leads to an assertion, an exception or a null pointer.
-/

namespace Condor.Schedd

open Lib List Function Option

namespace Qmgmt

variable {E : Env} {q q' : Qmgmt} {id : ProcId} {ad : Option QueueAd} {flags : Flags}

def FlagsHarmless (flags : Flags) (ad : Option QueueAd) : Prop :=
  ad.isSome = true ∨ (flags.setDirty = false ∧ flags.shouldLog = false)
deriving Decidable

def NullHarmless (E : Env) (q : Qmgmt) (name : CString) : Prop :=
  E.roundParam name = false ∧ (attrName name = attrJobStatus → q.prioRecArrayIsDirty = true)
deriving Decidable

private theorem prioRec_forgetAutoCluster (E : Env) (q : Qmgmt) (id : ProcId) (ad : Option QueueAd)
    (n : AttrName) : (q.forgetAutoCluster E id ad n).prioRecArrayIsDirty =
    q.prioRecArrayIsDirty := by
  rw [forgetAutoCluster]
  split <;> rfl

variable {value : Option CString}

private theorem roundAttribute_total (q : Qmgmt) (id : ProcId) {name : CString}
    (hv : E.roundParam name = true → value.isSome = true) (hf : FlagsHarmless flags ad) :
    ∃ r, q.roundAttribute E id ad name value flags = some r ∧
      r.1.prioRecArrayIsDirty = q.prioRecArrayIsDirty ∧
        (value.isSome = true → r.2.isSome = true) := by
  unfold roundAttribute
  split
  · next hround =>
    obtain ⟨v,rfl⟩ := Option.isSome_iff_exists.mp (hv hround)
    dsimp only
    split
    · exact ⟨_,rfl,rfl,fun h => h⟩
    · have hlog : (flags.shouldLog && ad.isNone) = false := by
        rcases hf with hs | ⟨-,hl⟩
        · simp [Option.isNone_eq_false_iff.mpr hs]
        · simp [hl]
      rw [hlog,if_neg (by simp)]
      exact ⟨_,rfl,rfl,fun _ => rfl⟩
  · exact ⟨_,rfl,rfl,fun h => h⟩

variable {n : AttrName}

private theorem touchPrioRec_total
    (hv : value.isSome = true ∨ (n = attrJobStatus → q.prioRecArrayIsDirty = true)) :
    ∃ q', q.touchPrioRec n value = some q' ∧
      (q.prioRecArrayIsDirty = true → q'.prioRecArrayIsDirty = true) := by
  unfold touchPrioRec
  split
  · exact ⟨_,rfl,fun h => h⟩
  · next hclean =>
    split
    · exact ⟨_,rfl,fun _ => rfl⟩
    · split
      · next hn =>
        rcases hv with hv | hv
        · obtain ⟨v,rfl⟩ := Option.isSome_iff_exists.mp hv
          exact ⟨_,rfl,fun h => absurd h hclean⟩
        · exact absurd (hv hn) hclean
      · exact ⟨_,rfl,fun h => h⟩

private theorem storeAttribute_total (E : Env) (q : Qmgmt) (id : ProcId) (name : CString)
    (value : Option CString) (hv : value.isSome = true ∨ NullHarmless E q name)
    (hf : FlagsHarmless flags ad) :
    ∃ q', q.storeAttribute E id ad name value flags = some q' ∧
      (q.prioRecArrayIsDirty = true → q'.prioRecArrayIsDirty = true) := by
  have hround : E.roundParam name = true → value.isSome = true := fun h =>
    hv.resolve_right fun hn => absurd (hn.1.symm.trans h) (by decide)
  obtain ⟨r,hr,hdirty,hsome⟩ :=
    roundAttribute_total (q.forgetAutoCluster E id ad (attrName name)) id hround hf
  rw [prioRec_forgetAutoCluster] at hdirty
  have htouch : r.2.isSome = true ∨ (attrName name = attrJobStatus →
      r.1.prioRecArrayIsDirty = true) :=
    hv.imp hsome fun hn hs => hdirty.trans (hn.2 hs)
  obtain ⟨q1,hq1,hkeep⟩ := touchPrioRec_total htouch
  rw [storeAttribute,hr,bind_some,hq1,bind_some]
  dsimp only
  have hlog : (flags.shouldLog && ad.isNone) = false := by
    rcases hf with hs | ⟨-,hl⟩
    · simp [Option.isNone_eq_false_iff.mpr hs]
    · simp [hl]
  rw [hlog,if_neg (by simp)]
  split
  · next hbad =>
    rcases hf with hs | ⟨hd,-⟩
    · simp [Option.isNone_eq_false_iff.mpr hs] at hbad
    · simp [hd] at hbad
  · exact ⟨_,rfl,fun h => hkeep (hdirty.trans h)⟩

variable {name value : Option CString}

private theorem writableAd_eq {found : Option QueueAd}
    (h : q.writableAd E id name value = some found) : found = q.jobQueue.lookupClassAd id := by
  rw [writableAd] at h
  split at h
  · simp at h
  · split at h
    · simp at h
    · split at h
      · simp at h
      · split at h
        · next hlook =>
          split at h
          · cases h
            exact hlook.symm
          · simp at h
        · next hlook =>
          split at h
          · simp at h
          · cases h
            exact hlook.symm

private theorem setOrdinary_total (E : Env) (name v : CString)
    (hf : FlagsHarmless flags (q.jobQueue.lookupClassAd id)) :
    ∃ r, q.setOrdinary E id name (some v) flags = some r ∧
      (q.prioRecArrayIsDirty = true → r.1.prioRecArrayIsDirty = true) := by
  rw [setOrdinary]
  split
  · exact ⟨_,rfl,fun h => h⟩
  · next found hw =>
    rw [← writableAd_eq hw] at hf
    obtain ⟨q',hq',hkeep⟩ := storeAttribute_total E q id name (some v) (.inl rfl) hf
    rw [hq']
    exact ⟨_,rfl,hkeep⟩

/-- The names whose value is read by `SetAttribute` itself. -/
def readsValue (n : AttrName) : Bool :=
  n == attrOwner || n == attrClusterId || n == attrNiceUser || n == attrProcId

private theorem specialAttribute_total (hv : value.isSome = true ∨ readsValue n = false)
    (hf : FlagsHarmless flags (q.jobQueue.lookupClassAd id)) :
    ∃ r, q.specialAttribute E id n value flags = some r ∧
      ∀ s ∈ r, (q.prioRecArrayIsDirty = true → s.1.prioRecArrayIsDirty = true) ∧
        (value.isSome = true → s.2.isSome = true) := by
  have hread : readsValue n = true → ∃ v, value = some v := fun h =>
    Option.isSome_iff_exists.mp (hv.resolve_right (by simp [h]))
  unfold specialAttribute
  split
  · next hn =>
    obtain ⟨v,rfl⟩ := hread (by simp [readsValue,hn])
    rw [bind_some]
    split
    · exact ⟨none,rfl,by simp⟩
    · next owner v' _ =>
      obtain ⟨r,hr,hkeep⟩ := setOrdinary_total E (cstr "User")
        (userText E ((q.getAttributeInt E id attrNiceUser).getD 0 != 0) owner) hf
      dsimp only
      rw [hr]
      refine ⟨_,rfl,?_⟩
      rintro s hs
      cases hs
      exact ⟨hkeep,fun _ => rfl⟩
  · split
    · next hn =>
      obtain ⟨v,rfl⟩ := hread (by simp [readsValue,hn])
      refine ⟨_,rfl,?_⟩
      intro s hs
      dsimp only at hs
      split at hs
      · simp at hs
      · cases hs
        exact ⟨fun h => h,fun _ => rfl⟩
    · split
      · next hn =>
        obtain ⟨v,rfl⟩ := hread (by simp [readsValue,hn])
        rw [bind_some]
        split
        · refine ⟨_,rfl,?_⟩
          rintro s hs
          cases hs
          exact ⟨fun h => h,fun _ => rfl⟩
        · next owner _ =>
          obtain ⟨r,hr,hkeep⟩ := setOrdinary_total E (cstr "User")
            (userText E (strcaseeq v (cstr "TRUE")) owner) hf
          dsimp only
          rw [hr]
          refine ⟨_,rfl,?_⟩
          rintro s hs
          cases hs
          exact ⟨hkeep,fun _ => rfl⟩
      · split
        · next hn =>
          obtain ⟨v,rfl⟩ := hread (by simp [readsValue,hn])
          refine ⟨_,rfl,?_⟩
          intro s hs
          dsimp only at hs
          split at hs
          · simp at hs
          · cases hs
            exact ⟨fun h => h,fun _ => rfl⟩
        · split
          · obtain ⟨r,hr,hkeep⟩ := setOrdinary_total E (cstr "LastJobStatus")
              (decimalInt ((q.getAttributeInt E id attrJobStatus).getD 0)) hf
            dsimp only [setAttributeInt]
            rw [hr]
            refine ⟨_,rfl,?_⟩
            rintro s hs
            cases hs
            exact ⟨hkeep,fun h => h⟩
          · refine ⟨_,rfl,?_⟩
            rintro s hs
            cases hs
            exact ⟨fun h => h,fun h => h⟩

/-- The value given to `SetAttribute` is harmless for this name. -/
def ValueHarmless (E : Env) (q : Qmgmt) (name value : Option CString) : Prop :=
  value.isSome = true ∨
    (readsValue (attrName (name.getD [])) = false ∧ NullHarmless E q (name.getD []))
deriving Decidable

private theorem setAttribute_total (id : ProcId) (flags : Flags) (hv : ValueHarmless E q name value)
    (hf : FlagsHarmless flags (q.jobQueue.lookupClassAd id)) :
    ∃ r, q.setAttribute E id name value flags = some r ∧
      (q.prioRecArrayIsDirty = true → r.1.prioRecArrayIsDirty = true) := by
  unfold setAttribute
  split
  · exact ⟨_,rfl,fun h => h⟩
  · next found hw =>
    dsimp only
    obtain ⟨s,hs,hafter⟩ := specialAttribute_total (E := E) (q := q) (hv.imp_right And.left) hf
    rw [hs,bind_some]
    cases s with
    | none => exact ⟨_,rfl,fun h => h⟩
    | some s =>
      obtain ⟨hdirty,hsome⟩ := hafter s rfl
      have hv' : s.2.isSome = true ∨ NullHarmless E s.1 (name.getD []) :=
        hv.imp hsome fun hn => ⟨hn.2.1,fun he => hdirty (hn.2.2 he)⟩
      rw [← writableAd_eq hw] at hf
      obtain ⟨q',hq',hkeep⟩ := storeAttribute_total E s.1 id (name.getD []) s.2 hv' hf
      dsimp only
      rw [hq']
      exact ⟨_,rfl,fun h => hkeep (hdirty h)⟩

/-! ## Passwords

`DestroyProc` and `DestroyCluster` mark the MyProxy password of an ad as gone, and stop the schedd
when that is refused. Only the owner of the ad and the mark itself matter. -/

def gist (t : JobTable) : List (ProcId × Option AttrExpr × Option AttrExpr × Bool) :=
  t.map fun e => (e.1,e.2.attrs attrOwner,e.2.attrs attrMyProxyPasswordExists,e.2.chained)

private theorem gist_adjust {f : QueueAd → QueueAd}
    (ho : ∀ ad, (f ad).attrs attrOwner = ad.attrs attrOwner)
    (hp : ∀ ad, (f ad).attrs attrMyProxyPasswordExists = ad.attrs attrMyProxyPasswordExists)
    (hc : ∀ ad, (f ad).chained = ad.chained) (k : ProcId) (t : JobTable) :
    gist (t.adjust f k) = gist t := by
  induction t with
  | nil => rfl
  | cons e t ih =>
    rw [Table.adjust]
    split
    · rw [gist,gist,map_cons,map_cons,ho,hp,hc]
    · rw [gist,map_cons]
      exact congrArg _ ih

variable {t t' : JobTable}

private theorem lookup_of_gist (h : gist t' = gist t) (k : ProcId) :
    (t'.lookup k).map (fun ad => (ad.attrs attrOwner,ad.attrs attrMyProxyPasswordExists,ad.chained))
    =
      (t.lookup k).map fun ad =>
        (ad.attrs attrOwner,ad.attrs attrMyProxyPasswordExists,ad.chained) := by
  have hfind : ∀ t : JobTable, (t.lookup k).map (fun ad =>
      (ad.attrs attrOwner,ad.attrs attrMyProxyPasswordExists,ad.chained)) =
      ((gist t).find? fun e => e.1 = k).map Prod.snd := by
    intro t
    rw [gist,find?_map,Table.lookup,Option.map_map,Option.map_map]
    rfl
  rw [hfind,hfind,h]

private theorem column_of_gist (h : gist t' = gist t) {k : ProcId} {ad' : QueueAd}
    (had' : ad' ∈ t'.column k) :
    ∃ ad ∈ t.column k, ad'.attrs attrOwner = ad.attrs attrOwner ∧
      ad'.attrs attrMyProxyPasswordExists = ad.attrs attrMyProxyPasswordExists := by
  have hmem := mem_map_of_mem
    (f := fun e : ProcId × QueueAd =>
      (e.1,e.2.attrs attrOwner,e.2.attrs attrMyProxyPasswordExists,e.2.chained))
    (Table.mem_column.mp had')
  change _ ∈ gist t' at hmem
  rw [h,gist,List.mem_map] at hmem
  obtain ⟨e,he,heq⟩ := hmem
  simp only [Prod.mk.injEq] at heq
  obtain ⟨hk,ho,hp,-⟩ := heq
  refine ⟨e.2,Table.mem_column.mpr ?_,ho.symm,hp.symm⟩
  rw [← hk]
  exact he

private theorem allAttrs_of_gist (h : gist t' = gist t) {id : ProcId} {ad ad' : QueueAd}
    (had : t.lookup id = some ad) (had' : t'.lookup id = some ad') :
    JobQueue.allAttrs t' id ad' attrOwner = JobQueue.allAttrs t id ad attrOwner ∧
      JobQueue.allAttrs t' id ad' attrMyProxyPasswordExists =
        JobQueue.allAttrs t id ad attrMyProxyPasswordExists := by
  have hown := lookup_of_gist h id
  rw [had,had',map_some,map_some,some.injEq,Prod.mk.injEq,Prod.mk.injEq]
    at hown
  obtain ⟨ho,hp,hc⟩ := hown
  have hcl := lookup_of_gist h (clusterKey id.cluster)
  have hbind : ∀ (t : JobTable) (n : AttrName),
      ((t.lookup (clusterKey id.cluster)).bind fun c => c.attrs n) =
        ((t.lookup (clusterKey id.cluster)).map fun c => c.attrs n).join := fun t n => by
    cases t.lookup (clusterKey id.cluster) <;> rfl
  have hco : ((t'.lookup (clusterKey id.cluster)).map fun c => c.attrs attrOwner) =
      (t.lookup (clusterKey id.cluster)).map fun c => c.attrs attrOwner := by
    have hfst := congrArg (Option.map Prod.fst) hcl
    simpa only [Option.map_map,comp_def] using hfst
  have hcp : ((t'.lookup (clusterKey id.cluster)).map fun c => c.attrs attrMyProxyPasswordExists) =
      (t.lookup (clusterKey id.cluster)).map fun c => c.attrs attrMyProxyPasswordExists := by
    have hsnd := congrArg (Option.map fun x => x.2.1) hcl
    simpa only [Option.map_map,comp_def] using hsnd
  rw [JobQueue.allAttrs,JobQueue.allAttrs,JobQueue.allAttrs,JobQueue.allAttrs,ho,hp,hc,hbind,hbind,
    hbind,hbind,hco,hcp]
  exact ⟨rfl,rfl⟩

def Indifferent (op : QueueOp) : Prop :=
  ∃ id n v, op = .setAttribute id n v ∧ n ≠ attrOwner ∧ n ≠ attrMyProxyPasswordExists

private theorem gist_play {op : QueueOp} (h : Indifferent op) (t : JobTable) : gist
    (op.play t) = gist t := by
  obtain ⟨k,n,v,rfl,ho,hp⟩ := h
  cases v with
  | none => rfl
  | some x =>
    exact gist_adjust
      (f := fun ad => { ad with attrs := update ad.attrs n (some x) })
      (fun ad => Before.update_attr_ne ad.attrs (Ne.symm ho) _)
      (fun ad => Before.update_attr_ne ad.attrs (Ne.symm hp) _) (fun _ => rfl) k t

private theorem lookupInTransaction_log {op : QueueOp}
    (h : ∀ x : JobQueue.Examined, x.step id n op = x) :
    (q.log op).jobQueue.lookupInTransaction id n = q.jobQueue.lookupInTransaction id n := by
  have hex : (q.log op).jobQueue.examineTransaction id n = q.jobQueue.examineTransaction id n := by
    rw [JobQueue.examineTransaction,JobQueue.examineTransaction,log,JobQueue.append,Ledger.append]
    cases hp : q.jobQueue.pending with
    | none => rfl
    | some ops =>
      dsimp only
      rw [getD_some,getD_some,foldl_append,foldl_cons,foldl_nil,h]
  rw [JobQueue.lookupInTransaction,JobQueue.lookupInTransaction,hex]

structure SameMarks (q q' : Qmgmt) : Prop where
  gist : gist q'.jobQueue.committed = gist q.jobQueue.committed
  pending : ∀ id, q'.jobQueue.lookupInTransaction id attrMyProxyPasswordExists =
    q.jobQueue.lookupInTransaction id attrMyProxyPasswordExists
  peer : q'.peer = q.peer

theorem SameMarks.trans {q'' : Qmgmt} (h : SameMarks q q') (h' : SameMarks q' q'') :
    SameMarks q q'' where
  gist := h'.gist.trans h.gist
  pending := fun id => (h'.pending id).trans (h.pending id)
  peer := h'.peer.trans h.peer

theorem SameMarks.log (q : Qmgmt) {op : QueueOp} (h : Indifferent op) : SameMarks q (q.log op) where
  gist := by
    rw [Qmgmt.log,JobQueue.append,Ledger.append]
    cases q.jobQueue.pending with
    | none => exact gist_play h _
    | some ops => rfl
  pending := by
    intro id
    obtain ⟨k,n,v,rfl,-,hp⟩ := h
    exact lookupInTransaction_log fun x => if_neg fun he => hp he.2
  peer := rfl

private theorem Edited.sameMarks {P : QueueOp → Prop} {K : ProcId → Prop} (h : Edited P K q q')
    (hP : ∀ op, P op → Indifferent op) : SameMarks q q' := by
  induction h with
  | refl => exact ⟨rfl,fun _ => rfl,rfl⟩
  | @log q1 _ op hop ih => exact ih.trans (.log q1 (hP op hop))
  | @forget q1 _ id _ ih =>
    have hdrop : Qmgmt.gist (q1.dropAutoCluster id).jobQueue.committed =
        Qmgmt.gist q1.jobQueue.committed := by
      refine gist_adjust (f := fun ad => deleteAttr q1.jobQueue.committed id attrAutoClusterAttrs
        (deleteAttr q1.jobQueue.committed id attrAutoClusterId ad))
        (fun ad => ?_) (fun ad => ?_) (fun _ => rfl) id q1.jobQueue.committed
      · rw [deleteAttr_ne _ _ _ (by decide),deleteAttr_ne _ _ _ (by decide)]
      · rw [deleteAttr_ne _ _ _ (by decide),deleteAttr_ne _ _ _ (by decide)]
    exact ih.trans ⟨hdrop,fun _ => rfl,rfl⟩
  | touch _ _ _ ih => exact ih.trans ⟨rfl,fun _ => rfl,rfl⟩

private theorem stampCompletion_total (E : Env) (q : Qmgmt) (id : ProcId) (attrs : Attrs) :
    ∃ q', q.stampCompletion E id attrs = some q' ∧ SameMarks q q' ∧
      q'.inTransaction = q.inTransaction := by
  have hsome : ∃ q', q.stampCompletion E id attrs = some q' := by
    rw [stampCompletion]
    split
    · have hflags : FlagsHarmless noFlags (q.jobQueue.lookupClassAd id) := .inr ⟨rfl,rfl⟩
      obtain ⟨r,hr,-⟩ := setOrdinary_total E (cstr "CompletionDate") (decimalInt E.now) hflags
      rw [setAttributeInt,hr]
      exact ⟨_,rfl⟩
    · exact ⟨_,rfl⟩
  obtain ⟨q',hq'⟩ := hsome
  refine ⟨q',hq',(stampCompletion_setsName hq').sameMarks ?_,
    (stampCompletion_setsName hq').sameVars.inTransaction⟩
  rintro op ⟨n,v,rfl | rfl,rfl⟩
  · exact ⟨id,_,v,rfl,by decide,by decide⟩
  · exact ⟨id,_,v,rfl,by decide,by decide⟩

def isExpr : Option AttrExpr → Bool
  | some (.other _) => true
  | _ => false

def literalString : Option AttrExpr → Option CString
  | some (.string s) => some s
  | _ => none

private theorem lookupString_literal {attrs : Attrs} (h : isExpr (attrs n) = false) :
    lookupString E attrs n = literalString (attrs n) := by
  rw [lookupString]
  cases hv : attrs n with
  | none => rfl
  | some x =>
    cases x with
    | undefined | integer | string | boolean => rfl
    | other s =>
      rw [hv] at h
      simp [isExpr] at h

def authenticated (q : Qmgmt) : Bool := !q.peer.any fun p => !p.isAuthenticated

private theorem destroyMyProxyPassword_total
    (h : q.attrsSeen id attrMyProxyPasswordExists attrMyProxyPasswordExists = none ∨
      (q.authenticated = true ∧ ∃ ad, q.jobQueue.lookupClassAd id = some ad ∧
        q.ownerCheck E (q.ownerOf E id ad) = true)) :
    ∃ q', q.destroyMyProxyPassword E id = some q' := by
  rw [destroyMyProxyPassword]
  split
  · exact ⟨_,rfl⟩
  · next hmark =>
    rcases h with hnone | ⟨hauth,ad,had,hcheck⟩
    · have hlook : q.getAttributeBool E id attrMyProxyPasswordExists = none := by
        rw [getAttributeBool,lookupBool,hnone]
      rw [hlook] at hmark
      exact absurd (fun h => by simp at h) hmark
    · have hpeer : (q.peer.any fun p => !p.isAuthenticated) = false := by
        simpa [authenticated] using hauth
      have hname : isValidAttrName (some myProxyPasswordExists) = true := by decide
      have hvalue : isValidAttrValue (some (cstr "FALSE")) = true := by decide
      have hw : q.writableAd E id (some myProxyPasswordExists) (some (cstr "FALSE")) =
          some (some ad) := by
        rw [writableAd,hpeer,hname,hvalue,had]
        simp [hcheck]
      have hflags : FlagsHarmless noFlags (some ad) := .inl rfl
      obtain ⟨q1,hq1,-⟩ := storeAttribute_total E q id myProxyPasswordExists (some (cstr "FALSE"))
        (.inl rfl) hflags
      rw [setOrdinary,hw]
      dsimp only
      rw [hq1]
      exact ⟨_,rfl⟩

private theorem ownerCheck_congr (h : q'.peer = q.peer) (o : Option CString) :
    q'.ownerCheck E o = q.ownerCheck E o := by
  rw [ownerCheck,ownerCheck,h]

private theorem authenticated_congr
    (h : q'.peer = q.peer) : q'.authenticated = q.authenticated := by
  rw [authenticated,authenticated,h]

private theorem allAttrs_clusterKey {t : JobTable} {c : Int} {ad : QueueAd}
    (h : t.lookup (clusterKey c) = some ad) (n : AttrName) :
    JobQueue.allAttrs t (clusterKey c) ad n = ad.attrs n := by
  rw [JobQueue.allAttrs]
  cases hn : ad.attrs n with
  | some x => rfl
  | none =>
    dsimp only
    split
    · change ((t.lookup (clusterKey c)).bind fun c => c.attrs n) = none
      rw [h,bind_some,hn]
    · rfl

def ClusterHarmless (E : Env) (q : Qmgmt) (c : Int) : Prop :=
  ∀ ad ∈ q.jobQueue.committed.column (clusterKey c),
    ad.attrs attrMyProxyPasswordExists = none ∨
      (q.authenticated = true ∧ isExpr (ad.attrs attrOwner) = false ∧
        q.ownerCheck E (literalString (ad.attrs attrOwner)) = true)
deriving Decidable

theorem Edited.column {P : QueueOp → Prop} {K : ProcId → Prop} (h : Edited P K q q') {k : ProcId}
    (hP : ∀ op, P op → op.key ≠ k) (hK : ∀ id, K id → id ≠ k) :
    q'.jobQueue.committed.column k = q.jobQueue.committed.column k := by
  induction h with
  | refl => rfl
  | @log q1 _ op hop ih =>
    rw [Qmgmt.log,JobQueue.append,Ledger.append]
    cases q1.jobQueue.pending with
    | none => exact (op.column_play_ne _ (hP op hop).symm).trans ih
    | some ops => exact ih
  | forget _ hid ih => exact (Table.column_adjust_ne _ (hK _ hid).symm _).trans ih
  | touch _ _ _ ih => exact ih

private theorem column_clusterCleanup (q : Qmgmt) (c : Int) {ad : QueueAd}
    (h : ad ∈ (q.clusterCleanup c).jobQueue.committed.column (clusterKey c)) :
    ad ∈ q.jobQueue.committed.column (clusterKey c) := by
  rw [clusterCleanup,log,JobQueue.append,Ledger.append] at h
  cases hp : q.jobQueue.pending with
  | none =>
    rw [hp] at h
    change ad ∈ (Table.remove q.jobQueue.committed (clusterKey c)).column (clusterKey c) at h
    rw [Table.column_remove_self] at h
    exact mem_of_mem_tail h
  | some ops =>
    rw [hp] at h
    exact h

private theorem lookupInTransaction_clusterCleanup (q : Qmgmt) (c : Int) (n : AttrName) :
    (q.clusterCleanup c).jobQueue.lookupInTransaction (clusterKey c) n = none := by
  rw [JobQueue.lookupInTransaction,JobQueue.examineTransaction,clusterCleanup,log,JobQueue.append,
    Ledger.append]
  cases q.jobQueue.pending with
  | none => rfl
  | some ops =>
    dsimp only
    rw [getD_some,foldl_append,foldl_cons,foldl_nil,JobQueue.Examined.step,
      if_pos rfl]
    rfl

private theorem ClusterHarmless.cleanup {c : Int} (h : ClusterHarmless E q c)
    (hp : q'.peer = q.peer)
    (hc : q'.jobQueue.committed.column (clusterKey c) =
      q.jobQueue.committed.column (clusterKey c)) :
    ∃ q'', (q'.clusterCleanup c).destroyMyProxyPassword E (clusterKey c) = some q'' := by
  apply destroyMyProxyPassword_total
  have hpeer : (q'.clusterCleanup c).peer = q.peer := hp
  cases hlook : (q'.clusterCleanup c).jobQueue.lookupClassAd (clusterKey c) with
  | none =>
    left
    rw [attrsSeen,lookupInTransaction_clusterCleanup,hlook]
  | some ad =>
    have hmem : ad ∈ q.jobQueue.committed.column (clusterKey c) := by
      rw [← hc]
      exact column_clusterCleanup q' c (Table.mem_column.mpr (Table.mem_of_lookup hlook))
    rcases h ad hmem with hnone | ⟨hauth,hlit,hcheck⟩
    · left
      rw [attrsSeen,lookupInTransaction_clusterCleanup,hlook]
      exact (allAttrs_clusterKey hlook _).trans hnone
    · right
      refine ⟨(authenticated_congr hpeer).trans hauth,ad,rfl,?_⟩
      have howner := allAttrs_clusterKey hlook attrOwner
      rw [ownerCheck_congr hpeer,ownerOf,lookupString_literal (howner ▸ hlit),howner]
      exact hcheck

private theorem destroyCluster_total {c : Int} (h : ClusterHarmless E q c) :
    ∃ r, q.destroyCluster E c = some r := by
  rw [destroyCluster]
  split
  · exact ⟨_,rfl⟩
  · have hturn : ∀ (s : Destroying), ∀ e ∈ q.jobQueue.committed, True →
        ∃ s', destroyClusterTurn E c s e = some s' ∧ True := by
      intro s e _ _
      rw [destroyClusterTurn]
      split
      · exact ⟨_,rfl,trivial⟩
      · split
        · exact ⟨_,rfl,trivial⟩
        · obtain ⟨q1,hq1,-⟩ := stampCompletion_total E s.q e.1
            (JobQueue.allAttrs s.q.jobQueue.committed e.1 e.2)
          rw [hq1]
          exact ⟨_,rfl,trivial⟩
    obtain ⟨s,hs,-⟩ := run_total_mem (fun _ : Destroying => True) hturn (s := ⟨q,false⟩) trivial
    rw [hs,bind_some]
    have hed := destroyClusterLoop_edited hs
    split
    · exact ⟨_,rfl⟩
    · have hcol : s.q.jobQueue.committed.column (clusterKey c) =
          q.jobQueue.committed.column (clusterKey c) := by
        have hne : ∀ id : ProcId, -1 < id.proc → id ≠ clusterKey c := by
          rintro id hid rfl
          exact absurd hid (show ¬ (-1 : Int) < -1 by decide)
        refine hed.column ?_ fun id hid => hne id hid.2
        rintro op ⟨id,-,hid,⟨n,v,rfl⟩ | rfl⟩
        · exact hne id hid
        · exact hne id hid
      obtain ⟨q2,hq2⟩ := h.cleanup hed.sameVars.peer hcol
      rw [hq2]
      exact ⟨_,rfl⟩

/-- A job has no password, or the client is authenticated and the owner of the job is a plain
name. -/
def ProcHarmless (q : Qmgmt) (id : ProcId) : Prop :=
  q.attrsSeen id attrMyProxyPasswordExists attrMyProxyPasswordExists = none ∨
    (q.authenticated = true ∧ ∀ ad ∈ q.jobQueue.lookupClassAd id,
      isExpr (JobQueue.allAttrs q.jobQueue.committed id ad attrOwner) = false)
deriving Decidable

theorem SameMarks.attrsSeen (h : SameMarks q q') (id : ProcId) :
    q'.attrsSeen id attrMyProxyPasswordExists attrMyProxyPasswordExists =
      q.attrsSeen id attrMyProxyPasswordExists attrMyProxyPasswordExists := by
  rw [Qmgmt.attrsSeen,Qmgmt.attrsSeen,h.pending]
  cases q.jobQueue.lookupInTransaction id attrMyProxyPasswordExists with
  | some v => rfl
  | none =>
    dsimp only
    have hl := lookup_of_gist h.gist id
    rw [JobQueue.lookupClassAd,JobQueue.lookupClassAd]
    cases had : q.jobQueue.committed.lookup id with
    | none =>
      rw [had,map_none,map_eq_none_iff] at hl
      rw [hl]
    | some ad =>
      cases had' : q'.jobQueue.committed.lookup id with
      | none =>
        rw [had,had'] at hl
        simp at hl
      | some ad' => exact (allAttrs_of_gist h.gist had had').2

theorem ProcHarmless.destroyMyProxyPassword (h : q.ProcHarmless id) (hs : SameMarks q q')
    {ad : QueueAd} (had : q.jobQueue.lookupClassAd id = some ad)
    (hcheck : q.ownerCheck E (q.ownerOf E id ad) = true) :
    ∃ q'', q'.destroyMyProxyPassword E id = some q'' := by
  apply destroyMyProxyPassword_total
  rcases h with hnone | ⟨hauth,hlit⟩
  · left
    rw [hs.attrsSeen]
    exact hnone
  · right
    refine ⟨(authenticated_congr hs.peer).trans hauth,?_⟩
    have hl := lookup_of_gist hs.gist id
    have hlook : q.jobQueue.committed.lookup id = some ad := had
    cases had' : q'.jobQueue.committed.lookup id with
    | none =>
      rw [hlook,had'] at hl
      simp at hl
    | some ad' =>
      refine ⟨ad',had',?_⟩
      have howner := (allAttrs_of_gist hs.gist hlook had').1
      have hplain := hlit ad had
      rw [ownerOf,lookupString_literal hplain] at hcheck
      rw [ownerCheck_congr hs.peer,ownerOf,lookupString_literal (howner ▸ hplain),howner]
      exact hcheck

private theorem removeProc_total (h : ∃ q1, q.destroyMyProxyPassword E id = some q1) :
    ∃ q', q.removeProc E id = some q' := by
  obtain ⟨q1,hq1⟩ := h
  rw [removeProc,hq1]
  exact ⟨_,rfl⟩

private theorem destroyProc_total (hp : q.ProcHarmless id) (hc : ClusterHarmless E q id.cluster) :
    ∃ r, q.destroyProc E id = some r := by
  unfold destroyProc
  split
  · exact ⟨_,rfl⟩
  · next ad had =>
    split
    · exact ⟨_,rfl⟩
    · next hcheck =>
      have hcheck : q.ownerCheck E (q.ownerOf E id ad) = true := by simpa using hcheck
      obtain ⟨q1,hq1,hs,hin⟩ := stampCompletion_total E q id
        (JobQueue.allAttrs q.jobQueue.committed id ad)
      rw [hq1,bind_some]
      split
      · exact ⟨_,rfl⟩
      · split
        · have hc1 : ClusterHarmless E q1 id.cluster := by
            intro ad' had'
            obtain ⟨ad0,had0,ho,hm⟩ := column_of_gist hs.gist had'
            rw [ho,hm,authenticated_congr hs.peer,ownerCheck_congr hs.peer]
            exact hc ad0 had0
          obtain ⟨r,hr⟩ := destroyCluster_total hc1
          rw [hr]
          exact ⟨_,rfl⟩
        · split
          · obtain ⟨q2,hq2⟩ := removeProc_total (hp.destroyMyProxyPassword hs had hcheck)
            rw [hq2]
            exact ⟨_,rfl⟩
          · next hout =>
            have hno : q1.inTransaction = false := by simpa using hout
            have hpend : q1.jobQueue.pending = none := by simpa [inTransaction] using hno
            have hb : q1.beginTransaction E =
                some { q1 with jobQueue := q1.jobQueue.start, xactStartTime := E.now } := by
              rw [beginTransaction,if_neg hout]
            have hs2 : SameMarks q
                { q1 with jobQueue := q1.jobQueue.start, xactStartTime := E.now } := by
              refine hs.trans ⟨rfl,fun id' => ?_,rfl⟩
              rw [JobQueue.lookupInTransaction,JobQueue.lookupInTransaction,
                JobQueue.examineTransaction,JobQueue.examineTransaction,hpend]
              rfl
            obtain ⟨q2,hq2⟩ := removeProc_total (hp.destroyMyProxyPassword hs2 had hcheck)
            rw [hb,bind_some,hq2]
            exact ⟨_,rfl⟩

/-- The jobs over which `SetAttributeByConstraint` goes. -/
def hasJobs (q : Qmgmt) : Bool := q.keys.any fun id => 0 < id.cluster && -1 < id.proc

/-- What a request must not do: begin a second transaction, give a null name or value where it is
read, set flags for an ad that is not committed, or touch the password of an ad that the client may
not write. -/
def Answerable (E : Env) (q : Qmgmt) : Request → Prop
  | .beginTransaction => q.inTransaction = false
  | .getAttribute _ name => name.isSome = true
  | .deleteAttribute _ name => name.isSome = true
  | .setAttribute id name value flags =>
    if name = some attrMyProxyPassword ∧ value.isSome = true then
      (q.writableAd E (passwordKey id) (some myProxyPasswordExists) (some (cstr "TRUE"))).isSome =
        true
    else ValueHarmless E q name value ∧ FlagsHarmless flags (q.jobQueue.lookupClassAd id)
  | .setAttributeByConstraint constraint name value _ =>
    name.isSome = true ∧ (name = some attrMyProxyPassword ∨
      ((constraint.isSome = true ∨ q.hasJobs = false) ∧ ValueHarmless E q name value))
  | .destroyProc id => q.ProcHarmless id ∧ ClusterHarmless E q id.cluster
  | .destroyCluster c => ClusterHarmless E q c
  | _ => True

instance (E : Env) (q : Qmgmt) : ∀ r : Request, Decidable (Answerable E q r)
  | .destroyProc id => inferInstanceAs (Decidable (q.ProcHarmless id ∧
      ClusterHarmless E q id.cluster))
  | .destroyCluster c => inferInstanceAs (Decidable (ClusterHarmless E q c))
  | .setAttribute id name value flags => inferInstanceAs (Decidable (
      if name = some attrMyProxyPassword ∧ value.isSome = true then
        (q.writableAd E (passwordKey id) (some myProxyPasswordExists) (some (cstr "TRUE"))).isSome =
          true
      else ValueHarmless E q name value ∧ FlagsHarmless flags (q.jobQueue.lookupClassAd id)))
  | .setAttributeByConstraint constraint name value _ => inferInstanceAs (Decidable (
      name.isSome = true ∧ (name = some attrMyProxyPassword ∨
        ((constraint.isSome = true ∨ q.hasJobs = false) ∧ ValueHarmless E q name value))))
  | .deleteAttribute _ name | .getAttribute _ name =>
    inferInstanceAs (Decidable (name.isSome = true))
  | .beginTransaction => inferInstanceAs (Decidable (q.inTransaction = false))
  | .newCluster | .newProc _ | .setTimerAttribute .. | .commitTransaction | .abortTransaction =>
    .isTrue trivial

/-- The ad of the cluster that an ad is chained to is still there. -/
def Anchored (t : JobTable) (id : ProcId) (ad : QueueAd) : Prop :=
  ad.chained = true → (t.lookup (clusterKey id.cluster)).isSome = true
deriving Decidable

/-- `Delete` is the only record whose `Play` looks into the ad behind a chained one. -/
def looksBehind : QueueOp → Bool
  | .deleteAttribute .. => true
  | _ => false

/-- What a commit plays looks into no ad of a cluster that has gone. -/
def CommitAnchored (q : Qmgmt) : Prop :=
  Along (fun t op => some (op.play t)) (fun t op => looksBehind op = true →
    ∀ ad ∈ t.lookup op.key, Anchored t op.key ad) q.jobQueue.committed (q.jobQueue.pending.getD [])
deriving Decidable

def commits : Request → Bool
  | .commitTransaction => true
  | _ => false

/-- A request that is answered and comes while no job hangs on the ad of a cluster that has gone. -/
def Harmless (E : Env) (q : Qmgmt) (r : Request) : Prop :=
  Answerable E q r ∧ (∀ e ∈ q.jobQueue.committed, Anchored q.jobQueue.committed e.1 e.2) ∧
    (commits r = true → CommitAnchored q)
deriving Decidable

private theorem setMyProxyPassword_total
    (h : (q.writableAd E (passwordKey id) (some myProxyPasswordExists)
      (some (cstr "TRUE"))).isSome = true) : ∃ r, q.setMyProxyPassword E id = some r := by
  obtain ⟨ad,had⟩ := Option.isSome_iff_exists.mp h
  have hflags : FlagsHarmless noFlags ad := .inr ⟨rfl,rfl⟩
  obtain ⟨q1,hq1,-⟩ := storeAttribute_total E q (passwordKey id) myProxyPasswordExists
    (some (cstr "TRUE")) (.inl rfl) hflags
  have hset : q.setOrdinary E (passwordKey id) myProxyPasswordExists (some (cstr "TRUE")) noFlags =
      some (q1,0) := by
    rw [setOrdinary,had]
    dsimp only
    rw [hq1]
    rfl
  rw [setMyProxyPassword]
  change ∃ r, ((q.setOrdinary E (passwordKey id) myProxyPasswordExists (some (cstr "TRUE"))
    noFlags).bind _) = some r
  rw [hset]
  exact ⟨_,rfl⟩

private theorem ValueHarmless.of_dirty (h : ValueHarmless E q name value)
    (hd : q.prioRecArrayIsDirty = true → q'.prioRecArrayIsDirty = true) :
    ValueHarmless E q' name value :=
  h.imp_right fun hn => ⟨hn.1,hn.2.1,fun he => hd (hn.2.2 he)⟩

private theorem setAttributeByConstraint_total {constraint name value : Option CString}
    (hc : constraint.isSome = true ∨ q.hasJobs = false) (hv : ValueHarmless E q name value) :
    ∃ r, q.setAttributeByConstraint E constraint name value flags = some r := by
  let Inv (s : Matching) : Prop := (q.prioRecArrayIsDirty = true → s.q.prioRecArrayIsDirty = true) ∧
    s.q.keys = q.keys
  have hturn : ∀ s, ∀ e ∈ q.jobQueue.committed, Inv s →
      ∃ s', constraintTurn E constraint name value flags s e = some s' ∧ Inv s' := by
    rintro s e he ⟨hdirty,hkeys⟩
    rw [constraintTurn]
    split
    · exact ⟨s,rfl,hdirty,hkeys⟩
    · next hjob =>
      have hmem : e.1 ∈ q.keys := mem_map_of_mem (f := Prod.fst) he
      have hsome : constraint.isSome = true := by
        refine hc.resolve_right fun hno => ?_
        rw [hasJobs,List.any_eq_false] at hno
        exact hno e.1 hmem (by simp only [Bool.and_eq_true,decide_eq_true_eq]; omega)
      obtain ⟨c,rfl⟩ := Option.isSome_iff_exists.mp hsome
      rw [bind_some]
      dsimp only
      split
      · have hlook : (s.q.jobQueue.lookupClassAd e.1).isSome = true :=
          Table.lookup_isSome.mpr (show e.1 ∈ s.q.keys from hkeys ▸ hmem)
        obtain ⟨r,hr,hkeep⟩ := setAttribute_total e.1 flags (hv.of_dirty hdirty) (.inl hlook)
        rw [hr]
        refine ⟨_,rfl,fun h => hkeep (hdirty h),?_⟩
        exact ((setAttribute_edited hr).keys fun _ hop => hop.playKeys).trans hkeys
      · exact ⟨s,rfl,hdirty,hkeys⟩
  obtain ⟨s,hs,-⟩ := run_total_mem Inv hturn (s := ⟨q,false,false⟩) ⟨fun h => h,rfl⟩
  rw [setAttributeByConstraint,hs]
  exact ⟨_,rfl⟩

private theorem doQRequest_total {r : Request}
    (h : Answerable E q r) : ∃ res, q.doQRequest E r = some res := by
  cases r with
  | newCluster | newProc | commitTransaction | abortTransaction => exact ⟨_,rfl⟩
  | destroyProc id => exact destroyProc_total h.1 h.2
  | destroyCluster c => exact destroyCluster_total h
  | setAttribute id name value flags =>
    rw [Answerable] at h
    rw [doQRequest]
    split at h
    · next hpass =>
      rw [if_pos hpass]
      exact setMyProxyPassword_total h
    · next hpass =>
      rw [if_neg hpass]
      obtain ⟨r,hr,-⟩ := setAttribute_total id flags h.1 h.2
      exact ⟨r,hr⟩
  | setAttributeByConstraint constraint name value flags =>
    obtain ⟨hname,hrest⟩ := h
    obtain ⟨s,rfl⟩ := Option.isSome_iff_exists.mp hname
    dsimp only [doQRequest]
    split
    · exact ⟨_,rfl⟩
    · next hs =>
      obtain ⟨hc,hv⟩ := hrest.resolve_left fun he => hs (some.inj he)
      exact setAttributeByConstraint_total hc hv
  | setTimerAttribute id name duration =>
    rw [doQRequest,setTimerAttribute]
    split
    · exact ⟨_,rfl⟩
    · have hv : ValueHarmless E q name (some (decimalInt (q.xactStartTime + duration))) :=
        .inl rfl
      obtain ⟨r,hr,-⟩ := setAttribute_total id noFlags hv (.inr ⟨rfl,rfl⟩)
      exact ⟨r,hr⟩
  | deleteAttribute id name =>
    obtain ⟨s,rfl⟩ := Option.isSome_iff_exists.mp h
    unfold doQRequest deleteAttribute
    dsimp only
    split
    · exact ⟨_,rfl⟩
    · split
      · exact ⟨_,rfl⟩
      · exact ⟨_,rfl⟩
  | getAttribute id name =>
    obtain ⟨s,rfl⟩ := Option.isSome_iff_exists.mp h
    exact ⟨_,rfl⟩
  | beginTransaction =>
    have hno : q.inTransaction = false := h
    rw [doQRequest,beginTransaction,hno]
    exact ⟨_,rfl⟩

/-- A connection whose requests meet the condition is served to its end. -/
theorem client_served {E0 : Env} {peer : Peer} {q q0 : Qmgmt}
    (hq : q.connect E0 peer = some q0) {rs : List (Env × Request)}
    (hok : Along serve (fun q a => Harmless a.1 q a.2) q0 rs) :
    q0.inTransaction = true ∧ ∃ q', run serve q0 rs = some q' := by
  have hin : q0.inTransaction = true := by
    rw [connect,beginTransaction] at hq
    split at hq
    · simp at hq
    · cases hq
      rfl
  have hstep : ∀ q a, True → Harmless a.1 q a.2 → ∃ q', serve q a = some q' ∧ True := by
    intro q a _ ha
    obtain ⟨res,hres⟩ := doQRequest_total ha.1
    exact ⟨res.1,by rw [serve,hres]; rfl,trivial⟩
  obtain ⟨q',hq',-⟩ := run_total (fun _ : Qmgmt => True) hstep hok trivial
  exact ⟨hin,q',hq'⟩

theorem client_served_bobRequests :
    ∃ q0 q', aliceQueue.connect plainEnv (plainPeer (cstr "bob")) = some q0 ∧
      run serve q0 bobRequests = some q' := by
  have h : (aliceQueue.connect plainEnv (plainPeer (cstr "bob"))).any (fun q0 =>
      decide (Along serve (fun q a => Harmless a.1 q a.2) q0 bobRequests)) = true := by
    decide
  obtain ⟨q0,hq,h⟩ := (Option.any_eq_true _ _).mp h
  obtain ⟨-,q',hr⟩ := client_served hq (of_decide_eq_true h)
  exact ⟨q0,q',hq,hr⟩

/-- A client that begins a transaction stops the schedd, which has begun one for it. -/
theorem client_stops_schedd :
    ∃ q0, aliceQueue.connect plainEnv (plainPeer (cstr "bob")) = some q0 ∧
      run serve q0 [(plainEnv,.beginTransaction)] = none := by
  have h : (aliceQueue.connect plainEnv (plainPeer (cstr "bob"))).any (fun q0 =>
      (run serve q0 [(plainEnv,.beginTransaction)]).isNone) = true := by
    decide
  obtain ⟨q0,hq,h⟩ := (Option.any_eq_true _ _).mp h
  exact ⟨q0,hq,Option.isNone_iff_eq_none.mp h⟩

end Qmgmt

end Condor.Schedd
