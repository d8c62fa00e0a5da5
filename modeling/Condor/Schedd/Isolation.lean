import Condor.Schedd.ClusterNumbers

/-!
# What a connection leaves alone

A user who is no super user connects to a queue. The ads of others are those whose owner, their own
or that of their cluster, is somebody else.
-/

namespace Condor.Schedd

open Lib List Function Option

/-- The owner on record, in the ad itself or in its cluster's. -/
def ownerIn (t : JobTable) (id : ProcId) : Option CString :=
  (t.lookup id).bind fun ad =>
    match JobQueue.allAttrs t id ad attrOwner with
    | some (.string v) => some v
    | _ => none

variable {t : JobTable} {id : ProcId}

private theorem ownerIn_eq_some {v : CString} :
    ownerIn t id = some v ↔
      ∃ ad, t.lookup id = some ad ∧ JobQueue.allAttrs t id ad attrOwner = some (.string v) := by
  rw [ownerIn,bind_eq_some_iff]
  refine exists_congr fun ad => and_congr_right fun _ => ?_
  split
  · next s hs =>
    rw [hs]
    simp
  · next hs => exact ⟨fun h => by simp at h,fun h => absurd h (hs v)⟩

/-- A queue before a connection, with the user who connects: every id has one ad, and every ad
but the header ad has an owner. -/
structure Before where
  user : CString
  table : JobTable
  next : Int
  settings : ClusterSettings
  nodup : table.keys.Nodup
  owned : ∀ id ∈ table.keys, id ≠ headerKey → (ownerIn table id).isSome = true

namespace Before

variable (B : Before)

def Foreign (id : ProcId) : Prop := id ≠ headerKey ∧ ∃ v ∈ ownerIn B.table id, v ≠ B.user
deriving Decidable

def Mine (id : ProcId) : Prop := id ≠ headerKey ∧ ¬ B.Foreign id

def New (cluster : Int) : Prop := ∀ id ∈ B.table.keys, id.cluster ≠ cluster
deriving Decidable

/-- The number that `NewCluster` puts after another. -/
def advance (n : Int) : Int := Qmgmt.wrapClusterNum B.settings (n + B.settings.increment)

/-- A number that `NewCluster` puts into the header ad. -/
def Handed (n : Int) : Prop := ∃ k, n = B.advance^[k + 1] B.next

def Allowed : QueueOp → Prop
  | .newClassAd k => k ≠ headerKey ∧ B.New k.cluster
  | .destroyClassAd k => B.Mine k
  | .setAttribute k n v =>
    (k = headerKey ∧ n = attrNextClusterNum ∧ ∃ m, v = some (.integer m) ∧ B.Handed m) ∨
      (B.Mine k ∧ (n = attrOwner → v = none ∨ v = some (.string B.user)))
  | .deleteAttribute k _ => B.Mine k

variable {B}

theorem not_foreign_of_new (h : B.New id.cluster) : ¬ B.Foreign id := by
  rintro ⟨-,v,hv,-⟩
  obtain ⟨ad,had,-⟩ := ownerIn_eq_some.mp hv
  exact h id (Table.lookup_isSome.mp (had ▸ rfl)) rfl

theorem Foreign.column (h : B.Foreign id) :
    ∃ ad v, B.table.lookup id = some ad ∧ B.table.column id = [ad] ∧
      JobQueue.allAttrs B.table id ad attrOwner = some (.string v) ∧ v ≠ B.user := by
  obtain ⟨-,v,hv,hne⟩ := h
  obtain ⟨ad,had,howner⟩ := ownerIn_eq_some.mp hv
  exact ⟨ad,v,had,Table.column_of_nodup B.nodup had,howner,hne⟩

theorem clusterKey_ne_header (c : Int) : clusterKey c ≠ headerKey := fun h =>
  absurd (congrArg ProcId.proc h) (show (-1 : Int) ≠ 0 by decide)

private theorem foreign_cluster {ad : QueueAd} {v : CString}
    (h : JobQueue.allAttrs B.table id ad attrOwner = some (.string v)) (hne : v ≠ B.user)
    (hown : ad.attrs attrOwner = none) : ad.chained = true ∧ B.Foreign (clusterKey id.cluster) := by
  rw [JobQueue.allAttrs,hown] at h
  dsimp only at h
  split at h
  · next hch =>
    refine ⟨hch,clusterKey_ne_header _,v,?_,hne⟩
    rw [bind_eq_some_iff] at h
    obtain ⟨c,hc,hcv⟩ := h
    refine ownerIn_eq_some.mpr ⟨c,hc,?_⟩
    rw [JobQueue.allAttrs,hcv]
  · simp at h

theorem Mine.setAttribute (hid : B.Mine id) (n : AttrName) (v : Option AttrExpr)
    (hn : n ≠ attrOwner) : B.Allowed (.setAttribute id n v) :=
  .inr ⟨hid,fun he => absurd he hn⟩

variable (B)

def OwnerOk (id : ProcId) (ad : QueueAd) : Prop :=
  (ad.attrs attrOwner = none ∧ (ad.chained = true → ¬ B.Foreign (clusterKey id.cluster))) ∨
    ad.attrs attrOwner = some .undefined ∨ ad.attrs attrOwner = some (.string B.user)

/-- What becomes of the header ad: its number may change, as `NewCluster` sets it. -/
def HeaderKept (ad ad' : QueueAd) : Prop :=
  (∀ n, n ≠ attrNextClusterNum → ad'.attrs n = ad.attrs n) ∧
    (ad'.attrs attrNextClusterNum = ad.attrs attrNextClusterNum ∨
      ∃ m, B.Handed m ∧ ad'.attrs attrNextClusterNum = some (.integer m))

structure Kept (t : JobTable) : Prop where
  foreign : ∀ id, B.Foreign id → t.column id = B.table.column id
  new : ∀ id ∈ t.keys, id ∈ B.table.keys ∨ B.New id.cluster
  header : Option.Rel B.HeaderKept (B.table.lookup headerKey) (t.lookup headerKey)
  owners : ∀ e ∈ t, B.Mine e.1 → B.OwnerOk e.1 e.2

variable {B}

theorem Kept.refl : B.Kept B.table where
  foreign := fun _ _ => rfl
  new := fun _ hid => .inl hid
  header := by
    cases B.table.lookup headerKey with
    | none => exact .none
    | some ad => exact .some ⟨fun _ _ => rfl,.inl rfl⟩
  owners := by
    rintro ⟨id,ad⟩ he ⟨hh,hf⟩
    have hid : id ∈ B.table.keys := mem_map_of_mem (f := Prod.fst) he
    obtain ⟨v,hv⟩ := Option.isSome_iff_exists.mp (B.owned id hid hh)
    obtain ⟨ad',had',howner⟩ := ownerIn_eq_some.mp hv
    have hu : v = B.user := by
      by_contra hne
      exact hf ⟨hh,v,hv,hne⟩
    subst hu
    have had : ad = ad' := by
      have hcol := Table.mem_column.mpr he
      rw [Table.column_of_nodup B.nodup had',mem_singleton] at hcol
      exact hcol
    subst had
    rw [JobQueue.allAttrs] at howner
    split at howner
    · next hown => exact .inr (.inr (hown.trans howner))
    · next hown =>
      refine .inl ⟨hown,?_⟩
      rintro hch ⟨-,w,hw,hwne⟩
      obtain ⟨c,hc,hcw⟩ := ownerIn_eq_some.mp hw
      rw [if_pos hch,hc,bind_some] at howner
      rw [JobQueue.allAttrs,howner] at hcw
      cases hcw
      exact hwne rfl

theorem OwnerOk.of_same {ad ad' : QueueAd} (h : B.OwnerOk id ad)
    (hs : ad'.attrs attrOwner = ad.attrs attrOwner) (hch : ad'.chained = ad.chained) :
    B.OwnerOk id ad' := by
  rw [OwnerOk,hs,hch]
  exact h

private theorem update_attr_self (attrs : Attrs) (n : AttrName) (x : Option AttrExpr) :
    update attrs n x n = x := update_self n x attrs

theorem update_attr_ne (attrs : Attrs) {n n' : AttrName} (h : n' ≠ n) (x : Option AttrExpr) :
    update attrs n x n' = attrs n' := update_of_ne h x attrs

theorem Kept.owner_same (h : B.Kept t) (hid : B.Foreign id) :
    ∃ ad v, t.lookup id = some ad ∧ B.table.lookup id = some ad ∧
      JobQueue.allAttrs t id ad attrOwner = some (.string v) ∧
      JobQueue.allAttrs B.table id ad attrOwner = some (.string v) ∧ v ≠ B.user := by
  obtain ⟨ad,v,had,-,howner,hne⟩ := hid.column
  have hlook : ∀ id', B.Foreign id' → t.lookup id' = B.table.lookup id' := by
    intro id' hid'
    rw [Table.lookup_eq_head,Table.lookup_eq_head,h.foreign id' hid']
  refine ⟨ad,v,(hlook id hid).trans had,had,?_,howner,hne⟩
  cases hown : ad.attrs attrOwner with
  | some x =>
    rw [JobQueue.allAttrs,hown] at howner ⊢
    exact howner
  | none =>
    obtain ⟨-,hc⟩ := foreign_cluster howner hne hown
    rw [JobQueue.allAttrs,hown] at howner ⊢
    dsimp only at howner ⊢
    rw [hlook _ hc]
    exact howner

private theorem Kept.deleteOwner (h : B.Kept t) (k : ProcId) (ad : QueueAd) :
    B.OwnerOk k (deleteAttr t k attrOwner ad) := by
  have howner : (deleteAttr t k attrOwner ad).attrs attrOwner =
      if ad.chained ∧ ((t.lookup (clusterKey k.cluster)).bind
        fun c => c.attrs attrOwner).isSome then
        some .undefined
      else none := update_attr_self ad.attrs attrOwner _
  rw [OwnerOk,howner]
  split
  · exact .inr (.inl rfl)
  · next hno =>
    refine .inl ⟨rfl,fun hch hf => hno ⟨hch,?_⟩⟩
    -- the ad of another user's cluster has its owner
    obtain ⟨c,v,hc,-,hv,-⟩ := h.owner_same hf
    rw [hc,bind_some]
    rw [JobQueue.allAttrs] at hv
    split at hv
    · next heq => rw [heq]; rfl
    · next heq =>
      split at hv
      · rw [show clusterKey (clusterKey k.cluster).cluster = clusterKey k.cluster from rfl,hc,
          bind_some,heq] at hv
        cases hv
      · cases hv

private theorem headerKept_set {m : Int} (hm : B.Handed m) {a b : Option QueueAd}
    (h : Option.Rel B.HeaderKept a b) :
    Option.Rel B.HeaderKept a (b.map fun ad =>
      { ad with attrs := update ad.attrs attrNextClusterNum (some (.integer m)) }) := by
  cases h with
  | none => exact .none
  | @some _ b hk =>
    refine .some ⟨fun n hn => ?_,.inr ⟨m,hm,update_attr_self b.attrs attrNextClusterNum _⟩⟩
    exact (update_attr_ne b.attrs hn _).trans (hk.1 n hn)

theorem Kept.adjust (h : B.Kept t) {k : ProcId} (hk : B.Mine k) {f : QueueAd → QueueAd}
    (hf : ∀ ad, B.OwnerOk k ad → B.OwnerOk k (f ad)) : B.Kept (t.adjust f k) where
  foreign := by
    intro id hid
    have hne : id ≠ k := fun he => hk.2 (he ▸ hid)
    exact (Table.column_adjust_ne f hne t).trans (h.foreign id hid)
  new := by
    rw [Table.keys_adjust]
    exact h.new
  header := by
    rw [Table.lookup_adjust,if_neg hk.1.symm]
    exact h.header
  owners := by
    intro e he hm
    rcases Table.mem_adjust he with he | ⟨ad,had,rfl⟩
    · exact h.owners e he hm
    · exact hf ad (h.owners (k,ad) had hm)

theorem Kept.play (h : B.Kept t) {op : QueueOp} (hop : B.Allowed op) :
    B.Kept (op.play t) := by
  cases op with
  | newClassAd k =>
    obtain ⟨hk,hnew⟩ := hop
    refine ⟨fun id hid => ?_,?_,?_,?_⟩
    · have hne : id ≠ k := fun he => not_foreign_of_new hnew (he ▸ hid)
      exact (QueueOp.column_play_ne (.newClassAd k) t hne).trans (h.foreign id hid)
    · intro id hid
      rcases List.mem_cons.mp hid with rfl | hid
      · exact .inr hnew
      · exact h.new id hid
    · rw [QueueOp.play,Table.lookup_cons,if_neg hk]
      exact h.header
    · intro e he hm
      rcases List.mem_cons.mp he with rfl | he
      · exact .inl ⟨rfl,fun _ => not_foreign_of_new hnew⟩
      · exact h.owners e he hm
  | destroyClassAd k =>
    refine ⟨fun id hid => ?_,?_,?_,?_⟩
    · have hne : id ≠ k := fun he => hop.2 (he ▸ hid)
      exact (Table.column_remove_ne hne t).trans (h.foreign id hid)
    · intro id hid
      rw [QueueOp.keys_play] at hid
      exact h.new id (mem_of_mem_erase hid)
    · rw [QueueOp.play,Table.lookup_remove_ne t hop.1.symm]
      exact h.header
    · exact fun e he => h.owners e (mem_of_mem_eraseP he)
  | setAttribute k n v =>
    cases v with
    | none => exact h
    | some x =>
      rcases hop with ⟨rfl,rfl,m,hm,hhanded⟩ | ⟨hk,howner⟩
      · cases hm
        refine ⟨fun id hid => ?_,?_,?_,?_⟩
        · exact (Table.column_adjust_ne _ hid.1 t).trans (h.foreign id hid)
        · rw [QueueOp.keys_play]
          exact h.new
        · rw [QueueOp.play,Table.lookup_adjust,if_pos rfl]
          exact headerKept_set hhanded h.header
        · intro e he hm
          rcases Table.mem_adjust he with he | ⟨ad,-,rfl⟩
          · exact h.owners e he hm
          · exact absurd rfl hm.1
      · refine h.adjust hk fun ad had => ?_
        by_cases hn : n = attrOwner
        · subst hn
          rcases howner rfl with hx | hx
          · cases hx
          · cases hx
            exact .inr (.inr (update_attr_self ad.attrs attrOwner _))
        · exact had.of_same (update_attr_ne ad.attrs (Ne.symm hn) _) rfl
  | deleteAttribute k n =>
    refine h.adjust hop fun ad had => ?_
    by_cases hn : n = attrOwner
    · subst hn
      exact h.deleteOwner k ad
    · exact had.of_same (deleteAttr_ne t k ad (Ne.symm hn)) rfl

theorem Kept.playAll {ops : List QueueOp} (h : B.Kept t)
    (hops : ∀ op ∈ ops, B.Allowed op) : B.Kept (Ledger.playAll QueueOp.play ops t) := by
  induction ops generalizing t with
  | nil => exact h
  | cons op ops ih =>
    rw [Ledger.playAll_cons]
    exact ih (h.play (hops op mem_cons_self)) fun op' hop' =>
      hops op' (mem_cons_of_mem _ hop')

theorem Kept.chainToCluster (h : B.Kept t)
    (hid : B.Allowed (.newClassAd id)) : B.Kept (Qmgmt.chainToCluster t id) := by
  rw [Qmgmt.chainToCluster]
  split
  · refine h.adjust ⟨hid.1,not_foreign_of_new hid.2⟩ fun ad had => ?_
    exact had.imp_left fun hno => ⟨hno.1,fun _ => not_foreign_of_new hid.2⟩
  · exact h

theorem Kept.owner (h : B.Kept t) (hid : id ≠ headerKey) {ad : QueueAd}
    (had : t.lookup id = some ad) :
    JobQueue.allAttrs t id ad attrOwner = none ∨
      JobQueue.allAttrs t id ad attrOwner = some .undefined ∨
      JobQueue.allAttrs t id ad attrOwner = some (.string B.user) ∨
      ∃ ad0, B.table.lookup id = some ad0 ∧
        JobQueue.allAttrs t id ad attrOwner = JobQueue.allAttrs B.table id ad0 attrOwner := by
  by_cases hf : B.Foreign id
  · obtain ⟨ad0,v,hlook,hbefore,hnow,hthen,-⟩ := h.owner_same hf
    obtain rfl : ad = ad0 := some.inj (had.symm.trans hlook)
    exact .inr (.inr (.inr ⟨ad,hbefore,hnow.trans hthen.symm⟩))
  · rcases h.owners (id,ad) (Table.mem_of_lookup had) ⟨hid,hf⟩ with ⟨hnone,hcf⟩ | hown
    · rw [JobQueue.allAttrs,hnone]
      dsimp only
      split
      · next hch =>
        cases hc : t.lookup (clusterKey id.cluster) with
        | none => exact .inl rfl
        | some c =>
          have hm : B.Mine (clusterKey id.cluster) := ⟨clusterKey_ne_header _,hcf hch⟩
          rw [bind_some]
          exact (h.owners (_,c) (Table.mem_of_lookup hc) hm).imp And.left fun hu =>
            hu.imp_right .inl
      · exact .inl rfl
    · right
      rcases hown with hown | hown
      · rw [JobQueue.allAttrs,hown]
        exact .inl rfl
      · rw [JobQueue.allAttrs,hown]
        exact .inr (.inl rfl)

/-- The requests that stay away from the header ad, a cluster number that is taken, and the ad of
another user's cluster. -/
def Permitted (B : Before) (q : Qmgmt) : Request → Prop
  | .newCluster => B.New q.nextClusterNum
  | .destroyProc id => id.cluster ≠ 0 ∧ (B.Foreign (clusterKey id.cluster) → B.Foreign id)
  | .destroyCluster c => B.Foreign (clusterKey c) →
    ∃ id ∈ B.table.keys, B.Foreign id ∧ id.cluster = c ∧ -1 < id.proc
  | r => r.SparesHeader

instance (B : Before) (q : Qmgmt) : ∀ r : Request, Decidable (B.Permitted q r)
  | .newCluster => inferInstanceAs (Decidable (B.New q.nextClusterNum))
  | .destroyProc id => inferInstanceAs (Decidable (id.cluster ≠ 0 ∧
      (B.Foreign (clusterKey id.cluster) → B.Foreign id)))
  | .destroyCluster c => inferInstanceAs (Decidable (B.Foreign (clusterKey c) →
      ∃ id ∈ B.table.keys, B.Foreign id ∧ id.cluster = c ∧ -1 < id.proc))
  | .setAttribute id .. | .setTimerAttribute id .. | .deleteAttribute id _ =>
    inferInstanceAs (Decidable (id.cluster ≠ 0))
  | .newProc _ | .setAttributeByConstraint .. | .getAttribute .. | .beginTransaction
  | .commitTransaction | .abortTransaction => .isTrue trivial

end Before

end Condor.Schedd
