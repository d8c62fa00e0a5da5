import Condor.ClassAdLog.Recovery

/-!
# Rotation

`TruncLog` replaces the log by a snapshot of the table. The snapshot replays to the table it
was taken of; what an earlier rotation left in the temporary file behind it is read as well.
-/

namespace Condor

open Lib Lib.Reader List Option

/-- A record as it is read back: without the dirty mark, and with the placeholder for a type
name that is spelled like it. -/
def LogRecord.stored : LogRecord → LogRecord
  | newClassAd key mytype targettype =>
    newClassAd key (typeOfPlaceholder mytype) (typeOfPlaceholder targettype)
  | r => r.logged

private theorem typePlaceholder_typeOfPlaceholder (w : CString) :
    typePlaceholder (typeOfPlaceholder w) = typePlaceholder w := by
  rw [typeOfPlaceholder]
  split
  · next h => rw [h]; rfl
  · rfl

private theorem encode_stored (r : LogRecord) : encode r.stored = encode r := by
  cases r with
  | newClassAd key mytype targettype =>
    simp only [LogRecord.stored,encode,write,writeBody,typePlaceholder_typeOfPlaceholder]
    rfl
  | _ => rfl

namespace ClassAdLog

variable {Expr : Type} (L : ClassAdLanguage Expr)

/-- `ExprTreeToString` and `AssignExpr` round-trip the expression. -/
structure RoundTrips (e : Expr) : Prop where
  printed : L.exprTreeToString e ≠ []
  parsed : L.parseExpression (L.exprTreeToString e) = some e

def rebuild (ad : ClassAd Expr) : ClassAd Expr :=
  (L.iterate ad.attrList).foldl
    (fun ad' a => ad'.assignExpr L a.1 (attrText (L.exprTreeToString a.2)).val)
    (.newTyped L (typeOfPlaceholder (ad.getMyTypeName L))
      (typeOfPlaceholder (ad.getTargetTypeName L)))

def HasBornAttrs (ad : ClassAd Expr) : Prop :=
  (ad.lookup attrMyType).isSome ∧ (ad.lookup attrTargetType).isSome ∧
    (L.strictEvaluation = false → (ad.lookup attrCurrentTime).isSome)
deriving Decidable

variable {ad : ClassAd Expr}

private theorem lookup_of_newTyped (h : HasBornAttrs L ad) {mytype targettype n : CString}
    (hn : ((ClassAd.newTyped L mytype targettype).lookup n).isSome) : (ad.lookup n).isSome := by
  rw [ClassAd.newTyped,ClassAd.setTargetTypeName,ClassAd.setMyTypeName,
    ClassAd.lookup_insert _ (by decide),ClassAd.lookup_insert _ (by decide)] at hn
  by_cases ht : strcaseeq attrTargetType n = true
  · rw [← ad.lookup_congr ht]
    exact h.2.1
  by_cases hm : strcaseeq attrMyType n = true
  · rw [← ad.lookup_congr hm]
    exact h.1
  rw [if_neg ht,if_neg hm,ClassAd.new] at hn
  by_cases hs : L.strictEvaluation = true
  · simp [hs,ClassAd.lookup,ClassAd.empty] at hn
  rw [if_neg hs,ClassAd.assignExpr] at hn
  split at hn
  · simp [ClassAd.lookup,ClassAd.empty] at hn
  · rw [ClassAd.lookup_insert _ (by decide)] at hn
    by_cases hc : strcaseeq attrCurrentTime n = true
    · rw [← ad.lookup_congr hc]
      exact h.2.2 (by simpa using hs)
    · simp [hc,ClassAd.lookup,ClassAd.empty] at hn

private theorem attrList_foldl_assignExpr (as : List (CString × Expr)) (ad : ClassAd Expr)
    (hrt : ∀ a ∈ as, RoundTrips L a.2) (hnamed : ∀ a ∈ as, a.1 ≠ []) :
    (as.foldl (fun ad' a => ad'.assignExpr L a.1 (attrText (L.exprTreeToString a.2)).val)
      ad).attrList = as.foldl (fun l a => KeyedList.insert strcaseeq l a.1 a.2) ad.attrList := by
  induction as generalizing ad with
  | nil => rfl
  | cons a as ih =>
    have ha := hrt a (by simp)
    have hassign : (ad.assignExpr L a.1 (attrText (L.exprTreeToString a.2)).val).attrList =
        KeyedList.insert strcaseeq ad.attrList a.1 a.2 := by
      rw [attrText,dif_neg ha.printed,ClassAd.assignExpr,ha.parsed]
      simp only [ClassAd.insert,dif_neg (hnamed a (by simp))]
    rw [foldl_cons,foldl_cons,
      ih _ (fun x hx => hrt x (by simp [hx])) (fun x hx => hnamed x (by simp [hx])),hassign]

private theorem lookup_rebuild (hrt : ∀ a ∈ ad.attrList, RoundTrips L a.2)
    (hborn : HasBornAttrs L ad) (n : CString) : (rebuild L ad).lookup n = ad.lookup n := by
  have hp := L.iterate_perm ad.attrList
  have hd : KeyedList.Distinct strcaseeq (L.iterate ad.attrList) :=
    hp.symm.pairwise ad.distinct fun {a b} hab => by rw [strcaseeq_comm]; exact hab
  rw [rebuild,ClassAd.lookup,attrList_foldl_assignExpr L _ _
    (fun a ha => hrt a (hp.mem_iff.mp ha)) (fun a ha => ad.named a (hp.mem_iff.mp ha)),
    KeyedList.find_foldl_insert strcaseeq_isEquiv _ _ hd,
    KeyedList.find_perm strcaseeq_isEquiv hp hd]
  change (ad.lookup n).or (ClassAd.lookup _ n) = ad.lookup n
  cases hl : ad.lookup n with
  | some e => rfl
  | none =>
    rw [none_or]
    by_contra hne
    have hsome := lookup_of_newTyped L hborn (Option.isSome_iff_ne_none.mpr hne)
    simp [hl] at hsome

variable {t : ClassAdTable Expr}

private theorem playAll_sets (key : CString) (as : List (CString × Expr)) (hk : t.stack key = [ad])
    (k : CString) :
    (playAll L (as.map fun a => LogRecord.mkSetAttribute key a.1
      (L.exprTreeToString a.2) false) t).stack k =
      if k = key then
        [as.foldl (fun ad' a => ad'.assignExpr L a.1 (attrText (L.exprTreeToString a.2)).val) ad]
      else t.stack k := by
  induction as generalizing t ad with
  | nil =>
    change t.stack k = _
    split
    · next h => rw [h,hk]; rfl
    · rfl
  | cons a as ih =>
    have hl : t.lookup key = some ad := by rw [HashTable.lookup_eq_head?,hk]; rfl
    have hplay : (LogRecord.mkSetAttribute key a.1 (L.exprTreeToString a.2) false).play L t =
        t.adjust key fun ad' => ad'.assignExpr L a.1
          (attrText (L.exprTreeToString a.2)).val := by
      simp only [LogRecord.mkSetAttribute,LogRecord.play,hl]
    have hstack := HashTable.stack_adjust t key fun ad' : ClassAd Expr =>
      ad'.assignExpr L a.1 (attrText (L.exprTreeToString a.2)).val
    rw [map_cons,playAll,foldl_cons,hplay]
    have hnext := ih (t := t.adjust key fun ad' => ad'.assignExpr L a.1
      (attrText (L.exprTreeToString a.2)).val) (by rw [hstack,if_pos rfl,hk]; rfl)
    rw [playAll] at hnext
    rw [hnext,foldl_cons]
    split
    · rfl
    · next h => rw [hstack,if_neg h]

private theorem playAll_adRecords (hu : t.Unique) {key : CString}
    (hk : t.lookup key = none) (ad : ClassAd Expr) (k : CString) :
    (playAll L ((adRecords L key ad).map LogRecord.stored) t).stack k =
      if k = key then [rebuild L ad] else t.stack k := by
  have hmap : (adRecords L key ad).map LogRecord.stored =
      .newClassAd key (typeOfPlaceholder (ad.getMyTypeName L))
        (typeOfPlaceholder (ad.getTargetTypeName L)) ::
      (L.iterate ad.attrList).map fun a =>
        LogRecord.mkSetAttribute key a.1 (L.exprTreeToString a.2) false := by
    simp [adRecords,LogRecord.stored,LogRecord.logged,LogRecord.mkSetAttribute]
  rw [hmap,playAll,foldl_cons]
  change (playAll L _ (t.insert key _).1).stack k = _
  rw [HashTable.insert_absent hk]
  have hnew := fun k => HashTable.stack_addItem hk (.newTyped L
    (typeOfPlaceholder (ad.getMyTypeName L)) (typeOfPlaceholder (ad.getTargetTypeName L))) (hu k)
  rw [playAll_sets L key _ (by rw [hnew,if_pos rfl])]
  split
  · rfl
  · next h => rw [hnew,if_neg h]

private theorem playAll_entries (es : List (CString × ClassAd Expr))
    (hu : ∀ k, (t.stack k ++ (es.filter fun e => e.1 = k).map Prod.snd).length ≤ 1) (k : CString) :
    (playAll L ((es.flatMap fun e => adRecords L e.1 e.2).map LogRecord.stored) t).stack k =
      t.stack k ++ (es.filter fun e => e.1 = k).map fun e => rebuild L e.2 := by
  induction es generalizing t with
  | nil => simp [playAll]
  | cons e es ih =>
    have hunique : t.Unique := fun k => (by simp : _ ≤ _).trans (hu k)
    have hnone : t.lookup e.1 = none := by
      have hlen := hu e.1
      rw [HashTable.lookup_eq_none_iff]
      simp only [filter_cons_of_pos,decide_true,map_cons,length_append,
        length_cons] at hlen
      exact List.length_eq_zero_iff.mp (by omega)
    have hone := playAll_adRecords L hunique hnone e.2
    have hsplit : playAll L (((e :: es).flatMap fun e => adRecords L e.1 e.2).map
        LogRecord.stored) t = playAll L ((es.flatMap fun e => adRecords L e.1 e.2).map
          LogRecord.stored) (playAll L ((adRecords L e.1 e.2).map LogRecord.stored) t) := by
      simp [playAll]
    rw [hsplit,ih]
    · rw [hone]
      by_cases hk : k = e.1
      · have hnil := (HashTable.lookup_eq_none_iff t e.1).mp hnone
        simp [hk,hnil]
      · simp [hk,Ne.symm hk]
    · intro k'
      have hlen := hu k'
      rw [hone]
      by_cases hk : k' = e.1
      · have hnil := (HashTable.lookup_eq_none_iff t e.1).mp hnone
        simp only [hk,hnil,filter_cons_of_pos,decide_true,map_cons,nil_append,
          length_cons,if_true,cons_append] at hlen ⊢
        exact hlen
      · simpa [hk,Ne.symm hk] using hlen

/-- What a snapshot can express: keys and names are words, and no attribute that ads are born with
is missing. -/
structure Expressible (t : ClassAdTable Expr) : Prop where
  keys : ∀ e ∈ t.entries, IsWord e.1
  names : ∀ e ∈ t.entries, ∀ a ∈ e.2.attrList, IsWord a.1
  mytypes : ∀ e ∈ t.entries, e.2.getMyTypeName L = [] ∨ IsWord (e.2.getMyTypeName L)
  targettypes :
    ∀ e ∈ t.entries, e.2.getTargetTypeName L = [] ∨ IsWord (e.2.getTargetTypeName L)
  born : ∀ e ∈ t.entries, HasBornAttrs L e.2

private theorem getKey_adRecords {key : CString} :
    ∀ r ∈ (adRecords L key ad).map LogRecord.stored, r.getKey.isSome = true := by
  intro r hr
  obtain ⟨x,hx,rfl⟩ := List.mem_map.mp hr
  rcases List.mem_cons.mp hx with rfl | hx
  · rfl
  · obtain ⟨a,-,rfl⟩ := List.mem_map.mp hx
    rfl

def snapshotState (s : ClassAdLog Expr) : LoadState Expr :=
  replay L (.initial s.originalLogBirthdate) ((stateRecords L s).map LogRecord.stored)

private theorem snapshotState_eq (s : ClassAdLog Expr) (now : UInt64) :
    replay L (.initial now) ((stateRecords L s).map LogRecord.stored) = snapshotState L s := rfl

theorem snapshotState_fields (s : ClassAdLog Expr) :
    (snapshotState L s).table =
        playAll L ((s.table.entries.flatMap fun e => adRecords L e.1 e.2).map LogRecord.stored)
          newClassAdTable ∧
      (snapshotState L s).activeTransaction = none ∧
      (snapshotState L s).historicalSequenceNumber = s.historicalSequenceNumber := by
  have hkeys : ∀ r ∈ (s.table.entries.flatMap fun e => adRecords L e.1 e.2).map
      LogRecord.stored, r.getKey.isSome = true := by
    intro r hr
    rw [map_flatMap] at hr
    obtain ⟨e,-,hr⟩ := List.mem_flatMap.mp hr
    exact getKey_adRecords L r hr
  have hsplit : snapshotState L s = replay L (loadEntry L (.initial s.originalLogBirthdate)
      (.historicalSequenceNumber s.historicalSequenceNumber s.originalLogBirthdate))
      ((s.table.entries.flatMap fun e => adRecords L e.1 e.2).map LogRecord.stored) := rfl
  rw [hsplit,replay_updates rfl _ hkeys]
  exact ⟨rfl,rfl,rfl⟩

variable {s : ClassAdLog Expr}

theorem snapshotState_sameTable (hu : s.table.Unique)
    (hrt : ∀ e ∈ s.table.entries, ∀ a ∈ e.2.attrList, RoundTrips L a.2)
    (hborn : ∀ e ∈ s.table.entries, HasBornAttrs L e.2) :
    SameTable (snapshotState L s).table s.table := by
  intro k
  have hstack := playAll_entries L s.table.entries (t := newClassAdTable) (fun k => hu k) k
  rw [HashTable.lookup_eq_head?,HashTable.lookup_eq_head?,(snapshotState_fields L s).1,hstack]
  have hmem : ∀ e, (s.table.entries.filter fun e => e.1 = k).head? = some e →
      (rebuild L e.2).lookup = e.2.lookup := by
    intro e he
    have hin := mem_of_mem_filter (mem_of_mem_head? he)
    exact funext fun n => lookup_rebuild L (hrt e hin) (hborn e hin) n
  have hs : s.table.stack k = (s.table.entries.filter fun e => e.1 = k).map Prod.snd := rfl
  rw [hs]
  change ((s.table.entries.filter fun e => e.1 = k).map fun e => rebuild L e.2).head?.map _ = _
  rw [head?_map,head?_map]
  cases hh : (s.table.entries.filter fun e => e.1 = k).head? with
  | none => rfl
  | some e =>
    simp only [map_some]
    rw [hmem e hh]

theorem snapshotState_unique (hu : s.table.Unique) :
    (snapshotState L s).table.Unique := by
  intro k
  have hlen := hu k
  have hstack := playAll_entries L s.table.entries (t := newClassAdTable) (fun k => hu k) k
  have hs : s.table.stack k = (s.table.entries.filter fun e => e.1 = k).map Prod.snd := rfl
  have hnil : (newClassAdTable : ClassAdTable Expr).stack k = [] := rfl
  rw [(snapshotState_fields L s).1,hstack,hnil,nil_append,length_map]
  rwa [hs,length_map] at hlen

private theorem writeAll_eq_some {rs : List LogRecord} {new : List Byte}
    (h : writeAll rs = some new) :
    new = rs.flatMap encode ∧ ∀ r ∈ rs, (write r).2 = true := by
  induction rs generalizing new with
  | nil => exact ⟨(some.inj h).symm,by simp⟩
  | cons r rs ih =>
    rw [writeAll] at h
    split at h
    · next hr =>
      obtain ⟨tail,ht,rfl⟩ := Option.map_eq_some_iff.mp h
      obtain ⟨rfl,hall⟩ := ih ht
      refine ⟨by simp [encode],?_⟩
      intro x hx
      rcases List.mem_cons.mp hx with rfl | hx
      · exact hr
      · exact hall x hx
    · simp at h

private theorem stored_readsBack (he : Expressible L s.table)
    (hw : ∀ r ∈ stateRecords L s, (write r).2 = true) :
    ∀ r ∈ (stateRecords L s).map LogRecord.stored, r.ReadsBack := by
  intro r hr
  obtain ⟨x,hx,rfl⟩ := List.mem_map.mp hr
  have hwx := hw x hx
  rcases List.mem_cons.mp hx with rfl | hx
  · trivial
  obtain ⟨e,hmem,hx⟩ := List.mem_flatMap.mp hx
  have htype : ∀ w : CString, w = [] ∨ IsWord w → TypeReadsBack (typeOfPlaceholder w) := by
    rintro w (rfl | hw)
    · exact Or.inl rfl
    · exact typeOfPlaceholder_readsBack hw
  rcases List.mem_cons.mp hx with rfl | hx
  · exact ⟨he.keys e hmem,htype _ (he.mytypes e hmem),htype _ (he.targettypes e hmem)⟩
  · obtain ⟨a,ha,rfl⟩ := List.mem_map.mp hx
    have hname := he.names e hmem a ((L.iterate_perm _).mem_iff.mp ha)
    exact (readsBack_iff _).mpr ⟨⟨he.keys e hmem,hname,rfl⟩,hwx⟩

theorem load_logState (he : Expressible L s.table) {new : List Byte}
    (h : logState L s = some new) (now : UInt64) (tail : List Byte) :
    load L now (new ++ tail) =
      scanAll readLogEntry (loadEntry L) (snapshotState L s) tail := by
  obtain ⟨rfl,hw⟩ := writeAll_eq_some h
  have henc : ((stateRecords L s).map LogRecord.stored).flatMap encode =
      (stateRecords L s).flatMap encode := by
    simp [flatMap_map,encode_stored]
  rw [← henc,load_records L now _ (stored_readsBack L he hw),snapshotState_eq]

/-- The content of a log file replays, without `EXCEPT`, to the table and the sequence
number. -/
def ReplaysTo (log : List Byte) (t : ClassAdTable Expr) (seq : UInt64) : Prop :=
  ∀ now, (load L now log).error = some .null ∧ SameTable (load L now log).state.table t ∧
    (load L now log).state.historicalSequenceNumber = seq

/-- Reading on into the bytes behind a snapshot changes neither the table nor the sequence
number. -/
def TailInert (s : ClassAdLog Expr) (tail : List Byte) : Prop :=
  let done := scanAll readLogEntry (loadEntry L) (snapshotState L s) tail
  done.error = some .null ∧ SameTable done.state.table (snapshotState L s).table ∧
    done.state.historicalSequenceNumber = s.historicalSequenceNumber

def advance (s : ClassAdLog Expr) : ClassAdLog Expr :=
  { s with historicalSequenceNumber := s.historicalSequenceNumber + 1 }

/-- What an earlier rotation left in the temporary file does no harm behind the snapshot. -/
def StaleTailInert (env : RotateEnv) (s : ClassAdLog Expr) : Prop :=
  ∀ new, logState L s.advance = some new → TailInert L s.advance (env.oldTmp.drop new.length)

theorem tailInert_nil (s : ClassAdLog Expr) : TailInert L s [] :=
  ⟨rfl,fun _ => rfl,(snapshotState_fields L s).2.2⟩

/-- What an earlier rotation left in the temporary file is not longer than the new snapshot. -/
def LeftoverFits (env : RotateEnv) (s : ClassAdLog Expr) : Prop :=
  ∀ new, logState L s.advance = some new → env.oldTmp.length ≤ new.length

private theorem staleTailInert_of_leftoverFits {env : RotateEnv} (h : LeftoverFits L env s) :
    StaleTailInert L env s := by
  intro new hnew
  rw [drop_of_length_le (h new hnew)]
  exact tailInert_nil L s.advance

def WordAttrs (ad : ClassAd Expr) : Prop := ∀ a ∈ ad.attrList, IsWord a.1

def WordTable (t : ClassAdTable Expr) : Prop :=
  ∀ k, ∀ ad ∈ t.stack k, IsWord k ∧ WordAttrs ad

variable {L}

private theorem wordAttrs_insert (h : WordAttrs ad) {name : CString}
    (hn : IsWord name) (e : Expr) : WordAttrs (ad.insert name e) := by
  rw [ClassAd.insert]
  split
  · exact h
  · intro a ha
    rcases KeyedList.mem_insert ha with hk | ⟨x,hx,hk⟩
    · rw [hk]
      exact hn
    · rw [← hk]
      exact h x hx

private theorem wordAttrs_assignExpr (h : WordAttrs ad) {name : CString}
    (hn : IsWord name) (value : CString) : WordAttrs (ad.assignExpr L name value) := by
  rw [ClassAd.assignExpr]
  split
  · exact h
  · exact wordAttrs_insert h hn _

private theorem wordAttrs_newTyped (mytype targettype : CString) :
    WordAttrs (ClassAd.newTyped L mytype targettype) := by
  have hempty : WordAttrs (ClassAd.empty : ClassAd Expr) := fun a ha => by
    simp [ClassAd.empty] at ha
  have hnew : WordAttrs (ClassAd.new L) := by
    rw [ClassAd.new]
    split
    · exact hempty
    · exact wordAttrs_assignExpr hempty (by decide) _
  exact wordAttrs_insert (wordAttrs_insert hnew (by decide) _) (by decide) _

private theorem wordTable_play {r : LogRecord} (hr : r.ReadsBack)
    (ht : WordTable t) : WordTable (r.play L t) := by
  intro k ad had
  cases r with
  | newClassAd key mytype targettype =>
    rcases HashTable.mem_stack_insert had with had | ⟨rfl,rfl⟩
    · exact ht k ad had
    · exact ⟨hr.1,wordAttrs_newTyped mytype targettype⟩
  | destroyClassAd key =>
    rw [LogRecord.play] at had
    split at had
    · exact ht k ad had
    · exact ht k ad (HashTable.mem_stack_remove had)
  | setAttribute key name value isDirty =>
    rw [LogRecord.play] at had
    split at had
    · exact ht k ad had
    · rcases HashTable.mem_stack_adjust had with had | ⟨-,old,hold,rfl⟩
      · exact ht k ad had
      · exact ⟨(ht k old hold).1,wordAttrs_assignExpr (ht k old hold).2 hr.2.1 _⟩
  | deleteAttribute key name =>
    rw [LogRecord.play] at had
    split at had
    · exact ht k ad had
    · rcases HashTable.mem_stack_adjust had with had | ⟨-,old,hold,rfl⟩
      · exact ht k ad had
      · exact ⟨(ht k old hold).1,fun a ha => (ht k old hold).2 a (mem_of_mem_eraseP ha)⟩
  | beginTransaction | endTransaction | historicalSequenceNumber => exact ht k ad had

private theorem wordTable_playAll {rs : List LogRecord} (hrs : ∀ r ∈ rs, r.ReadsBack)
    (ht : WordTable t) : WordTable (playAll L rs t) := by
  induction rs generalizing t with
  | nil => exact ht
  | cons r rs ih =>
    exact ih (fun x hx => hrs x (by simp [hx])) (wordTable_play (hrs r (by simp)) ht)

private structure WordState (st : LoadState Expr) : Prop where
  table : WordTable st.table
  pending : ∀ tr, st.activeTransaction = some tr → ∀ r ∈ tr.orderedOpLog, r.ReadsBack

private theorem wordState_loadEntry {st : LoadState Expr} (h : WordState st) {r : LogRecord}
    (hr : r.ReadsBack) : WordState (loadEntry L st r) := by
  by_cases hk : r.getKey.isSome = true
  · cases ha : st.activeTransaction with
    | none =>
      rw [loadEntry_update ha ⟨r,hk⟩]
      exact ⟨wordTable_play hr h.table,fun tr htr => absurd (ha.symm.trans htr) (by simp)⟩
    | some tr =>
      obtain ⟨ht,hp⟩ := loadEntry_pending (L := L) ha ⟨r,hk⟩
      refine ⟨by rw [ht]; exact h.table,?_⟩
      intro tr' htr' x hx
      rw [hp] at htr'
      rw [← some.inj htr'] at hx
      rcases List.mem_append.mp hx with hx | hx
      · exact h.pending tr ha x hx
      · rw [List.mem_singleton.mp hx]
        exact hr
  · cases r with
    | beginTransaction =>
      refine ⟨h.table,?_⟩
      intro tr htr x hx
      cases ha : st.activeTransaction with
      | none =>
        rw [(loadEntry_begin (L := L) ha).2] at htr
        rw [← some.inj htr] at hx
        simp [Transaction.new] at hx
      | some tr' =>
        have htr' : some tr' = some tr := by simpa [loadEntry,ha] using htr
        rw [some.inj htr'] at ha
        exact h.pending tr ha x hx
    | endTransaction =>
      cases ha : st.activeTransaction with
      | none =>
        have hsame : loadEntry L st .endTransaction = { st with count := st.count + 1 } := by
          simp [loadEntry,ha]
        rw [hsame]
        exact ⟨h.table,h.pending⟩
      | some tr =>
        obtain ⟨ht,hp⟩ := loadEntry_end (L := L) ha
        refine ⟨?_,fun tr' htr' => absurd (hp.symm.trans htr') (by simp)⟩
        rw [ht]
        exact wordTable_playAll (h.pending tr ha) h.table
    | historicalSequenceNumber number timestamp => exact ⟨h.table,h.pending⟩
    | _ => exact absurd rfl hk

private theorem wordTable_load (now : UInt64) (file : List Byte) :
    WordTable (load L now file).state.table := by
  have h := scan_invariant (p := readLogEntry) (f := loadEntry L)
    (fun st s r rest (hst : WordState st) hr =>
      wordState_loadEntry hst (readLogEntry_readsBack hr))
    (file.length+1) (.initial now) file
    ⟨fun k ad had => by simp [LoadState.initial,newClassAdTable] at had,
      fun tr htr => by simp [LoadState.initial] at htr⟩
  exact h.table

private theorem words_of_replaysTo {log : List Byte} {seq : UInt64}
    (hu : t.Unique) (h : ReplaysTo L log t seq) :
    ∀ e ∈ t.entries, IsWord e.1 ∧ ∀ a ∈ e.2.attrList, IsWord a.1 := by
  intro e he
  have hsame := (h 0).2.1 e.1
  rw [hu.lookup_of_mem he,map_some] at hsame
  obtain ⟨ad,had,hlookup⟩ := Option.map_eq_some_iff.mp hsame
  rw [HashTable.lookup_eq_head?] at had
  obtain ⟨hk,hattrs⟩ := wordTable_load 0 log e.1 ad (mem_of_mem_head? had)
  refine ⟨hk,?_⟩
  intro a ha
  have hfound : ad.lookup a.1 = some a.2 := by
    rw [hlookup]
    exact KeyedList.find_of_mem strcaseeq_isEquiv e.2.distinct ha
  obtain ⟨a',ha',heq,-⟩ := KeyedList.mem_of_find hfound
  exact (hattrs a' ha').of_strcaseeq heq

variable (L)

/-- A rotation that fails changes nothing. After one that succeeds the file replays to a table that
can be expressed exactly when what an earlier rotation left behind it is inert. -/
theorem truncLog_replaysTo_iff {env : RotateEnv} {s s' : ClassAdLog Expr} {ok : Bool}
    (hu : s.table.Unique) (hrt : ∀ e ∈ s.table.entries, ∀ a ∈ e.2.attrList, RoundTrips L a.2)
    (h : s.truncLog L env = some (s',ok)) :
    (ok = false → s' = s) ∧
    (ok = true → s'.table = s.table ∧
      s'.historicalSequenceNumber = s.historicalSequenceNumber + 1 ∧
      ∃ log, s'.logFp = some log ∧
        (ReplaysTo L log s.table (s.historicalSequenceNumber + 1) →
          ∀ e ∈ s.table.entries, IsWord e.1 ∧ ∀ a ∈ e.2.attrList, IsWord a.1) ∧
        (Expressible L s.table →
          (ReplaysTo L log s.table (s.historicalSequenceNumber + 1) ↔
            StaleTailInert L env s))) := by
  rcases truncLog_cases L h with ⟨rfl,rfl⟩ | ⟨rfl,new,hnew,rfl⟩
  · exact ⟨fun _ => rfl,fun h => absurd h (by decide)⟩
  refine ⟨fun h => absurd h (by decide),fun _ => ⟨rfl,rfl,_,rfl,?_,?_⟩⟩
  · exact words_of_replaysTo hu
  · intro he
    have hsame : SameTable (snapshotState L s.advance).table s.table :=
      snapshotState_sameTable L hu hrt he.born
    have hload := fun now => load_logState L (s := s.advance) he hnew now
      (env.oldTmp.drop new.length)
    constructor
    · intro hr new' hnew'
      obtain rfl : new = new' := some.inj (hnew.symm.trans hnew')
      obtain ⟨herr,htab,hseq⟩ := hr 0
      rw [overwrite,hload] at herr htab hseq
      exact ⟨herr,fun k => (htab k).trans (hsame k).symm,hseq⟩
    · intro hinert now
      obtain ⟨herr,htab,hseq⟩ := hinert new hnew
      rw [overwrite,hload]
      exact ⟨herr,fun k => (htab k).trans (hsame k),hseq⟩

/-- A rotation that fails changes nothing. One that succeeds keeps a table that can be expressed, if
what an earlier rotation left is not longer than the new snapshot. -/
theorem truncLog_replaysTo {env : RotateEnv} {s s' : ClassAdLog Expr} {ok : Bool}
    (hu : s.table.Unique) (hrt : ∀ e ∈ s.table.entries, ∀ a ∈ e.2.attrList, RoundTrips L a.2)
    (h : s.truncLog L env = some (s',ok)) :
    (ok = false → s' = s) ∧
    (ok = true → s'.table = s.table ∧
      s'.historicalSequenceNumber = s.historicalSequenceNumber + 1 ∧
      ∃ log, s'.logFp = some log ∧
        (ReplaysTo L log s.table (s.historicalSequenceNumber + 1) →
          ∀ e ∈ s.table.entries, IsWord e.1 ∧ ∀ a ∈ e.2.attrList, IsWord a.1) ∧
        (Expressible L s.table → LeftoverFits L env s →
          ReplaysTo L log s.table (s.historicalSequenceNumber + 1))) := by
  obtain ⟨hfalse,htrue⟩ := truncLog_replaysTo_iff L hu hrt h
  refine ⟨hfalse,fun hok => ?_⟩
  obtain ⟨htab,hseq,log,hlog,hwords,hiff⟩ := htrue hok
  exact ⟨htab,hseq,log,hlog,hwords,fun he hfits =>
    (hiff he).mpr (staleTailInert_of_leftoverFits L hfits)⟩

def oneAdLog : ClassAdLog CString :=
  { (fresh 7 0 : ClassAdLog CString) with
    table := newClassAdTable.addItem (cstr "1.0")
      (.newTyped literals (cstr "Job") (cstr "Machine")) }

/-- Rotating a log with one job ad over a leftover shorter than the new content. -/
theorem truncLog_replaysTo_oneAd :
    let env : RotateEnv := ⟨true,true,bytes (cstr "107 1"),true,true⟩
    ∃ s' log, oneAdLog.truncLog literals env = some (s',true) ∧ s'.logFp = some log ∧
      ReplaysTo literals log oneAdLog.table 2 := by
  have hu : oneAdLog.table.Unique := by
    intro k
    have hnil : ((newClassAdTable : ClassAdTable CString).stack k).length ≤ 1 := by
      simp [newClassAdTable]
    have hstack := HashTable.stack_addItem (t := newClassAdTable) (k := cstr "1.0") rfl
      (ClassAd.newTyped literals (cstr "Job") (cstr "Machine")) hnil
    have hone : oneAdLog.table.stack k = _ := hstack
    rw [hone]
    split
    · simp
    · exact hnil
  have hvalues : ∀ e ∈ oneAdLog.table.entries, ∀ a ∈ e.2.attrList, a.2 ≠ [] := by
    decide
  have hrt : ∀ e ∈ oneAdLog.table.entries, ∀ a ∈ e.2.attrList, RoundTrips literals a.2 :=
    fun e he a ha => ⟨hvalues e he a ha,if_neg (hvalues e he a ha)⟩
  have hexpr : Expressible literals oneAdLog.table := by
    refine ⟨?_,?_,?_,?_,?_⟩
    · decide
    · decide
    · decide
    · decide
    · decide
  have hrot : oneAdLog.truncLog literals ⟨true,true,bytes (cstr "107 1"),true,true⟩ =
      some (_,true) := rfl
  have h := truncLog_replaysTo literals hu hrt hrot
  obtain ⟨-,-,log,hlog,-,hreplays⟩ := h.2 rfl
  refine ⟨_,log,rfl,hlog,hreplays hexpr ?_⟩
  intro new hnew
  obtain rfl := some.inj hnew
  decide

/-- The leftover of an earlier rotation brings a destroyed ad back, as the snapshot is written over
its front. -/
theorem truncLog_stale_tail :
    let env : RotateEnv := ⟨true,true,encode (.historicalSequenceNumber 2 7) ++
      encode (.newClassAd (cstr "1.0") (cstr "Job") (cstr "Machine")),true,true⟩
    (fresh 7 0 : ClassAdLog CString).table.Unique ∧
    ∃ s' log, (fresh 7 0).truncLog literals env = some (s',true) ∧ s'.logFp = some log ∧
      ¬ ReplaysTo literals log (fresh 7 0 : ClassAdLog CString).table 2 := by
  refine ⟨HashTable.unique_initializeWith _ _,_,_,rfl,rfl,?_⟩
  intro h
  have hsome := congrArg Option.isSome ((h 0).2.1 (cstr "1.0"))
  rw [isSome_map,isSome_map] at hsome
  exact absurd hsome (by decide)

end ClassAdLog

end Condor
