import Condor.ClassAdLog.Rotation

/-!
# Log and memory agree

Replaying the log file yields the table in memory in every state that a run reaches, as long as the
records that get written read back, no nondurable commit meets one that cannot be written, and
rotations are harmless.
-/

namespace Condor

open Lib Lib.Reader List Option

namespace ClassAdLog

variable {Expr : Type} (L : ClassAdLanguage Expr)

def FreshKey (t : ClassAdTable Expr) : LogRecord → Prop
  | .newClassAd key _ _ => t.lookup key = none
  | _ => True

def FreshKeys : List LogRecord → ClassAdTable Expr → Prop
  | [], _ => True
  | r :: rs, t => FreshKey t r ∧ FreshKeys rs (r.play L t)

/-- The replayed table and the table in memory: equal before the first rotation, and equal as
maps without duplicate keys afterwards. -/
def Agree (rotated : Bool) (t t' : ClassAdTable Expr) : Prop :=
  if rotated then SameTable t t' ∧ t.Unique ∧ t'.Unique else t = t'

variable {rotated : Bool} {t t' : ClassAdTable Expr}

private theorem Agree.sameTable (h : Agree rotated t t') :
    SameTable t t' := by
  cases rotated with
  | true => exact h.1
  | false =>
    have he : t = t' := h
    rw [he]
    exact fun _ => rfl

private theorem lookup_assignExpr_congr {ad ad' : ClassAd Expr} (h : ad.lookup = ad'.lookup)
    (name value : CString) :
    (ad.assignExpr L name value).lookup = (ad'.assignExpr L name value).lookup := by
  rw [ClassAd.assignExpr,ClassAd.assignExpr]
  split
  · exact h
  · next e _ =>
    by_cases hn : name = []
    · simp only [ClassAd.insert,dif_pos hn]
      exact h
    · funext n
      rw [ClassAd.lookup_insert _ hn,ClassAd.lookup_insert _ hn,h]

private theorem lookup_delete_congr {ad ad' : ClassAd Expr} (h : ad.lookup = ad'.lookup)
    (name : CString) : (ad.delete name).lookup = (ad'.delete name).lookup := by
  funext n
  rw [ClassAd.lookup_delete,ClassAd.lookup_delete,h]

private theorem sameTable_adjust (h : SameTable t t') (key : CString)
    {g : ClassAd Expr → ClassAd Expr}
    (hg : ∀ ad ad' : ClassAd Expr, ad.lookup = ad'.lookup → (g ad).lookup = (g ad').lookup) :
    SameTable (t.adjust key g) (t'.adjust key g) := by
  intro k
  have hk := h k
  rw [HashTable.lookup_adjust,HashTable.lookup_adjust]
  split
  · cases ht : t.lookup k <;> cases ht' : t'.lookup k <;> simp [ht,ht'] at hk ⊢
    exact hg _ _ hk
  · exact hk

private theorem lookup_cases (h : SameTable t t') (k : CString) :
    (t.lookup k = none ∧ t'.lookup k = none) ∨
      ∃ ad ad', t.lookup k = some ad ∧ t'.lookup k = some ad' := by
  have hk := h k
  cases ht : t.lookup k <;> cases ht' : t'.lookup k <;> simp [ht,ht'] at hk ⊢

private theorem agree_play_rotated {r : LogRecord}
    (h : Agree true t t') (hr : FreshKey t' r) : Agree true (r.play L t) (r.play L t') := by
  obtain ⟨hsame,hu,hu'⟩ : SameTable t t' ∧ t.Unique ∧ t'.Unique := h
  change SameTable _ _ ∧ HashTable.Unique _ ∧ HashTable.Unique _
  cases r with
  | newClassAd key mytype targettype =>
    have hk' : t'.lookup key = none := hr
    have hk : t.lookup key = none := by
      rcases lookup_cases hsame key with ⟨hk,-⟩ | ⟨ad,ad',-,hs⟩
      · exact hk
      · rw [hk'] at hs
        exact absurd hs (by simp)
    simp only [LogRecord.play,HashTable.insert_absent hk,HashTable.insert_absent hk']
    refine ⟨?_,hu.addItem hk _,hu'.addItem hk' _⟩
    intro k
    rw [HashTable.lookup_addItem hu hk,HashTable.lookup_addItem hu' hk']
    split
    · rfl
    · exact hsame k
  | destroyClassAd key =>
    simp only [LogRecord.play]
    rcases lookup_cases hsame key with ⟨ht,ht'⟩ | ⟨ad,ad',ht,ht'⟩
    · rw [ht,ht']
      exact ⟨hsame,hu,hu'⟩
    · rw [ht,ht']
      refine ⟨?_,hu.remove key,hu'.remove key⟩
      intro k
      rw [HashTable.lookup_remove hu,HashTable.lookup_remove hu']
      split
      · rfl
      · exact hsame k
  | setAttribute key name value isDirty =>
    simp only [LogRecord.play]
    rcases lookup_cases hsame key with ⟨ht,ht'⟩ | ⟨ad,ad',ht,ht'⟩
    · rw [ht,ht']
      exact ⟨hsame,hu,hu'⟩
    · rw [ht,ht']
      exact ⟨sameTable_adjust hsame key fun _ _ h => lookup_assignExpr_congr L h _ _,
        hu.adjust key _,hu'.adjust key _⟩
  | deleteAttribute key name =>
    simp only [LogRecord.play]
    rcases lookup_cases hsame key with ⟨ht,ht'⟩ | ⟨ad,ad',ht,ht'⟩
    · rw [ht,ht']
      exact ⟨hsame,hu,hu'⟩
    · rw [ht,ht']
      exact ⟨sameTable_adjust hsame key fun _ _ h => lookup_delete_congr h _,
        hu.adjust key _,hu'.adjust key _⟩
  | beginTransaction | endTransaction | historicalSequenceNumber => exact ⟨hsame,hu,hu'⟩

private theorem agree_playAll {rs : List LogRecord}
    (h : Agree rotated t t') (hr : rotated = true → FreshKeys L rs t') :
    Agree rotated (playAll L rs t) (playAll L rs t') := by
  cases rotated with
  | false =>
    have he : t = t' := h
    rw [he]
    exact rfl
  | true =>
    have hfresh := hr rfl
    clear hr
    induction rs generalizing t t' with
    | nil => exact h
    | cons r rs ih => exact ih (agree_play_rotated L h hfresh.1) hfresh.2

structure Traced (Expr : Type) where
  log : ClassAdLog Expr
  rotated : Bool

def tracedStep (x : Traced Expr) (c : Call) : Option (Traced Expr) :=
  (x.log.step L c).map fun s => ⟨s,x.rotated || c.isTruncLog⟩

/-- Records that are played as they are read back: what gets written is words, and after a rotation
no key is made twice. -/
def Loggable (rotated : Bool) (t : ClassAdTable Expr) (rs : List LogRecord) : Prop :=
  (∀ r ∈ rs, (write r).2 = true → r.logged.TextsAreWords) ∧
    (rotated = true → FreshKeys L rs t)

/-- When a rotation is harmless: distinct keys, expressible texts, values that round-trip, and no
longer file left by an earlier rotation. -/
structure RotatesSafely (env : RotateEnv) (s : ClassAdLog Expr) : Prop where
  unique : s.table.Unique
  roundTrips : ∀ e ∈ s.table.entries, ∀ a ∈ e.2.attrList, RoundTrips L a.2
  expressible : Expressible L s.table
  noTail : LeftoverFits L env s

/-- The condition on a call and the log before it. -/
def KeepsStep (x : Traced Expr) (c : Call) : Prop :=
  match c with
  | .appendLog r => x.log.activeTransaction = none → Loggable L x.rotated x.log.table [r.val]
  | .commitTransaction | .commitNondurableTransaction =>
    ∀ tr, x.log.activeTransaction = some tr →
      Loggable L x.rotated x.log.table tr.orderedOpLog ∧
      (commitsNondurably x.log c = true → ∀ r ∈ tr.orderedOpLog, (write r).2 = true)
  | .truncLog env => RotatesSafely L env x.log
  | _ => True

/-- The reading loop behind the whole log has a table that agrees with the one in memory, and
the active transaction holds updates only. -/
structure InStep (x : Traced Expr) : Prop where
  reads : ∃ file st, x.log.logFp = some file ∧
    (∀ now tail, load L now (file ++ tail) = scanAll readLogEntry (loadEntry L) st tail) ∧
    st.activeTransaction = none ∧ Agree x.rotated st.table x.log.table
  updates : ∃ rs : Option (List Update),
    x.log.activeTransaction.map Transaction.orderedOpLog = rs.map openRecords

variable {L}

variable {t : ClassAdTable Expr}

private theorem freshKeys_append {rs rs' : List LogRecord}
    (h : FreshKeys L rs t) (h' : FreshKeys L rs' (playAll L rs t)) :
    FreshKeys L (rs ++ rs') t := by
  induction rs generalizing t with
  | nil => exact h'
  | cons r rs ih => exact ⟨h.1,ih h.2 h'⟩

private theorem loggable_transaction {rs : List Update}
    (hne : rs ≠ []) (h : Loggable L rotated t (openRecords rs)) :
    Loggable L rotated t (CommitUnit.transaction rs).records := by
  have hrec : (CommitUnit.transaction rs).records = openRecords rs ++ [.endTransaction] := by
    simp [CommitUnit.records,openRecords,hne]
  rw [hrec]
  refine ⟨?_,fun hrot => freshKeys_append (h.2 hrot) ⟨trivial,trivial⟩⟩
  intro r hr hw
  rcases List.mem_append.mp hr with hr | hr
  · exact h.1 r hr hw
  · rw [List.mem_singleton.mp hr]
    trivial

variable {rs : Option (List Update)}

private theorem loggable_commit {active : Option Transaction} {u : CommitUnit}
    (hp : active.map Transaction.orderedOpLog = rs.map openRecords)
    (h : ∀ tr, active = some tr → Loggable L rotated t tr.orderedOpLog)
    (hu : (History.commit ⟨rs,[]⟩).units = [u]) : Loggable L rotated t u.records := by
  match rs with
  | none => simp [History.commit] at hu
  | some [] => simp [History.commit] at hu
  | some (r :: rs) =>
    obtain ⟨tr,htr,hlog⟩ := Option.map_eq_some_iff.mp hp
    have hu' : [CommitUnit.transaction (r :: rs)] = [u] := hu
    rw [← List.singleton_inj.mp hu']
    apply loggable_transaction (by simp)
    rw [← hlog]
    exact h tr htr

variable {x : Traced Expr}

private theorem loggable_unit {c : Call} (hc : KeepsStep L x c)
    (hp : x.log.activeTransaction.map Transaction.orderedOpLog = rs.map openRecords)
    {u : CommitUnit} (hu : (History.step ⟨rs,[]⟩ c).units = [u]) :
    Loggable L x.rotated x.log.table u.records := by
  cases c with
  | appendLog r =>
    cases rs with
    | none =>
      have hu' : [CommitUnit.record r] = [u] := hu
      rw [← List.singleton_inj.mp hu']
      exact hc (by simpa using hp)
    | some rs => simp [History.step] at hu
  | commitTransaction
  | commitNondurableTransaction => exact loggable_commit hp (fun tr htr => (hc tr htr).1) hu
  | _ => simp [History.step] at hu

private theorem writable_pending {c : Call} (hc : KeepsStep L x c)
    (hp : x.log.activeTransaction.map Transaction.orderedOpLog = rs.map openRecords)
    (hnd : commitsNondurably x.log c = true) :
    ∀ xs, rs = some xs → ∀ r ∈ xs, (write r.val).2 = true := by
  intro xs hxs r hr
  rw [hxs] at hp
  obtain ⟨tr,htr,hlog⟩ := Option.map_eq_some_iff.mp hp
  have hmem : r.val ∈ tr.orderedOpLog := by
    rw [hlog,openRecords,if_neg (ne_nil_of_mem hr)]
    exact mem_cons_of_mem _ (mem_map_of_mem hr)
  cases c with
  | commitTransaction | commitNondurableTransaction => exact (hc tr htr).2 hnd r.val hmem
  | _ => simp [commitsNondurably] at hnd

private theorem scanAll_unit {u : CommitUnit}
    (hw : ∀ r ∈ u.records, (write r).2 = true) (hl : Loggable L rotated t u.records)
    (st : LoadState Expr) (tail : List Byte) :
    scanAll readLogEntry (loadEntry L) st (u.bytes ++ tail) =
      scanAll readLogEntry (loadEntry L) (replay L st u.logged.records) tail := by
  have henc : u.bytes = u.logged.records.flatMap encode := by
    rw [CommitUnit.records_logged,flatMap_map,CommitUnit.bytes]
    simp only [encode_logged]
  rw [henc]
  apply scanAll_frames readLogEntry_consumes (e := .null)
  intro r hr
  rw [CommitUnit.records_logged] at hr
  obtain ⟨y,hy,rfl⟩ := List.mem_map.mp hr
  apply readLogEntry_frames
  rw [readsBack_iff,write_logged]
  exact ⟨hl.1 y hy (hw y hy),hw y hy⟩

private theorem inStep_call (h : InStep L x) {c : Call}
    (hc : KeepsStep L x c) (htr : c.isTruncLog = false) {s : ClassAdLog Expr}
    (hs : x.log.step L c = some s) : InStep L ⟨s,x.rotated⟩ := by
  obtain ⟨⟨file,st,hfile,hload,hidle,hagree⟩,rs,hp⟩ := h
  have ht : Tracks L file x.log.table ⟨rs,[]⟩ x.log :=
    ⟨by simpa using hfile,rfl,hp,by simp⟩
  have ht' := ht.step htr (fun hnd => writable_pending hc hp hnd) hs
  refine ⟨?_,_,ht'.pending⟩
  rcases History.units_step ⟨rs,[]⟩ c with hu | ⟨u,hu⟩
  · refine ⟨file,st,?_,hload,hidle,?_⟩
    · rw [ht'.file,hu]
      simp
    · rw [ht'.table,hu]
      exact hagree
  · have hu' : (History.step ⟨rs,[]⟩ c).units = [u] := hu
    have hl := loggable_unit hc hp hu'
    have hw := ht'.written u (by rw [hu']; simp)
    obtain ⟨htab,hidle'⟩ := replay_unit (L := L) hidle u.logged
    refine ⟨file ++ u.bytes,replay L st u.logged.records,?_,?_,hidle',?_⟩
    · rw [ht'.file,hu']
      simp
    · intro now tail
      rw [append_assoc,hload,scanAll_unit hw hl]
    · rw [htab,CommitUnit.records_logged,playAll_logged,ht'.table,hu']
      exact agree_playAll L hagree hl.2

private theorem inStep_truncLog (h : InStep L x) {env : RotateEnv}
    (hc : RotatesSafely L env x.log) {s : ClassAdLog Expr} {ok : Bool}
    (hs : x.log.truncLog L env = some (s,ok)) : InStep L ⟨s,true⟩ := by
  obtain ⟨⟨file,st,hfile,hload,hidle,hagree⟩,rs,hp⟩ := h
  rcases truncLog_cases L hs with ⟨-,rfl⟩ | ⟨-,new,hnew,rfl⟩
  · refine ⟨⟨file,st,hfile,hload,hidle,?_⟩,rs,hp⟩
    cases hrot : x.rotated with
    | true => rw [hrot] at hagree; exact hagree
    | false =>
      rw [hrot] at hagree
      have he : st.table = x.log.table := hagree
      exact ⟨hagree.sameTable,by rw [he]; exact hc.unique,hc.unique⟩
  · have hnone : env.oldTmp.drop new.length = [] := drop_of_length_le (hc.noTail new hnew)
    refine ⟨⟨_,snapshotState L x.log.advance,rfl,?_,(snapshotState_fields L _).2.1,?_⟩,rs,hp⟩
    · intro now tail
      rw [overwrite,hnone,append_nil]
      exact load_logState L (s := x.log.advance) hc.expressible hnew now tail
    · exact ⟨snapshotState_sameTable L hc.unique hc.roundTrips hc.expressible.born,
        snapshotState_unique L hc.unique,hc.unique⟩

private theorem inStep_step {x y : Traced Expr} {c : Call} (h : InStep L x) (hc : KeepsStep L x c)
    (hs : tracedStep L x c = some y) : InStep L y := by
  obtain ⟨s,hcall,rfl⟩ := Option.map_eq_some_iff.mp hs
  cases htr : c.isTruncLog with
  | false =>
    rw [Bool.or_false]
    exact inStep_call h hc htr hcall
  | true =>
    cases c with
    | truncLog env =>
      obtain ⟨⟨s',ok⟩,hrot,rfl⟩ := Option.map_eq_some_iff.mp hcall
      rw [Bool.or_true]
      exact inStep_truncLog h hc hrot
    | _ => simp [Call.isTruncLog] at htr

private theorem inStep_fresh (now : UInt64) (m : Int) : InStep L ⟨fresh now m,false⟩ := by
  refine ⟨⟨_,loadEntry L (.initial now) (.historicalSequenceNumber 1 now),rfl,?_,rfl,rfl⟩,none,rfl⟩
  intro now' tail
  have h := load_records L now' [.historicalSequenceNumber 1 now] (by
    intro r hr
    rw [List.mem_singleton.mp hr]
    trivial) tail
  rw [flatMap_cons,flatMap_nil,append_nil] at h
  exact h

private theorem run_traced {s s' : ClassAdLog Expr} {calls : List Call} (rotated : Bool)
    (h : run (step L) s calls = some s') :
    ∃ rotated', run (tracedStep L) ⟨s,rotated⟩ calls = some ⟨s',rotated'⟩ := by
  induction calls generalizing s rotated with
  | nil =>
    obtain rfl := some.inj h
    exact ⟨rotated,rfl⟩
  | cons c calls ih =>
    obtain ⟨t,ht,h⟩ := run_cons_eq_some h
    obtain ⟨rotated',hr⟩ := ih (rotated || c.isTruncLog) h
    refine ⟨rotated',?_⟩
    rw [run,tracedStep,ht]
    exact hr

variable (L)

/-- In every state that a run of admissible calls reaches, reading the log file back yields the
table in memory. -/
theorem load_sameTable_of_run {now : UInt64} {m : Int} {env : RotateEnv} {calls : List Call}
    {s0 s : ClassAdLog Expr} (h0 : construct L now m env [] = some s0)
    (hok : Along (tracedStep L) (KeepsStep L) ⟨s0,false⟩ calls)
    (hrun : run (step L) s0 calls = some s) :
    ∃ file, s.logFp = some file ∧ ∀ now', (load L now' file).error = some .null ∧
      SameTable (load L now' file).state.table s.table := by
  rw [construct_nil] at h0
  obtain rfl := some.inj h0
  obtain ⟨rotated,hrun⟩ := run_traced false hrun
  obtain ⟨⟨file,st,hfile,hload,-,hagree⟩,-⟩ := run_invariant
    (fun _ _ _ h hc hs => inStep_step h hc hs) hok (inStep_fresh now m) hrun
  refine ⟨file,hfile,fun now' => ?_⟩
  have hl := hload now' []
  rw [append_nil] at hl
  rw [hl]
  exact ⟨rfl,hagree.sameTable⟩

def setInTransaction (value : CString) : List Call :=
  [.beginTransaction,.appendLog newJob,.appendLog (cmdUpdate value),.commitNondurableTransaction]

/-- A nondurable commit of an attribute on one line. -/
theorem load_sameTable_of_run_attribute :
    ∃ s file, run (step literals) (fresh 7 0) (setInTransaction (cstr "1")) = some s ∧
      s.logFp = some file ∧ SameTable (load literals 8 file).state.table s.table := by
  have hrun : run (step literals) (fresh 7 0) (setInTransaction (cstr "1")) = some _ := rfl
  have hok : Along (tracedStep literals) (KeepsStep literals) ⟨fresh 7 0,false⟩
      (setInTransaction (cstr "1")) := by
    refine ⟨trivial,?_⟩
    intro x1 h1
    obtain rfl := some.inj h1
    refine ⟨fun h => absurd h (some_ne_none _),?_⟩
    intro x2 h2
    obtain rfl := some.inj h2
    refine ⟨fun h => absurd h (some_ne_none _),?_⟩
    intro x3 h3
    obtain rfl := some.inj h3
    refine ⟨?_,fun _ _ => trivial⟩
    intro tr htr
    obtain rfl := some.inj htr
    refine ⟨⟨?_,fun h => absurd h Bool.false_ne_true⟩,fun _ => ?_⟩
    · decide
    · decide
  obtain ⟨file,hfile,hsame⟩ := load_sameTable_of_run literals
    (construct_nil 7 0 ⟨true,true,[],true,true⟩) hok hrun
  exact ⟨_,file,hrun,hfile,(hsame 8).2⟩

/-- A nondurable commit plays a value with a newline although the log refuses it, and leaves a
transaction without an end. -/
theorem load_run_refused_value :
    ∃ s file, run (step literals) (fresh 7 0) (setInTransaction (cstr "1 +\n2")) = some s ∧
      s.logFp = some file ∧ ¬ SameTable (load literals 8 file).state.table s.table := by
  refine ⟨_,_,rfl,rfl,?_⟩
  intro h
  have hsome := congrArg Option.isSome (h (cstr "1.0"))
  rw [isSome_map,isSome_map] at hsome
  exact absurd hsome (by decide)

end ClassAdLog

end Condor
