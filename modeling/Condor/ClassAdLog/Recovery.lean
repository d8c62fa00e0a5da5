import Condor.ClassAdLog.History

/-!
# Crash recovery

Whatever byte the log file is cut at, reading it back yields the table as it was after some number
of whole committed units.
-/

namespace Condor

open Lib Lib.Reader List Option

def LogRecord.logged : LogRecord → LogRecord
  | setAttribute key name value _ => setAttribute key name value false
  | r => r

theorem encode_logged (r : LogRecord) : encode r.logged = encode r := by
  cases r <;> rfl

theorem write_logged (r : LogRecord) : write r.logged = write r := by
  cases r <;> rfl

private theorem play_logged {Expr : Type} (L : ClassAdLanguage Expr) (r : LogRecord)
    (t : ClassAdTable Expr) : r.logged.play L t = r.play L t := by
  cases r <;> rfl

private theorem getKey_logged (r : LogRecord) : r.logged.getKey = r.getKey := by
  cases r <;> rfl

namespace ClassAdLog

variable {Expr : Type} (L : ClassAdLanguage Expr)

def Update.logged (r : Update) : Update := ⟨r.val.logged,by rw [getKey_logged]; exact r.property⟩

def CommitUnit.logged : CommitUnit → CommitUnit
  | record r => record r.logged
  | transaction rs => transaction (rs.map Update.logged)

theorem CommitUnit.records_logged (u : CommitUnit) :
    u.logged.records = u.records.map LogRecord.logged := by
  cases u <;> simp [CommitUnit.logged,CommitUnit.records,LogRecord.logged,Update.logged]

theorem playAll_logged (rs : List LogRecord) (t : ClassAdTable Expr) :
    playAll L (rs.map LogRecord.logged) t = playAll L rs t := by
  induction rs generalizing t with
  | nil => rfl
  | cons r rs ih =>
    simp only [playAll,map_cons,foldl_cons] at ih ⊢
    rw [play_logged,ih]

def replay (st : LoadState Expr) (rs : List LogRecord) : LoadState Expr :=
  rs.foldl (loadEntry L) st

theorem load_records (now : UInt64) (rs : List LogRecord) (h : ∀ r ∈ rs, r.ReadsBack)
    (tail : List Byte) :
    load L now (rs.flatMap encode ++ tail) =
      scanAll readLogEntry (loadEntry L) (replay L (.initial now) rs) tail :=
  scanAll_frames readLogEntry_consumes (e := .null) encode (loadEntry L) rs
    (fun r hr => readLogEntry_frames (h r hr)) (.initial now) tail

private theorem load_cut (now : UInt64) (rs : List LogRecord) (h : ∀ r ∈ rs, r.logged.ReadsBack)
    {file : List Byte} (hc : file <+: rs.flatMap encode) :
    ∃ k ≤ rs.length, (load L now file).error = some .null ∧
      (load L now file).state =
        replay L (.initial now) ((rs.take k).map LogRecord.logged) := by
  have henc : (rs.map LogRecord.logged).flatMap encode = rs.flatMap encode := by
    simp [flatMap_map,encode_logged]
  obtain ⟨k,hk,tail,-,hs⟩ := scanAll_cut readLogEntry_consumes readLogEntry_nil encode
    (loadEntry L) (rs.map LogRecord.logged) (by
      intro r hr
      obtain ⟨x,hx,rfl⟩ := List.mem_map.mp hr
      exact readLogEntry_frames (h x hx)) (LoadState.initial now) (henc ▸ hc)
  refine ⟨k,by simpa using hk,?_,?_⟩
  · rw [load,hs]
  · rw [load,hs,map_take]
    rfl

variable {L} {st : LoadState Expr}

theorem loadEntry_update (ha : st.activeTransaction = none) (r : Update) :
    loadEntry L st r.val =
      { st with count := st.count + 1, table := r.val.play L st.table } := by
  obtain ⟨r,hr⟩ := r
  cases r with
  | beginTransaction | endTransaction | historicalSequenceNumber => simp [LogRecord.getKey] at hr
  | _ => simp [loadEntry,ha]

theorem replay_updates (ha : st.activeTransaction = none) (rs : List LogRecord)
    (h : ∀ r ∈ rs, r.getKey.isSome = true) :
    replay L st rs =
      { st with count := st.count + rs.length, table := playAll L rs st.table } := by
  induction rs generalizing st with
  | nil => rfl
  | cons r rs ih =>
    have hload := loadEntry_update (L := L) ha ⟨r,h r (by simp)⟩
    have hidle : (loadEntry L st r).activeTransaction = none := by
      rw [hload]
      exact ha
    have hnext := ih hidle fun x hx => h x (by simp [hx])
    rw [replay,foldl_cons]
    rw [replay] at hnext
    rw [hnext,hload]
    simp only [playAll,foldl_cons,length_cons,Nat.add_assoc,Nat.add_comm 1]

variable {tr : Transaction}

theorem loadEntry_pending (ha : st.activeTransaction = some tr) (r : Update) :
    (loadEntry L st r.val).table = st.table ∧
      (loadEntry L st r.val).activeTransaction = some (tr.appendLog r.val) := by
  obtain ⟨r,hr⟩ := r
  cases r with
  | beginTransaction | endTransaction | historicalSequenceNumber => simp [LogRecord.getKey] at hr
  | _ => simp [loadEntry,ha]

private theorem replay_pending (ha : st.activeTransaction = some tr) (rs : List Update) :
    (replay L st (rs.map Subtype.val)).table = st.table ∧
      ∃ tr', (replay L st (rs.map Subtype.val)).activeTransaction = some tr' ∧
        tr'.orderedOpLog = tr.orderedOpLog ++ rs.map Subtype.val := by
  induction rs generalizing st tr with
  | nil => exact ⟨rfl,tr,ha,by simp⟩
  | cons r rs ih =>
    obtain ⟨ht,hp⟩ := loadEntry_pending (L := L) ha r
    obtain ⟨ht',tr',hp',ho⟩ := ih hp
    refine ⟨ht'.trans ht,tr',hp',?_⟩
    rw [ho]
    simp [Transaction.appendLog]

theorem loadEntry_begin (ha : st.activeTransaction = none) :
    (loadEntry L st .beginTransaction).table = st.table ∧
      (loadEntry L st .beginTransaction).activeTransaction = some .new := by
  simp [loadEntry,ha]

theorem loadEntry_end (ha : st.activeTransaction = some tr) :
    (loadEntry L st .endTransaction).table = playAll L tr.orderedOpLog st.table ∧
      (loadEntry L st .endTransaction).activeTransaction = none := by
  simp [loadEntry,ha,commitLoop_table]

theorem replay_unit (ha : st.activeTransaction = none) (u : CommitUnit) :
    (replay L st u.records).table = playAll L u.records st.table ∧
      (replay L st u.records).activeTransaction = none := by
  cases u with
  | record r =>
    have hload : replay L st (CommitUnit.record r).records = _ := loadEntry_update ha r
    rw [hload]
    exact ⟨rfl,ha⟩
  | transaction rs =>
    obtain ⟨ht,hp⟩ := loadEntry_begin (L := L) ha
    obtain ⟨ht',tr,hp',ho⟩ := replay_pending (L := L) hp rs
    have hsplit : replay L st (CommitUnit.transaction rs).records =
        loadEntry L (replay L (loadEntry L st .beginTransaction) (rs.map Subtype.val))
          .endTransaction := by
      simp [replay,CommitUnit.records]
    have hplay : playAll L (CommitUnit.transaction rs).records st.table =
        playAll L (rs.map Subtype.val) st.table := by
      simp [playAll,CommitUnit.records,LogRecord.play]
    obtain ⟨htab,hdone⟩ := loadEntry_end (L := L) hp'
    rw [hsplit,hplay]
    refine ⟨?_,hdone⟩
    rw [htab,ho,ht',ht]
    rfl

private theorem replay_unit_cut (ha : st.activeTransaction = none) (u : CommitUnit)
    {cut : List LogRecord} (hc : cut <+: u.records) (hne : cut ≠ u.records) :
    (replay L st cut).table = st.table := by
  cases u with
  | record r =>
    rcases List.prefix_cons_iff.mp hc with rfl | ⟨t,rfl,ht⟩
    · rfl
    · rw [List.prefix_nil.mp ht] at hne
      exact absurd rfl hne
  | transaction rs =>
    rcases List.prefix_cons_iff.mp hc with rfl | ⟨t,rfl,ht⟩
    · rfl
    · have hts : t <+: rs.map Subtype.val := by
        rcases List.prefix_concat_iff.mp ht with rfl | ht
        · exact absurd rfl hne
        · exact ht
      obtain ⟨ks,hks⟩ : ∃ ks : List Update, t = ks.map Subtype.val :=
        ⟨rs.take t.length,by rw [map_take]; exact List.prefix_iff_eq_take.mp hts⟩
      obtain ⟨hb,hp⟩ := loadEntry_begin (L := L) ha
      have hr := (replay_pending (L := L) hp ks).1
      rw [hks]
      exact hr.trans hb

private theorem replay_units (ha : st.activeTransaction = none) (us : List CommitUnit) :
    (replay L st (us.flatMap CommitUnit.records)).table = playUnits L us st.table ∧
      (replay L st (us.flatMap CommitUnit.records)).activeTransaction = none := by
  induction us generalizing st with
  | nil => exact ⟨rfl,ha⟩
  | cons u us ih =>
    obtain ⟨ht,hp⟩ := replay_unit (L := L) ha u
    have hsplit : replay L st ((u :: us).flatMap CommitUnit.records) =
        replay L (replay L st u.records) (us.flatMap CommitUnit.records) := by
      simp [replay]
    obtain ⟨ht',hp'⟩ := ih hp
    rw [hsplit]
    refine ⟨?_,hp'⟩
    rw [ht',ht]
    rfl

private theorem replay_units_cut (ha : st.activeTransaction = none) (us : List CommitUnit)
    {cut : List LogRecord} (hc : cut <+: us.flatMap CommitUnit.records) :
    ∃ n ≤ us.length, (replay L st cut).table = playUnits L (us.take n) st.table := by
  obtain ⟨n,hn,tail,rfl,ht⟩ := prefix_flatMap_cases CommitUnit.records us hc
  refine ⟨n,hn,?_⟩
  obtain ⟨htab,hp⟩ := replay_units (L := L) ha (us.take n)
  have hsplit : replay L st ((us.take n).flatMap CommitUnit.records ++ tail) =
      replay L (replay L st ((us.take n).flatMap CommitUnit.records)) tail := by
    simp [replay]
  rw [hsplit,← htab]
  rcases ht with rfl | ⟨u,-,hpre,hne⟩
  · rfl
  · exact replay_unit_cut hp u hpre hne

def fresh (now : UInt64) (maxHistoricalLogs : Int) : ClassAdLog Expr where
  table := newClassAdTable
  logFp := some (encode (.historicalSequenceNumber 1 now))
  activeTransaction := none
  nondurableLevel := 0
  historicalSequenceNumber := 1
  originalLogBirthdate := now
  maxHistoricalLogs := maxHistoricalLogs

theorem construct_nil (now : UInt64) (maxHistoricalLogs : Int) (env : RotateEnv) :
    construct L now maxHistoricalLogs env [] = some (fresh now maxHistoricalLogs) := by
  have hload : load L now [] = ⟨.initial now,some .null,[],[]⟩ := rfl
  simp [construct,hload,LoadState.initial,writeAt,overwrite,fresh,encode]

theorem truncLog_table {env : RotateEnv} {s s' : ClassAdLog Expr} {ok : Bool}
    (h : s.truncLog L env = some (s',ok)) : s'.table = s.table := by
  rcases truncLog_cases L h with ⟨-,rfl⟩ | ⟨-,new,-,rfl⟩ <;> rfl

theorem construct_table {now : UInt64} {m : Int} {env : RotateEnv} {file : List Byte}
    {s : ClassAdLog Expr} (h : construct L now m env file = some s) :
    s.table = (load L now file).state.table := by
  rw [construct] at h
  split at h
  · simp at h
  · dsimp only at h
    split at h
    · split at h
      · simp at h
      · next ht =>
        split at h
        · simp at h
        · rw [← some.inj h,truncLog_table ht]
    · rw [← some.inj h]

private theorem tracks_fresh (now : UInt64) (m : Int) :
    Tracks L (encode (.historicalSequenceNumber 1 now)) newClassAdTable .empty
      (fresh now m : ClassAdLog Expr) :=
  ⟨by simp [fresh,History.empty],rfl,rfl,by simp [History.empty]⟩

private theorem tracks_run {base : List Byte} {t0 : ClassAdTable Expr} {h : History}
    {s s' : ClassAdLog Expr} {calls : List Call} (ht : Tracks L base t0 h s)
    (ha : h.All fun r => r.logged.ReadsBack) (hrot : ∀ c ∈ calls, c.isTruncLog = false)
    (hgood : ∀ r, Call.appendLog r ∈ calls → r.val.logged.ReadsBack)
    (hrun : run (step L) s calls = some s') :
    Tracks L base t0 (calls.foldl History.step h) s' ∧
      (calls.foldl History.step h).All fun r => r.logged.ReadsBack := by
  induction calls generalizing h s with
  | nil =>
    obtain rfl := some.inj hrun
    exact ⟨ht,ha⟩
  | cons c calls ih =>
    obtain ⟨t,hs,hrun⟩ := run_cons_eq_some hrun
    have hwrite : ∀ rs, h.pending = some rs → ∀ r ∈ rs, (write r.val).2 = true := by
      intro rs hrs r hr
      have hb := ((readsBack_iff _).mp (ha.pending rs hrs r hr)).2
      rwa [write_logged] at hb
    apply ih (ht.step (hrot c (by simp)) (fun _ => hwrite) hs)
      (ha.step fun r hr => hgood r (by simp [hr]))
    · exact fun x hx => hrot x (by simp [hx])
    · exact fun r hr => hgood r (by simp [hr])
    · exact hrun

end ClassAdLog

/-- Keys, names and type names are words, and values have no newline. -/
def LogRecord.WordTexts : LogRecord → Prop
  | newClassAd key mytype targettype => IsWord key ∧ IsWord mytype ∧ IsWord targettype
  | destroyClassAd key => IsWord key
  | setAttribute key name value _ => IsWord key ∧ IsWord name ∧ NoNewline value.val
  | deleteAttribute key name => IsWord key ∧ IsWord name
  | _ => True

def LogRecord.NoPlaceholder : LogRecord → Prop
  | newClassAd _ mytype targettype =>
    mytype ≠ emptyClassAdTypeName ∧ targettype ≠ emptyClassAdTypeName
  | _ => True

instance : (r : LogRecord) → Decidable r.WordTexts
  | .newClassAd .. => inferInstanceAs (Decidable (_ ∧ _ ∧ _))
  | .destroyClassAd .. => inferInstanceAs (Decidable (IsWord _))
  | .setAttribute .. => inferInstanceAs (Decidable (_ ∧ _ ∧ _))
  | .deleteAttribute .. => inferInstanceAs (Decidable (_ ∧ _))
  | .beginTransaction => inferInstanceAs (Decidable True)
  | .endTransaction => inferInstanceAs (Decidable True)
  | .historicalSequenceNumber .. => inferInstanceAs (Decidable True)

theorem LogRecord.WordTexts.readsBack {r : LogRecord} (hw : r.WordTexts)
    (hp : r.NoPlaceholder) : r.logged.ReadsBack := by
  cases r with
  | newClassAd key mytype targettype =>
    exact ⟨hw.1,Or.inr ⟨hw.2.1,hp.1⟩,Or.inr ⟨hw.2.2,hp.2⟩⟩
  | setAttribute key name value isDirty => exact ⟨hw.1,hw.2.1,hw.2.2,rfl⟩
  | _ => exact hw

namespace ClassAdLog

variable {Expr : Type} (L : ClassAdLanguage Expr)

private theorem units_records_flatMap (us : List CommitUnit) :
    (us.flatMap CommitUnit.records).flatMap encode = us.flatMap CommitUnit.bytes := by
  rw [flatMap_assoc]
  rfl

private theorem records_readsBack {us : List CommitUnit}
    (h : ∀ u ∈ us, ∀ r ∈ u.updates, r.val.logged.ReadsBack) :
    ∀ r ∈ us.flatMap CommitUnit.records, r.logged.ReadsBack := by
  intro r hr
  obtain ⟨u,hu,hr⟩ := List.mem_flatMap.mp hr
  have hup := h u hu
  cases u with
  | record x =>
    rw [List.mem_singleton.mp hr]
    exact hup x (by simp [CommitUnit.updates])
  | transaction xs =>
    rw [CommitUnit.records,mem_cons,mem_append,mem_singleton] at hr
    rcases hr with rfl | hr | rfl
    · trivial
    · obtain ⟨x,hx,rfl⟩ := List.mem_map.mp hr
      exact hup x hx
    · trivial

private theorem playUnits_logged (us : List CommitUnit) (t : ClassAdTable Expr) :
    playUnits L (us.map CommitUnit.logged) t = playUnits L us t := by
  induction us generalizing t with
  | nil => rfl
  | cons u us ih =>
    rw [map_cons,playUnits,foldl_cons,CommitUnit.records_logged,playAll_logged]
    exact ih _

private theorem load_units_cut {us : List CommitUnit} (seq birthdate now : UInt64)
    (h : ∀ u ∈ us, ∀ r ∈ u.updates, r.val.logged.ReadsBack) {file : List Byte}
    (hc : file <+: encode (.historicalSequenceNumber seq birthdate) ++
      us.flatMap CommitUnit.bytes) :
    (load L now file).error = some .null ∧
      ∃ n ≤ us.length, (load L now file).state.table =
        playUnits L (us.take n) newClassAdTable := by
  have hbytes : encode (.historicalSequenceNumber seq birthdate) ++
      us.flatMap CommitUnit.bytes = ((.historicalSequenceNumber seq birthdate ::
        us.flatMap CommitUnit.records) : List LogRecord).flatMap encode := by
    rw [flatMap_cons,units_records_flatMap]
  obtain ⟨k,-,herr,hstate⟩ := load_cut L now _ (by
    intro r hr
    rcases List.mem_cons.mp hr with rfl | hr
    · trivial
    · exact records_readsBack h r hr) (hbytes ▸ hc)
  refine ⟨herr,?_⟩
  rw [hstate]
  cases k with
  | zero => exact ⟨0,by simp,rfl⟩
  | succ k =>
    have hcut : ((us.flatMap CommitUnit.records).take k).map LogRecord.logged <+:
        (us.map CommitUnit.logged).flatMap CommitUnit.records := by
      have hmap : (us.map CommitUnit.logged).flatMap CommitUnit.records =
          (us.flatMap CommitUnit.records).map LogRecord.logged := by
        rw [flatMap_map,map_flatMap]
        simp only [CommitUnit.records_logged]
      rw [hmap]
      exact (List.take_prefix k _).map _
    have hidle : (loadEntry L (.initial now)
        (.historicalSequenceNumber seq birthdate)).activeTransaction = none := rfl
    obtain ⟨n,hn,ht⟩ := replay_units_cut (L := L) hidle _ hcut
    refine ⟨n,by simpa using hn,?_⟩
    rw [← map_take,playUnits_logged] at ht
    exact ht

/-- A log file written by a run, cut at any byte, yields a table that was in memory after some
number of whole committed units. -/
theorem load_prefix_of_run {now : UInt64} {m : Int} {env : RotateEnv} {calls : List Call}
    {s0 s : ClassAdLog Expr} {log file : List Byte}
    (hwords : ∀ r, Call.appendLog r ∈ calls → r.val.WordTexts)
    (hplace : ∀ r, Call.appendLog r ∈ calls → r.val.NoPlaceholder)
    (hrot : ∀ c ∈ calls, c.isTruncLog = false)
    (h0 : construct L now m env [] = some s0) (hrun : run (step L) s0 calls = some s)
    (hlog : s.logFp = some log) (hfile : file <+: log) (now' : UInt64) :
    (load L now' file).error = some .null ∧
      (∃ n ≤ (committedUnits calls).length, (load L now' file).state.table =
        playUnits L ((committedUnits calls).take n) newClassAdTable) ∧
      (∃ k t, run (step L) s0 (calls.take k) = some t ∧
        (load L now' file).state.table = t.table) ∧
      ∀ m' env' s', construct L now' m' env' file = some s' →
        s'.table = (load L now' file).state.table := by
  rw [construct_nil] at h0
  obtain rfl := some.inj h0
  have hgood : ∀ r, Call.appendLog r ∈ calls → r.val.logged.ReadsBack :=
    fun r hr => (hwords r hr).readsBack (hplace r hr)
  have hnone : History.empty.All fun r => r.logged.ReadsBack :=
    ⟨by simp [History.empty],by simp [History.empty]⟩
  obtain ⟨ht,ha⟩ := tracks_run (tracks_fresh now m) hnone hrot hgood hrun
  rw [some.inj (hlog.symm.trans ht.file)] at hfile
  obtain ⟨herr,n,hn,htab⟩ := load_units_cut L 1 now now' ha.units hfile
  refine ⟨herr,⟨n,hn,htab⟩,?_,fun m' env' s' hs' => construct_table hs'⟩
  -- the units come one by one, so that `n` of them were committed at some point of the run
  obtain ⟨k,hk⟩ := History.units_take .empty calls (Nat.zero_le n) hn
  obtain ⟨t,hrunk⟩ := run_take hrun k
  have htk := (tracks_run (tracks_fresh now m) hnone
    (fun c hc => hrot c (mem_of_mem_take hc))
    (fun r hr => hgood r (mem_of_mem_take hr)) hrunk).1
  refine ⟨k,t,hrunk,?_⟩
  rw [htab,htk.table,hk]

def newAdCalls (mytype targettype : CString) : List Call :=
  [.appendLog ⟨.newClassAd (cstr "1.0") mytype targettype,rfl⟩]

/-- The log of one job ad, cut before the end of its line, loads as the empty table. -/
theorem load_prefix_of_run_job :
    let s0 : ClassAdLog CString := fresh 7 0
    let log := encode (.historicalSequenceNumber 1 7) ++
      encode (.newClassAd (cstr "1.0") (cstr "Job") (cstr "Machine"))
    (∃ s, run (step literals) s0 (newAdCalls (cstr "Job") (cstr "Machine")) = some s ∧
      s.logFp = some log) ∧
    (load literals 8 log.dropLast).error = some .null ∧
    ∃ k t, run (step literals) s0 ((newAdCalls (cstr "Job") (cstr "Machine")).take k) = some t ∧
      (load literals 8 log.dropLast).state.table = t.table := by
  have hrun : run (step literals) (fresh 7 0) (newAdCalls (cstr "Job") (cstr "Machine")) =
      some _ := rfl
  have hwords : ∀ r, Call.appendLog r ∈ newAdCalls (cstr "Job") (cstr "Machine") →
      r.val.WordTexts := by
    intro r hr
    rw [Call.appendLog.inj (List.mem_singleton.mp hr)]
    decide
  have hplace : ∀ r, Call.appendLog r ∈ newAdCalls (cstr "Job") (cstr "Machine") →
      r.val.NoPlaceholder := by
    intro r hr
    rw [Call.appendLog.inj (List.mem_singleton.mp hr)]
    exact ⟨by decide,by decide⟩
  have hrot : ∀ c ∈ newAdCalls (cstr "Job") (cstr "Machine"), c.isTruncLog = false := by
    intro c hc
    rw [List.mem_singleton.mp hc]
    rfl
  have h := load_prefix_of_run literals hwords hplace hrot
    (construct_nil 7 0 ⟨true,true,[],true,true⟩) hrun rfl (List.dropLast_prefix _) 8
  exact ⟨⟨_,hrun,rfl⟩,h.1,h.2.2.1⟩

/-- A type name spelled `(empty)` comes back as the empty one, in no table that was ever in
memory. -/
theorem load_run_placeholder :
    let calls := newAdCalls emptyClassAdTypeName (cstr "Machine")
    (∀ r, Call.appendLog r ∈ calls → r.val.WordTexts) ∧
    ∃ s log, run (step literals) (fresh 7 0) calls = some s ∧ s.logFp = some log ∧
      ∀ k t, run (step literals) (fresh 7 0) (calls.take k) = some t →
        (load literals 8 log).state.table ≠ t.table := by
  refine ⟨?_,_,_,rfl,rfl,?_⟩
  · intro r hr
    rw [Call.appendLog.inj (List.mem_singleton.mp hr)]
    decide
  · intro k t ht he
    have hl := congrArg (fun t : ClassAdTable CString =>
      (t.lookup (cstr "1.0")).map fun ad => ad.lookup attrMyType) he
    cases k with
    | zero =>
      obtain rfl := some.inj ht
      exact absurd hl (by decide)
    | succ k =>
      rw [newAdCalls,take_succ_cons,take_nil] at ht
      obtain rfl := some.inj ht
      exact absurd hl (by decide)

end ClassAdLog

end Condor
