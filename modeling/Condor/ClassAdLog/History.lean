import Condor.ClassAdLog.Log
import Condor.ClassAdLog.RoundTrip

/-!
# Committed units

The history of a run as its caller sees it: one unit for every record appended outside a
transaction and one for every nonempty transaction that was committed.
-/

namespace Condor

open Lib List Option

namespace ClassAdLog

inductive CommitUnit where
  | record (r : Update)
  | transaction (rs : List Update)

def CommitUnit.updates : CommitUnit → List Update
  | record r => [r]
  | transaction rs => rs

def CommitUnit.records : CommitUnit → List LogRecord
  | record r => [r.val]
  | transaction rs => .beginTransaction :: (rs.map Subtype.val ++ [.endTransaction])

def CommitUnit.bytes (u : CommitUnit) : List Byte := u.records.flatMap encode

structure History where
  pending : Option (List Update)
  units : List CommitUnit

def History.empty : History := ⟨none,[]⟩

def History.commit (h : History) : History :=
  match h.pending with
  | none => h
  | some [] => ⟨none,h.units⟩
  | some (r :: rs) => ⟨none,h.units ++ [.transaction (r :: rs)]⟩

def History.step (h : History) : Call → History
  | .appendLog r =>
    match h.pending with
    | none => ⟨none,h.units ++ [.record r]⟩
    | some rs => ⟨some (rs ++ [r]),h.units⟩
  | .beginTransaction => ⟨some [],h.units⟩
  | .abortTransaction => ⟨none,h.units⟩
  | .commitTransaction => h.commit
  | .commitNondurableTransaction => h.commit
  | .incNondurableCommitLevel => h
  | .decNondurableCommitLevel _ => h
  | .truncLog _ => h

def committedUnits (calls : List Call) : List CommitUnit :=
  (calls.foldl History.step .empty).units

variable {Expr : Type} (L : ClassAdLanguage Expr)

def playUnits (us : List CommitUnit) (t : ClassAdTable Expr) : ClassAdTable Expr :=
  us.foldl (fun t u => playAll L u.records t) t

def openRecords (rs : List Update) : List LogRecord :=
  if rs = [] then [] else .beginTransaction :: rs.map Subtype.val

/-- The log has grown from a base file and a base table by the units of a history. -/
structure Tracks (base : List Byte) (t0 : ClassAdTable Expr) (h : History)
    (s : ClassAdLog Expr) : Prop where
  file : s.logFp = some (base ++ h.units.flatMap CommitUnit.bytes)
  table : s.table = playUnits L h.units t0
  pending : s.activeTransaction.map Transaction.orderedOpLog = h.pending.map openRecords
  written : ∀ u ∈ h.units, ∀ r ∈ u.records, (write r).2 = true

def commitsNondurably (s : ClassAdLog Expr) : Call → Bool
  | .commitTransaction => 0 < s.nondurableLevel
  | .commitNondurableTransaction => 0 < s.nondurableLevel + 1
  | _ => false

def Call.isTruncLog : Call → Bool
  | .truncLog _ => true
  | _ => false

theorem History.units_step (h : History) (c : Call) :
    (h.step c).units = h.units ∨ ∃ u, (h.step c).units = h.units ++ [u] := by
  obtain ⟨pending,units⟩ := h
  cases c with
  | appendLog r =>
    cases pending with
    | none => exact .inr ⟨.record r,rfl⟩
    | some rs => exact .inl rfl
  | commitTransaction | commitNondurableTransaction =>
    match pending with
    | none => exact .inl rfl
    | some [] => exact .inl rfl
    | some (r :: rs) => exact .inr ⟨.transaction (r :: rs),rfl⟩
  | _ => exact .inl rfl

private theorem History.units_prefix (h : History) (calls : List Call) :
    h.units <+: (calls.foldl History.step h).units := by
  induction calls generalizing h with
  | nil => exact prefix_rfl
  | cons c calls ih =>
    rcases h.units_step c with hu | ⟨u,hu⟩
    · rw [← hu]
      exact ih _
    · have hpre := ih (h.step c)
      rw [hu] at hpre
      exact (prefix_append _ _).trans hpre

theorem History.units_take (h : History) (calls : List Call) {n : Nat}
    (hlo : h.units.length ≤ n) (hhi : n ≤ (calls.foldl History.step h).units.length) :
    ∃ k, ((calls.take k).foldl History.step h).units =
      (calls.foldl History.step h).units.take n := by
  induction calls generalizing h with
  | nil => exact ⟨0,(take_of_length_le hlo).symm⟩
  | cons c calls ih =>
    rcases Nat.eq_or_lt_of_le hlo with rfl | hlt
    · exact ⟨0,List.prefix_iff_eq_take.mp (h.units_prefix (c :: calls))⟩
    · have hlen : (h.step c).units.length ≤ n := by
        rcases h.units_step c with hu | ⟨u,hu⟩
        · rw [hu]
          exact hlo
        · rw [hu]
          simpa using hlt
      obtain ⟨k,hk⟩ := ih (h.step c) hlen hhi
      exact ⟨k+1,hk⟩

structure History.All (P : LogRecord → Prop) (h : History) : Prop where
  units : ∀ u ∈ h.units, ∀ r ∈ u.updates, P r.val
  pending : ∀ rs, h.pending = some rs → ∀ r ∈ rs, P r.val

theorem History.All.commit {P : LogRecord → Prop} {h : History} (ha : h.All P) :
    h.commit.All P := by
  obtain ⟨pending,units⟩ := h
  match pending with
  | none => exact ha
  | some [] => exact ⟨ha.units,by simp [History.commit]⟩
  | some (x :: xs) =>
    refine ⟨?_,by simp [History.commit]⟩
    intro u hu
    rcases List.mem_append.mp hu with hu | hu
    · exact ha.units u hu
    · rw [List.mem_singleton.mp hu]
      exact ha.pending _ rfl

theorem History.All.step {P : LogRecord → Prop} {h : History} (ha : h.All P) {c : Call}
    (hc : ∀ r, c = .appendLog r → P r.val) : (h.step c).All P := by
  cases c with
  | appendLog x =>
    obtain ⟨pending,units⟩ := h
    cases pending with
    | none =>
      refine ⟨?_,by simp [History.step]⟩
      intro u hu
      rcases List.mem_append.mp hu with hu | hu
      · exact ha.units u hu
      · rw [List.mem_singleton.mp hu]
        intro r hr
        rw [List.mem_singleton.mp hr]
        exact hc x rfl
    | some xs =>
      refine ⟨ha.units,?_⟩
      intro rs hrs r hr
      rw [← some.inj hrs] at hr
      rcases List.mem_append.mp hr with hr | hr
      · exact ha.pending xs rfl r hr
      · rw [List.mem_singleton.mp hr]
        exact hc x rfl
  | beginTransaction | abortTransaction => exact ⟨ha.units,by simp [History.step]⟩
  | commitTransaction | commitNondurableTransaction => exact ha.commit
  | _ => exact ha

private theorem commitLoop_stopped (rs : List LogRecord) (fp : Option (List Byte))
    (t : ClassAdTable Expr) : (commitLoop L rs ⟨fp,false⟩ t).1 = ⟨fp,false⟩ := by
  induction rs generalizing t with
  | nil => rfl
  | cons r rs ih =>
    have hw : writeWithStatus ⟨fp,false⟩ r = ⟨fp,false⟩ := by
      cases fp <;> rfl
    rw [commitLoop,foldl_cons,hw]
    exact ih _

private theorem commitLoop_stream (rs : List LogRecord) (file : List Byte) (t : ClassAdTable Expr) :
    ((∀ r ∈ rs, (write r).2 = true) ∧
      (commitLoop L rs ⟨some file,true⟩ t).1 = ⟨some (file ++ rs.flatMap encode),true⟩) ∨
    ((∃ r ∈ rs, (write r).2 = false) ∧
      (commitLoop L rs ⟨some file,true⟩ t).1.whyOk = false) := by
  induction rs generalizing file t with
  | nil => exact .inl ⟨by simp,by simp [commitLoop]⟩
  | cons r rs ih =>
    have hstep : commitLoop L (r :: rs) ⟨some file,true⟩ t =
        commitLoop L rs ⟨some (file ++ encode r),(write r).2⟩ (r.play L t) := rfl
    rw [hstep]
    cases hr : (write r).2 with
    | false =>
      rw [commitLoop_stopped]
      exact .inr ⟨⟨r,by simp,hr⟩,rfl⟩
    | true =>
      rcases ih (file ++ encode r) (r.play L t) with ⟨hall,hs⟩ | ⟨⟨x,hx,hw⟩,hs⟩
      · refine .inl ⟨?_,?_⟩
        · intro x hx
          rcases List.mem_cons.mp hx with rfl | hx
          · exact hr
          · exact hall x hx
        · rw [hs]
          simp
      · exact .inr ⟨⟨x,by simp [hx],hw⟩,hs⟩

private theorem commit_eq_some {tr : Transaction} {file : List Byte} {t : ClassAdTable Expr}
    {nondurable : Bool} {res : Option (List Byte) × ClassAdTable Expr}
    (hnd : nondurable = true → ∀ r ∈ tr.orderedOpLog, (write r).2 = true)
    (h : tr.commit L (some file) t nondurable = some res) :
    (∀ r ∈ tr.orderedOpLog, (write r).2 = true) ∧
      res = (some (file ++ tr.orderedOpLog.flatMap encode),playAll L tr.orderedOpLog t) := by
  rw [Transaction.commit] at h
  have hok : ∀ r ∈ tr.orderedOpLog, (write r).2 = true := by
    cases nondurable with
    | true => exact hnd rfl
    | false =>
      rcases commitLoop_stream L tr.orderedOpLog file t with ⟨hall,-⟩ | ⟨-,hs⟩
      · exact hall
      · simp [hs] at h
  refine ⟨hok,?_⟩
  rcases commitLoop_stream L tr.orderedOpLog file t with ⟨-,hs⟩ | ⟨⟨r,hr,hw⟩,-⟩
  · simp only [hs,Bool.not_true,Bool.and_false] at h
    rw [← some.inj h,commitLoop_table]
  · rw [hok r hr] at hw
    exact absurd hw (by decide)

section

variable {L} {base : List Byte} {t0 : ClassAdTable Expr} {h : History} {s s' : ClassAdLog Expr}

private theorem playUnits_snoc (us : List CommitUnit) (u : CommitUnit) (t : ClassAdTable Expr) :
    playUnits L (us ++ [u]) t = playAll L u.records (playUnits L us t) := by
  simp [playUnits]

private theorem flatMap_snoc (us : List CommitUnit) (u : CommitUnit) :
    (us ++ [u]).flatMap CommitUnit.bytes = us.flatMap CommitUnit.bytes ++ u.bytes := by
  simp

private theorem written_snoc {us : List CommitUnit} {u : CommitUnit}
    (h : ∀ v ∈ us, ∀ r ∈ v.records, (write r).2 = true) (hu : ∀ r ∈ u.records, (write r).2 = true) :
    ∀ v ∈ us ++ [u], ∀ r ∈ v.records, (write r).2 = true := by
  intro v hv
  rcases List.mem_append.mp hv with hv | hv
  · exact h v hv
  · rw [List.mem_singleton.mp hv]
    exact hu

private theorem tracks_appendLog (ht : Tracks L base t0 h s) (r : Update)
    (hs : s.appendLog L r.val = some s') : Tracks L base t0 (h.step (.appendLog r)) s' := by
  have hp := ht.pending
  rw [appendLog] at hs
  cases ha : s.activeTransaction with
  | none =>
    rw [ha] at hp
    have hnone : h.pending = none := by simpa using hp.symm
    simp only [ha,ht.file] at hs
    split at hs
    · next hwrite =>
      obtain rfl := some.inj hs
      refine ⟨?_,?_,?_,?_⟩
      · simp [History.step,hnone,CommitUnit.bytes,CommitUnit.records,encode]
      · simp [History.step,hnone,playUnits_snoc,CommitUnit.records,playAll,ht.table]
      · simp [History.step,hnone]
      · simp only [History.step,hnone]
        apply written_snoc ht.written
        intro x hx
        rw [List.mem_singleton.mp hx]
        exact hwrite
    · simp at hs
  | some tr =>
    rw [ha,map_some] at hp
    obtain ⟨rs,hrs,hopen⟩ := Option.map_eq_some_iff.mp hp.symm
    simp only [ha] at hs
    obtain rfl := some.inj hs
    refine ⟨?_,?_,?_,?_⟩
    · simp only [History.step,hrs]
      exact ht.file
    · simp only [History.step,hrs]
      exact ht.table
    rotate_left
    · simp only [History.step,hrs]
      exact ht.written
    · have hempty : tr.emptyTransaction = rs.isEmpty := by
        rw [tr.flagged,← hopen,openRecords]
        cases rs <;> simp
      simp only [History.step,hrs,map_some,hempty]
      cases rs with
      | nil =>
        have hnil : tr.orderedOpLog = [] := hopen.symm
        simp [openRecords,Transaction.appendLog,hnil]
      | cons x rs =>
        have hcons : tr.orderedOpLog = .beginTransaction :: (x :: rs).map Subtype.val :=
          hopen.symm
        simp [openRecords,Transaction.appendLog,hcons]

private theorem tracks_commit (ht : Tracks L base t0 h s)
    (hw : 0 < s.nondurableLevel → ∀ rs, h.pending = some rs → ∀ r ∈ rs, (write r.val).2 = true)
    (hs : s.commitTransaction L = some s') : Tracks L base t0 h.commit s' := by
  have hp := ht.pending
  rw [commitTransaction] at hs
  cases ha : s.activeTransaction with
  | none =>
    rw [ha] at hp
    have hnone : h.pending = none := by simpa using hp.symm
    simp only [ha] at hs
    obtain rfl := some.inj hs
    simp only [History.commit,hnone]
    exact ht
  | some tr =>
    rw [ha,map_some] at hp
    obtain ⟨rs,hrs,hopen⟩ := Option.map_eq_some_iff.mp hp.symm
    simp only [ha] at hs
    cases rs with
    | nil =>
      have hempty : tr.emptyTransaction = true := by rw [tr.flagged,← hopen]; rfl
      rw [if_pos hempty] at hs
      obtain rfl := some.inj hs
      simp only [History.commit,hrs]
      exact ⟨ht.file,ht.table,rfl,ht.written⟩
    | cons x rs =>
      have hempty : ¬ tr.emptyTransaction = true := by rw [tr.flagged,← hopen]; simp [openRecords]
      have hlog : (tr.appendLog .endTransaction).orderedOpLog =
          (CommitUnit.transaction (x :: rs)).records := by
        simp [Transaction.appendLog,CommitUnit.records,← hopen,openRecords]
      rw [if_neg hempty] at hs
      split at hs
      · simp at hs
      · next file table hc =>
        rw [ht.file] at hc
        have hres := commit_eq_some L ?_ hc
        · obtain ⟨hwritten,hres⟩ := hres
          obtain ⟨rfl,rfl⟩ := Prod.mk.inj hres
          obtain rfl := some.inj hs
          rw [hlog] at hwritten
          simp only [History.commit,hrs]
          refine ⟨?_,?_,rfl,written_snoc ht.written hwritten⟩
          · rw [flatMap_snoc,hlog,CommitUnit.bytes,append_assoc]
          · rw [playUnits_snoc,hlog,ht.table]
        · intro hnd r hr
          rw [hlog,CommitUnit.records] at hr
          simp only [mem_cons,mem_append,not_mem_nil,or_false] at hr
          rcases hr with rfl | hr | rfl
          · rfl
          · obtain ⟨y,hy,rfl⟩ := List.mem_map.mp hr
            exact hw (by simpa using hnd) _ hrs y hy
          · rfl

theorem Tracks.step (ht : Tracks L base t0 h s) {c : Call} (hc : c.isTruncLog = false)
    (hw : commitsNondurably s c = true →
      ∀ rs, h.pending = some rs → ∀ r ∈ rs, (write r.val).2 = true)
    (hs : s.step L c = some s') : Tracks L base t0 (h.step c) s' := by
  cases c with
  | appendLog r => exact tracks_appendLog ht r hs
  | beginTransaction =>
    rw [ClassAdLog.step,beginTransaction] at hs
    split at hs
    · simp at hs
    · obtain rfl := some.inj hs
      exact ⟨ht.file,ht.table,rfl,ht.written⟩
  | abortTransaction =>
    obtain rfl := some.inj hs
    exact ⟨ht.file,ht.table,rfl,ht.written⟩
  | commitTransaction =>
    exact tracks_commit ht (fun hnd => hw (by simpa [commitsNondurably] using hnd)) hs
  | commitNondurableTransaction =>
    obtain ⟨s1,hs1,hs2⟩ := Option.bind_eq_some_iff.mp hs
    have ht1 : Tracks L base t0 h.commit s1 := by
      apply tracks_commit (s := incNondurableCommitLevel s) 
        ⟨ht.file,ht.table,ht.pending,ht.written⟩ _ hs1
      intro hnd
      exact hw (by simpa [commitsNondurably,incNondurableCommitLevel] using hnd)
    rw [decNondurableCommitLevel] at hs2
    split at hs2
    · obtain rfl := some.inj hs2
      exact ⟨ht1.file,ht1.table,ht1.pending,ht1.written⟩
    · simp at hs2
  | incNondurableCommitLevel =>
    obtain rfl := some.inj hs
    exact ⟨ht.file,ht.table,ht.pending,ht.written⟩
  | decNondurableCommitLevel oldLevel =>
    rw [ClassAdLog.step,decNondurableCommitLevel] at hs
    split at hs
    · obtain rfl := some.inj hs
      exact ⟨ht.file,ht.table,ht.pending,ht.written⟩
    · simp at hs
  | truncLog env => simp [Call.isTruncLog] at hc

end

end ClassAdLog

end Condor
