import Condor.Lib.Run
import Condor.ClassAdLog.Transaction

/-!
# The persistent ClassAd log

The object that keeps the table of ads and the log file on disk in step. A log file is its bytes;
all writes append to it.
-/

namespace Condor

open Lib Option

structure ClassAdLog (Expr : Type) where
  table : ClassAdTable Expr
  logFp : Option (List Byte)
  activeTransaction : Option Transaction
  nondurableLevel : Int
  historicalSequenceNumber : UInt64
  originalLogBirthdate : UInt64
  maxHistoricalLogs : Int

/-- What the file system does during a rotation: whether the old log was saved, the temporary file
opened, with what was in it, and moved, and the log opened again. -/
structure RotateEnv where
  saved : Bool
  tmpOpens : Bool
  oldTmp : List Byte
  rotated : Bool
  reopens : Bool

namespace ClassAdLog

variable {Expr : Type} (L : ClassAdLanguage Expr)

structure LoadState (Expr : Type) where
  table : ClassAdTable Expr
  activeTransaction : Option Transaction
  count : Nat
  isClean : Bool
  historicalSequenceNumber : UInt64
  originalLogBirthdate : UInt64

def LoadState.initial (now : UInt64) : LoadState Expr where
  table := newClassAdTable
  activeTransaction := none
  count := 0
  isClean := true
  historicalSequenceNumber := 1
  originalLogBirthdate := now

def loadEntry (st : LoadState Expr) (r : LogRecord) : LoadState Expr :=
  let st := { st with count := st.count + 1 }
  match r with
  | .beginTransaction =>
    { st with
      isClean := false
      activeTransaction := some (st.activeTransaction.getD Transaction.new) }
  | .endTransaction =>
    match st.activeTransaction with
    | none => st
    | some tr =>
      -- commit in memory only: without a file there is nothing to refuse
      { st with
        table := (commitLoop L tr.orderedOpLog ⟨none,true⟩ st.table).2
        activeTransaction := none }
  | .historicalSequenceNumber number timestamp =>
    { st with historicalSequenceNumber := number, originalLogBirthdate := timestamp }
  | r =>
    match st.activeTransaction with
    | none => { st with table := r.play L st.table }
    | some tr => { st with activeTransaction := some (tr.appendLog r) }

def load (now : UInt64) (file : List Byte) :
    Reader.ScanEnd Byte ReadFailure (LoadState Expr) :=
  Reader.scanAll readLogEntry (loadEntry L) (LoadState.initial now) file

/-- The records that `LogState` writes for one ad. -/
def adRecords (key : CString) (ad : ClassAd Expr) : List LogRecord :=
  .newClassAd key (ad.getMyTypeName L) (ad.getTargetTypeName L) ::
    (L.iterate ad.attrList).map fun a =>
      .mkSetAttribute key a.1 (L.exprTreeToString a.2) false

/-- The records that `LogState` writes, the sequence number first. -/
def stateRecords (s : ClassAdLog Expr) : List LogRecord :=
  .historicalSequenceNumber s.historicalSequenceNumber s.originalLogBirthdate ::
    s.table.entries.flatMap fun e => adRecords L e.1 e.2

def writeAll : List LogRecord → Option (List Byte)
  | [] => some []
  | r :: rs => if (write r).2 then (writeAll rs).map ((write r).1 ++ ·) else none

def logState (s : ClassAdLog Expr) : Option (List Byte) := writeAll (stateRecords L s)

/-- `SaveHistoricalLogs`, with the outcome of the copy. -/
def saveHistoricalLogs (env : RotateEnv) (s : ClassAdLog Expr) : Bool :=
  if s.maxHistoricalLogs = 0 then true else env.saved

def overwrite (old new : List Byte) : List Byte := new ++ old.drop new.length

/-- `TruncLog`. -/
def truncLog (env : RotateEnv) (s : ClassAdLog Expr) : Option (ClassAdLog Expr × Bool) :=
  if !saveHistoricalLogs env s then some (s,false)
  else if !env.tmpOpens then some (s,false)
  else
    let s' := { s with historicalSequenceNumber := s.historicalSequenceNumber + 1 }
    match logState L s' with
    | none => none
    | some new =>
      if !env.reopens then none
      else if env.rotated then some ({ s' with logFp := some (overwrite env.oldTmp new) },true)
      else
        some ({ s' with historicalSequenceNumber := s'.historicalSequenceNumber - 1 },false)

/-- A rotation that is not fatal changes nothing, or puts the new state over the front of the
temporary file. -/
theorem truncLog_cases {env : RotateEnv} {s s' : ClassAdLog Expr} {ok : Bool}
    (h : s.truncLog L env = some (s',ok)) :
    (ok = false ∧ s' = s) ∨
      (ok = true ∧ ∃ new,
        logState L { s with historicalSequenceNumber := s.historicalSequenceNumber + 1 } =
          some new ∧
        s' = { s with
          historicalSequenceNumber := s.historicalSequenceNumber + 1
          logFp := some (overwrite env.oldTmp new) }) := by
  rw [truncLog] at h
  dsimp only at h
  by_cases hsave : (!saveHistoricalLogs env s) = true
  · rw [if_pos hsave] at h
    obtain ⟨rfl,rfl⟩ := Prod.mk.inj (some.inj h)
    exact .inl ⟨rfl,rfl⟩
  by_cases hopen : (!env.tmpOpens) = true
  · rw [if_neg hsave,if_pos hopen] at h
    obtain ⟨rfl,rfl⟩ := Prod.mk.inj (some.inj h)
    exact .inl ⟨rfl,rfl⟩
  rw [if_neg hsave,if_neg hopen] at h
  cases hnew : logState L
      { s with historicalSequenceNumber := s.historicalSequenceNumber + 1 } with
  | none => simp [hnew] at h
  | some new =>
    simp only [hnew] at h
    by_cases hre : (!env.reopens) = true
    · simp [hre] at h
    by_cases hrot : env.rotated = true
    · rw [if_neg hre,if_pos hrot] at h
      obtain ⟨rfl,rfl⟩ := Prod.mk.inj (some.inj h)
      exact .inr ⟨rfl,new,rfl,rfl⟩
    · rw [if_neg hre,if_neg hrot] at h
      obtain ⟨rfl,rfl⟩ := Prod.mk.inj (some.inj h)
      refine .inl ⟨rfl,?_⟩
      have hseq : s.historicalSequenceNumber + 1 - 1 = s.historicalSequenceNumber := by grind
      simp only [hseq]

def writeAt (file : List Byte) (pos : Nat) (new : List Byte) : List Byte :=
  file.take pos ++ overwrite (file.drop pos) new

def construct (now : UInt64) (maxHistoricalLogs : Int) (env : RotateEnv) (file : List Byte) :
    Option (ClassAdLog Expr) :=
  let done := load L now file
  if done.error = some .except then none
  else
    let requiresSuccessfulCleaning :=
      done.before.length != done.after.length || done.state.activeTransaction.isSome
    let seq := done.state.historicalSequenceNumber
    let birthdate := done.state.originalLogBirthdate
    let file :=
      if done.state.count = 0 then
        writeAt file (file.length - done.after.length)
          (write (.historicalSequenceNumber seq birthdate)).1
      else file
    let s : ClassAdLog Expr :=
      { table := done.state.table
        logFp := some file
        activeTransaction := none
        nondurableLevel := 0
        historicalSequenceNumber := seq
        originalLogBirthdate := birthdate
        maxHistoricalLogs := maxHistoricalLogs }
    if !done.state.isClean || requiresSuccessfulCleaning then
      match truncLog L env s with
      | none => none
      | some (s',ok) => if !ok && requiresSuccessfulCleaning then none else some s'
    else some s

def appendLog (s : ClassAdLog Expr) (r : LogRecord) : Option (ClassAdLog Expr) :=
  match s.activeTransaction with
  | some tr =>
    let tr := if tr.emptyTransaction then tr.appendLog .beginTransaction else tr
    some { s with activeTransaction := some (tr.appendLog r) }
  | none =>
    match s.logFp with
    | none => some { s with table := r.play L s.table }
    | some file =>
      if (write r).2 then
        some { s with logFp := some (file ++ (write r).1), table := r.play L s.table }
      else none

def incNondurableCommitLevel (s : ClassAdLog Expr) : ClassAdLog Expr :=
  { s with nondurableLevel := s.nondurableLevel + 1 }

def decNondurableCommitLevel (s : ClassAdLog Expr) (oldLevel : Int) : Option (ClassAdLog Expr) :=
  if s.nondurableLevel - 1 = oldLevel then some { s with nondurableLevel := s.nondurableLevel - 1 }
  else none

def beginTransaction (s : ClassAdLog Expr) : Option (ClassAdLog Expr) :=
  if s.activeTransaction.isSome then none
  else some { s with activeTransaction := some Transaction.new }

def abortTransaction (s : ClassAdLog Expr) : ClassAdLog Expr × Bool :=
  ({ s with activeTransaction := none },s.activeTransaction.isSome)

def commitTransaction (s : ClassAdLog Expr) : Option (ClassAdLog Expr) :=
  match s.activeTransaction with
  | none => some s
  | some tr =>
    if tr.emptyTransaction then some { s with activeTransaction := none }
    else
      match (tr.appendLog .endTransaction).commit L s.logFp s.table (0 < s.nondurableLevel) with
      | none => none
      | some (file,table) =>
        some { s with logFp := file, table := table, activeTransaction := none }

def commitNondurableTransaction (s : ClassAdLog Expr) : Option (ClassAdLog Expr) :=
  (commitTransaction L (incNondurableCommitLevel s)).bind fun s' =>
    decNondurableCommitLevel s' s.nondurableLevel

abbrev Update := {r : LogRecord // r.getKey.isSome}

def newJob : Update := ⟨.newClassAd (cstr "1.0") (cstr "Job") (cstr "Machine"),rfl⟩

def cmdUpdate (value : CString) : Update :=
  ⟨.mkSetAttribute (cstr "1.0") (cstr "Cmd") value false,rfl⟩

inductive Call where
  | appendLog (r : Update)
  | beginTransaction
  | abortTransaction
  | commitTransaction
  | commitNondurableTransaction
  | incNondurableCommitLevel
  | decNondurableCommitLevel (oldLevel : Int)
  | truncLog (env : RotateEnv)

def step (s : ClassAdLog Expr) : Call → Option (ClassAdLog Expr)
  | .appendLog r => s.appendLog L r.val
  | .beginTransaction => s.beginTransaction
  | .abortTransaction => some s.abortTransaction.1
  | .commitTransaction => s.commitTransaction L
  | .commitNondurableTransaction => s.commitNondurableTransaction L
  | .incNondurableCommitLevel => some s.incNondurableCommitLevel
  | .decNondurableCommitLevel oldLevel => s.decNondurableCommitLevel oldLevel
  | .truncLog env => (s.truncLog L env).map Prod.fst

end ClassAdLog

end Condor
