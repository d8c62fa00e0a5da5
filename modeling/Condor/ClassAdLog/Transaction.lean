import Condor.ClassAdLog.ClassAd

/-!
# Transactions

A transaction keeps its records twice: in the order in which they were appended, and indexed by key
for the lookups that precede the commit. `Transaction` carries the agreement of the two as a field.
-/

namespace Condor

open Lib

def LogRecord.indexKey (r : LogRecord) : CString := r.getKey.getD []

def recordsOf (rs : List LogRecord) (k : CString) : List (List LogRecord) :=
  if (rs.filter fun r => r.indexKey = k) = [] then [] else [rs.filter fun r => r.indexKey = k]

structure Transaction where
  orderedOpLog : List LogRecord
  opLog : HashTable CString (List LogRecord)
  emptyTransaction : Bool
  flagged : emptyTransaction = orderedOpLog.isEmpty
  indexed : ∀ k, opLog.stack k = recordsOf orderedOpLog k

namespace Transaction

def new : Transaction where
  orderedOpLog := []
  opLog := HashTable.initializeWith hashFunction .rejectDuplicateKeys
  emptyTransaction := true
  flagged := rfl
  indexed _ := rfl

/-- The entry of the index that `AppendLog` extends or makes. -/
def indexAppend (opLog : HashTable CString (List LogRecord)) (r : LogRecord) :
    HashTable CString (List LogRecord) :=
  match opLog.lookup r.indexKey with
  | none => (opLog.insert r.indexKey [r]).1
  | some _ => opLog.adjust r.indexKey (· ++ [r])

private theorem stack_indexAppend {opLog : HashTable CString (List LogRecord)}
    {rs : List LogRecord} (h : ∀ k, opLog.stack k = recordsOf rs k) (r : LogRecord)
    (k : CString) : (indexAppend opLog r).stack k = recordsOf (rs ++ [r]) k := by
  have hu : opLog.Unique := by
    intro k
    rw [h,recordsOf]
    split <;> simp
  rw [indexAppend]
  cases hl : opLog.lookup r.indexKey with
  | none =>
    have hnil : (rs.filter fun x => x.indexKey = r.indexKey) = [] := by
      have hs := (HashTable.lookup_eq_none_iff opLog r.indexKey).mp hl
      rw [h,recordsOf] at hs
      by_contra hne
      simp [hne] at hs
    simp only [HashTable.insert_absent hl]
    rw [HashTable.stack_addItem hl _ (hu k)]
    by_cases hk : k = r.indexKey
    · subst hk
      simp [recordsOf,hnil]
    · simp [hk,h,recordsOf,Ne.symm hk]
  | some own =>
    have hs := hu.stack_eq hl
    have hown : (rs.filter fun x => x.indexKey = r.indexKey) = own := by
      rw [h,recordsOf] at hs
      split at hs
      · simp at hs
      · exact List.singleton_inj.mp hs
    simp only [HashTable.stack_adjust]
    by_cases hk : k = r.indexKey
    · subst hk
      simp [hs,recordsOf,hown]
    · simp [hk,h,recordsOf,Ne.symm hk]

def appendLog (tr : Transaction) (r : LogRecord) : Transaction where
  orderedOpLog := tr.orderedOpLog ++ [r]
  opLog := indexAppend tr.opLog r
  emptyTransaction := false
  flagged := by simp
  indexed := stack_indexAppend tr.indexed r

/-- The records that `FirstEntry` and `NextEntry` hand out for a key. -/
def entriesFor (tr : Transaction) (key : CString) : List LogRecord :=
  (tr.opLog.lookup key).getD []

theorem entriesFor_eq (tr : Transaction) (key : CString) :
    tr.entriesFor key = tr.orderedOpLog.filter fun r => r.indexKey = key := by
  rw [entriesFor,HashTable.lookup_eq_head?,tr.indexed,recordsOf]
  split
  · next h => rw [h]; rfl
  · rfl

end Transaction

/-- `stream_with_status_t`: an output file that is no longer written to after its first
error. -/
structure StreamWithStatus where
  fp : Option (List Byte)
  whyOk : Bool

def writeWithStatus (s : StreamWithStatus) (r : LogRecord) : StreamWithStatus :=
  match s.fp with
  | none => s
  | some file =>
    if s.whyOk then ⟨some (file ++ (write r).1),(write r).2⟩ else s

variable {Expr : Type} (L : ClassAdLanguage Expr)

/-- The loop of `Commit`: every record is written as far as the stream still accepts it, and
played in any case. -/
def commitLoop (rs : List LogRecord) (s : StreamWithStatus) (t : ClassAdTable Expr) :
    StreamWithStatus × ClassAdTable Expr :=
  rs.foldl (fun st r => (writeWithStatus st.1 r,r.play L st.2)) (s,t)

/-- `Commit`. A write error is fatal (`none`) unless the commit is nondurable. -/
def Transaction.commit (tr : Transaction) (fp : Option (List Byte)) (t : ClassAdTable Expr)
    (nondurable : Bool) : Option (Option (List Byte) × ClassAdTable Expr) :=
  let done := commitLoop L tr.orderedOpLog ⟨fp,true⟩ t
  if !nondurable && !done.1.whyOk then none else some (done.1.fp,done.2)

def playAll (rs : List LogRecord) (t : ClassAdTable Expr) : ClassAdTable Expr :=
  rs.foldl (fun t r => r.play L t) t

theorem commitLoop_table (rs : List LogRecord) (s : StreamWithStatus) (t : ClassAdTable Expr) :
    (commitLoop L rs s t).2 = playAll L rs t := by
  induction rs generalizing s t with
  | nil => rfl
  | cons r rs ih => exact ih _ _

end Condor
