import Condor.ClassAdLog.Recovery
import Condor.ClassAdLog.TransactionView

/-!
# Whether an ad exists

`AdExistsInTableOrTransaction` looks at the last record of the active transaction that makes or
destroys the ad.
-/

namespace Condor

open Lib List Option

namespace HashTable

variable {α β : Type} [DecidableEq α]

private theorem duplicateKeyBehavior_insert (t : HashTable α β) (k : α) (v : β) :
    (t.insert k v).1.duplicateKeyBehavior = t.duplicateKeyBehavior := by
  unfold insert
  dsimp only
  split
  · split
    · rfl
    · exact t.duplicateKeyBehavior_addItem k v
  · split
    · rfl
    · exact t.duplicateKeyBehavior_addItem k v
  · exact t.duplicateKeyBehavior_addItem k v

theorem length_stack_addItem (t : HashTable α β) (k : α) (v : β) (k' : α) :
    ((t.addItem k v).stack k').length =
      if k' = k then (t.stack k').length + 1 else (t.stack k').length := by
  have hlink : ((t.link k v).stack k').length =
      if k' = k then (t.stack k').length + 1 else (t.stack k').length := by
    rw [stack_link]
    split <;> rfl
  rw [addItem]
  split
  · rw [stack_resizeHashTable,length_reverse,hlink]
  · exact hlink

end HashTable

namespace ClassAdLog

variable {Expr : Type} (L : ClassAdLanguage Expr)

/-- One turn of the loop of `AdExistsInTableOrTransaction`. -/
def existsEntry (adexists : Bool) : LogRecord → Bool
  | .newClassAd .. => true
  | .destroyClassAd _ => false
  | _ => adexists

def adExistsInTableOrTransaction (s : ClassAdLog Expr) (key : CString) : Bool :=
  let adexists := (s.table.lookup key).isSome
  match s.activeTransaction with
  | none => adexists
  | some tr => (tr.entriesFor key).foldl existsEntry adexists

def pendingRecords (s : ClassAdLog Expr) (key : CString) : List LogRecord :=
  match s.activeTransaction with
  | none => []
  | some tr => tr.orderedOpLog.filter fun r => r.indexKey = key

def countAds (n : Nat) : LogRecord → Nat
  | .newClassAd .. => n + 1
  | .destroyClassAd _ => n - 1
  | _ => n

/-- Where the last word on the key is a destroy, no ad of the key is left. -/
def DestroysAll (n : Nat) (rs : List LogRecord) : Prop :=
  lastMake rs = .destroyed → rs.foldl countAds n = 0

private theorem existsEntry_foldl (b : Bool) (rs : List LogRecord) :
    rs.foldl existsEntry b =
      match lastMake rs with
      | .unmade => b
      | .destroyed => false
      | .created _ _ => true := by
  induction rs using List.reverseRecOn with
  | nil => rfl
  | append_singleton rs r ih =>
    rw [foldl_append,foldl_cons,foldl_nil,lastMake_snoc]
    cases r with
    | newClassAd key mytype targettype => rfl
    | destroyClassAd key => rfl
    | setAttribute | deleteAttribute | beginTransaction | endTransaction
    | historicalSequenceNumber => exact ih

private theorem countAds_foldl (n : Nat) (rs : List LogRecord) :
    match lastMake rs with
    | .unmade => rs.foldl countAds n = n
    | .destroyed => True
    | .created _ _ => 0 < rs.foldl countAds n := by
  induction rs using List.reverseRecOn with
  | nil => rfl
  | append_singleton rs r ih =>
    rw [foldl_append,foldl_cons,foldl_nil,lastMake_snoc]
    cases r with
    | newClassAd key mytype targettype => exact Nat.succ_pos _
    | destroyClassAd key => trivial
    | setAttribute | deleteAttribute | beginTransaction | endTransaction
    | historicalSequenceNumber => exact ih

theorem existsEntry_iff (n : Nat) (rs : List LogRecord) :
    rs.foldl existsEntry (decide (0 < n)) = decide (0 < rs.foldl countAds n) ↔
      DestroysAll n rs := by
  have hcount := countAds_foldl n rs
  rw [existsEntry_foldl,DestroysAll]
  cases hm : lastMake rs with
  | unmade | created =>
    rw [hm] at hcount
    simp [hcount]
  | destroyed => simp

private theorem behavior_play (r : LogRecord) (t : ClassAdTable Expr) :
    (r.play L t).duplicateKeyBehavior = t.duplicateKeyBehavior := by
  cases r with
  | newClassAd key mytype targettype => exact HashTable.duplicateKeyBehavior_insert _ _ _
  | destroyClassAd | setAttribute | deleteAttribute =>
    rw [LogRecord.play]
    split <;> rfl
  | beginTransaction | endTransaction | historicalSequenceNumber => rfl

private theorem behavior_playAll (rs : List LogRecord) (t : ClassAdTable Expr) :
    (playAll L rs t).duplicateKeyBehavior = t.duplicateKeyBehavior := by
  induction rs generalizing t with
  | nil => rfl
  | cons r rs ih => exact (ih (r.play L t)).trans (behavior_play L r t)

theorem length_stack_adjust (t : ClassAdTable Expr) (key : CString)
    (g : ClassAd Expr → ClassAd Expr) (k : CString) :
    ((match t.lookup key with
      | none => t
      | some _ => t.adjust key g).stack k).length = (t.stack k).length := by
  split
  · rfl
  · rw [HashTable.stack_adjust]
    split
    · exact length_modifyHead
    · rfl

theorem length_stack_play {t : ClassAdTable Expr}
    (ha : t.duplicateKeyBehavior = .allowDuplicateKeys) (r : LogRecord) (k : CString) :
    ((r.play L t).stack k).length =
      if r.indexKey = k then countAds (t.stack k).length r else (t.stack k).length := by
  cases r with
  | newClassAd key mytype targettype =>
    have hins : t.insert key (.newTyped L mytype targettype) =
        (t.addItem key (.newTyped L mytype targettype),true) := by
      rw [HashTable.insert,ha]
    rw [LogRecord.play,hins,HashTable.length_stack_addItem]
    by_cases hk : k = key
    · subst hk
      simp [LogRecord.indexKey,LogRecord.getKey,countAds]
    · simp [LogRecord.indexKey,LogRecord.getKey,hk,Ne.symm hk]
  | destroyClassAd key =>
    rw [LogRecord.play]
    by_cases hk : k = key
    · subst hk
      have hindex : (LogRecord.destroyClassAd k).indexKey = k := rfl
      rw [if_pos hindex]
      split
      · next hnone =>
        rw [(HashTable.lookup_eq_none_iff t k).mp hnone]
        rfl
      · rw [HashTable.stack_remove,if_pos rfl]
        exact length_tail
    · have hindex : ¬ (LogRecord.destroyClassAd key).indexKey = k := Ne.symm hk
      rw [if_neg hindex]
      split
      · rfl
      · rw [HashTable.stack_remove,if_neg hk]
  | setAttribute key name value dirty | deleteAttribute key name =>
    refine (length_stack_adjust t key _ k).trans ?_
    split <;> rfl
  | beginTransaction | endTransaction | historicalSequenceNumber =>
    rw [LogRecord.play]
    split <;> rfl

theorem length_stack_playAll (rs : List LogRecord) {t : ClassAdTable Expr}
    (ha : t.duplicateKeyBehavior = .allowDuplicateKeys) (k : CString) :
    ((playAll L rs t).stack k).length =
      (rs.filter fun r => r.indexKey = k).foldl countAds (t.stack k).length := by
  induction rs generalizing t with
  | nil => rfl
  | cons r rs ih =>
    have hrest := ih (t := r.play L t) ((behavior_play L r t).trans ha)
    rw [length_stack_play L ha] at hrest
    change ((playAll L rs (r.play L t)).stack k).length = _
    rw [filter_cons]
    by_cases hk : r.indexKey = k
    · rw [if_pos hk] at hrest
      simpa [hk] using hrest
    · rw [if_neg hk] at hrest
      simpa [hk] using hrest

private theorem isSome_lookup (t : ClassAdTable Expr) (k : CString) :
    (t.lookup k).isSome = decide (0 < (t.stack k).length) := by
  rw [HashTable.lookup_eq_head?]
  cases t.stack k <;> simp

private theorem behavior_commit {s s' : ClassAdLog Expr} (h : s.commitTransaction L = some s') :
    s'.table.duplicateKeyBehavior = s.table.duplicateKeyBehavior := by
  cases ha : s.activeTransaction with
  | none =>
    rw [commitTransaction,ha] at h
    rw [← some.inj h]
  | some tr => rw [commitTransaction_table L ha h,behavior_playAll]

private theorem behavior_step {s s' : ClassAdLog Expr} {c : Call} (h : step L s c = some s') :
    s'.table.duplicateKeyBehavior = s.table.duplicateKeyBehavior := by
  cases c with
  | appendLog r =>
    simp only [step,appendLog] at h
    split at h
    · rw [← some.inj h]
    · split at h
      · rw [← some.inj h]
        exact behavior_play L _ _
      · split at h
        · rw [← some.inj h]
          exact behavior_play L _ _
        · simp at h
  | beginTransaction =>
    simp only [step,beginTransaction] at h
    split at h
    · simp at h
    · rw [← some.inj h]
  | abortTransaction | incNondurableCommitLevel => rw [← some.inj h]; rfl
  | commitTransaction => exact behavior_commit L h
  | commitNondurableTransaction =>
    simp only [step,commitNondurableTransaction,bind_eq_some_iff] at h
    obtain ⟨s1,hcommit,hdec⟩ := h
    have hsame : s'.table = s1.table := by
      simp only [decNondurableCommitLevel] at hdec
      split at hdec
      · rw [← some.inj hdec]
      · simp at hdec
    rw [hsame,behavior_commit L hcommit]
    rfl
  | decNondurableCommitLevel oldLevel =>
    simp only [step,decNondurableCommitLevel] at h
    split at h
    · rw [← some.inj h]
    · simp at h
  | truncLog env =>
    obtain ⟨⟨s1,ok⟩,htrunc,rfl⟩ := Option.map_eq_some_iff.mp h
    rw [truncLog_table htrunc]

private theorem behavior_loadEntry (st : LoadState Expr) (r : LogRecord) :
    (loadEntry L st r).table.duplicateKeyBehavior = st.table.duplicateKeyBehavior := by
  cases r with
  | endTransaction =>
    simp only [loadEntry]
    split
    · rfl
    · simp only [commitLoop_table,behavior_playAll]
  | newClassAd | destroyClassAd | setAttribute | deleteAttribute =>
    simp only [loadEntry]
    split
    · exact behavior_play L _ _
    · rfl
  | beginTransaction | historicalSequenceNumber => rfl

private theorem behavior_construct {now : UInt64} {m : Int} {env : RotateEnv} {file : List Byte}
    {s : ClassAdLog Expr} (h : construct L now m env file = some s) :
    s.table.duplicateKeyBehavior = .allowDuplicateKeys := by
  rw [construct_table h]
  let Allows (st : LoadState Expr) : Prop := st.table.duplicateKeyBehavior = .allowDuplicateKeys
  have hstep (st : LoadState Expr) (bs : List Byte) (r : LogRecord) (rest : List Byte)
      (hst : Allows st) (_ : readLogEntry bs = (.ok r,rest)) : Allows (loadEntry L st r) :=
    (behavior_loadEntry L st r).trans hst
  have h0 : Allows (LoadState.initial now) := rfl
  exact Reader.scan_invariant hstep _ _ _ h0

private theorem behavior_run {s s' : ClassAdLog Expr} {calls : List Call}
    (h : run (step L) s calls = some s') :
    s'.table.duplicateKeyBehavior = s.table.duplicateKeyBehavior := by
  let Same (s' : ClassAdLog Expr) : Prop :=
    s'.table.duplicateKeyBehavior = s.table.duplicateKeyBehavior
  have hstep (s1 : ClassAdLog Expr) (c : Call) (s2 : ClassAdLog Expr) (hs : Same s1)
      (hc : step L s1 c = some s2) : Same s2 :=
    (behavior_step L hc).trans hs
  have h0 : Same s := rfl
  exact run_preserves hstep h0 h

/-- The answer about a key agrees with the table that the commit makes exactly if a Destroy that
comes last takes away the only ad of the key. -/
theorem adExists_iff {now : UInt64} {m : Int} {env : RotateEnv} {file : List Byte}
    {calls : List Call} {s0 s s' : ClassAdLog Expr} (hnew : construct L now m env file = some s0)
    (hrun : run (step L) s0 calls = some s) (hcommit : s.commitTransaction L = some s')
    (key : CString) :
    (s.adExistsInTableOrTransaction key = true ↔ (s'.table.lookup key).isSome = true) ↔
      DestroysAll (s.table.stack key).length (s.pendingRecords key) := by
  have hallow : s.table.duplicateKeyBehavior = .allowDuplicateKeys :=
    (behavior_run L hrun).trans (behavior_construct L hnew)
  rw [← Bool.eq_iff_iff,isSome_lookup,← existsEntry_iff]
  cases ha : s.activeTransaction with
  | none =>
    rw [commitTransaction,ha] at hcommit
    obtain rfl := some.inj hcommit
    simp only [adExistsInTableOrTransaction,pendingRecords,ha,isSome_lookup,foldl_nil]
  | some tr =>
    rw [commitTransaction_table L ha hcommit,length_stack_playAll L _ hallow]
    simp only [adExistsInTableOrTransaction,pendingRecords,ha,isSome_lookup,
      Transaction.entriesFor_eq]

def openEnv : RotateEnv := ⟨true,true,[],true,true⟩

def makeJob : List Call := [.appendLog newJob,.beginTransaction]

/-- The only ad is destroyed in the transaction. -/
theorem adExists_iff_destroyed :
    ∃ s s', (construct literals 7 0 openEnv []).bind (fun s0 => run (step literals) s0
        (makeJob ++ [.appendLog ⟨.destroyClassAd (cstr "1.0"),rfl⟩])) = some s ∧
      s.commitTransaction literals = some s' ∧
      (s.adExistsInTableOrTransaction (cstr "1.0") = true ↔
        (s'.table.lookup (cstr "1.0")).isSome = true) := by
  have hnew : construct literals 7 0 openEnv [] = some (fresh 7 0) := rfl
  have hrun : run (step literals) (fresh 7 0)
      (makeJob ++ [.appendLog ⟨.destroyClassAd (cstr "1.0"),rfl⟩]) = some _ := rfl
  exact ⟨_,_,rfl,rfl,(adExists_iff literals hnew hrun rfl (cstr "1.0")).mpr fun _ => rfl⟩

/-- The ad is made a second time and then destroyed once: the first one comes back with the
commit. -/
theorem adExists_remade :
    ∃ s s', (construct literals 7 0 openEnv []).bind (fun s0 => run (step literals) s0
        (makeJob ++ [.appendLog ⟨.newClassAd (cstr "1.0") (cstr "Job") (cstr "Machine"),rfl⟩,
          .appendLog ⟨.destroyClassAd (cstr "1.0"),rfl⟩])) = some s ∧
      s.commitTransaction literals = some s' ∧
      s.adExistsInTableOrTransaction (cstr "1.0") = false ∧
      (s'.table.lookup (cstr "1.0")).isSome = true :=
  ⟨_,_,rfl,rfl,rfl,rfl⟩

end ClassAdLog

end Condor
