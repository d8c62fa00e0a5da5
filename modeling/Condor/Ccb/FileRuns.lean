import Condor.Ccb.FileAgreement

/-!
# Runs with stops and restarts

Whatever prefix of its operations a process has made, the reconnect file consists of whole lines. A
completed rewrite leaves the records in memory, if it created its file.
-/

namespace Condor.Ccb

open Lib List Option

namespace Files

variable {f : Files} {rs rs' : List CCBReconnectInfo}

structure Holds (f : Files) (rs rs' : List CCBReconnectInfo) : Prop where
  main : f.main.getD [] = encode rs
  buffer : (f.fp = none ∧ rs' = []) ∨ f.fp = some (.main,encode rs')

theorem encode_append (rs rs' : List CCBReconnectInfo) :
    encode (rs ++ rs') = encode rs ++ encode rs' :=
  flatMap_append

theorem Holds.flush (h : f.Holds rs rs') : f.flush.Holds (rs ++ rs') [] := by
  rcases h.buffer with ⟨hfp,rfl⟩ | hfp
  · rw [Files.flush,hfp]
    exact ⟨by rw [h.main,append_nil],.inl ⟨hfp,rfl⟩⟩
  · rw [Files.flush,hfp]
    refine ⟨?_,.inr rfl⟩
    show f.main.getD [] ++ encode rs' = _
    rw [h.main,encode_append]

private theorem Holds.save (h : f.Holds rs rs') (r : CCBReconnectInfo) :
    (((if f.fp.isSome then [] else [FileOp.openFile .main]) ++ Broker.saveReconnectInfo r).foldl
      Files.exec f).Holds (rs ++ rs') [r] := by
  have key : ∀ f : Files, f.Holds rs rs' → f.fp ≠ none →
      ((Broker.saveReconnectInfo r).foldl Files.exec f).Holds (rs ++ rs') [r] := by
    intro f h hopen
    rcases h.buffer with ⟨hfp,-⟩ | hfp
    · exact absurd hfp hopen
    · simp only [Broker.saveReconnectInfo,foldl_cons,foldl_nil,Files.exec,Files.flush,hfp]
      refine ⟨?_,.inr ?_⟩
      · show f.main.getD [] ++ encode rs' = _
        rw [h.main,encode_append]
      · simp [encode]
  rcases h.buffer with ⟨hfp,rfl⟩ | hfp
  · rw [hfp]
    simp only [isSome_none,Bool.false_eq_true,if_false,singleton_append,foldl_cons]
    apply key
    · exact ⟨h.main,.inr rfl⟩
    · exact some_ne_none _
  · rw [hfp]
    simp only [isSome_some,if_true,nil_append]
    apply key f h
    rw [hfp]
    exact some_ne_none _

/-- The reconnect file consists of lines, whatever a rewrite does to the other file. -/
def Sane (f : Files) : Prop :=
  ∃ rs, (∀ r ∈ rs, r.Fits) ∧ f.main.getD [] = encode rs ∧
    ∀ buffer, f.fp = some (.main,buffer) → ∃ rs', (∀ r ∈ rs', r.Fits) ∧ buffer = encode rs'

def Plain : FileOp → Prop
  | .rotate => False
  | .print line => ∃ r, CCBReconnectInfo.Fits r ∧ line = recordLine r
  | _ => True

theorem Sane.flush (h : f.Sane) : f.flush.Sane := by
  obtain ⟨rs,hrs,hmain,hbuf⟩ := h
  rw [Files.flush]
  cases hfp : f.fp with
  | none => exact ⟨rs,hrs,hmain,hbuf⟩
  | some open' =>
    obtain ⟨name,buffer⟩ := open'
    cases name with
    | main =>
      obtain ⟨rs',hrs',rfl⟩ := hbuf buffer hfp
      refine ⟨rs ++ rs',?_,?_,?_⟩
      · intro r hr
        exact (List.mem_append.mp hr).elim (hrs r) (hrs' r)
      · show f.main.getD [] ++ encode rs' = _
        rw [hmain,encode_append]
      · intro buffer' hb
        cases hb
        exact ⟨[],fun r hr => absurd hr not_mem_nil,rfl⟩
    | new =>
      refine ⟨rs,hrs,hmain,?_⟩
      intro buffer' hb
      cases hb

theorem Sane.exec (h : f.Sane) {op : FileOp} (hop : Plain op) : (f.exec op).Sane := by
  cases op with
  | rotate => exact hop.elim
  | seekEnd | flush => exact h.flush
  | close =>
    obtain ⟨rs,hrs,hmain,-⟩ := h.flush
    exact ⟨rs,hrs,hmain,fun buffer hb => nomatch hb⟩
  | removeMain =>
    obtain ⟨rs,hrs,hmain,hbuf⟩ := h
    exact ⟨[],fun r hr => absurd hr not_mem_nil,rfl,hbuf⟩
  | openFile name =>
    obtain ⟨rs,hrs,hmain,hbuf⟩ := h
    cases name with
    | main =>
      refine ⟨rs,hrs,hmain,?_⟩
      intro buffer hb
      cases hb
      exact ⟨[],fun r hr => absurd hr not_mem_nil,rfl⟩
    | new => exact ⟨rs,hrs,hmain,fun buffer hb => nomatch hb⟩
  | print line =>
    obtain ⟨rs,hrs,hmain,hbuf⟩ := h
    obtain ⟨r,hr,rfl⟩ := hop
    rw [Files.exec]
    cases hfp : f.fp with
    | none => exact ⟨rs,hrs,hmain,hbuf⟩
    | some open' =>
      obtain ⟨name,buffer⟩ := open'
      refine ⟨rs,hrs,hmain,?_⟩
      intro buffer' hb
      cases hb
      obtain ⟨rs',hrs',rfl⟩ := hbuf buffer hfp
      refine ⟨rs' ++ [r],?_,?_⟩
      · intro r' hr'
        rcases List.mem_append.mp hr' with hr' | hr'
        · exact hrs' r' hr'
        · rw [List.mem_singleton.mp hr']
          exact hr
      · simp [encode]

theorem Sane.foldl (h : f.Sane) {ops : List FileOp} (hops : ∀ op ∈ ops, Plain op) :
    (ops.foldl Files.exec f).Sane := by
  induction ops generalizing f with
  | nil => exact h
  | cons op ops ih =>
    exact ih (h.exec (hops op mem_cons_self)) fun op' hop' => hops op' (mem_cons_of_mem _ hop')

theorem Sane.stop (h : f.Sane) (flushed : Bool) :
    (f.stop flushed).fp = none ∧ ∃ rs, (∀ r ∈ rs, r.Fits) ∧ (f.stop flushed).Holds rs [] := by
  have key : ∀ f : Files, f.Sane → ∃ rs, (∀ r ∈ rs, r.Fits) ∧
    ({ f with fp := none } : Files).Holds rs [] := by
    rintro f ⟨rs,hrs,hmain,-⟩
    exact ⟨rs,hrs,hmain,.inl ⟨rfl,rfl⟩⟩
  refine ⟨rfl,?_⟩
  cases flushed with
  | true => exact key _ h.flush
  | false => exact key _ h

theorem Holds.sane (h : f.Holds rs rs') (hrs : ∀ r ∈ rs ++ rs', r.Fits) : f.Sane := by
  refine ⟨rs,fun r hr => hrs r (mem_append_left _ hr),h.main,?_⟩
  intro buffer hb
  rcases h.buffer with ⟨hfp,-⟩ | hfp
  · rw [hfp] at hb
    cases hb
  · rw [hfp] at hb
    cases hb
    exact ⟨rs',fun r hr => hrs r (mem_append_right _ hr),rfl⟩

private theorem foldl_save (infos : List CCBReconnectInfo) (main : Option (List Byte))
    (content buffer : List Byte) :
    ∃ content' buffer', (infos.flatMap Broker.saveReconnectInfo).foldl Files.exec
        ⟨main,some content,some (.new,buffer)⟩ = ⟨main,some content',some (.new,buffer')⟩ ∧
      content' ++ buffer' = content ++ buffer ++ encode infos := by
  induction infos generalizing content buffer with
  | nil => exact ⟨content,buffer,rfl,by simp [encode]⟩
  | cons r infos ih =>
    obtain ⟨content',buffer',hfold,hcat⟩ := ih (content ++ buffer) (recordLine r)
    refine ⟨content',buffer',hfold,?_⟩
    rw [hcat]
    simp [encode]

private theorem saveAll_holds {table : ReconnectTable} (hnone : table.numElems ≠ 0 → f.new = none)
    (h : f.Holds rs rs') :
    ((Broker.saveAllReconnectInfo table).foldl Files.exec f).Holds
      (if table.numElems = 0 then [] else table.entries.map Prod.snd) [] := by
  rw [Broker.saveAllReconnectInfo,foldl_cons]
  split
  · exact ⟨rfl,.inl ⟨rfl,rfl⟩⟩
  · next hne =>
    have hnew : (f.exec .close).new = none := by
      rcases h.buffer with ⟨hfp,-⟩ | hfp
      · simp only [Files.exec,Files.flush,hfp]
        exact hnone hne
      · simp only [Files.exec,Files.flush,hfp]
        exact hnone hne
    obtain ⟨content,buffer,hfold,hcat⟩ :=
      foldl_save (table.entries.map Prod.snd) (f.exec .close).main [] []
    have hopen : (f.exec .close).exec (.openFile .new) =
        ⟨(f.exec .close).main,some [],some (.new,[])⟩ := by
      rw [Files.exec.eq_1,Files.content,hnew]
      rfl
    rw [foldl_cons,foldl_append,hopen,hfold]
    refine ⟨?_,.inl ⟨rfl,rfl⟩⟩
    show content ++ buffer = _
    rw [hcat]
    rfl

private theorem plain_save {infos : List CCBReconnectInfo} (h : ∀ r ∈ infos, r.Fits) :
    ∀ op ∈ infos.flatMap Broker.saveReconnectInfo, Plain op := by
  intro op hop
  obtain ⟨r,hr,hop⟩ := List.mem_flatMap.mp hop
  simp only [Broker.saveReconnectInfo,mem_cons,not_mem_nil,or_false] at hop
  rcases hop with rfl | rfl
  · exact trivial
  · exact ⟨r,h r hr,rfl⟩

private theorem saveAll_plain {table : ReconnectTable}
    (h : ∀ r ∈ table.entries.map Prod.snd, r.Fits) :
    ∃ ops last, Broker.saveAllReconnectInfo table = ops ++ [last] ∧ ∀ op ∈ ops, Plain op := by
  rw [Broker.saveAllReconnectInfo]
  split
  · refine ⟨[.close],.removeMain,rfl,?_⟩
    intro op hop
    rw [List.mem_singleton.mp hop]
    exact trivial
  · refine ⟨.close :: .openFile .new :: ((table.entries.map Prod.snd).flatMap
      Broker.saveReconnectInfo ++ [.close]),.rotate,by simp,?_⟩
    intro op hop
    simp only [mem_cons,mem_append,not_mem_nil,or_false] at hop
    rcases hop with rfl | rfl | hop | rfl
    · exact trivial
    · exact trivial
    · exact plain_save h op hop
    · exact trivial

end Files

namespace ReconnectTable

variable {table table' : ReconnectTable} {now interval : Int}

private theorem saved_adjust_alive (ccbid : CCBID) :
    ReconnectTable.saved (table.adjust ccbid (alive now)) = table.saved := by
  funext id
  rw [saved,saved,HashTable.lookup_adjust]
  split
  · cases table.lookup id <;> rfl
  · rfl

private theorem markAlive_ok {connected : List CCBID}
    (h : markAlive now connected table = .ok table') :
    (∀ ccbid ∈ connected, table.lookup ccbid ≠ none) ∧ table'.numElems = table.numElems ∧
      table'.saved = table.saved := by
  induction connected generalizing table with
  | nil =>
    cases h
    exact ⟨fun _ hc => absurd hc not_mem_nil,rfl,rfl⟩
  | cons c connected ih =>
    rw [markAlive] at h
    split at h
    · cases h
    · next hc =>
      obtain ⟨hall,hnum,hsaved⟩ := ih h
      refine ⟨?_,hnum,hsaved.trans (saved_adjust_alive c)⟩
      intro ccbid hmem
      rcases List.mem_cons.mp hmem with rfl | hmem
      · exact hc
      · have hne := hall ccbid hmem
        rw [HashTable.lookup_adjust] at hne
        split at hne
        · intro hn
          rw [hn] at hne
          exact hne rfl
        · exact hne

private theorem prune_ok {infos : List CCBReconnectInfo}
    (h : prune now interval infos table = .ok table') :
    table'.numElems ≤ table.numElems ∧ (table'.numElems = table.numElems → table' = table) := by
  induction infos generalizing table with
  | nil =>
    cases h
    exact ⟨Nat.le_refl _,fun _ => rfl⟩
  | cons i infos ih =>
    rw [prune] at h
    split at h
    · rw [removeReconnectInfo] at h
      cases hl : table.lookup i.ccbid with
      | none =>
        rw [if_pos hl] at h
        cases h
      | some info =>
        have hcount := HashTable.numElems_remove hl
        rw [if_neg (by rw [hl]; exact some_ne_none _)] at h
        obtain ⟨hle,-⟩ := ih h
        exact ⟨by omega,fun he => by omega⟩
    · exact ih h

private theorem sweep_ok (hfiled : table.Filed) (hfits : table.Fits) {connected : List CCBID}
    (h : sweep now interval connected table = .ok table') :
    table'.Filed ∧ table'.Fits ∧ (table'.numElems = table.numElems → table'.saved =
    table.saved) := by
  have hsweep := h
  rw [sweep] at h
  cases hmark : markAlive now connected table with
  | error fault =>
    rw [hmark] at h
    cases h
  | ok table1 =>
    rw [hmark] at h
    obtain ⟨hall,hnum,hsaved⟩ := markAlive_ok hmark
    obtain ⟨-,hsame⟩ := prune_ok h
    obtain ⟨table2,hok,hfiled2,hlook⟩ := hfiled.sweep now interval hall
    rw [hsweep] at hok
    cases hok
    refine ⟨hfiled2,?_,?_⟩
    · intro id info hi
      rw [hlook,bind_eq_some_iff] at hi
      obtain ⟨old,hold,hafter⟩ := hi
      have hip : info.peerIp = old.peerIp := by
        rw [afterSweep,filter_eq_some_iff,Option.some.injEq] at hafter
        rw [← hafter.1]
        split <;> rfl
      rw [CCBReconnectInfo.Fits,hip]
      exact hfits id old hold
    · intro he
      rw [hsame (he.trans hnum.symm),hsaved]

end ReconnectTable

namespace World

variable {w w' : World} {b : Broker}

def Ahead (b : Broker) : Prop :=
  b.cameAround = false → ∀ id, b.loaded.lookup id ≠ none → id < b.nextCcbid

/-- What every run keeps: the file consists of lines, and those on the disk and in the buffer leave
the records in memory. -/
structure Tracks (w : World) : Prop where
  off : w.broker = none → w.files.fp = none ∧
    ∃ rs, (∀ r ∈ rs, CCBReconnectInfo.Fits r) ∧ w.files.Holds rs []
  on : ∀ b, w.broker = some b → b.table.Filed ∧ b.table.Fits ∧ Ahead b ∧
    ∃ rs rs', (∀ r ∈ rs ++ rs', CCBReconnectInfo.Fits r) ∧ w.files.Holds rs rs' ∧
      b.table.saved = replay (fun _ => none) (rs ++ rs')

def Clear (w : World) (a : Action) : Prop := a.op.any w.rewrites = true → w.files.new = none
deriving Decidable

variable {ops : List FileOp} {b' : Broker}

private theorem Clear.new_eq_none {a : Action} (h : w.Clear a) {op : Op} (hop : a.op = some op)
    (hb : w.broker = some b)
    (hok : b.perform w.files.fp.isSome op = .ok (b',ops)) (hmem : .openFile .new ∈ ops) :
    w.files.new = none := by
  apply h
  rw [hop]
  simp [rewrites,hb,hok,hmem]

private theorem sane_take {f : Files} (hf : f.Sane) {last : FileOp}
    (hops : ∀ op ∈ ops, Files.Plain op) (hfull : ((ops ++ [last]).foldl Files.exec f).Sane)
    (count : Nat) : (((ops ++ [last]).take count).foldl Files.exec f).Sane := by
  by_cases hc : count ≤ ops.length
  · rw [take_append_of_le_length hc]
    exact hf.foldl fun op hop => hops op (mem_of_mem_take hop)
  · rw [take_of_length_le (by rw [length_append,length_singleton]; omega)]
    exact hfull

def Lands (b' : Broker) (f : Files) (ops : List FileOp) : Prop :=
  (b'.table.Filed ∧ b'.table.Fits ∧ Ahead b' ∧
    ∃ rs rs', (∀ r ∈ rs ++ rs', CCBReconnectInfo.Fits r) ∧ (ops.foldl Files.exec f).Holds rs rs' ∧
      b'.table.saved = replay (fun _ => none) (rs ++ rs')) ∧
  ∀ count, ((ops.take count).foldl Files.exec f).Sane

variable {f : Files} {rs rs' : List CCBReconnectInfo}

private theorem handOut_free {taken : CCBID → Bool} {id : CCBID} (h : b.handOut taken = .ok id) :
    b.table.lookup id = none := by
  have hnever : ∀ id, b.tryCcbid taken id ≠ .refused := by
    intro id
    rw [Broker.tryCcbid]
    split
    · rintro ⟨⟩
    · split <;> rintro ⟨⟩
  rw [Broker.handOut] at h
  rcases nextId_cases hnever b.nextCcbid with ⟨u,id',hplaced,hok⟩ | ⟨hloop,-⟩
  · rw [hok] at h
    cases h
    rw [Broker.tryCcbid] at hplaced
    by_contra hne
    rw [if_pos hne] at hplaced
    cases hplaced
  · rw [hloop] at h
    cases h

private theorem lands_addTarget (hfiled : b.table.Filed) (hfits : b.table.Fits) (hahead : Ahead b)
    (hrs : ∀ r ∈ rs ++ rs', CCBReconnectInfo.Fits r) (hf : f.Holds rs rs')
    (hsaved : b.table.saved = replay (fun _ => none) (rs ++ rs')) {taken : CCBID → Bool}
    {cookie : UInt32} {peerIp : PeerIp} {now : Int}
    (h : b.perform f.fp.isSome (.addTarget taken cookie peerIp now) = .ok (b',ops)) :
    Lands b' f ops := by
  simp only [Broker.perform,bind,Except.bind] at h
  cases hid : b.handOut taken with
  | error fault =>
    rw [hid] at h
    cases h
  | ok id =>
    rw [hid] at h
    dsimp only at h
    have htake : peerIp.val.take (ipStringBufSize - 1) = peerIp.val := by
      apply take_of_length_le
      have hlen := peerIp.2.2
      omega
    obtain ⟨table,hadd,hfiled',hlook⟩ :=
      hfiled.addReconnectInfo (.new id cookie.toUInt64 peerIp.val now)
    rw [hadd] at h
    cases h
    have hnew : (CCBReconnectInfo.new id cookie.toUInt64 peerIp.val now).Fits := by
      simp only [CCBReconnectInfo.new,htake,CCBReconnectInfo.Fits]
      exact peerIp.2
    refine ⟨⟨hfiled',?_,?_,rs ++ rs',[.new id cookie.toUInt64 peerIp.val now],?_,hf.save _,?_⟩,?_⟩
    · intro k info hi
      rw [hlook] at hi
      split at hi
      · cases hi
        exact hnew
      · exact hfits k info hi
    · intro hcame k hk
      simp only [Bool.or_eq_false_iff,decide_eq_false_iff_not] at hcame
      have hlt := hahead hcame.1.1 k hk
      have h1 := hcame.1.2
      have h2 := hcame.2
      simp only [UInt64.lt_iff_toNat_lt,UInt64.toNat_add] at hlt h1 h2 ⊢
      have hbound := id.toNat_lt
      have hone : (1 : UInt64).toNat = 1 := rfl
      omega
    · intro r hr
      rcases List.mem_append.mp hr with hr | hr
      · exact hrs r hr
      · rw [List.mem_singleton.mp hr]
        exact hnew
    · rw [replay_append,← hsaved]
      exact ReconnectTable.saved_add hlook
    · intro count
      apply (hf.sane hrs).foldl
      intro op hop
      have hop' := mem_of_mem_take hop
      simp only [mem_append,Broker.saveReconnectInfo,mem_cons,not_mem_nil,or_false] at hop'
      rcases hop' with hop' | rfl | rfl
      · split at hop'
        · cases hop'
        · rw [List.mem_singleton.mp hop']
          exact trivial
      · exact trivial
      · exact ⟨_,hnew,rfl⟩

private theorem lands_sweep (hfiled : b.table.Filed) (hfits : b.table.Fits) (hahead : Ahead b)
    (hrs : ∀ r ∈ rs ++ rs', CCBReconnectInfo.Fits r) (hf : f.Holds rs rs')
    (hsaved : b.table.saved = replay (fun _ => none) (rs ++ rs')) {connected : List CCBID}
    {now : Int}
    (h : b.perform f.fp.isSome (.sweep connected now) = .ok (b',ops))
    (hnew : .openFile .new ∈ ops → f.new = none) : Lands b' f ops := by
  -- the flush at the start, which leaves the other file alone
  obtain ⟨flush,hflush,hplain,hf1,hnew1⟩ :
    ∃ flush, flush = (if f.fp.isSome then [FileOp.flush] else []) ∧
      (∀ op ∈ flush, Files.Plain op) ∧ (∃ rs1 rs1', rs1 ++ rs1' = rs ++ rs' ∧
        (flush.foldl Files.exec f).Holds rs1 rs1') ∧ (flush.foldl Files.exec f).new = f.new := by
    rcases hf.buffer with ⟨hfp,rfl⟩ | hfp
    · exact ⟨[],by rw [hfp]; rfl,fun op hop => absurd hop not_mem_nil,⟨rs,[],rfl,hf⟩,rfl⟩
    · refine ⟨[.flush],by rw [hfp]; rfl,?_,⟨rs ++ rs',[],append_nil _,hf.flush⟩,?_⟩
      · intro op hop
        rw [List.mem_singleton.mp hop]
        exact trivial
      · show f.flush.new = f.new
        rw [Files.flush,hfp]
        rfl
  obtain ⟨rs1,rs1',happ,hf1⟩ := hf1
  have hrs1 : ∀ r ∈ rs1 ++ rs1', CCBReconnectInfo.Fits r := by
    rw [happ]
    exact hrs
  simp only [Broker.perform,bind,Except.bind,← hflush] at h
  split at h
  · cases h
    refine ⟨⟨hfiled,hfits,hahead,rs1,rs1',hrs1,hf1,by rw [happ,hsaved]⟩,?_⟩
    intro count
    exact (hf.sane hrs).foldl fun op hop => hplain op (mem_of_mem_take hop)
  · cases hsweep : b.table.sweep now b.interval connected with
    | error fault =>
      rw [hsweep] at h
      cases h
    | ok table =>
      rw [hsweep] at h
      cases h
      obtain ⟨hfiled',hfits',hsame⟩ := ReconnectTable.sweep_ok hfiled hfits hsweep
      by_cases hnum : table.numElems = b.table.numElems
      · rw [if_pos hnum,append_nil]
        refine ⟨⟨hfiled',hfits',hahead,rs1,rs1',hrs1,hf1,by rw [happ,← hsaved]; exact hsame hnum⟩,
          ?_⟩
        intro count
        exact (hf.sane hrs).foldl fun op hop => hplain op (mem_of_mem_take hop)
      · rw [if_neg hnum] at hnew ⊢
        have hentries : ∀ r ∈ table.entries.map Prod.snd, CCBReconnectInfo.Fits r := by
          intro r hr
          obtain ⟨e,he,rfl⟩ := List.mem_map.mp hr
          exact hfits' _ _ (hfiled'.unique.lookup_of_mem he)
        have hnone : table.numElems ≠ 0 → (flush.foldl Files.exec f).new = none := by
          intro hne
          rw [hnew1]
          apply hnew
          simp [Broker.saveAllReconnectInfo,hne]
        have hall := Files.saveAll_holds hnone hf1
        have hfit : ∀ r ∈ (if table.numElems = 0 then [] else table.entries.map Prod.snd) ++ [],
            CCBReconnectInfo.Fits r := by
          intro r hr
          rw [append_nil] at hr
          split at hr
          · cases hr
          · exact hentries r hr
        have hreplay : table.saved = replay (fun _ => none)
            ((if table.numElems = 0 then [] else table.entries.map Prod.snd) ++ []) := by
          rw [append_nil]
          split
          · next h0 =>
            funext id
            rw [ReconnectTable.saved,HashTable.lookup,if_pos h0]
            rfl
          · exact hfiled'.replay_entries.symm
        rw [← foldl_append] at hall
        refine ⟨⟨hfiled',hfits',hahead,_,[],hfit,hall,hreplay⟩,?_⟩
        obtain ⟨ops,last,hops,hplain'⟩ := Files.saveAll_plain hentries
        rw [hops,← append_assoc] at hall ⊢
        intro count
        apply sane_take (hf.sane hrs) _ (hall.sane hfit)
        intro op hop
        exact (List.mem_append.mp hop).elim (hplain op) (hplain' op)

private theorem Tracks.lands (hw : w.Tracks) (hb : w.broker = some b) {op : Op}
    (h : b.perform w.files.fp.isSome op = .ok (b',ops))
    (hnew : .openFile .new ∈ ops → w.files.new = none) : Lands b' w.files ops := by
  obtain ⟨hfiled,hfits,hahead,rs,rs',hrs,hf,hsaved⟩ := hw.on b hb
  cases op with
  | addTarget taken cookie peerIp now => exact lands_addTarget hfiled hfits hahead hrs hf hsaved h
  | sweep connected now => exact lands_sweep hfiled hfits hahead hrs hf hsaved h hnew

private theorem Tracks.start (hw : w.Tracks) (hb : w.broker = none) {now interval : Int}
    (h : w.step (.start now interval) = some w') : w'.Tracks := by
  obtain ⟨hfp,rs,hrs,hf⟩ := hw.off hb
  have hbuf : (⟨w.files.main,w.files.new,w.files.main.map fun _ =>
    (.main,[])⟩ : Files).Holds rs [] := by
    refine ⟨hf.main,?_⟩
    cases w.files.main with
    | none => exact .inl ⟨rfl,rfl⟩
    | some s => exact .inr rfl
  simp only [step,hb] at h
  cases hmain : w.files.main with
  | none =>
    rw [hmain] at h
    cases h
    have hrs' : rs = [] := by
      apply encode_eq_nil
      rw [← hf.main,hmain]
      rfl
    refine ⟨fun hn => (nomatch hn),?_⟩
    rintro b ⟨⟩
    refine ⟨.new,ReconnectTable.fits_new,fun _ id hid => absurd (ReconnectTable.lookup_new id) hid,
      [],[],
      fun r hr => absurd hr not_mem_nil,?_,ReconnectTable.saved_new⟩
    rw [hmain,hrs'] at hbuf
    exact hbuf
  | some s =>
    have hs : s = encode rs := by
      have he := hf.main
      rw [hmain] at he
      exact he
    obtain ⟨table,next,hload,hfiled,hfits,hsaved,hcounted⟩ := loadReconnectInfo_encode hrs now
    rw [hmain,hs,hload] at h
    cases h
    refine ⟨fun hn => (nomatch hn),?_⟩
    rintro b ⟨⟩
    refine ⟨hfiled,hfits,?_,rs,[],by rw [append_nil]; exact hrs,?_,by rw [append_nil,hsaved]⟩
    · intro hcame id hid
      have hlow : table.Low := by
        intro k hk
        obtain ⟨info,hinfo⟩ := Option.ne_none_iff_exists'.mp hk
        have hmem := (hfiled.unique.mem_entries_iff (k,info)).mpr hinfo
        have hno := List.any_eq_false.mp hcame (k,info) hmem
        rw [decide_eq_true_eq] at hno
        exact Nat.lt_of_not_le hno
      obtain ⟨hle,hnext⟩ := hcounted hlow
      have hid' := hle id hid
      rw [UInt64.lt_iff_toNat_lt,UInt64.toNat_add]
      have hhundred : (100 : UInt64).toNat = 100 := rfl
      omega
    · rw [hmain,hs] at hbuf
      exact hbuf

theorem Tracks.step (hw : w.Tracks) (a : Action) (ha : w.Clear a) (h : w.step a = some w') :
    w'.Tracks := by
  cases a with
  | start now interval =>
    cases hb : w.broker with
    | none => exact hw.start hb h
    | some b =>
      simp only [World.step,hb] at h
      cases h
  | complete op =>
    simp only [World.step] at h
    cases hb : w.broker with
    | none =>
      rw [hb] at h
      cases h
    | some b =>
      rw [hb] at h
      dsimp only at h
      split at h
      · cases h
      · next b' ops hok =>
        cases h
        obtain ⟨hon,-⟩ := hw.lands hb hok (ha.new_eq_none rfl hb hok)
        refine ⟨fun hn => (nomatch hn),?_⟩
        rintro _ ⟨⟩
        exact hon
  | stopDuring op count flushed =>
    simp only [World.step] at h
    cases hb : w.broker with
    | none =>
      rw [hb] at h
      cases h
    | some b =>
      rw [hb] at h
      dsimp only at h
      split at h
      · cases h
      · next b' ops hok =>
        cases h
        obtain ⟨-,hsane⟩ := hw.lands hb hok (ha.new_eq_none rfl hb hok)
        exact ⟨fun _ => (hsane count).stop flushed,fun b hn => (nomatch hn)⟩

def off (saved : Option (List {r : CCBReconnectInfo // r.Fits})) (leftover : Option (List Byte)) :
    World :=
  ⟨⟨saved.map fun rs => encode (rs.map Subtype.val),leftover,none⟩,none⟩

private theorem tracks_off (saved : Option (List {r : CCBReconnectInfo // r.Fits}))
    (leftover : Option (List Byte)) : (off saved leftover).Tracks := by
  refine ⟨fun _ => ⟨rfl,(saved.getD []).map Subtype.val,?_,?_,.inl ⟨rfl,rfl⟩⟩,fun b hb =>
    (nomatch hb)⟩
  · intro r hr
    obtain ⟨r',-,rfl⟩ := List.mem_map.mp hr
    exact r'.2
  · cases saved <;> rfl

def Written (w : World) : Prop := ∀ name buffer, w.files.fp = some (name,buffer) → buffer = []

/-- When everything has been written, loading the file gives the records in memory. -/
def Agrees (w : World) : Prop := ∀ b now, w.broker = some b → w.Written →
  ∃ table next, loadReconnectInfo now w.files.main = .ok (table,next) ∧ table.saved = b.table.saved

/-- An id that is handed out has no record, and had none when the file was loaded unless the
counter has come around since. -/
def HandsOutNew (w : World) : Prop := ∀ b taken id, w.broker = some b → b.handOut taken = .ok id →
  b.table.lookup id = none ∧ (b.loaded.lookup id ≠ none → b.cameAround = true ∨ id < b.nextCcbid)

theorem Tracks.agrees (hw : w.Tracks) : w.Agrees := by
  intro b now hb hwritten
  obtain ⟨hfiled,hfits,hahead,rs,rs',hrs,hf,hsaved⟩ := hw.on b hb
  have hrs' : rs' = [] := by
    rcases hf.buffer with ⟨-,h⟩ | hfp
    · exact h
    · exact encode_eq_nil (hwritten _ _ hfp)
  rw [hrs',append_nil] at hsaved hrs
  obtain ⟨table,next,hload,-,-,hsaved',-⟩ := loadReconnectInfo_encode hrs now
  cases hmain : w.files.main with
  | some s =>
    have hs := hf.main
    rw [hmain,getD_some] at hs
    rw [hs]
    exact ⟨table,_,hload,hsaved'.trans hsaved.symm⟩
  | none =>
    have hs := hf.main
    rw [hmain,getD_none] at hs
    refine ⟨.new,1,rfl,?_⟩
    rw [hsaved,encode_eq_nil hs.symm]
    exact ReconnectTable.saved_new

private theorem Tracks.handsOutNew (hw : w.Tracks) : w.HandsOutNew := by
  intro b taken id hb hid
  obtain ⟨-,-,hahead,-⟩ := hw.on b hb
  refine ⟨handOut_free hid,?_⟩
  intro hloaded
  cases hcame : b.cameAround with
  | true => exact .inl rfl
  | false => exact .inr (hahead hcame id hloaded)

/-- As long as no rewrite finds the file of an interrupted one, the reconnect file agrees with the
table. -/
theorem agrees_of_run {saved : Option (List {r : CCBReconnectInfo // r.Fits})}
    {leftover : Option (List Byte)} {as : List Action}
    (hclear : Along World.step Clear (off saved leftover) as)
    (hr : run World.step (off saved leftover) as = some w) : w.Agrees ∧ w.HandsOutNew := by
  have hw : w.Tracks := run_invariant (fun w a w' hw ha h => hw.step a ha h) hclear
    (tracks_off saved leftover) hr
  exact ⟨hw.agrees,hw.handsOutNew⟩

def registers (ip : CString) (h : IsWord ip ∧ ip.length < ipStringBufSize) : Action :=
  .complete (.addTarget (fun _ => false) 7 ⟨ip,h⟩ 0)

def threeTargets : List Action :=
  [.start 0 1200,registers (cstr "10.0.0.1") (by decide),registers (cstr "10.0.0.2") (by decide),
    registers (cstr "10.0.0.3") (by decide)]

/-- A sweep prunes the record of the third target, and its rewrite is completed. -/
theorem agrees_of_run_sample : ∃ w, run World.step (off none none)
      (threeTargets ++ [.complete (.sweep [1,2] 5000)]) = some w ∧ w.Agrees ∧ w.HandsOutNew := by
  obtain ⟨w,hr,-⟩ := run_exists World.step (off none none)
    (threeTargets ++ [.complete (.sweep [1,2] 5000)]) (fun _ => true) (by decide)
  exact ⟨w,hr,agrees_of_run (by decide) hr⟩

/-- The first rewrite is interrupted before its rename, and the next one appends to what it has
left. -/
theorem agrees_fails : ∃ as w, run World.step (off none none) as = some w ∧ ¬w.Agrees := by
  have hrun : ∃ w, run World.step (off none none) (threeTargets ++
      [.stopDuring (.sweep [1,2] 5000) 8 true,.start 6000 1200,.complete (.sweep [1] 20000)]) =
        some w ∧
      (decide (w.files.fp = none) && (w.broker.any fun b => (b.table.lookup 2).isNone) &&
        (loadReconnectInfo 0 w.files.main).toOption.any fun r => (r.1.lookup 2).isSome) = true :=
    run_exists World.step _ _ _ (by decide)
  obtain ⟨w,hr,hw⟩ := hrun
  refine ⟨_,w,hr,?_⟩
  intro hagrees
  simp only [Bool.and_eq_true,decide_eq_true_eq,Option.any_eq_true] at hw
  obtain ⟨⟨hfp,b,hb,hnone⟩,y,hy,hsome⟩ := hw
  obtain ⟨table,next,hload,hsaved⟩ := hagrees b 0 hb fun name buffer hn => by
    rw [hfp] at hn
    cases hn
  rw [hload] at hy
  obtain rfl := some.inj hy
  have h2 := congrFun hsaved 2
  rw [ReconnectTable.saved,ReconnectTable.saved,Option.isNone_iff_eq_none.mp hnone] at h2
  cases hl : table.lookup 2 with
  | none => simp [hl] at hsome
  | some info =>
    rw [hl] at h2
    cases h2

end World

end Condor.Ccb
