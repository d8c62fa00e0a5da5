import Condor.ClassAds.Grammar
import Condor.ClassAds.Termination

/-!
# What a full parse accepts

A parser that returns a tree has read tokens that the grammar derives, and the token it stopped at
cannot go on with them.
-/

namespace Condor.ClassAds

open Lib (Watch)
open Lib.Watch List

namespace Surroundings

variable (c : Surroundings) (n : Nat)

/-- From the first lexer to the second, the parser takes these tokens; it may look at the next
one. -/
inductive Takes : Lexer → List TokenType → Lexer → Prop
  | done (l : Lexer) : Takes l [] l
  | peek {l m l' : Lexer} {ts : List TokenType} : (c.peekToken n l).value = some m →
      m.tokenConsumed = false → Takes m ts l' → Takes l ts l'
  | consume {l l' : Lexer} {ts : List TokenType} : l.tokenConsumed = false →
      Takes l.consume ts l' → Takes l (l.tokenType :: ts) l'

def Fueled (n : Nat) (l : Lexer) : Prop := weight l.ahead < n
deriving Decidable

structure Reads (l : Lexer) (ts : List TokenType) (l' : Lexer) : Prop where
  takes : c.Takes n l ts l'
  fueled : Fueled n l'

variable {c n} {l l' m : Lexer} {ts ts' : List TokenType}

theorem Takes.trans (h : c.Takes n l ts m) (h' : c.Takes n m ts' l') :
    c.Takes n l (ts ++ ts') l' := by
  induction h with
  | done => exact h'
  | peek hm hc _ ih => exact .peek hm hc (ih h')
  | consume hc _ ih => exact .consume hc (ih h')

theorem Reads.trans (h : c.Reads n l ts m) (h' : c.Reads n m ts' l') :
    c.Reads n l (ts ++ ts') l' :=
  ⟨h.takes.trans h'.takes,h'.fueled⟩

private theorem peekToken_unconsumed (h : l.tokenConsumed = false) :
    (c.peekToken n l).value = some l := by
  unfold peekToken
  rw [h]
  rfl

private theorem Takes.cons_inv {t : TokenType} (h : c.Takes n l (t :: ts) l') :
    ∃ m, (c.peekToken n l).value = some m ∧ m.tokenType = t ∧ c.Takes n m.consume ts l' := by
  generalize hts : t :: ts = us at h
  induction h with
  | done => cases hts
  | @peek l m l' us hm hc _ ih =>
    obtain ⟨m',hm',htype,htakes⟩ := ih hts
    rw [peekToken_unconsumed hc] at hm'
    cases hm'
    exact ⟨m,hm,htype,htakes⟩
  | @consume l l' us hc h _ =>
    cases hts
    exact ⟨l,peekToken_unconsumed hc,rfl,h⟩

private theorem Takes.comparable {ts' : List TokenType} {k : Lexer} (h : c.Takes n l ts l')
    (h' : c.Takes n l ts' k) : ts <+: ts' ∨ ts' <+: ts := by
  induction ts generalizing l ts' with
  | nil => exact .inl (List.nil_prefix)
  | cons t ts ih =>
    cases ts' with
    | nil => exact .inr (List.nil_prefix)
    | cons t' ts' =>
      obtain ⟨m,hm,rfl,hrest⟩ := h.cons_inv
      obtain ⟨m',hm',rfl,hrest'⟩ := h'.cons_inv
      rw [hm] at hm'
      cases hm'
      rcases ih hrest hrest' with hle | hle
      · exact .inl ((prefix_cons_inj _).mpr hle)
      · exact .inr ((prefix_cons_inj _).mpr hle)

private theorem peekToken_reads (hl : Fueled n l) : Gives (c.peekToken n l) fun m =>
    c.Reads n l [] m ∧ m.tokenConsumed = false ∧ (l.tokenConsumed = false → m = l) := by
  intro m hm
  have hcopy := hm
  unfold peekToken at hm
  split at hm
  · rename_i hc
    have hlen : l.ahead.length < n := Nat.lt_of_le_of_lt (Nat.le_add_right _ _) hl
    cases hopen : openComment l.ahead with
    | true =>
      change Lexer.nextToken c.oldSemantics n l = some m at hm
      rw [Lexer.nextToken_open _ hlen hopen] at hm
      cases hm
    | false =>
      obtain ⟨m',hm',hstep⟩ := Lexer.nextToken_steps c.oldSemantics hlen hopen
      change Lexer.nextToken c.oldSemantics n l = some m at hm
      rw [hm'] at hm
      cases hm
      refine ⟨⟨.peek hcopy hstep.unconsumed (.done _),Nat.lt_of_le_of_lt hstep.le hl⟩,
        hstep.unconsumed,?_⟩
      intro hfalse
      rw [hfalse] at hc
      cases hc
  · rename_i hc
    cases hm
    exact ⟨⟨.done _,hl⟩,by simpa using hc,fun _ => rfl⟩

private theorem consumeToken_eq (h : l.tokenConsumed = false) :
    Gives (c.consumeToken n l) (· = l.consume) := by
  unfold consumeToken
  refine Gives.bind (P := (· = l)) ?_ ?_
  · intro m hm
    rw [peekToken_unconsumed h] at hm
    cases hm
    rfl
  · rintro _ rfl
    exact Gives.pure rfl

private theorem consumeToken_reads (hl : Fueled n l) :
    Gives (c.consumeToken n l) fun m => c.Reads n l [m.tokenType] m := by
  refine Gives.bind (peekToken_reads hl) ?_
  rintro m ⟨hm,hc,-⟩
  refine Gives.pure ⟨?_,hm.fueled⟩
  exact hm.takes.trans (.consume hc (.done _))

private theorem reads_consume (hl : Fueled n l) (h : l.tokenConsumed = false) :
    c.Reads n l [l.tokenType] l.consume :=
  ⟨.consume h (.done _),hl⟩

def continuing : Phrase → List TokenType
  | .expression => .qmark :: (binaryOperators ++ [.openBox,.selection])
  | .level k => (operatorLevels.drop k).flatten ++ [.openBox,.selection]
  | _ => [.openBox,.selection]

structure Stops (p : Phrase) (callable : Bool) (l : Lexer) : Prop where
  unconsumed : l.tokenConsumed = false
  stop : l.tokenType ∉ continuing p
  notCalled : callable = true → l.tokenType ≠ .openParen

def Phrased (c : Surroundings) (n : Nat) (p : Phrase) (l l' : Lexer) : Prop :=
  ∃ ts b, c.Reads n l ts l' ∧ Derives c.oldSemantics p ts ∧ Operand c.oldSemantics ts b ∧
    Stops p b l'

def Sound (c : Surroundings) (n : Nat) (p : Phrase) (parser : Parser) : Prop :=
  ∀ l, Fueled n l → Gives (parser l) fun r => r.1.isSome → c.Phrased n p l r.2

private theorem gives_none {α : Type} {P : Lexer → Prop} (l : Lexer) :
    Gives (pure (none,l) : Watch Lexer (Option α × Lexer)) fun r => r.1.isSome → P r.2 :=
  Gives.pure fun h => by cases h

private theorem gives_bind_some {α β : Type} {x : Watch Lexer (Option α × Lexer)}
    {f : Option α × Lexer → Watch Lexer β} {P : Lexer → Prop} {R : β → Prop}
    (hx : Gives x fun r => r.1.isSome → P r.2) (hnone : ∀ l, Gives (f (none,l)) R)
    (hsome : ∀ a l, P l → Gives (f (some a,l)) R) : Gives (x >>= f) R := by
  refine Gives.bind hx ?_
  rintro ⟨tree,l⟩ hl
  cases tree with
  | none => exact hnone l
  | some tree => exact hsome tree l (hl rfl)

private theorem continuing_level {k : Nat} {ops : List TokenType}
    (hk : operatorLevels[k]? = some ops) :
    continuing (.level k) = ops ++ continuing (.level (k + 1)) := by
  have hdrop : operatorLevels.drop k = ops :: operatorLevels.drop (k + 1) := by
    obtain ⟨hlt,hget⟩ := List.getElem?_eq_some_iff.mp hk
    rw [drop_eq_getElem_cons hlt,hget]
  simp only [continuing]
  rw [hdrop,flatten_cons,append_assoc]

private theorem parseBinary_sound {k : Nat} {ops : List TokenType}
    {operator : TokenType → Option OpKind}
    {operand : Parser} (hk : operatorLevels[k]? = some ops)
    (hop : ∀ t, (operator t).isSome = true ↔ t ∈ ops) (h : c.Sound n (.level (k + 1)) operand) :
    c.Sound n (.level k) (c.parseBinary n operator operand) := by
  intro l hl
  refine gives_bind_some (h l hl) gives_none ?_
  rintro tree l₁ ⟨ts,b,hreads,hder,hopd,hstop⟩
  refine Gives.loop (fun s => ∃ ts b, c.Reads n l ts s.2 ∧ Derives c.oldSemantics (.level k) ts ∧
    Operand c.oldSemantics ts b ∧ Stops (.level (k + 1)) b s.2) ?_ n (tree,l₁)
    ⟨ts,b,hreads,.operand hder,hopd,hstop⟩
  rintro ⟨treeL,l₂⟩ ⟨ts,b,hreads,hder,hopd,hstop⟩
  dsimp only at hreads hstop
  refine Gives.bind (peekToken_reads hreads.fueled) ?_
  rintro l₃ ⟨-,-,heq⟩
  obtain rfl := heq hstop.unconsumed
  cases hoper : operator l₃.tokenType with
  | none =>
    refine Gives.pure fun _ => ⟨ts,b,hreads,hder,hopd,hstop.unconsumed,?_,hstop.notCalled⟩
    rw [continuing_level hk,mem_append,not_or]
    refine ⟨?_,hstop.stop⟩
    rw [← hop,hoper]
    simp
  | some op =>
    have ht : l₃.tokenType ∈ ops := (hop _).mp (by rw [hoper]; rfl)
    refine Gives.bind (consumeToken_eq hstop.unconsumed) ?_
    rintro _ rfl
    have htoken := reads_consume (c := c) hreads.fueled hstop.unconsumed
    refine gives_bind_some (h _ htoken.fueled) (fun _ => Gives.pure (by intro h; cases h)) ?_
    rintro treeR l4 ⟨ts',b',hreads',hder',hopd',hstop'⟩
    refine Gives.pure ⟨ts ++ l₃.tokenType :: ts',b',?_,.operation hk ht hder hder',
      hopd.operation (mem_binaryOperators hk ht) hopd',hstop'⟩
    exact hreads.trans (htoken.trans hreads')

section Collections

variable {expression : Parser}

/-- A round of the loop over a list: nothing or a separator was read last, or the closing token
comes next. -/
def ItemsSoFar (c : Surroundings) (n : Nat) (q : Phrase) (closing : TokenType) (l : Lexer)
    (tt : TokenType) (l' : Lexer) : Prop :=
  ∃ ts, c.Reads n l ts l' ∧
    (tt = closing → l'.tokenConsumed = false ∧ l'.tokenType = closing ∧
      (ts = [] ∨ Derives c.oldSemantics q ts)) ∧
    (tt ≠ closing → ∀ us, Derives c.oldSemantics .expression us →
      Derives c.oldSemantics q (ts ++ us))

def Closed (c : Surroundings) (n : Nat) (q : Phrase) (closing : TokenType) (l l' : Lexer) : Prop :=
  ∃ ts, c.Reads n l (ts ++ [closing]) l' ∧ (ts = [] ∨ Derives c.oldSemantics q ts)

private theorem parseItems_sound {q : Phrase} {isSeparator : TokenType → Bool} {closing : TokenType}
    (h : c.Sound n .expression expression) (hclosing : isSeparator closing = false)
    (hfirst : ∀ us, Derives c.oldSemantics .expression us → Derives c.oldSemantics q us)
    (hnext : ∀ t ts us, isSeparator t = true → Derives c.oldSemantics q ts →
      Derives c.oldSemantics .expression us → Derives c.oldSemantics q (ts ++ t :: us))
    (hl : Fueled n l) :
    Gives (c.parseItems expression n isSeparator closing l) fun r =>
      r.1.isSome → c.Closed n q closing l r.2 := by
  refine Gives.bind (peekToken_reads hl) ?_
  rintro l₁ ⟨hreads1,hc1,-⟩
  refine Gives.loop (fun s => c.ItemsSoFar n q closing l s.2.1 s.2.2) ?_ n ([],l₁.tokenType,l₁)
    ⟨[],hreads1,fun ht => ⟨hc1,ht,.inl rfl⟩,fun _ us hus => hfirst us hus⟩
  rintro ⟨items,tt,l₂⟩ ⟨ts,hreads,hend,hitem⟩
  dsimp only at hreads hend hitem ⊢
  split
  · rename_i ht
    obtain ⟨hc,htype,hlist⟩ := hend ht
    refine Gives.bind (consumeToken_eq hc) ?_
    rintro _ rfl
    refine Gives.pure fun _ => ⟨ts,?_,hlist⟩
    rw [← htype]
    exact hreads.trans (reads_consume hreads.fueled hc)
  rename_i ht
  refine gives_bind_some (h l₂ hreads.fueled) (fun _ => Gives.pure (by intro h; cases h)) ?_
  rintro tree l₃ ⟨us,b,hreads',hder,-,hstop⟩
  have hlist := hitem ht us hder
  have hall := hreads.trans hreads'
  refine Gives.bind (peekToken_reads hreads'.fueled) ?_
  rintro l4 ⟨-,-,heq⟩
  obtain rfl := heq hstop.unconsumed
  split
  · rename_i hsep
    refine Gives.bind (consumeToken_eq hstop.unconsumed) ?_
    rintro _ rfl
    refine Gives.pure ⟨_,hall.trans (reads_consume hall.fueled hstop.unconsumed),?_,?_⟩
    · intro hcl
      dsimp only at hcl
      rw [hcl,hclosing] at hsep
      cases hsep
    · intro _ vs hvs
      rw [append_assoc]
      exact hnext _ _ vs hsep hlist hvs
  split
  · exact Gives.pure (by intro h; cases h)
  · rename_i hcl
    have hcl := Decidable.not_not.mp hcl
    exact Gives.pure ⟨_,hall,fun _ => ⟨hstop.unconsumed,hcl,.inr hlist⟩,
      fun hne => absurd hcl hne⟩

def Bracketed (c : Surroundings) (n : Nat) (q : Phrase) (opening closing : TokenType)
    (l l' : Lexer) : Prop :=
  ∃ ts, c.Reads n l (opening :: (ts ++ [closing])) l' ∧ (ts = [] ∨ Derives c.oldSemantics q ts)

private theorem bracketed_sound {α : Type} {q : Phrase} {opening closing : TokenType}
    {x : Lexer → Watch Lexer (Option α × Lexer)} (hl : Fueled n l)
    (hx : ∀ l, Fueled n l → Gives (x l) fun r => r.1.isSome → c.Closed n q closing l r.2) :
    Gives (do
      let l ← c.consumeToken n l
      if l.tokenType ≠ opening then return (none,l) else x l) fun r =>
      r.1.isSome → c.Bracketed n q opening closing l r.2 := by
  refine Gives.bind (consumeToken_reads hl) ?_
  intro l₁ hreads1
  split
  · exact gives_none l₁
  rename_i ht
  rw [Decidable.not_not.mp ht] at hreads1
  refine Gives.mono (hx l₁ hreads1.fueled) ?_
  rintro r hr hsome
  obtain ⟨ts,hreads,hlist⟩ := hr hsome
  exact ⟨ts,hreads1.trans hreads,hlist⟩

private theorem parseArgumentList_sound (h : c.Sound n .expression expression) (hl : Fueled n l) :
    Gives (c.parseArgumentList expression n l) fun r =>
      r.1.isSome → c.Bracketed n .arguments .openParen .closeParen l r.2 := by
  refine bracketed_sound hl fun l hl => parseItems_sound h rfl (fun _ => .argument) ?_ hl
  intro t ts us hsep hts hus
  refine .nextArgument ?_ hts hus
  simpa using hsep

private theorem parseExprList_sound (h : c.Sound n .expression expression) (hl : Fueled n l) :
    Gives (c.parseExprList expression n l) fun r =>
      r.1.isSome → c.Bracketed n .expressions .openBrace .closeBrace l r.2 := by
  refine bracketed_sound hl fun l hl => parseItems_sound h rfl (fun _ => .item) ?_ hl
  intro t ts us hsep hts hus
  rw [eq_of_beq hsep]
  exact .nextItem hts hus

private theorem slurpSemicolons_reads (hl : Fueled n l) (hc : l.tokenConsumed = false) :
    Gives (c.slurpSemicolons n l) fun m => ∃ k, c.Reads n l (List.replicate k .semicolon) m ∧
      m.tokenConsumed = false ∧ (k = 0 → m = l) ∧ m.tokenType ≠ .semicolon := by
  refine Gives.loop (fun m => ∃ k, c.Reads n l (List.replicate k .semicolon) m ∧
    m.tokenConsumed = false ∧ (k = 0 → m = l)) ?_ n l ⟨0,⟨.done l,hl⟩,hc,fun _ => rfl⟩
  rintro m ⟨k,hreads,hm,hzero⟩
  split
  · rename_i ht
    refine Gives.bind (consumeToken_eq hm) ?_
    rintro _ rfl
    refine Gives.bind (peekToken_reads hreads.fueled) ?_
    rintro p ⟨hp,hcp,-⟩
    refine Gives.pure ⟨k + 1,?_,hcp,fun h => by cases h⟩
    have hsemi := reads_consume (c := c) hreads.fueled hm
    rw [ht] at hsemi
    rw [replicate_succ']
    simpa using (hreads.trans hsemi).trans hp
  · rename_i ht
    exact Gives.pure ⟨k,hreads,hm,hzero,ht⟩

/-- Tokens behind which an attribute may begin: semicolons only, or attributes with a semicolon
behind them. -/
def BeforeAttribute (o : Bool) (ts : List TokenType) : Prop :=
  (∀ t ∈ ts, t = .semicolon) ∨ ∃ us, ts = us ++ [.semicolon] ∧ Derives o .attributes us

variable {o : Bool}

theorem BeforeAttribute.semicolon (h : BeforeAttribute o ts) :
    BeforeAttribute o (ts ++ [.semicolon]) := by
  rcases h with h | ⟨us,rfl,hus⟩
  · left
    intro t ht
    rcases List.mem_append.mp ht with ht | ht
    · exact h t ht
    · exact List.mem_singleton.mp ht
  · exact .inr ⟨_,rfl,.trailing hus⟩

private theorem derives_leading {us : List TokenType} (h : ∀ t ∈ ts, t = .semicolon)
    (hus : Derives o .attributes us) : Derives o .attributes (ts ++ us) := by
  induction ts with
  | nil => exact hus
  | cons t ts ih =>
    rw [h t (mem_cons_self ..)]
    exact .leading (ih fun t ht => h t (mem_cons_of_mem _ ht))

private theorem BeforeAttribute.derives {us : List TokenType} (h : BeforeAttribute o ts)
    (hus : Derives o .expression us) :
    Derives o .attributes (ts ++ .identifier :: .boundTo :: us) := by
  rcases h with h | ⟨vs,rfl,hvs⟩
  · exact derives_leading h (.firstAttribute hus)
  · rw [append_assoc]
    exact .nextAttribute hvs hus

private theorem derives_trailing (h : Derives o .attributes ts) (k : Nat) :
    Derives o .attributes (ts ++ List.replicate k .semicolon) := by
  induction k with
  | zero => simpa using h
  | succ k ih =>
    rw [replicate_succ',← append_assoc]
    exact .trailing ih

def AttributesSoFar (c : Surroundings) (n : Nat) (l : Lexer) (tt : TokenType) (l' : Lexer) :
    Prop :=
  ∃ ts, c.Reads n l ts l' ∧
    (tt = .closeBox → l'.tokenConsumed = false ∧ l'.tokenType = .closeBox ∧
      (ts = [] ∨ Derives c.oldSemantics .attributes ts)) ∧
    (tt ≠ .closeBox → BeforeAttribute c.oldSemantics ts)

private theorem parseAttribute_sound (h : c.Sound n .expression expression)
    {s : List (Name × ExprTree) × TokenType × Lexer} (hs : c.AttributesSoFar n l s.2.1 s.2.2) :
    Gives (c.parseAttribute expression n s) (Sum.elim
      (fun s => c.AttributesSoFar n l s.2.1 s.2.2)
      (fun r => r.1.isSome → c.Closed n .attributes .closeBox l r.2)) := by
  obtain ⟨ad,tt,l₂⟩ := s
  obtain ⟨ts,hreads,hend,hbefore⟩ := hs
  dsimp only at hreads hend hbefore
  unfold parseAttribute
  dsimp only
  split
  · rename_i ht
    obtain ⟨hc,htype,hlist⟩ := hend ht
    refine Gives.bind (consumeToken_eq hc) ?_
    rintro _ rfl
    refine Gives.pure fun _ => ⟨ts,?_,hlist⟩
    rw [← htype]
    exact hreads.trans (reads_consume hreads.fueled hc)
  rename_i ht
  have hbefore := hbefore ht
  refine Gives.bind (consumeToken_reads hreads.fueled) ?_
  intro l₃ hreads3
  have hall3 := hreads.trans hreads3
  split
  · rename_i hsemi
    rw [hsemi] at hall3
    refine Gives.pure ⟨_,hall3,?_,fun _ => hbefore.semicolon⟩
    intro hbox
    cases hbox
  split
  · exact Gives.pure (by intro h; cases h)
  rename_i hid
  rw [Decidable.not_not.mp hid] at hall3
  refine Gives.bind (consumeToken_reads hreads3.fueled) ?_
  intro l4 hreads4
  split
  · exact Gives.pure (by intro h; cases h)
  rename_i hbound
  rw [Decidable.not_not.mp hbound] at hreads4
  refine gives_bind_some (h l4 hreads4.fueled) (fun _ => Gives.pure (by intro h; cases h)) ?_
  rintro tree l5 ⟨us,b,hreads5,hder,-,hstop⟩
  dsimp only
  split
  · exact Gives.pure (by intro h; cases h)
  have hattr := hbefore.derives hder
  have hall : c.Reads n l (ts ++ .identifier :: .boundTo :: us) l5 := by
    have := hall3.trans (hreads4.trans hreads5)
    simpa using this
  refine Gives.bind (peekToken_reads hreads5.fueled) ?_
  rintro l6 ⟨-,-,heq⟩
  obtain rfl := heq hstop.unconsumed
  split
  · exact Gives.pure (by intro h; cases h)
  rename_i hnext
  refine Gives.bind (slurpSemicolons_reads hall.fueled hstop.unconsumed) ?_
  rintro l7 ⟨k,hreads7,hc7,hzero,hno⟩
  refine Gives.pure ⟨_,hall.trans hreads7,
    fun htype => ⟨hc7,htype,.inr (derives_trailing hattr k)⟩,?_⟩
  intro htype
  cases k with
  | zero =>
    -- the semicolon or bracket that was seen is still there
    obtain rfl := hzero rfl
    exact absurd ⟨hno,htype⟩ hnext
  | succ k =>
    rw [replicate_succ',← append_assoc]
    exact .inr ⟨_,rfl,derives_trailing hattr k⟩

private theorem parseClassAd_sound (h : c.Sound n .expression expression) (hl : Fueled n l) :
    Gives (c.parseClassAd expression n false l) fun r =>
      r.1.isSome → c.Bracketed n .attributes .openBox .closeBox l r.2 := by
  refine bracketed_sound hl ?_
  intro l₁ hl1
  refine Gives.bind (peekToken_reads hl1) ?_
  rintro l₂ ⟨hreads2,hc2,-⟩
  refine gives_bind_some (Gives.loop (fun s => c.AttributesSoFar n l₁ s.2.1 s.2.2)
    (fun s hs => parseAttribute_sound h hs) n ([],l₂.tokenType,l₂)
    ⟨[],hreads2,fun htype => ⟨hc2,htype,.inl rfl⟩,fun _ => .inl fun _ ht => by cases ht⟩)
    gives_none ?_
  intro ad l₃ hl3
  exact Gives.pure fun _ => hl3

/-- Behind a primary expression or its selections: a name that may be called has a token behind
it that was looked at and does not call it. -/
def OperandRead (c : Surroundings) (n : Nat) (p : Phrase) (l l' : Lexer) : Prop :=
  ∃ ts b, c.Reads n l ts l' ∧ Derives c.oldSemantics p ts ∧ Operand c.oldSemantics ts b ∧
    (b = true → l'.tokenConsumed = false ∧ l'.tokenType ≠ .openParen)

private theorem operandRead_of {p : Phrase} (hreads : c.Reads n l ts l')
    (hder : Derives c.oldSemantics p ts) (hopd : Operand c.oldSemantics ts false) :
    c.OperandRead n p l l' :=
  ⟨ts,false,hreads,hder,hopd,fun h => by cases h⟩

private theorem parsePrimaryExpression_sound (h : c.Sound n .expression expression)
    (hl : Fueled n l) :
    Gives (c.parsePrimaryExpression expression n l) fun r =>
      r.1.isSome → c.OperandRead n .primaryExpression l r.2 := by
  refine Gives.bind (peekToken_reads hl) ?_
  rintro l₁ ⟨hreads1,hc1,-⟩
  have hfirst := hreads1.trans (reads_consume (c := c) hreads1.fueled hc1)
  have hliteral : isLiteral l₁.tokenType = true → ∀ tree : ExprTree,
      Gives (do let l ← c.consumeToken n l₁; return (some tree,l)) fun r =>
        r.1.isSome → c.OperandRead n .primaryExpression l r.2 := by
    intro ht tree
    refine Gives.bind (consumeToken_eq hc1) ?_
    rintro _ rfl
    exact Gives.pure fun _ => operandRead_of hfirst (.literal ht) (.literal ht)
  dsimp only
  split
  · -- a name, with arguments if a parenthesis comes next
    rename_i ht
    rw [ht] at hfirst
    refine Gives.bind (consumeToken_eq hc1) ?_
    rintro _ rfl
    refine Gives.bind (peekToken_reads hfirst.fueled) ?_
    rintro l₂ ⟨hreads2,hc2,-⟩
    have hname := hfirst.trans hreads2
    split
    · refine Gives.bind (parseArgumentList_sound h hreads2.fueled) ?_
      rintro ⟨args,l₃⟩ hl3
      cases args with
      | none => exact gives_none _
      | some args =>
        obtain ⟨ts,hreads3,hargs⟩ := hl3 rfl
        have hcall := derives_call hargs
        exact Gives.pure fun _ => operandRead_of (hname.trans hreads3) hcall.1 hcall.2
    · rename_i hparen
      exact Gives.pure fun _ => ⟨_,true,hname,.identifier,fun _ => rfl,fun _ => ⟨hc2,hparen⟩⟩
  · rename_i ht
    rw [ht] at hfirst
    refine Gives.bind (consumeToken_eq hc1) ?_
    rintro _ rfl
    refine Gives.bind (consumeToken_reads hfirst.fueled) ?_
    intro l₂ hreads2
    split
    · rename_i hid
      rw [hid] at hreads2
      exact Gives.pure fun _ => operandRead_of (hfirst.trans hreads2) .absolute fun _ => rfl
    · exact gives_none _
  · rename_i ht
    rw [ht] at hfirst
    refine Gives.bind (consumeToken_eq hc1) ?_
    rintro _ rfl
    refine gives_bind_some (h _ hfirst.fueled) (fun _ => Gives.pure (by intro h; cases h)) ?_
    rintro tree l₂ ⟨ts,b,hreads2,hder,hopd,hstop⟩
    refine Gives.bind (consumeToken_reads hreads2.fueled) ?_
    intro l₃ hreads3
    split
    · exact gives_none _
    rename_i hclose
    rw [Decidable.not_not.mp hclose] at hreads3
    exact Gives.pure fun _ => operandRead_of (hfirst.trans (hreads2.trans hreads3))
      (.parentheses hder) hopd.parentheses
  · refine Gives.bind (parseClassAd_sound h hreads1.fueled) ?_
    rintro ⟨ad,l₂⟩ hl2
    cases ad with
    | none => exact gives_none _
    | some ad =>
      obtain ⟨ts,hreads2,had⟩ := hl2 rfl
      exact Gives.pure fun _ =>
        operandRead_of (hreads1.trans hreads2) (derives_ad had).1 (derives_ad had).2
  · refine Gives.bind (parseExprList_sound h hreads1.fueled) ?_
    rintro ⟨list,l₂⟩ hl2
    cases list with
    | none => exact gives_none _
    | some list =>
      obtain ⟨ts,hreads2,hlist⟩ := hl2 rfl
      exact Gives.pure fun _ =>
        operandRead_of (hreads1.trans hreads2) (derives_list hlist).1 (derives_list hlist).2
  · rename_i ht
    exact hliteral (by rw [ht]; rfl) _
  · rename_i ht
    exact hliteral (by rw [ht]; rfl) _
  · rename_i ht
    exact hliteral (by rw [ht]; rfl) _
  · rename_i ht
    exact hliteral (by rw [ht]; rfl) _
  · rename_i ht
    exact hliteral (by rw [ht]; rfl) _
  · rename_i ht
    exact hliteral (by rw [ht]; rfl) _
  · exact gives_none _

private theorem parsePostfixExpression_sound (h : c.Sound n .expression expression) :
    c.Sound n .postfixExpression (c.parsePostfixExpression expression n) := by
  intro l hl
  refine gives_bind_some (parsePrimaryExpression_sound h hl) gives_none ?_
  rintro tree l₁ ⟨ts,b,hreads,hder,hopd,hcall⟩
  refine Gives.loop (fun s => c.OperandRead n .postfixExpression l s.2) ?_ n (tree,l₁)
    ⟨ts,b,hreads,.primary hder,hopd,hcall⟩
  rintro ⟨treeL,l₂⟩ ⟨ts,b,hreads,hder,hopd,hcall⟩
  dsimp only at hreads hcall
  refine Gives.bind (peekToken_reads hreads.fueled) ?_
  rintro l₃ ⟨hreads3,hc3,heq⟩
  have hall := hreads.trans hreads3
  rw [append_nil] at hall
  have hnext := hall.trans (reads_consume hall.fueled hc3)
  split
  · rename_i ht
    rw [ht] at hnext
    refine Gives.bind (consumeToken_eq hc3) ?_
    rintro _ rfl
    refine gives_bind_some (h _ hnext.fueled) (fun _ => Gives.pure (by intro h; cases h)) ?_
    rintro treeR l4 ⟨us,b',hreads4,hder',hopd',hstop'⟩
    refine Gives.bind (consumeToken_reads hreads4.fueled) ?_
    intro l5 hreads5
    split
    · rename_i hclose
      rw [hclose] at hreads5
      have hboxed := hnext.trans (hreads4.trans hreads5)
      rw [append_assoc] at hboxed
      exact Gives.pure (operandRead_of hboxed (.subscript hder hder')
        (hopd.subscript hopd'))
    · exact Gives.pure (by intro h; cases h)
  rename_i hbox
  split
  · rename_i ht
    rw [ht] at hnext
    refine Gives.bind (consumeToken_eq hc3) ?_
    rintro _ rfl
    refine Gives.bind (consumeToken_reads hnext.fueled) ?_
    intro l4 hreads4
    split
    · exact Gives.pure (by intro h; cases h)
    rename_i hid
    rw [Decidable.not_not.mp hid] at hreads4
    have hsel := hnext.trans hreads4
    rw [append_assoc] at hsel
    exact Gives.pure (operandRead_of hsel (.selected hder) hopd.selected)
  · rename_i hsel
    refine Gives.pure fun _ => ⟨ts,b,hall,hder,hopd,hc3,?_,?_⟩
    · simp [continuing,hbox,hsel]
    · intro hb
      obtain ⟨hc,hparen⟩ := hcall hb
      rw [heq hc]
      exact hparen

private theorem unaryOperator_isSome (t : TokenType) :
    (unaryOperator t).isSome = isUnaryOperator t := by
  cases t <;> rfl

private theorem parseUnaryExpression_sound (h : c.Sound n .expression expression) : ∀ k : Nat,
    c.Sound n .unaryExpression (c.parseUnaryExpression expression n k) := by
  intro k
  induction k with
  | zero => intro l _; exact Gives.exhausted
  | succ k ih =>
    intro l hl
    refine Gives.bind (peekToken_reads hl) ?_
    rintro l₁ ⟨hreads1,hc1,-⟩
    have hsome := unaryOperator_isSome l₁.tokenType
    cases hop : unaryOperator l₁.tokenType with
    | none =>
      refine Gives.mono (parsePostfixExpression_sound h l₁ hreads1.fueled) ?_
      rintro r hr hr'
      obtain ⟨ts,b,hreads,hder,hopd,hstop⟩ := hr hr'
      exact ⟨ts,b,hreads1.trans hreads,.unsigned hder,hopd,
        ⟨hstop.unconsumed,hstop.stop,hstop.notCalled⟩⟩
    | some op =>
      rw [hop] at hsome
      refine Gives.bind (consumeToken_eq hc1) ?_
      rintro _ rfl
      have hsign := hreads1.trans (reads_consume (c := c) hreads1.fueled hc1)
      refine gives_bind_some (ih _ hsign.fueled) gives_none ?_
      rintro tree l₂ ⟨ts,b,hreads,hder,hopd,hstop⟩
      exact Gives.pure fun _ => ⟨_,b,hsign.trans hreads,.signed hsome.symm hder,
        hopd.signed hsome.symm,hstop⟩

private theorem parseLogicalORExpression_sound (h : c.Sound n .expression expression) :
    c.Sound n (.level 0) (c.parseLogicalORExpression expression n) := by
  have hunary : c.Sound n (.level 10) (c.parseUnaryExpression expression n n) := by
    intro l hl
    refine Gives.mono (parseUnaryExpression_sound h n l hl) ?_
    rintro r hr hr'
    obtain ⟨ts,b,hreads,hder,hopd,hstop⟩ := hr hr'
    exact ⟨ts,b,hreads,.unary hder,hopd,⟨hstop.unconsumed,hstop.stop,hstop.notCalled⟩⟩
  refine parseBinary_sound (k := 0) rfl ?_ (parseBinary_sound (k := 1) rfl ?_
    (parseBinary_sound (k := 2) rfl ?_ (parseBinary_sound (k := 3) rfl ?_
    (parseBinary_sound (k := 4) rfl ?_ (parseBinary_sound (k := 5) rfl ?_
    (parseBinary_sound (k := 6) rfl ?_ (parseBinary_sound (k := 7) rfl ?_
    (parseBinary_sound (k := 8) rfl ?_ (parseBinary_sound (k := 9) rfl ?_ hunary)))))))))
  all_goals
    intro t
    cases t <;> simp

def IsConditional (o : Bool) (ts : List TokenType) : Prop :=
  ∃ ta tm tr, ts = ta ++ .qmark :: (tm ++ .colon :: tr) ∧ Derives o (.level 0) ta ∧
    Derives o .expression tm ∧ Derives o .expression tr

private theorem IsConditional.derives (h : IsConditional o ts) : Derives o .expression ts := by
  obtain ⟨ta,tm,tr,rfl,hta,htm,htr⟩ := h
  exact .conditional hta htm htr

def ConditionalRead (c : Surroundings) (n : Nat) (l l' : Lexer) : Prop :=
  ∃ ts b, c.Reads n l ts l' ∧ IsConditional c.oldSemantics ts ∧ Operand c.oldSemantics ts b ∧
    Stops .expression b l'

def WholeRead (c : Surroundings) (n : Nat) (l l' : Lexer) : Prop :=
  ∃ ts, c.Reads n l (ts ++ [.endOfInput]) l' ∧ Derives c.oldSemantics .expression ts

/-- The exits of `parseExpression`: behind a conditional, else behind the end of the input if a full
parse was asked for. -/
theorem parseTernary_reads (full : Bool) (h : c.Sound n .expression expression) (hl : Fueled n l) :
    Gives (c.parseTernary expression n full l) fun r =>
      r.2.1.isSome → (full = true → r.1 = true) →
      c.ConditionalRead n l r.2.2 ∨ (full = true ∧ c.WholeRead n l r.2.2) ∨
        (full = false ∧ c.Phrased n .expression l r.2.2) := by
  refine gives_bind_some (parseLogicalORExpression_sound h l hl)
    (fun _ => Gives.pure fun h => by cases h) ?_
  rintro tree l₁ ⟨ta,a,hreads,hder,hopd,hstop⟩
  refine Gives.bind (peekToken_reads hreads.fueled) ?_
  rintro l₂ ⟨-,-,heq⟩
  obtain rfl := heq hstop.unconsumed
  have hnext := hreads.trans (reads_consume (c := c) hreads.fueled hstop.unconsumed)
  split
  · rename_i hq
    rw [hq] at hnext
    refine Gives.bind (consumeToken_eq hstop.unconsumed) ?_
    rintro _ rfl
    refine Gives.bind (h _ hnext.fueled) ?_
    rintro ⟨treeM,l₃⟩ hl3
    cases treeM with
    | none =>
      refine Gives.skip fun l4 => ?_
      split
      · exact Gives.pure fun h => by cases h
      · exact Gives.skip fun r => Gives.pure fun h => by cases h
    | some treeM =>
      obtain ⟨tm,b,hreads3,hderM,hopdM,hstopM⟩ := hl3 rfl
      dsimp only at hreads3
      refine Gives.bind (consumeToken_reads hreads3.fueled) ?_
      intro l4 hreads4
      split
      · exact Gives.pure fun h => by cases h
      rename_i hcolon
      rw [Decidable.not_not.mp hcolon] at hreads4
      refine gives_bind_some (h _ hreads4.fueled) (fun _ => Gives.pure fun h => by cases h) ?_
      rintro treeR l5 ⟨tr,d,hreads5,hderR,hopdR,hstopR⟩
      have hall := hnext.trans (hreads3.trans (hreads4.trans hreads5))
      refine Gives.pure fun _ _ => .inl ⟨_,d,?_,⟨ta,tm,tr,rfl,hder,hderM,hderR⟩,
        hopd.conditional hopdM hopdR,hstopR⟩
      simpa using hall
  rename_i hq
  split
  · rename_i hfull
    refine Gives.bind (consumeToken_eq hstop.unconsumed) ?_
    rintro _ rfl
    refine Gives.pure fun _ hsuccess => .inr (.inl ⟨hfull,ta,?_,.plain hder⟩)
    have hend := eq_of_beq (hsuccess hfull)
    change l₂.tokenType = .endOfInput at hend
    rw [hend] at hnext
    exact hnext
  · rename_i hfull
    refine Gives.pure fun _ _ => .inr (.inr ⟨by simpa using hfull,ta,a,hreads,.plain hder,
      hopd,hstop.unconsumed,?_,hstop.notCalled⟩)
    intro hmem
    rcases List.mem_cons.mp hmem with ht | ht
    · exact hq ht
    · exact hstop.stop ht

end Collections

private theorem expression_sound (k : Nat) :
    c.Sound n .expression fun l => (·.2) <$> c.parseExpression n k false l := by
  induction k with
  | zero => intro l _; exact Gives.map Gives.exhausted
  | succ k ih =>
    intro l hl
    refine Gives.map (Gives.mono (parseTernary_reads false ih hl) ?_)
    intro r hr hsome
    rcases hr hsome (fun h => by cases h) with ⟨ts,b,hreads,hcond,hopd,hstop⟩ | ⟨hfull,_⟩ | ⟨-,hp⟩
    · exact ⟨ts,b,hreads,hcond.derives,hopd,hstop⟩
    · cases hfull
    · exact hp

private theorem not_viable_of_stops {b : Bool} (hopd : Operand c.oldSemantics ts b)
    (hstop : Stops .expression b l) : ¬ Viable c.oldSemantics (ts ++ [l.tokenType]) := by
  obtain ⟨-,hmem,hcall⟩ := hstop
  generalize l.tokenType = t at hmem hcall
  unfold Viable
  rw [scanTokens_then (hopd [])]
  have hop : t ∉ binaryOperators := by
    intro h
    exact hmem (mem_cons_of_mem _ (mem_append_left _ h))
  have hscan : scanBehind c.oldSemantics b t [] = none := by
    unfold scanBehind
    rw [if_neg hop]
    cases t with
    | qmark => exact absurd (mem_cons_self ..) hmem
    | openBox | selection => exact absurd (by decide) hmem
    | openParen =>
      cases b with
      | true => exact absurd rfl (hcall rfl)
      | false => rfl
    | _ => rfl
  change ¬ ((scanBehind c.oldSemantics b t []).bind _).isSome = true
  rw [hscan]
  simp

variable (c n)

/-- The tokens of the source are one expression. -/
def Whole (tt : TokenType) (source : LexerSource) : Prop :=
  ∃ ts l', c.Takes n (Lexer.initializeFrom tt source) (ts ++ [.endOfInput]) l' ∧
    Derives c.oldSemantics .expression ts

/-- The tokens of the input begin with a conditional, and the token behind it is neither the end
of the input nor one that goes on with it. -/
def Trailing (tt : TokenType) (source : LexerSource) : Prop :=
  ∃ ts t l', c.Takes n (Lexer.initializeFrom tt source) (ts ++ [t]) l' ∧
    IsConditional c.oldSemantics ts ∧ t ≠ .endOfInput ∧ ¬ Viable c.oldSemantics (ts ++ [t])

variable {c n} {tt : TokenType} {source : LexerSource}

private theorem not_viable_end (ts us : List TokenType) :
    ¬ Viable c.oldSemantics (ts ++ .endOfInput :: us) := by
  have hend : ∀ s : ScanState, scanToken c.oldSemantics s .endOfInput = none := by
    rintro ⟨p,s⟩
    cases p <;> cases s <;> rfl
  unfold Viable
  rw [scanTokens_append]
  cases scanTokens c.oldSemantics (.operand,[]) ts with
  | none => simp
  | some s => simp [scanTokens,hend]

private theorem not_whole_of_trailing (h : c.Trailing n tt source) : ¬ c.Whole n tt source := by
  rintro ⟨us,k,hus,hder⟩
  obtain ⟨ts,t,l',hts,hcond,hend,hviable⟩ := h
  rcases hts.comparable hus with hle | hle
  · rcases List.prefix_concat_iff.mp hle with heq | ⟨rest,rfl⟩
    · exact hend (List.singleton_inj.mp (append_inj' heq rfl).2)
    · exact hviable (viable_of_derives hder)
  · rcases List.prefix_concat_iff.mp hle with heq | ⟨rest,hrest⟩
    · exact hend (List.singleton_inj.mp (append_inj' heq rfl).2).symm
    · have hts : Viable c.oldSemantics (us ++ .endOfInput :: rest) := by
        rw [append_cons,hrest]
        exact viable_of_derives (o := c.oldSemantics)
          (by simpa using hcond.derives : Derives _ _ (ts ++ []))
      exact not_viable_end us rest hts

private theorem parseTernary_tree {expression : Parser} (full : Bool) (l : Lexer) :
    Gives (c.parseTernary expression n full l) fun r => r.1 = true → r.2.1.isSome := by
  refine Gives.skip fun r => ?_
  obtain ⟨tree,l₁⟩ := r
  cases tree with
  | none => exact Gives.pure fun h => by cases h
  | some tree =>
    refine Gives.skip fun l₂ => ?_
    split
    · refine Gives.skip fun l₃ => Gives.skip fun r => Gives.skip fun l5 => ?_
      obtain ⟨treeM,l4⟩ := r
      split
      · exact Gives.pure fun h => by cases h
      refine Gives.skip fun r => ?_
      obtain ⟨treeR,l6⟩ := r
      dsimp only
      split
      · exact Gives.pure fun _ => rfl
      · exact Gives.pure fun h => by cases h
    split
    · exact Gives.skip fun l₃ => Gives.pure fun _ => rfl
    · exact Gives.pure fun _ => rfl

private theorem whole_or_trailing (hn : fuelFor source ≤ n) {tree : Option ExprTree}
    (h : (c.parseExpressionFrom n tt source true).value = some (true,tree)) :
    c.Whole n tt source ∨ c.Trailing n tt source := by
  have hfuel : Fueled n (Lexer.initializeFrom tt source) := by
    have htodo := todo_initializeFrom tt source
    unfold fuelFor at hn
    unfold Lexer.todo at htodo
    unfold Fueled
    omega
  obtain ⟨k,rfl⟩ : ∃ k, n = k + 1 := ⟨n - 1,by unfold fuelFor at hn; omega⟩
  have hreads : Gives (c.parseExpression (k + 1) (k + 1) true (Lexer.initializeFrom tt source))
      fun r => r.1 = true → c.Whole (k + 1) tt source ∨ c.Trailing (k + 1) tt source := by
    intro r hr hsuccess
    have htree := parseTernary_tree true _ r hr hsuccess
    rcases parseTernary_reads true (expression_sound k) hfuel r hr htree fun _ => hsuccess with
      ⟨ts,b,hts,hcond,hopd,hstop⟩ | ⟨-,ts,hts,hder⟩ | ⟨hfull,_⟩
    · have hall := hts.trans (reads_consume hts.fueled hstop.unconsumed)
      by_cases hend : r.2.2.tokenType = .endOfInput
      · rw [hend] at hall
        exact .inl ⟨ts,_,hall.takes,hcond.derives⟩
      · exact .inr ⟨ts,_,_,hall.takes,hcond,hend,not_viable_of_stops hopd hstop⟩
    · exact .inl ⟨ts,_,hts.takes,hder⟩
    · cases hfull
  have hparse : Gives (c.parseExpressionFrom (k + 1) tt source true) fun r =>
      r.1 = true → c.Whole (k + 1) tt source ∨ c.Trailing (k + 1) tt source := by
    refine Gives.bind hreads ?_
    rintro ⟨success,tree',l'⟩ hr
    exact Gives.pure hr
  exact hparse _ h rfl

/-- A full parse that succeeds has read an expression and the end of the input, unless a conditional
is followed by a token that does not belong to it. -/
theorem full_parse_iff (hn : fuelFor source ≤ n) {tree : Option ExprTree}
    (h : (c.parseExpressionFrom n tt source true).value = some (true,tree)) :
    c.Whole n tt source ↔ ¬ c.Trailing n tt source := by
  constructor
  · intro hwhole htrailing
    exact not_whole_of_trailing htrailing hwhole
  · exact (whole_or_trailing hn h).resolve_right

def tokensAhead (c : Surroundings) (n : Nat) : Nat → Lexer → Option (List TokenType)
  | 0, _ => some []
  | k + 1, l => (c.peekToken n l).value.bind fun m =>
    (tokensAhead c n k m.consume).map (m.tokenType :: ·)

private theorem takes_of_tokensAhead : ∀ (k : Nat) {l : Lexer} {ts : List TokenType}, Fueled n l →
    c.tokensAhead n k l = some ts → ∃ l', c.Takes n l ts l' := by
  intro k
  induction k with
  | zero =>
    intro l ts _ h
    cases h
    exact ⟨l,.done l⟩
  | succ k ih =>
    intro l ts hl h
    obtain ⟨m,hm,h⟩ := Option.bind_eq_some_iff.mp h
    obtain ⟨us,hus,rfl⟩ := Option.map_eq_some_iff.mp h
    obtain ⟨hreads,hc,-⟩ := peekToken_reads hl m hm
    obtain ⟨l',hl'⟩ := ih (l := m.consume) hreads.fueled hus
    exact ⟨l',hreads.takes.trans (.consume hc hl')⟩

private theorem derives_identifier {o : Bool} : Derives o (.level 0) [.identifier] := by
  iterate 10 apply Derives.operand
  exact .unary (.unsigned (.primary .identifier))

/-- `a?b:c d` is accepted, and `d` is ignored. -/
theorem full_parse_ignores :
    (plain.parseExpressionFrom 100 .endOfInput (.ofText .string "a?b:c d".toList) true).value =
      some (true,some (.op3 .ternary (.attrRef ['a'] false) (.attrRef ['b'] false)
        (.attrRef ['c'] false))) ∧
    ¬ plain.Whole 100 .endOfInput (.ofText .string "a?b:c d".toList) := by
  refine ⟨by rfl,not_whole_of_trailing ?_⟩
  have htokens : plain.tokensAhead 100 6
      (Lexer.initializeFrom .endOfInput (.ofText .string "a?b:c d".toList)) =
        some [.identifier,.qmark,.identifier,.colon,.identifier,.identifier] := by
    decide
  obtain ⟨l',hl'⟩ := takes_of_tokensAhead 6 (by decide) htokens
  exact ⟨[.identifier,.qmark,.identifier,.colon,.identifier],.identifier,l',hl',
    ⟨_,_,_,rfl,derives_identifier,.plain derives_identifier,.plain derives_identifier⟩,
    by decide,by decide⟩

/-- `a` is accepted and is whole. -/
theorem full_parse_iff_name :
    plain.Whole 100 .endOfInput (.ofText .string "a".toList) ↔
      ¬ plain.Trailing 100 .endOfInput (.ofText .string "a".toList) :=
  full_parse_iff (by decide) (show (plain.parseExpressionFrom 100 .endOfInput
    (.ofText .string "a".toList) true).value = some (true,some (.attrRef ['a'] false)) by rfl)

end Surroundings

end Condor.ClassAds
