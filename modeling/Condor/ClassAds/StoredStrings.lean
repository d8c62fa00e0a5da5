import Mathlib.Data.List.TakeWhile
import Condor.ClassAds.Escaping

/-!
# Strings are read back

The lexer makes one token of a string in the new syntax, and a full parse makes a literal of it.
-/

namespace Condor.ClassAds

open List

open Lib (Watch)

variable {s : List Char} {n : Nat}

namespace Lexer

variable {l : Lexer} {c : Char} {rest : List Char}

structure Scanned (l : Lexer) (text rest : List Char) (m : Lexer) : Prop where
  ch : m.ch = some '"'
  rest : m.source.rest = rest
  lexBuffer : m.lexBuffer = l.lexBuffer ++ text
  tokenConsumed : m.tokenConsumed = l.tokenConsumed

private theorem ch_of_ahead (h : l.ahead = c :: rest) : l.ch = some c := by
  rw [ch_eq,h]
  rfl

private theorem rest_of_ahead (h : l.ahead = c :: rest) : l.source.rest = rest := by
  rw [ahead_of_ch (ch_of_ahead h)] at h
  exact (List.cons.inj h).2

private theorem lexBuffer_wind (h : l.ch = some c) : l.wind.lexBuffer = l.lexBuffer ++ [c] := by
  simp [wind,h]

theorem Scanned.wind {text : List Char} {m : Lexer} (hc : l.ch = some c)
    (h : Scanned l.wind text rest m) : Scanned l (c :: text) rest m :=
  ⟨h.ch,h.rest,by rw [h.lexBuffer,lexBuffer_wind hc,append_assoc]; rfl,
    h.tokenConsumed.trans (tokenConsumed_wind l)⟩

private theorem scanString_step {odd : Bool} {old : Char} (hc : l.ch = some c) (hnul : c ≠ '\x00')
    (h : c ≠ '"' ∨ old = '\\' ∧ odd = true) :
    scanString '"' (n + 1) odd old l = scanString '"' n (!odd && c == '\\') c l.wind := by
  have hgo : c ≠ '\x00' ∧ (c ≠ '"' ∨ c = '"' ∧ old = '\\' ∧ odd = true) := by
    refine ⟨hnul,?_⟩
    rcases h with h | h
    · exact .inl h
    · by_cases hq : c = '"'
      · exact .inr ⟨hq,h⟩
      · exact .inl hq
  rw [scanString,hc]
  exact if_pos hgo

private theorem scanString_newBody (hnul : '\x00' ∉ s) (h : l.ahead = newBody s ++ '"' :: rest)
    (hn : (newBody s).length < n) (old : Char) :
    ∃ m, scanString '"' n false old l = some m ∧ Scanned l (newBody s) rest m := by
  induction s generalizing n old l with
  | nil =>
    obtain ⟨k,rfl⟩ : ∃ k, n = k + 1 := ⟨n - 1,by omega⟩
    have hch := ch_of_ahead h
    refine ⟨l,?_,⟨hch,rest_of_ahead h,(append_nil _).symm,rfl⟩⟩
    rw [scanString,hch]
    simp
  | cons c s ih =>
    have hc : c ≠ '\x00' := fun hc => hnul (by simp [hc])
    have hs : '\x00' ∉ s := fun hs => hnul (mem_cons_of_mem c hs)
    by_cases hq : c = '\\' ∨ c = '"'
    · have hbody : newBody (c :: s) = '\\' :: c :: newBody s := by simp [newBody,hq]
      rw [hbody] at h hn ⊢
      simp only [length_cons] at hn
      obtain ⟨k,rfl⟩ : ∃ k, n = k + 2 := ⟨n - 2,by omega⟩
      have hch := ch_of_ahead h
      have hahead : l.wind.ahead = c :: (newBody s ++ '"' :: rest) := by
        rw [ahead_wind,h]
        rfl
      have hch' := ch_of_ahead hahead
      have hahead' : l.wind.wind.ahead = newBody s ++ '"' :: rest := by
        rw [ahead_wind,hahead]
        rfl
      obtain ⟨m,hm,hscanned⟩ := ih hs hahead' (n := k) (by omega) c
      refine ⟨m,?_,(hscanned.wind hch').wind hch⟩
      -- behind the first backslash the next character is escaped
      have hodd : (!false && '\\' == '\\') = true := rfl
      rw [scanString_step hch (by decide) (.inl (by decide)),hodd,
        scanString_step hch' hc (.inr ⟨rfl,rfl⟩)]
      exact hm
    · have hbody : newBody (c :: s) = c :: newBody s := by simp [newBody,hq]
      rw [hbody] at h hn ⊢
      rw [length_cons] at hn
      obtain ⟨k,rfl⟩ : ∃ k, n = k + 1 := ⟨n - 1,by omega⟩
      have hch := ch_of_ahead h
      have hahead : l.wind.ahead = newBody s ++ '"' :: rest := by
        rw [ahead_wind,h]
        rfl
      obtain ⟨m,hm,hscanned⟩ := ih hs hahead (n := k) (by omega) c
      refine ⟨m,?_,hscanned.wind hch⟩
      have hodd : (!false && c == '\\') = false := by
        simpa using fun hb => hq (.inl hb)
      rw [scanString_step hch hc (.inl fun hb => hq (.inr hb)),hodd]
      exact hm

structure StringToken (l : Lexer) (s rest : List Char) : Prop where
  tokenType : l.tokenType = .stringValue
  strValue : l.yylval.strValue = s
  tokenConsumed : l.tokenConsumed = false
  ahead : l.ahead = rest

private theorem stringParts_newBody (hnul : '\x00' ∉ s) (h : l.ahead = newBody s ++ ['"'])
    (hn : (newBody s).length < n) (hbuffer : l.lexBuffer = []) (hl : l.tokenConsumed = false)
    (k : Nat) : ∃ m, stringParts '"' n (k + 1) l = some m ∧ StringToken m s [] := by
  obtain ⟨m,hm,hscanned⟩ := scanString_newBody hnul h hn '\x00'
  have hnext : m.source.next = none := by
    rw [LexerSource.next_eq,hscanned.rest]
    rfl
  have hpast : readPastSpace n m.source = some (none,m.source.readCharacter) := by
    obtain ⟨j,rfl⟩ : ∃ j, n = j + 1 := ⟨n - 1,by omega⟩
    rw [readPastSpace,hnext]
    rfl
  have hlast : { m with source := m.source.readCharacter }.ahead = ['"'] := by
    have hrest := LexerSource.rest_readCharacter m.source
    rw [hscanned.rest] at hrest
    simp only [ahead,hscanned.ch,hrest]
    rfl
  have htext : convertEscapes m.lexBuffer = some s := by
    rw [hscanned.lexBuffer,hbuffer]
    exact convertEscapes_newBody s
  have htoken : StringToken (stringToken '"' { m with source := m.source.readCharacter }) s [] := by
    simp only [stringToken,htext]
    refine ⟨rfl,rfl,?_,?_⟩
    · exact (tokenConsumed_wind _).trans (hscanned.tokenConsumed.trans hl)
    · change Lexer.ahead (Lexer.wind _) = _
      rw [ahead_wind,hlast]
      rfl
  refine ⟨_,?_,htoken⟩
  rw [stringParts,hm]
  simp [hscanned.ch,hpast]

private theorem skipBlank_visible (hl : ∀ c, l.ch = some c → isspace c = false ∧ c ≠ '/')
    (n k : Nat) :
    skipBlank n (k + 1) l = some (false,l) := by
  have hround : skipRound n l = some (.break l) := by
    cases hc : l.ch with
    | none => simp [skipRound,hc]
    | some c => simp [skipRound,hc,hl c hc]
  rw [skipBlank,hround]

private theorem tokenize_quote (o : Bool) (h : l.ch = some '"') :
    tokenize o n l = tokenizeString '"' n l := by
  simp [tokenize,h,isdigit,isalpha]

private theorem nextToken_newBody (o : Bool) (hnul : '\x00' ∉ s)
    (h : l.ahead = '"' :: newBody s ++ ['"']) (hn : (newBody s).length < n) :
    ∃ m, nextToken o n l = some m ∧ StringToken m s [] := by
  obtain ⟨k,rfl⟩ : ∃ k, n = k + 1 := ⟨n - 1,by omega⟩
  have hch : l.ch = some '"' := ch_of_ahead h
  have hvisible : ∀ c, { l with tokenConsumed := false }.ch = some c →
      isspace c = false ∧ c ≠ '/' := by
    intro c hc
    cases hch.symm.trans hc
    decide
  have hahead : { l with tokenConsumed := false }.wind.mark.ahead = newBody s ++ ['"'] := by
    rw [ahead_mark,ahead_wind]
    change l.ahead.tail = _
    rw [h]
    rfl
  obtain ⟨m,hm,htoken⟩ := stringParts_newBody hnul hahead hn rfl (tokenConsumed_wind _) k
  refine ⟨m,?_,htoken⟩
  rw [nextToken,skipBlank_visible hvisible]
  exact (tokenize_quote (l := { l with tokenConsumed := false }) o hch).trans hm

private theorem nextToken_end (o : Bool) (h : l.ahead = []) (hn : 0 < n) :
    nextToken o n l = some ({ l with tokenConsumed := false }.setToken .endOfInput) := by
  obtain ⟨k,rfl⟩ : ∃ k, n = k + 1 := ⟨n - 1,by omega⟩
  have hch : l.ch = none := by rw [ch_eq,h]; rfl
  rw [nextToken,skipBlank_visible fun c hc => by cases hch.symm.trans hc]
  simp only [tokenize,hch]

end Lexer

namespace Surroundings

variable {c : Surroundings} (expression : Parser) {tree : ExprTree} {l m : Lexer}

def ReadsAll (x : Watch Lexer (Option ExprTree × Lexer)) (tree : ExprTree) (m : Lexer) : Prop :=
  x.value = some (some tree,m) ∧ m.tokenConsumed = false ∧ m.tokenType = .endOfInput

private theorem peekToken_seen (h : m.tokenConsumed = false) :
    (c.peekToken n m).value = some m := by
  simp [peekToken,h,Watch.pure_def]

private theorem value_loop_of_inr {β γ : Type} {round : β → Watch Lexer (β ⊕ γ)} {b : β} {r : γ}
    (h : (round b).value = some (.inr r)) (hn : 0 < n) :
    (Watch.loop round n b).value = some r := by
  obtain ⟨k,rfl⟩ : ∃ k, n = k + 1 := ⟨n - 1,by omega⟩
  rw [Watch.loop,Watch.value_bind_of_some h]
  rfl

private theorem parseBinary_readsAll {operator : TokenType → Option OpKind} {operand : Parser}
    (hoperator : operator .endOfInput = none) (hn : 0 < n)
    (h : ReadsAll (operand l) tree m) : ReadsAll (c.parseBinary n operator operand l) tree m := by
  obtain ⟨hvalue,hconsumed,htype⟩ := h
  refine ⟨?_,hconsumed,htype⟩
  rw [parseBinary,Watch.value_bind_of_some hvalue]
  apply value_loop_of_inr _ hn
  rw [Watch.value_bind_of_some (peekToken_seen hconsumed),htype,hoperator]
  rfl

private theorem parsePostfixExpression_string (h : l.StringToken s []) (hn : 0 < n) :
    ∃ m, ReadsAll (c.parsePostfixExpression expression n l) (.literal (.string s) .none) m := by
  have hprimary : (c.parsePrimaryExpression expression n l).value =
      some (some (.literal (.string s) .none),l.consume) := by
    rw [parsePrimaryExpression,Watch.value_bind_of_some (peekToken_seen h.tokenConsumed)]
    simp only [h.tokenType,h.strValue]
    rw [consumeToken,Watch.value_bind_of_some
      (Watch.value_bind_of_some (peekToken_seen h.tokenConsumed))]
    rfl
  have hpeek : (c.peekToken n l.consume).value =
      some ({ l.consume with tokenConsumed := false }.setToken .endOfInput) :=
    Lexer.nextToken_end c.oldSemantics h.ahead hn
  refine ⟨{ l.consume with tokenConsumed := false }.setToken .endOfInput,?_,rfl,rfl⟩
  · rw [parsePostfixExpression,Watch.value_bind_of_some hprimary]
    apply value_loop_of_inr _ hn
    rw [Watch.value_bind_of_some hpeek]
    rfl

private theorem parseUnaryExpression_string (hpeek : (c.peekToken n l).value = some m)
    (h : m.StringToken s []) (hn : 0 < n) (k : Nat) :
    ∃ m', ReadsAll (c.parseUnaryExpression expression n (k + 1) l)
      (.literal (.string s) .none) m' := by
  obtain ⟨m',hvalue,hend⟩ := parsePostfixExpression_string expression h hn
  refine ⟨m',?_,hend⟩
  rw [parseUnaryExpression,Watch.value_bind_of_some hpeek,h.tokenType]
  exact hvalue

private theorem parseLogicalORExpression_string (hpeek : (c.peekToken n l).value = some m)
    (h : m.StringToken s []) (hn : 0 < n) :
    ∃ m', ReadsAll (c.parseLogicalORExpression expression n l) (.literal (.string s) .none) m' := by
  obtain ⟨k,rfl⟩ : ∃ k, n = k + 1 := ⟨n - 1,by omega⟩
  obtain ⟨m',hunary⟩ :=
    parseUnaryExpression_string expression hpeek h hn k
  have hadd : ReadsAll (c.parseAdditiveExpression expression (k + 1) l) _ m' :=
    parseBinary_readsAll rfl hn (parseBinary_readsAll rfl hn hunary)
  have heq : ReadsAll (c.parseEqualityExpression expression (k + 1) l) _ m' :=
    parseBinary_readsAll rfl hn (parseBinary_readsAll rfl hn (parseBinary_readsAll rfl hn hadd))
  have hor : ReadsAll (c.parseInclusiveORExpression expression (k + 1) l) _ m' :=
    parseBinary_readsAll rfl hn (parseBinary_readsAll rfl hn (parseBinary_readsAll rfl hn heq))
  exact ⟨m',parseBinary_readsAll rfl hn (parseBinary_readsAll rfl hn hor)⟩

private theorem parseTernary_string (hpeek : (c.peekToken n l).value = some m)
    (h : m.StringToken s []) (hn : 0 < n) :
    ∃ m', (c.parseTernary expression n true l).value =
      some (true,some (.literal (.string s) .none),m') := by
  obtain ⟨m',hvalue,hconsumed,htype⟩ :=
    parseLogicalORExpression_string expression hpeek h hn
  have hseen : (c.peekToken n m').value = some m' := peekToken_seen hconsumed
  refine ⟨m'.consume,?_⟩
  rw [parseTernary,Watch.value_bind_of_some hvalue]
  dsimp only
  rw [Watch.value_bind_of_some hseen]
  rw [htype,if_neg (by decide),if_pos rfl]
  have hconsume : (c.consumeToken n m').value = some m'.consume := by
    rw [consumeToken,Watch.value_bind_of_some hseen]
    rfl
  rw [Watch.value_bind_of_some hconsume]
  change some (m'.tokenType == .endOfInput,_) = _
  rw [htype]
  rfl

private theorem parseExpression_newBody (hnul : '\x00' ∉ s) (tt : TokenType) {source : LexerSource}
    (hrest : source.rest = '"' :: newBody s ++ ['"']) (hn : (newBody s).length < n) :
    (c.parseExpressionFrom n tt source true).value =
      some (true,some (.literal (.string s) .none)) := by
  have hahead : (Lexer.initializeFrom tt source).ahead = '"' :: newBody s ++ ['"'] := by
    rw [← hrest]
    exact Lexer.ahead_advance { Lexer.initializeFrom tt source with source := source }
  obtain ⟨m,hm,htoken⟩ := Lexer.nextToken_newBody c.oldSemantics hnul hahead hn
  have hpeek : (c.peekToken n (Lexer.initializeFrom tt source)).value = some m := hm
  obtain ⟨k,rfl⟩ : ∃ k, n = k + 1 := ⟨n - 1,by omega⟩
  obtain ⟨m',hparse⟩ := parseTernary_string
    (fun l => (·.2) <$> c.parseExpression (k + 1) k false l) hpeek htoken (by omega)
  have hwhole : (c.parseExpression (k + 1) (k + 1) true (Lexer.initializeFrom tt source)).value =
      some (true,some (.literal (.string s) .none),m') := hparse
  rw [parseExpressionFrom,Watch.value_bind_of_some hwhole]
  rfl

theorem nul_not_mem_newBody (hnul : '\x00' ∉ s) : '\x00' ∉ newBody s := by
  intro h
  obtain ⟨c,hc,hmem⟩ := List.mem_flatMap.mp h
  have hne : '\x00' ≠ c := fun he => hnul (he ▸ hc)
  split at hmem
  · simp [hne] at hmem
  · simp [hne] at hmem

/-- A string without a NUL and the end of a line, printed in the old syntax, is read back; `Insert`
converts a text as `ConvertEscapingOldToNew` does. -/
theorem stored_string (u : ClassAdUnParser) (factor : NumberFactor) (tt : TokenType)
    (hs : '\x00' ∉ s ∧ '\r' ∉ s ∧ '\n' ∉ s) (hn : fuelFor (.ofText .string
      (convertEscapingOldToNew (u.exprTreeToString (.string s) factor))) ≤ n) :
    (c.parseExpressionFrom n tt (.ofText .string
      (convertEscapingOldToNew (u.exprTreeToString (.string s) factor))) true).value =
        some (true,some (.literal (.string s) .none)) ∧
    ∀ str : List Char, insertText str = '[' :: convertEscapingOldToNew str ++ [']'] := by
  constructor
  · have htext := convertEscapingOldToNew_string u ⟨hs.2.2,hs.2.1⟩ factor
    rw [htext] at hn ⊢
    apply parseExpression_newBody hs.1 tt
    · -- the source hands out the whole text
      apply List.takeWhile_eq_self_iff.mpr
      intro c hc
      have hne : c ≠ '\x00' := by
        rintro rfl
        simp [LexerSource.ofText,nul_not_mem_newBody hs.1] at hc
      simp [LexerSource.endsAt,LexerSource.ofText,hne]
    · simp only [fuelFor,LexerSource.ofText,length_append,length_cons] at hn
      omega
  · intro str
    rw [insertText,insertChars_eq,convertEscapingOldToNew,convertEscapingInto_eq]
    rfl

def plainUnParser : ClassAdUnParser :=
  { realText := fun _ r => r, absTimeToString := fun _ _ => [], relTimeToString := id }

/-- A run of backslashes before a quote, and one at the end. -/
theorem stored_string_backslashes :
    (plain.parseExpressionFrom 100 .endOfInput (.ofText .string (convertEscapingOldToNew
      (plainUnParser.exprTreeToString (.string ['\\','\\','"','a','\\']) .none))) true).value =
        some (true,some (.literal (.string ['\\','\\','"','a','\\']) .none)) ∧
    ∀ str : List Char, insertText str = '[' :: convertEscapingOldToNew str ++ [']'] := by
  apply stored_string plainUnParser .none .endOfInput (by decide)
  rw [convertEscapingOldToNew_string plainUnParser ⟨by decide,by decide⟩ .none]
  decide

end Surroundings

end Condor.ClassAds
