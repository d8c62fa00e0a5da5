import Condor.Lib.TwoRuns
import Condor.ClassAds.Lexer

/-!
# Two lexers on the same text

The type of the last token and the value of the last token survive `Initialize`, so two lexers may
come to the same text with different ones.
-/

namespace Condor.ClassAds

open Lib (rel_bind rel_map)

def TokenValue.seenBy (v : TokenValue) : TokenType → TokenValue
  | .integerValue => { intValue := v.intValue, factor := v.factor }
  | .realValue => { realValue := v.realValue, factor := v.factor }
  | .booleanValue => { boolValue := v.boolValue }
  | .stringValue | .identifier => { strValue := v.strValue }
  | _ => {}

def TokenType.hasValue : TokenType → Bool
  | .integerValue | .realValue | .booleanValue | .stringValue | .identifier => true
  | _ => false

private theorem TokenValue.seenBy_of_none {t : TokenType} (h : t.hasValue = false)
    (v : TokenValue) :
    v.seenBy t = {} := by
  cases t <;> first | rfl | simp [TokenType.hasValue] at h

structure LexerSource.SameText (s s' : LexerSource) : Prop where
  kind : s.kind = s'.kind
  before : s.before = s'.before
  after : s.after = s'.after

namespace LexerSource.SameText

variable {s s' : LexerSource}

theorem refl (s : LexerSource) : SameText s s := ⟨rfl,rfl,rfl⟩

private theorem eq_previous (h : SameText s s') : s' = { s with previous := s'.previous } := by
  obtain ⟨k,b,a,p⟩ := s
  obtain ⟨k',b',a',p'⟩ := s'
  obtain ⟨hk,hb,ha⟩ := h
  dsimp only at hk hb ha
  subst hk hb ha
  rfl

theorem next (h : SameText s s') : s.next = s'.next := by
  rw [h.eq_previous]
  rfl

theorem readCharacter (h : SameText s s') : s.readCharacter = s'.readCharacter := by
  rw [h.eq_previous]
  rfl

private theorem lookahead (s : LexerSource) :
    SameText s (if s.next.isSome then s.readCharacter.unreadCharacter else s.readCharacter) := by
  cases h : s.next with
  | none =>
    rw [readCharacter_of_end h]
    exact ⟨rfl,rfl,rfl⟩
  | some c =>
    have hafter : c :: s.after.tail = s.after := by
      cases ha : s.after with
      | nil => simp [LexerSource.next,ha] at h
      | cons x xs =>
        simp only [LexerSource.next,ha] at h
        split at h
        · contradiction
        · rw [Option.some.inj h]; rfl
    change SameText s s.readCharacter.unreadCharacter
    cases hk : s.kind <;>
      exact ⟨by simp [LexerSource.readCharacter,unreadCharacter,h,hk],
        by simp [LexerSource.readCharacter,unreadCharacter,h,hk],
        by simp [LexerSource.readCharacter,unreadCharacter,h,hk,hafter]⟩

end LexerSource.SameText

namespace Lexer

structure Scanning (t t' : TokenType) (l l' : Lexer) : Prop where
  source : l.source.SameText l'.source
  ch : l.ch = l'.ch
  lexBuffer : l.lexBuffer = l'.lexBuffer
  tokenConsumed : l.tokenConsumed = l'.tokenConsumed
  tokenType : l.tokenType = t
  tokenType' : l'.tokenType = t'

structure SameToken (l l' : Lexer) : Prop where
  scanning : Scanning l.tokenType l.tokenType l l'
  seen : l.yylval.seenBy l.tokenType = l'.yylval.seenBy l.tokenType

variable {t t' : TokenType} {l l' m : Lexer} {n : Nat}

theorem SameToken.type_eq (h : SameToken l l') : l.tokenType = l'.tokenType :=
  h.scanning.tokenType'.symm

theorem SameToken.symm (h : SameToken l l') : SameToken l' l := by
  have ht := SameToken.type_eq h
  obtain ⟨⟨⟨hk,hb,ha⟩,hch,hbuf,hcons,_,_⟩,hseen⟩ := h
  refine ⟨⟨⟨hk.symm,hb.symm,ha.symm⟩,hch.symm,hbuf.symm,hcons.symm,rfl,ht⟩,?_⟩
  rw [← ht]
  exact hseen.symm

theorem SameToken.trans (h : SameToken l l') (h' : SameToken l' m) : SameToken l m := by
  have ht := SameToken.type_eq h
  have ht' := SameToken.type_eq h'
  obtain ⟨⟨⟨hk,hb,ha⟩,hch,hbuf,hcons,_,_⟩,hseen⟩ := h
  obtain ⟨⟨⟨hk',hb',ha'⟩,hch',hbuf',hcons',_,_⟩,hseen'⟩ := h'
  refine ⟨⟨⟨hk.trans hk',hb.trans hb',ha.trans ha'⟩,hch.trans hch',hbuf.trans hbuf',
    hcons.trans hcons',rfl,(ht.trans ht').symm⟩,?_⟩
  rw [← ht] at hseen'
  exact hseen.trans hseen'

namespace Scanning

theorem refl (l : Lexer) : Scanning l.tokenType l.tokenType l l :=
  ⟨.refl _,rfl,rfl,rfl,rfl,rfl⟩

theorem wind (h : Scanning t t' l l') : Scanning t t' l.wind l'.wind := by
  unfold Lexer.wind
  rw [← h.ch]
  cases l.ch with
  | none => exact h
  | some c =>
    have hsource := h.source.readCharacter
    refine ⟨?_,h.source.next,?_,h.tokenConsumed,h.tokenType,h.tokenType'⟩
    · dsimp only [advance]
      rw [hsource]
      exact .refl _
    · dsimp only [advance]
      rw [h.lexBuffer]

theorem mark (h : Scanning t t' l l') : Scanning t t' l.mark l'.mark :=
  ⟨h.source,h.ch,rfl,h.tokenConsumed,h.tokenType,h.tokenType'⟩

theorem setCh (h : Scanning t t' l l') (c : Char) : Scanning t t' (l.setCh c) (l'.setCh c) :=
  ⟨h.source,rfl,h.lexBuffer,h.tokenConsumed,h.tokenType,h.tokenType'⟩

theorem setToken (h : Scanning t t' l l') (u : TokenType) (hu : u.hasValue = false) :
    SameToken (l.setToken u) (l'.setToken u) := by
  refine ⟨⟨h.source,h.ch,h.lexBuffer,h.tokenConsumed,rfl,rfl⟩,?_⟩
  change l.yylval.seenBy u = l'.yylval.seenBy u
  rw [TokenValue.seenBy_of_none hu,TokenValue.seenBy_of_none hu]

theorem setValue (h : Scanning t t' l l') (u : TokenType) (v v' : TokenValue)
    (hv : v.seenBy u = v'.seenBy u) :
    SameToken { l with yylval := v, tokenType := u } { l' with yylval := v', tokenType := u } :=
  ⟨⟨h.source,h.ch,h.lexBuffer,h.tokenConsumed,rfl,rfl⟩,hv⟩

end Scanning

private theorem windWhile_scanning (p : Option Char → Bool) : ∀ (n : Nat) {l l' : Lexer},
    Scanning t t' l l' → Option.Rel (Scanning t t') (windWhile p n l) (windWhile p n l') := by
  intro n
  induction n with
  | zero => intro l l' _; exact .none
  | succ n ih =>
    intro l l' h
    unfold windWhile
    rw [← h.ch]
    split
    · exact ih h.wind
    · exact .some h

private theorem skipComment_scanning : ∀ (n : Nat) {l l' : Lexer},
    Scanning t t' l l' → Option.Rel (Scanning t t') (skipComment n l) (skipComment n l') := by
  intro n
  induction n with
  | zero => intro l l' _; exact .none
  | succ n ih =>
    intro l l' h
    unfold skipComment
    rw [← h.ch,← h.wind.ch]
    split
    · exact ih h.wind
    · exact .some h.wind

inductive SameSkip (t t' : TokenType) : Skip → Skip → Prop
  | again {l l' : Lexer} : Scanning t t' l l' → SameSkip t t' (.again l) (.again l')
  | division {l l' : Lexer} : Scanning t t' l l' → SameSkip t t' (.division l) (.division l')
  | «break» {l l' : Lexer} : Scanning t t' l l' → SameSkip t t' (.break l) (.break l')

private theorem skipRound_scanning (n : Nat) (h : Scanning t t' l l') :
    Option.Rel (SameSkip t t') (skipRound n l) (skipRound n l') := by
  have hw := h.mark.wind
  unfold skipRound
  dsimp only
  rw [← h.ch,← hw.ch]
  split
  · exact .some (.again h.wind)
  split
  · split
    · exact rel_map (windWhile_scanning _ n hw) fun _ _ hm => .again hm
    split
    · exact rel_map (skipComment_scanning n (hw.setCh '\n')) fun _ _ hm => .again hm.wind
    · exact .some (.division hw)
  · exact .some (.break h)

theorem skipBlank_scanning (n : Nat) : ∀ (k : Nat) {l l' : Lexer}, Scanning t t' l l' →
    Option.Rel (fun a b => a.1 = b.1 ∧ Scanning t t' a.2 b.2) (skipBlank n k l)
      (skipBlank n k l') := by
  intro k
  induction k with
  | zero => intro l l' _; exact .none
  | succ k ih =>
    intro l l' h
    have hround := skipRound_scanning n h
    unfold skipBlank
    generalize skipRound n l = x at hround ⊢
    generalize skipRound n l' = y at hround ⊢
    cases hround with
    | none => exact .none
    | some hr =>
      cases hr with
      | again hr => exact ih hr
      | division hr | «break» hr => exact .some ⟨rfl,hr⟩

abbrev SamePiece (t t' : TokenType) :
    Lexer ⊕ NumberType × Lexer → Lexer ⊕ NumberType × Lexer → Prop :=
  Sum.LiftRel SameToken fun a b => a.1 = b.1 ∧ Scanning t t' a.2 b.2

private theorem octalDigits_scanning : ∀ (n : Nat) (k : NumberType) {l l' : Lexer},
    Scanning t t' l l' →
    Option.Rel (fun a b => a.1 = b.1 ∧ Scanning t t' a.2 b.2) (octalDigits n k l)
      (octalDigits n k l') := by
  intro n
  induction n with
  | zero => intro k l l' _; exact .none
  | succ n ih =>
    intro k l l' h
    unfold octalDigits
    rw [← h.ch,← h.wind.ch]
    split
    · exact ih _ h.wind
    · exact .some ⟨rfl,h⟩

private theorem integerPart_scanning (n : Nat) (och : Option Char) (h : Scanning t t' l l') :
    Option.Rel (SamePiece t t') (integerPart n och l) (integerPart n och l') := by
  unfold integerPart
  dsimp only
  rw [← h.ch,← h.wind.ch]
  split
  · split
    · split
      · exact .some (.inl (h.wind.setToken _ rfl))
      · exact rel_map (windWhile_scanning _ n h.wind) fun _ _ hm => .inr ⟨rfl,hm⟩
    · refine rel_map (octalDigits_scanning n .integer h) ?_
      rintro ⟨k,m⟩ ⟨k',m'⟩ ⟨hk,hm⟩
      dsimp only at hk hm ⊢
      rw [← hk,← hm.ch]
      split
      · exact .inr ⟨rfl,hm⟩
      split
      · exact .inl (hm.setToken _ rfl)
      · exact .inr ⟨rfl,hm⟩
  split
  · refine rel_map (windWhile_scanning _ n h) ?_
    intro m m' hm
    rw [← hm.ch]
    split
    · exact .inr ⟨rfl,hm⟩
    · exact .inr ⟨rfl,hm⟩
  · exact .some (.inr ⟨rfl,h⟩)

private theorem fractionPart_scanning (n : Nat) (och : Option Char) (k : NumberType)
    (h : Scanning t t' l l') :
    Option.Rel (SamePiece t t') (fractionPart n och k l) (fractionPart n och k l') := by
  have hpoint : Scanning t t' (if l.ch = some '.' then l.wind else l)
      (if l'.ch = some '.' then l'.wind else l') := by
    rw [← h.ch]
    split
    · exact h.wind
    · exact h
  unfold fractionPart
  dsimp only
  generalize (if l.ch = some '.' then l.wind else l) = m at hpoint ⊢
  generalize (if l'.ch = some '.' then l'.wind else l') = m' at hpoint ⊢
  rw [← hpoint.ch,← h.ch]
  split
  · split
    · exact rel_map (windWhile_scanning _ n hpoint) fun _ _ hm => .inr ⟨rfl,hm⟩
    split
    · exact .some (.inl (hpoint.setToken _ rfl))
    · exact .some (.inl (hpoint.setToken _ rfl))
  · exact .some (.inr ⟨rfl,h⟩)

private theorem exponentPart_scanning (n : Nat) (k : NumberType) (h : Scanning t t' l l') :
    Option.Rel (SamePiece t t') (exponentPart n k l) (exponentPart n k l') := by
  have hsign : Scanning t t'
      (if l.wind.ch = some '+' ∨ l.wind.ch = some '-' then l.wind.wind else l.wind)
      (if l'.wind.ch = some '+' ∨ l'.wind.ch = some '-' then l'.wind.wind else l'.wind) := by
    rw [← h.wind.ch]
    split
    · exact h.wind.wind
    · exact h.wind
  unfold exponentPart
  dsimp only
  generalize (if l.wind.ch = some '+' ∨ l.wind.ch = some '-' then l.wind.wind else l.wind) = m
    at hsign ⊢
  generalize (if l'.wind.ch = some '+' ∨ l'.wind.ch = some '-' then l'.wind.wind
    else l'.wind) = m' at hsign ⊢
  rw [← hsign.ch,← h.ch]
  split
  · split
    · exact .some (.inl (hsign.setToken _ rfl))
    · exact rel_map (windWhile_scanning _ n hsign) fun _ _ hm => .inr ⟨rfl,hm⟩
  · exact .some (.inr ⟨rfl,h⟩)

private theorem numberValue_scanning (o : Bool) (k : NumberType) (h : Scanning t t' l l') :
    Option.Rel SameToken (numberValue o k l) (numberValue o k l') := by
  have hsuffix : Scanning t t' (if factorOf l.ch = .none then l else l.wind)
      (if factorOf l'.ch = .none then l' else l'.wind) := by
    rw [← h.ch]
    split
    · exact h
    · exact h.wind
  unfold numberValue
  dsimp only
  rw [← h.lexBuffer]
  rw [← h.ch] at hsuffix ⊢
  cases k with
  | none => exact .none
  | integer | real => exact .some (hsuffix.setValue _ _ _ (by rfl))

private theorem tokenizeDigits_scanning (o : Bool) (n : Nat) (och : Option Char)
    (h : Scanning t t' l l') :
    Option.Rel SameToken (tokenizeDigits o n och l) (tokenizeDigits o n och l') := by
  unfold tokenizeDigits
  apply rel_bind (integerPart_scanning n och h)
  rintro _ _ (h1 | ⟨hk1,h1⟩)
  · exact .some h1
  rename_i a1 b1
  obtain ⟨k1,m1⟩ := a1
  obtain ⟨k1',m1'⟩ := b1
  dsimp only at hk1 h1 ⊢
  subst hk1
  apply rel_bind (fractionPart_scanning n och _ h1)
  rintro _ _ (h2 | ⟨hk2,h2⟩)
  · exact .some h2
  rename_i a2 b2
  obtain ⟨k2,m2⟩ := a2
  obtain ⟨k2',m2'⟩ := b2
  dsimp only at hk2 h2 ⊢
  subst hk2
  apply rel_bind (exponentPart_scanning n _ h2)
  rintro _ _ (h3 | ⟨hk3,h3⟩)
  · exact .some h3
  rename_i a3 b3
  obtain ⟨k3,m3⟩ := a3
  obtain ⟨k3',m3'⟩ := b3
  dsimp only at hk3 h3 ⊢
  subst hk3
  exact numberValue_scanning o _ h3

private theorem Scanning.lookahead (h : Scanning t t' l l') :
    Scanning t t'
      { l with source :=
        if l.source.next.isSome then l.source.readCharacter.unreadCharacter
        else l.source.readCharacter }
      { l' with source :=
        if l'.source.next.isSome then l'.source.readCharacter.unreadCharacter
        else l'.source.readCharacter } := by
  rw [← h.source.next,← h.source.readCharacter]
  exact ⟨.refl _,h.ch,h.lexBuffer,h.tokenConsumed,h.tokenType,h.tokenType'⟩

private theorem tokenizeNumber_scanning (o : Bool) (n : Nat) (h : Scanning t t' l l') :
    Option.Rel SameToken (tokenizeNumber o n l) (tokenizeNumber o n l') := by
  have hw := h.mark.wind
  unfold tokenizeNumber
  dsimp only
  rw [← h.ch,← hw.ch]
  split
  · split
    · exact tokenizeDigits_scanning o n _ hw.wind
    split
    · have hlook := hw.lookahead
      rw [← hw.source.next]
      rw [← hw.source.next,← hw.ch] at hlook
      split
      · exact .some (hlook.setToken _ rfl)
      · exact tokenizeDigits_scanning o n _ hlook
    · exact .some (hw.setToken _ rfl)
  · exact tokenizeDigits_scanning o n _ hw

private theorem wordToken_scanning
    (h : Scanning t t' l l') : SameToken l.wordToken l'.wordToken := by
  unfold wordToken
  rw [← h.lexBuffer]
  split
  · rename_i w u hw
    split
    · rename_i hu
      subst hu
      exact ⟨⟨h.source,h.ch,rfl,h.tokenConsumed,rfl,rfl⟩,rfl⟩
    · refine h.setToken u ?_
      have hmem := List.mem_of_find?_eq_some hw
      simp only [reserved,List.mem_cons,Prod.mk.injEq,List.not_mem_nil,or_false] at hmem
      rcases hmem with ⟨_,rfl⟩ | ⟨_,rfl⟩ | ⟨_,rfl⟩ | ⟨_,rfl⟩ | ⟨_,rfl⟩ | ⟨_,rfl⟩
      · contradiction
      · contradiction
      all_goals rfl
  · exact ⟨⟨h.source,h.ch,rfl,h.tokenConsumed,rfl,rfl⟩,rfl⟩

private theorem tokenizeAlphaHead_scanning (n : Nat) (h : Scanning t t' l l') :
    Option.Rel SameToken (tokenizeAlphaHead n l) (tokenizeAlphaHead n l') := by
  unfold tokenizeAlphaHead
  apply rel_bind (windWhile_scanning _ n h.mark)
  intro m m' hm
  rw [← hm.ch]
  split
  · apply rel_bind (windWhile_scanning _ n hm.wind)
    intro k k' hk
    rw [← hk.lexBuffer]
    exact .some ⟨⟨hk.source,hk.ch,rfl,hk.tokenConsumed,rfl,rfl⟩,rfl⟩
  · exact .some (wordToken_scanning hm)

private theorem scanString_scanning (delim : Char) : ∀ (n : Nat) (odd : Bool) (old : Char)
    {l l' : Lexer}, Scanning t t' l l' →
    Option.Rel (Scanning t t') (scanString delim n odd old l) (scanString delim n odd old l') := by
  intro n
  induction n with
  | zero => intro odd old l l' _; exact .none
  | succ n ih =>
    intro odd old l l' h
    unfold scanString
    rw [← h.ch]
    split
    · exact .some h
    split
    · exact ih _ _ h.wind
    · exact .some h

private theorem readPastSpace_same : ∀ (n : Nat) {s s' : LexerSource}, s.SameText s' →
    Option.Rel Eq (readPastSpace n s) (readPastSpace n s') := by
  intro n
  cases n with
  | zero => intro s s' _; exact .none
  | succ n =>
    intro s s' h
    unfold readPastSpace
    rw [← h.next,← h.readCharacter]
    split
    · -- from the first read on the two sources are one
      generalize readPastSpace n s.readCharacter = x
      cases x with
      | none => exact .none
      | some x => exact .some rfl
    · exact .some rfl

private theorem stringToken_scanning (delim : Char) (h : Scanning t t' l l') :
    SameToken (stringToken delim l) (stringToken delim l') := by
  unfold stringToken
  dsimp only
  rw [← h.lexBuffer]
  split
  · refine h.wind.setValue _ _ _ ?_
    split
    · rfl
    · rfl
  · exact h.wind.setValue _ _ _ (by rfl)

private theorem stringParts_scanning (delim : Char) (n : Nat) : ∀ (k : Nat) {l l' : Lexer},
    Scanning t t' l l' →
    Option.Rel SameToken (stringParts delim n k l) (stringParts delim n k l') := by
  intro k
  induction k with
  | zero => intro l l' _; exact .none
  | succ k ih =>
    intro l l' h
    unfold stringParts
    apply rel_bind (scanString_scanning delim n false '\x00' h)
    intro m m' hm
    rw [← hm.ch]
    split
    · apply rel_bind (readPastSpace_same n hm.source)
      rintro ⟨tempch,s⟩ _ rfl
      dsimp only
      split
      · exact .some (stringToken_scanning delim
          ⟨.refl _,rfl,hm.lexBuffer,hm.tokenConsumed,hm.tokenType,hm.tokenType'⟩)
      · exact ih ⟨.refl _,rfl,hm.lexBuffer,hm.tokenConsumed,hm.tokenType,hm.tokenType'⟩
    · exact .some (hm.setToken _ rfl)

private theorem tokenizeString_scanning (delim : Char) (n : Nat) (h : Scanning t t' l l') :
    Option.Rel SameToken (tokenizeString delim n l) (tokenizeString delim n l') :=
  stringParts_scanning delim n n h.wind.mark

private theorem equalsOperator_scanning (h : Scanning t t' l l') :
    SameToken l.equalsOperator l'.equalsOperator := by
  unfold equalsOperator
  dsimp only
  rw [← h.ch,← h.wind.ch,← h.source.next]
  split
  · exact h.wind.setToken _ rfl
  · split
    · exact h.wind.setToken _ rfl
    · exact h.wind.wind.setToken _ rfl
  · have hlook : Scanning t t'
        { l with source := l.source.readCharacter.unreadCharacter }
        { l' with source := l'.source.readCharacter.unreadCharacter } := by
      rw [← h.source.readCharacter]
      exact ⟨.refl _,h.ch,h.lexBuffer,h.tokenConsumed,h.tokenType,h.tokenType'⟩
    rw [← h.ch] at hlook
    split
    · exact hlook.wind.wind.setToken _ rfl
    · exact hlook.setToken _ rfl
  · exact h.setToken _ rfl

private theorem hasValue_punctOperator {c : Char} {u : TokenType} (h : punctOperator c = some u) :
    u.hasValue = false := by
  unfold punctOperator at h
  split at h
  all_goals first | (cases h; rfl) | contradiction

private theorem tokenizePunctOperator_scanning (h : Scanning t t' l l') :
    SameToken l.tokenizePunctOperator l'.tokenizePunctOperator := by
  have hw := h.mark.wind
  unfold tokenizePunctOperator
  dsimp only
  rw [← h.ch]
  cases l.ch with
  | none => exact hw.setToken _ rfl
  | some c =>
    dsimp only
    cases hp : punctOperator c with
    | some u => exact hw.setToken _ (hasValue_punctOperator hp)
    | none =>
      dsimp only
      rw [← hw.ch,← hw.wind.ch]
      split
      · split
        · exact hw.wind.setToken _ rfl
        · exact hw.setToken _ rfl
      · split
        · exact hw.wind.setToken _ rfl
        · exact hw.setToken _ rfl
      · split
        · exact hw.wind.setToken _ rfl
        split
        · exact hw.wind.setToken _ rfl
        · exact hw.setToken _ rfl
      · split
        · exact hw.wind.setToken _ rfl
        split
        · split
          · exact hw.wind.wind.setToken _ rfl
          · exact hw.wind.setToken _ rfl
        · exact hw.setToken _ rfl
      · exact equalsOperator_scanning hw
      · split
        · exact hw.wind.setToken _ rfl
        · exact hw.setToken _ rfl
      · exact hw.setToken _ rfl

def negativeNumber (l : Lexer) : Bool :=
  l.ch == some '-' && (l.wind.ch.any isdigit || l.wind.ch == some '.' && l.wind.source.next.any
    isdigit)

private theorem tokenizeNumber_minus (o : Bool) (n : Nat) (hch : l.ch = some '-')
    (hneg : l.negativeNumber = false) :
    ∃ m, tokenizeNumber o n l = some m ∧ SameToken l.tokenizePunctOperator m := by
  have hwind : l.mark.wind.ch = l.wind.ch ∧ l.mark.wind.source = l.wind.source := by
    simp [wind,mark,hch,advance]
  have hneg' : l.mark.wind.ch.any isdigit = false ∧
      (l.mark.wind.ch = some '.' → l.mark.wind.source.next.any isdigit = false) := by
    rw [hwind.1,hwind.2]
    simp only [negativeNumber,hch,beq_self_eq_true,Bool.true_and,Bool.or_eq_false_iff] at hneg
    refine ⟨hneg.1,fun hpoint => ?_⟩
    simpa [hpoint] using hneg.2
  have hop : l.tokenizePunctOperator = l.mark.wind.setToken .minus := by
    simp [tokenizePunctOperator,hch,punctOperator]
  rw [hop]
  unfold tokenizeNumber
  dsimp only
  rw [if_pos hch,if_neg (by simp [hneg'.1])]
  split
  · rename_i hpoint
    rw [if_pos (by simp [hneg'.2 hpoint])]
    refine ⟨_,rfl,?_⟩
    have hlook : Scanning l.mark.wind.tokenType l.mark.wind.tokenType l.mark.wind
        { l.mark.wind with source :=
          if l.mark.wind.source.next.isSome then l.mark.wind.source.readCharacter.unreadCharacter
          else l.mark.wind.source.readCharacter } :=
      ⟨.lookahead _,rfl,rfl,rfl,rfl,rfl⟩
    exact hlook.setToken _ rfl
  · exact ⟨_,rfl,(Scanning.refl _).setToken _ rfl⟩

private theorem tokenize_scanning (o : Bool) (n : Nat) (h : Scanning t t' l l')
    (hminus : minusIsOperator t = minusIsOperator t' ∨ l.negativeNumber = false) :
    Option.Rel SameToken (tokenize o n l) (tokenize o n l') := by
  have hop := tokenizePunctOperator_scanning h
  have hnum := tokenizeNumber_scanning o n h
  unfold tokenize
  rw [← h.ch,h.tokenType,h.tokenType']
  split
  · exact .some (h.setToken _ rfl)
  rename_i c hch
  split
  · exact .some (h.setToken _ rfl)
  split
  · rename_i hc
    subst hc
    rcases hminus with heq | hneg
    · rw [← heq]
      split
      · exact .some hop
      · exact hnum
    · obtain ⟨m,hm,hsame⟩ := tokenizeNumber_minus o n hch hneg
      rw [hm] at hnum ⊢
      generalize tokenizeNumber o n l' = x at hnum ⊢
      cases hnum with
      | some hm' =>
        split
        · split
          · exact .some hop
          · exact .some (hsame.trans hm')
        · split
          · exact .some (hsame.symm.trans hop)
          · exact .some hm'
  split
  · exact hnum
  split
  · exact tokenizeAlphaHead_scanning n h
  split
  · exact tokenizeString_scanning _ n h
  split
  · exact tokenizeString_scanning _ n h
  · exact .some hop

def startsNegative (n : Nat) (l : Lexer) : Bool :=
  match skipBlank n n { l with tokenConsumed := false } with
  | some (false,l) => l.negativeNumber
  | _ => false

theorem startsNegative_scanning (n : Nat) (h : Scanning t t' l l') :
    l.startsNegative n = l'.startsNegative n := by
  have hstart : Scanning t t' { l with tokenConsumed := false }
      { l' with tokenConsumed := false } :=
    ⟨h.source,h.ch,h.lexBuffer,rfl,h.tokenType,h.tokenType'⟩
  have hblank := skipBlank_scanning n n hstart
  unfold startsNegative
  generalize skipBlank n n { l with tokenConsumed := false } = x at hblank ⊢
  generalize skipBlank n n { l' with tokenConsumed := false } = y at hblank ⊢
  cases hblank with
  | none => rfl
  | @some a b hab =>
    obtain ⟨division,m⟩ := a
    obtain ⟨division',m'⟩ := b
    obtain ⟨hd,hm⟩ := hab
    dsimp only at hd hm
    subst hd
    cases division with
    | true => rfl
    | false =>
      change m.negativeNumber = m'.negativeNumber
      unfold negativeNumber
      rw [hm.ch,hm.wind.ch,hm.wind.source.next]

theorem nextToken_scanning (o : Bool) (n : Nat) (h : Scanning t t' l l')
    (hminus : minusIsOperator t = minusIsOperator t' ∨ l.startsNegative n = false) :
    Option.Rel SameToken (nextToken o n l) (nextToken o n l') := by
  have hstart : Scanning t t' { l with tokenConsumed := false }
      { l' with tokenConsumed := false } :=
    ⟨h.source,h.ch,h.lexBuffer,rfl,h.tokenType,h.tokenType'⟩
  have hblank := skipBlank_scanning n n hstart
  unfold startsNegative at hminus
  unfold nextToken
  generalize skipBlank n n { l with tokenConsumed := false } = x at hblank hminus ⊢
  generalize skipBlank n n { l' with tokenConsumed := false } = y at hblank ⊢
  cases hblank with
  | none => exact .none
  | @some a b hab =>
    obtain ⟨division,m⟩ := a
    obtain ⟨division',m'⟩ := b
    obtain ⟨hd,hm⟩ := hab
    dsimp only at hd hm
    subst hd
    cases division with
    | true => exact .some (hm.setToken _ rfl)
    | false => exact tokenize_scanning o n hm hminus

end Lexer

end Condor.ClassAds
