import Condor.Utils.ArgList

/-!
# Arguments through one channel

The new syntax can write every list of arguments; the old one loses empty arguments, and is chosen
whenever no argument has white space in it.
-/

namespace Condor

open List Option

namespace ArgList

private theorem splitLoop_quote (quote cs buf : CString) (parsedToken : Bool)
    (hcs : cs.head? ≠ some singleQuote) :
    splitLoop (some quote) parsedToken buf (singleQuote :: cs) =
      splitLoop none parsedToken buf cs := by
  cases cs with
  | nil => simp [splitLoop]
  | cons d cs =>
    have hd : d ≠ singleQuote := fun h => hcs (by rw [h]; rfl)
    conv_lhs => rw [splitLoop,if_pos rfl,if_neg hd]

private theorem splitLoop_escaped (quote cs buf : CString) (parsedToken : Bool) :
    splitLoop (some quote) parsedToken buf (singleQuote :: singleQuote :: cs) =
      splitLoop (some quote) parsedToken (buf ++ [singleQuote]) cs := by
  rw [splitLoop,if_pos rfl,if_pos rfl]

private theorem splitLoop_quoted (quote cs buf : CString) (parsedToken : Bool) {c : CChar}
    (hc : c ≠ singleQuote) :
    splitLoop (some quote) parsedToken buf (c :: cs) =
      splitLoop (some quote) parsedToken (buf ++ [c]) cs := by
  cases cs <;> conv_lhs => rw [splitLoop,if_neg hc]

private theorem splitLoop_open (cs buf : CString) (parsedToken : Bool) :
    splitLoop none parsedToken buf (singleQuote :: cs) =
      splitLoop (some (singleQuote :: cs)) true buf cs := by
  rw [splitLoop,if_pos rfl]

def quotedChar (c : CChar) : CString := (if c = singleQuote then [singleQuote] else []) ++ [c]

private theorem splitLoop_quotedChar (quote cs buf : CString) (parsedToken : Bool) (c : CChar) :
    splitLoop (some quote) parsedToken buf (quotedChar c ++ cs) =
      splitLoop (some quote) parsedToken (buf ++ [c]) cs := by
  by_cases hc : c = singleQuote
  · subst hc
    exact splitLoop_escaped quote cs buf parsedToken
  · rw [quotedChar,if_neg hc]
    exact splitLoop_quoted quote cs buf parsedToken hc

def prepend (args : List CString) (read : List CString × Option ArgError) :
    List CString × Option ArgError := (args ++ read.1,read.2)

/-- A text is read as some arguments and a token in the making, whatever comes behind it. -/
structure ReadsAs (text : CString) (args : List CString) (parsedToken : Bool) (buf : CString) :
    Prop where
  closed : ∀ cs, (text.getLast? = some singleQuote → cs.head? ≠ some singleQuote) →
    splitLoop none false [] (text ++ cs) = prepend args (splitLoop none parsedToken buf cs)
  reopened : text.getLast? = some singleQuote → ∀ cs, ∃ quote,
    splitLoop none false [] (text.dropLast ++ cs) =
      prepend args (splitLoop (some quote) true buf cs)
  unread : parsedToken = false → buf = []

theorem readsAs_nil : ReadsAs [] [] false [] where
  closed cs _ := rfl
  reopened h := by simp at h
  unread _ := rfl

variable {text buf : CString} {args : List CString} {parsedToken : Bool}

theorem ReadsAs.plain (h : ReadsAs text args parsedToken buf) {c : CChar}
    (hc : (isArgSpace c || c = singleQuote) = false) :
    ReadsAs (text ++ [c]) args true (buf ++ [c]) where
  closed cs _ := by
    have hq : c ≠ singleQuote := of_decide_eq_false (Bool.or_eq_false_iff.mp hc).2
    have hread := h.closed (c :: cs) fun _ heq => hq (some.inj heq)
    rw [append_assoc,singleton_append,hread,splitLoop_plain cs buf parsedToken hc]
  reopened hlast := by
    have hq : c ≠ singleQuote := of_decide_eq_false (Bool.or_eq_false_iff.mp hc).2
    rw [getLast?_append] at hlast
    exact absurd (some.inj hlast) hq
  unread hp := by simp at hp

private theorem readsAs_of_open {opened : CString}
    (hopen : ∀ cs, ∃ quote, splitLoop none false [] (opened ++ cs) =
      prepend args (splitLoop (some quote) true buf cs)) :
    ReadsAs (opened ++ [singleQuote]) args true buf where
  closed cs hcs := by
    have hhead : cs.head? ≠ some singleQuote := hcs (by simp)
    obtain ⟨quote,hread⟩ := hopen (singleQuote :: cs)
    rw [append_assoc,singleton_append,hread,splitLoop_quote quote cs buf true hhead]
  reopened _ cs := by
    rw [dropLast_concat]
    exact hopen cs
  unread hp := by simp at hp

theorem ReadsAs.quoted (h : ReadsAs text args parsedToken buf) (c : CChar) :
    ReadsAs ((if text.getLast? = some singleQuote then text.dropLast
      else text ++ [singleQuote]) ++ quotedChar c ++ [singleQuote]) args true (buf ++ [c]) := by
  refine readsAs_of_open fun cs => ?_
  by_cases hlast : text.getLast? = some singleQuote
  · obtain ⟨quote,hread⟩ := h.reopened hlast (quotedChar c ++ cs)
    refine ⟨quote,?_⟩
    rw [if_pos hlast,append_assoc,hread,splitLoop_quotedChar]
  · have hread := h.closed (singleQuote :: (quotedChar c ++ cs)) fun hl => absurd hl hlast
    refine ⟨singleQuote :: (quotedChar c ++ cs),?_⟩
    rw [if_neg hlast,append_assoc,append_assoc,singleton_append,hread,
      splitLoop_open,splitLoop_quotedChar]

theorem ReadsAs.char (h : ReadsAs text args parsedToken buf) (c : CChar) :
    ReadsAs (appendArgChar text c) args true (buf ++ [c]) := by
  rw [appendArgChar]
  by_cases hc : (isArgSpace c || c = singleQuote) = true
  · rw [if_pos hc]
    have hquoted := h.quoted c
    simpa only [quotedChar,append_assoc] using hquoted
  · rw [if_neg hc]
    exact h.plain (Bool.eq_false_iff.mpr hc)

theorem ReadsAs.chars (h : ReadsAs text args true buf) (cs : CString) :
    ReadsAs (cs.foldl appendArgChar text) args true (buf ++ cs) := by
  induction cs generalizing text buf with
  | nil =>
    rw [append_nil]
    exact h
  | cons c cs ih =>
    have hstep := ih (h.char c)
    rwa [append_assoc,singleton_append] at hstep

def flushed (args : List CString) (parsedToken : Bool) (buf : CString) : List CString :=
  args ++ if parsedToken then [buf] else []

theorem ReadsAs.space (h : ReadsAs text args parsedToken buf) :
    ReadsAs (text ++ [space]) (flushed args parsedToken buf) false [] where
  closed cs _ := by
    have hread := h.closed (ArgList.space :: cs)
      fun _ heq => absurd heq (by simp [ArgList.space,singleQuote])
    rw [append_assoc,singleton_append,hread,splitLoop,
      if_neg (by decide),if_pos (by decide)]
    cases hp : parsedToken with
    | false => simp [flushed,h.unread hp]
    | true => simp [flushed,prepend]
  reopened hlast := by
    rw [getLast?_append] at hlast
    exact absurd hlast (by simp [ArgList.space,singleQuote])
  unread _ := rfl

theorem ReadsAs.appendArg (h : ReadsAs text args parsedToken buf)
    (hstart : text = [] → args = [] ∧ parsedToken = false) (arg : CString) :
    ReadsAs (ArgList.appendArg arg text) (flushed args parsedToken buf) true arg := by
  obtain ⟨text',htext,hlast,hsep⟩ : ∃ text',
      (if text ≠ [] then text ++ [ArgList.space] else text) = text' ∧
      text'.getLast? ≠ some singleQuote ∧
      ReadsAs text' (flushed args parsedToken buf) false [] := by
    refine ⟨_,rfl,?_⟩
    by_cases hnil : text = []
    · obtain ⟨hargs,hparsed⟩ := hstart hnil
      rw [hnil,hargs,hparsed]
      exact ⟨by simp,readsAs_nil⟩
    · rw [if_pos hnil]
      exact ⟨by simp [ArgList.space,singleQuote],h.space⟩
  rw [ArgList.appendArg,htext]
  cases arg with
  | nil =>
    have hopen (cs : CString) : ∃ quote,
        splitLoop none false [] (text' ++ [singleQuote] ++ cs) =
          prepend (flushed args parsedToken buf) (splitLoop (some quote) true [] cs) := by
      have hread := hsep.closed (singleQuote :: cs) fun hl => absurd hl hlast
      refine ⟨singleQuote :: cs,?_⟩
      rw [append_assoc,singleton_append,hread,splitLoop_open]
    have hread := readsAs_of_open hopen
    simpa using hread
  | cons c cs =>
    have hread := (hsep.char c).chars cs
    simpa using hread

theorem appendArgChar_ne_nil (text : CString) (c : CChar) : appendArgChar text c ≠ [] := by
  rw [appendArgChar]
  split <;> simp

theorem appendArg_ne_nil (arg text : CString) : appendArg arg text ≠ [] := by
  have hchars (cs : CString) {text : CString} (htext : text ≠ []) :
      cs.foldl appendArgChar text ≠ [] := by
    induction cs generalizing text with
    | nil => exact htext
    | cons c cs ih => exact ih (appendArgChar_ne_nil text c)
  rw [appendArg]
  cases arg with
  | nil => simp
  | cons c cs => exact hchars cs (appendArgChar_ne_nil _ c)

theorem ReadsAs.joinArgs (h : ReadsAs text args parsedToken buf)
    (hstart : text = [] → args = [] ∧ parsedToken = false) (more : List CString) :
    splitArgs (ArgList.joinArgs more text) = (flushed args parsedToken buf ++ more,none) := by
  induction more generalizing text args parsedToken buf with
  | nil =>
    have hread := h.closed [] fun _ => by simp
    rw [append_nil] at hread
    change splitLoop none false [] text = _
    rw [hread,splitLoop,prepend,flushed,append_nil]
  | cons arg more ih =>
    have hrest := ih (h.appendArg hstart arg) fun hnil => absurd hnil (appendArg_ne_nil arg text)
    change splitArgs (ArgList.joinArgs more (ArgList.appendArg arg text)) = _
    rw [hrest]
    simp [flushed]

private theorem splitArgs_joinArgs (args : List CString) :
    splitArgs (joinArgs args []) = (args,none) := by
  have hread := readsAs_nil.joinArgs (fun _ => ⟨rfl,rfl⟩) args
  simpa [flushed] using hread

theorem splitArgs_marked (text : CString) :
    splitArgs (rawV2ArgsMarker :: text) = splitArgs text := by
  rw [splitArgs,splitLoop,if_neg (by decide),if_pos (by decide)]
  rfl

theorem readsAs_marker : ReadsAs [rawV2ArgsMarker] [] false [] := readsAs_nil.space

private theorem head_appendArgChar {text : CString} (h : text.head? = some rawV2ArgsMarker)
    (c : CChar) : (appendArgChar text c).head? = some rawV2ArgsMarker := by
  have hmarker : rawV2ArgsMarker ≠ singleQuote := by decide
  obtain ⟨rest,rfl⟩ : ∃ rest, text = rawV2ArgsMarker :: rest := by
    cases text with
    | nil => simp at h
    | cons d rest => exact ⟨rest,by rw [some.inj h]⟩
  rw [appendArgChar]
  cases rest with
  | nil => split <;> simp [hmarker]
  | cons d rest =>
    split
    · split <;> simp
    · simp

private theorem head_appendArg {text : CString} (h : text.head? = some rawV2ArgsMarker)
    (arg : CString) : (appendArg arg text).head? = some rawV2ArgsMarker := by
  have hchars (cs : CString) {text : CString} (htext : text.head? = some rawV2ArgsMarker) :
      (cs.foldl appendArgChar text).head? = some rawV2ArgsMarker := by
    induction cs generalizing text with
    | nil => exact htext
    | cons c cs ih => exact ih (head_appendArgChar htext c)
  have hne : text ≠ [] := by
    rintro rfl
    simp at h
  rw [appendArg,if_pos hne]
  cases arg with
  | nil => simp [head?_append,h]
  | cons c cs => exact hchars (c :: cs) (by simp [head?_append,h])

theorem head_joinArgs {text : CString} (h : text.head? = some rawV2ArgsMarker)
    (args : List CString) : (joinArgs args text).head? = some rawV2ArgsMarker := by
  induction args generalizing text with
  | nil => exact h
  | cons arg args ih => exact ih (head_appendArg h arg)

theorem unixLoop_safe {arg : CString} (harg : isSafeArgV1Value arg = true) (cs buf : CString)
    (parsedToken : Bool) :
    unixLoop parsedToken buf (arg ++ cs) =
      unixLoop (parsedToken || arg ≠ []) (buf ++ arg) cs := by
  induction arg generalizing buf parsedToken with
  | nil => simp
  | cons c arg ih =>
    rw [isSafeArgV1Value,all_cons,Bool.and_eq_true] at harg
    have hc : isArgSpace c = false := by simpa using harg.1
    have hrest := ih harg.2 (buf ++ [c]) true
    rw [append_assoc,singleton_append,Bool.true_or] at hrest
    rw [cons_append,unixLoop,hc]
    simpa using hrest

theorem v1RawLoop_safe {more : List CString} (hmore : ∀ arg ∈ more, isSafeArgV1Value arg = true)
    (hread : ∀ cs, unixLoop false [] (text ++ cs) = args ++ unixLoop parsedToken buf cs)
    (hunread : parsedToken = false → buf = [])
    (hstart : text = [] → args = [] ∧ parsedToken = false) (hhead : text.head? ≠ some space) :
    ∃ text', v1RawLoop more text = (text',none) ∧ text'.head? ≠ some space ∧
      unixLoop false [] text' =
        flushed args parsedToken buf ++ more.filter fun arg => arg ≠ [] := by
  induction more generalizing text args parsedToken buf with
  | nil =>
    have hend := hread []
    rw [append_nil] at hend
    refine ⟨text,rfl,hhead,?_⟩
    rw [hend,unixLoop,flushed]
    simp
  | cons arg more ih =>
    have harg := hmore arg (by simp)
    obtain ⟨text',htext,hhead',hread'⟩ : ∃ text',
        (if text ≠ [] then text ++ [space] else text) = text' ∧
        (text' ++ arg).head? ≠ some space ∧
        ∀ cs, unixLoop false [] (text' ++ cs) =
          flushed args parsedToken buf ++ unixLoop false [] cs := by
      refine ⟨_,rfl,?_⟩
      by_cases hnil : text = []
      · obtain ⟨hargs,hparsed⟩ := hstart hnil
        rw [hnil,hargs,hparsed]
        refine ⟨?_,fun cs => rfl⟩
        intro hspace
        have hmem : space ∈ arg := mem_of_mem_head? hspace
        have hall := List.all_eq_true.mp harg space hmem
        exact absurd hall (by decide)
      · refine ⟨?_,fun cs => ?_⟩
        · rw [if_pos hnil,append_assoc,head?_append_of_ne_nil _ hnil]
          exact hhead
        · rw [if_pos hnil,append_assoc,singleton_append,hread,unixLoop,
            if_pos (by decide),flushed]
          cases hp : parsedToken with
          | false => simp [hunread hp]
          | true => simp
    have hnext (cs : CString) : unixLoop false [] (text' ++ arg ++ cs) =
        flushed args parsedToken buf ++ unixLoop (arg ≠ []) arg cs := by
      rw [append_assoc,hread',unixLoop_safe harg]
      simp
    have hstart' (hnil : text' ++ arg = []) :
        flushed args parsedToken buf = [] ∧ decide (arg ≠ []) = false := by
      obtain ⟨htext',harg'⟩ := List.append_eq_nil_iff.mp hnil
      have hnone : text = [] := by
        by_contra hne
        rw [if_pos hne] at htext
        rw [← htext] at htext'
        simp at htext'
      obtain ⟨hargs,hparsed⟩ := hstart hnone
      rw [hargs,hparsed,harg']
      exact ⟨rfl,rfl⟩
    obtain ⟨text2,hloop,hhead2,hread2⟩ := ih (fun x hx => hmore x (by simp [hx])) hnext
      (by simp) hstart' hhead'
    refine ⟨text2,?_,hhead2,?_⟩
    · rw [v1RawLoop,if_pos harg,htext]
      exact hloop
    · rw [hread2,filter_cons]
      by_cases hnil : arg = [] <;> simp [flushed,hnil]

theorem v1RawLoop_unsafe {more : List CString} (hmore : ∃ arg ∈ more, isSafeArgV1Value arg = false)
    (text : CString) : ∃ text' e, v1RawLoop more text = (text',some e) := by
  induction more generalizing text with
  | nil => simp at hmore
  | cons arg more ih =>
    rw [v1RawLoop]
    split
    · next hsafe =>
      obtain ⟨x,hx,hrefused⟩ := hmore
      rcases List.mem_cons.mp hx with rfl | hx
      · rw [hsafe] at hrefused
        simp at hrefused
      · exact ih ⟨x,hx,hrefused⟩ _
    · exact ⟨_,_,rfl⟩

private theorem head_escapeChars (s : CString) :
    (escapeChars [doubleQuote] backslash s).head? ≠ some doubleQuote := by
  cases s with
  | nil => simp [escapeChars]
  | cons c s =>
    by_cases hc : c = doubleQuote
    · simp [escapeChars,hc,backslash,doubleQuote]
    · simp [escapeChars,hc]

private theorem v1WackedLoop_escapeChars (s raw : CString) :
    v1WackedLoop raw (escapeChars [doubleQuote] backslash s) = .ok (raw ++ s) := by
  induction s generalizing raw with
  | nil => rw [append_nil]; rfl
  | cons c s ih =>
    have hrest := ih (raw ++ [c])
    rw [append_assoc,singleton_append] at hrest
    by_cases hc : c = doubleQuote
    · have hesc : escapeChars [doubleQuote] backslash (c :: s) =
          backslash :: doubleQuote :: escapeChars [doubleQuote] backslash s := by
        simp [escapeChars,hc]
      rw [hc] at hrest hesc ⊢
      rw [hesc,v1WackedLoop,if_neg (by decide),if_pos ⟨rfl,rfl⟩]
      exact hrest
    · have hesc : escapeChars [doubleQuote] backslash (c :: s) =
          c :: escapeChars [doubleQuote] backslash s := by
        simp [escapeChars,hc]
      have hhead := head_escapeChars s
      rw [hesc]
      cases he : escapeChars [doubleQuote] backslash s with
      | nil =>
        rw [he] at hrest
        rw [v1WackedLoop,if_neg hc]
        exact hrest
      | cons d ds =>
        rw [he] at hhead hrest
        have hd : d ≠ doubleQuote := fun h => hhead (by rw [h]; rfl)
        rw [v1WackedLoop,if_neg hc,if_neg fun h => hd h.2]
        exact hrest

private theorem isV2QuotedString_wacked (s : CString) :
    isV2QuotedString (escapeChars [doubleQuote] backslash s) = false := by
  have hhead : ((escapeChars [doubleQuote] backslash s).dropWhile
      fun c => isspace c.val).head? ≠ some doubleQuote := by
    induction s with
    | nil => simp [escapeChars]
    | cons c s ih =>
      by_cases hc : c = doubleQuote
      · have hesc : escapeChars [doubleQuote] backslash (c :: s) =
            backslash :: doubleQuote :: escapeChars [doubleQuote] backslash s := by
          simp [escapeChars,hc]
        rw [hesc,dropWhile_cons_of_neg (by decide)]
        simp [backslash,doubleQuote]
      · have hesc : escapeChars [doubleQuote] backslash (c :: s) =
            c :: escapeChars [doubleQuote] backslash s := by
          simp [escapeChars,hc]
        rw [hesc,dropWhile_cons]
        split
        · exact ih
        · simpa using hc
  exact decide_eq_false hhead

private theorem v2QuotedLoop_escapeChars (s raw : CString) :
    v2QuotedLoop raw (escapeChars [doubleQuote] doubleQuote s ++ [doubleQuote]) =
      (raw ++ s,some [doubleQuote]) := by
  induction s generalizing raw with
  | nil => simp [escapeChars,v2QuotedLoop]
  | cons c s ih =>
    have hrest := ih (raw ++ [c])
    rw [append_assoc,singleton_append] at hrest
    by_cases hc : c = doubleQuote
    · have hesc : escapeChars [doubleQuote] doubleQuote (c :: s) =
          doubleQuote :: doubleQuote :: escapeChars [doubleQuote] doubleQuote s := by
        simp [escapeChars,hc]
      rw [hc] at hrest hesc ⊢
      rw [hesc,cons_append,cons_append,v2QuotedLoop,if_pos rfl,if_pos rfl]
      exact hrest
    · have hesc : escapeChars [doubleQuote] doubleQuote (c :: s) =
          c :: escapeChars [doubleQuote] doubleQuote s := by
        simp [escapeChars,hc]
      rw [hesc,cons_append]
      cases he : escapeChars [doubleQuote] doubleQuote s ++ [doubleQuote] with
      | nil => simp at he
      | cons d ds =>
        rw [he] at hrest
        rw [v2QuotedLoop,if_neg hc]
        exact hrest

private theorem v2QuotedToV2Raw_quoted (s : CString) :
    isV2QuotedString (v2RawToV2Quoted s []) = true ∧
      v2QuotedToV2Raw (v2RawToV2Quoted s []) = .ok s := by
  have hquoted : v2RawToV2Quoted s [] =
      doubleQuote :: (escapeChars [doubleQuote] doubleQuote s ++ [doubleQuote]) := by
    simp [v2RawToV2Quoted]
  have hdrop (cs : CString) : (doubleQuote :: cs).dropWhile (fun c => isspace c.val) =
      doubleQuote :: cs := dropWhile_cons_of_neg (by decide)
  rw [hquoted,isV2QuotedString,v2QuotedToV2Raw,hdrop,tail_cons,
    v2QuotedLoop_escapeChars]
  exact ⟨rfl,rfl⟩

/-- The new syntax loses nothing, neither raw nor in double quotes. -/
theorem v2_lossless (args : List CString) (raw : CString) :
    splitArgs (joinArgs args []) = (args,none) ∧
      isV2QuotedString (v2RawToV2Quoted raw []) = true ∧
      v2QuotedToV2Raw (v2RawToV2Quoted raw []) = .ok raw ∧
      ∀ l : ArgList, l.argsList = args →
        new.appendArgsV2Raw (l.getArgsStringV2Raw []) = ({ new with argsList := args },none) ∧
        new.appendArgsV2Quoted (l.getArgsStringV2Quoted []) =
          ({ new with argsList := args },none) := by
  obtain ⟨hquoted,hraw⟩ := v2QuotedToV2Raw_quoted raw
  refine ⟨splitArgs_joinArgs args,hquoted,hraw,?_⟩
  intro l hl
  have hread : new.appendArgsV2Raw (joinArgs args []) = ({ new with argsList := args },none) := by
    rw [appendArgsV2Raw,splitArgs_joinArgs]
    rfl
  constructor
  · rw [getArgsStringV2Raw,hl]
    exact hread
  · obtain ⟨hq,hinner⟩ := v2QuotedToV2Raw_quoted (joinArgs args [])
    rw [getArgsStringV2Quoted,getArgsStringV2Raw,hl,appendArgsV2Quoted,if_pos hq,hinner]
    exact hread

def unixReader : ArgList := new.setArgV1Syntax .unixArgV1Syntax

/-- What `GetArgsStringV1or2Raw` writes is read as the same arguments. -/
def SurvivesRaw (l : ArgList) : Prop :=
  let read := unixReader.appendArgsV1or2Raw (l.getArgsStringV1or2Raw [])
  read.2 = none ∧ read.1.argsList = l.argsList

/-- What `GetArgsStringV1WackedOrV2Quoted` writes is read as the same arguments. -/
def SurvivesQuoted (l : ArgList) : Prop :=
  let read := unixReader.appendArgsV1WackedOrV2Quoted (l.getArgsStringV1WackedOrV2Quoted [])
  read.2 = none ∧ read.1.argsList = l.argsList

variable {l : ArgList}

/-- Without white space in any argument the old syntax is chosen, and all arguments but the
empty ones are read back. -/
theorem read_safe (hsafe : ∀ arg ∈ l.argsList, isSafeArgV1Value arg = true) :
    ((unixReader.appendArgsV1or2Raw (l.getArgsStringV1or2Raw [])).2 = none ∧
      (unixReader.appendArgsV1or2Raw (l.getArgsStringV1or2Raw [])).1.argsList =
        l.argsList.filter fun arg => arg ≠ []) ∧
    ((unixReader.appendArgsV1WackedOrV2Quoted (l.getArgsStringV1WackedOrV2Quoted [])).2 = none ∧
      (unixReader.appendArgsV1WackedOrV2Quoted
        (l.getArgsStringV1WackedOrV2Quoted [])).1.argsList =
        l.argsList.filter fun arg => arg ≠ []) := by
  have hstart : ∀ cs, unixLoop false [] ([] ++ cs) = [] ++ unixLoop false [] cs := fun _ => rfl
  obtain ⟨text,hwrite,hhead,hread⟩ := v1RawLoop_safe hsafe hstart (fun _ => rfl)
    (fun _ => ⟨rfl,rfl⟩) (by simp)
  have hraw : l.getArgsStringV1Raw [] = (text,none) := hwrite
  have hunix : (unixReader.appendArgsV1Raw text).1.argsList =
      l.argsList.filter fun arg => arg ≠ [] := by
    change [] ++ unixLoop false [] text = _
    rw [hread]
    rfl
  have hwacked : unixReader.appendArgsV1WackedOrV2Quoted (v1RawToV1Wacked text []) =
      unixReader.appendArgsV1Raw text := by
    rw [appendArgsV1WackedOrV2Quoted,v1RawToV1Wacked,nil_append,isV2QuotedString_wacked,
      v1WackedToV1Raw,v1WackedLoop_escapeChars]
    rfl
  have hnot : ¬ text.head? = some rawV2ArgsMarker := hhead
  simp only [getArgsStringV1or2Raw,getArgsStringV1WackedOrV2Quoted,hraw,hwacked]
  rw [appendArgsV1or2Raw,if_neg hnot]
  exact ⟨⟨rfl,hunix⟩,rfl,hunix⟩

/-- With white space in some argument the new syntax is chosen, and all arguments are read
back. -/
theorem read_refused (hrefused : ∃ arg ∈ l.argsList, isSafeArgV1Value arg = false) :
    SurvivesRaw l ∧ SurvivesQuoted l := by
  obtain ⟨text,e,hwrite⟩ := v1RawLoop_unsafe hrefused []
  have hraw : l.getArgsStringV1Raw [] = (text,some e) := hwrite
  have hall (cs : CString) (hcs : splitArgs cs = (l.argsList,none)) :
      (unixReader.appendArgsV2Raw cs).2 = none ∧
        (unixReader.appendArgsV2Raw cs).1.argsList = l.argsList := by
    rw [appendArgsV2Raw,hcs]
    exact ⟨rfl,rfl⟩
  constructor
  · have hmarker : [rawV2ArgsMarker].head? = some rawV2ArgsMarker := rfl
    have hhead := head_joinArgs hmarker l.argsList
    have hread := readsAs_marker.joinArgs (fun h => by simp at h) l.argsList
    obtain ⟨cs,hcs⟩ := List.head?_eq_some_iff.mp hhead
    rw [hcs,splitArgs_marked] at hread
    simp only [SurvivesRaw,getArgsStringV1or2Raw,hraw,length_nil,take_zero,
      nil_append,getArgsStringV2Raw]
    rw [hcs,appendArgsV1or2Raw,if_pos (by rfl)]
    exact hall cs hread
  · obtain ⟨hquoted,hinner⟩ := v2QuotedToV2Raw_quoted (joinArgs l.argsList [])
    simp only [SurvivesQuoted,getArgsStringV1WackedOrV2Quoted,hraw,getArgsStringV2Quoted,
      getArgsStringV2Raw]
    rw [appendArgsV1WackedOrV2Quoted,if_pos hquoted,hinner]
    exact hall _ (splitArgs_joinArgs l.argsList)

/-- An argument list survives both channels exactly if some argument has white space, or no argument
is empty. -/
theorem survives_iff (l : ArgList) :
    SurvivesRaw l ∧ SurvivesQuoted l ↔
      (∃ arg ∈ l.argsList, isSafeArgV1Value arg = false) ∨ ∀ arg ∈ l.argsList, arg ≠ [] := by
  by_cases hrefused : ∃ arg ∈ l.argsList, isSafeArgV1Value arg = false
  · exact iff_of_true (read_refused hrefused) (Or.inl hrefused)
  · have hsafe : ∀ arg ∈ l.argsList, isSafeArgV1Value arg = true := by
      intro arg harg
      by_contra h
      exact hrefused ⟨arg,harg,Bool.eq_false_iff.mpr h⟩
    obtain ⟨⟨hok,hread⟩,hok',hread'⟩ := read_safe hsafe
    have hfilter : l.argsList.filter (fun arg => arg ≠ []) = l.argsList ↔
        ∀ arg ∈ l.argsList, arg ≠ [] := by
      rw [filter_eq_self]
      simp
    simp only [SurvivesRaw,SurvivesQuoted,hok,hok',hread,hread',hfilter,hrefused,true_and,
      false_or,and_self]

/-- An empty argument between two words is lost. -/
theorem survives_empty :
    ¬ SurvivesRaw ⟨[cstr "a",[],cstr "b"],.unixArgV1Syntax,false⟩ ∧
      ¬ SurvivesQuoted ⟨[cstr "a",[],cstr "b"],.unixArgV1Syntax,false⟩ :=
  ⟨fun h => absurd h.2 (by decide),fun h => absurd h.2 (by decide)⟩

end ArgList

end Condor
