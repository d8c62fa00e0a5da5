import Condor.Utils.CString

/-!
# Map files

The lines of a map file are split into fields, of which those in double quotes may hold blanks.
A field that ends in a backslash at the end of the line takes the reader past the line.
-/

namespace Condor.Security.MapFile

open List Option

def quote : Byte := 34

def backslash : Byte := 92

def isBlank (c : Byte) : Bool := c == 32 || c == 9 || c == 10

/-- The loop of `ParseField` behind an opening quote: how far it goes, and the field. -/
def quotedLoop : List Byte → Nat × List Byte
  | [] => (0,[])
  | [c] =>
    if c = quote then (1,[])
    -- the offset is moved to the end of the line, and the NUL there is taken
    else if c = backslash then (2,[0])
    else (1,[c])
  | c :: d :: rest =>
    if c = quote then (1,[])
    else if c = backslash then
      ((quotedLoop rest).1 + 2,(if d = quote then [d] else [c,d]) ++ (quotedLoop rest).2)
    else ((quotedLoop (d :: rest)).1 + 1,c :: (quotedLoop (d :: rest)).2)

/-- The body of `ParseField` on the text from the offset on. -/
def scanField (text : List Byte) : Nat × List Byte :=
  let blanks := (text.takeWhile isBlank).length
  match text.dropWhile isBlank with
  | [] => (blanks,[])
  | c :: rest =>
    if c = quote then (blanks + 1 + (quotedLoop rest).1,(quotedLoop rest).2)
    else
      let field := (c :: rest).takeWhile fun c => !isBlank c
      (blanks + field.length,field)

/-- `ParseField`; none is the failure of its assertion. -/
def parseField (line : List Byte) (offset : Nat) : Option (Nat × List Byte) :=
  if offset ≤ line.length then
    let (n,field) := scanField (line.drop offset)
    some (offset + n,field)
  else none

/-- What `readLine` gives until the end of the file. -/
def fileLines : List Byte → List (List Byte)
  | [] => [[]]
  | c :: rest =>
    if c = newline then [c] :: fileLines rest
    else
      match fileLines rest with
      | [] => [[c]]
      | line :: lines => (c :: line) :: lines

structure CanonicalMapEntry where
  method : List Byte
  principal : List Byte
  canonicalization : List Byte

structure UserMapEntry where
  canonicalization : List Byte
  user : List Byte

def canonicalLine (line : List Byte) : Option (Option CanonicalMapEntry) :=
  if line = [] then some none
  else do
    let (offset,method) ← parseField line 0
    let (offset,principal) ← parseField line offset
    let (_,canonicalization) ← parseField line offset
    if method = [] ∨ principal = [] ∨ canonicalization = [] then some none
    else some (some ⟨method.map tolower,principal,canonicalization⟩)

def parseCanonicalizationFile (content : CString) : Option (List CanonicalMapEntry) :=
  ((fileLines (bytes content)).mapM canonicalLine).map List.reduceOption

/-- The loop of `ParseUsermapFile` from a line on, with the return code and the new entries. -/
def parseUsermapLines (compiles : List Byte → Bool) :
    Nat → List (List Byte) → Option (Nat × List UserMapEntry)
  | _, [] => some (0,[])
  | n, line :: lines =>
    if line = [] then parseUsermapLines compiles (n + 1) lines
    else do
      let (offset,canonicalization) ← parseField line 0
      let (_,user) ← parseField line offset
      if canonicalization = [] ∨ user = [] then some (n,[])
      else if compiles canonicalization then
        (parseUsermapLines compiles (n + 1) lines).map fun r =>
          (r.1,⟨canonicalization,user⟩ :: r.2)
      else some (n,[⟨canonicalization,user⟩])

def parseUsermapFile (compiles : List Byte → Bool) (content : CString) :
    Option (Nat × List UserMapEntry) :=
  parseUsermapLines compiles 1 (fileLines (bytes content))

def groupOf (groups : List (List Byte)) (d : Byte) : Option (List Byte) :=
  if 49 ≤ d ∧ d ≤ 57 then groups[d.toNat - 48]? else none

def performSubstitution (groups : List (List Byte)) : List Byte → List Byte
  | [] => []
  -- behind the last character there is the NUL
  | [c] => if c = backslash then [0] else [c]
  | c :: d :: rest =>
    if c = backslash then
      match groupOf groups d with
      | some group => group ++ performSubstitution groups rest
      | none => c :: d :: performSubstitution groups rest
    else c :: performSubstitution groups (d :: rest)

/-- The text of a quoted field between its quotes, with the field. -/
inductive Quoted : List Byte → List Byte → Prop
  | nil : Quoted [] []
  | plain {c : Byte} {u field : List Byte} (hq : c ≠ quote) (hb : c ≠ backslash)
      (h : Quoted u field) : Quoted (c :: u) (c :: field)
  | quote {u field : List Byte} (h : Quoted u field) :
      Quoted (backslash :: MapFile.quote :: u) (MapFile.quote :: field)
  | escaped {d : Byte} {u field : List Byte} (hq : d ≠ MapFile.quote) (h : Quoted u field) :
      Quoted (backslash :: d :: u) (backslash :: d :: field)

def Blanks (blanks : List Byte) : Prop := ∀ c ∈ blanks, isBlank c = true

/-- A text begins with a field, and something is left behind it. -/
inductive Field : List Byte → List Byte → List Byte → Prop
  | none {blanks : List Byte} (hb : Blanks blanks) : Field blanks [] []
  | bare {blanks : List Byte} {c : Byte} {w rest : List Byte} (hb : Blanks blanks)
      (hq : c ≠ quote) (hw : ∀ d ∈ c :: w, isBlank d = false)
      (hr : ∀ d ∈ rest.head?, isBlank d = true) :
      Field (blanks ++ (c :: w ++ rest)) (c :: w) rest
  | closed {blanks u field rest : List Byte} (hb : Blanks blanks) (hu : Quoted u field) :
      Field (blanks ++ quote :: (u ++ quote :: rest)) field rest
  | unclosed {blanks u field : List Byte} (hb : Blanks blanks) (hu : Quoted u field) :
      Field (blanks ++ quote :: u) field []

/-- A text begins with a quoted field that runs to its end, which is an unpaired backslash. -/
def Dangling (text : List Byte) : Prop :=
  ∃ blanks u field, Blanks blanks ∧ Quoted u field ∧ text = blanks ++ quote :: (u ++ [backslash])

variable {c d : Byte} {u t text field rest blanks : List Byte}

private theorem quotedLoop_plain (hq : c ≠ quote) (hb : c ≠ backslash) (t : List Byte) :
    quotedLoop (c :: t) = ((quotedLoop t).1 + 1,c :: (quotedLoop t).2) := by
  cases t <;> simp [quotedLoop,hq,hb]

theorem Quoted.loop (h : Quoted u field) (t : List Byte) :
    quotedLoop (u ++ t) = (u.length + (quotedLoop t).1,field ++ (quotedLoop t).2) := by
  induction h with
  | nil => simp
  | plain hq hb h ih =>
    rw [cons_append,quotedLoop_plain hq hb,ih,length_cons]
    exact Prod.ext (by dsimp only; omega) rfl
  | quote h ih | escaped hq h ih =>
    rw [cons_append,cons_append,quotedLoop,ih,if_neg (by decide),if_pos rfl]
    simp [*]
    omega

private theorem exists_quoted (t : List Byte) :
    ∃ u field t', Quoted u field ∧ t = u ++ t' ∧
      (t' = [] ∨ t' = [backslash] ∨ ∃ rest, t' = quote :: rest) := by
  fun_induction quotedLoop t with
  | case1 => exact ⟨[],[],[],.nil,rfl,.inl rfl⟩
  | case2 => exact ⟨[],[],_,.nil,rfl,.inr (.inr ⟨[],by simp [*]⟩)⟩
  | case3 => exact ⟨[],[],_,.nil,rfl,.inr (.inl (by simp [*]))⟩
  | case4 c hq hb => exact ⟨[c],[c],[],.plain hq hb .nil,rfl,.inl rfl⟩
  | case5 => exact ⟨[],[],_,.nil,rfl,.inr (.inr ⟨_,by simp [*]; rfl⟩)⟩
  | case6 d rest hq ih =>
    obtain ⟨u,field,t',hu,rfl,ht⟩ := ih
    by_cases hd : d = quote
    · subst hd
      exact ⟨_,_,t',.quote hu,rfl,ht⟩
    · exact ⟨_,_,t',.escaped hd hu,rfl,ht⟩
  | case7 c d rest hq hb ih =>
    obtain ⟨u,field,t',hu,he,ht⟩ := ih
    exact ⟨_,_,t',.plain hq hb hu,congrArg (List.cons c) he,ht⟩

theorem scanField_cons (hb : Blanks blanks) (hc : isBlank c = false) (t : List Byte) :
    scanField (blanks ++ c :: t) =
      if c = quote then (blanks.length + 1 + (quotedLoop t).1,(quotedLoop t).2)
      else (blanks.length + ((c :: t).takeWhile fun c => !isBlank c).length,
        (c :: t).takeWhile fun c => !isBlank c) := by
  rw [scanField,takeWhile_append_of_pos hb,dropWhile_append_of_pos hb,
    takeWhile_cons_of_neg (by simp [hc]),dropWhile_cons_of_neg (by simp [hc]),
    append_nil]

theorem Field.scan (h : Field text field rest) :
    ∃ pre, text = pre ++ rest ∧ scanField text = (pre.length,field) := by
  cases h with
  | none hb =>
    refine ⟨text,(append_nil _).symm,?_⟩
    rw [scanField,List.takeWhile_eq_self_iff.mpr hb,List.dropWhile_eq_nil_iff.mpr hb]
  | @bare blanks c w _ hb hq hw hr =>
    refine ⟨blanks ++ c :: w,by simp,?_⟩
    have htake : (c :: w ++ rest).takeWhile (fun c => !isBlank c) = c :: w := by
      rw [takeWhile_append_of_pos (fun d hd => by simp [hw d hd])]
      cases rest with
      | nil => simp
      | cons d rest => simp [hr d rfl]
    rw [cons_append,scanField_cons hb (hw c mem_cons_self),if_neg hq,← cons_append,
      htake,length_append]
  | @closed blanks u _ _ hb hu =>
    refine ⟨blanks ++ quote :: (u ++ [quote]),by simp,?_⟩
    have hend : quotedLoop (quote :: rest) = (1,[]) := by
      cases rest <;> rfl
    rw [scanField_cons hb rfl,if_pos rfl,hu.loop,hend]
    simp
    omega
  | @unclosed blanks u _ hb hu =>
    refine ⟨blanks ++ quote :: u,by simp,?_⟩
    have hloop := hu.loop []
    rw [append_nil] at hloop
    rw [scanField_cons hb rfl,if_pos rfl,hloop]
    simp [quotedLoop]
    omega

theorem Dangling.scan (h : Dangling text) :
    ∃ field, scanField text = (text.length + 1,field ++ [0]) := by
  obtain ⟨blanks,u,field,hb,hu,rfl⟩ := h
  refine ⟨field,?_⟩
  rw [scanField_cons hb rfl,if_pos rfl,hu.loop]
  simp [quotedLoop,show backslash ≠ quote by decide]
  omega

private theorem dangling_or_field (text : List Byte) :
    Dangling text ∨ ∃ field rest, Field text field rest := by
  have hblanks : Blanks (text.takeWhile isBlank) := fun c hc => mem_takeWhile_imp hc
  rw [← @takeWhile_append_dropWhile _ isBlank text]
  rcases hrest : text.dropWhile isBlank with _ | ⟨c,t⟩
  · exact .inr ⟨[],[],by simpa using Field.none hblanks⟩
  have hc : isBlank c = false := by
    have := head?_dropWhile_not isBlank text
    rw [hrest] at this
    simpa using this
  by_cases hq : c = quote
  · subst hq
    obtain ⟨u,field,t',hu,rfl,rfl | rfl | ⟨rest,rfl⟩⟩ := exists_quoted t
    · exact .inr ⟨field,[],by simpa using Field.unclosed hblanks hu⟩
    · exact .inl ⟨_,u,field,hblanks,hu,rfl⟩
    · exact .inr ⟨field,rest,.closed hblanks hu⟩
  · have hsplit : c :: t = c :: t.takeWhile (fun c => !isBlank c) ++
        t.dropWhile fun c => !isBlank c := by simp
    rw [hsplit]
    refine .inr ⟨_,_,.bare hblanks hq ?_ ?_⟩
    · rintro d hd
      rcases List.mem_cons.mp hd with rfl | hd
      · exact hc
      · simpa using mem_takeWhile_imp hd
    · intro d hd
      have := head?_dropWhile_not (fun c => !isBlank c) t
      rw [hd] at this
      simpa using this

variable {line pre : List Byte}

theorem Field.parse (h : Field text field rest) (hl : line = pre ++ text) :
    ∃ pre', line = pre' ++ rest ∧ pre.length ≤ pre'.length ∧
      parseField line pre.length = some (pre'.length,field) := by
  obtain ⟨mid,rfl,hscan⟩ := h.scan
  subst hl
  refine ⟨pre ++ mid,by simp,by simp,?_⟩
  rw [parseField,if_pos (by simp),drop_left,hscan]
  simp

theorem Dangling.parse (h : Dangling text) (hl : line = pre ++ text) :
    ∃ field, parseField line pre.length = some (line.length + 1,field ++ [0]) := by
  subst hl
  obtain ⟨field,hscan⟩ := h.scan
  refine ⟨field,?_⟩
  rw [parseField,if_pos (by simp),drop_left,hscan]
  simp
  omega

private theorem Field.parse_start (h : Field line field rest) :
    ∃ pre, line = pre ++ rest ∧ parseField line 0 = some (pre.length,field) := by
  obtain ⟨pre,hpre,-,hp⟩ := h.parse (nil_append line).symm
  exact ⟨pre,hpre,hp⟩

private theorem Dangling.parse_start (h : Dangling line) :
    ∃ field, parseField line 0 = some (line.length + 1,field ++ [0]) :=
  h.parse (nil_append line).symm

private theorem Field.not_dangling (h : Field text field rest) : ¬ Dangling text := by
  intro hd
  obtain ⟨pre,rfl,hscan⟩ := h.scan
  obtain ⟨field',hscan'⟩ := hd.scan
  have := congrArg Prod.fst (hscan.symm.trans hscan')
  simp at this
  omega

theorem Field.unique {field' rest' : List Byte} (h : Field text field rest)
    (h' : Field text field' rest') : field' = field ∧ rest' = rest := by
  obtain ⟨pre,rfl,hscan⟩ := h.scan
  obtain ⟨pre',he,hscan'⟩ := h'.scan
  obtain ⟨hlen,rfl⟩ := Prod.mk.inj (hscan.symm.trans hscan')
  exact ⟨rfl,(append_inj he hlen).2.symm⟩

@[simp] theorem parseField_past (line : List Byte) : parseField line (line.length + 1) = none :=
  if_neg (by omega)

private theorem parseField_within {offset : Nat} (h : offset ≤ line.length) :
    ∃ r, parseField line offset = some r ∧ offset ≤ r.1 ∧
      (r.1 ≤ line.length ↔ ¬ Dangling (line.drop offset)) := by
  obtain ⟨pre,text,hl,rfl⟩ : ∃ pre text, line = pre ++ text ∧ offset = pre.length :=
    ⟨line.take offset,line.drop offset,(take_append_drop ..).symm,by simp [h]⟩
  rw [show line.drop pre.length = text by rw [hl,drop_left]]
  rcases dangling_or_field text with hd | ⟨field,rest,hf⟩
  · obtain ⟨field,hp⟩ := hd.parse hl
    exact ⟨_,hp,by dsimp only; omega,iff_of_false (by simp) (not_not_intro hd)⟩
  · obtain ⟨pre',he,hle,hp⟩ := hf.parse hl
    exact ⟨_,hp,hle,iff_of_true (by rw [he]; simp) hf.not_dangling⟩

/-- The second or the third call on the line finds an offset past its end. -/
def StopsCanonical (line : List Byte) : Prop :=
  Dangling line ∨ ∃ field rest, Field line field rest ∧ Dangling rest

theorem Dangling.ne_nil (h : Dangling text) : text ≠ [] := by
  obtain ⟨blanks,u,field,-,-,rfl⟩ := h
  simp

theorem canonicalLine_eq_none_iff (line : List Byte) :
    canonicalLine line = none ↔ StopsCanonical line := by
  rw [canonicalLine]
  split_ifs with hl
  · subst hl
    refine iff_of_false (by simp) ?_
    rintro (hd | ⟨field,rest,hf,hd⟩)
    · exact hd.ne_nil rfl
    · obtain ⟨rfl,rfl⟩ := (Field.none (forall_mem_nil _)).unique hf
      exact hd.ne_nil rfl
  · rcases dangling_or_field line with hd | ⟨method,rest,hf⟩
    · obtain ⟨method,hp⟩ := hd.parse_start
      exact iff_of_true (by simp [hp]) (.inl hd)
    obtain ⟨pre,hpre,hp⟩ := hf.parse_start
    rcases dangling_or_field rest with hd | ⟨principal,rest',hg⟩
    · obtain ⟨principal,hp'⟩ := hd.parse hpre
      exact iff_of_true (by simp [hp,hp']) (.inr ⟨_,_,hf,hd⟩)
    · obtain ⟨pre',hpre',-,hp'⟩ := hg.parse hpre
      obtain ⟨r,hp'',-⟩ := parseField_within (show pre'.length ≤ line.length by
        rw [hpre']
        simp)
      refine iff_of_false ?_ ?_
      · simp only [hp,hp',hp'',bind_eq_bind,bind_some]
        split_ifs <;> simp
      · rintro (hd | ⟨field,rest'',hf',hd⟩)
        · exact hf.not_dangling hd
        · obtain ⟨-,rfl⟩ := hf.unique hf'
          exact hg.not_dangling hd

theorem parseCanonicalizationFile_eq_none_iff (content : CString) :
    parseCanonicalizationFile content = none ↔
      ∃ line ∈ fileLines (bytes content), StopsCanonical line := by
  rw [parseCanonicalizationFile,map_eq_none_iff]
  induction fileLines (bytes content) with
  | nil => simp
  | cons line lines ih =>
    rw [mapM_cons,exists_mem_cons_iff,← ih,← canonicalLine_eq_none_iff]
    cases canonicalLine line with
    | none => simp
    | some entry => cases lines.mapM canonicalLine <;> simp

/-- A line behind which the user map is read on. -/
def Accepted (compiles : List Byte → Bool) (line : List Byte) : Prop :=
  line = [] ∨ ∃ canonicalization rest, Field line canonicalization rest ∧
    canonicalization ≠ [] ∧ compiles canonicalization = true ∧
    (Dangling rest ∨ ∃ user rest', Field rest user rest' ∧ user ≠ [])

/-- A line whose first field is dangling comes up, all lines in front of it being accepted. -/
def StopsUsermap (compiles : List Byte → Bool) : List (List Byte) → Prop
  | [] => False
  | line :: lines => Dangling line ∨ Accepted compiles line ∧ StopsUsermap compiles lines

/-- What the second call on a line gives, wherever it ends. -/
theorem parse_user (hl : line = pre ++ rest) :
    ∃ offset user, parseField line pre.length = some (offset,user) ∧
      (user ≠ [] ↔ Dangling rest ∨ ∃ user rest', Field rest user rest' ∧ user ≠ []) := by
  rcases dangling_or_field rest with hd | ⟨user,rest',hg⟩
  · obtain ⟨user,hp⟩ := hd.parse hl
    exact ⟨_,_,hp,iff_of_true (by simp) (.inl hd)⟩
  · obtain ⟨pre',-,-,hp⟩ := hg.parse hl
    refine ⟨_,user,hp,fun hu => .inr ⟨user,rest',hg,hu⟩,?_⟩
    rintro (hd | ⟨user',rest'',hg',hu⟩)
    · exact absurd hd hg.not_dangling
    · exact (hg.unique hg').1 ▸ hu

theorem parseUsermapLines_eq_none_iff (compiles : List Byte → Bool) (n : Nat)
    (lines : List (List Byte)) :
    parseUsermapLines compiles n lines = none ↔ StopsUsermap compiles lines := by
  induction lines generalizing n with
  | nil => simp [parseUsermapLines,StopsUsermap]
  | cons line lines ih =>
    rw [parseUsermapLines,StopsUsermap]
    split_ifs with hl
    · have hno : ¬ Dangling line := fun hd => hd.ne_nil hl
      rw [ih,or_iff_right hno,and_iff_right (show Accepted compiles line from .inl hl)]
    rcases dangling_or_field line with hd | ⟨canonicalization,rest,hf⟩
    · obtain ⟨field,hp⟩ := hd.parse_start
      exact iff_of_true (by simp [hp]) (.inl hd)
    obtain ⟨pre,hpre,hp⟩ := hf.parse_start
    obtain ⟨offset,user,hp',huser⟩ := parse_user hpre
    have hacc : Accepted compiles line ↔
        canonicalization ≠ [] ∧ compiles canonicalization = true ∧ user ≠ [] := by
      rw [huser]
      constructor
      · rintro (he | ⟨_,_,hf',h⟩)
        · exact absurd he hl
        · obtain ⟨rfl,rfl⟩ := hf.unique hf'
          exact h
      · exact fun h => .inr ⟨_,_,hf,h⟩
    rw [hacc,or_iff_right hf.not_dangling]
    simp only [hp,hp',bind_eq_bind,bind_some]
    split_ifs with hempty hc
    · simp
      tauto
    · rw [map_eq_none_iff,ih]
      tauto
    · simp [hc]

def escape (c : Byte) : List Byte := if c = quote then [backslash,quote] else [c]

/-- A field in double quotes, with a backslash before each double quote inside. -/
def enclose (field : List Byte) : List Byte := quote :: (field.flatMap escape ++ [quote])

def enclosedLine : List (List Byte) → List Byte
  | [] => []
  | [field] => enclose field
  | field :: fields => enclose field ++ blank :: enclosedLine fields

/-- Successive calls of `ParseField`, with the offset behind the last. -/
def parseFields (line : List Byte) : Nat → Nat → Option (List (List Byte) × Nat)
  | 0, offset => some ([],offset)
  | n + 1, offset => do
    let (offset,field) ← parseField line offset
    let (fields,offset) ← parseFields line n offset
    some (field :: fields,offset)

/-- No backslash is last or directly before a double quote. -/
def Enclosable (field : List Byte) : Prop :=
  ∀ u v, field = u ++ backslash :: v → ∃ d w, v = d :: w ∧ d ≠ quote

theorem Enclosable.tail (h : Enclosable (c :: field)) : Enclosable field :=
  fun u v he => h (c :: u) v (congrArg (List.cons c) he)

private theorem quoted_enclosed : ∀ field, Enclosable field → Quoted (field.flatMap escape) field
  | [], _ => .nil
  | [c], h => by
    by_cases hq : c = quote
    · subst hq
      exact .quote .nil
    · have hb : c ≠ backslash := fun hb => by
        obtain ⟨d,w,hv,-⟩ := h [] [] (by rw [hb]; rfl)
        cases hv
      simpa [escape,hq] using Quoted.plain hq hb .nil
  | c :: d :: field, h => by
    by_cases hq : c = quote
    · subst hq
      exact .quote (quoted_enclosed (d :: field) h.tail)
    by_cases hb : c = backslash
    · subst hb
      obtain ⟨e,w,hv,hd⟩ := h [] (d :: field) rfl
      obtain ⟨rfl,rfl⟩ := List.cons.inj hv
      simpa [escape,hq,hd] using Quoted.escaped hd (quoted_enclosed field h.tail.tail)
    · have ih := quoted_enclosed (d :: field) h.tail
      rw [flatMap_cons,escape,if_neg hq]
      exact .plain hq hb ih

private theorem field_enclosed (hb : Blanks blanks) (h : Enclosable field) (rest : List Byte) :
    Field (blanks ++ (enclose field ++ rest)) field rest := by
  simpa [enclose] using Field.closed hb (quoted_enclosed field h)

private theorem parseFields_behind (fields : List (List Byte)) (hb : Blanks blanks)
    (h : ∀ f ∈ field :: fields, Enclosable f)
    (hl : line = pre ++ (blanks ++ enclosedLine (field :: fields))) :
    parseFields line (fields.length + 1) pre.length = some (field :: fields,line.length) := by
  have hfield := h field mem_cons_self
  induction fields generalizing field pre blanks with
  | nil =>
    have hf := field_enclosed hb hfield []
    rw [append_nil] at hf
    obtain ⟨pre',hpre,-,hp⟩ := hf.parse hl
    rw [append_nil] at hpre
    subst hpre
    rw [length_nil,parseFields,hp]
    rfl
  | cons next fields ih =>
    obtain ⟨pre',hpre,-,hp⟩ := (field_enclosed hb hfield _).parse hl
    have hnext : ∀ f ∈ next :: fields, Enclosable f := fun f hf => h f (mem_cons_of_mem _ hf)
    have hblank : Blanks [blank] := by simp [Blanks,isBlank,blank]
    have := ih hblank hnext hpre
      (hnext next mem_cons_self)
    rw [length_cons,parseFields,hp,bind_eq_bind,bind_some]
    dsimp only
    rw [this]
    rfl

private theorem parseFields_enclosedLine (fields : List (List Byte))
    (h : ∀ f ∈ fields, Enclosable f) :
    parseFields (enclosedLine fields) fields.length 0 =
      some (fields,(enclosedLine fields).length) := by
  cases fields with
  | nil => rfl
  | cons field fields =>
    exact parseFields_behind fields (forall_mem_nil _) h (nil_append _).symm

/-- Every backslash before a digit that has a group is replaced with the digit. -/
def replaced (groups : List (List Byte)) : List Byte → List Byte
  | [] => []
  | [c] => [c]
  | c :: d :: rest =>
    if c = backslash then
      match groupOf groups d with
      | some group => group ++ replaced groups rest
      | none => c :: replaced groups (d :: rest)
    else c :: replaced groups (d :: rest)

def HasGroup (n : Nat) (d : Byte) : Prop := 49 ≤ d ∧ d ≤ 57 ∧ d.toNat - 48 < n

/-- No backslash is last and unpaired, and no pair of them stands before a digit that has a
group. -/
def Plain (n : Nat) : List Byte → Prop
  | [] => True
  | [c] => c ≠ backslash
  | c :: d :: rest =>
    if c = backslash then (d = backslash → ∀ e ∈ rest.head?, ¬ HasGroup n e) ∧ Plain n rest
    else Plain n (d :: rest)

variable {groups : List (List Byte)} {n : Nat}

theorem groupOf_eq_none_iff : groupOf groups d = none ↔ ¬ HasGroup groups.length d := by
  rw [groupOf,HasGroup]
  split_ifs with h
  · rw [List.getElem?_eq_none_iff]
    exact ⟨fun hlen hh => absurd hh.2.2 (by omega),
      fun hno => not_lt.mp fun hlt => hno ⟨h.1,h.2,hlt⟩⟩
  · exact iff_of_true rfl fun hh => h ⟨hh.1,hh.2.1⟩

theorem replaced_cons (h : c = backslash → ∀ e ∈ t.head?, ¬ HasGroup groups.length e) :
    replaced groups (c :: t) = c :: replaced groups t := by
  cases t with
  | nil => rfl
  | cons e t =>
    rw [replaced]
    split_ifs with hc
    · rw [groupOf_eq_none_iff.mpr (h hc e rfl)]
    · rfl

private theorem performSubstitution_of_plain {pattern : List Byte}
    (h : Plain groups.length pattern) :
    performSubstitution groups pattern = replaced groups pattern := by
  fun_induction performSubstitution groups pattern with
  | case1 => rfl
  | case2 => exact absurd rfl h
  | case3 => rfl
  | case4 d rest group hg ih =>
    rw [Plain,if_pos rfl] at h
    rw [replaced,if_pos rfl,hg,ih h.2]
  | case5 d rest hg ih =>
    rw [Plain,if_pos rfl] at h
    rw [replaced,if_pos rfl,hg,replaced_cons h.1,ih h.2]
  | case6 c d rest hc ih =>
    rw [Plain,if_neg hc] at h
    rw [replaced,if_neg hc,ih h]

private theorem plain_of_performSubstitution {pattern : List Byte} (hgroups : ∀ g ∈ groups, g = [0])
    (h : performSubstitution groups pattern = replaced groups pattern) :
    Plain groups.length pattern := by
  fun_induction performSubstitution groups pattern with
  | case1 => trivial
  | case2 => exact absurd (List.cons.inj h).1 (by decide)
  | case3 c hc => exact hc
  | case4 d rest group hg ih =>
    rw [replaced,if_pos rfl,hg] at h
    rw [Plain,if_pos rfl]
    refine ⟨?_,ih (append_cancel_left h)⟩
    rintro rfl
    cases hg
  | case5 d rest hg ih =>
    rw [replaced,if_pos rfl,hg] at h
    have htail := (List.cons.inj h).2
    have hpair : d = backslash → ∀ e ∈ rest.head?, ¬ HasGroup groups.length e := by
      rintro rfl e he hhas
      obtain ⟨rest',rfl⟩ : ∃ rest', rest = e :: rest' := List.head?_eq_some_iff.mp he
      obtain ⟨g,hge⟩ := Option.ne_none_iff_exists'.mp
        (mt groupOf_eq_none_iff.mp (not_not_intro hhas))
      have hmem : g ∈ groups := by
        rw [groupOf] at hge
        split_ifs at hge
        exact mem_of_getElem? hge
      rw [replaced,if_pos rfl,hge,hgroups g hmem] at htail
      exact absurd (List.cons.inj htail).1 (by decide)
    rw [replaced_cons hpair] at htail
    rw [Plain,if_pos rfl]
    exact ⟨hpair,ih (List.cons.inj htail).2⟩
  | case6 c d rest hc ih =>
    rw [replaced,if_neg hc] at h
    rw [Plain,if_neg hc]
    exact ih (List.cons.inj h).2

theorem performSubstitution_iff (pattern : List Byte) (n : Nat) :
    (∀ groups : List (List Byte), groups.length = n →
      performSubstitution groups pattern = replaced groups pattern) ↔ Plain n pattern := by
  refine ⟨fun h => ?_,fun h groups hn => performSubstitution_of_plain (hn ▸ h)⟩
  have := plain_of_performSubstitution (fun g hg => eq_of_mem_replicate hg)
    (h (List.replicate n [0]) (length_replicate ..))
  rwa [length_replicate] at this

/-- No assertion fails exactly if no call follows a field that ends past its line, enclosed fields
are read back, and a substitution is right exactly if its backslashes are. -/
theorem mapFile_read (compiles : List Byte → Bool) (content : CString) :
    (parseCanonicalizationFile content ≠ none ↔
      ∀ line ∈ fileLines (bytes content), ¬ StopsCanonical line) ∧
    (parseUsermapFile compiles content ≠ none ↔
      ¬ StopsUsermap compiles (fileLines (bytes content))) ∧
    (∀ (line : List Byte) (offset : Nat), offset ≤ line.length →
      ∃ r, parseField line offset = some r ∧ offset ≤ r.1 ∧
        (r.1 ≤ line.length ↔ ¬ Dangling (line.drop offset))) ∧
    (∀ fields : List (List Byte), (∀ f ∈ fields, Enclosable f) →
      parseFields (enclosedLine fields) fields.length 0 =
        some (fields,(enclosedLine fields).length)) ∧
    ∀ (pattern : List Byte) (n : Nat),
      (∀ groups : List (List Byte), groups.length = n →
        performSubstitution groups pattern = replaced groups pattern) ↔ Plain n pattern := by
  refine ⟨?_,(parseUsermapLines_eq_none_iff ..).not,fun line offset h => parseField_within h,
    parseFields_enclosedLine,performSubstitution_iff⟩
  rw [ne_eq,parseCanonicalizationFile_eq_none_iff]
  simp

/-- The file holds a double quote and a backslash, and the pattern ends in a backslash. -/
theorem mapFile_read_fails :
    parseCanonicalizationFile (cstr "\"\\") = none ∧
      performSubstitution [] [backslash] ≠ replaced [] [backslash] := by
  decide

end Condor.Security.MapFile
