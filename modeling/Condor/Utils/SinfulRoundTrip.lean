import Condor.Utils.Sinful

/-!
# Addresses that are built and parsed again

What calls of `setHost`, `setPort` and `setParam` build is parsed by the constructor.
-/

namespace Condor.Sinful

open Lib Url List Option

def hostText (host : List Byte) : List Byte :=
  if colon ∈ host then openBracket :: (host ++ [closeBracket]) else host

def portText (port : List Byte) : List Byte := if port = [] then [] else colon :: port

def paramsPart (params : Params) : List Byte :=
  if params.entries = [] then [] else questionMark :: paramsText params.entries

def text (s : Sinful) : List Byte :=
  openAngle :: (hostText s.host ++ (portText s.port ++ (paramsPart s.params ++ [closeAngle])))

structure Formed (s : Sinful) : Prop where
  host : ∀ b ∈ s.host, b ∉ [closeBracket,closeAngle,questionMark,0]
  port : ∀ b ∈ s.port, isdigit b = true
  port_small : s.port.length < 2^31
  params : ∀ e ∈ s.params.entries, Writable e

variable {s : Sinful}

private theorem regenerateSinful_eq (h : ∀ e ∈ s.params.entries, Writable e) :
    s.regenerateSinful = some { s with sinful := s.text } := by
  have hpart : (if s.params.entries = [] then some []
      else (some (paramsText s.params.entries)).map (questionMark :: ·)) =
      some (paramsPart s.params) := by
    rw [paramsPart]
    split <;> rfl
  rw [regenerateSinful,urlEncodeParams_eq h,hpart]
  rfl

private theorem regenerateSinful_none {e : StdString × StdString} (he : e ∈ s.params.entries)
    (h : ¬Ascii e.1.c_str ∨ ¬Ascii e.2.c_str ∧ e.2.chars ≠ []) : s.regenerateSinful = none := by
  have hne : s.params.entries ≠ [] := ne_nil_of_mem he
  rw [regenerateSinful,urlEncodeParams,urlEncodeLoop_high he h,if_neg hne]
  rfl

private theorem intLength_map_small {α : Type} {n : Nat} (h : n < 2^31) (f : Nat → α) :
    (intLength n).map f = some (f n) := by
  rw [intLength_small h]
  rfl

def Behind (stop more : List Byte) : Prop := ∃ b rest, more = b :: rest ∧ b ∈ stop

private theorem strcspn_behind {s stop more : List Byte} (hs : ∀ b ∈ s, b ∉ stop)
    (h : Behind stop more) :
    strcspn (s ++ more) stop = s.length := by
  obtain ⟨b,rest,rfl,hb⟩ := h
  rw [strcspn_append hs,strcspn_stop hb,Nat.add_zero]

private theorem splitHost_brackets {host : List Byte} (h : closeBracket ∉ host) (more : List Byte) :
    splitHost (openBracket :: (host ++ [closeBracket]) ++ more) = some (some (host,more)) := by
  have hskip : ∀ b ∈ host, decide (b ≠ closeBracket) = true := by
    intro b hb
    exact decide_eq_true fun he => h (he ▸ hb)
  have htake : (host ++ ([closeBracket] ++ more)).takeWhile (· ≠ closeBracket) = host := by
    rw [takeWhile_append_of_pos hskip,singleton_append,
      takeWhile_cons_of_neg (by simp),append_nil]
  rw [splitHost,cons_append,head?_cons,if_pos rfl,tail_cons,append_assoc]
  dsimp only
  rw [if_pos (by simp),htake,← drop_drop,drop_left]
  rfl

private theorem splitHost_unmatched {addr : List Byte} (hopen : addr.head? = some openBracket)
    (h : closeBracket ∉ addr) : splitHost addr = some none := by
  rw [splitHost,if_pos hopen]
  dsimp only
  rw [if_neg fun hm => h (mem_of_mem_tail hm)]

private theorem splitHost_name {host more : List Byte}
    (hopen : (host ++ more).head? ≠ some openBracket)
    (h : ∀ b ∈ host, b ∉ [colon,questionMark,closeAngle])
    (hmore : Behind [colon,questionMark,closeAngle] more) :
    splitHost (host ++ more) = (intLength host.length).map fun len =>
      some ((host ++ more).take len,(host ++ more).drop len) := by
  rw [splitHost,if_neg hopen,strcspn_behind h hmore]

private theorem splitPort_text {port more : List Byte} (h : ∀ b ∈ port, isdigit b = true)
    (hsmall : port.length < 2^31) (hmore : Behind [questionMark,closeAngle] more) :
    splitPort (portText port ++ more) = some (if port = [] then none else some port,more) := by
  obtain ⟨b,rest,rfl,hb⟩ := hmore
  have hstops : ∀ c ∈ [questionMark,closeAngle], c ≠ colon ∧ isdigit c = false := by decide +kernel
  rw [splitPort,portText]
  by_cases hport : port = []
  · rw [if_pos hport,if_pos hport,nil_append,head?_cons,
      if_neg fun he => (hstops b hb).1 (some.inj he)]
  · have htake : (port ++ b :: rest).takeWhile isdigit = port := by
      rw [takeWhile_append_of_pos h,takeWhile_cons_of_neg,append_nil]
      rw [(hstops b hb).2]
      exact Bool.false_ne_true
    rw [if_neg hport,if_neg hport,cons_append,head?_cons,if_pos rfl,tail_cons]
    dsimp only
    rw [htake,intLength_map_small hsmall,take_left,drop_left]

private theorem splitParams_part (params : Params) (h : closeAngle ∉ paramsText params.entries) :
    splitParams (paramsPart params ++ [closeAngle]) =
      if params.entries = [] then some (none,[closeAngle])
      else (intLength (paramsText params.entries).length).map fun len =>
        (some ((paramsText params.entries ++ [closeAngle]).take len),
          (paramsText params.entries ++ [closeAngle]).drop len) := by
  have hnot : ∀ b ∈ paramsText params.entries, b ∉ [closeAngle] := by
    intro b hb hm
    rw [List.mem_singleton.mp hm] at hb
    exact h hb
  by_cases hnil : params.entries = []
  · rw [splitParams,paramsPart,if_pos hnil,if_pos hnil]
    rfl
  · rw [splitParams,paramsPart,if_neg hnil,if_neg hnil,cons_append,head?_cons,if_pos rfl,
      tail_cons]
    dsimp only
    rw [strcspn_behind hnot ⟨closeAngle,[],rfl,mem_singleton_self _⟩]

/-- The host is not taken for one in brackets, and the parts are no longer than an `int` holds. -/
structure Fits (s : Sinful) : Prop where
  host : s.host.head? = some openBracket → colon ∈ s.host
  host_small : colon ∈ s.host ∨ s.host.length < 2^31
  params_small : (paramsText s.params.entries).length < 2^31

def Parsed (s : Sinful) : Prop :=
  ∃ t, ofString s.getSinful = some t ∧ t.valid = true ∧ t.host = s.host ∧ t.port = s.port ∧
    t.params = s.params

theorem mem_paramsText {es : List (StdString × StdString)} (h : ∀ e ∈ es, Writable e)
    {c : Byte}
    (hc : c ∈ paramsText es) :
    needsUrlEncodeEscape c = false ∨ c ∈ [percent,equals,ampersand] := by
  have hencoded : ∀ {s : List Byte}, Ascii s → c ∈ encoded s →
      needsUrlEncodeEscape c = false ∨ c ∈ [percent,equals,ampersand] := by
    intro s hs hm
    exact (mem_encoded hs hm).imp_right fun he => List.mem_cons.mpr (.inl he)
  have hpair : ∀ e ∈ es, c ∈ pairText e →
      needsUrlEncodeEscape c = false ∨ c ∈ [percent,equals,ampersand] := by
    intro e he hm
    rw [pairText,mem_append] at hm
    cases hm with
    | inl hm => exact hencoded (h e he).key_ascii hm
    | inr hm =>
      split at hm
      · exact absurd hm not_mem_nil
      · cases List.mem_cons.mp hm with
        | inl heq => exact .inr (by simp [heq])
        | inr hm => exact hencoded (h e he).value_ascii hm
  cases es with
  | nil => exact absurd hc not_mem_nil
  | cons e es =>
    rw [paramsText,mem_append] at hc
    cases hc with
    | inl hm => exact hpair e (mem_cons_self ..) hm
    | inr hm =>
      obtain ⟨x,hx,hm⟩ := List.mem_flatMap.mp hm
      cases List.mem_cons.mp hm with
      | inl heq => exact .inr (by simp [heq])
      | inr hm => exact hpair x (mem_cons_of_mem e hx) hm

theorem not_mem_paramsText {es : List (StdString × StdString)} (h : ∀ e ∈ es, Writable e)
    {c : Byte}
    (hc : c ∈ [closeBracket,closeAngle,0]) : c ∉ paramsText es := by
  have hstops : ∀ c ∈ [closeBracket,closeAngle,0],
      needsUrlEncodeEscape c = true ∧ c ∉ [percent,equals,ampersand] := by decide +kernel
  intro hm
  cases mem_paramsText h hm with
  | inl hneed => exact Bool.false_ne_true (hneed.symm.trans (hstops c hc).1)
  | inr hm => exact (hstops c hc).2 hm

theorem not_mem_behind (h : s.Formed) {c : Byte} (hc : c ∈ [closeBracket,0]) :
    c ∉ s.host ++ (portText s.port ++ (paramsPart s.params ++ [closeAngle])) := by
  have hne : ∀ c ∈ [closeBracket,0], c ∈ [closeBracket,closeAngle,questionMark,0] ∧
      c ∈ [closeBracket,closeAngle,0] ∧ isdigit c = false ∧ c ≠ colon ∧ c ≠ questionMark ∧
        c ≠ closeAngle := by decide +kernel
  obtain ⟨hhost,hparams,hdigit,hcolon,hquestion,hclose⟩ := hne c hc
  rw [mem_append,mem_append,mem_append,mem_singleton]
  rintro (hm | hm | hm | hm)
  · exact h.host c hm hhost
  · rw [portText] at hm
    split at hm
    · exact absurd hm not_mem_nil
    · cases List.mem_cons.mp hm with
      | inl he => exact hcolon he
      | inr hm => exact Bool.false_ne_true (hdigit.symm.trans (h.port c hm))
  · rw [paramsPart] at hm
    split at hm
    · exact absurd hm not_mem_nil
    · cases List.mem_cons.mp hm with
      | inl he => exact hquestion he
      | inr hm => exact not_mem_paramsText h.params hparams hm
  · exact hclose hm

private theorem behind_params (params : Params) :
    Behind [questionMark,closeAngle] (paramsPart params ++ [closeAngle]) := by
  rw [paramsPart]
  split
  · exact ⟨closeAngle,[],rfl,by decide⟩
  · exact ⟨questionMark,_,rfl,by decide⟩

private theorem behind_port (port : List Byte) (params : Params) :
    Behind [colon,questionMark,closeAngle]
      (portText port ++ (paramsPart params ++ [closeAngle])) := by
  rw [portText]
  split
  · obtain ⟨b,rest,hb,hm⟩ := behind_params params
    exact ⟨b,rest,hb,mem_cons_of_mem colon hm⟩
  · exact ⟨colon,_,rfl,by decide⟩

private theorem splitHost_host (h : s.Formed) (hcolon : colon ∉ s.host)
    (hopen : s.host.head? ≠ some openBracket) :
    let addr := s.host ++ (portText s.port ++ (paramsPart s.params ++ [closeAngle]))
    splitHost addr = (intLength s.host.length).map fun len => some
    (addr.take len,addr.drop len) := by
  have hbehind := behind_port s.port s.params
  apply splitHost_name
  · cases hhost : s.host with
    | nil =>
      obtain ⟨b,rest,hb,hm⟩ := hbehind
      have hne : ∀ c ∈ [colon,questionMark,closeAngle], c ≠ openBracket := by decide +kernel
      rw [nil_append,hb]
      exact fun he => hne b hm (some.inj he)
    | cons b rest =>
      rw [hhost] at hopen
      exact hopen
  · intro b hb hm
    have hstops : ∀ c ∈ [colon,questionMark,closeAngle],
        c = colon ∨ c ∈ [closeBracket,closeAngle,questionMark,0] := by decide +kernel
    cases hstops b hm with
    | inl he => exact hcolon (he ▸ hb)
    | inr hm => exact h.host b hb hm
  · exact hbehind

private theorem splitSin_fits (h : s.Formed) (hfits : s.Fits) :
    splitSin s.text = some (some ⟨s.host,if s.port = [] then none else some s.port,
      if s.params.entries = [] then none else some (paramsText s.params.entries)⟩) := by
  apply splitSin_iff.mpr
  refine ⟨rfl,portText s.port ++ (paramsPart s.params ++ [closeAngle]),
    paramsPart s.params ++ [closeAngle],?_,?_,?_⟩
  · rw [text,tail_cons,hostText]
    split
    · exact splitHost_brackets (fun hm => h.host _ hm (by decide)) _
    · next hcolon =>
      rw [splitHost_host h hcolon fun ho => hcolon (hfits.host ho),
        intLength_map_small (hfits.host_small.resolve_left hcolon),take_left,drop_left]
  · exact splitPort_text h.port h.port_small (behind_params s.params)
  · rw [splitParams_part s.params (not_mem_paramsText h.params (by decide))]
    split
    · rfl
    · rw [intLength_map_small hfits.params_small,take_left,drop_left]

private theorem ofBracketed_fits (h : s.Formed) (hfits : s.Fits) :
    ofBracketed s.text = some { s with sinful := s.text, valid := true } := by
  have hport : (if s.port = [] then none else some s.port).getD [] = s.port := by
    split
    · next hnil => exact hnil.symm
    · rfl
  rw [ofBracketed,splitSin_fits h hfits,map_some]
  dsimp only
  rw [hport]
  by_cases hnil : s.params.entries = []
  · have hempty : s.params = .empty := by
      cases hp : s.params
      rw [hp] at hnil
      cases hnil
      rfl
    rw [if_pos hnil]
    dsimp only
    rw [hempty]
  · rw [if_neg hnil]
    dsimp only
    rw [parseUrlEncodedParams_paramsText h.params]

private theorem params_small_of_split (h : s.Formed) {more' : List Byte}
    {port params : Option (List Byte)}
    (hport : splitPort (portText s.port ++ (paramsPart s.params ++ [closeAngle])) =
      some (port,more'))
    (hparams : splitParams more' = some (params,[closeAngle])) :
    (paramsText s.params.entries).length < 2^31 := by
  have hclose : closeAngle ∉ paramsText s.params.entries := not_mem_paramsText h.params (by decide)
  rw [splitPort_text h.port h.port_small (behind_params s.params),Option.some.injEq,
    Prod.mk.injEq] at hport
  rw [← hport.2,splitParams_part s.params hclose] at hparams
  by_contra hlarge
  by_cases hnil : s.params.entries = []
  · rw [hnil] at hlarge
    exact hlarge (by decide)
  · rw [if_neg hnil] at hparams
    obtain ⟨len,hlen,hsplit⟩ := Option.map_eq_some_iff.mp hparams
    have hshort := intLength_large hlarge hlen
    have hrest := congrArg (fun r => r.2.length) hsplit
    dsimp only at hrest
    rw [length_drop,length_append,length_singleton] at hrest
    omega

private theorem name_of_split (h : s.Formed) (hcolon : colon ∉ s.host) {host more : List Byte}
    (hsplit : splitHost (s.host ++ (portText s.port ++ (paramsPart s.params ++ [closeAngle]))) =
      some (some (host,more))) (hhost : host = s.host) :
    s.host.head? ≠ some openBracket ∧ s.host.length < 2^31 ∧
      more = portText s.port ++ (paramsPart s.params ++ [closeAngle]) := by
  have hopen : s.host.head? ≠ some openBracket := by
    intro hopen
    have hhead : (s.host ++ (portText s.port ++ (paramsPart s.params ++ [closeAngle]))).head? =
        some openBracket := by
      cases hs : s.host with
      | nil =>
        rw [hs] at hopen
        cases hopen
      | cons b rest =>
        rw [hs] at hopen
        exact hopen
    rw [splitHost_unmatched hhead (not_mem_behind h (by decide))] at hsplit
    exact absurd (some.inj hsplit) (some_ne_none _).symm
  rw [splitHost_host h hcolon hopen] at hsplit
  obtain ⟨len,hlen,hparts⟩ := Option.map_eq_some_iff.mp hsplit
  rw [Option.some.injEq,Prod.mk.injEq,hhost] at hparts
  have hle := intLength_le hlen
  have hcopied := congrArg List.length hparts.1
  rw [length_take_of_le (by rw [length_append]; omega)] at hcopied
  refine ⟨hopen,?_,?_⟩
  · by_contra hlarge
    have hshort := intLength_large hlarge hlen
    omega
  · rw [← hparts.2,hcopied,drop_left]

private theorem fits_of_splitSin (h : s.Formed) {parts : Parts}
    (hsplit : splitSin s.text = some (some parts)) (hhost : parts.host = s.host) : s.Fits := by
  obtain ⟨-,more,more',hh,hp,hps⟩ := splitSin_iff.mp hsplit
  rw [text,tail_cons,hostText] at hh
  by_cases hcolon : colon ∈ s.host
  · rw [if_pos hcolon,splitHost_brackets (fun hm => h.host _ hm (by decide)),Option.some.injEq,
      Option.some.injEq,Prod.mk.injEq] at hh
    rw [← hh.2] at hp
    exact ⟨fun _ => hcolon,.inl hcolon,params_small_of_split h hp hps⟩
  · rw [if_neg hcolon] at hh
    obtain ⟨hopen,hsmall,hmore⟩ := name_of_split h hcolon hh hhost
    rw [hmore] at hp
    exact ⟨fun ho => absurd ho hopen,.inr hsmall,params_small_of_split h hp hps⟩

theorem not_mem_text (h : s.Formed) : 0 ∉ s.text := by
  have hbehind := not_mem_behind h (c := 0) (by decide)
  rw [mem_append,not_or] at hbehind
  rw [text,mem_cons,mem_append]
  rintro (he | hm | hm)
  · exact absurd he (by decide)
  · rw [hostText] at hm
    split at hm
    · cases List.mem_cons.mp hm with
      | inl he => exact absurd he (by decide)
      | inr hm =>
        cases List.mem_append.mp hm with
        | inl hm => exact hbehind.1 hm
        | inr hm => exact absurd (List.mem_singleton.mp hm) (by decide)
    · exact hbehind.1 hm
  · exact hbehind.2 hm

theorem parsed_iff (h : s.Formed) (ht : s.sinful = s.text) : s.Parsed ↔ s.Fits := by
  have hne : s.text ≠ [] := cons_ne_nil _ _
  have hnul : s.text.takeWhile (· ≠ 0) = s.text := by
    apply List.takeWhile_eq_self_iff.mpr
    intro b hb
    apply decide_eq_true
    intro hzero
    rw [hzero] at hb
    exact not_mem_text h hb
  have hget : ofString s.getSinful = ofBracketed s.text := by
    rw [getSinful,ht,if_neg hne,hnul,ofString]
    exact if_pos rfl
  rw [Parsed,hget]
  constructor
  · intro hp
    obtain ⟨t,ht,hvalid,hhost,-,-⟩ := hp
    obtain ⟨parts,hparts,hph⟩ := ofBracketed_valid ht hvalid
    exact fits_of_splitSin h hparts (hph.trans hhost)
  · intro hfits
    exact ⟨_,ofBracketed_fits h hfits,rfl,rfl,rfl,rfl⟩

def assign (s : Sinful) : Call → Sinful
  | .setHost host => { s with host := bytes host }
  | .setPort port => { s with port := bytes (decimalInt port) }
  | .setParam key none => { s with params := s.params.erase (.ofC key) }
  | .setParam key (some value) => { s with params := s.params.insert (.ofC key) (.ofC value) }

/-- What a call has set: a host without `]`, `>` and `?`, a port that is not negative, a key that
is not empty. -/
def Call.Allowed : Call → Prop
  | .setHost host => ∀ c ∈ host, c.val ∉ [closeBracket,closeAngle,questionMark]
  | .setPort port => 0 ≤ port ∧ port < 2^31
  | .setParam key _ => key ≠ []

def Call.IsAscii : Call → Prop
  | .setParam key (some value) => Ascii (bytes key) ∧ Ascii (bytes value)
  | _ => True

instance (c : Call) : Decidable c.Allowed :=
  match c with
  | .setHost host => List.decidableBAll (fun c : CChar =>
    c.val ∉ [closeBracket,closeAngle,questionMark]) host
  | .setPort port => inferInstanceAs (Decidable (0 ≤ port ∧ port < 2^31))
  | .setParam key _ => inferInstanceAs (Decidable (key ≠ []))

instance (c : Call) : Decidable c.IsAscii :=
  match c with
  | .setHost _ => .isTrue trivial
  | .setPort _ => .isTrue trivial
  | .setParam _ none => .isTrue trivial
  | .setParam key (some value) =>
    inferInstanceAs (Decidable (Ascii (bytes key) ∧ Ascii (bytes value)))

private theorem call_eq (s : Sinful) (c : Call) : s.call c = (s.assign c).regenerateSinful := by
  cases c with
  | setHost | setPort => rfl
  | setParam key value =>
    cases value with
    | none | some => rfl

private theorem c_str_ofC (s : CString) : (StdString.ofC s).c_str = bytes s :=
  List.takeWhile_eq_self_iff.mpr fun _ hb => decide_eq_true (ne_zero_of_mem_bytes hb)

theorem bytes_ne_nil {s : CString} (h : s ≠ []) : bytes s ≠ [] :=
  mt List.map_eq_nil_iff.mp h

private theorem assign_formed (h : s.Formed) {c : Call} (hc : c.Allowed) (ha : c.IsAscii) :
    (s.assign c).Formed := by
  cases c with
  | setHost host =>
    refine ⟨?_,h.port,h.port_small,h.params⟩
    intro b hb hm
    obtain ⟨ch,hch,rfl⟩ := List.mem_map.mp hb
    have hstops : ∀ c ∈ [closeBracket,closeAngle,questionMark,0],
        c ∈ [closeBracket,closeAngle,questionMark] ∨ c = 0 := by decide +kernel
    cases hstops _ hm with
    | inl hm => exact hc ch hch hm
    | inr he => exact ch.2 he
  | setPort port =>
    obtain ⟨hpos,hlt⟩ := hc
    have hdecimal : decimalInt port = decimal port.natAbs := if_neg (Int.not_lt.mpr hpos)
    refine ⟨h.host,?_,?_,h.params⟩
    · intro b hb
      obtain ⟨ch,hch,rfl⟩ := List.mem_map.mp hb
      rw [hdecimal] at hch
      exact decimal_isdigit _ ch hch
    · have hten : port.natAbs < 10^10 := by omega
      have hlen := decimal_length (by decide) hten
      show (bytes (decimalInt port)).length < 2^31
      rw [length_bytes,hdecimal]
      omega
  | setParam key value =>
    cases value with
    | none =>
      exact ⟨h.host,h.port,h.port_small,fun e he => h.params e (OrderedMap.mem_erase he)⟩
    | some value =>
      refine ⟨h.host,h.port,h.port_small,?_⟩
      intro e he
      cases OrderedMap.mem_insert he with
      | inl heq =>
        rw [heq]
        exact ⟨bytes_ne_nil hc,c_str_ofC key,c_str_ofC value,ha.1,ha.2⟩
      | inr hm => exact h.params e hm

private theorem call_high (s : Sinful) {c : Call} (h : ¬c.IsAscii) : s.call c = none := by
  cases c with
  | setHost | setPort => exact absurd trivial h
  | setParam key value =>
    cases value with
    | none => exact absurd trivial h
    | some value =>
      rw [call_eq]
      apply regenerateSinful_none (s.params.mem_insert_self (.ofC key) (.ofC value))
      dsimp only
      rw [c_str_ofC,c_str_ofC]
      by_cases hkey : Ascii (bytes key)
      · right
        have hvalue : ¬Ascii (bytes value) := fun hv => h ⟨hkey,hv⟩
        refine ⟨hvalue,?_⟩
        intro hnil
        apply hvalue
        rw [show bytes value = [] from hnil]
        exact fun b hb => absurd hb not_mem_nil
      · exact .inl hkey

def assignAll (s : Sinful) (cs : List Call) : Sinful := cs.foldl assign s

def withText (s : Sinful) (x : List Byte) : Sinful := { s with sinful := x }

private theorem Formed.withText (h : s.Formed) (x : List Byte) : (s.withText x).Formed :=
  ⟨h.host,h.port,h.port_small,h.params⟩

private theorem fits_withText {x : List Byte} : (s.withText x).Fits ↔ s.Fits :=
  ⟨fun hf => ⟨hf.host,hf.host_small,hf.params_small⟩,
    fun hf => ⟨hf.host,hf.host_small,hf.params_small⟩⟩

private theorem assign_withText (s : Sinful) (x : List Byte) (c : Call) :
    (s.withText x).assign c = (s.assign c).withText x := by
  cases c with
  | setHost | setPort => rfl
  | setParam key value =>
    cases value with
    | none | some => rfl

private theorem assignAll_formed (h : s.Formed) {cs : List Call}
    (hc : ∀ c ∈ cs, c.Allowed) (ha : ∀ c ∈ cs, c.IsAscii) : (s.assignAll cs).Formed := by
  induction cs generalizing s with
  | nil => exact h
  | cons c cs ih =>
    apply ih (assign_formed h (hc c (mem_cons_self ..)) (ha c (mem_cons_self ..)))
    · exact fun x hx => hc x (mem_cons_of_mem c hx)
    · exact fun x hx => ha x (mem_cons_of_mem c hx)

private theorem calls_ascii (h : s.Formed) {cs : List Call} (hc : ∀ c ∈ cs, c.Allowed)
    (ha : ∀ c ∈ cs, c.IsAscii) (x : List Byte) :
    (s.withText x).calls cs =
      some ((s.assignAll cs).withText (if cs = [] then x else (s.assignAll cs).text)) := by
  induction cs generalizing s x with
  | nil => rfl
  | cons c cs ih =>
    have hformed := assign_formed h (hc c (mem_cons_self ..)) (ha c (mem_cons_self ..))
    have hcs := fun y hy => hc y (mem_cons_of_mem c hy)
    have has := fun y hy => ha y (mem_cons_of_mem c hy)
    have hcall : (s.withText x).call c = some ((s.assign c).withText (s.assign c).text) := by
      rw [call_eq,assign_withText,regenerateSinful_eq (hformed.withText x).params]
      rfl
    rw [calls,hcall,bind_some,ih hformed hcs has]
    cases cs with
    | nil | cons => rfl

private theorem calls_high {cs : List Call} (h : ¬∀ c ∈ cs, c.IsAscii) :
    s.calls cs = none := by
  induction cs generalizing s with
  | nil => exact absurd (fun c hc => absurd hc not_mem_nil) h
  | cons c cs ih =>
    rw [calls]
    by_cases hc : c.IsAscii
    · cases s.call c with
      | none => rfl
      | some s' =>
        apply ih
        intro hcs
        apply h
        intro d hd
        cases List.mem_cons.mp hd with
        | inl he => rwa [he]
        | inr hm => exact hcs d hm
    · rw [call_high s hc]
      rfl

/-- The string of the object parses back to it. -/
def RoundTrips (cs : List Call) : Prop := ∃ s, calls {} cs = some s ∧ s.Parsed

/-- Addresses round-trip just where no parameter has a byte above ASCII and the parts fit; one with
something behind its closing angle is never valid. -/
theorem roundTrips_iff {cs : List Call} (h : ∀ c ∈ cs, c.Allowed) :
    (RoundTrips cs ↔ (∀ c ∈ cs, c.IsAscii) ∧ (assignAll {} cs).Fits) ∧
      ∀ (text : CString) (t : Sinful), ofString (some (bytes text)) = some t →
        behindClosing (bytes text) ≠ [] → t.valid = false := by
  have hnil : Formed {} :=
    ⟨fun b hb => absurd hb not_mem_nil,fun b hb => absurd hb not_mem_nil,by decide,
      fun e he => absurd he not_mem_nil⟩
  have hclosing : ∀ (text : CString) (t : Sinful), ofString (some (bytes text)) = some t →
      behindClosing (bytes text) ≠ [] → t.valid = false := by
    intro text t ht hbehind
    by_contra hv
    exact hbehind (behindClosing_of_valid ht (Bool.eq_true_of_not_eq_false hv))
  refine ⟨?_,hclosing⟩
  by_cases ha : ∀ c ∈ cs, c.IsAscii
  · have hcalls : calls {} cs = some _ := calls_ascii hnil h ha []
    have hformed := assignAll_formed hnil h ha
    have hparsed : RoundTrips cs ↔ (assignAll {} cs).Fits := by
      cases cs with
      | nil =>
        constructor
        · intro _
          exact ⟨fun hopen => absurd hopen (some_ne_none _).symm,.inr (by decide),by decide⟩
        · intro _
          exact ⟨{},rfl,{},rfl,rfl,rfl,rfl,rfl⟩
      | cons c cs =>
        rw [← fits_withText,← parsed_iff (hformed.withText (assignAll {} (c :: cs)).text) rfl]
        constructor
        · intro hr
          obtain ⟨s,hs,hp⟩ := hr
          rw [hcalls] at hs
          rw [← some.inj hs] at hp
          exact hp
        · intro hp
          exact ⟨_,hcalls,hp⟩
    rw [hparsed,and_iff_right ha]
  · have hnone : calls {} cs = none := calls_high ha
    constructor
    · intro hr
      obtain ⟨s,hs,-⟩ := hr
      exact absurd (hnone.symm.trans hs) (some_ne_none s).symm
    · intro hf
      exact absurd hf.1 ha

theorem roundTrips_iff_shared :
    RoundTrips [.setHost (cstr "fe80::1"),.setPort 9618,.setParam (cstr "sock") (some (cstr "a&b")),
      .setParam (cstr "noUDP") (some [])] :=
  (roundTrips_iff (by decide)).1.mpr
    ⟨by decide,⟨by decide,by decide,by decide⟩⟩

/-- A byte above ASCII is printed as `%ffffff80`, which does not fit `char code[4]`. -/
theorem high_byte_overflows :
    (∀ c ∈ [Call.setParam (cstr "sock") (some [⟨128,by decide⟩])], c.Allowed) ∧
      ¬RoundTrips [.setParam (cstr "sock") (some [⟨128,by decide⟩])] := by
  refine ⟨by decide,?_⟩
  intro hr
  obtain ⟨s,hs,-⟩ := hr
  have hnone : calls {} [.setParam (cstr "sock") (some [⟨128,by decide⟩])] = none :=
    calls_high (by decide)
  exact absurd (hnone.symm.trans hs) (some_ne_none s).symm

end Condor.Sinful
