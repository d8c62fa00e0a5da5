import Mathlib.Data.Prod.Lex
import Condor.Negotiator.Matchmaking

/-!
# Lists of candidates

A scan finds the best of the candidates for a job, in the lexicographic order of five values, and
`qsort` puts them in that order.
-/

namespace Condor.Negotiator

open List Option

namespace AdListEntry

def key (e : AdListEntry) : ℚ ×ₗ ℚ ×ₗ ℚ ×ₗ ℕ ×ₗ ℚ :=
  toLex (e.preJobRankValue,toLex (e.rankValue,toLex (e.postJobRankValue,
    toLex (e.preemptStateValue.toNat,e.preemptRankValue))))

end AdListEntry

private theorem PreemptState.toNat_injective {a b : PreemptState}
    (h : a.toNat = b.toNat) : a = b := by
  cases a <;> cases b <;> simp_all [PreemptState.toNat]

private theorem compareThen {α : Type} [LinearOrder α] (x y : α) (next : Bool) :
    (if x < y then false else if y < x then true else next) = true ↔
      y < x ∨ y = x ∧ next = true := by
  rcases lt_trichotomy x y with h | h | h
  · simp [h,h.not_gt,h.ne']
  · simp [h]
  · simp [h,h.not_gt]

theorem newBestFound_iff (a b : AdListEntry) : newBestFound a b = true ↔ b.key < a.key := by
  simp only [newBestFound,AdListEntry.key,compareThen,Prod.Lex.toLex_lt_toLex,Bool.false_eq_true,
    and_false,or_false]

theorem key_eq_iff (a b : AdListEntry) :
    a.key = b.key ↔ a.rankValue = b.rankValue ∧ a.preJobRankValue = b.preJobRankValue ∧
      a.postJobRankValue = b.postJobRankValue ∧ a.preemptRankValue = b.preemptRankValue ∧
      a.preemptStateValue = b.preemptStateValue := by
  have hstate : a.preemptStateValue.toNat = b.preemptStateValue.toNat ↔
      a.preemptStateValue = b.preemptStateValue :=
    ⟨PreemptState.toNat_injective,fun h => by rw [h]⟩
  simp only [AdListEntry.key,EmbeddingLike.apply_eq_iff_eq,Prod.mk.injEq,hstate]
  tauto

theorem sortCompare_le_iff (a b : AdListEntry) : sortCompare a b ≤ 0 ↔ b.key ≤ a.key := by
  unfold sortCompare
  split
  · rename_i h
    exact iff_of_true (le_refl 0) ((key_eq_iff a b).mpr h).ge
  · rename_i h
    have hne : a.key ≠ b.key := fun heq => h ((key_eq_iff a b).mp heq)
    split
    · rename_i hbest
      exact iff_of_true (by decide) ((newBestFound_iff a b).mp hbest).le
    · rename_i hbest
      refine iff_of_false (by decide) ?_
      intro hle
      exact hbest ((newBestFound_iff a b).mpr (lt_of_le_of_ne hle hne.symm))

def pick (best : Option AdListEntry) (e : AdListEntry) : Option AdListEntry :=
  match best with
  | none => some e
  | some b => some (if newBestFound e b then e else b)

private theorem foldl_pick_some (es : List AdListEntry) : ∀ b : AdListEntry,
    ∃ c, es.foldl pick (some b) = some c ∧ (c = b ∨ c ∈ es) ∧ b.key ≤ c.key ∧
      ∀ e ∈ es, e.key ≤ c.key := by
  induction es with
  | nil => intro b; exact ⟨b,rfl,.inl rfl,le_refl _,by simp⟩
  | cons e es ih =>
    intro b
    obtain ⟨c,hc,hmem,hle,hall⟩ := ih (if newBestFound e b then e else b)
    have hboth : b.key ≤ (if newBestFound e b then e else b).key ∧
        e.key ≤ (if newBestFound e b then e else b).key := by
      split
      · rename_i hbest
        exact ⟨((newBestFound_iff e b).mp hbest).le,le_refl _⟩
      · rename_i hbest
        exact ⟨le_refl _,not_lt.mp fun hlt => hbest ((newBestFound_iff e b).mpr hlt)⟩
    refine ⟨c,hc,?_,hboth.1.trans hle,?_⟩
    · rcases hmem with rfl | hmem
      · split
        · exact .inr (mem_cons_self ..)
        · exact .inl rfl
      · exact .inr (mem_cons_of_mem _ hmem)
    · intro x hx
      rcases List.mem_cons.mp hx with rfl | hx
      · exact hboth.2.trans hle
      · exact hall x hx

theorem foldl_pick_cases (es : List AdListEntry) :
    (es = [] ∧ es.foldl pick none = none) ∨
      ∃ c ∈ es, es.foldl pick none = some c ∧ ∀ e ∈ es, e.key ≤ c.key := by
  cases es with
  | nil => exact .inl ⟨rfl,rfl⟩
  | cons e es =>
    obtain ⟨c,hc,hmem,hle,hall⟩ := foldl_pick_some es e
    refine .inr ⟨c,?_,hc,?_⟩
    · rcases hmem with rfl | hmem
      · exact mem_cons_self ..
      · exact mem_cons_of_mem _ hmem
    · intro x hx
      rcases List.mem_cons.mp hx with rfl | hx
      · exact hle
      · exact hall x hx

private theorem foldl_pick_first (es : List AdListEntry) : ∀ b c : AdListEntry,
    es.foldl pick (some b) = some c →
      c = b ∨ b.key < c.key ∧ (es.find? fun e => e.key = c.key) = some c := by
  induction es with
  | nil => intro b c h; exact .inl (some.inj h).symm
  | cons e es ih =>
    intro b c h
    rw [foldl_cons,pick] at h
    by_cases hbest : newBestFound e b = true
    · have hlt : b.key < e.key := (newBestFound_iff e b).mp hbest
      rw [if_pos hbest] at h
      rcases ih e c h with rfl | ⟨hec,hfind⟩
      · exact .inr ⟨hlt,by simp⟩
      · exact .inr ⟨hlt.trans hec,by simp [hec.ne,hfind]⟩
    · have hle : e.key ≤ b.key := not_lt.mp fun hlt => hbest ((newBestFound_iff e b).mpr hlt)
      rw [if_neg hbest] at h
      rcases ih b c h with rfl | ⟨hbc,hfind⟩
      · exact .inl rfl
      · exact .inr ⟨hbc,by simp [(hle.trans_lt hbc).ne,hfind]⟩

theorem find_pick {es : List AdListEntry} {c : AdListEntry} (h : es.foldl pick none = some c) :
    (es.find? fun e => e.key = c.key) = some c := by
  cases es with
  | nil => simp at h
  | cons e es =>
    rcases foldl_pick_first es e c h with rfl | ⟨hlt,hfind⟩
    · simp
    · simp [hlt.ne,hfind]

namespace Matchmaker

variable (mm : Matchmaker) (t : Turn)

def candidate (s : Negotiation) (r : JobRequest) (o : Offer) : Option AdListEntry :=
  match mm.candidateState t s.onlyConsiderStartdRank (r.eval o) o with
  | none => none
  | some state =>
    if mm.scanPermits t s state o then some (adListEntry (r.eval o) o state) else none

private theorem scanOffer_eq (s : Negotiation) (r : JobRequest) (scan : Scan) (o : Offer) :
    (mm.scanOffer t s r scan o).found = scan.found ++ (mm.candidate t s r o).toList ∧
      (mm.scanOffer t s r scan o).bestSoFar =
        (mm.candidate t s r o).toList.foldl pick scan.bestSoFar := by
  unfold scanOffer candidate
  cases mm.candidateState t s.onlyConsiderStartdRank (r.eval o) o with
  | none => simp
  | some state =>
    by_cases hp : mm.scanPermits t s state o = true
    · simp only [hp,Bool.not_true,Bool.false_eq_true,if_false,if_true,toList_some,
        foldl_cons,foldl_nil]
      exact ⟨trivial,rfl⟩
    · simp [hp]

theorem scan_eq (s : Negotiation) (r : JobRequest) :
    (mm.scan t s r).found = s.startdAds.filterMap (mm.candidate t s r) ∧
      (mm.scan t s r).bestSoFar = (s.startdAds.filterMap (mm.candidate t s r)).foldl pick none := by
  have hgen : ∀ (offers : List Offer) (scan : Scan),
      (offers.foldl (mm.scanOffer t s r) scan).found =
          scan.found ++ offers.filterMap (mm.candidate t s r) ∧
        (offers.foldl (mm.scanOffer t s r) scan).bestSoFar =
          (offers.filterMap (mm.candidate t s r)).foldl pick scan.bestSoFar := by
    intro offers
    induction offers with
    | nil => intro scan; simp
    | cons o os ih =>
      intro scan
      obtain ⟨hfound,hbest⟩ := mm.scanOffer_eq t s r scan o
      rw [foldl_cons,(ih _).1,(ih _).2,hfound,hbest]
      cases h : mm.candidate t s r o <;> simp [h]
  simpa [scan] using hgen s.startdAds ⟨none,[],0⟩

variable {s : Negotiation} {r : JobRequest}

private theorem candidate_some {o : Offer} {e : AdListEntry} :
    mm.candidate t s r o = some e ↔
      ∃ state, mm.candidateState t s.onlyConsiderStartdRank (r.eval o) o = some state ∧
        mm.scanPermits t s state o = true ∧ e = adListEntry (r.eval o) o state := by
  unfold candidate
  cases mm.candidateState t s.onlyConsiderStartdRank (r.eval o) o with
  | none => simp
  | some state =>
    by_cases hp : mm.scanPermits t s state o = true
    · simp only [hp,if_true,Option.some.injEq,exists_eq_left',true_and]
      exact eq_comm
    · simp [hp]

structure Tighter (s s' : Negotiation) : Prop where
  used : s.limitUsed ≤ s'.limitUsed
  unclaimed : s.limitUsedUnclaimed ≤ s'.limitUsedUnclaimed
  pie : s'.pieLeft ≤ s.pieLeft

theorem Tighter.trans {a b c : Negotiation} (hab : Tighter a b) (hbc : Tighter b c) : Tighter a c :=
  ⟨hab.used.trans hbc.used,hab.unclaimed.trans hbc.unclaimed,hbc.pie.trans hab.pie⟩

private theorem permits_anti (cfg : Config) (o : Offer) {used used' allowed pie pie' : ℚ}
    (hused : used ≤ used') (hpie : pie' ≤ pie)
    (h : submitterLimitPermits cfg o used' allowed pie' = true) :
    submitterLimitPermits cfg o used allowed pie = true := by
  simp only [submitterLimitPermits,Bool.or_eq_true,Bool.and_eq_true,decide_eq_true_eq] at h ⊢
  rcases h with h | ⟨⟨hzero,hpos⟩,hleft⟩
  · exact .inl (by linarith)
  · exact .inr ⟨⟨by linarith,hpos⟩,by linarith⟩

theorem scanPermits_anti {s s' : Negotiation} (h : Tighter s s') {state : PreemptState} {o : Offer}
    (hp : mm.scanPermits t s state o = false) : mm.scanPermits t s' state o = false := by
  rw [← Bool.not_eq_true] at hp ⊢
  intro hp'
  apply hp
  cases state with
  | prioPreemption => exact permits_anti _ _ h.used h.pie hp'
  | rankPreemption => rfl
  | noPreemption => exact permits_anti _ _ h.unclaimed h.pie hp'

def Separate (offers : List Offer) : Prop := (offers.map Offer.address).Nodup

variable {offers : List Offer}

theorem Separate.eq_of_address (h : Separate offers) {a b : Offer}
    (ha : a ∈ offers) (hb : b ∈ offers) (hab : a.address = b.address) : a = b :=
  inj_on_of_nodup_map h ha hb hab

theorem Separate.remove (h : Separate offers) (o : Offer) :
    Separate (removeOffer offers o) :=
  h.sublist (List.filter_sublist.map _)

theorem mem_removeOffer {o x : Offer} :
    x ∈ removeOffer offers o ↔ x ∈ offers ∧ x.address ≠ o.address := by
  simp [removeOffer]

/-- The list holds candidates for the job, the best first, and every candidate that is not in
it is refused by the limits. -/
structure Lists (s : Negotiation) (r : JobRequest) (only : Bool) (entries : List AdListEntry) :
    Prop where
  entry : ∀ e ∈ entries, e.ad ∈ s.startdAds ∧
    ∃ state, mm.candidateState t only (r.eval e.ad) e.ad = some state ∧
      e = adListEntry (r.eval e.ad) e.ad state
  sorted : entries.Pairwise fun a b => b.key ≤ a.key
  separate : (entries.map fun e => e.ad.address).Nodup
  complete : ∀ o ∈ s.startdAds, ∀ state,
    mm.candidateState t only (r.eval o) o = some state →
      (∃ e ∈ entries, e.ad = o) ∨ mm.scanPermits t s state o = false

private theorem found_addresses (s : Negotiation) (r : JobRequest) (offers : List Offer) :
    ((offers.filterMap (mm.candidate t s r)).map fun e => e.ad.address).Sublist
      (offers.map Offer.address) := by
  induction offers with
  | nil => exact List.Sublist.refl _
  | cons o os ih =>
    cases h : mm.candidate t s r o with
    | none => simpa [h] using ih.cons o.address
    | some e =>
      obtain ⟨state,_,_,rfl⟩ := (mm.candidate_some t).mp h
      rw [filterMap_cons_some h,map_cons,map_cons]
      exact ih.cons_cons o.address

theorem lists_scan (hs : Separate s.startdAds)
    {entries : List AdListEntry} (hperm : entries.Perm (mm.scan t s r).found)
    (hsort : entries.Pairwise fun a b => b.key ≤ a.key) :
    mm.Lists t s r s.onlyConsiderStartdRank entries := by
  have hmem (e : AdListEntry) : e ∈ entries ↔ ∃ o ∈ s.startdAds, mm.candidate t s r o = some e := by
    rw [hperm.mem_iff,(mm.scan_eq t s r).1,mem_filterMap]
  refine ⟨?_,hsort,?_,?_⟩
  · intro e he
    obtain ⟨o,ho,hc⟩ := (hmem e).mp he
    obtain ⟨state,hst,_,rfl⟩ := (mm.candidate_some t).mp hc
    exact ⟨ho,state,hst,rfl⟩
  · have hsub : ((mm.scan t s r).found.map fun e => e.ad.address).Nodup := by
      rw [(mm.scan_eq t s r).1]
      exact hs.sublist (mm.found_addresses t s r s.startdAds)
    exact (hperm.map _).nodup_iff.mpr hsub
  · intro o ho state hst
    by_cases hp : mm.scanPermits t s state o = true
    · exact .inl ⟨_,(hmem _).mpr ⟨o,ho,(mm.candidate_some t).mpr ⟨state,hst,hp,rfl⟩⟩,rfl⟩
    · exact .inr (by simpa using hp)

/-- The list refuses the entry exactly if the scan does: one of the two limits permits a preferred
machine, and the limit for unclaimed machines does not let a preempted one through. -/
def EntryAgrees (s : Negotiation) (e : AdListEntry) : Prop :=
  match e.preemptStateValue with
  | .rankPreemption =>
    submitterLimitPermits mm.cfg e.ad s.limitUsed t.submitterLimit s.pieLeft = true ∨
      submitterLimitPermits mm.cfg e.ad s.limitUsedUnclaimed t.submitterLimitUnclaimed
        s.pieLeft = true
  | .prioPreemption =>
    submitterLimitPermits mm.cfg e.ad s.limitUsedUnclaimed t.submitterLimitUnclaimed
        s.pieLeft = true →
      submitterLimitPermits mm.cfg e.ad s.limitUsed t.submitterLimit s.pieLeft = true
  | .noPreemption => True

private theorem cachePermits_eq {e : AdListEntry} (h : mm.EntryAgrees t s e) :
    mm.cachePermits t s e = mm.scanPermits t s e.preemptStateValue e.ad := by
  unfold EntryAgrees at h
  unfold cachePermits scanPermits
  cases hst : e.preemptStateValue with
  | rankPreemption =>
    simp only [hst] at h
    simpa using h
  | noPreemption => simp
  | prioPreemption =>
    simp only [hst] at h
    rw [Bool.eq_iff_iff]
    simp only [ne_eq,reduceCtorEq,not_false_eq_true,decide_true,Bool.true_and,Bool.or_eq_true]
    exact ⟨fun h' => h'.elim id h,.inl⟩

theorem mem_found_iff {entries : List AdListEntry}
    (hl : mm.Lists t s r s.onlyConsiderStartdRank entries) (e : AdListEntry) :
    e ∈ (mm.scan t s r).found ↔
      e ∈ entries ∧ mm.scanPermits t s e.preemptStateValue e.ad = true := by
  rw [(mm.scan_eq t s r).1,mem_filterMap]
  constructor
  · rintro ⟨o,ho,hc⟩
    obtain ⟨state,hst,hp,rfl⟩ := (mm.candidate_some t).mp hc
    rcases hl.complete o ho state hst with ⟨e,he,rfl⟩ | hno
    · obtain ⟨_,state',hst',heq⟩ := hl.entry e he
      obtain rfl : state = state' := some.inj (hst.symm.trans hst')
      have hstate : e.preemptStateValue = state := by rw [heq]; rfl
      rw [← heq,hstate]
      exact ⟨he,hp⟩
    · rw [hp] at hno
      exact absurd hno (by simp)
  · rintro ⟨he,hp⟩
    obtain ⟨ho,state,hst,heq⟩ := hl.entry e he
    refine ⟨e.ad,ho,(mm.candidate_some t).mpr ⟨state,hst,?_,heq⟩⟩
    rw [heq] at hp
    exact hp

def AgreesUpTo (s : Negotiation) : List AdListEntry → Prop
  | [] => True
  | e :: es => mm.EntryAgrees t s e ∧ (mm.cachePermits t s e = false → AgreesUpTo s es)

theorem AgreesUpTo.append {dropped rest : List AdListEntry}
    (h : mm.AgreesUpTo t s (dropped ++ rest)) (hd : ∀ d ∈ dropped, mm.cachePermits t s d = false) :
    (∀ d ∈ dropped, mm.scanPermits t s d.preemptStateValue d.ad = false) ∧
      mm.AgreesUpTo t s rest := by
  induction dropped with
  | nil => exact ⟨by simp,h⟩
  | cons d ds ih =>
    obtain ⟨hagree,hnext⟩ := h
    have hrefused := hd d (mem_cons_self ..)
    obtain ⟨hds,hrest⟩ := ih (hnext hrefused) fun x hx => hd x (mem_cons_of_mem _ hx)
    refine ⟨?_,hrest⟩
    intro x hx
    rcases List.mem_cons.mp hx with rfl | hx
    · rw [← mm.cachePermits_eq t hagree,hrefused]
    · exact hds x hx

theorem popPermitted_cases (s : Negotiation) (entries : List AdListEntry) :
    (mm.popPermitted t s entries = (none,[],entries.length) ∧
      ∀ e ∈ entries, mm.cachePermits t s e = false) ∨
    ∃ dropped e rest, entries = dropped ++ e :: rest ∧
      mm.popPermitted t s entries = (some e,rest,dropped.length) ∧
      mm.cachePermits t s e = true ∧ ∀ d ∈ dropped, mm.cachePermits t s d = false := by
  induction entries with
  | nil => exact .inl ⟨rfl,by simp⟩
  | cons e es ih =>
    by_cases hp : mm.cachePermits t s e = true
    · exact .inr ⟨[],e,es,rfl,by simp [popPermitted,hp],hp,by simp⟩
    · have hp' : mm.cachePermits t s e = false := by simpa using hp
      rcases ih with ⟨hpop,hnone⟩ | ⟨dropped,d,rest,hes,hpop,hd,hdropped⟩
      · refine .inl ⟨by simp [popPermitted,hp',hpop],?_⟩
        intro x hx
        rcases List.mem_cons.mp hx with rfl | hx
        · exact hp'
        · exact hnone x hx
      · refine .inr ⟨e :: dropped,d,rest,by rw [hes]; rfl,by simp [popPermitted,hp',hpop],hd,?_⟩
        intro x hx
        rcases List.mem_cons.mp hx with rfl | hx
        · exact hp'
        · exact hdropped x hx

def quality (s : Negotiation) (r : JobRequest) (o : Offer) :
    Option (ℚ × ℚ × ℚ × PreemptState × ℚ) :=
  (mm.candidateState t s.onlyConsiderStartdRank (r.eval o) o).map fun state =>
    let e := adListEntry (r.eval o) o state
    (e.preJobRankValue,e.rankValue,e.postJobRankValue,e.preemptStateValue,e.preemptRankValue)

/-- No offer in both cases, or two that compare equal. -/
def AsGood (s : Negotiation) (r : JobRequest) : Option Offer → Option Offer → Prop
  | none, none => True
  | some o, some o' => ∃ values, mm.quality t s r o = some values ∧
    mm.quality t s r o' = some values
  | _, _ => False

private theorem quality_eq {e e' : AdListEntry} {state state' : PreemptState}
    (he : mm.candidateState t s.onlyConsiderStartdRank (r.eval e.ad) e.ad = some state ∧
      e = adListEntry (r.eval e.ad) e.ad state)
    (he' : mm.candidateState t s.onlyConsiderStartdRank (r.eval e'.ad) e'.ad = some state' ∧
      e' = adListEntry (r.eval e'.ad) e'.ad state')
    (hkey : e.key = e'.key) :
    ∃ values, mm.quality t s r e.ad = some values ∧ mm.quality t s r e'.ad = some values := by
  rw [he.2,he'.2] at hkey
  obtain ⟨h1,h2,h3,h4,h5⟩ := (key_eq_iff _ _).mp hkey
  unfold quality
  rw [he.1,he'.1]
  exact ⟨_,rfl,by simp only [map_some,h1,h2,h3,h4,h5]⟩

theorem asGood_scan (s : Negotiation) (r : JobRequest) :
    mm.AsGood t s r ((mm.scan t s r).bestSoFar.map AdListEntry.ad)
      ((mm.scan t s r).bestSoFar.map AdListEntry.ad) := by
  rw [(mm.scan_eq t s r).2]
  rcases foldl_pick_cases (s.startdAds.filterMap (mm.candidate t s r)) with
    ⟨-,hnone⟩ | ⟨c,hc,hbest,-⟩
  · rw [hnone]
    trivial
  · obtain ⟨o,-,ho⟩ := List.mem_filterMap.mp hc
    obtain ⟨state,hst,-,rfl⟩ := (mm.candidate_some t).mp ho
    rw [hbest]
    exact mm.quality_eq t ⟨hst,rfl⟩ ⟨hst,rfl⟩ rfl

theorem asGood_fromMatchList {l : MatchList}
    (hl : mm.Lists t s r s.onlyConsiderStartdRank l.entries)
    (hagree : mm.AgreesUpTo t s l.entries) :
    mm.AsGood t s r (mm.fromMatchList t s l).1
      ((mm.scan t s r).bestSoFar.map AdListEntry.ad) := by
  have hfound := mm.mem_found_iff t hl
  rw [(mm.scan_eq t s r).2,← (mm.scan_eq t s r).1]
  unfold fromMatchList
  rcases mm.popPermitted_cases t s l.entries with ⟨hpop,hnone⟩ | ⟨dropped,e,rest,hes,hpop,hp,hd⟩
  · rw [← append_nil l.entries] at hagree
    have hempty : (mm.scan t s r).found = [] := by
      rw [eq_nil_iff_forall_not_mem]
      intro e he
      obtain ⟨he,hp⟩ := (hfound e).mp he
      rw [(hagree.append mm t hnone).1 e he] at hp
      simp at hp
    rw [hpop,hempty]
    trivial
  · rw [hes] at hagree
    obtain ⟨hdropped,heagree,-⟩ := hagree.append mm t hd
    have he : e ∈ l.entries := by rw [hes]; simp
    have hefound : e ∈ (mm.scan t s r).found := by
      rw [mm.cachePermits_eq t heagree] at hp
      exact (hfound e).mpr ⟨he,hp⟩
    rcases foldl_pick_cases (mm.scan t s r).found with ⟨hempty,_⟩ | ⟨c,hc,hbest,hmax⟩
    · rw [hempty] at hefound
      simp at hefound
    · rw [hpop,hbest]
      obtain ⟨hcl,hcp⟩ := (hfound c).mp hc
      -- the best candidate is an entry that was not dropped
      have hce : c.key ≤ e.key := by
        have hsorted := hl.sorted
        rw [hes] at hsorted hcl
        rcases List.mem_append.mp hcl with hc' | hc'
        · rw [hdropped c hc'] at hcp
          simp at hcp
        · rcases List.mem_cons.mp hc' with rfl | hc'
          · exact le_refl _
          · exact (List.pairwise_cons.mp (List.pairwise_append.mp hsorted).2.1).1 c hc'
      have hkey : e.key = c.key := le_antisymm (hmax e hefound) hce
      obtain ⟨-,state,hst,heq⟩ := hl.entry e he
      obtain ⟨-,state',hst',heq'⟩ := hl.entry c ((hfound c).mp hc).1
      exact mm.quality_eq t ⟨hst,heq⟩ ⟨hst',heq'⟩ hkey

end Matchmaker

end Condor.Negotiator
