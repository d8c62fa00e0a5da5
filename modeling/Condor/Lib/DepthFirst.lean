import Mathlib.Order.WellFoundedSet

/-!
# Depth-first numbering

A depth-first search numbers the vertices of a graph in the order in which it leaves them. In a
graph without cycles every vertex is then numbered after the vertices that its edges lead to.
-/

namespace Condor.Lib.DepthFirst

open Relation List Function Option

variable {V : Type}

/-- The vertices that were entered, the numbers of those that were left, and the last number
given. -/
structure Search (V : Type) where
  visited : V → Bool
  order : V → Int
  last : Int

def start : Search V := ⟨fun _ => false,fun _ => -1,0⟩

variable {next : V → List V} {s t : Search V} {v w : V}

def Edge (next : V → List V) (v w : V) : Prop := w ∈ next v

def Acyclic (next : V → List V) : Prop := ∀ v, ¬TransGen (Edge next) v v

def Search.Finished (s : Search V) (v : V) : Prop := 0 < s.order v

def Search.Open (s : Search V) (v : V) : Prop := s.visited v = true ∧ ¬s.Finished v

structure Numbered (next : V → List V) (s : Search V) : Prop where
  nonneg : 0 ≤ s.last
  visited : ∀ v, s.Finished v → s.visited v = true
  le_last : ∀ v, s.order v ≤ s.last
  decreasing : ∀ v, s.Finished v → ∀ c ∈ next v, s.Finished c ∧ s.order c < s.order v

theorem numbered_start : Numbered next (start : Search V) where
  nonneg := le_refl 0
  visited v h := by simp [start,Search.Finished] at h
  le_last v := by simp [start]
  decreasing v h := by simp [start,Search.Finished] at h

structure Advances (s t : Search V) : Prop where
  finished : ∀ w, s.Finished w → t.Finished w
  opened : ∀ w, t.Open w ↔ s.Open w

theorem Advances.refl (s : Search V) : Advances s s := ⟨fun _ h => h,fun _ => Iff.rfl⟩

theorem Advances.trans {u : Search V} (h : Advances s t) (h' : Advances t u) : Advances s u :=
  ⟨fun w hw => h'.finished w (h.finished w hw),fun w => (h'.opened w).trans (h.opened w)⟩

theorem foldlM_spec {f : V → Search V → Option (Search V)} {P : V → Search V → Prop} {vs : List V}
    (hP : ∀ c s' t', Advances s' t' → P c s' → P c t')
    (hf : ∀ c ∈ vs, ∀ s' t', Numbered next s' → Advances s s' → f c s' = some t' →
      Numbered next t' ∧ Advances s' t' ∧ P c t')
    (hs : Numbered next s) (h : vs.foldlM (fun s c => f c s) s = some t) :
    Numbered next t ∧ Advances s t ∧ ∀ c ∈ vs, P c t := by
  have hfrom (us : List V) (hus : ∀ c ∈ us, c ∈ vs) {s' : Search V} (hs' : Numbered next s')
      (hadv : Advances s s') (h' : us.foldlM (fun s c => f c s) s' = some t) :
      Numbered next t ∧ Advances s' t ∧ ∀ c ∈ us, P c t := by
    induction us generalizing s' with
    | nil =>
      obtain rfl : s' = t := by simpa using h'
      exact ⟨hs',Advances.refl _,by simp⟩
    | cons c us ih =>
      rw [foldlM_cons] at h'
      obtain ⟨t',ht',hrest⟩ := Option.bind_eq_some_iff.mp h'
      obtain ⟨hnum,hstep,hfin⟩ := hf c (hus c (by simp)) s' t' hs' hadv ht'
      obtain ⟨hnum',hadv',hfin'⟩ := ih (fun d hd => hus d (by simp [hd])) hnum
        (hadv.trans hstep) hrest
      refine ⟨hnum',hstep.trans hadv',fun d hd => ?_⟩
      rcases List.mem_cons.mp hd with rfl | hd
      · exact hP d t' t hadv' hfin
      · exact hfin' d hd
  exact hfrom vs (fun _ h => h) hs (Advances.refl s) h

theorem reached_of_acyclic (vs : Finset V) (hacyclic : Acyclic next) {P : V → Prop}
    (hroot : ∀ v ∈ vs, (∀ w ∈ vs, ¬Edge next w v) → P v)
    (hstep : ∀ v ∈ vs, ∀ w ∈ vs, Edge next w v → P w → P v) (hv : v ∈ vs) : P v := by
  have horder : IsStrictOrder V (TransGen (Edge next)) :=
    { irrefl := hacyclic, trans := fun _ _ _ => TransGen.trans }
  have hwf : Set.WellFoundedOn (vs : Set V) (TransGen (Edge next)) := vs.wellFoundedOn
  refine hwf.induction hv fun u hu ih => ?_
  by_cases hpre : ∃ w ∈ vs, Edge next w u
  · obtain ⟨w,hw,hedge⟩ := hpre
    exact hstep u hu w hw hedge (ih w hw (TransGen.single hedge))
  · exact hroot u hu fun w hw hedge => hpre ⟨w,hw,hedge⟩

def unvisited (vs : Finset V) (s : Search V) : Finset V := vs.filter fun v => s.visited v = false

theorem unvisited_anti (vs : Finset V) (h : ∀ w, s.visited w = true → t.visited w = true) :
    unvisited vs t ⊆ unvisited vs s := by
  intro w hw
  rw [unvisited,Finset.mem_filter] at hw ⊢
  refine ⟨hw.1,Bool.eq_false_iff.mpr fun hv => ?_⟩
  rw [h w hv] at hw
  exact absurd hw.2 (by simp)

variable [DecidableEq V]

def Search.enter (s : Search V) (v : V) : Search V :=
  { s with visited := update s.visited v true }

def Search.leave (s : Search V) (v : V) : Search V :=
  { s with last := s.last + 1, order := update s.order v (s.last + 1) }

def visit (next : V → List V) : Nat → V → Search V → Option (Search V)
  | fuel, v, s =>
    if s.visited v then some s
    else
      match fuel with
      | 0 => none
      | fuel + 1 =>
        ((next v).foldlM (fun s c => visit next fuel c s) (s.enter v)).map fun s => s.leave v

theorem Numbered.enter (h : Numbered next s) (v : V) : Numbered next (s.enter v) where
  nonneg := h.nonneg
  visited w hw := by
    by_cases hwv : w = v
    · simp [Search.enter,hwv]
    · simpa [Search.enter,hwv] using h.visited w hw
  le_last := h.le_last
  decreasing := h.decreasing

theorem order_leave_of_ne (hw : w ≠ v) : (s.leave v).order w = s.order w :=
  update_of_ne hw ..

theorem order_leave_self : (s.leave v).order v = s.last + 1 := update_self ..

theorem Numbered.leave (h : Numbered next s) (hv : s.visited v = true) (hopen : ¬s.Finished v)
    (hnext : ∀ c ∈ next v, s.Finished c) : Numbered next (s.leave v) := by
  have hkeep {w : V} (hw : s.Finished w) : (s.leave v).order w = s.order w :=
    order_leave_of_ne fun heq => hopen (heq ▸ hw)
  have hlast := h.nonneg
  refine ⟨?_,fun w hw => ?_,fun w => ?_,fun w hw c hc => ?_⟩
  · change 0 ≤ s.last + 1
    omega
  · by_cases hwv : w = v
    · rw [hwv]
      exact hv
    · rw [Search.Finished,order_leave_of_ne hwv] at hw
      exact h.visited w hw
  · change (s.leave v).order w ≤ s.last + 1
    by_cases hwv : w = v
    · rw [hwv,order_leave_self]
    · rw [order_leave_of_ne hwv]
      exact (h.le_last w).trans (by omega)
  · by_cases hwv : w = v
    · subst hwv
      have hc := hnext c hc
      rw [Search.Finished,hkeep hc,order_leave_self]
      exact ⟨hc,Int.lt_add_one_of_le (h.le_last c)⟩
    · rw [Search.Finished,order_leave_of_ne hwv] at hw
      obtain ⟨hfin,hlt⟩ := h.decreasing w hw c hc
      rw [Search.Finished,hkeep hfin,order_leave_of_ne hwv]
      exact ⟨hfin,hlt⟩

theorem visit_spec (hacyclic : Acyclic next) {fuel : Nat} (hs : Numbered next s)
    (hway : ∀ w, s.Open w → TransGen (Edge next) w v) (h : visit next fuel v s = some t) :
    Numbered next t ∧ Advances s t ∧ t.Finished v := by
  have hclosed : ¬s.Open v := fun hopen => hacyclic v (hway v hopen)
  induction fuel generalizing v s t with
  | zero =>
    rw [visit] at h
    split at h
    · next hv =>
      obtain rfl := some.inj h
      exact ⟨hs,Advances.refl s,not_not.mp fun hfin => hclosed ⟨hv,hfin⟩⟩
    · simp at h
  | succ fuel ih =>
    rw [visit] at h
    split at h
    · next hv =>
      obtain rfl := some.inj h
      exact ⟨hs,Advances.refl s,not_not.mp fun hfin => hclosed ⟨hv,hfin⟩⟩
    · next hv =>
      obtain ⟨t',hfold,rfl⟩ := Option.map_eq_some_iff.mp h
      have hunfinished : ¬s.Finished v := fun hfin => hv (hs.visited v hfin)
      have hentered (w : V) : (s.enter v).Open w ↔ s.Open w ∨ w = v := by
        by_cases hwv : w = v
        · subst hwv
          exact iff_of_true ⟨update_self ..,hunfinished⟩ (Or.inr rfl)
        · simp [Search.Open,Search.enter,Search.Finished,hwv]
      have hvisits : ∀ c ∈ next v, ∀ s' u, Numbered next s' → Advances (s.enter v) s' →
          visit next fuel c s' = some u → Numbered next u ∧ Advances s' u ∧ u.Finished c := by
        intro c hc s' u hs' hadv hu
        have hedge : Edge next v c := hc
        have hway' (w : V) (hw : s'.Open w) : TransGen (Edge next) w c := by
          rcases (hentered w).mp ((hadv.opened w).mp hw) with hw | rfl
          · exact (hway w hw).tail hedge
          · exact TransGen.single hedge
        exact ih hs' hway' hu fun hopen => hacyclic c (hway' c hopen)
      obtain ⟨hnum,hadv,hnext⟩ := foldlM_spec
        (fun c s' u hadv hc => hadv.finished c hc) hvisits (hs.enter v) hfold
      have hopen : t'.Open v := (hadv.opened v).mpr ((hentered v).mpr (Or.inr rfl))
      have hleft : (t'.leave v).Finished v := by
        rw [Search.Finished,order_leave_self]
        exact Int.lt_add_one_of_le hnum.nonneg
      refine ⟨hnum.leave hopen.1 hopen.2 hnext,⟨fun w hw => ?_,fun w => ?_⟩,hleft⟩
      · have hwv : w ≠ v := fun heq => hunfinished (heq ▸ hw)
        rw [Search.Finished,order_leave_of_ne hwv]
        exact hadv.finished w hw
      · by_cases hwv : w = v
        · subst hwv
          exact iff_of_false (fun ho => ho.2 hleft) hclosed
        · have hsame : (t'.leave v).Open w ↔ t'.Open w := by
            rw [Search.Open,Search.Finished,order_leave_of_ne hwv]
            rfl
          rw [hsame,hadv.opened,hentered]
          exact or_iff_left hwv

theorem visited_of_visit {fuel : Nat} (h : visit next fuel v s = some t) (w : V)
    (hw : s.visited w = true) : t.visited w = true := by
  induction fuel generalizing v s t with
  | zero =>
    rw [visit] at h
    split at h
    · obtain rfl := some.inj h
      exact hw
    · simp at h
  | succ fuel ih =>
    rw [visit] at h
    split at h
    · obtain rfl := some.inj h
      exact hw
    · obtain ⟨t',hfold,rfl⟩ := Option.map_eq_some_iff.mp h
      have hentered : (s.enter v).visited w = true := by
        by_cases hwv : w = v
        · simp [Search.enter,hwv]
        · simpa [Search.enter,hwv] using hw
      have hkeep (us : List V) {s' : Search V} (hs' : s'.visited w = true)
          (h' : us.foldlM (fun s c => visit next fuel c s) s' = some t') :
          t'.visited w = true := by
        induction us generalizing s' with
        | nil =>
          obtain rfl : s' = t' := by simpa using h'
          exact hs'
        | cons c us ihus =>
          rw [foldlM_cons] at h'
          obtain ⟨u,hu,hrest⟩ := Option.bind_eq_some_iff.mp h'
          exact ihus (ih hu hs') hrest
      exact hkeep (next v) hentered hfold

theorem visit_returns {vs : Finset V} (hvs : ∀ v ∈ vs, ∀ c ∈ next v, c ∈ vs) {fuel : Nat}
    (hv : v ∈ vs) (hfuel : (unvisited vs s).card ≤ fuel) :
    ∃ t, visit next fuel v s = some t := by
  induction fuel generalizing v s with
  | zero =>
    rw [visit]
    split
    · exact ⟨s,rfl⟩
    · next hnew =>
      have hmem : v ∈ unvisited vs s := by simpa [unvisited,hv] using hnew
      have hpos := Finset.card_pos.mpr ⟨v,hmem⟩
      omega
  | succ fuel ih =>
    rw [visit]
    split
    · exact ⟨s,rfl⟩
    · next hnew =>
      have hmem : v ∈ unvisited vs s := by simpa [unvisited,hv] using hnew
      have hentered : ∀ w, s.visited w = true → (s.enter v).visited w = true := by
        intro w hw
        by_cases hwv : w = v
        · simp [Search.enter,hwv]
        · simpa [Search.enter,hwv] using hw
      have hless : (unvisited vs (s.enter v)).card < (unvisited vs s).card := by
        refine Finset.card_lt_card ⟨unvisited_anti vs hentered,fun hsub => ?_⟩
        have hstill := hsub hmem
        rw [unvisited,Finset.mem_filter] at hstill
        simp [Search.enter] at hstill
      have hfold (us : List V) (hus : ∀ c ∈ us, c ∈ vs) {s' : Search V}
          (hs' : (unvisited vs s').card ≤ fuel) :
          ∃ t, us.foldlM (fun s c => visit next fuel c s) s' = some t := by
        induction us generalizing s' with
        | nil => exact ⟨s',rfl⟩
        | cons c us ihus =>
          obtain ⟨u,hu⟩ := ih (hus c (by simp)) hs'
          have hcard := Finset.card_le_card (unvisited_anti vs (visited_of_visit hu))
          obtain ⟨t,ht⟩ := ihus (fun d hd => hus d (by simp [hd])) (hcard.trans hs')
          exact ⟨t,by rw [foldlM_cons,hu]; exact ht⟩
      have hentered : (unvisited vs (s.enter v)).card ≤ fuel := by omega
      obtain ⟨t,ht⟩ := hfold (next v) (hvs v hv) hentered
      exact ⟨t.leave v,by rw [ht]; rfl⟩

end Condor.Lib.DepthFirst
