import Condor.Schedd.AutoCluster

/-!
# Reconfiguring the daemon

The lists of addresses are members that every call of `reinitialize` adds to. A hard
reconfiguration is asked for after a look at the new settings.
-/

namespace Condor.Had

open Condor.Lib Condor.Schedd List Option

/-- A `StringList`, divided before its current element. -/
structure IpList where
  before : List CString := []
  after : List CString := []

namespace IpList

def toList (l : IpList) : List CString := l.before ++ l.after

/-- `Insert` puts the new element before the current one. -/
def insert (l : IpList) (s : CString) : IpList := { l with before := l.before ++ [s] }

def scanned (l : IpList) : IpList := ⟨l.toList.dropLast,l.toList.getLast?.toList⟩

private theorem toList_insert (l : IpList) (s : CString) : (l.insert s).toList.Perm
    (l.toList ++ [s]) := by
  simp only [insert,toList,append_assoc]
  exact List.perm_append_comm.append_left l.before

private theorem toList_scanned (l : IpList) : l.scanned.toList = l.toList := by
  rw [scanned,toList]
  cases h : l.toList.getLast? with
  | none => simp [List.getLast?_eq_none_iff.mp h]
  | some s => exact dropLast_append_getLast? s h

end IpList

/-- `HAD_CONTROLLEE`, `HAD_USE_PRIMARY` and `HAD_LIST`. -/
structure Settings where
  controllee : Option CString := none
  usePrimary : Option Bool := none
  hadList : Option CString

structure HADStateMachine where
  controlleeName : CString := []
  usePrimary : Bool := false
  isPrimary : Bool := false
  selfId : Int := -1
  otherHadIps : IpList := {}
  allHadIps : IpList := {}

section

variable (utilToSinful : CString → Option CString) (addressPointsToMe : CString → Bool)

/-- The loop of getHadList, with `counter` and whether this daemon is in the list so far. -/
def hadListLoop (usePrimary : Bool) (number : Int) :
    Int → HADStateMachine → Bool → List CString → Option (HADStateMachine × Bool)
  | _, m, iAmPresent, [] => some (m,iAmPresent)
  | counter, m, iAmPresent, tryAddress :: rest => do
    let sinfulAddr ← utilToSinful tryAddress
    let m := { m with allHadIps := m.allHadIps.insert sinfulAddr }
    if addressPointsToMe sinfulAddr then
      let m := { m with
        selfId := counter
        isPrimary := m.isPrimary || (usePrimary && counter == number - 1) }
      hadListLoop usePrimary number (counter - 1) m true rest
    else
      let m := { m with otherHadIps := m.otherHadIps.insert sinfulAddr }
      hadListLoop usePrimary number (counter - 1) m iAmPresent rest

/-- `getHadList`, which fills the lists, the index and the primary flag of its caller. -/
def getHadList (str : CString) (usePrimary : Bool) (m : HADStateMachine) :
    Option HADStateMachine := do
  let hadList := StringList.initializeFromString str []
  let (m,iAmPresent) ← hadListLoop utilToSinful addressPointsToMe usePrimary hadList.length
    (hadList.length - 1) { m with isPrimary := false } false hadList
  if iAmPresent then some m else none

namespace HADStateMachine

/-- `daemonString(DT_NEGOTIATOR)` -/
def defaultControllee : CString := cstr "negotiator"

/-- What freeResources does to these members: the lists stay as they are. -/
def freeResources (m : HADStateMachine) : HADStateMachine :=
  { m with isPrimary := false, usePrimary := false, selfId := -1 }

def reinitialize (m : HADStateMachine) (s : Settings) : Option HADStateMachine := do
  let m := m.freeResources
  let m := { m with
    controlleeName := s.controllee.getD defaultControllee
    usePrimary := s.usePrimary.getD m.usePrimary }
  let str ← s.hadList
  getHadList utilToSinful addressPointsToMe str m.usePrimary m

/-- The controllee of the settings is not the present one; a buffer holds 127 characters of it. -/
def ControlleeDiffers (m : HADStateMachine) (s : Settings) : Prop :=
  strcaseeq ((s.controllee.getD defaultControllee).take 127) m.controlleeName = false
deriving Decidable

/-- `identical` does not look at the order. -/
def identical (xs ys : List CString) : Bool :=
  xs.length == ys.length && ys.all (· ∈ xs) && xs.all (· ∈ ys)

def isHardConfigurationNeeded (m : HADStateMachine) (s : Settings) : Option Bool :=
  if m.ControlleeDiffers s then some true
  else if s.usePrimary.getD false ≠ m.usePrimary then some true
  else do
    let str ← s.hadList
    let new ← getHadList utilToSinful addressPointsToMe str m.usePrimary {}
    -- the list is compared with itself
    some (m.selfId ≠ new.selfId || !identical m.allHadIps.toList m.allHadIps.toList)

end HADStateMachine

inductive HadListUse
  | reinitialize (s : Settings)
  /-- A loop over the other daemons, as in `sendCommandToOthers`. -/
  | sendCommandToOthers

def step (m : HADStateMachine) : HadListUse → Option HADStateMachine
  | HadListUse.reinitialize s => m.reinitialize utilToSinful addressPointsToMe s
  | .sendCommandToOthers => some { m with otherHadIps := m.otherHadIps.scanned }

/-- The addresses of `HAD_LIST`. -/
def Settings.addresses (s : Settings) : List CString :=
  ((s.hadList.map fun str => StringList.initializeFromString str []).getD []).filterMap utilToSinful

def Settings.selfIndex (s : Settings) : Nat :=
  (s.addresses utilToSinful).reverse.findIdx addressPointsToMe

/-- Every entry of `HAD_LIST` is an address, and one of them is the local one. -/
structure Settings.Usable (s : Settings) : Prop where
  listed : ∃ str, s.hadList = some str ∧
    ∀ a ∈ StringList.initializeFromString str [], (utilToSinful a).isSome
  present : (s.addresses utilToSinful).countP addressPointsToMe = 1

/-- The lists and the index are those of the settings. -/
structure InEffect (m : HADStateMachine) (s : Settings) : Prop where
  all : m.allHadIps.toList.Perm (s.addresses utilToSinful)
  other : m.otherHadIps.toList.Perm
    ((s.addresses utilToSinful).filter fun a => !addressPointsToMe a)
  selfId : m.selfId = s.selfIndex utilToSinful addressPointsToMe

variable {utilToSinful addressPointsToMe} {m m' : HADStateMachine}

structure Listed (utilToSinful : CString → Option CString) (addressPointsToMe : CString → Bool)
    (l : List CString) (m m' : HADStateMachine) : Prop where
  valid : ∀ a ∈ l, (utilToSinful a).isSome
  all : m'.allHadIps.toList.Perm (m.allHadIps.toList ++ l.filterMap utilToSinful)
  other : m'.otherHadIps.toList.Perm (m.otherHadIps.toList ++
    (l.filterMap utilToSinful).filter fun a => !addressPointsToMe a)
  selfId : m'.selfId = if (l.filterMap utilToSinful).any addressPointsToMe then
    ((l.filterMap utilToSinful).reverse.findIdx addressPointsToMe : Int) else m.selfId
  controlleeName : m'.controlleeName = m.controlleeName
  usePrimary : m'.usePrimary = m.usePrimary

theorem findIdx_reverse_cons {p : CString → Bool} (a : CString) (as : List CString) :
    (a :: as).reverse.findIdx p =
      if as.any p then as.reverse.findIdx p else as.length + if p a then 0 else 1 := by
  rw [reverse_cons,findIdx_append]
  by_cases h : as.any p = true
  · have hlt : as.reverse.findIdx p < as.reverse.length := by
      rw [findIdx_lt_length]
      simpa using h
    rw [if_pos hlt,if_pos h]
  · have hge : ¬as.reverse.findIdx p < as.reverse.length := by
      rw [findIdx_lt_length]
      simpa using h
    rw [if_neg hge,if_neg h]
    cases hp : p a <;> simp [findIdx_cons,hp,Nat.add_comm]

variable {l : List CString}

theorem length_filterMap (h : ∀ a ∈ l, (utilToSinful a).isSome) :
    (l.filterMap utilToSinful).length = l.length := by
  induction l with
  | nil => rfl
  | cons a l ih =>
    obtain ⟨s,hs⟩ := Option.isSome_iff_exists.mp (h a mem_cons_self)
    rw [filterMap_cons_some hs,length_cons,length_cons,
      ih fun b hb => h b (mem_cons_of_mem _ hb)]

private theorem hadListLoop_spec {usePrimary iAmPresent iAmPresent' : Bool} {number : Int}
    (h : hadListLoop utilToSinful addressPointsToMe usePrimary number
      (l.length - 1) m iAmPresent l = some (m',iAmPresent')) :
    Listed utilToSinful addressPointsToMe l m m' ∧
      iAmPresent' = (iAmPresent || (l.filterMap utilToSinful).any addressPointsToMe) := by
  induction l generalizing m iAmPresent with
  | nil =>
    cases h
    exact ⟨⟨by simp,by simp,by simp,by simp,rfl,rfl⟩,by simp⟩
  | cons a l ih =>
    rw [hadListLoop] at h
    obtain ⟨s,hs,h⟩ := Option.bind_eq_some_iff.mp h
    have hcounter : ((a :: l).length - 1 : Int) - 1 = l.length - 1 := by
      simp only [length_cons]
      omega
    have hcons : (a :: l).filterMap utilToSinful = s :: l.filterMap utilToSinful :=
      filterMap_cons_some hs
    have hvalid : (∀ b ∈ l, (utilToSinful b).isSome) →
        ∀ b ∈ a :: l, (utilToSinful b).isSome := by
      intro hl b hb
      rcases List.mem_cons.mp hb with rfl | hb
      · rw [hs]
        rfl
      · exact hl b hb
    have hinsert : ∀ (ips : IpList) (t : List CString),
        ((ips.insert s).toList ++ t).Perm (ips.toList ++ s :: t) := by
      intro ips t
      simpa using (IpList.toList_insert ips s).append_right t
    rw [hcounter] at h
    split at h
    next hme =>
      obtain ⟨hl,hpresent⟩ := ih h
      refine ⟨⟨hvalid hl.valid,?_,?_,?_,hl.controlleeName,hl.usePrimary⟩,?_⟩
      · rw [hcons]
        exact hl.all.trans (hinsert _ _)
      · rw [hcons,filter_cons_of_neg (by simp [hme])]
        exact hl.other
      · rw [hl.selfId,hcons,findIdx_reverse_cons,length_filterMap hl.valid]
        simp only [any_cons,hme,Bool.true_or,if_true,length_cons]
        split <;> simp
      · simp [hpresent,hme,hcons]
    next hme =>
      obtain ⟨hl,hpresent⟩ := ih h
      refine ⟨⟨hvalid hl.valid,?_,?_,?_,hl.controlleeName,hl.usePrimary⟩,?_⟩
      · rw [hcons]
        exact hl.all.trans (hinsert _ _)
      · rw [hcons,filter_cons_of_pos (by simp [hme])]
        exact hl.other.trans (hinsert _ _)
      · rw [hl.selfId,hcons,findIdx_reverse_cons]
        simp only [any_cons,hme,Bool.false_or]
        split <;> simp_all
      · simp [hpresent,hme,hcons]

private theorem getHadList_spec {str : CString} {usePrimary : Bool}
    (h : getHadList utilToSinful addressPointsToMe str usePrimary m = some m') :
    Listed utilToSinful addressPointsToMe (StringList.initializeFromString str [])
        { m with isPrimary := false } m' ∧
      ((StringList.initializeFromString str []).filterMap utilToSinful).any addressPointsToMe := by
  obtain ⟨⟨u,iAmPresent⟩,hloop,h⟩ := Option.bind_eq_some_iff.mp h
  obtain ⟨hl,hpresent⟩ := hadListLoop_spec hloop
  simp only [Bool.false_or] at hpresent
  change (if iAmPresent then some u else none) = some m' at h
  split at h
  next hp =>
    obtain rfl := some.inj h
    rw [hp] at hpresent
    exact ⟨hl,hpresent.symm⟩
  next => cases h

private theorem hadListLoop_isSome {usePrimary iAmPresent : Bool} {number counter : Int}
    (hl : ∀ a ∈ l, (utilToSinful a).isSome) : (hadListLoop utilToSinful addressPointsToMe usePrimary
      number counter m iAmPresent l).isSome := by
  induction l generalizing m iAmPresent counter with
  | nil => rfl
  | cons a l ih =>
    obtain ⟨s,hs⟩ := Option.isSome_iff_exists.mp (hl a mem_cons_self)
    have ih := fun m iAmPresent counter => @ih m iAmPresent counter fun b hb =>
      hl b (mem_cons_of_mem _ hb)
    rw [hadListLoop,hs]
    simp only [bind_eq_bind,bind_some]
    split
    · exact ih _ _ _
    · exact ih _ _ _

private theorem reinitialize_spec {s : Settings}
    (h : m.reinitialize utilToSinful addressPointsToMe s = some m') :
    m'.allHadIps.toList.Perm (m.allHadIps.toList ++ s.addresses utilToSinful) ∧
    m'.otherHadIps.toList.Perm (m.otherHadIps.toList ++
      (s.addresses utilToSinful).filter fun a => !addressPointsToMe a) ∧
    m'.selfId = s.selfIndex utilToSinful addressPointsToMe ∧
    s.addresses utilToSinful ≠ [] := by
  obtain ⟨str,hstr,hlist⟩ := Option.bind_eq_some_iff.mp h
  obtain ⟨hl,hpresent⟩ := getHadList_spec hlist
  have haddr : s.addresses utilToSinful =
      (StringList.initializeFromString str []).filterMap utilToSinful := by
    rw [Settings.addresses,hstr]
    rfl
  rw [haddr]
  refine ⟨hl.all,hl.other,?_,?_⟩
  · rw [hl.selfId,if_pos hpresent,Settings.selfIndex,haddr]
  · intro hnil
    rw [hnil] at hpresent
    cases hpresent

def HadListUse.addresses (utilToSinful : CString → Option CString) : HadListUse → List CString
  | HadListUse.reinitialize s => s.addresses utilToSinful
  | .sendCommandToOthers => []

private theorem all_of_run {acts : List HadListUse}
    (hr : run (step utilToSinful addressPointsToMe) m acts = some m') :
    m'.allHadIps.toList.Perm
      (m.allHadIps.toList ++ acts.flatMap (HadListUse.addresses utilToSinful)) ∧
    m'.otherHadIps.toList.Perm (m.otherHadIps.toList ++
      (acts.flatMap (HadListUse.addresses utilToSinful)).filter fun a => !addressPointsToMe a) ∧
    ((∃ s, HadListUse.reinitialize s ∈ acts) →
      acts.flatMap (HadListUse.addresses utilToSinful) ≠ []) := by
  induction acts generalizing m with
  | nil =>
    obtain rfl := some.inj hr
    simp
  | cons act acts ih =>
    obtain ⟨t,ht,hr⟩ := run_cons_eq_some hr
    obtain ⟨hall,hother,hne⟩ := ih hr
    rw [flatMap_cons,filter_append,← append_assoc,← append_assoc]
    cases act with
    | reinitialize s =>
      obtain ⟨hall',hother',-,hne'⟩ := reinitialize_spec ht
      refine ⟨hall.trans (hall'.append_right _),hother.trans (hother'.append_right _),fun _ => ?_⟩
      simp [HadListUse.addresses,hne']
    | sendCommandToOthers =>
      cases ht
      rw [IpList.toList_scanned] at hother
      simp only [HadListUse.addresses,filter_nil,append_nil,nil_append]
      refine ⟨hall,hother,fun hex => hne ?_⟩
      obtain ⟨s,hs⟩ := hex
      rcases List.mem_cons.mp hs with heq | hs
      · cases heq
      · exact ⟨s,hs⟩

private theorem identical_self (l : List CString) : HADStateMachine.identical l l = true := by
  simp [HADStateMachine.identical]

private theorem isHardConfigurationNeeded_spec {s : Settings}
    (hs : s.Usable utilToSinful addressPointsToMe) :
    ∃ needed, m.isHardConfigurationNeeded utilToSinful addressPointsToMe s = some needed ∧
      (needed = true ↔ m.ControlleeDiffers s ∨ s.usePrimary.getD false ≠ m.usePrimary ∨
        m.selfId ≠ s.selfIndex utilToSinful addressPointsToMe) := by
  obtain ⟨⟨str,hstr,hvalid⟩,hcount⟩ := hs
  unfold HADStateMachine.isHardConfigurationNeeded
  split
  next h => exact ⟨true,rfl,by simp [h]⟩
  next hc =>
    split
    next h => exact ⟨true,rfl,by simp [h]⟩
    next hp =>
      obtain ⟨⟨u,iAmPresent⟩,hloop⟩ := Option.isSome_iff_exists.mp
        (hadListLoop_isSome hvalid : (hadListLoop utilToSinful addressPointsToMe m.usePrimary
          (StringList.initializeFromString str []).length
          ((StringList.initializeFromString str []).length - 1) {} false _).isSome)
      obtain ⟨hl,hpresent⟩ := hadListLoop_spec hloop
      have haddr : s.addresses utilToSinful =
          (StringList.initializeFromString str []).filterMap utilToSinful := by
        rw [Settings.addresses,hstr]
        rfl
      have hany : ((StringList.initializeFromString str []).filterMap utilToSinful).any
          addressPointsToMe = true := by
        rw [← haddr,List.any_eq_true]
        obtain ⟨a,ha,hme⟩ := List.countP_pos_iff.mp
          (by omega : 0 < (s.addresses utilToSinful).countP addressPointsToMe)
        exact ⟨a,ha,hme⟩
      rw [hany,Bool.or_true] at hpresent
      have hlist : getHadList utilToSinful addressPointsToMe str m.usePrimary {} = some u := by
        rw [getHadList]
        simp only [hloop,bind_eq_bind,bind_some,hpresent,if_true]
      have hself : u.selfId = s.selfIndex utilToSinful addressPointsToMe := by
        rw [hl.selfId,if_pos hany,Settings.selfIndex,haddr]
      refine ⟨_,by rw [hstr]; simp only [bind_eq_bind,bind_some,hlist]; rfl,?_⟩
      rw [identical_self,hself]
      simp [hc,hp]

/-- The settings of the last call of `reinitialize` are in effect exactly if it was the first one.
New ones ask for a hard reconfiguration exactly if they change one of three of them. -/
theorem reconfigure_iff {acts : List HadListUse} {s s' : Settings}
    (hr : run (step utilToSinful addressPointsToMe) {}
      (acts ++ [ HadListUse.reinitialize s]) = some m)
    (hs' : s'.Usable utilToSinful addressPointsToMe) :
    (InEffect utilToSinful addressPointsToMe m s ↔ ∀ t, HadListUse.reinitialize t ∉ acts) ∧
    ∃ needed, m.isHardConfigurationNeeded utilToSinful addressPointsToMe s' = some needed ∧
      ((s'.addresses utilToSinful ≠ s.addresses utilToSinful → needed = true) ↔
        s'.addresses utilToSinful = s.addresses utilToSinful ∨ m.ControlleeDiffers s' ∨
          s'.usePrimary.getD false ≠ m.usePrimary ∨
            s.selfIndex utilToSinful addressPointsToMe ≠
              s'.selfIndex utilToSinful addressPointsToMe) := by
  obtain ⟨t,ht,hlast⟩ := run_snoc_eq_some hr
  obtain ⟨hall,hother,hself,-⟩ := reinitialize_spec hlast
  obtain ⟨hall',hother',hne⟩ := all_of_run ht
  constructor
  · constructor
    · intro h u hu
      have hlen := (h.all.symm.trans (hall.trans (hall'.append_right _))).length_eq
      have hpos := List.length_pos_iff.mpr (hne ⟨u,hu⟩)
      simp only [length_append] at hlen
      omega
    · intro hnone
      have hnil : acts.flatMap (HadListUse.addresses utilToSinful) = [] := by
        rw [flatMap_eq_nil_iff]
        intro act hact
        cases act with
        | reinitialize u => exact absurd hact (hnone u)
        | sendCommandToOthers => rfl
      rw [hnil] at hall' hother'
      exact ⟨hall.trans (hall'.append_right _),hother.trans (hother'.append_right _),hself⟩
  · obtain ⟨needed,hneeded,hiff⟩ := isHardConfigurationNeeded_spec (m := m) hs'
    refine ⟨needed,hneeded,?_⟩
    rw [hiff,hself]
    have hcast : ((s.selfIndex utilToSinful addressPointsToMe : Int) ≠
        s'.selfIndex utilToSinful addressPointsToMe) ↔
        s.selfIndex utilToSinful addressPointsToMe ≠
          s'.selfIndex utilToSinful addressPointsToMe := by
      rw [ne_eq,ne_eq,Int.natCast_inj]
    rw [hcast]
    exact or_iff_not_imp_left.symm

end

def letter (b : Byte) (h : b ≠ 0) : CChar := ⟨b,h⟩

def isLocal (address : CString) : Bool := address == [letter 109 (by decide)]

def sampleSettings (first second : CChar) : Settings where
  controllee := some []
  hadList := some [first,letter 44 (by decide),second]

def localFirst : Settings := sampleSettings (letter 109 (by decide)) (letter 97 nofun)

def otherPeer : Settings := sampleSettings (letter 109 (by decide)) (letter 98 (by decide))

def localLast : Settings := sampleSettings (letter 97 nofun) (letter 109 (by decide))

theorem reconfigure_iff_sample : ∃ m,
    run (step some isLocal) {} ([] ++ [ HadListUse.reinitialize localFirst]) = some m ∧
    (InEffect some isLocal m localFirst ↔
      ∀ t, HadListUse.reinitialize t ∉ ([] : List HadListUse)) ∧
    ∃ needed, m.isHardConfigurationNeeded some isLocal localLast =
        some needed ∧
      ((localLast.addresses some ≠ localFirst.addresses some →
        needed = true) ↔
        localLast.addresses some = localFirst.addresses some ∨
          m.ControlleeDiffers localLast ∨
          localLast.usePrimary.getD false ≠ m.usePrimary ∨
            localFirst.selfIndex some isLocal ≠
              localLast.selfIndex some isLocal) := by
  obtain ⟨m,hm,-⟩ := run_exists (step some isLocal) {}
    ([] ++ [ HadListUse.reinitialize localFirst]) (fun _ => true) (by decide)
  exact ⟨m,hm,reconfigure_iff hm ⟨⟨_,rfl,by simp⟩,by decide⟩⟩

/-- Another daemon in the place of "a" is not noticed. -/
theorem reconfigure_overlooks : ∃ m,
    run (step some isLocal) {} [ HadListUse.reinitialize localFirst] = some m ∧
    m.isHardConfigurationNeeded some isLocal otherPeer = some false ∧
      otherPeer.addresses some ≠ localFirst.addresses some := by
  obtain ⟨m,hm,hneeded⟩ := run_exists (step some isLocal) {}
    [ HadListUse.reinitialize localFirst] (fun m =>
      m.isHardConfigurationNeeded some isLocal otherPeer == some false)
    (by decide)
  exact ⟨m,hm,by simpa using hneeded,by decide⟩

end Condor.Had
