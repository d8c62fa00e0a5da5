import Condor.Utils.HashTable
import Condor.ClassAdLog.Record

/-!
# ClassAds and the table of ads

An ad maps attribute names, compared without regard to case, to expressions. Parsing, printing and
evaluating expressions belong to the ClassAd language and are parameters here.
-/

namespace Condor

open Lib

/-- What the log relies on of the ClassAd language: `ParseExpression` on the text given to
`AssignExpr`, `ExprTreeToString`, string literals, values of string attributes, the order of an ad's
hash map, and the evaluation mode. -/
structure ClassAdLanguage (Expr : Type) where
  parseExpression : CString → Option Expr
  exprTreeToString : Expr → CString
  makeString : CString → Expr
  evaluateAttrString : List (CString × Expr) → CString → Option CString
  iterate : List (CString × Expr) → List (CString × Expr)
  iterate_perm : ∀ attrs, (iterate attrs).Perm attrs
  strictEvaluation : Bool

structure ClassAd (Expr : Type) where
  attrList : List (CString × Expr)
  distinct : KeyedList.Distinct strcaseeq attrList
  named : ∀ a ∈ attrList, a.1 ≠ []

def attrMyType : CString := cstr "MyType"
def attrTargetType : CString := cstr "TargetType"
def attrCurrentTime : CString := cstr "CurrentTime"

namespace ClassAd

variable {Expr : Type} (L : ClassAdLanguage Expr)

def empty : ClassAd Expr := ⟨[],List.Pairwise.nil,by simp⟩

def lookup (ad : ClassAd Expr) (name : CString) : Option Expr :=
  KeyedList.find strcaseeq ad.attrList name

/-- `Insert` refuses the empty name and keeps the spelling of a name that is there. -/
def insert (ad : ClassAd Expr) (name : CString) (e : Expr) : ClassAd Expr :=
  if h : name = [] then ad
  else
    { attrList := KeyedList.insert strcaseeq ad.attrList name e
      distinct := KeyedList.distinct_insert strcaseeq_isEquiv ad.distinct name e
      named := by
        intro a ha
        rcases KeyedList.mem_insert ha with hk | ⟨x,hx,hk⟩
        · rw [hk]
          exact h
        · rw [← hk]
          exact ad.named x hx }

def delete (ad : ClassAd Expr) (name : CString) : ClassAd Expr where
  attrList := KeyedList.erase strcaseeq ad.attrList name
  distinct := KeyedList.distinct_erase ad.distinct name
  named a ha := ad.named a (List.mem_of_mem_eraseP ha)

/-- `AssignExpr`: an expression that does not parse leaves the ad alone. -/
def assignExpr (ad : ClassAd Expr) (name value : CString) : ClassAd Expr :=
  match L.parseExpression value with
  | none => ad
  | some e => ad.insert name e

def setMyTypeName (ad : ClassAd Expr) (mytype : CString) : ClassAd Expr :=
  ad.insert attrMyType (L.makeString mytype)

def setTargetTypeName (ad : ClassAd Expr) (targettype : CString) : ClassAd Expr :=
  ad.insert attrTargetType (L.makeString targettype)

def getMyTypeName (ad : ClassAd Expr) : CString :=
  (L.evaluateAttrString ad.attrList attrMyType).getD []

def getTargetTypeName (ad : ClassAd Expr) : CString :=
  (L.evaluateAttrString ad.attrList attrTargetType).getD []

/-- The default constructor: ads are born with `CurrentTime` unless evaluation is strict. -/
def new : ClassAd Expr :=
  if L.strictEvaluation then empty else empty.assignExpr L attrCurrentTime (cstr "time()")

/-- The ad that a `LogNewClassAd` record makes. -/
def newTyped (mytype targettype : CString) : ClassAd Expr :=
  ((new L).setMyTypeName L mytype).setTargetTypeName L targettype

theorem lookup_insert (ad : ClassAd Expr) {name : CString} (h : name ≠ []) (e : Expr)
    (n : CString) :
    (ad.insert name e).lookup n = if strcaseeq name n then some e else ad.lookup n := by
  rw [insert,dif_neg h]
  exact KeyedList.find_insert strcaseeq_isEquiv ad.attrList name e n

theorem lookup_delete (ad : ClassAd Expr) (name n : CString) :
    (ad.delete name).lookup n = if strcaseeq name n then none else ad.lookup n :=
  KeyedList.find_erase strcaseeq_isEquiv ad.distinct name n

theorem lookup_congr (ad : ClassAd Expr) {n n' : CString} (h : strcaseeq n n' = true) :
    ad.lookup n = ad.lookup n' :=
  KeyedList.find_congr strcaseeq_isEquiv ad.attrList h

end ClassAd

/-- `hashFunction` of a `HashKey`, the same as that of a `YourSensitiveString`. -/
def hashFunction (key : CString) : UInt32 :=
  key.foldl (fun hash c => (hash <<< 5) + hash + c.val.toUInt32) 0

/-- `ClassAdHashTable`. -/
abbrev ClassAdTable (Expr : Type) := HashTable CString (ClassAd Expr)

/-- Both are the same map from keys to maps of attributes. -/
def SameTable {Expr : Type} (t t' : ClassAdTable Expr) : Prop :=
  ∀ k, (t.lookup k).map ClassAd.lookup = (t'.lookup k).map ClassAd.lookup

/-- The table member of a fresh `ClassAdLog`. -/
def newClassAdTable {Expr : Type} : ClassAdTable Expr :=
  HashTable.initializeWith hashFunction .allowDuplicateKeys

namespace LogRecord

variable {Expr : Type} (L : ClassAdLanguage Expr)

/-- `Play`. Its result is ignored by all callers in the log. -/
def play : LogRecord → ClassAdTable Expr → ClassAdTable Expr
  | newClassAd key mytype targettype, t => (t.insert key (.newTyped L mytype targettype)).1
  | destroyClassAd key, t =>
    match t.lookup key with
    | none => t
    | some _ => t.remove key
  | setAttribute key name value _, t =>
    match t.lookup key with
    | none => t
    | some _ => t.adjust key fun ad => ad.assignExpr L name value.val
  | deleteAttribute key name, t =>
    match t.lookup key with
    | none => t
    | some _ => t.adjust key fun ad => ad.delete name
  | beginTransaction, t => t
  | endTransaction, t => t
  | historicalSequenceNumber .., t => t

end LogRecord

/-! ## A small language of literals

Expressions that are their own text, enough to run the log on concrete ads. -/

def quote : CChar := ⟨34,nofun⟩

def unquote (e : CString) : Option CString :=
  match e with
  | [] => none
  | c :: rest =>
    if c = quote ∧ rest.getLast? = some quote then some rest.dropLast else none

def literals : ClassAdLanguage CString where
  parseExpression s := if s = [] then none else some s
  exprTreeToString e := e
  makeString s := quote :: s ++ [quote]
  evaluateAttrString attrs name := (KeyedList.find strcaseeq attrs name).bind unquote
  iterate attrs := attrs
  iterate_perm _ := List.Perm.refl _
  strictEvaluation := false

end Condor
