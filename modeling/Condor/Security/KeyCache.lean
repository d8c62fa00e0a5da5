import Condor.Lib.Run
import Condor.Utils.CString
import Condor.Utils.HashTable

/-!
# The cache of security sessions

`KeyCache` keeps its entries under their ids, and an index that lists them under their peer
address, under the server's command socket and under the server's unique id.
-/

namespace Condor.Security

open Function

abbrev Ptr := Nat

/-- What `LookupString` and `LookupInteger` find in a policy ad. -/
structure Policy where
  serverCommandSock : Option CString := none
  parentUniqueId : Option CString := none
  serverPid : Option Int := none
  deriving DecidableEq

/-- `KeyCacheEntry`, with the address in the form `to_sinful` gives it. -/
structure KeyCacheEntry where
  id : CString
  addr : Option CString := none
  policy : Policy := {}
  deriving DecidableEq

/-- `makeServerUniqueId`; the result stays empty for a peer that is no daemon. -/
def makeServerUniqueId (parentId : CString) (serverPid : Int) : CString :=
  if parentId = [] ∨ serverPid = 0 then [] else parentId ++ cstr "." ++ decimalInt serverPid

namespace KeyCacheEntry

def peerAddr (e : KeyCacheEntry) : CString := e.addr.getD []

def serverAddr (e : KeyCacheEntry) : CString := e.policy.serverCommandSock.getD []

def serverUniqueId (e : KeyCacheEntry) : CString :=
  makeServerUniqueId (e.policy.parentUniqueId.getD []) (e.policy.serverPid.getD 0)

def strings (e : KeyCacheEntry) : List CString := [e.peerAddr,e.serverAddr,e.serverUniqueId]

end KeyCacheEntry

abbrev KeyCacheIndex := HashTable CString (List Ptr)

namespace KeyCacheIndex

def addToIndex (index : KeyCacheIndex) (s : CString) (key : Ptr) : Option KeyCacheIndex :=
  if s = [] then some index
  else
    match index.lookup s with
    | some _ => some (index.adjust s fun l => l ++ [key])
    | none =>
      match index.insert s [] with
      | (_,false) => none
      | (index,true) => some (index.adjust s fun l => l ++ [key])

def removeFromIndex (index : KeyCacheIndex) (s : CString) (key : Ptr) : Option KeyCacheIndex :=
  match index.lookup s with
  | none => some index
  | some keylist =>
    if key ∈ keylist then
      if keylist.erase key = [] then some (index.remove s)
      else some (index.adjust s fun l => l.erase key)
    else none

def addAll (key : Ptr) : List CString → KeyCacheIndex → Option KeyCacheIndex
  | [], index => some index
  | s :: ss, index => (index.addToIndex s key).bind (addAll key ss)

def removeAll (key : Ptr) : List CString → KeyCacheIndex → Option KeyCacheIndex
  | [], index => some index
  | s :: ss, index => (index.removeFromIndex s key).bind (removeAll key ss)

end KeyCacheIndex

structure KeyCache where
  /-- The entries that have been allocated and not deleted. -/
  heap : List (Ptr × KeyCacheEntry)
  keyTable : HashTable CString Ptr
  index : KeyCacheIndex

structure Env where
  alloc : List Ptr → Ptr
  fresh : ∀ ps, alloc ps ∉ ps
  hash : CString → UInt32

namespace KeyCache

def empty (env : Env) : KeyCache where
  heap := []
  keyTable := .initializeWith env.hash .rejectDuplicateKeys
  index := .initializeWith env.hash .rejectDuplicateKeys

def deref (k : KeyCache) (p : Ptr) : Option KeyCacheEntry :=
  (k.heap.find? fun e => e.1 = p).map Prod.snd

/-- `insert`, with what it returns. -/
def insert (env : Env) (e : KeyCacheEntry) (k : KeyCache) : Option (KeyCache × Bool) :=
  let newEnt := env.alloc (k.heap.map Prod.fst)
  match k.keyTable.insert e.id newEnt with
  | (_,false) => some (k,false)
  | (table,true) =>
    (KeyCacheIndex.addAll newEnt e.strings k.index).map fun index =>
      ({ heap := k.heap ++ [(newEnt,e)], keyTable := table, index := index },true)

/-- `remove`, with what it returns; `none` is also a pointer to nothing. -/
def remove (keyId : CString) (k : KeyCache) : Option (KeyCache × Bool) :=
  match k.keyTable.lookup keyId with
  | none => some (k,false)
  | some p =>
    match k.deref p with
    | none => none
    | some e =>
      (KeyCacheIndex.removeAll p e.strings k.index).map fun index =>
        ({ heap := k.heap.filter fun x => x.1 ≠ p,
           keyTable := k.keyTable.remove keyId, index := index },true)

/-- `expire` of an entry that is in the cache. -/
def expire (p : Ptr) (k : KeyCache) : Option KeyCache :=
  match k.deref p with
  | none => none
  | some e => (k.remove e.id).map Prod.fst

def insertAll (env : Env) : List KeyCacheEntry → KeyCache → Option KeyCache
  | [], k => some k
  | e :: es, k => (k.insert env e).bind fun r => insertAll env es r.1

/-- `copy_storage` into a cache that was emptied. -/
def copyStorage (env : Env) (copy : KeyCache) : Option KeyCache :=
  (copy.keyTable.entries.mapM fun x => copy.deref x.2).bind fun es => insertAll env es (empty env)

def keyIds (k : KeyCache) (ok : KeyCacheEntry → Bool) (keylist : List Ptr) :
    Option (List CString) :=
  keylist.mapM fun p => (k.deref p).bind fun e => if ok e then some e.id else none

/-- `getKeysForPeerAddress`; an inner `none` is the null pointer. -/
def getKeysForPeerAddress (k : KeyCache) (addr : CString) : Option (Option (List CString)) :=
  if addr = [] then some none
  else
    match k.index.lookup addr with
    | none => some none
    | some keylist =>
      (k.keyIds (fun e => e.serverAddr == addr || e.peerAddr == addr) keylist).map some

def getKeysForProcess (k : KeyCache) (parentUniqueId : CString) (pid : Int) :
    Option (Option (List CString)) :=
  let serverUniqueId := makeServerUniqueId parentUniqueId pid
  match k.index.lookup serverUniqueId with
  | none => some none
  | some keylist =>
    (k.keyIds (fun e => e.serverUniqueId == serverUniqueId) keylist).map some

end KeyCache

inductive Action where
  | insert (i : Nat) (e : KeyCacheEntry)
  | remove (i : Nat) (keyId : CString)
  /-- Expire the entry that a lookup of the id finds. -/
  | expire (i : Nat) (keyId : CString)
  | assign (i j : Nat)

abbrev Caches := Nat → KeyCache

namespace Caches

def step (env : Env) (cs : Caches) : Action → Option Caches
  | .insert i e => ((cs i).insert env e).map fun r => update cs i r.1
  | .remove i keyId => ((cs i).remove keyId).map fun r => update cs i r.1
  | .expire i keyId =>
    match (cs i).keyTable.lookup keyId with
    | none => some cs
    | some p => ((cs i).expire p).map fun k => update cs i k
  | .assign i j =>
    if i = j then some cs
    else (KeyCache.copyStorage env (cs j)).map fun k => update cs i k

end Caches

end Condor.Security
