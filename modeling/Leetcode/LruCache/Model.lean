import Mathlib.Algebra.Group.Int.Defs
import Leetcode.Lib.Chain
import Leetcode.Lib.Trace

/-!
# `146.c`: the LRU cache

A cache is its record together with the nodes in memory, one function for each field
of a `Node`.  `malloc` is taken to succeed, and `free` leaves a node that nothing
points to any more.  A loop is given as many iterations as there are nodes.  A call
is undefined (`none`) where it reads the table behind its end or dereferences `NULL`.

The numbers that are only compared are integers here; the index of a bucket is computed
as the code does, by the signed remainder and its conversion to `unsigned int`.
-/

namespace Leetcode
namespace LruCache

open CLib

abbrev Ref := ℕ

/-- The fields of `LRUCache`, then those of the nodes. -/
structure LRUCache where
  capacity : Int
  size : Int
  head : Option Ref
  tail : Option Ref
  map : ℕ → Option Ref
  mapSize : Int
  key : Ref → Int
  value : Ref → Int
  prev : Ref → Option Ref
  next : Ref → Option Ref
  hnext : Ref → Option Ref
  fresh : Ref

/-- `createNode(key, value)`: the node, and the cache with it. -/
def createNode (c : LRUCache) (key value : Int) : Ref × LRUCache :=
  (c.fresh, { c with
    key := Function.update c.key c.fresh key
    value := Function.update c.value c.fresh value
    prev := Function.update c.prev c.fresh none
    next := Function.update c.next c.fresh none
    hnext := Function.update c.hnext c.fresh none
    fresh := c.fresh + 1 })

/-- `hash(key, map_size)`. -/
def hash (key mapSize : Int) : ℕ := (Int.tmod key mapSize % 2 ^ 32).toNat

/-- `cache->map[idx]`. -/
def bucket (c : LRUCache) (idx : ℕ) : Option (Option Ref) :=
  if idx < c.mapSize then some (c.map idx) else none

/-- `cache->map[idx] = node`. -/
def setBucket (c : LRUCache) (idx : ℕ) (node : Option Ref) : Option LRUCache :=
  if idx < c.mapSize then some { c with map := Function.update c.map idx node } else none

/-! ## The list -/

def removeNode (c : LRUCache) (node : Ref) : LRUCache :=
  let c :=
    match c.prev node with
    | some p => { c with next := Function.update c.next p (c.next node) }
    | none => { c with head := c.next node }
  match c.next node with
  | some n => { c with prev := Function.update c.prev n (c.prev node) }
  | none => { c with tail := c.prev node }

def addToHead (c : LRUCache) (node : Ref) : LRUCache :=
  let c := { c with next := Function.update c.next node c.head }
  let c := { c with prev := Function.update c.prev node none }
  let c :=
    match c.head with
    | some h => { c with prev := Function.update c.prev h (some node) }
    | none => c
  let c := { c with head := some node }
  match c.tail with
  | none => { c with tail := some node }
  | some _ => c

/-! ## The table -/

def getNode (c : LRUCache) (key : Int) : Option (Option Ref) :=
  let idx := hash key c.mapSize
  (bucket c idx).bind fun node => findNode c.hnext (fun a => c.key a = key) c.fresh node

def putNode (c : LRUCache) (node : Ref) : Option LRUCache :=
  let idx := hash (c.key node) c.mapSize
  (bucket c idx).bind fun first =>
    setBucket { c with hnext := Function.update c.hnext node first } idx (some node)

def removeFromMap (c : LRUCache) (key : Int) : Option LRUCache :=
  let idx := hash key c.mapSize
  (bucket c idx).bind fun node =>
    (findPrev c.hnext (fun a => c.key a = key) c.fresh node none).bind fun
      | none => some c
      | some (node, prev) =>
          match prev with
          | some p => some { c with hnext := Function.update c.hnext p (c.hnext node) }
          | none => setBucket c idx (c.hnext node)

/-! ## The operations -/

def lRUCacheCreate (capacity : Int) : LRUCache where
  capacity := capacity
  size := 0
  head := none
  tail := none
  mapSize := 10007
  map := fun _ => none
  key := fun _ => 0
  value := fun _ => 0
  prev := fun _ => none
  next := fun _ => none
  hnext := fun _ => none
  fresh := 0

def lRUCacheGet (c : LRUCache) (key : Int) : Option (LRUCache × Int) :=
  (getNode c key).map fun
    | none => (c, -1)
    | some node =>
        let c := addToHead (removeNode c node) node
        (c, c.value node)

/-- The branch of `lRUCachePut` that makes room. -/
def evict (c : LRUCache) : Option LRUCache :=
  if c.size = c.capacity then
    c.tail.bind fun tail =>
      let c := removeNode c tail
      (removeFromMap c (c.key tail)).map fun c => { c with size := c.size - 1 }
  else some c

def lRUCachePut (c : LRUCache) (key value : Int) : Option LRUCache :=
  (getNode c key).bind fun
    | some node =>
        let c := { c with value := Function.update c.value node value }
        some (addToHead (removeNode c node) node)
    | none =>
        (evict c).bind fun c =>
          let created := createNode c key value
          let c := addToHead created.2 created.1
          (putNode c created.1).map fun c => { c with size := c.size + 1 }

/-- A call. -/
inductive Call
  | get (key : Int)
  | put (key value : Int)
  deriving DecidableEq, Repr

def Call.key : Call → Int
  | .get key => key
  | .put key _ => key

/-- The cache after a call, and what the call returns. -/
def step (c : LRUCache) : Call → Option (LRUCache × Option Int)
  | .get key => (lRUCacheGet c key).map fun r => (r.1, some r.2)
  | .put key value => (lRUCachePut c key value).map fun c => (c, none)

end LruCache
end Leetcode
