import Leetcode.Lib.Chain
import Leetcode.Lib.CString
import Leetcode.Lib.Trace

/-!
# `COCURRENTHASHMAP.c`: the calls of one thread

A map is its record and its buckets together with the nodes in memory, one function for
each field of a `node_t`.  A `void *` is a value or `NULL`.  `malloc` and `strdup` are
taken to succeed, and `free` leaves a node that nothing points to any more.  A loop is
given as many iterations as there are nodes.

A call is undefined (`none`) where it divides by zero.  Here one call follows the other,
so a thread that waits for a lock waits forever: that is `none` too.
-/

namespace Leetcode
namespace HashMap

open CLib

abbrev Ref := ℕ

variable {V : Type*}

/-- The fields of `concurrentHashMap_t`, of its buckets and of the nodes. -/
structure ConcurrentHashMap (V : Type*) where
  nbuckets : ℕ
  lock : ℕ → Bool
  head : ℕ → Option Ref
  key : Ref → CStr
  value : Ref → Option V
  next : Ref → Option Ref
  fresh : Ref

/-- `hash_str(s)`; the shifts and sums are those of `unsigned long`. -/
def hashStr (s : CStr) : UInt64 :=
  s.1.foldl (fun hash c => ((hash <<< 5) + hash) + c.toUInt64) 5381

/-- `hash_str(key) % m->nbuckets`. -/
def bucketOf (m : ConcurrentHashMap V) (key : CStr) : Option ℕ :=
  if m.nbuckets = 0 then none else some ((hashStr key).toNat % m.nbuckets)

def pthreadMutexLock (m : ConcurrentHashMap V) (h : ℕ) : Option (ConcurrentHashMap V) :=
  if m.lock h then none else some { m with lock := Function.update m.lock h true }

def pthreadMutexUnlock (m : ConcurrentHashMap V) (h : ℕ) : ConcurrentHashMap V :=
  { m with lock := Function.update m.lock h false }

def mapCreate (nbuckets : ℕ) : ConcurrentHashMap V where
  nbuckets := nbuckets
  lock := fun _ => false
  head := fun _ => none
  key := fun _ => ⟨[], by simp⟩
  value := fun _ => none
  next := fun _ => none
  fresh := 0

/-- `strcmp(cur->key, key) == 0`. -/
def hasKey (m : ConcurrentHashMap V) (key : CStr) (cur : Ref) : Bool :=
  strcmp (m.key cur).1 key.1 = 0

/-- The end of `map_insert` for a key that is not in the map. -/
def pushNode (m : ConcurrentHashMap V) (h : ℕ) (key : CStr) (value : Option V) :
    ConcurrentHashMap V :=
  { m with
    key := Function.update m.key m.fresh key
    value := Function.update m.value m.fresh value
    next := Function.update m.next m.fresh (m.head h)
    head := Function.update m.head h (some m.fresh)
    fresh := m.fresh + 1 }

def mapInsert (m : ConcurrentHashMap V) (key : CStr) (value : Option V) :
    Option (ConcurrentHashMap V × Option V) :=
  (bucketOf m key).bind fun h =>
    (pthreadMutexLock m h).bind fun m =>
      (findNode m.next (hasKey m key) m.fresh (m.head h)).map fun
        | some cur =>
            let old := m.value cur
            let m := { m with value := Function.update m.value cur value }
            (pthreadMutexUnlock m h, old)
        | none => (pthreadMutexUnlock (pushNode m h key value) h, none)

def mapGet (m : ConcurrentHashMap V) (key : CStr) : Option (ConcurrentHashMap V × Option V) :=
  (bucketOf m key).bind fun h =>
    (pthreadMutexLock m h).bind fun m =>
      (findNode m.next (hasKey m key) m.fresh (m.head h)).map fun
        | some cur => (pthreadMutexUnlock m h, m.value cur)
        | none => (pthreadMutexUnlock m h, none)

def mapRemove (m : ConcurrentHashMap V) (key : CStr) :
    Option (ConcurrentHashMap V × Option V) :=
  (bucketOf m key).bind fun h =>
    (pthreadMutexLock m h).bind fun m =>
      (findPrev m.next (hasKey m key) m.fresh (m.head h) none).map fun
        | some (cur, prev) =>
            let m :=
              match prev with
              | some p => { m with next := Function.update m.next p (m.next cur) }
              | none => { m with head := Function.update m.head h (m.next cur) }
            (pthreadMutexUnlock m h, m.value cur)
        | none => (pthreadMutexUnlock m h, none)

/-- The loop of `map_destroy` over the nodes of a bucket: what is passed to `free_val`, if
there is such a function. -/
def freeNodes (m : ConcurrentHashMap V) (freeVal : Bool) :
    ℕ → Option Ref → Option (List (Option V))
  | _, none => some []
  | 0, some _ => none
  | fuel + 1, some cur =>
      (freeNodes m freeVal fuel (m.next cur)).map fun values =>
        if freeVal then m.value cur :: values else values

/-- The loop of `map_destroy` over the buckets. -/
def destroyBuckets (freeVal : Bool) : List ℕ → ConcurrentHashMap V → Option (List (Option V))
  | [], _ => some []
  | i :: rest, m =>
      (pthreadMutexLock m i).bind fun m =>
        (freeNodes m freeVal m.fresh (m.head i)).bind fun values =>
          (destroyBuckets freeVal rest (pthreadMutexUnlock m i)).map fun more =>
            values ++ more

/-- `map_destroy(m, free_val)`: the values that `free_val` is called with, in that order. -/
def mapDestroy (m : ConcurrentHashMap V) (freeVal : Bool) : Option (List (Option V)) :=
  destroyBuckets freeVal (List.range m.nbuckets) m

inductive Call (V : Type*)
  | insert (key : CStr) (value : Option V)
  | get (key : CStr)
  | remove (key : CStr)

def Call.key : Call V → CStr
  | .insert key _ | .get key | .remove key => key

/-- The map after a call, and what the call returns. -/
def step (m : ConcurrentHashMap V) : Call V → Option (ConcurrentHashMap V × Option V)
  | .insert key value => mapInsert m key value
  | .get key => mapGet m key
  | .remove key => mapRemove m key

end HashMap
end Leetcode
