import Leetcode.HashMap.Model
import Leetcode.Lib.Linear

/-!
# `COCURRENTHASHMAP.c`: the calls of several threads

Each thread makes the calls of its own list.  A call takes one step for each access to what
the threads share: taking the lock of the bucket, reading its head, visiting one node, reading
or writing a value or a link, `malloc` and `free`, and releasing the lock.  The scheduler may
choose any thread at any time.

`malloc` returns any node that is not allocated, also one that has been freed before, and
whatever touches a node that is not allocated is undefined (`none`).  A thread that finds the
lock taken cannot go on.
-/

namespace Leetcode
namespace HashMap

open CLib

variable {T V : Type*}

/-- Where a thread is in the code of its call, with the variables `b`, `cur`, `prev`, `old`,
`val` and `n` that are still needed there. -/
inductive Place (V : Type*)
  /-- Between two calls. -/
  | idle
  /-- At `pthread_mutex_lock(&b->lock)`. -/
  | lock (h : ℕ)
  /-- At `cur = b->head`. -/
  | head (h : ℕ)
  /-- At the test of the loop, and of the node `cur`. -/
  | loop (h : ℕ) (cur prev : Option Ref)
  /-- Behind `strcmp(cur->key, key) == 0`. -/
  | hit (h : ℕ) (cur : Ref) (prev : Option Ref)
  /-- In `map_insert`, at `cur->value = value`. -/
  | store (h : ℕ) (cur : Ref) (old : Option V)
  /-- In `map_remove`, at `val = cur->value`. -/
  | take (h : ℕ) (cur : Ref)
  /-- In `map_remove`, at `free(cur)`. -/
  | free (h : ℕ) (cur : Ref) (val : Option V)
  /-- In `map_insert`, at `n = malloc(sizeof(*n))`; the key and the value are stored too. -/
  | create (h : ℕ)
  /-- In `map_insert`, at `n->next = b->head`. -/
  | link (h : ℕ) (n : Ref)
  /-- In `map_insert`, at `b->head = n`. -/
  | publish (h : ℕ) (n : Ref)
  /-- At `pthread_mutex_unlock(&b->lock)`. -/
  | unlock (h : ℕ) (result : Option V)
  /-- At the return. -/
  | ret (result : Option V)
  deriving DecidableEq

/-- The map, the nodes that `malloc` has returned and `free` has not got, and the threads:
the number of calls each has returned from, and where it is in the next one.  The counter
`fresh` of the map is not used. -/
structure System (T V : Type*) where
  map : ConcurrentHashMap V
  allocated : Ref → Bool
  next : T → ℕ
  place : T → Place V

/-- Behind `map_create(nbuckets)`. -/
def System.init (nbuckets : ℕ) : System T V where
  map := mapCreate nbuckets
  allocated := fun _ => false
  next := fun _ => 0
  place := fun _ => .idle

variable [DecidableEq T]

/-- The thread goes on. -/
def System.goto (s : System T V) (t : T) (p : Place V) : System T V :=
  { s with place := Function.update s.place t p }

/-- The step touches the node `a`. -/
def System.deref (s : System T V) (a : Ref) (s' : System T V) : Option (System T V) :=
  if s.allocated a then some s' else none

/-- A step of the thread `t` inside its call; `addr` is what `malloc` returns. -/
def inside (s : System T V) (t : T) (addr : Ref) (call : Call V) : Option (System T V) :=
  let m := s.map
  match s.place t, call with
  | .lock h, _ => (pthreadMutexLock m h).map fun m => { s with map := m }.goto t (.head h)
  | .head h, _ => some (s.goto t (.loop h (m.head h) none))
  | .loop h none _, .insert _ _ => some (s.goto t (.create h))
  | .loop h none _, _ => some (s.goto t (.unlock h none))
  | .loop h (some cur) prev, call =>
      s.deref cur (s.goto t
        (if hasKey m call.key cur then .hit h cur prev else .loop h (m.next cur) (some cur)))
  | .hit h cur _, .insert _ _ => s.deref cur (s.goto t (.store h cur (m.value cur)))
  | .store h cur old, .insert _ value =>
      let m := { m with value := Function.update m.value cur value }
      s.deref cur ({ s with map := m }.goto t (.unlock h old))
  | .create h, .insert key value =>
      let m := { m with
        key := Function.update m.key addr key
        value := Function.update m.value addr value }
      if s.allocated addr then none
      else some ({ s with
        map := m
        allocated := Function.update s.allocated addr true }.goto t (.link h addr))
  | .link h n, .insert _ _ =>
      let m := { m with next := Function.update m.next n (m.head h) }
      s.deref n ({ s with map := m }.goto t (.publish h n))
  | .publish h n, .insert _ _ =>
      let m := { m with head := Function.update m.head h (some n) }
      some ({ s with map := m }.goto t (.unlock h none))
  | .hit h cur _, .get _ => s.deref cur (s.goto t (.unlock h (m.value cur)))
  | .hit h cur (some p), .remove _ =>
      let m := { m with next := Function.update m.next p (m.next cur) }
      if s.allocated p then s.deref cur ({ s with map := m }.goto t (.take h cur)) else none
  | .hit h cur none, .remove _ =>
      let m := { m with head := Function.update m.head h (m.next cur) }
      s.deref cur ({ s with map := m }.goto t (.take h cur))
  | .take h cur, .remove _ => s.deref cur (s.goto t (.free h cur (m.value cur)))
  | .free h cur val, .remove _ =>
      s.deref cur ({ s with
        allocated := Function.update s.allocated cur false }.goto t (.unlock h val))
  | .unlock h result, _ =>
      some ({ s with map := pthreadMutexUnlock m h }.goto t (.ret result))
  | _, _ => none

/-- A choice of the scheduler. -/
structure Turn (T : Type*) where
  thread : T
  addr : Ref

/-- One step of the system, and what is seen of it; `prog` has the calls of each thread. -/
def turn (prog : T → List (Call V)) (s : System T V) (choice : Turn T) :
    Option (System T V × Option (Event T (Call V) (Option V))) :=
  let t := choice.thread
  (prog t)[s.next t]?.bind fun call =>
    match s.place t with
    | .idle =>
        (bucketOf s.map call.key).map fun h =>
          (s.goto t (.lock h), some (.call ⟨t, s.next t, call⟩))
    | .ret result =>
        some ({ s with next := Function.update s.next t (s.next t + 1) }.goto t .idle,
          some (.ret ⟨t, s.next t, call⟩ result))
    | _ => (inside s t choice.addr call).map fun s' => (s', none)

/-- Every thread has returned from all of its calls. -/
def System.Complete (prog : T → List (Call V)) (s : System T V) : Prop :=
  ∀ t, s.next t = (prog t).length ∧ s.place t = .idle

end HashMap
end Leetcode
