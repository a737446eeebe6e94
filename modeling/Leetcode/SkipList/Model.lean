import Mathlib.Algebra.Group.Int.Defs
import Leetcode.Lib.Chain
import Leetcode.Lib.Trace

/-!
# `1206.c`: the skip list

A `Skiplist` is its record together with the nodes in memory, one function for each
field of a `Node`; `forward i` gives the links of the level `i`.  `malloc` is taken to
succeed, and `free` leaves a node that nothing points to any more.  A search along one
level is given as many iterations as there are nodes.

An operation is undefined (`none`) where it uses a link that the node does not have, an
`update[i]` that has not been assigned, or a `NULL` pointer.  What `randomLevel` returns
is an input, any level from `1` to `MAX_LEVEL`.
-/

namespace Leetcode
namespace SkipList

open CLib

abbrev Ref := ℕ

def MAX_LEVEL : ℕ := 32

/-- What `randomLevel` may return. -/
abbrev Level := { lvl : ℕ // 1 ≤ lvl ∧ lvl ≤ MAX_LEVEL }

/-- The fields of `Skiplist`, then those of the nodes; `height` is the field `level` of a
node. -/
structure Skiplist where
  head : Ref
  level : ℕ
  val : Ref → Int
  height : Ref → ℕ
  forward : ℕ → Ref → Option Ref
  fresh : Ref

/-- `update[MAX_LEVEL]`, whose entries are not assigned at first. -/
abbrev Update := ℕ → Option Ref

/-- `newNode(val, level)`: the node, and the list with it. -/
def newNode (obj : Skiplist) (val : Int) (level : ℕ) : Ref × Skiplist :=
  (obj.fresh, { obj with
    val := Function.update obj.val obj.fresh val
    height := Function.update obj.height obj.fresh level
    forward := fun i => Function.update (obj.forward i) obj.fresh none
    fresh := obj.fresh + 1 })

def skiplistCreate : Skiplist where
  head := 0
  level := 1
  val := fun _ => -2 ^ 31
  height := fun _ => MAX_LEVEL
  forward := fun _ _ => none
  fresh := 1

/-- `a->forward[i]`. -/
def link (obj : Skiplist) (i : ℕ) (a : Ref) : Option (Option Ref) :=
  if i < obj.height a then some (obj.forward i a) else none

/-- `a->forward[i] = v`. -/
def setLink (obj : Skiplist) (i : ℕ) (a : Ref) (v : Option Ref) : Option Skiplist :=
  if i < obj.height a then
    some { obj with
      forward := Function.update obj.forward i (Function.update (obj.forward i) a v) }
  else none

/-! ## Searching -/

/-- `while (cur->forward[i] && cur->forward[i]->val < num) cur = cur->forward[i];` -/
def walk (obj : Skiplist) (num : Int) (i : ℕ) : ℕ → Ref → Option Ref
  | 0, _ => none
  | fuel + 1, cur =>
      (link obj i cur).bind fun
        | some a => if obj.val a < num then walk obj num i fuel a else some cur
        | none => some cur

/-- The loop that all operations begin with, from the level below `k` down: the last node
before `num` on level `0`, and the array with the last one of every level.  The search
has the loop without the array. -/
def descend (obj : Skiplist) (num : Int) : ℕ → Ref → Update → Option (Ref × Update)
  | 0, cur, update => some (cur, update)
  | i + 1, cur, update =>
      (walk obj num i obj.fresh cur).bind fun cur =>
        descend obj num i cur (Function.update update i (some cur))

def skiplistSearch (obj : Skiplist) (target : Int) : Option Bool :=
  (descend obj target obj.level obj.head fun _ => none).bind fun found =>
    (link obj 0 found.1).map fun
      | some cur => obj.val cur = target
      | none => false

/-! ## Adding -/

/-- The loop that links the new node `n` on the levels below `k`. -/
def linkLevels (n : Ref) (update : Update) : ℕ → Skiplist → Option Skiplist
  | 0, obj => some obj
  | i + 1, obj =>
      (linkLevels n update i obj).bind fun obj =>
        (update i).bind fun u =>
          (link obj i u).bind fun after =>
            (setLink obj i n after).bind fun obj => setLink obj i u (some n)

def skiplistAdd (obj : Skiplist) (num : Int) (lvl : ℕ) : Option Skiplist :=
  (descend obj num obj.level obj.head fun _ => none).bind fun found =>
    let update : Update := fun i =>
      if obj.level ≤ i ∧ i < lvl then some obj.head else found.2 i
    let obj := { obj with level := if obj.level < lvl then lvl else obj.level }
    let created := newNode obj num lvl
    linkLevels created.1 update lvl created.2

/-! ## Erasing -/

/-- The loop that unlinks the node `cur`, with `k` levels left from the level `i` on. -/
def unlinkLevels (cur : Ref) (update : Update) : ℕ → ℕ → Skiplist → Option Skiplist
  | 0, _, obj => some obj
  | k + 1, i, obj =>
      (update i).bind fun u =>
        (link obj i u).bind fun next =>
          if next ≠ some cur then some obj
          else
            (link obj i cur).bind fun after =>
              (setLink obj i u after).bind fun obj => unlinkLevels cur update k (i + 1) obj

/-- `while (obj->level > 1 && obj->head->forward[obj->level - 1] == NULL) obj->level--;` -/
def lowerLevel (obj : Skiplist) : ℕ → Option ℕ
  | 0 => some 0
  | 1 => some 1
  | i + 2 =>
      (link obj (i + 1) obj.head).bind fun
        | none => lowerLevel obj (i + 1)
        | some _ => some (i + 2)

def skiplistErase (obj : Skiplist) (num : Int) : Option (Skiplist × Bool) :=
  (descend obj num obj.level obj.head fun _ => none).bind fun found =>
    (link obj 0 found.1).bind fun
      | none => some (obj, false)
      | some cur =>
          if obj.val cur ≠ num then some (obj, false)
          else
            (unlinkLevels cur found.2 obj.level 0 obj).bind fun obj =>
              (lowerLevel obj obj.level).map fun level => ({ obj with level := level }, true)

/-- What a caller asks for. -/
inductive Request
  | search (target : Int)
  | add (num : Int)
  | erase (num : Int)
  deriving DecidableEq, Repr

/-- The list after a call, and what the call returns.  The level is the one that
`randomLevel` returns if it is called. -/
def step (obj : Skiplist) (call : Request × Level) : Option (Skiplist × Option Bool) :=
  match call.1 with
  | .search target => (skiplistSearch obj target).map fun r => (obj, some r)
  | .add num => (skiplistAdd obj num call.2).map fun obj => (obj, none)
  | .erase num => (skiplistErase obj num).map fun r => (r.1, some r.2)

end SkipList
end Leetcode
