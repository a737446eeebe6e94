import Mathlib.Data.Rat.Cast.CharZero
import Leetcode.Lib.CInt
import Leetcode.Lib.PtrTree

/-!
# `295.c`: the red-black tree of `MedianFinder`

The nodes live in a memory of cells, and the `MedianFinder` is its `root` with that
memory.  `malloc` is taken to succeed.  A loop is given as many iterations as there
are nodes; `none` means that they did not suffice, that `NULL` was dereferenced or that the
result of an `int` operation is no `int`.  A size is an `int`.  The values may be any integers:
they are compared, and only the median adds two of them.

The two rotations are mirror images, and so are the two halves of the loop of
`insertFixup`: each pair is one definition over the `Side`.
-/

namespace Leetcode
namespace MedianFinder

open CLib

inductive Color
  | RED
  | BLACK
  deriving DecidableEq, Repr

/-- The fields of an `RBTNode` besides its links. -/
structure Data where
  val : Int
  color : Color
  size : Int32
  deriving DecidableEq, Repr

/-- A `MedianFinder` and the memory. -/
structure Heap where
  mem : Mem Data
  root : Option Ref
  fresh : Ref

/-- `medianFinderCreate()`. -/
def medianFinderCreate : Heap where
  mem := ⟨fun _ => ⟨⟨0, .BLACK, 0⟩, none, none, none⟩⟩
  root := none
  fresh := 0

/-- `nodeSize(node)`. -/
def nodeSize (m : Mem Data) : Option Ref → Int32
  | some a => (m a).data.size
  | none => 0

/-- `newNode(val)`: the node, and the heap with it. -/
def newNode (h : Heap) (val : Int) : Ref × Heap :=
  (h.fresh, { h with
    mem := h.mem.set h.fresh ⟨⟨val, .RED, 1⟩, none, none, none⟩
    fresh := h.fresh + 1 })

/-- `a->size = 1 + nodeSize(a->left) + nodeSize(a->right)`. -/
def updateSize (m : Mem Data) (a : Ref) : Option (Mem Data) :=
  (addInt 1 (nodeSize m (m a).left)).bind fun size =>
    (addInt size (nodeSize m (m a).right)).map fun size =>
      m.modify a fun d => { d with size := size }

/-- `a->color = c`. -/
def setColor (m : Mem Data) (a : Ref) (c : Color) : Mem Data :=
  m.modify a fun d => { d with color := c }

/-- `p && p->color == RED`. -/
def isRed (m : Mem Data) : Option Ref → Bool
  | none => false
  | some a => (m a).data.color = .RED

/-! ## Rotations -/

/-- `x` goes down on the side `s`, and its child `y` on the other side takes its
place. -/
def rotate (s : Side) (h : Heap) (x : Ref) : Option Heap :=
  ((h.mem x).child s.flip).bind fun y =>
    let m := h.mem.setChild s.flip x ((h.mem y).child s)
    let m := m.adopt ((m y).child s) (some x)
    let m := m.setParent y (m x).parent
    let linked := m.relink h.root (m x).parent x y
    let m := linked.1.setChild s y (some x)
    let m := m.setParent x (some y)
    (updateSize m x).bind fun m =>
      (updateSize m y).map fun m => { h with mem := m, root := linked.2 }

/-- `leftRotate(root, x)`. -/
def leftRotate : Heap → Ref → Option Heap := rotate .left

/-- `rightRotate(root, y)`, which calls the upper node `y`. -/
def rightRotate : Heap → Ref → Option Heap := rotate .right

/-! ## Fixing the colours -/

/-- The half of the loop of `insertFixup` in which `z->parent` is the child of `gp` on
the side `s`: the heap and the next `z`. -/
def fixHalf (s : Side) (h : Heap) (z parent gp : Ref) : Option (Heap × Ref) :=
  let y := (h.mem gp).child s.flip
  match y, isRed h.mem y with
  | some y, true =>
      let m := setColor h.mem parent .BLACK
      let m := setColor m y .BLACK
      some ({ h with mem := setColor m gp .RED }, gp)
  | _, _ =>
      let turned :=
        if (h.mem parent).child s.flip = some z then (rotate s h parent).map fun h => (h, parent)
        else some (h, z)
      turned.bind fun turned =>
        (turned.1.mem turned.2).parent.bind fun parent =>
          let m := setColor turned.1.mem parent .BLACK
          let m := setColor m gp .RED
          (rotate s.flip { turned.1 with mem := m } gp).map fun h => (h, turned.2)

/-- The loop of `insertFixup`. -/
def fixupLoop : ℕ → Heap → Ref → Option Heap
  | 0, _, _ => none
  | fuel + 1, h, z =>
      match (h.mem z).parent with
      | none => some h
      | some parent =>
          if isRed h.mem (some parent) then
            (h.mem parent).parent.bind fun gp =>
              let next :=
                if (h.mem gp).left = some parent then fixHalf .left h z parent gp
                else fixHalf .right h z parent gp
              next.bind fun next => fixupLoop fuel next.1 next.2
          else some h

/-- `insertFixup(root, z)`. -/
def insertFixup (h : Heap) (z : Ref) : Option Heap :=
  (fixupLoop (h.fresh + 1) h z).bind fun h =>
    h.root.map fun r => { h with mem := setColor h.mem r .BLACK }

/-! ## Insertion -/

/-- The search loop of `insertRBT`, which counts the new node in on the way. -/
def descend (val : Int) : ℕ → Mem Data → Option Ref → Option Ref → Option (Mem Data × Option Ref)
  | _, m, y, none => some (m, y)
  | 0, _, _, some _ => none
  | fuel + 1, m, _, some x =>
      (addInt (m x).data.size 1).bind fun size =>
        let m := m.modify x fun d => { d with size := size }
        if val < (m x).data.val then descend val fuel m (some x) (m x).left
        else descend val fuel m (some x) (m x).right

/-- Attach the new node `z` below `y`. -/
def attach (h : Heap) (val : Int) (z : Ref) (y : Option Ref) : Heap :=
  let m := h.mem.setParent z y
  match y with
  | none => { h with mem := m, root := some z }
  | some y =>
      if val < (m y).data.val then { h with mem := m.setChild .left y (some z) }
      else { h with mem := m.setChild .right y (some z) }

/-- `insertRBT(root, val)`. -/
def insertRBT (h : Heap) (val : Int) : Option Heap :=
  let created := newNode h val
  (descend val created.2.fresh created.2.mem none created.2.root).bind fun found =>
    insertFixup (attach { created.2 with mem := found.1 } val created.1 found.2) created.1

/-- `medianFinderAddNum(obj, num)`. -/
def medianFinderAddNum (obj : Heap) (num : Int) : Option Heap :=
  insertRBT obj num

/-! ## The median -/

/-- `kthSmallest(node, k)`. -/
def kthSmallest (m : Mem Data) : ℕ → Option Ref → Int → Option Int
  | 0, _, _ => none
  | _ + 1, none, _ => none
  | fuel + 1, some node, k =>
      let leftSize := (nodeSize m (m node).left).toInt
      (intResult (leftSize + 1)).bind fun rank =>
        if k = rank then some (m node).data.val
        else if k ≤ leftSize then kthSmallest m fuel (m node).left k
        else
          (intResult (k - leftSize)).bind fun rest =>
            (intResult (rest - 1)).bind fun rest => kthSmallest m fuel (m node).right rest

/-- `medianFinderFindMedian(obj)`; an `int` and half of it are exact as a `double`. -/
def medianFinderFindMedian (obj : Heap) : Option ℚ :=
  let n := (nodeSize obj.mem obj.root).toInt
  (intResult (n.tdiv 2 + 1)).bind fun upper =>
    if n.tmod 2 = 1 then
      (kthSmallest obj.mem obj.fresh obj.root upper).map fun v : Int => (v : ℚ)
    else
      (kthSmallest obj.mem obj.fresh obj.root (n.tdiv 2)).bind fun a =>
        (kthSmallest obj.mem obj.fresh obj.root upper).bind fun b =>
          (intResult (a + b)).map fun sum : Int => (sum : ℚ) / 2

end MedianFinder
end Leetcode
