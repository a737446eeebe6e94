import Leetcode.Lib.PtrTree

/-!
# `414.c`: the red-black tree of `thirdMax`

The nodes live in a memory of cells; a `Node *` is an optional reference.  The
search tree, its `*root` and the next unused reference form the `Heap`.  `malloc`
is taken to succeed.  A loop is given as many iterations as there are nodes, and
`none` means that they did not suffice or that `NULL` was dereferenced.

An `int` value is only ever compared, so it is any integer here.
-/

namespace Leetcode
namespace ThirdMax

open CLib

inductive Color
  | red
  | black
  deriving DecidableEq, Repr

/-- The fields of a `Node` besides its links. -/
structure Data where
  value : Int
  color : Color
  size : ℕ
  deriving DecidableEq, Repr

structure Heap where
  mem : Mem Data
  root : Option Ref
  fresh : Ref

/-- `Node *root = NULL`. -/
def Heap.init : Heap where
  mem := ⟨fun _ => ⟨⟨0, .black, 0⟩, none, none, none⟩⟩
  root := none
  fresh := 0

/-- `createNode(value)`: the new node, and the heap with it. -/
def createNode (h : Heap) (value : Int) : Ref × Heap :=
  (h.fresh, { h with
    mem := h.mem.set h.fresh ⟨⟨value, .red, 1⟩, none, none, none⟩
    fresh := h.fresh + 1 })

/-- `getSize(root)`. -/
def getSize (m : Mem Data) : Option Ref → ℕ
  | some a => (m a).data.size
  | none => 0

/-- `updateSize(root)`. -/
def updateSize (m : Mem Data) : Option Ref → Mem Data
  | none => m
  | some a =>
      m.setData a { (m a).data with size := getSize m (m a).left + getSize m (m a).right + 1 }

/-- `a->color = c`. -/
def setColor (m : Mem Data) (a : Ref) (c : Color) : Mem Data :=
  m.setData a { (m a).data with color := c }

/-- `p && p->color == red`. -/
def isRed (m : Mem Data) : Option Ref → Bool
  | none => false
  | some a => (m a).data.color = .red

/-! ## Rotations -/

/-- `leftRotate(root, x)`; the parent of `y->left` is set twice. -/
def leftRotate (h : Heap) : Option Ref → Heap
  | none => h
  | some x =>
      match (h.mem x).right with
      | none => h
      | some y =>
          let m := h.mem.setChild .right x (h.mem y).left
          let m := m.adopt (m y).left (some x)
          let m := m.adopt (m y).left (some x)
          let m := m.setParent y (m x).parent
          let linked := m.relink h.root (m x).parent x y
          let m := linked.1.setChild .left y (some x)
          let m := m.setParent x (some y)
          let m := updateSize m (some x)
          { h with mem := updateSize m (some y), root := linked.2 }

/-- `rightRotate(root, x)`. -/
def rightRotate (h : Heap) : Option Ref → Heap
  | none => h
  | some x =>
      match (h.mem x).left with
      | none => h
      | some y =>
          let m := h.mem.setChild .left x (h.mem y).right
          let m := m.adopt (m y).right (some x)
          let m := m.setParent y (m x).parent
          let linked := m.relink h.root (m x).parent x y
          let m := linked.1.setChild .right y (some x)
          let m := m.setParent x (some y)
          let m := updateSize m (some x)
          { h with mem := updateSize m (some y), root := linked.2 }

/-! ## Fixing the colours -/

/-- One round of the loop of `fixInsert` in its first half, where `parent` is the
left child of `grandParent`: the heap and the next `z`. -/
def fixLeft (h : Heap) (z parent grandParent : Ref) : Heap × Ref :=
  let uncle := (h.mem grandParent).right
  match uncle, isRed h.mem uncle with
  | some uncle, true =>
      let m := setColor h.mem parent .black
      let m := setColor m uncle .black
      ({ h with mem := setColor m grandParent .red }, grandParent)
  | _, _ =>
      if (h.mem parent).right = some z then
        (leftRotate h (some parent), parent)
      else
        let m := setColor h.mem parent .black
        let m := setColor m grandParent .red
        (rightRotate { h with mem := m } (some grandParent), z)

/-- One round in the second half.  The uncle is `grandParent->right` here too. -/
def fixRight (h : Heap) (z parent : Ref) (grandParent : Option Ref) : Option (Heap × Ref) :=
  let uncle := grandParent.bind fun g => (h.mem g).right
  match uncle, isRed h.mem uncle with
  | some uncle, true =>
      let m := setColor h.mem parent .black
      let m := setColor m uncle .black
      grandParent.map fun g => ({ h with mem := setColor m g .red }, g)
  | _, _ =>
      let turned :=
        if (h.mem parent).left = some z then (rightRotate h (some parent), parent) else (h, z)
      let m := setColor turned.1.mem parent .black
      let m := match grandParent with
        | some g => setColor m g .red
        | none => m
      some (leftRotate { turned.1 with mem := m } grandParent, turned.2)

/-- The loop of `fixInsert`. -/
def fixLoop : ℕ → Heap → Ref → Option Heap
  | 0, _, _ => none
  | fuel + 1, h, z =>
      if h.root = some z then some h
      else (h.mem z).parent.bind fun parent =>
        if isRed h.mem (some parent) then
          match (h.mem parent).parent with
          | some grandParent =>
              if (h.mem grandParent).left = some parent then
                fixLoop fuel (fixLeft h z parent grandParent).1 (fixLeft h z parent grandParent).2
              else (fixRight h z parent (some grandParent)).bind fun next =>
                fixLoop fuel next.1 next.2
          | none => (fixRight h z parent none).bind fun next => fixLoop fuel next.1 next.2
        else some h

/-- `fixInsert(root, z)`. -/
def fixInsert (h : Heap) (z : Ref) : Option Heap :=
  (fixLoop (h.fresh + 1) h z).map fun h =>
    match h.root with
    | some r => { h with mem := setColor h.mem r .black }
    | none => h

/-! ## Insertion -/

/-- Where the search of `insertValue` ends. -/
inductive Position
  | found
  | below (y : Option Ref)

/-- The search loop of `insertValue`, from `y` and `x`. -/
def search (m : Mem Data) (val : Int) : ℕ → Option Ref → Option Ref → Option Position
  | _, y, none => some (.below y)
  | 0, _, some _ => none
  | fuel + 1, _, some x =>
      if val = (m x).data.value then some .found
      else if val < (m x).data.value then search m val fuel (some x) (m x).left
      else search m val fuel (some x) (m x).right

/-- The loop that updates the sizes on the way up from `p`. -/
def updateSizes : ℕ → Mem Data → Option Ref → Option (Mem Data)
  | _, m, none => some m
  | 0, _, some _ => none
  | fuel + 1, m, some p =>
      let m := updateSize m (some p)
      updateSizes fuel m (m p).parent

/-- Attach the new node `z` below `y`. -/
def attach (h : Heap) (val : Int) (z : Ref) (y : Option Ref) : Heap :=
  let m := h.mem.setParent z y
  match y with
  | none => { h with mem := m, root := some z }
  | some y =>
      if val < (m y).data.value then { h with mem := m.setChild .left y (some z) }
      else { h with mem := m.setChild .right y (some z) }

/-- `insertValue(root, val)`. -/
def insertValue (h : Heap) (val : Int) : Option Heap :=
  (search h.mem val h.fresh none h.root).bind fun
    | .found => some h
    | .below y =>
        let created := createNode h val
        let h := attach created.2 val created.1 y
        (updateSizes h.fresh h.mem (some created.1)).bind fun m =>
          fixInsert { h with mem := m } created.1

/-! ## The third largest value -/

/-- `findKthLargest(root, k)`; the sizes below `root` are read as the code reads them. -/
def findKthLargest (m : Mem Data) : ℕ → Option Ref → Int → Option Int
  | _, none, _ => some (-1)
  | 0, some _, _ => none
  | fuel + 1, some root, k =>
      let rootsize : Int := getSize m (m root).right
      if rootsize + 1 = k then some (m root).data.value
      else if k ≤ rootsize then findKthLargest m fuel (m root).right k
      else findKthLargest m fuel (m root).left (k - rootsize - 1)

/-- `thirdMax(nums, numsSize)`; `root->size` is read of whatever `root` is. -/
def thirdMax (nums : List Int) : Option Int :=
  (nums.foldlM insertValue Heap.init).bind fun h =>
    h.root.bind fun root =>
      let totalNodes := (h.mem root).data.size
      if totalNodes < 3 then findKthLargest h.mem h.fresh h.root 1
      else findKthLargest h.mem h.fresh h.root 3

end ThirdMax
end Leetcode
