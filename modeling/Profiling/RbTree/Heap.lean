import Profiling.RbTree.Erase

/-!
# Profiling.RbTree.Heap

`struct rb_node` of `src/include/rbtree.h` in memory: the nodes with their links,
the word that holds both the parent pointer and the colour, and the functions of
`src/utils/rbtree.c` as they follow and write these.

Every access to a node that is not allocated fails, and so does following
`NULL`.  The loops take fuel and fail when it runs out.

`Represents m t` reads the heap as a tree of `Profiling.RbTree` whose records are
the addresses of the nodes.  It is taken apart at any node: `Subtree` below it,
`Around` above it (`represents_zip`).

* `rbParentOf_packed`, `rbColorOf_packed` — the two halves of the packed word;
* `Around.rbChangeChild` — the parent, or the root pointer, gets another child.
-/

namespace Profiling

/-! ## Pointers -/

/-- The address of a `struct rb_node`: the two bits that the colour is kept in
are free. -/
structure NodePtr where
  addr : UInt64
  aligned : addr &&& 3 = 0
  ne_null : addr ≠ 0
  deriving DecidableEq

/-- `(unsigned long)p`; `none` is `NULL`. -/
def ptrWord : Option NodePtr → UInt64
  | none => 0
  | some p => p.addr

/-- `RB_RED` and `RB_BLACK` as they are stored. -/
def Color.bit : Color → UInt64
  | .red => 0
  | .black => 1

/-- The word of `rb_set_parent_color`. -/
def packed (parent : Option NodePtr) (color : Color) : UInt64 := ptrWord parent ||| color.bit

theorem and_or_distrib (a b c : UInt64) : a &&& (b ||| c) = a &&& b ||| a &&& c :=
  UInt64.toBitVec_inj.mp (BitVec.and_or_distrib_left ..)

theorem and_mask_aligned (w : UInt64) : w &&& ~~~3 &&& 3 = 0 := by
  rw [UInt64.and_assoc]
  simp

/-- What has its low bits free is not changed by clearing them. -/
theorem and_mask_of_aligned {w : UInt64} (h : w &&& 3 = 0) : w &&& ~~~3 = w :=
  calc
    w &&& ~~~3 = w &&& 3 ||| w &&& ~~~3 := by rw [h, UInt64.zero_or]
    _ = w &&& (3 ||| ~~~3) := (and_or_distrib _ _ _).symm
    _ = w := by simp

/-- `__rb_parent` -/
def rbParentOf (pc : UInt64) : Option NodePtr :=
  if h : pc &&& ~~~3 = 0 then none else some ⟨pc &&& ~~~3, and_mask_aligned pc, h⟩

/-- `__rb_color` -/
def rbColorOf (pc : UInt64) : Color := if pc &&& 1 = 0 then .red else .black

/-- A word that is taken for a pointer as it is, with the low bits free. -/
def wordPtr (w : UInt64) : Option (Option NodePtr) :=
  if h : w &&& 3 = 0 then if h₀ : w = 0 then some none else some (some ⟨w, h, h₀⟩) else none

/-- `struct rb_node` -/
structure RbNode where
  parentColor : UInt64
  right : Option NodePtr
  left : Option NodePtr
  deriving DecidableEq

/-- The nodes that are allocated, and the root pointer of a `struct rb_root`. -/
structure RbHeap where
  nodes : NodePtr → Option RbNode
  root : Option NodePtr

/-- The opposite child. -/
def Side.other : Side → Side
  | .left => .right
  | .right => .left

namespace RbNode

/-- `rb_left` or `rb_right` -/
def child (n : RbNode) (side : Side) : Option NodePtr := side.pick n.left n.right

/-- `n->rb_left = p` or `n->rb_right = p` -/
def setChild (n : RbNode) (side : Side) (p : Option NodePtr) : RbNode :=
  match side with
  | .left => { n with left := p }
  | .right => { n with right := p }

end RbNode

namespace RbHeap

/-! ## Accesses -/

/-- The node at an address, as an allocation or a write leaves it. -/
def put (m : RbHeap) (a : NodePtr) (n : RbNode) : RbHeap :=
  { m with nodes := Function.update m.nodes a (some n) }

/-- A write to an allocated node. -/
def modify (m : RbHeap) (a : NodePtr) (f : RbNode → RbNode) : Option RbHeap :=
  (m.nodes a).map fun n => m.put a (f n)

/-- `a->rb_left` or `a->rb_right` -/
def getChild (m : RbHeap) (side : Side) (a : NodePtr) : Option (Option NodePtr) :=
  (m.nodes a).map fun n => n.child side

/-- `a->rb_left = p` or `a->rb_right = p` -/
def setChild (m : RbHeap) (side : Side) (a : NodePtr) (p : Option NodePtr) : Option RbHeap :=
  m.modify a fun n => n.setChild side p

/-- `a->__rb_parent_color` -/
def getParentColor (m : RbHeap) (a : NodePtr) : Option UInt64 :=
  (m.nodes a).map fun n => n.parentColor

/-- `a->__rb_parent_color = pc` -/
def setPc (m : RbHeap) (a : NodePtr) (pc : UInt64) : Option RbHeap :=
  m.modify a fun n => { n with parentColor := pc }

/-- `rb_parent` -/
def rbParent (m : RbHeap) (a : NodePtr) : Option (Option NodePtr) :=
  (m.getParentColor a).map rbParentOf

/-- `rb_color` -/
def rbColor (m : RbHeap) (a : NodePtr) : Option Color := (m.getParentColor a).map rbColorOf

/-- `rb_red_parent` -/
def rbRedParent (m : RbHeap) (a : NodePtr) : Option (Option NodePtr) := do
  wordPtr (← m.getParentColor a)

/-- `rb_set_parent_color` -/
def rbSetParentColor (m : RbHeap) (a : NodePtr) (p : Option NodePtr) (color : Color) :
    Option RbHeap :=
  m.setPc a (packed p color)

/-- `if (tmp) rb_set_parent_color(tmp, …)` -/
def setParentColorIf (m : RbHeap) (tmp : Option NodePtr) (p : Option NodePtr) (color : Color) :
    Option RbHeap :=
  match tmp with
  | none => some m
  | some a => m.rbSetParentColor a p color

/-- `rb_set_parent` -/
def rbSetParent (m : RbHeap) (a : NodePtr) (p : Option NodePtr) : Option RbHeap := do
  m.setPc a ((← m.rbColor a).bit ||| ptrWord p)

/-- `if (tmp) rb_set_parent(tmp, …)` -/
def setParentIf (m : RbHeap) (tmp : Option NodePtr) (p : Option NodePtr) : Option RbHeap :=
  match tmp with
  | none => some m
  | some a => m.rbSetParent a p

/-- `rb_set_black` -/
def rbSetBlack (m : RbHeap) (a : NodePtr) : Option RbHeap := do
  m.setPc a ((← m.getParentColor a) ||| Color.black.bit)

/-- `tmp && rb_is_red(tmp)` -/
def isRed (m : RbHeap) : Option NodePtr → Option Bool
  | none => some false
  | some a => (m.rbColor a).map fun c => c == .red

/-- `__rb_change_child` -/
def rbChangeChild (m : RbHeap) (old : NodePtr) (new parent : Option NodePtr) : Option RbHeap :=
  match parent with
  | none => some { m with root := new }
  | some p => do
      if (← m.getChild .left p) = some old then m.setChild .left p new else m.setChild .right p new

/-- `__rb_rotate_set_parents` -/
def rbRotateSetParents (m : RbHeap) (old new : NodePtr) (color : Color) : Option RbHeap := do
  let parent ← m.rbParent old
  let m ← m.setPc new (← m.getParentColor old)
  let m ← m.rbSetParentColor old (some new) color
  m.rbChangeChild old (some new) parent

/-- `free` of the record that a node is in. -/
def free (m : RbHeap) (a : NodePtr) : Option RbHeap :=
  (m.nodes a).map fun _ => { m with nodes := Function.update m.nodes a none }

/-! ## Insertion -/

/-- A `struct rb_node **`: where a pointer to a node is kept. -/
inductive Link where
  | root
  | child (side : Side) (parent : NodePtr)

/-- `*link` -/
def Link.load (m : RbHeap) : Link → Option (Option NodePtr)
  | .root => some m.root
  | .child side p => m.getChild side p

/-- `*link = p` -/
def Link.store (m : RbHeap) (p : Option NodePtr) : Link → Option RbHeap
  | .root => some { m with root := p }
  | .child side a => m.setChild side a p

/-- `rb_link_node` -/
def rbLinkNode (m : RbHeap) (node : NodePtr) (parent : Option NodePtr) (link : Link) :
    Option RbHeap := do
  let m ← m.setPc node (ptrWord parent)
  let m ← m.setChild .right node none
  let m ← m.setChild .left node none
  link.store m (some node)

/-- The cases 2 and 3 of `__rb_insert`, with the parent on the given side of the
grandparent. -/
def insertRotate (m : RbHeap) (side : Side) (node parent gparent : NodePtr) : Option RbHeap := do
  let tmp ← m.getChild side.other parent
  if tmp = some node then
    -- case 2: rotate at the parent, which takes the place of the node
    let tmp ← m.getChild side node
    let m ← m.setChild side.other parent tmp
    let m ← m.setChild side node (some parent)
    let m ← m.setParentColorIf tmp (some parent) .black
    let m ← m.rbSetParentColor parent (some node) .red
    rotateGparent m node (← m.getChild side.other node)
  else rotateGparent m parent tmp
where
  /-- case 3: rotate at the grandparent -/
  rotateGparent (m : RbHeap) (parent : NodePtr) (tmp : Option NodePtr) : Option RbHeap := do
    let m ← m.setChild side gparent tmp
    let m ← m.setChild side.other parent (some gparent)
    let m ← m.setParentColorIf tmp (some gparent) .black
    m.rbRotateSetParents gparent parent .red

/-- `__rb_insert`, the loop -/
def rbInsertLoop : Nat → RbHeap → NodePtr → Option NodePtr → Option RbHeap
  | 0, _, _, _ => none
  | _ + 1, m, node, none => m.rbSetParentColor node none .black
  | fuel + 1, m, node, some parent => do
      if (← m.rbColor parent) = .black then return m
      let gparent ← (← m.rbRedParent parent)
      -- the two halves of the loop's body mirror each other
      let side := if some parent ≠ (← m.getChild .right gparent) then Side.left else Side.right
      let uncle ← m.getChild side.other gparent
      if ← m.isRed uncle then
        -- case 1: color flips
        let m ← m.rbSetParentColor (← uncle) (some gparent) .black
        let m ← m.rbSetParentColor parent (some gparent) .black
        let up ← m.rbParent gparent
        let m ← m.rbSetParentColor gparent up .red
        rbInsertLoop fuel m gparent up
      else m.insertRotate side node parent gparent

/-- `rb_insert_color` -/
def rbInsertColor (fuel : Nat) (m : RbHeap) (node : NodePtr) : Option RbHeap := do
  rbInsertLoop fuel m node (← m.rbRedParent node)

section Descent

variable {κ : Type} [LinearOrder κ] (key : NodePtr → κ)

/-- The callers' search for the place of a new record. -/
def descend (x : NodePtr) : Nat → RbHeap → Link → Option NodePtr → Option (Link × Option NodePtr)
  | 0, _, _, _ => none
  | fuel + 1, m, link, parent => do
      match ← link.load m with
      | none => return (link, parent)
      | some a => descend x fuel m (.child (if key x < key a then .left else .right) a) (some a)

/-- The callers' insertion: the search, `rb_link_node` and `rb_insert_color`. -/
def insertNode (fuel : Nat) (m : RbHeap) (x : NodePtr) : Option RbHeap := do
  let (link, parent) ← descend key x fuel m .root none
  rbInsertColor fuel (← m.rbLinkNode x parent link) x

end Descent

/-! ## Removal -/

/-- `____rb_erase_color`, case 4: rotate at the parent; the child of the black
sibling on the far side is red. -/
def eraseRotate (m : RbHeap) (side : Side) (parent sibling : NodePtr) (far : Option NodePtr) :
    Option RbHeap := do
  let tmp ← m.getChild side sibling
  let m ← m.setChild side.other parent tmp
  let m ← m.setChild side sibling (some parent)
  let m ← m.rbSetParentColor (← far) (some sibling) .black
  let m ← m.setParentIf tmp (some parent)
  m.rbRotateSetParents parent sibling .black

/-- `____rb_erase_color`, case 3: rotate at the sibling, whose near child is red. -/
def eraseRotateSibling (m : RbHeap) (side : Side) (parent sibling : NodePtr)
    (near : Option NodePtr) : Option RbHeap := do
  let near ← near
  let tmp ← m.getChild side.other near
  let m ← m.setChild side sibling tmp
  let m ← m.setChild side.other near (some sibling)
  let m ← m.setChild side.other parent (some near)
  m.setParentColorIf tmp (some sibling) .black

/-- `____rb_erase_color`, case 1: rotate at the parent; gives the new sibling. -/
def eraseRedSibling (m : RbHeap) (side : Side) (parent sibling : NodePtr) :
    Option (RbHeap × NodePtr) := do
  let near ← m.getChild side sibling
  let m ← m.setChild side.other parent near
  let m ← m.setChild side sibling (some parent)
  let near ← near
  let m ← m.rbSetParentColor near (some parent) .black
  return (← m.rbRotateSetParents parent sibling .red, near)

/-- `____rb_erase_color`, cases 2 to 4: the sibling is black; gives the parent to go on
with, if the loop does. -/
def eraseBlackSibling (m : RbHeap) (side : Side) (parent sibling : NodePtr) :
    Option (RbHeap × Option NodePtr) := do
  let far ← m.getChild side.other sibling
  if ← m.isRed far then return (← m.eraseRotate side parent sibling far, none)
  else
    let near ← m.getChild side sibling
    if ← m.isRed near then
      let m ← m.eraseRotateSibling side parent sibling near
      return (← m.eraseRotate side parent (← near) (some sibling), none)
    else
      -- case 2: sibling color flip
      let m ← m.rbSetParentColor sibling (some parent) .red
      if (← m.rbColor parent) = .red then return (← m.rbSetBlack parent, none)
      else return (m, ← m.rbParent parent)

/-- `____rb_erase_color` -/
def rbEraseColor : Nat → RbHeap → Option NodePtr → NodePtr → Option RbHeap
  | 0, _, _, _ => none
  | fuel + 1, m, node, parent => do
      -- the two halves of the loop's body mirror each other
      let side := if node ≠ (← m.getChild .right parent) then Side.left else Side.right
      let sibling ← (← m.getChild side.other parent)
      let (m, sibling) ←
        if (← m.rbColor sibling) = .red then m.eraseRedSibling side parent sibling
        else some (m, sibling)
      let (m, up) ← m.eraseBlackSibling side parent sibling
      match up with
      | none => return m
      | some up => rbEraseColor fuel m (some parent) up

/-- The loop of `__rb_erase_augmented` that goes to the leftmost node: the successor
and its parent. -/
def successorLoop : Nat → RbHeap → NodePtr → NodePtr → Option (NodePtr × NodePtr)
  | 0, _, _, _ => none
  | fuel + 1, m, parent, successor => do
      match ← m.getChild .left successor with
      | none => return (parent, successor)
      | some tmp => successorLoop fuel m successor tmp

/-- `__rb_erase_augmented` of a node with two children: the successor and its parent are
brought out, and the successor takes over the right child; gives its own right child too. -/
def detachSuccessor (fuel : Nat) (m : RbHeap) (child : NodePtr) :
    Option (RbHeap × NodePtr × NodePtr × Option NodePtr) := do
  match ← m.getChild .left child with
  | none =>
      -- case 2: the successor is the right child
      return (m, child, child, ← m.getChild .right child)
  | some tmp =>
      -- case 3: it is leftmost under the right child
      let (parent, successor) ← successorLoop fuel m child tmp
      let child₂ ← m.getChild .right successor
      let m ← m.setChild .left parent child₂
      let m ← m.setChild .right successor (some child)
      return (← m.rbSetParent child (some successor), parent, successor, child₂)

/-- `__rb_erase_augmented` without callbacks; gives `rebalance`. -/
def rbEraseAugmented (fuel : Nat) (m : RbHeap) (node : NodePtr) :
    Option (RbHeap × Option NodePtr) := do
  let child ← m.getChild .right node
  let tmp ← m.getChild .left node
  match tmp, child with
  | none, none =>
      let pc ← m.getParentColor node
      let m ← m.rbChangeChild node none (rbParentOf pc)
      return (m, if rbColorOf pc = .black then rbParentOf pc else none)
  | none, some child =>
      let pc ← m.getParentColor node
      let m ← m.rbChangeChild node (some child) (rbParentOf pc)
      return (← m.setPc child pc, none)
  | some tmp, none =>
      let pc ← m.getParentColor node
      let m ← m.setPc tmp pc
      return (← m.rbChangeChild node (some tmp) (rbParentOf pc), none)
  | some _, some child =>
      let (m, parent, successor, child₂) ← m.detachSuccessor fuel child
      let tmp ← m.getChild .left node
      let m ← m.setChild .left successor tmp
      let m ← m.rbSetParent (← tmp) (some successor)
      let pc ← m.getParentColor node
      let m ← m.rbChangeChild node (some successor) (rbParentOf pc)
      match child₂ with
      | some child₂ =>
          let m ← m.setPc successor pc
          return (← m.rbSetParentColor child₂ (some parent) .black, none)
      | none =>
          let pc₂ ← m.getParentColor successor
          let m ← m.setPc successor pc
          return (m, if rbColorOf pc₂ = .black then some parent else none)

/-- `rb_erase` -/
def rbErase (fuel : Nat) (m : RbHeap) (node : NodePtr) : Option RbHeap := do
  let (m, rebalance) ← m.rbEraseAugmented fuel node
  match rebalance with
  | none => return m
  | some parent => rbEraseColor fuel m none parent

/-! ## Walks -/

/-- `while (n->rb_left) n = n->rb_left;` -/
def leftmostLoop : Nat → RbHeap → NodePtr → Option NodePtr
  | 0, _, _ => none
  | fuel + 1, m, n => do
      match ← m.getChild .left n with
      | none => return n
      | some left => leftmostLoop fuel m left

/-- `rb_first` -/
def rbFirst (fuel : Nat) (m : RbHeap) : Option (Option NodePtr) :=
  match m.root with
  | none => some none
  | some n => (leftmostLoop fuel m n).map some

/-- `while ((parent = rb_parent(node)) && node == parent->rb_right) node = parent;` -/
def climbLoop : Nat → RbHeap → NodePtr → Option (Option NodePtr)
  | 0, _, _ => none
  | fuel + 1, m, node => do
      match ← m.rbParent node with
      | none => return none
      | some parent =>
          if some node = (← m.getChild .right parent) then climbLoop fuel m parent
          else return some parent

/-- `rb_next` -/
def rbNext (fuel : Nat) (m : RbHeap) (node : NodePtr) : Option (Option NodePtr) := do
  -- RB_EMPTY_NODE
  if (← m.getParentColor node) = node.addr then return none
  match ← m.getChild .right node with
  | some right => (leftmostLoop fuel m right).map some
  | none => climbLoop fuel m node

/-- The callers' searches. -/
def search (cut : NodePtr → Ordering) : Nat → RbHeap → Option NodePtr → Option (Option NodePtr)
  | 0, _, _ => none
  | _ + 1, _, none => some none
  | fuel + 1, m, some a => do
      match cut a with
      | .eq => return some a
      | .lt => search cut fuel m (← m.getChild .left a)
      | .gt => search cut fuel m (← m.getChild .right a)

/-- The callers' release of a tree: each node in turn is erased and freed, after the
next one has been looked up. -/
def freeLoop : Nat → RbHeap → Option NodePtr → Option RbHeap
  | 0, _, _ => none
  | _ + 1, m, none => some m
  | fuel + 1, m, some node => do
      let next ← rbNext fuel m node
      let m ← rbErase fuel m node
      freeLoop fuel (← m.free node) next

/-- `free_vma_nodes` -/
def freeVmaNodes : Nat → RbHeap → Option NodePtr → Option RbHeap
  | 0, _, _ => none
  | _ + 1, m, none => some m
  | fuel + 1, m, some node => do
      let left ← m.getChild .left node
      let m ← (if left.isSome then freeVmaNodes fuel m left else some m)
      let right ← m.getChild .right node
      let m ← (if right.isSome then freeVmaNodes fuel m right else some m)
      m.free node

/-- `free_vma_tree` -/
def freeVmaTree (fuel : Nat) (m : RbHeap) : Option RbHeap := do
  let m ← (if m.root.isSome then freeVmaNodes fuel m m.root else some m)
  return { m with root := none }

end RbHeap

/-! ## The packed word -/

theorem and_three_ptrWord (p : Option NodePtr) : ptrWord p &&& 3 = 0 := by
  cases p with
  | none => rfl
  | some p => exact p.aligned

@[simp] theorem rbParentOf_packed (p : Option NodePtr) (c : Color) :
    rbParentOf (packed p c) = p := by
  have hword : packed p c &&& ~~~3 = ptrWord p := by
    have hbit : ~~~3 &&& c.bit = 0 := by cases c <;> rfl
    rw [packed, UInt64.and_comm, and_or_distrib, hbit, UInt64.or_zero, UInt64.and_comm,
      and_mask_of_aligned (and_three_ptrWord p)]
  cases p with
  | none => exact dif_pos hword
  | some p =>
      have hne : packed (some p) c &&& ~~~3 ≠ 0 := hword ▸ p.ne_null
      rw [rbParentOf, dif_neg hne]
      simp only [hword, ptrWord]

@[simp] theorem rbColorOf_packed (p : Option NodePtr) (c : Color) :
    rbColorOf (packed p c) = c := by
  have hone : 1 &&& ptrWord p = 0 := by
    have hmask : (1 : UInt64) = 1 &&& 3 := rfl
    rw [hmask, UInt64.and_assoc, UInt64.and_comm 3, and_three_ptrWord, UInt64.and_zero]
  have hbit : packed p c &&& 1 = c.bit := by
    rw [packed, UInt64.and_comm, and_or_distrib, hone, UInt64.zero_or]
    cases c <;> rfl
  rw [rbColorOf, hbit]
  cases c <;> rfl

/-- Without a colour bit the word is the pointer. -/
@[simp] theorem wordPtr_packed_red (p : Option NodePtr) : wordPtr (packed p .red) = some p := by
  have hword : packed p .red = ptrWord p := UInt64.or_zero
  rw [wordPtr, dif_pos (hword ▸ and_three_ptrWord p)]
  cases p with
  | none => exact dif_pos hword
  | some p =>
      rw [dif_neg (hword ▸ p.ne_null)]
      simp only [hword, ptrWord]

theorem packed_red (p : Option NodePtr) : packed p .red = ptrWord p := UInt64.or_zero

@[simp] theorem packed_or_black (p : Option NodePtr) (c : Color) :
    packed p c ||| Color.black.bit = packed p .black := by
  rw [packed, packed, UInt64.or_assoc]
  cases c <;> rfl

theorem bit_or_ptrWord (p : Option NodePtr) (c : Color) : c.bit ||| ptrWord p = packed p c :=
  UInt64.or_comm _ _

/-! ## Nodes -/

/-- The pointer to a tree. -/
def RbTree.ptr : RbTree NodePtr → Option NodePtr
  | nil => none
  | node _ _ a _ => some a

@[simp] theorem RbTree.ptr_branch (side : Side) (c : Color) (t : RbTree NodePtr) (a : NodePtr)
    (s : RbTree NodePtr) : (branch side c t a s).ptr = some a := by
  cases side <;> rfl

theorem RbTree.color_branch (side : Side) (c : Color) (t : RbTree NodePtr) (a : NodePtr)
    (s : RbTree NodePtr) : (branch side c t a s).color = c := by
  cases side <;> rfl

theorem RbTree.zip_cons (t : RbTree α) (f : Frame α) (path : List (Frame α)) :
    zip t (f :: path) = zip (plug f t) path := rfl

@[simp] theorem RbTree.ptr_setBlack (t : RbTree NodePtr) : t.setBlack.ptr = t.ptr := by
  cases t <;> rfl

@[simp] theorem RbTree.setBlack_branch (side : Side) (c : Color) (t : RbTree α) (a : α)
    (s : RbTree α) : (branch side c t a s).setBlack = branch side .black t a s := by
  cases side <;> rfl

@[simp] theorem Side.other_other (side : Side) : side.other.other = side := by
  cases side <;> rfl

namespace RbNode

/-- The node of a parent, a colour, and the children on the given side and on the other. -/
def branch (parent : Option NodePtr) (c : Color) (side : Side) (near far : Option NodePtr) :
    RbNode where
  parentColor := packed parent c
  right := side.pick far near
  left := side.pick near far

variable {parent near far p : Option NodePtr} {c : Color} {side : Side}

@[simp] theorem parentColor_branch : (branch parent c side near far).parentColor = packed parent c :=
  rfl

@[simp] theorem child_branch : (branch parent c side near far).child side = near := by
  cases side <;> rfl

@[simp] theorem child_branch_other : (branch parent c side near far).child side.other = far := by
  cases side <;> rfl

@[simp] theorem setChild_branch :
    (branch parent c side near far).setChild side p = branch parent c side p far := by
  cases side <;> rfl

@[simp] theorem setChild_branch_other :
    (branch parent c side near far).setChild side.other p = branch parent c side near p := by
  cases side <;> rfl

@[simp] theorem branch_other :
    branch parent c side.other near far = branch parent c side far near := by
  cases side <;> rfl

theorem with_parentColor_branch (q : Option NodePtr) (d : Color) :
    ({ branch parent c side near far with parentColor := packed q d } : RbNode) =
      branch q d side near far := rfl

end RbNode

/-! ## A heap as a tree -/

/-- The parent of what is at the end of a path. -/
def parentOf (path : List (Frame α)) : Option α := path.head?.map Frame.val

@[simp] theorem parentOf_nil : parentOf ([] : List (Frame α)) = none := rfl

@[simp] theorem parentOf_cons (f : Frame α) (path : List (Frame α)) :
    parentOf (f :: path) = some f.val := rfl

/-- The records of a path. -/
def above (path : List (Frame α)) : List α := path.flatMap fun f => f.val :: f.sibling.toList

@[simp] theorem above_nil : above ([] : List (Frame α)) = [] := rfl

@[simp] theorem above_cons (f : Frame α) (path : List (Frame α)) :
    above (f :: path) = f.val :: (f.sibling.toList ++ above path) := rfl

theorem above_append (path rest : List (Frame α)) : above (path ++ rest) = above path ++ above rest :=
  List.flatMap_append

theorem toList_branch_perm (side : Side) (c : Color) (t : RbTree α) (a : α) (s : RbTree α) :
    (RbTree.branch side c t a s).toList.Perm (t.toList ++ a :: s.toList) := by
  cases side with
  | left => exact List.Perm.refl _
  | right =>
      change (s.toList ++ a :: t.toList).Perm _
      exact List.perm_middle.trans ((List.perm_append_comm.cons a).trans List.perm_middle.symm)

theorem toList_zip_perm (t : RbTree α) (path : List (Frame α)) :
    (RbTree.zip t path).toList.Perm (t.toList ++ above path) := by
  induction path generalizing t with
  | nil => simp [RbTree.zip]
  | cons f path ih =>
      rw [RbTree.zip_cons, RbTree.plug_eq_branch]
      refine (ih _).trans ?_
      rw [above_cons, ← List.cons_append, ← List.append_assoc]
      exact (toList_branch_perm ..).append_right _

namespace RbHeap

/-- Below `parent`, the nodes are those of the tree. -/
def Subtree (m : RbHeap) (parent : Option NodePtr) : RbTree NodePtr → Prop
  | .nil => True
  | .node c l a r =>
      m.nodes a = some (.branch parent c .left l.ptr r.ptr) ∧ m.Subtree (some a) l ∧
        m.Subtree (some a) r

/-- The nodes of a path, up to the root pointer, with `hole` for the child at its end. -/
def Around (m : RbHeap) : List (Frame NodePtr) → Option NodePtr → Prop
  | [], hole => m.root = hole
  | f :: path, hole =>
      m.nodes f.val = some (.branch (parentOf path) f.color f.side hole f.sibling.ptr) ∧
        m.Subtree (some f.val) f.sibling ∧ m.Around path (some f.val)

/-- The root pointer is that of a tree, and its nodes are there. -/
structure Represents (m : RbHeap) (t : RbTree NodePtr) : Prop where
  root_eq : m.root = t.ptr
  subtree : m.Subtree none t
  nodup : t.toList.Nodup

/-- The two heaps agree but for these nodes. -/
def SameBut (m m' : RbHeap) (as : List NodePtr) : Prop := ∀ a ∉ as, m'.nodes a = m.nodes a

section

variable {m m' : RbHeap} {parent p q hole : Option NodePtr} {a b : NodePtr} {c d : Color}
  {side : Side} {t s l r : RbTree NodePtr} {path : List (Frame NodePtr)} {n : RbNode}

@[simp] theorem nodes_put_self : (m.put a n).nodes a = some n := Function.update_self ..

theorem nodes_put_of_ne (h : b ≠ a) : (m.put a n).nodes b = m.nodes b :=
  Function.update_of_ne h _ _

@[simp] theorem root_put : (m.put a n).root = m.root := rfl

/-- A node that is written as it was. -/
theorem put_eq_self (h : m.nodes a = some n) : m.put a n = m := by
  rw [put, ← h, Function.update_eq_self]

theorem modify_eq {f : RbNode → RbNode} (h : m.nodes a = some n) :
    m.modify a f = some (m.put a (f n)) := by
  rw [modify, h, Option.map_some]

@[simp] theorem subtree_nil : m.Subtree parent .nil := trivial

theorem subtree_branch :
    m.Subtree parent (.branch side c t a s) ↔
      m.nodes a = some (.branch parent c side t.ptr s.ptr) ∧ m.Subtree (some a) t ∧
        m.Subtree (some a) s := by
  cases side with
  | left => exact Iff.rfl
  | right =>
      constructor
      · rintro ⟨hnode, hs, ht⟩
        exact ⟨hnode, ht, hs⟩
      · rintro ⟨hnode, ht, hs⟩
        exact ⟨hnode, hs, ht⟩

/-- A subtree depends on its own nodes only. -/
theorem Subtree.congr (h : m.Subtree parent t) (hsame : ∀ a ∈ t.toList, m'.nodes a = m.nodes a) :
    m'.Subtree parent t := by
  induction t generalizing parent with
  | nil => trivial
  | node c l a r ihl ihr =>
      simp only [RbTree.toList, List.mem_append, List.mem_cons] at hsame
      obtain ⟨hnode, hl, hr⟩ := h
      exact ⟨(hsame a (.inr (.inl rfl))).trans hnode,
        ihl hl fun b hb => hsame b (.inl hb), ihr hr fun b hb => hsame b (.inr (.inr hb))⟩

/-- And the surroundings on theirs, and the root pointer. -/
theorem Around.congr (h : m.Around path hole) (hroot : m'.root = m.root)
    (hsame : ∀ a ∈ above path, m'.nodes a = m.nodes a) : m'.Around path hole := by
  induction path generalizing hole with
  | nil => exact hroot.trans h
  | cons f path ih =>
      simp only [above_cons, List.mem_cons, List.mem_append] at hsame
      obtain ⟨hnode, hsibling, hpath⟩ := h
      exact ⟨(hsame f.val (.inl rfl)).trans hnode,
        hsibling.congr fun b hb => hsame b (.inr (.inl hb)),
        ih hpath fun b hb => hsame b (.inr (.inr hb))⟩

/-- **A heap is a tree** when it is one below and around any of its places. -/
theorem represents_zip :
    m.Represents (RbTree.zip t path) ↔
      m.Subtree (parentOf path) t ∧ m.Around path t.ptr ∧ (t.toList ++ above path).Nodup := by
  have hzip : m.root = (RbTree.zip t path).ptr ∧ m.Subtree none (RbTree.zip t path) ↔
      m.Subtree (parentOf path) t ∧ m.Around path t.ptr := by
    induction path generalizing t with
    | nil => exact and_comm
    | cons f path ih =>
        rw [RbTree.zip_cons, ih, RbTree.plug_eq_branch, subtree_branch,
          RbTree.ptr_branch, Around, parentOf_cons]
        tauto
  rw [← (toList_zip_perm t path).nodup_iff, ← and_assoc, ← hzip]
  exact ⟨fun ⟨hroot, hsub, hnodup⟩ => ⟨⟨hroot, hsub⟩, hnodup⟩,
    fun ⟨⟨hroot, hsub⟩, hnodup⟩ => ⟨hroot, hsub, hnodup⟩⟩

/-! ## The helpers -/

theorem getChild_eq (h : m.nodes a = some n) : m.getChild side a = some (n.child side) := by
  rw [getChild, h, Option.map_some]

theorem setChild_eq (h : m.nodes a = some n) :
    m.setChild side a p = some (m.put a (n.setChild side p)) := modify_eq h

theorem getParentColor_eq (h : m.nodes a = some n) : m.getParentColor a = some n.parentColor := by
  rw [getParentColor, h, Option.map_some]

theorem setPc_eq {pc : UInt64} (h : m.nodes a = some n) :
    m.setPc a pc = some (m.put a { n with parentColor := pc }) := modify_eq h

theorem rbSetParentColor_eq (h : m.nodes a = some n) :
    m.rbSetParentColor a p c = some (m.put a { n with parentColor := packed p c }) := setPc_eq h

theorem rbParent_eq (h : m.nodes a = some (.branch parent c side p q)) :
    m.rbParent a = some parent := by
  rw [rbParent, getParentColor_eq h, Option.map_some, RbNode.parentColor_branch, rbParentOf_packed]

theorem rbColor_eq (h : m.nodes a = some (.branch parent c side p q)) : m.rbColor a = some c := by
  rw [rbColor, getParentColor_eq h, Option.map_some, RbNode.parentColor_branch, rbColorOf_packed]

theorem rbRedParent_eq (h : m.nodes a = some (.branch parent .red side p q)) :
    m.rbRedParent a = some parent := by
  simp [rbRedParent, getParentColor_eq h]

theorem rbSetParent_eq (h : m.nodes a = some (.branch parent c side p q)) {r : Option NodePtr} :
    m.rbSetParent a r = some (m.put a (.branch r c side p q)) := by
  simp [rbSetParent, rbColor_eq h, setPc_eq h, bit_or_ptrWord, RbNode.with_parentColor_branch]

theorem rbSetBlack_eq (h : m.nodes a = some (.branch parent c side p q)) :
    m.rbSetBlack a = some (m.put a (.branch parent .black side p q)) := by
  simp [rbSetBlack, getParentColor_eq h, setPc_eq h, RbNode.with_parentColor_branch]

theorem Subtree.isRed (h : m.Subtree parent t) : m.isRed t.ptr = some (t.color == .red) := by
  cases t with
  | nil => rfl
  | node c l a r =>
      rw [RbTree.ptr, RbHeap.isRed, rbColor_eq h.1]
      rfl

/-- The node at the top of a subtree is written, and nothing below it. -/
theorem Subtree.put_top (h : m.Subtree parent (.node c l b r)) (hb : b ∉ l.toList ∧ b ∉ r.toList) :
    (m.put b (.branch q d .left l.ptr r.ptr)).Subtree q (.node d l b r) :=
  ⟨nodes_put_self,
    h.2.1.congr fun _ ha => nodes_put_of_ne (ne_of_mem_of_not_mem ha hb.1),
    h.2.2.congr fun _ ha => nodes_put_of_ne (ne_of_mem_of_not_mem ha hb.2)⟩

/-- A subtree gets another parent and turns black. -/
theorem Subtree.setParentColorIf (h : m.Subtree parent t) (hnodup : t.toList.Nodup) :
    ∃ m', m.setParentColorIf t.ptr p .black = some m' ∧ m'.Subtree p t.setBlack ∧
      m.SameBut m' t.toList ∧ m'.root = m.root := by
  cases t with
  | nil => exact ⟨m, rfl, trivial, fun _ _ => rfl, rfl⟩
  | node c l b r =>
      have hb : b ∉ l.toList ∧ b ∉ r.toList := by
        rw [RbTree.toList] at hnodup
        grind
      refine ⟨_, rbSetParentColor_eq h.1, h.put_top hb, fun a ha => ?_, rfl⟩
      have hne : a ≠ b := fun heq => ha (by simp [RbTree.toList, heq])
      exact nodes_put_of_ne hne

/-- A subtree gets another parent and keeps its colour. -/
theorem Subtree.setParentIf (h : m.Subtree parent t) (hnodup : t.toList.Nodup) :
    ∃ m', m.setParentIf t.ptr p = some m' ∧ m'.Subtree p t ∧ m.SameBut m' t.toList ∧
      m'.root = m.root := by
  cases t with
  | nil => exact ⟨m, rfl, trivial, fun _ _ => rfl, rfl⟩
  | node c l b r =>
      have hb : b ∉ l.toList ∧ b ∉ r.toList := by
        rw [RbTree.toList] at hnodup
        grind
      refine ⟨_, rbSetParent_eq h.1, h.put_top hb, fun a ha => ?_, rfl⟩
      have hne : a ≠ b := fun heq => ha (by simp [RbTree.toList, heq])
      exact nodes_put_of_ne hne

/-- The pointer to a tree is in it. -/
theorem mem_of_ptr (h : t.ptr = some a) : a ∈ t.toList := by
  cases t with
  | nil => cases h
  | node c l b r =>
      obtain rfl := Option.some.inj h
      simp [RbTree.toList]

/-- Where the pointer to what is at the end of a path is kept. -/
def linkOf : List (Frame NodePtr) → Link
  | [] => .root
  | f :: _ => .child f.side f.val

theorem Around.load (h : m.Around path hole) : (linkOf path).load m = some hole := by
  cases path with
  | nil => exact congrArg some h
  | cons f path =>
      rw [linkOf, Link.load, getChild_eq h.1, RbNode.child_branch]

/-- **Another child** takes the place at the end of a path. -/
theorem Around.store (h : m.Around path hole) (hnodup : (above path).Nodup)
    (new : Option NodePtr) :
    ∃ m', (linkOf path).store m new = some m' ∧ m'.Around path new ∧ m.SameBut m' (above path) := by
  cases path with
  | nil => exact ⟨{ m with root := new }, rfl, rfl, fun _ _ => rfl⟩
  | cons f path =>
      obtain ⟨hnode, hsibling, hpath⟩ := h
      simp only [above_cons, List.mem_append, not_or, List.nodup_cons] at hnodup
      obtain ⟨⟨hbs, hbpath⟩, -⟩ := hnodup
      refine ⟨_, setChild_eq hnode, ⟨by simp, ?_, ?_⟩, fun x hx => ?_⟩
      · exact hsibling.congr fun x hx => nodes_put_of_ne (ne_of_mem_of_not_mem hx hbs)
      · exact hpath.congr rfl fun x hx => nodes_put_of_ne (ne_of_mem_of_not_mem hx hbpath)
      · rw [above_cons, List.mem_cons, not_or] at hx
        exact nodes_put_of_ne hx.1

/-- Which child is meant is read off the old one. -/
theorem Around.rbChangeChild_eq (h : m.Around path (some a)) (ha : a ∉ above path)
    (new : Option NodePtr) : m.rbChangeChild a new (parentOf path) = (linkOf path).store m new := by
  cases path with
  | nil => rfl
  | cons f path =>
      obtain ⟨hnode, -⟩ := h
      obtain ⟨side, cf, b, s⟩ := f
      simp only [above_cons, List.mem_cons, List.mem_append, not_or] at hnode ha
      cases side with
      | left =>
          simp [RbHeap.rbChangeChild, getChild_eq hnode, RbNode.child, RbNode.branch, Side.pick,
            linkOf, Link.store]
      | right =>
          have hne : s.ptr ≠ some a := fun heq => ha.2.1 (mem_of_ptr heq)
          simp [RbHeap.rbChangeChild, getChild_eq hnode, RbNode.child, RbNode.branch, Side.pick,
            linkOf, Link.store, hne]

theorem Around.rbChangeChild (h : m.Around path (some a)) (hnodup : (above path).Nodup)
    (ha : a ∉ above path) (new : Option NodePtr) :
    ∃ m', m.rbChangeChild a new (parentOf path) = some m' ∧ m'.Around path new ∧
      m.SameBut m' (above path) := by
  rw [h.rbChangeChild_eq ha]
  exact h.store hnodup new

/-- **The end of a rotation**: `new` takes the place and the colour of `old`, which comes
under it with the colour `d`. -/
theorem Around.rbRotateSetParents {side' : Side} {x y : Option NodePtr}
    (h : m.Around path (some a))
    (hold : m.nodes a = some (.branch (parentOf path) c side p q))
    (hnew : m.nodes b = some (.branch parent c' side' x y))
    (hnodup : (a :: b :: above path).Nodup) (d : Color) :
    ∃ m', m.rbRotateSetParents a b d = some m' ∧ m'.Around path (some b) ∧
      m'.nodes a = some (.branch (some b) d side p q) ∧
      m'.nodes b = some (.branch (parentOf path) c side' x y) ∧
      m.SameBut m' (a :: b :: above path) := by
  simp only [List.nodup_cons, List.mem_cons, not_or] at hnodup
  obtain ⟨⟨hab, ha⟩, hb, hnodup⟩ := hnodup
  let m₁ := m.put b (.branch (parentOf path) c side' x y)
  have hold₁ : m₁.nodes a = some (.branch (parentOf path) c side p q) :=
    (nodes_put_of_ne hab).trans hold
  let m₂ := m₁.put a (.branch (some b) d side p q)
  have hsame : ∀ x, x ≠ a → x ≠ b → m₂.nodes x = m.nodes x := fun x hxa hxb =>
    (nodes_put_of_ne hxa).trans (nodes_put_of_ne hxb)
  have haround : m₂.Around path (some a) := h.congr rfl fun x hx =>
    hsame x (ne_of_mem_of_not_mem hx ha) (ne_of_mem_of_not_mem hx hb)
  obtain ⟨m', hchange, haround', hsame'⟩ := haround.rbChangeChild hnodup ha (some b)
  refine ⟨m', ?_, haround', ?_, ?_, fun x hx => ?_⟩
  · simp [RbHeap.rbRotateSetParents, rbParent_eq hold, getParentColor_eq hold, setPc_eq hnew,
      RbNode.with_parentColor_branch]
    change (m₁.rbSetParentColor a (some b) d).bind _ = _
    rw [rbSetParentColor_eq hold₁]
    exact hchange
  · exact (hsame' a ha).trans nodes_put_self
  · exact (hsame' b hb).trans ((nodes_put_of_ne (Ne.symm hab)).trans nodes_put_self)
  · simp only [List.mem_cons, not_or] at hx
    exact (hsame' x hx.2.2).trans (hsame x hx.1 hx.2.1)

end

end RbHeap

end Profiling
