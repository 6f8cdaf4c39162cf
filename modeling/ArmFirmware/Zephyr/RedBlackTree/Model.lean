import ArmFirmware.Library.RedBlack

/-! The red-black tree of `lib/utils/rb.c`: nodes linked by child pointers only, and fix-ups
that work on an explicit stack of ancestors. A pointer is a node or null; an operation has
no result when it follows a null pointer or leaves its stack. -/
namespace ArmFirmware.Zephyr.RedBlackTree
open Library.RedBlack (Color Side)

/-- `struct rbnode`, with the colour bit of `children[0]` as a field of its own. -/
structure Rbnode (α : Type*) where
  left : Option α
  right : Option α
  color : Color

/-- `struct rbtree`, with the nodes in memory. -/
structure Rbtree (α : Type*) where
  root : Option α
  lessthanFn : α → α → Bool
  maxDepth : ℕ
  mem : α → Rbnode α

/-- The nodes and the stack of `max_depth + 1` entries that an operation works on; entries
not yet written hold nothing. -/
structure State (α : Type*) where
  mem : α → Rbnode α
  stack : List (Option α)

variable {α : Type*} [DecidableEq α]

section Nodes
variable (mem : α → Rbnode α)

def getChild (n : α) : Side → Option α
  | .left => (mem n).left
  | .right => (mem n).right

def setNode (n : α) (f : Rbnode α → Rbnode α) : α → Rbnode α :=
  fun x => if x = n then f (mem x) else mem x

def setChild (n : α) (side : Side) (val : Option α) : α → Rbnode α :=
  setNode mem n (match side with
    | .left => fun r => {r with left := val}
    | .right => fun r => {r with right := val})

def getColor (n : α) : Color := (mem n).color

def setColor (n : α) (color : Color) : α → Rbnode α :=
  setNode mem n fun r => {r with color := color}

def isBlack (n : α) : Bool := getColor mem n == .black

def isRed (n : α) : Bool := getColor mem n == .red

def nullOrBlack : Option α → Bool
  | none => true
  | some c => isBlack mem c

def getSide (parent child : α) : Side :=
  if getChild mem parent .right = some child then .right else .left

end Nodes

namespace State
variable (st : State α)

def fresh (mem : α → Rbnode α) (maxDepth : ℕ) : State α :=
  ⟨mem,List.replicate (maxDepth+1) none⟩

def read (i : ℕ) : Option α := (st.stack[i]?).join

def below (stacksz k : ℕ) : Option α := if k ≤ stacksz then st.read (stacksz-k) else none

def write (i : ℕ) (n : α) : Option (State α) :=
  if i < st.stack.length then some {st with stack := st.stack.set i (some n)} else none

end State

section Search
variable (lessthanFn : α → α → Bool) (node : α)

/-- The loop of `find_and_stack`. It pushes in every round, so rounds beyond the length of
the stack would write outside of it. -/
def findAndStackLoop : ℕ → State α → ℕ → Option (State α × ℕ)
  | 0,_,_ => none
  | rounds+1,st,sz => do
    let top ← st.below sz 1
    if top = node then some (st,sz)
    else
      let side := if lessthanFn node top then Side.left else .right
      match getChild st.mem top side with
      | some ch => do
        let st ← st.write sz ch
        findAndStackLoop rounds st (sz+1)
      | none => some (st,sz)

def findAndStack (root : α) (st : State α) : Option (State α × ℕ) := do
  let st ← st.write 0 root
  findAndStackLoop lessthanFn node (st.stack.length+1) st 1

end Search

/-- The write of a rotation to the node above the two that change places, if there is one. -/
def relinkAbove (st : State α) (stacksz : ℕ) (parent child : α) : Option (α → Rbnode α) :=
  if 3 ≤ stacksz then
    (st.below stacksz 3).map fun grandparent =>
      setChild st.mem grandparent (getSide st.mem grandparent parent) (some child)
  else some st.mem

def rotate (st : State α) (stacksz : ℕ) : Option (State α) := do
  let parent ← st.below stacksz 2
  let child ← st.below stacksz 1
  let side := getSide st.mem parent child
  let a := getChild st.mem child side
  let b := getChild st.mem child side.flip
  let mem ← relinkAbove st stacksz parent child
  let mem := setChild mem child side a
  let mem := setChild mem child side.flip (some parent)
  let mem := setChild mem parent side b
  let st ← State.write ⟨mem,st.stack⟩ (stacksz-2) child
  st.write (stacksz-1) parent

/-- The part of `fix_extra_red` for a black aunt: at most two rotations. -/
def rotateExtraRed (st : State α) (stacksz : ℕ) (node parent : α) (side : Side) : Option (State α) := do
  let parentSide := getSide st.mem parent node
  let st ← (if parentSide ≠ side then rotate st stacksz else some st)
  let st ← rotate st (stacksz-1)
  let upper ← st.below stacksz 3
  let lower ← st.below stacksz 2
  some {st with mem := setColor (setColor st.mem upper .black) lower .red}

def fixExtraRed : ℕ → State α → Option (State α)
  | sz+2,st => do
    let node ← st.below (sz+2) 1
    let parent ← st.below (sz+2) 2
    if isBlack st.mem parent then some st
    else
      let grandparent ← st.below (sz+2) 3
      let side := getSide st.mem grandparent parent
      match getChild st.mem grandparent side.flip with
      | some aunt =>
        if isRed st.mem aunt then
          let mem := setColor st.mem grandparent .red
          let mem := setColor mem parent .black
          let mem := setColor mem aunt .black
          fixExtraRed sz {st with mem := mem}
        else rotateExtraRed st (sz+2) node parent side
      | none => rotateExtraRed st (sz+2) node parent side
  | _,st => do
    -- the node is now the root, which must be black
    let root ← st.read 0
    some {st with mem := setColor st.mem root .black}

def rbInsert (tree : Rbtree α) (node : α) : Option (Rbtree α) :=
  let mem := setChild (setChild tree.mem node .left none) node .right none
  match tree.root with
  | none =>
    some {tree with root := some node, maxDepth := 1, mem := setColor mem node .black}
  | some root => do
    let (st,stacksz) ← findAndStack tree.lessthanFn node root (.fresh mem tree.maxDepth)
    let parent ← st.below stacksz 1
    let side := if tree.lessthanFn node parent then Side.left else .right
    let mem := setChild st.mem parent side (some node)
    let mem := setColor mem node .red
    let st ← State.write ⟨mem,st.stack⟩ stacksz node
    let st ← fixExtraRed (stacksz+1) st
    let root ← st.read 0
    some {tree with
      root := some root
      maxDepth := if tree.maxDepth < stacksz+1 then stacksz+1 else tree.maxDepth
      mem := st.mem}

/-- The first part of a round of `fix_missing_black`: guarantee that the sibling is black,
rotating the node down a level if needed. -/
def blackenSibling (st : State α) (stacksz : ℕ) (n parent sib : α) (nSide : Side) : Option (State α × ℕ × α × α) :=
  if isBlack st.mem sib then some (st,stacksz,parent,sib)
  else do
    let st ← st.write (stacksz-1) sib
    let st ← rotate st stacksz
    let mem := setColor st.mem parent .red
    let mem := setColor mem sib .black
    let st ← State.write ⟨mem,st.stack⟩ stacksz n
    let parent ← st.below (stacksz+1) 2
    let sib ← getChild st.mem parent nSide.flip
    some (st,stacksz+1,parent,sib)

/-- The rotation that makes the far child of the sibling red. -/
def redInnerOut (st : State α) (stacksz : ℕ) (n sib : α) (nSide : Side) : Option (State α × α × α) := do
  let inner ← getChild st.mem sib nSide
  let st ← st.write (stacksz-1) sib
  let st ← st.write stacksz inner
  let st ← rotate st (stacksz+1)
  let mem := setColor st.mem sib .red
  let mem := setColor mem inner .black
  let sib ← State.below ⟨mem,st.stack⟩ (stacksz+1) 2
  let outer ← getChild mem sib nSide.flip
  let st ← State.write ⟨mem,st.stack⟩ (stacksz+1-2) n
  some (st,sib,outer)

/-- The sibling has a red child; afterwards its far child is definitely red. -/
def redOuter (st : State α) (stacksz : ℕ) (n sib : α) (nSide : Side) : Option (State α × α × α) :=
  match getChild st.mem sib nSide.flip with
  | some outer =>
    if isRed st.mem outer then some (st,sib,outer) else redInnerOut st stacksz n sib nSide
  | none => redInnerOut st stacksz n sib nSide

/-- The last step: the sibling, with a red child in the far slot, is rotated above the
parent, and a removed node is cut off. -/
def rotateSibling (nullNode : α) (st : State α) (stacksz : ℕ) (n parent sib outer : α)
    (nSide : Side) : Option (State α) := do
  let mem := setColor st.mem sib (getColor st.mem parent)
  let mem := setColor mem parent .black
  let mem := setColor mem outer .black
  let st ← State.write ⟨mem,st.stack⟩ (stacksz-1) sib
  let st ← rotate st stacksz
  some ⟨if n = nullNode then setChild st.mem parent nSide none else st.mem,st.stack⟩

/-- The second part of a round: whether the loop goes on from the parent. -/
def resolveSibling (nullNode : α) (st : State α) (stacksz : ℕ) (n parent sib : α)
    (nSide : Side) : Option (State α × Bool) :=
  if nullOrBlack st.mem (getChild st.mem sib .left) &&
      nullOrBlack st.mem (getChild st.mem sib .right) then
    let mem := if n = nullNode then setChild st.mem parent nSide none else st.mem
    let mem := setColor mem sib .red
    if isBlack mem parent then some (⟨mem,st.stack⟩,true)
    else some (⟨setColor mem parent .black,st.stack⟩,false)
  else do
    let (st,sib,outer) ← redOuter st stacksz n sib nSide
    (rotateSibling nullNode st stacksz n parent sib outer nSide).map (·,false)

/-- `fix_missing_black`, for at most the given number of rounds. -/
def fixMissingBlack (nullNode : α) : ℕ → State α → ℕ → Option (State α)
  | 0,_,_ => none
  | rounds+1,st,stacksz =>
    if stacksz ≤ 1 then some st
    else do
      let n ← st.below stacksz 1
      let parent ← st.below stacksz 2
      let nSide := getSide st.mem parent n
      let sib ← getChild st.mem parent nSide.flip
      let (st,stacksz,parent,sib) ← blackenSibling st stacksz n parent sib nSide
      let (st,again) ← resolveSibling nullNode st stacksz n parent sib nSide
      if again then fixMissingBlack nullNode rounds st (stacksz-1) else some st

/-- Push the chain of right children below a node of `rb_remove`. -/
def stackRightLimb : ℕ → State α → ℕ → α → Option (State α × ℕ × α)
  | 0,_,_,_ => none
  | rounds+1,st,stacksz,node2 =>
    match getChild st.mem node2 .right with
    | some ch => do
      let st ← st.write stacksz ch
      stackRightLimb rounds st (stacksz+1) ch
    | none => some (st,stacksz,node2)

/-- The pointers and colours of the two nodes that change places in `rb_remove`, and of the
parent of the lower one. -/
def swapBelow (mem : α → Rbnode α) (loparent node node2 : α) : α → Rbnode α :=
  let mem := if loparent = node then
      let mem := setChild mem node .left (getChild mem node2 .left)
      setChild mem node2 .left (some node)
    else
      let mem := setChild mem loparent (getSide mem loparent node2) (some node)
      let tmp := getChild mem node .left
      let mem := setChild mem node .left (getChild mem node2 .left)
      setChild mem node2 .left tmp
  let mem := setChild mem node2 .right (getChild mem node .right)
  let mem := setChild mem node .right none
  let ctmp := getColor mem node
  let mem := setColor mem node (getColor mem node2)
  setColor mem node2 ctmp

/-- All pointers that change when a node changes places with its predecessor. -/
def swapLinks (mem : α → Rbnode α) (hiparent : Option α) (loparent node node2 : α) : α → Rbnode α :=
  let mem := match hiparent with
    | some hi => setChild mem hi (getSide mem hi node) (some node2)
    | none => mem
  swapBelow mem loparent node node2

/-- The part of `rb_remove` for a node with two children. The root is read from the stack at
the end, also where the source sets it here. -/
def swapWithPredecessor (st : State α) (stacksz : ℕ) (node : α) : Option (State α × ℕ) := do
  let node2 ← getChild st.mem node .left
  let hiparent := if 1 < stacksz then st.below stacksz 2 else none
  let st ← st.write stacksz node2
  let (st,sz,node2) ← stackRightLimb (st.stack.length+1) st (stacksz+1) node2
  let loparent ← st.below sz 2
  let mem := swapLinks st.mem hiparent loparent node node2
  let tmp ← st.below stacksz 1
  let low ← st.below sz 1
  let st ← State.write ⟨mem,st.stack⟩ (stacksz-1) low
  let st ← st.write (sz-1) tmp
  some (st,sz)

def onlyChild (mem : α → Rbnode α) (node : α) : Option α :=
  match getChild mem node .left with
  | some c => some c
  | none => getChild mem node .right

def unlinkBelow (st : State α) (stacksz : ℕ) (node parent : α) : Option (State α) :=
  match onlyChild st.mem node with
  | none =>
    if isBlack st.mem node then fixMissingBlack node (stacksz+1) st stacksz
    else some ⟨setChild st.mem parent (getSide st.mem parent node) none,st.stack⟩
  | some c =>
    let mem := setChild st.mem parent (getSide st.mem parent node) (some c)
    -- the assertion that not both nodes are red
    if isBlack mem node || isBlack mem c then
      some ⟨if isRed mem node || isRed mem c then setColor mem c .black else mem,st.stack⟩
    else none

/-- The end of `rb_remove`: unlink a node that has at most one child. -/
def unlink (tree : Rbtree α) (st : State α) (stacksz : ℕ) (node : α) : Option (Rbtree α) :=
  if stacksz < 2 then
    match onlyChild st.mem node with
    | some c => some {tree with root := some c, mem := setColor st.mem c .black}
    | none => some {tree with root := none, maxDepth := 0, mem := st.mem}
  else do
    let parent ← st.below stacksz 2
    let st ← unlinkBelow st stacksz node parent
    let root ← st.read 0
    some {tree with root := some root, mem := st.mem}

def rbRemove (tree : Rbtree α) (node : α) : Option (Rbtree α) := do
  let root ← tree.root
  let (st,stacksz) ← findAndStack tree.lessthanFn node root (.fresh tree.mem tree.maxDepth)
  let top ← st.below stacksz 1
  if node ≠ top then some {tree with mem := st.mem}
  else
    let (st,stacksz) ←
      (if (getChild st.mem node .left).isSome && (getChild st.mem node .right).isSome then
        swapWithPredecessor st stacksz node
      else some (st,stacksz))
    unlink tree st stacksz node

/-- The loop of `z_rb_get_minmax`, for at most the given number of rounds. -/
def minmaxLoop (mem : α → Rbnode α) (side : Side) : ℕ → α → Option α
  | 0,_ => none
  | rounds+1,n =>
    match getChild mem n side with
    | some ch => minmaxLoop mem side rounds ch
    | none => some n

/-- `z_rb_get_minmax`: null for an empty tree. -/
def zRbGetMinmax (tree : Rbtree α) (side : Side) : Option (Option α) :=
  match tree.root with
  | none => some none
  | some root => (minmaxLoop tree.mem side tree.maxDepth root).map some

end ArmFirmware.Zephyr.RedBlackTree
