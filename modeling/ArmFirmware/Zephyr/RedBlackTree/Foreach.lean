import ArmFirmware.Zephyr.RedBlackTree.Insert

/-! The iteration `RB_FOR_EACH`, whose stack has `max_depth` entries. It visits the nodes in
order, and starts again once it has returned null. -/
namespace ArmFirmware.Zephyr.RedBlackTree
open Library.RedBlack Library.RedBlack.ColorTree Option ColorTree

variable {α : Type*}

/-- `struct _rb_foreach`, with the number of stacked nodes `top + 1` in place of `top`.
Entries not yet written hold nothing. -/
structure Foreach (α : Type*) where
  stack : List (Option α)
  isLeft : List (Option Bool)
  count : ℕ

def Foreach.init (tree : Rbtree α) : Foreach α :=
  ⟨List.replicate tree.maxDepth none,List.replicate tree.maxDepth none,0⟩

def Foreach.push (f : Foreach α) (n : α) (left : Bool) : Option (Foreach α) :=
  if f.count < f.stack.length ∧ f.count < f.isLeft.length then
    some ⟨f.stack.set f.count (some n),f.isLeft.set f.count (some left),f.count+1⟩
  else none

def Foreach.current (f : Foreach α) : Option α :=
  if 0 < f.count then (f.stack[f.count-1]?).join else none

def Foreach.currentLeft (f : Foreach α) : Option Bool :=
  if 0 < f.count then (f.isLeft[f.count-1]?).join else none

def stackLeftChildren (mem : α → Rbnode α) : ℕ → Foreach α → Option α → Option (Foreach α)
  | 0,_,_ => none
  | _+1,f,none => some f
  | rounds+1,f,some n => do
    let f ← f.push n true
    stackLeftChildren mem rounds f (getChild mem n .left)

def stackLeftLimb (mem : α → Rbnode α) (n : α) (f : Foreach α) : Option (Foreach α × Option α) := do
  let f ← f.push n false
  let f ← stackLeftChildren mem (f.stack.length+1) f (getChild mem n .left)
  let n ← f.current
  some (f,some n)

/-- Walk up the stack looking for a left child, and from it to its parent: the number of
nodes that stay on the stack. -/
def walkUp (isLeft : List (Option Bool)) : ℕ → Option ℕ
  | 0 => none
  | 1 => some 0
  | k+2 => do
    let left ← (isLeft[k+1]?).join
    if left then some (k+1) else walkUp isLeft (k+1)

/-- The node that an iteration returns after it went up, or null once it has passed the
root. -/
def Foreach.returned (f : Foreach α) : Option (Foreach α × Option α) :=
  if f.count = 0 then some (f,none) else f.current.map fun n => (f,some n)

def zRbForeachNext (tree : Rbtree α) (f : Foreach α) : Option (Foreach α × Option α) :=
  match tree.root with
  | none => some (f,none)
  | some root =>
    if f.count = 0 then stackLeftLimb tree.mem root f
    else do
      let cur ← f.current
      match getChild tree.mem cur .right with
      | some n => stackLeftLimb tree.mem n f
      | none => f.currentLeft.bind fun left =>
        if left then Foreach.returned {f with count := f.count-1}
        else (walkUp f.isLeft f.count).bind fun count => Foreach.returned {f with count := count}

/-- The flags on the stack: whether each node is the left child of the one below it. The root
counts as a right child. -/
def Flags (isLeft : List (Option Bool)) : List (Frame α) → Prop
  | [] => isLeft[0]? = some (some false)
  | g::path => isLeft[path.length+1]? = some (some (decide (g.side = .left))) ∧ Flags isLeft path

/-- The nodes that the coming calls return before null: all of them, or those after the
current node. -/
inductive Upcoming (T : ColorTree α) (f : Foreach α) : List α → Prop
  | start (hcount : f.count = 0) : Upcoming T f T.inorder
  | node {path c l x r} (htree : plug path (.node c l x r) = T) (hcount : f.count = path.length+1)
      (hstack : OnStack f.stack (x::ancestors path)) (hflags : Flags f.isLeft path) :
      Upcoming T f (r.inorder ++ after path)

section Steps
variable {tree : Rbtree α} {T : ColorTree α} {f : Foreach α} {isLeft : List (Option Bool)}
  {path : List (Frame α)}

lemma OnStack.of_append {stack : List (Option α)} {upper lower : List α}
    (h : OnStack stack (upper ++ lower)) : OnStack stack lower := by
  induction upper with
  | nil => exact h
  | cons x upper ih => exact ih h.2

lemma Flags.of_append {upper : List (Frame α)} (h : Flags isLeft (upper ++ path)) : Flags isLeft path := by
  induction upper with
  | nil => exact h
  | cons g upper ih => exact ih h.2

lemma Flags.set_of_le {i : ℕ} {v : Option Bool} (h : Flags isLeft path) (hi : path.length < i) :
    Flags (isLeft.set i v) path := by
  induction path with
  | nil => exact (List.getElem?_set_ne (by simp at hi; omega)).trans h
  | cons g path ih =>
    rw [List.length_cons] at hi
    exact ⟨(List.getElem?_set_ne (by omega)).trans h.1,ih h.2 (by omega)⟩

lemma current_eq {x : α} (hcount : f.count = path.length+1)
    (hs : OnStack f.stack (x::ancestors path)) : f.current = some x := by
  have htop := hs.1
  rw [ancestors_length] at htop
  rw [Foreach.current,hcount,if_pos (by omega),Nat.add_sub_cancel,htop]
  rfl

lemma walkUp_spec (h : Flags isLeft path) : (after path = [] ∧ walkUp isLeft (path.length+1) = some 0) ∨
    ∃ ups c x r lower, path = ups ++ ⟨.left,c,x,r⟩::lower ∧ after ups = [] ∧
      walkUp isLeft (path.length+1) = some (lower.length+1) := by
  induction path with
  | nil => exact .inl ⟨rfl,rfl⟩
  | cons g path ih =>
    obtain ⟨s,c,x,r⟩ := g
    have hwalk : walkUp isLeft ((⟨s,c,x,r⟩::path : List (Frame α)).length+1) =
        if s = .left then some (path.length+1) else walkUp isLeft (path.length+1) := by
      rw [List.length_cons,walkUp,h.1]
      simp
    rw [hwalk]
    cases s with
    | left => exact .inr ⟨[],c,x,r,path,rfl,rfl,rfl⟩
    | right =>
      obtain ⟨ha,hw⟩ | ⟨ups,c',x',r',lower,rfl,ha,hw⟩ := ih h.2
      · exact .inl ⟨ha,hw⟩
      · exact .inr ⟨⟨.right,c,x,r⟩::ups,c',x',r',lower,rfl,ha,hw⟩

lemma up_eq (h : Flags f.isLeft path) (hcount : f.count = path.length+1) : (f.currentLeft.bind fun left =>
      if left then Foreach.returned {f with count := f.count-1}
      else (walkUp f.isLeft f.count).bind fun count => Foreach.returned {f with count := count}) =
    (walkUp f.isLeft f.count).bind fun count => Foreach.returned {f with count := count} := by
  rw [Foreach.currentLeft,hcount]
  cases path with
  | nil =>
    have h0 : f.isLeft[0]? = some (some false) := h
    simp [h0]
  | cons g path =>
    have hg := h.1
    rw [List.length_cons,walkUp,hg]
    simp only [Nat.add_sub_cancel,Nat.succ_pos,if_true,hg,join_some,bind_some]
    by_cases hs : g.side = .left <;> simp [hs]

/-- The left limb of a node is stacked. -/
lemma stackLeftChildren_spec {mem : α → Rbnode α} (rounds : ℕ) {t : ColorTree α} {c : Color} {x : α}
    {r : ColorTree α} (hl : Linked mem (plug path (.node c t x r))) (hcount : f.count = path.length+1)
    (hs : OnStack f.stack (x::ancestors path)) (hflags : Flags f.isLeft path)
    (hdepth : path.length+1+t.height ≤ f.stack.length) (hlen : f.isLeft.length = f.stack.length)
    (hrounds : t.height < rounds) : ∃ f' limb c' z r', stackLeftChildren mem rounds f (rootPtr t) = some f' ∧
      f'.stack.length = f.stack.length ∧ f'.isLeft.length = f.isLeft.length ∧
      f'.count = (limb ++ path).length+1 ∧ OnStack f'.stack (z::ancestors (limb ++ path)) ∧
      Flags f'.isLeft (limb ++ path) ∧ plug limb (.node c' .leaf z r') = .node c t x r ∧
      ∀ g ∈ limb, g.side = .left := by
  induction rounds generalizing t path f c x r with
  | zero => omega
  | succ rounds ih =>
    cases t with
    | leaf => exact ⟨f,[],c,x,r,rfl,rfl,rfl,hcount,hs,hflags,rfl,by simp⟩
    | node c₁ l₁ y r₁ =>
      simp only [height] at hdepth hrounds
      have hget : getChild mem y .left = rootPtr l₁ := by
        have := (linked_plug.mp hl).2.2.1.1
        rw [getChild,this]
      have hpush := hs.push (x := y) (by simp; omega)
      simp only [List.length_cons,ancestors_length] at hpush
      let pushed : Foreach α :=
        ⟨f.stack.set (path.length+1) (some y),f.isLeft.set (path.length+1) (some true),path.length+1+1⟩
      obtain ⟨f',limb,c',z,r',he,hlen₁,hlen₂,hcount',hs',hflags',hplug,hside⟩ := ih (f := pushed)
        (show Linked mem (plug (⟨.left,c,x,r⟩::path) (.node c₁ l₁ y r₁)) from hl) rfl hpush
        ⟨List.getElem?_set_self (by omega),hflags.set_of_le (by omega)⟩
        (by simp only [pushed,List.length_set,List.length_cons]; omega) (by simp [pushed,hlen])
        (by omega)
      refine ⟨f',limb ++ [⟨.left,c,x,r⟩],c',z,r',?_,by simpa [pushed] using hlen₁,
        by simpa [pushed] using hlen₂,by simpa using hcount',by simpa using hs',by simpa using hflags',
        by rw [plug_append,hplug]; rfl,?_⟩
      · rw [rootPtr,stackLeftChildren,Foreach.push,hcount,if_pos (by omega)]
        simp only [bind_eq_bind,bind_some,hget]
        exact he
      · intro g hg
        obtain hg | hg := List.mem_append.mp hg
        · exact hside g hg
        · rw [List.mem_singleton.mp hg]

/-- A push and the chain of left children below: the first node of the subtree is next. -/
lemma stackLeftLimb_spec (path : List (Frame α)) {mem : α → Rbnode α} {t : ColorTree α} {y : α}
    (hT : plug path t = T) (hl : Linked mem T) (hy : rootPtr t = some y) (hcount : f.count = path.length)
    (hs : OnStack f.stack (ancestors path)) (hlen : f.isLeft.length = f.stack.length)
    (hdepth : T.height ≤ f.stack.length) (hflags : Flags (f.isLeft.set path.length (some false)) path) :
    ∃ f' x rest, stackLeftLimb mem y f = some (f',some x) ∧ f'.stack.length = f.stack.length ∧
      f'.isLeft.length = f.isLeft.length ∧ t.inorder ++ after path = x::rest ∧ Upcoming T f' rest := by
  cases t with
  | leaf => simp at hy
  | node c l z r =>
    obtain rfl : z = y := by simpa [rootPtr] using hy
    subst hT
    obtain ⟨hdeep,-⟩ := (height_plug_le _ _).mp hdepth
    simp only [height] at hdeep
    let pushed : Foreach α := ⟨f.stack.set path.length (some z),f.isLeft.set path.length (some false),path.length+1⟩
    have hpush := hs.push (x := z) (by simp; omega)
    rw [ancestors_length] at hpush
    have hget : getChild mem z .left = rootPtr l := by rw [getChild,(linked_plug.mp hl).2.1]
    obtain ⟨f',limb,c',x,r',he,hlen₁,hlen₂,hcount',hs',hflags',hplug,hside⟩ :=
      stackLeftChildren_spec (f := pushed) (pushed.stack.length+1) hl rfl hpush hflags
        (by simp only [pushed,List.length_set]; omega) (by simp [pushed,hlen])
        (by simp only [pushed,List.length_set]; omega)
    refine ⟨f',x,r'.inorder ++ after (limb ++ path),?_,by simpa [pushed] using hlen₁,
      by simpa [pushed] using hlen₂,?_,.node (by rw [plug_append,hplug]) hcount' hs' hflags'⟩
    · rw [stackLeftLimb,Foreach.push,hcount,if_pos (by omega)]
      simp only [bind_eq_bind,bind_some,hget]
      rw [he,bind_some,current_eq hcount' hs']
      rfl
    · rw [← hplug,inorder_plug,before_eq_nil hside,after_append]
      simp

/-- Each call returns the next node, or null after the last one. -/
theorem zRbForeachNext_spec (h : Holds tree T) {rest : List α} (hf : Upcoming T f rest)
    (hstack : f.stack.length = tree.maxDepth) (hleft : f.isLeft.length = tree.maxDepth) :
    ∃ f', zRbForeachNext tree f = some (f',rest.head?) ∧ f'.stack.length = tree.maxDepth ∧
      f'.isLeft.length = tree.maxDepth ∧ Upcoming T f' (if rest = [] then T.inorder else rest.tail) := by
  have hlinked := h.inMemory.linked
  have hheight := h.height_le
  rw [zRbForeachNext,h.root]
  cases T with
  | leaf =>
    obtain rfl : rest = [] := by
      cases hf with
      | start => rfl
      | @node path c l x r htree =>
        have := congrArg inorder htree
        simp [inorder_plug] at this
    exact ⟨f,rfl,hstack,hleft,hf⟩
  | node c₀ l₀ root r₀ =>
    simp only [rootPtr]
    have hpos : 1 ≤ (node c₀ l₀ root r₀).height := by simp [height]
    cases hf with
    | start hcount =>
      rw [if_pos hcount]
      obtain ⟨f',x,rest,he,hlen₁,hlen₂,hio,hup⟩ := stackLeftLimb_spec [] rfl hlinked rfl
        hcount trivial (hleft.trans hstack.symm) (hheight.trans_eq hstack.symm)
        (List.getElem?_set_self (show 0 < f.isLeft.length by omega))
      have hio' : (node c₀ l₀ root r₀).inorder = x::rest := by simpa [after] using hio
      rw [hio',if_neg (by simp)]
      exact ⟨f',he,hlen₁.trans hstack,hlen₂.trans hleft,hup⟩
    | @node path c l x r htree hcount hs hflags =>
      have hget : getChild tree.mem x .right = rootPtr r := by
        rw [← htree] at hlinked
        rw [getChild,(linked_plug.mp hlinked).2.1]
      rw [if_neg (by omega),current_eq hcount hs]
      simp only [bind_eq_bind,bind_some,hget]
      cases r with
      | node c₁ l₁ y r₁ =>
        -- down to the first node of the right subtree
        have hdeep : path.length+2 ≤ tree.maxDepth := by
          rw [← htree] at hheight
          have := ((height_plug_le _ _).mp hheight).1
          simp only [height] at this
          omega
        obtain ⟨f',z,rest,he,hlen₁,hlen₂,hio,hup⟩ := stackLeftLimb_spec
          (⟨.right,c,x,l⟩::path) htree hlinked rfl hcount hs (hleft.trans hstack.symm)
          (hheight.trans_eq hstack.symm)
          ⟨List.getElem?_set_self (by rw [List.length_cons]; omega),hflags.set_of_le (by simp)⟩
        have hio' : (node c₁ l₁ y r₁).inorder ++ after path = z::rest := hio
        rw [hio',if_neg (by simp)]
        exact ⟨f',he,hlen₁.trans hstack,hlen₂.trans hleft,hup⟩
      | leaf =>
        rw [up_eq hflags hcount,hcount]
        obtain ⟨ha,hw⟩ | ⟨ups,c',x',r',lower,rfl,ha,hw⟩ := walkUp_spec hflags
        · -- past the root
          rw [ha,hw]
          exact ⟨{f with count := 0},rfl,hstack,hleft,.start rfl⟩
        · have hs' : OnStack f.stack (x'::ancestors lower) := by
            have := hs.2
            rw [ancestors,List.map_append] at this
            exact this.of_append
          rw [plug_append] at htree
          rw [hw,after_append,ha]
          have hcur := current_eq (f := {f with count := lower.length+1}) rfl hs'
          refine ⟨{f with count := lower.length+1},?_,hstack,hleft,?_⟩
          · rw [bind_some,Foreach.returned,if_neg (by simp),hcur]
            rfl
          · exact .node htree rfl hs' hflags.of_append.2

end Steps

def foreachCalls (tree : Rbtree α) : ℕ → Foreach α → Option (List (Option α))
  | 0,_ => some []
  | calls+1,f => do
    let (f,n) ← zRbForeachNext tree f
    (foreachCalls tree calls f).map (n::·)

section Calls
variable {tree : Rbtree α} {T : ColorTree α} {f : Foreach α}

lemma foreachCalls_isSome (h : Holds tree T) {rest : List α} (hf : Upcoming T f rest)
    (hstack : f.stack.length = tree.maxDepth) (hleft : f.isLeft.length = tree.maxDepth) (calls : ℕ) :
    (foreachCalls tree calls f).isSome := by
  induction calls generalizing f rest with
  | zero => rfl
  | succ calls ih =>
    obtain ⟨f',he,hstack',hleft',hf'⟩ := zRbForeachNext_spec h hf hstack hleft
    rw [foreachCalls,he]
    simpa using ih hf' hstack' hleft'

theorem foreachCalls_init (h : Holds tree T) :
    foreachCalls tree (T.inorder.length+1) (.init tree) = some (T.inorder.map some ++ [none]) := by
  have hgo : ∀ (rest : List α) (f : Foreach α), Upcoming T f rest →
      f.stack.length = tree.maxDepth → f.isLeft.length = tree.maxDepth →
      foreachCalls tree (rest.length+1) f = some (rest.map some ++ [none]) := by
    intro rest
    induction rest with
    | nil =>
      intro f hf hstack hleft
      obtain ⟨f',he,-⟩ := zRbForeachNext_spec h hf hstack hleft
      rw [foreachCalls,he]
      rfl
    | cons x rest ih =>
      intro f hf hstack hleft
      obtain ⟨f',he,hstack',hleft',hf'⟩ := zRbForeachNext_spec h hf hstack hleft
      rw [List.length_cons,foreachCalls,he]
      simp only [bind_eq_bind,bind_some]
      rw [ih f' hf' hstack' hleft']
      rfl
  exact hgo _ _ (.start rfl) (by simp [Foreach.init]) (by simp [Foreach.init])

end Calls
end ArmFirmware.Zephyr.RedBlackTree
