import ArmFirmware.Library.Trace
import ArmFirmware.Zephyr.RedBlackTree.Foreach
import ArmFirmware.Zephyr.RedBlackTree.Remove

/-! Runs of insertions, removals and iterations from an empty tree. The colour rules and the bound
on the depth do not depend on the comparisons; the order of the nodes does. `z_rb_walk` and
`rb_contains` see the nodes that the iteration visits. -/
namespace ArmFirmware.Zephyr.RedBlackTree
open Library Library.RedBlack Library.RedBlack.ColorTree List Rbtree

variable {α : Type*}

inductive Op (α : Type*) where
  | insert (node : α)
  | remove (node : α)
  /-- The comparison gives other results, or is replaced. -/
  | reorder (lessthanFn : α → α → Bool)
  /-- An iteration that makes the given number of calls of `z_rb_foreach_next`. -/
  | iterate (calls : ℕ)

def Rbtree.empty (lessthanFn : α → α → Bool) (mem : α → Rbnode α) : Rbtree α :=
  ⟨none,lessthanFn,0,mem⟩

/-- The nodes at and below a pointer. -/
inductive Reachable (mem : α → Rbnode α) : Option α → α → Prop
  | here (x) : Reachable mem (some x) x
  | through {x y} (side) (h : Reachable mem (getChild mem x side) y) : Reachable mem (some x) y

def InTree (tree : Rbtree α) (x : α) : Prop := Reachable tree.mem tree.root x

lemma reachable_iff {mem : α → Rbnode α} {T : ColorTree α} (h : Linked mem T) {x : α} :
    Reachable mem (rootPtr T) x ↔ x ∈ T.inorder := by
  induction T with
  | leaf =>
    constructor
    · intro hr
      cases hr
    · intro hx
      simp at hx
  | node c l y r ihl ihr =>
    obtain ⟨hy,hl,hr⟩ := h
    rw [inorder_node,mem_append,mem_cons,← ihl hl,← ihr hr]
    constructor
    · intro hreach
      cases hreach with
      | here => exact .inr (.inl rfl)
      | through side hb =>
        rw [getChild.eq_def,hy] at hb
        cases side with
        | left => exact .inl hb
        | right => exact .inr (.inr hb)
    · rintro (hb | rfl | hb)
      · exact .through .left (by rw [getChild,hy]; exact hb)
      · exact .here x
      · exact .through .right (by rw [getChild,hy]; exact hb)

def Op.live [DecidableEq α] (nodes : Finset α) : Op α → Finset α
  | .insert x => Insert.insert x nodes
  | .remove x => nodes.erase x
  | .reorder _ => nodes
  | .iterate _ => nodes

section Runs

def step [DecidableEq α] (tree : Rbtree α) : Op α → Option (Rbtree α × List (Option α))
  | .insert x => (rbInsert tree x).map (·,[])
  | .remove x => (rbRemove tree x).map (·,[])
  | .reorder lessthanFn => some ({tree with lessthanFn := lessthanFn},[])
  | .iterate calls => (foreachCalls tree calls (.init tree)).map (tree,·)

/-- Insert only nodes that are not in the tree, remove only from a tree that has nodes. -/
def Safe (tree : Rbtree α) : Op α → Prop
  | .insert x => ¬InTree tree x
  | .remove _ => tree.root ≠ none
  | .reorder _ => True
  | .iterate _ => True

/-- Insert only nodes that are not in the tree, remove only nodes that are, and keep the
comparison a strict total order that does not change on the linked nodes. -/
def Proper (tree : Rbtree α) : Op α → Prop
  | .insert x => ¬InTree tree x
  | .remove x => InTree tree x
  | .reorder lessthanFn => StrictTotal lessthanFn ∧ ∀ a b, InTree tree a → InTree tree b →
      lessthanFn a b = tree.lessthanFn a b
  | .iterate _ => True

lemma Proper.safe {tree : Rbtree α} {op : Op α} (h : Proper tree op) : Safe tree op := by
  cases op with
  | insert x => exact h
  | remove x =>
    intro hroot
    rw [Proper,InTree,hroot] at h
    cases h
  | reorder lt => trivial
  | iterate calls => trivial

/-- The tree in memory is sorted and has the given nodes. -/
def Stands (tree : Rbtree α) (nodes : Finset α) : Prop :=
  ∃ T, Holds tree T ∧ StrictTotal tree.lessthanFn ∧ Sorted tree.lessthanFn T ∧
    ∀ x, x ∈ T.inorder ↔ x ∈ nodes

variable {tree : Rbtree α} {T : ColorTree α} {x : α} {nodes : Finset α} {op : Op α}

lemma Holds.empty (lessthanFn : α → α → Bool) (mem : α → Rbnode α) : Holds (empty lessthanFn mem) .leaf :=
  ⟨rfl,⟨trivial,by simp⟩,⟨0,.leaf,by simp⟩,by simp [height]⟩

lemma Holds.inTree_iff (h : Holds tree T) : InTree tree x ↔ x ∈ T.inorder := by
  rw [InTree,h.root,reachable_iff h.inMemory.linked]

lemma Holds.foreachCalls (h : Holds tree T) (calls : ℕ) :
    ∃ returned, foreachCalls tree calls (.init tree) = some returned :=
  Option.isSome_iff_exists.mp (foreachCalls_isSome h (.start rfl) (by simp [Foreach.init])
    (by simp [Foreach.init]) calls)

variable [DecidableEq α]

lemma step_safe (h : Holds tree T) (hop : Safe tree op) :
    ∃ tree' out T', step tree op = some (tree',out) ∧ Holds tree' T' := by
  cases op with
  | insert x =>
    obtain ⟨tree',T',path,he,hT',-⟩ := rbInsert_spec h (mt h.inTree_iff.mpr hop)
    exact ⟨tree',[],T',by simp [step,he],hT'⟩
  | remove x =>
    have hT : T ≠ .leaf := by
      rintro rfl
      exact hop h.root
    obtain ⟨tree',T',he,hT',-⟩ := rbRemove_spec (x := x) h hT
    exact ⟨tree',[],T',by simp [step,he],hT'⟩
  | reorder lt => exact ⟨_,[],T,rfl,{ h with }⟩
  | iterate calls =>
    obtain ⟨out,he⟩ := h.foreachCalls calls
    exact ⟨tree,out,T,by simp [step,he],h⟩

lemma insert_stands (h : Stands tree nodes) (hop : ¬InTree tree x) :
    ∃ tree', rbInsert tree x = some tree' ∧ Stands tree' (insert x nodes) := by
  obtain ⟨T,hT,hlt,hs,hmem⟩ := h
  obtain ⟨tree',T',he,hT',hlt',hs',hperm⟩ := hT.insert (mt hT.inTree_iff.mpr hop) (hlt.on _) hs
  refine ⟨tree',he,T',hT',hlt' ▸ hlt,hlt' ▸ hs',fun y => ?_⟩
  rw [hperm.mem_iff,mem_cons,hmem,Finset.mem_insert]

lemma remove_stands (h : Stands tree nodes) (hop : InTree tree x) :
    ∃ tree', rbRemove tree x = some tree' ∧ Stands tree' (nodes.erase x) := by
  obtain ⟨T,hT,hlt,hs,hmem⟩ := h
  obtain ⟨tree',T',he,hT',hlt',hio⟩ := hT.remove (hT.inTree_iff.mp hop) (hlt.on _) hs
  refine ⟨tree',he,T',hT',hlt' ▸ hlt,?_,fun y => ?_⟩
  · rw [Sorted,hlt',hio]
    exact hs.sublist erase_sublist
  · rw [hio,hT.inMemory.nodup.mem_erase_iff,Finset.mem_erase,hmem]

lemma step_stands (h : Stands tree nodes) (hop : Proper tree op) :
    ∃ tree' out, step tree op = some (tree',out) ∧ Stands tree' (op.live nodes) := by
  cases op with
  | insert x =>
    obtain ⟨tree',he,h'⟩ := insert_stands h hop
    exact ⟨tree',[],by simp [step,he],h'⟩
  | remove x =>
    obtain ⟨tree',he,h'⟩ := remove_stands h hop
    exact ⟨tree',[],by simp [step,he],h'⟩
  | reorder lt =>
    obtain ⟨T,hT,-,hs,hmem⟩ := h
    refine ⟨_,[],rfl,T,{ hT with },hop.1,?_,hmem⟩
    refine List.Pairwise.imp_of_mem (fun {a b} ha hb hab => ?_) hs
    exact (hop.2 a b (hT.inTree_iff.mpr ha) (hT.inTree_iff.mpr hb)).trans hab
  | iterate calls =>
    obtain ⟨T,hT,hrest⟩ := h
    obtain ⟨out,he⟩ := hT.foreachCalls calls
    exact ⟨tree,out,by simp [step,he],T,hT,hrest⟩

lemma live_of_trace {ops : List (Op α)} {outs : List (List (Option α))} {nodes' : Finset α}
    (h : Trace (fun s op _ t => t = Op.live s op) nodes ops outs nodes') : nodes' = ops.foldl Op.live nodes := by
  induction h with
  | nil s => rfl
  | cons head tail ih =>
    subst head
    exact ih

lemma run_stands {lt : α → α → Bool} (hlt : StrictTotal lt) (mem : α → Rbnode α) (ops : List (Op α))
    (hops : Along Proper step (.empty lt mem) ops) :
    ∃ tree outs, serve? step (.empty lt mem) ops = some (tree,outs) ∧ Stands tree (ops.foldl Op.live ∅) := by
  have hempty : Stands (empty lt mem) ∅ := ⟨.leaf,.empty lt mem,hlt,by simp [Sorted],by simp⟩
  have hstep : ∀ (s : Rbtree α) (t : Finset α) (op : Op α), Stands s t → Proper s op →
      ∃ s' out t', step s op = some (s',out) ∧ t' = op.live t ∧ Stands s' t' := by
    intro s t op hst hop
    obtain ⟨s',out,he,h'⟩ := step_stands hst hop
    exact ⟨s',out,_,he,rfl,h'⟩
  obtain ⟨tree,outs,nodes,he,htrace,hstands⟩ := Trace.of_serve? hstep hempty hops
  rw [live_of_trace htrace] at hstands
  exact ⟨tree,outs,he,hstands⟩

/-- In every run of insertions of nodes that are not in the tree and removals of nodes that
are, the tree in memory is a search tree over the nodes inserted and not removed since; its
root is black, no red node has a red child, and all paths down to a missing child pass the
same number of black nodes. -/
theorem run_keeps_redBlack {lt : α → α → Bool} (hlt : StrictTotal lt) (mem : α → Rbnode α)
    (ops : List (Op α)) (hops : Along Proper step (.empty lt mem) ops) :
    ∃ tree outs T, serve? step (.empty lt mem) ops = some (tree,outs) ∧
      tree.root = rootPtr T ∧ Linked tree.mem T ∧ T.inorder.Nodup ∧
      (∀ x, x ∈ T.inorder ↔ x ∈ ops.foldl Op.live ∅) ∧
      StrictTotal tree.lessthanFn ∧ T.Bst (fun a b => tree.lessthanFn a b = true) ∧
      T.rootColor = .black ∧ T.NoRedRed ∧ ∃ n, T.BlackCount n := by
  obtain ⟨tree,outs,he,T,hT,hlt',hs,hmem⟩ := run_stands hlt mem ops hops
  obtain ⟨N,hrb,-⟩ := hT.rb
  exact ⟨tree,outs,T,he,hT.root,hT.inMemory.linked,hT.inMemory.nodup,hmem,hlt',bst_of_pairwise hs,
    hrb.rootColor_eq,hrb.noRedRed,N,hrb.blackCount⟩

/-- In every run of insertions of nodes that are not in the tree and removals from a tree
that has nodes, no operation or iteration leaves its stack, whatever the comparisons answer,
and `max_depth` is at least the height of the tree. -/
theorem run_fits_maxDepth (lt : α → α → Bool) (mem : α → Rbnode α) (ops : List (Op α))
    (hops : Along Safe step (.empty lt mem) ops) :
    ∃ tree outs T, serve? step (.empty lt mem) ops = some (tree,outs) ∧
      tree.root = rootPtr T ∧ Linked tree.mem T ∧ T.height ≤ tree.maxDepth ∧
      ∀ calls, (foreachCalls tree calls (.init tree)).isSome := by
  have hstep : ∀ (s : Rbtree α) (_ : Unit) (op : Op α), (∃ T, Holds s T) → Safe s op →
      ∃ s' out, ∃ _ : Unit, step s op = some (s',out) ∧ True ∧ ∃ T, Holds s' T := by
    rintro s t op ⟨T,hT⟩ hop
    obtain ⟨s',out,T',he,hT'⟩ := step_safe hT hop
    exact ⟨s',out,t,he,trivial,T',hT'⟩
  obtain ⟨tree,outs,-,he,-,T,hT⟩ := Trace.of_serve? hstep (t := ()) ⟨.leaf,.empty lt mem⟩ hops
  refine ⟨tree,outs,T,he,hT.root,hT.inMemory.linked,hT.height_le,fun calls => ?_⟩
  obtain ⟨out,ho⟩ := hT.foreachCalls calls
  rw [ho]
  rfl

end Runs

def blankNodes : ℕ → Rbnode ℕ := fun _ => ⟨none,none,.black⟩

def ltNat (a b : ℕ) : Bool := decide (a < b)

lemma strictTotal_ltNat : StrictTotal ltNat := by
  refine ⟨by simp [ltNat],fun a b c => ?_,fun a b h => ?_⟩
  · simp only [ltNat,decide_eq_true_eq]
    omega
  · simp only [ltNat,decide_eq_true_eq]
    omega

def fourNodes : List (Op ℕ) := [.insert 1,.insert 2,.insert 3,.insert 4,.remove 1,.iterate 2]

lemma fourNodes_proper : Along Proper step (.empty ltNat blankNodes) fourNodes := by
  have hout : ∀ {tree : Rbtree ℕ} {T : ColorTree ℕ} {x : ℕ}, tree.root = rootPtr T → Linked tree.mem T →
    x ∉ T.inorder →
      ¬InTree tree x := fun hroot hlinked hx hin => hx ((reachable_iff hlinked).mp (hroot ▸ hin))
  refine ⟨hout (T := .leaf) rfl trivial (by simp),fun t₁ o₁ h₁ => ?_⟩
  cases h₁
  refine ⟨hout (T := .node .black .leaf 1 .leaf) rfl ⟨rfl,trivial,trivial⟩ (by simp),fun t₂ o₂ h₂ => ?_⟩
  cases h₂
  refine ⟨hout (T := .node .black .leaf 1 (.node .red .leaf 2 .leaf)) rfl ⟨rfl,trivial,rfl,trivial,
    trivial⟩ (by simp),
    fun t₃ o₃ h₃ => ?_⟩
  cases h₃
  refine ⟨hout (T := .node .black (.node .red .leaf 1 .leaf) 2 (.node .red .leaf 3 .leaf)) rfl
    ⟨rfl,⟨rfl,trivial,trivial⟩,rfl,trivial,trivial⟩ (by simp),fun t₄ o₄ h₄ => ?_⟩
  cases h₄
  exact ⟨.through .left (.here 1),fun _ _ _ => ⟨trivial,fun _ _ _ => trivial⟩⟩

theorem run_keeps_redBlack_fourNodes :
    ∃ tree outs T, serve? step (.empty ltNat blankNodes) fourNodes = some (tree,outs) ∧
      tree.root = rootPtr T ∧ Linked tree.mem T ∧ T.inorder.Nodup ∧
      (∀ x, x ∈ T.inorder ↔ x ∈ fourNodes.foldl Op.live ∅) ∧
      StrictTotal tree.lessthanFn ∧ T.Bst (fun a b => tree.lessthanFn a b = true) ∧
      T.rootColor = .black ∧ T.NoRedRed ∧ ∃ n, T.BlackCount n :=
  run_keeps_redBlack strictTotal_ltNat blankNodes fourNodes fourNodes_proper

theorem run_fits_maxDepth_fourNodes :
    ∃ tree outs T, serve? step (.empty ltNat blankNodes) fourNodes = some (tree,outs) ∧
      tree.root = rootPtr T ∧ Linked tree.mem T ∧ T.height ≤ tree.maxDepth ∧
      ∀ calls, (foreachCalls tree calls (.init tree)).isSome :=
  run_fits_maxDepth ltNat blankNodes fourNodes (fourNodes_proper.mono fun _ _ => Proper.safe)

/-- A node that is inserted again while it is the root becomes its own red child, and the
fix-up reads the entry below the first one of its stack. -/
theorem insert_again_leaves_stack :
    serve? step (.empty ltNat blankNodes) [.insert 1,.insert 1] = none := rfl

/-- `z_rb_walk`, down to the given depth: the nodes in the order of the visits. -/
def zRbWalk (mem : α → Rbnode α) : ℕ → Option α → Option (List α)
  | _,none => some []
  | 0,some _ => none
  | depth+1,some n => do
    let left ← zRbWalk mem depth (getChild mem n .left)
    let right ← zRbWalk mem depth (getChild mem n .right)
    some (left++n::right)

variable [DecidableEq α]

def containsLoop (lessthanFn : α → α → Bool) (mem : α → Rbnode α) (node : α) : ℕ → Option α → Option Bool
  | _,none => some false
  | 0,some _ => none
  | rounds+1,some n =>
    if n = node then some true
    else containsLoop lessthanFn mem node rounds (getChild mem n (if lessthanFn n node then .right else .left))

def rbContains (tree : Rbtree α) (node : α) : Option Bool :=
  containsLoop tree.lessthanFn tree.mem node tree.maxDepth tree.root

section Walks
variable {mem : α → Rbnode α} {T : ColorTree α} {lt : α → α → Bool}

omit [DecidableEq α] in
lemma zRbWalk_spec (h : Linked mem T) {depth : ℕ} (hdepth : T.height ≤ depth) :
    zRbWalk mem depth (rootPtr T) = some T.inorder := by
  induction T generalizing depth with
  | leaf => cases depth <;> rfl
  | node c l y r ihl ihr =>
    obtain ⟨hy,hl,hr⟩ := h
    cases depth with
    | zero => simp [height] at hdepth
    | succ depth =>
      simp only [height] at hdepth
      have hleft := ihl hl (show l.height ≤ depth by omega)
      have hright := ihr hr (show r.height ≤ depth by omega)
      change zRbWalk mem (depth+1) (some y) = _
      simp [zRbWalk,getChild,hy,hleft,hright]

/-- The loop of `rb_contains` finds the nodes of the tree. -/
lemma containsLoop_spec (hlt : StrictTotal lt) (h : Linked mem T) (hs : Sorted lt T) (x : α) {rounds : ℕ}
    (hrounds : T.height ≤ rounds) : containsLoop lt mem x rounds (rootPtr T) = some (decide (x ∈ T.inorder)) := by
  induction T generalizing rounds with
  | leaf => cases rounds <;> rfl
  | node c l y r ihl ihr =>
    obtain ⟨hy,hl,hr⟩ := h
    cases rounds with
    | zero => simp [height] at hrounds
    | succ rounds =>
      simp only [height] at hrounds
      rw [Sorted,inorder_node,pairwise_append,pairwise_cons] at hs
      obtain ⟨hsl,⟨hyr,hsr⟩,hlr⟩ := hs
      have hmem : x ∈ (ColorTree.node c l y r).inorder ↔ x ∈ l.inorder ∨ x = y ∨ x ∈ r.inorder := by simp
      have hleft := ihl hl hsl (show l.height ≤ rounds by omega)
      have hright := ihr hr hsr (show r.height ≤ rounds by omega)
      change containsLoop lt mem x (rounds+1) (some y) = _
      simp only [containsLoop,hmem]
      by_cases hyx : y = x
      · simp [hyx]
      by_cases hless : lt y x = true
      · -- what is on the left is before the node
        have hnot : x ∉ l.inorder := fun hx => by
          have := hlt.trans _ _ _ hless (hlr x hx y (mem_cons_self ..))
          simp [hlt.irrefl] at this
        simp [hyx,hless,hnot,Ne.symm hyx,getChild,hy,hright]
      · have hnot : x ∉ r.inorder := fun hx => hless (hyr x hx)
        simp [hyx,hless,hnot,Ne.symm hyx,getChild,hy,hleft]

end Walks

/-- After any proper run the iteration visits the nodes once each, in order, and ends; the walk
visits them in the same order, and `rb_contains` finds them and no other. -/
theorem run_visits_nodes {lt : α → α → Bool} (hlt : StrictTotal lt) (mem : α → Rbnode α) (ops : List (Op α))
    (hops : Along Proper step (.empty lt mem) ops) :
    ∃ tree outs nodes, serve? step (.empty lt mem) ops = some (tree,outs) ∧
      nodes.Nodup ∧ (∀ x, x ∈ nodes ↔ x ∈ ops.foldl Op.live ∅) ∧
        nodes.Pairwise (fun a b => tree.lessthanFn a b = true) ∧
      foreachCalls tree (nodes.length+1) (.init tree) = some (nodes.map some++[none]) ∧
      zRbWalk tree.mem tree.maxDepth tree.root = some nodes ∧
      ∀ x, rbContains tree x = some (decide (x ∈ nodes)) := by
  obtain ⟨tree,outs,he,T,hT,hlt',hs,hmem⟩ := run_stands hlt mem ops hops
  have hlinked := hT.inMemory.linked
  refine ⟨tree,outs,T.inorder,he,hT.inMemory.nodup,hmem,hs,foreachCalls_init hT,?_,fun x => ?_⟩
  · rw [hT.root]
    exact zRbWalk_spec hlinked hT.height_le
  · rw [rbContains,hT.root]
    exact containsLoop_spec hlt' hlinked hs x hT.height_le

theorem run_visits_nodes_fourNodes :
    ∃ tree outs nodes, serve? step (.empty ltNat blankNodes) fourNodes = some (tree,outs) ∧
      nodes.Nodup ∧ (∀ x, x ∈ nodes ↔ x ∈ fourNodes.foldl Op.live ∅) ∧
        nodes.Pairwise (fun a b => tree.lessthanFn a b = true) ∧
      foreachCalls tree (nodes.length+1) (.init tree) = some (nodes.map some++[none]) ∧
      zRbWalk tree.mem tree.maxDepth tree.root = some nodes ∧
      ∀ x, rbContains tree x = some (decide (x ∈ nodes)) :=
  run_visits_nodes strictTotal_ltNat blankNodes fourNodes fourNodes_proper

end ArmFirmware.Zephyr.RedBlackTree
