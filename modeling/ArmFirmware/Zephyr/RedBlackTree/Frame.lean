import ArmFirmware.Zephyr.RedBlackTree.Insert

/-! Insertion and removal write to the nodes of the tree and the inserted node only. -/
namespace ArmFirmware.Zephyr.RedBlackTree
open Library.RedBlack Library.RedBlack.ColorTree List Option RedBlackTree

attribute [local simp] getChild State.fresh

variable {α : Type*} [DecidableEq α]

/-- All nodes that can be reached are in the set, and the memory outside of it is as it was. -/
structure Inside (S : Set α) (mem₀ : α → Rbnode α) (st : State α) : Prop where
  closed : ∀ x ∈ S, ∀ side y, getChild st.mem x side = some y → y ∈ S
  stack : ∀ x, some x ∈ st.stack → x ∈ S
  outside : ∀ z ∉ S, st.mem z = mem₀ z

namespace Inside
variable {S : Set α} {mem₀ : α → Rbnode α} {st st' : State α} {n x y : α} {i sz k : ℕ}

section
variable (h : Inside S mem₀ st) {nSide : Side}
include h

omit [DecidableEq α] in
lemma read (hx : st.read i = some x) : x ∈ S := by
  rw [State.read,join_eq_some_iff] at hx
  exact h.stack x (mem_of_getElem? hx)

omit [DecidableEq α] in
lemma below (hx : st.below sz k = some x) : x ∈ S := by
  rw [State.below] at hx
  split_ifs at hx
  exact h.read hx

omit [DecidableEq α] in
lemma write (hn : n ∈ S) (hw : st.write i n = some st') : Inside S mem₀ st' := by
  rw [State.write] at hw
  split_ifs at hw
  obtain rfl := some.inj hw
  refine ⟨h.closed,fun x hx => ?_,h.outside⟩
  rcases mem_or_eq_of_mem_set hx with hx | hx
  · exact h.stack x hx
  · exact some.inj hx ▸ hn

lemma setNode (hn : n ∈ S) {f : Rbnode α → Rbnode α}
    (hf : ∀ side y, getChild (setNode st.mem n f) n side = some y → y ∈ S) :
    Inside S mem₀ ⟨setNode st.mem n f,st.stack⟩ := by
  refine ⟨fun x hx side y hy => ?_,h.stack,fun z hz => ?_⟩
  · by_cases hxn : x = n
    · subst hxn
      exact hf side y hy
    · refine h.closed x hx side y ?_
      cases side <;> simpa [RedBlackTree.setNode,hxn] using hy
  · have hzn : z ≠ n := fun hzn => hz (hzn ▸ hn)
    simpa [RedBlackTree.setNode,hzn] using h.outside z hz

lemma setColor (hn : n ∈ S) (color : Color) : Inside S mem₀ ⟨setColor st.mem n color,st.stack⟩ := by
  refine h.setNode hn fun side y hy => h.closed n hn side y ?_
  cases side <;> simpa [RedBlackTree.setNode] using hy

omit [DecidableEq α] in
lemma child (side : Side) (hx : x ∈ S) (y : α) : getChild st.mem x side = some y → y ∈ S := h.closed x hx side y

lemma setChild (side : Side) (hn : n ∈ S) {val : Option α} (hval : ∀ y, val = some y → y ∈ S) :
    Inside S mem₀ ⟨setChild st.mem n side val,st.stack⟩ := by
  refine h.setNode hn fun side' y hy => ?_
  cases side with
  | left =>
    cases side' with
    | left => exact hval y (by simpa [RedBlackTree.setNode] using hy)
    | right => exact h.closed n hn .right y (by simpa [RedBlackTree.setNode] using hy)
  | right =>
    cases side' with
    | left => exact h.closed n hn .left y (by simpa [RedBlackTree.setNode] using hy)
    | right => exact hval y (by simpa [RedBlackTree.setNode] using hy)

lemma setChild_some (side : Side) (hn : n ∈ S) (hy : y ∈ S) :
    Inside S mem₀ ⟨RedBlackTree.setChild st.mem n side (some y),st.stack⟩ :=
  h.setChild side hn fun _ he => some.inj he ▸ hy

lemma setChild_none (side : Side) (hn : n ∈ S) :
    Inside S mem₀ ⟨RedBlackTree.setChild st.mem n side none,st.stack⟩ := h.setChild side hn fun _ he => by cases he

variable {lt : α → α → Bool} {rounds sz' : ℕ}

lemma findAndStackLoop (he : findAndStackLoop lt n rounds st sz = some (st',sz')) : Inside S mem₀ st' := by
  induction rounds generalizing st sz with
  | zero => cases he
  | succ rounds ih =>
    obtain ⟨top,htop,he⟩ := bind_eq_some_iff.mp he
    by_cases hn : top = n
    · rw [if_pos hn] at he
      cases he
      exact h
    · rw [if_neg hn] at he
      dsimp only at he
      split at he
      · next ch hch =>
        obtain ⟨st₁,hw,he⟩ := bind_eq_some_iff.mp he
        exact ih (h.write (h.closed top (h.below htop) _ ch hch) hw) he
      · cases he
        exact h

lemma findAndStack {root : α} (hroot : root ∈ S)
    (he : findAndStack lt n root st = some (st',sz)) : Inside S mem₀ st' := by
  obtain ⟨st₁,hw,he⟩ := bind_eq_some_iff.mp he
  exact (h.write hroot hw).findAndStackLoop he

variable {parent : α}

lemma relinkAbove {child : α} (hchild : child ∈ S) {mem : α → Rbnode α}
    (he : relinkAbove st sz parent child = some mem) : Inside S mem₀ ⟨mem,st.stack⟩ := by
  rw [RedBlackTree.relinkAbove] at he
  split_ifs at he
  · obtain ⟨grandparent,hg,rfl⟩ := map_eq_some_iff.mp he
    exact h.setChild_some _ (h.below hg) hchild
  · obtain rfl := some.inj he
    exact h

lemma rotate (he : rotate st sz = some st') : Inside S mem₀ st' := by
  simp only [RedBlackTree.rotate,bind_eq_bind,bind_eq_some_iff] at he
  obtain ⟨parent,hparent,child,hchild,mem,hmem,st₁,hw₁,hw₂⟩ := he
  have hp := h.below hparent
  have hc := h.below hchild
  refine Inside.write (Inside.write ?_ hc hw₁) hp hw₂
  have h₁ := (h.relinkAbove hc hmem).setChild (getSide st.mem parent child) hc
    (h.child (getSide st.mem parent child) hc)
  exact (h₁.setChild_some _ hc hp).setChild _ hp (h.child _ hc)

variable {node : α}

lemma rotateExtraRed {side : Side} (he : rotateExtraRed st sz node parent side = some st') : Inside S mem₀ st' := by
  simp only [RedBlackTree.rotateExtraRed,bind_eq_bind,bind_eq_some_iff] at he
  obtain ⟨st₁,h₁,st₂,h₂,upper,hupper,lower,hlower,he⟩ := he
  obtain rfl := some.inj he
  have hin₁ : Inside S mem₀ st₁ := by
    split_ifs at h₁
    · exact h.rotate h₁
    · exact some.inj h₁ ▸ h
  have hin₂ := hin₁.rotate h₂
  exact (hin₂.setColor (hin₂.below hupper) .black).setColor (hin₂.below hlower) .red

/-- `fix_extra_red` writes to nodes of the tree only. -/
lemma fixExtraRed (he : fixExtraRed sz st = some st') : Inside S mem₀ st' := by
  induction sz using Nat.twoStepInduction generalizing st with
  | zero =>
    obtain ⟨root,hroot,he⟩ := bind_eq_some_iff.mp he
    exact some.inj he ▸ h.setColor (h.read hroot) .black
  | one =>
    obtain ⟨root,hroot,he⟩ := bind_eq_some_iff.mp he
    exact some.inj he ▸ h.setColor (h.read hroot) .black
  | more sz ih _ =>
    obtain ⟨node,hnode,he⟩ := bind_eq_some_iff.mp he
    obtain ⟨parent,hparent,he⟩ := bind_eq_some_iff.mp he
    split_ifs at he with hblack
    · exact some.inj he ▸ h
    · obtain ⟨grandparent,hg,he⟩ := bind_eq_some_iff.mp he
      dsimp only at he
      split at he
      · next aunt haunt =>
        have hgS := h.below hg
        split_ifs at he with hred
        · exact ih (((h.setColor hgS .red).setColor (h.below hparent) .black).setColor
            (h.closed grandparent hgS _ aunt haunt) .black) he
        · exact h.rotateExtraRed he
      · exact h.rotateExtraRed he

variable {sib sib' : α}

lemma blackenSibling {parent' : α} (hn : n ∈ S) (hparent : parent ∈ S) (hsib : sib ∈ S)
    (he : blackenSibling st sz n parent sib nSide = some (st',sz',parent',sib')) :
    Inside S mem₀ st' ∧ parent' ∈ S ∧ sib' ∈ S := by
  rw [RedBlackTree.blackenSibling] at he
  split_ifs at he with hblack
  · cases he
    exact ⟨h,hparent,hsib⟩
  · simp only [bind_eq_bind,bind_eq_some_iff] at he
    obtain ⟨st₁,hw₁,st₂,hr,st₃,hw₂,parent₁,hp₁,sib₁,hs₁,he⟩ := he
    cases he
    have h₂ := (h.write hsib hw₁).rotate hr
    have h₃ := Inside.write ((h₂.setColor hparent .red).setColor hsib .black) hn hw₂
    exact ⟨h₃,h₃.below hp₁,h₃.child _ (h₃.below hp₁) _ hs₁⟩

variable {outer : α}

lemma redInnerOut (hn : n ∈ S) (hsib : sib ∈ S) (he : redInnerOut st sz n sib nSide = some (st',sib',outer)) :
    Inside S mem₀ st' ∧ sib' ∈ S ∧ outer ∈ S := by
  simp only [RedBlackTree.redInnerOut,bind_eq_bind,bind_eq_some_iff] at he
  obtain ⟨inner,hinner,st₁,hw₁,st₂,hw₂,st₃,hr,sib₁,hs₁,outer₁,ho₁,st₄,hw₃,he⟩ := he
  cases he
  have hin := h.child _ hsib _ hinner
  have h₃ := ((h.write hsib hw₁).write hin hw₂).rotate hr
  have h₄ := (h₃.setColor hsib .red).setColor hin .black
  exact ⟨h₄.write hn hw₃,h₄.below hs₁,h₄.child _ (h₄.below hs₁) _ ho₁⟩

lemma redOuter (hn : n ∈ S) (hsib : sib ∈ S) (he : redOuter st sz n sib nSide = some (st',sib',outer)) :
    Inside S mem₀ st' ∧ sib' ∈ S ∧ outer ∈ S := by
  rw [RedBlackTree.redOuter] at he
  split at he
  · next o ho =>
    split_ifs at he with hred
    · cases he
      exact ⟨h,hsib,h.child _ hsib _ ho⟩
    · exact h.redInnerOut hn hsib he
  · exact h.redInnerOut hn hsib he

variable {nullNode : α}

lemma rotateSibling (hparent : parent ∈ S) (hsib : sib ∈ S) (houter : outer ∈ S)
    (he : rotateSibling nullNode st sz n parent sib outer nSide = some st') : Inside S mem₀ st' := by
  simp only [RedBlackTree.rotateSibling,bind_eq_bind,bind_eq_some_iff] at he
  obtain ⟨st₁,hw,st₂,hr,he⟩ := he
  cases he
  have h₁ := ((h.setColor hsib (getColor st.mem parent)).setColor hparent .black).setColor houter .black
  have h₂ := (h₁.write hsib hw).rotate hr
  split_ifs
  · exact h₂.setChild_none _ hparent
  · exact h₂

lemma resolveSibling {again : Bool} (hn : n ∈ S) (hparent : parent ∈ S) (hsib : sib ∈ S)
    (he : resolveSibling nullNode st sz n parent sib nSide = some (st',again)) : Inside S mem₀ st' := by
  rw [RedBlackTree.resolveSibling] at he
  split at he
  · have h₁ : Inside S mem₀
        ⟨if n = nullNode then RedBlackTree.setChild st.mem parent nSide none else st.mem,st.stack⟩ := by
      split_ifs
      · exact h.setChild_none _ hparent
      · exact h
    generalize (if n = nullNode then RedBlackTree.setChild st.mem parent nSide none else st.mem) = mem at he h₁
    have h₂ := h₁.setColor hsib .red
    dsimp only at he
    split_ifs at he
    · cases he
      exact h₂
    · cases he
      exact h₂.setColor hparent .black
  · obtain ⟨⟨st₁,sib₁,outer⟩,hr,he⟩ := bind_eq_some_iff.mp he
    obtain ⟨st₂,hs,he⟩ := map_eq_some_iff.mp he
    obtain ⟨rfl,-⟩ := Prod.mk.inj he
    obtain ⟨h₁,hsib₁,houter⟩ := h.redOuter hn hsib hr
    exact h₁.rotateSibling hparent hsib₁ houter hs

lemma fixMissingBlack (he : fixMissingBlack nullNode rounds st sz = some st') : Inside S mem₀ st' := by
  induction rounds generalizing st sz with
  | zero => cases he
  | succ rounds ih =>
    rw [fixMissingBlack] at he
    split_ifs at he with hsz
    · exact some.inj he ▸ h
    · simp only [bind_eq_bind,bind_eq_some_iff] at he
      obtain ⟨n,hn,parent,hparent,sib,hsib,⟨st₁,sz₁,parent₁,sib₁⟩,hb,⟨st₂,again⟩,hr,he⟩ := he
      have hpS := h.below hparent
      obtain ⟨h₁,hp₁,hs₁⟩ := h.blackenSibling (h.below hn) hpS (h.child _ hpS _ hsib) hb
      have h₂ := h₁.resolveSibling (h.below hn) hp₁ hs₁ hr
      split_ifs at he
      · exact ih h₂ he
      · exact some.inj he ▸ h₂

variable {node2 : α}

omit [DecidableEq α] in
lemma stackRightLimb {node2' : α} (h2 : node2 ∈ S)
    (he : stackRightLimb rounds st sz node2 = some (st',sz',node2')) : Inside S mem₀ st' ∧ node2' ∈ S := by
  induction rounds generalizing st sz node2 with
  | zero => cases he
  | succ rounds ih =>
    rw [stackRightLimb] at he
    split at he
    · next ch hch =>
      obtain ⟨st₁,hw,he⟩ := bind_eq_some_iff.mp he
      have hc := h.child _ h2 _ hch
      exact ih (h.write hc hw) hc he
    · cases he
      exact ⟨h,h2⟩

lemma swapBelow {loparent : α} (hlo : loparent ∈ S) (hnode : node ∈ S)
    (hnode2 : node2 ∈ S) : Inside S mem₀ ⟨swapBelow st.mem loparent node node2,st.stack⟩ := by
  have hswap : ∀ mem, Inside S mem₀ ⟨mem,st.stack⟩ → Inside S mem₀
      ⟨RedBlackTree.setColor (RedBlackTree.setColor (RedBlackTree.setChild (RedBlackTree.setChild mem node2 .right
        (getChild mem node .right)) node .right none) node (getColor (RedBlackTree.setChild
        (RedBlackTree.setChild mem node2 .right (getChild mem node .right)) node .right none) node2)) node2
        (getColor (RedBlackTree.setChild (RedBlackTree.setChild mem node2 .right (getChild mem node .right))
        node .right none) node),st.stack⟩ := by
    intro mem hmem
    exact (((hmem.setChild .right hnode2 (hmem.child _ hnode)).setChild_none .right hnode).setColor
      hnode _).setColor hnode2 _
  unfold RedBlackTree.swapBelow
  split_ifs with hlp
  · exact hswap _ ((h.setChild .left hnode (h.child _ hnode2)).setChild_some .left hnode2 hnode)
  · have h₁ := h.setChild_some (getSide st.mem loparent node2) hlo hnode
    exact hswap _ ((h₁.setChild .left hnode (h₁.child _ hnode2)).setChild .left hnode2 (h₁.child _ hnode))

lemma swapWithPredecessor (hnode : node ∈ S)
    (he : swapWithPredecessor st sz node = some (st',sz')) : Inside S mem₀ st' := by
  simp only [RedBlackTree.swapWithPredecessor,bind_eq_bind,bind_eq_some_iff] at he
  obtain ⟨node2,h2,st₁,hw₁,⟨st₂,sz₂,node2'⟩,hlimb,loparent,hlo,tmp,htmp,low,hlow,st₃,hw₂,st₄,hw₃,he⟩ := he
  cases he
  have h2S := h.child _ hnode _ h2
  obtain ⟨h₂,h2S'⟩ := (h.write h2S hw₁).stackRightLimb h2S hlimb
  refine Inside.write (Inside.write ?_ (h₂.below hlow) hw₂) (h₂.below htmp) hw₃
  unfold swapLinks
  split
  · next hi hhi =>
    have hiS : hi ∈ S := by
      split_ifs at hhi
      exact h.below hhi
    exact (h₂.setChild_some _ hiS h2S').swapBelow (h₂.below hlo) hnode h2S'
  · exact h₂.swapBelow (h₂.below hlo) hnode h2S'

omit [DecidableEq α] in
lemma onlyChild {c : α} (hnode : node ∈ S) (hc : onlyChild st.mem node = some c) : c ∈ S := by
  unfold RedBlackTree.onlyChild at hc
  split at hc
  · next c' hc' => exact some.inj hc ▸ h.child _ hnode _ hc'
  · exact h.child _ hnode _ hc

lemma unlinkBelow (hnode : node ∈ S) (hparent : parent ∈ S)
    (he : unlinkBelow st sz node parent = some st') : Inside S mem₀ st' := by
  unfold RedBlackTree.unlinkBelow at he
  split at he
  · split_ifs at he with hblack
    · exact h.fixMissingBlack he
    · exact some.inj he ▸ h.setChild_none _ hparent
  · next c hc =>
    have hcS := h.onlyChild hnode hc
    have h₁ := h.setChild_some (getSide st.mem parent node) hparent hcS
    dsimp only at he
    split_ifs at he
    · exact some.inj he ▸ h₁.setColor hcS .black
    · exact some.inj he ▸ h₁

lemma unlink {tree tree' : Rbtree α} (hnode : node ∈ S)
    (he : unlink tree st sz node = some tree') (z : α) (hz : z ∉ S) : tree'.mem z = mem₀ z := by
  unfold RedBlackTree.unlink at he
  split_ifs at he with hsz
  · split at he
    · next c hc =>
      cases he
      exact (h.setColor (h.onlyChild hnode hc) .black).outside z hz
    · cases he
      exact h.outside z hz
  · simp only [bind_eq_bind,bind_eq_some_iff] at he
    obtain ⟨parent,hparent,st₁,hu,root,hroot,he⟩ := he
    cases he
    exact (h.unlinkBelow hnode (h.below hparent) hu).outside z hz

end

end Inside

section Trees
variable {tree tree' : Rbtree α} {T : ColorTree α} {x z : α}

omit [DecidableEq α] in
lemma Linked.closed {mem : α → Rbnode α} (h : Linked mem T) (hx : x ∈ T.inorder) (side : Side) {y : α}
    (hy : getChild mem x side = some y) : y ∈ T.inorder := by
  have hroot : ∀ {t : ColorTree α}, rootPtr t = some y → y ∈ t.inorder := by
    intro t ht
    cases t with
    | leaf => cases ht
    | node c l w r => simp [some.inj ht]
  induction T with
  | leaf => simp at hx
  | node c l w r ihl ihr =>
    obtain ⟨hw,hl,hr⟩ := h
    rw [inorder_node,mem_append,mem_cons] at hx ⊢
    rcases hx with hx | rfl | hx
    · exact .inl (ihl hl hx)
    · rw [getChild.eq_def,hw] at hy
      cases side with
      | left => exact .inl (hroot hy)
      | right => exact .inr (.inr (hroot hy))
    · exact .inr (.inr (ihr hr hx))

omit [DecidableEq α] in
lemma Holds.root_mem {root : α} (h : Holds tree T) (hr : tree.root = some root) : root ∈ T.inorder := by
  rw [h.root] at hr
  cases T with
  | leaf => cases hr
  | node c l w r => simp [some.inj hr]

/-- `rb_insert` leaves the other nodes alone. -/
theorem rbInsert_outside (h : Holds tree T) (he : rbInsert tree x = some tree') (hz : z ∉ T.inorder)
    (hzx : z ≠ x) : tree'.mem z = tree.mem z := by
  let S : Set α := {y | y = x ∨ y ∈ T.inorder}
  have hxS : x ∈ S := .inl rfl
  have hzS : z ∉ S := fun hzS => hzS.elim hzx hz
  have h₀ : Inside S tree.mem (.fresh (setChild (setChild tree.mem x .left none) x .right none)
      tree.maxDepth) := by
    refine ⟨fun y hy side w hw => ?_,fun y hy => by simp at hy,fun w hw => ?_⟩
    · by_cases hyx : y = x
      · subst hyx
        cases side <;> simp [setChild,setNode] at hw
      · refine .inr (h.inMemory.linked.closed (hy.resolve_left hyx) side ?_)
        cases side <;> simpa [setChild,setNode,hyx] using hw
    · have hwx : w ≠ x := fun hwx => hw (.inl hwx)
      simp [setChild,setNode,hwx]
  rw [rbInsert] at he
  split at he
  · cases he
    exact (h₀.setColor hxS .black).outside z hzS
  · next root hr =>
    simp only [bind_eq_bind,bind_eq_some_iff] at he
    obtain ⟨⟨st₁,sz⟩,hfind,parent,hparent,st₂,hw,st₃,hfix,root',hroot',he⟩ := he
    cases he
    have h₁ := h₀.findAndStack (.inr (h.root_mem hr)) hfind
    refine (Inside.fixExtraRed (Inside.write ?_ hxS hw) hfix).outside z hzS
    exact (h₁.setChild_some _ (h₁.below hparent) hxS).setColor hxS .red

theorem rbRemove_outside (h : Holds tree T) (hx : x ∈ T.inorder) (he : rbRemove tree x = some tree')
    (hz : z ∉ T.inorder) : tree'.mem z = tree.mem z := by
  have h₀ : Inside {y | y ∈ T.inorder} tree.mem (.fresh tree.mem tree.maxDepth) :=
    ⟨fun y hy side w hw => h.inMemory.linked.closed hy side hw,
      fun y hy => by simp at hy,fun _ _ => rfl⟩
  simp only [rbRemove,bind_eq_bind,bind_eq_some_iff] at he
  obtain ⟨root,hr,⟨st₁,sz⟩,hfind,top,-,he⟩ := he
  have h₁ := h₀.findAndStack (h.root_mem hr) hfind
  split at he
  · cases he
    exact h₁.outside z hz
  · obtain ⟨⟨st₂,sz₂⟩,hswap,he⟩ := bind_eq_some_iff.mp he
    have h₂ : Inside {y | y ∈ T.inorder} tree.mem st₂ := by
      split at hswap
      · exact h₁.swapWithPredecessor hx hswap
      · cases hswap
        exact h₁
    exact h₂.unlink hx he z hz

end Trees
end ArmFirmware.Zephyr.RedBlackTree
