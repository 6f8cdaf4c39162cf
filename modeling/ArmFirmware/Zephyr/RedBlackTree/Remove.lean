import ArmFirmware.Zephyr.RedBlackTree.MissingBlack

/-! Removal. A node with two children first changes places with its predecessor; what is
then unlinked has at most one child. -/
namespace ArmFirmware.Zephyr.RedBlackTree
open Library.RedBlack Library.RedBlack.ColorTree List Option State ColorTree

attribute [local simp] swapBelow setColor setNode getColor getChild Frame.fill ancestors

variable {α : Type*} [DecidableEq α]

/-- What a removal leaves behind: a tree with the given elements, within the same depth. -/
structure Unlinked (tree tree' : Rbtree α) (T' : ColorTree α) (elements : List α) : Prop where
  root : tree'.root = rootPtr T'
  lessthanFn : tree'.lessthanFn = tree.lessthanFn
  inMemory : InMemory tree'.mem T'
  rb : ∃ N, RB T' .black N ∧ 2*N ≤ tree'.maxDepth+1
  height_le : T'.height ≤ tree'.maxDepth
  inorder_eq : T'.inorder = elements

section Unlink
variable {tree : Rbtree α} {st : State α} {path : List (Frame α)} {s : Side} {c : Color}
  {near : ColorTree α} {x : α} {D N n : ℕ}

omit [DecidableEq α] in
lemma only_child (h : RB (build s c x near .leaf) c n) (hn : near ≠ .leaf) :
    c = .black ∧ n = 1 ∧ ∃ y, near = .node .red .leaf y .leaf := by
  cases c with
  | red =>
    obtain ⟨h₁,h₂⟩ := h.of_build_red
    cases h₂
    exact absurd h₁.eq_leaf hn
  | black =>
    obtain ⟨m,c₁,c₂,rfl,h₁,h₂⟩ := h.of_build_black
    cases h₂
    cases h₁ with
    | leaf => exact absurd rfl hn
    | red ha hb =>
      rw [ha.eq_leaf,hb.eq_leaf]
      exact ⟨rfl,rfl,_,rfl⟩

variable {mem : α → Rbnode α}

omit [DecidableEq α] in
lemma onlyChild_eq (h : InMemory mem (plug path (build s c x near .leaf))) : onlyChild mem x = rootPtr near := by
  rw [onlyChild,getChild,getChild,h.get]
  cases s with
  | left => cases near <;> rfl
  | right => rfl

variable {f : Frame α}

lemma replace_spec {t : ColorTree α} (t' : ColorTree α) {y : α}
    (h : InMemory mem (plug (f::path) t)) (hy : rootPtr t = some y) (hl : Linked mem t')
    (hsub : t'.inorder.Sublist t.inorder) :
    InMemory (setChild mem f.elem (getSide mem f.elem y) (rootPtr t')) (plug (f::path) t') := by
  rw [h.parent.getSide hy]
  refine h.parent.setChild t' hl (nodup_focus_iff.mpr ?_)
  exact (nodup_focus_iff.mp h.nodup).sublist
    (((hsub.append_right _).append_right _).cons_cons _)

lemma unlinkBelow_spec (h : InMemory st.mem (plug (f::path) (build s c x near .leaf)))
    (hrb : RB (plug (f::path) (build s c x near .leaf)) .black N)
    (hD : (plug (f::path) (build s c x near .leaf)).height ≤ D) (hN : 2*N ≤ D+1)
    (hs : OnStack st.stack (x::ancestors (f::path))) (hcap : st.stack.length = D+1) :
    ∃ st' T N', unlinkBelow st (path.length+2) x f.elem = some st' ∧ Fixed st' T D N' ∧ N' ≤ N ∧
      T.inorder = (plug (f::path) near).inorder := by
  obtain ⟨c',n,hhole,hx⟩ := Hole.exists_of_plug hrb
  obtain rfl : c = c' := by
    rw [← hx.rootColor_eq]
    cases s <;> rfl
  obtain ⟨hlen,hshallow⟩ := (height_plug_le _ _).mp hD
  have hchild := onlyChild_eq h
  cases near with
  | leaf =>
    cases c with
    | black =>
      -- the node stands in for the missing child during the fix-up
      obtain ⟨m,c₁,c₂,rfl,h₁,-⟩ := hx.of_build_black
      cases h₁
      have hphys : build s .black x (.leaf : ColorTree α) .leaf = .node .black .leaf x .leaf := by
        cases s <;> rfl
      have hblack := h.isBlack
      obtain ⟨-,-,hnull⟩ := not_mem_of_focus h.nodup
      rw [hphys] at h
      obtain ⟨st',T,N',he,hfix,hle,hio⟩ := fixMissingBlack_spec (f::path) (path.length+3)
        Spot.removed hnull (by simp) rfl .leaf hhole h hs hcap hshallow hN (by simp)
      refine ⟨st',T,N',?_,hfix,hle,hio⟩
      rw [unlinkBelow,hchild]
      simpa [hblack] using he
    | red =>
      obtain ⟨h₁,-⟩ := hx.of_build_red
      cases h₁
      have hm := replace_spec .leaf h rootPtr_build trivial (by simp)
      refine ⟨⟨setChild st.mem f.elem (getSide st.mem f.elem x) none,st.stack⟩,
        plug (f::path) .leaf,N,?_,⟨hm,hs.2.root (by simp),hhole.of_red.plug .leaf,?_⟩,le_refl N,rfl⟩
      · rw [unlinkBelow,hchild]
        simp [h.isBlack]
      · exact (height_plug_le _ _).mpr ⟨by simp [height] at hlen ⊢; omega,hshallow⟩
  | node c₁ l y r =>
    obtain ⟨rfl,rfl,z,hz⟩ := only_child hx (by simp)
    obtain ⟨rfl,rfl,rfl,rfl⟩ := node.inj hz
    have hxf : x ≠ f.elem := by
      rintro rfl
      exact (not_mem_of_focus h.nodup).2.2 (by simp)
    have hm := replace_spec (build .left .red y .leaf .leaf) h rootPtr_build
      h.near.linked.sub (by cases s <;> simp [build])
    rw [rootPtr_build] at hm
    refine ⟨⟨setColor (setChild st.mem f.elem (getSide st.mem f.elem x) (some y)) y .black,
      st.stack⟩,plug (f::path) (.node .black .leaf y .leaf),N,?_,
      ⟨hm.setColor .black,hs.2.root (by simp),hhole.plug (.black .leaf .leaf),?_⟩,le_refl N,?_⟩
    · have hxb : isBlack (setChild st.mem f.elem (getSide st.mem f.elem x) (some y)) x = true := by
        have hsame : setChild st.mem f.elem (getSide st.mem f.elem x) (some y) x = st.mem x := setNode_of_ne _ hxf _
        rw [isBlack,getColor,hsame]
        exact h.isBlack
      rw [unlinkBelow,hchild]
      simp [rootPtr,hxb,hm.isRed]
    · refine (height_plug_le _ _).mpr ⟨?_,hshallow⟩
      rw [height_build] at hlen
      simp [height] at hlen ⊢
      omega
    · exact inorder_plug_congr (f::path) rfl

/-- A node with one child at most is unlinked. -/
theorem unlink_spec (h : InMemory st.mem (plug path (build s c x near .leaf)))
    (hrb : RB (plug path (build s c x near .leaf)) .black N)
    (hD : (plug path (build s c x near .leaf)).height ≤ tree.maxDepth) (hN : 2*N ≤ tree.maxDepth+1)
    (hs : OnStack st.stack (x::ancestors path)) (hcap : st.stack.length = tree.maxDepth+1) :
    ∃ tree' T', unlink tree st (path.length+1) x = some tree' ∧
      Unlinked tree tree' T' (plug path near).inorder := by
  cases path with
  | nil =>
    -- the root itself
    have hchild := onlyChild_eq h
    cases near with
    | leaf =>
      refine ⟨{tree with root := none, maxDepth := 0, mem := st.mem},.leaf,?_,
        rfl,rfl,⟨trivial,by simp⟩,⟨0,.leaf,by simp⟩,by simp [height],rfl⟩
      rw [unlink,if_pos (by simp),hchild]
      rfl
    | node c₁ l y r =>
      have hc : c = .black := by
        rw [← hrb.rootColor_eq]
        cases s <;> rfl
      subst hc
      obtain ⟨-,rfl,z,hz⟩ := only_child hrb (by simp)
      obtain ⟨rfl,rfl,rfl,rfl⟩ := node.inj hz
      have hy : InMemory st.mem (plug [] (build .left .red y .leaf .leaf)) :=
        ⟨h.near.linked.sub,by simp [plug,build]⟩
      refine ⟨{tree with root := some y, mem := setColor st.mem y .black},
        .node .black .leaf y .leaf,?_,rfl,rfl,hy.setColor .black,⟨1,.black .leaf .leaf,hN⟩,?_,rfl⟩
      · rw [unlink,if_pos (by simp),hchild]
        rfl
      · rw [plug,height_build] at hD
        simp [height]
        omega
  | cons f path =>
    obtain ⟨st',T,N',he,hfix,hle,hio⟩ := unlinkBelow_spec h hrb hD hN hs hcap
    obtain ⟨y,hy⟩ : ∃ y, rootPtr T = some y := by
      cases T with
      | leaf =>
        have hmem : f.elem ∈ (plug (f::path) near).inorder := (inorder_plug_perm _ _).mem_iff.mpr (by simp)
        rw [← hio] at hmem
        simp at hmem
      | node c' l' y r' => exact ⟨y,rfl⟩
    refine ⟨{tree with root := some y, mem := st'.mem},T,?_,hy.symm,rfl,hfix.inMemory,
      ⟨N',hfix.rb,by simp only; omega⟩,hfix.height_le,hio⟩
    have hsecond := hs.second
    rw [length_map] at hsecond
    rw [length_cons,unlink,if_neg (by omega),hsecond]
    simp only [bind_eq_bind,bind_some]
    rw [he,bind_some,hfix.root,hy]
    rfl

end Unlink

omit [DecidableEq α] in
/-- The right limb of a node is stacked. -/
lemma stackRightLimb_spec (rounds : ℕ) {t : ColorTree α} {y : α} {path : List (Frame α)}
    {st : State α} (hl : Linked st.mem (plug path t)) (hy : rootPtr t = some y)
    (hs : OnStack st.stack (y::ancestors path)) (hdepth : path.length+t.height ≤ st.stack.length)
    (hrounds : t.height ≤ rounds) : ∃ st' limb c l z, stackRightLimb rounds st (path.length+1) y =
        some (st',(limb ++ path).length+1,z) ∧ st'.mem = st.mem ∧
      st'.stack.length = st.stack.length ∧ plug limb (.node c l z .leaf) = t ∧
      (∀ f ∈ limb, f.side = .right) ∧ OnStack st'.stack (z::ancestors (limb ++ path)) := by
  induction rounds generalizing t path st y with
  | zero =>
    cases t with
    | leaf => simp at hy
    | node c l z r => simp [height] at hrounds
  | succ rounds ih =>
    cases t with
    | leaf => simp at hy
    | node c l z r =>
      obtain rfl : z = y := by simpa [rootPtr] using hy
      have hget : getChild st.mem z .right = rootPtr r := by
        rw [getChild,(linked_plug.mp hl).2.1]
      rw [stackRightLimb,hget]
      cases r with
      | leaf => exact ⟨st,[],c,l,z,rfl,rfl,rfl,rfl,by simp,hs⟩
      | node c' l' ch r' =>
        have hheight : (node c l z (.node c' l' ch r')).height = 1+max l.height (node c' l' ch r').height := rfl
        have hpos : 1 ≤ (node c' l' ch r').height := by simp [height]
        have hpush := hs.push (x := ch) (by simp; omega)
        simp only [length_cons,ancestors_length] at hpush
        let pushed : State α := ⟨st.mem,st.stack.set (path.length+1) (some ch)⟩
        obtain ⟨st',limb,c₂,l₂,z₂,he,hmem,hlen,htree,hside,hs'⟩ := ih
          (show Linked pushed.mem (plug (⟨.right,c,z,l⟩::path) _) from hl) rfl hpush
          (by simp only [pushed,length_cons,length_set]; omega) (by omega)
        refine ⟨st',limb ++ [⟨.right,c,z,l⟩],c₂,l₂,z₂,?_,hmem,by simpa [pushed] using hlen,
          by rw [plug_append,htree]; rfl,?_,by simpa using hs'⟩
        · simp only [rootPtr]
          rw [write_eq _ (by omega)]
          simpa using he
        · intro f hf
          obtain hf | hf := mem_append.mp hf
          · exact hside f hf
          · rw [mem_singleton.mp hf]

section Swap
variable {mem mem₀ : α → Rbnode α} {stack : List (Option α)} {x y lo : α}

lemma swapBelow_adjacent (mem : α → Rbnode α) (hxy : x ≠ y) :
    swapBelow mem x x y x = ⟨(mem y).left,none,(mem y).color⟩ ∧
      swapBelow mem x x y y = ⟨some x,(mem x).right,(mem x).color⟩ ∧
      ∀ z, z ≠ x → z ≠ y → swapBelow mem x x y z = mem z := by
  refine ⟨?_,?_,fun z hx hy => ?_⟩
  · simp [setChild,hxy,hxy.symm]
  · simp [setChild,hxy,hxy.symm]
  · simp [setChild,hx,hy]

lemma swapBelow_apart (hxy : x ≠ y) (hlx : lo ≠ x) (hly : lo ≠ y) (hside : getSide mem lo y = .right) :
    swapBelow mem lo x y x = ⟨(mem y).left,none,(mem y).color⟩ ∧ swapBelow mem lo x y y = mem x ∧
      swapBelow mem lo x y lo = {mem lo with right := some x} ∧
      ∀ z, z ≠ x → z ≠ y → z ≠ lo → swapBelow mem lo x y z = mem z := by
  refine ⟨?_,?_,?_,fun z hx hy hz => ?_⟩
  · simp [setChild,hxy,hxy.symm,hlx,hlx.symm,hly.symm]
  · simp [setChild,hxy,hxy.symm,hlx,hlx.symm,hly.symm]
  · simp [setChild,hlx,hly,hside]
  · simp [setChild,hlx,hx,hy,hz]

/-- The root of what hangs below a part of a path, given the root of its hole. -/
def outermost : List (Frame α) → Option α → Option α
  | [],hole => hole
  | f::path,_ => outermost path (some f.elem)

omit [DecidableEq α] in
lemma linkedPath_append {upper lower : List (Frame α)} {hole : Option α} : LinkedPath mem (lower ++ upper) hole ↔
      LinkedPath mem lower hole ∧ LinkedPath mem upper (outermost lower hole) := by
  induction lower generalizing hole with
  | nil => simp [LinkedPath,outermost]
  | cons f lower ih =>
    rw [cons_append,LinkedPath,LinkedPath,ih,outermost]
    tauto

def lowParent (limb : List (Frame α)) (x : α) : α :=
  match limb with
  | [] => x
  | f::_ => f.elem

variable {limb : List (Frame α)} {c : Color}

lemma swapBelow_spec {right : Option α}
    (hx : mem x = ⟨outermost limb (some y),right,c⟩) (hlimb : LinkedPath mem limb (some y))
    (hside : ∀ f ∈ limb, f.side = .right) (hn : (x::y::elems limb).Nodup) :
    let mem' := swapBelow mem (lowParent limb x) x y
    mem' x = ⟨(mem y).left,none,(mem y).color⟩ ∧ mem' y = ⟨outermost limb (some x),right,c⟩ ∧
      LinkedPath mem' limb (some x) ∧ ∀ z ∉ x::y::elems limb, mem' z = mem z := by
  intro mem'
  simp only [nodup_cons,mem_cons,not_or] at hn
  obtain ⟨⟨hxy,hxl⟩,hyl,hnl⟩ := hn
  cases limb with
  | nil =>
    obtain ⟨h₁,h₂,h₃⟩ := swapBelow_adjacent mem hxy
    refine ⟨h₁,?_,trivial,fun z hz => h₃ z ?_ ?_⟩
    · rw [hx] at h₂
      exact h₂
    all_goals
      rintro rfl
      simp at hz
  | cons f limb =>
    obtain ⟨hf,ho,hp⟩ := hlimb
    rw [hside f (mem_cons_self ..)] at hf
    simp only [elems_cons,mem_cons,mem_append,not_or] at hxl hyl
    simp only [elems_cons,nodup_cons,mem_append,not_or] at hnl
    have hsd : getSide mem f.elem y = .right := getSide_eq hf fun h => hyl.2.1 (rootPtr_mem h)
    obtain ⟨h₁,h₂,h₃,h₄⟩ := swapBelow_apart hxy (Ne.symm hxl.1) (Ne.symm hyl.1) hsd
    have hother : ∀ z, z ∈ f.other.inorder ∨ z ∈ elems limb → mem' z = mem z := by
      intro z hz
      refine h₄ z ?_ ?_ ?_
      · rintro rfl
        exact hz.elim hxl.2.1 hxl.2.2
      · rintro rfl
        exact hz.elim hyl.2.1 hyl.2.2
      · rintro rfl
        exact hz.elim hnl.1.1 hnl.1.2
    refine ⟨h₁,h₂.trans hx,⟨?_,ho.congr fun z hz => hother z (.inl hz),
      hp.congr fun z hz => hother z (.inr hz)⟩,fun z hz => ?_⟩
    · rw [hside f (mem_cons_self ..)]
      refine h₃.trans ?_
      rw [hf]
      rfl
    · simp only [elems_cons,mem_cons,not_or] at hz
      exact h₄ z hz.1 hz.2.1 hz.2.2.1

omit [DecidableEq α] in
lemma inorder_swap_perm (path limb : List (Frame α)) (c c₂ : Color) (r l₂ : ColorTree α) (a b : α) :
    (plug (limb ++ ⟨.left,c,a,r⟩::path) (.node c₂ l₂ b .leaf)).inorder.Perm
      (a::b::elems limb ++ (l₂.inorder ++ (r.inorder ++ elems path))) := by
  refine (inorder_plug_perm _ _).trans (Multiset.coe_eq_coe.mp ?_)
  simp only [elems,flatMap_append,flatMap_cons,inorder_node,inorder_leaf,cons_append,
    ← Multiset.coe_add,← Multiset.cons_coe,← Multiset.singleton_add]
  abel

variable {path : List (Frame α)} {r : ColorTree α}

/-- A node and its predecessor have changed places. -/
lemma swap_inMemory {c₂ : Color} {l₂ : ColorTree α}
    (h : InMemory mem (plug (limb ++ ⟨.left,c,x,r⟩::path) (.node c₂ l₂ y .leaf)))
    (hside : ∀ f ∈ limb, f.side = .right) : InMemory (swapBelow (relinkHead mem path x y) (lowParent limb x) x y)
      (plug (limb ++ ⟨.left,c,y,r⟩::path) (.node c₂ l₂ x .leaf)) := by
  obtain ⟨hl,hn⟩ := h
  have hnd := (inorder_swap_perm path limb c c₂ r l₂ x y).nodup_iff.mp hn
  refine ⟨?_,(inorder_swap_perm path limb c c₂ r l₂ y x).nodup_iff.mpr
    ((List.Perm.swap _ _ _).nodup_iff.mp hnd)⟩
  obtain ⟨hpath,hy,hl₂,-⟩ := linked_plug.mp hl
  obtain ⟨hlimb,hx,hr,hpath⟩ := linkedPath_append.mp hpath
  obtain ⟨hn₁,hn₂,hdis⟩ := nodup_append.mp hnd
  obtain ⟨-,hn₃,hdis₂⟩ := nodup_append.mp hn₂
  obtain ⟨-,hn₄,hdis₃⟩ := nodup_append.mp hn₃
  simp only [mem_append] at hdis hdis₂
  have hxp : x ∉ elems path := fun h => hdis x (by simp) x (.inr (.inr h)) rfl
  -- the write to the node above, then those below it
  obtain ⟨hpath₁,hsame⟩ := relinkHead_spec hpath (nodup_cons.mpr ⟨hxp,hn₄⟩) y
  generalize relinkHead mem path x y = mem₁ at hpath₁ hsame
  have hsame' : ∀ z ∈ x::y::elems limb, mem₁ z = mem z :=
    fun z hz => hsame z fun h => hdis z hz z (.inr (.inr h)) rfl
  obtain ⟨hx',hy',hlimb',hrest⟩ := swapBelow_spec ((hsame' x (by simp)).trans hx)
    (hlimb.congr fun z hz => hsame' z (by simp [hz])) hside hn₁
  have hrest' : ∀ z, z ∈ l₂.inorder ∨ z ∈ r.inorder ∨ z ∈ elems path →
      swapBelow mem₁ (lowParent limb x) x y z = mem₁ z :=
    fun z hz => hrest z fun h => hdis z h z hz rfl
  rw [hsame' y (by simp),hy] at hx'
  refine linked_plug.mpr ⟨linkedPath_append.mpr ⟨hlimb',hy',?_,?_⟩,hx',?_,trivial⟩
  · refine hr.congr fun z hz => (hrest' z (.inr (.inl hz))).trans (hsame z fun h => ?_)
    exact hdis₃ z hz z h rfl
  · exact hpath₁.congr fun z hz => hrest' z (.inr (.inr hz))
  · refine hl₂.congr fun z hz => (hrest' z (.inl hz)).trans (hsame z fun h => ?_)
    exact hdis₂ z hz z (.inr h) rfl

lemma swapLinks_eq (path : List (Frame α)) (hs : OnStack stack (x::ancestors path)) :
    swapLinks mem (if 1 < path.length+1 then below ⟨mem₀,stack⟩ (path.length+1) 2 else none)
      lo x y = swapBelow (relinkHead mem path x y) lo x y := by
  cases path with
  | nil => rfl
  | cons f path =>
    have hsecond : below ⟨mem₀,stack⟩ ((ancestors path).length+2) 2 = some f.elem := OnStack.second hs
    rw [ancestors_length] at hsecond
    rw [length_cons,hsecond,if_pos (by omega)]
    rfl

/-- A node changes places with its predecessor before it is unlinked. -/
theorem swapWithPredecessor_spec {l : ColorTree α}
    {st : State α} {N D : ℕ} (h : InMemory st.mem (plug path (.node c l x r)))
    (hleft : l ≠ .leaf) (hs : OnStack st.stack (x::ancestors path)) (hrb : RB (plug path (.node c l x r)) .black N)
    (hD : (plug path (.node c l x r)).height ≤ D) (hcap : st.stack.length = D+1) :
    ∃ st' path' c₂ l₂, swapWithPredecessor st (path.length+1) x = some (st',path'.length+1) ∧
      st'.stack.length = D+1 ∧ InMemory st'.mem (plug path' (build .left c₂ x l₂ .leaf)) ∧
      RB (plug path' (build .left c₂ x l₂ .leaf)) .black N ∧
      (plug path' (build .left c₂ x l₂ .leaf)).height ≤ D ∧ OnStack st'.stack (x::ancestors path') ∧
      (plug path' l₂).inorder = before path ++ (l.inorder ++ r.inorder) ++ after path := by
  obtain ⟨y₀,hy₀⟩ : ∃ y₀, rootPtr l = some y₀ := by
    cases l with
    | leaf => exact absurd rfl hleft
    | node c' l' y₀ r' => exact ⟨y₀,rfl⟩
  obtain ⟨hdeep,-⟩ := (height_plug_le _ _).mp hD
  simp only [height] at hdeep
  let pushed : State α := ⟨st.mem,st.stack.set (path.length+1) (some y₀)⟩
  have hpush : OnStack pushed.stack (y₀::ancestors (⟨.left,c,x,r⟩::path)) := by
    have := hs.push (x := y₀) (by simp; omega)
    simpa [pushed] using this
  obtain ⟨st₁,limb,c₂,l₂,y,hrun,hmem,hlen,hlimb,hside,hs₁⟩ := stackRightLimb_spec
    (pushed.stack.length+1) (show Linked pushed.mem (plug (⟨.left,c,x,r⟩::path) l) from
    h.linked) hy₀ hpush (by simp [pushed]; omega) (by simp [pushed]; omega)
  simp only [pushed,length_set] at hlen
  have hshape : (plug (limb ++ ⟨.left,c,y,r⟩::path) (build .left c₂ x l₂ .leaf)).shape =
      (plug path (.node c l x r)).shape := by
    rw [plug_append,← hlimb]
    exact shape_plug_congr path (shape_build_congr .left c y x r (shape_plug_congr limb rfl))
  have hsplit : OnStack st₁.stack ((y::ancestors limb) ++ x::ancestors path) := by
    simpa using hs₁
  have hswap := (hsplit.replace y).retop x
  have hlow : st₁.below ((limb ++ ⟨.left,c,x,r⟩::path).length+1) 2 = some (lowParent limb x) := by
    cases limb with
    | nil =>
      have := hsplit.second
      simpa [lowParent] using this
    | cons f limb =>
      have := hs₁.second
      simpa [lowParent] using this
  have hlenl : (limb ++ ⟨.left,c,x,r⟩::path).length = limb.length+(path.length+1) := by simp
  have hcap₁ := hs₁.length_le
  simp only [length_cons,ancestors_length,hlenl] at hcap₁
  let swapped : State α := ⟨swapBelow (relinkHead st₁.mem path x y) (lowParent limb x) x y,
    (st₁.stack.set path.length (some y)).set (limb.length+(path.length+1)) (some x)⟩
  refine ⟨swapped,limb ++ ⟨.left,c,y,r⟩::path,c₂,l₂,?_,?_,?_,hrb.of_shape hshape.symm,?_,?_,?_⟩
  · have hchild : getChild st.mem x .left = some y₀ := by
      rw [getChild,(linked_plug.mp h.linked).2.1,hy₀]
    have htop := hs₁.top
    have hmid : st₁.below (path.length+1) 1 = some x := by
      have := hsplit.get
      rw [ancestors_length] at this
      simp [State.below,State.read,this]
    rw [ancestors_length] at htop
    rw [swapWithPredecessor,hchild]
    simp only [bind_eq_bind,bind_some]
    rw [write_eq _ (by omega),bind_some]
    change (stackRightLimb (pushed.stack.length+1) pushed ((⟨.left,c,x,r⟩::path).length+1) y₀).bind
      _ = _
    rw [hrun]
    simp only [bind_some,hlow,hmid,htop,swapLinks_eq path hs,Nat.add_sub_cancel]
    rw [write_eq _ (by simp; omega),bind_some,write_eq _ (by simp; omega),hlenl]
    simp [swapped]
  · simp [swapped,hlen,hcap]
  · refine swap_inMemory ?_ hside
    rw [hmem,plug_append,hlimb]
    exact h
  · rw [← height_shape,hshape,height_shape]
    exact hD
  · simpa [swapped] using hswap
  · rw [plug_append,← hlimb,plug,inorder_plug]
    simp [build,inorder_plug,after_eq_nil hside]

end Swap

/-- `rb_remove` removes one node from the red-black tree. -/
theorem rbRemove_spec {tree : Rbtree α} {T : ColorTree α} {x : α} (h : Holds tree T) (hT : T ≠ .leaf) :
    ∃ tree' T', rbRemove tree x = some tree' ∧ Holds tree' T' ∧ tree'.lessthanFn = tree.lessthanFn ∧
      ((∃ A B, T.inorder = A ++ x::B ∧ T'.inorder = A ++ B) ∨
        T' = T ∧ ∃ path, plug path .leaf = T ∧ Followed tree.lessthanFn x path) := by
  have hholds := h
  obtain ⟨hroot,hmem,⟨N,hrb,hN⟩,hheight⟩ := h
  obtain ⟨root,hr⟩ : ∃ root, rootPtr T = some root := by
    cases T with
    | leaf => exact absurd rfl hT
    | node c l root r => exact ⟨root,rfl⟩
  obtain ⟨st,sz,hfind,hstmem,hlen,hfound⟩ := findAndStack_spec tree.lessthanFn x hr
    (show Linked (fresh tree.mem tree.maxDepth).mem _ from hmem.linked)
    (by simp only [fresh,length_replicate]; omega)
  simp only [fresh] at hstmem
  simp only [fresh,length_replicate] at hlen
  cases hfound with
  | @hole f path htree hstack hb =>
    refine ⟨tree,T,?_,hholds,rfl,.inr ⟨rfl,f::path,htree,hb⟩⟩
    have htop := hstack.top
    rw [length_map] at htop
    rw [rbRemove,hroot,hr]
    simp only [bind_eq_bind,bind_some]
    rw [hfind]
    simp only [bind_some,htop,hstmem]
    rw [if_pos (Ne.symm (hb f (mem_cons_self ..)).1),← hr,← hroot]
  | @node path c l r htree hstack =>
    subst htree
    have htop := hstack.top
    rw [ancestors_length] at htop
    have hchild : st.mem x = ⟨rootPtr l,rootPtr r,c⟩ := by
      rw [hstmem]
      exact (linked_plug.mp hmem.linked).2.1
    have hio : (plug path (.node c l x r)).inorder =
        (before path ++ l.inorder) ++ x::(r.inorder ++ after path) := by
      simp [inorder_plug]
    rw [← hstmem] at hmem
    -- what remains once the node has at child
    suffices hrest : ∃ tree' T', ((if (rootPtr l).isSome && (rootPtr r).isSome then
        swapWithPredecessor st (path.length+1) x else some (st,path.length+1)).bind
          fun p => unlink tree p.1 p.2 x) = some tree' ∧
        Unlinked tree tree' T' ((before path ++ l.inorder) ++ (r.inorder ++ after path)) by
      obtain ⟨tree',T',he,hu⟩ := hrest
      refine ⟨tree',T',?_,{ hu with },hu.lessthanFn,.inl ⟨_,_,hio,hu.inorder_eq⟩⟩
      rw [rbRemove,hroot,hr]
      simp only [bind_eq_bind,bind_some]
      rw [hfind]
      simp only [bind_some,htop,getChild,hchild]
      rw [if_neg (by simp)]
      exact he
    cases l with
    | leaf =>
      obtain ⟨tree',T',he,hu⟩ := unlink_spec (s := .right) hmem hrb hheight hN hstack hlen
      rw [inorder_plug] at hu
      exact ⟨tree',T',he,by simpa using hu⟩
    | node cl ll xl rl =>
      cases r with
      | leaf =>
        obtain ⟨tree',T',he,hu⟩ := unlink_spec (s := .left) hmem hrb hheight hN hstack hlen
        rw [inorder_plug] at hu
        exact ⟨tree',T',he,by simpa using hu⟩
      | node cr lr xr rr =>
        obtain ⟨st',path',c₂,l₂,hswap,hlen',hmem',hrb',hheight',hstack',hio'⟩ :=
          swapWithPredecessor_spec hmem (by simp) hstack hrb hheight hlen
        obtain ⟨tree',T',he,hu⟩ := unlink_spec hmem' hrb' hheight' hN hstack' hlen'
        rw [hio'] at hu
        refine ⟨tree',T',?_,by simpa using hu⟩
        rw [hswap]
        exact he

section Sorted
variable {mem : α → Rbnode α} {T : ColorTree α}

omit [DecidableEq α] in
lemma minmaxLoop_left {x : α} {rounds : ℕ} (h : Linked mem T) (hx : rootPtr T = some x)
    (hrounds : T.height ≤ rounds) : minmaxLoop mem .left rounds x = T.inorder.head? := by
  induction T generalizing x rounds with
  | leaf => simp at hx
  | node c l y r ihl ihr =>
    obtain ⟨hy,hl,-⟩ := h
    obtain rfl : y = x := Option.some.inj hx
    obtain ⟨k,rfl⟩ : ∃ k, rounds = k+1 := ⟨rounds-1,by simp only [height] at hrounds; omega⟩
    have hheight : l.height ≤ k := by
      simp only [height] at hrounds
      omega
    rw [minmaxLoop,getChild,hy]
    cases l with
    | leaf => rfl
    | node c' l' z r' =>
      have hfirst := ihl hl rfl hheight
      simpa [rootPtr] using hfirst

variable {tree : Rbtree α} {x : α}

omit [DecidableEq α] in
theorem zRbGetMinmax_left (h : Holds tree T) : zRbGetMinmax tree .left = some T.inorder.head? := by
  rw [zRbGetMinmax,h.root]
  cases T with
  | leaf => rfl
  | node c l y r =>
    have hne : (ColorTree.node c l y r).inorder ≠ [] := by simp
    rw [rootPtr]
    dsimp only
    rw [minmaxLoop_left h.inMemory.linked rfl h.height_le,List.head?_eq_some_head hne]
    rfl

theorem Holds.insert (h : Holds tree T) (hx : x ∉ T.inorder)
    (hlt : StrictTotalOn tree.lessthanFn (x::T.inorder)) (hs : Sorted tree.lessthanFn T) :
    ∃ tree' T', rbInsert tree x = some tree' ∧ Holds tree' T' ∧
      tree'.lessthanFn = tree.lessthanFn ∧ Sorted tree.lessthanFn T' ∧ T'.inorder.Perm (x::T.inorder) := by
  obtain ⟨tree',T',path,he,hT',hlt',rfl,hpath,hio⟩ := rbInsert_spec h hx
  refine ⟨tree',T',he,hT',hlt',?_,?_⟩
  · have hsorted := (hpath.between hlt hs).sorted hs .red
    rw [Sorted,inorder_plug] at hsorted
    rw [Sorted,hio]
    simpa using hsorted
  · rw [hio,inorder_plug]
    simp

theorem Holds.remove (h : Holds tree T) (hx : x ∈ T.inorder)
    (hlt : StrictTotalOn tree.lessthanFn T.inorder) (hs : Sorted tree.lessthanFn T) :
    ∃ tree' T', rbRemove tree x = some tree' ∧ Holds tree' T' ∧
      tree'.lessthanFn = tree.lessthanFn ∧ T'.inorder = T.inorder.erase x := by
  have hne : T ≠ .leaf := by
    rintro rfl
    simp at hx
  obtain ⟨tree',T',he,hT',hlt',hcases⟩ := rbRemove_spec h hne
  refine ⟨tree',T',he,hT',hlt',?_⟩
  obtain ⟨A,B,hA,hB⟩ | ⟨-,path,rfl,hpath⟩ := hcases
  · have hn := h.inMemory.nodup
    rw [hA,perm_middle.nodup_iff,nodup_cons,mem_append,not_or] at hn
    rw [hA,hB,erase_append_right _ hn.1.1,erase_cons_head]
  · have hwith : StrictTotalOn tree.lessthanFn (x::(plug path (.leaf : ColorTree α)).inorder) :=
      hlt.mono (by simp [hx])
    exact absurd hx ((hpath.between hwith hs).not_mem (hlt.irrefl x hx))

end Sorted

end ArmFirmware.Zephyr.RedBlackTree
