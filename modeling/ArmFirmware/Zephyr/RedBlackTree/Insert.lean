import ArmFirmware.Zephyr.RedBlackTree.Search

/-! Insertion. Every round of the fix-up moves the extra red node two levels up and one
black level higher, so the stack size bounds the depth of the tree it ends with. -/
namespace ArmFirmware.Zephyr.RedBlackTree
open Library.RedBlack Library.RedBlack.ColorTree List Option State Frame

variable {α : Type*}

lemma OnStack.root {st : State α} {t : ColorTree α} {x : α} {path : List (Frame α)}
    (h : OnStack st.stack (x::ancestors path)) (hx : rootPtr t = some x) : st.read 0 = rootPtr (plug path t) := by
  induction path generalizing t x with
  | nil =>
    have h0 := h.1
    simp only [ancestors,map_nil,length_nil] at h0
    simp [State.read,h0,plug,hx]
  | cons f path ih =>
    rw [plug]
    exact ih h.2 (by simp [fill])

variable [DecidableEq α]

/-- The state after a fix-up that left the depth of the tree within `D` and its black height
at `N`: the tree is in memory, its root is at the bottom of the stack, and its colours are
right. -/
structure Fixed (st : State α) (T : ColorTree α) (D N : ℕ) : Prop where
  inMemory : InMemory st.mem T
  root : st.read 0 = rootPtr T
  rb : RB T .black N
  height_le : T.height ≤ D

section Rotate
variable {st : State α} {s s' : Side} {g p x y : α} {aunt a b o : ColorTree α}
  {path : List (Frame α)}

/-- The last step of the fix-up: the red node below the grandparent moves above it and they
swap colours. -/
lemma rotateGrandparent (h : InMemory st.mem (plug (⟨s,.black,g,aunt⟩::path) (build s .red y a b)))
    (hs : OnStack st.stack (y::g::ancestors path)) : ∃ st', (do
        let st ← rotate st (path.length+2)
        let upper ← st.below (path.length+3) 3
        let lower ← st.below (path.length+3) 2
        some {st with mem := setColor (setColor st.mem upper .black) lower .red}) = some st' ∧
      InMemory st'.mem (plug path (build s .black y a (build s .red g b aunt))) ∧
      OnStack st'.stack (y::ancestors path) := by
  obtain ⟨st₁,hrot,-,h₁,hs₁⟩ := rotate_spec h hs
  have hupper : st₁.below (path.length+3) 3 = some y := by
    have := hs₁.2.1
    rw [ancestors_length] at this
    simp [State.below,State.read,this]
  have hlower : st₁.below (path.length+3) 2 = some g := by
    have := hs₁.1
    rw [length_cons,ancestors_length] at this
    simp [State.below,State.read,this]
  refine ⟨{st₁ with mem := setColor (setColor st₁.mem y .black) g .red},
    by rw [hrot]; simp [hupper,hlower],?_,hs₁.2⟩
  exact ((h₁.setColor .black).far.setColor .red).of_far

/-- The fix-up below a black aunt. A node on the inner side is first rotated outwards. -/
lemma rotateExtraRed_spec {n : ℕ} {t : ColorTree α} (ht : RB t .red n) (hx : rootPtr t = some x)
    (ho : RB o .black n) (haunt : RB aunt .black n)
    (h : InMemory st.mem (plug (⟨s,.red,p,o⟩::⟨s',.black,g,aunt⟩::path) t))
    (hs : OnStack st.stack (x::p::g::ancestors path)) :
    ∃ st' t', rotateExtraRed st (path.length+3) x p s' = some st' ∧
      InMemory st'.mem (plug path t') ∧ (∃ y, rootPtr t' = some y ∧
        OnStack st'.stack (y::ancestors path)) ∧ RB t' .black (n+1) ∧ (plug path t').inorder =
        (plug (⟨s,.red,p,o⟩::⟨s',.black,g,aunt⟩::path) t).inorder := by
  obtain ⟨z,a,b,rfl,ha,hb⟩ := ht.red_cases s
  obtain rfl : z = x := by simpa using hx
  have hside := h.parent.getSide rootPtr_build
  by_cases hss : s = s'
  · subst hss
    obtain ⟨st',he,hm,hst⟩ := rotateGrandparent h.parent hs.2
    refine ⟨st',_,?_,hm,⟨p,by simp,hst⟩,(ht.build_black (ho.build_red haunt)),?_⟩
    · rw [rotateExtraRed,hside,if_neg (by simp)]
      exact he
    · exact inorder_plug_congr path (by cases s <;> simp [fill,build])
  · obtain rfl : s' = s.flip := by cases s <;> cases s' <;> simp_all [Side.flip]
    obtain ⟨st₁,hrot,-,h₁,hs₁⟩ := rotate_spec h hs
    rw [← build_flip] at h₁
    obtain ⟨st',he,hm,hst⟩ := rotateGrandparent h₁ hs₁.2
    refine ⟨st',_,?_,hm,⟨z,by simp,hst⟩,(hb.build_red ho).build_black (ha.build_red haunt),?_⟩
    · rw [rotateExtraRed,hside,if_pos hss]
      rw [length_cons] at hrot
      rw [hrot]
      exact he
    · exact inorder_plug_congr path (by cases s <;> simp [fill,build,Side.flip])

end Rotate

/-- `fix_extra_red` from a red node of black height `n` at the top of the stack. Only when
the red reaches the root does the black height grow, and then the stack started at twice
that height. -/
theorem fixExtraRed_spec {D N n : ℕ} (path : List (Frame α)) {t : ColorTree α} {x : α}
    {st : State α} (ht : RB t .red n) (hp : Hole N path .black n) (hx : rootPtr t = some x)
    (h : InMemory st.mem (plug path t)) (hs : OnStack st.stack (x::ancestors path)) (hD : Shallow D path) :
    ∃ st' T N', fixExtraRed (path.length+1) st = some st' ∧
      Fixed st' T (max D (path.length+1+2*n)) N' ∧ T.inorder = (plug path t).inorder ∧
      (N' = N ∨ 2*N' = path.length+1+2*n+1) := by
  induction hlen : path.length using Nat.strong_induction_on generalizing path t x st n with
  | _ len ih =>
    have hheight := ht.red_height_le
    cases hp with
    | root =>
      cases ht with
      | @red l y r _ hl hr =>
        have hread : st.read 0 = some y := by rw [hs.root hx]; rfl
        subst hlen
        refine ⟨{st with mem := setColor st.mem y .black},.node .black l y r,N+1,?_,
          ⟨?_,hread,.black hl hr,?_⟩,rfl,.inr (by simp; omega)⟩
        · simp [fixExtraRed,hread]
        · have hroot : InMemory st.mem (plug [] (build .left .red y l r)) := h
          exact hroot.setColor .black
        · have : (ColorTree.node .black l y r).height = (ColorTree.node .red l y r).height := rfl
          omega
    | @black s p o path _ n _ ho hp =>
      rw [length_cons] at hlen
      subst hlen
      refine ⟨st,_,N,?_,⟨h,hs.root hx,(Hole.black .red ho hp).plug ht,?_⟩,rfl,.inl rfl⟩
      · have htop := hs.top
        have hsecond := hs.second
        simp only [length_map,ancestors_length,length_cons] at htop hsecond
        rw [fixExtraRed,htop,hsecond]
        simp [h.parent.isBlack]
      · exact (height_plug_le _ _).mpr ⟨by simp; omega,hD.mono (le_max_left _ _)⟩
    | @red s p o path n ho hp =>
      cases hp with
      | @black s' g aunt path c' _ _ haunt hp =>
        rw [length_cons,length_cons] at hlen
        subst hlen
        have htop := hs.top
        have hsecond := hs.second
        have hthird := hs.third
        simp only [length_map,ancestors_length,length_cons] at htop hsecond hthird
        have hparent := h.parent
        have hg := hparent.parent
        -- the loop up to the choice by the colour of the aunt
        have hloop : fixExtraRed (path.length+1+1+1) st =
            (rootPtr aunt).elim (rotateExtraRed st (path.length+3) x p s') fun aunt =>
              if isRed st.mem aunt then
                fixExtraRed (path.length+1)
                  ⟨setColor (setColor (setColor st.mem g .red) p .black) aunt .black,st.stack⟩
              else rotateExtraRed st (path.length+3) x p s' := by
          rw [fixExtraRed,htop,hsecond,hthird]
          simp only [bind_eq_bind,bind_some,hparent.isBlack,hg.getSide rootPtr_build,getChild_far hg.get]
          cases rootPtr aunt <;> rfl
        have hrotate : RB aunt .black n → fixExtraRed (path.length+1+1+1) st =
            rotateExtraRed st (path.length+3) x p s' := by
          intro haunt
          rw [hloop]
          cases aunt with
          | leaf => rfl
          | node c l u r =>
            have hu := hg.far (b := build .left c u l r)
            have hc : c = .black := haunt.rootColor_eq
            simp [rootPtr,hu.isRed,hc]
        cases c' with
        | black =>
          obtain ⟨st',t',he,hm,⟨y,hy,hst⟩,hrb,hio⟩ := rotateExtraRed_spec ht hx ho haunt h hs
          have ht' := hrb.black_height_le
          refine ⟨st',_,N,(hrotate haunt).trans he,⟨hm,hst.root hy,hp.plug hrb,?_⟩,hio,.inl rfl⟩
          exact (height_plug_le _ _).mpr ⟨by omega,hD.2.2.mono (le_max_left _ _)⟩
        | red =>
          obtain ⟨u,al,ar,rfl,hal,har⟩ := haunt.red_cases .left
          -- recolour and go on from the grandparent
          have hm := (((hg.setColor .red).near.setColor .black).parent.far.setColor .black).of_far
          let recolored : State α := ⟨setColor (setColor (setColor st.mem g .red) p .black) u .black,st.stack⟩
          obtain ⟨st',T,N',he,hfix,hio,hN⟩ := ih path.length (by omega) path
            ((ht.build_black ho).build_red (.black hal har)) hp rootPtr_build
            (show InMemory recolored.mem _ from hm) hs.2.2 hD.2.2 rfl
          refine ⟨st',T,N',?_,?_,?_,?_⟩
          · rw [hloop]
            simp only [rootPtr_build,elim_some,hg.far.isRed,decide_true,if_true]
            exact he
          · rwa [show path.length+1+2*(n+1) = path.length+1+1+1+2*n by omega] at hfix
          · rw [hio]
            exact inorder_plug_congr path (by cases s <;> cases s' <;> simp [fill,build])
          · obtain h | h := hN
            · exact .inl h
            · exact .inr (by omega)

/-- The tree structure stands for a red-black tree: it is in memory below the root, and
`max_depth` bounds its height and its black height. -/
structure Holds (tree : Rbtree α) (T : ColorTree α) : Prop where
  root : tree.root = rootPtr T
  inMemory : InMemory tree.mem T
  rb : ∃ N, RB T .black N ∧ 2*N ≤ tree.maxDepth+1
  height_le : T.height ≤ tree.maxDepth

section Insert
variable {tree : Rbtree α} {T : ColorTree α} {x : α}

lemma InMemory.setNode {mem : α → Rbnode α} (h : InMemory mem T) (hx : x ∉ T.inorder)
    (f : Rbnode α → Rbnode α) : InMemory (setNode mem x f) T := ⟨h.linked.setNode hx,h.nodup⟩

lemma attach_spec {mem : α → Rbnode α} {f : Frame α} {path : List (Frame α)}
    (h : InMemory mem (plug (f::path) .leaf)) (hnew : x ∉ (plug (f::path) .leaf).inorder)
    {c : Color} (hx : mem x = ⟨none,none,c⟩) : InMemory (setColor (setChild mem f.elem f.side (some x)) x .red)
      (plug (f::path) (.node .red .leaf x .leaf)) := by
  have hlinked : Linked mem (build .left c x .leaf .leaf) := linked_build.mpr ⟨hx,trivial,trivial⟩
  have hn : (plug (f::path) (build .left c x .leaf .leaf)).inorder.Nodup := by
    rw [nodup_focus_iff]
    refine nodup_cons.mpr ⟨?_,?_⟩
    · simpa [inorder_plug_perm _ _ |>.mem_iff] using hnew
    · simpa using (inorder_plug_perm _ _).nodup_iff.mp h.nodup
  have h₁ := h.parent.setChild _ hlinked hn
  exact h₁.near.setColor .red

/-- Insertion puts the node where the comparisons lead, whatever they are. -/
theorem rbInsert_spec (h : Holds tree T) (hx : x ∉ T.inorder) :
    ∃ tree' T' path, rbInsert tree x = some tree' ∧ Holds tree' T' ∧
      tree'.lessthanFn = tree.lessthanFn ∧ plug path .leaf = T ∧ Followed tree.lessthanFn x path ∧
      T'.inorder = before path ++ x::after path := by
  obtain ⟨hroot,hmem,⟨N,hrb,hN⟩,hheight⟩ := h
  let mem := setChild (setChild tree.mem x .left none) x .right none
  have hnull : mem x = ⟨none,none,(tree.mem x).color⟩ := by
    simp [mem,setChild,setNode_self]
  have hm : InMemory mem T := (hmem.setNode hx _).setNode hx _
  cases T with
  | leaf =>
    -- the first node is the root
    have hlinked : InMemory mem (plug [] (build .left (tree.mem x).color x .leaf .leaf)) :=
      ⟨linked_build.mpr ⟨hnull,trivial,trivial⟩,by simp [plug,build]⟩
    refine ⟨{tree with root := some x, maxDepth := 1, mem := setColor mem x .black},
      .node .black .leaf x .leaf,[],?_,⟨rfl,hlinked.setColor .black,⟨1,.black .leaf .leaf,?_⟩,?_⟩,
      rfl,rfl,by simp [Followed],rfl⟩
    · rw [rbInsert,hroot]
      rfl
    · simp
    · simp [height]
  | node c l z r =>
    obtain ⟨st,sz,hfind,hstmem,hlen,hfound⟩ := findAndStack_spec tree.lessthanFn x rfl
      (show Linked (fresh mem tree.maxDepth).mem _ from hm.linked)
      (by simp only [fresh,length_replicate]; omega)
    simp only [fresh,length_replicate] at hlen
    cases hfound with
    | @node path _ _ _ htree _ =>
      rw [← htree,inorder_plug] at hx
      simp at hx
    | @hole f path htree hstack hb =>
      have hside := (hb f (mem_cons_self ..)).2
      rw [← htree] at hm hx hrb hheight
      obtain ⟨hdeep,hshallow⟩ := (height_plug_le _ _).mp hheight
      obtain ⟨c₀,n,hhole,hleaf⟩ := Hole.exists_of_plug hrb
      cases hleaf
      have hattach := attach_spec hm hx hnull
      have hpush := hstack.push (x := x) (by simp [height] at hdeep ⊢; omega)
      rw [ancestors_length] at hpush
      let linked : State α := ⟨setColor (setChild mem f.elem f.side (some x)) x .red,
        st.stack.set (f::path).length (some x)⟩
      obtain ⟨st',T',N',hfix,hfixed,hio,hN'⟩ := fixExtraRed_spec (f::path) (.red .leaf .leaf) hhole
        rfl (show InMemory linked.mem _ from hattach) hpush hshallow
      have hmax : (if tree.maxDepth < path.length+1+1 then path.length+1+1 else tree.maxDepth) =
          max tree.maxDepth ((f::path).length+1+2*0) := by
        rw [length_cons]
        split_ifs <;> omega
      obtain ⟨y,hy⟩ : ∃ y, rootPtr T' = some y := by
        cases T' with
        | leaf => simp [inorder_plug] at hio
        | node c' l' y r' => exact ⟨y,rfl⟩
      refine ⟨{tree with root := some y, mem := st'.mem, maxDepth :=
          if tree.maxDepth < path.length+1+1 then path.length+1+1 else tree.maxDepth},T',f::path,?_,
        ⟨hy.symm,hfixed.inMemory,⟨N',hfixed.rb,?_⟩,?_⟩,rfl,htree,hb,?_⟩
      · have htop := hstack.top
        rw [length_map] at htop
        rw [rbInsert,hroot]
        change (findAndStack tree.lessthanFn x z (fresh mem tree.maxDepth)).bind _ = _
        rw [hfind]
        simp only [bind_some,bind_eq_bind,htop,hstmem]
        rw [← sideOf,← hside,write_eq _ (by simp [height] at hdeep ⊢; omega)]
        change (fixExtraRed ((f::path).length+1) linked).bind _ = _
        rw [hfix,bind_some,hfixed.root,hy]
        rfl
      · simp only [hmax]
        obtain rfl | h := hN'
        · omega
        · omega
      · rw [hmax]
        exact hfixed.height_le
      · simp [hio,inorder_plug]

end Insert
end ArmFirmware.Zephyr.RedBlackTree
