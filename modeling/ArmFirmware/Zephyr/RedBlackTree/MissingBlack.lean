import ArmFirmware.Zephyr.RedBlackTree.Insert

/-! The fix-up of a removal. The node with a missing black only ever sinks below black nodes, so the paths
through it end no deeper than twice the black height less one, which `max_depth` reached
when the tree first grew to that height. -/
namespace ArmFirmware.Zephyr.RedBlackTree
open Library.RedBlack Library.RedBlack.ColorTree List Option State

attribute [local simp] Frame.fill

variable {α : Type*} [DecidableEq α]

/-- The subtree with the missing black as it is in memory and as it will be: a removed node
without children stands in for a missing child until the fix-up cuts it off. -/
inductive Spot (nullNode : α) : ColorTree α → ColorTree α → Prop
  | removed : Spot nullNode (.node .black .leaf nullNode .leaf) .leaf
  | kept {t} (hmem : nullNode ∉ t.inorder) : Spot nullNode t t

omit [DecidableEq α] in
lemma Spot.not_mem {nullNode : α} {phys t : ColorTree α} (h : Spot nullNode phys t) : nullNode ∉ t.inorder := by
  cases h with
  | removed => simp
  | kept hmem => exact hmem

section Round
variable {st : State α} {s : Side} {cp : Color} {nullNode n p sib : α}
  {phys t inner outer o : ColorTree α} {path : List (Frame α)} {D N k : ℕ} {a b : ColorTree α}

lemma cut_spec {mem : α → Rbnode α} {c : Color} (hspot : Spot nullNode phys t)
    (hn : rootPtr phys = some n) (h : InMemory mem (plug path (build s c p phys o))) :
    InMemory (if n = nullNode then setChild mem p s none else mem) (plug path (build s c p t o)) := by
  cases hspot with
  | removed =>
    obtain rfl : nullNode = n := by simpa [rootPtr] using hn
    rw [if_pos rfl]
    refine h.setChild .leaf trivial (nodup_focus_iff.mpr ?_)
    refine (nodup_focus_iff.mp h.nodup).sublist ?_
    simp
  | kept hmem =>
    rw [if_neg]
    · exact h
    · rintro rfl
      exact hmem (rootPtr_mem hn)

omit [DecidableEq α] in
lemma nullOrBlack_eq {mem : α → Rbnode α} {c : Color} (h : InMemory mem (plug path t))
    (ht : RB t c k) : nullOrBlack mem (rootPtr t) = decide (c = .black) := by
  cases t with
  | leaf => cases ht; rfl
  | node c' l x r =>
    obtain rfl : c' = c := ht.rootColor_eq
    have hx : InMemory mem (plug path (build .left c' x l r)) := h
    exact hx.isBlack

/-- A red sibling is rotated above its parent. -/
lemma blackenSibling_spec (hcap : path.length+2 < st.stack.length)
    (h : InMemory st.mem (plug (⟨s,.black,p,build s .red sib inner outer⟩::path) phys))
    (hs : OnStack st.stack (n::p::ancestors path)) {y : α} (hy : rootPtr inner = some y) :
    ∃ st', blackenSibling st (path.length+2) n p sib s = some (st',path.length+3,p,y) ∧
      st'.stack.length = st.stack.length ∧
      InMemory st'.mem (plug (⟨s,.red,p,inner⟩::⟨s,.black,sib,outer⟩::path) phys) ∧
      OnStack st'.stack (n::p::sib::ancestors path) := by
  have hsib := h.parent.far
  have htop := hs.retop sib
  rw [length_cons,ancestors_length] at htop
  let swapped : State α := ⟨st.mem,st.stack.set (path.length+1) (some sib)⟩
  rw [← build_flip] at hsib
  obtain ⟨st₁,hrot,hlen,h₁,hs₁⟩ := rotate_spec (show InMemory swapped.mem _ from hsib) htop
  have h₂ := ((h₁.far.setColor .red).of_far.setColor .black)
  rw [build_flip,build_flip] at h₂
  simp only [swapped,length_set] at hlen
  have hs₂ := hs₁.push (x := n) (by simp; omega)
  simp only [length_cons,ancestors_length] at hs₂
  let next : State α := ⟨setColor (setColor st₁.mem p .red) sib .black,st₁.stack.set (path.length+2) (some n)⟩
  have hs' : OnStack next.stack (n::p::sib::ancestors path) := hs₂
  have h' : InMemory next.mem (plug (⟨s,.black,sib,outer⟩::path) (build s .red p phys inner)) := h₂.near
  refine ⟨next,?_,by simp [next,hlen],h'.near,hs'⟩
  have hsecond := hs'.second
  simp only [length_cons,ancestors_length] at hsecond
  rw [blackenSibling,h.parent.far.isBlack]
  simp only [reduceCtorEq,decide_false,Bool.false_eq_true,if_false]
  rw [write_eq _ (by simp; omega)]
  change (rotate swapped (path.length+2)).bind _ = _
  rw [hrot,bind_some,write_eq _ (by simp [hlen]; omega)]
  change (next.below (path.length+1+2) 2).bind _ = _
  rw [hsecond,bind_some,getChild_far h'.get,hy]
  rfl

/-- A sibling with a red outer child is rotated above its parent. -/
lemma rotateSibling_spec {x : α} {s' : Side} (hspot : Spot nullNode phys t) (hn : rootPtr phys = some n)
    (h : InMemory st.mem (plug (⟨s,cp,p,build s .black sib inner (build s' .red x a b)⟩::path) phys))
    (hs : OnStack st.stack (n::p::ancestors path)) :
    ∃ st', rotateSibling nullNode st (path.length+2) n p sib x s = some st' ∧
      InMemory st'.mem (plug (⟨s,.black,p,inner⟩::⟨s,cp,sib,build s' .black x a b⟩::path) t) ∧
      OnStack st'.stack (sib::ancestors path) := by
  have hcolor := getColor_eq h.parent.get
  have h₁ := ((h.parent.far.setColor cp).of_far.setColor .black).far
  have h₂ := (h₁.far.setColor .black).of_far
  rw [← build_flip] at h₂
  have htop := hs.retop sib
  rw [length_cons,ancestors_length] at htop
  let swapped : State α := ⟨setColor (setColor (setColor st.mem sib cp) p .black) x .black,
    st.stack.set (path.length+1) (some sib)⟩
  obtain ⟨st₁,hrot,hlen,h₃,hs₁⟩ := rotate_spec (show InMemory swapped.mem _ from h₂) htop
  rw [build_flip,build_flip] at h₃
  have hcut := cut_spec hspot hn h₃.near
  refine ⟨⟨if n = nullNode then setChild st₁.mem p s none else st₁.mem,st₁.stack⟩,?_,hcut.near,hs₁.2⟩
  have hcap := hs.length_le
  simp only [length_cons,ancestors_length] at hcap
  rw [rotateSibling,hcolor,write_eq _ (by simp; omega)]
  change (rotate swapped (path.length+2)).bind _ = _
  rw [hrot]
  rfl

/-- A red inner child of the sibling is rotated above it. -/
lemma redInnerOut_spec {x : α} (hcap : path.length+2 < st.stack.length) (h : InMemory st.mem
      (plug (⟨s,cp,p,build s .black sib (build s .red x a b) outer⟩::path) phys))
    (hs : OnStack st.stack (n::p::ancestors path)) :
    ∃ st', redInnerOut st (path.length+2) n sib s = some (st',x,sib) ∧ st'.stack.length = st.stack.length ∧
      InMemory st'.mem (plug (⟨s,cp,p,build s .black x a (build s .red sib b outer)⟩::path) phys) ∧
      OnStack st'.stack (n::p::ancestors path) := by
  have hsib := h.parent.far
  have htop := (hs.retop sib).push (x := x) (by simp; omega)
  simp only [length_cons,ancestors_length] at htop
  let swapped : State α := ⟨st.mem,(st.stack.set (path.length+1) (some sib)).set (path.length+2) (some x)⟩
  obtain ⟨st₁,hrot,hlen,h₁,hs₁⟩ := rotate_spec (show InMemory swapped.mem _ from hsib.near) htop
  have h₂ := (h₁.far.setColor .red).of_far.setColor .black
  have hsecond := hs₁.second
  simp only [length_cons,ancestors_length] at hsecond
  have hs₂ := hs₁.2.retop n
  simp only [length_cons,ancestors_length] at hs₂
  simp only [swapped,length_set] at hlen
  let next : State α := ⟨setColor (setColor st₁.mem sib .red) x .black,st₁.stack.set (path.length+1) (some n)⟩
  have h' : InMemory next.mem (plug (⟨s.flip,cp,p,phys⟩::path)
    (build s .black x a (build s .red sib b outer))) := h₂
  refine ⟨next,?_,by simp [next,hlen],h'.of_far.near,hs₂⟩
  have hinner : getChild st.mem sib s = some x := by rw [getChild_near hsib.get,rootPtr_build]
  have houter : getChild next.mem x s.flip = some sib := by
    rw [getChild_far h'.get,rootPtr_build]
  rw [redInnerOut,hinner]
  simp only [bind_eq_bind,bind_some]
  rw [write_eq _ (by omega),bind_some,write_eq _ (by simp; omega),bind_some]
  change (rotate swapped (path.length+1+2)).bind _ = _
  rw [length_cons] at hrot
  rw [hrot,bind_some]
  change (st₁.below (path.length+1+2) 2).bind _ = _
  rw [hsecond,bind_some]
  rw [houter,bind_some,write_eq _ (by simp [hlen]; omega)]
  rfl

/-- A round that ends the loop: the node has its place below a black node. -/
structure Done (st : State α) (D N k : ℕ) (path fp : List (Frame α)) (t : ColorTree α) : Prop where
  inMemory : InMemory st.mem (plug fp t)
  root : st.read 0 = rootPtr (plug fp t)
  hole : Hole N fp .red k
  shallow : Shallow D fp
  inorder_eq : (plug fp t).inorder = (plug path t).inorder

/-- The black level that a frame adds. -/
def levels : Color → ℕ
  | .red => 0
  | .black => 1

omit [DecidableEq α] in
lemma hole_frame {x : α} {o : ColorTree α} (hp : Hole N path cp (k+levels cp))
    (ho : RB o .black k) : Hole N (⟨s,cp,x,o⟩::path) .black k := by
  cases cp with
  | red => exact .red ho hp
  | black => exact .black _ ho hp

lemma rotateSibling_done {x : α} {c : Color}
    (hspot : Spot nullNode phys t) (hn : rootPtr phys = some n) (hin : RB inner c k)
    (hred : RB (build s .red x a b) .red k) (hp : Hole N path cp (k+1+levels cp))
    (h : InMemory st.mem (plug (⟨s,cp,p,build s .black sib inner (build s .red x a b)⟩::path) phys))
    (hs : OnStack st.stack (n::p::ancestors path))
    (hD : Shallow D (⟨s,.black,p,inner⟩::⟨s,cp,sib,build s .black x a b⟩::path)) :
    ∃ st' fp, rotateSibling nullNode st (path.length+2) n p sib x s = some st' ∧
      Done st' D N k (⟨s,cp,p,build s .black sib inner (build s .red x a b)⟩::path) fp t := by
  obtain ⟨st',he,hm,hst⟩ := rotateSibling_spec hspot hn h hs
  obtain ⟨ha,hb⟩ := hred.of_build_red
  refine ⟨st',_,he,hm,?_,.black _ hin (hole_frame hp (ha.build_black hb)),hD,?_⟩
  · exact hst.root (by simp)
  · exact inorder_plug_congr path (by cases s <;> simp [build])

/-- With a black sibling the repair ends or goes on above. -/
lemma resolveSibling_spec (hspot : Spot nullNode phys t) (hn : rootPtr phys = some n)
    (hsib : RB (build s .black sib inner outer) .black (k+1)) (hp : Hole N path cp (k+1+levels cp))
    (h : InMemory st.mem (plug (⟨s,cp,p,build s .black sib inner outer⟩::path) phys))
    (hs : OnStack st.stack (n::p::ancestors path)) (hcap : st.stack.length = D+1)
    (hD : Shallow D (⟨s,cp,p,build s .black sib inner outer⟩::path)) :
    (∃ st' fp, resolveSibling nullNode st (path.length+2) n p sib s = some (st',false) ∧
      Done st' D N k (⟨s,cp,p,build s .black sib inner outer⟩::path) fp t) ∨
    (cp = .black ∧ ∃ st', resolveSibling nullNode st (path.length+2) n p sib s = some (st',true) ∧
      RB (build s .red sib inner outer) .red k ∧ st'.stack = st.stack ∧
      InMemory st'.mem (plug path (build s .black p t (build s .red sib inner outer)))) := by
  obtain ⟨m,c₁,c₂,hm,hin,hout⟩ := hsib.of_build_black
  obtain rfl : k = m := by omega
  have hfar := h.parent.far
  have hcond : (nullOrBlack st.mem (getChild st.mem sib .left) &&
      nullOrBlack st.mem (getChild st.mem sib .right)) = (decide (c₁ = .black) && decide (c₂ = .black)) := by
    have h₁ := nullOrBlack_eq hfar.near hin
    have h₂ := nullOrBlack_eq hfar.far hout
    have hg₁ := getChild_near hfar.get
    have hg₂ := getChild_far hfar.get
    rw [← h₁,← h₂,← hg₁,← hg₂]
    cases s with
    | left => rfl
    | right => exact Bool.and_comm _ _
  have hdepth := hD.1
  rw [height_build] at hdepth
  cases c₂ with
  | red =>
    -- the far child is red
    obtain ⟨x,a,b,rfl,ha,hb⟩ := hout.red_cases s
    rw [height_build] at hdepth
    obtain ⟨st',fp,he,hdone⟩ := rotateSibling_done hspot hn hin hout hp h hs
      ⟨by simp; omega,by rw [height_build]; omega,hD.2⟩
    refine .inl ⟨st',fp,?_,hdone⟩
    have houter : redOuter st (path.length+2) n sib s = some (st,sib,x) := by
      rw [redOuter,getChild_far hfar.get,rootPtr_build]
      simp [hfar.far.isRed]
    rw [resolveSibling,hcond]
    simp [houter,he]
  | black =>
    cases c₁ with
    | red =>
      -- the near child is red, and is rotated to the far side
      obtain ⟨x,a,b,rfl,ha,hb⟩ := hin.red_cases s
      rw [height_build] at hdepth
      obtain ⟨st₁,he₁,hlen,h₁,hs₁⟩ := redInnerOut_spec (by omega) h hs
      obtain ⟨st',fp,he,hdone⟩ := rotateSibling_done hspot hn ha (hb.build_red hout) hp h₁ hs₁
        ⟨by simp; omega,by rw [height_build]; omega,hD.2⟩
      refine .inl ⟨st',fp,?_,hdone.inMemory,hdone.root,hdone.hole,hdone.shallow,?_⟩
      · have hinner : redOuter st (path.length+2) n sib s = some (st₁,x,sib) := by
          rw [redOuter,getChild_far hfar.get,he₁]
          cases outer with
          | leaf => rfl
          | node c l y r =>
            have hy := hfar.far (b := build .left c y l r)
            have hc : c = .black := hout.rootColor_eq
            simp [rootPtr,hy.isRed,hc]
        rw [resolveSibling,hcond]
        rw [hinner]
        simp [he]
      · rw [hdone.inorder_eq]
        exact inorder_plug_congr path (by cases s <;> simp [build])
    | black =>
      -- the sibling can become red
      have hcut := ((cut_spec hspot hn h.parent).far.setColor .red).of_far
      have hred : RB (build s .red sib inner outer) .red k := hin.build_red hout
      cases cp with
      | black =>
        refine .inr ⟨rfl,⟨setColor (if n = nullNode then setChild st.mem p s none else st.mem)
          sib .red,st.stack⟩,?_,hred,rfl,hcut⟩
        rw [resolveSibling,hcond]
        simp [hcut.isBlack]
      | red =>
        refine .inl ⟨⟨setColor (setColor
          (if n = nullNode then setChild st.mem p s none else st.mem) sib .red) p .black,st.stack⟩,
          ⟨s,.black,p,build s .red sib inner outer⟩::path,?_,hcut.setColor .black,?_,.black _ hred hp.of_red,?_,?_⟩
        · rw [resolveSibling,hcond]
          simp [hcut.isBlack]
        · exact hs.2.root (by simp)
        · exact ⟨by rw [height_build]; exact hdepth,hD.2⟩
        · exact inorder_plug_congr path (by cases s <;> simp [build])

omit [DecidableEq α] in
/-- The paths through a node below a black one are at most twice the black height less one. -/
lemma Done.fixed {fp : List (Frame α)} (h : Done st D N k path fp t) (ht : RB t .black k)
    (hN : 2*N ≤ D+1) : Fixed st (plug fp t) D N := by
  have hlen := h.hole.length_le
  have hheight := ht.black_height_le
  simp only [if_true] at hlen
  exact ⟨h.inMemory,h.root,h.hole.of_red.plug ht,(height_plug_le _ _).mpr ⟨by omega,h.shallow⟩⟩

end Round

/-- `fix_missing_black` from a subtree that lacks a black level at the top of the stack. -/
theorem fixMissingBlack_spec {nullNode : α} {D N : ℕ} (path : List (Frame α)) (rounds : ℕ) {k : ℕ}
    {phys t : ColorTree α} {n : α} {st : State α} (hspot : Spot nullNode phys t)
    (hnull : nullNode ∉ elems path) (hroot : path = [] → phys = t) (hn : rootPtr phys = some n)
    (ht : RB t .black k) (hp : Hole N path .black (k+1)) (h : InMemory st.mem (plug path phys))
    (hs : OnStack st.stack (n::ancestors path)) (hcap : st.stack.length = D+1)
    (hD : Shallow D path) (hN : 2*N ≤ D+1) (hrounds : path.length+1 ≤ rounds) :
    ∃ st' T N', fixMissingBlack nullNode rounds st (path.length+1) = some st' ∧
      Fixed st' T D N' ∧ N' ≤ N ∧ T.inorder = (plug path t).inorder := by
  induction path generalizing rounds k phys t n st with
  | nil =>
    obtain rfl := hroot rfl
    cases rounds with
    | zero => simp at hrounds
    | succ rounds =>
      have hheight := ht.black_height_le
      cases hp
      exact ⟨st,phys,k,rfl,⟨h,hs.root hn,ht,by omega⟩,by omega,rfl⟩
  | cons f path ih =>
    obtain ⟨s,cp,p,o⟩ := f
    cases rounds with
    | zero => simp at hrounds
    | succ rounds =>
      have htop := hs.top
      have hsecond := hs.second
      simp only [length_map,ancestors_length,length_cons] at htop hsecond
      -- a round up to the colour of the sibling
      have hround : ∀ sib, rootPtr o = some sib →
          fixMissingBlack nullNode (rounds+1) st (path.length+1+1) =
            (blackenSibling st (path.length+2) n p sib s).bind fun r =>
              (resolveSibling nullNode r.1 r.2.1 n r.2.2.1 r.2.2.2 s).bind fun q =>
                if q.2 then fixMissingBlack nullNode rounds q.1 (r.2.1-1) else some q.1 := by
        intro sib hsib
        rw [fixMissingBlack,if_neg (by omega),htop,hsecond]
        simp only [bind_eq_bind,bind_some]
        rw [h.parent.getSide hn,getChild_far h.parent.get,hsib]
        rfl
      have hblack : ∀ sib inner outer, o = build s .black sib inner outer →
          blackenSibling st (path.length+2) n p sib s = some (st,path.length+2,p,sib) := by
        rintro sib inner outer rfl
        rw [blackenSibling,h.parent.far.isBlack]
        simp
      cases hp with
      | red ho hp =>
        obtain ⟨sib,inner,outer,c₁,c₂,rfl,hin,hout⟩ := ho.black_cases s
        obtain ⟨st',fp,he,hdone⟩ | ⟨hc,-⟩ := resolveSibling_spec hspot hn ho hp h hs hcap hD
        · refine ⟨st',_,N,?_,hdone.fixed ht hN,le_refl N,hdone.inorder_eq⟩
          rw [length_cons,hround sib rootPtr_build,hblack sib inner outer rfl]
          simp [he]
        · contradiction
      | @black _ _ _ _ c' _ _ ho hp =>
        cases c' with
        | black =>
          obtain ⟨sib,inner,outer,c₁,c₂,rfl,hin,hout⟩ := ho.black_cases s
          obtain ⟨st',fp,he,hdone⟩ | ⟨-,st₁,he,hred,hstack,hm⟩ := resolveSibling_spec hspot hn ho hp h hs hcap hD
          · refine ⟨st',_,N,?_,hdone.fixed ht hN,le_refl N,hdone.inorder_eq⟩
            rw [length_cons,hround sib rootPtr_build,hblack sib inner outer rfl]
            simp [he]
          · -- the parent lacks a black level now
            simp only [elems_cons,mem_cons,mem_append,not_or] at hnull
            have hnull' : nullNode ∉ (build s .black p t (build s .red sib inner outer)).inorder := by
              rw [mem_inorder_build,inorder_build_color s .red .black,not_or,not_or]
              exact ⟨hnull.1,hspot.not_mem,hnull.2.1⟩
            obtain ⟨st',T,N',he',hfix,hle,hio⟩ := ih rounds (.kept hnull') hnull.2.2 (fun _ => rfl)
              rootPtr_build (ht.build_black hred) hp hm (by rw [hstack]; exact hs.2)
              (by rw [hstack]; exact hcap) hD.2 (by simp at hrounds; omega)
            refine ⟨st',T,N',?_,hfix,hle,?_⟩
            · rw [length_cons,hround sib rootPtr_build,hblack sib inner outer rfl]
              simpa [he] using he'
            · rw [hio]
              exact inorder_plug_congr path (by cases s <;> simp [build])
        | red =>
          obtain ⟨sib,inner,outer,rfl,hin,hout⟩ := ho.red_cases s
          obtain ⟨y,a,b,c₁,c₂,rfl,ha,hb⟩ := hin.black_cases s
          have hdepth := hD.1
          simp only [height_build] at hdepth
          obtain ⟨st₁,he₁,hlen,h₁,hs₁⟩ := blackenSibling_spec (by omega) h hs rootPtr_build
          obtain ⟨st',fp,he,hdone⟩ | ⟨hc,-⟩ := resolveSibling_spec hspot hn hin
            (show Hole N (⟨s,.black,sib,outer⟩::path) .red (k+1) from .black _ hout hp) h₁ hs₁
            (hlen.trans hcap) ⟨by simp only [height_build,length_cons]; omega,by simp only; omega,hD.2⟩
          · refine ⟨st',_,N,?_,hdone.fixed ht hN,le_refl N,?_⟩
            · rw [length_cons,hround sib rootPtr_build,he₁]
              simpa using congrArg (fun r => r.bind fun q : State α × Bool =>
                if q.2 then fixMissingBlack nullNode rounds q.1 (path.length+2) else some q.1) he
            · rw [hdone.inorder_eq]
              exact inorder_plug_congr path (by cases s <;> simp [build])
          · contradiction

end ArmFirmware.Zephyr.RedBlackTree
