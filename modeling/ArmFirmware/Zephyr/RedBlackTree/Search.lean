import ArmFirmware.Zephyr.RedBlackTree.Links

/-! The descent of `find_and_stack`: it leaves on the stack the path to the node, or to the
missing child where the node belongs. -/
namespace ArmFirmware.Zephyr.RedBlackTree
open Library.RedBlack Library.RedBlack.ColorTree Option

variable {α : Type*}

structure StrictTotal (lt : α → α → Bool) : Prop where
  irrefl : ∀ a, lt a a = false
  trans : ∀ a b c, lt a b = true → lt b c = true → lt a c = true
  total : ∀ a b, a ≠ b → lt a b = true ∨ lt b a = true

structure StrictTotalOn (lt : α → α → Bool) (l : List α) : Prop where
  irrefl : ∀ a ∈ l, lt a a = false
  trans : ∀ a ∈ l, ∀ b ∈ l, ∀ c ∈ l, lt a b = true → lt b c = true → lt a c = true
  total : ∀ a ∈ l, ∀ b ∈ l, a ≠ b → lt a b = true ∨ lt b a = true

/-- The nodes are in order from left to right. -/
def Sorted (lt : α → α → Bool) (t : ColorTree α) : Prop :=
  t.inorder.Pairwise fun a b => lt a b = true

/-- The hole under the path is where the node belongs. -/
def Between (lt : α → α → Bool) (x : α) (path : List (Frame α)) : Prop :=
  (∀ y ∈ before path, lt y x = true) ∧ ∀ y ∈ after path, lt x y = true

def sideOf (lt : α → α → Bool) (x y : α) : Side := if lt x y then .left else .right

/-- The path goes where the comparisons with the node say, past other nodes. -/
def Followed (lt : α → α → Bool) (x : α) (path : List (Frame α)) : Prop :=
  ∀ f ∈ path, f.elem ≠ x ∧ f.side = sideOf lt x f.elem

section Order
variable {lt : α → α → Bool} {t : ColorTree α} {x y : α} {path : List (Frame α)} {s : Side}
  {c : Color} {a b : ColorTree α}

lemma StrictTotal.on (hlt : StrictTotal lt) (l : List α) : StrictTotalOn lt l :=
  ⟨fun a _ => hlt.irrefl a,fun a _ b _ c _ => hlt.trans a b c,fun a _ b _ => hlt.total a b⟩

lemma StrictTotalOn.mono {l l' : List α} (hlt : StrictTotalOn lt l) (hsub : ∀ a ∈ l', a ∈ l) :
    StrictTotalOn lt l' :=
  ⟨fun a ha => hlt.irrefl a (hsub a ha),
    fun a ha b hb c hc => hlt.trans a (hsub a ha) b (hsub b hb) c (hsub c hc),
    fun a ha b hb => hlt.total a (hsub a ha) b (hsub b hb)⟩

/-- Descending to the side that the comparison says keeps the node between its neighbours. -/
lemma Between.descend (hlt : StrictTotalOn lt (x::(plug path (build s c y a b)).inorder))
    (h : Between lt x path) (hs : Sorted lt (plug path (build s c y a b))) (hne : y ≠ x)
    (hside : s = sideOf lt x y) : Between lt x (⟨s,c,y,b⟩::path) := by
  obtain ⟨hbefore,hafter⟩ := h
  have hx : x ∈ x::(plug path (build s c y a b)).inorder := List.mem_cons_self ..
  have hmem : ∀ z ∈ (build s c y a b).inorder, z ∈ x::(plug path (build s c y a b)).inorder := by
    intro z hz
    rw [inorder_plug]
    simp [hz]
  have hy := hmem y (mem_inorder_build.mpr (.inl rfl))
  rw [Sorted,inorder_plug,List.pairwise_append,List.pairwise_append] at hs
  obtain ⟨⟨-,hmid,-⟩,-⟩ := hs
  rw [sideOf] at hside
  split_ifs at hside with hxy <;> subst hside
  · rw [build,inorder_node,List.pairwise_append,List.pairwise_cons] at hmid
    refine ⟨hbefore,fun z hz => ?_⟩
    simp only [after,List.mem_cons,List.mem_append] at hz
    obtain rfl | hz | hz := hz
    · exact hxy
    · exact hlt.trans _ hx _ hy _ (hmem z (by simp [build,hz])) hxy (hmid.2.1.1 z hz)
    · exact hafter z hz
  · have hyx : lt y x = true := (hlt.total y hy x hx hne).resolve_right hxy
    rw [build,inorder_node,List.pairwise_append] at hmid
    refine ⟨fun z hz => ?_,hafter⟩
    simp only [before,List.mem_append,List.mem_singleton] at hz
    obtain hz | hz | rfl := hz
    · exact hbefore z hz
    · exact hlt.trans _ (hmem z (by simp [build,hz])) _ hy _ hx
        (hmid.2.2 z hz y (List.mem_cons_self ..)) hyx
    · exact hyx

lemma Followed.between (hlt : StrictTotalOn lt (x::(plug path t).inorder)) (hs : Sorted lt (plug path t))
    (h : Followed lt x path) : Between lt x path := by
  induction path generalizing t with
  | nil => exact ⟨by simp [before],by simp [after]⟩
  | cons f path ih =>
    have hb := ih hlt hs fun g hg => h g (List.mem_cons_of_mem _ hg)
    obtain ⟨hne,hside⟩ := h f (List.mem_cons_self ..)
    exact hb.descend hlt hs hne hside

lemma Between.sorted (hp : Between lt x path) (hs : Sorted lt (plug path .leaf)) (c : Color) :
    Sorted lt (plug path (.node c .leaf x .leaf)) := by
  rw [Sorted,inorder_plug] at hs ⊢
  simp only [inorder_leaf,inorder_node,List.append_nil,List.nil_append] at hs ⊢
  rw [List.append_assoc,List.pairwise_append,List.singleton_append,List.pairwise_cons]
  rw [List.pairwise_append] at hs
  refine ⟨hs.1,⟨hp.2,hs.2.1⟩,fun y hy z hz => ?_⟩
  obtain rfl | hz := List.mem_cons.mp hz
  · exact hp.1 y hy
  · exact hs.2.2 y hy z hz

lemma Between.not_mem (hirrefl : lt x x = false) (hp : Between lt x path) :
    x ∉ (plug path (.leaf : ColorTree α)).inorder := by
  rw [inorder_plug]
  simp only [inorder_leaf,List.append_nil,List.mem_append,not_or]
  constructor
  · intro h
    have := hp.1 x h
    rw [hirrefl] at this
    contradiction
  · intro h
    have := hp.2 x h
    rw [hirrefl] at this
    contradiction

end Order

/-- The state after the search: the node is at the top of the stack, or the top is the last
node before the missing child where it belongs. -/
inductive Found (lt : α → α → Bool) (x : α) (T : ColorTree α) (st : State α) : ℕ → Prop
  | node {path c l r} (htree : plug path (.node c l x r) = T)
      (hstack : OnStack st.stack (x::ancestors path)) : Found lt x T st (path.length+1)
  | hole {f path} (htree : plug (f::path) .leaf = T)
      (hstack : OnStack st.stack (ancestors (f::path))) (hfollowed : Followed lt x (f::path)) :
      Found lt x T st (path.length+1)

section Find
variable [DecidableEq α] {lt : α → α → Bool} {T : ColorTree α} {x : α}

/-- `find_and_stack` goes down to the node, or to where it would be. -/
theorem findAndStackLoop_spec (rounds : ℕ)
    {t : ColorTree α} {y : α} {path : List (Frame α)} {st : State α} (ht : plug path t = T)
    (hy : rootPtr t = some y) (hl : Linked st.mem T) (hstack : OnStack st.stack (y::ancestors path))
    (hdepth : path.length+t.height ≤ st.stack.length) (hrounds : t.height ≤ rounds) (hb : Followed lt x path) :
    ∃ st' sz, findAndStackLoop lt x rounds st (path.length+1) = some (st',sz) ∧
      st'.mem = st.mem ∧ st'.stack.length = st.stack.length ∧ Found lt x T st' sz := by
  induction rounds generalizing t path st y with
  | zero =>
    cases t with
    | leaf => simp at hy
    | node c l z r => simp [height] at hrounds
  | succ rounds ih =>
    cases t with
    | leaf => simp at hy
    | node c l z r =>
      obtain rfl : z = y := by simpa [rootPtr] using hy
      have htop := hstack.top
      rw [ancestors_length] at htop
      rw [findAndStackLoop,htop]
      simp only [bind_eq_bind,bind_some]
      by_cases hz : z = x
      · rw [if_pos hz]
        exact ⟨st,_,rfl,rfl,rfl,.node (hz ▸ ht) (hz ▸ hstack)⟩
      · rw [if_neg hz]
        rw [show (if lt x z = true then Side.left else Side.right) = sideOf lt x z from rfl]
        -- the child on the side of the comparison, and the other one
        obtain ⟨near,far,hbuild⟩ := exists_build (sideOf lt x z) c z l r
        rw [hbuild] at ht hdepth hrounds
        rw [height_build] at hdepth hrounds
        have hb' : Followed lt x (⟨sideOf lt x z,c,z,far⟩::path) := List.forall_mem_cons.mpr ⟨⟨hz,rfl⟩,hb⟩
        rw [getChild_near (Linked.get (ht ▸ hl))]
        cases near with
        | leaf => exact ⟨st,_,rfl,rfl,rfl,.hole (f := ⟨sideOf lt x z,c,z,far⟩) ht hstack hb'⟩
        | node c' l' ch r' =>
          have hpos : 1 ≤ (ColorTree.node c' l' ch r').height := by simp [height]
          have hpush := hstack.push (x := ch) (by simp; omega)
          simp only [List.length_cons,ancestors_length] at hpush
          simp only [rootPtr]
          rw [State.write_eq _ (by omega),bind_some]
          let pushed : State α := ⟨st.mem,st.stack.set (path.length+1) (some ch)⟩
          obtain ⟨st',sz,he,hmem,hlen,hfound⟩ := ih
            (show plug (⟨sideOf lt x z,c,z,far⟩::path) _ = T from ht) rfl
            (show Linked pushed.mem T from hl) hpush
            (by simp only [pushed,List.length_cons,List.length_set]; omega) (by omega) hb'
          exact ⟨st',sz,he,hmem,by simpa [pushed] using hlen,hfound⟩

theorem findAndStack_spec (lt : α → α → Bool) (x : α) {root : α} {st : State α}
    (hroot : rootPtr T = some root) (hl : Linked st.mem T) (hdepth : T.height ≤ st.stack.length) :
    ∃ st' sz, findAndStack lt x root st = some (st',sz) ∧ st'.mem = st.mem ∧
      st'.stack.length = st.stack.length ∧ Found lt x T st' sz := by
  have hpos : 1 ≤ T.height := by
    cases T with
    | leaf => simp at hroot
    | node c l z r => simp [height]
  let pushed : State α := ⟨st.mem,st.stack.set 0 (some root)⟩
  have hpush : OnStack pushed.stack [root] := OnStack.push (l := []) trivial (by simp; omega) root
  rw [findAndStack,State.write_eq _ (by omega)]
  obtain ⟨st',sz,he,hmem,hlen,hfound⟩ := findAndStackLoop_spec
    (pushed.stack.length+1) (show plug [] T = T from rfl) hroot (show Linked pushed.mem T from hl)
    hpush (by simpa [pushed] using hdepth) (by simp [pushed]; omega)
    (by simp [Followed])
  exact ⟨st',sz,he,hmem,by simpa [pushed] using hlen,hfound⟩

end Find
end ArmFirmware.Zephyr.RedBlackTree
