import ArmFirmware.Zephyr.RedBlackTree.Model

/-! Trees in memory. Nodes are distinct, so a write to one of them leaves the subtrees that
do not contain it as they are. -/
namespace ArmFirmware.Zephyr.RedBlackTree
open Library.RedBlack Library.RedBlack.ColorTree List Option State

variable {α : Type*}

def rootPtr : ColorTree α → Option α
  | .leaf => none
  | .node _ _ x _ => some x

def nodeOf : Side → Color → Option α → Option α → Rbnode α
  | .left,c,near,far => ⟨near,far,c⟩
  | .right,c,near,far => ⟨far,near,c⟩

/-- Every node of the tree has the colour and the children it has in memory. -/
def Linked (mem : α → Rbnode α) : ColorTree α → Prop
  | .leaf => True
  | .node c l x r => mem x = ⟨rootPtr l,rootPtr r,c⟩ ∧ Linked mem l ∧ Linked mem r

/-- The frames of a path are linked, the innermost one to the given root of the hole. -/
def LinkedPath (mem : α → Rbnode α) : List (Frame α) → Option α → Prop
  | [],_ => True
  | f::path,hole => mem f.elem = nodeOf f.side f.color hole (rootPtr f.other) ∧
      Linked mem f.other ∧ LinkedPath mem path (some f.elem)

section Linked
variable {mem : α → Rbnode α} {s : Side} {c : Color} {x : α} {a b t : ColorTree α}
  {path : List (Frame α)} {f : Rbnode α → Rbnode α}

@[simp] lemma rootPtr_leaf : rootPtr (.leaf : ColorTree α) = none := rfl

@[simp] lemma rootPtr_build : rootPtr (build s c x a b) = some x := by cases s <;> rfl

lemma rootPtr_mem (h : rootPtr t = some x) : x ∈ t.inorder := by
  cases t with
  | leaf => simp at h
  | node c l y r =>
    obtain rfl : y = x := by simpa [rootPtr] using h
    simp

lemma linked_build : Linked mem (build s c x a b) ↔
    mem x = nodeOf s c (rootPtr a) (rootPtr b) ∧ Linked mem a ∧ Linked mem b := by
  cases s with
  | left => exact Iff.rfl
  | right =>
    simp only [build,Linked,nodeOf]
    tauto

lemma linked_plug : Linked mem (plug path t) ↔ LinkedPath mem path (rootPtr t) ∧ Linked mem t := by
  induction path generalizing t with
  | nil => simp [plug,LinkedPath]
  | cons f path ih =>
    rw [plug,ih,Frame.fill,linked_build,rootPtr_build,LinkedPath]
    tauto

lemma Linked.get (h : Linked mem (plug path (build s c x a b))) : mem x = nodeOf s c (rootPtr a) (rootPtr b) :=
  (linked_build.mp (linked_plug.mp h).2).1

lemma Linked.sub (h : Linked mem (plug path t)) : Linked mem t := (linked_plug.mp h).2

lemma Linked.congr {mem' : α → Rbnode α} (h : Linked mem t)
    (he : ∀ z ∈ t.inorder, mem' z = mem z) : Linked mem' t := by
  induction t with
  | leaf => trivial
  | node c l y r ihl ihr =>
    simp only [inorder_node,mem_append,mem_cons] at he
    obtain ⟨hy,hl,hr⟩ := h
    exact ⟨(he y (.inr (.inl rfl))).trans hy,ihl hl fun z hz => he z (.inl hz),
      ihr hr fun z hz => he z (.inr (.inr hz))⟩

lemma LinkedPath.congr {mem' : α → Rbnode α} {hole : Option α} (h : LinkedPath mem path hole)
    (he : ∀ z ∈ elems path, mem' z = mem z) : LinkedPath mem' path hole := by
  induction path generalizing hole with
  | nil => trivial
  | cons g path ih =>
    simp only [elems_cons,mem_cons,mem_append] at he
    obtain ⟨hg,ho,hp⟩ := h
    exact ⟨(he _ (.inl rfl)).trans hg,ho.congr fun z hz => he z (.inr (.inl hz)),
      ih hp fun z hz => he z (.inr (.inr hz))⟩

section Fields
variable {p q : Option α}

lemma getChild_near (h : mem x = nodeOf s c p q) : getChild mem x s = p := by
  cases s <;> simp [getChild,h,nodeOf]

lemma getChild_far (h : mem x = nodeOf s c p q) : getChild mem x s.flip = q := by
  cases s <;> simp [getChild,Side.flip,h,nodeOf]

lemma getColor_eq (h : mem x = nodeOf s c p q) : getColor mem x = c := by
  cases s <;> simp [getColor,h,nodeOf]

end Fields

variable [DecidableEq α]

lemma setNode_self (mem : α → Rbnode α) (x : α) (f : Rbnode α → Rbnode α) :
    setNode mem x f x = f (mem x) := if_pos rfl

lemma setNode_of_ne (mem : α → Rbnode α) {x y : α} (h : y ≠ x) (f : Rbnode α → Rbnode α) :
    setNode mem x f y = mem y := if_neg h

lemma Linked.setNode (h : Linked mem t) (hx : x ∉ t.inorder) : Linked (setNode mem x f) t :=
  h.congr fun _ hz => setNode_of_ne mem (ne_of_mem_of_not_mem hz hx) f

lemma LinkedPath.setNode {hole : Option α} (h : LinkedPath mem path hole) (hx : x ∉ elems path) :
    LinkedPath (setNode mem x f) path hole := h.congr fun _ hz => setNode_of_ne mem (ne_of_mem_of_not_mem hz hx) f

lemma setChild_near {p q v : Option α} (h : mem x = nodeOf s c p q) : setChild mem x s v x = nodeOf s c v q := by
  cases s <;> simp [setChild,setNode_self,h,nodeOf]

lemma setChild_far {p q v : Option α} (h : mem x = nodeOf s c p q) :
    setChild mem x s.flip v x = nodeOf s c p v := by
  cases s <;> simp [setChild,Side.flip,setNode_self,h,nodeOf]

lemma getSide_eq {y : α} {q : Option α} (h : mem x = nodeOf s c (some y) q) (hq : q ≠ some y) :
    getSide mem x y = s := by
  cases s <;> simp [getSide,getChild,h,nodeOf,hq]

omit [DecidableEq α] in
lemma nodup_focus_iff : (plug path (build s c x a b)).inorder.Nodup ↔
    (x::(a.inorder ++ b.inorder ++ elems path)).Nodup :=
  ((inorder_plug_perm _ _).trans ((inorder_build_perm s c x a b).append_right _)).nodup_iff

omit [DecidableEq α] in
lemma not_mem_of_focus (h : (plug path (build s c x a b)).inorder.Nodup) :
    x ∉ a.inorder ∧ x ∉ b.inorder ∧ x ∉ elems path := by
  have := (nodup_cons.mp (nodup_focus_iff.mp h)).1
  simpa [not_or] using this

lemma Linked.write (h : Linked mem (plug path (build s c x a b)))
    (hn : (plug path (build s c x a b)).inorder.Nodup) {c' : Color}
    {a' b' : ColorTree α} (ha : Linked mem a') (hb : Linked mem b') (hxa : x ∉ a'.inorder) (hxb : x ∉ b'.inorder)
    (hf : f (nodeOf s c (rootPtr a) (rootPtr b)) = nodeOf s c' (rootPtr a') (rootPtr b')) :
    Linked (RedBlackTree.setNode mem x f) (plug path (build s c' x a' b')) := by
  have hget := h.get
  rw [linked_plug,rootPtr_build] at h
  refine linked_plug.mpr ⟨?_,linked_build.mpr ⟨?_,ha.setNode hxa,hb.setNode hxb⟩⟩
  · rw [rootPtr_build]
    exact h.1.setNode (not_mem_of_focus hn).2.2
  · rw [setNode_self,hget,hf]

def relinkHead (mem : α → Rbnode α) (path : List (Frame α)) (old new : α) : α → Rbnode α :=
  match path with
  | [] => mem
  | g::_ => RedBlackTree.setChild mem g.elem (getSide mem g.elem old) (some new)

lemma relinkHead_spec {old : α} (hp : LinkedPath mem path (some old)) (hn : (old::elems path).Nodup) (new : α) :
    LinkedPath (relinkHead mem path old new) path (some new) ∧
      ∀ z ∉ elems path, relinkHead mem path old new z = mem z := by
  cases path with
  | nil => exact ⟨trivial,fun _ _ => rfl⟩
  | cons g path =>
    rw [nodup_cons] at hn
    obtain ⟨hg,ho,hp⟩ := hp
    have hfar : rootPtr g.other ≠ some old := fun h => hn.1 (by simp [rootPtr_mem h])
    have hdis := hn.2
    rw [elems_cons,nodup_cons,mem_append,not_or] at hdis
    rw [relinkHead,getSide_eq hg hfar]
    refine ⟨⟨setChild_near hg,ho.setNode hdis.1.1,hp.setNode hdis.1.2⟩,fun z hz => ?_⟩
    exact setNode_of_ne _ (by rintro rfl; simp at hz) _

end Linked

/-- A tree in memory: its nodes are distinct and linked as it says. -/
structure InMemory (mem : α → Rbnode α) (T : ColorTree α) : Prop where
  linked : Linked mem T
  nodup : T.inorder.Nodup

namespace InMemory
variable {mem : α → Rbnode α} {s : Side} {c : Color} {x : α} {a b : ColorTree α}
  {path : List (Frame α)}

lemma get (h : InMemory mem (plug path (build s c x a b))) :
    mem x = nodeOf s c (rootPtr a) (rootPtr b) := h.linked.get

lemma parent (h : InMemory mem (plug (⟨s,c,x,b⟩::path) a)) : InMemory mem (plug path (build s c x a b)) := h

lemma near (h : InMemory mem (plug path (build s c x a b))) : InMemory mem (plug (⟨s,c,x,b⟩::path) a) := h

lemma far (h : InMemory mem (plug path (build s c x a b))) : InMemory mem (plug (⟨s.flip,c,x,a⟩::path) b) := by
  rwa [plug_far]

lemma of_far (h : InMemory mem (plug (⟨s.flip,c,x,a⟩::path) b)) : InMemory mem (plug path (build s c x a b)) := by
  rwa [plug_far] at h

lemma isBlack (h : InMemory mem (plug path (build s c x a b))) : isBlack mem x = decide (c = .black) := by
  rw [RedBlackTree.isBlack,getColor_eq h.get]
  cases c <;> rfl

lemma isRed (h : InMemory mem (plug path (build s c x a b))) : isRed mem x = decide (c = .red) := by
  rw [RedBlackTree.isRed,getColor_eq h.get]
  cases c <;> rfl

variable [DecidableEq α]

section
variable (h : InMemory mem (plug path (build s c x a b)))
include h

lemma getSide {y : α} (hy : rootPtr a = some y) : getSide mem x y = s := by
  have hget := h.get
  rw [hy] at hget
  refine getSide_eq hget fun hb => ?_
  have hn := (nodup_cons.mp (nodup_focus_iff.mp h.nodup)).2
  rw [nodup_append,nodup_append] at hn
  exact hn.1.2.2 y (rootPtr_mem hy) y (rootPtr_mem hb) rfl

lemma setColor (c' : Color) : InMemory (setColor mem x c') (plug path (build s c' x a b)) := by
  obtain ⟨hxa,hxb,-⟩ := not_mem_of_focus h.nodup
  have hsub := linked_build.mp h.linked.sub
  refine ⟨h.linked.write h.nodup hsub.2.1 hsub.2.2 hxa hxb (by cases s <;> rfl),?_⟩
  rw [inorder_plug_congr path (inorder_build_color s c' c x a b)]
  exact h.nodup

lemma setChild (a' : ColorTree α) (ha : Linked mem a') (hn : (plug path (build s c x a' b)).inorder.Nodup) :
    InMemory (setChild mem x s (rootPtr a')) (plug path (build s c x a' b)) := by
  obtain ⟨-,hxb,-⟩ := not_mem_of_focus h.nodup
  have hsub := linked_build.mp h.linked.sub
  exact ⟨h.linked.write h.nodup ha hsub.2.2 (not_mem_of_focus hn).1 hxb (by cases s <;> rfl),hn⟩

end

end InMemory

/-- The entries of the stack from its top; each sits at the number of entries below it. -/
def OnStack (stack : List (Option α)) : List α → Prop
  | [] => True
  | x::below => stack[below.length]? = some (some x) ∧ OnStack stack below

namespace OnStack
variable {stack : List (Option α)} {l : List α} {x y z : α}

lemma set_of_le {i : ℕ} {v : Option α} (h : OnStack stack l) (hi : l.length ≤ i) : OnStack (stack.set i v) l := by
  induction l with
  | nil => trivial
  | cons x l ih =>
    rw [length_cons] at hi
    refine ⟨?_,ih h.2 (by omega)⟩
    rw [List.getElem?_set_ne (by omega)]
    exact h.1

lemma push (h : OnStack stack l) (hl : l.length < stack.length) (x : α) :
    OnStack (stack.set l.length (some x)) (x::l) := ⟨by simp [hl],h.set_of_le (le_refl _)⟩

lemma length_le (h : OnStack stack l) : l.length ≤ stack.length := by
  cases l with
  | nil => simp
  | cons x l => exact (List.getElem?_eq_some_iff.mp h.1).1

lemma replace {upper : List α} (h : OnStack stack (upper ++ x::l)) (y : α) :
    OnStack (stack.set l.length (some y)) (upper ++ y::l) := by
  induction upper with
  | nil => exact h.2.push (by have := h.length_le; simpa using this) y
  | cons z upper ih =>
    rw [cons_append] at h ⊢
    obtain ⟨hz,h⟩ := h
    refine ⟨?_,ih h⟩
    rw [length_append,length_cons] at hz ⊢
    rw [List.getElem?_set_ne (by omega)]
    exact hz

lemma retop (h : OnStack stack (x::l)) (y : α) : OnStack (stack.set l.length (some y)) (y::l) :=
  h.2.push (by have := h.length_le; simpa using this) y

lemma get {upper : List α} (h : OnStack stack (upper ++ x::l)) : stack[l.length]? = some (some x) := by
  induction upper with
  | nil => exact h.1
  | cons z upper ih =>
    exact ih h.2

section Reads
variable {st : State α}

lemma top (h : OnStack st.stack (x::l)) : st.below (l.length+1) 1 = some x := by
  simp [State.below,State.read,h.1]

lemma second (h : OnStack st.stack (x::y::l)) : st.below (l.length+2) 2 = some y := by
  simp [State.below,State.read,h.2.1]

lemma third (h : OnStack st.stack (x::y::z::l)) : st.below (l.length+3) 3 = some z := by
  simp [State.below,State.read,h.2.2.1]

end Reads
end OnStack

lemma State.write_eq (st : State α) {i : ℕ} (h : i < st.stack.length) (x : α) :
    st.write i x = some {st with stack := st.stack.set i (some x)} := if_pos h

def ancestors (path : List (Frame α)) : List α := path.map Frame.elem

@[simp] lemma ancestors_length (path : List (Frame α)) : (ancestors path).length = path.length := length_map ..

section Rotate
variable [DecidableEq α] {st : State α} {s : Side} {cp cx : Color} {p x : α} {a b o : ColorTree α}
  {path : List (Frame α)}

omit [DecidableEq α] in
lemma nodup_pair (hn : (plug (⟨s,cp,p,o⟩::path) (build s cx x a b)).inorder.Nodup) :
    (p::x::(a.inorder ++ b.inorder ++ o.inorder ++ elems path)).Nodup := by
  have h := nodup_focus_iff (b := o) |>.mp hn
  refine (List.Perm.nodup_iff ?_).mp h
  refine List.Perm.cons p ?_
  exact ((inorder_build_perm s cx x a b).append_right _).append_right _

lemma relinkAbove_eq (hs : OnStack st.stack (x::p::ancestors path)) :
    relinkAbove st (path.length+2) p x = some (relinkHead st.mem path p x) := by
  cases path with
  | nil => rfl
  | cons g path =>
    have hthird := hs.third
    rw [length_map] at hthird
    rw [relinkAbove,if_pos (by simp),length_cons,hthird,map_some]
    rfl

/-- A rotation moves the upper node of the stack above the one below it. -/
theorem rotate_spec (h : InMemory st.mem (plug (⟨s,cp,p,o⟩::path) (build s cx x a b)))
    (hs : OnStack st.stack (x::p::ancestors path)) :
    ∃ st', rotate st (path.length+2) = some st' ∧ st'.stack.length = st.stack.length ∧
      InMemory st'.mem (plug path (build s cx x a (build s cp p b o))) ∧
      OnStack st'.stack (p::x::ancestors path) := by
  obtain ⟨hl,hn⟩ := h
  have hnd := nodup_pair hn
  have hx := hl.get
  obtain ⟨⟨hp,ho,hpath⟩,hsub⟩ := linked_plug.mp hl
  obtain ⟨-,ha,hb⟩ := linked_build.mp hsub
  simp only [rootPtr_build] at hp
  simp only [nodup_cons,nodup_append,mem_cons,mem_append,not_or] at hnd
  obtain ⟨⟨hpx,⟨⟨hpa,hpb⟩,hpo⟩,hpe⟩,⟨⟨⟨hxa,hxb⟩,hxo⟩,hxe⟩,⟨⟨-,-,-⟩,-,-⟩,hne,hdis⟩ := hnd
  obtain ⟨hpath',hsame⟩ := relinkHead_spec hpath (nodup_cons.mpr ⟨hpe,hne⟩) x
  have hmem := relinkAbove_eq hs
  generalize relinkHead st.mem path p x = mem at hpath' hsame hmem
  -- the write above leaves the subtrees alone
  have ha := ha.congr fun z hz => hsame z fun he => hdis z (.inl (.inl hz)) z he rfl
  have hb := hb.congr fun z hz => hsame z fun he => hdis z (.inl (.inr hz)) z he rfl
  have ho := ho.congr fun z hz => hsame z fun he => hdis z (.inr hz) z he rfl
  have hside := getSide_eq hp fun h => hxo (rootPtr_mem h)
  let mem₁ := setChild (setChild mem x s (rootPtr a)) x s.flip (some p)
  let mem₂ := setChild mem₁ p s (rootPtr b)
  have hlen := hs.length_le
  simp only [length_cons,ancestors_length] at hlen
  refine ⟨⟨mem₂,(st.stack.set path.length (some x)).set (path.length+1) (some p)⟩,?_,by simp,⟨?_,?_⟩,?_⟩
  · have hsecond := hs.second
    have htop := hs.top
    simp only [ancestors_length,length_cons] at hsecond htop
    rw [rotate,hsecond,htop]
    simp only [bind_eq_bind,bind_some,hside,getChild_near hx,getChild_far hx,hmem]
    rw [write_eq _ (by simp; omega),bind_some,write_eq _ (by simp; omega)]
    rfl
  · have hx₁ : mem₁ x = nodeOf s cx (rootPtr a) (some p) := by
      refine setChild_far (q := rootPtr b) (setChild_near (p := rootPtr a) ?_)
      rw [hsame x hxe,hx]
    have hp₁ : mem₁ p = nodeOf s cp (some x) (rootPtr o) := by
      have : mem₁ p = mem p := by
        simp only [mem₁,setChild]
        rw [setNode_of_ne _ hpx,setNode_of_ne _ hpx]
      rw [this,hsame p hpe,hp]
    have hframe : ∀ t, Linked mem t → x ∉ t.inorder → p ∉ t.inorder → Linked mem₂ t :=
      fun t ht h₁ h₂ => ((ht.setNode h₁).setNode h₁).setNode h₂
    rw [linked_plug,rootPtr_build,linked_build,linked_build,rootPtr_build]
    exact ⟨((hpath'.setNode hxe).setNode hxe).setNode hpe,
      (setNode_of_ne _ (Ne.symm hpx) _).trans hx₁,hframe a ha hxa hpa,
      setChild_near hp₁,hframe b hb hxb hpb,hframe o ho hxo hpo⟩
  · rw [← inorder_plug_congr path (inorder_rotate s cp cx x p a b o)]
    exact hn
  · have hbelow := hs.2.2
    have h₁ := hbelow.push (x := x) (by simp; omega)
    have h₂ := h₁.push (x := p) (by simp; omega)
    simpa using h₂

end Rotate
end ArmFirmware.Zephyr.RedBlackTree
