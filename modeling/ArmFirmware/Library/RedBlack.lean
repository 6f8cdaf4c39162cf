import Mathlib

/-! Red-black trees, and the same trees opened at one subtree: the path of frames above the
hole says what the hole must be filled with and how deep it is. -/
namespace ArmFirmware.Library.RedBlack
open List

inductive Color where
  | red
  | black
  deriving DecidableEq

inductive Side where
  | left
  | right
  deriving DecidableEq

def Side.flip : Side → Side
  | .left => .right
  | .right => .left

inductive ColorTree (α : Type*) where
  | leaf
  | node (color : Color) (left : ColorTree α) (elem : α) (right : ColorTree α)

variable {α : Type*}

namespace ColorTree

/-- A node given by its children on a side and on the other one. -/
def build : Side → Color → α → ColorTree α → ColorTree α → ColorTree α
  | .left,c,x,near,far => node c near x far
  | .right,c,x,near,far => node c far x near

lemma build_flip (s : Side) (c : Color) (x : α) (a b : ColorTree α) : build s.flip c x a b = build s c x b a := by
  cases s <;> rfl

/-- Every node is built from its children on any side. -/
lemma exists_build (s : Side) (c : Color) (x : α) (l r : ColorTree α) :
    ∃ near far, node c l x r = build s c x near far := by
  cases s
  · exact ⟨l,r,rfl⟩
  · exact ⟨r,l,rfl⟩

def inorder : ColorTree α → List α
  | leaf => []
  | node _ l x r => l.inorder ++ x::r.inorder

def height : ColorTree α → ℕ
  | leaf => 0
  | node _ l _ r => 1+max l.height r.height

def rootColor : ColorTree α → Color
  | leaf => .black
  | node c _ _ _ => c

def NoRedRed : ColorTree α → Prop
  | leaf => True
  | node c l _ r =>
    (c = .red → l.rootColor = .black ∧ r.rootColor = .black) ∧ l.NoRedRed ∧ r.NoRedRed

/-- Every path from the root to a missing child passes `n` black nodes. -/
def BlackCount : ColorTree α → ℕ → Prop
  | leaf,n => n = 0
  | node .red l _ r,n => l.BlackCount n ∧ r.BlackCount n
  | node .black l _ r,n => ∃ k, n = k+1 ∧ l.BlackCount k ∧ r.BlackCount k

def Bst (lt : α → α → Prop) : ColorTree α → Prop
  | leaf => True
  | node _ l x r => (∀ y ∈ l.inorder, lt y x) ∧ (∀ y ∈ r.inorder, lt x y) ∧ l.Bst lt ∧ r.Bst lt

@[simp] lemma inorder_leaf : (leaf : ColorTree α).inorder = [] := rfl
@[simp] lemma inorder_node (c : Color) (l : ColorTree α) (x : α) (r : ColorTree α) :
    (node c l x r).inorder = l.inorder ++ x::r.inorder := rfl

lemma mem_inorder_build {s : Side} {c : Color} {x y : α} {a b : ColorTree α} :
    y ∈ (build s c x a b).inorder ↔ y = x ∨ y ∈ a.inorder ∨ y ∈ b.inorder := by
  cases s <;> simp [build] <;> tauto

lemma height_build (s : Side) (c : Color) (x : α) (a b : ColorTree α) :
    (build s c x a b).height = 1+max a.height b.height := by
  cases s
  · rfl
  · simp [build,height,Nat.max_comm]

lemma length_inorder_lt (t : ColorTree α) : t.inorder.length < 2^t.height := by
  induction t with
  | leaf => simp [height]
  | node c l x r ihl ihr =>
    have hl : 2^l.height ≤ 2^max l.height r.height := Nat.pow_le_pow_right (by omega) (le_max_left ..)
    have hr : 2^r.height ≤ 2^max l.height r.height := Nat.pow_le_pow_right (by omega) (le_max_right ..)
    rw [inorder,height,pow_add,length_append,length_cons]
    omega

def shape : ColorTree α → ColorTree Unit
  | leaf => leaf
  | node c l _ r => node c l.shape () r.shape

lemma height_shape (t : ColorTree α) : t.shape.height = t.height := by
  induction t with
  | leaf => rfl
  | node c l x r ihl ihr => simp [shape,height,ihl,ihr]

lemma shape_build_congr (s : Side) (c : Color) (x y : α) {a a' : ColorTree α} (b : ColorTree α)
    (h : a.shape = a'.shape) : (build s c x a b).shape = (build s c y a' b).shape := by
  cases s <;> simp [build,shape,h]

/-- Sorted traversals are those of search trees. -/
theorem bst_of_pairwise {lt : α → α → Prop} {t : ColorTree α} (h : t.inorder.Pairwise lt) : t.Bst lt := by
  induction t with
  | leaf => trivial
  | node c l x r ihl ihr =>
    rw [inorder_node,pairwise_append,pairwise_cons] at h
    obtain ⟨hl,⟨hx,hr⟩,hlx⟩ := h
    exact ⟨fun y hy => hlx y hy x (mem_cons_self ..),hx,ihl hl,ihr hr⟩

end ColorTree

open ColorTree

/-- The two colour rules together: no red node has a red child, and every path down to a
missing child passes the same number of black nodes. -/
inductive RB : ColorTree α → Color → ℕ → Prop
  | leaf : RB leaf .black 0
  | red {l x r n} (hl : RB l .black n) (hr : RB r .black n) : RB (node .red l x r) .red n
  | black {l x r c₁ c₂ n} (hl : RB l c₁ n) (hr : RB r c₂ n) : RB (node .black l x r) .black (n+1)

namespace RB
variable {t a b : ColorTree α} {c c₁ c₂ : Color} {n : ℕ} {s : Side} {x : α}

theorem rootColor_eq (h : RB t c n) : t.rootColor = c := by
  cases h <;> rfl

theorem noRedRed (h : RB t c n) : t.NoRedRed := by
  induction h with
  | leaf => trivial
  | red hl hr ihl ihr => exact ⟨fun _ => ⟨hl.rootColor_eq,hr.rootColor_eq⟩,ihl,ihr⟩
  | black hl hr ihl ihr => exact ⟨by simp,ihl,ihr⟩

theorem blackCount (h : RB t c n) : t.BlackCount n := by
  induction h with
  | leaf => rfl
  | red hl hr ihl ihr => exact ⟨ihl,ihr⟩
  | black hl hr ihl ihr => exact ⟨_,rfl,ihl,ihr⟩

/-- A black root costs a level, a red one does not. -/
theorem height_le (h : RB t c n) : t.height ≤ 2*n+(if c = .red then 1 else 0) := by
  induction h with
  | leaf => simp [height]
  | red hl hr ihl ihr =>
    simp only [height,reduceCtorEq,if_false,if_true] at *
    omega
  | @black l x r c₁ c₂ n hl hr ihl ihr =>
    have h₁ : l.height ≤ 2*n+1 := by cases c₁ <;> simp at ihl <;> omega
    have h₂ : r.height ≤ 2*n+1 := by cases c₂ <;> simp at ihr <;> omega
    simp only [height,reduceCtorEq,if_false]
    omega

lemma black_height_le (h : RB t .black n) : t.height ≤ 2*n := by simpa using h.height_le

lemma red_height_le (h : RB t .red n) : t.height ≤ 2*n+1 := by simpa using h.height_le

lemma build_red (ha : RB a .black n) (hb : RB b .black n) : RB (build s .red x a b) .red n := by
  cases s
  · exact .red ha hb
  · exact .red hb ha

lemma build_black (ha : RB a c₁ n) (hb : RB b c₂ n) : RB (build s .black x a b) .black (n+1) := by
  cases s
  · exact .black ha hb
  · exact .black hb ha

lemma of_build_red (h : RB (build s .red x a b) c n) : RB a .black n ∧ RB b .black n := by
  cases s with
  | left => cases h with | red hl hr => exact ⟨hl,hr⟩
  | right => cases h with | red hl hr => exact ⟨hr,hl⟩

lemma of_build_black (h : RB (build s .black x a b) c n) : ∃ m c₁ c₂, n = m+1 ∧ RB a c₁ m ∧ RB b c₂ m := by
  cases s with
  | left => cases h with | black hl hr => exact ⟨_,_,_,rfl,hl,hr⟩
  | right => cases h with | black hl hr => exact ⟨_,_,_,rfl,hr,hl⟩

lemma red_cases (h : RB t .red n) (s : Side) :
    ∃ x near far, t = build s .red x near far ∧ RB near .black n ∧ RB far .black n := by
  cases h with
  | red hl hr =>
    cases s
    · exact ⟨_,_,_,rfl,hl,hr⟩
    · exact ⟨_,_,_,rfl,hr,hl⟩

lemma black_cases (h : RB t .black (n+1)) (s : Side) :
    ∃ x near far c₁ c₂, t = build s .black x near far ∧ RB near c₁ n ∧ RB far c₂ n := by
  cases h with
  | black hl hr =>
    cases s
    · exact ⟨_,_,_,_,_,rfl,hl,hr⟩
    · exact ⟨_,_,_,_,_,rfl,hr,hl⟩

lemma eq_leaf (h : RB t .black 0) : t = .leaf := by
  cases h
  rfl

/-- The colour rules do not depend on the elements. -/
theorem of_shape {t' : ColorTree α} (h : RB t c n) (hs : t.shape = t'.shape) : RB t' c n := by
  induction h generalizing t' with
  | leaf =>
    cases t' with
    | leaf => exact .leaf
    | node c l x r => simp [shape] at hs
  | red hl hr ihl ihr =>
    cases t' with
    | leaf => simp [shape] at hs
    | node c l x r =>
      obtain ⟨rfl,h₁,-,h₂⟩ := ColorTree.node.inj hs
      exact .red (ihl h₁) (ihr h₂)
  | black hl hr ihl ihr =>
    cases t' with
    | leaf => simp [shape] at hs
    | node c l x r =>
      obtain ⟨rfl,h₁,-,h₂⟩ := ColorTree.node.inj hs
      exact .black (ihl h₁) (ihr h₂)

end RB

/-- A node with one child missing: the side of the missing child, and the other child. -/
structure Frame (α : Type*) where
  side : Side
  color : Color
  elem : α
  other : ColorTree α

def Frame.fill (f : Frame α) (t : ColorTree α) : ColorTree α := build f.side f.color f.elem t f.other

/-- Fill the hole under a path, whose innermost frame comes first. -/
def plug : List (Frame α) → ColorTree α → ColorTree α
  | [],t => t
  | f::path,t => plug path (f.fill t)

lemma plug_append (lower upper : List (Frame α)) (t : ColorTree α) :
    plug (lower ++ upper) t = plug upper (plug lower t) := by
  induction lower generalizing t with
  | nil => rfl
  | cons f lower ih => exact ih (f.fill t)

lemma shape_plug_congr (path : List (Frame α)) {t t' : ColorTree α} (h : t.shape = t'.shape) :
    (plug path t).shape = (plug path t').shape := by
  induction path generalizing t t' with
  | nil => exact h
  | cons f path ih => exact ih (shape_build_congr f.side f.color f.elem f.elem f.other h)

def before : List (Frame α) → List α
  | [] => []
  | ⟨.left,_,_,_⟩::path => before path
  | ⟨.right,_,x,other⟩::path => before path ++ (other.inorder ++ [x])

def after : List (Frame α) → List α
  | [] => []
  | ⟨.left,_,x,other⟩::path => x::(other.inorder ++ after path)
  | ⟨.right,_,_,_⟩::path => after path

theorem inorder_plug (path : List (Frame α)) (t : ColorTree α) :
    (plug path t).inorder = before path ++ t.inorder ++ after path := by
  induction path generalizing t with
  | nil => simp [plug,before,after]
  | cons f path ih =>
    obtain ⟨s,c,x,other⟩ := f
    cases s <;> simp [plug,ih,Frame.fill,build,before,after]

lemma after_eq_nil {path : List (Frame α)} (h : ∀ f ∈ path, f.side = .right) : after path = [] := by
  induction path with
  | nil => rfl
  | cons f path ih =>
    obtain ⟨s,c,x,other⟩ := f
    obtain rfl : s = .right := h ⟨s,c,x,other⟩ (mem_cons_self ..)
    exact ih fun f hf => h f (mem_cons_of_mem _ hf)

lemma before_eq_nil {path : List (Frame α)} (h : ∀ f ∈ path, f.side = .left) : before path = [] := by
  induction path with
  | nil => rfl
  | cons f path ih =>
    obtain ⟨s,c,x,other⟩ := f
    obtain rfl : s = .left := h ⟨s,c,x,other⟩ (mem_cons_self ..)
    exact ih fun f hf => h f (mem_cons_of_mem _ hf)

lemma after_append (lower upper : List (Frame α)) : after (lower ++ upper) = after lower ++ after upper := by
  induction lower with
  | nil => rfl
  | cons f lower ih =>
    obtain ⟨s,c,x,other⟩ := f
    cases s <;> simp [after,ih]

def elems (path : List (Frame α)) : List α := path.flatMap fun f => f.elem::f.other.inorder

@[simp] lemma elems_nil : elems ([] : List (Frame α)) = [] := rfl
@[simp] lemma elems_cons (f : Frame α) (path : List (Frame α)) :
    elems (f::path) = f.elem::(f.other.inorder ++ elems path) := rfl

lemma inorder_build_perm (s : Side) (c : Color) (x : α) (a b : ColorTree α) :
    (build s c x a b).inorder.Perm (x::(a.inorder ++ b.inorder)) := by
  cases s with
  | left => exact perm_middle
  | right => exact perm_middle.trans (perm_append_comm.cons x)

theorem inorder_plug_perm (path : List (Frame α)) (t : ColorTree α) :
    (plug path t).inorder.Perm (t.inorder ++ elems path) := by
  induction path generalizing t with
  | nil => simp [plug]
  | cons f path ih =>
    refine (ih (f.fill t)).trans ?_
    refine ((inorder_build_perm f.side f.color f.elem t f.other).append_right _).trans ?_
    rw [elems_cons,cons_append,append_assoc]
    exact perm_middle.symm

section Focus
variable (s : Side) (c c' : Color) (x y : α) (a b o : ColorTree α) (path : List (Frame α))

lemma plug_far : plug (⟨s.flip,c,x,a⟩::path) b = plug path (build s c x a b) := by
  rw [plug,Frame.fill,build_flip]

lemma inorder_plug_congr {t t' : ColorTree α} (h : t.inorder = t'.inorder) :
    (plug path t).inorder = (plug path t').inorder := by
  rw [inorder_plug,inorder_plug,h]

lemma inorder_build_color : (build s c x a b).inorder = (build s c' x a b).inorder := by
  cases s <;> rfl

lemma inorder_rotate : (build s c y (build s c' x a b) o).inorder = (build s c' x a (build s c y b o)).inorder := by
  cases s <;> simp [build]

end Focus

/-- The subtrees beside the path end at depth `D` or above. -/
def Shallow (D : ℕ) : List (Frame α) → Prop
  | [] => True
  | f::path => path.length+1+f.other.height ≤ D ∧ Shallow D path

lemma Shallow.mono {D D' : ℕ} {path : List (Frame α)} (h : Shallow D path) (hle : D ≤ D') : Shallow D' path := by
  induction path with
  | nil => trivial
  | cons f path ih => exact ⟨h.1.trans hle,ih h.2⟩

theorem height_plug_le {D : ℕ} (path : List (Frame α)) (t : ColorTree α) :
    (plug path t).height ≤ D ↔ path.length+t.height ≤ D ∧ Shallow D path := by
  induction path generalizing t with
  | nil => simp [plug,Shallow]
  | cons f path ih =>
    rw [plug,ih,Frame.fill,height_build,Shallow,length_cons]
    constructor
    · rintro ⟨h₁,h₂⟩
      exact ⟨by omega,by omega,h₂⟩
    · rintro ⟨h₁,h₂,h₃⟩
      exact ⟨by omega,h₃⟩

/-- The path leads from a black root of black height `N` to a hole for a tree of colour `c`
and black height `n`. -/
inductive Hole (N : ℕ) : List (Frame α) → Color → ℕ → Prop
  | root : Hole N [] .black N
  | red {s x other path n} (ho : RB other .black n) (hp : Hole N path .red n) :
      Hole N (⟨s,.red,x,other⟩::path) .black n
  | black {s x other path c' n} (c) (ho : RB other c' n) (hp : Hole N path .black (n+1)) :
      Hole N (⟨s,.black,x,other⟩::path) c n

namespace Hole
variable {N n : ℕ} {c : Color} {path : List (Frame α)} {t : ColorTree α} {f : Frame α}

theorem plug (h : Hole N path c n) (ht : RB t c n) : RB (plug path t) .black N := by
  induction h generalizing t with
  | root => exact ht
  | red ho hp ih => exact ih (ht.build_red ho)
  | black c ho hp ih => exact ih (ht.build_black ho)

/-- Every tree can be opened along a path. -/
theorem exists_of_plug (h : RB (RedBlack.plug path t) .black N) : ∃ c n, Hole N path c n ∧ RB t c n := by
  induction path generalizing t with
  | nil => exact ⟨.black,N,.root,h⟩
  | cons f path ih =>
    obtain ⟨c,n,hp,ht⟩ := ih h
    obtain ⟨s,cf,x,other⟩ := f
    cases s with
    | left =>
      cases ht with
      | red hl hr => exact ⟨_,_,.red hr hp,hl⟩
      | black hl hr => exact ⟨_,_,.black _ hr hp,hl⟩
    | right =>
      cases ht with
      | red hl hr => exact ⟨_,_,.red hl hp,hr⟩
      | black hl hr => exact ⟨_,_,.black _ hl hp,hr⟩

/-- A hole that takes a red tree takes a black one as well. -/
lemma of_red (h : Hole N path .red n) : Hole N path .black n := by
  cases h with
  | black _ ho hp => exact .black _ ho hp

/-- Red frames alternate with black ones, so a path is at most twice as long as it is
black; a hole for a red tree has a black frame last. -/
theorem length_le (h : Hole N path c n) : path.length+2*n+(if c = .red then 1 else 0) ≤ 2*N := by
  induction h with
  | root => simp
  | red ho hp ih =>
    simp only [length_cons,reduceCtorEq,if_false,if_true] at *
    omega
  | black c ho hp ih =>
    simp only [length_cons,reduceCtorEq,if_false] at *
    split_ifs <;> omega

end Hole
end ArmFirmware.Library.RedBlack
