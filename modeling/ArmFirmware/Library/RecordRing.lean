import Mathlib

/-! Records one behind the other in a circular memory of `N` cells. A record is not broken at the
end of the memory: where the next one would not fit, a mark tells the reader to go on at the start.
The writer's position never catches up with the reader's, so equal positions mean that there is no
record. -/
namespace ArmFirmware.Library
open Nat List

structure RecordFormat (β ρ : Type*) where
  size : ρ → ℕ
  lies : (ℕ → β) → ℕ → ρ → Prop
  /-- The mark behind which there are no more records before the end. -/
  mark : β → Prop
  size_pos : ∀ p, 0 < size p
  /-- A record depends on its own cells only. -/
  lies_congr : ∀ {m m' : ℕ → β} {a p}, (∀ x, a ≤ x → x < a+size p → m x = m' x) → lies m a p → lies m' a p
  lies_not_mark : ∀ {m : ℕ → β} {a p}, lies m a p → ¬mark (m a)

namespace RecordFormat
variable {β ρ : Type*} (F : RecordFormat β ρ) {m m' : ℕ → β} {N a b c rd wr x : ℕ} {p : ρ} {Q Q' : List ρ}

/-- Records fill the cells from one position to another. -/
def Row (m : ℕ → β) : ℕ → ℕ → List ρ → Prop
  | a,b,[] => a = b
  | a,b,p::Q => F.lies m a p ∧ Row m (a+F.size p) b Q

/-- The records between the reader's and the writer's positions. -/
def Laid (m : ℕ → β) (N rd wr : ℕ) (Q : List ρ) : Prop :=
  rd ≤ wr ∧ F.Row m rd wr Q ∨
  wr < rd ∧ ∃ e Q₁ Q₂, Q = Q₁++Q₂ ∧ F.Row m rd e Q₁ ∧ (e = N ∨ e < N ∧ F.mark (m e)) ∧ F.Row m 0 wr Q₂

def Used (N rd wr x : ℕ) : Prop := if rd ≤ wr then rd ≤ x ∧ x < wr else rd ≤ x ∧ x < N ∨ x < wr

variable {F}

namespace Row

lemma le (h : F.Row m a b Q) : a ≤ b := by
  induction Q generalizing a with
  | nil => exact le_of_eq h
  | cons p Q ih =>
    have := ih h.2
    omega

lemma append (h : F.Row m a b Q) (h' : F.Row m b c Q') : F.Row m a c (Q++Q') := by
  induction Q generalizing a with
  | nil => exact (show a = b from h) ▸ h'
  | cons p Q ih => exact ⟨h.1,ih h.2⟩

lemma snoc (h : F.Row m a b Q) (hp : F.lies m b p) : F.Row m a (b+F.size p) (Q++[p]) := h.append ⟨hp,rfl⟩

lemma congr (h : F.Row m a b Q) (heq : ∀ x, a ≤ x → x < b → m x = m' x) : F.Row m' a b Q := by
  induction Q generalizing a with
  | nil => exact h
  | cons p Q ih =>
    have hle := h.2.le
    exact ⟨F.lies_congr (fun x h₁ h₂ => heq x h₁ (by omega)) h.1,ih h.2 fun x h₁ h₂ => heq x (by omega) h₂⟩

lemma eq_nil (h : F.Row m a a Q) : Q = [] := by
  cases Q with
  | nil => rfl
  | cons p Q =>
    have := h.2.le
    have := F.size_pos p
    omega

lemma head (h : F.Row m a b Q) (hne : a ≠ b) : ∃ p Q', Q = p::Q' ∧ F.lies m a p := by
  cases Q with
  | nil => exact absurd h hne
  | cons p Q => exact ⟨p,Q,rfl,h.1⟩

end Row

namespace Laid

lemma congr (h : F.Laid m N rd wr Q) (heq : ∀ x, Used N rd wr x → m x = m' x) : F.Laid m' N rd wr Q := by
  rcases h with ⟨hle,hrow⟩ | ⟨hlt,e,Q₁,Q₂,rfl,hrow₁,hend,hrow₂⟩
  · exact .inl ⟨hle,hrow.congr fun x h₁ h₂ => heq x (by simp [Used,hle,h₁,h₂])⟩
  · have hused : ∀ x, rd ≤ x ∧ x < N ∨ x < wr → m x = m' x := fun x hx =>
      heq x (by simpa [Used,not_le.mpr hlt] using hx)
    have hle := hrow₁.le
    refine .inr ⟨hlt,e,Q₁,Q₂,rfl,hrow₁.congr fun x h₁ h₂ => hused x (.inl ⟨h₁,by omega⟩),?_,
      hrow₂.congr fun x _ h₂ => hused x (.inr h₂)⟩
    rcases hend with he | ⟨he,hmark⟩
    · exact .inl he
    · exact .inr ⟨he,hused e (.inl ⟨hle,he⟩) ▸ hmark⟩

lemma eq_nil (h : F.Laid m N rd rd Q) : Q = [] := by
  rcases h with ⟨-,hrow⟩ | ⟨hlt,-⟩
  · exact hrow.eq_nil
  · omega

section
variable (h : F.Laid m N rd wr Q)
include h

lemma snoc (hp : F.lies m wr p) (hlt : wr < rd → wr+F.size p < rd) : F.Laid m N rd (wr+F.size p) (Q++[p]) := by
  rcases h with ⟨hle,hrow⟩ | ⟨hwr,e,Q₁,Q₂,rfl,hrow₁,hend,hrow₂⟩
  · exact .inl ⟨by omega,hrow.snoc hp⟩
  · exact .inr ⟨hlt hwr,e,Q₁,Q₂++[p],append_assoc ..,hrow₁,hend,hrow₂.snoc hp⟩

lemma snoc_end (hp : F.lies m wr p) (hle : rd ≤ wr) (hpos : 0 < rd) (hend : wr+F.size p = N) :
    F.Laid m N rd 0 (Q++[p]) := by
  rcases h with ⟨-,hrow⟩ | ⟨hwr,-⟩
  · exact .inr ⟨hpos,N,Q++[p],[],(append_nil _).symm,hend ▸ hrow.snoc hp,.inl rfl,rfl⟩
  · omega

lemma jump (hle : rd ≤ wr) (hpos : 0 < rd) (hwr : wr < N) (hmark : F.mark (m wr)) : F.Laid m N rd 0 Q := by
  rcases h with ⟨-,hrow⟩ | ⟨hlt,-⟩
  · exact .inr ⟨hpos,wr,Q,[],(append_nil _).symm,hrow,.inr ⟨hwr,hmark⟩,rfl⟩
  · omega

lemma skip (hne : rd ≠ wr) (hmark : F.mark (m rd)) : wr < rd ∧ F.Laid m N 0 wr Q := by
  rcases h with ⟨hle,hrow⟩ | ⟨hlt,e,Q₁,Q₂,rfl,hrow₁,hend,hrow₂⟩
  · obtain ⟨p,Q',rfl,hp⟩ := hrow.head hne
    exact absurd hmark (F.lies_not_mark hp)
  · refine ⟨hlt,.inl ⟨zero_le _,?_⟩⟩
    by_cases he : rd = e
    · subst he
      rw [hrow₁.eq_nil]
      exact hrow₂
    · obtain ⟨p,Q',rfl,hp⟩ := hrow₁.head he
      exact absurd hmark (F.lies_not_mark hp)

lemma head (hne : rd ≠ wr) (hmark : ¬F.mark (m rd)) (hrd : rd < N) : ∃ p Q', Q = p::Q' ∧ F.lies m rd p := by
  rcases h with ⟨hle,hrow⟩ | ⟨hlt,e,Q₁,Q₂,rfl,hrow₁,hend,hrow₂⟩
  · exact hrow.head hne
  · have he : rd ≠ e := by
      rintro rfl
      rcases hend with he | ⟨-,he⟩
      · omega
      · exact hmark he
    obtain ⟨p,Q',rfl,hp⟩ := hrow₁.head he
    exact ⟨p,Q'++Q₂,rfl,hp⟩

end

/-- The first record, if there is one at the reader's position, does not reach beyond the end; behind
it are the others. -/
lemma tail (h : F.Laid m N rd wr (p::Q)) (hp : F.lies m rd p) (hrd : rd < N) (hwr : wr < N) :
    rd+F.size p < N ∧ (rd ≤ wr → rd+F.size p ≤ wr) ∧ F.Laid m N (rd+F.size p) wr Q ∨
      rd+F.size p = N ∧ wr < rd ∧ F.Laid m N 0 wr Q := by
  rcases h with ⟨hle,hrow⟩ | ⟨hlt,e,Q₁,Q₂,heq,hrow₁,hend,hrow₂⟩
  · have := hrow.2.le
    exact .inl ⟨by omega,fun _ => this,.inl ⟨this,hrow.2⟩⟩
  · cases Q₁ with
    | nil =>
      obtain rfl : rd = e := hrow₁
      rcases hend with he | ⟨-,he⟩
      · omega
      · exact absurd he (F.lies_not_mark hp)
    | cons q Q₁ =>
      obtain ⟨rfl,rfl⟩ := cons.inj heq
      have hle := hrow₁.2.le
      have heN : e ≤ N := hend.elim le_of_eq fun he => he.1.le
      rcases lt_or_eq_of_le (hle.trans heN) with hltN | heqN
      · exact .inl ⟨hltN,by omega,.inr ⟨by omega,e,Q₁,Q₂,rfl,hrow₁.2,hend,hrow₂⟩⟩
      · have he : rd+F.size p = e := by omega
        have hnil : Q₁ = [] := (he ▸ hrow₁.2).eq_nil
        subst hnil
        exact .inr ⟨heqN,hlt,.inl ⟨zero_le _,hrow₂⟩⟩

end Laid
end RecordFormat
end ArmFirmware.Library
