import ArmFirmware.Library.RecordRing

/-! Records that may fill a circular memory of `N` cells up to the last one. A flag tells a full
memory from an empty one, and what is not used at the end of the memory is a record too. -/
namespace ArmFirmware.Library.RecordFormat
open List Nat Bool
variable {β ρ : Type*} {F : RecordFormat β ρ} {m m' : ℕ → β} {N a b rd wr x : ℕ} {full : Bool} {p q : ρ}
  {Q Q₁ Q₂ : List ρ}

/-- The records from the reader's position to the writer's. -/
def Circle (F : RecordFormat β ρ) (m : ℕ → β) (N rd wr : ℕ) (full : Bool) (Q : List ρ) : Prop :=
  full = false ∧ rd ≤ wr ∧ wr < N ∧ F.Row m rd wr Q ∨
    rd < N ∧ (if full = true then wr = rd else wr < rd) ∧
      ∃ Q₁ Q₂, Q = Q₁++Q₂ ∧ F.Row m rd N Q₁ ∧ F.Row m 0 wr Q₂

def Taken (N rd wr : ℕ) (full : Bool) (x : ℕ) : Prop := if full = true then x < N else Used N rd wr x

def total (F : RecordFormat β ρ) (Q : List ρ) : ℕ := (Q.map F.size).sum

@[simp] lemma total_nil : F.total [] = 0 := rfl

@[simp] lemma total_cons : F.total (p::Q) = F.size p+F.total Q := by simp [total]

@[simp] lemma total_append : F.total (Q₁++Q₂) = F.total Q₁+F.total Q₂ := by simp [total]

namespace Row

lemma total_eq (h : F.Row m a b Q) : a+F.total Q = b := by
  induction Q generalizing a with
  | nil => exact h
  | cons p Q ih =>
    have := ih h.2
    rw [total_cons]
    omega

/-- A row is broken before each of its records. -/
lemma split (h : F.Row m a b (Q₁++Q₂)) : ∃ c, F.Row m a c Q₁ ∧ F.Row m c b Q₂ := by
  induction Q₁ generalizing a with
  | nil => exact ⟨a,rfl,h⟩
  | cons p Q₁ ih =>
    obtain ⟨c,h₁,h₂⟩ := ih h.2
    exact ⟨c,⟨h.1,h₁⟩,h₂⟩

lemma replace {c : ℕ} (h₁ : F.Row m a c Q₁) (h₂ : F.Row m (c+F.size p) b Q₂)
    (hm : ∀ x, x < c ∨ c+F.size p ≤ x → m' x = m x) (hq : F.lies m' c q) (hsize : F.size q = F.size p) :
    F.Row m' a b (Q₁++q::Q₂) := by
  refine (h₁.congr fun x _ hx => (hm x (.inl hx)).symm).append ⟨hq,?_⟩
  rw [hsize]
  exact h₂.congr fun x hx _ => (hm x (.inr hx)).symm

end Row

namespace Circle

lemma rd_lt (h : F.Circle m N rd wr full Q) : rd < N := by
  rcases h with ⟨-,hle,hlt,-⟩ | ⟨hlt,-⟩
  · omega
  · exact hlt

lemma wr_lt (h : F.Circle m N rd wr full Q) : wr < N := by
  rcases h with ⟨-,-,hlt,-⟩ | ⟨hlt,hwr,-⟩
  · exact hlt
  · split_ifs at hwr <;> omega

lemma empty (hN : 0 < N) : F.Circle m N 0 0 false [] := .inl ⟨rfl,le_rfl,hN,rfl⟩

lemma congr (h : F.Circle m N rd wr full Q) (heq : ∀ x, Taken N rd wr full x → m x = m' x) :
    F.Circle m' N rd wr full Q := by
  rcases h with ⟨rfl,hle,hlt,hrow⟩ | ⟨hrd,hwr,Q₁,Q₂,rfl,h₁,h₂⟩
  · exact .inl ⟨rfl,hle,hlt,hrow.congr fun x hx hx' => heq x (by simp [Taken,Used,hle,hx,hx'])⟩
  · have htaken : ∀ x, rd ≤ x ∧ x < N ∨ x < wr → m x = m' x := fun x hx => heq x (by
      unfold Taken Used
      split_ifs at hwr ⊢ <;> omega)
    exact .inr ⟨hrd,hwr,Q₁,Q₂,rfl,h₁.congr fun x hx hx' => htaken x (.inl ⟨hx,hx'⟩),
      h₂.congr fun x _ hx' => htaken x (.inr hx')⟩

/-- The writer adds a record that fits before the end of the memory and before the reader. -/
lemma push (h : F.Circle m N rd wr false Q) (hp : F.lies m wr p) (hfit : wr+F.size p ≤ if rd ≤ wr then N else rd) :
    F.Circle m N rd ((wr+F.size p)%N) (decide ((wr+F.size p)%N = rd)) (Q++[p]) := by
  have hpos := F.size_pos p
  rcases h with ⟨-,hle,hlt,hrow⟩ | ⟨hrd,hwr,Q₁,Q₂,rfl,h₁,h₂⟩
  · rw [if_pos hle] at hfit
    rcases lt_or_eq_of_le hfit with hend | hend
    · rw [mod_eq_of_lt hend,decide_eq_false (by omega)]
      exact .inl ⟨rfl,by omega,hend,hrow.snoc hp⟩
    · rw [hend,mod_self]
      refine .inr ⟨by omega,?_,Q++[p],[],by simp,hend ▸ hrow.snoc hp,rfl⟩
      simp only [decide_eq_true_eq]
      split_ifs <;> omega
  · simp only [false_eq_true,if_false] at hwr
    rw [if_neg (by omega)] at hfit
    rw [mod_eq_of_lt (by omega)]
    refine .inr ⟨hrd,?_,Q₁,Q₂++[p],by simp,h₁,h₂.snoc hp⟩
    simp only [decide_eq_true_eq]
    split_ifs <;> omega

lemma head (h : F.Circle m N rd wr full (p::Q)) : F.lies m rd p ∧ rd+F.size p ≤ N := by
  rcases h with ⟨-,hle,hlt,hrow⟩ | ⟨hrd,hwr,Q₁,Q₂,heq,h₁,h₂⟩
  · have := hrow.2.le
    exact ⟨hrow.1,by omega⟩
  · cases Q₁ with
    | nil => exact absurd h₁ (by simp only [Row]; omega)
    | cons q Q₁ =>
      obtain ⟨rfl,rfl⟩ := List.cons.inj heq
      exact ⟨h₁.1,h₁.2.le⟩

lemma pop (h : F.Circle m N rd wr full (p::Q)) : F.Circle m N ((rd+F.size p)%N) wr false Q := by
  have hpos := F.size_pos p
  rcases h with ⟨-,hle,hlt,hrow⟩ | ⟨hrd,hwr,Q₁,Q₂,heq,h₁,h₂⟩
  · have := hrow.2.le
    rw [mod_eq_of_lt (by omega)]
    exact .inl ⟨rfl,this,hlt,hrow.2⟩
  · have hwr' : wr ≤ rd := by split_ifs at hwr <;> omega
    cases Q₁ with
    | nil => exact absurd h₁ (by simp only [Row]; omega)
    | cons q Q₁ =>
      obtain ⟨rfl,rfl⟩ := List.cons.inj heq
      have hle := h₁.2.le
      rcases lt_or_eq_of_le hle with hend | hend
      · rw [mod_eq_of_lt hend]
        refine .inr ⟨hend,?_,Q₁,Q₂,rfl,h₁.2,h₂⟩
        simp only [false_eq_true,if_false]
        omega
      · have hnil : Q₁ = [] := (hend ▸ h₁.2).eq_nil
        rw [hend,mod_self,hnil]
        exact .inl ⟨rfl,zero_le _,by omega,h₂⟩

lemma pop_free (h : F.Circle m N rd wr full (p::Q)) (hx : rd ≤ x) (hx' : x < rd+F.size p) :
    ¬Taken N ((rd+F.size p)%N) wr false x := by
  have hle := h.head.2
  simp only [Taken,false_eq_true,if_false,Used]
  rcases h with ⟨-,hwr,hlt,hrow⟩ | ⟨hrd,hwr,-⟩
  · have hle' := hrow.2.le
    rw [mod_eq_of_lt (by omega),if_pos hle']
    omega
  · have hwr' : wr ≤ rd := by split_ifs at hwr <;> omega
    rcases lt_or_eq_of_le hle with hend | hend
    · rw [mod_eq_of_lt hend]
      split_ifs <;> omega
    · rw [hend,mod_self,if_pos (zero_le _)]
      omega

/-- A record among the others: it has its own cells, the writer is right behind it only if it is the
last one, and it can be exchanged for another one of its size. -/
lemma split (h : F.Circle m N rd wr full (Q₁++p::Q₂)) :
    ∃ c, F.lies m c p ∧ c+F.size p ≤ N ∧ (∀ x, c ≤ x → x < c+F.size p → Taken N rd wr full x) ∧
      ((c+F.size p)%N = wr → Q₂ = []) ∧
      ∀ m' q, (∀ x, x < c ∨ c+F.size p ≤ x → m' x = m x) → F.lies m' c q → F.size q = F.size p →
        F.Circle m' N rd wr full (Q₁++q::Q₂) := by
  have hpos := F.size_pos p
  rcases h with ⟨rfl,hle,hlt,hrow⟩ | ⟨hrd,hwr,R₁,R₂,heq,h₁,h₂⟩
  · obtain ⟨c,hrow₁,hp,hrow₂⟩ := hrow.split
    have hc := hrow₁.le
    have hc' := hrow₂.le
    refine ⟨c,hp,by omega,fun x hx hx' => ?_,fun hend => ?_,fun m' q hm hq hsize => ?_⟩
    · simp only [Taken,false_eq_true,if_false,Used,if_pos hle]
      omega
    · rw [mod_eq_of_lt (by omega)] at hend
      exact (hend ▸ hrow₂).eq_nil
    · exact .inl ⟨rfl,hle,hlt,hrow₁.replace hrow₂ hm hq hsize⟩
  · have hwr' : wr ≤ rd := by split_ifs at hwr <;> omega
    have htaken : ∀ x, rd ≤ x ∧ x < N ∨ x < wr → Taken N rd wr full x := fun x hx => by
      unfold Taken Used
      split_ifs at hwr ⊢ <;> omega
    rcases append_eq_append_iff.mp heq with ⟨T,rfl,hT⟩ | ⟨T,rfl,rfl⟩
    · cases T with
      | nil =>
        -- the record is the first one at memory
        obtain rfl : R₂ = p::Q₂ := by simpa using hT.symm
        have hle := h₂.2.le
        refine ⟨0,h₂.1,by omega,fun x _ hx' => htaken x (.inr (by omega)),fun hend => ?_,fun m' q hm hq hsize => ?_⟩
        · rw [mod_eq_of_lt (by omega)] at hend
          exact (hend ▸ h₂.2).eq_nil
        · refine .inr ⟨hrd,hwr,Q₁,q::Q₂,rfl,?_,hq,?_⟩
          · rw [append_nil] at h₁
            exact h₁.congr fun x hx _ => (hm x (.inr (by omega))).symm
          · rw [hsize]
            exact h₂.2.congr fun x hx _ => (hm x (.inr hx)).symm
      | cons t T =>
        obtain ⟨rfl,rfl⟩ := List.cons.inj (hT.trans (cons_append ..))
        obtain ⟨c,hrow₁,hp,hrow₂⟩ := h₁.split
        have hc := hrow₁.le
        have hc' := hrow₂.le
        refine ⟨c,hp,hc',fun x hx hx' => htaken x (.inl (by omega)),fun hend => ?_,fun m' q hm hq hsize => ?_⟩
        · rcases lt_or_eq_of_le hc' with hlt | heq'
          · rw [mod_eq_of_lt hlt] at hend
            omega
          · rw [heq',mod_self] at hend
            have hnil : T = [] := (heq' ▸ hrow₂).eq_nil
            rw [hnil,nil_append]
            exact (hend ▸ h₂).eq_nil
        · refine .inr ⟨hrd,hwr,Q₁++q::T,R₂,by simp,hrow₁.replace hrow₂ hm hq hsize,?_⟩
          exact h₂.congr fun x _ hx => (hm x (.inl (by omega))).symm
    · obtain ⟨c,hrow₁,hp,hrow₂⟩ := h₂.split
      have hc' := hrow₂.le
      refine ⟨c,hp,by omega,fun x _ hx' => htaken x (.inr (by omega)),fun hend => ?_,fun m' q hm hq hsize => ?_⟩
      · rw [mod_eq_of_lt (by omega)] at hend
        exact (hend ▸ hrow₂).eq_nil
      · refine .inr ⟨hrd,hwr,R₁,T++q::Q₂,by simp,?_,hrow₁.replace hrow₂ hm hq hsize⟩
        exact h₁.congr fun x hx _ => (hm x (.inr (by omega))).symm

/-- The record that was written last can be taken back. -/
lemma unpush (h : F.Circle m N rd wr full (Q++[p])) :
    ∃ c, F.lies m c p ∧ c+F.size p ≤ N ∧ wr = (c+F.size p)%N ∧ F.Circle m N rd c false Q := by
  have hpos := F.size_pos p
  rcases h with ⟨rfl,hle,hlt,hrow⟩ | ⟨hrd,hwr,R₁,R₂,heq,h₁,h₂⟩
  · obtain ⟨c,hrow₁,hp,hrow₂⟩ := hrow.split
    have hend : c+F.size p = wr := hrow₂
    have hc := hrow₁.le
    exact ⟨c,hp,by omega,by rw [hend,mod_eq_of_lt hlt],.inl ⟨rfl,hc,by omega,hrow₁⟩⟩
  · have hwr' : wr ≤ rd := by split_ifs at hwr <;> omega
    rcases eq_nil_or_concat R₂ with rfl | ⟨T,t,rfl⟩
    · obtain rfl : R₁ = Q++[p] := by simpa using heq.symm
      obtain rfl : 0 = wr := h₂
      obtain ⟨c,hrow₁,hp,hrow₂⟩ := h₁.split
      have hend : c+F.size p = N := hrow₂
      have hc := hrow₁.le
      exact ⟨c,hp,hend.le,by rw [hend,mod_self],.inl ⟨rfl,hc,by omega,hrow₁⟩⟩
    · rw [concat_eq_append] at heq h₂
      rw [← append_assoc] at heq
      obtain ⟨rfl,hpt⟩ := append_inj' heq rfl
      obtain rfl : p = t := by simpa using hpt
      obtain ⟨c,hrow₁,hp,hrow₂⟩ := h₂.split
      have hend : c+F.size p = wr := hrow₂
      refine ⟨c,hp,by omega,by rw [hend,mod_eq_of_lt (by omega)],.inr ⟨hrd,?_,R₁,T,rfl,h₁,hrow₁⟩⟩
      simp only [false_eq_true,if_false]
      omega

lemma total_eq (h : F.Circle m N rd wr full Q) :
    F.total Q ≤ N ∧ (full = true ↔ F.total Q = N) ∧ (rd+F.total Q)%N = wr := by
  rcases h with ⟨rfl,hle,hlt,hrow⟩ | ⟨hrd,hwr,R₁,R₂,rfl,h₁,h₂⟩
  · have heq := hrow.total_eq
    refine ⟨by omega,?_,by rw [heq,mod_eq_of_lt hlt]⟩
    simp only [false_eq_true,false_iff]
    omega
  · have h₁ := h₁.total_eq
    have h₂ := h₂.total_eq
    have hwr' : wr ≤ rd := by split_ifs at hwr <;> omega
    rw [total_append]
    refine ⟨by omega,?_,?_⟩
    · cases full with
      | false =>
        simp only [false_eq_true,if_false,false_iff] at hwr ⊢
        omega
      | true =>
        simp only [if_true,true_iff] at hwr ⊢
        omega
    · rw [show rd+(F.total R₁+F.total R₂) = N+wr by omega,add_mod_left,mod_eq_of_lt (by omega)]

end Circle

section Places
variable {start : ρ → ℕ}

lemma Row.places (hstart : ∀ {m a p}, F.lies m a p → start p = a) (h : F.Row m a b Q) :
    (∀ p ∈ Q, F.lies m (start p) p ∧ a ≤ start p ∧ start p+F.size p ≤ b) ∧
      Q.Pairwise fun p q => start p+F.size p ≤ start q := by
  induction Q generalizing a with
  | nil => simp
  | cons p Q ih =>
    obtain ⟨hin,hpair⟩ := ih h.2
    have hp := hstart h.1
    have hle := h.2.le
    refine ⟨?_,pairwise_cons.mpr ⟨fun q hq => ?_,hpair⟩⟩
    · intro q hq
      rcases mem_cons.mp hq with rfl | hq
      · exact ⟨hp.symm ▸ h.1,by omega,by omega⟩
      · obtain ⟨h₁,h₂,h₃⟩ := hin q hq
        exact ⟨h₁,by omega,h₃⟩
    · rw [hp]
      exact (hin q hq).2.1

lemma Circle.places (hstart : ∀ {m a p}, F.lies m a p → start p = a) (h : F.Circle m N rd wr full Q) :
    (∀ p ∈ Q, F.lies m (start p) p ∧ start p+F.size p ≤ N) ∧
      Q.Pairwise fun p q => start p+F.size p ≤ start q ∨ start q+F.size q ≤ start p := by
  rcases h with ⟨rfl,hle,hlt,hrow⟩ | ⟨hrd,hwr,R₁,R₂,rfl,h₁,h₂⟩
  · obtain ⟨hin,hpair⟩ := hrow.places hstart
    refine ⟨fun p hp => ⟨(hin p hp).1,?_⟩,hpair.imp .inl⟩
    have := (hin p hp).2.2
    omega
  · obtain ⟨hin₁,hpair₁⟩ := h₁.places hstart
    obtain ⟨hin₂,hpair₂⟩ := h₂.places hstart
    have hwr' : wr ≤ rd := by split_ifs at hwr <;> omega
    refine ⟨fun p hp => ?_,pairwise_append.mpr ⟨hpair₁.imp .inl,hpair₂.imp .inl,fun p hp q hq => .inr ?_⟩⟩
    · rcases mem_append.mp hp with hp | hp
      · exact ⟨(hin₁ p hp).1,(hin₁ p hp).2.2⟩
      · have := (hin₂ p hp).2.2
        exact ⟨(hin₂ p hp).1,by omega⟩
    · have := (hin₁ p hp).2.1
      have := (hin₂ q hq).2.2
      omega

end Places
end ArmFirmware.Library.RecordFormat
