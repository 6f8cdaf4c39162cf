import ArmFirmware.Zephyr.Hashmap.SeparateChaining

/-! Calls of the separate-chaining map whose allocations may fail. A refused entry leaves a
larger table with the same entries. A refused bucket array puts the entries back into the old
one, but counts them a second time. -/
namespace ArmFirmware.Zephyr.Hashmap.SeparateChaining
open Library List

/-- A call, and how the allocator answers it. -/
structure Call where
  op : MapOp UInt64 UInt64
  granted : Granted

/-- The assertion of `sys_hashmap_sc_find`: a table with buckets is not empty. -/
def FindAsserts (d : Data) : Prop := d.nBuckets ≠ 0 → 0 < d.size

instance (d : Data) : Decidable (FindAsserts d) := by unfold FindAsserts; infer_instance

/-- One call of the interface with the given answers of the allocator. Shrinking is always
granted, as `sys_hashmap_sc_remove` asserts. -/
def attempt (P : Params) (d : Data) (call : Call) : Option (Data × MapReply UInt64 UInt64) :=
  match call.op with
  | .clear => step P d .clear
  | .insert key value => if FindAsserts d then
      (sysHashmapScInsert P d key value call.granted).map fun r => (r.1,.inserted r.2.1 r.2.2)
    else none
  | op => if FindAsserts d then step P d op else none

/-- Whether the next entry makes the table grow, and to how many buckets. -/
def growth (P : Params) (d : Data) : Bool × ℕ :=
  sysHashmapShouldRehash P.sizeBits P.cfg d.size d.nBuckets true 0

/-- The calls after which nothing is left of a failed insertion: a bucket array is refused
only to an empty map, and an entry only to one that is not empty. -/
def Meets (P : Params) (d : Data) (call : Call) : Prop :=
  Allowed P d call.op ∧
    match call.op with
    | .insert key _ => sysHashmapScFind P d key = none →
      ((growth P d).1 = true → call.granted.buckets = false → d.size = 0) ∧
      (((growth P d).1 = true → call.granted.buckets = true) → call.granted.entry = false →
        0 < d.size)
    | _ => True

instance (P : Params) (d : Data) : ∀ op, Decidable (Allowed P d op)
  | .insert .. => by unfold Allowed ArrayExists; infer_instance
  | .remove _ | .get _ | .clear => isTrue trivial

instance (P : Params) (d : Data) : ∀ call, Decidable (Meets P d call)
  | ⟨.insert ..,_⟩ => by unfold Meets; infer_instance
  | ⟨.remove _,_⟩ | ⟨.get _,_⟩ | ⟨.clear,_⟩ => isTrue ⟨trivial,trivial⟩

/-- A call on a finite map whose insertions of new keys may be refused. -/
inductive AttemptStep : (UInt64 → Option UInt64) → Call → MapReply UInt64 UInt64 →
    (UInt64 → Option UInt64) → Prop
  | done {m call o m'} (h : MapStep m call.op o m')
      (hgranted : ∀ key value, call.op = .insert key value → m key = none →
        call.granted.entry = true) : AttemptStep m call o m'
  | refused {m key value granted} (h : m key = none)
      (hgranted : granted.buckets = false ∨ granted.entry = false) :
      AttemptStep m ⟨.insert key value,granted⟩ (.inserted (-ENOMEM) none) m

/-- The same reply: an old value counts only for a key that was there, and a clear may visit
the entries in another order. -/
def SameReply : MapReply UInt64 UInt64 → MapReply UInt64 UInt64 → Prop
  | .inserted ret old,.inserted ret' old' => ret = ret' ∧ (ret = 0 → old = old')
  | .removed found value,.removed found' value' => found = found' ∧ value = value'
  | .got found value,.got found' value' => found = found' ∧ value = value'
  | .cleared entries,.cleared entries' => entries.Perm entries'
  | _,_ => False

lemma perm_of_represents {l l' : List Entry} {m : UInt64 → Option UInt64} (h : Represents l m)
    (h' : Represents l' m) : l.Perm l' := by
  refine (perm_ext_iff_of_nodup h.nodup.of_map h'.nodup.of_map).mpr fun e => ?_
  exact (h.mem_iff e.1 e.2).trans (h'.mem_iff e.1 e.2).symm

section Spec
variable {m m₁ m₂ : UInt64 → Option UInt64} {o₁ o₂ : MapReply UInt64 UInt64}

/-- A map has one reply to an operation, and one next state. -/
lemma mapStep_unique {op : MapOp UInt64 UInt64} (h₁ : MapStep m op o₁ m₁)
    (h₂ : MapStep m op o₂ m₂) : SameReply o₁ o₂ ∧ m₁ = m₂ := by
  cases h₁ with
  | insert_new k v old hk =>
    cases h₂ with
    | insert_new => exact ⟨⟨rfl,by simp⟩,rfl⟩
    | insert_existing _ _ old' hk' => simp [hk] at hk'
  | insert_existing k v old hk =>
    cases h₂ with
    | insert_new _ _ _ hk' => simp [hk] at hk'
    | insert_existing _ _ old' hk' =>
      obtain rfl : old = old' := by simpa [hk] using hk'
      exact ⟨⟨rfl,fun _ => rfl⟩,rfl⟩
  | remove k v hk =>
    cases h₂ with
    | remove _ v' hk' =>
      obtain rfl : v = v' := by simpa [hk] using hk'
      exact ⟨⟨rfl,rfl⟩,rfl⟩
    | remove_missing _ hk' => simp [hk] at hk'
  | remove_missing k hk =>
    cases h₂ with
    | remove _ v' hk' => simp [hk] at hk'
    | remove_missing => exact ⟨⟨rfl,rfl⟩,rfl⟩
  | get k v hk =>
    cases h₂ with
    | get _ v' hk' =>
      obtain rfl : v = v' := by simpa [hk] using hk'
      exact ⟨⟨rfl,rfl⟩,rfl⟩
    | get_missing _ hk' => simp [hk] at hk'
  | get_missing k hk =>
    cases h₂ with
    | get _ v' hk' => simp [hk] at hk'
    | get_missing => exact ⟨⟨rfl,rfl⟩,rfl⟩
  | clear entries he =>
    cases h₂ with
    | clear entries' he' => exact ⟨perm_of_represents he he',rfl⟩

lemma attemptStep_unique {call : Call} (hbuckets : call.granted.buckets = true)
    (h₁ : AttemptStep m call o₁ m₁) (h₂ : AttemptStep m call o₂ m₂) : SameReply o₁ o₂ ∧ m₁ = m₂ := by
  cases h₁ with
  | done h₁ hg₁ =>
    cases h₂ with
    | done h₂ _ => exact mapStep_unique h₁ h₂
    | @refused key value granted hk hg =>
      simp_all
  | @refused key value granted hk hg =>
    cases h₂ with
    | done h₂ hg₂ =>
      simp_all
    | refused => exact ⟨⟨rfl,fun _ => rfl⟩,rfl⟩

lemma trace_unique {calls : List Call} (hbuckets : ∀ call ∈ calls, call.granted.buckets = true)
    {os₁ os₂ : List (MapReply UInt64 UInt64)} (h₁ : Trace AttemptStep m calls os₁ m₁)
    (h₂ : Trace AttemptStep m calls os₂ m₂) : List.Forall₂ SameReply os₁ os₂ ∧ m₁ = m₂ := by
  induction h₁ generalizing os₂ with
  | nil s =>
    cases h₂
    exact ⟨.nil,rfl⟩
  | cons head tail ih =>
    cases h₂ with
    | cons head' tail' =>
      obtain ⟨hsame,rfl⟩ := attemptStep_unique (hbuckets _ (mem_cons_self ..)) head head'
      obtain ⟨hrest,hm⟩ := ih (fun call hc => hbuckets call (mem_cons_of_mem _ hc)) tail'
      exact ⟨.cons hsame hrest,hm⟩

end Spec

section Calls
variable {P : Params} {d : Data} {m : UInt64 → Option UInt64} {key value : UInt64}
  {granted : Granted} {maxSize lf : ℕ}

lemma Inv.findAsserts (h : Inv P d m) : FindAsserts d := fun hn =>
  h.size_pos_iff.mpr (Nat.pos_of_ne_zero hn)

lemma insert_granted (hf : sysHashmapScFind P d key = none)
    (hb : (growth P d).1 = true → granted.buckets = true) (he : granted.entry = true) :
    sysHashmapScInsert P d key value granted = sysHashmapScInsert P d key value ⟨true,true⟩ := by
  have hrehash : sysHashmapScRehash P d true granted.buckets = sysHashmapScRehash P d true true := by
    rw [sysHashmapScRehash,sysHashmapScRehash]
    change (if !(growth P d).1 then _ else _) = if !(growth P d).1 then _ else _
    cases hg : (growth P d).1 with
    | false => rfl
    | true => rw [hb hg]
  simp only [sysHashmapScInsert,hf,hrehash,he]

/-- An insertion that gets no memory leaves the map as it was. -/
lemma Inv.insert_refused (h : Inv P d m) (hcfg : P.cfg = sysHashmapConfig maxSize lf)
    (h₁ : 1 ≤ lf) (h₂ : lf < 200) (hf : sysHashmapScFind P d key = none)
    (hok : Meets P d ⟨.insert key value,granted⟩)
    (hr : (growth P d).1 = true ∧ granted.buckets = false ∨ granted.entry = false) :
    ∃ d', sysHashmapScInsert P d key value granted = some (d',-ENOMEM,none) ∧ Inv P d' m := by
  obtain ⟨hallowed,hmeets⟩ := hok
  obtain ⟨hs,harray⟩ := hallowed hf
  obtain ⟨hempty,hentry⟩ := hmeets hf
  by_cases hb : (growth P d).1 = true ∧ granted.buckets = false
  · -- nothing to put back
    have hsize := hempty hb.1 hb.2
    have hn : d.nBuckets = 0 := by
      have := h.size_pos_iff
      omega
    have hnil := eq_nil_of_length_eq_zero (h.placed.length_eq.trans hn)
    obtain ⟨should,n,hgrow,hpos,-⟩ := h.grow_cases hcfg h₁ h₂ hs
    have hshould : should = true := by
      have := hb.1
      rwa [growth,hgrow] at this
    subst hshould
    refine ⟨d,?_,h⟩
    have hne : n ≠ 0 := by
      have : 0 < n := by simpa using hpos
      omega
    simp [sysHashmapScInsert,hf,sysHashmapScRehash,hgrow,hb.2,hne,sysHashmapScToList,hnil,
      sysHashmapScInsertAll,ENOMEM]
    cases d
    simp_all
  · have hgranted : (growth P d).1 = true → granted.buckets = true := by
      intro hg
      cases hgb : granted.buckets with
      | true => rfl
      | false => exact absurd ⟨hg,hgb⟩ hb
    have he := hr.resolve_left hb
    have hsize := hentry hgranted he
    obtain ⟨should,n,hgrow,hpos,hone⟩ := h.grow_cases hcfg h₁ h₂ hs
    have hlt := size_lt_pow hs
    obtain ⟨d₁,hre,hp,hperm,hsz,hn⟩ := rehash_spec h.placed h.size_eq.symm (by omega) hgrow
      (by rintro rfl -; simpa using hpos)
    have hrehash : sysHashmapScRehash P d true granted.buckets = some (d₁,0) := by
      rw [← hre,sysHashmapScRehash,sysHashmapScRehash]
      change (if !(growth P d).1 then _ else _) = if !(growth P d).1 then _ else _
      cases hg : (growth P d).1 with
      | false => rfl
      | true => rw [hgranted hg]
    refine ⟨d₁,by simp [sysHashmapScInsert,hf,hrehash,he],⟨⟨hp,h.represents.perm hperm.symm,?_,?_,?_,?_⟩,?_⟩⟩
    · rw [hsz,hperm.length_eq,h.size_eq]
    · omega
    · rw [hsz]
      exact h.size_allowed
    · rw [hn]
      split_ifs with hshould
      · rw [hgrow] at harray
        exact harray hshould
      · exact h.array_exists
    · intro h1
      omega

/-- One call refines one call on the map, also when the allocator refuses. -/
theorem attempt_refines (hcfg : P.cfg = sysHashmapConfig maxSize lf) (h₁ : 1 ≤ lf) (h₂ : lf < 200)
    (call : Call) (h : Inv P d m) (hok : Meets P d call) :
    ∃ d' o m', attempt P d call = some (d',o) ∧ AttemptStep m call o m' ∧ Inv P d' m' := by
  obtain ⟨op,granted⟩ := call
  cases op with
  | insert key value =>
    simp only [attempt,if_pos h.findAsserts]
    cases hf : sysHashmapScFind P d key with
    | some e =>
      obtain ⟨d',he,hi⟩ := h.insert_existing hf value
      have hm := (h.find_some hf).2.2
      refine ⟨d',_,_,?_,.done (.insert_existing _ _ _ _ hm) fun k v hop hk => ?_,hi⟩
      · have : sysHashmapScInsert P d key value granted = some (d',0,some e.2) := by
          rw [← he,sysHashmapScInsert,sysHashmapScInsert,hf]
        rw [this]
        rfl
      · cases hop
        rw [hm] at hk
        contradiction
    | none =>
      have hm := h.find_none hf
      by_cases hr : (growth P d).1 = true ∧ granted.buckets = false ∨ granted.entry = false
      · obtain ⟨d',he,hi⟩ := h.insert_refused hcfg h₁ h₂ hf hok hr
        exact ⟨d',_,m,by rw [he]; rfl,.refused hm (hr.imp_left And.right),hi⟩
      · obtain ⟨hb,hentry⟩ := not_or.mp hr
        rw [Bool.not_eq_false] at hentry
        have hgranted : (growth P d).1 = true → granted.buckets = true := by
          intro hg
          cases hgb : granted.buckets with
          | true => rfl
          | false => exact absurd ⟨hg,hgb⟩ hb
        obtain ⟨d',he,hi⟩ := h.insert_new hcfg h₁ h₂ hf hok.1
        refine ⟨d',_,_,?_,.done (.insert_new _ _ _ none hm) fun _ _ _ _ => hentry,hi⟩
        rw [insert_granted hf hgranted hentry,he]
        rfl
  | remove key =>
    obtain ⟨d',o,m',he,hs,hi⟩ := step_refines hcfg h₁ h₂ (.remove key) h hok.1
    exact ⟨d',o,m',by simp only [attempt,if_pos h.findAsserts,he],.done hs (by simp),hi⟩
  | get key =>
    obtain ⟨d',o,m',he,hs,hi⟩ := step_refines hcfg h₁ h₂ (.get key) h hok.1
    exact ⟨d',o,m',by simp only [attempt,if_pos h.findAsserts,he],.done hs (by simp),hi⟩
  | clear =>
    obtain ⟨d',o,m',he,hs,hi⟩ := step_refines hcfg h₁ h₂ .clear h hok.1
    exact ⟨d',o,m',he,.done hs (by simp),hi⟩

/-- A call that turned the map `d` into `d'` left nothing behind: the entries and the size
are the same, and the later calls get the same replies. -/
def Unnoticed (P : Params) (d d' : Data) : Prop :=
  d'.buckets.flatten.Perm d.buckets.flatten ∧ d'.size = d.size ∧
    ∀ later : List Call, (∀ call ∈ later, call.granted.buckets = true) →
      Along (Meets P) (attempt P) d later → Along (Meets P) (attempt P) d' later →
      ∃ e outs e' outs', serve? (attempt P) d later = some (e,outs) ∧
        serve? (attempt P) d' later = some (e',outs') ∧ List.Forall₂ SameReply outs outs' ∧
        e'.size = e.size ∧ e'.buckets.flatten.Perm e.buckets.flatten

/-- In every run whose insertions are refused a bucket array only while the map is empty and
an entry only while it is not, a further failed insertion keeps the entries and the size, and
later calls cannot tell that it was made. -/
theorem failed_insert_unnoticed (hcfg : P.cfg = sysHashmapConfig maxSize lf) (h₁ : 1 ≤ lf)
    (h₂ : lf < 200) (calls : List Call) (hrun : Along (Meets P) (attempt P) empty calls) :
    ∃ d outs, serve? (attempt P) empty calls = some (d,outs) ∧
      ∀ key value granted d' old, Meets P d ⟨.insert key value,granted⟩ →
        attempt P d ⟨.insert key value,granted⟩ = some (d',.inserted (-ENOMEM) old) →
        Unnoticed P d d' := by
  have hstep : ∀ (s : Data) (t : UInt64 → Option UInt64) (call : Call), Inv P s t →
      Meets P s call → ∃ s' o t', attempt P s call = some (s',o) ∧ AttemptStep t call o t' ∧
        Inv P s' t' :=
    fun s t call hi hok => attempt_refines hcfg h₁ h₂ call hi hok
  obtain ⟨d,outs,m,he,-,hi⟩ := Trace.of_serve? hstep inv_empty hrun
  refine ⟨d,outs,he,fun key value granted d' old hok hfail => ?_⟩
  obtain ⟨d₁,o,m₁,he₁,hs₁,hi₁⟩ := attempt_refines hcfg h₁ h₂ _ hi hok
  cases he₁.symm.trans hfail
  obtain rfl : m₁ = m := by
    cases hs₁ with
    | done h => cases h
    | refused => rfl
  refine ⟨perm_of_represents hi₁.represents hi.represents,?_,fun later hb hd hd' => ?_⟩
  · rw [hi₁.size_eq,hi.size_eq,(perm_of_represents hi₁.represents hi.represents).length_eq]
  · obtain ⟨e,outs,n,hse,ht,hie⟩ := Trace.of_serve? hstep hi hd
    obtain ⟨e',outs',n',hse',ht',hie'⟩ := Trace.of_serve? hstep hi₁ hd'
    obtain ⟨hsame,rfl⟩ := trace_unique hb ht ht'
    have hperm := perm_of_represents hie'.represents hie.represents
    refine ⟨e,outs,e',outs',hse,hse',hsame,?_,hperm⟩
    rw [hie'.size_eq,hie.size_eq,hperm.length_eq]

end Calls

def crowded : List Call := [⟨.insert 1 10,⟨true,true⟩⟩]

/-- The second entry is refused in a map of one entry. -/
theorem failed_insert_unnoticed_entry :
    ∃ d d' outs, serve? (attempt (colliding 75)) empty crowded = some (d,outs) ∧
      attempt (colliding 75) d ⟨.insert 2 20,⟨true,false⟩⟩ = some (d',.inserted (-ENOMEM) none) ∧
      Unnoticed (colliding 75) d d' := by
  have hcfg : (colliding 75).cfg = sysHashmapConfig _ 75 := rfl
  obtain ⟨d,outs,hserve,hlater⟩ :=
    failed_insert_unnoticed hcfg (by decide) (by decide) crowded (by decide +kernel)
  obtain ⟨rfl,rfl⟩ := Prod.mk.inj (Option.some.inj hserve)
  exact ⟨_,_,_,rfl,rfl,hlater 2 20 ⟨true,false⟩ _ none (by decide +kernel) rfl⟩

/-- With its bucket array refused, the failed insertion counts the one entry twice. -/
theorem refused_buckets_counted_twice :
    ∃ d d' outs, serve? (attempt (colliding 75)) empty crowded = some (d,outs) ∧
      attempt (colliding 75) d ⟨.insert 2 20,⟨false,true⟩⟩ = some (d',.inserted (-ENOMEM) none) ∧
      d.size = 1 ∧ d'.size = 2 ∧ d'.buckets.flatten = d.buckets.flatten :=
  ⟨_,_,_,rfl,rfl,rfl,rfl,rfl⟩

end ArmFirmware.Zephyr.Hashmap.SeparateChaining
