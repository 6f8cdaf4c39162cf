import ArmFirmware.Library.Trace

/-! What goes into a system and what comes out of it along a trace. If every step keeps the
account of its own inputs, outputs and contents, every trace does: as a queue, where the order
counts, or as a bag. -/
namespace ArmFirmware.Library
open List
variable {σ ι ω β : Type*}

def contributions (f : ι → ω → List β) (is : List ι) (os : List ω) : List β :=
  (List.zipWith f is os).flatten

@[simp] lemma contributions_nil (f : ι → ω → List β) : contributions f [] [] = [] := rfl

@[simp] lemma contributions_cons (f : ι → ω → List β) (i : ι) (o : ω) (is : List ι) (os : List ω) :
    contributions f (i::is) (o::os) = f i o++contributions f is os := rfl

lemma contributions_filter (f : ι → ω → List β) (p : β → Bool) (is : List ι) (os : List ω) :
    contributions (fun i o => (f i o).filter p) is os = (contributions f is os).filter p := by
  induction is generalizing os with
  | nil => simp [contributions]
  | cons i is ih =>
    cases os with
    | nil => simp [contributions]
    | cons o os => simp [ih]

lemma Trace.contributions_eq {Step : σ → ι → ω → σ → Prop} {s t : σ} {is : List ι} {os : List ω}
    (h : Trace Step s is os t) (g : ω → List β) : contributions (fun _ o => g o) is os = os.flatMap g := by
  induction h with
  | nil s => rfl
  | cons head tail ih => rw [contributions_cons,ih,flatMap_cons]

namespace Trace
variable {Step : σ → ι → ω → σ → Prop} {content : σ → List β} {input output : ι → ω → List β}
  {s t : σ} {is : List ι} {os : List ω}

theorem fifo (hstep : ∀ s i o t, Step s i o t → content s++input i o = output i o++content t)
    (h : Trace Step s is os t) : content s++contributions input is os = contributions output is os++content t := by
  induction h with
  | nil s => simp
  | @cons s t u i o is os head tail ih =>
    rw [contributions_cons,contributions_cons,← append_assoc,hstep _ _ _ _ head,append_assoc,ih,append_assoc]

/-- A record that every step extends. -/
theorem record (hstep : ∀ s i o t, Step s i o t → content s++input i o = content t)
    (h : Trace Step s is os t) : content s++contributions input is os = content t := by
  induction h with
  | nil s => simp
  | cons head tail ih =>
    rw [contributions_cons,← append_assoc,hstep _ _ _ _ head,ih]

theorem conserved (hstep : ∀ s i o t, Step s i o t → (content s++input i o).Perm (output i o++content t))
    (h : Trace Step s is os t) :
    (content s++contributions input is os).Perm (contributions output is os++content t) := by
  induction h with
  | nil s => simp
  | @cons s t u i o is os head tail ih =>
    rw [contributions_cons,contributions_cons,← append_assoc,append_assoc _ _ (content u)]
    calc (content s++input i o++contributions input is os).Perm
          (output i o++content t++contributions input is os) := (hstep _ _ _ _ head).append_right _
      _ = output i o++(content t++contributions input is os) := append_assoc ..
      List.Perm _ (output i o++(contributions output is os++content u)) := ih.append_left _

end Trace
end ArmFirmware.Library
