import ArmFirmware.Library.Trace

/-! The offsets of the file descriptor table (`lib/os/fdtable.c`), for calls one after the other. -/
namespace ArmFirmware.Zephyr.FdOffsets
open Library Function FdOffsets

def IFMT : BitVec 32 := 0o170000
def IFDIR : BitVec 32 := 0o040000
def IFBLK : BitVec 32 := 0o060000
def IFSHM : BitVec 32 := 0o070000
def IFREG : BitVec 32 := 0o100000

/-- The fields of `struct fd_entry` without the lock and what waits for it. -/
structure Entry (ο : Type*) where
  obj : Option ο
  refcount : ℕ
  offset : ℕ
  mode : BitVec 32
  deriving DecidableEq

abbrev Table (ο : Type*) := ℕ → Entry ο

/-- The calls, with what the method of the object returns. -/
inductive Action (ο : Type*)
  | alloc (obj : ο) (mode : BitVec 32)
  | read (fd : ℕ) (res : ℤ)
  | write (fd : ℕ) (res : ℤ)
  | lseek (fd : ℕ) (res : ℤ)
  | close (fd : ℕ)
  deriving DecidableEq

inductive Reply (ο : Type*)
  | fd (fd : ℕ)
  | called (obj : Option ο) (offset : ℕ)
  | closed
  | ENFILE
  | EBADF
  deriving DecidableEq

section Model
variable {ο : Type*} (W openMax : ℕ) (s : Table ο)

def findFdEntry : Option ℕ := (List.range openMax).find? fun fd => (s fd).refcount = 0

def checkFd (fd : ℕ) : Prop := fd < openMax ∧ (s fd).refcount ≠ 0

instance (fd : ℕ) : Decidable (checkFd openMax s fd) := inferInstanceAs (Decidable (_ ∧ _))

/-- The types whose offset is kept. -/
def keepsOffset (mode : BitVec 32) : Prop := mode &&& IFMT ∈ [IFDIR,IFBLK,IFSHM,IFREG]

instance (mode : BitVec 32) : Decidable (keepsOffset mode) := inferInstanceAs (Decidable (_ ∈ _))

/-- `zvfs_read`, `zvfs_write` and `zvfs_lseek` call a method with the offset, and then change the offset. -/
def callMethod (fd : ℕ) (move : ℕ → ℕ) : Table ο × Reply ο :=
  if checkFd openMax s fd then
    let e := s fd
    (update s fd { e with offset := if keepsOffset e.mode then move e.offset else e.offset },.called e.obj e.offset)
  else (s,.EBADF)

/-- `offset += res`, for a `size_t` of `W` bits. -/
def transferred (res : ℤ) (offset : ℕ) : ℕ := if res > 0 then ((offset+res)%2^W).toNat else offset

def sought (res : ℤ) (offset : ℕ) : ℕ := if res ≥ 0 then (res%2^W).toNat else offset

/-- `zvfs_reserve_fd` and `zvfs_finalize_typed_fd`. -/
def allocTypedFd (obj : ο) (mode : BitVec 32) : Table ο × Reply ο :=
  match findFdEntry openMax s with
  | none => (s,.ENFILE)
  | some fd => (update s fd { s fd with obj := some obj, refcount := (s fd).refcount+1, mode },.fd fd)

/-- `zvfs_close` with `z_fd_unref`. -/
def zvfsClose (fd : ℕ) : Table ο × Reply ο :=
  if checkFd openMax s fd then
    let e := s fd
    (update s fd { e with refcount := e.refcount-1, obj := if e.refcount = 1 then none else e.obj },.closed)
  else (s,.EBADF)

def step : Action ο → Table ο × Reply ο
  | .alloc obj mode => allocTypedFd openMax s obj mode
  | .read fd res | .write fd res => callMethod openMax s fd (transferred W res)
  | .lseek fd res => callMethod openMax s fd (sought W res)
  | .close fd => zvfsClose openMax s fd

/-- The table at first; descriptors that are open have no type. -/
def init (objs : ℕ → Option ο) : Table ο := fun fd => ⟨objs fd,if (objs fd).isSome then 1 else 0,0,0⟩

/-- The position of each descriptor, by the operations on it since it was allocated. -/
def positions (pos : ℕ → ℕ) : Action ο → Reply ο → ℕ → ℕ
  | .alloc .., .fd fd => update pos fd 0
  | .read fd res, .called .. | .write fd res, .called .. => update pos fd (transferred W res (pos fd))
  | .lseek fd res, .called .. => update pos fd (sought W res (pos fd))
  | _, _ => pos

def Seekable (mode : BitVec 32) : Prop := mode &&& IFMT = IFREG ∨ mode &&& IFMT = IFBLK

/-- The method of a regular file or block object gets the position of the descriptor. -/
def PassesPosition (x : Table ο × (ℕ → ℕ)) : Action ο → Reply ο → Prop
  | .read fd _, .called _ offset | .write fd _, .called _ offset => Seekable (x.1 fd).mode → offset = x.2 fd
  | _, _ => True

/-- A regular file or block object gets an entry whose offset is 0. -/
def Careful : Action ο → Prop
  | .alloc _ mode => Seekable mode → ∀ fd ∈ findFdEntry openMax s, (s fd).offset = 0
  | _ => True

instance : ∀ a, Decidable (Careful openMax s a)
  | .alloc .. => inferInstanceAs (Decidable (_ ∨ _ → ∀ _ ∈ _, _))
  | .read .. | .write .. | .lseek .. | .close .. => isTrue trivial

/-- The calls with the positions beside them. -/
def positioning : Table ο × (ℕ → ℕ) → Action ο → Option ((Table ο × (ℕ → ℕ)) × Reply ο) :=
  recording (fun s a => some (step W openMax s a)) fun pos _ _ => positions W pos

end Model

section Runs
variable {ο : Type*} {W openMax : ℕ} {s : Table ο} {pos : ℕ → ℕ} {fd : ℕ}

/-- Open seekable files have the right offset. -/
def Agrees (s : Table ο) (pos : ℕ → ℕ) : Prop :=
  ∀ fd, (s fd).refcount ≠ 0 → Seekable (s fd).mode → (s fd).offset = pos fd

namespace Agrees
variable (h : Agrees s pos)
include h

/-- One entry changes, with the position of its descriptor. -/
lemma update {e : Entry ο} {p : ℕ} (he : Seekable e.mode → e.offset = p) :
    Agrees (update s fd e) (update pos fd p) := by
  intro fd' href hmode
  by_cases hfd : fd' = fd
  · subst hfd
    simp only [update_self] at *
    exact he hmode
  · simp only [update_of_ne hfd] at *
    exact h fd' href hmode

lemma callMethod (openMax fd : ℕ) (move : ℕ → ℕ) :
    callMethod openMax s fd move = (s,.EBADF) ∨ ∃ s', (Seekable (s fd).mode → (s fd).offset = pos fd) ∧
      callMethod openMax s fd move = (s',.called (s fd).obj (s fd).offset) ∧
      Agrees s' (Function.update pos fd (move (pos fd))) := by
  unfold FdOffsets.callMethod
  split_ifs with hcheck
  · have hpos := h fd hcheck.2
    refine .inr ⟨_,hpos,rfl,h.update fun hmode => ?_⟩
    have hkeeps : keepsOffset (s fd).mode := by rcases hmode with hmode | hmode <;> simp [keepsOffset,hmode]
    simp only [if_pos hkeeps,hpos hmode]
  · exact .inl rfl

/-- Every call passes the position of its file, and the offsets stay right. -/
lemma step {a : Action ο} (hcare : Careful openMax s a) :
    Agrees (step W openMax s a).1 (positions W pos a (step W openMax s a).2) ∧
      PassesPosition (s,pos) a (step W openMax s a).2 := by
  cases a with
  | alloc obj mode =>
    simp only [FdOffsets.step,allocTypedFd]
    cases hfind : findFdEntry openMax s with
    | none => exact ⟨h,trivial⟩
    | some fd => exact ⟨h.update fun hmode => hcare hmode fd hfind,trivial⟩
  | read fd res | write fd res =>
    rcases h.callMethod openMax fd (transferred W res) with heq | ⟨s',hpos,heq,hs'⟩
    · simp only [FdOffsets.step,heq]
      exact ⟨h,trivial⟩
    · simp only [FdOffsets.step,heq]
      exact ⟨hs',hpos⟩
  | lseek fd res =>
    rcases h.callMethod openMax fd (sought W res) with heq | ⟨s',hpos,heq,hs'⟩
    · simp only [FdOffsets.step,heq]
      exact ⟨h,trivial⟩
    · simp only [FdOffsets.step,heq]
      exact ⟨hs',trivial⟩
  | close fd =>
    simp only [FdOffsets.step,zvfsClose]
    by_cases hcheck : checkFd openMax s fd
    · rw [if_pos hcheck]
      refine ⟨?_,trivial⟩
      have hsame : positions W pos (.close fd : Action ο) .closed = Function.update pos fd (pos fd) :=
        (update_eq_self ..).symm
      rw [hsame]
      exact h.update (h fd hcheck.2)
    · rw [if_neg hcheck]
      exact ⟨h,trivial⟩

end Agrees
end Runs

/-- If entries for regular files and block objects are taken with the offset 0, every read and write
of such an object gets the position that the operations on its descriptor have led to. -/
theorem runs_pass_positions {ο : Type*} (W openMax : ℕ) (objs : ℕ → Option ο) (as : List (Action ο))
    (hrun : Along (Careful openMax) (fun s a => some (step W openMax s a)) (init objs) as) :
    ∃ x os, serve? (positioning W openMax) (init objs,fun _ => 0) as = some (x,os) ∧
      Trace (fun x a o _ => PassesPosition x a o) (init objs,fun _ => 0) as os x := by
  refine Trace.of_recording (I := Agrees) (fun s pos a s' o hgood hcare hs => ?_) (fun _ _ _ => rfl)
    (hrun.mono fun s a ha => ⟨rfl,ha⟩)
  obtain ⟨rfl,rfl⟩ := Prod.mk.inj (Option.some.inj hs).symm
  exact hgood.step hcare

/-- A file is read, a device takes the next entry, and the file is sought in and written to. -/
def readAndSought : List (Action Unit) :=
  [.alloc () IFREG,.read 0 5,.alloc () 0,.lseek 0 2,.write 0 7,.read 1 9,.close 1,.alloc () IFBLK,.read 1 4,
    .read 1 4]

theorem runs_pass_positions_readAndSought :
    ∃ x os, serve? (positioning 32 2) (init fun _ => none,fun _ => 0) readAndSought = some (x,os) ∧
      Trace (fun x a o _ => PassesPosition x a o) (init fun _ => none,fun _ => 0) readAndSought os x :=
  runs_pass_positions 32 2 _ _ (by decide +kernel)

/-- The offset of a file that has been closed is that of the next one. -/
theorem offset_outlives_descriptor :
    ∃ x os, serve? (positioning 32 1) (init fun _ => none,fun _ => 0)
        [.alloc false IFREG,.read 0 5,.close 0,.alloc true IFREG,.read 0 5] = some (x,os) ∧
      os = [.fd 0,.called (some false) 0,.closed,.fd 0,.called (some true) 5] ∧ x.2 0 = 5 :=
  ⟨_,_,rfl,rfl,rfl⟩

end ArmFirmware.Zephyr.FdOffsets
