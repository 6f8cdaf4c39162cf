import Mathlib

/-! The uploads of `tcptransferthead.c`. -/
namespace ArmFirmware.Rsk.TcpTransfer
open List

/-- A result of `CSocket_Recv`: the bytes received, none of them when the peer has closed; or an error. -/
abbrev Recv := Option (List UInt8)

/-- How the receiving loop is left. -/
inductive Exit
  | sizeReached
  | closed
  | failed
  deriving DecidableEq

/-- The loop `while (file_size > 0)` with the bytes written to the file so far. It has no result
while it waits. -/
def receive (fileSize : ℤ) (fs : List UInt8) : List Recv → Option (Exit × List UInt8)
  | [] => if 0 < fileSize then none else some (.sizeReached,fs)
  | r::rs =>
    if 0 < fileSize then
      match r with
      | none => some (.failed,fs)
      | some [] => some (.closed,fs)
      | some (b::buf) => receive (fileSize-(b::buf).length) (fs++b::buf) rs
    else some (.sizeReached,fs)

/-- What a request ends with: the answer, the file that is stored, and whether it was registered as
an audio file or handed to `webs -U`. -/
structure Outcome where
  answer : String
  file : Option (List UInt8)
  accepted : Bool
  deriving DecidableEq

def sendTrue : String := "01 E1"

def sendFast (errCode : String) : String := "01 "++errCode

/-- `TcpTransferThread_FileUpload`, where `opened` says whether the file could be opened. -/
def fileUpload (opened : Bool) (fileSize : ℤ) (rs : List Recv) : Option Outcome :=
  if opened then (receive fileSize [] rs).map fun
    | (.failed,_) => ⟨sendFast "F62",none,false⟩
    | (_,fs) => ⟨sendTrue,some fs,true⟩
  else some ⟨sendFast "F5",none,false⟩

def fileUpgrade (opened : Bool) (fileSize : ℤ) (rs : List Recv) : Option Outcome :=
  if opened then (receive fileSize [] rs).map fun
    | (.sizeReached,fs) => ⟨sendTrue,some fs,true⟩
    | (_,fs) => ⟨sendFast "F66",some fs,false⟩
  else some ⟨sendFast "F5",none,false⟩

/-- The bytes that the peer has sent. -/
def received (rs : List Recv) : List UInt8 := rs.flatMap (·.getD [])

/-- Success is answered for the announced number of bytes received, any other answer leaves the file aside, and
there is none only while data are missing. -/
def Sound (fileSize : ℤ) (rs : List Recv) : Option Outcome → Prop
  | none => (received rs).length < fileSize ∧ ∀ r ∈ rs, r ≠ none ∧ r ≠ some []
  | some o => (o.answer = sendTrue → ∃ fs, o.file = some fs ∧ (fs.length : ℤ) = fileSize ∧ fs <+: received rs) ∧
    (o.answer ≠ sendTrue → o.accepted = false)

/-- Of the results that the loop receives none reaches beyond the announced size, and the peer closes only where
`closing` allows it. -/
def Fits (closing : Bool) (fileSize : ℤ) : List Recv → Prop
  | [] | none::_ => 0 ≤ fileSize
  | some []::_ => 0 ≤ fileSize ∧ (0 < fileSize → closing)
  | some (b::buf)::rs => 0 ≤ fileSize ∧ (0 < fileSize → Fits closing (fileSize-(b::buf).length) rs)

section Receive
variable {fileSize : ℤ} {fs : List UInt8} {rs : List Recv}

/-- What is written when the loop is left, and that the results received fit exactly if the exit is
allowed and, where it is the regular one, the announced size is met. -/
lemma receive_spec (closing : Bool) {e : Exit} {file : List UInt8} (h : receive fileSize fs rs = some (e,file)) :
    ∃ new, file = fs++new ∧ new <+: received rs ∧ (e = .closed → (new.length : ℤ) < fileSize) ∧
      (Fits closing fileSize rs ↔
        (e = .closed → closing) ∧ (e = .sizeReached → (new.length : ℤ) = fileSize)) := by
  fun_induction receive fileSize fs rs with
  | case1 => cases h
  | case2 fileSize fs hsize =>
    cases h
    refine ⟨[],by simp, nil_prefix,nofun,?_⟩
    simp [Fits]
    omega
  | case3 fileSize fs rs hsize =>
    cases h
    exact ⟨[],by simp, nil_prefix,nofun,by simp [Fits,hsize.le]⟩
  | case4 fileSize fs rs hsize =>
    cases h
    exact ⟨[],by simp, nil_prefix,fun _ => hsize,by simp [Fits,hsize,hsize.le]⟩
  | case5 fileSize fs rs hsize b buf ih =>
    obtain ⟨new,rfl,hnew,hclosed,hiff⟩ := ih h
    refine ⟨b::buf++new,by simp,(prefix_append_right_inj _).mpr hnew,fun he => ?_,?_⟩
    · have := hclosed he
      rw [length_append]
      omega
    · have hlen : ((b::buf++new).length : ℤ) = fileSize ↔ (new.length : ℤ) = fileSize-(b::buf).length := by
        rw [length_append]
        omega
      simp only [Fits,hsize,hsize.le,true_and,forall_const,hiff,hlen]
  | case6 fileSize fs r rs hsize =>
    cases h
    refine ⟨[],by simp, nil_prefix,nofun,?_⟩
    match r with
    | none | some [] | some (_::_) =>
      simp [Fits,hsize]
      omega

lemma receive_waits (closing : Bool) (h : receive fileSize fs rs = none) : Fits closing fileSize rs ∧
    (received rs).length < fileSize ∧ ∀ r ∈ rs, r ≠ none ∧ r ≠ some [] := by
  fun_induction receive fileSize fs rs with
  | case1 fileSize fs hsize => exact ⟨hsize.le,by simpa [received],by simp⟩
  | case5 fileSize fs rs hsize b buf ih =>
    obtain ⟨hfits,hlen,hall⟩ := ih h
    refine ⟨⟨hsize.le,fun _ => hfits⟩,?_,forall_mem_cons.mpr ⟨by simp,hall⟩⟩
    simp only [received,flatMap_cons,length_append,Option.getD_some] at hlen ⊢
    omega
  | _ => cases h

/-- A file answered with success is sound exactly if it has the announced size. -/
lemma sound_stored (hfs : fs <+: received rs) :
    Sound fileSize rs (some ⟨sendTrue,some fs,true⟩) ↔ (fs.length : ℤ) = fileSize := by
  constructor
  · rintro ⟨hstored,-⟩
    obtain ⟨file,hfile,hlen,-⟩ := hstored rfl
    cases hfile
    exact hlen
  · exact fun hlen => ⟨fun _ => ⟨fs,rfl,hlen,hfs⟩,fun ha => absurd rfl ha⟩

lemma sound_refused {code : String} (hcode : code ∈ ["F5","F62","F66"]) (file : Option (List UInt8)) :
    Sound fileSize rs (some ⟨sendFast code,file,false⟩) := by
  have hanswer : ∀ code ∈ ["F5","F62","F66"], sendFast code ≠ sendTrue := by decide
  exact ⟨fun ha => absurd ha (hanswer code hcode),fun _ => rfl⟩

lemma fileUpload_sound_iff : Sound fileSize rs (fileUpload true fileSize rs) ↔ Fits false fileSize rs := by
  unfold fileUpload
  rw [if_pos rfl]
  match h : receive fileSize [] rs with
  | none =>
    obtain ⟨hfits,hwaits⟩ := receive_waits false h
    exact iff_of_true hwaits hfits
  | some (e,file) =>
    obtain ⟨new,rfl,hnew,hclosed,hiff⟩ := receive_spec false h
    rw [hiff]
    cases e with
    | failed => simpa using sound_refused (by simp) _
    | closed => simpa using (sound_stored hnew).not.mpr (hclosed rfl).ne
    | sizeReached => simpa using sound_stored hnew

lemma fileUpgrade_sound_iff : Sound fileSize rs (fileUpgrade true fileSize rs) ↔ Fits true fileSize rs := by
  unfold fileUpgrade
  rw [if_pos rfl]
  match h : receive fileSize [] rs with
  | none =>
    obtain ⟨hfits,hwaits⟩ := receive_waits true h
    exact iff_of_true hwaits hfits
  | some (e,file) =>
    obtain ⟨new,rfl,hnew,-,hiff⟩ := receive_spec true h
    rw [hiff]
    cases e with
    | failed | closed => simpa using sound_refused (by simp) _
    | sizeReached => simpa using sound_stored hnew

end Receive

/-- Both requests answer success only for a file of the announced bytes, and accept no other,
exactly when the file cannot be opened or the peer sends no more than it has announced, and does not
close a file upload before. -/
theorem transfers_store_announced (opened : Bool) (fileSize : ℤ) (rs : List Recv) :
    (Sound fileSize rs (fileUpload opened fileSize rs) ↔ (opened = true → Fits false fileSize rs)) ∧
      (Sound fileSize rs (fileUpgrade opened fileSize rs) ↔ (opened = true → Fits true fileSize rs)) := by
  cases opened with
  | false => exact ⟨iff_of_true (sound_refused (by simp) _) nofun,iff_of_true (sound_refused (by simp) _) nofun⟩
  | true => simp [fileUpload_sound_iff,fileUpgrade_sound_iff]

theorem transfers_store_announced_split :
    fileUpload true 3 [some [1],some [2,3]] = some ⟨"01 E1",some [1,2,3],true⟩ ∧
    Sound 3 [some [1],some [2,3]] (fileUpload true 3 [some [1],some [2,3]]) :=
  ⟨by decide,(transfers_store_announced true 3 _).1.mpr (by simp [Fits])⟩

/-- A connection closed after one of three bytes, and a surplus byte behind three: both are answered
with success. -/
theorem short_and_long_files_accepted : fileUpload true 3 [some [1],some []] = some ⟨"01 E1",some [1],true⟩ ∧
    fileUpgrade true 3 [some [1,2,3,4]] = some ⟨"01 E1",some [1,2,3,4],true⟩ := by
  decide

end ArmFirmware.Rsk.TcpTransfer
