import ArmFirmware.Library.Trace

/-! The base64 decoders of `Base64.cpp`. -/
namespace ArmFirmware.Rsk.Base64
open Library List

abbrev Byte := BitVec 8

/-- The digits in their order, `base64_chars`. It stands for `m_sBase64Alphabet` too, which is set elsewhere. -/
def alphabet : List Byte :=
  ("ABCDEFGHIJKLMNOPQRSTUVWXYZabcdefghijklmnopqrstuvwxyz0123456789+/".toList).map (BitVec.ofNat 8 ·.toNat)

section DecodeStr

/-- The members of `CBase64` that `DecodeStr` uses; `w` is the width of `ULONG`. -/
structure Members (w : ℕ) where
  lBitStorage : BitVec w
  nBitsRemaining : ℕ

/-- The loop of `write_bits`. -/
def writeBytes {w : ℕ} (storage : BitVec w) (remaining : ℕ) : List Byte × ℕ :=
  if 7 < remaining then
    let rest := writeBytes storage (remaining-8)
    ((storage >>> (remaining-8)).setWidth 8::rest.1,rest.2)
  else ([],remaining)

def writeBits {w : ℕ} (m : Members w) (nBits : BitVec 6) : Members w × List Byte :=
  let storage := (m.lBitStorage <<< 6) ||| nBits.setWidth w
  let r := writeBytes storage (m.nBitsRemaining+6)
  (⟨storage,r.2⟩,r.1)

/-- An entry of the table `nDecode` at `c & 0x7F`: a digit, the padding, or neither. -/
def nDecode (c : Byte) : Option (Option (BitVec 6)) :=
  let c := c &&& 0x7f
  if c = 0x3d then some none
  else if c ∈ alphabet then some (some (BitVec.ofNat 6 (alphabet.idxOf c)))
  else none

/-- The loop of `DecodeStr` with what it has written, and whether it met a character that is neither. -/
def decodeLoop {w : ℕ} (m : Members w) : List Byte → Members w × List Byte × Bool
  | [] => (m,[],true)
  | c::input =>
    match nDecode c with
    | none => (m,[],false)
    | some none => decodeLoop m input
    | some (some nDigit) =>
      let (m,out) := writeBits m nDigit
      let (m,rest,ok) := decodeLoop m input
      (m,out++rest,ok)

/-- `DecodeStr`: its result and, unless the input is empty, the output behind zeros up to the length
of the input. -/
def decodeStr {w : ℕ} (m : Members w) (input : List Byte) : Members w × ℕ × Option (List Byte) :=
  if input = [] then (m,0,none)
  else
    let (m,out,ok) := decodeLoop m input
    (m,if ok then input.length else 0,some (out.rightpad (input.length+1) 0))

/-- The digits that `DecodeStr` takes from its input. -/
def digits : List Byte → List (BitVec 6)
  | [] => []
  | c::input =>
    match nDecode c with
    | none => []
    | some none => digits input
    | some (some nDigit) => nDigit::digits input

section Bits
variable {w : ℕ} {m m' : Members w}

/-- Two objects that hold the same leftover bits. -/
def Members.Alike (m m' : Members w) : Prop :=
  m.nBitsRemaining = m'.nBitsRemaining ∧ ∀ k < m.nBitsRemaining, m.lBitStorage.getLsbD k = m'.lBitStorage.getLsbD k

lemma writeBytes_congr {s s' : BitVec w} {r : ℕ} (h : ∀ k < r, s.getLsbD k = s'.getLsbD k) :
    writeBytes s r = writeBytes s' r := by
  fun_induction writeBytes s r with
  | case1 r hr rest ih =>
    rw [writeBytes,if_pos hr,← ih fun k hk => h k (by omega)]
    congr 2
    ext k hk
    simpa using h _ (by omega)
  | case2 r hr => rw [writeBytes,if_neg hr]

lemma writeBytes_remaining (s : BitVec w) (r : ℕ) : (writeBytes s r).2 = r % 8 := by
  fun_induction writeBytes s r with
  | case1 r hr rest ih =>
    rw [ih]
    omega
  | case2 r hr => exact (Nat.mod_eq_of_lt (by omega)).symm

lemma writeBits_remaining (d : BitVec 6) : (writeBits m d).1.nBitsRemaining = (m.nBitsRemaining+6) % 8 :=
  writeBytes_remaining _ _

lemma Members.Alike.writeBits (h : m.Alike m') (d : BitVec 6) :
    (writeBits m d).1.Alike (writeBits m' d).1 ∧ (writeBits m d).2 = (writeBits m' d).2 := by
  have hbits : ∀ k < m.nBitsRemaining+6, ((m.lBitStorage <<< 6) ||| d.setWidth w).getLsbD k =
      ((m'.lBitStorage <<< 6) ||| d.setWidth w).getLsbD k := by
    intro k hk
    simp only [BitVec.getLsbD_or,BitVec.getLsbD_shiftLeft]
    by_cases hlow : k < 6
    · simp [hlow]
    · rw [h.2 (k-6) (by omega)]
  have hbytes := writeBytes_congr hbits
  refine ⟨⟨?_,fun k hk => hbits k ?_⟩,?_⟩
  · rw [writeBits_remaining,writeBits_remaining,h.1]
  · rw [writeBits_remaining] at hk
    omega
  · simp only [Base64.writeBits,← h.1,hbytes]

lemma Members.Alike.decodeLoop (h : m.Alike m') (input : List Byte) :
    (decodeLoop m input).2 = (decodeLoop m' input).2 := by
  induction input generalizing m m' with
  | nil => rfl
  | cons c input ih =>
    rw [Base64.decodeLoop,Base64.decodeLoop]
    match nDecode c with
    | none => rfl
    | some none => exact ih h
    | some (some d) =>
      obtain ⟨hm,hout⟩ := h.writeBits d
      simp only [hout,ih hm]

lemma decodeLoop_remaining (hm : m.nBitsRemaining < 8) (input : List Byte) :
    (decodeLoop m input).1.nBitsRemaining = (m.nBitsRemaining+6*(digits input).length) % 8 := by
  induction input generalizing m with
  | nil => exact (Nat.mod_eq_of_lt hm).symm
  | cons c input ih =>
    rw [decodeLoop,digits]
    match nDecode c with
    | none => exact (Nat.mod_eq_of_lt hm).symm
    | some none => exact ih hm
    | some (some d) =>
      have hr := writeBits_remaining (m := m) d
      rw [ih (by omega),hr,length_cons]
      omega

lemma decodeStr_eq (h : m.Alike m') (input : List Byte) : (decodeStr m input).2 = (decodeStr m' input).2 := by
  unfold decodeStr
  split_ifs
  · rfl
  · simp only [h.decodeLoop input]

lemma decodeStr_remaining (hm : m.nBitsRemaining = 0) {input : List Byte} (h : 4 ∣ (digits input).length) :
    (decodeStr m input).1.nBitsRemaining = 0 := by
  unfold decodeStr
  split_ifs
  · exact hm
  · rw [decodeLoop_remaining (by omega),hm]
    omega

/-- Where every call but the last one takes digits by the four, each call of an object without
leftover bits gives what any other such object, one that has decoded nothing yet, gives. -/
theorem calls_like_fresh (hm : m.nBitsRemaining = 0) (hm' : m'.nBitsRemaining = 0) (inputs : List (List Byte))
    (h : ∀ input ∈ inputs.dropLast, 4 ∣ (digits input).length) :
    (serve decodeStr m inputs).2 = inputs.map fun input => (decodeStr m' input).2 := by
  induction inputs generalizing m with
  | nil => rfl
  | cons input inputs ih =>
    have hfirst : (decodeStr m input).2 = (decodeStr m' input).2 :=
      decodeStr_eq ⟨hm.trans hm'.symm,fun k hk => by omega⟩ input
    cases inputs with
    | nil => simp [serve,hfirst]
    | cons next inputs =>
      rw [dropLast_cons_cons,forall_mem_cons] at h
      rw [serve,map_cons,ih (decodeStr_remaining hm h.1) h.2,hfirst]

end Bits

theorem calls_like_fresh_thrice :
    (serve decodeStr (⟨0x414243,0⟩ : Members 32) [[0x51,0x55,0x4a,0x44],[0x2a],[0x51,0x51,0x3d,0x3d]]).2 =
      [[0x51,0x55,0x4a,0x44],[0x2a],[0x51,0x51,0x3d,0x3d]].map fun input =>
        (decodeStr (⟨0,0⟩ : Members 32) input).2 :=
  calls_like_fresh rfl rfl _ (by decide)

/-- The padded `QQ==` leaves four bits behind, which come before those of the next text. -/
theorem padding_leaves_bits :
    (serve decodeStr (⟨0,0⟩ : Members 32) [[0x51,0x51,0x3d,0x3d],[0x51,0x51,0x3d,0x3d]]).2 =
      [(4,some [0x41,0,0,0,0]),(4,some [0x04,0x10,0,0,0])] := by
  decide +kernel

end DecodeStr

section DecodeBody

/-- `AsciiTo6Bits` as a `char`, which is unsigned on the ARM targets: no check for a negative value succeeds. -/
def asciiTo6Bits (c : Byte) : Byte :=
  if 0x41 ≤ c ∧ c ≤ 0x5a then c-0x41
  else if 0x61 ≤ c ∧ c ≤ 0x7a then c-0x61+26
  else if 0x30 ≤ c ∧ c ≤ 0x39 then c-0x30+52
  else if c = 0x2b then 62
  else if c = 0x2f then 63
  else -1

/-- The bytes of `Decode`, which stores a zero behind them. -/
def decode (p : List Byte) : List Byte :=
  let six (i : ℕ) := asciiTo6Bits (p.getD i 0)
  let first := (six 0 <<< 2) ||| (six 1 >>> 4)
  let second := (six 1 <<< 4) ||| (six 2 >>> 2)
  if p.getD 2 0 = 0x3d then [first]
  else if p.getD 3 0 = 0x3d then [first,second]
  else [first,second,(six 2 <<< 6) ||| six 3]

def decodeGroups : ℕ → List Byte → List Byte
  | 0,_ => []
  | n+1,p => decode (p.take 4)++decodeGroups n (p.drop 4)

def crlf : List Byte := [0x0d,0x0a]

/-- `CString::Find` of a line end. -/
def find : List Byte → Option ℕ
  | [] => none
  | c::s => if crlf <+: c::s then some 0 else (find s).map (·+1)

/-- `strlen` as an `int` -/
def strlen (src : List Byte) : ℤ := (src.length : ℤ).bmod (2^32)

/-- `DecodeString`, with no result where it returns `FALSE`. -/
def decodeString (src : List Byte) : Option (List Byte) :=
  let nLength := strlen src-if (find src).isSome then 2 else 0
  if nLength.tmod 4 ≠ 0 then none else some (decodeGroups (nLength/4).toNat src)

lemma find_bound {s : List Byte} {n : ℕ} (h : find s = some n) : n+2 ≤ s.length := by
  fun_induction find s generalizing n with
  | case1 => cases h
  | case2 c s hs =>
    cases h
    exact hs.length_le
  | case3 c s hs ih =>
    obtain ⟨k,hk,rfl⟩ := Option.map_eq_some_iff.mp h
    have := ih hk
    rw [length_cons]
    omega

/-- `DecodeBody`: what is written to the memory file, and whether it returns `TRUE`. It has no
result where one of the buffers `szBuf[77]` and `szDecoded[57]` is written beyond its end. -/
def decodeBody (s : List Byte) : Option (List Byte × Bool) :=
  match _h : find s with
  | none => some ([],true)
  | some nFind =>
    if nFind = 0 then some ([],true)
    else if 76 < nFind then none
    else (decodeString (s.take nFind)).elim (some ([],false)) fun line =>
      if 57 ≤ line.length then none
      else (decodeBody (s.drop (nFind+2))).map fun r => (line++r.1,r.2)
termination_by s.length
decreasing_by
  have := find_bound _h
  rw [length_drop]
  omega

/-- The character of a digit. -/
def char (d : BitVec 6) : Byte := alphabet.getD d.toNat 0

/-- A line with its padding. -/
def text : List (BitVec 6) → List Byte
  | a::b::c::d::l => char a::char b::char c::char d::text l
  | [a,b,c] => [char a,char b,char c,0x3d]
  | [a,b] => [char a,char b,0x3d,0x3d]
  | _ => []

/-- The bytes that digits stand for. -/
def decoding : List (BitVec 6) → List Byte
  | a::b::c::d::l => (a++b).extractLsb' 4 8::(b++c).extractLsb' 2 8::(c++d).setWidth 8::decoding l
  | [a,b,c] => [(a++b).extractLsb' 4 8,(b++c).extractLsb' 2 8]
  | [a,b] => [(a++b).extractLsb' 4 8]
  | _ => []

lemma char_spec : ∀ d : BitVec 6, asciiTo6Bits (char d) = d.setWidth 8 ∧ char d ≠ 0x3d#8 ∧ char d ≠ 0x0d#8 := by
  decide +kernel

lemma bytes_spec (a b : BitVec 6) : (a.setWidth 8 <<< 2) ||| (b.setWidth 8 >>> 4) = (a++b).extractLsb' 4 8 ∧
      (a.setWidth 8 <<< 4) ||| (b.setWidth 8 >>> 2) = (a++b).extractLsb' 2 8 ∧
      (a.setWidth 8 <<< 6) ||| b.setWidth 8 = (a++b).setWidth 8 := by
  revert a b
  decide +kernel

lemma find_append {l : List Byte} (hl : ∀ c ∈ l, c ≠ 0x0d) (s : List Byte) :
    find (l++s) = (find s).map (·+l.length) := by
  induction l with
  | nil => simp
  | cons c l ih =>
    obtain ⟨hc,hl⟩ := forall_mem_cons.mp hl
    have hcrlf : ¬crlf <+: c::(l++s) := fun h => hc (cons_prefix_cons.mp h).1.symm
    rw [cons_append,find,if_neg hcrlf,ih hl,Option.map_map]
    rfl

lemma text_spec (l : List (BitVec 6)) : 4 ∣ (text l).length ∧ ∀ c ∈ text l, c ≠ 0x0d := by
  have hchar := fun d => (char_spec d).2.2
  fun_induction text l with
  | case1 a b c d l ih =>
    refine ⟨by simpa using ih.1,?_⟩
    simpa [hchar] using ih.2
  | case2 | case3 | case4 => simp [hchar]

lemma decodeGroups_text (l : List (BitVec 6)) : decodeGroups ((text l).length/4) (text l) = decoding l := by
  fun_induction text l with
  | case1 a b c d l ih =>
    have hlen : (char a::char b::char c::char d::text l).length/4 = (text l).length/4+1 := by
      simp only [length_cons]
      omega
    rw [hlen,decodeGroups,decoding,drop_succ_cons,drop_succ_cons,drop_succ_cons,drop_succ_cons,drop_zero,ih]
    simp [decode,char_spec,bytes_spec]
  | case2 | case3 => simp [decodeGroups,decode,decoding,char_spec,bytes_spec]
  | case4 l => simp [decodeGroups,decoding]

lemma decodeString_text {l : List (BitVec 6)} (hl : (text l).length < 2^31) :
    decodeString (text l) = some (decoding l) := by
  obtain ⟨hdvd,hcr⟩ := text_spec l
  have hfind : find (text l) = none := by simpa [find] using find_append hcr []
  have hint : strlen (text l) = (text l).length := Int.bmod_eq_of_le (by omega) (by omega)
  have hdiv : (((text l).length : ℤ)/4).toNat = (text l).length/4 := by omega
  have hmod : ((text l).length : ℤ).tmod 4 = 0 := Int.tmod_eq_zero_of_dvd (by exact_mod_cast hdvd)
  simp only [decodeString,hfind,hint,Option.isSome_none,Bool.false_eq_true,if_false,sub_zero,hmod,hdiv,
    decodeGroups_text,ne_eq,not_true_eq_false]

lemma decoding_eq_nil {l : List (BitVec 6)} : decoding l = [] ↔ text l = [] := by
  fun_cases text l <;> simp [decoding]

/-- A line that is not blank, with its line end. -/
lemma decodeBody_line {l : List (BitVec 6)} (hne : text l ≠ []) (hlen : (text l).length ≤ 76) (s : List Byte) :
    decodeBody (text l++crlf++s) = if 57 ≤ (decoding l).length then none
      else (decodeBody s).map fun r => (decoding l++r.1,r.2) := by
  have hfind : find (text l++crlf++s) = some (text l).length := by
    rw [append_assoc,find_append (text_spec l).2,crlf]
    simp [find,crlf]
  have htake : (text l++crlf++s).take (text l).length = text l := by simp
  have hdrop : (text l++crlf++s).drop ((text l).length+2) = s := by simp [crlf]
  rw [decodeBody]
  split
  · simp_all
  · rename_i nFind h
    cases hfind.symm.trans h
    rw [if_neg (by simpa using hne),if_neg (by omega),htake,hdrop,decodeString_text (by omega),Option.elim_some]

/-- At a line end, or where there is none, the loop stops. -/
lemma decodeBody_stops {s : List Byte} (h : find s = none ∨ find s = some 0) : decodeBody s = some ([],true) := by
  rw [decodeBody]
  split
  · rfl
  · rename_i nFind hfind
    rw [hfind] at h
    simp_all

/-- A text of lines, the last of which has no line end (and is blank where the text ends with one). -/
def body (lines : List (List (BitVec 6))) (last : List (BitVec 6)) : List Byte :=
  (lines.flatMap fun l => text l++crlf)++text last

/-- The bytes of all lines are written exactly when no text stands behind a blank line or without a
line end, and the bytes of each line and a zero behind them fit `szDecoded`. -/
theorem body_decodes_lines (lines : List (List (BitVec 6))) (last : List (BitVec 6))
    (h : ∀ l ∈ lines, (text l).length ≤ 76) :
    decodeBody (body lines last) = some ((lines++[last]).flatMap decoding,true) ↔
      lines.Pairwise (fun l next => text l = [] → text next = []) ∧ (∀ l ∈ lines, (decoding l).length < 57) ∧
        text last = [] := by
  induction lines with
  | nil =>
    have hfind : find (text last) = none := by simpa [find] using find_append (text_spec last).2 []
    rw [body,flatMap_nil,nil_append,decodeBody_stops (.inl hfind)]
    simp [decoding_eq_nil]
  | cons l lines ih =>
    obtain ⟨hlen,h⟩ := forall_mem_cons.mp h
    have hbody : body (l::lines) last = text l++crlf++body lines last := by simp [body]
    rw [hbody,cons_append,flatMap_cons,pairwise_cons,forall_mem_cons]
    by_cases hne : text l = []
    · have hfind : find (text l++crlf++body lines last) = some 0 := by simp [hne,find,crlf]
      have hblank : (∀ next ∈ lines, text next = []) → lines.Pairwise (fun l next => text l = [] → text next = []) ∧
          ∀ l ∈ lines, (decoding l).length < 57 := fun hlines =>
        ⟨pairwise_of_forall_mem_list fun _ _ next hnext _ => hlines next hnext,
          fun l hl => by simp [decoding_eq_nil.mpr (hlines l hl)]⟩
      rw [decodeBody_stops (.inr hfind),decoding_eq_nil.mpr hne]
      simp only [hne,Option.some.injEq,Prod.mk.injEq,and_true,nil_append,eq_comm (a := []),flatMap_eq_nil_iff,
        mem_append,mem_singleton,decoding_eq_nil,or_imp,forall_and,forall_eq,forall_const,length_nil]
      constructor
      · exact fun ⟨hlines,hlast⟩ => ⟨⟨hlines,(hblank hlines).1⟩,⟨by decide,(hblank hlines).2⟩,hlast⟩
      · exact fun ⟨⟨hlines,_⟩,_,hlast⟩ => ⟨hlines,hlast⟩
    · rw [decodeBody_line hne hlen]
      split_ifs with hlong
      · simp [Nat.not_lt.mpr hlong]
      · have hrest : (decodeBody (body lines last)).map (fun r => (decoding l++r.1,r.2)) =
            some (decoding l++(lines++[last]).flatMap decoding,true) ↔
              decodeBody (body lines last) = some ((lines++[last]).flatMap decoding,true) := by
          simp [Option.map_eq_some_iff]
        simp only [hrest,ih h,hne,Nat.not_le.mp hlong,false_imp_iff,implies_true,true_and]

theorem body_decodes_lines_two : decodeBody (body [[16,20,9,3],[16,16],[]] []) =
    some ([[16,20,9,3],[16,16],[],[]].flatMap decoding,true) :=
  (body_decodes_lines _ _ (by decide +kernel)).mpr (by decide +kernel)

/-- Neither the line behind a blank one nor a last line without a line end is decoded. -/
theorem blank_line_ends_body :
    decodeBody (text [16,20,9,3]++crlf++crlf++text [16,20,9,3]++crlf) = some ([0x41,0x42,0x43],true) ∧
      decodeBody (text [16,20,9,3]) = some ([],true) := by
  decide +kernel

end DecodeBody

end ArmFirmware.Rsk.Base64
