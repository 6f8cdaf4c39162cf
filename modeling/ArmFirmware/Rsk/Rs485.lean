import ArmFirmware.Library.Trace

/-! The serial port of `rs485.c`. -/
namespace ArmFirmware.Rsk.Rs485
open Library List

/-- What `Rs485_select_read` meets: the bytes at the port (none of them within the time is a
timeout) or an error; and what `getMonitorStatus` says behind it. -/
structure Input where
  bytes : Option (List UInt8)
  monitor : Bool := false

/-- The three calls of `Rs485_select_read` in `Rs485_uart_read`. -/
inductive Place
  | first
  | ignoring
  | receiving
  deriving DecidableEq

structure Call where
  place : Place
  iLen : ℤ
  pcBuf : ℤ → UInt8

def rs485SelectRead (buffer : ℤ → UInt8) (offset length : ℤ) : Option (List UInt8) → ℤ × (ℤ → UInt8)
  | none => (-1,buffer)
  | some bytes =>
    let got := bytes.take length.toNat
    (got.length,fun k => if offset ≤ k ∧ k < offset+got.length then got.getD (k-offset).toNat 0 else buffer k)

/-- The call when the read that it waits for has returned. -/
def Call.read (iBufLen : ℤ) (c : Call) (i : Input) : Call :=
  if c.place = .receiving then
    let (next,pcBuf) := rs485SelectRead c.pcBuf c.iLen (iBufLen-c.iLen) i.bytes
    {c with iLen := c.iLen+next, pcBuf := pcBuf}
  else
    let (iLen,pcBuf) := rs485SelectRead c.pcBuf 0 iBufLen i.bytes
    {c with iLen := iLen, pcBuf := pcBuf}

def Call.lastFive (c : Call) : List UInt8 := (range 5).map fun k : ℕ => c.pcBuf (c.iLen-5+k)

/-- `BB EF` -/
def terminator : List UInt8 := [0x42,0x42,0x20,0x45,0x46]

/-- The head of the receiving loop: the call goes on with another read, or it returns. -/
def Call.receive (c : Call) : Call ⊕ ℤ :=
  if 5 < c.iLen ∧ c.lastFive = terminator then .inr c.iLen else .inl {c with place := .receiving}

/-- The head of the loop that ignores a single zero. -/
def Call.ignore (c : Call) : Call ⊕ ℤ :=
  if c.iLen = 1 ∧ c.pcBuf 0 = 0 then .inl {c with place := .ignoring} else c.receive

/-- `Rs485_uart_read` from the return of one read to the next read. -/
def rs485UartRead (iBufLen : ℤ) (c : Call) (i : Input) : Call ⊕ ℤ :=
  let c' := c.read iBufLen i
  match c.place with
  | .first => if c'.iLen < 0 then .inr c'.iLen else c'.ignore
  | .ignoring => if i.monitor then .inr (-1) else c'.ignore
  | .receiving => if i.monitor then .inr (-1) else c'.receive

def next (iBufLen : ℤ) (c : Call) (i : Input) : Option (Call × Unit) :=
  (rs485UartRead iBufLen c i).getLeft?.map (·,())

def start (pcBuf : ℤ → UInt8) : Call := ⟨.first,0,Function.update pcBuf 0 0⟩

/-- What every read must be like. -/
def Sound (iBufLen : ℤ) (c : Call) (i : Input) : Prop :=
  let c' := c.read iBufLen i
  (i.bytes ≠ none → 0 ≤ c'.iLen ∧ c'.iLen ≤ iBufLen) ∧
    (i.bytes = none ∨ 5 ≤ c'.iLen ∧ c'.lastFive = terminator ∨ c'.iLen = iBufLen →
      (rs485UartRead iBufLen c i).isRight)

/-- The data of the call with the bytes that a read finds at the port: only a read of the receiving
loop adds to what has come before, and none takes more than there is room for. -/
def Call.delivered (iBufLen : ℤ) (c : Call) (bytes : List UInt8) : List UInt8 :=
  let before := if c.place = .receiving then (range c.iLen.toNat).map fun k : ℕ => c.pcBuf k else []
  before++bytes.take (iBufLen-before.length).toNat

/-- Only the first read fails, the data are never the terminator alone, and data that fill the
buffer end with it. -/
def Orderly (iBufLen : ℤ) (c : Call) (i : Input) : Prop :=
  (i.bytes = none → c.place = .first) ∧ ∀ bytes ∈ i.bytes, c.delivered iBufLen bytes ≠ terminator ∧
    ((c.delivered iBufLen bytes).length = iBufLen → 5 < iBufLen ∧ terminator <:+ c.delivered iBufLen bytes)

section Reads
variable {iBufLen : ℤ} {c d : Call} {i : Input}

lemma read_bounds (hlo : 0 ≤ c.iLen) (hhi : c.iLen ≤ iBufLen) (hi : i.bytes ≠ none) :
    0 ≤ (c.read iBufLen i).iLen ∧ (c.read iBufLen i).iLen ≤ iBufLen := by
  obtain ⟨bytes,hbytes⟩ := Option.ne_none_iff_exists'.mp hi
  have htake : ∀ n : ℤ, 0 ≤ n → ((bytes.take n.toNat).length : ℤ) ≤ n := fun n hn => by
    rw [length_take]
    omega
  have h₁ := htake iBufLen (by omega)
  have h₂ := htake (iBufLen-c.iLen) (by omega)
  rw [Call.read,hbytes]
  split_ifs
  · constructor <;> dsimp only [rs485SelectRead] <;> omega
  · exact ⟨by simp [rs485SelectRead],h₁⟩

/-- A read behind the data in the buffer adds its bytes to them. -/
lemma selectRead_appends (data bytes : List UInt8) {pcBuf : ℤ → UInt8}
    (hdata : ∀ k < data.length, pcBuf k = data.getD k 0) (n : ℤ) :
    ∀ k < (data++bytes.take n.toNat).length,
      (rs485SelectRead pcBuf data.length n (some bytes)).2 k = (data++bytes.take n.toNat).getD k 0 := by
  intro k hk
  rw [length_append] at hk
  dsimp only [rs485SelectRead]
  by_cases hnew : data.length ≤ k
  · rw [if_pos (by omega),getD_append_right _ _ _ _ hnew]
    congr 1
    omega
  · rw [if_neg (by omega),getD_append _ _ _ _ (by omega)]
    exact hdata k (by omega)

variable (iBufLen) in
/-- After a read the buffer holds the data delivered. -/
lemma read_delivered (hlo : 0 ≤ c.iLen) {bytes : List UInt8} (hi : i.bytes = some bytes) :
    (c.read iBufLen i).iLen = (c.delivered iBufLen bytes).length ∧
      ∀ k < (c.delivered iBufLen bytes).length,
        (c.read iBufLen i).pcBuf k = (c.delivered iBufLen bytes).getD k 0 := by
  unfold Call.read Call.delivered
  rw [hi]
  split_ifs with hplace
  · have hbefore : (((range c.iLen.toNat).map fun k : ℕ => c.pcBuf k).length : ℤ) = c.iLen := by simp [hlo]
    have hdata : ∀ k < ((range c.iLen.toNat).map fun k : ℕ => c.pcBuf k).length,
        c.pcBuf k = ((range c.iLen.toNat).map fun k : ℕ => c.pcBuf k).getD k 0 := by
      intro k hk
      simp only [length_map,length_range] at hk
      simp [hk]
    have happends := selectRead_appends _ bytes hdata (iBufLen-c.iLen)
    dsimp only
    rw [hbefore] at happends ⊢
    refine ⟨?_,happends⟩
    rw [length_append,Nat.cast_add,hbefore]
    rfl
  · refine ⟨by simp [rs485SelectRead],?_⟩
    simpa using selectRead_appends [] bytes (fun k hk => absurd hk (Nat.not_lt_zero k)) iBufLen

variable (iBufLen) in
/-- The last five bytes in the buffer are the terminator exactly if the data delivered end with it. -/
lemma lastFive_read (hlo : 0 ≤ c.iLen) {bytes : List UInt8} (hi : i.bytes = some bytes)
    (hlen : 5 ≤ (c.delivered iBufLen bytes).length) :
    (c.read iBufLen i).lastFive = terminator ↔ terminator <:+ c.delivered iBufLen bytes := by
  obtain ⟨hiLen,hbuf⟩ := read_delivered iBufLen hlo hi
  have hlast : (c.read iBufLen i).lastFive =
      (c.delivered iBufLen bytes).drop ((c.delivered iBufLen bytes).length-terminator.length) := by
    refine ext_getElem ?_ fun k hk₁ hk₂ => ?_
    · simp only [Call.lastFive,length_map,length_range,length_drop,terminator,length_cons,length_nil]
      omega
    · have hk : k < 5 := by simpa [Call.lastFive] using hk₁
      have hplace : (c.read iBufLen i).iLen-5+k = ((c.delivered iBufLen bytes).length-5+k : ℕ) := by omega
      simp only [Call.lastFive,getElem_map,getElem_range,getElem_drop,hplace]
      rw [hbuf _ (by omega),getD_eq_getElem _ _ (by omega)]
      rfl
  rw [suffix_iff_eq_drop,hlast,eq_comm]

lemma receive_iLen (h : c.receive = .inl d) : d.iLen = c.iLen := by
  unfold Call.receive at h
  split_ifs at h
  cases h
  rfl

lemma ignore_iLen (h : c.ignore = .inl d) : d.iLen = c.iLen := by
  unfold Call.ignore at h
  split_ifs at h
  · cases h
    rfl
  · exact receive_iLen h

/-- A call that goes on has counted what was read. -/
lemma uartRead_iLen (h : rs485UartRead iBufLen c i = .inl d) : d.iLen = (c.read iBufLen i).iLen := by
  unfold rs485UartRead at h
  cases hplace : c.place <;> simp only [hplace] at h <;> split_ifs at h
  · exact ignore_iLen h
  · exact ignore_iLen h
  · exact receive_iLen h

lemma uartRead_failed (hplace : c.place = .first) (hi : i.bytes = none) : rs485UartRead iBufLen c i = .inr (-1) := by
  simp [rs485UartRead,Call.read,rs485SelectRead,hplace,hi]

lemma uartRead_completed (hlen : 5 < (c.read iBufLen i).iLen) (hend : (c.read iBufLen i).lastFive = terminator) :
    (rs485UartRead iBufLen c i).isRight := by
  have hreceive : (c.read iBufLen i).receive = .inr (c.read iBufLen i).iLen := if_pos ⟨hlen,hend⟩
  have hignore : (c.read iBufLen i).ignore = .inr (c.read iBufLen i).iLen := by
    rw [Call.ignore,if_neg (by omega),hreceive]
  unfold rs485UartRead
  cases c.place <;> simp only [hreceive,hignore] <;> split_ifs <;> rfl

lemma read_sound (hlo : 0 ≤ c.iLen) (hhi : c.iLen ≤ iBufLen) (h : Orderly iBufLen c i) : Sound iBufLen c i := by
  obtain ⟨hfirst,hdata⟩ := h
  refine ⟨read_bounds hlo hhi,?_⟩
  match hi : i.bytes with
  | none =>
    rw [uartRead_failed (hfirst hi) hi]
    exact fun _ => rfl
  | some bytes =>
    obtain ⟨halone,hfull⟩ := hdata bytes hi
    have hiLen := (read_delivered iBufLen hlo hi).1
    have hlast := lastFive_read iBufLen hlo hi
    rintro (hfails | ⟨hlen,hend⟩ | hlen)
    · cases hfails
    · refine uartRead_completed (lt_of_le_of_ne hlen fun heq => halone ?_) hend
      exact (((hlast (by omega)).mp hend).eq_of_length (by simp [terminator]; omega)).symm
    · obtain ⟨hsize,hend⟩ := hfull (hiLen.symm.trans hlen)
      exact uartRead_completed (hsize.trans_eq hlen.symm) ((hlast (by omega)).mpr hend)

end Reads

/-- Whatever the port delivers: in an orderly call the length stays in the buffer, and the call returns with the
read that fails, brings the terminator or fills the buffer. -/
theorem reads_stay_and_return {iBufLen : ℤ} (hbuf : 0 ≤ iBufLen) (pcBuf : ℤ → UInt8) (is : List Input)
    (h : Along (Orderly iBufLen) (next iBufLen) (start pcBuf) is) :
    Along (Sound iBufLen) (next iBufLen) (start pcBuf) is := by
  refine h.keep (I := fun c => 0 ≤ c.iLen ∧ c.iLen ≤ iBufLen) (fun c i hc hi => ?_) ⟨le_rfl,hbuf⟩
  refine ⟨read_sound hc.1 hc.2 hi,fun d _ hd => ?_⟩
  obtain ⟨e,he,heq⟩ := Option.map_eq_some_iff.mp hd
  cases heq
  rw [Sum.getLeft?_eq_some_iff] at he
  rw [uartRead_iLen he]
  refine read_bounds hc.1 hc.2 fun hnone => ?_
  rw [uartRead_failed (hi.1 hnone) hnone] at he
  cases he

def twoParts : List Input := [⟨some [0x41],false⟩,⟨some [],false⟩,⟨some [0x20,0x42,0x42,0x20,0x45,0x46],false⟩]

theorem reads_stay_and_return_twoParts : Along (Sound 16) (next 16) (start fun _ => 0) twoParts :=
  reads_stay_and_return (by decide) _ _ (by unfold Orderly; decide +kernel)

/-- A failed read is added to the length, and a full buffer is waited on. -/
theorem failed_read_shortens :
    (serve? (next 8) (start fun _ => 0) [⟨some [],false⟩,⟨none,false⟩]).map (·.1.iLen) = some (-1) ∧
      (serve? (next 1) (start fun _ => 0) [⟨some [0x41],false⟩,⟨some [],false⟩]).map (·.1.iLen) = some 1 := by
  decide +kernel

/-- Arithmetic of `int`. -/
def int (n : ℤ) : ℤ := n.bmod (2^32)

abbrev MAX_SEND : ℤ := 48

def chunks (iLen : ℤ) : ℕ := (iLen.tdiv MAX_SEND+if iLen.tmod MAX_SEND = 0 then 0 else 1).toNat

def chunkLen (iLen : ℤ) (i : ℕ) : ℤ := if iLen < int ((i+1)*MAX_SEND) then iLen-i*MAX_SEND else MAX_SEND

/-- A call of `write` with its result, and whether the descriptor was closed before. -/
structure Write where
  closed : Bool
  offset : ℕ
  len : ℤ
  result : ℤ
  deriving DecidableEq

structure Sending where
  iRet : ℤ := -1
  closed : Bool := false
  writes : List Write := []
  deriving DecidableEq

def sendChunk (iLen : ℤ) (result : ℕ → ℤ) (s : Sending) (i : ℕ) : Sending :=
  ⟨result i,s.closed || decide (result i < 0),s.writes++[⟨s.closed,i*48,chunkLen iLen i,result i⟩]⟩

/-- `Rs485_uart_write` where the writes of the chunks have the given results. -/
def rs485UartWrite (iLen : ℤ) (result : ℕ → ℤ) : Sending := (range (chunks iLen)).foldl (sendChunk iLen result) {}

/-- The places of the bytes that the port has accepted, in their order. -/
def Sending.accepted (s : Sending) : List ℕ := s.writes.flatMap fun w => range' w.offset w.result.toNat

lemma foldl_sendChunk (iLen : ℤ) (result : ℕ → ℤ) (n : ℕ) : (range n).foldl (sendChunk iLen result) {} =
    ⟨if n = 0 then -1 else result (n-1),decide (∃ i < n, result i < 0),
      (range n).map fun i => ⟨decide (∃ j < i, result j < 0),i*48,chunkLen iLen i,result i⟩⟩ := by
  induction n with
  | zero => simp
  | succ n ih =>
    rw [range_succ,foldl_append,ih]
    simp [sendChunk,Nat.le_iff_lt_or_eq,or_and_right,exists_or]

section Chunks
variable {iLen : ℤ} (hlen : 0 ≤ iLen)
include hlen

lemma chunks_spec : iLen ≤ chunks iLen*48 ∧ chunks iLen*48 < iLen+48 := by
  rw [chunks,Int.tdiv_eq_ediv_of_nonneg hlen,Int.tmod_eq_emod_of_nonneg hlen,MAX_SEND]
  split_ifs <;> omega

/-- No write asks for more than 48 bytes, also where `(i + 1) * MAX_SEND` has overflowed. -/
lemma chunkLen_le (hint : iLen < 2^31) (i : ℕ) : chunkLen iLen i ≤ 48 := by
  rw [chunkLen,int,MAX_SEND,Int.bmod_def]
  split_ifs <;> omega

/-- Chunks of the whole data, one behind the other. -/
lemma flatMap_chunks {n : ℕ} (hn : n ≤ chunks iLen) :
    ((range n).flatMap fun i => range' (i*48) (min 48 (iLen-i*48)).toNat) = range (min (n*48) iLen.toNat) := by
  induction n with
  | zero => simp
  | succ n ih =>
    have hspec := chunks_spec hlen
    have happend : range' 0 (n*48)++range' (0+n*48) (min 48 (iLen-n*48)).toNat = _ := range'_append_1
    rw [zero_add] at happend
    rw [range_succ,flatMap_append,ih (by omega),flatMap_singleton,min_eq_left (by omega),
      range_eq_range',range_eq_range',happend]
    congr 1
    omega

end Chunks

/-- Of chunks of at most 48 bytes the place of a byte tells the chunk. -/
lemma mem_chunks {n : ℕ} {len : ℕ → ℕ} (hlen : ∀ i < n, len i ≤ 48) {i j : ℕ} (hi : i < n) (hj : j < 48) :
    i*48+j ∈ (range n).flatMap (fun i => range' (i*48) (len i)) ↔ j < len i := by
  simp only [mem_flatMap,mem_range,mem_range'_1]
  constructor
  · rintro ⟨k,hk,hlo,hhi⟩
    have := hlen k hk
    obtain rfl : k = i := by omega
    omega
  · exact fun h => ⟨i,hi,by omega,by omega⟩

section Writes
variable {iLen : ℤ} {result : ℕ → ℤ}

lemma rs485UartWrite_iRet (result : ℕ → ℤ) (hpos : 0 < chunks iLen) :
    (rs485UartWrite iLen result).iRet = result (chunks iLen-1) := by
  rw [rs485UartWrite,foldl_sendChunk,if_neg hpos.ne']

lemma rs485UartWrite_accepted (iLen : ℤ) (result : ℕ → ℤ) : (rs485UartWrite iLen result).accepted =
    (range (chunks iLen)).flatMap fun i => range' (i*48) (result i).toNat := by
  rw [rs485UartWrite,foldl_sendChunk,Sending.accepted,flatMap_map]

/-- The descriptor is closed by a write that fails, and used on by the next ones. -/
lemma writes_open_iff : (∀ w ∈ (rs485UartWrite iLen result).writes, w.closed = false) ↔
    ∀ i, i+1 < chunks iLen → 0 ≤ result i := by
  rw [rs485UartWrite,foldl_sendChunk]
  simp only [forall_mem_map,mem_range,decide_eq_false_iff_not,not_exists,not_and,not_lt]
  exact ⟨fun h i hi => h (i+1) hi i (by omega),fun h i hi j hj => h j (by omega)⟩

/-- If the bytes accepted are those of the data, each write has accepted its part. -/
lemma result_of_accepted (hlen : 0 ≤ iLen) (hint : iLen < 2^31) (hresult : ∀ i, result i ≤ chunkLen iLen i)
    (haccepted : (rs485UartWrite iLen result).accepted = range iLen.toNat) {i : ℕ} (hi : i < chunks iLen)
    (hnonneg : 0 ≤ result i) : result i = min MAX_SEND (iLen-i*MAX_SEND) := by
  have hspec := chunks_spec hlen
  have hshort : ∀ i < chunks iLen, (result i).toNat ≤ 48 := fun i _ => by
    have := (hresult i).trans (chunkLen_le hlen hint i)
    omega
  have hbytes : ∀ j < 48, j < (result i).toNat ↔ i*48+j < iLen.toNat := fun j hj => by
    rw [← mem_chunks hshort hi hj,← rs485UartWrite_accepted,haccepted,mem_range]
  have hi48 := hshort i hi
  rw [MAX_SEND]
  rcases lt_trichotomy (result i) (min 48 (iLen-i*48)) with hlt | heq | hgt
  · have := hbytes (result i).toNat (by omega)
    omega
  · exact heq
  · have := hbytes (min 48 (iLen-i*48)).toNat (by omega)
    omega

lemma accepted_of_result (hlen : 0 ≤ iLen)
    (h : ∀ i < chunks iLen, result i = min MAX_SEND (iLen-i*MAX_SEND)) :
    (rs485UartWrite iLen result).accepted = range iLen.toNat := by
  have hspec := chunks_spec hlen
  have hall := flatMap_chunks hlen le_rfl
  rw [min_eq_right (by omega)] at hall
  rw [rs485UartWrite_accepted,← hall]
  exact flatMap_congr fun i hi => by rw [h i (mem_range.mp hi)]

end Writes

/-- No write before the last one fails, and unless the last one does every write accepts its part of
the data. -/
def Unbroken (iLen : ℤ) (result : ℕ → ℤ) : Prop :=
  ∀ i < chunks iLen, (i+1 < chunks iLen → 0 ≤ result i) ∧
    (0 ≤ result (chunks iLen-1) → result i = min MAX_SEND (iLen-i*MAX_SEND))

/-- `Rs485_uart_write` reports success only of all bytes in order, and writes nothing to a closed
descriptor, exactly when no write before the last one fails and none of a reported success is short.
-/
theorem writes_all_or_fails {iLen : ℤ} (hlen : 0 ≤ iLen) (hint : iLen < 2^31) (result : ℕ → ℤ)
    (hresult : ∀ i, result i ≤ chunkLen iLen i) :
    ((0 ≤ (rs485UartWrite iLen result).iRet → (rs485UartWrite iLen result).accepted = range iLen.toNat) ∧
      ∀ w ∈ (rs485UartWrite iLen result).writes, w.closed = false) ↔ Unbroken iLen result := by
  rw [writes_open_iff]
  constructor
  · rintro ⟨hret,hopen⟩ i hi
    have hiRet := rs485UartWrite_iRet result (by omega : 0 < chunks iLen)
    refine ⟨hopen i,fun hlast => ?_⟩
    refine result_of_accepted hlen hint hresult (hret (hiRet ▸ hlast)) hi ?_
    rcases Nat.lt_or_ge (i+1) (chunks iLen) with hlt | hge
    · exact hopen i hlt
    · rwa [show i = chunks iLen-1 by omega]
  · intro h
    refine ⟨fun hret => ?_,fun i hi => (h i (by omega)).1 hi⟩
    rcases Nat.eq_zero_or_pos (chunks iLen) with hzero | hpos
    · rw [rs485UartWrite,hzero] at hret
      exact absurd hret (by simp)
    · rw [rs485UartWrite_iRet result hpos] at hret
      exact accepted_of_result hlen fun i hi => (h i hi).2 hret

theorem writes_all_or_fails_two : (rs485UartWrite 50 (chunkLen 50 ·)).accepted = range 50 ∧
    ∀ w ∈ (rs485UartWrite 50 (chunkLen 50 ·)).writes, w.closed = false := by
  obtain ⟨hall,hopen⟩ := (writes_all_or_fails (by decide : (0 : ℤ) ≤ 50) (by decide) (chunkLen 50 ·)
    fun _ => le_rfl).mpr (by unfold Unbroken; decide)
  exact ⟨hall (by decide),hopen⟩

/-- The second chunk is written after the first one has failed, and its result is returned. -/
theorem failed_chunk_reported_sent : rs485UartWrite 50 (fun i => if i = 0 then -1 else 2) =
    ⟨2,true,[⟨false,0,48,-1⟩,⟨true,48,2,2⟩]⟩ := by
  decide

end ArmFirmware.Rsk.Rs485
