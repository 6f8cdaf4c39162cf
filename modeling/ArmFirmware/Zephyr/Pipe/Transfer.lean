import ArmFirmware.Zephyr.Pipe.Model

/-! What the copying loops do: the data of the sources goes, in order, to the waiting readers
and then to the pipe buffer, as far as there is data and room. -/
namespace ArmFirmware.Zephyr.Pipe
open Library List Nat Dest Xfer Fetch

attribute [local simp] Ring.read bytesCopied reader? Ring.write
variable {θ β : Type*}

section Descriptors

def drain : ℕ → List (Writer θ β) → List (Writer θ β)
  | _,[] => []
  | k,w::ws => w.advance k::drain (k-w.rest.length) ws

def pour : List β → List (Reader θ β) → List (Reader θ β)
  | _,[] => []
  | bytes,r::rs => r.accept (bytes.take r.room)::pour (bytes.drop r.room) rs

/-- The bytes handed out, with the reader that gets them. -/
def dealt : List β → List (Reader θ β) → List (θ × β)
  | _,[] => []
  | bytes,r::rs => tag r.thread (bytes.take r.room)++dealt (bytes.drop r.room) rs

def sentOf (ws : List (Writer θ β)) : List (θ × β) := ws.flatMap fun w => tag w.thread w.sent
def restOf (ws : List (Writer θ β)) : List (θ × β) := ws.flatMap fun w => tag w.thread w.rest
def receivedOf (rs : List (Reader θ β)) : List (θ × β) :=
  rs.flatMap fun r => tag r.thread r.received
def roomOf (rs : List (Reader θ β)) : ℕ := (rs.map Reader.room).sum

def acceptedOf (copies : List (Copy θ β)) : List (θ × β) :=
  copies.flatMap fun c => (c.src.map fun t => tag t c.bytes).getD []
def deliveredOf (copies : List (Copy θ β)) : List (θ × β) :=
  copies.flatMap fun c => (c.dest.map fun t => tag t c.bytes).getD []

variable {w : Writer θ β} {ws : List (Writer θ β)} {r : Reader θ β} {rs : List (Reader θ β)}

@[simp] lemma advance_thread (n : ℕ) : (w.advance n).thread = w.thread := rfl
@[simp] lemma advance_rest (n : ℕ) : (w.advance n).rest = w.rest.drop n := rfl
@[simp] lemma advance_sent (n : ℕ) : (w.advance n).sent = w.sent++w.rest.take n := rfl
@[simp] lemma advance_minXfer (n : ℕ) : (w.advance n).minXfer = w.minXfer := rfl
@[simp] lemma accept_minXfer (bytes : List β) : (r.accept bytes).minXfer = r.minXfer := rfl
@[simp] lemma accept_thread (bytes : List β) : (r.accept bytes).thread = r.thread := rfl
@[simp] lemma accept_room (bytes : List β) : (r.accept bytes).room = r.room-bytes.length := rfl
@[simp] lemma accept_received (bytes : List β) : (r.accept bytes).received = r.received++bytes := rfl

lemma advance_advance (m n : ℕ) : (w.advance m).advance n = w.advance (m+n) := by
  simp [Writer.advance,take_add]

lemma advance_of_rest (h : w.rest = []) (n : ℕ) : w.advance n = w := by
  cases w
  simp_all [Writer.advance]

@[simp] lemma advance_zero : w.advance 0 = w := by
  cases w
  simp [Writer.advance]

lemma accept_accept (a b : List β) : (r.accept a).accept b = r.accept (a++b) := by
  simp [Reader.accept,Nat.sub_sub]

@[simp] lemma accept_nil : r.accept [] = r := by
  cases r
  simp [Reader.accept]

@[simp] lemma drain_zero (ws : List (Writer θ β)) : drain 0 ws = ws := by
  induction ws with
  | nil => rfl
  | cons w ws ih => simp [drain,ih]

lemma drain_add {n : ℕ} (h : n ≤ w.rest.length) (k : ℕ) : drain (n+k) (w::ws) = drain k (w.advance n::ws) := by
  rw [drain,drain,advance_advance,advance_rest,length_drop]
  congr 2
  omega

@[simp] lemma drain_thread (k : ℕ) (ws : List (Writer θ β)) :
    (drain k ws).map Writer.thread = ws.map Writer.thread := by
  induction ws generalizing k with
  | nil => rfl
  | cons w ws ih => simp [drain,ih]

@[simp] lemma pour_nil (rs : List (Reader θ β)) : pour [] rs = rs := by
  induction rs with
  | nil => rfl
  | cons r rs ih => simp [pour,ih]

variable {a : List β}

lemma pour_append (h : a.length ≤ r.room) (b : List β) : pour (a++b) (r::rs) = pour b (r.accept a::rs) := by
  rw [pour,pour,take_append,drop_append,take_of_length_le h,drop_of_length_le h,accept_accept]
  simp

@[simp] lemma pour_thread (bytes : List β) (rs : List (Reader θ β)) :
    (pour bytes rs).map Reader.thread = rs.map Reader.thread := by
  induction rs generalizing bytes with
  | nil => rfl
  | cons r rs ih => simp [pour,ih]

@[simp] lemma dealt_nil (rs : List (Reader θ β)) : dealt [] rs = [] := by
  induction rs with
  | nil => rfl
  | cons r rs ih => simp [dealt,ih]

lemma dealt_append (h : a.length ≤ r.room) (b : List β) :
    dealt (a++b) (r::rs) = tag r.thread a++dealt b (r.accept a::rs) := by
  rw [dealt,dealt,take_append,drop_append,take_of_length_le h,drop_of_length_le h]
  simp

@[simp] lemma restOf_nil : restOf ([] : List (Writer θ β)) = [] := rfl
@[simp] lemma restOf_cons : restOf (w::ws) = tag w.thread w.rest++restOf ws := rfl
@[simp] lemma sentOf_nil : sentOf ([] : List (Writer θ β)) = [] := rfl
@[simp] lemma sentOf_cons : sentOf (w::ws) = tag w.thread w.sent++sentOf ws := rfl
@[simp] lemma receivedOf_nil : receivedOf ([] : List (Reader θ β)) = [] := rfl
@[simp] lemma receivedOf_cons : receivedOf (r::rs) = tag r.thread r.received++receivedOf rs := rfl
@[simp] lemma roomOf_nil : roomOf ([] : List (Reader θ β)) = 0 := rfl
@[simp] lemma roomOf_cons : roomOf (r::rs) = r.room+roomOf rs := rfl

@[simp] lemma acceptedOf_append (a b : List (Copy θ β)) : acceptedOf (a++b) = acceptedOf a++acceptedOf b :=
  flatMap_append
@[simp] lemma deliveredOf_append (a b : List (Copy θ β)) : deliveredOf (a++b) = deliveredOf a++deliveredOf b :=
  flatMap_append

end Descriptors

section Buffer
variable {N : ℕ} {ring : Ring β}

def Ring.contents (N : ℕ) (ring : Ring β) : List β :=
  ringRead ring.buffer N ring.readIndex ring.bytesUsed

/-- `bytes_used` is the distance from `read_index` to `write_index`. -/
structure Ring.Ok (N : ℕ) (ring : Ring β) : Prop where
  used : ring.bytesUsed ≤ N
  read : ring.readIndex ≤ N-1
  write : ring.writeIndex = (ring.readIndex+ring.bytesUsed) % N

/-- Segments of the buffer that follow each other from `index` on. -/
def Fits (N : ℕ) : ℕ → List (ℕ × ℕ) → Prop
  | _,[] => True
  | index,(start,len)::segs =>
    (len = 0 ∨ start = index) ∧ start+len ≤ N ∧ Fits N (wrap N (index+len)) segs

def lengthOf (segs : List (ℕ × ℕ)) : ℕ := (segs.map Prod.snd).sum

@[simp] lemma lengthOf_nil : lengthOf [] = 0 := rfl
@[simp] lemma lengthOf_cons (start len : ℕ) (segs : List (ℕ × ℕ)) :
    lengthOf ((start,len)::segs) = len+lengthOf segs := rfl

@[simp] lemma contents_length : (ring.contents N).length = ring.bytesUsed := ringRead_length ..

variable {index : ℕ}

lemma wrap_eq_mod {n : ℕ} (hindex : index < N) (hn : n ≤ N) : wrap N (index+n) = (index+n) % N := by
  unfold wrap
  split_ifs with h
  · rw [mod_eq_sub_mod h,mod_eq_of_lt (by omega)]
  · exact (mod_eq_of_lt (by omega)).symm

lemma wrap_of_lt (h : index ≤ N-1) : wrap N index = index := by
  unfold wrap
  split_ifs <;> omega

variable {start : ℕ} {segs : List (ℕ × ℕ)}

/-- What is left of a segment after its first `n` bytes fits where these end. -/
lemma Fits.advance {len n : ℕ} (hindex : index ≤ N-1) (h : Fits N index ((start,len)::segs)) (hn : n ≤ len) :
    Fits N (wrap N (index+n)) ((start+n,len-n)::segs) := by
  obtain ⟨hstart,hlen,hrest⟩ := h
  have hmove : wrap N (wrap N (index+n)+(len-n)) = wrap N (index+len) := by
    rcases hstart with rfl | rfl
    · simp [show n = 0 by omega,wrap_of_lt hindex]
    · rcases Nat.eq_zero_or_pos (len-n) with hz | hz
      · rw [show len = n by omega,Nat.sub_self,Nat.add_zero]
        apply wrap_of_lt
        unfold wrap
        split_ifs <;> omega
      · rw [show wrap N (start+n) = start+n from by unfold wrap; split_ifs <;> omega]
        congr 1
        omega
  refine ⟨?_,by omega,hmove ▸ hrest⟩
  rcases hstart with rfl | rfl
  · exact .inl (by omega)
  · rcases Nat.eq_zero_or_pos (len-n) with hz | hz
    · exact .inl hz
    · refine .inr ?_
      unfold wrap
      split_ifs <;> omega

lemma Fits.tail {len : ℕ} (h : Fits N index ((start,len)::segs)) : Fits N (wrap N (index+len)) segs := h.2.2

namespace Ring.Ok

section
variable (h : ring.Ok N)
include h

lemma write_le : ring.writeIndex ≤ N-1 := by
  rcases Nat.eq_zero_or_pos N with rfl | hN
  · have := h.used
    have := h.read
    have := h.write
    simp_all
  · have := mod_lt (ring.readIndex+ring.bytesUsed) hN
    rw [← h.write] at this
    omega

lemma write_cases : ring.writeIndex = ring.readIndex+ring.bytesUsed ∨
      ring.writeIndex+N = ring.readIndex+ring.bytesUsed := by
  have hu := h.used
  have hr := h.read
  have hw := h.write
  rcases Nat.eq_zero_or_pos N with rfl | hN
  · exact .inl (by simpa using hw)
  · by_cases hlt : ring.readIndex+ring.bytesUsed < N
    · exact .inl (by rw [hw,mod_eq_of_lt hlt])
    · refine .inr ?_
      rw [hw,mod_eq_sub_mod (by omega),mod_eq_of_lt (by omega)]
      omega

lemma write_lt (hN : 0 < N) : ring.writeIndex < N := by
  have := h.write_le
  omega

lemma free_fits : Fits N ring.writeIndex (ring.free N) ∧ ring.bytesUsed+lengthOf (ring.free N) = N := by
  have hu := h.used
  have hr := h.read
  have hw := h.write_le
  have hc := h.write_cases
  unfold Ring.free pipeBufferListPopulate
  split_ifs with hfull hlt
  · exact ⟨trivial,by simpa using hfull⟩
  · exact ⟨⟨.inr rfl,by omega,trivial⟩,by simp; omega⟩
  · refine ⟨⟨.inr rfl,by omega,.inr ?_,by omega,trivial⟩,by simp; omega⟩
    unfold wrap
    split_ifs <;> omega

lemma used_fits : Fits N ring.readIndex (ring.used N) ∧ lengthOf (ring.used N) = ring.bytesUsed := by
  have hu := h.used
  have hr := h.read
  have hw := h.write_le
  have hc := h.write_cases
  unfold Ring.used pipeBufferListPopulate
  split_ifs with hempty hlt
  · exact ⟨trivial,by simpa using hempty.symm⟩
  · exact ⟨⟨.inr rfl,by omega,trivial⟩,by simp; omega⟩
  · refine ⟨⟨.inr rfl,by omega,.inr ?_,by omega,trivial⟩,by simp; omega⟩
    unfold wrap
    split_ifs <;> omega

/-- Bytes go behind the contents of the buffer. -/
lemma write_bytes {start : ℕ} (bytes : List β)
    (hstart : bytes = [] ∨ start = ring.writeIndex) (hfit : start+bytes.length ≤ N)
    (hroom : ring.bytesUsed+bytes.length ≤ N) : (ring.write N start bytes).Ok N ∧
      (ring.write N start bytes).contents N = ring.contents N++bytes := by
  rcases hstart with rfl | rfl
  · have hbuffer : blit ring.buffer start 0 (fun i => ([] : List β).getD i (ring.buffer (start+i))) =
        ring.buffer := by
      funext i
      rw [blit,if_neg (by omega)]
    refine ⟨⟨h.used,h.read,?_⟩,?_⟩
    · simpa [wrap_of_lt h.write_le] using h.write
    · simp only [Ring.contents,Ring.write,length_nil,add_zero,append_nil]
      rw [hbuffer]
  · rcases Nat.eq_zero_or_pos N with rfl | hN
    · obtain rfl : bytes = [] := length_eq_zero_iff.mp (by omega)
      refine ⟨⟨h.used,h.read,?_⟩,?_⟩
      · simpa [wrap] using h.write
      · have hz : ring.bytesUsed = 0 := by
          omega
        simp [Ring.contents,hz]
    · refine ⟨⟨hroom,h.read,?_⟩,?_⟩
      · simp only [Ring.write]
        rw [wrap_eq_mod (h.write_lt hN) (by omega),h.write,mod_add_mod,add_assoc]
      · have hslice : (ring.readIndex+ring.bytesUsed) % N+bytes.length ≤ N := h.write ▸ hfit
        simp only [Ring.contents,Ring.write]
        rw [ringRead_append,h.write,
          ringRead_blit_of_disjoint hN hslice le_rfl (by omega),ringRead_blit_self hN hslice]
        congr 1
        apply ext_getElem
        · simp
        · intro i hi hi'
          simp [hi']

/-- Bytes come from the front of the buffer. -/
lemma read_bytes (start : ℕ) {n : ℕ}
    (hstart : n = 0 ∨ (start = ring.readIndex ∧ start+n ≤ N)) (hused : n ≤ ring.bytesUsed) :
    (ring.read N start n).1 = (ring.contents N).take n ∧ (ring.read N start n).2.Ok N ∧
      (ring.read N start n).2.contents N = (ring.contents N).drop n := by
  have hu := h.used
  have hr := h.read
  rcases hstart with rfl | ⟨rfl,hfit⟩
  · refine ⟨by simp,⟨hu,?_,?_⟩,?_⟩
    · simpa [wrap_of_lt hr] using hr
    · simpa [wrap_of_lt hr] using h.write
    · simp [Ring.contents,wrap_of_lt hr]
  · rcases Nat.eq_zero_or_pos N with rfl | hN
    · obtain rfl : n = 0 := by omega
      refine ⟨by simp,⟨hu,?_,?_⟩,?_⟩
      · simpa [wrap] using hr
      · simpa [wrap] using h.write
      · simp [Ring.contents,wrap]
    · have hlt : ring.readIndex < N := by omega
      have hindex := wrap_eq_mod hlt (show n ≤ N by omega)
      refine ⟨?_,⟨by simp only [Ring.read]; omega,?_,?_⟩,?_⟩
      · rw [Ring.contents,ringRead_take hused,
          ringRead_slice hN (by rw [mod_eq_of_lt hlt]; exact hfit),mod_eq_of_lt hlt]
        rfl
      · simp only [Ring.read]
        rw [hindex]
        have := mod_lt (ring.readIndex+n) hN
        omega
      · simp only [Ring.read]
        rw [h.write,hindex,mod_add_mod]
        congr 1
        omega
      · simp only [Ring.contents,Ring.read]
        rw [ringRead_drop hused,hindex]
        apply map_congr_left
        intro i _
        rw [mod_add_mod]

end

end Ring.Ok
end Buffer

section Exhausted
variable {w : Writer θ β} {r : Reader θ β} {start len : ℕ}

/-! Taking a descriptor without bytes off its list loses nothing. -/

lemma drain_skip (k : ℕ) (spent ws : List (Writer θ β)) : (if w.rest.length = 0 then spent++[w] else spent)++
      drain k (if w.rest.length = 0 then ws else w::ws) = spent++drain k (w::ws) := by
  split_ifs with h
  · simp [drain,advance_of_rest (length_eq_zero_iff.mp h),h]
  · rfl

lemma restOf_skip (ws : List (Writer θ β)) : restOf (if w.rest.length = 0 then ws else w::ws) = restOf (w::ws) := by
  split_ifs with h
  · simp [length_eq_zero_iff.mp h]
  · rfl

lemma pour_skip (bytes : List β) (filled rs : List (Reader θ β)) : (if r.room = 0 then filled++[r] else filled)++
      pour bytes (if r.room = 0 then rs else r::rs) = filled++pour bytes (r::rs) := by
  split_ifs with h
  · simp [pour,h]
  · rfl

lemma dealt_skip (bytes : List β) (rs : List (Reader θ β)) :
    dealt bytes (if r.room = 0 then rs else r::rs) = dealt bytes (r::rs) := by
  split_ifs with h
  · simp [dealt,h]
  · rfl

lemma roomOf_skip (rs : List (Reader θ β)) : roomOf (if r.room = 0 then rs else r::rs) = roomOf (r::rs) := by
  split_ifs with h
  · simp [h]
  · rfl

lemma lengthOf_skip (segs : List (ℕ × ℕ)) :
    lengthOf (if len = 0 then segs else (start,len)::segs) = lengthOf ((start,len)::segs) := by
  split_ifs with h
  · simp [h]
  · rfl

end Exhausted

section Write
variable {N : ℕ} {x out : Xfer θ β} {rs : List (Reader θ β)} {segs : List (ℕ × ℕ)}

def destsOf (rs : List (Reader θ β)) (segs : List (ℕ × ℕ)) : List (Dest θ β) :=
  rs.map .reader++segs.map fun s => .segment s.1 s.2

def dataOf (ws : List (Writer θ β)) : List β := (restOf ws).map Prod.snd

/-- What `pipe_write` makes of its variables. -/
structure Xfer.Copied (N : ℕ) (x : Xfer θ β) (rs : List (Reader θ β)) (segs : List (ℕ × ℕ))
    (out : Xfer θ β) : Prop where
  sources : out.spent++out.srcs = x.spent++drain (roomOf rs+lengthOf segs) x.srcs
  readers : out.filled++out.waiting = x.filled++pour (dataOf x.srcs) rs
  accepted : acceptedOf out.copies =
    acceptedOf x.copies++(restOf x.srcs).take (roomOf rs+lengthOf segs)
  delivered : deliveredOf out.copies = deliveredOf x.copies++dealt (dataOf x.srcs) rs
  count : bytesCopied out.copies =
    bytesCopied x.copies+min (dataOf x.srcs).length (roomOf rs+lengthOf segs)
  ok : out.ring.Ok N
  contents : out.ring.contents N =
    x.ring.contents N++((dataOf x.srcs).drop (roomOf rs)).take (lengthOf segs)
  satisfied : (∀ r ∈ x.filled, r.room = 0) → (∀ r ∈ rs, r.room ≠ 0) →
    (∀ r ∈ out.filled, r.room = 0) ∧ ∀ r ∈ out.waiting, r.room ≠ 0

lemma waiting_of_dests (h : x.dests = destsOf rs segs) : x.waiting = rs := by
  rw [waiting,h,destsOf,filterMap_append]
  have hsegs : (segs.map fun s => (segment s.1 s.2 : Dest θ β)).filterMap reader? = [] := by
    simp [filterMap_map,Function.comp_def]
  rw [hsegs,append_nil,filterMap_map]
  exact filterMap_some

lemma Xfer.Copied.refl (hok : x.ring.Ok N) (hdests : x.dests = destsOf rs segs)
    (hdone : x.srcs = [] ∨ (rs = [] ∧ segs = [])) : x.Copied N rs segs x := by
  have hwait := waiting_of_dests hdests
  rcases hdone with h | ⟨rfl,rfl⟩
  · constructor <;> simp_all [dataOf,drain]
  · constructor <;> simp_all [dataOf,pour,dealt]

@[simp] lemma bytesCopied_append (a b : List (Copy θ β)) : bytesCopied (a++b) = bytesCopied a+bytesCopied b := by
  simp

def moved (dest : Dest θ β) (src : Writer θ β) : List β :=
  src.rest.take (min dest.bytesToXfer src.rest.length)

section Iteration
variable (src : Writer θ β) (srcs : List (Writer θ β)) (dest : Dest θ β) (dests : List (Dest θ β))

lemma moved_length : (moved dest src).length = min dest.bytesToXfer src.rest.length := by
  simp [moved]

lemma rest_eq_moved : src.rest = moved dest src++(src.advance (moved dest src).length).rest := by
  have htake : src.rest.take (moved dest src).length = moved dest src := by
    rw [moved_length,moved]
  rw [advance_rest]
  exact (htake ▸ take_append_drop (moved dest src).length src.rest).symm

lemma restOf_moved : restOf (src::srcs) = tag src.thread (moved dest src)++
    restOf (src.advance (moved dest src).length::srcs) := by
  rw [restOf_cons,restOf_cons,← append_assoc,advance_thread,← tag_append,← rest_eq_moved]

lemma dataOf_moved : dataOf (src::srcs) = moved dest src++ dataOf (src.advance (moved dest src).length::srcs) := by
  rw [dataOf,restOf_moved src srcs dest,map_append,map_snd_tag,dataOf]

lemma restOf_copyOnce : restOf (x.copyOnce N src srcs dest dests).srcs =
    restOf (src.advance (moved dest src).length::srcs) := restOf_skip _

lemma dataOf_copyOnce : dataOf (x.copyOnce N src srcs dest dests).srcs =
    dataOf (src.advance (moved dest src).length::srcs) := by
  rw [dataOf,restOf_copyOnce,dataOf]

lemma drain_copyOnce (k : ℕ) : (x.copyOnce N src srcs dest dests).spent++
      drain k (x.copyOnce N src srcs dest dests).srcs = x.spent++drain ((moved dest src).length+k) (src::srcs) := by
  rw [drain_add (by rw [moved_length]; omega)]
  exact drain_skip ..

lemma copies_copyOnce : (x.copyOnce N src srcs dest dests).copies =
    x.copies++[⟨some src.thread,dest.thread,moved dest src⟩] := rfl

lemma ring_copyOnce (start len : ℕ) : (x.copyOnce N src srcs (.segment start len) dests).ring =
    x.ring.write N start (moved (.segment start len) src) := rfl

/-- Each copy uses up a source or a destination. -/
lemma length_copyOnce : (x.copyOnce N src srcs dest dests).srcs.length+
    (x.copyOnce N src srcs dest dests).dests.length ≤ srcs.length+dests.length+1 := by
  have hexhausted : (src.advance (moved dest src).length).rest.length = 0 ∨
      (dest.accept (moved dest src)).bytesToXfer = 0 := by
    have hlen := moved_length src dest
    rw [advance_rest,length_drop]
    cases dest with
    | reader r =>
      simp only [accept,bytesToXfer,accept_room] at hlen ⊢
      omega
    | segment start len =>
      simp only [accept,bytesToXfer] at hlen ⊢
      omega
  have hsrcs : (x.copyOnce N src srcs dest dests).srcs =
      if (src.advance (moved dest src).length).rest.length = 0 then srcs
      else src.advance (moved dest src).length::srcs := rfl
  have hdests : (x.copyOnce N src srcs dest dests).dests =
      if (dest.accept (moved dest src)).bytesToXfer = 0 then dests
      else dest.accept (moved dest src)::dests := rfl
  rw [hsrcs,hdests]
  rcases hexhausted with h | h
  all_goals
    rw [if_pos h]
    split_ifs <;> simp
    omega

end Iteration

lemma dests_copyOnce_reader (src : Writer θ β) (srcs : List (Writer θ β)) (r : Reader θ β) :
    (x.copyOnce N src srcs (.reader r) (destsOf rs segs)).dests =
      destsOf (if (r.accept (moved (.reader r) src)).room = 0 then rs
        else r.accept (moved (.reader r) src)::rs) segs := by
  show ite ((r.accept (moved (.reader r) src)).room = 0) _ _ = _
  split_ifs <;> rfl

lemma dests_copyOnce_segment (src : Writer θ β) (srcs : List (Writer θ β)) (start len : ℕ) :
    (x.copyOnce N src srcs (.segment start len) (destsOf [] segs)).dests =
      destsOf [] (if len-(moved (.segment start len : Dest θ β) src).length = 0 then segs
        else (start+(moved (.segment start len : Dest θ β) src).length,
          len-(moved (.segment start len : Dest θ β) src).length)::segs) := by
  show ite (len-(moved (.segment start len : Dest θ β) src).length = 0) _ _ = _
  split_ifs <;> rfl

variable {start : ℕ}

lemma Fits.skip {index len : ℕ} (hindex : index ≤ N-1) (h : Fits N index ((start,len)::segs)) :
    Fits N index (if len = 0 then segs else (start,len)::segs) := by
  split_ifs with hz
  · have := h.tail
    rwa [hz,add_zero,wrap_of_lt hindex] at this
  · exact h

variable {src : Writer θ β} {srcs : List (Writer θ β)}

variable {dests : List (Dest θ β)}

lemma Xfer.Copied.of_reader {r r' : Reader θ β}
    (hsrcs : x.srcs = src::srcs) (hr' : r' = r.accept (moved (.reader r) src))
    (h : (x.copyOnce N src srcs (.reader r) dests).Copied N
      (if r'.room = 0 then rs else r'::rs) segs out) : x.Copied N (r::rs) segs out := by
  have hlen := moved_length src (.reader r)
  have hroom : (moved (.reader r) src).length ≤ r.room := by simp only [hlen,bytesToXfer]; omega
  have hdata := dataOf_moved src srcs (.reader r)
  have hfilled : (x.copyOnce N src srcs (.reader r) dests).filled =
      if r'.room = 0 then x.filled++[r'] else x.filled := hr' ▸ rfl
  have hroomOf : roomOf (r::rs) = (moved (.reader r) src).length+roomOf (r'::rs) := by
    simp only [roomOf_cons,hr',accept_room]
    omega
  constructor
  · rw [h.sources,hsrcs,drain_copyOnce,roomOf_skip,hroomOf,add_assoc]
  · rw [h.readers,hsrcs,dataOf_copyOnce,hfilled,pour_skip,hdata,pour_append hroom,hr']
  · rw [h.accepted,hsrcs,copies_copyOnce,restOf_copyOnce,roomOf_skip,restOf_moved src srcs (.reader r),
      hroomOf,add_assoc,take_append]
    simp [acceptedOf]
  · rw [h.delivered,hsrcs,copies_copyOnce,dataOf_copyOnce,dealt_skip,hdata,dealt_append hroom,hr']
    simp [deliveredOf,thread]
  · rw [h.count,hsrcs,copies_copyOnce,dataOf_copyOnce,roomOf_skip,hdata,hroomOf]
    simp
    omega
  · exact h.ok
  · have hgone : (moved (.reader r) src).drop ((moved (.reader r) src).length+roomOf (r'::rs)) = [] :=
      drop_of_length_le (by omega)
    rw [h.contents,hsrcs,dataOf_copyOnce,roomOf_skip,hdata,hroomOf,drop_append,hgone,Nat.add_sub_cancel_left]
    rfl
  · intro hz hnz
    refine h.satisfied ?_ ?_
    · rw [hfilled]
      split_ifs with hr
      · simpa [or_imp,forall_and,hr] using hz
      · exact hz
    · intro q hq
      split_ifs at hq with hr
      · exact hnz q (mem_cons_of_mem _ hq)
      · rcases mem_cons.mp hq with rfl | hq
        · exact hr
        · exact hnz q (mem_cons_of_mem _ hq)

lemma Xfer.Copied.of_segment {len n : ℕ}
    (hsrcs : x.srcs = src::srcs) (hn : n = (moved (.segment start len : Dest θ β) src).length)
    (hok : x.ring.Ok N) (hstart : len = 0 ∨ start = x.ring.writeIndex) (hlen : start+len ≤ N)
    (hroom : x.ring.bytesUsed+len ≤ N) (h : (x.copyOnce N src srcs (.segment start len) dests).Copied N []
      (if len-n = 0 then segs else (start+n,len-n)::segs) out) : x.Copied N [] ((start,len)::segs) out := by
  have hmoved := moved_length src (.segment start len : Dest θ β)
  rw [← hn] at hmoved
  have hle : n ≤ len := by simp only [hmoved,bytesToXfer]; omega
  have hdata := dataOf_moved src srcs (.segment start len)
  have hsegs : lengthOf ((start,len)::segs) = n+lengthOf ((start+n,len-n)::segs) := by
    simp only [lengthOf_cons]
    omega
  have hwrite := hok.write_bytes (moved (.segment start len : Dest θ β) src)
    (hstart.imp_left fun hz => length_eq_zero_iff.mp (by omega)) (by omega) (by omega)
  have hring : (x.copyOnce N src srcs (.segment start len) dests).ring =
    x.ring.write N start (moved (.segment start len : Dest θ β) src) := rfl
  constructor
  · rw [h.sources,hsrcs,drain_copyOnce,lengthOf_skip,hsegs,← hn]
    simp
  · rw [h.readers]
    simp [copyOnce,accept,pour]
  · rw [h.accepted,hsrcs,copies_copyOnce,restOf_copyOnce,lengthOf_skip,
      restOf_moved src srcs (.segment start len),hsegs,hn,take_append]
    simp [acceptedOf]
  · rw [h.delivered,copies_copyOnce]
    simp [deliveredOf,thread,dealt]
  · rw [h.count,hsrcs,copies_copyOnce,dataOf_copyOnce,lengthOf_skip,hdata,hsegs,hn]
    simp
    omega
  · exact h.ok
  · rw [h.contents,hsrcs,dataOf_copyOnce,lengthOf_skip,hdata,hsegs,hring,hwrite.2,hn,
      roomOf_nil,drop_zero,drop_zero,take_append]
    simp
  · intro hz hnz
    refine h.satisfied ?_ hnz
    simpa [copyOnce,accept] using hz

/-- The loop copies until there is no data or no room. -/
theorem Xfer.loop_copied (fuel : ℕ) (hdests : x.dests = destsOf rs segs)
    (hfuel : x.srcs.length+x.dests.length ≤ fuel) (hok : x.ring.Ok N)
    (hfits : Fits N x.ring.writeIndex segs) (hroom : x.ring.bytesUsed+lengthOf segs ≤ N) :
    x.Copied N rs segs (x.loop N fuel) := by
  induction fuel generalizing x rs segs with
  | zero =>
    have hsrcs : x.srcs = [] := length_eq_zero_iff.mp (by omega)
    exact .refl hok hdests (.inl hsrcs)
  | succ fuel ih =>
    rcases hsrcs : x.srcs with _ | ⟨src,srcs⟩
    · rw [loop,hsrcs]
      exact .refl hok hdests (.inl hsrcs)
    rw [hsrcs,length_cons] at hfuel
    rcases rs with _ | ⟨r,rs⟩
    · rcases segs with _ | ⟨⟨start,len⟩,segs⟩
      · rw [loop,hsrcs,show x.dests = [] from hdests]
        exact .refl hok hdests (.inr ⟨rfl,rfl⟩)
      · have hdest : x.dests = .segment start len::destsOf [] segs := hdests
        have hn := moved_length src (.segment start len : Dest θ β)
        obtain ⟨hstart,hlen,-⟩ := id hfits
        simp only [bytesToXfer] at hn
        simp only [lengthOf_cons] at hroom
        have hwrite := hok.write_bytes (moved (.segment start len : Dest θ β) src)
          (hstart.imp_left fun hz => length_eq_zero_iff.mp (by omega)) (by omega) (by omega)
        have hbound := length_copyOnce (x := x) (N := N) src srcs (.segment start len) (destsOf [] segs)
        rw [hdest,length_cons] at hfuel
        rw [loop,hsrcs,hdest]
        refine .of_segment hsrcs rfl hok hstart hlen (by omega)
          (ih (dests_copyOnce_segment ..) (by omega) hwrite.1 ?_ ?_)
        · have hnext := hfits.advance hok.write_le
            (n := (moved (.segment start len : Dest θ β) src).length) (by omega)
          exact hnext.skip hwrite.1.write_le
        · rw [lengthOf_skip,lengthOf_cons,ring_copyOnce]
          simp only [Ring.write]
          omega
    · have hdest : x.dests = .reader r::destsOf rs segs := hdests
      have hbound := length_copyOnce (x := x) (N := N) src srcs (.reader r) (destsOf rs segs)
      rw [hdest,length_cons] at hfuel
      rw [loop,hsrcs,hdest]
      exact .of_reader hsrcs rfl (ih (dests_copyOnce_reader ..) (by omega) hok hfits hroom)

theorem pipeWrite_copied {ring : Ring β} (srcs : List (Writer θ β)) (hok : ring.Ok N) (rs : List (Reader θ β)) :
    Xfer.Copied N ⟨ring,srcs,destsOf rs (ring.free N),[],[],[]⟩ rs (ring.free N)
      (pipeWrite N ring srcs (destsOf rs (ring.free N))) :=
  loop_copied _ rfl le_rfl hok hok.free_fits.1 hok.free_fits.2.le

end Write

lemma pipeWaiterListPopulate_spec {τ : Type*} (W : ℕ) (bytesToXfer : τ → ℕ) (requested available : ℕ)
    (waitQ : List τ) : (pipeWaiterListPopulate W bytesToXfer requested available waitQ).1++
        (pipeWaiterListPopulate W bytesToXfer requested available waitQ).2.1 = waitQ ∧
      ((pipeWaiterListPopulate W bytesToXfer requested available waitQ).2.1 = [] ∨
        requested ≤ available+((pipeWaiterListPopulate W bytesToXfer requested available
          waitQ).1.map bytesToXfer).sum) := by
  induction waitQ generalizing available with
  | nil => exact ⟨rfl,.inl rfl⟩
  | cons t waitQ ih =>
    have hmod := mod_le (available+bytesToXfer t) (2^W)
    rw [pipeWaiterListPopulate]
    split_ifs with h
    · refine ⟨rfl,.inr ?_⟩
      simp only [map_cons,map_nil,sum_cons,sum_nil]
      omega
    · obtain ⟨happend,henough⟩ := ih ((available+bytesToXfer t) % 2^W)
      refine ⟨by simpa using happend,henough.imp_right fun hle => ?_⟩
      simp only [map_cons,sum_cons]
      omega

section Read
variable {N : ℕ} {f : Fetch θ β}

/-- The segments of the buffer are read first; once the area is full nothing is read. -/
lemma Fetch.segments (segs : List (ℕ × ℕ)) (hok : f.ring.Ok N)
    (hfits : f.dest.room = 0 ∨ Fits N f.ring.readIndex segs)
    (hused : min f.dest.room (lengthOf segs) ≤ f.ring.bytesUsed) : ∃ ring copies,
      (segs.map fun s => Source.segment s.1 s.2).foldl (copyOnce N) f =
        ⟨ring,f.dest.accept ((f.ring.contents N).take (min f.dest.room (lengthOf segs))),f.kept,
          f.spent,f.copies++copies⟩ ∧
      ring.Ok N ∧ ring.contents N = (f.ring.contents N).drop (min f.dest.room (lengthOf segs)) ∧
      acceptedOf copies = [] ∧ deliveredOf copies =
        tag f.dest.thread ((f.ring.contents N).take (min f.dest.room (lengthOf segs))) ∧
      bytesCopied copies = min f.dest.room (lengthOf segs) := by
  induction segs generalizing f with
  | nil => exact ⟨f.ring,[],by simp,hok,by simp,rfl,by simp [deliveredOf],by simp⟩
  | cons s segs ih =>
    obtain ⟨start,len⟩ := s
    simp only [lengthOf_cons] at hused
    obtain ⟨n,hn⟩ : ∃ n, n = min f.dest.room len := ⟨_,rfl⟩
    obtain ⟨hbytes,hok',hcontents⟩ := hok.read_bytes start (n := n)
      (by rcases hfits with h | ⟨h | h,hlen,-⟩ <;> omega) (by omega)
    have hlength : ((f.ring.contents N).take n).length = n := by
      rw [length_take,contents_length]
      omega
    have hcopy : f.copyOnce N (.segment start len) =
        ⟨(f.ring.read N start n).2,f.dest.accept ((f.ring.contents N).take n),f.kept,f.spent,
          f.copies++[⟨none,some f.dest.thread,(f.ring.contents N).take n⟩]⟩ := by
      simp only [copyOnce,← hn,hbytes]
    have hsum : min f.dest.room (len+lengthOf segs) = n+min (f.dest.room-n) (lengthOf segs) := by
      omega
    obtain ⟨ring,copies,hfold,hring,hdrop,haccepted,hdelivered,hcount⟩ :=
      ih (f := f.copyOnce N (.segment start len)) (by rw [hcopy]; exact hok') (by
        rw [hcopy]
        simp only [accept_room,hlength]
        rcases hfits with h | h
        · exact .inl (by omega)
        · by_cases hz : f.dest.room-n = 0
          · exact .inl hz
          · rw [show n = len by omega]
            exact .inr h.tail) (by
        rw [hcopy]
        simp only [accept_room,hlength,Ring.read]
        omega)
    rw [hcopy] at hfold hdrop hdelivered hcount
    simp only [accept_room,accept_thread,hlength,hcontents] at hfold hdrop hdelivered hcount
    have htake : (f.ring.contents N).take n++
        ((f.ring.contents N).drop n).take (min (f.dest.room-n) (lengthOf segs)) =
        (f.ring.contents N).take (min f.dest.room (len+lengthOf segs)) := by
      rw [hsum,take_add]
    refine ⟨ring,⟨none,some f.dest.thread,(f.ring.contents N).take n⟩::copies,?_,hring,?_,?_,?_,?_⟩
    · rw [map_cons,foldl_cons,hcopy,hfold,accept_accept,lengthOf_cons,htake]
      simp
    · rw [hdrop,lengthOf_cons,hsum,drop_drop]
    · simpa [acceptedOf] using haccepted
    · rw [lengthOf_cons,← htake,tag_append,← hdelivered]
      rfl
    · rw [lengthOf_cons,hsum,← hcount]
      simp [hlength]

/-- The writers are drained in turn. -/
lemma Fetch.writers (ws : List (Writer θ β)) (f : Fetch θ β) : ∃ copies,
      (ws.map Source.writer).foldl (copyOnce N) f = ⟨f.ring,f.dest.accept ((dataOf ws).take f.dest.room),
          f.kept++(drain f.dest.room ws).filter (·.rest.length ≠ 0),
          f.spent++(drain f.dest.room ws).filter (·.rest.length = 0),f.copies++copies⟩ ∧
      acceptedOf copies = (restOf ws).take f.dest.room ∧
      deliveredOf copies = tag f.dest.thread ((dataOf ws).take f.dest.room) ∧
      bytesCopied copies = min f.dest.room (dataOf ws).length := by
  induction ws generalizing f with
  | nil => exact ⟨[],by simp [dataOf,drain],by simp [acceptedOf],by simp [deliveredOf,dataOf],
      by simp [dataOf]⟩
  | cons w ws ih =>
    have htake : w.rest.take (min f.dest.room w.rest.length) = w.rest.take f.dest.room := by
      rw [← take_take,take_length]
    have hadvance : w.advance (w.rest.take f.dest.room).length = w.advance f.dest.room := by
      rw [length_take]
      rcases le_total f.dest.room w.rest.length with h | h
      · rw [min_eq_left h]
      · simp [Writer.advance,h]
    have hroom : f.dest.room-(w.rest.take f.dest.room).length = f.dest.room-w.rest.length := by
      rw [length_take]
      omega
    have hcopy : f.copyOnce N (.writer w) =
        ⟨f.ring,f.dest.accept (w.rest.take f.dest.room),f.kept++[w.advance f.dest.room].filter (·.rest.length ≠ 0),
          f.spent++[w.advance f.dest.room].filter (·.rest.length = 0),
          f.copies++[⟨some w.thread,some f.dest.thread,w.rest.take f.dest.room⟩]⟩ := by
      simp only [copyOnce,htake,hadvance]
      by_cases h : (w.advance f.dest.room).rest.length = 0
      · simp only [filter_cons,h,if_true,ne_eq,not_true_eq_false,decide_false,decide_true,
          Bool.false_eq_true,if_false,filter_nil,append_nil]
      · simp only [filter_cons,h,if_false,ne_eq,not_false_eq_true,decide_false,decide_true,
          Bool.false_eq_true,if_true,filter_nil,append_nil]
    have hdata : (dataOf (w::ws)).take f.dest.room =
        w.rest.take f.dest.room++(dataOf ws).take (f.dest.room-w.rest.length) := by
      simp [dataOf,take_append]
    obtain ⟨copies,hfold,haccepted,hdelivered,hcount⟩ := ih (f.copyOnce N (.writer w))
    rw [hcopy] at hfold haccepted hdelivered hcount
    simp only [accept_room,accept_thread,hroom] at hfold haccepted hdelivered hcount
    refine ⟨⟨some w.thread,some f.dest.thread,w.rest.take f.dest.room⟩::copies,?_,?_,?_,?_⟩
    · rw [map_cons,foldl_cons,hcopy,hfold,accept_accept,hdata,drain]
      simp [filter_cons]
      split_ifs <;> simp
    · rw [restOf_cons,take_append,tag_length,← haccepted,← tag_take]
      rfl
    · rw [hdata,tag_append,← hdelivered]
      rfl
    · have hlength : (dataOf (w::ws)).length = w.rest.length+(dataOf ws).length := by simp [dataOf]
      rw [hlength]
      simp only [bytesCopied,map_cons,sum_cons,length_take] at hcount ⊢
      omega

def sourcesOf (segs : List (ℕ × ℕ)) (ws : List (Writer θ β)) : List (Source θ β) :=
  segs.map (fun s => Source.segment s.1 s.2)++ws.map .writer

/-- The first loop of `pipe_get_internal`, on the pipe buffer and the writers listed. -/
theorem fetch_spec {ring : Ring β} (hok : ring.Ok N) (thread : θ) (n minXfer : ℕ) (listed : List (Writer θ β)) :
    ∃ ring' copies, (sourcesOf (ring.used N) listed).foldl (copyOnce N) ⟨ring,⟨thread,[],n,minXfer⟩,[],[],[]⟩ =
        ⟨ring',(⟨thread,[],n,minXfer⟩ : Reader θ β).accept ((ring.contents N++dataOf listed).take n),
          (drain (n-ring.bytesUsed) listed).filter (·.rest.length ≠ 0),
          (drain (n-ring.bytesUsed) listed).filter (·.rest.length = 0),copies⟩ ∧
      ring'.Ok N ∧ ring'.contents N = (ring.contents N).drop n ∧
      acceptedOf copies = (restOf listed).take (n-ring.bytesUsed) ∧
      deliveredOf copies = tag thread ((ring.contents N++dataOf listed).take n) ∧
      bytesCopied copies = min n (ring.bytesUsed+(dataOf listed).length) := by
  obtain ⟨hfits,hlen⟩ := hok.used_fits
  obtain ⟨ring',copies,hfold,hok',hcontents,haccepted,hdelivered,hcount⟩ :=
    segments (f := ⟨ring,⟨thread,[],n,minXfer⟩,[],[],[]⟩) (ring.used N) hok (.inr hfits)
      (by simp only; omega)
  simp only [hlen] at hfold hcontents hdelivered hcount
  have htake : (ring.contents N).take (min n ring.bytesUsed) = (ring.contents N).take n := by
    rw [← take_take,← contents_length,take_length]
  have hdrop : (ring.contents N).drop (min n ring.bytesUsed) = (ring.contents N).drop n := by
    rcases le_total n ring.bytesUsed with h | h
    · rw [min_eq_left h]
    · rw [min_eq_right h,drop_of_length_le (by simp),drop_of_length_le (by simpa)]
  have hroom : n-((ring.contents N).take n).length = n-ring.bytesUsed := by
    rw [length_take,contents_length]
    omega
  have hall : (ring.contents N++dataOf listed).take n =
      (ring.contents N).take n++(dataOf listed).take (n-ring.bytesUsed) := by
    rw [take_append,contents_length]
  rw [htake] at hfold hdelivered
  rw [hdrop] at hcontents
  obtain ⟨copies',hfold',haccepted',hdelivered',hcount'⟩ := writers listed
    ⟨ring',(⟨thread,[],n,minXfer⟩ : Reader θ β).accept ((ring.contents N).take n),[],[],copies⟩
  simp only [accept_room,accept_thread,hroom,accept_accept,← hall] at hfold' haccepted' hdelivered' hcount'
  refine ⟨ring',copies++copies',?_,hok',hcontents,?_,?_,?_⟩
  · rw [sourcesOf,foldl_append,hfold,nil_append,hfold']
    simp
  · rw [acceptedOf_append,haccepted,haccepted',nil_append]
  · rw [deliveredOf_append,hdelivered,hdelivered',hall,tag_append]
  · rw [bytesCopied_append,hcount,hcount']
    omega

end Read
end ArmFirmware.Zephyr.Pipe
