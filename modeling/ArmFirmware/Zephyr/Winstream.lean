import ArmFirmware.Library.RingWindow
import ArmFirmware.Library.Trace

/-! Streams with a window (`lib/utils/winstream.c`): a writer that never waits and readers that come back with
a sequence number. Calls are made one after the other. Indices and sequence numbers have 32 bits. -/
namespace ArmFirmware.Zephyr.Winstream
open Library List Nat

/-- `struct sys_winstream` with its buffer. -/
structure Stream where
  len : ℕ
  start : ℕ
  end_ : ℕ
  seq : ℕ
  data : ℕ → BitVec 8

section Functions
variable (ws : Stream)

def idxMod (idx : ℕ) : ℕ := if idx ≥ ws.len then idx-ws.len else idx

def idxSub (a b : ℕ) : ℕ := idxMod ws ((a+(ws.len+2^32-b))%2^32)

def sysWinstreamWrite (data : ℕ → BitVec 8) (len0 : ℕ) : Stream :=
  let truncate := len0 > ws.len-1
  let start := if truncate then ws.end_ else ws.start
  let len := min (if truncate then ws.len-1 else len0) ws.len
  let avail := ws.len-1-idxSub ws ws.end_ start
  let start' := if ws.seq ≠ 0 ∧ len > avail then idxMod ws ((start+(len-avail))%2^32) else ws.start
  let start' := if len < len0 then ws.end_ else start'
  let data := if len < len0 then fun i => data (len0-len+i) else data
  let suffix := min len (ws.len-ws.end_)
  let copied := blit ws.data ws.end_ suffix data
  { ws with
    start := start'
    end_ := idxMod ws ((ws.end_+len)%2^32)
    seq := (ws.seq+len0)%2^32
    data := if len > suffix then blit copied 0 (len-suffix) fun i => data (suffix+i) else copied }

/-- `sys_winstream_read`: the sequence number and the bytes that are read. The writer does not
interfere, so the loop is left after the first pass. -/
def sysWinstreamRead (seq buflen : ℕ) : ℕ × List (BitVec 8) :=
  if seq = ws.seq ∨ ws.start = ws.end_ then (ws.seq,[])
  else
    let behind := (ws.seq+2^32-seq)%2^32
    if behind > idxSub ws ws.end_ ws.start then (ws.seq,[])
    else
      let copy := idxSub ws ws.end_ behind
      let len := min buflen behind
      let suffix := min len (ws.len-copy)
      ((seq+len)%2^32,
        (range suffix).map (fun i => ws.data (copy+i)) ++
          if len > suffix then (range (len-suffix)).map ws.data else [])

end Functions

/-- `sys_winstream_init`, in memory with any contents. -/
def init (len : ℕ) (data : ℕ → BitVec 8) : Stream := ⟨len,0,0,0,data⟩

inductive Action
  | write (data : ℕ → BitVec 8) (len : ℕ)
  | read (seq buflen : ℕ)

inductive Reply
  | done
  | bytes (seq : ℕ) (buf : List (BitVec 8))
  deriving DecidableEq

/-- Lengths and sequence numbers are numbers of 32 bits. -/
def step (ws : Stream) : Action → Option (Stream × Reply)
  | .write data len => if len < 2^32 then some (sysWinstreamWrite ws data len,.done) else none
  | .read seq buflen =>
    if seq < 2^32 ∧ buflen < 2^32 then
      let r := sysWinstreamRead ws seq buflen
      some (ws,.bytes r.1 r.2)
    else none

/-- All bytes written so far. -/
structure Log where
  total : ℕ
  byte : ℕ → BitVec 8

def Log.empty : Log := ⟨0,fun _ => 0⟩

def Log.next (g : Log) (_ _ : Stream) : Action → Reply → Log
  | .write data len,_ => ⟨g.total+len,blit g.byte g.total len data⟩
  | _,_ => g

/-- As many bytes as a stream of that capacity is to hold. -/
def Log.held (g : Log) (cap : ℕ) : ℕ := min g.total (cap-1)

def Log.since (g : Log) (pos n : ℕ) : List (BitVec 8) := (range n).map fun i => g.byte (pos+i)

/-- What a read must return: the bytes from its sequence number on if they are there, and nothing else. -/
def Log.read (g : Log) (cap seq buflen : ℕ) : Reply :=
  let behind := (g.total+(2^32-seq))%2^32
  if 0 < behind ∧ behind ≤ g.held cap then
    .bytes ((seq+min buflen behind)%2^32) (g.since (g.total-behind) (min buflen behind))
  else .bytes (g.total%2^32) []

/-- The window has the last bytes. -/
def Holds (cap : ℕ) (ws : Stream) (g : Log) : Prop :=
  idxSub ws ws.end_ ws.start = g.held cap ∧
    ringRead ws.data cap ws.start (g.held cap) = g.since (g.total-g.held cap) (g.held cap)

/-- Nothing is written at sequence number 0 unless the stream is empty. -/
def Careful (ws : Stream) : Action → Prop
  | .write _ len => 0 < len → ws.seq = 0 → ws.start = ws.end_
  | .read .. => True

instance (ws : Stream) (a : Action) : Decidable (Careful ws a) := by
  unfold Careful
  split <;> infer_instance

/-- The indices, the sequence number and the buffer follow the log. -/
structure Good (cap : ℕ) (ws : Stream) (g : Log) : Prop where
  len : ws.len = cap
  end_lt : ws.end_ < cap
  start : ws.start = (ws.end_+cap-g.held cap)%cap
  seq : ws.seq = g.total%2^32
  data : ringRead ws.data cap (ws.end_+cap-g.held cap) (g.held cap) = g.since (g.total-g.held cap) (g.held cap)

section Indices
variable {cap : ℕ} {ws : Stream} {g : Log} {data : ℕ → BitVec 8}

lemma idxMod_eq (hlen : ws.len = cap) {x : ℕ} (hx : x < 2*cap) : idxMod ws x = x%cap := by
  rw [idxMod,hlen]
  split_ifs with h
  · rw [mod_eq_sub_mod h,mod_eq_of_lt (by omega)]
  · rw [mod_eq_of_lt (by omega)]

lemma idxSub_eq (hlen : ws.len = cap) (hcap : cap < 2^31) {a b : ℕ} (ha : a < cap) (hb : b ≤ cap) :
    idxSub ws a b = (a+cap-b)%cap := by
  rw [idxSub,hlen,show a+(cap+2^32-b) = a+cap-b+2^32 by omega,add_mod_right,mod_eq_of_lt (by omega),
    idxMod_eq hlen (by omega)]

/-- An index that lies `held` cells before another one. -/
lemma sub_mod_sub {e h : ℕ} (he : e < cap) (hh : h < cap) : (e+cap-(e+cap-h)%cap)%cap = h := by
  by_cases hle : h ≤ e
  · rw [show e+cap-h = e-h+cap by omega,add_mod_right,mod_eq_of_lt (a := e-h) (by omega),
      show e+cap-(e-h) = h+cap by omega,add_mod_right,mod_eq_of_lt hh]
  · rw [mod_eq_of_lt (a := e+cap-h) (by omega),show e+cap-(e+cap-h) = h by omega,mod_eq_of_lt hh]

lemma copied_eq {m src : ℕ → BitVec 8} {e n : ℕ} (he : e < cap) :
    (if n > min n (cap-e) then blit (blit m e (min n (cap-e)) src) 0 (n-min n (cap-e)) fun i => src (min n (cap-e)+i)
      else blit m e (min n (cap-e)) src) = ringWrite m cap e n src := by
  simp only [ringWrite,mod_eq_of_lt he]
  split_ifs with hlt
  · rfl
  · have hzero : n-min n (cap-e) = 0 := by omega
    funext i
    rw [hzero,blit,blit,if_neg (show ¬(0 ≤ i ∧ i < 0+0) by omega),blit]

lemma held_lt (hpos : 0 < cap) : g.held cap < cap := by
  rw [Log.held]
  omega

namespace Good

lemma size (h : Good cap ws g) (hcap : cap < 2^31) : idxSub ws ws.end_ ws.start = g.held cap := by
  have hend := h.end_lt
  have hheld := held_lt (g := g) (show 0 < cap by omega)
  have hstart : (ws.end_+cap-g.held cap)%cap < cap := mod_lt _ (by omega)
  rw [idxSub_eq h.len hcap hend (by rw [h.start]; omega),h.start,sub_mod_sub hend hheld]

lemma start_eq_end_iff (h : Good cap ws g) : ws.start = ws.end_ ↔ g.held cap = 0 := by
  have hend := h.end_lt
  have hheld := held_lt (g := g) (show 0 < cap by omega)
  rw [h.start]
  constructor
  · intro heq
    have hsub := sub_mod_sub hend hheld
    rw [heq,Nat.add_sub_cancel_left,Nat.mod_self] at hsub
    exact hsub.symm
  · intro hzero
    rw [hzero,Nat.sub_zero,Nat.add_mod_right,Nat.mod_eq_of_lt hend]

lemma window (h : Good cap ws g) {b k : ℕ} (hb : b ≤ g.held cap) (hk : k ≤ b) :
    ringRead ws.data cap (ws.end_+cap-b) k = g.since (g.total-b) k := by
  have hpos : 0 < cap := zero_lt_of_lt h.end_lt
  have hheld := held_lt (g := g) hpos
  have htotal : g.held cap ≤ g.total := min_le_left _ _
  apply map_congr_left
  intro i hi
  have hi := mem_range.mp hi
  have hbyte := map_inj_left.mp h.data (g.held cap-b+i) (mem_range.mpr (by omega))
  rwa [show ws.end_+cap-g.held cap+(g.held cap-b+i) = ws.end_+cap-b+i by omega,
    show g.total-g.held cap+(g.held cap-b+i) = g.total-b+i by omega] at hbyte

end Good

lemma write_truncated (hlen : ws.len = cap) (hcap : cap < 2^31) (hend : ws.end_ < cap) {n : ℕ} (hn : cap-1 < n) :
    sysWinstreamWrite ws data n =
      { ws with
        start := ws.end_
        end_ := (ws.end_+(cap-1))%cap
        seq := (ws.seq+n)%2^32
        data := ringWrite ws.data cap ws.end_ (cap-1) fun i => data (n-(cap-1)+i) } := by
  have hmin : min (cap-1) cap = cap-1 := min_eq_left (by omega)
  have hmod : (ws.end_+(cap-1))%2^32 = ws.end_+(cap-1) := mod_eq_of_lt (by omega)
  simp only [sysWinstreamWrite,hlen,gt_iff_lt,hn,if_true,hmin,hmod,
    idxMod_eq hlen (show ws.end_+(cap-1) < 2*cap by omega)]
  congr 1
  exact copied_eq hend

lemma write_fits (h : Good cap ws g) (hcap : cap < 2^31) {n : ℕ} (hn : n ≤ cap-1)
    (hcare : Careful ws (.write data n)) : sysWinstreamWrite ws data n = { ws with
        start := (ws.end_+cap-g.held cap+(g.held cap+n-(cap-1)))%cap
        end_ := (ws.end_+n)%cap
        seq := (ws.seq+n)%2^32
        data := ringWrite ws.data cap ws.end_ n data } := by
  have hend := h.end_lt
  have hheld := held_lt (g := g) (show 0 < cap by omega)
  have hmin : min n cap = n := min_eq_left (by omega)
  have hmod : (ws.end_+n)%2^32 = ws.end_+n := mod_eq_of_lt (by omega)
  have hstart := h.start ▸ mod_lt _ (by omega)
  simp only [sysWinstreamWrite,h.len,gt_iff_lt,not_lt.mpr hn,if_false,hmin,hmod,lt_irrefl,h.size hcap,
    idxMod_eq h.len (show ws.end_+n < 2*cap by omega)]
  congr 1
  · by_cases hdrop : ws.seq ≠ 0 ∧ cap-1-g.held cap < n
    · rw [if_pos hdrop,mod_eq_of_lt (by omega),idxMod_eq h.len (by omega),h.start,mod_add_mod]
      congr 2
      omega
    · -- the stream is empty at sequence number 0
      have hnone : g.held cap+n-(cap-1) = 0 := by
        by_cases hseq : ws.seq = 0
        · by_cases hzero : n = 0
          · omega
          · have := h.start_eq_end_iff.mp (hcare (pos_of_ne_zero hzero) hseq)
            omega
        · omega
      rw [if_neg hdrop,h.start,hnone,add_zero]
  · exact copied_eq hend

lemma since_split (g : Log) (pos a b : ℕ) : g.since pos (a+b) = g.since pos a++g.since (pos+a) b := by
  simp only [Log.since,range_add,map_append,map_map]
  congr 1
  apply map_congr_left
  intro i _
  simp [add_assoc]

lemma since_old (g : Log) (data : ℕ → BitVec 8) {pos k n : ℕ} (hk : pos+k ≤ g.total) :
    Log.since ⟨g.total+n,blit g.byte g.total n data⟩ pos k = g.since pos k := by
  apply map_congr_left
  intro i hi
  have hi := mem_range.mp hi
  exact if_neg (by omega)

lemma since_new (g : Log) (data : ℕ → BitVec 8) {d k n : ℕ} (hk : d+k ≤ n) :
    Log.since ⟨g.total+n,blit g.byte g.total n data⟩ (g.total+d) k = (range k).map fun i => data (d+i) := by
  apply map_congr_left
  intro i hi
  have hi := mem_range.mp hi
  dsimp only
  rw [blit,if_pos (by omega)]
  congr 1
  omega

lemma held_write (n : ℕ) (byte : ℕ → BitVec 8) : Log.held ⟨g.total+n,byte⟩ cap = min (g.held cap+n) (cap-1) := by
  simp only [Log.held]
  omega

/-- Of a long write the last bytes are left. -/
lemma Good.write_truncated (h : Good cap ws g) (hcap : cap < 2^31) {n : ℕ} (hn : cap-1 < n) :
    Good cap (sysWinstreamWrite ws data n) ⟨g.total+n,blit g.byte g.total n data⟩ := by
  have hend := h.end_lt
  have hpos : 0 < cap := by omega
  have hheld : Log.held ⟨g.total+n,blit g.byte g.total n data⟩ cap = cap-1 := by
    rw [held_write]
    omega
  have hback : ((ws.end_+(cap-1))%cap+cap-(cap-1))%cap = ws.end_ := by
    rw [show (ws.end_+(cap-1))%cap+cap-(cap-1) = (ws.end_+(cap-1))%cap+1 by omega,mod_add_mod,
      show ws.end_+(cap-1)+1 = ws.end_+cap by omega,add_mod_right,mod_eq_of_lt hend]
  rw [Winstream.write_truncated h.len hcap hend hn]
  constructor
  · exact h.len
  · exact mod_lt _ hpos
  · rw [hheld]
    exact hback.symm
  · show (ws.seq+n)%2^32 = (g.total+n)%2^32
    rw [h.seq,mod_add_mod]
  · rw [hheld]
    rw [ringRead_of_mod (hback.trans (mod_eq_of_lt hend).symm) (cap-1),
      show g.total+n-(cap-1) = g.total+(n-(cap-1)) by omega,since_new g data (by omega)]
    have hread : ringRead (ringWrite ws.data cap ws.end_ (cap-1) fun i => data (n-(cap-1)+i)) cap ws.end_
      (0+(cap-1)) = _ :=
      ringRead_ringWrite hpos rfl (by omega)
    rwa [zero_add,ringRead_zero,nil_append] at hread

/-- A write that fits pushes out the oldest bytes. -/
lemma Good.write_fits (h : Good cap ws g) (hcap : cap < 2^31) {n : ℕ} (hn : n ≤ cap-1)
    (hcare : Careful ws (.write data n)) :
    Good cap (sysWinstreamWrite ws data n) ⟨g.total+n,blit g.byte g.total n data⟩ := by
  have hend := h.end_lt
  have hpos : 0 < cap := by omega
  have hheld := held_lt (g := g) hpos
  have htotal : g.held cap ≤ g.total := min_le_left _ _
  -- the first byte that stays
  obtain ⟨d,hd⟩ : ∃ d, d = g.held cap+n-(cap-1) := ⟨_,rfl⟩
  have hnew : Log.held ⟨g.total+n,blit g.byte g.total n data⟩ cap = g.held cap-d+n := by
    rw [held_write]
    omega
  have hback : ((ws.end_+n)%cap+cap-(g.held cap-d+n))%cap = (ws.end_+cap-g.held cap+d)%cap := by
    rw [show (ws.end_+n)%cap+cap-(g.held cap-d+n) = (ws.end_+n)%cap+(cap-(g.held cap-d+n)) by omega,mod_add_mod]
    congr 1
    omega
  rw [Winstream.write_fits h hcap hn hcare,← hd]
  constructor
  · exact h.len
  · exact mod_lt _ hpos
  · rw [hnew]
    exact hback.symm
  · show (ws.seq+n)%2^32 = (g.total+n)%2^32
    rw [h.seq,mod_add_mod]
  · rw [hnew]
    dsimp only
    have hold : ringRead ws.data cap (ws.end_+cap-g.held cap+d) (g.held cap-d) = g.since (g.total-(g.held cap-d))
      (g.held cap-d) := by
      rw [show ws.end_+cap-g.held cap+d = ws.end_+cap-(g.held cap-d) by omega]
      exact h.window (sub_le _ _) le_rfl
    have hturn : ringRead (ringWrite ws.data cap ws.end_ n data) cap (ws.end_+cap-g.held cap+d) (g.held cap-d+n) =
        ringRead ws.data cap (ws.end_+cap-g.held cap+d) (g.held cap-d)++(range n).map data := by
      have hwrite : ringWrite ws.data cap ws.end_ n data = ringWrite ws.data cap (ws.end_+cap) n data := by
        rw [ringWrite,ringWrite,add_mod_right]
      rw [hwrite,ringRead_ringWrite hpos (by omega) (by omega)]
    rw [ringRead_of_mod hback,hturn,hold,since_split,since_old g data (by omega),
      show g.total+n-(g.held cap-d+n)+(g.held cap-d) = g.total+0 by omega,since_new g data (by omega)]
    simp only [zero_add]
    congr 2
    omega

/-- `sys_winstream_read` reads what the log has. -/
lemma Good.read (h : Good cap ws g) (hcap : cap < 2^31) {seq buflen : ℕ} (hseq : seq < 2^32) :
    (let r := sysWinstreamRead ws seq buflen; Reply.bytes r.1 r.2) = g.read cap seq buflen := by
  have hend := h.end_lt
  have hpos : 0 < cap := by omega
  have hheld := held_lt (g := g) hpos
  have hbehind : (ws.seq+2^32-seq)%2^32 = (g.total+(2^32-seq))%2^32 := by
    rw [show ws.seq+2^32-seq = ws.seq+(2^32-seq) by omega,h.seq,mod_add_mod]
  obtain ⟨b,hb⟩ : ∃ b, b = (g.total+(2^32-seq))%2^32 := ⟨_,rfl⟩
  have hlt := h.seq ▸ mod_lt _ (by omega)
  have hzero : seq = ws.seq ↔ b = 0 := by
    rw [hb,← hbehind]
    omega
  simp only [Log.read,sysWinstreamRead,h.size hcap,hbehind,← hb,hzero,h.start_eq_end_iff]
  by_cases hthere : 0 < b ∧ b ≤ g.held cap
  · obtain ⟨hfirst,hlast⟩ := hthere
    have hcopy : idxSub ws ws.end_ b = (ws.end_+cap-b)%cap := idxSub_eq h.len hcap hend (by omega)
    rw [if_neg (show ¬(b = 0 ∨ g.held cap = 0) by omega),if_neg (show ¬b > g.held cap by omega),
      if_pos (show 0 < b ∧ b ≤ g.held cap from ⟨hfirst,hlast⟩),hcopy,h.len,
      ← h.window hlast (min_le_right buflen b),ringRead_pieces hpos (by omega)]
    congr 2
    split_ifs with hmore
    · rfl
    · rw [show min buflen b-min (min buflen b) (cap-(ws.end_+cap-b)%cap) = 0 by omega]
      rfl
  · rw [if_neg hthere,h.seq]
    split_ifs <;> first | rfl | omega

end Indices

lemma init_good {cap : ℕ} (hpos : 0 < cap) (data : ℕ → BitVec 8) : Good cap (init cap data) Log.empty := by
  constructor
  · rfl
  · exact hpos
  · simp [init,Log.held,Log.empty]
  · rfl
  · simp [Log.held,Log.empty,Log.since]

/-- What holds of each call: the stream then holds the last bytes, and a read has returned what it must. -/
def Streamed (cap : ℕ) (x y : Stream × Log) (a : Action) (r : Reply) : Prop :=
  Holds cap y.1 y.2 ∧ ∀ seq buflen, a = .read seq buflen → r = x.2.read cap seq buflen

lemma Good.holds {cap : ℕ} {ws : Stream} {g : Log} (h : Good cap ws g) (hcap : cap < 2^31) : Holds cap ws g := by
  refine ⟨h.size hcap,?_⟩
  rw [← h.window le_rfl le_rfl]
  apply ringRead_of_mod
  rw [h.start,mod_mod]

lemma Good.step {cap : ℕ} {ws ws' : Stream} {g : Log} {a : Action} {r : Reply} (h : Good cap ws g)
    (hcap : cap < 2^31) (hcare : Careful ws a) (hs : Winstream.step ws a = some (ws',r)) :
    Good cap ws' (g.next ws ws' a r) ∧ Streamed cap (ws,g) (ws',g.next ws ws' a r) a r := by
  cases a with
  | write data n =>
    simp only [Winstream.step,Option.ite_none_right_eq_some,Option.some.injEq,Prod.mk.injEq] at hs
    obtain ⟨-,rfl,rfl⟩ := hs
    have hgood : Good cap (sysWinstreamWrite ws data n) ⟨g.total+n,blit g.byte g.total n data⟩ := by
      by_cases hn : cap-1 < n
      · exact h.write_truncated hcap hn
      · exact h.write_fits hcap (by omega) hcare
    exact ⟨hgood,hgood.holds hcap,by simp⟩
  | read seq buflen =>
    simp only [Winstream.step,Option.ite_none_right_eq_some,Option.some.injEq,Prod.mk.injEq] at hs
    obtain ⟨⟨hseq,-⟩,rfl,rfl⟩ := hs
    refine ⟨h,h.holds hcap,?_⟩
    rintro _ _ ⟨⟩
    exact h.read hcap hseq

/-- For every capacity and every sequence of writes and reads, of whatever total length: if nothing
is written at sequence number 0 unless the stream is empty, then the stream always holds the last
bytes written, and a read returns the bytes from its sequence number on as long as they are held,
and otherwise goes to the end. -/
theorem runs_hold_last_bytes (cap : ℕ) (hpos : 0 < cap) (hcap : cap < 2^31) (data : ℕ → BitVec 8) (as : List Action)
    (hrun : Along (fun ws a => (step ws a).isSome ∧ Careful ws a) step (init cap data) as) :
    ∃ x os, serve? (recording step Log.next) (init cap data,Log.empty) as = some (x,os) ∧
      Trace (fun x a r y => Streamed cap x y a r) (init cap data,Log.empty) as os x := by
  exact Trace.of_recording (fun ws g a ws' r hgood hcare hs => hgood.step hcap hcare hs) (init_good hpos data) hrun

def counting : ℕ → BitVec 8 := BitVec.ofNat 8

def beyondTheCounter : List Action :=
  [.write counting 2,.read 0 8,.write counting 3,.read 0 8,.read 2 8,.write counting (2^32-3),.read (2^32-1) 8]

theorem runs_hold_last_bytes_four :
    ∃ x os, serve? (recording step Log.next) (init 4 fun _ => 0,Log.empty) beyondTheCounter = some (x,os) ∧
      Trace (fun x a r y => Streamed 4 x y a r) (init 4 fun _ => 0,Log.empty) beyondTheCounter os x :=
  runs_hold_last_bytes 4 (by norm_num) (by norm_num) _ beyondTheCounter (by decide +kernel)

/-- After 2^32 bytes the counter is 0 again and the next byte makes a full stream an empty one. -/
theorem empties_at_sequence_zero :
    ∃ x os, serve? (recording step Log.next) (init 4 fun _ => 0,Log.empty)
        [.write counting (2^32-1),.write (fun _ => 7) 1,.write (fun _ => 8) 1,.read (2^32-1) 8] = some (x,os) ∧
      os = [.done,.done,.done,.bytes 1 []] ∧ x.2.read 4 (2^32-1) 8 = .bytes 1 [7,8] ∧
      idxSub x.1 x.1.end_ x.1.start = 0 ∧ x.2.held 4 = 3 :=
  ⟨_,_,rfl,by decide +kernel,by decide +kernel,by decide +kernel,by decide +kernel⟩

end ArmFirmware.Zephyr.Winstream
