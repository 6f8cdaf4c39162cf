import ArmFirmware.Library.Trace
import ArmFirmware.Zephyr.SpscPbuf.Layout

/-! Whole calls on a packet buffer, one after the other: what is read is what was written. -/
namespace ArmFirmware.Zephyr.SpscPbuf.Calls
open Library Function Option Calls

def EINVAL : ℤ := 22
def ENOMEM : ℤ := 12

/-- The shared memory, with what is allocated and claimed. -/
structure State where
  rd : ℕ
  wr : ℕ
  data : ℕ → Byte
  /-- The length that the last call of `spsc_pbuf_alloc` returned, until it is committed. -/
  reserved : ℕ
  /-- The index and the length that the last call of `spsc_pbuf_claim` returned, until they are freed. -/
  claimed : Option (ℕ × ℕ)

/-- `get_len` in `spsc_pbuf_init`, without a cache; a length that is too small is refused. -/
def init (blen : ℕ) : Option ℕ := if blen > 16+LEN_SZ then some ((blen-16)%2^32) else none

/-- `spsc_pbuf_init` on at most 2¹⁶+16 bytes. -/
lemma area_of_init {blen pblen : ℕ} (hinit : init blen = some pblen) (hword : 4 ∣ pblen) (hshort : blen ≤ 2^16+16) :
    Area pblen := by
  unfold init at hinit
  split_ifs at hinit with hlen
  obtain rfl := some.inj hinit
  exact ⟨hword,by omega,by omega⟩

/-- The buffer after `spsc_pbuf_init`, in memory with any contents. -/
def State.init (data : ℕ → Byte) : State := ⟨0,0,data,0,none⟩

def alloc (pblen : ℕ) (s : State) (len : ℕ) : State × ℤ :=
  if len = 0 ∨ len > SPSC_PBUF_MAX_LEN then (s,-EINVAL)
  else
    let n := allocLen pblen s.wr s.rd len
    if pads pblen s.wr s.rd len then
      ({ s with data := update s.data s.wr PADDING_MARK, wr := 0, reserved := n },n)
    else ({ s with reserved := n },n)

def commit (pblen : ℕ) (s : State) (len : ℕ) : State :=
  if len = 0 then s
  else
    { s with
      data := update (update s.data s.wr (lenHi len)) (s.wr+1) (lenLo len)
      wr := wrBehind pblen s.wr len
      reserved := 0 }

def write (pblen : ℕ) (s : State) (buf : List Byte) : State × ℤ :=
  if buf.length ≥ SPSC_PBUF_MAX_LEN then (s,-EINVAL)
  else
    let r := alloc pblen s buf.length
    if r.2 ≠ buf.length then (r.1,if r.2 < 0 then r.2 else -ENOMEM)
    else
      (commit pblen { r.1 with data := blit r.1.data (r.1.wr+LEN_SZ) buf.length fun i => buf.getD i 0 }
        buf.length,buf.length)

def claim (s : State) : State × ℕ :=
  if s.rd = s.wr then (s,0)
  else if s.data s.rd = PADDING_MARK then
    let s := { s with rd := 0 }
    if s.rd = s.wr then (s,0)
    else ({ s with claimed := some (s.rd,lenAt s.data s.rd) },lenAt s.data s.rd)
  else ({ s with claimed := some (s.rd,lenAt s.data s.rd) },lenAt s.data s.rd)

def free (pblen : ℕ) (s : State) (len : ℕ) : State :=
  let rd := rdBehind s.rd len
  { s with
    rd :=
      if rd ≠ pblen then
        if s.data rd = PADDING_MARK ∧ rd ≠ s.wr then 0 else rd
      else 0
    claimed := none }

/-- `spsc_pbuf_read` into a buffer of that length, or `none` for `NULL`. -/
def read (pblen : ℕ) (s : State) (cap : Option ℕ) : State × ℤ × Option (List Byte) :=
  let r := claim s
  if r.2 = 0 then (r.1,0,none)
  else
    match cap with
    | none => (r.1,r.2,none)
    | some cap =>
      if cap < r.2 then (r.1,-ENOMEM,none)
      else (free pblen r.1 r.2,r.2,some (payload r.1.data r.1.rd r.2))

inductive Action
  | alloc (len : ℕ)
  /-- The caller stores a byte of its packet. -/
  | fill (i : ℕ) (b : Byte)
  | commit (len : ℕ)
  | write (buf : List Byte)
  | claim
  | free
  | read (cap : Option ℕ)

inductive Reply
  | done
  | length (ret : ℤ)
  /-- The packet that `spsc_pbuf_claim` shows, empty if there is none; also the 0 of `spsc_pbuf_read`. -/
  | shown (p : List Byte)
  /-- The packet that has been freed or copied, as it was then. -/
  | taken (p : List Byte)
  deriving DecidableEq

/-- A caller commits at most what it was given, and frees what it has claimed. -/
def step (pblen : ℕ) (s : State) : Action → Option (State × Reply)
  | .alloc len => if len < 2^16 then some ((alloc pblen s len).1,.length (alloc pblen s len).2) else none
  | .fill i b =>
    if i < s.reserved then some ({ s with data := update s.data (s.wr+LEN_SZ+i) b },.done) else none
  | .commit len => if len ≤ s.reserved then some (commit pblen s len,.done) else none
  | .write buf =>
    if buf.length < 2^16 then some ((write pblen s buf).1,.length (write pblen s buf).2) else none
  | .claim =>
    let r := claim s
    some (r.1,.shown (payload r.1.data r.1.rd r.2))
  | .free => s.claimed.map fun c => (free pblen s c.2,.taken (payload s.data c.1 c.2))
  | .read cap =>
    let r := read pblen s cap
    some (r.1,match r.2.2 with
      | none => if r.2.1 = 0 then .shown [] else .length r.2.1
      | some p => .taken p)

structure Log where
  written : List (List Byte)
  read : List (List Byte)

def Log.next (g : Log) (s _ : State) : Action → Reply → Log
  | .commit len,_ => if len = 0 then g else { g with written := g.written++[payload s.data s.wr len] }
  | .write buf,.length ret => if 0 ≤ ret then { g with written := g.written++[buf] } else g
  | _,.taken p => { g with read := g.read++[p] }
  | _,_ => g

attribute [local simp] Log.next

/-- No packet is longer than the largest length with a first byte below the padding mark. -/
def Careful : Action → Prop
  | .commit len => len ≤ 0xFEFF
  | _ => True

instance (a : Action) : Decidable (Careful a) := by
  unfold Careful
  split <;> infer_instance

/-- Packets are read as they were written, in that order; a claim shows the next one, and nothing
only if all have been read. Both indices stay in the data area. -/
structure Delivers (pblen : ℕ) (x y : State × Log) (r : Reply) : Prop where
  order : y.2.read <+: y.2.written
  next : ∀ p, r = .shown p → p ≠ [] → x.2.read++[p] <+: x.2.written
  all : r = .shown [] → x.2.read = x.2.written
  inside : y.1.rd < pblen ∧ y.1.wr < pblen

/-- The packets that are still to be read lie between the indices. -/
structure Good (pblen : ℕ) (s : State) (Q : List (List Byte)) : Prop where
  indices : Indices pblen s.rd s.wr
  laid : format.Laid s.data pblen s.rd s.wr Q
  room : 0 < s.reserved → Room pblen s.rd s.wr s.reserved
  claimed : ∀ c, s.claimed = some c →
    c = (s.rd,lenAt s.data s.rd) ∧ s.rd ≠ s.wr ∧ s.data s.rd ≠ PADDING_MARK

namespace Good
variable {pblen : ℕ} {s : State} {Q : List (List Byte)}

section
variable (h : Good pblen s Q) (harea : Area pblen)
include h harea

lemma store {data : ℕ → Byte}
    (heq : ∀ x, RecordFormat.Used pblen s.rd s.wr x → s.data x = data x) : Good pblen { s with data := data } Q := by
  refine ⟨h.indices,h.laid.congr heq,h.room,fun c hc => ?_⟩
  obtain ⟨hc,hne,hmark⟩ := h.claimed c hc
  obtain ⟨h₀,h₁⟩ := used_header h.indices harea hne
  simp only [lenAt,heq _ h₀,heq _ h₁] at hc hmark
  exact ⟨hc,hne,hmark⟩

lemma fill {i : ℕ} (hi : i < s.reserved) (b : Byte) :
    Good pblen { s with data := update s.data (s.wr+LEN_SZ+i) b } Q := by
  refine h.store harea fun x hx => (update_of_ne ?_ ..).symm
  rintro rfl
  exact (h.room (by omega)).unused (by omega) (by omega) hx

lemma alloc (len : ℕ) : Good pblen (alloc pblen s len).1 Q := by
  unfold Calls.alloc
  split_ifs with hlen hpads
  · exact h
  · obtain ⟨hle,hpos⟩ := pads_bounds hpads
    have hstore : Good pblen { s with data := update s.data s.wr PADDING_MARK } Q := by
      refine h.store harea fun x hx => (update_of_ne ?_ ..).symm
      rintro rfl
      simp [RecordFormat.Used,hle] at hx
    refine ⟨⟨h.indices.rd_lt,harea.pos,h.indices.rd_word,dvd_zero 4⟩,
      hstore.laid.jump hle hpos h.indices.wr_lt (update_self ..),fun hn =>
        room_of_pads hn le_rfl hpads,fun c hc => ?_⟩
    obtain ⟨hc,-,hmark⟩ := hstore.claimed c hc
    exact ⟨hc,by simpa using hpos.ne',hmark⟩
  · exact ⟨h.indices,h.laid,fun hn => room_of_alloc hn le_rfl (by simpa using hpads),h.claimed⟩

lemma commit {len : ℕ} (hpos : 0 < len) (hle : len ≤ s.reserved)
    (hshort : len ≤ 0xFEFF) : Good pblen (commit pblen s len) (Q++[payload s.data s.wr len]) := by
  have hroom := (h.room (by omega)).mono hle
  have hstore : Good pblen
      { s with data := update (update s.data s.wr (lenHi len)) (s.wr+1) (lenLo len) } Q := by
    refine h.store harea fun x hx => ?_
    have hne : ∀ y, s.wr ≤ y → y < s.wr+LEN_SZ+len → x ≠ y := by
      rintro y h₁ h₂ rfl
      exact hroom.unused h₁ h₂ hx
    rw [update_of_ne (hne _ (by omega) (by simp only [LEN_SZ]; omega)),
      update_of_ne (hne _ le_rfl (by simp only [LEN_SZ]; omega))]
  have hroom' : Room pblen s.rd s.wr (payload s.data s.wr len).length := by simpa using hroom
  have hcommit := commit_laid hstore.laid (packet_commit hpos hshort) hroom' harea h.indices
  have hapart := commit_ne hroom' harea h.indices
  rw [payload_length] at hcommit hapart
  rw [Calls.commit,if_neg (by omega)]
  refine ⟨hcommit.2,hcommit.1,by simp,fun c hc => ?_⟩
  obtain ⟨hc,-,hmark⟩ := hstore.claimed c hc
  exact ⟨hc,hapart,hmark⟩

/-- `spsc_pbuf_write` adds a packet, or fails. -/
lemma write (buf : List Byte) : (0 ≤ (write pblen s buf).2 ∧ Good pblen (write pblen s buf).1 (Q++[buf])) ∨
      ((write pblen s buf).2 < 0 ∧ Good pblen (write pblen s buf).1 Q) := by
  unfold Calls.write
  dsimp only
  split_ifs with hlong hfull hneg
  · exact .inr ⟨by simp [EINVAL],h⟩
  · exact .inr ⟨hneg,h.alloc harea _⟩
  · exact .inr ⟨by simp [ENOMEM],h.alloc harea _⟩
  · refine .inl ⟨Int.natCast_nonneg _,?_⟩
    have hret := not_not.mp hfull
    have hpos : 0 < buf.length := by
      by_contra hzero
      have hzero : buf.length = 0 := by omega
      simp [Calls.alloc,hzero,EINVAL] at hret
    have hreserved : (Calls.alloc pblen s buf.length).1.reserved = buf.length := by
      unfold Calls.alloc at hret ⊢
      split_ifs at hret ⊢ with h₂
      · simp only [EINVAL] at hret; omega
      · dsimp only at hret
        exact_mod_cast hret
      · dsimp only at hret
        exact_mod_cast hret
    have halloc := h.alloc harea buf.length
    generalize Calls.alloc pblen s buf.length = r at halloc hreserved
    have hblit : Good pblen
        { r.1 with data := blit r.1.data (r.1.wr+LEN_SZ) buf.length fun i => buf.getD i 0 } Q := by
      refine halloc.store harea fun x hx => ?_
      rw [blit,if_neg]
      rintro ⟨h₁,h₂⟩
      exact (halloc.room (by omega)).unused (by omega) (by rw [hreserved]; exact h₂) hx
    have hbuf :
      payload (blit r.1.data (r.1.wr+LEN_SZ) buf.length fun i => buf.getD i 0) r.1.wr buf.length = buf := by
      refine List.ext_getElem (by simp) fun i h₁ h₂ => ?_
      simp [payload,blit,h₂]
    have hcommit := hblit.commit harea hpos hreserved.ge (by simp only [SPSC_PBUF_MAX_LEN] at hlong; omega)
    rwa [hbuf] at hcommit

lemma skip (hne : s.rd ≠ s.wr) (hmark : s.data s.rd = PADDING_MARK) : Good pblen { s with rd := 0 } Q := by
  obtain ⟨hwr,hlaid⟩ := h.laid.skip hne hmark
  exact ⟨⟨harea.pos,h.indices.wr_lt,dvd_zero 4,h.indices.wr_word⟩,hlaid,
    fun hn => (h.room hn).restart hwr h.indices.rd_lt.le,fun c hc => absurd hmark (h.claimed c hc).2.2⟩

/-- `spsc_pbuf_claim` shows the first packet, if there is one. -/
lemma claim : Good pblen (claim s).1 Q ∧ ((claim s).2 = 0 ∧ Q = [] ∨
      ∃ p Q', Q = p::Q' ∧ Packet (claim s).1.data (claim s).1.rd p ∧ (claim s).2 = p.length ∧
        (claim s).1.claimed = some ((claim s).1.rd,(claim s).2)) := by
  have hfound : ∀ s : State, Good pblen s Q → s.rd ≠ s.wr → s.data s.rd ≠ PADDING_MARK →
      Good pblen { s with claimed := some (s.rd,lenAt s.data s.rd) } Q ∧
        ∃ p Q', Q = p::Q' ∧ Packet s.data s.rd p ∧ lenAt s.data s.rd = p.length := by
    intro s h hne hmark
    obtain ⟨p,Q',rfl,hp⟩ := h.laid.head hne hmark h.indices.rd_lt
    refine ⟨⟨h.indices,h.laid,h.room,fun c hc => ?_⟩,p,Q',rfl,hp,hp.lenAt_eq⟩
    obtain rfl := some.inj hc
    exact ⟨rfl,hne,hmark⟩
  unfold Calls.claim
  dsimp only
  split_ifs with hempty hmark hzero
  · exact ⟨h,.inl ⟨rfl,(hempty ▸ h.laid).eq_nil⟩⟩
  · have hskip := h.skip harea hempty hmark
    have hlaid := hzero ▸ hskip.laid
    exact ⟨hskip,.inl ⟨rfl,hlaid.eq_nil⟩⟩
  · have hskip := h.skip harea hempty hmark
    have hmark' : s.data 0 ≠ PADDING_MARK := fun hmark' => Nat.not_lt_zero _ (hskip.laid.skip hzero hmark').1
    obtain ⟨hgood,p,Q',hQ,hp,hlen⟩ := hfound _ hskip hzero hmark'
    exact ⟨hgood,.inr ⟨p,Q',hQ,hp,hlen,rfl⟩⟩
  · obtain ⟨hgood,p,Q',hQ,hp,hlen⟩ := hfound s h hempty hmark
    exact ⟨hgood,.inr ⟨p,Q',hQ,hp,hlen,rfl⟩⟩

lemma free {c : ℕ × ℕ} (hc : s.claimed = some c) :
    ∃ Q', Q = payload s.data c.1 c.2::Q' ∧ Good pblen (free pblen s c.2) Q' := by
  obtain ⟨rfl,hne,hmark⟩ := h.claimed c hc
  obtain ⟨p,Q',rfl,hp⟩ := h.laid.head hne hmark h.indices.rd_lt
  have hlen := hp.lenAt_eq
  obtain ⟨rd',hrd',hlaid,hidx,hroom⟩ := free_laid h.laid hp harea h.indices
  refine ⟨Q',?_,?_⟩
  · dsimp only
    rw [hlen,← hp.bytes]
  · dsimp only
    rw [hlen]
    simp only [free,hrd']
    exact ⟨hidx,hlaid,fun hn => hroom _ (h.room hn),by simp⟩

end

end Good

/-- What was written is what was read and what is still in the buffer. -/
def Sound (pblen : ℕ) (x : State × Log) : Prop := ∃ Q, Good pblen x.1 Q ∧ x.2.written = x.2.read++Q

/-- Every careful call keeps the invariant. -/
lemma Sound.step {pblen : ℕ} {s s' : State} {g : Log} (h : Sound pblen (s,g)) (harea : Area pblen) {a : Action}
    {r : Reply} (hcare : Careful a) (hstep : step pblen s a = some (s',r)) :
    Sound pblen (s',g.next s s' a r) ∧ Delivers pblen (s,g) (s',g.next s s' a r) r := by
  obtain ⟨Q,hgood,hlog⟩ := h
  dsimp only at hgood hlog
  suffices hsuff : ∃ Q', Good pblen s' Q' ∧ (g.next s s' a r).written = (g.next s s' a r).read++Q' ∧
      (∀ p, r = .shown p → p ≠ [] → g.read++[p] <+: g.written) ∧ (r = .shown [] → g.read = g.written) by
    obtain ⟨Q',hgood',hlog',hnext,hall⟩ := hsuff
    exact ⟨⟨Q',hgood',hlog'⟩,⟨Q',hlog'.symm⟩,hnext,hall,hgood'.indices.rd_lt,hgood'.indices.wr_lt⟩
  cases a with
  | alloc len =>
    simp only [Calls.step] at hstep
    split_ifs at hstep
    cases hstep
    exact ⟨Q,hgood.alloc harea len,hlog,by simp,by simp⟩
  | fill i b =>
    simp only [Calls.step] at hstep
    split_ifs at hstep with hi
    cases hstep
    exact ⟨Q,hgood.fill harea hi b,hlog,by simp,by simp⟩
  | commit len =>
    simp only [Calls.step] at hstep
    split_ifs at hstep with hle
    cases hstep
    by_cases hzero : len = 0
    · subst hzero
      exact ⟨Q,hgood,hlog,by simp,by simp⟩
    · refine ⟨_,hgood.commit harea (by omega) hle hcare,?_,by simp,by simp⟩
      simp [hzero,hlog]
  | write buf =>
    simp only [Calls.step] at hstep
    split_ifs at hstep with hle
    cases hstep
    rcases hgood.write harea buf with ⟨hret,hgood'⟩ | ⟨hret,hgood'⟩
    · exact ⟨_,hgood',by simp [hret,hlog],by simp,by simp⟩
    · exact ⟨_,hgood',by simp [Int.not_le.mpr hret,hlog],by simp,by simp⟩
  | claim =>
    cases hstep
    obtain ⟨hgood',⟨hzero,rfl⟩ | ⟨p,Q',rfl,hp,hlen,-⟩⟩ := hgood.claim harea
    · refine ⟨[],hgood',hlog,?_,fun _ => by simpa using hlog.symm⟩
      rintro p hp hne
      simp [hzero,payload] at hp
      exact absurd hp hne
    · have hshown : payload (claim s).1.data (claim s).1.rd (claim s).2 = p := by
        rw [hlen,← hp.bytes]
      refine ⟨p::Q',hgood',hlog,?_,?_⟩
      · rintro q hq -
        rw [hshown] at hq
        obtain rfl := Reply.shown.inj hq
        exact ⟨Q',by simp [hlog]⟩
      · intro hq
        rw [hshown] at hq
        have := hp.pos
        simp [Reply.shown.inj hq] at this
  | free =>
    obtain ⟨c,hc,heq⟩ := Option.map_eq_some_iff.mp hstep
    obtain ⟨rfl,rfl⟩ := Prod.mk.inj heq
    obtain ⟨Q',rfl,hgood'⟩ := hgood.free harea hc
    exact ⟨Q',hgood',by simp [hlog],by simp,by simp⟩
  | read cap =>
    cases hstep
    obtain ⟨hgood',hclaim⟩ := hgood.claim harea
    unfold read
    by_cases hzero : (claim s).2 = 0
    · simp only [hzero,if_true]
      obtain rfl : Q = [] := by
        rcases hclaim with h | ⟨p,Q',-,hp,hlen,-⟩
        · exact h.2
        · have := hp.pos
          omega
      refine ⟨[],hgood',hlog,?_,fun _ => by simpa using hlog.symm⟩
      rintro p hp hne
      exact absurd (Reply.shown.inj hp).symm hne
    · simp only [if_neg hzero]
      obtain ⟨p,Q',rfl,hp,hlen,hclaimed⟩ := hclaim.resolve_left fun h => hzero h.1
      cases cap with
      | none => exact ⟨p::Q',hgood',by simp [hzero,hlog],by simp [hzero],by simp [hzero]⟩
      | some cap =>
        by_cases hcap : cap < (claim s).2
        · simp only [if_pos hcap]
          exact ⟨p::Q',hgood',by simp [ENOMEM,hlog],by simp [ENOMEM],by simp [ENOMEM]⟩
        · simp only [if_neg hcap]
          obtain ⟨Q'',hQ,hgood''⟩ := hgood'.free harea hclaimed
          obtain ⟨hp',rfl⟩ := List.cons.inj hQ
          exact ⟨Q',hgood'',by simp [hlog,hp'],by simp,by simp⟩

def around : List Action :=
  [.write [1,2,3,4],.claim,.free,.alloc 3,.fill 0 7,.commit 1,.read (some 8),.write [5],.claim]

end ArmFirmware.Zephyr.SpscPbuf.Calls
