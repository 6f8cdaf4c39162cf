import ArmFirmware.Library.Trace
import ArmFirmware.Zephyr.SpscPbuf.Layout

/-! A packet buffer whose producer and consumer run at the same time. Every load and every store of
the indices and of the data is a step of its own. -/
namespace ArmFirmware.Zephyr.SpscPbuf.Accesses
open Library List Function Accesses
open Library.RecordFormat (Used)

/-- Where the producer is: between two calls, or before an access of a call, with its local variables. -/
inductive Producer
  /-- The address and the length of the packet that may be filled. -/
  | ready (buf reserved : ℕ)
  | allocWr (len : ℕ)
  | allocRd (len wr : ℕ)
  | allocMark (len wr rd : ℕ)
  | allocStore (len wr rd : ℕ)
  | commitWr (len : ℕ)
  | commitHi (len wr : ℕ)
  | commitLo (len wr : ℕ)
  | commitStore (len wr : ℕ)
  deriving DecidableEq

inductive Consumer
  /-- The address and the length of the packet that has been claimed. -/
  | ready (claimed : Option (ℕ × ℕ))
  | claimWr
  | claimRd (wr : ℕ)
  | claimMark (wr rd : ℕ)
  | claimAgain (wr rd : ℕ)
  | claimSkip (wr : ℕ)
  | claimHi (rd : ℕ)
  | claimLo (rd : ℕ) (hi : Byte)
  | freeRd (len : ℕ)
  | freeMark (rd : ℕ)
  | freeWr (rd : ℕ)
  | freeStore (rd : ℕ)
  deriving DecidableEq

/-- The shared memory, and where both sides are. -/
structure State where
  rd : ℕ
  wr : ℕ
  data : ℕ → Byte
  producer : Producer
  consumer : Consumer

/-- The buffer after `spsc_pbuf_init`, in memory with any contents. -/
def State.init (data : ℕ → Byte) : State := ⟨0,0,data,.ready 0 0,.ready none⟩

inductive Action
  | alloc (len : ℕ)
  /-- The producer stores a byte of its packet, in `memcpy` of `spsc_pbuf_write` or on its own. -/
  | fill (i : ℕ) (b : Byte)
  | commit (len : ℕ)
  /-- The next access of the producer's call. -/
  | produce
  | claim
  /-- The consumer loads a byte of its packet. -/
  | load (i : ℕ)
  | free
  /-- The next access of the consumer's call. -/
  | consume

inductive Reply
  | done
  | invalid
  /-- `spsc_pbuf_alloc` returns. -/
  | allocated (len : ℕ)
  /-- `spsc_pbuf_claim` returns 0. -/
  | nothing
  /-- `spsc_pbuf_claim` returns a packet. -/
  | claimed (len : ℕ)
  | byte (i : ℕ) (b : Byte)
  /-- `spsc_pbuf_free` returns. -/
  | freed
  deriving DecidableEq

def produce (pblen : ℕ) (s : State) : Option (State × Reply) :=
  match s.producer with
  | .ready .. => none
  | .allocWr len => some ({ s with producer := .allocRd len s.wr },.done)
  | .allocRd len wr =>
    if pads pblen wr s.rd len then some ({ s with producer := .allocMark len wr s.rd },.done)
    else
      let n := allocLen pblen wr s.rd len
      some ({ s with producer := .ready (wr+LEN_SZ) n },.allocated n)
  | .allocMark len wr rd =>
    some ({ s with data := update s.data wr PADDING_MARK, producer := .allocStore len wr rd },.done)
  | .allocStore len wr rd =>
    let n := allocLen pblen wr rd len
    some ({ s with wr := 0, producer := .ready (0+LEN_SZ) n },.allocated n)
  | .commitWr len => some ({ s with producer := .commitHi len s.wr },.done)
  | .commitHi len wr =>
    some ({ s with data := update s.data wr (lenHi len), producer := .commitLo len wr },.done)
  | .commitLo len wr =>
    some ({ s with data := update s.data (wr+1) (lenLo len), producer := .commitStore len wr },.done)
  | .commitStore len wr => some ({ s with wr := wrBehind pblen wr len, producer := .ready 0 0 },.done)

def consume (pblen : ℕ) (s : State) : Option (State × Reply) :=
  match s.consumer with
  | .ready _ => none
  | .claimWr => some ({ s with consumer := .claimRd s.wr },.done)
  | .claimRd wr =>
    if s.rd = wr then some ({ s with consumer := .ready none },.nothing)
    else some ({ s with consumer := .claimMark wr s.rd },.done)
  | .claimMark wr rd =>
    if s.data rd = PADDING_MARK then some ({ s with consumer := .claimAgain wr rd },.done)
    else some ({ s with consumer := .claimHi rd },.done)
  | .claimAgain wr rd =>
    if rd = s.wr then some ({ s with consumer := .ready none },.nothing)
    else some ({ s with consumer := .claimSkip wr },.done)
  | .claimSkip wr =>
    if 0 = wr then some ({ s with rd := 0, consumer := .ready none },.nothing)
    else some ({ s with rd := 0, consumer := .claimHi 0 },.done)
  | .claimHi rd => some ({ s with consumer := .claimLo rd (s.data rd) },.done)
  | .claimLo rd hi =>
    let len := getBe16 hi (s.data (rd+1))
    some ({ s with consumer := .ready (some (rd+LEN_SZ,len)) },.claimed len)
  | .freeRd len =>
    let rd := rdBehind s.rd len
    if rd ≠ pblen then some ({ s with consumer := .freeMark rd },.done)
    else some ({ s with consumer := .freeStore 0 },.done)
  | .freeMark rd =>
    if s.data rd = PADDING_MARK then some ({ s with consumer := .freeWr rd },.done)
    else some ({ s with consumer := .freeStore rd },.done)
  | .freeWr rd =>
    if rd ≠ s.wr then some ({ s with consumer := .freeStore 0 },.done)
    else some ({ s with consumer := .freeStore rd },.done)
  | .freeStore rd => some ({ s with rd := rd, consumer := .ready none },.freed)

/-- The producer commits at most what it was given, and the consumer frees what it has claimed. -/
def step (pblen : ℕ) (s : State) : Action → Option (State × Reply)
  | .alloc len =>
    match s.producer with
    | .ready .. =>
      if 2^16 ≤ len then none
      else if len = 0 ∨ len > SPSC_PBUF_MAX_LEN then some (s,.invalid)
      else some ({ s with producer := .allocWr len },.done)
    | _ => none
  | .fill i b =>
    match s.producer with
    | .ready buf n => if i < n then some ({ s with data := update s.data (buf+i) b },.done) else none
    | _ => none
  | .commit len =>
    match s.producer with
    | .ready _ n =>
      if n < len then none
      else if len = 0 then some (s,.done)
      else some ({ s with producer := .commitWr len },.done)
    | _ => none
  | .produce => produce pblen s
  | .claim =>
    match s.consumer with
    | .ready _ => some ({ s with consumer := .claimWr },.done)
    | _ => none
  | .load i =>
    match s.consumer with
    | .ready (some (buf,len)) => if i < len then some (s,.byte i (s.data (buf+i))) else none
    | _ => none
  | .free =>
    match s.consumer with
    | .ready (some (_,len)) => some ({ s with consumer := .freeRd len },.done)
    | _ => none
  | .consume => consume pblen s

/-- The packets that have been committed and those that have been freed, and how many had been
committed when `spsc_pbuf_claim` loaded the writer's index. -/
structure Log where
  committed : List (List Byte)
  freed : List (List Byte)
  asked : ℕ

def Log.empty : Log := ⟨[],[],0⟩

def Log.next (g : Log) (s _ : State) : Action → Reply → Log
  | .produce,_ =>
    match s.producer with
    | .commitStore len wr => { g with committed := g.committed++[payload s.data wr len] }
    | _ => g
  | .consume,_ =>
    match s.consumer with
    | .claimWr => { g with asked := g.committed.length }
    | .freeStore _ => { g with freed := g.freed++[payload s.data s.rd (lenAt s.data s.rd)] }
    | _ => g
  | _,_ => g

attribute [local simp] Log.next

/-- A packet is committed while `spsc_pbuf_free` has taken the byte at its place for padding and has
not yet loaded the writer's index. -/
def Mistaken (s : State) : Prop :=
  match s.producer,s.consumer with
  | .commitStore _ wr,.freeWr rd => rd = wr
  | _,_ => False

instance (s : State) : Decidable (Mistaken s) := by
  unfold Mistaken
  split <;> infer_instance

/-- No packet is committed behind the back of `spsc_pbuf_free`, and none is longer than the largest
length with a first byte below the padding mark. -/
def Careful (s : State) : Action → Prop
  | .produce => ¬Mistaken s
  | .commit len => len ≤ 0xFEFF
  | _ => True

instance (s : State) (a : Action) : Decidable (Careful s a) := by
  unfold Careful
  split <;> infer_instance

/-- Packets are freed as they were committed, in that order; what is claimed and loaded is the next
one, and a claim finds nothing only if all that had been committed when it began had been freed. -/
structure Delivers (x y : State × Log) (r : Reply) : Prop where
  order : y.2.freed <+: y.2.committed
  length : ∀ n, r = .claimed n → ∃ p, x.2.freed++[p] <+: x.2.committed ∧ p.length = n
  byte : ∀ i b, r = .byte i b → ∃ p, x.2.freed++[p] <+: x.2.committed ∧ p[i]? = some b
  all : r = .nothing → x.2.freed.length = x.2.asked

section Views
variable (pblen : ℕ) (data : ℕ → Byte) (rd wr : ℕ)

/-- A packet has room at the writer's index. -/
structure Put (len : ℕ) : Prop where
  pos : 0 < len
  short : len ≤ 0xFEFF
  room : Room pblen rd wr len

/-- Padding follows, as it was decided when the reader's index was `r`. -/
structure Pad (len r : ℕ) : Prop where
  pads : pads pblen wr r len = true
  le : r ≤ rd
  rd_le : rd ≤ wr

def ProducerOk : Producer → Prop
  | .ready buf n => 0 < n → buf = wr+LEN_SZ ∧ Room pblen rd wr n
  | .allocWr _ => True
  | .allocRd _ w => w = wr
  | .allocMark len w r => w = wr ∧ Pad pblen rd wr len r
  | .allocStore len w r => w = wr ∧ Pad pblen rd wr len r ∧ data wr = PADDING_MARK
  | .commitWr len => Put pblen rd wr len
  | .commitHi len w => w = wr ∧ Put pblen rd wr len
  | .commitLo len w => w = wr ∧ Put pblen rd wr len ∧ data wr = lenHi len
  | .commitStore len w => w = wr ∧ Put pblen rd wr len ∧ data wr = lenHi len ∧ data (wr+1) = lenLo len

/-- A packet is at the read index. -/
structure Front : Prop where
  ne : rd ≠ wr
  packet : data rd ≠ PADDING_MARK

/-- The writer's index was `w` with the first `k` packets before it. -/
structure Seen (Q : List (List Byte)) (k w : ℕ) : Prop where
  laid : format.Laid data pblen rd w (Q.take k)
  le : k ≤ Q.length
  used : ∀ x, Used pblen rd w x → Used pblen rd wr x

/-- Where the first packet ends in the data area. -/
structure Past (r : ℕ) : Prop where
  eq : r = rdBehind rd (lenAt data rd)
  lt : rd < r
  inside : r < pblen

/-- Where the reader goes on: behind the packet, or at the start if the data area ends there or padding
follows. -/
def Next (v : ℕ) : Prop :=
  Past pblen data rd v ∨
    v = 0 ∧ wr < rd ∧ (rdBehind rd (lenAt data rd) = pblen ∨ ∃ r, Past pblen data rd r ∧ data r = PADDING_MARK)

/-- What the consumer knows, with the packets between the indices. -/
def ConsumerOk (Q : List (List Byte)) (k : ℕ) : Consumer → Prop
  | .ready none => True
  | .ready (some c) => Front data rd wr ∧ c = (rd+LEN_SZ,lenAt data rd)
  | .claimWr => True
  | .claimRd w => Seen pblen data rd wr Q k w
  | .claimMark w r => r = rd ∧ Seen pblen data rd wr Q k w ∧ rd ≠ w
  | .claimAgain w r => r = rd ∧ Seen pblen data rd wr Q k w ∧ rd ≠ w ∧ data rd = PADDING_MARK
  | .claimSkip w => Seen pblen data rd wr Q k w ∧ rd ≠ w ∧ data rd = PADDING_MARK
  | .claimHi r => r = rd ∧ Front data rd wr
  | .claimLo r hi => r = rd ∧ Front data rd wr ∧ hi = data rd
  | .freeRd len => Front data rd wr ∧ len = lenAt data rd
  | .freeMark r => Front data rd wr ∧ Past pblen data rd r
  | .freeWr r => Front data rd wr ∧ Past pblen data rd r ∧ (r = wr ∨ wr < rd ∧ data r = PADDING_MARK)
  | .freeStore v => Front data rd wr ∧ Next pblen data rd wr v

end Views

/-- The packets `Q` lie between the indices; `k` of them were there when `spsc_pbuf_claim` began. -/
structure Good (pblen : ℕ) (s : State) (Q : List (List Byte)) (k : ℕ) : Prop where
  indices : Indices pblen s.rd s.wr
  laid : format.Laid s.data pblen s.rd s.wr Q
  producer : ProducerOk pblen s.data s.rd s.wr s.producer
  consumer : ConsumerOk pblen s.data s.rd s.wr Q k s.consumer

variable {pblen rd wr : ℕ} {data : ℕ → Byte} {Q : List (List Byte)}

lemma Seen.eq_zero {k w : ℕ} (h : Seen pblen data rd wr Q k w) (hnil : Q.take k = []) : k = 0 := by
  have hle := h.le
  have hlen := congrArg List.length hnil
  simp only [length_take,length_nil] at hlen
  omega

lemma used_self (hrd : rd < pblen) : Used pblen rd wr rd ↔ rd ≠ wr := by
  unfold RecordFormat.Used
  split_ifs <;> omega

lemma Seen.ne {k w : ℕ} (h : Seen pblen data rd wr Q k w) (hrd : rd < pblen) (hw : rd ≠ w) : rd ≠ wr :=
  (used_self hrd).mp (h.used _ ((used_self hrd).mpr hw))

section Moves
variable {pblen rd wr rd' wr' k : ℕ} {data data' : ℕ → Byte} {Q P : List (List Byte)} {c : Consumer}

lemma ProducerOk.reader_moves {p : Producer} (h : ProducerOk pblen data rd wr p)
    (hroom : ∀ n, Room pblen rd wr n → Room pblen rd' wr n) (hle : rd ≤ wr → rd ≤ rd' ∧ rd' ≤ wr) :
    ProducerOk pblen data rd' wr p := by
  have hput : ∀ len, Put pblen rd wr len → Put pblen rd' wr len := fun len h => ⟨h.pos,h.short,hroom _ h.room⟩
  have hpad : ∀ len r, Pad pblen rd wr len r → Pad pblen rd' wr len r := fun len r h =>
    ⟨h.pads,h.le.trans (hle h.rd_le).1,(hle h.rd_le).2⟩
  cases p with
  | ready buf n => exact fun hn => ⟨(h hn).1,hroom _ (h hn).2⟩
  | allocWr len => trivial
  | allocRd len w => exact h
  | allocMark len w r => exact ⟨h.1,hpad _ _ h.2⟩
  | allocStore len w r => exact ⟨h.1,hpad _ _ h.2.1,h.2.2⟩
  | commitWr len => exact hput _ h
  | commitHi len w => exact ⟨h.1,hput _ h.2⟩
  | commitLo len w => exact ⟨h.1,hput _ h.2.1,h.2.2⟩
  | commitStore len w => exact ⟨h.1,hput _ h.2.1,h.2.2⟩

/-- What a step of the producer does to the memory: the cells that are in use stay as they are and
in use. -/
structure Ahead (pblen rd wr wr' : ℕ) (data data' : ℕ → Byte) : Prop where
  same : ∀ x, Used pblen rd wr x → data' x = data x
  used : ∀ x, Used pblen rd wr x → Used pblen rd wr' x
  below : wr < rd → wr' < rd

namespace Ahead

section
variable (h : Ahead pblen rd wr wr' data data')
include h

lemma ne (hrd : rd < pblen) (hne : rd ≠ wr) : rd ≠ wr' := (used_self hrd).mp (h.used _ ((used_self hrd).mpr hne))

lemma front (hrd : rd < pblen) (hfront : Front data rd wr) : Front data' rd wr' :=
  ⟨h.ne hrd hfront.ne,by rw [h.same _ ((used_self hrd).mpr hfront.ne)]; exact hfront.packet⟩

lemma lenAt_eq (hidx : Indices pblen rd wr) (harea : Area pblen)
    (hne : rd ≠ wr) : lenAt data' rd = lenAt data rd := by
  obtain ⟨h₁,h₂⟩ := used_header hidx harea hne
  rw [lenAt,lenAt,h.same _ h₁,h.same _ h₂]

lemma seen {w : ℕ} (hseen : Seen pblen data rd wr Q k w) : Seen pblen data' rd wr' (Q++P) k w := by
  refine ⟨?_,hseen.le.trans (by simp),fun x hx => h.used _ (hseen.used _ hx)⟩
  rw [take_append_of_le_length hseen.le]
  exact hseen.laid.congr fun x hx => (h.same _ (hseen.used _ hx)).symm

lemma past (hidx : Indices pblen rd wr) (harea : Area pblen)
    (hne : rd ≠ wr) {r : ℕ} (hpast : Past pblen data rd r) : Past pblen data' rd r :=
  ⟨by rw [h.lenAt_eq hidx harea hne]; exact hpast.eq,hpast.lt,hpast.inside⟩

/-- The byte behind the first packet is in use once the writer has gone on at the start. -/
lemma mark (hwr : wr < rd) {r : ℕ} (hpast : Past pblen data rd r)
    (hmark : data r = PADDING_MARK) : data' r = PADDING_MARK := by
  have := hpast.lt
  have := hpast.inside
  rw [h.same,hmark]
  unfold RecordFormat.Used
  split_ifs <;> omega

/-- What the consumer knows is not changed by a step of the producer, unless it has taken the byte at
the writer's index for padding and the writer moves. -/
lemma consumer (hidx : Indices pblen rd wr) (harea : Area pblen) (hc : ConsumerOk pblen data rd wr Q k c)
    (hwr : c = .freeWr wr → wr = wr' ∨ wr' < rd ∧ data' wr = PADDING_MARK) :
    ConsumerOk pblen data' rd wr' (Q++P) k c := by
  have hrd := hidx.rd_lt
  have hsame : rd ≠ wr → data' rd = data rd := fun hne => h.same _ ((used_self hrd).mpr hne)
  cases c with
  | ready c =>
    cases c with
    | none => trivial
    | some c => exact ⟨h.front hrd hc.1,by rw [h.lenAt_eq hidx harea hc.1.ne]; exact hc.2⟩
  | claimWr => trivial
  | claimRd w => exact h.seen hc
  | claimMark w r => exact ⟨hc.1,h.seen hc.2.1,hc.2.2⟩
  | claimAgain w r => exact ⟨hc.1,h.seen hc.2.1,hc.2.2.1,by rw [hsame (hc.2.1.ne hrd hc.2.2.1)]; exact hc.2.2.2⟩
  | claimSkip w => exact ⟨h.seen hc.1,hc.2.1,by rw [hsame (hc.1.ne hrd hc.2.1)]; exact hc.2.2⟩
  | claimHi r => exact ⟨hc.1,h.front hrd hc.2⟩
  | claimLo r hi => exact ⟨hc.1,h.front hrd hc.2.1,by rw [hsame hc.2.1.ne]; exact hc.2.2⟩
  | freeRd len => exact ⟨h.front hrd hc.1,by rw [h.lenAt_eq hidx harea hc.1.ne]; exact hc.2⟩
  | freeMark r => exact ⟨h.front hrd hc.1,h.past hidx harea hc.1.ne hc.2⟩
  | freeWr r =>
    refine ⟨h.front hrd hc.1,h.past hidx harea hc.1.ne hc.2.1,?_⟩
    rcases hc.2.2 with rfl | ⟨hlt,hmark⟩
    · exact hwr rfl
    · exact .inr ⟨h.below hlt,h.mark hlt hc.2.1 hmark⟩
  | freeStore v =>
    refine ⟨h.front hrd hc.1,?_⟩
    rcases hc.2 with hpast | ⟨hv,hlt,hend | ⟨r,hpast,hmark⟩⟩
    · exact .inl (h.past hidx harea hc.1.ne hpast)
    · exact .inr ⟨hv,h.below hlt,.inl (by rw [h.lenAt_eq hidx harea hc.1.ne]; exact hend)⟩
    · exact .inr ⟨hv,h.below hlt,.inr ⟨r,h.past hidx harea hc.1.ne hpast,h.mark hlt hpast hmark⟩⟩

end

end Ahead
end Moves

def Consumer.claims : Consumer → Prop
  | .claimRd _ | .claimMark .. | .claimAgain .. | .claimSkip _ => True
  | _ => False

attribute [local simp] Consumer.claims

/-- An access of the consumer that neither returns a packet nor frees one: a claim that finds nothing
saw no packet when it began. -/
structure Looks (pblen : ℕ) (s s' : State) (Q : List (List Byte)) (k : ℕ) (r : Reply) : Prop where
  good : Good pblen s' Q k
  claims : s'.consumer.claims → s.consumer.claims
  reply : r = .done ∨ r = .nothing ∧ s.consumer.claims ∧ k = 0

namespace Good
variable {pblen k : ℕ} {s : State} {Q : List (List Byte)}

section
variable (h : Good pblen s Q k)
include h

variable {p : Producer}

lemma store (harea : Area pblen) {x : ℕ} (hx : ¬Used pblen s.rd s.wr x) (b : Byte)
    (hp : ProducerOk pblen (update s.data x b) s.rd s.wr p) :
    Good pblen { s with data := update s.data x b, producer := p } Q k := by
  have hsame : ∀ y, Used pblen s.rd s.wr y → update s.data x b y = s.data y := fun y hy =>
    Function.update_of_ne (by rintro rfl; exact hx hy) _ _
  have hahead : Ahead pblen s.rd s.wr s.wr s.data (update s.data x b) := ⟨hsame,fun _ => id,id⟩
  refine ⟨h.indices,h.laid.congr fun y hy => (hsame y hy).symm,hp,?_⟩
  have := hahead.consumer (P := []) h.indices harea h.consumer fun _ => .inl rfl
  rwa [append_nil] at this

lemma knows {c : Consumer} (hc : s.consumer = c) : ConsumerOk pblen s.data s.rd s.wr Q k c := hc ▸ h.consumer

lemma setProducer (hp : ProducerOk pblen s.data s.rd s.wr p) : Good pblen { s with producer := p } Q k :=
  ⟨h.indices,h.laid,hp,h.consumer⟩

lemma setConsumer {n : ℕ} {c : Consumer} (hc : ConsumerOk pblen s.data s.rd s.wr Q n c) :
    Good pblen { s with consumer := c } Q n := ⟨h.indices,h.laid,h.producer,hc⟩

lemma jump (harea : Area pblen) {len r : ℕ} (hpad : Pad pblen s.rd s.wr len r)
    (hmark : s.data s.wr = PADDING_MARK) :
    Good pblen { s with wr := 0, producer := .ready (0+LEN_SZ) (allocLen pblen s.wr r len) } Q k := by
  have hle := hpad.rd_le
  have hpos : 0 < r := (pads_bounds hpad.pads).2
  have hr := hpad.le
  have hidx := h.indices
  have hahead : Ahead pblen s.rd s.wr 0 s.data s.data := by
    refine ⟨fun _ _ => rfl,fun x hx => ?_,fun hlt => by omega⟩
    have := hidx.wr_lt
    unfold RecordFormat.Used at hx ⊢
    split_ifs at hx ⊢ <;> omega
  refine ⟨⟨hidx.rd_lt,harea.pos,hidx.rd_word,dvd_zero 4⟩,h.laid.jump hle (by omega) hidx.wr_lt hmark,fun hn => ?_,?_⟩
  · refine ⟨rfl,?_⟩
    have hroom := room_of_pads hn le_rfl hpad.pads
    rcases Nat.lt_or_eq_of_le hr with hlt | heq
    · exact hroom.forward hlt fun hzero => by omega
    · exact heq ▸ hroom
  · have := hahead.consumer (P := []) hidx harea h.consumer fun _ => .inr ⟨by omega,hmark⟩
    rwa [append_nil] at this

/-- The producer stores its index. -/
lemma commit (harea : Area pblen) {len : ℕ} (hput : Put pblen s.rd s.wr len)
    (hhi : s.data s.wr = lenHi len) (hlo : s.data (s.wr+1) = lenLo len) (hcare : s.consumer ≠ .freeWr s.wr) :
    Good pblen { s with wr := wrBehind pblen s.wr len, producer := .ready 0 0 }
      (Q++[payload s.data s.wr len]) k := by
  have hidx := h.indices
  have hlen : (payload s.data s.wr len).length = len := payload_length ..
  have hp : Packet s.data s.wr (payload s.data s.wr len) := by
    refine ⟨?_,?_,?_,?_,?_⟩ <;> rw [hlen]
    · exact hput.pos
    · exact hput.short
    · exact hhi
    · exact hlo
  have hroom := hlen.symm ▸ hput.room
  obtain ⟨hlaid,hidx'⟩ := commit_laid h.laid hp hroom harea hidx
  have hsize := hroom.size_le harea hidx
  have hbehind := wrBehind_eq hroom harea hidx
  rw [hlen] at hlaid hidx' hbehind
  have hahead : Ahead pblen s.rd s.wr (wrBehind pblen s.wr len) s.data s.data := by
    refine ⟨fun _ _ => rfl,fun x hx => ?_,fun hlt => ?_⟩
    · have := hidx.wr_lt
      have := hidx.rd_lt
      rw [hbehind]
      unfold RecordFormat.Used at hx ⊢
      split_ifs at hx hsize ⊢ <;> omega
    · have := hidx.rd_lt
      rw [hbehind]
      split_ifs at hsize ⊢ <;> omega
  refine ⟨hidx',hlaid,by simp [ProducerOk],?_⟩
  exact hahead.consumer hidx harea h.consumer fun hc => absurd hc hcare

lemma packet (hfront : Front s.data s.rd s.wr) :
    ∃ p Q', Q = p::Q' ∧ Packet s.data s.rd p ∧ lenAt s.data s.rd = p.length := by
  obtain ⟨p,Q',rfl,hp⟩ := h.laid.head hfront.ne hfront.packet h.indices.rd_lt
  exact ⟨p,Q',rfl,hp,hp.lenAt_eq⟩

lemma behind (harea : Area pblen) (hshort : pblen < 2^16) (hfront : Front s.data s.rd s.wr) :
    ∃ p Q', Q = p::Q' ∧ p = payload s.data s.rd (lenAt s.data s.rd) ∧
      (Past pblen s.data s.rd (rdBehind s.rd (lenAt s.data s.rd)) ∧
          (s.rd ≤ s.wr → rdBehind s.rd (lenAt s.data s.rd) ≤ s.wr) ∧ 4 ∣ rdBehind s.rd (lenAt s.data s.rd) ∧
          format.Laid s.data pblen (rdBehind s.rd (lenAt s.data s.rd)) s.wr Q' ∨
        rdBehind s.rd (lenAt s.data s.rd) = pblen ∧ s.wr < s.rd ∧ format.Laid s.data pblen 0 s.wr Q') := by
  obtain ⟨p,Q',rfl,hp,hlen⟩ := h.packet hfront
  have hpos := format.size_pos p
  have hbehind : s.rd+format.size p ≤ pblen → rdBehind s.rd (lenAt s.data s.rd) = s.rd+format.size p := fun hle => by
    rw [hlen,rdBehind_eq harea h.indices.rd_word hle,if_neg (by omega)]
  refine ⟨p,Q',rfl,by rw [hlen]; exact hp.bytes,?_⟩
  rcases h.laid.tail hp h.indices.rd_lt h.indices.wr_lt with ⟨hlt,hle,htail⟩ | ⟨heq,hwr,htail⟩
  · have hr := hbehind hlt.le
    exact .inl ⟨⟨rfl,by omega,by omega⟩,by rwa [hr],by rw [hr]; exact h.indices.rd_word.add (size_word p),
      by rwa [hr]⟩
  · exact .inr ⟨by rw [hbehind heq.le,heq],hwr,htail⟩

/-- The consumer stores its index. -/
lemma freeStore (harea : Area pblen) (hshort : pblen < 2^16) {v n : ℕ} (hc : s.consumer = .freeStore v) :
    ∃ Q', Q = payload s.data s.rd (lenAt s.data s.rd)::Q' ∧
      Good pblen { s with rd := v, consumer := .ready none } Q' n := by
  obtain ⟨hfront,hnext⟩ := h.knows hc
  obtain ⟨p,Q',rfl,rfl,hbehind⟩ := h.behind harea hshort hfront
  refine ⟨Q',rfl,?_⟩
  rcases hnext with hpast | ⟨rfl,hwr,hend⟩
  · -- behind the packet
    rw [← hpast.eq] at hbehind
    obtain ⟨-,hle,hword,hlaid⟩ := hbehind.resolve_right fun hend => absurd hend.1 hpast.inside.ne
    exact ⟨⟨hpast.inside,h.indices.wr_lt,hword,h.indices.wr_word⟩,hlaid,
      h.producer.reader_moves (fun n hn => hn.forward hpast.lt hle) fun hrd => ⟨hpast.lt.le,hle hrd⟩,trivial⟩
  · -- at start
    have hlaid : format.Laid s.data pblen 0 s.wr Q' := by
      rcases hbehind with ⟨hpast,-,-,hlaid⟩ | ⟨-,-,hlaid⟩
      · rcases hend with hend | ⟨r,hpast',hmark⟩
        · exact absurd hend hpast.inside.ne
        · have := hpast'.lt
          rw [← hpast'.eq] at hlaid
          exact (hlaid.skip (by omega) hmark).2
      · exact hlaid
    exact ⟨⟨harea.pos,h.indices.wr_lt,dvd_zero 4,h.indices.wr_word⟩,hlaid,
      h.producer.reader_moves (fun n hn => hn.restart hwr h.indices.rd_lt.le) fun hrd => by omega,trivial⟩

/-- `spsc_pbuf_claim` goes on at the start behind the padding. There is a packet there if the writer's
index was not at the start. -/
lemma claimSkip (harea : Area pblen) {w : ℕ} (hseen : Seen pblen s.data s.rd s.wr Q k w)
    (hne : s.rd ≠ w) (hmark : s.data s.rd = PADDING_MARK) : (w = 0 → k = 0) ∧ (w ≠ 0 → Front s.data 0 s.wr) ∧
      ∀ c, ConsumerOk pblen s.data 0 s.wr Q k c → Good pblen { s with rd := 0, consumer := c } Q k := by
  have hrd := h.indices.rd_lt
  obtain ⟨hwr,hlaid⟩ := h.laid.skip (hseen.ne hrd hne) hmark
  obtain ⟨hw,hlaid'⟩ := hseen.laid.skip hne hmark
  refine ⟨?_,fun hzero => ?_,fun c hc => ?_⟩
  · rintro rfl
    exact hseen.eq_zero hlaid'.eq_nil
  · have hused : Used pblen s.rd s.wr 0 :=
      hseen.used _ (by simp [RecordFormat.Used,Nat.not_le.mpr hw,Nat.pos_of_ne_zero hzero])
    have hpos : 0 < s.wr := by
      unfold RecordFormat.Used at hused
      split_ifs at hused <;> omega
    refine ⟨hpos.ne,fun hmark' => ?_⟩
    have := (hlaid.skip hpos.ne hmark').1
    omega
  · exact ⟨⟨harea.pos,h.indices.wr_lt,dvd_zero 4,h.indices.wr_word⟩,hlaid,
      h.producer.reader_moves (fun n hn => hn.restart hwr hrd.le) fun hle => by omega,hc⟩

section Looks
variable {s' : State} {r : Reply} (hstep : consume pblen s = some (s',r))
include hstep

lemma claimRd_looks {w : ℕ} (hc : s.consumer = .claimRd w) : Looks pblen s s' Q k r := by
  have hok := h.knows hc
  simp only [consume,hc] at hstep
  split_ifs at hstep with heq
  · cases hstep
    have hzero : k = 0 := hok.eq_zero (by have := hok.laid; rw [← heq] at this; exact this.eq_nil)
    exact ⟨h.setConsumer trivial,by simp,.inr ⟨rfl,by simp [hc],hzero⟩⟩
  · cases hstep
    exact ⟨h.setConsumer ⟨rfl,hok,heq⟩,by simp [hc],.inl rfl⟩

lemma claimMark_looks {w rd : ℕ} (hc : s.consumer = .claimMark w rd) : Looks pblen s s' Q k r := by
  obtain ⟨rfl,hseen,hne⟩ := h.knows hc
  simp only [consume,hc] at hstep
  split_ifs at hstep with hmark
  · cases hstep
    exact ⟨h.setConsumer ⟨rfl,hseen,hne,hmark⟩,by simp [hc],.inl rfl⟩
  · cases hstep
    exact ⟨h.setConsumer ⟨rfl,hseen.ne h.indices.rd_lt hne,hmark⟩,by simp,.inl rfl⟩

lemma claimAgain_looks {w rd : ℕ} (hc : s.consumer = .claimAgain w rd) : Looks pblen s s' Q k r := by
  obtain ⟨rfl,hseen,hne,hmark⟩ := h.knows hc
  simp only [consume,hc] at hstep
  rw [if_neg (hseen.ne h.indices.rd_lt hne)] at hstep
  cases hstep
  exact ⟨h.setConsumer ⟨hseen,hne,hmark⟩,by simp [hc],.inl rfl⟩

lemma claimSkip_looks (harea : Area pblen) {w : ℕ} (hc : s.consumer = .claimSkip w) : Looks pblen s s' Q k r := by
  obtain ⟨hseen,hne,hmark⟩ := h.knows hc
  obtain ⟨hnone,hsome,hskip⟩ := h.claimSkip harea hseen hne hmark
  simp only [consume,hc] at hstep
  split_ifs at hstep with hzero
  · cases hstep
    exact ⟨hskip _ trivial,by simp,.inr ⟨rfl,by simp [hc],hnone hzero.symm⟩⟩
  · cases hstep
    exact ⟨hskip _ ⟨rfl,hsome fun h => hzero h.symm⟩,by simp,.inl rfl⟩

lemma freeWr_looks {rd : ℕ} (hc : s.consumer = .freeWr rd) : Looks pblen s s' Q k r := by
  obtain ⟨hfront,hpast,hpad⟩ := h.knows hc
  simp only [consume,hc] at hstep
  split_ifs at hstep with heq
  · cases hstep
    obtain ⟨hwr,hmark⟩ := hpad.resolve_left heq
    exact ⟨h.setConsumer ⟨hfront,.inr ⟨rfl,hwr,.inr ⟨rd,hpast,hmark⟩⟩⟩,by simp,.inl rfl⟩
  · cases hstep
    exact ⟨h.setConsumer ⟨hfront,.inl hpast⟩,by simp,.inl rfl⟩

variable (harea : Area pblen) (hshort : pblen < 2^16)
include harea hshort

lemma freeRd_looks {len : ℕ} (hc : s.consumer = .freeRd len) : Looks pblen s s' Q k r := by
  obtain ⟨hfront,rfl⟩ := h.knows hc
  obtain ⟨p,Q',rfl,-,hbehind⟩ := h.behind harea hshort hfront
  simp only [consume,hc] at hstep
  split_ifs at hstep with hend
  · cases hstep
    obtain ⟨hpast,-⟩ := hbehind.resolve_right fun h => hend h.1
    exact ⟨h.setConsumer ⟨hfront,hpast⟩,by simp,.inl rfl⟩
  · cases hstep
    have hend := not_not.mp hend
    obtain ⟨-,hwr,-⟩ := hbehind.resolve_left fun h => absurd hend h.1.inside.ne
    exact ⟨h.setConsumer ⟨hfront,.inr ⟨rfl,hwr,.inl hend⟩⟩,by simp,.inl rfl⟩

lemma freeMark_looks {rd : ℕ} (hc : s.consumer = .freeMark rd) : Looks pblen s s' Q k r := by
  obtain ⟨hfront,hpast⟩ := h.knows hc
  obtain ⟨p,Q',rfl,-,hbehind⟩ := h.behind harea hshort hfront
  rw [← hpast.eq] at hbehind
  obtain ⟨-,hle,-,hlaid⟩ := hbehind.resolve_right fun hend => absurd hend.1 hpast.inside.ne
  simp only [consume,hc] at hstep
  split_ifs at hstep with hmark
  · cases hstep
    -- the mark is padding, or the writer is at byte
    have hpad : rd = s.wr ∨ s.wr < s.rd ∧ s.data rd = PADDING_MARK := by
      by_cases heq : rd = s.wr
      · exact .inl heq
      · have hlt := (hlaid.skip heq hmark).1
        exact .inr ⟨by omega,hmark⟩
    exact ⟨h.setConsumer ⟨hfront,hpast,hpad⟩,by simp,.inl rfl⟩
  · cases hstep
    exact ⟨h.setConsumer ⟨hfront,.inl hpast⟩,by simp,.inl rfl⟩

end Looks

end

end Good

/-- The reply returns no packet, and it is that nothing was found only when nothing was there. -/
def Reply.Quiet (g : Log) : Reply → Prop
  | .claimed _ | .byte .. => False
  | .nothing => g.freed.length = g.asked
  | _ => True

/-- The packets that have been committed are those that have been freed and those between the indices. -/
def Sound (pblen : ℕ) (x : State × Log) : Prop :=
  ∃ Q k, Good pblen x.1 Q k ∧ x.2.committed = x.2.freed++Q ∧ (x.1.consumer.claims → x.2.asked = x.2.freed.length+k)

namespace Sound
variable {pblen : ℕ} {s s' : State} {g : Log} {r : Reply}

/-- A step that neither frees a packet nor commits one, and returns none. -/
lemma quiet {a : Action} {Q : List (List Byte)} {k : ℕ} (hlog : g.committed = g.freed++Q)
    (hasked : s.consumer.claims → g.asked = g.freed.length+k) (hgood : Good pblen s' Q k)
    (hclaims : s'.consumer.claims → s.consumer.claims) (hnext : g.next s s' a r = g) (hr : r.Quiet g) :
    Sound pblen (s',g.next s s' a r) ∧ Delivers (s,g) (s',g.next s s' a r) r := by
  rw [hnext]
  refine ⟨⟨Q,k,hgood,hlog,fun hc => hasked (hclaims hc)⟩,⟨Q,hlog.symm⟩,?_,?_,?_⟩
  · rintro n rfl
    exact hr.elim
  · rintro i b rfl
    exact hr.elim
  · rintro rfl
    exact hr

lemma produce (h : Sound pblen (s,g)) (harea : Area pblen) (hcare : ¬Mistaken s)
    (hstep : produce pblen s = some (s',r)) :
    Sound pblen (s',g.next s s' .produce r) ∧ Delivers (s,g) (s',g.next s s' .produce r) r := by
  obtain ⟨Q,k,hgood,hlog,hasked⟩ := h
  have hok := hgood.producer
  obtain ⟨rd,wr,data,producer,consumer⟩ := s
  unfold produce at hstep
  cases producer with
  | ready buf n => cases hstep
  | allocWr len =>
    cases hstep
    exact quiet hlog hasked (hgood.setProducer rfl) id rfl trivial
  | allocRd len w =>
    obtain rfl : w = wr := hok
    dsimp only at hstep
    split_ifs at hstep with hpads
    · cases hstep
      exact quiet hlog hasked (hgood.setProducer ⟨rfl,hpads,le_rfl,(pads_bounds hpads).1⟩) id rfl trivial
    · cases hstep
      refine quiet hlog hasked (hgood.setProducer fun hn => ⟨rfl,?_⟩) id rfl trivial
      exact room_of_alloc hn le_rfl (by simpa using hpads)
  | allocMark len w r =>
    obtain ⟨rfl,hpad⟩ := hok
    cases hstep
    refine quiet hlog hasked (hgood.store harea ?_ _ ⟨rfl,hpad,by simp⟩) id rfl trivial
    have := hpad.rd_le
    simp [Used,this]
  | allocStore len w r =>
    obtain ⟨rfl,hpad,hmark⟩ := hok
    cases hstep
    exact quiet hlog hasked (hgood.jump harea hpad hmark) id rfl trivial
  | commitWr len =>
    cases hstep
    exact quiet hlog hasked (hgood.setProducer ⟨rfl,hok⟩) id rfl trivial
  | commitHi len w =>
    obtain ⟨rfl,hput⟩ := hok
    cases hstep
    have hunused := hput.room.unused le_rfl (by simp only [LEN_SZ]; omega)
    exact quiet hlog hasked (hgood.store harea hunused _ ⟨rfl,hput,by simp⟩) id rfl trivial
  | commitLo len w =>
    obtain ⟨rfl,hput,hhi⟩ := hok
    cases hstep
    have hunused := hput.room.unused (Nat.le_succ _) (by simp only [LEN_SZ]; omega)
    exact quiet hlog hasked (hgood.store harea hunused _ ⟨rfl,hput,by simpa using hhi,by simp⟩) id rfl trivial
  | commitStore len w =>
    obtain ⟨rfl,hput,hhi,hlo⟩ := hok
    cases hstep
    have horder : g.committed++[payload data w len] = g.freed++(Q++[payload data w len]) := by
      rw [hlog,append_assoc]
    refine ⟨⟨_,k,hgood.commit harea hput hhi hlo ?_,horder,hasked⟩,⟨_,horder.symm⟩,by simp,by simp,by simp⟩
    intro hc
    obtain rfl : consumer = .freeWr w := hc
    exact hcare rfl

lemma looks {Q : List (List Byte)} {k : ℕ} (hlog : g.committed = g.freed++Q)
    (hasked : s.consumer.claims → g.asked = g.freed.length+k) (hlooks : Looks pblen s s' Q k r)
    (hnext : g.next s s' .consume r = g) :
    Sound pblen (s',g.next s s' .consume r) ∧ Delivers (s,g) (s',g.next s s' .consume r) r := by
  refine quiet hlog hasked hlooks.good hlooks.claims hnext ?_
  rcases hlooks.reply with rfl | ⟨rfl,hclaims,rfl⟩
  · trivial
  · exact (hasked hclaims).symm

lemma consume (h : Sound pblen (s,g)) (harea : Area pblen) (hshort : pblen < 2^16)
    (hstep : consume pblen s = some (s',r)) :
    Sound pblen (s',g.next s s' .consume r) ∧ Delivers (s,g) (s',g.next s s' .consume r) r := by
  obtain ⟨Q,k,hgood,hlog,hasked⟩ := h
  cases hc : s.consumer with
  | ready c => simp [Accesses.consume,hc] at hstep
  | claimWr =>
    simp only [Accesses.consume,hc] at hstep
    cases hstep
    refine ⟨⟨Q,Q.length,hgood.setConsumer ⟨by simpa using hgood.laid,le_rfl,fun _ => id⟩,?_,?_⟩,?_,?_,?_,?_⟩
    all_goals simp_all
  | claimRd w => exact looks hlog hasked (hgood.claimRd_looks hstep hc) (by simp [hc])
  | claimMark w rd => exact looks hlog hasked (hgood.claimMark_looks hstep hc) (by simp [hc])
  | claimAgain w rd => exact looks hlog hasked (hgood.claimAgain_looks hstep hc) (by simp [hc])
  | claimSkip w => exact looks hlog hasked (hgood.claimSkip_looks hstep harea hc) (by simp [hc])
  | freeRd len => exact looks hlog hasked (hgood.freeRd_looks hstep harea hshort hc) (by simp [hc])
  | freeMark rd => exact looks hlog hasked (hgood.freeMark_looks hstep harea hshort hc) (by simp [hc])
  | freeWr rd => exact looks hlog hasked (hgood.freeWr_looks hstep hc) (by simp [hc])
  | claimHi rd =>
    obtain ⟨rfl,hfront⟩ := hgood.knows hc
    simp only [Accesses.consume,hc] at hstep
    cases hstep
    exact looks hlog hasked ⟨hgood.setConsumer ⟨rfl,hfront,rfl⟩,by simp,.inl rfl⟩ (by simp [hc])
  | claimLo rd hi =>
    obtain ⟨rfl,hfront,rfl⟩ := hgood.knows hc
    simp only [Accesses.consume,hc] at hstep
    cases hstep
    obtain ⟨p,Q',rfl,hp,hlen⟩ := hgood.packet hfront
    have hnext : g.freed++[p] <+: g.committed := ⟨Q',by simpa using hlog.symm⟩
    simp only [Log.next,hc]
    refine ⟨⟨_,k,hgood.setConsumer ⟨hfront,rfl⟩,hlog,by simp⟩,⟨_,hlog.symm⟩,fun n hn => ⟨p,hnext,?_⟩,by simp,by simp⟩
    rw [← Reply.claimed.inj hn]
    exact hlen.symm
  | freeStore v =>
    simp only [Accesses.consume,hc] at hstep
    cases hstep
    obtain ⟨Q',rfl,hgood'⟩ := hgood.freeStore harea hshort hc
    have horder : g.committed = (g.freed++[payload s.data s.rd (lenAt s.data s.rd)])++Q' := by simpa using hlog
    simp only [Log.next,hc]
    exact ⟨⟨Q',0,hgood',horder,by simp⟩,⟨Q',horder.symm⟩,by simp,by simp,by simp⟩

end Sound

/-- Every careful access keeps the invariant. -/
lemma Sound.step {s s' : State} {g : Log} (h : Sound pblen (s,g)) (harea : Area pblen) (hshort : pblen < 2^16)
    {a : Action} {r : Reply} (hcare : Careful s a) (hstep : step pblen s a = some (s',r)) :
    Sound pblen (s',g.next s s' a r) ∧ Delivers (s,g) (s',g.next s s' a r) r := by
  have hfull := h
  obtain ⟨Q,k,hgood,hlog,hasked⟩ := h
  dsimp only at hgood hlog hasked
  have hokp := hgood.producer
  have hokc := hgood.consumer
  obtain ⟨rd,wr,data,producer,consumer⟩ := s
  dsimp only at hokp hokc
  cases a with
  | produce => exact hfull.produce harea hcare hstep
  | consume => exact hfull.consume harea hshort hstep
  | alloc len =>
    simp only [Accesses.step] at hstep
    split at hstep
    · split_ifs at hstep
      · cases hstep
        exact quiet hlog hasked hgood id rfl trivial
      · cases hstep
        exact quiet hlog hasked (hgood.setProducer trivial) id rfl trivial
    · cases hstep
  | fill i b =>
    cases producer with
    | ready buf n =>
      simp only [Accesses.step,Option.ite_none_right_eq_some] at hstep
      obtain ⟨hi,⟨⟩⟩ := hstep
      obtain ⟨rfl,hroom⟩ := hokp (by omega)
      exact quiet hlog hasked (hgood.store harea (hroom.unused (by omega) (by omega)) b hokp) id rfl trivial
    | _ => cases hstep
  | commit len =>
    cases producer with
    | ready buf n =>
      simp only [Accesses.step] at hstep
      split_ifs at hstep with hzero
      · cases hstep
        exact quiet hlog hasked hgood id rfl trivial
      · cases hstep
        have hroom := (hokp (by omega)).2.mono (n := len) (by omega)
        exact quiet hlog hasked (hgood.setProducer ⟨by omega,hcare,hroom⟩) id rfl trivial
    | _ => cases hstep
  | claim =>
    simp only [Accesses.step] at hstep
    split at hstep
    · cases hstep
      exact quiet hlog hasked (hgood.setConsumer trivial) (by simp) rfl trivial
    · cases hstep
  | load i =>
    simp only [Accesses.step] at hstep
    split at hstep
    · obtain ⟨hfront,⟨⟩⟩ := hokc
      split_ifs at hstep with hi
      cases hstep
      obtain ⟨p,Q',rfl,hp,hlen⟩ := hgood.packet hfront
      refine ⟨hfull,⟨_,hlog.symm⟩,by simp,fun j b hb => ⟨p,⟨Q',by simp [hlog]⟩,?_⟩,by simp⟩
      obtain ⟨rfl,rfl⟩ := Reply.byte.inj hb
      rw [hp.bytes]
      simp [payload,← hlen,hi]
    · cases hstep
  | free =>
    simp only [Accesses.step] at hstep
    split at hstep
    · obtain ⟨hfront,⟨⟩⟩ := hokc
      cases hstep
      exact quiet hlog hasked (hgood.setConsumer ⟨hfront,rfl⟩) (by simp) rfl trivial
    · cases hstep

/-- For a data area that is a multiple of words and below 64 KiB, however the accesses of the producer
and of the consumer interleave: what is claimed and loaded is the next packet of those that have
been committed, if no packet is committed at a place whose byte `spsc_pbuf_free` has just taken for
padding. -/
theorem accesses_deliver_packets (pblen : ℕ) (data : ℕ → Byte) (as : List Action) (hpos : 0 < pblen)
    (hword : 4 ∣ pblen) (hshort : pblen < 2^16)
    (hrun : Along (fun s a => (step pblen s a).isSome ∧ Careful s a) (step pblen) (State.init data) as) :
    ∃ x os, serve? (recording (step pblen) Log.next) (State.init data,Log.empty) as = some (x,os) ∧
      Trace (fun x _ r y => Delivers x y r) (State.init data,Log.empty) as os x := by
  have harea : Area pblen := ⟨hword,hshort.le,hpos⟩
  have hstart : Sound pblen (State.init data,Log.empty) :=
    ⟨[],0,⟨⟨hpos,hpos,dvd_zero 4,dvd_zero 4⟩,.inl ⟨le_rfl,rfl⟩,fun hn => by omega,trivial⟩,rfl,fun _ => rfl⟩
  exact Trace.of_recording (I := fun s g => Sound pblen (s,g))
    (fun s g a s' r hsound hcare hs => hsound.step harea hshort hcare hs) hstart hrun

def put (len i : ℕ) (b : Byte) : List Action :=
  [.alloc len,.produce,.produce,.fill i b,.commit len,.produce,.produce,.produce,.produce]

def look : List Action := [.claim,.consume,.consume,.consume,.consume,.consume,.load 0]

theorem accesses_deliver_packets_overlapping :
    ∃ x os, serve? (recording (step 24) Log.next) (State.init fun _ => 0xFF,Log.empty)
        (put 8 4 0xFF++look++[.free,.consume]++put 4 0 7++[.consume,.consume]++look) = some (x,os) ∧
      Trace (fun x _ r y => Delivers x y r) (State.init fun _ => 0xFF,Log.empty)
        (put 8 4 0xFF++look++[.free,.consume]++put 4 0 7++[.consume,.consume]++look) os x :=
  accesses_deliver_packets 24 _ _ (by decide) (by decide) (by decide) (by decide +kernel)

/-- The first byte behind the packet of one byte is the mark, as payload of an earlier packet.
`spsc_pbuf_free` loads it, a packet of two bytes is committed there, and `spsc_pbuf_free` finds that
the writer is elsewhere. -/
def stale : List Action :=
  put 8 4 0xFF++look++[.free,.consume,.consume,.consume]++put 8 0 1++look++[.free,.consume,.consume]++
    put 1 0 2++look++[.free,.consume,.consume]++put 2 0 3++[.consume,.consume]++look

/-- The packet that has been freed is claimed once more, in the place of the next one. -/
theorem stale_byte_taken_for_padding :
    ∃ x os, serve? (recording (step 24) Log.next) (State.init fun _ => 0,Log.empty) stale = some (x,os) ∧
      x.2.committed.map List.length = [8,8,1,2] ∧ x.2.freed.map List.length = [8,8,1] ∧
      os.drop (os.length-2) = [.claimed 1,.byte 0 2] :=
  ⟨_,_,rfl,by decide +kernel,by decide +kernel,by decide +kernel⟩

end ArmFirmware.Zephyr.SpscPbuf.Accesses
