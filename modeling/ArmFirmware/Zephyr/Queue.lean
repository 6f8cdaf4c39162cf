import ArmFirmware.Library.WaitQueue
import ArmFirmware.Library.Ledger

/-! The queues of `kernel/queue.c`. A step is one call, up to the point where it gives up
`queue->lock`, or the timeout of a waiting thread. -/
namespace ArmFirmware.Zephyr.Queue
open Library

def EINVAL : ℤ := 22
def ENOMEM : ℤ := 12

/-- A node of `data_q`: the data itself, or an allocated node with a pointer to the data. -/
inductive Node (α : Type*)
  | plain (data : α)
  | alloc (anode : ℕ) (data : α)
  deriving DecidableEq

def Node.data {α : Type*} : Node α → α
  | .plain data => data
  | .alloc _ data => data

def Node.anode {α : Type*} : Node α → Option ℕ
  | .plain _ => none
  | .alloc anode _ => some anode

/-- `struct k_queue`. -/
structure KQueue (α θ : Type*) where
  dataQ : List (Node α)
  waitQ : List θ

/-- The calls, with what the environment decides: the result of `z_thread_malloc`, and which
of the waiting threads the caller outranks. -/
inductive Action (α θ : Type*)
  | insert (prev : Option α) (data : α)
  | append (data : α)
  | prepend (data : α)
  | allocAppend (data : α) (malloc : Option ℕ)
  | allocPrepend (data : α) (malloc : Option ℕ)
  | appendList (items : List α)
  | get (thread : θ) (outranks : θ → Bool) (wait : Bool)
  | cancelWait
  | timeout (thread : θ)

/-- The return value of a call with the threads it made ready and the data each was given. -/
inductive Reply (α θ : Type*)
  | done (ret : ℤ) (readied : List (θ × Option α))
  | got (data : Option α)
  | pended
  | timedOut
  deriving DecidableEq

section Functions
variable {α θ : Type*} [DecidableEq α]

def insertAfter (prev node : Node α) : List (Node α) → List (Node α)
  | [] => []
  | n::l => if n = prev then n::node::l else n::insertAfter prev node l

/-- `sys_sflist_insert`; there is no result for a `prev` that is not in the list. -/
def sysSflistInsert (prev : Option (Node α)) (node : Node α) (l : List (Node α)) : Option (List (Node α)) :=
  match prev with
  | none => some (node::l)
  | some prev => if prev ∈ l then some (insertAfter prev node l) else none

def queueInsert (queue : KQueue α θ) (prev : Option (Node α)) (data : α) (alloc : Bool)
    (malloc : Option ℕ) (isAppend : Bool) : Option (KQueue α θ × Reply α θ) :=
  let prev := if isAppend then queue.dataQ.getLast? else prev
  match queue.waitQ with
  | thread::waitQ => some ({queue with waitQ},.done 0 [(thread,some data)])
  | [] =>
    if alloc then
      match malloc with
      | none => some (queue,.done (-ENOMEM) [])
      | some anode => (sysSflistInsert prev (.alloc anode data) queue.dataQ).map fun dataQ =>
        ({queue with dataQ},.done 0 [])
    else
      (sysSflistInsert prev (.plain data) queue.dataQ).map fun dataQ =>
        ({queue with dataQ},.done 0 [])

/-- The loop of `k_queue_append_list`: `thread` has been taken off the wait queue already. -/
def appendListLoop : List α → Option θ → List θ → List (θ × Option α) →
    List α × List θ × List (θ × Option α)
  | head::rest,some thread,waitQ,readied =>
    appendListLoop rest waitQ.head? waitQ.tail (readied++[(thread,some head)])
  | items,_,waitQ,readied => (items,waitQ,readied)

def kQueueAppendList (queue : KQueue α θ) (items : List α) : KQueue α θ × Reply α θ :=
  match items with
  | [] => (queue,.done (-EINVAL) [])
  | _ =>
    let (rest,waitQ,readied) := appendListLoop items queue.waitQ.head? queue.waitQ.tail []
    (⟨queue.dataQ++rest.map .plain,waitQ⟩,.done 0 readied)

def kQueueGet (queue : KQueue α θ) (thread : θ) (outranks : θ → Bool) (wait : Bool) : KQueue α θ × Reply α θ :=
  match queue.dataQ with
  | node::dataQ => ({queue with dataQ},.got (some node.data))
  | [] =>
    if wait then ({queue with waitQ := WaitQueue.pend outranks thread queue.waitQ},.pended)
    else (queue,.got none)

def kQueueCancelWait (queue : KQueue α θ) : KQueue α θ × Reply α θ :=
  match queue.waitQ with
  | thread::waitQ => ({queue with waitQ},.done 0 [(thread,none)])
  | [] => (queue,.done 0 [])

variable [DecidableEq θ]

def step (queue : KQueue α θ) : Action α θ → Option (KQueue α θ × Reply α θ)
  | .insert prev data => queueInsert queue (prev.map .plain) data false none false
  | .append data => queueInsert queue none data false none true
  | .prepend data => queueInsert queue none data false none false
  | .allocAppend data malloc => queueInsert queue none data true malloc true
  | .allocPrepend data malloc => queueInsert queue none data true malloc false
  | .appendList items => some (kQueueAppendList queue items)
  | .get thread outranks wait => some (kQueueGet queue thread outranks wait)
  | .cancelWait => some (kQueueCancelWait queue)
  | .timeout thread => some ({queue with waitQ := queue.waitQ.erase thread},.timedOut)

/-- Data is put into a queue that does not hold it yet, behind data that it holds, by
allocated nodes that are not in use; and no list is appended with more threads waiting than it
has items. -/
def Meets (queue : KQueue α θ) : Action α θ → Prop
  | .insert prev data => .plain data ∉ queue.dataQ ∧
    (queue.waitQ = [] → ∀ p ∈ prev, .plain p ∈ queue.dataQ)
  | .append data => .plain data ∉ queue.dataQ
  | .prepend data => .plain data ∉ queue.dataQ
  | .allocAppend _ malloc => malloc = none ∨ ∀ n ∈ queue.dataQ, n.anode ≠ malloc
  | .allocPrepend _ malloc => malloc = none ∨ ∀ n ∈ queue.dataQ, n.anode ≠ malloc
  | .appendList items => items.Nodup ∧ (∀ data ∈ items, .plain data ∉ queue.dataQ) ∧
    (items ≠ [] → queue.waitQ.length ≤ items.length)
  | .get thread _ _ => thread ∉ queue.waitQ
  | .cancelWait => True
  | .timeout thread => thread ∈ queue.waitQ

instance (queue : KQueue α θ) (a : Action α θ) : Decidable (Meets queue a) := by
  cases a <;> simp only [Meets] <;> infer_instance

end Functions

section Accounts
variable {α θ : Type*}

def pendedBy : Action α θ → Reply α θ → List θ
  | .get thread _ _,.pended => [thread]
  | _,_ => []

def readiedBy : Action α θ → Reply α θ → List θ
  | _,.done _ readied => readied.map Prod.fst
  | .timeout thread,.timedOut => [thread]
  | _,_ => []

def appendedBy : Action α θ → Reply α θ → List α
  | .append data,.done ret _ => if ret = 0 then [data] else []
  | .allocAppend data _,.done ret _ => if ret = 0 then [data] else []
  | .appendList items,.done ret _ => if ret = 0 then items else []
  | _,_ => []

def insertedBy : Action α θ → Reply α θ → List α
  | .insert _ data,.done ret _ => if ret = 0 then [data] else []
  | .prepend data,.done ret _ => if ret = 0 then [data] else []
  | .allocPrepend data _,.done ret _ => if ret = 0 then [data] else []
  | a,o => appendedBy a o

def deliveredBy : Action α θ → Reply α θ → List α
  | _,.done _ readied => readied.filterMap Prod.snd
  | _,.got data => data.toList
  | _,_ => []

/-- The predicate tells the data that is appended from the data that is inserted elsewhere. -/
def Appends (p : α → Bool) : Action α θ → Prop
  | .append data => p data
  | .allocAppend data _ => p data
  | .appendList items => ∀ data ∈ items, p data
  | .insert _ data => ¬p data
  | .prepend data => ¬p data
  | .allocPrepend data _ => ¬p data
  | _ => True

end Accounts

/-! Every waiting thread is made ready once and every item is given to one getter. Only
`k_queue_append_list` can break this: its loop takes one thread more off the wait queue than
it has items for. -/

open List Node Trace

attribute [local simp] deliveredBy appendedBy readiedBy pendedBy insertedBy appendListLoop queueInsert

section Insertion
variable {α : Type*} [DecidableEq α] {l : List (Node α)} {prev node : Node α}

lemma insertAfter_split (h : prev ∈ l) : ∃ l₁ l₂, l = l₁++l₂ ∧ insertAfter prev node l = l₁++node::l₂ := by
  induction l with
  | nil => simp at h
  | cons n l ih =>
    rw [insertAfter]
    split_ifs with hn
    · exact ⟨[n],l,rfl,rfl⟩
    · obtain ⟨l₁,l₂,rfl,heq⟩ := ih ((mem_cons.mp h).resolve_left (Ne.symm hn))
      exact ⟨n::l₁,l₂,rfl,by rw [heq,cons_append]⟩

lemma insertAfter_getLast (hnodup : l.Nodup) (h : l.getLast? = some prev) :
    insertAfter prev node l = l++[node] := by
  induction l with
  | nil => simp at h
  | cons n l ih =>
    obtain ⟨hn,hl⟩ := nodup_cons.mp hnodup
    cases l with
    | nil =>
      obtain rfl : n = prev := by simpa using h
      simp [insertAfter]
    | cons n' l =>
      have hlast : (n'::l).getLast? = some prev := by simpa using h
      have hne : n ≠ prev := fun hp => hn (hp ▸ mem_of_getLast? hlast)
      rw [insertAfter,if_neg hne,ih hl hlast]
      rfl

/-- `sys_sflist_insert` behind the tail appends. -/
lemma sysSflistInsert_getLast (hnodup : l.Nodup) : sysSflistInsert l.getLast? node l = some (l++[node]) := by
  cases h : l.getLast? with
  | none => simp [sysSflistInsert,List.getLast?_eq_none_iff.mp h]
  | some prev =>
    rw [sysSflistInsert,if_pos (mem_of_getLast? h),insertAfter_getLast hnodup h]

lemma sysSflistInsert_split {prev : Option (Node α)} (h : ∀ p ∈ prev, p ∈ l) :
    ∃ l₁ l₂, l = l₁++l₂ ∧ sysSflistInsert prev node l = some (l₁++node::l₂) := by
  cases prev with
  | none => exact ⟨[],l,rfl,rfl⟩
  | some prev =>
    have hmem := h prev rfl
    obtain ⟨l₁,l₂,hl,heq⟩ := insertAfter_split hmem
    exact ⟨l₁,l₂,hl,by rw [sysSflistInsert,if_pos hmem,heq]⟩

end Insertion

section Outcomes
variable {α θ : Type*}

def inserts : Action α θ → Option α
  | .insert _ data => some data
  | .append data => some data
  | .prepend data => some data
  | .allocAppend data _ => some data
  | .allocPrepend data _ => some data
  | _ => none

def isAppend : Action α θ → Bool
  | .append _ => true
  | .allocAppend _ _ => true
  | _ => false

/-- What one step can do to a queue. -/
inductive Outcome (queue : KQueue α θ) : Action α θ → Reply α θ → KQueue α θ → Prop
  | handed {a data thread waitQ} (ha : inserts a = some data) (h : queue.waitQ = thread::waitQ) :
      Outcome queue a (.done 0 [(thread,some data)]) {queue with waitQ}
  | refused {a data} (ha : inserts a = some data) : Outcome queue a (.done (-ENOMEM) []) queue
  | placed {a data node l₁ l₂} (ha : inserts a = some data) (h : queue.waitQ = [])
      (hdata : node.data = data) (hnew : node ∉ queue.dataQ) (hl : queue.dataQ = l₁++l₂)
      (hend : isAppend a = true → l₂ = []) :
      Outcome queue a (.done 0 []) {queue with dataQ := l₁++node::l₂}
  | emptyList : Outcome queue (.appendList []) (.done (-EINVAL) []) queue
  | list {items} (hne : items ≠ []) (hnodup : items.Nodup)
      (hnew : ∀ data ∈ items, plain data ∉ queue.dataQ)
      (hlen : queue.waitQ.length ≤ items.length) : Outcome queue (.appendList items)
        (.done 0 (queue.waitQ.zip (items.map some)))
        ⟨queue.dataQ++(items.drop queue.waitQ.length).map .plain,[]⟩
  | got {thread outranks wait node dataQ} (h : queue.dataQ = node::dataQ) :
      Outcome queue (.get thread outranks wait) (.got (some node.data)) {queue with dataQ}
  | nothing {thread outranks wait} : Outcome queue (.get thread outranks wait) (.got none) queue
  | pended {thread outranks wait} (h : queue.dataQ = []) :
      Outcome queue (.get thread outranks wait) .pended
        {queue with waitQ := WaitQueue.pend outranks thread queue.waitQ}
  | cancelled {thread waitQ} (h : queue.waitQ = thread::waitQ) :
      Outcome queue .cancelWait (.done 0 [(thread,none)]) {queue with waitQ}
  | nobody : Outcome queue .cancelWait (.done 0 []) queue
  | timedOut {thread waitQ} (h : queue.waitQ.Perm (thread::waitQ)) (hsub : waitQ.Sublist queue.waitQ) :
      Outcome queue (.timeout thread) .timedOut {queue with waitQ}

variable {a : Action α θ} {data : α}

section
variable (h : inserts a = some data)
include h

lemma insertedBy_accepted (readied : List (θ × Option α)) : insertedBy a (.done 0 readied) = [data] := by
  cases a <;> simp_all [inserts]

lemma insertedBy_refused (readied : List (θ × Option α)) : insertedBy a (.done (-ENOMEM) readied) = [] := by
  cases a <;> simp_all [inserts,ENOMEM]

lemma appendedBy_accepted (readied : List (θ × Option α)) :
    appendedBy a (.done 0 readied) = if isAppend a then [data] else [] := by
  cases a <;> simp_all [inserts,isAppend]

lemma appendedBy_refused (readied : List (θ × Option α)) : appendedBy a (.done (-ENOMEM) readied) = [] := by
  cases a <;> simp_all [inserts,ENOMEM]

end

lemma Appends.eq_isAppend {p : α → Bool} (hp : Appends p a) (h : inserts a = some data) : p data = isAppend a := by
  cases a <;> simp_all [inserts,isAppend,Appends]

end Outcomes

/-- No node is in the queue twice, and threads wait only for an empty queue. -/
structure Inv {α θ : Type*} (queue : KQueue α θ) : Prop where
  nodup : queue.dataQ.Nodup
  waiting : queue.waitQ ≠ [] → queue.dataQ = []

section Steps
variable {α θ : Type*} {queue queue' : KQueue α θ} {a : Action α θ} {o : Reply α θ}

/-- Every outcome keeps the invariant. -/
lemma Outcome.inv (h : Outcome queue a o queue') (hi : Inv queue) : Inv queue' := by
  cases h with
  | handed _ h => exact ⟨hi.nodup,fun _ => hi.waiting (by simp [h])⟩
  | placed _ h _ hnew hl =>
    refine ⟨?_,fun hw => absurd h hw⟩
    have hnodup := hi.nodup
    rw [hl] at hnew
    grind
  | list hne hnodup hnew =>
    refine ⟨?_,fun hw => absurd rfl hw⟩
    refine nodup_append.mpr ⟨hi.nodup,?_,?_⟩
    · exact (hnodup.sublist (drop_sublist ..)).map fun x y hxy => plain.inj hxy
    · rintro n hn n' hn' rfl
      obtain ⟨data,hdata,rfl⟩ := mem_map.mp hn'
      exact hnew data (mem_of_mem_drop hdata) hn
  | got h =>
    have hnodup := hi.nodup
    rw [h] at hnodup
    refine ⟨(nodup_cons.mp hnodup).2,fun hw => ?_⟩
    have := hi.waiting hw
    simp [h] at this
  | pended h => exact ⟨hi.nodup,fun _ => h⟩
  | cancelled h => exact ⟨hi.nodup,fun _ => hi.waiting (by simp [h])⟩
  | timedOut _ hsub =>
    refine ⟨hi.nodup,fun hw => hi.waiting fun hnil => hw ?_⟩
    exact sublist_nil.mp (hnil ▸ hsub)
  | refused | emptyList | nothing | nobody => exact hi

lemma Outcome.threads (h : Outcome queue a o queue') :
    (queue.waitQ++pendedBy a o).Perm (readiedBy a o++queue'.waitQ) := by
  cases h with
  | handed _ h => simp [h]
  | refused => simp
  | placed => simp
  | emptyList => simp
  | list _ _ _ hlen =>
    have hmap : (queue.waitQ.zip (List.map some ‹_›)).map Prod.fst = queue.waitQ :=
      map_fst_zip (by simpa using hlen)
    simp [hmap]
  | got => simp
  | nothing => simp
  | pended => simpa using
      (perm_append_singleton ..).trans (WaitQueue.pend_perm ..).symm
  | cancelled h => simp [h]
  | nobody => simp
  | timedOut h => simpa using h

lemma delivered_zip (waitQ : List θ) (items : List α) :
    (waitQ.zip (items.map some)).filterMap Prod.snd = items.take waitQ.length := by
  induction waitQ generalizing items with
  | nil => simp
  | cons thread waitQ ih =>
    cases items with
    | nil => simp
    | cons data items => simp [ih]

/-- No item is lost or doubled. -/
lemma Outcome.items (h : Outcome queue a o queue') :
    (queue.dataQ.map data++insertedBy a o).Perm (deliveredBy a o++queue'.dataQ.map data) := by
  cases h with
  | handed ha =>
    rw [insertedBy_accepted ha]
    simp
  | refused ha =>
    rw [insertedBy_refused ha]
    simp
  | placed ha _ hdata _ hl =>
    rw [insertedBy_accepted ha]
    simpa [hl,hdata] using ((perm_append_singleton ..).append_left _)
  | emptyList => simp [EINVAL]
  | @list items =>
    have hdrop : ((items.drop queue.waitQ.length).map plain).map data = items.drop queue.waitQ.length := by
      rw [map_map]
      exact map_id _
    simp only [insertedBy,appendedBy,deliveredBy,if_true,delivered_zip,map_append,hdrop]
    calc (queue.dataQ.map data++items)
        = queue.dataQ.map data++(items.take queue.waitQ.length++
            items.drop queue.waitQ.length) := by rw [take_append_drop]
      List.Perm _ (items.take queue.waitQ.length++(queue.dataQ.map data++
            items.drop queue.waitQ.length)) := perm_append_comm_assoc ..
  | got h => simp [h]
  | nothing => simp
  | pended => simp
  | cancelled => simp
  | nobody => simp
  | timedOut => simp

/-- Appended items keep their order. -/
lemma Outcome.order (h : Outcome queue a o queue') (hi : Inv queue) {p : α → Bool}
    (hp : Appends p a) : (queue.dataQ.map data).filter p++appendedBy a o =
      (deliveredBy a o).filter p++(queue'.dataQ.map data).filter p := by
  cases h with
  | handed ha h =>
    have hnil := hi.waiting (by simp [h])
    rw [appendedBy_accepted ha,← hp.eq_isAppend ha]
    simp [hnil,filter_cons]
  | refused ha =>
    rw [appendedBy_refused ha]
    simp
  | placed ha _ hdata _ hl hend =>
    rw [appendedBy_accepted ha]
    have hpd := hp.eq_isAppend ha
    cases happ : isAppend a with
    | true => simp [hl,hend happ,hdata,hpd,happ]
    | false => simp [hl,hdata,hpd,happ]
  | emptyList => simp [EINVAL]
  | @list items =>
    have hdrop : ((items.drop queue.waitQ.length).map plain).map data = items.drop queue.waitQ.length := by
      rw [map_map]
      exact map_id _
    have hall : ∀ l : List α, l ⊆ items → l.filter p = l := fun l hl =>
      filter_eq_self.mpr fun x hx => hp x (hl hx)
    simp only [appendedBy,deliveredBy,if_true,delivered_zip,map_append,hdrop,
      filter_append,hall _ (take_subset ..),hall _ (drop_subset ..)]
    by_cases hw : queue.waitQ = []
    · simp [hw]
    · simp [hi.waiting hw]
  | got h => simp [h,filter_cons]; split <;> simp
  | nothing => simp
  | pended => simp
  | cancelled => simp
  | nobody => simp
  | timedOut => simp

/-- The loop of `k_queue_append_list` hands out its items one by one, and takes one thread
more than it has items. -/
lemma appendListLoop_eq (items : List α) (waitQ : List θ) (readied : List (θ × Option α)) :
    appendListLoop items waitQ.head? waitQ.tail readied = (items.drop waitQ.length,
      waitQ.drop (items.length+1),readied++waitQ.zip (items.map some)) := by
  induction items generalizing waitQ readied with
  | nil => cases waitQ <;> simp
  | cons data items ih =>
    cases waitQ with
    | nil => simp
    | cons thread waitQ => simp [ih]

variable [DecidableEq α]

/-- `queue_insert` has an outcome. -/
lemma queueInsert_outcome (hi : Inv queue) (prev : Option (Node α)) (data : α) (alloc : Bool)
    (malloc : Option ℕ) (ha : inserts a = some data) (hprev : queue.waitQ = [] → ∀ p ∈ prev, p ∈ queue.dataQ)
    (hplain : alloc = false → .plain data ∉ queue.dataQ)
    (halloc : alloc = true → malloc = none ∨ ∀ n ∈ queue.dataQ, n.anode ≠ malloc) :
    ∃ queue' o, queueInsert queue prev data alloc malloc (isAppend a) = some (queue',o) ∧
      Outcome queue a o queue' := by
  cases hw : queue.waitQ with
  | cons thread waitQ => exact ⟨_,_,by simp only [queueInsert,hw],.handed ha hw⟩
  | nil =>
    have hplace : ∀ node : Node α, ∃ l₁ l₂, queue.dataQ = l₁++l₂ ∧
        (isAppend a = true → l₂ = []) ∧
        sysSflistInsert (if isAppend a then queue.dataQ.getLast? else prev) node queue.dataQ =
          some (l₁++node::l₂) := by
      intro node
      cases happ : isAppend a with
      | true => exact ⟨queue.dataQ,[],by simp,fun _ => rfl,sysSflistInsert_getLast hi.nodup⟩
      | false =>
        obtain ⟨l₁,l₂,hl,heq⟩ := sysSflistInsert_split (hprev hw)
        exact ⟨l₁,l₂,hl,by simp,heq⟩
    cases alloc with
    | false =>
      obtain ⟨l₁,l₂,hl,hend,heq⟩ := hplace (.plain data)
      exact ⟨_,_,by simp [hw,heq],.placed ha hw rfl (hplain rfl) hl hend⟩
    | true =>
      cases malloc with
      | none => exact ⟨_,_,by simp [hw],.refused ha⟩
      | some anode =>
        obtain ⟨l₁,l₂,hl,hend,heq⟩ := hplace (.alloc anode data)
        have hfresh := (halloc rfl).resolve_left (by simp)
        have hnew : alloc anode data ∉ queue.dataQ := fun hmem => hfresh _ hmem rfl
        exact ⟨_,_,by simp [hw,heq],.placed ha hw rfl hnew hl hend⟩

variable [DecidableEq θ]

/-- Every step that meets the condition has a result, and it is one of the outcomes. -/
theorem step_outcome (hi : Inv queue) (hok : Meets queue a) :
    ∃ queue' o, step queue a = some (queue',o) ∧ Outcome queue a o queue' := by
  cases a with
  | insert prev data =>
    refine queueInsert_outcome hi _ data false none (a := .insert prev data) rfl
      (fun hw p hp => ?_) (fun _ => hok.1) (by simp)
    obtain ⟨d,hd,rfl⟩ := Option.mem_map.mp hp
    exact hok.2 hw d hd
  | append data =>
    exact queueInsert_outcome hi none data false none (a := .append data) rfl (by simp) (fun _ => hok)
      (by simp)
  | prepend data =>
    exact queueInsert_outcome hi none data false none (a := .prepend data) rfl (by simp) (fun _ => hok)
      (by simp)
  | allocAppend data malloc =>
    exact queueInsert_outcome hi none data true malloc (a := .allocAppend data malloc) rfl (by simp)
      (by simp) fun _ => hok
  | allocPrepend data malloc =>
    exact queueInsert_outcome hi none data true malloc (a := .allocPrepend data malloc) rfl (by simp)
      (by simp) fun _ => hok
  | appendList items =>
    cases items with
    | nil => exact ⟨_,_,rfl,.emptyList⟩
    | cons data items =>
      obtain ⟨hnodup,hnew,hlen⟩ := hok
      have hlen := hlen (by simp)
      refine ⟨_,_,?_,.list (by simp) hnodup hnew hlen⟩
      have hdrop : queue.waitQ.drop ((data::items).length+1) = [] := drop_eq_nil_of_le (by omega)
      simp only [step,kQueueAppendList,appendListLoop_eq,hdrop,nil_append]
  | get thread outranks wait =>
    cases hq : queue.dataQ with
    | cons node dataQ => exact ⟨_,_,by simp only [step,kQueueGet,hq],.got hq⟩
    | nil =>
      cases wait with
      | true => exact ⟨_,_,by simp [step,kQueueGet,hq],.pended hq⟩
      | false => exact ⟨_,_,by simp [step,kQueueGet,hq],.nothing⟩
  | cancelWait =>
    cases hw : queue.waitQ with
    | cons thread waitQ => exact ⟨_,_,by simp only [step,kQueueCancelWait,hw],.cancelled hw⟩
    | nil => exact ⟨_,_,by simp only [step,kQueueCancelWait,hw],.nobody⟩
  | timeout thread =>
    exact ⟨_,_,rfl,.timedOut (perm_cons_erase hok) (erase_sublist ..)⟩

end Steps

def init {α θ : Type*} : KQueue α θ := ⟨[],[]⟩

lemma inv_init {α θ : Type*} : Inv (init : KQueue α θ) := ⟨.nil,by simp [init]⟩

def mixedCalls : List (Action ℕ ℕ) :=
  [.get 0 (fun _ => false) true,.get 1 (fun _ => true) true,.append 10,.appendList [20,21],
    .insert (some 21) 22,.allocPrepend 20 (some 64),.get 2 (fun _ => false) false,.cancelWait]

def shortList : List (Action ℕ ℕ) :=
  [.get 0 (fun _ => false) true,.get 1 (fun _ => false) true,.appendList [10]]

end ArmFirmware.Zephyr.Queue
