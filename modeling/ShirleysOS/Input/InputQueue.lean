import ShirleysOS.Lib.Memory
import ShirleysOS.Lib.Ring
import ShirleysOS.Storage.BlockDevice

/-!
# The input queue under interrupts

An interrupt handler pushes bytes into a ring of 256 slots and ordinary code reads them or throws
them away. Neither side takes a lock: the producer stores `head` only and the consumer stores
`tail` only. Here each load and each store of `head`, `tail` and the buffer is one step, and the
steps of the two sides come in any order. Source: `kernel/io/input_queue.cpp`.
-/

namespace ShirleysOS.Input

open Lib Storage

/-- `InputQueue::capacity`. -/
abbrev capacity : ℕ := 256

abbrev indexMask : ℕ := capacity - 1

/-- `InputQueue`. -/
structure InputQueue where
  buffer : ℕ → UInt8
  head : ℕ
  tail : ℕ

namespace InputQueue

/-- `available`. -/
def available (q : InputQueue) : ℕ := Word.sub q.head q.tail &&& indexMask

/-- The bytes in the slots from `tail` up to `head`. -/
def pending (q : InputQueue) : List UInt8 := ring q.buffer capacity q.tail q.available

end InputQueue

/-- A call that has returned. -/
inductive Event
  | pushed (value : UInt8) (accepted : Bool)
  | received (bytes : List UInt8) (error : Error)
  | cleared (discarded : List UInt8)
deriving DecidableEq, Repr

/-! ## The producer -/

/-- The access that the producer makes next: none of a call, or one of `push`. -/
inductive Producer
  | idle
  | loadTail (value : UInt8) (head : ℕ)
  | storeByte (value : UInt8) (head next : ℕ)
  | storeHead (value : UInt8) (next : ℕ)
deriving DecidableEq, Repr

/-- The next access of `push`; an idle producer begins to push `value`. -/
def push (q : InputQueue) (value : UInt8) : Producer → InputQueue × Producer × Option Event
  | .idle => (q, .loadTail value q.head, none)
  | .loadTail value head =>
    let next := (head + 1) &&& indexMask
    if next = q.tail then (q, .idle, some (.pushed value false))
    else (q, .storeByte value head next, none)
  | .storeByte value head next =>
    ({ q with buffer := Function.update q.buffer head value }, .storeHead value next, none)
  | .storeHead value next => ({ q with head := next }, .idle, some (.pushed value true))

/-! ## The consumer -/

/-- A call of the consumer: `read` may be given no buffer. -/
inductive Call
  | read (length : ℕ) (buffer : Bool)
  | clear
deriving DecidableEq, Repr

/-- The access that the consumer makes next: none of a call, one of `read` with the bytes it has
put into its buffer so far, or the store of `clear`. -/
inductive Consumer
  | idle
  | testTail (out : List UInt8) (length : ℕ)
  | testHead (out : List UInt8) (length tail : ℕ)
  | loadIndex (out : List UInt8) (length : ℕ)
  | loadByte (out : List UInt8) (length index : ℕ)
  | loadTail (out : List UInt8) (length : ℕ)
  | storeTail (out : List UInt8) (length next : ℕ)
  | clearTail (head : ℕ)
deriving DecidableEq, Repr

/-- The next access of `read` or `clear`; an idle consumer begins `call`. -/
def read (q : InputQueue) (call : Call) : Consumer → InputQueue × Consumer × Option Event
  | .idle =>
    match call with
    | .read length buffer =>
      if length ≠ 0 ∧ !buffer then (q, .idle, some (.received [] .invalidArgument))
      -- the first access is the load of `tail` in the condition of the loop
      else if 0 < length then (q, .testHead [] length q.tail, none)
      else (q, .idle, some (.received [] .none))
    | .clear => (q, .clearTail q.head, none)
  | .testTail out length => (q, .testHead out length q.tail, none)
  | .testHead out length tail =>
    if tail ≠ q.head then (q, .loadIndex out length, none)
    else (q, .idle, some (.received out .none))
  | .loadIndex out length => (q, .loadByte out length q.tail, none)
  | .loadByte out length index => (q, .loadTail (out ++ [q.buffer index]) length, none)
  | .loadTail out length => (q, .storeTail out length ((q.tail + 1) &&& indexMask), none)
  | .storeTail out length next =>
    if out.length < length then ({ q with tail := next }, .testTail out length, none)
    else ({ q with tail := next }, .idle, some (.received out .none))
  | .clearTail head =>
    -- what is discarded is what lies between the old and the new `tail`
    ({ q with tail := head }, .idle, some (.cleared { q with head }.pending))

/-! ## Interleavings -/

/-- The queue and the two sides. -/
structure System where
  queue : InputQueue
  producer : Producer
  consumer : Consumer

/-- Which side makes its next access, and the call it begins when it is in none. -/
inductive Move
  | producer (value : UInt8)
  | consumer (call : Call)
deriving DecidableEq, Repr

/-- One access of one side. -/
def step (s : System) : Move → System × Option Event
  | .producer value =>
    let (queue, producer, event) := push s.queue value s.producer
    ({ s with queue, producer }, event)
  | .consumer call =>
    let (queue, consumer, event) := read s.queue call s.consumer
    ({ s with queue, consumer }, event)

/-- An execution from `s` on: the system it leads to, and the calls that returned, in order. -/
def run (s : System) : List Move → System × List Event
  | [] => (s, [])
  | move :: moves =>
    let (s, event) := step s move
    let (s, events) := run s moves
    (s, event.toList ++ events)

/-- The queue before the first call. -/
def start : System := ⟨⟨fun _ => 0, 0, 0⟩, .idle, .idle⟩

/-! ## What was accepted and what was consumed -/

/-- The byte that an event says was accepted. -/
def Event.acceptedByte : Event → List UInt8
  | .pushed value true => [value]
  | _ => []

/-- The bytes that an event says were consumed: returned by `read`, or discarded by `clear`. -/
def Event.consumedBytes : Event → List UInt8
  | .pushed _ _ => []
  | .received bytes _ => bytes
  | .cleared discarded => discarded

/-- The bytes whose `push` returned true. -/
def accepted (events : List Event) : List UInt8 := events.flatMap Event.acceptedByte

/-- The bytes that were returned by `read` or discarded by `clear`, in order. -/
def consumed (events : List Event) : List UInt8 := events.flatMap Event.consumedBytes

theorem consumed_received (bytes : List UInt8) (error : Error) :
    consumed (some (Event.received bytes error)).toList = bytes := List.append_nil bytes

theorem consumed_cleared (discarded : List UInt8) :
    consumed (some (Event.cleared discarded)).toList = discarded := List.append_nil discarded

/-- The bytes that the current call of the consumer has moved `tail` past. -/
def Consumer.moved : Consumer → List UInt8
  | .idle => []
  | .testTail out _ => out
  | .testHead out _ _ => out
  | .loadIndex out _ => out
  | .loadByte out _ _ => out
  | .loadTail out _ => out.dropLast
  | .storeTail out _ _ => out.dropLast
  | .clearTail _ => []

/-! ## What every access keeps -/

theorem and_indexMask (i : ℕ) : i &&& indexMask = i % capacity :=
  Nat.and_two_pow_sub_one_eq_mod i 8

/-- The queue holds `items`, and has a slot to spare. -/
structure Holds (q : InputQueue) (items : List UInt8) : Prop where
  tail_lt : q.tail < capacity
  room : items.length < capacity
  head_eq : q.head = (q.tail + items.length) % capacity
  items_eq : ring q.buffer capacity q.tail items.length = items

namespace Holds

variable {q : InputQueue} {items : List UInt8} {b : UInt8}

theorem available_eq (h : Holds q items) : q.available = items.length := by
  have htail := h.tail_lt
  have hroom := h.room
  have hhead := h.head_eq
  rw [InputQueue.available, and_indexMask, Word.sub, Word.size]
  simp only [capacity] at *
  split <;> omega

theorem pending_eq (h : Holds q items) : q.pending = items := by
  rw [InputQueue.pending, h.available_eq, h.items_eq]

theorem ne_nil (h : Holds q items) (hne : q.tail ≠ q.head) : items ≠ [] := by
  rintro rfl
  rw [h.head_eq, List.length_nil, Nat.add_zero, Nat.mod_eq_of_lt h.tail_lt] at hne
  exact hne rfl

theorem buffer_tail (h : Holds q (b :: items)) : q.buffer q.tail = b := by
  have hitems := h.items_eq
  rw [List.length_cons, ring_cons h.tail_lt] at hitems
  exact (List.cons.inj hitems).1

theorem store (h : Holds q items) (value : UInt8) :
    Holds { q with buffer := Function.update q.buffer q.head value } items where
  tail_lt := h.tail_lt
  room := h.room
  head_eq := h.head_eq
  items_eq := by rw [h.head_eq, ring_update h.room, h.items_eq]

theorem publish (h : Holds q items) (hroom : items.length + 1 < capacity) :
    Holds { q with head := (q.head + 1) % capacity } (items ++ [q.buffer q.head]) where
  tail_lt := h.tail_lt
  room := by rwa [List.length_append]
  head_eq := by rw [h.head_eq, Nat.mod_add_mod, List.length_append, List.length_singleton,
    Nat.add_assoc]
  items_eq := by rw [List.length_append, List.length_singleton, ring_succ, h.items_eq, h.head_eq]

theorem drop {first rest : List UInt8} (h : Holds q (first ++ rest)) :
    Holds { q with tail := (q.tail + first.length) % capacity } rest where
  tail_lt := Nat.mod_lt _ (by decide)
  room := by
    have := h.room
    rw [List.length_append] at this
    omega
  head_eq := by rw [h.head_eq, List.length_append, Nat.mod_add_mod, Nat.add_assoc]
  items_eq := by
    have hitems := h.items_eq
    rw [List.length_append, ring_add] at hitems
    exact (List.append_inj hitems length_ring).2

/-- The queue as it would be with its last items not there. -/
theorem take {first rest : List UInt8} (h : Holds q (first ++ rest)) :
    Holds { q with head := (q.tail + first.length) % capacity } first where
  tail_lt := h.tail_lt
  room := by
    have := h.room
    rw [List.length_append] at this
    omega
  head_eq := rfl
  items_eq := by
    have hitems := h.items_eq
    rw [List.length_append, ring_add] at hitems
    exact (List.append_inj hitems length_ring).1

end Holds

/-- What the producer knows at each of its accesses. The consumer stores neither `head` nor the
buffer, and can only make room. -/
def Producer.Knows (q : InputQueue) (items : List UInt8) : Producer → Prop
  | .idle => True
  | .loadTail _ head => head = q.head
  | .storeByte _ head next =>
    head = q.head ∧ next = (q.head + 1) % capacity ∧ items.length + 1 < capacity
  | .storeHead value next =>
    q.buffer q.head = value ∧ next = (q.head + 1) % capacity ∧ items.length + 1 < capacity

/-- What the consumer knows at each of its accesses. The producer does not store `tail`, and can
only add behind the last item. -/
def Consumer.Knows (q : InputQueue) (items : List UInt8) : Consumer → Prop
  | .idle => True
  | .testTail _ _ => True
  | .testHead _ _ tail => tail = q.tail
  | .loadIndex _ _ => items ≠ []
  | .loadByte _ _ index => index = q.tail ∧ items ≠ []
  | .loadTail out _ => ∃ before b rest, out = before ++ [b] ∧ items = b :: rest
  | .storeTail out _ next =>
    next = (q.tail + 1) % capacity ∧ ∃ before b rest, out = before ++ [b] ∧ items = b :: rest
  | .clearTail head => ∃ first rest, items = first ++ rest ∧
    head = (q.tail + first.length) % capacity

theorem Producer.Knows.shrink {q : InputQueue} {items rest : List UInt8} {p : Producer}
    (h : p.Knows q items) (tail : ℕ) (hlen : rest.length ≤ items.length) :
    p.Knows { q with tail } rest := by
  cases p with
  | idle => trivial
  | loadTail value head => exact h
  | storeByte value head next => exact ⟨h.1, h.2.1, by have := h.2.2; omega⟩
  | storeHead value next => exact ⟨h.1, h.2.1, by have := h.2.2; omega⟩

theorem Consumer.Knows.grow {q q' : InputQueue} {items : List UInt8} {c : Consumer}
    (h : c.Knows q items) (htail : q'.tail = q.tail) (more : List UInt8) :
    c.Knows q' (items ++ more) := by
  cases c with
  | idle => trivial
  | testTail out length => trivial
  | testHead out length tail => exact h.trans htail.symm
  | loadIndex out length => exact List.append_ne_nil_of_left_ne_nil h more
  | loadByte out length index =>
    exact ⟨h.1.trans htail.symm, List.append_ne_nil_of_left_ne_nil h.2 more⟩
  | loadTail out length =>
    obtain ⟨before, b, rest, hout, hitems⟩ := h
    exact ⟨before, b, rest ++ more, hout, by rw [hitems, List.cons_append]⟩
  | storeTail out length next =>
    obtain ⟨hnext, before, b, rest, hout, hitems⟩ := h
    exact ⟨htail ▸ hnext, before, b, rest ++ more, hout, by rw [hitems, List.cons_append]⟩
  | clearTail head =>
    obtain ⟨first, rest, hitems, hhead⟩ := h
    exact ⟨first, rest ++ more, by rw [hitems, List.append_assoc], htail ▸ hhead⟩

/-- The queue holds `items`, and both sides know what they rely on. -/
structure Sound (s : System) (items : List UInt8) : Prop where
  holds : Holds s.queue items
  producer : s.producer.Knows s.queue items
  consumer : s.consumer.Knows s.queue items

/-- An access of the producer adds the byte it accepts, if any, behind the others. -/
theorem push_knows {q : InputQueue} {items : List UInt8} {p : Producer} (hq : Holds q items)
    (hp : p.Knows q items) (value : UInt8) :
    ∃ more, Holds (push q value p).1 (items ++ more) ∧
      (push q value p).2.1.Knows (push q value p).1 (items ++ more) ∧
      (push q value p).1.tail = q.tail ∧
      accepted (push q value p).2.2.toList = more ∧ consumed (push q value p).2.2.toList = [] := by
  cases p with
  | idle => exact ⟨[], by rwa [List.append_nil], rfl, rfl, rfl, rfl⟩
  | loadTail value head =>
    obtain rfl : head = q.head := hp
    rw [push, and_indexMask]
    split
    · exact ⟨[], by rwa [List.append_nil], trivial, rfl, rfl, rfl⟩
    · next hfull =>
      refine ⟨[], by rwa [List.append_nil], ⟨rfl, rfl, ?_⟩, rfl, rfl, rfl⟩
      -- with 255 items the slot after `head` would be the one at `tail`
      have htail := hq.tail_lt
      have hroom := hq.room
      rw [hq.head_eq, Nat.mod_add_mod] at hfull
      rw [List.append_nil]
      simp only [capacity] at *
      omega
  | storeByte value head next =>
    obtain ⟨rfl, hnext, hroom⟩ := hp
    refine ⟨[], ?_, ⟨?_, hnext, ?_⟩, rfl, rfl, rfl⟩
    · rw [List.append_nil]
      exact hq.store value
    · exact Function.update_self _ _ _
    · rwa [List.append_nil]
  | storeHead value next =>
    obtain ⟨rfl, rfl, hroom⟩ := hp
    exact ⟨[q.buffer q.head], hq.publish hroom, trivial, rfl, rfl, rfl⟩

/-- An access of the consumer moves `tail` past the first items, which its call has then taken. -/
theorem read_knows {q : InputQueue} {items : List UInt8} {c : Consumer} (hq : Holds q items)
    (hc : c.Knows q items) (call : Call) :
    ∃ tail taken rest, items = taken ++ rest ∧ (read q call c).1 = { q with tail } ∧
      Holds (read q call c).1 rest ∧ (read q call c).2.1.Knows (read q call c).1 rest ∧
      c.moved ++ taken = consumed (read q call c).2.2.toList ++ (read q call c).2.1.moved ∧
      accepted (read q call c).2.2.toList = [] := by
  cases c with
  | idle =>
    refine ⟨q.tail, [], items, rfl, ?_⟩
    cases call with
    | read length buffer =>
      rw [read]
      split
      · exact ⟨rfl, hq, trivial, rfl, rfl⟩
      split
      · exact ⟨rfl, hq, rfl, rfl, rfl⟩
      · exact ⟨rfl, hq, trivial, rfl, rfl⟩
    | clear => exact ⟨rfl, hq, ⟨items, [], (List.append_nil _).symm, hq.head_eq⟩, rfl, rfl⟩
  | testTail out length =>
    exact ⟨q.tail, [], items, rfl, rfl, hq, rfl, by rw [List.append_nil]; rfl, rfl⟩
  | testHead out length tail =>
    obtain rfl : tail = q.tail := hc
    refine ⟨q.tail, [], items, rfl, ?_⟩
    rw [read]
    split
    · next hne => exact ⟨rfl, hq, hq.ne_nil hne, by rw [List.append_nil]; rfl, rfl⟩
    · exact ⟨rfl, hq, trivial, by rw [consumed_received]; rfl, rfl⟩
  | loadIndex out length =>
    exact ⟨q.tail, [], items, rfl, rfl, hq, ⟨rfl, hc⟩, by rw [List.append_nil]; rfl, rfl⟩
  | loadByte out length index =>
    obtain ⟨rfl, hne⟩ := hc
    obtain ⟨b, rest, rfl⟩ := List.exists_cons_of_ne_nil hne
    refine ⟨q.tail, [], b :: rest, rfl, rfl, hq, ⟨out, b, rest, ?_, rfl⟩, ?_, rfl⟩
    · rw [hq.buffer_tail]
    · exact (List.append_nil _).trans List.dropLast_concat.symm
  | loadTail out length =>
    refine ⟨q.tail, [], items, rfl, rfl, hq, ⟨?_, hc⟩, by rw [List.append_nil]; rfl, rfl⟩
    exact and_indexMask _
  | storeTail out length next =>
    obtain ⟨rfl, before, b, rest, rfl, rfl⟩ := hc
    refine ⟨(q.tail + 1) % capacity, [b], rest, rfl, ?_⟩
    -- only here and in `clearTail` does the queue lose items
    have hdrop : Holds { q with tail := (q.tail + 1) % capacity } rest :=
      @Holds.drop _ [b] _ hq
    have hmoved : (before ++ [b]).dropLast ++ [b] = before ++ [b] := by
      rw [List.dropLast_concat]
    rw [read]
    split
    · exact ⟨rfl, hdrop, trivial, hmoved, rfl⟩
    · refine ⟨rfl, hdrop, trivial, ?_, rfl⟩
      rw [consumed_received]
      exact hmoved.trans (List.append_nil _).symm
  | clearTail head =>
    obtain ⟨first, rest, rfl, rfl⟩ := hc
    refine ⟨(q.tail + first.length) % capacity, first, rest, rfl, rfl, hq.drop, trivial, ?_, rfl⟩
    rw [read, consumed_cleared, hq.take.pending_eq]
    exact (List.append_nil first).symm

variable {s : System} {items : List UInt8}

/-- **Every access keeps the queue sound**, and what is consumed, moved and held follows what is
accepted. -/
theorem Sound.step (h : Sound s items) (move : Move) :
    ∃ items', Sound (step s move).1 items' ∧
      s.consumer.moved ++ items ++ accepted (step s move).2.toList =
        consumed (step s move).2.toList ++ ((step s move).1.consumer.moved ++ items') := by
  cases move with
  | producer value =>
    obtain ⟨more, hholds, hknows, htail, haccepted, hconsumed⟩ :=
      push_knows h.holds h.producer value
    refine ⟨items ++ more, ⟨hholds, hknows, h.consumer.grow htail more⟩, ?_⟩
    simp only [Input.step, haccepted, hconsumed, List.nil_append, List.append_assoc]
  | consumer call =>
    obtain ⟨tail, taken, rest, rfl, hqueue, hholds, hknows, hmoved, haccepted⟩ :=
      read_knows h.holds h.consumer call
    refine ⟨rest, ⟨hholds, ?_, hknows⟩, ?_⟩
    · have := @Producer.Knows.shrink _ _ rest _ h.producer tail (by rw [List.length_append]; omega)
      simpa only [Input.step, hqueue] using this
    · simp only [Input.step, haccepted, List.append_nil]
      rw [← List.append_assoc, hmoved, List.append_assoc]

/-- **Every execution keeps the queue sound.** -/
theorem Sound.run (h : Sound s items) (moves : List Move) :
    ∃ items', Sound (run s moves).1 items' ∧
      s.consumer.moved ++ items ++ accepted (run s moves).2 =
        consumed (run s moves).2 ++ ((run s moves).1.consumer.moved ++ items') := by
  induction moves generalizing s items with
  | nil => exact ⟨items, h, List.append_nil _⟩
  | cons move moves ih =>
    obtain ⟨items₁, hstep, hbytes⟩ := h.step move
    obtain ⟨items₂, hrun, hrest⟩ := ih hstep
    refine ⟨items₂, hrun, ?_⟩
    simp only [Input.run, accepted, consumed, List.flatMap_append] at *
    rw [← List.append_assoc, hbytes, List.append_assoc, hrest, List.append_assoc]

theorem sound_start : Sound start [] where
  holds := ⟨by decide, by decide, rfl, rfl⟩
  producer := trivial
  consumer := trivial

/-- A push is refused by a full queue only. -/
theorem Sound.full_of_refused (h : Sound s items) {value byte : UInt8}
    (hrefused : (Input.step s (.producer value)).2 = some (.pushed byte false)) :
    items.length = capacity - 1 := by
  have hknows := h.producer
  simp only [Input.step] at hrefused
  cases hp : s.producer with
  | idle => rw [hp, push] at hrefused; cases hrefused
  | loadTail value head =>
    rw [hp] at hrefused hknows
    obtain rfl : head = s.queue.head := hknows
    rw [push, and_indexMask] at hrefused
    split at hrefused
    · next hfull =>
      have htail := h.holds.tail_lt
      have hroom := h.holds.room
      rw [h.holds.head_eq, Nat.mod_add_mod] at hfull
      simp only [capacity] at *
      omega
    · cases hrefused
  | storeByte value head next => rw [hp, push] at hrefused; cases hrefused
  | storeHead value next => rw [hp, push] at hrefused; cases hrefused

/-- **The queue is first in, first out, in every interleaving.** After any accesses of the two
sides, the bytes whose `push` returned true are the bytes that calls of `read` returned and calls
of `clear` discarded, in the order of these calls, then those that the current `read` has moved
past, then those in the queue. The byte that a `read` loads is the first of those in the queue.
A `push` that returns false loaded `tail` while 255 accepted bytes were in the queue. -/
theorem run_fifo (moves : List Move) :
    accepted (run start moves).2 =
        consumed (run start moves).2 ++
          ((run start moves).1.consumer.moved ++ (run start moves).1.queue.pending) ∧
      (∀ out length index, (run start moves).1.consumer = .loadByte out length index →
        (run start moves).1.queue.pending.head? =
          some ((run start moves).1.queue.buffer index)) ∧
      ∀ value byte, (step (run start moves).1 (.producer value)).2 = some (.pushed byte false) →
        (run start moves).1.queue.pending.length = capacity - 1 := by
  obtain ⟨items, hsound, hbytes⟩ := sound_start.run moves
  rw [hsound.holds.pending_eq]
  refine ⟨hbytes, fun out length index hload => ?_, fun value byte => hsound.full_of_refused⟩
  have hknows := hsound.consumer
  rw [hload] at hknows
  obtain ⟨rfl, hne⟩ := hknows
  obtain ⟨b, rest, rfl⟩ := List.exists_cons_of_ne_nil hne
  rw [hsound.holds.buffer_tail]
  rfl

/-- The accesses of one `push` and of one `read`, with the first two of another `push` after the
first of the `read`. -/
def oneByte : List Move :=
  List.replicate 4 (.producer 65) ++ [.consumer (.read 1 true)] ++
    List.replicate 2 (.producer 66) ++ List.replicate 5 (.consumer .clear)

theorem run_fifo_oneByte :
    (run start oneByte).2 = [.pushed 65 true, .received [65] .none] ∧
      accepted (run start oneByte).2 =
        consumed (run start oneByte).2 ++
          ((run start oneByte).1.consumer.moved ++ (run start oneByte).1.queue.pending) :=
  ⟨by decide, (run_fifo oneByte).1⟩

end ShirleysOS.Input
