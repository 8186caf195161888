import Mathlib.Logic.Function.Basic
import Tickerplant.Lib.Interleave
import Tickerplant.Lib.Word

/-!
# The many-to-many ring

`MpmcQueue<T, Capacity>`: a ring of slots, each with a sequence counter beside its payload, and
two positions, `tail_` for the producers and `head_` for the consumers. A slot whose sequence is
`pos` is free for the push at position `pos`; with `pos + 1` it holds that push's item; the pop
at `pos` leaves `pos + Capacity`, which frees it for the push one lap ahead.

`push_impl` and `try_pop` are one loop: load a position, look at the slot's sequence, compare,
claim the position by a compare-exchange, move the payload, store the sequence. They differ in
which position they claim, which sequence they wait for, which they leave behind and which way the
payload goes, and `Op` is those four differences. Every load, compare-exchange, copy and store is
a step of its own, and a compare-exchange may fail for no reason.

All counters are the `std::size_t` of the source and wrap. What they would be without wrapping is
kept in the history, where each claimed position has a *ticket*: the number of claims before it.

**The comparison is not a comparison of counters.** The source casts both to `std::intptr_t` and
subtracts, and signed subtraction does not wrap: where the difference does not fit, the program has
no meaning. `signedDiff` answers nothing there and the thread goes to `Pc.undefined`, a state of
its own, so that a run can reach it and a theorem can say that none does. The counters that bring
it about are those astride `2 ^ 63` (`signedDiff_eq_none_iff`); the wrap at `2 ^ 64`, which is the
one the source speaks of, is harmless.
-/

set_option autoImplicit false

namespace Tickerplant
namespace MpmcQueue

open Lib
open Interleave

/-- The template argument, with what the `static_assert`s and its type say of it. -/
structure Capacity where
  size : ℕ
  /-- With one slot the two marks of a lap would be one number. -/
  two : 2 ≤ size
  /-- So that the mask is a remainder. -/
  power : ∃ m, size = 2 ^ m
  word : size < 2 ^ 64

/-- A sequence counter beside its payload. -/
structure Slot (α : Type) where
  seq : UInt64
  value : α

/-- Which of the two functions. -/
inductive Kind where
  | push
  | pop
  deriving DecidableEq, Repr

/-- A call with its argument. -/
inductive Op (α : Type) where
  | push (item : α)
  | pop

/-- Which of the two functions is called. -/
def Op.kind {α : Type} : Op α → Kind
  | .push _ => .push
  | .pop => .pop

/-- Where a thread stands in the loop. -/
inductive Pc (α : Type) where
  /-- Holds `pos`, about to load the slot's sequence. -/
  | seeking (pos : UInt64)
  /-- The sequence was ahead, about to load the position again. -/
  | reloading
  /-- The sequence was the awaited one, about to compare and exchange. -/
  | claiming (pos : UInt64)
  /-- Owns the position, about to move the payload. -/
  | copying (pos : UInt64)
  /-- Has moved the payload, about to store the sequence. -/
  | releasing (pos : UInt64) (moved : α)
  /-- Has subtracted where the difference does not fit. Nothing is known of what follows. -/
  | undefined

/-- The queue and the threads at it; `none` is a thread in no call. -/
structure State (α T : Type) where
  head : UInt64
  tail : UInt64
  slots : ℕ → Slot α
  thread : T → Option (Op α × Pc α)

/-- What a call returns: true, with the item that went in or came out, or false. -/
inductive Reply (α : Type) where
  | pushed (item : α)
  | full
  | popped (item : α)
  | empty

/-- Whose turn it is, and for what. -/
inductive Action (α T : Type) where
  /-- Thread `t` calls, and loads the position. -/
  | call (t : T) (op : Op α)
  /-- Thread `t` takes its next step. -/
  | go (t : T)
  /-- The compare-exchange of `t` fails for no reason. -/
  | spurious (t : T)

variable {α T : Type}

/-! ## What the two functions differ in -/

/-- The position the function claims. -/
def State.position (q : State α T) : Kind → UInt64
  | .push => q.tail
  | .pop => q.head

/-- The position the function claims, moved on. -/
def State.setPosition (q : State α T) (pos : UInt64) : Kind → State α T
  | .push => { q with tail := pos }
  | .pop => { q with head := pos }

/-- The sequence the function waits for: `seq - pos`, `seq - (pos + 1)`. -/
def awaited (pos : UInt64) : Kind → UInt64
  | .push => pos
  | .pop => pos + 1

/-- The sequence it stores when it is done. -/
def released (cap : Capacity) (pos : UInt64) : Kind → UInt64
  | .push => pos + 1
  | .pop => pos + UInt64.ofNat cap.size

/-- `slot.value = std::forward<U>(item)`, `out = std::move(slot.value)`: the item moved, and what
is in the slot afterwards. `left` is what a moved-from item looks like. -/
def Op.move (left : α → α) (value : α) : Op α → α × α
  | .push item => (item, item)
  | .pop => (value, left value)

/-- What the call answers when it has moved an item. -/
def Kind.accept (moved : α) : Kind → Reply α
  | .push => .pushed moved
  | .pop => .popped moved

/-- What it answers when the slot is behind. -/
def Kind.refuse : Kind → Reply α
  | .push => .full
  | .pop => .empty

/-! ## The loop

The body is `attempt`, and `push_impl` and `try_pop` are it with one argument and with none. A
thread that has claimed its position is certain to finish; one that has not may go round again, or
give up. -/

section Machine

variable [DecidableEq T]

/-- Thread `t` stands elsewhere; nothing else moves. -/
def State.setThread (q : State α T) (t : T) (p : Option (Op α × Pc α)) : State α T :=
  { q with thread := Function.update q.thread t p }

/-- Slot `i` holds something else; nothing else moves. -/
def State.setSlot (q : State α T) (i : ℕ) (s : Slot α) : State α T :=
  { q with slots := Function.update q.slots i s }

/-- One turn of the loop body, or of what follows it, and what the call returns if it returns
here. There is no turn after an undefined subtraction. -/
def attempt (cap : Capacity) (left : α → α) (q : State α T) (t : T) (op : Op α) :
    Pc α → Option (State α T × Option (Reply α))
  | .seeking pos =>
    let seq := (q.slots (maskIndex cap.size pos)).seq
    match signedDiff seq (awaited pos op.kind) with
    | none => some (q.setThread t (some (op, .undefined)), none)
    | some diff =>
      if diff = 0 then some (q.setThread t (some (op, .claiming pos)), none)
      else if diff < 0 then some (q.setThread t none, some op.kind.refuse)
      else some (q.setThread t (some (op, .reloading)), none)
  | .reloading => some (q.setThread t (some (op, .seeking (q.position op.kind))), none)
  | .claiming pos =>
    if q.position op.kind = pos then
      some ((q.setPosition (pos + 1) op.kind).setThread t (some (op, .copying pos)), none)
    else some (q.setThread t (some (op, .seeking (q.position op.kind))), none)
  | .copying pos =>
    let i := maskIndex cap.size pos
    let (moved, value) := op.move left (q.slots i).value
    some ((q.setSlot i { q.slots i with value := value }).setThread t
      (some (op, .releasing pos moved)), none)
  | .releasing pos moved =>
    let i := maskIndex cap.size pos
    some ((q.setSlot i { q.slots i with seq := released cap pos op.kind }).setThread t none,
      some (op.kind.accept moved))
  | .undefined => none

/-- `push_impl`, one step of it. -/
def pushImpl (cap : Capacity) (left : α → α) (q : State α T) (t : T) (item : α) :
    Pc α → Option (State α T × Option (Reply α)) :=
  attempt cap left q t (.push item)

/-- `try_pop`, one step of it. -/
def tryPop (cap : Capacity) (left : α → α) (q : State α T) (t : T) :
    Pc α → Option (State α T × Option (Reply α)) :=
  attempt cap left q t .pop

/-- One step of the machine. -/
def step (cap : Capacity) (left : α → α) (q : State α T) :
    Action α T → Option (State α T × Option (Reply α))
  | .call t op =>
    match q.thread t with
    | none => some (q.setThread t (some (op, .seeking (q.position op.kind))), none)
    | some _ => none
  | .go t =>
    match q.thread t with
    | none => none
    | some (.push item, pc) => pushImpl cap left q t item pc
    | some (.pop, pc) => tryPop cap left q t pc
  | .spurious t =>
    match q.thread t with
    | some (op, .claiming _) =>
      some (q.setThread t (some (op, .seeking (q.position op.kind))), none)
    | _ => none

end Machine

/-- A queue just built. -/
def new (value : α) : State α T where
  head := 0
  tail := 0
  slots i := ⟨UInt64.ofNat i, value⟩
  thread _ := none

/-! ## What is remembered

The machine counts modulo `2 ^ 64`, the history does not. It also keeps what no part of the machine
knows: who claimed which position, and what the calls that returned said. -/

/-- One finished call: its thread, the ticket it held last and what it returned. -/
structure Returned (α T : Type) where
  thread : T
  ticket : ℕ
  reply : Reply α

/-- `claims` lists the threads that claimed a position, in the order of the claims, and `items`
what the pushes among them brought; both begin with what was in the queue at the start, and
`first` is how much that was. `stamp` is each slot's sequence and `ticket` each thread's last
loaded position, neither wrapped and both counted from `base`. `log` has the calls that returned,
`since` how many those were when a thread's call began. -/
structure History (α T : Type) where
  base : UInt64
  first : ℕ
  claims : Kind → List T
  items : List α
  stamp : ℕ → ℕ
  ticket : T → ℕ
  log : List (Returned α T)
  since : T → ℕ

/-- How many claims of a kind there have been: the position, not wrapped. -/
def History.count (h : History α T) (k : Kind) : ℕ := (h.claims k).length

/-- The slot of a ticket. -/
def History.place (cap : Capacity) (h : History α T) (j : ℕ) : ℕ :=
  (h.base.toNat + j) % cap.size

/-- The sequence a slot shows to the owner of ticket `j`, and the one the owner leaves. -/
def mark (j : ℕ) : Kind → ℕ
  | .push => j
  | .pop => j + 1

/-- The sequence the owner of ticket `j` leaves, not wrapped. -/
def leaves (cap : Capacity) (j : ℕ) : Kind → ℕ
  | .push => j + 1
  | .pop => j + cap.size

section Memory

variable [DecidableEq T]

/-- Thread `t` loaded the position of kind `k`. -/
def History.load (h : History α T) (t : T) (k : Kind) : History α T :=
  { h with ticket := Function.update h.ticket t (h.count k) }

/-- Thread `t` claimed the position it held. -/
def History.claim (h : History α T) (t : T) : Op α → History α T
  | .push item =>
    { h with
      claims := Function.update h.claims .push (h.claims .push ++ [t])
      items := h.items ++ [item] }
  | .pop => { h with claims := Function.update h.claims .pop (h.claims .pop ++ [t]) }

/-- The slot of the ticket of `t` has a new sequence. -/
def History.release (cap : Capacity) (h : History α T) (t : T) (k : Kind) : History α T :=
  { h with stamp := Function.update h.stamp (h.place cap (h.ticket t)) (leaves cap (h.ticket t) k) }

/-- A call of `t` returned. -/
def History.close (h : History α T) (t : T) (reply : Reply α) : History α T :=
  { h with log := h.log ++ [⟨t, h.ticket t, reply⟩] }

/-- Whose step it is. -/
def Action.thread : Action α T → T
  | .call t _ => t
  | .go t => t
  | .spurious t => t

/-- What a call's beginning adds. -/
def History.begin (h : History α T) : Action α T → History α T
  | .call t _ => { h with since := Function.update h.since t h.log.length }
  | _ => h

/-- What a step adds. A thread that is about to look has just loaded a position, and one that is
about to copy has just claimed one. -/
def record (cap : Capacity) (h : History α T) (a : Action α T)
    (s : State α T × Option (Reply α)) : History α T :=
  let t := a.thread
  match s.2 with
  | some (.pushed item) => (h.release cap t .push).close t (.pushed item)
  | some (.popped item) => (h.release cap t .pop).close t (.popped item)
  | some reply => h.close t reply
  | none =>
    match s.1.thread t with
    | some (op, .seeking _) => (h.begin a).load t op.kind
    | some (op, .copying _) => h.claim t op
    | _ => h

/-- The machine and its history. -/
abbrev World (α T : Type) := State α T × History α T

/-- The machine with its history. -/
def advance (cap : Capacity) (left : α → α) : World α T → Action α T → Option (World α T) :=
  observed (step cap left) (record cap)

/-- The history is beside the ring and not in it: the states a run goes through are those of the
machine alone, whatever was remembered before. -/
theorem run_advance (cap : Capacity) (left : α → α) (acts : List (Action α T)) (q : State α T)
    (h : History α T) :
    (run (advance cap left) (q, h) acts).map Prod.fst =
      run (fun q a => (step cap left q a).map Prod.fst) q acts :=
  run_observed acts q h

end Memory

/-! ## Where a run may start -/

/-- No call is running and the slots from `head` on hold `held`, the rest of them free. The
positions may be anywhere: this is every state the queue rests in, see `quiescent_again`. -/
structure Quiescent (cap : Capacity) (held : List α) (q : State α T) : Prop where
  /-- No call is running. -/
  idle : ∀ t, q.thread t = none
  fits : held.length ≤ cap.size
  tail : q.tail = q.head + UInt64.ofNat held.length
  /-- The items lie in their order from `head` on, each marked as the one its pop waits for. -/
  full : ∀ j x, held[j]? = some x →
    q.slots (maskIndex cap.size (q.head + UInt64.ofNat j)) = ⟨q.head + UInt64.ofNat j + 1, x⟩
  /-- The other slots are marked as the ones the next pushes wait for. -/
  free : ∀ j, held.length ≤ j → j < cap.size →
    (q.slots (maskIndex cap.size (q.head + UInt64.ofNat j))).seq = q.head + UInt64.ofNat j

/-- The first ticket slot `i` comes to. -/
def home (cap : Capacity) (q : State α T) (i : ℕ) : ℕ :=
  (i + (cap.size - q.head.toNat % cap.size)) % cap.size

/-- The history at the start. `held` says of every item in the queue who pushed it. -/
def History.start (cap : Capacity) (q : State α T) (held : List (T × α)) : History α T where
  base := q.head
  first := held.length
  claims
    | .push => held.map Prod.fst
    | .pop => []
  items := held.map Prod.snd
  stamp i := if home cap q i < held.length then home cap q i + 1 else home cap q i
  ticket _ := 0
  log := []
  since _ := 0

/-- During no call do `2 ^ 63` others return. -/
def Unhurried (w : World α T) : Prop :=
  ∀ t, w.1.thread t ≠ none → w.2.log.length - w.2.since t < 2 ^ 63

/-- No thread has done what the language leaves undefined. -/
def State.Defined (q : State α T) : Prop := ∀ t op, q.thread t ≠ some (op, .undefined)

/-- The look of a call of kind `k` that holds `pos` compares two counters astride `2 ^ 63`. -/
def State.Astride (cap : Capacity) (q : State α T) (pos : UInt64) (k : Kind) : Prop :=
  Lib.Astride (q.slots (maskIndex cap.size pos)).seq (awaited pos k)

instance (cap : Capacity) (q : State α T) (pos : UInt64) (k : Kind) :
    Decidable (q.Astride cap pos k) := inferInstanceAs (Decidable (Lib.Astride _ _))

/-- The step is no look across `2 ^ 63`: the condition on a step under which the ring does what it
is for. -/
def Sound (cap : Capacity) (w : World α T) : Action α T → Prop
  | .go t => ∀ op pos, w.1.thread t = some (op, .seeking pos) → ¬ w.1.Astride cap pos op.kind
  | _ => True

end MpmcQueue
end Tickerplant
