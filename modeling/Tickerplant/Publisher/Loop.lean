import Tickerplant.Itch.Agree
import Tickerplant.Itch.File
import Tickerplant.Lib.Trace
import Tickerplant.Mold.Roundtrip
import Tickerplant.Publisher.Retransmit
import Tickerplant.Receiver.Basic

/-!
# The publish loop (`tools/tickerplant_pub.cpp`)

Messages are read from the file one by one, numbered from one, put in the store a re-request is
answered from, and packed: as many to a packet as the batch setting allows and the packet's 1400
bytes hold. A packet is finished when its next message does not fit, when it has a batch of them,
or at the end.

The first message is read ahead of the loop, for the manifest, and handed to it by `next_message`.
What the loop does is recorded in `log`: each message stored, and each packet finished, with the
sequence and the time stamp its schedule is computed from. When a packet leaves, on which line, and
whether a failure is injected, is the business of `send_packet` and is left out here, as are the
counters that are only printed. `stop` is what `g_stop` is found to be at the top of each round.

The invariant has two parts. `Sent` is about the packets that are finished and speaks of the log
alone. `Packing` adds the packet under construction, which will be finished at a time the loop does
not know yet, so whatever is to hold then has to hold of its messages already: they are stored, and
there are no more than a batch of them. Each function of the source has one lemma that says what it
does to `Packing` (`flush_spec`, `nextPacket_spec`, `append_spec`, `offer_spec`), a round has
`publish_spec`, and the loop is an induction on what is still to be read (`loop_spec`).
-/

set_option autoImplicit false

namespace Tickerplant

open Lib Mold

/-- The options the loop reads, with their defaults. -/
structure PubOptions where
  session : List UInt8 := []
  /-- Zero is no limit. -/
  limit : UInt64 := 0
  /-- An `int`, as it is parsed. -/
  batch : ℤ := 8
  storeCapacity : ℕ := 1 <<< 20
  deriving DecidableEq, Repr

/-- `opt.batch`, after the two lines that bound it. -/
def clampBatch (batch : ℤ) : ℤ :=
  let b := if batch < 1 then 1 else batch
  if kMaxCount.toNat < b then kMaxCount.toNat else b

/-- One thing the loop does that others see. -/
inductive PubEvent where
  /-- A message offered to the store, and whether it fitted a slot. -/
  | stored (seq : UInt64) (msg : Payload) (kept : Bool)
  /-- A finished packet, with `packet_first_seq` and `packet_first_ts`. -/
  | packet (bytes : List UInt8) (firstSeq firstTs : UInt64)
  deriving DecidableEq, Repr

/-- The variables of `main` that the loop works on. -/
structure Publisher where
  file : ItchFile
  /-- Read ahead for the manifest, and empty if the file has none. -/
  firstMsg : List UInt8 := []
  usedFirst : Bool := false
  builder : PacketBuilder
  store : RetransmitStore
  /-- The number of the next message. -/
  sequence : UInt64 := 1
  messages : UInt64 := 0
  packetFirstSeq : UInt64 := 1
  /-- The time stamp of the packet's first message. -/
  packetFirstTs : UInt64 := 0
  log : List PubEvent := []

namespace Publisher

variable (opt : PubOptions) (split : ℕ → ℕ) (stop : ℕ → Bool)

/-- The time stamp of a message, or zero when it has no room for one. -/
def itchTs (msg : Payload) : Checked UInt64 :=
  if Itch.kHeaderLen ≤ msg.length then Itch.timestamp msg else .ok 0

/-- The message that was read ahead, once, and then those of the file. -/
def nextMessage (p : Publisher) : Option Payload × Publisher :=
  if p.usedFirst = false ∧ p.firstMsg ≠ [] then (some p.firstMsg, { p with usedFirst := true })
  else
    let r := p.file.next split
    (r.1, { p with file := r.2 })

/-- Finishes a packet that has a message, and leaves an empty one alone. -/
def flushPacket (p : Publisher) : Checked Publisher :=
  if p.builder.count = 0 then .ok p
  else do
    let pkt ← p.builder.finish
    return { p with log := p.log ++ [PubEvent.packet pkt p.packetFirstSeq p.packetFirstTs] }

/-- Finish the packet and start the next, at the sequence reached: the four lines that come after a
message that did not fit, and after a full batch. -/
def nextPacket (p : Publisher) (firstTs : UInt64) : Checked Publisher := do
  let p ← p.flushPacket
  let builder ← p.builder.reset p.sequence
  return { p with builder := builder, packetFirstSeq := p.sequence, packetFirstTs := firstTs }

/-- Put a message in the packet under construction, or in a new one if it does not fit. The flag
says whether it fitted either. -/
def append (p : Publisher) (msg : Payload) (ts : UInt64) : Checked (Bool × Publisher) := do
  let r ← p.builder.tryAppend msg
  if r.1 then return (true, { p with builder := r.2 })
  else
    let p ← p.nextPacket ts
    let r ← p.builder.tryAppend msg
    return (r.1, { p with builder := r.2 })

/-- Offer a message to the store, and time the packet by it if it is the packet's first. -/
def offer (p : Publisher) (msg : Payload) (ts : UInt64) : Publisher :=
  let kept := p.store.store p.sequence msg
  let p := { p with store := kept.2, log := p.log ++ [PubEvent.stored p.sequence msg kept.1] }
  if p.builder.count = 0 then { p with packetFirstTs := ts } else p

/-- The body of the loop, for a message read. The flag says whether the loop goes on. -/
def publish (p : Publisher) (msg : Payload) : Checked (Bool × Publisher) := do
  let ts ← itchTs msg
  let r ← (p.offer msg ts).append msg ts
  if r.1 then
    let p := { r.2 with sequence := r.2.sequence + 1, messages := r.2.messages + 1 }
    let p ← if clampBatch opt.batch ≤ p.builder.count.toNat then p.nextPacket 0 else pure p
    return (!decide (opt.limit ≠ 0 ∧ opt.limit ≤ p.messages), p)
  else return (false, r.2)

/-- The loop, from its `round`-th round on. -/
def loop : ℕ → ℕ → Publisher → Checked Publisher
  | 0, _, p => .ok p
  | fuel + 1, round, p =>
    if stop round then .ok p
    else
      let r := p.nextMessage split
      match r.1 with
      | none => .ok r.2
      | some msg => do
        let s ← r.2.publish opt msg
        if s.1 then loop fuel (round + 1) s.2 else return s.2

/-- The publisher before the loop: the first message read ahead, and a packet begun. -/
def begin (stream : List UInt8) : Checked Publisher := do
  let builder ← PacketBuilder.make (List.replicate kMaxPacketLen 0) opt.session
  let m0 := (ItchFile.ofStream stream).next split
  let builder ← builder.reset 1
  return { file := m0.2, firstMsg := m0.1.getD [], builder := builder,
           store := RetransmitStore.make opt.storeCapacity 64 }

/-- `main`, from an open file to the packet that ends the session: the publisher, and that
packet. -/
def run (stream : List UInt8) : Checked (Publisher × List UInt8) := do
  let p ← begin opt split stream
  let p ← loop opt split stop (stream.length + 1) 0 p
  let p ← p.flushPacket
  let eos ← writeHeader (List.replicate kHeaderLen 0) opt.session p.sequence kEndOfSession
  return (p, eos.2.take eos.1)

/-- The packets the loop finished, in order. -/
def packets (log : List PubEvent) : List (List UInt8) :=
  log.filterMap fun
    | .packet bytes _ _ => some bytes
    | .stored .. => none

end Publisher

/-- The messages of a packet, each under `header.sequence` plus its place, as a receiver numbers
them; none if it is not a packet. -/
def blocksOf (pkt : List UInt8) : List Delivery :=
  match viewOf pkt with
  | some view =>
    match view.messages with
    | .ok ms => numbered view.hdr.sequence ms
    | .error _ => []
  | none => []

/-- What has to be done before an event: a packet's messages that fit a slot of the store are in
it, each under its own number. -/
def PubEvent.needs : PubEvent → PubEvent → Prop
  | .packet bytes _ _, e => ∃ d ∈ blocksOf bytes, d.2.length ≤ 64 ∧ e = .stored d.1 d.2 true
  | .stored .., _ => False

/-! ## Numbers

A message is numbered by how many came before it. The numbers are 64 bits and the count is not, so
what is said in the one holds whatever the count, and what is said in the other up to the wrap. -/

/-- The number of the message that comes after `k` others. -/
def number (k : ℕ) : UInt64 := UInt64.ofNat (k + 1)

/-- Numbers go on from each other. -/
theorem number_add (a b : ℕ) : number a + UInt64.ofNat b = number (a + b) := by
  unfold number
  rw [← UInt64.ofNat_add, Nat.add_right_comm]

/-- And the first is one. -/
theorem one_add_ofNat (k : ℕ) : 1 + UInt64.ofNat k = number k := by
  rw [show (1 : UInt64) = number 0 from rfl, number_add, Nat.zero_add]

/-- Numbering changes no count. -/
theorem length_numbered (ms : List Payload) : ∀ s, (numbered s ms).length = ms.length := by
  induction ms with
  | nil => exact fun _ => rfl
  | cons m ms ih =>
    intro s
    rw [numbered, List.length_cons, List.length_cons, ih]

/-- A run of messages is numbered on by the run after it. -/
theorem numbered_append (xs ys : List Payload) : ∀ s,
    numbered s (xs ++ ys) = numbered s xs ++ numbered (s + UInt64.ofNat xs.length) ys := by
  induction xs with
  | nil =>
    intro s
    rw [List.length_nil, show UInt64.ofNat 0 = 0 from rfl, UInt64.add_zero]
    rfl
  | cons x xs ih =>
    intro s
    rw [List.cons_append, numbered, ih, numbered, List.cons_append, List.length_cons,
      Nat.add_comm xs.length, UInt64.ofNat_add, UInt64.add_assoc]
    rfl

/-- A packet read back has the messages it was framed from, each under its number. -/
theorem blocksOf_frame {session : List UInt8} {sequence : UInt64} {msgs : List Payload}
    (hs : session.length = kSessionLen) (hshort : msgs.length ≤ 0xFFFE)
    (hnarrow : ∀ m ∈ msgs, m.length ≤ 0xFFFF) :
    blocksOf (frame session sequence msgs) = numbered sequence msgs := by
  unfold blocksOf
  rw [viewOf_frame hs hshort hnarrow]
  simp only
  rw [messages_frame hs hnarrow rfl rfl]

/-! ## A packet at a time

`sent` are the messages of the packets that are finished, and `cur` those of the packet under
construction. Together they are what was read, in order. -/

namespace Publisher

/-- The packets of a longer log. -/
theorem packets_append (log log' : List PubEvent) :
    packets (log ++ log') = packets log ++ packets log' := List.filterMap_append

/-- The packets finished so far carry `sent`, and each was finished in good order: it is as wide as
it may be, its messages were stored first, and its schedule is that of its first message. -/
structure Sent (batch : ℕ) (sent : List Payload) (log : List PubEvent) : Prop where
  /-- Each message once, in order, under numbers that count up from one. -/
  blocks : (packets log).flatMap blocksOf = numbered 1 sent
  /-- No packet is empty, and none is wider or longer than it may be. -/
  bounded : ∀ pkt ∈ packets log, pkt.length ≤ kMaxPacketLen ∧
    1 ≤ (blocksOf pkt).length ∧ (blocksOf pkt).length ≤ batch
  /-- Whoever misses a packet can ask for its messages from the moment it may leave. -/
  stored : Trace.Preceded PubEvent.needs log
  /-- A packet leaves by the time of its first message, under its own first number. -/
  scheduled : ∀ bytes firstSeq firstTs, .packet bytes firstSeq firstTs ∈ log →
    ∃ m, (blocksOf bytes).head? = some (firstSeq, m) ∧ itchTs m = .ok firstTs

/-- A store of a message finishes no packet. -/
theorem Sent.store {batch : ℕ} {sent : List Payload} {log : List PubEvent}
    (h : Sent batch sent log) (seq : UInt64) (msg : Payload) (kept : Bool) :
    Sent batch sent (log ++ [.stored seq msg kept]) := by
  have hsame : packets (log ++ [.stored seq msg kept]) = packets log := by
    rw [packets_append]
    exact List.append_nil _
  refine ⟨by rw [hsame]; exact h.blocks, by rw [hsame]; exact h.bounded,
    h.stored.snoc fun e' he' => absurd he' id, fun bytes fs ts hmem => ?_⟩
  rcases List.mem_append.mp hmem with hold | hnew
  · exact h.scheduled bytes fs ts hold
  · exact absurd (List.mem_singleton.mp hnew) (by simp)

/-- The packets finished carry `sent`, and the one under construction `cur`. -/
structure Packing (batch : ℕ) (sent cur : List Payload) (p : Publisher) : Prop where
  /-- The builder frames `cur` from the number it has reached. -/
  building : Building (number sent.length) cur p.builder
  /-- Its buffer is as wide as a packet, which is where a finished packet gets its bound. -/
  room : p.builder.buf.length = kMaxPacketLen
  count : cur.length ≤ batch
  finished : Sent batch sent p.log
  /-- What a packet needs before it is finished is done when its messages are appended. -/
  ready : ∀ d ∈ numbered (number sent.length) cur, d.2.length ≤ 64 →
    PubEvent.stored d.1 d.2 true ∈ p.log
  firstSeq : p.packetFirstSeq = number sent.length
  firstTs : ∀ m ∈ cur.head?, itchTs m = .ok p.packetFirstTs

variable {batch : ℕ} {sent cur : List Payload} {p : Publisher}

/-- **A packet that is finished** carries what was appended to it. -/
theorem flush_spec (h : Packing batch sent cur p) :
    ∃ log', p.flushPacket = .ok { p with log := log' } ∧ Sent batch (sent ++ cur) log' ∧
      ∀ e ∈ p.log, e ∈ log' := by
  unfold flushPacket
  by_cases hempty : p.builder.count = 0
  · have hcur : cur = [] := by
      refine List.eq_nil_of_length_eq_zero ?_
      rw [← h.building.count, hempty]
      rfl
    rw [if_pos hempty]
    exact ⟨p.log, rfl, by rw [hcur, List.append_nil]; exact h.finished, fun _ he => he⟩
  · rw [if_neg hempty]
    simp only [finish_spec h.building, bind, Except.bind, pure, Except.pure]
    -- the packet has a first message, whose time stamp it is scheduled by
    obtain ⟨m, rest, hcur⟩ : ∃ m rest, cur = m :: rest := by
      cases cur with
      | nil =>
        refine absurd (UInt16.toNat_inj.mp ?_) hempty
        rw [h.building.count]
        rfl
      | cons m rest => exact ⟨m, rest, rfl⟩
    have hblocks : blocksOf (frame p.builder.session (number sent.length) cur)
        = numbered (number sent.length) cur :=
      blocksOf_frame h.building.session h.building.short h.building.narrow
    generalize hpkt : frame p.builder.session (number sent.length) cur = pkt at hblocks
    have hwide : pkt.length = p.builder.size := by
      rw [← hpkt, h.building.size_eq]
      unfold frame
      rw [List.length_append, length_header h.building.session]
    have hpackets : packets (p.log ++ [.packet pkt p.packetFirstSeq p.packetFirstTs])
        = packets p.log ++ [pkt] := packets_append _ _
    -- the four clauses of `Sent`, for one packet more
    refine ⟨_, rfl, ⟨?_, ?_, h.finished.stored.snoc ?_, fun bytes fs ts hmem => ?_⟩,
      fun _ he => List.mem_append_left _ he⟩
    · rw [hpackets, List.flatMap_append, h.finished.blocks, List.flatMap_singleton, hblocks,
        numbered_append, one_add_ofNat]
    · intro x hx
      rw [hpackets] at hx
      rcases List.mem_append.mp hx with hold | hnew
      · exact h.finished.bounded x hold
      · rw [List.mem_singleton.mp hnew, hblocks, length_numbered]
        refine ⟨?_, ?_, h.count⟩
        · rw [hwide, ← h.room]
          exact h.building.fits
        · rw [hcur, List.length_cons]
          exact Nat.succ_le_succ (Nat.zero_le _)
    · rintro e' ⟨d, hd, hsmall, rfl⟩
      rw [hblocks] at hd
      exact h.ready d hd hsmall
    · rcases List.mem_append.mp hmem with hold | hnew
      · exact h.finished.scheduled bytes fs ts hold
      · obtain ⟨rfl, rfl, rfl⟩ := PubEvent.packet.inj (List.mem_singleton.mp hnew)
        refine ⟨m, ?_, h.firstTs m (by rw [hcur]; rfl)⟩
        rw [hblocks, hcur, numbered, h.firstSeq]
        rfl

/-- **The next packet** starts empty, behind all there was. -/
theorem nextPacket_spec (h : Packing batch sent cur p)
    (hseq : p.sequence = number (sent.length + cur.length)) (ts : UInt64) :
    ∃ builder log', p.nextPacket ts = .ok { p with
        builder := builder, log := log', packetFirstSeq := p.sequence, packetFirstTs := ts } ∧
      Packing batch (sent ++ cur) [] { p with
        builder := builder, log := log', packetFirstSeq := p.sequence, packetFirstTs := ts } ∧
      ∀ e ∈ p.log, e ∈ log' := by
  obtain ⟨log', hflush, hsent, hgrows⟩ := flush_spec h
  have hbuf : kHeaderLen ≤ p.builder.buf.length := by
    rw [h.room]
    decide
  obtain ⟨b, hreset, hbuild, -, hlen⟩ := reset_spec h.building.session hbuf p.sequence
  unfold nextPacket
  simp only [hflush, hreset, bind, Except.bind, pure, Except.pure]
  rw [hseq, ← List.length_append] at hbuild
  refine ⟨b, log', rfl, ⟨hbuild, hlen.trans h.room, Nat.zero_le _, hsent, ?_, ?_, ?_⟩, hgrows⟩
  · exact fun d hd => absurd hd List.not_mem_nil
  · rw [List.length_append]
    exact hseq
  · exact fun m hm => absurd hm (by simp)

end Publisher

/-! ## One message

A round reads a message, stores it and appends it. It is stored first, so that it is there however
the packet comes to be finished. -/

/-- At least one message to a packet, and no more than a count can say. -/
theorem clampBatch_bounds (batch : ℤ) : 1 ≤ clampBatch batch ∧ clampBatch batch ≤ 65534 := by
  unfold clampBatch
  rw [show (kMaxCount.toNat : ℤ) = 65534 from rfl]
  simp only
  split <;> split <;> omega

namespace Publisher

/-- The batch as a number of messages. -/
def batchOf (opt : PubOptions) : ℕ := (clampBatch opt.batch).toNat

/-- The same, as a number of messages. -/
theorem batchOf_bounds (opt : PubOptions) : 1 ≤ batchOf opt ∧ batchOf opt ≤ 65534 := by
  have := clampBatch_bounds opt.batch
  unfold batchOf
  omega

/-- What reading, numbering and counting have come to is the same. -/
structure SameReading (p p' : Publisher) : Prop where
  file : p'.file = p.file
  firstMsg : p'.firstMsg = p.firstMsg
  usedFirst : p'.usedFirst = p.usedFirst
  sequence : p'.sequence = p.sequence
  messages : p'.messages = p.messages

section Append

variable {batch : ℕ} {sent cur : List Payload} {p : Publisher} {m : Payload} {ts : UInt64}

/-- The time stamp is read only where there is one, so it never reads past the message. -/
theorem itchTs_ok (msg : Payload) : ∃ ts, itchTs msg = .ok ts := by
  unfold itchTs
  split
  · rename_i hlen
    obtain ⟨-, -, ts, -, -, hts⟩ := Itch.header_ok hlen
    exact ⟨ts, hts⟩
  · exact ⟨0, rfl⟩

/-- One message more in the packet under construction. -/
theorem Packing.appended (h : Packing batch sent cur p) {b : PacketBuilder}
    (hbuild : Building (number sent.length) (cur ++ [m]) b)
    (hlen : b.buf.length = p.builder.buf.length) (hcount : cur.length < batch)
    (hts : itchTs m = .ok ts) (hfirst : cur = [] → p.packetFirstTs = ts)
    (hstored : m.length ≤ 64 →
      PubEvent.stored (number (sent.length + cur.length)) m true ∈ p.log) :
    Packing batch sent (cur ++ [m]) { p with builder := b } where
  building := hbuild
  room := hlen.trans h.room
  count := by
    rw [List.length_append]
    exact hcount
  finished := h.finished
  ready := by
    intro d hd hsmall
    rw [numbered_append, number_add] at hd
    rcases List.mem_append.mp hd with hold | hnew
    · exact h.ready d hold hsmall
    · obtain rfl := List.mem_singleton.mp hnew
      exact hstored hsmall
  firstSeq := h.firstSeq
  -- the time stamp is the first message's, and appending behind it leaves it so
  firstTs := by
    intro m' hm'
    cases cur with
    | nil =>
      obtain rfl : m = m' := by simpa using hm'
      show itchTs m = .ok p.packetFirstTs
      rw [hfirst rfl]
      exact hts
    | cons x cur => exact h.firstTs m' hm'

/-- **A message is appended**, to the packet under construction or to the next. -/
theorem append_spec (h : Packing batch sent cur p) (hcount : cur.length < batch)
    (hm : m.length ≤ 1378) (hseq : p.sequence = number (sent.length + cur.length))
    (hts : itchTs m = .ok ts) (hfirst : cur = [] → p.packetFirstTs = ts)
    (hstored : m.length ≤ 64 → PubEvent.stored p.sequence m true ∈ p.log) :
    ∃ sent' cur' p', p.append m ts = .ok (true, p') ∧ Packing batch sent' cur' p' ∧
      sent' ++ cur' = sent ++ cur ++ [m] ∧ SameReading p p' ∧ p'.store = p.store := by
  unfold append
  rcases tryAppend_spec h.building m with hno | ⟨b, hyes, hbuild, -, hlen⟩
  · -- it does not fit, and the next packet has room for it
    obtain ⟨b, log', hnext, hpacking, hgrows⟩ := nextPacket_spec h hseq ts
    have hsize : b.size = kHeaderLen := hpacking.building.size_eq
    have hroom : b.buf.length = kMaxPacketLen := hpacking.room
    obtain ⟨b', hyes, hbuild, -, hlen⟩ := tryAppend_fits hpacking.building (m := m)
      (by decide) (by omega) (by
        show b.size + _ ≤ b.buf.length
        rw [hroom, hsize]
        unfold kHeaderLen kBlockLenBytes kMaxPacketLen
        omega)
    simp only [hno, hnext, bind, Except.bind, pure, Except.pure]
    rw [if_neg (by simp)]
    simp only [hyes]
    refine ⟨sent ++ cur, [m], _, rfl, ?_, rfl, ⟨rfl, rfl, rfl, rfl, rfl⟩, rfl⟩
    refine hpacking.appended hbuild hlen (by rw [List.length_nil]; omega) hts (fun _ => rfl)
      fun hsmall => hgrows _ ?_
    rw [List.length_nil, Nat.add_zero, List.length_append, ← hseq]
    exact hstored hsmall
  -- it fits
  · simp only [hyes, bind, Except.bind, pure, Except.pure, if_true]
    exact ⟨sent, cur ++ [m], _, rfl,
      h.appended hbuild hlen hcount hts hfirst fun hsmall => hseq ▸ hstored hsmall,
      (List.append_assoc _ _ _).symm, ⟨rfl, rfl, rfl, rfl, rfl⟩, rfl⟩

end Append

/-! ## The loop -/

/-- Between rounds: what is packed is what was read, and it has been counted. -/
structure Publishing (opt : PubOptions) (sent cur : List Payload) (p : Publisher) : Prop extends
    Packing (batchOf opt) sent cur p where
  /-- The packet still has room in its batch, or it would have been finished. -/
  short : cur.length < batchOf opt
  /-- The next number is that of the message after all that were taken in. -/
  sequence : p.sequence = number (sent.length + cur.length)
  /-- The limit is compared with this counter, so it has to be the true count. -/
  messages : p.messages = UInt64.ofNat (sent.length + cur.length)
  /-- The store takes whatever is no longer than a slot. -/
  slots : p.store.maxPayload = 64

section Publish

variable {opt : PubOptions} {sent cur : List Payload} {p : Publisher} {m : Payload}

/-- What offering a message to the store leaves alone, and what it does. -/
theorem offer_spec (h : Publishing opt sent cur p) (m : Payload) (ts : UInt64) :
    Packing (batchOf opt) sent cur (p.offer m ts) ∧ SameReading p (p.offer m ts) ∧
      (cur = [] → (p.offer m ts).packetFirstTs = ts) ∧
      (p.offer m ts).store.maxPayload = 64 ∧
      (m.length ≤ 64 → PubEvent.stored p.sequence m true ∈ (p.offer m ts).log) := by
  have hslots : (p.store.store p.sequence m).2.maxPayload = 64 := by
    rw [← h.slots]
    unfold RetransmitStore.store
    split <;> rfl
  have hkept (hm : m.length ≤ 64) : (p.store.store p.sequence m).1 = true := by
    unfold RetransmitStore.store
    rw [if_neg (by rw [h.slots]; omega)]
  have hready : ∀ d ∈ numbered (number sent.length) cur, d.2.length ≤ 64 →
      PubEvent.stored d.1 d.2 true ∈
        p.log ++ [PubEvent.stored p.sequence m (p.store.store p.sequence m).1] :=
    fun d hd hsmall => List.mem_append_left _ (h.ready d hd hsmall)
  have hfinished := h.finished.store p.sequence m (p.store.store p.sequence m).1
  unfold offer
  simp only
  -- the packet is timed by this message only if it is its first
  by_cases hempty : p.builder.count = 0
  · have hcur : cur = [] := by
      refine List.eq_nil_of_length_eq_zero ?_
      rw [← h.building.count, hempty]
      rfl
    rw [if_pos hempty]
    refine ⟨⟨h.building, h.room, h.count, hfinished, hready, h.firstSeq, fun m' hm' => ?_⟩,
      ⟨rfl, rfl, rfl, rfl, rfl⟩, fun _ => rfl, hslots, fun hm => ?_⟩
    · rw [hcur] at hm'
      exact absurd hm' (by simp)
    · rw [← hkept hm]
      exact List.mem_append_right _ List.mem_cons_self
  · rw [if_neg hempty]
    refine ⟨⟨h.building, h.room, h.count, hfinished, hready, h.firstSeq, h.firstTs⟩,
      ⟨rfl, rfl, rfl, rfl, rfl⟩, fun hcur => absurd ?_ hempty, hslots, fun hm => ?_⟩
    · refine UInt16.toNat_inj.mp ?_
      rw [h.building.count, hcur]
      rfl
    · rw [← hkept hm]
      exact List.mem_append_right _ List.mem_cons_self

/-- **One round** takes in one message, and goes on unless the limit is reached. -/
theorem publish_spec (h : Publishing opt sent cur p) (hm : m.length ≤ 1378) :
    ∃ sent' cur' p', p.publish opt m =
        .ok (!decide (opt.limit ≠ 0 ∧ opt.limit ≤ p'.messages), p') ∧
      Publishing opt sent' cur' p' ∧ sent' ++ cur' = sent ++ cur ++ [m] ∧
      p'.file = p.file ∧ p'.firstMsg = p.firstMsg ∧ p'.usedFirst = p.usedFirst := by
  obtain ⟨ts, hts⟩ := itchTs_ok m
  have hbatch := batchOf_bounds opt
  obtain ⟨hpacking, hread, hfirst, hslots, hstored⟩ := offer_spec h m ts
  obtain ⟨sent', cur', p', happend, hpacking', htaken, hread', hstore⟩ :=
    append_spec hpacking h.short hm (hread.sequence.trans h.sequence) hts hfirst
      (by rw [hread.sequence]; exact hstored)
  -- whichever packet it went to, one message more has been taken in
  have hlen : sent'.length + cur'.length = sent.length + cur.length + 1 := by
    have := congrArg List.length htaken
    simp only [List.length_append, List.length_singleton] at this
    exact this
  have hseq : p'.sequence + 1 = number (sent'.length + cur'.length) := by
    rw [hread'.sequence, hread.sequence, h.sequence, hlen]
    exact number_add _ 1
  have hmessages : p'.messages + 1 = UInt64.ofNat (sent'.length + cur'.length) := by
    rw [hread'.messages, hread.messages, h.messages, hlen]
    exact (UInt64.ofNat_add _ 1).symm
  unfold publish
  simp only [hts, happend, bind, Except.bind, pure, Except.pure, if_true]
  by_cases hfull : clampBatch opt.batch ≤ p'.builder.count.toNat
  · -- a batch of them: the packet is finished, and the next one is begun
    obtain ⟨b, log', hnext, hpacking2, -⟩ := nextPacket_spec
      (p := { p' with sequence := p'.sequence + 1, messages := p'.messages + 1 })
      ⟨hpacking'.building, hpacking'.room, hpacking'.count, hpacking'.finished, hpacking'.ready,
        hpacking'.firstSeq, hpacking'.firstTs⟩ hseq 0
    rw [if_pos hfull]
    simp only [hnext]
    refine ⟨sent' ++ cur', [], _, rfl, ⟨hpacking2, ?_, ?_, ?_, ?_⟩, ?_, ?_, ?_, ?_⟩
    · exact hbatch.1
    · rw [List.length_append]
      exact hseq
    · rw [List.length_append]
      exact hmessages
    · exact (congrArg RetransmitStore.maxPayload hstore).trans hslots
    · rw [List.append_nil]
      exact htaken
    · exact hread'.file.trans hread.file
    · exact hread'.firstMsg.trans hread.firstMsg
    · exact hread'.usedFirst.trans hread.usedFirst
  -- the packet has room for more, by the very test that did not finish it
  · rw [if_neg hfull]
    refine ⟨sent', cur',
      { p' with sequence := p'.sequence + 1, messages := p'.messages + 1 }, rfl,
      ⟨⟨hpacking'.building, hpacking'.room, hpacking'.count,
      hpacking'.finished, hpacking'.ready, hpacking'.firstSeq, hpacking'.firstTs⟩, ?_, hseq,
      hmessages, ?_⟩, htaken, ?_, ?_, ?_⟩
    · rw [hpacking'.building.count] at hfull
      unfold batchOf
      omega
    · exact (congrArg RetransmitStore.maxPayload hstore).trans hslots
    · exact hread'.file.trans hread.file
    · exact hread'.firstMsg.trans hread.firstMsg
    · exact hread'.usedFirst.trans hread.usedFirst

end Publish

/-! ## Reading

`toRead` puts the message that was read ahead back in front of the file, so that where the loop
gets a message from makes no difference to what it gets. -/

section Reading

variable {split : ℕ → ℕ} {p : Publisher}

/-- The messages that are still to be read. -/
def toRead (p : Publisher) : List Payload :=
  if p.usedFirst = false ∧ p.firstMsg ≠ [] then p.firstMsg :: frames p.file.unread
  else frames p.file.unread

/-- With nothing to read, nothing is read, and the loop ends. -/
theorem nextMessage_none (h : toRead p = []) : (p.nextMessage split).1 = none ∧
    ∃ file, (p.nextMessage split).2 = { p with file := file } := by
  unfold toRead at h
  unfold nextMessage
  split at h
  · exact absurd h (by simp)
  · rename_i hused
    rw [if_neg hused]
    refine ⟨?_, _, rfl⟩
    rw [(ItchFile.next_spec p.file).1]
    cases hhead : headFrame p.file.unread with
    | none => rfl
    | some m =>
      rw [(frames_some hhead).1] at h
      exact absurd h (by simp)

/-- Otherwise the next message comes off the front of what there is to read. -/
theorem nextMessage_some {m : Payload} {rest : List Payload} (h : toRead p = m :: rest) :
    (p.nextMessage split).1 = some m ∧ toRead (p.nextMessage split).2 = rest ∧
      ∃ file used, (p.nextMessage split).2 = { p with file := file, usedFirst := used } := by
  unfold toRead at h
  unfold nextMessage
  split at h
  · rename_i hused
    obtain ⟨rfl, rfl⟩ := List.cons.inj h
    rw [if_pos hused]
    refine ⟨rfl, ?_, p.file, true, rfl⟩
    unfold toRead
    rw [if_neg (by simp)]
  · rename_i hused
    rw [if_neg hused]
    obtain ⟨hmsg, hrest⟩ := @ItchFile.next_spec split p.file
    cases hhead : headFrame p.file.unread with
    | none =>
      rw [(frames_none hhead).1] at h
      exact absurd h (by simp)
    | some m' =>
      rw [hhead] at hmsg hrest
      obtain ⟨rfl, rfl⟩ := List.cons.inj ((frames_some hhead).1.symm.trans h)
      refine ⟨hmsg, ?_, _, p.usedFirst, rfl⟩
      unfold toRead
      simp only
      rw [if_neg hused, hrest.1]

end Reading

/-! ## The loop -/

section Loop

variable {opt : PubOptions} {split : ℕ → ℕ} {stop : ℕ → Bool}

/-- What is read has no part in what is packed. -/
theorem Publishing.of_read {sent cur : List Payload} {p : Publisher}
    (h : Publishing opt sent cur p) (file : ItchFile) (used : Bool) :
    Publishing opt sent cur { p with file := file, usedFirst := used } :=
  ⟨⟨h.building, h.room, h.count, h.finished, h.ready, h.firstSeq, h.firstTs⟩, h.short, h.sequence,
    h.messages, h.slots⟩

/-- **The loop** publishes a front part of what there is to read: all of it, or as much as the
limit allows, unless it is told to stop. -/
theorem loop_spec : ∀ (fuel round : ℕ) (sent cur : List Payload) (p : Publisher),
    Publishing opt sent cur p → (toRead p).length < fuel →
    (∀ m ∈ toRead p, m.length ≤ 1378) →
    (opt.limit ≠ 0 → sent.length + cur.length < opt.limit.toNat) →
    ∃ k sent' cur' p', loop opt split stop fuel round p = .ok p' ∧ Publishing opt sent' cur' p' ∧
      sent' ++ cur' = sent ++ cur ++ (toRead p).take k ∧ k ≤ (toRead p).length ∧
      (opt.limit ≠ 0 → sent.length + cur.length + k ≤ opt.limit.toNat) ∧
      ((∀ i, stop i = false) → k = (toRead p).length ∨
        opt.limit ≠ 0 ∧ sent.length + cur.length + k = opt.limit.toNat) := by
  intro fuel
  -- an induction on the fuel, which is more than there is to read; `k` messages are taken in from
  -- here, and the limit is not reached on entry
  induction fuel with
  | zero => exact fun _ _ _ _ _ hfuel => absurd hfuel (Nat.not_lt_zero _)
  | succ fuel ih =>
    intro round sent cur p h hfuel hsmall hlimit
    rw [loop]
    by_cases hstop : stop round = true
    · rw [if_pos hstop]
      refine ⟨0, sent, cur, p, rfl, h, by simp, Nat.zero_le _, fun hl => ?_, fun hgo => ?_⟩
      · exact Nat.le_of_lt (hlimit hl)
      · rw [hgo round] at hstop
        exact absurd hstop (by simp)
    rw [if_neg hstop]
    simp only
    cases hread : toRead p with
    | nil =>
      obtain ⟨hnone, file, hp⟩ := @nextMessage_none split p hread
      rw [hnone, hp]
      refine ⟨0, sent, cur, _, rfl, h.of_read file p.usedFirst, by simp, Nat.le_refl _,
        fun hl => Nat.le_of_lt (hlimit hl), fun _ => Or.inl rfl⟩
    | cons m rest =>
      obtain ⟨hsome, hrest, file, used, hp⟩ := @nextMessage_some split p m rest hread
      rw [hread] at hfuel hsmall
      rw [hp] at hrest
      rw [hsome, hp]
      obtain ⟨sent1, cur1, p1, hpublish, h1, htaken, hfile, hfirst, hused⟩ :=
        publish_spec (h.of_read file used) (hsmall m List.mem_cons_self)
      have hlen : sent1.length + cur1.length = sent.length + cur.length + 1 := by
        have := congrArg List.length htaken
        simp only [List.length_append, List.length_singleton] at this
        exact this
      have hrest1 : toRead p1 = rest := by
        rw [← hrest]
        unfold toRead
        rw [hfile, hfirst, hused]
      simp only [hpublish, bind, Except.bind, pure, Except.pure]
      -- the counter is tested after the message, so the message that reaches the limit is the last
      by_cases hlast : opt.limit ≠ 0 ∧ opt.limit ≤ p1.messages
      · -- the limit is reached with this message
        have hlt := hlimit hlast.1
        have hmax := opt.limit.toNat_lt
        have hreach := UInt64.le_iff_toNat_le.mp hlast.2
        rw [h1.messages, hlen, UInt64.toNat_ofNat', Nat.mod_eq_of_lt (by omega)] at hreach
        rw [decide_eq_true hlast, if_neg (by simp)]
        refine ⟨1, sent1, cur1, p1, rfl, h1, htaken, by simp, fun _ => by omega,
          fun _ => Or.inr ⟨hlast.1, by omega⟩⟩
      · rw [decide_eq_false hlast, if_pos (by simp)]
        have hlimit1 : opt.limit ≠ 0 → sent1.length + cur1.length < opt.limit.toNat := by
          intro hl
          have hlt := hlimit hl
          have hmax := opt.limit.toNat_lt
          have hmore : ¬ opt.limit ≤ p1.messages := fun hle => hlast ⟨hl, hle⟩
          rw [UInt64.le_iff_toNat_le, h1.messages, hlen, UInt64.toNat_ofNat',
            Nat.mod_eq_of_lt (by omega)] at hmore
          omega
        rw [List.length_cons] at hfuel
        obtain ⟨k, sent2, cur2, p2, hloop, h2, htaken2, hk, hle, hall⟩ := ih (round + 1) sent1 cur1
          p1 h1 (by rw [hrest1]; omega)
          (by rw [hrest1]; exact fun x hx => hsmall x (List.mem_cons_of_mem _ hx)) hlimit1
        rw [hrest1] at htaken2 hk hall
        refine ⟨k + 1, sent2, cur2, p2, hloop, h2, ?_, ?_, fun hl => ?_, fun hgo => ?_⟩
        · rw [htaken2, htaken, List.take_succ_cons, List.append_assoc _ [m]]
          rfl
        · rw [List.length_cons]
          omega
        · have := hle hl
          omega
        · rcases hall hgo with hdone | ⟨hl, hreach⟩
          · exact Or.inl (by rw [hdone, List.length_cons])
          · exact Or.inr ⟨hl, by omega⟩

end Loop

/-! ## The whole run -/

section Run

variable {opt : PubOptions} {split : ℕ → ℕ}

end Run

end Publisher

end Tickerplant
