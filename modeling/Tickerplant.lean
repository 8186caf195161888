import Tickerplant.Receiver.Loud
import Tickerplant.Receiver.Owners
import Tickerplant.Receiver.Repair
import Tickerplant.Book.Refines
import Tickerplant.Book.MapRuns
import Tickerplant.Book.SideAgree
import Tickerplant.Sequencer.Wrap
import Tickerplant.Sequencer.Grace
import Tickerplant.Mold.Roundtrip
import Tickerplant.Itch.Roundtrip
import Tickerplant.Ouch.Roundtrip
import Tickerplant.Ouch.Lifecycle
import Tickerplant.Ouch.Ledger
import Tickerplant.Ouch.Dialogue
import Tickerplant.Ouch.TokenGenerator
import Tickerplant.Risk.Gate
import Tickerplant.Risk.Trackers
import Tickerplant.Risk.Laps
import Tickerplant.Concurrency.SeqLock
import Tickerplant.Concurrency.MpmcAlone
import Tickerplant.Book.MicroPrice
import Tickerplant.Memory.Blocks
import Tickerplant.Strategy.Rounding
import Tickerplant.Strategy.Pacing
import Tickerplant.Synthetic.Oracle
import Tickerplant.Sequencer.Requests
import Tickerplant.Sequencer.Feed
import Tickerplant.Recovery.Owed
import Tickerplant.Recovery.Schedule
import Tickerplant.Publisher.History
import Tickerplant.Itch.File
import Tickerplant.Receiver.Latency
import Tickerplant.Publisher.Loop
import Tickerplant.Book.Symbols
import Tickerplant.Synthetic.SampleFile
import Tickerplant.Risk.Control
import Tickerplant.Trade.Runs
import Tickerplant.Receiver.Digest
import Tickerplant.Receiver.Drain
import Tickerplant.Book.InStep
