import Tickerplant.Book.SideAgree
import Tickerplant.Book.Symbols
import Tickerplant.Itch.Agree
import Tickerplant.Itch.File
import Tickerplant.Synthetic.Told

/-!
# The replay tool (`tools/tickerplant_replay.cpp`)

One pass reads a file, decodes what it frames and rebuilds the book, and what it reports is a
`PassResult`. The tool compares two of them, one for each decoder, and exits with two if they
differ.

A pass is determined by what the file frames (`runPass_eq`). How the reads of the file fall, which
of the decoders runs and which container the price levels are in make no difference, so the two
passes of the comparison never differ (`both_agree`).

The two decoders come in as one: a decoder `Speaks` if it never fails and makes of each buffer the
call that the buffer holds, and both do. Then the loop is an induction on the frames of the file,
for any decoder that speaks (`loop_spec`), and what it leaves in the builder is the run of those
calls. The containers come in at the end, by the agreement of the two kinds of side over the same
events.

The times a pass takes are not part of what is modelled, and of the load of the order table its two
terms are.
-/

set_option autoImplicit false

namespace Tickerplant

open Lib Itch

/-! ## What the book answers beyond its queries -/

/-- `volume_digest`. -/
def BookBuilder.volumeDigest {L P : Type} (b : BookBuilder L P) : UInt64 :=
  (List.range (2 ^ 16)).foldl (fun h i =>
    let shares := (b.totals (UInt16.ofNat i)).executedShares
    if shares = 0 then h
    else (((h ^^^ UInt64.ofNat i) * 1099511628211) ^^^ shares) * 1099511628211) 1469598103934665603

/-- A handler that passes calls on to a builder. -/
def onCall {L P : Type} [PriceLevel L] [MemoryPool P] (kind : SideKind)
    (b : Option (BookBuilder L P)) (call : HandlerCall) : Option (BookBuilder L P) :=
  b.bind fun b => b.apply kind (Synthetic.event call)

/-- As long as the longest message. -/
theorem Itch.Staging.length_zeroed : (List.replicate kMaxMessageLen (0 : UInt8)).length =
    kMaxMessageLen :=
  List.length_replicate

/-- The array as it is built. -/
def Itch.Staging.zeroed : Staging := ⟨List.replicate kMaxMessageLen 0, length_zeroed⟩

namespace Replay

/-! ## A pass

The file is handed over as the bytes it holds, decompressed, and `split` is how its reads fall. -/

/-- The options a pass reads. -/
structure ReplayOptions where
  /-- Zero is no limit. -/
  limit : ℕ := 0
  mapCapacity : ℕ := 1 <<< 22

/-- What a pass reports. -/
structure PassResult where
  bookDigest : UInt64
  volumeDigest : UInt64
  messages : ℕ
  bytes : ℕ
  stats : BookStats
  /-- Of every symbol that traded or was heard of, its volume. -/
  perSymbol : List (List UInt8 × UInt64)
  liveLevels : ℕ
  orderMapCapacity : ℕ
  orderMapSize : ℕ
  orderMapGrowths : ℕ

/-- What the loop of `run_pass` works on. -/
structure Pass (D L P : Type) where
  file : ItchFile
  decoder : D
  builder : Option (BookBuilder L P)
  n : ℕ := 0

variable {D L P : Type} [PriceLevel L] [MemoryPool P]

section Loop

variable (decode : D → List UInt8 → Option (BookBuilder L P) → ℕ →
    Checked (Decoded D (Option (BookBuilder L P))))
  (split : ℕ → ℕ) (limit : ℕ)

/-- The loop of `run_pass`, for at most so many rounds. -/
def loop : ℕ → Pass D L P → Checked (Pass D L P)
  | 0, p => return p
  | rounds + 1, p =>
    match p.file.next split with
    | (none, file) => return { p with file := file }
    | (some msg, file) => do
      let r ← decode p.decoder msg p.builder 0
      let p := { p with file := file, decoder := r.decoder, builder := r.handler, n := p.n + 1 }
      if limit ≠ 0 ∧ limit ≤ p.n then return p else loop rounds p

end Loop

/-- The tickers and volumes of the symbols that were known and active. -/
def perSymbol (b : BookBuilder L P) : List (List UInt8 × UInt64) :=
  (List.range (2 ^ 16)).filterMap fun i =>
    let t := b.totals (UInt16.ofNat i)
    let s := b.symbols.entries (UInt16.ofNat i)
    if t.executedShares = 0 ∧ t.messages = 0 then none
    else if s.known then some (s.ticker, t.executedShares) else none

/-- What is read off the book at the end. -/
def report (messages bytes : ℕ) (b : BookBuilder L P) : PassResult where
  bookDigest := b.digest
  volumeDigest := b.volumeDigest
  messages := messages
  bytes := bytes
  stats := b.stats
  perSymbol := perSymbol b
  liveLevels := b.liveLevels
  orderMapCapacity := b.orders.cap
  orderMapSize := b.orders.size
  orderMapGrowths := b.orders.grows

/-- `--decoder`. -/
inductive DecoderKind where
  | zeroCopy
  | copying
  deriving DecidableEq, Repr

/-- `run_pass` over a file that holds `stream`. Every message takes some of it, so as many rounds
as it has bytes and one are enough. The option is whether every search of the order table stops. -/
def runPass (L P : Type) [PriceLevel L] [MemoryPool P] (which : DecoderKind) (kind : SideKind)
    (opt : ReplayOptions) (split : ℕ → ℕ) (stream : List UInt8) : Checked (Option PassResult) := do
  let builder : Option (BookBuilder L P) := some (.make opt.mapCapacity)
  let rounds := stream.length + 1
  match which with
  | .zeroCopy => do
    let p ← loop (ZeroCopyDecoder.decode (onCall kind)) split opt.limit rounds
      { file := .ofStream stream, decoder := ({} : ZeroCopyDecoder), builder := builder }
    return p.builder.map (report p.n p.file.bytes)
  | .copying => do
    let p ← loop (CopyingDecoder.decode (onCall kind)) split opt.limit rounds
      { file := .ofStream stream, decoder := ({ staging := .zeroed } : CopyingDecoder)
        builder := builder }
    return p.builder.map (report p.n p.file.bytes)

/-- `--decoder both`: the exit status. -/
def compare (a b : PassResult) : ℕ :=
  if a.bookDigest = b.bookDigest ∧ a.volumeDigest = b.volumeDigest ∧ a.messages = b.messages then 0
  else 2

/-- Both decoders over the same file, each with reads of its own. -/
def runBoth (L P : Type) [PriceLevel L] [MemoryPool P] (kind : SideKind) (opt : ReplayOptions)
    (split split' : ℕ → ℕ) (stream : List UInt8) : Checked (Option ℕ) := do
  let a ← runPass L P .zeroCopy kind opt split stream
  let b ← runPass L P .copying kind opt split' stream
  return a.bind fun a => b.map fun b => compare a b

/-! ## What a decoder calls

A buffer holds a message or it does not, whichever decoder looks at it. -/

/-- The call a buffer makes of a handler, if it holds a message. -/
def callOf (msg : List UInt8) : Option HandlerCall :=
  match ZeroCopyDecoder.decode (fun _ call => some call) {} msg none 0 with
  | .ok r => r.handler
  | .error _ => none

/-- A buffer that holds a message is one call. -/
theorem callOf_holds {msg : List UInt8} {type : UInt8} {e : NormalizedEvent}
    (h : Holds msg type e) : callOf msg = some (CopyingDecoder.dispatch e) := by
  unfold callOf
  rw [ZeroCopyDecoder.decode_holds _ _ _ _ h]

/-- Any other is none. -/
theorem callOf_misses {msg : List UInt8} {r : DecodeResult} (h : Misses msg r) :
    callOf msg = none := by
  unfold callOf
  rw [ZeroCopyDecoder.decode_misses _ _ _ _ h]

/-- A decoder that never fails, and makes of each buffer the call it holds, if any. -/
def Speaks {H : Type} (on : H → HandlerCall → H)
    (decode : D → List UInt8 → H → ℕ → Checked (Decoded D H)) : Prop :=
  ∀ d msg handler consumed, ∃ r, decode d msg handler consumed = .ok r ∧
    r.handler = (callOf msg).elim handler (on handler)

/-- The decoder that reads in place. -/
theorem speaks_zeroCopy {H : Type} (on : H → HandlerCall → H) :
    Speaks on (ZeroCopyDecoder.decode on) := by
  intro d msg handler consumed
  rcases holds_or_misses msg with ⟨type, e, h⟩ | ⟨r, h⟩
  · exact ⟨_, d.decode_holds on handler consumed h, by rw [callOf_holds h]; rfl⟩
  · exact ⟨_, d.decode_misses on handler consumed h, by rw [callOf_misses h]; rfl⟩

/-- The decoder that copies first. -/
theorem speaks_copying {H : Type} (on : H → HandlerCall → H) :
    Speaks on (CopyingDecoder.decode on) := by
  intro d msg handler consumed
  rcases holds_or_misses msg with ⟨type, e, h⟩ | ⟨r, h⟩
  · obtain ⟨staging, -, hd⟩ := d.decode_holds on handler consumed h
    exact ⟨_, hd, by rw [callOf_holds h]; rfl⟩
  · exact ⟨_, d.decode_misses on handler consumed h, by rw [callOf_misses h]; rfl⟩

/-- The calls of a stream of buffers, in order. -/
def callsIn (msgs : List (List UInt8)) : List HandlerCall := msgs.filterMap callOf

/-- A builder that hears calls runs over their events. -/
theorem foldl_onCall (kind : SideKind) (calls : List HandlerCall) :
    ∀ b : Option (BookBuilder L P), calls.foldl (onCall kind) b =
      b.bind fun b => b.run kind (calls.map Synthetic.event) := by
  induction calls with
  | nil =>
    intro b
    cases b <;> rfl
  | cons call calls ih =>
    intro b
    rw [List.foldl_cons, ih]
    cases b <;> rfl

/-! ## What a pass does -/

/-- The messages a pass takes of those the file frames. -/
def taken (limit n : ℕ) (msgs : List (List UInt8)) : List (List UInt8) :=
  if limit = 0 then msgs else msgs.take (limit - n)

/-- Short of the limit, the next message is taken. -/
theorem taken_cons {limit n : ℕ} (h : limit = 0 ∨ n < limit) (msg : List UInt8)
    (rest : List (List UInt8)) : taken limit n (msg :: rest) = msg :: taken limit (n + 1) rest := by
  unfold taken
  split
  case isTrue => rfl
  case isFalse hne =>
    have hlt := h.resolve_left hne
    rw [show limit - n = limit - (n + 1) + 1 by omega, List.take_succ_cons]

/-- **The loop** decodes the frames of the file up to the limit, whatever the split, and does not
run out of rounds. -/
theorem loop_spec {kind : SideKind}
    {decode : D → List UInt8 → Option (BookBuilder L P) → ℕ →
      Checked (Decoded D (Option (BookBuilder L P)))}
    (hdecode : Speaks (onCall kind) decode) (split : ℕ → ℕ) (limit : ℕ) :
    ∀ (rounds : ℕ) (p : Pass D L P), (frames p.file.unread).length < rounds →
      limit = 0 ∨ p.n < limit →
      ∃ p', loop decode split limit rounds p = .ok p' ∧
        p'.builder = (callsIn (taken limit p.n (frames p.file.unread))).foldl (onCall kind)
          p.builder ∧
        p'.n = p.n + (taken limit p.n (frames p.file.unread)).length ∧
        p'.file.bytes = p.file.bytes +
          ((taken limit p.n (frames p.file.unread)).map fun m => 2 + m.length).sum := by
  intro rounds
  induction rounds with
  | zero => exact fun _ h => absurd h (Nat.not_lt_zero _)
  | succ rounds ih =>
    intro p hrounds hlimit
    obtain ⟨hnext, hfile⟩ := @ItchFile.next_spec split p.file
    cases hhead : headFrame p.file.unread with
    | none =>
      rw [hhead] at hnext hfile
      have hnil : taken limit p.n (frames p.file.unread) = [] := by
        rw [(frames_none hhead).1]
        unfold taken
        split <;> simp
      rw [hnil]
      refine ⟨{ p with file := (p.file.next split).2 }, ?_, rfl, rfl, hfile.2.2.1⟩
      rw [loop, show p.file.next split = (none, (p.file.next split).2) from Prod.ext hnext rfl]
      rfl
    | some msg =>
      rw [hhead] at hnext hfile
      have hframes := (frames_some hhead).1
      obtain ⟨hunread, -, hbytes, -⟩ := hfile
      have hmore : taken limit p.n (frames p.file.unread) =
          msg :: taken limit (p.n + 1) (frames (afterFrame p.file.unread msg)) := by
        rw [hframes, taken_cons hlimit]
      obtain ⟨r, hr, hheard⟩ := hdecode p.decoder msg p.builder 0
      have hbuilder (rest : List (List UInt8)) :
          (callsIn rest).foldl (onCall kind) r.handler =
            (callsIn (msg :: rest)).foldl (onCall kind) p.builder := by
        rw [hheard]
        unfold callsIn
        rw [List.filterMap_cons]
        cases callOf msg <;> rfl
      have hloop : loop decode split limit (rounds + 1) p =
          if limit ≠ 0 ∧ limit ≤ p.n + 1 then
            .ok { p with file := (p.file.next split).2, decoder := r.decoder, builder := r.handler
                         n := p.n + 1 }
          else loop decode split limit rounds
            { p with file := (p.file.next split).2, decoder := r.decoder, builder := r.handler
                     n := p.n + 1 } := by
        rw [loop,
          show p.file.next split = (some msg, (p.file.next split).2) from Prod.ext hnext rfl]
        simp only [hr, bind, Except.bind]
        rfl
      rw [hloop, hmore]
      by_cases hstop : limit ≠ 0 ∧ limit ≤ p.n + 1
      · have hlast : taken limit (p.n + 1) (frames (afterFrame p.file.unread msg)) = [] := by
          unfold taken
          rw [if_neg hstop.1, Nat.sub_eq_zero_of_le hstop.2, List.take_zero]
        rw [if_pos hstop, hlast]
        exact ⟨_, rfl, hbuilder [], rfl, hbytes⟩
      · rw [if_neg hstop]
        have hlen : (frames (afterFrame p.file.unread msg)).length < rounds := by
          rw [hframes, List.length_cons] at hrounds
          omega
        have hgo : limit = 0 ∨ p.n + 1 < limit := by omega
        rw [← hunread] at hlen
        obtain ⟨p', hp', hb, hn, hsum⟩ := ih
          { p with file := (p.file.next split).2, decoder := r.decoder, builder := r.handler
                   n := p.n + 1 } hlen hgo
        simp only [hunread] at hb hn hsum
        refine ⟨p', hp', hb.trans (hbuilder _), ?_, ?_⟩
        · rw [hn, List.length_cons]
          omega
        · rw [hsum, hbytes, List.map_cons, List.sum_cons, Nat.add_assoc]

/-- The builder over a list of messages. -/
def rebuild (L P : Type) [PriceLevel L] [MemoryPool P] (mapCapacity : ℕ)
    (msgs : List (List UInt8)) : Option (BookBuilder L P) :=
  (BookBuilder.make mapCapacity).run .map ((callsIn msgs).map Synthetic.event)

/-- Every list of messages is taken to its end. -/
theorem exists_rebuild (mapCapacity : ℕ) (msgs : List (List UInt8)) :
    ∃ b, rebuild L P mapCapacity msgs = some b := by
  obtain ⟨b, hb, -⟩ := BookBuilder.run_answers .map ((callsIn msgs).map Synthetic.event)
    (b := (BookBuilder.make mapCapacity : BookBuilder L P)) (FlatOrderMap.wf_make mapCapacity)
  exact ⟨b, hb⟩

/-- **A pass is determined by what the file frames.** -/
theorem runPass_eq (which : DecoderKind) (kind : SideKind) (opt : ReplayOptions) (split : ℕ → ℕ)
    (stream : List UInt8) {b : BookBuilder L P}
    (hb : rebuild L P opt.mapCapacity (taken opt.limit 0 (frames stream)) = some b) :
    runPass L P which kind opt split stream =
      .ok (some (report (taken opt.limit 0 (frames stream)).length
        ((taken opt.limit 0 (frames stream)).map fun m => 2 + m.length).sum b)) := by
  have hrounds : (frames stream).length < stream.length + 1 :=
    Nat.lt_succ_of_le (length_frames_le stream)
  have hlimit : opt.limit = 0 ∨ 0 < opt.limit := Nat.eq_zero_or_pos _
  have hbuilder : (callsIn (taken opt.limit 0 (frames stream))).foldl (onCall kind)
      (some (BookBuilder.make opt.mapCapacity : BookBuilder L P)) = some b := by
    rw [foldl_onCall, ← hb]
    exact (BookBuilder.run_same kind .map _ (BookBuilder.inOrder_make opt.mapCapacity)).eq
  cases which with
  | zeroCopy =>
    obtain ⟨p, hp, hpb, hpn, hbytes⟩ := loop_spec (speaks_zeroCopy (onCall kind)) split opt.limit
      (stream.length + 1)
      { file := .ofStream stream, decoder := {}
        builder := some (BookBuilder.make opt.mapCapacity : BookBuilder L P) } hrounds hlimit
    rw [runPass]
    simp only [hp, bind, Except.bind]
    rw [hpb, hpn, hbytes]
    simp only [ItchFile.ofStream, ItchFile.unread, List.drop_nil, List.nil_append, hbuilder,
      Nat.zero_add]
    rfl
  | copying =>
    obtain ⟨p, hp, hpb, hpn, hbytes⟩ := loop_spec (speaks_copying (onCall kind)) split opt.limit
      (stream.length + 1)
      { file := .ofStream stream, decoder := { staging := .zeroed }
        builder := some (BookBuilder.make opt.mapCapacity : BookBuilder L P) } hrounds hlimit
    rw [runPass]
    simp only [hp, bind, Except.bind]
    rw [hpb, hpn, hbytes]
    simp only [ItchFile.ofStream, ItchFile.unread, List.drop_nil, List.nil_append, hbuilder,
      Nat.zero_add]
    rfl

/-- **The passes agree.** Over every file, cut off or malformed as it may be, and under every limit,
a pass comes to its end, and with the same result whichever decoder it runs, whichever container
holds the price levels, and however the reads of the file fall; so a comparison of two passes
exits with zero. -/
theorem both_agree (opt : ReplayOptions) (stream : List UInt8) :
    ∃ r : PassResult, (∀ which kind split, runPass L P which kind opt split stream = .ok (some r)) ∧
      r.messages = (taken opt.limit 0 (frames stream)).length ∧
      ∀ kind split split', runBoth L P kind opt split split' stream = .ok (some 0) := by
  obtain ⟨b, hb⟩ := exists_rebuild (L := L) (P := P) opt.mapCapacity
    (taken opt.limit 0 (frames stream))
  have hall (which kind split) := runPass_eq which kind opt split stream hb
  refine ⟨_, hall, rfl, fun kind split split' => ?_⟩
  have hzero (r : PassResult) : compare r r = 0 := if_pos ⟨rfl, rfl, rfl⟩
  rw [runBoth]
  simp only [hall, bind, Except.bind, Option.bind_some, Option.map_some, hzero]
  rfl

end Replay
end Tickerplant
