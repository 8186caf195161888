import Tickerplant.Mold.Builder
import Tickerplant.Replay.RunPass
import Tickerplant.Synthetic.Oracle

/-!
# A session in a file (`write_synthetic_file`)

The messages of a session are framed into a buffer that is written out whenever it has grown past a
chunk, and once more at the end. Where the writes fall leaves no trace (`file_eq`), so the file
frames what the session sent, and a replay of it, by either decoder, meets what the session
promises (`sample_replayed`).

This is where the generator, the file format, the reader, both decoders and the builder come
together. The generator's own result is about buffers handed to a decoder one by one, and the
replay's is about a file read in pieces. What joins them is that the frames of the file are the
messages (`frames_file`), none of which is empty or too long for a frame, and that the calls a
replay makes are those the messages stand for (`callsIn_messages`).

A file holds what is written to it: compressing it on the way and back is zlib's.
-/

set_option autoImplicit false

namespace Tickerplant
namespace Synthetic

open Lib Itch SyntheticFeed Replay

/-- The file so far, and the buffer `out`. -/
structure SampleWriter where
  file : List UInt8 := []
  out : List UInt8 := []

namespace SampleWriter

/-- What is gathered before it is written. -/
def kChunk : ℕ := 1 <<< 20

/-- The buffer is written out once it is a chunk, or whatever it holds at the end. -/
def flush (force : Bool) (w : SampleWriter) : SampleWriter :=
  if force = false ∧ w.out.length < kChunk then w
  else if w.out.isEmpty then w
  else { file := w.file ++ w.out, out := [] }

/-- The sink that is given each message. -/
def sink (w : SampleWriter) (msg : List UInt8) : SampleWriter :=
  flush false { w with out := w.out ++ be kFrameLen msg.length ++ msg }

/-- Writing moves bytes from the buffer to the file. -/
theorem flush_whole (force : Bool) (w : SampleWriter) :
    (w.flush force).file ++ (w.flush force).out = w.file ++ w.out := by
  unfold flush
  split
  · rfl
  split
  · rfl
  · exact List.append_nil _

/-- And at the end all of them. -/
theorem flush_forced (w : SampleWriter) : (w.flush true).file = w.file ++ w.out := by
  unfold flush
  rw [if_neg nofun]
  split
  · rename_i hempty
    rw [List.isEmpty_iff.mp hempty, List.append_nil]
  · rfl

/-- A message adds its frame, wherever the writes fall. -/
theorem sink_whole (w : SampleWriter) (msg : List UInt8) :
    (w.sink msg).file ++ (w.sink msg).out = w.file ++ w.out ++ Mold.block msg := by
  unfold sink
  rw [flush_whole, Mold.block]
  simp only [List.append_assoc, kFrameLen]

end SampleWriter

/-- `write_synthetic_file`, of what the generator gives the sink. -/
def writeSyntheticFile (sent : List (List UInt8)) : List UInt8 :=
  ((sent.foldl SampleWriter.sink {}).flush true).file

/-- **The writes leave no trace.** -/
theorem file_eq (sent : List (List UInt8)) : writeSyntheticFile sent = sent.flatMap Mold.block := by
  -- file and buffer together are the frames so far
  have hwhole : ∀ (sent : List (List UInt8)) (w : SampleWriter),
      (sent.foldl SampleWriter.sink w).file ++ (sent.foldl SampleWriter.sink w).out =
        w.file ++ w.out ++ sent.flatMap Mold.block := by
    intro sent
    induction sent with
    | nil => exact fun w => (List.append_nil _).symm
    | cons msg sent ih =>
      intro w
      rw [List.foldl_cons, ih, SampleWriter.sink_whole, List.flatMap_cons, List.append_assoc]
  rw [writeSyntheticFile, SampleWriter.flush_forced, hwhole]
  rfl

/-- The file frames the messages of the session. -/
theorem frames_file (ms : List Message) :
    frames (writeSyntheticFile (ms.map Message.bytes)) = ms.map Message.bytes := by
  rw [file_eq]
  induction ms with
  | nil => rfl
  | cons m ms ih =>
    obtain ⟨hlo, hhi⟩ := messageLength_bounds (length_type m)
    rw [← m.length_bytes] at hlo hhi
    have hne : m.bytes ≠ [] := by
      rintro hnil
      rw [hnil] at hlo
      exact absurd hlo (by decide)
    have hshort : m.bytes.length < 256 ^ 2 := Nat.lt_of_le_of_lt hhi (by decide)
    rw [List.map_cons, List.flatMap_cons, Mold.block, frames_append hne hshort, ih]

/-- What a replay of the messages calls. -/
theorem callsIn_messages (ms : List Message) :
    callsIn (ms.map Message.bytes) = ms.map Message.call := by
  unfold callsIn
  rw [List.filterMap_map, ← List.filterMap_eq_map]
  refine List.filterMap_congr fun m _ => ?_
  obtain ⟨e, he, hcall⟩ := m.holds []
  rw [List.append_nil] at he
  rw [Function.comp_apply, callOf_holds he, hcall]
  rfl

section Session

variable {L P : Type} [PriceLevel L] [MemoryPool P] [LawfulPriceLevel L] [LawfulMemoryPool P]

/-- **A session survives its file.** The file a session is written to is replayed with the same
result by either decoder, over either container, however the reads fall: as many messages as the
session counted, and a book that meets everything the session promised of it. -/
theorem sample_replayed (cfg : SyntheticConfig) (rng : ℕ → UInt64) {f : SyntheticFeed}
    (hmake : make cfg rng = .ok f) (hnarrow : cfg.symbols.toNat ≤ 65535)
    (hroom : Trace.Always perform
      (fun f => f.live.length ≤ MemoryPool.capacity (MemoryPool.make : P)) f (script cfg))
    (mapCapacity : ℕ) :
    ∃ (b : BookBuilder L P) (messages bytes : ℕ) (d : DecodeStats),
      (∀ which kind split, runPass L P which kind { mapCapacity := mapCapacity } split
        (writeSyntheticFile f.generate.sent) = .ok (some (report messages bytes b))) ∧
      UInt64.ofNat messages = f.generate.exp.messages ∧
      Met f.generate.exp cfg.symbols.toNat d b := by
  obtain ⟨ms, g, hgenerate, hkept, -, -⟩ := session_kept hmake hnarrow hroom
  obtain ⟨b, hb, hmet⟩ := hkept.met (L := L) hnarrow .map mapCapacity
  have hsent : f.generate.sent = ms.map Message.bytes := hgenerate ▸ hkept.sent
  have hframes : taken 0 0 (frames (writeSyntheticFile f.generate.sent)) =
      ms.map Message.bytes := by
    rw [hsent, frames_file]
    rfl
  have hrebuild : rebuild L P mapCapacity
      (taken 0 0 (frames (writeSyntheticFile f.generate.sent))) = some b := by
    rw [rebuild, hframes, callsIn_messages, List.map_map]
    exact hb
  -- a replay counts the frames it read, the decoder the messages it knew
  have hcount (l : List Message) : ∀ s : DecodeStats,
      (l.foldl (fun s m => s.count m.type (messageLength m.type)) s).messages =
        s.messages + UInt64.ofNat l.length := by
    induction l with
    | nil => exact fun s => (UInt64.add_zero _).symm
    | cons m l ih =>
      intro s
      rw [List.foldl_cons, ih, List.length_cons, UInt64.ofNat_add, UInt64.add_comm (UInt64.ofNat _),
        ← UInt64.add_assoc]
      rfl
  refine ⟨b, _, _, counted ms, fun which kind split =>
    runPass_eq which kind { mapCapacity := mapCapacity } split _ hrebuild, ?_, hgenerate ▸ hmet⟩
  show UInt64.ofNat (taken 0 0 (frames (writeSyntheticFile f.generate.sent))).length = _
  rw [hgenerate, hmet.messages, ← hgenerate, hframes, List.length_map]
  exact ((hcount ms {}).trans (UInt64.zero_add _)).symm

/-- A small session. -/
def twoSymbolsFeed : SyntheticFeed :=
  buildSymbols { cfg := twoSymbols, rng := counting, buf := .zeroed }

theorem make_twoSymbols : make twoSymbols counting = .ok twoSymbolsFeed := rfl

theorem sample_replayed_twoSymbols :
    ∃ (b : BookBuilder ListLevel (CellPool 4)) (messages bytes : ℕ) (d : DecodeStats),
      (∀ which kind split, runPass ListLevel (CellPool 4) which kind { mapCapacity := 8 } split
        (writeSyntheticFile twoSymbolsFeed.generate.sent) =
        .ok (some (report messages bytes b))) ∧
      UInt64.ofNat messages = twoSymbolsFeed.generate.exp.messages ∧
      Met twoSymbolsFeed.generate.exp twoSymbols.symbols.toNat d b :=
  sample_replayed (L := ListLevel) (P := CellPool 4) twoSymbols counting make_twoSymbols
    (by decide) (by decide +kernel) 8

end Session

end Synthetic
end Tickerplant
