import Mathlib.Data.Fintype.Basic
import Mathlib.Data.Fintype.Pi
import Mathlib.Data.UInt
import Mathlib.Logic.Function.Basic
import Tickerplant.Lib.Interleave

/-!
# The sequence lock

`SeqLock<T>`: one writer, any number of readers, no lock. The writer makes the counter odd, copies
the value in and makes the counter even; a reader samples the counter, copies the value out and
samples the counter again. Nothing stops a reader from copying in the middle of a write. What it
must not do is say that it succeeded.

Every access to the counter and every byte of a copy is a step of its own, and memory is
sequentially consistent. A copy moves its bytes in whatever order it likes, and another order each
time: `memcpy` promises none. The counter is the `std::size_t` of the source and wraps.

Beside the machine runs a history (`Interleave`): the values stored so far, in order, and every
finished call with how many stores were complete when it began and when it returned.

The argument follows the counter. It is a function of the number of stores to it (`ticks`), and its
parity says whether a copy is under way (`odd_iff`), so a reader that starts on an even count
starts on a whole value. From then on its bytes are bytes of that value for as long as the count
has not moved (`ReaderOk`): if it has, the second load shows another counter, unless the count has
moved by a multiple of `2 ^ 64`. That case is real, and `WithinTurn` is the assumption that
excludes it.
-/

set_option autoImplicit false

namespace Tickerplant
namespace SeqLock

open Interleave

/-- The bytes of one `T`. -/
abbrev Value (n : ℕ) := Fin n → UInt8

/-- Where the writer stands in `store`. -/
inductive Writer (n : ℕ) where
  | idle
  /-- `s` is loaded and the counter not yet odd. -/
  | loaded (v : Value n) (s : UInt64)
  /-- Inside the `memcpy`; `done` marks the bytes that are written. -/
  | copying (v : Value n) (s : UInt64) (done : Fin n → Bool)

/-- Where a reader stands in `try_load`. -/
inductive Reader (n : ℕ) where
  | idle
  /-- Inside the `memcpy`; `done` marks the bytes of `copy` that are read. -/
  | copying (s0 : UInt64) (done : Fin n → Bool) (copy : Value n)

/-- The lock and the threads at it. `out` is what each reader's own argument holds. -/
structure State (n : ℕ) (R : Type) where
  seq : UInt64
  storage : Value n
  writer : Writer n
  reader : R → Reader n
  out : R → Value n

/-- The steps of `store`: the load of the counter, the odd store, one byte, the even store. -/
inductive StoreStep (n : ℕ) where
  | load (v : Value n)
  | odd
  | byte (i : Fin n)
  | even

/-- The steps of `try_load`: the first load of the counter, one byte, the second load. A call is
handed an `out` with whatever the caller had in it. -/
inductive LoadStep (n : ℕ) where
  | first (out : Value n)
  | byte (i : Fin n)
  | second

/-- One step of the writer or of one reader. -/
inductive Action (n : ℕ) (R : Type) where
  | writer (a : StoreStep n)
  | reader (r : R) (a : LoadStep n)

variable {n : ℕ} {R : Type}

/-! ## The two functions, step by step -/

section Machine

variable [DecidableEq R]

/-- `SeqLock::store`, one step of it. -/
def store (q : State n R) : StoreStep n → Writer n → Option (State n R)
  | .load v, .idle => some { q with writer := .loaded v q.seq }
  | .odd, .loaded v s =>
    some { q with seq := s + 1, writer := .copying v s fun _ => false }
  | .byte i, .copying v s done =>
    if done i = true then none
    else some { q with
      storage := Function.update q.storage i (v i)
      writer := .copying v s (Function.update done i true) }
  | .even, .copying _ s done =>
    if ∀ i, done i = true then some { q with seq := s + 2, writer := .idle } else none
  | _, _ => none

/-- Reader `r` stands elsewhere; nothing else moves. -/
def State.setReader (q : State n R) (r : R) (p : Reader n) : State n R :=
  { q with reader := Function.update q.reader r p }

/-- The argument of reader `r` holds something else. -/
def State.setOut (q : State n R) (r : R) (out : Value n) : State n R :=
  { q with out := Function.update q.out r out }

/-- `SeqLock::try_load`, one step of it, and what the call returns if it returns here. `fresh`
is the `T{}` the copy starts from. `load` is this, again and again until it answers true. -/
def tryLoad (fresh : Value n) (q : State n R) (r : R) :
    LoadStep n → Reader n → Option (State n R × Option Bool)
  | .first out, .idle =>
    let q := q.setOut r out
    if q.seq &&& 1 ≠ 0 then some (q, some false)
    else some (q.setReader r (.copying q.seq (fun _ => false) fresh), none)
  | .byte i, .copying s0 done copy =>
    if done i = true then none
    else some (q.setReader r (.copying s0 (Function.update done i true)
      (Function.update copy i (q.storage i))), none)
  | .second, .copying s0 done copy =>
    if ∀ i, done i = true then
      let q := q.setReader r .idle
      if s0 ≠ q.seq then some (q, some false) else some (q.setOut r copy, some true)
    else none
  | _, _ => none

/-- One step of the machine. -/
def step (fresh : Value n) (q : State n R) : Action n R → Option (State n R × Option Bool)
  | .writer a => (store q a q.writer).map fun q' => (q', none)
  | .reader r a => tryLoad fresh q r a (q.reader r)

/-! ## What is remembered -/

/-- One finished `try_load`: its answer, `out` before and after, and how many stores were
complete at its first and at its last step. -/
structure Call (n : ℕ) where
  result : Bool
  before : Value n
  after : Value n
  since : ℕ
  upto : ℕ

/-- What was true when a reader's call began. -/
structure Began (n : ℕ) where
  ticks : ℕ
  since : ℕ
  out : Value n

/-- `stored` holds the initial value and then every value whose store is complete, `ticks` counts
the stores to the counter, and `pending` is the argument of the store under way. -/
structure History (n : ℕ) (R : Type) where
  /-- The initial value, and then every value whose store is complete. -/
  stored : List (Value n)
  pending : Value n
  ticks : ℕ
  began : R → Began n
  calls : R → List (Call n)

/-- How many stores are complete: the place of the current value in `stored`. -/
def History.current (h : History n R) : ℕ := h.stored.length - 1

/-- What the action itself adds to the history, whatever it answers. -/
def History.note (h : History n R) : Action n R → History n R
  | .writer (.load v) => { h with pending := v }
  | .writer .odd => { h with ticks := h.ticks + 1 }
  | .writer (.byte _) => h
  | .writer .even => { h with ticks := h.ticks + 1, stored := h.stored ++ [h.pending] }
  | .reader r (.first out) =>
    { h with began := Function.update h.began r ⟨h.ticks, h.current, out⟩ }
  | .reader _ _ => h

/-- A call of `r` returns `result`, with `after` in its `out`. -/
def History.close (h : History n R) (r : R) (result : Bool) (after : Value n) : History n R :=
  { h with calls := Function.update h.calls r (h.calls r ++
      [⟨result, (h.began r).out, after, (h.began r).since, h.current⟩]) }

/-- What a step adds to the history. -/
def record (h : History n R) (a : Action n R) (t : State n R × Option Bool) : History n R :=
  match a, t.2 with
  | .reader r _, some result => (h.note a).close r result (t.1.out r)
  | _, _ => h.note a

/-- The machine and its history. -/
abbrev World (n : ℕ) (R : Type) := State n R × History n R

/-- The machine with its history. -/
def advance (fresh : Value n) : World n R → Action n R → Option (World n R) :=
  observed (step fresh) record

end Machine

/-- A lock just built: counter zero, the value placed, nobody inside. -/
def start (initial : Value n) (outs : R → Value n) : World n R :=
  (⟨0, initial, .idle, fun _ => .idle, outs⟩,
   ⟨[initial], initial, 0, fun r => ⟨0, 0, outs r⟩, fun _ => []⟩)

/-- No read under way has seen the counter go all the way round. -/
def WithinTurn (w : World n R) : Prop :=
  ∀ r, w.1.reader r ≠ .idle → w.2.ticks - (w.2.began r).ticks < 2 ^ 64

/-! ## What holds between two steps -/

/-- What the writer's position says of the counter, the storage and the history. Only inside the
copy is the counter odd, and only there may the storage differ from the current value. -/
def WriterOk (h : History n R) (seq : UInt64) (storage : Value n) : Writer n → Prop
  | .idle => h.ticks = 2 * h.current ∧ h.stored[h.current]? = some storage
  | .loaded v s =>
    h.ticks = 2 * h.current ∧ h.stored[h.current]? = some storage ∧ s = seq ∧ h.pending = v
  | .copying v s done =>
    h.ticks = 2 * h.current + 1 ∧ s + 1 = seq ∧ h.pending = v ∧
      ∀ i, done i = true → storage i = v i

/-- What a reader inside the copy has in its hands. As long as the counter has not moved since
the first load, the bytes read are bytes of the value that was current then; once it has moved,
nothing is promised, and the second load will notice. -/
def ReaderOk (h : History n R) (b : Began n) (calls : List (Call n)) (out : Value n) :
    Reader n → Prop
  | .idle => True
  | .copying s0 done copy =>
    b.out = out ∧ s0 = UInt64.ofNat b.ticks ∧ b.ticks = 2 * b.since ∧ b.ticks ≤ h.ticks ∧
      (∀ c ∈ calls, c.upto ≤ b.since) ∧
      (h.ticks = b.ticks → ∀ v, h.stored[b.since]? = some v → ∀ i, done i = true → copy i = v i)

/-- A finished call told the truth. -/
def Call.Ok (stored : List (Value n)) (c : Call n) : Prop :=
  c.since ≤ c.upto ∧ if c.result then stored[c.since]? = some c.after else c.after = c.before

/-- The finished calls of one reader, in the order they returned. -/
def CallsOk (h : History n R) (calls : List (Call n)) : Prop :=
  (∀ c ∈ calls, c.Ok h.stored ∧ c.upto ≤ h.current) ∧
    calls.Pairwise fun c d => c.upto ≤ d.since

/-- The invariant. -/
structure Inv (w : World n R) : Prop where
  stored : w.2.stored ≠ []
  /-- The counter is the number of stores to it, as far as a word can say. -/
  seq : w.1.seq = UInt64.ofNat w.2.ticks
  writer : WriterOk w.2 w.1.seq w.1.storage w.1.writer
  /-- A reader in the middle of a copy may still be fooled, but not for long enough to return. -/
  readers : ∀ r, ReaderOk w.2 (w.2.began r) (w.2.calls r) (w.1.out r) (w.1.reader r)
  /-- What has been returned stays right: the past does not change. -/
  calls : ∀ r, CallsOk w.2 (w.2.calls r)

/-- The counter's parity is that of the number of stores to it, across the wrap as well. -/
theorem odd_iff (t : ℕ) : UInt64.ofNat t &&& 1 ≠ 0 ↔ t % 2 = 1 := by
  have hbit : (UInt64.ofNat t &&& 1).toNat = t % 2 := by
    rw [UInt64.toNat_and, UInt64.toNat_ofNat', UInt64.toNat_one, Nat.and_one_is_mod]
    omega
  rw [← hbit, Ne, ← UInt64.toNat_inj, UInt64.toNat_zero, hbit]
  omega

/-- Two counts less than a turn apart that show the same counter are one count. -/
theorem eq_of_ofNat_eq {t t' : ℕ} (hle : t ≤ t') (hturn : t' - t < 2 ^ 64)
    (h : UInt64.ofNat t = UInt64.ofNat t') : t = t' := by
  have := congrArg UInt64.toNat h
  simp only [UInt64.toNat_ofNat'] at this
  omega

/-- Two stores to the counter make one stored value. -/
theorem WriterOk.ticks_div {h : History n R} {seq : UInt64} {storage : Value n} {p : Writer n}
    (hw : WriterOk h seq storage p) : h.ticks / 2 = h.current := by
  cases p <;> simp only [WriterOk] at hw <;> omega

/-- With the counter even the storage is the current value, whole. -/
theorem WriterOk.storage_of_even {h : History n R} {seq : UInt64} {storage : Value n}
    {p : Writer n} (hw : WriterOk h seq storage p) (heven : h.ticks % 2 = 0) :
    h.stored[h.current]? = some storage := by
  cases p with
  | idle => exact hw.2
  | loaded v s => exact hw.2.1
  | copying v s done =>
    have := hw.1
    omega

/-- A lock just built. -/
theorem inv_start (initial : Value n) (outs : R → Value n) : Inv (start initial outs) where
  stored := by simp [start]
  seq := rfl
  writer := ⟨rfl, rfl⟩
  readers _ := trivial
  calls _ := ⟨by simp [start], by simp [start]⟩

/-- One more call that told the truth, and began after the others had returned. -/
theorem callsOk_append {h : History n R} {calls : List (Call n)} {c : Call n}
    (hcalls : CallsOk h calls) (hok : c.Ok h.stored) (hupto : c.upto ≤ h.current)
    (hbefore : ∀ d ∈ calls, d.upto ≤ c.since) : CallsOk h (calls ++ [c]) := by
  refine ⟨?_, ?_⟩
  · intro d hd
    rcases List.mem_append.mp hd with hd | hd
    · exact hcalls.1 d hd
    · rw [List.mem_singleton.mp hd]
      exact ⟨hok, hupto⟩
  · rw [List.pairwise_append]
    refine ⟨hcalls.2, List.pairwise_singleton _ _, ?_⟩
    intro d hd e he
    rw [List.mem_singleton.mp he]
    exact hbefore d hd

/-! ## A step of the writer -/

/-- The history later on: perhaps more ticks, perhaps more stored values, but no value without a
tick. -/
structure Grows (h h' : History n R) : Prop where
  ticks : h.ticks ≤ h'.ticks
  stored : h.stored <+: h'.stored
  /-- A value is stored by a step that is counted. -/
  still : h'.ticks = h.ticks → h'.stored = h.stored

/-- What a reader has in its hands survives what others do: either the count stood still, and so
did the values, or it moved, and the bytes are promised to be nothing. -/
theorem Grows.readerOk {h h' : History n R} (hg : Grows h h') {b : Began n}
    {calls : List (Call n)} {out : Value n} {p : Reader n} (hr : ReaderOk h b calls out p) :
    ReaderOk h' b calls out p := by
  cases p with
  | idle => trivial
  | copying s0 done copy =>
    obtain ⟨hout, hs0, heven, hle, hcalls, hcopy⟩ := hr
    refine ⟨hout, hs0, heven, Nat.le_trans hle hg.ticks, hcalls, ?_⟩
    intro hnow
    have ht := hg.ticks
    rw [hg.still (by omega)]
    exact hcopy (by omega)

/-- What was returned was one of the values then, and still is. -/
theorem Grows.callsOk {h h' : History n R} (hg : Grows h h') {calls : List (Call n)}
    (hc : CallsOk h calls) : CallsOk h' calls := by
  refine ⟨?_, hc.2⟩
  intro c hmem
  obtain ⟨⟨hle, hval⟩, hupto⟩ := hc.1 c hmem
  have hlen := hg.stored.length_le
  refine ⟨⟨hle, ?_⟩, ?_⟩
  · split at hval
    · rw [if_pos ‹_›]
      obtain ⟨more, hmore⟩ := hg.stored
      rw [← hmore, List.getElem?_append_left (List.getElem?_eq_some_iff.mp hval).1]
      exact hval
    · rw [if_neg ‹_›]
      exact hval
  · unfold History.current at *
    omega

/-- What each step of `store` does, and where the writer must stand for it. -/
theorem store_cases {q q' : State n R} {a : StoreStep n} (h : store q a q.writer = some q') :
    (∃ v, a = .load v ∧ q.writer = .idle ∧ q' = { q with writer := .loaded v q.seq }) ∨
    (∃ v s, a = .odd ∧ q.writer = .loaded v s ∧
      q' = { q with seq := s + 1, writer := .copying v s fun _ => false }) ∨
    (∃ i v s done, a = .byte i ∧ q.writer = .copying v s done ∧ q' = { q with
      storage := Function.update q.storage i (v i)
      writer := .copying v s (Function.update done i true) }) ∨
    (∃ v s done, a = .even ∧ q.writer = .copying v s done ∧ (∀ i, done i = true) ∧
      q' = { q with seq := s + 2, writer := .idle }) := by
  cases a with
  | load v =>
    cases hw : q.writer with
    | idle =>
      rw [hw] at h
      cases h
      exact .inl ⟨v, rfl, rfl, rfl⟩
    | loaded _ _ | copying _ _ _ => rw [hw] at h; cases h
  | odd =>
    cases hw : q.writer with
    | loaded v s =>
      rw [hw] at h
      cases h
      exact .inr (.inl ⟨v, s, rfl, rfl, rfl⟩)
    | idle | copying _ _ _ => rw [hw] at h; cases h
  | byte i =>
    cases hw : q.writer with
    | copying v s done =>
      rw [hw, store] at h
      split at h
      · cases h
      · cases h
        exact .inr (.inr (.inl ⟨i, v, s, done, rfl, rfl, rfl⟩))
    | idle | loaded _ _ => rw [hw] at h; cases h
  | even =>
    cases hw : q.writer with
    | copying v s done =>
      rw [hw, store] at h
      split at h
      · cases h
        exact .inr (.inr (.inr ⟨v, s, done, rfl, rfl, ‹_›, rfl⟩))
      · cases h
    | idle | loaded _ _ => rw [hw] at h; cases h

/-- The store under way is complete: one more value, one more tick. -/
theorem grows_even (h : History n R) :
    Grows h { h with ticks := h.ticks + 1, stored := h.stored ++ [h.pending] } where
  ticks := Nat.le_succ _
  stored := ⟨[h.pending], rfl⟩
  still hnow := absurd hnow (Nat.succ_ne_self _)

/-- The value just stored is the current one. -/
theorem current_append (h : History n R) (hne : h.stored ≠ []) (v : Value n) :
    (h.stored ++ [v]).length - 1 = h.current + 1 ∧
      (h.stored ++ [v])[h.current + 1]? = some v := by
  have hpos := List.length_pos_iff.mpr hne
  have hcur : h.current + 1 = h.stored.length := by
    unfold History.current
    omega
  refine ⟨by rw [List.length_append, hcur]; rfl, ?_⟩
  rw [hcur, List.getElem?_append_right (Nat.le_refl _), Nat.sub_self]
  rfl

section Steps

variable [DecidableEq R] {fresh : Value n} {w w' : World n R}

/-- A step of `store` keeps the invariant. -/
theorem inv_writer (hinv : Inv w) {a : StoreStep n} {q' : State n R}
    (h : store w.1 a w.1.writer = some q') : Inv (q', w.2.note (.writer a)) := by
  -- One case per step. Only the last one stores a value; the byte writes are the ones that leave
  -- the storage differing from the current value.
  obtain ⟨hne, hseq, hwriter, hreaders, hcalls⟩ := hinv
  rcases store_cases h with ⟨v, rfl, hw, rfl⟩ | ⟨v, s, rfl, hw, rfl⟩ |
    ⟨i, v, s, done, rfl, hw, rfl⟩ | ⟨v, s, done, rfl, hw, hall, rfl⟩
  · rw [hw] at hwriter
    exact ⟨hne, hseq, ⟨hwriter.1, hwriter.2, rfl, rfl⟩, hreaders, hcalls⟩
  · rw [hw] at hwriter
    obtain ⟨hticks, hcur, rfl, hpend⟩ := hwriter
    have grows : Grows w.2 { w.2 with ticks := w.2.ticks + 1 } :=
      ⟨Nat.le_succ _, List.prefix_refl _, fun _ => rfl⟩
    refine ⟨hne, ?_, ⟨?_, rfl, hpend, ?_⟩, ?_, ?_⟩
    · simp only [History.note]
      rw [UInt64.ofNat_add, ← hseq]
      rfl
    · simp only [History.note, History.current] at *
      omega
    · intro i hi
      cases hi
    · exact fun r => grows.readerOk (hreaders r)
    · exact fun r => grows.callsOk (hcalls r)
  · rw [hw] at hwriter
    obtain ⟨hticks, hs, hpend, hcopied⟩ := hwriter
    refine ⟨hne, hseq, ⟨hticks, hs, hpend, ?_⟩, hreaders, hcalls⟩
    intro j hj
    change Function.update w.1.storage i (v i) j = v j
    by_cases hji : j = i
    · rw [hji, Function.update_self]
    · rw [Function.update_of_ne hji] at hj ⊢
      exact hcopied j hj
  · rw [hw] at hwriter
    obtain ⟨hticks, hs, hpend, hcopied⟩ := hwriter
    -- every byte has been written, so the storage is the argument
    have hstorage : w.1.storage = v := funext fun i => hcopied i (hall i)
    obtain ⟨hlen, hlast⟩ := current_append w.2 hne v
    refine ⟨by simp [History.note], ?_, ⟨?_, ?_⟩, ?_, ?_⟩
    · simp only [History.note]
      rw [UInt64.ofNat_add, ← hseq, ← hs, UInt64.add_assoc]
      rfl
    · simp only [History.note, History.current, hpend, hlen]
      have : w.2.current = w.2.stored.length - 1 := rfl
      omega
    · simp only [History.note, hpend, hstorage]
      show (w.2.stored ++ [v])[(w.2.stored ++ [v]).length - 1]? = some v
      rw [hlen]
      exact hlast
    · exact fun r => (grows_even w.2).readerOk (hreaders r)
    · exact fun r => (grows_even w.2).callsOk (hcalls r)

/-- What each step of `try_load` does, where the reader must stand for it and what it returns. -/
theorem tryLoad_cases {q q' : State n R} {r : R} {a : LoadStep n} {o : Option Bool}
    (h : tryLoad fresh q r a (q.reader r) = some (q', o)) :
    (∃ out, a = .first out ∧ q.reader r = .idle ∧ q.seq &&& 1 ≠ 0 ∧ q' = q.setOut r out ∧
      o = some false) ∨
    (∃ out, a = .first out ∧ q.reader r = .idle ∧ ¬ q.seq &&& 1 ≠ 0 ∧ o = none ∧
      q' = (q.setOut r out).setReader r (.copying q.seq (fun _ => false) fresh)) ∨
    (∃ i s0 done copy, a = .byte i ∧ q.reader r = .copying s0 done copy ∧ o = none ∧
      q' = q.setReader r (.copying s0 (Function.update done i true)
        (Function.update copy i (q.storage i)))) ∨
    (∃ s0 done copy, a = .second ∧ q.reader r = .copying s0 done copy ∧
      (∀ i, done i = true) ∧
      (s0 ≠ q.seq ∧ q' = q.setReader r .idle ∧ o = some false ∨
        s0 = q.seq ∧ q' = (q.setReader r .idle).setOut r copy ∧ o = some true)) := by
  cases a with
  | first out =>
    cases hr : q.reader r with
    | copying _ _ _ => rw [hr] at h; cases h
    | idle =>
      rw [hr] at h
      simp only [tryLoad] at h
      split at h
      · cases h
        exact .inl ⟨out, rfl, rfl, ‹_›, rfl, rfl⟩
      · cases h
        exact .inr (.inl ⟨out, rfl, rfl, ‹_›, rfl, rfl⟩)
  | byte i =>
    cases hr : q.reader r with
    | idle => rw [hr] at h; cases h
    | copying s0 done copy =>
      rw [hr] at h
      simp only [tryLoad] at h
      split at h
      · cases h
      · cases h
        exact .inr (.inr (.inl ⟨i, s0, done, copy, rfl, rfl, rfl, rfl⟩))
  | second =>
    cases hr : q.reader r with
    | idle => rw [hr] at h; cases h
    | copying s0 done copy =>
      rw [hr] at h
      simp only [tryLoad] at h
      split at h
      · split at h
        · cases h
          exact .inr (.inr (.inr ⟨s0, done, copy, rfl, rfl, ‹_›, .inl ⟨‹_›, rfl, rfl⟩⟩))
        · cases h
          exact .inr (.inr (.inr ⟨s0, done, copy, rfl, rfl, ‹_›,
            .inr ⟨not_not.mp ‹_›, rfl, rfl⟩⟩))
      · cases h

/-! ## A step of a reader -/

/-- A step of reader `r` touches nothing but what belongs to `r`, so only `r` is to be looked
at. -/
theorem inv_of_reader {r : R} (hinv : Inv w)
    (hlock : w'.1.seq = w.1.seq ∧ w'.1.storage = w.1.storage ∧ w'.1.writer = w.1.writer)
    (hpast : w'.2.stored = w.2.stored ∧ w'.2.ticks = w.2.ticks ∧ w'.2.pending = w.2.pending)
    (hothers : ∀ r', r' ≠ r → w'.1.reader r' = w.1.reader r' ∧ w'.1.out r' = w.1.out r' ∧
      w'.2.began r' = w.2.began r' ∧ w'.2.calls r' = w.2.calls r')
    (hreader : ReaderOk w.2 (w'.2.began r) (w'.2.calls r) (w'.1.out r) (w'.1.reader r))
    (hcalls : CallsOk w.2 (w'.2.calls r)) : Inv w' := by
  obtain ⟨hseq, hstorage, hwriter⟩ := hlock
  obtain ⟨hstored, hticks, hpending⟩ := hpast
  have grows : Grows w.2 w'.2 :=
    ⟨Nat.le_of_eq hticks.symm, hstored ▸ List.prefix_refl _, fun _ => hstored⟩
  refine ⟨hstored ▸ hinv.stored, by rw [hseq, hticks]; exact hinv.seq, ?_, ?_, ?_⟩
  · have hw := hinv.writer
    rw [hseq, hstorage, hwriter]
    cases hp : w.1.writer <;> rw [hp] at hw <;>
      simpa only [WriterOk, History.current, hstored, hticks, hpending] using hw
  · intro r'
    by_cases hr : r' = r
    · subst hr
      exact grows.readerOk hreader
    · obtain ⟨h1, h2, h3, h4⟩ := hothers r' hr
      rw [h1, h2, h3, h4]
      exact grows.readerOk (hinv.readers r')
  · intro r'
    by_cases hr : r' = r
    · subst hr
      exact grows.callsOk hcalls
    · rw [(hothers r' hr).2.2.2]
      exact grows.callsOk (hinv.calls r')

/-- A step of `try_load` keeps the invariant, as long as the counter has not gone round since the
call began. -/
theorem inv_reader (hinv : Inv w) (hturn : WithinTurn w) {r : R} {a : LoadStep n}
    {q' : State n R} {o : Option Bool} (h : tryLoad fresh w.1 r a (w.1.reader r) = some (q', o)) :
    Inv (q', record w.2 (.reader r a) (q', o)) := by
  -- One case per step of `try_load`, the last one twice: the two loads agree, or they do not.
  have hdiv := hinv.writer.ticks_div
  have hlast := (hinv.calls r).1
  rcases tryLoad_cases h with ⟨out, rfl, hr, hodd, rfl, rfl⟩ | ⟨out, rfl, hr, heven, rfl, rfl⟩ |
    ⟨i, s0, done, copy, rfl, hr, rfl, rfl⟩ | ⟨s0, done, copy, rfl, hr, hall, hend⟩
  · refine inv_of_reader (r := r) hinv ⟨rfl, rfl, rfl⟩ ⟨rfl, rfl, rfl⟩ ?_ ?_ ?_
    · intro r' hne
      simp [record, History.note, History.close, State.setOut, hne]
    · simp only [State.setOut, hr]
      trivial
    · simp only [record, History.note, History.close, Function.update_self]
      refine callsOk_append (hinv.calls r) ⟨Nat.le_refl _, ?_⟩ (Nat.le_refl _) ?_
      · simp [State.setOut]
      · exact fun d hd => (hlast d hd).2
  · rw [hinv.seq, odd_iff] at heven
    refine inv_of_reader (r := r) hinv ⟨rfl, rfl, rfl⟩ ⟨rfl, rfl, rfl⟩ ?_ ?_ (hinv.calls r)
    · intro r' hne
      simp [record, History.note, State.setOut, State.setReader, hne]
    · simp only [record, History.note, State.setOut, State.setReader, Function.update_self]
      refine ⟨rfl, hinv.seq, ?_, Nat.le_refl _, fun c hc => (hlast c hc).2, ?_⟩
      · simp only
        omega
      · intro _ _ _ i hi
        cases hi
  · have hcopying := hinv.readers r
    rw [hr] at hcopying
    obtain ⟨hout, hs0, hsince, hle, hbefore, hcopy⟩ := hcopying
    refine inv_of_reader (r := r) hinv ⟨rfl, rfl, rfl⟩ ⟨rfl, rfl, rfl⟩ ?_ ?_ (hinv.calls r)
    · intro r' hne
      simp [record, History.note, State.setReader, hne]
    · simp only [record, History.note, State.setReader, Function.update_self]
      refine ⟨hout, hs0, hsince, hle, hbefore, ?_⟩
      intro hnow v hv j hj
      by_cases hji : j = i
      · -- the counter is still even, so this byte came out of the current value
        have hcur := hinv.writer.storage_of_even (by omega)
        rw [show w.2.current = (w.2.began r).since by omega, hv] at hcur
        rw [hji, Function.update_self, Option.some.inj hcur]
      · rw [Function.update_of_ne hji] at hj ⊢
        exact hcopy hnow v hv j hj
  · have hcopying := hinv.readers r
    rw [hr] at hcopying
    obtain ⟨hout, hs0, hsince, hle, hbefore, hcopy⟩ := hcopying
    have hlt := hturn r (by rw [hr]; exact fun h => nomatch h)
    have hold : (w.2.began r).since ≤ w.2.current := by omega
    rcases hend with ⟨hmoved, rfl, rfl⟩ | ⟨hstill, rfl, rfl⟩
    · refine inv_of_reader (r := r) hinv ⟨rfl, rfl, rfl⟩ ⟨rfl, rfl, rfl⟩ ?_ ?_ ?_
      · intro r' hne
        simp [record, History.note, History.close, State.setReader, hne]
      · simp only [State.setReader, Function.update_self]
        trivial
      · simp only [record, History.note, History.close, Function.update_self]
        refine callsOk_append (hinv.calls r) ⟨hold, ?_⟩ (Nat.le_refl _) hbefore
        simp [State.setReader, hout]
    -- the counters agree, and less than a turn has passed: nothing has been stored since
    · have hnow : w.2.ticks = (w.2.began r).ticks :=
        (eq_of_ofNat_eq hle hlt (by rw [← hs0, hstill, hinv.seq])).symm
      have hcur := hinv.writer.storage_of_even (by omega)
      rw [show w.2.current = (w.2.began r).since by omega] at hcur
      have hvalue : copy = w.1.storage := funext fun i => hcopy hnow _ hcur i (hall i)
      refine inv_of_reader (r := r) hinv ⟨rfl, rfl, rfl⟩ ⟨rfl, rfl, rfl⟩ ?_ ?_ ?_
      · intro r' hne
        simp [record, History.note, History.close, State.setReader, State.setOut, hne]
      · simp only [State.setReader, State.setOut, Function.update_self]
        trivial
      · simp only [record, History.note, History.close, Function.update_self]
        refine callsOk_append (hinv.calls r) ⟨hold, ?_⟩ (Nat.le_refl _) hbefore
        simp [State.setReader, State.setOut, hcur, hvalue]

/-! ## Every run -/

/-- One step keeps the invariant. -/
theorem inv_advance (a : Action n R) (h : advance fresh w a = some w') (hturn : WithinTurn w)
    (hinv : Inv w) : Inv w' := by
  obtain ⟨q', o, hstep, rfl⟩ := observed_cases h
  cases a with
  | writer a =>
    obtain ⟨q'', hstore, heq⟩ := Option.map_eq_some_iff.mp hstep
    cases heq
    exact inv_writer hinv hstore
  | reader r a => exact inv_reader hinv hturn hstep

/-- **The lock shows whole values only.** However the steps of the writer and the readers fall,
every `try_load` that returned true left in `out` one of the values stored (or the first one),
and one that was current between the call's first and last step; the versions one reader saw
never go back; and a `try_load` that returned false left `out` as it was. -/
theorem readers_consistent (initial : Value n) (outs : R → Value n) (acts : List (Action n R))
    (hrun : run (advance fresh) (start initial outs) acts = some w)
    (hturn : Throughout (advance fresh) WithinTurn (start initial outs) acts) (r : R) :
    (∃ versions : List ℕ,
      List.Forall₂
        (fun c k => c.since ≤ k ∧ k ≤ c.upto ∧ w.2.stored[k]? = some c.after)
        ((w.2.calls r).filter (·.result)) versions ∧ versions.Pairwise (· ≤ ·)) ∧
      ∀ c ∈ w.2.calls r, c.result = false → c.after = c.before := by
  have hkeep : ∀ v (a : Action n R) v', advance fresh v a = some v' → WithinTurn v →
      WithinTurn v' → Inv v → Inv v' := fun _ a _ h hP _ hI => inv_advance a h hP hI
  have hinv : Inv w := run_invariant hkeep acts _ _ hrun hturn (inv_start initial outs)
  obtain ⟨hok, horder⟩ := hinv.calls r
  refine ⟨⟨((w.2.calls r).filter (·.result)).map Call.since, ?_, ?_⟩, ?_⟩
  · rw [List.forall₂_map_right_iff, List.forall₂_same]
    intro c hc
    obtain ⟨hmem, hres⟩ := List.mem_filter.mp hc
    obtain ⟨⟨hle, hval⟩, -⟩ := hok c hmem
    rw [if_pos hres] at hval
    exact ⟨Nat.le_refl _, hle, hval⟩
  · rw [List.pairwise_map]
    refine (horder.filter _).imp_of_mem ?_
    intro c d hc hd hcd
    exact Nat.le_trans (hok c (List.mem_filter.mp hc).1).1.1 hcd
  · intro c hc hres
    have hval := (hok c hc).1.2
    rwa [hres, if_neg (by simp)] at hval

/-- A run of fewer than `2 ^ 64` steps cannot turn the counter round. -/
theorem withinTurn_of_short (initial : Value n) (outs : R → Value n) (acts : List (Action n R))
    (hshort : acts.length < 2 ^ 64) :
    Throughout (advance fresh) WithinTurn (start initial outs) acts := by
  refine throughout_of_count (fun w : World n R => w.2.ticks) (2 ^ 64) ?_ ?_ acts _
    (by simpa [start] using hshort)
  · intro w a w' h
    obtain ⟨q', o, -, rfl⟩ := observed_cases h
    rcases a with (v | _ | i | _) | ⟨r, out | i | _⟩ <;> cases o <;>
      simp [record, History.note, History.close]
  · intro w h r _
    exact Nat.lt_of_le_of_lt (Nat.sub_le _ _) h

end Steps

/-- A store that overlaps a failed call, and the call tried again after it. -/
def overlap : List (Action 1 Unit) :=
  [.writer (.load fun _ => 7), .reader () (.first fun _ => 1), .reader () (.byte 0), .writer .odd,
   .reader () .second, .writer (.byte 0), .writer .even, .reader () (.first fun _ => 1),
   .reader () (.byte 0), .reader () .second]

/-- The first call meets the store half way and returns false; the second returns its value. -/
theorem readers_consistent_overlap : ∃ w : World 1 Unit,
    run (advance fun _ => 0) (start (fun _ => 5) fun _ => 1) overlap = some w ∧
    (w.2.calls ()).map Call.result = [false, true] ∧
    (∃ versions : List ℕ,
      List.Forall₂
        (fun c k => c.since ≤ k ∧ k ≤ c.upto ∧ w.2.stored[k]? = some c.after)
        ((w.2.calls ()).filter (·.result)) versions ∧ versions.Pairwise (· ≤ ·)) ∧
      ∀ c ∈ w.2.calls (), c.result = false → c.after = c.before := by
  have hres : (run (advance fun _ => 0) (start (fun _ => 5) fun _ => 1) overlap).map
      (fun w => (w.2.calls ()).map Call.result) = some [false, true] := rfl
  obtain ⟨w, hw, hcalls⟩ := Option.map_eq_some_iff.mp hres
  exact ⟨w, hw, hcalls, readers_consistent _ _ overlap hw
    (withinTurn_of_short _ _ overlap (by decide)) ()⟩

end SeqLock
end Tickerplant
