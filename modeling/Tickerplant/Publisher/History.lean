import Tickerplant.Publisher.Retransmit

/-!
# What a re-request is answered with

A slot is written over every `cap` sequences and its bytes are never cleared, so what a fetch
returns is a matter of the store's whole history. `Latest` is that history as the answers should
depend on it: for each slot the last message stored into it since the last `clear`. `Agrees` ties
the slots and their bytes to it.

A slot's length field has 32 bits. `fetch_iff` is therefore what the code does: a fetch returns the
message that was stored, as far as its length modulo `2 ^ 32` goes. Everything the store should do
(`Lawful`) follows from it but for that, and exactly where no message is that long
(`lawful_run_iff`).

The law has a clause about runs of consecutive messages, since those are what is asked for: the
last of them that fill the ring can be fetched, whatever the ring held before
(`contains_storeAll`). It needs no history. A run of `cap` consecutive numbers meets every slot
once, so the numbers that are overwritten are those a whole lap behind.
-/

set_option autoImplicit false

namespace Tickerplant
namespace RetransmitStore

open Lib

/-- One call that changes the store. -/
inductive StoreCall where
  | store (seq : UInt64) (payload : List UInt8)
  | clear
  deriving DecidableEq, Repr

/-- One call. -/
def exec (s : RetransmitStore) : StoreCall → RetransmitStore
  | .store seq payload => (s.store seq payload).2
  | .clear => s.clear

/-- Some calls, in order. -/
def run (s : RetransmitStore) (calls : List StoreCall) : RetransmitStore := calls.foldl exec s

/-! ## The history -/

/-- The last message stored into each slot since the last `clear`. -/
abbrev Latest := ℕ → Option (UInt64 × List UInt8)

/-- A payload wider than a slot is refused and changes nothing. -/
def record (cap maxPayload : ℕ) (latest : Latest) : StoreCall → Latest
  | .store seq payload =>
    if maxPayload < payload.length then latest
    else Function.update latest (maskIndex cap seq) (some (seq, payload))
  | .clear => fun _ => none

/-- The history after some calls to a new store. -/
def latest (cap maxPayload : ℕ) (calls : List StoreCall) : Latest :=
  calls.foldl (record cap maxPayload) fun _ => none

/-- What the slots hold is what was stored last. -/
structure Agrees (s : RetransmitStore) (l : Latest) : Prop where
  /-- A slot that nothing was stored into, or that was cleared, says so. -/
  vacant : ∀ i, l i = none → (s.ring.slots i).present = false
  /-- A slot that was stored into has the number and the length it was given, as far as the length
  fits, and the bytes in front, whatever lies behind them. -/
  taken : ∀ i seq p, l i = some (seq, p) →
    s.ring.slots i = { seq := seq, len := UInt32.ofNat p.length, present := true } ∧
      (s.ring.bytes i).take p.length = p ∧ p.length ≤ s.maxPayload

variable {s : RetransmitStore} {l : Latest} {seq : UInt64} {p payload : List UInt8} {out : ℕ}

/-- Nothing has been stored yet. -/
theorem agrees_make (capacity maxPayload : ℕ) :
    Agrees (make capacity maxPayload) fun _ => none where
  vacant := fun _ _ => rfl
  taken := fun _ _ _ h => by cases h

/-- No call changes the shape of the store. -/
theorem exec_sizes (s : RetransmitStore) (call : StoreCall) :
    (s.exec call).cap = s.cap ∧ (s.exec call).maxPayload = s.maxPayload := by
  cases call with
  | store seq payload =>
    unfold exec RetransmitStore.store
    simp only
    split <;> exact ⟨rfl, rfl⟩
  | clear => exact ⟨rfl, rfl⟩

/-- **One call**: a store writes over the whole of what the slot said, and over as much of its bytes
as it brings. -/
theorem agrees_exec (h : Agrees s l) (call : StoreCall) :
    Agrees (s.exec call) (record s.cap s.maxPayload l call) := by
  cases call with
  | clear => exact ⟨fun _ _ => rfl, fun _ _ _ hcon => by cases hcon⟩
  | store seq payload =>
    unfold exec RetransmitStore.store record
    simp only
    by_cases hwide : s.maxPayload < payload.length
    · rw [if_pos hwide, if_pos hwide]
      exact h
    rw [if_neg hwide, if_neg hwide]
    -- the slot written holds what was stored, and every other slot what it held
    refine ⟨fun i hi => ?_, fun i seq' p hi => ?_⟩
    · by_cases heq : i = maskIndex s.cap seq
      · rw [heq, Function.update_self] at hi
        cases hi
      · rw [Function.update_of_ne heq] at hi
        show ((s.ring.write s.cap seq payload).slots i).present = false
        rw [SlotRing.write_slots_ne heq]
        exact h.vacant i hi
    · by_cases heq : i = maskIndex s.cap seq
      · rw [heq, Function.update_self, Option.some.injEq, Prod.mk.injEq] at hi
        obtain ⟨rfl, rfl⟩ := hi
        rw [heq]
        refine ⟨SlotRing.write_slots_self, ?_, Nat.not_lt.mp hwide⟩
        simp [SlotRing.write]
      · rw [Function.update_of_ne heq] at hi
        obtain ⟨hslot, hbytes, hlen⟩ := h.taken i seq' p hi
        refine ⟨?_, ?_, hlen⟩
        · show (s.ring.write s.cap seq payload).slots i = _
          rw [SlotRing.write_slots_ne heq]
          exact hslot
        · show ((s.ring.write s.cap seq payload).bytes i).take p.length = p
          simp only [SlotRing.write, Function.update_of_ne heq]
          exact hbytes

/-- **Any calls** keep the slots what the history says they are. -/
theorem agrees_run (calls : List StoreCall) : ∀ {s : RetransmitStore} {l : Latest}, Agrees s l →
    Agrees (s.run calls) (calls.foldl (record s.cap s.maxPayload) l) ∧
      (s.run calls).cap = s.cap ∧ (s.run calls).maxPayload = s.maxPayload := by
  induction calls with
  | nil => exact fun h => ⟨h, rfl, rfl⟩
  | cons call calls ih =>
    intro s l h
    obtain ⟨hcap, hmax⟩ := exec_sizes s call
    obtain ⟨hrun, hcap', hmax'⟩ := ih (agrees_exec h call)
    rw [hcap, hmax] at hrun
    exact ⟨hrun, hcap'.trans hcap, hmax'.trans hmax⟩

/-! ## What is answered

A slot answers for one number at a time, that of the last message stored into it. -/

/-- The slot of a sequence holds it exactly when it was the last to be stored there. -/
theorem has_iff_latest (h : Agrees s l) : s.ring.has s.cap seq = true ↔
    ∃ payload, l (maskIndex s.cap seq) = some (seq, payload) := by
  rw [SlotRing.has_iff]
  constructor
  · rintro ⟨hpresent, hseq⟩
    cases hl : l (maskIndex s.cap seq) with
    | none =>
      rw [h.vacant _ hl] at hpresent
      cases hpresent
    | some m =>
      obtain ⟨seq', payload⟩ := m
      rw [(h.taken _ _ _ hl).1] at hseq
      exact ⟨payload, by rw [show seq' = seq from hseq]⟩
  · rintro ⟨payload, hl⟩
    rw [(h.taken _ _ _ hl).1]
    exact ⟨rfl, rfl⟩

/-- **What a fetch returns**, into a buffer as wide as a slot. -/
theorem fetch_iff (h : Agrees s l) (hout : s.maxPayload ≤ out) :
    s.fetch seq out = some p ↔ ∃ payload, l (maskIndex s.cap seq) = some (seq, payload) ∧
      p = payload.take (payload.length % 2 ^ 32) := by
  have hhas := @has_iff_latest s l seq h
  unfold fetch
  by_cases hheld : s.ring.has s.cap seq = true
  · obtain ⟨payload, hl⟩ := hhas.mp hheld
    obtain ⟨hslot, hbytes, hlen⟩ := h.taken _ _ _ hl
    have hslot' : s.ring.slotOf s.cap seq = _ := hslot
    have htrunc : (UInt32.ofNat payload.length).toNat = payload.length % 2 ^ 32 :=
      UInt32.toNat_ofNat'
    have hle := Nat.mod_le payload.length (2 ^ 32)
    rw [if_neg (by simp [hheld]), if_neg (by rw [hslot']; simp only [htrunc]; omega)]
    -- the bytes read back are a front part of those that were stored
    have hread : s.ring.bytesOf s.cap seq = payload.take (payload.length % 2 ^ 32) := by
      unfold SlotRing.bytesOf
      rw [hslot']
      simp only [htrunc]
      rw [← Nat.min_eq_left hle, ← List.take_take, hbytes, Nat.min_eq_left hle]
    rw [hread, Option.some.injEq]
    constructor
    · rintro rfl
      exact ⟨payload, hl, rfl⟩
    · rintro ⟨payload', hl', rfl⟩
      rw [hl, Option.some.injEq, Prod.mk.injEq] at hl'
      rw [hl'.2]
  · rw [if_pos (by simpa using hheld)]
    refine iff_of_false (by simp) ?_
    rintro ⟨payload, hl, -⟩
    exact hheld (hhas.mpr ⟨payload, hl⟩)

/-- Into a buffer that is wide enough, what is contained is what can be fetched. -/
theorem fetch_iff_contains (h : Agrees s l) (hout : s.maxPayload ≤ out) :
    s.contains seq = true ↔ ∃ p, s.fetch seq out = some p := by
  unfold contains
  rw [has_iff_latest h]
  constructor
  · rintro ⟨payload, hl⟩
    exact ⟨_, (fetch_iff h hout).mpr ⟨payload, hl, rfl⟩⟩
  · rintro ⟨p, hp⟩
    obtain ⟨payload, hl, -⟩ := (fetch_iff h hout).mp hp
    exact ⟨payload, hl⟩

/-! ## A run of consecutive messages

The messages stored in one go, under numbers that do not wrap. -/

/-- The messages under consecutive sequences from `first` on. -/
def numbered (first : UInt64) (msgs : List (List UInt8)) : List (UInt64 × List UInt8) :=
  msgs.mapIdx fun i m => (first + UInt64.ofNat i, m)

/-- A store puts one number in, and whatever was in its slot out. -/
theorem contains_store (hp : payload.length ≤ s.maxPayload) (x : UInt64) :
    (s.store seq payload).2.contains x = true ↔
      x = seq ∨ (maskIndex s.cap x ≠ maskIndex s.cap seq ∧ s.contains x = true) := by
  unfold RetransmitStore.store contains
  rw [if_neg (Nat.not_lt.mpr hp)]
  simp only
  by_cases hidx : maskIndex s.cap x = maskIndex s.cap seq
  · rw [SlotRing.has_iff, hidx, SlotRing.write_slots_self]
    constructor
    · exact fun h => Or.inl h.2.symm
    · rintro (rfl | ⟨hne, -⟩)
      · exact ⟨rfl, rfl⟩
      · exact absurd rfl hne
  · rw [SlotRing.has_write_ne hidx]
    have hne : x ≠ seq := by
      rintro rfl
      exact hidx rfl
    simp [hidx, hne]

/-- Storing a list changes no shape either. -/
theorem storeAll_sizes (msgs : List (UInt64 × List UInt8)) : ∀ s : RetransmitStore,
    (s.storeAll msgs).cap = s.cap ∧ (s.storeAll msgs).maxPayload = s.maxPayload := by
  induction msgs with
  | nil => exact fun _ => ⟨rfl, rfl⟩
  | cons m msgs ih =>
    intro s
    obtain ⟨hcap, hmax⟩ := exec_sizes s (.store m.1 m.2)
    obtain ⟨hcap', hmax'⟩ := ih (s.exec (.store m.1 m.2))
    exact ⟨hcap'.trans hcap, hmax'.trans hmax⟩

/-- **A run of consecutive messages** leaves the last of them that fill the ring, whatever was
there before. -/
theorem contains_storeAll {k : ℕ} (hcap : s.cap = 2 ^ k) (first : UInt64)
    (msgs : List (List UInt8)) (hwrap : first.toNat + msgs.length ≤ 2 ^ 64)
    (hfits : ∀ m ∈ msgs, m.length ≤ s.maxPayload) {i : ℕ} (hi : i < msgs.length) :
    (s.storeAll (numbered first msgs)).contains (first + UInt64.ofNat i) = true ↔
      msgs.length ≤ i + s.cap := by
  have hpos : 0 < s.cap := hcap ▸ Nat.two_pow_pos k
  -- by the last message: it takes the slot of the message a whole lap before it
  induction msgs using List.reverseRecOn with
  | nil => exact absurd hi (Nat.not_lt_zero i)
  | append_singleton msgs m ih =>
    rw [List.length_append, List.length_singleton] at hwrap hi ⊢
    obtain ⟨hsize, hmax⟩ := storeAll_sizes (numbered first msgs) s
    have hlast : s.storeAll (numbered first (msgs ++ [m])) =
        ((s.storeAll (numbered first msgs)).store (first + UInt64.ofNat msgs.length) m).2 := by
      unfold numbered storeAll
      rw [List.mapIdx_concat, List.foldl_concat]
    have hm : m.length ≤ (s.storeAll (numbered first msgs)).maxPayload := by
      rw [hmax]
      exact hfits m (by simp)
    have hat (j : ℕ) (hj : j ≤ msgs.length) :
        (first + UInt64.ofNat j).toNat = first.toNat + j := toNat_add_ofNat (by omega)
    have hidx (j : ℕ) (hj : j ≤ msgs.length) :
        maskIndex s.cap (first + UInt64.ofNat j) = (first.toNat + j) % s.cap := by
      rw [maskIndex_eq_mod hcap, hat j hj]
    rw [hlast, contains_store hm, hsize, hidx i (by omega), hidx _ (Nat.le_refl _)]
    rcases Nat.lt_or_ge i msgs.length with hlt | hge
    · have hne : first + UInt64.ofNat i ≠ first + UInt64.ofNat msgs.length := by
        intro heq
        have := congrArg UInt64.toNat heq
        rw [hat i (by omega), hat _ (Nat.le_refl _)] at this
        omega
      have hbefore := ih (by omega) (fun x hx => hfits x (List.mem_append_left _ hx)) hlt
      refine Iff.trans (or_congr_right (and_congr_right fun _ => hbefore)) ?_
      constructor
      · rintro (heq | ⟨hslot, hle⟩)
        · exact absurd heq hne
        · -- a whole lap ahead would have been the same slot
          refine Nat.lt_of_le_of_ne hle fun heq => hslot ?_
          rw [heq, ← Nat.add_assoc, Nat.add_mod_right]
      · intro hle
        refine Or.inr ⟨fun hslot => ?_, by omega⟩
        have hsame := @mod_inj_of_window (first.toNat + i) s.cap _ _ (Nat.le_refl _)
          (by omega) (by omega) (by omega) hslot
        omega
    · have heq : i = msgs.length := by omega
      rw [heq]
      exact iff_of_true (Or.inl rfl) (by omega)

/-! ## The law -/

/-- What a store should do after the calls its history `l` records: a fetch returns the last message
stored into the slot, if that was this sequence; a refused store changes nothing; `contains` says
whether a fetch succeeds; and of a run of consecutive messages the last that fill the ring can be
fetched. -/
structure Lawful (s : RetransmitStore) (l : Latest) (out : ℕ) : Prop where
  /-- What comes back is what was last stored into the slot, whole, and only under its own number.
  -/
  fetch : ∀ seq p, s.fetch seq out = some p ↔ l (maskIndex s.cap seq) = some (seq, p)
  /-- A message that does not fit leaves the store as it was. -/
  refused : ∀ seq p, (s.store seq p).1 = false → (s.store seq p).2 = s
  /-- The question has the same answer as the attempt. -/
  contains : ∀ seq, s.contains seq = true ↔ ∃ p, s.fetch seq out = some p
  /-- And of a run the ring keeps as many as it can. -/
  consecutive : ∀ (first : UInt64) (msgs : List (List UInt8)),
    first.toNat + msgs.length ≤ 2 ^ 64 → (∀ m ∈ msgs, m.length ≤ s.maxPayload) →
    ∀ i < msgs.length,
      (∃ p, (s.storeAll (numbered first msgs)).fetch (first + UInt64.ofNat i) out = some p) ↔
        msgs.length ≤ i + s.cap

/-- After a list of messages there is again a history that the slots agree with. -/
theorem agrees_storeAll (h : Agrees s l) : ∀ msgs : List (UInt64 × List UInt8),
    ∃ l', Agrees (s.storeAll msgs) l' := by
  intro msgs
  induction msgs generalizing s l with
  | nil => exact ⟨l, h⟩
  | cons m msgs ih => exact ih (agrees_exec h (.store m.1 m.2))

/-- In a store that agrees with its history the law holds exactly if no slot's message is too long.
-/
theorem lawful_iff (h : Agrees s l) {k : ℕ} (hcap : s.cap = 2 ^ k) (hout : s.maxPayload ≤ out) :
    Lawful s l out ↔
      ∀ seq payload, l (maskIndex s.cap seq) = some (seq, payload) → payload.length < 2 ^ 32 := by
  constructor
  -- a message too long for the length field comes back shorter than it is
  · intro hlaw seq payload hl
    obtain ⟨payload', hl', heq⟩ := (fetch_iff h hout).mp ((hlaw.fetch seq payload).mpr hl)
    rw [hl, Option.some.injEq, Prod.mk.injEq] at hl'
    have hlen := congrArg List.length heq
    rw [← hl'.2, List.length_take] at hlen
    have hlt := Nat.mod_lt payload.length (Nat.two_pow_pos 32)
    omega
  · intro hshort
    refine ⟨fun seq p => ?_, fun seq p hno => ?_, fun seq => fetch_iff_contains h hout,
      fun first msgs hwrap hfits i hi => ?_⟩
    · rw [fetch_iff h hout]
      constructor
      · rintro ⟨payload, hl, rfl⟩
        rw [Nat.mod_eq_of_lt (hshort seq payload hl), List.take_length]
        exact hl
      · intro hl
        exact ⟨p, hl, by rw [Nat.mod_eq_of_lt (hshort seq p hl), List.take_length]⟩
    · unfold RetransmitStore.store at hno ⊢
      split
      · rfl
      · rename_i hfit
        rw [if_neg hfit] at hno
        cases hno
    · obtain ⟨l', h'⟩ := agrees_storeAll h (numbered first msgs)
      have hsizes := storeAll_sizes (numbered first msgs) s
      rw [← contains_storeAll hcap first msgs hwrap hfits hi,
        fetch_iff_contains h' (hsizes.2 ▸ hout)]

/-- **The store answers with the right message** after any calls, into a buffer as wide as a slot,
exactly when no slot was last written with a message of `2 ^ 32` bytes or more. -/
theorem lawful_run_iff (capacity maxPayload : ℕ) (calls : List StoreCall) (out : ℕ)
    (hout : (make capacity maxPayload).maxPayload ≤ out) :
    let s := (make capacity maxPayload).run calls
    let l := latest (make capacity maxPayload).cap (make capacity maxPayload).maxPayload calls
    Lawful s l out ↔
      ∀ seq payload, l (maskIndex s.cap seq) = some (seq, payload) → payload.length < 2 ^ 32 := by
  intro s l
  obtain ⟨h, hcap, hmax⟩ := agrees_run calls (agrees_make capacity maxPayload)
  obtain ⟨k, hk⟩ := roundUpPow2_pow capacity
  exact lawful_iff h (hcap.trans hk) (hmax.symm ▸ hout)

/-- A message of `2 ^ 32` bytes is fetched as an empty one. -/
theorem not_lawful_of_length {payload : List UInt8} (hlen : payload.length = 2 ^ 32) :
    ¬ Lawful ((make 1 (2 ^ 32)).run [.store 5 payload])
      (latest (make 1 (2 ^ 32)).cap (make 1 (2 ^ 32)).maxPayload [.store 5 payload]) (2 ^ 32) := by
  intro hlaw
  obtain ⟨h, hcap, hmax⟩ := agrees_run [.store 5 payload] (agrees_make 1 (2 ^ 32))
  obtain ⟨k, hk⟩ := roundUpPow2_pow 1
  have hwidth : (make 1 (2 ^ 32)).maxPayload = 2 ^ 32 := rfl
  have hlast : latest (make 1 (2 ^ 32)).cap (make 1 (2 ^ 32)).maxPayload [.store 5 payload]
      (maskIndex ((make 1 (2 ^ 32)).run [.store 5 payload]).cap 5) = some (5, payload) := by
    rw [hcap, hwidth]
    unfold latest
    rw [List.foldl_cons, List.foldl_nil, record, if_neg (by omega), Function.update_self]
  have hshort := (lawful_iff h (hcap.trans hk) (by rw [hmax, hwidth])).mp hlaw 5 payload hlast
  omega

/-- Such a message, of zeros. -/
theorem not_lawful_fourGiB :
    ¬ Lawful ((make 1 (2 ^ 32)).run [.store 5 (List.replicate (2 ^ 32) 0)])
      (latest (make 1 (2 ^ 32)).cap (make 1 (2 ^ 32)).maxPayload
        [.store 5 (List.replicate (2 ^ 32) 0)]) (2 ^ 32) :=
  not_lawful_of_length List.length_replicate

/-- A slot written twice, the second time with less. -/
theorem lawful_run_iff_overwritten :
    let calls : List StoreCall := [.store 1 [0x11, 0x22, 0x33], .store 5 [0x55], .store 2 [0x66]]
    Lawful ((make 4 8).run calls) (latest 4 8 calls) 8 ↔
      ∀ seq payload, latest 4 8 calls (maskIndex ((make 4 8).run calls).cap seq)
        = some (seq, payload) → payload.length < 2 ^ 32 :=
  lawful_run_iff 4 8 _ 8 (by decide)

end RetransmitStore
end Tickerplant
