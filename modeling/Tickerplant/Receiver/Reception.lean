import Tickerplant.Receiver.Strategies

/-!
# What a strategy hands out

`Took` says of a socket, before and after, which datagrams were taken off it. A strategy hands out
these and no others, in that order (`Strategy.receive_gave`).

It hands them out as places in its own bytes. A batch is written slot after slot, so each slot is
followed by writes the caller never sees; `fillSlots_spec` says that they leave it alone, and
`readOut_slots` that the caller then reads what the kernel wrote.

There is one lemma for each system call (`recvOne_spec`, `recvmmsg_spec`, `wait_spec`) and one for
each strategy, which puts its calls together. What the lemmas have in common is the shape of their
end: either the call failed and took nothing, or it took some datagrams and the bytes say so.
`Gave` is that shape, and says one thing more, which only a drain needs: a receive that comes back
with nothing has left nothing behind, as long as the world refuses no call.

The world goes on while a strategy runs: each system call lets in what has arrived before it. So
what is taken is compared with what the kernel held and what came in until the last call that was
made (`arrived`).
-/

set_option autoImplicit false

namespace Tickerplant

open Lib

/-! ## What is taken off a socket -/

namespace UdpSocket

/-- What comes in from now until `n` system calls have been made. -/
def arrived (s : UdpSocket) (n : ℕ) : List Datagram :=
  (List.range' s.calls (n - s.calls)).flatMap fun i => (s.world i).arrivals

/-- **What was taken** between two states of a socket: what the kernel held and what came in is
what was taken, in that order, and what it still holds. -/
structure Took (got : List Datagram) (s s' : UdpSocket) : Prop where
  /-- The world is what it was; only its clock has moved on. -/
  world : s'.world = s.world
  timestamping : s'.timestamping = s.timestamping
  offset : s'.offset = s.offset
  /-- System calls were made, or none. -/
  calls : s.calls ≤ s'.calls
  /-- Nothing is lost, made up, or taken out of turn. -/
  queue : s.queue ++ s.arrived s'.calls = got ++ s'.queue

variable {s s' s'' : UdpSocket} {got got' : List Datagram}

/-- Nothing comes in between two system calls. -/
theorem arrived_self (s : UdpSocket) : s.arrived s.calls = [] := by
  rw [arrived, Nat.sub_self]
  rfl

/-- Taking nothing. -/
theorem Took.refl (s : UdpSocket) : Took [] s s :=
  ⟨rfl, rfl, rfl, Nat.le_refl _, by rw [arrived_self, List.append_nil, List.nil_append]⟩

/-- A datagram has the stamp it had. -/
theorem Took.stamp (h : Took got s s') : s'.stamp = s.stamp := by
  funext d
  rw [UdpSocket.stamp, UdpSocket.stamp, h.timestamping, h.offset]

/-- And reads as it did. -/
theorem Took.reading (h : Took got s s') : s'.reading = s.reading := by
  funext n d
  rw [UdpSocket.reading, UdpSocket.reading, h.stamp]

/-- What comes in does so before the last call or after it. -/
theorem Took.arrived (h : Took got s s') {n : ℕ} (hn : s'.calls ≤ n) :
    s.arrived n = s.arrived s'.calls ++ s'.arrived n := by
  have hcalls := h.calls
  have hsplit : List.range' s.calls (n - s.calls) =
      List.range' s.calls (s'.calls - s.calls) ++ List.range' s'.calls (n - s'.calls) := by
    have happ := @List.range'_append_1 s.calls (s'.calls - s.calls) (n - s'.calls)
    rw [Nat.add_sub_cancel' hcalls] at happ
    rw [happ]
    congr 1
    omega
  rw [UdpSocket.arrived, hsplit, List.flatMap_append]
  exact congrArg _ (by rw [UdpSocket.arrived, h.world])

/-- One after the other. -/
theorem Took.trans (h : Took got s s') (h' : Took got' s' s'') : Took (got ++ got') s s'' where
  world := h'.world.trans h.world
  timestamping := h'.timestamping.trans h.timestamping
  offset := h'.offset.trans h.offset
  calls := Nat.le_trans h.calls h'.calls
  queue := by
    rw [h.arrived h'.calls, ← List.append_assoc, h.queue, List.append_assoc, h'.queue,
      List.append_assoc]

/-- A system call that takes nothing lets something in. -/
theorem took_enter (s : UdpSocket) : Took [] s s.enter where
  world := rfl
  timestamping := rfl
  offset := rfl
  calls := Nat.le_succ _
  queue := by
    have hone : s.calls + 1 - s.calls = 1 := by omega
    rw [UdpSocket.arrived, enter, hone]
    simp

/-- The kernel gives out what is at the front. -/
theorem took_front (got : List Datagram) {rest : List Datagram} (h : s.queue = got ++ rest) :
    Took got s { s with queue := rest } where
  world := rfl
  timestamping := rfl
  offset := rfl
  calls := Nat.le_refl _
  queue := by rw [arrived_self, List.append_nil, h]

/-! ## What the kernel writes -/

/-- **`recv_one`** fails and takes nothing, or takes the datagram at the front, cut to the buffer.
-/
theorem recvOne_spec (s : UdpSocket) (buf : List UInt8) :
    ∃ r got, s.recvOne buf = .ok r ∧ r.buf.length = buf.length ∧ Took got s r.sock ∧
      ((∃ e, r.result = .error e ∧ got = [] ∧
          ((s.world s.calls).refusal = none → notReady e = true ∧ r.sock.queue = [])) ∨
        ∃ d, got = [d] ∧
          r.result = .ok ((s.reading buf.length d).1.length, (s.reading buf.length d).2) ∧
          r.buf.take (s.reading buf.length d).1.length = (s.reading buf.length d).1) := by
  unfold recvOne
  cases href : (s.world s.calls).refusal with
  | some e =>
    exact ⟨_, [], rfl, rfl, took_enter s, .inl ⟨e, rfl, rfl, fun h => absurd h (by simp)⟩⟩
  | none =>
    cases hqueue : s.enter.queue with
    | nil => exact ⟨_, [], rfl, rfl, took_enter s, .inl ⟨EAGAIN, rfl, rfl, fun _ => ⟨rfl, hqueue⟩⟩⟩
    | cons d rest =>
      have hfits : 0 + (d.bytes.take buf.length).length ≤ buf.length := by
        rw [Nat.zero_add, List.length_take]
        exact Nat.min_le_left _ _
      obtain ⟨buf', hstore, hlen, htake, -⟩ := store_spec buf 0 (d.bytes.take buf.length) hfits
      simp only [hstore, bind, Except.bind, pure, Except.pure]
      refine ⟨_, [d], rfl, hlen, ?_, .inr ⟨d, rfl, rfl, ?_⟩⟩
      · exact (took_enter s).trans (took_front [d] hqueue)
      · rw [Nat.zero_add, List.take_zero, List.nil_append] at htake
        exact htake

/-- A store leaves the bytes before it and after it. -/
theorem slice_of_before {storage storage' bytes : List UInt8} {off n : ℕ}
    (htake : storage'.take off = storage.take off) (hlen : storage'.length = storage.length)
    {start : ℕ} (hstart : start + n ≤ off) (h : slice storage start n = .ok bytes) :
    slice storage' start n = .ok bytes := by
  unfold slice at h ⊢
  rw [hlen]
  split at h
  · rename_i hin
    rw [if_pos hin, ← h]
    congr 1
    have hcut : ∀ l : List UInt8, (l.drop start).take n = ((l.take off).drop start).take n := by
      intro l
      rw [List.drop_take, List.take_take, Nat.min_eq_left (by omega)]
    rw [hcut storage', hcut storage, htake]
  · exact absurd h (by simp)

/-- **The slots are filled** from the `i`th on: what lies before them stays, and each can be read
back, since the ones after it start where it has ended. -/
theorem fillSlots_spec (buflen : ℕ) (ds : List Datagram) :
    ∀ (i : ℕ) (storage : List UInt8), (i + ds.length) * buflen ≤ storage.length →
      ∃ storage', fillSlots buflen i ds storage = .ok storage' ∧
        storage'.length = storage.length ∧
        storage'.take (i * buflen) = storage.take (i * buflen) ∧
        ∀ k d, ds[k]? = some d →
          slice storage' ((i + k) * buflen) (d.bytes.take buflen).length =
            .ok (d.bytes.take buflen) := by
  induction ds with
  | nil => exact fun i storage _ => ⟨storage, rfl, rfl, rfl, fun k d hk => absurd hk (by simp)⟩
  | cons d ds ih =>
    intro i storage hroom
    rw [List.length_cons, Nat.add_mul, Nat.add_mul] at hroom
    have hcut : (d.bytes.take buflen).length ≤ buflen := by
      rw [List.length_take]
      exact Nat.min_le_left _ _
    obtain ⟨storage₁, hstore, hlen₁, htake₁, -⟩ :=
      store_spec storage (i * buflen) (d.bytes.take buflen) (by omega)
    have hroom₁ : (i + 1 + ds.length) * buflen ≤ storage₁.length := by
      rw [hlen₁, Nat.add_mul, Nat.add_mul]
      omega
    -- the slots after this one leave everything before them as it is
    obtain ⟨storage', hfill, hlen, htake, hslots⟩ := ih (i + 1) storage₁ hroom₁
    have hnext : (i + 1) * buflen = i * buflen + buflen := Nat.succ_mul i buflen
    refine ⟨storage', ?_, hlen.trans hlen₁, ?_, ?_⟩
    · rw [fillSlots, hstore]
      exact hfill
    · have hbefore : ∀ l : List UInt8, l.take (i * buflen) =
          (l.take ((i + 1) * buflen)).take (i * buflen) := by
        intro l
        rw [List.take_take, Nat.min_eq_left (by omega)]
      rw [hbefore storage', htake, ← hbefore]
      have hthere := congrArg (List.take (i * buflen)) htake₁
      rw [List.take_take, Nat.min_eq_left (by omega)] at hthere
      rw [hthere, List.take_append_of_le_length (by rw [List.length_take]; omega), List.take_take,
        Nat.min_self]
    -- this slot is read back as it was written, and the later ones by induction
    · intro k x hk
      cases k with
      | zero =>
        obtain rfl : d = x := by simpa using hk
        rw [Nat.add_zero]
        refine slice_of_before htake hlen (by omega) ?_
        rw [slice_eq (by omega)]
        congr 1
        have hread : ∀ l : List UInt8, (l.drop (i * buflen)).take (d.bytes.take buflen).length =
            (l.take (i * buflen + (d.bytes.take buflen).length)).drop (i * buflen) := by
          intro l
          rw [List.drop_take, Nat.add_sub_cancel_left]
        have hfront : (storage.take (i * buflen)).length = i * buflen := by
          rw [List.length_take]
          omega
        rw [hread, htake₁]
        conv => lhs; arg 1; rw [← hfront]
        rw [List.drop_left]
      | succ k =>
        have hthere := hslots k x (by simpa using hk)
        rwa [Nat.add_right_comm, Nat.add_assoc] at hthere

end UdpSocket

namespace UdpSocket

/-- **`recvmmsg`** fails and takes nothing, or takes at least one datagram and at most as many as
there are slots, each in its own. -/
theorem recvmmsg_spec (s : UdpSocket) {storage : List UInt8} (buflen : ℕ) {want : ℕ}
    (hwant : 1 ≤ want) (hroom : want * buflen ≤ storage.length) :
    ∃ r got, s.recvmmsg storage buflen want = .ok r ∧ r.buf.length = storage.length ∧
      Took got s r.sock ∧ got.length ≤ want ∧
      ((∃ e, r.result = .error e ∧ got = [] ∧
          ((s.world s.calls).refusal = none → notReady e = true ∧ r.sock.queue = [])) ∨
        got ≠ [] ∧
          r.result = .ok (got.map fun d =>
            ((s.reading buflen d).1.length, (s.reading buflen d).2)) ∧
          ∀ k d, got[k]? = some d →
            slice r.buf ((0 + k) * buflen) (s.reading buflen d).1.length =
              .ok (s.reading buflen d).1) := by
  unfold recvmmsg
  cases href : (s.world s.calls).refusal with
  | some e =>
    exact ⟨_, [], rfl, rfl, took_enter s, Nat.zero_le _,
      .inl ⟨e, rfl, rfl, fun h => absurd h (by simp)⟩⟩
  | none =>
    cases hqueue : s.enter.queue with
    | nil =>
      exact ⟨_, [], rfl, rfl, took_enter s, Nat.zero_le _,
        .inl ⟨EAGAIN, rfl, rfl, fun _ => ⟨rfl, hqueue⟩⟩⟩
    | cons d rest =>
      -- the kernel may stop early, but not before the first
      have hn : 1 ≤ min want ((s.world s.calls).extra + 1) := by omega
      have hle : min want ((s.world s.calls).extra + 1) ≤ want := Nat.min_le_left _ _
      generalize min want ((s.world s.calls).extra + 1) = n at hn hle ⊢
      have hlen : ((d :: rest).take n).length ≤ want := by
        rw [List.length_take]
        omega
      obtain ⟨storage', hfill, hkeep, -, hslots⟩ := fillSlots_spec buflen ((d :: rest).take n) 0
        storage (by rw [Nat.zero_add]; exact Nat.le_trans (Nat.mul_le_mul_right _ hlen) hroom)
      simp only [hfill, bind, Except.bind, pure, Except.pure]
      refine ⟨_, _, rfl, hkeep, (took_enter s).trans (took_front ((d :: rest).take n) ?_),
        hlen, .inr ⟨?_, rfl, hslots⟩⟩
      · rw [List.take_append_drop, hqueue]
      · cases n with
        | zero => omega
        | succ n => exact List.cons_ne_nil _ _

/-- **Waiting** takes nothing. Without a failure it says whether the kernel holds something. -/
theorem wait_spec (s : UdpSocket) :
    (∃ e, s.wait = .error e ∧ (s.world s.calls).refusal ≠ none) ∨
      (s.wait = .ok 0 ∧ s.enter.queue = []) ∨ s.wait = .ok 1 := by
  unfold wait
  cases href : (s.world s.calls).refusal with
  | some e => exact .inl ⟨e, rfl, Option.some_ne_none e⟩
  | none =>
    cases s.enter.queue with
    | nil => exact .inr (.inl ⟨rfl, rfl⟩)
    | cons d rest => exact .inr (.inr rfl)

end UdpSocket

/-! ## What a strategy hands out -/

/-- **Each slot** reads as the datagram it was filled with. -/
theorem readOut_slots {s : UdpSocket} {storage : List UInt8} {buflen : ℕ} (ds : List Datagram) :
    ∀ i, (∀ k d, ds[k]? = some d →
        slice storage ((i + k) * buflen) (s.reading buflen d).1.length =
          .ok (s.reading buflen d).1) →
      readOut storage (RecvmmsgStrategy.slots buflen i (ds.map fun d =>
        ((s.reading buflen d).1.length, (s.reading buflen d).2))) =
          .ok (ds.map (s.reading buflen)) := by
  induction ds with
  | nil => exact fun i _ => rfl
  | cons d ds ih =>
    intro i hslots
    have hfirst := hslots 0 d (by simp)
    have hrest := ih (i + 1) fun k x hk => by
      rw [Nat.add_right_comm, Nat.add_assoc]
      exact hslots (k + 1) x (by simpa using hk)
    rw [Nat.add_zero] at hfirst
    rw [List.map_cons, RecvmmsgStrategy.slots, readOut, hfirst, hrest]
    rfl

/-- A receive of at most `max` handed out these datagrams, and they can be read in the bytes the
strategy owns now. It is not idle while the kernel holds something, unless a system call fails. -/
structure Reception.Gave {σ : Type} (storage : List UInt8) (buflen : ℕ) (s : UdpSocket) (max : ℕ)
    (got : List Datagram) (r : Reception σ) : Prop where
  /-- The datagrams were at the front of the socket. -/
  took : UdpSocket.Took got s r.sock
  atMost : got.length ≤ max
  /-- The caller finds them where it is pointed. -/
  reads : readOut storage r.out = .ok (got.map (s.reading buflen))
  /-- The count is how many there are; an error is one less than none. -/
  count : r.count = got.length ∨ got = [] ∧ r.count = -1
  /-- An empty hand means an empty socket, unless a call failed. -/
  idle : (∀ i, (s.world i).refusal = none) → 1 ≤ max → got = [] → r.sock.queue = []

namespace Reception

variable {σ τ : Type} {storage : List UInt8} {buflen max : ℕ} {s s' : UdpSocket}
  {got : List Datagram} {r : Reception σ}

/-- It does not matter which strategy the bytes belong to. -/
theorem Gave.map (h : r.Gave storage buflen s max got) (f : σ → τ) :
    (r.map f).Gave storage buflen s max got :=
  ⟨h.took, h.atMost, h.reads, h.count, h.idle⟩

/-- `receive(out, 0)`. -/
theorem gave_nothing {strategy : σ} (h : max < 1) :
    Gave storage buflen s max [] { count := 0, strategy := strategy, sock := s } :=
  ⟨.refl s, Nat.zero_le _, rfl, .inl rfl, fun _ hmax => absurd hmax (by omega)⟩

/-- Something was done first that took nothing. -/
theorem Gave.after (h : r.Gave storage buflen s' max got) (ht : UdpSocket.Took [] s s') :
    r.Gave storage buflen s max got where
  took := ht.trans h.took
  atMost := h.atMost
  reads := by
    rw [h.reads, ht.reading]
  count := h.count
  idle := fun hcalm => h.idle (by rw [ht.world]; exact hcalm)

/-- A call that failed handed out nothing. -/
theorem gave_failed {strategy : σ} {e : Int} (ht : UdpSocket.Took [] s s')
    (hidle : (∀ i, (s.world i).refusal = none) → s'.queue = []) :
    (failed e strategy s').Gave storage buflen s max [] where
  took := ht
  atMost := Nat.zero_le _
  reads := rfl
  count := by
    unfold failed
    dsimp only
    split
    · exact .inl rfl
    · exact .inr ⟨rfl, rfl⟩
  idle := fun hcalm _ _ => hidle hcalm

/-- One datagram, at the front of the strategy's bytes. -/
theorem gave_single (strategy : σ) {d : Datagram} (hmax : ¬ max < 1)
    (ht : UdpSocket.Took [d] s s')
    (htake : storage.take (s.reading buflen d).1.length = (s.reading buflen d).1) :
    (single ((s.reading buflen d).1.length, (s.reading buflen d).2) strategy s').Gave
      storage buflen s max [d] where
  took := ht
  atMost := Nat.not_lt.mp hmax
  reads := by
    have hfits : 0 + (s.reading buflen d).1.length ≤ storage.length := by
      have hlen := congrArg List.length htake
      rw [List.length_take] at hlen
      omega
    rw [single, readOut, slice_eq hfits, List.drop_zero, htake]
    rfl
  count := .inl rfl
  idle := fun _ _ h => absurd h (List.cons_ne_nil _ _)

/-- An error of the call that waits. -/
theorem gave_waitError {strategy : σ} {e : Int} (href : (s.world s.calls).refusal ≠ none) :
    Gave storage buflen s max []
      { count := if e = UdpSocket.EINTR then 0 else -1
        strategy := strategy, sock := s.enter } where
  took := UdpSocket.took_enter s
  atMost := Nat.zero_le _
  reads := rfl
  count := by
    dsimp only
    split
    · exact .inl rfl
    · exact .inr ⟨rfl, rfl⟩
  idle := fun hcalm => absurd (hcalm s.calls) href

end Reception

/-- One read. -/
theorem BlockingRecvStrategy.receive_gave (r : BlockingRecvStrategy) (s : UdpSocket) (max : ℕ) :
    ∃ rec got, r.receive s max = .ok rec ∧ rec.strategy.buf.length = r.buf.length ∧
      rec.Gave rec.strategy.buf r.buf.length s max got := by
  unfold BlockingRecvStrategy.receive
  by_cases hmax : max < 1
  · rw [if_pos hmax]
    exact ⟨_, [], rfl, rfl, Reception.gave_nothing hmax⟩
  · rw [if_neg hmax]
    obtain ⟨one, got, hone, hlen, htook, hcases⟩ := s.recvOne_spec r.buf
    simp only [hone, bind, Except.bind, pure, Except.pure]
    rcases hcases with ⟨e, hres, rfl, hcalm⟩ | ⟨d, rfl, hres, htake⟩
    · rw [hres]
      exact ⟨_, [], rfl, hlen, Reception.gave_failed htook fun h => (hcalm (h _)).2⟩
    · rw [hres]
      exact ⟨_, [d], rfl, hlen, Reception.gave_single _ hmax htook htake⟩

namespace BusyPollStrategy

/-- One spin after the other takes nothing, until one takes something. -/
theorem spin_gave {max : ℕ} (hmax : ¬ max < 1) (budget : ℕ) :
    ∀ (r : BusyPollStrategy) (s : UdpSocket),
      ∃ rec got, r.spin s budget = .ok rec ∧ rec.strategy.buf.length = r.buf.length ∧
        rec.strategy.spinBudget = r.spinBudget ∧
        UdpSocket.Took got s rec.sock ∧ got.length ≤ max ∧
        readOut rec.strategy.buf rec.out = .ok (got.map (s.reading r.buf.length)) ∧
        (rec.count = got.length ∨ got = [] ∧ rec.count = -1) ∧
        ((∀ i, (s.world i).refusal = none) → got = [] → 1 ≤ budget → rec.sock.queue = []) := by
  induction budget with
  | zero =>
    exact fun r s => ⟨_, [], rfl, rfl, rfl, .refl s, Nat.zero_le _, rfl, .inl rfl,
      fun _ _ h => absurd h (by omega)⟩
  | succ budget ih =>
    intro r s
    obtain ⟨one, got, hone, hlen, htook, hcases⟩ := s.recvOne_spec r.buf
    rw [spin]
    simp only [hone, bind, Except.bind, pure, Except.pure]
    rcases hcases with ⟨e, hres, rfl, hcalm⟩ | ⟨d, rfl, hres, htake⟩
    · rw [hres]
      by_cases hready : UdpSocket.notReady e
      · simp only [hready, if_true]
        obtain ⟨rec, got, hspin, hlen', hbudget, htook', hle, hreads, hcount, hidle⟩ :=
          ih { r with buf := one.buf } one.sock
        refine ⟨rec, got, hspin, hlen'.trans hlen, hbudget, htook.trans htook', hle, ?_, hcount, ?_⟩
        · rw [hreads, htook.reading]
          exact congrArg _ (by rw [hlen])
        · intro hquiet hnone _
          -- the last spin saw what the first one did, but for what came in later
          cases budget with
          | zero =>
            obtain rfl : rec = _ := (Except.ok.inj hspin).symm
            exact (hcalm (hquiet _)).2
          | succ budget => exact hidle (by rw [htook.world]; exact hquiet) hnone (by omega)
      · simp only [hready, Bool.false_eq_true, if_false]
        exact ⟨_, [], rfl, hlen, rfl, htook, Nat.zero_le _, rfl, .inr ⟨rfl, rfl⟩,
          fun hquiet _ _ => (hcalm (hquiet _)).2⟩
    · rw [hres]
      have hgave := Reception.gave_single ({ r with buf := one.buf } : BusyPollStrategy) hmax htook
        htake
      exact ⟨_, [d], rfl, hlen, rfl, htook, hgave.atMost, hgave.reads, hgave.count,
        fun _ h => absurd h (List.cons_ne_nil _ _)⟩

/-- Up to `spin_budget` reads, and at least one. -/
theorem receive_gave {r : BusyPollStrategy} (hbudget : 1 ≤ r.spinBudget) (s : UdpSocket) (max : ℕ) :
    ∃ rec got, r.receive s max = .ok rec ∧ rec.strategy.buf.length = r.buf.length ∧
      rec.strategy.spinBudget = r.spinBudget ∧
      rec.Gave rec.strategy.buf r.buf.length s max got := by
  unfold receive
  by_cases hmax : max < 1
  · rw [if_pos hmax]
    exact ⟨_, [], rfl, rfl, rfl, Reception.gave_nothing hmax⟩
  · rw [if_neg hmax]
    obtain ⟨rec, got, hspin, hlen, hkeep, htook, hle, hreads, hcount, hidle⟩ :=
      spin_gave hmax r.spinBudget r s
    exact ⟨rec, got, hspin, hlen, hkeep, htook, hle, hreads, hcount,
      fun hcalm _ hnone => hidle hcalm hnone hbudget⟩

end BusyPollStrategy

namespace RecvmmsgStrategy

/-- There is a slot for each message of a batch. -/
structure Wf (r : RecvmmsgStrategy) : Prop where
  batch : 1 ≤ r.batch
  storage : r.storage.length = r.batch * r.buflen

/-- One `recvmmsg` into as many slots as are asked for and there. -/
theorem receive_gave {r : RecvmmsgStrategy} (h : r.Wf) (s : UdpSocket) (max : ℕ) :
    ∃ rec got, r.receive s max = .ok rec ∧ rec.strategy.Wf ∧ rec.strategy.buflen = r.buflen ∧
      rec.Gave rec.strategy.storage r.buflen s max got := by
  unfold receive
  by_cases hmax : max < 1
  · rw [if_pos hmax]
    exact ⟨_, [], rfl, h, rfl, Reception.gave_nothing hmax⟩
  · rw [if_neg hmax]
    have hbatch := h.batch
    have hwant : 1 ≤ (if max < r.batch then max else r.batch) ∧
        (if max < r.batch then max else r.batch) ≤ r.batch ∧
        (if max < r.batch then max else r.batch) ≤ max := by
      split <;> omega
    generalize (if max < r.batch then max else r.batch) = want at hwant ⊢
    obtain ⟨some, got, hsome, hlen, htook, hle, hcases⟩ := s.recvmmsg_spec r.buflen
      hwant.1 (by rw [h.storage]; exact Nat.mul_le_mul_right _ hwant.2.1)
    simp only [hsome, bind, Except.bind, pure, Except.pure]
    rcases hcases with ⟨e, hres, rfl, hcalm⟩ | ⟨hne, hres, hslots⟩
    · rw [hres]
      exact ⟨_, [], rfl, ⟨h.batch, hlen.trans h.storage⟩, rfl,
        Reception.gave_failed htook fun hquiet => (hcalm (hquiet _)).2⟩
    · rw [hres]
      refine ⟨_, got, rfl, ⟨h.batch, hlen.trans h.storage⟩, rfl, htook, by omega,
        readOut_slots got 0 hslots, .inl ?_, fun _ _ hnone => absurd hnone hne⟩
      rw [List.length_map]

end RecvmmsgStrategy

/-- A wait, and a batch if there is something. -/
theorem EpollRecvmmsgStrategy.receive_gave {r : EpollRecvmmsgStrategy} (h : r.inner.Wf)
    (s : UdpSocket) (max : ℕ) :
    ∃ rec got, r.receive s max = .ok rec ∧ rec.strategy.inner.Wf ∧
      rec.strategy.inner.buflen = r.inner.buflen ∧
      rec.Gave rec.strategy.inner.storage r.inner.buflen s max got := by
  unfold EpollRecvmmsgStrategy.receive
  by_cases hmax : max < 1
  · rw [if_pos hmax]
    exact ⟨_, [], rfl, h, rfl, Reception.gave_nothing hmax⟩
  · rw [if_neg hmax]
    rcases s.wait_spec with ⟨e, hwait, href⟩ | ⟨hwait, hempty⟩ | hwait
    · rw [hwait]
      exact ⟨_, [], rfl, h, rfl, Reception.gave_waitError href⟩
    · rw [hwait]
      exact ⟨_, [], rfl, h, rfl, UdpSocket.took_enter s, Nat.zero_le _, rfl, .inl rfl,
        fun _ _ _ => hempty⟩
    · rw [hwait]
      obtain ⟨rec, got, hrec, hwf, hlen, hgave⟩ :=
        RecvmmsgStrategy.receive_gave h s.enter max
      refine ⟨rec.map EpollRecvmmsgStrategy.mk, got, ?_, hwf, hlen,
        (hgave.after (UdpSocket.took_enter s)).map _⟩
      simp only [hrec, bind, Except.bind, pure, Except.pure]

/-- A wait, and one read if there is something. -/
theorem KqueueStrategy.receive_gave (r : KqueueStrategy) (s : UdpSocket) (max : ℕ) :
    ∃ rec got, r.receive s max = .ok rec ∧ rec.strategy.buf.length = r.buf.length ∧
      rec.Gave rec.strategy.buf r.buf.length s max got := by
  unfold KqueueStrategy.receive
  by_cases hmax : max < 1
  · rw [if_pos hmax]
    exact ⟨_, [], rfl, rfl, Reception.gave_nothing hmax⟩
  · rw [if_neg hmax]
    rcases s.wait_spec with ⟨e, hwait, href⟩ | ⟨hwait, hempty⟩ | hwait
    · rw [hwait]
      exact ⟨_, [], rfl, rfl, Reception.gave_waitError href⟩
    · rw [hwait]
      exact ⟨_, [], rfl, rfl, UdpSocket.took_enter s, Nat.zero_le _, rfl, .inl rfl,
        fun _ _ _ => hempty⟩
    · rw [hwait]
      obtain ⟨one, got, hone, hlen, htook, hcases⟩ := s.enter.recvOne_spec r.buf
      simp only [hone, bind, Except.bind, pure, Except.pure]
      rcases hcases with ⟨e, hres, rfl, hcalm⟩ | ⟨d, rfl, hres, htake⟩
      · rw [hres]
        exact ⟨_, [], rfl, hlen, (Reception.gave_failed htook fun h => (hcalm (h _)).2).after
          (UdpSocket.took_enter s)⟩
      · rw [hres]
        exact ⟨_, [d], rfl, hlen, (Reception.gave_single _ hmax htook htake).after
          (UdpSocket.took_enter s)⟩

namespace Strategy

/-- A strategy that was built with room for what it asks for. -/
def Wf : Strategy → Prop
  | busyPoll r => 1 ≤ r.spinBudget
  | recvmmsg r => r.Wf
  | epollRecvmmsg r => r.inner.Wf
  | _ => True

/-- **Every strategy** hands out what it takes off the socket, in order and whole as far as its
room goes, with the stamps it came under. -/
theorem receive_gave {r : Strategy} (h : r.Wf) (s : UdpSocket) (max : ℕ) :
    ∃ rec got, r.receive s max = .ok rec ∧ rec.strategy.Wf ∧ rec.strategy.buflen = r.buflen ∧
      rec.Gave rec.strategy.storage r.buflen s max got := by
  cases r with
  | blockingRecv r =>
    obtain ⟨rec, got, hrec, hlen, hgave⟩ := r.receive_gave s max
    exact ⟨rec.map blockingRecv, got, by rw [receive, hrec]; rfl, trivial, hlen,
      hgave.map blockingRecv⟩
  | busyPoll r =>
    obtain ⟨rec, got, hrec, hlen, hbudget, hgave⟩ := BusyPollStrategy.receive_gave h s max
    have hwf : 1 ≤ rec.strategy.spinBudget := hbudget ▸ h
    exact ⟨rec.map busyPoll, got, by rw [receive, hrec]; rfl, hwf, hlen, hgave.map busyPoll⟩
  | recvmmsg r =>
    obtain ⟨rec, got, hrec, hwf, hlen, hgave⟩ := RecvmmsgStrategy.receive_gave h s max
    exact ⟨rec.map recvmmsg, got, by rw [receive, hrec]; rfl, hwf, hlen, hgave.map recvmmsg⟩
  | epollRecvmmsg r =>
    obtain ⟨rec, got, hrec, hwf, hlen, hgave⟩ := EpollRecvmmsgStrategy.receive_gave h s max
    exact ⟨rec.map epollRecvmmsg, got, by rw [receive, hrec]; rfl, hwf, hlen,
      hgave.map epollRecvmmsg⟩
  | kqueue r =>
    obtain ⟨rec, got, hrec, hlen, hgave⟩ := r.receive_gave s max
    exact ⟨rec.map kqueue, got, by rw [receive, hrec]; rfl, trivial, hlen, hgave.map kqueue⟩

end Strategy

end Tickerplant
