/-
  The verdict on a stream of hellos.

  The master reads a hello in pieces, as `recv` returns them, and keeps an offset of one byte in
  between.  `verdict` is the reading of a stream as a whole: the numbers in its blocks of twelve
  bytes, up to the first byte that differs from the text.  On a slot whose offset starts at 0 the
  master comes to this verdict in whatever pieces the stream arrives (`verdict_of_pieces`); and the
  stream of a worker has no such byte.
-/
import Rustica.Batch
import Rustica.Handoff
import Rustica.Hello

namespace Rustica

open Exec

/-! ## The verdict on a whole stream -/

/-- The byte at `i` belongs to the text of a hello and differs from it. -/
def Differs (bs : List UInt8) (i : ℕ) : Bool :=
  i % helloLen < 8 && bs[i]? ≠ backendHello[i % helloLen]?

/-- The first byte that differs from the text. -/
def mismatch (bs : List UInt8) : Option ℕ := (List.range bs.length).find? (Differs bs)

/-- The four bytes after the text of block `i`. -/
def idAt (bs : List UInt8) (i : ℕ) : List UInt8 := (bs.drop (helloLen * i + 8)).take 4

/-- The numbers of the complete blocks before the first wrong byte, and where that is. -/
def verdict (bs : List UInt8) : List (List UInt8) × Option ℕ :=
  ((List.range ((mismatch bs).getD bs.length / helloLen)).map (idAt bs), mismatch bs)

variable {bs ext buf : List UInt8} {i j n r : ℕ}

theorem mismatch_eq_none : mismatch bs = none ↔
    ∀ i < bs.length, i % helloLen < 8 → bs[i]? = backendHello[i % helloLen]? := by
  simp [mismatch, Differs]

theorem mismatch_eq_some : mismatch bs = some i ↔ i < bs.length ∧ Differs bs i = true ∧
    ∀ j < i, Differs bs j = false := by
  rw [mismatch, List.find?_range_eq_some]
  constructor
  · rintro ⟨h1, h2, h3⟩
    exact ⟨List.mem_range.1 h2, h1, fun j hj => by simpa using h3 j hj⟩
  · rintro ⟨h1, h2, h3⟩
    exact ⟨h2, List.mem_range.2 h1, fun j hj => by simpa using h3 j hj⟩

theorem differs_append (hi : i < bs.length) : Differs (bs ++ ext) i = Differs bs i := by
  rw [Differs, List.getElem?_append_left hi]; rfl

/-- What follows the first wrong byte does not matter. -/
theorem mismatch_append (h : mismatch bs = some i) : mismatch (bs ++ ext) = some i := by
  obtain ⟨h1, h2, h3⟩ := mismatch_eq_some.1 h
  refine mismatch_eq_some.2 ⟨?_, ?_, fun j hj => ?_⟩
  · rw [List.length_append]; omega
  · rw [differs_append h1]; exact h2
  · rw [differs_append (by omega)]; exact h3 j hj

theorem idAt_append (h : helloLen * (i + 1) ≤ bs.length) : idAt (bs ++ ext) i = idAt bs i := by
  simp only [helloLen] at h
  rw [idAt, List.drop_append_of_le_length (by simp only [helloLen]; omega),
    List.take_append_of_le_length (by simp only [List.length_drop, helloLen]; omega)]
  rfl

/-- **The verdict on a stream stands** once a byte of it is wrong. -/
theorem verdict_append (h : mismatch bs = some i) : verdict (bs ++ ext) = verdict bs := by
  have hi := (mismatch_eq_some.1 h).1
  simp only [verdict, h, mismatch_append h, Option.getD_some, Prod.mk.injEq, and_true]
  refine List.map_congr_left fun j hj => idAt_append ?_
  have := List.mem_range.1 hj
  simp only [helloLen] at this ⊢; omega

/-! ## One piece -/

/-- Where the comparison with the text fails, in the piece `buf` that is received at offset `ro`. -/
def badAt (ro : ℕ) (buf : List UInt8) : Option ℕ :=
  (List.range (min (8 - ro) buf.length)).find? fun j => backendHello[ro + j]? ≠ buf[j]?

/-- The number as stored after the piece. -/
def storedId (s : Socket) (buf : List UInt8) : ℕ → UInt8 :=
  copyBytes s.workerId (s.readOffset - 8) (buf.drop (8 - s.readOffset))

theorem badAt_eq_none : badAt r buf = none ↔
    ∀ j < min (8 - r) buf.length, backendHello[r + j]? = buf[j]? := by
  simp [badAt]

theorem badAt_eq_some : badAt r buf = some j ↔ j < min (8 - r) buf.length ∧
    backendHello[r + j]? ≠ buf[j]? ∧ ∀ i < j, backendHello[r + i]? = buf[i]? := by
  rw [badAt, List.find?_range_eq_some]
  constructor
  · rintro ⟨h1, h2, h3⟩
    exact ⟨List.mem_range.1 h2, by simpa using h1, fun i hi => by simpa using h3 i hi⟩
  · rintro ⟨h1, h2, h3⟩
    exact ⟨by simpa using h2, List.mem_range.2 h1, fun i hi => by simpa using h3 i hi⟩

/-- What a slot has read of the stream `bs` of its connection, all of it right so far: each byte of
    the number is the last that was received for it. -/
structure Aligned (bs : List UInt8) (s : Socket) : Prop where
  good : mismatch bs = none
  offset : s.readOffset = bs.length % helloLen
  number : ∀ j < 4, ∀ i < bs.length, i % helloLen = 8 + j → bs.length ≤ i + helloLen →
    bs[i]? = some (s.workerId j)

variable {s : Socket}

/-- A byte of the next piece, in the whole stream. -/
theorem differs_piece (ha : Aligned bs s) (hlen : buf.length ≤ helloLen - s.readOffset)
    (hj : j < buf.length) : Differs (bs ++ buf) (bs.length + j) =
      (decide (j < 8 - s.readOffset) && decide (backendHello[s.readOffset + j]? ≠ buf[j]?)) := by
  have hro := ha.offset
  simp only [helloLen] at hro hlen
  have hmod : (bs.length + j) % 12 = s.readOffset + j := by omega
  simp only [Differs, helloLen, hmod]
  rw [List.getElem?_append_right (by omega), Nat.add_sub_cancel_left]
  have hlt : s.readOffset + j < 8 ↔ j < 8 - s.readOffset := by omega
  simp only [hlt, ne_comm (a := buf[j]?)]

/-- **The first wrong byte, found by the comparison with the piece.** -/
theorem mismatch_piece (ha : Aligned bs s) (hlen : buf.length ≤ helloLen - s.readOffset) :
    mismatch (bs ++ buf) = (badAt s.readOffset buf).map (bs.length + ·) := by
  have hold : ∀ i < bs.length, Differs (bs ++ buf) i = false := by
    intro i hi
    have := mismatch_eq_none.1 ha.good i hi
    rw [differs_append hi]
    simpa [Differs] using this
  cases hb : badAt s.readOffset buf with
  | none =>
    refine List.find?_range_eq_none.2 fun i hi => ?_
    rw [List.length_append] at hi
    rcases Nat.lt_or_ge i bs.length with h | h
    · simp [hold i h]
    · obtain ⟨j, rfl⟩ := Nat.exists_eq_add_of_le h
      rw [differs_piece ha hlen (by omega)]
      have hj := badAt_eq_none.1 hb j
      by_cases hlt : j < 8 - s.readOffset
      · simp [hj (by omega)]
      · simp [hlt]
  | some j =>
    obtain ⟨h1, h2, h3⟩ := badAt_eq_some.1 hb
    change mismatch (bs ++ buf) = some (bs.length + j)
    refine mismatch_eq_some.2 ⟨by rw [List.length_append]; omega, ?_, fun i hi => ?_⟩
    · rw [differs_piece ha hlen (by omega)]
      simp only [Bool.and_eq_true, decide_eq_true_eq]
      exact ⟨by omega, h2⟩
    · rcases Nat.lt_or_ge i bs.length with h | h
      · exact hold i h
      · obtain ⟨i, rfl⟩ := Nat.exists_eq_add_of_le h
        rw [differs_piece ha hlen (by omega)]
        simp [h3 i (by omega)]

theorem copyBytes_of_lt {dst : ℕ → UInt8} {off : ℕ} {bytes : List UInt8} (hoff : off ≤ j)
    (hj : j - off < bytes.length) : copyBytes dst off bytes j = bytes[j - off] := by
  rw [copyBytes, if_pos hoff, List.getD_eq_getElem?_getD, List.getElem?_eq_getElem hj]; rfl

theorem copyBytes_of_ge {dst : ℕ → UInt8} {off : ℕ} {bytes : List UInt8}
    (hj : j < off ∨ off + bytes.length ≤ j) : copyBytes dst off bytes j = dst j := by
  unfold copyBytes
  split
  · rw [List.getD_eq_getElem?_getD, List.getElem?_eq_none (by omega)]; rfl
  · rfl

/-- **The piece is read**: the slot goes on where it ends. -/
theorem Aligned.piece (ha : Aligned bs s) (hlen : buf.length ≤ helloLen - s.readOffset)
    (hgood : badAt s.readOffset buf = none) : Aligned (bs ++ buf)
      { s with readOffset := (s.readOffset + buf.length) % helloLen, workerId := storedId s buf } := by
  have hro := ha.offset
  simp only [helloLen] at hro hlen
  refine ⟨by rw [mismatch_piece ha hlen, hgood]; rfl, ?_, fun j hj i hi hij hlast => ?_⟩
  · simp only [List.length_append, helloLen]; omega
  · simp only [List.length_append, helloLen] at hi hij hlast
    simp only [storedId]
    rcases Nat.lt_or_ge i bs.length with h | h
    · rw [List.getElem?_append_left h, ha.number j hj i h hij (by simp only [helloLen]; omega),
        copyBytes_of_ge (by rw [List.length_drop]; omega)]
    · obtain ⟨d, rfl⟩ := Nat.exists_eq_add_of_le h
      have hd : s.readOffset + d = 8 + j := by omega
      have hlt : j - (s.readOffset - 8) < (buf.drop (8 - s.readOffset)).length := by
        rw [List.length_drop]; omega
      rw [List.getElem?_append_right h, Nat.add_sub_cancel_left, copyBytes_of_lt (by omega) hlt,
        List.getElem_drop, List.getElem?_eq_getElem (by omega)]
      congr 2; omega

/-- The number after the last byte of a block. -/
theorem Aligned.number_eq (ha : Aligned bs s) (hlen : bs.length = helloLen * (n + 1)) :
    (List.range 4).map s.workerId = idAt bs n := by
  simp only [helloLen] at hlen
  refine List.ext_getElem? fun j => ?_
  by_cases hj : j < 4
  · have := ha.number j hj (12 * n + 8 + j) (by omega) (by simp only [helloLen]; omega)
      (by simp only [helloLen]; omega)
    rw [idAt, List.getElem?_take_of_lt hj, List.getElem?_drop, helloLen, this]
    simp [hj]
  · rw [List.getElem?_eq_none (by simp; omega), List.getElem?_eq_none]
    simp only [idAt, List.length_take]; omega

/-! ## What the master reads -/

variable {m m' : Master} {k : ℤ} {env : Env} {ev : WaitEvent} {b fd : Pgsocket} {events : Events}

/-- The state after a piece that does not differ from the text, with the offset `ro`. -/
def pieceState (m : Master) (k : ℤ) (buf : List UInt8) (ro : ℕ) : Master :=
  let s := m.sockets k
  (m.emit (.received s.fd buf)).setSocket k { s with readOffset := ro, workerId := storedId s buf }

/-- The bytes that `recv` returns when `on_backend` calls it. -/
def readOf (s : Socket) (env : Env) (events : Events) : Option (List UInt8) :=
  if events.closed = false ∧ events.readable = true ∧ s.readOffset < helloLen then
    env.recv.map fun bytes => bytes.take (helloLen - s.readOffset)
  else none

theorem readOf_eq_some : readOf s env events = some buf ↔ events.closed = false ∧
    events.readable = true ∧ s.readOffset < helloLen ∧
      ∃ bytes, env.recv = some bytes ∧ buf = bytes.take (helloLen - s.readOffset) := by
  unfold readOf
  split
  · rename_i h
    simp only [h, true_and, Option.map_eq_some_iff]
    exact exists_congr fun bytes => and_congr_right fun _ => eq_comm
  · rename_i h
    simp only [reduceCtorEq, false_iff]
    exact fun h' => h ⟨h'.1, h'.2.1, h'.2.2.1⟩

theorem readOf_length (h : readOf s env events = some buf) :
    s.readOffset < helloLen ∧ buf.length ≤ helloLen - s.readOffset := by
  obtain ⟨-, -, hro, bytes, -, rfl⟩ := readOf_eq_some.1 h
  exact ⟨hro, List.length_take_le _ _⟩

/-- **A piece is received**: it is compared with the text, and either is wrong, or completes the
    hello, or is stored. -/
theorem onBackend_reads (h : readOf (m.sockets k) env events = some buf) :
    onBackend m env k events = match badAt (m.sockets k).readOffset buf with
      | some _ => (m.emit (.received (m.sockets k).fd buf)).closeSocket k
      | none => if (m.sockets k).readOffset + buf.length = helloLen
          then onHello (pieceState m k buf (m.sockets k).readOffset) env k
          else pieceState m k buf ((m.sockets k).readOffset + buf.length) := by
  obtain ⟨hcl, hrd, hro, bytes, hrecv, hbuf⟩ := readOf_eq_some.1 h
  have hlen := (readOf_length h).2
  set s := m.sockets k with hs
  have hdef : onBackend m env k events =
      onReceived (m.emit (.received s.fd buf)) env k buf buf.length := by
    simp only [onBackend, hcl, hrd, hrecv, ← hs, Nat.not_le.2 hro, hbuf, if_true, if_false,
      Bool.false_eq_true]
  rw [hdef, onReceived]
  simp only [show (m.emit (.received s.fd buf)).sockets k = s from rfl]
  simp only [helloLen] at hro hlen
  have hi : (min (8 - (s.readOffset : ℤ)) (buf.length : ℤ)).toNat =
      min (8 - s.readOffset) buf.length := by omega
  rw [hi]
  cases hb : badAt s.readOffset buf with
  | some j =>
    obtain ⟨h1, h2, -⟩ := badAt_eq_some.1 hb
    refine if_neg fun hall => h2 ?_
    exact of_decide_eq_true (List.all_eq_true.1 hall j (List.mem_range.2 h1))
  | none =>
    have hall : (List.range (min (8 - s.readOffset) buf.length)).all (fun j =>
        decide (backendHello[s.readOffset + j]? = buf[j]?)) = true :=
      List.all_eq_true.2 fun j hj => decide_eq_true (badAt_eq_none.1 hb j (List.mem_range.1 hj))
    rw [if_pos hall]
    -- what is stored begins after the text
    have hdrop : buf.drop (min (8 - s.readOffset) buf.length) = buf.drop (8 - s.readOffset) := by
      rcases Nat.le_total (8 - s.readOffset) buf.length with h | h
      · rw [Nat.min_eq_left h]
      · rw [Nat.min_eq_right h, List.drop_length, List.drop_eq_nil_of_le h]
    have hmod : s.readOffset + buf.length < 12 →
        (((s.readOffset : ℤ) + buf.length) % 256).toNat = s.readOffset + buf.length := by omega
    have hstored : copyBytes s.workerId (s.readOffset - 8)
        (buf.drop (min (8 - s.readOffset) buf.length)) = storedId s buf := by rw [hdrop, storedId]
    rw [hstored]
    by_cases h12 : s.readOffset + buf.length = helloLen
    · simp only [helloLen] at h12
      have hpos : 0 < (buf.length : ℤ) - (min (8 - s.readOffset) buf.length : ℕ) := by omega
      have h12' : (s.readOffset : ℤ) + buf.length = (12 : ℕ) := by omega
      simp only [if_pos hpos, helloLen, h12, h12', if_true]
      rfl
    · have hlt : s.readOffset + buf.length < 12 := by simp only [helloLen] at h12; omega
      have h12' : ¬ (s.readOffset : ℤ) + buf.length = (helloLen : ℤ) := by
        simp only [helloLen]; omega
      rw [if_neg h12]
      split
      · rw [hmod hlt, setSocket_setSocket, Master.setSocket_self]
        rfl
      · -- nothing of the number is in the piece
        rename_i hpos
        have hnil : buf.drop (8 - s.readOffset) = [] := List.drop_eq_nil_of_le (by omega)
        have hsame : storedId s buf = s.workerId := by
          rw [storedId, hnil]
          funext j
          exact copyBytes_of_ge (by rw [List.length_nil]; omega)
        rw [hmod hlt, pieceState, ← hs, hsame]

/-! ## What is left alone -/

/-- Nothing is read from the connection `b`, and no slot is given to it. -/
structure Quiet (b : Pgsocket) (m m' : Master) : Prop where
  stream : m'.stream b = m.stream b
  hellos : m'.hellos b = m.hellos b
  live : ∀ k, Live m' k → (m'.sockets k).fd = b → Live m k ∧ m'.sockets k = m.sockets k

namespace Quiet

theorem same (hsock : m'.sockets = m.sockets) (htrace : m'.trace = m.trace)
    (htot : m'.totalSockets = m.totalSockets) : Quiet b m m' where
  stream := by rw [Master.stream, htrace]; rfl
  hellos := by rw [Master.hellos, htrace]; rfl
  live k hk _ := ⟨hk.of_eq htot.symm (by rw [hsock]), by rw [hsock]⟩

theorem refl (m : Master) : Quiet b m m := same rfl rfl rfl

theorem trans {m'' : Master} (h : Quiet b m m') (h' : Quiet b m' m'') : Quiet b m m'' where
  stream := h'.stream.trans h.stream
  hellos := h'.hellos.trans h.hellos
  live k hk hfd := by
    obtain ⟨h1, h2⟩ := h'.live k hk hfd
    obtain ⟨h3, h4⟩ := h.live k h1 (h2 ▸ hfd)
    exact ⟨h3, h2.trans h4⟩

theorem unread {a : Act} (ha : a.Unread) : Quiet b m (m.emit a) where
  stream := ha.stream
  hellos := ha.hellos
  live _ hk _ := ⟨hk.of_emit, rfl⟩

/-- A slot is stored to that does not hold `b`. -/
theorem setSocket {s : Socket} (hs : s.type = .backend → s.fd ≠ b) : Quiet b m (m.setSocket k s) where
  stream := rfl
  hellos := rfl
  live j hj hfd := by
    have hjk : j ≠ k := by
      rintro rfl
      have hty := hj.type
      rw [Master.setSocket_self] at hty hfd
      exact hs hty hfd
    have hsock := m.setSocket_of_ne s hjk
    exact ⟨hj.of_eq rfl (by rw [hsock]), hsock⟩

theorem clear {s : Socket} (hs : s.type = .unset) : Quiet b m (m.setSocket k s) :=
  setSocket fun h => by rw [hs] at h; cases h

/-- Bytes are received on another connection. -/
theorem received {bytes : List UInt8} (hb : fd ≠ b) : Quiet b m (m.emit (.received fd bytes)) where
  stream := stream_received.trans (if_neg hb)
  hellos := hellos_received
  live _ hk _ := ⟨hk.of_emit, rfl⟩

theorem closeSocket (m : Master) (k : ℤ) : Quiet b m (m.closeSocket k) :=
  have hclose : Quiet b m (m.emit (.close (m.sockets k).fd)) := unread trivial
  have hset : Quiet b (m.emit (.close (m.sockets k).fd)) { m.emit (.close (m.sockets k).fd) with
      rmWaitSet := deleteWaitEventEx m.rmWaitSet (m.sockets k).pos } := same rfl rfl rfl
  (hclose.trans hset).trans (clear rfl)

theorem blind : Blind (Quiet b) := ⟨same, trans, unread, closeSocket⟩

end Quiet

/-- An event that does not read leaves all connections alone. -/
theorem onBackend_quiet (h : readOf (m.sockets k) env events = none) :
    Quiet b m (onBackend m env k events) := by
  unfold onBackend
  split
  · exact .closeSocket m k
  rename_i hcl
  split
  swap
  · exact .refl m
  rename_i hrd
  dsimp only
  split
  · exact .same rfl rfl rfl
  rename_i hro
  simp only [readOf, hcl, hrd, Nat.not_le.1 hro, true_and, if_true, Option.map_eq_none_iff] at h
  rw [h]
  -- the socket is closed, and its offset becomes 255
  have hlast : Quiet b (m.closeSocket k) (onReceived (m.closeSocket k) env k [] (-1)) := by
    have hsock : (m.closeSocket k).sockets k = {} := m.closeSocket_self k
    simp only [onReceived, hsock]
    exact .clear rfl
  exact (Quiet.closeSocket m k).trans hlast

/-- An accept gives a slot to the new connection only. -/
theorem onBackendConnect_quiet (ht : Table m) (hb : b ≠ env.acceptIpc) :
    Quiet b m (onBackendConnect m env events) := by
  have hopen : Quiet b m ((m.emit (.acceptBackend env.acceptIpc)).openSocket .backend
      env.acceptIpc backendEvents) := by
    refine ⟨rfl, by simp [Master.hellos, Master.openSocket, Master.setSocket], fun k hk hfd => ?_⟩
    rw [openSocket_sockets] at hfd ⊢
    by_cases hkn : k = nextWaitEventPos (m.emit (.acceptBackend env.acceptIpc)).rmWaitSet
    · subst hkn
      rw [Function.update_self] at hfd
      exact absurd hfd.symm hb
    · have hty := hk.type
      rw [openSocket_sockets] at hty
      rw [Function.update_of_ne hkn] at hty ⊢
      exact ⟨⟨hk.range, hty⟩, rfl⟩
  exact onBackendConnect_rule (I := Quiet b m) events ht (.refl m) (fun _ _ _ => hopen)
    fun _ _ _ => hopen.trans (.unread trivial)

theorem helloRead_quiet (hb : (m.sockets k).fd ≠ b) : Quiet b m (helloRead m k) :=
  have hnote : Quiet b m (m.emit (.hello (m.sockets k).fd)) :=
    ⟨rfl, by simp [Master.hellos, hb], fun _ hk _ => ⟨hk.of_emit, rfl⟩⟩
  hnote.trans (.setSocket fun _ => hb)

/-! ## What the master makes of it -/

/-- The slot and the bytes that are read for the event. -/
def readsAt (m : Master) (env : Env) (ev : WaitEvent) : Option (Socket × List UInt8) :=
  let s := m.sockets ev.userData
  if (ev.events.latchSet && m.shutdownRequested) = false ∧ s.type = .backend then
    (readOf s env ev.events).map fun buf => (s, buf)
  else none

/-- The byte for which a bad hello of the connection `b` is reported, counted from the first byte
    received on `b`. -/
def badHello (b : Pgsocket) (m : Master) (env : Env) (ev : WaitEvent) : Option ℕ :=
  (readsAt m env ev).bind fun (s, buf) =>
    if s.fd = b then (badAt s.readOffset buf).map ((m.stream b).length + ·) else none

/-- The number in the slot of the connection `b` when the event completes a hello of it. -/
def helloId (b : Pgsocket) (m : Master) (env : Env) (ev : WaitEvent) : Option (List UInt8) :=
  (readsAt m env ev).bind fun (s, buf) =>
    if s.fd = b ∧ badAt s.readOffset buf = none ∧ s.readOffset + buf.length = helloLen then
      some ((List.range 4).map (storedId s buf))
    else none

/-- What the events of a history yield, the first one first. -/
def heard {α : Type} (f : Master → Env → WaitEvent → Option α) : List (Master × Label) → List α
  | [] => []
  | (m, .handle env) :: h => heard f h ++ (m.batch.head?.bind (f m env)).toList
  | _ :: h => heard f h

/-- Where the step accepts the connection `b`, the offset of the slot it is put in is 0. -/
def AcceptsClean (b : Pgsocket) (m : Master) : Label → Prop
  | .handle env => match m.batch with
    | ev :: evs => b ∉ m.backends → b ∈ (handleEvent { m with batch := evs } env ev).backends →
        (m.sockets (nextWaitEventPos m.rmWaitSet)).readOffset = 0
    | [] => True
  | _ => True

instance (b : Pgsocket) (m : Master) (l : Label) : Decidable (AcceptsClean b m l) := by
  unfold AcceptsClean
  split
  · split <;> infer_instance
  · infer_instance

/-- The connection `b` was accepted on a slot whose offset was 0. -/
def StartsClean (h : List (Master × Label)) (b : Pgsocket) : Prop := Meets (AcceptsClean b) h

/-- What the master has made of the stream of `b`: the numbers `ids` of the completed hellos, and the
    reports `bad` of bad ones. -/
structure Heard (b : Pgsocket) (m : Master) (ids : List (List UInt8)) (bad : List ℕ) : Prop where
  numbers : ids = (verdict (m.stream b)).1
  reports : bad = (verdict (m.stream b)).2.toList
  hellos : m.hellos b = ids.length
  live : ∀ k, Live m k → (m.sockets k).fd = b → Aligned (m.stream b) (m.sockets k)

variable {ids : List (List UInt8)} {bad : List ℕ}

theorem Heard.quiet (h : Heard b m ids bad) (hq : Quiet b m m') : Heard b m' ids bad where
  numbers := by rw [hq.stream]; exact h.numbers
  reports := by rw [hq.stream]; exact h.reports
  hellos := hq.hellos.trans h.hellos
  live k hk hfd := by
    obtain ⟨h1, h2⟩ := hq.live k hk hfd
    rw [hq.stream, h2]
    exact h.live k h1 (h2 ▸ hfd)

theorem Aligned.verdict (ha : Aligned bs s) :
    Rustica.verdict bs = ((List.range (bs.length / helloLen)).map (idAt bs), none) := by
  rw [Rustica.verdict, ha.good]; rfl

/-- **The verdict moves on with a piece.** -/
theorem Aligned.verdict_piece (ha : Aligned bs s) (hro : s.readOffset < helloLen)
    (hlen : buf.length ≤ helloLen - s.readOffset) : Rustica.verdict (bs ++ buf) =
      ((Rustica.verdict bs).1 ++ (if badAt s.readOffset buf = none ∧
        s.readOffset + buf.length = helloLen then [(List.range 4).map (storedId s buf)] else []),
      (badAt s.readOffset buf).map (bs.length + ·)) := by
  have hoff := ha.offset
  simp only [helloLen] at hoff hro hlen
  -- the blocks read so far are the same in the longer stream
  have hold : ∀ n, n = bs.length / 12 →
      (List.range n).map (idAt (bs ++ buf)) = (List.range n).map (idAt bs) := by
    rintro n rfl
    refine List.map_congr_left fun i hi => idAt_append ?_
    have := List.mem_range.1 hi
    simp only [helloLen]; omega
  rw [ha.verdict, Rustica.verdict, mismatch_piece ha hlen]
  cases hb : badAt s.readOffset buf with
  | some j =>
    have hj := (badAt_eq_some.1 hb).1
    have hdiv : (bs.length + j) / 12 = bs.length / 12 := by omega
    simp only [Option.map_some, Option.getD_some, helloLen, hdiv, hold _ rfl, reduceCtorEq,
      false_and, if_false, List.append_nil]
  | none =>
    have hp := ha.piece hlen hb
    simp only [Option.map_none, Option.getD_none, helloLen, List.length_append, true_and]
    by_cases h12 : s.readOffset + buf.length = 12
    · have hdiv : (bs.length + buf.length) / 12 = bs.length / 12 + 1 := by omega
      have hid := hp.number_eq (n := bs.length / 12)
        (by simp only [List.length_append, helloLen]; omega)
      rw [if_pos h12, hdiv, List.range_succ, List.map_append, hold _ rfl, List.map_singleton, ← hid]
    · have hdiv : (bs.length + buf.length) / 12 = bs.length / 12 := by omega
      rw [if_neg h12, hdiv, hold _ rfl, List.append_nil]

/-- The piece and what follows it, on the connection that it is received on. -/
theorem Heard.reads (h : Heard b m ids bad) (hn : Names m) (hk : Live m k)
    (hfd : (m.sockets k).fd = b) (hread : readOf (m.sockets k) env events = some buf) :
    Heard b (onBackend m env k events)
      (ids ++ (if badAt (m.sockets k).readOffset buf = none ∧
        (m.sockets k).readOffset + buf.length = helloLen
        then [(List.range 4).map (storedId (m.sockets k) buf)] else []))
      ((badAt (m.sockets k).readOffset buf).map ((m.stream b).length + ·)).toList := by
  have ha := h.live k hk hfd
  obtain ⟨hro, hlen⟩ := readOf_length hread
  have hpiece := ha.verdict_piece hro hlen
  -- no other slot holds the connection
  have hother : ∀ j, Live m j → (m.sockets j).fd = b → j = k := fun j hj hjfd =>
    hn.distinct hj hk (hjfd.trans hfd.symm)
  -- after the piece
  set m₁ := m.emit (.received (m.sockets k).fd buf) with hm₁
  have hstream : m₁.stream b = m.stream b ++ buf := by
    rw [hm₁, stream_received, if_pos hfd]
  have hhellos : m₁.hellos b = m.hellos b := hellos_received
  -- whatever becomes of slot `k`
  have hlive : ∀ {m' : Master} {s : Socket}, m'.totalSockets = m.totalSockets →
      m'.sockets = Function.update m.sockets k s → m'.stream b = m.stream b ++ buf →
      (s.type = .backend → Aligned (m.stream b ++ buf) s) →
      ∀ j, Live m' j → (m'.sockets j).fd = b → Aligned (m'.stream b) (m'.sockets j) := by
    intro m' s htot hsock hstr hs j hj hjfd
    have hty := hj.type
    rw [hsock] at hty hjfd ⊢
    rw [hstr]
    by_cases hjk : j = k
    · subst hjk
      rw [Function.update_self] at hty ⊢
      exact hs hty
    · rw [Function.update_of_ne hjk] at hty hjfd
      have hr : m.inRange j := by
        have := hj.range
        rwa [Master.inRange, htot] at this
      exact absurd (hother j ⟨hr, hty⟩ hjfd) hjk
  -- what there is to show of the state afterwards
  have hmk : ∀ m' : Master, m'.stream b = m.stream b ++ buf →
      m'.hellos b = m.hellos b + (if badAt (m.sockets k).readOffset buf = none ∧
        (m.sockets k).readOffset + buf.length = helloLen then 1 else 0) →
      (∀ j, Live m' j → (m'.sockets j).fd = b → Aligned (m'.stream b) (m'.sockets j)) →
      Heard b m' (ids ++ (if badAt (m.sockets k).readOffset buf = none ∧
        (m.sockets k).readOffset + buf.length = helloLen
        then [(List.range 4).map (storedId (m.sockets k) buf)] else []))
        ((badAt (m.sockets k).readOffset buf).map ((m.stream b).length + ·)).toList := by
    intro m' hstr hhel hlv
    refine ⟨by rw [hstr, hpiece, h.numbers], by rw [hstr, hpiece], ?_, hlv⟩
    rw [hhel, h.hellos, List.length_append]
    split <;> rfl
  have hrun := onBackend_reads hread
  cases hb : badAt (m.sockets k).readOffset buf with
  | some i =>
    simp only [hb] at hrun hmk
    rw [hrun]
    refine hmk _ hstream ?_ (hlive rfl rfl hstream fun hty => by cases hty)
    rw [if_neg (by simp)]
    exact (Quiet.closeSocket m₁ k).hellos.trans hhellos
  | none =>
    have hp := ha.piece hlen hb
    simp only [hb, true_and] at hrun hmk ⊢
    rw [hrun]
    by_cases h12 : (m.sockets k).readOffset + buf.length = helloLen
    · simp only [if_pos h12] at hmk ⊢
      set m₂ := pieceState m k buf (m.sockets k).readOffset with hm₂
      have hsock : m₂.sockets k = { m.sockets k with workerId := storedId (m.sockets k) buf } := by
        simp [hm₂, pieceState]
      have hread₂ : (helloRead m₂ k).sockets = Function.update m.sockets k
          { m.sockets k with readOffset := 0, workerId := storedId (m.sockets k) buf } := by
        simp only [helloRead, Master.setSocket, Master.emit, hm₂, pieceState]
        simp
      have hhellos₂ : (helloRead m₂ k).hellos b = m.hellos b + 1 := by
        have hfd₂ : (m₂.sockets k).fd = b := by rw [hsock]; exact hfd
        have hcons : (helloRead m₂ k).hellos b = m₂.hellos b + 1 := by
          rw [Master.hellos, helloRead, hfd₂]
          exact List.count_cons_self
        have hsame : m₂.hellos b = m₁.hellos b := rfl
        rw [hcons, hsame, hhellos]
      rw [h12, Nat.mod_self] at hp
      have h₂ := hmk (helloRead m₂ k) hstream hhellos₂ (hlive rfl hread₂ hstream fun _ => hp)
      exact h₂.quiet (Quiet.blind.greeted (onHello_cases m₂ env k))
    · simp only [if_neg h12] at hmk ⊢
      refine hmk _ hstream hhellos (hlive rfl rfl hstream fun _ => ?_)
      have hmod : ((m.sockets k).readOffset + buf.length) % helloLen =
          (m.sockets k).readOffset + buf.length := Nat.mod_eq_of_lt (by omega)
      rwa [hmod] at hp

/-- An event of another connection reads nothing from `b`. -/
theorem onBackend_quiet_of_ne (hb : (m.sockets k).fd ≠ b) :
    Quiet b m (onBackend m env k events) := by
  cases hread : readOf (m.sockets k) env events with
  | none => exact onBackend_quiet hread
  | some buf =>
    have hrecv : Quiet b m (m.emit (.received (m.sockets k).fd buf)) := .received hb
    have hpiece : ∀ ro, Quiet b m (pieceState m k buf ro) := fun ro =>
      hrecv.trans (.setSocket fun _ => hb)
    rw [onBackend_reads hread]
    split
    · exact hrecv.trans (.closeSocket _ k)
    split
    · have hfd : ((pieceState m k buf (m.sockets k).readOffset).sockets k).fd ≠ b := by
        simpa [pieceState] using hb
      exact ((hpiece _).trans (helloRead_quiet hfd)).trans
        (Quiet.blind.greeted (onHello_cases _ env k))
    · exact hpiece _

/-- **An event of a backend.** -/
theorem onBackend_heard (h : Heard b m ids bad) (hn : Names m) (hk : Live m ev.userData)
    (hrun : ev.events.latchSet = true → m.shutdownRequested = false) :
    Heard b (onBackend m env ev.userData ev.events) (ids ++ (helloId b m env ev).toList)
      (bad ++ (badHello b m env ev).toList) := by
  have hrun' : (ev.events.latchSet && m.shutdownRequested) = false := by
    cases hl : ev.events.latchSet with
    | false => rfl
    | true => simpa using hrun hl
  have hat : readsAt m env ev = (readOf (m.sockets ev.userData) env ev.events).map fun buf =>
      (m.sockets ev.userData, buf) := if_pos ⟨hrun', hk.type⟩
  cases hread : readOf (m.sockets ev.userData) env ev.events with
  | none =>
    simp only [helloId, badHello, hat, hread, Option.map_none, Option.bind_none, Option.toList_none,
      List.append_nil]
    exact h.quiet (onBackend_quiet hread)
  | some buf =>
    simp only [helloId, badHello, hat, hread, Option.map_some, Option.bind_some]
    by_cases hfd : (m.sockets ev.userData).fd = b
    · -- nothing wrong was read so far
      have hbad : bad = [] := by
        rw [h.reports, (h.live _ hk hfd).verdict]; rfl
      have hr := h.reads hn hk hfd hread
      simp only [hfd, true_and, if_true, hbad, List.nil_append]
      convert hr using 2
      split <;> rfl
    · simp only [hfd, false_and, if_false, Option.toList_none, List.append_nil]
      exact h.quiet (onBackend_quiet_of_ne hfd)

/-- Nothing is read for the event of a slot that holds no backend. -/
theorem readsAt_none (hty : (m.sockets ev.userData).type ≠ .backend) : readsAt m env ev = none :=
  if_neg fun h => hty h.2

/-- A new connection on a slot with offset 0. -/
theorem Heard.accept (h : Heard b m ids bad) (ht : Table m) (hn : Names m) (hf : Fresh m env)
    (hb : b = env.acceptIpc) (hclean : b ∈ (onBackendConnect m env events).backends →
      (m.sockets (nextWaitEventPos m.rmWaitSet)).readOffset = 0) :
    Heard b (onBackendConnect m env events) ids bad := by
  have hempty : m.stream b = [] := (hn.stream fun hmem =>
    hf.ipc (hb ▸ backends_sub_opened hmem)).1
  revert hclean
  refine onBackendConnect_rule (I := fun m' => (b ∈ m'.backends →
    (m.sockets (nextWaitEventPos m.rmWaitSet)).readOffset = 0) → Heard b m' ids bad) events ht
    (fun _ => h) ?_ ?_
  swap
  · intro _ _ hfull _
    -- the connection is put before the array
    have hopen : Quiet b m ((m.emit (.acceptBackend env.acceptIpc)).openSocket .backend
        env.acceptIpc backendEvents) := by
      refine ⟨rfl, by simp [Master.hellos, Master.openSocket, Master.setSocket], fun k hk _ => ?_⟩
      have hne : k ≠ nextWaitEventPos (m.emit (.acceptBackend env.acceptIpc)).rmWaitSet := by
        have := hk.range.1
        rw [show nextWaitEventPos (m.emit (.acceptBackend env.acceptIpc)).rmWaitSet = -1 from
          next_of_full hfull]
        omega
      have hty := hk.type
      rw [openSocket_sockets] at hty ⊢
      rw [Function.update_of_ne hne] at hty ⊢
      exact ⟨⟨hk.range, hty⟩, rfl⟩
    exact h.quiet (hopen.trans (.unread trivial))
  · intro _ _ _ hclean
    have hzero := hclean (hb ▸ List.mem_cons_self)
    refine ⟨h.numbers, h.reports, ?_, fun k hk hfd => ?_⟩
    · rw [← h.hellos]
      simp [Master.hellos, Master.openSocket, Master.setSocket]
    · have hty := hk.type
      rw [openSocket_sockets] at hty hfd ⊢
      by_cases hkn : k = nextWaitEventPos (m.emit (.acceptBackend env.acceptIpc)).rmWaitSet
      · subst hkn
        rw [Function.update_self]
        change Aligned (m.stream b) _
        rw [hempty]
        exact ⟨rfl, hzero, fun _ _ i hi => absurd hi (by simp)⟩
      · rw [Function.update_of_ne hkn] at hty hfd ⊢
        exact h.live k ⟨hk.range, hty⟩ hfd

/-- **Every event.** -/
theorem handleEvent_heard (h : Heard b m ids bad) (ht : Table m) (hn : Names m)
    (hk : m.inRange ev.userData) (hf : Fresh m env) (hh : m.halted = false)
    (hclean : b ∉ m.backends → b ∈ (handleEvent m env ev).backends →
      (m.sockets (nextWaitEventPos m.rmWaitSet)).readOffset = 0) :
    Heard b (handleEvent m env ev) (ids ++ (helloId b m env ev).toList)
      (bad ++ (badHello b m env ev).toList) := by
  refine handleEvent_rule (I := fun m' => (b ∉ m.backends → b ∈ m'.backends →
      (m.sockets (nextWaitEventPos m.rmWaitSet)).readOffset = 0) →
    Heard b m' (ids ++ (helloId b m env ev).toList) (bad ++ (badHello b m env ev).toList))
    ht hk hf hh ?_ ?_ hclean
  · rintro h1 h2 -
    have hat : readsAt m env ev = none := if_neg fun hr => by simp [h1, h2] at hr
    simp only [helloId, badHello, hat, Option.bind_none, Option.toList_none, List.append_nil]
    exact h.quiet (.same rfl rfl rfl)
  · rintro hrun m₁ - hl ht₁ hf₁ hcl
    have hn₁ := Prims.names hl.prims hn
    obtain ⟨-, n, hs, d, rfl⟩ := hl
    have h₁ : Heard b { m with numWorkers := n, workerHandles := hs, workerDied := d } ids bad :=
      h.quiet (.same rfl rfl rfl)
    by_cases hty : (m.sockets ev.userData).type = .backend
    · simp only [handler, hty]
      exact onBackend_heard h₁ hn₁ ⟨hk, hty⟩ hrun
    simp only [helloId, badHello, readsAt_none hty, Option.bind_none, Option.toList_none,
      List.append_nil]
    simp only [handler] at hcl ⊢
    split <;> rename_i hty'
    · exact h₁
    · simp only [hty'] at hcl
      by_cases hb : b = env.acceptIpc
      · refine h₁.accept ht₁ hn₁ hf₁ hb fun hmem => hcl (fun h => ?_) hmem
        exact hf.ipc (backends_sub_opened (hb ▸ h))
      · exact h₁.quiet (onBackendConnect_quiet ht₁ hb)
    · exact h₁.quiet (Quiet.blind.onFrontend ht₁ hf₁)
    · exact absurd hty' hty

/-! ## Along runs -/

/-- **The verdict does not depend on the pieces**: on a connection accepted on a slot with offset 0,
    the hellos that the master completes, with their numbers, and the bad hello that it reports are
    the verdict on the stream received; and a connection that it still holds has read the stream to
    its end. -/
theorem verdict_of_pieces {cfg : Setup} {h : List (Master × Label)}
    (hr : Run Step (startup cfg) h m) (hc : StartsClean h b) :
    Heard b m (heard (helloId b) h) (heard (badHello b) h) := by
  induction hr with
  | nil =>
    have hst := startup_started cfg
    have hn := startup_names cfg
    obtain ⟨h1, h2⟩ := hn.stream (b := b) (by rw [hst.backends]; exact List.not_mem_nil)
    refine ⟨by rw [h1]; rfl, by rw [h1]; rfl, h2, fun k hk => absurd hk.type (hst.backend k)⟩
  | @snoc h m l m' hr hs ih =>
    obtain ⟨ht, hn⟩ := reach_names ⟨h, hr⟩
    obtain ⟨hstart, hc⟩ := (meets_cons _).1 hc
    have ih := ih hc
    cases hs with
    | wait _ _ _ | sigusr1 | sigterm => exact ih.quiet (.same rfl rfl rfl)
    | @handle env ev evs hb hh hf =>
      simp only [AcceptsClean, hb] at hstart
      have hstep := handleEvent_heard (m := { m with batch := evs })
        (ih.quiet (.same rfl rfl rfl)) (ht.tail hb) (hn.tail evs) (ht.head hb)
        ⟨hf.ipc, hf.client⟩ hh hstart
      simp only [heard, hb, List.head?_cons, Option.bind_some]
      exact hstep

/-! ## The stream of a worker -/

/-- The last four bytes of a worker's hello. -/
def workerNumber (i : ℕ) : List UInt8 := (List.range 4).map fun j => UInt8.ofNat (i / 256 ^ j)

theorem hello_eq (i : ℕ) : hello i = backendHello ++ workerNumber i := rfl

theorem hello_length (i : ℕ) : (hello i).length = helloLen := by
  simp [hello_eq, workerNumber, backendHello, helloLen]

/-- `l` is some number of hellos of worker `i`, and `s` bytes of one more. -/
def Hellos (i : ℕ) (l : List UInt8) (s : ℕ) : Prop :=
  ∃ n, l = (List.replicate n (hello i)).flatten ++ (hello i).take s

theorem getElem?_hellos (hj : j < helloLen * n) :
    (List.replicate n (hello i)).flatten[j]? = (hello i)[j % helloLen]? := by
  induction n generalizing j with
  | zero => simp at hj
  | succ n ih =>
    rw [List.replicate_succ, List.flatten_cons]
    rcases Nat.lt_or_ge j helloLen with h | h
    · rw [List.getElem?_append_left (by rw [hello_length]; exact h), Nat.mod_eq_of_lt h]
    · rw [List.getElem?_append_right (by rw [hello_length]; exact h), hello_length,
        ih (by rw [Nat.mul_succ] at hj; omega), Nat.mod_eq_sub_mod h]

/-- The bytes of a worker repeat its hello. -/
theorem Hellos.getElem? {s : ℕ} (h : Hellos i bs s) (hs : s < helloLen) (hj : j < bs.length) :
    bs[j]? = (hello i)[j % helloLen]? := by
  obtain ⟨n, rfl⟩ := h
  have hlen : ((List.replicate n (hello i)).flatten).length = helloLen * n := by
    simp [hello_length, Nat.mul_comm]
  rw [List.length_append, hlen, List.length_take, hello_length] at hj
  rcases Nat.lt_or_ge j (helloLen * n) with h | h
  · rw [List.getElem?_append_left (by omega), getElem?_hellos h]
  · obtain ⟨r, rfl⟩ := Nat.exists_eq_add_of_le h
    rw [List.getElem?_append_right (by omega), hlen, Nat.add_sub_cancel_left,
      List.getElem?_take_of_lt (by omega), Nat.mul_add_mod, Nat.mod_eq_of_lt (by omega)]

/-- **The verdict on a worker**: every block is right, with the worker's number. -/
theorem verdict_hellos {s : ℕ} {rest : List UInt8} (h : Hellos i (bs ++ rest) s)
    (hs : s < helloLen) : verdict bs =
      (List.replicate (bs.length / helloLen) (workerNumber i), none) := by
  have hget : ∀ j < bs.length, bs[j]? = (hello i)[j % helloLen]? := by
    intro j hj
    rw [← h.getElem? hs (by rw [List.length_append]; omega), List.getElem?_append_left hj]
  have hgood : mismatch bs = none := by
    refine mismatch_eq_none.2 fun j hj hj8 => ?_
    rw [hget j hj, hello_eq, List.getElem?_append_left (by simpa [backendHello] using hj8)]
  rw [verdict, hgood]
  refine Prod.ext (List.eq_replicate_iff.2 ⟨by simp, fun id hid => ?_⟩) rfl
  obtain ⟨k, hk, rfl⟩ := List.mem_map.1 hid
  have hk := List.mem_range.1 hk
  simp only [Option.getD_none, helloLen] at hk
  refine List.ext_getElem? fun j => ?_
  by_cases hj : j < 4
  · have hmod : (12 * k + 8 + j) % 12 = 8 + j := by omega
    rw [idAt, List.getElem?_take_of_lt hj, List.getElem?_drop, helloLen, hget _ (by omega),
      helloLen, hmod, hello_eq, List.getElem?_append_right (by simp [backendHello])]
    congr 1
    simp [backendHello]
  · rw [List.getElem?_eq_none (by simp only [idAt, List.length_take]; omega),
      List.getElem?_eq_none (by simp [workerNumber]; omega)]

/-! ## The workers and the master -/

variable {w w' : World} {t : List Act} {a : Act} {acts : List Act} {idleTimeout : ℕ}

/-- The bytes of every worker, those that the master has read and those on their way. -/
structure Sending (t : List Act) (w : World) : Prop where
  /-- a connection that was never accepted -/
  unknown : ∀ b, w.peer b = none → streamOf b t = []
  accepted : ∀ b i, w.peer b = some i → (w.worker i).accepted = true
  once : ∀ b b' i, w.peer b = some i → w.peer b' = some i → b = b'
  connected : ∀ b i, w.peer b = some i →
    Hellos i (streamOf b t ++ (w.worker i).toMaster) (w.worker i).sent
  waiting : ∀ i, (w.worker i).accepted = false →
    Hellos i (w.worker i).toMaster (w.worker i).sent
  sent : ∀ i, (w.worker i).sent < helloLen

/-- A worker's bytes are the same. -/
structure SameBytes (p p' : Worker) : Prop where
  toMaster : p'.toMaster = p.toMaster
  sent : p'.sent = p.sent
  accepted : p'.accepted = p.accepted

namespace Sending

/-- Worker `i` sends more, and the master reads no more of it. -/
theorem setWorker {p : Worker} (hw : Sending t w) (hacc : p.accepted = (w.worker i).accepted)
    (hsent : p.sent < helloLen) (hbytes : ∀ l, Hellos i (l ++ (w.worker i).toMaster) (w.worker i).sent →
      Hellos i (l ++ p.toMaster) p.sent) : Sending t (w.setWorker i p) where
  unknown := hw.unknown
  accepted b j hb := by
    by_cases hj : j = i
    · subst hj
      rw [setWorker_self, hacc]; exact hw.accepted b j hb
    · rw [setWorker_of_ne _ _ hj]; exact hw.accepted b j hb
  once := hw.once
  connected b j hb := by
    by_cases hj : j = i
    · subst hj
      rw [setWorker_self]; exact hbytes _ (hw.connected b j hb)
    · rw [setWorker_of_ne _ _ hj]; exact hw.connected b j hb
  waiting j hacc' := by
    by_cases hj : j = i
    · subst hj
      rw [setWorker_self] at hacc' ⊢
      exact hbytes [] (hw.waiting j (hacc ▸ hacc'))
    · rw [setWorker_of_ne _ _ hj] at hacc' ⊢; exact hw.waiting j hacc'
  sent j := by
    by_cases hj : j = i
    · subst hj
      rw [setWorker_self]; exact hsent
    · rw [setWorker_of_ne _ _ hj]; exact hw.sent j

theorem same {p : Worker} (hw : Sending t w) (hp : SameBytes (w.worker i) p) :
    Sending t (w.setWorker i p) :=
  hw.setWorker hp.accepted (hp.sent ▸ hw.sent i) fun _ h => by rw [hp.toMaster, hp.sent]; exact h

/-- One more act, which is not a receipt. -/
theorem unread (hw : Sending t w) (ha : ∀ b, streamOf b (a :: t) = streamOf b t) :
    Sending (a :: t) w where
  unknown b hb := (ha b).trans (hw.unknown b hb)
  accepted := hw.accepted
  once := hw.once
  connected b i hb := by rw [ha]; exact hw.connected b i hb
  waiting := hw.waiting
  sent := hw.sent

theorem accept (hw : Sending t w) (hb : w.peer b = none) (hacc : (w.worker i).accepted = false) :
    Sending (.acceptBackend b :: t) ({ w with peer := Function.update w.peer b (some i) }.setWorker i
      { w.worker i with accepted := true }) := by
  have hstream : ∀ b', streamOf b' (.acceptBackend b :: t) = streamOf b' t := fun _ => rfl
  -- no connection was worker `i`'s
  have hnot : ∀ b', w.peer b' ≠ some i := by
    intro b' hb'
    have := hw.accepted b' i hb'
    rw [hacc] at this; cases this
  have hbytes : ∀ j, ((({ w with peer := Function.update w.peer b (some i) }.setWorker i
      { w.worker i with accepted := true }).worker j).toMaster = (w.worker j).toMaster) ∧
      ((({ w with peer := Function.update w.peer b (some i) }.setWorker i
      { w.worker i with accepted := true }).worker j).sent = (w.worker j).sent) := by
    intro j
    by_cases hj : j = i
    · subst hj
      rw [setWorker_self]; exact ⟨rfl, rfl⟩
    · rw [setWorker_of_ne _ _ hj]; exact ⟨rfl, rfl⟩
  have hpeer : ∀ b' j, Function.update w.peer b (some i) b' = some j →
      (b' = b ∧ j = i) ∨ (b' ≠ b ∧ w.peer b' = some j) := by
    intro b' j h
    by_cases hb' : b' = b
    · subst hb'
      rw [Function.update_self, Option.some.injEq] at h
      exact .inl ⟨rfl, h.symm⟩
    · rw [Function.update_of_ne hb'] at h
      exact .inr ⟨hb', h⟩
  refine ⟨fun b' hb' => ?_, fun b' j h => ?_, fun b₁ b₂ j h₁ h₂ => ?_, fun b' j h => ?_,
    fun j h => ?_, fun j => ?_⟩
  · rw [hstream]
    refine hw.unknown b' ?_
    rw [setWorker_peer] at hb'
    by_cases hbb : b' = b
    · subst hbb; exact hb
    · have hb' : Function.update w.peer b (some i) b' = none := hb'
      rwa [Function.update_of_ne hbb] at hb'
  · rcases hpeer b' j h with ⟨-, rfl⟩ | ⟨-, hold⟩
    · rw [setWorker_self]
    · have hj : j ≠ i := by
        rintro rfl; exact hnot b' hold
      rw [setWorker_of_ne _ _ hj]; exact hw.accepted b' j hold
  · rcases hpeer b₁ j h₁ with ⟨hb₁, hj₁⟩ | ⟨-, hold₁⟩ <;>
      rcases hpeer b₂ j h₂ with ⟨hb₂, hj₂⟩ | ⟨-, hold₂⟩
    · rw [hb₁, hb₂]
    · exact absurd (hj₁ ▸ hold₂) (hnot b₂)
    · exact absurd (hj₂ ▸ hold₁) (hnot b₁)
    · exact hw.once b₁ b₂ j hold₁ hold₂
  · rw [hstream, (hbytes j).1, (hbytes j).2]
    rcases hpeer b' j h with ⟨hbb, hj⟩ | ⟨-, hold⟩
    · rw [hw.unknown b' (hbb ▸ hb)]; exact hw.waiting j (hj ▸ hacc)
    · exact hw.connected b' j hold
  · have hj : j ≠ i := by
      rintro rfl
      rw [setWorker_self] at h; cases h
    rw [setWorker_of_ne _ _ hj] at h ⊢
    exact hw.waiting j h
  · rw [(hbytes j).2]; exact hw.sent j

theorem receive (hw : Sending t w) (hb : w.peer b = some i) {rest : List UInt8}
    (hrest : (w.worker i).toMaster = buf ++ rest) :
    Sending (.received b buf :: t) (w.setWorker i { w.worker i with toMaster := rest }) := by
  have hstream : ∀ b', streamOf b' (.received b buf :: t) =
      if b = b' then streamOf b' t ++ buf else streamOf b' t := fun _ => rfl
  have hne : ∀ b' j, w.peer b' = some j → j ≠ i → b ≠ b' := by
    rintro b' j hb' hj rfl
    exact hj (Option.some.inj (hb'.symm.trans hb))
  refine ⟨fun b' hb' => ?_, fun b' j h => ?_, hw.once, fun b' j h => ?_, fun j h => ?_, fun j => ?_⟩
  · have hbb : b ≠ b' := by
      rintro rfl
      rw [setWorker_peer, hb] at hb'; cases hb'
    rw [hstream, if_neg hbb]
    exact hw.unknown b' hb'
  · by_cases hj : j = i
    · subst hj
      rw [setWorker_self]; exact hw.accepted b' j h
    · rw [setWorker_of_ne _ _ hj]; exact hw.accepted b' j h
  · rw [setWorker_peer] at h
    by_cases hj : j = i
    · subst hj
      obtain rfl := hw.once b b' j hb h
      have hbytes := hw.connected b j hb
      rw [hrest, ← List.append_assoc] at hbytes
      rw [hstream, if_pos rfl, setWorker_self]; exact hbytes
    · rw [hstream, if_neg (hne b' j h hj), setWorker_of_ne _ _ hj]
      exact hw.connected b' j h
  · by_cases hj : j = i
    · subst hj
      have hacc := hw.accepted b j hb
      rw [setWorker_self] at h
      rw [h] at hacc; cases hacc
    · rw [setWorker_of_ne _ _ hj] at h ⊢; exact hw.waiting j h
  · by_cases hj : j = i
    · subst hj
      rw [setWorker_self]; exact hw.sent j
    · rw [setWorker_of_ne _ _ hj]; exact hw.sent j

/-- **Every act delivered.** -/
theorem cons (hw : Sending t w) (h : w.deliver i a = some w') : Sending (a :: t) w' := by
  cases a with
  | acceptBackend b =>
    simp only [World.deliver] at h
    split at h
    · rename_i hg
      cases h
      exact hw.accept hg.1 hg.2.2
    · cases h
  | received b bytes =>
    simp only [World.deliver] at h
    split at h
    · rename_i j hj
      split at h
      · rename_i hpre
        cases h
        obtain ⟨rest, hrest⟩ := hpre
        have hdrop : (w.worker j).toMaster.drop bytes.length = rest := by rw [← hrest]; simp
        rw [hdrop]
        exact hw.receive hj hrest.symm
      · cases h
    · cases h
  | sent b c =>
    simp only [World.deliver] at h
    split at h
    · split at h
      · cases h
        exact (hw.unread fun _ => rfl).same ⟨rfl, rfl, rfl⟩
      · cases h
    · cases h
  | close b =>
    simp only [World.deliver] at h
    split at h
    · cases h
      exact (hw.unread fun _ => rfl).same ⟨rfl, rfl, rfl⟩
    · cases h
      exact hw.unread fun _ => rfl
  | listen _ | acceptClient _ | hello _ | sendFailed _ _ =>
    cases h
    exact hw.unread fun _ => rfl

theorem deliverAll (hw : Sending t w) (h : w.deliverAll i acts = some w') :
    Sending (acts ++ t) w' ∧ w'.master = w.master := by
  induction acts generalizing w' with
  | nil =>
    cases h
    exact ⟨hw, rfl⟩
  | cons a acts ih =>
    obtain ⟨w₁, h1, h2⟩ := Option.bind_eq_some_iff.1 h
    obtain ⟨hw₁, hm₁⟩ := ih h1
    exact ⟨hw₁.cons h2, (deliver_delivered h2).master.trans hm₁⟩

end Sending

variable {p : Worker} {wenv : WorkerEnv} {e : Events}

theorem onReadable_same : SameBytes p (p.onReadable wenv) := by
  unfold Worker.onReadable
  split
  · exact ⟨rfl, rfl, rfl⟩
  · dsimp only
    split <;> exact ⟨rfl, rfl, rfl⟩

/-- What a worker's write adds to its bytes. -/
structure Sends (i : ℕ) (p p' : Worker) : Prop where
  accepted : p'.accepted = p.accepted
  sent : p.sent < helloLen → p'.sent < helloLen
  bytes : p.sent < helloLen → ∀ l, Hellos i (l ++ p.toMaster) p.sent →
    Hellos i (l ++ p'.toMaster) p'.sent

theorem SameBytes.sends {p' : Worker} (h : SameBytes p p') : Sends i p p' where
  accepted := h.accepted
  sent hs := by rw [h.sent]; exact hs
  bytes _ l hl := by rw [h.toMaster, h.sent]; exact hl

theorem Sends.trans {p' p'' : Worker} (h : Sends i p p') (h' : Sends i p' p'') : Sends i p p'' where
  accepted := h'.accepted.trans h.accepted
  sent hs := h'.sent (h.sent hs)
  bytes hs l hl := h'.bytes (h.sent hs) l (h.bytes hs l hl)

/-- **However `send` splits the hello**, its bytes are sent in order. -/
theorem onWriteable_sends : Sends i p (p.onWriteable i wenv) := by
  unfold Worker.onWriteable
  split
  · exact SameBytes.sends ⟨rfl, rfl, rfl⟩
  rename_i nbytes _
  dsimp only
  set bytes := ((hello i).drop p.sent).take nbytes with hbytes
  have hlen : bytes.length ≤ helloLen - p.sent := by
    rw [hbytes, List.length_take, List.length_drop, hello_length]; omega
  have htake : (hello i).take p.sent ++ bytes = (hello i).take (p.sent + bytes.length) := by
    rw [List.take_add, hbytes]
    congr 1
    rw [List.length_take, List.take_eq_take_min, List.length_drop]
  have hmore : ∀ l, Hellos i (l ++ p.toMaster) p.sent →
      Hellos i (l ++ (p.toMaster ++ bytes)) (p.sent + bytes.length) := by
    rintro l ⟨n, hl⟩
    refine ⟨n, ?_⟩
    rw [← List.append_assoc, hl, List.append_assoc, htake]
  split
  · rename_i h12
    refine ⟨rfl, fun _ => by simp [helloLen], fun _ l hl => ?_⟩
    obtain ⟨n, hn⟩ := hmore l hl
    refine ⟨n + 1, ?_⟩
    rw [h12, List.take_of_length_le (by rw [hello_length])] at hn
    rw [List.take_zero, List.append_nil, List.replicate_succ', List.flatten_append, hn]
    simp
  · rename_i h12
    exact ⟨rfl, fun hs => by simp only; omega, fun _ => hmore⟩

theorem onEvent_sends : Sends i p (p.onEvent i wenv e) := by
  unfold Worker.onEvent
  split
  · exact SameBytes.sends ⟨rfl, rfl, rfl⟩
  split
  · exact SameBytes.sends ⟨rfl, rfl, rfl⟩
  dsimp only
  have hread : ∀ p₁, Sends i p p₁ →
      Sends i p (if p₁.state = waitRead ∧ e.readable then p₁.onReadable wenv else p₁) := by
    intro p₁ h
    split
    · exact h.trans onReadable_same.sends
    · exact h
  refine hread _ ?_
  split
  · exact onWriteable_sends
  · exact SameBytes.sends ⟨rfl, rfl, rfl⟩

theorem Sending.sends (hw : Sending t w) (h : Sends i (w.worker i) p) :
    Sending t (w.setWorker i p) :=
  hw.setWorker h.accepted (h.sent (hw.sent i)) (h.bytes (hw.sent i))

/-- The steps of the master in a run of the system. -/
def masterHistory : List (World × Move) → List (Master × Label) :=
  List.filterMap fun p => match p.2 with
    | .master _ l => some (p.1.master, l)
    | _ => none

/-- **Runs of the system**: the master makes a run of its own, and every worker sends its hello, over
    and over. -/
theorem World.run_master {cfg : Setup} {h : List (World × Move)}
    (hr : Run (World.Step idleTimeout) (.init cfg) h w) :
    Run Rustica.Step (startup cfg) (masterHistory h) w.master ∧ Sending w.master.trace w := by
  induction hr with
  | nil =>
    refine ⟨.nil, fun b _ => ?_, nofun, nofun, nofun, fun i _ => ⟨0, rfl⟩,
      fun _ => Nat.succ_pos 11⟩
    refine ((startup_names cfg).stream ?_).1
    rw [(startup_started cfg).backends]
    exact List.not_mem_nil
  | @snoc h w mv w' hr hs ih =>
    obtain ⟨hrun, hw⟩ := ih
    cases mv with
    | master i l =>
      obtain ⟨m', h1, h2⟩ := Option.bind_eq_some_iff.1 hs
      have hstep := step_of_next h1
      have hw' : Sending w.master.trace { w with master := m' } :=
        ⟨hw.unknown, hw.accepted, hw.once, hw.connected, hw.waiting, hw.sent⟩
      obtain ⟨h3, h4⟩ := hw'.deliverAll h2
      rw [newActs_eq (hstep.trace (reach_table ⟨_, hrun⟩))] at h3
      have hm : w'.master = m' := h4
      exact ⟨hm ▸ .snoc hrun hstep, hm ▸ h3⟩
    | start i | wait i evs | leave i | teardown i =>
      simp only [World.Step, World.move] at hs
      split at hs
      · cases hs
        exact ⟨hrun, hw.same ⟨rfl, rfl, rfl⟩⟩
      · cases hs
    | event i env =>
      simp only [World.Step, World.move] at hs
      split at hs
      · rename_i e evs hpc
        cases hs
        have hsame : Sends i (w.worker i) { w.worker i with pc := .handling evs } :=
          SameBytes.sends ⟨rfl, rfl, rfl⟩
        exact ⟨hrun, hw.sends (hsame.trans onEvent_sends)⟩
      · cases hs

/-! ## The codec -/

/-- **Hellos are read right however they are split.**  On a connection accepted on a slot with offset
    0, the completed hellos, their numbers, and the report of a bad one are the verdict on the bytes
    received.  On the connection of worker `i` no hello is bad; `k` of them are complete once `12 k`
    bytes are received, each with the worker's number, which stays in the slot until the bytes of
    the next number arrive.  No copy writes outside of the four bytes of the number. -/
theorem hello_codec (cfg : Setup) :
    (∀ h m b, Run Step (startup cfg) h m → StartsClean h b →
      heard (helloId b) h = (verdict (m.stream b)).1 ∧
      heard (badHello b) h = (verdict (m.stream b)).2.toList ∧
      m.hellos b = (verdict (m.stream b)).1.length) ∧
    (∀ idleTimeout h w i b, Run (World.Step idleTimeout) (.init cfg) h w →
      w.peer b = some i → StartsClean (masterHistory h) b →
      heard (badHello b) (masterHistory h) = [] ∧
      heard (helloId b) (masterHistory h) =
        List.replicate ((w.master.stream b).length / helloLen) (workerNumber i) ∧
      (∀ k, (w.master.stream b).length = helloLen * k → w.master.hellos b = k) ∧
      ∀ k, Live w.master k → (w.master.sockets k).fd = b →
        (w.master.sockets k).readOffset ≤ 8 → 0 < w.master.hellos b →
        (List.range 4).map (w.master.sockets k).workerId = workerNumber i) ∧
    ∀ s env events buf, readOf s env events = some buf →
      s.readOffset - 8 + (buf.drop (8 - s.readOffset)).length ≤ 4 := by
  refine ⟨fun h m b hr hc => ?_, fun idleTimeout h w i b hr hb hc => ?_,
    fun s env events buf hread => ?_⟩
  · have hh := verdict_of_pieces hr hc
    exact ⟨hh.numbers, hh.reports, by rw [hh.hellos, hh.numbers]⟩
  · obtain ⟨hrun, hw⟩ := World.run_master hr
    have hh := verdict_of_pieces hrun hc
    have hbytes : Hellos i (w.master.stream b ++ (w.worker i).toMaster) (w.worker i).sent :=
      hw.connected b i hb
    have hv := verdict_hellos hbytes (hw.sent i)
    have hcount : w.master.hellos b = (w.master.stream b).length / helloLen := by
      rw [hh.hellos, hh.numbers, hv, List.length_replicate]
    refine ⟨by rw [hh.reports, hv]; rfl, by rw [hh.numbers, hv], fun k hk => ?_,
      fun k hk hfd hro hpos => ?_⟩
    · rw [hcount, hk]; simp [helloLen]
    · have ha := hh.live k hk hfd
      have hoff := ha.offset
      simp only [helloLen] at hcount hoff
      refine List.ext_getElem? fun j => ?_
      by_cases hj : j < 4
      · -- the byte of the number in the last complete block
        set x := 12 * ((w.master.stream b).length / 12 - 1) + (8 + j) with hx
        have hmod : x % 12 = 8 + j := by omega
        have hlt : x < (w.master.stream b).length := by omega
        have hbyte := ha.number j hj x hlt hmod (by simp only [helloLen]; omega)
        have hsent := hbytes.getElem? (hw.sent i) (j := x) (by rw [List.length_append]; omega)
        rw [List.getElem?_append_left hlt, hbyte, helloLen, hmod, hello_eq,
          List.getElem?_append_right (by simp [backendHello])] at hsent
        have hnum : (workerNumber i)[j]? = some ((w.master.sockets k).workerId j) := by
          rw [hsent]
          simp [backendHello]
        rw [hnum]
        simp [hj]
      · rw [List.getElem?_eq_none (by simp; omega),
          List.getElem?_eq_none (by simp [workerNumber]; omega)]
  · obtain ⟨hro, hlen⟩ := readOf_length hread
    simp only [helloLen] at hro hlen
    rw [List.length_drop]; omega

/-- Worker 0 connects on descriptor 20; its hello is sent in pieces of 7 and 5 bytes, and received in
    pieces of 3, 6 and 3. -/
def splitHelloRun : List Move :=
  [.start 0, .master 0 (.wait [readable 1]), .master 0 (.handle { acceptIpc := 20 }),
    .wait 0 [wlSocketWriteable], .event 0 { send := some 7 },
    .master 0 (.wait [readable 3]), .master 0 (.handle { recv := some ((hello 0).take 3) }),
    .wait 0 [wlSocketWriteable], .event 0 { send := some 5 },
    .master 0 (.wait [readable 3]), .master 0 (.handle { recv := some (((hello 0).drop 3).take 6) }),
    .master 0 (.wait [readable 3]), .master 0 (.handle { recv := some ((hello 0).drop 9) })]

/-- The hello is complete, with the worker's number. -/
theorem split_hello_complete : ∃ h w, Run (World.Step 0) (.init smallSetup) h w ∧
    w.peer 20 = some 0 ∧ (w.master.stream 20).length = 12 ∧ w.master.hellos 20 = 1 ∧
    heard (badHello 20) (masterHistory h) = [] ∧
    heard (helloId 20) (masterHistory h) = [workerNumber 0] := by
  have hexec : (execs (World.move 0) (.init smallSetup) splitHelloRun).any (fun w =>
      w.peer 20 = some 0 ∧ (w.master.stream 20).length = 12) = true := by decide
  have hclean : StartsClean (masterHistory (trail (World.move 0) (.init smallSetup) splitHelloRun []))
      20 := by
    have h : ∀ p ∈ masterHistory (trail (World.move 0) (.init smallSetup) splitHelloRun []),
      AcceptsClean 20 p.1 p.2 := by decide
    exact h
  obtain ⟨w, hr, hp⟩ := exists_run_of_execs (fun _ _ _ h => h) hexec
  obtain ⟨h1, h2⟩ := of_decide_eq_true hp
  obtain ⟨hbad, hid, hcount, -⟩ := (hello_codec smallSetup).2.1 0 _ w 0 20 hr h1 hclean
  rw [h2] at hid
  exact ⟨_, w, hr, h1, h2, hcount 1 h2, hbad, hid⟩

end Rustica
