/-
  The conversation of a request with its client: `env_recv` and `env_send` of `worker.c`.

  Both natives wait in one wait set for the client's socket and for the latch of the worker.  They
  look at the latch first, then at whether the client is still there, and only then at the socket.

  * `stream_of_run`: whatever requests, clients and signals do, what the guest finds in its buffers is
    the beginning of what the client has sent, and what the client reads is the beginning of what the
    guest was told to have sent: no byte is lost on the way, given twice, or given to another request.
  * `answers_of_run`: a native moves bytes exactly if no signal has come since the latch was reset and
    the client has not hung up.  Only `main_loop` resets the latch, or PostgreSQL where it waits for a
    lock: a notification, say, that comes in a request ends its conversation.
  * `ends_iff`: so 0 does not say that all was received.  It does exactly as long as the guest does not
    ask for more when a client has shut down its side and there is still something to read.

  Of `main_loop` there is only what it does with the latch.  A range that is not in the buffer is the
  matter of `Rustica.Sandbox`.
-/
import Rustica.EventSet
import Rustica.Lib.Conduit
import Rustica.Sandbox

namespace Rustica.Conversation

open Exec

/-! ## The state -/

/-- A client of the master, and its connection: the bytes on their way from and to it. -/
structure Client where
  inbound : List UInt8 := []
  outbound : List UInt8 := []
  /-- it has shut down its side -/
  finished : Bool := false
  /-- the connection is reset -/
  broken : Bool := false
  /-- the worker has closed its end -/
  closed : Bool := false

def Client.hungUp (cl : Client) : Bool := cl.finished || cl.broken

/-- Where the worker is: between two requests, in `on_readable` with `ctx->fd`, or at its end. -/
inductive Pc where
  | waiting
  | serving (c : ℕ)
  | gone
  deriving DecidableEq

structure State where
  pc : Pc := .waiting
  latch : Bool := false
  shutdownRequested : Bool := false
  /-- what `ctx->wait_set` has for the client's socket -/
  interest : Events := {}
  clients : ℕ → Client := fun _ => {}

def State.setClient (s : State) (c : ℕ) (cl : Client) : State :=
  { s with clients := Function.update s.clients c cl }

/-- What the kernel does for a native: whether there is room to write, and whether `recv` or `send`
    fails, or how many bytes it would move. -/
structure Kernel where
  room : Bool := true
  fails : Bool := false
  count : ℕ := 1

/-- The result of `recv` or `send`: where something can be moved, at least one byte is. -/
def Kernel.moves (k : Kernel) (n : ℕ) : ℤ := if k.fails then -1 else (min (max 1 k.count) n : ℕ)

theorem Kernel.moves_le (k : Kernel) (n : ℕ) : k.moves n ≤ n := by
  rw [Kernel.moves]
  split_ifs <;> omega

/-- Something is moved, or it fails. -/
theorem Kernel.moves_ne_zero (k : Kernel) {n : ℕ} (hn : 0 < n) :
    k.moves n ≠ 0 ∧ (k.fails = false → 0 < k.moves n) := by
  rw [Kernel.moves]
  cases k.fails with
  | true => exact ⟨by rw [if_pos rfl]; decide, fun h => Bool.noConfusion h⟩
  | false =>
    rw [if_neg Bool.false_ne_true]
    omega

/-! ## The natives -/

/-- What the client's socket is ready for, of what the wait set has for it. -/
def State.ready (s : State) (cl : Client) (k : Kernel) : Events where
  readable := s.interest.readable && (!cl.inbound.isEmpty || cl.hungUp)
  writeable := s.interest.writeable && k.room
  closed := s.interest.closed && cl.hungUp

/-- `WaitEventSetWait` on the wait set of the request, for one event and without a timeout: the latch
    comes before the socket.  It does not return while there is nothing. -/
def State.wait (s : State) (cl : Client) (k : Kernel) : Option Events :=
  if s.latch then some wlLatchSet
  else if s.ready cl k = {} then none
  else some (s.ready cl k)

/-- `recv` or `send` after the wait, where so many bytes are held for it. -/
def Kernel.io (k : Kernel) (e : Events) (held : ℕ) : Io where
  latchSet := e.latchSet
  socketClosed := e.closed
  call n := k.moves (min held n)
  le n := (k.moves_le _).trans (by omega)

/-- A bytea of the guest, and a range in it. -/
structure Range where
  bytes : List UInt8
  start : Int32
  len : Int32
  start_nonneg : 0 ≤ start.toInt
  len_nonneg : 0 ≤ len.toInt
  fits : start.toInt + len.toInt ≤ bytes.length

namespace Range

variable (r : Range)

/-- So many bytes of the range, in the bytea as it is then. -/
def window (bytes : List UInt8) (rv : ℤ) : List UInt8 :=
  (bytes.drop r.start.toInt.toNat).take rv.toNat

/-- The bytea with some bytes in the range. -/
def write (data : List UInt8) : List UInt8 :=
  r.bytes.take r.start.toInt.toNat ++ data ++ r.bytes.drop (r.start.toInt.toNat + data.length)

end Range

/-- The end of a native: the answer, the bytea, and the state. -/
structure Answer where
  rv : ℤ
  bytes : List UInt8
  state : State

def envRecv (s : State) (c : ℕ) (k : Kernel) (r : Range) : Option Answer :=
  let s := { s with interest := wlSocketReadable ||| wlSocketClosed }
  let cl := s.clients c
  (s.wait cl k).bind fun e =>
    match (Rustica.envRecv (k.io e cl.inbound.length) r.start r.len).result with
    | .returns rv => some ⟨rv, r.write (cl.inbound.take rv.toNat),
        s.setClient c { cl with inbound := cl.inbound.drop rv.toNat }⟩
    | _ => none

def envSend (s : State) (c : ℕ) (k : Kernel) (r : Range) : Option Answer :=
  let s := { s with interest := wlSocketWriteable ||| wlSocketClosed }
  let cl := s.clients c
  (s.wait cl k).bind fun e =>
    match (Rustica.envSend (k.io e r.len.toInt.toNat) r.start r.len).result with
    | .returns rv => some ⟨rv, r.bytes,
        s.setClient c { cl with outbound := cl.outbound ++ r.window r.bytes rv }⟩
    | _ => none

/-! ## Runs -/

inductive Event where
  | clientSends (c : ℕ) (bytes : List UInt8)
  | clientFinishes (c : ℕ)
  | clientReads (c n : ℕ)
  | breaks (c : ℕ)
  /-- `on_sigterm` -/
  | sigterm
  /-- `on_sigusr1` -/
  | sigusr1
  /-- `main_loop` handles an event with the latch -/
  | latchEvent
  /-- `on_readable` has set up the context -/
  | job (c : ℕ)
  /-- PostgreSQL executes something for the request, and may wait for a lock -/
  | execute (resets : Bool)
  | envRecv (k : Kernel) (r : Range)
  | envSend (k : Kernel) (r : Range)
  /-- `on_readable` closes the client -/
  | done

namespace State

variable (s : State)

/-- The client that the request serves. -/
def serves : Option ℕ :=
  match s.pc with
  | .serving c => some c
  | _ => none

/-- The natives of a request. -/
def native : Event → Option Answer
  | .envRecv k r => s.serves.bind fun c => Conversation.envRecv s c k r
  | .envSend k r => s.serves.bind fun c => Conversation.envSend s c k r
  | _ => none

/-- The state after an event, where it can happen.  What a client sends over a connection that is not
    there is lost. -/
def step : Event → Option State
  | .clientSends c bytes =>
    let cl := s.clients c
    if cl.finished then none
    else if cl.broken || cl.closed then some s
    else some (s.setClient c { cl with inbound := cl.inbound ++ bytes })
  | .clientFinishes c => some (s.setClient c { s.clients c with finished := true })
  | .clientReads c n =>
    some (s.setClient c { s.clients c with outbound := (s.clients c).outbound.drop n })
  | .breaks c =>
    some (s.setClient c { s.clients c with inbound := [], outbound := [], broken := true })
  | .sigterm => some { s with shutdownRequested := true, latch := true }
  | .sigusr1 => some { s with latch := true }
  | .latchEvent =>
    match s.pc with
    | .waiting =>
      if s.latch then
        if s.shutdownRequested then some { s with pc := .gone } else some { s with latch := false }
      else none
    | _ => none
  | .job c =>
    match s.pc with
    | .waiting =>
      if (s.clients c).closed then none
      else some { s with pc := .serving c, interest := wlSocketClosed }
    | _ => none
  | .execute resets =>
    match s.pc with
    | .serving _ => some { s with latch := s.latch && !resets }
    | _ => none
  | .envRecv k r => (s.native (.envRecv k r)).map Answer.state
  | .envSend k r => (s.native (.envSend k r)).map Answer.state
  | .done =>
    match s.pc with
    | .serving c =>
      some ({ s with pc := .waiting }.setClient c { s.clients c with inbound := [], closed := true })
    | _ => none

end State

def Step (s : State) (e : Event) (s' : State) : Prop := s.step e = some s'

/-! ## What is said -/

section
variable (c : ℕ)

/-- What the client sends. -/
def clientSent (_ : State) : Event → List UInt8
  | .clientSends c' bytes => if c' = c then bytes else []
  | _ => []

/-- What the client reads. -/
def clientRead (s : State) : Event → List UInt8
  | .clientReads c' n => if c' = c then (s.clients c).outbound.take n else []
  | _ => []

/-- What the guest finds in the range that it has received into. -/
def received (s : State) : Event → List UInt8
  | .envRecv k r =>
    if s.serves = some c then ((s.native (.envRecv k r)).map fun a => r.window a.bytes a.rv).getD []
    else []
  | _ => []

/-- What the guest is told to have sent. -/
def written (s : State) : Event → List UInt8
  | .envSend k r =>
    if s.serves = some c then ((s.native (.envSend k r)).map fun a => r.window r.bytes a.rv).getD []
    else []
  | _ => []

end

variable {s s₀ s' : State} {cl cl' : Client} {k : Kernel} {r : Range} {a : Answer} {e : Event}
  {ev : Events} {c c' held : ℕ} {h : List (State × Event)}

/-! ## One native -/

theorem Range.window_write {data : List UInt8} {rv : ℤ} (h : data.length = rv.toNat) :
    r.window (r.write data) rv = data := by
  have hfits := r.fits
  have hlen := r.len_nonneg
  have htake : (r.bytes.take r.start.toInt.toNat).length = r.start.toInt.toNat := by
    rw [List.length_take]
    omega
  rw [Range.window, Range.write, List.append_assoc, List.drop_append_of_le_length htake.ge,
    List.drop_of_length_le htake.le, List.nil_append, ← h, List.take_left]

/-- **What wakes a native** is the latch, or else the socket. -/
theorem State.wait_eq_some (hw : s.wait cl k = some ev) :
    ev.latchSet = s.latch ∧ (s.latch = false → ev = s.ready cl k ∧ ev ≠ {}) := by
  rw [State.wait] at hw
  cases hl : s.latch with
  | true =>
    rw [hl, if_pos rfl] at hw
    obtain rfl := Option.some.inj hw
    exact ⟨rfl, fun h => Bool.noConfusion h⟩
  | false =>
    rw [hl, if_neg Bool.false_ne_true] at hw
    split_ifs at hw with he
    obtain rfl := Option.some.inj hw
    exact ⟨rfl, fun _ => ⟨rfl, he⟩⟩

/-- The answer of a native that returns. -/
def State.reply (s : State) (cl : Client) (k : Kernel) (held : ℕ) (r : Range) : ℤ :=
  if s.latch then -1 else if cl.hungUp then 0 else k.moves (min held r.len.toInt.toNat)

theorem State.reply_le : (s.reply cl k held r).toNat ≤ min held r.len.toInt.toNat := by
  have hle := k.moves_le (min held r.len.toInt.toNat)
  rw [State.reply]
  split_ifs <;> omega

theorem ioCall_returns (io : Io) (start len : Int32) : (ioCall io start len).result =
    .returns (if io.latchSet then -1 else if io.socketClosed then 0
      else asInt32 (io.call (sizeT len.toInt))) := by
  rw [ioCall]
  split_ifs
  · rfl
  · rfl
  · rfl

theorem ioCall_result (hw : s.wait cl k = some ev) (hc : s.interest.closed = true) :
    (ioCall (k.io ev held) r.start r.len).result = .returns (s.reply cl k held r) := by
  have hlen := r.len_nonneg
  have hmax := (int32_range r.len).2
  have hsize : sizeT r.len.toInt = r.len.toInt.toNat := by
    have := sizeT_of_nonneg hlen hmax
    omega
  have hcall : (k.io ev held).call (sizeT r.len.toInt) = k.moves (min held r.len.toInt.toNat) := by
    rw [hsize]
    rfl
  have hrange : asInt32 (k.moves (min held r.len.toInt.toNat)) =
      k.moves (min held r.len.toInt.toNat) := by
    have hle := k.moves_le (min held r.len.toInt.toNat)
    have hge : -1 ≤ k.moves (min held r.len.toInt.toNat) := by
      rw [Kernel.moves]
      split_ifs <;> omega
    exact asInt32_of_range (by omega) (by omega)
  obtain ⟨hlatch, hready⟩ := State.wait_eq_some hw
  have hl : (k.io ev held).latchSet = s.latch := hlatch
  have hcl : (k.io ev held).socketClosed = ev.closed := rfl
  rw [ioCall_returns, hcall, hrange, hl, hcl, State.reply]
  cases hl : s.latch with
  | true => rfl
  | false => rw [(hready hl).1, State.ready, hc, Bool.true_and]

/-- **One `env_recv`**: its answer, what it leaves in the range, and what it changes. -/
theorem envRecv_spec (ha : envRecv s c k r = some a) :
    a.rv = s.reply (s.clients c) k (s.clients c).inbound.length r ∧
    (s.latch = false → (s.clients c).hungUp = false → (s.clients c).inbound ≠ []) ∧
    r.window a.bytes a.rv = (s.clients c).inbound.take a.rv.toNat ∧
    a.state = State.setClient { s with interest := wlSocketReadable ||| wlSocketClosed } c
      { s.clients c with inbound := (s.clients c).inbound.drop a.rv.toNat } := by
  obtain ⟨ev, hev, ha⟩ := Option.bind_eq_some_iff.1 ha
  rw [Rustica.envRecv, ioCall_result hev rfl] at ha
  obtain rfl := Option.some.inj ha
  refine ⟨rfl, fun hl hh hi => ?_, Range.window_write ?_, rfl⟩
  · obtain ⟨hev, hne⟩ := (State.wait_eq_some hev).2 hl
    refine hne (hev.trans ?_)
    show (⟨false, true && (!(s.clients c).inbound.isEmpty || (s.clients c).hungUp), false && k.room,
      true && (s.clients c).hungUp⟩ : Events) = {}
    rw [hi, hh]
    rfl
  · rw [List.length_take]
    exact min_eq_left (State.reply_le.trans (min_le_left _ _))

/-- **One `env_send`**. -/
theorem envSend_spec (ha : envSend s c k r = some a) :
    a.rv = s.reply (s.clients c) k r.len.toInt.toNat r ∧
    a.state = State.setClient { s with interest := wlSocketWriteable ||| wlSocketClosed } c
      { s.clients c with outbound := (s.clients c).outbound ++ r.window r.bytes a.rv } := by
  obtain ⟨ev, hev, ha⟩ := Option.bind_eq_some_iff.1 ha
  rw [Rustica.envSend, ioCall_result hev rfl] at ha
  obtain rfl := Option.some.inj ha
  exact ⟨rfl, rfl⟩

/-- A native moves bytes only if the client is there. -/
theorem State.reply_pos (h : (s.reply cl k held r).toNat ≠ 0) :
    s.latch = false ∧ cl.hungUp = false := by
  rw [State.reply] at h
  cases hl : s.latch with
  | true =>
    rw [hl] at h
    exact absurd rfl h
  | false =>
    cases hh : cl.hungUp with
    | true =>
      rw [hl, hh] at h
      exact absurd rfl h
    | false => exact ⟨rfl, rfl⟩

theorem serves_eq_some : s.serves = some c ↔ s.pc = .serving c := by
  rw [State.serves]
  cases s.pc with
  | serving c' => simp
  | _ => simp

/-! ## One step -/

/-- **What a step does.** -/
inductive Change (s : State) : Event → State → Prop
  | sends (c : ℕ) (bytes : List UInt8) : Change s (.clientSends c bytes)
      (s.setClient c { s.clients c with inbound := (s.clients c).inbound ++ bytes })
  | lost (c : ℕ) (bytes : List UInt8) : (s.clients c).broken ∨ (s.clients c).closed →
      Change s (.clientSends c bytes) s
  | finishes (c : ℕ) :
      Change s (.clientFinishes c) (s.setClient c { s.clients c with finished := true })
  | reads (c n : ℕ) : Change s (.clientReads c n)
      (s.setClient c { s.clients c with outbound := (s.clients c).outbound.drop n })
  | breaks (c : ℕ) : Change s (.breaks c)
      (s.setClient c { s.clients c with inbound := [], outbound := [], broken := true })
  | sigterm : Change s .sigterm { s with shutdownRequested := true, latch := true }
  | sigusr1 : Change s .sigusr1 { s with latch := true }
  | leaves : Change s .latchEvent { s with pc := .gone }
  | resets : Change s .latchEvent { s with latch := false }
  | job (c : ℕ) : s.pc = .waiting → (s.clients c).closed = false →
      Change s (.job c) { s with pc := .serving c, interest := wlSocketClosed }
  | execute (resets : Bool) : Change s (.execute resets) { s with latch := s.latch && !resets }
  | recv (c : ℕ) (k : Kernel) (r : Range) (a : Answer) (mask : Events) :
      s.serves = some c → envRecv s c k r = some a →
      Change s (.envRecv k r) (State.setClient { s with interest := mask } c
        { s.clients c with inbound := (s.clients c).inbound.drop a.rv.toNat })
  | send (c : ℕ) (k : Kernel) (r : Range) (a : Answer) (mask : Events) :
      s.serves = some c → envSend s c k r = some a →
      Change s (.envSend k r) (State.setClient { s with interest := mask } c
        { s.clients c with outbound := (s.clients c).outbound ++ r.window r.bytes a.rv })
  | done (c : ℕ) : s.pc = .serving c → Change s .done
      (State.setClient { s with pc := .waiting } c { s.clients c with inbound := [], closed := true })

theorem Step.change (hs : Step s e s') : Change s e s' := by
  cases e with
  | clientSends c bytes =>
    rw [Step, State.step] at hs
    split_ifs at hs with _ hlost
    · obtain rfl := Option.some.inj hs
      exact .lost c bytes (by simpa using hlost)
    · obtain rfl := Option.some.inj hs
      exact .sends c bytes
  | clientFinishes c =>
    obtain rfl := Option.some.inj hs
    exact .finishes c
  | clientReads c n =>
    obtain rfl := Option.some.inj hs
    exact .reads c n
  | breaks c =>
    obtain rfl := Option.some.inj hs
    exact .breaks c
  | sigterm =>
    obtain rfl := Option.some.inj hs
    exact .sigterm
  | sigusr1 =>
    obtain rfl := Option.some.inj hs
    exact .sigusr1
  | latchEvent =>
    rw [Step, State.step] at hs
    split at hs
    · split_ifs at hs
      · obtain rfl := Option.some.inj hs
        exact .leaves
      · obtain rfl := Option.some.inj hs
        exact .resets
    · cases hs
  | job c =>
    rw [Step, State.step] at hs
    split at hs
    · rename_i hw
      split_ifs at hs with hc
      obtain rfl := Option.some.inj hs
      exact .job c hw (Bool.eq_false_iff.2 hc)
    · cases hs
  | execute resets =>
    rw [Step, State.step] at hs
    split at hs
    · obtain rfl := Option.some.inj hs
      exact .execute resets
    · cases hs
  | envRecv k r =>
    obtain ⟨a, ha, rfl⟩ := Option.map_eq_some_iff.1 hs
    obtain ⟨c, hc, ha⟩ := Option.bind_eq_some_iff.1 ha
    rw [(envRecv_spec ha).2.2.2]
    exact .recv c k r a _ hc ha
  | envSend k r =>
    obtain ⟨a, ha, rfl⟩ := Option.map_eq_some_iff.1 hs
    obtain ⟨c, hc, ha⟩ := Option.bind_eq_some_iff.1 ha
    rw [(envSend_spec ha).2]
    exact .send c k r a _ hc ha
  | done =>
    rw [Step, State.step] at hs
    split at hs
    · rename_i c hc
      obtain rfl := Option.some.inj hs
      exact .done c hc
    · cases hs

/-- **What a step is for a client**: with what it sends, what the guest receives of it and writes to
    it, and what it reads. -/
inductive ClientStep (cl : Client) :
    List UInt8 → List UInt8 → List UInt8 → List UInt8 → Client → Prop
  | idle : ClientStep cl [] [] [] [] cl
  | sends (bytes : List UInt8) :
      ClientStep cl bytes [] [] [] { cl with inbound := cl.inbound ++ bytes }
  | lost (bytes : List UInt8) : cl.broken ∨ cl.closed → ClientStep cl bytes [] [] [] cl
  | finishes : ClientStep cl [] [] [] [] { cl with finished := true }
  | reads (n : ℕ) : ClientStep cl [] [] [] (cl.outbound.take n)
      { cl with outbound := cl.outbound.drop n }
  | breaks : ClientStep cl [] [] [] [] { cl with inbound := [], outbound := [], broken := true }
  | receives (n : ℕ) : cl.hungUp = false ∧ cl.closed = false ∨ n = 0 →
      ClientStep cl [] (cl.inbound.take n) [] [] { cl with inbound := cl.inbound.drop n }
  | writes (bytes : List UInt8) : cl.hungUp = false ∨ bytes = [] →
      ClientStep cl [] [] bytes [] { cl with outbound := cl.outbound ++ bytes }
  | closes : ClientStep cl [] [] [] [] { cl with inbound := [], closed := true }

/-- A request serves a client that the worker has not closed, and a connection that is reset holds
    nothing. -/
structure State.Inv (s : State) : Prop where
  serves : ∀ c, s.serves = some c → (s.clients c).closed = false
  outbound : ∀ c, (s.clients c).broken → (s.clients c).outbound = []

/-- What is said in a step between the guest and the client. -/
def Said (c : ℕ) (s : State) (e : Event) (s' : State) : Prop :=
  ClientStep (s.clients c) (clientSent c s e) (received c s e) (written c s e) (clientRead c s e)
    (s'.clients c)

/-- A step for one client is nothing for the others. -/
theorem said_setClient (c' : ℕ) (h : c = c' → ClientStep (s.clients c) (clientSent c s e) (received c s e)
      (written c s e) (clientRead c s e) cl)
    (hne : c ≠ c' → clientSent c s e = [] ∧ received c s e = [] ∧ written c s e = [] ∧
      clientRead c s e = [])
    (hs' : s'.clients = Function.update s.clients c' cl) : Said c s e s' := by
  rw [Said, hs']
  by_cases hc : c = c'
  · subst hc
    rw [Function.update_self]
    exact h rfl
  · obtain ⟨h1, h2, h3, h4⟩ := hne hc
    rw [Function.update_of_ne hc, h1, h2, h3, h4]
    exact .idle

/-- A step that is for no client. -/
theorem said_idle (h1 : clientSent c s e = []) (h2 : received c s e = []) (h3 : written c s e = [])
    (h4 : clientRead c s e = []) (hs' : s'.clients = s.clients) : Said c s e s' := by
  rw [Said, hs', h1, h2, h3, h4]
  exact .idle

theorem Step.said (hI : s.Inv) (hs : Step s e s') : Said c s e s' := by
  cases hs.change with
  | sends c' bytes =>
    refine said_setClient c' (fun h => ?_) (fun h => ⟨if_neg h.symm, rfl, rfl, rfl⟩) rfl
    subst h
    rw [clientSent, if_pos rfl]
    exact .sends bytes
  | lost c' bytes hl =>
    refine said_setClient c' (fun h => ?_) (fun h => ⟨if_neg h.symm, rfl, rfl, rfl⟩)
      (Function.update_eq_self c' _).symm
    subst h
    rw [clientSent, if_pos rfl]
    exact .lost bytes hl
  | finishes c' =>
    refine said_setClient c' (fun h => ?_) (fun _ => ⟨rfl, rfl, rfl, rfl⟩) rfl
    subst h
    exact .finishes
  | reads c' n =>
    refine said_setClient c' (fun h => ?_) (fun h => ⟨rfl, rfl, rfl, if_neg h.symm⟩) rfl
    subst h
    rw [clientRead, if_pos rfl]
    exact .reads n
  | breaks c' =>
    refine said_setClient c' (fun h => ?_) (fun _ => ⟨rfl, rfl, rfl, rfl⟩) rfl
    subst h
    exact .breaks
  | sigterm | sigusr1 | leaves | resets | job | execute => exact said_idle rfl rfl rfl rfl rfl
  | recv c' k r a mask hc' ha =>
    have hnative : s.native (.envRecv k r) = some a := Option.bind_eq_some_iff.2 ⟨c', hc', ha⟩
    obtain ⟨hrv, -, hwin, -⟩ := envRecv_spec ha
    refine said_setClient c' (fun h => ?_) (fun h => ⟨rfl, if_neg ?_, rfl, rfl⟩) rfl
    · subst h
      rw [received, if_pos hc', hnative, Option.map_some, Option.getD_some, hwin]
      refine .receives _ (or_iff_not_imp_right.2 fun h0 => ⟨?_, hI.serves c hc'⟩)
      rw [hrv] at h0
      exact (State.reply_pos h0).2
    · rw [hc']
      exact fun h' => h (Option.some.inj h').symm
  | send c' k r a mask hc' ha =>
    have hnative : s.native (.envSend k r) = some a := Option.bind_eq_some_iff.2 ⟨c', hc', ha⟩
    refine said_setClient c' (fun h => ?_) (fun h => ⟨rfl, rfl, if_neg ?_, rfl⟩) rfl
    · subst h
      rw [written, if_pos hc', hnative, Option.map_some, Option.getD_some]
      refine .writes _ (or_iff_not_imp_right.2 fun h0 => ?_)
      have hne : (s.reply (s.clients c) k r.len.toInt.toNat r).toNat ≠ 0 := fun h => h0 <| by
        rw [Range.window, (envSend_spec ha).1, h, List.take_zero]
      exact (State.reply_pos hne).2
    · rw [hc']
      exact fun h' => h (Option.some.inj h').symm
  | done c' =>
    refine said_setClient c' (fun h => ?_) (fun _ => ⟨rfl, rfl, rfl, rfl⟩) rfl
    subst h
    exact .closes

/-- The worker receives nothing more from the client. -/
def Client.Lost (cl : Client) : Prop := cl.broken ∨ cl.closed

theorem ClientStep.inward {snt rcv wr rd : List UInt8} (h : ClientStep cl snt rcv wr rd cl') :
    (cl.Lost → cl'.Lost) ∧ (¬ cl'.Lost → cl.inbound ++ snt = rcv ++ cl'.inbound) ∧
      rcv <+: cl.inbound ∧ (cl.Lost → rcv = []) := by
  cases h with
  | idle | finishes | reads | writes =>
    exact ⟨id, fun _ => List.append_nil _, List.nil_prefix, fun _ => rfl⟩
  | sends bytes => exact ⟨id, fun _ => rfl, List.nil_prefix, fun _ => rfl⟩
  | lost bytes hl => exact ⟨id, fun hn => absurd hl hn, List.nil_prefix, fun _ => rfl⟩
  | breaks =>
    exact ⟨fun _ => .inl rfl, fun hn => absurd (.inl rfl) hn, List.nil_prefix, fun _ => rfl⟩
  | closes =>
    exact ⟨fun _ => .inr rfl, fun hn => absurd (.inr rfl) hn, List.nil_prefix, fun _ => rfl⟩
  | receives n hn =>
    refine ⟨id, fun _ => ?_, List.take_prefix _ _, fun hl => ?_⟩
    · rw [List.append_nil, List.take_append_drop]
    · rcases hn with ⟨hh, hc⟩ | rfl
      · rcases hl with hb | hc'
        · rw [Client.hungUp, hb, Bool.or_true] at hh
          cases hh
        · exact absurd hc' (Bool.eq_false_iff.1 hc)
      · rfl

theorem ClientStep.outward {snt rcv wr rd : List UInt8} (h : ClientStep cl snt rcv wr rd cl')
    (hb : cl.broken → cl.outbound = []) :
    (cl.broken → cl'.broken) ∧ (¬ cl'.broken → cl.outbound ++ wr = rd ++ cl'.outbound) ∧
      rd <+: cl.outbound ∧ (cl.broken → rd = []) ∧ (cl'.broken → cl'.outbound = []) := by
  cases h with
  | idle | finishes | sends | lost | receives | closes =>
    exact ⟨id, fun _ => List.append_nil _, List.nil_prefix, fun _ => rfl, hb⟩
  | breaks =>
    exact ⟨fun _ => rfl, fun hn => absurd rfl hn, List.nil_prefix, fun _ => rfl, fun _ => rfl⟩
  | reads n =>
    refine ⟨id, fun _ => ?_, List.take_prefix _ _, fun h => ?_, fun h => ?_⟩
    · rw [List.append_nil, List.take_append_drop]
    · rw [hb h, List.take_nil]
    · dsimp only
      rw [hb h, List.drop_nil]
  | writes bytes hn =>
    refine ⟨id, fun _ => rfl, List.nil_prefix, fun _ => rfl, fun h => ?_⟩
    rcases hn with hh | rfl
    · rw [Client.hungUp, show cl.broken = true from h, Bool.or_true] at hh
      cases hh
    · exact (List.append_nil _).trans (hb h)

@[simp] theorem State.clients_setClient_self : (s.setClient c cl).clients c = cl := by
  simp [State.setClient]

theorem State.clients_setClient_of_ne (hc : c ≠ c') :
    (s.setClient c' cl).clients c = s.clients c := by
  simp [State.setClient, hc]

/-- What is the same for the client is the same for all. -/
theorem State.get_setClient {α : Type} (f : Client → α) (hcl : f cl = f (s.clients c')) (c : ℕ) :
    f ((s.setClient c' cl).clients c) = f (s.clients c) := by
  by_cases hc : c = c'
  · subst hc
    rw [State.clients_setClient_self, hcl]
  · rw [State.clients_setClient_of_ne hc]

theorem Step.serves (hI : s.Inv) (hs : Step s e s') (hc : s'.serves = some c) :
    (s'.clients c).closed = false := by
  have hold := hI.serves c
  cases hs.change with
  | lost | sigterm | sigusr1 | resets | execute => exact hold hc
  | sends | finishes | reads | breaks =>
    exact (State.get_setClient Client.closed (by rfl) c).trans (hold hc)
  | recv | send => exact (State.get_setClient Client.closed (by rfl) c).trans (hold hc)
  | leaves | done => cases hc
  | job c' _ hclosed =>
    obtain rfl := Option.some.inj hc
    exact hclosed

theorem Step.inv (hI : s.Inv) (hs : Step s e s') : s'.Inv :=
  ⟨fun _ => hs.serves hI, fun c => ((hs.said hI).outward (hI.outbound c)).2.2.2.2⟩

/-! ## The streams -/

/-- The client's bytes on their way to the guest. -/
def inward (c : ℕ) : Conduit Step State.Inv (clientSent c) (received c) where
  held s := (s.clients c).inbound
  broken s := (s.clients c).Lost
  stays hI hs := (hs.said hI).inward.1
  balance hI hs := (hs.said hI).inward.2.1
  prefix_held hI hs := (hs.said hI).inward.2.2.1
  dry hI hs := (hs.said hI).inward.2.2.2

/-- What the guest has written, on its way to the client. -/
def outward (c : ℕ) : Conduit Step State.Inv (written c) (clientRead c) where
  held s := (s.clients c).outbound
  broken s := (s.clients c).broken
  stays hI hs := ((hs.said hI).outward (hI.outbound c)).1
  balance hI hs := ((hs.said hI).outward (hI.outbound c)).2.1
  prefix_held hI hs := ((hs.said hI).outward (hI.outbound c)).2.2.1
  dry hI hs := ((hs.said hI).outward (hI.outbound c)).2.2.2.1

theorem inv_start : State.Inv {} := ⟨fun c hc => (by cases hc), fun c hb => (by cases hb)⟩

/-- **No byte is lost, given twice, or given to another request.**  What the guest has found in its
    buffers is the beginning of what the client has sent, and what the client has read the beginning of
    what the guest was told to have sent; the rest is on its way, unless the connection was reset, or
    the worker has closed it. -/
theorem stream_of_run (hr : Run Step {} h s) (c : ℕ) :
    gathered (received c) h <+: gathered (clientSent c) h ∧
    gathered (clientRead c) h <+: gathered (written c) h ∧
    (¬ (s.clients c).broken →
      gathered (written c) h = gathered (clientRead c) h ++ (s.clients c).outbound ∧
      (¬ (s.clients c).closed →
        gathered (clientSent c) h = gathered (received c) h ++ (s.clients c).inbound)) := by
  obtain ⟨hin, hin'⟩ := hr.conduit (inward c) inv_start fun _ _ _ hI hs => hs.inv hI
  obtain ⟨hout, hout'⟩ := hr.conduit (outward c) inv_start fun _ _ _ hI hs => hs.inv hI
  exact ⟨hin, hout, fun hb => ⟨hout' hb, fun hcl => hin' fun hl => hl.elim hb hcl⟩⟩

/-! ## The answers -/

/-- What an event does to the latch. -/
def latched (l : Bool) : Event → Bool
  | .sigterm | .sigusr1 => true
  | .latchEvent => false
  | .execute resets => l && !resets
  | _ => l

/-- A signal has come since the latch was reset. -/
def Signalled : List (State × Event) → Bool
  | [] => false
  | (_, e) :: h => latched (Signalled h) e

/-- The client hangs up with the event. -/
def Event.HangsUp (c : ℕ) : Event → Prop
  | .clientFinishes c' | .breaks c' => c' = c
  | _ => False

/-- The client has hung up. -/
def HungUp (c : ℕ) (h : List (State × Event)) : Prop := ∃ p ∈ h, p.2.HangsUp c

/-- The request calls a native for the client, which answers. -/
inductive Calls (s : State) (c : ℕ) : Event → Kernel → Range → ℤ → Prop
  | recv {k : Kernel} {r : Range} {a : Answer} :
      s.serves = some c → envRecv s c k r = some a → Calls s c (.envRecv k r) k r a.rv
  | send {k : Kernel} {r : Range} {a : Answer} :
      s.serves = some c → envSend s c k r = some a → Calls s c (.envSend k r) k r a.rv

theorem Step.latch (hs : Step s e s') (hpc : s'.pc ≠ .gone) :
    s.pc ≠ .gone ∧ s'.latch = latched s.latch e := by
  cases hs.change with
  | leaves => exact absurd rfl hpc
  | job c hw => exact ⟨by rw [hw]; exact Pc.noConfusion, rfl⟩
  | done c hw => exact ⟨by rw [hw]; exact Pc.noConfusion, rfl⟩
  | _ => exact ⟨hpc, rfl⟩

theorem latch_of_run (hr : Run Step {} h s) : s.pc ≠ .gone → s.latch = Signalled h := by
  induction hr with
  | nil => exact fun _ => rfl
  | snoc _ hs ih =>
    intro hpc
    obtain ⟨hpc', hl⟩ := hs.latch hpc
    rw [hl, ih hpc', Signalled]

theorem Step.hungUp (hs : Step s e s') :
    (s'.clients c).hungUp = true ↔ (s.clients c).hungUp = true ∨ e.HangsUp c := by
  have hsame : (s'.clients c).hungUp = (s.clients c).hungUp → ¬ e.HangsUp c →
      ((s'.clients c).hungUp = true ↔ (s.clients c).hungUp = true ∨ e.HangsUp c) := fun h he => by
    rw [h, or_iff_left he]
  -- the two events that hang up
  have hup : ∀ c' cl, s'.clients = (s.setClient c' cl).clients → cl.hungUp = true →
      (e.HangsUp c ↔ c' = c) →
      ((s'.clients c).hungUp = true ↔ (s.clients c).hungUp = true ∨ e.HangsUp c) := by
    intro c' cl hs' hcl he
    rw [hs', he]
    by_cases hc : c = c'
    · subst hc
      rw [State.clients_setClient_self]
      exact iff_of_true hcl (.inr rfl)
    · rw [State.clients_setClient_of_ne hc, or_iff_left fun h => hc h.symm]
  cases hs.change with
  | finishes c' => exact hup c' _ rfl rfl Iff.rfl
  | breaks c' => exact hup c' _ rfl (Bool.or_true _) Iff.rfl
  | lost | sigterm | sigusr1 | leaves | resets | job | execute => exact hsame rfl id
  | sends | reads => exact hsame (State.get_setClient Client.hungUp (by rfl) c) id
  | recv | send | done => exact hsame (State.get_setClient Client.hungUp (by rfl) c) id

theorem hungUp_of_run (hr : Run Step {} h s) : (s.clients c).hungUp = true ↔ HungUp c h := by
  induction hr with
  | nil => exact iff_of_false Bool.false_ne_true fun ⟨_, hp, _⟩ => absurd hp List.not_mem_nil
  | @snoc h s e s' _ hs ih =>
    rw [hs.hungUp, ih, HungUp, HungUp, List.exists_mem_cons_iff, or_comm]

/-- What a native answers, by the signals and the client. -/
theorem reply_eq (hlen : 0 < r.len.toInt) (hk : k.fails = false)
    (hheld : s.latch = false → cl.hungUp = false → 0 < held) :
    s.reply cl k held r = -1 ∧ s.latch = true ∨
      s.reply cl k held r = 0 ∧ s.latch = false ∧ cl.hungUp = true ∨
      0 < s.reply cl k held r ∧ s.latch = false ∧ cl.hungUp = false := by
  rw [State.reply]
  cases hl : s.latch with
  | true => exact .inl ⟨rfl, rfl⟩
  | false =>
    cases hh : cl.hungUp with
    | true => exact .inr (.inl ⟨rfl, rfl, rfl⟩)
    | false =>
      have := hheld hl hh
      exact .inr (.inr ⟨(k.moves_ne_zero (by omega)).2 hk, rfl, rfl⟩)

/-- **What a native answers**, where the kernel does not fail: -1 if a signal has come since the latch
    was reset, or else 0 if the client has hung up, and only otherwise does it move bytes. -/
theorem answers_of_run (hr : Run Step {} h s) : MeetsPast (fun past s e => ∀ c k r rv,
    Calls s c e k r rv → 0 < r.len.toInt → k.fails = false →
      rv = -1 ∧ Signalled past = true ∨ rv = 0 ∧ Signalled past = false ∧ HungUp c past ∨
        0 < rv ∧ Signalled past = false ∧ ¬ HungUp c past) h := by
  refine hr.meetsPast fun past s e s' hr hs c k r rv hcall hlen hk => ?_
  have hlatch : s.serves = some c → s.latch = Signalled past := fun hc =>
    latch_of_run hr (by rw [serves_eq_some.1 hc]; exact Pc.noConfusion)
  rw [← hungUp_of_run hr, Bool.not_eq_true]
  cases hcall with
  | recv hc ha =>
    obtain ⟨hrv, hne, -, -⟩ := envRecv_spec ha
    rw [hrv, ← hlatch hc]
    exact reply_eq hlen hk fun hl hh => List.length_pos_of_ne_nil (hne hl hh)
  | send hc ha =>
    rw [(envSend_spec ha).1, ← hlatch hc]
    exact reply_eq hlen hk fun _ _ => by omega

/-! ## The end of the stream -/

/-- An answer of 0 to a request for bytes says that all that the client has sent was received, unless
    the connection was reset. -/
def EndsRight (past : List (State × Event)) (s : State) (e : Event) : Prop :=
  ∀ c k r a, e = .envRecv k r → s.serves = some c → envRecv s c k r = some a →
    0 < r.len.toInt → a.rv = 0 → (s.clients c).broken = false →
    gathered (received c) past = gathered (clientSent c) past

/-- The guest does not ask for bytes of a client that has shut down its side while there are some. -/
def Attentive (s : State) (e : Event) : Prop :=
  ∀ c k r, e = .envRecv k r → s.serves = some c → 0 < r.len.toInt → s.latch = false →
    (s.clients c).finished = true → (s.clients c).broken = false → (s.clients c).inbound = []

theorem State.reply_eq_zero (hlen : 0 < r.len.toInt)
    (hheld : s.latch = false → cl.hungUp = false → 0 < held) :
    s.reply cl k held r = 0 ↔ s.latch = false ∧ cl.hungUp = true := by
  rw [State.reply]
  cases hl : s.latch with
  | true => simp
  | false =>
    cases hh : cl.hungUp with
    | true => simp
    | false =>
      have := hheld hl hh
      exact iff_of_false (k.moves_ne_zero (by omega)).1 fun h => Bool.noConfusion h.2

/-- **The end of the stream**: 0 says that all was received exactly as long as the guest never asks for
    more where a client has shut down its side and there is still something to read. -/
theorem ends_iff (hr : Run Step {} h s) : MeetsPast EndsRight h ↔ Meets Attentive h := by
  refine (hr.meetsPast fun past s e s' hr hs => ?_).meets_iff
  have hI : s.Inv := (hr.always inv_start fun _ _ _ hI hs => hs.inv hI).last
  have hzero : ∀ {c k r a}, envRecv s c k r = some a → 0 < r.len.toInt →
      (a.rv = 0 ↔ s.latch = false ∧ (s.clients c).hungUp = true) := fun ha hlen => by
    obtain ⟨hrv, hne, -, -⟩ := envRecv_spec ha
    rw [hrv]
    exact State.reply_eq_zero hlen fun hl hh => List.length_pos_of_ne_nil (hne hl hh)
  have hsent : ∀ {c}, s.serves = some c → (s.clients c).broken = false →
      gathered (clientSent c) past = gathered (received c) past ++ (s.clients c).inbound :=
    fun {c} hc hb => ((stream_of_run hr c).2.2 (Bool.eq_false_iff.1 hb)).2
      (Bool.eq_false_iff.1 (hI.serves c hc))
  constructor
  · rintro hends c k r rfl hc hlen hl hf hb
    obtain ⟨a, ha, -⟩ := Option.map_eq_some_iff.1 hs
    obtain ⟨c', hc', ha⟩ := Option.bind_eq_some_iff.1 ha
    obtain rfl : c = c' := Option.some.inj (hc.symm.trans hc')
    have hrv : a.rv = 0 := (hzero ha hlen).2 ⟨hl, by rw [Client.hungUp, hf, Bool.true_or]⟩
    have heq := hends c k r a rfl hc ha hlen hrv hb
    rw [hsent hc hb] at heq
    exact List.self_eq_append_right.1 heq
  · rintro hatt c k r a rfl hc ha hlen hrv hb
    obtain ⟨hl, hh⟩ := (hzero ha hlen).1 hrv
    have hf : (s.clients c).finished = true := by
      rwa [Client.hungUp, hb, Bool.or_false] at hh
    rw [hsent hc hb, hatt c k r rfl hc hlen hl hf hb, List.append_nil]

/-! ## Runs of one client -/

/-- Three bytes of a bytea of four. -/
def threeOfFour : Range where
  bytes := [9, 9, 9, 9]
  start := 1
  len := 3
  start_nonneg := by decide
  len_nonneg := by decide
  fits := by decide

/-- A client sends three bytes, and shuts down its side when the guest has received two of them. -/
def hastyRun : List Event := [.clientSends 7 [1, 2, 3], .job 7, .envRecv { count := 2 } threeOfFour,
  .envSend {} threeOfFour, .clientReads 7 5, .clientFinishes 7, .envRecv {} threeOfFour]

/-- The third byte is sent when the worker has been signalled. -/
def signalledRun : List Event := [.clientSends 7 [1, 2], .job 7, .envRecv { count := 2 } threeOfFour,
  .sigusr1, .clientSends 7 [3], .envRecv {} threeOfFour]

/-- The history of some events. -/
def history (l : List Event) : List (State × Event) := trail State.step {} l []

theorem exists_run {l : List Event} (hl : (execs State.step {} l).any (fun _ => true) = true) :
    ∃ s, Run Step {} (history l) s :=
  (exists_run_of_execs (fun _ _ _ h => h) hl).imp fun _ h => h.1

theorem hasty_stream : gathered (received 7) (history hastyRun) = [1, 2] ∧
    gathered (received 7) (history hastyRun) <+: gathered (clientSent 7) (history hastyRun) := by
  obtain ⟨s, hr⟩ := exists_run (l := hastyRun) (by decide)
  exact ⟨by decide, (stream_of_run hr 7).1⟩

theorem signalled_silent : ∃ past s e, history signalledRun = (s, e) :: past ∧
    Signalled past = true ∧ ∀ rv, Calls s 7 e {} threeOfFour rv → rv = -1 := by
  obtain ⟨s, hr⟩ := exists_run (l := signalledRun) (by decide)
  refine ⟨_, _, _, rfl, by decide, fun rv hcall => ?_⟩
  obtain ⟨hrv, -⟩ | ⟨-, hl, -⟩ | ⟨-, hl, -⟩ :=
    (answers_of_run hr).1 7 _ _ _ hcall (by decide) rfl
  · exact hrv
  · exact absurd hl (by decide)
  · exact absurd hl (by decide)

/-- The guest is told that the stream has ended, and the third byte is never received. -/
theorem hasty_ends : ¬ MeetsPast EndsRight (history hastyRun) := by
  obtain ⟨s, hr⟩ := exists_run (l := hastyRun) (by decide)
  rw [ends_iff hr]
  intro hatt
  have h := hatt _ List.mem_cons_self 7 {} threeOfFour rfl rfl (by decide) rfl rfl rfl
  exact absurd h (by decide)

end Rustica.Conversation
