/-
  What the handlers of `main_loop` can do.

  For the loop over the idle ring there is a rule (`dispatchIdle_rule`), for the branches of
  `on_backend` an inversion (`onBackend_cases`), and each handler is a sequence of the updates of
  `Prim`.  It follows that the socket table and the naming of descriptors are right in every
  reachable state.
-/
import Rustica.Slots

namespace Rustica

open Exec

variable {m m' : Master} {k : ℤ} {env : Env} {ev : WaitEvent} {b c sock : Pgsocket}
  {events : Events}

/-! ## `on_frontend` -/

/-- The slot holds a connection to which `sendmsg` succeeds. -/
def Takes (m : Master) (env : Env) (k : ℤ) : Prop :=
  (m.sockets k).type = .backend ∧ env.sendmsg (m.sockets k).fd = true

/-- **Rule for the loop over the idle ring.**  What its rounds keep holds at its end: either the
    ring is empty, or the last round has handed the client over. -/
theorem dispatchIdle_rule {I : Master → Prop} (env : Env) (sock : Pgsocket)
    (hskip : ∀ m, I m → 0 < m.idle.size → (m.sockets m.idle.front).type ≠ .backend → I m.popIdle)
    (hbroken : ∀ m, I m → 0 < m.idle.size → (m.sockets m.idle.front).type = .backend →
      ¬ Takes m env m.idle.front →
      I ((m.popIdle.emit (.sendFailed (m.sockets m.idle.front).fd sock)).closeSocket m.idle.front))
    {n : ℕ} (hn : n = m.idle.size) (hm : I m) :
    ((dispatchIdle env sock n m).1 = false ∧ I (dispatchIdle env sock n m).2 ∧
        (dispatchIdle env sock n m).2.idle.size = 0) ∨
      ((dispatchIdle env sock n m).1 = true ∧ ∃ m₁, I m₁ ∧ 0 < m₁.idle.size ∧
        Takes m₁ env m₁.idle.front ∧
        (dispatchIdle env sock n m).2 = handOver m₁.popIdle m₁.idle.front sock) := by
  induction n generalizing m with
  | zero => exact .inl ⟨rfl, hm, hn.symm⟩
  | succ n ih =>
    have hpos : 0 < m.idle.size := by omega
    have hpop : n = m.popIdle.idle.size := by
      change n = m.idle.size - 1; omega
    simp only [dispatchIdle]
    by_cases ht : (m.sockets m.idle.front).type = .backend
    · rw [if_pos (show (m.popIdle.sockets m.idle.front).type = .backend from ht)]
      split
      · exact .inr ⟨rfl, m, hm, hpos, ⟨ht, ‹_›⟩, rfl⟩
      · exact ih hpop (hbroken m hm hpos ht fun h => ‹¬ _› h.2)
    · rw [if_neg (show (m.popIdle.sockets m.idle.front).type ≠ .backend from ht)]
      exact ih hpop (hskip m hm hpos ht)

/-- Without a client nothing happens. -/
theorem onFrontend_idle (h : events.readable = false ∨ env.acceptClient = pgInvalidSocket) :
    onFrontend m env events = m := by
  rcases h with h | h <;> simp [onFrontend, h]

theorem onFrontend_accept (h : events.readable = true) (hc : env.acceptClient ≠ pgInvalidSocket) :
    onFrontend m env events =
      let m₁ := m.emit (.acceptClient env.acceptClient)
      let r := dispatchIdle env env.acceptClient m.idle.size m₁
      if r.1 then r.2 else enqueue (spawnWorker r.2 env) env.acceptClient := by
  simp only [onFrontend, h, hc, Bool.not_true, Bool.false_eq_true, if_false]
  rfl

/-! ## `on_backend` -/

/-- The bytes that `recv` returns complete the hello of the slot. -/
def Completes (s : Socket) (env : Env) (events : Events) : Prop :=
  events.closed = false ∧ events.readable = true ∧ s.readOffset < helloLen ∧
    ∃ bytes, env.recv = some bytes ∧ helloLen - s.readOffset ≤ bytes.length ∧
      ∀ j < 8 - s.readOffset, backendHello[s.readOffset + j]? = bytes[j]?

/-- What `on_backend` does apart from completing a hello. -/
inductive Incomplete (m : Master) (env : Env) (k : ℤ) (events : Events) : Master → Prop
  | quiet : Incomplete m env k events m
  | closed : Incomplete m env k events (m.closeSocket k)
  | deaf : helloLen ≤ (m.sockets k).readOffset → events.readable = true →
      Incomplete m env k events (m.modify k wlSocketClosed)
  | recvFailed : Incomplete m env k events ((m.closeSocket k).setSocket k { readOffset := 255 })
  | badHello (bytes : List UInt8) : Incomplete m env k events
      ((m.emit (.received (m.sockets k).fd bytes)).closeSocket k)
  | piece (bytes : List UInt8) (w : ℕ → UInt8) :
      (m.sockets k).readOffset + bytes.length < helloLen →
      (∀ j < bytes.length, (m.sockets k).readOffset + j < 8 →
        backendHello[(m.sockets k).readOffset + j]? = bytes[j]?) → Incomplete m env k events
      ((m.emit (.received (m.sockets k).fd bytes)).setSocket k
        { m.sockets k with readOffset := (m.sockets k).readOffset + bytes.length, workerId := w })

/-- The state in which the completed hello is dealt with. -/
def helloState (m : Master) (k : ℤ) (bytes : List UInt8) : Master :=
  let s := m.sockets k
  let buf := bytes.take (helloLen - s.readOffset)
  (m.emit (.received s.fd buf)).setSocket k
    { s with workerId := copyBytes s.workerId (s.readOffset - 8) (buf.drop (8 - s.readOffset)) }

@[simp] theorem Master.setSocket_self (m : Master) (k : ℤ) (s : Socket) :
    (m.setSocket k s).sockets k = s := by simp [Master.setSocket]

theorem Master.setSocket_of_ne (m : Master) {j k : ℤ} (s : Socket) (h : j ≠ k) :
    (m.setSocket k s).sockets j = m.sockets j := Function.update_of_ne h _ _

@[simp] theorem Master.closeSocket_self (m : Master) (k : ℤ) :
    (m.closeSocket k).sockets k = {} := by simp [Master.closeSocket]

theorem Master.closeSocket_of_ne (m : Master) {j k : ℤ} (h : j ≠ k) :
    (m.closeSocket k).sockets j = m.sockets j := Function.update_of_ne h _ _

theorem setSocket_setSocket (m : Master) (k : ℤ) (s s' : Socket) :
    (m.setSocket k s).setSocket k s' = m.setSocket k s' := by
  simp [Master.setSocket]

/-- The comparison loop sees the bytes that were taken. -/
theorem compare_iff {i : ℕ} (ro : ℕ) (bytes : List UInt8) (hi : i ≤ helloLen - ro) :
    ((List.range i).all fun j =>
        backendHello[ro + j]? = (bytes.take (helloLen - ro))[j]?) = true ↔
      ∀ j < i, backendHello[ro + j]? = bytes[j]? := by
  simp only [List.all_eq_true, List.mem_range, decide_eq_true_eq]
  refine forall₂_congr fun j hj => ?_
  rw [List.getElem?_take_of_lt (by omega)]

/-- **Inversion of what follows `recv`.** -/
theorem onReceived_cases {bytes : List UInt8} (hro : (m.sockets k).readOffset < helloLen)
    (hcl : events.closed = false) (hrd : events.readable = true) (hrecv : env.recv = some bytes) :
    let buf := bytes.take (helloLen - (m.sockets k).readOffset)
    let m' := onReceived (m.emit (.received (m.sockets k).fd buf)) env k buf buf.length
    (¬ Completes (m.sockets k) env events ∧ Incomplete m env k events m') ∨
      (Completes (m.sockets k) env events ∧ m' = onHello (helloState m k bytes) env k) := by
  intro buf m'
  set s := m.sockets k with hs
  have hlen : buf.length = min (helloLen - s.readOffset) bytes.length := List.length_take
  simp only [helloLen] at hro hlen
  -- where the comparison ends
  obtain ⟨i, hi⟩ : ∃ i, i = (min (8 - (s.readOffset : ℤ)) (buf.length : ℤ)).toNat := ⟨_, rfl⟩
  have hcomp := compare_iff (i := i) s.readOffset bytes (by simp only [helloLen]; omega)
  have hm' : m' = onReceived (m.emit (.received s.fd buf)) env k buf buf.length := rfl
  simp only [onReceived, show (m.emit (.received s.fd buf)).sockets k = s from rfl] at hm'
  rw [← hi] at hm'
  by_cases hall : ∀ j < i, backendHello[s.readOffset + j]? = bytes[j]?
  swap
  · rw [if_neg (mt hcomp.1 hall)] at hm'
    refine .inl ⟨fun h => hall fun j hj => ?_, hm' ▸ .badHello buf⟩
    obtain ⟨_, hb, -, hmatch⟩ := h.2.2.2
    rw [hrecv, Option.some.injEq] at hb
    exact hb ▸ hmatch j (by omega)
  rw [if_pos (hcomp.2 hall)] at hm'
  have hnext : ∀ w : ℕ → UInt8, s.readOffset + buf.length < helloLen → (¬ Completes s env events ∧
      Incomplete m env k events ((m.emit (.received s.fd buf)).setSocket k
        { s with readOffset := s.readOffset + buf.length, workerId := w })) := by
    intro w hlt
    refine ⟨fun h => ?_, .piece buf w hlt fun j hj hj8 => ?_⟩
    swap
    · change s.readOffset + j < 8 at hj8
      have hjlen : j < helloLen - s.readOffset := by simp only [helloLen]; omega
      exact (hall j (by omega)).trans (List.getElem?_take_of_lt hjlen).symm
    obtain ⟨_, hb, hle, -⟩ := h.2.2.2
    rw [hrecv, Option.some.injEq] at hb
    subst hb
    simp only [helloLen] at hlt hle; omega
  have hmod : s.readOffset + buf.length < helloLen →
      (((s.readOffset : ℤ) + buf.length) % 256).toNat = s.readOffset + buf.length := by
    simp only [helloLen]; omega
  by_cases hgt : 0 < (buf.length : ℤ) - i
  · rw [if_pos hgt] at hm'
    by_cases h12 : (s.readOffset : ℤ) + buf.length = helloLen
    · rw [if_pos h12] at hm'
      simp only [helloLen] at h12
      have hi8 : i = 8 - s.readOffset := by omega
      refine .inr ⟨⟨hcl, hrd, hro, bytes, hrecv, by simp only [helloLen]; omega, ?_⟩, ?_⟩
      · exact fun j hj => hall j (by omega)
      · rw [hm', hi8]; rfl
    · rw [if_neg h12] at hm'
      simp only [helloLen] at h12
      have hlt : s.readOffset + buf.length < helloLen := by simp only [helloLen]; omega
      refine .inl ?_
      rw [hm']
      simp only [setSocket_setSocket, Master.setSocket_self, hmod hlt]
      exact hnext _ hlt
  · rw [if_neg hgt] at hm'
    have hlt : s.readOffset + buf.length < helloLen := by simp only [helloLen]; omega
    refine .inl ?_
    rw [hm', hmod hlt]
    exact hnext s.workerId hlt

/-- After a failed `recv` the slot is closed, and its offset becomes 255. -/
theorem onBackend_recvFailed (hcl : events.closed = false) (hrd : events.readable = true)
    (hro : (m.sockets k).readOffset < helloLen) (hrecv : env.recv = none) :
    onBackend m env k events = (m.closeSocket k).setSocket k { readOffset := 255 } := by
  rw [onBackend, if_neg (Bool.eq_false_iff.1 hcl), if_pos hrd]
  simp only [if_neg (Nat.not_le.2 hro), hrecv]
  simp [onReceived, Master.closeSocket, Master.setSocket]

/-- **Inversion of `on_backend`.** -/
theorem onBackend_cases (m : Master) (env : Env) (k : ℤ) (events : Events) :
    (¬ Completes (m.sockets k) env events ∧
        Incomplete m env k events (onBackend m env k events)) ∨
      (Completes (m.sockets k) env events ∧ ∃ bytes, env.recv = some bytes ∧
        onBackend m env k events = onHello (helloState m k bytes) env k) := by
  by_cases hcl : events.closed = true
  · refine .inl ⟨fun h => by simp [h.1] at hcl, ?_⟩
    rw [onBackend, if_pos hcl]; exact .closed
  by_cases hrd : events.readable = true
  swap
  · refine .inl ⟨fun h => hrd h.2.1, ?_⟩
    rw [onBackend, if_neg hcl, if_neg hrd]; exact .quiet
  by_cases hro : helloLen ≤ (m.sockets k).readOffset
  · refine .inl ⟨fun h => absurd h.2.2.1 (by omega), ?_⟩
    rw [onBackend, if_neg hcl, if_pos hrd]
    simp only [if_pos hro]; exact .deaf hro hrd
  cases hrecv : env.recv with
  | none =>
    refine .inl ⟨fun h => by obtain ⟨_, hb, _⟩ := h.2.2.2; simp [hrecv] at hb, ?_⟩
    rw [onBackend_recvFailed (Bool.eq_false_iff.2 hcl) hrd (Nat.not_le.1 hro) hrecv]
    exact .recvFailed
  | some bytes =>
    rw [onBackend, if_neg hcl, if_pos hrd]
    simp only [if_neg hro, hrecv]
    refine (onReceived_cases (by omega) (by simpa using hcl) hrd hrecv).imp_right ?_
    exact fun h => ⟨h.1, bytes, rfl, h.2⟩

/-! ## The handlers as sequences of updates -/

theorem Live.of_eq (hk : Live m k) (ht : m'.totalSockets = m.totalSockets)
    (hs : (m'.sockets k).type = (m.sockets k).type) : Live m' k :=
  ⟨by simpa only [Master.inRange, ht] using hk.range, hs.trans hk.type⟩

theorem Live.setSocket (hk : Live m k) {j : ℤ} {s : Socket}
    (hs : s.type = (m.sockets j).type) : Live (m.setSocket j s) k := by
  refine hk.of_eq rfl ?_
  by_cases h : k = j
  · subst h; simpa using hs
  · simp [Master.setSocket, h]

theorem onBackendConnect_idle (h : events.readable = false ∨ env.acceptIpc = pgInvalidSocket) :
    onBackendConnect m env events = m := by
  rcases h with h | h <;> simp [onBackendConnect, h]

/-- The slot that was filled in has position -1 exactly when the set was full. -/
theorem onBackendConnect_accept (hm : Table m) (h : events.readable = true)
    (hc : env.acceptIpc ≠ pgInvalidSocket) :
    onBackendConnect m env events =
      let m₁ := (m.emit (.acceptBackend env.acceptIpc)).openSocket .backend env.acceptIpc
        backendEvents
      if m.rmWaitSet.used = m.rmWaitSet.waitSet.neventsSpace then m₁.emit (.close env.acceptIpc)
      else m₁ := by
  have hpos : ((((m.emit (.acceptBackend env.acceptIpc)).openSocket .backend env.acceptIpc
      backendEvents).sockets (nextWaitEventPos m.rmWaitSet)).pos ≠ -1) ↔
      ¬ m.rmWaitSet.used = m.rmWaitSet.waitSet.neventsSpace := by
    simp only [Master.openSocket, Master.emit, Master.setSocket_self]
    by_cases hf : m.rmWaitSet.used = m.rmWaitSet.waitSet.neventsSpace
    · simp [hf, add_of_full hf]
    · have := (hm.next hf).1.1
      rw [add_fst hf]
      simp only [hf, not_false_eq_true, iff_true]; omega
  simp only [onBackendConnect, h, hc, Bool.not_true, Bool.false_eq_true, if_false, hpos]
  exact ite_not _ _ _

/-- **Rule for `on_backend_connect`**: nothing happens, or a connection is accepted into a slot, or it
    is closed again since there is none. -/
theorem onBackendConnect_rule {I : Master → Prop} (events : Events) (ht : Table m) (hm : I m)
    (hroom : events.readable = true → env.acceptIpc ≠ pgInvalidSocket →
      m.rmWaitSet.used ≠ m.rmWaitSet.waitSet.neventsSpace →
      I ((m.emit (.acceptBackend env.acceptIpc)).openSocket .backend env.acceptIpc backendEvents))
    (hfull : events.readable = true → env.acceptIpc ≠ pgInvalidSocket →
      m.rmWaitSet.used = m.rmWaitSet.waitSet.neventsSpace →
      I (((m.emit (.acceptBackend env.acceptIpc)).openSocket .backend env.acceptIpc
        backendEvents).emit (.close env.acceptIpc))) : I (onBackendConnect m env events) := by
  by_cases hr : events.readable = true
  swap
  · rw [onBackendConnect_idle (.inl (by simpa using hr))]
    exact hm
  by_cases hc : env.acceptIpc = pgInvalidSocket
  · rw [onBackendConnect_idle (.inr hc)]
    exact hm
  rw [onBackendConnect_accept ht hr hc]
  dsimp only
  split
  · exact hfull hr hc ‹_›
  · exact hroom hr hc ‹_›

theorem onBackendConnect_prims (events : Events) (hm : Table m) (hf : Fresh m env) :
    Prims m (onBackendConnect m env events) :=
  onBackendConnect_rule (I := Prims m) events hm .refl
    (fun _ _ h => .single (.opened hf.ipc h)) fun _ _ h => .single (.overflow hf.ipc h)

theorem enqueue_prims (hc : c ∈ m.clients) : Prims m (enqueue m c) := by
  unfold enqueue
  split
  · dsimp only
    have hpush : Prims m { m with jobs := m.jobs.push jobQlen c } := .single (.pushJob hc ‹_›)
    split
    · exact hpush.tail (.frontends true)
    · exact hpush
  · exact .single (.dropped hc)

theorem spawnWorker_prims (m : Master) (env : Env) : Prims m (spawnWorker m env) :=
  .single (.spawn env)

theorem handOver_prims (hk : Live m k) (hc : c ∈ m.clients) : Prims m (handOver m k c) := by
  have hsent : Prims m (m.emit (.sent (m.sockets k).fd c)) := .single (.noted hk (.sent c))
  have hc : c ∈ (m.emit (.sent (m.sockets k).fd c)).clients := hc
  exact (hsent.tail (.dropped hc)).tail (.interest rfl ⟨hk.range, hk.type⟩)

/-- The trace only grows. -/
theorem Prim.trace (h : Prim m m') : m.trace <:+ m'.trace := by
  cases h with
  | opened _ _ | accepted _ | noted _ _ | dropped _ | closed _ => exact List.suffix_cons _ _
  | overflow _ _ => exact (List.suffix_cons _ _).trans (List.suffix_cons _ _)
  | frontends p =>
    obtain ⟨s, hs⟩ := modifyFrontends_rest { m with frontendPaused := p } (frontendEvents p)
    rw [hs]
  | spawn env =>
    obtain ⟨seq, n, hs, he⟩ := spawnWorker_rest m env
    rw [he]
  | scratch _ _ | interest _ _ | popIdle _ | pushIdle _ | pushJob _ _ | popJob _ | reap _ | halt =>
    exact List.suffix_rfl

theorem Prims.trace (h : Prims m m') : m.trace <:+ m'.trace := by
  induction h with
  | refl => exact List.suffix_rfl
  | tail _ h ih => exact ih.trans h.trace

theorem Prims.clients_sub (h : Prims m m') (hc : c ∈ m.clients) : c ∈ m'.clients :=
  (h.trace.sublist.filterMap _).subset hc

theorem broken_prims (hk : Live m k) (hpos : 0 < m.idle.size) : Prims m
    ((m.popIdle.emit (.sendFailed (m.sockets k).fd c)).closeSocket k) := by
  have hpop : Prims m m.popIdle := .single (.popIdle hpos)
  have hnote := hpop.tail (.noted (k := k) ⟨hk.range, hk.type⟩ (.sendFailed c))
  exact hnote.tail (.closed ⟨hk.range, hk.type⟩)

/-- A client arrives: the descriptor is new, and accepted on a listener that is ready. -/
structure Arrives (m : Master) (env : Env) (events : Events) : Prop where
  ready : events.readable = true
  valid : env.acceptClient ≠ pgInvalidSocket
  fresh : env.acceptClient ∉ m.opened

/-- How `on_frontend` ends, from the state `m` after its loop. -/
inductive Settled (m : Master) (env : Env) : Master → Prop
  | handed : 0 < m.idle.size → Live m m.idle.front → Takes m env m.idle.front →
      Settled m env (handOver m.popIdle m.idle.front env.acceptClient)
  | kept : m.idle.size = 0 → Settled m env (enqueue (spawnWorker m env) env.acceptClient)

/-- **Rule for `on_frontend`.**  Without a client nothing happens.  With one, what the rounds of the
    loop keep holds when the client is handed over, queued or turned away. -/
theorem onFrontend_rule {I : Master → Prop} (events : Events) (ht : Table m) (hf : Fresh m env)
    (hm : I (m.emit (.acceptClient env.acceptClient)))
    (hskip : ∀ m', Prims m m' → I m' → 0 < m'.idle.size → ¬ Takes m' env m'.idle.front →
      I m'.popIdle)
    (hbroken : ∀ m', Prims m m' → Live m' m'.idle.front → 0 < m'.idle.size →
      ¬ Takes m' env m'.idle.front → I m' →
      I ((m'.popIdle.emit (.sendFailed (m'.sockets m'.idle.front).fd env.acceptClient)).closeSocket
        m'.idle.front)) :
    (¬ Arrives m env events ∧ onFrontend m env events = m) ∨
      (Arrives m env events ∧ ∃ m', Prims m m' ∧ env.acceptClient ∈ m'.clients ∧ I m' ∧
        Settled m' env (onFrontend m env events)) := by
  by_cases hr : events.readable = true
  swap
  · exact .inl ⟨fun h => hr h.ready, onFrontend_idle (.inl (by simpa using hr))⟩
  by_cases hc : env.acceptClient = pgInvalidSocket
  · exact .inl ⟨fun h => h.valid hc, onFrontend_idle (.inr hc)⟩
  refine .inr ⟨⟨hr, hc, hf.client⟩, ?_⟩
  rw [onFrontend_accept hr hc]
  have h₀ : Prims m (m.emit (.acceptClient env.acceptClient)) := .single (.accepted hf.client)
  have hmem : ∀ {m'}, Prims (m.emit (.acceptClient env.acceptClient)) m' →
      env.acceptClient ∈ m'.clients :=
    fun h => h.clients_sub (by simp [Master.clients, Master.emit])
  have hlive : ∀ {m'}, Prims (m.emit (.acceptClient env.acceptClient)) m' →
      (m'.sockets m'.idle.front).type = .backend → Live m' m'.idle.front :=
    fun h ht' => ⟨(Prims.table (h₀.trans h) ht).idle _, ht'⟩
  have hrule := dispatchIdle_rule env env.acceptClient
    (I := fun m' => Prims (m.emit (.acceptClient env.acceptClient)) m' ∧ I m') (n := m.idle.size)
    (m := m.emit (.acceptClient env.acceptClient))
    (fun m' h hpos ht' => ⟨h.1.tail (.popIdle hpos),
      hskip m' (h₀.trans h.1) h.2 hpos fun hT => ht' hT.1⟩)
    (fun m' h hpos ht' hT => ⟨h.1.trans (broken_prims (hlive h.1 ht') hpos),
      hbroken m' (h₀.trans h.1) (hlive h.1 ht') hpos hT h.2⟩) rfl ⟨.refl, hm⟩
  dsimp only
  rcases hrule with ⟨h1, h2, h0⟩ | ⟨h1, m₁, h2, hpos, ht', h3⟩
  · refine ⟨_, h₀.trans h2.1, hmem h2.1, h2.2, ?_⟩
    rw [h1]; exact .kept h0
  · refine ⟨m₁, h₀.trans h2.1, hmem h2.1, h2.2, ?_⟩
    rw [if_pos h1, h3]; exact .handed hpos (hlive h2.1 ht'.1) ht'

theorem Settled.prims (h : Settled m env m') (hc : env.acceptClient ∈ m.clients) :
    Prims m m' := by
  cases h with
  | handed hpos hk _ =>
    have hpop : Prims m m.popIdle := .single (.popIdle hpos)
    exact hpop.trans (handOver_prims ⟨hk.range, hk.type⟩ hc)
  | kept _ =>
    have hs := spawnWorker_prims m env
    exact hs.trans (enqueue_prims (hs.clients_sub hc))

theorem onFrontend_prims (events : Events) (hm : Table m) (hf : Fresh m env) :
    Prims m (onFrontend m env events) := by
  have hrule := onFrontend_rule events (I := fun _ => True) hm hf trivial
    (fun _ _ _ _ _ => trivial) (fun _ _ _ _ _ _ => trivial)
  rcases hrule with ⟨-, h⟩ | ⟨-, m', h, hc, -, hs⟩
  · rw [h]
  · exact h.trans (hs.prims hc)

theorem helloRead_prims (hk : Live m k) : Prims m (helloRead m k) :=
  .tail (.single (.noted hk .hello)) (.scratch (k := k) 0 (m.sockets k).workerId)

theorem helloRead_sockets : (helloRead m k).sockets k = { m.sockets k with readOffset := 0 } := by
  simp [helloRead]

theorem helloRead_live (hk : Live m k) : Live (helloRead m k) k :=
  ⟨hk.range, by rw [helloRead_sockets]; exact hk.type⟩

theorem helloRead_noted {a : Act} (hk : Live m k) (ha : About (m.sockets k).fd a) :
    Prim (helloRead m k) ((helloRead m k).emit a) :=
  .noted (helloRead_live hk) (by rwa [helloRead_sockets])

/-- How a complete hello is dealt with: the worker is noted as idle where no client is queued, else
    it is sent one. -/
inductive Greeted (m : Master) (env : Env) (k : ℤ) : Master → Prop
  | idle : m.jobs.size = 0 → Greeted m env k
      { (helloRead m k).modify k wlSocketClosed with
        idle := m.idle.push m.totalSockets (m.sockets k).pos }
  | sent : 0 < m.jobs.size → env.sendmsg (m.sockets k).fd = true → Greeted m env k
      (resumeFrontends { (helloRead m k).emit (.sent (m.sockets k).fd m.jobs.front) with
        jobs := m.jobs.pop jobQlen })
  | failed : 0 < m.jobs.size → env.sendmsg (m.sockets k).fd = false → Greeted m env k
      (((helloRead m k).emit (.sendFailed (m.sockets k).fd m.jobs.front)).closeSocket k)

/-- **Inversion of a complete hello.** -/
theorem onHello_cases (m : Master) (env : Env) (k : ℤ) : Greeted m env k (onHello m env k) := by
  have hjobs : (helloRead m k).jobs = m.jobs := rfl
  simp only [onHello, hjobs]
  split
  · split
    · exact .sent ‹_› ‹_›
    · exact .failed ‹_› (Bool.eq_false_iff.2 ‹_›)
  · have hpos : ((helloRead m k).sockets k).pos = (m.sockets k).pos := by rw [helloRead_sockets]
    simp only [modify_sockets, hpos]
    exact .idle (by omega)

theorem resumeFrontends_prims (m : Master) : Prims m (resumeFrontends m) := by
  unfold resumeFrontends
  split
  · exact .single (.frontends false)
  · exact .refl

theorem Greeted.prims (h : Greeted m env k m') (hk : Live m k) : Prims m m' := by
  have hread := helloRead_prims hk
  have hk' := helloRead_live hk
  cases h with
  | idle _ =>
    have hint : Prims m ((helloRead m k).modify k wlSocketClosed) :=
      hread.tail (.interest rfl hk')
    have hpush : Prims m _ := hint.tail (.pushIdle ⟨hk'.range, hk'.type⟩)
    simp only [modify_sockets, helloRead_sockets] at hpush
    exact hpush
  | sent hpos _ =>
    have hsent := hread.tail (helloRead_noted hk (.sent m.jobs.front))
    exact (hsent.tail (.popJob hpos)).trans (resumeFrontends_prims _)
  | failed _ _ =>
    have hfail := hread.tail (helloRead_noted hk (.sendFailed m.jobs.front))
    exact hfail.tail (.closed ⟨hk'.range, hk'.type⟩)

theorem onHello_prims (hk : Live m k) : Prims m (onHello m env k) :=
  (onHello_cases m env k).prims hk

theorem Incomplete.prims (h : Incomplete m env k events m') (hk : Live m k) : Prims m m' := by
  cases h with
  | quiet => exact .refl
  | closed => exact .single (.closed hk)
  | deaf _ _ => exact .single (.interest rfl hk)
  | recvFailed =>
    have h := Relation.ReflTransGen.single (Prim.closed hk)
    have h' := h.tail (.scratch (k := k) 255 (fun _ => 0))
    simpa [Master.closeSocket] using h'
  | badHello bytes =>
    have h := Relation.ReflTransGen.single (Prim.noted hk (.received bytes))
    exact h.tail (.closed ⟨hk.range, hk.type⟩)
  | piece bytes w _ _ =>
    have h := Relation.ReflTransGen.single (Prim.noted hk (.received bytes))
    exact h.tail (.scratch (k := k) _ w)

theorem helloState_prims (hk : Live m k) (bytes : List UInt8) : Prims m (helloState m k bytes) := by
  have h := Relation.ReflTransGen.single (Prim.noted hk (.received
    (bytes.take (helloLen - (m.sockets k).readOffset))))
  exact h.tail (.scratch (k := k) _ _)

theorem helloState_fd (bytes : List UInt8) :
    ((helloState m k bytes).sockets k).fd = (m.sockets k).fd := by simp [helloState]

theorem helloState_live (hk : Live m k) (bytes : List UInt8) : Live (helloState m k bytes) k :=
  ⟨hk.range, by simpa [helloState] using hk.type⟩

theorem onBackend_prims (hk : Live m k) : Prims m (onBackend m env k events) := by
  rcases onBackend_cases m env k events with ⟨-, h⟩ | ⟨-, bytes, -, h⟩
  · exact h.prims hk
  · rw [h]
    exact (helloState_prims hk bytes).trans (onHello_prims (helloState_live hk bytes))

/-! ## One handler for each event -/

/-- A slot in use by a listener keeps its type. -/
theorem Prim.type_eq (h : Prim m m') (hm : Table m) (hk : m.inRange k)
    (hb : (m.sockets k).type ≠ .backend) (hu : (m.sockets k).type ≠ .unset) :
    (m'.sockets k).type = (m.sockets k).type := by
  have h0 : k ≠ 0 := by
    rintro rfl; exact hu hm.zero.1
  have hused := (hm.live k h0 hk).1 hu
  cases h with
  | opened _ hsp =>
    have hne : k ≠ nextWaitEventPos m.rmWaitSet := fun h => (hm.next hsp).2 (h ▸ hused)
    simp [Master.openSocket, Master.setSocket, Master.emit, Function.update_of_ne hne]
  | overflow _ hsp =>
    have hne : k ≠ -1 := by have := hk.1; omega
    simp [Master.openSocket, Master.setSocket, Master.emit, next_of_full hsp,
      Function.update_of_ne hne]
  | @closed j hj =>
    have hne : k ≠ j := by
      rintro rfl; exact hb hj.type
    simp [Master.closeSocket, Master.setSocket, Function.update_of_ne hne, Master.emit]
  | @scratch j ro w =>
    by_cases hne : k = j
    · subst hne; simp
    · simp [Master.setSocket, hne]
  | frontends p =>
    obtain ⟨s, hs⟩ := modifyFrontends_rest { m with frontendPaused := p } (frontendEvents p)
    rw [hs]
  | spawn env =>
    obtain ⟨seq, n, hs, he⟩ := spawnWorker_rest m env
    rw [he]
  | accepted _ | noted _ _ | dropped _ | interest _ _ | popIdle _ | pushIdle _ | pushJob _ _
  | popJob _ | reap _ | halt => rfl

theorem Prim.totalSockets_eq (h : Prim m m') : m'.totalSockets = m.totalSockets := by
  cases h with
  | frontends p =>
    obtain ⟨s, hs⟩ := modifyFrontends_rest { m with frontendPaused := p } (frontendEvents p)
    rw [hs]
  | spawn env =>
    obtain ⟨seq, n, hs, he⟩ := spawnWorker_rest m env
    rw [he]
  | _ => rfl

theorem Prims.totalSockets_eq (h : Prims m m') : m'.totalSockets = m.totalSockets := by
  induction h with
  | refl => rfl
  | tail _ h ih => exact h.totalSockets_eq.trans ih

theorem Prims.type_eq (h : Prims m m') (hm : Table m) (hk : m.inRange k)
    (hb : (m.sockets k).type ≠ .backend) (hu : (m.sockets k).type ≠ .unset) :
    (m'.sockets k).type = (m.sockets k).type := by
  induction h with
  | refl => rfl
  | tail h h' ih =>
    rw [← ih] at hb hu ⊢
    exact h'.type_eq (Prims.table h hm)
      (by simpa only [Master.inRange, Prims.totalSockets_eq h] using hk) hb hu

/-- The handler for the type of the slot. -/
def handler (m : Master) (env : Env) (k : ℤ) (events : Events) : Master :=
  match (m.sockets k).type with
  | .unset => m
  | .ipc => onBackendConnect m env events
  | .frontend => onFrontend m env events
  | .backend => onBackend m env k events

/-- **One event, one handler**: though the type of the slot is read three times, a handler never
    turns its slot into one of another handler. -/
theorem callHandlers_eq (hm : Table m) (hk : m.inRange k) (hf : Fresh m env) :
    callHandlers m env k events = handler m env k events := by
  unfold callHandlers handler
  cases ht : (m.sockets k).type with
  | unset => simp [ht]
  | ipc =>
    have h := (onBackendConnect_prims events hm hf).type_eq hm hk
      (by simp [ht]) (by simp [ht])
    rw [ht] at h
    simp [h]
  | frontend =>
    have h := (onFrontend_prims events hm hf).type_eq hm hk
      (by simp [ht]) (by simp [ht])
    rw [ht] at h
    simp [h, ht]
  | backend => simp [ht]

theorem handler_prims (hm : Table m) (hk : m.inRange k) (hf : Fresh m env) :
    Prims m (handler m env k events) := by
  unfold handler
  split
  · exact .refl
  · exact onBackendConnect_prims events hm hf
  · exact onFrontend_prims events hm hf
  · exact onBackend_prims ⟨hk, ‹_›⟩

/-- `m'` differs from `m` in what is known of the workers at most. -/
def Latched (m m' : Master) : Prop :=
  Prims m m' ∧ ∃ n hs d, m' = { m with numWorkers := n, workerHandles := hs, workerDied := d }

theorem Latched.prims (h : Latched m m') : Prims m m' := h.1

/-- The latch part ends the loop, or leaves the sockets and the queues alone. -/
theorem onLatch_cases (env : Env) (events : Events) (hh : m.halted = false) :
    (events.latchSet = true ∧ m.shutdownRequested = true ∧
      onLatch m env events = { m with halted := true }) ∨
    ((events.latchSet = true → m.shutdownRequested = false) ∧
      (onLatch m env events).halted = false ∧ Latched m (onLatch m env events)) := by
  by_cases hl : events.latchSet = true
  swap
  · have he : onLatch m env events = m := by simp [onLatch, hl]
    rw [he]
    exact .inr ⟨fun h => absurd h hl, hh, .refl, m.numWorkers, m.workerHandles, m.workerDied, rfl⟩
  by_cases hs : m.shutdownRequested = true
  · exact .inl ⟨hl, hs, by simp [onLatch, hl, hs]⟩
  refine .inr ⟨fun _ => Bool.eq_false_iff.2 hs, ?_⟩
  by_cases hd : m.workerDied = true
  · have he : onLatch m env events = onWorkerDied { m with workerDied := false } env := by
      simp [onLatch, hl, hs, hd]
    rw [he]
    exact ⟨hh, .single (.reap env), _, _, _, rfl⟩
  · have he : onLatch m env events = m := by simp [onLatch, hl, hs, hd]
    rw [he]
    exact ⟨hh, .refl, m.numWorkers, m.workerHandles, m.workerDied, rfl⟩

/-- **Rule for the handling of an event**: the latch part ends the loop, or one handler runs. -/
theorem handleEvent_rule {I : Master → Prop} (hm : Table m) (hk : m.inRange ev.userData)
    (hf : Fresh m env) (hh : m.halted = false)
    (hhalt : ev.events.latchSet = true → m.shutdownRequested = true → I { m with halted := true })
    (hhandler : (ev.events.latchSet = true → m.shutdownRequested = false) →
      ∀ m', m' = onLatch m env ev.events → Latched m m' → Table m' → Fresh m' env →
        I (handler m' env ev.userData ev.events)) :
    I (handleEvent m env ev) := by
  unfold handleEvent
  dsimp only
  rcases onLatch_cases env ev.events hh with ⟨h1, h2, h3⟩ | ⟨h1, h2, h3⟩
  · rw [h3, if_pos rfl]; exact hhalt h1 h2
  · have hm' := Prims.table h3.prims hm
    have hf' : Fresh (onLatch m env ev.events) env := by
      obtain ⟨-, n, hs, d, he⟩ := h3
      rw [he]; exact ⟨hf.ipc, hf.client⟩
    have hk' : (onLatch m env ev.events).inRange ev.userData := by
      simpa only [Master.inRange, Prims.totalSockets_eq h3.prims] using hk
    rw [if_neg (by simp [h2]), callHandlers_eq hm' hk' hf']
    exact hhandler h1 _ rfl h3 hm' hf'

theorem handleEvent_prims (hm : Table m) (hk : m.inRange ev.userData) (hf : Fresh m env)
    (hh : m.halted = false) : Prims m (handleEvent m env ev) := by
  refine handleEvent_rule hm hk hf hh (fun _ _ => .single .halt) fun _ m' _ hl hm' hf' => ?_
  have hk' : m'.inRange ev.userData := by
    simpa only [Master.inRange, Prims.totalSockets_eq hl.prims] using hk
  exact hl.prims.trans (handler_prims hm' hk' hf')

/-! ## The table along runs -/

theorem Ready.inRange {evs : List WaitEvent} (hr : Ready m evs) (hm : Table m) :
    ∀ ev ∈ evs, ev.userData = ev.pos ∧ m.used ev.pos ∧ m.inRange ev.userData := by
  intro ev hev
  obtain ⟨hp, hu, -⟩ := hr.registered ev hev
  have hu := hu.trans (hm.userData _ hp)
  exact ⟨hu, hp, hu ▸ hm.used_range hp⟩

/-- The table while the first event of the batch is handled. -/
theorem Table.tail {evs : List WaitEvent} (hm : Table m) (hb : m.batch = ev :: evs) :
    Table { m with batch := evs } :=
  { hm with batch := fun e he => hm.batch e (by simp [hb, he]) }

theorem Table.head {evs : List WaitEvent} (hm : Table m) (hb : m.batch = ev :: evs) :
    m.inRange ev.userData := hm.batch ev (by simp [hb])

theorem Step.table {l : Label} (hs : Step m l m') (hm : Table m) : Table m' := by
  cases hs with
  | wait _ _ hr => exact { hm with batch := fun ev hev => (hr.inRange hm ev hev).2.2 }
  | @handle env ev evs hb hh hf =>
    exact Prims.table (handleEvent_prims (hm.tail hb) (hm.head hb) ⟨hf.ipc, hf.client⟩ hh)
      (hm.tail hb)
  | sigusr1 => exact { hm with }
  | sigterm => exact { hm with }

theorem startupLatch_table (cfg : Setup) : Table (startupLatch cfg) := by
  have hpos : 0 < cfg.totalSockets := by simp only [Setup.totalSockets]; omega
  have hne : (createWaitEventSetEx cfg.totalSockets).used ≠
      (createWaitEventSetEx cfg.totalSockets).waitSet.neventsSpace := hpos.ne
  have hnext : nextWaitEventPos (createWaitEventSetEx cfg.totalSockets) = 0 := by
    rw [nextWaitEventPos, if_neg hne]; rfl
  have hsock : (startupLatch cfg).sockets = Function.update (fun _ => {}) 0
      { type := .unset, fd := pgInvalidSocket, pos := 0 } := by
    simp only [startupLatch, Master.openSocket, Master.setSocket, hnext]
    rw [add_fst hne, hnext]
  have hused : ∀ k, (startupLatch cfg).used k ↔ k = 0 := by
    intro k
    simp only [Master.used, startupLatch, Master.openSocket, Master.setSocket]
    rw [add_polled hne, hnext, Function.update_apply]
    by_cases h : k = 0 <;> simp [h, createWaitEventSetEx, createWaitEventSet]
  have h0 : (startupLatch cfg).inRange 0 :=
    ⟨le_rfl, show (0 : ℤ) < cfg.totalSockets by exact_mod_cast hpos⟩
  refine ⟨(create_wf hpos).add hne, add_space, ⟨by simp [hsock], (hused 0).2 rfl⟩, ?_, ?_, ?_,
    fun _ => h0, RingBuf.wf_empty hpos, fun _ h => absurd h (by simp [startupLatch, Master.openSocket,
      Master.setSocket])⟩
  · intro k hk _
    rw [hused, hsock, Function.update_of_ne hk]
    simp [hk]
  · intro k hk
    rw [(hused k).1 hk, hsock]; simp
  · intro k hk
    rw [(hused k).1 hk]
    simp only [startupLatch, Master.openSocket, Master.setSocket]
    rw [add_events hne, hnext]; simp

theorem startupLatch_type (cfg : Setup) (k : ℤ) :
    ((startupLatch cfg).sockets k).type = .unset := by
  simp only [startupLatch, Master.openSocket, Master.setSocket, Function.update_apply]
  split <;> rfl

theorem openSocket_used (h : m.rmWaitSet.used ≠ m.rmWaitSet.waitSet.neventsSpace)
    {type : SockType} {fd : Pgsocket} :
    (m.openSocket type fd events).rmWaitSet.used = m.rmWaitSet.used + 1 := by
  simp [Master.openSocket, Master.setSocket, addWaitEventToSetEx, h]

theorem startupListen_table {type : SockType} (fd : Pgsocket) (hm : Table m)
    (h : m.rmWaitSet.used < m.totalSockets) (ht : type ≠ .unset) :
    Table (startupListen type m fd) ∧
      (startupListen type m fd).rmWaitSet.used = m.rmWaitSet.used + 1 := by
  have hne : m.rmWaitSet.used ≠ m.rmWaitSet.waitSet.neventsSpace := by
    rw [hm.space]; omega
  exact ⟨Table.openSocket (m := m.emit _) { hm with } hne hm.zero.2 ht,
    openSocket_used (m := m.emit _) hne⟩

theorem foldl_startupListen {I : Master → Prop} (l : List Pgsocket)
    (hI : ∀ m fd, Table m → m.rmWaitSet.used ≠ m.rmWaitSet.waitSet.neventsSpace → I m →
      I (startupListen .frontend m fd)) (hm : Table m)
    (h : m.rmWaitSet.used + l.length ≤ m.totalSockets) (hi : I m) :
    Table (l.foldl (startupListen .frontend) m) ∧ I (l.foldl (startupListen .frontend) m) := by
  induction l generalizing m with
  | nil => exact ⟨hm, hi⟩
  | cons fd l ih =>
    simp only [List.length_cons] at h
    have hne : m.rmWaitSet.used ≠ m.rmWaitSet.waitSet.neventsSpace := by
      rw [hm.space]; omega
    obtain ⟨hm', hu⟩ : Table (startupListen .frontend m fd) ∧ _ :=
      startupListen_table fd hm (by omega) (by decide)
    refine ih hm' ?_ (hI m fd hm hne hi)
    rw [hu]
    change _ ≤ m.totalSockets; omega

/-- **Rule for `startup`**: what the latch establishes and every listener keeps. -/
theorem startup_rule (cfg : Setup) {I : Master → Prop} (hlatch : I (startupLatch cfg))
    (hlisten : ∀ m type fd, Table m → m.rmWaitSet.used ≠ m.rmWaitSet.waitSet.neventsSpace →
      type = .ipc ∨ type = .frontend → I m → I (startupListen type m fd)) :
    Table (startup cfg) ∧ I (startup cfg) := by
  have hmax := cfg.max_pos
  have hu : (startupLatch cfg).rmWaitSet.used = 1 :=
    openSocket_used (by simp [createWaitEventSetEx, createWaitEventSet, Setup.totalSockets]; omega)
  have ht : (startupLatch cfg).totalSockets =
    1 + cfg.listenSockets.length + cfg.maxWorkerProcesses := rfl
  have htab := startupLatch_table cfg
  have hne : (startupLatch cfg).rmWaitSet.used ≠
      (startupLatch cfg).rmWaitSet.waitSet.neventsSpace := by
    rw [htab.space]; omega
  obtain ⟨hm, hu'⟩ : Table (startupListen .ipc (startupLatch cfg) cfg.ipcSock) ∧ _ :=
    startupListen_table _ htab (by omega) (by decide)
  refine foldl_startupListen _ (fun m fd h hne => hlisten m _ fd h hne (.inr rfl)) hm ?_
    (hlisten _ _ _ htab hne (.inl rfl) hlatch)
  rw [hu', hu]
  change _ ≤ 1 + cfg.listenSockets.length + cfg.maxWorkerProcesses; omega

theorem startup_table (cfg : Setup) : Table (startup cfg) :=
  (startup_rule cfg (I := fun _ => True) trivial fun _ _ _ _ _ _ _ => trivial).1

/-- **The socket table is right in every reachable state.** -/
theorem reach_table {cfg : Setup} (hr : Reach Step (startup cfg) m) : Table m :=
  hr.inv (startup_table cfg) fun _ _ _ hm hs => hs.table hm

/-- Nothing but listeners so far. -/
structure Started (m : Master) : Prop where
  idle : m.idle = .empty 0
  numWorkers : m.numWorkers = 0
  workerHandles : ∀ i, m.workerHandles i = none
  jobs : m.jobs = .empty 0
  frontendPaused : m.frontendPaused = false
  batch : m.batch = []
  trace : ∀ a ∈ m.trace, ∃ fd, a = .listen fd
  backend : ∀ k, (m.sockets k).type ≠ .backend
  readOffset : ∀ k, (m.sockets k).readOffset = 0

/-- A master that has only opened listeners knows of no connection. -/
theorem Started.filterMap_trace {α : Type} (h : Started m) {f : Act → Option α}
    (hf : ∀ fd, f (.listen fd) = none) : m.trace.filterMap f = [] := by
  refine List.filterMap_eq_nil_iff.2 fun a ha => ?_
  obtain ⟨fd, rfl⟩ := h.trace a ha
  exact hf fd

theorem Started.backends (h : Started m) : m.backends = [] := h.filterMap_trace fun _ => rfl

theorem Started.clients (h : Started m) : m.clients = [] := h.filterMap_trace fun _ => rfl

theorem startup_started (cfg : Setup) : Started (startup cfg) := by
  refine (startup_rule cfg ?_ fun m type fd _ _ ht hm => ?_).2
  · refine ⟨rfl, rfl, fun _ => rfl, rfl, rfl, rfl, fun _ h => absurd h List.not_mem_nil,
      fun k => ?_, fun k => ?_⟩ <;>
    · simp only [startupLatch, Master.openSocket, Master.setSocket, Function.update_apply]
      split <;> simp
  · refine { hm with trace := ?_, backend := fun k => ?_, readOffset := fun k => ?_ }
    · rintro a ha
      rcases List.mem_cons.1 (show a ∈ .listen fd :: m.trace from ha) with rfl | ha
      exacts [⟨fd, rfl⟩, hm.trace a ha]
    · simp only [startupListen, Master.openSocket, Master.setSocket, Function.update_apply]
      split
      · rcases ht with rfl | rfl <;> simp
      · exact hm.backend k
    · simp only [startupListen, Master.openSocket, Master.setSocket, Function.update_apply]
      split
      exacts [hm.readOffset _, hm.readOffset k]

/-- One listener (descriptor 4) and room for three connections. -/
def smallSetup : Setup where
  maxWorkerProcesses := 3
  ipcSock := 3
  listenSockets := [4]
  max_pos := by decide

/-- The readiness of the socket in slot `k`. -/
def readable (k : ℤ) : WaitEvent := ⟨k, wlSocketReadable, k⟩

end Rustica
