/-
  The master process (`master.c`): the socket table, the two queues, the handlers of `main_loop`,
  and the master as a transition system.

  `main_loop` waits for a batch of at most `MAXLISTEN` events and hands them, one after the other,
  to the handlers.  Each handler is a function of the state and of an `Env`: what `accept`, `recv`,
  `sendmsg` and Postgres' background worker calls answer during the call.  A step of the system is
  a wait, the handling of one event, or a signal.

  Every effect on a descriptor is noted in the `trace`, the latest first.  The code does not keep
  this record; it never reads it either.

  Left out: log texts, `fd_msg`'s constant fields, the fields of a background worker besides its
  number, and `listen_frontend`'s parsing of addresses (its result is a parameter of `startup`).
-/
import Rustica.EventSet

namespace Rustica

def maxListen : ℕ := 64
def jobQlen : ℕ := 1024

/-- `BACKEND_HELLO`, the text `RUSTICA!`. -/
def backendHello : List UInt8 := [82, 85, 83, 84, 73, 67, 65, 33]

/-- The length of a whole hello: the text and the worker's number. -/
def helloLen : ℕ := 12

inductive SockType where
  | unset | ipc | frontend | backend
  deriving DecidableEq, Repr

/-- A slot of `sockets`; the default values are those of `memset` to zero. -/
structure Socket where
  type : SockType := .unset
  fd : Pgsocket := 0
  pos : ℤ := 0
  /-- a `uint8_t` -/
  readOffset : ℕ := 0
  workerId : ℕ → UInt8 := fun _ => 0

/-- What the master does to descriptors. -/
inductive Act where
  | listen (fd : Pgsocket)
  | acceptBackend (backend : Pgsocket)
  | acceptClient (client : Pgsocket)
  | received (backend : Pgsocket) (bytes : List UInt8)
  | hello (backend : Pgsocket)
  | sent (backend client : Pgsocket)
  | sendFailed (backend client : Pgsocket)
  | close (fd : Pgsocket)
  deriving DecidableEq

/-- The static variables of `master.c`, what remains of the current batch, and the trace.
    `sockets` is indexed by integers because the code also computes the address before the array;
    a worker handle is named by the number of the worker it was registered for. -/
structure Master where
  maxWorkerProcesses : ℕ
  totalSockets : ℕ
  sockets : ℤ → Socket
  rmWaitSet : WaitEventSetEx
  idle : RingBuf ℤ
  numWorkers : ℕ
  workerHandles : ℕ → Option ℕ
  jobs : RingBuf Pgsocket
  frontendPaused : Bool
  workerIdSeq : ℕ
  shutdownRequested : Bool
  workerDied : Bool
  batch : List WaitEvent
  halted : Bool
  trace : List Act

/-- The answers of the calls a handler makes.  A descriptor of -1 is a failed `accept`, `none` a
    failed `recv`, and `[]` the end of the stream. -/
structure Env where
  acceptIpc : Pgsocket := pgInvalidSocket
  acceptClient : Pgsocket := pgInvalidSocket
  recv : Option (List UInt8) := none
  sendmsg : Pgsocket → Bool := fun _ => false
  register : Bool := false
  /-- `GetBackgroundWorkerPid` answers `BGWH_STOPPED` -/
  stopped : ℕ → Bool := fun _ => false

namespace Master

variable (m : Master)

/-! ## Primitive updates -/

def emit (a : Act) : Master := { m with trace := a :: m.trace }

def setSocket (k : ℤ) (s : Socket) : Master :=
  { m with sockets := Function.update m.sockets k s }

/-- `ModifyWaitEventEx(rm_wait_set, socket->pos, events, NULL)`. -/
def modify (k : ℤ) (events : Events) : Master :=
  { m with rmWaitSet := modifyWaitEventEx m.rmWaitSet (m.sockets k).pos events }

/-- `&sockets[NextWaitEventPos(rm_wait_set)]` is filled in and registered.  The slot's other fields
    stay as they are. -/
def openSocket (type : SockType) (fd : Pgsocket) (events : Events) : Master :=
  let k := nextWaitEventPos m.rmWaitSet
  let r := addWaitEventToSetEx m.rmWaitSet events k
  { m with rmWaitSet := r.2 }.setSocket k { m.sockets k with type, fd, pos := r.1 }

def closeSocket (k : ℤ) : Master :=
  { m with rmWaitSet := deleteWaitEventEx m.rmWaitSet (m.sockets k).pos }.emit
    (.close (m.sockets k).fd) |>.setSocket k {}

def popIdle : Master := { m with idle := m.idle.pop m.totalSockets }

/-- The loops that pause and resume the frontend. -/
def modifyFrontends (events : Events) : Master :=
  (List.range m.totalSockets).foldl (fun m (i : ℕ) =>
    if (m.sockets i).type = .frontend then m.modify i events else m) m

end Master

/-! ## The handlers -/

/-- What `startup` reads: the setting, and the sockets that `listen_backend` and `listen_frontend`
    return. -/
structure Setup where
  maxWorkerProcesses : ℕ
  ipcSock : Pgsocket
  listenSockets : List Pgsocket
  /-- the master is a background worker itself -/
  max_pos : 0 < maxWorkerProcesses

def Setup.totalSockets (cfg : Setup) : ℕ := 1 + cfg.listenSockets.length + cfg.maxWorkerProcesses

/-- The state in which the latch is registered, without a descriptor. -/
def startupLatch (cfg : Setup) : Master :=
  Master.openSocket
    { maxWorkerProcesses := cfg.maxWorkerProcesses
      totalSockets := cfg.totalSockets
      sockets := fun _ => {}
      rmWaitSet := createWaitEventSetEx cfg.totalSockets
      idle := .empty 0, numWorkers := 0, workerHandles := fun _ => none
      jobs := .empty 0, frontendPaused := false, workerIdSeq := 0
      shutdownRequested := false, workerDied := false, batch := [], halted := false, trace := [] }
    .unset pgInvalidSocket wlLatchSet

def startupListen (type : SockType) (m : Master) (fd : Pgsocket) : Master :=
  (m.emit (.listen fd)).openSocket type fd wlSocketAccept

/-- The state after `startup`: the latch, the IPC socket and the frontend listeners, in this
    order. -/
def startup (cfg : Setup) : Master :=
  cfg.listenSockets.foldl (startupListen .frontend)
    (startupListen .ipc (startupLatch cfg) cfg.ipcSock)

def backendEvents : Events := wlSocketReadable ||| wlSocketClosed

def onBackendConnect (m : Master) (env : Env) (events : Events) : Master :=
  if !events.readable then m
  else if env.acceptIpc = pgInvalidSocket then m
  else
    let sock := env.acceptIpc
    let k := nextWaitEventPos m.rmWaitSet
    let m := (m.emit (.acceptBackend sock)).openSocket .backend sock backendEvents
    if (m.sockets k).pos ≠ -1 then m else m.emit (.close sock)

/-- The master's part of a successful `sendmsg` to an idle worker. -/
def handOver (m : Master) (k : ℤ) (sock : Pgsocket) : Master :=
  ((m.emit (.sent (m.sockets k).fd sock)).emit (.close sock)).modify k backendEvents

/-- `while (idle_qsize > 0)`, called with `n = idle_qsize`; true if the client was dispatched. -/
def dispatchIdle (env : Env) (sock : Pgsocket) : ℕ → Master → Bool × Master
  | 0, m => (false, m)
  | n + 1, m =>
    let k := m.idle.front
    let m := m.popIdle
    if (m.sockets k).type = .backend then
      if env.sendmsg (m.sockets k).fd then (true, handOver m k sock)
      else dispatchIdle env sock n ((m.emit (.sendFailed (m.sockets k).fd sock)).closeSocket k)
    else dispatchIdle env sock n m

/-- The first `NULL` cell of `worker_handles`. -/
def freeHandle (m : Master) : Option ℕ :=
  (List.range m.maxWorkerProcesses).find? fun i => (m.workerHandles i).isNone

/-- Registers a worker if none is idle and one more is allowed.  Without a free cell Postgres is
    given no place for the handle. -/
def spawnWorker (m : Master) (env : Env) : Master :=
  if m.idle.size = 0 ∧ (m.numWorkers : ℤ) < (m.maxWorkerProcesses : ℤ) - 2 then
    let id := m.workerIdSeq
    let handle := freeHandle m
    let m := { m with workerIdSeq := m.workerIdSeq + 1 }
    if env.register then
      { m with
        numWorkers := m.numWorkers + 1
        workerHandles := match handle with
          | some i => Function.update m.workerHandles i (some id)
          | none => m.workerHandles }
    else m
  else m

/-- Queues the client, or closes it when the queue is full. -/
def enqueue (m : Master) (sock : Pgsocket) : Master :=
  if m.jobs.size < jobQlen then
    let m := { m with jobs := m.jobs.push jobQlen sock }
    if m.jobs.size = jobQlen then
      { m with frontendPaused := true }.modifyFrontends wlSocketClosed
    else m
  else m.emit (.close sock)

def onFrontend (m : Master) (env : Env) (events : Events) : Master :=
  if !events.readable then m
  else if env.acceptClient = pgInvalidSocket then m
  else
    let sock := env.acceptClient
    let m := m.emit (.acceptClient sock)
    let r := dispatchIdle env sock m.idle.size m
    if r.1 then r.2 else enqueue (spawnWorker r.2 env) sock

/-- The read offset of slot `k` is back at 0. -/
def helloRead (m : Master) (k : ℤ) : Master :=
  (m.emit (.hello (m.sockets k).fd)).setSocket k { m.sockets k with readOffset := 0 }

/-- The listeners accept again after a pause. -/
def resumeFrontends (m : Master) : Master :=
  if m.frontendPaused then { m with frontendPaused := false }.modifyFrontends wlSocketAccept else m

/-- The hello on slot `k` is complete: dispatch a queued client, or note the worker as idle. -/
def onHello (m : Master) (env : Env) (k : ℤ) : Master :=
  let fd := (m.sockets k).fd
  let m := helloRead m k
  if 0 < m.jobs.size then
    let job := m.jobs.front
    if env.sendmsg fd then
      resumeFrontends { m.emit (.sent fd job) with jobs := m.jobs.pop jobQlen }
    else (m.emit (.sendFailed fd job)).closeSocket k
  else
    let m := m.modify k wlSocketClosed
    { m with idle := m.idle.push m.totalSockets (m.sockets k).pos }

/-- `memcpy((char *)&socket->worker_id + off, bytes, length)`. -/
def copyBytes (dst : ℕ → UInt8) (off : ℕ) (bytes : List UInt8) : ℕ → UInt8 := fun j =>
  if off ≤ j then bytes.getD (j - off) (dst j) else dst j

/-- What follows `recv`: `buf` is compared with the part of the text still missing, then the number
    is stored. -/
def onReceived (m : Master) (env : Env) (k : ℤ) (buf : List UInt8) (received : ℤ) : Master :=
  let s := m.sockets k
  -- where the comparison ends
  let i := (min (8 - (s.readOffset : ℤ)) received).toNat
  if (List.range i).all fun j => backendHello[s.readOffset + j]? = buf[j]? then
    let next (m : Master) : Master := m.setSocket k
      { m.sockets k with readOffset := ((s.readOffset + received) % 256).toNat }
    if 0 < received - i then
      let m := m.setSocket k
        { s with workerId := copyBytes s.workerId (s.readOffset - 8) (buf.drop i) }
      if s.readOffset + received = helloLen then onHello m env k else next m
    else next m
  else m.closeSocket k

def onBackend (m : Master) (env : Env) (k : ℤ) (events : Events) : Master :=
  if events.closed then m.closeSocket k
  else if events.readable then
    let s := m.sockets k
    if helloLen ≤ s.readOffset then m.modify k wlSocketClosed
    else match env.recv with
      | some bytes =>
        let buf := bytes.take (helloLen - s.readOffset)
        onReceived (m.emit (.received s.fd buf)) env k buf buf.length
      -- the source closes the socket and goes on
      | none => onReceived (m.closeSocket k) env k [] (-1)
  else m

def onWorkerDied (m : Master) (env : Env) : Master :=
  let handles := fun i => (m.workerHandles i).filter fun h => !env.stopped h
  let workers := ((List.range m.maxWorkerProcesses).filter fun i => (handles i).isSome).length
  { m with
    workerHandles := handles
    numWorkers := if workers < m.numWorkers then workers else m.numWorkers }

/-- The part of `main_loop` that looks at the latch. -/
def onLatch (m : Master) (env : Env) (events : Events) : Master :=
  if !events.latchSet then m
  else if m.shutdownRequested then { m with halted := true }
  else if m.workerDied then onWorkerDied { m with workerDied := false } env
  else m

/-- The part that calls the handlers; the type of the slot is read again for each of them. -/
def callHandlers (m : Master) (env : Env) (k : ℤ) (events : Events) : Master :=
  let m := if (m.sockets k).type = .ipc then onBackendConnect m env events else m
  let m := if (m.sockets k).type = .frontend then onFrontend m env events else m
  if (m.sockets k).type = .backend then onBackend m env k events else m

/-- One round of `main_loop`'s inner loop. -/
def handleEvent (m : Master) (env : Env) (ev : WaitEvent) : Master :=
  let m := onLatch m env ev.events
  if m.halted then m else callHandlers m env ev.userData ev.events

/-! ## The transition system -/

def Act.opens : Act → Option Pgsocket
  | .listen fd | .acceptBackend fd | .acceptClient fd => some fd
  | _ => none

/-- The descriptors ever opened. -/
def Master.opened (m : Master) : List Pgsocket := m.trace.filterMap Act.opens

/-- `accept` returns a new descriptor. -/
structure Fresh (m : Master) (env : Env) : Prop where
  ipc : env.acceptIpc ∉ m.opened
  client : env.acceptClient ∉ m.opened

/-- What `WaitEventSetWait` can return: at most `MAXLISTEN` events, at most one for each position,
    each with bits that the position is registered for. -/
structure Ready (m : Master) (evs : List WaitEvent) : Prop where
  length_le : evs.length ≤ maxListen
  nodup : (evs.map WaitEvent.pos).Nodup
  registered : ∀ ev ∈ evs, m.rmWaitSet.waitSet.polled ev.pos ∧
    ev.userData = (m.rmWaitSet.waitSet.events ev.pos).userData ∧
    ev.events.Sub (m.rmWaitSet.waitSet.events ev.pos).events

inductive Label where
  | wait (evs : List WaitEvent)
  | handle (env : Env)
  | sigusr1
  | sigterm

/-- The steps of the master.  A signal handler only sets flags (and the latch, on which a wait is
    free to report), so it is taken to run between two events. -/
inductive Step : Master → Label → Master → Prop
  | wait {m evs} : m.batch = [] → m.halted = false → Ready m evs →
      Step m (.wait evs) { m with batch := evs }
  | handle {m env ev evs} : m.batch = ev :: evs → m.halted = false → Fresh m env →
      Step m (.handle env) (handleEvent { m with batch := evs } env ev)
  | sigusr1 {m} : Step m .sigusr1 { m with workerDied := true }
  | sigterm {m} : Step m .sigterm { m with shutdownRequested := true }

instance (m : Master) (env : Env) : Decidable (Fresh m env) :=
  decidable_of_iff (env.acceptIpc ∉ m.opened ∧ env.acceptClient ∉ m.opened)
    ⟨fun h => ⟨h.1, h.2⟩, fun h => ⟨h.ipc, h.client⟩⟩

instance (m : Master) (evs : List WaitEvent) : Decidable (Ready m evs) :=
  decidable_of_iff (evs.length ≤ maxListen ∧ (evs.map WaitEvent.pos).Nodup ∧
      ∀ ev ∈ evs, m.rmWaitSet.waitSet.polled ev.pos ∧
        ev.userData = (m.rmWaitSet.waitSet.events ev.pos).userData ∧
        ev.events.Sub (m.rmWaitSet.waitSet.events ev.pos).events)
    ⟨fun h => ⟨h.1, h.2.1, h.2.2⟩, fun h => ⟨h.length_le, h.nodup, h.registered⟩⟩

/-- The step of a label, where it is enabled. -/
def next (m : Master) : Label → Option Master
  | .wait evs => if m.batch = [] ∧ m.halted = false ∧ Ready m evs then some { m with batch := evs }
    else none
  | .handle env => match m.batch with
    | ev :: evs => if m.halted = false ∧ Fresh m env
      then some (handleEvent { m with batch := evs } env ev) else none
    | [] => none
  | .sigusr1 => some { m with workerDied := true }
  | .sigterm => some { m with shutdownRequested := true }

theorem step_of_next {m m' : Master} {l : Label} (h : next m l = some m') : Step m l m' := by
  cases l with
  | wait evs =>
    simp only [next] at h
    split at h
    · cases h
      rename_i hg
      exact .wait hg.1 hg.2.1 hg.2.2
    · cases h
  | handle env =>
    simp only [next] at h
    split at h
    · rename_i ev evs hb
      split at h
      · cases h
        rename_i hg
        exact .handle hb hg.1 hg.2
      · cases h
    · cases h
  | sigusr1 => cases h; exact .sigusr1
  | sigterm => cases h; exact .sigterm

end Rustica
