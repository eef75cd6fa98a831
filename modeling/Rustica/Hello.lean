/-
  Hellos as bytes.

  A hello is twelve bytes that begin with `RUSTICA!`.  `completeHellos` counts them in a stream,
  without regard to how `recv` cut it.  In every reachable state the master has completed no more
  hellos on a connection than its bytes contain (`Framed`).
-/
import Rustica.Names

namespace Rustica

open Exec

/-- Block `i` of twelve bytes begins with the text of a hello. -/
def IsHello (bs : List UInt8) (i : ℕ) : Prop := ∀ j < 8, bs[helloLen * i + j]? = backendHello[j]?

instance (bs : List UInt8) (i : ℕ) : Decidable (IsHello bs i) := by
  unfold IsHello; infer_instance

/-- The number of whole blocks that are hellos. -/
def completeHellos (bs : List UInt8) : ℕ :=
  (List.range (bs.length / helloLen)).countP fun i => IsHello bs i

/-- The bytes received on the connection `b`, in order. -/
def streamOf (b : Pgsocket) : List Act → List UInt8
  | [] => []
  | .received b' bytes :: l => if b' = b then streamOf b l ++ bytes else streamOf b l
  | _ :: l => streamOf b l

def Master.stream (m : Master) (b : Pgsocket) : List UInt8 := streamOf b m.trace

/-- The number of hellos completed on the connection `b`. -/
def Master.hellos (m : Master) (b : Pgsocket) : ℕ := m.trace.count (.hello b)

theorem isHello_append {bs ext : List UInt8} {i : ℕ} (hi : helloLen * i + 8 ≤ bs.length) :
    IsHello (bs ++ ext) i ↔ IsHello bs i := by
  refine forall₂_congr fun j hj => ?_
  rw [List.getElem?_append_left (by omega)]

/-- More bytes never undo a hello. -/
theorem completeHellos_append (bs ext : List UInt8) :
    completeHellos bs ≤ completeHellos (bs ++ ext) := by
  have hlen : bs.length / helloLen ≤ (bs ++ ext).length / helloLen :=
    Nat.div_le_div_right (by simp)
  have heq : completeHellos bs =
      (List.range (bs.length / helloLen)).countP fun i => IsHello (bs ++ ext) i := by
    refine List.countP_congr fun i hi => ?_
    have hi : i < bs.length / helloLen := List.mem_range.1 hi
    have hle : helloLen * i + 8 ≤ bs.length := by
      simp only [helloLen] at hi ⊢; omega
    simp only [decide_eq_true_eq]
    exact (isHello_append hle).symm
  rw [heq]
  exact (List.range_sublist.2 hlen).countP_le

/-- **One more hello**: the bytes that complete block `n`. -/
theorem completeHellos_succ {bs ext : List UInt8} {n r : ℕ} (hlen : bs.length = helloLen * n + r)
    (hn : n ≤ completeHellos bs) (hr : r < helloLen)
    (hext : (bs ++ ext).length = helloLen * (n + 1)) (hello : IsHello (bs ++ ext) n) :
    n + 1 ≤ completeHellos (bs ++ ext) := by
  have hdiv : bs.length / helloLen = n := by
    rw [hlen]; simp only [helloLen] at hr ⊢; omega
  have hdiv' : (bs ++ ext).length / helloLen = n + 1 := by
    rw [hext]; simp [helloLen]
  have heq : completeHellos bs = (List.range n).countP fun i => IsHello (bs ++ ext) i := by
    rw [completeHellos, hdiv]
    refine List.countP_congr fun i hi => ?_
    have hi := List.mem_range.1 hi
    have hle : helloLen * i + 8 ≤ bs.length := by
      rw [hlen]; simp only [helloLen]; omega
    simp only [decide_eq_true_eq]
    exact (isHello_append hle).symm
  rw [completeHellos, hdiv', List.range_succ, List.countP_append, ← heq]
  simp [hello]; omega

/-- The read offset of every connection counts the bytes since its last hello, and these agree with
    the text.  A free slot is at offset 0, or past the length of a hello. -/
structure Framed (m : Master) : Prop where
  counted : ∀ b, m.hellos b ≤ completeHellos (m.stream b)
  live : ∀ {k}, Live m k → (m.sockets k).readOffset < helloLen →
    (m.stream (m.sockets k).fd).length =
        helloLen * m.hellos (m.sockets k).fd + (m.sockets k).readOffset ∧
      ∀ j < (m.sockets k).readOffset, j < 8 →
        (m.stream (m.sockets k).fd)[helloLen * m.hellos (m.sockets k).fd + j]? = backendHello[j]?
  free : ∀ k, (m.sockets k).type = .unset →
    (m.sockets k).readOffset = 0 ∨ helloLen ≤ (m.sockets k).readOffset

variable {m m' : Master} {k : ℤ} {env : Env} {b c fd : Pgsocket} {a : Act} {events : Events}

/-- Neither bytes nor a hello. -/
def Act.Unread : Act → Prop
  | .hello _ | .received _ _ => False
  | _ => True

theorem Act.Unread.hellos (h : a.Unread) : (m.emit a).hellos b = m.hellos b := by
  cases a <;> first | exact h.elim | simp [Master.hellos]

theorem Act.Unread.stream (h : a.Unread) : (m.emit a).stream b = m.stream b := by
  cases a <;> first | exact h.elim | rfl

/-- A connection that was never accepted has sent nothing. -/
theorem Names.stream (hm : Names m) (hb : b ∉ m.backends) :
    m.stream b = [] ∧ m.hellos b = 0 := by
  refine ⟨hm.of_trace hb (streamOf b) fun a l ha => ?_,
    List.count_eq_zero.2 fun h => hb (hm.about h .hello)⟩
  cases a with
  | received b' bytes =>
    have hne : b' ≠ b := by
      rintro rfl
      exact ha (.received bytes)
    rw [streamOf, if_neg hne]
  | _ => rfl

/-! ## Handlers that read nothing -/

/-- A relation between the master before and after that holds wherever no bytes are read and no hello
    is noted. -/
structure Blind (R : Master → Master → Prop) : Prop where
  /-- the sockets, the trace and the length of the table are the same -/
  same : ∀ {m m' : Master}, m'.sockets = m.sockets → m'.trace = m.trace →
    m'.totalSockets = m.totalSockets → R m m'
  trans : ∀ {m m' m''}, R m m' → R m' m'' → R m m''
  unread : ∀ {m a}, Act.Unread a → R m (m.emit a)
  closeSocket : ∀ m k, R m (m.closeSocket k)

namespace Blind

variable {R : Master → Master → Prop}

theorem modifyFrontends (hR : Blind R) : R m (m.modifyFrontends events) := by
  obtain ⟨s, hs⟩ := modifyFrontends_rest m events
  rw [hs]
  exact hR.same rfl rfl rfl

theorem enqueue (hR : Blind R) : R m (enqueue m c) := by
  unfold Rustica.enqueue
  split
  · dsimp only
    split
    · have hpause : R m { m with jobs := m.jobs.push jobQlen c, frontendPaused := true } :=
        hR.same rfl rfl rfl
      exact hR.trans hpause hR.modifyFrontends
    · exact hR.same rfl rfl rfl
  · exact hR.unread trivial

/-- **A client arrives.** -/
theorem onFrontend (hR : Blind R) (ht : Table m) (hf : Fresh m env) :
    R m (onFrontend m env events) := by
  have hpop : ∀ m : Master, R m m.popIdle := fun m => hR.same rfl rfl rfl
  have hrule := onFrontend_rule events (I := R m) ht hf (hR.unread trivial)
    (fun m' _ h _ _ => hR.trans h (hpop m')) ?_
  swap
  · intro m' _ _ _ _ h
    have hfail := hR.trans (hpop m')
      (hR.unread (a := .sendFailed (m'.sockets m'.idle.front).fd env.acceptClient) trivial)
    exact hR.trans h (hR.trans hfail (hR.closeSocket _ _))
  rcases hrule with ⟨-, h⟩ | ⟨-, m', -, -, h, hs⟩
  · rw [h]
    exact hR.same rfl rfl rfl
  refine hR.trans h ?_
  generalize Rustica.onFrontend m env events = m₁ at hs
  cases hs with
  | handed _ _ _ =>
    have hsent := hR.trans (hpop m')
      (hR.unread (a := .sent (m'.popIdle.sockets m'.idle.front).fd env.acceptClient) trivial)
    have hclosed := hR.trans hsent (hR.unread (a := .close env.acceptClient) trivial)
    exact hR.trans hclosed (hR.same rfl rfl rfl)
  | kept _ =>
    have hspawn : R m' (spawnWorker m' env) := by
      obtain ⟨seq, n, hs, he⟩ := spawnWorker_rest m' env
      rw [he]
      exact hR.same rfl rfl rfl
    exact hR.trans hspawn hR.enqueue

/-- **What follows a hello.** -/
theorem greeted (hR : Blind R) (h : Greeted m env k m') : R (helloRead m k) m' := by
  cases h with
  | idle _ => exact hR.same rfl rfl rfl
  | sent _ _ =>
    have hsent : R (helloRead m k)
        ((helloRead m k).emit (.sent (m.sockets k).fd m.jobs.front)) := hR.unread trivial
    refine hR.trans hsent ?_
    unfold resumeFrontends
    split
    · have hpop : R ((helloRead m k).emit (.sent (m.sockets k).fd m.jobs.front))
          { (helloRead m k).emit (.sent (m.sockets k).fd m.jobs.front) with
            jobs := m.jobs.pop jobQlen, frontendPaused := false } := hR.same rfl rfl rfl
      exact hR.trans hpop hR.modifyFrontends
    · exact hR.same rfl rfl rfl
  | failed _ _ =>
    have hfail : R (helloRead m k)
        ((helloRead m k).emit (.sendFailed (m.sockets k).fd m.jobs.front)) := hR.unread trivial
    exact hR.trans hfail (hR.closeSocket _ k)

end Blind

namespace Framed

/-- **Frame rule**: no bytes, no hello, and the connections keep their slots and offsets. -/
theorem frame (h : Framed m) (hstream : ∀ b, m'.stream b = m.stream b)
    (hhellos : ∀ b, m'.hellos b = m.hellos b)
    (hlive : ∀ k, Live m' k → Live m k ∧ (m'.sockets k).fd = (m.sockets k).fd ∧
      (m'.sockets k).readOffset = (m.sockets k).readOffset)
    (hfree : ∀ k, (m'.sockets k).type = .unset → ((m.sockets k).type = .unset ∧
      (m'.sockets k).readOffset = (m.sockets k).readOffset) ∨
      (m'.sockets k).readOffset = 0 ∨ helloLen ≤ (m'.sockets k).readOffset) : Framed m' := by
  refine ⟨fun b => ?_, fun {k} hk hro => ?_, fun k hk => ?_⟩
  · rw [hstream, hhellos]; exact h.counted b
  · obtain ⟨h1, h2, h3⟩ := hlive k hk
    rw [hstream, hhellos, h2, h3]
    exact h.live h1 (h3 ▸ hro)
  · rcases hfree k hk with ⟨h1, h2⟩ | h
    · rw [h2]; exact h.free k h1
    · exact h

theorem unread (h : Framed m) (ha : a.Unread) : Framed (m.emit a) :=
  h.frame (fun _ => ha.stream) (fun _ => ha.hellos)
    (fun _ hk => ⟨hk.of_emit, rfl, rfl⟩) fun _ ht => .inl ⟨ht, rfl⟩

/-- The sockets, the trace and the length of the table are the same. -/
theorem same (h : Framed m) (hsock : m'.sockets = m.sockets) (htrace : m'.trace = m.trace)
    (htot : m'.totalSockets = m.totalSockets) : Framed m' := by
  refine h.frame (fun b => by rw [Master.stream, htrace]; rfl)
    (fun b => by rw [Master.hellos, htrace]; rfl) (fun k hk => ?_) fun k ht => ?_
  · refine ⟨hk.of_eq htot.symm (by rw [hsock]), by rw [hsock], by rw [hsock]⟩
  · exact .inl (by rw [hsock] at ht ⊢; exact ⟨ht, rfl⟩)

/-- A slot is cleared, with an offset of 0 or past the length of a hello. -/
theorem clear (h : Framed m) {s : Socket} (hs : s.type = .unset)
    (hro : s.readOffset = 0 ∨ helloLen ≤ s.readOffset) : Framed (m.setSocket k s) := by
  refine h.frame (fun _ => rfl) (fun _ => rfl) (fun j hj => ?_) fun j ht => ?_
  · have hjk : j ≠ k := by
      rintro rfl
      have := hj.type
      rw [Master.setSocket_self, hs] at this
      cases this
    have hsock : (m.setSocket k s).sockets j = m.sockets j := Function.update_of_ne hjk _ _
    exact ⟨hj.of_eq rfl (by rw [hsock]), by rw [hsock], by rw [hsock]⟩
  · by_cases hjk : j = k
    · subst hjk
      rw [Master.setSocket_self]; exact .inr hro
    · have hsock : (m.setSocket k s).sockets j = m.sockets j := Function.update_of_ne hjk _ _
      rw [hsock] at ht ⊢; exact .inl ⟨ht, rfl⟩

theorem closeSocket (h : Framed m) (k : ℤ) : Framed (m.closeSocket k) := by
  have hclose : Framed (m.emit (.close (m.sockets k).fd)) := h.unread trivial
  have hset : Framed { m.emit (.close (m.sockets k).fd) with
      rmWaitSet := deleteWaitEventEx m.rmWaitSet (m.sockets k).pos } := hclose.same rfl rfl rfl
  exact hset.clear rfl (.inl rfl)

/-- What reads nothing keeps the frames. -/
theorem blind : Blind fun m m' => Framed m → Framed m' where
  same hsock htrace htot h := h.same hsock htrace htot
  trans h h' hm := h' (h hm)
  unread ha h := h.unread ha
  closeSocket _ k h := h.closeSocket k

end Framed

/-! ## The handlers -/

theorem onBackendConnect_framed (h : Framed m) (ht : Table m) (hn : Names m) (hf : Fresh m env) :
    Framed (onBackendConnect m env events) := by
  set b := env.acceptIpc
  have hopen : Framed ((m.emit (.acceptBackend b)).openSocket .backend b backendEvents) := by
    obtain ⟨hstream, hhellos⟩ := hn.stream fun hb => hf.ipc (backends_sub_opened hb)
    have hsock : ((m.emit (.acceptBackend b)).openSocket .backend b backendEvents).sockets =
      Function.update m.sockets (nextWaitEventPos m.rmWaitSet) _ := openSocket_sockets
    refine ⟨h.counted, fun {k} hk hro => ?_, fun k hk => ?_⟩
    · by_cases hkn : k = nextWaitEventPos m.rmWaitSet
      · -- the slot was free, so its offset is 0 or the branch is never taken
        subst hkn
        have hunset := (ht.next_unset hk.range).2
        rw [hsock, Function.update_self] at hro ⊢
        have hro0 : (m.sockets (nextWaitEventPos m.rmWaitSet)).readOffset = 0 :=
          (h.free _ hunset).resolve_right (by exact Nat.not_le.2 hro)
        change (m.stream b).length = helloLen * m.hellos b +
          (m.sockets (nextWaitEventPos m.rmWaitSet)).readOffset ∧ _
        rw [hstream, hhellos, hro0]
        refine ⟨rfl, fun j hj => ?_⟩
        have hj : j < (m.sockets (nextWaitEventPos m.rmWaitSet)).readOffset := hj
        omega
      · have hsk : ((m.emit (.acceptBackend b)).openSocket .backend b backendEvents).sockets k =
          m.sockets k := by rw [hsock, Function.update_of_ne hkn]
        rw [hsk] at hro ⊢
        exact h.live ⟨hk.range, hsk ▸ hk.type⟩ hro
    · by_cases hkn : k = nextWaitEventPos m.rmWaitSet
      · subst hkn
        rw [hsock, Function.update_self] at hk
        cases hk
      · rw [hsock, Function.update_of_ne hkn] at hk ⊢
        exact h.free k hk
  exact onBackendConnect_rule events ht h (fun _ _ _ => hopen) fun _ _ _ => hopen.unread trivial

/-- **Bytes arrive** on slot `k`, with `n` more hellos: the offset of the slot is moved along, or the
    slot is cleared. -/
theorem Framed.receive (h : Framed m) (hn : Names m) (hk : Live m k) (bytes : List UInt8) {n : ℕ}
    {s : Socket} (htot : m'.totalSockets = m.totalSockets)
    (hsock : m'.sockets = Function.update m.sockets k s)
    (hstream : ∀ b, m'.stream b = if (m.sockets k).fd = b then m.stream b ++ bytes else m.stream b)
    (hhellos : ∀ b, m'.hellos b = if (m.sockets k).fd = b then m.hellos b + n else m.hellos b)
    (hcount : m.hellos (m.sockets k).fd + n ≤ completeHellos (m.stream (m.sockets k).fd ++ bytes))
    (hs : (s.type = .unset ∧ s.readOffset = 0) ∨
      (s.type = .backend ∧ s.fd = (m.sockets k).fd ∧
        (m.stream (m.sockets k).fd ++ bytes).length =
          helloLen * (m.hellos (m.sockets k).fd + n) + s.readOffset ∧
        ∀ j < s.readOffset, j < 8 → (m.stream (m.sockets k).fd ++ bytes)[helloLen *
          (m.hellos (m.sockets k).fd + n) + j]? = backendHello[j]?)) : Framed m' := by
  refine ⟨fun b => ?_, fun {j} hj hro => ?_, fun j hj => ?_⟩
  · rw [hstream, hhellos]
    split
    · subst b; exact hcount
    · exact h.counted b
  · by_cases hjk : j = k
    · subst hjk
      have hty := hj.type
      rw [hsock, Function.update_self] at hty ⊢
      rcases hs with ⟨hs, -⟩ | ⟨-, hfd, hlen, htext⟩
      · rw [hs] at hty; cases hty
      · rw [hstream, hhellos, hfd, if_pos rfl, if_pos rfl]
        exact ⟨hlen, htext⟩
    · have hsj : m'.sockets j = m.sockets j := by rw [hsock, Function.update_of_ne hjk]
      have hj' : Live m j := hj.of_eq htot.symm (by rw [hsj])
      have hne : (m.sockets k).fd ≠ (m.sockets j).fd := fun he => hjk (hn.distinct hj' hk he.symm)
      rw [hsj] at hro ⊢
      rw [hstream, hhellos, if_neg hne, if_neg hne]
      exact h.live hj' hro
  · by_cases hjk : j = k
    · subst hjk
      rw [hsock, Function.update_self] at hj ⊢
      rcases hs with ⟨-, hs⟩ | ⟨hs, -⟩
      · exact .inl hs
      · rw [hs] at hj; cases hj
    · rw [hsock, Function.update_of_ne hjk] at hj ⊢
      exact h.free j hj

theorem stream_received {bytes : List UInt8} :
    (m.emit (.received fd bytes)).stream b = if fd = b then m.stream b ++ bytes else m.stream b :=
  rfl

theorem hellos_received {bytes : List UInt8} :
    (m.emit (.received fd bytes)).hellos b = m.hellos b := by simp [Master.hellos]

theorem Incomplete.framed (hs : Incomplete m env k events m') (h : Framed m) (hn : Names m)
    (hk : Live m k) : Framed m' := by
  cases hs with
  | quiet => exact h
  | closed => exact h.closeSocket k
  | deaf _ _ => exact h.same rfl rfl rfl
  | recvFailed =>
    exact (h.closeSocket k).clear rfl (.inr (show helloLen ≤ 255 by decide))
  | badHello bytes =>
    refine h.receive (n := 0) hn hk bytes rfl rfl (fun _ => rfl) (fun b => ?_) ?_ (.inl ⟨rfl, rfl⟩)
    · split <;> simp [Master.hellos, Master.closeSocket, Master.setSocket]
    · exact (h.counted _).trans (completeHellos_append _ _)
  | piece bytes w hlt htext =>
    obtain ⟨hlen, hold⟩ := h.live hk (by omega)
    refine h.receive (n := 0) hn hk bytes rfl rfl (fun _ => rfl) (fun b => ?_) ?_
      (.inr ⟨hk.type, rfl, ?_, fun j hj hj8 => ?_⟩)
    · split <;> simp [Master.hellos, Master.setSocket]
    · exact (h.counted _).trans (completeHellos_append _ _)
    · rw [List.length_append, hlen]; simp only [Nat.add_zero]; omega
    · simp only at hj
      rw [Nat.add_zero]
      by_cases hj' : j < (m.sockets k).readOffset
      · rw [List.getElem?_append_left (by omega)]
        exact hold j hj' hj8
      · obtain ⟨i, rfl⟩ := Nat.exists_eq_add_of_le (Nat.not_lt.1 hj')
        rw [List.getElem?_append_right (by omega), htext i (by omega) hj8]
        congr 1; omega

/-- The hello is noted, and the offset of its slot is back at 0. -/
theorem hello_framed (h : Framed m) (hn : Names m) (hk : Live m k) {bytes : List UInt8}
    (hc : Completes (m.sockets k) env events) (hb : env.recv = some bytes) :
    Framed (helloRead (helloState m k bytes) k) := by
  obtain ⟨-, -, hro, bytes', hb', hle, htext⟩ := hc
  cases hb.symm.trans hb'
  obtain ⟨hlen, hold⟩ := h.live hk hro
  set s := m.sockets k with hs
  set buf := bytes.take (helloLen - s.readOffset) with hbuf
  have hbuflen : buf.length = helloLen - s.readOffset := by
    rw [hbuf, List.length_take]; omega
  have hext : (m.stream s.fd ++ buf).length = helloLen * (m.hellos s.fd + 1) := by
    rw [List.length_append, hlen, hbuflen, Nat.mul_succ]; omega
  have hello : IsHello (m.stream s.fd ++ buf) (m.hellos s.fd) := by
    intro j hj
    by_cases hj' : j < s.readOffset
    · rw [List.getElem?_append_left (by omega)]
      exact hold j hj' hj
    · obtain ⟨i, rfl⟩ := Nat.exists_eq_add_of_le (Nat.not_lt.1 hj')
      have hi : i < helloLen - s.readOffset := by simp only [helloLen]; omega
      rw [List.getElem?_append_right (by omega), htext i (by omega), hbuf,
        show helloLen * m.hellos s.fd + (s.readOffset + i) - (m.stream s.fd).length = i by omega,
        List.getElem?_take_of_lt hi]
  refine h.receive (n := 1) hn hk buf rfl
    (s := { s with readOffset := 0, workerId := ((helloState m k bytes).sockets k).workerId })
    ?_ (fun b => ?_) (fun b => ?_) ?_ (.inr ⟨hk.type, rfl, ?_, fun j hj => absurd hj (by simp)⟩)
  · simp [helloRead, helloState, Master.setSocket, hs]
  · simp only [helloRead, helloState, Master.stream, Master.setSocket, emit_trace, streamOf]
    rfl
  · simp only [helloRead, Master.hellos, Master.setSocket, emit_trace, helloState_fd]
    simp only [helloState, Master.setSocket, emit_trace, List.count_cons, beq_iff_eq,
      Act.hello.injEq, reduceCtorEq, if_false, Nat.add_zero, ← hs]
    split <;> rfl
  · exact completeHellos_succ hlen (h.counted _) hro hext hello
  · rw [hext]; rfl

theorem onBackend_framed (h : Framed m) (hn : Names m) (hk : Live m k) :
    Framed (onBackend m env k events) := by
  rcases onBackend_cases m env k events with ⟨-, hs⟩ | ⟨hc, bytes, hb, hs⟩
  · exact hs.framed h hn hk
  · rw [hs]
    exact Framed.blind.greeted (onHello_cases _ env k) (hello_framed h hn hk hc hb)

/-! ## Along runs -/

theorem Step.framed {l : Label} (hs : Step m l m') (ht : Table m) (hn : Names m)
    (h : Framed m) : Framed m' := by
  cases hs with
  | @handle env ev evs hb hh hf =>
    have ht' := ht.tail hb
    have hn' := hn.tail evs
    have h' : Framed { m with batch := evs } := h.same rfl rfl rfl
    have hk := ht.head hb
    refine handleEvent_rule ht' hk ⟨hf.ipc, hf.client⟩ hh (fun _ _ => h'.same rfl rfl rfl) ?_
    rintro - m₁ - hl ht₁ hf₁
    have hn₁ := Prims.names hl.prims hn'
    obtain ⟨-, n, hs, d, rfl⟩ := hl
    have h₁ : Framed { m with
      batch := evs, numWorkers := n, workerHandles := hs, workerDied := d } := h'.same rfl rfl rfl
    unfold handler
    split
    · exact h₁
    · exact onBackendConnect_framed h₁ ht₁ hn₁ hf₁
    · exact Framed.blind.onFrontend ht₁ hf₁ h₁
    · exact onBackend_framed h₁ hn₁ ⟨hk, ‹_›⟩
  | wait _ _ _ | sigusr1 | sigterm => exact h.same rfl rfl rfl

theorem startup_framed (cfg : Setup) : Framed (startup cfg) := by
  have hst := startup_started cfg
  refine ⟨fun b => ?_, fun hk => absurd hk.type (hst.backend _), fun k _ => .inl (hst.readOffset k)⟩
  have h0 : (startup cfg).hellos b = 0 := by
    refine List.count_eq_zero.2 fun hb => ?_
    obtain ⟨fd, he⟩ := hst.trace _ hb
    cases he
  omega

end Rustica
