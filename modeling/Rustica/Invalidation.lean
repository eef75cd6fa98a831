/-
  Notifications and jobs.

  A notification reaches a worker as a signal at any time.  It is handled at the end of a round of
  `main_loop`, after the events of the wait; a job is one of these events.  So a job that is taken while
  a notification is pending may still find the module in the cache that the notification names, and
  runs it (`stale_job`).  It does not if no module that it may look up is named by one
  (`invalidations_first`).

  The socket and the other side of the connection are left out: a wait returns any events.
-/
import Rustica.ModuleCache
import Rustica.Worker

namespace Rustica.Invalidation

open Exec

/-! ## The main loop -/

/-- A notification: the channel and the payload. -/
structure Notification where
  channel : String
  payload : String

/-- Where the worker is in `main_loop`, with the events that are left of the wait. -/
inductive Pc where
  | waiting
  | handling (evs : List Events)
  /-- `recvmsg` has returned a job -/
  | taken (evs : List Events)
  /-- in `rst_prepare_module` for the job -/
  | preparing (evs : List Events)
  /-- the job runs the module -/
  | running (m : ℕ) (evs : List Events)
  /-- the process has ended, or is about to -/
  | gone

/-- A worker.  `pending` are the notifications that it has been signalled and not handled.  The last
    two are records that the code does not keep: `told` are the modules that were cached under the
    name of a notification when it was signalled, and `stale` is what `told` was when the last job was
    taken. -/
structure Loop where
  pc : Pc := .waiting
  state : ℕ := waitWrite
  pending : List Notification := []
  cache : ModuleCache := .empty
  told : List ℕ := []
  stale : List ℕ := []

/-- The answers of the calls that an event leads to. -/
structure EventEnv where
  shutdownRequested : Bool := false
  /-- the hello is written to its end -/
  written : Bool := true
  recvFails : Bool := false

/-- `mock_comm_putmessage`, for a message of type `A`. -/
def mockCommPutmessage (c : ModuleCache) (n : Notification) : ModuleCache :=
  if n.channel = "rustica_module_cache_invalidation" then c.invalidateCachedModule n.payload else c

/-- The modules that a notification says have changed. -/
def changed (ns : List Notification) : List String :=
  (ns.filter fun n => n.channel = "rustica_module_cache_invalidation").map Notification.payload

/-- The cached modules that notifications name. -/
def named (c : ModuleCache) (ns : List Notification) : List ℕ :=
  (c.registered.filter fun p => p.1 ∈ changed ns).map Prod.snd

namespace Loop

variable (w : Loop)

/-- One event of a wait.  A job that arrives with it is taken at the end. -/
def onEvent (env : EventEnv) (e : Events) (evs : List Events) : Loop :=
  if e.latchSet && env.shutdownRequested then { w with pc := .gone }
  else if e.closed then { w with pc := .gone }
  else
    let state := if w.state = waitWrite ∧ e.writeable ∧ env.written then waitRead else w.state
    if state = waitRead ∧ e.readable then
      if env.recvFails then { w with state := state, pc := .gone }
      else { w with state := state, pc := .taken evs, stale := w.told }
    else { w with state := state, pc := .handling evs }

/-- `on_notification_received`. -/
def onNotificationReceived : Loop :=
  { w with cache := w.pending.foldl mockCommPutmessage w.cache, pending := [] }

end Loop

/-- What happens to a worker. -/
inductive LoopEvent where
  /-- `SIGUSR1`, for a notification -/
  | signal (n : Notification)
  | wait (evs : List Events)
  | event (env : EventEnv)
  /-- the end of a round, where `notifyInterruptPending` is looked at -/
  | check
  /-- the job looks for `main`, and prepares it if it is not cached -/
  | lookup (row : Bool)
  | imports (name : String) (row : Bool)
  | loaded
  | done
  /-- an error is raised for the job -/
  | fails

/-- One step of a worker, or a signal between two steps. -/
def Loop.step (w : Loop) : LoopEvent → Option Loop
  | .signal n =>
    some { w with pending := w.pending ++ [n], told := w.told ++ named w.cache [n] }
  | .wait evs =>
    match w.pc with
    | .waiting =>
      if evs = [] ∧ w.state = waitRead then some { w with pc := .gone }
      else some { w with pc := .handling evs }
    | _ => none
  | .event env =>
    match w.pc with
    | .handling (e :: evs) => some (w.onEvent env e evs)
    | _ => none
  | .check =>
    match w.pc with
    | .handling [] =>
      if w.pending ≠ [] then some { w.onNotificationReceived with pc := .waiting }
      else some { w with pc := .waiting }
    | _ => none
  | .lookup row =>
    match w.pc with
    | .taken evs =>
      match w.cache.rstLookupModule "main" with
      | some m => some { w with pc := .running m evs }
      | none =>
        match rstPrepareModule "main" row with
        | .ok _ => some { w with
            pc := .preparing evs, cache := { w.cache with loading := [⟨"main", []⟩] } }
        | .error _ => some { w with pc := .gone }
    | _ => none
  | .imports name row =>
    match w.pc with
    | .preparing evs =>
      let c := w.cache.resolve name row
      -- without a row the load fails, and so does the job
      if c.loading = [] then some { w with cache := c, pc := .gone }
      else some { w with cache := c, pc := .preparing evs }
    | _ => none
  | .loaded =>
    match w.pc, w.cache.loading with
    | .preparing evs, m :: rest =>
      some { w with
        cache := w.cache.complete m rest
        pc := if rest = [] then .running w.cache.next evs else .preparing evs }
    | _, _ => none
  | .done =>
    match w.pc with
    | .running _ evs => some { w with pc := .handling evs, state := waitWrite }
    | _ => none
  | .fails =>
    match w.pc with
    | .taken _ | .preparing _ | .running _ _ => some { w with pc := .gone }
    | _ => none

def LoopStep (w : Loop) (e : LoopEvent) (w' : Loop) : Prop := w.step e = some w'

/-! ## What is asked of jobs -/

/-- Neither the module nor any that it is linked to was told to have changed before the job was
    taken. -/
def Loop.Fresh (w : Loop) (m : ℕ) : Prop :=
  ∀ d, w.cache.modules.Follows AOTModule.links m d → d ∉ w.stale

/-- A job looks up fresh modules only. -/
def FreshLookup (w : Loop) : LoopEvent → Prop
  | .lookup _ => ∀ m, w.cache.rstLookupModule "main" = some m → w.Fresh m
  | .imports name _ => ∀ m, w.cache.rstLookupModule name = some m → w.Fresh m
  | _ => True

/-- It runs a fresh module. -/
def RunsFresh (w : Loop) : Prop := ∀ m evs, w.pc = .running m evs → w.Fresh m

/-- The module and all that it is linked to are cached, and no pending notification names one of
    them. -/
def Loop.Current (w : Loop) (m : ℕ) : Prop :=
  ∀ d, w.cache.modules.Follows AOTModule.links m d →
    ∃ p ∈ w.cache.registered, p.2 = d ∧ p.1 ∉ changed w.pending

/-- `main` is current if it is cached; if the next job has to load it, all cached modules are. -/
def Loop.Settled (w : Loop) : Prop :=
  match w.cache.rstLookupModule "main" with
  | some m => w.Current m
  | none => ∀ p ∈ w.cache.registered, w.Current p.2

/-- The event leads to a job. -/
def Loop.Takes (w : Loop) (env : EventEnv) (e : Events) : Prop :=
  ¬ (e.latchSet && env.shutdownRequested) ∧ ¬ e.closed ∧ e.readable ∧ ¬ env.recvFails ∧
    (w.state = waitRead ∨ w.state = waitWrite ∧ e.writeable ∧ env.written)

/-- A job is taken only by a settled worker, and no module imports the application. -/
def Orderly (w : Loop) : LoopEvent → Prop
  | .event env => ∀ e evs, w.pc = .handling (e :: evs) → w.Takes env e → w.Settled
  | .imports name _ => name ≠ "main"
  | _ => True

/-! ## Names -/

/-- No two modules that are cached or being loaded have the same name, and the outermost load is that
    of `main`. -/
structure Single (c : ModuleCache) : Prop where
  nodup : (c.loading.map AOTModule.name ++ c.registered.map Prod.fst).Nodup
  last : ∀ n ∈ (c.loading.map AOTModule.name).getLast?, n = "main"

variable {c : ModuleCache} {name : String} {i : ℕ} {ns : List Notification} {n : Notification}

theorem map_name_link (d : ℕ) (ms : List AOTModule) :
    (ModuleCache.link d ms).map AOTModule.name = ms.map AOTModule.name := by
  cases ms with
  | nil => rfl
  | cons m rest => rfl

theorem Single.registered (hc : Single c) : (c.registered.map Prod.fst).Nodup :=
  (List.nodup_append.1 hc.nodup).2.1

theorem lookup_eq_none : c.rstLookupModule name = none ↔ ∀ p ∈ c.registered, p.1 ≠ name := by
  rw [ModuleCache.rstLookupModule, Option.map_eq_none_iff, List.find?_eq_none]
  simp only [decide_eq_true_eq, ne_eq]

/-- A load of `main` begins. -/
theorem Single.begin (hc : Single c) (hn : c.rstLookupModule "main" = none) :
    Single { c with loading := [⟨"main", []⟩] } where
  nodup := by
    refine List.nodup_cons.2 ⟨fun hmem => ?_, hc.registered⟩
    obtain ⟨p, hp, hpn⟩ := List.mem_map.1 hmem
    exact lookup_eq_none.1 hn p hp hpn
  last n hn := by simpa using hn.symm

theorem Single.isLoading_of_mem {m : AOTModule} (hc : Single c) (hm : m ∈ c.loading)
    (hn : m.name ≠ "main") : c.isLoading m.name = true := by
  have hne : c.loading ≠ [] := List.ne_nil_of_mem hm
  refine List.any_eq_true.2 ⟨m, ?_, by simp⟩
  rw [← List.dropLast_append_getLast hne, List.mem_append, List.mem_singleton] at hm
  refine hm.resolve_right fun hlast => hn (hc.last m.name ?_)
  rw [List.getLast?_map, List.getLast?_eq_some_getLast hne, hlast]
  rfl

/-- An import makes no name double, unless it is the application that is imported. -/
theorem Single.resolve {row : Bool} (hc : Single c) (hl : c.loading ≠ []) (hn : name ≠ "main") :
    Single (c.resolve name row) := by
  rw [ModuleCache.resolve]
  by_cases hload : c.isLoading name = true
  · rw [if_pos hload]
    exact hc
  · rw [if_neg hload]
    cases hd : c.rstLookupModule name with
    | some d =>
      refine ⟨?_, ?_⟩
      · rw [map_name_link]
        exact hc.nodup
      · rw [map_name_link]
        exact hc.last
    | none =>
      by_cases hread : wasmModuleReaderCallback name row = true
      · rw [if_pos hread]
        refine ⟨List.nodup_cons.2 ⟨fun hmem => ?_, hc.nodup⟩, ?_⟩
        · rcases List.mem_append.1 hmem with hmem | hmem
          · obtain ⟨m, hm, rfl⟩ := List.mem_map.1 hmem
            exact hload (hc.isLoading_of_mem hm hn)
          · obtain ⟨p, hp, hpn⟩ := List.mem_map.1 hmem
            exact lookup_eq_none.1 hd p hp hpn
        · intro n hlast
          obtain ⟨m, rest, hl⟩ := List.exists_cons_of_ne_nil hl
          rw [hl, List.map_cons, List.map_cons, List.getLast?_cons_cons] at hlast
          exact hc.last n (by rw [hl]; exact hlast)
      · rw [if_neg hread]
        exact ⟨hc.registered, by simp⟩

theorem Single.complete {m : AOTModule} {rest : List AOTModule} (hc : Single c)
    (hl : c.loading = m :: rest) : Single (c.complete m rest) where
  nodup := by
    have h := hc.nodup
    rw [hl] at h
    rw [ModuleCache.complete, map_name_link]
    exact List.perm_middle.nodup_iff.2 h
  last n hn := by
    rw [ModuleCache.complete, map_name_link] at hn
    refine hc.last n ?_
    rw [hl]
    cases rest with
    | nil => cases hn
    | cons m' rest => exact hn

/-! ## Dropping modules -/

theorem mem_changed : name ∈ changed ns ↔
    ∃ n ∈ ns, n.channel = "rustica_module_cache_invalidation" ∧ n.payload = name := by
  simp [changed, and_assoc]

theorem mem_named : i ∈ named c ns ↔ ∃ p ∈ c.registered, p.2 = i ∧ p.1 ∈ changed ns := by
  simp [named, and_comm]

/-- An invalidation drops the module of that name, where there is only one. -/
theorem mem_invalidate {p : String × ℕ} (hc : (c.registered.map Prod.fst).Nodup)
    (hp : p ∈ (c.invalidateCachedModule name).registered) : p ∈ c.registered ∧ p.1 ≠ name := by
  rw [ModuleCache.invalidateCachedModule] at hp
  cases hm : c.rstLookupModule name with
  | none =>
    rw [hm] at hp
    exact ⟨hp, lookup_eq_none.1 hm p hp⟩
  | some m =>
    rw [hm] at hp
    obtain ⟨hreg, hne⟩ := List.mem_filter.1 hp
    refine ⟨hreg, fun hname => ?_⟩
    obtain ⟨q, hq, rfl⟩ := Option.map_eq_some_iff.1 hm
    have hqn : q.1 = name := by simpa using List.find?_some hq
    have heq := List.inj_on_of_nodup_map hc hreg (List.mem_of_find?_eq_some hq) (hname.trans hqn.symm)
    rw [heq] at hne
    simp at hne

/-- A notification drops modules, and nothing else. -/
theorem putmessage_cases (c : ModuleCache) (n : Notification) :
    (mockCommPutmessage c n).registered.Sublist c.registered ∧
      (mockCommPutmessage c n).loading = c.loading ∧ (mockCommPutmessage c n).next = c.next := by
  rw [mockCommPutmessage]
  split_ifs
  · rw [ModuleCache.invalidateCachedModule]
    split
    · exact ⟨List.filter_sublist, rfl, rfl⟩
    · exact ⟨List.Sublist.refl _, rfl, rfl⟩
  · exact ⟨List.Sublist.refl _, rfl, rfl⟩

theorem Single.putmessage (hc : Single c) (n : Notification) :
    Single (mockCommPutmessage c n) := by
  obtain ⟨hreg, hload, -⟩ := putmessage_cases c n
  refine ⟨?_, ?_⟩
  · rw [hload]
    exact hc.nodup.sublist ((List.Sublist.refl _).append (hreg.map Prod.fst))
  · rw [hload]
    exact hc.last

theorem mem_putmessage {p : String × ℕ} (hc : Single c)
    (hp : p ∈ (mockCommPutmessage c n).registered) : p ∈ c.registered ∧ p.1 ∉ changed [n] := by
  rw [mockCommPutmessage] at hp
  split_ifs at hp with hch
  · obtain ⟨hreg, hne⟩ := mem_invalidate hc.registered hp
    refine ⟨hreg, fun hmem => hne ?_⟩
    obtain ⟨n', hn', -, heq⟩ := mem_changed.1 hmem
    rw [List.mem_singleton.1 hn'] at heq
    exact heq.symm
  · refine ⟨hp, fun hmem => hch ?_⟩
    obtain ⟨n', hn', heq, -⟩ := mem_changed.1 hmem
    rw [List.mem_singleton.1 hn'] at heq
    exact heq

/-- **Handled notifications** leave no module in the cache that one of them names. -/
theorem putmessages (hc : Single c) (ns : List Notification) :
    Single (ns.foldl mockCommPutmessage c) ∧
      (ns.foldl mockCommPutmessage c).registered.Sublist c.registered ∧
      (ns.foldl mockCommPutmessage c).next = c.next ∧
      ∀ p ∈ (ns.foldl mockCommPutmessage c).registered, p.1 ∉ changed ns := by
  induction ns generalizing c with
  | nil => exact ⟨hc, List.Sublist.refl _, rfl, fun p _ => by simp [changed]⟩
  | cons n ns ih =>
    obtain ⟨hs, hsub, hnext, hmem⟩ := ih (hc.putmessage n)
    obtain ⟨hsub1, -, hnext1⟩ := putmessage_cases c n
    refine ⟨hs, hsub.trans hsub1, hnext.trans hnext1, fun p hp hch => ?_⟩
    obtain ⟨n', hn', h1, h2⟩ := mem_changed.1 hch
    rcases List.mem_cons.1 hn' with rfl | hn'
    · exact (mem_putmessage hc (hsub.mem hp)).2 (mem_changed.2 ⟨n', List.mem_singleton.2 rfl, h1, h2⟩)
    · exact hmem p hp (mem_changed.2 ⟨n', hn', h1, h2⟩)

/-! ## Runs -/

/-- What holds between two steps of a worker whose application is not imported. -/
structure Loop.Inv (w : Loop) : Prop where
  single : Single w.cache
  preparing : ∀ evs, w.pc = .preparing evs → w.cache.loading ≠ []
  registered : ∀ p ∈ w.cache.registered, p.2 < w.cache.next
  distinct : (w.cache.registered.map Prod.snd).Nodup
  told : ∀ i ∈ w.told, i < w.cache.next
  /-- what is still cached of them is still named by a pending notification -/
  pending : ∀ p ∈ w.cache.registered, p.2 ∈ w.told → p.1 ∈ changed w.pending
  stale : ∀ i ∈ w.stale, i ∈ w.told

variable {w w' : Loop} {e : LoopEvent}

theorem Loop.Inv.init : Loop.Inv {} where
  single := ⟨List.nodup_nil, by simp [ModuleCache.empty]⟩
  preparing evs h := by cases h
  registered p hp := by cases hp
  distinct := List.nodup_nil
  told i hi := by cases hi
  pending p hp := by cases hp
  stale i hi := by cases hi

theorem changed_append (ns ms : List Notification) :
    changed (ns ++ ms) = changed ns ++ changed ms := by
  simp [changed]

/-- **A signal** adds to what is told and to what is pending. -/
theorem Loop.Inv.signal (hI : w.Inv) (n : Notification) :
    Loop.Inv { w with pending := w.pending ++ [n], told := w.told ++ named w.cache [n] } where
  single := hI.single
  preparing := hI.preparing
  registered := hI.registered
  distinct := hI.distinct
  told i hi := by
    rcases List.mem_append.1 hi with hi | hi
    · exact hI.told i hi
    · obtain ⟨p, hp, rfl, -⟩ := mem_named.1 hi
      exact hI.registered p hp
  pending p hp hi := by
    rw [changed_append, List.mem_append]
    rcases List.mem_append.1 hi with hi | hi
    · exact .inl (hI.pending p hp hi)
    · obtain ⟨q, hq, heq, hch⟩ := mem_named.1 hi
      rw [List.inj_on_of_nodup_map hI.distinct hq hp heq] at hch
      exact .inr hch
  stale i hi := List.mem_append_left _ (hI.stale i hi)

/-- **The end of a round**: what is pending is handled, and nothing that was told is still cached. -/
theorem Loop.Inv.handled (hI : w.Inv) (hpc : ∀ evs, w.pc ≠ .preparing evs) :
    w.onNotificationReceived.Inv := by
  obtain ⟨hs, hsub, hnext, hmem⟩ := putmessages hI.single w.pending
  refine ⟨hs, fun evs h => absurd h (hpc evs), ?_, ?_, ?_, ?_, hI.stale⟩
  · intro p hp
    exact hnext.symm ▸ hI.registered p (hsub.mem hp)
  · exact hI.distinct.sublist (hsub.map Prod.snd)
  · intro i hi
    exact hnext.symm ▸ hI.told i hi
  · intro p hp hi
    exact absurd (hI.pending p (hsub.mem hp) hi) (hmem p hp)

/-- A step that goes on with the same modules. -/
theorem Loop.Inv.move {pc : Pc} {state : ℕ} {ms : List AOTModule} (hI : w.Inv)
    (hs : Single { w.cache with loading := ms }) (hpc : ∀ evs, pc = .preparing evs → ms ≠ []) :
    Loop.Inv { w with pc := pc, state := state, cache := { w.cache with loading := ms } } where
  single := hs
  preparing := hpc
  registered := hI.registered
  distinct := hI.distinct
  told := hI.told
  pending := hI.pending
  stale := hI.stale

/-- **A load is complete**: the new module has not been told of. -/
theorem Loop.Inv.loaded {pc : Pc} {m : AOTModule} {rest : List AOTModule} (hI : w.Inv)
    (hl : w.cache.loading = m :: rest) (hpc : ∀ evs, pc = .preparing evs → rest ≠ []) :
    Loop.Inv { w with pc := pc, cache := w.cache.complete m rest } where
  single := hI.single.complete hl
  preparing evs h := by
    obtain ⟨m', rest', rfl⟩ := List.exists_cons_of_ne_nil (hpc evs h)
    exact List.cons_ne_nil _ _
  registered p hp := by
    rcases List.mem_cons.1 hp with rfl | hp
    · exact Nat.lt_succ_self _
    · exact Nat.lt_succ_of_lt (hI.registered p hp)
  distinct := by
    refine List.nodup_cons.2 ⟨fun hmem => ?_, hI.distinct⟩
    obtain ⟨p, hp, heq⟩ := List.mem_map.1 hmem
    exact absurd (hI.registered p hp) (by rw [heq]; exact lt_irrefl _)
  told i hi := Nat.lt_succ_of_lt (hI.told i hi)
  pending p hp hi := by
    rcases List.mem_cons.1 hp with rfl | hp
    · exact absurd (hI.told _ hi) (lt_irrefl _)
    · exact hI.pending p hp hi
  stale := hI.stale

/-- What holds of the job at hand. -/
def Loop.Ahead (w : Loop) : Prop :=
  match w.pc with
  | .taken _ =>
    match w.cache.rstLookupModule "main" with
    | some m => w.Fresh m
    | none => ∀ p ∈ w.cache.registered, w.Fresh p.2
  | .preparing _ =>
    (∀ p ∈ w.cache.registered, w.Fresh p.2) ∧ ∀ m ∈ w.cache.loading, ∀ d ∈ m.links, w.Fresh d
  | .running m _ => w.Fresh m
  | _ => True

/-- **A current module** has not been told of, and neither has what it is linked to. -/
theorem Loop.Inv.not_told {m d : ℕ} (hI : w.Inv) (hm : w.Current m)
    (hd : w.cache.modules.Follows AOTModule.links m d) : d ∉ w.told := by
  obtain ⟨p, hp, rfl, hch⟩ := hm d hd
  exact fun hi => hch (hI.pending p hp hi)

/-- **An event**, and the job that a settled worker takes with it. -/
theorem Loop.Inv.event {env : EventEnv} {ev : Events} {evs : List Events} (hI : w.Inv)
    (hC : w.Takes env ev → w.Settled) :
    (w.onEvent env ev evs).Inv ∧ (w.onEvent env ev evs).Ahead := by
  rw [Loop.onEvent]
  by_cases h1 : (ev.latchSet && env.shutdownRequested) = true
  · rw [if_pos h1]
    exact ⟨hI.move hI.single (fun _ h => by cases h), trivial⟩
  rw [if_neg h1]
  by_cases h2 : ev.closed = true
  · rw [if_pos h2]
    exact ⟨hI.move hI.single (fun _ h => by cases h), trivial⟩
  rw [if_neg h2]
  dsimp only
  generalize hst : (if w.state = waitWrite ∧ ev.writeable ∧ env.written then waitRead
    else w.state) = st
  by_cases h3 : st = waitRead ∧ ev.readable
  · rw [if_pos h3]
    by_cases h4 : env.recvFails = true
    · rw [if_pos h4]
      exact ⟨hI.move hI.single (fun _ h => by cases h), trivial⟩
    rw [if_neg h4]
    have hset : w.Settled := by
      refine hC ⟨h1, h2, h3.2, h4, ?_⟩
      by_cases hw : w.state = waitWrite ∧ ev.writeable ∧ env.written
      · exact .inr hw
      · rw [if_neg hw] at hst
        exact .inl (hst.trans h3.1)
    refine ⟨⟨hI.single, fun _ h => (by cases h), hI.registered, hI.distinct, hI.told, hI.pending,
      fun _ hi => hi⟩, ?_⟩
    unfold Loop.Settled at hset
    unfold Loop.Ahead
    dsimp only
    split at hset
    · exact fun d hd => hI.not_told hset hd
    · exact fun p hp d hd => hI.not_told (hset p hp) hd
  · rw [if_neg h3]
    exact ⟨hI.move hI.single (fun _ h => by cases h), trivial⟩

/-- **A new module** is fresh if it is linked to fresh ones, and the others remain so. -/
theorem Loop.Inv.fresh_complete {m : AOTModule} {rest : List AOTModule} {pc : Pc} {i : ℕ}
    (hI : w.Inv) (hlinks : ∀ d ∈ m.links, w.Fresh d) (hi : i = w.cache.next ∨ w.Fresh i) :
    Loop.Fresh { w with pc := pc, cache := w.cache.complete m rest } i := by
  intro q hq
  rcases Memory.follows_store hq with ⟨hne, hold⟩ | rfl | ⟨d, hd, hdq⟩
  · exact hi.resolve_left hne q hold
  · exact fun hst => absurd (hI.told _ (hI.stale _ hst)) (lt_irrefl _)
  · exact hlinks d hd q hdq

theorem resolve_eq (c : ModuleCache) (name : String) (row : Bool) :
    c.resolve name row = { c with loading := (c.resolve name row).loading } := by
  rw [ModuleCache.resolve]
  split
  · rfl
  · split
    · rfl
    · split
      · rfl
      · rfl

/-- An import links to what is cached. -/
theorem links_resolve {row : Bool} {I : ℕ → Prop} (hreg : ∀ p ∈ c.registered, I p.2)
    (hload : ∀ m ∈ c.loading, ∀ d ∈ m.links, I d) :
    ∀ m ∈ (c.resolve name row).loading, ∀ d ∈ m.links, I d := by
  rw [ModuleCache.resolve]
  by_cases hl : c.isLoading name = true
  · rw [if_pos hl]
    exact hload
  · rw [if_neg hl]
    cases hd : c.rstLookupModule name with
    | some d =>
      obtain ⟨n, hn⟩ := ModuleCache.mem_of_lookup hd
      exact ModuleCache.live_link hload (hreg _ hn)
    | none =>
      by_cases hread : wasmModuleReaderCallback name row = true
      · rw [if_pos hread]
        intro m hm
        rcases List.mem_cons.1 hm with rfl | hm
        · rintro d ⟨⟩
        · exact hload m hm
      · rw [if_neg hread]
        rintro m ⟨⟩

/-- **One step** keeps the job at hand ahead, and what it looks up is fresh. -/
theorem ahead_step (hI : w.Inv) (hA : w.Ahead) (hC : Orderly w e) (h : w.step e = some w') :
    (w'.Inv ∧ w'.Ahead) ∧ FreshLookup w e := by
  unfold Loop.Ahead at hA
  cases e with
  | signal n =>
    cases h
    exact ⟨⟨hI.signal n, hA⟩, trivial⟩
  | wait evs =>
    rw [Loop.step] at h
    split at h
    · split_ifs at h
      · cases h
        exact ⟨⟨hI.move hI.single (fun _ h => by cases h), trivial⟩, trivial⟩
      · cases h
        exact ⟨⟨hI.move hI.single (fun _ h => by cases h), trivial⟩, trivial⟩
    · cases h
  | event env =>
    rw [Loop.step] at h
    split at h
    · next e evs hpc =>
      cases h
      exact ⟨hI.event (hC e evs hpc), trivial⟩
    · cases h
  | check =>
    rw [Loop.step] at h
    split at h
    · next hpc =>
      have hI' := hI.handled (fun evs => by rw [hpc]; exact Pc.noConfusion)
      split_ifs at h
      · cases h
        exact ⟨⟨hI'.move hI'.single (fun _ h => by cases h), trivial⟩, trivial⟩
      · cases h
        exact ⟨⟨hI.move hI.single (fun _ h => by cases h), trivial⟩, trivial⟩
    · cases h
  | lookup row =>
    rw [Loop.step] at h
    split at h
    · next evs hpc =>
      rw [hpc] at hA
      dsimp only at hA
      split at h
      · next m hm =>
        rw [hm] at hA
        cases h
        refine ⟨⟨hI.move hI.single (fun _ h => by cases h), hA⟩, fun m' hm' => ?_⟩
        obtain rfl := Option.some.inj (hm.symm.trans hm')
        exact hA
      · next hm =>
        rw [hm] at hA
        refine ⟨?_, fun m' hm' => by rw [hm] at hm'; cases hm'⟩
        split at h
        · cases h
          refine ⟨hI.move (hI.single.begin hm) (fun _ _ => List.cons_ne_nil _ _), hA, ?_⟩
          intro m hm d hd
          rw [List.mem_singleton.1 hm] at hd
          cases hd
        · cases h
          exact ⟨hI.move hI.single (fun _ h => by cases h), trivial⟩
    · cases h
  | imports name row =>
    rw [Loop.step] at h
    split at h
    · next evs hpc =>
      rw [hpc] at hA
      have hs : Single (w.cache.resolve name row) :=
        hI.single.resolve (hI.preparing evs hpc) hC
      have hlinks : ∀ m ∈ (w.cache.resolve name row).loading, ∀ d ∈ m.links, w.Fresh d :=
        links_resolve hA.1 hA.2
      rw [resolve_eq] at h hs
      refine ⟨?_, fun m hm => ?_⟩
      · dsimp only at h
        split_ifs at h with hl
        · cases h
          exact ⟨hI.move hs (fun _ h => by cases h), trivial⟩
        · cases h
          exact ⟨hI.move hs (fun _ _ => hl), hA.1, hlinks⟩
      · obtain ⟨n, hn⟩ := ModuleCache.mem_of_lookup hm
        exact hA.1 _ hn
    · cases h
  | loaded =>
    rw [Loop.step] at h
    split at h
    · next evs m rest hpc hl =>
      rw [hpc] at hA
      cases h
      have hlinks : ∀ d ∈ m.links, w.Fresh d := hA.2 m (hl ▸ List.mem_cons_self ..)
      refine ⟨⟨hI.loaded hl fun _ hp => ?_, ?_⟩, trivial⟩
      · by_cases hrest : rest = []
        · rw [if_pos hrest] at hp
          cases hp
        · exact hrest
      unfold Loop.Ahead
      dsimp only
      by_cases hrest : rest = []
      · rw [if_pos hrest]
        exact hI.fresh_complete hlinks (.inl rfl)
      · rw [if_neg hrest]
        refine ⟨fun p hp => ?_, ModuleCache.live_link ?_ (hI.fresh_complete hlinks (.inl rfl))⟩
        · rcases List.mem_cons.1 hp with rfl | hp
          · exact hI.fresh_complete hlinks (.inl rfl)
          · exact hI.fresh_complete hlinks (.inr (hA.1 p hp))
        · intro m' hm' d hd
          exact hI.fresh_complete hlinks
            (.inr (hA.2 m' (hl ▸ List.mem_cons_of_mem _ hm') d hd))
    · cases h
  | done =>
    rw [Loop.step] at h
    split at h
    · cases h
      exact ⟨⟨hI.move hI.single (fun _ h => by cases h), trivial⟩, trivial⟩
    · cases h
  | fails =>
    have hgone : Loop.Inv { w with pc := .gone } := hI.move hI.single (fun _ h => by cases h)
    rw [Loop.step] at h
    split at h
    · cases h
      exact ⟨⟨hgone, trivial⟩, trivial⟩
    · cases h
      exact ⟨⟨hgone, trivial⟩, trivial⟩
    · cases h
      exact ⟨⟨hgone, trivial⟩, trivial⟩
    · cases h

variable {h : List (Loop × LoopEvent)}

/-- **Invalidations and jobs.**  In a run where no module imports the application and each job is taken
    when the application, and all that it is linked to, is cached and not named by a pending
    notification (every cached module, if the application has to be loaded), no job looks up or runs a
    module that the worker had been told of. -/
theorem invalidations_first (hr : Run LoopStep {} h w) (hC : Meets Orderly h) :
    Meets FreshLookup h ∧ Always RunsFresh h w := by
  have h0 : Loop.Inv {} ∧ Loop.Ahead {} := ⟨.init, trivial⟩
  have hstep : ∀ s a s', s.Inv ∧ s.Ahead → Orderly s a → LoopStep s a s' →
      (s'.Inv ∧ s'.Ahead) ∧ FreshLookup s a :=
    fun s a s' hs hC h => ahead_step hs.1 hs.2 hC h
  refine ⟨hr.meets_of_meets h0 hstep hC, ?_⟩
  have hI : Always (fun s => s.Inv ∧ s.Ahead) h w :=
    hr.always_of_meets h0 (fun s a s' hs hC h => (hstep s a s' hs hC h).1) hC
  refine hI.imp fun s hs m evs hpc => ?_
  have hA := hs.2
  unfold Loop.Ahead at hA
  rw [hpc] at hA
  exact hA

theorem orderly_of_empty {env : EventEnv} (hw : w.cache.registered = []) :
    Orderly w (.event env) := by
  intro e evs _ _
  have hnone : w.cache.rstLookupModule "main" = none :=
    lookup_eq_none.2 fun p hp => by rw [hw] at hp; cases hp
  rw [Loop.Settled, hnone]
  intro p hp
  rw [hw] at hp
  cases hp

theorem orderly_of_writeable {env : EventEnv} {evs : List Events}
    (hpc : w.pc = .handling (wlSocketWriteable :: evs)) : Orderly w (.event env) := by
  intro e evs' hpc' htakes
  rw [hpc] at hpc'
  cases hpc'
  exact absurd htakes.2.2.1 (by decide)

/-- A client, and the application is loaded for it. -/
def firstJob : List LoopEvent :=
  [.wait [wlSocketWriteable], .event {}, .check, .wait [wlSocketReadable], .event {}, .lookup true,
    .loaded, .done, .check]

def mainChanged : Notification := ⟨"rustica_module_cache_invalidation", "main"⟩

/-- The application has changed while the worker says hello: the next job loads it again. -/
theorem reloaded : ∃ h w, Run LoopStep {} h w ∧ (Meets FreshLookup h ∧ Always RunsFresh h w) ∧
    w.pc = .running 1 [] ∧ w.told = [0] := by
  have hr := Run.nil.execs (f := Loop.step) (s := {})
    (l := firstJob ++ [.wait [wlSocketWriteable], .signal mainChanged, .event {}, .check,
      .wait [wlSocketReadable], .event {}, .lookup true, .loaded]) (fun _ _ _ h => h) rfl
  refine ⟨_, _, hr, invalidations_first hr ?_, rfl, rfl⟩
  -- a job is taken twice, and nothing is cached then; the latest event comes first
  exact List.forall_iff_forall_mem.1
    ⟨trivial, trivial, orderly_of_empty rfl, trivial, trivial, orderly_of_writeable rfl, trivial,
      trivial, trivial, trivial, trivial, trivial, orderly_of_empty rfl, trivial, trivial,
      orderly_of_empty rfl, trivial⟩

/-- **The notification and the job in one wait**: the job comes first, and runs the old application. -/
theorem stale_job : ∃ h w, Run LoopStep {} h w ∧ ¬ Meets FreshLookup h ∧
    w.pc = .running 0 [] ∧ w.pending = [mainChanged] := by
  have hr := Run.nil.execs (f := Loop.step) (s := {})
    (l := firstJob ++ [.wait [wlSocketWriteable], .event {}, .check, .signal mainChanged,
      .wait [wlLatchSet, wlSocketReadable], .event {}, .event {}, .lookup true])
    (fun _ _ _ h => h) rfl
  refine ⟨_, _, hr, fun hF => ?_, rfl, rfl⟩
  have hlookup := (meets_cons _).1 hF
  exact hlookup.1 0 rfl 0 .refl (List.mem_singleton.2 rfl)

end Rustica.Invalidation
