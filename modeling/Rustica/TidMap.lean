/-
  The map from the type ids of a module to types (`tid_map`), and what `rst_compile` leaves of it.

  `rst_compile` makes the map a global, where `env_tid_to_oid` looks types up while `get_queries`
  runs, and it puts the `exec_env` of its thread aside.  Guest code can run SQL (`sql_backdoor`), and
  so make further calls of `rst_compile`; SQL that the compiler analyses can do so too.  A call is
  given here with the calls made while it runs (`Guest`), and what it allocates and frees is recorded
  with the level of its nesting.

  Left out are the module and the result, except that making them can fail.
-/
import Mathlib.Data.List.ReduceOption
import Rustica.Compile
import Rustica.Objects
import Rustica.Lib.PgTry

namespace Rustica.TidMap

open PgTry PgTry.Code

abbrev Uuid := BitVec 128

/-- `TidOid`; a null id is stored as `NULL`. -/
structure TidOid where
  tid : Option Uuid
  oid : Oid

/-- What `tid_map` points to. -/
structure Map where
  block : Block
  entries : List TidOid := []

inductive MapAct where
  | palloc (b : Block)
  | pfree (b : Block)

/-- `tid_map`, `tid_map_len`, the `exec_env` of the thread, the allocator, and the record of what
    the calls did on their levels, the latest first. -/
structure Globals where
  tidMap : Option Map := none
  tidMapLen : ℕ := 0
  execEnv : Option ℕ := none
  nextBlock : Block := 0
  log : List (ℕ × MapAct) := []

/-! ## `rst_compile` -/

inductive CompileCall where
  | getArgs | deconstruct | palloc | load | resultType | compileAot | constructArray | formTuple
  deriving DecidableEq

/-- An element of the array, whose attributes may be unreadable; the id may be null. -/
structure Pair where
  readable : Bool
  tid : Option Uuid
  typ : Oid

/-- What a call meets: the calls that fail, the array, and the catalog. -/
structure CompileInputs where
  fails : CompileCall → Bool
  /-- a null element is `none` -/
  tidOidMap : List (Option Pair)
  getBaseType : Oid → Option Oid

/-- What is stored for a pair, unless an error is raised. -/
def CompileInputs.entry (inp : CompileInputs) (pair : Pair) : Option TidOid :=
  if pair.readable then (inp.getBaseType pair.typ).map (TidOid.mk pair.tid) else none

/-- The whole map, if it can be read. -/
def CompileInputs.entries (inp : CompileInputs) : List TidOid :=
  inp.tidOidMap.reduceOption.filterMap inp.entry

/-- The element count is stored before the elements are looked at. -/
def deconstructArray (inp : CompileInputs) : Code Globals Unit := do
  call (inp.fails .deconstruct)
  update fun s => { s with tidMapLen := inp.tidOidMap.length }
  call (inp.tidOidMap.any Option.isNone)

def pallocMap (n : ℕ) (s : Globals) : Globals := { s with
  tidMap := some { block := s.nextBlock }
  nextBlock := s.nextBlock + 1
  log := (n, .palloc s.nextBlock) :: s.log }

def storeEntry (e : TidOid) (s : Globals) : Globals := { s with
  tidMap := s.tidMap.map fun m => { m with entries := m.entries ++ [e] } }

def readPairs (inp : CompileInputs) : List Pair → Code Globals Unit
  | [] => pure ()
  | pair :: pairs => match inp.entry pair with
    | none => call true
    | some e => do
      update (storeEntry e)
      readPairs inp pairs

/-- Up to the try block. -/
def start (n : ℕ) (inp : CompileInputs) : Code Globals Unit := do
  call (inp.fails .getArgs)
  deconstructArray inp
  if 0 < inp.tidOidMap.length then do
    call (inp.fails .palloc) (pallocMap n)
    readPairs inp inp.tidOidMap.reduceOption
  else pure ()

/-- The try block, with the code that runs and analyses `get_queries`. -/
def tryBlock (inp : CompileInputs) (guest : Code Globals Unit) : Code Globals Unit := do
  call (inp.fails .load)
  call (inp.fails .resultType)
  call (inp.fails .compileAot)
  guest
  call (inp.fails .constructArray)

/-- `pfree(tid_map)` reads the header of the map, so `NULL` is no argument for it. -/
def cleanup (n : ℕ) (prevExecEnv : Option ℕ) : Code Globals Unit := do
  let s ← state
  let m ← deref s.tidMap
  update fun s => { s with
    tidMap := none
    tidMapLen := 0
    execEnv := prevExecEnv
    log := (n, .pfree m.block) :: s.log }

/-- The `exec_env` of the thread is put aside for the try block. -/
def compileAside (n : ℕ) (inp : CompileInputs) (guest : Code Globals Unit) : Code Globals Unit := do
  let s ← state
  update fun s => { s with execEnv := none }
  pgFinally (tryBlock inp guest) fun _ => cleanup n s.execEnv

/-- A call on the level `n`. -/
def rstCompile (n : ℕ) (inp : CompileInputs) (guest : Code Globals Unit) : Code Globals Unit := do
  start n inp
  compileAside n inp guest
  call (inp.fails .formTuple)

/-- What `get_queries` and the analysis of its queries do: one call of `rst_compile` after the other,
    and the end.  With each goes the `exec_env` that the thread then has.  `sql_backdoor` catches the
    errors of the SQL that it runs; other errors end the guest code. -/
inductive Guest where
  | ends (execEnv : Option ℕ) (fails : Bool)
  | compiles (execEnv : Option ℕ) (inp : CompileInputs) (guest : Guest) (caught : Bool)
      (next : Guest)

/-- An error of the call is caught, or not. -/
def catching (caught : Bool) (c : Code Globals Unit) : Code Globals Unit :=
  if caught then pgCatch c (pure ()) else c

def Guest.run : Guest → ℕ → Code Globals Unit
  | .ends execEnv fails, _ => do
    update fun s => { s with execEnv }
    call fails
  | .compiles execEnv inp guest caught next, n => do
    update fun s => { s with execEnv }
    catching caught (rstCompile (n + 1) inp (guest.run (n + 1)))
    next.run n

/-! ## `env_tid_to_oid` -/

/-- The loop over the map; `none` if it reads past the end or through a null id. -/
def search : List TidOid → ℕ → Uuid → Option Oid
  | _, 0, _ => some 0
  | [], _ + 1, _ => none
  | e :: entries, len + 1, tid => match e.tid with
    | none => none
    | some t => if t = tid then some e.oid else search entries len tid

def envTidToOid (s : Globals) (tid : Uuid) : Option Oid :=
  match s.tidMap with
  | none => some 0
  | some m => search m.entries s.tidMapLen tid

/-! ## A call without a trace -/

/-- The maps allocated on a level, the latest first. -/
def allocated (n : ℕ) (s : Globals) : List Block :=
  s.log.filterMap fun
    | (m, .palloc b) => if m = n then some b else none
    | _ => none

/-- The maps freed on a level, the latest first. -/
def freed (n : ℕ) (s : Globals) : List Block :=
  s.log.filterMap fun
    | (m, .pfree b) => if m = n then some b else none
    | _ => none

/-- The call on the level `n`, made in `s`, leaves the globals as they were, and it frees what it
    allocates, once, and nothing else. -/
structure LeavesNoTrace (n : ℕ) (s : Globals) (e : Ending Unit) (s' : Globals) : Prop where
  survives : e ≠ .crashed
  tidMap : s'.tidMap = s.tidMap
  tidMapLen : s'.tidMapLen = s.tidMapLen
  execEnv : s'.execEnv = s.execEnv
  ownMap : ∃ maps, allocated n s' = maps ++ allocated n s ∧ freed n s' = maps ++ freed n s

/-- An error is raised before a global is written. -/
def CompileInputs.Early (inp : CompileInputs) : Prop :=
  inp.fails .getArgs = true ∨ inp.fails .deconstruct = true

/-- An error is raised after the count is written, and before there is a map. -/
def CompileInputs.Counted (inp : CompileInputs) : Prop :=
  ¬ inp.Early ∧ (none ∈ inp.tidOidMap ∨ (inp.tidOidMap ≠ [] ∧ inp.fails .palloc = true))

/-- The map is allocated and read. -/
def CompileInputs.Mapped (inp : CompileInputs) : Prop :=
  ¬ inp.Early ∧ ¬ inp.Counted ∧ inp.tidOidMap ≠ [] ∧
    ∀ pair, some pair ∈ inp.tidOidMap → inp.entry pair ≠ none

/-- Every nested call fails before it has a map, and before the try block. -/
def Guest.Unmapped : Guest → Prop
  | .ends _ _ => True
  | .compiles _ inp _ caught next => (inp.Early ∨ inp.Counted) ∧ (caught = true → next.Unmapped)

/-- The calls that leave no trace. -/
def Traceless (inp : CompileInputs) (guest : Guest) (s : Globals) : Prop :=
  inp.Early ∨
  (inp.Counted ∧ inp.tidOidMap.length = s.tidMapLen) ∨
  (inp.Mapped ∧ s.tidMap = none ∧ s.tidMapLen = 0 ∧
    (inp.fails .load = true ∨ inp.fails .resultType = true ∨ inp.fails .compileAot = true ∨
      guest.Unmapped))

variable {n : ℕ} {inp : CompileInputs} {s : Globals}

/-! ## Up to the try block -/

/-- How the code before the try block ends. -/
inductive Starts (n : ℕ) (inp : CompileInputs) (s : Globals) : Ending Unit → Globals → Prop
  | early : inp.Early → Starts n inp s .raised s
  | counted : inp.Counted →
    Starts n inp s .raised { s with tidMapLen := inp.tidOidMap.length }
  | empty : ¬ inp.Early → ¬ inp.Counted → inp.tidOidMap = [] →
    Starts n inp s (.returned ()) { s with tidMapLen := 0 }
  /-- the map is read in part -/
  | unread (entries : List TidOid) : ¬ inp.Early → ¬ inp.Counted → inp.tidOidMap ≠ [] →
    ¬ inp.Mapped → Starts n inp s .raised { pallocMap n s with
      tidMap := some ⟨s.nextBlock, entries⟩
      tidMapLen := inp.tidOidMap.length }
  | mapped : inp.Mapped →
    Starts n inp s (.returned ()) { pallocMap n s with
      tidMap := some ⟨s.nextBlock, inp.entries⟩
      tidMapLen := inp.tidOidMap.length }

theorem readPairs_ends {pairs : List Pair} {m : Map} (hm : s.tidMap = some m) :
    wp (readPairs inp pairs) (fun e s' => ∃ entries,
      s' = { s with tidMap := some ⟨m.block, m.entries ++ entries⟩ } ∧
      ((e = .returned () ∧ (∀ pair ∈ pairs, inp.entry pair ≠ none) ∧
          entries = pairs.filterMap inp.entry) ∨
        (e = .raised ∧ ¬ ∀ pair ∈ pairs, inp.entry pair ≠ none))) s := by
  induction pairs generalizing s m with
  | nil =>
    rw [readPairs, wp_pure]
    exact ⟨[], by rw [List.append_nil, ← hm], .inl ⟨rfl, nofun, rfl⟩⟩
  | cons pair pairs ih =>
    cases hp : inp.entry pair with
    | none =>
      simp only [readPairs, hp]
      refine ⟨[], ?_, .inr ⟨rfl, fun h => h pair List.mem_cons_self hp⟩⟩
      rw [List.append_nil, ← hm]
      rfl
    | some e =>
      simp only [readPairs, hp, wp_bind, wp_update, andThen_returned]
      have hm' : (storeEntry e s).tidMap = some ⟨m.block, m.entries ++ [e]⟩ := by
        simp [storeEntry, hm]
      have hcons : (∀ p ∈ pair :: pairs, inp.entry p ≠ none) ↔ ∀ p ∈ pairs, inp.entry p ≠ none := by
        simp [hp]
      refine wp_mono (ih hm') ?_
      rintro e' s' ⟨entries, rfl, h⟩
      refine ⟨e :: entries, by simp [storeEntry], ?_⟩
      rw [hcons, List.filterMap_cons_some hp, List.cons_inj_right]
      exact h

theorem any_isNone_iff {l : List (Option Pair)} : l.any Option.isNone = true ↔ none ∈ l := by
  rw [List.any_eq_true]
  constructor
  · rintro ⟨x, hx, h⟩
    rwa [Option.isNone_iff_eq_none.1 h] at hx
  · intro h
    exact ⟨none, h, rfl⟩

theorem start_ends (n : ℕ) (inp : CompileInputs) (s : Globals) :
    wp (start n inp) (Starts n inp s) s := by
  rw [start, wp_bind, wp_call]
  refine ⟨fun h => .early (.inl h), fun h1 => ?_⟩
  rw [andThen_returned, wp_bind, deconstructArray, wp_bind, wp_call]
  refine ⟨fun h => .early (.inr h), fun h2 => ?_⟩
  have hE : ¬ inp.Early := by simp [CompileInputs.Early, h1, h2]
  rw [andThen_returned, wp_bind, wp_update, andThen_returned, wp_call]
  refine ⟨fun h => .counted ⟨hE, .inl (any_isNone_iff.1 h)⟩, fun h3 => ?_⟩
  have hnull : none ∉ inp.tidOidMap := by
    rw [← any_isNone_iff, h3]
    exact Bool.false_ne_true
  rw [andThen_returned]
  by_cases hlen : inp.tidOidMap = []
  · have hC : ¬ inp.Counted := by simp [CompileInputs.Counted, hlen]
    simp only [hlen, List.length_nil, lt_irrefl, if_false]
    exact .empty hE hC hlen
  rw [if_pos (List.length_pos_iff.2 hlen), wp_bind, wp_call]
  refine ⟨fun h => .counted ⟨hE, .inr ⟨hlen, h⟩⟩, fun h4 => ?_⟩
  have hC : ¬ inp.Counted := by simp [CompileInputs.Counted, hnull, h4]
  rw [andThen_returned]
  refine wp_mono (readPairs_ends rfl) ?_
  simp only [List.reduceOption_mem_iff]
  rintro e s' ⟨entries, rfl, ⟨rfl, h, rfl⟩ | ⟨rfl, h⟩⟩
  · exact .mapped ⟨hE, hC, hlen, h⟩
  · exact .unread entries hE hC hlen fun hM => h hM.2.2.2

theorem search_length {entries : List TidOid} (h : ∀ e ∈ entries, e.tid ≠ none) (tid : Uuid) :
    search entries entries.length tid =
      some (((entries.find? fun e => e.tid = some tid).map TidOid.oid).getD 0) := by
  induction entries with
  | nil => rfl
  | cons e entries ih =>
    rw [List.forall_mem_cons] at h
    obtain ⟨t, ht⟩ := Option.ne_none_iff_exists'.1 h.1
    simp only [search, List.length_cons, ht, ih h.2, List.find?_cons, Option.some.injEq]
    by_cases htid : t = tid <;> simp [htid]

theorem length_entries (hM : inp.Mapped) : inp.entries.length = inp.tidOidMap.length := by
  obtain ⟨hE, hC, -, hread⟩ := hM
  have hnull : none ∉ inp.tidOidMap := fun h => hC ⟨hE, .inl h⟩
  have hpairs : inp.tidOidMap.reduceOption.length = inp.tidOidMap.length := by
    refine List.reduceOption_length_eq_iff.2 fun pair hp => ?_
    exact Option.isSome_iff_ne_none.2 fun h => hnull (h ▸ hp)
  rw [CompileInputs.entries, ← hpairs, List.filterMap_length_eq_length]
  intro pair hp
  exact Option.isSome_iff_ne_none.2 (hread pair (List.reduceOption_mem_iff.1 hp))

theorem entries_tid (hid : ∀ pair, some pair ∈ inp.tidOidMap → pair.tid ≠ none) :
    ∀ e ∈ inp.entries, e.tid ≠ none := by
  intro e he
  obtain ⟨pair, hp, hentry⟩ := List.mem_filterMap.1 he
  simp only [CompileInputs.entry, Option.ite_none_right_eq_some, Option.map_eq_some_iff] at hentry
  obtain ⟨-, oid, -, rfl⟩ := hentry
  exact hid pair (List.reduceOption_mem_iff.1 hp)

/-- **What the guest code of a call finds** is the base type of the first pair with the id that it
    looks up, and 0 if there is none. -/
theorem envTidToOid_mapped (hM : inp.Mapped)
    (hid : ∀ pair, some pair ∈ inp.tidOidMap → pair.tid ≠ none) (tid : Uuid) :
    wp (start n inp) (fun _ s' => envTidToOid s' tid =
      some (((inp.entries.find? fun e => e.tid = some tid).map TidOid.oid).getD 0)) s := by
  refine wp_mono (start_ends n inp s) fun e s' hs => ?_
  cases hs with
  | early hE => exact absurd hE hM.1
  | counted hC => exact absurd hC hM.2.1
  | empty _ _ hnil => exact absurd hnil hM.2.2.1
  | unread _ _ _ _ hno => exact absurd hM hno
  | mapped =>
    rw [← search_length (entries_tid hid) tid, length_entries hM]
    rfl

/-! ## The try block and its cleanup -/

theorem wp_cleanup_none {prev : Option ℕ} {Q : Ending Unit → Globals → Prop}
    (h : s.tidMap = none) : wp (cleanup n prev) Q s ↔ Q .crashed s := by
  simp [cleanup, h]

theorem wp_cleanup_some {prev : Option ℕ} {Q : Ending Unit → Globals → Prop} {m : Map}
    (h : s.tidMap = some m) : wp (cleanup n prev) Q s ↔ Q (.returned ()) { s with
      tidMap := none
      tidMapLen := 0
      execEnv := prev
      log := (n, .pfree m.block) :: s.log } := by
  simp [cleanup, h]

section
variable {I : Globals → Prop}

/-- What the steps of a call keep is kept by the call. -/
theorem keeps_rstCompile {guest : Code Globals Unit}
    (hstart : ∀ s e s', I s → Starts n inp s e s' → I s')
    (henv : ∀ s env, I s → I { s with execEnv := env })
    (hcleanup : ∀ prev, Keeps I (cleanup n prev)) (hguest : Keeps I guest) :
    Keeps I (rstCompile n inp guest) := by
  refine .bind (fun s h => wp_mono (start_ends n inp s) fun e s' => hstart s e s' h) fun _ => ?_
  refine .bind (.state_bind fun s _ => ?_) fun _ => .call fun _ => id
  refine .bind (.update fun s h => henv s none h) fun _ => .pgFinally ?_ fun _ => hcleanup _
  exact .bind (.call fun _ => id) fun _ => .bind (.call fun _ => id) fun _ =>
    .bind (.call fun _ => id) fun _ => .bind hguest fun _ => .call fun _ => id

/-- What the calls above a level keep is kept by guest code that is called there. -/
theorem keeps_run (hcall : ∀ m inp guest, n < m → Keeps I guest → Keeps I (rstCompile m inp guest))
    (henv : ∀ s env, I s → I { s with execEnv := env }) (g : Guest) {m : ℕ} (hm : n ≤ m) :
    Keeps I (g.run m) := by
  induction g generalizing m with
  | ends env fails => exact .bind (.update fun s h => henv s env h) fun _ => .call fun _ => id
  | compiles env inp guest caught next ih ihnext =>
    have hc : Keeps I (rstCompile (m + 1) inp (guest.run (m + 1))) :=
      hcall (m + 1) inp _ (by omega) (ih (by omega))
    refine .bind (.update fun s h => henv s env h) fun _ => ?_
    cases caught with
    | true => exact .bind (.pgCatch hc (.pure ())) fun _ => ihnext hm
    | false => exact .bind hc fun _ => ihnext hm

end

/-- The block `b` was allocated. -/
def Known (b : Block) (s : Globals) : Prop := b < s.nextBlock

/-- The map in the block `b` is `tid_map`. -/
def Owns (b : Block) (s : Globals) : Prop :=
  b < s.nextBlock ∧ ∃ m, s.tidMap = some m ∧ m.block = b

/-- It was allocated, and `tid_map` is another or `NULL`. -/
def Lost (b : Block) (s : Globals) : Prop :=
  b < s.nextBlock ∧ ∀ m, s.tidMap = some m → m.block ≠ b

/-- The record of a level. -/
def Recorded (n : ℕ) (maps frees : List Block) (s : Globals) : Prop :=
  allocated n s = maps ∧ freed n s = frees

variable {b : Block}

theorem Known.starts {e : Ending Unit} {s' : Globals} (h : Known b s) (hs : Starts n inp s e s') :
    Known b s' := by
  cases hs with
  | early | counted | empty => exact h
  | unread | mapped => exact Nat.lt_succ_of_lt h

theorem Known.cleanup (n : ℕ) (prev : Option ℕ) (b : Block) : Keeps (Known b) (cleanup n prev) := by
  intro s h
  cases hm : s.tidMap with
  | none => exact (wp_cleanup_none hm).2 h
  | some m => exact (wp_cleanup_some hm).2 h

theorem Known.run (b : Block) (g : Guest) (n : ℕ) : Keeps (Known b) (g.run n) :=
  keeps_run (n := 0) (fun _ _ _ _ hg => keeps_rstCompile (fun _ _ _ h => h.starts)
    (fun _ _ h => h) (fun prev => Known.cleanup _ prev b) hg) (fun _ _ h => h) g n.zero_le

theorem Lost.starts {e : Ending Unit} {s' : Globals} (h : Lost b s) (hs : Starts n inp s e s') :
    Lost b s' := by
  cases hs with
  | early | counted | empty => exact h
  | unread | mapped =>
    refine ⟨Nat.lt_succ_of_lt h.1, ?_⟩
    rintro m ⟨⟩
    exact h.1.ne'

theorem Lost.cleanup (n : ℕ) (prev : Option ℕ) (b : Block) : Keeps (Lost b) (cleanup n prev) := by
  intro s h
  cases hm : s.tidMap with
  | none => exact (wp_cleanup_none hm).2 h
  | some m => exact (wp_cleanup_some hm).2 ⟨h.1, nofun⟩

theorem Lost.run (b : Block) (g : Guest) (n : ℕ) : Keeps (Lost b) (g.run n) :=
  keeps_run (n := 0) (fun _ _ _ _ hg => keeps_rstCompile (fun _ _ _ h => h.starts)
    (fun _ _ h => h) (fun prev => Lost.cleanup _ prev b) hg) (fun _ _ h => h) g n.zero_le

theorem Recorded.starts {e : Ending Unit} {s' : Globals} {m : ℕ} {maps frees : List Block}
    (h : Recorded n maps frees s) (hm : n < m) (hs : Starts m inp s e s') :
    Recorded n maps frees s' := by
  cases hs with
  | early | counted | empty => exact h
  | unread | mapped =>
    simpa [Recorded, allocated, freed, pallocMap, hm.ne'] using h

theorem Recorded.cleanup {m : ℕ} (prev : Option ℕ) {maps frees : List Block} (hm : n < m) :
    Keeps (Recorded n maps frees) (cleanup m prev) := by
  intro s h
  cases hs : s.tidMap with
  | none => exact (wp_cleanup_none hs).2 h
  | some _ =>
    rw [wp_cleanup_some hs]
    simpa [Recorded, allocated, freed, hm.ne'] using h

theorem Recorded.run {maps frees : List Block} (g : Guest) (n : ℕ) :
    Keeps (Recorded n maps frees) (g.run n) :=
  keeps_run (n := n) (fun _ _ _ hm hg => keeps_rstCompile (fun _ _ _ h => h.starts hm)
    (fun _ _ h => h) (fun prev => Recorded.cleanup prev hm) hg) (fun _ _ h => h) g le_rfl

/-! ## A nested call -/

theorem keeps_tryBlock (inp : CompileInputs) {I : Globals → Prop} {guest : Code Globals Unit}
    (hg : Keeps I guest) :
    Keeps I (tryBlock inp guest) :=
  .bind (.call fun _ => id) fun _ => .bind (.call fun _ => id) fun _ =>
    .bind (.call fun _ => id) fun _ => .bind hg fun _ => .call fun _ => id

/-- The cleanup leaves no map, or crashes. -/
theorem compileAside_loses {guest : Code Globals Unit} (hb : Known b s)
    (hguest : Keeps (Known b) guest) :
    wp (compileAside n inp guest) (fun e s' => e = .crashed ∨ Lost b s') s := by
  have hcleanup : ∀ {s'} {prev : Option ℕ}, Known b s' →
      wp (cleanup n prev) (fun e s' => e = .crashed ∨ Lost b s') s' := by
    intro s' prev h
    cases hm : s'.tidMap with
    | none => exact (wp_cleanup_none hm).2 (.inl rfl)
    | some m => exact (wp_cleanup_some hm).2 (.inr ⟨h, nofun⟩)
  rw [compileAside, wp_bind, wp_state, andThen_returned, wp_bind, wp_update, andThen_returned,
    wp_pgFinally]
  refine wp_mono (keeps_tryBlock inp hguest { s with execEnv := none } hb) fun e s' h => ?_
  cases e with
  | returned _ => exact hcleanup h
  | raised =>
    refine wp_mono (hcleanup h) fun e s'' h' => ?_
    rcases h' with rfl | h'
    · exact .inl rfl
    · exact .inr h'
  | crashed => exact .inl rfl

/-- A nested call fails and leaves the map of the outer one in place, or the outer one loses it. -/
theorem nested_ends (n : ℕ) (inp : CompileInputs) {guest : Code Globals Unit} (h : Owns b s)
    (hguest : Keeps (Known b) guest) :
    wp (rstCompile n inp guest) (fun e s' =>
      ((inp.Early ∨ inp.Counted) ∧ e = .raised ∧ Owns b s') ∨
        (¬ (inp.Early ∨ inp.Counted) ∧ (e = .crashed ∨ Lost b s'))) s := by
  rw [rstCompile, wp_bind]
  refine wp_mono (start_ends n inp s) fun e s' hs => ?_
  have haside : ∀ {s'}, ¬ inp.Early → ¬ inp.Counted → Known b s' →
      wp (do compileAside n inp guest; call (inp.fails .formTuple)) (fun e s' =>
        ((inp.Early ∨ inp.Counted) ∧ e = .raised ∧ Owns b s') ∨
          (¬ (inp.Early ∨ inp.Counted) ∧ (e = .crashed ∨ Lost b s'))) s' := by
    intro s' hE hC hb
    rw [wp_bind]
    refine wp_mono (compileAside_loses hb hguest) fun e s'' h' => ?_
    have hno : ¬ (inp.Early ∨ inp.Counted) := fun h => h.elim hE hC
    cases e with
    | returned _ =>
      have hl : Lost b s'' := h'.resolve_left nofun
      rw [andThen_returned, wp_call]
      exact ⟨fun _ => .inr ⟨hno, .inr hl⟩, fun _ => .inr ⟨hno, .inr hl⟩⟩
    | raised | crashed => exact .inr ⟨hno, h'⟩
  cases hs with
  | early hE => exact .inl ⟨.inl hE, rfl, h⟩
  | counted hC => exact .inl ⟨.inr hC, rfl, h⟩
  | empty hE hC _ => exact haside hE hC h.1
  | unread entries hE hC =>
    refine .inr ⟨fun h => h.elim hE hC, .inr ⟨Nat.lt_succ_of_lt h.1, ?_⟩⟩
    rintro m ⟨⟩
    exact h.1.ne'
  | mapped hM => exact haside hM.1 hM.2.1 (Nat.lt_succ_of_lt h.1)

/-- Guest code leaves the map of the call in place exactly if no nested call gets one. -/
theorem run_ends (g : Guest) (h : Owns b s) : wp (g.run n) (fun e s' =>
    (g.Unmapped ∧ e ≠ .crashed ∧ Owns b s') ∨ (¬ g.Unmapped ∧ (e = .crashed ∨ Lost b s'))) s := by
  induction g generalizing s with
  | ends env fails =>
    rw [Guest.run, wp_bind, wp_update, andThen_returned, wp_call]
    exact ⟨fun _ => .inl ⟨trivial, nofun, h⟩, fun _ => .inl ⟨trivial, nofun, h⟩⟩
  | compiles env inp guest caught next _ ih =>
    rw [Guest.run, wp_bind, wp_update, andThen_returned, wp_bind]
    have henv : Owns b { s with execEnv := env } := h
    have hcall := nested_ends (n + 1) inp henv (Known.run b guest (n + 1))
    have hlost : ∀ {s'}, Lost b s' → ¬ (inp.Early ∨ inp.Counted) → wp (next.run n) (fun e s' =>
        ((Guest.compiles env inp guest caught next).Unmapped ∧ e ≠ .crashed ∧ Owns b s') ∨
          (¬ (Guest.compiles env inp guest caught next).Unmapped ∧
            (e = .crashed ∨ Lost b s'))) s' := by
      intro s' hl hno
      refine wp_mono (Lost.run b next n s' hl) fun e s'' h' => ?_
      exact .inr ⟨fun hu => hno hu.1, .inr h'⟩
    cases caught with
    | true =>
      rw [catching, if_pos rfl, wp_pgCatch]
      refine wp_mono hcall fun e s' h' => ?_
      rcases h' with ⟨hin, rfl, ho⟩ | ⟨hno, h'⟩
      · refine (wp_pure ()).2 ?_
        rw [andThen_returned]
        refine wp_mono (ih ho) fun e s'' h'' => ?_
        simpa only [Guest.Unmapped, hin, true_and, forall_const] using h''
      · cases e with
        | returned _ | raised => exact hlost (h'.resolve_left nofun) hno
        | crashed => exact .inr ⟨fun hu => hno hu.1, .inl rfl⟩
    | false =>
      rw [catching, if_neg Bool.false_ne_true]
      refine wp_mono hcall fun e s' h' => ?_
      rcases h' with ⟨hin, rfl, ho⟩ | ⟨hno, h'⟩
      · exact .inl ⟨⟨hin, nofun⟩, nofun, ho⟩
      · cases e with
        | returned _ => exact hlost (h'.resolve_left nofun) hno
        | raised => exact .inr ⟨fun hu => hno hu.1, .inr (h'.resolve_left nofun)⟩
        | crashed => exact .inr ⟨fun hu => hno hu.1, .inl rfl⟩

/-! ## Exactly the calls without a trace -/

/-- The globals after the cleanup. -/
structure Cleaned (n : ℕ) (prev : Option ℕ) (maps frees : List Block) (s : Globals) : Prop where
  tidMap : s.tidMap = none
  tidMapLen : s.tidMapLen = 0
  execEnv : s.execEnv = prev
  recorded : Recorded n maps frees s

theorem cleanup_ends {prev : Option ℕ} {maps frees : List Block} (h : Recorded n maps frees s) :
    wp (cleanup n prev) (fun e s' => (s.tidMap = none ∧ e = .crashed) ∨
      ∃ m, s.tidMap = some m ∧ e = .returned () ∧ Cleaned n prev maps (m.block :: frees) s') s := by
  cases hm : s.tidMap with
  | none => exact (wp_cleanup_none hm).2 (.inl ⟨rfl, rfl⟩)
  | some m =>
    rw [wp_cleanup_some hm]
    refine .inr ⟨m, rfl, rfl, rfl, rfl, rfl, ?_⟩
    simpa [Recorded, allocated, freed] using h

/-- What the try block leaves is cleaned up, unless the process crashes. -/
theorem compileAside_ends {g : Guest} {J : Ending Unit → Globals → Prop} {maps frees : List Block}
    (hJ : wp (tryBlock inp (g.run n)) J { s with execEnv := none }) (h : Recorded n maps frees s) :
    wp (compileAside n inp (g.run n)) (fun e s' => ∃ e₁ s₁, J e₁ s₁ ∧
      ((e = .crashed ∧ (e₁ = .crashed ∨ s₁.tidMap = none)) ∨
        (e ≠ .crashed ∧ e₁ ≠ .crashed ∧ ∃ m, s₁.tidMap = some m ∧
          Cleaned n s.execEnv maps (m.block :: frees) s'))) s := by
  rw [compileAside, wp_bind, wp_state, andThen_returned, wp_bind, wp_update, andThen_returned,
    wp_pgFinally]
  have hrec : Keeps (Recorded n maps frees) (tryBlock inp (g.run n)) :=
    keeps_tryBlock inp (Recorded.run g n)
  refine wp_mono (Q := fun e s => J e s ∧ Recorded n maps frees s) ⟨hJ, hrec _ h⟩ ?_
  rintro e₁ s₁ ⟨hJ₁, h₁⟩
  cases e₁ with
  | returned _ =>
    refine wp_mono (cleanup_ends h₁) fun e s' h' => ⟨_, s₁, hJ₁, ?_⟩
    rcases h' with ⟨hnone, rfl⟩ | ⟨m, hm, rfl, hc⟩
    · exact .inl ⟨rfl, .inr hnone⟩
    · exact .inr ⟨nofun, nofun, m, hm, hc⟩
  | raised =>
    refine wp_mono (cleanup_ends h₁) fun e s' h' => ⟨_, s₁, hJ₁, ?_⟩
    rcases h' with ⟨hnone, rfl⟩ | ⟨m, hm, rfl, hc⟩
    · exact .inl ⟨rfl, .inr hnone⟩
    · exact .inr ⟨nofun, nofun, m, hm, hc⟩
  | crashed => exact ⟨_, s₁, hJ₁, .inl ⟨rfl, .inl rfl⟩⟩

theorem tryBlock_ends {g : Guest} (h : Owns b s) : wp (tryBlock inp (g.run n)) (fun e s' =>
    ((inp.fails .load = true ∨ inp.fails .resultType = true ∨ inp.fails .compileAot = true ∨
      g.Unmapped) ∧ e ≠ .crashed ∧ Owns b s') ∨
    (¬ (inp.fails .load = true ∨ inp.fails .resultType = true ∨ inp.fails .compileAot = true ∨
      g.Unmapped) ∧ (e = .crashed ∨ Lost b s'))) s := by
  rw [tryBlock, wp_bind, wp_call]
  refine ⟨fun h1 => .inl ⟨.inl h1, nofun, h⟩, fun h1 => ?_⟩
  rw [andThen_returned, wp_bind, wp_call]
  refine ⟨fun h2 => .inl ⟨.inr (.inl h2), nofun, h⟩, fun h2 => ?_⟩
  rw [andThen_returned, wp_bind, wp_call]
  refine ⟨fun h3 => .inl ⟨.inr (.inr (.inl h3)), nofun, h⟩, fun h3 => ?_⟩
  rw [andThen_returned, wp_bind_call fun s' => by simp]
  refine wp_mono (run_ends g h) fun e s' h' => ?_
  simpa only [h1, h2, h3, Bool.false_eq_true, false_or] using h'

/-- What was recorded on the level by then tells the maps of the call. -/
theorem LeavesNoTrace.maps_eq {e : Ending Unit} {s' : Globals} {maps frees : List Block}
    (h : LeavesNoTrace n s e s') (hr : Recorded n (maps ++ allocated n s) (frees ++ freed n s) s') :
    maps = frees := by
  obtain ⟨l, ha, hf⟩ := h.ownMap
  have h1 : maps = l := List.append_cancel_right (hr.1.symm.trans ha)
  have h2 : frees = l := List.append_cancel_right (hr.2.symm.trans hf)
  exact h1.trans h2.symm

theorem recorded_self (n : ℕ) (s : Globals) : Recorded n ([] ++ allocated n s) ([] ++ freed n s) s :=
  ⟨rfl, rfl⟩

theorem recorded_pallocMap (n : ℕ) (s : Globals) :
    Recorded n ([s.nextBlock] ++ allocated n s) ([] ++ freed n s) (pallocMap n s) := by
  simp [Recorded, allocated, freed, pallocMap]

/-- **A call of `rst_compile` leaves no trace** exactly if it fails before it writes a global, or
    before it has a map while the count happens to be the same, or if it is made where there is no
    map, its array is not empty and can be read, and the calls nested in it fail before their maps. -/
theorem leaves_no_trace_iff (n : ℕ) (inp : CompileInputs) (guest : Guest) (s : Globals) :
    wp (rstCompile n inp (guest.run n)) (LeavesNoTrace n s) s ↔ Traceless inp guest s := by
  have hend : ∀ s', LeavesNoTrace n s .raised s' ↔ LeavesNoTrace n s (.returned ()) s' := fun s' =>
    ⟨fun h => { h with survives := nofun }, fun h => { h with survives := nofun }⟩
  rw [rstCompile, ← Code.bind_assoc, wp_bind_call hend, wp_bind]
  refine wp_iff (start_ends n inp s) fun e s' hs => ?_
  cases hs with
  | early hE => exact iff_of_true ⟨nofun, rfl, rfl, rfl, [], rfl, rfl⟩ (.inl hE)
  | counted hC =>
    constructor
    · intro h
      exact .inr (.inl ⟨hC, h.tidMapLen⟩)
    · rintro (hE | ⟨-, hlen⟩ | ⟨hM, -⟩)
      · exact absurd hE hC.1
      · exact ⟨nofun, rfl, hlen, rfl, [], rfl, rfl⟩
      · exact absurd hC hM.2.1
  | empty hE hC hnil =>
    rw [andThen_returned]
    refine wp_iff (compileAside_ends (J := fun _ _ => True) trivial (recorded_self n s)) ?_
    rintro e₂ s₂ ⟨e₁, s₁, -, h⟩
    refine iff_of_false (fun ht => ?_) ?_
    · rcases h with ⟨hcr, -⟩ | ⟨-, -, m, -, hc⟩
      · exact ht.survives hcr
      · have hmaps : [] = [m.block] := ht.maps_eq hc.recorded
        cases hmaps
    · rintro (h | h | h)
      · exact hE h
      · exact hC h.1
      · exact h.1.2.2.1 hnil
  | unread entries hE hC hne hM =>
    refine iff_of_false (fun ht => ?_) ?_
    · have hmaps : [s.nextBlock] = [] := ht.maps_eq (recorded_pallocMap n s)
      cases hmaps
    · rintro (h | h | h)
      · exact hE h
      · exact hC h.1
      · exact hM h.1
  | mapped hM =>
    have htr : Traceless inp guest s ↔ (s.tidMap = none ∧ s.tidMapLen = 0) ∧
        (inp.fails .load = true ∨ inp.fails .resultType = true ∨ inp.fails .compileAot = true ∨
          guest.Unmapped) := by
      rw [Traceless, and_assoc]
      constructor
      · rintro (h | h | h)
        · exact absurd h hM.1
        · exact absurd h.1 hM.2.1
        · exact h.2
      · exact fun h => .inr (.inr ⟨hM, h⟩)
    rw [andThen_returned, htr]
    refine wp_iff (compileAside_ends (tryBlock_ends (b := s.nextBlock)
      ⟨Nat.lt_succ_self _, _, rfl, rfl⟩) (recorded_pallocMap n s)) ?_
    rintro e₂ s₂ ⟨e₁, s₁, ⟨hu, hne, ho⟩ | ⟨hu, hl⟩, h⟩
    · obtain ⟨-, m, hm, hb⟩ := ho
      rcases h with ⟨-, hcr | hnone⟩ | ⟨hne₂, -, m', hm', hc⟩
      · exact absurd hcr hne
      · cases hm.symm.trans hnone
      cases hm.symm.trans hm'
      rw [and_iff_left hu]
      constructor
      · intro ht
        exact ⟨ht.tidMap.symm.trans hc.tidMap, ht.tidMapLen.symm.trans hc.tidMapLen⟩
      · rintro ⟨h1, h2⟩
        refine ⟨hne₂, hc.tidMap.trans h1.symm, hc.tidMapLen.trans h2.symm, hc.execEnv,
          [s.nextBlock], hc.recorded.1, ?_⟩
        rw [hc.recorded.2, hb]
        rfl
    · refine iff_of_false (fun ht => ?_) fun h' => hu h'.2
      rcases h with ⟨hcr, -⟩ | ⟨-, hne₁, m, hm, hc⟩
      · exact ht.survives hcr
      · have hb : [s.nextBlock] = [m.block] := ht.maps_eq hc.recorded
        exact (hl.resolve_left hne₁).2 m hm (List.singleton_injective hb).symm

/-- A call with an empty array. -/
def emptyArray : CompileInputs where
  fails _ := false
  tidOidMap := []
  getBaseType _ := none

theorem empty_array_leaves_trace :
    ¬ wp (rstCompile 0 emptyArray ((Guest.ends none false).run 0)) (LeavesNoTrace 0 {}) {} :=
  fun h => h.survives rfl

end Rustica.TidMap
