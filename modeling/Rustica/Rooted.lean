/-
  References to objects of the guest that the host keeps while the guest runs.

  `get_queries` gives the host a struct with the queries of the module.  Its address is stored in the
  context, and the natives for statements, cursors and tuples read it there.  The test driver makes an
  object of a file's name once for a range of tests, and gives it to each of them.  Neither place is a
  root of the collector, so each of the two objects is as long alive as the guest keeps it: a use
  finds it exactly if every collection before has found it reached (`uses_live_iff`).

  `current_buf` is not among them: it is an argument of the native that is active meanwhile, and so in
  an active frame.
-/
import Rustica.Borrow

namespace Rustica

open Exec

/-! ## The host -/

/-- The objects, and what the host knows of them. -/
structure HostState where
  heap : ObjHeap
  /-- `ctx->queries` -/
  queries : Option ℕ
  /-- the file name, while the tests of a range are executed -/
  filename : Option ℕ

namespace ObjHeap

/-- A collection sweeps a list of objects. -/
def gc (s : ObjHeap) (dead : List ℕ) : ObjHeap := dead.foldl collect s

end ObjHeap

/-- What happens to the objects without the host looking at what it has kept. -/
def ObjEvent.Apart : ObjEvent → Prop
  | .executeStatement _ | .make (.cursorOpen _) | .collect _ => False
  | _ => True

inductive HostEvent where
  /-- something in the guest, or in a native -/
  | objects (e : ObjEvent)
  /-- a collection -/
  | gc (dead : List ℕ)
  /-- `rst_init_instance_context`, with the result of `get_queries` -/
  | initInstanceContext (queries : ℕ)
  /-- `env_execute_statement`; the statement may close cursors -/
  | executeStatement (closes : List Block)
  /-- `env_cursor_open` -/
  | cursorOpen (idx : ℕ)
  /-- `env_tuple_lower`: a row for the box of the query -/
  | tupleLower (box : ℕ)
  /-- a column that is set in a row -/
  | setColumns (row : ℕ) (columns : List ℕ)
  /-- the driver executes a test, the first of a range with a new object for the file name -/
  | executeTest
  /-- the last test of a range has been executed -/
  | rangeEnd

/-- The collector frees what it does not reach, no more and no less. -/
def HostEvent.Enabled (s : HostState) : HostEvent → Prop
  | .objects e => e.Enabled s.heap ∧ e.Apart
  | .gc dead => s.heap.nodes.Garbage Node.refs s.heap.gcRoots dead
  | .initInstanceContext q => s.heap.phase = .idle ∧ s.queries = none ∧ s.heap.Reaches q
  | .executeStatement closes =>
    (ObjEvent.executeStatement closes).Enabled s.heap ∧ s.queries.isSome
  | .cursorOpen idx => (ObjEvent.make (.cursorOpen idx)).Enabled s.heap ∧ s.queries.isSome
  | .tupleLower box => s.heap.phase = .idle ∧ ∃ q, s.queries = some q ∧
      (s.heap.nodes.Live q → s.heap.nodes.Follows Node.refs q box ∧
        ∃ fields, s.heap.nodes.get? box = some (.struct fields))
  | .setColumns row columns => s.heap.phase = .idle ∧
      (∃ fields, s.heap.nodes.get? row = some (.struct fields)) ∧
      ∀ q ∈ columns, s.heap.nodes.Live q
  | .executeTest | .rangeEnd => s.heap.phase = .idle

namespace HostState

/-- The row, in the box. -/
def newRow (s : ObjHeap) (box : ℕ) : ObjHeap :=
  { s with
    nodes := (s.nodes.store s.nextNode (.struct [])).store box (.struct [s.nextNode])
    nextNode := s.nextNode + 1 }

/-- The file name is a parameter of the test that is called, and so a root. -/
def executeTest (s : HostState) : HostState :=
  match s.filename with
  | some f => { s with heap := { s.heap with roots := f :: s.heap.roots } }
  | none =>
    { s with
      heap := (s.heap.step (.make (.newDatum textOid))).step .externrefOfObj
      filename := some (s.heap.nextNode + 1) }

def step (s : HostState) : HostEvent → HostState
  | .objects e => { s with heap := s.heap.step e }
  | .gc dead => { s with heap := s.heap.gc dead }
  | .initInstanceContext q => { s with queries := some q }
  | .executeStatement closes => { s with heap := s.heap.step (.executeStatement closes) }
  | .cursorOpen idx => { s with heap := s.heap.step (.make (.cursorOpen idx)) }
  | .tupleLower box => { s with heap := newRow s.heap box }
  | .setColumns row columns =>
    { s with heap := { s.heap with nodes := s.heap.nodes.store row (.struct columns) } }
  | .executeTest => s.executeTest
  | .rangeEnd => { s with filename := none }

/-- An instance with no objects yet. -/
def start : HostState := ⟨.empty, none, none⟩

/-- The object that the host looks at again. -/
def uses (s : HostState) : HostEvent → Option ℕ
  | .executeStatement _ | .cursorOpen _ | .tupleLower _ => s.queries
  | .executeTest => s.filename
  | _ => none

/-- The host keeps a reference to `p`. -/
def Holds (s : HostState) (p : ℕ) : Prop := s.queries = some p ∨ s.filename = some p

end HostState

def HostStep (s : HostState) (e : HostEvent) (s' : HostState) : Prop := e.Enabled s ∧ s' = s.step e

/-- **What the host uses is alive**: the object, and all that is found from there. -/
def UsesLive (s : HostState) (e : HostEvent) : Prop :=
  ∀ p ∈ s.uses e, ∀ q, s.heap.nodes.Follows Node.refs p q → s.heap.nodes.Live q

def HostEvent.IsGc : HostEvent → Prop
  | .gc _ => True
  | _ => False

/-- Every collection in which the host kept `p` has found that the guest reaches it. -/
def ReachedAtGcs (h : List (HostState × HostEvent)) (p : ℕ) : Prop :=
  ∀ x ∈ h, x.2.IsGc → x.1.Holds p → x.1.heap.Reaches p

/-- The host uses only what the guest has kept in reach, at each collection meanwhile. -/
def UsesReached (h : List (HostState × HostEvent)) (s : HostState) (e : HostEvent) : Prop :=
  ∀ p ∈ s.uses e, ReachedAtGcs h p

/-! ## Heaps without dangling pointers -/

/-- No live object points to one that has been freed, and no root is one. -/
structure ObjHeap.Intact (s : ObjHeap) : Prop where
  fresh : ∀ p, s.nodes.Live p → p < s.nextNode
  closed : s.nodes.Closed Node.refs
  roots : ∀ r ∈ s.gcRoots, s.nodes.Live r
  stack : ∀ p, s.phase = .converting p → (Holder.stack, p) ∈ s.locals

/-- An intact heap in which nothing has been freed since `s`, nor made anew under an old address. -/
structure ObjHeap.Grows (s s' : ObjHeap) : Prop where
  intact : s'.Intact
  next : s.nextNode ≤ s'.nextNode
  live : ∀ p, s.nodes.Live p → s'.nodes.Live p
  old : ∀ p, s'.nodes.Live p → s.nodes.Live p ∨ s.nextNode ≤ p

namespace ObjHeap

variable {s s' s'' : ObjHeap} {o : Obj} {p q a x t : ℕ} {v : Node}

theorem Intact.live_of_reaches (hI : s.Intact) (hq : s.Reaches q) : s.nodes.Live q :=
  hI.closed.traced hI.roots q hq

theorem Grows.refl (hI : s.Intact) : s.Grows s := ⟨hI, le_rfl, fun _ h => h, fun _ => .inl⟩

theorem Grows.trans (h : s.Grows s') (h' : s'.Grows s'') : s.Grows s'' := by
  refine ⟨h'.intact, h.next.trans h'.next, fun p hp => h'.live p (h.live p hp), fun p hp => ?_⟩
  rcases h'.old p hp with hp | hp
  · exact h.old p hp
  · exact .inr (h.next.trans hp)

/-- Only the roots change. -/
theorem Intact.of_roots (hI : s.Intact) (hnodes : s'.nodes = s.nodes)
    (hnext : s'.nextNode = s.nextNode) (hroots : ∀ r ∈ s'.gcRoots, s.nodes.Live r)
    (hstack : ∀ p, s'.phase = .converting p → (Holder.stack, p) ∈ s'.locals) : s.Grows s' := by
  refine ⟨⟨?_, ?_, ?_, hstack⟩, hnext.ge, ?_, ?_⟩ <;> rw [hnodes]
  · rw [hnext]
    exact hI.fresh
  · exact hI.closed
  · exact hroots
  · exact fun p hp => hp
  · exact fun p hp => .inl hp

/-- **An object is made or changed** so that it points to live ones. -/
theorem Intact.store (hI : s.Intact) (hnodes : s'.nodes = s.nodes.store x v)
    (hx : s.nodes.Live x ∨ s.nextNode ≤ x) (hlt : x < s'.nextNode)
    (hnext : s.nextNode ≤ s'.nextNode) (hv : ∀ q ∈ v.refs, q = x ∨ s.nodes.Live q)
    (hroots : ∀ r ∈ s'.gcRoots, r = x ∨ s.nodes.Live r)
    (hstack : ∀ p, s'.phase = .converting p → (Holder.stack, p) ∈ s'.locals) : s.Grows s' := by
  have hlive : ∀ q, s'.nodes.Live q ↔ q = x ∨ s.nodes.Live q := by
    intro q
    rw [hnodes]
    exact Memory.live_store
  refine ⟨⟨?_, ?_, fun r hr => (hlive r).2 (hroots r hr), hstack⟩, hnext, ?_, ?_⟩
  · intro q hq
    rcases (hlive q).1 hq with rfl | hq
    · exact hlt
    · exact (hI.fresh q hq).trans_le hnext
  · rw [hnodes]
    exact hI.closed.store hv
  · exact fun q hq => (hlive q).2 (.inr hq)
  · intro q hq
    rcases (hlive q).1 hq with rfl | hq
    · exact hx
    · exact .inl hq

/-- A new object that is not a root yet, or an old one that is changed. -/
theorem Intact.store_same (hI : s.Intact) (hnodes : s'.nodes = s.nodes.store x v)
    (hx : s.nodes.Live x ∨ s.nextNode ≤ x) (hlt : x < s'.nextNode)
    (hnext : s.nextNode ≤ s'.nextNode) (hv : ∀ q ∈ v.refs, q = x ∨ s.nodes.Live q)
    (hroots : s'.gcRoots = s.gcRoots) (hphase : s'.phase = s.phase)
    (hlocals : s'.locals = s.locals) : s.Grows s' := by
  refine hI.store hnodes hx hlt hnext hv ?_ ?_
  · rw [hroots]
    exact fun r hr => .inr (hI.roots r hr)
  · rw [hphase, hlocals]
    exact hI.stack

/-- What holds of all roots, kind by kind. -/
theorem forall_gcRoots {P : ℕ → Prop} : (∀ r ∈ s.gcRoots, P r) ↔ (∀ r ∈ s.globals, P r) ∧
    (∀ r ∈ s.roots, P r) ∧ (∀ l ∈ s.locals, P l.2) ∧ ∀ a, s.phase = .building a → P a := by
  simp only [gcRoots, List.forall_mem_append, List.forall_mem_map, and_assoc]
  cases s.phase <;> simp

/-! ### Natives -/

/-- **`rst_obj_new`**, with a local reference to something live. -/
theorem Intact.rstObjNew (hI : s.Intact) (ht : ∀ t, o.ref = some t → s.nodes.Live t) :
    s.Grows (s.rstObjNew o) := by
  obtain ⟨hglobals, hroots, hlocals, -⟩ := forall_gcRoots.1 hI.roots
  refine hI.store rfl (.inr le_rfl) (Nat.lt_succ_self _) (Nat.le_succ _) (by rintro q ⟨⟩) ?_ nofun
  refine forall_gcRoots.2 ⟨fun r hr => .inr (hglobals r hr), fun r hr => .inr (hroots r hr), ?_, ?_⟩
  · cases href : o.ref with
    | none =>
      simp only [ObjHeap.rstObjNew, href]
      exact fun l hl => .inr (hlocals l hl)
    | some t =>
      simp only [ObjHeap.rstObjNew, href]
      exact List.forall_mem_cons.2 ⟨.inr (ht t href), fun l hl => .inr (hlocals l hl)⟩
  · intro a ha
    cases ha
    exact .inl rfl

/-- What a native makes refers to something live. -/
theorem live_of_make {mk : Maker} (h : s.make mk = some o) (ht : o.ref = some t) :
    s.nodes.Live t := by
  have hin : ∀ {e oid p}, s.getDatum e oid = some p → s.nodes.Live p.1 := by
    rintro e oid ⟨a, d⟩ hd
    obtain ⟨-, o, ho, -⟩ := getDatum_eq hd
    exact Memory.live_of_get? ho
  have href : ∀ {e p}, s.getObj e = some p → s.nodes.Live e := by
    rintro e ⟨a, o⟩ ho
    exact Memory.live_of_get? (getObj_eq ho).1
  cases mk with
  | jsonIn refobj =>
    obtain ⟨p, hd, rfl⟩ := Option.map_eq_some_iff.1 h
    cases ht
    exact hin hd
  | jsonOut refobj =>
    obtain ⟨p, hd, rfl⟩ := Option.map_eq_some_iff.1 h
    cases ht
    exact hin hd
  | jsonbValueNewString str copied =>
    obtain ⟨p, hd, rfl⟩ := Option.map_eq_some_iff.1 h
    cases copied with
    | true => cases ht
    | false =>
      cases ht
      exact hin hd
  | sbReadText ref copied =>
    obtain ⟨⟨a, d⟩, hd, rfl⟩ := Option.map_eq_some_iff.1 h
    cases ht
    exact Memory.live_of_get? (getDatum_eq hd).1
  | cursorFetch cursor rows =>
    rw [make] at h
    split at h
    · cases h
      cases ht
    · cases h
  | tupleTableGet tuptable =>
    rw [make] at h
    split at h
    · next ho =>
      cases h
      cases ht
      exact href ho
    · cases h
  | column tuple oid =>
    rw [make] at h
    split at h
    · next ho =>
      cases h
      cases ht
      exact href ho
    · cases h
  | newDatum oid => cases h; cases ht
  | ownedDatum oid => cases h; cases ht
  | jsonbValueNewNull => cases h; cases ht
  | jsonbValueNewBool val => cases h; cases ht
  | jsonbValueNewNumeric => cases h; cases ht
  | sbNew => cases h; cases ht
  | cursorOpen idx => cases h; cases ht
  | monotonicNow => cases h; cases ht

theorem Intact.make (hI : s.Intact) (mk : Maker) : s.Grows (s.step (.make mk)) := by
  simp only [ObjHeap.step]
  split
  · next o h => exact hI.rstObjNew fun t ht => live_of_make h ht
  · exact .refl hI

theorem Intact.rstExternrefOfObj (hI : s.Intact) (ha : s.phase = .building a) :
    s.Grows s.rstExternrefOfObj := by
  rw [ObjHeap.rstExternrefOfObj, ha]
  obtain ⟨hglobals, hroots, hlocals, hbuilding⟩ := forall_gcRoots.1 hI.roots
  refine hI.store rfl (.inr le_rfl) (Nat.lt_succ_self _) (Nat.le_succ _) ?_ ?_ fun p hp => ?_
  · intro q hq
    rw [List.mem_singleton.1 hq]
    exact .inr (hbuilding a ha)
  · exact forall_gcRoots.2 ⟨fun r hr => .inr (hglobals r hr),
      List.forall_mem_cons.2 ⟨.inl rfl, fun r hr => .inr (hroots r hr)⟩,
      fun l hl => .inr (hlocals l hl), fun p hp => by cases hp⟩
  · cases hp

theorem Intact.newContainer (hI : s.Intact) (slots : ℕ) (v : Block → JsonbValue) :
    s.Grows (s.newContainer slots v) := by
  have hset : s.Grows { s with
      nodes := s.nodes.store s.nextNode (.refSet (List.replicate slots none))
      nextNode := s.nextNode + 1 } := by
    refine hI.store_same rfl (.inr le_rfl) (Nat.lt_succ_self _) (Nat.le_succ _) ?_ rfl rfl rfl
    rw [Node.refs, List.reduceOption_replicate_none]
    rintro q ⟨⟩
  refine hset.trans (hset.intact.rstObjNew fun t ht => ?_)
  cases ht
  exact Memory.live_store.2 (.inl rfl)

theorem Intact.setSlot (hI : s.Intact) {r i e : ℕ} {elems : Block} {w : JsonbValue}
    (he : s.nodes.Live e) (h : s.setSlot r elems i e w = some s') : s.Grows s' := by
  obtain ⟨ms, hr, -, rfl⟩ := setSlot_eq h
  have hlive : s.nodes.Live r := Memory.live_of_get? hr
  refine hI.store_same rfl (.inl hlive) (hI.fresh r hlive) le_rfl ?_ rfl rfl rfl
  intro q hq
  rcases List.mem_or_eq_of_mem_set (List.reduceOption_mem_iff.1 hq) with hq | hq
  · exact .inr (hI.closed r _ hr q (List.reduceOption_mem_iff.2 hq))
  · cases hq
    exact .inr he

theorem Intact.jsonbValueArraySet (hI : s.Intact) {array idx member : ℕ}
    (hm : s.nodes.Live member) (h : s.jsonbValueArraySet array idx member = some s') :
    s.Grows s' := by
  rw [ObjHeap.jsonbValueArraySet] at h
  split at h
  · exact hI.setSlot hm h
  · cases h

theorem Intact.jsonbValueObjectSet (hI : s.Intact) {object idx key value : ℕ}
    (hk : s.nodes.Live key) (hv : s.nodes.Live value)
    (h : s.jsonbValueObjectSet object idx key value = some s') : s.Grows s' := by
  rw [ObjHeap.jsonbValueObjectSet] at h
  split at h
  · obtain ⟨s₁, h₁, h₂⟩ := Option.bind_eq_some_iff.1 h
    have hkey := hI.setSlot hk h₁
    exact hkey.trans (hkey.intact.setSlot (hkey.live _ hv) h₂)
  · cases h

/-- An `Obj` is changed in place. -/
theorem Intact.replace (hI : s.Intact) (ha : s.nodes.Live a)
    (hnodes : s'.nodes = s.nodes.store a (.host o)) (hnext : s'.nextNode = s.nextNode)
    (hroots : s'.gcRoots = s.gcRoots) (hphase : s'.phase = s.phase)
    (hlocals : s'.locals = s.locals) : s.Grows s' := by
  refine hI.store_same hnodes (.inl ha) ?_ hnext.ge (by rintro q ⟨⟩) hroots hphase hlocals
  rw [hnext]
  exact hI.fresh a ha

theorem Intact.sbEnlarge (hI : s.Intact) {e : ℕ} (h : s.sbEnlarge e = some s') :
    s.Grows s' := by
  rw [ObjHeap.sbEnlarge] at h
  split at h
  · next a o hobj =>
    split at h
    · cases h
      exact hI.replace (Memory.live_of_get? (getObj_eq hobj).2) rfl rfl rfl rfl rfl
    · cases h
  · cases h

theorem Intact.cursorClose (hI : s.Intact) {e : ℕ} (h : s.cursorClose e = some s') :
    s.Grows s' := by
  rw [ObjHeap.cursorClose] at h
  split at h
  · next a o hobj =>
    split at h
    · cases h
      exact hI.replace (Memory.live_of_get? (getObj_eq hobj).2) rfl rfl rfl rfl rfl
    · cases h
  · cases h

/-- **`rst_obj_new_static`.** -/
theorem Intact.newStatic (hI : s.Intact) (oid : Oid) : s.Grows (s.newStatic oid) := by
  have hobj := hI.rstObjNew (o := { mem := s.nextBlock, body := .datum oid s.nextBlock }) nofun
  obtain ⟨hglobals, hroots, hlocals, -⟩ := forall_gcRoots.1 hobj.intact.roots
  refine hobj.trans (hobj.intact.store rfl (.inr le_rfl) (Nat.lt_succ_self _) (Nat.le_succ _) ?_ ?_
    nofun)
  · intro q hq
    rw [List.mem_singleton.1 hq]
    exact .inr (Memory.live_store.2 (.inl rfl))
  · exact forall_gcRoots.2 ⟨List.forall_mem_cons.2 ⟨.inl rfl, fun r hr => .inr (hglobals r hr)⟩,
      fun r hr => .inr (hroots r hr), fun l hl => .inr (hlocals l hl), nofun⟩

/-! ### Arrays that are converted -/

theorem Intact.convert (hI : s.Intact) : s.Grows s.convert := by
  obtain ⟨hglobals, hroots, hlocals, -⟩ := forall_gcRoots.1 hI.roots
  refine hI.store rfl (.inr le_rfl) (Nat.lt_succ_self _) (Nat.le_succ _) (by rintro q ⟨⟩) ?_ ?_
  · exact forall_gcRoots.2 ⟨fun r hr => .inr (hglobals r hr), fun r hr => .inr (hroots r hr),
      List.forall_mem_cons.2 ⟨.inl rfl, fun l hl => .inr (hlocals l hl)⟩, nofun⟩
  · intro p hp
    cases hp
    exact List.mem_cons_self ..

theorem Intact.convertElems (hI : s.Intact) (p : ℕ) : s.Grows (s.convertElems p) := by
  rw [ObjHeap.convertElems]
  split
  · next fs hp =>
    have hlive : s.nodes.Live p := Memory.live_of_get? hp
    have helems : s.Grows { s with
        nodes := s.nodes.store s.nextNode (.struct []), nextNode := s.nextNode + 1 } :=
      hI.store_same rfl (.inr le_rfl) (Nat.lt_succ_self _) (Nat.le_succ _) (by rintro q ⟨⟩) rfl rfl
        rfl
    refine helems.trans (helems.intact.store_same rfl (.inl (helems.live p hlive))
      (Nat.lt_succ_of_lt (hI.fresh p hlive)) le_rfl ?_ rfl rfl rfl)
    intro q hq
    rw [List.mem_singleton.1 hq]
    exact .inr (Memory.live_store.2 (.inl rfl))
  · exact .refl hI

theorem Intact.converted (hI : s.Intact) (hp : s.phase = .converting p) :
    s.Grows (s.converted p) := by
  obtain ⟨hglobals, hroots, hlocals, -⟩ := forall_gcRoots.1 hI.roots
  have hlive : s.nodes.Live p := hlocals (.stack, p) (hI.stack p hp)
  exact hI.of_roots rfl rfl (forall_gcRoots.2 ⟨hglobals, List.forall_mem_cons.2 ⟨hlive, hroots⟩,
    fun l hl => hlocals l (List.mem_of_mem_tail hl), nofun⟩) nofun

/-! ### The guest -/

theorem Intact.guestNew (hI : s.Intact) {fields : List ℕ} (hidle : s.phase = .idle)
    (hf : ∀ q ∈ fields, s.nodes.Live q) : s.Grows (s.step (.guestNew fields)) := by
  obtain ⟨hglobals, hroots, hlocals, hbuilding⟩ := forall_gcRoots.1 hI.roots
  refine hI.store rfl (.inr le_rfl) (Nat.lt_succ_self _) (Nat.le_succ _) (fun q hq => .inr (hf q hq))
    ?_ ?_
  · exact forall_gcRoots.2 ⟨fun r hr => .inr (hglobals r hr),
      List.forall_mem_cons.2 ⟨.inl rfl, fun r hr => .inr (hroots r hr)⟩,
      fun l hl => .inr (hlocals l hl), fun a ha => .inr (hbuilding a ha)⟩
  · rintro p (hp : s.phase = .converting p)
    rw [hidle] at hp
    cases hp

theorem Intact.setStruct (hI : s.Intact) {fields : List ℕ} (hp : s.nodes.Live p)
    (hf : ∀ q ∈ fields, s.nodes.Live q) :
    s.Grows { s with nodes := s.nodes.store p (.struct fields) } :=
  hI.store_same rfl (.inl hp) (hI.fresh p hp) le_rfl (fun q hq => .inr (hf q hq)) rfl rfl rfl

/-- **Nothing but a collection frees an object**, and nothing points into the void. -/
theorem Intact.step {e : ObjEvent} (hI : s.Intact) (he : e.Enabled s) (hc : ∀ p, e ≠ .collect p) :
    s.Grows (s.step e) := by
  have hlive : ∀ {q}, s.Reaches q → s.nodes.Live q := hI.live_of_reaches
  cases e with
  | guestNew fields => exact hI.guestNew he.1 fun q hq => hlive (he.2 q hq)
  | guestSet p fields =>
    obtain ⟨-, hp, -, hf⟩ := he
    exact hI.setStruct (hlive hp) fun q hq => hlive (hf q hq)
  | guestRoots roots =>
    obtain ⟨hglobals, -, hlocals, hbuilding⟩ := forall_gcRoots.1 hI.roots
    exact hI.of_roots rfl rfl (forall_gcRoots.2 ⟨hglobals, fun r hr => hlive (he.2 r hr), hlocals,
      hbuilding⟩) hI.stack
  | make m => exact hI.make m
  | externrefOfObj =>
    obtain ⟨a, ha⟩ := he
    exact hI.rstExternrefOfObj ha
  | jsonbValueNewArray length => exact hI.newContainer length .array
  | jsonbValueNewObject length => exact hI.newContainer (length * 2) .object
  | jsonbValueArraySet array idx member =>
    rw [ObjHeap.step]
    cases h : s.jsonbValueArraySet array idx member with
    | none => exact .refl hI
    | some s' => exact hI.jsonbValueArraySet (hlive he.2.2) h
  | jsonbValueObjectSet object idx key value =>
    rw [ObjHeap.step]
    cases h : s.jsonbValueObjectSet object idx key value with
    | none => exact .refl hI
    | some s' => exact hI.jsonbValueObjectSet (hlive he.2.2.1) (hlive he.2.2.2) h
  | sbWrite refobj =>
    rw [ObjHeap.step]
    cases h : s.sbEnlarge refobj with
    | none => exact .refl hI
    | some s' => exact hI.sbEnlarge h
  | cursorClose cursor =>
    rw [ObjHeap.step]
    cases h : s.cursorClose cursor with
    | none => exact .refl hI
    | some s' => exact hI.cursorClose h
  | executeStatement closes => exact hI.of_roots rfl rfl hI.roots hI.stack
  | newStatic oid => exact hI.newStatic oid
  | convert => exact hI.convert
  | convertElems =>
    obtain ⟨p, hp⟩ := he
    simp only [ObjHeap.step, hp]
    exact hI.convertElems p
  | converted =>
    obtain ⟨p, hp⟩ := he
    simp only [ObjHeap.step, hp]
    exact hI.converted hp
  | collect p => exact absurd rfl (hc p)

/-! ### Collections -/

theorem collect_nodes : (s.collect p).nodes = s.nodes.free p := by
  rw [collect]
  split <;> rfl

/-- The finalizer of an `Obj` removes its own local reference, not that of a native. -/
structure LocalsLeft (s s' : ObjHeap) : Prop where
  globals : s'.globals = s.globals
  roots : s'.roots = s.roots
  phase : s'.phase = s.phase
  next : s'.nextNode = s.nextNode
  locals : ∀ r ∈ s'.locals, r ∈ s.locals
  stack : ∀ t, (Holder.stack, t) ∈ s.locals → (Holder.stack, t) ∈ s'.locals

theorem collect_left : s.LocalsLeft (s.collect p) := by
  rw [collect]
  split
  · next o _ =>
    refine ⟨rfl, rfl, rfl, rfl, fun r hr => ?_, fun t ht => ?_⟩
    · simp only [objFinalizer] at hr
      split at hr
      · exact List.mem_of_mem_eraseP hr
      · exact hr
    · simp only [objFinalizer]
      split
      · exact (List.mem_eraseP_of_neg (by simp)).2 ht
      · exact ht
  · exact ⟨rfl, rfl, rfl, rfl, fun _ hr => hr, fun _ ht => ht⟩

theorem gc_nodes {dead : List ℕ} : (s.gc dead).nodes = s.nodes.sweep dead := by
  induction dead generalizing s with
  | nil => rfl
  | cons p dead ih =>
    refine (ih (s := s.collect p)).trans ?_
    rw [collect_nodes]
    rfl

theorem gc_left {dead : List ℕ} : s.LocalsLeft (s.gc dead) := by
  induction dead generalizing s with
  | nil => exact ⟨rfl, rfl, rfl, rfl, fun _ hr => hr, fun _ ht => ht⟩
  | cons p dead ih =>
    have h := collect_left (s := s) (p := p)
    have h' := ih (s := s.collect p)
    exact ⟨h'.globals.trans h.globals, h'.roots.trans h.roots, h'.phase.trans h.phase,
      h'.next.trans h.next, fun r hr => h.locals r (h'.locals r hr),
      fun t ht => h'.stack t (h.stack t ht)⟩

variable {dead : List ℕ}

/-- **A collection** leaves exactly what is reached. -/
theorem gc_live_iff (hd : s.nodes.Garbage Node.refs s.gcRoots dead) :
    (s.gc dead).nodes.Live p ↔ s.nodes.Live p ∧ s.Reaches p := by
  rw [gc_nodes]
  exact hd.live_iff

theorem Intact.gc (hI : s.Intact) (hd : s.nodes.Garbage Node.refs s.gcRoots dead) :
    (s.gc dead).Intact := by
  have hleft : s.LocalsLeft (s.gc dead) := gc_left
  have hlive : ∀ r ∈ s.gcRoots, (s.gc dead).nodes.Live r :=
    fun r hr => (gc_live_iff hd).2 ⟨hI.roots r hr, .root hr⟩
  refine ⟨fun p hp => ?_, ?_, ?_, fun p hp => ?_⟩
  · rw [hleft.next]
    exact hI.fresh p ((gc_live_iff hd).1 hp).1
  · rw [gc_nodes]
    exact hI.closed.sweep hd
  · rw [forall_gcRoots] at hlive
    rw [forall_gcRoots, hleft.globals, hleft.roots, hleft.phase]
    exact ⟨hlive.1, hlive.2.1, fun l hl => hlive.2.2.1 l (hleft.locals l hl), hlive.2.2.2⟩
  · rw [hleft.phase] at hp
    exact hleft.stack p (hI.stack p hp)

end ObjHeap

/-! ## The host -/

variable {s s' : HostState} {e : HostEvent} {h : List (HostState × HostEvent)} {p : ℕ}

/-- The objects are intact, and the references of the host are to objects that it has been given. -/
structure HostKept (h : List (HostState × HostEvent)) (s : HostState) : Prop where
  intact : s.heap.Intact
  given : ∀ p, s.Holds p → p < s.heap.nextNode
  before : ∀ x ∈ h, x.1.heap.nextNode ≤ s.heap.nextNode
  givenBefore : ∀ x ∈ h, ∀ p, x.1.Holds p → p < x.1.heap.nextNode
  /-- what is alive has been reached at each collection since it was made -/
  reached : ∀ p, s.heap.nodes.Live p → ∀ x ∈ h, x.2.IsGc → p < x.1.heap.nextNode →
    x.1.heap.Reaches p
  /-- what the host keeps is alive if it has been reached at each collection meanwhile -/
  live : ∀ p, s.Holds p → ReachedAtGcs h p → s.heap.nodes.Live p

/-- **What the host keeps is alive** exactly if each collection has found it reached. -/
theorem HostKept.live_iff (hK : HostKept h s) (hp : s.Holds p) :
    s.heap.nodes.Live p ↔ ReachedAtGcs h p :=
  ⟨fun hl x hx hgc hold => hK.reached p hl x hx hgc (hK.givenBefore x hx p hold), hK.live p hp⟩

theorem ReachedAtGcs.tail (hr : ReachedAtGcs ((s, e) :: h) p) : ReachedAtGcs h p :=
  fun x hx => hr x (List.mem_cons_of_mem _ hx)

/-- A step in which nothing is freed; what the host keeps afterwards it has kept before, or is
    alive. -/
theorem HostKept.grows (hK : HostKept h s) (hgc : ¬ e.IsGc) (hgrows : s.heap.Grows s'.heap)
    (hheld : ∀ p, s'.Holds p → s.Holds p ∨ s'.heap.nodes.Live p) : HostKept ((s, e) :: h) s' := by
  constructor
  · exact hgrows.intact
  · intro p hp
    rcases hheld p hp with hp | hp
    · exact (hK.given p hp).trans_le hgrows.next
    · exact hgrows.intact.fresh p hp
  · rintro x hx
    rcases List.mem_cons.1 hx with rfl | hx
    · exact hgrows.next
    · exact (hK.before x hx).trans hgrows.next
  · intro x hx
    rcases List.mem_cons.1 hx with rfl | hx
    · exact hK.given
    · exact hK.givenBefore x hx
  · intro p hp x hx hxgc hlt
    rcases List.mem_cons.1 hx with rfl | hx
    · exact absurd hxgc hgc
    · rcases hgrows.old p hp with hp | hnew
      · exact hK.reached p hp x hx hxgc hlt
      · exact absurd (hlt.trans_le (hK.before x hx)) (Nat.not_lt.2 hnew)
  · intro p hp hr
    rcases hheld p hp with hp | hp
    · exact hgrows.live p (hK.live p hp hr.tail)
    · exact hp

/-- **A collection** frees what the host keeps unless it is reached. -/
theorem HostKept.gc {dead : List ℕ} (hK : HostKept h s)
    (hd : s.heap.nodes.Garbage Node.refs s.heap.gcRoots dead) :
    HostKept ((s, .gc dead) :: h) { s with heap := s.heap.gc dead } := by
  have hlive : ∀ {p}, (s.heap.gc dead).nodes.Live p ↔ s.heap.nodes.Live p ∧ s.heap.Reaches p :=
    ObjHeap.gc_live_iff hd
  have hnext : (s.heap.gc dead).nextNode = s.heap.nextNode := ObjHeap.gc_left.next
  constructor
  · exact hK.intact.gc hd
  · intro p hp
    rw [hnext]
    exact hK.given p hp
  · intro x hx
    rw [hnext]
    rcases List.mem_cons.1 hx with rfl | hx
    · exact le_rfl
    · exact hK.before x hx
  · intro x hx
    rcases List.mem_cons.1 hx with rfl | hx
    · exact hK.given
    · exact hK.givenBefore x hx
  · intro p hp x hx hgc hlt
    rcases List.mem_cons.1 hx with rfl | hx
    · exact (hlive.1 hp).2
    · exact hK.reached p (hlive.1 hp).1 x hx hgc hlt
  · intro p hp hr
    exact hlive.2 ⟨hK.live p hp hr.tail, hr _ (List.mem_cons_self ..) trivial hp⟩

theorem ObjHeap.Intact.newRow {s : ObjHeap} {box : ℕ} (hI : s.Intact) (hbox : s.nodes.Live box) :
    s.Grows (HostState.newRow s box) := by
  have hrow : s.Grows { s with
      nodes := s.nodes.store s.nextNode (.struct []), nextNode := s.nextNode + 1 } :=
    hI.store_same rfl (.inr le_rfl) (Nat.lt_succ_self _) (Nat.le_succ _) (by rintro q ⟨⟩) rfl rfl rfl
  refine hrow.trans (hrow.intact.setStruct (hrow.live box hbox) fun q hq => ?_)
  rw [List.mem_singleton.1 hq]
  exact Memory.live_store.2 (.inl rfl)

/-- **The file name** is made once, and a root while a test is executed. -/
theorem HostKept.executeTest (hK : HostKept h s) (huse : UsesLive s .executeTest) :
    HostKept ((s, .executeTest) :: h) s.executeTest := by
  rw [HostState.executeTest]
  split
  · next f hf =>
    have hlive : s.heap.nodes.Live f := huse f hf f .refl
    obtain ⟨hglobals, hroots, hrest⟩ := ObjHeap.forall_gcRoots.1 hK.intact.roots
    refine hK.grows id (hK.intact.of_roots rfl rfl ?_ hK.intact.stack) fun p hp => .inl hp
    exact ObjHeap.forall_gcRoots.2 ⟨hglobals, List.forall_mem_cons.2 ⟨hlive, hroots⟩, hrest⟩
  · have hobj := hK.intact.make (.newDatum textOid)
    have href := hobj.trans (hobj.intact.rstExternrefOfObj rfl)
    refine hK.grows id href fun p hp => ?_
    rcases hp with hp | hp
    · exact .inl (.inl hp)
    · cases hp
      exact .inr (Memory.live_store.2 (.inl rfl))

/-- **Along a run** in which everything used is alive. -/
theorem HostStep.kept (hs : HostStep s e s') (hK : HostKept h s) (huse : UsesLive s e) :
    HostKept ((s, e) :: h) s' := by
  obtain ⟨he, rfl⟩ := hs
  cases e with
  | objects e =>
    refine hK.grows id (hK.intact.step he.1 ?_) fun p hp => .inl hp
    rintro p rfl
    exact he.2
  | gc dead => exact hK.gc he
  | initInstanceContext q =>
    refine hK.grows id (.refl hK.intact) fun p hp => ?_
    rcases hp with hp | hp
    · cases hp
      exact .inr (hK.intact.live_of_reaches he.2.2)
    · exact .inl (.inr hp)
  | executeStatement closes => exact hK.grows id (hK.intact.step he.1 nofun) fun p hp => .inl hp
  | cursorOpen idx => exact hK.grows id (hK.intact.step he.1 nofun) fun p hp => .inl hp
  | tupleLower box =>
    obtain ⟨-, q, hq, hbox⟩ := he
    have hfollows := (hbox (huse q hq q .refl)).1
    exact hK.grows id (hK.intact.newRow (huse q hq box hfollows)) fun p hp => .inl hp
  | setColumns row columns =>
    obtain ⟨-, ⟨fields, hrow⟩, hc⟩ := he
    exact hK.grows id (hK.intact.setStruct (Memory.live_of_get? hrow) hc) fun p hp => .inl hp
  | executeTest => exact hK.executeTest huse
  | rangeEnd =>
    refine hK.grows id (.refl hK.intact) fun p hp => .inl ?_
    rcases hp with hp | hp
    · exact .inl hp
    · cases hp

theorem HostState.holds_of_uses (hp : p ∈ s.uses e) : s.Holds p := by
  cases e <;> first | exact .inl hp | exact .inr hp | cases hp

/-- A use finds all alive exactly if the object it begins with is. -/
theorem HostKept.usesLive_iff (hK : HostKept h s) : UsesLive s e ↔ UsesReached h s e := by
  constructor
  · intro huse p hp
    exact (hK.live_iff (HostState.holds_of_uses hp)).1 (huse p hp p .refl)
  · intro hr p hp q hq
    have hlive := (hK.live_iff (HostState.holds_of_uses hp)).2 (hr p hp)
    exact hK.intact.closed.live_of_follows hlive hq

theorem kept_start : HostKept [] .start where
  intact := by
    refine ⟨fun p hp => absurd hp Memory.not_live_empty, Memory.closed_empty, ?_, nofun⟩
    rintro r ⟨⟩
  given := by rintro p (hp | hp) <;> cases hp
  before := by rintro x ⟨⟩
  givenBefore := by rintro x ⟨⟩
  reached p hp := absurd hp Memory.not_live_empty
  live := by rintro p (hp | hp) <;> cases hp

/-- **What the host uses is alive exactly along the runs in which each collection, while the host
    keeps a reference that it uses later, finds the object reached by the guest**: the host itself
    does not hold it for the collector. -/
theorem uses_live_iff (hr : Run HostStep .start h s) : Meets UsesLive h ↔ MeetsPast UsesReached h :=
  hr.meets_iff_meetsPast kept_start (fun _ _ _ _ hK huse hs => hs.kept hK huse)
    fun _ _ _ hK => hK.usesLive_iff

theorem host_snoc (hr : Run HostStep .start h s) (he : e.Enabled s) :
    Run HostStep .start ((s, e) :: h) (s.step e) := .snoc hr ⟨he, rfl⟩

theorem usesReached_of_noGc (hno : ∀ x ∈ h, ¬ x.2.IsGc) : MeetsPast UsesReached h := by
  induction h with
  | nil => trivial
  | cons x h ih =>
    have htail : ∀ y ∈ h, ¬ y.2.IsGc := fun y hy => hno y (List.mem_cons_of_mem _ hy)
    exact ⟨fun p _ y hy hgc => absurd hgc (htail y hy), ih htail⟩

/-- `get_queries` makes one query without arguments: the text of the SQL, the OIDs, the box, the query
    and the struct of all queries. -/
def oneQuery : List HostEvent :=
  [.objects (.make (.newDatum byteaOid)), .objects .externrefOfObj, .objects (.guestNew []),
    .objects (.guestNew []), .objects (.guestNew [1, 2, 3]), .objects (.guestNew [4]),
    .initInstanceContext 5]

theorem oneQuery_run : ∃ h, Run HostStep .start h (oneQuery.foldl HostState.step .start) ∧
    ∀ x ∈ h, ¬ x.2.IsGc := by
  have h₁ := host_snoc (e := .objects (.make (.newDatum byteaOid))) .nil
    ⟨⟨rfl, by rintro q ⟨⟩⟩, trivial⟩
  have h₂ := host_snoc (e := .objects .externrefOfObj) h₁ ⟨⟨0, rfl⟩, trivial⟩
  have h₃ := host_snoc (e := .objects (.guestNew [])) h₂ ⟨⟨rfl, by rintro q ⟨⟩⟩, trivial⟩
  have h₄ := host_snoc (e := .objects (.guestNew [])) h₃ ⟨⟨rfl, by rintro q ⟨⟩⟩, trivial⟩
  have h₅ := host_snoc (e := .objects (.guestNew [1, 2, 3])) h₄
    ⟨⟨rfl, fun q hq => .root (List.mem_append_left _ (List.mem_append_left _ ?_))⟩, trivial⟩
  have h₆ := host_snoc (e := .objects (.guestNew [4])) h₅ ⟨⟨rfl, ?_⟩, trivial⟩
  have h₇ := host_snoc (e := .initInstanceContext 5) h₆ ⟨rfl, rfl, .root (by decide)⟩
  · refine ⟨_, h₇, fun x hx => ?_⟩
    simp only [List.mem_cons, List.not_mem_nil, or_false] at hx
    rcases hx with rfl | rfl | rfl | rfl | rfl | rfl | rfl <;> exact id
  · intro q hq
    rw [List.mem_singleton.1 hq]
    exact .root (by decide)
  · revert q
    decide

theorem oneQuery_live {p : ℕ} :
    (oneQuery.foldl HostState.step .start).heap.nodes.Live p ↔ p ∈ [5, 4, 3, 2, 1, 0] := by
  have hnodes : (oneQuery.foldl HostState.step .start).heap.nodes =
      ((((((Memory.empty.store 0 (.host ⟨0, .datum byteaOid 0, none, false, false⟩)).store 1
        (.externref 0)).store 2 (.struct [])).store 3 (.struct [])).store 4
        (.struct [1, 2, 3])).store 5 (.struct [4])) := rfl
  rw [hnodes]
  simp [Memory.live_store]

/-- The guest does not keep what `get_queries` has returned.  A collection frees it, and
    `env_execute_statement` reads there. -/
theorem queries_collected : ∃ h s s', Run HostStep .start ((s, .executeStatement []) :: h) s' ∧
    s.queries = some 5 ∧ ¬ s.heap.nodes.Live 5 ∧ ¬ UsesLive s (.executeStatement []) := by
  obtain ⟨h, h₁, -⟩ := oneQuery_run
  have h₂ := host_snoc (e := .objects (.guestRoots [])) h₁ ⟨⟨rfl, by rintro q ⟨⟩⟩, trivial⟩
  have h₃ := host_snoc (e := .gc [5, 4, 3, 2, 1, 0]) h₂ ?_
  have h₄ := host_snoc (e := .executeStatement []) h₃ ⟨⟨rfl, List.nodup_nil, by rintro q ⟨⟩⟩, rfl⟩
  · refine ⟨_, _, _, h₄, rfl, by decide, fun huse => ?_⟩
    have hlive := huse 5 rfl 5 .refl
    revert hlive
    decide
  · -- nothing is a root any more
    refine fun p => oneQuery_live.symm.trans (and_iff_left ?_).symm
    rintro ⟨r, ⟨⟩, -⟩

/-- The first test of a range drops the file name that it is given, and allocates.  The second test is
    given it again. -/
theorem filename_collected : ∃ h s s', Run HostStep .start ((s, .executeTest) :: h) s' ∧
    s.filename = some 1 ∧ ¬ s.heap.nodes.Live 1 := by
  have h₁ := host_snoc (e := .executeTest) .nil rfl
  have h₂ := host_snoc (e := .objects (.guestRoots [])) h₁ ⟨⟨rfl, by rintro q ⟨⟩⟩, trivial⟩
  have h₃ := host_snoc (e := .gc [1, 0]) h₂ ?_
  have h₄ := host_snoc (e := .executeTest) h₃ rfl
  · exact ⟨_, _, _, h₄, rfl, by decide⟩
  · have hlive : ∀ p, p ∈ [1, 0] ↔ (HostState.start.step .executeTest).heap.nodes.Live p := by
      intro p
      have hnodes : (HostState.start.step .executeTest).heap.nodes = (Memory.empty.store 0
        (.host ⟨0, .datum textOid 0, none, false, false⟩)).store 1 (.externref 0) := rfl
      rw [hnodes]
      simp [Memory.live_store]
    refine fun p => (hlive p).trans (and_iff_left ?_).symm
    rintro ⟨r, ⟨⟩, -⟩

/-- As long as the guest has the queries in a global, statements find them. -/
theorem kept_queries_live : ∃ h s, Run HostStep .start h s ∧ s.queries = some 5 ∧
    (∃ x ∈ h, x.2.IsGc) ∧ Meets UsesLive h := by
  obtain ⟨h, h₁, hno⟩ := oneQuery_run
  have hroot : ∀ q ∈ [5, 4, 3, 2, 1],
      (oneQuery.foldl HostState.step .start).heap.Reaches q := fun q hq => .root (by
    revert q
    decide)
  have h₂ := host_snoc (e := .gc []) h₁ ?_
  have h₃ := host_snoc (e := .executeStatement []) h₂ ⟨⟨rfl, List.nodup_nil, by rintro q ⟨⟩⟩, rfl⟩
  · refine ⟨_, _, h₃, rfl, ⟨_, List.mem_cons_of_mem _ (List.mem_cons_self ..), trivial⟩,
      (uses_live_iff h₃).2 ⟨?_, ?_, usesReached_of_noGc hno⟩⟩
    · rintro p hp x hx hgc -
      cases hp
      rcases List.mem_cons.1 hx with rfl | hx
      · exact hroot 5 (by decide)
      · exact absurd hgc (hno x hx)
    · rintro p ⟨⟩
  · -- the SQL is in its reference
    intro p
    refine iff_of_false List.not_mem_nil fun hp => hp.2 ?_
    have hmem : p ∈ [5, 4, 3, 2, 1] ++ [0] := oneQuery_live.1 hp.1
    rcases List.mem_append.1 hmem with hp | hp
    · exact hroot p hp
    · rw [List.mem_singleton.1 hp]
      exact (hroot 1 (by decide)).points ⟨_, rfl, List.mem_singleton.2 rfl⟩

end Rustica
