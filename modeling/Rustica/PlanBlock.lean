/-
  The block of a query plan (`rst_init_query_plan` in `query.c`), and the natives that read it.

  The five arrays of a plan are cut out of one allocation, in which the pointers to them are places,
  counted from its first byte.  Where the plan has no arguments or no columns some of the pointers
  stay null.  The arrays are filled on the way, between the checks of the row; a row that fails one
  leaves the plan as it is by then.  Each read and write is recorded, with the array it is meant for:
  all of them lie in that array, and what is read was written (`planBlock_exact`).
-/
import Rustica.Lib.Arrays
import Rustica.Lib.PgTry
import Rustica.Embedded
import Rustica.Load

namespace Rustica.PlanBlock

open PgTry Code

/-! ## The plan -/

/-- What the pointers of the converters point to; `none` is what was read next to their table. -/
inductive Func where
  | wasmToPg (fn : Option WasmToPg)
  | pgToWasm (fn : Option PgToWasm)
  deriving DecidableEq

/-- The arrays of a plan. -/
inductive Field where
  | wasmToPgFuncs
  | pgToWasmFuncs
  | retFieldTypes
  | argtypes
  | rettypes
  deriving DecidableEq

def sizeofPointer : ℕ := 8

/-- `sizeof(wasm_ref_type_t)`, which is kept in an `int64` in the database. -/
def sizeofRefType : ℕ := 8

def sizeofOid : ℕ := 4

/-- A read or a write of so many bytes, by the pointer to an array. -/
structure Access where
  field : Field
  place : ℕ
  bytes : ℕ

variable (pg : Postgres)

/-- `QueryPlan` with its block; without an allocation this has no bytes.  `accesses` is a record,
    which the code does not keep. -/
structure Plan where
  plan : Option pg.Plan := none
  nargs : ℕ := 0
  nattrs : ℕ := 0
  argtypes : Option ℕ := none
  rettypes : Option ℕ := none
  retType : Option RefType := none
  retFieldTypes : Option ℕ := none
  wasmToPgFuncs : Option ℕ := none
  pgToWasmFuncs : Option ℕ := none
  block : Alloc Func := .fresh 0
  accesses : List Access := []

variable {pg} {α : Type}

def Field.pointer (s : Plan pg) : Field → Option ℕ
  | .wasmToPgFuncs => s.wasmToPgFuncs
  | .pgToWasmFuncs => s.pgToWasmFuncs
  | .retFieldTypes => s.retFieldTypes
  | .argtypes => s.argtypes
  | .rettypes => s.rettypes

def Field.size : Field → ℕ
  | .wasmToPgFuncs | .pgToWasmFuncs => sizeofPointer
  | .retFieldTypes => sizeofRefType
  | .argtypes | .rettypes => sizeofOid

/-- An array with the type of its elements. -/
structure Column (α : Type) where
  field : Field
  coding : Coding Func α
  size_eq : coding.size = field.size := by rfl

def wasmToPg : Column (Option WasmToPg) where
  field := .wasmToPgFuncs
  coding := .pointer .wasmToPg (fun | .wasmToPg fn => some fn | _ => none) fun _ => rfl

def pgToWasm : Column (Option PgToWasm) where
  field := .pgToWasmFuncs
  coding := .pointer .pgToWasm (fun | .pgToWasm fn => some fn | _ => none) fun _ => rfl

def retFieldTypes : Column (BitVec 64) where
  field := .retFieldTypes
  coding := .word 8

def argtypes : Column Oid where
  field := .argtypes
  coding := .word 4

def rettypes : Column Oid where
  field := .rettypes
  coding := .word 4

/-! ## The code -/

/-- Elements are written, from index `i` on. -/
def write (col : Column α) (i : ℕ) (as : List α) : Code (Plan pg) Unit := fun s =>
  match col.field.pointer s with
  | none => (.crashed, s)
  | some p =>
    let place := p + col.coding.size * i
    let cells := col.coding.encodeAll as
    match s.block.store place cells with
    | none => (.crashed, s)
    | some block =>
      (.returned (), { s with block, accesses := ⟨col.field, place, cells.length⟩ :: s.accesses })

/-- The element at index `i` is read. -/
def read (col : Column α) (i : ℕ) : Code (Plan pg) α := fun s =>
  match col.field.pointer s with
  | none => (.crashed, s)
  | some p =>
    let place := p + col.coding.size * i
    match col.coding.decode s.block place with
    | none => (.crashed, s)
    | some a =>
      (.returned a, { s with accesses := ⟨col.field, place, col.coding.size⟩ :: s.accesses })

/-- A pointer to elements of some size, moved on by `n` of them. -/
def plus (size n : ℕ) (p : Option ℕ) : Option ℕ := p.map (· + size * n)

/-- The allocation, and the pointers into it.  The two counts are an `int` each, so that the size
    cannot wrap as a `size_t`. -/
def carve (nargs nattrs : ℕ) : Code (Plan pg) Unit := do
  let size := sizeofPointer * (nargs + nattrs) + sizeofRefType * nattrs +
    sizeofOid * (nargs + nattrs)
  call (size > Embedded.maxAllocSize)
  update fun s => { s with block := .fresh size, wasmToPgFuncs := some 0 }
  if 0 < nattrs then do
    update fun s => { s with pgToWasmFuncs := plus sizeofPointer nargs s.wasmToPgFuncs }
    update fun s => { s with
      retFieldTypes := plus sizeofPointer nattrs (plus sizeofPointer nargs s.wasmToPgFuncs) }
    if 0 < nargs then do
      update fun s => { s with argtypes := plus sizeofRefType nattrs s.retFieldTypes }
      update fun s => { s with rettypes := plus sizeofOid nargs s.argtypes }
    else update fun s => { s with rettypes := plus sizeofRefType nattrs s.retFieldTypes }
  else if 0 < nargs then
    update fun s => { s with argtypes := plus sizeofPointer nargs s.wasmToPgFuncs }
  else pure ()

/-- The loop over the arguments, from index `i` on. -/
def fillArgs : ℕ → List (BitVec 32) → List Oid → Code (Plan pg) Unit
  | i, fn :: fns, oid :: oids => do
    write wasmToPg i [wasmToPgFuncs[fn.toNat]?]
    write argtypes i [oid]
    fillArgs (i + 1) fns oids
  | _, _, _ => pure ()

/-- A loop that fills one array, from index `i` on. -/
def fill (col : Column α) : ℕ → List α → Code (Plan pg) Unit
  | _, [] => pure ()
  | i, a :: as => do
    write col i [a]
    fill col (i + 1) as

/-- The branch for statements with columns; `ret_field_types` is filled by `memcpy`. -/
def fillResult (row : QueryAttrs) (nattrs : ℕ) : Code (Plan pg) Unit :=
  if 0 < nattrs then do
    let ret ← ofExcept (getInt8s row 8)
    call (ret.length ≠ 1)
    update fun s => { s with retType := ret.head?.map RefType.ofInt64 }
    let oids ← ofExcept (getInt4s row 9)
    call (oids.length ≠ nattrs)
    fill rettypes 0 oids
    let fields ← ofExcept (getInt8s row 10)
    call (fields.length ≠ nattrs)
    write retFieldTypes 0 fields
  else pure ()

variable (pg)

def rstInitQueryPlan (row : QueryAttrs) : Code (Plan pg) Unit := do
  let sql ← ofExcept (getText row 3)
  let oids ← ofExcept (getInt4s row 5)
  let nargs := oids.length
  update fun s => { s with nargs }
  match pg.spiPrepare (cstring sql) oids with
  | none => raiseError
  | some plan => do
    call (!pg.spiKeepplan plan)
    update fun s => { s with plan := some plan }
    let nattrs := (pg.resultDesc plan).getD 0
    let fns ← ofExcept (getInt4s row 7)
    call (fns.length ≠ nargs)
    if 0 < nargs + nattrs then do
      carve nargs nattrs
      fillArgs 0 fns oids
    fillResult row nattrs
    let retFns ← ofExcept (getInt4s row 11)
    call (retFns.length ≠ nattrs)
    fill pgToWasm 0 (retFns.map fun fn => pgToWasmFuncs[fn.toNat]?)
    update fun s => { s with nattrs }

variable {pg} {δ : Type}

/-- The last `n` rounds of the loop over the arguments; `convert` is told the index of the field that
    has the value. -/
def convertArgs (convert : Option WasmToPg → Oid → ℕ → Except String δ) :
    ℕ → ℕ → Code (Plan pg) (List δ)
  | 0, _ => pure []
  | n + 1, i => do
    let fn ← read wasmToPg i
    let oid ← read argtypes i
    let value ← ofExcept (convert fn oid i)
    let values ← convertArgs convert n (i + 1)
    pure (value :: values)

def envExecuteStatement (convert : Option WasmToPg → Oid → ℕ → Except String δ)
    (executePlan : List δ → Except String Unit) : Code (Plan pg) Unit := do
  let s ← state
  let values ← convertArgs convert s.nargs 0
  ofExcept (executePlan values)

def envCursorOpen (isCursorPlan : Bool) (convert : Option WasmToPg → Oid → ℕ → Except String δ)
    (openCursor : List δ → Except String Unit) : Code (Plan pg) Unit := do
  call (!isCursorPlan)
  let s ← state
  let values ← convertArgs convert s.nargs 0
  ofExcept (openCursor values)

/-- The last `n` rounds of the loop over the columns. -/
def convertColumns (convert : Option PgToWasm → ℕ → Oid → RefType → Except String Unit) :
    ℕ → ℕ → Code (Plan pg) Unit
  | 0, _ => pure ()
  | n + 1, i => do
    let fn ← read pgToWasm i
    let oid ← read rettypes i
    let t ← read retFieldTypes i
    ofExcept (convert fn i oid (.ofInt64 t))
    convertColumns convert n (i + 1)

def envTupleLower (convert : Option PgToWasm → ℕ → Oid → RefType → Except String Unit) :
    Code (Plan pg) Unit := do
  let s ← state
  call (s.nattrs = 0)
  convertColumns convert s.nattrs 0

/-- A call for the plan, with what its converters and Postgres do. -/
inductive Request (δ : Type) where
  | executeStatement (convert : Option WasmToPg → Oid → ℕ → Except String δ)
      (executePlan : List δ → Except String Unit)
  | cursorOpen (isCursorPlan : Bool) (convert : Option WasmToPg → Oid → ℕ → Except String δ)
      (openCursor : List δ → Except String Unit)
  | tupleLower (convert : Option PgToWasm → ℕ → Oid → RefType → Except String Unit)

def Request.code : Request δ → Code (Plan pg) Unit
  | .executeStatement convert executePlan => envExecuteStatement convert executePlan
  | .cursorOpen isCursorPlan convert openCursor => envCursorOpen isCursorPlan convert openCursor
  | .tupleLower convert => envTupleLower convert

/-- One call after the other, whether they raise an error or not. -/
def serve : List (Request δ) → Code (Plan pg) Unit
  | [] => pure ()
  | request :: requests => do
    pgCatch request.code (pure ())
    serve requests

/-! ## What is asked -/

def Field.count (nargs nattrs : ℕ) : Field → ℕ
  | .wasmToPgFuncs | .argtypes => nargs
  | .pgToWasmFuncs | .retFieldTypes | .rettypes => nattrs

/-- The arrays, in the order of their places. -/
def fields : List Field := [.wasmToPgFuncs, .pgToWasmFuncs, .retFieldTypes, .argtypes, .rettypes]

/-- Where the pointer to an array says that it is. -/
def Plan.extent (s : Plan pg) (nargs nattrs : ℕ) (f : Field) : Extent :=
  ⟨(f.pointer s).getD 0, f.count nargs nattrs, f.size⟩

/-- The arrays that have elements have a pointer, each is aligned, and they are the block cut in
    pieces. -/
structure Plan.Cut (s : Plan pg) (nargs nattrs : ℕ) : Prop where
  pointer : ∀ f : Field, 0 < f.count nargs nattrs → (f.pointer s).isSome
  aligned : ∀ f, (s.extent nargs nattrs f).Aligned
  tiles : Extent.Tiles (fields.map (s.extent nargs nattrs)) s.block.size

/-- All that was read and written lies in the array that it was meant for. -/
def Plan.Within (s : Plan pg) (nargs nattrs : ℕ) : Prop :=
  ∀ a ∈ s.accesses, (a.field.pointer s).isSome ∧
    (s.extent nargs nattrs a.field).Contains a.place a.bytes

/-- The number of arguments of the statement of a row. -/
def rowArgs (row : QueryAttrs) : List Oid :=
  match getInt4s row 5 with
  | .ok oids => oids
  | .error _ => []

/-- The number of columns of the prepared statement of a row. -/
def rowAttrs (pg : Postgres) (row : QueryAttrs) : ℕ :=
  match getText row 3 with
  | .ok sql => ((pg.spiPrepare (cstring sql) (rowArgs row)).bind pg.resultDesc).getD 0
  | .error _ => 0

/-- **What is asked of the block**: nothing is done outside of an array, and a plan that is complete
    has all of its block filled. -/
structure Sound (nargs nattrs : ℕ) (e : Ending Unit) (s : Plan pg) : Prop where
  ends : e ≠ .crashed
  within : s.accesses = [] ∨ s.Cut nargs nattrs ∧ s.Within nargs nattrs
  complete : e = .returned () → s.nargs = nargs ∧ s.nattrs = nattrs ∧ s.Cut nargs nattrs ∧
    ∀ i < s.block.size, (s.block.cells i).isSome

/-! ## The arrays in the block -/

variable {s : Plan pg} {nargs nattrs i n p q : ℕ} {f g : Field} {col : Column α} {a : α}
  {as : List α} {l : List (Field × List (Cell Func))} {cs : List (Cell Func)}

def Field.start (nargs nattrs : ℕ) : Field → ℕ
  | .wasmToPgFuncs => 0
  | .pgToWasmFuncs => sizeofPointer * nargs
  | .retFieldTypes => sizeofPointer * nargs + sizeofPointer * nattrs
  | .argtypes => sizeofPointer * nargs + sizeofPointer * nattrs + sizeofRefType * nattrs
  | .rettypes => sizeofPointer * nargs + sizeofPointer * nattrs + sizeofRefType * nattrs +
      sizeofOid * nargs

def Field.place (nargs nattrs : ℕ) (f : Field) : Extent :=
  ⟨f.start nargs nattrs, f.count nargs nattrs, f.size⟩

/-- The size of the block. -/
def total (nargs nattrs : ℕ) : ℕ :=
  sizeofPointer * (nargs + nattrs) + sizeofRefType * nattrs + sizeofOid * (nargs + nattrs)

theorem chain_place (nargs nattrs : ℕ) :
    Extent.Chain 0 (fields.map (Field.place nargs nattrs)) (total nargs nattrs) := by
  simp only [fields, List.map_cons, List.map_nil, Field.place, Extent.Chain, Extent.bytes,
    Field.start, Field.count, Field.size, total, sizeofPointer, sizeofRefType, sizeofOid, or_true,
    true_and]
  omega

example : fields.map (Field.place 1 2) =
    [⟨0, 1, 8⟩, ⟨8, 2, 8⟩, ⟨24, 2, 8⟩, ⟨40, 1, 4⟩, ⟨44, 2, 4⟩] := by decide

theorem place_aligned (nargs nattrs : ℕ) (f : Field) : f.size ∣ f.start nargs nattrs := by
  cases f <;> simp only [Field.size, Field.start, sizeofPointer, sizeofRefType, sizeofOid] <;> omega

/-- What lies in two different arrays does not overlap. -/
theorem apart_of_ne (h : f ≠ g) (hf : (f.place nargs nattrs).Contains p n)
    (hg : (g.place nargs nattrs).Contains q i) : p + n ≤ q ∨ q + i ≤ p := by
  simp only [Extent.Contains, Extent.bytes, Field.place, Field.size, sizeofPointer, sizeofRefType,
    sizeofOid] at hf hg
  cases f <;> cases g <;> first | exact absurd rfl h |
    (simp only [Field.start, Field.count, sizeofPointer, sizeofRefType, sizeofOid] at hf hg
     omega)

/-- The invariant: the block is cut into the arrays, some of them have contents, and nothing was done
    outside of an array. -/
structure Laid (nargs nattrs : ℕ) (l : List (Field × List (Cell Func))) (s : Plan pg) : Prop where
  pointer : ∀ f : Field, 0 < f.count nargs nattrs → f.pointer s = some (f.start nargs nattrs)
  size : s.block.size = total nargs nattrs
  has : s.block.Has (l.map fun x => (x.1.start nargs nattrs, x.2))
  le : ∀ x ∈ l, x.2.length ≤ (x.1.place nargs nattrs).bytes
  within : ∀ a ∈ s.accesses, 0 < a.field.count nargs nattrs ∧
    (a.field.place nargs nattrs).Contains a.place a.bytes

theorem Laid.extent_eq (h : Laid nargs nattrs l s) (hf : 0 < f.count nargs nattrs) :
    s.extent nargs nattrs f = f.place nargs nattrs := by
  rw [Plan.extent, h.pointer f hf]
  rfl

/-- **The block is cut in pieces** by the arrays. -/
theorem Laid.cut (h : Laid nargs nattrs l s) : s.Cut nargs nattrs where
  pointer f hf := by
    rw [h.pointer f hf]
    rfl
  aligned f := by
    rcases Nat.eq_zero_or_pos (f.count nargs nattrs) with h0 | hpos
    · exact Extent.aligned_of_dvd (.inl h0)
    · rw [h.extent_eq hpos]
      exact Extent.aligned_of_dvd (.inr (place_aligned nargs nattrs f))
  tiles := by
    have hchain : Extent.Chain 0 (fields.map (s.extent nargs nattrs)) (total nargs nattrs) :=
      (chain_place nargs nattrs).congr (fun _ _ => rfl) fun f _ hf => h.extent_eq hf
    rw [h.size]
    exact hchain.tiles

theorem Laid.accesses_within (h : Laid nargs nattrs l s) : s.Within nargs nattrs := by
  intro a ha
  obtain ⟨hpos, hin⟩ := h.within a ha
  rw [h.pointer _ hpos, h.extent_eq hpos]
  exact ⟨rfl, hin⟩

theorem Laid.mono {l' : List (Field × List (Cell Func))} (h : Laid nargs nattrs l s) (hl : l' ⊆ l) :
    Laid nargs nattrs l' s :=
  ⟨h.pointer, h.size, h.has.mono (List.map_subset _ hl), fun x hx => h.le x (hl hx), h.within⟩

/-- Every array has contents, even if these are none. -/
theorem Laid.nil (h : Laid nargs nattrs l s) (f : Field) : Laid nargs nattrs ((f, []) :: l) s where
  pointer := h.pointer
  size := h.size
  has := Alloc.has_cons.2 ⟨Alloc.holds_nil, h.has⟩
  le := List.forall_mem_cons.2 ⟨Nat.zero_le _, h.le⟩
  within := h.within

/-- Bytes of an array lie within the block. -/
theorem place_le (f : Field) (h : (f.place nargs nattrs).Contains p n) :
    p + n ≤ total nargs nattrs := by
  simp only [Extent.Contains, Extent.bytes, Field.place, Field.size, sizeofPointer, sizeofRefType,
    sizeofOid] at h
  cases f <;>
  · simp only [Field.start, Field.count, sizeofPointer, sizeofRefType, sizeofOid] at h
    simp only [total, sizeofPointer, sizeofRefType, sizeofOid]
    omega

/-- What a plan has beside its arrays. -/
def Plan.scalars (s : Plan pg) : Option pg.Plan × ℕ × ℕ × Option RefType :=
  (s.plan, s.nargs, s.nattrs, s.retType)

/-- **Rule for a write** behind what the array has. -/
theorem wp_write (col : Column α) (done : List α) {Q : Ending Unit → Plan pg → Prop}
    (h : Laid nargs nattrs ((col.field, col.coding.encodeAll done) :: l) s)
    (hl : ∀ x ∈ l, col.field ≠ x.1) (hpos : 0 < col.field.count nargs nattrs)
    (hle : done.length + as.length ≤ col.field.count nargs nattrs)
    (hQ : ∀ s', Laid nargs nattrs ((col.field, col.coding.encodeAll (done ++ as)) :: l) s' →
      s'.scalars = s.scalars → Q (.returned ()) s') :
    wp (write col done.length as) Q s := by
  have hsize := col.size_eq
  have hdone : (col.coding.encodeAll done).length = col.coding.size * done.length :=
    Coding.length_encodeAll
  have has : (col.coding.encodeAll as).length = col.coding.size * as.length :=
    Coding.length_encodeAll
  have hbytes : col.coding.size * (done ++ as).length ≤
      col.coding.size * col.field.count nargs nattrs := by
    rw [List.length_append]
    exact Nat.mul_le_mul_left _ hle
  have hsplit : col.coding.size * (done ++ as).length =
      col.coding.size * done.length + col.coding.size * as.length := by
    rw [List.length_append, Nat.mul_add]
  have hin : (col.field.place nargs nattrs).Contains
      (col.field.start nargs nattrs + (col.coding.encodeAll done).length)
      (col.coding.encodeAll as).length := by
    simp only [Extent.Contains, Extent.bytes, Field.place, ← hsize]
    omega
  -- the slots lie within the array, so within the block and apart from the other arrays
  have hroom := place_le _ hin
  rw [← h.size] at hroom
  obtain ⟨block, hblock, hblocksize, hhas⟩ := Alloc.Has.extend h.has hroom (by
    rw [List.forall_mem_map]
    intro x hx
    refine apart_of_ne (hl x hx) hin (g := x.1) ⟨le_rfl, ?_⟩
    exact Nat.add_le_add_left (h.le x (List.mem_cons_of_mem _ hx)) _)
  rw [hdone] at hblock
  unfold wp write
  rw [h.pointer _ hpos]
  dsimp only
  rw [hblock]
  refine hQ _ ⟨h.pointer, hblocksize.trans h.size, ?_, ?_, ?_⟩ rfl
  · rw [Coding.encodeAll_append]
    exact hhas
  · refine List.forall_mem_cons.2 ⟨?_, fun x hx => h.le x (List.mem_cons_of_mem _ hx)⟩
    rw [Coding.length_encodeAll, Extent.bytes, Field.place, ← hsize]
    exact hbytes
  · exact List.forall_mem_cons.2 ⟨⟨hpos, by rw [← hdone]; exact hin⟩, h.within⟩

/-- **Rule for a read** of what the array has. -/
theorem wp_read {Q : Ending α → Plan pg → Prop} (h : Laid nargs nattrs l s)
    (hl : (col.field, col.coding.encodeAll as) ∈ l) (ha : as[i]? = some a)
    (hQ : ∀ s', Laid nargs nattrs l s' → s'.scalars = s.scalars → Q (.returned a) s') :
    wp (read col i) Q s := by
  have hsize := col.size_eq
  have hsizepos : 0 < col.field.size := by
    cases col.field <;> exact Nat.succ_pos _
  have hle := h.le _ hl
  rw [Coding.length_encodeAll, hsize] at hle
  have hi := (List.getElem?_eq_some_iff.1 ha).1
  have hcount : i < col.field.count nargs nattrs :=
    hi.trans_le (Nat.le_of_mul_le_mul_left hle hsizepos)
  have hpos : 0 < col.field.count nargs nattrs := by omega
  have hread := Coding.decode_of_holds (h.has.holds (List.mem_map_of_mem hl)) ha
  unfold wp read
  rw [h.pointer _ hpos]
  dsimp only
  rw [hread]
  refine hQ _ ⟨h.pointer, h.size, h.has, h.le, List.forall_mem_cons.2 ⟨⟨hpos, ?_⟩, h.within⟩⟩ rfl
  have hslot := (col.field.place nargs nattrs).contains_slot hcount
  rw [hsize]
  exact hslot

/-- **Rule for a loop** that fills an array. -/
theorem wp_fill (col : Column α) (done : List α) {Q : Ending Unit → Plan pg → Prop}
    (h : Laid nargs nattrs ((col.field, col.coding.encodeAll done) :: l) s)
    (hl : ∀ x ∈ l, col.field ≠ x.1) (hle : done.length + as.length ≤ col.field.count nargs nattrs)
    (hQ : ∀ s', Laid nargs nattrs ((col.field, col.coding.encodeAll (done ++ as)) :: l) s' →
      s'.scalars = s.scalars → Q (.returned ()) s') :
    wp (fill col done.length as) Q s := by
  induction as generalizing done s with
  | nil =>
    rw [List.append_nil] at hQ
    exact hQ s h rfl
  | cons a as ih =>
    rw [List.length_cons] at hle
    rw [fill, wp_bind]
    refine wp_write col done h hl (by omega) (by rw [List.length_singleton]; omega) fun s₁ h₁ hs₁ => ?_
    rw [andThen_returned]
    have hnext := ih (done ++ [a]) h₁
      (by rw [List.length_append, List.length_singleton]; omega) fun s' h' hs' =>
        hQ s' (by rwa [List.append_assoc] at h') (hs'.trans hs₁)
    rwa [List.length_append, List.length_singleton] at hnext

/-- **Rule for the loop over the arguments**, which fills two arrays. -/
theorem wp_fillArgs (fs : List (Option WasmToPg)) (os : List Oid)
    {Q : Ending Unit → Plan pg → Prop} {fns : List (BitVec 32)} {oids : List Oid}
    (h : Laid nargs nattrs [(.wasmToPgFuncs, wasmToPg.coding.encodeAll fs),
      (.argtypes, argtypes.coding.encodeAll os)] s)
    (hdone : fs.length = os.length) (hlen : fns.length = oids.length)
    (hle : os.length + oids.length ≤ nargs)
    (hQ : ∀ s', Laid nargs nattrs
        [(.wasmToPgFuncs, wasmToPg.coding.encodeAll (fs ++ fns.map fun fn => wasmToPgFuncs[fn.toNat]?)),
          (.argtypes, argtypes.coding.encodeAll (os ++ oids))] s' →
      s'.scalars = s.scalars → Q (.returned ()) s') :
    wp (fillArgs fs.length fns oids) Q s := by
  induction fns generalizing oids fs os s with
  | nil =>
    obtain rfl : oids = [] := List.length_eq_zero_iff.1 hlen.symm
    rw [List.map_nil, List.append_nil, List.append_nil] at hQ
    exact hQ s h rfl
  | cons fn fns ih =>
    cases oids with
    | nil => cases hlen
    | cons oid oids =>
    rw [List.length_cons, List.length_cons] at hlen
    rw [List.length_cons] at hle
    have hpos : 0 < nargs := by omega
    rw [fillArgs, wp_bind]
    refine wp_write wasmToPg fs h (by simp [wasmToPg]) hpos ?_ fun s₁ h₁ hs₁ => ?_
    · simp only [List.length_singleton, wasmToPg, Field.count]
      omega
    rw [andThen_returned, wp_bind, hdone]
    -- the rule for a write extends the first contents
    have hswap : Laid nargs nattrs [(.argtypes, argtypes.coding.encodeAll os),
        (.wasmToPgFuncs, wasmToPg.coding.encodeAll (fs ++ [wasmToPgFuncs[fn.toNat]?]))] s₁ :=
      h₁.mono (List.Perm.swap _ _ _).subset
    refine wp_write argtypes os hswap (by simp [argtypes]) hpos ?_ fun s₂ h₂ hs₂ => ?_
    · simp only [List.length_singleton, argtypes, Field.count]
      omega
    rw [andThen_returned]
    have hback : Laid nargs nattrs [
        (.wasmToPgFuncs, wasmToPg.coding.encodeAll (fs ++ [wasmToPgFuncs[fn.toNat]?])),
        (.argtypes, argtypes.coding.encodeAll (os ++ [oid]))] s₂ :=
      h₂.mono (List.Perm.swap _ _ _).subset
    have hrest : ∀ s', Laid nargs nattrs [(.wasmToPgFuncs, wasmToPg.coding.encodeAll
          ((fs ++ [wasmToPgFuncs[fn.toNat]?]) ++ fns.map fun fn => wasmToPgFuncs[fn.toNat]?)),
        (.argtypes, argtypes.coding.encodeAll ((os ++ [oid]) ++ oids))] s' →
        s'.scalars = s₂.scalars → Q (.returned ()) s' := by
      intro s' h' hs'
      rw [List.append_assoc, List.append_assoc] at h'
      exact hQ s' h' (hs'.trans (hs₂.trans hs₁))
    have hnext := ih _ _ hback (by simp [hdone]) (by omega)
      (by rw [List.length_append, List.length_singleton]; omega) hrest
    rwa [List.length_append, List.length_singleton, hdone] at hnext

/-! ## A plan is made -/

/-- **Rule for the allocation**: the arrays are there, and have nothing yet. -/
theorem wp_carve {Q : Ending Unit → Plan pg → Prop} (hs : s.accesses = [])
    (hraise : Embedded.maxAllocSize < total nargs nattrs → Q .raised s)
    (hQ : ∀ s', Laid nargs nattrs [] s' → s'.scalars = s.scalars → Q (.returned ()) s') :
    wp (carve nargs nattrs) Q s := by
  have hlaid : ∀ s' : Plan pg, (∀ f : Field, 0 < f.count nargs nattrs →
      f.pointer s' = some (f.start nargs nattrs)) → s'.block = .fresh (total nargs nattrs) →
      s'.accesses = [] → Laid nargs nattrs [] s' := by
    intro s' hpointer hblock haccesses
    refine ⟨hpointer, by rw [hblock]; rfl, Alloc.has_nil, nofun, ?_⟩
    rw [haccesses]
    exact nofun
  simp only [carve, wp_bind, wp_call, wp_update, andThen_raised, andThen_returned,
    decide_eq_true_eq, decide_eq_false_iff_not]
  refine ⟨hraise, fun _ => ?_⟩
  by_cases hattrs : 0 < nattrs
  · rw [if_pos hattrs]
    by_cases hargs : 0 < nargs
    · simp only [if_pos hargs, wp_bind, wp_update, andThen_returned]
      refine hQ _ (hlaid _ (fun f _ => ?_) rfl hs) rfl
      cases f <;> simp only [Field.pointer, Field.start, plus, Option.map_some, Nat.zero_add]
    · simp only [if_neg hargs, wp_bind, wp_update, andThen_returned]
      refine hQ _ (hlaid _ (fun f hf => ?_) rfl hs) rfl
      obtain rfl : nargs = 0 := Nat.eq_zero_of_not_pos hargs
      cases f with
      | wasmToPgFuncs | argtypes => exact absurd hf (lt_irrefl 0)
      | pgToWasmFuncs | retFieldTypes | rettypes =>
        simp only [Field.pointer, Field.start, plus, Option.map_some, Nat.mul_zero, Nat.zero_add,
          Nat.add_zero]
  · obtain rfl : nattrs = 0 := Nat.eq_zero_of_not_pos hattrs
    rw [if_neg hattrs]
    by_cases hargs : 0 < nargs
    · simp only [if_pos hargs, wp_update]
      refine hQ _ (hlaid _ (fun f hf => ?_) rfl hs) rfl
      cases f with
      | pgToWasmFuncs | retFieldTypes | rettypes => exact absurd hf (lt_irrefl 0)
      | wasmToPgFuncs | argtypes =>
        simp only [Field.pointer, Field.start, plus, Option.map_some, Nat.mul_zero, Nat.zero_add,
          Nat.add_zero]
    · obtain rfl : nargs = 0 := Nat.eq_zero_of_not_pos hargs
      rw [if_neg hargs]
      refine hQ _ (hlaid _ (fun f hf => ?_) rfl hs) rfl
      cases f <;> exact absurd hf (lt_irrefl 0)

/-- What the branch for columns comes to: their OIDs and types are stored, or a check failed. -/
def ResultDone (nargs nattrs : ℕ) (l : List (Field × List (Cell Func))) (s : Plan pg)
    (r : Except LoadError (Option RefType × List Oid × List RefType)) (e : Ending Unit)
    (s' : Plan pg) : Prop :=
  match e with
  | .returned _ => ∃ ret oids types, r = .ok (ret, oids, types.map RefType.ofInt64) ∧
      oids.length = nattrs ∧ types.length = nattrs ∧ s'.scalars = (s.plan, s.nargs, s.nattrs, ret) ∧
      Laid nargs nattrs ((.retFieldTypes, retFieldTypes.coding.encodeAll types) ::
        (.rettypes, rettypes.coding.encodeAll oids) :: l) s'
  | .raised => (∃ err, r = .error err) ∧ ∃ l', Laid nargs nattrs l' s'
  | .crashed => False

theorem wp_fillResult {row : QueryAttrs} (h : Laid nargs nattrs l s) (hret : s.retType = none)
    (hl : ∀ x ∈ l, Field.rettypes ≠ x.1 ∧ Field.retFieldTypes ≠ x.1) :
    wp (fillResult row nattrs) (ResultDone nargs nattrs l s (initResult row nattrs)) s := by
  have hfail : ∀ {l' : List (Field × List (Cell Func))} {s' : Plan pg}, Laid nargs nattrs l' s' →
      ∀ err, ResultDone nargs nattrs l s (.error err) .raised s' := fun h' err => ⟨⟨err, rfl⟩, _, h'⟩
  rw [fillResult, initResult]
  by_cases hattrs : 0 < nattrs
  · rw [if_pos hattrs, if_pos hattrs]
    refine wp_ofExcept_bind (Q := ResultDone nargs nattrs l s) (hfail h) fun ret _ => ?_
    refine wp_check (Q := ResultDone nargs nattrs l s) (by simp) ⟨_, rfl⟩ (hfail h) fun _ => ?_
    rw [wp_bind, wp_update, andThen_returned]
    have h₁ : Laid nargs nattrs l { s with retType := ret.head?.map RefType.ofInt64 } :=
      ⟨h.pointer, h.size, h.has, h.le, h.within⟩
    refine wp_ofExcept_bind (Q := ResultDone nargs nattrs l s) (hfail h₁) fun oids _ => ?_
    refine wp_check (Q := ResultDone nargs nattrs l s) (by simp) ⟨_, rfl⟩ (hfail h₁) fun hoids => ?_
    rw [not_not] at hoids
    rw [wp_bind]
    refine wp_fill rettypes [] (h₁.nil .rettypes) (fun x hx => (hl x hx).1)
      (by simp only [List.length_nil, Nat.zero_add, hoids]; exact le_rfl) fun s₂ h₂ hs₂ => ?_
    rw [andThen_returned]
    rw [List.nil_append] at h₂
    refine wp_ofExcept_bind (Q := ResultDone nargs nattrs l s) (hfail h₂) fun types _ => ?_
    refine wp_check (Q := ResultDone nargs nattrs l s) (by simp) ⟨_, rfl⟩ (hfail h₂) fun htypes => ?_
    rw [not_not] at htypes
    refine wp_write retFieldTypes [] (h₂.nil .retFieldTypes) ?_ hattrs
      (by simp only [List.length_nil, Nat.zero_add, htypes]; exact le_rfl) fun s₃ h₃ hs₃ => ?_
    · refine List.forall_mem_cons.2 ⟨nofun, fun x hx => (hl x hx).2⟩
    exact ⟨_, oids, types, rfl, hoids, htypes, hs₃.trans hs₂, h₃⟩
  · obtain rfl : nattrs = 0 := Nat.eq_zero_of_not_pos hattrs
    have hscalars : s.scalars = (s.plan, s.nargs, s.nattrs, none) := by rw [Plan.scalars, hret]
    rw [if_neg hattrs, if_neg hattrs, wp_pure]
    exact ⟨none, [], [], rfl, rfl, rfl, hscalars, (h.nil _).nil _⟩

/-- The arrays of a plan with all of its entries. -/
def contents (q : QueryPlan pg) (types : List (BitVec 64)) : List (Field × List (Cell Func)) :=
  [(.pgToWasmFuncs, pgToWasm.coding.encodeAll q.pgToWasmFuncs),
    (.retFieldTypes, retFieldTypes.coding.encodeAll types),
    (.rettypes, rettypes.coding.encodeAll q.rettypes),
    (.wasmToPgFuncs, wasmToPg.coding.encodeAll q.wasmToPgFuncs),
    (.argtypes, argtypes.coding.encodeAll q.argtypes)]

/-- The plan has the entries of a plan of lists, as many as it counts. -/
structure Represents (s : Plan pg) (q : QueryPlan pg) : Prop where
  scalars : s.scalars = (some q.plan, q.nargs, q.nattrs, q.retType)
  args : q.wasmToPgFuncs.length = q.nargs ∧ q.argtypes.length = q.nargs
  attrs : q.pgToWasmFuncs.length = q.nattrs ∧ q.rettypes.length = q.nattrs
  laid : ∃ types : List (BitVec 64), q.retFieldTypes = types.map RefType.ofInt64 ∧
    types.length = q.nattrs ∧ Laid q.nargs q.nattrs (contents q types) s

/-- What a row comes to: a plan, as it is in lists, or an error.  The block adds one, where it is too
    large. -/
def InitDone (nargs nattrs : ℕ) (r : Except LoadError (QueryPlan pg)) (e : Ending Unit)
    (s : Plan pg) : Prop :=
  match e with
  | .returned _ => ∃ q, r = .ok q ∧ q.nargs = nargs ∧ q.nattrs = nattrs ∧ Represents s q
  | .raised => (s.accesses = [] ∨ ∃ l, Laid nargs nattrs l s) ∧
      ((∃ err, r = .error err) ∨ Embedded.maxAllocSize < total nargs nattrs)
  | .crashed => False

theorem InitDone.early (hs : s.accesses = []) (err : LoadError) :
    InitDone nargs nattrs (.error err) .raised s := ⟨.inl hs, .inl ⟨err, rfl⟩⟩

theorem InitDone.late (hs : Laid nargs nattrs l s) (err : LoadError) :
    InitDone nargs nattrs (.error err) .raised s := ⟨.inr ⟨l, hs⟩, .inl ⟨err, rfl⟩⟩

/-- The rest of a row, behind the loop over the arguments. -/
theorem wp_initTail {row : QueryAttrs} {plan : pg.Plan} {fns : List (BitVec 32)} {oids : List Oid}
    (h : Laid oids.length nattrs [(.wasmToPgFuncs, wasmToPg.coding.encodeAll
        (fns.map fun fn => wasmToPgFuncs[fn.toNat]?)),
      (.argtypes, argtypes.coding.encodeAll oids)] s)
    (hs : s.plan = some plan ∧ s.nargs = oids.length ∧ s.retType = none)
    (hfns : fns.length = oids.length) :
    wp (do
      fillResult row nattrs
      let retFns ← ofExcept (getInt4s row 11)
      call (retFns.length ≠ nattrs)
      fill pgToWasm 0 (retFns.map fun fn => pgToWasmFuncs[fn.toNat]?)
      update fun s => { s with nattrs })
    (InitDone oids.length nattrs do
      let (retType, rettypes, retFieldTypes) ← initResult row nattrs
      let retFns ← getInt4s row 11
      if retFns.length ≠ nattrs then throw (.retFieldFn retFns.length nattrs)
      return {
        plan, nargs := oids.length, nattrs, argtypes := oids, rettypes, retType, retFieldTypes
        wasmToPgFuncs := fns.map fun d => wasmToPgFuncs[d.toNat]?
        pgToWasmFuncs := retFns.map fun d => pgToWasmFuncs[d.toNat]? : QueryPlan pg }) s := by
  obtain ⟨hplan, hnargs, hret⟩ := hs
  rw [wp_bind]
  refine wp_mono (wp_fillResult h hret (by simp)) fun e s₁ he => ?_
  cases e with
  | crashed => exact he.elim
  | raised =>
    obtain ⟨⟨err, herr⟩, l', h₁⟩ := he
    rw [andThen_raised, herr]
    exact .late h₁ err
  | returned _ =>
    obtain ⟨ret, rets, types, hr, hrets, htypes, hs₁, h₁⟩ := he
    rw [andThen_returned, hr]
    refine wp_ofExcept_bind (Q := InitDone oids.length nattrs) (.late h₁) fun retFns _ => ?_
    refine wp_check (Q := InitDone oids.length nattrs) (by simp) ⟨_, rfl⟩ (.late h₁)
      fun hretFns => ?_
    rw [not_not] at hretFns
    rw [wp_bind]
    refine wp_fill pgToWasm [] (h₁.nil .pgToWasmFuncs) (by simp [pgToWasm])
      (by simp only [List.length_nil, Nat.zero_add, List.length_map, hretFns]; exact le_rfl)
      fun s₂ h₂ hs₂ => ?_
    rw [andThen_returned, wp_update]
    rw [List.nil_append] at h₂
    rw [hs₁, hplan, hnargs] at hs₂
    obtain ⟨hplan₂, hnargs₂, -, hret₂⟩ : s₂.plan = some plan ∧ s₂.nargs = oids.length ∧
        s₂.nattrs = s.nattrs ∧ s₂.retType = ret := by
      simpa only [Plan.scalars, Prod.mk.injEq] using hs₂
    refine ⟨_, rfl, rfl, rfl, ?_, ⟨by simpa using hfns, rfl⟩, ⟨by simpa using hretFns, hrets⟩, types,
      rfl, htypes, ⟨h₂.pointer, h₂.size, h₂.has, h₂.le, h₂.within⟩⟩
    simp only [Plan.scalars, hplan₂, hnargs₂, hret₂]

/-- **A plan is made** as it is in lists, unless its block is too large. -/
theorem wp_rstInitQueryPlan (row : QueryAttrs) :
    wp (rstInitQueryPlan pg row) (InitDone (rowArgs row).length (rowAttrs pg row)
      (Rustica.rstInitQueryPlan pg row)) {} := by
  obtain ⟨nargs, hnargs⟩ : ∃ n, (rowArgs row).length = n := ⟨_, rfl⟩
  obtain ⟨nattrs, hnattrs⟩ : ∃ n, rowAttrs pg row = n := ⟨_, rfl⟩
  rw [hnargs, hnattrs]
  rw [rstInitQueryPlan, Rustica.rstInitQueryPlan]
  refine wp_ofExcept_bind (Q := InitDone nargs nattrs) (.early rfl) fun sql hsql => ?_
  refine wp_ofExcept_bind (Q := InitDone nargs nattrs) (.early rfl) fun oids hoids => ?_
  have hrow : rowArgs row = oids := by rw [rowArgs, hoids]
  obtain rfl : oids.length = nargs := by rw [← hnargs, hrow]
  rw [wp_bind, wp_update, andThen_returned]
  dsimp only
  cases hplan : pg.spiPrepare (cstring sql) oids with
  | none => exact .early rfl _
  | some plan =>
  obtain rfl : (pg.resultDesc plan).getD 0 = nattrs := by
    rw [← hnattrs, rowAttrs, hsql, hrow]
    dsimp only
    rw [hplan, Option.bind_some]
  refine wp_check (Q := InitDone _ _) Iff.rfl ⟨_, rfl⟩ (.early rfl) fun _ => ?_
  rw [wp_bind, wp_update, andThen_returned]
  refine wp_ofExcept_bind (Q := InitDone _ _) (.early rfl) fun fns _ => ?_
  refine wp_check (Q := InitDone _ _) (by simp) ⟨_, rfl⟩ (.early rfl) fun hfns => ?_
  rw [not_not] at hfns
  by_cases hpos : 0 < oids.length + (pg.resultDesc plan).getD 0
  · rw [if_pos hpos]
    rw [wp_bind]
    refine wp_carve rfl (fun hlt => ⟨.inl rfl, .inr hlt⟩) fun s₁ h₁ hs₁ => ?_
    rw [andThen_returned, wp_bind]
    have hempty := (h₁.nil .argtypes).nil .wasmToPgFuncs
    refine wp_fillArgs [] [] hempty rfl hfns (by simp) fun s₂ h₂ hs₂ => ?_
    rw [andThen_returned]
    rw [List.nil_append, List.nil_append] at h₂
    refine wp_initTail h₂ ?_ hfns
    have hscalars := hs₂.trans hs₁
    simp only [Plan.scalars, Prod.mk.injEq] at hscalars
    exact ⟨hscalars.1, hscalars.2.1, hscalars.2.2.2⟩
  -- there is no block, and what follows does not touch one
  · rw [if_neg hpos]
    have hargs : oids.length = 0 := by omega
    have hattrs : (pg.resultDesc plan).getD 0 = 0 := by omega
    obtain rfl : oids = [] := List.length_eq_zero_iff.1 hargs
    obtain rfl : fns = [] := List.length_eq_zero_iff.1 hfns
    have hempty : Laid 0 0 [] ({ nargs := 0, plan := some plan } : Plan pg) := by
      refine ⟨fun f hf => ?_, rfl, Alloc.has_nil, nofun, nofun⟩
      cases f <;> exact absurd hf (lt_irrefl 0)
    refine wp_initTail ?_ ⟨rfl, rfl, rfl⟩ rfl
    rw [hattrs]
    exact (hempty.nil .argtypes).nil .wasmToPgFuncs

/-- **A good row has its plan**, where its block is not too large. -/
theorem rstInitQueryPlan_returns {row : QueryAttrs} {q : QueryPlan pg}
    (hrow : Rustica.rstInitQueryPlan pg row = .ok q)
    (hfits : total (rowArgs row).length (rowAttrs pg row) ≤ Embedded.maxAllocSize) :
    wp (rstInitQueryPlan pg row) (fun e s => e = .returned () ∧ Represents s q) {} := by
  refine wp_mono (wp_rstInitQueryPlan row) fun e s he => ?_
  rw [hrow] at he
  cases e with
  | crashed => exact he.elim
  | raised =>
    rcases he.2 with ⟨err, herr⟩ | hlt
    · cases herr
    · exact absurd hfits (not_le.2 hlt)
  | returned _ =>
    obtain ⟨q', hq', -, -, hrep⟩ := he
    cases hq'
    exact ⟨rfl, hrep⟩

/-! ## A plan is used -/

/-- What the loop over the arguments gives for a plan of lists. -/
def argValues (convert : Option WasmToPg → Oid → ℕ → Except String δ) :
    ℕ → List (Option WasmToPg) → List Oid → Except String (List δ)
  | i, fn :: fns, oid :: oids => do
    let value ← convert fn oid i
    let values ← argValues convert (i + 1) fns oids
    return value :: values
  | _, _, _ => return []

/-- What the loop over the columns gives for a plan of lists. -/
def columnValues (convert : Option PgToWasm → ℕ → Oid → RefType → Except String Unit) :
    ℕ → List (Option PgToWasm) → List Oid → List RefType → Except String Unit
  | i, fn :: fns, oid :: oids, t :: types => do
    convert fn i oid t
    columnValues convert (i + 1) fns oids types
  | _, _, _, _ => return ()

/-- What a request comes to for a plan of lists. -/
def Request.result (q : QueryPlan pg) : Request δ → Except String Unit
  | .executeStatement convert executePlan => do
    executePlan (← argValues convert 0 q.wasmToPgFuncs q.argtypes)
  | .cursorOpen isCursorPlan convert openCursor => do
    if (!isCursorPlan) = true then throw "not a cursor plan"
    openCursor (← argValues convert 0 q.wasmToPgFuncs q.argtypes)
  | .tupleLower convert => do
    if q.nattrs = 0 then throw "no attributes in the tuple"
    columnValues convert 0 q.pgToWasmFuncs q.rettypes q.retFieldTypes

/-- The code ends as the computation does, and the plan stays as it is. -/
def Follows (q : QueryPlan pg) (r : Except String α) (e : Ending α) (s : Plan pg) : Prop :=
  e = .ofExcept r ∧ Represents s q

variable {q : QueryPlan pg}

theorem Follows.failed (h : Represents s q) (err : String) :
    Follows q (.error err : Except String α) .raised s := ⟨rfl, h⟩

theorem Represents.count_args (h : Represents s q) : s.nargs = q.nargs := congrArg (·.2.1) h.scalars

theorem Represents.count_attrs (h : Represents s q) : s.nattrs = q.nattrs :=
  congrArg (·.2.2.1) h.scalars

/-- **Rule for a read** of a plan's entry. -/
theorem Represents.wp_read {Q : Ending α → Plan pg → Prop} (h : Represents s q)
    (hl : ∀ types, (col.field, col.coding.encodeAll as) ∈ contents q types) (ha : as[i]? = some a)
    (hQ : ∀ s', Represents s' q → Q (.returned a) s') : wp (read col i) Q s := by
  obtain ⟨types, htypes, hlen, hlaid⟩ := h.laid
  exact PlanBlock.wp_read hlaid (hl types) ha fun s' hlaid' hs' =>
    hQ s' ⟨hs'.trans h.scalars, h.args, h.attrs, types, htypes, hlen, hlaid'⟩

/-- **Rule for a read** of the type of a column. -/
theorem Represents.wp_readType {Q : Ending (BitVec 64) → Plan pg → Prop} {t : RefType}
    (h : Represents s q) (ht : q.retFieldTypes[i]? = some t)
    (hQ : ∀ s' v, RefType.ofInt64 v = t → Represents s' q → Q (.returned v) s') :
    wp (read retFieldTypes i) Q s := by
  obtain ⟨types, htypes, hlen, hlaid⟩ := h.laid
  rw [htypes, List.getElem?_map, Option.map_eq_some_iff] at ht
  obtain ⟨v, hv, rfl⟩ := ht
  exact PlanBlock.wp_read hlaid (by simp [contents, retFieldTypes]) hv fun s' hlaid' hs' =>
    hQ s' v rfl ⟨hs'.trans h.scalars, h.args, h.attrs, types, htypes, hlen, hlaid'⟩

theorem getElem?_of_drop {xs : List α} (h : xs.drop i = a :: as) :
    xs[i]? = some a ∧ xs.drop (i + 1) = as := by
  constructor
  · rw [← List.head?_drop, h]
    rfl
  · rw [← List.tail_drop, h]
    rfl

/-- The array goes on as long as another one of the same length. -/
theorem exists_cons_of_drop {β : Type} {xs : List α} {ys : List β} (h : xs.drop i = a :: as)
    (hlen : ys.length = xs.length) : ∃ b bs, ys.drop i = b :: bs := by
  refine List.exists_cons_of_length_pos ?_
  have hxs := congrArg List.length h
  rw [List.length_drop, List.length_cons] at hxs
  rw [List.length_drop]
  omega

theorem wp_convertArgs (convert : Option WasmToPg → Oid → ℕ → Except String δ)
    {fns : List (Option WasmToPg)} {oids : List Oid} (h : Represents s q)
    (hfns : q.wasmToPgFuncs.drop i = fns) (hoids : q.argtypes.drop i = oids) :
    wp (convertArgs convert fns.length i) (Follows q (argValues convert i fns oids)) s := by
  induction fns generalizing i oids s with
  | nil => exact ⟨by cases oids <;> rfl, h⟩
  | cons fn fns ih =>
    obtain ⟨oid, oids', hcons⟩ := exists_cons_of_drop hfns (h.args.2.trans h.args.1.symm)
    obtain rfl : oids = oid :: oids' := hoids.symm.trans hcons
    obtain ⟨hfn, hfns'⟩ := getElem?_of_drop hfns
    obtain ⟨hoid, hoids'⟩ := getElem?_of_drop hoids
    rw [List.length_cons, convertArgs, argValues, wp_bind]
    refine h.wp_read (by simp [contents, wasmToPg]) hfn fun s₁ h₁ => ?_
    rw [andThen_returned, wp_bind]
    refine h₁.wp_read (by simp [contents, argtypes]) hoid fun s₂ h₂ => ?_
    rw [andThen_returned]
    refine wp_ofExcept_bind (Q := Follows q) (.failed h₂) fun value _ => ?_
    rw [wp_bind]
    refine wp_mono (ih h₂ hfns' hoids') ?_
    rintro e s₃ ⟨rfl, h₃⟩
    cases argValues convert (i + 1) fns oids' with
    | error err => exact .failed h₃ err
    | ok values => exact ⟨rfl, h₃⟩

theorem wp_convertColumns (convert : Option PgToWasm → ℕ → Oid → RefType → Except String Unit)
    {fns : List (Option PgToWasm)} {oids : List Oid} {types : List RefType} (h : Represents s q)
    (hfns : q.pgToWasmFuncs.drop i = fns) (hoids : q.rettypes.drop i = oids)
    (htypes : q.retFieldTypes.drop i = types) :
    wp (convertColumns convert fns.length i) (Follows q (columnValues convert i fns oids types))
      s := by
  induction fns generalizing i oids types s with
  | nil => exact ⟨by cases oids <;> cases types <;> rfl, h⟩
  | cons fn fns ih =>
    have hlen : q.retFieldTypes.length = q.pgToWasmFuncs.length := by
      obtain ⟨types, htypes, hlen, -⟩ := h.laid
      rw [htypes, List.length_map, hlen, h.attrs.1]
    obtain ⟨oid, oids', hcons⟩ := exists_cons_of_drop hfns (h.attrs.2.trans h.attrs.1.symm)
    obtain rfl : oids = oid :: oids' := hoids.symm.trans hcons
    obtain ⟨t, types', hcons⟩ := exists_cons_of_drop hfns hlen
    obtain rfl : types = t :: types' := htypes.symm.trans hcons
    obtain ⟨hfn, hfns'⟩ := getElem?_of_drop hfns
    obtain ⟨hoid, hoids'⟩ := getElem?_of_drop hoids
    obtain ⟨ht, htypes'⟩ := getElem?_of_drop htypes
    rw [List.length_cons, convertColumns, columnValues, wp_bind]
    refine h.wp_read (by simp [contents, pgToWasm]) hfn fun s₁ h₁ => ?_
    rw [andThen_returned, wp_bind]
    refine h₁.wp_read (by simp [contents, rettypes]) hoid fun s₂ h₂ => ?_
    rw [andThen_returned, wp_bind]
    refine h₂.wp_readType ht fun s₃ v hv h₃ => ?_
    rw [andThen_returned, hv]
    exact wp_ofExcept_bind (Q := Follows q) (.failed h₃) fun _ _ => ih h₃ hfns' hoids' htypes'

theorem wp_envExecuteStatement (convert : Option WasmToPg → Oid → ℕ → Except String δ)
    (executePlan : List δ → Except String Unit) (h : Represents s q) :
    wp (envExecuteStatement convert executePlan)
      (Follows q ((Request.executeStatement convert executePlan).result q)) s := by
  rw [envExecuteStatement, wp_bind, wp_state, andThen_returned, h.count_args, ← h.args.1, wp_bind]
  refine wp_mono (wp_convertArgs convert h List.drop_zero List.drop_zero) ?_
  rintro e s₁ ⟨rfl, h₁⟩
  rw [Request.result]
  cases argValues convert 0 q.wasmToPgFuncs q.argtypes with
  | error err => exact .failed h₁ err
  | ok values => exact (wp_ofExcept (Q := Follows q (executePlan values))).2 ⟨rfl, h₁⟩

theorem wp_envTupleLower (convert : Option PgToWasm → ℕ → Oid → RefType → Except String Unit)
    (h : Represents s q) :
    wp (envTupleLower convert) (Follows q ((Request.tupleLower convert : Request δ).result q)) s := by
  rw [envTupleLower, Request.result, wp_bind, wp_state, andThen_returned, h.count_attrs]
  refine wp_check (Q := Follows q) (by simp) ⟨_, rfl⟩ (.failed h) fun _ => ?_
  rw [← h.attrs.1]
  exact wp_convertColumns convert h List.drop_zero List.drop_zero List.drop_zero

/-- **A request** comes to what it does for the plan of lists. -/
theorem wp_request (h : Represents s q) (request : Request δ) :
    wp request.code (Follows q (request.result q)) s := by
  cases request with
  | executeStatement convert executePlan => exact wp_envExecuteStatement convert executePlan h
  | cursorOpen isCursorPlan convert openCursor =>
    rw [Request.code, envCursorOpen, Request.result]
    exact wp_check (Q := Follows q) Iff.rfl ⟨_, rfl⟩ (.failed h) fun _ =>
      wp_envExecuteStatement convert openCursor h
  | tupleLower convert => exact wp_envTupleLower convert h

/-- **Any run of requests** leaves the plan as it is. -/
theorem wp_serve (h : Represents s q) (requests : List (Request δ)) :
    wp (serve requests) (fun e s' => e = .returned () ∧ Represents s' q) s := by
  induction requests generalizing s with
  | nil => exact ⟨rfl, h⟩
  | cons request requests ih =>
    rw [serve, wp_bind, wp_pgCatch]
    refine wp_mono (wp_request h request) ?_
    rintro e s₁ ⟨rfl, h₁⟩
    cases request.result q with
    | error err => exact ih h₁
    | ok _ => exact ih h₁

/-! ## The block is sound -/

/-- The contents of an array are as long as the array. -/
theorem length_of_entries {types : List (BitVec 64)} (col : Column α)
    (hl : (col.field, col.coding.encodeAll as) ∈ contents q types)
    (hlen : as.length = col.field.count q.nargs q.nattrs) :
    ∃ cs, (col.field, cs) ∈ contents q types ∧
      (col.field.place q.nargs q.nattrs).bytes = cs.length := by
  refine ⟨_, hl, ?_⟩
  rw [Coding.length_encodeAll, col.size_eq, hlen]
  rfl

theorem Represents.written (h : Represents s q) (hi : i < s.block.size) :
    (s.block.cells i).isSome := by
  obtain ⟨types, -, hlen, hlaid⟩ := h.laid
  refine hlaid.cut.tiles.written ?_ hi
  rw [List.forall_mem_map]
  intro f _
  have hmem : ∃ cs, (f, cs) ∈ contents q types ∧ (f.place q.nargs q.nattrs).bytes = cs.length := by
    cases f with
    | wasmToPgFuncs => exact length_of_entries wasmToPg (by simp [contents, wasmToPg]) h.args.1
    | pgToWasmFuncs => exact length_of_entries pgToWasm (by simp [contents, pgToWasm]) h.attrs.1
    | retFieldTypes => exact length_of_entries retFieldTypes (by simp [contents, retFieldTypes]) hlen
    | argtypes => exact length_of_entries argtypes (by simp [contents, argtypes]) h.args.2
    | rettypes => exact length_of_entries rettypes (by simp [contents, rettypes]) h.attrs.2
  obtain ⟨cs, hcs, hbytes⟩ := hmem
  refine ⟨cs, hbytes, ?_⟩
  rcases Nat.eq_zero_or_pos (f.count q.nargs q.nattrs) with h0 | hpos
  · have hnone : cs.length = 0 := by
      rw [← hbytes, Extent.bytes, Field.place, h0, Nat.mul_zero]
    rw [List.length_eq_zero_iff.1 hnone]
    exact Alloc.holds_nil
  · rw [hlaid.extent_eq hpos]
    exact hlaid.has.holds (List.mem_map_of_mem hcs)

/-- **The block is sound**: whatever the row and the prepared statement are, and whatever is asked of
    the plan then. -/
theorem planBlock_exact (pg : Postgres) (row : QueryAttrs) (requests : List (Request δ)) :
    wp (do
      rstInitQueryPlan pg row
      serve requests) (Sound (rowArgs row).length (rowAttrs pg row)) {} := by
  rw [wp_bind]
  refine wp_mono (wp_rstInitQueryPlan row) fun e s he => ?_
  cases e with
  | crashed => exact he.elim
  | raised =>
    refine ⟨nofun, ?_, nofun⟩
    rcases he.1 with hs | ⟨l, hlaid⟩
    · exact .inl hs
    · exact .inr ⟨hlaid.cut, hlaid.accesses_within⟩
  | returned _ =>
    obtain ⟨q, -, hnargs, hnattrs, hq⟩ := he
    rw [← hnargs, ← hnattrs, andThen_returned]
    refine wp_mono (wp_serve hq requests) ?_
    rintro e s' ⟨rfl, hs'⟩
    obtain ⟨types, -, -, hlaid⟩ := hs'.laid
    exact ⟨nofun, .inr ⟨hlaid.cut, hlaid.accesses_within⟩, fun _ =>
      ⟨hs'.count_args, hs'.count_attrs, hlaid.cut, fun i hi => hs'.written hi⟩⟩

end Rustica.PlanBlock
