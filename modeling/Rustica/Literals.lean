/-
  Literals: globals that a module imports by their own bytes.

  `wasm_resolve_global` tells the resolver of a module where the name is and how long it is.  The one
  for texts goes by the length.  The one for `bytea` is written for an older signature without it and
  looks for a NUL, but a name can have one inside, and need not have one behind it
  (`literals_exact_iff`).

  `rst_obj_new_static` puts the three structures that make an object a global of the guest between the
  object and its bytes.
-/
import Rustica.Embedded

namespace Rustica.Embedded

open Varlena Cell

/-! ## Resolvers -/

/-- The sizes of the three structures of a global, of WAMR: `WASMValue`, `WASMExternrefObject` and
    `WASMAnyrefObject`. -/
structure GcSizes where
  value : ℕ
  externref : ℕ
  anyref : ℕ
  le_value : 8 ≤ value
  le_externref : 16 ≤ externref
  le_anyref : 16 ≤ anyref
  lt_max : value + externref + anyref < 65536

/-- What `wasm_resolve_global` passes on: the memory that can be read from the name on, the length of
    the name, and what the global is declared as. -/
structure ImportGlobal where
  name : List UInt8
  nameLen : ℕ
  refType : ℕ
  valType : UInt8
  isMutable : UInt8
  nameLen_le : nameLen ≤ name.length
  nameLen_lt : nameLen < 4294967296

/-- The bytes of the name. -/
def ImportGlobal.bytes (c : ImportGlobal) : List UInt8 := c.name.take c.nameLen

/-- The result of a resolver: where the `WASMValue` is in the allocation. -/
abbrev Resolved := Except Fault (ℕ × Alloc Word)

/-- The three of them. -/
def GcSizes.total (gc : GcSizes) : ℕ := gc.value + gc.externref + gc.anyref

variable (gc : GcSizes)

def rstObjNewStatic (type embedSize : ℕ) : Except Fault (ℕ × Alloc Word) := do
  let m ← rstObjNew type (sizeT (gc.value + gc.externref + gc.anyref + embedSize))
  let rv ← body m
  let externref := rv + gc.value
  let anyref := externref + gc.externref
  let m ← if embedSize > 0 then store m 8 (pointer (.at (anyref + gc.anyref))) else pure m
  let m ← store m anyref (pointer .anyrefObjFlag)
  let m ← store m (anyref + 8) (pointer (.at 0))
  let m ← store m externref (pointer .staticExternrefObjFlag)
  let m ← store m (externref + 8) (pointer (.at anyref))
  let m ← store m rv (pointer (.at externref))
  return (rv, m)

/-- `strlen`. -/
def strlen (mem : List UInt8) : Except Fault ℕ :=
  if 0 ∈ mem then .ok (mem.takeWhile (· ≠ 0)).length else .error .outside

/-- Its parameters are the name and what the global is declared as. -/
def globalBytesResolver (utf8str : List UInt8) (_refType : ℕ) (_valType _isMutable : UInt8) :
    Resolved := do
  let llen ← strlen utf8str
  if llen > varattMax - varhdrsz then throw (.raised "global bytes too long")
  let len := llen
  let (rv, m) ←
    if len ≤ varattShortMax - varhdrszShort then do
      let (rv, m) ← rstObjNewStatic gc objDatum (len + varhdrszShort)
      pure (rv, ← setVarsize1B m (← body m) (len + varhdrszShort))
    else do
      let (rv, m) ← rstObjNewStatic gc objDatum (len + varhdrsz)
      pure (rv, ← setVarsize m (← body m) (len + varhdrsz))
  let m ← setOid m byteaOid
  let data ← vardataAny m (← body m)
  return (rv, ← store m data (Cell.bytes (utf8str.take len)))

/-- Its parameters are also the length of the name. -/
def globalTextResolver (databaseUtf8 : Bool) (utf8str : List UInt8) (utf8len _refType : ℕ)
    (_valType _isMutable : UInt8) : Resolved := do
  let llen := utf8len
  if llen > varattMax - varhdrsz then throw (.raised "global text too long")
  let len := llen
  if !databaseUtf8 then throw (.raised "TODO")
  let isShort := len ≤ varattShortMax - varhdrszShort
  let (rv, m) ←
    rstObjNewStatic gc objDatum ((if isShort then varhdrszShort else varhdrsz) + len)
  let m ← setOid m textOid
  let t ← body m
  let m ←
    if isShort then setVarsize1B m t (len + varhdrszShort) else setVarsize m t (len + varhdrsz)
  let data ← vardataAny m t
  return (rv, ← store m data (Cell.bytes (utf8str.take len)))

/-- `g_global_resolvers_list`, each called with the five arguments of `wasm_resolve_global`: a function
    of four parameters takes the first four for its own. -/
def globalResolvers (databaseUtf8 : Bool) : List (String × (ImportGlobal → Resolved)) :=
  [("env:text", fun c =>
      globalTextResolver gc databaseUtf8 c.name c.nameLen c.refType c.valType c.isMutable),
    ("env:bytea", fun c =>
      globalBytesResolver gc c.name c.nameLen (.ofNat c.refType) c.valType)]

/-- A resolver that is called makes a global or fails; `none` is a module without one. -/
def wasmResolveGlobal (databaseUtf8 : Bool) (moduleName : String) (c : ImportGlobal) :
    Option Resolved :=
  ((globalResolvers gc databaseUtf8).find? fun node => node.1 = moduleName).map fun node =>
    node.2 c

/-! ## Static objects -/

variable {gc} {m : Alloc Word} {n e rv : ℕ}

/-- The value at `rv` is an external reference that is not on the heap of the guest, to the object. -/
def IsStatic (m : Alloc Word) (rv : ℕ) : Prop :=
  ∃ externref anyref, m.Holds rv (pointer (.at externref)) ∧
    m.Holds externref (pointer .staticExternrefObjFlag) ∧
    m.Holds (externref + 8) (pointer (.at anyref)) ∧ m.Holds anyref (pointer .anyrefObjFlag) ∧
    m.Holds (anyref + 8) (pointer (.at 0))

/-- The three structures. -/
def statics (gc : GcSizes) : List (ℕ × List (Cell Word)) :=
  let externref := sizeofObj + gc.value
  let anyref := externref + gc.externref
  [(sizeofObj, pointer (.at externref)), (externref + 8, pointer (.at anyref)),
    (externref, pointer .staticExternrefObjFlag), (anyref + 8, pointer (.at 0)),
    (anyref, pointer .anyrefObjFlag)]

theorem between_statics (gc : GcSizes) : Between (sizeofObj + gc.total) (statics gc) := by
  have hv := gc.le_value
  have he := gc.le_externref
  have ha := gc.le_anyref
  simp only [Between, statics, GcSizes.total, List.forall_mem_cons, length_pointer]
  refine ⟨?_, ?_, ?_, ?_, ?_, nofun⟩ <;> constructor <;> omega

theorem isStatic_of_has (h : m.Has (statics gc)) : IsStatic m sizeofObj := by
  simp only [statics, Alloc.has_cons] at h
  obtain ⟨h1, h2, h3, h4, h5, -⟩ := h
  exact ⟨_, _, h1, h3, h2, h5, h4⟩

theorem rstObjNewStatic_raises (gc : GcSizes) (type : ℕ) (he : e < 17179869184)
    (h : maxAllocSize < sizeofObj + gc.total + e) :
    ∃ err, rstObjNewStatic gc type e = .error (.raised err) := by
  have hmax := gc.lt_max
  have hsum : sizeT (gc.value + gc.externref + gc.anyref + e) = gc.total + e := by
    simp only [sizeT, GcSizes.total]; omega
  obtain ⟨err, herr⟩ := rstObjNew_raises (e := gc.total + e) type (by
    simp only [sizeT, sizeofObj, maxAllocSize, GcSizes.total] at h ⊢; omega)
  refine ⟨err, ?_⟩
  rw [rstObjNewStatic, hsum, herr]
  rfl

theorem rstObjNewStatic_rule (gc : GcSizes) (type : ℕ) (h0 : 0 < e)
    (h : sizeofObj + gc.total + e ≤ maxAllocSize) :
    ∃ m, rstObjNewStatic gc type e = .ok (sizeofObj, m) ∧ m.size = sizeofObj + gc.total + e ∧
      m.Has (header type (sizeofObj + gc.total) ++ statics gc) := by
  have hmax := gc.lt_max
  have hv := gc.le_value
  have he := gc.le_externref
  have ha := gc.le_anyref
  have hpos : sizeofObj = 16 := rfl
  have htotal : gc.total = gc.value + gc.externref + gc.anyref := rfl
  have hsum : sizeT (gc.value + gc.externref + gc.anyref + e) = gc.total + e := by
    simp only [sizeT, maxAllocSize] at h ⊢; omega
  obtain ⟨m₀, h₀, hs₀, hm₀⟩ := rstObjNew_rule type (show 0 < gc.total + e by omega) (by omega)
  have hb : body m₀ = .ok sizeofObj := body_eq (hm₀.holds (by simp [header]))
  -- the body is set again
  have hm₀' : m₀.Has [(2, bytes (le 2 0)), (0, bytes (le 2 type))] :=
    hm₀.mono (List.subset_cons_self _ _)
  obtain ⟨m₁, h₁, hs₁, hm₁⟩ := store_rule 8
    (pointer (.at (sizeofObj + gc.value + gc.externref + gc.anyref))) hm₀'
    (by rw [length_pointer]; omega) (by simp [Alloc.Apart])
  obtain ⟨m₂, h₂, hs₂, hm₂⟩ := store_rule (sizeofObj + gc.value + gc.externref)
    (pointer .anyrefObjFlag) hm₁ (by rw [length_pointer]; omega)
    (by simp [Alloc.Apart]; omega)
  obtain ⟨m₃, h₃, hs₃, hm₃⟩ := store_rule (sizeofObj + gc.value + gc.externref + 8)
    (pointer (.at 0)) hm₂ (by rw [length_pointer]; omega)
    (by simp [Alloc.Apart]; omega)
  obtain ⟨m₄, h₄, hs₄, hm₄⟩ := store_rule (sizeofObj + gc.value)
    (pointer .staticExternrefObjFlag) hm₃ (by rw [length_pointer]; omega)
    (by simp [Alloc.Apart]; omega)
  obtain ⟨m₅, h₅, hs₅, hm₅⟩ := store_rule (sizeofObj + gc.value + 8)
    (pointer (.at (sizeofObj + gc.value + gc.externref))) hm₄ (by rw [length_pointer]; omega)
    (by simp [Alloc.Apart]; omega)
  obtain ⟨m₆, h₆, hs₆, hm₆⟩ := store_rule sizeofObj (pointer (.at (sizeofObj + gc.value))) hm₅
    (by rw [length_pointer]; omega) (by simp [Alloc.Apart]; omega)
  refine ⟨m₆, ?_, by omega, hm₆.mono ?_⟩
  · rw [rstObjNewStatic, hsum, h₀]
    simp only [bind, Except.bind, hb, if_pos h0, h₁, h₂, h₃, h₄, h₅, h₆]
    rfl
  · have hbody : sizeofObj + gc.total = sizeofObj + gc.value + gc.externref + gc.anyref := by omega
    simp only [header, statics, hbody, List.cons_append, List.nil_append, List.cons_subset,
      List.mem_cons, true_or, or_true, List.nil_subset, and_self]

/-! ## Literals are exact -/

/-- The module names that have a resolver. -/
inductive Literal where
  | text
  | bytea
  deriving DecidableEq

def Literal.moduleName : Literal → String
  | .text => "env:text"
  | .bytea => "env:bytea"

def Literal.oid : Literal → Oid
  | .text => textOid
  | .bytea => byteaOid

/-- **What a literal is**: an error for a name that is too long, and otherwise a static datum with the
    bytes of the name. -/
def Literal.Exact (lit : Literal) (c : ImportGlobal) (r : Resolved) : Prop :=
  if c.nameLen > varattMax - varhdrsz then ∃ err, r = .error (.raised err)
  else ∃ rv m, r = .ok (rv, m) ∧ IsStatic m rv ∧ IsDatum m lit.oid c.bytes

/-- `n` bytes with their header, the object and the structures of the global can be allocated. -/
def Fits (gc : GcSizes) (n : ℕ) : Prop :=
  sizeofObj + gc.total +
    ((if n ≤ varattShortMax - varhdrszShort then varhdrszShort else varhdrsz) + n) ≤ maxAllocSize

/-- A text needs a database in UTF-8 and room.  A `bytea` needs the room for what is in front of the
    first NUL, and that is to be the name; if the name is too long, then what there is is to be too
    long as well. -/
def Literal.Holds (gc : GcSizes) (databaseUtf8 : Bool) (c : ImportGlobal) : Literal → Prop
  | .text => varattMax - varhdrsz < c.nameLen ∨ databaseUtf8 = true ∧ Fits gc c.nameLen
  | .bytea => ∃ n, strlen c.name = .ok n ∧
      if varattMax - varhdrsz < c.nameLen then ¬ Fits gc n else n = c.nameLen ∧ Fits gc n

theorem not_fits_of_lt (h : varattMax - varhdrsz < n) : ¬ Fits gc n := by
  simp only [Fits, varattMax, varhdrsz, varattShortMax, varhdrszShort, maxAllocSize, sizeofObj]
    at h ⊢
  split_ifs <;> omega

theorem length_strlen {mem : List UInt8} (h : strlen mem = .ok n) : (mem.take n).length = n := by
  unfold strlen at h
  split_ifs at h
  cases h
  rw [List.length_take, min_eq_left]
  exact (List.takeWhile_prefix _).length_le

theorem globalTextResolver_returns (gc : GcSizes) {name : List UInt8} (hn : (name.take n).length = n)
    (hfits : Fits gc n) (refType : ℕ) (valType isMutable : UInt8) :
    ∃ m, globalTextResolver gc true name n refType valType isMutable = .ok (sizeofObj, m) ∧
      IsStatic m sizeofObj ∧ IsDatum m textOid (name.take n) := by
  have hmax : ¬ n > varattMax - varhdrsz := fun h => not_fits_of_lt h hfits
  have hlen := length_encode (name.take n)
  rw [hn] at hlen
  rw [Fits, ← hlen] at hfits
  obtain ⟨m, hm, hsize, hhas⟩ := rstObjNewStatic_rule gc objDatum
    (show 0 < (encode (name.take n)).length by
      rw [hlen]; split_ifs <;> simp [varhdrsz, varhdrszShort]) hfits
  have hle : sizeofObj ≤ sizeofObj + gc.total := Nat.le_add_right _ _
  rw [hlen] at hm
  unfold globalTextResolver
  by_cases hs : n ≤ varattShortMax - varhdrszShort
  · have hs' : (name.take n).length + varhdrszShort ≤ varattShortMax := by
      simp only [hn, varattShortMax, varhdrszShort] at hs ⊢; omega
    obtain ⟨m₁, m₂, m₃, h₁, hb, h₂, hh, -, h₃, hd, hst⟩ := oidFirst_rule textOid hhas hle
      (between_statics gc) (encode_short hs') hsize
    refine ⟨m₃, ?_, isStatic_of_has hst, hd⟩
    have hdata := vardataAny_short hh (Nat.succ_pos _) hs'
    have hlast : store m₂ (sizeofObj + gc.total + varhdrszShort) (Cell.bytes (name.take n)) =
        .ok m₃ := h₃
    rw [if_pos hs] at hm
    rw [hn] at h₂
    simp only [bind, Except.bind, if_neg hmax, Bool.not_true, Bool.false_eq_true, if_false, hm,
      if_pos hs, h₁, hb, setVarsize1B, h₂, hdata, hlast]
    rfl
  · have hs' : ¬ (name.take n).length + varhdrszShort ≤ varattShortMax := by
      simp only [hn, varattShortMax, varhdrszShort] at hs ⊢; omega
    obtain ⟨m₁, m₂, m₃, h₁, hb, h₂, hh, -, h₃, hd, hst⟩ := oidFirst_rule textOid hhas hle
      (between_statics gc) (encode_long hs') hsize
    refine ⟨m₃, ?_, isStatic_of_has hst, hd⟩
    have hdata := vardataAny_long hh
    have hlast : store m₂ (sizeofObj + gc.total + varhdrsz) (Cell.bytes (name.take n)) =
        .ok m₃ := h₃
    rw [if_neg hs] at hm
    rw [hn] at h₂
    simp only [bind, Except.bind, if_neg hmax, Bool.not_true, Bool.false_eq_true, if_false, hm,
      if_neg hs, h₁, hb, setVarsize, h₂, hdata, hlast]
    rfl

theorem globalBytesResolver_returns (gc : GcSizes) {name : List UInt8} (hn : strlen name = .ok n)
    (hfits : Fits gc n) (refType : ℕ) (valType isMutable : UInt8) :
    ∃ m, globalBytesResolver gc name refType valType isMutable = .ok (sizeofObj, m) ∧
      IsStatic m sizeofObj ∧ IsDatum m byteaOid (name.take n) := by
  have hmax : ¬ n > varattMax - varhdrsz := fun h => not_fits_of_lt h hfits
  have htake := length_strlen hn
  have hlen := length_encode (name.take n)
  rw [htake] at hlen
  rw [Fits, ← hlen] at hfits
  obtain ⟨m, hm, hsize, hhas⟩ := rstObjNewStatic_rule gc objDatum
    (show 0 < (encode (name.take n)).length by
      rw [hlen]; split_ifs <;> simp [varhdrsz, varhdrszShort]) hfits
  have hle : sizeofObj ≤ sizeofObj + gc.total := Nat.le_add_right _ _
  rw [hlen] at hm
  unfold globalBytesResolver
  by_cases hs : n ≤ varattShortMax - varhdrszShort
  · have hs' : (name.take n).length + varhdrszShort ≤ varattShortMax := by
      simp only [htake, varattShortMax, varhdrszShort] at hs ⊢; omega
    obtain ⟨m₁, m₂, m₃, h₁, h₂, hh, hb, hb₂, h₃, hd, hst⟩ := headerFirst_rule byteaOid hhas hle
      (between_statics gc) (encode_short hs') hsize
    refine ⟨m₃, ?_, isStatic_of_has hst, hd⟩
    have hdata := vardataAny_short hh (Nat.succ_pos _) hs'
    have hlast : store m₂ (sizeofObj + gc.total + varhdrszShort) (Cell.bytes (name.take n)) =
        .ok m₃ := h₃
    rw [if_pos hs, add_comm varhdrszShort] at hm
    rw [htake] at h₁
    simp only [bind, Except.bind, hn, if_neg hmax, if_pos hs, hm, hb, setVarsize1B, h₁, h₂, hb₂,
      hdata, hlast, pure, Except.pure]
  · have hs' : ¬ (name.take n).length + varhdrszShort ≤ varattShortMax := by
      simp only [htake, varattShortMax, varhdrszShort] at hs ⊢; omega
    obtain ⟨m₁, m₂, m₃, h₁, h₂, hh, hb, hb₂, h₃, hd, hst⟩ := headerFirst_rule byteaOid hhas hle
      (between_statics gc) (encode_long hs') hsize
    refine ⟨m₃, ?_, isStatic_of_has hst, hd⟩
    have hdata := vardataAny_long hh
    have hlast : store m₂ (sizeofObj + gc.total + varhdrsz) (Cell.bytes (name.take n)) =
        .ok m₃ := h₃
    rw [if_neg hs, add_comm varhdrsz] at hm
    rw [htake] at h₁
    simp only [bind, Except.bind, hn, if_neg hmax, if_neg hs, hm, hb, setVarsize, h₁, h₂, hb₂,
      hdata, hlast, pure, Except.pure]

/-- What does not fit is refused, by the limit or by the allocation. -/
theorem globalTextResolver_raises (gc : GcSizes) {databaseUtf8 : Bool} (name : List UInt8)
    (hlt : n < 4294967296) (h : databaseUtf8 = false ∨ ¬ Fits gc n) (refType : ℕ) (valType isMutable : UInt8) :
    ∃ err, globalTextResolver gc databaseUtf8 name n refType valType isMutable =
      .error (.raised err) := by
  unfold globalTextResolver
  by_cases hmax : n > varattMax - varhdrsz
  · exact ⟨_, by simp only [if_pos hmax]; rfl⟩
  rcases Bool.eq_false_or_eq_true databaseUtf8 with rfl | rfl
  · have hfits := h.resolve_left nofun
    obtain ⟨err, herr⟩ := rstObjNewStatic_raises gc objDatum
      (by split_ifs <;> simp only [varhdrsz, varhdrszShort] <;> omega) (not_le.1 hfits)
    refine ⟨err, ?_⟩
    simp only [bind, Except.bind, if_neg hmax, Bool.not_true, Bool.false_eq_true, if_false, herr]
  · exact ⟨_, by simp only [if_neg hmax]; rfl⟩

theorem globalBytesResolver_raises (gc : GcSizes) {name : List UInt8} (hn : strlen name = .ok n)
    (hfits : ¬ Fits gc n) (refType : ℕ) (valType isMutable : UInt8) :
    ∃ err, globalBytesResolver gc name refType valType isMutable = .error (.raised err) := by
  unfold globalBytesResolver
  by_cases hmax : n > varattMax - varhdrsz
  · exact ⟨_, by simp only [bind, Except.bind, hn, if_pos hmax]; rfl⟩
  have hlt : n < 4294967296 := by simp only [varattMax, varhdrsz] at hmax; omega
  by_cases hs : n ≤ varattShortMax - varhdrszShort
  · rw [Fits, if_pos hs, add_comm varhdrszShort] at hfits
    obtain ⟨err, herr⟩ := rstObjNewStatic_raises gc objDatum
      (by simp only [varhdrszShort]; omega) (not_le.1 hfits)
    exact ⟨err, by simp only [bind, Except.bind, hn, if_neg hmax, if_pos hs, herr]⟩
  · rw [Fits, if_neg hs, add_comm varhdrsz] at hfits
    obtain ⟨err, herr⟩ := rstObjNewStatic_raises gc objDatum
      (by simp only [varhdrsz]; omega) (not_le.1 hfits)
    exact ⟨err, by simp only [bind, Except.bind, hn, if_neg hmax, if_neg hs, herr]⟩

/-- A name without a NUL behind it is read on. -/
theorem globalBytesResolver_outside {name : List UInt8} (hn : strlen name = .error .outside)
    (refType : ℕ) (valType isMutable : UInt8) :
    globalBytesResolver gc name refType valType isMutable = .error .outside := by
  rw [globalBytesResolver, hn]
  rfl

/-- **A datum has one payload**: what is written with its header is read back. -/
theorem IsDatum.payload_unique {m : Alloc Word} {oid : Oid} {as bs : List UInt8}
    (ha : IsDatum m oid as) (hb : IsDatum m oid bs) (ha' : as.length + 4 ≤ longMax)
    (hb' : bs.length + 4 ≤ longMax) : as = bs := by
  obtain ⟨p, hp, -, -, hpa⟩ := ha.value
  obtain ⟨q, hq, -, -, hqb⟩ := hb.value
  have hcell : some (Cell.part (Word.at p) 0) = some (Cell.part (Word.at q) 0) :=
    (hp 0 (Nat.succ_pos _)).symm.trans (hq 0 (Nat.succ_pos _))
  obtain rfl : p = q := by simpa using hcell
  rcases le_total (encode as).length (encode bs).length with hle | hle
  · obtain ⟨rest, hrest⟩ := hpa.isPrefix hqb hle
    have := inline_encode hb' []
    rw [List.append_nil, ← hrest, inline_encode ha'] at this
    exact Option.some.inj this
  · obtain ⟨rest, hrest⟩ := hqb.isPrefix hpa hle
    have := inline_encode ha' []
    rw [List.append_nil, ← hrest, inline_encode hb'] at this
    exact (Option.some.inj this).symm

/-- **Literals are exact** if it is a text, the database is in UTF-8 and the text fits an allocation;
    if it is a `bytea`, what is in front of the first NUL is the name and fits. -/
theorem literals_exact_iff (gc : GcSizes) (databaseUtf8 : Bool) (lit : Literal)
    (c : ImportGlobal) :
    (∃ r, wasmResolveGlobal gc databaseUtf8 lit.moduleName c = some r ∧ lit.Exact c r) ↔
      lit.Holds gc databaseUtf8 c := by
  have hbytes : c.bytes.length = c.nameLen := List.length_take_of_le c.nameLen_le
  have hlong : ¬ varattMax - varhdrsz < c.nameLen → c.bytes.length + 4 ≤ longMax := by
    intro h
    simp only [hbytes, varattMax, varhdrsz, longMax] at h ⊢; omega
  cases lit with
  | text =>
    have hcall : wasmResolveGlobal gc databaseUtf8 (Literal.moduleName .text) c =
        some (globalTextResolver gc databaseUtf8 c.name c.nameLen c.refType c.valType
          c.isMutable) := rfl
    rw [hcall]
    simp only [Option.some.injEq, exists_eq_left', Literal.Exact, Literal.Holds]
    by_cases hok : databaseUtf8 = true ∧ Fits gc c.nameLen
    · obtain ⟨rfl, hfits⟩ := hok
      have hle : ¬ c.nameLen > varattMax - varhdrsz := fun h => not_fits_of_lt h hfits
      rw [if_neg hle]
      obtain ⟨m, hm, hst, hd⟩ := globalTextResolver_returns gc hbytes hfits c.refType
        c.valType c.isMutable
      exact iff_of_true ⟨_, m, hm, hst, hd⟩ (.inr ⟨rfl, hfits⟩)
    · have hno : databaseUtf8 = false ∨ ¬ Fits gc c.nameLen := by
        rcases Bool.eq_false_or_eq_true databaseUtf8 with h | h
        · exact .inr fun hfits => hok ⟨h, hfits⟩
        · exact .inl h
      obtain ⟨err, herr⟩ := globalTextResolver_raises gc c.name c.nameLen_lt hno c.refType
        c.valType c.isMutable
      rw [herr]
      split_ifs with hmax
      · exact iff_of_true ⟨err, rfl⟩ (.inl hmax)
      · refine iff_of_false ?_ (not_or.2 ⟨hmax, hok⟩)
        rintro ⟨rv, m, hm, -⟩
        cases hm
  | bytea =>
    have hcall : wasmResolveGlobal gc databaseUtf8 (Literal.moduleName .bytea) c =
        some (globalBytesResolver gc c.name c.nameLen (.ofNat c.refType) c.valType) := rfl
    rw [hcall]
    simp only [Option.some.injEq, exists_eq_left', Literal.Exact, Literal.Holds]
    cases hstr : strlen c.name with
    | error err =>
      have hout : strlen c.name = .error .outside := by
        unfold strlen at hstr ⊢
        split_ifs at hstr ⊢
        rfl
      rw [globalBytesResolver_outside hout]
      refine iff_of_false ?_ ?_
      · split_ifs
        · rintro ⟨err, herr⟩
          cases herr
        · rintro ⟨rv, m, hm, -⟩
          cases hm
      · rintro ⟨n, hn, -⟩
        cases hn
    | ok n =>
      simp only [Except.ok.injEq, exists_eq_left']
      by_cases hfits : Fits gc n
      · obtain ⟨m, hm, hst, hd⟩ := globalBytesResolver_returns gc hstr hfits c.nameLen
          (.ofNat c.refType) c.valType
        rw [hm]
        split_ifs with hmax
        · refine iff_of_false ?_ (not_not.2 hfits)
          rintro ⟨err, herr⟩
          cases herr
        · constructor
          · rintro ⟨rv, m', hm', -, hd'⟩
            cases hm'
            have hn : (c.name.take n).length + 4 ≤ longMax := by
              have := not_lt.1 fun h => not_fits_of_lt h hfits
              simp only [length_strlen hstr, varattMax, varhdrsz, longMax] at this ⊢; omega
            have heq := congrArg List.length (hd.payload_unique hd' hn (hlong hmax))
            rw [length_strlen hstr, hbytes] at heq
            exact ⟨heq, hfits⟩
          · rintro ⟨rfl, -⟩
            exact ⟨_, m, rfl, hst, hd⟩
      · obtain ⟨err, herr⟩ := globalBytesResolver_raises gc hstr hfits c.nameLen
          (.ofNat c.refType) c.valType
        rw [herr]
        split_ifs with hmax
        · exact iff_of_true ⟨err, rfl⟩ hfits
        · refine iff_of_false ?_ fun h => hfits h.2
          rintro ⟨rv, m, hm, -⟩
          cases hm

/-- Structures of two words each. -/
def twoWords : GcSizes where
  value := 16
  externref := 16
  anyref := 16
  le_value := by decide
  le_externref := le_rfl
  le_anyref := le_rfl
  lt_max := by decide

/-- A name of three bytes, the second one a NUL. -/
def nulInside : ImportGlobal where
  name := [0x61, 0, 0x62, 0]
  nameLen := 3
  refType := 0
  valType := 0x6f
  isMutable := 0
  nameLen_le := by decide
  nameLen_lt := by decide

/-- As a `bytea` it is cut off before the NUL. -/
theorem nulInside_cut : ¬ ∃ r, wasmResolveGlobal twoWords true "env:bytea" nulInside = some r ∧
    Literal.bytea.Exact nulInside r := by
  rintro ⟨r, hr, hexact⟩
  have hfits : Fits twoWords 1 := by unfold Fits; decide
  obtain ⟨m, hm, -, hd⟩ := globalBytesResolver_returns twoWords
    (show strlen nulInside.name = .ok 1 from rfl) hfits 3 (.ofNat 0) 0x6f
  have hcall : wasmResolveGlobal twoWords true "env:bytea" nulInside =
      some (.ok (sizeofObj, m)) := congrArg some hm
  cases hcall.symm.trans hr
  have hle : ¬ nulInside.nameLen > varattMax - varhdrsz := by decide
  rw [Literal.Exact, if_neg hle] at hexact
  obtain ⟨rv, m', hm', -, hd'⟩ := hexact
  cases hm'
  have heq := hd.payload_unique hd' (by decide) (by decide)
  exact absurd heq (by decide)

end Rustica.Embedded
