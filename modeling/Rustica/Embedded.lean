/-
  Objects with bytes of their own, and `bytea_repeat`.

  `rst_obj_new` allocates an object together with the bytes that it embeds.  What it is asked for is a
  `size_t`, so that a negative count is a large one: added to the size of the object it can wrap.
  Postgres refuses what is larger than `MaxAllocSize`; otherwise the memory is taken to be there.
  `bytea_repeat` is right except for a few counts below 0 and a few up to its limit
  (`byteaRepeat_exact_iff`).
-/
import Rustica.Lib.Alloc
import Rustica.Lib.Varlena
import Rustica.Compile
import Rustica.Sandbox

namespace Rustica.Embedded

open Varlena Cell

/-! ## Objects -/

/-- What an object points to: a place in its own allocation, or the flags of a header. -/
inductive Word where
  | at (p : ℕ)
  /-- `WASM_OBJ_ANYREF_OBJ_FLAG` -/
  | anyrefObjFlag
  /-- `WASM_OBJ_EXTERNREF_OBJ_FLAG | WASM_OBJ_STATIC_OBJ_FLAG` -/
  | staticExternrefObjFlag
  deriving DecidableEq

/-- How a call fails: by an error, by an access outside of the allocation, or by the use of a pointer
    that was never set. -/
inductive Fault where
  | raised (err : String)
  | outside
  | wild
  deriving DecidableEq

/-- `MaxAllocSize`. -/
def maxAllocSize : ℕ := 0x3FFFFFFF

/-- `sizeof(Obj)`: the type and the flags in two bytes each, the OID in four, the body in eight. -/
def sizeofObj : ℕ := 16

/-- `OBJ_DATUM`. -/
def objDatum : ℕ := 0

def palloc (size : ℕ) : Except Fault (Alloc Word) :=
  if size > maxAllocSize then .error (.raised s!"invalid memory alloc request size {size}")
  else .ok (.fresh size)

def store (m : Alloc Word) (p : ℕ) (cs : List (Cell Word)) : Except Fault (Alloc Word) :=
  match m.store p cs with
  | some m => .ok m
  | none => .error .outside

/-- `obj->body.ptr`. -/
def body (m : Alloc Word) : Except Fault ℕ :=
  match m.pointer? 8 with
  | some (.at p) => .ok p
  | _ => .error .wild

/-- `rst_obj_new`, without a reference to another object. -/
def rstObjNew (type embedSize : ℕ) : Except Fault (Alloc Word) := do
  let m ← palloc (sizeT (sizeofObj + embedSize))
  let m ← store m 0 (bytes (le 2 type))
  let m ← store m 2 (bytes (le 2 0))
  if embedSize > 0 then store m 8 (pointer (.at sizeofObj)) else return m

/-- `obj->oid`. -/
def setOid (m : Alloc Word) (oid : Oid) : Except Fault (Alloc Word) :=
  store m 4 (bytes (le 4 oid.toNat))

/-- `SET_VARSIZE_1B`. -/
def setVarsize1B (m : Alloc Word) (p size : ℕ) : Except Fault (Alloc Word) :=
  store m p (bytes (shortHeader size))

/-- `SET_VARSIZE`. -/
def setVarsize (m : Alloc Word) (p size : ℕ) : Except Fault (Alloc Word) :=
  store m p (bytes (longHeader size))

/-- `VARDATA_ANY`. -/
def vardataAny (m : Alloc Word) (p : ℕ) : Except Fault ℕ :=
  match m.cells p with
  | some (.byte b) => .ok (if b.toNat % 2 = 1 then p + varhdrszShort else p + varhdrsz)
  | _ => .error .wild

/-! ## `bytea_repeat` -/

/-- `VARHDRSZ_SHORT` is a `size_t`, `VARHDRSZ` an `int32`: the first bound compares the count as
    unsigned, the second one does not. -/
def rstByteaRepeat (byte count : Int32) : Except Fault (Alloc Word) := do
  let count := count.toInt
  let m ←
    if sizeT count ≤ varattShortMax - varhdrszShort then do
      let m ← rstObjNew objDatum (sizeT (count + varhdrszShort))
      setVarsize1B m (← body m) (sizeT (count + varhdrszShort))
    else if count ≤ varattMax - varhdrsz then do
      let m ← rstObjNew objDatum (sizeT (count + varhdrsz))
      setVarsize m (← body m) (asUint32 (count + varhdrsz)).toNat
    else .error (.raised "bytea_repeat: count too large")
  let m ← setOid m byteaOid
  let data ← vardataAny m (← body m)
  store m data (bytes (.replicate (sizeT count) (.ofNat (asUint32 byte.toInt).toNat)))

/-! ## Stores -/

variable {m m' : Alloc Word} {p n type e : ℕ} {cs : List (Cell Word)} {oid : Oid}
  {l : List (ℕ × List (Cell Word))} {payload : List UInt8}

/-- The object is a datum of the type with the payload, in a varlena value of its own. -/
structure IsDatum (m : Alloc Word) (oid : Oid) (payload : List UInt8) : Prop where
  type : m.Holds 0 (bytes (le 2 objDatum))
  flags : m.Holds 2 (bytes (le 2 0))
  oid : m.Holds 4 (bytes (le 4 oid.toNat))
  value : ∃ p, m.Holds 8 (pointer (.at p)) ∧ sizeofObj ≤ p ∧
    p + (encode payload).length ≤ m.size ∧ m.Holds p (bytes (encode payload))

theorem store_rule (p : ℕ) (cs : List (Cell Word)) (h : m.Has l) (hin : p + cs.length ≤ m.size)
    (hl : ∀ x ∈ l, Alloc.Apart (p, cs) x) :
    ∃ m', store m p cs = .ok m' ∧ m'.size = m.size ∧ m'.Has ((p, cs) :: l) := by
  obtain ⟨m', hm', hsize, hhas⟩ := h.store hin hl
  exact ⟨m', by rw [store, hm'], hsize, hhas⟩

theorem store_outside (h : m.size < p + cs.length) : store m p cs = .error .outside := by
  rw [store, Alloc.store_eq_none_iff.2 h]

theorem body_eq (h : m.Holds 8 (pointer (.at p))) : body m = .ok p := by
  rw [body, Alloc.pointer?_eq_some h]

theorem vardataAny_short (h : m.Holds p (bytes (shortHeader n))) (h0 : 0 < n)
    (hn : n ≤ shortMax) : vardataAny m p = .ok (p + varhdrszShort) := by
  obtain ⟨b, hb, hform, -⟩ := shortHeader_eq h0 hn
  have hcell : m.cells p = some (.byte b) := by
    have := h 0 (by rw [hb]; exact Nat.succ_pos _)
    rw [hb] at this
    exact this
  rw [vardataAny, hcell]
  exact congrArg Except.ok (if_pos (odd_of_short hform))

theorem vardataAny_long (h : m.Holds p (bytes (longHeader n))) :
    vardataAny m p = .ok (p + varhdrsz) := by
  obtain ⟨b, t, hb, -, hform⟩ := longHeader_eq n
  have hcell : m.cells p = some (.byte b) := by
    have := h 0 (by rw [hb]; exact Nat.succ_pos _)
    rw [hb] at this
    exact this
  have heven := even_of_long hform
  rw [vardataAny, hcell]
  exact congrArg Except.ok (if_neg (by omega))

/-! ## New objects -/

/-- The fields of a new object. -/
def header (type body : ℕ) : List (ℕ × List (Cell Word)) :=
  [(8, pointer (.at body)), (2, bytes (le 2 0)), (0, bytes (le 2 type))]

theorem sizeT_natCast (h : n < 18446744073709551616) : sizeT n = n := by
  simp only [sizeT]; omega

theorem rstObjNew_raises (type : ℕ) (h : maxAllocSize < sizeT (sizeofObj + e)) :
    ∃ err, rstObjNew type e = .error (.raised err) := by
  rw [rstObjNew, palloc, if_pos h]
  exact ⟨_, rfl⟩

theorem rstObjNew_rule (type : ℕ) (h0 : 0 < e) (he : sizeofObj + e ≤ maxAllocSize) :
    ∃ m, rstObjNew type e = .ok m ∧ m.size = sizeofObj + e ∧ m.Has (header type sizeofObj) := by
  have hsize : sizeT (sizeofObj + e) = sizeofObj + e := by
    simp only [sizeT, sizeofObj, maxAllocSize] at he ⊢; omega
  have hmax : ¬ sizeofObj + e > maxAllocSize := not_lt.2 he
  have hnil : (Alloc.fresh (sizeofObj + e) : Alloc Word).Has [] := Alloc.has_nil
  obtain ⟨m₁, h₁, hs₁, hm₁⟩ := store_rule 0 (bytes (le 2 type)) hnil
    (by simp [Alloc.fresh, sizeofObj]; omega) (List.forall_mem_nil _)
  obtain ⟨m₂, h₂, hs₂, hm₂⟩ := store_rule 2 (bytes (le 2 0)) hm₁
    (by simp [hs₁, Alloc.fresh, sizeofObj]; omega) (by simp [Alloc.Apart])
  obtain ⟨m₃, h₃, hs₃, hm₃⟩ := store_rule 8 (pointer (.at sizeofObj)) hm₂
    (by simp [hs₂, hs₁, Alloc.fresh, sizeofObj]) (by simp [Alloc.Apart])
  refine ⟨m₃, ?_, by rw [hs₃, hs₂, hs₁]; rfl, hm₃⟩
  rw [rstObjNew, palloc, hsize, if_neg hmax]
  simp only [bind, Except.bind, h₁, h₂, if_pos h0, h₃]

/-- **The last store**, of the payload behind its header, makes the object a datum. -/
theorem payload_rule {hdr : List UInt8} (oid : Oid) (hm : m.Has l)
    (henc : encode payload = hdr ++ payload) (hl : header objDatum p ⊆ l) (hhdr : (p, bytes hdr) ∈ l)
    (hoid : (4, bytes (le 4 oid.toNat)) ∈ l) (hp : sizeofObj ≤ p)
    (hin : p + (encode payload).length ≤ m.size)
    (hapart : ∀ x ∈ l, x.1 + x.2.length ≤ p + hdr.length) :
    ∃ m', store m (p + hdr.length) (bytes payload) = .ok m' ∧ IsDatum m' oid payload ∧
      m'.Has l := by
  rw [henc, List.length_append] at hin
  obtain ⟨m', hm', hsize, hhas⟩ := store_rule (p + hdr.length) (bytes payload) hm
    (by rw [length_bytes]; omega) fun x hx => .inr (hapart x hx)
  obtain ⟨hpay, hrest⟩ := Alloc.has_cons.1 hhas
  have hhdrs : m'.Has (header objDatum p) := hrest.mono hl
  simp only [header, Alloc.has_cons] at hhdrs
  obtain ⟨hbody, hflags, htype, -⟩ := hhdrs
  refine ⟨m', hm', ⟨htype, hflags, hrest _ hoid, p, hbody, hp, ?_, ?_⟩, hrest⟩
  · rw [henc, List.length_append, hsize]
    exact hin
  · rw [henc, bytes, List.map_append]
    refine Alloc.holds_append.2 ⟨hrest _ hhdr, ?_⟩
    rw [List.length_map]
    exact hpay

theorem size_of_store (h : store m p cs = .ok m') : m'.size = m.size := by
  unfold store Alloc.store at h
  split_ifs at h
  cases h
  rfl

/-- A store that does not reach `q` leaves it alone. -/
theorem cells_of_store {q : ℕ} (h : store m p cs = .ok m') (hq : p + cs.length ≤ q) :
    m'.cells q = m.cells q := by
  unfold store Alloc.store at h
  split_ifs at h
  cases h
  exact if_neg (by omega)

/-- A size that wraps leaves no room for the object. -/
theorem rstObjNew_outside (type : ℕ) (h0 : 0 < e) (h : sizeT (sizeofObj + e) < sizeofObj) :
    rstObjNew type e = .error .outside := by
  have hmax : ¬ sizeT (sizeofObj + e) > maxAllocSize := by
    simp only [sizeofObj, maxAllocSize] at h ⊢; omega
  rw [rstObjNew, palloc, if_neg hmax]
  have hsize : (Alloc.fresh (sizeT (sizeofObj + e)) : Alloc Word).size < sizeofObj := h
  generalize (Alloc.fresh (sizeT (sizeofObj + e)) : Alloc Word) = m at hsize
  have hfail : ∀ {m : Alloc Word} {p : ℕ} {cs : List (Cell Word)} {f : Alloc Word → _},
      (∀ m', store m p cs = .ok m' → f m' = (.error .outside : Except Fault (Alloc Word))) →
      (store m p cs >>= f) = .error .outside := by
    intro m p cs f hf
    cases hs : store m p cs with
    | ok m' => exact hf m' hs
    | error err =>
      rw [store] at hs
      split at hs
      · cases hs
      · exact hs ▸ rfl
  refine hfail fun m₁ h₁ => hfail fun m₂ h₂ => ?_
  rw [if_pos h0]
  refine store_outside ?_
  rw [size_of_store h₂, size_of_store h₁, length_pointer]
  exact hsize

/-- Without embedded bytes the body is not set. -/
theorem rstObjNew_zero (type : ℕ) : ∃ m, rstObjNew type 0 = .ok m ∧ body m = .error .wild := by
  have hnil : (Alloc.fresh sizeofObj : Alloc Word).Has [] := Alloc.has_nil
  obtain ⟨m₁, h₁, hs₁, hm₁⟩ := store_rule 0 (bytes (le 2 type)) hnil
    (by simp [Alloc.fresh, sizeofObj]) nofun
  obtain ⟨m₂, h₂, -, -⟩ := store_rule 2 (bytes (le 2 0)) hm₁
    (by simp [hs₁, Alloc.fresh, sizeofObj]) (by simp [Alloc.Apart])
  have hcell : m₂.cells 8 = none := by
    rw [cells_of_store h₂ (by simp), cells_of_store h₁ (by simp)]
    rfl
  refine ⟨m₂, ?_, by rw [body, Alloc.pointer?_eq_none hcell]⟩
  have hsize : palloc (sizeT (sizeofObj + (0 : ℕ))) = .ok (.fresh sizeofObj) := rfl
  rw [rstObjNew, hsize]
  simp only [bind, Except.bind, h₁, h₂]
  rfl

/-! ## `bytea_repeat` is exact -/

/-- The payload of `bytea_repeat`. -/
def copies (byte count : Int32) : List UInt8 :=
  .replicate count.toInt.toNat (.ofNat (asUint32 byte.toInt).toNat)

/-- **What `bytea_repeat` is for**: an error for a count below 0 or above the limit, and otherwise as
    many copies of the low byte. -/
def Repeats (byte count : Int32) (r : Except Fault (Alloc Word)) : Prop :=
  if count.toInt < 0 ∨ count.toInt > varattMax - varhdrsz then ∃ err, r = .error (.raised err)
  else ∃ m, r = .ok m ∧
    IsDatum m byteaOid (copies byte count)

/-- The count, with its header and the object before it, is neither taken for a size of less than an
    object nor refused by `palloc` below the limit. -/
def RepeatFits (count : Int32) : Prop :=
  ¬ (-(sizeofObj + varhdrsz : ℤ) ≤ count.toInt ∧ count.toInt < 0) ∧
    ¬ ((maxAllocSize : ℤ) < sizeofObj + varhdrsz + count.toInt ∧
      count.toInt ≤ varattMax - varhdrsz)

theorem encode_short (h : payload.length + varhdrszShort ≤ varattShortMax) :
    encode payload = shortHeader (payload.length + varhdrszShort) ++ payload := if_pos h

theorem encode_long (h : ¬ payload.length + varhdrszShort ≤ varattShortMax) :
    encode payload = longHeader (payload.length + varhdrsz) ++ payload := if_neg h

theorem length_encode_short (h : payload.length + varhdrszShort ≤ varattShortMax) :
    (encode payload).length = payload.length + varhdrszShort := by
  rw [encode_short h, List.length_append, add_comm]
  rfl

theorem length_encode_long (h : ¬ payload.length + varhdrszShort ≤ varattShortMax) :
    (encode payload).length = payload.length + varhdrsz := by
  rw [encode_long h, List.length_append, longHeader, length_le, add_comm]
  rfl

theorem length_encode (payload : List UInt8) : (encode payload).length =
    (if payload.length ≤ varattShortMax - varhdrszShort then varhdrszShort else varhdrsz) +
      payload.length := by
  by_cases hs : payload.length + varhdrszShort ≤ varattShortMax
  · rw [length_encode_short hs, if_pos (Nat.le_sub_of_add_le hs), add_comm]
  · rw [length_encode_long hs, if_neg fun h => hs ?_, add_comm]
    simp only [varattShortMax, varhdrszShort] at h ⊢
    omega

/-- **An object for a value** has room for it behind its fields. -/
theorem rstObjNew_value (h : sizeofObj + varhdrsz + payload.length ≤ maxAllocSize) :
    ∃ m, rstObjNew objDatum (encode payload).length = .ok m ∧
      m.size = sizeofObj + (encode payload).length ∧ m.Has (header objDatum sizeofObj ++ []) := by
  have hlen : 0 < (encode payload).length ∧
      (encode payload).length ≤ varhdrsz + payload.length := by
    by_cases hs : payload.length + varhdrszShort ≤ varattShortMax
    · rw [length_encode_short hs]
      simp only [varhdrszShort, varhdrsz]
      omega
    · rw [length_encode_long hs]
      simp only [varhdrsz]
      omega
  rw [List.append_nil]
  exact rstObjNew_rule objDatum hlen.1 (by omega)

/-- What is behind the fields of the object, before its body. -/
def Between (p : ℕ) (l : List (ℕ × List (Cell Word))) : Prop :=
  ∀ x ∈ l, sizeofObj ≤ x.1 ∧ x.1 + x.2.length ≤ p

theorem between_nil : Between p [] := List.forall_mem_nil _

theorem header_le (type body : ℕ) : ∀ x ∈ header type body, x.1 + x.2.length ≤ sizeofObj := by
  simp [header, sizeofObj]

theorem apart_oid (type body : ℕ) (oid : Oid) :
    ∀ x ∈ header type body, Alloc.Apart (4, bytes (le 4 oid.toNat)) x := by
  simp [header, Alloc.Apart]

/-- Where the header and the OID are stored, in either order, and the payload last. -/
theorem headerFirst_rule {hdr : List UInt8} (oid : Oid) (hm : m.Has (header objDatum p ++ l))
    (hp : sizeofObj ≤ p) (hl : Between p l) (henc : encode payload = hdr ++ payload)
    (hsize : m.size = p + (encode payload).length) :
    ∃ m₁ m₂ m₃, store m p (bytes hdr) = .ok m₁ ∧ setOid m₁ oid = .ok m₂ ∧
      m₂.Holds p (bytes hdr) ∧ body m = .ok p ∧ body m₂ = .ok p ∧
      store m₂ (p + hdr.length) (bytes payload) = .ok m₃ ∧ IsDatum m₃ oid payload ∧ m₃.Has l := by
  have hlen := congrArg List.length henc
  rw [List.length_append] at hlen
  have hpos : sizeofObj = 16 := rfl
  have hbefore : ∀ x ∈ header objDatum p ++ l, x.1 + x.2.length ≤ p := by
    intro x hx
    rcases List.mem_append.1 hx with hx | hx
    · exact (header_le _ _ x hx).trans hp
    · exact (hl x hx).2
  obtain ⟨m₁, h₁, hs₁, hm₁⟩ := store_rule p (bytes hdr) hm
    (by rw [length_bytes]; omega) fun x hx => .inr (hbefore x hx)
  obtain ⟨m₂, h₂, hs₂, hm₂⟩ := store_rule 4 (bytes (le 4 oid.toNat)) hm₁
    (by rw [length_bytes, length_le]; omega) (by
      refine List.forall_mem_cons.2 ⟨.inl ?_, fun x hx => ?_⟩
      · rw [length_bytes, length_le]; omega
      rcases List.mem_append.1 hx with hx | hx
      · exact apart_oid _ _ _ x hx
      · have := (hl x hx).1
        exact .inl (by rw [length_bytes, length_le]; omega))
  obtain ⟨m₃, h₃, hdatum, hm₃⟩ := payload_rule oid hm₂ henc (fun x hx => by simp [hx])
    (by simp) (by simp) hp (by omega) (by
      refine List.forall_mem_cons.2 ⟨?_, List.forall_mem_cons.2 ⟨?_, fun x hx => ?_⟩⟩
      · rw [length_bytes, length_le]; omega
      · rw [length_bytes]
      · exact (hbefore x hx).trans (Nat.le_add_right _ _))
  refine ⟨m₁, m₂, m₃, h₁, h₂, hm₂.holds (by simp), body_eq ?_, body_eq ?_, h₃, hdatum,
    hm₃.mono fun x hx => by simp [hx]⟩
  · exact hm.holds (by simp [header])
  · exact hm₂.holds (by simp [header])

theorem oidFirst_rule {hdr : List UInt8} (oid : Oid) (hm : m.Has (header objDatum p ++ l))
    (hp : sizeofObj ≤ p) (hl : Between p l) (henc : encode payload = hdr ++ payload)
    (hsize : m.size = p + (encode payload).length) :
    ∃ m₁ m₂ m₃, setOid m oid = .ok m₁ ∧ body m₁ = .ok p ∧ store m₁ p (bytes hdr) = .ok m₂ ∧
      m₂.Holds p (bytes hdr) ∧ body m₂ = .ok p ∧
      store m₂ (p + hdr.length) (bytes payload) = .ok m₃ ∧ IsDatum m₃ oid payload ∧ m₃.Has l := by
  have hlen := congrArg List.length henc
  rw [List.length_append] at hlen
  have hpos : sizeofObj = 16 := rfl
  have hbefore : ∀ x ∈ (4, bytes (le 4 oid.toNat)) :: (header objDatum p ++ l),
      x.1 + x.2.length ≤ p := by
    refine List.forall_mem_cons.2 ⟨?_, fun x hx => ?_⟩
    · rw [length_bytes, length_le]; omega
    rcases List.mem_append.1 hx with hx | hx
    · exact (header_le _ _ x hx).trans hp
    · exact (hl x hx).2
  obtain ⟨m₁, h₁, hs₁, hm₁⟩ := store_rule 4 (bytes (le 4 oid.toNat)) hm
    (by rw [length_bytes, length_le]; omega) (by
      intro x hx
      rcases List.mem_append.1 hx with hx | hx
      · exact apart_oid _ _ _ x hx
      · have := (hl x hx).1
        exact .inl (by rw [length_bytes, length_le]; omega))
  obtain ⟨m₂, h₂, hs₂, hm₂⟩ := store_rule p (bytes hdr) hm₁
    (by rw [length_bytes]; omega) fun x hx => .inr (hbefore x hx)
  obtain ⟨m₃, h₃, hdatum, hm₃⟩ := payload_rule oid hm₂ henc (fun x hx => by simp [hx])
    (by simp) (by simp) hp (by omega) (by
      refine List.forall_mem_cons.2 ⟨?_, fun x hx => ?_⟩
      · rw [length_bytes]
      · exact (hbefore x hx).trans (Nat.le_add_right _ _))
  refine ⟨m₁, m₂, m₃, h₁, body_eq ?_, h₂, hm₂.holds (by simp), body_eq ?_, h₃, hdatum,
    hm₃.mono fun x hx => by simp [hx]⟩
  · exact hm₁.holds (by simp [header])
  · exact hm₂.holds (by simp [header])

theorem sizeT_of_nonneg {x : ℤ} (h0 : 0 ≤ x) (h : x < 18446744073709551616) :
    sizeT x = x.toNat := by
  simp only [sizeT]; omega

/-- With room for them, the copies are made. -/
theorem byteaRepeat_returns (byte : Int32) {count : Int32} (h0 : 0 ≤ count.toInt)
    (h : sizeofObj + varhdrsz + count.toInt ≤ maxAllocSize) :
    ∃ m, rstByteaRepeat byte count = .ok m ∧ IsDatum m byteaOid (copies byte count) := by
  have hlt := (int32_range count).2
  have hlen : (copies byte count).length = count.toInt.toNat := List.length_replicate
  have hcount : sizeT count.toInt = count.toInt.toNat := sizeT_of_nonneg h0 (by omega)
  have hroom : sizeofObj + varhdrsz + (copies byte count).length ≤ maxAllocSize := by
    rw [hlen]
    omega
  obtain ⟨m, hm, hsize, hhas⟩ := rstObjNew_value hroom
  unfold rstByteaRepeat
  by_cases hs : (copies byte count).length + varhdrszShort ≤ varattShortMax
  · have hhdr : sizeT (count.toInt + varhdrszShort) = (copies byte count).length + varhdrszShort := by
      simp only [sizeT, hlen, varhdrszShort]; omega
    rw [length_encode_short hs] at hm
    obtain ⟨m₁, m₂, m₃, h₁, h₂, hh₂, hb, hb₂, h₃, hd, -⟩ :=
      headerFirst_rule byteaOid hhas le_rfl between_nil (encode_short hs) hsize
    refine ⟨m₃, ?_, hd⟩
    have hbound : sizeT count.toInt ≤ varattShortMax - varhdrszShort := by
      simp only [varattShortMax, varhdrszShort] at hs ⊢; omega
    have hdata := vardataAny_short hh₂ (Nat.succ_pos _) hs
    rw [if_pos hbound]
    simp only [bind, Except.bind, hhdr, hm, hb, setVarsize1B, h₁, h₂, hb₂, hdata, hcount]
    exact h₃
  · have hhdr : sizeT (count.toInt + varhdrsz) = (copies byte count).length + varhdrsz := by
      simp only [sizeT, hlen, varhdrsz]; omega
    have hhdr' : (asUint32 (count.toInt + varhdrsz)).toNat =
        (copies byte count).length + varhdrsz := by
      simp only [asUint32, hlen, varhdrsz]; omega
    rw [length_encode_long hs] at hm
    obtain ⟨m₁, m₂, m₃, h₁, h₂, hh₂, hb, hb₂, h₃, hd, -⟩ :=
      headerFirst_rule byteaOid hhas le_rfl between_nil (encode_long hs) hsize
    refine ⟨m₃, ?_, hd⟩
    have hbound : ¬ sizeT count.toInt ≤ varattShortMax - varhdrszShort := by
      simp only [varattShortMax, varhdrszShort] at hs ⊢; omega
    have hbound' : count.toInt ≤ varattMax - varhdrsz := by
      simp only [sizeofObj, varhdrsz, maxAllocSize, varattMax] at h ⊢; omega
    have hdata := vardataAny_long hh₂
    rw [if_neg hbound, if_pos hbound']
    simp only [bind, Except.bind, hhdr, hhdr', hm, hb, setVarsize, h₁, h₂, hb₂, hdata, hcount]
    exact h₃

/-- Below 0 the count is large as a `size_t`, and small for the other bound. -/
theorem byteaRepeat_neg (byte : Int32) {count : Int32} (h0 : count.toInt < 0) :
    rstByteaRepeat byte count = (do
      let m ← rstObjNew objDatum (sizeT (count.toInt + varhdrsz))
      let m ← setVarsize m (← body m) (asUint32 (count.toInt + varhdrsz)).toNat
      let m ← setOid m byteaOid
      let data ← vardataAny m (← body m)
      store m data (bytes (.replicate (sizeT count.toInt) (.ofNat (asUint32 byte.toInt).toNat)))) := by
  have hlt := (int32_range count).1
  have hbound : ¬ sizeT count.toInt ≤ varattShortMax - varhdrszShort := by
    simp only [sizeT, varattShortMax, varhdrszShort]; omega
  have hbound' : count.toInt ≤ varattMax - varhdrsz := by
    simp only [varhdrsz, varattMax]; omega
  unfold rstByteaRepeat
  rw [if_neg hbound, if_pos hbound']

/-- A count that makes the object smaller than it is, or leaves no room for the header. -/
theorem byteaRepeat_small (byte : Int32) {count : Int32} (h0 : count.toInt < 0)
    (h : -(sizeofObj + varhdrsz : ℤ) ≤ count.toInt) :
    rstByteaRepeat byte count = .error .outside ∨ rstByteaRepeat byte count = .error .wild := by
  rw [byteaRepeat_neg byte h0]
  simp only [sizeofObj, varhdrsz] at h
  rcases lt_trichotomy (count.toInt + varhdrsz) 0 with hneg | hzero | hpos
  · have hpos : 0 < sizeT (count.toInt + varhdrsz) := by
      simp only [sizeT, varhdrsz] at hneg ⊢; omega
    have hwrap : sizeT (sizeofObj + sizeT (count.toInt + varhdrsz)) < sizeofObj := by
      simp only [sizeT, sizeofObj, varhdrsz] at hneg ⊢; omega
    rw [rstObjNew_outside objDatum hpos hwrap]
    exact .inl rfl
  · have hz : sizeT (count.toInt + varhdrsz) = 0 := by rw [hzero]; rfl
    obtain ⟨m, hm, hb⟩ := rstObjNew_zero objDatum
    rw [hz]
    simp only [bind, Except.bind, hm, hb]
    exact .inr trivial
  · have hlt : sizeT (count.toInt + varhdrsz) < varhdrsz := by
      simp only [sizeT, varhdrsz] at hpos ⊢; omega
    have hpos' : 0 < sizeT (count.toInt + varhdrsz) := by
      simp only [sizeT, varhdrsz] at hpos ⊢; omega
    obtain ⟨m, hm, hsize, hhas⟩ := rstObjNew_rule objDatum hpos'
      (by simp only [sizeofObj, varhdrsz, maxAllocSize] at hlt ⊢; omega)
    have hb : body m = .ok sizeofObj := body_eq (hhas.holds (by simp [header]))
    have hout : ∀ size, setVarsize m sizeofObj size = .error .outside := fun size =>
      store_outside (by
        rw [hsize, length_bytes, longHeader, length_le]
        exact Nat.add_lt_add_left hlt _)
    simp only [bind, Except.bind, hm, hb, hout]
    exact .inl trivial

/-- Above the limit the native refuses, far below 0 the allocation. -/
theorem byteaRepeat_raises (byte : Int32) {count : Int32}
    (h : count.toInt < -(sizeofObj + varhdrsz : ℤ) ∨ (varattMax - varhdrsz : ℤ) < count.toInt) :
    ∃ err, rstByteaRepeat byte count = .error (.raised err) := by
  have hr := int32_range count
  rcases h with h | h
  · have h0 : count.toInt < 0 := by simp only [sizeofObj, varhdrsz] at h; omega
    have hsize : maxAllocSize < sizeT (sizeofObj + sizeT (count.toInt + varhdrsz)) := by
      simp only [sizeT, sizeofObj, varhdrsz, maxAllocSize] at h ⊢
      omega
    obtain ⟨err, herr⟩ := rstObjNew_raises objDatum hsize
    refine ⟨err, ?_⟩
    rw [byteaRepeat_neg byte h0, herr]
    rfl
  · have hbound : ¬ sizeT count.toInt ≤ varattShortMax - varhdrszShort := by
      simp only [sizeT, varattShortMax, varhdrszShort, varattMax, varhdrsz] at h ⊢; omega
    refine ⟨"bytea_repeat: count too large", ?_⟩
    unfold rstByteaRepeat
    rw [if_neg hbound, if_neg (not_le.2 h)]
    rfl

/-- The allocation refuses what does not fit it together with the object. -/
theorem byteaRepeat_refused (byte : Int32) {count : Int32}
    (h : (maxAllocSize : ℤ) < sizeofObj + varhdrsz + count.toInt)
    (hle : count.toInt ≤ varattMax - varhdrsz) :
    ∃ err, rstByteaRepeat byte count = .error (.raised err) := by
  have hbound : ¬ sizeT count.toInt ≤ varattShortMax - varhdrszShort := by
    simp only [sizeT, sizeofObj, maxAllocSize, varattShortMax, varhdrszShort, varattMax,
      varhdrsz] at h hle ⊢
    omega
  have hsize : maxAllocSize < sizeT (sizeofObj + sizeT (count.toInt + varhdrsz)) := by
    simp only [sizeT, sizeofObj, varhdrsz, maxAllocSize, varattMax] at h hle ⊢
    omega
  obtain ⟨err, herr⟩ := rstObjNew_raises objDatum hsize
  refine ⟨err, ?_⟩
  unfold rstByteaRepeat
  rw [if_neg hbound, if_pos hle, herr]
  rfl

/-- **`bytea_repeat` is exact** unless its count is one of the 20 below 0, or one of the 16 up to the
    limit. -/
theorem byteaRepeat_exact_iff (byte count : Int32) :
    Repeats byte count (rstByteaRepeat byte count) ↔ RepeatFits count := by
  unfold Repeats RepeatFits
  by_cases hsmall : -(sizeofObj + varhdrsz : ℤ) ≤ count.toInt ∧ count.toInt < 0
  · refine iff_of_false ?_ fun h => h.1 hsmall
    rw [if_pos (.inl hsmall.2)]
    rintro ⟨err, herr⟩
    rcases byteaRepeat_small byte hsmall.2 hsmall.1 with h | h <;> cases h.symm.trans herr
  by_cases hbig : (maxAllocSize : ℤ) < sizeofObj + varhdrsz + count.toInt ∧
      count.toInt ≤ varattMax - varhdrsz
  · refine iff_of_false ?_ fun h => h.2 hbig
    rw [if_neg (not_or.2 ⟨by simp only [sizeofObj, varhdrsz, maxAllocSize] at hbig; omega,
      not_lt.2 hbig.2⟩)]
    rintro ⟨m, hm, -⟩
    obtain ⟨err, herr⟩ := byteaRepeat_refused byte hbig.1 hbig.2
    cases hm.symm.trans herr
  refine iff_of_true ?_ ⟨hsmall, hbig⟩
  split_ifs with h
  · exact byteaRepeat_raises byte (h.imp_left fun h0 => by
      by_contra hle
      exact hsmall ⟨not_lt.1 hle, h0⟩)
  · rw [not_or, not_lt, not_lt] at h
    exact byteaRepeat_returns byte h.1 (not_lt.1 fun hlt => hbig ⟨hlt, h.2⟩)

/-- A count of -1 is no error: the header of four bytes is written where there are three. -/
theorem byteaRepeat_minus_one : ¬ Repeats 0x41 (-1) (rstByteaRepeat 0x41 (-1)) := by
  have hneg : (-1 : Int32).toInt < 0 := by decide
  unfold Repeats
  rw [if_pos (.inl hneg)]
  rintro ⟨err, herr⟩
  rcases byteaRepeat_small 0x41 hneg (by decide) with h | h <;> cases h.symm.trans herr

end Rustica.Embedded
