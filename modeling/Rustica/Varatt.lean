/-
  `cstring_into_varatt_obj`: a new object with a copy of bytes, in a varlena value of its own.

  The length is checked as a `size_t` and used as an `int`.  The size of the header, the size that is
  stored in it and the size that is asked of `rst_obj_new` are computed apart, and all three change at
  one length.  The value is read back by `VARSIZE_ANY_EXHDR` and `VARDATA_ANY` as what was given
  (`varatt_exact`).  The check leaves out the object, which is allocated in one piece with the value:
  so the largest lengths that it lets through are refused by `palloc`.
-/
import Rustica.Embedded
import Rustica.Native

namespace Rustica.Embedded

open Varlena Cell

/-! ## The native, and how a value is read -/

/-- `memcpy`, of what is read. -/
def memcpySource (data : List UInt8) (n : ℕ) : Except Fault (List UInt8) :=
  if n ≤ data.length then .ok (data.take n) else .error .outside

/-- `data` is what there is in memory from the pointer on.  `VARHDRSZ_SHORT` is a `size_t`, so the
    bound for the short header is one. -/
def cstringIntoVarattObj (data : List UInt8) (llen : UInt64) (oid : Oid) :
    Except Fault (Alloc Word) := do
  if llen.toNat > varattMax - varhdrsz then throw (.raised "varlena_new: input too long")
  let len := asInt32 llen.toNat
  let isShort := sizeT len ≤ varattShortMax - varhdrszShort
  let m ← rstObjNew objDatum (sizeT ((if isShort then varhdrszShort else varhdrsz : ℕ) + len))
  let m ← setOid m oid
  let t ← body m
  let m ←
    if isShort then setVarsize1B m t (sizeT (len + varhdrszShort))
    else setVarsize m t (asUint32 (len + varhdrsz)).toNat
  let dst ← vardataAny m (← body m)
  let src ← memcpySource data (sizeT len)
  store m dst (bytes src)

/-- `VARATT_IS_1B`. -/
def varattIs1B (m : Alloc Word) (p : ℕ) : Bool :=
  match m.cells p with
  | some (.byte b) => b.toNat % 2 = 1
  | _ => false

/-- `VARSIZE_ANY_EXHDR`, of a value that is not a pointer to another one. -/
def varsizeAnyExhdr (m : Alloc Word) (p : ℕ) : Except Fault ℕ :=
  match m.cells p with
  | some (.byte b) =>
    if b.toNat = 1 then .error .wild
    else if b.toNat % 2 = 1 then .ok (shortSize b - varhdrszShort)
    else
      match m.bytes? p 4 with
      | some header => .ok (longSize header - varhdrsz)
      | none => .error .wild
  | _ => .error .wild

/-- As many bytes as `VARSIZE_ANY_EXHDR` tells, from `VARDATA_ANY` on. -/
def payloadAny (m : Alloc Word) (p : ℕ) : Except Fault (List UInt8) := do
  let n ← varsizeAnyExhdr m p
  let data ← vardataAny m p
  match m.bytes? data n with
  | some payload => return payload
  | none => throw .wild

/-! ## Reading back -/

variable {m : Alloc Word} {p n : ℕ} {payload : List UInt8} {oid : Oid}

/-- The object has the payload in a varlena value inside of its own block, behind its fields, with
    the header of the right size. -/
structure IsVaratt (m : Alloc Word) (oid : Oid) (payload : List UInt8) : Prop where
  datum : IsDatum m oid payload
  value : ∃ p, body m = .ok p ∧ payloadAny m p = .ok payload ∧ sizeofObj ≤ p ∧
    p + ((if varattIs1B m p then varhdrszShort else varhdrsz) + payload.length) ≤ m.size ∧
    (varattIs1B m p ↔ payload.length + varhdrszShort ≤ varattShortMax)

theorem ne_one_of_short {b : UInt8} (h : form b = .short) : b.toNat ≠ 1 := by
  intro hb
  rw [form, if_pos hb] at h
  cases h

theorem cells_of_header {hdr rest : List UInt8} {b : UInt8} (h : m.Holds p (bytes hdr))
    (hb : hdr = b :: rest) : m.cells p = some (.byte b) := by
  subst hb
  exact h 0 (Nat.succ_pos _)

theorem varsizeAnyExhdr_short (h : m.Holds p (bytes (shortHeader n))) (h0 : 0 < n)
    (hn : n ≤ shortMax) : varsizeAnyExhdr m p = .ok (n - varhdrszShort) := by
  obtain ⟨b, hb, hform, hsize⟩ := shortHeader_eq h0 hn
  rw [varsizeAnyExhdr, cells_of_header h hb]
  dsimp only
  rw [if_neg (ne_one_of_short hform), if_pos (odd_of_short hform), hsize]

theorem varsizeAnyExhdr_long (h : m.Holds p (bytes (longHeader n))) (hn : n ≤ longMax) :
    varsizeAnyExhdr m p = .ok (n - varhdrsz) := by
  obtain ⟨b, t, hb, -, hform⟩ := longHeader_eq n
  have heven := even_of_long hform
  have hbytes : m.bytes? p 4 = some (longHeader n) := by
    have hread := Alloc.bytes?_eq h
    rwa [longHeader, length_le] at hread
  rw [varsizeAnyExhdr, cells_of_header h hb]
  dsimp only
  rw [if_neg (by omega), if_neg (by omega), hbytes]
  dsimp only
  rw [longSize_longHeader hn]

theorem varattIs1B_short (h : m.Holds p (bytes (shortHeader n))) (h0 : 0 < n)
    (hn : n ≤ shortMax) : varattIs1B m p = true := by
  obtain ⟨b, hb, hform, -⟩ := shortHeader_eq h0 hn
  rw [varattIs1B, cells_of_header h hb]
  exact decide_eq_true (odd_of_short hform)

theorem varattIs1B_long (h : m.Holds p (bytes (longHeader n))) : varattIs1B m p = false := by
  obtain ⟨b, t, hb, -, hform⟩ := longHeader_eq n
  have heven := even_of_long hform
  rw [varattIs1B, cells_of_header h hb]
  exact decide_eq_false (by omega)

theorem payloadAny_eq {q : ℕ} (hn : varsizeAnyExhdr m p = .ok payload.length)
    (hq : vardataAny m p = .ok q) (h : m.Holds q (bytes payload)) :
    payloadAny m p = .ok payload := by
  rw [payloadAny, hn, hq]
  simp only [bind, Except.bind, Alloc.bytes?_eq h]
  rfl

/-- **A datum is read back** as its payload. -/
theorem IsDatum.isVaratt (h : IsDatum m oid payload)
    (hlen : payload.length + varhdrsz ≤ varattMax) : IsVaratt m oid payload := by
  obtain ⟨p, hbody, hp, hsize, hvalue⟩ := h.value
  refine ⟨h, p, body_eq hbody, ?_⟩
  by_cases hs : payload.length + varhdrszShort ≤ varattShortMax
  · rw [encode_short hs, bytes, List.map_append] at hvalue
    obtain ⟨hheader, hpayload⟩ := Alloc.holds_append.1 hvalue
    have hshort := varattIs1B_short hheader (Nat.succ_pos _) hs
    refine ⟨payloadAny_eq (varsizeAnyExhdr_short hheader (Nat.succ_pos _) hs)
      (vardataAny_short hheader (Nat.succ_pos _) hs) hpayload, hp, ?_, iff_of_true hshort hs⟩
    rw [encode_short hs, List.length_append] at hsize
    rw [hshort]
    exact hsize
  · rw [encode_long hs, bytes, List.map_append] at hvalue
    obtain ⟨hheader, hpayload⟩ := Alloc.holds_append.1 hvalue
    have hlong := varattIs1B_long hheader
    refine ⟨payloadAny_eq (varsizeAnyExhdr_long hheader hlen) (vardataAny_long hheader) hpayload,
      hp, ?_, iff_of_false (by rw [hlong]; exact Bool.false_ne_true) hs⟩
    rw [encode_long hs, List.length_append] at hsize
    rw [hlong]
    exact hsize

/-! ## The native -/

/-- **What the native is for**: a copy of the bytes where they fit an allocation with a header and
    the object, and otherwise an error. -/
def Carries (data : List UInt8) (llen : UInt64) (oid : Oid) (r : Except Fault (Alloc Word)) : Prop :=
  if sizeofObj + varhdrsz + llen.toNat ≤ maxAllocSize then
    llen.toNat ≤ data.length → ∃ m, r = .ok m ∧ IsVaratt m oid (data.take llen.toNat)
  else ∃ err, r = .error (.raised err)

variable {data : List UInt8}

/-- A length in range is the same as an `int` and as a `size_t`. -/
theorem length_narrow (h : n ≤ varattMax - varhdrsz) : asInt32 (n : ℤ) = n ∧ sizeT (n : ℤ) = n := by
  simp only [varattMax, varhdrsz] at h
  exact ⟨asInt32_of_range (by omega) (by omega), sizeT_natCast (by omega)⟩

/-- The size of the header. -/
theorem headerSize_mem (n : ℕ) :
    0 < (if n ≤ varattShortMax - varhdrszShort then varhdrszShort else varhdrsz) ∧
      (if n ≤ varattShortMax - varhdrszShort then varhdrszShort else varhdrsz) ≤ varhdrsz := by
  split_ifs
  · exact ⟨Nat.one_pos, by decide⟩
  · exact ⟨Nat.succ_pos _, le_rfl⟩

theorem cstringIntoVarattObj_returns (llen : UInt64) (oid : Oid) (hle : llen.toNat ≤ data.length)
    (hfits : sizeofObj + varhdrsz + llen.toNat ≤ maxAllocSize) :
    ∃ m, cstringIntoVarattObj data llen oid = .ok m ∧ IsDatum m oid (data.take llen.toNat) := by
  obtain ⟨n, hn⟩ : ∃ n, llen.toNat = n := ⟨_, rfl⟩
  rw [hn] at hle hfits ⊢
  have hmax : n ≤ varattMax - varhdrsz := by
    simp only [sizeofObj, varhdrsz, maxAllocSize, varattMax] at hfits ⊢
    omega
  obtain ⟨hint, hsize_t⟩ := length_narrow hmax
  have hpayload : (data.take n).length = n := List.length_take_of_le hle
  have hlen := length_encode (data.take n)
  rw [hpayload] at hlen
  obtain ⟨hheader, hheader'⟩ := headerSize_mem n
  have hvarhdrsz : varhdrsz = 4 := rfl
  have hlimit : varattMax = 0x3FFFFFFF := rfl
  -- the size that is asked of `rst_obj_new` is that of the value
  have hembed : sizeT ((if n ≤ varattShortMax - varhdrszShort then varhdrszShort else varhdrsz : ℕ) +
      (n : ℤ)) = (encode (data.take n)).length := by
    rw [hlen, ← Nat.cast_add]
    exact sizeT_natCast (by omega)
  obtain ⟨m, hm, hsize, hhas⟩ := rstObjNew_value (hpayload.symm ▸ hfits)
  rw [← hembed] at hm
  have hcopy : memcpySource data n = .ok (data.take n) := if_pos hle
  have hgt : ¬ n > varattMax - varhdrsz := Nat.not_lt_of_le hmax
  unfold cstringIntoVarattObj
  rw [hn]
  by_cases hs : n ≤ varattShortMax - varhdrszShort
  · have hs' : (data.take n).length + varhdrszShort ≤ varattShortMax := by
      simp only [hpayload, varattShortMax, varhdrszShort] at hs ⊢
      omega
    have hstored : sizeT ((n : ℤ) + varhdrszShort) = (data.take n).length + varhdrszShort := by
      rw [hpayload, ← Nat.cast_add]
      refine sizeT_natCast ?_
      simp only [varhdrszShort]
      omega
    obtain ⟨m₁, m₂, m₃, h₁, hb, h₂, hh, hb₂, h₃, hd, -⟩ :=
      oidFirst_rule oid hhas le_rfl between_nil (encode_short hs') hsize
    refine ⟨m₃, ?_, hd⟩
    have hdata := vardataAny_short hh (Nat.succ_pos _) hs'
    have hlast : store m₂ (sizeofObj + varhdrszShort) (bytes (data.take n)) = .ok m₃ := h₃
    rw [if_pos hs] at hm
    simp only [if_neg hgt, hint, hsize_t, if_pos hs, hm]
    simp only [bind, Except.bind, h₁, hb, hstored, setVarsize1B, h₂, hb₂, hdata, hcopy, hlast]
  · have hs' : ¬ (data.take n).length + varhdrszShort ≤ varattShortMax := by
      simp only [hpayload, varattShortMax, varhdrszShort] at hs ⊢
      omega
    have hstored : (asUint32 ((n : ℤ) + varhdrsz)).toNat = (data.take n).length + varhdrsz := by
      simp only [asUint32, hpayload, varhdrsz, varattMax] at hmax ⊢
      omega
    obtain ⟨m₁, m₂, m₃, h₁, hb, h₂, hh, hb₂, h₃, hd, -⟩ :=
      oidFirst_rule oid hhas le_rfl between_nil (encode_long hs') hsize
    refine ⟨m₃, ?_, hd⟩
    have hdata := vardataAny_long hh
    have hlast : store m₂ (sizeofObj + varhdrsz) (bytes (data.take n)) = .ok m₃ := h₃
    rw [if_neg hs] at hm
    simp only [if_neg hgt, hint, hsize_t, if_neg hs, hm]
    simp only [bind, Except.bind, h₁, hb, hstored, setVarsize, h₂, hb₂, hdata, hcopy, hlast]

/-- The check counts the header and not the object: what is between goes to `palloc`, and that
    refuses it. -/
theorem cstringIntoVarattObj_raises (data : List UInt8) (llen : UInt64) (oid : Oid)
    (h : maxAllocSize < sizeofObj + varhdrsz + llen.toNat) :
    ∃ err, cstringIntoVarattObj data llen oid = .error (.raised err) := by
  obtain ⟨n, hn⟩ : ∃ n, llen.toNat = n := ⟨_, rfl⟩
  rw [hn] at h
  unfold cstringIntoVarattObj
  rw [hn]
  by_cases hmax : n ≤ varattMax - varhdrsz
  · obtain ⟨hint, hsize_t⟩ := length_narrow hmax
    have hgt : ¬ n > varattMax - varhdrsz := Nat.not_lt_of_le hmax
    simp only [maxAllocSize, sizeofObj, varattMax, varhdrsz] at h hmax
    have hs : ¬ n ≤ varattShortMax - varhdrszShort := by
      simp only [varattShortMax, varhdrszShort]
      omega
    have hembed : sizeT ((varhdrsz : ℕ) + (n : ℤ)) = varhdrsz + n := by
      rw [← Nat.cast_add]
      exact sizeT_natCast (by simp only [varhdrsz]; omega)
    obtain ⟨err, herr⟩ := rstObjNew_raises (e := varhdrsz + n) objDatum (by
      simp only [maxAllocSize, sizeofObj, sizeT, varhdrsz]
      omega)
    refine ⟨err, ?_⟩
    simp only [if_neg hgt, hint, hsize_t, if_neg hs, hembed, herr]
    rfl
  · exact ⟨_, by simp only [if_pos (Nat.lt_of_not_le hmax)]; rfl⟩

/-- **A value is carried as it is**, or the length is refused. -/
theorem varatt_exact (data : List UInt8) (llen : UInt64) (oid : Oid) :
    Carries data llen oid (cstringIntoVarattObj data llen oid) := by
  unfold Carries
  split_ifs with hfits
  · intro hle
    obtain ⟨m, hm, hdatum⟩ := cstringIntoVarattObj_returns llen oid hle hfits
    refine ⟨m, hm, hdatum.isVaratt ?_⟩
    rw [List.length_take_of_le hle]
    simp only [sizeofObj, varhdrsz, maxAllocSize, varattMax] at hfits ⊢
    omega
  · exact cstringIntoVarattObj_raises data llen oid (not_le.1 hfits)

/-! ## The value of the other natives -/

/-- The object has the value that the other natives compute with. -/
def Represents (m : Alloc Word) (t : Varatt) : Prop :=
  ∃ p, body m = .ok p ∧ payloadAny m p = .ok t.data ∧ varattIs1B m p = t.isShort

theorem isShort_of_cstringIntoVarattObj {t : Varatt}
    (h : Rustica.cstringIntoVarattObj data = .ok t) :
    t.isShort ↔ data.length + varhdrszShort ≤ varattShortMax := by
  rw [Rustica.cstringIntoVarattObj] at h
  split_ifs at h with hmax hs
  · cases h
    simp only [varhdrszShort, varattShortMax] at hs ⊢
    exact iff_of_true trivial (by omega)
  · cases h
    simp only [varhdrszShort, varattShortMax] at hs ⊢
    exact iff_of_false Bool.false_ne_true (by omega)

/-- **The bytes refine the value**: where there is room the object has it, with the header that the
    value stands for. -/
theorem cstringIntoVarattObj_refines (oid : Oid) {t : Varatt}
    (ht : Rustica.cstringIntoVarattObj data = .ok t)
    (hfits : sizeofObj + varhdrsz + data.length ≤ maxAllocSize) :
    ∃ m, cstringIntoVarattObj data (.ofNat data.length) oid = .ok m ∧ Represents m t := by
  have hlen : (UInt64.ofNat data.length).toNat = data.length := by
    refine UInt64.toNat_ofNat_of_lt' ?_
    simp only [sizeofObj, varhdrsz, maxAllocSize, UInt64.size] at hfits ⊢
    omega
  obtain ⟨m, hm, hdatum⟩ :=
    cstringIntoVarattObj_returns (.ofNat data.length) oid hlen.le (by rwa [hlen])
  rw [hlen, List.take_length] at hdatum
  have hvaratt := hdatum.isVaratt (by
    simp only [sizeofObj, varhdrsz, maxAllocSize, varattMax] at hfits ⊢
    omega)
  obtain ⟨p, hbody, hpayload, -, -, hshort⟩ := hvaratt.value
  refine ⟨m, hm, p, hbody, ?_, ?_⟩
  · rw [hpayload, data_of_cstringIntoVarattObj ht]
  · exact Bool.eq_iff_iff.2 (hshort.trans (isShort_of_cstringIntoVarattObj ht).symm)

/-- What is too long for the value is too long for the native, with the same error. -/
theorem cstringIntoVarattObj_refines_error (oid : Oid) {err : String}
    (herr : Rustica.cstringIntoVarattObj data = .error err)
    (hlt : data.length < UInt64.size) :
    cstringIntoVarattObj data (.ofNat data.length) oid = .error (.raised err) := by
  rw [Rustica.cstringIntoVarattObj] at herr
  split_ifs at herr with hmax
  cases herr
  unfold cstringIntoVarattObj
  simp only [UInt64.toNat_ofNat_of_lt' hlt, if_pos hmax]
  rfl

/-- **Not every length that the check lets through has a datum.** -/
theorem varatt_refused : ¬ ∀ (data : List UInt8) (oid : Oid), data.length ≤ varattMax - varhdrsz →
    ∃ m, cstringIntoVarattObj data (.ofNat data.length) oid = .ok m ∧ IsVaratt m oid data := by
  intro h
  obtain ⟨data, hlen⟩ : ∃ data : List UInt8, data.length = varattMax - varhdrsz :=
    ⟨_, List.length_replicate (a := 0)⟩
  obtain ⟨m, hm, -⟩ := h data byteaOid hlen.le
  obtain ⟨err, herr⟩ := cstringIntoVarattObj_raises data (.ofNat data.length) byteaOid (by
    rw [hlen]
    decide)
  rw [herr] at hm
  cases hm

end Rustica.Embedded
