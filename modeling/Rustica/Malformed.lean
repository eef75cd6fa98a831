/-
  UTF-16 units of bytes that are no UTF-8.

  A text of a UTF-8 server may hold any bytes: a guest can write them one by one.  The loops of
  `utf16_length` and `utf16_char_code_at` step by first bytes, and leave out the last character if it is
  cut off, so that they agree on the indices and stay inside the text whatever its bytes are
  (`utf16CharCodeAt_units`).  But a sequence of four bytes becomes a pair of units even if it decodes to
  a code point that has none: below 0x10000 the subtraction wraps, and the first unit has more than 16
  bits (`codeUnits_iff`).
-/
import Rustica.Builder
import Rustica.Text

namespace Rustica

open Chunks Utf

/-- The sequences of the bytes, as first bytes announce them; the last one may be cut off. -/
def sequences (s : List UInt8) : List (List UInt8) := chunks utf8Server.byteLen s

/-- Nothing of the sequence is cut off. -/
def Whole (q : List UInt8) : Prop := size utf8Server.byteLen q = q.length

instance : DecidablePred Whole := fun _ => inferInstanceAs (Decidable (_ = _))

/-- What a sequence decodes to: none of its bytes is checked. -/
def codePoint (q : List UInt8) : UInt32 := (utf2wchar q ++ [0]).headD 63

/-- The units that `utf16_char_code_at` makes of a sequence. -/
def unitsOf (q : List UInt8) : List ℤ :=
  if q.length < 4 then [asInt32 (codePoint q).toNat]
  else [asInt32 ((0xD800 : UInt32) + ((codePoint q - 0x10000) >>> 10)).toNat,
    asInt32 ((0xDC00 : UInt32) + (codePoint q &&& 0x3FF)).toNat]

def codeUnits (s : List UInt8) : List ℤ := ((sequences s).filter (Whole ·)).flatMap unitsOf

/-! ## One sequence -/

variable {b : UInt8} {s q : List UInt8} {index k : ℤ}

theorem byteLen_mem (b : UInt8) : 1 ≤ utf8Server.byteLen b ∧ utf8Server.byteLen b ≤ 4 := by
  simp only [PgWchar.byteLen, PgWchar.charLen, utf8Server, utfMblen]
  split_ifs <;> omega

theorem charLen_eq (b : UInt8) (s : List UInt8) :
    utf8Server.charLen (b :: s) = utf8Server.byteLen b := charLen_cons utf8Server_bytes b s

theorem length_unitsOf (q : List UInt8) : (unitsOf q).length = if q.length < 4 then 1 else 2 := by
  unfold unitsOf
  split_ifs
  · rfl
  · rfl

/-- The unit within a sequence, between the index of its first and that of the next one's. -/
theorem codeUnitOf_eq (hk : k ≤ index) (hi : index < k + (unitsOf q).length) :
    (unitsOf q)[(index - k).toNat]? =
      some (asInt32 (codeUnitOf utf8Server q q.length (k + (unitsOf q).length) index).toNat) := by
  have hrv : (utf8Server.mb2wcharWithLen q ++ [0]).headD 63 = codePoint q := rfl
  have hwidth := length_unitsOf q
  simp only [codeUnitOf, hrv]
  by_cases h4 : q.length < 4
  · rw [if_pos h4] at hwidth
    obtain rfl : index = k := by omega
    rw [if_neg (by omega), sub_self, unitsOf, if_pos h4]
    rfl
  · rw [if_neg h4] at hwidth
    rw [hwidth] at hi ⊢
    rw [if_pos (by omega), unitsOf, if_neg h4]
    obtain rfl | rfl : index = k ∨ index = k + 1 := by omega
    · rw [if_neg (by omega), sub_self]
      rfl
    · rw [if_pos (by omega), add_sub_cancel_left]
      rfl

/-! ## The loops -/

theorem codeUnits_nil : codeUnits [] = [] := by rw [codeUnits, sequences, chunks_nil]; rfl

theorem codeUnits_cons (b : UInt8) (s : List UInt8) :
    codeUnits (b :: s) = if utf8Server.byteLen b ≤ (b :: s).length then
      unitsOf ((b :: s).take (utf8Server.byteLen b)) ++
        codeUnits ((b :: s).drop (utf8Server.byteLen b)) else [] := by
  obtain ⟨n, hn⟩ : ∃ n, utf8Server.byteLen b = n + 1 := ⟨_, (Nat.sub_add_cancel (byteLen_mem b).1).symm⟩
  rw [codeUnits, sequences, chunks_cons, hn, Nat.add_sub_cancel, List.take_succ_cons,
    List.drop_succ_cons]
  have hsize : size utf8Server.byteLen (b :: s.take n) = n + 1 := by rw [size, hn]; omega
  by_cases hle : n + 1 ≤ (b :: s).length
  · have hwhole : Whole (b :: s.take n) := by
      rw [Whole, hsize, List.length_cons, List.length_take, min_eq_left (Nat.le_of_succ_le_succ hle)]
    rw [if_pos hle, List.filter_cons_of_pos (by simpa using hwhole), List.flatMap_cons]
    rfl
  · have hcut : ¬ Whole (b :: s.take n) := by
      rw [Whole, hsize, List.length_cons, List.length_take]
      rw [List.length_cons] at hle
      omega
    have hnil : s.drop n = [] := List.drop_eq_nil_of_le (by rw [List.length_cons] at hle; omega)
    rw [if_neg hle, List.filter_cons_of_neg (by simpa using hcut), hnil, chunks_nil]
    rfl

theorem drop_byteLen (b : UInt8) (s : List UInt8) :
    (b :: s).drop (utf8Server.byteLen b) = s.drop (utf8Server.byteLen b - 1) := by
  have hpos := (byteLen_mem b).1
  conv_lhs => rw [show utf8Server.byteLen b = utf8Server.byteLen b - 1 + 1 by omega,
    List.drop_succ_cons]

/-- **The count is that of the units.** -/
theorem countCodeUnits_eq (s : List UInt8) :
    utf16CountCodeUnits utf8Server s = (codeUnits s).length := by
  induction s using chunks.induct utf8Server.byteLen with
  | case1 => rw [utf16CountCodeUnits, codeUnits_nil]; rfl
  | case2 b s ih =>
    rw [utf16CountCodeUnits, codeUnits_cons, drop_byteLen]
    simp only [charLen_eq, Int.toNat_natCast, drop_byteLen]
    by_cases hle : utf8Server.byteLen b ≤ (b :: s).length
    · have htake : ((b :: s).take (utf8Server.byteLen b)).length = utf8Server.byteLen b :=
        List.length_take_of_le hle
      rw [if_pos hle, if_neg (by omega), List.length_append, length_unitsOf, htake, Nat.cast_add, ih]
      norm_cast
    · rw [if_neg hle, if_pos (by omega)]
      rfl

/-- **The other loop finds the unit**, inside the bytes. -/
theorem seekCodeUnit_eq (hk : k ≤ index) (hi : index < k + (codeUnits s).length) :
    ∃ u, (codeUnits s)[(index - k).toNat]? = some u ∧
      seekCodeUnit utf8Server index k s = .returns u := by
  induction s using chunks.induct utf8Server.byteLen generalizing k with
  | case1 =>
    rw [codeUnits_nil, List.length_nil] at hi
    omega
  | case2 b s ih =>
    rw [codeUnits_cons, drop_byteLen] at hi ⊢
    by_cases hle : utf8Server.byteLen b ≤ (b :: s).length
    · have htake : ((b :: s).take (utf8Server.byteLen b)).length = utf8Server.byteLen b :=
        List.length_take_of_le hle
      have hwidth : (if (utf8Server.byteLen b : ℤ) < 4 then (1 : ℤ) else 2) =
          (unitsOf ((b :: s).take (utf8Server.byteLen b))).length := by
        rw [length_unitsOf, htake]
        norm_cast
      rw [if_pos hle, List.length_append, Nat.cast_add] at hi
      rw [if_pos hle, seekCodeUnit]
      simp only [charLen_eq, Int.toNat_natCast, hwidth, drop_byteLen]
      by_cases h : index < k + (unitsOf ((b :: s).take (utf8Server.byteLen b))).length
      · rw [if_pos h, if_neg (by omega)]
        refine ⟨_, ?_, rfl⟩
        rw [List.getElem?_append_left (by omega), codeUnitOf_eq hk h, htake]
      · obtain ⟨u, hu, hs⟩ := ih (not_lt.1 h) (by omega)
        rw [if_neg (by omega)]
        refine ⟨u, ?_, hs⟩
        rw [List.getElem?_append_right (by omega), ← hu]
        congr 1
        omega
    · rw [if_neg hle, List.length_nil] at hi
      omega

theorem length_codeUnits_le (s : List UInt8) : (codeUnits s).length ≤ s.length := by
  induction s using chunks.induct utf8Server.byteLen with
  | case1 => rw [codeUnits_nil]; exact le_rfl
  | case2 b s ih =>
    rw [codeUnits_cons, drop_byteLen]
    split_ifs with hle
    · have hpos := (byteLen_mem b).1
      rw [List.length_append, length_unitsOf, List.length_take_of_le hle]
      rw [List.length_drop] at ih
      rw [List.length_cons] at hle ⊢
      split_ifs
      · omega
      · omega
    · exact Nat.zero_le _

/-! ## The natives on any bytes -/

/-- **Any bytes have units**: the length is their number, an index from either end gives its unit,
    and any other index raises. -/
theorem utf16CharCodeAt_units (t : Varatt) :
    utf16Length utf8Server t = (codeUnits t.data).length ∧ ∀ index : Int32,
      if -((codeUnits t.data).length : ℤ) ≤ index.toInt ∧
          index.toInt < (codeUnits t.data).length then
        ∃ u, (codeUnits t.data)[position (codeUnits t.data).length index.toInt]? = some u ∧
          utf16CharCodeAt utf8Server t index = .returns u
      else utf16CharCodeAt utf8Server t index = .raises "index out of range" := by
  have hmax : ¬ utf8Server.encodingMaxLength = 1 := by decide
  have hlt := (length_codeUnits_le t.data).trans_lt t.length_data
  refine ⟨by rw [utf16Length, if_neg hmax, countCodeUnits_eq], fun index => ?_⟩
  rw [utf16CharCodeAt_of_count hmax (countCodeUnits_eq _) hlt]
  split_ifs with hin
  · have hpos : position (codeUnits t.data).length index.toInt < (codeUnits t.data).length := by
      rw [position]; split_ifs <;> omega
    obtain ⟨u, hu, hs⟩ := seekCodeUnit_eq (k := 0) (Int.natCast_nonneg _)
      (by rw [zero_add]; exact Int.ofNat_lt.2 hpos)
    rw [sub_zero, Int.toNat_natCast] at hu
    exact ⟨u, hu, hs⟩
  · rfl

/-- **What is asked of the natives**: the indices that one of them takes are those that the other
    tells, nothing else is read, and every value has 16 bits. -/
def CodeUnits (t : Varatt) : Prop :=
  ∀ index : Int32,
    if -utf16Length utf8Server t ≤ index.toInt ∧ index.toInt < utf16Length utf8Server t then
      ∃ u, utf16CharCodeAt utf8Server t index = .returns u ∧ 0 ≤ u ∧ u ≤ 0xFFFF
    else utf16CharCodeAt utf8Server t index = .raises "index out of range"

/-- No sequence of four bytes decodes to a code point that one unit has room for. -/
def Paired (s : List UInt8) : Prop :=
  ∀ q ∈ sequences s, q.length = 4 → 0x10000 ≤ codePoint q

theorem codeUnits_iff_forall (t : Varatt) :
    CodeUnits t ↔ ∀ u ∈ codeUnits t.data, 0 ≤ u ∧ u ≤ 0xFFFF := by
  obtain ⟨hlen, hview⟩ := utf16CharCodeAt_units t
  have hlt := (length_codeUnits_le t.data).trans_lt t.length_data
  unfold CodeUnits
  rw [hlen]
  constructor
  · intro h u hu
    obtain ⟨i, hi, rfl⟩ := List.getElem_of_mem hu
    have hi31 : i < 2 ^ 31 := by omega
    have hindex : (Int32.ofNat i).toInt = i := Int32.toInt_ofNat_of_lt hi31
    have hin : -((codeUnits t.data).length : ℤ) ≤ (Int32.ofNat i).toInt ∧
        (Int32.ofNat i).toInt < (codeUnits t.data).length := by omega
    have hv := hview (Int32.ofNat i)
    have hi' := h (Int32.ofNat i)
    rw [if_pos hin] at hv hi'
    obtain ⟨u, hu, hs⟩ := hv
    obtain ⟨u', hs', hu'⟩ := hi'
    rw [hs] at hs'
    cases hs'
    rw [hindex, position, if_neg (by omega), Int.toNat_natCast, List.getElem?_eq_getElem hi] at hu
    cases hu
    exact hu'
  · intro h index
    have hv := hview index
    split_ifs at hv ⊢ with hin
    · obtain ⟨u, hu, hs⟩ := hv
      exact ⟨u, hs, h u (List.mem_of_getElem? hu)⟩
    · exact hv

/-! ## The values -/

/-- Only a sequence of four bytes decodes to more than 16 bits, and it decodes to 21. -/
theorem codePoint_lt (q : List UInt8) : (codePoint q).toNat < 0x10000 ∨
    ¬ q.length < 4 ∧ (codePoint q).toNat < 0x200000 := by
  unfold codePoint
  cases q with
  | nil => exact .inl (by decide)
  | cons a s =>
    have ha := a.toNat_lt
    unfold utf2wchar
    split_ifs
    · exact .inl (Nat.zero_lt_succ _)
    · refine .inl ?_
      simp only [List.cons_append, List.headD_cons, UInt32.toNat_ofNat']
      omega
    · refine .inl ?_
      split
      · simp only [List.cons_append, List.headD_cons, UInt32.toNat_ofNat']
        omega
      · exact Nat.zero_lt_succ _
    · refine .inl ?_
      split
      · simp only [List.cons_append, List.headD_cons, UInt32.toNat_ofNat']
        omega
      · exact Nat.zero_lt_succ _
    · split
      · refine .inr ⟨by simp only [List.length_cons]; omega, ?_⟩
        simp only [List.cons_append, List.headD_cons, UInt32.toNat_ofNat']
        omega
      · exact .inl (Nat.zero_lt_succ _)
    · refine .inl ?_
      simp only [List.cons_append, List.headD_cons, UInt32.toNat_ofNat']
      omega

/-- The second unit of a pair. -/
theorem low_range (u : UInt32) : 0xDC00 ≤ ((0xDC00 : UInt32) + (u &&& 0x3FF)).toNat ∧
    ((0xDC00 : UInt32) + (u &&& 0x3FF)).toNat ≤ 0xDFFF := by
  simp only [UInt32.toNat_add, UInt32.toNat_and, UInt32.reduceToNat, and_1023, Nat.reducePow]
  omega

/-- The first unit of a pair has 16 bits unless the subtraction wraps. -/
theorem high_range {u : UInt32} (hu : u.toNat < 0x200000) :
    ((0xD800 : UInt32) + ((u - 0x10000) >>> 10)).toNat < 0x80000000 ∧
      (((0xD800 : UInt32) + ((u - 0x10000) >>> 10)).toNat ≤ 0xFFFF ↔ 0x10000 ≤ u) := by
  simp only [UInt32.le_iff_toNat_le, UInt32.toNat_add, UInt32.toNat_shiftRight, UInt32.toNat_sub,
    UInt32.reduceToNat, Nat.shiftRight_eq_div_pow, Nat.reduceMod, Nat.reducePow]
  omega

theorem unitsOf_iff (q : List UInt8) : (∀ u ∈ unitsOf q, 0 ≤ u ∧ u ≤ 0xFFFF) ↔
    (¬ q.length < 4 → 0x10000 ≤ codePoint q) := by
  have hlt := codePoint_lt q
  unfold unitsOf
  split_ifs with h4
  · refine iff_of_true ?_ fun h => absurd h4 h
    rw [List.forall_mem_singleton, asInt32_of_range (by omega) (by omega)]
    omega
  · have hlow := low_range (codePoint q)
    obtain ⟨hmax, hhigh⟩ := high_range (u := codePoint q) (by omega)
    rw [List.forall_mem_cons, List.forall_mem_singleton, asInt32_of_range (by omega) (by omega),
      asInt32_of_range (by omega) (by omega), ← hhigh]
    constructor
    · rintro ⟨h, -⟩ -
      omega
    · intro h
      have := h h4
      omega

theorem length_of_mem_sequences (hq : q ∈ sequences s) : q.length ≤ 4 ∧ (q.length = 4 → Whole q) := by
  obtain ⟨h0, hle⟩ := length_le_size hq
  obtain ⟨b, rest, rfl⟩ := List.exists_cons_of_length_pos h0
  have hb := byteLen_mem b
  unfold Whole
  rw [size] at hle ⊢
  omega

/-- **The natives do what is asked** if and only if no sequence of four bytes decodes to a code point
    below 0x10000. -/
theorem codeUnits_iff (t : Varatt) : CodeUnits t ↔ Paired t.data := by
  rw [codeUnits_iff_forall]
  constructor
  · intro h q hq hlen
    have hwhole := (length_of_mem_sequences hq).2 hlen
    refine (unitsOf_iff q).1 (fun u hu => h u ?_) (by omega)
    exact List.mem_flatMap.2 ⟨q, List.mem_filter.2 ⟨hq, by simpa using hwhole⟩, hu⟩
  · intro h u hu
    obtain ⟨q, hq, hu⟩ := List.mem_flatMap.1 hu
    have hmem := (List.mem_filter.1 hq).1
    have hle := (length_of_mem_sequences hmem).1
    exact (unitsOf_iff q).2 (fun h4 => h q hmem (by omega)) u hu

/-- Four bytes for U+0000. -/
def overlongNul : Varatt := ⟨true, [0xF0, 0x80, 0x80, 0x80], by decide⟩

/-- The first unit of them is 0x40D7C0. -/
theorem overlongNul_not_codeUnits : ¬ CodeUnits overlongNul := by
  intro h
  have hall := (codeUnits_iff_forall overlongNul).1 h
  have hunits : codeUnits overlongNul.data = unitsOf [0xF0, 0x80, 0x80, 0x80] ++ codeUnits [] := by
    rw [overlongNul, codeUnits_cons, if_pos (by decide)]
    rfl
  rw [hunits] at hall
  exact absurd (hall 0x40D7C0 (List.mem_append_left _ (by decide))).2 (by decide)

end Rustica
