/-
  Texts as the guest sees them: strings of UTF-16 code units.

  The guest's strings are datums in the encoding of the server.  `utf16_length` and
  `utf16_char_code_at` step over the bytes of a datum, character by character, and count one or two
  units for each; `utf16_from_char_code_array` goes the other way.  On a UTF-8 server the first two
  are the units of the text (`utf16_view`).  The third encodes the units from the start that is
  asked for to the end of the array, whatever length is asked for
  (`fromCharCodeArray_faithful_iff`); over a whole array it is the inverse of the others
  (`utf16_round_trip`).

  What PostgreSQL does with characters is a parameter (`PgWchar`).
-/
import Rustica.Lib.Utf
import Rustica.Native

namespace Rustica

open Utf

/-! ## Characters in PostgreSQL -/

/-- What the natives use of `mb/pg_wchar.h`. -/
structure PgWchar where
  /-- `pg_database_encoding_max_length` -/
  encodingMaxLength : ℤ
  /-- `pg_mblen`, from the bytes at the pointer on -/
  mblen : List UInt8 → ℤ
  /-- `pg_mb2wchar_with_len`: what it stores before the final 0 -/
  mb2wcharWithLen : List UInt8 → List UInt32
  /-- `is_utf16_surrogate_first` -/
  isUtf16SurrogateFirst : UInt32 → Bool
  /-- `is_utf16_surrogate_second` -/
  isUtf16SurrogateSecond : UInt32 → Bool
  /-- `surrogate_pair_to_codepoint` -/
  surrogatePairToCodepoint : UInt32 → UInt32 → UInt32
  /-- `unicode_to_utf8`: what it stores -/
  unicodeToUtf8 : UInt32 → List UInt8
  /-- `unicode_utf8len` -/
  unicodeUtf8len : UInt32 → ℕ

/-- The functions on code points, which no encoding changes. -/
structure PgWchar.Unicode (pg : PgWchar) : Prop where
  first : ∀ u, pg.isUtf16SurrogateFirst u = true ↔ IsHigh u.toNat
  second : ∀ u, pg.isUtf16SurrogateSecond u = true ↔ IsLow u.toNat
  pair : ∀ u v, IsHigh u.toNat → IsLow v.toNat →
    pg.surrogatePairToCodepoint u v = (charOfPair u.toNat v.toNat).val
  utf8 : ∀ c : Char, pg.unicodeToUtf8 c.val = String.utf8EncodeChar c
  utf8len : ∀ c : Char, pg.unicodeUtf8len c.val = c.utf8Size

/-- The functions on strings of a UTF-8 server: the length of a character is in its first byte, and
    the conversion of one character stops at a NUL. -/
structure PgWchar.Utf8 (pg : PgWchar) : Prop extends pg.Unicode where
  maxLength : pg.encodingMaxLength = 4
  mblen : ∀ (c : Char) rest, pg.mblen (String.utf8EncodeChar c ++ rest) = c.utf8Size
  mb2wchar : ∀ c : Char, pg.mb2wcharWithLen (String.utf8EncodeChar c) =
    if c.val = 0 then [] else [c.val]

/-! ## The natives -/

/-- `HEAP_M`, in bytes: no object of the guest is larger than its heap. -/
def gcHeapSize : ℕ := 512 * 1024 * 1024

/-- An array of 32-bit integers on the heap of the guest. -/
structure UnitArray where
  elems : List Int32
  fits : 4 * elems.length ≤ gcHeapSize

/-- The elements as integers. -/
def UnitArray.units (arr : UnitArray) : List ℤ := arr.elems.map Int32.toInt

variable (pg : PgWchar)

/-- `pg_mblen` as both loops take it: an invalid sequence is a single byte. -/
def PgWchar.charLen (s : List UInt8) : ℤ := if pg.mblen s ≤ 0 then 1 else pg.mblen s

theorem PgWchar.charLen_pos (s : List UInt8) : 0 < pg.charLen s := by
  rw [charLen]; split_ifs <;> omega

/-- `utf16_count_code_units`, from the bytes at `mb_offset` on. -/
def utf16CountCodeUnits : List UInt8 → ℤ
  | [] => 0
  | b :: s =>
    let ch := pg.charLen (b :: s)
    -- an incomplete character at the end of the string
    if ch > (b :: s).length then 0
    else (if ch < 4 then 1 else 2) + utf16CountCodeUnits ((b :: s).drop ch.toNat)
termination_by s => s.length
decreasing_by
  have := pg.charLen_pos (b :: s)
  rw [List.length_drop, List.length_cons]; omega

def utf16Length (t : Varatt) : ℤ :=
  if pg.encodingMaxLength = 1 then t.data.length else utf16CountCodeUnits pg t.data

/-- What `rv[0]` holds, set to `'?'` at first, after the conversion of the character `s`, and then
    the half of it that is asked for: the last unit counted is `utf16Index - 1`. -/
def codeUnitOf (s : List UInt8) (ch utf16Index index : ℤ) : UInt32 :=
  let rv : UInt32 := (pg.mb2wcharWithLen s ++ [0]).headD 63
  if ch ≥ 4 then
    if utf16Index - 1 = index then (0xDC00 : UInt32) + (rv &&& 0x3FF)
    else (0xD800 : UInt32) + ((rv - 0x10000) >>> 10)
  else rv

/-- The loop of `utf16_char_code_at`, which does not look at the size of the string. -/
def seekCodeUnit (index utf16Index : ℤ) : List UInt8 → Native ℤ
  | [] => .overruns
  | b :: s =>
    let ch := pg.charLen (b :: s)
    let utf16Index' := utf16Index + if ch < 4 then 1 else 2
    if utf16Index' > index then
      if ch > (b :: s).length then .overruns
      else .returns (asInt32 (codeUnitOf pg ((b :: s).take ch.toNat) ch utf16Index' index).toNat)
    else seekCodeUnit index utf16Index' ((b :: s).drop ch.toNat)
termination_by s => s.length
decreasing_by
  have := pg.charLen_pos (b :: s)
  rw [List.length_drop, List.length_cons]; omega

def utf16CharCodeAt (t : Varatt) (index : Int32) : Native ℤ :=
  if pg.encodingMaxLength = 1 then
    let index := if index.toInt < 0 then asInt32 (index.toInt + t.data.length) else index.toInt
    if index < 0 ∨ index ≥ t.data.length then .raises "index out of range"
    else .returns (t.data.getD index.toNat 0).toNat
  else
    let utf16Size := utf16CountCodeUnits pg t.data
    let index := if index.toInt < 0 then asInt32 (index.toInt + utf16Size) else index.toInt
    if index < 0 ∨ index ≥ utf16Size then .raises "index out of range"
    else seekCodeUnit pg index 0 t.data

/-- The bytes that the loop of `utf16_from_char_code_array` appends for `ch`. -/
def appendUnicode (buf : List UInt8) (ch : UInt32) : List UInt8 :=
  buf ++ (pg.unicodeToUtf8 ch).take (pg.unicodeUtf8len ch)

/-- The loop of `utf16_from_char_code_array`, over the elements from `i` to `size`. -/
def encodeUnits : List Int32 → List UInt8 → Except String (List UInt8)
  | [], buf => .ok buf
  | cu :: rest, buf =>
    if cu.toInt < 0 ∨ cu.toInt > 0xFFFF then .error "Invalid UTF-16 code unit"
    else if pg.isUtf16SurrogateFirst cu.toUInt32 then
      match rest with
      | [] => .error "Incomplete surrogate pair"
      | value :: rest =>
        if pg.isUtf16SurrogateSecond value.toUInt32 then
          encodeUnits rest
            (appendUnicode pg buf (pg.surrogatePairToCodepoint cu.toUInt32 value.toUInt32))
        else .error "Invalid surrogate pair"
    else if pg.isUtf16SurrogateSecond cu.toUInt32 then .error "Unmatched low surrogate"
    else encodeUnits rest (appendUnicode pg buf cu.toUInt32)

def utf16FromCharCodeArray (arr : UnitArray) (start length : Int32) : Native Varatt :=
  let size : ℤ := arr.elems.length
  let length := if length.toInt < 0 then asInt32 size else length.toInt
  let start := if start.toInt < 0 then asInt32 (asUint32 start.toInt + size) else start.toInt
  if start < 0 ∨ asUint32 start > size then .raises "start index out of range"
  else
    let length := if asUint32 (asInt32 (start + length)) > size then asInt32 (size - start) else length
    if length = 0 then .returns .empty
    else
      match encodeUnits pg (arr.elems.drop start.toNat) [] with
      | .ok buf => .ofExcept (cstringIntoVarattObj buf)
      | .error err => .throws err

/-! ## A UTF-8 server -/

/-- The number of bytes that the first byte of a character stands for. -/
def utfMblen : List UInt8 → ℤ
  | [] => 1
  | b :: _ =>
    if b.toNat < 0x80 then 1 else if b.toNat < 0xC0 then 1 else if b.toNat < 0xE0 then 2
    else if b.toNat < 0xF0 then 3 else if b.toNat < 0xF8 then 4 else 1

/-- The characters of the bytes, up to a NUL or to one that is cut off. -/
def utf2wchar : List UInt8 → List UInt32
  | [] => []
  | a :: s =>
    if a.toNat = 0 then []
    else if a.toNat < 0x80 then .ofNat a.toNat :: utf2wchar s
    else if 0xC0 ≤ a.toNat ∧ a.toNat < 0xE0 then
      match s with
      | b :: s => .ofNat (a.toNat % 32 * 64 + b.toNat % 64) :: utf2wchar s
      | _ => []
    else if 0xE0 ≤ a.toNat ∧ a.toNat < 0xF0 then
      match s with
      | b :: c :: s =>
        .ofNat (a.toNat % 16 * 4096 + b.toNat % 64 * 64 + c.toNat % 64) :: utf2wchar s
      | _ => []
    else if 0xF0 ≤ a.toNat ∧ a.toNat < 0xF8 then
      match s with
      | b :: c :: d :: s =>
        .ofNat (a.toNat % 8 * 262144 + b.toNat % 64 * 4096 + c.toNat % 64 * 64 + d.toNat % 64) ::
          utf2wchar s
      | _ => []
    else .ofNat a.toNat :: utf2wchar s

/-- The number of bytes of a code point. -/
def utf8lenOf (u : UInt32) : ℕ :=
  if u ≤ 0x7F then 1 else if u ≤ 0x7FF then 2 else if u ≤ 0xFFFF then 3 else 4

/-- The bytes of a code point. -/
def utf8Of (u : UInt32) : List UInt8 :=
  if u ≤ 0x7F then [.ofNat u.toNat]
  else if u ≤ 0x7FF then [.ofNat (0xC0 + u.toNat / 64 % 32), .ofNat (0x80 + u.toNat % 64)]
  else if u ≤ 0xFFFF then
    [.ofNat (0xE0 + u.toNat / 4096 % 16), .ofNat (0x80 + u.toNat / 64 % 64),
      .ofNat (0x80 + u.toNat % 64)]
  else
    [.ofNat (0xF0 + u.toNat / 262144 % 8), .ofNat (0x80 + u.toNat / 4096 % 64),
      .ofNat (0x80 + u.toNat / 64 % 64), .ofNat (0x80 + u.toNat % 64)]

/-- PostgreSQL with a database in UTF-8. -/
def utf8Server : PgWchar where
  encodingMaxLength := 4
  mblen := utfMblen
  mb2wcharWithLen := utf2wchar
  isUtf16SurrogateFirst u := 0xD800 ≤ u && u ≤ 0xDBFF
  isUtf16SurrogateSecond u := 0xDC00 ≤ u && u ≤ 0xDFFF
  surrogatePairToCodepoint u v := ((u &&& 0x3FF) <<< 10) + 0x10000 + (v &&& 0x3FF)
  unicodeToUtf8 := utf8Of
  unicodeUtf8len := utf8lenOf

/-- The lower ten bits. -/
theorem and_1023 (n : ℕ) : n &&& 1023 = n % 1024 := Nat.and_two_pow_sub_one_eq_mod n 10

theorem utf8Server_unicode : utf8Server.Unicode where
  first u := by
    simp only [utf8Server, IsHigh, Bool.and_eq_true, decide_eq_true_eq, UInt32.le_iff_toNat_le,
      UInt32.reduceToNat]
    omega
  second u := by
    simp only [utf8Server, IsLow, Bool.and_eq_true, decide_eq_true_eq, UInt32.le_iff_toNat_le,
      UInt32.reduceToNat]
    omega
  pair u v hu hv := by
    have h := charOfPair_toNat hu hv
    simp only [IsHigh, IsLow] at hu hv
    refine UInt32.toNat_inj.1 ?_
    simp only [utf8Server, UInt32.toNat_add, UInt32.toNat_shiftLeft, UInt32.toNat_and,
      UInt32.reduceToNat, and_1023, Nat.shiftLeft_eq, Char.toNat_val, Nat.reduceMod, Nat.reducePow]
    omega
  utf8 c := by
    simp only [utf8Server, utf8Of, String.utf8EncodeChar, UInt32.le_iff_toNat_le,
      UInt32.reduceToNat]
    split_ifs <;> simp only [Nat.add_comm]
  utf8len _ := rfl

/-- The low bits of the bytes of a character, below the mark of its length. -/
theorem utf8_bits (n : ℕ) : (n % 8 + 240) % 2 ^ 8 % 8 = n % 8 ∧
    (n % 16 + 224) % 2 ^ 8 % 16 = n % 16 ∧ (n % 32 + 192) % 2 ^ 8 % 32 = n % 32 ∧
    (n % 64 + 128) % 2 ^ 8 % 64 = n % 64 := by
  omega

theorem utfMblen_encodeChar (c : Char) (rest : List UInt8) :
    utfMblen (String.utf8EncodeChar c ++ rest) = c.utf8Size := by
  have h := toNat_cases (c := c)
  rw [utf8Size_eq]
  simp only [String.utf8EncodeChar, Char.toNat_val]
  split_ifs <;> simp only [List.cons_append, utfMblen, UInt8.toNat_ofNat'] <;>
    split_ifs <;> omega

theorem utf2wchar_encodeChar (c : Char) :
    utf2wchar (String.utf8EncodeChar c) = if c.val = 0 then [] else [c.val] := by
  have h := toNat_cases (c := c)
  have h0 : c.val = 0 ↔ c.toNat = 0 := UInt32.toNat_inj.symm
  have hof : c.val = .ofNat c.toNat := by
    rw [← UInt32.toNat_inj, UInt32.toNat_ofNat', Char.toNat_val]; omega
  rw [if_congr h0 rfl rfl]
  simp only [String.utf8EncodeChar, Char.toNat_val]
  rw [hof]
  split_ifs <;> simp only [utf2wchar, UInt8.toNat_ofNat']
  · rw [if_pos (by omega)]
  · rw [if_neg (by omega), if_pos (by omega)]; congr 2; omega
  · omega
  · rw [if_neg (by omega), if_neg (by omega), if_pos (by omega)]; congr 2; omega
  · omega
  · rw [if_neg (by omega), if_neg (by omega), if_neg (by omega), if_pos (by omega)]
    congr 2
    simp only [utf8_bits]; omega
  · omega
  · rw [if_neg (by omega), if_neg (by omega), if_neg (by omega), if_neg (by omega),
      if_pos (by omega)]
    congr 2
    simp only [utf8_bits]; omega

theorem utf8Server_utf8 : utf8Server.Utf8 where
  toUnicode := utf8Server_unicode
  maxLength := rfl
  mblen := utfMblen_encodeChar
  mb2wchar := utf2wchar_encodeChar

/-! ## The units of a text -/

variable {pg : PgWchar} {c : Char} {cs : List Char} {s buf : List UInt8} {index k : ℤ}

theorem charLen_append (hpg : pg.Utf8) :
    pg.charLen (String.utf8EncodeChar c ++ s) = c.utf8Size := by
  have h := c.utf8Size_pos
  rw [PgWchar.charLen, hpg.mblen, if_neg (by omega)]

/-- What the loops over characters find at the bytes `b :: t`: the character `c`, with `s` behind
    it. -/
structure Heads (pg : PgWchar) (c : Char) (s : List UInt8) (b : UInt8) (t : List UInt8) : Prop where
  charLen : pg.charLen (b :: t) = c.utf8Size
  fits : ¬ ((c.utf8Size : ℤ) > (b :: t).length)
  take : (b :: t).take c.utf8Size = String.utf8EncodeChar c
  drop : (b :: t).drop c.utf8Size = s
  zero_iff : b = 0 ↔ c = nul

theorem exists_heads (hpg : pg.Utf8) (c : Char) (s : List UInt8) :
    ∃ b t, String.utf8EncodeChar c ++ s = b :: t ∧ Heads pg c s b t := by
  have hlen := String.length_utf8EncodeChar c
  obtain ⟨b, t, hbt, hb⟩ := exists_encodeChar_eq c
  have hcons : String.utf8EncodeChar c ++ s = b :: (t ++ s) := by rw [hbt, List.cons_append]
  refine ⟨b, t ++ s, hcons, ?_, ?_, ?_, ?_, hb⟩ <;> rw [← hcons]
  · exact charLen_append hpg
  · rw [List.length_append, hlen]; omega
  · rw [← hlen, List.take_left]
  · rw [← hlen, List.drop_left]

/-- One round of the counting loop. -/
theorem countCodeUnits_append (hpg : pg.Utf8) :
    utf16CountCodeUnits pg (String.utf8EncodeChar c ++ s) =
      (units c).length + utf16CountCodeUnits pg s := by
  obtain ⟨b, t, hbt, hc⟩ := exists_heads hpg c s
  rw [hbt, utf16CountCodeUnits]
  simp only [hc.charLen, if_neg hc.fits, Int.toNat_natCast, hc.drop, length_units]
  norm_cast

/-- **The loop counts the units of the text.** -/
theorem countCodeUnits_utf8 (hpg : pg.Utf8) (cs : List Char) :
    utf16CountCodeUnits pg (utf8 cs) = (utf16 cs).length := by
  induction cs with
  | nil => rw [utf8_nil, utf16CountCodeUnits]; rfl
  | cons c cs ih =>
    rw [utf8_cons, countCodeUnits_append hpg, ih, utf16_cons, List.length_append, Nat.cast_add]

/-- What the conversion of one character leaves in `rv[0]`, also for U+0000. -/
theorem headD_mb2wchar (hpg : pg.Utf8) :
    (pg.mb2wcharWithLen (String.utf8EncodeChar c) ++ [0]).headD 63 = c.val := by
  rw [hpg.mb2wchar]
  split_ifs with h
  · exact h.symm
  · rfl

/-- The unit within a character, between the index of its first and that of the next one's. -/
theorem codeUnitOf_utf8 (hpg : pg.Utf8) (hk : k ≤ index) (hi : index < k + (units c).length) :
    (units c)[(index - k).toNat]? = some (asInt32 (codeUnitOf pg (String.utf8EncodeChar c)
      c.utf8Size (k + (units c).length) index).toNat) := by
  have hmax := toNat_cases (c := c)
  have hsize := utf8Size_lt_four_iff (c := c)
  simp only [codeUnitOf, headD_mb2wchar hpg, asInt32]
  by_cases h : c.toNat < 0x10000
  · obtain ⟨hu, -⟩ := units_plain h
    rw [hu] at hi ⊢
    simp only [List.length_singleton] at hi
    obtain rfl : index = k := by omega
    rw [if_neg (by omega), Char.toNat_val]
    simp; omega
  · rw [units, if_neg h] at hi ⊢
    simp only [List.length_cons, List.length_nil] at hi ⊢
    rw [if_pos (by omega)]
    obtain rfl | rfl : index = k ∨ index = k + 1 := by omega
    · -- the first half
      rw [if_neg (by omega)]
      have hle : (0x10000 : UInt32) ≤ c.val := by
        simp only [UInt32.le_iff_toNat_le, Char.toNat_val, UInt32.reduceToNat]; omega
      simp only [UInt32.toNat_add, UInt32.toNat_shiftRight, UInt32.toNat_sub_of_le _ _ hle,
        Char.toNat_val, UInt32.reduceToNat, Nat.shiftRight_eq_div_pow, Nat.reduceMod,
        Nat.reducePow, sub_self, Int.toNat_zero, List.getElem?_cons_zero, Option.some.injEq]
      omega
    · -- the second half
      rw [if_pos (by omega)]
      simp only [UInt32.toNat_add, UInt32.toNat_and, Char.toNat_val, UInt32.reduceToNat, and_1023,
        Nat.reducePow, add_sub_cancel_left, Int.toNat_one, List.getElem?_cons_succ,
        List.getElem?_cons_zero, Option.some.injEq]
      omega

/-- **The other loop finds the unit**, if there are enough. -/
theorem seekCodeUnit_utf8 (hpg : pg.Utf8) (hk : k ≤ index) (hi : index < k + (utf16 cs).length) :
    ∃ u, (utf16 cs)[(index - k).toNat]? = some u ∧
      seekCodeUnit pg index k (utf8 cs) = .returns u := by
  induction cs generalizing k with
  | nil => simp only [utf16_nil, List.length_nil] at hi; omega
  | cons c cs ih =>
    have hunits : (if (c.utf8Size : ℤ) < 4 then (1 : ℤ) else 2) = (units c).length := by
      rw [length_units]; norm_cast
    obtain ⟨b, t, hbt, hc⟩ := exists_heads hpg c (utf8 cs)
    rw [utf16_cons, List.length_append, Nat.cast_add] at hi
    rw [utf8_cons, hbt, utf16_cons, seekCodeUnit]
    simp only [hc.charLen, if_neg hc.fits, Int.toNat_natCast, hc.drop, hc.take, hunits]
    by_cases h : index < k + (units c).length
    · rw [if_pos h]
      refine ⟨_, ?_, rfl⟩
      rw [List.getElem?_append_left (by omega)]
      exact codeUnitOf_utf8 hpg hk h
    · obtain ⟨u, hu, hs⟩ := ih (k := k + (units c).length) (by omega) (by omega)
      rw [if_neg (by omega)]
      refine ⟨u, ?_, hs⟩
      rw [List.getElem?_append_right (by omega), ← hu]
      congr 1; omega

/-- The position of an index that counts from the end when it is negative. -/
def position (n : ℕ) (index : ℤ) : ℕ := (if index < 0 then n + index else index).toNat

theorem length_utf16_lt {t : Varatt} (ht : t.data = utf8 cs) : (utf16 cs).length < 1073741820 := by
  have h := t.length_data
  have hle : (utf16 cs).length ≤ (utf8 cs).length := length_utf16_le
  rw [ht] at h; omega

theorem utf16Length_utf8 (hpg : pg.Utf8) {t : Varatt} (ht : t.data = utf8 cs) :
    utf16Length pg t = (utf16 cs).length := by
  have hmax : ¬ pg.encodingMaxLength = 1 := by rw [hpg.maxLength]; decide
  rw [utf16Length, if_neg hmax, ht, countCodeUnits_utf8 hpg]

/-- What the native makes of the index, which does not overflow. -/
theorem utf16CharCodeAt_of_count (hmax : ¬ pg.encodingMaxLength = 1) {t : Varatt} {n : ℕ}
    (hn : utf16CountCodeUnits pg t.data = n) (hlt : n < 1073741820) (index : Int32) :
    utf16CharCodeAt pg t index =
      if -(n : ℤ) ≤ index.toInt ∧ index.toInt < n then
        seekCodeUnit pg (position n index.toInt) 0 t.data
      else .raises "index out of range" := by
  have hr := int32_range index
  have hwrap : (if index.toInt < 0 then asInt32 (index.toInt + n) else index.toInt) =
      if index.toInt < 0 then n + index.toInt else index.toInt := by
    split_ifs
    · rw [asInt32_of_range (by omega) (by omega), add_comm]
    · rfl
  simp only [utf16CharCodeAt, if_neg hmax, hn, hwrap, position]
  by_cases hin : -(n : ℤ) ≤ index.toInt ∧ index.toInt < n
  · rw [if_pos hin, if_neg (by split_ifs <;> omega), Int.toNat_of_nonneg (by split_ifs <;> omega)]
  · rw [if_neg hin, if_pos (by split_ifs <;> omega)]

theorem utf16CharCodeAt_eq (hpg : pg.Utf8) {t : Varatt} (ht : t.data = utf8 cs) (index : Int32) :
    utf16CharCodeAt pg t index =
      if -((utf16 cs).length : ℤ) ≤ index.toInt ∧ index.toInt < (utf16 cs).length then
        seekCodeUnit pg (position (utf16 cs).length index.toInt) 0 (utf8 cs)
      else .raises "index out of range" := by
  have hmax : ¬ pg.encodingMaxLength = 1 := by rw [hpg.maxLength]; decide
  have hcount : utf16CountCodeUnits pg t.data = (utf16 cs).length := by
    rw [ht, countCodeUnits_utf8 hpg]
  rw [utf16CharCodeAt_of_count hmax hcount (length_utf16_lt ht), ht]

/-- The unit at an index that counts from either end. -/
theorem utf16CharCodeAt_utf8 (hpg : pg.Utf8) {t : Varatt} (ht : t.data = utf8 cs) {index : Int32}
    (hneg : -((utf16 cs).length : ℤ) ≤ index.toInt) (hlt : index.toInt < (utf16 cs).length) :
    ∃ u, (utf16 cs)[position (utf16 cs).length index.toInt]? = some u ∧
      utf16CharCodeAt pg t index = .returns u := by
  have hpos : position (utf16 cs).length index.toInt < (utf16 cs).length := by
    rw [position]; split_ifs <;> omega
  obtain ⟨u, hu, hs⟩ := seekCodeUnit_utf8 (k := 0) hpg (Int.natCast_nonneg _)
    (by rw [zero_add]; exact Int.ofNat_lt.2 hpos)
  rw [sub_zero, Int.toNat_natCast] at hu
  exact ⟨u, hu, by rw [utf16CharCodeAt_eq hpg ht, if_pos ⟨hneg, hlt⟩, hs]⟩

/-- **The units of a text, one by one**: the length is their number, an index from either end gives
    its unit, and any other index raises. -/
theorem utf16_view (hpg : pg.Utf8) (t : Varatt) (cs : List Char) (ht : t.data = utf8 cs) :
    utf16Length pg t = (utf16 cs).length ∧ ∀ index : Int32,
      if -((utf16 cs).length : ℤ) ≤ index.toInt ∧ index.toInt < (utf16 cs).length then
        ∃ u, (utf16 cs)[position (utf16 cs).length index.toInt]? = some u ∧
          utf16CharCodeAt pg t index = .returns u
      else utf16CharCodeAt pg t index = .raises "index out of range" := by
  refine ⟨utf16Length_utf8 hpg ht, fun index => ?_⟩
  split_ifs with hin
  · exact utf16CharCodeAt_utf8 hpg ht hin.1 hin.2
  · rw [utf16CharCodeAt_eq hpg ht, if_neg hin]

/-- An A, a NUL and a face. -/
def faceText : Varatt := ⟨true, [0x41, 0, 0xF0, 0x9F, 0x98, 0x80], by decide⟩

theorem faceText_view : utf16Length utf8Server faceText = 4 ∧
    utf16CharCodeAt utf8Server faceText 1 = .returns 0 ∧
    utf16CharCodeAt utf8Server faceText (-1) = .returns 0xDE00 ∧
    utf16CharCodeAt utf8Server faceText 4 = .raises "index out of range" := by
  obtain ⟨hl, hi⟩ := utf16_view utf8Server_utf8 faceText
    [Char.ofNat 0x41, Char.ofNat 0, Char.ofNat 0x1F600] (by decide)
  have hu : utf16 [Char.ofNat 0x41, Char.ofNat 0, Char.ofNat 0x1F600] =
    [0x41, 0, 0xD83D, 0xDE00] := by decide
  rw [hu] at hl hi
  have h1 := hi 1
  have h2 := hi (-1)
  have h3 := hi 4
  rw [if_pos (by decide)] at h1 h2
  rw [if_neg (by decide)] at h3
  obtain ⟨u, hu, h1⟩ := h1
  obtain ⟨v, hv, h2⟩ := h2
  obtain rfl : 0 = u := Option.some.inj hu
  obtain rfl : 0xDE00 = v := Option.some.inj hv
  exact ⟨hl, h1, h2, h3⟩

/-! ## The text of an array of units -/

variable {us : List Int32} {arr : UnitArray} {start length : Int32}

theorem isLow_asUint32 (x : Int32) : IsLow (asUint32 x.toInt) ↔ IsLow x.toInt := by
  have h := int32_range x
  simp only [IsLow, asUint32]; omega

theorem isHigh_asUint32 (x : Int32) : IsHigh (asUint32 x.toInt) ↔ IsHigh x.toInt := by
  have h := int32_range x
  simp only [IsHigh, asUint32]; omega

theorem first_iff (hpg : pg.Unicode) (x : Int32) :
    pg.isUtf16SurrogateFirst x.toUInt32 = true ↔ IsHigh x.toInt := by
  rw [hpg.first, toNat_toUInt32, isHigh_asUint32]

theorem second_iff (hpg : pg.Unicode) (x : Int32) :
    pg.isUtf16SurrogateSecond x.toUInt32 = true ↔ IsLow x.toInt := by
  rw [hpg.second, toNat_toUInt32, isLow_asUint32]

theorem appendUnicode_val (hpg : pg.Unicode) :
    appendUnicode pg buf c.val = buf ++ String.utf8EncodeChar c := by
  rw [appendUnicode, hpg.utf8, hpg.utf8len, ← String.length_utf8EncodeChar, List.take_length]

/-- A unit is its own code point. -/
theorem appendUnicode_plain (hpg : pg.Unicode) {x : Int32} (hx : IsPlain x.toInt) :
    appendUnicode pg buf x.toUInt32 = buf ++ String.utf8EncodeChar (charOf x.toInt) := by
  have hval : x.toUInt32 = (charOf x.toInt).val := by
    have h1 := charOf_toNat hx
    have h2 := toNat_toUInt32 x
    have h3 : (charOf x.toInt).val.toNat = (charOf x.toInt).toNat := rfl
    rw [← UInt32.toNat_inj, h3]
    simp only [IsPlain, asUint32] at hx h2; omega
  rw [hval, appendUnicode_val hpg]

theorem appendUnicode_pair (hpg : pg.Unicode) {x y : Int32} (hx : IsHigh x.toInt)
    (hy : IsLow y.toInt) :
    appendUnicode pg buf (pg.surrogatePairToCodepoint x.toUInt32 y.toUInt32) =
      buf ++ String.utf8EncodeChar (charOfPair x.toInt y.toInt) := by
  have hx' : (x.toUInt32.toNat : ℤ) = x.toInt := by
    rw [toNat_toUInt32, asUint32]; simp only [IsHigh] at hx; omega
  have hy' : (y.toUInt32.toNat : ℤ) = y.toInt := by
    rw [toNat_toUInt32, asUint32]; simp only [IsLow] at hy; omega
  rw [hpg.pair _ _ (by rwa [hx']) (by rwa [hy']), hx', hy', appendUnicode_val hpg]

/-- What the loop comes to when the units decode to `d`: the text is appended, or there is an
    error. -/
def Encodes (d : Option (List Char)) (buf : List UInt8) (r : Except String (List UInt8)) : Prop :=
  match d with
  | some cs => r = .ok (buf ++ utf8 cs)
  | none => ∃ err, r = .error err

theorem Encodes.cons {d : Option (List Char)} {r : Except String (List UInt8)}
    (h : Encodes d (buf ++ String.utf8EncodeChar c) r) : Encodes (d.map (c :: ·)) buf r := by
  cases d with
  | none => exact h
  | some cs =>
    show r = .ok (buf ++ utf8 (c :: cs))
    rw [utf8_cons, ← List.append_assoc]; exact h

/-- **The loop is the decoder.** -/
theorem encodeUnits_rule (hpg : pg.Unicode) (us : List Int32) (buf : List UInt8) :
    Encodes (decode16 (us.map Int32.toInt)) buf (encodeUnits pg us buf) := by
  induction us, buf using encodeUnits.induct pg with
  | case1 buf =>
    show encodeUnits pg [] buf = .ok (buf ++ [])
    rw [encodeUnits, List.append_nil]
  | case2 cu rest buf hcu =>
    have hp : ¬ IsPlain cu.toInt := by simp only [IsPlain]; omega
    have hh : ¬ IsHigh cu.toInt := by simp only [IsHigh]; omega
    rw [List.map_cons, decode16_cons_eq_none hp (fun h => hh h.1)]
    exact ⟨_, by rw [encodeUnits.eq_def]; exact if_pos hcu⟩
  | case3 cu buf hcu hf =>
    have hh := (first_iff hpg cu).1 hf
    rw [List.map_cons, decode16_cons_eq_none (not_isPlain_of_isHigh hh) (by simp)]
    exact ⟨_, by rw [encodeUnits, if_neg hcu, if_pos hf]⟩
  | case4 cu buf hcu hf value rest hs ih =>
    have hh := (first_iff hpg cu).1 hf
    have hl := (second_iff hpg value).1 hs
    rw [List.map_cons, List.map_cons, decode16_cons_pair hh hl]
    rw [encodeUnits, if_neg hcu, if_pos hf]
    simp only [if_pos hs]
    rw [appendUnicode_pair hpg hh hl] at ih ⊢
    exact ih.cons
  | case5 cu buf hcu hf value rest hs =>
    have hh := (first_iff hpg cu).1 hf
    have hl : ¬ IsLow value.toInt := fun h => hs ((second_iff hpg value).2 h)
    rw [List.map_cons, decode16_cons_eq_none (not_isPlain_of_isHigh hh) (by simp [hl])]
    refine ⟨"Invalid surrogate pair", ?_⟩
    rw [encodeUnits, if_neg hcu, if_pos hf]
    simp only [if_neg hs]
  | case6 cu rest buf hcu hf hs =>
    have hh : ¬ IsHigh cu.toInt := fun h => hf ((first_iff hpg cu).2 h)
    have hl := (second_iff hpg cu).1 hs
    rw [List.map_cons, decode16_cons_eq_none (fun h => h.2.2.2 hl) (fun h => hh h.1)]
    refine ⟨"Unmatched low surrogate", ?_⟩
    rw [encodeUnits.eq_def]
    simp only [if_neg hcu, if_neg hf, if_pos hs]
  | case7 cu rest buf hcu hf hs ih =>
    have hp : IsPlain cu.toInt := ⟨by omega, by omega, fun h => hf ((first_iff hpg cu).2 h),
      fun h => hs ((second_iff hpg cu).2 h)⟩
    rw [List.map_cons, decode16_cons_plain hp]
    rw [encodeUnits.eq_def]
    simp only [if_neg hcu, if_neg hf, if_neg hs]
    rw [appendUnicode_plain hpg hp] at ih ⊢
    exact ih.cons

/-! ## The range that is asked for -/

/-- The units from `start` on, which counts from the end when it is negative. -/
def UnitArray.suffix (arr : UnitArray) (start : Int32) : List ℤ :=
  arr.units.drop (position arr.elems.length start.toInt)

/-- **The range**: `length` units from `start`, or all when `length` is negative, and no more than
    there are. -/
def UnitArray.requested (arr : UnitArray) (start length : Int32) : List ℤ :=
  if length.toInt < 0 then arr.suffix start else (arr.suffix start).take length.toInt.toNat

/-- The start lies in the array or at its end. -/
def UnitArray.InRange (arr : UnitArray) (start : Int32) : Prop :=
  -(arr.elems.length : ℤ) ≤ start.toInt ∧ start.toInt ≤ arr.elems.length

/-- **What the call is for**: the text of the range, an exception if the range is none, and an error
    if there is no such range. -/
structure Faithful (arr : UnitArray) (start length : Int32) (r : Native Varatt) : Prop where
  text : arr.InRange start → ∀ cs, utf16 cs = arr.requested start length →
    ∃ t, r = .returns t ∧ t.data = utf8 cs
  broken : arr.InRange start → ¬ WellFormed (arr.requested start length) → ∃ err, r = .throws err
  outside : ¬ arr.InRange start → ∃ err, r = .raises err

theorem UnitArray.length_elems (arr : UnitArray) : arr.elems.length ≤ 134217728 := by
  have h := arr.fits
  simp only [gcHeapSize] at h; omega

theorem UnitArray.length_suffix (h : arr.InRange start) :
    ((arr.suffix start).length : ℤ) =
      arr.elems.length - position arr.elems.length start.toInt ∧
    position arr.elems.length start.toInt ≤ arr.elems.length := by
  simp only [InRange] at h
  have hp : position arr.elems.length start.toInt ≤ arr.elems.length := by
    rw [position]; split_ifs <;> omega
  rw [suffix, units, List.length_drop, List.length_map]
  exact ⟨by omega, hp⟩

/-- **What the call does**: the length is looked at only to see whether it is 0. -/
theorem fromCharCodeArray_eq (h : arr.InRange start) :
    utf16FromCharCodeArray pg arr start length =
      if arr.requested start length = [] then .returns .empty
      else match encodeUnits pg
          (arr.elems.drop (position arr.elems.length start.toInt)) [] with
        | .ok buf => .ofExcept (cstringIntoVarattObj buf)
        | .error err => .throws err := by
  have hn := arr.length_elems
  have hs := int32_range start
  have hl := int32_range length
  obtain ⟨hsuf, hp⟩ := UnitArray.length_suffix h
  simp only [UnitArray.InRange] at h
  have hstart : (if start.toInt < 0 then asInt32 (asUint32 start.toInt + arr.elems.length)
      else start.toInt) = position arr.elems.length start.toInt := by
    simp only [position, asInt32, asUint32]
    split_ifs <;> omega
  have hempty : arr.requested start length = [] ↔
      (arr.suffix start).length = 0 ∨ length.toInt = 0 := by
    rw [UnitArray.requested, ← List.length_eq_zero_iff]
    split_ifs with hneg
    · exact ⟨.inl, fun h => h.resolve_right (by omega)⟩
    · rw [List.length_take]; omega
  simp only [utf16FromCharCodeArray, hstart, Int.toNat_natCast]
  rw [if_neg (by simp only [asUint32]; omega)]
  refine if_congr ?_ rfl rfl
  rw [hempty]
  simp only [asInt32, asUint32]
  split_ifs <;> omega

theorem fromCharCodeArray_outside (h : ¬ arr.InRange start) :
    ∃ err, utf16FromCharCodeArray pg arr start length = .raises err := by
  have hn := arr.length_elems
  have hs := int32_range start
  simp only [UnitArray.InRange] at h
  refine ⟨"start index out of range", ?_⟩
  simp only [utf16FromCharCodeArray]
  refine if_pos ?_
  simp only [asInt32, asUint32]
  split_ifs <;> omega

/-- The text of the units from `start` on, or an exception. -/
theorem fromCharCodeArray_rule (hpg : pg.Unicode) (h : arr.InRange start)
    (hne : arr.requested start length ≠ []) :
    match decode16 (arr.suffix start) with
    | some cs => ∃ t, utf16FromCharCodeArray pg arr start length = .returns t ∧ t.data = utf8 cs
    | none => ∃ err, utf16FromCharCodeArray pg arr start length = .throws err := by
  have hsuf : arr.suffix start =
      (arr.elems.drop (position arr.elems.length start.toInt)).map Int32.toInt := by
    rw [UnitArray.suffix, UnitArray.units, List.map_drop]
  have henc := encodeUnits_rule hpg (arr.elems.drop (position arr.elems.length start.toInt)) []
  rw [← hsuf] at henc
  rw [fromCharCodeArray_eq h, if_neg hne]
  cases hd : decode16 (arr.suffix start) with
  | none =>
    rw [hd] at henc
    obtain ⟨err, henc⟩ := henc
    exact ⟨err, by rw [henc]⟩
  | some cs =>
    have hlen : (utf8 cs).length ≤ 3 * (utf16 cs).length := length_utf8_le
    rw [decode16_eq_some_iff.1 hd] at hlen
    have hn := arr.length_elems
    have hs := UnitArray.length_suffix h
    rw [hd] at henc
    change encodeUnits pg _ [] = .ok ([] ++ utf8 cs) at henc
    rw [List.nil_append] at henc
    simp only [henc]
    have hfits : (utf8 cs).length ≤ varattMax - varhdrsz := by
      simp only [varattMax, varhdrsz]; omega
    obtain ⟨t, ht, hdata⟩ := cstringIntoVarattObj_rule hfits
    exact ⟨t, by rw [ht]; rfl, hdata⟩

theorem UnitArray.exists_suffix_eq (arr : UnitArray) (start length : Int32) :
    ∃ rest, arr.suffix start = arr.requested start length ++ rest := by
  rw [requested]
  split_ifs
  · exact ⟨[], (List.append_nil _).symm⟩
  · exact ⟨_, (List.take_append_drop _ _).symm⟩

/-- The call does what it is for: there is no such range, or it is empty, or it reaches the end of
    the array, or neither the range nor the units up to the end are a text. -/
def UnitArray.Meets (arr : UnitArray) (start length : Int32) : Prop :=
  ¬ arr.InRange start ∨ arr.requested start length = [] ∨
    arr.requested start length = arr.suffix start ∨
    (¬ WellFormed (arr.requested start length) ∧ ¬ WellFormed (arr.suffix start))

theorem faithful_throws_iff (hin : arr.InRange start) {err : String} :
    Faithful arr start length (.throws err) ↔ ¬ WellFormed (arr.requested start length) := by
  constructor
  · intro h hw
    obtain ⟨cs, hcs⟩ := exists_utf16_iff.2 hw
    obtain ⟨t, ht, -⟩ := h.text hin cs hcs
    cases ht
  · intro h
    exact ⟨fun _ cs hcs => absurd (exists_utf16_iff.1 ⟨cs, hcs⟩) h, fun _ _ => ⟨err, rfl⟩,
      fun hout => absurd hin hout⟩

theorem faithful_returns_iff (hin : arr.InRange start) {t : Varatt} :
    Faithful arr start length (.returns t) ↔
      ∃ cs, utf16 cs = arr.requested start length ∧ t.data = utf8 cs := by
  constructor
  · intro h
    by_cases hw : WellFormed (arr.requested start length)
    · obtain ⟨cs, hcs⟩ := exists_utf16_iff.2 hw
      obtain ⟨t', ht, hdata⟩ := h.text hin cs hcs
      cases ht
      exact ⟨cs, hcs, hdata⟩
    · obtain ⟨err, herr⟩ := h.broken hin hw
      cases herr
  · rintro ⟨cs, hcs, hdata⟩
    refine ⟨fun _ ds hds => ⟨t, rfl, ?_⟩, fun _ hw => ?_, fun hout => absurd hin hout⟩
    · rw [← hcs] at hds
      rw [hdata, utf16_injective hds]
    · exact absurd (exists_utf16_iff.1 ⟨cs, hcs⟩) hw

/-- Once there is something to encode, only the units up to the end matter. -/
theorem faithful_iff_of_ne_nil (hpg : pg.Unicode) (hin : arr.InRange start)
    (hnil : arr.requested start length ≠ []) :
    Faithful arr start length (utf16FromCharCodeArray pg arr start length) ↔
      arr.requested start length = arr.suffix start ∨
        (¬ WellFormed (arr.requested start length) ∧ ¬ WellFormed (arr.suffix start)) := by
  have hrule := fromCharCodeArray_rule hpg hin hnil
  obtain ⟨rest, hrest⟩ := arr.exists_suffix_eq start length
  cases hd : decode16 (arr.suffix start) with
  | none =>
    rw [hd] at hrule
    obtain ⟨err, hr⟩ := hrule
    have hbad := not_wellFormed_iff.2 hd
    rw [hr, faithful_throws_iff hin]
    constructor
    · exact fun h => .inr ⟨h, hbad⟩
    · rintro (h | ⟨h, -⟩)
      · rw [h]; exact hbad
      · exact h
  | some cs =>
    rw [hd] at hrule
    obtain ⟨t, hr, ht⟩ := hrule
    have hcs := decode16_eq_some_iff.1 hd
    rw [hr, faithful_returns_iff hin]
    constructor
    · rintro ⟨ds, hds, hdata⟩
      by_cases hne : rest = []
      · rw [hne, List.append_nil] at hrest
        exact .inl hrest.symm
      · -- a shorter range has fewer bytes than the units up to the end
        have hlt := length_utf8_lt_of_append hds (hcs.trans hrest) hne
        rw [← hdata, ← ht] at hlt
        exact absurd hlt (lt_irrefl _)
    · rintro (h | ⟨-, h⟩)
      · exact ⟨cs, by rw [h, hcs], ht⟩
      · exact absurd (exists_utf16_iff.1 ⟨cs, hcs⟩) h

/-- **The call is right exactly when the length does not matter**: it encodes the units up to the
    end of the array, whatever range is asked for. -/
theorem fromCharCodeArray_faithful_iff (hpg : pg.Unicode) (arr : UnitArray)
    (start length : Int32) :
    Faithful arr start length (utf16FromCharCodeArray pg arr start length) ↔
      arr.Meets start length := by
  by_cases hin : arr.InRange start
  · by_cases hnil : arr.requested start length = []
    · refine iff_of_true ?_ (.inr (.inl hnil))
      rw [fromCharCodeArray_eq hin, if_pos hnil, faithful_returns_iff hin]
      exact ⟨[], hnil.symm, rfl⟩
    · rw [faithful_iff_of_ne_nil hpg hin hnil, UnitArray.Meets]
      simp only [hin, hnil, not_true_eq_false, false_or]
  · refine iff_of_true ⟨fun h => absurd h hin, fun h => absurd h hin, fun _ => ?_⟩ (.inl hin)
    exact fromCharCodeArray_outside hin

/-- An A and both halves of a face. -/
def faceUnits : UnitArray := ⟨[0x41, 0xD83D, 0xDE00], by decide⟩

/-- The A alone is asked for, and the face comes with it. -/
theorem faceUnits_first : ¬ Faithful faceUnits 0 1
    (utf16FromCharCodeArray utf8Server faceUnits 0 1) := by
  rw [faithful_iff_of_ne_nil utf8Server_unicode ⟨by decide, by decide⟩ (by decide)]
  rintro (h | ⟨h, -⟩)
  · exact absurd h (by decide)
  · exact h (exists_utf16_iff.1 ⟨[Char.ofNat 0x41], by decide⟩)

theorem faceUnits_last_two : Faithful faceUnits (-2) 2
    (utf16FromCharCodeArray utf8Server faceUnits (-2) 2) :=
  (fromCharCodeArray_faithful_iff utf8Server_unicode faceUnits (-2) 2).2
    (.inr (.inr (.inl (by decide))))

/-! ## There and back -/

theorem UnitArray.whole (arr : UnitArray) :
    arr.InRange 0 ∧ arr.requested 0 (-1) = arr.units ∧ arr.suffix 0 = arr.units := by
  refine ⟨⟨?_, ?_⟩, rfl, rfl⟩
  · show -(arr.elems.length : ℤ) ≤ 0
    omega
  · exact Int.natCast_nonneg _

/-- **A whole array**: its text, or an exception if it is none. -/
theorem fromCharCodeArray_whole (hpg : pg.Unicode) (arr : UnitArray) :
    match decode16 arr.units with
    | some cs => ∃ t, utf16FromCharCodeArray pg arr 0 (-1) = .returns t ∧ t.data = utf8 cs
    | none => ∃ err, utf16FromCharCodeArray pg arr 0 (-1) = .throws err := by
  obtain ⟨hin, hreq, hsuf⟩ := arr.whole
  by_cases hnil : arr.units = []
  · rw [hnil]
    refine ⟨.empty, ?_, rfl⟩
    rw [fromCharCodeArray_eq hin, if_pos (hreq.trans hnil)]
  · have h := fromCharCodeArray_rule hpg hin (by rw [hreq]; exact hnil)
    rwa [hsuf] at h

/-- **Round trip**: exactly the well-formed arrays become texts, and the text has the units of the
    array. -/
theorem utf16_round_trip (hpg : pg.Utf8) (arr : UnitArray) :
    ((∃ t, utf16FromCharCodeArray pg arr 0 (-1) = .returns t) ↔ WellFormed arr.units) ∧
      ∀ t, utf16FromCharCodeArray pg arr 0 (-1) = .returns t →
        utf16Length pg t = arr.elems.length ∧
        ∀ i : Int32, ∀ u, 0 ≤ i.toInt → arr.units[i.toInt.toNat]? = some u →
          utf16CharCodeAt pg t i = .returns u := by
  have hrule := fromCharCodeArray_whole hpg.toUnicode arr
  cases hd : decode16 arr.units with
  | none =>
    rw [hd] at hrule
    obtain ⟨err, hr⟩ := hrule
    refine ⟨⟨?_, fun hw => absurd hw (not_wellFormed_iff.2 hd)⟩, ?_⟩
    · rintro ⟨t, ht⟩
      rw [hr] at ht; cases ht
    · intro t ht
      rw [hr] at ht; cases ht
  | some cs =>
    rw [hd] at hrule
    obtain ⟨t, hr, hdata⟩ := hrule
    have hcs := decode16_eq_some_iff.1 hd
    refine ⟨⟨fun _ => exists_utf16_iff.1 ⟨cs, hcs⟩, fun _ => ⟨t, hr⟩⟩, fun t' ht' => ?_⟩
    obtain rfl : t = t' := by
      rw [hr] at ht'
      exact Native.returns.inj ht'
    refine ⟨?_, fun i u hi hu => ?_⟩
    · rw [utf16Length_utf8 hpg hdata, hcs, UnitArray.units, List.length_map]
    · have hlt := (List.getElem?_eq_some_iff.1 hu).1
      rw [← hcs] at hu hlt
      obtain ⟨v, hv, hat⟩ := utf16CharCodeAt_utf8 hpg hdata (show _ ≤ i.toInt by omega) (by omega)
      rw [position, if_neg (by omega), hu] at hv
      rw [hat, Option.some.inj hv]

theorem faceUnits_round_trip : ∃ t, utf16FromCharCodeArray utf8Server faceUnits 0 (-1) =
    .returns t ∧ utf16Length utf8Server t = 3 ∧
    utf16CharCodeAt utf8Server t 2 = .returns 0xDE00 := by
  obtain ⟨hiff, hall⟩ := utf16_round_trip utf8Server_utf8 faceUnits
  obtain ⟨t, ht⟩ := hiff.2
    (exists_utf16_iff.1 ⟨[Char.ofNat 0x41, Char.ofNat 0x1F600], by decide⟩)
  obtain ⟨hlen, hat⟩ := hall t ht
  exact ⟨t, ht, hlen, hat 2 0xDE00 (by decide) (by decide)⟩

end Rustica
