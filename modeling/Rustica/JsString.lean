/-
  The strings of the guest (`wasm:js-string`).

  A string of JavaScript is a list of UTF-16 units; the natives of this name keep UTF-8 text.  The
  guest cannot tell the two apart, whatever calls it makes (`jsString_refines`), except that there
  is no text for a half of a surrogate pair, that a text has a largest size, and that
  `fromCharCodeArray` takes more of its array than it is asked for.
-/
import Rustica.Embedded
import Rustica.Lib.Server
import Rustica.Validity

namespace Rustica.JsString

open Utf Server

/-! ## The natives -/

/-- `rst_texteq`. -/
def rstTexteq (x y : Varatt) : Int32 := if x.data = y.data then 1 else 0

theorem length_textcat {x y : Varatt}
    (h : ¬ x.data.length + y.data.length + varhdrsz > maxAllocSize) :
    (x.data ++ y.data).length ≤ if false then varattShortMax - varhdrszShort
      else varattMax - varhdrsz := by
  rw [List.length_append]
  simp only [Bool.false_eq_true, if_false, maxAllocSize, varattMax, varhdrsz] at h ⊢
  omega

/-- `rst_textcat`, with `text_catenate`. -/
def rstTextcat (x y : Varatt) : Native Varatt :=
  if h : x.data.length + y.data.length + varhdrsz > maxAllocSize then
    .raises "invalid memory alloc request size"
  else .returns ⟨false, x.data ++ y.data, length_textcat h⟩

/-! ## Sessions -/

/-- A call, or the use of a literal.  Strings are given by their number; an array may be any that
    the guest has made. -/
inductive Request where
  | literal (cs : List Char)
  | length (s : ℕ)
  | charCodeAt (s : ℕ) (index : Int32)
  | fromCharCodeArray (arr : UnitArray) (start length : Int32)
  | equals (s t : ℕ)
  | concat (s t : ℕ)
  | fromCodePoint (codePoint : Int32)

/-- What the guest sees of a call.  A new string is a reference; an error or an exception ends the
    session. -/
inductive Answer where
  | int (v : ℤ)
  | string
  | fails
deriving DecidableEq

variable (pg : PgWchar)

/-- The end of a native that makes a text. -/
def made (ts : List Varatt) : Native Varatt → Answer × Option (List Varatt)
  | .returns t => (.string, some (ts ++ [t]))
  | _ => (.fails, none)

/-- The end of a native that returns a number. -/
def got (ts : List Varatt) : Native ℤ → Answer × Option (List Varatt)
  | .returns v => (.int v, some ts)
  | _ => (.fails, none)

/-- The text with the number `s`. -/
def text (ts : List Varatt) (s : ℕ) : Varatt := ts.getD s .empty

/-- `wasm_js_string_natives`, and the resolver of `env:text`. -/
def natives : Machine (List Varatt) Request Answer where
  call ts
    | .literal cs => made ts (globalTextResolver (utf8 cs))
    | .length s => got ts (.returns (utf16Length pg (text ts s)))
    | .charCodeAt s index => got ts (utf16CharCodeAt pg (text ts s) index)
    | .fromCharCodeArray arr start length => made ts (utf16FromCharCodeArray pg arr start length)
    | .equals s t => got ts (.returns (rstTexteq (text ts s) (text ts t)).toInt)
    | .concat s t => made ts (rstTextcat (text ts s) (text ts t))
    | .fromCodePoint codePoint => made ts (utf16FromCodePoint pg codePoint)

/-! ## Strings of JavaScript -/

instance (arr : UnitArray) (start : Int32) : Decidable (arr.InRange start) :=
  inferInstanceAs (Decidable (_ ∧ _))

/-- The string with the number `s`. -/
def string (us : List (List ℤ)) (s : ℕ) : List ℤ := us.getD s []

/-- The units of a code point. -/
def codePointUnits (cp : ℤ) : List ℤ :=
  if cp < 0x10000 then [cp] else [0xD800 + (cp - 0x10000) / 0x400, 0xDC00 + (cp - 0x10000) % 0x400]

/-- A new string. -/
def new (us : List (List ℤ)) (u : List ℤ) : Answer × Option (List (List ℤ)) :=
  (.string, some (us ++ [u]))

/-- **What the calls are for**, on lists of units.  A negative index counts from the end, a negative
    length asks for all the rest, and halves of pairs are refused. -/
def strings : Machine (List (List ℤ)) Request Answer where
  call us
    | .literal cs => new us (utf16 cs)
    | .length s => (.int (string us s).length, some us)
    | .charCodeAt s index =>
      let n := (string us s).length
      if -(n : ℤ) ≤ index.toInt ∧ index.toInt < n then
        (.int ((string us s).getD (position n index.toInt) 0), some us)
      else (.fails, none)
    | .fromCharCodeArray arr start length =>
      if arr.InRange start ∧ (decode16 (arr.requested start length)).isSome then
        new us (arr.requested start length)
      else (.fails, none)
    | .equals s t => (.int (if string us s = string us t then 1 else 0), some us)
    | .concat s t => new us (string us s ++ string us t)
    | .fromCodePoint codePoint =>
      if 0 ≤ codePoint.toInt ∧ codePoint.toInt ≤ 0x10FFFF then new us (codePointUnits codePoint.toInt)
      else (.fails, none)

/-- The number of bytes of the text with the units. -/
def byteLength (u : List ℤ) : ℕ := ((decode16 u).elim [] utf8).length

/-- The guard: a text of the size of the new string can be made, the range of an array is one that
    `fromCharCodeArray` gets right, and a code point is no half of a pair. -/
def Ordinary (us : List (List ℤ)) : Request → Prop
  | .literal cs => (utf8 cs).length ≤ varattMax - varhdrsz
  | .fromCharCodeArray arr start length => arr.Meets start length
  | .concat s t => byteLength (string us s) + byteLength (string us t) ≤ varattMax - varhdrsz
  | .fromCodePoint codePoint => ¬ (0xD800 ≤ codePoint.toInt ∧ codePoint.toInt ≤ 0xDFFF)
  | _ => True

/-! ## One call -/

/-- The text has the units of the string. -/
def Shows (t : Varatt) (u : List ℤ) : Prop := ∃ cs, t.data = utf8 cs ∧ u = utf16 cs

variable {pg : PgWchar} {ts : List Varatt} {us : List (List ℤ)} {t x y : Varatt} {u v : List ℤ}
  {cs : List Char} {cp : Int32}

theorem Shows.byteLength (h : Shows t u) : byteLength u = t.data.length := by
  obtain ⟨cs, hdata, rfl⟩ := h
  rw [JsString.byteLength, decode16_utf16, hdata]
  rfl

theorem shows_empty : Shows .empty [] := ⟨[], rfl, rfl⟩

theorem shows_text (h : List.Forall₂ Shows ts us) (s : ℕ) : Shows (text ts s) (string us s) := by
  induction h generalizing s with
  | nil => exact shows_empty
  | cons ht _ ih =>
    cases s with
    | zero => exact ht
    | succ s => exact ih s

/-- The units tell texts apart. -/
theorem Shows.eq_iff (hx : Shows x u) (hy : Shows y v) : x.data = y.data ↔ u = v := by
  obtain ⟨cs, hcs, rfl⟩ := hx
  obtain ⟨ds, hds, rfl⟩ := hy
  rw [hcs, hds, utf8_injective.eq_iff, utf16_injective.eq_iff]

theorem Shows.append (hx : Shows x u) (hy : Shows y v) (ht : t.data = x.data ++ y.data) :
    Shows t (u ++ v) := by
  obtain ⟨cs, hcs, rfl⟩ := hx
  obtain ⟨ds, hds, rfl⟩ := hy
  exact ⟨cs ++ ds, by rw [ht, hcs, hds, utf8_append], List.flatMap_append.symm⟩

/-- A new string on both sides. -/
theorem alike_new (h : List.Forall₂ Shows ts us) (ht : Shows t u) :
    Alike (List.Forall₂ Shows) (made ts (.returns t)) (new us u) :=
  ⟨rfl, .some (List.rel_append h (.cons ht .nil))⟩

theorem alike_fails {r : Native Varatt} (hr : ∀ t, r ≠ .returns t) :
    Alike (List.Forall₂ Shows) (made ts r) (.fails, none) := by
  cases r with
  | returns t => exact absurd rfl (hr t)
  | _ => exact ⟨rfl, .none⟩

/-- The same number on both sides. -/
theorem alike_int (h : List.Forall₂ Shows ts us) {a b : ℤ} (hab : a = b) :
    Alike (List.Forall₂ Shows) (got ts (.returns a)) (.int b, some us) :=
  ⟨by rw [hab]; rfl, .some h⟩

theorem alike_length (hpg : pg.Utf8) (h : List.Forall₂ Shows ts us) (s : ℕ) :
    Alike (List.Forall₂ Shows) ((natives pg).call ts (.length s)) (strings.call us (.length s)) := by
  obtain ⟨cs, hdata, hu⟩ := shows_text h s
  refine alike_int h ?_
  rw [utf16Length_utf8 hpg hdata, hu]

theorem alike_charCodeAt (hpg : pg.Utf8) (h : List.Forall₂ Shows ts us) (s : ℕ) (index : Int32) :
    Alike (List.Forall₂ Shows) ((natives pg).call ts (.charCodeAt s index))
      (strings.call us (.charCodeAt s index)) := by
  obtain ⟨cs, hdata, hu⟩ := shows_text h s
  show Alike _ (got ts (utf16CharCodeAt pg (text ts s) index)) (if _ then _ else _)
  rw [hu]
  split_ifs with hin
  · obtain ⟨u, hget, hret⟩ := utf16CharCodeAt_utf8 hpg hdata hin.1 hin.2
    rw [hret]
    refine alike_int h ?_
    rw [List.getD_eq_getElem?_getD, hget, Option.getD_some]
  · rw [utf16CharCodeAt_eq hpg hdata, if_neg hin]
    exact ⟨rfl, .none⟩

theorem alike_equals (h : List.Forall₂ Shows ts us) (s t : ℕ) :
    Alike (List.Forall₂ Shows) ((natives pg).call ts (.equals s t))
      (strings.call us (.equals s t)) := by
  have hiff := (shows_text h s).eq_iff (shows_text h t)
  refine alike_int h ?_
  by_cases heq : string us s = string us t
  · rw [rstTexteq, if_pos (hiff.2 heq), if_pos heq]
    rfl
  · rw [rstTexteq, if_neg (mt hiff.1 heq), if_neg heq]
    rfl

theorem alike_concat (h : List.Forall₂ Shows ts us) {s t : ℕ} (hC : Ordinary us (.concat s t)) :
    Alike (List.Forall₂ Shows) ((natives pg).call ts (.concat s t))
      (strings.call us (.concat s t)) := by
  have hs := shows_text h s
  have ht := shows_text h t
  have hroom : ¬ (text ts s).data.length + (text ts t).data.length + varhdrsz > maxAllocSize := by
    rw [Ordinary, hs.byteLength, ht.byteLength] at hC
    simp only [varattMax, varhdrsz, maxAllocSize] at hC ⊢
    omega
  show Alike _ (made ts (rstTextcat (text ts s) (text ts t))) _
  rw [rstTextcat, dif_neg hroom]
  exact alike_new h (hs.append ht rfl)

theorem alike_literal (h : List.Forall₂ Shows ts us) (hC : Ordinary us (.literal cs)) :
    Alike (List.Forall₂ Shows) ((natives pg).call ts (.literal cs))
      (strings.call us (.literal cs)) := by
  obtain ⟨t, ht, hdata⟩ := cstringIntoVarattObj_rule hC
  have hret : globalTextResolver (utf8 cs) = .returns t := by
    rw [globalTextResolver, if_neg (not_lt_of_ge hC), ht]
    rfl
  show Alike _ (made ts (globalTextResolver (utf8 cs))) _
  rw [hret]
  exact alike_new h ⟨cs, hdata, rfl⟩

theorem alike_fromCharCodeArray (hpg : pg.Unicode) (h : List.Forall₂ Shows ts us) {arr : UnitArray}
    {start length : Int32} (hC : arr.Meets start length) :
    Alike (List.Forall₂ Shows) ((natives pg).call ts (.fromCharCodeArray arr start length))
      (strings.call us (.fromCharCodeArray arr start length)) := by
  show Alike _ (made ts (utf16FromCharCodeArray pg arr start length)) (if _ then _ else _)
  by_cases hin : arr.InRange start
  · by_cases hnil : arr.requested start length = []
    · rw [fromCharCodeArray_eq hin, if_pos hnil, hnil, if_pos ⟨hin, rfl⟩]
      exact alike_new h shows_empty
    · have hrule := fromCharCodeArray_rule hpg hin hnil
      -- the units up to the end are those of the range, or neither of them is a text
      rcases (hC.resolve_left (not_not.2 hin)).resolve_left hnil with heq | ⟨hbad, hrest⟩
      · rw [← heq] at hrule
        cases hd : decode16 (arr.requested start length) with
        | none =>
          rw [hd] at hrule
          obtain ⟨err, hthrows⟩ := hrule
          rw [hthrows, if_neg fun hsome => Bool.false_ne_true hsome.2]
          exact ⟨rfl, .none⟩
        | some cs =>
          rw [hd] at hrule
          obtain ⟨t, hret, hdata⟩ := hrule
          rw [hret, if_pos ⟨hin, rfl⟩]
          exact alike_new h ⟨cs, hdata, (decode16_eq_some_iff.1 hd).symm⟩
      · rw [not_wellFormed_iff] at hbad hrest
        rw [hrest] at hrule
        obtain ⟨err, hthrows⟩ := hrule
        rw [hthrows, hbad, if_neg fun hsome => Bool.false_ne_true hsome.2]
        exact ⟨rfl, .none⟩
  · obtain ⟨err, hraises⟩ : ∃ err, utf16FromCharCodeArray pg arr start length = .raises err :=
      fromCharCodeArray_outside hin
    rw [hraises, if_neg fun hr => hin hr.1]
    exact ⟨rfl, .none⟩

/-! ### Code points -/

theorem codePointUnits_toNat (c : Char) : codePointUnits c.toNat = units c := by
  simp only [codePointUnits, units]
  split_ifs <;> first | rfl | omega

/-- A character is converted as it is. -/
theorem unicodeToServer_val (hpg : pg.Unicode) {c : Char} (h0 : c.toNat ≠ 0) :
    pg.unicodeToServer c.val = .ok (String.utf8EncodeChar c) := by
  have hmax := toNat_cases (c := c)
  have hbytes : (pg.unicodeToUtf8 c.val).take (pg.unicodeUtf8len c.val) =
      String.utf8EncodeChar c := by
    rw [hpg.utf8, hpg.utf8len, ← String.length_utf8EncodeChar, List.take_length]
  rw [PgWchar.unicodeToServer, hbytes, if_neg]
  · split_ifs with hsmall
    · simp only [UInt32.le_iff_toNat_le, Char.toNat_val, UInt32.reduceToNat] at hsmall
      simp only [String.utf8EncodeChar, Char.toNat_val, if_pos hsmall]
      congr 2
    · rfl
  · simp only [UInt32.le_iff_toNat_le, UInt32.lt_iff_toNat_lt, UInt32.reduceToNat, Char.toNat_val,
      not_not]
    omega

theorem fromCodePoint_returns (hpg : pg.Unicode) {c : Char} (hc : cp.toUInt32 = c.val) :
    ∃ t, utf16FromCodePoint pg cp = .returns t ∧ t.data = utf8 [c] := by
  have hcp : cp = 0 ↔ c.toNat = 0 := by
    have hr := int32_range cp
    have hu := toNat_toUInt32 cp
    rw [hc, Char.toNat_val, asUint32] at hu
    rw [← Int32.toInt_inj, Int32.toInt_zero]
    omega
  rw [utf16FromCodePoint]
  by_cases h0 : cp = 0
  · have hnul : c = nul := by rw [← ofNat_toNat (c := c), hcp.1 h0]; rfl
    exact ⟨_, if_pos h0, by rw [hnul]; rfl⟩
  · have hbytes : untilNul (String.utf8EncodeChar c) = String.utf8EncodeChar c :=
      List.takeWhile_eq_self_iff.2 fun b hb =>
        decide_eq_true (ne_zero_of_mem_encodeChar (fun h => h0 (hcp.2 h)) hb)
    have hfits : (String.utf8EncodeChar c).length ≤ varattMax - varhdrsz := by
      have h4 := c.utf8Size_le_four
      rw [String.length_utf8EncodeChar]
      simp only [varattMax, varhdrsz]
      omega
    obtain ⟨t, ht, hdata⟩ := cstringIntoVarattObj_rule hfits
    refine ⟨t, ?_, by rw [hdata, utf8_cons, utf8_nil, List.append_nil]⟩
    rw [if_neg h0, hc, unicodeToServer_val hpg fun h => h0 (hcp.2 h)]
    simp only [hbytes, ht]
    rfl

theorem alike_fromCodePoint (hpg : pg.Unicode) (h : List.Forall₂ Shows ts us)
    (hC : Ordinary us (.fromCodePoint cp)) :
    Alike (List.Forall₂ Shows) ((natives pg).call ts (.fromCodePoint cp))
      (strings.call us (.fromCodePoint cp)) := by
  have hr := int32_range cp
  have hu := toNat_toUInt32 cp
  rw [asUint32] at hu
  show Alike _ (made ts (utf16FromCodePoint pg cp)) (if _ then _ else _)
  split_ifs with hin
  · rw [Ordinary] at hC
    obtain ⟨c, hc⟩ := toNat_of_uint32 (u := cp.toUInt32) (by omega) (by omega)
    obtain ⟨t, hret, hdata⟩ := fromCodePoint_returns hpg hc.symm
    have hval : cp.toInt = c.toNat := by
      rw [← Char.toNat_val, hc]
      omega
    rw [hret, hval, codePointUnits_toNat]
    exact alike_new h ⟨[c], hdata, by rw [utf16_cons, utf16_nil, List.append_nil]⟩
  · have hbad : pg.unicodeToServer cp.toUInt32 = .error "invalid Unicode code point" := by
      rw [PgWchar.unicodeToServer, if_pos]
      simp only [UInt32.le_iff_toNat_le, UInt32.lt_iff_toNat_lt, UInt32.reduceToNat]
      omega
    have h0 : cp ≠ 0 := by
      rintro rfl
      exact hin ⟨by decide, by decide⟩
    rw [utf16FromCodePoint, if_neg h0, hbad]
    exact ⟨rfl, .none⟩

/-! ## Sessions -/

/-- **Every call** within the guard. -/
theorem natives_follow (hpg : pg.Utf8) :
    Follows (natives pg) strings (List.Forall₂ Shows) Ordinary := by
  intro ts us r h hC
  cases r with
  | literal cs => exact alike_literal h hC
  | length s => exact alike_length hpg h s
  | charCodeAt s index => exact alike_charCodeAt hpg h s index
  | fromCharCodeArray arr start length => exact alike_fromCharCodeArray hpg.toUnicode h hC
  | equals s t => exact alike_equals h s t
  | concat s t => exact alike_concat h hC
  | fromCodePoint codePoint => exact alike_fromCodePoint hpg.toUnicode h hC

/-- **Strings of JavaScript**: a session within the guard gets the answers that lists of units
    give. -/
theorem jsString_refines (hpg : pg.Utf8) (rs : List Request) (hC : strings.Within Ordinary [] rs) :
    (natives pg).answers [] rs = strings.answers [] rs :=
  (natives_follow hpg).answers_eq .nil hC

/-- A pair of surrogates, made as a code point and found again unit by unit. -/
theorem jsString_face : (natives utf8Server).answers [] [.fromCodePoint 0x1F600, .concat 0 0,
    .length 1, .charCodeAt 1 2, .equals 0 1, .charCodeAt 1 4] =
    [.string, .string, .int 4, .int 0xD83D, .int 0, .fails] := by
  rw [jsString_refines utf8Server_utf8 _ (by simp [Machine.Within, Ordinary]; decide)]
  decide

end Rustica.JsString
