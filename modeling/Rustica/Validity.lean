/-
  Whether the texts of the guest are texts.

  A text goes into the database as it is, so whatever a native hands out as a text has to be
  well-formed.  Some natives build it from characters, or convert and thereby check it.  The string
  builder takes raw bytes and code points, and copies them out unchecked; a single code point may be
  a surrogate.  All texts of a run are well-formed exactly as long as no builder is copied out that
  is not, and no surrogate is made a text (`texts_valid_iff`); the first is so if all that is
  written to builders is well-formed piece by piece (`valid_of_pieces`).
-/
import Rustica.Lib.Exec
import Rustica.Sandbox
import Rustica.Text

namespace Rustica

open Utf Exec

/-! ## The natives -/

variable (pg : PgWchar)

/-- `pg_mbcharcliplen`: the bytes of the first `limit` characters, or of those before a NUL. -/
def PgWchar.mbcharcliplen (limit : ℤ) : List UInt8 → ℕ
  | [] => 0
  | b :: s =>
    if b = 0 ∨ limit < 1 then 0
    else
      let l := (pg.charLen (b :: s)).toNat
      l + mbcharcliplen (limit - 1) ((b :: s).drop l)
termination_by s => s.length
decreasing_by
  have := pg.charLen_pos (b :: s)
  rw [List.length_drop, List.length_cons]; omega

/-- `pg_unicode_to_server`, of a UTF-8 server. -/
def PgWchar.unicodeToServer (c : UInt32) : Except String (List UInt8) :=
  if ¬ (0 < c ∧ c ≤ 0x10FFFF) then .error "invalid Unicode code point"
  else if c ≤ 0x7F then .ok [c.toUInt8]
  else .ok ((pg.unicodeToUtf8 c).take (pg.unicodeUtf8len c))

/-- `strlen`, and the bytes before it. -/
def untilNul (s : List UInt8) : List UInt8 := s.takeWhile (· ≠ 0)

/-- `appendBinaryStringInfoNT`, and what `sb_ensure_string_info` checks before. -/
def sbAppend (sb : StringInfo) (needed : ℤ) (bytes : Except String (List UInt8)) :
    Native StringInfo :=
  if sb.maxlen = 0 then .raises "StringInfo is read-only"
  else
    match enlargeStringInfo sb needed with
    | some err => .raises err
    | none =>
      match bytes with
      | .error err => .raises err
      | .ok bytes => .returns { sb with data := sb.data ++ bytes }

def sbNew (sizeHint : Int32) : StringInfo :=
  ⟨[], if sizeHint.toInt < 1 then 1 else sizeHint.toInt⟩

/-- `sb_read_text`. -/
def sbReadText (t : List UInt8) : StringInfo := ⟨t, 0⟩

def sbWriteString (sb : StringInfo) (t : List UInt8) : Native StringInfo :=
  sbAppend sb t.length (.ok t)

/-- `n` bytes from a pointer on: those of the string, and then whatever lies behind it. -/
def bytesAt (s : List UInt8) (behind : ℕ → UInt8) (n : ℕ) : List UInt8 :=
  s.take n ++ (List.range (n - s.length)).map behind

def sbWriteSubstring (sb : StringInfo) (t : List UInt8) (behind : ℕ → UInt8)
    (start len : Int32) : Native StringInfo :=
  let clip := t.drop (pg.mbcharcliplen start.toInt t)
  let n := pg.mbcharcliplen len.toInt clip
  sbAppend sb n (.ok (bytesAt clip behind n))

/-- `MAX_UNICODE_EQUIVALENT_STRING`. -/
def maxUnicodeEquivalentString : ℤ := 16

def sbWriteChar (sb : StringInfo) (ch : Int32) : Native StringInfo :=
  sbAppend sb maxUnicodeEquivalentString ((pg.unicodeToServer ch.toUInt32).map untilNul)

def sbWriteByte (sb : StringInfo) (byte : Int32) : Native StringInfo :=
  sbAppend sb 1 (.ok [byte.toUInt32.toUInt8])

def sbToString (sb : StringInfo) : Native Varatt :=
  if sb.maxlen = 0 then .raises "StringInfo is read-only"
  else .ofExcept (cstringIntoVarattObj sb.data)

def utf16FromCodePoint (codePoint : Int32) : Native Varatt :=
  if codePoint = 0 then .returns ⟨true, [0], by decide⟩
  else
    match pg.unicodeToServer codePoint.toUInt32 with
    | .error err => .raises err
    | .ok buf => .ofExcept (cstringIntoVarattObj (untilNul buf))

/-- `global_text_resolver`, for a name that WAMR has checked to be in UTF-8. -/
def globalTextResolver (utf8str : List UInt8) : Native Varatt :=
  if utf8str.length > varattMax - varhdrsz then .raises "global text too long"
  else .ofExcept (cstringIntoVarattObj utf8str)

/-! ## Sequences of calls -/

/-- The texts that natives have returned, and the string builders. -/
structure TextHeap where
  texts : List (List UInt8)
  builders : List StringInfo

/-- A call of the guest.  Texts and builders are given by their number; bytes and arrays may be any
    that the guest has made, and any bytes may lie behind a text in memory. -/
inductive TextCall where
  | globalText (name : List Char)
  | sbNew (sizeHint : Int32)
  | sbReadText (t : ℕ)
  | sbWriteString (sb t : ℕ)
  | sbWriteSubstring (sb t : ℕ) (behind : ℕ → UInt8) (start len : Int32)
  | sbWriteChar (sb : ℕ) (ch : Int32)
  | sbWriteBytes (sb : ℕ) (bytes : Buffer) (start len : Int32)
  | sbWriteByte (sb : ℕ) (byte : Int32)
  | sbToString (sb : ℕ)
  | fromCharCodeArray (arr : UnitArray) (start length : Int32)
  | fromCodePoint (codePoint : Int32)
  | bytesDecode (bytes : Buffer) (start length : Int32) (encoding : ℕ)

/-- A text that a native returns. -/
def TextHeap.addText (st : TextHeap) : Native Varatt → TextHeap
  | .returns t => { st with texts := st.texts ++ [t.data] }
  | _ => st

/-- A write to the builder `i`. -/
def TextHeap.write (st : TextHeap) (i : ℕ) (f : StringInfo → Native StringInfo) : TextHeap :=
  match st.builders[i]?.map f with
  | some (.returns sb) => { st with builders := st.builders.set i sb }
  | _ => st

/-- The text with the number `t`. -/
def TextHeap.text (st : TextHeap) (t : ℕ) : List UInt8 := st.texts.getD t []

variable (pge : PgEncoding)

/-- One call, and the state after it: a call that raises changes nothing. -/
def TextHeap.call (st : TextHeap) : TextCall → TextHeap
  | .globalText name => st.addText (globalTextResolver (utf8 name))
  | .sbNew sizeHint => { st with builders := st.builders ++ [Rustica.sbNew sizeHint] }
  | .sbReadText t => { st with builders := st.builders ++ [Rustica.sbReadText (st.text t)] }
  | .sbWriteString i t => st.write i (Rustica.sbWriteString · (st.text t))
  | .sbWriteSubstring i t behind start len =>
    st.write i (Rustica.sbWriteSubstring pg · (st.text t) behind start len)
  | .sbWriteChar i ch => st.write i (Rustica.sbWriteChar pg · ch)
  | .sbWriteBytes i bytes start len => st.write i fun sb =>
    match (Rustica.sbWriteBytes sb bytes start len).result with
    | .returns data => .returns { sb with data := data }
    | .throws err => .throws err
    | .raises err => .raises err
    | .overruns => .overruns
  | .sbWriteByte i byte => st.write i (Rustica.sbWriteByte · byte)
  | .sbToString i =>
    match st.builders[i]? with
    | some sb => st.addText (Rustica.sbToString sb)
    | none => st
  | .fromCharCodeArray arr start length =>
    st.addText (utf16FromCharCodeArray pg arr start length)
  | .fromCodePoint codePoint => st.addText (utf16FromCodePoint pg codePoint)
  | .bytesDecode bytes start length encoding =>
    st.addText (Rustica.bytesDecode pge (st.text encoding) bytes start length).result

/-- The calls of a guest as steps. -/
def TextStep (st : TextHeap) (c : TextCall) (st' : TextHeap) : Prop := st' = st.call pg pge c

/-! ## The texts -/

/-- **Every text that a native has returned is well-formed.** -/
def TextsValid (st : TextHeap) : Prop := ∀ t ∈ st.texts, IsUtf8 t

/-- The call does not make a text of a surrogate, nor of a builder whose bytes are none, unless that
    is read-only or too long. -/
def TextCall.Meets (st : TextHeap) : TextCall → Prop
  | .sbToString i => ∀ sb ∈ st.builders[i]?, sb.maxlen ≠ 0 →
      sb.data.length ≤ varattMax - varhdrsz → IsUtf8 sb.data
  | .fromCodePoint codePoint => ¬ (0xD800 ≤ codePoint.toInt ∧ codePoint.toInt ≤ 0xDFFF)
  | _ => True

/-- What is assumed of a UTF-8 server: its conversions also check, and a surrogate has bytes that
    are no text. -/
structure Validates (pg : PgWchar) (pge : PgEncoding) : Prop where
  wchar : pg.Utf8
  surrogate : ∀ u : UInt32, 0xD800 ≤ u.toNat → u.toNat ≤ 0xDFFF → pg.unicodeUtf8len u = 3 ∧
    ¬ IsUtf8 (untilNul ((pg.unicodeToUtf8 u).take 3))
  same : ∀ b enc, pge.convert b enc = .ok none → IsUtf8 b
  other : ∀ b enc s, pge.convert b enc = .ok (some s) → IsUtf8 (untilNul s)

variable {pg : PgWchar} {pge : PgEncoding} {st st' : TextHeap} {r : Native Varatt}
  {bs : List UInt8} {t : Varatt} {buf : Buffer}

theorem data_of_ofExcept (h : Native.ofExcept (cstringIntoVarattObj bs) = .returns t) :
    t.data = bs := by
  cases hc : cstringIntoVarattObj bs with
  | error err => rw [hc] at h; cases h
  | ok t' =>
    rw [hc] at h
    cases h
    exact data_of_cstringIntoVarattObj hc

theorem TextsValid.addText (h : TextsValid st) (hr : ∀ t, r = .returns t → IsUtf8 t.data) :
    TextsValid (st.addText r) := by
  cases r with
  | returns t =>
    intro bs hbs
    rcases List.mem_append.1 hbs with hbs | hbs
    · exact h bs hbs
    · rw [List.mem_singleton.1 hbs]
      exact hr t rfl
  | throws err => exact h
  | raises err => exact h
  | overruns => exact h

theorem texts_write (st : TextHeap) (i : ℕ) (f : StringInfo → Native StringInfo) :
    (st.write i f).texts = st.texts := by
  rw [TextHeap.write]
  split
  · rfl
  · rfl

/-! ### Texts from characters -/

theorem isUtf8_fromCharCodeArray (hpg : pg.Unicode) {arr : UnitArray} {start length : Int32}
    (h : utf16FromCharCodeArray pg arr start length = .returns t) : IsUtf8 t.data := by
  by_cases hin : arr.InRange start
  · by_cases hnil : arr.requested start length = []
    · rw [fromCharCodeArray_eq hin, if_pos hnil] at h
      cases h
      exact isUtf8_nil
    · have hrule := fromCharCodeArray_rule hpg hin hnil
      cases hd : decode16 (arr.suffix start) with
      | none =>
        rw [hd] at hrule
        obtain ⟨err, hr⟩ := hrule
        rw [hr] at h; cases h
      | some cs =>
        rw [hd] at hrule
        obtain ⟨t', hr, hdata⟩ := hrule
        rw [hr] at h
        cases h
        exact ⟨cs, hdata.symm⟩
  · have hout : ∃ err, utf16FromCharCodeArray pg arr start length = .raises err :=
      fromCharCodeArray_outside hin
    obtain ⟨err, hr⟩ := hout
    rw [hr] at h; cases h

theorem toNat_of_uint32 {u : UInt32} (h : ¬ (0xD800 ≤ u.toNat ∧ u.toNat ≤ 0xDFFF))
    (hmax : u.toNat ≤ 0x10FFFF) : ∃ c : Char, c.val = u := by
  refine ⟨Char.ofNat u.toNat, ?_⟩
  have hc : (Char.ofNat u.toNat).toNat = u.toNat :=
    toNat_ofNat (by simp only [Nat.isValidChar]; omega)
  exact UInt32.toNat_inj.1 hc

/-- **A code point that is no surrogate** is converted to a character. -/
theorem isUtf8_unicodeToServer (hpg : pg.Unicode) {u : UInt32}
    (h : ¬ (0xD800 ≤ u.toNat ∧ u.toNat ≤ 0xDFFF)) (hok : pg.unicodeToServer u = .ok bs) :
    IsUtf8 (untilNul bs) := by
  rw [PgWchar.unicodeToServer] at hok
  split_ifs at hok with h1 h2
  · cases hok
    refine IsUtf8.takeWhile_ne_zero (isUtf8_singleton ?_)
    simp only [UInt32.le_iff_toNat_le, UInt32.reduceToNat] at h2
    rw [UInt32.toNat_toUInt8]; omega
  · cases hok
    simp only [UInt32.le_iff_toNat_le, UInt32.reduceToNat] at h1
    obtain ⟨c, rfl⟩ := toNat_of_uint32 h h1.2
    refine IsUtf8.takeWhile_ne_zero ?_
    rw [hpg.utf8, hpg.utf8len, ← String.length_utf8EncodeChar, List.take_length]
    exact isUtf8_encodeChar

variable {cp : Int32}

theorem surrogate_toUInt32 : 0xD800 ≤ cp.toUInt32.toNat ∧ cp.toUInt32.toNat ≤ 0xDFFF ↔
    0xD800 ≤ cp.toInt ∧ cp.toInt ≤ 0xDFFF := by
  have h := toNat_toUInt32 cp
  have hr := int32_range cp
  rw [asUint32] at h
  omega

theorem isUtf8_fromCodePoint (hpg : pg.Unicode)
    (hcp : ¬ (0xD800 ≤ cp.toInt ∧ cp.toInt ≤ 0xDFFF))
    (h : utf16FromCodePoint pg cp = .returns t) : IsUtf8 t.data := by
  rw [utf16FromCodePoint] at h
  split_ifs at h with h0
  · cases h
    exact isUtf8_singleton (by decide)
  · cases hs : pg.unicodeToServer cp.toUInt32 with
    | error err => rw [hs] at h; cases h
    | ok buf =>
      rw [hs] at h
      rw [data_of_ofExcept h]
      exact isUtf8_unicodeToServer hpg (fun hu => hcp (surrogate_toUInt32.1 hu)) hs

/-- **A surrogate** is converted to three bytes that are no text. -/
theorem not_isUtf8_fromCodePoint (hv : Validates pg pge)
    (hcp : 0xD800 ≤ cp.toInt ∧ cp.toInt ≤ 0xDFFF) :
    ∃ t, utf16FromCodePoint pg cp = .returns t ∧ ¬ IsUtf8 t.data := by
  have hu := surrogate_toUInt32.2 hcp
  obtain ⟨hlen, hbad⟩ := hv.surrogate cp.toUInt32 hu.1 hu.2
  have h0 : cp ≠ 0 := by
    rintro rfl
    exact absurd hcp.1 (by decide)
  have hs : pg.unicodeToServer cp.toUInt32 =
      .ok ((pg.unicodeToUtf8 cp.toUInt32).take 3) := by
    rw [PgWchar.unicodeToServer, hlen, if_neg, if_neg]
    · simp only [UInt32.le_iff_toNat_le, UInt32.reduceToNat]; omega
    · simp only [UInt32.le_iff_toNat_le, UInt32.lt_iff_toNat_lt, UInt32.reduceToNat, not_not]
      omega
  have hfits : (untilNul ((pg.unicodeToUtf8 cp.toUInt32).take 3)).length ≤
      varattMax - varhdrsz := by
    have h1 := (List.takeWhile_prefix (p := fun b : UInt8 => decide (b ≠ 0))
      (l := (pg.unicodeToUtf8 cp.toUInt32).take 3)).length_le
    have h2 := List.length_take_le 3 (pg.unicodeToUtf8 cp.toUInt32)
    simp only [untilNul, varattMax, varhdrsz] at h1 h2 ⊢
    omega
  obtain ⟨t, ht, hdata⟩ := cstringIntoVarattObj_rule hfits
  refine ⟨t, ?_, by rw [hdata]; exact hbad⟩
  rw [utf16FromCodePoint, if_neg h0, hs]
  simp only [ht]; rfl

/-! ### Texts from bytes -/

theorem copyOut_returns {lo : ℤ} {n : ℕ} (h : (copyOut buf lo n).result = .returns t) :
    n ≤ varattMax - varhdrsz ∧ t.data = buf.slice lo n := by
  rw [copyOut] at h
  split_ifs at h with hn
  exact ⟨not_lt.1 hn, data_of_ofExcept h⟩

/-- What `bytes_decode` returns is the string or the other one. -/
theorem decoded_returns {isAscii : Bool} {lo n : ℤ} {str : Except String (Option (List UInt8))}
    (h : (decoded isAscii buf lo n str).result = .returns t) :
    (str = .ok none ∧ sizeT n ≤ varattMax - varhdrsz ∧ t.data = buf.slice lo (sizeT n)) ∨
      ∃ s, str = .ok (some s) ∧ t.data = untilNul s := by
  match str with
  | .error err => cases h
  | .ok (some s) =>
    rw [decoded] at h
    split_ifs at h
    exact .inr ⟨s, rfl, data_of_ofExcept h⟩
  | .ok none =>
    rw [decoded] at h
    split_ifs at h
    · simp only at h
      split_ifs at h
      exact .inl ⟨rfl, copyOut_returns h⟩
    · exact .inl ⟨rfl, copyOut_returns h⟩

/-- **What is decoded has been checked**, in any encoding; a negative length does not get through. -/
theorem isUtf8_bytesDecode (hv : Validates pg pge) {encoding : List UInt8} {start length : Int32}
    (h : (bytesDecode pge encoding buf start length).result = .returns t) : IsUtf8 t.data := by
  simp only [bytesDecode] at h
  generalize (if isAsciiName encoding = true then pgUtf8
    else pge.charToEncoding (encoding.takeWhile (· ≠ 0))) = enc at h
  split_ifs at h
  have hr := int32_range length
  rcases decoded_returns h with ⟨hstr, hle, hdata⟩ | ⟨s, hstr, hdata⟩
  · rw [PgEncoding.anyToServer] at hstr
    split_ifs at hstr with hlen
    · have h0 : sizeT length.toInt = 0 := by
        by_cases hneg : length.toInt < 0
        · have hbig := sizeT_of_neg hr.1 hneg
          simp only [varattMax, varhdrsz] at hle
          omega
        · rw [sizeT]; omega
      rw [hdata, h0]
      exact isUtf8_nil
    · have hn : sizeT length.toInt = length.toInt.toNat := by rw [sizeT]; omega
      rw [hdata, hn]
      exact hv.same _ _ hstr
  · rw [PgEncoding.anyToServer] at hstr
    split_ifs at hstr
    · cases hstr
    · rw [hdata]
      exact hv.other _ _ _ hstr

theorem isUtf8_globalTextResolver (cs : List Char)
    (h : globalTextResolver (utf8 cs) = .returns t) : IsUtf8 t.data := by
  rw [globalTextResolver] at h
  split_ifs at h
  rw [data_of_ofExcept h]
  exact isUtf8_utf8

/-! ### Runs -/

theorem sbToString_returns {sb : StringInfo} (h : sbToString sb = .returns t) :
    sb.maxlen ≠ 0 ∧ sb.data.length ≤ varattMax - varhdrsz ∧ t.data = sb.data := by
  rw [sbToString] at h
  split_ifs at h with h0
  refine ⟨h0, ?_, data_of_ofExcept h⟩
  by_contra hlen
  rw [cstringIntoVarattObj, dif_pos (not_le.1 hlen)] at h
  cases h

/-- A call within the condition adds no bad text. -/
theorem TextsValid.call (hv : Validates pg pge) (h : TextsValid st) {c : TextCall}
    (hc : c.Meets st) : TextsValid (st.call pg pge c) := by
  have hwrite : ∀ i f, TextsValid (st.write i f) := by
    intro i f bs hbs
    rw [texts_write] at hbs
    exact h bs hbs
  cases c with
  | globalText name => exact h.addText fun t ht => isUtf8_globalTextResolver name ht
  | sbNew | sbReadText => exact h
  | sbWriteString | sbWriteSubstring | sbWriteChar | sbWriteBytes | sbWriteByte =>
    exact hwrite _ _
  | sbToString i =>
    simp only [TextHeap.call]
    cases hsb : st.builders[i]? with
    | none => exact h
    | some sb =>
      refine h.addText fun t ht => ?_
      obtain ⟨hmax, hlen, hdata⟩ := sbToString_returns ht
      rw [hdata]
      exact hc sb hsb hmax hlen
  | fromCharCodeArray arr start length =>
    exact h.addText fun t ht => isUtf8_fromCharCodeArray hv.wchar.toUnicode ht
  | fromCodePoint codePoint =>
    exact h.addText fun t ht => isUtf8_fromCodePoint hv.wchar.toUnicode hc ht
  | bytesDecode bytes start length encoding =>
    exact h.addText fun t ht => isUtf8_bytesDecode hv ht

theorem not_textsValid_addText (hr : r = .returns t) (ht : ¬ IsUtf8 t.data) :
    ¬ TextsValid (st.addText r) := by
  rw [hr]
  exact fun h => ht (h _ (List.mem_append_right _ (List.mem_singleton_self _)))

/-- A call outside of it adds one. -/
theorem not_textsValid_call (hv : Validates pg pge) {c : TextCall} (hc : ¬ c.Meets st) :
    ¬ TextsValid (st.call pg pge c) := by
  cases c with
  | sbToString i =>
    simp only [TextCall.Meets, not_forall] at hc
    obtain ⟨sb, hsb, hmax, hlen, hbad⟩ := hc
    obtain ⟨t, ht, hdata⟩ := cstringIntoVarattObj_rule hlen
    have hr : sbToString sb = .returns t := by
      rw [sbToString, if_neg hmax, ht]; rfl
    simp only [TextHeap.call, Option.mem_def.1 hsb]
    exact not_textsValid_addText hr (by rw [hdata]; exact hbad)
  | fromCodePoint codePoint =>
    obtain ⟨t, ht, hbad⟩ := not_isUtf8_fromCodePoint hv (not_not.1 hc)
    exact not_textsValid_addText ht hbad
  | _ => exact absurd trivial hc

/-- Before the first call. -/
def noTexts : TextHeap := ⟨[], []⟩

variable {h : List (TextHeap × TextCall)}

/-- **The texts of a run are well-formed** exactly as long as no ill-formed builder is copied out and
    no surrogate is made a text. -/
theorem texts_valid_iff (hv : Validates pg pge) (hr : Run (TextStep pg pge) noTexts h st) :
    Always TextsValid h st ↔ Meets (fun st c => c.Meets st) h := by
  refine hr.always_iff_meets (I := fun _ => True) trivial (fun t ht => absurd ht List.not_mem_nil)
    ?_ ?_
  · rintro s c s' - hP hC rfl
    exact ⟨trivial, hP.call hv hC⟩
  · rintro s c s' - - hC rfl
    exact not_textsValid_call hv hC

/-- A server that is sent ASCII only. -/
def asciiOnly : PgEncoding where
  charToEncoding _ := -1
  convert bytes _ :=
    if bytes.all (·.toNat < 0x80) then .ok none
    else .error "invalid byte sequence for encoding \"UTF8\""

theorem utf8Server_validates : Validates utf8Server asciiOnly where
  wchar := utf8Server_utf8
  surrogate u hlo hhi := by
    have h1 : ¬ u.toNat ≤ 0x7F := by omega
    have h2 : ¬ u.toNat ≤ 0x7FF := by omega
    have h3 : u.toNat ≤ 0xFFFF := by omega
    have hlen : utf8Server.unicodeUtf8len u = 3 := by
      simp only [utf8Server, utf8lenOf, UInt32.le_iff_toNat_le, UInt32.reduceToNat]
      rw [if_neg h1, if_neg h2, if_pos h3]
    have hbytes : (utf8Server.unicodeToUtf8 u).take 3 = [0xED,
        .ofNat (0x80 + u.toNat / 64 % 64), .ofNat (0x80 + u.toNat % 64)] := by
      have hfirst : 0xE0 + u.toNat / 4096 % 16 = 0xED := by omega
      simp only [utf8Server, utf8Of, UInt32.le_iff_toNat_le, UInt32.reduceToNat]
      rw [if_neg h1, if_neg h2, if_pos h3, hfirst]; rfl
    have hsecond : (UInt8.ofNat (0x80 + u.toNat / 64 % 64)).toNat = 0x80 + u.toNat / 64 % 64 :=
      UInt8.toNat_ofNat_of_lt' (by simp only [UInt8.size]; omega)
    have hne : UInt8.ofNat (0x80 + u.toNat / 64 % 64) ≠ 0 := by
      rw [Ne, ← UInt8.toNat_inj, hsecond]
      simp only [UInt8.reduceToNat]; omega
    refine ⟨hlen, fun h => ?_⟩
    rw [hbytes, untilNul, List.takeWhile_cons_of_pos (by decide),
      List.takeWhile_cons_of_pos (by exact decide_eq_true hne)] at h
    have hlt := lt_of_isUtf8_cons h
    omega
  same b enc h := by
    simp only [asciiOnly] at h
    split_ifs at h with hb
    exact isUtf8_of_ascii fun a ha => by simpa using List.all_eq_true.1 hb a ha
  other b enc s h := by
    simp only [asciiOnly] at h
    split_ifs at h
    cases h

/-- A builder with the byte `b`, copied out: the three calls and the states between them. -/
def byteRun (b : Int32) : List (TextHeap × TextCall) :=
  [(⟨[], [⟨[b.toUInt32.toUInt8], 1⟩]⟩, .sbToString 0), (⟨[], [⟨[], 1⟩]⟩, .sbWriteByte 0 b),
    (noTexts, .sbNew 0)]

theorem byteRun_run (b : Int32) : Run (TextStep utf8Server asciiOnly) noTexts (byteRun b)
    ⟨[[b.toUInt32.toUInt8]], [⟨[b.toUInt32.toUInt8], 1⟩]⟩ :=
  .snoc (.snoc (.snoc .nil rfl) rfl) rfl

/-- The byte `0xFF` becomes a text. -/
theorem byteRun_invalid : ∃ st, Run (TextStep utf8Server asciiOnly) noTexts (byteRun 0xFF) st ∧
    ¬ TextsValid st := by
  refine ⟨_, byteRun_run 0xFF, fun hvalid => ?_⟩
  have hlt := lt_of_isUtf8 (hvalid [0xFF] List.mem_cons_self)
  exact absurd hlt (by decide)

theorem byteRun_valid : Always TextsValid (byteRun 0x41)
    ⟨[[0x41]], [⟨[0x41], 1⟩]⟩ := by
  refine (texts_valid_iff utf8Server_validates (byteRun_run 0x41)).2 ?_
  rintro p hp
  simp only [byteRun, List.mem_cons, List.not_mem_nil, or_false] at hp
  rcases hp with rfl | rfl | rfl
  · rintro sb ⟨⟩ - -
    exact isUtf8_singleton (by decide)
  · trivial
  · trivial

/-! ### Builders that are written in well-formed pieces -/

/-- What the call writes to a builder, or makes a text of, is well-formed by itself. -/
def TextCall.Pieces : TextCall → Prop
  | .sbWriteChar _ ch | .fromCodePoint ch => ¬ (0xD800 ≤ ch.toInt ∧ ch.toInt ≤ 0xDFFF)
  | .sbWriteBytes _ bytes start len => IsUtf8 (bytes.slice start.toInt len.toInt.toNat)
  | .sbWriteByte _ byte => byte.toUInt32.toUInt8.toNat < 0x80
  | _ => True

/-- All texts and all builders are well-formed. -/
structure HeapValid (st : TextHeap) : Prop where
  texts : TextsValid st
  builders : ∀ sb ∈ st.builders, IsUtf8 sb.data

variable {cs : List Char} {sb sb' : StringInfo} {bytes : Except String (List UInt8)} {n : ℤ}

/-- The characters that `pg_mbcharcliplen` counts. -/
def clipped (limit : ℤ) (cs : List Char) : List Char := (beforeNul cs).take limit.toNat

theorem clipped_eq_take (limit : ℤ) (cs : List Char) :
    clipped limit cs = cs.take (min limit.toNat (beforeNul cs).length) := by
  conv_lhs => rw [clipped, beforeNul_eq_take]
  rw [List.take_take]

/-- Characters are clipped as a whole. -/
theorem mbcharcliplen_utf8 (hpg : pg.Utf8) (limit : ℤ) (cs : List Char) :
    pg.mbcharcliplen limit (utf8 cs) = (utf8 (clipped limit cs)).length := by
  induction cs generalizing limit with
  | nil => rw [utf8_nil, PgWchar.mbcharcliplen, clipped, beforeNul]; simp
  | cons c cs ih =>
    obtain ⟨b, t, hbt, hh⟩ := exists_heads hpg c (utf8 cs)
    rw [utf8_cons, hbt, PgWchar.mbcharcliplen]
    split_ifs with hstop
    · rcases hstop with h0 | hlim
      · rw [hh.zero_iff.1 h0, clipped, beforeNul_cons_nul, List.take_nil]; rfl
      · rw [clipped, show limit.toNat = 0 by omega, List.take_zero]; rfl
    · push Not at hstop
      have hc : c ≠ nul := fun h => hstop.1 (hh.zero_iff.2 h)
      have hlim : limit.toNat = (limit - 1).toNat + 1 := by omega
      simp only [hh.charLen, Int.toNat_natCast, hh.drop, ih]
      rw [clipped, clipped, beforeNul_cons hc, hlim, List.take_succ_cons, utf8_cons,
        List.length_append, String.length_utf8EncodeChar]

theorem drop_utf8 (k : ℕ) (cs : List Char) :
    (utf8 cs).drop (utf8 (cs.take k)).length = utf8 (cs.drop k) := by
  conv_lhs => rw [← List.take_append_drop k cs, utf8_append, List.take_append_drop]
  exact List.drop_left

theorem take_utf8 (k : ℕ) (cs : List Char) :
    (utf8 cs).take (utf8 (cs.take k)).length = utf8 (cs.take k) := by
  conv_lhs => rw [← List.take_append_drop k cs, utf8_append, List.take_append_drop]
  exact List.take_left

theorem sbAppend_returns (h : sbAppend sb n bytes = .returns sb') :
    ∃ bs, bytes = .ok bs ∧ sb'.data = sb.data ++ bs := by
  rw [sbAppend.eq_def] at h
  split_ifs at h
  cases he : enlargeStringInfo sb n with
  | some err => rw [he] at h; cases h
  | none =>
    rw [he] at h
    cases bytes with
    | error err => cases h
    | ok bs =>
      cases h
      exact ⟨bs, rfl, rfl⟩

theorem isUtf8_sbAppend (hsb : IsUtf8 sb.data) (hbytes : ∀ bs, bytes = .ok bs → IsUtf8 bs)
    (h : sbAppend sb n bytes = .returns sb') : IsUtf8 sb'.data := by
  obtain ⟨bs, hbs, hdata⟩ := sbAppend_returns h
  rw [hdata]
  exact hsb.append (hbytes bs hbs)

theorem bytesAt_of_le {s : List UInt8} {behind : ℕ → UInt8} {n : ℕ} (h : n ≤ s.length) :
    bytesAt s behind n = s.take n := by
  rw [bytesAt, Nat.sub_eq_zero_of_le h, List.range_zero, List.map_nil, List.append_nil]

/-- What is appended from a text: the clipped characters of what the first clip leaves. -/
theorem sbWriteSubstring_utf8 (hpg : pg.Utf8) (sb : StringInfo) (cs : List Char)
    (behind : ℕ → UInt8) (start len : Int32) :
    sbWriteSubstring pg sb (utf8 cs) behind start len = sbWriteString sb
      (utf8 (clipped len.toInt (cs.drop (min start.toInt.toNat (beforeNul cs).length)))) := by
  have hle : ∀ j ds, (utf8 (ds.take j)).length ≤ (utf8 ds).length := by
    intro j ds
    rw [← take_utf8, List.length_take]; exact min_le_right ..
  simp only [sbWriteSubstring, sbWriteString, mbcharcliplen_utf8 hpg, clipped_eq_take, drop_utf8,
    bytesAt_of_le (hle _ _), take_utf8]

theorem isUtf8_sbWriteSubstring (hpg : pg.Utf8) {t : List UInt8} {behind : ℕ → UInt8}
    {start len : Int32} (hsb : IsUtf8 sb.data) (ht : IsUtf8 t)
    (h : sbWriteSubstring pg sb t behind start len = .returns sb') : IsUtf8 sb'.data := by
  obtain ⟨cs, rfl⟩ := ht
  rw [sbWriteSubstring_utf8 hpg] at h
  refine isUtf8_sbAppend hsb ?_ h
  rintro bs ⟨⟩
  exact isUtf8_utf8

theorem isUtf8_sbWriteChar (hpg : pg.Unicode) {ch : Int32}
    (hch : ¬ (0xD800 ≤ ch.toInt ∧ ch.toInt ≤ 0xDFFF)) (hsb : IsUtf8 sb.data)
    (h : sbWriteChar pg sb ch = .returns sb') : IsUtf8 sb'.data := by
  refine isUtf8_sbAppend hsb (fun bs hbs => ?_) h
  cases hs : pg.unicodeToServer ch.toUInt32 with
  | error err => rw [hs] at hbs; cases hbs
  | ok buf =>
    rw [hs] at hbs
    cases hbs
    exact isUtf8_unicodeToServer hpg (fun hu => hch (surrogate_toUInt32.1 hu)) hs

theorem sbWriteBytes_returns {buf : Buffer} {start len : Int32} {data : List UInt8}
    (h : (sbWriteBytes sb buf start len).result = .returns data) :
    data = sb.data ++ buf.slice start.toInt len.toInt.toNat := by
  rw [sbWriteBytes] at h
  split_ifs at h
  cases he : enlargeStringInfo sb len.toInt with
  | some err => rw [he] at h; cases h
  | none => rw [he] at h; cases h; rfl

theorem HeapValid.write (hs : HeapValid st) {i : ℕ} {f : StringInfo → Native StringInfo}
    (hf : ∀ sb sb', IsUtf8 sb.data → f sb = .returns sb' → IsUtf8 sb'.data) :
    HeapValid (st.write i f) := by
  refine ⟨fun t ht => hs.texts t (by rwa [texts_write] at ht), ?_⟩
  rw [TextHeap.write]
  cases hsb : st.builders[i]? with
  | none => exact hs.builders
  | some sb =>
    rw [Option.map_some]
    cases hw : f sb with
    | returns sb' =>
      intro sb'' hmem
      rcases List.mem_or_eq_of_mem_set hmem with hmem | rfl
      · exact hs.builders sb'' hmem
      · exact hf sb _ (hs.builders sb (List.mem_of_getElem? hsb)) hw
    | throws err => exact hs.builders
    | raises err => exact hs.builders
    | overruns => exact hs.builders

theorem HeapValid.text (hs : HeapValid st) (t : ℕ) : IsUtf8 (st.text t) := by
  rw [TextHeap.text, List.getD_eq_getElem?_getD]
  cases ht : st.texts[t]? with
  | none => exact isUtf8_nil
  | some bs => exact hs.texts bs (List.mem_of_getElem? ht)

theorem builders_addText (st : TextHeap) (r : Native Varatt) :
    (st.addText r).builders = st.builders := by
  cases r <;> rfl

/-- A call that writes well-formed pieces only stays within the condition. -/
theorem HeapValid.meets (hs : HeapValid st) {c : TextCall} (hc : c.Pieces) : c.Meets st := by
  cases c with
  | sbToString i => exact fun sb hsb _ _ => hs.builders sb (List.mem_of_getElem? hsb)
  | fromCodePoint codePoint => exact hc
  | _ => exact trivial

theorem HeapValid.call (hv : Validates pg pge) (hs : HeapValid st) {c : TextCall}
    (hc : c.Pieces) : HeapValid (st.call pg pge c) := by
  have htexts := hs.texts.call hv (hs.meets hc)
  have hnew : ∀ sb, IsUtf8 sb.data → ∀ sb' ∈ st.builders ++ [sb], IsUtf8 sb'.data := by
    intro sb hsb sb' hmem
    rcases List.mem_append.1 hmem with hmem | hmem
    · exact hs.builders sb' hmem
    · rw [List.mem_singleton.1 hmem]; exact hsb
  have hadd : ∀ r, HeapValid st → TextsValid (st.addText r) → HeapValid (st.addText r) :=
    fun r _ ht => ⟨ht, by rw [builders_addText]; exact hs.builders⟩
  cases c with
  | globalText name => exact hadd _ hs htexts
  | sbNew sizeHint => exact ⟨htexts, hnew _ isUtf8_nil⟩
  | sbReadText t => exact ⟨htexts, hnew _ (hs.text t)⟩
  | sbWriteString i t =>
    refine hs.write fun sb sb' hsb h => isUtf8_sbAppend hsb ?_ h
    rintro bs ⟨⟩
    exact hs.text t
  | sbWriteSubstring i t behind start len =>
    exact hs.write fun sb sb' hsb h => isUtf8_sbWriteSubstring hv.wchar hsb (hs.text t) h
  | sbWriteChar i ch =>
    exact hs.write fun sb sb' hsb h => isUtf8_sbWriteChar hv.wchar.toUnicode hc hsb h
  | sbWriteBytes i bytes start len =>
    refine hs.write fun sb sb' hsb h => ?_
    cases hr : (Rustica.sbWriteBytes sb bytes start len).result with
    | returns data =>
      rw [hr] at h
      cases h
      rw [sbWriteBytes_returns hr]
      exact hsb.append hc
    | throws err => rw [hr] at h; cases h
    | raises err => rw [hr] at h; cases h
    | overruns => rw [hr] at h; cases h
  | sbWriteByte i byte =>
    refine hs.write fun sb sb' hsb h => isUtf8_sbAppend hsb ?_ h
    rintro bs ⟨⟩
    exact isUtf8_singleton hc
  | sbToString i =>
    simp only [TextHeap.call] at htexts ⊢
    cases hsb : st.builders[i]? with
    | none => exact hs
    | some sb =>
      rw [hsb] at htexts
      exact hadd _ hs htexts
  | fromCharCodeArray arr start length => exact hadd _ hs htexts
  | fromCodePoint codePoint => exact hadd _ hs htexts
  | bytesDecode bytes start length encoding => exact hadd _ hs htexts

/-- **Piece by piece**: as long as all that is written is well-formed by itself, so are the builders,
    and with them the texts. -/
theorem valid_of_pieces (hv : Validates pg pge) (hr : Run (TextStep pg pge) noTexts h st)
    (hp : Meets (fun _ c => c.Pieces) h) : Always HeapValid h st := by
  refine hr.always_of_meets (I := HeapValid) ⟨fun t ht => absurd ht List.not_mem_nil,
    fun sb hsb => absurd hsb List.not_mem_nil⟩ ?_ hp
  rintro s c s' hI hC rfl
  exact hI.call hv hC

end Rustica
