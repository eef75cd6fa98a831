/-
  The string builder, with its buffer.

  A builder writes in five ways: three append with `appendBinaryStringInfoNT`, one encodes in place
  and takes the length of what it wrote with `strlen`, one stores a byte.  None of them writes
  outside of the buffer, and each either raises and leaves the contents, or appends its payload
  (`builder_iff`); the one exception is a text that ends within a character, of which
  `sb_write_substring` copies the missing bytes too, from behind the text.

  The natives on the contents alone are those of `Rustica.Validity`; the ones here refine them
  (`call_refines`).
-/
import Rustica.Chars
import Rustica.Lib.Chunks

namespace Rustica

open Utf Exec Chunks

/-! ## The buffer -/

/-- A `StringInfo` that is a builder: `data` is all that is allocated. -/
structure Builder where
  data : List UInt8
  len : ℕ
  maxlen : ℕ
deriving DecidableEq

/-- The contents. -/
def Builder.content (b : Builder) : List UInt8 := b.data.take b.len

/-- What the natives without a buffer see. -/
def Builder.info (b : Builder) : StringInfo := ⟨b.content, b.maxlen⟩

namespace Builder

/-- New memory: whatever it holds. -/
def palloc (fresh : ℕ → UInt8) (n : ℕ) : List UInt8 := (List.range n).map fresh

def sbNew (fresh : ℕ → UInt8) (sizeHint : Int32) : Native Builder :=
  let size := if sizeHint.toInt < 1 then 1 else sizeHint.toInt.toNat
  if size > maxAllocSize then .raises "invalid memory alloc request size"
  -- `resetStringInfo` ends the empty string
  else .returns ⟨(palloc fresh size).set 0 0, 0, size⟩

/-- `newlen`, doubled until it holds what is needed. -/
def doubled (needed newlen : ℕ) : ℕ :=
  if 0 < newlen ∧ newlen < needed then doubled needed (2 * newlen) else newlen
termination_by needed - newlen

/-- The rest of `enlargeStringInfo`, for a request that it does not refuse. -/
def grow (fresh : ℕ → UInt8) (b : Builder) (needed : ℕ) : Builder :=
  let needed := needed + b.len + 1
  if needed ≤ b.maxlen then b
  else
    let newlen := min (doubled needed (2 * b.maxlen)) maxAllocSize
    { b with data := b.data ++ palloc fresh (newlen - b.data.length), maxlen := newlen }

/-- `memcpy` to the end of the contents. -/
def memcpy (b : Builder) (src : List UInt8) : Option Builder :=
  if b.len + src.length ≤ b.data.length then
    some { b with data := b.data.take b.len ++ src ++ b.data.drop (b.len + src.length) }
  else none

/-- `enlargeStringInfo`, and what `sb_ensure_string_info` checks before; then the write, which must
    stay in the buffer. -/
def enlarged (fresh : ℕ → UInt8) (b : Builder) (needed : ℤ)
    (write : Builder → Native ℤ × Builder) : Native ℤ × Builder :=
  if b.maxlen = 0 then (.raises "StringInfo is read-only", b)
  else
    match enlargeStringInfo b.info needed with
    | some err => (.raises err, b)
    | none => write (b.grow fresh needed.toNat)

/-- The write of some bytes and the new length. -/
def store (src : List UInt8) (b : Builder) : Native ℤ × Builder :=
  match b.memcpy src with
  | some b' => (.returns 0, { b' with len := b.len + src.length })
  | none => (.overruns, b)

def appendBinaryStringInfoNT (fresh : ℕ → UInt8) (b : Builder) (datalen : ℤ)
    (src : List UInt8) : Native ℤ × Builder :=
  b.enlarged fresh datalen (store src)

def sbWriteString (fresh : ℕ → UInt8) (b : Builder) (t : Varatt) : Native ℤ × Builder :=
  b.appendBinaryStringInfoNT fresh t.data.length t.data

/-- `pg_unicode_to_server` into the buffer, with a NUL at the end, and `strlen` of what is there. -/
def storeChar (bytes : Except String (List UInt8)) (b : Builder) : Native ℤ × Builder :=
  match bytes with
  | .error err => (.raises err, b)
  | .ok bytes =>
    match b.memcpy (bytes ++ [0]) with
    | none => (.overruns, b)
    | some b' =>
      let rest := b'.data.drop b.len
      if 0 ∈ rest then (.returns 0, { b' with len := b.len + (untilNul rest).length })
      else (.overruns, b')

def sbWriteByte (fresh : ℕ → UInt8) (b : Builder) (byte : Int32) : Native ℤ × Builder :=
  b.enlarged fresh 1 (store [byte.toUInt32.toUInt8])

def sbWriteBytes (fresh : ℕ → UInt8) (b : Builder) (bytes : Buffer) (start len : Int32) :
    Native ℤ × Builder :=
  if b.maxlen = 0 then (.raises "StringInfo is read-only", b)
  else if start.toInt < 0 ∨ sizeT (asInt32 (start.toInt + len.toInt)) > bytes.size then
    (.raises "sb_write_bytes: index out of bound", b)
  else b.appendBinaryStringInfoNT fresh len.toInt (bytes.slice start.toInt len.toInt.toNat)

/-- What is common to `sb_to_string` and `sb_to_bytes`. -/
def copied (b : Builder) : Native Varatt :=
  if b.maxlen = 0 then .raises "StringInfo is read-only"
  else if b.data.length < b.len then .overruns
  else .ofExcept (cstringIntoVarattObj b.content)

def sbToString : Builder → Native Varatt := copied

def sbToBytes : Builder → Native Varatt := copied

def sbMblength (b : Builder) : Native ℤ :=
  if b.maxlen = 0 then .raises "StringInfo is read-only" else .returns b.len

section
variable (pg : PgWchar)

def sbWriteSubstring (fresh : ℕ → UInt8) (b : Builder) (t : Varatt) (behind : ℕ → UInt8)
    (start len : Int32) : Native ℤ × Builder :=
  let clip := t.data.drop (pg.mbcharcliplen start.toInt t.data)
  let n := pg.mbcharcliplen len.toInt clip
  b.appendBinaryStringInfoNT fresh n (bytesAt clip behind n)

def sbWriteChar (fresh : ℕ → UInt8) (b : Builder) (ch : Int32) : Native ℤ × Builder :=
  b.enlarged fresh maxUnicodeEquivalentString (storeChar (pg.unicodeToServer ch.toUInt32))

end

end Builder

/-- A call that writes to the builder.  Any bytes may lie behind a text in memory. -/
inductive BuilderCall where
  | sbWriteString (t : Varatt)
  | sbWriteSubstring (t : Varatt) (behind : ℕ → UInt8) (start len : Int32)
  | sbWriteChar (ch : Int32)
  | sbWriteBytes (bytes : Buffer) (start len : Int32)
  | sbWriteByte (byte : Int32)

variable (pg : PgWchar)

def Builder.call (fresh : ℕ → UInt8) (b : Builder) : BuilderCall → Native ℤ × Builder
  | .sbWriteString t => b.sbWriteString fresh t
  | .sbWriteSubstring t behind start len => b.sbWriteSubstring pg fresh t behind start len
  | .sbWriteChar ch => b.sbWriteChar pg fresh ch
  | .sbWriteBytes bytes start len => b.sbWriteBytes fresh bytes start len
  | .sbWriteByte byte => b.sbWriteByte fresh byte

/-- The same call on the contents alone. -/
def BuilderCall.on (sb : StringInfo) : BuilderCall → Native StringInfo
  | .sbWriteString t => Rustica.sbWriteString sb t.data
  | .sbWriteSubstring t behind start len =>
    Rustica.sbWriteSubstring pg sb t.data behind start len
  | .sbWriteChar ch => Rustica.sbWriteChar pg sb ch
  | .sbWriteBytes bytes start len =>
    match (Rustica.sbWriteBytes sb bytes start len).result with
    | .returns data => .returns { sb with data := data }
    | .throws err => .throws err
    | .raises err => .raises err
    | .overruns => .overruns
  | .sbWriteByte byte => Rustica.sbWriteByte sb byte

/-! ## The buffer is large enough -/

namespace Builder

/-- What holds between calls: the buffer is as large as `maxlen` says, and there is a byte behind the
    contents. -/
structure Inv (b : Builder) : Prop where
  alloc : b.data.length = b.maxlen
  room : b.len < b.maxlen
  max : b.maxlen ≤ maxAllocSize

variable {b b' : Builder} {fresh : ℕ → UInt8} {n needed newlen : ℕ} {src : List UInt8}
  {write : Builder → Native ℤ × Builder} {bytes : Except String (List UInt8)}

/-- No builder is a string that was made read-only. -/
theorem maxlen_ne_zero (hb : b.Inv) : b.maxlen ≠ 0 ∧ b.info.maxlen ≠ 0 := by
  have h0 : b.maxlen ≠ 0 := (Nat.zero_le _ |>.trans_lt hb.room).ne'
  exact ⟨h0, Int.natCast_ne_zero.2 h0⟩

theorem length_content (hb : b.Inv) : b.content.length = b.len := by
  have h1 := hb.alloc
  have h2 := hb.room
  rw [content, List.length_take]; omega

theorem le_doubled (h : 0 < newlen) : newlen ≤ doubled needed newlen ∧
    needed ≤ doubled needed newlen := by
  induction newlen using doubled.induct needed with
  | case1 newlen hlt ih =>
    rw [doubled, if_pos hlt]
    have := ih (by omega)
    omega
  | case2 newlen hge =>
    rw [doubled, if_neg hge]
    omega

/-- **The buffer is enlarged** to hold what is needed and a NUL, and the contents stay. -/
theorem grow_rule (fresh : ℕ → UInt8) (hb : b.Inv) (hn : enlargeStringInfo b.info n = none) :
    (b.grow fresh n).Inv ∧ (b.grow fresh n).len = b.len ∧
      (b.grow fresh n).content = b.content ∧ b.len + n + 1 ≤ (b.grow fresh n).maxlen := by
  have hlen := length_content hb
  have halloc := hb.alloc
  have hroom := hb.room
  have hmax := hb.max
  have hfits : n < maxAllocSize - b.len := by
    rw [enlargeStringInfo, if_neg (by omega)] at hn
    split_ifs at hn with h
    simp only [info, hlen, Int.toNat_natCast] at h
    omega
  rw [grow]
  split_ifs with h
  · exact ⟨hb, rfl, rfl, by omega⟩
  · obtain ⟨hd, hn'⟩ : 2 * b.maxlen ≤ doubled (n + b.len + 1) (2 * b.maxlen) ∧
        n + b.len + 1 ≤ doubled (n + b.len + 1) (2 * b.maxlen) := le_doubled (by omega)
    have hnew : b.maxlen ≤ min (doubled (n + b.len + 1) (2 * b.maxlen)) maxAllocSize := by omega
    refine ⟨⟨?_, ?_, ?_⟩, rfl, ?_, ?_⟩
    · simp only [List.length_append, palloc, List.length_map, List.length_range]
      omega
    · show b.len < min _ _
      omega
    · exact min_le_right ..
    · have hle : b.len ≤ b.data.length := by omega
      exact List.take_append_of_le_length hle
    · show b.len + n + 1 ≤ min _ _
      omega

theorem memcpy_rule (hb : b.Inv) (src : List UInt8) (h : b.len + src.length ≤ b.maxlen) :
    ∃ b', b.memcpy src = some b' ∧ b'.data.length = b.data.length ∧ b'.maxlen = b.maxlen ∧
      ∃ rest, b'.data = b.content ++ src ++ rest := by
  have halloc := hb.alloc
  rw [memcpy, if_pos (by omega)]
  refine ⟨_, rfl, ?_, rfl, _, rfl⟩
  simp only [List.length_append, List.length_take, List.length_drop]
  omega

/-! ## Contents and buffer agree -/

/-- A call on the buffer does what the call on the contents does, and nothing else happens. -/
def Refines (b : Builder) (out : Native ℤ × Builder) (r : Native StringInfo) : Prop :=
  out.2.Inv ∧
    match r with
    | .returns sb => out.1 = .returns 0 ∧ out.2.content = sb.data
    | .raises err => out.1 = .raises err ∧ out.2.content = b.content
    | .throws _ | .overruns => False

/-- The write behind `enlargeStringInfo`, when there is room for it. -/
theorem enlarged_refines (hb : b.Inv) (bytes : Except String (List UInt8))
    (hwrite : ∀ b', b'.Inv → b'.content = b.content → b'.len = b.len →
      b.len + n + 1 ≤ b'.maxlen → Refines b (write b')
        (match bytes with
          | .error err => .raises err
          | .ok bs => .returns { b.info with data := b.content ++ bs })) :
    Refines b (b.enlarged fresh n write) (sbAppend b.info n bytes) := by
  obtain ⟨h0, h0'⟩ := maxlen_ne_zero hb
  rw [enlarged, if_neg h0, sbAppend.eq_def, if_neg h0']
  cases he : enlargeStringInfo b.info n with
  | some err => exact ⟨hb, rfl, rfl⟩
  | none =>
    obtain ⟨hinv, hlen, hcontent, hroom⟩ := grow_rule fresh hb he
    have h := hwrite _ hinv hcontent hlen hroom
    rw [Int.toNat_natCast]
    cases bytes with
    | error err => exact h
    | ok bs => exact h

theorem store_refines (hb' : b'.Inv) (hcontent : b'.content = b.content)
    (hroom : b'.len + src.length + 1 ≤ b'.maxlen) (sb : StringInfo) :
    Refines b (b'.store src) (.returns { sb with data := b.content ++ src }) := by
  obtain ⟨c, hc, hlen, hmax, rest, hdata⟩ := memcpy_rule hb' src (by omega)
  have hcl := length_content hb'
  have halloc := hb'.alloc
  rw [store, hc]
  refine ⟨⟨?_, ?_, ?_⟩, rfl, ?_⟩
  · exact hlen.trans (halloc.trans hmax.symm)
  · show b'.len + src.length < c.maxlen
    omega
  · rw [hmax]; exact hb'.max
  · show c.data.take (b'.len + src.length) = b.content ++ src
    rw [hdata, ← hcontent, ← hcl, ← List.length_append, List.take_left]

theorem untilNul_append (bs rest : List UInt8) : untilNul (bs ++ 0 :: rest) = untilNul bs := by
  induction bs with
  | nil => rfl
  | cons a bs ih =>
    by_cases ha : a = 0
    · subst ha; rfl
    · have hp : decide (a ≠ 0) = true := decide_eq_true ha
      simp only [List.cons_append, untilNul, List.takeWhile_cons, hp, if_true]
      exact congrArg (a :: ·) ih

/-- **Encoding in place**: `strlen` finds what was written. -/
theorem storeChar_refines (hb' : b'.Inv) (hcontent : b'.content = b.content)
    (hsize : ∀ bs, bytes = .ok bs → b'.len + bs.length + 1 ≤ b'.maxlen) (sb : StringInfo) :
    Refines b (b'.storeChar bytes)
      (match bytes.map untilNul with
        | .error err => .raises err
        | .ok bs => .returns { sb with data := b.content ++ bs }) := by
  cases bytes with
  | error err => exact ⟨hb', rfl, hcontent⟩
  | ok bs =>
    have hroom := hsize bs rfl
    obtain ⟨c, hc, hlen, hmax, rest, hdata⟩ := memcpy_rule hb' (bs ++ [0])
      (by rw [List.length_append, List.length_singleton]; omega)
    have hcl := length_content hb'
    have halloc := hb'.alloc
    have hdrop : c.data.drop b'.len = bs ++ 0 :: rest := by
      rw [hdata, ← hcl, List.append_assoc, List.drop_left]
      simp
    have hle : (untilNul bs).length ≤ bs.length := (List.takeWhile_prefix _).length_le
    have htake : bs.take (untilNul bs).length = untilNul bs :=
      (List.prefix_iff_eq_take.1 (List.takeWhile_prefix _)).symm
    rw [storeChar, hc]
    simp only [hdrop, if_pos (List.mem_append_right bs List.mem_cons_self), untilNul_append]
    refine ⟨⟨?_, ?_, ?_⟩, rfl, ?_⟩
    · exact hlen.trans (halloc.trans hmax.symm)
    · show b'.len + (untilNul bs).length < c.maxlen
      omega
    · rw [hmax]; exact hb'.max
    · show c.data.take (b'.len + (untilNul bs).length) = b.content ++ untilNul bs
      rw [List.take_add, hdrop, List.take_append_of_le_length hle, htake, hdata, ← hcl,
        List.append_assoc, List.take_left, hcontent]

end Builder

/-! ## Payloads -/

/-- The conversions of code points, and the length of a character in its first byte, also where
    there is no character. -/
structure PgWchar.Bytes (pg : PgWchar) : Prop where
  unicodeToUtf8 : ∀ u : UInt32, u ≤ 0x10FFFF → pg.unicodeToUtf8 u = utf8Of u
  unicodeUtf8len : ∀ u : UInt32, u ≤ 0x10FFFF → pg.unicodeUtf8len u = utf8lenOf u
  mblen_cons : ∀ b s, pg.mblen (b :: s) = pg.mblen [b]

/-- The length that a first byte announces. -/
def PgWchar.byteLen (b : UInt8) : ℕ := (pg.charLen [b]).toNat

/-- The selected characters: a character that the end of the text cuts off counts as one. -/
def selected (t : Varatt) (start len : Int32) : List (List UInt8) :=
  ((chunks pg.byteLen t.data).drop start.toInt.toNat).take len.toInt.toNat

/-- **What a call has to append.** -/
def BuilderCall.payload : BuilderCall → List UInt8
  | .sbWriteString t => t.data
  | .sbWriteSubstring t _ start len => (selected pg t start len).flatten
  | .sbWriteChar ch => utf8Of ch.toUInt32
  | .sbWriteBytes bytes start len =>
    (bytes.datum.data.drop start.toInt.toNat).take len.toInt.toNat
  | .sbWriteByte byte => [byte.toUInt32.toUInt8]

/-- The bytes that a call asks room for. -/
def BuilderCall.needed : BuilderCall → ℕ
  | .sbWriteString t => t.data.length
  | .sbWriteSubstring t _ start len => announced pg.byteLen (selected pg t start len)
  | .sbWriteChar _ => maxUnicodeEquivalentString.toNat
  | .sbWriteBytes _ _ len => len.toInt.toNat
  | .sbWriteByte _ => 1

/-- The call has a payload: the code point is one, the range lies in the buffer. -/
def BuilderCall.Valid : BuilderCall → Prop
  | .sbWriteChar ch => 0 < ch.toInt ∧ ch.toInt ≤ 0x10FFFF
  | .sbWriteBytes bytes start len => bytes.InBounds start len
  | _ => True

/-- The call raises: it has no payload, or the contents would be too long. -/
def BuilderCall.Refused (sb : StringInfo) (c : BuilderCall) : Prop :=
  ¬ c.Valid ∨ (enlargeStringInfo sb (c.needed pg)).isSome

/-- The calls that are looked at: ranges of characters are taken of texts without a NUL. -/
def BuilderCall.Plain : BuilderCall → Prop
  | .sbWriteSubstring t _ start len => 0 ∉ t.data ∧ 0 ≤ start.toInt ∧ 0 ≤ len.toInt
  | _ => True

/-- All characters that are selected are complete. -/
def BuilderCall.Complete : BuilderCall → Prop
  | .sbWriteSubstring t _ start len =>
    announced pg.byteLen (selected pg t start len) = (selected pg t start len).flatten.length
  | _ => True

variable {pg : PgWchar} {sb : StringInfo} {bs : List UInt8} {c : BuilderCall} {limit : ℤ}

theorem byteLen_pos (pg : PgWchar) (b : UInt8) : 0 < pg.byteLen b := by
  have := pg.charLen_pos [b]
  rw [PgWchar.byteLen]; omega

theorem charLen_cons (hpg : pg.Bytes) (b : UInt8) (s : List UInt8) :
    pg.charLen (b :: s) = pg.byteLen b := by
  have := pg.charLen_pos [b]
  rw [PgWchar.byteLen, Int.toNat_of_nonneg this.le, PgWchar.charLen, PgWchar.charLen,
    hpg.mblen_cons]

/-- **Clipping counts what first bytes announce**, where there is no NUL. -/
theorem mbcharcliplen_chunks (hpg : pg.Bytes) (h0 : 0 ∉ bs) (limit : ℤ) :
    pg.mbcharcliplen limit bs =
      announced pg.byteLen ((chunks pg.byteLen bs).take limit.toNat) := by
  induction bs using chunks.induct pg.byteLen generalizing limit with
  | case1 => rw [PgWchar.mbcharcliplen]; simp
  | case2 b s ih =>
    have hb : ¬ b = 0 := fun h => h0 (h ▸ List.mem_cons_self)
    have hpos := byteLen_pos pg b
    have hdrop : (b :: s).drop (pg.byteLen b) = s.drop (pg.byteLen b - 1) := by
      conv_lhs => rw [show pg.byteLen b = pg.byteLen b - 1 + 1 by omega, List.drop_succ_cons]
    rw [PgWchar.mbcharcliplen]
    by_cases hlim : limit < 1
    · rw [if_pos (.inr hlim), show limit.toNat = 0 by omega]; rfl
    · rw [if_neg (by simp [hb, hlim]), show limit.toNat = (limit - 1).toNat + 1 by omega, chunks_cons,
        List.take_succ_cons, announced_cons, size]
      simp only [charLen_cons hpg, Int.toNat_natCast, hdrop]
      rw [ih fun hm => h0 (List.mem_cons_of_mem _ (List.mem_of_mem_drop hm))]
      omega

/-- What `sb_write_substring` copies: the selected characters, and what they lack. -/
theorem sbWriteSubstring_chunks (hpg : pg.Bytes) (sb : StringInfo) {t : Varatt} (h0 : 0 ∉ t.data)
    (behind : ℕ → UInt8) (start len : Int32) :
    ∃ extra : List UInt8, extra.length = announced pg.byteLen (selected pg t start len) -
        (selected pg t start len).flatten.length ∧
      (selected pg t start len).flatten.length ≤
        announced pg.byteLen (selected pg t start len) ∧
      sbWriteSubstring pg sb t.data behind start len =
        sbAppend sb (announced pg.byteLen (selected pg t start len))
          (.ok ((selected pg t start len).flatten ++ extra)) := by
  have hstart := mbcharcliplen_chunks hpg h0 start.toInt
  have hsel : selected pg t start len = (chunks pg.byteLen
      (t.data.drop (pg.mbcharcliplen start.toInt t.data))).take len.toInt.toNat := by
    rw [selected, chunks_drop, ← hstart]
  have hlen := mbcharcliplen_chunks hpg (fun hm => h0 (List.mem_of_mem_drop
    (i := pg.mbcharcliplen start.toInt t.data) hm)) len.toInt
  have hflat := @flatten_take_chunks _ pg.byteLen len.toInt.toNat
    (t.data.drop (pg.mbcharcliplen start.toInt t.data))
  rw [← hsel] at hflat hlen
  simp only [sbWriteSubstring, hlen, hflat, bytesAt]
  refine ⟨_, ?_, ?_, rfl⟩
  · rw [List.length_map, List.length_range, List.length_take]; omega
  · exact List.length_take_le ..

/-! ### Code points -/

theorem utf8Of_facts (u : UInt32) : (utf8Of u).length = utf8lenOf u ∧ utf8lenOf u ≤ 4 := by
  rw [utf8Of, utf8lenOf]
  split_ifs <;> exact ⟨rfl, by omega⟩

theorem untilNul_utf8Of {u : UInt32} (h0 : 0 < u) : untilNul (utf8Of u) = utf8Of u := by
  refine List.takeWhile_eq_self_iff.2 fun b hb => decide_eq_true ?_
  rw [UInt32.lt_iff_toNat_lt] at h0
  simp only [UInt32.reduceToNat] at h0
  rw [Ne, ← UInt8.toNat_inj]
  rw [utf8Of] at hb
  simp only [UInt32.le_iff_toNat_le, UInt32.reduceToNat] at hb
  split_ifs at hb
  all_goals
    simp only [List.mem_cons, List.not_mem_nil, or_false] at hb
    rcases hb with rfl | rfl | rfl | rfl <;>
      simp only [UInt8.toNat_ofNat', UInt8.reduceToNat, Nat.reducePow] <;> omega

theorem unicodeToServer_eq (hpg : pg.Bytes) (u : UInt32) :
    pg.unicodeToServer u =
      if 0 < u ∧ u ≤ 0x10FFFF then .ok (utf8Of u) else .error "invalid Unicode code point" := by
  rw [PgWchar.unicodeToServer]
  by_cases h : 0 < u ∧ u ≤ 0x10FFFF
  · rw [if_neg (not_not.2 h), if_pos h, hpg.unicodeToUtf8 u h.2, hpg.unicodeUtf8len u h.2,
      ← (utf8Of_facts u).1, List.take_length]
    split_ifs with hsmall
    · rw [utf8Of, if_pos hsmall]; rfl
    · rfl
  · rw [if_pos h, if_neg h]

theorem codePoint_iff (ch : Int32) :
    0 < ch.toUInt32 ∧ ch.toUInt32 ≤ 0x10FFFF ↔ 0 < ch.toInt ∧ ch.toInt ≤ 0x10FFFF := by
  have h := toNat_toUInt32 ch
  have hr := int32_range ch
  rw [asUint32] at h
  simp only [UInt32.lt_iff_toNat_lt, UInt32.le_iff_toNat_le, UInt32.reduceToNat]
  omega

/-! ### Calls on the contents -/

theorem sbAppend_refused {n : ℤ} {bytes : Except String (List UInt8)} (hmax : sb.maxlen ≠ 0)
    (h : (enlargeStringInfo sb n).isSome) : ∃ err, sbAppend sb n bytes = .raises err := by
  obtain ⟨err, he⟩ := Option.isSome_iff_exists.1 h
  exact ⟨err, by rw [sbAppend.eq_def, if_neg hmax, he]⟩

theorem sbAppend_room {n : ℤ} (hmax : sb.maxlen ≠ 0) (h : ¬ (enlargeStringInfo sb n).isSome) :
    sbAppend sb n (.ok bs) = .returns { sb with data := sb.data ++ bs } := by
  rw [sbAppend.eq_def, if_neg hmax, Option.not_isSome_iff_eq_none.1 h]

theorem on_sbWriteBytes (hmax : sb.maxlen ≠ 0) (bytes : Buffer) (start len : Int32) :
    (BuilderCall.sbWriteBytes bytes start len).on pg sb =
      if start.toInt < 0 ∨ sizeT (asInt32 (start.toInt + len.toInt)) > bytes.size then
        .raises "sb_write_bytes: index out of bound"
      else sbAppend sb len.toInt (.ok (bytes.slice start.toInt len.toInt.toNat)) := by
  simp only [BuilderCall.on, sbWriteBytes, if_neg hmax, sbAppend.eq_def]
  split_ifs
  · rfl
  · cases enlargeStringInfo sb len.toInt with
    | some err => rfl
    | none => rfl

theorem slice_eq {bytes : Buffer} {start len : Int32} (h : bytes.InBounds start len) :
    bytes.slice start.toInt len.toInt.toNat =
      (bytes.datum.data.drop start.toInt.toNat).take len.toInt.toNat := by
  obtain ⟨h1, h2, h3⟩ := h
  rw [Buffer.size] at h3
  refine List.ext_getElem ?_ fun i hi hi' => ?_
  · simp only [Buffer.slice, List.length_map, List.length_range, List.length_take,
      List.length_drop]
    omega
  · simp only [Buffer.slice, List.getElem_map, List.getElem_range, List.getElem_take,
      List.getElem_drop]
    rw [← bytes.payload (start.toInt.toNat + i) _ (List.getElem?_eq_getElem _)]
    congr 1
    omega

/-- The call on the contents raises if it is refused, and else appends its payload, with something
    behind it if the payload is not complete. -/
structure BuilderCall.Follows (pg : PgWchar) (c : BuilderCall) (sb : StringInfo) : Prop where
  refused : c.Refused pg sb → ∃ err, c.on pg sb = .raises err
  appended : ¬ c.Refused pg sb → ∃ extra,
    c.on pg sb = .returns { sb with data := sb.data ++ (c.payload pg ++ extra) } ∧
      (extra = [] ↔ c.Complete pg)

theorem follows_of_valid (hmax : sb.maxlen ≠ 0) (hv : c.Valid) (extra : List UInt8)
    (hon : c.on pg sb = sbAppend sb (c.needed pg) (.ok (c.payload pg ++ extra)))
    (hextra : extra = [] ↔ c.Complete pg) : c.Follows pg sb := by
  have hiff : c.Refused pg sb ↔ (enlargeStringInfo sb (c.needed pg)).isSome :=
    or_iff_right (not_not.2 hv)
  constructor
  · intro h
    rw [hon]
    exact sbAppend_refused hmax (hiff.1 h)
  · intro h
    refine ⟨extra, ?_, hextra⟩
    rw [hon, sbAppend_room hmax fun hs => h (hiff.2 hs)]

theorem follows_of_invalid (hv : ¬ c.Valid) (h : ∃ err, c.on pg sb = .raises err) :
    c.Follows pg sb := ⟨fun _ => h, fun hr => absurd (.inl hv) hr⟩

/-- **What each call does to the contents.** -/
theorem follows (hpg : pg.Bytes) (hc : c.Plain) (hmax : sb.maxlen ≠ 0) : c.Follows pg sb := by
  cases c with
  | sbWriteString t =>
    refine follows_of_valid hmax trivial [] ?_ ⟨fun _ => trivial, fun _ => rfl⟩
    rw [List.append_nil]; rfl
  | sbWriteSubstring t behind start len =>
    obtain ⟨extra, hextra, hle, heq⟩ :=
      sbWriteSubstring_chunks hpg sb hc.1 behind start len
    refine follows_of_valid hmax trivial extra heq ?_
    rw [← List.length_eq_zero_iff, hextra]
    show _ ↔ announced _ _ = _
    omega
  | sbWriteChar ch =>
    have heq := unicodeToServer_eq hpg ch.toUInt32
    by_cases hv : (BuilderCall.sbWriteChar ch).Valid
    · have hcp := (codePoint_iff ch).2 hv
      rw [if_pos hcp] at heq
      refine follows_of_valid hmax hv [] ?_ ⟨fun _ => trivial, fun _ => rfl⟩
      rw [List.append_nil, BuilderCall.on, sbWriteChar, heq, Except.map, untilNul_utf8Of hcp.1]
      rfl
    · rw [if_neg fun h => hv ((codePoint_iff ch).1 h)] at heq
      refine follows_of_invalid hv ?_
      rw [BuilderCall.on, sbWriteChar, heq, Except.map, sbAppend.eq_def, if_neg hmax]
      cases enlargeStringInfo sb maxUnicodeEquivalentString with
      | some err => exact ⟨_, rfl⟩
      | none => exact ⟨_, rfl⟩
  | sbWriteBytes bytes start len =>
    have hcheck := @check_passed_iff bytes start len
    by_cases hv : bytes.InBounds start len
    · refine follows_of_valid hmax hv [] ?_ ⟨fun _ => trivial, fun _ => rfl⟩
      obtain ⟨h1, h2, h3⟩ := id hv
      rw [on_sbWriteBytes hmax, if_neg (hcheck.2 ⟨h1, by omega, h3⟩), slice_eq hv,
        List.append_nil]
      show sbAppend sb _ _ = sbAppend sb (len.toInt.toNat : ℤ) _
      rw [Int.toNat_of_nonneg h2]
      rfl
    · refine follows_of_invalid hv ?_
      rw [on_sbWriteBytes hmax]
      split_ifs with hbad
      · exact ⟨_, rfl⟩
      · -- only a negative length gets past the check
        have hpass := hcheck.1 hbad
        have hneg : len.toInt < 0 := by
          by_contra hlen
          exact hv ⟨hpass.1, not_lt.1 hlen, hpass.2.2⟩
        exact sbAppend_refused hmax (by rw [enlargeStringInfo, if_pos hneg]; rfl)
  | sbWriteByte byte =>
    refine follows_of_valid hmax trivial [] ?_ ⟨fun _ => trivial, fun _ => rfl⟩
    rw [List.append_nil]; rfl

/-! ## Calls on the buffer -/

variable {b b₀ b' : Builder} {fresh : ℕ → UInt8}

theorem append_refines (fresh : ℕ → UInt8) (hb : b.Inv) (src : List UInt8) :
    b.Refines (b.appendBinaryStringInfoNT fresh src.length src)
      (sbAppend b.info src.length (.ok src)) :=
  Builder.enlarged_refines hb (.ok src) fun _ hb' hcontent _ _ =>
    Builder.store_refines hb' hcontent (by omega) b.info

/-- A request that is refused. -/
theorem append_refused (hb : b.Inv) {n : ℤ} {src : List UInt8} {err : String}
    (h : enlargeStringInfo b.info n = some err) :
    b.Refines (b.appendBinaryStringInfoNT fresh n src) (sbAppend b.info n (.ok src)) := by
  obtain ⟨h0, h0'⟩ := Builder.maxlen_ne_zero hb
  rw [Builder.appendBinaryStringInfoNT, Builder.enlarged, if_neg h0, sbAppend.eq_def, if_neg h0', h]
  exact ⟨hb, rfl, rfl⟩

theorem length_bytesAt (s : List UInt8) (behind : ℕ → UInt8) (n : ℕ) :
    (bytesAt s behind n).length = n := by
  rw [bytesAt, List.length_append, List.length_take, List.length_map, List.length_range]
  omega

/-- **The natives with a buffer refine those without.** -/
theorem call_refines (hpg : pg.Bytes) (hb : b.Inv) (fresh : ℕ → UInt8) (c : BuilderCall) :
    b.Refines (b.call pg fresh c) (c.on pg b.info) := by
  obtain ⟨h0, h0'⟩ := Builder.maxlen_ne_zero hb
  cases c with
  | sbWriteString t => exact append_refines fresh hb t.data
  | sbWriteSubstring t behind start len =>
    have h := append_refines fresh hb (bytesAt
      (t.data.drop (pg.mbcharcliplen start.toInt t.data)) behind
      (pg.mbcharcliplen len.toInt (t.data.drop (pg.mbcharcliplen start.toInt t.data))))
    rw [length_bytesAt] at h
    exact h
  | sbWriteChar ch =>
    refine Builder.enlarged_refines (n := 16) hb _ fun b' hb' hcontent hlen hroom =>
      Builder.storeChar_refines hb' hcontent (fun bs hbs => ?_) b.info
    rw [unicodeToServer_eq hpg] at hbs
    split_ifs at hbs
    cases hbs
    have := utf8Of_facts ch.toUInt32
    omega
  | sbWriteBytes bytes start len =>
    rw [on_sbWriteBytes h0', Builder.call, Builder.sbWriteBytes, if_neg h0]
    split_ifs
    · exact ⟨hb, rfl, rfl⟩
    · by_cases hneg : len.toInt < 0
      · exact append_refused hb (by rw [enlargeStringInfo, if_pos hneg])
      · have h := append_refines fresh hb (bytes.slice start.toInt len.toInt.toNat)
        rw [Buffer.slice, List.length_map, List.length_range,
          Int.toNat_of_nonneg (not_lt.1 hneg)] at h
        exact h
  | sbWriteByte byte =>
    exact Builder.enlarged_refines (n := 1) hb (.ok _) fun b' hb' hcontent hlen hroom =>
      Builder.store_refines hb' hcontent (by simp only [List.length_singleton]; omega) b.info

/-- **What a call is for**: it raises and leaves the contents, or it appends its payload to them. -/
structure Builder.Faithful (pg : PgWchar) (fresh : ℕ → UInt8) (b : Builder) (c : BuilderCall) : Prop where
  refused : c.Refused pg b.info →
    (∃ err, (b.call pg fresh c).1 = .raises err) ∧ (b.call pg fresh c).2.content = b.content
  appended : ¬ c.Refused pg b.info →
    (b.call pg fresh c).1 = .returns 0 ∧
      (b.call pg fresh c).2.content = b.content ++ c.payload pg

/-- The payload is complete, or the call is refused. -/
def BuilderCall.Meets (pg : PgWchar) (sb : StringInfo) (c : BuilderCall) : Prop :=
  c.Complete pg ∨ c.Refused pg sb

theorem faithful_iff (hpg : pg.Bytes) (hb : b.Inv) (hc : c.Plain) :
    Builder.Faithful pg fresh b c ↔ c.Meets pg b.info := by
  have hmax := (Builder.maxlen_ne_zero hb).2
  obtain ⟨hrefused, happended⟩ := follows hpg hc hmax
  have href := (call_refines hpg hb fresh c).2
  by_cases hr : c.Refused pg b.info
  · obtain ⟨err, herr⟩ := hrefused hr
    rw [herr] at href
    exact iff_of_true ⟨fun _ => ⟨⟨err, href.1⟩, href.2⟩, fun h => absurd hr h⟩ (.inr hr)
  · obtain ⟨extra, heq, hextra⟩ := happended hr
    rw [heq] at href
    rw [BuilderCall.Meets, or_iff_left hr, ← hextra]
    constructor
    · intro h
      have hcontent := (h.appended hr).2.symm.trans href.2
      rw [← List.append_assoc] at hcontent
      exact List.self_eq_append_right.1 hcontent
    · rintro rfl
      rw [List.append_nil] at href
      exact ⟨fun h => absurd h hr, fun _ => href⟩

/-- A call does not leave the buffer, and its result is 0 or an error. -/
theorem call_safe (hpg : pg.Bytes) (hb : b.Inv) :
    (b.call pg fresh c).2.Inv ∧ (b.call pg fresh c).1 ≠ .overruns := by
  obtain ⟨hinv, href⟩ := call_refines hpg hb fresh c
  refine ⟨hinv, fun h => ?_⟩
  cases hon : c.on pg b.info with
  | returns sb => rw [hon, h] at href; cases href.1
  | raises err => rw [hon, h] at href; cases href.1
  | throws err => rw [hon] at href; exact href
  | overruns => rw [hon] at href; exact href

/-! ## Runs -/

/-- The calls on one builder as steps; a buffer that grows gets new memory. -/
def BuilderStep (pg : PgWchar) (b : Builder) (l : BuilderCall × (ℕ → UInt8)) (b' : Builder) :
    Prop := b' = (b.call pg l.2 l.1).2

/-- The payloads of the calls that returned, in order. -/
def appendedBy (pg : PgWchar) : List (Builder × BuilderCall × (ℕ → UInt8)) → List UInt8
  | [] => []
  | (b, c, fresh) :: h =>
    appendedBy pg h ++ if (b.call pg fresh c).1 = .returns 0 then c.payload pg else []

/-- **What the builder is for**: its text, its bytes and its length are those of what was
    appended, unless that is too long for a value of its own. -/
structure Holds (b : Builder) (s : List UInt8) : Prop where
  content : b.content = s
  string : b.sbToString = .ofExcept (cstringIntoVarattObj s)
  bytes : b.sbToBytes = .ofExcept (cstringIntoVarattObj s)
  length : b.sbMblength = .returns s.length

theorem Builder.Inv.holds (hb : b.Inv) : Holds b b.content := by
  have h0 := (Builder.maxlen_ne_zero hb).1
  have hlen : ¬ b.data.length < b.len := by have := hb.room; have := hb.alloc; omega
  refine ⟨rfl, ?_, ?_, ?_⟩
  · rw [Builder.sbToString, Builder.copied, if_neg h0, if_neg hlen]
  · rw [Builder.sbToBytes, Builder.copied, if_neg h0, if_neg hlen]
  · rw [Builder.sbMblength, if_neg h0, Builder.length_content hb]

/-- A new builder is empty. -/
theorem sbNew_inv {sizeHint : Int32} (hnew : Builder.sbNew fresh sizeHint = .returns b₀) :
    b₀.Inv ∧ b₀.content = [] := by
  by_cases h1 : sizeHint.toInt < 1
  · simp only [Builder.sbNew, if_pos h1] at hnew
    rw [if_neg (by decide)] at hnew
    cases hnew
    exact ⟨⟨by simp [Builder.palloc], Nat.one_pos, show 1 ≤ maxAllocSize by decide⟩, rfl⟩
  · simp only [Builder.sbNew, if_neg h1] at hnew
    split_ifs at hnew with h2
    cases hnew
    refine ⟨⟨by simp [Builder.palloc], ?_, not_lt.1 h2⟩, rfl⟩
    show 0 < sizeHint.toInt.toNat
    omega

variable {h : List (Builder × BuilderCall × (ℕ → UInt8))}

/-- The contents, as long as every call was faithful. -/
theorem content_of_faithful (hr : Run (BuilderStep pg) b₀ h b)
    (hf : ∀ p ∈ h, Builder.Faithful pg p.2.2 p.1 p.2.1) : b.content = b₀.content ++ appendedBy pg h := by
  induction hr with
  | nil => rw [appendedBy, List.append_nil]
  | @snoc h b l b' hr hs ih =>
    obtain ⟨c, fresh⟩ := l
    have ih := ih fun p hp => hf p (List.mem_cons_of_mem _ hp)
    have hcall := hf _ List.mem_cons_self
    simp only at hcall
    rw [hs, appendedBy, ← List.append_assoc, ← ih]
    by_cases href : c.Refused pg b.info
    · obtain ⟨⟨err, herr⟩, hsame⟩ := hcall.refused href
      rw [if_neg (by rw [herr]; nofun), List.append_nil, hsame]
    · obtain ⟨hret, happ⟩ := hcall.appended href
      rw [if_pos hret, happ]

/-- **The string builder.**  No call leaves the buffer.  Every call appends its payload or raises,
    and the builder holds what was appended, exactly when no range of a text takes in a character
    that the text cuts off. -/
theorem builder_iff (hpg : pg.Bytes) {sizeHint : Int32}
    (hnew : Builder.sbNew fresh sizeHint = .returns b₀) (hr : Run (BuilderStep pg) b₀ h b)
    (hplain : Meets (fun _ l => l.1.Plain) h) :
    (Always Builder.Inv h b ∧ ∀ p ∈ h, (p.1.call pg p.2.2 p.2.1).1 ≠ .overruns) ∧
      (((∀ p ∈ h, Builder.Faithful pg p.2.2 p.1 p.2.1) ∧ Holds b (appendedBy pg h)) ↔
        Meets (fun b l => l.1.Meets pg b.info) h) := by
  obtain ⟨hinv, hempty⟩ := sbNew_inv hnew
  have halways : Always Builder.Inv h b := by
    refine hr.always hinv ?_
    rintro s ⟨c, fresh⟩ s' hs rfl
    exact (call_safe hpg hs).1
  refine ⟨⟨halways, fun p hp => (call_safe hpg (halways.2 p hp)).2⟩, ?_⟩
  constructor
  · rintro ⟨hf, -⟩ p hp
    exact (faithful_iff hpg (halways.2 p hp) (hplain p hp)).1 (hf p hp)
  · intro hm
    have hf : ∀ p ∈ h, Builder.Faithful pg p.2.2 p.1 p.2.1 := fun p hp =>
      (faithful_iff hpg (halways.2 p hp) (hplain p hp)).2 (hm p hp)
    refine ⟨hf, ?_⟩
    have hcontent := content_of_faithful hr hf
    rw [hempty, List.nil_append] at hcontent
    have hholds := halways.last.holds
    rwa [hcontent] at hholds

/-! ### Two runs -/

theorem utf8Server_bytes : utf8Server.Bytes where
  unicodeToUtf8 _ _ := rfl
  unicodeUtf8len _ _ := rfl
  mblen_cons _ _ := rfl

/-- New memory that is all zeros. -/
def zeros : ℕ → UInt8 := fun _ => 0

/-- A builder with room for 32 bytes. -/
def emptyBuilder : Builder := ⟨List.replicate 32 0, 0, 32⟩

theorem emptyBuilder_new : Builder.sbNew zeros 32 = .returns emptyBuilder := by decide

/-- An e with an acute accent, appended to it. -/
def accentRun : List (Builder × BuilderCall × (ℕ → UInt8)) :=
  [(emptyBuilder, .sbWriteChar 0xE9, zeros)]

theorem accentRun_holds : ∃ b, Run (BuilderStep utf8Server) emptyBuilder accentRun b ∧
    Holds b (appendedBy utf8Server accentRun) := by
  have hr : Run (BuilderStep utf8Server) emptyBuilder accentRun _ := .snoc .nil rfl
  refine ⟨_, hr, ((builder_iff utf8Server_bytes emptyBuilder_new hr ?_).2.2 ?_).2⟩
  · rintro p hp
    obtain rfl := List.mem_singleton.1 hp
    trivial
  · rintro p hp
    obtain rfl := List.mem_singleton.1 hp
    exact .inl trivial

/-- The first of three bytes. -/
def cutText : Varatt := ⟨true, [0xE2], by decide⟩

theorem selected_cutText : selected utf8Server cutText 0 1 = [[0xE2]] := by
  have hlen : utf8Server.byteLen 0xE2 = 3 := by decide
  show ((chunks utf8Server.byteLen [0xE2]).drop 0).take 1 = _
  rw [chunks_cons, hlen]
  rfl

/-- The character is copied with two bytes from behind the text. -/
def cutRun : List (Builder × BuilderCall × (ℕ → UInt8)) :=
  [(emptyBuilder, .sbWriteSubstring cutText (fun _ => 0x58) 0 1, zeros)]

theorem cutRun_unfaithful : ∃ b, Run (BuilderStep utf8Server) emptyBuilder cutRun b ∧
    Meets (fun _ l => l.1.Plain) cutRun ∧
    ¬ ∀ p ∈ cutRun, Builder.Faithful utf8Server p.2.2 p.1 p.2.1 := by
  have hplain : (BuilderCall.sbWriteSubstring cutText (fun _ => 0x58) 0 1).Plain := by
    exact ⟨by decide, by decide, by decide⟩
  refine ⟨_, .snoc .nil rfl, ?_, fun hf => ?_⟩
  · rintro p hp
    obtain rfl := List.mem_singleton.1 hp
    exact hplain
  · have hcut := (faithful_iff utf8Server_bytes (sbNew_inv emptyBuilder_new).1 hplain).1
      (hf _ List.mem_cons_self)
    rcases hcut with h | h | h
    · rw [BuilderCall.Complete, selected_cutText] at h
      exact absurd h (by decide)
    · exact h trivial
    · rw [BuilderCall.needed, selected_cutText] at h
      exact absurd h (by decide)

end Rustica
