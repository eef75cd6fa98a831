/-
  The bounds of a buffer that the guest hands to a native.

  Six natives take a bytea with a start and a length of the guest's choice.  The host is safe when
  whatever bytes they touch lie in the range asked for and the range in the payload (`Confined`).
  Four of them check nothing and hand the range on to the kernel or to a parser.  The other two
  compare the sum, which wraps, so that a negative length passes the check: the string builder
  refuses it then, and `bytes_decode` does too, except for ASCII, where the scan comes first.
  `confined_iff` is the exact condition for each.
-/
import Rustica.Native

namespace Rustica

/-! ## Memory and what is touched in it -/

/-- The value as a `size_t`. -/
def sizeT (x : ℤ) : ℕ := (x % 18446744073709551616).toNat

/-- A bytea and the memory it lies in, by the offset from the start of the payload. -/
structure Buffer where
  datum : Varatt
  mem : ℤ → UInt8
  payload : ∀ i : ℕ, ∀ b ∈ datum.data[i]?, mem i = b

/-- `VARSIZE_ANY_EXHDR`. -/
def Buffer.size (buf : Buffer) : ℕ := buf.datum.data.length

/-- The bytes from `lo` on. -/
def Buffer.slice (buf : Buffer) (lo : ℤ) (count : ℕ) : List UInt8 :=
  (List.range count).map fun i : ℕ => buf.mem (lo + i)

/-- Some bytes that are read or written in turn. -/
structure Access where
  lo : ℤ
  count : ℕ
deriving DecidableEq

/-- The end of a native, and what it touched of the buffer. -/
structure Outcome (α : Type) where
  result : Native α
  touched : List Access
deriving DecidableEq

/-! ## The natives -/

/-- A connection after the wait: the events that woke it, and what `recv` or `send` returns for a
    buffer of so many bytes. -/
structure Io where
  latchSet : Bool
  socketClosed : Bool
  call : ℕ → ℤ
  le : ∀ n, call n ≤ n

/-- What is common to `env_recv` and `env_send`. -/
def ioCall (io : Io) (start len : Int32) : Outcome ℤ :=
  if io.latchSet then ⟨.returns (-1), []⟩
  else if io.socketClosed then ⟨.returns 0, []⟩
  else
    let rv := io.call (sizeT len.toInt)
    ⟨.returns (asInt32 rv), [⟨start.toInt, rv.toNat⟩]⟩

/-- `env_recv`, after the wait for `WL_SOCKET_READABLE | WL_SOCKET_CLOSED`. -/
def envRecv : Io → Int32 → Int32 → Outcome ℤ := ioCall

/-- `env_send`, after the wait for `WL_SOCKET_WRITEABLE | WL_SOCKET_CLOSED`. -/
def envSend : Io → Int32 → Int32 → Outcome ℤ := ioCall

/-- A parser that is given so many bytes: how many of them it goes through, and how it ends. -/
structure Parser where
  takes : ℕ → ℕ
  le : ∀ n, takes n ≤ n
  result : ℕ → Native ℤ

/-- What is common to the two natives that parse. -/
def parserCall (p : Parser) (start len : Int32) : Outcome ℤ :=
  ⟨p.result (sizeT len.toInt), [⟨start.toInt, p.takes (sizeT len.toInt)⟩]⟩

/-- `env_llhttp_execute`, with `llhttp_execute`. -/
def envLlhttpExecute : Parser → Int32 → Int32 → Outcome ℤ := parserCall

/-- `rst_json_parse`, with the lexer of `pg_parse_json`. -/
def rstJsonParse : Parser → Int32 → Int32 → Outcome ℤ := parserCall

/-- What `bytes_decode` uses of `mb/pg_wchar.h`. -/
structure PgEncoding where
  /-- `pg_char_to_encoding` -/
  charToEncoding : List UInt8 → ℤ
  /-- `pg_any_to_server` of a string that is not empty: an error, the string itself, or another -/
  convert : List UInt8 → ℤ → Except String (Option (List UInt8))

/-- `PG_UTF8`. -/
def pgUtf8 : ℤ := 6

/-- `pg_any_to_server`, which returns at once for an empty string, or one of negative length. -/
def PgEncoding.anyToServer (pg : PgEncoding) (buf : Buffer) (start length enc : ℤ) :
    Except String (Option (List UInt8)) × List Access :=
  if length ≤ 0 then (.ok none, [])
  else (pg.convert (buf.slice start length.toNat) enc, [⟨start, length.toNat⟩])

/-- The letters of a C string, in lower case. -/
def lowerCstring (s : List UInt8) : List UInt8 :=
  (s.takeWhile (· ≠ 0)).map fun b => if 0x41 ≤ b ∧ b ≤ 0x5A then b + 0x20 else b

/-- `pg_strcasecmp(encoding, "ascii") == 0`. -/
def isAsciiName (encoding : List UInt8) : Bool := lowerCstring encoding = [97, 115, 99, 105, 105]

/-- How many bytes from `lo` on have their high bit clear, of `len`. -/
def asciiRun (mem : ℤ → UInt8) (lo : ℤ) : ℕ → ℕ
  | 0 => 0
  | len + 1 => if 0x80 ≤ mem lo then 0 else asciiRun mem (lo + 1) len + 1

/-- `ensure_ascii`: the bytes it reads, and whether it comes to the end. -/
def ensureAscii (mem : ℤ → UInt8) (lo : ℤ) (len : ℕ) : Access × Bool :=
  let run := asciiRun mem lo len
  (⟨lo, min (run + 1) len⟩, run = len)

/-- `cstring_into_varatt_obj`, from the buffer. -/
def copyOut (buf : Buffer) (lo : ℤ) (llen : ℕ) : Outcome Varatt :=
  -- the length is checked before anything is copied
  if llen > varattMax - varhdrsz then ⟨.raises "varlena_new: input too long", []⟩
  else ⟨.ofExcept (cstringIntoVarattObj (buf.slice lo llen)), [⟨lo, llen⟩]⟩

/-- `bytes_decode` after the conversion. -/
def decoded (isAscii : Bool) (buf : Buffer) (start length : ℤ) :
    Except String (Option (List UInt8)) → Outcome Varatt
  | .error err => ⟨.raises err, []⟩
  | .ok none =>
    if isAscii then
      let (scan, ok) := ensureAscii buf.mem start (sizeT length)
      if ok then
        let copied := copyOut buf start (sizeT length)
        ⟨copied.result, scan :: copied.touched⟩
      else ⟨.raises "bytes_decode: input is not ASCII", [scan]⟩
    else copyOut buf start (sizeT length)
  | .ok (some str) =>
    -- another string, up to its NUL
    if isAscii ∧ (str.takeWhile (· ≠ 0)).any (0x80 ≤ ·) then
      ⟨.raises "bytes_decode: input is not ASCII", []⟩
    else ⟨.ofExcept (cstringIntoVarattObj (str.takeWhile (· ≠ 0))), []⟩

def bytesDecode (pg : PgEncoding) (encoding : List UInt8) (buf : Buffer) (start length : Int32) :
    Outcome Varatt :=
  let isAscii := isAsciiName encoding
  let enc := if isAscii then pgUtf8 else pg.charToEncoding (encoding.takeWhile (· ≠ 0))
  if enc < 0 then ⟨.raises "bytes_decode: invalid encoding name", []⟩
  else if start.toInt < 0 ∨ sizeT (asInt32 (start.toInt + length.toInt)) > buf.size then
    ⟨.raises "bytes_decode: index out of bound", []⟩
  else
    let str := pg.anyToServer buf start.toInt length.toInt enc
    let rv := decoded isAscii buf start.toInt length.toInt str.1
    ⟨rv.result, str.2 ++ rv.touched⟩

/-- `MaxAllocSize`. -/
def maxAllocSize : ℕ := 0x3FFFFFFF

/-- A string builder; one that reads a text has `maxlen` 0. -/
structure StringInfo where
  data : List UInt8
  maxlen : ℤ

/-- `enlargeStringInfo`: the error, if there is one. -/
def enlargeStringInfo (sb : StringInfo) (needed : ℤ) : Option String :=
  if needed < 0 then some "invalid string enlargement request size"
  else if needed.toNat ≥ maxAllocSize - sb.data.length then
    some "string buffer exceeds maximum allowed length"
  else none

/-- `sb_write_bytes`, with the new contents of the builder. -/
def sbWriteBytes (sb : StringInfo) (buf : Buffer) (start len : Int32) : Outcome (List UInt8) :=
  if sb.maxlen = 0 then ⟨.raises "StringInfo is read-only", []⟩
  else if start.toInt < 0 ∨ sizeT (asInt32 (start.toInt + len.toInt)) > buf.size then
    ⟨.raises "sb_write_bytes: index out of bound", []⟩
  else
    match enlargeStringInfo sb len.toInt with
    | some err => ⟨.raises err, []⟩
    | none => ⟨.returns (sb.data ++ buf.slice start.toInt len.toInt.toNat),
        [⟨start.toInt, len.toInt.toNat⟩]⟩

/-! ## The bounds -/

/-- A native that takes a buffer, with the rest of its arguments and what it runs into. -/
inductive BufferNative where
  | recv (io : Io)
  | send (io : Io)
  | llhttpExecute (p : Parser)
  | jsonParse (p : Parser)
  | decode (pg : PgEncoding) (encoding : List UInt8)
  | write (sb : StringInfo)

/-- What a native touches of the buffer. -/
def BufferNative.touched (f : BufferNative) (buf : Buffer) (start len : Int32) : List Access :=
  match f with
  | recv io => (envRecv io start len).touched
  | send io => (envSend io start len).touched
  | llhttpExecute p => (envLlhttpExecute p start len).touched
  | jsonParse p => (rstJsonParse p start len).touched
  | decode pg encoding => (bytesDecode pg encoding buf start len).touched
  | write sb => (sbWriteBytes sb buf start len).touched

/-- The range lies in the payload. -/
def Buffer.InBounds (buf : Buffer) (start len : Int32) : Prop :=
  0 ≤ start.toInt ∧ 0 ≤ len.toInt ∧ start.toInt + len.toInt ≤ buf.size

/-- **Safe**: whatever byte is touched, it is in the range, and the range in the payload. -/
def Confined (buf : Buffer) (start len : Int32) (touched : List Access) : Prop :=
  ∀ a ∈ touched, ∀ b : ℤ, a.lo ≤ b → b < a.lo + a.count →
    buf.InBounds start len ∧ start.toInt ≤ b ∧ b < start.toInt + len.toInt

/-- When a native is safe: the kernel or the parser goes through no byte, or the range is right; and
    no negative length is passed off as the length of an ASCII string. -/
def BufferNative.Meets (f : BufferNative) (buf : Buffer) (start len : Int32) : Prop :=
  match f with
  | recv io | send io =>
    io.latchSet ∨ io.socketClosed ∨ io.call (sizeT len.toInt) ≤ 0 ∨ buf.InBounds start len
  | llhttpExecute p | jsonParse p => p.takes (sizeT len.toInt) = 0 ∨ buf.InBounds start len
  | decode _ encoding => ¬ (isAsciiName encoding ∧ len.toInt < 0 ∧ 0 ≤ start.toInt + len.toInt ∧
      start.toInt + len.toInt ≤ buf.size)
  | write _ => True

variable {buf : Buffer} {start len : Int32} {as : List Access} {k : ℕ}

theorem sizeT_of_nonneg {x : ℤ} (h : 0 ≤ x) (h' : x < 2147483648) : (sizeT x : ℤ) = x := by
  rw [sizeT]; omega

theorem sizeT_of_neg {x : ℤ} (h : -2147483648 ≤ x) (h' : x < 0) :
    18446744071562067968 ≤ sizeT x := by
  rw [sizeT]; omega

theorem confined_nil : Confined buf start len [] := fun _ ha => absurd ha List.not_mem_nil

theorem confined_of_inBounds (hb : buf.InBounds start len)
    (h : ∀ a ∈ as, start.toInt ≤ a.lo ∧ a.lo + a.count ≤ start.toInt + len.toInt) :
    Confined buf start len as := by
  intro a ha b hlo hhi
  obtain ⟨h1, h2⟩ := h a ha
  exact ⟨hb, by omega, by omega⟩

/-- One run of bytes from the start, no longer than the length as the callee takes it. -/
theorem confined_singleton (hk : k ≤ sizeT len.toInt) :
    Confined buf start len [⟨start.toInt, k⟩] ↔ k = 0 ∨ buf.InBounds start len := by
  constructor
  · intro h
    by_cases h0 : k = 0
    · exact .inl h0
    · have hlt : start.toInt < start.toInt + (k : ℤ) := by omega
      exact .inr (h ⟨start.toInt, k⟩ (List.mem_singleton_self _) _ le_rfl hlt).1
  · rintro (rfl | hb)
    · intro a ha b hlo hhi
      obtain rfl := List.mem_singleton.1 ha
      simp only at hlo hhi
      omega
    · refine confined_of_inBounds hb fun a ha => ?_
      obtain rfl := List.mem_singleton.1 ha
      have hlen := sizeT_of_nonneg hb.2.1 (int32_range len).2
      exact ⟨le_rfl, by simp only; omega⟩

theorem confined_ioCall (io : Io) : Confined buf start len (ioCall io start len).touched ↔
    io.latchSet ∨ io.socketClosed ∨ io.call (sizeT len.toInt) ≤ 0 ∨ buf.InBounds start len := by
  have hle := io.le (sizeT len.toInt)
  rw [ioCall]
  split_ifs with h1 h2
  · exact iff_of_true confined_nil (.inl h1)
  · exact iff_of_true confined_nil (.inr (.inl h2))
  · simp only [h1, h2, Bool.false_eq_true, false_or]
    rw [confined_singleton (by omega), Int.toNat_eq_zero]

theorem confined_parserCall (p : Parser) :
    Confined buf start len (parserCall p start len).touched ↔
      p.takes (sizeT len.toInt) = 0 ∨ buf.InBounds start len :=
  confined_singleton (p.le _)

/-- The check that two of the natives make: a sum that wraps is negative, and refused; a negative
    length is not. -/
theorem check_passed_iff : ¬ (start.toInt < 0 ∨
    sizeT (asInt32 (start.toInt + len.toInt)) > buf.size) ↔
    0 ≤ start.toInt ∧ 0 ≤ start.toInt + len.toInt ∧ start.toInt + len.toInt ≤ buf.size := by
  have hn : buf.size < 1073741820 := buf.datum.length_data
  have hs := int32_range start
  have hl := int32_range len
  simp only [sizeT, asInt32]
  omega

/-- The string builder has a check of its own for a negative length. -/
theorem confined_sbWriteBytes (sb : StringInfo) :
    Confined buf start len (sbWriteBytes sb buf start len).touched := by
  rw [sbWriteBytes]
  split_ifs with h1 h2
  · exact confined_nil
  · exact confined_nil
  · obtain ⟨hs, -, hle⟩ := check_passed_iff.1 h2
    cases he : enlargeStringInfo sb len.toInt with
    | some err => exact confined_nil
    | none =>
      have hlen : 0 ≤ len.toInt := by
        by_contra hneg
        rw [enlargeStringInfo, if_pos (not_le.1 hneg)] at he
        cases he
      refine confined_of_inBounds ⟨hs, hlen, hle⟩ fun a ha => ?_
      obtain rfl := List.mem_singleton.1 ha
      exact ⟨le_rfl, by simp only; omega⟩

theorem PgEncoding.anyToServer_touched {pg : PgEncoding} {lo n enc : ℤ} {a : Access}
    (ha : a ∈ (pg.anyToServer buf lo n enc).2) : a.lo = lo ∧ a.count = n.toNat := by
  rw [anyToServer] at ha
  split_ifs at ha
  · exact absurd ha List.not_mem_nil
  · obtain rfl := List.mem_singleton.1 ha
    exact ⟨rfl, rfl⟩

/-- All that `bytes_decode` reads of a good range is in it. -/
theorem decoded_touched {isAscii : Bool} {str : Except String (Option (List UInt8))} {a : Access}
    {lo n : ℤ} (ha : a ∈ (decoded isAscii buf lo n str).touched) :
    a.lo = lo ∧ a.count ≤ sizeT n := by
  have hcopy : ∀ a ∈ (copyOut buf lo (sizeT n)).touched, a.lo = lo ∧ a.count ≤ sizeT n := by
    intro a ha
    rw [copyOut] at ha
    split_ifs at ha
    · exact absurd ha List.not_mem_nil
    · obtain rfl := List.mem_singleton.1 ha
      exact ⟨rfl, le_rfl⟩
  have hscan : (ensureAscii buf.mem lo (sizeT n)).1.lo = lo ∧
      (ensureAscii buf.mem lo (sizeT n)).1.count ≤ sizeT n := ⟨rfl, min_le_right _ _⟩
  match str with
  | .error err => exact absurd ha List.not_mem_nil
  | .ok (some str) =>
    rw [decoded] at ha
    split_ifs at ha
    · exact absurd ha List.not_mem_nil
    · exact absurd ha List.not_mem_nil
  | .ok none =>
    rw [decoded] at ha
    split_ifs at ha
    · simp only at ha
      split_ifs at ha
      · rcases List.mem_cons.1 ha with rfl | ha
        · exact hscan
        · exact hcopy a ha
      · obtain rfl := List.mem_singleton.1 ha
        exact hscan
    · exact hcopy a ha

/-- **A negative length** stops at the copy; the scan for ASCII comes before that, and reads at
    least one byte. -/
theorem decoded_negative (isAscii : Bool) (hlen : len.toInt < 0) :
    Confined buf start len
      (decoded isAscii buf start.toInt len.toInt (.ok none)).touched ↔ isAscii = false := by
  have hbig := sizeT_of_neg (int32_range len).1 hlen
  have hcopy : copyOut buf start.toInt (sizeT len.toInt) =
      ⟨.raises "varlena_new: input too long", []⟩ := by
    rw [copyOut, if_pos (by simp only [varattMax, varhdrsz]; omega)]
  cases isAscii with
  | false =>
    refine iff_of_true ?_ rfl
    rw [decoded, if_neg Bool.false_ne_true, hcopy]
    exact confined_nil
  | true =>
    refine iff_of_false (fun h => ?_) Bool.true_eq_false_eq_False
    have hscan : (ensureAscii buf.mem start.toInt (sizeT len.toInt)).1 ∈
        (decoded true buf start.toInt len.toInt (.ok none)).touched := by
      rw [decoded, if_pos rfl]
      simp only
      split_ifs
      · exact List.mem_cons_self
      · exact List.mem_cons_self
    have hcount : 0 < (ensureAscii buf.mem start.toInt (sizeT len.toInt)).1.count := by
      simp only [ensureAscii]; omega
    have hb := h _ hscan start.toInt le_rfl (by
      show start.toInt < start.toInt + _
      omega)
    exact absurd hb.1.2.1 (not_le.2 hlen)

theorem confined_bytesDecode (pg : PgEncoding) (encoding : List UInt8) :
    Confined buf start len (bytesDecode pg encoding buf start len).touched ↔
      ¬ (isAsciiName encoding ∧ len.toInt < 0 ∧ 0 ≤ start.toInt + len.toInt ∧
        start.toInt + len.toInt ≤ buf.size) := by
  simp only [bytesDecode]
  by_cases henc : (if isAsciiName encoding = true then pgUtf8
      else pg.charToEncoding (encoding.takeWhile (· ≠ 0))) < 0
  · rw [if_pos henc]
    refine iff_of_true confined_nil fun h => ?_
    rw [if_pos h.1] at henc
    exact absurd henc (by decide)
  rw [if_neg henc]
  by_cases hcheck : start.toInt < 0 ∨ sizeT (asInt32 (start.toInt + len.toInt)) > buf.size
  · rw [if_pos hcheck]
    refine iff_of_true confined_nil fun h => ?_
    exact check_passed_iff.2 ⟨by omega, h.2.2⟩ hcheck
  rw [if_neg hcheck]
  obtain ⟨hs, hsum⟩ := check_passed_iff.1 hcheck
  by_cases hlen : len.toInt < 0
  · rw [PgEncoding.anyToServer, if_pos hlen.le]
    simp only [List.nil_append]
    rw [decoded_negative _ hlen]
    simp [hlen, hsum]
  · refine iff_of_true (confined_of_inBounds ⟨hs, not_lt.1 hlen, hsum.2⟩ fun a ha => ?_)
      (fun h => hlen h.2.1)
    have hn := sizeT_of_nonneg (not_lt.1 hlen) (int32_range len).2
    rcases List.mem_append.1 ha with ha | ha
    · obtain ⟨h1, h2⟩ := PgEncoding.anyToServer_touched ha
      omega
    · obtain ⟨h1, h2⟩ := decoded_touched ha
      omega

/-- **The bounds of each native**: exactly when the bytes that it touches are those it may. -/
theorem confined_iff (f : BufferNative) (buf : Buffer) (start len : Int32) :
    Confined buf start len (f.touched buf start len) ↔ f.Meets buf start len := by
  cases f with
  | recv io => exact confined_ioCall io
  | send io => exact confined_ioCall io
  | llhttpExecute p => exact confined_parserCall p
  | jsonParse p => exact confined_parserCall p
  | decode pg encoding => exact confined_bytesDecode pg encoding
  | write sb => exact iff_of_true (confined_sbWriteBytes sb) trivial

/-- A payload of four bytes, and nothing but zeros around it. -/
def fourBytes : Buffer where
  datum := ⟨true, [0, 0, 0, 0], by decide⟩
  mem _ := 0
  payload i b hb := by
    have h := List.mem_of_getElem? (Option.mem_def.1 hb)
    simp only [List.mem_cons, List.not_mem_nil, or_false, or_self] at h
    exact h.symm

/-- A peer that has sent more than is asked for. -/
def readyIo : Io := ⟨false, false, fun n => n, fun _ => le_rfl⟩

/-- Eight bytes are received into the payload of four. -/
theorem fourBytes_recv :
    ¬ Confined fourBytes 0 8 ((BufferNative.recv readyIo).touched fourBytes 0 8) := by
  intro h
  have hb := h ⟨0, 8⟩ (by decide) 0 (by decide) (by decide)
  exact absurd hb.1.2.2 (by decide)

end Rustica
