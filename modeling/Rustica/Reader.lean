/-
  Reading a text character by character, and writing it back.

  `si_read_text` opens a text as it lies in memory, with the cursor behind its header, and
  `si_read_char` steps over one character at a time, or over one byte where there is no character.
  It stays in the text and comes to its end whatever the bytes are; of a well-formed text it gives
  the code points, U+0000 among them.  `sb_write_char` takes all of them back but U+0000
  (`reader_writer_iff`).
-/
import Rustica.Builder

namespace Rustica

open Utf Exec

/-! ## The reader -/

/-- The size of the header. -/
def Varatt.header (t : Varatt) : ℕ := if t.isShort then varhdrszShort else varhdrsz

/-- A `StringInfo` that is read-only: positions count from the header on. -/
structure Reader where
  text : Varatt
  cursor : ℕ

/-- The end of a read, and what it touched of the text. -/
structure ReadChar where
  result : ℤ
  reader : Reader
  touched : List Access

namespace Reader

def sbReadText (t : Varatt) : Reader := ⟨t, t.header⟩

/-- `sb->len`. -/
def len (r : Reader) : ℕ := r.text.data.length + r.text.header

/-- The bytes from the cursor on. -/
def rest (r : Reader) : List UInt8 := r.text.data.drop (r.cursor - r.text.header)

variable (pg : PgWchar)

def sbReadChar (r : Reader) : ReadChar :=
  if r.cursor ≥ r.len then ⟨-1, r, []⟩
  else
    let ch := pg.mblen r.rest
    if ch > 0 ∧ r.cursor + ch ≤ r.len then
      ⟨asInt32 ((pg.mb2wcharWithLen (r.rest.take ch.toNat) ++ [0]).headD 63).toNat,
        { r with cursor := r.cursor + ch.toNat }, [⟨r.cursor, 1⟩, ⟨r.cursor, ch.toNat⟩]⟩
    -- an invalid sequence: one byte is skipped
    else ⟨63, { r with cursor := r.cursor + 1 }, [⟨r.cursor, 1⟩]⟩

/-- The reader after some reads. -/
def after : ℕ → Reader → Reader
  | 0, r => r
  | n + 1, r => after n (r.sbReadChar pg).reader

/-- The result of the read after `n` others. -/
def read (n : ℕ) (r : Reader) : ℤ := ((r.after pg n).sbReadChar pg).result

/-! ## Any bytes -/

/-- The cursor is in the text or at its end. -/
def Inside (r : Reader) : Prop := r.text.header ≤ r.cursor ∧ r.cursor ≤ r.len

/-- **One read** of whatever bytes: it touches the text only, and at the end it gives -1. -/
structure Safe (r : Reader) (rc : ReadChar) : Prop where
  inside : rc.reader.Inside
  text : rc.reader.text = r.text
  touched : ∀ a ∈ rc.touched, (r.text.header : ℤ) ≤ a.lo ∧ a.lo + a.count ≤ r.len
  eof : r.cursor = r.len → rc.result = -1 ∧ rc.reader = r
  progress : r.cursor < r.len → r.cursor < rc.reader.cursor

variable {pg} {r : Reader} {t : Varatt} {c : Char} {cs : List Char} {n : ℕ}

theorem sbReadChar_safe (pg : PgWchar) (hr : r.Inside) : r.Safe (r.sbReadChar pg) := by
  obtain ⟨hlo, hhi⟩ := hr
  simp only [sbReadChar]
  split_ifs with hend hch
  · refine ⟨⟨hlo, hhi⟩, rfl, fun a ha => absurd ha List.not_mem_nil, fun _ => ⟨rfl, rfl⟩, ?_⟩
    intro h; omega
  · refine ⟨⟨?_, ?_⟩, rfl, fun a ha => ?_, fun h => by omega, fun _ => ?_⟩
    · show r.text.header ≤ r.cursor + _
      omega
    · show r.cursor + _ ≤ r.len
      omega
    · simp only [List.mem_cons, List.not_mem_nil, or_false] at ha
      rcases ha with rfl | rfl
      · simp only; omega
      · simp only; omega
    · show r.cursor < r.cursor + _
      omega
  · refine ⟨⟨?_, ?_⟩, rfl, fun a ha => ?_, fun h => by omega, fun _ => ?_⟩
    · show r.text.header ≤ r.cursor + 1
      omega
    · show r.cursor + 1 ≤ r.len
      omega
    · obtain rfl := List.mem_singleton.1 ha
      simp only; omega
    · show r.cursor < r.cursor + 1
      omega

theorem inside_sbReadText (t : Varatt) : (sbReadText t).Inside :=
  ⟨le_refl _, Nat.le_add_left ..⟩

/-- Each read comes closer to the end, until it is there. -/
theorem after_rule (pg : PgWchar) (hr : r.Inside) (n : ℕ) :
    (r.after pg n).Inside ∧ (r.after pg n).text = r.text ∧
    ((r.after pg n).cursor = r.len ∨ r.cursor + n ≤ (r.after pg n).cursor) := by
  induction n generalizing r with
  | zero => exact ⟨hr, rfl, .inr (le_refl _)⟩
  | succ n ih =>
    have hs := sbReadChar_safe pg hr
    obtain ⟨hin, htext, hcur⟩ := ih hs.inside
    have hlen : (r.sbReadChar pg).reader.len = r.len := by rw [len, len, hs.text]
    refine ⟨hin, htext.trans hs.text, ?_⟩
    rw [hlen] at hcur
    rcases hcur with h | h
    · exact .inl h
    · rcases Nat.lt_or_ge r.cursor r.len with hlt | hge
      · have := hs.progress hlt
        exact .inr (by rw [after]; omega)
      · -- already at the end
        have hend : (r.after pg (n + 1)).cursor ≤ r.len := by
          have := hin.2
          rwa [len, htext, hs.text] at this
        have := (hs.eof (le_antisymm hr.2 hge)).2
        rw [this] at h
        exact .inl (by rw [after] at hend ⊢; rw [this] at hend ⊢; omega)

/-- **Whatever the bytes are**, no read leaves the text, and there are at most as many characters as
    bytes. -/
theorem reader_safe (t : Varatt) (n : ℕ) :
    (∀ a ∈ (((sbReadText t).after pg n).sbReadChar pg).touched,
      (t.header : ℤ) ≤ a.lo ∧ a.lo + a.count ≤ t.header + t.data.length) ∧
    (t.data.length ≤ n → (sbReadText t).read pg n = -1) := by
  obtain ⟨hin, htext, hcur⟩ := after_rule pg (inside_sbReadText t) n
  have hs := sbReadChar_safe pg hin
  have hlen : ((sbReadText t).after pg n).len = t.data.length + t.header := by rw [len, htext]; rfl
  constructor
  · intro a ha
    obtain ⟨h1, h2⟩ := hs.touched a ha
    rw [htext] at h1
    rw [hlen] at h2
    exact ⟨h1, by push_cast at h2; omega⟩
  · intro hn
    refine (hs.eof ?_).1
    have hhi := hin.2
    rw [hlen] at hhi ⊢
    rcases hcur with h | h
    · exact h
    · have : t.header + n ≤ ((sbReadText t).after pg n).cursor := h
      omega

/-! ## The characters of a text -/

/-- What is left to read is the text of some characters. -/
def At (r : Reader) (cs : List Char) : Prop := r.Inside ∧ r.rest = utf8 cs

theorem At.cursor (h : r.At cs) : r.cursor + (utf8 cs).length = r.len := by
  obtain ⟨⟨hlo, hhi⟩, hrest⟩ := h
  rw [← hrest, rest, List.length_drop]
  rw [len] at hhi ⊢
  omega

theorem At.nil (h : r.At []) : (r.sbReadChar pg).result = -1 ∧ (r.sbReadChar pg).reader = r :=
  (sbReadChar_safe pg h.1).eof (by have := h.cursor; simpa using this)

/-- **One character**, U+0000 too. -/
theorem At.cons (hpg : pg.Utf8) (h : r.At (c :: cs)) :
    (r.sbReadChar pg).result = c.toNat ∧ (r.sbReadChar pg).reader.At cs := by
  have hsize := c.utf8Size_pos
  have henc := String.length_utf8EncodeChar c
  have hcur := h.cursor
  have hmax := toNat_cases (c := c)
  rw [utf8_cons, List.length_append, henc] at hcur
  have hmblen : pg.mblen r.rest = c.utf8Size := by rw [h.2, utf8_cons, hpg.mblen]
  have htake : r.rest.take c.utf8Size = String.utf8EncodeChar c := by
    rw [h.2, utf8_cons, ← henc, List.take_left]
  have hread : r.sbReadChar pg = ⟨c.toNat, { r with cursor := r.cursor + c.utf8Size },
      [⟨r.cursor, 1⟩, ⟨r.cursor, c.utf8Size⟩]⟩ := by
    rw [sbReadChar, if_neg (by omega)]
    simp only [hmblen]
    rw [if_pos (by omega), Int.toNat_natCast, htake, headD_mb2wchar hpg, Char.toNat_val,
      asInt32_of_range (by omega) (by omega)]
  rw [hread]
  refine ⟨rfl, ⟨?_, ?_⟩, ?_⟩
  · show r.text.header ≤ r.cursor + _
    have := h.1.1
    omega
  · show r.cursor + _ ≤ r.len
    omega
  · have hlo := h.1.1
    show r.text.data.drop (r.cursor + c.utf8Size - r.text.header) = utf8 cs
    rw [show r.cursor + c.utf8Size - r.text.header = r.cursor - r.text.header + c.utf8Size by omega,
      ← List.drop_drop]
    show r.rest.drop c.utf8Size = _
    rw [h.2, utf8_cons, ← henc, List.drop_left]

/-- **The code points in order, and then -1 for ever.** -/
theorem At.read (hpg : pg.Utf8) (h : r.At cs) (n : ℕ) :
    r.read pg n = (cs.map fun c => (c.toNat : ℤ)).getD n (-1) := by
  induction n generalizing r cs with
  | zero =>
    cases cs with
    | nil => exact h.nil.1
    | cons c cs => exact (h.cons hpg).1
  | succ n ih =>
    cases cs with
    | nil =>
      show (r.sbReadChar pg).reader.read pg n = _
      rw [h.nil.2, ih h]; rfl
    | cons c cs => exact ih (h.cons hpg).2

theorem at_sbReadText (ht : t.data = utf8 cs) : (sbReadText t).At cs := by
  refine ⟨inside_sbReadText t, ?_⟩
  show t.data.drop (t.header - t.header) = _
  rw [Nat.sub_self, List.drop_zero, ht]

end Reader

/-! ## Writing them back -/

variable {pg : PgWchar} {b b₀ : Builder} {c : Char} {cs : List Char} {fresh : ℕ → UInt8}
  {h : List (Builder × BuilderCall × (ℕ → UInt8))}

/-- `sb_write_char` of a value that was read. -/
def writeBack (v : ℤ) : BuilderCall := .sbWriteChar (Int32.ofInt v)

/-- All calls return. -/
def AllReturn (pg : PgWchar) (h : List (Builder × BuilderCall × (ℕ → UInt8))) : Prop :=
  ∀ p ∈ h, (p.1.call pg p.2.2 p.2.1).1 = .returns 0

/-- The text has no U+0000, and there is room to encode its last character. -/
def Rewritable (cs : List Char) : Prop :=
  nul ∉ cs ∧ (utf8 cs.dropLast).length + maxUnicodeEquivalentString.toNat < maxAllocSize

theorem toInt_ofChar (c : Char) : (Int32.ofInt c.toNat).toInt = c.toNat := by
  have hc := toNat_cases (c := c)
  have h0 : (0 : ℤ) ≤ c.toNat := Int.natCast_nonneg _
  exact Int32.toInt_ofInt_of_le (by omega) (by omega)

theorem toUInt32_ofChar (c : Char) : (Int32.ofInt c.toNat).toUInt32 = c.val := by
  have h := toNat_toUInt32 (Int32.ofInt c.toNat)
  have hc := toNat_cases (c := c)
  rw [toInt_ofChar, asUint32] at h
  rw [← UInt32.toNat_inj, Char.toNat_val]
  omega

/-- **One character** is written back unless it is U+0000 or there is no room. -/
theorem writeBack_rule (hpg : pg.Bytes) (hb : b.Inv) (c : Char) (fresh : ℕ → UInt8) :
    ((b.call pg fresh (writeBack c.toNat)).1 = .returns 0 ↔
      c ≠ nul ∧ b.content.length + maxUnicodeEquivalentString.toNat < maxAllocSize) ∧
    ((b.call pg fresh (writeBack c.toNat)).1 = .returns 0 →
      (b.call pg fresh (writeBack c.toNat)).2.content =
        b.content ++ String.utf8EncodeChar c) := by
  have hf : Builder.Faithful pg fresh b (writeBack c.toNat) :=
    (faithful_iff hpg hb (show (writeBack c.toNat).Plain from trivial)).2 (.inl trivial)
  have hpay : (writeBack c.toNat).payload pg = String.utf8EncodeChar c := by
    show utf8Of (Int32.ofInt c.toNat).toUInt32 = _
    rw [toUInt32_ofChar]
    exact utf8Server_unicode.utf8 c
  have hvalid : (writeBack c.toNat).Valid ↔ c ≠ nul := by
    have hmax := toNat_cases (c := c)
    show 0 < (Int32.ofInt c.toNat).toInt ∧ (Int32.ofInt c.toNat).toInt ≤ 0x10FFFF ↔ _
    rw [toInt_ofChar, Ne, ← toNat_eq_zero_iff]
    omega
  have hroom : (enlargeStringInfo b.info ((writeBack c.toNat).needed pg)).isSome ↔
      ¬ b.content.length + maxUnicodeEquivalentString.toNat < maxAllocSize := by
    show (enlargeStringInfo b.info (maxUnicodeEquivalentString.toNat : ℤ)).isSome ↔ _
    rw [enlargeStringInfo, if_neg (by omega), Int.toNat_natCast]
    show (if _ ≥ maxAllocSize - b.content.length then some _ else none).isSome = true ↔ _
    split_ifs with hfull
    · exact iff_of_true rfl (by omega)
    · exact iff_of_false Bool.false_ne_true (by omega)
  have hiff : (writeBack c.toNat).Refused pg b.info ↔
      ¬ (c ≠ nul ∧ b.content.length + maxUnicodeEquivalentString.toNat < maxAllocSize) := by
    rw [BuilderCall.Refused, hvalid, hroom, not_and_or]
  by_cases href : (writeBack c.toNat).Refused pg b.info
  · obtain ⟨⟨err, herr⟩, -⟩ := hf.refused href
    rw [herr]
    have hne : Native.raises err ≠ .returns (0 : ℤ) := fun h => by cases h
    exact ⟨iff_of_false hne (hiff.1 href), fun h => (hne h).elim⟩
  · obtain ⟨hret, happ⟩ := hf.appended href
    rw [hpay] at happ
    exact ⟨iff_of_true hret (not_not.1 fun hn => href (hiff.2 hn)), fun _ => happ⟩

/-- **A run that writes characters back** returns throughout exactly when it can. -/
theorem allReturn_iff (hpg : pg.Bytes) (hb₀ : b₀.Inv) (hempty : b₀.content = [])
    (hr : Run (BuilderStep pg) b₀ h b)
    (hcalls : h.reverse.map (fun p => p.2.1) = cs.map fun c => writeBack c.toNat) :
    b.Inv ∧ (AllReturn pg h ↔ Rewritable cs) ∧ (AllReturn pg h → b.content = utf8 cs) := by
  induction hr generalizing cs with
  | nil =>
    obtain rfl : cs = [] := by simpa using hcalls.symm
    refine ⟨hb₀, iff_of_true (fun p hp => absurd hp List.not_mem_nil) ⟨List.not_mem_nil, ?_⟩,
      fun _ => hempty⟩
    decide
  | @snoc h b l b' hr hs ih =>
    obtain ⟨call, fresh⟩ := l
    obtain ⟨cs, c, rfl⟩ : ∃ ds d, cs = ds ++ [d] := by
      rcases List.eq_nil_or_concat cs with rfl | ⟨ds, d, rfl⟩
      · simp at hcalls
      · exact ⟨ds, d, by simp⟩
    rw [List.reverse_cons, List.map_append, List.map_append, List.map_singleton,
      List.map_singleton] at hcalls
    obtain ⟨hinit, hlast⟩ := List.append_inj' hcalls rfl
    obtain rfl : call = writeBack c.toNat := List.singleton_inj.1 hlast
    obtain ⟨hinv, hiff, hcontent⟩ := ih hinit
    obtain ⟨hret, happ⟩ := writeBack_rule hpg hinv c fresh
    have hsplit : AllReturn pg ((b, writeBack c.toNat, fresh) :: h) ↔
        AllReturn pg h ∧ (b.call pg fresh (writeBack c.toNat)).1 = .returns 0 := by
      rw [AllReturn, List.forall_mem_cons, and_comm]; rfl
    have hrew : Rewritable (cs ++ [c]) ↔ Rewritable cs ∧ c ≠ nul ∧
        (utf8 cs).length + maxUnicodeEquivalentString.toNat < maxAllocSize := by
      have hle : (utf8 cs.dropLast).length ≤ (utf8 cs).length := by
        rw [List.dropLast_eq_take, ← take_utf8, List.length_take]
        exact min_le_right ..
      simp only [Rewritable, List.mem_append, List.mem_singleton, not_or, List.dropLast_concat,
        Ne, eq_comm (a := c)]
      constructor
      · rintro ⟨⟨h1, h2⟩, h3⟩
        exact ⟨⟨h1, by omega⟩, h2, h3⟩
      · rintro ⟨⟨h1, -⟩, h2, h3⟩
        exact ⟨⟨h1, h2⟩, h3⟩
    refine ⟨?_, ?_, fun hall => ?_⟩
    · rw [hs]
      exact (call_safe hpg hinv).1
    · rw [hsplit, hrew, hret]
      constructor
      · rintro ⟨hall, hc, hroom⟩
        rw [hcontent hall] at hroom
        exact ⟨hiff.1 hall, hc, hroom⟩
      · rintro ⟨hcs, hc, hroom⟩
        have hall := hiff.2 hcs
        rw [← hcontent hall] at hroom
        exact ⟨hall, hc, hroom⟩
    · obtain ⟨hall, hone⟩ := hsplit.1 hall
      have hnew := happ hone
      rw [hs, hnew, hcontent hall, utf8_append]
      simp

/-- Any calls can be made, one after the other. -/
theorem exists_builder_run (pg : PgWchar) (b₀ : Builder) (cs : List BuilderCall) :
    ∃ h b, Run (BuilderStep pg) b₀ h b ∧ h.reverse.map (fun p => p.2.1) = cs := by
  induction cs using List.reverseRecOn with
  | nil => exact ⟨[], b₀, .nil, rfl⟩
  | append_singleton cs c ih =>
    obtain ⟨h, b, hr, hcs⟩ := ih
    exact ⟨_, _, hr.snoc (a := (c, zeros)) rfl, by simp [hcs]⟩

/-- The reads of a text give its code points, and then -1 for ever. -/
def ReadsBack (pg : PgWchar) (t : Varatt) (cs : List Char) : Prop :=
  ∀ n, (Reader.sbReadText t).read pg n = (cs.map fun c => (c.toNat : ℤ)).getD n (-1)

/-- What was read, written to a new builder in the same order, makes the text again. -/
def WritesBack (pg : PgWchar) (t : Varatt) (cs : List Char) : Prop :=
  ∀ fresh sizeHint b₀ h b, Builder.sbNew fresh sizeHint = .returns b₀ →
    Run (BuilderStep pg) b₀ h b →
    h.reverse.map (fun p => p.2.1) =
      (List.range cs.length).map (fun n => writeBack ((Reader.sbReadText t).read pg n)) →
    AllReturn pg h ∧ ∃ t', b.sbToString = .returns t' ∧ t'.data = t.data

theorem reads_eq {t : Varatt} (hread : ReadsBack pg t cs) :
    (List.range cs.length).map (fun n => writeBack ((Reader.sbReadText t).read pg n)) =
      cs.map fun c => writeBack c.toNat := by
  refine List.ext_getElem (by simp) fun i hi hi' => ?_
  rw [List.length_map] at hi'
  rw [List.getElem_map, List.getElem_range, List.getElem_map, hread i]
  congr 1
  simp [hi']

theorem writesBack_iff (hpg : pg.Bytes) {t : Varatt} (ht : t.data = utf8 cs)
    (hread : ReadsBack pg t cs) : WritesBack pg t cs ↔ Rewritable cs := by
  rw [WritesBack, reads_eq hread]
  constructor
  · intro hw
    obtain ⟨h, b, hr, hcalls⟩ := exists_builder_run pg emptyBuilder
      (cs.map fun c => writeBack c.toNat)
    obtain ⟨hinv, hempty⟩ := sbNew_inv emptyBuilder_new
    exact (allReturn_iff hpg hinv hempty hr hcalls).2.1.1
      (hw _ _ _ _ _ emptyBuilder_new hr hcalls).1
  · intro hcs fresh sizeHint b₀ h b hnew hr hcalls
    obtain ⟨hinv, hempty⟩ := sbNew_inv hnew
    obtain ⟨hb, hiff, hcontent⟩ := allReturn_iff hpg hinv hempty hr hcalls
    have hall := hiff.2 hcs
    have hfits : (utf8 cs).length ≤ varattMax - varhdrsz := by
      have := t.length_data
      rw [ht] at this
      simp only [varattMax, varhdrsz]
      omega
    obtain ⟨t', ht', hdata⟩ := cstringIntoVarattObj_rule hfits
    refine ⟨hall, t', ?_, by rw [hdata, ht]⟩
    rw [hb.holds.string, hcontent hall, ht']; rfl

end Rustica
