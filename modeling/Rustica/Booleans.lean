/-
  Booleans as texts.

  `rst_parse_bool` copies the text to a C string, and then reads the copy as if it were a text value:
  the first bytes of the text are taken for the header of a varlena value, which says how much there
  is and whether it is compressed.  So almost no boolean is read, and none that `rst_boolout` writes
  (`boolout_lost`).

  What Postgres does with the bytes is a parameter (`PgBool`).
-/
import Rustica.Lib.Varlena
import Rustica.Native

namespace Rustica.Booleans

open Varlena

/-! ## Booleans in Postgres -/

/-- An ASCII letter in lower case. -/
def lower (c : UInt8) : UInt8 := if 0x41 ≤ c ∧ c ≤ 0x5A then c + 0x20 else c

/-- The words for a boolean. -/
def words : List (List UInt8 × Bool) := [
  ([0x74, 0x72, 0x75, 0x65], true), -- true
  ([0x66, 0x61, 0x6C, 0x73, 0x65], false), -- false
  ([0x79, 0x65, 0x73], true), -- yes
  ([0x6E, 0x6F], false), -- no
  ([0x6F, 0x6E], true), -- on
  ([0x6F, 0x66, 0x66], false)] -- off

/-- The bytes spell a boolean: a digit, the beginning of a word, or a word up to a NUL, where the
    comparison ends.  A byte is looked at even if the length is 0. -/
def Spells (mem : List UInt8) (len : ℕ) (b : Bool) : Prop :=
  (len = 1 ∧ mem.head? = some (if b then 0x31 else 0x30)) ∨
  ∃ w, (w, b) ∈ words ∧
    ((max len 1 ≤ mem.length ∧ (mem.take (max len 1)).map lower <+: w) ∨
      (w.length < len ∧ w ++ [0] <+: mem.map lower))

/-- What Postgres does with the bytes at a pointer, all that may be read. -/
structure PgBool where
  /-- `parse_bool_with_len`, with the length; `none` where it reads behind the bytes. -/
  parseBoolWithLen : List UInt8 → ℕ → Option (Option Bool)
  /-- `detoast_attr`, of a compressed value. -/
  detoastAttr : List UInt8 → Native (List UInt8)
  parse_spells : ∀ {mem len b}, parseBoolWithLen mem len = some (some b) → Spells mem len b
  /-- What is behind the bytes that are read does not matter. -/
  parse_append : ∀ {mem len r} rest, parseBoolWithLen mem len = some r →
    parseBoolWithLen (mem ++ rest) len = some r
  /-- A compressed value has a header of eight bytes. -/
  detoast_header : ∀ {mem : List UInt8}, mem.length < 8 → detoastAttr mem = .overruns
  detoast_append : ∀ {mem} rest, detoastAttr mem ≠ .overruns →
    detoastAttr (mem ++ rest) = detoastAttr mem

variable (pg : PgBool) {mem data t : List UInt8} {len : ℕ} {b : Bool}

/-- `DatumGetTextPP`, with the `VARDATA_ANY` and the `VARSIZE_ANY_EXHDR` of what it returns.  What an
    external value points to is not among the bytes. -/
def PgBool.datumGetTextPP (pg : PgBool) : List UInt8 → Native (List UInt8 × ℕ)
  | [] => .overruns
  | c :: mem =>
    match form c with
    | .short => .returns (mem, shortSize c - varhdrszShort)
    | .long =>
      if (c :: mem).length < varhdrsz then .overruns
      else .returns ((c :: mem).drop varhdrsz,
        (asUint32 (longSize ((c :: mem).take varhdrsz) - varhdrsz)).toNat)
    | .compressed => (pg.detoastAttr (c :: mem)).bind fun data => .returns (data, data.length)
    | .external => .overruns

/-- `TextDatumGetCString`. -/
def textDatumGetCString (t : Varatt) : List UInt8 := t.data ++ [0]

def ofBool (b : Bool) : Int32 := if b then 1 else 0

/-- The call of `parse_bool_with_len`, and what becomes of its answer. -/
def PgBool.parsed (pg : PgBool) (data : List UInt8) (len : ℕ) : Native Int32 :=
  match pg.parseBoolWithLen data len with
  | some (some result) => .returns (ofBool result)
  | some none => .raises "parse_bool: invalid input"
  | none => .overruns

/-- What `rst_parse_bool` does with the copy. -/
def PgBool.parseBool (pg : PgBool) (jsstr : List UInt8) : Native Int32 :=
  (pg.datumGetTextPP jsstr).bind fun text => pg.parsed text.1 text.2

def PgBool.rstParseBool (pg : PgBool) (t : Varatt) : Native Int32 :=
  pg.parseBool (textDatumGetCString t)

/-- `boolout`. -/
def boolout (b : Bool) : List UInt8 := if b then [0x74] else [0x66]

def rstBoolout (boolean : Int32) : Except String Varatt :=
  cstringIntoVarattObj (boolout (boolean ≠ 0))

/-! ## What is asked of it -/

/-- `parse_bool_with_len` takes the bytes for the boolean. -/
def PgBool.Accepts (pg : PgBool) (t : List UInt8) (b : Bool) : Prop :=
  pg.parseBoolWithLen t t.length = some (some b)

/-- The text is read as what it says, and nothing but its bytes are: they suffice. -/
structure PgBool.Parses (pg : PgBool) (t : Varatt) : Prop where
  accepted : ∀ b, pg.Accepts t.data b → pg.rstParseBool t = .returns (ofBool b)
  refused : (∀ b, ¬ pg.Accepts t.data b) → ∃ err, pg.rstParseBool t = .raises err
  within : pg.parseBool t.data ≠ .overruns

/-- What the bytes are as a varlena value is within them, and is refused. -/
def PgBool.Refuses (pg : PgBool) (t : List UInt8) : Prop :=
  (∃ err, pg.datumGetTextPP t = .raises err) ∨
  ∃ data len, pg.datumGetTextPP t = .returns (data, len) ∧ pg.parseBoolWithLen data len = some none

/-- A boolean that is also the compressed form of the same boolean. -/
def PgBool.Fixed (pg : PgBool) (t : List UInt8) : Prop :=
  ∃ b c mem data, t = c :: mem ∧ form c = .compressed ∧ pg.detoastAttr t = .returns data ∧
    pg.Accepts t b ∧ pg.Accepts data b

/-- Refused both as a text and as the value that its bytes are, unless it happens to be a boolean as
    both. -/
def PgBool.Unharmed (pg : PgBool) (t : List UInt8) : Prop :=
  ((∀ b, ¬ pg.Accepts t b) ∧ pg.Refuses t) ∨ pg.Fixed t

/-! ## The bytes of a text -/

theorem ofBool_injective : Function.Injective ofBool := by decide

theorem lower_eq {c d : UInt8} (h : lower c = d) : c = d ∨ c + 0x20 = d := by
  unfold lower at h
  split_ifs at h
  · exact .inr h
  · exact .inl h

/-- Bytes in lower case that begin with a word do so in one of two ways. -/
theorem first_of_lower {c d : UInt8} (h : lower c = d) : c = d ∨ c = d - 0x20 :=
  (lower_eq h).imp_right fun h => by rw [← h]; exact (UInt8.add_sub_cancel c 0x20).symm

theorem Spells.ne_nil (h : Spells mem len b) : mem ≠ [] := by
  rintro rfl
  rcases h with ⟨-, h⟩ | ⟨w, -, ⟨h, -⟩ | ⟨-, h⟩⟩
  · cases h
  · exact absurd h (by simp)
  · have := h.length_le
    simp at this

theorem not_spells_nil : ¬ Spells [] len b := fun h => h.ne_nil rfl

/-- The first byte, in lower case, of what spells a boolean. -/
def initials : List UInt8 := [0x74, 0x66, 0x79, 0x6E, 0x6F, 0x31, 0x30]

theorem head_of_words : ∀ w ∈ words, ∃ d ∈ initials, ∃ l, w.1 = d :: l := by
  simp [words, initials]

theorem Spells.head {c : UInt8} (h : Spells (c :: mem) len b) : lower c ∈ initials := by
  rcases h with ⟨-, h⟩ | ⟨w, hw, h⟩
  · cases h
    cases b <;> decide
  obtain ⟨d, hd, l, rfl : w = d :: l⟩ := head_of_words _ hw
  have hc : lower c = d := by
    rcases h with ⟨-, h⟩ | ⟨-, h⟩
    · rw [show max len 1 = (max len 1 - 1) + 1 by omega, List.take_succ_cons, List.map_cons] at h
      exact (List.cons_prefix_cons.1 h).1
    · exact (List.cons_prefix_cons.1 h).1.symm
  exact hc ▸ hd

/-- With a length above that of the words there is a NUL behind the word. -/
theorem Spells.nul (h : Spells mem len b) (hlen : 5 < len) :
    ∃ w ∈ words, w.1 ++ [0] <+: mem.map lower := by
  rcases h with ⟨rfl, -⟩ | ⟨w, hw, ⟨hle, h⟩ | ⟨-, h⟩⟩
  · exact absurd hlen (by decide)
  · have hmax : ∀ w ∈ words, w.1.length ≤ 5 := by decide
    have h5 : w.length ≤ 5 := hmax _ hw
    have := h.length_le
    rw [List.length_map, List.length_take] at this
    omega
  · exact ⟨_, hw, h⟩

/-! ## A text that is read as a value -/

section Frame

variable {pg}

theorem PgBool.parsed_append (rest : List UInt8) (h : pg.parsed data len ≠ .overruns) :
    pg.parsed (data ++ rest) len = pg.parsed data len := by
  unfold PgBool.parsed at h ⊢
  cases hr : pg.parseBoolWithLen data len with
  | none =>
    rw [hr] at h
    exact absurd rfl h
  | some r => rw [pg.parse_append rest hr]

/-- What is behind the bytes that are read does not matter. -/
theorem PgBool.parseBool_append (rest : List UInt8) (h : pg.parseBool mem ≠ .overruns) :
    pg.parseBool (mem ++ rest) = pg.parseBool mem := by
  cases mem with
  | nil => exact absurd rfl h
  | cons c mem =>
    unfold PgBool.parseBool PgBool.datumGetTextPP at h ⊢
    rw [List.cons_append]
    cases hform : form c with
    | short =>
      simp only [hform] at h ⊢
      exact parsed_append rest h
    | long =>
      simp only [hform] at h ⊢
      split_ifs at h with hlen
      · exact absurd rfl h
      have hlen' : ¬ (c :: mem ++ rest).length < varhdrsz := by
        rw [List.length_append]
        omega
      rw [← List.cons_append, if_neg hlen, if_neg hlen',
        List.drop_append_of_le_length (not_lt.1 hlen), List.take_append_of_le_length (not_lt.1 hlen)]
      exact parsed_append rest h
    | compressed =>
      simp only [hform] at h ⊢
      have heq : pg.detoastAttr (c :: mem) ≠ .overruns →
          pg.detoastAttr (c :: mem ++ rest) = pg.detoastAttr (c :: mem) := pg.detoast_append rest
      rw [List.cons_append] at heq
      rw [heq]
      intro hover
      rw [hover] at h
      exact h rfl
    | external =>
      simp only [hform] at h
      exact absurd rfl h

end Frame

/-! ## A boolean that is read as a value -/

/-- What is behind the bytes in lower case of a word, or of a word with a NUL. -/
theorem Spells.cases {c : UInt8} (h : Spells (c :: mem) (mem.length + 1) b) :
    (mem = [] ∧ c = if b then 0x31 else 0x30) ∨
    ∃ d w, (d :: w, b) ∈ words ∧ lower c = d ∧ (mem.map lower <+: w ∨ w ++ [0] <+: mem.map lower) := by
  rcases h with ⟨hlen, h⟩ | ⟨w, hw, h⟩
  · exact .inl ⟨List.eq_nil_of_length_eq_zero (Nat.succ_injective hlen), Option.some_injective _ h⟩
  obtain ⟨d, -, l, rfl : w = d :: l⟩ := head_of_words _ hw
  refine .inr ⟨d, l, hw, ?_⟩
  rcases h with ⟨-, h⟩ | ⟨-, h⟩
  · rw [show max (mem.length + 1) 1 = mem.length + 1 by omega, List.take_of_length_le (by simp),
      List.map_cons, List.cons_prefix_cons] at h
    exact ⟨h.1, .inl h.2⟩
  · rw [List.map_cons, List.cons_append, List.cons_prefix_cons] at h
    exact ⟨h.1.symm, .inr h.2⟩

theorem long_of_t {c : UInt8} (h : lower c = 0x74) : form c = .long := by
  rcases first_of_lower h with rfl | rfl
  · rfl
  · rfl

theorem compressed_of_f {c : UInt8} (h : lower c = 0x66) : form c = .compressed := by
  rcases first_of_lower h with rfl | rfl
  · rfl
  · rfl

theorem compressed_of_n {c : UInt8} (h : lower c = 0x6E) : form c = .compressed := by
  rcases first_of_lower h with rfl | rfl
  · rfl
  · rfl

theorem short_of_y {c : UInt8} (h : lower c = 0x79) : form c = .short := by
  rcases first_of_lower h with rfl | rfl
  · rfl
  · rfl

/-- The sizes are 55 and 39. -/
theorem short_of_o {c : UInt8} (h : lower c = 0x6F) :
    form c = .short ∧ 5 < shortSize c - varhdrszShort := by
  rcases first_of_lower h with rfl | rfl
  · decide
  · decide

/-- The value behind the first letter of `on` or `off`, which has a length above that of the words. -/
theorem o_not_spells {w : List UInt8} (hw : w = [0x6E] ∨ w = [0x66, 0x66])
    (hrest : mem.map lower <+: w ∨ w ++ [0] <+: mem.map lower) (hlen : 5 < len) :
    ¬ Spells mem len b := by
  intro h
  obtain ⟨w', hw', hnul⟩ := h.nul hlen
  rcases hrest with hrest | ⟨r, hr⟩
  · have hle := (hnul.trans hrest).length_le
    have hmin : ∀ w ∈ words, 2 ≤ w.1.length := by decide
    have hw2 := hmin _ hw'
    have hw : w.length ≤ 2 := by
      rcases hw with rfl | rfl
      · exact Nat.le_succ 1
      · exact le_rfl
    rw [List.length_append, List.length_singleton] at hle
    omega
  · rw [← hr] at hnul
    revert w'
    rcases hw with rfl | rfl
    · simp [words]
    · simp [words]

/-- **A boolean is no value of a boolean**, unless it is a compressed one. -/
theorem compressed_of_spells {c : UInt8} {b' : Bool}
    (h : Spells (c :: mem) (mem.length + 1) b)
    (hget : pg.datumGetTextPP (c :: mem) = .returns (data, len)) (hdata : Spells data len b') :
    form c = .compressed := by
  rcases h.cases with ⟨rfl, rfl⟩ | ⟨d, w, hw, hc, hrest⟩
  · cases b
    · cases hget
    · cases hget
      exact absurd hdata not_spells_nil
  simp only [words, List.mem_cons, Prod.mk.injEq, List.cons.injEq, List.not_mem_nil, or_false] at hw
  rcases hw with ⟨⟨rfl, rfl⟩, -⟩ | ⟨⟨rfl, rfl⟩, -⟩ | ⟨⟨rfl, rfl⟩, -⟩ | ⟨⟨rfl, rfl⟩, -⟩ |
    ⟨⟨rfl, rfl⟩, -⟩ | ⟨⟨rfl, rfl⟩, -⟩
  · -- `true`: behind the header of four bytes there is nothing, or the NUL
    simp only [PgBool.datumGetTextPP, long_of_t hc] at hget
    split_ifs at hget
    cases hget
    have hlower : (mem.drop 3).map lower <+: [] ∨ [0] <+: (mem.drop 3).map lower := by
      rw [List.map_drop]
      rcases hrest with hrest | hrest
      · exact .inl (hrest.drop 3)
      · exact .inr (hrest.drop 3)
    obtain ⟨e, rest, he⟩ := List.exists_cons_of_ne_nil hdata.ne_nil
    have hdrop : (c :: mem).drop varhdrsz = mem.drop 3 := rfl
    rw [hdrop] at he hdata
    rw [he] at hlower hdata
    have hhead := hdata.head
    rcases hlower with hlower | hlower
    · simp at hlower
    · rw [List.map_cons, List.cons_prefix_cons] at hlower
      rw [← hlower.1] at hhead
      exact absurd hhead (by decide)
  · exact compressed_of_f hc
  · -- `yes`: what is left begins with `e`
    simp only [PgBool.datumGetTextPP, short_of_y hc] at hget
    cases hget
    obtain ⟨e, rest, rfl⟩ := List.exists_cons_of_ne_nil hdata.ne_nil
    have hhead := hdata.head
    have he : lower e = 0x65 := by
      rcases hrest with hrest | hrest
      · exact (List.cons_prefix_cons.1 hrest).1
      · exact (List.cons_prefix_cons.1 hrest).1.symm
    rw [he] at hhead
    exact absurd hhead (by decide)
  · exact compressed_of_n hc
  · simp only [PgBool.datumGetTextPP, (short_of_o hc).1] at hget
    cases hget
    exact absurd hdata (o_not_spells (.inl rfl) hrest (short_of_o hc).2)
  · simp only [PgBool.datumGetTextPP, (short_of_o hc).1] at hget
    cases hget
    exact absurd hdata (o_not_spells (.inr rfl) hrest (short_of_o hc).2)

/-! ## When a text is read -/

section Parses

variable {pg}

theorem PgBool.parsed_eq_returns :
    pg.parsed data len = .returns (ofBool b) ↔ pg.parseBoolWithLen data len = some (some b) := by
  unfold PgBool.parsed
  cases pg.parseBoolWithLen data len with
  | none => simp
  | some r =>
    cases r with
    | none => simp
    | some b' => simp [ofBool_injective.eq_iff]

theorem PgBool.parsed_raises :
    (∃ err, pg.parsed data len = .raises err) ↔ pg.parseBoolWithLen data len = some none := by
  unfold PgBool.parsed
  cases pg.parseBoolWithLen data len with
  | none => simp
  | some r => cases r <;> simp

theorem PgBool.parseBool_returns :
    pg.parseBool mem = .returns (ofBool b) ↔
      ∃ data len, pg.datumGetTextPP mem = .returns (data, len) ∧
        pg.parseBoolWithLen data len = some (some b) := by
  unfold PgBool.parseBool
  cases pg.datumGetTextPP mem with
  | returns text =>
    rw [Native.bind, PgBool.parsed_eq_returns]
    refine ⟨fun h => ⟨_, _, rfl, h⟩, ?_⟩
    rintro ⟨data, len, h, hparse⟩
    cases h
    exact hparse
  | throws err => simp [Native.bind]
  | raises err => simp [Native.bind]
  | overruns => simp [Native.bind]

theorem PgBool.parseBool_raises :
    (∃ err, pg.parseBool mem = .raises err) ↔ pg.Refuses mem := by
  unfold PgBool.parseBool PgBool.Refuses
  cases pg.datumGetTextPP mem with
  | returns text =>
    rw [Native.bind, PgBool.parsed_raises]
    refine ⟨fun h => .inr ⟨_, _, rfl, h⟩, ?_⟩
    rintro (⟨err, h⟩ | ⟨data, len, h, hparse⟩)
    · cases h
    · cases h
      exact hparse
  | throws err => simp [Native.bind]
  | raises err => simp [Native.bind]
  | overruns => simp [Native.bind]

theorem PgBool.datumGetTextPP_compressed {c : UInt8} (hform : form c = .compressed) :
    pg.datumGetTextPP (c :: mem) = .returns (data, len) ↔
      pg.detoastAttr (c :: mem) = .returns data ∧ len = data.length := by
  simp only [PgBool.datumGetTextPP, hform]
  cases pg.detoastAttr (c :: mem) with
  | returns value =>
    simp only [Native.bind, Native.returns.injEq, Prod.mk.injEq]
    exact and_congr_right fun h => by rw [h]; exact eq_comm
  | throws err => simp [Native.bind]
  | raises err => simp [Native.bind]
  | overruns => simp [Native.bind]

theorem PgBool.Accepts.unique {b' : Bool} (h : pg.Accepts t b) (h' : pg.Accepts t b') : b = b' :=
  Option.some_injective _ (Option.some_injective _ (h.symm.trans h'))

end Parses

/-- **Texts are read as what they say** if and only if they are refused both as a text and as the
    value that their bytes are, or happen to be the same boolean as both. -/
theorem parses_iff (t : Varatt) : pg.Parses t ↔ pg.Unharmed t.data := by
  have hcopy : pg.parseBool t.data ≠ .overruns → pg.rstParseBool t = pg.parseBool t.data :=
    PgBool.parseBool_append [0]
  constructor
  · rintro ⟨hacc, href, hin⟩
    rw [hcopy hin] at hacc href
    by_cases h : ∃ b, pg.Accepts t.data b
    · obtain ⟨b, hb⟩ := h
      obtain ⟨data, len, hget, hparse⟩ := PgBool.parseBool_returns.1 (hacc b hb)
      generalize t.data = bytes at hb hget
      cases bytes with
      | nil => cases hget
      | cons c mem =>
        have hform := compressed_of_spells pg (pg.parse_spells hb) hget (pg.parse_spells hparse)
        obtain ⟨hdet, rfl⟩ := (PgBool.datumGetTextPP_compressed hform).1 hget
        exact .inr ⟨b, c, mem, data, rfl, hform, hdet, hb, hparse⟩
    · rw [not_exists] at h
      exact .inl ⟨h, PgBool.parseBool_raises.1 (href h)⟩
  · rintro (⟨hno, href⟩ | ⟨b, c, mem, data, ht, hform, hdet, hb, hparse⟩)
    · obtain ⟨err, herr⟩ := PgBool.parseBool_raises.2 href
      have hin : pg.parseBool t.data ≠ .overruns := by rw [herr]; exact nofun
      refine ⟨fun b hb => absurd hb (hno b), fun _ => ⟨err, ?_⟩, hin⟩
      rw [hcopy hin, herr]
    · have hget : pg.datumGetTextPP t.data = .returns (data, data.length) := by
        rw [ht] at hdet ⊢
        exact (PgBool.datumGetTextPP_compressed hform).2 ⟨hdet, rfl⟩
      have hret := PgBool.parseBool_returns.2 ⟨data, _, hget, hparse⟩
      have hin : pg.parseBool t.data ≠ .overruns := by rw [hret]; exact nofun
      refine ⟨fun b' hb' => ?_, fun hno => absurd hb (hno b), hin⟩
      rw [hcopy hin, hret, hb.unique hb']

/-- **No text of a boolean is read back**: the header of a value is longer. -/
theorem boolout_lost (boolean : Int32) :
    ∃ t, rstBoolout boolean = .ok t ∧ pg.rstParseBool t = .overruns := by
  have hlen : ∀ b, (boolout b).length = 1 := by decide
  obtain ⟨t, ht, hdata⟩ := cstringIntoVarattObj_rule
    (show (boolout (boolean ≠ 0)).length ≤ varattMax - varhdrsz by rw [hlen]; decide)
  refine ⟨t, ht, ?_⟩
  unfold PgBool.rstParseBool textDatumGetCString
  rw [hdata, boolout]
  split_ifs
  · rfl
  · have hshort : pg.detoastAttr [0x66, 0] = .overruns := pg.detoast_header (by decide)
    have hform : form 0x66 = .compressed := by decide
    simp only [List.singleton_append, PgBool.parseBool, PgBool.datumGetTextPP, hform, hshort,
      Native.bind]

/-! ## The comparison of Postgres -/

/-- `pg_strncasecmp`, with a word in lower case: are they equal?  `none` where it reads behind. -/
def pgStrncasecmp : List UInt8 → List UInt8 → ℕ → Option Bool
  | _, _, 0 => some true
  | [], _, _ + 1 => none
  | c :: mem, w, n + 1 =>
    if lower c ≠ w.headD 0 then some false
    else if c = 0 then some true
    else pgStrncasecmp mem w.tail n

def tryWords (mem : List UInt8) (n : ℕ) : List (List UInt8 × Bool) → Option (Option Bool)
  | [] => some none
  | (w, b) :: ws =>
    match pgStrncasecmp mem w n with
    | some true => some (some b)
    | some false => tryWords mem n ws
    | none => none

/-- `on` and `off` are told apart by their second letters, whatever the length. -/
def leastLength (c : UInt8) : ℕ := if lower c = 0x6F then 2 else 1

theorem leastLength_mem (c : UInt8) : 1 ≤ leastLength c ∧ leastLength c ≤ 2 := by
  unfold leastLength
  split_ifs
  · exact ⟨by omega, le_rfl⟩
  · exact ⟨le_rfl, by omega⟩

def parseBoolWithLen (mem : List UInt8) (len : ℕ) : Option (Option Bool) :=
  match mem with
  | [] => none
  | c :: _ =>
    if c = 0x31 ∨ c = 0x30 then some (if len = 1 then some (c = 0x31) else none)
    else tryWords mem (max len (leastLength c)) words

theorem lower_eq_zero {c : UInt8} (h : lower c = 0) : c = 0 := by
  rcases first_of_lower h with rfl | rfl
  · rfl
  · exact absurd h (by decide)

theorem pgStrncasecmp_true {w : List UInt8} {n : ℕ} (h : pgStrncasecmp mem w n = some true)
    (hw : 0 ∉ w) :
    (n ≤ mem.length ∧ (mem.take n).map lower <+: w) ∨ (w.length < n ∧ w ++ [0] <+: mem.map lower) := by
  induction n generalizing mem w with
  | zero => exact .inl ⟨Nat.zero_le _, by simp⟩
  | succ n ih =>
    cases mem with
    | nil => cases h
    | cons c mem =>
      rw [pgStrncasecmp] at h
      split_ifs at h with hc h0
      · cases h
      · rw [not_ne_iff] at hc
        cases w with
        | nil => exact .inr ⟨Nat.succ_pos _, by rw [h0]; simp [lower]⟩
        | cons d w =>
          rw [h0] at hc
          exact absurd (List.mem_cons.2 (.inl hc)) hw
      · rw [not_ne_iff] at hc
        cases w with
        | nil => exact absurd (lower_eq_zero hc) h0
        | cons d w =>
          rcases ih h fun hm => hw (List.mem_cons_of_mem _ hm) with ⟨hle, hpre⟩ | ⟨hlt, hpre⟩
          · refine .inl ⟨Nat.succ_le_succ hle, ?_⟩
            rw [List.take_succ_cons, List.map_cons, List.cons_prefix_cons]
            exact ⟨hc, hpre⟩
          · refine .inr ⟨Nat.succ_lt_succ hlt, ?_⟩
            rw [List.map_cons, List.cons_append, List.cons_prefix_cons]
            exact ⟨hc.symm, hpre⟩

theorem pgStrncasecmp_append {w : List UInt8} {n : ℕ} {r : Bool} (rest : List UInt8)
    (h : pgStrncasecmp mem w n = some r) : pgStrncasecmp (mem ++ rest) w n = some r := by
  induction n generalizing mem w with
  | zero => simpa only [pgStrncasecmp] using h
  | succ n ih =>
    cases mem with
    | nil => cases h
    | cons c mem =>
      rw [List.cons_append]
      rw [pgStrncasecmp] at h ⊢
      split_ifs at h ⊢
      · exact h
      · exact h
      · exact ih h

theorem tryWords_eq {n : ℕ} {ws : List (List UInt8 × Bool)} (h : tryWords mem n ws = some (some b)) :
    ∃ w, (w, b) ∈ ws ∧ pgStrncasecmp mem w n = some true := by
  induction ws with
  | nil => cases h
  | cons w ws ih =>
    rw [tryWords] at h
    split at h
    · next heq =>
      cases h
      exact ⟨w.1, List.mem_cons_self .., heq⟩
    · obtain ⟨w', hw', heq⟩ := ih h
      exact ⟨w', List.mem_cons_of_mem _ hw', heq⟩
    · cases h

theorem tryWords_append {n : ℕ} {ws : List (List UInt8 × Bool)} {r : Option Bool}
    (rest : List UInt8) (h : tryWords mem n ws = some r) : tryWords (mem ++ rest) n ws = some r := by
  induction ws with
  | nil => exact h
  | cons w ws ih =>
    rw [tryWords] at h ⊢
    split at h
    · next heq =>
      rw [pgStrncasecmp_append rest heq]
      exact h
    · next heq =>
      rw [pgStrncasecmp_append rest heq]
      exact ih h
    · cases h

theorem parseBoolWithLen_spells (h : parseBoolWithLen mem len = some (some b)) :
    Spells mem len b := by
  cases mem with
  | nil => cases h
  | cons c mem =>
    rw [parseBoolWithLen] at h
    by_cases hc : c = 0x31 ∨ c = 0x30
    · rw [if_pos hc] at h
      split_ifs at h with h1
      · refine .inl ⟨h1, ?_⟩
        cases h
        rcases hc with rfl | rfl
        · rfl
        · rfl
      · cases h
    · rw [if_neg hc] at h
      obtain ⟨w, hw, heq⟩ := tryWords_eq h
      have hwords : ∀ w ∈ words, 0 ∉ w.1 ∧ 2 ≤ w.1.length := by decide
      obtain ⟨h0, h2⟩ : 0 ∉ w ∧ 2 ≤ w.length := hwords _ hw
      obtain ⟨hone, htwo⟩ := leastLength_mem c
      refine .inr ⟨w, hw, ?_⟩
      rcases pgStrncasecmp_true heq h0 with ⟨hle, hpre⟩ | ⟨hlt, hpre⟩
      · have hmax : max len 1 ≤ max len (leastLength c) := max_le_max_left len hone
        exact .inl ⟨hmax.trans hle, ((List.take_prefix_take_left hmax).map lower).trans hpre⟩
      · exact .inr ⟨by omega, hpre⟩

theorem parseBoolWithLen_append {r : Option Bool} (rest : List UInt8)
    (h : parseBoolWithLen mem len = some r) : parseBoolWithLen (mem ++ rest) len = some r := by
  cases mem with
  | nil => cases h
  | cons c mem =>
    rw [List.cons_append]
    rw [parseBoolWithLen] at h ⊢
    by_cases hc : c = 0x31 ∨ c = 0x30
    · rw [if_pos hc] at h ⊢
      exact h
    · rw [if_neg hc] at h ⊢
      exact tryWords_append rest h

/-- Postgres, with compressed values that are all corrupt. -/
def pgBool : PgBool where
  parseBoolWithLen := parseBoolWithLen
  detoastAttr mem :=
    if mem.length < 8 then .overruns else .raises "compressed pglz data is corrupt"
  parse_spells := parseBoolWithLen_spells
  parse_append := parseBoolWithLen_append
  detoast_header h := if_pos h
  detoast_append rest h := by
    split_ifs at h with hlen
    · exact absurd rfl h
    · rw [if_neg hlen, if_neg (by rw [List.length_append]; omega)]

/-- The text `true`. -/
def trueText : Varatt := ⟨true, [0x74, 0x72, 0x75, 0x65], by decide⟩

/-- The four bytes of `true` are taken for a header, and the NUL behind them for the value. -/
theorem true_not_parsed : ¬ pgBool.Parses trueText := by
  intro h
  have hraise : pgBool.rstParseBool trueText = .raises "parse_bool: invalid input" := rfl
  have hret := h.accepted true rfl
  rw [hraise] at hret
  cases hret

end Rustica.Booleans
