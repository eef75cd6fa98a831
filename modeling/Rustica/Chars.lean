/-
  Texts as the natives of `env` see them: sequences of characters.

  `rst_textlen`, `rst_textget` and `sb_write_substring` count characters, and leave it to
  PostgreSQL to find them.  Its routines stop at a NUL, and its conversion decodes a character only
  if it is given all its bytes.  So `rst_textget`, which gives it one, is right for ASCII characters
  only, and not at the index 0 of an empty text (`textget_iff`); and a NUL hides what follows it
  (`nul_ordinary_iff`).
-/
import Rustica.Validity

namespace Rustica

open Utf

variable (pg : PgWchar)

/-! ## The natives -/

/-- `pg_mbstrlen_with_len`: the number of characters, or of those before a NUL. -/
def PgWchar.mbstrlenWithLen : List UInt8 → ℤ
  | [] => 0
  | b :: s =>
    if b = 0 then 0
    else 1 + mbstrlenWithLen ((b :: s).drop (pg.charLen (b :: s)).toNat)
termination_by s => s.length
decreasing_by
  have := pg.charLen_pos (b :: s)
  rw [List.length_drop, List.length_cons]; omega

def rstTextlen (t : Varatt) : ℤ :=
  if pg.encodingMaxLength = 1 then t.data.length else pg.mbstrlenWithLen t.data

/-- `rv[0]` after the conversion of the one byte at the pointer. -/
def wcharAt : List UInt8 → Native ℤ
  | [] => .overruns
  | b :: _ => .returns (asInt32 ((pg.mb2wcharWithLen [b] ++ [0]).headD 0).toNat)

def rstTextget (t : Varatt) (index : Int32) : Native ℤ :=
  let size : ℤ := t.data.length
  if pg.encodingMaxLength = 1 then
    let offset := if index.toInt < 0 then asInt32 (index.toInt + size) else index.toInt
    if offset < 0 ∨ offset ≥ size then .raises "index out of range"
    else wcharAt pg (t.data.drop offset.toNat)
  else if index.toInt ≠ 0 then
    let index :=
      if index.toInt < 0 then asInt32 (index.toInt + pg.mbstrlenWithLen t.data) else index.toInt
    if index < 0 then .raises "index out of range"
    else
      let offset := pg.mbcharcliplen index t.data
      if offset ≥ size then .raises "index out of range"
      else wcharAt pg (t.data.drop offset)
  else wcharAt pg t.data

/-! ## The character at an index -/

/-- The conversion decodes no character that is cut off. -/
structure PgWchar.Fits (pg : PgWchar) : Prop extends pg.Utf8 where
  cut : ∀ (c : Char) n, n < c.utf8Size → pg.mb2wcharWithLen ((String.utf8EncodeChar c).take n) = []

/-- The index selects the character, counted from either end. -/
def Selects (cs : List Char) (index : ℤ) (c : Char) : Prop :=
  -(cs.length : ℤ) ≤ index ∧ index < cs.length ∧ cs[position cs.length index]? = some c

/-- **What an index is for**: the code point of the character that it selects, or an error. -/
structure CharAt (cs : List Char) (index : ℤ) (r : Native ℤ) : Prop where
  selected : ∀ c, Selects cs index c → r = .returns c.toNat
  outside : (∀ c, ¬ Selects cs index c) → r = .raises "index out of range"

variable {pg : PgWchar} {cs xs ys : List Char} {c : Char} {t : Varatt} {index : ℤ}

theorem mbstrlenWithLen_utf8 (hpg : pg.Utf8) (cs : List Char) :
    pg.mbstrlenWithLen (utf8 cs) = (beforeNul cs).length := by
  induction cs with
  | nil => rw [utf8_nil, PgWchar.mbstrlenWithLen]; rfl
  | cons c cs ih =>
    obtain ⟨b, t, hbt, hh⟩ := exists_heads hpg c (utf8 cs)
    rw [utf8_cons, hbt, PgWchar.mbstrlenWithLen]
    split_ifs with h0
    · rw [hh.zero_iff.1 h0, beforeNul_cons_nul]; rfl
    · rw [hh.charLen, Int.toNat_natCast, hh.drop, ih,
        beforeNul_cons fun h => h0 (hh.zero_iff.2 h), List.length_cons]
      omega

/-- **One byte is enough for ASCII only.** -/
theorem wcharAt_utf8 (hpg : pg.Fits) :
    wcharAt pg (utf8 (c :: cs)) = .returns (if c.toNat < 0x80 then c.toNat else 0) := by
  have hlen := String.length_utf8EncodeChar c
  have hsize := utf8Size_eq c
  obtain ⟨b, s, hbs, -⟩ := exists_encodeChar_eq c
  rw [utf8_cons, hbs, List.cons_append, wcharAt]
  split_ifs with h
  · have hs : s = [] := by
      rw [hbs, List.length_cons] at hlen
      rw [if_pos (by omega)] at hsize
      exact List.length_eq_zero_iff.1 (by omega)
    have hwhole := hpg.mb2wchar c
    rw [hbs, hs] at hwhole
    rw [hwhole]
    split_ifs with h0
    · rw [show c.toNat = 0 from congrArg UInt32.toNat h0]; simp [asInt32]
    · rw [List.singleton_append, List.headD_cons, Char.toNat_val,
        asInt32_of_range (by omega) (by omega)]
  · have hcut := hpg.cut c 1 (by rw [hsize, if_neg (by omega)]; split_ifs <;> omega)
    rw [hbs, List.take_succ_cons, List.take_zero] at hcut
    rw [hcut]; simp [asInt32]

theorem exists_selects_iff :
    (∃ c, Selects cs index c) ↔ -(cs.length : ℤ) ≤ index ∧ index < cs.length := by
  constructor
  · rintro ⟨c, h1, h2, -⟩
    exact ⟨h1, h2⟩
  · rintro ⟨h1, h2⟩
    have hpos : position cs.length index < cs.length := by
      rw [position]; split_ifs <;> omega
    exact ⟨_, h1, h2, List.getElem?_eq_getElem hpos⟩

theorem length_lt_of_data (ht : t.data = utf8 cs) : cs.length < 1073741820 := by
  have h := t.length_data
  have hle : ∀ ds : List Char, ds.length ≤ (utf8 ds).length := by
    intro ds
    induction ds with
    | nil => exact le_refl _
    | cons d ds ih =>
      have := d.utf8Size_pos
      rw [utf8_cons, List.length_append, String.length_utf8EncodeChar, List.length_cons]
      omega
  have := hle cs
  rw [ht] at h; omega

/-- What the native makes of the index: it does not look at the range of 0. -/
theorem rstTextget_eq (hpg : pg.Utf8) (ht : t.data = utf8 cs) (hn : nul ∉ cs) (index : Int32) :
    rstTextget pg t index =
      if (-(cs.length : ℤ) ≤ index.toInt ∧ index.toInt < cs.length) ∨ index.toInt = 0 then
        wcharAt pg (utf8 (cs.drop (position cs.length index.toInt)))
      else .raises "index out of range" := by
  have hmax : ¬ pg.encodingMaxLength = 1 := by rw [hpg.maxLength]; decide
  have hlen := length_lt_of_data ht
  have hr := int32_range index
  have hself := beforeNul_eq_self_iff.2 hn
  simp only [rstTextget, if_neg hmax, ht, mbstrlenWithLen_utf8 hpg, mbcharcliplen_utf8 hpg, clipped,
    hself, drop_utf8]
  by_cases h0 : index.toInt = 0
  · rw [if_neg (not_not.2 h0), if_pos (.inr h0), h0]; rfl
  · have hwrap : (if index.toInt < 0 then asInt32 (index.toInt + cs.length) else index.toInt) =
        if index.toInt < 0 then cs.length + index.toInt else index.toInt := by
      split_ifs
      · rw [asInt32_of_range (by omega) (by omega), add_comm]
      · rfl
    rw [if_pos h0, hwrap]
    by_cases hneg : (if index.toInt < 0 then cs.length + index.toInt else index.toInt) < 0
    · rw [if_pos hneg, if_neg]
      rintro (h | h)
      · split_ifs at hneg <;> omega
      · exact h0 h
    · have hpos : (if index.toInt < 0 then cs.length + index.toInt else index.toInt).toNat =
          position cs.length index.toInt := rfl
      rw [if_neg hneg, hpos]
      -- the clipped part is the whole text exactly when the index is behind it
      have hiff : ((utf8 (cs.take (position cs.length index.toInt))).length : ℤ) ≥
          (utf8 cs).length ↔ ¬ index.toInt < cs.length := by
        by_cases hlt : position cs.length index.toInt < cs.length
        · have hne : 0 < (utf8 (cs.drop (position cs.length index.toInt))).length :=
            utf8_ne_nil (by rw [Ne, List.drop_eq_nil_iff]; omega)
          have happ := congrArg (fun ds => (utf8 ds).length)
            (List.take_append_drop (position cs.length index.toInt) cs)
          simp only [utf8_append, List.length_append] at happ
          rw [position] at hlt
          constructor
          · intro h; omega
          · intro h; split_ifs at hlt hneg <;> omega
        · rw [List.take_of_length_le (not_lt.1 hlt)]
          rw [position] at hlt
          refine iff_of_true (le_refl _) ?_
          split_ifs at hlt hneg <;> omega
      have hlo : -(cs.length : ℤ) ≤ index.toInt := by
        split_ifs at hneg <;> omega
      by_cases hlt : index.toInt < cs.length
      · rw [if_neg (fun h => hiff.1 h hlt), if_pos (.inl ⟨hlo, hlt⟩)]
      · rw [if_pos (hiff.2 hlt), if_neg]
        rintro (h | h)
        · exact hlt h.2
        · exact h0 h

/-- **The call is right exactly when** the text is not empty or the index is not 0, and the index
    selects no character outside of ASCII. -/
theorem textget_iff (hpg : pg.Fits) (t : Varatt) (cs : List Char) (ht : t.data = utf8 cs)
    (hn : nul ∉ cs) (index : Int32) :
    CharAt cs index.toInt (rstTextget pg t index) ↔
      (cs ≠ [] ∨ index.toInt ≠ 0) ∧ ∀ c, Selects cs index.toInt c → c.toNat < 0x80 := by
  rw [rstTextget_eq hpg.toUtf8 ht hn]
  by_cases hsel : ∃ c, Selects cs index.toInt c
  · obtain ⟨c, hc⟩ := hsel
    obtain ⟨hlo, hhi, hat⟩ := id hc
    have huniq : ∀ d, Selects cs index.toInt d → c = d := fun d hd =>
      Option.some.inj (hat.symm.trans hd.2.2)
    have hdrop : ∃ rest, cs.drop (position cs.length index.toInt) = c :: rest := by
      obtain ⟨hlt, hget⟩ := List.getElem?_eq_some_iff.1 hat
      exact ⟨_, by rw [List.drop_eq_getElem_cons hlt, hget]⟩
    obtain ⟨rest, hrest⟩ := hdrop
    rw [if_pos (.inl ⟨hlo, hhi⟩), hrest, wcharAt_utf8 hpg]
    constructor
    · intro h
      refine ⟨.inl ?_, fun d hd => ?_⟩
      · rintro rfl
        simp at hat
      · obtain rfl := huniq d hd
        have hr := Native.returns.inj (h.selected c hc)
        by_contra hbig
        rw [if_neg hbig] at hr
        omega
    · rintro ⟨-, h⟩
      refine ⟨fun d hd => ?_, fun hout => absurd hc (hout c)⟩
      obtain rfl := huniq d hd
      rw [if_pos (h c hc)]
  · have hout : ∀ c, ¬ Selects cs index.toInt c := fun c hc => hsel ⟨c, hc⟩
    rw [exists_selects_iff] at hsel
    by_cases h0 : index.toInt = 0
    · -- nothing is selected by 0: the text is empty
      have hnil : cs = [] := by
        rw [h0] at hsel
        exact List.length_eq_zero_iff.1 (by omega)
      subst hnil
      rw [if_pos (.inr h0)]
      refine iff_of_false (fun h => ?_) fun h => h.1.elim (fun h => h rfl) fun h => h h0
      have hr := h.outside hout
      rw [List.drop_nil, utf8_nil, wcharAt] at hr
      cases hr
    · rw [if_neg (by tauto)]
      exact iff_of_true ⟨fun c hc => absurd hc (hout c), fun _ => rfl⟩
        ⟨.inr h0, fun c hc => absurd hc (hout c)⟩

/-- The first byte of a character of two to four, by itself or with a part of what it asks for. -/
theorem utf2wchar_cut {a : UInt8} {s : List UInt8} {n : ℕ} (hn : s.length + 1 < n)
    (h : n = 2 ∧ 0xC0 ≤ a.toNat ∧ a.toNat < 0xE0 ∨ n = 3 ∧ 0xE0 ≤ a.toNat ∧ a.toNat < 0xF0 ∨
      n = 4 ∧ 0xF0 ≤ a.toNat ∧ a.toNat < 0xF8) : utf2wchar (a :: s) = [] := by
  rw [utf2wchar.eq_def]
  simp only
  rcases h with ⟨rfl, h⟩ | ⟨rfl, h⟩ | ⟨rfl, h⟩
  · rw [if_neg (by omega), if_neg (by omega), if_pos (by omega)]
    obtain rfl : s = [] := List.length_eq_zero_iff.1 (by omega)
    rfl
  · rw [if_neg (by omega), if_neg (by omega), if_neg (by omega), if_pos (by omega)]
    rcases s with _ | ⟨b, _ | ⟨c, s⟩⟩
    · rfl
    · rfl
    · simp only [List.length_cons] at hn
      omega
  · rw [if_neg (by omega), if_neg (by omega), if_neg (by omega), if_neg (by omega),
      if_pos (by omega)]
    rcases s with _ | ⟨b, _ | ⟨c, _ | ⟨d, s⟩⟩⟩
    · rfl
    · rfl
    · rfl
    · simp only [List.length_cons] at hn
      omega

theorem utf8Server_fits : utf8Server.Fits where
  toUtf8 := utf8Server_utf8
  cut c n h := by
    have hc := toNat_cases (c := c)
    cases n with
    | zero => rfl
    | succ n =>
      rw [utf8Size_eq] at h
      simp only [utf8Server, String.utf8EncodeChar, Char.toNat_val]
      split_ifs at h ⊢
      · omega
      · rw [List.take_succ_cons]
        refine utf2wchar_cut (n := 2) (by simp; omega) (.inl ⟨rfl, ?_⟩)
        rw [UInt8.toNat_ofNat']; omega
      · rw [List.take_succ_cons]
        refine utf2wchar_cut (n := 3) (by simp; omega) (.inr (.inl ⟨rfl, ?_⟩))
        rw [UInt8.toNat_ofNat']; omega
      · rw [List.take_succ_cons]
        refine utf2wchar_cut (n := 4) (by simp; omega) (.inr (.inr ⟨rfl, ?_⟩))
        rw [UInt8.toNat_ofNat']; omega

/-- An A and an e with an acute accent. -/
def accented : List Char := [Char.ofNat 0x41, Char.ofNat 0xE9]

def accentedText : Varatt := ⟨true, [0x41, 0xC3, 0xA9], by decide⟩

/-- The accented letter is `0xE9`, and the native returns 0. -/
theorem accentedText_last : accentedText.data = utf8 accented ∧
    ¬ CharAt accented (-1) (rstTextget utf8Server accentedText (-1)) := by
  refine ⟨by decide, fun h => ?_⟩
  have hlast := h.selected (Char.ofNat 0xE9) ⟨by decide, by decide, by decide⟩
  rw [rstTextget_eq utf8Server_utf8 (show accentedText.data = utf8 accented by decide) (by decide),
    if_pos (by decide)] at hlast
  have hone : wcharAt utf8Server (utf8 [Char.ofNat 0xE9]) = _ := wcharAt_utf8 utf8Server_fits
  rw [if_neg (by decide)] at hone
  exact absurd (hone.symm.trans hlast) (by decide)

theorem accentedText_first : CharAt accented 0 (rstTextget utf8Server accentedText 0) := by
  refine (textget_iff utf8Server_fits accentedText accented (by decide) (by decide) 0).2
    ⟨.inl (by decide), ?_⟩
  rintro c ⟨-, -, hc⟩
  obtain rfl : Char.ofNat 0x41 = c := Option.some.inj hc
  decide

/-! ## U+0000 -/

theorem beforeNul_take (n : ℕ) (cs : List Char) : beforeNul (cs.take n) = (beforeNul cs).take n := by
  induction cs generalizing n with
  | nil => simp [beforeNul]
  | cons c cs ih =>
    cases n with
    | zero => rfl
    | succ n =>
      by_cases hc : c = nul
      · subst hc
        rw [List.take_succ_cons, beforeNul_cons_nul, beforeNul_cons_nul, List.take_nil]
      · rw [List.take_succ_cons, beforeNul_cons hc, beforeNul_cons hc, List.take_succ_cons, ih]

theorem rstTextlen_utf8 (hpg : pg.Utf8) (ht : t.data = utf8 cs) :
    rstTextlen pg t = (beforeNul cs).length := by
  have hmax : ¬ pg.encodingMaxLength = 1 := by rw [hpg.maxLength]; decide
  rw [rstTextlen, if_neg hmax, ht, mbstrlenWithLen_utf8 hpg]

/-- **Lengths add up** unless there is a NUL in the first text, and a character before any in the
    second. -/
theorem textlen_append_iff (hpg : pg.Utf8) {x y xy : Varatt} (hx : x.data = utf8 xs)
    (hy : y.data = utf8 ys) (hxy : xy.data = utf8 (xs ++ ys)) :
    rstTextlen pg xy = rstTextlen pg x + rstTextlen pg y ↔
      nul ∉ xs ∨ ∀ c ∈ ys.head?, c = nul := by
  rw [rstTextlen_utf8 hpg hx, rstTextlen_utf8 hpg hy, rstTextlen_utf8 hpg hxy]
  by_cases hn : nul ∈ xs
  · obtain ⟨rest, hrest, hfree⟩ := exists_eq_beforeNul_append hn
    have happ : beforeNul (xs ++ ys) = beforeNul xs := by
      conv_lhs => rw [hrest, List.append_assoc, beforeNul_append hfree]
      rw [List.cons_append, beforeNul_cons_nul, List.append_nil]
    rw [happ, or_iff_right (not_not.2 hn)]
    cases ys with
    | nil => exact iff_of_true (by simp [beforeNul]) (by simp)
    | cons c ys =>
      by_cases hc : c = nul
      · subst hc
        exact iff_of_true (by simp [beforeNul_cons_nul]) (by simp)
      · rw [beforeNul_cons hc, List.length_cons]
        refine iff_of_false (by omega) fun h => hc (h c rfl)
  · rw [beforeNul_append hn, List.length_append, beforeNul_eq_self_iff.2 hn]
    exact iff_of_true (Nat.cast_add ..) (.inl hn)

/-- The characters that a range of characters selects. -/
def range (cs : List Char) (start len : Int32) : List Char :=
  (cs.drop start.toInt.toNat).take len.toInt.toNat

/-- **What the native is for**: to append the characters of the range, as if they were a text of
    their own. -/
def WritesRange (pg : PgWchar) (t : Varatt) (cs : List Char) (start len : Int32) : Prop :=
  ∀ sb behind, sbWriteSubstring pg sb t.data behind start len =
    sbWriteString sb (utf8 (range cs start len))

/-- The characters that are appended, instead of those of the range. -/
theorem written_eq_range_iff (cs : List Char) (i l : ℕ) :
    (beforeNul (cs.drop (min i (beforeNul cs).length))).take l = (cs.drop i).take l ↔
      (cs.drop i).take l = [] ∨ nul ∉ cs.take (i + l) := by
  rw [List.take_add, List.mem_append, not_or]
  by_cases hi : i ≤ (beforeNul cs).length
  · -- all before the range is free of NULs
    have hpre : nul ∉ cs.take i := by
      rw [← beforeNul_eq_self_iff, beforeNul_take, beforeNul_eq_take, List.take_take,
        min_eq_left hi]
    rw [min_eq_left hi, ← beforeNul_take, beforeNul_eq_self_iff]
    constructor
    · exact fun h => .inr ⟨hpre, h⟩
    · rintro (h | h)
      · rw [h]; exact List.not_mem_nil
      · exact h.2
  · rw [min_eq_right (not_le.1 hi).le]
    by_cases hn : nul ∈ cs
    · obtain ⟨rest, hrest, -⟩ := exists_eq_beforeNul_append hn
      have hsplit : ∀ ds, cs = ds ++ nul :: rest → cs.drop ds.length = nul :: rest := by
        intro ds hds
        rw [hds, List.drop_left]
      have hdrop := hsplit _ hrest
      have hpre : nul ∈ cs.take i := by
        obtain ⟨j, rfl⟩ : ∃ j, i = (beforeNul cs).length + (j + 1) :=
          ⟨i - (beforeNul cs).length - 1, by omega⟩
        rw [List.take_add, hdrop, List.take_succ_cons]
        simp
      rw [hdrop, beforeNul_cons_nul, List.take_nil]
      constructor
      · exact fun h => .inl h.symm
      · rintro (h | h)
        · exact h.symm
        · exact absurd hpre h.1
    · rw [beforeNul_eq_self_iff.2 hn] at hi ⊢
      rw [List.drop_length, List.drop_eq_nil_of_le (not_le.1 hi).le]
      simp [beforeNul]

/-- A new builder takes any text. -/
theorem sbWriteString_new (h : (utf8 cs).length ≤ t.data.length) :
    sbWriteString ⟨[], 1⟩ (utf8 cs) = .returns ⟨utf8 cs, 1⟩ := by
  have hlt := t.length_data
  have hroom : enlargeStringInfo ⟨[], 1⟩ (utf8 cs).length = none := by
    rw [enlargeStringInfo, if_neg (by omega), if_neg]
    simp only [Int.toNat_natCast, List.length_nil, maxAllocSize]; omega
  rw [sbWriteString, sbAppend.eq_def, if_neg (by decide), hroom]
  simp

theorem length_utf8_take_drop (i l : ℕ) (cs : List Char) :
    (utf8 ((cs.drop i).take l)).length ≤ (utf8 cs).length := by
  rw [← take_utf8, ← drop_utf8, List.length_take, List.length_drop]
  omega

/-- **The range is written** unless there are characters in it and a NUL in it or before it. -/
theorem writesRange_iff (hpg : pg.Utf8) (ht : t.data = utf8 cs) {start len : Int32} :
    WritesRange pg t cs start len ↔ range cs start len = [] ∨
      nul ∉ cs.take (start.toInt.toNat + len.toInt.toNat) := by
  rw [range, ← written_eq_range_iff]
  have hprefix : ∃ k, (beforeNul (cs.drop (min start.toInt.toNat (beforeNul cs).length))).take
      len.toInt.toNat = (cs.drop (min start.toInt.toNat (beforeNul cs).length)).take k :=
    ⟨_, clipped_eq_take len.toInt _⟩
  simp only [WritesRange, ht, sbWriteSubstring_utf8 hpg, clipped, range]
  constructor
  · intro h
    obtain ⟨k, hk⟩ := hprefix
    have hnew := h ⟨[], 1⟩ fun _ => 0
    have hfits : ∀ i l, (utf8 ((cs.drop i).take l)).length ≤ t.data.length := by
      intro i l
      rw [ht]; exact length_utf8_take_drop i l cs
    rw [hk] at hnew ⊢
    rw [sbWriteString_new (hfits _ _), sbWriteString_new (hfits _ _)] at hnew
    exact utf8_injective (congrArg StringInfo.data (Native.returns.inj hnew))
  · intro h sb _
    rw [h]

/-- **What an embedded U+0000 does to lengths and ranges.** -/
theorem nul_ordinary_iff (hpg : pg.Utf8) :
    (∀ (xs ys : List Char) (x y xy : Varatt), x.data = utf8 xs → y.data = utf8 ys →
      xy.data = utf8 (xs ++ ys) →
      (rstTextlen pg xy = rstTextlen pg x + rstTextlen pg y ↔
        nul ∉ xs ∨ ∀ c ∈ ys.head?, c = nul)) ∧
    ∀ (cs : List Char) (t : Varatt) (start len : Int32), t.data = utf8 cs → 0 ≤ start.toInt →
      0 ≤ len.toInt →
      (WritesRange pg t cs start len ↔
        range cs start len = [] ∨ nul ∉ cs.take (start.toInt.toNat + len.toInt.toNat)) :=
  ⟨fun _ _ _ _ _ hx hy hxy => textlen_append_iff hpg hx hy hxy,
    fun _ _ _ _ ht _ _ => writesRange_iff hpg ht⟩

/-- An A and a NUL, a B, and all three. -/
def nulText : Varatt := ⟨true, [0x41, 0], by decide⟩
def plainText : Varatt := ⟨true, [0x42], by decide⟩
def joinedText : Varatt := ⟨true, [0x41, 0, 0x42], by decide⟩

/-- The three characters are counted as one, and the last of them is not found. -/
theorem joinedText_hidden :
    rstTextlen utf8Server joinedText ≠
      rstTextlen utf8Server nulText + rstTextlen utf8Server plainText ∧
    ¬ WritesRange utf8Server joinedText [Char.ofNat 0x41, nul, Char.ofNat 0x42] 2 1 := by
  constructor
  · intro h
    rw [rstTextlen_utf8 utf8Server_utf8
        (show joinedText.data = utf8 [Char.ofNat 0x41, nul, Char.ofNat 0x42] by decide),
      rstTextlen_utf8 utf8Server_utf8
        (show nulText.data = utf8 [Char.ofNat 0x41, nul] by decide),
      rstTextlen_utf8 utf8Server_utf8
        (show plainText.data = utf8 [Char.ofNat 0x42] by decide)] at h
    exact absurd h (by decide)
  · rw [writesRange_iff utf8Server_utf8 (by decide)]
    decide

theorem joinedText_reversed :
    rstTextlen utf8Server ⟨true, [0x42, 0x41, 0], by decide⟩ =
      rstTextlen utf8Server plainText + rstTextlen utf8Server nulText ∧
    WritesRange utf8Server joinedText [Char.ofNat 0x41, nul, Char.ofNat 0x42] 0 1 := by
  obtain ⟨hlen, hwrite⟩ := nul_ordinary_iff utf8Server_utf8
  refine ⟨(hlen [Char.ofNat 0x42] [Char.ofNat 0x41, nul] _ _ _ (by decide) (by decide)
    (by decide)).2 (.inl (by decide)), ?_⟩
  exact (hwrite _ joinedText 0 1 (by decide) (by decide) (by decide)).2 (.inr (by decide))

end Rustica
