/-
  Unicode text in its two encodings.

  A text is a list of characters.  `utf8` writes a character as one to four bytes, `utf16` as one
  unit or as a pair of surrogates; `decode16` reads units back.  Units are integers, as a caller
  may hold any: the ones that encode some text are the well-formed ones (`exists_utf16_iff`), with
  no value outside of 16 bits and no surrogate without its other half.
-/
import Mathlib.Data.Char
import Mathlib.Data.List.Basic
import Mathlib.Data.List.TakeWhile
import Mathlib.Tactic

namespace Utf

/-! ## Units -/

/-- The first half of a pair. -/
def IsHigh (u : ℤ) : Prop := 0xD800 ≤ u ∧ u ≤ 0xDBFF

/-- The second half of a pair. -/
def IsLow (u : ℤ) : Prop := 0xDC00 ≤ u ∧ u ≤ 0xDFFF

/-- A unit that is a character of its own. -/
def IsPlain (u : ℤ) : Prop := 0 ≤ u ∧ u ≤ 0xFFFF ∧ ¬ IsHigh u ∧ ¬ IsLow u

instance (u : ℤ) : Decidable (IsHigh u) := inferInstanceAs (Decidable (_ ∧ _))
instance (u : ℤ) : Decidable (IsLow u) := inferInstanceAs (Decidable (_ ∧ _))
instance (u : ℤ) : Decidable (IsPlain u) := inferInstanceAs (Decidable (_ ∧ _))

/-- The units of a character. -/
def units (c : Char) : List ℤ :=
  if c.toNat < 0x10000 then [(c.toNat : ℤ)]
  else [0xD800 + ((c.toNat : ℤ) - 0x10000) / 0x400, 0xDC00 + ((c.toNat : ℤ) - 0x10000) % 0x400]

/-- The UTF-16 units of a text. -/
def utf16 (cs : List Char) : List ℤ := cs.flatMap units

/-- The UTF-8 bytes of a text. -/
def utf8 (cs : List Char) : List UInt8 := cs.flatMap String.utf8EncodeChar

/-- The character of a plain unit. -/
def charOf (u : ℤ) : Char := Char.ofNat u.toNat

/-- The character of a pair. -/
def charOfPair (u v : ℤ) : Char :=
  Char.ofNat ((u - 0xD800) * 0x400 + (v - 0xDC00) + 0x10000).toNat

/-- The text that the units encode, if they encode one. -/
def decode16 : List ℤ → Option (List Char)
  | [] => some []
  | [u] => if IsPlain u then some [charOf u] else none
  | u :: v :: us =>
    if IsPlain u then (decode16 (v :: us)).map (charOf u :: ·)
    else if IsHigh u ∧ IsLow v then (decode16 us).map (charOfPair u v :: ·)
    else none

variable {c d : Char} {cs ds : List Char} {u v w : ℤ} {us vs : List ℤ} {i : ℕ}

@[simp] theorem utf16_nil : utf16 [] = [] := rfl

@[simp] theorem utf16_cons : utf16 (c :: cs) = units c ++ utf16 cs := rfl

@[simp] theorem utf8_nil : utf8 [] = [] := rfl

@[simp] theorem utf8_cons : utf8 (c :: cs) = String.utf8EncodeChar c ++ utf8 cs := rfl

@[simp] theorem utf8_append : utf8 (cs ++ ds) = utf8 cs ++ utf8 ds := List.flatMap_append

/-- Core's decoder gives the characters back. -/
theorem utf8_injective : Function.Injective utf8 := fun cs ds h => by
  have hc : cs.utf8Encode = ds.utf8Encode := congrArg List.toByteArray h
  have hd := List.utf8Decode?_utf8Encode (l := cs)
  rw [hc, List.utf8Decode?_utf8Encode, Option.some.injEq] at hd
  exact (Array.toList_inj.2 hd).symm

/-! ## Characters and their code points -/

theorem toNat_ofNat {n : ℕ} (h : n.isValidChar) : (Char.ofNat n).toNat = n := by
  rw [Char.ofNat, dif_pos h]; rfl

theorem ofNat_toNat : Char.ofNat c.toNat = c := Char.ofNat_toNat c

/-- A code point is no surrogate and at most `0x10FFFF`. -/
theorem toNat_cases : c.toNat < 0xD800 ∨ 0xDFFF < c.toNat ∧ c.toNat < 0x110000 := c.valid

theorem units_plain (h : c.toNat < 0x10000) :
    units c = [(c.toNat : ℤ)] ∧ IsPlain c.toNat := by
  refine ⟨if_pos h, ?_⟩
  have := toNat_cases (c := c)
  simp only [IsPlain, IsHigh, IsLow]; omega

theorem units_pair (h : 0x10000 ≤ c.toNat) : ∃ u v, units c = [u, v] ∧ IsHigh u ∧ IsLow v ∧
    (c.toNat : ℤ) = (u - 0xD800) * 0x400 + (v - 0xDC00) + 0x10000 := by
  refine ⟨_, _, if_neg (by omega), ?_⟩
  have := toNat_cases (c := c)
  simp only [IsHigh, IsLow]; omega

theorem charOf_toNat (h : IsPlain u) : ((charOf u).toNat : ℤ) = u := by
  simp only [IsPlain, IsHigh, IsLow] at h
  rw [charOf, toNat_ofNat (by simp only [Nat.isValidChar]; omega)]; omega

theorem charOfPair_toNat (hu : IsHigh u) (hv : IsLow v) :
    ((charOfPair u v).toNat : ℤ) = (u - 0xD800) * 0x400 + (v - 0xDC00) + 0x10000 := by
  simp only [IsHigh, IsLow] at hu hv
  rw [charOfPair, toNat_ofNat (by simp only [Nat.isValidChar]; omega)]; omega

theorem not_isPlain_of_isHigh (h : IsHigh u) : ¬ IsPlain u := fun hp => hp.2.2.1 h

theorem not_isHigh_of_isLow (h : IsLow u) : ¬ IsHigh u := by
  simp only [IsHigh, IsLow] at *; omega

theorem units_charOf (h : IsPlain u) : units (charOf u) = [u] := by
  have hc := charOf_toNat h
  have hb := h.2.1
  rw [units, if_pos (by omega), hc]

theorem units_charOfPair (hu : IsHigh u) (hv : IsLow v) : units (charOfPair u v) = [u, v] := by
  have hc := charOfPair_toNat hu hv
  simp only [IsHigh, IsLow] at hu hv
  rw [units, if_neg (by omega), hc]
  congr 2 <;> omega

/-! ## Decoding -/

theorem decode16_cons_plain (h : IsPlain u) :
    decode16 (u :: us) = (decode16 us).map (charOf u :: ·) := by
  cases us with
  | nil => simp [decode16, h]
  | cons v us => rw [decode16, if_pos h]

theorem decode16_cons_pair (hu : IsHigh u) (hv : IsLow v) :
    decode16 (u :: v :: us) = (decode16 us).map (charOfPair u v :: ·) := by
  rw [decode16, if_neg (not_isPlain_of_isHigh hu), if_pos ⟨hu, hv⟩]

theorem decode16_units_append : decode16 (units c ++ us) = (decode16 us).map (c :: ·) := by
  by_cases h : c.toNat < 0x10000
  · obtain ⟨hu, hp⟩ := units_plain h
    have hc : charOf c.toNat = c := by rw [charOf, Int.toNat_natCast, ofNat_toNat]
    rw [hu, List.singleton_append, decode16_cons_plain hp, hc]
  · obtain ⟨u, v, hw, hu, hv, hn⟩ := units_pair (not_lt.1 h)
    have hc : charOfPair u v = c := by rw [charOfPair, ← hn, Int.toNat_natCast, ofNat_toNat]
    rw [hw, List.cons_append, List.singleton_append, decode16_cons_pair hu hv, hc]

theorem decode16_utf16_append :
    decode16 (utf16 cs ++ us) = (decode16 us).map (cs ++ ·) := by
  induction cs with
  | nil => simp
  | cons c cs ih =>
    rw [utf16_cons, List.append_assoc, decode16_units_append, ih, Option.map_map]; rfl

/-- Decoding inverts encoding. -/
theorem decode16_utf16 (cs : List Char) : decode16 (utf16 cs) = some cs := by
  have h : decode16 (utf16 cs ++ []) = _ := decode16_utf16_append
  simpa [decode16] using h

theorem utf16_of_decode16 : ∀ {us : List ℤ} {cs : List Char},
    decode16 us = some cs → utf16 cs = us := by
  intro us
  induction us using decode16.induct with
  | case1 => rintro cs ⟨⟩; rfl
  | case2 u hp =>
    intro cs h
    rw [decode16, if_pos hp, Option.some.injEq] at h
    rw [← h, utf16_cons, units_charOf hp]; rfl
  | case3 u hp =>
    intro cs h
    rw [decode16, if_neg hp] at h; cases h
  | case4 u v us hp ih =>
    intro cs h
    rw [decode16_cons_plain hp] at h
    obtain ⟨ds, hds, rfl⟩ := Option.map_eq_some_iff.1 h
    rw [utf16_cons, units_charOf hp, ih hds]; rfl
  | case5 u v us hp hpair ih =>
    intro cs h
    rw [decode16_cons_pair hpair.1 hpair.2] at h
    obtain ⟨ds, hds, rfl⟩ := Option.map_eq_some_iff.1 h
    rw [utf16_cons, units_charOfPair hpair.1 hpair.2, ih hds]; rfl
  | case6 u v us hp hpair =>
    intro cs h
    rw [decode16, if_neg hp, if_neg hpair] at h; cases h

/-- **The decoder is the inverse of the encoder.** -/
theorem decode16_eq_some_iff : decode16 us = some cs ↔ utf16 cs = us :=
  ⟨utf16_of_decode16, fun h => h ▸ decode16_utf16 cs⟩

theorem utf16_injective : Function.Injective utf16 := fun cs ds h => by
  have hc := decode16_utf16 cs
  rw [h, decode16_utf16] at hc
  exact (Option.some.inj hc).symm

/-! ## Well-formed units -/

/-- The unit at `i` is half of a pair, and the other half is not beside it. -/
def Unpaired (us : List ℤ) (i : ℕ) : Prop :=
  (∃ u ∈ us[i]?, IsHigh u ∧ ¬ ∃ v ∈ us[i + 1]?, IsLow v) ∨
    (∃ u ∈ us[i]?, IsLow u ∧ ¬ ∃ j, j + 1 = i ∧ ∃ v ∈ us[j]?, IsHigh v)

/-- All units have 16 bits, and all surrogates are paired. -/
structure WellFormed (us : List ℤ) : Prop where
  bits : ∀ u ∈ us, 0 ≤ u ∧ u ≤ 0xFFFF
  paired : ∀ i, ¬ Unpaired us i

/-- What precedes a list matters to the pairing only by its last unit. -/
theorem unpaired_cons_succ (h : ¬ IsHigh u) : Unpaired (u :: us) (i + 1) ↔ Unpaired us i := by
  simp only [Unpaired, List.getElem?_cons_succ]
  refine or_congr_right (exists_congr fun w => and_congr_right fun _ => and_congr_right fun _ =>
    not_congr ⟨?_, ?_⟩)
  · rintro ⟨j, hj, v, hv, hh⟩
    obtain rfl : j = i := by omega
    cases j with
    | zero =>
      obtain rfl : u = v := by simpa using hv
      exact absurd hh h
    | succ j => exact ⟨j, rfl, v, by simpa using hv, hh⟩
  · rintro ⟨j, rfl, v, hv, hh⟩
    exact ⟨j + 1, rfl, v, by simpa using hv, hh⟩

theorem unpaired_cons_succ_succ : Unpaired (u :: us) (i + 2) ↔ Unpaired us (i + 1) := by
  simp [Unpaired]

theorem not_unpaired_plain (h : IsPlain u) : ¬ Unpaired (u :: us) 0 := by
  rintro (⟨w, hw, hh, -⟩ | ⟨w, hw, hl, -⟩)
  · obtain rfl : u = w := by simpa using hw
    exact h.2.2.1 hh
  · obtain rfl : u = w := by simpa using hw
    exact h.2.2.2 hl

theorem wellFormed_nil : WellFormed [] := ⟨by simp, by simp [Unpaired]⟩

theorem wellFormed_cons_plain (h : IsPlain u) : WellFormed (u :: us) ↔ WellFormed us := by
  constructor
  · rintro ⟨hb, hp⟩
    exact ⟨fun v hv => hb v (List.mem_cons_of_mem _ hv),
      fun i hi => hp (i + 1) ((unpaired_cons_succ h.2.2.1).2 hi)⟩
  · rintro ⟨hb, hp⟩
    refine ⟨List.forall_mem_cons.2 ⟨⟨h.1, h.2.1⟩, hb⟩, fun i => ?_⟩
    cases i with
    | zero => exact not_unpaired_plain h
    | succ i => exact fun hi => hp i ((unpaired_cons_succ h.2.2.1).1 hi)

theorem wellFormed_cons_pair (hu : IsHigh u) (hv : IsLow v) :
    WellFormed (u :: v :: us) ↔ WellFormed us := by
  have hshift : ∀ {i}, Unpaired (u :: v :: us) (i + 2) ↔ Unpaired us i :=
    unpaired_cons_succ_succ.trans (unpaired_cons_succ (not_isHigh_of_isLow hv))
  constructor
  · rintro ⟨hb, hp⟩
    exact ⟨fun w hw => hb w (by simp [hw]), fun i hi => hp (i + 2) (hshift.2 hi)⟩
  · rintro ⟨hb, hp⟩
    refine ⟨?_, fun i => ?_⟩
    · simp only [List.forall_mem_cons]
      simp only [IsHigh, IsLow] at hu hv
      exact ⟨by omega, by omega, hb⟩
    · match i with
      | 0 =>
        rintro (⟨-, -, -, h⟩ | ⟨w, hw, hl, -⟩)
        · exact h ⟨v, rfl, hv⟩
        · obtain rfl : u = w := by simpa using hw
          exact not_isHigh_of_isLow hl hu
      | 1 =>
        rintro (⟨w, hw, hh, -⟩ | ⟨-, -, -, h⟩)
        · obtain rfl : v = w := by simpa using hw
          exact not_isHigh_of_isLow hv hh
        · exact h ⟨0, rfl, u, rfl, hu⟩
      | i + 2 => exact fun hi => hp i (hshift.1 hi)

/-- A unit that neither stands alone nor starts a pair breaks the list that it heads. -/
theorem not_wellFormed_cons (hp : ¬ IsPlain u) (hpair : ¬ (IsHigh u ∧ ∃ v ∈ us[0]?, IsLow v)) :
    ¬ WellFormed (u :: us) := by
  rintro ⟨hb, hs⟩
  have hu := hb u (List.mem_cons_self ..)
  by_cases hh : IsHigh u
  · exact hs 0 (.inl ⟨u, rfl, hh, fun h => hpair ⟨hh, by simpa using h⟩⟩)
  by_cases hl : IsLow u
  · exact hs 0 (.inr ⟨u, rfl, hl, by rintro ⟨j, hj, -⟩; omega⟩)
  exact hp ⟨hu.1, hu.2, hh, hl⟩

theorem isSome_decode16_iff : (decode16 us).isSome ↔ WellFormed us := by
  induction us using decode16.induct with
  | case1 => exact ⟨fun _ => wellFormed_nil, fun _ => rfl⟩
  | case2 u hp =>
    rw [decode16, if_pos hp, wellFormed_cons_plain hp]
    exact ⟨fun _ => wellFormed_nil, fun _ => rfl⟩
  | case3 u hp =>
    rw [decode16, if_neg hp]
    exact ⟨fun h => by simp at h, fun h => absurd h (not_wellFormed_cons hp (by simp))⟩
  | case4 u v us hp ih =>
    rw [decode16_cons_plain hp, Option.isSome_map, ih, wellFormed_cons_plain hp]
  | case5 u v us hp hpair ih =>
    rw [decode16_cons_pair hpair.1 hpair.2, Option.isSome_map, ih,
      wellFormed_cons_pair hpair.1 hpair.2]
  | case6 u v us hp hpair =>
    rw [decode16, if_neg hp, if_neg hpair]
    exact ⟨fun h => by simp at h, fun h =>
      absurd h (not_wellFormed_cons hp (by simpa using hpair))⟩

theorem decode16_cons_eq_none (hp : ¬ IsPlain u)
    (hpair : ¬ (IsHigh u ∧ ∃ v ∈ us[0]?, IsLow v)) : decode16 (u :: us) = none := by
  rw [← Option.not_isSome_iff_eq_none, isSome_decode16_iff]
  exact not_wellFormed_cons hp hpair

theorem not_wellFormed_iff : ¬ WellFormed us ↔ decode16 us = none := by
  rw [← isSome_decode16_iff, Option.not_isSome_iff_eq_none]

/-- **The units that encode a text are the well-formed ones.** -/
theorem exists_utf16_iff : (∃ cs, utf16 cs = us) ↔ WellFormed us := by
  rw [← isSome_decode16_iff, Option.isSome_iff_exists]
  exact exists_congr fun cs => decode16_eq_some_iff.symm

/-! ## Lengths -/

theorem utf8Size_eq (c : Char) : c.utf8Size = if c.toNat ≤ 0x7F then 1 else
    if c.toNat ≤ 0x7FF then 2 else if c.toNat ≤ 0xFFFF then 3 else 4 := by
  simp only [Char.utf8Size, UInt32.le_iff_toNat_le, Char.toNat_val]; rfl

theorem utf8Size_lt_four_iff : c.utf8Size < 4 ↔ c.toNat < 0x10000 := by
  rw [utf8Size_eq]
  split_ifs <;> omega

/-- Only the characters of four bytes are pairs. -/
theorem length_units : (units c).length = if c.utf8Size < 4 then 1 else 2 := by
  simp only [utf8Size_lt_four_iff, units]
  split_ifs <;> rfl

theorem length_utf16_le : (utf16 cs).length ≤ (utf8 cs).length := by
  induction cs with
  | nil => rfl
  | cons c cs ih =>
    have h1 := c.utf8Size_pos
    simp only [utf16_cons, utf8_cons, List.length_append, length_units,
      String.length_utf8EncodeChar]
    split_ifs <;> omega

theorem length_utf8_le : (utf8 cs).length ≤ 3 * (utf16 cs).length := by
  induction cs with
  | nil => rfl
  | cons c cs ih =>
    have h1 := c.utf8Size_le_four
    simp only [utf16_cons, utf8_cons, List.length_append, length_units,
      String.length_utf8EncodeChar]
    split_ifs <;> omega

theorem utf8_ne_nil (h : cs ≠ []) : 0 < (utf8 cs).length := by
  obtain ⟨c, cs, rfl⟩ := List.exists_cons_of_ne_nil h
  have := c.utf8Size_pos
  simp only [utf8_cons, List.length_append, String.length_utf8EncodeChar]; omega

/-- **A part from the start that is text of its own** is shorter in bytes too. -/
theorem length_utf8_lt_of_append (hc : utf16 cs = us) (hd : utf16 ds = us ++ vs) (hv : vs ≠ []) :
    (utf8 cs).length < (utf8 ds).length := by
  have h := decode16_utf16 ds
  rw [hd, ← hc, decode16_utf16_append] at h
  obtain ⟨es, hes, rfl⟩ := Option.map_eq_some_iff.1 h
  have hne : es ≠ [] := by
    rintro rfl
    exact hv (utf16_of_decode16 hes).symm
  have := utf8_ne_nil hne
  rw [utf8_append, List.length_append]; omega

/-! ## Well-formed bytes -/

/-- The bytes of some text. -/
def IsUtf8 (bs : List UInt8) : Prop := ∃ cs, utf8 cs = bs

variable {bs bs' : List UInt8} {b : UInt8}

theorem isUtf8_nil : IsUtf8 [] := ⟨[], rfl⟩

theorem isUtf8_utf8 : IsUtf8 (utf8 cs) := ⟨cs, rfl⟩

theorem isUtf8_encodeChar : IsUtf8 (String.utf8EncodeChar c) := ⟨[c], by simp⟩

theorem IsUtf8.append (h : IsUtf8 bs) (h' : IsUtf8 bs') : IsUtf8 (bs ++ bs') := by
  obtain ⟨cs, rfl⟩ := h
  obtain ⟨ds, rfl⟩ := h'
  exact ⟨cs ++ ds, utf8_append⟩

/-- A byte without its high bit is a character. -/
theorem isUtf8_singleton (h : b.toNat < 0x80) : IsUtf8 [b] := by
  refine ⟨[Char.ofNat b.toNat], ?_⟩
  have hc : (Char.ofNat b.toNat).val.toNat = b.toNat :=
    toNat_ofNat (by simp only [Nat.isValidChar]; omega)
  simp only [utf8_cons, utf8_nil, List.append_nil, String.utf8EncodeChar, hc]
  rw [if_pos (by omega), UInt8.ofNat_toNat]

theorem isUtf8_of_ascii (h : ∀ b ∈ bs, b.toNat < 0x80) : IsUtf8 bs := by
  induction bs with
  | nil => exact isUtf8_nil
  | cons b bs ih =>
    exact (isUtf8_singleton (h b List.mem_cons_self)).append
      (ih fun a ha => h a (List.mem_cons_of_mem _ ha))

/-- The first byte of a character of three bytes, and what may follow when it is `0xED`: the
    surrogates are left out. -/
theorem lt_of_isUtf8_cons (h : IsUtf8 (0xED :: b :: bs)) : b.toNat < 0xA0 := by
  obtain ⟨cs, hcs⟩ := h
  cases cs with
  | nil => cases hcs
  | cons c cs =>
    have hn := toNat_cases (c := c)
    simp only [utf8_cons, String.utf8EncodeChar, Char.toNat_val] at hcs
    split_ifs at hcs
    all_goals
      simp only [List.cons_append, List.cons.injEq, ← UInt8.toNat_inj, UInt8.toNat_ofNat',
        UInt8.reduceToNat, Nat.reducePow] at hcs
      omega

/-- The first byte of a character. -/
theorem lt_of_isUtf8 (h : IsUtf8 (b :: bs)) : b.toNat < 0xF8 := by
  obtain ⟨cs, hcs⟩ := h
  cases cs with
  | nil => cases hcs
  | cons c cs =>
    have hn := toNat_cases (c := c)
    simp only [utf8_cons, String.utf8EncodeChar, Char.toNat_val] at hcs
    split_ifs at hcs
    all_goals
      simp only [List.cons_append, List.cons.injEq, ← UInt8.toNat_inj, UInt8.toNat_ofNat',
        Nat.reducePow] at hcs
      omega

theorem ne_zero_of_mem_encodeChar (hc : c.toNat ≠ 0) (hb : b ∈ String.utf8EncodeChar c) :
    b ≠ 0 := by
  have hn := toNat_cases (c := c)
  rw [Ne, ← UInt8.toNat_inj]
  simp only [String.utf8EncodeChar, Char.toNat_val] at hb
  split_ifs at hb
  all_goals
    simp only [List.mem_cons, List.not_mem_nil, or_false] at hb
    rcases hb with rfl | rfl | rfl | rfl <;>
      simp only [UInt8.toNat_ofNat', UInt8.reduceToNat, Nat.reducePow] <;> omega

/-- U+0000. -/
def nul : Char := Char.ofNat 0

theorem encodeChar_nul : String.utf8EncodeChar nul = [0] := rfl

theorem toNat_eq_zero_iff : c.toNat = 0 ↔ c = nul := by
  constructor
  · intro h
    rw [← ofNat_toNat (c := c), h]; rfl
  · rintro rfl; rfl

/-- Only the bytes of U+0000 start with a zero. -/
theorem exists_encodeChar_eq (c : Char) :
    ∃ b s, String.utf8EncodeChar c = b :: s ∧ (b = 0 ↔ c = nul) := by
  obtain ⟨b, s, hbs⟩ := List.exists_cons_of_ne_nil (String.utf8EncodeChar_ne_nil (c := c))
  refine ⟨b, s, hbs, fun hb => ?_, ?_⟩
  · by_contra hc
    refine ne_zero_of_mem_encodeChar (b := b) (fun h => hc (toNat_eq_zero_iff.1 h)) ?_ hb
    rw [hbs]; exact List.mem_cons_self
  · rintro rfl
    rw [encodeChar_nul] at hbs
    exact (List.cons.inj hbs).1.symm

/-- The characters before the first U+0000. -/
def beforeNul (cs : List Char) : List Char := cs.takeWhile (· ≠ nul)

theorem beforeNul_cons_nul : beforeNul (nul :: cs) = [] := rfl

theorem beforeNul_cons (h : c ≠ nul) : beforeNul (c :: cs) = c :: beforeNul cs :=
  List.takeWhile_cons_of_pos (decide_eq_true h)

theorem beforeNul_eq_self_iff : beforeNul cs = cs ↔ nul ∉ cs := by
  rw [beforeNul, List.takeWhile_eq_self_iff]
  constructor
  · intro h hn
    exact of_decide_eq_true (h nul hn) rfl
  · exact fun h c hc => decide_eq_true fun he => h (he ▸ hc)

theorem beforeNul_append (h : nul ∉ cs) : beforeNul (cs ++ ds) = cs ++ beforeNul ds :=
  List.takeWhile_append_of_pos fun _ hc => decide_eq_true fun he => h (he ▸ hc)

/-- A text with a U+0000: what stands before it, and the rest. -/
theorem exists_eq_beforeNul_append (h : nul ∈ cs) :
    ∃ rest, cs = beforeNul cs ++ nul :: rest ∧ nul ∉ beforeNul cs := by
  induction cs with
  | nil => exact absurd h List.not_mem_nil
  | cons c cs ih =>
    by_cases hc : c = nul
    · subst hc
      exact ⟨cs, rfl, List.not_mem_nil⟩
    · obtain ⟨rest, hrest, hn⟩ := ih ((List.mem_cons.1 h).resolve_left (Ne.symm hc))
      rw [beforeNul_cons hc]
      refine ⟨rest, by rw [List.cons_append, ← hrest], fun hm => ?_⟩
      rcases List.mem_cons.1 hm with he | hm
      · exact hc he.symm
      · exact hn hm

theorem beforeNul_eq_take (cs : List Char) : beforeNul cs = cs.take (beforeNul cs).length :=
  List.prefix_iff_eq_take.1 (List.takeWhile_prefix _)

/-- What stands before the first NUL of a text is a text. -/
theorem IsUtf8.takeWhile_ne_zero (h : IsUtf8 bs) : IsUtf8 (bs.takeWhile (· ≠ 0)) := by
  obtain ⟨cs, rfl⟩ := h
  induction cs with
  | nil => exact isUtf8_nil
  | cons c cs ih =>
    by_cases hc : c = nul
    · rw [hc, utf8_cons, encodeChar_nul]
      exact isUtf8_nil
    · rw [utf8_cons, List.takeWhile_append_of_pos]
      · exact isUtf8_encodeChar.append ih
      · intro b hb
        exact decide_eq_true (ne_zero_of_mem_encodeChar (fun h => hc (toNat_eq_zero_iff.1 h)) hb)

end Utf
