/-
  Format strings.

  A format string is text with directives in it: a `%`, modifiers, and the character of a conversion.
  A conversion takes the next argument, and so does an asterisk among the modifiers; only two
  conversions take none, `%` and `m`, the text of the last error.  A string is its own result if and
  only if there is no directive in it (`vsnprintf_nil_iff`).

  Strings are the bytes in front of the NUL that ends them.
-/
import Mathlib.Tactic

namespace Printf

/-- `%` -/
def percent : UInt8 := 0x25

/-- Flags, digits and lengths: `-+ #'0123456789.*hlLjztq` -/
def modifiers : List UInt8 := [0x2D, 0x2B, 0x20, 0x23, 0x27, 0x30, 0x31, 0x32, 0x33, 0x34, 0x35, 0x36,
  0x37, 0x38, 0x39, 0x2E, 0x2A, 0x68, 0x6C, 0x4C, 0x6A, 0x7A, 0x74, 0x71]

/-- A part of a format string. -/
inductive Piece where
  | char (c : UInt8)
  /-- A directive: its modifiers and the conversion. -/
  | conv (mods : List UInt8) (c : UInt8)

/-- The parts of a format string, unless it ends in a directive. -/
def pieces : List UInt8 → Option (List Piece)
  | [] => some []
  | c :: s =>
    if c = percent then
      match _h : s.dropWhile (· ∈ modifiers) with
      | [] => none
      | d :: rest => (pieces rest).map (.conv (s.takeWhile (· ∈ modifiers)) d :: ·)
    else (pieces s).map (.char c :: ·)
termination_by s => s.length
decreasing_by
  · have hle := (List.dropWhile_suffix (· ∈ modifiers) (l := s)).length_le
    rw [_h, List.length_cons] at hle
    rw [List.length_cons]
    omega
  · rw [List.length_cons]
    omega

/-- How arguments of the type are written. -/
structure Renderer (A : Type) where
  /-- What a directive makes of the arguments that it takes, if it is one. -/
  render : List UInt8 → UInt8 → List A → Option (List UInt8)
  /-- The text of the last error. -/
  errorText : List UInt8
  not_mem_errorText : percent ∉ errorText

variable {A : Type} (r : Renderer A)

/-- The number of arguments that a directive takes. -/
def arity (mods : List UInt8) (c : UInt8) : ℕ :=
  mods.count 0x2A + if c = percent ∨ c = 0x6D then 0 else 1

def Piece.arity : Piece → ℕ
  | .char _ => 0
  | .conv mods c => Printf.arity mods c

/-- The text of a part, with the arguments that it takes. -/
def Piece.text : Piece → List A → Option (List UInt8)
  | .char c, _ => some [c]
  | .conv mods c, args =>
    if c = percent then some [percent]
    else if c = 0x6D then some r.errorText
    else r.render mods c args

/-- The text of the parts, with the arguments that are left; `none` where an argument is missing, or
    there is no such directive. -/
def expand : List Piece → List A → Option (List UInt8 × List A)
  | [], ap => some ([], ap)
  | p :: ps, ap =>
    if p.arity ≤ ap.length then
      match p.text r (ap.take p.arity), expand ps (ap.drop p.arity) with
      | some s, some (out, ap) => some (s ++ out, ap)
      | _, _ => none
    else none

def vsnprintf (format : List UInt8) (ap : List A) : Option (List UInt8 × List A) :=
  (pieces format).bind (expand r · ap)

variable {r} {p : Piece} {ps : List Piece} {s out format : List UInt8} {ap ap' : List A} {c : UInt8}

/-! ## Arguments -/

theorem expand_cons (h : expand r (p :: ps) ap = some (out, ap')) :
    p.arity ≤ ap.length ∧ ∃ s out', p.text r (ap.take p.arity) = some s ∧
      expand r ps (ap.drop p.arity) = some (out', ap') ∧ out = s ++ out' := by
  rw [expand] at h
  split_ifs at h with hle
  split at h
  · next htext hrest =>
    cases h
    exact ⟨hle, _, _, htext, hrest, rfl⟩
  · cases h

/-- How many arguments are taken is said by the format. -/
theorem length_of_expand (h : expand r ps ap = some (out, ap')) :
    ap.length = (ps.map Piece.arity).sum + ap'.length := by
  induction ps generalizing ap out with
  | nil => cases h; simp
  | cons p ps ih =>
    obtain ⟨hle, s, out', -, hrest, -⟩ := expand_cons h
    have := ih hrest
    rw [List.length_drop] at this
    rw [List.map_cons, List.sum_cons]
    omega

theorem length_le_of_vsnprintf (h : vsnprintf r format ap = some (out, ap')) :
    ap'.length ≤ ap.length := by
  obtain ⟨ps, -, hexp⟩ := Option.bind_eq_some_iff.1 h
  have := length_of_expand hexp
  omega

/-- **Arguments that were taken are missing afterwards.** -/
theorem vsnprintf_nil (h : vsnprintf r format ap = some (out, [])) (hap : ap ≠ []) :
    vsnprintf r format ([] : List A) = none := by
  unfold vsnprintf at h ⊢
  cases hps : pieces format with
  | none => rfl
  | some ps =>
    rw [hps, Option.bind_some] at h
    rw [Option.bind_some]
    have hlen := length_of_expand h
    cases hnil : expand r ps ([] : List A) with
    | none => rfl
    | some res =>
      obtain ⟨out', ap'⟩ := res
      have hlen' := length_of_expand hnil
      rw [List.length_nil] at hlen hlen'
      exact absurd (List.eq_nil_of_length_eq_zero (by omega)) hap

/-! ## Strings without directives -/

theorem pieces_nil : pieces [] = some [] := by rw [pieces]

theorem pieces_char (h : c ≠ percent) : pieces (c :: s) = (pieces s).map (.char c :: ·) := by
  rw [pieces, if_neg h]

/-- **Text without a `%`** is left as it is. -/
theorem vsnprintf_plain (h : percent ∉ format) (ap : List A) :
    vsnprintf r format ap = some (format, ap) := by
  induction format with
  | nil => rw [vsnprintf, pieces_nil]; rfl
  | cons c s ih =>
    have hc : c ≠ percent := fun hc => h (hc ▸ List.mem_cons_self)
    have hs := ih fun hm => h (List.mem_cons_of_mem _ hm)
    unfold vsnprintf at hs ⊢
    rw [pieces_char hc]
    cases hps : pieces s with
    | none => rw [hps] at hs; cases hs
    | some ps =>
      rw [hps, Option.bind_some] at hs
      simp only [Option.map_some, Option.bind_some, expand, Piece.arity, Piece.text, Nat.zero_le,
        if_true, List.drop_zero, hs]
      rfl

theorem pieces_percent {d : UInt8} {rest : List UInt8}
    (h : s.dropWhile (· ∈ modifiers) = d :: rest) : pieces (percent :: s) =
      (pieces rest).map (.conv (s.takeWhile (· ∈ modifiers)) d :: ·) := by
  rw [pieces, if_pos rfl]
  split
  · next hnil => rw [hnil] at h; cases h
  · next d' rest' hcons =>
    rw [hcons] at h
    cases h
    rfl

theorem not_mem_takeWhile (s : List UInt8) : percent ∉ s.takeWhile (· ∈ modifiers) := by
  intro h
  have hmem := List.all_eq_true.1 List.all_takeWhile _ h
  exact absurd hmem (by decide)

/-- A directive without arguments writes fewer `%` than it has. -/
theorem count_of_expand (hps : pieces format = some ps)
    (h : expand r ps ([] : List A) = some (out, ap')) :
    out.count percent + (if percent ∈ format then 1 else 0) ≤ format.count percent := by
  induction format using pieces.induct generalizing ps out with
  | case1 =>
    rw [pieces_nil] at hps
    cases hps
    cases h
    simp
  | case2 s hs =>
    rw [pieces, if_pos rfl] at hps
    split at hps
    · cases hps
    · next hcons => rw [hs] at hcons; cases hcons
  | case3 s d rest hs ih =>
    rw [pieces_percent hs] at hps
    obtain ⟨ps, hps', rfl⟩ := Option.map_eq_some_iff.1 hps
    obtain ⟨harity, text, out', htext, hrest, rfl⟩ := expand_cons h
    rw [List.drop_nil] at hrest
    have hle := ih hps' hrest
    have hcount : (percent :: s).count percent = 1 + (d :: rest).count percent := by
      conv_lhs => rw [← List.takeWhile_append_dropWhile (p := (· ∈ modifiers)) (l := s), hs]
      rw [List.count_cons_self, List.count_append, List.count_eq_zero.2 (not_mem_takeWhile s)]
      omega
    have hd : d = percent ∨ d = 0x6D := by
      by_contra hd
      rw [List.length_nil, Piece.arity, arity, if_neg hd] at harity
      omega
    rw [hcount, if_pos List.mem_cons_self, List.count_append]
    rcases hd with rfl | rfl
    · rw [Piece.text, if_pos rfl] at htext
      cases htext
      simp only [List.count_cons_self, List.count_nil]
      omega
    · rw [Piece.text, if_neg (by decide), if_pos rfl] at htext
      cases htext
      rw [List.count_eq_zero.2 r.not_mem_errorText]
      have := List.count_le_count_cons (a := percent) (b := 0x6D) (l := rest)
      omega
  | case4 c s hc ih =>
    rw [pieces_char hc] at hps
    obtain ⟨ps, hps', rfl⟩ := Option.map_eq_some_iff.1 hps
    obtain ⟨-, text, out', htext, hrest, rfl⟩ := expand_cons h
    cases htext
    rw [List.drop_nil] at hrest
    have hle := ih hps' hrest
    simp only [List.count_append, List.count_cons_of_ne hc, List.count_nil, List.mem_cons,
      or_iff_right (Ne.symm hc)]
    omega

/-- **A string is its own result** if and only if there is no directive in it. -/
theorem vsnprintf_nil_iff :
    vsnprintf r format ([] : List A) = some (format, []) ↔ percent ∉ format := by
  refine ⟨fun h hmem => ?_, fun h => vsnprintf_plain h []⟩
  unfold vsnprintf at h
  obtain ⟨ps, hps, h⟩ := Option.bind_eq_some_iff.1 h
  have hlt := count_of_expand hps h
  rw [if_pos hmem] at hlt
  omega

end Printf
