/-
  What WAMR logs.

  A message is formatted into a buffer, which is enlarged until the text fits; then the text goes to
  `errmsg_internal`, which takes it for a format string of its own.  `pg_bh_log` starts over with the
  arguments at each pass, and `pg_log_vprintf` goes on behind those that the last pass has taken.  So a
  `%` in the text is not recorded as it is, nor is a long text with arguments that comes by the second
  way (`logged_iff`).

  Strings are the bytes in front of the NUL.  To read an argument that is not there has no result.
-/
import Mathlib.Data.List.DropRight
import Rustica.Lib.Printf
import Rustica.Builder

namespace Rustica.Log

open Printf

/-! ## Buffers -/

/-- An empty `StringInfo`, which can be enlarged. -/
structure Buf where
  maxlen : ℕ
  pos : 0 < maxlen

/-- `initStringInfo`. -/
def initStringInfo : Buf := ⟨1024, by decide⟩

/-- The rest of `enlargeStringInfo`, for a request that it does not refuse. -/
def Buf.enlarged (buf : Buf) (needed : ℕ) : Buf :=
  if needed + 1 ≤ buf.maxlen then buf
  else
    ⟨min (Builder.doubled (needed + 1) (2 * buf.maxlen)) maxAllocSize, by
      have hpos := buf.pos
      have hle : _ ≤ Builder.doubled (needed + 1) _ :=
        (Builder.le_doubled (Nat.mul_pos two_pos buf.pos)).1
      rw [lt_min_iff]
      exact ⟨by omega, by decide⟩⟩

variable {A : Type} {buf : Buf} {n : ℕ}

theorem refuses_iff : enlargeStringInfo ⟨[], buf.maxlen⟩ n = none ↔ n < maxAllocSize := by
  have hlen : ([] : List UInt8).length = 0 := rfl
  rw [enlargeStringInfo, if_neg (by omega), Int.toNat_natCast]
  split_ifs with h
  · exact iff_of_false (fun h => by cases h) (by simp only [hlen, maxAllocSize] at h ⊢; omega)
  · exact iff_of_true rfl (by simp only [hlen, maxAllocSize] at h ⊢; omega)

theorem lt_enlarged (buf : Buf) (h : n < maxAllocSize) (hle : buf.maxlen ≤ n) :
    n < (buf.enlarged n).maxlen := by
  have hd : n + 1 ≤ Builder.doubled (n + 1) _ :=
    (Builder.le_doubled (Nat.mul_pos two_pos buf.pos)).2
  rw [Buf.enlarged, if_neg (by omega), lt_min_iff]
  exact ⟨by omega, h⟩

/-! ## Formatting -/

variable (r : Renderer A)

/-- What a pass of formatting comes to: the buffer holds the text, an error, or an argument that is
    missing. -/
inductive Filled where
  | text (s : List UInt8)
  | raises (err : String)
  | undefined

/-- The loops around `appendStringInfoVA`, which tells the room that the text and its NUL need.  `next`
    are the arguments of the next pass, by those that are left after one. -/
def fill (next : List A → List A) (format : List UInt8) (buf : Buf) (ap : List A) : Filled :=
  match vsnprintf r format ap with
  | none => .undefined
  | some (text, rest) =>
    if text.length < buf.maxlen then .text text
    else if text.length > maxAllocSize - 1 then .raises "out of memory"
    else
      match _h : enlargeStringInfo ⟨[], buf.maxlen⟩ ((text.length + 1 : ℕ) : ℤ) with
      | some err => .raises err
      | none => fill next format (buf.enlarged (text.length + 1)) (next rest)
termination_by maxAllocSize - buf.maxlen
decreasing_by
  have hlt := refuses_iff.1 _h
  have hnew := lt_enlarged buf hlt (by omega)
  omega

/-- What Postgres keeps of a message. -/
inductive Logged where
  /-- `errstart` says that the message is not wanted. -/
  | silent
  /-- The text, at the level. -/
  | records (elevel : ℤ) (text : List UInt8)
  | raises (err : String)
  | undefined
  deriving DecidableEq

/-- `errmsg_internal`, with a format string and no arguments. -/
def errmsgInternal (elevel : ℤ) (fmt : List UInt8) : Logged :=
  match fill r (fun _ => []) fmt initStringInfo [] with
  | .text s => .records elevel s
  | .raises err => .raises err
  | .undefined => .undefined

/-! ## The two ways -/

/-- The loop that takes newlines from the end. -/
def stripNewlines (s : List UInt8) : List UInt8 := s.rdropWhile (· = 0x0A)

/-- `LOG` -/
def log : ℤ := 15

/-- `pg_log_vprintf`, where `errstart` tells the levels that are wanted; with the length that it
    returns. -/
def pgLogVprintf (errstart : ℤ → Bool) (format : List UInt8) (ap : List A) : Logged × ℕ :=
  if errstart log then
    match fill r id format initStringInfo ap with
    | .text s => (errmsgInternal r log (stripNewlines s), (stripNewlines s).length)
    | .raises err => (.raises err, 0)
    | .undefined => (.undefined, 0)
  else (.silent, 0)

/-- `LogLevel`. -/
inductive LogLevel where
  | fatal
  | error
  | warning
  | debug
  | verbose

/-- The level of Postgres: `FATAL`, `ERROR`, `WARNING`, `DEBUG1`, `DEBUG3`. -/
def LogLevel.elevel : LogLevel → ℤ
  | .fatal => 22
  | .error => 21
  | .warning => 19
  | .debug => 14
  | .verbose => 12

/-- `pg_bh_log`. -/
def pgBhLog (errstart : ℤ → Bool) (level : LogLevel) (fmt : List UInt8) (args : List A) : Logged :=
  if errstart level.elevel then
    match fill r (fun _ => args) fmt initStringInfo args with
    | .text s => errmsgInternal r level.elevel s
    | .raises err => .raises err
    | .undefined => .undefined
  else .silent

/-! ## Messages -/

/-- A message of WAMR: a format and the arguments that it takes. -/
structure Message (r : Renderer A) where
  format : List UInt8
  args : List A
  text : List UInt8
  vsnprintf_eq : vsnprintf r format args = some (text, [])

/-- The two ways of a message. -/
inductive Route where
  /-- by `pg_log_vprintf` -/
  | vprintf
  /-- by `pg_bh_log` -/
  | bhLog (level : LogLevel)

variable {r}

def Route.elevel : Route → ℤ
  | .vprintf => log
  | .bhLog level => level.elevel

/-- What is to be recorded. -/
def Route.text : Route → List UInt8 → List UInt8
  | .vprintf, s => stripNewlines s
  | .bhLog _, s => s

/-- What the buffer holds. -/
def Route.filled (m : Message r) : Route → Filled
  | .vprintf => fill r id m.format initStringInfo m.args
  | .bhLog _ => fill r (fun _ => m.args) m.format initStringInfo m.args

def Route.logged (errstart : ℤ → Bool) (m : Message r) : Route → Logged
  | .vprintf => (pgLogVprintf r errstart m.format m.args).1
  | .bhLog level => pgBhLog r errstart level m.format m.args

/-- **What is asked of a message** that is wanted: the loop ends with the text in the buffer, and it
    is the text that is recorded. -/
def Faithful (errstart : ℤ → Bool) (route : Route) (m : Message r) : Prop :=
  errstart route.elevel = true →
    route.filled m = .text m.text ∧ route.logged errstart m = .records route.elevel (route.text m.text)

/-- One pass is enough, or the next one has the same arguments and Postgres grants the room. -/
def Fits (m : Message r) : Route → Prop
  | .vprintf => m.text.length < 1024 ∨ m.args = [] ∧ m.text.length + 1 < maxAllocSize
  | .bhLog _ => m.text.length + 1 < maxAllocSize

/-! ## The loops -/

variable {next : List A → List A} {format text : List UInt8} {ap rest : List A}

theorem fill_undefined (hv : vsnprintf r format ap = none) :
    fill r next format buf ap = .undefined := by
  rw [fill, hv]

theorem fill_done (hv : vsnprintf r format ap = some (text, rest)) (h : text.length < buf.maxlen) :
    fill r next format buf ap = .text text := by
  rw [fill, hv]
  exact if_pos h

theorem fill_again (hv : vsnprintf r format ap = some (text, rest)) (h : buf.maxlen ≤ text.length)
    (hlt : text.length + 1 < maxAllocSize) :
    fill r next format buf ap = fill r next format (buf.enlarged (text.length + 1)) (next rest) := by
  rw [fill, hv]
  dsimp only
  rw [if_neg (not_lt.2 h), if_neg (by omega)]
  split
  · next heq => rw [refuses_iff.2 hlt] at heq; cases heq
  · rfl

theorem fill_raises (next : List A → List A) (hv : vsnprintf r format ap = some (text, rest))
    (h : buf.maxlen ≤ text.length) (hge : maxAllocSize ≤ text.length + 1) : ∃ err, fill r next format buf ap = .raises err := by
  rw [fill, hv]
  dsimp only
  rw [if_neg (not_lt.2 h)]
  split_ifs
  · exact ⟨_, rfl⟩
  · split
    · exact ⟨_, rfl⟩
    · next heq => exact absurd (refuses_iff.1 heq) (not_lt.2 hge)

/-- **Two passes** with the same arguments fill the buffer. -/
theorem fill_text (hv : vsnprintf r format ap = some (text, rest)) (hnext : next rest = ap)
    (hlt : text.length < buf.maxlen ∨ text.length + 1 < maxAllocSize) :
    fill r next format buf ap = .text text := by
  by_cases h : text.length < buf.maxlen
  · exact fill_done hv h
  · have hfits := hlt.resolve_left h
    rw [fill_again hv (not_lt.1 h) hfits, hnext]
    have hnew := lt_enlarged buf hfits (by omega)
    exact fill_done hv (by omega)

/-- If the passes have the same arguments, the buffer can hold no other text. -/
theorem eq_of_fill_text {s : List UInt8} (hv : vsnprintf r format ap = some (text, rest))
    (hnext : next rest = ap) (h : fill r next format buf ap = .text s) : s = text := by
  by_cases hlt : text.length < buf.maxlen ∨ text.length + 1 < maxAllocSize
  · rw [fill_text hv hnext hlt] at h
    cases h
    rfl
  · rw [not_or, not_lt, not_lt] at hlt
    obtain ⟨err, herr⟩ := fill_raises next hv hlt.1 hlt.2
    rw [herr] at h
    cases h

/-- **The format is recorded as it is** if and only if there is no directive in it, if there is room. -/
theorem errmsgInternal_iff (elevel : ℤ) (h : text.length + 1 < maxAllocSize) :
    errmsgInternal r elevel text = .records elevel text ↔ percent ∉ text := by
  unfold errmsgInternal
  constructor
  · intro hrec
    cases hfill : fill r (fun _ => []) text initStringInfo [] with
    | text s =>
      rw [hfill] at hrec
      cases hrec
      cases hv : vsnprintf r text ([] : List A) with
      | none =>
        rw [fill_undefined hv] at hfill
        cases hfill
      | some res =>
        obtain ⟨out, rest⟩ := res
        have hrest : rest = [] := by
          have hlen := length_le_of_vsnprintf hv
          exact List.eq_nil_of_length_eq_zero (Nat.le_zero.1 hlen)
        subst hrest
        rw [← eq_of_fill_text hv rfl hfill] at hv
        exact vsnprintf_nil_iff.1 hv
    | raises err => rw [hfill] at hrec; cases hrec
    | undefined => rw [hfill] at hrec; cases hrec
  · intro hmem
    rw [fill_text (vsnprintf_plain hmem []) rfl (.inr h)]

theorem Route.filled_iff (route : Route) (m : Message r) :
    route.filled m = .text m.text ↔ Fits m route := by
  have hv := m.vsnprintf_eq
  cases route with
  | vprintf =>
    unfold Route.filled Fits
    by_cases hlt : m.text.length < 1024
    · exact iff_of_true (fill_done hv hlt) (.inl hlt)
    by_cases hargs : m.args = []
    · by_cases hmax : m.text.length + 1 < maxAllocSize
      · exact iff_of_true (fill_text hv hargs.symm (.inr hmax)) (.inr ⟨hargs, hmax⟩)
      · obtain ⟨err, herr⟩ := fill_raises id hv (show initStringInfo.maxlen ≤ _ from not_lt.1 hlt)
          (not_lt.1 hmax)
        rw [herr]
        exact iff_of_false (fun h => by cases h) (not_or.2 ⟨hlt, fun h => hmax h.2⟩)
    · have hne : ∀ s, fill r id m.format initStringInfo m.args ≠ .text s := by
        intro s h
        by_cases hmax : m.text.length + 1 < maxAllocSize
        · rw [fill_again hv (not_lt.1 hlt) hmax, id, fill_undefined (vsnprintf_nil hv hargs)] at h
          cases h
        · obtain ⟨err, herr⟩ := fill_raises id hv (show initStringInfo.maxlen ≤ _ from not_lt.1 hlt)
            (not_lt.1 hmax)
          rw [herr] at h
          cases h
      exact iff_of_false (hne _) (not_or.2 ⟨hlt, fun h => hargs h.1⟩)
  | bhLog level =>
    unfold Route.filled Fits
    by_cases hmax : m.text.length + 1 < maxAllocSize
    · exact iff_of_true (fill_text hv rfl (.inr hmax)) hmax
    · have hge : initStringInfo.maxlen ≤ m.text.length := by
        simp only [initStringInfo, maxAllocSize] at hmax ⊢
        omega
      obtain ⟨err, herr⟩ := fill_raises (fun _ => m.args) hv hge (not_lt.1 hmax)
      rw [herr]
      exact iff_of_false (fun h => by cases h) hmax

theorem Route.logged_eq {errstart : ℤ → Bool} {route : Route} {m : Message r}
    (hon : errstart route.elevel = true) (h : route.filled m = .text m.text) :
    route.logged errstart m = errmsgInternal r route.elevel (route.text m.text) := by
  cases route with
  | vprintf =>
    change errstart log = true at hon
    change fill r id m.format initStringInfo m.args = _ at h
    rw [Route.logged, pgLogVprintf, if_pos hon, h]
    rfl
  | bhLog level =>
    change errstart level.elevel = true at hon
    change fill r (fun _ => m.args) m.format initStringInfo m.args = _ at h
    rw [Route.logged, pgBhLog, if_pos hon, h]
    rfl

theorem Route.length_text (route : Route) (m : Message r) (h : Fits m route) :
    (route.text m.text).length + 1 < maxAllocSize := by
  cases route with
  | vprintf =>
    have hle := (List.rdropWhile_prefix (· = 0x0A) m.text).length_le
    rcases h with h | h
    · simp only [Route.text, stripNewlines, maxAllocSize]
      omega
    · exact (Nat.succ_le_succ hle).trans_lt h.2
  | bhLog level => exact h

/-- **Messages are recorded as they are** if and only if they fit, and their texts have no `%`. -/
theorem logged_iff (errstart : ℤ → Bool) (route : Route) (m : Message r) :
    Faithful errstart route m ↔
      (errstart route.elevel = true → Fits m route ∧ percent ∉ route.text m.text) := by
  unfold Faithful
  refine forall_congr' fun hon => ?_
  rw [route.filled_iff m]
  refine and_congr_right fun hfits => ?_
  rw [Route.logged_eq hon ((route.filled_iff m).2 hfits),
    errmsgInternal_iff _ (route.length_text m hfits)]

/-- Arguments that are strings, for `%s`. -/
def strings : Renderer (List UInt8) where
  render mods c args := if mods = [] ∧ c = 0x73 then args.head? else none
  errorText := []
  not_mem_errorText := List.not_mem_nil

/-- `100%`, as the argument of `%s`. -/
def percentMessage : Message strings where
  format := [0x25, 0x73]
  args := [[0x31, 0x30, 0x30, 0x25]]
  text := [0x31, 0x30, 0x30, 0x25]
  vsnprintf_eq := by
    have hps : pieces [0x25, 0x73] = some [.conv [] 0x73] :=
      (pieces_percent rfl).trans (by rw [pieces_nil]; rfl)
    rw [vsnprintf, hps]
    rfl

theorem percentMessage_not_faithful : ¬ Faithful (fun _ => true) (.bhLog .warning) percentMessage := by
  intro h
  obtain ⟨hfilled, hrec⟩ := h rfl
  rw [Route.logged_eq rfl hfilled, errmsgInternal_iff _ (by decide)] at hrec
  exact absurd hrec (by decide)

end Rustica.Log
