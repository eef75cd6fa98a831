/-
  Lexers that are fed in pieces.

  A lexer reads byte by byte.  A byte may be in a span of some kind, and there may be events before
  and after it.  From a piece of the input come the spans, as far as they are in the piece, and the
  events, in order (`Lexer.items`).  What is in the spans of one piece after the other does not depend
  on where the input was cut (`Lexer.contents_pieces`).
-/
import Mathlib.Tactic

namespace Spans

variable {σ κ ε : Type*}

/-- What is said of a byte. -/
structure Lexeme (σ κ ε : Type*) where
  before : List ε
  kind : Option κ
  after : List ε
  next : σ

/-- No lexeme is an error. -/
structure Lexer (σ κ ε : Type*) where
  step : σ → UInt8 → Option (Lexeme σ κ ε)

/-- A span, by the places in the piece, or an event. -/
inductive Item (κ ε : Type*) where
  | span (kind : κ) (start len : ℕ)
  | event (e : ε)

/-- A byte with the kind of its span, or an event. -/
abbrev Content (κ ε : Type*) := (κ × UInt8) ⊕ ε

/-- The span that is open at place `i`. -/
def close (i : ℕ) : Option (κ × ℕ) → List (Item κ ε)
  | some (kind, start) => [.span kind start (i - start)]
  | none => []

/-- The span that is open after a byte at place `i`: the one before goes on if the kind is the same
    and nothing happens between. -/
def reopen [DecidableEq κ] (i : ℕ) (x : Lexeme σ κ ε) (cur : Option (κ × ℕ)) :
    List (Item κ ε) × Option (κ × ℕ) :=
  if x.before = [] ∧ cur.map Prod.fst = x.kind then ([], cur)
  else (close i cur ++ x.before.map .event, x.kind.map fun kind => (kind, i))

/-- The items of the rest of a piece, from place `i` on, and the state after it.  At the end of the
    piece the open span is an item; after an error it is not. -/
def Lexer.itemsFrom [DecidableEq κ] (l : Lexer σ κ ε) : σ → ℕ → Option (κ × ℕ) → List UInt8 →
    List (Item κ ε) × Option σ
  | s, i, cur, [] => (close i cur, some s)
  | s, i, cur, b :: bs =>
    match l.step s b with
    | none => ([], none)
    | some x =>
      let (closed, cur) := reopen i x cur
      if x.after = [] then
        let rest := l.itemsFrom x.next (i + 1) cur bs
        (closed ++ rest.1, rest.2)
      else
        let rest := l.itemsFrom x.next (i + 1) none bs
        (closed ++ close (i + 1) cur ++ x.after.map .event ++ rest.1, rest.2)

/-- The items of a piece. -/
def Lexer.items [DecidableEq κ] (l : Lexer σ κ ε) (s : σ) (piece : List UInt8) : List (Item κ ε) × Option σ :=
  l.itemsFrom s 0 none piece

/-- What an item of a piece stands for. -/
def Item.content (piece : List UInt8) : Item κ ε → List (Content κ ε)
  | .span kind start len => ((piece.drop start).take len).map fun b => .inl (kind, b)
  | .event e => [.inr e]

/-- **What is to be told** of an input, byte by byte, and the state after it. -/
def Lexer.told (l : Lexer σ κ ε) : σ → List UInt8 → List (Content κ ε) × Option σ
  | s, [] => ([], some s)
  | s, b :: bs =>
    match l.step s b with
    | none => ([], none)
    | some x =>
      let rest := l.told x.next bs
      (x.before.map .inr ++ (x.kind.map fun kind => .inl (kind, b)).toList ++ x.after.map .inr ++
        rest.1, rest.2)

variable {l : Lexer σ κ ε} {s s' : σ} {piece : List UInt8}

theorem told_append {bs : List UInt8} (cs : List UInt8) (h : (l.told s bs).2 = some s') :
    (l.told s (bs ++ cs)).1 = (l.told s bs).1 ++ (l.told s' cs).1 ∧
      (l.told s (bs ++ cs)).2 = (l.told s' cs).2 := by
  induction bs generalizing s with
  | nil =>
    cases h
    exact ⟨rfl, rfl⟩
  | cons b bs ih =>
    rw [Lexer.told] at h
    rw [List.cons_append, Lexer.told, Lexer.told]
    cases hx : l.step s b with
    | none =>
      rw [hx] at h
      cases h
    | some x =>
      rw [hx] at h
      obtain ⟨h1, h2⟩ := ih h
      dsimp only
      simp only [h1, h2, List.append_assoc, and_self]

/-- What goes without an error goes so far without one. -/
theorem told_isSome {bs cs : List UInt8} (h : (l.told s (bs ++ cs)).2.isSome) :
    ∃ s', (l.told s bs).2 = some s' := by
  induction bs generalizing s with
  | nil => exact ⟨s, rfl⟩
  | cons b bs ih =>
    rw [List.cons_append, Lexer.told] at h
    rw [Lexer.told]
    cases hx : l.step s b with
    | none =>
      rw [hx] at h
      cases h
    | some x =>
      rw [hx] at h
      exact ih h

/-- What an open span stands for at place `i`. -/
def pending (piece : List UInt8) (i : ℕ) (cur : Option (κ × ℕ)) : List (Content κ ε) :=
  (close i cur).flatMap (Item.content piece)

/-- The span that is open has begun before. -/
def Begun (i : ℕ) (cur : Option (κ × ℕ)) : Prop := ∀ c ∈ cur, c.2 ≤ i

theorem content_events (es : List ε) :
    (es.map Item.event).flatMap (Item.content piece) = es.map (.inr : ε → Content κ ε) := by
  induction es with
  | nil => rfl
  | cons e es ih => exact congrArg (_ :: ·) ih

/-- An open span takes one byte more. -/
theorem pending_succ {i start : ℕ} {kind : κ} {b : UInt8} (hb : piece[i]? = some b)
    (hstart : start ≤ i) : (pending piece (i + 1) (some (kind, start)) : List (Content κ ε)) =
      pending piece i (some (kind, start)) ++ [.inl (kind, b)] := by
  have hlt := (List.getElem?_eq_some_iff.1 hb).1
  have hget : (piece.drop start)[i - start]? = some b := by
    rw [List.getElem?_drop, Nat.add_sub_cancel' hstart, hb]
  have htake : (piece.drop start).take (i + 1 - start) =
      (piece.drop start).take (i - start) ++ [b] := by
    rw [Nat.succ_sub hstart, List.take_add_one, hget]
    rfl
  simp only [pending, close, List.flatMap_cons, List.flatMap_nil, List.append_nil, Item.content]
  rw [htake, List.map_append]
  rfl

/-- A span that opens at a byte. -/
theorem pending_self (i : ℕ) (kind : Option κ) :
    (pending piece i (kind.map fun kind => (kind, i)) : List (Content κ ε)) = [] := by
  cases kind with
  | none => rfl
  | some kind =>
    simp only [pending, close, Option.map_some, List.flatMap_cons, List.flatMap_nil,
      List.append_nil, Item.content, Nat.sub_self, List.take_zero, List.map_nil]

theorem content_close (i : ℕ) (cur : Option (κ × ℕ)) :
    (close i cur).flatMap (Item.content piece) = (pending piece i cur : List (Content κ ε)) := rfl

variable [DecidableEq κ]

theorem reopen_begun {i : ℕ} {x : Lexeme σ κ ε} {cur : Option (κ × ℕ)} (hcur : Begun i cur) :
    Begun (i + 1) (reopen i x cur).2 := by
  rw [reopen]
  split_ifs
  · exact fun c hc => (hcur c hc).trans (Nat.le_succ i)
  · intro c hc
    obtain ⟨kind, -, rfl⟩ := Option.map_eq_some_iff.1 hc
    exact Nat.le_succ i

/-- **One byte**: what is closed, and what is open then, stand for what was open, the events before
    the byte, and the byte. -/
theorem content_reopen {i : ℕ} {b : UInt8} {x : Lexeme σ κ ε} {cur : Option (κ × ℕ)}
    (hb : piece[i]? = some b) (hcur : Begun i cur) :
    (reopen i x cur).1.flatMap (Item.content piece) ++ pending piece (i + 1) (reopen i x cur).2 =
      pending piece i cur ++ x.before.map .inr ++
        (x.kind.map fun kind => .inl (kind, b)).toList := by
  rw [reopen]
  split_ifs with hsame
  · obtain ⟨hnil, hkind⟩ := hsame
    rw [hnil, ← hkind]
    cases cur with
    | none => rfl
    | some c =>
      obtain ⟨kind, start⟩ := c
      rw [pending_succ hb (hcur _ rfl), List.flatMap_nil, List.nil_append, List.map_nil,
        List.append_nil]
      rfl
  · rw [List.flatMap_append, content_close, content_events, List.append_assoc, List.append_assoc]
    refine congrArg (_ ++ ·) (congrArg (_ ++ ·) ?_)
    cases hkind : x.kind with
    | none => rfl
    | some kind =>
      rw [Option.map_some, pending_succ hb le_rfl, Option.map_some]
      exact congrArg (· ++ _) (pending_self i (some kind))

/-- **The rest of a piece**: the items stand for what was open and what is to be told of the rest,
    but for a span that is open at an error. -/
theorem content_itemsFrom {i : ℕ} {bs : List UInt8} {cur : Option (κ × ℕ)}
    (hbs : piece.drop i = bs) (hcur : Begun i cur) :
    (l.itemsFrom s i cur bs).2 = (l.told s bs).2 ∧
    (l.itemsFrom s i cur bs).1.flatMap (Item.content piece) <+: pending piece i cur ++ (l.told s bs).1 ∧
    ((l.told s bs).2.isSome →
      (l.itemsFrom s i cur bs).1.flatMap (Item.content piece) =
        pending piece i cur ++ (l.told s bs).1) := by
  induction bs generalizing s i cur with
  | nil =>
    rw [Lexer.itemsFrom, Lexer.told, content_close, List.append_nil]
    exact ⟨rfl, List.prefix_rfl, fun _ => rfl⟩
  | cons b bs ih =>
    have hb : piece[i]? = some b := by
      rw [← List.head?_drop, hbs, List.head?_cons]
    have hdrop : piece.drop (i + 1) = bs := by rw [← List.tail_drop, hbs, List.tail_cons]
    rw [Lexer.itemsFrom, Lexer.told]
    cases hx : l.step s b with
    | none => exact ⟨rfl, List.nil_prefix, fun h => by cases h⟩
    | some x =>
      have hopen := content_reopen (x := x) hb hcur
      have hcur' := reopen_begun (x := x) hcur
      dsimp only
      split_ifs with hafter
      · obtain ⟨hstate, hprefix, heq⟩ := ih (s := x.next) hdrop hcur'
        have htold : pending piece i cur ++ (x.before.map .inr ++
            (x.kind.map fun kind => .inl (kind, b)).toList ++ x.after.map .inr ++
              (l.told x.next bs).1) =
            (reopen i x cur).1.flatMap (Item.content piece) ++
              (pending piece (i + 1) (reopen i x cur).2 ++ (l.told x.next bs).1) := by
          rw [← List.append_assoc (List.flatMap _ _), hopen, hafter]
          simp only [List.map_nil, List.append_nil, List.append_assoc]
        rw [htold, List.flatMap_append]
        exact ⟨hstate, (List.prefix_append_right_inj _).2 hprefix, fun h => congrArg (_ ++ ·) (heq h)⟩
      · have hnone : Begun (i + 1) (none : Option (κ × ℕ)) := fun c hc => by cases hc
        obtain ⟨hstate, hprefix, heq⟩ := ih (s := x.next) hdrop hnone
        have htold : pending piece i cur ++ (x.before.map .inr ++
            (x.kind.map fun kind => .inl (kind, b)).toList ++ x.after.map .inr ++
              (l.told x.next bs).1) =
            (reopen i x cur).1.flatMap (Item.content piece) ++
              pending piece (i + 1) (reopen i x cur).2 ++ x.after.map .inr ++
              (pending piece (i + 1) none ++ (l.told x.next bs).1) := by
          rw [hopen]
          simp only [List.append_assoc]
          rfl
        rw [htold, List.flatMap_append, List.flatMap_append, List.flatMap_append, content_close,
          content_events]
        exact ⟨hstate, (List.prefix_append_right_inj _).2 hprefix, fun h => congrArg (_ ++ ·) (heq h)⟩

variable (l s piece) in
/-- **A piece** tells what is to be told, but for a span that is open at an error. -/
theorem content_items :
    (l.items s piece).2 = (l.told s piece).2 ∧
    (l.items s piece).1.flatMap (Item.content piece) <+: (l.told s piece).1 ∧
    ((l.told s piece).2.isSome →
      (l.items s piece).1.flatMap (Item.content piece) = (l.told s piece).1) :=
  content_itemsFrom rfl fun c hc => by cases hc

/-- The item lies within the piece. -/
def Item.Within (piece : List UInt8) : Item κ ε → Prop
  | .span _ start len => start + len ≤ piece.length
  | .event _ => True

omit [DecidableEq κ] in
theorem close_within {i : ℕ} {cur : Option (κ × ℕ)} (hi : i ≤ piece.length) (hcur : Begun i cur) :
    ∀ x ∈ (close i cur : List (Item κ ε)), x.Within piece := by
  cases cur with
  | none => exact fun x hx => absurd hx List.not_mem_nil
  | some c =>
    intro x hx
    obtain rfl := List.mem_singleton.1 hx
    have : c.2 ≤ i := hcur c rfl
    show c.2 + (i - c.2) ≤ piece.length
    omega

omit [DecidableEq κ] in
theorem events_within (es : List ε) : ∀ x ∈ es.map (.event : ε → Item κ ε), x.Within piece := by
  intro x hx
  obtain ⟨e, -, rfl⟩ := List.mem_map.1 hx
  trivial

theorem itemsFrom_within {i : ℕ} {bs : List UInt8} {cur : Option (κ × ℕ)}
    (hlen : i + bs.length ≤ piece.length) (hcur : Begun i cur) :
    ∀ x ∈ (l.itemsFrom s i cur bs).1, x.Within piece := by
  induction bs generalizing s i cur with
  | nil => exact close_within hlen hcur
  | cons b bs ih =>
    rw [List.length_cons] at hlen
    rw [Lexer.itemsFrom]
    cases hx : l.step s b with
    | none => exact fun x hx => absurd hx List.not_mem_nil
    | some y =>
      have hcur' := reopen_begun (x := y) hcur
      have hclosed : ∀ x ∈ (reopen i y cur).1, x.Within piece := by
        rw [reopen]
        split_ifs
        · exact fun x hx => absurd hx List.not_mem_nil
        · exact List.forall_mem_append.2 ⟨close_within (by omega) hcur, events_within _⟩
      dsimp only
      split_ifs
      · exact List.forall_mem_append.2 ⟨hclosed, ih (by omega) hcur'⟩
      · have hnone : Begun (i + 1) (none : Option (κ × ℕ)) := fun c hc => by cases hc
        exact List.forall_mem_append.2 ⟨List.forall_mem_append.2 ⟨List.forall_mem_append.2
          ⟨hclosed, close_within (by omega) hcur'⟩, events_within _⟩, ih (by omega) hnone⟩

/-- **Items lie within the piece.** -/
theorem items_within : ∀ x ∈ (l.items s piece).1, x.Within piece :=
  itemsFrom_within (by rw [Nat.zero_add]) fun c hc => by cases hc

end Spans
