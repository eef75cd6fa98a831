/-
  Lists that are linked through the memory: each cell holds a value and points to the cell before it.

  A list ends in a null pointer, so no cell is in it twice (`Links.nodup`).  It stays as it is under
  changes to other cells, and a cell is taken out of it by one change to the cell that points to it
  (`Links.unlink`).
-/
import Rustica.Lib.Memory

/-- A cell; `none` is a null pointer. -/
structure LinkCell (P V : Type*) where
  prev : Option P
  val : V

namespace Memory

variable {P V : Type*}

/-- From `cur` on the cells are those of the list, with these values. -/
inductive Links (m : Memory P (LinkCell P V)) : Option P → List (P × V) → Prop
  | nil : Links m none []
  | cons {p c l} : m.get? p = some c → Links m c.prev l → Links m (some p) ((p, c.val) :: l)

variable {m m' : Memory P (LinkCell P V)} {cur : Option P} {p q : P} {v w : V} {c d : LinkCell P V}
  {l l₁ l₂ : List (P × V)}

theorem Links.unique {l' : List (P × V)} (h : m.Links cur l) (h' : m.Links cur l') : l = l' := by
  induction h generalizing l' with
  | nil =>
    cases h'
    rfl
  | cons hp _ ih =>
    cases h' with
    | cons hp' h' =>
      obtain rfl := Option.some_inj.1 (hp.symm.trans hp')
      rw [ih h']

theorem Links.of_append (h : m.Links cur (l₁ ++ l₂)) : ∃ cur', m.Links cur' l₂ := by
  induction l₁ generalizing cur with
  | nil => exact ⟨cur, h⟩
  | cons x l₁ ih =>
    cases h with
    | cons _ h => exact ih h

theorem Links.cur_eq (h : m.Links cur ((p, v) :: l)) : cur = some p := by
  cases h
  rfl

theorem Links.tail (h : m.Links cur ((p, v) :: l)) (hp : m.get? p = some c) :
    m.Links c.prev l := by
  cases h with
  | cons hp' h =>
    obtain rfl := Option.some_inj.1 (hp.symm.trans hp')
    exact h

/-- A cell inside of a list is not the first one: from there on the list would be as long as it is
    as a whole. -/
theorem Links.cur_ne (h : m.Links cur (l₁ ++ (p, v) :: l₂)) (hl : l₁ ≠ []) : cur ≠ some p := by
  rintro rfl
  obtain ⟨cur', hrest⟩ := h.of_append
  obtain rfl := hrest.cur_eq
  exact hl (List.append_left_eq_self.1 (h.unique hrest))

/-- **No cell is in a list twice.** -/
theorem Links.nodup (h : m.Links cur l) : (l.map Prod.fst).Nodup := by
  induction h with
  | nil => exact List.nodup_nil
  | @cons p c l hp h ih =>
    rw [List.map_cons, List.nodup_cons]
    refine ⟨fun hmem => ?_, ih⟩
    obtain ⟨⟨q, w⟩, hq, rfl⟩ := List.mem_map.1 hmem
    obtain ⟨l₁, l₂, rfl⟩ := List.append_of_mem hq
    have hwhole : m.Links (some q) (((q, c.val) :: l₁) ++ (q, w) :: l₂) := .cons hp h
    exact hwhole.cur_ne (List.cons_ne_nil _ _) rfl

theorem Links.get? (h : m.Links cur l) (hp : (p, v) ∈ l) : ∃ c, m.get? p = some c ∧ c.val = v := by
  induction h with
  | nil => cases hp
  | @cons q c l hq _ ih =>
    rcases List.mem_cons.1 hp with heq | hp
    · cases heq
      exact ⟨c, hq, rfl⟩
    · exact ih hp

/-- **Frame**: a list does not depend on other cells. -/
theorem Links.congr (h : m.Links cur l) (hm : ∀ p ∈ l.map Prod.fst, m'.get? p = m.get? p) :
    m'.Links cur l := by
  induction h with
  | nil => exact .nil
  | @cons p c l hp _ ih =>
    rw [List.map_cons] at hm
    have hhead := hm p List.mem_cons_self
    refine .cons (hhead.trans hp) (ih fun q hq => hm q (List.mem_cons_of_mem _ hq))

section
variable [DecidableEq P]

theorem Links.store (h : m.Links cur l) (hp : p ∉ l.map Prod.fst) : (m.store p c).Links cur l := by
  refine h.congr fun q hq => get?_store_of_ne ?_
  rintro rfl
  exact hp hq

theorem Links.free (h : m.Links cur l) (hp : p ∉ l.map Prod.fst) : (m.free p).Links cur l := by
  refine h.congr fun q hq => get?_free_of_ne ?_
  rintro rfl
  exact hp hq

/-- A cell is put before a list. -/
theorem Links.push (h : m.Links cur l) (hp : p ∉ l.map Prod.fst) (v : V) :
    (m.store p ⟨cur, v⟩).Links (some p) ((p, v) :: l) :=
  .cons (c := ⟨cur, v⟩) get?_store_self (h.store hp)

/-- **A cell is taken out of a list** by linking the one that points to it to the one before it. -/
theorem Links.unlink (h : m.Links cur (l₁ ++ (q, w) :: (p, v) :: l₂)) (hq : m.get? q = some c)
    (hp : m.get? p = some d) :
    (m.store q { c with prev := d.prev }).Links cur (l₁ ++ (q, w) :: l₂) := by
  induction l₁ generalizing cur with
  | nil =>
    have hnodup := h.nodup
    rw [List.nil_append] at h hnodup
    rw [List.map_cons, List.map_cons, List.nodup_cons] at hnodup
    obtain ⟨c', hc', rfl⟩ := h.get? List.mem_cons_self
    obtain rfl := Option.some_inj.1 (hq.symm.trans hc')
    obtain rfl := h.cur_eq
    have hrest := ((h.tail hq).tail hp).store (c := { c with prev := d.prev })
      fun hmem => hnodup.1 (List.mem_cons_of_mem _ hmem)
    exact .cons (c := { c with prev := d.prev }) get?_store_self hrest
  | cons x l₁ ih =>
    obtain ⟨r, u⟩ := x
    have hnodup := h.nodup
    rw [List.cons_append, List.map_cons, List.nodup_cons] at hnodup
    cases h with
    | @cons _ b _ hr h =>
      have hne : r ≠ q := by
        rintro rfl
        refine hnodup.1 ?_
        simp
      exact .cons ((get?_store_of_ne hne).trans hr) (ih h)

end

end Memory
