/-
  Memory that one object borrows from another.

  A JSONB string lies in a text, a column in a tuple table, the slot of a container in the memory of
  its member: nothing of it is owned, and no count is kept.  It stays alive since a borrower always
  has a local reference that leads to the owner (`Backs`), which the collector follows, and since a
  slot is changed together with the reference behind it.  Each allocation is freed once, by the
  finalizer of the one object that owns it (`borrows_live`).
-/
import Mathlib.Data.List.ReduceOption
import Rustica.Lib.Owned
import Rustica.Objects

namespace Rustica

open Exec

/-! ## What a body points to -/

/-- The memory that a body points to, but for a portal and the digits of a number: nobody borrows the
    one, and the other is not freed before the transaction ends. -/
def Body.pointers : Body → List Block
  | .datum _ d => [d]
  | .stringInfo _ data _ => [data]
  | .jsonbValue _ v => v.members
  | .portal _ _ => []
  | .tupleTable t _ => t.toList
  | .heapTuple t => [t]
  | .clockMonotonic => []

/-- The body is not changed once it is there. -/
def Body.Stable : Body → Prop
  | .stringInfo _ _ _ | .portal _ _ => False
  | _ => True

/-- The memory with the members of a container. -/
def JsonbValue.slots : JsonbValue → Option Block
  | .array elems => some elems
  | .object pairs => some pairs
  | _ => none

/-- What the finalizer of an object frees. -/
def Node.owned : Node → List Block
  | .host o => o.freed
  | _ => []

/-- The `Obj` at `a` points to the allocation `b`, from its body or from a slot of its container. -/
def ObjHeap.PointsInto (s : ObjHeap) (a : ℕ) (b : Block) : Prop :=
  ∃ o, s.nodes.get? a = some (.host o) ∧ (b ∈ o.body.pointers ∨
    ∃ jbv v elems i w, o.body = .jsonbValue jbv v ∧ v.slots = some elems ∧
      s.contents elems i = some w ∧ b ∈ w.members)

/-- **Borrowed memory is alive**: wherever an object points to, there is an owner that has not been
    finalized, and nobody has freed it. -/
def ObjHeap.BorrowsLive (s : ObjHeap) : Prop :=
  ∀ a b, s.PointsInto a b → b ∉ s.freed ∧
    ∃ a' o', s.nodes.get? a' = some (.host o') ∧ b ∈ o'.freed

/-! ## Backing -/

/-- A local reference to `t` refers to the `Obj` at `a`, directly or by its reference. -/
def Resolves (m : Memory ℕ Node) (t a : ℕ) : Prop := t = a ∨ m.get? t = some (.externref a)

/-- The `Obj` at `a` owns `b`, or its local references lead to the owner. -/
inductive Backs (m : Memory ℕ Node) : ℕ → Block → Prop
  | owns {a o b} : m.get? a = some (.host o) → b ∈ o.freed → Backs m a b
  | ref {a o t a' o' b} : m.get? a = some (.host o) → o.ref = some t → Resolves m t a' →
      m.get? a' = some (.host o') → o'.body.Stable → Backs m a' b → Backs m a b

/-- The reference in the slot `i` of the array `r` is to an `Obj` that backs `b`. -/
def SlotBacks (m : Memory ℕ Node) (r i : ℕ) (b : Block) : Prop :=
  ∃ ms e a o, m.get? r = some (.refSet ms) ∧ ms[i]? = some (some e) ∧
    m.get? e = some (.externref a) ∧ m.get? a = some (.host o) ∧ o.body.Stable ∧ Backs m a b

/-- What borrows is backed. -/
structure Borrowing (m : Memory ℕ Node) (contents : Block → ℕ → Option JsonbValue) : Prop where
  container : ∀ a o jbv v elems, m.get? a = some (.host o) → o.body = .jsonbValue jbv v →
    v.slots = some elems → elems ∈ o.freed
  backed : ∀ a o, m.get? a = some (.host o) → ∀ b ∈ o.body.pointers, Backs m a b
  slots : ∀ a o jbv v elems i w, m.get? a = some (.host o) → o.body = .jsonbValue jbv v →
    v.slots = some elems → contents elems i = some w →
    ∀ b ∈ w.members, ∃ r, o.ref = some r ∧ SlotBacks m r i b
  /-- a string builder owns its data -/
  builder : ∀ a o sb data, m.get? a = some (.host o) → o.body = .stringInfo sb data false →
    o.ownsBodyMembers = true ∧ o.ownsBody = false
  /-- an array for members belongs to one container -/
  sets : ∀ a a' o o' r ms, m.get? a = some (.host o) → m.get? a' = some (.host o') →
    o.ref = some r → o'.ref = some r → m.get? r = some (.refSet ms) → a = a'

variable {m m' : Memory ℕ Node} {contents : Block → ℕ → Option JsonbValue} {a x : ℕ} {b : Block}

/-- **Backed memory has an owner.** -/
theorem Backs.owner (h : Backs m a b) : ∃ a' o', m.get? a' = some (.host o') ∧ b ∈ o'.freed := by
  induction h with
  | owns ha hb => exact ⟨_, _, ha, hb⟩
  | ref _ _ _ _ _ _ ih => exact ih

/-- A change at `x` that breaks no chain of local references. -/
structure Aside (m m' : Memory ℕ Node) (x : ℕ) : Prop where
  agree : ∀ q, q ≠ x → m'.get? q = m.get? q
  chain : ∀ a o t a' o', m.get? a = some (.host o) → a ≠ x → o.ref = some t → Resolves m t a' →
    m.get? a' = some (.host o') → o'.body.Stable → a' ≠ x ∧ Resolves m' t a'

/-- Neither are the members of a container touched. -/
structure AsideSlots (m m' : Memory ℕ Node) (x : ℕ) : Prop extends Aside m m' x where
  member : ∀ a o r ms (i : ℕ) e a' o', m.get? a = some (.host o) → a ≠ x → o.ref = some r →
    m.get? r = some (.refSet ms) → ms[i]? = some (some e) → m.get? e = some (.externref a') →
    m.get? a' = some (.host o') → o'.body.Stable → r ≠ x ∧ e ≠ x ∧ a' ≠ x

theorem Backs.aside (h : Backs m a b) (hA : Aside m m' x) (ha : a ≠ x) : Backs m' a b := by
  induction h with
  | owns hget hb => exact .owns ((hA.agree _ ha).trans hget) hb
  | ref hget href hres hget' hstable _ ih =>
    obtain ⟨hne, hres'⟩ := hA.chain _ _ _ _ _ hget ha href hres hget' hstable
    exact .ref ((hA.agree _ ha).trans hget) href hres' ((hA.agree _ hne).trans hget') hstable
      (ih hne)

/-- The object at `x` can be collected or changed: it is one of the guest, or one that nobody
    borrows from. -/
def Node.Loose : Node → Prop
  | .struct _ => True
  | .host o => ¬ o.body.Stable
  | _ => False

theorem AsideSlots.of_loose (hagree : ∀ q, q ≠ x → m'.get? q = m.get? q)
    (hx : ∀ v, m.get? x = some v → v.Loose) : AsideSlots m m' x where
  agree := hagree
  chain a o t a' o' hget ha href hres hget' hstable := by
    have hne : a' ≠ x := by
      rintro rfl
      exact hx _ hget' hstable
    refine ⟨hne, hres.imp_right fun ht => (hagree t ?_).trans ht⟩
    rintro rfl
    exact hx _ ht
  member a o r ms i e a' o' hget ha href hr hi he hget' hstable := by
    refine ⟨?_, ?_, ?_⟩
    · rintro rfl
      exact hx _ hr
    · rintro rfl
      exact hx _ he
    · rintro rfl
      exact hx _ hget' hstable

/-- What the collector does not reach is on no chain. -/
theorem AsideSlots.free {roots : List ℕ} (hx : ¬ m.Reaches Node.refs roots x)
    (hrefs : ∀ a o t, m.get? a = some (.host o) → o.ref = some t → t ∈ roots) :
    AsideSlots m (m.free x) x where
  agree q hq := Memory.get?_free_of_ne hq
  chain a o t a' o' hget ha href hres hget' hstable := by
    have ht : m.Reaches Node.refs roots t := .root (hrefs a o t hget href)
    rcases hres with rfl | hres
    · refine ⟨?_, .inl rfl⟩
      rintro rfl
      exact hx ht
    · have ha' : m.Reaches Node.refs roots a' := ht.points ⟨_, hres, List.mem_singleton.2 rfl⟩
      refine ⟨?_, .inr ((Memory.get?_free_of_ne ?_).trans hres)⟩
      · rintro rfl
        exact hx ha'
      · rintro rfl
        exact hx ht
  member a o r ms i e a' o' hget ha href hr hi he hget' hstable := by
    have hr' : m.Reaches Node.refs roots r := .root (hrefs a o r hget href)
    have he' : m.Reaches Node.refs roots e :=
      hr'.points ⟨_, hr, List.reduceOption_mem_iff.2 (List.mem_of_getElem? hi)⟩
    have ha' : m.Reaches Node.refs roots a' := he'.points ⟨_, he, List.mem_singleton.2 rfl⟩
    refine ⟨?_, ?_, ?_⟩
    · rintro rfl
      exact hx hr'
    · rintro rfl
      exact hx he'
    · rintro rfl
      exact hx ha'

theorem SlotBacks.aside {o : Obj} {r i : ℕ} (h : SlotBacks m r i b) (hA : AsideSlots m m' x)
    (hget : m.get? a = some (.host o)) (ha : a ≠ x) (href : o.ref = some r) :
    SlotBacks m' r i b := by
  obtain ⟨ms, e, a', o', hr, hi, he, hget', hstable, hbacks⟩ := h
  obtain ⟨hrx, hex, hax⟩ := hA.member _ _ _ _ _ _ _ _ hget ha href hr hi he hget' hstable
  exact ⟨ms, e, a', o', (hA.agree r hrx).trans hr, hi, (hA.agree e hex).trans he,
    (hA.agree a' hax).trans hget', hstable, hbacks.aside hA.toAside hax⟩

/-- What an `Obj` has to bring with it. -/
structure Fits (m : Memory ℕ Node) (contents : Block → ℕ → Option JsonbValue) (x : ℕ) (o : Obj) :
    Prop where
  backed : ∀ b ∈ o.body.pointers, Backs m x b
  container : ∀ jbv v elems, o.body = .jsonbValue jbv v → v.slots = some elems →
    elems ∈ o.freed ∧ ∀ i, contents elems i = none
  builder : ∀ sb data, o.body = .stringInfo sb data false →
    o.ownsBodyMembers = true ∧ o.ownsBody = false
  sets : ∀ a o' r ms, a ≠ x → m.get? a = some (.host o') → o.ref = some r → o'.ref = some r →
    m.get? r ≠ some (.refSet ms)

/-- **A change aside** keeps the rest backed. -/
theorem Borrowing.aside (h : Borrowing m contents) (hA : AsideSlots m m' x)
    (hset : ∀ ms, m'.get? x = some (.refSet ms) → ∀ a o, a ≠ x → m.get? a = some (.host o) →
      o.ref ≠ some x)
    (hfits : ∀ o, m'.get? x = some (.host o) → Fits m' contents x o) : Borrowing m' contents := by
  have hget : ∀ a o, a ≠ x → m'.get? a = some (.host o) → m.get? a = some (.host o) :=
    fun a o ha hm' => (hA.agree a ha).symm.trans hm'
  refine ⟨?_, ?_, ?_, ?_, ?_⟩
  · intro a o jbv v elems ha hbody hslots
    by_cases hax : a = x
    · subst hax
      exact ((hfits o ha).container jbv v elems hbody hslots).1
    · exact h.container a o jbv v elems (hget a o hax ha) hbody hslots
  · intro a o ha b hb
    by_cases hax : a = x
    · subst hax
      exact (hfits o ha).backed b hb
    · exact (h.backed a o (hget a o hax ha) b hb).aside hA.toAside hax
  · intro a o jbv v elems i w ha hbody hslots hw b hb
    by_cases hax : a = x
    · subst hax
      rw [((hfits o ha).container jbv v elems hbody hslots).2 i] at hw
      cases hw
    · obtain ⟨r, href, hbacks⟩ :=
        h.slots a o jbv v elems i w (hget a o hax ha) hbody hslots hw b hb
      exact ⟨r, href, hbacks.aside hA (hget a o hax ha) hax href⟩
  · intro a o sb data ha hbody
    by_cases hax : a = x
    · subst hax
      exact (hfits o ha).builder sb data hbody
    · exact h.builder a o sb data (hget a o hax ha) hbody
  · intro a a' o o' r ms ha ha' href href' hr
    by_cases hax : a = x
    · subst hax
      by_contra hne
      exact (hfits o ha).sets a' o' r ms (Ne.symm hne) ha' href href' hr
    · by_cases hax' : a' = x
      · subst hax'
        exact absurd hr ((hfits o' ha').sets a o r ms hax ha href' href)
      · by_cases hrx : r = x
        · subst hrx
          exact absurd href (hset ms hr a o hax (hget a o hax ha))
        · exact h.sets a a' o o' r ms (hget a o hax ha) (hget a' o' hax' ha') href href'
            ((hA.agree r hrx).symm.trans hr)

/-- A change of an array for members breaks no chain. -/
theorem Aside.refSet {r : ℕ} {ms ms' : List (Option ℕ)} (hr : m.get? r = some (.refSet ms)) :
    Aside m (m.store r (.refSet ms')) r where
  agree q hq := Memory.get?_store_of_ne hq
  chain a o t a' o' hget ha href hres hget' hstable := by
    refine ⟨?_, hres.imp_right fun ht => (Memory.get?_store_of_ne ?_).trans ht⟩
    · rintro rfl
      rw [hr] at hget'
      cases hget'
    · rintro rfl
      rw [hr] at ht
      cases ht

/-- **A slot is set**, and the reference behind it: what is stored there is backed by the member. -/
theorem Borrowing.setSlot (h : Borrowing m contents) {o o' : Obj} {jbv jbv' elems : Block}
    {v w : JsonbValue} {r e a' i : ℕ} {ms : List (Option ℕ)}
    (ha : m.get? a = some (.host o)) (hbody : o.body = .jsonbValue jbv v)
    (hslots : v.slots = some elems) (href : o.ref = some r) (hr : m.get? r = some (.refSet ms))
    (hi : i < ms.length) (he : m.get? e = some (.externref a'))
    (ha' : m.get? a' = some (.host o')) (hbody' : o'.body = .jsonbValue jbv' w)
    (howned : ∀ a₁ o₁, m.get? a₁ = some (.host o₁) → elems ∈ o₁.freed → a₁ = a) :
    Borrowing (m.store r (.refSet (ms.set i (some e))))
      (Function.update contents elems (Function.update (contents elems) i (some w))) := by
  have hA : Aside m (m.store r (.refSet (ms.set i (some e)))) r := .refSet hr
  have hne : ∀ {q u}, m.get? q = some u → (∀ ms, u ≠ .refSet ms) → q ≠ r := by
    rintro q u hq hu rfl
    rw [hr] at hq
    exact hu ms (Option.some.inj hq).symm
  have hhost : ∀ {q o}, m.get? q = some (.host o) → q ≠ r := fun hq => hne hq fun ms => nofun
  have hget : ∀ {q o}, (m.store r (.refSet (ms.set i (some e)))).get? q = some (.host o) →
      m.get? q = some (.host o) := by
    intro q o hq
    by_cases hqr : q = r
    · subst hqr
      rw [Memory.get?_store_self] at hq
      cases hq
    · exact (Memory.get?_store_of_ne hqr).symm.trans hq
  refine ⟨?_, ?_, ?_, ?_, ?_⟩
  · exact fun a₁ o₁ jbv₁ v₁ elems₁ h₁ => h.container a₁ o₁ jbv₁ v₁ elems₁ (hget h₁)
  · exact fun a₁ o₁ h₁ b hb => (h.backed a₁ o₁ (hget h₁) b hb).aside hA (hhost (hget h₁))
  · intro a₁ o₁ jbv₁ v₁ elems₁ j w₁ h₁' hbody₁ hslots₁ hw b hb
    have h₁ : m.get? a₁ = some (.host o₁) := hget h₁'
    clear h₁'
    by_cases hel : elems₁ = elems
    · subst hel
      have h₁a := howned a₁ o₁ h₁ (h.container a₁ o₁ jbv₁ v₁ elems₁ h₁ hbody₁ hslots₁)
      subst h₁a
      rw [ha] at h₁
      cases h₁
      rw [Function.update_self] at hw
      by_cases hj : j = i
      · -- the slot that is set
        subst hj
        rw [Function.update_self] at hw
        cases hw
        refine ⟨r, href, _, e, a', o', Memory.get?_store_self, ?_,
          (Memory.get?_store_of_ne (hne he fun ms => nofun)).trans he,
          (Memory.get?_store_of_ne (hhost ha')).trans ha', ?_, ?_⟩
        · rw [List.getElem?_set_self hi]
        · rw [hbody']
          trivial
        · refine (h.backed a' o' ha' b ?_).aside hA (hhost ha')
          rw [hbody']
          exact hb
      · rw [Function.update_of_ne hj] at hw
        obtain ⟨r', href', ms', e', a₂, o₂, hr', hj', he', h₂, hstable, hbacks⟩ :=
          h.slots a₁ o jbv₁ v₁ elems₁ j w₁ ha hbody₁ hslots₁ hw b hb
        rw [href] at href'
        cases href'
        rw [hr] at hr'
        cases hr'
        refine ⟨r, href, _, e', a₂, o₂, Memory.get?_store_self, ?_,
          (Memory.get?_store_of_ne (hne he' fun ms => nofun)).trans he',
          (Memory.get?_store_of_ne (hhost h₂)).trans h₂, hstable, hbacks.aside hA (hhost h₂)⟩
        rw [List.getElem?_set_ne (Ne.symm hj)]
        exact hj'
    · rw [Function.update_of_ne hel] at hw
      obtain ⟨r', href', ms', e', a₂, o₂, hr', hj', he', h₂, hstable, hbacks⟩ :=
        h.slots a₁ o₁ jbv₁ v₁ elems₁ j w₁ h₁ hbody₁ hslots₁ hw b hb
      have hrr : r' ≠ r := by
        -- an array belongs to one container, and the container has one memory
        rintro rfl
        have h₁a := h.sets a₁ a o₁ o r' ms' h₁ ha href' href hr'
        subst h₁a
        rw [ha] at h₁
        cases h₁
        rw [hbody] at hbody₁
        cases hbody₁
        rw [hslots] at hslots₁
        exact hel (Option.some.inj hslots₁).symm
      exact ⟨r', href', ms', e', a₂, o₂, (Memory.get?_store_of_ne hrr).trans hr', hj',
        (Memory.get?_store_of_ne (hne he' fun ms => nofun)).trans he',
        (Memory.get?_store_of_ne (hhost h₂)).trans h₂, hstable, hbacks.aside hA (hhost h₂)⟩
  · exact fun a₁ o₁ sb data h₁ => h.builder a₁ o₁ sb data (hget h₁)
  · intro a₁ a₂ o₁ o₂ r' ms' h₁ h₂ href₁ href₂ hr'
    by_cases hrr : r' = r
    · subst hrr
      exact h.sets a₁ a₂ o₁ o₂ r' ms (hget h₁) (hget h₂) href₁ href₂ hr
    · exact h.sets a₁ a₂ o₁ o₂ r' ms' (hget h₁) (hget h₂) href₁ href₂
        ((Memory.get?_store_of_ne hrr).symm.trans hr')

/-! ## Local references -/

/-- The list of local references: one for each `Obj` that has one, and one on the stack while an
    array is converted. -/
structure Locals (m : Memory ℕ Node) (phase : Phase) (locals : List (Holder × ℕ)) : Prop where
  obj_iff : ∀ a t, (Holder.obj a, t) ∈ locals ↔
    ∃ o, m.get? a = some (.host o) ∧ o.ref = some t
  nodup : (locals.map Prod.fst).Nodup
  stack : ∀ t, (Holder.stack, t) ∈ locals → phase = .converting t
  top : ∀ p, phase = .converting p → ∃ rest, locals = (.stack, p) :: rest

variable {phase : Phase} {locals : List (Holder × ℕ)}

theorem mem_removeLocalObjRef (hn : (locals.map Prod.fst).Nodup) {me : Holder}
    {p : Holder × ℕ} : p ∈ ObjHeap.removeLocalObjRef me locals ↔ p ∈ locals ∧ p.1 ≠ me := by
  induction locals with
  | nil => simp [ObjHeap.removeLocalObjRef]
  | cons q rest ih =>
    rw [List.map_cons, List.nodup_cons] at hn
    by_cases hq : q.1 = me
    · subst hq
      have hrest : p ∈ rest → p.1 ≠ q.1 := fun hp heq => hn.1 (heq ▸ List.mem_map_of_mem hp)
      simp only [ObjHeap.removeLocalObjRef, decide_true, List.eraseP_cons_of_pos, List.mem_cons]
      constructor
      · exact fun hp => ⟨.inr hp, hrest hp⟩
      · rintro ⟨rfl | hp, hne⟩
        · exact absurd rfl hne
        · exact hp
    · have ih := ih hn.2
      simp only [ObjHeap.removeLocalObjRef] at ih ⊢
      rw [List.eraseP_cons_of_neg (by simpa using hq), List.mem_cons, ih, List.mem_cons]
      constructor
      · rintro (rfl | ⟨hp, hne⟩)
        · exact ⟨.inl rfl, hq⟩
        · exact ⟨.inr hp, hne⟩
      · rintro ⟨rfl | hp, hne⟩
        · exact .inl rfl
        · exact .inr ⟨hp, hne⟩

theorem Locals.congr (h : Locals m phase locals) (hsame : ∀ a t,
    (∃ o, m'.get? a = some (.host o) ∧ o.ref = some t) ↔
      ∃ o, m.get? a = some (.host o) ∧ o.ref = some t) : Locals m' phase locals :=
  ⟨fun a t => (h.obj_iff a t).trans (hsame a t).symm, h.nodup, h.stack, h.top⟩

/-- Making or changing an object that stands for no `Obj`. -/
theorem Locals.store_plain {v : Node} (h : Locals m phase locals)
    (hx : ∀ o, m.get? x ≠ some (.host o)) (hv : ∀ o, v ≠ .host o) :
    Locals (m.store x v) phase locals := by
  refine h.congr fun a t => ?_
  by_cases ha : a = x
  · subst ha
    rw [Memory.get?_store_self]
    constructor
    · rintro ⟨o, ho, -⟩
      exact absurd (Option.some.inj ho) (hv o)
    · rintro ⟨o, ho, -⟩
      exact absurd ho (hx o)
  · rw [Memory.get?_store_of_ne ha]

/-- `rst_obj_new` pushes a reference to the list. -/
theorem Locals.push {o : Obj} (h : Locals m .idle locals) (hx : m.get? x = none) :
    Locals (m.store x (.host o)) (.building x)
      (match o.ref with
        | some t => (.obj x, t) :: locals
        | none => locals) := by
  have hnew : ∀ t, (Holder.obj x, t) ∉ locals := by
    intro t ht
    obtain ⟨o', ho', -⟩ := (h.obj_iff x t).1 ht
    rw [hx] at ho'
    cases ho'
  have hstack : ∀ t, (Holder.stack, t) ∉ locals := fun t ht => nomatch h.stack t ht
  have hiff : ∀ a t, a ≠ x → ((∃ o', (m.store x (.host o)).get? a = some (.host o') ∧
      o'.ref = some t) ↔ (Holder.obj a, t) ∈ locals) := by
    intro a t ha
    rw [Memory.get?_store_of_ne ha, h.obj_iff]
  cases href : o.ref with
  | none =>
    refine ⟨fun a t => ?_, h.nodup, fun t ht => absurd ht (hstack t), nofun⟩
    by_cases ha : a = x
    · subst ha
      rw [Memory.get?_store_self]
      refine iff_of_false (hnew t) ?_
      rintro ⟨o', ho', ht⟩
      cases ho'
      rw [href] at ht
      cases ht
    · exact (hiff a t ha).symm
  | some t₀ =>
    refine ⟨fun a t => ?_, ?_, fun t ht => ?_, nofun⟩
    · rw [List.mem_cons]
      by_cases ha : a = x
      · subst ha
        rw [Memory.get?_store_self]
        constructor
        · rintro (heq | ht)
          · cases heq
            exact ⟨o, rfl, href⟩
          · exact absurd ht (hnew t)
        · rintro ⟨o', ho', ht⟩
          cases ho'
          rw [href] at ht
          cases ht
          exact .inl rfl
      · rw [hiff a t ha]
        refine ⟨fun ht => ht.resolve_left fun heq => ?_, .inr⟩
        cases heq
        exact ha rfl
    · refine List.nodup_cons.2 ⟨fun hmem => ?_, h.nodup⟩
      obtain ⟨⟨k, t⟩, hkt, hk⟩ := List.mem_map.1 hmem
      cases hk
      exact hnew t hkt
    · rcases List.mem_cons.1 ht with heq | ht
      · cases heq
      · exact absurd ht (hstack t)

/-- The finalizer removes the reference of its `Obj`, wherever it is in the list. -/
theorem Locals.remove {o : Obj} (h : Locals m phase locals) (hx : m.get? x = some (.host o)) :
    Locals (m.free x) phase
      (if o.ref.isSome then ObjHeap.removeLocalObjRef (.obj x) locals else locals) := by
  have hiff : ∀ a t, a ≠ x → ((∃ o', (m.free x).get? a = some (.host o') ∧ o'.ref = some t) ↔
      (Holder.obj a, t) ∈ locals) := by
    intro a t ha
    rw [Memory.get?_free_of_ne ha, h.obj_iff]
  have hself : ∀ t, ¬ ∃ o', (m.free x).get? x = some (.host o') ∧ o'.ref = some t := by
    rintro t ⟨o', ho', -⟩
    simp at ho'
  cases href : o.ref with
  | none =>
    refine ⟨fun a t => ?_, h.nodup, h.stack, h.top⟩
    by_cases ha : a = x
    · subst ha
      refine iff_of_false (fun ht => ?_) (hself t)
      obtain ⟨o', ho', ht⟩ := (h.obj_iff a t).1 ht
      rw [hx] at ho'
      cases ho'
      rw [href] at ht
      cases ht
    · exact (hiff a t ha).symm
  | some t₀ =>
    simp only [Option.isSome_some, if_true]
    refine ⟨fun a t => ?_, ?_, fun t ht => ?_, fun p hp => ?_⟩
    · rw [mem_removeLocalObjRef h.nodup]
      by_cases ha : a = x
      · subst ha
        exact iff_of_false (fun ht => ht.2 rfl) (hself t)
      · rw [hiff a t ha]
        refine ⟨fun ht => ht.1, fun ht => ⟨ht, fun heq => ?_⟩⟩
        cases heq
        exact ha rfl
    · exact h.nodup.sublist (List.eraseP_sublist.map Prod.fst)
    · exact h.stack t ((mem_removeLocalObjRef h.nodup).1 ht).1
    · -- the reference on the stack stays on top
      obtain ⟨rest, rfl⟩ := h.top p hp
      refine ⟨ObjHeap.removeLocalObjRef (.obj x) rest, ?_⟩
      rw [ObjHeap.removeLocalObjRef, List.eraseP_cons_of_neg (by simp)]
      rfl

theorem Locals.pushStack {p : ℕ} (h : Locals m .idle locals) :
    Locals m (.converting p) ((.stack, p) :: locals) := by
  have hstack : ∀ t, (Holder.stack, t) ∉ locals := fun t ht => nomatch h.stack t ht
  refine ⟨fun a t => ?_, ?_, fun t ht => ?_, fun q hq => ?_⟩
  · rw [← h.obj_iff, List.mem_cons]
    refine ⟨fun ht => ht.resolve_left nofun, .inr⟩
  · refine List.nodup_cons.2 ⟨fun hmem => ?_, h.nodup⟩
    obtain ⟨⟨k, t⟩, hkt, hk⟩ := List.mem_map.1 hmem
    cases hk
    exact hstack t hkt
  · rcases List.mem_cons.1 ht with heq | ht
    · cases heq
      rfl
    · exact absurd ht (hstack t)
  · cases hq
    exact ⟨locals, rfl⟩

/-- What is popped is the reference on the stack. -/
theorem Locals.pop {p : ℕ} (h : Locals m (.converting p) locals) : Locals m .idle locals.tail := by
  obtain ⟨rest, rfl⟩ := h.top p rfl
  have hn := List.nodup_cons.1 h.nodup
  refine ⟨fun a t => ?_, hn.2, fun t ht => ?_, nofun⟩
  · rw [← h.obj_iff, List.mem_cons]
    exact ⟨.inr, fun ht => ht.resolve_left nofun⟩
  · exact absurd (List.mem_map_of_mem ht) hn.1

/-! ## The invariant -/

structure ObjHeap.Inv (s : ObjHeap) : Prop where
  fresh : ∀ p, s.nodes.Live p → p < s.nextNode
  traced : s.nodes.Traced Node.refs s.gcRoots
  locals : Locals s.nodes s.phase s.locals
  owned : s.nodes.Owned Node.owned s.freed s.nextBlock
  contents : ∀ elems i w, s.contents elems i = some w → elems < s.nextBlock
  borrowing : Borrowing s.nodes s.contents

variable {s s' : ObjHeap} {o o' : Obj} {p t : ℕ}

namespace ObjHeap

theorem Inv.empty : ObjHeap.empty.Inv where
  fresh p hp := absurd hp Memory.not_live_empty
  traced := by
    rintro q ⟨r, hr, -⟩
    cases hr
  locals := by
    refine ⟨fun a t => iff_of_false ?_ ?_, List.nodup_nil, ?_, ?_⟩
    · rintro ⟨⟩
    · rintro ⟨o, ⟨⟩, -⟩
    · rintro t ⟨⟩
    · rintro p ⟨⟩
  owned := Memory.Owned.empty
  contents := by rintro elems i w ⟨⟩
  borrowing := by
    refine ⟨?_, ?_, ?_, ?_, ?_⟩
    · rintro a o jbv v elems ⟨⟩
    · rintro a o ⟨⟩
    · rintro a o jbv v elems i w ⟨⟩
    · rintro a o sb data ⟨⟩
    · rintro a a' o o' r ms ⟨⟩

theorem Inv.get?_next (hI : s.Inv) : s.nodes.get? s.nextNode = none := by
  by_contra h
  obtain ⟨v, hv⟩ := Option.ne_none_iff_exists'.1 h
  exact absurd (hI.fresh _ (Memory.live_of_get? hv)) (lt_irrefl _)

theorem mem_gcRoots_of_local {h : Holder} (ht : (h, t) ∈ s.locals) : t ∈ s.gcRoots := by
  simp only [gcRoots, List.mem_append, List.mem_map]
  exact .inl (.inr ⟨_, ht, rfl⟩)

/-- **A local reference is a root.** -/
theorem Inv.ref_root (hI : s.Inv) (ha : s.nodes.get? a = some (.host o)) (ht : o.ref = some t) :
    t ∈ s.gcRoots := mem_gcRoots_of_local ((hI.locals.obj_iff a t).2 ⟨o, ha, ht⟩)

theorem Inv.live_ref (hI : s.Inv) (ha : s.nodes.get? a = some (.host o)) (ht : o.ref = some t) :
    s.nodes.Live t := hI.traced t (.root (hI.ref_root ha ht))

/-- **Making or changing an object that stands for no `Obj`**: a new one, or one of the guest. -/
theorem Inv.store_plain (hI : s.Inv) {v : Node} (hnodes : s'.nodes = s.nodes.store x v)
    (hcontents : s'.contents = s.contents) (hfreed : s'.freed = s.freed)
    (hblock : s'.nextBlock = s.nextBlock)
    (hx : s.nodes.get? x = none ∨ (∃ fs, v = .struct fs) ∧
      ∃ fs, s.nodes.get? x = some (.struct fs))
    (hv : ∀ o, v ≠ .host o) (hnext : x < s'.nextNode ∧ s.nextNode ≤ s'.nextNode)
    (htraced : (s.nodes.store x v).Traced Node.refs s'.gcRoots)
    (hlocals : Locals s.nodes s'.phase s'.locals) : s'.Inv := by
  have hloose : ∀ u, s.nodes.get? x = some u → u.Loose := by
    intro u hu
    rcases hx with hx | ⟨-, fs, hx⟩
    · rw [hx] at hu
      cases hu
    · rw [hx] at hu
      cases hu
      trivial
  have hnohost : ∀ o, s.nodes.get? x ≠ some (.host o) := by
    intro o ho
    rcases hx with hx | ⟨-, fs, hx⟩
    · rw [hx] at ho
      cases ho
    · rw [hx] at ho
      cases ho
  constructor
  · intro q hq
    rw [hnodes, Memory.live_store] at hq
    rcases hq with rfl | hq
    · exact hnext.1
    · exact (hI.fresh q hq).trans_le hnext.2
  · rw [hnodes]
    exact htraced
  · rw [hnodes]
    exact hlocals.store_plain hnohost hv
  · rw [hnodes, hfreed, hblock]
    refine hI.owned.store_nil ?_
    cases v with
    | host o => exact absurd rfl (hv o)
    | struct _ => rfl
    | refSet _ => rfl
    | externref _ => rfl
  · rw [hcontents, hblock]
    exact hI.contents
  · rw [hnodes, hcontents]
    refine hI.borrowing.aside (.of_loose (fun q hq => Memory.get?_store_of_ne hq) hloose) ?_ ?_
    · -- no local reference leads to a new object
      rintro ms hms a o - ha href
      rw [Memory.get?_store_self] at hms
      cases hms
      rcases hx with hx | ⟨⟨fs, hfs⟩, -⟩
      · obtain ⟨u, hu⟩ := Memory.live_iff.1 (hI.live_ref ha href)
        rw [hx] at hu
        cases hu
      · cases hfs
    · intro o ho
      rw [Memory.get?_store_self] at ho
      exact absurd (Option.some.inj ho) (hv o)

/-- What a native may make: it owns new allocations, and points into these or into memory that its
    local reference leads to. -/
structure NewObj (s : ObjHeap) (o : Obj) : Prop where
  owned : ∀ b ∈ o.freed, b = s.nextBlock ∨ b = s.nextBlock + 1
  nodup : o.freed.Nodup
  backed : ∀ b ∈ o.body.pointers, b ∈ o.freed ∨ ∃ t a' o', o.ref = some t ∧
    Resolves s.nodes t a' ∧ s.nodes.get? a' = some (.host o') ∧ o'.body.Stable ∧
    b ∈ o'.body.pointers
  container : ∀ jbv v elems, o.body = .jsonbValue jbv v → v.slots = some elems → elems ∈ o.freed
  builder : ∀ sb data, o.body = .stringInfo sb data false →
    o.ownsBodyMembers = true ∧ o.ownsBody = false
  sets : ∀ r ms, o.ref = some r → s.nodes.get? r = some (.refSet ms) →
    ∀ a o', s.nodes.get? a = some (.host o') → o'.ref ≠ some r

/-- **`rst_obj_new`.** -/
theorem Inv.rstObjNew (hI : s.Inv) (hidle : s.phase = .idle) (hnew : s.NewObj o)
    (htraced : s.nodes.Traced Node.refs (o.ref.toList ++ s.gcRoots)) : (s.rstObjNew o).Inv := by
  have hx := hI.get?_next
  have hloose : ∀ u, s.nodes.get? s.nextNode = some u → u.Loose := by
    intro u hu
    rw [hx] at hu
    cases hu
  constructor
  · intro q hq
    rcases Memory.live_store.1 hq with rfl | hq
    · exact Nat.lt_succ_self _
    · exact Nat.lt_succ_of_lt (hI.fresh q hq)
  · refine htraced.store (by rintro q ⟨⟩) fun r hr => ?_
    simp only [ObjHeap.rstObjNew, gcRoots, List.mem_append, List.mem_map, List.mem_singleton] at hr
    have hold : ∀ {r}, r ∈ s.gcRoots →
        s.nodes.Reaches Node.refs (o.ref.toList ++ s.gcRoots) r :=
      fun hr => .root (List.mem_append_right _ hr)
    rcases hr with ((hr | hr) | ⟨q, hq, rfl⟩) | rfl
    · exact .inr (hold (by simp [gcRoots, hr]))
    · exact .inr (hold (by simp [gcRoots, hr]))
    · right
      cases href : o.ref with
      | none =>
        rw [href] at hq
        exact .root (List.mem_append_right _ (mem_gcRoots_of_local hq))
      | some t =>
        rw [href] at hq
        rcases List.mem_cons.1 hq with rfl | hq
        · exact .root (List.mem_cons_self ..)
        · exact .root (List.mem_append_right _ (mem_gcRoots_of_local hq))
    · exact .inl rfl
  · have hlocals := hI.locals
    rw [hidle] at hlocals
    exact hlocals.push hx
  · refine hI.owned.store_new (fun b hb => ?_) (Nat.le_add_right _ 2) hnew.nodup
    rcases hnew.owned b hb with rfl | rfl
    · exact ⟨le_rfl, Nat.lt_add_of_pos_right two_pos⟩
    · exact ⟨Nat.le_succ _, Nat.lt_succ_self _⟩
  · intro elems i w hw
    exact (hI.contents elems i w hw).trans_le (Nat.le_add_right _ 2)
  · have hA : AsideSlots s.nodes (s.nodes.store s.nextNode (.host o)) s.nextNode :=
      .of_loose (fun q hq => Memory.get?_store_of_ne hq) hloose
    refine hI.borrowing.aside hA ?_ ?_
    · intro ms hms
      rw [ObjHeap.rstObjNew, Memory.get?_store_self] at hms
      cases hms
    · intro o' ho'
      rw [ObjHeap.rstObjNew, Memory.get?_store_self] at ho'
      cases ho'
      refine ⟨fun b hb => ?_, fun jbv v elems hbody hslots => ?_, hnew.builder, ?_⟩
      · rcases hnew.backed b hb with hb | ⟨t, a', o', href, hres, ha', hstable, hb⟩
        · exact .owns Memory.get?_store_self hb
        · have hne : a' ≠ s.nextNode := by
            rintro rfl
            rw [hx] at ha'
            cases ha'
          have hres' : Resolves (s.nodes.store s.nextNode (.host o)) t a' := by
            refine hres.imp_right fun ht => (Memory.get?_store_of_ne ?_).trans ht
            rintro rfl
            rw [hx] at ht
            cases ht
          exact .ref Memory.get?_store_self href hres' ((hA.agree a' hne).trans ha') hstable
            ((hI.borrowing.backed a' o' ha' b hb).aside hA.toAside hne)
      · refine ⟨hnew.container jbv v elems hbody hslots, fun i => ?_⟩
        by_contra hne
        obtain ⟨w, hw⟩ := Option.ne_none_iff_exists'.1 hne
        have hlt := hI.contents elems i w hw
        rcases hnew.owned elems (hnew.container jbv v elems hbody hslots) with rfl | rfl
        · exact lt_irrefl _ hlt
        · exact absurd hlt (Nat.not_lt.2 (Nat.le_succ _))
      · intro a o' r ms hne ha href href' hr
        rw [ObjHeap.rstObjNew, Memory.get?_store_of_ne hne] at ha
        by_cases hrx : r = s.nextNode
        · subst hrx
          obtain ⟨u, hu⟩ := Memory.live_iff.1 (hI.live_ref ha href')
          rw [hx] at hu
          cases hu
        · rw [ObjHeap.rstObjNew, Memory.get?_store_of_ne hrx] at hr
          exact hnew.sets r ms href hr a o' ha href'

theorem getObj_eq {e : ℕ} (h : s.getObj e = some (a, o)) :
    s.nodes.get? e = some (.externref a) ∧ s.nodes.get? a = some (.host o) := by
  rw [getObj] at h
  split at h
  · next a' he =>
    split at h
    · next o' ho =>
      cases h
      exact ⟨he, ho⟩
    · cases h
  · cases h

theorem getDatum_eq {e : ℕ} {oid : Oid} {d : Block} (h : s.getDatum e oid = some (a, d)) :
    s.nodes.get? e = some (.externref a) ∧
      ∃ o, s.nodes.get? a = some (.host o) ∧ o.body = .datum oid d := by
  rw [getDatum] at h
  split at h
  · next a' o hobj =>
    split at h
    · next oid' d' hbody =>
      split_ifs at h with hoid
      cases h
      obtain ⟨he, ho⟩ := getObj_eq hobj
      exact ⟨he, o, ho, hoid ▸ hbody⟩
    · cases h
  · cases h

theorem mem_members {v : JsonbValue} {elems : Block} (h : v.slots = some elems) :
    elems ∈ v.members := by
  cases v with
  | array e => exact List.mem_singleton.2 (Option.some.inj h).symm
  | object e => exact List.mem_singleton.2 (Option.some.inj h).symm
  | null => cases h
  | bool b => cases h
  | numeric n => cases h
  | string val => cases h

/-- An `Obj` in one or two new allocations. -/
theorem freed_new (h : o.freed = [s.nextBlock] ∨ o.freed = [s.nextBlock + 1, s.nextBlock]) :
    (∀ b ∈ o.freed, b = s.nextBlock ∨ b = s.nextBlock + 1) ∧ o.freed.Nodup := by
  rcases h with h | h
  · rw [h]
    refine ⟨fun b hb => .inl (List.mem_singleton.1 hb), List.nodup_singleton _⟩
  · rw [h]
    refine ⟨fun b hb => ?_, by simp⟩
    rcases List.mem_cons.1 hb with rfl | hb
    · exact .inr rfl
    · exact .inl (List.mem_singleton.1 hb)

/-- An `Obj` that borrows nothing. -/
theorem NewObj.of_own (href : o.ref = none)
    (h : o.freed = [s.nextBlock] ∨ o.freed = [s.nextBlock + 1, s.nextBlock])
    (hp : ∀ b ∈ o.body.pointers, b ∈ o.freed)
    (hb : ∀ sb data, o.body = .stringInfo sb data false →
      o.ownsBodyMembers = true ∧ o.ownsBody = false) : s.NewObj o where
  builder := hb
  owned := (freed_new h).1
  nodup := (freed_new h).2
  backed b hb := .inl (hp b hb)
  container jbv v elems hbody hslots := hp elems (hbody ▸ mem_members hslots)
  sets r ms hr := by
    rw [href] at hr
    cases hr

/-- An `Obj` that borrows from the one that it refers to. -/
theorem NewObj.of_borrow (href : o.ref = some t) (hres : Resolves s.nodes t a)
    (ha : s.nodes.get? a = some (.host o')) (hstable : o'.body.Stable)
    (h : o.freed = [s.nextBlock] ∨ o.freed = [s.nextBlock + 1, s.nextBlock])
    (hp : ∀ b ∈ o.body.pointers, b ∈ o.freed ∨ b ∈ o'.body.pointers)
    (hslots : ∀ jbv v, o.body = .jsonbValue jbv v → v.slots = none)
    (hb : ∀ sb data, o.body ≠ .stringInfo sb data false) : s.NewObj o where
  builder sb data hbody := absurd hbody (hb sb data)
  owned := (freed_new h).1
  nodup := (freed_new h).2
  backed b hb := (hp b hb).imp_right fun hb => ⟨t, a, o', href, hres, ha, hstable, hb⟩
  container jbv v elems hbody hv := by
    rw [hslots jbv v hbody] at hv
    cases hv
  sets r ms hr hget := by
    rw [href] at hr
    cases hr
    rcases hres with rfl | hres
    · rw [ha] at hget
      cases hget
    · rw [hres] at hget
      cases hget

/-- **What natives make** borrows from nothing but what it refers to. -/
theorem newObj_of_make {mk : Maker} (h : s.make mk = some o) : s.NewObj o := by
  cases mk with
  | newDatum oid =>
    cases h
    exact .of_own rfl (.inl rfl) (fun b hb => hb) nofun
  | ownedDatum oid =>
    cases h
    exact .of_own rfl (.inr rfl)
      (fun b hb => List.mem_cons.2 (.inl (List.mem_singleton.1 hb))) nofun
  | jsonIn refobj =>
    obtain ⟨⟨a, d⟩, hd, rfl⟩ := Option.map_eq_some_iff.1 h
    obtain ⟨-, o', ha, hbody⟩ := getDatum_eq hd
    exact .of_borrow rfl (.inl rfl) ha (by rw [hbody]; trivial) (.inl rfl)
      (fun b hb => .inr (hbody ▸ hb)) nofun nofun
  | jsonOut refobj =>
    obtain ⟨⟨a, d⟩, hd, rfl⟩ := Option.map_eq_some_iff.1 h
    obtain ⟨-, o', ha, hbody⟩ := getDatum_eq hd
    exact .of_borrow rfl (.inl rfl) ha (by rw [hbody]; trivial) (.inl rfl)
      (fun b hb => .inr (hbody ▸ hb)) nofun nofun
  | jsonbValueNewNull =>
    cases h
    exact .of_own rfl (.inl rfl) (by rintro b ⟨⟩) nofun
  | jsonbValueNewBool val =>
    cases h
    exact .of_own rfl (.inl rfl) (by rintro b ⟨⟩) nofun
  | jsonbValueNewNumeric =>
    cases h
    exact .of_own rfl (.inl rfl) (by rintro b ⟨⟩) nofun
  | jsonbValueNewString str copied =>
    obtain ⟨⟨a, d⟩, hd, rfl⟩ := Option.map_eq_some_iff.1 h
    obtain ⟨-, o', ha, hbody⟩ := getDatum_eq hd
    cases copied with
    | true =>
      exact .of_own rfl (.inr rfl)
        (fun b hb => List.mem_cons.2 (.inl (List.mem_singleton.1 hb))) nofun
    | false =>
      refine .of_borrow rfl (.inl rfl) ha (by rw [hbody]; trivial) (.inl rfl) ?_ ?_ nofun
      · exact fun b hb => .inr (hbody ▸ hb)
      · rintro jbv v ⟨⟩
        rfl
  | sbNew =>
    cases h
    exact .of_own rfl (.inr rfl) (fun b hb => List.mem_cons.2 (.inl (List.mem_singleton.1 hb)))
      fun sb data _ => ⟨rfl, rfl⟩
  | sbReadText ref copied =>
    obtain ⟨⟨a, d⟩, hd, rfl⟩ := Option.map_eq_some_iff.1 h
    obtain ⟨he, o', ha, hbody⟩ := getDatum_eq hd
    cases copied with
    | true =>
      exact .of_borrow rfl (.inr he) ha (by rw [hbody]; trivial) (.inr rfl)
        (fun b hb => .inl (List.mem_cons.2 (.inl (List.mem_singleton.1 hb)))) nofun nofun
    | false =>
      exact .of_borrow rfl (.inr he) ha (by rw [hbody]; trivial) (.inl rfl)
        (fun b hb => .inr (hbody ▸ hb)) nofun nofun
  | cursorOpen idx =>
    cases h
    exact .of_own rfl (.inr rfl) (by rintro b ⟨⟩) nofun
  | cursorFetch cursor rows =>
    rw [make] at h
    split at h
    · cases h
      cases rows with
      | true =>
        exact .of_own rfl (.inr rfl)
          (fun b hb => List.mem_cons.2 (.inl (List.mem_singleton.1 hb))) nofun
      | false => exact .of_own rfl (.inl rfl) (by rintro b ⟨⟩) nofun
    · cases h
  | tupleTableGet tuptable =>
    rw [make] at h
    split at h
    · next ho =>
      cases h
      obtain ⟨he, ha⟩ := getObj_eq ho
      exact .of_borrow rfl (.inr he) ha trivial (.inl rfl) (fun b hb => .inr hb) nofun nofun
    · cases h
  | column tuple oid =>
    rw [make] at h
    split at h
    · next ho =>
      cases h
      obtain ⟨he, ha⟩ := getObj_eq ho
      exact .of_borrow rfl (.inr he) ha trivial (.inl rfl) (fun b hb => .inr hb) nofun nofun
    · cases h
  | monotonicNow =>
    cases h
    exact .of_own rfl (.inl rfl) (by rintro b ⟨⟩) nofun

/-- What it refers to is an argument of the native, or inside of one. -/
theorem reaches_of_make {mk : Maker} (h : s.make mk = some o)
    (hargs : ∀ q ∈ mk.args, s.Reaches q) (ht : o.ref = some t) : s.Reaches t := by
  have hinner : ∀ {e oid p}, s.getDatum e oid = some p → s.Reaches e → s.Reaches p.1 := by
    rintro e oid ⟨a, d⟩ hd he
    exact he.points ⟨_, (getDatum_eq hd).1, List.mem_singleton.2 rfl⟩
  cases mk with
  | jsonIn refobj =>
    obtain ⟨p, hd, rfl⟩ := Option.map_eq_some_iff.1 h
    cases ht
    exact hinner hd (hargs refobj (List.mem_singleton.2 rfl))
  | jsonOut refobj =>
    obtain ⟨p, hd, rfl⟩ := Option.map_eq_some_iff.1 h
    cases ht
    exact hinner hd (hargs refobj (List.mem_singleton.2 rfl))
  | jsonbValueNewString str copied =>
    obtain ⟨p, hd, rfl⟩ := Option.map_eq_some_iff.1 h
    cases copied with
    | true => cases ht
    | false =>
      cases ht
      exact hinner hd (hargs str (List.mem_singleton.2 rfl))
  | sbReadText ref copied =>
    obtain ⟨p, hd, rfl⟩ := Option.map_eq_some_iff.1 h
    cases ht
    exact hargs _ (List.mem_singleton.2 rfl)
  | cursorFetch cursor rows =>
    rw [make] at h
    split at h
    · cases h
      cases ht
    · cases h
  | tupleTableGet tuptable =>
    rw [make] at h
    split at h
    · cases h
      cases ht
      exact hargs _ (List.mem_singleton.2 rfl)
    · cases h
  | column tuple oid =>
    rw [make] at h
    split at h
    · cases h
      cases ht
      exact hargs _ (List.mem_singleton.2 rfl)
    · cases h
  | newDatum oid => cases h; cases ht
  | ownedDatum oid => cases h; cases ht
  | jsonbValueNewNull => cases h; cases ht
  | jsonbValueNewBool val => cases h; cases ht
  | jsonbValueNewNumeric => cases h; cases ht
  | sbNew => cases h; cases ht
  | cursorOpen idx => cases h; cases ht
  | monotonicNow => cases h; cases ht

/-! ### Natives -/

theorem Inv.traced_cons (hI : s.Inv) (ht : s.Reaches t) :
    s.nodes.Traced Node.refs (t :: s.gcRoots) := by
  refine hI.traced.of_roots fun r hr => ?_
  rcases List.mem_cons.1 hr with rfl | hr
  · exact ht
  · exact .root hr

theorem Inv.make (hI : s.Inv) (hidle : s.phase = .idle) {mk : Maker}
    (hargs : ∀ q ∈ mk.args, s.Reaches q) (h : s.make mk = some o) : (s.rstObjNew o).Inv := by
  refine hI.rstObjNew hidle (newObj_of_make h) ?_
  cases href : o.ref with
  | none => exact hI.traced
  | some t => exact hI.traced_cons (reaches_of_make h hargs href)

/-- **`jsonb_value_new_array`, `jsonb_value_new_object`.** -/
theorem Inv.newContainer (hI : s.Inv) (hidle : s.phase = .idle) (slots : ℕ)
    {v : Block → JsonbValue} (hv : ∀ b, (v b).members = [b]) : (s.newContainer slots v).Inv := by
  have hx := hI.get?_next
  -- the array has no reference to it yet, but is used at once
  have hnil : (Node.refSet (List.replicate slots none)).refs = [] :=
    List.reduceOption_replicate_none
  have hset : ({ s with
      nodes := s.nodes.store s.nextNode (.refSet (List.replicate slots none))
      nextNode := s.nextNode + 1 } : ObjHeap).Inv := by
    refine hI.store_plain rfl rfl rfl rfl (.inl hx) nofun ⟨Nat.lt_succ_self _, Nat.le_succ _⟩
      (hI.traced.store ?_ fun r hr => .inr (.root hr)) hI.locals
    rw [hnil]
    rintro q ⟨⟩
  refine hset.rstObjNew hidle ?_ ?_
  · refine ⟨fun b hb => ?_, ?_, fun b hb => .inl ?_, fun jbv w elems hbody hw => ?_, nofun, ?_⟩
    · have hfreed : b ∈ [s.nextBlock + 1, s.nextBlock] := by
        simpa [jsonbValueObjNew, Obj.freed, hv] using hb
      rcases List.mem_cons.1 hfreed with rfl | hb
      · exact .inr rfl
      · exact .inl (List.mem_singleton.1 hb)
    · simp [jsonbValueObjNew, Obj.freed, hv]
    · have hb' : b ∈ [s.nextBlock + 1] := by
        simpa [jsonbValueObjNew, Body.pointers, hv] using hb
      rw [List.mem_singleton.1 hb']
      simp [jsonbValueObjNew, Obj.freed, hv]
    · cases hbody
      have helems := mem_members hw
      rw [hv] at helems
      rw [List.mem_singleton.1 helems]
      simp [jsonbValueObjNew, Obj.freed, hv]
    · intro r ms href hr a o' ha href'
      cases href
      have hne : a ≠ s.nextNode := by
        rintro rfl
        rw [Memory.get?_store_self] at ha
        cases ha
      rw [Memory.get?_store_of_ne hne] at ha
      obtain ⟨u, hu⟩ := Memory.live_iff.1 (hI.live_ref ha href')
      rw [hx] at hu
      cases hu
  · refine hI.traced.store ?_ ?_
    · rw [hnil]
      rintro q ⟨⟩
    · intro r hr
      rcases List.mem_cons.1 hr with rfl | hr
      · exact .inl rfl
      · exact .inr (.root hr)

/-- **`rst_externref_of_obj`.** -/
theorem Inv.rstExternrefOfObj (hI : s.Inv) (hph : s.phase = .building a) :
    s.rstExternrefOfObj.Inv := by
  have hroot : s.Reaches a := .root (by simp [gcRoots, hph])
  rw [ObjHeap.rstExternrefOfObj, hph]
  refine hI.store_plain rfl rfl rfl rfl (.inl hI.get?_next) nofun
    ⟨Nat.lt_succ_self _, Nat.le_succ _⟩ (hI.traced.store ?_ ?_) ?_
  · intro q hq
    rw [List.mem_singleton.1 hq]
    exact .inr hroot
  · intro r hr
    simp only [gcRoots, List.append_nil, List.mem_append, List.mem_cons] at hr
    rcases hr with (hr | rfl | hr) | hr
    · exact .inr (.root (by simp [gcRoots, hr]))
    · exact .inl rfl
    · exact .inr (.root (by simp [gcRoots, hr]))
    · exact .inr (.root (by simp only [gcRoots, List.mem_append]; exact .inl (.inr hr)))
  · have hlocals := hI.locals
    exact ⟨hlocals.obj_iff, hlocals.nodup,
      fun t ht => absurd (hlocals.stack t ht) (by rw [hph]; nofun), nofun⟩

/-- An `Obj` that nobody borrows from is changed: what it frees now, it will not free again. -/
theorem Inv.replace (hI : s.Inv) (o' : Obj) (fr : List Block) (ha : s.nodes.get? a = some (.host o))
    (hstable : ¬ o.body.Stable) (hstable' : ¬ o'.body.Stable) (href : o'.ref = o.ref)
    (hp : ∀ b ∈ o'.body.pointers, b ∈ o'.freed)
    (hb : ∀ sb data, o'.body = .stringInfo sb data false →
      o'.ownsBodyMembers = true ∧ o'.ownsBody = false) (hnodup : fr.Nodup) (hfr : ∀ b ∈ fr, b ∈ o.freed)
    (hown : ∀ b ∈ o'.freed, (b ∈ o.freed ∧ b ∉ fr) ∨ b = s.nextBlock) (hown' : o'.freed.Nodup)
    {next : Block} (hnext : s.nextBlock ≤ next) (hnew : s.nextBlock ∈ o'.freed → s.nextBlock < next) :
    ({ s with
      nodes := s.nodes.store a (.host o')
      freed := fr ++ s.freed
      nextBlock := next } : ObjHeap).Inv := by
  have hx : ∀ u, s.nodes.get? a = some u → u.Loose := by
    intro u hu
    rw [ha] at hu
    cases hu
    exact hstable
  constructor
  · intro q hq
    rcases Memory.live_store.1 hq with rfl | hq
    · exact hI.fresh _ (Memory.live_of_get? ha)
    · exact hI.fresh q hq
  · exact hI.traced.store (by rintro q ⟨⟩) fun r hr => .inr (.root hr)
  · refine hI.locals.congr fun q t => ?_
    by_cases hq : q = a
    · subst hq
      rw [Memory.get?_store_self, ha]
      constructor
      · rintro ⟨o₁, h₁, ht⟩
        cases h₁
        exact ⟨o, rfl, href ▸ ht⟩
      · rintro ⟨o₁, h₁, ht⟩
        cases h₁
        exact ⟨o', rfl, href.trans ht⟩
    · rw [Memory.get?_store_of_ne hq]
  · refine hI.owned.store hnodup (fun b hb => ⟨_, ha, hfr b hb⟩) (fun b hb => ?_) hnext hown'
    rcases hown b hb with ⟨hb, hbfr⟩ | rfl
    · exact .inl ⟨_, ha, hb, hbfr⟩
    · exact .inr ⟨le_rfl, hnew hb⟩
  · exact fun elems i w hw => (hI.contents elems i w hw).trans_le hnext
  · refine hI.borrowing.aside (.of_loose (fun q hq => Memory.get?_store_of_ne hq) hx) ?_ ?_
    · intro ms hms
      rw [Memory.get?_store_self] at hms
      cases hms
    · intro o₁ h₁
      rw [Memory.get?_store_self] at h₁
      cases h₁
      refine ⟨fun b hb => .owns Memory.get?_store_self (hp b hb), fun jbv v elems hbody => ?_,
        hb, ?_⟩
      · rw [hbody] at hstable'
        exact absurd trivial hstable'
      · intro q o₂ r ms hq h₂ hr hr₂ hms
        rw [Memory.get?_store_of_ne hq] at h₂
        have hra : r ≠ a := by
          rintro rfl
          rw [Memory.get?_store_self] at hms
          cases hms
        rw [Memory.get?_store_of_ne hra] at hms
        exact hq (hI.borrowing.sets q a o₂ o r ms h₂ ha hr₂ (href ▸ hr) hms)

/-- **A string builder grows.** -/
theorem Inv.sbEnlarge (hI : s.Inv) {e : ℕ} (h : s.sbEnlarge e = some s') : s'.Inv := by
  rw [ObjHeap.sbEnlarge] at h
  split at h
  · next a o hobj =>
    split at h
    · next sb data hbody =>
      cases h
      obtain ⟨-, ha⟩ := getObj_eq hobj
      obtain ⟨hmembers, hown⟩ := hI.borrowing.builder a o sb data ha hbody
      have hfreed : o.freed = [data, o.mem] := by simp [Obj.freed, hbody, hmembers, hown]
      have hfreed' : ({ o with body := .stringInfo sb s.nextBlock false } : Obj).freed =
          [s.nextBlock, o.mem] := by simp [Obj.freed, hmembers, hown]
      have hmem : o.mem < s.nextBlock := hI.owned.lt a _ ha o.mem (by simp [Node.owned, hfreed])
      have hdata : data ∉ [o.mem] := by
        have hn := hI.owned.nodup a _ ha
        rw [Node.owned, hfreed] at hn
        exact (List.nodup_cons.1 hn).1
      refine hI.replace { o with body := .stringInfo sb s.nextBlock false } [data] ha
        (by rw [hbody]; exact id) id rfl ?_ ?_
        (List.nodup_singleton _) ?_ ?_ ?_ (Nat.le_succ _) fun _ => Nat.lt_succ_self _
      · intro b hb
        rw [hfreed', List.mem_singleton.1 hb]
        exact List.mem_cons_self ..
      · exact fun _ _ _ => ⟨hmembers, hown⟩
      · intro b hb
        rw [hfreed, List.mem_singleton.1 hb]
        exact List.mem_cons_self ..
      · intro b hb
        rw [hfreed'] at hb
        rcases List.mem_cons.1 hb with rfl | hb
        · exact .inr rfl
        · refine .inl ⟨hfreed ▸ List.mem_cons_of_mem _ hb, fun hd => ?_⟩
          rw [List.mem_singleton.1 hd] at hb
          exact hdata hb
      · rw [hfreed']
        refine List.nodup_cons.2 ⟨fun hn => ?_, List.nodup_singleton _⟩
        rw [List.mem_singleton.1 hn] at hmem
        exact lt_irrefl _ hmem
    · cases h
  · cases h

/-- **`env_cursor_close`.** -/
theorem Inv.cursorClose (hI : s.Inv) {e : ℕ} (h : s.cursorClose e = some s') : s'.Inv := by
  rw [ObjHeap.cursorClose] at h
  split at h
  · next a o hobj =>
    split at h
    · next portal idx hbody =>
      cases h
      obtain ⟨-, ha⟩ := getObj_eq hobj
      have hfreed : o.freed = [portal, o.mem] := by simp [Obj.freed, hbody]
      have hfreed' : ({ o with body := .portal none idx } : Obj).freed = [o.mem] := by
        simp [Obj.freed]
      have hportal : portal ∉ [o.mem] := by
        have hn := hI.owned.nodup a _ ha
        rw [Node.owned, hfreed] at hn
        exact (List.nodup_cons.1 hn).1
      have hmem : o.mem < s.nextBlock := hI.owned.lt a _ ha o.mem (by simp [Node.owned, hfreed])
      refine hI.replace { o with body := .portal none idx } [portal] ha
        (by rw [hbody]; exact id) id rfl (by rintro b ⟨⟩) nofun (List.nodup_singleton _) ?_ ?_ ?_
        le_rfl ?_
      · intro b hb
        rw [hfreed, List.mem_singleton.1 hb]
        exact List.mem_cons_self ..
      · intro b hb
        rw [hfreed'] at hb
        refine .inl ⟨hfreed ▸ List.mem_cons_of_mem _ hb, fun hp => ?_⟩
        rw [List.mem_singleton.1 hp] at hb
        exact hportal hb
      · rw [hfreed']
        exact List.nodup_singleton _
      · intro hb
        rw [hfreed'] at hb
        rw [← List.mem_singleton.1 hb] at hmem
        exact absurd hmem (lt_irrefl _)
    · cases h
  · cases h

/-- The array behind a container is a root; it may refer to anything else that is reached. -/
theorem Inv.traced_refSet (hI : s.Inv) {r : ℕ} {ms ms' : List (Option ℕ)}
    (ha : s.nodes.get? a = some (.host o)) (href : o.ref = some r)
    (hr : s.nodes.get? r = some (.refSet ms))
    (hms : ∀ q, some q ∈ ms' → some q ∈ ms ∨ s.Reaches q) :
    (s.nodes.store r (.refSet ms')).Traced Node.refs s.gcRoots := by
  refine hI.traced.store (fun q hq => .inr ?_) fun q hq => .inr (.root hq)
  rcases hms q (List.reduceOption_mem_iff.1 hq) with hq | hq
  · exact (Memory.Reaches.root (hI.ref_root ha href)).points
      ⟨_, hr, List.reduceOption_mem_iff.2 hq⟩
  · exact hq

theorem setSlot_eq {r i e : ℕ} {elems : Block} {w : JsonbValue}
    (h : s.setSlot r elems i e w = some s') : ∃ ms, s.nodes.get? r = some (.refSet ms) ∧
      i < ms.length ∧ s' = { s with
        nodes := s.nodes.store r (.refSet (ms.set i (some e)))
        contents :=
          Function.update s.contents elems (Function.update (s.contents elems) i (some w)) } := by
  rw [setSlot] at h
  split at h
  · next ms hr =>
    split_ifs at h with hi
    cases h
    exact ⟨ms, hr, hi, rfl⟩
  · cases h

theorem get?_setSlot {r i e q : ℕ} {elems : Block} {w : JsonbValue} {u : Node}
    (h : s.setSlot r elems i e w = some s') (hq : s.nodes.get? q = some u)
    (hu : ∀ ms, u ≠ .refSet ms) : s'.nodes.get? q = some u := by
  obtain ⟨ms, hr, -, rfl⟩ := setSlot_eq h
  refine (Memory.get?_store_of_ne ?_).trans hq
  rintro rfl
  rw [hr] at hq
  exact hu ms (Option.some.inj hq).symm

/-- **A slot is set.** -/
theorem Inv.setSlot (hI : s.Inv) {jbv jbv' elems : Block} {v w : JsonbValue} {r i e a' : ℕ}
    {ms : List (Option ℕ)} (ha : s.nodes.get? a = some (.host o)) (hbody : o.body = .jsonbValue jbv v)
    (hslots : v.slots = some elems) (href : o.ref = some r)
    (he : s.nodes.get? e = some (.externref a')) (ha' : s.nodes.get? a' = some (.host o'))
    (hbody' : o'.body = .jsonbValue jbv' w) (hr : s.nodes.get? r = some (.refSet ms))
    (hi : i < ms.length)
    (htraced : (s.nodes.store r (.refSet (ms.set i (some e)))).Traced Node.refs s.gcRoots) :
    ({ s with
      nodes := s.nodes.store r (.refSet (ms.set i (some e)))
      contents := Function.update s.contents elems
        (Function.update (s.contents elems) i (some w)) } : ObjHeap).Inv := by
  have helems := hI.borrowing.container a o jbv v elems ha hbody hslots
  have hnohost : ∀ o, s.nodes.get? r ≠ some (.host o) := by
    intro o ho
    rw [hr] at ho
    cases ho
  constructor
  · intro q hq
    rcases Memory.live_store.1 hq with rfl | hq
    · exact hI.fresh _ (Memory.live_of_get? hr)
    · exact hI.fresh q hq
  · exact htraced
  · exact hI.locals.store_plain hnohost nofun
  · exact hI.owned.store_nil rfl
  · intro elems' j w' hw'
    by_cases hel : elems' = elems
    · subst hel
      exact hI.owned.lt a _ ha elems' helems
    · simp only [Function.update_of_ne hel] at hw'
      exact hI.contents elems' j w' hw'
  · exact hI.borrowing.setSlot ha hbody hslots href hr hi he ha' hbody'
      fun a₁ o₁ h₁ hel => hI.owned.unique a₁ a _ _ h₁ ha elems hel helems

/-- **`jsonb_value_array_set`.** -/
theorem Inv.jsonbValueArraySet (hI : s.Inv) {array idx member : ℕ} (hm : s.Reaches member)
    (h : s.jsonbValueArraySet array idx member = some s') : s'.Inv := by
  rw [ObjHeap.jsonbValueArraySet] at h
  split at h
  · next harray hmember =>
    obtain ⟨-, ha⟩ := getObj_eq harray
    obtain ⟨he, ha'⟩ := getObj_eq hmember
    obtain ⟨ms, hr, hi, rfl⟩ := setSlot_eq h
    refine hI.setSlot ha rfl rfl rfl he ha' rfl hr hi (hI.traced_refSet ha rfl hr fun q hq => ?_)
    rcases List.mem_or_eq_of_mem_set hq with hq | hq
    · exact .inl hq
    · cases hq
      exact .inr hm
  · cases h

/-- **`jsonb_value_object_set`**: first the key, then the value. -/
theorem Inv.jsonbValueObjectSet (hI : s.Inv) {object idx key value : ℕ} (hk : s.Reaches key)
    (hv : s.Reaches value) (h : s.jsonbValueObjectSet object idx key value = some s') : s'.Inv := by
  rw [ObjHeap.jsonbValueObjectSet] at h
  split at h
  · next hobject hkey hvalue =>
    obtain ⟨-, ha⟩ := getObj_eq hobject
    obtain ⟨hke, hka⟩ := getObj_eq hkey
    obtain ⟨hve, hva⟩ := getObj_eq hvalue
    obtain ⟨s₁, h₁, h₂⟩ := Option.bind_eq_some_iff.1 h
    have hka₁ := get?_setSlot h₁ ha nofun
    have hve₁ := get?_setSlot h₁ hve nofun
    have hva₁ := get?_setSlot h₁ hva nofun
    obtain ⟨ms, hr, hi, rfl⟩ := setSlot_eq h₁
    have hI₁ := hI.setSlot ha rfl rfl rfl hke hka rfl hr hi
      (hI.traced_refSet ha rfl hr fun q hq => by
        rcases List.mem_or_eq_of_mem_set hq with hq | hq
        · exact .inl hq
        · cases hq
          exact .inr hk)
    obtain ⟨ms', hr', hi', rfl⟩ := setSlot_eq h₂
    rw [Memory.get?_store_self] at hr'
    cases hr'
    refine hI₁.setSlot hka₁ rfl rfl rfl hve₁ hva₁ rfl
      Memory.get?_store_self hi' ?_
    rw [Memory.store_store]
    refine hI.traced_refSet ha rfl hr fun q hq => ?_
    rcases List.mem_or_eq_of_mem_set hq with hq | hq
    · rcases List.mem_or_eq_of_mem_set hq with hq | hq
      · exact .inl hq
      · cases hq
        exact .inr hk
    · cases hq
      exact .inr hv
  · cases h

/-! ### The guest and the collector -/

theorem Inv.guestNew (hI : s.Inv) {fields : List ℕ} (hf : ∀ q ∈ fields, s.Reaches q) :
    (s.step (.guestNew fields)).Inv := by
  refine hI.store_plain rfl rfl rfl rfl (.inl hI.get?_next) nofun
    ⟨Nat.lt_succ_self _, Nat.le_succ _⟩ (hI.traced.store (fun q hq => .inr (hf q hq)) ?_) hI.locals
  intro r hr
  simp only [ObjHeap.step, gcRoots, List.mem_append, List.mem_cons] at hr
  by_cases hrx : r = s.nextNode
  · exact .inl hrx
  · refine .inr (.root ?_)
    simp only [gcRoots, List.mem_append]
    tauto

theorem Inv.guestSet (hI : s.Inv) {fields old : List ℕ} (hold : s.nodes.get? p = some (.struct old))
    (hf : ∀ q ∈ fields, s.Reaches q) : (s.step (.guestSet p fields)).Inv :=
  hI.store_plain rfl rfl rfl rfl (.inr ⟨⟨_, rfl⟩, _, hold⟩) nofun
    ⟨hI.fresh p (Memory.live_of_get? hold), le_rfl⟩
    (hI.traced.store (fun q hq => .inr (hf q hq)) fun _ hr => .inr (.root hr)) hI.locals

/-- Roots, and what statements do to portals, matter to nothing else. -/
theorem Inv.of_roots (hI : s.Inv) (hnodes : s'.nodes = s.nodes) (hnext : s'.nextNode = s.nextNode)
    (hcontents : s'.contents = s.contents) (hfreed : s'.freed = s.freed)
    (hblock : s'.nextBlock = s.nextBlock) (hroots : ∀ r ∈ s'.gcRoots, s.Reaches r)
    (hlocals : Locals s.nodes s'.phase s'.locals) : s'.Inv := by
  constructor
  · rw [hnodes, hnext]
    exact hI.fresh
  · rw [hnodes]
    exact hI.traced.of_roots hroots
  · rw [hnodes]
    exact hlocals
  · rw [hnodes, hfreed, hblock]
    exact hI.owned
  · rw [hcontents, hblock]
    exact hI.contents
  · rw [hnodes, hcontents]
    exact hI.borrowing

/-- **`rst_obj_new_static`.** -/
theorem Inv.newStatic (hI : s.Inv) (hidle : s.phase = .idle) (oid : Oid) :
    (s.newStatic oid).Inv := by
  have hI₁ : (s.rstObjNew { mem := s.nextBlock, body := .datum oid s.nextBlock }).Inv :=
    hI.make hidle (by rintro q ⟨⟩) (rfl : s.make (.newDatum oid) = some _)
  refine hI₁.store_plain rfl rfl rfl rfl (.inl hI₁.get?_next) nofun
    ⟨Nat.lt_succ_self _, Nat.le_succ _⟩ (hI₁.traced.store ?_ ?_) ?_
  · intro q hq
    rw [List.mem_singleton.1 hq]
    exact .inr (.root (by simp [gcRoots, ObjHeap.rstObjNew]))
  · intro r hr
    simp only [ObjHeap.newStatic, gcRoots, List.mem_append, List.mem_cons] at hr
    by_cases hrx : r = (s.rstObjNew { mem := s.nextBlock, body := .datum oid s.nextBlock }).nextNode
    · exact .inl hrx
    · refine .inr (.root ?_)
      simp only [gcRoots, List.mem_append]
      have : r ∉ ([] : List ℕ) := List.not_mem_nil
      tauto
  · have hlocals := hI₁.locals
    exact ⟨hlocals.obj_iff, hlocals.nodup, fun t ht => absurd (hlocals.stack t ht) nofun, nofun⟩

/-- **An array is converted**: the struct is kept by the reference on the stack. -/
theorem Inv.convert (hI : s.Inv) (hidle : s.phase = .idle) : s.convert.Inv := by
  refine hI.store_plain rfl rfl rfl rfl (.inl hI.get?_next) nofun
    ⟨Nat.lt_succ_self _, Nat.le_succ _⟩ (hI.traced.store (by rintro q ⟨⟩) ?_) ?_
  · intro r hr
    simp only [ObjHeap.convert, gcRoots, List.map_cons, List.mem_append, List.mem_cons] at hr
    by_cases hrx : r = s.nextNode
    · exact .inl hrx
    · refine .inr (.root ?_)
      simp only [gcRoots, List.mem_append]
      have : r ∉ ([] : List ℕ) := List.not_mem_nil
      tauto
  · have hlocals := hI.locals
    rw [hidle] at hlocals
    exact hlocals.pushStack

theorem Inv.convertElems (hI : s.Inv) : (s.convertElems p).Inv := by
  rw [ObjHeap.convertElems]
  split
  · next fs hp =>
    have hx := hI.get?_next
    have hI₁ : ({ s with
        nodes := s.nodes.store s.nextNode (.struct [])
        nextNode := s.nextNode + 1 } : ObjHeap).Inv :=
      hI.store_plain rfl rfl rfl rfl (.inl hx) nofun ⟨Nat.lt_succ_self _, Nat.le_succ _⟩
        (hI.traced.store (by rintro q ⟨⟩) fun r hr => .inr (.root hr)) hI.locals
    have hpx : p ≠ s.nextNode := by
      rintro rfl
      rw [hx] at hp
      cases hp
    -- the elements are reached as soon as the struct has them
    have htraced : (s.nodes.store s.nextNode (.struct [])).Traced Node.refs
        (s.nextNode :: s.gcRoots) := by
      refine hI.traced.store (by rintro q ⟨⟩) fun r hr => ?_
      rcases List.mem_cons.1 hr with rfl | hr
      · exact .inl rfl
      · exact .inr (.root hr)
    refine hI₁.store_plain rfl rfl rfl rfl
      (.inr ⟨⟨_, rfl⟩, fs, (Memory.get?_store_of_ne hpx).trans hp⟩) nofun
      ⟨Nat.lt_succ_of_lt (hI.fresh p (Memory.live_of_get? hp)), le_rfl⟩
      (htraced.store ?_ fun r hr => .inr (.root (List.mem_cons_of_mem _ hr))) hI₁.locals
    intro q hq
    rw [List.mem_singleton.1 hq]
    exact .inr (.root (List.mem_cons_self ..))
  · exact hI

theorem Inv.converted (hI : s.Inv) (hph : s.phase = .converting p) : (s.converted p).Inv := by
  obtain ⟨rest, hrest⟩ := hI.locals.top p hph
  refine hI.of_roots rfl rfl rfl rfl rfl ?_ ?_
  · intro r hr
    simp only [ObjHeap.converted, gcRoots, hrest, List.tail_cons, List.append_nil, List.mem_append,
      List.mem_cons] at hr
    refine .root ?_
    simp only [gcRoots, hrest, List.map_cons, List.mem_append, List.mem_cons]
    tauto
  · have hlocals := hI.locals
    rw [hph] at hlocals
    exact hlocals.pop

/-- The finalizer only shortens the list of local references. -/
theorem mem_gcRoots_objFinalizer {r : ℕ} (hr : r ∈ (s.objFinalizer p o).gcRoots) :
    r ∈ s.gcRoots := by
  have hlocals : ∀ q, q ∈ (s.objFinalizer p o).locals → q ∈ s.locals := by
    intro q hq
    rw [objFinalizer] at hq
    simp only at hq
    split_ifs at hq
    · exact List.mem_of_mem_eraseP hq
    · exact hq
  simp only [gcRoots, List.mem_append, List.mem_map] at hr ⊢
  rcases hr with ((hr | hr) | ⟨q, hq, rfl⟩) | hr
  · exact .inl (.inl (.inl hr))
  · exact .inl (.inl (.inr hr))
  · exact .inl (.inr ⟨q, hlocals q hq, rfl⟩)
  · exact .inr hr

/-- **The collector** removes an object that it does not reach, and its finalizer runs. -/
theorem Inv.collect (hI : s.Inv) (hlive : s.nodes.Live p) (hp : ¬ s.Reaches p) :
    (s.collect p).Inv := by
  have hborrowing : Borrowing (s.nodes.free p) s.contents := by
    refine hI.borrowing.aside (.free hp fun a o t ha ht => hI.ref_root ha ht) ?_ ?_
    · intro ms hms
      rw [Memory.get?_free_self] at hms
      cases hms
    · intro o ho
      rw [Memory.get?_free_self] at ho
      cases ho
  have hfresh : ∀ q, (s.nodes.free p).Live q → q < s.nextNode :=
    fun q hq => hI.fresh q (Memory.live_free.1 hq).2
  have htraced : (s.nodes.free p).Traced Node.refs s.gcRoots := hI.traced.free hp
  obtain ⟨v, hv⟩ := Memory.live_iff.1 hlive
  have hplain : (∀ o, v ≠ .host o) → ({ s with nodes := s.nodes.free p } : ObjHeap).Inv := by
    intro hno
    refine ⟨hfresh, htraced, hI.locals.congr fun a t => ?_, ?_, hI.contents, hborrowing⟩
    · by_cases ha : a = p
      · subst ha
        rw [Memory.get?_free_self, hv]
        refine iff_of_false ?_ ?_
        · rintro ⟨o, ho, -⟩
          cases ho
        · rintro ⟨o, ho, -⟩
          exact hno o (Option.some.inj ho)
      · rw [Memory.get?_free_of_ne ha]
    · have howned := hI.owned.free hv
      cases v with
      | host o => exact absurd rfl (hno o)
      | struct fs => exact howned
      | refSet ms => exact howned
      | externref a => exact howned
  rw [ObjHeap.collect, hv]
  cases v with
  | host o =>
    refine ⟨hfresh, htraced.of_roots fun r hr => .root (mem_gcRoots_objFinalizer hr), ?_, ?_,
      hI.contents, hborrowing⟩
    · exact hI.locals.remove hv
    · exact hI.owned.free hv
  | struct fs => exact hplain nofun
  | refSet ms => exact hplain nofun
  | externref a => exact hplain nofun

/-- **One event** keeps the invariant. -/
theorem Inv.step (hI : s.Inv) {e : ObjEvent} (h : e.Enabled s) : (s.step e).Inv := by
  cases e with
  | guestNew fields => exact hI.guestNew h.2
  | guestSet p fields =>
    obtain ⟨-, -, ⟨old, hold⟩, hf⟩ := h
    exact hI.guestSet hold hf
  | guestRoots roots =>
    refine hI.of_roots rfl rfl rfl rfl rfl (fun r hr => ?_) hI.locals
    simp only [ObjHeap.step, gcRoots, List.mem_append] at hr
    rcases hr with ((hr | hr) | hr) | hr
    · exact .root (by simp [gcRoots, hr])
    · exact h.2 r hr
    · exact .root (by simp only [gcRoots, List.mem_append]; exact .inl (.inr hr))
    · exact .root (by simp only [gcRoots, List.mem_append]; exact .inr hr)
  | make mk =>
    rw [ObjHeap.step]
    cases hmk : s.make mk with
    | none => exact hI
    | some o => exact hI.make h.1 h.2 hmk
  | externrefOfObj =>
    obtain ⟨a, ha⟩ := h
    exact hI.rstExternrefOfObj ha
  | jsonbValueNewArray length => exact hI.newContainer h length fun b => rfl
  | jsonbValueNewObject length => exact hI.newContainer h (length * 2) fun b => rfl
  | jsonbValueArraySet array idx member =>
    rw [ObjHeap.step]
    cases hs : s.jsonbValueArraySet array idx member with
    | none => exact hI
    | some s' => exact hI.jsonbValueArraySet h.2.2 hs
  | jsonbValueObjectSet object idx key value =>
    rw [ObjHeap.step]
    cases hs : s.jsonbValueObjectSet object idx key value with
    | none => exact hI
    | some s' => exact hI.jsonbValueObjectSet h.2.2.1 h.2.2.2 hs
  | sbWrite refobj =>
    rw [ObjHeap.step]
    cases hs : s.sbEnlarge refobj with
    | none => exact hI
    | some s' => exact hI.sbEnlarge hs
  | cursorClose cursor =>
    rw [ObjHeap.step]
    cases hs : s.cursorClose cursor with
    | none => exact hI
    | some s' => exact hI.cursorClose hs
  | executeStatement closes =>
    exact hI.of_roots rfl rfl rfl rfl rfl (fun r hr => .root hr) hI.locals
  | newStatic oid => exact hI.newStatic h oid
  | convert => exact hI.convert h
  | convertElems =>
    obtain ⟨p, hp⟩ := h
    rw [ObjHeap.step, hp]
    exact hI.convertElems
  | converted =>
    obtain ⟨p, hp⟩ := h
    rw [ObjHeap.step, hp]
    exact hI.converted hp
  | collect p => exact hI.collect h.1 h.2

end ObjHeap

/-! ## Runs -/

/-- **Borrowed memory** has an owner. -/
theorem ObjHeap.Inv.borrowsLive (hI : s.Inv) : s.BorrowsLive := by
  have halive : ∀ a b, Backs s.nodes a b → b ∉ s.freed ∧
      ∃ a' o', s.nodes.get? a' = some (.host o') ∧ b ∈ o'.freed := by
    intro a b hb
    obtain ⟨a', o', ha', hown⟩ := hb.owner
    exact ⟨hI.owned.not_freed a' _ ha' b hown, a', o', ha', hown⟩
  rintro a b ⟨o, ha, hb | ⟨jbv, v, elems, i, w, hbody, hslots, hw, hb⟩⟩
  · exact halive a b (hI.borrowing.backed a o ha b hb)
  · obtain ⟨r, -, ms, e, a', o', -, -, -, -, -, hbacks⟩ :=
      hI.borrowing.slots a o jbv v elems i w ha hbody hslots hw b hb
    exact halive a' b hbacks

/-- A statement closes no cursor that the guest holds. -/
def ObjEvent.KeepsCursors (_ : ObjHeap) : ObjEvent → Prop
  | .executeStatement closes => closes = []
  | _ => True

theorem ObjHeap.closed_setSlot {r i e : ℕ} {elems : Block} {w : JsonbValue}
    (h : s.setSlot r elems i e w = some s') : s'.closed = s.closed := by
  obtain ⟨ms, -, -, rfl⟩ := setSlot_eq h
  rfl

theorem ObjHeap.closed_getD {r : Option ObjHeap} (h : ∀ s', r = some s' → s'.closed = s.closed) :
    (r.getD s).closed = s.closed := by
  cases hr : r with
  | none => rfl
  | some s' => exact h s' hr

/-- Only statements close cursors behind the back of the guest. -/
theorem ObjHeap.closed_step {e : ObjEvent} (h : e.KeepsCursors s) :
    (s.step e).closed = s.closed := by
  cases e with
  | guestNew fields => rfl
  | guestSet p fields => rfl
  | guestRoots roots => rfl
  | make mk =>
    rw [step]
    cases s.make mk with
    | none => rfl
    | some o => rfl
  | externrefOfObj =>
    rw [step, rstExternrefOfObj]
    split
    · rfl
    · rfl
  | jsonbValueNewArray length => rfl
  | jsonbValueNewObject length => rfl
  | jsonbValueArraySet array idx member =>
    refine closed_getD fun s' hs => ?_
    rw [jsonbValueArraySet] at hs
    split at hs
    · exact closed_setSlot hs
    · cases hs
  | jsonbValueObjectSet object idx key value =>
    refine closed_getD fun s' hs => ?_
    rw [jsonbValueObjectSet] at hs
    split at hs
    · obtain ⟨s₁, h₁, h₂⟩ := Option.bind_eq_some_iff.1 hs
      exact (closed_setSlot h₂).trans (closed_setSlot h₁)
    · cases hs
  | sbWrite refobj =>
    refine closed_getD fun s' hs => ?_
    rw [sbEnlarge] at hs
    split at hs
    · split at hs
      · cases hs
        rfl
      · cases hs
    · cases hs
  | cursorClose cursor =>
    refine closed_getD fun s' hs => ?_
    rw [ObjHeap.cursorClose] at hs
    split at hs
    · split at hs
      · cases hs
        rfl
      · cases hs
    · cases hs
  | executeStatement closes =>
    rw [ObjEvent.KeepsCursors] at h
    rw [step, h]
    rfl
  | newStatic oid => rfl
  | convert => rfl
  | convertElems =>
    rw [step]
    split
    · rw [ObjHeap.convertElems]
      split
      · rfl
      · rfl
    · rfl
  | converted =>
    rw [step]
    split
    · rfl
    · rfl
  | collect p =>
    rw [step, ObjHeap.collect]
    split
    · rfl
    · rfl

variable {h : List (ObjHeap × ObjEvent)}

/-- **The objects of a guest.**  In every run, whatever the guest does and whenever the collector
    runs, borrowed memory is alive, and natives and finalizers free nothing twice.  As long as no
    statement closes a cursor that the guest holds, they free nothing that was freed before at
    all. -/
theorem borrows_live (hr : Run ObjStep ObjHeap.empty h s) :
    Always (fun s => s.BorrowsLive ∧ s.freed.Nodup) h s ∧
      (Meets ObjEvent.KeepsCursors h → Always (fun s => (s.closed ++ s.freed).Nodup) h s) := by
  have hI : Always ObjHeap.Inv h s := by
    refine hr.always ObjHeap.Inv.empty ?_
    rintro s e s' hI ⟨he, rfl⟩
    exact hI.step he
  refine ⟨hI.imp fun s hI => ⟨hI.borrowsLive, hI.owned.freed_nodup⟩, fun hm => ?_⟩
  have hclosed : Always (fun s => s.closed = []) h s := by
    refine hr.always_of_meets rfl ?_ hm
    rintro s e s' hs hk ⟨-, rfl⟩
    exact (ObjHeap.closed_step hk).trans hs
  refine (hI.and hclosed).imp fun s hs => ?_
  rw [hs.2]
  exact hs.1.owned.freed_nodup

/-- The objects that a run of enabled events leads to. -/
theorem ObjHeap.run_snoc {e : ObjEvent} (hr : Run ObjStep ObjHeap.empty h s) (he : e.Enabled s) :
    Run ObjStep ObjHeap.empty ((s, e) :: h) (s.step e) := .snoc hr ⟨he, rfl⟩

/-- A text, a JSONB string in it, and the guest drops the text: its reference is collected, but not
    the text. -/
theorem text_kept : ∃ h s, Run ObjStep ObjHeap.empty h s ∧ s.BorrowsLive ∧ s.PointsInto 2 0 ∧
    s.nodes.get? 1 = none := by
  have h₁ := ObjHeap.run_snoc (e := .make (.newDatum textOid)) .nil ⟨rfl, by rintro q ⟨⟩⟩
  have h₂ := ObjHeap.run_snoc (e := .externrefOfObj) h₁ ⟨0, rfl⟩
  have h₃ := ObjHeap.run_snoc (e := .make (.jsonbValueNewString 1 false)) h₂ ⟨rfl, ?_⟩
  have h₄ := ObjHeap.run_snoc (e := .externrefOfObj) h₃ ⟨2, rfl⟩
  have h₅ := ObjHeap.run_snoc (e := .guestRoots [3]) h₄ ⟨rfl, ?_⟩
  have h₆ := ObjHeap.run_snoc (e := .collect 1) h₅ ⟨rfl, ?_⟩
  · exact ⟨_, _, h₆, (borrows_live h₆).1.last.1, ⟨_, rfl, .inl (List.mem_singleton.2 rfl)⟩, rfl⟩
  · -- the string is reached, and the text by its local reference
    intro hreach
    have hmem : 1 ∈ [3, 2, 0] := by
      refine Memory.Reaches.rule (I := fun q => q ∈ [3, 2, 0]) (by decide) ?_ hreach
      rintro a b ha ⟨v, hv, hb⟩
      rcases List.mem_cons.1 ha with rfl | ha
      · cases hv
        rw [List.mem_singleton.1 hb]
        decide
      · rcases List.mem_cons.1 ha with rfl | ha
        · cases hv
          cases hb
        · rw [List.mem_singleton.1 ha] at hv
          cases hv
          cases hb
    revert hmem
    decide
  · intro q hq
    rw [List.mem_singleton.1 hq]
    exact .root (by decide)
  · intro q hq
    rw [List.mem_singleton.1 hq]
    exact .root (by decide)

/-- **A statement closes a cursor** that the guest holds: when the cursor is collected, its portal is
    freed again. -/
theorem portal_freed_again : ∃ h s, Run ObjStep ObjHeap.empty h s ∧
    ¬ (s.closed ++ s.freed).Nodup := by
  have h₁ := ObjHeap.run_snoc (e := .make (.cursorOpen 0)) .nil ⟨rfl, by rintro q ⟨⟩⟩
  have h₂ := ObjHeap.run_snoc (e := .externrefOfObj) h₁ ⟨0, rfl⟩
  have h₃ := ObjHeap.run_snoc (e := .executeStatement [1]) h₂ ⟨rfl, by decide, ?_⟩
  have h₄ := ObjHeap.run_snoc (e := .guestRoots []) h₃ ⟨rfl, by rintro q ⟨⟩⟩
  have h₅ := ObjHeap.run_snoc (e := .collect 0) h₄ ⟨rfl, ?_⟩
  · exact ⟨_, _, h₅, by decide⟩
  · rintro ⟨r, ⟨⟩, -⟩
  · intro portal hp
    rw [List.mem_singleton.1 hp]
    exact ⟨nofun, 0, _, 0, rfl, rfl⟩

end Rustica
