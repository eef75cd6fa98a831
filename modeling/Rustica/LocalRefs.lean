/-
  The list of local references of an `exec_env`, as it lies in memory.

  A `wasm_local_obj_ref_t` is in an `Obj` that keeps another object, or on the stack of a native that
  converts an array; each points to the one that was pushed before it.  Those on the stack are pushed
  and popped, with collections between, and those in an `Obj` are taken out by its finalizer, in any
  order.  The list is always that of the live objects with a reference and of the conversion that is
  running (`localRefs_exact`), so that the list of an `ObjHeap` is what lies in memory
  (`heapStep_lists`).

  How the runtime pushes and pops is a parameter (`Wamr`).
-/
import Rustica.Lib.Links
import Rustica.Borrow

namespace Rustica

open Exec Memory

/-! ## The code -/

/-- `wasm_local_obj_ref_t`. -/
abbrev LocalObjRef (P V : Type) := LinkCell P V

/-- What of an `exec_env` is used here: what `wasm_runtime_get_cur_local_obj_ref` returns, and the
    references in memory. -/
structure ExecEnv (P V : Type) where
  cur : Option P
  refs : Memory P (LocalObjRef P V)

variable {P V : Type} [DecidableEq P]

/-- The memory at `p` is given back: that of an `Obj` by `pfree`, that of a frame by its return. -/
def ExecEnv.free (env : ExecEnv P V) (p : P) : ExecEnv P V := { env with refs := env.refs.free p }

/-- `wasm_runtime_push_local_obj_ref` and `wasm_runtime_pop_local_obj_ref`. -/
structure Wamr (P V : Type) where
  push : ExecEnv P V → P → ExecEnv P V
  pop : ExecEnv P V → ExecEnv P V

/-- A reference that is pushed becomes the current one and points to the one before it, and a pop
    makes that the current one again. -/
structure Wamr.Lawful (rt : Wamr P V) : Prop where
  push : ∀ env p, ∃ v, rt.push env p = ⟨some p, env.refs.store p ⟨env.cur, v⟩⟩
  pop : ∀ env p c, env.cur = some p → env.refs.get? p = some c → rt.pop env = { env with cur := c.prev }

/-- How code with a loop ends, if it does so within some number of rounds. -/
inductive LoopEnd (α : Type) where
  | returned (a : α)
  /-- a null pointer is followed -/
  | crashed
  | running

variable (rt : Wamr P V)

/-- A reference is pushed and given its value. -/
def pushLocalObjRef (env : ExecEnv P V) (p : P) (val : V) : ExecEnv P V :=
  let env := rt.push env p
  match env.refs.get? p with
  | some c => { env with refs := env.refs.store p { c with val } }
  | none => env

/-- The loop of `wasm_runtime_remove_local_obj_ref`: `next` at its end. -/
def seekLocalObjRef (refs : Memory P (LocalObjRef P V)) (me : P) :
    ℕ → Option P → Option P → LoopEnd (Option P)
  | 0, _, _ => .running
  | fuel + 1, next, current =>
    if current = some me then .returned next
    else
      match current with
      | none => .crashed
      | some p =>
        match refs.get? p with
        | none => .crashed
        | some c => seekLocalObjRef refs me fuel current c.prev

def wasmRuntimeRemoveLocalObjRef (fuel : ℕ) (env : ExecEnv P V) (me : P) : LoopEnd (ExecEnv P V) :=
  if env.cur = some me then .returned (rt.pop env)
  else
    match seekLocalObjRef env.refs me fuel none env.cur with
    | .returned (some next) =>
      match env.refs.get? next, env.refs.get? me with
      | some c, some d =>
        .returned { env with refs := env.refs.store next { c with prev := d.prev } }
      | _, _ => .crashed
    | .returned none => .crashed
    | .crashed => .crashed
    | .running => .running

/-- The code returns, however many more rounds it is given. -/
def Returns {α : Type} (code : ℕ → LoopEnd α) (a : α) : Prop :=
  ∃ n, ∀ fuel, n ≤ fuel → code fuel = .returned a

/-! ## Removal -/

variable {rt} {env env' : ExecEnv P V} {l : List (P × V)} {me : P}

/-- The list without a reference. -/
def without (me : P) (l : List (P × V)) : List (P × V) := l.eraseP fun r => r.1 = me

/-- The list of an `exec_env`. -/
def ExecEnv.Lists (env : ExecEnv P V) (l : List (P × V)) : Prop := env.refs.Links env.cur l

theorem seek_returns {refs : Memory P (LocalObjRef P V)} {cur next : Option P} {v : V}
    {l₁ l₂ : List (P × V)} {fuel : ℕ} (h : refs.Links cur (l₁ ++ (me, v) :: l₂))
    (hfuel : l₁.length < fuel) : seekLocalObjRef refs me fuel next cur =
      .returned (match l₁.getLast? with
        | some r => some r.1
        | none => next) := by
  induction l₁ generalizing cur next fuel with
  | nil =>
    obtain ⟨fuel, rfl⟩ : ∃ n, fuel = n + 1 := ⟨fuel - 1, by simp at hfuel; omega⟩
    rw [List.nil_append] at h
    obtain rfl := h.cur_eq
    rw [seekLocalObjRef, if_pos rfl]
    rfl
  | cons x l₁ ih =>
    obtain ⟨fuel, rfl⟩ : ∃ n, fuel = n + 1 := ⟨fuel - 1, by simp at hfuel; omega⟩
    have hnodup := h.nodup
    rw [List.cons_append, List.map_cons, List.nodup_cons] at hnodup
    cases h with
    | @cons p c _ hp h =>
      have hne : some p ≠ some me := by
        rintro heq
        obtain rfl := Option.some_inj.1 heq
        simp at hnodup
      rw [seekLocalObjRef, if_neg hne, hp]
      dsimp only
      rw [ih h (by simpa using hfuel), List.getLast?_cons]
      cases l₁.getLast? <;> rfl

theorem without_append {v : V} {l₁ l₂ : List (P × V)}
    (h : ((l₁ ++ (me, v) :: l₂).map Prod.fst).Nodup) :
    without me (l₁ ++ (me, v) :: l₂) = l₁ ++ l₂ := by
  have hne : ∀ r ∈ l₁, ¬ decide (r.1 = me) = true := by
    intro r hr heq
    rw [List.map_append, List.map_cons] at h
    refine List.disjoint_of_nodup_append h (List.mem_map_of_mem hr) ?_
    rw [of_decide_eq_true heq]
    exact List.mem_cons_self
  rw [without, List.eraseP_append_right _ (fun r hr => hne r hr), List.eraseP_cons_of_pos (by simp)]

/-- What is left of a list after a removal, and nothing else changes but where references point. -/
structure RemovesOnly (rt : Wamr P V) (env : ExecEnv P V) (l : List (P × V)) (me : P)
    (env' : ExecEnv P V) : Prop where
  returns : Returns (fun fuel => wasmRuntimeRemoveLocalObjRef rt fuel env me) env'
  lists : env'.Lists (without me l)
  vals : ∀ p, (env'.refs.get? p).map LinkCell.val = (env.refs.get? p).map LinkCell.val

/-- **Removal**: it terminates, and leaves the same list without the reference. -/
theorem remove_only (hrt : rt.Lawful) (h : env.Lists l) (hme : me ∈ l.map Prod.fst) :
    ∃ env', RemovesOnly rt env l me env' := by
  obtain ⟨⟨a, v⟩, hmem, rfl⟩ := List.mem_map.1 hme
  obtain ⟨d, hd, -⟩ := Links.get? h hmem
  obtain ⟨l₁, l₂, rfl⟩ := List.append_of_mem hmem
  have hnodup := Links.nodup h
  have hwithout := without_append hnodup
  dsimp only at hd hwithout ⊢
  rcases List.eq_nil_or_concat' l₁ with rfl | ⟨l₀, ⟨q, w⟩, rfl⟩
  · -- the reference is the current one
    have hpop := hrt.pop env _ d (Links.cur_eq h) hd
    refine ⟨rt.pop env, ⟨0, fun fuel _ => if_pos (Links.cur_eq h)⟩, ?_, fun p => ?_⟩
    · rw [hwithout, hpop]
      exact Links.tail h hd
    · rw [hpop]
  · -- another one points to it
    obtain ⟨c, hc, -⟩ := Links.get? h (p := q) (v := w) (by simp)
    have hne : env.cur ≠ some a := Links.cur_ne h (by simp)
    have hseek : ∀ fuel, (l₀ ++ [(q, w)]).length < fuel →
        seekLocalObjRef env.refs a fuel none env.cur = .returned (some q) := by
      intro fuel hfuel
      rw [seek_returns h hfuel, List.getLast?_concat]
    refine ⟨{ env with refs := env.refs.store q { c with prev := d.prev } },
      ⟨(l₀ ++ [(q, w)]).length + 1, fun fuel hfuel => ?_⟩, ?_, fun p => ?_⟩
    · refine (if_neg hne).trans ?_
      rw [hseek fuel hfuel]
      dsimp only
      rw [hc, hd]
    · rw [hwithout]
      rw [ExecEnv.Lists, List.append_assoc, List.singleton_append] at h
      rw [List.append_assoc, List.singleton_append]
      exact Links.unlink h hc hd
    · by_cases hp : p = q
      · rw [hp, get?_store_self, hc]
        rfl
      · rw [get?_store_of_ne hp]

/-! ## Objects and conversions -/

def LoopEnd.map {α β : Type} (f : α → β) : LoopEnd α → LoopEnd β
  | .returned a => .returned (f a)
  | .crashed => .crashed
  | .running => .running

variable (rt)

/-- `rst_obj_new`, where the `ref` of the new `Obj` is at `p`. -/
def pushOfObjNew (env : ExecEnv P V) (p : P) : Option V → ExecEnv P V
  | some ref => pushLocalObjRef rt env p ref
  | none => env

/-- `obj_finalizer`; `referencing` is the flag `OBJ_REFERENCING`. -/
def removeOfFinalizer (fuel : ℕ) (env : ExecEnv P V) (p : P) (referencing : Bool) :
    LoopEnd (ExecEnv P V) :=
  (if referencing then wasmRuntimeRemoveLocalObjRef rt fuel env p else .returned env).map
    fun env => env.free p

/-- The `exec_env`, and what the program has made: the `Obj`s that are not finalized, the last one
    first, each with where its `ref` is and what it references, and the reference on the stack of the
    conversion that is running. -/
structure RefState (P V : Type) where
  env : ExecEnv P V
  objs : List (P × Option V)
  active : Option (P × V)

inductive RefEvent (P V : Type) where
  | objNew (p : P) (ref : Option V)
  | convert (p : P) (arrStruct : V)
  | converted
  | finalize (p : P)

/-- New memory, on the stack or not, is none that is in use.  A conversion makes no `Obj`, though a
    collection may run. -/
def RefEvent.Enabled (s : RefState P V) : RefEvent P V → Prop
  | .objNew p _ | .convert p _ => s.active = none ∧ p ∉ s.objs.map Prod.fst
  | .converted => s.active ≠ none
  | .finalize p => p ∈ s.objs.map Prod.fst

def RefStep (s : RefState P V) (e : RefEvent P V) (s' : RefState P V) : Prop :=
  e.Enabled s ∧ match e with
    | .objNew p ref =>
      s' = { s with env := pushOfObjNew rt s.env p ref, objs := (p, ref) :: s.objs }
    | .convert p arrStruct => s' =
      { s with env := pushLocalObjRef rt s.env p arrStruct, active := some (p, arrStruct) }
    | .converted => ∃ r, s.active = some r ∧
      s' = { s with env := (rt.pop s.env).free r.1, active := none }
    | .finalize p => ∃ ref env', (p, ref) ∈ s.objs ∧
      Returns (fun fuel => removeOfFinalizer rt fuel s.env p ref.isSome) env' ∧
      s' = { s with env := env', objs := without p s.objs }

variable {rt}

def RefState.start : RefState P V := ⟨⟨none, .empty⟩, [], none⟩

/-- The references of the objects that have one. -/
def refsOf (objs : List (P × Option V)) : List (P × V) :=
  objs.filterMap fun o => o.2.map fun v => (o.1, v)

/-- The references that should be there, the last one first. -/
def RefState.expected (s : RefState P V) : List (P × V) := s.active.toList ++ refsOf s.objs

/-- What is in memory is in use once. -/
structure RefState.Inv (s : RefState P V) : Prop where
  lists : s.env.Lists s.expected
  nodup : (s.objs.map Prod.fst).Nodup
  apart : ∀ r, s.active = some r → r.1 ∉ s.objs.map Prod.fst

variable {s s' : RefState P V} {p : P} {v : V} {ref : Option V} {e : RefEvent P V}
  {objs : List (P × Option V)}

theorem Returns.unique {α : Type} {code : ℕ → LoopEnd α} {a b : α} (ha : Returns code a)
    (hb : Returns code b) : a = b := by
  obtain ⟨n, hn⟩ := ha
  obtain ⟨k, hk⟩ := hb
  have h := (hn (max n k) (le_max_left n k)).symm.trans (hk (max n k) (le_max_right n k))
  cases h
  rfl

theorem lists_push (hrt : rt.Lawful) (h : env.Lists l) (hp : p ∉ l.map Prod.fst) (v : V) :
    (pushLocalObjRef rt env p v).Lists ((p, v) :: l) := by
  obtain ⟨w, hw⟩ := hrt.push env p
  have hstored := (Links.store (c := ⟨env.cur, w⟩) h hp).push hp v
  rw [pushLocalObjRef, hw]
  dsimp only
  rw [get?_store_self]
  exact hstored

theorem Returns.map {α β : Type} {code : ℕ → LoopEnd α} {a : α} (h : Returns code a) (f : α → β) :
    Returns (fun fuel => (code fuel).map f) (f a) := by
  obtain ⟨n, hn⟩ := h
  refine ⟨n, fun fuel hfuel => ?_⟩
  dsimp only
  rw [hn fuel hfuel]
  rfl

omit [DecidableEq P] in
theorem refsOf_append (objs objs' : List (P × Option V)) :
    refsOf (objs ++ objs') = refsOf objs ++ refsOf objs' := List.filterMap_append

omit [DecidableEq P] in
theorem mem_refsOf (h : p ∈ (refsOf objs).map Prod.fst) : p ∈ objs.map Prod.fst := by
  obtain ⟨⟨q, v⟩, hq, rfl⟩ := List.mem_map.1 h
  obtain ⟨⟨q', ref⟩, hmem, heq⟩ := List.mem_filterMap.1 hq
  obtain ⟨w, rfl, hw⟩ := Option.map_eq_some_iff.1 heq
  cases hw
  exact List.mem_map_of_mem hmem

omit [DecidableEq P] in
/-- Memory that is not in use is not in the list. -/
theorem notMem_expected (hactive : ∀ r, s.active = some r → r.1 ≠ p)
    (hobjs : p ∉ s.objs.map Prod.fst) : p ∉ s.expected.map Prod.fst := by
  intro hp
  rw [RefState.expected, List.map_append, List.mem_append] at hp
  rcases hp with hp | hp
  · obtain ⟨r, hr, hrp⟩ := List.mem_map.1 hp
    exact hactive r (Option.mem_toList.1 hr) hrp
  · exact hobjs (mem_refsOf hp)

/-- **An `Obj` is finalized**, and its reference is gone. -/
theorem RefState.Inv.finalize (hrt : rt.Lawful) (h : s.Inv) (hp : (p, ref) ∈ s.objs) :
    ∃ env', Returns (fun fuel => removeOfFinalizer rt fuel s.env p ref.isSome) env' ∧
      RefState.Inv { s with env := env', objs := without p s.objs } := by
  obtain ⟨o₁, o₂, ho⟩ := List.append_of_mem hp
  have hnodup := h.nodup
  rw [ho] at hnodup
  have hwithout : without p s.objs = o₁ ++ o₂ := by
    rw [ho]
    exact without_append hnodup
  rw [List.map_append, List.map_cons, List.nodup_middle, ← List.map_append, List.nodup_cons] at hnodup
  have hactive : ∀ r, s.active = some r → r.1 ≠ p := by
    rintro r hr rfl
    exact h.apart r hr (List.mem_map_of_mem hp)
  let s' : RefState P V := { s with objs := o₁ ++ o₂ }
  have hgone : p ∉ s'.expected.map Prod.fst := notMem_expected hactive hnodup.1
  -- the reference, if there is one, is taken out of the list
  obtain ⟨env₁, hreturns, hlists⟩ : ∃ env₁, Returns (fun fuel =>
      if ref.isSome then wasmRuntimeRemoveLocalObjRef rt fuel s.env p else .returned s.env) env₁ ∧
      env₁.Lists s'.expected := by
    have hexpected' : s'.expected = (s.active.toList ++ refsOf o₁) ++ refsOf o₂ := by
      rw [List.append_assoc, ← refsOf_append]
      rfl
    cases ref with
    | none =>
      refine ⟨s.env, ⟨0, fun _ _ => rfl⟩, ?_⟩
      have hexpected : s.expected = s'.expected := by
        rw [hexpected', RefState.expected, ho, refsOf_append, ← List.append_assoc]
        rfl
      rw [← hexpected]
      exact h.lists
    | some v =>
      have hexpected : s.expected = (s.active.toList ++ refsOf o₁) ++ (p, v) :: refsOf o₂ := by
        rw [RefState.expected, ho, refsOf_append, ← List.append_assoc]
        rfl
      have hmem : p ∈ s.expected.map Prod.fst := by
        rw [hexpected]
        simp
      obtain ⟨env₁, hremove⟩ := remove_only hrt h.lists hmem
      refine ⟨env₁, hremove.returns, ?_⟩
      have hlists := hremove.lists
      have hkeys := Links.nodup h.lists
      rw [hexpected] at hlists hkeys
      rwa [without_append hkeys, ← hexpected'] at hlists
  refine ⟨env₁.free p, hreturns.map fun env => env.free p, ?_⟩
  rw [hwithout]
  refine ⟨Links.free hlists hgone, hnodup.2, fun r hr hmem => h.apart r hr ?_⟩
  rw [ho]
  rw [List.map_append, List.mem_append] at hmem
  rw [List.map_append, List.map_cons, List.mem_append, List.mem_cons]
  exact hmem.imp_right .inr

omit [DecidableEq P] in
theorem expected_idle (hidle : s.active = none) : s.expected = refsOf s.objs := by
  rw [RefState.expected, hidle]
  rfl

theorem RefState.Inv.step (hrt : rt.Lawful) (h : s.Inv) (hs : RefStep rt s e s') : s'.Inv := by
  obtain ⟨he, hs⟩ := hs
  have hlists := h.lists
  cases e with
  | objNew p ref =>
    obtain ⟨hidle, hp⟩ := he
    subst hs
    rw [expected_idle hidle] at hlists
    refine ⟨?_, List.nodup_cons.2 ⟨hp, h.nodup⟩, fun r hr => ?_⟩
    · rw [expected_idle (s := { s with env := _, objs := (p, ref) :: s.objs }) hidle]
      cases ref with
      | none => exact hlists
      | some v => exact lists_push hrt hlists (fun hmem => hp (mem_refsOf hmem)) v
    · rw [hidle] at hr
      cases hr
  | convert p arrStruct =>
    obtain ⟨hidle, hp⟩ := he
    subst hs
    rw [expected_idle hidle] at hlists
    refine ⟨lists_push hrt hlists (fun hmem => hp (mem_refsOf hmem)) arrStruct, h.nodup, ?_⟩
    rintro r ⟨⟩
    exact hp
  | converted =>
    obtain ⟨⟨p, v⟩, hr, rfl⟩ := hs
    have hexpected : s.expected = (p, v) :: refsOf s.objs := by
      rw [RefState.expected, hr]
      rfl
    rw [hexpected] at hlists
    have hkeys := Links.nodup hlists
    rw [List.map_cons, List.nodup_cons] at hkeys
    obtain ⟨c, hc, -⟩ := Links.get? hlists List.mem_cons_self
    refine ⟨?_, h.nodup, nofun⟩
    rw [hrt.pop _ _ _ (Links.cur_eq hlists) hc]
    exact Links.free (Links.tail hlists hc) hkeys.1
  | finalize p =>
    obtain ⟨ref, env', hmem, hreturns, rfl⟩ := hs
    obtain ⟨env'', hreturns', h'⟩ := h.finalize hrt hmem
    obtain rfl := hreturns.unique hreturns'
    exact h'

/-- Whatever may happen next does happen: no removal follows a null pointer or goes on forever. -/
theorem RefState.Inv.progress (hrt : rt.Lawful) (h : s.Inv) (he : e.Enabled s) :
    ∃ s', RefStep rt s e s' := by
  cases e with
  | objNew p ref => exact ⟨_, he, rfl⟩
  | convert p arrStruct => exact ⟨_, he, rfl⟩
  | converted =>
    obtain ⟨r, hr⟩ := Option.ne_none_iff_exists'.1 he
    exact ⟨_, he, r, hr, rfl⟩
  | finalize p =>
    obtain ⟨⟨_, ref⟩, hmem, rfl⟩ := List.mem_map.1 he
    obtain ⟨env', hreturns, -⟩ := h.finalize hrt hmem
    exact ⟨_, he, ref, env', hmem, hreturns, rfl⟩

omit [DecidableEq P] in
theorem RefState.Inv.start : (RefState.start : RefState P V).Inv where
  lists := .nil
  nodup := List.nodup_nil
  apart := nofun

/-- **The list of local references is exact**: a removal terminates and leaves the same list without
    the reference, and in every run the list is that of the live objects with a reference, below that
    of the running conversion, the last one first, and the run can go on. -/
theorem localRefs_exact (rt : Wamr P V) (hrt : rt.Lawful) :
    (∀ env l me, env.Lists l → me ∈ l.map Prod.fst → ∃ env', RemovesOnly rt env l me env') ∧
      ∀ h s, Run (RefStep rt) .start h s →
        Always (fun s => s.env.Lists s.expected) h s ∧ ∀ e, e.Enabled s → ∃ s', RefStep rt s e s' := by
  refine ⟨fun env l me h hme => remove_only hrt h hme, fun h s hr => ?_⟩
  have hinv : Always RefState.Inv h s :=
    hr.always RefState.Inv.start fun s e s' hI hs => hI.step hrt hs
  exact ⟨hinv.imp fun s hI => hI.lists, fun e he => hinv.last.progress hrt he⟩

/-- A runtime that pushes with a null value. -/
def plainWamr (null : V) : Wamr P V where
  push env p := ⟨some p, env.refs.store p ⟨env.cur, null⟩⟩
  pop env := match env.cur.bind env.refs.get? with
    | some c => { env with cur := c.prev }
    | none => env

theorem plainWamr_lawful (null : V) : (plainWamr null : Wamr P V).Lawful where
  push env p := ⟨null, rfl⟩
  pop env p c hcur hp := by
    dsimp only [plainWamr]
    rw [hcur, Option.bind_some, hp]

/-- Three references, one pushed after the other. -/
def threeRefs : ExecEnv ℕ ℕ :=
  pushLocalObjRef (plainWamr 0) (pushLocalObjRef (plainWamr 0)
    (pushLocalObjRef (plainWamr 0) ⟨none, .empty⟩ 1 10) 2 20) 3 30

theorem threeRefs_lists : threeRefs.Lists [(3, 30), (2, 20), (1, 10)] := by
  have hrt : (plainWamr 0 : Wamr ℕ ℕ).Lawful := plainWamr_lawful 0
  have h₀ : (⟨none, .empty⟩ : ExecEnv ℕ ℕ).Lists [] := .nil
  have h₁ := lists_push hrt h₀ (p := 1) List.not_mem_nil 10
  exact lists_push hrt (lists_push hrt h₁ (by decide) 20) (by decide) 30

/-- The one in the middle is removed. -/
theorem middle_removed : (plainWamr 0 : Wamr ℕ ℕ).Lawful ∧
    ∃ env', RemovesOnly (plainWamr 0) threeRefs [(3, 30), (2, 20), (1, 10)] 2 env' :=
  ⟨plainWamr_lawful 0,
    (localRefs_exact _ (plainWamr_lawful 0)).1 threeRefs _ 2 threeRefs_lists (by decide)⟩

/-! ## The objects of an instance -/

/-- What is done to the list. -/
inductive RefOp where
  | push (p : Holder) (ref : ℕ)
  | pop
  | remove (p : Holder)

/-- What an event among the objects of an instance does to it. -/
def ObjHeap.refOp (s : ObjHeap) : ObjEvent → Option RefOp
  | .make m => (s.make m).bind fun o => o.ref.map fun ref => .push (.obj s.nextNode) ref
  | .jsonbValueNewArray _ | .jsonbValueNewObject _ =>
    some (.push (.obj (s.nextNode + 1)) s.nextNode)
  | .convert => some (.push .stack s.nextNode)
  | .converted => some .pop
  | .collect p =>
    match s.nodes.get? p with
    | some (.host o) => if o.ref.isSome then some (.remove (.obj p)) else none
    | _ => none
  | _ => none

def RefOp.locals (locals : List (Holder × ℕ)) : Option RefOp → List (Holder × ℕ)
  | none => locals
  | some (.push p ref) => (p, ref) :: locals
  | some .pop => locals.tail
  | some (.remove p) => ObjHeap.removeLocalObjRef p locals

namespace ObjHeap

variable {s s' : ObjHeap}

theorem setSlot_locals {refSet i member : ℕ} {elems : Block} {w : JsonbValue}
    (h : s.setSlot refSet elems i member w = some s') : s'.locals = s.locals := by
  rw [setSlot] at h
  split at h
  · split_ifs at h
    cases h
    rfl
  · cases h

theorem step_locals {e : ObjEvent} (he : e.Enabled s) :
    (s.step e).locals = RefOp.locals s.locals (s.refOp e) := by
  cases e with
  | guestNew | guestSet | guestRoots | executeStatement | newStatic | convert => rfl
  | jsonbValueNewArray length => rfl
  | jsonbValueNewObject length => rfl
  | make m =>
    rw [step, refOp]
    cases s.make m with
    | none => rfl
    | some o =>
      rw [Option.bind_some]
      dsimp only [rstObjNew]
      cases o.ref <;> rfl
  | externrefOfObj =>
    rw [step, rstExternrefOfObj]
    split <;> rfl
  | jsonbValueArraySet array idx member =>
    rw [step]
    change _ = s.locals
    cases hset : s.jsonbValueArraySet array idx member with
    | none => rfl
    | some s' =>
      rw [jsonbValueArraySet] at hset
      split at hset
      · exact setSlot_locals hset
      · cases hset
  | jsonbValueObjectSet object idx key value =>
    rw [step]
    change _ = s.locals
    cases hset : s.jsonbValueObjectSet object idx key value with
    | none => rfl
    | some s' =>
      rw [jsonbValueObjectSet] at hset
      split at hset
      · obtain ⟨s₁, h₁, h₂⟩ := Option.bind_eq_some_iff.1 hset
        exact (setSlot_locals h₂).trans (setSlot_locals h₁)
      · cases hset
  | sbWrite refobj =>
    rw [step, sbEnlarge]
    change _ = s.locals
    repeat' split
    all_goals rfl
  | cursorClose cursor =>
    rw [step, cursorClose]
    change _ = s.locals
    repeat' split
    all_goals rfl
  | convertElems =>
    obtain ⟨p, hp⟩ := he
    rw [step, hp]
    dsimp only [convertElems]
    split <;> rfl
  | converted =>
    obtain ⟨p, hp⟩ := he
    rw [step, hp]
    rfl
  | collect p =>
    rw [step, collect, refOp]
    rcases s.nodes.get? p with _ | (_ | _ | _ | o)
    · rfl
    · rfl
    · rfl
    · rfl
    · dsimp only [objFinalizer]
      cases o.ref <;> rfl

end ObjHeap

/-- The operation, on the list as it lies in memory. -/
def RefOp.Does (rt : Wamr Holder ℕ) (env : ExecEnv Holder ℕ) :
    Option RefOp → ExecEnv Holder ℕ → Prop
  | none, env' => env' = env
  | some (.push p ref), env' => env' = pushLocalObjRef rt env p ref
  | some .pop, env' => env' = rt.pop env
  | some (.remove p), env' =>
    Returns (fun fuel => wasmRuntimeRemoveLocalObjRef rt fuel env p) env'

/-- An instance and its `exec_env` take a step. -/
def HeapStep (rt : Wamr Holder ℕ) (t : ObjHeap × ExecEnv Holder ℕ) (e : ObjEvent)
    (t' : ObjHeap × ExecEnv Holder ℕ) : Prop :=
  ObjStep t.1 e t'.1 ∧ RefOp.Does rt t.2 (t.1.refOp e) t'.2

theorem RefOp.does_lists {rt : Wamr Holder ℕ} (hrt : rt.Lawful) {env env' : ExecEnv Holder ℕ}
    {locals : List (Holder × ℕ)} (h : env.Lists locals) {op : Option RefOp}
    (hpush : ∀ p ref, op = some (.push p ref) → p ∉ locals.map Prod.fst)
    (hpop : op = some .pop → locals ≠ [])
    (hremove : ∀ p, op = some (.remove p) → p ∈ locals.map Prod.fst)
    (hdoes : RefOp.Does rt env op env') : env'.Lists (RefOp.locals locals op) := by
  cases op with
  | none =>
    obtain rfl := hdoes
    exact h
  | some op =>
  cases op with
  | push p ref =>
    obtain rfl := hdoes
    exact lists_push hrt h (hpush p ref rfl) ref
  | pop =>
    obtain rfl := hdoes
    obtain ⟨⟨p, ref⟩, rest, rfl⟩ := List.exists_cons_of_ne_nil (hpop rfl)
    obtain ⟨c, hc, -⟩ := Links.get? h List.mem_cons_self
    rw [hrt.pop _ _ _ (Links.cur_eq h) hc]
    exact Links.tail h hc
  | remove p =>
    obtain ⟨env'', honly⟩ := remove_only hrt h (hremove p rfl)
    obtain rfl := Returns.unique hdoes honly.returns
    exact honly.lists

namespace ObjHeap

variable {s : ObjHeap} {e : ObjEvent}

theorem Inv.obj_notMem (hI : s.Inv) {a : ℕ} (ha : s.nextNode ≤ a) :
    Holder.obj a ∉ s.locals.map Prod.fst := by
  rintro hmem
  obtain ⟨⟨_, t⟩, ht, rfl⟩ := List.mem_map.1 hmem
  obtain ⟨o, ho, -⟩ := (hI.locals.obj_iff a t).1 ht
  exact absurd (hI.fresh a (Memory.live_of_get? ho)) (not_lt.2 ha)

theorem Inv.stack_notMem (hI : s.Inv) (hidle : s.phase = .idle) :
    Holder.stack ∉ s.locals.map Prod.fst := by
  rintro hmem
  obtain ⟨⟨_, t⟩, ht, rfl⟩ := List.mem_map.1 hmem
  have hphase := hI.locals.stack t ht
  rw [hidle] at hphase
  cases hphase

/-- A reference that is pushed is new, -/
theorem Inv.push_new (hI : s.Inv) (he : e.Enabled s) {p : Holder} {ref : ℕ}
    (hop : s.refOp e = some (.push p ref)) : p ∉ s.locals.map Prod.fst := by
  cases e with
  | make m =>
    rw [refOp] at hop
    obtain ⟨o, -, ho⟩ := Option.bind_eq_some_iff.1 hop
    obtain ⟨t, -, ht⟩ := Option.map_eq_some_iff.1 ho
    cases ht
    exact hI.obj_notMem le_rfl
  | jsonbValueNewArray length =>
    cases hop
    exact hI.obj_notMem (Nat.le_succ _)
  | jsonbValueNewObject length =>
    cases hop
    exact hI.obj_notMem (Nat.le_succ _)
  | convert =>
    cases hop
    exact hI.stack_notMem he
  | collect q =>
    rw [refOp] at hop
    split at hop
    · split_ifs at hop
      cases hop
    · cases hop
  | _ => cases hop

/-- one that is popped is there, -/
theorem Inv.pop_top (hI : s.Inv) (he : e.Enabled s) (hop : s.refOp e = some .pop) :
    s.locals ≠ [] := by
  cases e with
  | converted =>
    obtain ⟨p, hp⟩ := he
    obtain ⟨rest, hrest⟩ := hI.locals.top p hp
    rw [hrest]
    exact List.cons_ne_nil _ _
  | make m =>
    rw [refOp] at hop
    obtain ⟨o, -, ho⟩ := Option.bind_eq_some_iff.1 hop
    obtain ⟨t, -, ht⟩ := Option.map_eq_some_iff.1 ho
    cases ht
  | collect q =>
    rw [refOp] at hop
    split at hop
    · split_ifs at hop
      cases hop
    · cases hop
  | _ => cases hop

/-- and so is one that is removed. -/
theorem Inv.remove_mem (hI : s.Inv) {p : Holder} (hop : s.refOp e = some (.remove p)) :
    p ∈ s.locals.map Prod.fst := by
  cases e with
  | collect q =>
    rw [refOp] at hop
    split at hop
    · next o ho =>
      split_ifs at hop with href
      cases hop
      obtain ⟨t, ht⟩ := Option.isSome_iff_exists.1 href
      exact List.mem_map_of_mem ((hI.locals.obj_iff q t).2 ⟨o, ho, ht⟩)
    · cases hop
  | make m =>
    rw [refOp] at hop
    obtain ⟨o, -, ho⟩ := Option.bind_eq_some_iff.1 hop
    obtain ⟨t, -, ht⟩ := Option.map_eq_some_iff.1 ho
    cases ht
  | _ => cases hop

end ObjHeap

/-- **The list of an `ObjHeap` lies in memory** in every run. -/
theorem heapStep_lists {rt : Wamr Holder ℕ} (hrt : rt.Lawful)
    {h : List ((ObjHeap × ExecEnv Holder ℕ) × ObjEvent)} {t : ObjHeap × ExecEnv Holder ℕ}
    (hr : Run (HeapStep rt) (.empty, ⟨none, .empty⟩) h t) :
    Always (fun t => t.2.Lists t.1.locals) h t := by
  have hinv : Always (fun t => t.1.Inv ∧ t.2.Lists t.1.locals) h t := by
    have hempty : (⟨none, .empty⟩ : ExecEnv Holder ℕ).Lists ObjHeap.empty.locals := .nil
    refine hr.always ⟨ObjHeap.Inv.empty, hempty⟩ ?_
    rintro ⟨s, env⟩ e ⟨_, env'⟩ ⟨hI, hlists⟩ ⟨⟨he, rfl⟩, hdoes⟩
    refine ⟨hI.step he, ?_⟩
    rw [ObjHeap.step_locals he]
    exact RefOp.does_lists hrt hlists (fun _ _ => hI.push_new he) (hI.pop_top he)
      (fun _ => hI.remove_mem) hdoes
  exact hinv.imp fun t ht => ht.2

end Rustica
