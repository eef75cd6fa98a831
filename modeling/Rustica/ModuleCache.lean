/-
  The modules that a worker has loaded.

  The application and the modules it imports are loaded once, and stay registered under their names
  until a notification says that a module has changed: then the one of that name is unloaded, and the
  next request loads it anew.  But a module holds pointers to those it was linked against.  All that
  `rst_lookup_module` can return is whole exactly as long as no notification names a module that
  another one was linked against (`cache_sound_iff`).
-/
import Rustica.Lib.Exec
import Rustica.Lib.Memory

namespace Rustica

open Exec

/-! ## Loading and unloading -/

/-- `RST_MODULE_NAME_MAXLEN`. -/
def rstModuleNameMaxlen : ℕ := 127

/-- A module in memory; `links` are the modules its imports were linked against, latest first. -/
structure AOTModule where
  name : String
  links : List ℕ

/-- The modules of a worker.  Those whose load is under way are listed innermost first: the last one
    is loaded by `rst_prepare_module`, the others because the next one imports them. -/
structure ModuleCache where
  modules : Memory ℕ AOTModule
  /-- names and modules, latest first -/
  registered : List (String × ℕ)
  loading : List AOTModule
  /-- the pointer of the next module -/
  next : ℕ

/-- `rst_prepare_module`, as far as it does not depend on the code of the module; `row` says whether
    `rustica.modules` has one of this name. -/
def rstPrepareModule (name : String) (row : Bool) : Except String Unit :=
  if name.utf8ByteSize > rstModuleNameMaxlen then
    .error s!"module name too long ({name.utf8ByteSize} bytes): maximum {rstModuleNameMaxlen} bytes"
  else if row then .ok ()
  else .error s!"module \"{name}\" doesn't exist"

/-- `wasm_module_reader_callback`. -/
def wasmModuleReaderCallback (name : String) (row : Bool) : Bool :=
  match rstPrepareModule name row with
  | .ok _ => true
  | .error _ => false

namespace ModuleCache

def empty : ModuleCache := ⟨.empty, [], [], 0⟩

/-- `rst_lookup_module`. -/
def rstLookupModule (c : ModuleCache) (name : String) : Option ℕ :=
  (c.registered.find? fun p => p.1 = name).map Prod.snd

/-- `rst_free_module`. -/
def rstFreeModule (c : ModuleCache) (m : ℕ) : ModuleCache :=
  { c with
    registered := c.registered.filter fun p => p.2 ≠ m
    modules := c.modules.free m }

/-- `invalidate_cached_module`. -/
def invalidateCachedModule (c : ModuleCache) (name : String) : ModuleCache :=
  match c.rstLookupModule name with
  | some m => c.rstFreeModule m
  | none => c

/-- `wasm_runtime_is_loading_module`: the load of a module because of an import is under way. -/
def isLoading (c : ModuleCache) (name : String) : Bool :=
  c.loading.dropLast.any fun m => m.name = name

/-- A link to the module `d` in the innermost load. -/
def link (d : ℕ) : List AOTModule → List AOTModule
  | [] => []
  | m :: rest => { m with links := d :: m.links } :: rest

/-- The innermost load resolves an import.  An import from a module that is being loaded itself is
    left open; if the reader finds no module, all loads under way fail. -/
def resolve (c : ModuleCache) (name : String) (row : Bool) : ModuleCache :=
  if c.isLoading name then c
  else
    match c.rstLookupModule name with
    | some d => { c with loading := link d c.loading }
    | none =>
      if wasmModuleReaderCallback name row then { c with loading := ⟨name, []⟩ :: c.loading }
      else { c with loading := [] }

/-- The load of `m` is complete: `wasm_module_completer_callback` or `load_aot_module`, and the
    registration. -/
def complete (c : ModuleCache) (m : AOTModule) (rest : List AOTModule) : ModuleCache :=
  { modules := c.modules.store c.next m
    registered := (m.name, c.next) :: c.registered
    loading := link c.next rest
    next := c.next + 1 }

end ModuleCache

/-! ## Runs -/

/-- What happens to the cache.  What a module imports is arbitrary, and so is where its load fails. -/
inductive CacheEvent where
  /-- a request, which takes or loads the module `main` -/
  | request (row : Bool)
  | imports (name : String) (row : Bool)
  | loaded
  | fails
  /-- a notification on `rustica_module_cache_invalidation` -/
  | notify (payload : String)

/-- One event.  A worker does one thing at a time: no request or notification is handled while a
    module is being loaded. -/
def ModuleCache.step (c : ModuleCache) : CacheEvent → Option ModuleCache
  | .request row =>
    if c.loading ≠ [] then none
    else
      match c.rstLookupModule "main" with
      | some _ => some c
      | none =>
        match rstPrepareModule "main" row with
        | .ok _ => some { c with loading := [⟨"main", []⟩] }
        | .error _ => some c
  | .imports name row => if c.loading = [] then none else some (c.resolve name row)
  | .loaded =>
    match c.loading with
    | [] => none
    | m :: rest => some (c.complete m rest)
  | .fails => if c.loading = [] then none else some { c with loading := [] }
  | .notify payload => if c.loading ≠ [] then none else some (c.invalidateCachedModule payload)

def CacheStep (c : ModuleCache) (e : CacheEvent) (c' : ModuleCache) : Prop := c.step e = some c'

/-- **Every module that can be looked up** is loaded, and so is every module it was linked
    against. -/
def ModuleCache.Sound (c : ModuleCache) : Prop :=
  ∀ p ∈ c.registered, ∃ m, c.modules.get? p.2 = some m ∧ ∀ d ∈ m.links, c.modules.Live d

/-- The event is not a notification of a module that another one was linked against. -/
def CacheEvent.Unlinked (c : ModuleCache) : CacheEvent → Prop
  | .notify payload => ∀ m, c.rstLookupModule payload = some m →
      ∀ a ≠ m, ¬ c.modules.Points AOTModule.links a m
  | _ => True

/-- What holds whether links are kept or not. -/
structure ModuleCache.Inv (c : ModuleCache) : Prop where
  fresh : ∀ i, c.modules.Live i → i < c.next
  live_iff : ∀ i, c.modules.Live i ↔ ∃ n, (n, i) ∈ c.registered
  loading : ∀ m ∈ c.loading, ∀ d ∈ m.links, c.modules.Live d

variable {c c' : ModuleCache} {e : CacheEvent} {name : String} {i : ℕ}

theorem ModuleCache.mem_of_lookup (h : c.rstLookupModule name = some i) :
    ∃ n, (n, i) ∈ c.registered := by
  obtain ⟨p, hp, rfl⟩ := Option.map_eq_some_iff.1 h
  exact ⟨p.1, List.mem_of_find?_eq_some hp⟩

theorem ModuleCache.Inv.empty : ModuleCache.empty.Inv where
  fresh i hi := absurd hi Memory.not_live_empty
  live_iff i := by simp [ModuleCache.empty]
  loading m hm := by simp [ModuleCache.empty] at hm

/-- With all registered modules in memory, a sound cache is a closed memory. -/
theorem ModuleCache.Inv.sound_iff (hI : c.Inv) :
    c.Sound ↔ c.modules.Closed AOTModule.links := by
  constructor
  · intro h i m hm
    obtain ⟨n, hn⟩ := (hI.live_iff i).1 (Memory.live_of_get? hm)
    obtain ⟨m', hm', hlinks⟩ := h _ hn
    rw [hm] at hm'
    cases hm'
    exact hlinks
  · rintro h ⟨n, i⟩ hn
    obtain ⟨m, hm⟩ := Memory.live_iff.1 ((hI.live_iff i).2 ⟨n, hn⟩)
    exact ⟨m, hm, h i m hm⟩

theorem ModuleCache.live_link {d : ℕ} {ms : List AOTModule} {live : ℕ → Prop}
    (h : ∀ m ∈ ms, ∀ i ∈ m.links, live i) (hd : live d) :
    ∀ m ∈ link d ms, ∀ i ∈ m.links, live i := by
  cases ms with
  | nil => exact h
  | cons m rest =>
    intro m' hm'
    rcases List.mem_cons.1 hm' with rfl | hm'
    · intro i hi
      rcases List.mem_cons.1 hi with rfl | hi
      · exact hd
      · exact h m (List.mem_cons_self ..) i hi
    · exact h m' (List.mem_cons_of_mem _ hm')

/-- Resolving an import makes and frees no module, and links only to modules in memory. -/
theorem ModuleCache.Inv.resolve {row : Bool} (hI : c.Inv) :
    c.resolve name row = { c with loading := (c.resolve name row).loading } ∧
      ∀ m ∈ (c.resolve name row).loading, ∀ d ∈ m.links, c.modules.Live d := by
  rw [ModuleCache.resolve]
  by_cases hload : c.isLoading name = true
  · rw [if_pos hload]
    exact ⟨rfl, hI.loading⟩
  · rw [if_neg hload]
    cases hd : c.rstLookupModule name with
    | some d => exact ⟨rfl, live_link hI.loading ((hI.live_iff d).2 (mem_of_lookup hd))⟩
    | none =>
      by_cases hread : wasmModuleReaderCallback name row = true
      · rw [if_pos hread]
        refine ⟨rfl, fun m hm => ?_⟩
        rcases List.mem_cons.1 hm with rfl | hm
        · rintro d ⟨⟩
        · exact hI.loading m hm
      · rw [if_neg hread]
        exact ⟨rfl, by rintro m ⟨⟩⟩

/-- **A step** loads on, makes one module, or frees one. -/
theorem ModuleCache.Inv.step_cases (hI : c.Inv) (h : c.step e = some c') :
    (c' = { c with loading := c'.loading } ∧
      ∀ m ∈ c'.loading, ∀ d ∈ m.links, c.modules.Live d) ∨
    (∃ m rest, e = .loaded ∧ c.loading = m :: rest ∧ c' = c.complete m rest) ∨
    ∃ n m, e = .notify n ∧ c.loading = [] ∧ c.rstLookupModule n = some m ∧
      c' = c.rstFreeModule m := by
  cases e with
  | request row =>
    left
    rw [ModuleCache.step] at h
    split_ifs at h
    split at h
    · cases h
      exact ⟨rfl, hI.loading⟩
    · split at h
      · cases h
        exact ⟨rfl, by simp⟩
      · cases h
        exact ⟨rfl, hI.loading⟩
  | imports name row =>
    left
    rw [ModuleCache.step] at h
    split_ifs at h
    cases h
    exact hI.resolve
  | loaded =>
    rw [ModuleCache.step] at h
    split at h
    · cases h
    · next m rest hl =>
      cases h
      exact .inr (.inl ⟨m, rest, rfl, hl, rfl⟩)
  | fails =>
    left
    rw [ModuleCache.step] at h
    split_ifs at h
    cases h
    exact ⟨rfl, by simp⟩
  | notify n =>
    rw [ModuleCache.step] at h
    split_ifs at h with hl
    rw [not_not] at hl
    cases h
    rw [invalidateCachedModule]
    cases hm : c.rstLookupModule n with
    | none => exact .inl ⟨rfl, hI.loading⟩
    | some m => exact .inr (.inr ⟨n, m, rfl, hl, hm, rfl⟩)

theorem ModuleCache.Inv.complete {m : AOTModule} {rest : List AOTModule} (hI : c.Inv)
    (hl : c.loading = m :: rest) : (c.complete m rest).Inv where
  fresh i hi := by
    rcases Memory.live_store.1 hi with rfl | hi
    · exact Nat.lt_succ_self _
    · exact Nat.lt_succ_of_lt (hI.fresh i hi)
  live_iff i := by
    simp only [ModuleCache.complete, Memory.live_store, hI.live_iff, List.mem_cons, Prod.mk.injEq]
    constructor
    · rintro (rfl | ⟨n, hn⟩)
      · exact ⟨m.name, .inl ⟨rfl, rfl⟩⟩
      · exact ⟨n, .inr hn⟩
    · rintro ⟨n, ⟨-, rfl⟩ | hn⟩
      · exact .inl rfl
      · exact .inr ⟨n, hn⟩
  loading := by
    have hrest : ∀ m' ∈ rest, ∀ d ∈ m'.links, (c.complete m rest).modules.Live d :=
      fun m' hm' d hd => Memory.live_store.2
        (.inr (hI.loading m' (hl ▸ List.mem_cons_of_mem _ hm') d hd))
    exact live_link hrest (Memory.live_store.2 (.inl rfl))

theorem ModuleCache.Inv.free {m : ℕ} (hI : c.Inv) (hl : c.loading = []) :
    (c.rstFreeModule m).Inv where
  fresh i hi := hI.fresh i (Memory.live_free.1 hi).2
  live_iff i := by
    simp only [rstFreeModule, Memory.live_free, hI.live_iff, List.mem_filter, decide_eq_true_eq]
    constructor
    · rintro ⟨hne, n, hn⟩
      exact ⟨n, hn, hne⟩
    · rintro ⟨n, hn, hne⟩
      exact ⟨hne, n, hn⟩
  loading m' hm' := by
    rw [rstFreeModule, hl] at hm'
    cases hm'

/-- A step keeps the invariant, notification or not. -/
theorem ModuleCache.Inv.step (hI : c.Inv) (h : c.step e = some c') : c'.Inv := by
  rcases hI.step_cases h with ⟨heq, hlive⟩ | ⟨m, rest, -, hl, rfl⟩ | ⟨n, m, -, hl, -, rfl⟩
  · rw [heq]
    exact ⟨hI.fresh, hI.live_iff, hlive⟩
  · exact hI.complete hl
  · exact hI.free hl

/-- **A step keeps the cache sound** unless it is a notification of a linked module. -/
theorem ModuleCache.Sound.step (hI : c.Inv) (hS : c.Sound) (hU : e.Unlinked c)
    (h : c.step e = some c') : c'.Sound := by
  rw [hI.sound_iff] at hS
  rw [(hI.step h).sound_iff]
  rcases hI.step_cases h with ⟨heq, -⟩ | ⟨m, rest, -, hl, rfl⟩ | ⟨n, m, rfl, -, hm, rfl⟩
  · rw [heq]
    exact hS
  · exact hS.store fun d hd => .inr (hI.loading m (hl ▸ List.mem_cons_self ..) d hd)
  · exact hS.free_iff.2 (hU m hm)

/-- **A notification of a linked module** leaves a pointer to what it has freed. -/
theorem ModuleCache.not_sound_step (hI : c.Inv) (hS : c.Sound) (hU : ¬ e.Unlinked c)
    (h : c.step e = some c') : ¬ c'.Sound := by
  cases e with
  | notify n =>
    rw [hI.sound_iff] at hS
    rw [(hI.step h).sound_iff]
    simp only [CacheEvent.Unlinked, not_forall, not_not] at hU
    obtain ⟨m, hm, a, ha, hpoints⟩ := hU
    rw [ModuleCache.step] at h
    split_ifs at h
    cases h
    rw [invalidateCachedModule, hm]
    exact fun hC => hS.free_iff.1 hC a ha hpoints
  | request row => exact absurd trivial hU
  | imports name row => exact absurd trivial hU
  | loaded => exact absurd trivial hU
  | fails => exact absurd trivial hU

/-- What a lookup returns can be instantiated: following the links of a sound cache from there, one
    meets only modules that are loaded. -/
theorem ModuleCache.Sound.live_of_lookup (hI : c.Inv) (hS : c.Sound) {d : ℕ}
    (h : c.rstLookupModule name = some i) (hd : c.modules.Follows AOTModule.links i d) :
    c.modules.Live d :=
  (hI.sound_iff.1 hS).live_of_follows ((hI.live_iff i).2 (mem_of_lookup h)) hd

variable {h : List (ModuleCache × CacheEvent)}

/-- **Modules and links.**  The modules of a worker, and those they were linked against, stay loaded
    exactly as long as no notification names a module that another one was linked against. -/
theorem cache_sound_iff (hr : Run CacheStep ModuleCache.empty h c) :
    Always ModuleCache.Sound h c ↔ Meets (fun c e => e.Unlinked c) h := by
  refine hr.always_iff_meets ModuleCache.Inv.empty ?_ ?_ ?_
  · rintro p ⟨⟩
  · exact fun c e c' hI hS hU hs => ⟨hI.step hs, hS.step hI hU hs⟩
  · exact fun c e c' hI hS hU hs => c.not_sound_step hI hS hU hs

/-- A request that loads the application, which imports a library. -/
def libraryLoaded : List CacheEvent :=
  [.request true, .imports "lib" true, .loaded, .loaded]

/-- **The application changes**: it may be unloaded, since no module points to it. -/
theorem application_unloaded : ∃ h c, Run CacheStep ModuleCache.empty h c ∧
    Always ModuleCache.Sound h c ∧ c.registered = [("lib", 0)] := by
  have hr := Run.nil.execs (f := ModuleCache.step) (s := ModuleCache.empty)
    (l := libraryLoaded ++ [.notify "main"]) (fun _ _ _ h => h) rfl
  refine ⟨_, _, hr, (cache_sound_iff hr).2 ?_, rfl⟩
  refine (meets_cons _).2 ⟨?_, (meets_cons _).2 ⟨trivial, (meets_cons _).2 ⟨trivial,
    (meets_cons _).2 ⟨trivial, (meets_cons _).2 ⟨trivial, meets_nil _⟩⟩⟩⟩⟩
  rintro m hm a ha ⟨v, hv, hmem⟩
  obtain rfl : 1 = m := Option.some.inj hm
  -- the memory holds the library, which has no links, and the application
  change ((Memory.empty.store 0 ⟨"lib", []⟩).store 1 ⟨"main", [0]⟩).get? a = some v at hv
  rw [Memory.get?_store_of_ne ha] at hv
  by_cases h0 : a = 0
  · subst h0
    rw [Memory.get?_store_self] at hv
    cases hv
    cases hmem
  · rw [Memory.get?_store_of_ne h0] at hv
    cases hv

/-- **The library changes**: it is unloaded, and the application that the next request takes from the
    cache still points to it. -/
theorem library_unloaded : ∃ h c, Run CacheStep ModuleCache.empty h c ∧
    c.rstLookupModule "main" = some 1 ∧ c.modules.get? 1 = some ⟨"main", [0]⟩ ∧
    ¬ c.modules.Live 0 := by
  have hr := Run.nil.execs (f := ModuleCache.step) (s := ModuleCache.empty)
    (l := libraryLoaded ++ [.notify "lib"]) (fun _ _ _ h => h) rfl
  exact ⟨_, _, hr, rfl, rfl, by decide⟩

end Rustica
