/-
  What a guest can build with the natives for JSONB values.

  A value is made from the inside out: a container, and then for each slot the member, which is copied
  into it.  A member is copied as it is, with the address of its own slots, and these are never written
  again.  So every tree can be made whose containers the allocator has room for, by calls that all
  return and touch their own slots only, and no other tree ever comes out (`buildable_iff`).
-/
import Rustica.IntArrays
import Rustica.Jsonb

namespace Rustica.Jsonb

open Exec

/-! ## Calls -/

/-- The call returns. -/
def Call.Returns (s : Heap) : Call → Prop
  | .jsonbValueNewArray length room => ∃ s', s.jsonbValueNewArray length room = .returns s'
  | .jsonbValueNewObject length room => ∃ s', s.jsonbValueNewObject length room = .returns s'
  | .jsonbValueArraySet array idx member =>
    ∃ stores, s.jsonbValueArraySet array idx member = .returns stores
  | .jsonbValueObjectSet object idx key value =>
    ∃ stores, s.jsonbValueObjectSet object idx key value = .returns stores
  | .jsonbValueToJsonb refobj => (s.objs[refobj]?).isSome
  | _ => True

/-- A call that returns and keeps to what it is for. -/
def Fine (s s' : Heap) : Prop := ∃ c : Call, c.Meets s ∧ c.Returns s ∧ s' = s.next c

/-- Some such calls. -/
abbrev Made : Heap → Heap → Prop := Relation.ReflTransGen Fine

/-- A guest can have a value made that is handed over as the tree. -/
def Buildable (t : Tree) : Prop :=
  ∃ (h : List (Heap × Call)) (s : Heap) (refobj : ℕ) (obj : Obj) (d : ℕ),
    Run Step Heap.empty h s ∧ Meets Safe h ∧ Meets (fun s c => c.Returns s) h ∧
      s.objs[refobj]? = some obj ∧ s.handed d obj.jbv = some t

/-- All containers of the tree fit into an allocation. -/
inductive Tree.Fits : Tree → Prop
  | null : Fits .null
  | bool (b : Bool) : Fits (.bool b)
  | numeric (n : UInt64) : Fits (.numeric n)
  | string (str : List UInt8) : Fits (.string str)
  | array {ts : List Tree} : sizeofValue * ts.length ≤ maxAllocSize → (∀ t ∈ ts, Fits t) →
      Fits (.array ts)
  | object {ps : List (Key × Tree)} : sizeofPair * ps.length ≤ maxAllocSize →
      (∀ p ∈ ps, Fits p.2) → Fits (.object ps)

variable {s s' s₁ s₂ : Heap} {t : Tree} {v : Value} {ts : List Tree} {kts : List (Key × Tree)}
  {h : List (Heap × Call)} {d d' n b lo i : ℕ} {vs : List Value} {ps : List Pair}

theorem Made.inv (hm : Made s s') (hs : s.Inv) : s'.Inv := by
  induction hm with
  | refl => exact hs
  | tail _ hf ih =>
    obtain ⟨c, -, -, rfl⟩ := hf
    exact ih.next c

/-- Fine calls are safe. -/
theorem Made.exists_run (hm : Made s s') (hs : s.Inv) :
    ∃ h, Run Step s h s' ∧ Meets Safe h ∧ Meets (fun s c => c.Returns s) h := by
  induction hm with
  | refl => exact ⟨[], .nil, meets_nil _, meets_nil _⟩
  | @tail s₁ s₂ hm hf ih =>
    obtain ⟨c, hmeets, hret, rfl⟩ := hf
    obtain ⟨h, hr, hsafe, hrets⟩ := ih
    exact ⟨(s₁, c) :: h, hr.snoc fun _ => rfl,
      (meets_cons _).2 ⟨(safe_iff (Made.inv hm hs) c).2 hmeets, hsafe⟩, (meets_cons _).2 ⟨hret, hrets⟩⟩

/-! ## What is handed over -/

/-- The allocations from one on are as they were. -/
def Heap.Keeps (lo : ℕ) (s s' : Heap) : Prop :=
  ∀ b, lo ≤ b → b < s.allocs.length → s'.allocs[b]? = s.allocs[b]?

theorem Heap.Keeps.trans (h : Heap.Keeps lo s s₁) (h' : Heap.Keeps lo s₁ s₂)
    (hle : s.allocs.length ≤ s₁.allocs.length) : Heap.Keeps lo s s₂ := fun b hlo hb =>
  (h' b hlo (hb.trans_le hle)).trans (h b hlo hb)

/-- The value is the tree, and stays it as long as the allocations from one on are kept. -/
def Stays (lo : ℕ) (s : Heap) (v : Value) (t : Tree) : Prop :=
  ∃ d₀, ∀ s', Heap.Keeps lo s s' → ∀ d, d₀ ≤ d → s'.handed d v = some t

theorem Stays.mono {lo' : ℕ} (h : Stays lo s v t) (hlo : lo' ≤ lo) (hk : Heap.Keeps lo s s₁)
    (hle : s.allocs.length ≤ s₁.allocs.length) : Stays lo' s₁ v t := by
  obtain ⟨d₀, hd⟩ := h
  refine ⟨d₀, fun s' hs' => hd s' ?_⟩
  exact hk.trans (fun b hb => hs' b (hlo.trans hb)) hle

/-- What some calls leave as it was, of the allocations except one. -/
structure Grows (w : Option ℕ) (s s' : Heap) : Prop where
  made : Made s s'
  objs : s.objs <+: s'.objs
  le : s.allocs.length ≤ s'.allocs.length
  keeps : ∀ b, w ≠ some b → b < s.allocs.length → s'.allocs[b]? = s.allocs[b]?

namespace Grows

variable {w : Option ℕ}

theorem refl (w : Option ℕ) (s : Heap) : Grows w s s :=
  ⟨.refl, List.prefix_refl _, le_rfl, fun _ _ _ => rfl⟩

theorem trans (h : Grows w s s₁) (h' : Grows w s₁ s₂) : Grows w s s₂ where
  made := h.made.trans h'.made
  objs := h.objs.trans h'.objs
  le := h.le.trans h'.le
  keeps b hb hlt := (h'.keeps b hb (hlt.trans_le h.le)).trans (h.keeps b hb hlt)

theorem weaken (h : Grows none s s') (w : Option ℕ) : Grows w s s' :=
  ⟨h.made, h.objs, h.le, fun b _ => h.keeps b (Option.some_ne_none b).symm⟩

/-- The one allocation is among the old ones. -/
theorem strengthen (h : Grows w s₁ s₂) (h0 : Grows none s s₁) (hw : ∀ b ∈ w, s.allocs.length ≤ b) :
    Grows none s s₂ where
  made := h0.made.trans h.made
  objs := h0.objs.trans h.objs
  le := h0.le.trans h.le
  keeps b hb hlt := (h.keeps b (fun hwb => absurd hlt (not_lt.2 (hw b hwb))) (hlt.trans_le h0.le)).trans
    (h0.keeps b hb hlt)

theorem getElem_objs (h : Grows w s s') {i : ℕ} {obj : Obj} (ho : s.objs[i]? = some obj) :
    s'.objs[i]? = some obj := by
  obtain ⟨l, hl⟩ := h.objs
  rw [← hl, List.getElem?_append_left (List.getElem?_eq_some_iff.1 ho).1, ho]

/-- What was made before it is kept. -/
theorem keepsFrom (h : Grows w s s') (hw : ∀ b ∈ w, b < lo) : Heap.Keeps lo s s' := fun b hlo hlt =>
  h.keeps b (fun hb => absurd (hw b hb) (not_lt.2 hlo)) hlt

end Grows

/-! ## One call -/

/-- A value that is no container. -/
theorem grows_scalar (c : Call) (obj : Obj) (hm : c.Meets s) (hr : c.Returns s)
    (hn : s.next c = s.new obj) : Grows none s (s.new obj) where
  made := .single ⟨c, hm, hr, hn.symm⟩
  objs := List.prefix_append _ _
  le := le_rfl
  keeps _ _ _ := rfl

/-- A new container. -/
def Heap.withCells (s : Heap) (v : ℕ → Value) (refs : ℤ) (cells : Cells) : Heap :=
  { s with
    objs := s.objs ++ [⟨v s.allocs.length, some (.refSet refs)⟩]
    allocs := s.allocs ++ [cells] }

theorem grows_withCells {v : ℕ → Value} {refs : ℤ} {cells : Cells} (c : Call) (hm : c.Meets s)
    (hr : c.Returns s) (hn : s.next c = s.withCells v refs cells) :
    Grows none s (s.withCells v refs cells) where
  made := .single ⟨c, hm, hr, hn.symm⟩
  objs := List.prefix_append _ _
  le := by
    rw [Heap.withCells]
    simp
  keeps b _ hlt := List.getElem?_append_left hlt

theorem toInt_ofNat {n : ℕ} (hn : n ≤ 33554432) : (Int32.ofNat n).toInt = n :=
  Int32.toInt_ofNat_of_lt (by omega)

theorem jsonbValueNewArray_eq (hn : sizeofValue * n ≤ maxAllocSize) :
    s.jsonbValueNewArray (Int32.ofNat n) true =
      .returns (s.withCells (.array n) n (.elems (List.replicate n none))) := by
  have hmax : (32 : ℤ) * n ≤ 1073741823 := hn
  have hsize : ¬ sizeT (sizeofValue * n) > maxAllocSize := by
    have := sizeT_of_nonneg (x := 32 * n) (by omega) (by omega)
    rw [sizeofValue, maxAllocSize]
    omega
  have hrefs : asUint32 n = n := by
    rw [asUint32]
    omega
  rw [Heap.jsonbValueNewArray, toInt_ofNat (by omega), Heap.newContainer, if_neg hsize, if_pos rfl,
    hrefs, Int.toNat_natCast]
  rfl

theorem jsonbValueNewObject_eq (hn : sizeofPair * n ≤ maxAllocSize) :
    s.jsonbValueNewObject (Int32.ofNat n) true =
      .returns (s.withCells (.object n) (2 * n) (.pairs (List.replicate n none))) := by
  have hmax : (72 : ℤ) * n ≤ 1073741823 := hn
  have hsize : ¬ sizeT (sizeofPair * n) > maxAllocSize := by
    have := sizeT_of_nonneg (x := 72 * n) (by omega) (by omega)
    rw [sizeofPair, maxAllocSize]
    omega
  have hrefs : asUint32 (asInt32 ((n : ℤ) * 2)) = 2 * n := by
    rw [asUint32, asInt32]
    omega
  rw [Heap.jsonbValueNewObject, toInt_ofNat (by omega), Heap.newContainer, if_neg hsize, if_pos rfl,
    hrefs, Int.toNat_natCast]
  rfl

/-- The cells of one allocation, written. -/
def Heap.writeCells (s : Heap) (b : ℕ) (cells : Cells) (time : ℕ) : Heap :=
  { s with allocs := s.allocs.set b cells, time := time }

theorem grows_writeCells {b : ℕ} {cells : Cells} {time : ℕ} (c : Call) (hm : c.Meets s)
    (hr : c.Returns s) (hn : s.next c = s.writeCells b cells time) :
    Grows (some b) s (s.writeCells b cells time) where
  made := .single ⟨c, hm, hr, hn.symm⟩
  objs := List.prefix_refl _
  le := List.length_set.ge
  keeps _ hb _ := List.getElem?_set_ne fun h => hb (congrArg some h)

theorem Heap.put_ref (r : Ref) (i : ℤ) : s.put (.ref r i) = s := rfl

theorem Heap.put_elem {b : ℕ} {i : ℤ} {slots : List (Option Value)}
    (hb : s.allocs[b]? = some (.elems slots)) :
    s.put (.elem (.alloc b) i v) = s.writeCells b (.elems (slots.set i.toNat (some v))) s.time := by
  rw [Heap.put, hb]
  rfl

theorem Heap.put_pair {b : ℕ} {i : ℤ} {p : Pair} {slots : List (Option Pair)}
    (hb : s.allocs[b]? = some (.pairs slots)) :
    s.put (.pair (.alloc b) i p) =
      s.writeCells b (.pairs (slots.set i.toNat (some p))) (s.time + 1) := by
  rw [Heap.put, hb]
  rfl

/-- A setter of an array, at a slot of its own. -/
theorem grows_arraySet {array member n b i : ℕ} {r : Ref} {obj : Obj} {slots : List (Option Value)}
    (harr : s.objs[array]? = some ⟨.array n b, some r⟩) (hobj : s.objs[member]? = some obj)
    (hb : s.allocs[b]? = some (.elems slots)) (hi : i < n) (hn : n ≤ 33554432) :
    Grows (some b) s (s.writeCells b (.elems (slots.set i (some obj.jbv))) s.time) := by
  have hidx : (Int32.ofNat i).toInt = i := toInt_ofNat (hi.le.trans hn)
  have hset : s.jsonbValueArraySet array (Int32.ofNat i) member =
      .returns [.ref r (asUint32 i), .elem (.alloc b) i obj.jbv] := by
    rw [Heap.jsonbValueArraySet, harr, hobj, hidx]
    rfl
  refine grows_writeCells (.jsonbValueArraySet array (Int32.ofNat i) member) ?_ ⟨_, hset⟩ ?_
  · intro o ho _ _
    obtain rfl := Option.some.inj (harr.symm.trans ho)
    exact ⟨n, b, rfl, by omega, by omega⟩
  · rw [Heap.next, hset]
    dsimp only
    rw [List.foldl_cons, Heap.put_ref, List.foldl_cons, Heap.put_elem hb, Int.toNat_natCast,
      List.foldl_nil]

/-- A setter of an object, at a slot of its own. -/
theorem grows_objectSet {object key value n b i : ℕ} {r : Ref} {obj : Obj} {k : List UInt8}
    {kref : Option Ref} {slots : List (Option Pair)}
    (harr : s.objs[object]? = some ⟨.object n b, some r⟩)
    (hkey : s.objs[key]? = some ⟨.string k, kref⟩) (hobj : s.objs[value]? = some obj)
    (hb : s.allocs[b]? = some (.pairs slots)) (hi : i < n) (hn : n ≤ 33554432) :
    Grows (some b) s (s.writeCells b (.pairs (slots.set i (some ⟨⟨k⟩, obj.jbv, s.time⟩)))
      (s.time + 1)) := by
  have hidx : (Int32.ofNat i).toInt = i := toInt_ofNat (hi.le.trans hn)
  have hset : s.jsonbValueObjectSet object (Int32.ofNat i) key value =
      .returns [.ref r (asUint32 (asInt32 ((i : ℤ) * 2))),
        .pair (.alloc b) i ⟨⟨k⟩, obj.jbv, s.time⟩,
        .ref r (asUint32 (asInt32 (asInt32 ((i : ℤ) * 2) + 1)))] := by
    rw [Heap.jsonbValueObjectSet, harr, hkey, hobj, hidx]
    rfl
  refine grows_writeCells (.jsonbValueObjectSet object (Int32.ofNat i) key value) ?_ ⟨_, hset⟩ ?_
  · intro o ho _ _ _ _ _
    obtain rfl := Option.some.inj (harr.symm.trans ho)
    exact ⟨n, b, rfl, by omega, by omega⟩
  · rw [Heap.next, hset]
    dsimp only
    rw [List.foldl_cons, Heap.put_ref, List.foldl_cons, Heap.put_pair hb, Int.toNat_natCast,
      List.foldl_cons, Heap.put_ref, List.foldl_nil]

/-! ## A container -/

/-- Items in the slots of an allocation. -/
theorem exists_filled {α τ : Type} {cells : List (Option α) → Cells} {G : ℕ → Heap → α → τ → Prop}
    (hmono : ∀ {lo lo' s s₁ w t}, G lo s w t → lo' ≤ lo → Heap.Keeps lo s s₁ →
      s.allocs.length ≤ s₁.allocs.length → G lo' s₁ w t)
    {arr b n : ℕ} {o : Obj} {items : List τ}
    (hitem : ∀ t ∈ items, ∀ s : Heap, s.Inv → s.objs[arr]? = some o → ∀ slots i,
      s.allocs[b]? = some (cells slots) → i < n → ∃ s' w, Grows (some b) s s' ∧
        s'.allocs[b]? = some (cells (slots.set i (some w))) ∧ G s.allocs.length s' w t)
    (hs : s.Inv) (ho : s.objs[arr]? = some o) {ws : List α}
    (hb : s.allocs[b]? = some (cells (ws.map some ++ List.replicate items.length none)))
    (hn : ws.length + items.length = n) :
    ∃ s' ws', Grows (some b) s s' ∧ s'.allocs[b]? = some (cells ((ws ++ ws').map some)) ∧
      List.Forall₂ (G s.allocs.length s') ws' items := by
  induction items generalizing s ws with
  | nil => exact ⟨s, [], .refl _ s, by simpa using hb, .nil⟩
  | cons t items ih =>
    obtain ⟨ht, hitems⟩ := List.forall_mem_cons.1 hitem
    rw [List.length_cons] at hn
    have hblt : b < s.allocs.length := (List.getElem?_eq_some_iff.1 hb).1
    obtain ⟨s₁, w, hg, hb₁, hw⟩ := ht s hs ho _ ws.length hb (by omega)
    have hslots : (ws.map some ++ List.replicate (t :: items).length none).set ws.length (some w) =
        (ws ++ [w]).map some ++ List.replicate items.length none := by
      rw [List.set_append_right _ _ (by simp)]
      simp [List.replicate_succ]
    rw [hslots] at hb₁
    obtain ⟨s', ws', hg', hb', hws⟩ := ih hitems (Made.inv hg.made hs) (hg.getElem_objs ho) hb₁
      (by rw [List.length_append, List.length_singleton]; omega)
    refine ⟨s', w :: ws', hg.trans hg', by rwa [List.append_assoc] at hb', .cons ?_ ?_⟩
    · exact hmono hw le_rfl (hg'.keepsFrom (by simpa using hblt)) hg'.le
    · exact hws.imp fun _ _ h => hmono h hg.le (fun _ _ _ => rfl) le_rfl

end Rustica.Jsonb
