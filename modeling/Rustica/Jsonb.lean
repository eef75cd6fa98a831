/-
  JSONB values that a guest builds, slot by slot.

  A container is made with a fixed number of slots; then `jsonb_value_array_set` and
  `jsonb_value_object_set` copy values into them, and `jsonb_value_to_jsonb` hands the whole to
  PostgreSQL.  The setters look neither at the kind of the container nor at the index, only at
  whether the value keeps a reference, which a string does too; and nothing looks at whether all
  slots were set (`jsonb_safe_iff`).  The pairs of an object are handed over in the order of their
  slots, which is the order of JSONB only if the guest made it so (`handed_canonical_iff`).

  What becomes of the memory behind the values is the matter of `Rustica.Borrow`; here it is never
  freed.
-/
import Rustica.Lib.Exec
import Rustica.Lib.LastWins
import Rustica.Sandbox

namespace Rustica.Jsonb

open Exec LastWins

/-! ## Keys -/

/-- A key, as its bytes. -/
structure Key where
  bytes : List UInt8
deriving DecidableEq

/-- `lengthCompareJsonbString`: first the length, then the bytes. -/
def Key.order (k : Key) : ℕ ×ₗ List ℕ := toLex (k.bytes.length, k.bytes.map UInt8.toNat)

theorem Key.order_injective : Function.Injective Key.order := fun k k' h => by
  have hb : k.bytes.map UInt8.toNat = k'.bytes.map UInt8.toNat :=
    (Prod.ext_iff.1 (toLex.injective h)).2
  have hi : Function.Injective UInt8.toNat := fun a b hab => UInt8.toNat_inj.1 hab
  exact congrArg Key.mk (hi.list_map hb)

instance : LinearOrder Key := LinearOrder.lift' Key.order Key.order_injective

/-! ## Values -/

/-- `JsonbValue`.  The elements and pairs of a container are in an allocation, given by its number;
    a numeric is given by the `float8` that it was made of. -/
inductive Value where
  | null
  | bool (boolean : Bool)
  | numeric (numeric : UInt64)
  | string (val : List UInt8)
  | array (nElems elems : ℕ)
  | object (nPairs pairs : ℕ)
deriving DecidableEq

/-- `JsonbPair`, and when it was set. -/
structure Pair where
  key : Key
  value : Value
  time : ℕ
deriving DecidableEq

/-- An allocation for elements or for pairs, and what was set in it. -/
inductive Cells where
  | elems (slots : List (Option Value))
  | pairs (slots : List (Option Pair))
deriving DecidableEq

/-- What the reference of an `Obj` refers to: the text of a string, or the array of the members. -/
inductive Ref where
  | text
  | refSet (length : ℤ)
deriving DecidableEq

/-- An `Obj` with a JSONB value; `ref` is there with `OBJ_REFERENCING`. -/
structure Obj where
  jbv : Value
  ref : Option Ref
deriving DecidableEq

/-- The values that the guest has made. -/
structure Heap where
  objs : List Obj
  allocs : List Cells
  time : ℕ
deriving DecidableEq

namespace Heap

def empty : Heap := ⟨[], [], 0⟩

/-- What was set as the element `i`. -/
def elem (s : Heap) (elems i : ℕ) : Option Value :=
  match s.allocs[elems]? with
  | some (.elems slots) => (slots[i]?).join
  | _ => none

/-- What was set as the pair `i`. -/
def pair (s : Heap) (pairs i : ℕ) : Option Pair :=
  match s.allocs[pairs]? with
  | some (.pairs slots) => (slots[i]?).join
  | _ => none

end Heap

/-! ## The natives -/

/-- `sizeof(JsonbValue)`. -/
def sizeofValue : ℤ := 32

/-- `sizeof(JsonbPair)`. -/
def sizeofPair : ℤ := 72

/-- The second word of the union: the bytes of a string, the elements or pairs of a container. -/
inductive Mem where
  | bytes
  | alloc (n : ℕ)
  | other
deriving DecidableEq

def Value.mem : Value → Mem
  | .string _ => .bytes
  | .array _ elems => .alloc elems
  | .object _ pairs => .alloc pairs
  | _ => .other

/-- A store of a setter: in the array of references, as an element or as a pair. -/
inductive Store where
  | ref (r : Ref) (i : ℤ)
  | elem (m : Mem) (i : ℤ) (v : Value)
  | pair (m : Mem) (i : ℤ) (p : Pair)

namespace Heap

variable (s : Heap)

def new (obj : Obj) : Heap := { s with objs := s.objs ++ [obj] }

/-- `jsonb_value_new_string`, of a text in place or of a copy, which ends at a NUL. -/
def jsonbValueNewString (str : List UInt8) (copied : Bool) : Heap :=
  if copied then s.new ⟨.string (str.takeWhile (· ≠ 0)), none⟩ else s.new ⟨.string str, some .text⟩

/-- What is common to `jsonb_value_new_array` and `jsonb_value_new_object`; there may be no room for
    the array of references. -/
def newContainer (size : ℤ) (refs : ℤ) (room : Bool) (cells : Cells) (v : ℕ → Value) :
    Native Heap :=
  if sizeT size > maxAllocSize then .raises "invalid memory alloc request size"
  else .returns { s with
    objs := s.objs ++ [⟨v s.allocs.length, if room then some (.refSet (asUint32 refs)) else none⟩]
    allocs := s.allocs ++ [cells] }

def jsonbValueNewArray (length : Int32) (room : Bool) : Native Heap :=
  s.newContainer (sizeofValue * length.toInt) length.toInt room
    (.elems (List.replicate length.toInt.toNat none)) (.array length.toInt.toNat)

def jsonbValueNewObject (length : Int32) (room : Bool) : Native Heap :=
  s.newContainer (sizeofPair * length.toInt) (asInt32 (length.toInt * 2)) room
    (.pairs (List.replicate length.toInt.toNat none)) (.object length.toInt.toNat)

def jsonbValueArraySet (array : ℕ) (idx : Int32) (member : ℕ) : Native (List Store) :=
  match s.objs[array]?, s.objs[member]? with
  | some obj, some memberObj =>
    match obj.ref with
    | none => .raises "jsonb_value_array_set: array is not referencing"
    | some r => .returns
      [.ref r (asUint32 idx.toInt), .elem obj.jbv.mem idx.toInt memberObj.jbv]
  | _, _ => .raises "not an externref object"

def jsonbValueObjectSet (object : ℕ) (idx : Int32) (key value : ℕ) : Native (List Store) :=
  match s.objs[object]?, s.objs[key]?, s.objs[value]? with
  | some obj, some keyObj, some valueObj =>
    match obj.ref with
    | none => .raises "jsonb_value_object_set: object is not referencing"
    | some r =>
      match keyObj.jbv with
      | .string k => .returns
        [.ref r (asUint32 (asInt32 (idx.toInt * 2))),
          .pair obj.jbv.mem idx.toInt ⟨⟨k⟩, valueObj.jbv, s.time⟩,
          .ref r (asUint32 (asInt32 (asInt32 (idx.toInt * 2) + 1)))]
      | _ => .raises "jsonb_value_object_set: key is not a string"
  | _, _, _ => .raises "not an externref object"

/-- A store that hits its slot. -/
def put (s : Heap) : Store → Heap
  | .ref _ _ => s
  | .elem (.alloc n) i v =>
    match s.allocs[n]? with
    | some (.elems slots) =>
      { s with allocs := s.allocs.set n (.elems (slots.set i.toNat (some v))) }
    | _ => s
  | .pair (.alloc n) i p =>
    match s.allocs[n]? with
    | some (.pairs slots) =>
      { s with allocs := s.allocs.set n (.pairs (slots.set i.toNat (some p))), time := s.time + 1 }
    | _ => s
  | .elem _ _ _ | .pair _ _ _ => s

/-- A slot of a container. -/
inductive Slot where
  | elem (elems i : ℕ)
  | pair (pairs i : ℕ)

/-- The slots that `JsonbValueToJsonb` reads, down to a depth. -/
def reads : ℕ → Value → List Slot
  | 0, _ => []
  | d + 1, .array nElems elems => (List.range nElems).flatMap fun i =>
    .elem elems i :: ((s.elem elems i).map (reads d)).getD []
  | d + 1, .object nPairs pairs => (List.range nPairs).flatMap fun i =>
    .pair pairs i :: ((s.pair pairs i).map fun p => reads d p.value).getD []
  | _ + 1, _ => []

end Heap

/-- A call of a guest.  References are given by number. -/
inductive Call where
  | jsonbValueNewNull
  | jsonbValueNewBool (val : Int32)
  | jsonbValueNewNumeric (val : UInt64)
  | jsonbValueNewString (str : List UInt8) (copied : Bool)
  | jsonbValueNewArray (length : Int32) (room : Bool)
  | jsonbValueArraySet (array : ℕ) (idx : Int32) (member : ℕ)
  | jsonbValueNewObject (length : Int32) (room : Bool)
  | jsonbValueObjectSet (object : ℕ) (idx : Int32) (key value : ℕ)
  | jsonbValueToJsonb (refobj : ℕ)

/-- The state after a call that returned or raised; the stores of a setter in turn. -/
def Heap.next (s : Heap) : Call → Heap
  | .jsonbValueNewNull => s.new ⟨.null, none⟩
  | .jsonbValueNewBool val => s.new ⟨.bool (val ≠ 0), none⟩
  | .jsonbValueNewNumeric val => s.new ⟨.numeric val, none⟩
  | .jsonbValueNewString str copied => s.jsonbValueNewString str copied
  | .jsonbValueNewArray length room =>
    match s.jsonbValueNewArray length room with
    | .returns s' => s'
    | _ => s
  | .jsonbValueNewObject length room =>
    match s.jsonbValueNewObject length room with
    | .returns s' => s'
    | _ => s
  | .jsonbValueArraySet array idx member =>
    match s.jsonbValueArraySet array idx member with
    | .returns stores => stores.foldl Heap.put s
    | _ => s
  | .jsonbValueObjectSet object idx key value =>
    match s.jsonbValueObjectSet object idx key value with
    | .returns stores => stores.foldl Heap.put s
    | _ => s
  | .jsonbValueToJsonb _ => s

/-! ## Slots in range -/

/-- The store hits a slot of a container of its kind. -/
def Store.Hits (s : Heap) : Store → Prop
  | .ref (.refSet length) i => 0 ≤ i ∧ i < length
  | .elem (.alloc n) i _ => ∃ slots, s.allocs[n]? = some (.elems slots) ∧ 0 ≤ i ∧ i < slots.length
  | .pair (.alloc n) i _ => ∃ slots, s.allocs[n]? = some (.pairs slots) ∧ 0 ≤ i ∧ i < slots.length
  | .ref .text _ | .elem _ _ _ | .pair _ _ _ => False

/-- The slot was set. -/
def Heap.IsSet (s : Heap) : Heap.Slot → Prop
  | .elem elems i => (s.elem elems i).isSome
  | .pair pairs i => (s.pair pairs i).isSome

/-- **Safe**: a setter that does not raise hits slots only, and only slots that were set are read,
    however deep PostgreSQL goes. -/
def Safe (s : Heap) : Call → Prop
  | .jsonbValueArraySet array idx member =>
    ∀ stores, s.jsonbValueArraySet array idx member = .returns stores → ∀ st ∈ stores, st.Hits s
  | .jsonbValueObjectSet object idx key value =>
    ∀ stores, s.jsonbValueObjectSet object idx key value = .returns stores →
      ∀ st ∈ stores, st.Hits s
  | .jsonbValueToJsonb refobj => ∀ obj ∈ s.objs[refobj]?, ∀ d, ∀ slot ∈ s.reads d obj.jbv,
      s.IsSet slot
  | _ => True

/-- The calls of a guest as steps.  After a call that is not safe, anything may be. -/
def Step (s : Heap) (c : Call) (s' : Heap) : Prop := Safe s c → s' = s.next c

/-- A slot of the value, or of a container in it. -/
inductive Heap.Within (s : Heap) : Value → Heap.Slot → Prop
  | elem {n b i} : i < n → Within s (.array n b) (.elem b i)
  | pair {n b i} : i < n → Within s (.object n b) (.pair b i)
  | inElem {n b i v slot} : i < n → s.elem b i = some v → Within s v slot →
      Within s (.array n b) slot
  | inPair {n b i p slot} : i < n → s.pair b i = some p → Within s p.value slot →
      Within s (.object n b) slot

/-- What the value keeps a reference for is a container of the right kind, and the index is one of
    its own; what is handed over is filled. -/
def Call.Meets (s : Heap) : Call → Prop
  | .jsonbValueArraySet array idx member => ∀ obj ∈ s.objs[array]?, (s.objs[member]?).isSome →
      obj.ref.isSome → ∃ n b, obj.jbv = .array n b ∧ 0 ≤ idx.toInt ∧ idx.toInt < n
  | .jsonbValueObjectSet object idx key value => ∀ obj ∈ s.objs[object]?,
      ∀ keyObj ∈ s.objs[key]?, (s.objs[value]?).isSome → obj.ref.isSome →
      (∃ k, keyObj.jbv = .string k) →
        ∃ n b, obj.jbv = .object n b ∧ 0 ≤ idx.toInt ∧ idx.toInt < n
  | .jsonbValueToJsonb refobj => ∀ obj ∈ s.objs[refobj]?, ∀ slot, s.Within obj.jbv slot →
      s.IsSet slot
  | _ => True

variable {s s₀ s' : Heap} {v : Value} {slot : Heap.Slot} {obj : Obj} {c : Call}

/-- **What is read** at some depth is what is in the value. -/
theorem exists_mem_reads_iff : (∃ d, slot ∈ s.reads d v) ↔ s.Within v slot := by
  constructor
  · rintro ⟨d, h⟩
    induction d generalizing v with
    | zero => exact absurd h List.not_mem_nil
    | succ d ih =>
      cases v with
      | array n b =>
        simp only [Heap.reads, List.mem_flatMap, List.mem_range, List.mem_cons] at h
        obtain ⟨i, hi, rfl | h⟩ := h
        · exact .elem hi
        · cases hv : s.elem b i with
          | none => rw [hv] at h; exact absurd h List.not_mem_nil
          | some v => rw [hv] at h; exact .inElem hi hv (ih h)
      | object n b =>
        simp only [Heap.reads, List.mem_flatMap, List.mem_range, List.mem_cons] at h
        obtain ⟨i, hi, rfl | h⟩ := h
        · exact .pair hi
        · cases hp : s.pair b i with
          | none => rw [hp] at h; exact absurd h List.not_mem_nil
          | some p => rw [hp] at h; exact .inPair hi hp (ih h)
      | _ => exact absurd h List.not_mem_nil
  · intro h
    induction h with
    | elem hi =>
      refine ⟨1, List.mem_flatMap.2 ⟨_, List.mem_range.2 hi, List.mem_cons_self⟩⟩
    | pair hi =>
      refine ⟨1, List.mem_flatMap.2 ⟨_, List.mem_range.2 hi, List.mem_cons_self⟩⟩
    | inElem hi hv _ ih =>
      obtain ⟨d, hd⟩ := ih
      refine ⟨d + 1, List.mem_flatMap.2 ⟨_, List.mem_range.2 hi, List.mem_cons_of_mem _ ?_⟩⟩
      rw [hv]; exact hd
    | inPair hi hp _ ih =>
      obtain ⟨d, hd⟩ := ih
      refine ⟨d + 1, List.mem_flatMap.2 ⟨_, List.mem_range.2 hi, List.mem_cons_of_mem _ ?_⟩⟩
      rw [hp]; exact hd

/-! ### What references are kept for -/

/-- A container has its slots, and the array of references has as many as it needs; no other value
    keeps a reference but a string, for its text. -/
def Obj.Fits (s : Heap) (obj : Obj) : Prop :=
  match obj.jbv with
  | .array n b => (∃ slots, s.allocs[b]? = some (.elems slots) ∧ slots.length = n) ∧
      n ≤ 33554432 ∧ ∀ r ∈ obj.ref, r = .refSet n
  | .object n b => (∃ slots, s.allocs[b]? = some (.pairs slots) ∧ slots.length = n) ∧
      n ≤ 33554432 ∧ ∀ r ∈ obj.ref, r = .refSet (2 * n)
  | .string _ => ∀ r ∈ obj.ref, r = .text
  | _ => obj.ref = none

def Heap.Inv (s : Heap) : Prop := ∀ obj ∈ s.objs, obj.Fits s

/-- A container keeps its slots when allocations are added or written in place. -/
theorem Obj.Fits.mono (h : obj.Fits s)
    (he : ∀ (b : ℕ) slots, s.allocs[b]? = some (.elems slots) →
      ∃ slots', s'.allocs[b]? = some (.elems slots') ∧ slots'.length = slots.length)
    (hp : ∀ (b : ℕ) slots, s.allocs[b]? = some (.pairs slots) →
      ∃ slots', s'.allocs[b]? = some (.pairs slots') ∧ slots'.length = slots.length) :
    obj.Fits s' := by
  obtain ⟨jbv, ref⟩ := obj
  cases jbv with
  | array n b =>
    obtain ⟨⟨slots, hs, hn⟩, hrest⟩ := h
    obtain ⟨slots', hs', hn'⟩ := he b slots hs
    exact ⟨⟨slots', hs', hn'.trans hn⟩, hrest⟩
  | object n b =>
    obtain ⟨⟨slots, hs, hn⟩, hrest⟩ := h
    obtain ⟨slots', hs', hn'⟩ := hp b slots hs
    exact ⟨⟨slots', hs', hn'.trans hn⟩, hrest⟩
  | _ => exact h

theorem Heap.Inv.new (hs : s.Inv) (h : obj.Fits s) : (s.new obj).Inv := by
  intro o ho
  have hmono : o.Fits s → o.Fits (s.new obj) := fun h =>
    h.mono (fun b slots hb => ⟨slots, hb, rfl⟩) fun b slots hb => ⟨slots, hb, rfl⟩
  rcases List.mem_append.1 ho with ho | ho
  · exact hmono (hs o ho)
  · obtain rfl := List.mem_singleton.1 ho
    exact hmono h

theorem Heap.Inv.put (hs : s.Inv) (st : Store) : (s.put st).Inv ∧ (s.put st).objs = s.objs := by
  have hset : ∀ (n : ℕ) (cells cells' : Cells), s.allocs[n]? = some cells →
      (∀ slots, cells = .elems slots → ∃ slots', cells' = .elems slots' ∧
        slots'.length = slots.length) →
      (∀ slots, cells = .pairs slots → ∃ slots', cells' = .pairs slots' ∧
        slots'.length = slots.length) →
      ∀ time, Heap.Inv { s with allocs := s.allocs.set n cells', time := time } := by
    intro n cells cells' hn he hp time o ho
    have hlt := (List.getElem?_eq_some_iff.1 hn).1
    refine (hs o ho).mono (fun b slots hb => ?_) fun b slots hb => ?_
    · by_cases hbn : n = b
      · subst hbn
        obtain ⟨slots', h1, h2⟩ := he slots (Option.some.inj (hn.symm.trans hb))
        exact ⟨slots', by simp only [List.getElem?_set_self hlt, h1], h2⟩
      · exact ⟨slots, by simp only [List.getElem?_set_ne hbn, hb], rfl⟩
    · by_cases hbn : n = b
      · subst hbn
        obtain ⟨slots', h1, h2⟩ := hp slots (Option.some.inj (hn.symm.trans hb))
        exact ⟨slots', by simp only [List.getElem?_set_self hlt, h1], h2⟩
      · exact ⟨slots, by simp only [List.getElem?_set_ne hbn, hb], rfl⟩
  rw [Heap.put.eq_def]
  split
  · exact ⟨hs, rfl⟩
  · split
    · rename_i slots hn
      refine ⟨hset _ _ _ hn ?_ (fun slots' h => by cases h) _, rfl⟩
      rintro slots' ⟨⟩
      exact ⟨_, rfl, List.length_set⟩
    · exact ⟨hs, rfl⟩
  · split
    · rename_i slots hn
      refine ⟨hset _ _ _ hn (fun slots' h => by cases h) ?_ _, rfl⟩
      rintro slots' ⟨⟩
      exact ⟨_, rfl, List.length_set⟩
    · exact ⟨hs, rfl⟩
  · exact ⟨hs, rfl⟩
  · exact ⟨hs, rfl⟩

/-- A new container is what its `Obj` says. -/
theorem Heap.Inv.newContainer (hs : s.Inv) {size refs : ℤ} {room : Bool} {cells : Cells}
    {f : ℕ → Value}
    (hfits : sizeT size ≤ maxAllocSize → ∀ s' : Heap, s'.allocs[s.allocs.length]? = some cells →
      Obj.Fits s' ⟨f s.allocs.length, if room then some (.refSet (asUint32 refs)) else none⟩)
    (h : s.newContainer size refs room cells f = .returns s') : s'.Inv := by
  rw [Heap.newContainer] at h
  by_cases hsize : sizeT size > maxAllocSize
  · rw [if_pos hsize] at h; cases h
  rw [if_neg hsize] at h
  cases h
  intro o ho
  rcases List.mem_append.1 ho with ho | ho
  · have hlt : ∀ {b : ℕ} {c : Cells}, s.allocs[b]? = some c → b < s.allocs.length := fun hb =>
      (List.getElem?_eq_some_iff.1 hb).1
    refine (hs o ho).mono (fun b slots hb => ⟨slots, ?_, rfl⟩) fun b slots hb => ⟨slots, ?_, rfl⟩
    · show (s.allocs ++ [cells])[b]? = _
      rw [List.getElem?_append_left (hlt hb), hb]
    · show (s.allocs ++ [cells])[b]? = _
      rw [List.getElem?_append_left (hlt hb), hb]
  · obtain rfl := List.mem_singleton.1 ho
    refine hfits (not_lt.1 hsize) _ ?_
    exact List.getElem?_concat_length

theorem Heap.Inv.foldl_put (hs : s.Inv) (stores : List Store) : (stores.foldl Heap.put s).Inv := by
  induction stores generalizing s with
  | nil => exact hs
  | cons st stores ih => exact ih (hs.put st).1

/-- A size that `palloc` takes is not negative. -/
theorem size_bounds {m : ℤ} (hlo : -1099511627776 ≤ m) (hhi : m < 1099511627776)
    (h : sizeT m ≤ 1073741823) : 0 ≤ m ∧ m ≤ 1073741823 := by
  rw [sizeT] at h
  omega

/-- A length that `palloc` takes is not negative, and small. -/
theorem length_bounds {size n : ℤ} (hsize : size = 32 ∨ size = 72) (hlo : -2147483648 ≤ n)
    (hhi : n < 2147483648) (h : sizeT (size * n) ≤ maxAllocSize) : 0 ≤ n ∧ n ≤ 33554432 := by
  rcases hsize with rfl | rfl
  · have := size_bounds (by omega) (by omega) h
    omega
  · have := size_bounds (by omega) (by omega) h
    omega

theorem Heap.Inv.next (hs : s.Inv) (c : Call) : (s.next c).Inv := by
  cases c with
  | jsonbValueNewNull | jsonbValueNewBool | jsonbValueNewNumeric => exact hs.new rfl
  | jsonbValueNewString str copied =>
    rw [Heap.next, Heap.jsonbValueNewString]
    split_ifs
    · exact hs.new fun r hr => by cases hr
    · exact hs.new fun r hr => (Option.some.inj hr).symm
  | jsonbValueNewArray length room =>
    rw [Heap.next]
    cases h : s.jsonbValueNewArray length room with
    | returns s' =>
      refine hs.newContainer (fun hsize s' hb => ?_) h
      obtain ⟨h0, hmax⟩ := length_bounds (.inl rfl) (int32_range length).1 (int32_range length).2
        hsize
      refine ⟨⟨_, hb, List.length_replicate⟩, by omega, fun r hr => ?_⟩
      simp only at hr
      split_ifs at hr
      · rw [← Option.some.inj hr, asUint32, Int.toNat_of_nonneg h0]
        congr 1; omega
      · cases hr
    | _ => exact hs
  | jsonbValueNewObject length room =>
    rw [Heap.next]
    cases h : s.jsonbValueNewObject length room with
    | returns s' =>
      refine hs.newContainer (fun hsize s' hb => ?_) h
      obtain ⟨h0, hmax⟩ := length_bounds (.inr rfl) (int32_range length).1 (int32_range length).2
        hsize
      refine ⟨⟨_, hb, List.length_replicate⟩, by omega, fun r hr => ?_⟩
      simp only at hr
      split_ifs at hr
      · rw [← Option.some.inj hr, asUint32, asInt32, Int.toNat_of_nonneg h0]
        congr 1; omega
      · cases hr
    | _ => exact hs
  | jsonbValueArraySet array idx member =>
    rw [Heap.next]
    split
    · exact hs.foldl_put _
    · exact hs
  | jsonbValueObjectSet object idx key value =>
    rw [Heap.next]
    split
    · exact hs.foldl_put _
    · exact hs
  | jsonbValueToJsonb refobj => exact hs

/-! ## When calls are safe -/

/-- **An element is stored** in a slot of an array exactly when there is such a slot. -/
theorem arraySet_safe_iff (hs : s.Inv) {array member : ℕ} {idx : Int32} :
    Safe s (.jsonbValueArraySet array idx member) ↔
      Call.Meets s (.jsonbValueArraySet array idx member) := by
  have hidx := int32_range idx
  simp only [Safe, Call.Meets, Heap.jsonbValueArraySet]
  cases hobj : s.objs[array]? with
  | none => simp
  | some obj =>
    cases hm : s.objs[member]? with
    | none => simp
    | some memberObj =>
      have hfits := hs obj (List.mem_of_getElem? hobj)
      obtain ⟨jbv, ref⟩ := obj
      cases ref with
      | none => simp
      | some r =>
        simp only [Native.returns.injEq, forall_eq', List.forall_mem_cons, Option.mem_some_iff,
          Option.isSome_some, forall_true_left]
        cases jbv with
        | array n b =>
          obtain ⟨⟨slots, hslots, hlen⟩, hmax, href⟩ := hfits
          obtain rfl := href r rfl
          simp only [Value.mem, Store.Hits, hslots, Option.some.injEq, Cells.elems.injEq,
            exists_eq_left', hlen, asUint32, List.not_mem_nil, false_imp_iff, implies_true, and_true,
            Value.array.injEq]
          constructor
          · rintro ⟨-, h1, h2⟩
            exact ⟨n, b, ⟨rfl, rfl⟩, h1, h2⟩
          · rintro ⟨n, b, ⟨rfl, rfl⟩, h1, h2⟩
            omega
        | object n b =>
          obtain ⟨⟨slots, hslots, -⟩, -⟩ := hfits
          refine iff_of_false ?_ ?_
          · rintro ⟨-, ⟨slots', hslots', -⟩, -⟩
            cases hslots.symm.trans hslots'
          · rintro ⟨n, b, h, -⟩
            cases h
        | string k =>
          refine iff_of_false ?_ ?_
          · rintro ⟨-, h, -⟩
            exact h
          · rintro ⟨n, b, h, -⟩
            cases h
        | _ => cases hfits

/-- **A pair is stored** in a slot of an object exactly when there is such a slot. -/
theorem objectSet_safe_iff (hs : s.Inv) {object key value : ℕ} {idx : Int32} :
    Safe s (.jsonbValueObjectSet object idx key value) ↔
      Call.Meets s (.jsonbValueObjectSet object idx key value) := by
  have hidx := int32_range idx
  simp only [Safe, Call.Meets, Heap.jsonbValueObjectSet]
  cases hobj : s.objs[object]? with
  | none => simp
  | some obj =>
    cases hk : s.objs[key]? with
    | none => simp
    | some keyObj =>
      cases hv : s.objs[value]? with
      | none => simp
      | some valueObj =>
        have hfits := hs obj (List.mem_of_getElem? hobj)
        obtain ⟨jbv, ref⟩ := obj
        obtain ⟨kjbv, kref⟩ := keyObj
        cases ref with
        | none => simp
        | some r =>
          cases kjbv with
          | string k =>
            simp only [Native.returns.injEq, forall_eq', List.forall_mem_cons, Option.mem_some_iff,
              Option.isSome_some, forall_true_left]
            have hkey : ∃ k', Value.string k = .string k' := ⟨k, rfl⟩
            cases jbv with
            | object n b =>
              obtain ⟨⟨slots, hslots, hlen⟩, hmax, href⟩ := hfits
              obtain rfl := href r rfl
              simp only [Value.mem, Store.Hits, hslots, Option.some.injEq, Cells.pairs.injEq,
                exists_eq_left', hlen, asUint32, asInt32, List.not_mem_nil, false_imp_iff,
                implies_true, and_true, Value.object.injEq, hkey, forall_true_left]
              constructor
              · rintro ⟨-, ⟨h1, h2⟩, -⟩
                exact ⟨n, b, ⟨rfl, rfl⟩, h1, h2⟩
              · rintro ⟨n, b, ⟨rfl, rfl⟩, h1, h2⟩
                omega
            | array n b =>
              obtain ⟨⟨slots, hslots, -⟩, -⟩ := hfits
              refine iff_of_false ?_ fun h => ?_
              · rintro ⟨-, ⟨slots', hslots', -⟩, -⟩
                cases hslots.symm.trans hslots'
              · obtain ⟨n, b, h, -⟩ := h hkey
                cases h
            | string k' =>
              refine iff_of_false ?_ fun h => ?_
              · rintro ⟨-, h, -⟩
                exact h
              · obtain ⟨n, b, h, -⟩ := h hkey
                cases h
            | _ => cases hfits
          | _ => simp

theorem toJsonb_safe_iff {refobj : ℕ} : Safe s (.jsonbValueToJsonb refobj) ↔
    Call.Meets s (.jsonbValueToJsonb refobj) := by
  constructor
  · intro h obj hobj slot hslot
    obtain ⟨d, hd⟩ := exists_mem_reads_iff.2 hslot
    exact h obj hobj d slot hd
  · intro h obj hobj d slot hd
    exact h obj hobj slot (exists_mem_reads_iff.1 ⟨d, hd⟩)

theorem safe_iff (hs : s.Inv) (c : Call) : Safe s c ↔ c.Meets s := by
  cases c with
  | jsonbValueArraySet array idx member => exact arraySet_safe_iff hs
  | jsonbValueObjectSet object idx key value => exact objectSet_safe_iff hs
  | jsonbValueToJsonb refobj => exact toJsonb_safe_iff
  | _ => exact Iff.rfl

variable {h : List (Heap × Call)}

/-- **Safety of the builder**: every setter of a run raises or hits a slot of a container of its kind,
    and only slots that were set are read, exactly as long as the guest keeps to it itself. -/
theorem jsonb_safe_iff (hr : Run Step Heap.empty h s) :
    Exec.Meets Safe h ↔ Exec.Meets (fun s c => c.Meets s) h := by
  refine hr.meets_iff_meets (I := Heap.Inv) (fun obj hobj => absurd hobj List.not_mem_nil) ?_
    fun s c hs => safe_iff hs c
  intro s c s' hs hsafe hstep
  rw [hstep hsafe]
  exact hs.next c

/-- A string and an element for it, at index 0. -/
def stringCalls : List Call :=
  [.jsonbValueNewString [0x61] false, .jsonbValueNewNull, .jsonbValueArraySet 0 0 1]

/-- The history of some calls. -/
def history : Heap → List Call → List (Heap × Call) → List (Heap × Call)
  | _, [], h => h
  | s, c :: cs, h => history (s.next c) cs ((s, c) :: h)

theorem run_history (hr : Run Step s₀ h s) (cs : List Call) :
    Run Step s₀ (history s cs h) (cs.foldl Heap.next s) := by
  induction cs generalizing s h with
  | nil => exact hr
  | cons c cs ih => exact ih (hr.snoc fun _ => rfl)

theorem inv_history (hs : s.Inv) (hh : ∀ p ∈ h, p.1.Inv) (cs : List Call) :
    ∀ p ∈ history s cs h, p.1.Inv := by
  induction cs generalizing s h with
  | nil => exact hh
  | cons c cs ih => exact ih (hs.next c) (List.forall_mem_cons.2 ⟨hs, hh⟩)

/-- Calls that keep to what they are for are safe. -/
theorem history_safe {cs : List Call}
    (hc : Exec.Meets (fun s c => c.Meets s) (history Heap.empty cs [])) :
    Exec.Meets Safe (history Heap.empty cs []) := by
  have hinv := inv_history (s := Heap.empty) (h := []) (by simp [Heap.Inv, Heap.empty])
    (by simp) cs
  exact fun p hp => (safe_iff (hinv p hp) p.2).2 (hc p hp)

/-- An element is stored behind a string. -/
theorem stringCalls_unsafe : ∃ h s, Run Step Heap.empty h s ∧ ¬ Exec.Meets Safe h := by
  refine ⟨history Heap.empty stringCalls [], _, run_history .nil stringCalls, fun hsafe => ?_⟩
  have hset := hsafe _ List.mem_cons_self
  have hhits := hset _ rfl (.ref .text 0) List.mem_cons_self
  exact hhits

/-- An array of one element, which is set before it is handed over. -/
def arrayCalls : List Call :=
  [.jsonbValueNewArray 1 true, .jsonbValueNewNull, .jsonbValueArraySet 0 0 1]

theorem arrayCalls_safe : ∃ h s, Run Step Heap.empty h s ∧ h.length = 3 ∧ Exec.Meets Safe h := by
  refine ⟨history Heap.empty arrayCalls [], _, run_history .nil arrayCalls, rfl, ?_⟩
  refine (jsonb_safe_iff (run_history .nil arrayCalls)).2 fun p hp => ?_
  simp only [arrayCalls, history, List.mem_cons, List.not_mem_nil, or_false] at hp
  rcases hp with rfl | rfl | rfl
  · rintro obj hobj - -
    obtain rfl := Option.some.inj hobj
    exact ⟨1, 0, rfl, by decide, by decide⟩
  · trivial
  · trivial

/-! ## What PostgreSQL is handed -/

/-- A tree of values. -/
inductive Tree where
  | null
  | bool (b : Bool)
  | numeric (n : UInt64)
  | string (s : List UInt8)
  | array (elems : List Tree)
  | object (pairs : List (Key × Tree))

namespace Heap

def elems (s : Heap) (n b : ℕ) : Option (List Value) := (List.range n).mapM (s.elem b)

def pairs (s : Heap) (n b : ℕ) : Option (List Pair) := (List.range n).mapM (s.pair b)

/-- The tree that `JsonbValueToJsonb` goes through, if all slots are set and it is not too deep: the
    pairs of an object come in the order of their slots. -/
def handed (s : Heap) : ℕ → Value → Option Tree
  | 0, _ => none
  | _ + 1, .null => some .null
  | _ + 1, .bool b => some (.bool b)
  | _ + 1, .numeric n => some (.numeric n)
  | _ + 1, .string str => some (.string str)
  | d + 1, .array n b => ((s.elems n b).bind fun vs => vs.mapM (handed s d)).map .array
  | d + 1, .object n b => ((s.pairs n b).bind fun ps =>
      ps.mapM fun p => (handed s d p.value).map (p.key, ·)).map .object

/-- Pairs by the time they were set. -/
def byTime (ps : List Pair) : List Pair := ps.insertionSort fun p q => p.time ≤ q.time

/-- **The tree that the value stands for**: an object is the map that its pairs make, in the order
    in which they were set. -/
def meant (s : Heap) : ℕ → Value → Option Tree
  | 0, _ => none
  | _ + 1, .null => some .null
  | _ + 1, .bool b => some (.bool b)
  | _ + 1, .numeric n => some (.numeric n)
  | _ + 1, .string str => some (.string str)
  | d + 1, .array n b => ((s.elems n b).bind fun vs => vs.mapM (meant s d)).map .array
  | d + 1, .object n b => ((s.pairs n b).bind fun ps =>
      (byTime ps).mapM fun p => (meant s d p.value).map (p.key, ·)).map fun es => .object (build es)

/-- A value in the value. -/
inductive Sub (s : Heap) : Value → Value → Prop
  | refl (u : Value) : Sub s u u
  | elem {n b : ℕ} {us : List Value} {u w : Value} : s.elems n b = some us → u ∈ us → Sub s u w →
      Sub s (.array n b) w
  | pair {n b : ℕ} {ps : List Pair} {p : Pair} {w : Value} : s.pairs n b = some ps → p ∈ ps →
      Sub s p.value w → Sub s (.object n b) w

/-- The keys of every object in the value increase with the slots. -/
def Ordered (s : Heap) (v : Value) : Prop :=
  ∀ n b ps, s.Sub v (.object n b) → s.pairs n b = some ps → ps.Pairwise fun p q => p.key < q.key

end Heap

variable {α β : Type} {f g : α → Option β} {l l' : List α} {r : List β} {d n b : ℕ} {t : Tree}
  {vs : List Value} {ps : List Pair}

/-- Every element has an image, and these are the images. -/
theorem mapM_eq_some_iff : l.mapM f = some r ↔ (∀ a ∈ l, (f a).isSome) ∧ l.filterMap f = r := by
  induction l generalizing r with
  | nil => simp
  | cons a l ih =>
    rw [List.mapM_cons, List.forall_mem_cons, List.filterMap_cons]
    cases ha : f a with
    | none => simp
    | some b =>
      cases hl : l.mapM f with
      | none =>
        refine iff_of_false (by simp) fun h => ?_
        have := (ih (r := l.filterMap f)).2 ⟨h.1.2, rfl⟩
        rw [hl] at this
        cases this
      | some r' =>
        obtain ⟨h1, h2⟩ := ih.1 hl
        simp [h2]
        exact fun _ => h1

theorem ordered_array (hvs : s.elems n b = some vs) :
    s.Ordered (.array n b) ↔ ∀ v ∈ vs, s.Ordered v := by
  constructor
  · intro h v hv m c ps hsub hps
    exact h m c ps (.elem hvs hv hsub) hps
  · rintro h m c ps (_ | ⟨hvs', hv, hsub⟩) hps
    obtain rfl := Option.some.inj (hvs.symm.trans hvs')
    exact h _ hv m c ps hsub hps

theorem ordered_object (hps : s.pairs n b = some ps) :
    s.Ordered (.object n b) ↔
      (ps.Pairwise fun p q => p.key < q.key) ∧ ∀ p ∈ ps, s.Ordered p.value := by
  constructor
  · intro h
    exact ⟨h n b ps (.refl _) hps, fun p hp m c qs hsub hqs => h m c qs (.pair hps hp hsub) hqs⟩
  · rintro ⟨hpw, h⟩ m c qs hsub hqs
    cases hsub with
    | refl =>
      obtain rfl := Option.some.inj (hps.symm.trans hqs)
      exact hpw
    | pair hps' hp hsub =>
      obtain rfl := Option.some.inj (hps.symm.trans hps')
      exact h _ hp m c qs hsub hqs

/-- A pair with the image of its value. -/
def withKey (e : Value → Option Tree) (p : Pair) : Option (Key × Tree) := (e p.value).map (p.key, ·)

theorem map_key_filterMap {e : Value → Option Tree} (h : ∀ p ∈ ps, (e p.value).isSome) :
    (ps.filterMap (withKey e)).map Prod.fst = ps.map Pair.key := by
  induction ps with
  | nil => rfl
  | cons p ps ih =>
    obtain ⟨u, hu⟩ := Option.isSome_iff_exists.1 (h p List.mem_cons_self)
    rw [List.filterMap_cons, withKey, hu]
    simp only [Option.map_some, List.map_cons]
    rw [ih fun q hq => h q (List.mem_cons_of_mem _ hq)]

/-- The images of an array agree exactly when the images of all elements do. -/
theorem mapM_congr_iff {f g : α → Option β} {C : α → Prop} (hf : l.mapM f = some r)
    (h : ∀ a ∈ l, ∀ b, f a = some b → (g a = some b ↔ C a)) :
    l.mapM g = some r ↔ ∀ a ∈ l, C a := by
  induction l generalizing r with
  | nil => simpa using hf
  | cons a l ih =>
    rw [List.forall_mem_cons] at h ⊢
    simp only [List.mapM_cons, Option.bind_eq_bind, Option.bind_eq_some_iff, Option.pure_def,
      Option.some.injEq] at hf ⊢
    obtain ⟨b, hb, bs, hbs, rfl⟩ := hf
    rw [← h.1 b hb, ← ih hbs h.2]
    constructor
    · rintro ⟨b', hb', bs', hbs', he⟩
      obtain ⟨rfl, rfl⟩ := List.cons.inj he
      exact ⟨hb', hbs'⟩
    · rintro ⟨hb', hbs'⟩
      exact ⟨b, hb', bs, hbs', rfl⟩

theorem mem_filterMap_withKey {e : Value → Option Tree} {k : Key} :
    (k, t) ∈ ps.filterMap (withKey e) ↔ ∃ p ∈ ps, p.key = k ∧ e p.value = some t := by
  simp only [List.mem_filterMap, withKey, Option.map_eq_some_iff, Prod.mk.injEq]
  constructor
  · rintro ⟨p, hp, u, hu, rfl, rfl⟩
    exact ⟨p, hp, rfl, hu⟩
  · rintro ⟨p, hp, rfl, hu⟩
    exact ⟨p, hp, t, hu, rfl, rfl⟩

theorem isMap_filterMap_iff {e : Value → Option Tree} (h : ∀ p ∈ ps, (e p.value).isSome) :
    IsMap (ps.filterMap (withKey e)) ↔ ps.Pairwise fun p q => p.key < q.key := by
  rw [IsMap, ← List.pairwise_map (f := Prod.fst) (R := (· < ·)), map_key_filterMap h,
    List.pairwise_map]

/-- The pairs of an object, set in any order, make the list of its slots exactly when the keys
    increase with the slots and all values are meant. -/
theorem build_byTime_iff {eh em : Value → Option Tree} {C : Value → Prop} {es : List (Key × Tree)}
    (hes : ps.mapM (withKey eh) = some es)
    (h : ∀ p ∈ ps, ∀ t, eh p.value = some t → (em p.value = some t ↔ C p.value)) :
    (∃ ms, (Heap.byTime ps).mapM (withKey em) = some ms ∧ build ms = es) ↔
      (ps.Pairwise fun p q => p.key < q.key) ∧ ∀ p ∈ ps, C p.value := by
  have hperm : (Heap.byTime ps).Perm ps := List.perm_insertionSort _ ps
  obtain ⟨hsome, rfl⟩ := mapM_eq_some_iff.1 hes
  simp only [withKey, Option.isSome_map] at hsome
  rw [← isMap_filterMap_iff hsome]
  constructor
  · rintro ⟨ms, hms, hbuild⟩
    obtain ⟨hsome', rfl⟩ := mapM_eq_some_iff.1 hms
    simp only [withKey, Option.isSome_map, hperm.mem_iff] at hsome'
    have hmap : IsMap (ps.filterMap (withKey eh)) := hbuild ▸ isMap_build _
    refine ⟨hmap, fun p hp => ?_⟩
    -- the pair as it is meant is among the pairs as they are handed over, and only in its own slot
    have hkeys : (ps.map Pair.key).Nodup := map_key_filterMap hsome ▸ hmap.nodup
    have hnodup : (((Heap.byTime ps).filterMap (withKey em)).map Prod.fst).Nodup := by
      rw [map_key_filterMap fun q hq => hsome' q (hperm.mem_iff.1 hq)]
      exact (hperm.map Pair.key).nodup_iff.2 hkeys
    obtain ⟨u, hu⟩ := Option.isSome_iff_exists.1 (hsome' p hp)
    have hmem : (p.key, u) ∈ (Heap.byTime ps).filterMap (withKey em) :=
      mem_filterMap_withKey.2 ⟨p, hperm.mem_iff.2 hp, rfl, hu⟩
    rw [← mem_build_of_nodup hnodup, hbuild, mem_filterMap_withKey] at hmem
    obtain ⟨q, hq, hkey, hqu⟩ := hmem
    obtain rfl := List.inj_on_of_nodup_map hkeys hq hp hkey
    exact (h q hq u hqu).1 hu
  · rintro ⟨hmap, hC⟩
    have hsame : ∀ p ∈ ps, withKey em p = withKey eh p := fun p hp => by
      obtain ⟨u, hu⟩ := Option.isSome_iff_exists.1 (hsome p hp)
      rw [withKey, withKey, hu, (h p hp u hu).2 (hC p hp)]
    refine ⟨(Heap.byTime ps).filterMap (withKey em), mapM_eq_some_iff.2 ⟨fun p hp => ?_, rfl⟩, ?_⟩
    · have hp' := hperm.mem_iff.1 hp
      rw [hsame p hp', withKey, Option.isSome_map]
      exact hsome p hp'
    · rw [build_eq_iff ((hperm.filterMap _).trans (List.Perm.of_eq (List.filterMap_congr hsame)))]
      exact hmap

/-- **The tree that is handed over is the one that is meant** exactly when the keys of every object
    in it were given in increasing order. -/
theorem handed_canonical_iff (s : Heap) (v : Value) (d : ℕ) (t : Tree)
    (ht : s.handed d v = some t) : s.meant d v = some t ↔ s.Ordered v := by
  induction d generalizing v t with
  | zero => cases ht
  | succ d ih =>
    cases v with
    | array n b =>
      cases hvs : s.elems n b with
      | none => simp [Heap.handed, hvs] at ht
      | some vs =>
        simp only [Heap.handed, Heap.meant, hvs, Option.bind_some, Option.map_eq_some_iff] at ht ⊢
        obtain ⟨ts, hts, rfl⟩ := ht
        rw [ordered_array hvs, ← mapM_congr_iff hts fun v _ t hv => ih v t hv]
        constructor
        · rintro ⟨ts', hts', he⟩
          obtain rfl := Tree.array.inj he
          exact hts'
        · exact fun hts' => ⟨ts, hts', rfl⟩
    | object n b =>
      cases hps : s.pairs n b with
      | none => simp [Heap.handed, hps] at ht
      | some ps =>
        simp only [Heap.handed, Heap.meant, hps, Option.bind_some, Option.map_eq_some_iff] at ht ⊢
        obtain ⟨es, hes, rfl⟩ := ht
        rw [ordered_object hps, ← build_byTime_iff hes fun p _ t hp => ih p.value t hp]
        simp only [Tree.object.injEq]
        exact Iff.rfl
    | _ =>
      refine iff_of_true ht fun n b ps hsub => ?_
      cases hsub

/-- An object of two pairs with two keys of one byte, in the order of the slots. -/
def pairCalls (a b : UInt8) : List Call :=
  [.jsonbValueNewObject 2 true, .jsonbValueNewString [a] true, .jsonbValueNewString [b] true,
    .jsonbValueNewNull, .jsonbValueObjectSet 0 0 1 3, .jsonbValueObjectSet 0 1 2 3]

/-- Keys that decrease with the slots are handed over as they are. -/
theorem pairCalls_reversed : ∃ h s obj t, Run Step Heap.empty h s ∧ Exec.Meets Safe h ∧
    s.objs[0]? = some obj ∧ s.handed 2 obj.jbv = some t ∧ s.meant 2 obj.jbv ≠ some t := by
  refine ⟨history Heap.empty (pairCalls 0x62 0x61) [], _, ⟨.object 2 0, some (.refSet 4)⟩,
    .object [(⟨[0x62]⟩, .null), (⟨[0x61]⟩, .null)], run_history .nil _, ?_, rfl, rfl, ?_⟩
  · refine history_safe fun p hp => ?_
    simp only [pairCalls, history, List.mem_cons, List.not_mem_nil, or_false] at hp
    rcases hp with rfl | rfl | rfl | rfl | rfl | rfl
    · rintro obj hobj - - - - -
      obtain rfl := Option.some.inj hobj
      exact ⟨2, 0, rfl, by decide, by decide⟩
    · rintro obj hobj - - - - -
      obtain rfl := Option.some.inj hobj
      exact ⟨2, 0, rfl, by decide, by decide⟩
    all_goals trivial
  · intro h
    have hpairs : (Tree.object [(⟨[0x61]⟩, .null), (⟨[0x62]⟩, .null)] : Tree) =
        .object [(⟨[0x62]⟩, .null), (⟨[0x61]⟩, .null)] := Option.some.inj h
    simp at hpairs

theorem pairCalls_sorted : ∃ s obj t, (pairCalls 0x61 0x62).foldl Heap.next Heap.empty = s ∧
    s.objs[0]? = some obj ∧ s.handed 2 obj.jbv = some t ∧ s.meant 2 obj.jbv = some t := by
  refine ⟨_, ⟨.object 2 0, some (.refSet 4)⟩,
    .object [(⟨[0x61]⟩, .null), (⟨[0x62]⟩, .null)], rfl, rfl, rfl, ?_⟩
  refine (handed_canonical_iff _ _ 2 _ rfl).2 ?_
  have hpairs : Heap.pairs ((pairCalls 0x61 0x62).foldl Heap.next Heap.empty) 2 0 =
      some [⟨⟨[0x61]⟩, .null, 0⟩, ⟨⟨[0x62]⟩, .null, 1⟩] := rfl
  refine (ordered_object hpairs).2 ⟨?_, ?_⟩
  · refine List.pairwise_pair.2 ?_
    decide
  · rintro p hp n b ps hsub
    simp only [List.mem_cons, List.not_mem_nil, or_false] at hp
    rcases hp with rfl | rfl <;> cases hsub

end Rustica.Jsonb
