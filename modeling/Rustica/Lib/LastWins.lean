/-
  Maps as lists of pairs with strictly increasing keys, and the map that a sequence of writes makes:
  of all writes with one key the last one counts (`mem_build_iff`).  Where no key is written twice
  the order of the writes does not matter, and a list that is a map already is made by its own
  pairs in any order (`build_eq_iff`).
-/
import Mathlib.Tactic

namespace LastWins

variable {κ ν : Type*} [LinearOrder κ]

/-- Keys strictly increase. -/
def IsMap (l : List (κ × ν)) : Prop := l.Pairwise fun p q => p.1 < q.1

/-- The map with one more write. -/
def put (k : κ) (v : ν) : List (κ × ν) → List (κ × ν)
  | [] => [(k, v)]
  | p :: l => if k < p.1 then (k, v) :: p :: l else if k = p.1 then (k, v) :: l
      else p :: put k v l

/-- The map of some writes, the first one first. -/
def build (w : List (κ × ν)) : List (κ × ν) := w.foldl (fun l p => put p.1 p.2 l) []

variable {k : κ} {v : ν} {l w : List (κ × ν)} {p q : κ × ν}

theorem IsMap.lt_of_mem (h : IsMap (p :: l)) (hq : q ∈ l) : p.1 < q.1 := List.rel_of_pairwise_cons h hq

theorem mem_put_iff (h : IsMap l) : q ∈ put k v l ↔ q = (k, v) ∨ q.1 ≠ k ∧ q ∈ l := by
  induction l with
  | nil => simp [put]
  | cons p l ih =>
    have hp : ∀ q ∈ l, p.1 < q.1 := fun q hq => h.lt_of_mem hq
    rw [put]
    split_ifs with hlt heq
    · -- all keys are behind the new one
      have hne : q ∈ p :: l → q.1 ≠ k := by
        rintro hq rfl
        rcases List.mem_cons.1 hq with rfl | hq
        · exact lt_irrefl _ hlt
        · exact lt_asymm hlt (hp q hq)
      rw [List.mem_cons]
      exact or_congr_right ⟨fun hq => ⟨hne hq, hq⟩, fun hq => hq.2⟩
    · subst heq
      rw [List.mem_cons, List.mem_cons]
      refine or_congr_right ⟨fun hq => ⟨(hp q hq).ne', .inr hq⟩, ?_⟩
      rintro ⟨hne, rfl | hq⟩
      · exact absurd rfl hne
      · exact hq
    · rw [List.mem_cons, ih h.of_cons, List.mem_cons]
      constructor
      · rintro (rfl | rfl | ⟨hne, hq⟩)
        · exact .inr ⟨fun he => heq he.symm, .inl rfl⟩
        · exact .inl rfl
        · exact .inr ⟨hne, .inr hq⟩
      · rintro (rfl | ⟨hne, rfl | hq⟩)
        · exact .inr (.inl rfl)
        · exact .inl rfl
        · exact .inr (.inr ⟨hne, hq⟩)

theorem IsMap.put (h : IsMap l) (k : κ) (v : ν) : IsMap (put k v l) := by
  induction l with
  | nil => exact List.pairwise_singleton _ _
  | cons p l ih =>
    have hl : IsMap l := h.of_cons
    rw [LastWins.put]
    split_ifs with hlt heq
    · refine List.pairwise_cons.2 ⟨fun q hq => ?_, h⟩
      rcases List.mem_cons.1 hq with rfl | hq
      · exact hlt
      · exact hlt.trans (h.lt_of_mem hq)
    · subst heq
      exact List.pairwise_cons.2 ⟨fun q hq => h.lt_of_mem hq, hl⟩
    · refine List.pairwise_cons.2 ⟨fun q hq => ?_, ih hl⟩
      rcases (mem_put_iff hl).1 hq with rfl | ⟨-, hq⟩
      · exact lt_of_le_of_ne (not_lt.1 hlt) fun he => heq he.symm
      · exact h.lt_of_mem hq

theorem build_concat : build (w ++ [p]) = put p.1 p.2 (build w) := by
  rw [build, List.foldl_append]; rfl

/-- **What is built is a map.** -/
theorem isMap_build (w : List (κ × ν)) : IsMap (build w) := by
  induction w using List.reverseRecOn with
  | nil => exact List.Pairwise.nil
  | append_singleton w p ih =>
    rw [build_concat]
    exact ih.put _ _

/-- **The last write of a key counts.** -/
theorem mem_build_iff : q ∈ build w ↔ w.reverse.find? (fun p => p.1 = q.1) = some q := by
  induction w using List.reverseRecOn with
  | nil => simp [build]
  | append_singleton w p ih =>
    rw [build_concat, mem_put_iff (isMap_build w), List.reverse_append, List.reverse_singleton,
      List.singleton_append, List.find?_cons]
    by_cases he : p.1 = q.1
    · rw [decide_eq_true he, Option.some.injEq]
      constructor
      · rintro (h | ⟨hne, -⟩)
        · exact h.symm
        · exact absurd he.symm hne
      · exact fun h => .inl h.symm
    · rw [decide_eq_false he]
      rw [← ih]
      constructor
      · rintro (h | ⟨-, h⟩)
        · exact absurd (congrArg Prod.fst h).symm he
        · exact h
      · exact fun h => .inr ⟨fun hq => he hq.symm, h⟩

theorem IsMap.nodup (h : IsMap l) : (l.map Prod.fst).Nodup := by
  rw [List.Nodup, List.pairwise_map]
  exact h.imp fun h => h.ne

/-- Two maps with the same pairs. -/
theorem IsMap.ext (h : IsMap l) (hw : IsMap w) (hmem : ∀ q, q ∈ l ↔ q ∈ w) : l = w := by
  refine List.Perm.eq_of_pairwise ?_ h hw
    ((List.perm_ext_iff_of_nodup h.nodup.of_map hw.nodup.of_map).2 hmem)
  exact fun p q _ _ hpq hqp => absurd hqp (lt_asymm hpq)

/-- Where no key is written twice, all writes count. -/
theorem mem_build_of_nodup (h : (w.map Prod.fst).Nodup) : q ∈ build w ↔ q ∈ w := by
  rw [mem_build_iff]
  constructor
  · exact fun hq => List.mem_reverse.1 (List.mem_of_find?_eq_some hq)
  · intro hq
    obtain ⟨p, hp⟩ := Option.isSome_iff_exists.1 (List.find?_isSome.2
      (⟨q, List.mem_reverse.2 hq, decide_eq_true rfl⟩ :
        ∃ x, x ∈ w.reverse ∧ decide (x.1 = q.1) = true))
    have hfound := List.find?_some hp
    have hkey : p.1 = q.1 := of_decide_eq_true hfound
    have hpw : p ∈ w := List.mem_reverse.1 (List.mem_of_find?_eq_some hp)
    rw [hp, List.inj_on_of_nodup_map h hpw hq hkey]

/-- **A list is the map of its own pairs**, written in any order, exactly when it is a map. -/
theorem build_eq_iff (hp : w.Perm l) : build w = l ↔ IsMap l := by
  constructor
  · rintro rfl
    exact isMap_build w
  · intro h
    refine (isMap_build w).ext h fun q => ?_
    rw [mem_build_of_nodup ((hp.map _).nodup_iff.2 h.nodup), hp.mem_iff]

end LastWins
