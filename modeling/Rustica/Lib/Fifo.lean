/-
  Bounded first-in first-out queues, with the record of what arrived, was served, and was refused.

  Everything is listed in the order in which it happened.  An item that arrives is put into the queue,
  or refused where `n` items wait already.
-/
import Mathlib.Tactic

/-- A queue with its record. -/
structure Fifo (α : Type*) where
  arrived : List α
  queue : List α
  served : List α
  refused : List α

namespace Fifo

variable {α : Type*}

def empty : Fifo α := ⟨[], [], [], []⟩

/-- The steps of a queue of length `n`.  An item arrives at most once. -/
inductive Step (n : ℕ) (s : Fifo α) : Fifo α → Prop
  | put {x} : x ∉ s.arrived → s.queue.length < n →
      Step n s { s with arrived := s.arrived ++ [x], queue := s.queue ++ [x] }
  | refuse {x} : x ∉ s.arrived → n ≤ s.queue.length →
      Step n s { s with arrived := s.arrived ++ [x], refused := s.refused ++ [x] }
  | take {x q} : s.queue = x :: q → Step n s { s with queue := q, served := s.served ++ [x] }

abbrev Steps (n : ℕ) : Fifo α → Fifo α → Prop := Relation.ReflTransGen (Step n)

variable {n : ℕ} {s s' : Fifo α} {x : α}

/-- An item that finds the queue empty can pass through it. -/
theorem Steps.pass (hn : 0 < n) (hx : x ∉ s.arrived) (hq : s.queue = []) :
    Steps n s { s with arrived := s.arrived ++ [x], served := s.served ++ [x] } := by
  have hput : Step n s { s with arrived := s.arrived ++ [x], queue := s.queue ++ [x] } :=
    .put hx (by simpa [hq] using hn)
  have htake := Step.take (n := n) (s := { s with
    arrived := s.arrived ++ [x], queue := s.queue ++ [x] }) (x := x) (q := []) (by simp [hq])
  refine (Relation.ReflTransGen.single hput).tail ?_
  simpa [hq] using htake

/-- The record of a queue: what was served and what waits is in the order of arrival, and every item
    was served, waits, or was refused, only one of these and only once. -/
structure Fair (s : Fifo α) : Prop where
  nodup : s.arrived.Nodup
  order : (s.served ++ s.queue).Sublist s.arrived
  split : (s.served ++ s.queue ++ s.refused).Perm s.arrived

theorem empty_fair : (empty : Fifo α).Fair := ⟨.nil, .slnil, .nil⟩

namespace Fair

theorem served_sublist (h : s.Fair) : s.served.Sublist s.arrived :=
  (List.sublist_append_left _ _).trans h.order

theorem served_nodup (h : s.Fair) : s.served.Nodup := h.served_sublist.nodup h.nodup

theorem served_sub (h : s.Fair) (hx : x ∈ s.served) : x ∈ s.arrived := h.served_sublist.subset hx

theorem all_nodup (h : s.Fair) : (s.served ++ s.queue ++ s.refused).Nodup :=
  h.split.nodup_iff.2 h.nodup

theorem not_served (h : s.Fair) (hx : x ∈ s.queue) : x ∉ s.served := fun hs =>
  List.disjoint_of_nodup_append (List.nodup_append.1 h.all_nodup).1 hs hx

theorem not_refused (h : s.Fair) (hx : x ∈ s.queue) : x ∉ s.refused := fun hr =>
  List.disjoint_of_nodup_append h.all_nodup (List.mem_append_right _ hx) hr

end Fair

/-- **Every step keeps the record.** -/
theorem Step.fair (hs : Step n s s') (h : s.Fair) : s'.Fair := by
  have hnodup : ∀ {x}, x ∉ s.arrived → (s.arrived ++ [x]).Nodup := fun hx =>
    List.nodup_append.2 ⟨h.nodup, List.nodup_singleton _, fun a ha b hb => by
      rintro rfl
      exact hx (List.mem_singleton.1 hb ▸ ha)⟩
  cases hs with
  | @put x hx _ =>
    refine ⟨hnodup hx, ?_, ?_⟩
    · rw [← List.append_assoc]
      exact h.order.append_right [x]
    · have hmove : (s.served ++ (s.queue ++ [x]) ++ s.refused).Perm
          (s.served ++ s.queue ++ s.refused ++ [x]) := by
        have hswap : ([x] ++ s.refused).Perm (s.refused ++ [x]) := List.perm_append_comm
        simp only [List.append_assoc]
        exact (hswap.append_left _).append_left _
      exact hmove.trans (h.split.append_right [x])
  | @refuse x hx _ =>
    refine ⟨hnodup hx, h.order.trans (List.sublist_append_left _ _), ?_⟩
    rw [← List.append_assoc]
    exact h.split.append_right [x]
  | @take x q hq =>
    have he : s.served ++ [x] ++ q = s.served ++ s.queue := by simp [hq]
    exact ⟨h.nodup, he ▸ h.order, he ▸ h.split⟩

theorem Steps.fair (hs : Steps n s s') (h : s.Fair) : s'.Fair := by
  induction hs with
  | refl => exact h
  | tail _ hs ih => exact hs.fair ih

end Fifo
