/-
  The positions of the wait event set.

  `DeleteWaitEventEx` leaves a hole in Postgres' array, and `AddWaitEventToSetEx` fills the hole that
  has waited longest.  `Registrations` follows the two through any sequence of calls, with the list of
  the positions that are registered.

  `nevents` is then the number of registered positions, and Postgres asserts in `ModifyWaitEvent` that
  the position is below it.  With a hole below, the highest position is not.
-/
import Rustica.Handlers

namespace Rustica

open Exec

/-- The set, and the registered positions, the latest first: those that an add has returned and no
    delete has named since. -/
structure Registrations where
  set : WaitEventSetEx
  live : List ℤ

inductive EventSetCall where
  | add (events : Events) (userData : ℤ)
  | delete (pos : ℤ)

namespace Registrations

def create (nevents : ℕ) : Registrations := ⟨createWaitEventSetEx nevents, []⟩

def add (r : Registrations) (events : Events) (userData : ℤ) : Registrations :=
  let rv := addWaitEventToSetEx r.set events userData
  ⟨rv.2, if rv.1 = -1 then r.live else rv.1 :: r.live⟩

def delete (r : Registrations) (pos : ℤ) : Registrations :=
  ⟨deleteWaitEventEx r.set pos, r.live.erase pos⟩

/-- Deletes name registered positions. -/
inductive Step : Registrations → EventSetCall → Registrations → Prop
  | add {r} (events userData) : Step r (.add events userData) (r.add events userData)
  | delete {r} (pos) : pos ∈ r.live → Step r (.delete pos) (r.delete pos)

end Registrations

/-- How the positions are used in a set of capacity `N`. -/
structure Positions (N : ℕ) (r : Registrations) : Prop where
  next_none : nextWaitEventPos r.set = -1 ↔ r.live.length = N
  next_add : r.live.length ≠ N → ∀ events userData,
    (addWaitEventToSetEx r.set events userData).1 = nextWaitEventPos r.set ∧
      nextWaitEventPos r.set ∉ r.live
  add_fails : ∀ events userData,
    (addWaitEventToSetEx r.set events userData).1 = -1 ↔ r.live.length = N
  nodup : r.live.Nodup
  range : ∀ p ∈ r.live, 0 ≤ p ∧ p < N
  /-- no position is lost, and none is free twice -/
  count : ∀ p : ℤ, 0 ≤ p → p < N → r.set.freeList.count p = if p ∈ r.live then 0 else 1
  nevents : r.set.waitSet.nevents = r.set.used
  used : r.set.used = r.live.length

/-- The positions that Postgres' array holds are the registered ones. -/
structure Registrations.Wf (N : ℕ) (r : Registrations) : Prop where
  set : r.set.Wf
  space : r.set.waitSet.neventsSpace = N
  live : ∀ p, p ∈ r.live ↔ r.set.waitSet.polled p
  nodup : r.live.Nodup
  used : r.set.used = r.live.length

variable {N : ℕ} {r r' : Registrations} {pos : ℤ} {events : Events} {userData : ℤ}
  {c : EventSetCall} {h : List (Registrations × EventSetCall)}

/-! ## One call -/

theorem add_used (hs : r.set.used ≠ r.set.waitSet.neventsSpace) :
    (r.add events userData).set.used = r.set.used + 1 := by
  simp [Registrations.add, addWaitEventToSetEx, hs]

namespace Registrations.Wf

theorem create (hN : 0 < N) : (Registrations.create N).Wf N :=
  ⟨create_wf hN, rfl, fun p => by simp [Registrations.create, createWaitEventSetEx,
    createWaitEventSet], List.nodup_nil, rfl⟩

/-- A full set is left alone. -/
theorem add_full (hf : r.set.used = r.set.waitSet.neventsSpace) : r.add events userData = r := by
  simp [Registrations.add, add_of_full hf]

/-- With room left, the next position is registered. -/
theorem add_live (hr : r.Wf N) (hs : r.set.used ≠ r.set.waitSet.neventsSpace) (events : Events)
    (userData : ℤ) : (r.add events userData).live = nextWaitEventPos r.set :: r.live := by
  have hne : nextWaitEventPos r.set ≠ -1 := by
    have := (hr.set.next hs).1
    omega
  simp only [Registrations.add, add_fst hs, if_neg hne]

theorem next_not_live (hr : r.Wf N) (hs : r.set.used ≠ r.set.waitSet.neventsSpace) :
    nextWaitEventPos r.set ∉ r.live := by
  rw [hr.live]; exact (hr.set.next hs).2.2

theorem add (hr : r.Wf N) : (r.add events userData).Wf N := by
  by_cases hs : r.set.used = r.set.waitSet.neventsSpace
  · rw [add_full hs]; exact hr
  have hlive := hr.add_live hs events userData
  refine ⟨hr.set.add hs, add_space.trans hr.space, fun p => ?_, ?_, ?_⟩
  · rw [hlive, List.mem_cons, hr.live, show (r.add events userData).set.waitSet.polled = _ from
      add_polled hs]
    by_cases hp : p = nextWaitEventPos r.set
    · simp [hp]
    · simp [hp]
  · rw [hlive]
    exact List.nodup_cons.2 ⟨hr.next_not_live hs, hr.nodup⟩
  · rw [hlive, List.length_cons, add_used hs, hr.used]

theorem delete (hr : r.Wf N) (hpos : pos ∈ r.live) : (r.delete pos).Wf N := by
  refine ⟨(hr.set.delete ((hr.live pos).1 hpos)).2, hr.space, fun p => ?_, hr.nodup.erase pos, ?_⟩
  · change p ∈ r.live.erase pos ↔ (deleteWaitEventEx r.set pos).waitSet.polled p = true
    rw [hr.nodup.mem_erase_iff, hr.live, delete_polled]
    by_cases hp : p = pos
    · simp [hp]
    · simp [hp]
  · change r.set.used - 1 = (r.live.erase pos).length
    rw [List.length_erase_of_mem hpos, hr.used]

theorem step (hr : r.Wf N) (hs : Step r c r') : r'.Wf N := by
  cases hs with
  | add events userData => exact hr.add
  | delete pos hpos => exact hr.delete hpos

theorem nevents (hr : r.Wf N) : r.set.waitSet.nevents = r.live.length := by
  rw [hr.set.nevents, hr.used]

theorem range (hr : r.Wf N) {p : ℤ} (hp : p ∈ r.live) : 0 ≤ p ∧ p < N := by
  have := ((hr.set.polled_iff p).1 ((hr.live p).1 hp)).1
  rwa [hr.space] at this

theorem full_iff (hr : r.Wf N) :
    r.set.used = r.set.waitSet.neventsSpace ↔ r.live.length = N := by
  rw [hr.used, hr.space]

theorem positions (hr : r.Wf N) : Positions N r := by
  have hnext : ¬ r.live.length = N → nextWaitEventPos r.set ≠ -1 := by
    intro hN hneg
    have := (hr.set.next (mt hr.full_iff.1 hN)).1
    omega
  refine ⟨⟨fun hneg => ?_, fun hN => next_of_full (hr.full_iff.2 hN)⟩, fun hN events userData => ?_,
    fun events userData => ⟨fun hneg => ?_, fun hN => ?_⟩, hr.nodup, fun p => hr.range,
    fun p h0 h1 => ?_, hr.set.nevents, hr.used⟩
  · by_contra hN
    exact hnext hN hneg
  · have hs := mt hr.full_iff.1 hN
    exact ⟨add_fst hs, hr.next_not_live hs⟩
  · by_contra hN
    rw [add_fst (mt hr.full_iff.1 hN)] at hneg
    exact hnext hN hneg
  · rw [add_of_full (hr.full_iff.2 hN)]
  · have hmem : p ∈ r.live ↔ p ∉ r.set.freeList := by
      rw [hr.live, hr.set.polled_iff, hr.space]
      exact and_iff_right ⟨h0, h1⟩
    rw [hr.set.nodup.count]
    by_cases hp : p ∈ r.live
    · rw [if_pos hp, if_neg (hmem.1 hp)]
    · rw [if_neg hp, if_pos (Classical.not_not.1 (mt hmem.2 hp))]

end Registrations.Wf

/-- **No position is lost or used twice**, whatever the order of adds and deletes: the ring holds
    exactly the positions that are not registered, and its head is the one that the next add uses. -/
theorem positions_partitioned (hN : 0 < N)
    (hr : Reach Registrations.Step (.create N) r) : Positions N r :=
  (hr.inv (I := Registrations.Wf N) (.create hN) fun _ _ _ => .step).positions

/-- In a set of three, the middle one of three positions is deleted: it is the next one. -/
theorem positions_after_delete : ∃ r, Reach Registrations.Step (.create 3) r ∧
    r.live = [2, 0] ∧ nextWaitEventPos r.set = 1 ∧ Positions 3 r := by
  have hr : Reach Registrations.Step (.create 3) _ :=
    (((Reach.refl.snoc (.add {} 0)).snoc (.add {} 0)).snoc (.add {} 0)).snoc
      (.delete 1 (by decide))
  exact ⟨_, hr, by decide, by decide, positions_partitioned (by decide) hr⟩

/-! ## Positions below the count -/

/-- `Assert(pos < set->nevents)` of `ModifyWaitEvent` holds for every registered position. -/
def Modifiable (r : Registrations) : Prop := ∀ p ∈ r.live, p < r.set.waitSet.nevents

/-- Positions are taken and given back as on a stack: an add that succeeds extends the array, and a
    delete takes the last position away. -/
def StackOrder (r : Registrations) : EventSetCall → Prop
  | .add _ _ => nextWaitEventPos r.set = -1 ∨ nextWaitEventPos r.set = r.set.waitSet.nevents
  | .delete pos => pos = r.set.waitSet.nevents - 1

/-- As many different numbers as lie below a bound are all of them. -/
theorem mem_of_nodup_of_lt {l : List ℤ} (hn : l.Nodup) (hl : ∀ p ∈ l, 0 ≤ p ∧ p < l.length) {p : ℤ}
    (h0 : 0 ≤ p) (hp : p < l.length) : p ∈ l := by
  have hsub : l.toFinset ⊆ Finset.Ico (0 : ℤ) l.length :=
    fun q hq => Finset.mem_Ico.2 (hl q (List.mem_toFinset.1 hq))
  have hcard : (Finset.Ico (0 : ℤ) l.length).card ≤ l.toFinset.card := by
    rw [List.toFinset_card_of_nodup hn, Int.card_Ico]; omega
  have heq := Finset.eq_of_subset_of_card_le hsub hcard
  rw [← List.mem_toFinset, heq]
  exact Finset.mem_Ico.2 ⟨h0, hp⟩

/-- Where all registered positions are below the count, they are all the positions below it. -/
theorem Modifiable.live_iff (hm : Modifiable r) (hr : r.Wf N) (p : ℤ) :
    p ∈ r.live ↔ 0 ≤ p ∧ p < r.live.length := by
  rw [Modifiable, hr.nevents] at hm
  have hl : ∀ q ∈ r.live, 0 ≤ q ∧ q < r.live.length := fun q hq => ⟨(hr.range hq).1, hm q hq⟩
  exact ⟨hl p, fun hp => mem_of_nodup_of_lt hr.nodup hl hp.1 hp.2⟩

theorem Modifiable.add_iff (hm : Modifiable r) (hr : r.Wf N) :
    Modifiable (r.add events userData) ↔ StackOrder r (.add events userData) := by
  by_cases hs : r.set.used = r.set.waitSet.neventsSpace
  · rw [Registrations.Wf.add_full hs]
    exact iff_of_true hm (.inl (next_of_full hs))
  have h0 := (hr.set.next hs).1
  have hnot := hr.next_not_live hs
  rw [hm.live_iff hr] at hnot
  simp only [Modifiable, StackOrder, hr.add.nevents, hr.nevents, hr.add_live hs events userData,
    List.mem_cons, List.length_cons, forall_eq_or_imp]
  constructor
  · rintro ⟨hlt, -⟩
    push_cast at hlt
    exact .inr (by omega)
  · rintro (hneg | heq)
    · omega
    · refine ⟨by omega, fun p hp => ?_⟩
      have := ((hm.live_iff hr p).1 hp).2
      push_cast; omega

theorem Modifiable.delete_iff (hm : Modifiable r) (hr : r.Wf N) (hpos : pos ∈ r.live) :
    Modifiable (r.delete pos) ↔ StackOrder r (.delete pos) := by
  have hlen : 0 < r.live.length := List.length_pos_of_mem hpos
  have hcount : (r.delete pos).set.waitSet.nevents = (r.live.length : ℤ) - 1 := by
    change (r.set.used : ℤ) - 1 = _
    rw [hr.used]
  have hmem : ∀ p, p ∈ (r.delete pos).live ↔ p ≠ pos ∧ p ∈ r.live :=
    fun p => hr.nodup.mem_erase_iff
  simp only [Modifiable, StackOrder, hr.nevents, hcount, hmem]
  constructor
  · intro h
    by_contra hne
    -- the last position stays, and is not below the count any more
    have hlast : (r.live.length : ℤ) - 1 ∈ r.live := (hm.live_iff hr _).2 ⟨by omega, by omega⟩
    exact lt_irrefl _ (h _ ⟨Ne.symm hne, hlast⟩)
  · rintro rfl p ⟨hne, hp⟩
    have := ((hm.live_iff hr p).1 hp).2
    omega

theorem Modifiable.step_iff (hm : Modifiable r) (hr : r.Wf N) (hs : Registrations.Step r c r') :
    Modifiable r' ↔ StackOrder r c := by
  cases hs with
  | add events userData => exact hm.add_iff hr
  | delete pos hpos => exact hm.delete_iff hr hpos

/-- **Every registered position can be modified along exactly the sequences of calls that take and
    give back positions as on a stack.** -/
theorem modifiable_iff_stackOrder (hN : 0 < N) (hr : Run Registrations.Step (.create N) h r) :
    Always Modifiable h r ↔ Meets StackOrder h :=
  hr.always_iff_meets (I := Registrations.Wf N) (.create hN) (fun p hp => by cases hp)
    (fun _ _ _ hw hm hC hs => ⟨hw.step hs, (hm.step_iff hw hs).2 hC⟩)
    fun _ _ _ hw hm hC hs hm' => hC ((hm.step_iff hw hs).1 hm')

/-- One position after the other, the last one deleted and taken again. -/
theorem modifiable_stack : ∃ h r, Run Registrations.Step (.create 3) h r ∧ r.live = [0] ∧
    Always Modifiable h r := by
  have hr : Run Registrations.Step (.create 3) _ _ :=
    ((Run.nil.snoc (.add {} 0)).snoc (.add {} 0)).snoc (.delete 1 (by decide))
  refine ⟨_, _, hr, by decide, (modifiable_iff_stackOrder (by decide) hr).2 ?_⟩
  simp only [meets_cons, meets_nil, and_true, StackOrder]
  decide

/-- Two workers connect, the first one closes its connection, and the second says hello. -/
def highSlotRun : List Label :=
  [.wait [readable 1], .handle { acceptIpc := 20 }, .wait [readable 1], .handle { acceptIpc := 21 },
    .wait [⟨3, wlSocketClosed, 3⟩], .handle {}, .wait [readable 4]]

/-- Of three positions the middle one is deleted, and the last one is not below the count.  So it goes
    for the second worker, whose slot is modified when its hello is complete. -/
theorem highest_not_modifiable : (∃ r, Reach Registrations.Step (.create 3) r ∧ 2 ∈ r.live ∧
      r.set.waitSet.nevents = 2 ∧ ¬ Modifiable r) ∧
    ∃ m, Reach Step (startup smallSetup) m ∧ m.batch = [readable 4] ∧
      (m.sockets 4).type = .backend ∧ (m.sockets 4).pos = 4 ∧ m.rmWaitSet.waitSet.nevents = 4 := by
  constructor
  · have hr : Reach Registrations.Step (.create 3) _ :=
      (((Reach.refl.snoc (.add {} 0)).snoc (.add {} 0)).snoc (.add {} 0)).snoc
        (.delete 1 (by decide))
    refine ⟨_, hr, by decide, by decide, fun hm => ?_⟩
    exact absurd (hm 2 (by decide)) (by decide)
  · have hexec : (execs next (startup smallSetup) highSlotRun).any (fun m =>
        m.batch = [readable 4] ∧ (m.sockets 4).type = .backend ∧ (m.sockets 4).pos = 4 ∧
          m.rmWaitSet.waitSet.nevents = 4) = true := by decide
    obtain ⟨m, hr, hp⟩ := exists_reach_of_execs (fun _ _ _ => step_of_next) hexec
    exact ⟨m, hr, of_decide_eq_true hp⟩

end Rustica
