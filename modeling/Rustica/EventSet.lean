/-
  The wait event set with deletion (`event_set.c`).

  Postgres' `WaitEventSet` only grows; `WaitEventSetEx` keeps the unused positions of its event
  array in a ring (`slots`, `head`, `tail`, `used`) and moves `nevents` to the next unused
  position before it calls `AddWaitEventToSet`.

  `epoll_ctl` is taken to succeed: on failure it raises an error that ends the process.
-/
import Rustica.Lib.RingBuf

namespace Rustica

/-- A descriptor.  Descriptors are named apart: the code never compares two of them, so each is
    named by the call that returned it even where the kernel gives a number out again. -/
abbrev Pgsocket := ℤ

def pgInvalidSocket : Pgsocket := -1

/-- The event bits.  `WL_SOCKET_ACCEPT` is `WL_SOCKET_READABLE` on Unix. -/
structure Events where
  latchSet : Bool := false
  readable : Bool := false
  writeable : Bool := false
  closed : Bool := false
  deriving DecidableEq, Repr

instance : OrOp Events where
  or a b := ⟨a.latchSet || b.latchSet, a.readable || b.readable, a.writeable || b.writeable,
    a.closed || b.closed⟩

def wlLatchSet : Events := { latchSet := true }
def wlSocketReadable : Events := { readable := true }
def wlSocketAccept : Events := wlSocketReadable
def wlSocketWriteable : Events := { writeable := true }
def wlSocketClosed : Events := { closed := true }

/-- Every bit of `a` is one of `b`. -/
def Events.Sub (a b : Events) : Prop :=
  (a.latchSet → b.latchSet) ∧ (a.readable → b.readable) ∧ (a.writeable → b.writeable) ∧
    (a.closed → b.closed)

instance (a b : Events) : Decidable (a.Sub b) := by unfold Events.Sub; infer_instance

/-- A registered event, and an event reported by a wait.  The user data of the master's events is
    the address of a slot of `sockets`, here its index. -/
structure WaitEvent where
  pos : ℤ
  events : Events
  userData : ℤ
  deriving DecidableEq

/-- Postgres' wait event set; `polled` are the positions registered with the kernel. -/
structure WaitEventSet where
  nevents : ℤ
  neventsSpace : ℕ
  events : ℤ → WaitEvent
  polled : ℤ → Bool

def createWaitEventSet (nevents : ℕ) : WaitEventSet where
  nevents := 0
  neventsSpace := nevents
  events _ := ⟨0, {}, 0⟩
  polled _ := false

/-- Stores at index `nevents`, returns it and increments `nevents`. -/
def addWaitEventToSet (set : WaitEventSet) (events : Events) (userData : ℤ) : ℤ × WaitEventSet :=
  (set.nevents, { set with
    nevents := set.nevents + 1
    events := Function.update set.events set.nevents ⟨set.nevents, events, userData⟩
    polled := Function.update set.polled set.nevents true })

def modifyWaitEvent (set : WaitEventSet) (pos : ℤ) (events : Events) : WaitEventSet :=
  { set with events := Function.update set.events pos { set.events pos with events := events } }

structure WaitEventSetEx where
  waitSet : WaitEventSet
  slots : ℕ → ℤ
  head : ℕ
  tail : ℕ
  used : ℕ

/-- The cells of `slots` past `nevents` are outside of the allocation and never used. -/
def createWaitEventSetEx (nevents : ℕ) : WaitEventSetEx where
  waitSet := createWaitEventSet nevents
  slots i := i
  head := 0
  tail := 0
  used := 0

def addWaitEventToSetEx (set : WaitEventSetEx) (events : Events) (userData : ℤ) :
    ℤ × WaitEventSetEx :=
  if set.used = set.waitSet.neventsSpace then (-1, set)
  else
    let r := addWaitEventToSet { set.waitSet with nevents := set.slots set.head } events userData
    (r.1, { set with
      waitSet := { r.2 with nevents := set.used + 1 }
      head := (set.head + 1) % set.waitSet.neventsSpace
      used := set.used + 1 })

def nextWaitEventPos (set : WaitEventSetEx) : ℤ :=
  if set.used = set.waitSet.neventsSpace then -1 else set.slots set.head

def modifyWaitEventEx (set : WaitEventSetEx) (pos : ℤ) (events : Events) : WaitEventSetEx :=
  { set with waitSet := modifyWaitEvent set.waitSet pos events }

def deleteWaitEventEx (set : WaitEventSetEx) (pos : ℤ) : WaitEventSetEx :=
  { set with
    waitSet := { set.waitSet with
      polled := Function.update set.waitSet.polled pos false
      nevents := (set.used : ℤ) - 1 }
    slots := Function.update set.slots set.tail pos
    tail := (set.tail + 1) % set.waitSet.neventsSpace
    used := set.used - 1 }

namespace WaitEventSetEx

variable (set : WaitEventSetEx)

/-- The ring of unused positions. -/
def free : RingBuf ℤ :=
  ⟨set.slots, set.head, set.tail, set.waitSet.neventsSpace - set.used⟩

/-- The unused positions, the next one first. -/
def freeList : List ℤ := set.free.toList set.waitSet.neventsSpace

/-- Every position is either registered or exactly once among the unused ones. -/
structure Wf : Prop where
  used_le : set.used ≤ set.waitSet.neventsSpace
  ring : set.free.Wf set.waitSet.neventsSpace
  nodup : set.freeList.Nodup
  range : ∀ p ∈ set.freeList, 0 ≤ p ∧ p < set.waitSet.neventsSpace
  nevents : set.waitSet.nevents = set.used
  polled_iff : ∀ p, set.waitSet.polled p ↔
    (0 ≤ p ∧ p < set.waitSet.neventsSpace) ∧ p ∉ set.freeList
  pos : ∀ p, set.waitSet.polled p → (set.waitSet.events p).pos = p

end WaitEventSetEx

variable {set : WaitEventSetEx} {pos : ℤ} {events : Events} {ud : ℤ}

theorem create_freeList (n : ℕ) :
    (createWaitEventSetEx n).freeList = (List.range n).map fun (k : ℕ) => (k : ℤ) := by
  simp only [WaitEventSetEx.freeList, WaitEventSetEx.free, RingBuf.toList, createWaitEventSetEx,
    createWaitEventSet, Nat.sub_zero, Nat.zero_add]
  refine List.map_congr_left fun k hk => ?_
  rw [Nat.mod_eq_of_lt (List.mem_range.1 hk)]

theorem create_wf {n : ℕ} (hn : 0 < n) : (createWaitEventSetEx n).Wf where
  used_le := Nat.zero_le _
  ring := ⟨hn, by simp [WaitEventSetEx.free, createWaitEventSetEx, createWaitEventSet]⟩
  nodup := by
    rw [create_freeList]
    exact List.nodup_range.map fun _ _ h => by simpa using h
  range p hp := by
    rw [create_freeList] at hp
    obtain ⟨k, hk, rfl⟩ := List.mem_map.1 hp
    simp only [createWaitEventSetEx, createWaitEventSet]
    rw [List.mem_range] at hk
    omega
  nevents := rfl
  polled_iff p := by
    rw [create_freeList]
    simp only [createWaitEventSetEx, createWaitEventSet, Bool.false_eq_true, false_iff, not_and,
      not_not, List.mem_map, List.mem_range, and_imp]
    exact fun h0 h1 => ⟨p.toNat, by omega, by omega⟩
  pos p hp := by simp [createWaitEventSetEx, createWaitEventSet] at hp

theorem next_of_full (h : set.used = set.waitSet.neventsSpace) : nextWaitEventPos set = -1 := by
  simp [nextWaitEventPos, h]

/-- An add to a full set fails. -/
theorem add_of_full (h : set.used = set.waitSet.neventsSpace) :
    addWaitEventToSetEx set events ud = (-1, set) := by simp [addWaitEventToSetEx, h]

/-! ## What each operation does to the kernel's side -/

theorem add_fst (h : set.used ≠ set.waitSet.neventsSpace) :
    (addWaitEventToSetEx set events ud).1 = nextWaitEventPos set := by
  simp [addWaitEventToSetEx, h, addWaitEventToSet, nextWaitEventPos]

theorem add_polled (h : set.used ≠ set.waitSet.neventsSpace) :
    (addWaitEventToSetEx set events ud).2.waitSet.polled =
      Function.update set.waitSet.polled (nextWaitEventPos set) true := by
  simp [addWaitEventToSetEx, h, addWaitEventToSet, nextWaitEventPos]

theorem add_events (h : set.used ≠ set.waitSet.neventsSpace) :
    (addWaitEventToSetEx set events ud).2.waitSet.events =
      Function.update set.waitSet.events (nextWaitEventPos set)
        ⟨nextWaitEventPos set, events, ud⟩ := by
  simp [addWaitEventToSetEx, h, addWaitEventToSet, nextWaitEventPos]

@[simp] theorem add_space : (addWaitEventToSetEx set events ud).2.waitSet.neventsSpace =
    set.waitSet.neventsSpace := by
  by_cases h : set.used = set.waitSet.neventsSpace <;>
    simp [addWaitEventToSetEx, h, addWaitEventToSet]

@[simp] theorem delete_polled : (deleteWaitEventEx set pos).waitSet.polled =
    Function.update set.waitSet.polled pos false := rfl

@[simp] theorem delete_events : (deleteWaitEventEx set pos).waitSet.events = set.waitSet.events :=
  rfl

@[simp] theorem delete_space : (deleteWaitEventEx set pos).waitSet.neventsSpace =
    set.waitSet.neventsSpace := rfl

@[simp] theorem modify_polled :
    (modifyWaitEventEx set pos events).waitSet.polled = set.waitSet.polled := rfl

@[simp] theorem modify_space : (modifyWaitEventEx set pos events).waitSet.neventsSpace =
    set.waitSet.neventsSpace := rfl

@[simp] theorem modify_used : (modifyWaitEventEx set pos events).used = set.used := rfl

@[simp] theorem modify_next :
    nextWaitEventPos (modifyWaitEventEx set pos events) = nextWaitEventPos set := rfl

@[simp] theorem modify_freeList : (modifyWaitEventEx set pos events).freeList = set.freeList := rfl

theorem modify_events (p : ℤ) : (modifyWaitEventEx set pos events).waitSet.events p =
    if p = pos then { set.waitSet.events pos with events := events }
    else set.waitSet.events p := by
  simp [modifyWaitEventEx, modifyWaitEvent, Function.update_apply]

namespace WaitEventSetEx.Wf

/-- The next position heads the unused ones. -/
theorem freeList_cons (hs : set.Wf) (h : set.used ≠ set.waitSet.neventsSpace) :
    set.freeList = nextWaitEventPos set ::
      (addWaitEventToSetEx set events ud).2.freeList := by
  have hle := hs.used_le
  have hpos : 0 < set.free.size := by simp only [free]; omega
  rw [freeList, RingBuf.toList_pop hs.ring hpos]
  simp only [nextWaitEventPos, h, if_false, RingBuf.front, addWaitEventToSetEx, freeList, free,
    RingBuf.pop, addWaitEventToSet, Nat.sub_sub]

theorem next_mem (hs : set.Wf) (h : set.used ≠ set.waitSet.neventsSpace) :
    nextWaitEventPos set ∈ set.freeList := by
  have hc : set.freeList = nextWaitEventPos set :: (addWaitEventToSetEx set {} 0).2.freeList :=
    hs.freeList_cons h
  rw [hc]; exact List.mem_cons_self

/-- The next position is in range and not registered. -/
theorem next (hs : set.Wf) (h : set.used ≠ set.waitSet.neventsSpace) :
    0 ≤ nextWaitEventPos set ∧ nextWaitEventPos set < set.waitSet.neventsSpace ∧
      ¬ set.waitSet.polled (nextWaitEventPos set) := by
  have hmem := hs.next_mem h
  obtain ⟨h0, h1⟩ := hs.range _ hmem
  exact ⟨h0, h1, fun hp => ((hs.polled_iff _).1 hp).2 hmem⟩

/-- **Adding** uses the next position and keeps the set well-formed. -/
theorem add (hs : set.Wf) (h : set.used ≠ set.waitSet.neventsSpace) :
    (addWaitEventToSetEx set events ud).2.Wf := by
  have hle := hs.used_le
  have hc : set.freeList = nextWaitEventPos set :: (addWaitEventToSetEx set events ud).2.freeList :=
    hs.freeList_cons h
  have hnd := hs.nodup
  have hr := hs.range
  have hp := hs.polled_iff
  rw [hc] at hnd hr hp
  refine ⟨?_, ?_, hnd.of_cons, ?_, ?_, ?_, ?_⟩
  · rw [add_space]; simp only [addWaitEventToSetEx, h, if_false]; omega
  · have := hs.ring.pop (by simp only [free]; omega)
    simpa [addWaitEventToSetEx, h, addWaitEventToSet, free, RingBuf.pop, Nat.sub_sub] using this
  · rw [add_space]; exact fun p hp => hr p (List.mem_cons_of_mem _ hp)
  · simp [addWaitEventToSetEx, h]
  · intro p
    rw [add_space, add_polled h]
    by_cases hpn : p = nextWaitEventPos set
    · subst hpn
      simpa using ⟨hr _ List.mem_cons_self, (List.nodup_cons.1 hnd).1⟩
    · rw [Function.update_of_ne hpn, hp p]
      simp [hpn]
  · intro p hpp
    rw [add_polled h] at hpp
    rw [add_events h]
    by_cases hpn : p = nextWaitEventPos set
    · simp [hpn]
    · rw [Function.update_of_ne hpn] at hpp ⊢
      exact hs.pos p hpp

/-- **Deleting** a registered position appends it to the unused ones. -/
theorem delete (hs : set.Wf) (hpos : set.waitSet.polled pos) :
    (deleteWaitEventEx set pos).freeList = set.freeList ++ [pos] ∧
      (deleteWaitEventEx set pos).Wf := by
  obtain ⟨hrange, hnot⟩ := (hs.polled_iff pos).1 hpos
  have hle := hs.used_le
  have hn := hs.ring.pos
  -- a registered position is not on the ring, so the ring is not full
  have hlt : 0 < set.used := by
    by_contra h0
    have hlen : set.freeList.length = set.waitSet.neventsSpace := by
      simp only [freeList, RingBuf.length_toList, free]; omega
    have hsub : set.freeList.toFinset ⊆
        (Finset.Ico (0 : ℤ) set.waitSet.neventsSpace).erase pos := by
      intro p hp
      have hp' := List.mem_toFinset.1 hp
      have := hs.range p hp'
      simp only [Finset.mem_erase, Finset.mem_Ico]
      exact ⟨fun h => hnot (h ▸ hp'), this⟩
    have hcard := Finset.card_le_card hsub
    rw [List.toFinset_card_of_nodup hs.nodup, Finset.card_erase_of_mem (by simpa using hrange),
      Int.card_Ico] at hcard
    omega
  have hfree : (deleteWaitEventEx set pos).free = set.free.push set.waitSet.neventsSpace pos := by
    simp only [free, deleteWaitEventEx, RingBuf.push, RingBuf.mk.injEq, true_and]; omega
  have hlist : (deleteWaitEventEx set pos).freeList = set.freeList ++ [pos] := by
    have hfull : set.free.size < set.waitSet.neventsSpace := by simp only [free]; omega
    rw [freeList, hfree]
    exact RingBuf.toList_push hs.ring hfull
  refine ⟨hlist, ?_, ?_, ?_, ?_, ?_, ?_, ?_⟩
  · change set.used - 1 ≤ set.waitSet.neventsSpace; omega
  · rw [hfree]; exact hs.ring.push pos
  · rw [hlist]
    exact hs.nodup.append (by simp) (by simpa using hnot)
  · intro p hp
    rw [hlist, List.mem_append, List.mem_singleton] at hp
    rcases hp with hp | rfl
    exacts [hs.range p hp, hrange]
  · change (set.used : ℤ) - 1 = (set.used - 1 : ℕ); omega
  · intro p
    rw [hlist]
    simp only [deleteWaitEventEx, List.mem_append, List.mem_singleton, not_or]
    by_cases hp : p = pos
    · simp [hp]
    · rw [Function.update_of_ne hp, hs.polled_iff p]; simp [hp]
  · intro p hpp
    simp only [deleteWaitEventEx] at hpp ⊢
    by_cases hp : p = pos
    · simp [hp] at hpp
    · rw [Function.update_of_ne hp] at hpp; exact hs.pos p hpp

theorem modify (hs : set.Wf) : (modifyWaitEventEx set pos events).Wf where
  used_le := hs.used_le
  ring := hs.ring
  nodup := hs.nodup
  range := hs.range
  nevents := hs.nevents
  polled_iff := hs.polled_iff
  pos p hp := by
    rw [modify_events]
    by_cases h : p = pos
    · subst h; simpa using hs.pos p hp
    · rw [if_neg h]; exact hs.pos p hp

end WaitEventSetEx.Wf

end Rustica
