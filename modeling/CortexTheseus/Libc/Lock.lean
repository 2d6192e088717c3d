import CortexTheseus.Schedule
import Mathlib.Data.List.Basic

/-!
# The `___lock` emulation

`___lock(p)` and `___unlock(p)` (libc_musl.go:543-580) for one address `p`: each atomic add,
each section under `locksMu` and each `sync.Mutex` operation is one step. Other addresses
touch neither `*p` nor `locks[p]`. The counter is an integer, bounded by the number of
threads (`Invariant.counter_le_length`).
-/

namespace CortexTheseus.Libc

/-- Where a thread is in `___lock(p)` and `___unlock(p)`. -/
inductive LockPc
  /-- in neither, and not holding `p` -/
  | idle
  /-- added 1 to `*p` without getting 1: about to take `locksMu` -/
  | slow
  /-- counted as a waiter of the `lock` object `m`: blocked in `l.Lock()` -/
  | waiting (m : Nat)
  /-- `___lock(p)` has returned -/
  | holding
  /-- added -1 to `*p` without getting 0: about to take `locksMu` -/
  | unlocking
  deriving DecidableEq, Repr

/-- A `lock` object: whether its `sync.Mutex` is locked, and `waiters`. -/
structure Mutex where
  locked : Bool
  waiters : Int
  deriving DecidableEq, Repr

/-- The shared state for one address `p`. -/
structure LockState where
  /-- the counter `*p` -/
  counter : Int
  /-- `locks[p]`, the index of the stored `lock` object, if any -/
  locks : Option Nat
  /-- every `lock` object allocated for `p`, in allocation order -/
  mutexes : List Mutex
  threads : List LockPc
  /-- some `Unlock` found its `sync.Mutex` unlocked, a fatal error in Go -/
  fatal : Bool
  deriving DecidableEq, Repr

/-- `n` threads and `*p = 0`. -/
def lockInit (n : Nat) : LockState := ⟨0, none, [], List.replicate n .idle, false⟩

/-- The atomic steps of thread `k`. -/
inductive LockAction
  /-- `atomic.AddInt32(p, 1)` in `___lock` -/
  | lockAdd (k : Nat)
  /-- the `locksMu` section of `___lock` -/
  | lockRegister (k : Nat)
  /-- `l.Lock()` in `___lock` returns -/
  | lockAcquire (k : Nat)
  /-- `atomic.AddInt32(p, -1)` in `___unlock` -/
  | unlockAdd (k : Nat)
  /-- the `locksMu` section of `___unlock` -/
  | unlockRelease (k : Nat)
  deriving DecidableEq, Repr

/-- One step; `none` when thread `k` is not at that step or is blocked. -/
def lockStep (s : LockState) : LockAction → Option LockState
  | .lockAdd k =>
      if s.threads[k]? = some .idle then
        let c := s.counter + 1
        some { s with counter := c, threads := s.threads.set k (if c = 1 then .holding else .slow) }
      else none
  | .lockRegister k =>
      if s.threads[k]? = some .slow then
        match s.locks with
        | some m =>
            match s.mutexes[m]? with
            | some l =>
                some { s with mutexes := s.mutexes.set m { l with waiters := l.waiters + 1 },
                              threads := s.threads.set k (.waiting m) }
            | none => none
        | none =>
            some { s with locks := some s.mutexes.length, mutexes := s.mutexes ++ [⟨true, 1⟩],
                          threads := s.threads.set k (.waiting s.mutexes.length) }
      else none
  | .lockAcquire k =>
      match s.threads[k]? with
      | some (.waiting m) =>
          match s.mutexes[m]? with
          | some l =>
              if l.locked then none
              else some { s with mutexes := s.mutexes.set m { l with locked := true },
                                 threads := s.threads.set k .holding }
          | none => none
      | _ => none
  | .unlockAdd k =>
      if s.threads[k]? = some .holding then
        let c := s.counter - 1
        some { s with counter := c, threads := s.threads.set k (if c = 0 then .idle else .unlocking) }
      else none
  | .unlockRelease k =>
      if s.threads[k]? = some .unlocking then
        match s.locks with
        | some m =>
            match s.mutexes[m]? with
            | some l =>
                if l.locked then
                  let w := l.waiters - 1
                  some { s with locks := if w = 0 then none else some m,
                                mutexes := s.mutexes.set m ⟨false, w⟩,
                                threads := s.threads.set k .idle }
                else some { s with fatal := true }
            | none => none
        | none =>
            -- `l = &lock{waiters: 1}; l.Lock(); l.Unlock(); l.waiters--`: never stored
            some { s with mutexes := s.mutexes ++ [⟨false, 0⟩], threads := s.threads.set k .idle }
      else none

theorem lockStep_cases {s s' : LockState} {a : LockAction} (h : lockStep s a = some s') :
    (∃ k, s.threads[k]? = some .idle ∧
      s' = ⟨s.counter + 1, s.locks, s.mutexes,
        s.threads.set k (if s.counter + 1 = 1 then .holding else .slow), s.fatal⟩) ∨
    (∃ k m l, s.threads[k]? = some .slow ∧ s.locks = some m ∧ s.mutexes[m]? = some l ∧
      s' = ⟨s.counter, s.locks, s.mutexes.set m { l with waiters := l.waiters + 1 },
        s.threads.set k (.waiting m), s.fatal⟩) ∨
    (∃ k, s.threads[k]? = some .slow ∧ s.locks = none ∧
      s' = ⟨s.counter, some s.mutexes.length, s.mutexes ++ [⟨true, 1⟩],
        s.threads.set k (.waiting s.mutexes.length), s.fatal⟩) ∨
    (∃ k m l, s.threads[k]? = some (.waiting m) ∧ s.mutexes[m]? = some l ∧ l.locked = false ∧
      s' = ⟨s.counter, s.locks, s.mutexes.set m { l with locked := true },
        s.threads.set k .holding, s.fatal⟩) ∨
    (∃ k, s.threads[k]? = some .holding ∧
      s' = ⟨s.counter - 1, s.locks, s.mutexes,
        s.threads.set k (if s.counter - 1 = 0 then .idle else .unlocking), s.fatal⟩) ∨
    (∃ k m l, s.threads[k]? = some .unlocking ∧ s.locks = some m ∧ s.mutexes[m]? = some l ∧
      (l.locked = true ∧ s' = ⟨s.counter, if l.waiters - 1 = 0 then none else some m,
          s.mutexes.set m ⟨false, l.waiters - 1⟩, s.threads.set k .idle, s.fatal⟩ ∨
        l.locked = false ∧ s' = { s with fatal := true })) ∨
    (∃ k, s.threads[k]? = some .unlocking ∧ s.locks = none ∧
      s' = ⟨s.counter, s.locks, s.mutexes ++ [⟨false, 0⟩], s.threads.set k .idle, s.fatal⟩) := by
  cases a with
  | lockAdd k =>
      simp only [lockStep] at h
      split at h
      · exact .inl ⟨k, ‹_›, (Option.some.inj h).symm⟩
      · cases h
  | lockRegister k =>
      simp only [lockStep] at h
      split at h
      · split at h
        · split at h
          · exact .inr (.inl ⟨k, _, _, ‹_›, ‹_›, ‹_›, (Option.some.inj h).symm⟩)
          · cases h
        · exact .inr (.inr (.inl ⟨k, ‹_›, ‹_›, (Option.some.inj h).symm⟩))
      · cases h
  | lockAcquire k =>
      simp only [lockStep] at h
      split at h
      · split at h
        · split at h
          · cases h
          · exact .inr (.inr (.inr (.inl ⟨k, _, _, ‹_›, ‹_›, Bool.eq_false_iff.mpr ‹¬_›,
              (Option.some.inj h).symm⟩)))
        · cases h
      · cases h
  | unlockAdd k =>
      simp only [lockStep] at h
      split at h
      · exact .inr (.inr (.inr (.inr (.inl ⟨k, ‹_›, (Option.some.inj h).symm⟩))))
      · cases h
  | unlockRelease k =>
      simp only [lockStep] at h
      split at h
      · split at h
        · split at h
          · split at h
            · exact .inr (.inr (.inr (.inr (.inr (.inl ⟨k, _, _, ‹_›, ‹_›, ‹_›,
                .inl ⟨‹_›, (Option.some.inj h).symm⟩⟩)))))
            · exact .inr (.inr (.inr (.inr (.inr (.inl ⟨k, _, _, ‹_›, ‹_›, ‹_›,
                .inr ⟨Bool.eq_false_iff.mpr ‹¬_›, (Option.some.inj h).symm⟩⟩)))))
          · cases h
        · exact .inr (.inr (.inr (.inr (.inr (.inr ⟨k, ‹_›, ‹_›, (Option.some.inj h).symm⟩)))))
      · cases h

/-! ### Counting threads -/

/-- The threads whose `+1` on `*p` has not been undone by their `-1`. -/
def LockPc.counted : LockPc → Bool
  | .slow | .waiting _ | .holding => true
  | .idle | .unlocking => false

namespace LockState

/-- The number of threads blocked on the `lock` object `m`. -/
def waitingOn (s : LockState) (m : Nat) : Nat := s.threads.count (.waiting m)

/-- The `lock` object `m` is unlocked and a thread is blocked on it, so that thread's
`l.Lock()` can return: `p` is being handed to it. -/
def Ready (s : LockState) (m : Nat) : Prop :=
  ∃ l, s.mutexes[m]? = some l ∧ l.locked = false ∧ 0 < s.waitingOn m

/-- What holds in every reachable state. Whoever may next enter the critical section is
one of: the holder, a thread in `___unlock`'s section, or a thread blocked on an
unlocked `lock` object; at most one of these exists. -/
structure Invariant (s : LockState) : Prop where
  counter_eq : s.counter = s.threads.countP LockPc.counted
  owners : s.threads.count .holding + s.threads.count .unlocking ≤ 1
  ready_owners : ∀ m, s.Ready m → s.threads.count .holding + s.threads.count .unlocking = 0
  ready_unique : ∀ m m', s.Ready m → s.Ready m' → m = m'
  /-- a thread in `___unlock`'s section found `*p` non-zero: another thread is on its way -/
  unlocking_le : s.threads.count .unlocking ≤ s.threads.countP LockPc.counted
  /-- the stored object counts its waiters, minus the one its unlock has released -/
  stored : ∀ m, s.locks = some m → ∃ l, s.mutexes[m]? = some l ∧ 1 ≤ l.waiters ∧
    (s.waitingOn m : Int) = l.waiters + if l.locked then 0 else 1
  /-- an object no longer stored has at most the one thread it was released to -/
  unstored : ∀ m, s.locks ≠ some m → s.waitingOn m = 0 ∨
    (s.waitingOn m = 1 ∧ ∃ l, s.mutexes[m]? = some l ∧ l.locked = false)
  waiting_lt : ∀ m, 0 < s.waitingOn m → m < s.mutexes.length
  no_fatal : s.fatal = false

theorem count_le_counted (s : LockState) (x : LockPc) (hx : x.counted) :
    s.threads.count x ≤ s.threads.countP LockPc.counted :=
  List.countP_mono_left fun y _ hy => by rw [beq_iff_eq.mp hy]; exact hx

theorem waitingOn_le_counted (s : LockState) (m : Nat) :
    s.waitingOn m ≤ s.threads.countP LockPc.counted :=
  s.count_le_counted (.waiting m) rfl

end LockState

theorem count_waiting_set {l : List LockPc} {k : Nat} {p : LockPc} (q : LockPc) (hk : l[k]? = some p)
    (hp : p.counted = false ∨ p = .holding ∨ p = .slow) (hq : q.counted = false ∨ q = .holding ∨ q = .slow)
    (m : Nat) : (l.set k q).count (.waiting m) = l.count (.waiting m) := by
  have := count_set_add q hk (.waiting m)
  have hp' : p ≠ .waiting m := by rintro rfl; simp only [LockPc.counted, reduceCtorEq, Bool.false_eq_true, or_self] at hp
  have hq' : q ≠ .waiting m := by rintro rfl; simp only [LockPc.counted, reduceCtorEq, Bool.false_eq_true, or_self] at hq
  simpa [hp', hq'] using this

namespace LockState.Invariant

variable {s : LockState} {k : Nat}

theorem of_waiting {s' : LockState} (hi : s.Invariant) (hm : s'.mutexes = s.mutexes)
    (hl : s'.locks = s.locks) (hf : s'.fatal = s.fatal) (hw : ∀ m, s'.waitingOn m = s.waitingOn m)
    (hce : s'.counter = s'.threads.countP LockPc.counted)
    (ho : s'.threads.count .holding + s'.threads.count .unlocking ≤ 1)
    (hro : ∀ m, s.Ready m → s'.threads.count .holding + s'.threads.count .unlocking = 0)
    (hul : s'.threads.count .unlocking ≤ s'.threads.countP LockPc.counted) : s'.Invariant := by
  have hready (m : Nat) : s'.Ready m ↔ s.Ready m := by simp only [Ready, hm, hw]
  refine ⟨hce, ho, fun m h => hro m ((hready m).mp h),
    fun m m' h h' => hi.ready_unique m m' ((hready m).mp h) ((hready m').mp h'), hul,
    fun m h => ?_, fun m h => ?_, fun m h => ?_, hf ▸ hi.no_fatal⟩
  · simpa only [hm, hw] using hi.stored m (hl ▸ h)
  · simpa only [hm, hw] using hi.unstored m (hl ▸ h)
  · exact hm ▸ hi.waiting_lt m (hw m ▸ h)

theorem lockAdd_fast (hi : s.Invariant) (hk : s.threads[k]? = some .idle) (h0 : s.counter = 0) :
    Invariant { s with counter := s.counter + 1, threads := s.threads.set k .holding } := by
  have hC := countP_set_add LockPc.counted .holding hk
  have hH := count_set_add .holding hk .holding
  have hU := count_set_add .holding hk .unlocking
  simp only [LockPc.counted, reduceCtorEq, LockPc.waiting.injEq, if_false, if_true, Bool.false_eq_true, Nat.add_zero] at hC hH hU
  have hc := hi.counter_eq
  have hH0 := s.count_le_counted .holding rfl
  have hU0 := hi.unlocking_le
  refine hi.of_waiting rfl rfl rfl (fun m => count_waiting_set _ hk (.inl rfl) (.inr (.inl rfl)) m)
    (by simp only; omega) (by simp only; omega) (fun m ⟨_, _, _, hw⟩ => ?_) (by simp only; omega)
  have := s.waitingOn_le_counted m
  omega

theorem lockAdd_slow (hi : s.Invariant) (hk : s.threads[k]? = some .idle) :
    Invariant { s with counter := s.counter + 1, threads := s.threads.set k .slow } := by
  have hC := countP_set_add LockPc.counted .slow hk
  have hH := count_set_add .slow hk .holding
  have hU := count_set_add .slow hk .unlocking
  simp only [LockPc.counted, reduceCtorEq, LockPc.waiting.injEq, if_false, if_true, Bool.false_eq_true, Nat.add_zero] at hC hH hU
  have hc := hi.counter_eq
  have ho := hi.owners
  have hU0 := hi.unlocking_le
  refine hi.of_waiting rfl rfl rfl (fun m => count_waiting_set _ hk (.inl rfl) (.inr (.inr rfl)) m)
    (by simp only; omega) (by simp only; omega) (fun m hm => ?_) (by simp only; omega)
  have := hi.ready_owners m hm
  simp only
  omega

theorem unlockAdd (hi : s.Invariant) (hk : s.threads[k]? = some .holding) :
    Invariant { s with counter := s.counter - 1,
                       threads := s.threads.set k (if s.counter - 1 = 0 then .idle else .unlocking) } := by
  have hH1 : 1 ≤ s.threads.count .holding :=
    List.count_pos_iff.mpr (List.mem_iff_getElem?.mpr ⟨k, hk⟩)
  have hc := hi.counter_eq
  have ho := hi.owners
  by_cases hz : s.counter - 1 = 0
  · simp only [hz, if_true]
    have hC := countP_set_add LockPc.counted .idle hk
    have hH := count_set_add .idle hk .holding
    have hU := count_set_add .idle hk .unlocking
    simp only [LockPc.counted, reduceCtorEq, LockPc.waiting.injEq, if_false, if_true, Bool.false_eq_true, Nat.add_zero] at hC hH hU
    refine hi.of_waiting rfl rfl rfl (count_waiting_set .idle hk (.inr (.inl rfl)) (.inl rfl))
      (by simp only; omega) (by simp only; omega) (fun m hm => ?_) (by simp only; omega)
    have := hi.ready_owners m hm
    omega
  · simp only [hz, if_false]
    have hC := countP_set_add LockPc.counted .unlocking hk
    have hH := count_set_add .unlocking hk .holding
    have hU := count_set_add .unlocking hk .unlocking
    simp only [LockPc.counted, reduceCtorEq, LockPc.waiting.injEq, if_false, if_true, Bool.false_eq_true, Nat.add_zero] at hC hH hU
    refine hi.of_waiting rfl rfl rfl (count_waiting_set .unlocking hk (.inr (.inl rfl)) (.inl rfl))
      (by simp only; omega) (by simp only; omega) (fun m hm => ?_) (by simp only; omega)
    have := hi.ready_owners m hm
    omega

theorem stored_locked (hi : s.Invariant) (hk : s.threads[k]? = some .unlocking) {m : Nat}
    {l : Mutex} (hm : s.locks = some m) (hl : s.mutexes[m]? = some l) : l.locked = true := by
  obtain ⟨l', hl', hw, he⟩ := hi.stored m hm
  rw [hl] at hl'
  cases hl'
  by_contra hu
  have hU : 1 ≤ s.threads.count .unlocking :=
    List.count_pos_iff.mpr (List.mem_iff_getElem?.mpr ⟨k, hk⟩)
  have := hi.ready_owners m ⟨l, hl, by simpa using hu, by simp only [hu] at he; omega⟩
  omega

theorem lockRegister_stored (hi : s.Invariant) (hk : s.threads[k]? = some .slow) {m : Nat}
    {l : Mutex} (hm : s.locks = some m) (hl : s.mutexes[m]? = some l) :
    Invariant { s with mutexes := s.mutexes.set m { l with waiters := l.waiters + 1 },
                       threads := s.threads.set k (.waiting m) } := by
  have hlt : m < s.mutexes.length := (List.getElem?_eq_some_iff.mp hl).1
  have hC := countP_set_add LockPc.counted (.waiting m) hk
  have hH := count_set_add (.waiting m) hk .holding
  have hU := count_set_add (.waiting m) hk .unlocking
  have hW (m' : Nat) := count_set_add (.waiting m) hk (.waiting m')
  simp only [LockPc.counted, reduceCtorEq, LockPc.waiting.injEq, if_false, if_true, Bool.false_eq_true, Nat.add_zero] at hC hH hU hW
  obtain ⟨l', hl', hw1, hwe⟩ := hi.stored m hm
  rw [hl] at hl'
  cases hl'
  have hmut (m' : Nat) : (s.mutexes.set m { l with waiters := l.waiters + 1 })[m']? =
      if m = m' then some { l with waiters := l.waiters + 1 } else s.mutexes[m']? :=
    getElem?_set_of_getElem? hl
  have hready (m' : Nat) : Ready ⟨s.counter, s.locks, s.mutexes.set m { l with waiters := l.waiters + 1 },
      s.threads.set k (.waiting m), s.fatal⟩ m' ↔ s.Ready m' := by
    simp only [Ready, waitingOn, hmut, hW]
    by_cases he : m = m'
    · subst he
      simp only [if_true, Option.some.injEq, exists_eq_left', hl]
      constructor <;> rintro ⟨hu, -⟩ <;> refine ⟨hu, ?_⟩ <;> simp only [waitingOn, hu] at hwe <;> omega
    · simp [he]
  refine ⟨by simp only; rw [hi.counter_eq]; omega, by simp only; have := hi.owners; omega,
    fun m' h => by simp only; have := hi.ready_owners m' ((hready m').mp h); omega,
    fun m' m'' h h' => hi.ready_unique m' m'' ((hready m').mp h) ((hready m'').mp h'),
    by simp only; have := hi.unlocking_le; omega, fun m' h => ?_, fun m' h => ?_, fun m' h => ?_,
    hi.no_fatal⟩
  · simp only [hm, Option.some.injEq] at h
    subst h
    refine ⟨{ l with waiters := l.waiters + 1 }, by simp [hmut], by simp only; omega, ?_⟩
    simp only [waitingOn, hW, if_true] at hwe ⊢
    push_cast
    omega
  · have hne : m ≠ m' := fun he => h (he ▸ hm)
    simpa only [waitingOn, hW, hmut, hne, if_false, Nat.add_zero] using hi.unstored m' (hm ▸ h)
  · simp only [List.length_set]
    by_cases he : m = m'
    · exact he ▸ hlt
    · exact hi.waiting_lt m' (by simpa only [waitingOn, hW, he, if_false, Nat.add_zero] using h)

theorem lockRegister_fresh (hi : s.Invariant) (hk : s.threads[k]? = some .slow) (hm : s.locks = none) :
    Invariant { s with locks := some s.mutexes.length, mutexes := s.mutexes ++ [⟨true, 1⟩],
                       threads := s.threads.set k (.waiting s.mutexes.length) } := by
  have hC := countP_set_add LockPc.counted (.waiting s.mutexes.length) hk
  have hH := count_set_add (.waiting s.mutexes.length) hk .holding
  have hU := count_set_add (.waiting s.mutexes.length) hk .unlocking
  have hW (m' : Nat) := count_set_add (.waiting s.mutexes.length) hk (.waiting m')
  simp only [LockPc.counted, reduceCtorEq, LockPc.waiting.injEq, if_false, if_true, Bool.false_eq_true, Nat.add_zero] at hC hH hU hW
  have hfree : s.waitingOn s.mutexes.length = 0 := by
    by_contra h
    exact Nat.lt_irrefl _ (hi.waiting_lt _ (Nat.pos_of_ne_zero h))
  have hmut (m' : Nat) (h : m' ≠ s.mutexes.length) :
      (s.mutexes ++ [⟨true, 1⟩])[m']? = s.mutexes[m']? := by
    rcases Nat.lt_or_gt_of_ne h with h | h
    · exact List.getElem?_append_left h
    · rw [List.getElem?_eq_none (by simp only [List.length_append, List.length_singleton]; omega),
        List.getElem?_eq_none (by omega)]
  have hready (m' : Nat) : Ready ⟨s.counter, some s.mutexes.length, s.mutexes ++ [⟨true, 1⟩],
      s.threads.set k (.waiting s.mutexes.length), s.fatal⟩ m' ↔ s.Ready m' := by
    by_cases he : m' = s.mutexes.length
    · subst he
      constructor
      · rintro ⟨l, hl, hu, -⟩
        simp at hl
        rw [← hl] at hu
        cases hu
      · rintro ⟨l, hl, -⟩
        simp [List.getElem?_eq_none] at hl
    · simp only [Ready, waitingOn, hmut m' he, hW, Ne.symm he, if_false, Nat.add_zero]
  refine ⟨by simp only; rw [hi.counter_eq]; omega, by simp only; have := hi.owners; omega,
    fun m' h => by simp only; have := hi.ready_owners m' ((hready m').mp h); omega,
    fun m' m'' h h' => hi.ready_unique m' m'' ((hready m').mp h) ((hready m'').mp h'),
    by simp only; have := hi.unlocking_le; omega, fun m' h => ?_, fun m' h => ?_, fun m' h => ?_,
    hi.no_fatal⟩
  · simp only [Option.some.injEq] at h
    subst h
    refine ⟨⟨true, 1⟩, by simp, by decide, ?_⟩
    simp only [waitingOn, hW, if_true, hfree]
    unfold waitingOn at hfree
    simp [hfree]
  · have hne : m' ≠ s.mutexes.length := fun he => h (he ▸ rfl)
    have := hi.unstored m' (by simp [hm])
    simpa only [waitingOn, hW, hmut m' hne, Ne.symm hne, if_false, Nat.add_zero] using this
  · simp only [List.length_append, List.length_singleton]
    by_cases he : s.mutexes.length = m'
    · omega
    · have := hi.waiting_lt m' (by simpa only [waitingOn, hW, he, if_false, Nat.add_zero] using h)
      omega

theorem lockAcquire (hi : s.Invariant) {m : Nat} (hk : s.threads[k]? = some (.waiting m)) {l : Mutex}
    (hl : s.mutexes[m]? = some l) (hu : l.locked = false) :
    Invariant { s with mutexes := s.mutexes.set m { l with locked := true },
                       threads := s.threads.set k .holding } := by
  have hlt : m < s.mutexes.length := (List.getElem?_eq_some_iff.mp hl).1
  have hC := countP_set_add LockPc.counted .holding hk
  have hH := count_set_add .holding hk .holding
  have hU := count_set_add .holding hk .unlocking
  have hWm : (s.threads.set k .holding).count (.waiting m) + 1 = s.waitingOn m := by
    simpa using count_set_add .holding hk (.waiting m)
  have hWo (m' : Nat) (he : m ≠ m') : (s.threads.set k .holding).count (.waiting m') = s.waitingOn m' := by
    simpa [he] using count_set_add .holding hk (.waiting m')
  simp only [LockPc.counted, reduceCtorEq, LockPc.waiting.injEq, if_false, if_true, Bool.false_eq_true, Nat.add_zero] at hC hH hU
  have hrm : s.Ready m := ⟨l, hl, hu, by omega⟩
  have h0 := hi.ready_owners m hrm
  have hmut (m' : Nat) : (s.mutexes.set m { l with locked := true })[m']? =
      if m = m' then some { l with locked := true } else s.mutexes[m']? :=
    getElem?_set_of_getElem? hl
  have hnr (m' : Nat) : ¬ Ready ⟨s.counter, s.locks, s.mutexes.set m { l with locked := true },
      s.threads.set k .holding, s.fatal⟩ m' := by
    rintro ⟨l', hl', hu', hw'⟩
    by_cases he : m = m'
    · subst he
      simp [hmut] at hl'
      rw [← hl'] at hu'
      cases hu'
    · simp only [hmut, he, if_false, waitingOn, hWo m' he] at hl' hw'
      exact he (hi.ready_unique m m' hrm ⟨l', hl', hu', hw'⟩)
  refine ⟨by simp only; rw [hi.counter_eq]; omega, by simp only; omega,
    fun m' h => absurd h (hnr m'), fun m' _ h => absurd h (hnr m'),
    by simp only; have := hi.unlocking_le; omega, fun m' h => ?_, fun m' h => ?_, fun m' h => ?_,
    hi.no_fatal⟩
  · obtain ⟨l', hl', hw1, hwe⟩ := hi.stored m' h
    by_cases he : m = m'
    · subst he
      rw [hl] at hl'
      cases hl'
      refine ⟨{ l with locked := true }, by simp [hmut], hw1, ?_⟩
      simp only [hu, Bool.false_eq_true, if_false] at hwe
      simp only [waitingOn, if_true]
      omega
    · refine ⟨l', by simp only [hmut, he, if_false, hl'], hw1, ?_⟩
      simp only [waitingOn, hWo m' he]
      exact hwe
  · by_cases he : m = m'
    · subst he
      left
      rcases hi.unstored m h with h1 | ⟨h1, -⟩ <;> simp only [waitingOn] <;> omega
    · simpa only [waitingOn, hWo m' he, hmut, he, if_false] using hi.unstored m' h
  · simp only [List.length_set]
    by_cases he : m = m'
    · exact he ▸ hlt
    · exact hi.waiting_lt m' (by simpa only [waitingOn, hWo m' he] using h)

theorem unlockRelease_stored (hi : s.Invariant) (hk : s.threads[k]? = some .unlocking) {m : Nat}
    {l : Mutex} (hm : s.locks = some m) (hl : s.mutexes[m]? = some l) :
    Invariant { s with locks := if l.waiters - 1 = 0 then none else some m,
                       mutexes := s.mutexes.set m ⟨false, l.waiters - 1⟩,
                       threads := s.threads.set k .idle } := by
  have hlt : m < s.mutexes.length := (List.getElem?_eq_some_iff.mp hl).1
  have hlk := hi.stored_locked hk hm hl
  have hC := countP_set_add LockPc.counted .idle hk
  have hH := count_set_add .idle hk .holding
  have hU := count_set_add .idle hk .unlocking
  have hW (m' : Nat) := count_set_add .idle hk (.waiting m')
  simp only [LockPc.counted, reduceCtorEq, LockPc.waiting.injEq, if_false, if_true, Bool.false_eq_true, Nat.add_zero] at hC hH hU hW
  have hU1 : 1 ≤ s.threads.count .unlocking :=
    List.count_pos_iff.mpr (List.mem_iff_getElem?.mpr ⟨k, hk⟩)
  have ho := hi.owners
  obtain ⟨l', hl', hw1, hwe⟩ := hi.stored m hm
  rw [hl] at hl'
  cases hl'
  simp only [hlk, if_true] at hwe
  have hmut (m' : Nat) : (s.mutexes.set m ⟨false, l.waiters - 1⟩)[m']? =
      if m = m' then some ⟨false, l.waiters - 1⟩ else s.mutexes[m']? :=
    getElem?_set_of_getElem? hl
  have hready (m' : Nat) : Ready ⟨s.counter, if l.waiters - 1 = 0 then none else some m,
      s.mutexes.set m ⟨false, l.waiters - 1⟩, s.threads.set k .idle, s.fatal⟩ m' ↔ m' = m := by
    by_cases he : m = m'
    · subst he
      simp only [Ready, hmut, if_true, Option.some.injEq, exists_eq_left', waitingOn, hW, true_and,
        iff_true]
      unfold waitingOn at hwe
      omega
    · simp only [Ready, hmut, he, if_false, waitingOn, hW, Ne.symm he, iff_false]
      intro hr
      have := hi.ready_owners m' hr
      omega
  refine ⟨by simp only; rw [hi.counter_eq]; omega, by simp only; omega,
    fun m' _ => by simp only; omega, fun m' m'' h h' => ((hready m').mp h).trans ((hready m'').mp h').symm,
    by simp only; omega, fun m' h => ?_, fun m' h => ?_, fun m' h => ?_, hi.no_fatal⟩
  · by_cases hz : l.waiters - 1 = 0
    · simp [hz] at h
    · simp only [hz, if_false, Option.some.injEq] at h
      subst h
      refine ⟨⟨false, l.waiters - 1⟩, by simp [hmut], by simp only; omega, ?_⟩
      simp only [waitingOn, hW, Bool.false_eq_true, if_false] at hwe ⊢
      omega
  · by_cases he : m = m'
    · subst he
      right
      have hz : l.waiters - 1 = 0 := by by_contra hz; simp [hz] at h
      refine ⟨?_, ⟨false, l.waiters - 1⟩, by simp [hmut], rfl⟩
      simp only [waitingOn, hW] at hwe ⊢
      omega
    · simpa only [waitingOn, hW, hmut, he, if_false, Nat.add_zero] using
        hi.unstored m' (by rw [hm]; simpa using he)
  · simp only [List.length_set]
    exact hi.waiting_lt m' (by simpa only [waitingOn, hW, Nat.add_zero] using h)

theorem unlockRelease_fresh (hi : s.Invariant) (hk : s.threads[k]? = some .unlocking) (hm : s.locks = none) :
    Invariant { s with mutexes := s.mutexes ++ [⟨false, 0⟩], threads := s.threads.set k .idle } := by
  have hC := countP_set_add LockPc.counted .idle hk
  have hH := count_set_add .idle hk .holding
  have hU := count_set_add .idle hk .unlocking
  have hW (m' : Nat) := count_set_add .idle hk (.waiting m')
  simp only [LockPc.counted, reduceCtorEq, LockPc.waiting.injEq, if_false, if_true, Bool.false_eq_true, Nat.add_zero] at hC hH hU hW
  have hU1 : 1 ≤ s.threads.count .unlocking :=
    List.count_pos_iff.mpr (List.mem_iff_getElem?.mpr ⟨k, hk⟩)
  have ho := hi.owners
  have hnr (m' : Nat) : ¬ Ready ⟨s.counter, s.locks, s.mutexes ++ [⟨false, 0⟩],
      s.threads.set k .idle, s.fatal⟩ m' := by
    rintro ⟨l', hl', hu', hw'⟩
    simp only [waitingOn, hW] at hw'
    have hlt := hi.waiting_lt m' hw'
    rw [List.getElem?_append_left hlt] at hl'
    have := hi.ready_owners m' ⟨l', hl', hu', hw'⟩
    omega
  refine ⟨by simp only; rw [hi.counter_eq]; omega, by simp only; omega,
    fun m' h => absurd h (hnr m'), fun m' _ h => absurd h (hnr m'),
    by simp only; have := hi.unlocking_le; omega, fun m' h => by simp [hm] at h, fun m' h => ?_,
    fun m' h => ?_, hi.no_fatal⟩
  · rcases hi.unstored m' (by simp [hm]) with h0 | ⟨h1, l', hl', hu'⟩
    · exact .inl (by simpa only [waitingOn, hW] using h0)
    · exact .inr ⟨by simpa only [waitingOn, hW] using h1, l', getElem?_append_of_some hl', hu'⟩
  · simp only [List.length_append, List.length_singleton]
    have := hi.waiting_lt m' (by simpa only [waitingOn, hW] using h)
    omega

end LockState.Invariant

open LockState

theorem lockInit_invariant (n : Nat) : (lockInit n).Invariant where
  counter_eq := by simp [lockInit, List.countP_replicate, LockPc.counted]
  owners := by simp [lockInit, List.count_replicate]
  ready_owners := by simp [Ready, lockInit]
  ready_unique := by simp [Ready, lockInit]
  unlocking_le := by simp [lockInit, List.count_replicate]
  stored := by simp [lockInit]
  unstored := by simp [waitingOn, lockInit, List.count_replicate]
  waiting_lt := by simp [waitingOn, lockInit, List.count_replicate]
  no_fatal := rfl

theorem lockStep_invariant {s s' : LockState} {a : LockAction} (hi : s.Invariant)
    (h : lockStep s a = some s') : s'.Invariant := by
  rcases lockStep_cases h with ⟨k, hk, rfl⟩ | ⟨k, m, l, hk, hm, hl, rfl⟩ | ⟨k, hk, hm, rfl⟩ |
    ⟨k, m, l, hk, hl, hu, rfl⟩ | ⟨k, hk, rfl⟩ | ⟨k, m, l, hk, hm, hl, ⟨-, rfl⟩ | ⟨hu, -⟩⟩ |
    ⟨k, hk, hm, rfl⟩
  · by_cases hc : s.counter + 1 = 1
    · rw [if_pos hc]
      exact hi.lockAdd_fast hk (by omega)
    · rw [if_neg hc]
      exact hi.lockAdd_slow hk
  · exact hi.lockRegister_stored hk hm hl
  · exact hi.lockRegister_fresh hk hm
  · exact hi.lockAcquire hk hl hu
  · exact hi.unlockAdd hk
  · exact hi.unlockRelease_stored hk hm hl
  · exact absurd (hi.stored_locked hk hm hl) (by simp [hu])
  · exact hi.unlockRelease_fresh hk hm

theorem LockState.Invariant.of_reachable {n : Nat} {s : LockState}
    (h : Reachable lockStep (lockInit n) s) : s.Invariant :=
  Reachable.invariant lockStep (lockInit_invariant n) (fun _ _ _ hi hs => lockStep_invariant hi hs) h

theorem LockState.Invariant.counter_le_length {s : LockState} (hi : s.Invariant) :
    0 ≤ s.counter ∧ s.counter ≤ s.threads.length := by
  have := List.countP_le_length LockPc.counted (l := s.threads)
  rw [hi.counter_eq]
  omega

theorem lockStep_length {s s' : LockState} {a : LockAction} (h : lockStep s a = some s') :
    s'.threads.length = s.threads.length := by
  rcases lockStep_cases h with ⟨_, _, rfl⟩ | ⟨_, _, _, _, _, _, rfl⟩ | ⟨_, _, _, rfl⟩ |
    ⟨_, _, _, _, _, _, rfl⟩ | ⟨_, _, rfl⟩ | ⟨_, _, _, _, _, _, ⟨-, rfl⟩ | ⟨-, rfl⟩⟩ | ⟨_, _, _, rfl⟩ <;>
    simp

/-- For fewer than `2 ^ 31` threads and any interleaving of their steps, at most one thread
is between the return of its `___lock(p)` and the start of its `___unlock(p)`, no
`sync.Mutex` is ever unlocked twice, and `*p` stays within the `int32` range, so the
counter of the model is the `int32` of the code. -/
theorem lock_mutual_exclusion (n : Nat) (hn : n < Nat.pow 2 31) (s : LockState)
    (h : Reachable lockStep (lockInit n) s) :
    s.threads.count .holding ≤ 1 ∧ s.fatal = false ∧ 0 ≤ s.counter ∧ s.counter < Nat.pow 2 31 := by
  have hi := LockState.Invariant.of_reachable h
  have hlen : s.threads.length = n :=
    h.invariant _ (I := fun t => t.threads.length = n) (by simp [lockInit])
      fun _ _ _ hl hs => (lockStep_length hs).trans hl
  have hc := hi.counter_le_length
  rw [hlen] at hc
  exact ⟨by have := hi.owners; omega, hi.no_fatal, hc.1, by omega⟩

def handOff : List LockAction :=
  [.lockAdd 0, .lockAdd 1, .lockRegister 1, .unlockAdd 0, .unlockRelease 0, .lockAcquire 1]

theorem lock_mutual_exclusion_hand_off :
    2 < Nat.pow 2 31 ∧ ∃ s, runSteps lockStep (lockInit 2) handOff = some s ∧
      s.threads = [.idle, .holding] ∧
      (s.threads.count .holding ≤ 1 ∧ s.fatal = false ∧ 0 ≤ s.counter ∧ s.counter < Nat.pow 2 31) :=
  ⟨by decide, _, rfl, rfl, lock_mutual_exclusion 2 (by decide) _ ⟨handOff, rfl⟩⟩

/-! ### A lost hand-off -/

/-- No thread holds `p` or is releasing it, `*p` is positive, and every object a thread is
blocked on, as well as the stored one, is locked. -/
def Stuck (s : LockState) : Prop :=
  s.threads.count .holding = 0 ∧ s.threads.count .unlocking = 0 ∧ 0 < s.counter ∧
    (∀ m l, s.mutexes[m]? = some l → 0 < s.waitingOn m → l.locked = true) ∧
    (∀ m, s.locks = some m → ∃ l, s.mutexes[m]? = some l ∧ l.locked = true)

theorem lockStep_stuck {s s' : LockState} {a : LockAction} (hs : Stuck s)
    (h : lockStep s a = some s') :
    Stuck s' ∧
      ∀ (k m : Nat), s.threads[k]? = some (.waiting m) → s'.threads[k]? = some (.waiting m) := by
  obtain ⟨hH, hU, hc, hw, hst⟩ := hs
  have hnot {k : Nat} {p : LockPc} (hk : s.threads[k]? = some p) (x : LockPc) (hx : x = p) :
      0 < s.threads.count x := hx ▸ List.count_pos_iff.mpr (List.mem_iff_getElem?.mpr ⟨k, hk⟩)
  -- a thread at `p`, not `waiting`, moves to `q`
  have frame {k : Nat} {p q : LockPc} (hk : s.threads[k]? = some p) (hp : ∀ m, p ≠ .waiting m) :
      ∀ (j m : Nat), s.threads[j]? = some (.waiting m) → (s.threads.set k q)[j]? = some (.waiting m) := by
    intro j m hj
    have hjk : k ≠ j := by rintro rfl; rw [hk] at hj; exact hp m (Option.some.inj hj)
    rw [List.getElem?_set_ne hjk, hj]
  rcases lockStep_cases h with ⟨k, hk, rfl⟩ | ⟨k, m, l, hk, hm, hl, rfl⟩ | ⟨k, hk, hm, rfl⟩ |
    ⟨k, m, l, hk, hl, hu, -⟩ | ⟨k, hk, -⟩ | ⟨k, -, -, hk, -⟩ | ⟨k, hk, -⟩
  · have hc1 : ¬ s.counter + 1 = 1 := by omega
    rw [if_neg hc1]
    have hH' := count_set_add .slow hk .holding
    have hU' := count_set_add .slow hk .unlocking
    have hW (m : Nat) := count_set_add .slow hk (.waiting m)
    simp only [reduceCtorEq, LockPc.waiting.injEq, if_false, if_true, Nat.add_zero] at hH' hU' hW
    exact ⟨⟨by simp only; omega, by simp only; omega, by simp only; omega,
      fun m l hl hp => hw m l hl (by simpa only [waitingOn, hW] using hp), hst⟩,
      frame hk (fun _ => nofun)⟩
  · have hH' := count_set_add (.waiting m) hk .holding
    have hU' := count_set_add (.waiting m) hk .unlocking
    have hW (m' : Nat) := count_set_add (.waiting m) hk (.waiting m')
    simp only [reduceCtorEq, LockPc.waiting.injEq, if_false, if_true, Nat.add_zero] at hH' hU' hW
    obtain ⟨l', hl', hlk⟩ := hst m hm
    rw [hl] at hl'
    cases hl'
    refine ⟨⟨by simp only; omega, by simp only; omega, hc, fun m' l' hl' hp => ?_,
      fun m' hm' => ?_⟩, frame hk (fun _ => nofun)⟩
    · rw [getElem?_set_of_getElem? hl] at hl'
      by_cases he : m = m'
      · subst he
        rw [if_pos rfl, Option.some.injEq] at hl'
        rw [← hl']
        exact hlk
      · rw [if_neg he] at hl'
        simp only [waitingOn, hW, he, if_false, Nat.add_zero] at hp
        exact hw m' l' hl' hp
    · simp only [hm, Option.some.injEq] at hm'
      subst hm'
      exact ⟨{ l with waiters := l.waiters + 1 }, by rw [getElem?_set_of_getElem? hl, if_pos rfl],
        hlk⟩
  · have hU' := count_set_add (.waiting s.mutexes.length) hk .unlocking
    have hH' := count_set_add (.waiting s.mutexes.length) hk .holding
    have hW (m' : Nat) := count_set_add (.waiting s.mutexes.length) hk (.waiting m')
    simp only [reduceCtorEq, LockPc.waiting.injEq, if_false, if_true, Nat.add_zero] at hH' hU' hW
    refine ⟨⟨by simp only; omega, by simp only; omega, hc, fun m' l' hl' hp => ?_,
      fun m' hm' => ?_⟩, frame hk (fun _ => nofun)⟩
    · rcases getElem?_snoc_cases hl' with hl' | ⟨-, rfl⟩
      · by_cases he : s.mutexes.length = m'
        · subst he
          simp [List.getElem?_eq_none] at hl'
        · simp only [waitingOn, hW, he, if_false, Nat.add_zero] at hp
          exact hw m' l' hl' hp
      · rfl
    · simp only [Option.some.injEq] at hm'
      subst hm'
      exact ⟨_, List.getElem?_concat_length _ _, rfl⟩
  · exact absurd (hw m l hl (hnot hk _ rfl)) (by simp [hu])
  · have := hnot hk .holding rfl
    omega
  · have := hnot hk .unlocking rfl
    omega
  · have := hnot hk .unlocking rfl
    omega

/-- The hand-off lost: thread 1 adds 1 to `*p` while thread 0 holds it, thread 0's
`___unlock` then takes `locksMu` first, finds `locks[p]` empty and unlocks a fresh object
it stores nowhere. Thread 1's section then stores a new, locked object and blocks on it:
no thread holds `p`, and under every continuation thread 1 stays blocked and no thread
ever holds `p` again. -/
def lostHandOff : List LockAction :=
  [.lockAdd 0, .lockAdd 1, .unlockAdd 0, .unlockRelease 0, .lockRegister 1]

theorem unlock_loses_hand_off :
    ∃ s, runSteps lockStep (lockInit 2) lostHandOff = some s ∧
      s.threads = [.idle, .waiting 1] ∧ s.counter = 1 ∧ s.mutexes = [⟨false, 0⟩, ⟨true, 1⟩] ∧
      ∀ as s', runSteps lockStep s as = some s' →
        s'.threads[1]? = some (.waiting 1) ∧ s'.threads.count .holding = 0 ∧
          s'.threads.count .unlocking = 0 := by
  refine ⟨⟨1, some 1, [⟨false, 0⟩, ⟨true, 1⟩], [.idle, .waiting 1], false⟩, rfl, rfl, rfl, rfl,
    fun as s' h => ?_⟩
  have h0 : Stuck ⟨1, some 1, [⟨false, 0⟩, ⟨true, 1⟩], [.idle, .waiting 1], false⟩ := by
    refine ⟨rfl, rfl, by decide, fun m l hl hp => ?_, fun m hm => ⟨_, by cases hm; rfl, rfl⟩⟩
    rcases m with _ | _ | m
    · simp [waitingOn] at hp
    · simp only [List.getElem?_cons_succ, List.getElem?_cons_zero, Option.some.injEq] at hl
      rw [← hl]
    · simp at hl
  have := @runSteps_invariant _ _ lockStep
    (fun t => Stuck t ∧ t.threads[1]? = some (LockPc.waiting 1))
    (fun _ _ _ ht hs => ⟨(lockStep_stuck ht.1 hs).1, (lockStep_stuck ht.1 hs).2 1 1 ht.2⟩)
    _ _ _ ⟨h0, rfl⟩ h
  exact ⟨this.2, this.1.1, this.1.2.1⟩

end CortexTheseus.Libc
