import CortexTheseus.Schedule
import CortexTheseus.Torrentfs.Tunnel

/-!
# Concurrent broadcast tasks

`download` runs `broadcast` in its own goroutine (fs.go:794-803); only each tunnel `Get`
and `Set` is atomic, so a task is a `Get` followed, when not suppressed, by a `Set`.
-/

namespace CortexTheseus.Torrentfs

open CortexTheseus.Common

inductive TaskPc
  /-- about to call `fs.tunnel.Get` -/
  | start
  /-- `Get` did not suppress it: about to call `fs.tunnel.Set` -/
  | setting
  /-- returned `result` -/
  | done (result : Bool)
  deriving DecidableEq, Repr

/-- A broadcast goroutine for `broadcast(ih, size)`. -/
structure Task where
  ih : String
  size : Nat
  pc : TaskPc
  deriving DecidableEq, Repr

/-- The shared tunnel and the broadcast goroutines in flight. -/
structure Race where
  tunnel : Tunnel
  tasks : List Task

/-- One atomic step of goroutine `k` at instant `now`. -/
inductive RaceAction
  | get (k now : Nat)
  | set (k now : Nat)
  deriving DecidableEq, Repr

/-- The tasks `(ih, size)` spawned on a tunnel, none started. -/
def raceStart (m : Tunnel) (ts : List (String × Nat)) : Race :=
  ⟨m, ts.map fun t => ⟨t.1, t.2, .start⟩⟩

/-- The check of `broadcast`: the hash is malformed, or `Get` finds an item holding a
size at least as large. -/
def suppressed (m : Tunnel) (now : Nat) (ih : String) (size : Nat) : Bool :=
  !isHexAddress ih || (m.get now ih).any (size ≤ ·)

/-- The atomic steps of the broadcast goroutines; `none` when goroutine `k` is not at
that step. -/
def raceStep (st : Race) : RaceAction → Option Race
  | .get k now =>
      match st.tasks[k]? with
      | some t =>
          if t.pc = .start then
            let pc := if suppressed st.tunnel now t.ih t.size then TaskPc.done false else .setting
            some ⟨st.tunnel, st.tasks.set k { t with pc := pc }⟩
          else none
      | none => none
  | .set k now =>
      match st.tasks[k]? with
      | some t =>
          if t.pc = .setting then
            some ⟨st.tunnel.set t.ih ⟨t.size, now + tunnelTTL⟩, st.tasks.set k { t with pc := .done true }⟩
          else none
      | none => none

theorem broadcast_eq_suppressed (m : Tunnel) (now : Nat) (ih : String) (size : Nat) :
    broadcast m now ih size =
      if suppressed m now ih size then (false, m) else (true, m.set ih ⟨size, now + tunnelTTL⟩) := by
  unfold broadcast suppressed
  by_cases hv : isHexAddress ih <;> simp [hv]

theorem raceStep_task (st : Race) (k now : Nat) (t : Task) (ht : st.tasks[k]? = some t)
    (hpc : t.pc = .start) :
    runSteps raceStep st
        (if (broadcast st.tunnel now t.ih t.size).1 then [.get k now, .set k now] else [.get k now]) =
      some ⟨(broadcast st.tunnel now t.ih t.size).2,
        st.tasks.set k { t with pc := .done (broadcast st.tunnel now t.ih t.size).1 }⟩ := by
  rw [broadcast_eq_suppressed]
  by_cases hs : suppressed st.tunnel now t.ih t.size
  · simp [raceStep, ht, hpc, hs]
  · have hk : k < st.tasks.length := (List.getElem?_eq_some_iff.mp ht).1
    simp [raceStep, ht, hpc, hs, hk, List.set_set]

/-- The `Get`s of two goroutines on one well-formed hash with no live item both run
before either `Set`: both announce, and the tunnel ends with the size of the `Set`
that ran last. -/
theorem raceStep_both_miss (m : Tunnel) (now : Nat) (ih : String) (a b : Nat)
    (hv : isHexAddress ih) (hfree : m.get now ih = none) :
    runSteps raceStep (raceStart m [(ih, a), (ih, b)]) [.get 0 now, .get 1 now, .set 1 now, .set 0 now] =
      some ⟨(m.set ih ⟨b, now + tunnelTTL⟩).set ih ⟨a, now + tunnelTTL⟩,
        [⟨ih, a, .done true⟩, ⟨ih, b, .done true⟩]⟩ := by
  simp [raceStart, raceStep, suppressed, hv, hfree]

def raceHash : String := "6b75cc1354495ec763a6b295ee407ea864a0c292"

def getsThenSets : List RaceAction := [.get 0 0, .get 1 0, .set 1 0, .set 0 0]

/-- Two broadcast goroutines for one hash at one instant, sizes 1 and 2, scheduled
`Get`, `Get`, `Set` of size 2, `Set` of size 1: both announce and the live item drops
from 2 to 1. Run one after the other, the order 1, 2 ends with a live item of size 2
and the order 2, 1 suppresses the second; neither is this outcome. With sizes 1 and 1
the same schedule announces twice. -/
theorem broadcast_race_failing :
    (runSteps raceStep (raceStart Tunnel.empty [(raceHash, 1), (raceHash, 2)]) getsThenSets).map
        (fun st => (st.tasks.map Task.pc, st.tunnel.get 0 raceHash)) =
      some ([.done true, .done true], some 1) ∧
    (runSteps raceStep (raceStart Tunnel.empty [(raceHash, 1), (raceHash, 2)]) (getsThenSets.take 3)).map
        (·.tunnel.get 0 raceHash) = some (some 2) ∧
    (broadcastRun [⟨raceHash, 1, 0⟩, ⟨raceHash, 2, 0⟩]).2.map Prod.snd = [true, true] ∧
    (broadcastRun [⟨raceHash, 1, 0⟩, ⟨raceHash, 2, 0⟩]).1.get 0 raceHash = some 2 ∧
    (broadcastRun [⟨raceHash, 2, 0⟩, ⟨raceHash, 1, 0⟩]).2.map Prod.snd = [true, false] ∧
    (runSteps raceStep (raceStart Tunnel.empty [(raceHash, 1), (raceHash, 1)]) getsThenSets).map
        (·.tasks.map Task.pc) = some [.done true, .done true] := by
  have hv : isHexAddress raceHash := by decide
  refine ⟨?_, by decide, by decide, by decide, by decide, ?_⟩
  · rw [getsThenSets, raceStep_both_miss Tunnel.empty 0 _ _ _ hv rfl]
    decide
  · rw [getsThenSets, raceStep_both_miss Tunnel.empty 0 _ _ _ hv rfl]
    rfl


/-! ### Goroutines of other hashes

A goroutine reads and writes only the item of its own hash, so the race stays among the
goroutines of one hash. -/

def RaceAction.task : RaceAction → Nat
  | .get k _ => k
  | .set k _ => k

/-- Whether an action steps one of the goroutines spawned for the hash `h`, among the
tasks `ts` spawned. -/
def onHash (ts : List (String × Nat)) (h : String) (a : RaceAction) : Bool :=
  decide (ts[a.task]?.map Prod.fst = some h)

/-- Every goroutine is still the task `(ih, size)` it was spawned for. -/
def Spawned (ts : List (String × Nat)) (st : Race) : Prop :=
  ∀ (k : Nat) (t : Task), st.tasks[k]? = some t → ts[k]? = some (t.ih, t.size)

/-- Two states agree on the hash `h`: the same item for it, and the same goroutines
spawned for it. -/
structure AgreeOn (ts : List (String × Nat)) (h : String) (st st' : Race) : Prop where
  item : st.tunnel.items h = st'.tunnel.items h
  tasks : ∀ k : Nat, ts[k]?.map Prod.fst = some h → st.tasks[k]? = st'.tasks[k]?

theorem raceStep_cases {st st' : Race} {a : RaceAction} (h : raceStep st a = some st') :
    (∃ k now t, a = .get k now ∧ st.tasks[k]? = some t ∧ t.pc = .start ∧
      st' = ⟨st.tunnel, st.tasks.set k
        { t with pc := if suppressed st.tunnel now t.ih t.size then .done false else .setting }⟩) ∨
    (∃ k now t, a = .set k now ∧ st.tasks[k]? = some t ∧ t.pc = .setting ∧
      st' = ⟨st.tunnel.set t.ih ⟨t.size, now + tunnelTTL⟩, st.tasks.set k { t with pc := .done true }⟩) := by
  cases a with
  | get k now =>
    simp only [raceStep] at h
    split at h
    next t ht =>
      obtain ⟨hpc, h⟩ := Option.ite_none_right_eq_some.mp h
      exact .inl ⟨k, now, t, rfl, ht, hpc, (Option.some.inj h).symm⟩
    next => cases h
  | set k now =>
    simp only [raceStep] at h
    split at h
    next t ht =>
      obtain ⟨hpc, h⟩ := Option.ite_none_right_eq_some.mp h
      exact .inr ⟨k, now, t, rfl, ht, hpc, (Option.some.inj h).symm⟩
    next => cases h

theorem raceStart_spawned (m : Tunnel) (ts : List (String × Nat)) : Spawned ts (raceStart m ts) := by
  intro k t hk
  simp only [raceStart, List.getElem?_map, Option.map_eq_some'] at hk
  obtain ⟨_, hk, rfl⟩ := hk
  exact hk

theorem raceStep_spawned {ts : List (String × Nat)} {st st' : Race} {a : RaceAction}
    (hs : Spawned ts st) (h : raceStep st a = some st') : Spawned ts st' := by
  rcases raceStep_cases h with ⟨k, now, t, -, ht, -, rfl⟩ | ⟨k, now, t, -, ht, -, rfl⟩ <;>
  · intro j u hj
    rcases getElem?_set_cases hj with ⟨rfl, rfl⟩ | ⟨-, hj⟩
    · exact hs _ t ht
    · exact hs j u hj

theorem Tunnel.get_congr {m m' : Tunnel} {key : String} (h : m.items key = m'.items key)
    (now : Nat) : m.get now key = m'.get now key := by
  unfold Tunnel.get
  rw [h]

theorem suppressed_congr {m m' : Tunnel} {ih : String} (h : m.items ih = m'.items ih)
    (now size : Nat) : suppressed m now ih size = suppressed m' now ih size := by
  simp only [suppressed, Tunnel.get_congr h]

theorem tasks_set_agree {ts : List (String × Nat)} {h : String} {l₁ l₂ : List Task} {k : Nat}
    {t : Task} (h₁ : l₁[k]? = some t) (h₂ : l₂[k]? = some t) (u : Task)
    (hag : ∀ j : Nat, ts[j]?.map Prod.fst = some h → l₁[j]? = l₂[j]?) :
    ∀ j : Nat, ts[j]?.map Prod.fst = some h → (l₁.set k u)[j]? = (l₂.set k u)[j]? := by
  intro j hj
  rw [getElem?_set_of_getElem? h₁, getElem?_set_of_getElem? h₂]
  split_ifs
  · rfl
  · exact hag j hj

theorem raceStep_agreeOn_off {ts : List (String × Nat)} {h : String} {st st' : Race}
    {a : RaceAction} (hs : Spawned ts st) (ha : onHash ts h a = false)
    (hst : raceStep st a = some st') : AgreeOn ts h st st' := by
  have hne : ∀ k, a.task = k → ∀ j, ts[j]?.map Prod.fst = some h → k ≠ j := by
    rintro k rfl j hj rfl
    simp [onHash, hj] at ha
  rcases raceStep_cases hst with ⟨k, now, t, rfl, ht, -, rfl⟩ | ⟨k, now, t, rfl, ht, -, rfl⟩
  · exact ⟨rfl, fun j hj => (List.getElem?_set_ne (hne k rfl j hj)).symm⟩
  · have hih : t.ih ≠ h := by
      rintro rfl
      simp [onHash, RaceAction.task, hs k t ht] at ha
    exact ⟨(Tunnel.set_items_ne _ _ (Ne.symm hih)).symm,
      fun j hj => (List.getElem?_set_ne (hne k rfl j hj)).symm⟩

theorem raceStep_agreeOn_on {ts : List (String × Nat)} {h : String} {st₁ st₂ st₁' : Race}
    {a : RaceAction} (hs : Spawned ts st₁) (hag : AgreeOn ts h st₁ st₂)
    (ha : onHash ts h a = true) (hst : raceStep st₁ a = some st₁') :
    ∃ st₂', raceStep st₂ a = some st₂' ∧ AgreeOn ts h st₁' st₂' := by
  rcases raceStep_cases hst with ⟨k, now, t, rfl, ht, hpc, rfl⟩ | ⟨k, now, t, rfl, ht, hpc, rfl⟩
  all_goals
    have hk : ts[k]?.map Prod.fst = some h := of_decide_eq_true ha
    have ht₂ : st₂.tasks[k]? = some t := hag.tasks k hk ▸ ht
    have hih : t.ih = h := by simpa [hs k t ht] using hk
  · -- a `Get` reads the item both states hold
    have hsup := suppressed_congr
      (show st₁.tunnel.items t.ih = st₂.tunnel.items t.ih by rw [hih]; exact hag.item) now t.size
    refine ⟨⟨st₂.tunnel, st₂.tasks.set k
        { t with pc := if suppressed st₁.tunnel now t.ih t.size then .done false else .setting }⟩,
      by simp only [raceStep, ht₂, if_pos hpc, ← hsup], ⟨hag.item, tasks_set_agree ht ht₂ _ hag.tasks⟩⟩
  · -- a `Set` stores the same item in both
    refine ⟨⟨st₂.tunnel.set t.ih ⟨t.size, now + tunnelTTL⟩, st₂.tasks.set k { t with pc := .done true }⟩,
      by simp only [raceStep, ht₂, if_pos hpc], ⟨?_, tasks_set_agree ht ht₂ _ hag.tasks⟩⟩
    subst hih
    simp only [Tunnel.set_items_self]

/-- Whatever the interleaving of the broadcast goroutines, the goroutines of other hashes
change neither the tunnel's item for a hash `h` nor the goroutines of `h`: the steps of
the goroutines of `h` alone, in the schedule's order from the same start, are enabled and
end with the same item and the same goroutines for `h`. -/
theorem broadcast_tasks_isolated_by_hash {m : Tunnel} {ts : List (String × Nat)}
    {as : List RaceAction} {st : Race} (hrun : runSteps raceStep (raceStart m ts) as = some st)
    (h : String) :
    ∃ st', runSteps raceStep (raceStart m ts) (as.filter (onHash ts h)) = some st' ∧
      st'.tunnel.items h = st.tunnel.items h ∧
      ∀ k : Nat, ts[k]?.map Prod.fst = some h → st'.tasks[k]? = st.tasks[k]? := by
  induction as using List.reverseRecOn generalizing st with
  | nil =>
    cases hrun
    exact ⟨_, rfl, rfl, fun _ _ => rfl⟩
  | append_singleton as a ih =>
    rw [runSteps_snoc] at hrun
    obtain ⟨st₀, hrun₀, hst⟩ := Option.bind_eq_some.mp hrun
    obtain ⟨st₀', hrun₀', hitem, htasks⟩ := ih hrun₀
    have hs₀ : Spawned ts st₀ :=
      runSteps_invariant _ (fun _ _ _ hs hst => raceStep_spawned hs hst) (raceStart_spawned m ts) hrun₀
    cases ha : onHash ts h a
    · -- a step of another hash's goroutine is dropped from the projection
      have hoff := raceStep_agreeOn_off hs₀ ha hst
      exact ⟨st₀', by simpa [ha] using hrun₀', hitem.trans hoff.item,
        fun k hk => (htasks k hk).trans (hoff.tasks k hk)⟩
    · -- a step of a goroutine of `h` is taken in both
      obtain ⟨st', hst', hag⟩ :=
        raceStep_agreeOn_on hs₀ ⟨hitem.symm, fun k hk => (htasks k hk).symm⟩ ha hst
      exact ⟨st', by simp [ha, runSteps_snoc, hrun₀', hst'], hag.item.symm,
        fun k hk => (hag.tasks k hk).symm⟩

def otherHash : String := "5a3c1e4f2b6d8a9c0e1f2a3b4c5d6e7f8a9b0c1d"

def twoHashTasks : List (String × Nat) := [(raceHash, 1), (otherHash, 5), (raceHash, 2)]

def twoHashSchedule : List RaceAction :=
  [.get 0 0, .get 1 0, .get 2 0, .set 1 0, .set 2 0, .set 0 0]

theorem broadcast_tasks_isolated_twoHashes :
    ∃ st, runSteps raceStep (raceStart Tunnel.empty twoHashTasks) twoHashSchedule = some st ∧
      ∃ st', runSteps raceStep (raceStart Tunnel.empty twoHashTasks)
          (twoHashSchedule.filter (onHash twoHashTasks raceHash)) = some st' ∧
        st'.tunnel.items raceHash = st.tunnel.items raceHash ∧
        ∀ k : Nat, twoHashTasks[k]?.map Prod.fst = some raceHash → st'.tasks[k]? = st.tasks[k]? :=
  ⟨_, rfl, @broadcast_tasks_isolated_by_hash Tunnel.empty twoHashTasks twoHashSchedule _ rfl raceHash⟩

end CortexTheseus.Torrentfs
