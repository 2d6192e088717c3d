import CortexTheseus.Schedule
import Mathlib.Data.List.Basic

/-!
# Shutdown

`TorrentFS.Stop` (fs.go:488-515) against `listen`, the broadcast and `wakeup` goroutines,
counted in `fs.wg`, and the peer message loops, which are not. Each goroutine is a program
counter, and every collaborator call is logged with whether `Stop` had closed it.
-/

namespace CortexTheseus.Torrentfs

/-- The collaborators `Stop` closes. -/
inductive Collab
  /-- `fs.handler`, a `backend.TorrentManager` -/
  | torrentManager
  /-- `fs.db`, a `backend.ChainDB` -/
  | chainDB
  deriving DecidableEq, Repr

/-- A call of a collaborator method, and whether `Stop` had closed the collaborator. -/
structure Invocation where
  collab : Collab
  method : String
  afterClose : Bool
  deriving DecidableEq, Repr

/-- The statements of one `Stop` call, by the one just done. -/
inductive StopPc
  | running
  /-- `tfs.handler.Close()` -/
  | handlerClosed
  /-- `tfs.db.Close()` -/
  | dbClosed
  /-- `tfs.monitor.Stop()` -/
  | monitorStopped
  /-- `close(tfs.closeAll)` -/
  | signalled
  /-- `tfs.wg.Wait()` returned -/
  | waited
  /-- `tfs.tunnel.Drain()`; `Stop` has returned -/
  | drained
  deriving DecidableEq, Repr

/-- How many statements of `Stop` are done. -/
def StopPc.rank : StopPc → Nat
  | .running => 0
  | .handlerClosed => 1
  | .dbClosed => 2
  | .monitorStopped => 3
  | .signalled => 4
  | .waited => 5
  | .drained => 6

/-- Whether `Stop` has closed a collaborator. -/
def StopPc.closed (p : StopPc) : Collab → Bool
  | .torrentManager => 1 ≤ p.rank
  | .chainDB => 2 ≤ p.rank

inductive ListenPc
  /-- at its `select` -/
  | select
  /-- in `download`, about to call `ChainDB.SetTorrentProgress` -/
  | setProgress
  /-- in `download`, about to call `TorrentManager.Exists` -/
  | exists
  /-- in `download`, about to call `TorrentManager.Search` -/
  | search
  /-- returned on `closeAll` -/
  | returned
  deriving DecidableEq, Repr

/-- Where a `wakeup(ctx, ih)` call is (fs.go:547-561). -/
inductive WakeupPc
  /-- about to call `fs.progress(ih)`, that is `ChainDB.GetTorrentProgress` -/
  | progress
  /-- about to call `TorrentManager.Search` -/
  | search
  | done
  deriving DecidableEq, Repr

/-- The next call of `wakeup` and where it goes; `ok` is whether it succeeds. -/
def wakeupNext : WakeupPc → Bool → Option (Collab × String × WakeupPc)
  | .progress, ok => some (.chainDB, "GetTorrentProgress", if ok then .search else .done)
  | .search, _ => some (.torrentManager, "Search", .done)
  | .done, _ => none

structure Shutdown where
  stop : StopPc
  listen : ListenPc
  /-- broadcast goroutines spawned by `download` and not returned -/
  broadcasts : Nat
  /-- the goroutines `GetFileWithSize` spawned -/
  wakeups : List WakeupPc
  /-- the peer message loops: `none` while blocked in `rw.ReadMsg`, else in `wakeup` -/
  peerLoops : List (Option WakeupPc)
  /-- the counter of `fs.wg` -/
  wg : Nat
  calls : List Invocation
  deriving DecidableEq, Repr

/-- Just after `New`: `listen` is running and counted in `fs.wg`. -/
def shutdownInit : Shutdown := ⟨.running, .select, 0, [], [], 1, []⟩

def Shutdown.call (st : Shutdown) (c : Collab) (method : String) : Shutdown :=
  { st with calls := st.calls ++ [⟨c, method, st.stop.closed c⟩] }

inductive ShutdownAction
  /-- `Stop` runs its next statement -/
  | stop
  /-- `listen` takes a case that calls `download` -/
  | listenDownload
  /-- `listen` takes `<-fs.closeAll` -/
  | listenReturn
  /-- `download` makes its next call; `ok` is its outcome -/
  | listenCall (ok : Bool)
  /-- a broadcast goroutine returns -/
  | broadcastDone
  /-- `GetFileWithSize` misses and spawns `wakeup` -/
  | spawnWakeup
  /-- wakeup goroutine `k` makes its next call -/
  | wakeupCall (k : Nat) (ok : Bool)
  /-- the p2p server starts a peer message loop -/
  | peerConnect
  /-- peer loop `k` reads a well-formed Query and calls `wakeup` -/
  | peerQuery (k : Nat)
  /-- peer loop `k` makes the next call of its `wakeup` -/
  | peerCall (k : Nat) (ok : Bool)
  deriving DecidableEq, Repr

/-- One step; `none` when the goroutine is not at that statement or is blocked. -/
def shutdownStep (st : Shutdown) : ShutdownAction → Option Shutdown
  | .stop =>
      match st.stop with
      | .running => some { st with stop := .handlerClosed }
      | .handlerClosed => some { st with stop := .dbClosed }
      | .dbClosed => some { st with stop := .monitorStopped }
      | .monitorStopped => some { st with stop := .signalled }
      | .signalled => if st.wg = 0 then some { st with stop := .waited } else none
      | .waited => some { st with stop := .drained }
      | .drained => none
  | .listenDownload => if st.listen = .select then some { st with listen := .setProgress } else none
  | .listenReturn =>
      if st.listen = .select ∧ 4 ≤ st.stop.rank then
        some { st with listen := .returned, wg := st.wg - 1 }
      else none
  | .listenCall ok =>
      match st.listen with
      | .setProgress =>
          some { st.call .chainDB "SetTorrentProgress" with listen := if ok then .exists else .select }
      | .exists =>
          some { st.call .torrentManager "Exists" with
            listen := .search
            broadcasts := if ok then st.broadcasts else st.broadcasts + 1
            wg := if ok then st.wg else st.wg + 1 }
      | .search => some { st.call .torrentManager "Search" with listen := .select }
      | _ => none
  | .broadcastDone =>
      if 0 < st.broadcasts then some { st with broadcasts := st.broadcasts - 1, wg := st.wg - 1 }
      else none
  | .spawnWakeup => some { st with wakeups := st.wakeups ++ [.progress], wg := st.wg + 1 }
  | .wakeupCall k ok =>
      match st.wakeups[k]? with
      | some w =>
          match wakeupNext w ok with
          | some (c, m, w') =>
              some { st.call c m with
                wakeups := st.wakeups.set k w'
                wg := if w' = .done then st.wg - 1 else st.wg }
          | none => none
      | none => none
  | .peerConnect => some { st with peerLoops := st.peerLoops ++ [none] }
  | .peerQuery k =>
      if st.peerLoops[k]? = some none then
        some { st with peerLoops := st.peerLoops.set k (some .progress) }
      else none
  | .peerCall k ok =>
      match st.peerLoops[k]? with
      | some (some w) =>
          match wakeupNext w ok with
          | some (c, m, w') =>
              some { st.call c m with
                peerLoops := st.peerLoops.set k (if w' = .done then none else some w') }
          | none => none
      | _ => none

@[simp] theorem Shutdown.call_stop (st : Shutdown) (c : Collab) (m : String) :
    (st.call c m).stop = st.stop := rfl

@[simp] theorem Shutdown.call_calls (st : Shutdown) (c : Collab) (m : String) :
    (st.call c m).calls = st.calls ++ [⟨c, m, st.stop.closed c⟩] := rfl

theorem wakeupNext_ne_done {w : WakeupPc} {ok : Bool} {x : Collab × String × WakeupPc}
    (h : wakeupNext w ok = some x) : w ≠ .done := by
  rintro rfl
  cases h

/-! ### What `fs.wg` counts -/

/-- The goroutines `fs.wg` tracks that have not returned. -/
def Shutdown.tracked (st : Shutdown) : Nat :=
  (if st.listen = .returned then 0 else 1) + st.broadcasts + st.wakeups.countP (· != .done)

theorem countP_set_of_ne_done {ws : List WakeupPc} {k : Nat} {w : WakeupPc} (w' : WakeupPc)
    (hk : ws[k]? = some w) (hw : w ≠ .done) :
    (ws.set k w').countP (· != .done) + 1 =
      ws.countP (· != .done) + (if w' = .done then 0 else 1) := by
  obtain ⟨hlt, rfl⟩ := List.getElem?_eq_some_iff.mp hk
  have hle := List.boole_getElem_le_countP (· != WakeupPc.done) ws k hlt
  rw [List.countP_set _ _ _ _ hlt]
  by_cases h' : w' = .done <;> simp_all

theorem shutdownStep_wg {st st' : Shutdown} {a : ShutdownAction} (hwg : st.wg = st.tracked)
    (h : shutdownStep st a = some st') : st'.wg = st'.tracked := by
  unfold Shutdown.tracked at hwg ⊢
  cases a with
  | stop =>
      simp only [shutdownStep] at h
      split at h <;> (try split at h) <;> cases h <;> exact hwg
  | listenDownload =>
      simp only [shutdownStep] at h
      split at h <;> cases h
      rename_i hl
      simpa only [hl, reduceCtorEq, if_false] using hwg
  | listenReturn =>
      simp only [shutdownStep] at h
      split at h <;> cases h
      rename_i hl
      simp only [hl.1, reduceCtorEq, if_false, if_true] at hwg ⊢
      omega
  | listenCall ok =>
      simp only [shutdownStep] at h
      split at h <;> cases h <;> rename_i hl <;> cases ok <;>
        simp only [Shutdown.call, hl, reduceCtorEq, if_false, if_true, Bool.false_eq_true] at hwg ⊢ <;>
        omega
  | broadcastDone =>
      simp only [shutdownStep] at h
      split at h <;> cases h
      simp only
      omega
  | spawnWakeup =>
      cases h
      simp [List.countP_append]
      omega
  | wakeupCall k ok =>
      simp only [shutdownStep] at h
      split at h
      · rename_i w hk
        split at h
        · rename_i c m w' hn
          cases h
          have hset := countP_set_of_ne_done w' hk (wakeupNext_ne_done hn)
          simp only [Shutdown.call]
          split_ifs at hset hwg ⊢ <;> omega
        · cases h
      · cases h
  | peerConnect => cases h; exact hwg
  | peerQuery k =>
      simp only [shutdownStep] at h
      split at h <;> cases h
      exact hwg
  | peerCall k ok =>
      simp only [shutdownStep] at h
      split at h <;> (try split at h) <;> cases h
      exact hwg

theorem wg_eq_tracked {st : Shutdown} (h : Reachable shutdownStep shutdownInit st) :
    st.wg = st.tracked :=
  @Reachable.invariant _ _ shutdownStep (fun st => st.wg = st.tracked) _ _ rfl
    (fun _ _ _ hwg hs => shutdownStep_wg hwg hs) h

/-- Once `Stop` is past `fs.wg.Wait()`, `listen`, the broadcast goroutines and the
`wakeup` goroutines spawned so far have all returned. -/
theorem stop_wait_drains {st st' : Shutdown} (h : Reachable shutdownStep shutdownInit st)
    (hs : st.stop = .signalled) (hw : shutdownStep st .stop = some st') :
    st'.listen = .returned ∧ st'.broadcasts = 0 ∧ ∀ w ∈ st'.wakeups, w = .done := by
  have hwg := wg_eq_tracked h
  simp only [shutdownStep, hs] at hw
  split at hw
  · cases hw
    unfold Shutdown.tracked at hwg
    dsimp only
    refine ⟨?_, by omega, fun w hw' => ?_⟩
    · by_contra hl
      simp [hl] at hwg
      omega
    · have h0 : st.wakeups.countP (· != .done) = 0 := by omega
      simpa using List.countP_eq_zero.mp h0 w hw'
  · cases hw

/-! ### Calls after the close -/

/-- From any state in which `Stop` has closed the ledger while `listen` is still at its
`select`, a need-event that `listen` downloads reaches `SetTorrentProgress` on the closed
ledger. -/
theorem listen_download_after_close (st : Shutdown) (ok : Bool) (hl : st.listen = .select)
    (hdb : 2 ≤ st.stop.rank) :
    ((runSteps shutdownStep st [.listenDownload, .listenCall ok]).map (·.calls)) =
      some (st.calls ++ [⟨.chainDB, "SetTorrentProgress", true⟩]) := by
  simp [shutdownStep, hl, StopPc.closed, hdb]

/-- A peer loop blocked in `rw.ReadMsg` that reads a well-formed Query once `Stop` has
closed the ledger calls `GetTorrentProgress` on it, and `Stop` does not move. -/
theorem peer_query_after_close (st : Shutdown) (k : Nat) (ok : Bool)
    (hk : st.peerLoops[k]? = some none) (hdb : 2 ≤ st.stop.rank) :
    (runSteps shutdownStep st [.peerQuery k, .peerCall k ok]).map (fun st' => (st'.stop, st'.calls)) =
      some (st.stop, st.calls ++ [⟨.chainDB, "GetTorrentProgress", true⟩]) := by
  have hlt : k < st.peerLoops.length := (List.getElem?_eq_some_iff.mp hk).1
  simp [shutdownStep, hk, hlt, wakeupNext, StopPc.closed, hdb]

/-- Two schedules from `New` in which a `ChainDB` method runs on the closed ledger. In the
first, `listen` takes a need-event after `tfs.db.Close()` and before `close(tfs.closeAll)`;
in the second, `Stop` has returned and a peer loop, which it never waited for, handles a
Query. -/
theorem stop_closes_before_drain :
    (runSteps shutdownStep shutdownInit [.stop, .stop, .listenDownload, .listenCall true]).map
        (·.calls) = some [⟨.chainDB, "SetTorrentProgress", true⟩] ∧
    (runSteps shutdownStep shutdownInit
        [.peerConnect, .stop, .stop, .stop, .stop, .listenReturn, .stop, .stop, .peerQuery 0,
          .peerCall 0 true]).map (fun st => (st.stop, st.calls)) =
      some (.drained, [⟨.chainDB, "GetTorrentProgress", true⟩]) :=
  ⟨listen_download_after_close { shutdownInit with stop := .dbClosed } true rfl (by decide),
    peer_query_after_close ⟨.drained, .returned, 0, [], [none], 0, []⟩ 0 true rfl (by decide)⟩

end CortexTheseus.Torrentfs
