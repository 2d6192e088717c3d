import CortexTheseus.Schedule
import Mathlib.Data.List.Basic

/-!
# The inference server

`New` (part_000:42-58) binds the server it builds with `:=`, a local shadowing
`globalInferServer`, which `SubmitInferWork` (part_000:60-68) reads. `submitInferWork`,
`Close` and `fetchWork` (part_000:70-95) are goroutines with program counters, one
statement a step.
-/

namespace CortexTheseus.Infernet

/-- `infernet.Config`. -/
structure Config where
  storageDir : String
  deriving DecidableEq, Repr

/-! ### The package variable -/

/-- The package state: `globalInferServer` (`none` is nil; servers are named by the
order `New` allocated them in), the configs of the servers allocated, and the number of
`fetchWork` loops started. -/
structure Package where
  globalInferServer : Option Nat
  servers : List Config
  fetchLoops : Nat
  deriving DecidableEq, Repr

/-- Before any call: `globalInferServer` is nil. -/
def packageInit : Package := ⟨none, [], 0⟩

/-- `New(config)`: the server it returns, and the package after it. The server built
is bound by `globalInferServer := ...`, a variable local to `New`. -/
def new (p : Package) (config : Config) : Nat × Package :=
  match p.globalInferServer with
  | some s => (s, p)
  | none => (p.servers.length, { p with servers := p.servers ++ [config], fetchLoops := p.fetchLoops + 1 })

/-- `SubmitInferWork`: the server the work is handed to; calling the method on a nil
`globalInferServer` dereferences nil in `atomic.LoadInt32(&is.stopInfer)`. -/
def submitInferWork (p : Package) : Except String Nat :=
  match p.globalInferServer with
  | some s => .ok s
  | none => .error "invalid memory address or nil pointer dereference"

inductive PackageCall
  | new (config : Config)
  | submit
  deriving DecidableEq, Repr

/-- The result of a call: the server `New` returned, or what `SubmitInferWork` did. -/
def PackageCall.run (p : Package) : PackageCall → Except String Nat × Package
  | .new config => let r := Infernet.new p config; (.ok r.1, r.2)
  | .submit => (submitInferWork p, p)

/-- Calls one after another: the results, in order, and the package after them. -/
def packageRun (p : Package) : List PackageCall → List (Except String Nat) × Package
  | [] => ([], p)
  | c :: cs =>
      let r := c.run p
      let rest := packageRun r.2 cs
      (r.1 :: rest.1, rest.2)

theorem packageRun_global (cs : List PackageCall) :
    ∀ p : Package, (packageRun p cs).2.globalInferServer = p.globalInferServer := by
  induction cs with
  | nil => intro p; rfl
  | cons c cs ih =>
      intro p
      cases c with
      | new config =>
          cases hg : p.globalInferServer <;> simp [packageRun, PackageCall.run, new, hg, ih]
      | submit => simp [packageRun, PackageCall.run, ih]

/-- Whether a call is a `New`. -/
def PackageCall.isNew : PackageCall → Bool
  | .new _ => true
  | .submit => false

theorem packageRun_from_nil (cs : List PackageCall) :
    ∀ p : Package, p.globalInferServer = none →
      (packageRun p cs).1.filterMap (·.toOption) =
        List.range' p.servers.length (cs.countP PackageCall.isNew) ∧
      (packageRun p cs).2.servers.length = p.servers.length + cs.countP PackageCall.isNew ∧
      (packageRun p cs).2.fetchLoops = p.fetchLoops + cs.countP PackageCall.isNew ∧
      ∀ x ∈ cs.zip (packageRun p cs).1, x.1 = .submit →
        x.2 = .error "invalid memory address or nil pointer dereference" := by
  induction cs with
  | nil => intro p _; simp [packageRun]
  | cons c cs ih =>
      intro p hp
      cases c with
      | new config =>
          obtain ⟨h1, h2, h3, h4⟩ :=
            ih { p with servers := p.servers ++ [config], fetchLoops := p.fetchLoops + 1 } hp
          simp only [packageRun, PackageCall.run, new, hp, List.length_append, List.length_singleton]
            at h1 h2 h3 h4 ⊢
          refine ⟨?_, by simp [h2, PackageCall.isNew]; omega, by simp [h3, PackageCall.isNew]; omega, ?_⟩
          · have hok : (Except.ok p.servers.length : Except String Nat).toOption =
                some p.servers.length := rfl
            simp [h1, hok, PackageCall.isNew, List.range'_succ]
          · simpa using h4
      | submit =>
          obtain ⟨h1, h2, h3, h4⟩ := ih p hp
          simp only [packageRun, PackageCall.run, submitInferWork, hp] at h1 h2 h3 h4 ⊢
          have herr : (Except.error "invalid memory address or nil pointer dereference" :
              Except String Nat).toOption = none := rfl
          refine ⟨by simp [h1, herr, PackageCall.isNew], by simp [h2, PackageCall.isNew],
            by simp [h3, PackageCall.isNew], ?_⟩
          simpa using h4

/-- `New` never sets the package variable: over every sequence of calls it stays nil, the
`k`-th `New` returns a server of its own and starts one more `fetchWork` loop, and every
`SubmitInferWork` dereferences nil. Two `New` calls and a submission: the servers 0 and
1, two loops, and a nil dereference. -/
theorem new_shadows_globalInferServer :
    (∀ cs, (packageRun packageInit cs).2.globalInferServer = none) ∧
    (∀ cs, (packageRun packageInit cs).1.filterMap (·.toOption) =
      List.range (cs.countP PackageCall.isNew) ∧
      (packageRun packageInit cs).2.fetchLoops = cs.countP PackageCall.isNew ∧
      ∀ x ∈ cs.zip (packageRun packageInit cs).1, x.1 = .submit →
        x.2 = .error "invalid memory address or nil pointer dereference") ∧
    packageRun packageInit [.new ⟨"/data"⟩, .new ⟨"/data"⟩, .submit] =
      ([.ok 0, .ok 1, .error "invalid memory address or nil pointer dereference"],
        ⟨none, [⟨"/data"⟩, ⟨"/data"⟩], 2⟩) := by
  refine ⟨fun cs => packageRun_global cs packageInit, fun cs => ?_, rfl⟩
  obtain ⟨h1, -, h3, h4⟩ := packageRun_from_nil cs packageInit rfl
  exact ⟨by simpa [List.range_eq_range'] using h1, by simpa [packageInit] using h3, h4⟩

/-! ### Submitting work while the server closes -/

/-- Where a `submitInferWork` call is. -/
inductive SubmitPc
  /-- about to read `is.stopInfer` -/
  | start
  /-- read 1: about to send on the unbuffered `is.inferWorkCh` -/
  | sending
  /-- returned `err` (`none` is nil) -/
  | returned (err : Option String)
  deriving DecidableEq, Repr

/-- Where `Close` is. -/
inductive ClosePc
  | notCalled
  /-- `atomic.StoreInt32(&is.stopInfer, 0)` done -/
  | stored
  /-- `close(is.exitCh)` done -/
  | closed
  deriving DecidableEq, Repr

/-- One server: `is.stopInfer`, whether `fetchWork` is still looping, `Close`, the
`submitInferWork` calls, and the calls whose work `fetchWork` received (and started a
`localInfer` for), in order. -/
structure Server where
  stopInfer : Nat
  fetching : Bool
  close : ClosePc
  submitters : List SubmitPc
  inferred : List Nat
  deriving DecidableEq, Repr

/-- A server just built by `New` (`stopInfer: 1`, `go fetchWork()`), with `n`
`submitInferWork` calls about to start. -/
def serverInit (n : Nat) : Server := ⟨1, true, .notCalled, List.replicate n .start, []⟩

inductive ServerAction
  /-- call `k` reads `is.stopInfer` -/
  | load (k : Nat)
  /-- `fetchWork` receives the work of call `k`: the rendezvous on `is.inferWorkCh` -/
  | handoff (k : Nat)
  /-- `Close` stores 0 in `is.stopInfer` -/
  | closeStore
  /-- `Close` closes `is.exitCh` -/
  | closeExit
  /-- `fetchWork` takes `<-is.exitCh` and returns -/
  | exit
  deriving DecidableEq, Repr

/-- One step; `none` when it is not enabled. When both the rendezvous and `exitCh` are
ready, `fetchWork`'s `select` may take either. -/
def serverStep (st : Server) : ServerAction → Option Server
  | .load k =>
      if st.submitters[k]? = some .start then
        let pc := if st.stopInfer = 0 then SubmitPc.returned (some "Inference Server is closed")
          else .sending
        some { st with submitters := st.submitters.set k pc }
      else none
  | .handoff k =>
      if st.submitters[k]? = some .sending ∧ st.fetching then
        some { st with submitters := st.submitters.set k (.returned none), inferred := st.inferred ++ [k] }
      else none
  | .closeStore =>
      if st.close = .notCalled then some { st with stopInfer := 0, close := .stored } else none
  | .closeExit => if st.close = .stored then some { st with close := .closed } else none
  | .exit => if st.fetching ∧ st.close = .closed then some { st with fetching := false } else none

/-- A call parked on its send once `fetchWork` has returned stays parked: no step moves
it, so it is blocked forever. -/
theorem serverStep_parked {st st' : Server} {a : ServerAction} {k : Nat}
    (hk : st.submitters[k]? = some .sending ∧ st.fetching = false) (h : serverStep st a = some st') :
    st'.submitters[k]? = some .sending ∧ st'.fetching = false := by
  obtain ⟨hs, hf⟩ := hk
  cases a with
  | load j =>
      simp only [serverStep] at h
      split at h
      · cases h
        have hjk : j ≠ k := by rintro rfl; simp_all
        simp [List.getElem?_set_ne hjk, hs, hf]
      · cases h
  | handoff j =>
      simp only [serverStep] at h
      split at h
      · simp_all
      · cases h
  | closeStore | closeExit | exit =>
      simp only [serverStep] at h
      split at h
      · cases h; simp_all
      · cases h

/-- A call reads `stopInfer = 1`, then `Close` runs and `fetchWork` takes `exitCh`: the call
is parked on `is.inferWorkCh <- iw` and, whatever runs next, it never returns and its
work is never received. -/
theorem submit_blocks_after_close :
    ∃ st, runSteps serverStep (serverInit 1) [.load 0, .closeStore, .closeExit, .exit] = some st ∧
      st.submitters = [.sending] ∧ st.fetching = false ∧ st.inferred = [] ∧
      ∀ as st', runSteps serverStep st as = some st' → st'.submitters[0]? = some .sending := by
  refine ⟨_, rfl, rfl, rfl, rfl, fun as st' h => ?_⟩
  exact (@runSteps_invariant _ _ serverStep (fun st => st.submitters[0]? = some .sending ∧
    st.fetching = false) (fun _ _ _ hk hs => serverStep_parked hk hs) _ _ _ ⟨rfl, rfl⟩ h).1

end CortexTheseus.Infernet
