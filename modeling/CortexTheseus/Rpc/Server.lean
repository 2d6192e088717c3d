import CortexTheseus.Schedule
import Mathlib.Data.List.Basic

/-!
# The RPC server's codec tracking

`ServeCodec` and `Stop` (server.go:80-152): each section under `s.mutex` is one step, codecs
are numbers, and a codec is closed once some `codec.close()` was called on it.
`serveSingleRequest` neither tracks nor closes a codec and is left out.
-/

namespace CortexTheseus.Rpc

/-- Where a `ServeCodec` call is. -/
inductive ServePc
  /-- about to call `s.trackCodec(codec)` -/
  | start
  /-- tracked: blocked in `<-codec.closed()` -/
  | serving
  /-- returning: the deferred `codec.close()` is next -/
  | closing
  | returned
  deriving DecidableEq, Repr

/-- A `ServeCodec(codec, options)` call: its codec, where it is, and whether
`trackCodec` admitted it (so that `defer s.untrackCodec(codec)` was registered). -/
structure Serve where
  codec : Nat
  pc : ServePc
  admitted : Bool
  deriving DecidableEq, Repr

/-- The server: `s.run`, the keys of `s.codecs`, the `codec.close()` calls made so far,
the `ServeCodec` calls, and the codecs each `Stop` call closed, in order. -/
structure Server where
  run : Bool
  codecs : List Nat
  closed : List Nat
  serves : List Serve
  stops : List (List Nat)
  deriving DecidableEq, Repr

/-- `NewServer()`: `run` set and no codec. -/
def newServer : Server := ⟨true, [], [], [], []⟩

inductive ServerAction
  /-- `go s.ServeCodec(codec, ...)` -/
  | serveCodec (codec : Nat)
  /-- call `k` runs `trackCodec` -/
  | track (k : Nat)
  /-- call `k` wakes from `<-codec.closed()`, runs `c.Close()` and then its deferred
  `untrackCodec` -/
  | untrack (k : Nat)
  /-- call `k` runs its deferred `codec.close()` and returns -/
  | close (k : Nat)
  /-- the connection closes codec `c` (a failed read, or the peer hanging up) -/
  | hangUp (c : Nat)
  /-- a `Stop` call -/
  | stop
  deriving DecidableEq, Repr

/-- One step; `none` when it is not enabled. `Stop` closes the codecs of `s.codecs` in
the order of the list, where Go's map ranges in any order. -/
def serverStep (s : Server) : ServerAction → Option Server
  | .serveCodec codec => some { s with serves := s.serves ++ [⟨codec, .start, false⟩] }
  | .track k =>
      match s.serves[k]? with
      | some sv =>
          if sv.pc = .start then
            if s.run then
              some { s with codecs := s.codecs.insert sv.codec,
                            serves := s.serves.set k ⟨sv.codec, .serving, true⟩ }
            else some { s with serves := s.serves.set k ⟨sv.codec, .closing, false⟩ }
          else none
      | none => none
  | .untrack k =>
      match s.serves[k]? with
      | some sv =>
          if sv.pc = .serving ∧ sv.codec ∈ s.closed then
            some { s with codecs := s.codecs.erase sv.codec,
                          serves := s.serves.set k { sv with pc := .closing } }
          else none
      | none => none
  | .close k =>
      match s.serves[k]? with
      | some sv =>
          if sv.pc = .closing then
            some { s with closed := s.closed ++ [sv.codec],
                          serves := s.serves.set k { sv with pc := .returned } }
          else none
      | none => none
  | .hangUp c => some { s with closed := s.closed ++ [c] }
  | .stop =>
      if s.run then
        some { s with run := false, closed := s.closed ++ s.codecs, stops := s.stops ++ [s.codecs] }
      else some { s with stops := s.stops ++ [[]] }

theorem serverStep_cases {s s' : Server} {a : ServerAction} (h : serverStep s a = some s') :
    (∃ c, s' = { s with serves := s.serves ++ [⟨c, .start, false⟩] }) ∨
    (∃ k sv, s.serves[k]? = some sv ∧ sv.pc = .start ∧ s.run = true ∧
      s' = { s with codecs := s.codecs.insert sv.codec,
                    serves := s.serves.set k ⟨sv.codec, .serving, true⟩ }) ∨
    (∃ k sv, s.serves[k]? = some sv ∧ sv.pc = .start ∧ s.run = false ∧
      s' = { s with serves := s.serves.set k ⟨sv.codec, .closing, false⟩ }) ∨
    (∃ k sv, s.serves[k]? = some sv ∧ sv.pc = .serving ∧ sv.codec ∈ s.closed ∧
      s' = { s with codecs := s.codecs.erase sv.codec,
                    serves := s.serves.set k { sv with pc := .closing } }) ∨
    (∃ k sv, s.serves[k]? = some sv ∧ sv.pc = .closing ∧
      s' = { s with closed := s.closed ++ [sv.codec],
                    serves := s.serves.set k { sv with pc := .returned } }) ∨
    (∃ c, s' = { s with closed := s.closed ++ [c] }) ∨
    (s.run = true ∧
      s' = { s with run := false, closed := s.closed ++ s.codecs, stops := s.stops ++ [s.codecs] }) ∨
    (s.run = false ∧ s' = { s with stops := s.stops ++ [[]] }) := by
  cases a with
  | serveCodec c => exact .inl ⟨c, (Option.some.inj h).symm⟩
  | track k =>
      simp only [serverStep] at h
      split at h
      · rename_i sv hk
        split at h
        · cases hr : s.run <;> simp only [hr, ite_true, Bool.false_eq_true, ite_false, Option.some.injEq] at h
          · exact .inr (.inr (.inl ⟨k, sv, hk, ‹_›, rfl, h.symm⟩))
          · exact .inr (.inl ⟨k, sv, hk, ‹_›, rfl, h.symm⟩)
        · cases h
      · cases h
  | untrack k =>
      simp only [serverStep] at h
      split at h
      · rename_i sv hk
        split at h
        · rename_i hg
          exact .inr (.inr (.inr (.inl ⟨k, sv, hk, hg.1, hg.2, (Option.some.inj h).symm⟩)))
        · cases h
      · cases h
  | close k =>
      simp only [serverStep] at h
      split at h
      · rename_i sv hk
        split at h
        · exact .inr (.inr (.inr (.inr (.inl ⟨k, sv, hk, ‹_›, (Option.some.inj h).symm⟩))))
        · cases h
      · cases h
  | hangUp c => exact .inr (.inr (.inr (.inr (.inr (.inl ⟨c, (Option.some.inj h).symm⟩)))))
  | stop =>
      simp only [serverStep] at h
      cases hr : s.run <;> simp only [hr, ite_true, Bool.false_eq_true, ite_false, Option.some.injEq] at h
      · exact .inr (.inr (.inr (.inr (.inr (.inr (.inr ⟨rfl, h.symm⟩))))))
      · exact .inr (.inr (.inr (.inr (.inr (.inr (.inl ⟨rfl, h.symm⟩))))))

/-! ### The invariant -/

/-- What every `ServeCodec` call keeps: an admitted call's codec is tracked or closed, a
call blocked in `<-codec.closed()` was admitted, and a call that has returned closed its
codec. -/
structure Serve.Sound (s : Server) (sv : Serve) : Prop where
  tracked : sv.admitted = true → sv.codec ∈ s.codecs ∨ sv.codec ∈ s.closed
  admitted : sv.pc = .serving → sv.admitted = true
  closed : sv.pc = .returned → sv.codec ∈ s.closed

theorem Serve.Sound.mono {s s' : Server} {sv : Serve} (h : sv.Sound s)
    (hcl : ∀ c ∈ s.closed, c ∈ s'.closed) (hco : ∀ c ∈ s.codecs, c ∈ s'.codecs ∨ c ∈ s'.closed) :
    sv.Sound s' where
  tracked ha := (h.tracked ha).elim (hco _) (.inr <| hcl _ ·)
  admitted := h.admitted
  closed hr := hcl _ (h.closed hr)

theorem forall_mem_set {P : Serve → Prop} {l : List Serve} {k : Nat} {y : Serve}
    (h : ∀ x ∈ l, P x) (hy : P y) : ∀ x ∈ l.set k y, P x := fun x hx =>
  (List.mem_or_eq_of_mem_set hx).elim (h x) (· ▸ hy)

structure Server.Invariant (s : Server) : Prop where
  /-- once `run` is cleared, every tracked codec has been closed -/
  codecs_closed : s.run = false → ∀ c ∈ s.codecs, c ∈ s.closed
  serves_sound : ∀ sv ∈ s.serves, sv.Sound s
  /-- `run` is cleared exactly when some `Stop` has returned -/
  run_iff : s.run = false ↔ s.stops ≠ []
  /-- every `Stop` after the first closed nothing -/
  later_stops : ∀ x ∈ s.stops.tail, x = []

theorem newServer_invariant : newServer.Invariant where
  codecs_closed := by simp [newServer]
  serves_sound := by simp [newServer]
  run_iff := by simp [newServer]
  later_stops := by simp [newServer]

theorem serverStep_invariant {s s' : Server} {a : ServerAction} (hi : s.Invariant)
    (h : serverStep s a = some s') : s'.Invariant := by
  obtain ⟨hcc, hss, hrun, hlater⟩ := hi
  -- a step that keeps `s.codecs` and every close keeps every call sound
  have kept {s' : Server} (hco : s'.codecs = s.codecs) (hcl : ∀ c ∈ s.closed, c ∈ s'.closed) :
      ∀ x ∈ s.serves, x.Sound s' := fun x hx => (hss x hx).mono hcl fun _ hc => .inl (hco ▸ hc)
  rcases serverStep_cases h with ⟨c, rfl⟩ | ⟨k, sv, hk, hpc, hr, rfl⟩ | ⟨k, sv, hk, hpc, hr, rfl⟩ |
    ⟨k, sv, hk, hpc, hcl, rfl⟩ | ⟨k, sv, hk, hpc, rfl⟩ | ⟨c, rfl⟩ | ⟨hr, rfl⟩ | ⟨hr, rfl⟩
  · -- a new call, not yet admitted
    refine ⟨hcc, fun x hx => ?_, hrun, hlater⟩
    rcases List.mem_append.mp hx with hx | hx
    · refine kept ?_ (fun _ h => ?_) x hx
      · rfl
      · exact h
    · rw [List.mem_singleton.mp hx]
      exact ⟨nofun, nofun, nofun⟩
  · -- `trackCodec` admits the codec while `run` is set
    refine ⟨by simp [hr], forall_mem_set (fun x hx => ?_) ⟨fun _ => .inl ?_, fun _ => rfl, nofun⟩,
      hrun, hlater⟩
    · exact (hss x hx).mono (fun _ => id) (fun _ hc => .inl (List.mem_insert_of_mem hc))
    · exact List.mem_insert_self _ _
  · -- `trackCodec` refuses it
    exact ⟨hcc, forall_mem_set (kept rfl fun _ => id) ⟨nofun, nofun, nofun⟩, hrun, hlater⟩
  · -- `untrackCodec`, once the codec is closed
    have hco : ∀ c ∈ s.codecs, c ∈ s.codecs.erase sv.codec ∨ c ∈ s.closed := fun c hc => by
      by_cases he : c = sv.codec
      · exact .inr (he ▸ hcl)
      · exact .inl ((List.mem_erase_of_ne he).mpr hc)
    exact ⟨fun hr c hc => hcc hr c (List.mem_of_mem_erase hc),
      forall_mem_set (fun x hx => (hss x hx).mono (fun _ => id) hco) ⟨fun _ => .inr hcl, nofun, nofun⟩,
      hrun, hlater⟩
  · -- the deferred `codec.close()`
    exact ⟨fun hr c hc => List.mem_append_left _ (hcc hr c hc),
      forall_mem_set (kept rfl fun _ => List.mem_append_left _)
        ⟨fun _ => .inr (by simp), nofun, fun _ => by simp⟩, hrun, hlater⟩
  · -- the connection closes a codec
    exact ⟨fun hr c hc => List.mem_append_left _ (hcc hr c hc),
      kept rfl fun _ => List.mem_append_left _, hrun, hlater⟩
  · -- the first `Stop`: the compare-and-swap succeeds
    have hnil : s.stops = [] := by simpa [hr] using hrun
    exact ⟨fun _ c hc => List.mem_append_right _ hc, kept rfl fun _ => List.mem_append_left _,
      by simp, by simp [hnil]⟩
  · -- a later `Stop` closes nothing
    refine ⟨hcc, kept rfl fun _ => id, by simp [hr], ?_⟩
    simp only [List.tail_append_of_ne_nil (hrun.mp hr), List.mem_append, List.mem_singleton]
    exact fun x hx => hx.elim (hlater x) id

theorem Server.Invariant.of_reachable {s : Server} (h : Reachable serverStep newServer s) :
    s.Invariant :=
  Reachable.invariant serverStep newServer_invariant (fun _ _ _ hi hs => serverStep_invariant hi hs) h

/-! ### After `run` is cleared -/

theorem serverStep_stopped {s s' : Server} {a : ServerAction} (hr : s.run = false)
    (h : serverStep s a = some s') : s'.run = false ∧ ∀ c ∈ s'.codecs, c ∈ s.codecs := by
  rcases serverStep_cases h with ⟨c, rfl⟩ | ⟨k, sv, hk, hpc, hr', rfl⟩ | ⟨k, sv, hk, hpc, hr', rfl⟩ |
    ⟨k, sv, hk, hpc, hcl, rfl⟩ | ⟨k, sv, hk, hpc, rfl⟩ | ⟨c, rfl⟩ | ⟨hr', rfl⟩ | ⟨hr', rfl⟩
  · exact ⟨hr, fun _ => id⟩
  · simp [hr] at hr'
  · exact ⟨hr, fun _ => id⟩
  · exact ⟨hr, fun _ => List.mem_of_mem_erase⟩
  · exact ⟨hr, fun _ => id⟩
  · exact ⟨hr, fun _ => id⟩
  · simp [hr] at hr'
  · exact ⟨hr, fun _ => id⟩

theorem runSteps_stopped {s s' : Server} {as : List ServerAction} (hr : s.run = false)
    (h : runSteps serverStep s as = some s') : s'.run = false ∧ ∀ c ∈ s'.codecs, c ∈ s.codecs :=
  @runSteps_invariant _ _ serverStep (fun t => t.run = false ∧ ∀ c ∈ t.codecs, c ∈ s.codecs)
    (fun _ _ _ ht hs => (serverStep_stopped ht.1 hs).imp id fun hsub c hc => ht.2 c (hsub c hc))
    _ _ _ ⟨hr, fun _ => id⟩ h

/-- The steps that take a `ServeCodec` call at `pc` to its return, once `run` is cleared. -/
def finishServe (k : Nat) : ServePc → List ServerAction
  | .start => [.track k, .close k]
  | .serving => [.untrack k, .close k]
  | .closing => [.close k]
  | .returned => []

/-- "It will block until the codec is closed or the server is stopped. In either case
the codec is closed": once a `Stop` has returned, every `ServeCodec` call can run to
its return, and its codec is then closed. -/
theorem serveCodec_returns_after_stop {s : Server} (h : Reachable serverStep newServer s)
    (hr : s.run = false) {k : Nat} {sv : Serve} (hk : s.serves[k]? = some sv) :
    ∃ s', runSteps serverStep s (finishServe k sv.pc) = some s' ∧
      (s'.serves[k]?.map (·.pc)) = some .returned ∧ sv.codec ∈ s'.closed := by
  have hi := Server.Invariant.of_reachable h
  have hlt : k < s.serves.length := (List.getElem?_eq_some_iff.mp hk).1
  have hmem := List.getElem?_mem hk
  cases hpc : sv.pc with
  | start => simp [finishServe, serverStep, hk, hpc, hr, hlt]
  | serving =>
      have hsv := hi.serves_sound sv hmem
      have hcl : sv.codec ∈ s.closed :=
        (hsv.tracked (hsv.admitted hpc)).elim (hi.codecs_closed hr _) id
      simp [finishServe, serverStep, hk, hpc, hcl, hlt]
  | closing => simp [finishServe, serverStep, hk, hpc, hlt]
  | returned => exact ⟨s, rfl, by simp [hk, hpc], (hi.serves_sound sv hmem).closed hpc⟩

theorem serveCodec_returns_after_stop_served :
    ∃ s, runSteps serverStep newServer [.serveCodec 1, .track 0, .stop] = some s ∧ s.run = false ∧
      s.serves[0]? = some ⟨1, .serving, true⟩ ∧
      ∃ s', runSteps serverStep s (finishServe 0 .serving) = some s' ∧
        (s'.serves[0]?.map (·.pc)) = some .returned ∧ 1 ∈ s'.closed :=
  ⟨_, rfl, rfl, rfl,
    @serveCodec_returns_after_stop _ ⟨[.serveCodec 1, .track 0, .stop], rfl⟩ rfl 0 ⟨1, .serving, true⟩ rfl⟩

theorem serverStep_stop (s : Server) :
    ∃ s', serverStep s .stop = some s' ∧ s'.run = false ∧
      (s.run = true → ∀ c ∈ s.codecs, c ∈ s'.closed) ∧ (s.run = false → s'.closed = s.closed) := by
  cases hr : s.run
  · exact ⟨{ s with stops := s.stops ++ [[]] }, by simp [serverStep, hr], hr, nofun, fun _ => rfl⟩
  · exact ⟨{ s with run := false, closed := s.closed ++ s.codecs, stops := s.stops ++ [s.codecs] },
      by simp [serverStep, hr], rfl, fun _ _ hc => List.mem_append_right _ hc, nofun⟩

/-- Over any interleaving of `ServeCodec` calls, connections closing and `Stop` calls:
once `run` is cleared every codec of `s.codecs` has been closed, and no later step adds
a codec to `s.codecs`; `run` is cleared exactly when some `Stop` has returned, and from
then on every codec `trackCodec` admitted has been closed; every `Stop` after the first
closed nothing. A `Stop` can run in every state: it clears `run`, and it closes every
codec of `s.codecs` when `run` was set and nothing otherwise. -/
theorem stop_closes_tracked_codecs (s : Server) (h : Reachable serverStep newServer s) :
    (s.run = false → ∀ c ∈ s.codecs, c ∈ s.closed) ∧
    (s.run = false → ∀ as s', runSteps serverStep s as = some s' →
      s'.run = false ∧ ∀ c ∈ s'.codecs, c ∈ s.codecs) ∧
    (s.run = false ↔ s.stops ≠ []) ∧
    (s.stops ≠ [] → ∀ sv ∈ s.serves, sv.admitted = true → sv.codec ∈ s.closed) ∧
    (∀ x ∈ s.stops.tail, x = []) ∧
    ∃ s', serverStep s .stop = some s' ∧ s'.run = false ∧
      (s.run = true → ∀ c ∈ s.codecs, c ∈ s'.closed) ∧ (s.run = false → s'.closed = s.closed) := by
  have hi := Server.Invariant.of_reachable h
  refine ⟨hi.codecs_closed, fun hr _ _ => runSteps_stopped hr, hi.run_iff, fun hst sv hsv ha => ?_,
    hi.later_stops, serverStep_stop s⟩
  exact ((hi.serves_sound sv hsv).tracked ha).elim (hi.codecs_closed (hi.run_iff.mpr hst) _) id

def serveAndStop : List ServerAction :=
  [.serveCodec 1, .serveCodec 2, .track 0, .track 1, .hangUp 1, .untrack 0, .stop,
    .serveCodec 3, .track 2, .stop, .close 0, .untrack 1, .close 1, .close 2]

theorem stop_closes_tracked_codecs_serve_and_stop :
    ∃ s, runSteps serverStep newServer serveAndStop = some s ∧
      s.run = false ∧ s.codecs = [] ∧ s.closed = [1, 2, 1, 2, 3] ∧ s.stops = [[2], []] ∧
      ((s.run = false → ∀ c ∈ s.codecs, c ∈ s.closed) ∧
      (s.run = false → ∀ as s', runSteps serverStep s as = some s' →
        s'.run = false ∧ ∀ c ∈ s'.codecs, c ∈ s.codecs) ∧
      (s.run = false ↔ s.stops ≠ []) ∧
      (s.stops ≠ [] → ∀ sv ∈ s.serves, sv.admitted = true → sv.codec ∈ s.closed) ∧
      (∀ x ∈ s.stops.tail, x = []) ∧
      ∃ s', serverStep s .stop = some s' ∧ s'.run = false ∧
        (s.run = true → ∀ c ∈ s.codecs, c ∈ s'.closed) ∧ (s.run = false → s'.closed = s.closed)) :=
  ⟨_, rfl, rfl, rfl, rfl, rfl, stop_closes_tracked_codecs _ ⟨serveAndStop, rfl⟩⟩

end CortexTheseus.Rpc
