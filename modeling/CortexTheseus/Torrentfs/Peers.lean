import CortexTheseus.Schedule
import CortexTheseus.Common.Hex
import Mathlib.Data.List.AList

/-!
# The peer registry

`TorrentFS.HandlePeer` (fs.go:321-347) sessions, run concurrently; `fs.peerMu` makes each
registration and deletion atomic, and sessions alive at once have distinct node ids.
`fs.peers` is an association list; `PeerInfo` (fs.go:199-219) looks it up.
-/

namespace CortexTheseus.Torrentfs

open CortexTheseus.Common

/-- `enode.ID`: 32 bytes. -/
structure NodeID where
  bytes : List UInt8
  length_eq : bytes.length = 32
  deriving DecidableEq

/-- `enode.ID.String` (not under src/): `fmt.Sprintf("%x", n[:])`, all 32 bytes. -/
def NodeID.string (id : NodeID) : String := hexString id.bytes

/-- The key `HandlePeer` registers a session under: `peer.ID().String()` (fs.go:323). -/
def registerKey (id : NodeID) : String := id.string

/-- The key `PeerInfo` looks up: `fmt.Sprintf("%x", id[:8])` (fs.go:202). -/
def peerInfoKey (id : NodeID) : String := hexString (id.bytes.take 8)

theorem registerKey_length (id : NodeID) : (registerKey id).length = 64 := by
  simp [registerKey, NodeID.string, id.length_eq]

theorem peerInfoKey_length (id : NodeID) : (peerInfoKey id).length = 16 := by
  simp [peerInfoKey, id.length_eq]

theorem registerKey_ne_peerInfoKey (id id' : NodeID) : registerKey id ≠ peerInfoKey id' := by
  intro h
  have hl := congrArg String.length h
  rw [registerKey_length, peerInfoKey_length] at hl
  cases hl

theorem registerKey_injective {id id' : NodeID} (h : registerKey id = registerKey id') :
    id = id' := by
  obtain ⟨bs, _⟩ := id
  obtain ⟨bs', _⟩ := id'
  cases hexString_injective h
  rfl

/-- Where a `HandlePeer` call is. -/
inductive SessionPc
  /-- `newPeer` done, about to register -/
  | created
  /-- in `fs.peers`, about to run the handshake -/
  | registered
  /-- handshake done and timers started, in `runMessageLoop` -/
  | running
  /-- `runMessageLoop` returned; the deferred `stop()` is next -/
  | loopDone
  /-- the deferred delete from `fs.peers` is next -/
  | leaving
  /-- `HandlePeer` returned -/
  | done
  deriving DecidableEq, Repr

/-- A session, with what it has done to its timers and to `fs.peers`. -/
structure Session where
  id : NodeID
  pc : SessionPc
  /-- `tfsPeer.start()` ran -/
  started : Bool
  /-- times `tfsPeer.stop()` ran -/
  stops : Nat
  /-- times the deferred `delete(fs.peers, tfsPeer.id)` ran -/
  removals : Nat
  deriving DecidableEq

/-- The session is in `fs.peers`: it registered and its deferred delete has not run. -/
def Session.inPeers (s : Session) : Bool :=
  match s.pc with
  | .registered | .running | .loopDone | .leaving => true
  | .created | .done => false

/-- `HandlePeer` has not returned. -/
def Session.live (s : Session) : Bool :=
  match s.pc with
  | .done => false
  | _ => true

/-- The steps of a session that touch neither `fs.peers` nor the counters. -/
inductive PeerAction
  /-- `tfsPeer.handshake()` returns; on success `tfsPeer.start()` runs -/
  | handshake (ok : Bool)
  /-- `runMessageLoop` returns -/
  | loopExit
  /-- the deferred `tfsPeer.stop()` runs -/
  | stopTimers
  deriving DecidableEq, Repr

def Session.advance (s : Session) : PeerAction → Option Session
  | .handshake ok =>
      if s.pc = .registered then
        some (if ok then { s with pc := .running, started := true } else { s with pc := .leaving })
      else none
  | .loopExit => if s.pc = .running then some { s with pc := .loopDone } else none
  | .stopTimers =>
      if s.pc = .loopDone then some { s with pc := .leaving, stops := s.stops + 1 } else none

/-- The registry: `fs.peers`, the sessions `HandlePeer` has run, `fs.in` and `fs.out`. -/
structure Registry where
  peers : AList fun _ : String => Nat
  sessions : List Session
  /-- `fs.in`, a `uint64`: exact while fewer than 2^64 sessions have started -/
  inCount : Nat
  /-- `fs.out`, a `uint64` -/
  outCount : Nat

/-- `New` makes `fs.peers` empty. -/
def registryInit : Registry := ⟨∅, [], 0, 0⟩

inductive RegistryAction
  /-- the p2p server calls `HandlePeer` for a peer with this node id -/
  | connect (id : NodeID)
  /-- `fs.peers[tfsPeer.id] = tfsPeer; fs.in++` under `fs.peerMu` -/
  | register (k : Nat)
  /-- a step of session `k` on its own state -/
  | step (k : Nat) (a : PeerAction)
  /-- the deferred `delete(fs.peers, tfsPeer.id); fs.out++` under `fs.peerMu` -/
  | unregister (k : Nat)

/-- One step of the registry; `none` when the session is not at that statement. -/
def registryStep (r : Registry) : RegistryAction → Option Registry
  | .connect id =>
      if r.sessions.any fun s => s.live && s.id = id then none
      else some { r with sessions := r.sessions ++ [⟨id, .created, false, 0, 0⟩] }
  | .register k =>
      match r.sessions[k]? with
      | some s =>
          if s.pc = .created then
            some ⟨r.peers.insert (registerKey s.id) k, r.sessions.set k { s with pc := .registered },
              r.inCount + 1, r.outCount⟩
          else none
      | none => none
  | .step k a =>
      match r.sessions[k]? with
      | some s => (s.advance a).map fun s' => { r with sessions := r.sessions.set k s' }
      | none => none
  | .unregister k =>
      match r.sessions[k]? with
      | some s =>
          if s.pc = .leaving then
            some ⟨r.peers.erase (registerKey s.id),
              r.sessions.set k { s with pc := .done, removals := s.removals + 1 },
              r.inCount, r.outCount + 1⟩
          else none
      | none => none

/-- The protocol's `PeerInfo(id)` callback: the session it finds. It returns a non-nil
record exactly when it finds one. -/
def peerInfo (r : Registry) (id : NodeID) : Option Nat := r.peers.lookup (peerInfoKey id)

/-! ### The registry invariant -/

/-- What a session has done to its timers and to `fs.peers`, by where it is. -/
def Session.Consistent (s : Session) : Prop :=
  match s.pc with
  | .created | .registered => s.started = false ∧ s.stops = 0 ∧ s.removals = 0
  | .running | .loopDone => s.started = true ∧ s.stops = 0 ∧ s.removals = 0
  | .leaving => s.stops = (if s.started then 1 else 0) ∧ s.removals = 0
  | .done => s.stops = (if s.started then 1 else 0) ∧ s.removals = 1

theorem Session.live_of_inPeers {s : Session} (h : s.inPeers) : s.live := by
  unfold Session.inPeers at h
  unfold Session.live
  split at h <;> simp_all

theorem Session.advance_spec {s s' : Session} {a : PeerAction} (h : s.advance a = some s') :
    s'.id = s.id ∧ s'.inPeers = s.inPeers ∧ s'.live = s.live ∧ (s.Consistent → s'.Consistent) := by
  cases a with
  | handshake ok =>
      simp only [Session.advance] at h
      split at h
      · cases h
        cases ok <;> simp_all [Session.inPeers, Session.live, Session.Consistent]
      · cases h
  | loopExit =>
      simp only [Session.advance] at h
      split at h
      · cases h; simp_all [Session.inPeers, Session.live, Session.Consistent]
      · cases h
  | stopTimers =>
      simp only [Session.advance] at h
      split at h
      · cases h; simp_all [Session.inPeers, Session.live, Session.Consistent]
      · cases h

structure Registry.Invariant (r : Registry) : Prop where
  counts : r.inCount = r.outCount + r.peers.keys.length
  size : r.peers.keys.length = r.sessions.countP Session.inPeers
  lookup_of_inPeers : ∀ {k : Nat} {s : Session}, r.sessions[k]? = some s → s.inPeers →
    r.peers.lookup (registerKey s.id) = some k
  inPeers_of_lookup : ∀ {key : String} {k : Nat}, r.peers.lookup key = some k →
    ∃ s, r.sessions[k]? = some s ∧ s.inPeers ∧ registerKey s.id = key
  ids : ∀ {i j : Nat} {si sj : Session}, r.sessions[i]? = some si → r.sessions[j]? = some sj →
    si.live → sj.live → si.id = sj.id → i = j
  consistent : ∀ {k : Nat} {s : Session}, r.sessions[k]? = some s → s.Consistent

theorem registryInit_invariant : registryInit.Invariant where
  counts := rfl
  size := rfl
  lookup_of_inPeers := by simp [registryInit]
  inPeers_of_lookup := by simp [registryInit, AList.lookup_empty]
  ids := by simp [registryInit]
  consistent := by simp [registryInit]

namespace Registry.Invariant

variable {r : Registry}

theorem eq_of_key (hi : r.Invariant) {i j : Nat} {si sj : Session} (hsi : r.sessions[i]? = some si)
    (hsj : r.sessions[j]? = some sj) (li : si.live) (lj : sj.live)
    (hk : registerKey si.id = registerKey sj.id) : i = j :=
  hi.ids hsi hsj li lj (registerKey_injective hk)

theorem connect (hi : r.Invariant) {id : NodeID}
    (hg : (r.sessions.any fun s => s.live && s.id = id) = false) :
    Registry.Invariant { r with sessions := r.sessions ++ [⟨id, .created, false, 0, 0⟩] } where
  counts := hi.counts
  size := by simp [List.countP_append, hi.size, Session.inPeers]
  lookup_of_inPeers := fun hk hs => by
    rcases getElem?_snoc_cases hk with hk | ⟨-, rfl⟩
    · exact hi.lookup_of_inPeers hk hs
    · simp [Session.inPeers] at hs
  inPeers_of_lookup := fun hl => by
    obtain ⟨s, hk, hs, hkey⟩ := hi.inPeers_of_lookup hl
    exact ⟨s, getElem?_append_of_some hk, hs, hkey⟩
  ids := fun hsi hsj li lj he => by
    have hfresh : ∀ {k : Nat} {s : Session}, r.sessions[k]? = some s → s.live → s.id ≠ id :=
        fun hk hl he' => by
      have := List.any_eq_false.mp hg _ (List.getElem?_mem hk)
      simp_all
    rcases getElem?_snoc_cases hsi with hsi | ⟨rfl, rfl⟩ <;>
      rcases getElem?_snoc_cases hsj with hsj | ⟨rfl, rfl⟩
    · exact hi.ids hsi hsj li lj he
    · exact absurd he (hfresh hsi li)
    · exact absurd he.symm (hfresh hsj lj)
    · rfl
  consistent := fun hk => by
    rcases getElem?_snoc_cases hk with hk | ⟨-, rfl⟩
    · exact hi.consistent hk
    · simp [Session.Consistent]

theorem register (hi : r.Invariant) {k : Nat} {s : Session} (hk : r.sessions[k]? = some s)
    (hc : s.pc = .created) :
    Registry.Invariant ⟨r.peers.insert (registerKey s.id) k,
      r.sessions.set k { s with pc := .registered }, r.inCount + 1, r.outCount⟩ := by
  obtain ⟨hlt, hget⟩ := List.getElem?_eq_some_iff.mp hk
  have hs_live : s.live := by simp [Session.live, hc]
  have hs_out : s.inPeers = false := by simp [Session.inPeers, hc]
  have hother : ∀ {j : Nat} {sj : Session}, r.sessions[j]? = some sj → sj.live →
      registerKey sj.id = registerKey s.id → j = k :=
    fun hj lj he => hi.eq_of_key hj hk lj hs_live he
  have hfresh : registerKey s.id ∉ r.peers.keys := by
    intro hm
    obtain ⟨j, hj⟩ := Option.isSome_iff_exists.mp (AList.lookup_isSome.mpr (AList.mem_keys.mpr hm))
    obtain ⟨sj, hsj, hin, hkey⟩ := hi.inPeers_of_lookup hj
    obtain rfl := hother hsj (Session.live_of_inPeers hin) hkey
    rw [hk] at hsj
    cases hsj
    simp [hs_out] at hin
  exact {
    counts := by
      simp only [AList.keys_insert, List.erase_of_not_mem hfresh, List.length_cons, hi.counts]
      omega
    size := by
      simp only [AList.keys_insert, List.erase_of_not_mem hfresh, List.length_cons,
        List.countP_set _ _ _ _ hlt, hget, hi.size, hs_out]
      simp [Session.inPeers]
    lookup_of_inPeers := fun {j sj} hj hin => by
      rcases getElem?_set_cases hj with ⟨rfl, rfl⟩ | ⟨hne, hj⟩
      · simp
      · rw [AList.lookup_insert_ne fun he => hne (hother hj (Session.live_of_inPeers hin) he)]
        exact hi.lookup_of_inPeers hj hin
    inPeers_of_lookup := fun {key j} hl => by
      by_cases hkey : key = registerKey s.id
      · subst hkey
        rw [AList.lookup_insert, Option.some.injEq] at hl
        subst hl
        exact ⟨_, List.getElem?_set_self hlt, by simp [Session.inPeers], rfl⟩
      · rw [AList.lookup_insert_ne hkey] at hl
        obtain ⟨sj, hj, hin, hk'⟩ := hi.inPeers_of_lookup hl
        have hne : k ≠ j := by
          rintro rfl
          rw [hk] at hj
          cases hj
          simp [hs_out] at hin
        exact ⟨sj, by rw [List.getElem?_set_ne hne]; exact hj, hin, hk'⟩
    ids := fun {i j si sj} hsi hsj li lj he => by
      rcases getElem?_set_cases hsi with ⟨rfl, rfl⟩ | ⟨_, hsi'⟩ <;>
        rcases getElem?_set_cases hsj with ⟨rfl, rfl⟩ | ⟨_, hsj'⟩
      · rfl
      · exact hi.ids hk hsj' hs_live lj he
      · exact hi.ids hsi' hk li hs_live he
      · exact hi.ids hsi' hsj' li lj he
    consistent := fun {j sj} hj => by
      rcases getElem?_set_cases hj with ⟨rfl, rfl⟩ | ⟨_, hj⟩
      · have hcons := hi.consistent hk
        simp only [Session.Consistent, hc] at hcons ⊢
        exact hcons
      · exact hi.consistent hj }

theorem step (hi : r.Invariant) {k : Nat} {s s' : Session} {a : PeerAction}
    (hk : r.sessions[k]? = some s) (ha : s.advance a = some s') :
    Registry.Invariant { r with sessions := r.sessions.set k s' } := by
  obtain ⟨hlt, hget⟩ := List.getElem?_eq_some_iff.mp hk
  obtain ⟨hid, hin, hlive, hcons⟩ := Session.advance_spec ha
  have hle := List.boole_getElem_le_countP Session.inPeers r.sessions k hlt
  exact {
    counts := hi.counts
    size := by
      simp only [hi.size, List.countP_set _ _ _ _ hlt, hin, hget] at hle ⊢
      omega
    lookup_of_inPeers := fun {j sj} hj hinj => by
      rcases getElem?_set_cases hj with ⟨rfl, rfl⟩ | ⟨_, hj⟩
      · rw [hid]
        exact hi.lookup_of_inPeers hk (hin ▸ hinj)
      · exact hi.lookup_of_inPeers hj hinj
    inPeers_of_lookup := fun {key j} hl => by
      obtain ⟨sj, hj, hinj, hkey⟩ := hi.inPeers_of_lookup hl
      by_cases hjk : k = j
      · subst hjk
        rw [hk] at hj
        cases hj
        exact ⟨s', List.getElem?_set_self hlt, hin ▸ hinj, hid ▸ hkey⟩
      · exact ⟨sj, by rw [List.getElem?_set_ne hjk]; exact hj, hinj, hkey⟩
    ids := fun {i j si sj} hsi hsj li lj he => by
      rcases getElem?_set_cases hsi with ⟨rfl, rfl⟩ | ⟨_, hsi'⟩ <;>
        rcases getElem?_set_cases hsj with ⟨rfl, rfl⟩ | ⟨_, hsj'⟩
      · rfl
      · exact hi.ids hk hsj' (hlive ▸ li) lj (hid ▸ he)
      · exact hi.ids hsi' hk li (hlive ▸ lj) (hid ▸ he)
      · exact hi.ids hsi' hsj' li lj he
    consistent := fun {j sj} hj => by
      rcases getElem?_set_cases hj with ⟨rfl, rfl⟩ | ⟨_, hj⟩
      · exact hcons (hi.consistent hk)
      · exact hi.consistent hj }

theorem unregister (hi : r.Invariant) {k : Nat} {s : Session} (hk : r.sessions[k]? = some s)
    (hc : s.pc = .leaving) :
    Registry.Invariant ⟨r.peers.erase (registerKey s.id),
      r.sessions.set k { s with pc := .done, removals := s.removals + 1 },
      r.inCount, r.outCount + 1⟩ := by
  obtain ⟨hlt, hget⟩ := List.getElem?_eq_some_iff.mp hk
  have hs_live : s.live := by simp [Session.live, hc]
  have hs_in : s.inPeers := by simp [Session.inPeers, hc]
  have hother : ∀ {j : Nat} {sj : Session}, r.sessions[j]? = some sj → sj.live →
      registerKey sj.id = registerKey s.id → j = k :=
    fun hj lj he => hi.eq_of_key hj hk lj hs_live he
  have hmem : registerKey s.id ∈ r.peers.keys :=
    AList.mem_keys.mp (AList.lookup_isSome.mp (by simp [hi.lookup_of_inPeers hk hs_in]))
  have hpos : 0 < r.peers.keys.length := List.length_pos_of_mem hmem
  exact {
    counts := by
      simp only [AList.keys_erase, List.length_erase_of_mem hmem, hi.counts]
      omega
    size := by
      simp only [AList.keys_erase, List.length_erase_of_mem hmem, List.countP_set _ _ _ _ hlt,
        hget, hi.size, hs_in] at hpos ⊢
      simp [Session.inPeers]
    lookup_of_inPeers := fun {j sj} hj hin => by
      rcases getElem?_set_cases hj with ⟨rfl, rfl⟩ | ⟨hne, hj⟩
      · simp [Session.inPeers] at hin
      · rw [AList.lookup_erase_ne fun he => hne (hother hj (Session.live_of_inPeers hin) he)]
        exact hi.lookup_of_inPeers hj hin
    inPeers_of_lookup := fun {key j} hl => by
      have hkey : key ≠ registerKey s.id := by
        rintro rfl
        rw [AList.lookup_erase] at hl
        cases hl
      rw [AList.lookup_erase_ne hkey] at hl
      obtain ⟨sj, hj, hin, hk'⟩ := hi.inPeers_of_lookup hl
      have hne : k ≠ j := by
        rintro rfl
        rw [hk] at hj
        cases hj
        exact hkey hk'.symm
      exact ⟨sj, by rw [List.getElem?_set_ne hne]; exact hj, hin, hk'⟩
    ids := fun {i j si sj} hsi hsj li lj he => by
      rcases getElem?_set_cases hsi with ⟨rfl, rfl⟩ | ⟨_, hsi⟩
      · simp [Session.live] at li
      rcases getElem?_set_cases hsj with ⟨rfl, rfl⟩ | ⟨_, hsj⟩
      · simp [Session.live] at lj
      · exact hi.ids hsi hsj li lj he
    consistent := fun {j sj} hj => by
      rcases getElem?_set_cases hj with ⟨rfl, rfl⟩ | ⟨_, hj⟩
      · have hcons := hi.consistent hk
        simp only [Session.Consistent, hc] at hcons ⊢
        exact ⟨hcons.1, by omega⟩
      · exact hi.consistent hj }

end Registry.Invariant

theorem registryStep_invariant {r r' : Registry} {a : RegistryAction} (hi : r.Invariant)
    (h : registryStep r a = some r') : r'.Invariant := by
  cases a with
  | connect id =>
      simp only [registryStep] at h
      split at h
      · cases h
      · cases h
        exact hi.connect (Bool.not_eq_true _ ▸ ‹_›)
  | register k =>
      simp only [registryStep] at h
      split at h
      · rename_i s hk
        split at h
        · cases h
          exact hi.register hk ‹_›
        · cases h
      · cases h
  | step k a =>
      simp only [registryStep] at h
      split at h
      · rename_i s hk
        obtain ⟨s', ha, rfl⟩ := Option.map_eq_some'.mp h
        exact hi.step hk ha
      · cases h
  | unregister k =>
      simp only [registryStep] at h
      split at h
      · rename_i s hk
        split at h
        · cases h
          exact hi.unregister hk ‹_›
        · cases h
      · cases h

theorem registryStep_register {r : Registry} {k : Nat} {s : Session} (hk : r.sessions[k]? = some s)
    (hc : s.pc = .created) :
    registryStep r (.register k) = some ⟨r.peers.insert (registerKey s.id) k,
      r.sessions.set k { s with pc := .registered }, r.inCount + 1, r.outCount⟩ := by
  simp only [registryStep, hk, hc, if_true]

theorem registryStep_unregister {r : Registry} {k : Nat} {s : Session} (hk : r.sessions[k]? = some s)
    (hc : s.pc = .leaving) :
    registryStep r (.unregister k) = some ⟨r.peers.erase (registerKey s.id),
      r.sessions.set k { s with pc := .done, removals := s.removals + 1 }, r.inCount, r.outCount + 1⟩ := by
  simp only [registryStep, hk, hc, if_true]

theorem Registry.Invariant.of_reachable {r : Registry}
    (h : Reachable registryStep registryInit r) : r.Invariant :=
  Reachable.invariant registryStep registryInit_invariant
    (fun _ _ _ hi hs => registryStep_invariant hi hs) h

/-- Over any interleaving of sessions whose live ones have distinct node ids: `fs.in` is
at least `fs.out`, and their difference is the size of `fs.peers`, which is the number
of sessions registered and not yet deleted; `fs.peers` maps the key of each such
session to it; a session that has returned was deleted from `fs.peers` exactly once and
stopped its timers exactly when it had started them, and one that has not returned was
not deleted. A session about to register can, and its registration maps its key to it
and counts it in `fs.in`; one about to leave can, and its deletion removes its key and
counts it in `fs.out`. -/
theorem registry_counts_sessions (r : Registry) (h : Reachable registryStep registryInit r) :
    r.outCount ≤ r.inCount ∧ r.inCount - r.outCount = r.peers.keys.length ∧
    r.peers.keys.length = r.sessions.countP Session.inPeers ∧
    (∀ (k : Nat) (s : Session), r.sessions[k]? = some s → s.inPeers → r.peers.lookup (registerKey s.id) = some k) ∧
    (∀ (k : Nat) (s : Session), r.sessions[k]? = some s → s.pc = .done →
      s.removals = 1 ∧ s.stops = if s.started then 1 else 0) ∧
    (∀ (k : Nat) (s : Session), r.sessions[k]? = some s → s.pc ≠ .done → s.removals = 0) ∧
    (∀ (k : Nat) (s : Session), r.sessions[k]? = some s → s.pc = .created →
      ∃ r', registryStep r (.register k) = some r' ∧ r'.peers.lookup (registerKey s.id) = some k ∧
        r'.inCount = r.inCount + 1 ∧ r'.outCount = r.outCount) ∧
    (∀ (k : Nat) (s : Session), r.sessions[k]? = some s → s.pc = .leaving →
      ∃ r', registryStep r (.unregister k) = some r' ∧ r'.peers.lookup (registerKey s.id) = none ∧
        r'.inCount = r.inCount ∧ r'.outCount = r.outCount + 1) := by
  have hi := Registry.Invariant.of_reachable h
  refine ⟨by rw [hi.counts]; omega, by rw [hi.counts]; omega, hi.size,
    fun _ _ => hi.lookup_of_inPeers, fun _ _ hk hd => ?_, fun _ s hk hd => ?_,
    fun _ _ hk hc => ⟨_, registryStep_register hk hc, AList.lookup_insert _, rfl, rfl⟩,
    fun _ _ hk hc => ⟨_, registryStep_unregister hk hc, AList.lookup_erase _ _, rfl, rfl⟩⟩
  · have hcons := hi.consistent hk
    simp only [Session.Consistent, hd] at hcons
    exact hcons.symm
  · have hcons := hi.consistent hk
    unfold Session.Consistent at hcons
    split at hcons <;> simp_all

def NodeID.ofByte (b : UInt8) : NodeID := ⟨List.replicate 32 b, List.length_replicate _ _⟩

def twoSessions : List RegistryAction :=
  [.connect (.ofByte 1), .connect (.ofByte 2), .register 0, .register 1,
    .step 0 (.handshake false), .step 1 (.handshake true), .unregister 0,
    .step 1 .loopExit, .step 1 .stopTimers, .unregister 1]

theorem registry_counts_sessions_two_sessions :
    ∃ r, runSteps registryStep registryInit twoSessions = some r ∧
      r.inCount = 2 ∧ r.outCount = 2 ∧ r.peers.keys = [] ∧
      r.sessions.map (fun s => (s.pc, s.started, s.stops, s.removals)) =
        [(.done, false, 0, 1), (.done, true, 1, 1)] ∧
      (r.outCount ≤ r.inCount ∧ r.inCount - r.outCount = r.peers.keys.length ∧
        r.peers.keys.length = r.sessions.countP Session.inPeers ∧
        (∀ (k : Nat) (s : Session), r.sessions[k]? = some s → s.inPeers →
          r.peers.lookup (registerKey s.id) = some k) ∧
        (∀ (k : Nat) (s : Session), r.sessions[k]? = some s → s.pc = .done →
          s.removals = 1 ∧ s.stops = if s.started then 1 else 0) ∧
        (∀ (k : Nat) (s : Session), r.sessions[k]? = some s → s.pc ≠ .done → s.removals = 0) ∧
        (∀ (k : Nat) (s : Session), r.sessions[k]? = some s → s.pc = .created →
          ∃ r', registryStep r (.register k) = some r' ∧ r'.peers.lookup (registerKey s.id) = some k ∧
            r'.inCount = r.inCount + 1 ∧ r'.outCount = r.outCount) ∧
        (∀ (k : Nat) (s : Session), r.sessions[k]? = some s → s.pc = .leaving →
          ∃ r', registryStep r (.unregister k) = some r' ∧ r'.peers.lookup (registerKey s.id) = none ∧
            r'.inCount = r.inCount ∧ r'.outCount = r.outCount + 1)) :=
  ⟨_, rfl, rfl, rfl, rfl, rfl, registry_counts_sessions _ ⟨twoSessions, rfl⟩⟩

/-- `PeerInfo` never finds a session: in every reachable state `fs.peers` holds only keys
of 64 hex digits, and `PeerInfo` looks up 16. A session registered for the node id of
32 zero bytes is in `fs.peers`, yet `PeerInfo` for that id finds nothing. -/
theorem peerInfo_misses_registered_session :
    (∀ r, Reachable registryStep registryInit r → ∀ id, peerInfo r id = none) ∧
    ∃ r, runSteps registryStep registryInit [.connect (.ofByte 0), .register 0] = some r ∧
      r.sessions[0]?.map Session.inPeers = some true ∧ peerInfo r (.ofByte 0) = none := by
  refine ⟨fun r h id => ?_, _, rfl, by decide, by decide⟩
  cases hl : peerInfo r id with
  | none => rfl
  | some k =>
      obtain ⟨s, -, -, hkey⟩ := (Registry.Invariant.of_reachable h).inPeers_of_lookup hl
      exact absurd hkey (registerKey_ne_peerInfoKey s.id id)

end CortexTheseus.Torrentfs
