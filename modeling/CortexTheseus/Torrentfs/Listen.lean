import CortexTheseus.Schedule
import Mathlib.Data.List.Basic

/-!
# The bitsflow loop

`TorrentFS.listen` (fs.go:271-302). `fs.ttlchan` is its FIFO: the buffered elements, then
that of a sender parked on the full buffer. `listen` is its only sender and receiver, so a
FIFO over capacity means `listen` is parked on its own send. `download` is recorded, not run.
-/

namespace CortexTheseus.Torrentfs

/-- `types.BitsFlow`, a need-event: an info hash and the requested size. -/
structure BitsFlow where
  infoHash : String
  request : Nat
  deriving DecidableEq, Repr

/-- The capacity of `fs.ttlchan` (`make(chan any, 1024)`, fs.go:161). -/
def ttlchanCap : Nat := 1024

structure Listener where
  /-- the FIFO of `fs.ttlchan` -/
  ttlchan : List BitsFlow
  /-- the need-events passed to `download`, in order -/
  downloads : List BitsFlow
  /-- `listen` has returned -/
  stopped : Bool
  deriving DecidableEq, Repr

/-- The loop as `New` starts it (fs.go:248-249). -/
def listenInit : Listener := ⟨[], [], false⟩

/-- The cases of the `select` of `listen`. -/
inductive ListenCase
  /-- `msg := <-fs.callback` -/
  | callback (msg : BitsFlow)
  /-- `<-ttl.C` -/
  | ttl
  /-- `<-ticker.C` -/
  | ticker
  /-- `<-fs.closeAll` -/
  | closeAll
  deriving DecidableEq, Repr

def ListenCase.msg? : ListenCase → Option BitsFlow
  | .callback msg => some msg
  | _ => none

/-- The need-events a schedule of cases delivers, in order. -/
def received (cs : List ListenCase) : List BitsFlow := cs.filterMap ListenCase.msg?

@[simp] theorem received_nil : received [] = [] := rfl

@[simp] theorem received_snoc (cs : List ListenCase) (c : ListenCase) :
    received (cs ++ [c]) = received cs ++ c.msg?.toList := by
  cases c <;> simp [received, ListenCase.msg?, List.filterMap_append]

/-- `listen` is parked on `fs.ttlchan <- msg`: the FIFO holds more than the buffer. -/
def Listener.parked (s : Listener) : Prop := ttlchanCap < s.ttlchan.length

instance (s : Listener) : Decidable s.parked := inferInstanceAs (Decidable (_ < _))

section

-- `params.IsGood` is not under src/: whether a hash is to be fetched at once.
variable (isGood : String → Bool)

/-- The test of `listen`: `meta.Request() > 0 || params.IsGood(meta.InfoHash())`. -/
def immediate (msg : BitsFlow) : Bool := 0 < msg.request || isGood msg.infoHash

/-- One case of the `select` of `listen`; `none` when `listen` is not at its `select`
(it has returned, or it is parked on its send to `ttlchan`). -/
def listenStep (s : Listener) (c : ListenCase) : Option Listener :=
  if s.stopped ∨ s.parked then none
  else
    match c with
    | .callback msg =>
        if immediate isGood msg then some { s with downloads := s.downloads ++ [msg] }
        else some { s with ttlchan := s.ttlchan ++ [msg] }
    | .ttl =>
        match s.ttlchan with
        | [] => some s
        | msg :: rest => some { s with ttlchan := rest, downloads := s.downloads ++ [msg] }
    | .ticker => some s
    | .closeAll => some { s with stopped := true }

variable {isGood}

theorem listenStep_spec {s s' : Listener} {c : ListenCase} (h : listenStep isGood s c = some s') :
    (∀ msg, c = .callback msg →
      if immediate isGood msg then s'.downloads = s.downloads ++ [msg] ∧ s'.ttlchan = s.ttlchan
      else s'.downloads = s.downloads ∧ s'.ttlchan = s.ttlchan ++ [msg]) ∧
    (c = .ttl → s'.downloads = s.downloads ++ s.ttlchan.take 1 ∧ s'.ttlchan = s.ttlchan.drop 1) ∧
    (c = .ticker ∨ c = .closeAll → s'.downloads = s.downloads ∧ s'.ttlchan = s.ttlchan) := by
  unfold listenStep at h
  by_cases hs : s.stopped ∨ s.parked
  · simp [hs] at h
  rw [if_neg hs] at h
  cases c with
  | callback msg =>
      refine ⟨fun m hm => ?_, by simp, by simp⟩
      cases hm
      dsimp only at h
      split_ifs at h with hi <;> cases h <;> simp [hi]
  | ttl =>
      refine ⟨by simp, fun _ => ?_, by simp⟩
      dsimp only at h
      cases hq : s.ttlchan <;> simp only [hq] at h <;> cases h <;> simp [hq]
  | ticker | closeAll => cases h; simp

/-! ### Accounting over every run -/

variable (isGood) in
/-- The accounting of the loop after it has received `rcv`: the immediate need-events
were downloaded in arrival order, and the deferred ones, in arrival order, are those
downloaded from the FIFO followed by those still in it. -/
def Accounted (rcv : List BitsFlow) (s : Listener) : Prop :=
  s.downloads.filter (immediate isGood) = rcv.filter (immediate isGood) ∧
    s.downloads.filter (fun m => !immediate isGood m) ++ s.ttlchan =
      rcv.filter (fun m => !immediate isGood m)

theorem Accounted.deferred_of_mem {rcv : List BitsFlow} {s : Listener}
    (h : Accounted isGood rcv s) {m : BitsFlow} (hm : m ∈ s.ttlchan) : immediate isGood m = false := by
  have hm' : m ∈ rcv.filter (fun m => !immediate isGood m) := h.2 ▸ List.mem_append_right _ hm
  simpa using (List.mem_filter.mp hm').2

theorem Accounted.step {rcv : List BitsFlow} {s s' : Listener} {c : ListenCase}
    (hacc : Accounted isGood rcv s) (h : listenStep isGood s c = some s') :
    Accounted isGood (rcv ++ c.msg?.toList) s' := by
  obtain ⟨hcb, httl, hother⟩ := listenStep_spec h
  obtain ⟨h1, h2⟩ := hacc
  cases c with
  | callback msg =>
      have hmsg := hcb msg rfl
      split_ifs at hmsg with hi <;>
        simp [Accounted, ListenCase.msg?, hmsg, List.filter_append, hi, ← h1, ← h2]
  | ttl =>
      obtain ⟨hd, hq⟩ := httl rfl
      cases hl : s.ttlchan with
      | nil => simp_all [Accounted, ListenCase.msg?]
      | cons m q =>
          have hm : immediate isGood m = false :=
            Accounted.deferred_of_mem ⟨h1, h2⟩ (by simp [hl])
          rw [hl] at hd hq h2
          simp [Accounted, ListenCase.msg?, hd, hq, List.filter_append, hm, h1, ← h2]
  | ticker | closeAll =>
      obtain ⟨hd, hq⟩ := hother (by simp)
      simp [Accounted, ListenCase.msg?, hd, hq, h1, h2]

theorem accounted_run {cs : List ListenCase} {s : Listener}
    (h : runSteps (listenStep isGood) listenInit cs = some s) : Accounted isGood (received cs) s := by
  induction cs using List.reverseRecOn generalizing s with
  | nil => cases h; simp [Accounted, listenInit]
  | append_singleton cs c ih =>
      rw [runSteps_snoc] at h
      obtain ⟨t, ht, hs⟩ := Option.bind_eq_some.mp h
      rw [received_snoc]
      exact (ih ht).step hs

/-- No need-event is lost or duplicated: the downloaded and the queued ones are, as a
multiset, the received ones. -/
theorem Accounted.perm {rcv : List BitsFlow} {s : Listener} (h : Accounted isGood rcv s) :
    (s.downloads ++ s.ttlchan).Perm rcv := by
  have hd := (List.filter_append_perm (immediate isGood) s.downloads).symm.append_right s.ttlchan
  rw [List.append_assoc, h.1, h.2] at hd
  exact hd.trans (List.filter_append_perm _ _)

/-- Every reachable state of `listen` accounts for the need-events received so far:
together the downloaded and the queued ones are exactly those received, the immediate
ones downloaded in arrival order, the deferred ones downloaded from the front of the
FIFO in arrival order. From it, an immediate need-event is downloaded in the step that
receives it, a deferred one is appended to the FIFO, and a fire of `ttl` downloads at
most the oldest queued one. -/
theorem listen_delivers_once_in_order (cs : List ListenCase) (s : Listener)
    (h : runSteps (listenStep isGood) listenInit cs = some s) :
    (s.downloads ++ s.ttlchan).Perm (received cs) ∧
    s.downloads.filter (immediate isGood) = (received cs).filter (immediate isGood) ∧
    s.downloads.filter (fun m => !immediate isGood m) ++ s.ttlchan =
      (received cs).filter (fun m => !immediate isGood m) ∧
    ∀ c s', listenStep isGood s c = some s' →
      (∀ msg, c = .callback msg →
        if immediate isGood msg then s'.downloads = s.downloads ++ [msg] ∧ s'.ttlchan = s.ttlchan
        else s'.downloads = s.downloads ∧ s'.ttlchan = s.ttlchan ++ [msg]) ∧
      (c = .ttl → s'.downloads = s.downloads ++ s.ttlchan.take 1 ∧ s'.ttlchan = s.ttlchan.drop 1) ∧
      (c = .ticker ∨ c = .closeAll → s'.downloads = s.downloads ∧ s'.ttlchan = s.ttlchan) :=
  have hacc := accounted_run h
  ⟨hacc.perm, hacc.1, hacc.2, fun _ _ hs => listenStep_spec hs⟩

/-! ### The full buffer -/

theorem listenStep_parked {s : Listener} (h : s.parked) (c : ListenCase) :
    listenStep isGood s c = none := by
  simp [listenStep, h]

theorem runSteps_deferred {msg : BitsFlow} (hd : immediate isGood msg = false) :
    ∀ (n : Nat) (s : Listener), s.stopped = false → s.ttlchan.length + n ≤ ttlchanCap + 1 →
      runSteps (listenStep isGood) s (List.replicate n (.callback msg)) =
        some { s with ttlchan := s.ttlchan ++ List.replicate n msg }
  | 0, s, _, _ => by simp
  | n + 1, s, hs, hn => by
      have hnp : ¬ (s.stopped ∨ s.parked) := by simp [Listener.parked, hs]; omega
      have hrest := runSteps_deferred hd n { s with ttlchan := s.ttlchan ++ [msg] } hs
        (by simp; omega)
      simp only [List.replicate_succ, runSteps_cons, listenStep, if_neg hnp, hd,
        Bool.false_eq_true, if_false, Option.some_bind, hrest]
      simp

/-- A need-event `listen` defers, arriving `ttlchanCap + 1` times before `ttl` fires,
parks `listen` on `fs.ttlchan <- msg` for good: it refuses every case of its `select`,
so it never receives another need-event, tick or `closeAll` (and `Stop` waits on it
forever). -/
theorem listen_blocks_on_full_ttlchan (msg : BitsFlow) (hd : immediate isGood msg = false) :
    ∃ s, runSteps (listenStep isGood) listenInit
        (List.replicate (ttlchanCap + 1) (.callback msg)) = some s ∧
      s.parked ∧ ∀ c, listenStep isGood s c = none := by
  refine ⟨_, runSteps_deferred hd _ listenInit rfl (by simp [listenInit]), ?_⟩
  have hp : Listener.parked { listenInit with ttlchan := [] ++ List.replicate (ttlchanCap + 1) msg } := by
    simp [Listener.parked]
  exact ⟨hp, listenStep_parked hp⟩

end

theorem listen_blocks_on_full_ttlchan_readme :
    immediate (fun _ => false) ⟨"6b75cc1354495ec763a6b295ee407ea864a0c292", 0⟩ = false ∧
    ∃ s, runSteps (listenStep fun _ => false) listenInit
        (List.replicate (ttlchanCap + 1) (.callback ⟨"6b75cc1354495ec763a6b295ee407ea864a0c292", 0⟩)) =
        some s ∧ s.parked ∧ ∀ c, listenStep (fun _ => false) s c = none :=
  ⟨rfl, listen_blocks_on_full_ttlchan _ rfl⟩

theorem listen_delivers_once_in_order_sample :
    runSteps (listenStep fun _ => false) listenInit
        [.callback ⟨"a", 0⟩, .callback ⟨"b", 7⟩, .ttl] = some ⟨[], [⟨"b", 7⟩, ⟨"a", 0⟩], false⟩ ∧
    ((⟨[], [⟨"b", 7⟩, ⟨"a", 0⟩], false⟩ : Listener).downloads ++ []).Perm
      (received [.callback ⟨"a", 0⟩, .callback ⟨"b", 7⟩, .ttl]) :=
  ⟨by decide, (@listen_delivers_once_in_order (fun _ => false) _ _ (by decide)).1⟩

end CortexTheseus.Torrentfs
