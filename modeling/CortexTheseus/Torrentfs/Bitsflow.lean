import CortexTheseus.Torrentfs.Listen

/-!
# Need-events from `bitsflow` to `listen`

`fs.callback` (fs.go:141) between the `bitsflow` senders (fs.go:476-486) of `Start`, `init`
and `Download`, the monitor, and `listen` (fs.go:271-302). The channel is its buffer's FIFO;
a parked sender is one whose send is not enabled. The monitor is not under src/: it may send
any need-event whenever there is room. The state records, as ghost state, the completed sends
and what `listen` received.
-/

namespace CortexTheseus.Torrentfs

/-- The capacity of `fs.callback` (`make(chan any, 1)`, fs.go:141). -/
def callbackCap : Nat := 1

/-- The size `init` asks for each `ColaFiles` hash (`1024*1024*1024`, fs.go:466). -/
def colaRequest : Nat := 1024 * 1024 * 1024

/-- A goroutine in its `bitsflow` calls: the need-events it has still to send, the first
one being its current `select`'s, and its context. -/
structure Sender where
  pending : List BitsFlow
  /-- the context has a `Done` channel: it is not `context.Background()` -/
  cancellable : Bool
  /-- `ctx.Done()` is closed -/
  done : Bool
  deriving DecidableEq, Repr

/-- The package variable `inst` and the instance `New` built. -/
structure Fs where
  /-- `inst != nil` -/
  inst : Bool
  /-- the buffer of `fs.callback` -/
  callback : List BitsFlow
  listener : Listener
  /-- `closeAll` is closed -/
  closed : Bool
  senders : List Sender
  /-- the need-events whose send completed, in order -/
  sent : List BitsFlow
  /-- the need-events `listen` received from `fs.callback`, in order -/
  taken : List BitsFlow
  deriving DecidableEq, Repr

/-- The process before its first `New`. -/
def fsInit : Fs := ⟨false, [], listenInit, false, [], [], []⟩

/-- The need-events `init` sends (fs.go:459-474), given whether the mode is lazy, whether
`GetRoot(395964)` found a checkpoint, and `ColaFiles` in iteration order. -/
def initFlows (lazy checkpoint : Bool) (colaFiles : List (String × Bool)) : List BitsFlow :=
  if lazy || checkpoint then []
  else colaFiles.filterMap fun e => if e.2 then some ⟨e.1, colaRequest⟩ else none

/-- The calls on the package and the steps of the goroutines. -/
inductive FsAction
  /-- `New`; `ok` when `NewChainDB`, `NewTorrentManager` and `monitor.New` succeed -/
  | new (ok : Bool)
  /-- `Start`, with the answer of `handler.Start()`, the mode, the checkpoint and
  `ColaFiles` in iteration order -/
  | start (handlerOk lazy checkpoint : Bool) (colaFiles : List (String × Bool))
  /-- a `Download(ctx, ih, request)` call -/
  | download (ih : String) (request : Nat) (cancellable : Bool)
  /-- sender `k`'s `select` takes `fs.callback <- ...` -/
  | send (k : Nat)
  /-- sender `k`'s context is cancelled -/
  | cancel (k : Nat)
  /-- sender `k`'s `select` takes `<-ctx.Done()`: `bitsflow` returns `ctx.Err()` -/
  | giveUp (k : Nat)
  /-- `listen`'s `select` takes `msg := <-fs.callback` -/
  | recv
  /-- `listen`'s `select` takes another case -/
  | listen (c : ListenCase)
  /-- `Stop` closes `closeAll` -/
  | stop
  /-- the monitor, which `New` hands `fs.callback` (fs.go:142), sends `m` on it -/
  | monitor (m : BitsFlow)
  deriving DecidableEq, Repr

section

-- `params.IsGood` is not under src/: whether a hash is to be fetched at once.
variable (isGood : String → Bool)

/-- One step; `none` when it is not enabled. -/
def fsStep (s : Fs) : FsAction → Option Fs
  | .new ok => some (if !s.inst && ok then { s with inst := true } else s)
  | .start handlerOk lazy checkpoint colaFiles =>
      if s.inst then
        some (if handlerOk then
          { s with senders := s.senders ++ [⟨initFlows lazy checkpoint colaFiles, false, false⟩] }
          else s)
      else none
  | .download ih request cancellable =>
      if s.inst then some { s with senders := s.senders ++ [⟨[⟨ih, request⟩], cancellable, false⟩] }
      else none
  | .send k =>
      match s.senders[k]? with
      | some ⟨m :: rest, c, d⟩ =>
          if s.callback.length < callbackCap then
            some { s with
              callback := s.callback ++ [m], senders := s.senders.set k ⟨rest, c, d⟩,
              sent := s.sent ++ [m] }
          else none
      | _ => none
  | .cancel k =>
      match s.senders[k]? with
      | some ⟨p, true, _⟩ => some { s with senders := s.senders.set k ⟨p, true, true⟩ }
      | _ => none
  | .giveUp k =>
      match s.senders[k]? with
      | some ⟨_ :: rest, c, true⟩ => some { s with senders := s.senders.set k ⟨rest, c, true⟩ }
      | _ => none
  | .recv =>
      match s.callback with
      | m :: rest =>
          (listenStep isGood s.listener (.callback m)).map fun l =>
            { s with callback := rest, listener := l, taken := s.taken ++ [m] }
      | [] => none
  | .listen c =>
      if s.inst ∧ c.msg? = none ∧ (c = .closeAll → s.closed = true) then
        (listenStep isGood s.listener c).map fun l => { s with listener := l }
      else none
  | .stop => if s.inst then some { s with closed := true } else none
  | .monitor m =>
      if s.inst ∧ s.callback.length < callbackCap then
        some { s with callback := s.callback ++ [m], sent := s.sent ++ [m] }
      else none

variable {isGood}

theorem fsStep_cases {s s' : Fs} {a : FsAction} (h : fsStep isGood s a = some s') :
    (s' = s ∨ s' = { s with inst := true } ∨ s' = { s with closed := true }) ∨
    (∃ snd : Sender, snd.done = false ∧ s' = { s with senders := s.senders ++ [snd] }) ∨
    (∃ k m rest c d, s.senders[k]? = some ⟨m :: rest, c, d⟩ ∧ s.callback.length < callbackCap ∧
      s' = { s with
        callback := s.callback ++ [m], senders := s.senders.set k ⟨rest, c, d⟩,
        sent := s.sent ++ [m] }) ∨
    (∃ k p d, s.senders[k]? = some ⟨p, true, d⟩ ∧
      s' = { s with senders := s.senders.set k ⟨p, true, true⟩ }) ∨
    (∃ k m rest c, s.senders[k]? = some ⟨m :: rest, c, true⟩ ∧
      s' = { s with senders := s.senders.set k ⟨rest, c, true⟩ }) ∨
    (∃ m rest l, s.callback = m :: rest ∧ listenStep isGood s.listener (.callback m) = some l ∧
      s' = { s with callback := rest, listener := l, taken := s.taken ++ [m] }) ∨
    (∃ c l, c.msg? = none ∧ listenStep isGood s.listener c = some l ∧
      s' = { s with listener := l }) ∨
    (∃ m, s.callback.length < callbackCap ∧
      s' = { s with callback := s.callback ++ [m], sent := s.sent ++ [m] }) := by
  cases a with
  | new ok =>
      refine .inl ?_
      simp only [fsStep, Option.some.injEq] at h
      split_ifs at h <;> subst h <;> simp
  | start handlerOk lazy checkpoint colaFiles =>
      simp only [fsStep] at h
      split_ifs at h with hi hh <;> cases h
      · exact .inr (.inl ⟨_, rfl, rfl⟩)
      · exact .inl (.inl rfl)
  | download ih request cancellable =>
      simp only [fsStep] at h
      split_ifs at h
      cases h
      exact .inr (.inl ⟨_, rfl, rfl⟩)
  | send k =>
      simp only [fsStep] at h
      split at h
      · split_ifs at h with hc
        cases h
        exact .inr (.inr (.inl ⟨k, _, _, _, _, ‹_›, hc, rfl⟩))
      · cases h
  | cancel k =>
      simp only [fsStep] at h
      split at h
      · cases h
        exact .inr (.inr (.inr (.inl ⟨k, _, _, ‹_›, rfl⟩)))
      · cases h
  | giveUp k =>
      simp only [fsStep] at h
      split at h
      · cases h
        exact .inr (.inr (.inr (.inr (.inl ⟨k, _, _, _, ‹_›, rfl⟩))))
      · cases h
  | recv =>
      simp only [fsStep] at h
      split at h
      · obtain ⟨l, hl, rfl⟩ := Option.map_eq_some'.mp h
        exact .inr (.inr (.inr (.inr (.inr (.inl ⟨_, _, l, ‹_›, hl, rfl⟩)))))
      · cases h
  | listen c =>
      simp only [fsStep] at h
      split_ifs at h with hg
      obtain ⟨l, hl, rfl⟩ := Option.map_eq_some'.mp h
      exact .inr (.inr (.inr (.inr (.inr (.inr (.inl ⟨c, l, hg.2.1, hl, rfl⟩))))))
  | stop =>
      simp only [fsStep] at h
      split_ifs at h
      cases h
      exact .inl (.inr (.inr rfl))
  | monitor m =>
      simp only [fsStep] at h
      obtain ⟨hg, h⟩ := Option.ite_none_right_eq_some.mp h
      exact .inr (.inr (.inr (.inr (.inr (.inr (.inr ⟨m, hg.2, (Option.some.inj h).symm⟩))))))

theorem listenStep_stopped {l : Listener} (h : l.stopped = true) (c : ListenCase) :
    listenStep isGood l c = none := by
  simp [listenStep, h]

/-! ### No need-event lost or duplicated -/

variable (isGood) in
/-- What every reachable state keeps: the completed sends are what `listen` received
followed by the buffer, the buffer holds at most one, `listen` accounts for what it
received, and only a cancellable context is ever done. -/
structure Fs.Invariant (s : Fs) : Prop where
  fifo : s.sent = s.taken ++ s.callback
  cap : s.callback.length ≤ callbackCap
  accounted : Accounted isGood s.taken s.listener
  background : ∀ (k : Nat) (snd : Sender), s.senders[k]? = some snd → snd.done = true →
    snd.cancellable = true

theorem fsInit_invariant : fsInit.Invariant isGood :=
  ⟨rfl, by decide, by simp [Accounted, fsInit, listenInit], by simp [fsInit]⟩

theorem fsStep_invariant {s s' : Fs} {a : FsAction} (hi : s.Invariant isGood)
    (h : fsStep isGood s a = some s') : s'.Invariant isGood := by
  obtain ⟨hfifo, hcap, hacc, hbg⟩ := hi
  rcases fsStep_cases h with (rfl | rfl | rfl) | ⟨snd, hd, rfl⟩ | ⟨k, m, rest, c, d, hk, hc, rfl⟩ |
    ⟨k, p, d, hk, rfl⟩ | ⟨k, m, rest, c, hk, rfl⟩ | ⟨m, rest, l, hq, hl, rfl⟩ | ⟨c, l, hc, hl, rfl⟩ |
    ⟨m, hc, rfl⟩
  · exact ⟨hfifo, hcap, hacc, hbg⟩
  · exact ⟨hfifo, hcap, hacc, hbg⟩
  · exact ⟨hfifo, hcap, hacc, hbg⟩
  · -- a new sender starts with its context not done
    refine ⟨hfifo, hcap, hacc, fun j t hj ht => ?_⟩
    rcases getElem?_snoc_cases hj with hj | ⟨-, rfl⟩
    · exact hbg j t hj ht
    · simp [hd] at ht
  · -- a send appends to the buffer and to the completed sends
    refine ⟨by simp [hfifo], by simp; omega, hacc, fun j t hj ht => ?_⟩
    rcases getElem?_set_cases hj with ⟨rfl, rfl⟩ | ⟨-, hj⟩
    · exact hbg _ ⟨m :: rest, c, d⟩ hk ht
    · exact hbg j t hj ht
  · refine ⟨hfifo, hcap, hacc, fun j t hj ht => ?_⟩
    rcases getElem?_set_cases hj with ⟨rfl, rfl⟩ | ⟨-, hj⟩
    · rfl
    · exact hbg j t hj ht
  · -- giving up keeps a done context, so a cancellable one
    refine ⟨hfifo, hcap, hacc, fun j t hj ht => ?_⟩
    rcases getElem?_set_cases hj with ⟨rfl, rfl⟩ | ⟨-, hj⟩
    · exact hbg _ ⟨m :: rest, c, true⟩ hk rfl
    · exact hbg j t hj ht
  · -- `listen` takes the oldest buffered need-event
    rw [hq] at hfifo hcap
    exact ⟨by simp [hfifo], by simp at hcap ⊢; omega, hacc.step hl, hbg⟩
  · have h0 : (c.msg?.toList : List BitsFlow) = [] := by simp [hc]
    exact ⟨hfifo, hcap, by simpa [h0] using hacc.step hl, hbg⟩
  · -- a send of the monitor, like any other completed send
    exact ⟨by simp [hfifo], by simp; omega, hacc, hbg⟩

theorem Fs.Invariant.of_reachable {s : Fs} (h : Reachable (fsStep isGood) fsInit s) :
    s.Invariant isGood :=
  h.invariant _ fsInit_invariant fun _ _ _ hi hs => fsStep_invariant hi hs

/-- Every need-event whose `bitsflow` send completed reaches `listen`, once and in order:
over every interleaving of `New`, `Start`, `Download` calls, cancellations, `Stop` and
`listen`, the completed sends are the need-events `listen` received followed by the at
most one still buffered, `listen` has downloaded or queued each one it received (in
arrival order, as it accounts for them), and together the downloaded, queued and buffered
need-events are the completed sends as a multiset. -/
theorem bitsflow_delivers {s : Fs} (h : Reachable (fsStep isGood) fsInit s) :
    (s.listener.downloads ++ s.listener.ttlchan ++ s.callback).Perm s.sent ∧
    ∃ rcv, s.sent = rcv ++ s.callback ∧ s.callback.length ≤ callbackCap ∧
      Accounted isGood rcv s.listener := by
  obtain ⟨hfifo, hcap, hacc, -⟩ := Fs.Invariant.of_reachable h
  exact ⟨hfifo ▸ hacc.perm.append_right _, s.taken, hfifo, hcap, hacc⟩

def restartAfterStop : List FsAction :=
  [.new true, .stop, .listen .closeAll, .new true,
    .start true false false [("a", true), ("b", true)], .send 0]

def startedAfterStop : Fs :=
  ⟨true, [⟨"a", colaRequest⟩], ⟨[], [], true⟩, true, [⟨[⟨"b", colaRequest⟩], false, false⟩],
    [⟨"a", colaRequest⟩], []⟩

theorem bitsflow_delivers_startedAfterStop :
    (startedAfterStop.listener.downloads ++ startedAfterStop.listener.ttlchan ++
      startedAfterStop.callback).Perm startedAfterStop.sent ∧
    ∃ rcv, startedAfterStop.sent = rcv ++ startedAfterStop.callback ∧
      startedAfterStop.callback.length ≤ callbackCap ∧
      Accounted (fun _ => false) rcv startedAfterStop.listener :=
  @bitsflow_delivers (fun _ => false) _ ⟨restartAfterStop, rfl⟩

/-! ### After `listen` returns -/

theorem fsStep_of_stopped {s s' : Fs} {a : FsAction} (hs : s.listener.stopped = true)
    (h : fsStep isGood s a = some s') : s'.listener = s.listener ∧ s'.taken = s.taken := by
  rcases fsStep_cases h with (rfl | rfl | rfl) | ⟨_, _, rfl⟩ | ⟨_, _, _, _, _, _, _, rfl⟩ |
    ⟨_, _, _, _, rfl⟩ | ⟨_, _, _, _, _, rfl⟩ | ⟨_, _, _, _, hl, -⟩ | ⟨_, _, _, hl, -⟩ | ⟨_, _, rfl⟩
  all_goals first
    | exact ⟨rfl, rfl⟩
    | simp [listenStep_stopped hs] at hl

theorem fsStep_background {s s' : Fs} {a : FsAction} {k : Nat} {p : List BitsFlow}
    (hk : s.senders[k]? = some ⟨p, false, false⟩) (h : fsStep isGood s a = some s') :
    ∃ p', s'.senders[k]? = some ⟨p', false, false⟩ ∧
      p.length + s.sent.length ≤ p'.length + s'.sent.length := by
  rcases fsStep_cases h with (rfl | rfl | rfl) | ⟨_, _, rfl⟩ | ⟨j, m, rest, c, d, hj, -, rfl⟩ |
    ⟨j, q, d, hj, rfl⟩ | ⟨j, m, rest, c, hj, rfl⟩ | ⟨_, _, _, _, _, rfl⟩ | ⟨_, _, _, _, rfl⟩ |
    ⟨_, _, rfl⟩
  · exact ⟨p, hk, le_rfl⟩
  · exact ⟨p, hk, le_rfl⟩
  · exact ⟨p, hk, le_rfl⟩
  · exact ⟨p, getElem?_append_of_some hk, le_rfl⟩
  · -- a send, by this sender or another
    by_cases hjk : j = k
    · subst hjk
      rw [hk] at hj
      cases hj
      refine ⟨rest, by rw [getElem?_set_of_getElem? hk, if_pos rfl], ?_⟩
      simp only [List.length_cons, List.length_append, List.length_singleton]
      omega
    · exact ⟨p, by rw [List.getElem?_set_ne hjk]; exact hk, by simp⟩
  · -- only a cancellable context is cancelled
    have hjk : j ≠ k := by rintro rfl; simp [hk] at hj
    exact ⟨p, by rw [List.getElem?_set_ne hjk]; exact hk, le_rfl⟩
  · -- only a done context is given up on
    have hjk : j ≠ k := by rintro rfl; simp [hk] at hj
    exact ⟨p, by rw [List.getElem?_set_ne hjk]; exact hk, le_rfl⟩
  · exact ⟨p, hk, le_rfl⟩
  · exact ⟨p, hk, le_rfl⟩
  · -- a send of the monitor only adds to the completed sends
    exact ⟨p, hk, by simp⟩

/-- After `listen` has returned (after `Stop`, on the instance `New` keeps handing back),
whatever runs next: `listen` stays as it was, at most the free room of `fs.callback`
more sends complete, and a `bitsflow` caller with `context.Background()` (`Start`'s
`init`, or a `Download` given it) that has more need-events to send than that room never
returns. -/
theorem bitsflow_after_listen_returns {s : Fs} (hr : Reachable (fsStep isGood) fsInit s)
    (hstop : s.listener.stopped = true) {as : List FsAction} {s' : Fs}
    (hrun : runSteps (fsStep isGood) s as = some s') :
    s'.listener = s.listener ∧
    s'.sent.length + s.callback.length ≤ s.sent.length + callbackCap ∧
    ∀ (k : Nat) (p : List BitsFlow), s.senders[k]? = some ⟨p, false, false⟩ →
      callbackCap < p.length + s.callback.length →
      ∃ p', s'.senders[k]? = some ⟨p', false, false⟩ ∧ p' ≠ [] := by
  have hi := Fs.Invariant.of_reachable hr
  have hi' : s'.Invariant isGood :=
    runSteps_invariant _ (fun _ _ _ hi hs => fsStep_invariant hi hs) hi hrun
  have hfix : s'.listener = s.listener ∧ s'.taken = s.taken :=
    runSteps_invariant _ (I := fun t => t.listener = s.listener ∧ t.taken = s.taken)
      (fun _ _ _ ⟨hl, ht⟩ hs => by
        obtain ⟨hl', ht'⟩ := fsStep_of_stopped (hl ▸ hstop) hs
        exact ⟨hl'.trans hl, ht'.trans ht⟩) ⟨rfl, rfl⟩ hrun
  -- the completed sends grow only by what the buffer holds
  have hsent : s'.sent.length + s.callback.length ≤ s.sent.length + callbackCap := by
    have h1 := congrArg List.length hi.fifo
    have h2 := congrArg List.length hi'.fifo
    simp only [List.length_append, hfix.2] at h1 h2
    have := hi'.cap
    omega
  refine ⟨hfix.1, hsent, fun k p hk hp => ?_⟩
  obtain ⟨p', hk', hle⟩ :=
    runSteps_invariant _ (I := fun t => ∃ p', t.senders[k]? = some ⟨p', false, false⟩ ∧
        p.length + s.sent.length ≤ p'.length + t.sent.length)
      (fun _ _ _ ⟨q, hq, hle⟩ hs => by
        obtain ⟨q', hq', hle'⟩ := fsStep_background hq hs
        exact ⟨q', hq', hle.trans hle'⟩) ⟨p, hk, le_rfl⟩ hrun
  refine ⟨p', hk', fun h0 => ?_⟩
  simp only [h0, List.length_nil] at hle
  omega

theorem start_after_stop_never_returns :
    Reachable (fsStep fun _ => false) fsInit startedAfterStop ∧
    ∃ p', startedAfterStop.senders[0]? = some ⟨p', false, false⟩ ∧ p' ≠ [] :=
  have hr : Reachable (fsStep fun _ => false) fsInit startedAfterStop := ⟨restartAfterStop, rfl⟩
  ⟨hr, (@bitsflow_after_listen_returns _ _ hr rfl [] _ rfl).2.2 0 _ rfl (by decide)⟩

end

end CortexTheseus.Torrentfs
