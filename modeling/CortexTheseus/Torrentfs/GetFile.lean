import Mathlib.Data.List.Basic

/-!
# Fetching a file under a size cap

`TorrentFS.GetFileWithSize` (fs.go:563-609). The swarm's first answer and the cases the
polling `select` takes are inputs; a run whose cases end while the loop waits is `none`.
-/

namespace CortexTheseus.Torrentfs

/-- The error `GetFileWithSize` returns. -/
inductive FetchError
  /-- `backend.ErrInvalidRawSize` -/
  | invalidRawSize
  /-- `ctx.Err()` -/
  | ctx (err : String)
  /-- the error of the first `GetFile` -/
  | getFile (err : String)
  deriving DecidableEq, Repr

/-- A case the polling `select` takes. -/
inductive FetchEvent
  /-- `<-t.C`, with the answer of the `GetFile` call made there -/
  | timer (result : Except String (List UInt8))
  /-- `<-ctx.Done()`, with `ctx.Err()` -/
  | done (err : String)

/-- A goroutine `GetFileWithSize` spawns. -/
inductive FetchSpawn
  | wakeup (ih : String)
  | encounter (ih : String)
  deriving DecidableEq, Repr

/-- A timer case whose `GetFile` failed: the loop resets the timer and waits again. -/
def FetchEvent.isMiss : FetchEvent → Bool
  | .timer (.error _) => true
  | _ => false

/-- The check on the bytes of a successful poll: `uint64(len(ret)) > rawSize`. -/
def capped (rawSize : Nat) (ret : List UInt8) : Except FetchError (List UInt8) :=
  if ret.length > rawSize then .error .invalidRawSize else .ok ret

@[simp] theorem capped_eq_ok {rawSize : Nat} {ret r : List UInt8} :
    capped rawSize ret = .ok r ↔ ret.length ≤ rawSize ∧ ret = r := by
  unfold capped
  split
  · simp only [reduceCtorEq, false_iff, not_and]
    omega
  · simp only [Except.ok.injEq, iff_and_self]
    omega

/-- The polling loop (fs.go:576-597), one `select` case after another. -/
def pollLoop (rawSize : Nat) : List FetchEvent → Option (Except FetchError (List UInt8))
  | [] => none
  | .timer (.error _) :: evs => pollLoop rawSize evs
  | .timer (.ok ret) :: _ => some (capped rawSize ret)
  | .done err :: _ => some (.error (.ctx err))

/-- `GetFileWithSize(ctx, infohash, rawSize, subpath)`: what it returns (`none` while it
still polls) and the goroutines it spawns, given the first `GetFile` answer and the
cases its loop takes. -/
def getFileWithSize (isGood : String → Bool) (infohash : String) (rawSize : Nat)
    (first : Except String (List UInt8)) (evs : List FetchEvent) :
    Option (Except FetchError (List UInt8)) × List FetchSpawn :=
  match first with
  | .error err =>
      (if isGood infohash then pollLoop rawSize evs else some (.error (.getFile err)),
        [.wakeup infohash])
  | .ok ret =>
      if ret.length > rawSize then (some (.error .invalidRawSize), [])
      else (some (.ok ret), if isGood infohash then [] else [.encounter infohash])

/-- The successful `GetFile` answer a run obtains: the first call's, or, after a miss on
a hash `params.IsGood` accepts, that of the first poll that does not miss, with no
`ctx.Done()` case before it. -/
def Obtained (isGood : String → Bool) (infohash : String) (first : Except String (List UInt8))
    (evs : List FetchEvent) (ret : List UInt8) : Prop :=
  first = .ok ret ∨ (∃ err, first = .error err) ∧ isGood infohash = true ∧
    ∃ pre post, (∀ e ∈ pre, e.isMiss = true) ∧ evs = pre ++ .timer (.ok ret) :: post

section

variable {rawSize : Nat}

theorem pollLoop_misses_append {pre : List FetchEvent} (h : ∀ e ∈ pre, e.isMiss = true)
    (evs : List FetchEvent) : pollLoop rawSize (pre ++ evs) = pollLoop rawSize evs := by
  induction pre with
  | nil => rfl
  | cons e pre ih =>
      rcases e with (_ | _) | _
      · simpa [pollLoop] using ih fun e he => h e (.tail _ he)
      · simp [FetchEvent.isMiss] at h
      · simp [FetchEvent.isMiss] at h

theorem pollLoop_eq_ok {evs : List FetchEvent} {ret : List UInt8} :
    pollLoop rawSize evs = some (.ok ret) ↔ ret.length ≤ rawSize ∧
      ∃ pre post, (∀ e ∈ pre, e.isMiss = true) ∧ evs = pre ++ .timer (.ok ret) :: post := by
  constructor
  · intro h
    induction evs with
    | nil => simp [pollLoop] at h
    | cons e evs ih =>
        rcases e with (_ | r) | _
        · obtain ⟨hr, pre, post, hpre, rfl⟩ := ih h
          exact ⟨hr, .timer (.error _) :: pre, post, by simpa [FetchEvent.isMiss] using hpre, rfl⟩
        · obtain ⟨hr, rfl⟩ := capped_eq_ok.mp (by simpa [pollLoop] using h)
          exact ⟨hr, [], evs, by simp, rfl⟩
        · simp [pollLoop] at h
  · rintro ⟨hr, pre, post, hpre, rfl⟩
    rw [pollLoop_misses_append hpre]
    simp [pollLoop, hr]

end

theorem getFileWithSize_ok_fst (isGood : String → Bool) (infohash : String) (rawSize : Nat)
    (r : List UInt8) (evs : List FetchEvent) :
    (getFileWithSize isGood infohash rawSize (.ok r) evs).1 = some (capped rawSize r) := by
  simp only [getFileWithSize, capped]
  split <;> rfl

theorem getFileWithSize_ok_iff (isGood : String → Bool) (infohash : String) (rawSize : Nat)
    (first : Except String (List UInt8)) (evs : List FetchEvent) (ret : List UInt8) :
    (getFileWithSize isGood infohash rawSize first evs).1 = some (.ok ret) ↔
      Obtained isGood infohash first evs ret ∧ ret.length ≤ rawSize := by
  rcases first with err | r
  · cases hg : isGood infohash <;> simp [getFileWithSize, Obtained, hg, pollLoop_eq_ok, and_comm]
  · simp only [getFileWithSize_ok_fst, Option.some.injEq, capped_eq_ok, Obtained,
      Except.ok.injEq, reduceCtorEq, exists_false, false_and, or_false]
    constructor
    · rintro ⟨h, rfl⟩
      exact ⟨rfl, h⟩
    · rintro ⟨rfl, h⟩
      exact ⟨h, rfl⟩

theorem getFileWithSize_obtained {isGood : String → Bool} {infohash : String} {rawSize : Nat}
    {first : Except String (List UInt8)} {evs : List FetchEvent} {ret : List UInt8}
    (h : Obtained isGood infohash first evs ret) :
    (getFileWithSize isGood infohash rawSize first evs).1 = some (capped rawSize ret) := by
  rcases h with rfl | ⟨⟨err, rfl⟩, hg, pre, post, hpre, rfl⟩
  · exact getFileWithSize_ok_fst isGood infohash rawSize ret evs
  · simp [getFileWithSize, hg, pollLoop_misses_append hpre, pollLoop]

/-- On both return paths, for every answer sequence, `isGood` outcome and cancellation
point: a nil error comes only with bytes a `GetFile` call returned, within the cap, and an
obtained answer over the cap always yields `ErrInvalidRawSize`. -/
theorem getFileWithSize_caps_bytes (isGood : String → Bool) (infohash : String) (rawSize : Nat)
    (first : Except String (List UInt8)) (evs : List FetchEvent) :
    (∀ ret, (getFileWithSize isGood infohash rawSize first evs).1 = some (.ok ret) →
      Obtained isGood infohash first evs ret ∧ ret.length ≤ rawSize) ∧
    (∀ ret, Obtained isGood infohash first evs ret → rawSize < ret.length →
      (getFileWithSize isGood infohash rawSize first evs).1 = some (.error .invalidRawSize)) := by
  refine ⟨fun ret => (getFileWithSize_ok_iff isGood infohash rawSize first evs ret).1,
    fun ret h hr => ?_⟩
  rw [getFileWithSize_obtained h, capped, if_pos hr]

theorem getFileWithSize_caps_bytes_polled :
    (getFileWithSize (fun _ => true) "ih" 3 (.error "miss")
      [.timer (.error "miss"), .timer (.ok [1, 2, 3, 4])]).1 = some (.error .invalidRawSize) :=
  (getFileWithSize_caps_bytes _ _ _ _ _).2 [1, 2, 3, 4]
    (.inr ⟨⟨_, rfl⟩, rfl, [.timer (.error "miss")], [], by decide, rfl⟩) (by decide)

end CortexTheseus.Torrentfs
