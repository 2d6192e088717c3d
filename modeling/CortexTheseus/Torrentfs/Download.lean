import CortexTheseus.Torrentfs.BroadcastRace

/-!
# The fetch path

`TorrentFS.download` (fs.go:788-810). Its collaborators are not under src/ and each is
called at most once, so their answers are parameters; the calls are recorded in order.
-/

namespace CortexTheseus.Torrentfs

open CortexTheseus.Common

/-- A call `download` makes on a collaborator, or the broadcast goroutine it spawns. -/
inductive DownloadCall
  /-- `fs.chain().SetTorrentProgress(ih, request)` -/
  | setTorrentProgress (ih : String) (request : Nat)
  /-- `fs.storage().Exists(ih, size)` -/
  | checkExists (ih : String) (size : Nat)
  /-- `go ... fs.broadcast(ih, p)` -/
  | broadcast (ih : String) (size : Nat)
  /-- `fs.storage().Search(ctx, ih, p)` -/
  | search (ih : String) (size : Nat)
  deriving DecidableEq, Repr

section

/- The answers of the ledger (the resolved size, or an error), of `Exists`, and of `Search`
(its error, `none` for nil). -/
variable (setTorrentProgress : String → Nat → Except String Nat)
  (swarmExists : String → Nat → Bool) (search : String → Nat → Option String)

/-- `download(ctx, ih, request)`: the error it returns and the calls it makes. -/
def download (ih : String) (request : Nat) : Option String × List DownloadCall :=
  let ih := toLower ih
  match setTorrentProgress ih request with
  | .error err => (some err, [.setTorrentProgress ih request])
  | .ok p =>
      (search ih p, [.setTorrentProgress ih request, .checkExists ih request] ++
        (if swarmExists ih request then [] else [.broadcast ih p]) ++ [.search ih p])

/-- What `download` does, for every answer of its collaborators: it first records the
request under the lowercased hash; a ledger error is returned at once; otherwise it
returns the error of `Search` at the resolved size `p`, and spawns `broadcast` at `p`
exactly when `Exists` answers false for the request. -/
theorem download_spec (ih : String) (request : Nat) :
    (download setTorrentProgress swarmExists search ih request).2.head? =
      some (.setTorrentProgress (toLower ih) request) ∧
    (∀ err, setTorrentProgress (toLower ih) request = .error err →
      download setTorrentProgress swarmExists search ih request =
        (some err, [.setTorrentProgress (toLower ih) request])) ∧
    (∀ p, setTorrentProgress (toLower ih) request = .ok p →
      (download setTorrentProgress swarmExists search ih request).1 = search (toLower ih) p ∧
      (download setTorrentProgress swarmExists search ih request).2.getLast? =
        some (.search (toLower ih) p) ∧
      (∀ ih' size, .broadcast ih' size ∈ (download setTorrentProgress swarmExists search ih request).2 ↔
        ih' = toLower ih ∧ size = p ∧ swarmExists (toLower ih) request = false)) := by
  refine ⟨?_, fun err h => by simp [download, h], fun p h => ?_⟩
  · cases h : setTorrentProgress (toLower ih) request <;> simp [download, h]
  · cases he : swarmExists (toLower ih) request <;> simp [download, h, he, and_comm]

end

/-! ### The size `Exists` is asked about -/

def tracksTwo : String → Nat → Except String Nat := fun _ _ => .ok 2

def holdsOne : String → Nat → Bool := fun _ size => decide (size ≤ 1)

/-- `download` asks `Exists` about the caller's request, not about the resolved size it
fetches: when the ledger resolves a request of 1 to 2 bytes and the swarm holds only
1, the artifact is absent at the resolved size, yet no broadcast is spawned and only
the local `Search` at 2 bytes is made. -/
theorem download_checks_exists_at_request :
    holdsOne (toLower raceHash) 2 = false ∧
    download tracksTwo holdsOne (fun _ _ => none) raceHash 1 =
      (none, [.setTorrentProgress raceHash 1, .checkExists raceHash 1, .search raceHash 2]) :=
  ⟨rfl, by decide⟩

/-! ### Spellings of one hash -/

def prefixedHash : String := "0x6B75CC1354495EC763A6B295EE407EA864A0C292"

theorem toLower_prefixedHash : toLower prefixedHash = "0x" ++ raceHash := by decide

/-- `download` folds letter case but keeps the `0x` prefix, which `SeedingLocal` trims
(fs.go:700): for every answer of the collaborators the two spellings reach the ledger
under different keys, and the tunnel, keyed by the same text, announces the need once
under each spelling. -/
theorem download_keys_keep_prefix :
    isHexAddress prefixedHash = true ∧ isHexAddress raceHash = true ∧
    toLower prefixedHash ≠ toLower raceHash ∧
    (∀ (setTorrentProgress : String → Nat → Except String Nat) (swarmExists : String → Nat → Bool)
      (search : String → Nat → Option String) (request : Nat),
      (download setTorrentProgress swarmExists search prefixedHash request).2.head? =
        some (.setTorrentProgress ("0x" ++ raceHash) request) ∧
      (download setTorrentProgress swarmExists search raceHash request).2.head? =
        some (.setTorrentProgress raceHash request)) ∧
    (broadcastRun [⟨"0x" ++ raceHash, 1, 0⟩, ⟨raceHash, 1, 0⟩]).2.map Prod.snd = [true, true] := by
  refine ⟨by decide, by decide, by decide, fun ledger swarm search request => ?_, by decide⟩
  have hp := (download_spec ledger swarm search prefixedHash request).1
  have hr := (download_spec ledger swarm search raceHash request).1
  rw [toLower_prefixedHash] at hp
  exact ⟨hp, hr⟩

end CortexTheseus.Torrentfs
