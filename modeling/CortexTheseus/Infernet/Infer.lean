import CortexTheseus.Common.Hex
import CortexTheseus.Infernet.Server

/-!
# Inference and its result cache

`localInfer` (part_000:97-140) looks the work up in `inferSimpleCache` under the lowercased
model and input hashes, concatenated; on a miss it waits for the three files, runs
`InferCore` and stores the label. `InferCore` is a parameter, and the answers of
`common.FileExist` and of the `stopInfer` load are an input. Each goroutine makes one atomic
`Load` and at most one `Store`, so a run handles the works one after another.
-/

namespace CortexTheseus.Infernet

open CortexTheseus.Common

/-- `InferWork` without its reply channels: what `localInfer` reads. -/
structure InferWork where
  modelInfoHash : String
  inputInfoHash : String
  forcePending : Bool
  deriving DecidableEq, Repr

/-- One pass of the loop of `checkFileExists`: what `common.FileExist` answered, and
whether `stopInfer` was 1 when it was loaded next. -/
structure FileCheck where
  present : Bool
  running : Bool
  deriving DecidableEq, Repr

/-- What a `localInfer` goroutine does with its work. -/
inductive InferOutcome
  /-- sends `label` on `inferWork.res` -/
  | res (label : UInt64)
  /-- sends the error on `inferWork.err` -/
  | err (msg : String)
  /-- still sleeps in `checkFileExists` when the answers run out -/
  | waiting
  /-- `s[2:]` on a hash shorter than two bytes: slice bounds out of range -/
  | panic
  deriving DecidableEq, Repr

/-- `checkFileExists(fpath, forcePending)`: its error, and the answers it left; `none`
while it still waits. -/
def checkFileExists (fpath : String) (forcePending : Bool) :
    List FileCheck → Option (Except String Unit × List FileCheck)
  | [] => none
  | c :: cs =>
      if c.present then some (.ok (), cs)
      else if !forcePending then some (.error ("File " ++ fpath ++ " does not exists"), cs)
      else if !c.running then some (.error "Atomic stop pending", cs)
      else checkFileExists fpath forcePending cs

/-- The three calls of `checkFileExists` in `localInfer`, each on the answers the one
before left; the first error is the one sent. -/
def checkFiles (forcePending : Bool) : List String → List FileCheck → Option (Except String Unit)
  | [], _ => some (.ok ())
  | p :: ps, cs =>
      match checkFileExists p forcePending cs with
      | none => none
      | some (.error e, _) => some (.error e)
      | some (.ok (), cs) => checkFiles forcePending ps cs

/-- `strings.ToLower(string(inferWork.modelInfoHash[2:]))` -/
def modelHash (w : InferWork) : String := toLower ⟨w.modelInfoHash.data.drop 2⟩

/-- `strings.ToLower(string(inferWork.inputInfoHash[2:]))` -/
def inputHash (w : InferWork) : String := toLower ⟨w.inputInfoHash.data.drop 2⟩

def modelDir (config : Config) (w : InferWork) : String := config.storageDir ++ "/" ++ modelHash w

def inputDir (config : Config) (w : InferWork) : String := config.storageDir ++ "/" ++ inputHash w

/-- `cacheKey := modelHash + inputHash`, with no separator. -/
def cacheKey (w : InferWork) : String := modelHash w ++ inputHash w

def modelCfg (config : Config) (w : InferWork) : String := modelDir config w ++ "/data/params"

def modelBin (config : Config) (w : InferWork) : String := modelDir config w ++ "/data/symbol"

def image (config : Config) (w : InferWork) : String := inputDir config w ++ "/data"

/-- `inferSimpleCache.Store(key, label)` -/
def store (cache : String → Option UInt64) (key : String) (label : UInt64) : String → Option UInt64 :=
  fun k => if k = key then some label else cache k

/-- `localInfer(inferWork)` on the cache, with the answers its file checks get. -/
def localInfer (config : Config) (inferCore : String → String → String → Except String UInt64)
    (cache : String → Option UInt64) (w : InferWork) (checks : List FileCheck) :
    InferOutcome × (String → Option UInt64) :=
  if w.modelInfoHash.length < 2 ∨ w.inputInfoHash.length < 2 then (.panic, cache)
  else
    match cache (cacheKey w) with
    | some v => (.res v, cache)
    | none =>
      match checkFiles w.forcePending [modelCfg config w, modelBin config w, image config w] checks with
      | none => (.waiting, cache)
      | some (.error e) => (.err e, cache)
      | some (.ok ()) =>
        match inferCore (modelCfg config w) (modelBin config w) (image config w) with
        | .error e => (.err e, cache)
        | .ok label => (.res label, store cache (cacheKey w) label)

/-- Works handled one after another, each with the answers its file checks get. -/
def inferRun (config : Config) (inferCore : String → String → String → Except String UInt64)
    (cache : String → Option UInt64) : List (InferWork × List FileCheck) →
      List InferOutcome × (String → Option UInt64)
  | [] => ([], cache)
  | (w, checks) :: rest =>
      let r := localInfer config inferCore cache w checks
      let rs := inferRun config inferCore r.2 rest
      (r.1 :: rs.1, rs.2)

theorem cacheKey_inj {w1 w2 : InferWork} (h : cacheKey w1 = cacheKey w2)
    (hw : (modelHash w1).length = (modelHash w2).length) :
    modelHash w1 = modelHash w2 ∧ inputHash w1 = inputHash w2 := by
  have hd := congrArg String.data h
  simp only [cacheKey, String.data_append] at hd
  obtain ⟨h1, h2⟩ := List.append_inj hd hw
  exact ⟨String.ext h1, String.ext h2⟩

section

variable (config : Config) (inferCore : String → String → String → Except String UInt64)

theorem localInfer_cache (cache : String → Option UInt64) (w : InferWork) (checks : List FileCheck) :
    (localInfer config inferCore cache w checks).2 = cache ∨
      ∃ label, inferCore (modelCfg config w) (modelBin config w) (image config w) = .ok label ∧
        (localInfer config inferCore cache w checks).2 = store cache (cacheKey w) label := by
  unfold localInfer
  repeat' split
  all_goals first | exact .inl rfl | exact .inr ⟨_, ‹_›, rfl⟩

/-- Every entry of the cache is a label `InferCore` returned for the paths of a work in
`seen` that has the entry's key. -/
def CacheSound (seen : List InferWork) (cache : String → Option UInt64) : Prop :=
  ∀ k v, cache k = some v → ∃ w ∈ seen, cacheKey w = k ∧
    inferCore (modelCfg config w) (modelBin config w) (image config w) = .ok v

variable {config inferCore}

theorem CacheSound.mono {seen seen' : List InferWork} {cache : String → Option UInt64}
    (hs : CacheSound config inferCore seen cache) (h : seen ⊆ seen') :
    CacheSound config inferCore seen' cache := fun k v hk =>
  let ⟨w, hw, hkw⟩ := hs k v hk
  ⟨w, h hw, hkw⟩

theorem CacheSound.localInfer {seen : List InferWork} {cache : String → Option UInt64}
    (hs : CacheSound config inferCore seen cache) (w : InferWork) (checks : List FileCheck) :
    CacheSound config inferCore (w :: seen) (localInfer config inferCore cache w checks).2 := by
  have hs' := hs.mono (List.subset_cons_self w seen)
  rcases localInfer_cache config inferCore cache w checks with h | ⟨label, hl, h⟩
  · rwa [h]
  · rw [h]
    intro k v hk
    by_cases hkw : k = cacheKey w
    · simp only [store, hkw, if_true, Option.some.injEq] at hk
      exact ⟨w, List.mem_cons_self w seen, hkw.symm, hk ▸ hl⟩
    · simp only [store, hkw, if_false] at hk
      exact hs' k v hk

theorem CacheSound.inferRun {seen : List InferWork} {cache : String → Option UInt64}
    (hs : CacheSound config inferCore seen cache) (ws : List (InferWork × List FileCheck)) :
    CacheSound config inferCore (ws.map Prod.fst ++ seen) (inferRun config inferCore cache ws).2 := by
  induction ws generalizing seen cache with
  | nil => exact hs
  | cons p ws ih =>
      refine (ih (hs.localInfer p.1 p.2)).mono fun x hx => ?_
      simp only [List.mem_append, List.mem_cons, List.map_cons] at hx ⊢
      tauto

end

/-- A work whose lookup, after any run from the empty cache, hits gets a label `InferCore`
returned for a work of the run with the same key; when that work's model hash has the
same width, it had the same model and input directories, so the label is the one
`InferCore` returns for the looking work's own paths. -/
theorem inferRun_cache_hit (config : Config)
    (inferCore : String → String → String → Except String UInt64)
    (ws : List (InferWork × List FileCheck)) (w : InferWork) (v : UInt64)
    (hit : (inferRun config inferCore (fun _ => none) ws).2 (cacheKey w) = some v) :
    ∃ w1 ∈ ws.map Prod.fst, cacheKey w1 = cacheKey w ∧
      inferCore (modelCfg config w1) (modelBin config w1) (image config w1) = .ok v ∧
      ((modelHash w1).length = (modelHash w).length →
        modelDir config w1 = modelDir config w ∧ inputDir config w1 = inputDir config w ∧
          inferCore (modelCfg config w) (modelBin config w) (image config w) = .ok v) := by
  have hs : CacheSound config inferCore [] (fun _ => none) := fun _ _ h => by cases h
  obtain ⟨w1, hw1, hk, hl⟩ := hs.inferRun ws _ _ hit
  refine ⟨w1, by simpa using hw1, hk, hl, fun hw => ?_⟩
  obtain ⟨hm, hi⟩ := cacheKey_inj hk hw
  simpa only [modelCfg, modelBin, image, modelDir, inputDir, hm, hi, true_and] using hl

def storage : Config := ⟨"/data"⟩

def allPresent : List FileCheck := [⟨true, true⟩, ⟨true, true⟩, ⟨true, true⟩]

def sampleWork : InferWork := ⟨"0xab", "0xcd", false⟩

theorem inferRun_cache_hit_sampleWork :
    (inferRun storage (fun _ _ _ => .ok 7) (fun _ => none) [(sampleWork, allPresent)]).2
        (cacheKey sampleWork) = some 7 ∧
    ∃ w1 ∈ [(sampleWork, allPresent)].map Prod.fst, cacheKey w1 = cacheKey sampleWork ∧
      (fun _ _ _ => .ok 7 : String → String → String → Except String UInt64)
          (modelCfg storage w1) (modelBin storage w1) (image storage w1) = .ok 7 ∧
      ((modelHash w1).length = (modelHash sampleWork).length →
        modelDir storage w1 = modelDir storage sampleWork ∧
          inputDir storage w1 = inputDir storage sampleWork ∧
          (fun _ _ _ => .ok 7 : String → String → String → Except String UInt64)
            (modelCfg storage sampleWork) (modelBin storage sampleWork) (image storage sampleWork) =
              .ok 7) :=
  ⟨rfl, inferRun_cache_hit storage (fun _ _ _ => .ok 7) [(sampleWork, allPresent)] sampleWork 7 rfl⟩

def shortModel : InferWork := ⟨"0xab", "0xcdef", false⟩

def longModel : InferWork := ⟨"0xabcd", "0xef", false⟩

def labelByConfig (cfg _ _ : String) : Except String UInt64 := .ok cfg.length.toUInt64

/-- The two works share a key but not a model directory; handled in turn, the second is
answered from the cache with the first one's label, 20, while `InferCore` gives 22 for
its own model. -/
theorem localInfer_cache_collision :
    cacheKey shortModel = cacheKey longModel ∧
    modelDir storage shortModel ≠ modelDir storage longModel ∧
    (inferRun storage labelByConfig (fun _ => none)
        [(shortModel, allPresent), (longModel, allPresent)]).1 = [.res 20, .res 20] ∧
    labelByConfig (modelCfg storage longModel) (modelBin storage longModel) (image storage longModel) =
      .ok 22 :=
  ⟨by decide, by decide, by decide, rfl⟩

end CortexTheseus.Infernet
