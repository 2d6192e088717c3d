import Mathlib.Data.List.Basic

/-!
# Validating a local seed and writing its manifest

`TorrentFS.SeedingLocal` (fs.go:614-752), steps 1 to 3. A file system is a finite tree;
`stat` follows links as the kernel does, at most `maxSymlinks` deep, and `Readdir` reports
entries as `Lstat` does.
-/

namespace CortexTheseus.Torrentfs

/-- A node of the file system, with the name its directory lists it under. -/
inductive Node
  /-- a regular file of `size` bytes -/
  | file (name : String) (size : Nat)
  /-- a symbolic link to the absolute path `target` -/
  | symlink (name : String) (target : List String)
  /-- a directory; `readable` when it can be listed -/
  | dir (name : String) (readable : Bool) (entries : List Node)
  deriving Repr

namespace Node

/-- `FileInfo.Name()` -/
def name : Node → String
  | file n _ | symlink n _ | dir n _ _ => n

/-- The node under another name: `os.Stat` names what it finds after the path's last
component. -/
def rename : Node → String → Node
  | file _ s, n => file n s
  | symlink _ t, n => symlink n t
  | dir _ r es, n => dir n r es

/-- `FileInfo.IsDir()` -/
def isDir : Node → Bool
  | dir .. => true
  | _ => false

def targetText (t : List String) : String := "/" ++ "/".intercalate t

/-- `FileInfo.Size()`: a link's is the length in bytes of its target; a directory's is
never read. -/
def size : Node → Nat
  | file _ s => s
  | symlink _ t => (targetText t).utf8ByteSize
  | dir .. => 0

def isNonEmptyFile : Node → Bool
  | file _ s => 0 < s
  | _ => false

def isSymlink : Node → Bool
  | symlink .. => true
  | _ => false

@[simp] theorem isDir_rename (n : Node) (s : String) : (n.rename s).isDir = n.isDir := by
  cases n <;> rfl

@[simp] theorem size_rename (n : Node) (s : String) : (n.rename s).size = n.size := by
  cases n <;> rfl

@[simp] theorem name_rename (n : Node) (s : String) : (n.rename s).name = s := by
  cases n <;> rfl

theorem size_pos_iff (n : Node) : 0 < n.size ↔ n.isNonEmptyFile = true ∨ n.isSymlink = true := by
  cases n with
  | file _ s => simp [size, isNonEmptyFile, isSymlink]
  | symlink _ t =>
      have : 0 < (targetText t).utf8ByteSize := by
        simp only [targetText, String.utf8ByteSize, HAppend.hAppend, Append.append, String.append]
        exact Nat.lt_add_left _ (Char.utf8Size_pos _)
      simpa [isNonEmptyFile, isSymlink] using this
  | dir => simp [size, isNonEmptyFile, isSymlink]

end Node

/-! ### Resolving paths -/

/-- Walk `path` down from `n`; a link met on the way continues from `follow` of its
target. -/
def walk (follow : List String → Option Node) : Node → List String → Option Node
  | n, [] => some n
  | .dir _ _ entries, c :: cs =>
      match entries.find? (·.name == c) with
      | some (.symlink _ t) => (follow t).bind (walk follow · cs)
      | some n => walk follow n cs
      | none => none
  | _, _ :: _ => none

/-- The nesting depth of links a path resolution follows before it fails with `ELOOP`
(Linux's `MAXSYMLINKS`). -/
def maxSymlinks : Nat := 40

/-- Resolve an absolute path from `root`, following links nested at most `depth` deep. -/
def resolve (root : Node) : Nat → List String → Option Node
  | 0, p => walk (fun _ => none) root p
  | depth + 1, p => walk (resolve root depth) root p

/-- `filepath.Base`: the last component; the root's is `/`. -/
def base (p : List String) : String := p.getLast?.getD "/"

/-- `filepath.Join(p, name)` for a name that is a component, or the root's `/`. -/
def join (p : List String) (name : String) : List String :=
  if name = "/" then p else p ++ [name]

/-- `os.Stat`: what the path resolves to, named after its last component. -/
def stat (root : Node) (p : List String) : Option Node :=
  (resolve root maxSymlinks p).map (·.rename (base p))

/-- `os.Open` then `Readdir(0)`: the entries of the directory the path resolves to, as
`Lstat` reports them; `none` when the open or the listing fails. -/
def readDir (root : Node) (p : List String) : Option (List Node) :=
  match resolve root maxSymlinks p with
  | some (.dir _ true entries) => some entries
  | _ => none

/-! ### The check of step 2 -/

mutual
/-- `iterateForValidFile(filePath, v)` for an entry `v` that `Readdir` listed: a directory
entry is opened at `filePath/v.Name()`, the entry itself. -/
def validEntry : Node → Bool
  | .dir _ readable entries => readable && validEntries entries
  | .file name size => 0 < (Node.file name size).size
  | .symlink name t => 0 < (Node.symlink name t).size

/-- The loop over a listing, which returns at the first entry that passes. -/
def validEntries : List Node → Bool
  | [] => false
  | v :: vs => validEntry v || validEntries vs
end

/-- `iterateForValidFile(basePath, dataInfo)` (fs.go:622-644). -/
def iterateForValidFile (root : Node) (basePath : List String) (info : Node) : Bool :=
  if info.isDir then
    match readDir root (join basePath info.name) with
    | some entries => validEntries entries
    | none => false
  else 0 < info.size

mutual
/-- The nodes below `n` that are not directories, reached through directories that can be
listed; a node that is not a directory is its own. -/
def Node.leaves : Node → List Node
  | .dir _ readable entries => if readable then leavesOf entries else []
  | .file name size => [.file name size]
  | .symlink name t => [.symlink name t]

def leavesOf : List Node → List Node
  | [] => []
  | n :: ns => n.leaves ++ leavesOf ns
end

mutual
theorem validEntry_iff : ∀ n : Node, validEntry n = true ↔ ∃ l ∈ n.leaves, 0 < l.size
  | .dir _ readable entries => by
      cases readable <;> simp [validEntry, Node.leaves, validEntries_iff entries]
  | .file _ _ => by simp [validEntry, Node.leaves]
  | .symlink _ _ => by simp [validEntry, Node.leaves]

theorem validEntries_iff : ∀ es : List Node, validEntries es = true ↔ ∃ l ∈ leavesOf es, 0 < l.size
  | [] => by simp [validEntries, leavesOf]
  | n :: ns => by
      simp only [validEntries, leavesOf, Bool.or_eq_true, validEntry_iff n, validEntries_iff ns,
        List.mem_append, or_and_right, exists_or]
end

theorem validEntry_iff_leaf (n : Node) :
    validEntry n = true ↔ ∃ l ∈ n.leaves, l.isNonEmptyFile = true ∨ l.isSymlink = true := by
  simp only [validEntry_iff, Node.size_pos_iff]

theorem validEntry_of_not_isDir {n : Node} (h : n.isDir = false) : validEntry n = decide (0 < n.size) := by
  cases n <;> simp_all [validEntry, Node.isDir]

theorem stat_eq_some {root e : Node} {q : List String} :
    stat root q = some e ↔ ∃ n, resolve root maxSymlinks q = some n ∧ n.rename (base q) = e := by
  simp [stat]

theorem iterateForValidFile_dir {root d : Node} {basePath : List String} (hd : d.isDir = true) :
    iterateForValidFile root basePath d = true ↔
      ∃ e, stat root (join basePath d.name) = some e ∧ e.isDir = true ∧ validEntry e = true := by
  simp only [iterateForValidFile, hd, if_true, stat_eq_some, readDir]
  cases resolve root maxSymlinks (join basePath d.name) with
  | none => simp
  | some n =>
      rcases n with _ | _ | ⟨_, _ | _, _⟩ <;> simp [Node.rename, Node.isDir, validEntry]

theorem iterateForValidFile_of_stat {root d : Node} {basePath q : List String}
    (h : stat root q = some d) (hq : join basePath (base q) = q) :
    iterateForValidFile root basePath d = validEntry d := by
  cases hd : d.isDir
  · simp [iterateForValidFile, hd, validEntry_of_not_isDir hd]
  · have hn : d.name = base q := by
      obtain ⟨n, -, rfl⟩ := stat_eq_some.mp h
      exact Node.name_rename n _
    apply Bool.eq_iff_iff.mpr
    rw [iterateForValidFile_dir hd, hn, hq, h]
    simp [hd]

inductive SeedError
  /-- the error of `os.Stat` on a path that does not resolve -/
  | stat (path : List String)
  /-- `errors.New("SeedingLocal: Empty Seeding Data!")` -/
  | emptyData
  deriving DecidableEq, Repr

/-- Steps 1 and 2 of `SeedingLocal(ctx, filePath, isLinkMode)` (fs.go:614-668): the data
path and `fileMode` when the data passes the check. -/
def validateSeeding (root : Node) (filePath : List String) :
    Except SeedError (List String × Bool) :=
  match stat root filePath with
  | none => .error (.stat filePath)
  | some _ =>
    match stat root (filePath ++ ["data"]) with
    | some dataInfo =>
        if iterateForValidFile root filePath dataInfo then .ok (filePath ++ ["data"], false)
        else .error .emptyData
    | none =>
      match stat root filePath with
      | some dataInfo =>
          if iterateForValidFile root filePath dataInfo then .ok (filePath, true)
          else .error .emptyData
      | none => .error (.stat filePath)

theorem base_data (filePath : List String) : base (filePath ++ ["data"]) = "data" := by
  simp [base]

theorem validateSeeding_data {root d : Node} {filePath : List String} (hP : (stat root filePath).isSome)
    (hd : stat root (filePath ++ ["data"]) = some d) :
    validateSeeding root filePath =
      if validEntry d then .ok (filePath ++ ["data"], false) else .error .emptyData := by
  obtain ⟨p, hp⟩ := Option.isSome_iff_exists.mp hP
  rw [← @iterateForValidFile_of_stat root d filePath _ hd (by simp [base_data, join])]
  simp only [validateSeeding, hp, hd]

theorem validateSeeding_fileMode {root d : Node} {filePath : List String}
    (hd : stat root (filePath ++ ["data"]) = none) (hP : stat root filePath = some d) :
    validateSeeding root filePath =
      if iterateForValidFile root filePath d then .ok (filePath, true) else .error .emptyData := by
  simp only [validateSeeding, hP, hd]

theorem ok_iff_ite {c : Bool} {r : List String × Bool} :
    (∃ r', (if c then .ok r else .error .emptyData : Except SeedError _) = .ok r') ↔ c = true := by
  cases c <;> simp

/-- What step 2 accepts, for every tree and every path that exists. With a `data` entry,
the data passes exactly when a leaf below it, reached through directories that can be
listed, is a nonempty regular file or a link, of any target. Without one, a path that is
not a directory passes when it is a nonempty file, and a directory `P` is judged by what
`P/base(P)` resolves to, not by its own entries. -/
theorem validateSeeding_examines (root : Node) (filePath : List String) (d : Node)
    (hP : stat root filePath = some d) :
    (∀ e, stat root (filePath ++ ["data"]) = some e →
      ((∃ r, validateSeeding root filePath = .ok r) ↔
        ∃ l ∈ e.leaves, l.isNonEmptyFile = true ∨ l.isSymlink = true)) ∧
    (stat root (filePath ++ ["data"]) = none → d.isDir = false →
      ((∃ r, validateSeeding root filePath = .ok r) ↔ 0 < d.size)) ∧
    (stat root (filePath ++ ["data"]) = none → d.isDir = true →
      ((∃ r, validateSeeding root filePath = .ok r) ↔
        ∃ e, stat root (join filePath (base filePath)) = some e ∧ e.isDir = true ∧
          ∃ l ∈ e.leaves, l.isNonEmptyFile = true ∨ l.isSymlink = true)) := by
  have hn : d.name = base filePath := by
    obtain ⟨n, -, rfl⟩ := stat_eq_some.mp hP
    exact Node.name_rename n _
  refine ⟨fun e he => ?_, fun hd hdir => ?_, fun hd hdir => ?_⟩
  · rw [validateSeeding_data (by simp [hP]) he, ok_iff_ite, validEntry_iff_leaf]
  · rw [validateSeeding_fileMode hd hP, ok_iff_ite]
    simp [iterateForValidFile, hdir]
  · rw [validateSeeding_fileMode hd hP, ok_iff_ite, iterateForValidFile_dir hdir, hn]
    simp only [validEntry_iff_leaf]

/-- A seed directory without `data` that holds one five-byte file. -/
def flatSeed : Node := .dir "/" true [.dir "seed" true [.file "model.bin" 5]]

theorem validateSeeding_examines_flatSeed :
    stat flatSeed ["seed"] = some (.dir "seed" true [.file "model.bin" 5]) ∧
    ((∀ e, stat flatSeed (["seed"] ++ ["data"]) = some e →
      ((∃ r, validateSeeding flatSeed ["seed"] = .ok r) ↔
        ∃ l ∈ e.leaves, l.isNonEmptyFile = true ∨ l.isSymlink = true)) ∧
    (stat flatSeed (["seed"] ++ ["data"]) = none → (Node.dir "seed" true [.file "model.bin" 5]).isDir = false →
      ((∃ r, validateSeeding flatSeed ["seed"] = .ok r) ↔ 0 < (Node.dir "seed" true [.file "model.bin" 5]).size)) ∧
    (stat flatSeed (["seed"] ++ ["data"]) = none → (Node.dir "seed" true [.file "model.bin" 5]).isDir = true →
      ((∃ r, validateSeeding flatSeed ["seed"] = .ok r) ↔
        ∃ e, stat flatSeed (join ["seed"] (base ["seed"])) = some e ∧ e.isDir = true ∧
          ∃ l ∈ e.leaves, l.isNonEmptyFile = true ∨ l.isSymlink = true))) :=
  ⟨rfl, validateSeeding_examines flatSeed ["seed"] _ rfl⟩

/-- A seed whose `data` holds only a link to a file elsewhere. -/
def linkSeed : Node :=
  .dir "/" true [.dir "seed" true [.dir "data" true [.symlink "model.bin" ["models", "model.bin"]]],
    .dir "models" true [.file "model.bin" 0]]

/-- The data `linkSeed` seeds is one link, to an empty file, and it passes the check; the
directory `flatSeed/seed` holds a five-byte file, and it fails, since file mode opens
`/seed/seed`. -/
theorem validateSeeding_counterexample :
    stat linkSeed ["seed", "data"] =
        some (.dir "data" true [.symlink "model.bin" ["models", "model.bin"]]) ∧
      stat linkSeed ["seed", "data", "model.bin"] = some (.file "model.bin" 0) ∧
      validateSeeding linkSeed ["seed"] = .ok (["seed", "data"], false) ∧
    stat flatSeed ["seed"] = some (.dir "seed" true [.file "model.bin" 5]) ∧
      validateSeeding flatSeed ["seed"] = .error .emptyData :=
  ⟨rfl, rfl, rfl, rfl, rfl⟩

/-! ### The manifest of step 3 -/

/-- `filepath.Join(filePath, "torrent")`, or in file mode `filepath.Join("", "torrent")`,
which is relative to the working directory `cwd`. -/
def torrentPath (cwd filePath : List String) (fileMode : Bool) : List String :=
  if fileMode then cwd ++ ["torrent"] else filePath ++ ["torrent"]

/-- What a file holds after `os.OpenFile(path, os.O_CREATE|os.O_WRONLY, 0644)` and writes
of `bytes` from offset 0 (`old` is `none` for a new file): without `O_TRUNC`, whatever
lay beyond them stays. -/
def writeFromStart (old : Option (List UInt8)) (bytes : List UInt8) : List UInt8 :=
  bytes ++ (old.getD []).drop bytes.length

/-- Step 3's write (fs.go:683-692) on the contents of the files: `mi.Write` emits `bytes`
into the manifest and no other file changes. -/
def writeManifest (cwd filePath : List String) (fileMode : Bool) (bytes : List UInt8)
    (contents : List String → Option (List UInt8)) : List String → Option (List UInt8) :=
  fun q => if q = torrentPath cwd filePath fileMode then some (writeFromStart (contents q) bytes)
    else contents q

theorem writeFromStart_eq_self_iff (old : Option (List UInt8)) (bytes : List UInt8) :
    writeFromStart old bytes = bytes ↔ (old.getD []).length ≤ bytes.length := by
  simp [writeFromStart]

/-- For a directory with `data`, the manifest lands in `P/torrent` and holds the new bytes
followed by what the old manifest had past their length: it is exactly the new manifest
only when the old one was no longer. Rewriting the two-key manifest `d1:a1:be` with the
empty dictionary `de` leaves `de:a1:be`. -/
theorem writeManifest_keeps_stale_tail :
    (∀ (cwd filePath : List String) (bytes : List UInt8) (contents : List String → Option (List UInt8)),
      writeManifest cwd filePath false bytes contents (filePath ++ ["torrent"]) =
          some (bytes ++ ((contents (filePath ++ ["torrent"])).getD []).drop bytes.length) ∧
        (writeManifest cwd filePath false bytes contents (filePath ++ ["torrent"]) = some bytes ↔
          ((contents (filePath ++ ["torrent"])).getD []).length ≤ bytes.length)) ∧
    writeManifest [] ["seed"] false [100, 101] (fun _ => some [100, 49, 58, 97, 49, 58, 98, 101])
        ["seed", "torrent"] = some [100, 101, 58, 97, 49, 58, 98, 101] := by
  refine ⟨fun cwd filePath bytes contents => ?_, by decide⟩
  have h : writeManifest cwd filePath false bytes contents (filePath ++ ["torrent"]) =
      some (writeFromStart (contents (filePath ++ ["torrent"])) bytes) := by
    simp [writeManifest, torrentPath]
  rw [h]
  exact ⟨rfl, Option.some_inj.trans (writeFromStart_eq_self_iff _ _)⟩

end CortexTheseus.Torrentfs
