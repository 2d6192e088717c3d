import CortexTheseus.Schedule
import Mathlib.Data.List.Basic

/-!
# The TLS stack and alloca blocks

`Alloc`/`Free`, the alloca calls and `Close` of a `TLS` (libc_musl.go:274-467). Each malloc
carries its answer, and a call is enabled only when the answer keeps malloc's contract
(`MallocSpec`). The state also records, as ghost state, the live `Alloc` results and every
address malloc returned and `Xfree` was passed.
-/

namespace CortexTheseus.Libc

/-- `tlsStackSlot` -/
structure TlsStackSlot where
  p : Nat
  sz : Nat
  deriving DecidableEq, Repr

def TlsStackSlot.block (slot : TlsStackSlot) : Nat × Nat := (slot.p, slot.sz)

/-- A TLS, with the records its checks read. -/
structure TlsState where
  allocaStack : List Nat
  allocas : List Nat
  pthread : Nat
  sp : Nat
  stack : List TlsStackSlot
  ownsPthread : Bool
  /-- the usable size of the `pthread` block -/
  pthreadSize : Nat
  /-- each alloca with its usable size -/
  allocaBlocks : List (Nat × Nat)
  /-- the `Alloc` results not yet matched by a `Free`, with their requests, latest last -/
  live : List (Nat × Nat)
  /-- every address malloc returned for this TLS, in order -/
  obtained : List Nat
  /-- every address passed to `Xfree`, in order -/
  freed : List Nat
  deriving Repr

/-- The ranges `[x.1, x.1 + x.2)` and `[y.1, y.1 + y.2)` do not overlap. -/
def Separate (x y : Nat × Nat) : Prop := x.1 + x.2 ≤ y.1 ∨ y.1 + y.2 ≤ x.1

instance (x y : Nat × Nat) : Decidable (Separate x y) := inferInstanceAs (Decidable (_ ∨ _))

theorem Separate.symm {x y : Nat × Nat} (h : Separate x y) : Separate y x := Or.symm h

/-- The range `x` lies inside the block `b`. -/
def Within (x b : Nat × Nat) : Prop := b.1 ≤ x.1 ∧ x.1 + x.2 ≤ b.1 + b.2

theorem Separate.of_within {x y a b : Nat × Nat} (h : Separate a b) (hx : Within x a)
    (hy : Within y b) : Separate x y := by
  unfold Separate Within at *
  omega

/-- What malloc may answer to a request of `n` while `held` are this TLS's blocks. -/
def MallocSpec (held : List (Nat × Nat)) (n p usable : Nat) : Prop :=
  n ≤ usable ∧ (p = 0 → usable = 0) ∧ ∀ b ∈ held, Separate (p, usable) b

instance (held : List (Nat × Nat)) (n p usable : Nat) : Decidable (MallocSpec held n p usable) :=
  inferInstanceAs (Decidable (_ ∧ _ ∧ _))

/-- The blocks this TLS holds: `pthread`, the stack slots and the allocas. -/
def TlsState.blocks (s : TlsState) : List (Nat × Nat) :=
  (s.pthread, s.pthreadSize) :: s.stack.map TlsStackSlot.block ++ s.allocaBlocks

/-- `NewTLS()`, with malloc's answer for the `pthread` block. -/
def newTls (pthread usable : Nat) : TlsState :=
  ⟨[], [], pthread, 0, [], true, usable, [], [], [pthread], []⟩

/-- A call on the TLS, with malloc's answer where the call may malloc. -/
inductive TlsCall
  /-- `Alloc(n)` -/
  | alloc (n p usable : Nat)
  /-- `Free(n)`, whose argument is not read -/
  | free
  | allocaEntry
  /-- `Xalloca(n)` -/
  | alloca (n p usable : Nat)
  | allocaExit
  deriving DecidableEq, Repr

/-- `Alloc(n)` (libc_musl.go:372-421); `p` is what it returns. -/
def alloc (s : TlsState) (n p usable : Nat) : Option TlsState :=
  match s.stack[s.sp]? with
  | some slot =>
      if n ≤ slot.sz then some { s with sp := s.sp + 1, live := s.live ++ [(slot.p, n)] }
      else if MallocSpec (s.blocks.eraseIdx (s.sp + 1)) n p usable then
        some { s with
          stack := s.stack.set s.sp ⟨p, usable⟩, sp := s.sp + 1, live := s.live ++ [(p, n)],
          obtained := s.obtained ++ [p], freed := s.freed ++ [slot.p] }
      else none
  | none =>
      if MallocSpec s.blocks n p usable then
        some { s with
          stack := s.stack ++ [⟨p, usable⟩], sp := s.sp + 1, live := s.live ++ [(p, n)],
          obtained := s.obtained ++ [p] }
      else none

/-- `AllocaExit()` (libc_musl.go:450-456): `allocas[x:]` panics when the mark `x` is past
the end. -/
def allocaExit (s : TlsState) : Option TlsState :=
  match s.allocaStack.getLast? with
  | none => none
  | some x =>
      if x ≤ s.allocas.length then
        some { s with
          allocaStack := s.allocaStack.dropLast, allocas := s.allocas.take x,
          allocaBlocks := s.allocaBlocks.take x, freed := s.freed ++ s.allocas.drop x }
      else none

def tlsStep (s : TlsState) : TlsCall → Option TlsState
  | .alloc n p usable => alloc s n p usable
  | .free => if s.live = [] then none else some { s with sp := s.sp - 1, live := s.live.dropLast }
  | .allocaEntry => some { s with allocaStack := s.allocaStack ++ [s.allocas.length] }
  | .alloca n p usable =>
      if MallocSpec s.blocks n p usable then
        some { s with
          allocas := s.allocas ++ [p], allocaBlocks := s.allocaBlocks ++ [(p, usable)],
          obtained := s.obtained ++ [p] }
      else none
  | .allocaExit => allocaExit s

/-- The addresses `Close()` passes to `Xfree`, in order. -/
def closeFrees (s : TlsState) : List Nat :=
  s.allocas ++ s.stack.map TlsStackSlot.p ++ (if s.ownsPthread then [s.pthread] else [])

/-! ### Lists of blocks -/

theorem pairwise_of_within {xs bs : List (Nat × Nat)} (hb : bs.Pairwise Separate)
    (h : ∀ (i : Nat) x, xs[i]? = some x → ∃ b, bs[i]? = some b ∧ Within x b) :
    xs.Pairwise Separate := by
  induction xs generalizing bs with
  | nil => exact .nil
  | cons x xs ih =>
      obtain ⟨b, hb0, hxb⟩ := h 0 x (by simp)
      rcases bs with _ | ⟨b', bs⟩
      · cases hb0
      obtain rfl : b' = b := by simpa using hb0
      obtain ⟨hsep, hbs⟩ := List.pairwise_cons.mp hb
      refine List.pairwise_cons.mpr ⟨fun y hy => ?_, ih hbs fun i x hx => by
        simpa using h (i + 1) x (by simpa using hx)⟩
      obtain ⟨j, hj, rfl⟩ := List.getElem_of_mem hy
      obtain ⟨b', hb', hyb⟩ := h (j + 1) xs[j] (by simp [hj])
      rw [List.getElem?_cons_succ] at hb'
      obtain ⟨hlt, rfl⟩ := List.getElem?_eq_some_iff.mp hb'
      exact (hsep _ (List.getElem_mem hlt)).of_within hxb hyb

theorem pairwise_set {l : List (Nat × Nat)} {k : Nat} {x : Nat × Nat} (hl : l.Pairwise Separate)
    (hk : k < l.length) (hx : ∀ b ∈ l.eraseIdx k, Separate x b) : (l.set k x).Pairwise Separate := by
  rw [List.set_eq_take_append_cons_drop, if_pos hk]
  refine List.Perm.pairwise List.perm_middle.symm ?_ Separate.symm
  rw [List.pairwise_cons, ← List.eraseIdx_eq_take_drop_succ]
  exact ⟨hx, hl.sublist (List.eraseIdx_sublist l k)⟩

theorem pairwise_snoc {l : List (Nat × Nat)} {x : Nat × Nat} (hl : l.Pairwise Separate)
    (hx : ∀ b ∈ l, Separate x b) : (l ++ [x]).Pairwise Separate :=
  List.pairwise_append.mpr ⟨hl, List.pairwise_singleton _ _, fun b hb y hy => by
    rw [List.mem_singleton.mp hy]
    exact (hx b hb).symm⟩

/-! ### The invariant -/

/-- What the TLS owes its callers and malloc in every state a well-nested run reaches:
`sp` counts the live allocations, each lies in the stack slot of its depth, the blocks
it holds are separate, the alloca marks are in order and within `allocas`, and every
address malloc returned is freed or still held, as often as it was returned. -/
structure TlsState.Invariant (s : TlsState) : Prop where
  sp_eq : s.sp = s.live.length
  sp_le : s.sp ≤ s.stack.length
  live_within : ∀ (i : Nat) x, s.live[i]? = some x →
    ∃ b, (s.stack.map TlsStackSlot.block)[i]? = some b ∧ Within x b
  separate : s.blocks.Pairwise Separate
  allocas_eq : s.allocaBlocks.map Prod.fst = s.allocas
  marks_sorted : s.allocaStack.Pairwise (· ≤ ·)
  marks_le : ∀ x ∈ s.allocaStack, x ≤ s.allocas.length
  owns : s.ownsPthread = true
  books : ∀ a, s.obtained.count a = s.freed.count a + (s.blocks.map Prod.fst).count a

theorem TlsState.blocks_map_fst (s : TlsState) :
    s.blocks.map Prod.fst = s.pthread :: s.stack.map TlsStackSlot.p ++ s.allocaBlocks.map Prod.fst := by
  simp [TlsState.blocks, Function.comp_def, TlsStackSlot.block]

theorem newTls_invariant (pthread usable : Nat) : (newTls pthread usable).Invariant where
  sp_eq := rfl
  sp_le := Nat.le_refl 0
  live_within _ _ h := by simp [newTls] at h
  separate := List.pairwise_singleton _ _
  allocas_eq := rfl
  marks_sorted := .nil
  marks_le _ h := by simp [newTls] at h
  owns := rfl
  books _ := by simp [newTls, TlsState.blocks]

section

variable {s : TlsState} (hi : s.Invariant)
include hi

theorem TlsState.Invariant.blocks_addrs :
    s.blocks.map Prod.fst = s.pthread :: s.stack.map TlsStackSlot.p ++ s.allocas := by
  rw [TlsState.blocks_map_fst, hi.allocas_eq]

theorem alloc_reuse {slot : TlsStackSlot} {n : Nat} (hslot : s.stack[s.sp]? = some slot)
    (hn : n ≤ slot.sz) : ({ s with sp := s.sp + 1, live := s.live ++ [(slot.p, n)] }).Invariant where
  sp_eq := by simp [hi.sp_eq]
  sp_le := (List.getElem?_eq_some_iff.mp hslot).1
  live_within i x h := by
    rcases getElem?_snoc_cases h with h | ⟨rfl, rfl⟩
    · exact hi.live_within i x h
    · refine ⟨slot.block, by simp [← hi.sp_eq, hslot], ?_⟩
      simp only [Within, TlsStackSlot.block]
      omega
  separate := hi.separate
  allocas_eq := hi.allocas_eq
  marks_sorted := hi.marks_sorted
  marks_le := hi.marks_le
  owns := hi.owns
  books := hi.books

theorem alloc_replace {slot : TlsStackSlot} {n p usable : Nat} (hslot : s.stack[s.sp]? = some slot)
    (hm : MallocSpec (s.blocks.eraseIdx (s.sp + 1)) n p usable) :
    ({ s with
      stack := s.stack.set s.sp ⟨p, usable⟩, sp := s.sp + 1, live := s.live ++ [(p, n)],
      obtained := s.obtained ++ [p], freed := s.freed ++ [slot.p] }).Invariant := by
  obtain ⟨hlt, hsl⟩ := List.getElem?_eq_some_iff.mp hslot
  have hb : s.blocks[s.sp + 1]? = some slot.block := by
    simp [TlsState.blocks, List.getElem?_append_left, hlt, hsl]
  have hblocks : (s.pthread, s.pthreadSize) :: (s.stack.set s.sp ⟨p, usable⟩).map TlsStackSlot.block ++
      s.allocaBlocks = s.blocks.set (s.sp + 1) (p, usable) := by
    simp [TlsState.blocks, hlt, TlsStackSlot.block]
  have hsp := hi.sp_eq
  constructor
  · simp [hsp]
  · simpa using hlt
  · intro i x h
    rcases getElem?_snoc_cases h with h | ⟨rfl, rfl⟩
    · obtain ⟨b, hb, hxb⟩ := hi.live_within i x h
      have hne : s.sp ≠ i := by have := (List.getElem?_eq_some_iff.mp h).1; omega
      exact ⟨b, by simpa [List.getElem?_set_ne hne] using hb, hxb⟩
    · refine ⟨(p, usable), by simp [← hsp, hlt, TlsStackSlot.block], ?_⟩
      have := hm.1
      simp only [Within]
      omega
  · simp only [TlsState.blocks]
    rw [hblocks]
    exact pairwise_set hi.separate (List.getElem?_eq_some_iff.mp hb).1 hm.2.2
  · exact hi.allocas_eq
  · exact hi.marks_sorted
  · exact hi.marks_le
  · exact hi.owns
  · intro a
    have hk : (s.blocks.map Prod.fst)[s.sp + 1]? = some slot.p := by
      simp [hb, TlsStackSlot.block]
    have hset := count_set_add p hk a
    simp only [TlsState.blocks]
    rw [hblocks, List.map_set, List.count_append, List.count_append, List.count_singleton,
      List.count_singleton, hi.books a]
    simp only [beq_iff_eq] at hset ⊢
    split_ifs at hset ⊢ <;> omega

theorem alloc_push {n p usable : Nat} (hslot : s.stack[s.sp]? = none)
    (hm : MallocSpec s.blocks n p usable) :
    ({ s with
      stack := s.stack ++ [TlsStackSlot.mk p usable], sp := s.sp + 1, live := s.live ++ [(p, n)],
      obtained := s.obtained ++ [p] }).Invariant := by
  have htop : s.sp = s.stack.length := by
    have := hi.sp_le
    have := List.getElem?_eq_none_iff.mp hslot
    omega
  have hperm : List.Perm ((s.pthread, s.pthreadSize) ::
      (s.stack ++ [TlsStackSlot.mk p usable]).map TlsStackSlot.block ++ s.allocaBlocks)
      (s.blocks ++ [(p, usable)]) := by
    simpa [TlsState.blocks, TlsStackSlot.block] using
      (List.perm_append_singleton (p, usable) s.allocaBlocks).symm.append_left (s.stack.map TlsStackSlot.block)
  have hsp := hi.sp_eq
  constructor
  · simp [hsp]
  · simp [htop]
  · intro i x h
    rcases getElem?_snoc_cases h with h | ⟨rfl, rfl⟩
    · obtain ⟨b, hb, hxb⟩ := hi.live_within i x h
      exact ⟨b, by simpa using getElem?_append_of_some hb, hxb⟩
    · refine ⟨(p, usable), by simp [← hsp, htop, TlsStackSlot.block], ?_⟩
      have := hm.1
      simp only [Within]
      omega
  · simp only [TlsState.blocks]
    exact (pairwise_snoc hi.separate hm.2.2).perm hperm.symm Separate.symm
  · exact hi.allocas_eq
  · exact hi.marks_sorted
  · exact hi.marks_le
  · exact hi.owns
  · intro a
    simp only [TlsState.blocks]
    rw [(hperm.map Prod.fst).count_eq]
    simp only [List.map_append, List.map_cons, List.map_nil, List.count_append, hi.books a]
    omega

theorem free_invariant (hlive : s.live ≠ []) :
    ({ s with sp := s.sp - 1, live := s.live.dropLast }).Invariant := by
  have hsp := hi.sp_eq
  have hpos := List.length_pos.mpr hlive
  refine ⟨by simp [hsp], by have := hi.sp_le; simp only; omega, fun i x h => ?_, hi.separate,
    hi.allocas_eq, hi.marks_sorted, hi.marks_le, hi.owns, hi.books⟩
  rw [List.getElem?_dropLast] at h
  split_ifs at h
  exact hi.live_within i x h

theorem allocaEntry_invariant :
    ({ s with allocaStack := s.allocaStack ++ [s.allocas.length] }).Invariant := by
  refine ⟨hi.sp_eq, hi.sp_le, hi.live_within, hi.separate, hi.allocas_eq, ?_, ?_, hi.owns, hi.books⟩
  · exact List.pairwise_append.mpr ⟨hi.marks_sorted, List.pairwise_singleton _ _,
      fun x hx y hy => (List.mem_singleton.mp hy) ▸ hi.marks_le x hx⟩
  · intro x hx
    rcases List.mem_append.mp hx with hx | hx
    · exact hi.marks_le x hx
    · exact Nat.le_of_eq (List.mem_singleton.mp hx)

theorem alloca_invariant {n p usable : Nat} (hm : MallocSpec s.blocks n p usable) :
    ({ s with
      allocas := s.allocas ++ [p], allocaBlocks := s.allocaBlocks ++ [(p, usable)],
      obtained := s.obtained ++ [p] }).Invariant := by
  have hblocks : (s.pthread, s.pthreadSize) :: s.stack.map TlsStackSlot.block ++
      (s.allocaBlocks ++ [(p, usable)]) = s.blocks ++ [(p, usable)] := by
    simp [TlsState.blocks]
  refine ⟨hi.sp_eq, hi.sp_le, hi.live_within, ?_, by simp [hi.allocas_eq], hi.marks_sorted,
    fun x hx => by have := hi.marks_le x hx; simp only [List.length_append]; omega, hi.owns, ?_⟩
  · simp only [TlsState.blocks]
    rw [hblocks]
    exact pairwise_snoc hi.separate hm.2.2
  · intro a
    simp only [TlsState.blocks]
    rw [hblocks]
    simp only [List.map_append, List.map_cons, List.map_nil, List.count_append, hi.books a]
    omega

theorem allocaExit_invariant {x : Nat} (hx : s.allocaStack.getLast? = some x)
    (hle : x ≤ s.allocas.length) :
    ({ s with
      allocaStack := s.allocaStack.dropLast, allocas := s.allocas.take x,
      allocaBlocks := s.allocaBlocks.take x, freed := s.freed ++ s.allocas.drop x }).Invariant := by
  obtain ⟨marks, hmarks⟩ := List.getLast?_eq_some_iff.mp hx
  have hsorted := hi.marks_sorted
  rw [hmarks, List.pairwise_append] at hsorted
  have hsub : List.Sublist ((s.pthread, s.pthreadSize) :: s.stack.map TlsStackSlot.block ++
      s.allocaBlocks.take x) s.blocks :=
    (List.take_sublist x _).append_left _
  refine ⟨hi.sp_eq, hi.sp_le, hi.live_within, ?_, by simp [← hi.allocas_eq], ?_, ?_, hi.owns, ?_⟩
  · exact hi.separate.sublist hsub
  · simpa [hmarks] using hsorted.1
  · intro y hy
    simp only [hmarks, List.dropLast_concat] at hy
    simp only [List.length_take]
    have := hsorted.2.2 y hy x (List.mem_singleton_self x)
    omega
  · intro a
    have hb := hi.books a
    have hc := congrArg (List.count a) (List.take_append_drop x s.allocas)
    rw [TlsState.blocks_map_fst] at hb ⊢
    simp only [List.map_take, hi.allocas_eq, List.count_append, List.count_cons] at hb hc ⊢
    omega

end

theorem tlsStep_invariant {s s' : TlsState} {c : TlsCall} (hi : s.Invariant)
    (h : tlsStep s c = some s') : s'.Invariant := by
  cases c with
  | alloc n p usable =>
      simp only [tlsStep, alloc] at h
      split at h
      · next slot hslot =>
          split_ifs at h with hn hm
          · cases h
            exact alloc_reuse hi hslot hn
          · cases h
            exact alloc_replace hi hslot hm
      · next hslot =>
          split_ifs at h with hm
          cases h
          exact alloc_push hi hslot hm
  | free =>
      simp only [tlsStep] at h
      split_ifs at h with hl
      cases h
      exact free_invariant hi hl
  | allocaEntry =>
      cases h
      exact allocaEntry_invariant hi
  | alloca n p usable =>
      simp only [tlsStep] at h
      split_ifs at h with hm
      cases h
      exact alloca_invariant hi hm
  | allocaExit =>
      simp only [tlsStep, allocaExit] at h
      split at h
      · cases h
      · next x hx =>
          split_ifs at h with hle
          cases h
          exact allocaExit_invariant hi hx hle

theorem TlsState.Invariant.of_reachable {pthread usable : Nat} {s : TlsState}
    (h : Reachable tlsStep (newTls pthread usable) s) : s.Invariant :=
  Reachable.invariant tlsStep (newTls_invariant pthread usable)
    (fun _ _ _ hi hs => tlsStep_invariant hi hs) h

/-- In every state a well-nested run of calls reaches, whatever malloc answers within its
contract: each live `Alloc` result lies in a block the TLS holds, and distinct live
results do not overlap; `sp` is the number of live results and at most the number of
stack slots; and once `Close` has run, the addresses passed to `Xfree` are those malloc
returned, each as many times. -/
theorem tls_alloc_sound (pthread usable : Nat) (s : TlsState)
    (h : Reachable tlsStep (newTls pthread usable) s) :
    (∀ x ∈ s.live, ∃ b ∈ s.blocks, Within x b) ∧ s.live.Pairwise Separate ∧
    (s.sp = s.live.length ∧ s.sp ≤ s.stack.length) ∧
    List.Perm (s.freed ++ closeFrees s) s.obtained := by
  have hi := TlsState.Invariant.of_reachable h
  have hsub : List.Sublist (s.stack.map TlsStackSlot.block) s.blocks :=
    (List.sublist_cons_self _ _).trans (List.sublist_append_left _ _)
  refine ⟨fun x hx => ?_, pairwise_of_within (hi.separate.sublist hsub) hi.live_within,
    ⟨hi.sp_eq, hi.sp_le⟩, List.perm_iff_count.mpr fun a => ?_⟩
  · obtain ⟨i, hix⟩ := List.mem_iff_getElem?.mp hx
    obtain ⟨b, hb, hxb⟩ := hi.live_within i x hix
    obtain ⟨hlt, rfl⟩ := List.getElem?_eq_some_iff.mp hb
    exact ⟨_, hsub.subset (List.getElem_mem hlt), hxb⟩
  · have hb := hi.books a
    rw [hi.blocks_addrs] at hb
    simp only [closeFrees, hi.owns, if_true, List.count_append, List.count_cons,
      List.count_nil] at hb ⊢
    omega

def nestedCalls : List TlsCall :=
  [.alloc 11 4096 16, .alloc 22 8192 32, .free, .free, .alloc 40 12288 48, .allocaEntry,
    .alloca 8 16384 16, .allocaExit]

theorem tls_alloc_sound_nestedCalls :
    ∃ s, runSteps tlsStep (newTls 1024 256) nestedCalls = some s ∧ s.live = [(12288, 40)] ∧
      ((∀ x ∈ s.live, ∃ b ∈ s.blocks, Within x b) ∧ s.live.Pairwise Separate ∧
        (s.sp = s.live.length ∧ s.sp ≤ s.stack.length) ∧
        List.Perm (s.freed ++ closeFrees s) s.obtained) :=
  ⟨_, rfl, rfl, tls_alloc_sound 1024 256 _ ⟨nestedCalls, rfl⟩⟩

end CortexTheseus.Libc
