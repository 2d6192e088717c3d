import CortexTheseus.Libc.Strings

/-!
# Thread IDs and temporary names

`NewTLS` (libc_musl.go:294-315) draws its ID with `tid.Add(1)`, again when the answer is `0`;
the goroutines interleave their `Add`s. `___randname` (libc_musl.go:637-659) spells six
letters from the clock and the ID. The counter is a `UInt32`; the clock is an input.
-/

namespace CortexTheseus.Libc

/-! ### `NewTLS` -/

/-- `2 ^ 32`: the values of the counter's 32 bits. -/
def idSpace : Nat := Nat.pow 2 32

/-- Where a goroutine is in its `NewTLS` call. -/
inductive TidPc
  | idle
  /-- the first `tid.Add(1)` answered `0` -/
  | retry
  /-- `NewTLS` has its `id` -/
  | done (id : UInt32)
  deriving DecidableEq, Repr

/-- The counter `tid` and the goroutines calling `NewTLS`. -/
structure TidState where
  tid : UInt32
  threads : List TidPc
  /-- the number of `tid.Add(1)` made so far -/
  draws : Nat
  deriving DecidableEq, Repr

/-- `n` goroutines about to call `NewTLS`, the counter at its zero value. -/
def tidInit (n : Nat) : TidState := ⟨0, List.replicate n .idle, 0⟩

inductive TidAction
  /-- goroutine `k`'s `id := tid.Add(1)` -/
  | add (k : Nat)
  /-- goroutine `k`'s `id = tid.Add(1)` after a `0` -/
  | retry (k : Nat)
  deriving DecidableEq, Repr

/-- `tid.Add(1)` by goroutine `k`, which goes on to `next` with the answer. -/
def tidAdd (s : TidState) (k : Nat) (next : UInt32 → TidPc) : TidState :=
  ⟨s.tid + 1, s.threads.set k (next (s.tid + 1)), s.draws + 1⟩

/-- One atomic step; `none` when it is not enabled. -/
def tidStep (s : TidState) : TidAction → Option TidState
  | .add k =>
      match s.threads[k]? with
      | some .idle => some (tidAdd s k fun id => if id = 0 then .retry else .done id)
      | _ => none
  | .retry k =>
      match s.threads[k]? with
      | some .retry => some (tidAdd s k .done)
      | _ => none

theorem toNat_add_one (a : UInt32) : (a + 1).toNat = (a.toNat + 1) % idSpace := by
  rw [UInt32.add_def]
  exact BitVec.toNat_add _ _

theorem tidStep_add {s s' : TidState} {k : Nat} (h : tidStep s (.add k) = some s') :
    s.threads[k]? = some .idle ∧ s' = tidAdd s k fun id => if id = 0 then .retry else .done id := by
  simp only [tidStep] at h
  split at h <;> cases h
  exact ⟨‹_›, rfl⟩

theorem tidStep_retry {s s' : TidState} {k : Nat} (h : tidStep s (.retry k) = some s') :
    s.threads[k]? = some .retry ∧ s' = tidAdd s k .done := by
  simp only [tidStep] at h
  split at h <;> cases h
  exact ⟨‹_›, rfl⟩

theorem tidStep_cases {s s' : TidState} {a : TidAction} (h : tidStep s a = some s') :
    ∃ k next, (∀ id, next (s.tid + 1) = .done id → id = s.tid + 1) ∧ s' = tidAdd s k next := by
  cases a with
  | add k =>
    obtain ⟨-, rfl⟩ := tidStep_add h
    refine ⟨k, _, fun id hid => ?_, rfl⟩
    split_ifs at hid
    exact (TidPc.done.inj hid).symm
  | retry k =>
    obtain ⟨-, rfl⟩ := tidStep_retry h
    exact ⟨k, _, fun _ hid => (TidPc.done.inj hid).symm, rfl⟩

/-- What every reachable state keeps: the counter is the number of `Add`s modulo `2 ^ 32`
and, while that number has not reached `2 ^ 32`, every ID handed out is one of the
answers `1, 2, ...` so far, and no two goroutines hold the same one. -/
structure TidState.Invariant (s : TidState) : Prop where
  tid : s.tid.toNat = s.draws % idSpace
  drawn : s.draws < idSpace → ∀ (k : Nat) (id : UInt32), s.threads[k]? = some (.done id) →
    0 < id.toNat ∧ id.toNat ≤ s.draws
  unique : s.draws < idSpace → ∀ (j k : Nat) (a b : UInt32), j ≠ k →
    s.threads[j]? = some (.done a) → s.threads[k]? = some (.done b) → a ≠ b

theorem tidInit_invariant (n : Nat) : (tidInit n).Invariant where
  tid := rfl
  drawn := by simp [tidInit, List.getElem?_replicate]
  unique := by simp [tidInit, List.getElem?_replicate]

theorem tidAdd_answer {s : TidState} (hi : s.Invariant) (hs : s.draws + 1 < idSpace) :
    (s.tid + 1).toNat = s.draws + 1 := by
  rw [toNat_add_one, hi.tid, Nat.mod_eq_of_lt (show s.draws < idSpace by omega),
    Nat.mod_eq_of_lt hs]

theorem tidStep_invariant {s s' : TidState} {a : TidAction} (hi : s.Invariant)
    (h : tidStep s a = some s') : s'.Invariant := by
  obtain ⟨k, next, hnext, rfl⟩ := tidStep_cases h
  have hbound : s.draws + 1 < idSpace → ∀ id, next (s.tid + 1) = .done id →
      id.toNat = s.draws + 1 := fun hs id hid => hnext id hid ▸ tidAdd_answer hi hs
  refine ⟨?_, fun hs j id hj => ?_, fun hs i j a b hij ha hb => ?_⟩
  · simp only [tidAdd, toNat_add_one, hi.tid, Nat.mod_add_mod]
  · simp only [tidAdd] at hs hj ⊢
    rcases getElem?_set_cases hj with ⟨rfl, hid⟩ | ⟨-, hj⟩
    · have := hbound hs id hid.symm
      omega
    · have := hi.drawn (by omega) j id hj
      omega
  · simp only [tidAdd] at hs ha hb
    rcases getElem?_set_cases ha with ⟨rfl, ha'⟩ | ⟨-, ha₀⟩ <;>
      rcases getElem?_set_cases hb with ⟨rfl, hb'⟩ | ⟨-, hb₀⟩
    · exact absurd rfl hij
    · -- the new ID is above every earlier one
      have h1 := hbound hs a ha'.symm
      have h2 := hi.drawn (by omega) j b hb₀
      rintro rfl
      omega
    · have h1 := hbound hs b hb'.symm
      have h2 := hi.drawn (by omega) i a ha₀
      rintro rfl
      omega
    · exact hi.unique (by omega) i j a b hij ha₀ hb₀

theorem TidState.Invariant.of_reachable {n : Nat} {s : TidState}
    (h : Reachable tidStep (tidInit n) s) : s.Invariant :=
  Reachable.invariant tidStep (tidInit_invariant n) (fun _ _ _ hi hs => tidStep_invariant hi hs) h

theorem runSteps_draws {n : Nat} {as : List TidAction} {s : TidState}
    (h : runSteps tidStep (tidInit n) as = some s) : s.draws = as.length := by
  induction as using List.reverseRecOn generalizing s with
  | nil => cases h; rfl
  | append_singleton as a ih =>
    rw [runSteps_snoc] at h
    obtain ⟨s₀, h₀, hs⟩ := Option.bind_eq_some.mp h
    obtain ⟨k, next, -, rfl⟩ := tidStep_cases hs
    simp [tidAdd, ih h₀]

/-- Where each goroutine's `Add`s are in the schedule: one waiting to retry made its first
`Add` as the schedule's `u.length + 1`-th, which answered `0`; one that got the ID `0`
made its retry at least `2 ^ 32 - 1` `Add`s after its first. -/
structure RetryLog (as : List TidAction) (s : TidState) : Prop where
  retry : ∀ k : Nat, s.threads[k]? = some .retry →
    ∃ u v, as = u ++ .add k :: v ∧ (u.length + 1) % idSpace = 0
  zero : ∀ k : Nat, s.threads[k]? = some (.done 0) →
    ∃ u v w, as = u ++ .add k :: v ++ .retry k :: w ∧ idSpace - 1 ≤ v.length

theorem RetryLog.snoc {as : List TidAction} {s s' : TidState} {a : TidAction}
    (hl : RetryLog as s) (hi : s.Invariant) (hd : s.draws = as.length)
    (h : tidStep s a = some s') : RetryLog (as ++ [a]) s' := by
  have hN : idSpace = 4294967296 := rfl
  -- the answer of this `Add` is `0` exactly when the schedule's length then is
  have hans : (s.tid + 1).toNat = (as.length + 1) % idSpace := by
    rw [toNat_add_one, hi.tid, hd, Nat.mod_add_mod]
  have hzero : s.tid + 1 = 0 ↔ (as.length + 1) % idSpace = 0 :=
    ⟨fun h0 => by rw [← hans, h0]; rfl, fun h0 => UInt32.toNat.inj (hans.trans h0)⟩
  cases a with
  | add k =>
    obtain ⟨-, rfl⟩ := tidStep_add h
    refine ⟨fun j hj => ?_, fun j hj => ?_⟩ <;> simp only [tidAdd] at hj <;>
      rcases getElem?_set_cases hj with ⟨rfl, hx⟩ | ⟨-, hj⟩
    · split_ifs at hx with h0
      exact ⟨as, [], rfl, hzero.mp h0⟩
    · obtain ⟨u, v, rfl, hu⟩ := hl.retry j hj
      exact ⟨u, v ++ [.add k], by simp, hu⟩
    · split_ifs at hx with h0
      exact absurd (TidPc.done.inj hx).symm h0
    · obtain ⟨u, v, w, rfl, hv⟩ := hl.zero j hj
      exact ⟨u, v, w ++ [.add k], by simp, hv⟩
  | retry k =>
    obtain ⟨hk, rfl⟩ := tidStep_retry h
    refine ⟨fun j hj => ?_, fun j hj => ?_⟩ <;> simp only [tidAdd] at hj <;>
      rcases getElem?_set_cases hj with ⟨rfl, hx⟩ | ⟨-, hj⟩
    · cases hx
    · obtain ⟨u, v, rfl, hu⟩ := hl.retry j hj
      exact ⟨u, v ++ [.retry k], by simp, hu⟩
    · -- the retry answered `0`: the counter went round once more since the first `Add`
      obtain ⟨u, v, rfl, hu⟩ := hl.retry j hk
      have h0 := hzero.mp (TidPc.done.inj hx).symm
      simp only [hN, List.length_append, List.length_cons] at h0 hu ⊢
      exact ⟨u, v, [], by simp, by omega⟩
    · obtain ⟨u, v, w, rfl, hv⟩ := hl.zero j hj
      exact ⟨u, v, w ++ [.retry k], by simp, hv⟩

theorem retryLog_of_runSteps {n : Nat} {as : List TidAction} {s : TidState}
    (h : runSteps tidStep (tidInit n) as = some s) : RetryLog as s := by
  induction as using List.reverseRecOn generalizing s with
  | nil =>
    cases h
    constructor <;> simp [tidInit, List.getElem?_replicate]
  | append_singleton as a ih =>
    rw [runSteps_snoc] at h
    obtain ⟨s₀, h₀, hs⟩ := Option.bind_eq_some.mp h
    exact (ih h₀).snoc (TidState.Invariant.of_reachable ⟨as, h₀⟩) (runSteps_draws h₀) hs

/-- Over every interleaving of concurrent `NewTLS` calls, of any length: a TLS gets the ID
`0` only when its first `Add` answered `0` and at least `2 ^ 32 - 1` other `Add`s ran
before its retry; and until `2 ^ 32` IDs have been drawn no two TLSs get the same ID. -/
theorem newTLS_ids_distinct {n : Nat} {as : List TidAction} {s : TidState}
    (h : runSteps tidStep (tidInit n) as = some s) :
    (∀ k : Nat, s.threads[k]? = some (.done 0) →
      ∃ u v w, as = u ++ .add k :: v ++ .retry k :: w ∧ idSpace - 1 ≤ v.length) ∧
    (s.draws < idSpace → ∀ (j k : Nat) (a b : UInt32), j ≠ k → s.threads[j]? = some (.done a) →
      s.threads[k]? = some (.done b) → a ≠ b) :=
  ⟨(retryLog_of_runSteps h).zero, (TidState.Invariant.of_reachable ⟨as, h⟩).unique⟩

def twoThreads : TidState := ⟨2, [.done 1, .done 2], 2⟩

theorem newTLS_ids_distinct_twoThreads :
    (∀ k : Nat, twoThreads.threads[k]? = some (.done 0) →
      ∃ u v w, [TidAction.add 0, .add 1] = u ++ .add k :: v ++ .retry k :: w ∧ idSpace - 1 ≤ v.length) ∧
    (twoThreads.draws < idSpace → ∀ (j k : Nat) (a b : UInt32), j ≠ k →
      twoThreads.threads[j]? = some (.done a) → twoThreads.threads[k]? = some (.done b) → a ≠ b) :=
  @newTLS_ids_distinct 2 [.add 0, .add 1] twoThreads rfl

/-! ### `___randname` -/

/-- `int8(uint64('A') + r&uint64(15) + r&uint64(16)*uint64(2))`; the value is at most
`'p'`, so the `int8` keeps it. -/
def randChar (r : Nat) : UInt8 := UInt8.ofNat (65 + (r &&& 15) + (r &&& 16) * 2)

/-- The `k` bytes the loop writes from `r`, shifting it right by 5 after each. -/
def nameBytes (r : Nat) : Nat → List UInt8
  | 0 => []
  | k + 1 => randChar r :: nameBytes (r >>> 5) k

/-- The loop of `___randname` over the `k` bytes left, from `template + i`. -/
def randnameLoop (m : Memory) (p r : Nat) : Nat → Memory
  | 0 => m
  | k + 1 => randnameLoop (writeBytes m p [randChar r]) (p + 1) (r >>> 5) k

/-- `r = uint64(tv_sec+tv_nsec) + uint64(tls.ID)*uint64(65537)`: the `int64` sum and the
sign-extended `int32` ID, all modulo `2 ^ 64`. -/
def randnameR (sec nsec id : Int) : Nat :=
  ((sec + nsec + id * 65537) % (addressSpace : Int)).toNat

/-- `___randname(tls, template)` at the clock reading `(sec, nsec)`, by the TLS whose `ID`
has the `int32` value `id`: it returns `template`. -/
def randname (m : Memory) (template : Nat) (sec nsec id : Int) : Nat × Memory :=
  (template, randnameLoop m template (randnameR sec nsec id) 6)

/-- The letters a name is made of: `'A'` to `'P'` and `'a'` to `'p'`. -/
def IsNameLetter (c : UInt8) : Prop :=
  (65 ≤ c.toNat ∧ c.toNat ≤ 80) ∨ (97 ≤ c.toNat ∧ c.toNat ≤ 112)

instance : DecidablePred IsNameLetter := fun _ => inferInstanceAs (Decidable (_ ∨ _))

/-- The five bits a letter stands for: `'A'..'P'` are `0..15`, `'a'..'p'` are `16..31`. -/
def letterValue (c : UInt8) : Nat := (c.toNat - 65) % 16 + 16 * ((c.toNat - 65) / 32)

/-- The number a name spells, its first letter the lowest five bits. -/
def nameValue : List UInt8 → Nat
  | [] => 0
  | c :: cs => letterValue c + 32 * nameValue cs

@[simp] theorem nameBytes_length (r k : Nat) : (nameBytes r k).length = k := by
  induction k generalizing r <;> simp [nameBytes, *]

theorem and_sixteen (r : Nat) : r &&& 16 = 16 * (r / 16 % 2) := by
  have h31 : r &&& 31 = r % 32 := by simpa using Nat.and_pow_two_sub_one_eq_mod r 5
  have hlow : ∀ x, x < 32 → x &&& 16 = 16 * (x / 16 % 2) := by decide
  calc r &&& 16 = (r &&& 31) &&& 16 := by rw [Nat.and_assoc]; rfl
    _ = 16 * (r % 32 / 16 % 2) := by rw [h31, hlow _ (Nat.mod_lt _ (by decide))]
    _ = 16 * (r / 16 % 2) := by omega

theorem randChar_toNat (r : Nat) : (randChar r).toNat = 65 + r % 16 + 32 * (r / 16 % 2) := by
  have h15 : r &&& 15 = r % 16 := by simpa using Nat.and_pow_two_sub_one_eq_mod r 4
  rw [randChar, h15, and_sixteen, UInt8.toNat_ofNat_of_lt (by change _ < 256; omega)]
  omega

theorem randChar_isNameLetter (r : Nat) : IsNameLetter (randChar r) := by
  unfold IsNameLetter
  rw [randChar_toNat]
  omega

theorem letterValue_randChar (r : Nat) : letterValue (randChar r) = r % 32 := by
  unfold letterValue
  rw [randChar_toNat]
  omega

theorem randChar_mod (r : Nat) : randChar (r % 32) = randChar r :=
  UInt8.toNat.inj (by rw [randChar_toNat, randChar_toNat]; omega)

theorem pow_thirtyTwo_succ (k : Nat) : Nat.pow 32 (k + 1) = 32 * Nat.pow 32 k := Nat.mul_comm _ _

theorem nameValue_nameBytes (r k : Nat) : nameValue (nameBytes r k) = r % Nat.pow 32 k := by
  induction k generalizing r with
  | zero => simp [nameBytes, nameValue, Nat.mod_one]
  | succ k ih =>
    rw [nameBytes, nameValue, ih, letterValue_randChar, Nat.shiftRight_eq_div_pow, pow_thirtyTwo_succ,
      Nat.mod_mul]

theorem nameBytes_eq_iff (r r' k : Nat) :
    nameBytes r k = nameBytes r' k ↔ r % Nat.pow 32 k = r' % Nat.pow 32 k := by
  refine ⟨fun h => by rw [← nameValue_nameBytes, h, nameValue_nameBytes], fun h => ?_⟩
  induction k generalizing r r' with
  | zero => rfl
  | succ k ih =>
    rw [pow_thirtyTwo_succ, Nat.mod_mul, Nat.mod_mul] at h
    have h32 : r % 32 = r' % 32 := by omega
    have hk : r / 32 % Nat.pow 32 k = r' / 32 % Nat.pow 32 k := by omega
    rw [nameBytes, nameBytes, ← randChar_mod, h32, randChar_mod, Nat.shiftRight_eq_div_pow,
      Nat.shiftRight_eq_div_pow]
    exact congrArg _ (ih _ _ hk)

theorem writeBytes_cons (m : Memory) (p : Nat) (b : UInt8) (bs : List UInt8) :
    writeBytes (writeBytes m p [b]) (p + 1) bs = writeBytes m p (b :: bs) := by
  funext x
  rcases Nat.lt_trichotomy x p with hx | rfl | hx
  · simp [writeBytes, show ¬ p ≤ x by omega, show ¬ p + 1 ≤ x by omega]
  · simp [writeBytes]
  · obtain ⟨d, rfl⟩ : ∃ d, x = p + 1 + d := ⟨x - (p + 1), by omega⟩
    simp [writeBytes, show p + 1 + d - p = d + 1 by omega, show p ≤ p + 1 + d by omega]

theorem randnameLoop_eq (m : Memory) (p r k : Nat) :
    randnameLoop m p r k = writeBytes m p (nameBytes r k) := by
  induction k generalizing m p r with
  | zero => funext x; simp [randnameLoop, nameBytes, writeBytes]
  | succ k ih => rw [randnameLoop, ih, nameBytes, writeBytes_cons]

theorem nameBytes_isNameLetter (r k : Nat) : ∀ c ∈ nameBytes r k, IsNameLetter c := by
  induction k generalizing r with
  | zero => intro c hc; cases hc
  | succ k ih =>
    intro c hc
    rcases List.mem_cons.mp hc with rfl | hc
    · exact randChar_isNameLetter r
    · exact ih _ c hc

/-- `2 ^ 30`: the values six letters of five bits spell. -/
def nameSpace : Nat := Nat.pow 32 6

theorem randnameR_mod (sec nsec id : Int) :
    ((randnameR sec nsec id % nameSpace : Nat) : Int) = (sec + nsec + id * 65537) % nameSpace := by
  have h : (nameSpace : Int) ∣ (addressSpace : Int) := Int.ofNat_dvd.mpr ⟨17179869184, rfl⟩
  rw [randnameR, Int.ofNat_emod, Int.toNat_of_nonneg (Int.emod_nonneg _ (by decide)),
    Int.emod_emod_of_dvd _ h]

/-- `___randname` returns its template and writes there six letters `'A'..'P'`, `'a'..'p'`
which spell, five bits a letter and the first letter lowest, the low 30 bits of
`tv_sec + tv_nsec + ID * 65537`; no other byte changes. -/
theorem randname_writes_name (m : Memory) (template : Nat) (sec nsec id : Int) :
    (randname m template sec nsec id).1 = template ∧
    ∃ name : List UInt8, name.length = 6 ∧
      BytesAt (randname m template sec nsec id).2 template name ∧
      (∀ c ∈ name, IsNameLetter c) ∧
      (nameValue name : Int) = (sec + nsec + id * 65537) % nameSpace ∧
      ∀ x, x < template ∨ template + 6 ≤ x → (randname m template sec nsec id).2 x = m x := by
  refine ⟨rfl, nameBytes (randnameR sec nsec id) 6, nameBytes_length _ _, ?_,
    nameBytes_isNameLetter _ 6, ?_, fun x hx => ?_⟩
  · rw [randname, randnameLoop_eq]
    exact bytesAt_writeBytes _
  · rw [nameValue_nameBytes, ← randnameR_mod]
    rfl
  · rw [randname, randnameLoop_eq]
    exact writeBytes_of_not_mem (by simp; omega)

/-- Two `___randname` calls write the same name exactly when `tv_sec + tv_nsec + ID * 65537`
agree in their low 30 bits: whatever the clock readings and the IDs. -/
theorem randname_same_name_iff (sec nsec id sec' nsec' id' : Int) :
    nameBytes (randnameR sec nsec id) 6 = nameBytes (randnameR sec' nsec' id') 6 ↔
      (sec + nsec + id * 65537) % nameSpace = (sec' + nsec' + id' * 65537) % nameSpace := by
  rw [nameBytes_eq_iff, ← randnameR_mod, ← randnameR_mod, Int.ofNat_inj]
  rfl

/-- Two TLSs made by `NewTLS` while at most `2 ^ 30` IDs have been drawn never get the same
temporary name from one clock reading. -/
theorem randname_distinct_threads {n : Nat} {s : TidState} (h : Reachable tidStep (tidInit n) s)
    (hs : s.draws ≤ nameSpace) {j k : Nat} {a b : UInt32} (hjk : j ≠ k)
    (ha : s.threads[j]? = some (.done a)) (hb : s.threads[k]? = some (.done b)) (sec nsec : Int) :
    nameBytes (randnameR sec nsec a.toBitVec.toInt) 6 ≠
      nameBytes (randnameR sec nsec b.toBitVec.toInt) 6 := by
  have hi := TidState.Invariant.of_reachable h
  have hlt : s.draws < idSpace := lt_of_le_of_lt hs (by decide)
  have hab : a.toNat ≠ b.toNat := fun e => hi.unique hlt j k a b hjk ha hb (UInt32.toNat.inj e)
  have ⟨ha0, ha1⟩ := hi.drawn hlt j a ha
  have ⟨hb0, hb1⟩ := hi.drawn hlt k b hb
  -- both IDs are positive `int32`s below `2 ^ 30`
  have hsigned : ∀ c : UInt32, c.toNat ≤ nameSpace → c.toBitVec.toInt = c.toNat := fun c hc => by
    rw [BitVec.toInt_eq_toNat_cond, if_pos]
    · rfl
    · change 2 * c.toNat < 4294967296
      exact lt_of_le_of_lt (Nat.mul_le_mul_left 2 hc) (by decide)
  rw [Ne, randname_same_name_iff, hsigned a (ha1.trans hs), hsigned b (hb1.trans hs)]
  change ¬ _ % ((1073741824 : Nat) : Int) = _ % ((1073741824 : Nat) : Int)
  change 1073741824 ≥ s.draws at hs
  omega

theorem randname_distinct_twoThreads :
    nameBytes (randnameR 0 0 (1 : UInt32).toBitVec.toInt) 6 ≠
      nameBytes (randnameR 0 0 (2 : UInt32).toBitVec.toInt) 6 :=
  @randname_distinct_threads 2 twoThreads ⟨[.add 0, .add 1], rfl⟩ (by decide) 0 1 1 2 (by decide)
    rfl rfl 0 0

end CortexTheseus.Libc
