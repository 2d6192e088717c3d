import CortexTheseus.Libc.Tls

/-!
# C strings built from Go strings

`mustAllocStrings`, `mustCString`, `GoString`, `mustMalloc` and `mustCalloc`
(libc_musl.go:185-263). Memory is a byte per address and a `uintptr` is 8 bytes, least
significant first, wrapping at `2 ^ 64`. Each malloc or calloc call carries the answer it
gets, within malloc's contract (`MallocSpec`).
-/

namespace CortexTheseus.Libc

/-- The bytes of the address space, by address. -/
abbrev Memory := Nat → UInt8

/-- `unsafe.Sizeof(uintptr(0))` on the 64-bit targets. -/
def ptrSize : Nat := 8

/-- `2 ^ 64`, the number of `uintptr` values: address arithmetic wraps at it. -/
def addressSpace : Nat := Nat.pow 2 64

/-- `copy` of the bytes `bs` to the address `p`. -/
def writeBytes (m : Memory) (p : Nat) (bs : List UInt8) : Memory :=
  fun x => if p ≤ x then bs[x - p]?.getD (m x) else m x

/-- The `k` low bytes of `w`, least significant first. -/
def leBytes (w : Nat) : Nat → List UInt8
  | 0 => []
  | k + 1 => UInt8.ofNat w :: leBytes (w / 256) k

/-- The number the `k` bytes at `p` hold, least significant first. -/
def loadLE (m : Memory) (p : Nat) : Nat → Nat
  | 0 => 0
  | k + 1 => (m p).toNat + 256 * loadLE m (p + 1) k

/-- The store of the `uintptr` `w` at `p`. -/
def storeWord (m : Memory) (p w : Nat) : Memory := writeBytes m p (leBytes w ptrSize)

/-- The `uintptr` at `p`. -/
def loadWord (m : Memory) (p : Nat) : Nat := loadLE m p ptrSize

/-- The bytes at `p` are `bs`. -/
def BytesAt (m : Memory) : Nat → List UInt8 → Prop
  | _, [] => True
  | p, b :: bs => m p = b ∧ BytesAt m (p + 1) bs

section Bytes

variable {m m' : Memory} {p : Nat}

@[simp] theorem bytesAt_nil : BytesAt m p [] := trivial

@[simp] theorem bytesAt_cons {b : UInt8} {bs : List UInt8} :
    BytesAt m p (b :: bs) ↔ m p = b ∧ BytesAt m (p + 1) bs := Iff.rfl

theorem bytesAt_append {xs ys : List UInt8} :
    BytesAt m p (xs ++ ys) ↔ BytesAt m p xs ∧ BytesAt m (p + xs.length) ys := by
  induction xs generalizing p with
  | nil => simp
  | cons b xs ih =>
    have e : p + 1 + xs.length = p + (xs.length + 1) := by omega
    rw [List.cons_append, bytesAt_cons, bytesAt_cons, ih, List.length_cons, e, and_assoc]

theorem BytesAt.congr {bs : List UInt8} (h : BytesAt m p bs)
    (hagree : ∀ x, p ≤ x → x < p + bs.length → m' x = m x) : BytesAt m' p bs := by
  induction bs generalizing p with
  | nil => trivial
  | cons b bs ih =>
    refine ⟨(hagree p le_rfl (by simp)).trans h.1, ih h.2 fun x h₁ h₂ => hagree x ?_ ?_⟩
    all_goals simp at h₂ ⊢; omega

theorem writeBytes_of_not_mem {bs : List UInt8} {x : Nat} (h : ¬ (p ≤ x ∧ x < p + bs.length)) :
    writeBytes m p bs x = m x := by
  unfold writeBytes
  split_ifs with hp
  · rw [List.getElem?_eq_none (by omega), Option.getD_none]
  · rfl

theorem bytesAt_writeBytes (bs : List UInt8) : BytesAt (writeBytes m p bs) p bs := by
  induction bs generalizing p with
  | nil => trivial
  | cons b bs ih =>
    refine ⟨by simp [writeBytes], ih.congr fun x h₁ h₂ => ?_⟩
    have hx : x - p = x - (p + 1) + 1 := by omega
    simp only [writeBytes, hx, List.getElem?_cons_succ]
    split_ifs <;> first | rfl | omega

theorem bytesAt_replicate {k : Nat} {b : UInt8} (h : ∀ x, p ≤ x → x < p + k → m x = b) :
    BytesAt m p (List.replicate k b) := by
  induction k generalizing p with
  | zero => trivial
  | succ k ih => exact ⟨h p le_rfl (by omega), ih fun x h₁ h₂ => h x (by omega) (by omega)⟩

theorem writeBytes_replicate {k x : Nat} {b : UInt8} (h₁ : p ≤ x) (h₂ : x < p + k) :
    writeBytes m p (List.replicate k b) x = b := by
  simp [writeBytes, List.getElem?_replicate, h₁, show x - p < k by omega]

@[simp] theorem leBytes_length (w k : Nat) : (leBytes w k).length = k := by
  induction k generalizing w <;> simp [leBytes, *]

theorem loadLE_of_bytesAt {w k : Nat} (h : BytesAt m p (leBytes w k)) :
    loadLE m p k = w % Nat.pow 256 k := by
  induction k generalizing p w with
  | zero => simp [loadLE, Nat.mod_one]
  | succ k ih =>
    obtain ⟨hb, hbs⟩ := h
    have hlow : (m p).toNat = w % 256 := by rw [hb]; rfl
    rw [loadLE, hlow, ih hbs, show Nat.pow 256 (k + 1) = 256 * Nat.pow 256 k from Nat.pow_succ',
      Nat.mod_mul]

theorem loadWord_of_bytesAt {w : Nat} (h : BytesAt m p (leBytes w ptrSize)) :
    loadWord m p = w % addressSpace :=
  loadLE_of_bytesAt h

end Bytes

/-! ## GoString -/

/-- The loop of `GoString`: the bytes from `s` up to the first NUL, `none` when none came
within `fuel` bytes. -/
def goStringLoop (m : Memory) (s : Nat) : Nat → Option (List UInt8)
  | 0 => none
  | fuel + 1 =>
    if m s = 0 then some [] else (goStringLoop m ((s + 1) % addressSpace) fuel).map (m s :: ·)

/-- `GoString(s)`, reading at most `fuel` bytes. -/
def goString (m : Memory) (s fuel : Nat) : Option (List UInt8) :=
  if s = 0 then some [] else goStringLoop m s fuel

theorem goStringLoop_of_bytesAt {m : Memory} {s : List UInt8} (hs : (0 : UInt8) ∉ s) :
    ∀ {p fuel : Nat}, BytesAt m p (s ++ [0]) → p + s.length < addressSpace → s.length < fuel →
      goStringLoop m p fuel = some s := by
  induction s with
  | nil =>
    intro p fuel h _ hfuel
    obtain ⟨fuel, rfl⟩ : ∃ f, fuel = f + 1 := ⟨fuel - 1, by simp at hfuel; omega⟩
    simp [goStringLoop, h.1]
  | cons b s ih =>
    intro p fuel h hroom hfuel
    obtain ⟨fuel, rfl⟩ : ∃ f, fuel = f + 1 := ⟨fuel - 1, by simp at hfuel; omega⟩
    obtain ⟨hb, hrest⟩ := h
    have hb0 : m p ≠ 0 := hb ▸ fun h => hs (h ▸ List.mem_cons_self _ _)
    have hnext : (p + 1) % addressSpace = p + 1 := Nat.mod_eq_of_lt (by simp at hroom; omega)
    simp only [List.length_cons] at hroom hfuel
    rw [goStringLoop, if_neg hb0, hnext,
      ih (fun h => hs (List.mem_cons_of_mem _ h)) hrest (by omega) (by omega), hb]
    rfl

theorem goString_of_bytesAt {m : Memory} {s : List UInt8} {p fuel : Nat} (hs : (0 : UInt8) ∉ s)
    (h : BytesAt m p (s ++ [0])) (hp : p ≠ 0) (hroom : p + s.length < addressSpace)
    (hfuel : s.length < fuel) : goString m p fuel = some s := by
  rw [goString, if_neg hp, goStringLoop_of_bytesAt hs h hroom hfuel]

/-! ## mustMalloc, mustCalloc and mustCString -/

/-- `mustMalloc(sz)` when `Xmalloc` answers `r`: `r`, or the OOM panic. -/
def mustMalloc (sz r : Nat) : Option Nat :=
  if r ≠ 0 ∨ sz = 0 then some r else none

/-- `mustCalloc(sz)` when `Xcalloc` answers `r`: the same check on the answer, and the
memory with the block zeroed. -/
def mustCalloc (m : Memory) (sz r : Nat) : Option Memory :=
  (mustMalloc sz r).map fun r => writeBytes m r (List.replicate sz 0)

/-- `mustCString(s)` when `Xmalloc` answers `r`: the copy of `s` at `r` and the NUL after it. -/
def mustCString (m : Memory) (s : List UInt8) (r : Nat) : Option (Nat × Memory) :=
  (mustMalloc (s.length + 1) r).map fun r =>
    (r, writeBytes (writeBytes m r s) ((r + s.length) % addressSpace) [0])

theorem MallocSpec.ne_zero {held : List (Nat × Nat)} {n r u : Nat} (h : MallocSpec held n r u)
    (hn : n ≠ 0) : r ≠ 0 :=
  fun hr => hn (Nat.eq_zero_of_le_zero (h.2.1 hr ▸ h.1))

theorem mustMalloc_of_mallocSpec {held : List (Nat × Nat)} {n r u : Nat}
    (h : MallocSpec held n r u) : mustMalloc n r = some r := by
  by_cases hn : n = 0
  · simp [mustMalloc, hn]
  · simp [mustMalloc, h.ne_zero hn]

theorem mustCString_spec {m : Memory} {s : List UInt8} {r u : Nat} (hs : (0 : UInt8) ∉ s)
    (hr : MallocSpec [] (s.length + 1) r u) (hfit : r + u ≤ addressSpace) :
    ∃ m', mustCString m s r = some (r, m') ∧
      ∀ fuel, s.length < fuel → goString m' r fuel = some s := by
  have hend : (r + s.length) % addressSpace = r + s.length :=
    Nat.mod_eq_of_lt (by have := hr.1; omega)
  refine ⟨_, by rw [mustCString, mustMalloc_of_mallocSpec hr, Option.map_some', hend], ?_⟩
  intro fuel hfuel
  refine goString_of_bytesAt hs (bytesAt_append.2 ⟨?_, bytesAt_writeBytes _⟩)
    (hr.ne_zero (Nat.succ_ne_zero _)) (by have := hr.1; omega) hfuel
  exact (bytesAt_writeBytes s).congr fun x _ hx => writeBytes_of_not_mem (by simp; omega)

/-! ## mustAllocStrings -/

/-- `nBytes`, the bytes `mustAllocStrings` callocs for the strings of `a`: each with its NUL. -/
def stringsSize : List (List UInt8) → Nat
  | [] => 0
  | v :: a => v.length + 1 + stringsSize a

@[simp] theorem stringsSize_nil : stringsSize [] = 0 := rfl

@[simp] theorem stringsSize_cons (v : List UInt8) (a : List (List UInt8)) :
    stringsSize (v :: a) = v.length + 1 + stringsSize a := rfl

/-- The copying loop of `mustAllocStrings` from the string `i` on: `b` is the slice
`[bStart, bStart + bLen)` still to fill and `pBytes` the address stored for the next
string; `none` is the panic of slicing `b` past its end. -/
def allocStringsLoop (pPtrs : Nat) :
    Memory → Nat → Nat → Nat → Nat → List (List UInt8) → Option Memory
  | m, _, _, _, _, [] => some m
  | m, i, bStart, bLen, pBytes, v :: vs =>
    let m := writeBytes m bStart (v.take bLen)
    if v.length + 1 ≤ bLen then
      allocStringsLoop pPtrs (storeWord m (pPtrs + i * ptrSize) pBytes) (i + 1)
        (bStart + (v.length + 1)) (bLen - (v.length + 1))
        ((pBytes + (v.length + 1)) % addressSpace) vs
    else none

/-- `mustAllocStrings(a)` when `Xcalloc` answers `pPtrs` for the pointer array and `pBytes`
for the bytes: the array, and the memory after the call. -/
def mustAllocStrings (m : Memory) (a : List (List UInt8)) (pPtrs pBytes : Nat) :
    Option (Nat × Memory) := do
  let m ← mustCalloc m ((a.length + 1) * ptrSize) pPtrs
  let m ← mustCalloc m (stringsSize a) pBytes
  let m ← allocStringsLoop pPtrs m 0 pBytes (stringsSize a) pBytes a
  pure (pPtrs, m)

theorem copyString_spec (m : Memory) (start q w : Nat) (v : List UInt8)
    (hsep : q + ptrSize ≤ start ∨ start + (v.length + 1) ≤ q) (hnul : m (start + v.length) = 0) :
    BytesAt (storeWord (writeBytes m start v) q w) q (leBytes w ptrSize) ∧
      BytesAt (storeWord (writeBytes m start v) q w) start (v ++ [0]) ∧
      ∀ x, ¬ (start ≤ x ∧ x < start + v.length) → ¬ (q ≤ x ∧ x < q + ptrSize) →
        storeWord (writeBytes m start v) q w x = m x := by
  have hframe : ∀ x, ¬ (start ≤ x ∧ x < start + v.length) → ¬ (q ≤ x ∧ x < q + ptrSize) →
      storeWord (writeBytes m start v) q w x = m x := fun x h₁ h₂ =>
    (writeBytes_of_not_mem (by simpa using h₂)).trans (writeBytes_of_not_mem h₁)
  refine ⟨bytesAt_writeBytes _, bytesAt_append.2 ⟨?_, ?_⟩, hframe⟩
  · exact (bytesAt_writeBytes v).congr fun x _ _ => writeBytes_of_not_mem (by simp; omega)
  · exact ⟨(hframe _ (by omega) (by omega)).trans hnul, trivial⟩

theorem allocStringsLoop_spec {pPtrs : Nat} :
    ∀ (vs : List (List UInt8)) (m : Memory) (i start pB : Nat), (∀ v ∈ vs, (0 : UInt8) ∉ v) →
      (start = 0 → stringsSize vs = 0) → start + stringsSize vs ≤ addressSpace →
      pB % addressSpace = start % addressSpace →
      (∀ x, start ≤ x → x < start + stringsSize vs → m x = 0) →
      Separate (pPtrs + i * ptrSize, vs.length * ptrSize) (start, stringsSize vs) →
      ∃ m', allocStringsLoop pPtrs m i start (stringsSize vs) pB vs = some m' ∧
        (∀ (j : Nat) v, vs[j]? = some v →
          loadWord m' (pPtrs + (i + j) * ptrSize) = start + stringsSize (vs.take j) ∧
          ∀ fuel, v.length < fuel →
            goString m' (start + stringsSize (vs.take j)) fuel = some v) ∧
        ∀ x, ¬ (start ≤ x ∧ x < start + stringsSize vs) →
          ¬ (pPtrs + i * ptrSize ≤ x ∧ x < pPtrs + (i + vs.length) * ptrSize) → m' x = m x := by
  intro vs
  induction vs with
  | nil =>
    intro m i start pB _ _ _ _ _ _
    exact ⟨m, rfl, by simp, fun _ _ _ => rfl⟩
  | cons v vs ih =>
    intro m i start pB hnul hstart hfit hpB hzero hsep
    simp only [stringsSize_cons, List.length_cons, Separate, ptrSize] at hstart hfit hzero hsep
    simp only [stringsSize_cons, List.length_cons]
    have hpos : start ≠ 0 := fun h => by simpa using hstart h
    have hpB' : pB % addressSpace = start := by rw [hpB, Nat.mod_eq_of_lt (by omega)]
    -- the copy of `v` and the store of its address change only their own bytes
    let m₂ := storeWord (writeBytes m start v) (pPtrs + i * ptrSize) pB
    obtain ⟨hslot, hstr, hm₂⟩ := copyString_spec m start (pPtrs + i * ptrSize) pB v
      (by simp only [ptrSize]; omega) (hzero _ (by omega) (by omega))
    simp only [ptrSize] at hm₂
    obtain ⟨m', hrun, hreads, hframe⟩ := ih m₂ (i + 1) (start + (v.length + 1))
      ((pB + (v.length + 1)) % addressSpace) (fun w hw => hnul w (List.mem_cons_of_mem _ hw))
      (by omega) (by omega) (by rw [Nat.mod_mod, Nat.add_mod, hpB, ← Nat.add_mod])
      (fun x h₁ h₂ => (hm₂ x (by omega) (by omega)).trans (hzero x (by omega) (by omega)))
      (by simp only [Separate, ptrSize]; omega)
    simp only [ptrSize] at hframe
    refine ⟨m', ?_, ?_, ?_⟩
    · rw [allocStringsLoop, List.take_of_length_le (by omega), if_pos (by omega),
        Nat.add_sub_cancel_left]
      exact hrun
    · rintro (_ | j) w hw
      · -- the string just copied: slot `i` and its bytes are outside what the rest writes
        obtain rfl : v = w := by simpa using hw
        refine ⟨?_, fun fuel hfuel => ?_⟩
        · have h := hslot.congr fun x h₁ h₂ => by
            simp only [leBytes_length, ptrSize] at h₁ h₂
            exact hframe x (by omega) (by omega)
          simpa [loadWord_of_bytesAt h] using hpB'
        · have h := hstr.congr fun x h₁ h₂ => by
            simp only [List.length_append, List.length_singleton] at h₂
            exact hframe x (by omega) (by omega)
          simpa using goString_of_bytesAt (hnul v (List.mem_cons_self _ _)) h hpos (by omega) hfuel
      · obtain ⟨hload, hread⟩ := hreads j w (by simpa using hw)
        have hij : i + (j + 1) = i + 1 + j := by omega
        simp only [hij, List.take_succ_cons, stringsSize_cons, ← Nat.add_assoc]
        exact ⟨hload, hread⟩
    · intro x h₁ h₂
      simp only [ptrSize] at h₂
      exact (hframe x (by omega) (by omega)).trans (hm₂ x (by omega) (by omega))

theorem mustAllocStrings_spec {m : Memory} {a : List (List UInt8)} {pPtrs u₁ pBytes u₂ : Nat}
    (hnul : ∀ v ∈ a, (0 : UInt8) ∉ v)
    (hptrs : MallocSpec [] ((a.length + 1) * ptrSize) pPtrs u₁)
    (hbytes : MallocSpec [(pPtrs, u₁)] (stringsSize a) pBytes u₂) (hfit : pBytes + u₂ ≤ addressSpace) :
    ∃ m', mustAllocStrings m a pPtrs pBytes = some (pPtrs, m') ∧
      (∀ (i : Nat) v, a[i]? = some v →
        loadWord m' (pPtrs + i * ptrSize) = pBytes + stringsSize (a.take i) ∧
        ∀ fuel, v.length < fuel → goString m' (pBytes + stringsSize (a.take i)) fuel = some v) ∧
      loadWord m' (pPtrs + a.length * ptrSize) = 0 := by
  have hsep : Separate (pBytes, u₂) (pPtrs, u₁) := hbytes.2.2 _ (List.mem_singleton_self _)
  have h₁ := hptrs.1
  have h₂ := hbytes.1
  simp only [Separate, ptrSize] at hsep h₁
  -- the two zeroed blocks
  let m₁ := writeBytes m pPtrs (List.replicate ((a.length + 1) * ptrSize) 0)
  let m₂ := writeBytes m₁ pBytes (List.replicate (stringsSize a) 0)
  have hzero : ∀ x, pBytes ≤ x → x < pBytes + stringsSize a → m₂ x = 0 :=
    fun x h₁ h₂ => writeBytes_replicate h₁ h₂
  obtain ⟨m', hrun, hreads, hframe⟩ := @allocStringsLoop_spec pPtrs a m₂ 0 pBytes pBytes hnul
    (fun h => Nat.eq_zero_of_le_zero (hbytes.2.1 h ▸ h₂)) (by omega) rfl hzero
    (by simp only [Separate, ptrSize]; omega)
  refine ⟨m', ?_, fun i v hv => by simpa using hreads i v hv, ?_⟩
  · simp only [mustAllocStrings, mustCalloc, mustMalloc_of_mallocSpec hptrs,
      mustMalloc_of_mallocSpec hbytes, Option.map_some', Option.bind_eq_bind, Option.some_bind, hrun]
    rfl
  · -- the last slot: zeroed by the first calloc, written by nothing after it
    have hlast : BytesAt m' (pPtrs + a.length * ptrSize) (leBytes 0 ptrSize) :=
      bytesAt_replicate (k := ptrSize) fun x hx₁ hx₂ => by
        simp only [ptrSize] at hx₁ hx₂ hframe
        rw [hframe x (by omega) (by omega)]
        exact (writeBytes_of_not_mem (by simp; omega)).trans
          (writeBytes_replicate (by omega) (by simp only [ptrSize]; omega))
    simpa using loadWord_of_bytesAt hlast

/-- The C strings `mustAllocStrings` and `mustCString` build read back through `GoString`. -/
theorem goString_round_trip :
    (∀ (m : Memory) (a : List (List UInt8)) (pPtrs u₁ pBytes u₂ : Nat),
      (∀ v ∈ a, (0 : UInt8) ∉ v) →
      MallocSpec [] ((a.length + 1) * ptrSize) pPtrs u₁ →
      MallocSpec [(pPtrs, u₁)] (stringsSize a) pBytes u₂ → pBytes + u₂ ≤ addressSpace →
      ∃ m', mustAllocStrings m a pPtrs pBytes = some (pPtrs, m') ∧
        (∀ (i : Nat) v, a[i]? = some v → ∀ fuel, v.length < fuel →
          goString m' (loadWord m' (pPtrs + i * ptrSize)) fuel = some v) ∧
        loadWord m' (pPtrs + a.length * ptrSize) = 0) ∧
    (∀ (m : Memory) (s : List UInt8) (r u : Nat), (0 : UInt8) ∉ s →
      MallocSpec [] (s.length + 1) r u → r + u ≤ addressSpace →
      ∃ m', mustCString m s r = some (r, m') ∧
        ∀ fuel, s.length < fuel → goString m' r fuel = some s) := by
  refine ⟨fun m a pPtrs u₁ pBytes u₂ hnul hptrs hbytes hfit => ?_,
    fun m s r u hs hr hfit => mustCString_spec hs hr hfit⟩
  obtain ⟨m', hrun, hreads, hlast⟩ := mustAllocStrings_spec (m := m) hnul hptrs hbytes hfit
  exact ⟨m', hrun, fun i v hv => (hreads i v hv).1 ▸ (hreads i v hv).2, hlast⟩

theorem goString_round_trip_hiEmpty :
    (∃ m', mustAllocStrings (fun _ => 0) [[104, 105], []] 4096 8192 = some (4096, m') ∧
      (∀ (i : Nat) v, ([[104, 105], []] : List (List UInt8))[i]? = some v →
        ∀ fuel, v.length < fuel → goString m' (loadWord m' (4096 + i * ptrSize)) fuel = some v) ∧
      loadWord m' (4096 + 2 * ptrSize) = 0) ∧
    (∃ m', mustCString (fun _ => 0) [104, 105] 12288 = some (12288, m') ∧
      ∀ fuel, 2 < fuel → goString m' 12288 fuel = some [104, 105]) :=
  ⟨goString_round_trip.1 _ _ 4096 24 8192 5 (by decide) (by decide) (by decide) (by decide),
    goString_round_trip.2 _ _ 12288 3 (by decide) (by decide) (by decide)⟩

end CortexTheseus.Libc
