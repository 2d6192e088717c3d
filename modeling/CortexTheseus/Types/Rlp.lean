import Mathlib.Data.List.Basic

/-!
# RLP encodings of receipts and file metadata

The generated `Receipt.EncodeRLP` and `FileMeta.EncodeRLP` (src/unnamed/part_002, part_003).
The `rlp` package is not under src/: its `EncoderBuffer` is modelled by the bytes it writes,
and the readers accept only the shortest forms the encoder writes.
-/

namespace CortexTheseus.Types

/-! ### The encoder buffer -/

/-- `putint` for a size of at most `k + 1` bytes. -/
def putintAux : Nat → Nat → List UInt8
  | 0, i => [UInt8.ofNat i]
  | k + 1, i => if i < 256 then [UInt8.ofNat i] else putintAux k (i / 256) ++ [UInt8.ofNat (i % 256)]

/-- `putint(b, i)`: the big-endian bytes of the `uint64` `i` without leading zeros, at
least one. -/
def putint (i : Nat) : List UInt8 := putintAux 7 i

/-- `puthead(buf, smalltag, largetag, size)`: `smalltag + size` below 56, else `largetag`
plus the number of bytes of `size`, then those bytes. -/
def puthead (smalltag largetag size : Nat) : List UInt8 :=
  if size < 56 then [UInt8.ofNat (smalltag + size)]
  else UInt8.ofNat (largetag + (putint size).length) :: putint size

/-- `len(b) == 1 && b[0] <= 0x7F`: a string that is its own encoding. -/
def isSmallByte (b : List UInt8) : Bool :=
  match b with
  | [c] => c.toNat ≤ 0x7F
  | _ => false

/-- `EncoderBuffer.WriteBytes`: any other string follows its header. -/
def writeBytes (b : List UInt8) : List UInt8 :=
  if isSmallByte b then b else puthead 0x80 0xB7 b.length ++ b

/-- `EncoderBuffer.WriteUint64`. -/
def writeUint64 (i : UInt64) : List UInt8 :=
  if i.toNat = 0 then [0x80]
  else if i.toNat < 128 then [UInt8.ofNat i.toNat]
  else UInt8.ofNat (0x80 + (putint i.toNat).length) :: putint i.toNat

/-- `EncoderBuffer.WriteString`: the string's bytes. -/
def writeString (s : List UInt8) : List UInt8 := writeBytes s

/-- `EncoderBuffer.List` ... `ListEnd`: the payload behind its list header. -/
def listOf (payload : List UInt8) : List UInt8 := puthead 0xC0 0xF7 payload.length ++ payload

/-- `common.Address`. -/
structure Address where
  bytes : List UInt8
  length_eq : bytes.length = 20
  deriving DecidableEq

/-- The fields of `types.Receipt` that `EncodeRLP` writes. -/
structure Receipt where
  contractAddr : Option Address
  gasUsed : UInt64
  status : UInt64
  deriving DecidableEq

/-- `Receipt.EncodeRLP` (src/unnamed/part_002:11-23). -/
def Receipt.encodeRLP (obj : Receipt) : List UInt8 :=
  listOf ((match obj.contractAddr with
    | none => [0x80]
    | some a => writeBytes a.bytes) ++ writeUint64 obj.gasUsed ++ writeUint64 obj.status)

/-- The fields of `types.FileMeta` that `EncodeRLP` writes; a Go string's length is an `int`. -/
structure FileMeta where
  infoHash : List UInt8
  rawSize : UInt64
  infoHash_lt : infoHash.length < Nat.pow 2 63
  deriving DecidableEq

/-- `FileMeta.EncodeRLP` (src/unnamed/part_003:11-18). -/
def FileMeta.encodeRLP (obj : FileMeta) : List UInt8 :=
  listOf (writeString obj.infoHash ++ writeUint64 obj.rawSize)

/-! ### Big-endian integers -/

/-- The number big-endian bytes spell. -/
def beValue (bs : List UInt8) : Nat := bs.foldl (fun acc b => 256 * acc + b.toNat) 0

@[simp] theorem beValue_nil : beValue [] = 0 := rfl

theorem beValue_snoc (bs : List UInt8) (b : UInt8) :
    beValue (bs ++ [b]) = 256 * beValue bs + b.toNat := by
  simp [beValue, List.foldl_append]

theorem beValue_singleton (b : UInt8) : beValue [b] = b.toNat := by
  simpa using beValue_snoc [] b

theorem toNat_ofNat_byte {i : Nat} (h : i < 256) : (UInt8.ofNat i).toNat = i :=
  UInt8.toNat_ofNat_of_lt h

theorem byte_lt (b : UInt8) : b.toNat < 256 := b.toBitVec.isLt

theorem ofNat_toNat_byte (b : UInt8) : UInt8.ofNat b.toNat = b :=
  UInt8.toNat.inj (toNat_ofNat_byte (byte_lt b))

theorem pow256_succ (n : Nat) : Nat.pow 256 (n + 1) = 256 * Nat.pow 256 n := Nat.mul_comm _ _

theorem putintAux_spec (k i : Nat) (h0 : 0 < i) (h : i < Nat.pow 256 (k + 1)) :
    beValue (putintAux k i) = i ∧ (putintAux k i).length ≤ k + 1 ∧
      ∃ b rest, putintAux k i = b :: rest ∧ b.toNat ≠ 0 := by
  induction k generalizing i with
  | zero =>
    have hi : i < 256 := by simpa using h
    refine ⟨by simp [putintAux, beValue_singleton, toNat_ofNat_byte hi], by simp [putintAux],
      _, [], rfl, ?_⟩
    rw [toNat_ofNat_byte hi]
    omega
  | succ k ih =>
    rw [putintAux]
    split_ifs with hi
    · exact ⟨by simp [beValue_singleton, toNat_ofNat_byte hi], by simp, _, [], rfl,
        by rw [toNat_ofNat_byte hi]; omega⟩
    · have hq : i / 256 < Nat.pow 256 (k + 1) := by
        rw [Nat.div_lt_iff_lt_mul (by decide)]
        exact h
      obtain ⟨hv, hl, b, rest, he, hb⟩ := ih (i / 256) (by omega) hq
      refine ⟨?_, by simp; omega, b, rest ++ [UInt8.ofNat (i % 256)], by simp [he], hb⟩
      rw [beValue_snoc, hv, toNat_ofNat_byte (Nat.mod_lt _ (by decide))]
      omega

theorem putint_spec {i : Nat} (h0 : 0 < i) (h : i < Nat.pow 256 8) :
    beValue (putint i) = i ∧ (putint i).length ≤ 8 ∧
      ∃ b rest, putint i = b :: rest ∧ b.toNat ≠ 0 :=
  putintAux_spec 7 i h0 h

theorem beValue_lt (bs : List UInt8) : beValue bs < Nat.pow 256 bs.length := by
  induction bs using List.reverseRecOn with
  | nil => simp
  | append_singleton bs b ih =>
    rw [beValue_snoc, List.length_append, List.length_singleton, pow256_succ]
    have := byte_lt b
    omega

theorem beValue_pos {b : UInt8} {rest : List UInt8} (hb : b.toNat ≠ 0) :
    0 < beValue (b :: rest) := by
  induction rest using List.reverseRecOn with
  | nil => rw [beValue_singleton]; omega
  | append_singleton rest c ih =>
    rw [← List.cons_append, beValue_snoc]
    omega

theorem putintAux_beValue (k : Nat) :
    ∀ (b : UInt8) (rest : List UInt8), b.toNat ≠ 0 → rest.length ≤ k →
      putintAux k (beValue (b :: rest)) = b :: rest := by
  induction k with
  | zero =>
    intro b rest hb hl
    rw [List.length_eq_zero.mp (Nat.le_zero.mp hl), beValue_singleton, putintAux,
      ofNat_toNat_byte]
  | succ k ih =>
    intro b rest hb hl
    induction rest using List.reverseRecOn with
    | nil =>
      rw [beValue_singleton, putintAux, if_pos (byte_lt b), ofNat_toNat_byte]
    | append_singleton rest c _ =>
      have hv := @beValue_pos b rest hb
      have hc := byte_lt c
      rw [← List.cons_append, beValue_snoc, putintAux, if_neg (by omega),
        show (256 * beValue (b :: rest) + c.toNat) / 256 = beValue (b :: rest) by omega,
        show (256 * beValue (b :: rest) + c.toNat) % 256 = c.toNat by omega,
        ih b rest hb (by simp at hl; omega), ofNat_toNat_byte]

theorem putint_beValue {b : UInt8} {rest : List UInt8} (hb : b.toNat ≠ 0) (hl : rest.length ≤ 7) :
    putint (beValue (b :: rest)) = b :: rest :=
  putintAux_beValue 7 b rest hb hl

/-! ### Reading the format back -/

def takeExact (n : Nat) (bs : List UInt8) : Option (List UInt8 × List UInt8) :=
  if n ≤ bs.length then some (bs.take n, bs.drop n) else none

/-- A header with the tags `smalltag` and `smalltag + 55`: the size it announces and the
bytes after it. A long header must be needed (a size of at least 56), and the size's bytes
must not start with zero. -/
def readHead (smalltag : Nat) : List UInt8 → Option (Nat × List UInt8)
  | [] => none
  | b :: rest =>
    if smalltag ≤ b.toNat ∧ b.toNat < smalltag + 56 then some (b.toNat - smalltag, rest)
    else if smalltag + 56 ≤ b.toNat ∧ b.toNat < smalltag + 64 then
      (takeExact (b.toNat - (smalltag + 55)) rest).bind fun (sz, rest) =>
        if sz.head? = some 0 ∨ beValue sz < 56 then none else some (beValue sz, rest)
    else none

/-- A string item: a byte below `0x80` alone, or a header and its bytes (which must not
be such a byte). -/
def readString : List UInt8 → Option (List UInt8 × List UInt8)
  | [] => none
  | b :: rest =>
    if b.toNat < 0x80 then some ([b], rest)
    else (readHead 0x80 (b :: rest)).bind fun (n, rest) =>
      (takeExact n rest).bind fun (p, rest) => if isSmallByte p then none else some (p, rest)

/-- A list item: its payload and the bytes after it. -/
def readList (bs : List UInt8) : Option (List UInt8 × List UInt8) :=
  (readHead 0xC0 bs).bind fun (n, rest) => takeExact n rest

/-- A `uint64`: a string of at most eight bytes with no leading zero. -/
def readUint (bs : List UInt8) : Option (UInt64 × List UInt8) :=
  (readString bs).bind fun (p, rest) =>
    if p.head? = some 0 ∨ 8 < p.length then none else some (UInt64.ofNat (beValue p), rest)

theorem takeExact_eq_some {n : Nat} {bs p rest : List UInt8} :
    takeExact n bs = some (p, rest) ↔ bs = p ++ rest ∧ p.length = n := by
  unfold takeExact
  split_ifs with h
  · simp only [Option.some.injEq, Prod.mk.injEq]
    constructor
    · rintro ⟨rfl, rfl⟩
      exact ⟨(List.take_append_drop n bs).symm, List.length_take_of_le h⟩
    · rintro ⟨rfl, rfl⟩
      simp
  · simp only [reduceCtorEq, false_iff, not_and]
    rintro rfl rfl
    simp at h

theorem puthead_cons {smalltag n : Nat} (hs : smalltag + 64 ≤ 256) (hn : n < Nat.pow 256 8) :
    ∃ b tl, puthead smalltag (smalltag + 55) n = b :: tl ∧ smalltag ≤ b.toNat ∧
      b.toNat < smalltag + 64 := by
  unfold puthead
  split_ifs with h56
  · exact ⟨_, [], rfl, by rw [toNat_ofNat_byte (by omega)]; omega,
      by rw [toNat_ofNat_byte (by omega)]; omega⟩
  · obtain ⟨-, hl, -⟩ := putint_spec (by omega) hn
    exact ⟨_, _, rfl, by rw [toNat_ofNat_byte (by omega)]; omega,
      by rw [toNat_ofNat_byte (by omega)]; omega⟩

theorem readHead_iff {smalltag n : Nat} {bs rest : List UInt8} (hs : smalltag + 64 ≤ 256) :
    readHead smalltag bs = some (n, rest) ↔
      bs = puthead smalltag (smalltag + 55) n ++ rest ∧ n < Nat.pow 256 8 := by
  constructor
  · intro h
    cases bs with
    | nil => cases h
    | cons b r =>
      simp only [readHead] at h
      split at h
      next h1 =>
        -- a short header
        cases h
        refine ⟨?_, lt_of_lt_of_le (by omega : b.toNat - smalltag < 56) (by decide)⟩
        rw [puthead, if_pos (by omega), Nat.add_sub_cancel' h1.1, ofNat_toNat_byte]
        rfl
      next h1 =>
        -- a long header: its size bytes are what putint writes
        obtain ⟨h2, h⟩ := Option.ite_none_right_eq_some.mp h
        obtain ⟨⟨sz, r'⟩, hsz, hif⟩ := Option.bind_eq_some.mp h
        obtain ⟨rfl, hlen⟩ := takeExact_eq_some.mp hsz
        dsimp only at hif
        obtain ⟨hc, ⟨⟩⟩ := Option.ite_none_left_eq_some.mp hif
        obtain ⟨c, cs, rfl⟩ : ∃ c cs, sz = c :: cs := List.exists_cons_of_ne_nil (by
          rintro rfl; simp at hlen; omega)
        have hc0 : c.toNat ≠ 0 := fun e =>
          hc (.inl (by rw [List.head?_cons, UInt8.toNat.inj (show c.toNat = (0 : UInt8).toNat from e)]))
        have hput := @putint_beValue c cs hc0 (by simp at hlen; omega)
        refine ⟨?_, lt_of_lt_of_le (beValue_lt _) (Nat.pow_le_pow_right (by decide) (by omega))⟩
        rw [puthead, if_neg (by omega), hput, hlen,
          show smalltag + 55 + (b.toNat - (smalltag + 55)) = b.toNat by omega, ofNat_toNat_byte]
        rfl
  · rintro ⟨rfl, hn⟩
    unfold puthead
    split_ifs with h56
    · rw [List.singleton_append, readHead, toNat_ofNat_byte (by omega), if_pos (by omega),
        Nat.add_sub_cancel_left]
    · obtain ⟨hv, hl, c, cs, hput, hc⟩ := putint_spec (by omega) hn
      have hb : (UInt8.ofNat (smalltag + 55 + (putint n).length)).toNat =
          smalltag + 55 + (putint n).length := toNat_ofNat_byte (by omega)
      have hl1 : 1 ≤ (putint n).length := by simp [hput]
      rw [List.cons_append, readHead, hb, if_neg (by omega), if_pos (by omega),
        show smalltag + 55 + (putint n).length - (smalltag + 55) = (putint n).length by omega,
        takeExact_eq_some.mpr ⟨rfl, rfl⟩, Option.some_bind]
      dsimp only
      rw [hv, if_neg]
      rintro (h | h)
      · rw [hput, List.head?_cons, Option.some.injEq] at h
        exact hc (by rw [h]; rfl)
      · omega

theorem isSmallByte_iff {p : List UInt8} : isSmallByte p = true ↔ ∃ c, p = [c] ∧ c.toNat < 0x80 := by
  unfold isSmallByte
  split
  · simp only [decide_eq_true_eq, List.cons.injEq, and_true, exists_eq_left']
    omega
  · next hne => simp only [Bool.false_eq_true, false_iff, not_exists, not_and]
                rintro c rfl
                exact absurd rfl (hne c)

theorem readString_iff {p bs rest : List UInt8} :
    readString bs = some (p, rest) ↔ bs = writeBytes p ++ rest ∧ p.length < Nat.pow 256 8 := by
  constructor
  · intro h
    cases bs with
    | nil => cases h
    | cons b r =>
      simp only [readString] at h
      split at h
      next hb =>
        -- a byte that is its own encoding
        cases h
        refine ⟨?_, by simp⟩
        rw [writeBytes, if_pos (isSmallByte_iff.mpr ⟨b, rfl, hb⟩)]
        rfl
      next =>
        obtain ⟨⟨n, r1⟩, hh, h⟩ := Option.bind_eq_some.mp h
        obtain ⟨⟨q, r2⟩, ht, hif⟩ := Option.bind_eq_some.mp h
        obtain ⟨hs, ⟨⟩⟩ := Option.ite_none_left_eq_some.mp hif
        obtain ⟨he, hn⟩ := (readHead_iff (by decide)).mp hh
        obtain ⟨rfl, rfl⟩ := takeExact_eq_some.mp ht
        refine ⟨?_, hn⟩
        rw [he, writeBytes, if_neg hs, List.append_assoc]
  · rintro ⟨rfl, hn⟩
    unfold writeBytes
    split_ifs with hs
    · obtain ⟨c, rfl, hc⟩ := isSmallByte_iff.mp hs
      simp [readString, hc]
    · obtain ⟨b, tl, hpt, hb, -⟩ := @puthead_cons 0x80 p.length (by decide) hn
      have hh : readHead 0x80 (puthead 0x80 0xB7 p.length ++ (p ++ rest)) = some (p.length, p ++ rest) :=
        (readHead_iff (by decide)).mpr ⟨rfl, hn⟩
      rw [List.append_assoc, hpt, List.cons_append, readString, if_neg (by omega),
        ← List.cons_append, ← hpt, hh, Option.some_bind]
      simp [takeExact_eq_some.mpr ⟨rfl, rfl⟩, hs]

theorem readList_iff {p bs rest : List UInt8} :
    readList bs = some (p, rest) ↔ bs = listOf p ++ rest ∧ p.length < Nat.pow 256 8 := by
  constructor
  · intro h
    obtain ⟨⟨n, r1⟩, hh, ht⟩ := Option.bind_eq_some.mp h
    obtain ⟨he, hn⟩ := (readHead_iff (by decide)).mp hh
    obtain ⟨rfl, rfl⟩ := takeExact_eq_some.mp ht
    exact ⟨by rw [he, listOf, List.append_assoc], hn⟩
  · rintro ⟨rfl, hn⟩
    rw [readList, listOf, List.append_assoc,
      (readHead_iff (by decide)).mpr ⟨rfl, hn⟩, Option.some_bind]
    exact takeExact_eq_some.mpr ⟨rfl, rfl⟩

/-- The string `WriteUint64` writes for `i`: empty for zero, else what `putint` writes. -/
def uintBytes (i : Nat) : List UInt8 := if i = 0 then [] else putint i

theorem uint64_lt (i : UInt64) : i.toNat < Nat.pow 256 8 := i.toBitVec.isLt

theorem writeUint64_eq (i : UInt64) : writeUint64 i = writeBytes (uintBytes i.toNat) := by
  unfold writeUint64 uintBytes
  split_ifs with h0 h1
  · rfl
  · have hp : putint i.toNat = [UInt8.ofNat i.toNat] := by
      simp only [putint, putintAux, if_pos (show i.toNat < 256 by omega)]
    rw [hp, writeBytes, if_pos (isSmallByte_iff.mpr ⟨_, rfl, by rw [toNat_ofNat_byte (by omega)]; omega⟩)]
  · obtain ⟨hv, hl, c, cs, hput, -⟩ := putint_spec (by omega) (uint64_lt i)
    have hs : isSmallByte (putint i.toNat) = false := by
      rw [Bool.eq_false_iff]
      intro h
      obtain ⟨d, hd, hd'⟩ := isSmallByte_iff.mp h
      rw [hd, beValue_singleton] at hv
      omega
    rw [writeBytes, hs, if_neg Bool.false_ne_true, puthead, if_pos (by omega)]
    rfl

theorem uintBytes_spec (i : Nat) (h : i < Nat.pow 256 8) :
    beValue (uintBytes i) = i ∧ (uintBytes i).length ≤ 8 ∧ (uintBytes i).head? ≠ some 0 := by
  unfold uintBytes
  split_ifs with h0
  · exact ⟨h0.symm, by simp, by simp⟩
  · obtain ⟨hv, hl, c, cs, hput, hc⟩ := putint_spec (by omega) h
    refine ⟨hv, hl, ?_⟩
    rw [hput, List.head?_cons, Ne, Option.some.injEq]
    rintro rfl
    exact hc rfl

theorem readUint_iff {i : UInt64} {bs rest : List UInt8} :
    readUint bs = some (i, rest) ↔ bs = writeUint64 i ++ rest := by
  rw [writeUint64_eq]
  constructor
  · intro h
    obtain ⟨⟨p, r⟩, hs, hif⟩ := Option.bind_eq_some.mp h
    obtain ⟨hc, ⟨⟩⟩ := Option.ite_none_left_eq_some.mp hif
    obtain ⟨rfl, -⟩ := readString_iff.mp hs
    have hl : p.length ≤ 8 := by omega
    have hi : (UInt64.ofNat (beValue p)).toNat = beValue p :=
      UInt64.toNat_ofNat_of_lt (lt_of_lt_of_le (beValue_lt p) (Nat.pow_le_pow_right (by decide) hl))
    rw [hi]
    congr 1
    cases p with
    | nil => rfl
    | cons c cs =>
      have hc0 : c.toNat ≠ 0 := fun e =>
        hc (.inl (by rw [List.head?_cons, UInt8.toNat.inj (show c.toNat = (0 : UInt8).toNat from e)]))
      rw [uintBytes, if_neg (beValue_pos hc0).ne', putint_beValue hc0 (by simp at hl; omega)]
  · rintro rfl
    obtain ⟨hv, hl, h0⟩ := uintBytes_spec i.toNat (uint64_lt i)
    rw [readUint, readString_iff.mpr ⟨rfl, lt_of_le_of_lt hl (by decide)⟩, Option.some_bind]
    dsimp only
    rw [if_neg (by rintro (h | h); exacts [h0 h, by omega]), hv]
    exact congrArg (fun j => some (j, rest)) (UInt64.toNat.inj (UInt64.toNat_ofNat_of_lt i.toBitVec.isLt))

theorem putintAux_length_le (k i : Nat) : (putintAux k i).length ≤ k + 1 := by
  induction k generalizing i with
  | zero => simp [putintAux]
  | succ k ih =>
    rw [putintAux]
    split_ifs
    · simp
    · simp only [List.length_append, List.length_singleton]
      have := ih (i / 256)
      omega

theorem puthead_length_le (smalltag largetag n : Nat) : (puthead smalltag largetag n).length ≤ 9 := by
  have := putintAux_length_le 7 n
  unfold puthead putint
  split_ifs <;> simp only [List.length_cons, List.length_nil] <;> omega

theorem writeBytes_length_le (p : List UInt8) : (writeBytes p).length ≤ p.length + 9 := by
  unfold writeBytes
  split_ifs
  · omega
  · simp only [List.length_append]
    have := puthead_length_le 0x80 0xB7 p.length
    omega

theorem writeUint64_length_le (i : UInt64) : (writeUint64 i).length ≤ 9 := by
  have := putintAux_length_le 7 i.toNat
  unfold writeUint64 putint
  split_ifs <;> simp only [List.length_cons, List.length_nil] <;> omega

/-! ### Receipts and file metadata -/

/-- The string `EncodeRLP` writes for a `*common.Address`: empty for nil (the raw `0x80` is
the empty string's encoding), otherwise its 20 bytes. -/
def addrBytes : Option Address → List UInt8
  | none => []
  | some a => a.bytes

/-- A `*common.Address` item: the empty string is nil, otherwise exactly 20 bytes. -/
def readAddr (a : List UInt8) : Option (Option Address) :=
  if a = [] then some none else if h : a.length = 20 then some (some ⟨a, h⟩) else none

/-- A receipt: a list of an address, two `uint64`s and nothing after it. -/
def readReceipt (bs : List UInt8) : Option Receipt :=
  (readList bs).bind fun (payload, rest) =>
    if rest = [] then
      (readString payload).bind fun (a, p1) =>
      (readAddr a).bind fun addr =>
      (readUint p1).bind fun (gasUsed, p2) =>
      (readUint p2).bind fun (status, p3) =>
        if p3 = [] then some ⟨addr, gasUsed, status⟩ else none
    else none

/-- File metadata: a list of a string and a `uint64`, and nothing after it. -/
def readFileMeta (bs : List UInt8) : Option FileMeta :=
  (readList bs).bind fun (payload, rest) =>
    if rest = [] then
      (readString payload).bind fun (s, p1) =>
        if h : s.length < Nat.pow 2 63 then
          (readUint p1).bind fun (rawSize, p2) =>
            if p2 = [] then some ⟨s, rawSize, h⟩ else none
        else none
    else none

theorem readAddr_iff {a : List UInt8} {o : Option Address} : readAddr a = some o ↔ a = addrBytes o := by
  constructor
  · unfold readAddr
    split_ifs with h0 h20
    · rintro ⟨⟩
      exact h0
    · rintro ⟨⟩
      rfl
    · rintro ⟨⟩
  · rintro rfl
    cases o with
    | none => rfl
    | some ad =>
      have hne : ad.bytes ≠ [] := fun h => by simpa [h] using ad.length_eq
      simp only [readAddr, addrBytes, if_neg hne, dif_pos ad.length_eq]

theorem encodeRLP_addr (o : Option Address) :
    (match o with
      | none => [0x80]
      | some a => writeBytes a.bytes) = writeBytes (addrBytes o) := by
  cases o <;> rfl

theorem addrBytes_length_le (o : Option Address) : (addrBytes o).length ≤ 20 := by
  cases o with
  | none => simp [addrBytes]
  | some a => simp [addrBytes, a.length_eq]

/-- `Receipt.EncodeRLP` writes a canonical RLP list, and the receipt is recovered from it:
the reader accepts exactly the bytes `EncodeRLP` writes, each for the receipt it was
written from. So no two receipts share an encoding, and no other bytes decode to a
receipt. -/
theorem readReceipt_eq_some_iff (r : Receipt) (bs : List UInt8) :
    readReceipt bs = some r ↔ bs = r.encodeRLP := by
  rw [Receipt.encodeRLP, encodeRLP_addr]
  constructor
  · intro h
    obtain ⟨⟨payload, rest⟩, hl, h⟩ := Option.bind_eq_some.mp h
    obtain ⟨rfl, h⟩ := Option.ite_none_right_eq_some.mp h
    obtain ⟨⟨a, p1⟩, hs, h⟩ := Option.bind_eq_some.mp h
    obtain ⟨addr, ha, h⟩ := Option.bind_eq_some.mp h
    obtain ⟨⟨g, p2⟩, hg, h⟩ := Option.bind_eq_some.mp h
    obtain ⟨⟨st, p3⟩, hst, h⟩ := Option.bind_eq_some.mp h
    obtain ⟨rfl, ⟨⟩⟩ := Option.ite_none_right_eq_some.mp h
    obtain ⟨rfl, -⟩ := readList_iff.mp hl
    obtain ⟨rfl, -⟩ := readString_iff.mp hs
    rw [readAddr_iff.mp ha, readUint_iff.mp hg, readUint_iff.mp hst]
    simp only [List.append_nil, List.append_assoc]
  · rintro rfl
    have hlen : (writeBytes (addrBytes r.contractAddr) ++ writeUint64 r.gasUsed ++
        writeUint64 r.status).length < Nat.pow 256 8 := by
      have := writeBytes_length_le (addrBytes r.contractAddr)
      have := addrBytes_length_le r.contractAddr
      have := writeUint64_length_le r.gasUsed
      have := writeUint64_length_le r.status
      simp only [List.length_append]
      exact lt_of_le_of_lt (by omega : _ ≤ 47) (by decide)
    have h1 := readList_iff.mpr ⟨(List.append_nil _).symm, hlen⟩
    have h2 : readString (writeBytes (addrBytes r.contractAddr) ++ writeUint64 r.gasUsed ++
        writeUint64 r.status) = some (addrBytes r.contractAddr,
          writeUint64 r.gasUsed ++ writeUint64 r.status) :=
      readString_iff.mpr ⟨List.append_assoc _ _ _,
        lt_of_le_of_lt (addrBytes_length_le _) (by decide)⟩
    have h3 := readUint_iff.mpr (rfl : writeUint64 r.gasUsed ++ writeUint64 r.status = _)
    have h4 := readUint_iff.mpr (List.append_nil (writeUint64 r.status)).symm
    simp only [readReceipt, h1, Option.some_bind, if_pos, h2, readAddr_iff.mpr rfl, h3, h4]

example : (⟨none, 0, 1⟩ : Receipt).encodeRLP = [0xC3, 0x80, 0x80, 0x01] := by decide

/-- `FileMeta.EncodeRLP` writes a canonical RLP list, and the metadata is recovered from
it: the reader accepts exactly the bytes `EncodeRLP` writes, each for the metadata it was
written from. -/
theorem readFileMeta_eq_some_iff (f : FileMeta) (bs : List UInt8) :
    readFileMeta bs = some f ↔ bs = f.encodeRLP := by
  rw [FileMeta.encodeRLP, writeString]
  have h63 : Nat.pow 2 63 = 9223372036854775808 := rfl
  have h64 : Nat.pow 256 8 = 18446744073709551616 := rfl
  constructor
  · intro h
    obtain ⟨⟨payload, rest⟩, hl, h⟩ := Option.bind_eq_some.mp h
    obtain ⟨rfl, h⟩ := Option.ite_none_right_eq_some.mp h
    obtain ⟨⟨s, p1⟩, hs, h⟩ := Option.bind_eq_some.mp h
    obtain ⟨hlt, h⟩ := Option.dite_none_right_eq_some.mp h
    obtain ⟨⟨n, p2⟩, hn, h⟩ := Option.bind_eq_some.mp h
    obtain ⟨rfl, ⟨⟩⟩ := Option.ite_none_right_eq_some.mp h
    obtain ⟨rfl, -⟩ := readList_iff.mp hl
    obtain ⟨rfl, -⟩ := readString_iff.mp hs
    rw [readUint_iff.mp hn]
    simp only [List.append_nil]
  · rintro rfl
    have hs := f.infoHash_lt
    have hw := writeBytes_length_le f.infoHash
    have hu := writeUint64_length_le f.rawSize
    have hlen : (writeBytes f.infoHash ++ writeUint64 f.rawSize).length < Nat.pow 256 8 := by
      simp only [List.length_append]
      omega
    have h1 := readList_iff.mpr ⟨(List.append_nil _).symm, hlen⟩
    have h2 : readString (writeBytes f.infoHash ++ writeUint64 f.rawSize) =
        some (f.infoHash, writeUint64 f.rawSize) := readString_iff.mpr ⟨rfl, by omega⟩
    have h3 := readUint_iff.mpr (List.append_nil (writeUint64 f.rawSize)).symm
    simp only [readFileMeta, h1, Option.some_bind, if_pos, h2, dif_pos hs, h3]

end CortexTheseus.Types
