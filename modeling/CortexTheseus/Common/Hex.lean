import Mathlib.Data.List.Basic

/-!
# Hex strings

`common.IsHexAddress` and the `%x` rendering of node ids, which are not under src/, on
Lean strings (hex text is ASCII, so bytes and characters agree on it).
-/

namespace CortexTheseus.Common

/-- `isHexCharacter` of `common/bytes.go`. -/
def isHexCharacter (c : Char) : Bool :=
  ('0' ≤ c && c ≤ '9') || ('a' ≤ c && c ≤ 'f') || ('A' ≤ c && c ≤ 'F')

/-- `isHex`: an even number of hex characters. -/
def isHex (s : List Char) : Bool :=
  s.length % 2 == 0 && s.all isHexCharacter

/-- `has0xPrefix`: the string starts with `0x` or `0X`. -/
def has0xPrefix : List Char → Bool
  | '0' :: 'x' :: _ => true
  | '0' :: 'X' :: _ => true
  | _ => false

/-- `common.AddressLength`: an address has 20 bytes. -/
def addressLength : Nat := 20

/-- Modelled from the spec: `common.IsHexAddress` is not under src/; the spec calls
it the check that a hash has the fixed-width hex address shape. As in `common`:
an optional `0x`/`0X` prefix, then exactly `2 * AddressLength` hex characters. -/
def isHexAddress (s : String) : Bool :=
  let cs := if has0xPrefix s.data then s.data.drop 2 else s.data
  cs.length == 2 * addressLength && isHex cs

/-- `strings.ToLower` on ASCII text: hashes are ASCII, and other characters are kept. -/
def toLower (s : String) : String := ⟨s.data.map Char.toLower⟩

def hexDigit (n : Nat) : Char :=
  "0123456789abcdef".toList.getD n '0'

/-- `fmt.Sprintf("%x", b)` of a byte slice: two lowercase hex digits a byte. -/
def hexString (bs : List UInt8) : String :=
  ⟨bs.flatMap fun b => [hexDigit (b.toNat / 16), hexDigit (b.toNat % 16)]⟩

@[simp] theorem hexString_length (bs : List UInt8) : (hexString bs).length = 2 * bs.length := by
  induction bs with
  | nil => rfl
  | cons b bs ih =>
      simp only [hexString, String.length, List.flatMap_cons, List.length_append] at ih ⊢
      simp only [ih, List.length_cons, List.length_nil]
      omega

example : hexString [0x0a, 0xff] = "0aff" := by decide

theorem hexDigit_injective : ∀ a b : Fin 16, hexDigit a = hexDigit b → a = b := by
  decide

theorem hexByte_inj {b b' : UInt8} (hi : hexDigit (b.toNat / 16) = hexDigit (b'.toNat / 16))
    (lo : hexDigit (b.toNat % 16) = hexDigit (b'.toNat % 16)) : b = b' := by
  have hb : b.toNat < 256 := b.toNat_lt_size
  have hb' : b'.toNat < 256 := b'.toNat_lt_size
  have h1 := congrArg Fin.val (hexDigit_injective ⟨b.toNat / 16, by omega⟩ ⟨b'.toNat / 16, by omega⟩ hi)
  have h2 := congrArg Fin.val (hexDigit_injective ⟨b.toNat % 16, by omega⟩ ⟨b'.toNat % 16, by omega⟩ lo)
  simp only at h1 h2
  exact UInt8.toNat.inj (by omega)

theorem hexString_injective {bs bs' : List UInt8} (h : hexString bs = hexString bs') : bs = bs' := by
  have hd : (bs.flatMap fun b => [hexDigit (b.toNat / 16), hexDigit (b.toNat % 16)]) =
      bs'.flatMap fun b => [hexDigit (b.toNat / 16), hexDigit (b.toNat % 16)] :=
    congrArg String.data h
  induction bs generalizing bs' with
  | nil => cases bs' <;> simp_all
  | cons b bs ih =>
      cases bs' with
      | nil => simp at hd
      | cons b' bs' =>
          simp only [List.flatMap_cons, List.cons_append, List.nil_append, List.cons.injEq] at hd
          obtain ⟨hi, lo, hrest⟩ := hd
          rw [hexByte_inj hi lo, ih (congrArg String.mk hrest) hrest]

end CortexTheseus.Common
