import CortexTheseus.Schedule
import Mathlib.Data.List.Basic

/-!
# Jump buffers

`PushJumpBuffer`, `PopJumpBuffer` and `Longjmp` (libc_musl.go:469-492) on one TLS; `none` is
the panic of `PopJumpBuffer`. `Longjmp`'s own panic with `LongjmpRetval(val)`, which unwinds
to the `setjmp` point, is left out: only its pop of `jb` is modelled.
-/

namespace CortexTheseus.Libc

inductive JumpCall
  /-- `PushJumpBuffer(jb)` -/
  | push (jb : Nat)
  /-- `PopJumpBuffer(jb)` -/
  | pop (jb : Nat)
  /-- `Longjmp(jb, val)` -/
  | longjmp (jb : Nat) (val : Int)
  deriving DecidableEq, Repr

/-- `PopJumpBuffer(jb)`: the buffers without the last one when that is `jb`; `none` is the
panic. -/
def popJumpBuffer (jumpBuffers : List Nat) (jb : Nat) : Option (List Nat) :=
  if jumpBuffers.getLast? = some jb then some jumpBuffers.dropLast else none

def jumpStep (jumpBuffers : List Nat) : JumpCall → Option (List Nat)
  | .push jb => some (jumpBuffers ++ [jb])
  | .pop jb => popJumpBuffer jumpBuffers jb
  | .longjmp jb _ => popJumpBuffer jumpBuffers jb

@[simp] theorem jumpStep_push (b : List Nat) (jb : Nat) : jumpStep b (.push jb) = some (b ++ [jb]) :=
  rfl

/-- A call that ends the `setjmp` point of `jb`: its pop, or a `longjmp` to it. -/
def JumpCall.Closes (jb : Nat) : JumpCall → Prop
  | .push _ => False
  | .pop j => j = jb
  | .longjmp j _ => j = jb

/-- Well-nested calls: each push of a buffer is later closed by a pop of it or a `longjmp`
to it, with well-nested calls between. -/
inductive Nested : List JumpCall → Prop
  | nil : Nested []
  | block {jb : Nat} {c : JumpCall} {u v : List JumpCall} :
      c.Closes jb → Nested u → Nested v → Nested (.push jb :: u ++ c :: v)

/-- Calls that leave the pushes `js` open: well-nested stretches around the open pushes. -/
inductive Unmatched : List Nat → List JumpCall → Prop
  | nested {w : List JumpCall} : Nested w → Unmatched [] w
  | pushed {js : List Nat} {jb : Nat} {w n : List JumpCall} :
      Unmatched js w → Nested n → Unmatched (js ++ [jb]) (w ++ .push jb :: n)

theorem Nested.append {a b : List JumpCall} (ha : Nested a) (hb : Nested b) : Nested (a ++ b) := by
  induction ha with
  | nil => exact hb
  | block hc hu _ _ ihv =>
    rw [List.append_assoc, List.cons_append]
    exact .block hc hu ihv

theorem Unmatched.append_nested {js : List Nat} {w m : List JumpCall} (h : Unmatched js w)
    (hm : Nested m) : Unmatched js (w ++ m) := by
  cases h with
  | nested hw => exact .nested (hw.append hm)
  | pushed hw hn =>
    rw [List.append_assoc, List.cons_append]
    exact .pushed hw (hn.append hm)

theorem Unmatched.inv_snoc {js : List Nat} {jb : Nat} {w : List JumpCall}
    (h : Unmatched (js ++ [jb]) w) :
    ∃ w₀ n, Unmatched js w₀ ∧ Nested n ∧ w = w₀ ++ .push jb :: n := by
  generalize hk : js ++ [jb] = k at h
  cases h with
  | nested => simp at hk
  | pushed hw hn =>
    obtain ⟨rfl, hj⟩ := List.append_inj' hk rfl
    cases hj
    exact ⟨_, _, hw, hn, rfl⟩

theorem Unmatched.nil_iff {w : List JumpCall} : Unmatched [] w ↔ Nested w := by
  refine ⟨fun h => ?_, .nested⟩
  generalize hk : ([] : List Nat) = k at h
  cases h with
  | nested hw => exact hw
  | pushed => simp at hk

theorem jumpStep_closes {jb : Nat} {c : JumpCall} (hc : c.Closes jb) (b : List Nat) :
    jumpStep (b ++ [jb]) c = some b := by
  cases c with
  | push => cases hc
  | pop j | longjmp j =>
    cases hc
    simp [jumpStep, popJumpBuffer]

theorem jumpStep_pop {b b' : List Nat} {c : JumpCall} (h : jumpStep b c = some b')
    (hc : ∀ jb, c ≠ .push jb) : ∃ jb, b = b' ++ [jb] ∧ c.Closes jb := by
  cases c with
  | push jb => exact absurd rfl (hc jb)
  | pop j | longjmp j =>
    simp only [jumpStep, popJumpBuffer] at h
    split_ifs at h with hl
    cases h
    exact ⟨j, (List.dropLast_append_getLast? j hl).symm, rfl⟩

theorem runSteps_nested {w : List JumpCall} (h : Nested w) (b : List Nat) :
    runSteps jumpStep b w = some b := by
  induction h generalizing b with
  | nil => rfl
  | block hc _ _ ihu ihv =>
    rw [runSteps_append]
    simp only [runSteps_cons, jumpStep_push, Option.some_bind, ihu, jumpStep_closes hc, ihv]

theorem runSteps_unmatched {js : List Nat} {w : List JumpCall} (h : Unmatched js w) :
    runSteps jumpStep [] w = some js := by
  induction h with
  | nested hw => exact runSteps_nested hw []
  | pushed _ hn ih =>
    rw [runSteps_append, ih, Option.some_bind, runSteps_cons]
    exact runSteps_nested hn _

theorem unmatched_of_runSteps {w : List JumpCall} :
    ∀ {js : List Nat}, runSteps jumpStep [] w = some js → Unmatched js w := by
  induction w using List.reverseRecOn with
  | nil =>
    intro js h
    cases h
    exact .nested .nil
  | append_singleton w c ih =>
    intro js h
    rw [runSteps_snoc] at h
    obtain ⟨js₀, hw, hc⟩ := Option.bind_eq_some.mp h
    have hu := ih hw
    by_cases hp : ∃ jb, c = .push jb
    · -- a push opens one more buffer
      obtain ⟨jb, rfl⟩ := hp
      cases hc
      exact .pushed hu .nil
    · -- a pop or a longjmp closes the innermost open push
      obtain ⟨jb, rfl, hcl⟩ := jumpStep_pop hc fun jb e => hp ⟨jb, e⟩
      obtain ⟨w₀, n, hw₀, hn, rfl⟩ := hu.inv_snoc
      rw [List.append_assoc]
      exact hw₀.append_nested (.block hcl hn .nil)

theorem runSteps_jumpStep_iff (w : List JumpCall) (js : List Nat) :
    runSteps jumpStep [] w = some js ↔ Unmatched js w :=
  ⟨unmatched_of_runSteps, runSteps_unmatched⟩

/-- On a fresh TLS, a sequence of `PushJumpBuffer`, `PopJumpBuffer` and `Longjmp` calls runs
without panicking and leaves no jump buffer exactly when it is well nested; and well-nested
calls on any jump buffers never panic and leave them as they were. -/
theorem jumpBuffers_nested_iff (w : List JumpCall) :
    (runSteps jumpStep [] w = some [] ↔ Nested w) ∧
    (Nested w → ∀ b, runSteps jumpStep b w = some b) :=
  ⟨(runSteps_jumpStep_iff w []).trans Unmatched.nil_iff, runSteps_nested⟩

example : runSteps jumpStep [] [.push 1, .push 2, .longjmp 1 0] = none := by decide

end CortexTheseus.Libc
