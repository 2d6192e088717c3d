import Mathlib.Logic.Basic

/-!
# Schedules of atomic steps

Each concurrent component is a step function on its state; `none` means the action is not
enabled. A schedule is run action by action, and an invariant is proved for one step and
carried along every admissible schedule.
-/

namespace CortexTheseus

variable {σ α : Type}

/-- Run a schedule of actions; `none` as soon as an action is not enabled. -/
def runSteps (step : σ → α → Option σ) : σ → List α → Option σ
  | s, [] => some s
  | s, a :: as => (step s a).bind fun s' => runSteps step s' as

section

variable (step : σ → α → Option σ)

@[simp] theorem runSteps_nil (s : σ) : runSteps step s [] = some s := rfl

@[simp] theorem runSteps_cons (s : σ) (a : α) (as : List α) :
    runSteps step s (a :: as) = (step s a).bind fun s' => runSteps step s' as := rfl

theorem runSteps_append (s : σ) (as bs : List α) :
    runSteps step s (as ++ bs) = (runSteps step s as).bind fun s' => runSteps step s' bs := by
  induction as generalizing s with
  | nil => rfl
  | cons a as ih =>
      cases h : step s a <;> simp [h, ih]

theorem runSteps_snoc (s : σ) (as : List α) (a : α) :
    runSteps step s (as ++ [a]) = (runSteps step s as).bind (step · a) := by
  rw [runSteps_append]
  cases runSteps step s as <;> simp

theorem runSteps_invariant {I : σ → Prop}
    (hstep : ∀ s a s', I s → step s a = some s' → I s') :
    ∀ {s s' : σ} {as : List α}, I s → runSteps step s as = some s' → I s'
  | s, s', [], hs, h => by cases h; exact hs
  | s, s', a :: as, hs, h => by
      obtain ⟨t, ht, hrun⟩ := Option.bind_eq_some.mp h
      exact runSteps_invariant hstep (hstep s a t hs ht) hrun

/-- A state is reachable from `init` when an admissible schedule leads to it. -/
def Reachable (init s : σ) : Prop := ∃ as, runSteps step init as = some s

theorem Reachable.init (init : σ) : Reachable step init init := ⟨[], rfl⟩

theorem Reachable.tail {init s s' : σ} {a : α} (h : Reachable step init s)
    (ha : step s a = some s') : Reachable step init s' := by
  obtain ⟨as, has⟩ := h
  exact ⟨as ++ [a], by simp [runSteps_snoc, has, ha]⟩

theorem Reachable.invariant {I : σ → Prop} {init s : σ} (h0 : I init)
    (hstep : ∀ s a s', I s → step s a = some s' → I s') (h : Reachable step init s) : I s := by
  obtain ⟨as, has⟩ := h
  exact runSteps_invariant step hstep h0 has

end

/-! ### Goroutines held in a list -/

section

variable {β : Type}

theorem getElem?_set_cases {l : List β} {k j : Nat} {x y : β}
    (h : (l.set k x)[j]? = some y) : (j = k ∧ y = x) ∨ (j ≠ k ∧ l[j]? = some y) := by
  rw [List.getElem?_set] at h
  by_cases hj : k = j
  · subst hj
    rw [if_pos rfl] at h
    split at h
    · exact Or.inl ⟨rfl, (Option.some.inj h).symm⟩
    · cases h
  · rw [if_neg hj] at h
    exact Or.inr ⟨Ne.symm hj, h⟩

theorem getElem?_set_of_getElem? {l : List β} {k j : Nat} {x y : β} (h : l[k]? = some y) :
    (l.set k x)[j]? = if k = j then some x else l[j]? := by
  rw [List.getElem?_set]
  split
  · rw [if_pos (List.getElem?_eq_some_iff.mp h).1]
  · rfl

theorem getElem?_snoc_cases {l : List β} {k : Nat} {x y : β}
    (h : (l ++ [x])[k]? = some y) : l[k]? = some y ∨ (k = l.length ∧ y = x) := by
  by_cases hk : k < l.length
  · rw [List.getElem?_append_left hk] at h
    exact Or.inl h
  · rw [List.getElem?_append_right (by omega)] at h
    rcases hm : k - l.length with _ | n
    · rw [hm] at h
      exact Or.inr ⟨by omega, by simpa using h.symm⟩
    · rw [hm] at h
      simp at h

theorem getElem?_append_of_some {l m : List β} {k : Nat} {y : β} (h : l[k]? = some y) :
    (l ++ m)[k]? = some y := by
  rw [List.getElem?_append_left (List.getElem?_eq_some_iff.mp h).1, h]

theorem countP_set_add {l : List β} {k : Nat} {p : β} (P : β → Bool) (q : β) (hk : l[k]? = some p) :
    (l.set k q).countP P + (if P p then 1 else 0) = l.countP P + (if P q then 1 else 0) := by
  obtain ⟨hlt, rfl⟩ := List.getElem?_eq_some_iff.mp hk
  have := List.boole_getElem_le_countP P l k hlt
  rw [List.countP_set _ _ _ _ hlt]
  omega

theorem count_set_add [DecidableEq β] {l : List β} {k : Nat} {p : β} (q : β) (hk : l[k]? = some p)
    (x : β) : (l.set k q).count x + (if p = x then 1 else 0) = l.count x + (if q = x then 1 else 0) := by
  simpa only [List.count, beq_iff_eq] using countP_set_add (· == x) q hk

end

end CortexTheseus
