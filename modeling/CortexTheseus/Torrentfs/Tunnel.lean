import CortexTheseus.Common.Hex
import Mathlib.Data.List.Sort
import Mathlib.Logic.Function.Basic

/-!
# The broadcast tunnel

`TorrentFS.broadcast` (fs.go:517-529) on `fs.tunnel`, a `ttlmap.Map` whose items live
60 s (fs.go:234-244). Over calls made one after another, every hash holds the item of the
last call on it that returned true (`broadcastRun_items`).
-/

namespace CortexTheseus.Torrentfs

open CortexTheseus.Common

/-- One second of `time.Duration`, in nanoseconds. -/
def second : Nat := 1000000000

/-- `ttlmap.WithTTL(60*time.Second)` of `broadcast`. -/
def tunnelTTL : Nat := 60 * second

/-- A `ttlmap.Item`: its value and the instant its TTL elapses. -/
structure Item where
  value : Nat
  expiry : Nat
  deriving DecidableEq, Repr

/-- `fs.tunnel`, a `ttlmap.Map` keyed by info hash. -/
structure Tunnel where
  items : String → Option Item

namespace Tunnel

/-- `ttlmap.New`: no items. -/
def empty : Tunnel := ⟨fun _ => none⟩

/-- `Map.Get(key)` at instant `now`: the value of an item whose TTL has not elapsed. -/
def get (m : Tunnel) (now : Nat) (key : String) : Option Nat :=
  match m.items key with
  | some it => if now < it.expiry then some it.value else none
  | none => none

/-- `Map.Set(key, item, nil)`: the item replaces whatever the key held. -/
def set (m : Tunnel) (key : String) (it : Item) : Tunnel :=
  ⟨Function.update m.items key (some it)⟩

@[simp] theorem set_items_self (m : Tunnel) (key : String) (it : Item) :
    (m.set key it).items key = some it := by
  simp [set]

@[simp] theorem set_items_ne (m : Tunnel) {key k : String} (it : Item) (h : k ≠ key) :
    (m.set key it).items k = m.items k := by
  simp [set, h]

theorem mem_get {m : Tunnel} {now : Nat} {key : String} {v : Nat} :
    v ∈ m.get now key ↔ ∃ it, m.items key = some it ∧ now < it.expiry ∧ it.value = v := by
  unfold get
  cases h : m.items key with
  | none => simp
  | some it => by_cases hn : now < it.expiry <;> simp [hn, eq_comm]

end Tunnel

/-- `TorrentFS.broadcast(ih, rawSize)` called at instant `now`: whether the need is
to be announced, and the tunnel after the call. -/
def broadcast (m : Tunnel) (now : Nat) (ih : String) (rawSize : Nat) : Bool × Tunnel :=
  if !isHexAddress ih then (false, m)
  else if (m.get now ih).any (rawSize ≤ ·) then (false, m)
  else (true, m.set ih ⟨rawSize, now + tunnelTTL⟩)

theorem broadcast_eq (m : Tunnel) (now : Nat) (ih : String) (rawSize : Nat) :
    broadcast m now ih rawSize =
      if isHexAddress ih ∧ ∀ v ∈ m.get now ih, v < rawSize
      then (true, m.set ih ⟨rawSize, now + tunnelTTL⟩) else (false, m) := by
  unfold broadcast
  by_cases hv : isHexAddress ih
  · cases h : m.get now ih with
    | none => simp [hv]
    | some v =>
        by_cases hle : rawSize ≤ v
        · simp [hv, hle, Nat.not_lt.mpr hle]
        · simp [hv, hle, Nat.lt_of_not_le hle]
  · simp [hv]

theorem broadcast_true_iff (m : Tunnel) (now : Nat) (ih : String) (rawSize : Nat) :
    (broadcast m now ih rawSize).1 = true ↔
      isHexAddress ih ∧ ∀ v ∈ m.get now ih, v < rawSize := by
  rw [broadcast_eq]
  split <;> simp_all

theorem broadcast_snd (m : Tunnel) (now : Nat) (ih : String) (rawSize : Nat) :
    (broadcast m now ih rawSize).2 =
      if (broadcast m now ih rawSize).1 then m.set ih ⟨rawSize, now + tunnelTTL⟩ else m := by
  rw [broadcast_eq]
  split <;> rfl

/-! ### Calls one after another -/

/-- One call `broadcast(ih, size)` made at instant `time`. -/
structure Call where
  ih : String
  size : Nat
  time : Nat
  deriving DecidableEq, Repr

/-- Make one more call: the tunnel after it, and the log extended by the call and
its result. -/
def broadcastStep (st : Tunnel × List (Call × Bool)) (c : Call) : Tunnel × List (Call × Bool) :=
  let r := broadcast st.1 c.time c.ih c.size
  (r.2, st.2 ++ [(c, r.1)])

/-- Calls made one after another from the empty tunnel of `New`. -/
def broadcastRun (cs : List Call) : Tunnel × List (Call × Bool) :=
  cs.foldl broadcastStep (Tunnel.empty, [])

@[simp] theorem broadcastRun_nil : broadcastRun [] = (Tunnel.empty, []) := rfl

theorem broadcastRun_snoc (cs : List Call) (c : Call) :
    broadcastRun (cs ++ [c]) = broadcastStep (broadcastRun cs) c := by
  simp [broadcastRun, List.foldl_append]

/-- The latest call on `ih` in a log that returned true. -/
def lastTrue (log : List (Call × Bool)) (ih : String) : Option Call :=
  log.foldl (fun acc p => if p.2 ∧ p.1.ih = ih then some p.1 else acc) none

@[simp] theorem lastTrue_nil (ih : String) : lastTrue [] ih = none := rfl

theorem lastTrue_snoc (log : List (Call × Bool)) (c : Call) (b : Bool) (ih : String) :
    lastTrue (log ++ [(c, b)]) ih = if b ∧ c.ih = ih then some c else lastTrue log ih := by
  simp [lastTrue, List.foldl_append]

theorem lastTrue_mem {log : List (Call × Bool)} {k : String} {c : Call}
    (h : lastTrue log k = some c) : (c, true) ∈ log ∧ c.ih = k := by
  induction log using List.reverseRecOn with
  | nil => simp at h
  | append_singleton log x ih =>
      obtain ⟨x, b⟩ := x
      rw [lastTrue_snoc] at h
      split at h
      · cases h; simp_all
      · simp [ih h]

theorem lastTrue_isSome {log : List (Call × Bool)} {c : Call} (h : (c, true) ∈ log) :
    ∃ cl, lastTrue log c.ih = some cl := by
  induction log using List.reverseRecOn with
  | nil => simp at h
  | append_singleton log x ih =>
      obtain ⟨x, b⟩ := x
      rw [lastTrue_snoc]
      split
      · exact ⟨_, rfl⟩
      · rcases List.mem_append.mp h with h | h
        · exact ih h
        · simp_all

theorem lastTrue_latest {log : List (Call × Bool)} {k : String} {c cl : Call}
    (h : lastTrue log k = some cl) (hc : (c, true) ∈ log) (hk : c.ih = k) :
    c = cl ∨ List.Sublist [(c, true), (cl, true)] log := by
  induction log using List.reverseRecOn with
  | nil => simp at h
  | append_singleton log x ih =>
      obtain ⟨x, b⟩ := x
      rw [lastTrue_snoc] at h
      rcases List.mem_append.mp hc with hlog | hlast
      · by_cases hb : b = true ∧ x.ih = k
        · rw [if_pos hb, Option.some.injEq] at h
          obtain ⟨rfl, -⟩ := hb
          subst h
          exact Or.inr ((List.singleton_sublist.mpr hlog).append (List.Sublist.refl _))
        · rw [if_neg hb] at h
          exact (ih h hlog).imp_right (List.sublist_append_of_sublist_left ·)
      · obtain ⟨rfl, rfl⟩ := Prod.mk.inj (List.mem_singleton.mp hlast)
        rw [if_pos ⟨rfl, hk⟩] at h
        exact Or.inl (Option.some.inj h)

theorem split_snoc {α : Type} {pre post l : List α} {a x : α} (h : pre ++ a :: post = l ++ [x]) :
    (pre = l ∧ a = x) ∨ ∃ post', l = pre ++ a :: post' := by
  rcases List.eq_nil_or_concat post with rfl | ⟨post', y, rfl⟩
  · have h' := List.append_inj' h rfl
    exact Or.inl ⟨h'.1, by simpa using h'.2⟩
  · refine Or.inr ⟨post', ?_⟩
    have h' : (pre ++ a :: post') ++ [y] = l ++ [x] := by simpa using h
    exact (List.append_inj' h' rfl).1.symm

theorem pair_sublist_snoc {α : Type} {a b x : α} {l : List α} (h : List.Sublist [a, b] (l ++ [x])) :
    List.Sublist [a, b] l ∨ (a ∈ l ∧ b = x) := by
  obtain ⟨l₁, l₂, he, h₁, h₂⟩ := List.sublist_append_iff.mp h
  rcases List.sublist_singleton.mp h₂ with rfl | rfl
  · have hl : l₁ = [a, b] := by simpa using he.symm
    exact Or.inl (hl ▸ h₁)
  · have h' := List.append_inj' (show [a] ++ [b] = l₁ ++ [x] from he) rfl
    rw [← h'.1] at h₁
    exact Or.inr ⟨List.singleton_sublist.mp h₁, by simpa using h'.2⟩

theorem broadcastRun_calls (cs : List Call) : (broadcastRun cs).2.map Prod.fst = cs := by
  induction cs using List.reverseRecOn with
  | nil => rfl
  | append_singleton cs c ih => simp [broadcastRun_snoc, broadcastStep, ih]

/-- The invariant of the tunnel: every hash holds the item stored by the last call on
it that returned true, and nothing if there is none. -/
theorem broadcastRun_items (cs : List Call) (k : String) :
    (broadcastRun cs).1.items k =
      (lastTrue (broadcastRun cs).2 k).map fun c => ⟨c.size, c.time + tunnelTTL⟩ := by
  induction cs using List.reverseRecOn with
  | nil => rfl
  | append_singleton cs c ih =>
      rw [broadcastRun_snoc]
      simp only [broadcastStep, lastTrue_snoc]
      rw [broadcast_snd]
      cases (broadcast (broadcastRun cs).1 c.time c.ih c.size).1
      · simpa using ih
      · by_cases hk : c.ih = k
        · subst hk; simp
        · simp [hk, Ne.symm hk, ih]

theorem broadcastRun_announces_iff (cs : List Call) (c : Call) :
    (broadcast (broadcastRun cs).1 c.time c.ih c.size).1 = true ↔
      isHexAddress c.ih ∧ ∀ c' ∈ lastTrue (broadcastRun cs).2 c.ih,
        c'.time + tunnelTTL ≤ c.time ∨ c'.size < c.size := by
  rw [broadcast_true_iff]
  refine and_congr_right fun _ => ?_
  simp only [Tunnel.mem_get, broadcastRun_items]
  cases lastTrue (broadcastRun cs).2 c.ih with
  | none => simp
  | some cl =>
      simp only [Option.map_some', Option.some.injEq, exists_eq_left', Option.mem_def]
      constructor
      · intro h c' hc'
        cases hc'
        by_cases ht : c.time < cl.time + tunnelTTL
        · exact Or.inr (h _ ⟨ht, rfl⟩)
        · exact Or.inl (by omega)
      · rintro h v ⟨ht, rfl⟩
        rcases h cl rfl with h | h
        · omega
        · exact h

theorem broadcastRun_result_iff {cs : List Call} {pre post : List (Call × Bool)} {c : Call}
    {b : Bool} (h : (broadcastRun cs).2 = pre ++ (c, b) :: post) :
    b = true ↔ isHexAddress c.ih ∧ ∀ c' ∈ lastTrue pre c.ih,
      c'.time + tunnelTTL ≤ c.time ∨ c'.size < c.size := by
  induction cs using List.reverseRecOn generalizing post with
  | nil => simp at h
  | append_singleton cs x ih =>
      rw [broadcastRun_snoc] at h
      rcases split_snoc h.symm with ⟨rfl, he⟩ | ⟨post', hpost⟩
      · obtain ⟨rfl, rfl⟩ := Prod.mk.inj he
        exact broadcastRun_announces_iff cs c
      · exact ih hpost

theorem broadcastRun_sorted_snoc {cs : List Call} {c : Call}
    (hs : ((cs ++ [c]).map Call.time).Sorted (· ≤ ·)) :
    (cs.map Call.time).Sorted (· ≤ ·) ∧ ∀ p ∈ (broadcastRun cs).2, p.1.time ≤ c.time := by
  rw [List.map_append] at hs
  unfold List.Sorted at hs
  rw [List.pairwise_append] at hs
  refine ⟨hs.1, fun p hp => hs.2.2 _ ?_ _ (by simp)⟩
  rw [← broadcastRun_calls cs, List.map_map]
  exact List.mem_map_of_mem _ hp

theorem broadcastRun_pair_time {cs : List Call} (hs : (cs.map Call.time).Sorted (· ≤ ·))
    {p q : Call × Bool} (h : List.Sublist [p, q] (broadcastRun cs).2) : p.1.time ≤ q.1.time := by
  have hp : ((broadcastRun cs).2.map Prod.fst |>.map Call.time).Sorted (· ≤ ·) := by
    rwa [broadcastRun_calls]
  simp only [List.Sorted, List.map_map, List.pairwise_map] at hp
  simpa using hp.sublist h

theorem broadcastRun_spaced {cs : List Call} (hs : (cs.map Call.time).Sorted (· ≤ ·))
    {c₁ c₂ : Call} (h : List.Sublist [(c₁, true), (c₂, true)] (broadcastRun cs).2)
    (hk : c₁.ih = c₂.ih) (hle : c₂.size ≤ c₁.size) : c₁.time + tunnelTTL ≤ c₂.time := by
  induction cs using List.reverseRecOn generalizing c₁ c₂ with
  | nil => simp at h
  | append_singleton cs c ih =>
      obtain ⟨hs', htime⟩ := broadcastRun_sorted_snoc hs
      rw [broadcastRun_snoc] at h
      rcases pair_sublist_snoc h with h | ⟨h₁, h₂⟩
      · exact ih hs' h hk hle
      · obtain ⟨rfl, hr⟩ := Prod.mk.inj h₂
        have hann := (broadcastRun_announces_iff cs c₂).mp hr.symm
        obtain ⟨cl, hcl⟩ := lastTrue_isSome h₁
        rw [hk] at hcl
        have hcl_time : cl.time ≤ c₂.time := htime _ (lastTrue_mem hcl).1
        rcases lastTrue_latest hcl h₁ hk with rfl | hsub
        · rcases hann.2 c₁ hcl with ht | hsz
          · exact ht
          · omega
        · have h₁₂ := broadcastRun_pair_time hs' hsub
          rcases hann.2 cl hcl with ht | hsz
          · simp only at h₁₂
            omega
          · have hgap := ih hs' hsub (by rw [hk, (lastTrue_mem hcl).2]) (by omega)
            omega

theorem broadcastRun_covered {cs : List Call} (hs : (cs.map Call.time).Sorted (· ≤ ·))
    {pre post : List (Call × Bool)} {c : Call} (h : (broadcastRun cs).2 = pre ++ (c, false) :: post)
    (hv : isHexAddress c.ih) :
    ∃ c', (c', true) ∈ pre ∧ c'.ih = c.ih ∧ c.size ≤ c'.size ∧ c'.time ≤ c.time ∧
      c.time < c'.time + tunnelTTL := by
  induction cs using List.reverseRecOn generalizing post with
  | nil => simp at h
  | append_singleton cs x ih =>
      obtain ⟨hs', htime⟩ := broadcastRun_sorted_snoc hs
      rw [broadcastRun_snoc] at h
      rcases split_snoc h.symm with ⟨rfl, he⟩ | ⟨post', hpost⟩
      · obtain ⟨rfl, hr⟩ := Prod.mk.inj he
        have hann : ¬ (broadcast (broadcastRun cs).1 c.time c.ih c.size).1 = true := by
          simp [← hr]
        rw [broadcastRun_announces_iff] at hann
        push_neg at hann
        obtain ⟨cl, hcl, ht, hsz⟩ := hann hv
        obtain ⟨hmem, hk⟩ := lastTrue_mem hcl
        exact ⟨cl, hmem, hk, hsz, htime _ hmem, ht⟩
      · exact ih hs' hpost

/-- The sequential law of `broadcast`. Every call stores exactly when it returns true;
over any calls from the empty tunnel, a call returns true iff its hash is well formed
and the latest earlier call on that hash that returned true has expired or was for a
smaller size. At non-decreasing instants, two announcements of one hash with the later
not larger are a TTL apart, and a refused call on a well-formed hash is covered by an
earlier announcement within the TTL that is at least as large. -/
theorem broadcast_sequential_law :
    (∀ m now ih size, (broadcast m now ih size).2 =
      if (broadcast m now ih size).1 then m.set ih ⟨size, now + tunnelTTL⟩ else m) ∧
    (∀ cs, (broadcastRun cs).2.map Prod.fst = cs) ∧
    (∀ cs pre c b post, (broadcastRun cs).2 = pre ++ (c, b) :: post →
      (b = true ↔ isHexAddress c.ih ∧ ∀ c' ∈ lastTrue pre c.ih,
        c'.time + tunnelTTL ≤ c.time ∨ c'.size < c.size)) ∧
    (∀ cs : List Call, (cs.map Call.time).Sorted (· ≤ ·) →
      (∀ c₁ c₂, List.Sublist [(c₁, true), (c₂, true)] (broadcastRun cs).2 →
        c₁.ih = c₂.ih → c₂.size ≤ c₁.size → c₁.time + tunnelTTL ≤ c₂.time) ∧
      (∀ pre c post, (broadcastRun cs).2 = pre ++ (c, false) :: post → isHexAddress c.ih →
        ∃ c', (c', true) ∈ pre ∧ c'.ih = c.ih ∧ c.size ≤ c'.size ∧ c'.time ≤ c.time ∧
          c.time < c'.time + tunnelTTL)) :=
  ⟨broadcast_snd, broadcastRun_calls, fun _ _ _ _ _ h => broadcastRun_result_iff h,
    fun _ hs => ⟨fun _ _ h hk hle => broadcastRun_spaced hs h hk hle,
      fun _ _ _ h hv => broadcastRun_covered hs h hv⟩⟩

def expiringCalls : List Call :=
  [⟨"6b75cc1354495ec763a6b295ee407ea864a0c292", 2, 0⟩,
    ⟨"6b75cc1354495ec763a6b295ee407ea864a0c292", 1, 5⟩,
    ⟨"6b75cc1354495ec763a6b295ee407ea864a0c292", 1, tunnelTTL⟩]

theorem broadcast_sequential_law_expiring :
    (broadcastRun expiringCalls).2.map Prod.snd = [true, false, true] ∧
    ∀ pre c post, (broadcastRun expiringCalls).2 = pre ++ (c, false) :: post → isHexAddress c.ih →
      ∃ c', (c', true) ∈ pre ∧ c'.ih = c.ih ∧ c.size ≤ c'.size ∧ c'.time ≤ c.time ∧
        c.time < c'.time + tunnelTTL :=
  ⟨by decide, (broadcast_sequential_law.2.2.2 expiringCalls (by decide)).2⟩

end CortexTheseus.Torrentfs
