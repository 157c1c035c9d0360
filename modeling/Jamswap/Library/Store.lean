import Mathlib.Data.Set.Lattice

/-!
# A key-value store in which writing the empty value deletes

Some hosts keep no empty values: writing one removes the key. `Store κ α` carries that as a field,
so two stores that read the same are equal and writing back what was read changes nothing
(`Store.write_read`). What an operation leaves alone is said with `AgreeOutside`: two stores agree
on every key outside a set. It is an equivalence, monotone in the set, and it is how the effects of
a sequence of writes are framed.
-/

namespace Jamswap.Library

/-- A store from keys to non-empty lists. -/
@[ext]
structure Store (κ α : Type*) where
  lookup : κ → Option (List α)
  nonempty : ∀ k, lookup k ≠ some []

namespace Store

variable {κ α : Type*}

/-- The store with no keys. -/
def empty : Store κ α := ⟨fun _ ↦ none, fun _ h ↦ by cases h⟩

/-- The value under `k`, a missing key reading as the empty list. -/
def read (s : Store κ α) (k : κ) : List α := (s.lookup k).getD []

variable {s t : Store κ α} {K : Set κ}

/-- `s` and `t` hold the same value under every key outside `K`. -/
def AgreeOutside (K : Set κ) (s t : Store κ α) : Prop := ∀ k ∉ K, s.lookup k = t.lookup k

theorem AgreeOutside.refl (K : Set κ) (s : Store κ α) : AgreeOutside K s s := fun _ _ ↦ rfl

theorem AgreeOutside.trans {u : Store κ α} (hst : AgreeOutside K s t) (htu : AgreeOutside K t u) :
    AgreeOutside K s u :=
  fun k hk ↦ (hst k hk).trans (htu k hk)

theorem AgreeOutside.mono {L : Set κ} (h : AgreeOutside K s t) (hKL : K ⊆ L) : AgreeOutside L s t :=
  fun k hk ↦ h k fun hK ↦ hk (hKL hK)

/-- A loop whose body stays inside the frame stays inside it. -/
theorem agreeOutside_foldl {β : Type*} (step : Store κ α → β → Store κ α) (xs : List β)
    (hstep : ∀ s, ∀ x ∈ xs, AgreeOutside K s (step s x)) (s : Store κ α) :
    AgreeOutside K s (xs.foldl step s) :=
  List.foldlRecOn xs step (AgreeOutside.refl K s) fun s' h x hx ↦ h.trans (hstep s' x hx)

/-! ### Writing -/

variable [DecidableEq κ]

/-- Store `v` under `k`; the empty value removes the key. -/
def write (s : Store κ α) (k : κ) (v : List α) : Store κ α where
  lookup k' := if k' = k then (if v.isEmpty then none else some v) else s.lookup k'
  nonempty k' := by
    split_ifs with hk hv
    · simp
    · simpa using hv
    · exact s.nonempty k'

/-- Delete `k`. -/
def remove (s : Store κ α) (k : κ) : Store κ α := s.write k []

theorem lookup_write (s : Store κ α) (k k' : κ) (v : List α) :
    (s.write k v).lookup k' = if k' = k then (if v.isEmpty then none else some v)
      else s.lookup k' := rfl

theorem lookup_write_of_ne (s : Store κ α) {k k' : κ} (v : List α) (h : k' ≠ k) :
    (s.write k v).lookup k' = s.lookup k' := by
  rw [lookup_write, if_neg h]

theorem read_write (s : Store κ α) (k k' : κ) (v : List α) :
    (s.write k v).read k' = if k' = k then v else s.read k' := by
  unfold read
  rw [lookup_write]
  split_ifs with hk hv
  · simpa using (List.isEmpty_iff.mp hv).symm
  · rfl
  · rfl

theorem agreeOutside_write (s : Store κ α) {k : κ} (v : List α) (hk : k ∈ K) :
    AgreeOutside K s (s.write k v) := by
  intro k' hk'
  refine (s.lookup_write_of_ne v ?_).symm
  rintro rfl
  exact hk' hk

end Store

end Jamswap.Library
