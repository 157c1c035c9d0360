import Jamswap.Library.Bytes

/-!
# Readers over a buffer and an index

A reader takes a buffer and an index and returns a value with the next index, or an error.
`Reads r e x` says that `r` reads `x` off the string `e` wherever it stands, and `Stable r` that
what follows the part it read does not change what it reads. Both have one rule for each way of
building a reader. A reader with both is self-delimiting: run to the end of its input it accepts
`e`, and neither a strict prefix (`whole_of_truncation`) nor a strict extension
(`whole_of_extension`).
-/

namespace Jamswap.Library

variable {σ ε α β : Type}

/-- From a buffer and an index, a value and the next index, or an error. -/
def Reader (σ ε α : Type) : Type := List σ → ℕ → Except ε (α × ℕ)

namespace Reader

instance instMonadReader : Monad (Reader σ ε) where
  pure x := fun _ i ↦ .ok (x, i)
  bind r f := fun buf i ↦
    match r buf i with
    | .ok (x, j) => f x buf j
    | .error e => .error e

/-- The same reader a number of times. -/
def times (r : Reader σ ε α) : ℕ → Reader σ ε (List α)
  | 0 => pure []
  | n + 1 => do
    let x ← r
    let xs ← times r n
    pure (x :: xs)

/-- Read the whole input: what is left over is an error. -/
def whole (trailing : ℕ → ε) (r : Reader σ ε α) (data : List σ) : Except ε α :=
  match r data 0 with
  | .ok (x, i) => if i ≠ data.length then .error (trailing (data.length - i)) else .ok x
  | .error e => .error e

/-- The reader reads `x` off `e`, wherever that stands. -/
def Reads (r : Reader σ ε α) (e : List σ) (x : α) : Prop :=
  ∀ ⦃buf i after⦄, Cursor buf i e after → r buf i = .ok (x, i + e.length)

/-- What follows the part read does not matter. -/
def Stable (r : Reader σ ε α) : Prop :=
  ∀ ⦃buf i x j⦄, r buf i = .ok (x, j) → ∀ more, r (buf ++ more) i = .ok (x, j)

variable {r : Reader σ ε α} {f : α → Reader σ ε β} {e e' : List σ} {x : α} {y : β}

/-! ### What a reader reads -/

theorem Reads.pure (x : α) : Reads (Pure.pure x : Reader σ ε α) [] x := fun _ _ _ _ ↦ rfl

theorem Reads.bind (hr : Reads r e x) (hf : Reads (f x) e' y) : Reads (r >>= f) (e ++ e') y := by
  intro buf i after h
  have hfirst : Cursor buf i e (e' ++ after) := ⟨h.inside, by rw [h.reads, List.append_assoc]⟩
  change (match r buf i with | .ok (x, j) => f x buf j | .error e => .error e) = _
  rw [hr hfirst, List.length_append, ← Nat.add_assoc]
  exact hf (hfirst.next rfl)

/-- The last step computes the value from what was read. -/
theorem Reads.map (hr : Reads r e x) (g : α → β) :
    Reads (r >>= fun a ↦ Pure.pure (g a)) e (g x) := by
  have hbind := hr.bind (f := fun a ↦ Pure.pure (g a)) (Reads.pure (g x))
  rwa [List.append_nil] at hbind

/-- Writing each of a list and reading as many back. -/
theorem Reads.times {xs : List α} {write : α → Except ε (List σ)}
    (h : ∀ x ∈ xs, ∃ e, write x = .ok e ∧ Reads r e x) :
    ∃ es, xs.mapM write = .ok es ∧ Reads (r.times xs.length) es.flatten xs := by
  induction xs with
  | nil => exact ⟨[], rfl, Reads.pure []⟩
  | cons x xs ih =>
    obtain ⟨e, hwrite, hread⟩ := h x List.mem_cons_self
    obtain ⟨es, hwrites, hreads⟩ := ih fun y hy ↦ h y (List.mem_cons_of_mem x hy)
    refine ⟨e :: es, ?_, hread.bind (hreads.map (x :: ·))⟩
    rw [List.mapM_cons, hwrite, hwrites]
    rfl

/-! ### What a reader does not look at -/

theorem Stable.pure (x : α) : Stable (Pure.pure x : Reader σ ε α) := fun _ _ _ _ h _ ↦ h

theorem Stable.bind (hr : Stable r) (hf : ∀ x, Stable (f x)) : Stable (r >>= f) := by
  intro buf i y k h more
  change (match r buf i with | .ok (x, j) => f x buf j | .error e => .error e) = _ at h
  change (match r (buf ++ more) i with
    | .ok (x, j) => f x (buf ++ more) j | .error e => .error e) = _
  cases hfirst : r buf i with
  | error e =>
    rw [hfirst] at h
    cases h
  | ok first =>
    rw [hfirst] at h
    rw [hr hfirst more]
    exact hf first.1 h more

theorem Stable.times (hr : Stable r) (n : ℕ) : Stable (r.times n) := by
  induction n with
  | zero => exact Stable.pure []
  | succ n ih => exact hr.bind fun x ↦ ih.bind fun xs ↦ Stable.pure _

/-- A reader that accepts only what it was made to read. -/
theorem Stable.of_sound (h : ∀ ⦃buf i x j⦄, r buf i = .ok (x, j) →
    ∃ e after, Reads r e x ∧ Cursor buf i e after ∧ j = i + e.length) : Stable r := by
  intro buf i x j hread more
  obtain ⟨e, after, hreads, hcursor, rfl⟩ := h hread
  refine @hreads _ _ (after ++ more) ⟨?_, ?_⟩
  · rw [List.length_append]
    exact hcursor.inside.trans (Nat.le_add_right _ _)
  · rw [List.drop_append_of_le_length hcursor.inside, hcursor.reads, List.append_assoc]

/-! ### Reading the whole input -/

variable {trailing : ℕ → ε}

theorem whole_of_reads (h : Reads r e x) : whole trailing r e = .ok x := by
  have hread := @h _ 0 [] ⟨Nat.zero_le _, by rw [List.drop_zero, List.append_nil]⟩
  rw [Nat.zero_add] at hread
  rw [whole, hread]
  exact if_neg fun hne ↦ hne rfl

theorem whole_of_extension (h : Reads r e x) {more : List σ} (hmore : more ≠ []) :
    whole trailing r (e ++ more) = .error (trailing more.length) := by
  have hlength := List.length_pos_iff.mpr hmore
  rw [whole, h (Cursor.start e more), Nat.zero_add]
  simp only [List.length_append]
  rw [if_pos (by omega), Nat.add_sub_cancel_left]

/-- An accepted prefix would be read to its end, and so would the whole string. -/
theorem whole_of_truncation (h : Reads r e x) (hstable : Stable r) {p : List σ} (hfront : p <+: e)
    (hne : p ≠ e) : ∃ err, whole trailing r p = .error err := by
  cases hwhole : whole trailing r p with
  | error err => exact ⟨err, rfl⟩
  | ok y =>
    exfalso
    obtain ⟨more, rfl⟩ := hfront
    have hmore : more ≠ [] := by
      rintro rfl
      exact hne (List.append_nil p).symm
    have hfull := @h _ 0 [] ⟨Nat.zero_le _, by rw [List.drop_zero, List.append_nil]⟩
    rw [whole] at hwhole
    cases hread : r p 0 with
    | error err =>
      rw [hread] at hwhole
      cases hwhole
    | ok first =>
      rw [hread] at hwhole
      simp only at hwhole
      split_ifs at hwhole with hend
      rw [not_not] at hend
      rw [hstable hread more, Except.ok.injEq] at hfull
      have hlength := congrArg Prod.snd hfull
      have hpos := List.length_pos_iff.mpr hmore
      simp only [hend, List.length_append, Nat.zero_add] at hlength
      omega

end Reader

end Jamswap.Library
