import Mathlib.Algebra.Ring.Nat
import Mathlib.Data.List.Nodup
import Mathlib.Logic.Function.Iterate
import Mathlib.Order.Basic

/-!
# Runs of a state machine

A run folds a step function over a list of inputs. `AlongRun` says that every step of a run meets a
condition on the input and the state it is taken in; `invariant_of_alongRun` is the induction rule
for such runs. More rules follow the same induction: a potential that each step spends no more of
than it earns does so over the whole run (`account_of_alongRun`), one that does so exactly is
balanced over it (`balance_of_run`), tokens that each step issues above a floor and then raises the
floor to are never issued twice (`nodup_issued`), and those of a counter come without gaps
(`issued_of_counter`).
-/

namespace Jamswap.Library

variable {σ α : Type*} (step : σ → α → σ)

/-- Every step of the run from `s` meets the condition `C`. -/
def AlongRun (C : σ → α → Prop) : σ → List α → Prop
  | _, [] => True
  | s, x :: xs => C s x ∧ AlongRun C (step s x) xs

instance AlongRun.decidable {C : σ → α → Prop} [∀ s x, Decidable (C s x)] (s : σ) (xs : List α) :
    Decidable (AlongRun step C s xs) :=
  match xs with
  | [] => isTrue trivial
  | x :: xs =>
    have := AlongRun.decidable (C := C) (step s x) xs
    inferInstanceAs (Decidable (C s x ∧ AlongRun step C (step s x) xs))

/-- The sum of a quantity over the steps of a run. -/
def totalOver (f : σ → α → ℕ) : σ → List α → ℕ
  | _, [] => 0
  | s, x :: xs => f s x + totalOver f (step s x) xs

/-- What the steps of a run issue, in order. -/
def issuedOver {τ : Type*} (issued : σ → α → List τ) : σ → List α → List τ
  | _, [] => []
  | s, x :: xs => issued s x ++ issuedOver issued (step s x) xs

variable {step}

theorem totalOver_concat (f : σ → α → ℕ) (s : σ) (xs : List α) (x : α) :
    totalOver step f s (xs ++ [x]) = totalOver step f s xs + f (xs.foldl step s) x := by
  induction xs generalizing s with
  | nil => exact Nat.add_comm _ _
  | cons y xs ih =>
    rw [List.cons_append, totalOver, totalOver, ih, Nat.add_assoc]
    rfl

theorem issuedOver_concat {τ : Type*} (issued : σ → α → List τ) (s : σ) (xs : List α) (x : α) :
    issuedOver step issued s (xs ++ [x]) =
      issuedOver step issued s xs ++ issued (xs.foldl step s) x := by
  induction xs generalizing s with
  | nil => exact List.append_nil _
  | cons y xs ih =>
    rw [List.cons_append, issuedOver, issuedOver, ih, List.append_assoc]
    rfl

/-- How often a token is issued, step by step. -/
theorem totalOver_count {τ : Type*} [BEq τ] (issued : σ → α → List τ) (t : τ) (s : σ)
    (xs : List α) :
    totalOver step (fun s x ↦ (issued s x).count t) s xs =
      (issuedOver step issued s xs).count t := by
  induction xs generalizing s with
  | nil => rfl
  | cons x xs ih => rw [totalOver, issuedOver, List.count_append, ih]

variable {C : σ → α → Prop} {s : σ} {xs : List α}

theorem alongRun_append {ys : List α} :
    AlongRun step C s (xs ++ ys) ↔ AlongRun step C s xs ∧ AlongRun step C (xs.foldl step s) ys := by
  induction xs generalizing s with
  | nil => exact ⟨fun h ↦ ⟨trivial, h⟩, And.right⟩
  | cons x xs ih =>
    rw [List.cons_append, AlongRun, AlongRun, ih, and_assoc]
    rfl

theorem alongRun_concat {x : α} :
    AlongRun step C s (xs ++ [x]) ↔ AlongRun step C s xs ∧ C (xs.foldl step s) x := by
  rw [alongRun_append, AlongRun, AlongRun, and_true]

/-- What every step preserves holds at every step. -/
theorem alongRun_of_invariant {I : σ → Prop} (hstep : ∀ s x, I s → I (step s x)) (hs : I s)
    (xs : List α) : AlongRun step (fun s _ ↦ I s) s xs := by
  induction xs generalizing s with
  | nil => trivial
  | cons x xs ih => exact ⟨hs, ih (hstep s x hs)⟩

theorem alongRun_of_forall (h : ∀ s x, C s x) (s : σ) (xs : List α) : AlongRun step C s xs := by
  induction xs generalizing s with
  | nil => trivial
  | cons x xs ih => exact ⟨h s x, ih (step s x)⟩

/-- What every step meeting the condition preserves holds at the end of the run. -/
theorem invariant_of_alongRun {I : σ → Prop} (hstep : ∀ s x, I s → C s x → I (step s x)) (hs : I s)
    (hrun : AlongRun step C s xs) : I (xs.foldl step s) := by
  induction xs generalizing s with
  | nil => exact hs
  | cons x xs ih => exact ih (hstep s x hs hrun.1) hrun.2

/-- A bound on each step that does not look at the state bounds the total. -/
theorem totalOver_le_sum {f : σ → α → ℕ} {g : α → ℕ} (h : ∀ s x, f s x ≤ g x) (s : σ)
    (xs : List α) : totalOver step f s xs ≤ (xs.map g).sum := by
  induction xs generalizing s with
  | nil => exact Nat.le_refl _
  | cons x xs ih =>
    rw [List.map_cons, List.sum_cons]
    exact Nat.add_le_add (h s x) (ih (step s x))

/-- A potential of which no step spends more than it earns. -/
theorem account_of_alongRun {C : σ → α → Prop} (potential : σ → ℕ) (spent earned : σ → α → ℕ)
    (hstep : ∀ s x, C s x → potential (step s x) + spent s x ≤ potential s + earned s x)
    {s : σ} {xs : List α} (hrun : AlongRun step C s xs) :
    potential (xs.foldl step s) + totalOver step spent s xs ≤
      potential s + totalOver step earned s xs := by
  induction xs generalizing s with
  | nil => exact Nat.le_refl _
  | cons x xs ih =>
    have hhead := hstep s x hrun.1
    have htail := ih hrun.2
    simp only [totalOver, List.foldl_cons] at htail ⊢
    omega

/-- A potential that below a bound changes by exactly what a step earns and spends does so over the
run, if all it could earn stays below the bound. -/
theorem balance_of_run (potential : σ → ℕ) (spent earned : σ → α → ℕ) (bound : ℕ)
    (hstep : ∀ s x, potential s + earned s x < bound →
      potential (step s x) + spent s x = potential s + earned s x)
    {s : σ} {xs : List α} (hbound : potential s + totalOver step earned s xs < bound) :
    potential (xs.foldl step s) + totalOver step spent s xs =
      potential s + totalOver step earned s xs := by
  induction xs generalizing s with
  | nil => rfl
  | cons x xs ih =>
    rw [totalOver] at hbound
    have hhead := hstep s x (by omega)
    have htail := @ih (step s x) (by omega)
    simp only [totalOver, List.foldl_cons] at htail ⊢
    omega

/-- If a step holds nothing but what was held before it and what it issues, in this order, then so
does the run. -/
theorem sublist_issued {τ : Type*} {issued : σ → α → List τ} (held : σ → List τ)
    (hstep : ∀ s x, C s x → (held (step s x)).Sublist (held s ++ issued s x))
    (hrun : AlongRun step C s xs) :
    (held (xs.foldl step s)).Sublist (held s ++ issuedOver step issued s xs) := by
  induction xs generalizing s with
  | nil => exact List.sublist_append_left _ _
  | cons x xs ih =>
    refine (ih hrun.2).trans ?_
    rw [issuedOver, ← List.append_assoc]
    exact (hstep s x hrun.1).append_right _

/-- If each step issues at most the token a counter stands at, and then moves the counter on, the
run issues the tokens of the counter's successive values. -/
theorem issued_of_counter {τ ν : Type*} {issued : σ → α → List τ} {p : τ → Bool} (value : σ → ν)
    (next : ν → ν) (token : ν → τ) (hstep : ∀ s x,
      (issued s x).filter p = [] ∧ value (step s x) = value s ∨
        (issued s x).filter p = [token (value s)] ∧ value (step s x) = next (value s))
    (s : σ) (xs : List α) : ∃ n,
      (issuedOver step issued s xs).filter p = (List.iterate next (value s) n).map token ∧
        value (xs.foldl step s) = next^[n] (value s) := by
  induction xs generalizing s with
  | nil => exact ⟨0, rfl, rfl⟩
  | cons x xs ih =>
    obtain ⟨n, hissued, hvalue⟩ := ih (step s x)
    rw [issuedOver, List.filter_append, hissued, List.foldl_cons, hvalue]
    rcases hstep s x with ⟨hnone, hsame⟩ | ⟨hone, hnext⟩
    · exact ⟨n, by rw [hnone, hsame, List.nil_append], by rw [hsame]⟩
    · exact ⟨n + 1, by rw [hone, hnext]; rfl, by rw [hnext]; rfl⟩

/-- Tokens are issued on lines, each with a mark that never falls. If a step issues tokens at or
above the mark of their line and leaves the mark above them, no token is issued twice. -/
theorem nodup_issued {τ κ : Type*} {C : σ → α → Prop} {issued : σ → α → List τ} (line : τ → κ)
    (rank : τ → ℕ) (mark : σ → κ → ℕ) (hnodup : ∀ s x, C s x → (issued s x).Nodup)
    (hmark : ∀ s x, C s x → ∀ k, mark s k ≤ mark (step s x) k)
    (hissued : ∀ s x, C s x → ∀ t ∈ issued s x,
      mark s (line t) ≤ rank t ∧ rank t < mark (step s x) (line t))
    {s : σ} {xs : List α} (hrun : AlongRun step C s xs) :
    (issuedOver step issued s xs).Nodup ∧
      ∀ t ∈ issuedOver step issued s xs, mark s (line t) ≤ rank t := by
  induction xs generalizing s with
  | nil => exact ⟨List.nodup_nil, by simp [issuedOver]⟩
  | cons x xs ih =>
    obtain ⟨hlater, habove⟩ := ih hrun.2
    constructor
    · refine List.nodup_append'.mpr ⟨hnodup s x hrun.1, hlater, fun t ht ht' ↦ ?_⟩
      exact Nat.not_le.mpr (hissued s x hrun.1 t ht).2 (habove t ht')
    · intro t ht
      rcases List.mem_append.mp ht with hnow | hafter
      · exact (hissued s x hrun.1 t hnow).1
      · exact Nat.le_trans (hmark s x hrun.1 _) (habove t hafter)

end Jamswap.Library
