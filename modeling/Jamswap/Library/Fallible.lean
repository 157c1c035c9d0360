import Mathlib.Data.Nat.Notation
import Mathlib.Logic.Basic
import Mathlib.Tactic.SplitIfs

/-!
# Programs that may raise

`Prog σ α` is a program on states `σ` whose calls to the outside world are numbered: the answer to
interaction `n` is a function of `n`, so one environment describes every answer a whole run gets. A
program may raise, and what it changed before raising stays changed.

`Sat P m Q R` is the program logic: from a state with `P`, a normal return of `a` leaves a state
with `Q a` and an exception leaves one with `R`, whatever the environment answers. There is one
rule for each way of building a program. A program that only looks (`ReadOnly`) keeps every
predicate, on both exits; `Keeps P m` says so of one predicate. `Returns m Q` speaks of the returned
value alone.
-/

namespace Jamswap.Library

/-- A program: from the number of the next interaction and a state, its value (none when it raises),
the next number and the state it leaves. -/
def Prog (σ α : Type) : Type := ℕ → σ → Option α × ℕ × σ

variable {n : ℕ} {c : Prop}

namespace Prog

variable {σ α β : Type}

instance : Monad (Prog σ) where
  pure a := fun n s ↦ (some a, n, s)
  bind m f := fun n s ↦
    match m n s with
    | (some a, n', s') => f a n' s'
    | (none, n', s') => (none, n', s')

/-- Raise an exception. -/
def raise : Prog σ α := fun n s ↦ (none, n, s)

/-- One interaction with the environment. -/
def ask (answer : ℕ → Option α) : Prog σ α := fun n s ↦ (answer n, n + 1, s)

/-- The state as it is now. -/
def current : Prog σ σ := fun n s ↦ (some s, n, s)

/-- Change the state. -/
def update (f : σ → σ) : Prog σ Unit := fun n s ↦ (some (), n, f s)

/-- A value that may be missing, in which case the program raises. -/
def ofOption (a : Option α) : Prog σ α := fun n s ↦ (a, n, s)

/-- Run a program and catch what it raises. -/
def attempt (m : Prog σ α) : Prog σ (Option α) := fun n s ↦ (some (m n s).1, (m n s).2)

/-- Run a program when the condition holds. -/
def when (c : Bool) (m : Prog σ Unit) : Prog σ Unit := if c then m else pure ()

/-- Run a program for each element of a list. -/
def forEach (f : α → Prog σ Unit) : List α → Prog σ Unit
  | [] => pure ()
  | x :: xs => do
    f x
    forEach f xs

/-- Run a program; when it raises, clean up and raise again. -/
def rescue (m : Prog σ α) (cleanup : Prog σ Unit) : Prog σ α := fun n s ↦
  match m n s with
  | (some a, n', s') => (some a, n', s')
  | (none, n', s') => (none, (cleanup n' s').2)

variable {m m₁ m₂ : Prog σ α} {s : σ} {a : α} {cleanup : Prog σ Unit}

theorem bind_of_some (f : α → Prog σ β) (h : (m n s).1 = some a) :
    (m >>= f) n s = f a (m n s).2.1 (m n s).2.2 := by
  cases hrun : m n s with
  | mk value rest =>
    rw [hrun] at h
    subst h
    simp only [Bind.bind, hrun]

theorem bind_of_none (f : α → Prog σ β) (h : (m n s).1 = none) :
    (m >>= f) n s = (none, (m n s).2) := by
  cases hrun : m n s with
  | mk value rest =>
    rw [hrun] at h
    subst h
    simp only [Bind.bind, hrun]

/-- A step whose value is known, followed by one that always returns the same. -/
theorem value_bind {f : α → Prog σ β} {r : Option β} (hm : (m n s).1 = some a)
    (hf : ∀ n s, (f a n s).1 = r) : ((m >>= f) n s).1 = r := by
  rw [bind_of_some f hm]
  exact hf _ _

theorem bind_assoc {γ : Type} (m : Prog σ α) (f : α → Prog σ β) (g : β → Prog σ γ) :
    (m >>= f) >>= g = m >>= fun a ↦ f a >>= g := by
  funext n s
  cases hvalue : (m n s).1 with
  | some a =>
    rw [bind_of_some _ hvalue]
    simp only [Bind.bind]
    rw [show m n s = (some a, (m n s).2) from Prod.ext hvalue rfl]
  | none =>
    rw [bind_of_none _ hvalue]
    exact bind_of_none _ (by rw [bind_of_none f hvalue]) |>.trans (by rw [bind_of_none f hvalue])

/-! ### The program logic -/

/-- From a state with `P`, the program returns `a` in a state with `Q a` or raises in one
with `R`. -/
def Sat (P : σ → Prop) (m : Prog σ α) (Q : α → σ → Prop) (R : σ → Prop) : Prop :=
  ∀ n s, P s → (∀ a, (m n s).1 = some a → Q a (m n s).2.2) ∧ ((m n s).1 = none → R (m n s).2.2)

variable {P P' : σ → Prop} {Q Q' : α → σ → Prop} {R R' : σ → Prop} {S : β → σ → Prop}
  {m : Prog σ α} {f : α → Prog σ β}

theorem Sat.conseq (h : Sat P' m Q' R') (hpre : ∀ s, P s → P' s) (hpost : ∀ a s, Q' a s → Q a s)
    (hraise : ∀ s, R' s → R s) : Sat P m Q R := by
  intro n s hs
  obtain ⟨hok, herr⟩ := h n s (hpre s hs)
  exact ⟨fun a ha ↦ hpost a _ (hok a ha), fun hnone ↦ hraise _ (herr hnone)⟩

theorem Sat.weaken (h : Sat P' m Q R) (hpre : ∀ s, P s → P' s) : Sat P m Q R :=
  h.conseq hpre (fun _ _ ha ↦ ha) fun _ hs ↦ hs

theorem Sat.raising (h : Sat P m Q R') (hraise : ∀ s, R' s → R s) : Sat P m Q R :=
  h.conseq (fun _ hs ↦ hs) (fun _ _ ha ↦ ha) hraise

theorem Sat.and (h : Sat P m Q R) (h' : Sat P' m Q' R') :
    Sat (fun s ↦ P s ∧ P' s) m (fun a s ↦ Q a s ∧ Q' a s) fun s ↦ R s ∧ R' s := by
  intro n s hs
  obtain ⟨hok, herr⟩ := h n s hs.1
  obtain ⟨hok', herr'⟩ := h' n s hs.2
  exact ⟨fun a ha ↦ ⟨hok a ha, hok' a ha⟩, fun hnone ↦ ⟨herr hnone, herr' hnone⟩⟩

/-- What holds on both exits holds of the state the program leaves. -/
theorem Sat.final (h : Sat P m (fun _ ↦ R) R) (n : ℕ) (hs : P s) : R (m n s).2.2 := by
  cases hvalue : (m n s).1 with
  | some a => exact (h n s hs).1 a hvalue
  | none => exact (h n s hs).2 hvalue

theorem Sat.pure (h : ∀ s, P s → Q a s) : Sat P (Pure.pure a : Prog σ α) Q R := by
  intro n s hs
  refine ⟨fun b hb ↦ ?_, fun hnone ↦ ?_⟩
  · cases hb
    exact h s hs
  · cases hnone

theorem Sat.bind (hm : Sat P m Q R) (hf : ∀ a, Sat (Q a) (f a) S R) : Sat P (m >>= f) S R := by
  intro n s hs
  obtain ⟨hok, herr⟩ := hm n s hs
  cases hvalue : (m n s).1 with
  | some a =>
    rw [bind_of_some f hvalue]
    exact hf a _ _ (hok a hvalue)
  | none =>
    rw [bind_of_none f hvalue]
    refine ⟨fun b hb ↦ ?_, fun _ ↦ herr hvalue⟩
    cases hb

theorem Sat.raise (h : ∀ s, P s → R s) : Sat P (Prog.raise : Prog σ α) Q R :=
  fun _ s hs ↦ ⟨fun _ ha ↦ (by cases ha), fun _ ↦ h s hs⟩

theorem Sat.update {g : σ → σ} {Q : Unit → σ → Prop} (h : ∀ s, P s → Q () (g s)) :
    Sat P (Prog.update g) Q R :=
  fun _ s hs ↦ ⟨fun _ _ ↦ h s hs, fun hnone ↦ (by cases hnone)⟩

/-- An answer that always comes. -/
theorem Sat.answer {answer : ℕ → α} (h : ∀ a s, P s → Q a s) :
    Sat P (ask fun n ↦ some (answer n)) Q R :=
  fun _ s hs ↦ ⟨fun a _ ↦ h a s hs, fun hnone ↦ (by cases hnone)⟩

/-- Reading the state names it: what follows runs in that very state. -/
theorem Sat.current {f : σ → Prog σ β} (h : ∀ t, Sat (fun s ↦ P s ∧ s = t) (f t) S R) :
    Sat P (Prog.current >>= f) S R :=
  Sat.bind (Q := fun t s ↦ P s ∧ s = t)
    (fun _ s hs ↦ ⟨fun a ha ↦ (by cases ha; exact ⟨hs, rfl⟩), fun hnone ↦ (by cases hnone)⟩) h

theorem Sat.attempt {Q : Option α → σ → Prop} (h : Sat P m (fun a ↦ Q (some a)) (Q none)) :
    Sat P (Prog.attempt m) Q R := by
  intro n s hs
  obtain ⟨hok, herr⟩ := h n s hs
  refine ⟨fun a ha ↦ ?_, fun hnone ↦ (by cases hnone)⟩
  have hvalue : (m n s).1 = a := Option.some.inj ha
  cases a with
  | some a => exact hok a hvalue
  | none => exact herr hvalue

theorem Sat.rescue (hm : Sat P m Q R') (hcleanup : Sat R' cleanup (fun _ ↦ R) R) :
    Sat P (Prog.rescue m cleanup) Q R := by
  intro n s hs
  obtain ⟨hok, herr⟩ := hm n s hs
  unfold Prog.rescue
  cases hrun : m n s with
  | mk value rest =>
    rw [hrun] at hok herr
    cases value with
    | some a => exact ⟨hok, fun hnone ↦ (by cases hnone)⟩
    | none =>
      obtain ⟨hdone, hfail⟩ := hcleanup rest.1 rest.2 (herr rfl)
      refine ⟨fun a ha ↦ (by cases ha), fun _ ↦ ?_⟩
      cases hclean : (cleanup rest.1 rest.2).1 with
      | some a => exact hdone a hclean
      | none => exact hfail hclean

/-- A fact that does not depend on the state may be assumed from the precondition. -/
theorem Sat.assume {p : Prop} (h : p → Sat P m Q R) : Sat (fun s ↦ P s ∧ p) m Q R :=
  fun n s hs ↦ h hs.2 n s hs.1

/-- What every state before a program implies may be assumed. -/
theorem Sat.given {p : Prop} (hp : ∀ s, P s → p) (h : p → Sat P m Q R) : Sat P m Q R :=
  fun n s hs ↦ h (hp s hs) n s hs

theorem Sat.ite [Decidable c] (hpos : c → Sat P m₁ Q R) (hneg : ¬ c → Sat P m₂ Q R) :
    Sat P (if c then m₁ else m₂) Q R := by
  split_ifs with h
  · exact hpos h
  · exact hneg h

theorem Sat.when {c : Bool} {m : Prog σ Unit} {Q : Unit → σ → Prop}
    (hpos : c = true → Sat P m Q R) (hneg : c = false → ∀ s, P s → Q () s) :
    Sat P (Prog.when c m) Q R := by
  cases c with
  | false => exact Sat.pure (hneg rfl)
  | true => exact hpos rfl

/-- What every pass of a loop keeps holds after the loop. -/
theorem Sat.forEach {f : α → Prog σ Unit} {xs : List α}
    (h : ∀ x ∈ xs, Sat P (f x) (fun _ ↦ P) R) : Sat P (Prog.forEach f xs) (fun _ ↦ P) R := by
  induction xs with
  | nil => exact Sat.pure fun _ hs ↦ hs
  | cons x xs ih =>
    refine Sat.bind (h x List.mem_cons_self) fun _ ↦ ?_
    exact ih fun y hy ↦ h y (List.mem_cons_of_mem x hy)

/-- A loop whose precondition says what is left to do. -/
theorem Sat.forEachRest {f : α → Prog σ Unit} {P : List α → σ → Prop} {xs : List α}
    (h : ∀ y ys, Sat (P (y :: ys)) (f y) (fun _ ↦ P ys) R) :
    Sat (P xs) (Prog.forEach f xs) (fun _ ↦ P []) R := by
  induction xs with
  | nil => exact Sat.pure fun _ hs ↦ hs
  | cons y ys ih => exact Sat.bind (h y ys) fun _ ↦ ih

/-- To reason from a predicate, reason from each state that has it. -/
theorem Sat.ofEach (h : ∀ s, P s → Sat (fun t ↦ t = s) m Q R) : Sat P m Q R :=
  fun n s hs ↦ h s hs n s rfl

/-- A loop of updates is one update. -/
theorem forEach_update (g : α → σ → σ) (xs : List α) :
    Prog.forEach (fun x ↦ Prog.update (g x)) xs =
      Prog.update fun s ↦ xs.foldl (fun s x ↦ g x s) s := by
  induction xs with
  | nil => rfl
  | cons x xs ih =>
    funext n s
    show Prog.forEach (fun x ↦ Prog.update (g x)) xs n (g x s) = _
    rw [ih]
    rfl

/-- Two updates in a row are one. -/
theorem update_update (f g : σ → σ) :
    (Prog.update f >>= fun _ ↦ Prog.update g) = Prog.update fun s ↦ g (f s) := rfl

/-! ### Programs that only look -/

/-- The program leaves the state as it found it, on both exits. -/
def ReadOnly (m : Prog σ α) : Prop := ∀ n s, (m n s).2.2 = s

theorem ReadOnly.pure (a : α) : ReadOnly (Pure.pure a : Prog σ α) := fun _ _ ↦ rfl

theorem ReadOnly.raise : ReadOnly (Prog.raise : Prog σ α) := fun _ _ ↦ rfl

theorem ReadOnly.ask (answer : ℕ → Option α) : ReadOnly (Prog.ask answer : Prog σ α) :=
  fun _ _ ↦ rfl

theorem ReadOnly.ofOption (a : Option α) : ReadOnly (Prog.ofOption a : Prog σ α) := fun _ _ ↦ rfl

theorem ReadOnly.current : ReadOnly (Prog.current : Prog σ σ) := fun _ _ ↦ rfl

theorem ReadOnly.attempt (h : ReadOnly m) : ReadOnly (Prog.attempt m) := h

theorem ReadOnly.bind (hm : ReadOnly m) (hf : ∀ a, ReadOnly (f a)) : ReadOnly (m >>= f) := by
  intro n s
  have hs := hm n s
  cases hvalue : (m n s).1 with
  | some a =>
    rw [bind_of_some f hvalue, hf a, hs]
  | none =>
    rw [bind_of_none f hvalue]
    exact hs

theorem ReadOnly.ite [Decidable c] (hpos : ReadOnly m₁) (hneg : ReadOnly m₂) :
    ReadOnly (if c then m₁ else m₂) := by
  split_ifs
  · exact hpos
  · exact hneg

theorem ReadOnly.sat (h : ReadOnly m) : Sat P m (fun _ ↦ P) P := by
  intro n s hs
  rw [h n s]
  exact ⟨fun _ _ ↦ hs, fun _ ↦ hs⟩

/-! ### Programs that keep a predicate -/

/-- The predicate holds after the program when it held before, on both exits. -/
abbrev Keeps (P : σ → Prop) (m : Prog σ α) : Prop := Sat P m (fun _ ↦ P) P

theorem Keeps.bind (hm : Keeps P m) (hf : ∀ a, Keeps P (f a)) : Keeps P (m >>= f) :=
  Sat.bind hm hf

theorem Keeps.current {f : σ → Prog σ β} (hf : ∀ t, Keeps P (f t)) :
    Keeps P (Prog.current >>= f) :=
  Keeps.bind ReadOnly.current.sat hf

theorem Keeps.update {g : σ → σ} (h : ∀ s, P s → P (g s)) : Keeps P (Prog.update g) :=
  Sat.update h

theorem Keeps.attempt (h : Keeps P m) : Keeps P (Prog.attempt m) :=
  Sat.attempt h

theorem Keeps.rescue (hm : Keeps P m) (hcleanup : Keeps P cleanup) :
    Keeps P (Prog.rescue m cleanup) :=
  Sat.rescue hm hcleanup

/-! ### Facts about the returned value -/

/-- Whatever the program returns, from any state, has `Q`. -/
def Returns (m : Prog σ α) (Q : α → Prop) : Prop := ∀ n s a, (m n s).1 = some a → Q a

variable {A A' : α → Prop} {B : β → Prop}

theorem Returns.any (m : Prog σ α) : Returns m fun _ ↦ True := fun _ _ _ _ ↦ trivial

theorem Returns.mono (h : Returns m A) (himp : ∀ a, A a → A' a) : Returns m A' :=
  fun n s a ha ↦ himp a (h n s a ha)

theorem Returns.pure (h : A a) : Returns (Pure.pure a : Prog σ α) A := by
  intro n s b hb
  cases hb
  exact h

theorem Returns.bind (hm : Returns m A) (hf : ∀ a, A a → Returns (f a) B) :
    Returns (m >>= f) B := by
  intro n s b hb
  cases hvalue : (m n s).1 with
  | some a =>
    rw [bind_of_some f hvalue] at hb
    exact hf a (hm n s a hvalue) _ _ b hb
  | none =>
    rw [bind_of_none f hvalue] at hb
    cases hb

/-- The value of a step may be anything. -/
theorem Returns.skip (hf : ∀ a, Returns (f a) B) : Returns (m >>= f) B :=
  Returns.bind (Returns.any m) fun a _ ↦ hf a

theorem Returns.ask {answer : ℕ → Option α} (h : ∀ n a, answer n = some a → A a) :
    Returns (Prog.ask answer : Prog σ α) A :=
  fun n _ a ha ↦ h n a ha

theorem Returns.ofOption {v : Option α} (h : ∀ a, v = some a → A a) :
    Returns (Prog.ofOption v : Prog σ α) A :=
  fun _ _ a ha ↦ h a ha

theorem Returns.ite [Decidable c] (hpos : c → Returns m₁ A) (hneg : ¬ c → Returns m₂ A) :
    Returns (if c then m₁ else m₂) A := by
  split_ifs with h
  · exact hpos h
  · exact hneg h

theorem Returns.attempt (h : Returns m A) :
    Returns (Prog.attempt m) fun a ↦ ∀ x, a = some x → A x := by
  intro n s a ha x hx
  have hvalue : (m n s).1 = a := Option.some.inj ha
  exact h n s x (hvalue.trans hx)

theorem Returns.rescue (hm : Returns m A) : Returns (Prog.rescue m cleanup) A := by
  intro n s a ha
  unfold Prog.rescue at ha
  cases hrun : m n s with
  | mk value rest =>
    rw [hrun] at ha
    cases value with
    | some b => exact hm n s a (by rw [hrun]; exact ha)
    | none => cases ha

/-- What a program returns may be used in what follows. -/
theorem Sat.returned (h : Sat P m Q R) (hA : Returns m A) :
    Sat P m (fun a s ↦ Q a s ∧ A a) R :=
  fun n s hs ↦ ⟨fun a ha ↦ ⟨(h n s hs).1 a ha, hA n s a ha⟩, (h n s hs).2⟩

theorem Returns.sat (h : Returns m A) : Sat P m (fun a _ ↦ A a) fun _ ↦ True :=
  fun n s _ ↦ ⟨fun a ha ↦ h n s a ha, fun _ ↦ trivial⟩

end Prog

end Jamswap.Library
