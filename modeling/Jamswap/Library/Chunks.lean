import Jamswap.Library.Bytes

/-!
# Input that arrives in chunks

An input is a buffer and the chunks that further reads will bring. `Advances s xs s'` says that
between the two states exactly `xs` was taken off the front: the chunks read in between, behind the
old buffer, are `xs` and the new buffer. How the stream was cut into chunks does not show. `Ready s
xs` says that `xs` comes next and that no read brings nothing.
-/

namespace Jamswap.Library

/-- A buffer, and the chunks that further reads bring. -/
structure Input (σ : Type) where
  buf : List σ
  reads : List (List σ)
  deriving DecidableEq, Repr

namespace Input

variable {σ : Type} {s s' s'' : Input σ} {xs ys : List σ}

/-- Everything still to be taken. -/
def pending (s : Input σ) : List σ := s.buf ++ s.reads.flatten

/-- From `s` to `s'` exactly `xs` was taken. -/
def Advances (s : Input σ) (xs : List σ) (s' : Input σ) : Prop :=
  ∃ brought, s.reads = brought ++ s'.reads ∧ s.buf ++ brought.flatten = xs ++ s'.buf

theorem Advances.refl (s : Input σ) : Advances s [] s :=
  ⟨[], rfl, by rw [List.flatten_nil, List.append_nil, List.nil_append]⟩

theorem Advances.trans (h : Advances s xs s') (h' : Advances s' ys s'') :
    Advances s (xs ++ ys) s'' := by
  obtain ⟨first, hreads, hbuf⟩ := h
  obtain ⟨second, hreads', hbuf'⟩ := h'
  refine ⟨first ++ second, by rw [hreads, hreads', List.append_assoc], ?_⟩
  rw [List.flatten_append, ← List.append_assoc, hbuf, List.append_assoc, hbuf', List.append_assoc]

theorem Advances.pending_eq (h : Advances s xs s') : s.pending = xs ++ s'.pending := by
  obtain ⟨brought, hreads, hbuf⟩ := h
  rw [pending, hreads, List.flatten_append, ← List.append_assoc, hbuf, pending, List.append_assoc]

/-- Taking a part of what the buffer holds. -/
theorem advances_drop (s : Input σ) (n : ℕ) :
    Advances s (s.buf.take n) ⟨s.buf.drop n, s.reads⟩ :=
  ⟨[], rfl, by rw [List.flatten_nil, List.append_nil, List.take_append_drop]⟩

/-- A read takes nothing. -/
theorem advances_read {chunk : List σ} {rest : List (List σ)} (h : s.reads = chunk :: rest) :
    Advances s [] ⟨s.buf ++ chunk, rest⟩ :=
  ⟨[chunk], h, by rw [List.flatten_singleton, List.nil_append]⟩

/-- No read brings nothing, and `xs` comes next. -/
structure Ready (s : Input σ) (xs : List σ) : Prop where
  nonempty : ∀ chunk ∈ s.reads, chunk ≠ []
  next : xs <+: s.pending

theorem Ready.left (h : Ready s (xs ++ ys)) : Ready s xs :=
  ⟨h.nonempty, (List.prefix_append xs ys).trans h.next⟩

theorem Ready.advance (h : Ready s (xs ++ ys)) (ha : Advances s xs s') : Ready s' ys := by
  refine ⟨?_, ?_⟩
  · obtain ⟨brought, hreads, -⟩ := ha
    intro chunk hchunk
    exact h.nonempty chunk (by rw [hreads]; exact List.mem_append_right _ hchunk)
  · have hnext := h.next
    rw [ha.pending_eq] at hnext
    exact (List.prefix_append_right_inj xs).mp hnext

theorem Ready.keep (h : Ready s xs) (ha : Advances s [] s') : Ready s' xs := by
  have hnext : Ready s ([] ++ xs) := h
  exact hnext.advance ha

/-- What the buffer holds is the front of what comes next. -/
theorem Ready.take_buf (h : Ready s xs) (hlen : xs.length ≤ s.buf.length) :
    s.buf.take xs.length = xs := by
  obtain ⟨after, hafter⟩ := h.next
  have htake := congrArg (List.take xs.length) hafter
  rw [pending, List.take_left, List.take_append_of_le_length hlen] at htake
  exact htake.symm

end Input

end Jamswap.Library
