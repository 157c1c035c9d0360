import Mathlib.Data.List.Nodup
import Mathlib.Data.List.Induction

/-!
# Dictionaries in insertion order

A `Dict` holds at most one value for each key. Setting a key that is there replaces its value where
it stands, setting a new one appends it. How many values have a property changes only by the value
of the key that is set or erased (`countP_set`, `countP_erase`).

`group` collects a log under the keys of its entries: the value of a key is its `history`.
-/

namespace Jamswap.Library

structure Dict (κ ν : Type*) where
  entries : List (κ × ν)
  nodup : (entries.map Prod.fst).Nodup

namespace Dict

variable {κ ν : Type*}

def empty : Dict κ ν := ⟨[], List.nodup_nil⟩

def values (d : Dict κ ν) : List ν := d.entries.map Prod.snd

/-- How many values have the property. -/
def countP (p : ν → Bool) (d : Dict κ ν) : ℕ := d.values.countP p

/-- One for a value with the property, none for another or for no value. -/
def hits (p : ν → Bool) (v : Option ν) : ℕ := if v.any p then 1 else 0

@[simp]
theorem hits_none (p : ν → Bool) : hits p none = 0 := rfl

@[simp]
theorem hits_some (p : ν → Bool) (v : ν) : hits p (some v) = if p v then 1 else 0 := rfl

theorem hits_some_inj {μ : Type*} {p : ν → Bool} {q : μ → Bool} {v : ν} {w : μ} :
    hits p (some v) = hits q (some w) ↔ p v = q w := by
  rw [hits_some, hits_some]
  cases p v <;> cases q w <;> simp

variable [DecidableEq κ]

def get? (d : Dict κ ν) (k : κ) : Option ν := (d.entries.find? (·.1 = k)).map Prod.snd

theorem keys_replaced (l : List (κ × ν)) (k : κ) (v : ν) :
    (l.map fun e ↦ if e.1 = k then (k, v) else e).map Prod.fst = l.map Prod.fst := by
  rw [List.map_map]
  refine List.map_congr_left fun e _ ↦ ?_
  dsimp only [Function.comp_apply]
  split_ifs with h
  · exact h.symm
  · rfl

def set (d : Dict κ ν) (k : κ) (v : ν) : Dict κ ν :=
  if h : k ∈ d.entries.map Prod.fst then
    ⟨d.entries.map fun e ↦ if e.1 = k then (k, v) else e, by rw [keys_replaced]; exact d.nodup⟩
  else
    ⟨d.entries ++ [(k, v)], by
      rw [List.map_append]
      exact List.nodup_append'.2 ⟨d.nodup, List.nodup_singleton k, by simpa using h⟩⟩

def erase (d : Dict κ ν) (k : κ) : Dict κ ν :=
  ⟨d.entries.filter (·.1 ≠ k), d.nodup.sublist (List.filter_sublist.map _)⟩

theorem entries_erase (d : Dict κ ν) (k : κ) :
    (d.erase k).entries = d.entries.filter (·.1 ≠ k) :=
  rfl

theorem get?_eq_none_iff (d : Dict κ ν) (k : κ) :
    d.get? k = none ↔ k ∉ d.entries.map Prod.fst := by
  rw [get?, Option.map_eq_none_iff, List.find?_eq_none, List.mem_map]
  constructor
  · rintro h ⟨e, he, hek⟩
    exact h e he (decide_eq_true hek)
  · intro h e he hek
    exact h ⟨e, he, of_decide_eq_true hek⟩

variable {d : Dict κ ν} {k : κ} {l : List (κ × ν)}

/-- The entry of a key, and no other of that key on either side. -/
theorem exists_split {v : ν} (h : d.get? k = some v) :
    ∃ l r, d.entries = l ++ (k, v) :: r ∧ k ∉ l.map Prod.fst ∧ k ∉ r.map Prod.fst := by
  obtain ⟨⟨k', v'⟩, hfind, rfl⟩ := Option.map_eq_some_iff.1 h
  obtain ⟨hk, l, r, heq, hl⟩ := List.find?_eq_some_iff_append.1 hfind
  obtain rfl : k' = k := by simpa using hk
  refine ⟨l, r, heq, ?_, ?_⟩
  · rw [List.mem_map]
    rintro ⟨e, he, hek⟩
    simpa [hek] using hl e he
  · have hnodup := d.nodup
    rw [heq, List.map_append, List.map_cons] at hnodup
    exact (List.nodup_cons.1 (List.nodup_append'.1 hnodup).2.1).1

theorem replaced_of_notMem (v : ν) (h : k ∉ l.map Prod.fst) :
    (l.map fun e ↦ if e.1 = k then (k, v) else e) = l := by
  calc (l.map fun e ↦ if e.1 = k then (k, v) else e) = l.map id := by
        refine List.map_congr_left fun e he ↦ if_neg fun hek ↦ ?_
        exact h (hek ▸ List.mem_map_of_mem he)
    _ = l := List.map_id l

theorem entries_set_of_none (h : d.get? k = none) (v : ν) :
    (d.set k v).entries = d.entries ++ [(k, v)] := by
  rw [set, dif_neg ((get?_eq_none_iff d k).1 h)]

theorem entries_set_of_split {w : ν} {r : List (κ × ν)} (h : d.entries = l ++ (k, w) :: r)
    (hl : k ∉ l.map Prod.fst) (hr : k ∉ r.map Prod.fst) (v : ν) :
    (d.set k v).entries = l ++ (k, v) :: r := by
  have hk : k ∈ d.entries.map Prod.fst := by simp [h]
  rw [set, dif_pos hk]
  dsimp only
  rw [h, List.map_append, List.map_cons, if_pos rfl, replaced_of_notMem v hl,
    replaced_of_notMem v hr]

theorem find?_of_notMem (h : k ∉ l.map Prod.fst) : l.find? (·.1 = k) = none := by
  rw [List.find?_eq_none]
  intro e he hek
  exact h (of_decide_eq_true hek ▸ List.mem_map_of_mem he)

theorem get?_set (d : Dict κ ν) (k k' : κ) (v : ν) :
    (d.set k v).get? k' = if k' = k then some v else d.get? k' := by
  cases hk : d.get? k with
  | none =>
    have hfind := find?_of_notMem ((get?_eq_none_iff d k).1 hk)
    rw [get?, entries_set_of_none hk, List.find?_append]
    split_ifs with heq
    · rw [heq, hfind]
      simp
    · simp [get?, Ne.symm heq]
  | some w =>
    obtain ⟨l, r, hsplit, hl, hr⟩ := exists_split hk
    rw [get?, entries_set_of_split hsplit hl hr, get?, hsplit, List.find?_append,
      List.find?_append, List.find?_cons, List.find?_cons]
    split_ifs with heq
    · rw [heq, find?_of_notMem hl]
      simp
    · simp [Ne.symm heq]

theorem get?_set_self (d : Dict κ ν) (k : κ) (v : ν) : (d.set k v).get? k = some v := by
  rw [get?_set, if_pos rfl]

theorem get?_set_of_ne (d : Dict κ ν) {k' : κ} (v : ν) (h : k' ≠ k) :
    (d.set k v).get? k' = d.get? k' := by
  rw [get?_set, if_neg h]

theorem get?_erase_self (d : Dict κ ν) (k : κ) : (d.erase k).get? k = none := by
  rw [get?_eq_none_iff, List.mem_map]
  rintro ⟨e, he, hek⟩
  exact of_decide_eq_true (List.mem_filter.1 he).2 hek

theorem get?_erase_of_ne (d : Dict κ ν) {k' : κ} (h : k' ≠ k) :
    (d.erase k).get? k' = d.get? k' := by
  rw [get?, get?, entries_erase, List.find?_filter]
  congr 2
  funext e
  by_cases he : e.1 = k'
  · simp [he, h]
  · simp [he]

theorem countP_set (p : ν → Bool) (d : Dict κ ν) (k : κ) (v : ν) :
    (d.set k v).countP p + hits p (d.get? k) = d.countP p + hits p (some v) := by
  cases hk : d.get? k with
  | none =>
    rw [countP, values, entries_set_of_none hk, List.map_append, List.countP_append]
    simp [countP, values, List.countP_cons]
  | some w =>
    obtain ⟨l, r, hsplit, hl, hr⟩ := exists_split hk
    rw [countP, values, entries_set_of_split hsplit hl hr, countP, values, hsplit]
    simp only [List.map_append, List.map_cons, List.countP_append, List.countP_cons, hits_some]
    omega

theorem countP_erase (p : ν → Bool) (d : Dict κ ν) (k : κ) :
    (d.erase k).countP p + hits p (d.get? k) = d.countP p := by
  have hkeep : ∀ l : List (κ × ν), k ∉ l.map Prod.fst → l.filter (·.1 ≠ k) = l := by
    intro l hl
    rw [List.filter_eq_self]
    intro e he
    exact decide_eq_true fun hek ↦ hl (hek ▸ List.mem_map_of_mem he)
  cases hk : d.get? k with
  | none =>
    rw [countP, values, entries_erase, hkeep _ ((get?_eq_none_iff d k).1 hk)]
    rfl
  | some w =>
    obtain ⟨l, r, hsplit, hl, hr⟩ := exists_split hk
    have herase : (d.erase k).entries = l ++ r := by
      rw [entries_erase, hsplit, List.filter_append, hkeep l hl, List.filter_cons_of_neg (by simp),
        hkeep r hr]
    rw [countP, values, herase, countP, values, hsplit]
    simp only [List.map_append, List.map_cons, List.countP_append, List.countP_cons, hits_some]
    omega

/-! ### A log by key -/

section Group

variable {ε : Type*} (key : ε → κ)

/-- The entries of one key, in the order of the log. -/
def history (log : List ε) (k : κ) : List ε := log.filter (key · = k)

/-- Put an entry under its key. -/
def append (d : Dict κ (List ε)) (e : ε) : Dict κ (List ε) :=
  d.set (key e) ((d.get? (key e)).getD [] ++ [e])

def group (log : List ε) : Dict κ (List ε) := log.foldl (append key) empty

theorem history_concat_self (log : List ε) (e : ε) :
    history key (log ++ [e]) (key e) = history key log (key e) ++ [e] := by
  simp [history]

theorem history_concat_of_ne (log : List ε) {e : ε} (h : k ≠ key e) :
    history key (log ++ [e]) k = history key log k := by
  simp [history, h.symm]

theorem group_concat (log : List ε) (e : ε) :
    group key (log ++ [e]) = append key (group key log) e := by
  rw [group, List.foldl_append]
  rfl

/-- The group of a key is its history; a key without one has no entry in the log. -/
theorem getD_get?_group (log : List ε) (k : κ) :
    ((group key log).get? k).getD [] = history key log k := by
  induction log using List.reverseRecOn with
  | nil => rfl
  | append_singleton log e ih =>
    rw [group_concat, append]
    by_cases hk : k = key e
    · subst hk
      rw [get?_set_self, history_concat_self, ih]
      rfl
    · rw [get?_set_of_ne _ _ hk, history_concat_of_ne key log hk, ih]

/-- One more entry moves the count by the group of its key, before and after. -/
theorem countP_group_concat (p : List ε → Bool) (hp : p [] = false) (log : List ε) (e : ε) :
    (group key (log ++ [e])).countP p + hits p (some (history key log (key e))) =
      (group key log).countP p + hits p (some (history key log (key e) ++ [e])) := by
  have hhits : hits p ((group key log).get? (key e)) =
      hits p (some (history key log (key e))) := by
    rw [← getD_get?_group]
    cases (group key log).get? (key e) with
    | none => simp [hp]
    | some es => rfl
  rw [group_concat, append, getD_get?_group, ← hhits]
  exact countP_set p _ _ _

end Group

end Dict

end Jamswap.Library
