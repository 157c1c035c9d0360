import Mathlib.Data.Finset.Max
import Mathlib.Data.List.GetD
import Mathlib.Data.List.Sort
import Mathlib.Data.List.TakeWhile

/-!
# Remembering the largest values

To refuse a value seen before without keeping all of them, keep the `k` largest in ascending order
(`topWindow`) and the next one below as a floor (`topFloor`). A value above the floor and outside
the window is new, and every new value with at most `k` larger ones passes that test
(`above_floor_iff`). Inserting it into the window, and moving the smallest of more than `k` values
to the floor, gives the window and the floor of the values with it added (`topWindow_cons`,
`topFloor_cons`).
-/

namespace Jamswap.Library

variable {α : Type*} [LinearOrder α]

/-- The values from the largest down. -/
def descending (xs : List α) : List α := xs.insertionSort (· ≥ ·)

/-- The `k` largest values, ascending. -/
def topWindow (k : ℕ) (xs : List α) : List α := ((descending xs).take k).reverse

/-- The largest value below the window, or `z` when the window holds all of them. -/
def topFloor (k : ℕ) (z : α) (xs : List α) : α := (descending xs).getD k z

variable {k : ℕ} {z n : α} {xs : List α}

theorem mem_descending : n ∈ descending xs ↔ n ∈ xs := (List.perm_insertionSort _ xs).mem_iff

theorem pairwise_descending (xs : List α) : (descending xs).Pairwise (· ≥ ·) :=
  List.pairwise_insertionSort _ xs

theorem topFloor_eq_getElem (h : k < (descending xs).length) :
    topFloor k z xs = (descending xs)[k] := List.getD_eq_getElem _ _ h

theorem topFloor_of_length_le (h : (descending xs).length ≤ k) : topFloor k z xs = z :=
  List.getD_eq_default _ _ h

/-- Everything below the window is at most the floor. -/
theorem le_topFloor_of_mem_drop (h : n ∈ (descending xs).drop k) : n ≤ topFloor k z xs := by
  obtain ⟨i, hi, rfl⟩ := List.mem_iff_getElem.mp h
  rw [List.length_drop] at hi
  have hk : k < (descending xs).length := by omega
  rw [topFloor_eq_getElem hk, List.getElem_drop]
  rcases Nat.eq_zero_or_pos i with rfl | hpos
  · exact le_refl _
  · exact List.pairwise_iff_getElem.mp (pairwise_descending xs) k (k + i) hk (by omega) (by omega)

/-- Everything in the window is at least as large as what is below it. -/
theorem le_of_mem_take (hk : k < (descending xs).length) (h : n ∈ (descending xs).take (k + 1)) :
    (descending xs)[k] ≤ n := by
  obtain ⟨i, hi, rfl⟩ := List.mem_iff_getElem.mp h
  rw [List.length_take] at hi
  rw [List.getElem_take]
  rcases Nat.lt_or_ge i k with hlt | hge
  · exact List.pairwise_iff_getElem.mp (pairwise_descending xs) i k (by omega) hk hlt
  · obtain rfl : i = k := by omega
    exact le_refl _

/-- More than `k` values are larger than `n` exactly when the `k`-th below the largest is. -/
theorem lt_countP_iff :
    k < xs.countP (n < ·) ↔ ∃ h : k < (descending xs).length, n < (descending xs)[k] := by
  rw [← (List.perm_insertionSort (· ≥ ·) xs).countP_eq]
  change k < (descending xs).countP (n < ·) ↔ _
  constructor
  · intro hcount
    have hk : k < (descending xs).length := hcount.trans_le List.countP_le_length
    refine ⟨hk, ?_⟩
    by_contra hle
    have hdrop : ((descending xs).drop k).countP (n < ·) = 0 := by
      refine List.countP_eq_zero.mpr fun m hm hlt ↦ ?_
      have hfloor := le_topFloor_of_mem_drop (z := n) hm
      rw [topFloor_eq_getElem hk] at hfloor
      exact hle ((of_decide_eq_true hlt).trans_le hfloor)
    rw [← List.take_append_drop k (descending xs), List.countP_append, hdrop] at hcount
    have htake := List.countP_le_length (p := (n < ·)) (l := (descending xs).take k)
    rw [List.length_take] at htake
    omega
  · rintro ⟨hk, hlt⟩
    have htake : ((descending xs).take (k + 1)).countP (n < ·) = k + 1 := by
      rw [List.countP_eq_length.mpr fun m hm ↦ decide_eq_true (hlt.trans_le (le_of_mem_take hk hm)),
        List.length_take]
      omega
    rw [← List.take_append_drop (k + 1) (descending xs), List.countP_append, htake]
    omega

/-- A value passes the test of floor and window exactly when it is new and at most `k` values are
larger. -/
theorem above_floor_iff (hz : z < n) :
    topFloor k z xs < n ∧ n ∉ topWindow k xs ↔ n ∉ xs ∧ xs.countP (n < ·) ≤ k := by
  rw [← Nat.not_lt, lt_countP_iff, topWindow, List.mem_reverse]
  constructor
  · rintro ⟨hfloor, hwindow⟩
    refine ⟨fun hmem ↦ ?_, fun ⟨hk, hlt⟩ ↦ ?_⟩
    · rw [← mem_descending, ← List.take_append_drop k (descending xs), List.mem_append] at hmem
      rcases hmem with htake | hdrop
      · exact hwindow htake
      · exact absurd hfloor (not_lt_of_ge (le_topFloor_of_mem_drop hdrop))
    · rw [topFloor_eq_getElem hk] at hfloor
      exact lt_asymm hfloor hlt
  · rintro ⟨hnew, hcount⟩
    refine ⟨?_, fun hmem ↦ hnew (mem_descending.mp (List.mem_of_mem_take hmem))⟩
    rcases Nat.lt_or_ge k (descending xs).length with hk | hk
    · rw [topFloor_eq_getElem hk]
      refine lt_of_le_of_ne (not_lt.mp fun hlt ↦ hcount ⟨hk, hlt⟩) ?_
      rintro rfl
      exact hnew (mem_descending.mp (List.getElem_mem hk))
    · rwa [topFloor_of_length_le hk]

/-! ### Adding a value -/

theorem orderedInsert_append_of_lt (n : α) (xs : List α) {ys : List α} (h : ∀ y ∈ ys, y < n) :
    (xs ++ ys).orderedInsert (· ≥ ·) n = xs.orderedInsert (· ≥ ·) n ++ ys := by
  induction xs with
  | nil =>
    cases ys with
    | nil => rfl
    | cons y ys =>
      rw [List.nil_append, List.orderedInsert_cons, if_pos (h y List.mem_cons_self).le]
      rfl
  | cons x xs ih =>
    rw [List.cons_append, List.orderedInsert_cons, List.orderedInsert_cons, ih]
    split_ifs
    · rfl
    · rfl

/-- Inserting a new value downwards or upwards is the same. -/
theorem reverse_orderedInsert (hsorted : xs.Pairwise (· ≥ ·)) (hnew : n ∉ xs) :
    (xs.orderedInsert (· ≥ ·) n).reverse = xs.reverse.orderedInsert (· < ·) n := by
  have hstrict : ∀ ys : List α, n ∉ ys →
      ys.orderedInsert (· < ·) n = ys.orderedInsert (· ≤ ·) n := by
    intro ys hys
    induction ys with
    | nil => rfl
    | cons y ys ih =>
      rw [List.mem_cons, not_or] at hys
      simp only [List.orderedInsert_cons, le_iff_lt_or_eq, hys.1, or_false, ih hys.2]
  rw [hstrict _ (by rwa [List.mem_reverse])]
  refine List.Perm.eq_of_pairwise (fun a b _ _ ↦ le_antisymm) ?_ ?_ ?_
  · rw [List.pairwise_reverse]
    exact hsorted.orderedInsert n xs
  · exact List.Pairwise.orderedInsert n _ (List.pairwise_reverse.mpr hsorted)
  · exact (List.reverse_perm _).trans ((List.perm_orderedInsert _ n xs).trans
      (((List.reverse_perm xs).symm.cons n).trans (List.perm_orderedInsert _ n _).symm))

/-- The values with a new one above the floor, largest first: it joins the window. -/
theorem descending_cons (hfloor : topFloor k z xs < n) :
    descending (n :: xs) =
      ((descending xs).take k).orderedInsert (· ≥ ·) n ++ (descending xs).drop k := by
  conv_lhs => rw [descending, List.insertionSort_cons, ← descending,
    ← List.take_append_drop k (descending xs)]
  exact orderedInsert_append_of_lt n _ fun y hy ↦ (le_topFloor_of_mem_drop hy).trans_lt hfloor

section Insert

variable (hnew : n ∉ xs) (hfloor : topFloor k z xs < n)

include hnew in
theorem orderedInsert_topWindow :
    (topWindow k xs).orderedInsert (· < ·) n =
      (((descending xs).take k).orderedInsert (· ≥ ·) n).reverse :=
  (reverse_orderedInsert ((pairwise_descending xs).sublist (List.take_sublist _ _)) fun hmem ↦
    hnew (mem_descending.mp (List.mem_of_mem_take hmem))).symm

theorem length_orderedInsert_take (k : ℕ) (n : α) (xs : List α) :
    (((descending xs).take k).orderedInsert (· ≥ ·) n).length =
      min k (descending xs).length + 1 := by
  rw [List.orderedInsert_length, List.length_take]

include hnew hfloor

theorem topWindow_cons :
    topWindow k (n :: xs) =
      if k < ((topWindow k xs).orderedInsert (· < ·) n).length then
        ((topWindow k xs).orderedInsert (· < ·) n).tail
      else (topWindow k xs).orderedInsert (· < ·) n := by
  rw [orderedInsert_topWindow hnew, topWindow, descending_cons hfloor]
  have hlength := length_orderedInsert_take k n xs
  set joined := ((descending xs).take k).orderedInsert (· ≥ ·) n
  rw [List.length_reverse]
  split_ifs with hfull
  · rw [List.tail_reverse, List.dropLast_eq_take, List.take_append_of_le_length (by omega)]
    congr 2
    omega
  · have hdrop : (descending xs).drop k = [] := List.drop_eq_nil_of_le (by omega)
    rw [hdrop, List.append_nil, List.take_of_length_le (by omega)]

theorem topFloor_cons :
    topFloor k z (n :: xs) =
      if k < ((topWindow k xs).orderedInsert (· < ·) n).length then
        ((topWindow k xs).orderedInsert (· < ·) n).headD (topFloor k z xs)
      else topFloor k z xs := by
  rw [orderedInsert_topWindow hnew, topFloor, descending_cons hfloor]
  have hlength := length_orderedInsert_take k n xs
  set joined := ((descending xs).take k).orderedInsert (· ≥ ·) n
  rw [List.length_reverse]
  split_ifs with hfull
  · have hlast : joined.length - 1 = k := by omega
    rw [List.getD_append _ _ _ _ hfull, List.getD_eq_getElem _ _ hfull, List.headD_eq_head?_getD,
      List.head?_reverse, List.getLast?_eq_getElem?, hlast, List.getElem?_eq_getElem hfull,
      Option.getD_some]
  · have hdrop : (descending xs).drop k = [] := List.drop_eq_nil_of_le (by omega)
    rw [hdrop, List.append_nil, List.getD_eq_default _ _ (by omega),
      topFloor_of_length_le (by omega)]

end Insert

/-! ### Offering values one after the other

A value is taken when it passes the test against those taken before it. Which ones were taken can be
read off the offers: a value is taken exactly when it was offered before `k + 1` different larger
ones were (`mem_taken_iff`). -/

/-- The values taken from a list of offers, the last taken first: those above `z` that are new and
have at most `k` larger ones among the taken. -/
def taken (k : ℕ) (z : α) (offers : List α) : List α :=
  offers.foldl (fun seen n ↦
    if z < n ∧ n ∉ seen ∧ seen.countP (n < ·) ≤ k then n :: seen else seen) []

/-- How many different larger values are offered. -/
def largerOffers (n : α) (offers : List α) : ℕ := (offers.toFinset.filter (n < ·)).card

section Offers

variable {offers more : List α}

theorem taken_concat (k : ℕ) (z : α) (offers : List α) (n : α) :
    taken k z (offers ++ [n]) =
      if z < n ∧ n ∉ taken k z offers ∧ (taken k z offers).countP (n < ·) ≤ k then
        n :: taken k z offers
      else taken k z offers := by
  rw [taken, List.foldl_append, List.foldl_cons, List.foldl_nil, ← taken]

theorem taken_suffix (k : ℕ) (z : α) (offers more : List α) :
    taken k z offers <:+ taken k z (offers ++ more) := by
  induction more using List.reverseRecOn with
  | nil =>
    rw [List.append_nil]
  | append_singleton more n ih =>
    rw [← List.append_assoc, taken_concat]
    split_ifs
    · exact ih.trans (List.suffix_cons _ _)
    · exact ih

theorem mem_of_mem_taken (h : n ∈ taken k z offers) : z < n ∧ n ∈ offers := by
  induction offers using List.reverseRecOn with
  | nil => cases h
  | append_singleton offers m ih =>
    rw [taken_concat] at h
    rw [List.mem_append, List.mem_singleton]
    split_ifs at h with hpass
    · rcases List.mem_cons.mp h with rfl | hold
      · exact ⟨hpass.1, Or.inr rfl⟩
      · exact ⟨(ih hold).1, Or.inl (ih hold).2⟩
    · exact ⟨(ih h).1, Or.inl (ih h).2⟩

theorem taken_eq_nil_iff : taken k z offers = [] ↔ ∀ n ∈ offers, ¬ z < n := by
  induction offers using List.reverseRecOn with
  | nil => simp [taken]
  | append_singleton offers n ih =>
    rw [taken_concat]
    constructor
    · intro hnil m hm
      split_ifs at hnil with hpass
      rcases List.mem_append.mp hm with hold | hnew
      · exact ih.mp hnil m hold
      · intro hz
        rw [List.mem_singleton.mp hnew] at hz
        exact hpass ⟨hz, by simp [hnil], by simp [hnil]⟩
    · intro hnone
      rw [if_neg fun hpass ↦ hnone n (by simp) hpass.1]
      exact ih.mpr fun m hm ↦ hnone m (List.mem_append_left _ hm)

theorem nodup_taken (k : ℕ) (z : α) (offers : List α) : (taken k z offers).Nodup := by
  induction offers using List.reverseRecOn with
  | nil => exact List.nodup_nil
  | append_singleton offers m ih =>
    rw [taken_concat]
    split_ifs with hpass
    · exact List.nodup_cons.mpr ⟨hpass.2.1, ih⟩
    · exact ih

theorem countP_taken (k : ℕ) (z : α) (offers : List α) (n : α) :
    (taken k z offers).countP (n < ·) = largerOffers n (taken k z offers) := by
  have hfilter : (taken k z offers).toFinset.filter (n < ·) =
      ((taken k z offers).filter (n < ·)).toFinset := by
    ext m
    simp
  rw [largerOffers, hfilter, List.toFinset_card_of_nodup ((nodup_taken k z offers).filter _),
    List.countP_eq_length_filter]

theorem largerOffers_mono (h : offers ⊆ more) : largerOffers n offers ≤ largerOffers n more := by
  refine Finset.card_le_card (Finset.filter_subset_filter _ fun m hm ↦ ?_)
  exact List.mem_toFinset.mpr (h (List.mem_toFinset.mp hm))

/-- An offer with few larger ones is taken, whatever the order of the offers. -/
theorem mem_taken_of_largerOffers (hz : z < n) (hmem : n ∈ offers)
    (hfew : largerOffers n offers ≤ k) : n ∈ taken k z offers := by
  obtain ⟨before, after, rfl⟩ := List.append_of_mem hmem
  have hstep : n ∈ taken k z (before ++ [n]) := by
    rw [taken_concat]
    split_ifs with hpass
    · exact List.mem_cons_self
    · by_contra hnew
      refine hpass ⟨hz, hnew, ?_⟩
      rw [countP_taken]
      refine (largerOffers_mono fun m hm ↦ ?_).trans hfew
      exact List.mem_append_left _ (mem_of_mem_taken hm).2
  have hgrown := (taken_suffix k z (before ++ [n]) after).subset hstep
  rwa [List.append_assoc] at hgrown

/-- The values taken tell whether at most `k` different larger ones were offered. -/
theorem countP_taken_le_iff (hz : z ≤ n) :
    (taken k z offers).countP (n < ·) ≤ k ↔ largerOffers n offers ≤ k := by
  rw [countP_taken]
  constructor
  · intro hfew
    by_contra hmany
    -- the largest offer above `n` that was not taken would have been
    let missed := (offers.toFinset.filter (n < ·)).filter (· ∉ taken k z offers)
    have hmissed : missed.Nonempty := by
      by_contra hnone
      refine hmany ((Finset.card_le_card fun m hm ↦ ?_).trans hfew)
      have htaken : m ∈ taken k z offers := by
        by_contra hnot
        exact hnone ⟨m, Finset.mem_filter.mpr ⟨hm, hnot⟩⟩
      exact Finset.mem_filter.mpr
        ⟨List.mem_toFinset.mpr htaken, (Finset.mem_filter.mp hm).2⟩
    obtain ⟨hoffered, hnot⟩ := Finset.mem_filter.mp (missed.max'_mem hmissed)
    obtain ⟨hin, habove⟩ := Finset.mem_filter.mp hoffered
    refine hnot (mem_taken_of_largerOffers (hz.trans_lt habove) (List.mem_toFinset.mp hin)
      ((Finset.card_le_card fun m hm ↦ ?_).trans hfew))
    obtain ⟨hm, hlarger⟩ := Finset.mem_filter.mp hm
    refine Finset.mem_filter.mpr ⟨List.mem_toFinset.mpr ?_, habove.trans hlarger⟩
    by_contra hmnot
    have hle := missed.le_max' m
      (Finset.mem_filter.mpr ⟨Finset.mem_filter.mpr ⟨hm, habove.trans hlarger⟩, hmnot⟩)
    exact absurd hlarger (not_lt_of_ge hle)
  · exact fun hfew ↦ (largerOffers_mono fun m hm ↦ (mem_of_mem_taken hm).2).trans hfew

/-- A value outside the window's reach stays there. -/
theorem notMem_taken_append (hnew : n ∉ taken k z offers)
    (hmany : k < (taken k z offers).countP (n < ·)) (more : List α) :
    n ∉ taken k z (offers ++ more) := by
  induction more using List.reverseRecOn with
  | nil => rwa [List.append_nil]
  | append_singleton more m ih =>
    rw [← List.append_assoc, taken_concat]
    split_ifs with hpass
    · rw [List.mem_cons, not_or]
      refine ⟨?_, ih⟩
      rintro rfl
      exact absurd (hpass.2.2.trans_lt hmany)
        (not_lt_of_ge ((taken_suffix k z offers more).sublist.countP_le))
    · exact ih

theorem mem_taken_iff (hz : z < n) :
    n ∈ taken k z offers ↔ n ∈ offers ∧ largerOffers n (offers.takeWhile (· ≠ n)) ≤ k := by
  have hfirst : n ∉ taken k z (offers.takeWhile (· ≠ n)) := by
    intro hmem
    have hne := List.mem_takeWhile_imp (mem_of_mem_taken hmem).2
    exact absurd rfl (of_decide_eq_true hne)
  constructor
  · intro hmem
    refine ⟨(mem_of_mem_taken hmem).2, ?_⟩
    by_contra hmany
    rw [← countP_taken_le_iff hz.le, not_le] at hmany
    have hnever := notMem_taken_append hfirst hmany (offers.dropWhile (· ≠ n))
    rw [List.takeWhile_append_dropWhile] at hnever
    exact hnever hmem
  · rintro ⟨hmem, hfew⟩
    obtain ⟨before, after, rfl, hbefore⟩ := List.eq_append_cons_of_mem hmem
    have hwhile : (before ++ n :: after).takeWhile (· ≠ n) = before := by
      rw [List.takeWhile_append_of_pos, List.takeWhile_cons_of_neg (by simp), List.append_nil]
      intro m hm
      exact decide_eq_true fun heq ↦ hbefore (heq ▸ hm)
    rw [hwhile] at hfirst hfew
    have hstep : n ∈ taken k z (before ++ [n]) := by
      rw [taken_concat, if_pos ⟨hz, hfirst, (countP_taken_le_iff hz.le).mpr hfew⟩]
      exact List.mem_cons_self
    have hgrown := (taken_suffix k z (before ++ [n]) after).subset hstep
    rwa [List.append_assoc] at hgrown

/-- Floor and window of the values taken answer whether `n` is one of them, except that an answer
is yes too soon for an `n` that `k + 1` different larger ones were offered before. -/
theorem seen_iff_mem_taken_iff (hz : z < n) :
    ((n ≤ topFloor k z (taken k z offers) ∨ n ∈ topWindow k (taken k z offers)) ↔
      n ∈ taken k z offers) ↔ largerOffers n (offers.takeWhile (· ≠ n)) ≤ k := by
  have hseen : n ≤ topFloor k z (taken k z offers) ∨ n ∈ topWindow k (taken k z offers) ↔
      n ∈ taken k z offers ∨ ¬ (taken k z offers).countP (n < ·) ≤ k := by
    rw [← not_iff_not, not_or, not_le, above_floor_iff hz, not_or, not_not]
  rw [hseen, countP_taken_le_iff hz.le]
  constructor
  · intro hagree
    by_cases hmem : n ∈ taken k z offers
    · exact ((mem_taken_iff hz).mp hmem).2
    · have hfew : largerOffers n offers ≤ k := by
        by_contra hmany
        exact hmem (hagree.mp (Or.inr hmany))
      exact (largerOffers_mono (List.takeWhile_prefix _).subset).trans hfew
  · intro hfew
    by_cases hmem : n ∈ offers
    · exact ⟨fun _ ↦ (mem_taken_iff hz).mpr ⟨hmem, hfew⟩, Or.inl⟩
    · have hall : offers.takeWhile (· ≠ n) = offers :=
        List.takeWhile_eq_self_iff.mpr fun m hm ↦ decide_eq_true fun heq ↦ hmem (heq ▸ hm)
      rw [hall] at hfew
      exact ⟨fun h ↦ h.resolve_right (not_not.mpr hfew), Or.inl⟩

end Offers

end Jamswap.Library
