import Jamswap.Library.Rationing
import Jamswap.Library.Tally
import Mathlib.Algebra.BigOperators.Group.Multiset.Basic
import Mathlib.Algebra.Order.BigOperators.Group.List
import Mathlib.Algebra.Order.Ring.Nat
import Mathlib.Data.Finset.Max
import Mathlib.Data.Multiset.Filter
import Mathlib.Data.Nat.Dist

/-!
# Uniform-price auctions

A book is a multiset of limit offers. At a price `p` each side has the quantity its limits admit
(`depth`), and the book trades the smaller of the two (`matched`). A price clears the book
(`Clears`) when no price whatsoever trades more and, of the submitted prices that trade as much, it
has the smallest imbalance and is the lowest; there is at most one such price (`Clears.unique`). A
scan of the submitted prices in ascending order finds it (`auction_scan`): depth only changes at
submitted prices, so scanning those is enough (`exists_submitted`). Offers that meet no offer of the
other side leave the outcome as it is (`Auction.add_idle`).

The traded volume is rationed on each side along a queue sorted by price-time priority (`Queue`).
Whatever the order of ties, the offers keener than any given rank are served first, up to the volume
(`Queue.sum_allot`), so what each id is given depends on the book alone (`Queue.sum_allot_id`).
`Rations` states that outcome without the queue. It makes priority strict (`Rations.eq_zero_after`),
and it takes the traded volume off the depth of each side at every price (`Rations.depth_rest`),
which leaves nothing more to trade (`matched_eq_zero`).
-/

namespace Jamswap.Library

/-- An offer to trade up to `qty` units at a limit price. -/
structure Offer (ρ ι : Type*) where
  buys : Bool
  limit : ρ
  id : ι
  qty : ℕ
  deriving DecidableEq

variable {ρ ι : Type*}

/-- The quantity of a collection of offers. -/
def weight (m : Multiset (Offer ρ ι)) : ℕ := (m.map Offer.qty).sum

variable {m : Multiset (Offer ρ ι)} {s : Bool} {p q : ρ} {c : Option ρ} {a b : ρ × ι}
  {D : ρ × ι → Bool}

theorem weight_le_of_le {m' : Multiset (Offer ρ ι)} (h : m ≤ m') : weight m ≤ weight m' := by
  obtain ⟨u, rfl⟩ := Multiset.le_iff_exists_add.mp h
  rw [weight, weight, Multiset.map_add, Multiset.sum_add]
  exact Nat.le_add_right _ _

variable [LinearOrder ρ]

/-! ### Depth and volume -/

/-- On a side, the limit `a` is at least as keen to trade as `b`. -/
def Keen (buys : Bool) (a b : ρ) : Prop :=
  match buys with
  | true => b ≤ a
  | false => a ≤ b

instance (s : Bool) (a b : ρ) : Decidable (Keen s a b) :=
  match s with
  | true => inferInstanceAs (Decidable (b ≤ a))
  | false => inferInstanceAs (Decidable (a ≤ b))

theorem Keen.refl (s : Bool) (a : ρ) : Keen s a a := by
  cases s with
  | true | false => exact le_refl a

theorem Keen.trans {a b c : ρ} (hab : Keen s a b) (hbc : Keen s b c) : Keen s a c := by
  cases s with
  | true => exact le_trans hbc hab
  | false => exact le_trans hab hbc

theorem Keen.antisymm {a b : ρ} (hab : Keen s a b) (hba : Keen s b a) : a = b := by
  cases s with
  | true => exact le_antisymm hba hab
  | false => exact le_antisymm hab hba

theorem keen_total (s : Bool) (a b : ρ) : Keen s a b ∨ Keen s b a := by
  cases s with
  | true => exact le_total b a
  | false => exact le_total a b

/-- The quantity one side would trade at a price. -/
def depth (m : Multiset (Offer ρ ι)) (s : Bool) (p : ρ) : ℕ :=
  weight (m.filter fun o ↦ o.buys = s ∧ Keen s o.limit p)

/-- The quantity that can trade at a price. -/
def matched (m : Multiset (Offer ρ ι)) (p : ρ) : ℕ := min (depth m true p) (depth m false p)

/-- How far apart the two sides are at a price. -/
def imbalance (m : Multiset (Offer ρ ι)) (p : ρ) : ℕ := Nat.dist (depth m true p) (depth m false p)

/-- A keener limit admits fewer offers of its side. -/
theorem depth_le_of_keen (m : Multiset (Offer ρ ι)) (h : Keen s p q) : depth m s p ≤ depth m s q :=
  weight_le_of_le (Multiset.monotone_filter_right m fun _ ho ↦ ⟨ho.1, ho.2.trans h⟩)

theorem matched_le_depth (m : Multiset (Offer ρ ι)) (s : Bool) (p : ρ) :
    matched m p ≤ depth m s p := by
  cases s with
  | true => exact Nat.min_le_left _ _
  | false => exact Nat.min_le_right _ _

/-- Offers with nothing to trade do not count. -/
theorem matched_filter_pos (m : Multiset (Offer ρ ι)) (p : ρ) :
    matched (m.filter fun o ↦ 0 < o.qty) p = matched m p := by
  have hweight : ∀ u : Multiset (Offer ρ ι), weight (u.filter fun o ↦ 0 < o.qty) = weight u := by
    intro u
    have hzero : weight (u.filter fun o ↦ ¬ 0 < o.qty) = 0 := by
      refine Multiset.sum_eq_zero fun n hn ↦ ?_
      obtain ⟨o, ho, rfl⟩ := Multiset.mem_map.mp hn
      exact Nat.eq_zero_of_not_pos (Multiset.mem_filter.mp ho).2
    conv_rhs => rw [← Multiset.filter_add_not (fun o : Offer ρ ι ↦ 0 < o.qty) u]
    rw [weight, weight, Multiset.map_add, Multiset.sum_add]
    exact (Nat.add_eq_left.mpr hzero).symm
  have hdepth : ∀ s, depth (m.filter fun o ↦ 0 < o.qty) s p = depth m s p := by
    intro s
    rw [depth, Multiset.filter_comm, hweight, depth]
  rw [matched, hdepth, hdepth, matched]

/-- Some submitted price trades as much as any given one. -/
theorem exists_submitted (h : 0 < matched m p) : ∃ o ∈ m, matched m p ≤ matched m o.limit := by
  -- the least keen of the buys that accept `p` still admits all of them, and no fewer sells
  set bids := m.filter fun o ↦ o.buys = true ∧ Keen true o.limit p with hbids
  have hne : (bids.map Offer.limit).toFinset.Nonempty := by
    rw [Finset.nonempty_iff_ne_empty]
    intro hempty
    have hnil : bids = 0 := by simpa using hempty
    have hzero : depth m true p = 0 := by rw [depth, ← hbids, hnil]; rfl
    exact absurd (h.trans_le (matched_le_depth m true p)) (by simp [hzero])
  obtain ⟨o, ho, hlimit⟩ := Multiset.mem_map.mp
    (Multiset.mem_toFinset.mp (Finset.min'_mem _ hne))
  obtain ⟨hmem, hbuys, hkeen⟩ := Multiset.mem_filter.mp ho
  refine ⟨o, hmem, min_le_min ?_ (depth_le_of_keen m (s := false) hkeen)⟩
  refine weight_le_of_le ?_
  rw [← hbids, Multiset.le_filter]
  refine ⟨Multiset.filter_le _ _, fun o' ho' ↦ ⟨(Multiset.mem_filter.mp ho').2.1, ?_⟩⟩
  rw [hlimit]
  exact Finset.min'_le _ _ (Multiset.mem_toFinset.mpr (Multiset.mem_map_of_mem _ ho'))

/-! ### The clearing price -/

/-- The price a book trades at: no price trades more; of the submitted prices that trade as much it
has the smallest imbalance, and is the lowest. -/
structure Clears (m : Multiset (Offer ρ ι)) (p : ρ) : Prop where
  trades : 0 < matched m p
  submitted : ∃ o ∈ m, o.limit = p
  most : ∀ q, matched m q ≤ matched m p
  closest : ∀ o ∈ m, matched m o.limit = matched m p → imbalance m p ≤ imbalance m o.limit
  lowest : ∀ o ∈ m, matched m o.limit = matched m p → imbalance m o.limit = imbalance m p →
    p ≤ o.limit

theorem Clears.le (hp : Clears m p) (hq : Clears m q) : p ≤ q := by
  obtain ⟨o, ho, rfl⟩ := hq.submitted
  obtain ⟨o', ho', rfl⟩ := hp.submitted
  have hvolume : matched m o.limit = matched m o'.limit := le_antisymm (hp.most _) (hq.most _)
  exact hp.lowest o ho hvolume
    (le_antisymm (hq.closest o' ho' hvolume.symm) (hp.closest o ho hvolume))

theorem Clears.unique (hp : Clears m p) (hq : Clears m q) : p = q :=
  le_antisymm (hp.le hq) (hq.le hp)

/-- The outcome of an auction: the price it clears at, or that nothing can trade. -/
def Auction (m : Multiset (Offer ρ ι)) : Option ρ → Prop
  | none => ∀ q, matched m q = 0
  | some p => Clears m p

theorem Auction.unique {c' : Option ρ} (h : Auction m c) (h' : Auction m c') : c = c' := by
  cases c with
  | none =>
    cases c' with
    | none => rfl
    | some p => exact absurd (h p) h'.trades.ne'
  | some p =>
    cases c' with
    | none => exact absurd (h' p) h.trades.ne'
    | some q => rw [Clears.unique h h']

/-- The quantity an auction trades. -/
def traded (m : Multiset (Offer ρ ι)) : Option ρ → ℕ
  | none => 0
  | some p => matched m p

theorem Auction.matched_le (h : Auction m c) (q : ρ) : matched m q ≤ traded m c := by
  cases c with
  | none => exact (h q).le
  | some p => exact h.most q

/-- Keep the candidate that trades more, then the one with the smaller imbalance. -/
def pick (m : Multiset (Offer ρ ι)) : Option ρ → ρ → Option ρ
  | none, p => if 0 < matched m p then some p else none
  | some q, p =>
    if matched m q < matched m p ∨ matched m p = matched m q ∧ imbalance m p < imbalance m q then
      some p
    else some q

/-- The best of the candidates seen. -/
def Picked (m : Multiset (Offer ρ ι)) (seen : List ρ) : Option ρ → Prop
  | none => ∀ q ∈ seen, matched m q = 0
  | some p => p ∈ seen ∧ 0 < matched m p ∧ ∀ q ∈ seen, matched m q ≤ matched m p ∧
      (matched m q = matched m p → imbalance m p ≤ imbalance m q ∧
        (imbalance m q = imbalance m p → p ≤ q))

theorem Picked.pick {seen : List ρ} (h : Picked m seen c) (hp : ∀ q ∈ seen, q ≤ p) :
    Picked m (seen ++ [p]) (pick m c p) := by
  have hcases : ∀ {q}, q ∈ seen ++ [p] → q ∈ seen ∨ q = p := by simp
  cases c with
  | none =>
    rw [Library.pick]
    split_ifs with hpos
    · refine ⟨by simp, hpos, fun q hq ↦ ?_⟩
      rcases hcases hq with hq | rfl
      · rw [h q hq]
        exact ⟨Nat.zero_le _, fun hzero ↦ absurd hzero hpos.ne⟩
      · exact ⟨le_rfl, fun _ ↦ ⟨le_rfl, fun _ ↦ le_rfl⟩⟩
    · intro q hq
      rcases hcases hq with hq | rfl
      · exact h q hq
      · exact Nat.eq_zero_of_not_pos hpos
  | some r =>
    obtain ⟨hr, hpos, hbest⟩ := h
    rw [Library.pick]
    split_ifs with hbetter
    · have hle : matched m r ≤ matched m p := by
        rcases hbetter with hlt | ⟨heq, -⟩
        · exact hlt.le
        · exact heq.ge
      refine ⟨by simp, hpos.trans_le hle, fun q hq ↦ ?_⟩
      rcases hcases hq with hq | rfl
      · obtain ⟨hvolume, htie⟩ := hbest q hq
        refine ⟨hvolume.trans hle, fun heq ↦ ?_⟩
        rcases hbetter with hlt | ⟨heq', himb⟩
        · exact absurd (hvolume.trans_lt hlt) (by simp [heq])
        · have hless := himb.trans_le (htie (heq.trans heq')).1
          exact ⟨hless.le, fun hsame ↦ absurd hsame hless.ne'⟩
      · exact ⟨le_rfl, fun _ ↦ ⟨le_rfl, fun _ ↦ le_rfl⟩⟩
    · rw [not_or] at hbetter
      refine ⟨by simp [hr], hpos, fun q hq ↦ ?_⟩
      rcases hcases hq with hq | rfl
      · exact hbest q hq
      · refine ⟨Nat.not_lt.mp hbetter.1, fun heq ↦ ⟨?_, fun _ ↦ hp r hr⟩⟩
        exact Nat.not_lt.mp fun himb ↦ hbetter.2 ⟨heq, himb⟩

theorem picked_foldl {prices : List ρ} (h : prices.Pairwise (· ≤ ·)) :
    Picked m prices (prices.foldl (pick m) none) := by
  induction prices using List.reverseRecOn with
  | nil => exact fun q hq ↦ absurd hq (by simp)
  | append_singleton seen p ih =>
    rw [List.pairwise_append] at h
    rw [List.foldl_append]
    exact (ih h.1).pick fun q hq ↦ h.2.2 q hq p (by simp)

/-- Scanning the submitted prices in ascending order decides the auction. -/
theorem auction_scan {prices : List ρ} (hsorted : prices.Pairwise (· ≤ ·))
    (hprices : ∀ p, p ∈ prices ↔ ∃ o ∈ m, o.limit = p) :
    Auction m (prices.foldl (pick m) none) := by
  have hlisted : ∀ o ∈ m, o.limit ∈ prices := fun o ho ↦ (hprices _).mpr ⟨o, ho, rfl⟩
  have hpicked := picked_foldl (m := m) hsorted
  cases hscan : prices.foldl (pick m) none with
  | none =>
    rw [hscan] at hpicked
    intro q
    by_contra hpos
    obtain ⟨o, ho, hle⟩ := exists_submitted (Nat.pos_of_ne_zero hpos)
    rw [hpicked _ (hlisted o ho)] at hle
    exact hpos (Nat.le_zero.mp hle)
  | some p =>
    rw [hscan] at hpicked
    obtain ⟨hmem, hpos, hbest⟩ := hpicked
    refine ⟨hpos, (hprices p).mp hmem, fun q ↦ ?_, fun o ho heq ↦ ?_, fun o ho heq himb ↦ ?_⟩
    · rcases Nat.eq_zero_or_pos (matched m q) with hzero | hq
      · rw [hzero]
        exact Nat.zero_le _
      · obtain ⟨o, ho, hle⟩ := exists_submitted hq
        exact hle.trans (hbest _ (hlisted o ho)).1
    · exact ((hbest _ (hlisted o ho)).2 heq).1
    · exact ((hbest _ (hlisted o ho)).2 heq).2 himb

/-! ### Offers that cross nothing -/

theorem Keen.meet {a b : ρ} (ha : Keen s a p) (hb : Keen (!s) b p) : Keen s a b := by
  cases s with
  | true => exact le_trans hb ha
  | false => exact le_trans ha hb

section Idle

variable {m h : Multiset (Offer ρ ι)} {p : ρ}

/-- None of the offers `h` meets an offer of the other side, in the book `m` or among themselves. -/
def Idle (m h : Multiset (Offer ρ ι)) : Prop :=
  ∀ o ∈ h, ∀ o' ∈ m + h, o'.buys = !o.buys → ¬ Keen o.buys o.limit o'.limit

/-- Nothing trades at a price an idle offer accepts. -/
theorem Idle.matched_eq_zero (hidle : Idle m h) {o : Offer ρ ι} (ho : o ∈ h)
    (hkeen : Keen o.buys o.limit p) : matched (m + h) p = 0 := by
  have hempty : ((m + h).filter fun o' ↦ o'.buys = (!o.buys) ∧ Keen (!o.buys) o'.limit p) = 0 := by
    refine Multiset.filter_eq_nil.mpr fun o' ho' haccepts ↦ ?_
    exact hidle o ho o' ho' haccepts.1 (hkeen.meet haccepts.2)
  have hdepth : depth (m + h) (!o.buys) p = 0 := by
    rw [depth, hempty]
    rfl
  exact Nat.le_zero.mp (hdepth ▸ matched_le_depth (m + h) (!o.buys) p)

/-- Offers that do not accept the price add no depth there. -/
theorem depth_add_of_not_keen (hnot : ∀ o ∈ h, ¬ Keen o.buys o.limit p) (s : Bool) :
    depth (m + h) s p = depth m s p := by
  have hempty : (h.filter fun o ↦ o.buys = s ∧ Keen s o.limit p) = 0 :=
    Multiset.filter_eq_nil.mpr fun o ho haccepts ↦ hnot o ho (haccepts.1 ▸ haccepts.2)
  rw [depth, Multiset.filter_add, hempty, add_zero, depth]

theorem matched_le_add (m h : Multiset (Offer ρ ι)) (p : ρ) : matched m p ≤ matched (m + h) p :=
  min_le_min (weight_le_of_le (Multiset.filter_le_filter _ (Multiset.le_add_right m h)))
    (weight_le_of_le (Multiset.filter_le_filter _ (Multiset.le_add_right m h)))

theorem Idle.matched_add (hidle : Idle m h) (p : ρ) : matched (m + h) p = matched m p := by
  by_cases haccepts : ∃ o ∈ h, Keen o.buys o.limit p
  · obtain ⟨o, ho, hkeen⟩ := haccepts
    have hzero := hidle.matched_eq_zero ho hkeen
    have hle := matched_le_add m h p
    omega
  · have hnot : ∀ o ∈ h, ¬ Keen o.buys o.limit p := fun o ho hkeen ↦ haccepts ⟨o, ho, hkeen⟩
    rw [matched, depth_add_of_not_keen hnot, depth_add_of_not_keen hnot, matched]

/-- No idle offer accepts a price at which something trades. -/
theorem Idle.not_keen (hidle : Idle m h) (htrades : 0 < matched m p) {o : Offer ρ ι} (ho : o ∈ h) :
    ¬ Keen o.buys o.limit p := by
  intro hkeen
  have hzero := hidle.matched_eq_zero ho hkeen
  rw [hidle.matched_add] at hzero
  omega

theorem Idle.imbalance_add (hidle : Idle m h) (htrades : 0 < matched m p) :
    imbalance (m + h) p = imbalance m p := by
  have hdepth : ∀ s, depth (m + h) s p = depth m s p :=
    depth_add_of_not_keen fun o ho ↦ hidle.not_keen htrades ho
  rw [imbalance, hdepth, hdepth, imbalance]

/-- Idle offers do not change the outcome: their prices trade nothing, and wherever something trades
they do not count. -/
theorem Auction.add_idle (hidle : Idle m h) (hc : Auction m c) : Auction (m + h) c := by
  cases c with
  | none =>
    intro q
    rw [hidle.matched_add]
    exact hc q
  | some p =>
    obtain ⟨htrades, ⟨o, ho, hlimit⟩, hmost, hclosest, hlowest⟩ := hc
    -- a submitted price that trades as much as `p` was submitted by an offer of the old book
    have hold : ∀ o ∈ m + h, matched (m + h) o.limit = matched (m + h) p →
        o ∈ m ∧ matched m o.limit = matched m p ∧ 0 < matched m o.limit := by
      intro o ho hvolume
      rw [hidle.matched_add, hidle.matched_add] at hvolume
      have hpos : 0 < matched m o.limit := hvolume ▸ htrades
      rcases Multiset.mem_add.mp ho with hm | hh
      · exact ⟨hm, hvolume, hpos⟩
      · exact absurd (Keen.refl _ _) (hidle.not_keen hpos hh)
    constructor
    · rw [hidle.matched_add]
      exact htrades
    · exact ⟨o, Multiset.mem_add.mpr (Or.inl ho), hlimit⟩
    · intro q
      rw [hidle.matched_add, hidle.matched_add]
      exact hmost q
    · intro o ho hvolume
      obtain ⟨hm, hsame, hpos⟩ := hold o ho hvolume
      rw [hidle.imbalance_add htrades, hidle.imbalance_add hpos]
      exact hclosest o hm hsame
    · intro o ho hvolume himbalance
      obtain ⟨hm, hsame, hpos⟩ := hold o ho hvolume
      rw [hidle.imbalance_add htrades, hidle.imbalance_add hpos] at himbalance
      exact hlowest o hm hsame himbalance

end Idle

/-! ### Priority -/

variable [LinearOrder ι]

/-- Limit and id: what priority goes by. -/
abbrev Offer.rank (o : Offer ρ ι) : ρ × ι := (o.limit, o.id)

/-- Price-time priority on a side: the keener limit first, then the smaller id. -/
def Precedes (s : Bool) (a b : ρ × ι) : Prop := ¬ Keen s b.1 a.1 ∨ a.1 = b.1 ∧ a.2 ≤ b.2

instance (s : Bool) (a b : ρ × ι) : Decidable (Precedes s a b) :=
  inferInstanceAs (Decidable (_ ∨ _))

theorem Precedes.keen (h : Precedes s a b) : Keen s a.1 b.1 := by
  rcases h with hnot | ⟨heq, -⟩
  · exact (keen_total s a.1 b.1).resolve_right hnot
  · rw [heq]
    exact Keen.refl s _

theorem Precedes.refl (s : Bool) (a : ρ × ι) : Precedes s a a := Or.inr ⟨rfl, le_refl _⟩

theorem Precedes.trans {c : ρ × ι} (hab : Precedes s a b) (hbc : Precedes s b c) :
    Precedes s a c := by
  rcases hab with hnot | ⟨heq, hid⟩
  · exact Or.inl fun hca ↦ hnot (hbc.keen.trans hca)
  · rcases hbc with hnot | ⟨heq', hid'⟩
    · exact Or.inl (heq ▸ hnot)
    · exact Or.inr ⟨heq.trans heq', hid.trans hid'⟩

theorem Precedes.antisymm (hab : Precedes s a b) (hba : Precedes s b a) : a = b := by
  have hlimit : a.1 = b.1 := hab.keen.antisymm hba.keen
  rcases hab with hnot | ⟨-, hid⟩
  · exact absurd hba.keen hnot
  · rcases hba with hnot | ⟨-, hid'⟩
    · exact absurd (hlimit ▸ Keen.refl s _) hnot
    · exact Prod.ext hlimit (le_antisymm hid hid')

theorem precedes_total (s : Bool) (a b : ρ × ι) : Precedes s a b ∨ Precedes s b a := by
  by_cases hba : Keen s b.1 a.1
  · by_cases hab : Keen s a.1 b.1
    · have hlimit : a.1 = b.1 := hab.antisymm hba
      rcases le_total a.2 b.2 with hid | hid
      · exact Or.inl (Or.inr ⟨hlimit, hid⟩)
      · exact Or.inr (Or.inr ⟨hlimit.symm, hid⟩)
    · exact Or.inr (Or.inl hab)
  · exact Or.inl (Or.inl hba)

/-- A property of ranks that passes to whoever goes first. -/
def Initial (s : Bool) (D : ρ × ι → Bool) : Prop := ∀ a b, Precedes s a b → D b → D a

theorem initial_keen (s : Bool) (q : ρ) :
    Initial s fun k : ρ × ι ↦ decide (Keen s k.1 q) := by
  intro a b hab hb
  rw [decide_eq_true_eq] at hb ⊢
  exact hab.keen.trans hb

theorem initial_precedes (s : Bool) (k : ρ × ι) : Initial s fun a ↦ decide (Precedes s a k) := by
  intro a b hab hb
  rw [decide_eq_true_eq] at hb ⊢
  exact hab.trans hb

theorem initial_strictly_precedes (s : Bool) (k : ρ × ι) :
    Initial s fun a ↦ decide (Precedes s a k ∧ a ≠ k) := by
  intro a b hab hb
  rw [decide_eq_true_eq] at hb ⊢
  refine ⟨hab.trans hb.1, ?_⟩
  rintro rfl
  exact hb.2 (hb.1.antisymm hab)

/-! ### Rationing a side -/

/-- The quantity of the offers of a side that accept the price and have the property. -/
def front (m : Multiset (Offer ρ ι)) (s : Bool) (p : ρ) (D : ρ × ι → Bool) : ℕ :=
  weight (m.filter fun o ↦ o.buys = s ∧ Keen s o.limit p ∧ D o.rank)

omit [LinearOrder ι] in
theorem front_eq_depth (h : ∀ o ∈ m, o.buys = s → Keen s o.limit p → D o.rank) :
    front m s p D = depth m s p := by
  refine congrArg weight (Multiset.filter_congr fun o ho ↦ ?_)
  exact ⟨fun hall ↦ ⟨hall.1, hall.2.1⟩, fun hall ↦ ⟨hall.1, hall.2, h o ho hall.1 hall.2⟩⟩

/-- What the offers of one rank get when `v` units are handed out in order of priority: what the
offers ahead of them leave. -/
def share (m : Multiset (Offer ρ ι)) (s : Bool) (p : ρ) (v : ℕ) (k : ρ × ι) : ℕ :=
  min v (front m s p fun a ↦ decide (Precedes s a k)) -
    min v (front m s p fun a ↦ decide (Precedes s a k ∧ a ≠ k))

/-- What the offers of one id get on a side. -/
def handed (m : Multiset (Offer ρ ι)) (s : Bool) (p : ρ) (v : ℕ) (i : ι) : ℕ :=
  ∑ q ∈ (m.map Offer.limit).toFinset, share m s p v (q, i)

/-- What the offers of one id get in an auction. -/
def fillOf (m : Multiset (Offer ρ ι)) : Option ρ → ι → ℕ
  | none, _ => 0
  | some p, i => handed m true p (matched m p) i + handed m false p (matched m p) i

section Queue

variable {α : Type*} {offer : α → Offer ρ ι} {l : List α} {s : Bool} {p : ρ} {v : ℕ}

/-- The book a list of orders makes. -/
def book (offer : α → Offer ρ ι) (l : List α) : Multiset (Offer ρ ι) := (l.map offer : List _)

omit [LinearOrder ρ] [LinearOrder ι] in
theorem weight_filter_book (offer : α → Offer ρ ι) (l : List α) (C : Offer ρ ι → Prop)
    [DecidablePred C] :
    weight ((book offer l).filter C) =
      ((l.filter fun a ↦ C (offer a)).map fun a ↦ (offer a).qty).sum := by
  rw [book, Multiset.filter_coe, List.filter_map, weight, Multiset.map_coe, Multiset.sum_coe,
    List.map_map]
  rfl

/-- One side's offers that accept the price, in order of priority. -/
structure Queue (offer : α → Offer ρ ι) (l : List α) (s : Bool) (p : ρ) (xs : List α) : Prop where
  perm : xs.Perm (l.filter fun a ↦ (offer a).buys = s ∧ Keen s (offer a).limit p)
  sorted : xs.Pairwise fun a b ↦ Precedes s (offer a).rank (offer b).rank

variable {xs : List α}

theorem Queue.mem_iff (h : Queue offer l s p xs) {a : α} :
    a ∈ xs ↔ a ∈ l ∧ (offer a).buys = s ∧ Keen s (offer a).limit p := by
  rw [h.perm.mem_iff, List.mem_filter, decide_eq_true_eq]

/-- Whoever goes first is served first. -/
theorem Queue.sum_allot (h : Queue offer l s p xs) (hD : Initial s D) (v : ℕ) :
    (((allot (fun a ↦ (offer a).qty) xs v).filter fun a ↦ D (offer a.1).rank).map Prod.snd).sum =
      min v (front (book offer l) s p D) := by
  have hinitial : xs.Pairwise fun a b ↦ D (offer b).rank → D (offer a).rank :=
    h.sorted.imp fun hab ↦ hD _ _ hab
  have hfront : ((xs.filter fun a ↦ D (offer a).rank).map fun a ↦ (offer a).qty).sum =
      front (book offer l) s p D := by
    rw [front, weight_filter_book, ((h.perm.filter _).map _).sum_eq, List.filter_filter]
    refine congrArg (fun ys ↦ (List.map (fun a ↦ (offer a).qty) ys).sum) ?_
    refine List.filter_congr fun a _ ↦ ?_
    rw [Bool.eq_iff_iff]
    simp only [Bool.and_eq_true, decide_eq_true_eq]
    tauto
  rw [sum_allot_initial _ hinitial, hfront]

omit [LinearOrder ρ] [LinearOrder ι] in
private theorem sum_filter_split {β : Type*} (f : β → ℕ) (C E : β → Bool) (ys : List β) :
    ((ys.filter C).map f).sum = ((ys.filter fun y ↦ C y && E y).map f).sum +
      ((ys.filter fun y ↦ C y && !E y).map f).sum := by
  have hsplit := ((List.filter_append_perm E (ys.filter C)).map f).sum_eq
  simpa [List.filter_filter, Bool.and_comm] using hsplit.symm

theorem Queue.sum_allot_rank (h : Queue offer l s p xs) (v : ℕ) (k : ρ × ι) :
    (((allot (fun a ↦ (offer a).qty) xs v).filter fun a ↦ (offer a.1).rank = k).map
      Prod.snd).sum = share (book offer l) s p v k := by
  have hsplit := sum_filter_split Prod.snd (fun a : α × ℕ ↦ decide (Precedes s (offer a.1).rank k))
    (fun a ↦ decide ((offer a.1).rank = k)) (allot (fun a ↦ (offer a).qty) xs v)
  have hrank : ∀ a : α × ℕ, (decide (Precedes s (offer a.1).rank k) &&
      decide ((offer a.1).rank = k)) = decide ((offer a.1).rank = k) := by
    intro a
    by_cases hk : (offer a.1).rank = k
    · simp [hk, Precedes.refl]
    · simp [hk]
  have hahead : ∀ a : α × ℕ, (decide (Precedes s (offer a.1).rank k) &&
      !decide ((offer a.1).rank = k)) =
        decide (Precedes s (offer a.1).rank k ∧ (offer a.1).rank ≠ k) := by
    intro a
    simp [Bool.decide_and]
  simp only [hrank, hahead] at hsplit
  have hle := h.sum_allot (initial_precedes s k) v
  have hlt := h.sum_allot (initial_strictly_precedes s k) v
  rw [share, ← hle, ← hlt]
  omega

omit [LinearOrder ι] in
private theorem sum_eq_sum_fibers {β : Type*} (f : β → ℕ) (g : β → ρ) {S : Finset ρ} {ys : List β}
    (h : ∀ y ∈ ys, g y ∈ S) :
    (ys.map f).sum = ∑ q ∈ S, ((ys.filter fun y ↦ g y = q).map f).sum := by
  induction ys with
  | nil => simp
  | cons y ys ih =>
    have hcons : ∀ q, (((y :: ys).filter fun y ↦ g y = q).map f).sum =
        (if g y = q then f y else 0) + ((ys.filter fun y ↦ g y = q).map f).sum := by
      intro q
      by_cases hq : g y = q
      · simp [hq]
      · simp [hq]
    simp only [hcons, Finset.sum_add_distrib, Finset.sum_ite_eq, h y List.mem_cons_self, if_true,
      ← ih fun y' hy' ↦ h y' (List.mem_cons_of_mem y hy'), List.map_cons, List.sum_cons]

/-- What an id is given depends on the book alone, not on how the queue orders ties. -/
theorem Queue.sum_allot_id (h : Queue offer l s p xs) (v : ℕ) (i : ι) :
    (((allot (fun a ↦ (offer a).qty) xs v).filter fun a ↦ (offer a.1).id = i).map Prod.snd).sum =
      handed (book offer l) s p v i := by
  have hlimits : ∀ a ∈ (allot (fun a ↦ (offer a).qty) xs v).filter fun a ↦ (offer a.1).id = i,
      (offer a.1).limit ∈ ((book offer l).map Offer.limit).toFinset := by
    intro a ha
    have hmem := (h.mem_iff.mp (allot_fst_mem (List.mem_of_mem_filter ha))).1
    rw [Multiset.mem_toFinset, Multiset.mem_map]
    exact ⟨offer a.1, Multiset.mem_coe.mpr (List.mem_map_of_mem hmem), rfl⟩
  rw [sum_eq_sum_fibers Prod.snd (fun a ↦ (offer a.1).limit) hlimits, handed]
  refine Finset.sum_congr rfl fun q _ ↦ ?_
  rw [← h.sum_allot_rank, List.filter_filter]
  refine congrArg (fun ys ↦ (List.map Prod.snd ys).sum) (List.filter_congr fun a _ ↦ ?_)
  rw [Bool.eq_iff_iff]
  simp

end Queue

/-! ### Rationed books -/

section Rations

variable {α : Type*} {offer : α → Offer ρ ι} {l : List α} {p : ρ} {v : ℕ} {given : α → ℕ}

/-- Each side of the book is given `v` units at the price by price-time priority: no order more than
it asks for, and those with a property that passes to whoever goes first what they ask for together,
up to `v`. -/
structure Rations (offer : α → Offer ρ ι) (l : List α) (p : ρ) (v : ℕ) (given : α → ℕ) : Prop where
  within : ∀ a ∈ l, given a ≤ (offer a).qty
  serves : ∀ s D, Initial s D →
    ((l.filter fun a ↦ (offer a).buys = s ∧ D (offer a).rank).map given).sum =
      min v (front (book offer l) s p D)

/-- Serving two sorted queues rations the book. -/
theorem rations_of_queues [DecidableEq α] (hl : l.Nodup) {queue : Bool → List α}
    (hqueue : ∀ s, Queue offer l s p (queue s)) :
    Rations offer l p v (amount (allot (fun a ↦ (offer a).qty) (queue true) v ++
      allot (fun a ↦ (offer a).qty) (queue false) v)) := by
  set served := fun s ↦ allot (fun a ↦ (offer a).qty) (queue s) v with hserved
  have hmem : ∀ s, ∀ a ∈ served s, a.1 ∈ l ∧ (offer a.1).buys = s ∧ a.2 ≤ (offer a.1).qty := by
    intro s a ha
    obtain ⟨hin, hside, -⟩ := (hqueue s).mem_iff.mp (allot_fst_mem ha)
    exact ⟨hin, hside, allot_le_demand ha⟩
  have hnodup : ((served true ++ served false).map Prod.fst).Nodup := by
    have hside : ∀ s, ((served s).map Prod.fst).Nodup := fun s ↦
      ((hqueue s).perm.nodup_iff.mpr (hl.filter _)).sublist (isPrefix_allot_fst _ _ _).sublist
    rw [List.map_append]
    refine (hside true).append (hside false) fun a htrue hfalse ↦ ?_
    obtain ⟨x, hx, rfl⟩ := List.mem_map.mp htrue
    obtain ⟨y, hy, hxy⟩ := List.mem_map.mp hfalse
    have hbuys := (hmem true x hx).2.1
    rw [← hxy, (hmem false y hy).2.1] at hbuys
    cases hbuys
  refine ⟨fun a _ ↦ ?_, fun s D hD ↦ ?_⟩
  · by_cases ha : a ∈ (served true ++ served false).map Prod.fst
    · obtain ⟨x, hx, rfl⟩ := List.mem_map.mp ha
      rw [amount_of_mem hnodup hx]
      rcases List.mem_append.mp hx with hx | hx
      · exact (hmem true x hx).2.2
      · exact (hmem false x hx).2.2
    · rw [amount_of_notMem ha]
      exact Nat.zero_le _
  · rw [sum_map_amount (hl.filter _), ← (hqueue s).sum_allot hD v, List.filter_append]
    have hsame : ∀ t, ((served t).filter fun e ↦ e.1 ∈ l.filter fun a ↦
        (offer a).buys = s ∧ D (offer a).rank) =
          if t = s then (served t).filter fun e ↦ D (offer e.1).rank else [] := by
      intro t
      split_ifs with hts
      · refine List.filter_congr fun e he ↦ ?_
        obtain ⟨hin, hside, -⟩ := hmem t e he
        rw [Bool.eq_iff_iff]
        simp [hin, hside, hts]
      · refine List.filter_eq_nil_iff.mpr fun e he ↦ ?_
        obtain ⟨-, hside, -⟩ := hmem t e he
        simp [hside, hts]
    rw [hsame true, hsame false]
    cases s with
    | true | false => simp [hserved]

namespace Rations

variable {s : Bool}

section

variable (h : Rations offer l p v given)

include h

theorem map {β : Type*} {f : α → β} {offer' : β → Offer ρ ι} {given' : β → ℕ}
    (hoffer : ∀ a, offer' (f a) = offer a) (hgiven : ∀ a ∈ l, given' (f a) = given a) :
    Rations offer' (l.map f) p v given' := by
  have hbook : book offer' (l.map f) = book offer l := by
    rw [book, List.map_map, book]
    exact congrArg _ (List.map_congr_left fun a _ ↦ hoffer a)
  refine ⟨fun b hb ↦ ?_, fun s D hD ↦ ?_⟩
  · obtain ⟨a, ha, rfl⟩ := List.mem_map.mp hb
    rw [hgiven a ha, hoffer]
    exact h.within a ha
  · rw [hbook, ← h.serves s D hD, List.filter_map, List.map_map]
    simp only [Function.comp_def, hoffer]
    exact congrArg List.sum (List.map_congr_left fun a ha ↦ hgiven a (List.mem_of_mem_filter ha))

theorem congr {given' : α → ℕ} (hgiven : ∀ a ∈ l, given' a = given a) :
    Rations offer l p v given' := by
  have hmap : Rations offer (l.map id) p v given' := h.map (fun _ ↦ rfl) hgiven
  rwa [List.map_id] at hmap

theorem sum_side (s : Bool) :
    ((l.filter fun a ↦ (offer a).buys = s).map given).sum = min v (depth (book offer l) s p) := by
  have hall := h.serves s (fun _ ↦ true) fun _ _ _ _ ↦ rfl
  rw [front_eq_depth fun _ _ _ _ ↦ rfl] at hall
  simpa using hall

/-- Once the ones that go first use up the volume, nobody else is served. -/
theorem eq_zero_of_front (hD : Initial s D)
    (hfront : min v (depth (book offer l) s p) ≤ front (book offer l) s p D) {a : α} (ha : a ∈ l)
    (hside : (offer a).buys = s) (hnot : D (offer a).rank = false) : given a = 0 := by
  have hsplit := sum_filter_split given (fun a ↦ decide ((offer a).buys = s))
    (fun a ↦ D (offer a).rank) l
  have hserves := h.serves s D hD
  simp only [Bool.decide_and, Bool.decide_eq_true] at hserves
  rw [h.sum_side s, hserves] at hsplit
  have hrest : given a ≤ ((l.filter fun a ↦ decide ((offer a).buys = s) &&
      !D (offer a).rank).map given).sum := by
    refine List.single_le_sum (fun _ _ ↦ Nat.zero_le _) _ (List.mem_map_of_mem ?_)
    exact List.mem_filter.mpr ⟨ha, by simp [hside, hnot]⟩
  omega

/-- Nobody trades beyond its limit. -/
theorem eq_zero_of_not_keen {a : α} (ha : a ∈ l)
    (hlimit : ¬ Keen (offer a).buys (offer a).limit p) : given a = 0 := by
  refine h.eq_zero_of_front (initial_keen (offer a).buys p) ?_ ha rfl (by simpa using hlimit)
  rw [front_eq_depth fun o _ _ hkeen ↦ decide_eq_true hkeen]
  exact Nat.min_le_right _ _

/-- Priority is strict: nobody is served behind an order that is not filled. -/
theorem eq_zero_after {a b : α} (ha : a ∈ l) (hb : b ∈ l)
    (hside : (offer b).buys = (offer a).buys) (hlimit : Keen (offer a).buys (offer a).limit p)
    (hpart : given a < (offer a).qty)
    (hbehind : ¬ Precedes (offer a).buys (offer b).rank (offer a).rank) : given b = 0 := by
  set s := (offer a).buys with hs
  set D : ρ × ι → Bool := fun k ↦ decide (Precedes s k (offer a).rank) with hD
  refine h.eq_zero_of_front (initial_precedes s (offer a).rank) ?_ hb hside (by simpa using hbehind)
  -- everyone ahead of `a` accepts the price too, and `a` itself is short
  have hfront : front (book offer l) s p D = ((l.filter fun a ↦ (offer a).buys = s ∧
      D (offer a).rank).map fun a ↦ (offer a).qty).sum := by
    rw [front, weight_filter_book]
    refine congrArg (fun ys ↦ (List.map (fun a ↦ (offer a).qty) ys).sum) ?_
    refine List.filter_congr fun x _ ↦ decide_eq_decide.mpr ⟨fun hx ↦ ⟨hx.1, hx.2.2⟩, fun hx ↦ ?_⟩
    have hahead : Precedes s (offer x).rank (offer a).rank := by simpa [hD] using hx.2
    exact ⟨hx.1, hahead.keen.trans hlimit, hx.2⟩
  have hself : a ∈ l.filter fun x ↦ (offer x).buys = s ∧ D (offer x).rank :=
    List.mem_filter.mpr ⟨ha, by simp [hD, hs, Precedes.refl]⟩
  have hlt := List.sum_lt_sum given (fun a ↦ (offer a).qty)
    (fun x hx ↦ h.within x (List.mem_of_mem_filter hx)) ⟨a, hself, hpart⟩
  rw [h.serves s D (initial_precedes s _), ← hfront] at hlt
  have hused : v ≤ front (book offer l) s p D := by omega
  exact (Nat.min_le_left _ _).trans hused

end

/-- What is left of an order. -/
def rest (offer : α → Offer ρ ι) (given : α → ℕ) (a : α) : Offer ρ ι :=
  { offer a with qty := (offer a).qty - given a }

/-- Rationing takes the volume off the depth of each side, at every price. -/
theorem depth_rest (h : Rations offer l p v given) (hv : v ≤ depth (book offer l) s p) (q : ρ) :
    depth (book (rest offer given) l) s q = depth (book offer l) s q - v := by
  set D : ρ × ι → Bool := fun k ↦ decide (Keen s k.1 q) with hD
  set part := l.filter fun a ↦ (offer a).buys = s ∧ D (offer a).rank with hpart
  have hdepth : depth (book offer l) s q = (part.map fun a ↦ (offer a).qty).sum := by
    rw [depth, weight_filter_book, hpart]
    simp only [hD, decide_eq_true_eq]
  have hrest : depth (book (rest offer given) l) s q =
      (part.map fun a ↦ (offer a).qty - given a).sum := by
    rw [depth, weight_filter_book, hpart]
    simp only [hD, decide_eq_true_eq, rest]
    rfl
  have hgiven : (part.map given).sum = min v (depth (book offer l) s q) := by
    rw [h.serves s D (initial_keen s q)]
    rcases keen_total s p q with hpq | hqp
    · rw [front_eq_depth fun o _ _ hkeen ↦ decide_eq_true (hkeen.trans hpq),
        Nat.min_eq_left hv, Nat.min_eq_left (hv.trans (depth_le_of_keen _ hpq))]
    · refine congrArg (min v) (congrArg weight (Multiset.filter_congr fun o _ ↦ ?_))
      simp only [hD, decide_eq_true_eq]
      exact ⟨fun ho ↦ ⟨ho.1, ho.2.2⟩, fun ho ↦ ⟨ho.1, ho.2.trans hqp, ho.2⟩⟩
  have hsub : ∀ ys : List α, (∀ a ∈ ys, given a ≤ (offer a).qty) →
      (ys.map fun a ↦ (offer a).qty - given a).sum + (ys.map given).sum =
        (ys.map fun a ↦ (offer a).qty).sum := by
    intro ys hys
    rw [← List.sum_map_add]
    exact congrArg List.sum (List.map_congr_left fun a ha ↦ Nat.sub_add_cancel (hys a ha))
  have hsum := hsub part fun a ha ↦ h.within a (List.mem_of_mem_filter ha)
  rw [hgiven, ← hdepth, ← hrest] at hsum
  omega

/-- A book that traded all it could has nothing more to trade. -/
theorem matched_rest (h : Rations offer l p v given) (hv : v = matched (book offer l) p)
    (hmost : ∀ q, matched (book offer l) q ≤ v) (q : ρ) :
    matched (book (rest offer given) l) q = 0 := by
  have hside : ∀ s, depth (book (rest offer given) l) s q = depth (book offer l) s q - v :=
    fun s ↦ h.depth_rest (hv ▸ matched_le_depth _ s p) q
  have hq := hmost q
  rw [matched] at hq ⊢
  rw [hside true, hside false]
  omega

end Rations

end Rations

end Jamswap.Library
