import Jamswap.Builder.Build
import Jamswap.Service.Authorisation

/-!
# Prices of market orders

A market order signs no price: the builder puts it at the edge of the band the service accepts
around the last price. In the service's arithmetic that is a floor for a buy and a ceiling for a
sell, and no price in the band is more aggressive, as long as the result is a 32-bit number. Above
the last price `buyLimit` the band of a buy ends outside the order's field (`priceable_iff`).
-/

namespace Jamswap.Builder

open Library Engine Service

/-! ### The edge of the band -/

variable {lp p : ℕ} {side : Side}

/-- The band around a last price that is not zero. -/
theorem withinBand_ofNat_iff {p : UInt32} (hpos : 1 ≤ lp) (hlp : lp < 2 ^ 64) :
    withinBand p (UInt64.ofNat lp) marketBandPct = true ↔
      lp * 90 ≤ p.toNat * 100 ∧ p.toNat * 100 ≤ lp * 110 := by
  have hvalue : (UInt64.ofNat lp).toNat = lp := by
    rw [UInt64.toNat_ofNat', Nat.mod_eq_of_lt hlp]
  have hne : UInt64.ofNat lp ≠ 0 := by
    intro hzero
    rw [hzero] at hvalue
    exact absurd hvalue (by simp; omega)
  rw [withinBand_iff, hvalue]
  exact and_iff_right hne

theorem marketPrice_buy_iff : p ≤ marketPrice .buy lp ↔ p * 100 ≤ lp * 110 :=
  Nat.le_div_iff_mul_le (by decide)

theorem marketPrice_sell_iff (hp : 0 < p) : marketPrice .sell lp ≤ p ↔ lp * 90 ≤ p * 100 := by
  simp only [marketPrice, marketBandPct]
  omega

/-- The price lies in the band it is the edge of. -/
theorem marketPrice_band (side : Side) (hpos : 1 ≤ lp) :
    lp * 90 ≤ marketPrice side lp * 100 ∧ marketPrice side lp * 100 ≤ lp * 110 := by
  cases side with
  | buy =>
    refine ⟨?_, marketPrice_buy_iff.mp le_rfl⟩
    have hle : lp ≤ marketPrice .buy lp := marketPrice_buy_iff.mpr (by omega)
    omega
  | sell =>
    have hone : 1 ≤ marketPrice .sell lp := le_max_left _ _
    refine ⟨(marketPrice_sell_iff hone).mp le_rfl, ?_⟩
    have hle : marketPrice .sell lp ≤ lp := (marketPrice_sell_iff hpos).mpr (by omega)
    omega

/-- The builder's price for a market order is inside the service's band. -/
theorem withinBand_marketPrice {lp : UInt64} (hlp : lp.toNat ≠ 0)
    (hfits : marketPrice side lp.toNat < 2 ^ 32) :
    withinBand (UInt32.ofNat (marketPrice side lp.toNat)) lp marketBandPct = true := by
  have hne : lp ≠ 0 := fun hzero ↦ hlp (by rw [hzero]; rfl)
  rw [withinBand_iff, UInt32.toNat_ofNat', Nat.mod_eq_of_lt hfits]
  exact ⟨hne, marketPrice_band side (Nat.pos_of_ne_zero hlp)⟩

/-! ### The most aggressive price -/

/-- `p` is at least as aggressive as `q`. -/
def Aggressive (side : Side) (p q : UInt32) : Prop :=
  match side with
  | .buy => q ≤ p
  | .sell => p ≤ q

/-- The builder's price for a market order fits into the order's field, passes the band check, and
no positive 32-bit price that passes it is more aggressive. -/
def Priceable (side : Side) (lp : ℕ) : Prop :=
  ∃ price : UInt32, price.toNat = marketPrice side lp ∧ 0 < price ∧
    withinBand price (UInt64.ofNat lp) marketBandPct = true ∧
    ∀ p : UInt32, 0 < p → withinBand p (UInt64.ofNat lp) marketBandPct = true →
      Aggressive side price p

/-- The largest last price whose band ends inside the 32-bit range. -/
def buyLimit : ℕ := 3904515723

theorem marketPrice_lt_iff (hpos : 1 ≤ lp) (hlp : lp < 2 ^ 32) :
    marketPrice side lp < 2 ^ 32 ↔ side = .sell ∨ lp ≤ buyLimit := by
  cases side with
  | buy =>
    simp only [marketPrice, marketBandPct, buyLimit, reduceCtorEq, false_or]
    omega
  | sell =>
    have hle : marketPrice .sell lp ≤ lp := (marketPrice_sell_iff hpos).mpr (by omega)
    exact ⟨fun _ ↦ Or.inl rfl, fun _ ↦ hle.trans_lt hlp⟩

/-- A market order can be priced exactly when it is a sell or the last price is at
most `buyLimit`. -/
theorem priceable_iff {side : Side} {lp : ℕ} (hpos : 1 ≤ lp) (hlp : lp < 2 ^ 32) :
    Priceable side lp ↔ side = .sell ∨ lp ≤ buyLimit := by
  have hword : lp < 2 ^ 64 := hlp.trans (by decide)
  rw [← marketPrice_lt_iff hpos hlp]
  constructor
  · rintro ⟨price, hprice, -⟩
    rw [← hprice]
    exact price.toNat_lt
  · intro hfits
    have hprice : (UInt32.ofNat (marketPrice side lp)).toNat = marketPrice side lp := by
      rw [UInt32.toNat_ofNat', Nat.mod_eq_of_lt hfits]
    have hband := marketPrice_band side hpos
    refine ⟨UInt32.ofNat (marketPrice side lp), hprice, ?_, ?_, ?_⟩
    · rw [UInt32.lt_iff_toNat_lt, hprice, UInt32.toNat_zero]
      omega
    · rw [withinBand_ofNat_iff hpos hword, hprice]
      exact hband
    · intro p hp hwithin
      rw [UInt32.lt_iff_toNat_lt, UInt32.toNat_zero] at hp
      rw [withinBand_ofNat_iff hpos hword] at hwithin
      cases side with
      | buy =>
        show p ≤ _
        rw [UInt32.le_iff_toNat_le, hprice]
        exact marketPrice_buy_iff.mpr hwithin.2
      | sell =>
        show _ ≤ p
        rw [UInt32.le_iff_toNat_le, hprice]
        exact (marketPrice_sell_iff hp).mpr hwithin.1

theorem priceable_iff_five : Priceable .sell 5 :=
  (priceable_iff (by decide) (by decide)).mpr (Or.inl rfl)

/-- One above the limit a buy would have to be priced at `2 ^ 32`. -/
theorem not_priceable_above_limit :
    1 ≤ buyLimit + 1 ∧ buyLimit + 1 < 2 ^ 32 ∧ marketPrice .buy (buyLimit + 1) = 2 ^ 32 ∧
      ¬ Priceable .buy (buyLimit + 1) := by
  refine ⟨by decide, by decide, by decide, ?_⟩
  rintro ⟨price, hprice, -⟩
  have hlt := price.toNat_lt
  rw [hprice] at hlt
  exact absurd hlt (by decide)

end Jamswap.Builder
