import Jamswap.Service.Delivery

/-!
# When accumulate accepts a round

`RoundInput.Acceptable` lists what accumulate checks of a round against the storage it runs on: the
market is listed with the round's assets, the round does something, the committee and the book are
the ones on chain, every new order is of a registered key, above its account's floor and in the
band, and every sealed order is still in the set. For an output that is read back as it was written,
these checks decide the verdict (`accepted_iff`). The first of them rests on the listings: items
only add to them, and the stored index names each once (`MarketIndex`).
-/

namespace Jamswap.Service

open Library Engine Storage

/-- What accumulate checks of a round. -/
structure RoundInput.Acceptable (P : Primitives) (st : Storage) (inp : RoundInput) : Prop where
  listed : marketAssets st inp.market = some (inp.base, inp.quote)
  effective : inp.ps.bindings = [] → inp.consumed = [] →
    st.getD (.book inp.market) ≠ (clearRound P inp.ps inp.sealedOrders).book
  committee : inp.kind.tag = .encRound → st.getD .committee ≠ [] ∧
    inp.kind.committeeHash? P = some (committeeHash P (st.getD .committee)).val
  book : commitment P (st.getD (.book inp.market)) = inp.ps.bookHash
  registered : ∀ b ∈ inp.ps.bindings, pubkeyOf st b.account = some b.pubkey
  banded : ∀ b ∈ inp.ps.bindings, hasFlag b.flags flagMarket →
    withinBand b.price (getU64 st (.lp inp.market)) marketBandPct
  above : ∀ b ∈ inp.ps.bindings, getU64 st (.sq b.account) < b.seq
  increasing : inp.ps.bindings.Pairwise fun b b' ↦ b.account = b'.account → b.seq < b'.seq
  entries : ∀ key, inp.kind.tag.setKey inp.market = some key →
    (records setEntryLen inp.consumed).Subperm (records setEntryLen (st.getD key))

/-! ### Bindings -/

variable {st : Storage} {market : UInt32}

/-- Bindings of registered keys, in the band and in ascending order above the floors pass. -/
theorem foldlM_checkBinding {lastPrice : UInt64} {bandPct : ℕ} {bindings : List Binding}
    (start : List (UInt32 × UInt64))
    (heach : ∀ b ∈ bindings, BindingAdmitted st lastPrice bandPct b)
    (habove : ∀ b ∈ bindings, runningFloor st start b.account < b.seq)
    (hincreasing : bindings.Pairwise fun b b' ↦ b.account = b'.account → b.seq < b'.seq) :
    ∃ floors, bindings.foldlM (checkBinding st lastPrice bandPct) start = some floors := by
  induction bindings generalizing start with
  | nil => exact ⟨start, rfl⟩
  | cons b bindings ih =>
    obtain ⟨hlater, hincreasing⟩ := List.pairwise_cons.mp hincreasing
    have hb := heach b List.mem_cons_self
    have hcheck : checkBinding st lastPrice bandPct start b =
        some (raiseRunning start b.account b.seq) := by
      rw [checkBinding, if_neg (not_not.mpr hb.registered),
        if_neg (UInt64.not_le.mpr (habove b List.mem_cons_self)), if_neg]
      intro hout
      obtain ⟨hmarket, hband⟩ := Bool.and_eq_true_iff.mp hout
      rw [hb.banded hmarket] at hband
      cases hband
    obtain ⟨floors, hfloors⟩ := ih (raiseRunning start b.account b.seq)
      (fun b' hb' ↦ heach b' (List.mem_cons_of_mem b hb')) (fun b' hb' ↦ by
        rw [runningFloor_raiseRunning]
        split_ifs with haccount
        · exact hlater b' hb' haccount.symm
        · exact habove b' (List.mem_cons_of_mem b hb')) hincreasing
    refine ⟨floors, ?_⟩
    rw [List.foldlM_cons, hcheck]
    exact hfloors

/-! ### From a step to the verdict -/

section Verdict

variable {P : Primitives} {slot : UInt32} {st st' mid : Storage} {out : Bytes} {tag : Tag}
  {r : RoundOutput} {floors : List (UInt32 × UInt64)}

/-- A round that has passed the checks is accepted. -/
theorem accepted_of_roundStep (h : RoundStep P slot st out tag r floors mid st')
    (hround : tag.isRound) : accumulateItem P slot st out = (st', .accepted) := by
  have htag : out.head?.bind Tag.ofByte = some tag := h.tagged
  have hparsed := h.parsed
  unfold accumulateItem
  rw [htag]
  cases tag with
  | smatch =>
    simp only [parseRoundOutput, h.tagged] at hparsed
    split_ifs at hparsed with hlen
    obtain ⟨hconsumed, hcarry⟩ := parseSmatch_plain hparsed
    have heffective := h.effective
    rw [hconsumed] at heffective
    have hmid : mid = st := (Option.some.inj h.consumes).symm
    simp only [accumulateSmatch, if_pos hlen, h.listed, ne_eq, not_true_eq_false, if_false, hparsed,
      Bool.false_eq_true, heffective, h.authorised]
    rw [h.finishes, hcarry, Carry.mint_nil, hmid]
  | reveal =>
    simp only [parseRoundOutput, h.tagged] at hparsed
    split_ifs at hparsed with hlen
    have hconsumes := h.consumes
    simp only [consumeRound] at hconsumes
    split at hconsumes <;> cases hconsumes
    rename_i hset
    simp only [accumulateReveal, if_pos hlen, h.listed, ne_eq, not_true_eq_false, if_false,
      Bool.false_eq_true, hparsed, h.effective, h.authorised, hset]
    rw [h.finishes]
  | encRound =>
    simp only [parseRoundOutput, h.tagged] at hparsed
    split_ifs at hparsed with hlen
    obtain ⟨hpresent, hhash⟩ := h.committee rfl
    have hconsumes := h.consumes
    simp only [consumeRound] at hconsumes
    split at hconsumes <;> cases hconsumes
    rename_i hset
    simp only [accumulateEncRound, if_pos hlen, h.listed, ne_eq, not_true_eq_false, if_false,
      Bool.false_eq_true, hparsed, h.effective, h.authorised, hset, hhash, List.isEmpty_iff,
      hpresent, or_self]
    rw [h.finishes]
  | _ => cases hround

/-- Enough stored entries let a round consume. -/
theorem exists_consumeRound {market : UInt32} {consumed : Bytes}
    (h : ∀ key, tag.setKey market = some key →
      (records setEntryLen consumed).Subperm (records setEntryLen (st.getD key))) :
    ∃ mid, consumeRound st tag market consumed = some mid := by
  have hset : ∀ key, tag.setKey market = some key →
      ∃ next, consumeSet st key consumed = (true, next) := by
    intro key hkey
    obtain ⟨rest, hrest⟩ := Option.isSome_iff_exists.mp (consume_isSome_iff.mpr (h key hkey))
    exact ⟨st.set key rest.flatten, by rw [consumeSet, hrest]⟩
  cases tag with
  | reveal =>
    obtain ⟨next, hnext⟩ := hset _ rfl
    exact ⟨cagePurge next market consumed, by rw [consumeRound, hnext]⟩
  | encRound =>
    obtain ⟨next, hnext⟩ := hset _ rfl
    exact ⟨next, by rw [consumeRound, hnext]⟩
  | _ => exact ⟨st, rfl⟩

end Verdict

/-! ### The verdict on a round -/

theorem RoundKind.isRound_tag (kind : RoundKind) : kind.tag.isRound := by
  cases kind <;> rfl

section Round

variable {P : Primitives} {slot : UInt32} {st : Storage} {inp : RoundInput} {rid : Bytes32}

theorem isNoopRound_sections :
    isNoopRound st inp.market (inp.sections P rid).trailer (inp.sections P rid).consumed = true ↔
      inp.ps.bindings = [] ∧ inp.consumed = [] ∧
        st.getD (.book inp.market) = (clearRound P inp.ps inp.sealedOrders).book := by
  have hempty : (encodeBindings inp.ps.bindings).isEmpty = true ↔ inp.ps.bindings = [] := by
    rw [List.isEmpty_iff, ← List.length_eq_zero_iff, length_encodeBindings, Nat.mul_eq_zero,
      List.length_eq_zero_iff]
    exact or_iff_left (by decide)
  simp only [isNoopRound, Bool.and_eq_true, RoundInput.sections, hempty, List.isEmpty_iff,
    beq_iff_eq, and_assoc]

/-- A round in any kind of output that accumulate reads back is accepted exactly when it passes the
checks. -/
theorem accepted_iff (hparsed : parseRoundOutput (inp.output P rid) = some (inp.sections P rid)) :
    (accumulateItem P slot st (inp.output P rid)).2 = .accepted ↔ inp.Acceptable P st := by
  obtain ⟨htag, hmarket, hbase, hquote⟩ := output_header P inp rid
  constructor
  · intro hverdict
    have haccepted : accumulateItem P slot st (inp.output P rid) =
        ((accumulateItem P slot st (inp.output P rid)).1, .accepted) := by
      rw [← hverdict]
    obtain ⟨r, floors, mid, hstep⟩ :=
      roundStep_of_accepted htag inp.kind.isRound_tag haccepted
    obtain rfl : r = inp.sections P rid := Option.some.inj (hstep.parsed.symm.trans hparsed)
    have hlisted := hstep.listed
    have heffective := hstep.effective
    have hbook := hstep.book_hash
    have hadmitted := hstep.bindingsAdmitted
    rw [hmarket] at hlisted heffective hbook hadmitted
    rw [hbase, hquote] at hlisted
    simp only [RoundInput.sections, decodeBindings_encodeBindings] at hadmitted
    refine ⟨hlisted, ?_, hstep.committee, Subtype.ext hbook, fun b hb ↦
      (hadmitted.each b hb).registered,
      fun b hb ↦ (hadmitted.each b hb).banded, hadmitted.above, hadmitted.increasing, ?_⟩
    · intro hbindings hconsumed hsame
      rw [isNoopRound_sections.mpr ⟨hbindings, hconsumed, hsame⟩] at heffective
      cases heffective
    · intro key hkey
      rw [← hmarket] at hkey
      obtain ⟨rest, hrest, -⟩ := hstep.set_eq hkey
      exact subperm_of_consume hrest
  · intro h
    obtain ⟨floors, hfloors⟩ := foldlM_checkBinding [] (fun b hb ↦
      ⟨h.registered b hb, h.banded b hb⟩) h.above h.increasing
    obtain ⟨mid, hmid⟩ := exists_consumeRound h.entries
    have hstep : RoundStep P slot st (inp.output P rid) inp.kind.tag (inp.sections P rid) floors mid
        (applySettlement ((Carry.mint (acceptRound mid floors rid slot)
            (u32At (inp.output P rid) 1) (inp.sections P rid).carry).set
            (.book (u32At (inp.output P rid) 1)) (inp.sections P rid).trailer.book)
          (u32At (inp.output P rid) 5) (u32At (inp.output P rid) 9) (u32At (inp.output P rid) 1)
          (inp.sections P rid).settle (inp.sections P rid).trailer.bindings) := by
      refine ⟨htag, hparsed, ?_, ?_, h.committee, ?_, ?_, rfl⟩
      · rw [hmarket, hbase, hquote]
        exact h.listed
      · rw [hmarket, Bool.eq_false_iff]
        intro hnoop
        obtain ⟨hbindings, hconsumed, hsame⟩ := isNoopRound_sections.mp hnoop
        exact h.effective hbindings hconsumed hsame
      · rw [hmarket, checkRoundAuth, if_neg]
        · simp only [RoundInput.sections, decodeBindings_encodeBindings]
          exact hfloors
        · exact not_not.mpr (congrArg Subtype.val h.book)
      · rw [hmarket]
        exact hmid
    rw [accepted_of_roundStep hstep inp.kind.isRound_tag]

end Round

/-- The verdict on a delivered round. -/
theorem deliver_accepted_iff {P : Primitives} {item : WorkItem} {inp : RoundInput}
    (hinput : roundInput P item.payload.val = some inp) :
    (deliver P st item).2 = .accepted ↔
      (inp.output P (roundId P item.payload.val)).length ≤ maxReportElectiveData ∧
        inp.Acceptable P st := by
  have hrefine := refine_of_roundInput hinput
  unfold deliver workResult
  split_ifs with hsize
  · rw [hrefine] at hsize
    have hparsed := parseRoundOutput_output P inp _ hsize
    simp only [hrefine]
    rw [accepted_iff hparsed]
    exact (and_iff_right hsize).symm
  · rw [hrefine] at hsize
    simp [hsize]

/-! ### Listings -/

/-- The keys of the listings. -/
def listingKeys : Set Key := insert .markets (Set.range .mkt)

theorem marketAssets_listMarket (st : Storage) (market base quote other : UInt32) :
    marketAssets (listMarket st market base quote) other =
      if other = market then some (base, quote) else marketAssets st other := by
  rw [marketAssets, listMarket, get_set_ne _ _ (by simp), get_set]
  split_ifs with hkey hempty hsame hsame
  all_goals simp_all [marketAssets, ← List.length_eq_zero_iff]

variable {P : Primitives}

/-- An item leaves the listings alone or lists a market that was not. -/
theorem deliver_listings (P : Primitives) (st : Storage) (item : WorkItem) :
    Frame listingKeysᶜ st (deliver P st item).1 ∨
      ∃ market base quote, marketAssets st market = none ∧
        (deliver P st item).1 = listMarket st market base quote := by
  rcases deliver_cases P st item with hrefused | ⟨st', tag, hdeliver, htag, hround, hstep⟩ |
    ⟨st', inp, floors, mid, hdeliver, hdelivery⟩
  · exact .inl (hrefused ▸ Frame.refl _ st)
  · rw [hdeliver]
    cases tag with
    | smatch | reveal | encRound => cases hround
    | list =>
      cases hstep with
      | list tagged sized unlisted => exact .inr ⟨_, _, _, unlisted, rfl⟩
      | round isRound step =>
        cases htag.symm.trans step.tagged
        cases isRound
      | _ => cases htag.symm.trans (by assumption)
    | _ =>
      refine .inl ((hstep.frame htag).mono ?_)
      rintro key hkey (rfl | ⟨market, rfl⟩) <;>
        simp at hkey
  · rw [hdeliver]
    refine .inl (hdelivery.step.frame.mono ?_)
    rintro key hkey (rfl | ⟨market, rfl⟩) <;>
      simp [roundKeys] at hkey

/-- A listed market is never listed again. -/
theorem marketAssets_deliver {assets : UInt32 × UInt32}
    (h : marketAssets st market = some assets) (item : WorkItem) :
    marketAssets (deliver P st item).1 market = some assets := by
  rcases deliver_listings P st item with hframe | ⟨other, base, quote, hunlisted, hlisted⟩
  · rw [← h, marketAssets, marketAssets, hframe.get_eq (by simp [listingKeys])]
  · rw [hlisted, marketAssets_listMarket, if_neg ?_, h]
    rintro rfl
    cases h.symm.trans hunlisted

theorem marketAssets_runItems (P : Primitives) {assets : UInt32 × UInt32}
    (h : marketAssets st market = some assets) (items : List WorkItem) :
    marketAssets (runItems P st items) market = some assets :=
  List.foldlRecOn (motive := fun st ↦ marketAssets st market = some assets) items _ h
    fun _ h item _ ↦ marketAssets_deliver h item

/-- The stored index names the markets of the listings, which are all there are. -/
structure MarketIndex (st : Storage) (listings : List (UInt32 × UInt32 × UInt32)) : Prop where
  stored : st.getD .markets = listings.flatMap fun l ↦ u32Bytes l.1
  nodup : (listings.map Prod.fst).Nodup
  listed : ∀ market assets, (market, assets) ∈ listings ↔ marketAssets st market = some assets

variable {listings : List (UInt32 × UInt32 × UInt32)}

theorem MarketIndex.deliver (h : MarketIndex st listings) (item : WorkItem) :
    ∃ new, MarketIndex (Service.deliver P st item).1 (listings ++ new) := by
  rcases deliver_listings P st item with hframe | ⟨market, base, quote, hunlisted, hlisted⟩
  · refine ⟨[], ?_⟩
    rw [List.append_nil]
    refine ⟨?_, h.nodup, fun market assets ↦ ?_⟩
    · rw [hframe.getD_eq (by simp [listingKeys]), h.stored]
    · rw [h.listed, marketAssets, marketAssets, hframe.get_eq (by simp [listingKeys])]
  · rw [hlisted]
    refine ⟨[(market, base, quote)], ?_, ?_, fun other assets ↦ ?_⟩
    · rw [listMarket, getD_set_same, getD_set_ne _ _ (by simp), h.stored]
      simp
    · have hnew : market ∉ listings.map Prod.fst := by simp [h.listed, hunlisted]
      simpa using h.nodup.concat hnew
    · rw [marketAssets_listMarket, List.mem_append, h.listed]
      by_cases hsame : other = market
      · subst hsame
        simp [hunlisted, eq_comm]
      · simp [hsame]

theorem MarketIndex.runItems (h : MarketIndex st listings) (items : List WorkItem) :
    ∃ new, MarketIndex (Service.runItems P st items) (listings ++ new) := by
  induction items generalizing st listings with
  | nil => exact ⟨[], by rwa [List.append_nil]⟩
  | cons item items ih =>
    obtain ⟨new, hnew⟩ := h.deliver item
    obtain ⟨more, hmore⟩ := ih hnew
    exact ⟨new ++ more, by rwa [← List.append_assoc]⟩

/-- In every run, the index names each listed market once, and listings are only added. -/
theorem market_index_exact (P : Primitives) (items more : List WorkItem) :
    ∃ listings new, MarketIndex (runItems P Store.empty items) listings ∧
      MarketIndex (runItems P Store.empty (items ++ more)) (listings ++ new) := by
  have hempty : MarketIndex Store.empty [] :=
    ⟨rfl, .nil, fun _ _ ↦ iff_of_false List.not_mem_nil nofun⟩
  obtain ⟨listings, hlistings⟩ := hempty.runItems items
  obtain ⟨new, hnew⟩ := hlistings.runItems more
  exact ⟨listings, new, hlistings, by rwa [runItems, List.foldl_append]⟩

end Jamswap.Service
