import Jamswap.Service.Delivery

/-!
# The words a client reads

A client of the chain reads an order floor or a last price as a little-endian integer of whatever
length is stored; the service reads its first eight bytes. The service never stores more than eight
bytes under these keys (`storedWords_runItems`), so the two readings are the same
(`toNat_getU64`).
-/

namespace Jamswap.Service

open Library Engine Storage

/-- Order floors and last prices. -/
def wordKeys : Set Key := {k | (∃ account, k = .sq account) ∨ ∃ market, k = .lp market}

/-- The floors and prices stored are words. -/
def StoredWords (st : Storage) : Prop := ∀ k ∈ wordKeys, (st.getD k).length ≤ 8

/-- Both readings of a stored word. -/
theorem toNat_getU64 {st : Storage} (h : StoredWords st) {k : Key} (hk : k ∈ wordKeys) :
    (getU64 st k).toNat = leValue (st.getD k) := by
  have hlen := h k hk
  have hslice : slice (st.getD k) 0 (0 + 8) = st.getD k := by
    rw [slice, List.drop_zero, List.take_of_length_le (by omega)]
  rw [getU64, u64At, hslice, UInt64.toNat_ofNat', Nat.mod_eq_of_lt]
  calc leValue (st.getD k) < 256 ^ (st.getD k).length := leValue_lt _
    _ ≤ 256 ^ 8 := Nat.pow_le_pow_right (by decide) hlen
    _ = 2 ^ 64 := by decide

namespace StoredWords

variable {st st' : Storage}

theorem frame {K : Set Key} (h : StoredWords st) (hframe : Frame K st st')
    (hK : ∀ k ∈ wordKeys, k ∉ K) : StoredWords st' := by
  intro k hk
  rw [hframe.getD_eq (hK k hk)]
  exact h k hk

theorem set (h : StoredWords st) (k : Key) {v : Bytes} (hv : v.length ≤ 8) :
    StoredWords (st.set k v) := by
  intro k' hk'
  by_cases hsame : k' = k
  · rw [hsame, getD_set_same]
    exact hv
  · rw [getD_set_ne _ _ hsame]
    exact h k' hk'

/-- Other keys may hold anything. -/
theorem set_other (h : StoredWords st) {k : Key} (hk : k ∉ wordKeys) (v : Bytes) :
    StoredWords (st.set k v) :=
  h.frame (frame_set_self st k v) fun _ hk' hsame ↦ hk (hsame ▸ hk')

theorem applySettlement (h : StoredWords st) (base quote market : UInt32)
    (settle bindings : Bytes) :
    StoredWords (applySettlement st base quote market settle bindings) := by
  have hbalances : ∀ k ∈ wordKeys, k ∉ balanceKeys := by
    rintro k (⟨account, rfl⟩ | ⟨market, rfl⟩) <;> simp
  simp only [Service.applySettlement]
  refine List.foldlRecOn _ _ ?_ fun st h b _ ↦ h.frame (frame_chargeFee base st b) hbalances
  cases decodeSettlement settle with
  | none => exact h
  | some decoded =>
    simp only []
    split_ifs
    · exact h
    · have hdeltas : StoredWords ((settleDeltas decoded.1 decoded.2 0 feeAccount scale).foldl
          (settleAccount base quote) st) :=
        List.foldlRecOn _ _ h fun st h d _ ↦
          h.frame (frame_settleAccount base quote st d) hbalances
      exact (hdeltas.set _ (by simp)).set _ (by simp)

/-- A round writes floors and a last price, each as a word. -/
theorem roundStep {P : Primitives} {slot : UInt32} {mid : Storage} {out : Bytes} {tag : Tag}
    {r : RoundOutput} {floors : List (UInt32 × UInt64)} (h : StoredWords st)
    (hstep : RoundStep P slot st out tag r floors mid st') : StoredWords st' := by
  have hmid : StoredWords mid := by
    refine h.frame (frame_consumeRound hstep.consumes) ?_
    rintro k (⟨account, rfl⟩ | ⟨market, rfl⟩) <;> simp
  have hfloors : StoredWords (raiseOrderFloors mid floors) :=
    List.foldlRecOn floors _ hmid fun st h f _ ↦ h.set _ (by simp)
  have hlanded : StoredWords (acceptRound mid floors r.trailer.roundId slot) := by
    refine hfloors.frame (frame_markLanded _ _ _) ?_
    rintro k (⟨account, rfl⟩ | ⟨market, rfl⟩) <;> simp
  have hminted := hlanded.frame (Carry.frame_mint _ (u32At out 1) r.carry) (by
    rintro k (⟨account, rfl⟩ | ⟨market, rfl⟩) <;> simp)
  have hbook := hminted.set_other (k := .book (u32At out 1)) (by simp [wordKeys]) r.trailer.book
  rw [hstep.finishes]
  exact hbook.applySettlement _ _ _ _ _

end StoredWords

/-- An item keeps the stored words. -/
theorem storedWords_deliver {P : Primitives} {st : Storage} (h : StoredWords st) (item : WorkItem) :
    StoredWords (deliver P st item).1 := by
  rcases deliver_cases P st item with hrefused | ⟨st', tag, hdeliver, htag, hround, hstep⟩ |
    ⟨st', inp, floors, mid, hdeliver, hdelivery⟩
  · rw [hrefused]
    exact h
  · rw [hdeliver]
    refine h.frame (hstep.frame htag) fun k hk ↦ ?_
    cases tag with
    | smatch | reveal | encRound => cases hround
    | _ =>
      rcases hk with ⟨account, rfl⟩ | ⟨market, rfl⟩ <;> simp
  · rw [hdeliver]
    exact h.roundStep hdelivery.step

/-- Every state the service reaches from one with stored words has them. -/
theorem storedWords_runItems (P : Primitives) {st : Storage} (h : StoredWords st)
    (items : List WorkItem) : StoredWords (runItems P st items) :=
  List.foldlRecOn items _ h fun _ h item _ ↦ storedWords_deliver h item

theorem storedWords_empty : StoredWords Store.empty := by
  intro k _
  exact Nat.zero_le 8

end Jamswap.Service
