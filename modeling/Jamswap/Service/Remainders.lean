import Jamswap.Service.FillAttribution

/-!
# What a round leaves of its orders

After the clearing, refine computes what is left of every order from the fills under its id, puts
the remainders under sealed ids on the carry list and all others on the new book. So what stays of a
public order is its own exactly when nothing else traded under its id and, if units of it are left,
no sealed order carries that id (`book_exact_iff`, which also counts fills that wrap to nothing).
-/

namespace Jamswap.Service

open Library Engine

variable {P : Primitives}

/-! ### Splitting the remainders -/

variable {orders : List Order} {o : Order} {pub hidden : List Label} {i j : ℕ} {l l' : Label}
  {r : OrderRef} {inp : RoundInput}

theorem exists_of_mem_resting {c : Clearing} (h : o ∈ resting orders c) :
    ∃ o' ∈ orders, o.label = o'.label := by
  obtain ⟨o', ho', hsome⟩ := List.mem_filterMap.mp h
  split_ifs at hsome with hrem
  cases hsome
  exact ⟨o', ho', rfl⟩

/-- No public order carries the id of a sealed one. -/
def IdsApart (pub hidden : List Label) : Prop := ∀ l ∈ pub, ∀ l' ∈ hidden, l'.id ≠ l.id

/-- The test refine sorts remainders by. -/
def isSealedId (hidden : List Order) (o : Order) : Bool := hidden.any fun s ↦ s.id == o.id

theorem resting_append (pub hidden : List Order) (c : Clearing) :
    resting (pub ++ hidden) c = resting pub c ++ resting hidden c :=
  List.filterMap_append

section Apart

variable {pub hidden : List Order} (c : Clearing)

theorem isSealedId_of_mem_hidden (h : o ∈ resting hidden c) : isSealedId hidden o = true := by
  obtain ⟨o', ho', hlabel⟩ := exists_of_mem_resting h
  refine List.any_eq_true.mpr ⟨o', ho', ?_⟩
  exact beq_iff_eq.mpr (congrArg Label.id hlabel).symm

theorem isSealedId_of_mem_public (hapart : IdsApart (pub.map Order.label) (hidden.map Order.label))
    (h : o ∈ resting pub c) : isSealedId hidden o = false := by
  obtain ⟨o', ho', hlabel⟩ := exists_of_mem_resting h
  refine List.any_eq_false.mpr fun s hs hid ↦ ?_
  refine hapart _ (List.mem_map_of_mem ho') _ (List.mem_map_of_mem hs) ?_
  exact (beq_iff_eq.mp hid).trans (congrArg Label.id hlabel)

/-- The book is what is left of the public orders under ids that are not sealed. -/
theorem filter_resting_book :
    ((resting (pub ++ hidden) c).filter fun o ↦ !isSealedId hidden o) =
      (resting pub c).filter fun o ↦ !isSealedId hidden o := by
  have hdrop : ((resting hidden c).filter fun o ↦ !isSealedId hidden o) = [] :=
    List.filter_eq_nil_iff.mpr fun o ho ↦ by rw [isSealedId_of_mem_hidden c ho]; simp
  rw [resting_append, List.filter_append, hdrop, List.append_nil]

/-- What a round leaves on the book is left of its public orders. -/
theorem map_book_sublist {β : Type*} {f : Order → β} (hf : ∀ o q, f { o with qty := q } = f o)
    (ps : PublicSection) (hidden : List Order) :
    ((decodeOrders (clearRound P ps hidden).book).map f).Sublist
      ((ps.book ++ ps.newOrders).map f) := by
  set c := clear P (ps.book ++ ps.newOrders ++ hidden) with hc
  have hbook : decodeOrders (clearRound P ps hidden).book =
      (resting (ps.book ++ ps.newOrders) c).filter fun o ↦ !isSealedId hidden o := by
    rw [← filter_resting_book]
    exact decodeOrders_encodeOrders _
  rw [hbook]
  exact (List.filter_sublist.map f).trans (map_resting_sublist hf _ c)

/-- With the ids apart, the carry list takes the sealed remainders. -/
theorem filter_resting_hidden (hapart : IdsApart (pub.map Order.label) (hidden.map Order.label)) :
    (resting (pub ++ hidden) c).filter (isSealedId hidden) = resting hidden c := by
  rw [resting_append, List.filter_append]
  have hdrop : (resting pub c).filter (isSealedId hidden) = [] :=
    List.filter_eq_nil_iff.mpr fun o ho ↦ by rw [isSealedId_of_mem_public c hapart ho]; simp
  have hkeep : (resting hidden c).filter (isSealedId hidden) = resting hidden c :=
    List.filter_eq_self.mpr fun o ho ↦ isSealedId_of_mem_hidden c ho
  rw [hkeep, hdrop, List.nil_append]

end Apart

/-! ### Remainders that are an order's own -/

/-- What the fills under its id leave of an order is what it was not given. -/
def RemainderOwn (P : Primitives) (orders : List Order) (r : OrderRef) : Prop :=
  (r.order.remainder (clear P orders).fills).toNat = r.units - allotted P orders r.index

theorem remainderOwn_of_allocation_nil (h : allocation P orders = []) (r : OrderRef) :
    RemainderOwn P orders r := by
  rw [RemainderOwn, Order.remainder, filledUnder_of_allocation_nil h, allotted_of_allocation_nil h,
    UInt64.sub_zero, UInt32.toNat_toUInt64]
  rfl

theorem index_eq_of_id_eq_hidden (hapart : IdsApart pub hidden)
    (hnodup : (hidden.map Label.id).Nodup) (hi : (pub ++ hidden)[i]? = some l)
    (hge : pub.length ≤ i) (hj : (pub ++ hidden)[j]? = some l') (hid : l'.id = l.id) : j = i := by
  rw [List.getElem?_append_right hge] at hi
  by_cases hjlt : j < pub.length
  · rw [List.getElem?_append_left hjlt] at hj
    exact absurd hid.symm (hapart l' (List.mem_of_getElem? hj) l (List.mem_of_getElem? hi))
  · rw [List.getElem?_append_right (Nat.le_of_not_lt hjlt)] at hj
    have hoffset : j - pub.length = i - pub.length := by
      obtain ⟨hin, -⟩ := List.getElem?_eq_some_iff.mp hj
      refine (List.getElem?_inj (by simpa using hin) hnodup).mp ?_
      rw [List.getElem?_map, List.getElem?_map, hi, hj, Option.map_some, Option.map_some, hid]
    omega

theorem getElem?_label (h : r ∈ refs orders) :
    (orders.map Order.label)[r.index]? = some r.order.label := by
  rw [List.getElem?_map, mem_refs_iff.mp h, Option.map_some]

/-- A position whose id occurs nowhere else, or in a batch that does not trade. -/
theorem remainderOwn_of_unique {orders : List Order} (hlen : orders.length ≤ 2 ^ 32) {r : OrderRef}
    (hr : r ∈ refs orders)
    (hunique : ∀ (j : ℕ) (l : Label), (orders.map Order.label)[j]? = some l →
      l.id = r.order.label.id → j = r.index) : RemainderOwn P orders r := by
  refine toNat_remainder_of_unique hlen hr fun r' hr' hid ↦ ?_
  exact eq_of_index_eq hr' hr (hunique r'.index r'.order.label (getElem?_label hr') hid)

/-! ### The new book -/

/-- What is left of a public order: it is reduced by the units it was itself allotted, and dropped
when nothing is left. -/
def exactEntry (P : Primitives) (inp : RoundInput) (r : OrderRef) : Option Order :=
  let left := r.units - allotted P inp.orders r.index
  if 0 < left then some { r.order with qty := UInt32.ofNat left } else none

/-- The public orders, book before new ones, each as it is left. -/
def exactBook (P : Primitives) (inp : RoundInput) : List Order :=
  (refs inp.publicOrders).filterMap (exactEntry P inp)

/-- What refine puts on the book for a public order. -/
def bookEntry (P : Primitives) (inp : RoundInput) (r : OrderRef) : Option Order :=
  let left := r.order.remainder (clear P inp.orders).fills
  if 0 < left ∧ isSealedId inp.sealedOrders r.order = false then
    some { r.order with qty := left.toUInt32 }
  else none

/-- The ids of a round leave the public order alone: under a sealed order's id nothing of it is
left, and under another id nothing traded but itself, up to fills that wrap around while units of it
are left. -/
def Undisturbed (P : Primitives) (inp : RoundInput) (r : OrderRef) : Prop :=
  if isSealedId inp.sealedOrders r.order then allotted P inp.orders r.index = r.units
  else 2 ^ 32 ∣ namesakeUnits P inp.orders r ∧
    (allotted P inp.orders r.index = r.units → namesakeUnits P inp.orders r = 0)

theorem mem_refs_append_left {pub : List Order} (hidden : List Order) (h : r ∈ refs pub) :
    r ∈ refs (pub ++ hidden) := by
  have hget := mem_refs_iff.mp h
  obtain ⟨hlt, -⟩ := List.getElem?_eq_some_iff.mp hget
  rw [mem_refs_iff, List.getElem?_append_left hlt]
  exact hget

/-- Refine leaves a public order as it should exactly when the ids leave it alone. -/
theorem bookEntry_eq_exactEntry_iff (hlen : inp.orders.length ≤ 2 ^ 32)
    (h : r ∈ refs inp.publicOrders) :
    bookEntry P inp r = exactEntry P inp r ↔ Undisturbed P inp r := by
  have hmem : r ∈ refs inp.orders := mem_refs_append_left inp.sealedOrders h
  have hle := allotted_le_units (P := P) hmem
  have hunits : r.units < 2 ^ 32 := r.order.qty.toNat_lt
  have hfilled := toNat_filledUnder_eq (P := P) hlen hmem
  have hlt := (filledUnder (clear P inp.orders).fills r.order.id).toNat_lt
  have hrem : (r.order.remainder (clear P inp.orders).fills).toNat =
      (2 ^ 64 - (allotted P inp.orders r.index + namesakeUnits P inp.orders r) + r.units) %
        2 ^ 64 := by
    rw [Order.remainder, UInt64.toNat_sub, hfilled, UInt32.toNat_toUInt64]
    rfl
  rw [hfilled] at hlt
  have hpos : 0 < r.order.remainder (clear P inp.orders).fills ↔
      allotted P inp.orders r.index + namesakeUnits P inp.orders r ≠ r.units := by
    rw [UInt64.lt_iff_toNat_lt, hrem]
    show 0 < _ ↔ _
    omega
  have hqty : (r.order.remainder (clear P inp.orders).fills).toUInt32 =
      UInt32.ofNat (r.units - allotted P inp.orders r.index) ↔
        2 ^ 32 ∣ namesakeUnits P inp.orders r := by
    rw [← UInt32.toNat_inj, UInt64.toNat_toUInt32, hrem, UInt32.toNat_ofNat']
    omega
  simp only [bookEntry, exactEntry, Undisturbed, hpos]
  cases hsealed : isSealedId inp.sealedOrders r.order with
  | true =>
    simp
    omega
  | false =>
    by_cases hfull : allotted P inp.orders r.index = r.units
    · simp [hfull]
      omega
    · have hleft : 0 < r.units - allotted P inp.orders r.index := by omega
      by_cases hgone : allotted P inp.orders r.index + namesakeUnits P inp.orders r = r.units
      · simp [hleft, hfull, hgone]
        omega
      · simp [hleft, hfull, hgone, hqty]

/-- The emitted book is the exact one; so none of its orders grew, and an untraded public order is
still there. -/
def BookExact (P : Primitives) (inp : RoundInput) (r : RoundOutput) : Prop :=
  r.trailer.book = encodeOrders (exactBook P inp) ∧
    (∀ o ∈ decodeOrders r.trailer.book, ∃ o' ∈ inp.publicOrders,
      o = { o' with qty := o.qty } ∧ o.qty.toNat ≤ o'.qty.toNat) ∧
    ∀ ref ∈ refs inp.publicOrders, allotted P inp.orders ref.index = 0 → 0 < ref.units →
      ref.order ∈ decodeOrders r.trailer.book

/-- The book holds, order by order, what refine leaves of the public orders. -/
theorem sections_book (P : Primitives) (inp : RoundInput) (rid : Bytes32) :
    (inp.sections P rid).trailer.book =
      encodeOrders ((refs inp.publicOrders).filterMap (bookEntry P inp)) := by
  have hentries : ((resting inp.publicOrders (clear P inp.orders)).filter fun o ↦
      !isSealedId inp.sealedOrders o) = (refs inp.publicOrders).filterMap (bookEntry P inp) := by
    conv_lhs => rw [← map_order_refs inp.publicOrders]
    rw [resting, List.filterMap_map, List.filter_filterMap]
    refine List.filterMap_congr fun r _ ↦ ?_
    simp only [Function.comp_apply, bookEntry]
    split_ifs <;> simp_all [Option.filter, isSealedId]
  rw [← hentries]
  exact congrArg encodeOrders (filter_resting_book _)

theorem exactBook_spec (h : o ∈ exactBook P inp) :
    ∃ o' ∈ inp.publicOrders, o = { o' with qty := o.qty } ∧ o.qty.toNat ≤ o'.qty.toNat := by
  obtain ⟨r, hr, hsome⟩ := List.mem_filterMap.mp h
  simp only [exactEntry] at hsome
  split_ifs at hsome with hleft
  cases hsome
  refine ⟨r.order, List.mem_of_getElem? (mem_refs_iff.mp hr), rfl, ?_⟩
  rw [UInt32.toNat_ofNat']
  exact (Nat.mod_le _ _).trans (Nat.sub_le _ _)

theorem mem_exactBook_of_untraded (hr : r ∈ refs inp.publicOrders)
    (huntraded : allotted P inp.orders r.index = 0) (hpos : 0 < r.units) :
    r.order ∈ exactBook P inp := by
  refine List.mem_filterMap.mpr ⟨r, hr, ?_⟩
  have hqty : UInt32.ofNat r.units = r.order.qty := UInt32.ofNat_toNat
  simp only [exactEntry, huntraded, Nat.sub_zero, if_pos hpos, hqty]

/-- Public orders that are each left as they should make the book exact. -/
theorem bookExact_of_entries
    (h : ∀ r ∈ refs inp.publicOrders, bookEntry P inp r = exactEntry P inp r) (rid : Bytes32) :
    BookExact P inp (inp.sections P rid) := by
  have hbook : (inp.sections P rid).trailer.book = encodeOrders (exactBook P inp) := by
    rw [sections_book, exactBook, List.filterMap_congr h]
  rw [BookExact, hbook, decodeOrders_encodeOrders]
  exact ⟨rfl, fun o ho ↦ exactBook_spec ho,
    fun r hr huntraded hpos ↦ mem_exactBook_of_untraded hr huntraded hpos⟩

/-- The book of a round holds, order by order, what is left of the public orders; each is left less
its own fills if and only if the ids leave it alone, and then the book is exact. -/
theorem book_exact_iff (P : Primitives) (payload : WorkPayload) (inp : RoundInput)
    (hinput : roundInput P payload.val = some inp) :
    (∀ out, workResult P payload = .ok out →
      parseRoundOutput out.val = some (inp.sections P (roundId P payload.val))) ∧
    (inp.sections P (roundId P payload.val)).trailer.book =
      encodeOrders ((refs inp.publicOrders).filterMap (bookEntry P inp)) ∧
    ((∀ r ∈ refs inp.publicOrders, bookEntry P inp r = exactEntry P inp r) ↔
      ∀ r ∈ refs inp.publicOrders, Undisturbed P inp r) ∧
    ((∀ r ∈ refs inp.publicOrders, Undisturbed P inp r) →
      BookExact P inp (inp.sections P (roundId P payload.val))) := by
  have hlen := ((roundInput_spec hinput).orders_length_lt payload.property).le
  have hiff : (∀ r ∈ refs inp.publicOrders, bookEntry P inp r = exactEntry P inp r) ↔
      ∀ r ∈ refs inp.publicOrders, Undisturbed P inp r :=
    forall₂_congr fun r hr ↦ bookEntry_eq_exactEntry_iff hlen hr
  exact ⟨fun _ hok ↦ parseRoundOutput_of_workResult hok hinput, sections_book P inp _, hiff,
    fun h ↦ bookExact_of_entries (hiff.mpr h) _⟩

/-- Two ids that trade, and an id that two orders share but nothing trades under. -/
theorem book_exact_two_ids :
    BookExact Primitives.toy crossedRound
        (crossedRound.sections Primitives.toy (roundId Primitives.toy crossedPayload.val)) ∧
      BookExact Primitives.toy uncrossedRound
        (uncrossedRound.sections Primitives.toy
          (roundId Primitives.toy uncrossedPayload.val)) := by
  refine ⟨(book_exact_iff Primitives.toy crossedPayload crossedRound
    roundInput_crossedPayload).2.2.2 ?_, (book_exact_iff Primitives.toy uncrossedPayload
      uncrossedRound roundInput_uncrossedPayload).2.2.2 ?_⟩ <;>
  · unfold Undisturbed
    decide +kernel

/-- Both orders trade in full, but the fills under their id are twice the quantity of either, so
each stays on the book with a wrapped one. -/
theorem sharedIdPayload_book_grows :
    ∃ inp out, roundInput Primitives.toy sharedIdPayload.val = some inp ∧
      inp.publicOrders = sharedIdBook ∧ workResult Primitives.toy sharedIdPayload = .ok out ∧
      (parseRoundOutput out.val).map (fun r ↦ decodeOrders r.trailer.book) =
        some [⟨1, 7, .buy, 5, 4294967286⟩, ⟨2, 7, .sell, 5, 4294967286⟩] ∧
      exactBook Primitives.toy inp = [] := by
  refine ⟨⟨.smatch, 0, 1, 2,
    ⟨sharedIdBook, [], Primitives.toy.blake2s (encodeOrders sharedIdBook)⟩⟩,
    ⟨refine Primitives.toy sharedIdPayload.val, by decide +kernel⟩, by decide +kernel,
    by decide +kernel, ?_, ?_, ?_⟩
  · exact dif_pos _
  · decide +kernel
  · decide +kernel

/-! ### Rounds with chosen quantities -/

theorem exists_positions_of_not_nodup {labels : List Label} (h : ¬ (labels.map Label.id).Nodup) :
    ∃ (i j : ℕ) (l l' : Label),
      i ≠ j ∧ labels[i]? = some l ∧ labels[j]? = some l' ∧ l'.id = l.id := by
  rw [List.nodup_iff_getElem?_ne_getElem?] at h
  push Not at h
  obtain ⟨i, j, hij, hj, heq⟩ := h
  rw [List.length_map] at hj
  have hi := List.getElem?_eq_getElem (hij.trans hj)
  have hj' := List.getElem?_eq_getElem hj
  rw [List.getElem?_map, List.getElem?_map, hi, hj', Option.map_some, Option.map_some] at heq
  exact ⟨i, j, _, _, hij.ne, hi, hj', (Option.some.inj heq).symm⟩

/-- Two positions with one id: some round fills every order and yet leaves a remainder at the first
of the two. -/
theorem exists_overfilled_round (P : Primitives) (hfit : probeRoundLen pub hidden ≤ maxInput)
    (hi : (pub ++ hidden)[i]? = some l) (hj : (pub ++ hidden)[j]? = some l') (hij : i ≠ j)
    (hid : l'.id = l.id) (hsides : ¬ OneSided (pub ++ hidden)) :
    ∃ (payload : WorkPayload) (inp : RoundInput) (o : Order),
      roundInput P payload.val = some inp ∧ inp.publicOrders.map Order.label = pub ∧
      inp.sealedOrders.map Order.label = hidden ∧
      (∀ r ∈ refs inp.orders, allotted P inp.orders r.index = r.units) ∧
      inp.orders[i]? = some o ∧ 0 < o.remainder (clear P inp.orders).fills := by
  have hlen : (pub ++ hidden).length ≤ 2 ^ 32 := by
    rw [List.length_append]
    simp only [probeRoundLen, maxInput] at hfit
    omega
  obtain ⟨qtys, o, hbalanced, hget, -, hrem⟩ := exists_overfilled P hlen hi hj hij hid hsides
  obtain ⟨payload, inp, hinput, horders, hpub, hhidden⟩ := exists_probeRound P hfit qtys
  rw [← horders] at hbalanced hget hrem
  exact ⟨payload, inp, o, hinput, hpub, hhidden, fun r hr ↦ hbalanced.allotted_eq_units P hr, hget,
    UInt64.pos_iff_ne_zero.mpr hrem⟩

theorem mem_resting_of_remainder {c : Clearing} (ho : o ∈ orders) (hrem : 0 < o.remainder c.fills) :
    { o with qty := (o.remainder c.fills).toUInt32 } ∈ resting orders c :=
  List.mem_filterMap.mpr ⟨o, ho, if_pos hrem⟩

end Jamswap.Service
