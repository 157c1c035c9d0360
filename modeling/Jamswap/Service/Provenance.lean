import Jamswap.Service.Atomicity
import Jamswap.Service.Authorisation
import Jamswap.Service.Fees
import Jamswap.Service.Remainders

/-!
# Where the orders on a book come from

Books are written by rounds, and rounds are made by untrusted builders. Still every order on a book
was once a new order of an accepted round, signed by the owner of its account for this market, and
only its quantity has changed since. The book lists them in the order in which they came and none of
them twice: it is a sublist of all the orders the run let in (`book_of_signed_orders`).
-/

namespace Jamswap.Service

open Library Engine Storage

/-- What stays of an order while it rests. -/
def terms (o : Order) : Order := { o with qty := 0 }

/-- The terms of the new public orders that an item lets in, if it is an accepted round of the
market. -/
def letIn (P : Primitives) (market : UInt32) (st : Storage) (item : WorkItem) : List Order :=
  match (deliver P st item).2, roundInput P item.payload.val with
  | .accepted, some inp => if inp.market = market then inp.ps.newOrders.map terms else []
  | _, _ => []

section Book

variable {P : Primitives} {market : UInt32} {st : Storage} {item : WorkItem}

/-- Only the owner of an account gets an order of it in. -/
theorem placedByOwner_of_letIn {o : Order} (h : o ∈ letIn P market st item) :
    ∃ placed seq, o = terms placed ∧ PlacedByOwner P st item.payload.val market placed seq := by
  unfold letIn at h
  split at h
  · rename_i inp haccepted hinput
    split_ifs at h with hmarket
    · obtain ⟨floors, mid, hdelivery⟩ := roundDelivery_of_input hinput (Prod.ext rfl haccepted)
      obtain ⟨placed, hplaced, rfl⟩ := List.mem_map.mp h
      obtain ⟨a, ha, rfl⟩ := List.mem_map.mp hplaced
      exact ⟨a.1, a.2.seq, rfl, hmarket ▸ hdelivery.placedByOwner ha⟩
    · cases h
  · cases h

/-- The terms of the orders on the market's book. -/
def bookTerms (market : UInt32) (st : Storage) : List Order :=
  (decodeOrders (st.getD (.book market))).map terms

/-- An item leaves on the book what was there and what it lets in. -/
theorem bookTerms_deliver (h : NoCollision P item.payload.val (st.getD (.book market))) :
    (bookTerms market (deliver P st item).1).Sublist
      (bookTerms market st ++ letIn P market st item) := by
  unfold bookTerms
  rcases book_of_deliver P st item market with hsame | ⟨kept, hkept, hbook⟩ |
    ⟨inp, floors, mid, hdelivery, haccepted, rfl, hbook⟩
  · rw [hsame]
    exact List.sublist_append_left _ _
  · rw [hbook, decodeOrders_encodeOrders]
    exact (hkept.map terms).trans (List.sublist_append_left _ _)
  · have hletIn : letIn P inp.market st item = inp.ps.newOrders.map terms := by
      rw [letIn, haccepted, hdelivery.input]
      exact if_pos rfl
    rw [hbook, hletIn]
    refine (map_book_sublist (fun _ _ ↦ rfl) inp.ps inp.sealedOrders).trans ?_
    rw [List.map_append]
    exact ((hdelivery.book_sublist h).map terms).append_right _

end Book

/-- Unless a payload's bytes collide with the book's, the book of a market is a sublist of the
orders that its rounds let in, in their order and in all but the quantities, and each of those was
placed by the owner of its account. -/
theorem book_of_signed_orders (P : Primitives) (market : UInt32) (items : List WorkItem)
    (h : AlongRun (deliverRound P)
      (fun st item ↦ NoCollision P item.payload.val (st.getD (.book market))) Store.empty items) :
    (bookTerms market (runItems P Store.empty items)).Sublist
        (issuedOver (deliverRound P) (letIn P market) Store.empty items) ∧
      ∀ st item, ∀ o ∈ letIn P market st item,
        ∃ placed seq, o = terms placed ∧
          PlacedByOwner P st item.payload.val market placed seq := by
  refine ⟨?_, fun _ _ _ ↦ placedByOwner_of_letIn⟩
  have hrun := sublist_issued (bookTerms market) (fun _ _ ↦ bookTerms_deliver) h
  have hempty : bookTerms market Store.empty = [] :=
    congrArg (List.map terms) (decodeOrders_encodeOrders [])
  rwa [hempty, List.nil_append] at hrun

/-- The buy that a first round leaves on the book is the one its owner signed. -/
theorem book_of_signed_orders_buyItem :
    bookTerms 0 (runItems Primitives.toy Store.empty (openingItems ++ [buyItem])) =
        [⟨1, 7, .buy, 5, 0⟩] ∧
      (bookTerms 0 (runItems Primitives.toy Store.empty (openingItems ++ [buyItem]))).Sublist
        (issuedOver (deliverRound Primitives.toy) (letIn Primitives.toy 0) Store.empty
          (openingItems ++ [buyItem])) := by
  refine ⟨by decide +kernel, (book_of_signed_orders Primitives.toy 0 _ ?_).1⟩
  refine ⟨?_, ?_, ?_, ?_, trivial⟩
  all_goals exact noCollision_toy (by decide +kernel) (by decide +kernel)

end Jamswap.Service
