import Jamswap.Service.Delivery
import Jamswap.Service.Indexed.Parsers

/-!
# Refine with its indexing

The parsers of the three round types and `refine` itself, written with the accesses the source
makes: the public section with its prune list, the reveals searched for among the commitments, and
the encrypted round with the partials of its committee. Refine finishes on every payload, with the
output of the total function (`refine_eq`).
-/

namespace Jamswap.Service.Indexed

open Library Library.Access Engine
open Library.Parse (Runs)

variable (P : Primitives)

/-! ### The signed public section -/

/-- `for i in 0..np`: is the order at one of the positions of the prune list? -/
def isPruned (pruned : Bytes) (np : ℕ) (o : Order) : Access Bool :=
  anyFrom (fun i ↦ do
    let account ← word32 pruned (i * 8)
    if o.account == account then
      let id ← word32 pruned (i * 8 + 4)
      .ok (o.id == id)
    else .ok false) np 0

theorem u32At_slice {b : Bytes} {i j k : ℕ} (h : i + k + 4 ≤ j) :
    u32At (slice b i j) k = u32At b (i + k) := by
  rw [u32At, u32At, slice_slice b (by omega), Nat.add_assoc]

variable (data : Bytes) {pruned : Bytes} {np n : ℕ} {tag : Tag}

theorem isPruned_eq (h : pruned.length = np * 8) (o : Order) :
    isPruned pruned np o = .ok (Service.isPruned pruned o) := by
  have hnp : np = pruned.length / 8 := by omega
  rw [isPruned, hnp, Service.isPruned]
  refine anyFrom_records fun i hi ↦ ?_
  rw [word32_eq (by omega), ok_bind, u32At_slice (by omega), u32At_slice (by omega), Nat.add_zero]
  cases o.account == u32At pruned (i * 8) with
  | false => rfl
  | true =>
    rw [if_pos rfl, word32_eq (by omega), ok_bind]
    rfl

/-- The orders of the book that are not pruned. -/
def keepUnpruned (pruned : Bytes) (np : ℕ) (orders : List Order) : Access (List Order) :=
  orders.foldlM (fun book o ↦ do
    let drop ← isPruned pruned np o
    .ok (if drop then book else book ++ [o])) []

theorem keepUnpruned_eq (h : pruned.length = np * 8) (orders : List Order) :
    keepUnpruned pruned np orders = .ok (orders.filter fun o ↦ !Service.isPruned pruned o) := by
  have hfold : ∀ book : List Order, orders.foldl (fun book o ↦
      if Service.isPruned pruned o then book else book ++ [o]) book =
        book ++ orders.filter fun o ↦ !Service.isPruned pruned o := by
    induction orders with
    | nil => simp
    | cons o orders ih =>
      intro book
      rw [List.foldl_cons, ih, List.filter_cons]
      cases Service.isPruned pruned o <;> simp
  rw [keepUnpruned, foldlM_eq fun book o _ ↦ by rw [isPruned_eq h, ok_bind], hfold,
    List.nil_append]

def parsePublicSection (data : Bytes) (off : ℕ) (market : UInt32) : Parse PublicSection := do
  let ns := (← Parse.access (word16 (← Parse.get data off (off + 2)) 0)).toNat
  let off := off + 2
  let sblob ← Parse.get data off (off + ns * signedOrderLen)
  let off := off + ns * signedOrderLen
  let signed ← Parse.access (decodeSignedOrders sblob)
  if signed.length ≠ ns then failure
  else
    let admitted ← Parse.ofOption (signed.mapM (admitSigned P market))
    let np := (← Parse.access (word16 (← Parse.get data off (off + 2)) 0)).toNat
    let off := off + 2
    let pruned ← Parse.get data off (off + np * 8)
    let off := off + np * 8
    let bookBytes ← Parse.ofOption (suffix? data off)
    let orders ← Parse.access (decodeOrders bookBytes)
    let book ← Parse.access (keepUnpruned pruned np orders)
    pure { book, admitted, bookHash := commitment P bookBytes }

theorem parsePublicSection_runs (off : ℕ) (market : UInt32) :
    Runs (parsePublicSection P data off market) (Service.parsePublicSection P data off market) := by
  have hword : ∀ i, i + 2 ≤ data.length → word16 (slice data i (i + 2)) 0 =
      .ok (u16At (slice data i (i + 2)) 0) := by
    intro i hi
    refine word16_eq ?_
    rw [length_slice data _ _ hi]
    omega
  refine Runs.get fun _ hns ↦ Runs.access (hword off hns) ?_
  generalize (u16At (slice data off (off + 2)) 0).toNat = ns
  refine Runs.get fun _ _ ↦ Runs.access (decodeSignedOrders_eq _) ?_
  refine Runs.ite (fun _ ↦ Runs.fail) fun _ ↦ ?_
  refine Runs.bind (Runs.ofOption _) fun admitted _ ↦ ?_
  generalize off + 2 + ns * signedOrderLen = off
  refine Runs.get fun _ hnp ↦ Runs.access (hword off hnp) ?_
  generalize (u16At (slice data off (off + 2)) 0).toNat = np
  refine Runs.get fun _ hpruned ↦ ?_
  refine Runs.bind (Runs.ofOption _) fun bookBytes _ ↦ ?_
  have hlen : (slice data (off + 2) (off + 2 + np * 8)).length = np * 8 := by
    rw [length_slice data _ _ hpruned]
    omega
  refine Runs.access (decodeOrders_eq _) (Runs.access (keepUnpruned_eq hlen _) ?_)
  exact Runs.pure _

/-! ### Rounds -/

def smatchInput (data : Bytes) : Parse RoundInput :=
  if 13 ≤ data.length then do
    let market ← Parse.access (word32 data 1)
    let base ← Parse.access (word32 data 5)
    let quote ← Parse.access (word32 data 9)
    let ps ← parsePublicSection P data 13 market
    pure { kind := .smatch, market, base, quote, ps }
  else failure

theorem smatchInput_runs : Runs (smatchInput P data) (Service.smatchInput P data) := by
  refine Runs.ite (fun hlen ↦ ?_) fun _ ↦ Runs.fail
  refine Runs.access (word32_eq (by omega)) (Runs.access (word32_eq (by omega)) ?_)
  refine Runs.access (word32_eq (by omega)) ?_
  exact Runs.bind (parsePublicSection_runs P _ _ _) fun ps _ ↦ Runs.pure _

/-- `for j in 0..n_commit`: is the hash among the commitments? -/
def isCommitted (commits : Bytes) (h : Bytes32) : Access Bool :=
  anyFrom (fun j ↦ do
    let c ← range commits (j * 32) (j * 32 + 32)
    .ok (c == h.val)) (commits.length / 32) 0

theorem isCommitted_eq (commits : Bytes) (h : Bytes32) :
    isCommitted commits h = .ok ((records 32 commits).contains h.val) := by
  have hany : (records 32 commits).contains h.val =
      (records 32 commits).any fun c ↦ c == h.val := by
    rw [List.contains_eq_any_beq]
    refine congrArg _ (funext fun c ↦ ?_)
    exact Bool.beq_comm
  rw [hany, isCommitted]
  refine anyFrom_records fun j hj ↦ ?_
  rw [range_eq (by omega) (by omega), ok_bind, Nat.succ_mul]

/-- One reveal: its order and the entry it consumes, if its hash is among the commitments. -/
def admitReveal (commits reveal : Bytes) : Access (Option Opened) := do
  let h := commitment P reveal
  let ok ← isCommitted commits h
  if ok then
    let orders ← decodeOrders (← range reveal 0 orderLen)
    .ok (orders.head?.map fun o ↦ ⟨o, h.val ++ u32Bytes o.account⟩)
  else .ok none

theorem admitReveal_eq (commits : Bytes) {reveal : Bytes} (h : reveal.length = revealLen) :
    admitReveal P commits reveal = .ok (Service.admitReveal P commits reveal) := by
  have hlen : orderLen ≤ reveal.length := by
    rw [h]
    decide
  simp only [admitReveal, Service.admitReveal]
  rw [isCommitted_eq, ok_bind]
  split_ifs with hok
  · rw [range_eq (Nat.zero_le _) hlen, ok_bind, decodeOrders_eq, ok_bind]
  · rfl

def revealInput (data : Bytes) : Parse RoundInput :=
  if 17 ≤ data.length then do
    let cl := (← Parse.access (word32 data 13)).toNat
    if data.length < 21 + cl then failure
    else
      let market ← Parse.access (word32 data 1)
      let base ← Parse.access (word32 data 5)
      let quote ← Parse.access (word32 data 9)
      let commits ← Parse.access (range data 17 (17 + cl))
      let rl := (← Parse.access (word32 data (17 + cl))).toNat
      let revealsOff := 21 + cl
      if data.length < revealsOff + rl then failure
      else
        let reveals ← Parse.access (range data revealsOff (revealsOff + rl))
        let ps ← parsePublicSection P data (revealsOff + rl) market
        let opened ← Parse.access (eachRecord revealLen reveals (admitReveal P commits))
        pure { kind := .reveal (opened.filterMap id), market, base, quote, ps }
  else failure

theorem revealInput_runs : Runs (revealInput P data) (Service.revealInput P data) := by
  refine Runs.ite (fun hlen ↦ ?_) fun _ ↦ Runs.fail
  refine Runs.access (word32_eq (by omega)) ?_
  refine Runs.ite (fun _ ↦ Runs.fail) fun hcl ↦ ?_
  generalize (u32At data 13).toNat = cl at hcl ⊢
  refine Runs.access (word32_eq (by omega)) (Runs.access (word32_eq (by omega)) ?_)
  refine Runs.access (word32_eq (by omega)) ?_
  refine Runs.access (range_eq (by omega) (by omega)) ?_
  refine Runs.access (word32_eq (by omega)) ?_
  refine Runs.ite (fun _ ↦ Runs.fail) fun hrl ↦ ?_
  generalize (u32At data (17 + cl)).toNat = rl at hrl ⊢
  refine Runs.access (range_eq (by omega) (by omega)) ?_
  refine Runs.bind (parsePublicSection_runs P _ _ _) fun ps _ ↦ ?_
  refine Runs.access (eachRecord_eq fun r ↦ admitReveal_eq P _) ?_
  rw [List.filterMap_map]
  exact Runs.pure _

/-- `for i in 0..n`: the committee's keys. -/
def memberKeys (n : ℕ) (pksBlob : Bytes) : Access (List Bytes32) :=
  (List.range n).mapM fun i ↦ do
    array 32 (← range pksBlob (i * pointLen) ((i + 1) * pointLen))

theorem memberKeys_eq {pksBlob : Bytes} (h : pksBlob.length = n * pointLen) (x : UInt8) :
    memberKeys n pksBlob = .ok (committeeKeys (x :: pksBlob)) := by
  have hcount : pksBlob.length / pointLen = n := by
    rw [h]
    exact Nat.mul_div_cancel n (by decide)
  rw [committeeKeys, List.drop_one, List.tail_cons, records, hcount, List.map_map]
  refine mapM_eq fun i hi ↦ ?_
  have hend : (i + 1) * pointLen ≤ pksBlob.length := by
    rw [h]
    exact Nat.mul_le_mul_right _ (List.mem_range.mp hi)
  have hslice : (slice pksBlob (i * pointLen) ((i + 1) * pointLen)).length = 32 := by
    rw [length_slice pksBlob _ _ hend, Nat.succ_mul]
    exact Nat.add_sub_cancel_left _ _
  rw [range_eq (Nat.mul_le_mul_right _ (Nat.le_succ i)) hend, ok_bind, array_eq hslice]
  rfl

/-- Ciphertext `i` of a round, opened with the partials at its position. -/
def openCiphertext (pks : List Bytes32) (n : ℕ) (ciphertexts : List (Bytes × Bytes))
    (partialsBlob : Bytes) (i : ℕ) : Parse Opened := do
  let ct ← Parse.access (index ciphertexts i)
  let parts ← Parse.access (range partialsBlob (i * n * partialLen) ((i + 1) * n * partialLen))
  let orderBytes ← verifyAndDecrypt P ct.1 ct.2 pks parts
  let orders ← Parse.access (decodeOrders orderBytes)
  let o ← Parse.ofOption orders.head?
  pure ⟨o, (commitment P (ct.1 ++ ct.2)).val ++ u32Bytes o.account⟩

theorem openCiphertexts_runs (pks : List Bytes32) {m : ℕ} (hn : n ≠ 0)
    {ciphertexts : List (Bytes × Bytes)} (hm : ciphertexts.length = m) {partialsBlob : Bytes}
    (h : partialsBlob.length = m * n * partialLen) :
    Runs ((List.range m).mapM (openCiphertext P pks n ciphertexts partialsBlob))
      ((ciphertexts.zip (records (n * partialLen) partialsBlob)).mapM
        (admitCiphertext P pks)) := by
  have hwidth : 0 < n * partialLen := Nat.mul_pos (Nat.pos_of_ne_zero hn) (by decide)
  rw [zip_records hwidth (by rw [h, hm, Nat.mul_assoc]) ([], []), hm, List.mapM_map]
  refine Runs.mapM fun i hi ↦ ?_
  have hct : i < ciphertexts.length := by
    rw [hm]
    exact List.mem_range.mp hi
  have hend : (i + 1) * n * partialLen ≤ partialsBlob.length := by
    rw [h]
    exact Nat.mul_le_mul_right _ (Nat.mul_le_mul_right _ (List.mem_range.mp hi))
  have hstart : i * n * partialLen ≤ (i + 1) * n * partialLen :=
    Nat.mul_le_mul_right _ (Nat.mul_le_mul_right _ (Nat.le_succ i))
  refine Runs.access (index_getD hct ([], [])) (Runs.access (range_eq hstart hend) ?_)
  rw [Nat.mul_assoc, Nat.mul_assoc]
  refine Runs.bind (verifyAndDecrypt_runs P _ _ _ _) fun orderBytes _ ↦ ?_
  refine Runs.access (decodeOrders_eq _) ?_
  exact Runs.bind (Runs.ofOption _) fun o _ ↦ Runs.pure _

def encRoundInput (data : Bytes) : Parse RoundInput := do
  let n := (← Parse.ofOption data[13]?).toNat
  if n = 0 then failure
  else
    let market ← Parse.access (word32 data 1)
    let base ← Parse.access (word32 data 5)
    let quote ← Parse.access (word32 data 9)
    let off := 14
    let pksBlob ← Parse.get data off (off + n * pointLen)
    let pks ← Parse.access (memberKeys n pksBlob)
    let off := off + n * pointLen
    let m := (← Parse.access (word16 (← Parse.get data off (off + 2)) 0)).toNat
    let off := off + 2
    -- every access of this loop is a checked one
    let parsed ← Parse.ofOption (parseCiphertexts data m off)
    let ciphertexts := parsed.1
    let off := parsed.2
    let partialsBlob ← Parse.get data off (off + m * n * partialLen)
    let off := off + m * n * partialLen
    let ps ← parsePublicSection P data off market
    let opened ← (List.range m).mapM (openCiphertext P pks n ciphertexts partialsBlob)
    pure { kind := .encRound (UInt8.ofNat n :: pksBlob) opened, market, base, quote, ps }

theorem encRoundInput_runs : Runs (encRoundInput P data) (Service.encRoundInput P data) := by
  refine Runs.bind (Runs.ofOption _) fun x hx ↦ ?_
  have hlen : 13 < data.length := (List.getElem?_eq_some_iff.mp hx).1
  refine Runs.ite (fun _ ↦ Runs.fail) fun hn ↦ ?_
  generalize x.toNat = n at hn ⊢
  refine Runs.access (word32_eq (by omega)) (Runs.access (word32_eq (by omega)) ?_)
  refine Runs.access (word32_eq (by omega)) ?_
  refine Runs.get fun _ hpks ↦ ?_
  have hblob : (slice data 14 (14 + n * pointLen)).length = n * pointLen := by
    rw [length_slice data _ _ hpks]
    omega
  refine Runs.access (memberKeys_eq hblob (UInt8.ofNat n)) ?_
  refine Runs.get fun _ hm ↦ ?_
  have hcount : (slice data (14 + n * pointLen) (14 + n * pointLen + 2)).length = 2 := by
    rw [length_slice data _ _ hm]
    omega
  refine Runs.access (word16_eq (by omega)) ?_
  generalize (u16At (slice data (14 + n * pointLen) (14 + n * pointLen + 2)) 0).toNat = m
  refine Runs.bind (Runs.ofOption _) fun parsed hparsed ↦ ?_
  refine Runs.get fun _ hpartials ↦ ?_
  have hparts : (slice data parsed.2 (parsed.2 + m * n * partialLen)).length =
      m * n * partialLen := by
    rw [length_slice data _ _ hpartials]
    omega
  refine Runs.bind (parsePublicSection_runs P _ _ _) fun ps _ ↦ ?_
  refine Runs.bind (openCiphertexts_runs P _ hn (length_parseCiphertexts hparsed) hparts)
    fun opened _ ↦ ?_
  exact Runs.pure _

/-! ### Refine -/

/-- The output of a round, empty if it was not parsed. -/
def roundOutput (data : Bytes) (round : Parse RoundInput) : Access Bytes := do
  match ← round.run with
  | some r => .ok (r.output P (roundId P data))
  | none => .ok []

def refine (data : Bytes) : Access Bytes :=
  if data.isEmpty then .ok []
  else do
    let t ← index data 0
    match Tag.ofByte t with
    | some .smatch => roundOutput P data (smatchInput P data)
    | some .reveal => roundOutput P data (revealInput P data)
    | some .encRound => roundOutput P data (encRoundInput P data)
    | some .deposit | some .list | some .carryCommit | some .carryEncCommit => .ok data
    | some _ => do
      let out ← (authenticate P data).run
      .ok (out.getD [])
    | none => .ok []

variable {data : Bytes}

theorem roundOutput_eq {round : Parse RoundInput} {o : Option RoundInput} (h : Runs round o) :
    roundOutput P data round = .ok (o.elim [] fun r ↦ r.output P (roundId P data)) := by
  rw [roundOutput, show round.run = .ok o from h, ok_bind]
  cases o with
  | none => rfl
  | some r => rfl

theorem refine_of_round (h : data.head?.bind Tag.ofByte = some tag)
    (hround : tag = .smatch ∨ tag = .reveal ∨ tag = .encRound) :
    Service.refine P data = (roundInput P data).elim [] fun r ↦ r.output P (roundId P data) := by
  rw [Service.refine, h]
  rcases hround with rfl | rfl | rfl <;> cases roundInput P data <;> rfl

theorem authenticated_eq (h : data.head?.bind Tag.ofByte = some tag) :
    ((authenticate P data).run >>= fun out ↦ (.ok (out.getD []) : Access Bytes)) =
      .ok ((Service.authenticate P tag data).getD []) := by
  rw [(authenticate_runs P h).run_bind]

/-- Refine finishes on every payload. -/
theorem refine_eq (data : Bytes) : refine P data = .ok (Service.refine P data) := by
  cases data with
  | nil => rfl
  | cons t rest =>
    have hfirst : index (t :: rest) 0 = .ok t := rfl
    rw [refine, if_neg (by simp), hfirst, ok_bind]
    cases htag : Tag.ofByte t with
    | none =>
      rw [Service.refine, List.head?_cons, Option.bind_some, htag]
    | some tag =>
      have hhead : (t :: rest).head?.bind Tag.ofByte = some tag := htag
      have hround := refine_of_round P hhead
      cases tag with
      | smatch =>
        rw [hround (by simp), roundInput, hhead]
        exact roundOutput_eq P (smatchInput_runs P _)
      | reveal =>
        rw [hround (by simp), roundInput, hhead]
        exact roundOutput_eq P (revealInput_runs P _)
      | encRound =>
        rw [hround (by simp), roundInput, hhead]
        exact roundOutput_eq P (encRoundInput_runs P _)
      | deposit | list | carryCommit | carryEncCommit => rw [Service.refine, hhead]
      | commit | cancel | withdraw | register | treasury | encSetup | encCommit =>
        rw [Service.refine, hhead]
        exact authenticated_eq P hhead

end Jamswap.Service.Indexed
