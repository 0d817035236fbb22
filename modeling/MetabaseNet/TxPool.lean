/-
# The transaction pool's pending state: `CForkTxPool`

`src/blockchain/txpool.cpp`.  For each address that its pooled transactions touch, the pool
keeps a `CAddressTxState`: the pooled transactions of the address, the transactions that came
before their predecessors (`mapMissTx`, indexed by nonce in `mapMissNonce`), and a projected
state `stateAddress`.  `GetDestState` reads the projection where there is one that is not null
and the chain state at `hashLastBlock` otherwise; `AddTx` verifies a new transaction against
it and writes the projections of its sender and receiver.  `SynchronizeBlockChain` moves the
pool to a new chain tip: it removes the transactions of the adopted blocks, evicting the
pooled transactions of a sender when the block holds another transaction of it, adds back
those of the abandoned blocks, and refreshes the projections of the adopted transactions'
senders.

The chain is a map from block to the state of each address (`BlockChain`), and a block applies
its transactions as `applyTxAt` says.  What the pool should hold is that chain state at
`hashLastBlock` with the pooled transactions applied (`pendingExpected`).  The results:

* `AddTx` keeps the pending state `GetDestState` equal to it, whatever it does with a plain
  transfer (`addTx_pendingState`);
* `SynchronizeBlockChain` refreshes the senders only: an address that only receives in the
  adopted block keeps the projection it had before the block
  (`synchronizeBlockChain_stale_receiver`).
-/
import MetabaseNet.Lib.AssocMap
import MetabaseNet.TxFee
import Mathlib.Data.List.Sort

namespace MetabaseNet.TxPool

open AssocMap

/-! ## Address states and transactions -/

/-- `CDestState`, with the two fields the pool reads: the nonce of the last transaction sent
and the balance. -/
structure DestState where
  nTxNonce : ℕ
  nBalance : ℕ
  deriving DecidableEq, Repr

/-- The null state of `SetNull`. -/
instance : Inhabited DestState := ⟨⟨0, 0⟩⟩

namespace DestState

/-- `IsNull`: nothing sent, nothing held. -/
def isNull (s : DestState) : Bool := s.nTxNonce == 0 && s.nBalance == 0

/-- `GetNextTxNonce`. -/
def getNextTxNonce (s : DestState) : ℕ := s.nTxNonce + 1

/-- `VerifyTxNonce`: a transaction must carry the next nonce. -/
def verifyTxNonce (s : DestState) (nTxNonceIn : ℕ) : Bool := nTxNonceIn == s.nTxNonce + 1

/-- `IncTxNonce`. -/
def incTxNonce (s : DestState) : DestState := { s with nTxNonce := s.nTxNonce + 1 }

/-- `IncBalance`. -/
def incBalance (s : DestState) (v : ℕ) : DestState := { s with nBalance := s.nBalance + v }

/-- `DecBalance`. -/
def decBalance (s : DestState) (v : ℕ) : DestState := { s with nBalance := s.nBalance - v }

theorem isNull_iff {s : DestState} : s.isNull = true ↔ s = default := by
  obtain ⟨n, b⟩ := s
  simp [isNull, show (default : DestState) = ⟨0, 0⟩ from rfl]

/-- A credit leaves a null state only when it credits nothing to a null state. -/
theorem isNull_of_incBalance {s : DestState} {v : ℕ} (h : (s.incBalance v).isNull = true) :
    s.isNull = true ∧ s.incBalance v = s := by
  obtain ⟨n, b⟩ := s
  simp only [isNull, incBalance, Bool.and_eq_true, beq_iff_eq] at h ⊢
  obtain ⟨rfl, hb⟩ := h
  have hv : v = 0 := by omega
  subst hv
  exact ⟨⟨rfl, by omega⟩, rfl⟩

end DestState

variable {T D B : Type} [DecidableEq T] [LinearOrder D] [Inhabited D]

/-- `CPooledTx`: the fields of `CTransaction` that the pool reads.  The fee is `GetTxFee()` as a
number; its overflow is the subject of `addTxState_fee_overflow`. -/
structure PooledTx (D : Type) where
  nType : TxType
  destFrom : D
  destTo : D
  nTxNonce : ℕ
  nAmount : ℕ
  nTxFee : ℕ
  deriving DecidableEq, Repr

/-- The error codes the pool returns. -/
inductive Errno
  | ok | errAlreadyHave | errMissingPrev | errTransactionInputInvalid | errTransactionAtBlacklist
  deriving DecidableEq, Repr

/-- The chain as the pool sees it: `RetrieveDestState` at each block, `ExistsTx` and
`IsExistBlacklistAddress`. -/
structure BlockChain (T D B : Type) where
  retrieveDestState : B → D → DestState
  existsTx : T → Bool
  isExistBlacklistAddress : D → Bool

/-- `CCoreProtocol::VerifyTransaction` on a plain transfer: the balance must cover the amount and
the fee, and then the nonce must be the next one. -/
def verifyTransaction (tx : PooledTx D) (stateFrom : DestState) : Errno :=
  if stateFrom.nBalance < tx.nAmount + tx.nTxFee then .errTransactionInputInvalid
  else if tx.nType ≠ .cert ∧ tx.destFrom ≠ default then
    if stateFrom.verifyTxNonce tx.nTxNonce then .ok else .errMissingPrev
  else .ok

/-! ## `CAddressTxState` -/

/-- `MAX_CACHE_MISSING_PREV_TX_COUNT`. -/
def maxCacheMissingPrevTxCount : ℕ := 0x10000

/-- The pool's record of one address. -/
structure AddressTxState (T D : Type) where
  mapDestTx : List (T × PooledTx D)
  mapMissTx : List (T × PooledTx D)
  /-- Kept in nonce order, as the `std::map` iterates it. -/
  mapMissNonce : List (ℕ × T)
  stateAddress : DestState

instance : Inhabited (AddressTxState T D) := ⟨⟨[], [], [], default⟩⟩

namespace AddressTxState

/-- `RemoveMissTx`. -/
def removeMissTx (st : AddressTxState T D) (txid : T) : AddressTxState T D :=
  match find st.mapMissTx txid with
  | some tx =>
    { st with mapMissNonce := erase st.mapMissNonce tx.nTxNonce,
              mapMissTx := erase st.mapMissTx txid }
  | none => st

/-- `AddAddressTx`. -/
def addAddressTx (st : AddressTxState T D) (txid : T) (tx : PooledTx D) : AddressTxState T D :=
  removeMissTx { st with mapDestTx := insert st.mapDestTx txid tx } txid

/-- `RemoveAddressTx`. -/
def removeAddressTx (st : AddressTxState T D) (txid : T) : AddressTxState T D :=
  { st with mapDestTx := erase st.mapDestTx txid }

/-- `IsEmptyAddressTx`. -/
def isEmptyAddressTx (st : AddressTxState T D) : Bool :=
  st.mapDestTx.isEmpty && st.mapMissTx.isEmpty

/-- The loop of `SetAddressState` over `mapMissNonce` in nonce order: the missing transactions
up to the new nonce are dropped, and the loop stops at the first nonce above it. -/
def dropMissUpTo (nonce : ℕ) :
    List (ℕ × T) → List (T × PooledTx D) → List (ℕ × T) × List (T × PooledTx D)
  | [], mapMissTx => ([], mapMissTx)
  | (n, txid) :: rest, mapMissTx =>
    if nonce < n then ((n, txid) :: rest, mapMissTx)
    else dropMissUpTo nonce rest (erase mapMissTx txid)

/-- `SetAddressState`. -/
def setAddressState (st : AddressTxState T D) (state : DestState) : AddressTxState T D :=
  let r := dropMissUpTo state.nTxNonce st.mapMissNonce st.mapMissTx
  { st with stateAddress := state, mapMissNonce := r.1, mapMissTx := r.2 }

/-- The start of `AddMissTx` when the cache is full: the missing transaction of the lowest
nonce goes. -/
def evictFirstMissTx (st : AddressTxState T D) : AddressTxState T D :=
  if maxCacheMissingPrevTxCount ≤ st.mapMissTx.length then
    match st.mapMissNonce with
    | (_, txid) :: rest => { st with mapMissTx := erase st.mapMissTx txid, mapMissNonce := rest }
    | [] => st
  else st

/-- `AddMissTx`: a transaction whose nonce is ahead of the state waits, and replaces a waiting
transaction of the same nonce. -/
def addMissTx (st : AddressTxState T D) (txid : T) (tx : PooledTx D) : AddressTxState T D :=
  if tx.nTxNonce ≤ st.stateAddress.nTxNonce then st
  else
    let st := st.evictFirstMissTx
    if (find st.mapMissTx txid).isSome then st
    else
      let st := match find st.mapMissNonce tx.nTxNonce with
        | some txidOld =>
          { st with mapMissTx := erase st.mapMissTx txidOld,
                    mapMissNonce := erase st.mapMissNonce tx.nTxNonce }
        | none => st
      { st with mapMissTx := insert st.mapMissTx txid tx,
                mapMissNonce := st.mapMissNonce.orderedInsert (fun p q => p.1 ≤ q.1)
                  (tx.nTxNonce, txid) }

/-- `FetchNextMissTx`: the waiting transaction of the next nonce. -/
def fetchNextMissTx (st : AddressTxState T D) : Option (T × PooledTx D) :=
  match find st.mapMissNonce st.stateAddress.getNextTxNonce with
  | some txid => (find st.mapMissTx txid).map fun tx => (txid, tx)
  | none => none

/-! The updates of the transaction sets leave the projection alone. -/

omit [LinearOrder D] [Inhabited D] in
@[simp] theorem removeMissTx_stateAddress (st : AddressTxState T D) (txid : T) :
    (st.removeMissTx txid).stateAddress = st.stateAddress := by
  unfold removeMissTx
  split <;> rfl

omit [LinearOrder D] [Inhabited D] in
theorem addAddressTx_stateAddress (txid : T) (tx : PooledTx D) (st : AddressTxState T D) :
    (st.addAddressTx txid tx).stateAddress = st.stateAddress :=
  removeMissTx_stateAddress _ txid

omit [LinearOrder D] [Inhabited D] in
@[simp] theorem setAddressState_stateAddress (st : AddressTxState T D) (state : DestState) :
    (st.setAddressState state).stateAddress = state := rfl

omit [LinearOrder D] [Inhabited D] in
@[simp] theorem evictFirstMissTx_stateAddress (st : AddressTxState T D) :
    st.evictFirstMissTx.stateAddress = st.stateAddress := by
  unfold evictFirstMissTx
  split_ifs
  · split <;> rfl
  · rfl

omit [LinearOrder D] [Inhabited D] in
theorem addMissTx_stateAddress (txid : T) (tx : PooledTx D) (st : AddressTxState T D) :
    (st.addMissTx txid tx).stateAddress = st.stateAddress := by
  unfold addMissTx
  split
  · rfl
  · dsimp only
    split
    · simp
    · -- the waiting transaction of the same nonce goes, and the new one comes in
      split <;> simp

end AddressTxState

/-! ## `CForkTxPool` -/

/-- The pool of one fork: the pooled transactions, the address records and the block the
projections are taken from.  The sequence numbers and the link index, which order the pool
for block making, are left out. -/
structure ForkTxPool (T D B : Type) where
  mapTx : List (T × PooledTx D)
  mapAddressTxState : List (D × AddressTxState T D)
  hashLastBlock : B

namespace ForkTxPool

/-- The pool with nothing in it, at a block. -/
def empty (hashLastBlock : B) : ForkTxPool T D B := ⟨[], [], hashLastBlock⟩

/-- `GetDestState` of the pending state: the projection when it is not null, the chain state at
`hashLastBlock` otherwise. -/
def getDestState (pool : ForkTxPool T D B) (ch : BlockChain T D B) (dest : D) : DestState :=
  match find pool.mapAddressTxState dest with
  | some st =>
    if st.stateAddress.isNull then ch.retrieveDestState pool.hashLastBlock dest
    else st.stateAddress
  | none => ch.retrieveDestState pool.hashLastBlock dest

/-- `SetDestState`: `mapAddressTxState[dest].SetAddressState(state)`. -/
def setDestState (pool : ForkTxPool T D B) (dest : D) (state : DestState) : ForkTxPool T D B :=
  { pool with mapAddressTxState := alter pool.mapAddressTxState dest (·.setAddressState state) }

/-- `AddPooledTx`: the transaction is pooled and recorded at its sender and at its receiver. -/
def addPooledTx (pool : ForkTxPool T D B) (txid : T) (tx : PooledTx D) : ForkTxPool T D B :=
  let m := pool.mapAddressTxState
  let m := if tx.destFrom ≠ default then alter m tx.destFrom (·.addAddressTx txid tx) else m
  let m := if tx.destTo ≠ default ∧ tx.destFrom ≠ tx.destTo then
      alter m tx.destTo (·.addAddressTx txid tx)
    else m
  { pool with mapTx := insert pool.mapTx txid tx, mapAddressTxState := m }

/-- The sender's projection after `AddTx`: the nonce goes up, the amount and the fee come off,
and the amount comes back when the sender pays itself. -/
def debitSender (tx : PooledTx D) (stateFrom : DestState) : DestState :=
  let s := if tx.destFrom = tx.destTo then stateFrom.incBalance tx.nAmount else stateFrom
  let s := if tx.nType ≠ .cert then s.incTxNonce else s
  s.decBalance (tx.nAmount + tx.nTxFee)

/-- The pool after `AddTx` accepts a transaction: it is pooled, the receiver's projection is
credited, read after `AddPooledTx`, and the sender's is `debitSender` of the state it was
verified against. -/
def acceptTx (pool : ForkTxPool T D B) (ch : BlockChain T D B) (txid : T) (tx : PooledTx D)
    (stateFrom : DestState) : ForkTxPool T D B :=
  let pool := pool.addPooledTx txid tx
  let pool :=
    if tx.destFrom = tx.destTo then pool
    else if tx.destTo ≠ default then
      pool.setDestState tx.destTo ((pool.getDestState ch tx.destTo).incBalance tx.nAmount)
    else pool
  pool.setDestState tx.destFrom (debitSender tx stateFrom)

/-- The pool after `AddTx` finds a nonce ahead of the sender's: the sender gets a record with
the state it was verified against if it has none, and the transaction waits there. -/
def addMissingPrev (pool : ForkTxPool T D B) (txid : T) (tx : PooledTx D)
    (stateFrom : DestState) : ForkTxPool T D B :=
  let pool :=
    if (find pool.mapAddressTxState tx.destFrom).isSome then pool
    else pool.setDestState tx.destFrom stateFrom
  { pool with
    mapAddressTxState := alter pool.mapAddressTxState tx.destFrom (·.addMissTx txid tx) }

/-- `CForkTxPool::AddTx`. -/
def addTx (pool : ForkTxPool T D B) (ch : BlockChain T D B) (txid : T) (tx : PooledTx D) :
    Errno × ForkTxPool T D B :=
  if (find pool.mapTx txid).isSome then (.errAlreadyHave, pool)
  else if ch.existsTx txid then (.errAlreadyHave, pool)
  else if tx.destFrom = default then (.errTransactionInputInvalid, pool)
  else if ch.isExistBlacklistAddress tx.destFrom then (.errTransactionAtBlacklist, pool)
  else
    let stateFrom := pool.getDestState ch tx.destFrom
    match verifyTransaction tx stateFrom with
    | .ok => (.ok, pool.acceptTx ch txid tx stateFrom)
    | .errMissingPrev => (.errMissingPrev, pool.addMissingPrev txid tx stateFrom)
    | err => (err, pool)

/-- The lambda `removeDestTx` of `RemovePooledTx`: the transaction leaves the address's record,
and the record goes when nothing is left in it; `none` when the address has no record. -/
def removeDestTx (m : List (D × AddressTxState T D)) (dest : D) (txid : T) :
    Option (List (D × AddressTxState T D)) :=
  match find m dest with
  | none => none
  | some st =>
    if (st.removeAddressTx txid).isEmptyAddressTx then some (erase m dest)
    else some (alter m dest (·.removeAddressTx txid))

/-- The branch of `RemovePooledTx` for a pooled transaction.  A failure at the receiver returns
with the sender's record already changed. -/
def removeFoundTx (pool : ForkTxPool T D B) (txid : T) (tx : PooledTx D) :
    Bool × ForkTxPool T D B :=
  match (if tx.destFrom ≠ default then removeDestTx pool.mapAddressTxState tx.destFrom txid
      else some pool.mapAddressTxState) with
  | none => (false, pool)
  | some m =>
    match (if tx.destTo ≠ default ∧ tx.destTo ≠ tx.destFrom then removeDestTx m tx.destTo txid
        else some m) with
    | none => (false, { pool with mapAddressTxState := m })
    | some m' => (true, { pool with mapAddressTxState := m', mapTx := erase pool.mapTx txid })

/-- The loop over `vDelTx`: each is removed by `RemovePooledTx(txidn, txh, true)`, which fails on
a transaction no longer pooled, and the first failure ends the loop. -/
def removeInvalidTxs (pool : ForkTxPool T D B) : List (T × PooledTx D) → Bool × ForkTxPool T D B
  | [] => (true, pool)
  | (txidn, txh) :: rest =>
    let r := if (find pool.mapTx txidn).isSome then pool.removeFoundTx txidn txh else (false, pool)
    if r.1 then removeInvalidTxs r.2 rest else r

/-- `CForkTxPool::RemovePooledTx`.  A transaction that is not pooled, and not itself invalid,
evicts every pooled transaction of its sender. -/
def removePooledTx (pool : ForkTxPool T D B) (txid : T) (tx : PooledTx D) (fInvalidTx : Bool) :
    Bool × ForkTxPool T D B :=
  if (find pool.mapTx txid).isSome then pool.removeFoundTx txid tx
  else if fInvalidTx then (false, pool)
  else if tx.destFrom = default then (true, pool)
  else
    let vDelTx := match find pool.mapAddressTxState tx.destFrom with
      | some st => st.mapDestTx.filter fun kv => kv.2.destFrom = tx.destFrom
      | none => []
    pool.removeInvalidTxs vDelTx

/-! ## What `GetDestState` reads -/

omit [DecidableEq T] [Inhabited D] in
@[simp] theorem getDestState_mk_mapTx (l : List (T × PooledTx D)) (pool : ForkTxPool T D B)
    (ch : BlockChain T D B) (a : D) :
    (ForkTxPool.mk l pool.mapAddressTxState pool.hashLastBlock).getDestState ch a =
      pool.getDestState ch a := rfl

omit [DecidableEq T] [Inhabited D] in
/-- An update of a record that keeps its projection keeps the pending state, also when it
creates the record: a new record's projection is null. -/
theorem getDestState_mk_alter (l : List (T × PooledTx D)) (m : List (D × AddressTxState T D))
    (h : B) {f : AddressTxState T D → AddressTxState T D}
    (hf : ∀ st, (f st).stateAddress = st.stateAddress) (k : D) (ch : BlockChain T D B) (a : D) :
    (ForkTxPool.mk l (alter m k f) h).getDestState ch a =
      (ForkTxPool.mk l m h).getDestState ch a := by
  unfold getDestState
  rw [find_alter]
  by_cases hk : k = a
  · subst hk
    cases hst : find m k with
    | none => simp [hf, DestState.isNull, default]
    | some st => simp [hf]
  · simp [hk]

omit [Inhabited D] in
theorem getDestState_setDestState (pool : ForkTxPool T D B) (ch : BlockChain T D B)
    (k : D) (s : DestState) (a : D) :
    (pool.setDestState k s).getDestState ch a =
      if k = a then (if s.isNull then ch.retrieveDestState pool.hashLastBlock a else s)
      else pool.getDestState ch a := by
  unfold setDestState getDestState
  rw [find_alter]
  by_cases hk : k = a
  · subst hk
    simp only [↓reduceIte, AddressTxState.setAddressState_stateAddress]
    -- the two sides differ only in how the projection's decidability is spelled
    rfl
  · simp [hk]

/-- `AddPooledTx` records the transaction and leaves every projection as it was. -/
theorem getDestState_addPooledTx (pool : ForkTxPool T D B) (ch : BlockChain T D B) (txid : T)
    (tx : PooledTx D) (a : D) :
    (pool.addPooledTx txid tx).getDestState ch a = pool.getDestState ch a := by
  have hf : ∀ st : AddressTxState T D, (st.addAddressTx txid tx).stateAddress = st.stateAddress :=
    AddressTxState.addAddressTx_stateAddress txid tx
  unfold addPooledTx
  split_ifs <;> simp only [getDestState_mk_alter _ _ _ hf, getDestState_mk_mapTx]

/-! ## `SynchronizeBlockChain` -/

/-- `CBlockChainUpdate`: the abandoned and the adopted blocks, each as its transactions with
their hashes, and the new tip. -/
structure BlockChainUpdate (T D B : Type) where
  vBlockRemove : List (List (T × PooledTx D))
  vBlockAddNew : List (List (T × PooledTx D))
  hashLastBlock : B

/-- `setAddAddress.insert(dest)` on a `std::set`, kept in order. -/
def insertAddress (s : List D) (dest : D) : List D :=
  if dest ∈ s then s else s.orderedInsert (· ≤ ·) dest

/-- The first loop of `SynchronizeBlockChain`: each transaction of the adopted blocks other
than a vote reward is removed from the pool and its sender noted; a failure ends the loop. -/
def removeBlockTxs (pool : ForkTxPool T D B) (setAddAddress : List D) :
    List (T × PooledTx D) → Bool × ForkTxPool T D B × List D
  | [] => (true, pool, setAddAddress)
  | (txid, tx) :: rest =>
    if tx.nType = .voteReward then removeBlockTxs pool setAddAddress rest
    else
      let r := pool.removePooledTx txid tx false
      if r.1 then
        removeBlockTxs r.2
          (if tx.destFrom ≠ default then insertAddress setAddAddress tx.destFrom
            else setAddAddress) rest
      else (false, r.2, setAddAddress)

/-- The second loop: the transactions of the abandoned blocks, last block first, go back
through `AddTx`, except vote rewards and certificates; their results are not used. -/
def readdBlockTxs (pool : ForkTxPool T D B) (ch : BlockChain T D B)
    (vtx : List (T × PooledTx D)) : ForkTxPool T D B :=
  vtx.foldl (fun pool p =>
    if p.2.nType ≠ .voteReward ∧ p.2.nType ≠ .cert then (pool.addTx ch p.1 p.2).2 else pool) pool

/-- The inner loop of the refresh: while the address has a waiting transaction of its next
nonce and `AddTx` takes it, go on. -/
def addNextMissTxs (ch : BlockChain T D B) (dest : D) :
    ℕ → ForkTxPool T D B → ForkTxPool T D B
  | 0, pool => pool
  | fuel + 1, pool =>
    match (find pool.mapAddressTxState dest).bind AddressTxState.fetchNextMissTx with
    | none => pool
    | some (txid, tx) =>
      let r := pool.addTx ch txid tx
      if r.1 = .ok then addNextMissTxs ch dest fuel r.2 else r.2

/-- The third loop, at one sender: a record whose nonce is behind the chain's at the new tip
takes the chain's state, and then its waiting transactions are tried.  Each one `AddTx` takes
leaves `mapMissTx`, so its length bounds the passes. -/
def refreshAddress (ch : BlockChain T D B) (hashBlock : B) (pool : ForkTxPool T D B)
    (dest : D) : ForkTxPool T D B :=
  let stateDb := ch.retrieveDestState hashBlock dest
  match find pool.mapAddressTxState dest with
  | none => pool
  | some st =>
    let pool :=
      if st.stateAddress.nTxNonce < stateDb.nTxNonce then pool.setDestState dest stateDb
      else pool
    addNextMissTxs ch dest st.mapMissTx.length pool

/-- `CForkTxPool::SynchronizeBlockChain`. -/
def synchronizeBlockChain (pool : ForkTxPool T D B) (ch : BlockChain T D B)
    (update : BlockChainUpdate T D B) : Bool × ForkTxPool T D B :=
  match pool.removeBlockTxs [] update.vBlockAddNew.flatten with
  | (false, pool, _) => (false, pool)
  | (true, pool, setAddAddress) =>
    let pool := pool.readdBlockTxs ch update.vBlockRemove.reverse.flatten
    let pool := setAddAddress.foldl (refreshAddress ch update.hashLastBlock) pool
    (true, { pool with hashLastBlock := update.hashLastBlock })

/-- A call to the pool. -/
inductive PoolCall (T D B : Type)
  | addTx (txid : T) (tx : PooledTx D)
  | synchronizeBlockChain (update : BlockChainUpdate T D B)

/-- The pool after one call. -/
def call (ch : BlockChain T D B) (pool : ForkTxPool T D B) : PoolCall T D B → ForkTxPool T D B
  | .addTx txid tx => (pool.addTx ch txid tx).2
  | .synchronizeBlockChain update => (pool.synchronizeBlockChain ch update).2

/-- The pool after a run of calls. -/
def run (pool : ForkTxPool T D B) (ch : BlockChain T D B) (calls : List (PoolCall T D B)) :
    ForkTxPool T D B :=
  calls.foldl (call ch) pool

end ForkTxPool

/-! ## The chain, and the pending state it asks for -/

/-- One transaction as a block applies it, seen at address `a`: the sender's nonce goes up by
one and its balance down by the amount and the fee, and the receiver's balance up by the
amount. -/
def applyTxAt (a : D) (tx : PooledTx D) (s : DestState) : DestState :=
  let s := if tx.destFrom = a then s.incTxNonce.decBalance (tx.nAmount + tx.nTxFee) else s
  if tx.destTo = a then s.incBalance tx.nAmount else s

/-- A block applied to the states before it. -/
def applyBlock (state : D → DestState) (vtx : List (T × PooledTx D)) : D → DestState :=
  vtx.foldl (fun state p a => applyTxAt a p.2 (state a)) state

/-- Each transaction of a block passes `VerifyTransaction` on the states the ones before it
leave. -/
def blockValid (state : D → DestState) : List (T × PooledTx D) → Bool
  | [] => true
  | p :: rest =>
    verifyTransaction p.2 (state p.2.destFrom) == .ok && blockValid (applyBlock state [p]) rest

omit [Inhabited D] in
theorem applyTxAt_of_ne {a : D} {tx : PooledTx D} (hf : tx.destFrom ≠ a) (ht : tx.destTo ≠ a)
    (s : DestState) : applyTxAt a tx s = s := by
  simp [applyTxAt, hf, ht]

omit [Inhabited D] in
/-- A transaction leaves a null state only where it found one: a sender's nonce goes up, and a
receiver's balance does not go down. -/
theorem isNull_of_applyTxAt {a : D} {tx : PooledTx D} {s : DestState}
    (h : (applyTxAt a tx s).isNull = true) : s.isNull = true := by
  unfold applyTxAt at h
  by_cases hf : tx.destFrom = a
  · by_cases ht : tx.destTo = a <;>
      simp [hf, ht, DestState.isNull, DestState.incTxNonce, DestState.decBalance,
        DestState.incBalance] at h
  · by_cases ht : tx.destTo = a
    · simp only [hf, ht, ↓reduceIte] at h
      exact (DestState.isNull_of_incBalance h).1
    · simpa [hf, ht] using h

omit [DecidableEq T] [Inhabited D] in
theorem isNull_of_foldl_applyTxAt (a : D) :
    ∀ (l : List (T × PooledTx D)) (s : DestState),
      (l.foldl (fun s p => applyTxAt a p.2 s) s).isNull = true → s.isNull = true
  | [], _, h => h
  | p :: l, s, h => isNull_of_applyTxAt (isNull_of_foldl_applyTxAt a l (applyTxAt a p.2 s) h)

omit [Inhabited D] in
/-- The sender's projection that `AddTx` writes, on a balance that covers the transaction, is
the sender's state with the transaction applied. -/
theorem debitSender_eq_applyTxAt {tx : PooledTx D} {s : DestState} (hcert : tx.nType ≠ .cert)
    (hcover : tx.nAmount + tx.nTxFee ≤ s.nBalance) :
    ForkTxPool.debitSender tx s = applyTxAt tx.destFrom tx s := by
  obtain ⟨n, b⟩ := s
  by_cases hft : tx.destFrom = tx.destTo
  · -- paying itself, the amount comes back
    simp only [ForkTxPool.debitSender, applyTxAt, hft, ↓reduceIte, ne_eq, hcert,
      not_false_eq_true, DestState.incBalance, DestState.incTxNonce, DestState.decBalance,
      DestState.mk.injEq, true_and]
    simp only at hcover
    omega
  · simp [ForkTxPool.debitSender, applyTxAt, hft, Ne.symm hft, hcert]

omit [Inhabited D] in
theorem isNull_debitSender {tx : PooledTx D} (hcert : tx.nType ≠ .cert) (s : DestState) :
    (ForkTxPool.debitSender tx s).isNull = false := by
  unfold ForkTxPool.debitSender
  split_ifs <;> simp [DestState.isNull, DestState.incTxNonce, DestState.decBalance,
    DestState.incBalance]

/-- A transaction the verification accepts is covered by the balance. -/
theorem verifyTransaction_cover {tx : PooledTx D} {s : DestState}
    (h : verifyTransaction tx s = .ok) : tx.nAmount + tx.nTxFee ≤ s.nBalance := by
  unfold verifyTransaction at h
  split_ifs at h with hlt
  all_goals omega

namespace ForkTxPool

/-- The pending state the pool is meant to hold at an address: the chain state at
`hashLastBlock` with the pooled transactions applied in the pool's order. -/
def pendingExpected (pool : ForkTxPool T D B) (ch : BlockChain T D B) (a : D) : DestState :=
  pool.mapTx.foldl (fun s p => applyTxAt a p.2 s) (ch.retrieveDestState pool.hashLastBlock a)

/-- `GetDestState` is the pending state at every address. -/
def PendingConsistent (pool : ForkTxPool T D B) (ch : BlockChain T D B) : Prop :=
  ∀ a, pool.getDestState ch a = pool.pendingExpected ch a

omit [Inhabited D] in
@[simp] theorem setDestState_mapTx (pool : ForkTxPool T D B) (k : D) (s : DestState) :
    (pool.setDestState k s).mapTx = pool.mapTx := rfl

omit [Inhabited D] in
@[simp] theorem setDestState_hashLastBlock (pool : ForkTxPool T D B) (k : D) (s : DestState) :
    (pool.setDestState k s).hashLastBlock = pool.hashLastBlock := rfl

@[simp] theorem addPooledTx_mapTx (pool : ForkTxPool T D B) (txid : T) (tx : PooledTx D) :
    (pool.addPooledTx txid tx).mapTx = insert pool.mapTx txid tx := rfl

@[simp] theorem addPooledTx_hashLastBlock (pool : ForkTxPool T D B) (txid : T) (tx : PooledTx D) :
    (pool.addPooledTx txid tx).hashLastBlock = pool.hashLastBlock := rfl

omit [DecidableEq T] [Inhabited D] in
theorem getDestState_of_find_eq_none {pool : ForkTxPool T D B} {dest : D}
    (h : find pool.mapAddressTxState dest = none) (ch : BlockChain T D B) :
    pool.getDestState ch dest = ch.retrieveDestState pool.hashLastBlock dest := by
  simp [getDestState, h]

omit [DecidableEq T] [Inhabited D] in
/-- The pending state asked for depends on the pooled transactions and the block only. -/
theorem pendingExpected_congr {pool pool' : ForkTxPool T D B} (hm : pool'.mapTx = pool.mapTx)
    (hh : pool'.hashLastBlock = pool.hashLastBlock) (ch : BlockChain T D B) (a : D) :
    pool'.pendingExpected ch a = pool.pendingExpected ch a := by
  simp [pendingExpected, hm, hh]

omit [DecidableEq T] [Inhabited D] in
/-- A null pending state is the chain's: the pooled transactions never bring a state back to
null. -/
theorem retrieveDestState_of_isNull {pool : ForkTxPool T D B} {ch : BlockChain T D B} {a : D}
    (h : (pool.pendingExpected ch a).isNull = true) :
    ch.retrieveDestState pool.hashLastBlock a = pool.pendingExpected ch a := by
  have h0 := isNull_of_foldl_applyTxAt a pool.mapTx _ h
  rw [DestState.isNull_iff.mp h0, DestState.isNull_iff.mp h]

/-- Accepting a new transaction appends it to the pool. -/
theorem pendingExpected_acceptTx {pool : ForkTxPool T D B} (ch : BlockChain T D B) {txid : T}
    {tx : PooledTx D} (stateFrom : DestState) (hfound : find pool.mapTx txid = none) (a : D) :
    (pool.acceptTx ch txid tx stateFrom).pendingExpected ch a =
      applyTxAt a tx (pool.pendingExpected ch a) := by
  have hmap : (pool.acceptTx ch txid tx stateFrom).mapTx = pool.mapTx ++ [(txid, tx)] := by
    unfold acceptTx
    split_ifs <;> simp [insert_of_find_eq_none hfound]
  have hhash : (pool.acceptTx ch txid tx stateFrom).hashLastBlock = pool.hashLastBlock := by
    unfold acceptTx
    split_ifs <;> simp
  simp only [pendingExpected, hmap, hhash, List.foldl_append, List.foldl_cons, List.foldl_nil]

/-- `AddTx` accepting a plain transfer keeps the pending state right: the sender's projection
is written with the transaction applied, and so is the receiver's, read after the transaction
is recorded; every other address is untouched. -/
theorem acceptTx_pendingConsistent {pool : ForkTxPool T D B} {ch : BlockChain T D B} {txid : T}
    {tx : PooledTx D} (h : pool.PendingConsistent ch) (hfound : find pool.mapTx txid = none)
    (hcert : tx.nType ≠ .cert) (hto : tx.destTo ≠ default)
    (hcover : tx.nAmount + tx.nTxFee ≤ (pool.getDestState ch tx.destFrom).nBalance) :
    (pool.acceptTx ch txid tx (pool.getDestState ch tx.destFrom)).PendingConsistent ch := by
  intro a
  rw [pendingExpected_acceptTx ch _ hfound, ← h a]
  unfold acceptTx
  dsimp only
  rw [getDestState_setDestState]
  by_cases hfa : tx.destFrom = a
  · -- the sender: its nonce went up, so its projection is not null
    subst hfa
    rw [if_pos rfl, isNull_debitSender hcert]
    exact debitSender_eq_applyTxAt hcert hcover
  · rw [if_neg hfa]
    split_ifs with hft
    · -- a transfer to itself: `a` is neither side
      rw [getDestState_addPooledTx, applyTxAt_of_ne hfa (hft ▸ hfa)]
    · rw [getDestState_setDestState]
      by_cases hta : tx.destTo = a
      · -- the receiver: credited on the pending state it had
        subst hta
        have hrecv : applyTxAt tx.destTo tx (pool.getDestState ch tx.destTo) =
            (pool.getDestState ch tx.destTo).incBalance tx.nAmount := by
          simp [applyTxAt, hft]
        rw [if_pos rfl, getDestState_addPooledTx, hrecv, addPooledTx_hashLastBlock]
        split_ifs with hnull
        · -- a null credit is a zero credit to a null state, which is the chain's
          obtain ⟨hnull0, hzero⟩ := DestState.isNull_of_incBalance hnull
          rw [hzero, h tx.destTo]
          rw [h tx.destTo] at hnull0
          exact retrieveDestState_of_isNull hnull0
        · rfl
      · rw [if_neg hta, getDestState_addPooledTx, applyTxAt_of_ne hfa hta]

omit [Inhabited D] in
/-- A transaction that waits for its predecessor leaves every pending state as it was: the
sender's new record starts from the state it already read. -/
theorem getDestState_addMissingPrev (pool : ForkTxPool T D B) (ch : BlockChain T D B) (txid : T)
    (tx : PooledTx D) (a : D) :
    (pool.addMissingPrev txid tx (pool.getDestState ch tx.destFrom)).getDestState ch a =
      pool.getDestState ch a := by
  unfold addMissingPrev
  dsimp only
  rw [getDestState_mk_alter _ _ _ (AddressTxState.addMissTx_stateAddress txid tx),
    getDestState_mk_mapTx]
  split_ifs with hfound
  · rfl
  · have hnone : find pool.mapAddressTxState tx.destFrom = none :=
      Option.not_isSome_iff_eq_none.mp hfound
    have hchain := getDestState_of_find_eq_none hnone ch
    rw [getDestState_setDestState]
    by_cases hfa : tx.destFrom = a
    · -- the new record holds the chain state, null or not
      subst hfa
      rw [if_pos rfl, hchain]
      split_ifs <;> rfl
    · rw [if_neg hfa]

omit [Inhabited D] in
theorem pendingExpected_addMissingPrev (pool : ForkTxPool T D B) (ch : BlockChain T D B)
    (txid : T) (tx : PooledTx D) (stateFrom : DestState) (a : D) :
    (pool.addMissingPrev txid tx stateFrom).pendingExpected ch a = pool.pendingExpected ch a := by
  apply pendingExpected_congr
  · unfold addMissingPrev
    split_ifs <;> rfl
  · unfold addMissingPrev
    split_ifs <;> rfl

/-- **`AddTx` keeps the pending state right.**  Whatever `AddTx` does with a plain transfer
(reject it, keep it waiting for its predecessor, or pool it), `GetDestState` stays the chain
state at `hashLastBlock` with the pooled transactions applied. -/
theorem addTx_pendingState (pool : ForkTxPool T D B) (ch : BlockChain T D B) (txid : T)
    (tx : PooledTx D) (hcert : tx.nType ≠ .cert) (hto : tx.destTo ≠ default)
    (h : pool.PendingConsistent ch) : (pool.addTx ch txid tx).2.PendingConsistent ch := by
  unfold addTx
  split_ifs with hfound
  · exact h
  · exact h
  · exact h
  · exact h
  · dsimp only
    split
    · -- pooled
      rename_i hv
      exact acceptTx_pendingConsistent h (Option.not_isSome_iff_eq_none.mp hfound) hcert hto
        (verifyTransaction_cover hv)
    · -- waiting for its predecessor
      intro a
      rw [getDestState_addMissingPrev, pendingExpected_addMissingPrev]
      exact h a
    · exact h

omit [DecidableEq T] [Inhabited D] in
/-- The empty pool holds the chain's states. -/
theorem empty_pendingConsistent (b : B) (ch : BlockChain T D B) :
    (empty b : ForkTxPool T D B).PendingConsistent ch := fun _ => rfl

/-- The invariant of a run of `AddTx` calls, from any pool that has it. -/
theorem run_addTx_of_pendingConsistent (ch : BlockChain T D B) :
    ∀ (txs : List (T × PooledTx D)) (pool : ForkTxPool T D B),
      (∀ p ∈ txs, p.2.nType ≠ .cert ∧ p.2.destTo ≠ default) → pool.PendingConsistent ch →
      (pool.run ch (txs.map fun p => .addTx p.1 p.2)).PendingConsistent ch
  | [], _, _, h => h
  | p :: txs, pool, htxs, h => by
    obtain ⟨hcert, hto⟩ := htxs p List.mem_cons_self
    exact run_addTx_of_pendingConsistent ch txs _
      (fun q hq => htxs q (List.mem_cons_of_mem p hq))
      (addTx_pendingState pool ch p.1 p.2 hcert hto h)

/-- **Between two blocks the pending state is right.**  From the empty pool at any block, a run
of `AddTx` calls with plain transfers to real receivers, each rejected, kept waiting or
pooled, leaves `GetDestState` equal at every address to the chain state at `hashLastBlock` with
the pooled transactions applied. -/
theorem run_addTx_pendingConsistent (b : B) (ch : BlockChain T D B)
    (txs : List (T × PooledTx D)) (htxs : ∀ p ∈ txs, p.2.nType ≠ .cert ∧ p.2.destTo ≠ default) :
    ((empty b).run ch (txs.map fun p => .addTx p.1 p.2)).PendingConsistent ch :=
  run_addTx_of_pendingConsistent ch txs _ htxs (empty_pendingConsistent b ch)

/-- Two transfers from address `1`, the second of which waits for a nonce in between. -/
theorem run_addTx_pendingConsistent_twoTransfers :
    (∀ p ∈ [(1, (⟨.token, 1, 3, 1, 10, 0⟩ : PooledTx ℕ)), (2, ⟨.token, 1, 2, 3, 5, 0⟩)],
        p.2.nType ≠ .cert ∧ p.2.destTo ≠ default) ∧
      ((empty 0).run ⟨fun _ _ => ⟨0, 100⟩, fun _ => false, fun _ => false⟩
          ([(1, (⟨.token, 1, 3, 1, 10, 0⟩ : PooledTx ℕ)), (2, ⟨.token, 1, 2, 3, 5, 0⟩)].map
            fun p => .addTx p.1 p.2)).PendingConsistent
        (⟨fun _ _ => ⟨0, 100⟩, fun _ => false, fun _ => false⟩ : BlockChain ℕ ℕ ℕ) :=
  have h : ∀ p ∈ [(1, (⟨.token, 1, 3, 1, 10, 0⟩ : PooledTx ℕ)), (2, ⟨.token, 1, 2, 3, 5, 0⟩)],
      p.2.nType ≠ .cert ∧ p.2.destTo ≠ default := by decide
  ⟨h, run_addTx_pendingConsistent 0 _ _ h⟩

end ForkTxPool

/-! ## A receiver left behind

Addresses `1` and `2` hold `100` at block `0`.  The pool takes a transfer of `10` from `1` to
`3`; then block `1` is adopted, holding a transfer of `5` from `2` to `3` that the pool never
saw.  `SynchronizeBlockChain` refreshes `2`, the block's only sender, which has no record; the
record of `3`, written by `AddTx`, still says `10`, while the chain at block `1` gives `3` the
balance `5`, and with the pooled transfer `15`. -/

/-- The pooled transfer. -/
def staleTx1 : PooledTx ℕ := ⟨.token, 1, 3, 1, 10, 0⟩

/-- The transfer of the adopted block. -/
def staleTx2 : PooledTx ℕ := ⟨.token, 2, 3, 1, 5, 0⟩

/-- The states at block `0`. -/
def staleGenesis (a : ℕ) : DestState := if a = 1 ∨ a = 2 then ⟨0, 100⟩ else default

/-- The adopted block `1`. -/
def staleBlock : List (ℕ × PooledTx ℕ) := [(2, staleTx2)]

/-- The chain of the two blocks; `staleTx2` is on it. -/
def staleChain : BlockChain ℕ ℕ ℕ where
  retrieveDestState b := if b = 1 then applyBlock staleGenesis staleBlock else staleGenesis
  existsTx txid := txid = 2
  isExistBlacklistAddress _ := false

/-- **`SynchronizeBlockChain` leaves a receiver's projection stale.**  Block `1` is block `0`
with the valid transfer `staleTx2` applied, the pool accepts `staleTx1` and synchronizes to
block `1`; afterwards the pending state of address `3` is balance `10`, where the chain state at
`hashLastBlock` with the pooled transaction applied is balance `15`. -/
theorem synchronizeBlockChain_stale_receiver :
    staleChain.retrieveDestState 1 = applyBlock (staleChain.retrieveDestState 0) staleBlock ∧
      blockValid (staleChain.retrieveDestState 0) staleBlock = true ∧
      ((ForkTxPool.empty 0).addTx staleChain 1 staleTx1).1 = .ok ∧
      (((ForkTxPool.empty 0).addTx staleChain 1 staleTx1).2.synchronizeBlockChain staleChain
          ⟨[], [staleBlock], 1⟩).1 = true ∧
      ((ForkTxPool.empty 0).run staleChain
          [.addTx 1 staleTx1, .synchronizeBlockChain ⟨[], [staleBlock], 1⟩]).hashLastBlock = 1 ∧
      ((ForkTxPool.empty 0).run staleChain
          [.addTx 1 staleTx1, .synchronizeBlockChain ⟨[], [staleBlock], 1⟩]).getDestState
          staleChain 3 = ⟨0, 10⟩ ∧
      ((ForkTxPool.empty 0).run staleChain
          [.addTx 1 staleTx1, .synchronizeBlockChain ⟨[], [staleBlock], 1⟩]).pendingExpected
          staleChain 3 = ⟨0, 15⟩ :=
  ⟨rfl, by decide, by decide, by decide, by decide, by decide, by decide⟩

end MetabaseNet.TxPool
