/-
# Transaction fees in a block's state: `CBlockState::AddTxState`

`src/storage/blockbase.cpp`, with the fee checks of `CCoreProtocol::ValidateTransaction`
(`src/blockchain/core.cpp`) in front of it.  A transaction pays up front `nAmount` plus its fee
`GetTxFee() = nGasPrice * nGasLimit`; the gas it did not use is refunded at `nGasPrice`, and
the gas of the sender's time vault is paid to the time-vault address.  Every amount is a
`uint256`, whose arithmetic wraps: `+` and `-` through `base_uint`, `*` through boost's
unchecked 256-bit integer.  The model computes in `BitVec 256`.

The model is the path of `AddTxState` for a transaction from a non-null sender to an address
that is not a contract, which is not a create; balances are a total map (a missing state is a
null one).  The results:

* while `nGasPrice * nGasLimit` stays below `2 ^ 256`, the fee is the exact product and the
  sender pays exactly `nAmount` plus `nGasPrice` times the gas charged
  (`addTxState_sender_balance`), which is never more than it holds;
* past it, the fee that is checked and charged is the product's residue, and the refund of the
  unused gas, itself a residue, can pay the sender more than it was charged
  (`addTxState_fee_overflow`).
-/
import Mathlib

namespace MetabaseNet

/-- `uint256`: 256-bit words, arithmetic modulo `2 ^ 256`. -/
abbrev U256 := BitVec 256

/-! ## Parameters (`common/param.h`) -/

/-- `COIN = uint256(10, 18)`. -/
def coin : U256 := BitVec.ofNat 256 (10 ^ 18)

/-- `MIN_GAS_PRICE = uint256(10, 10)`. -/
def minGasPrice : U256 := BitVec.ofNat 256 (10 ^ 10)

/-- `TX_BASE_GAS`. -/
def txBaseGas : U256 := 21000

/-- `DATA_GAS_PER_BYTE`. -/
def dataGasPerByte : U256 := 50

/-- `MAX_MONEY = COIN * uint256(1000000000000L)`. -/
def maxMoney : U256 := coin * 1000000000000

/-- `MoneyRange`. -/
def moneyRange (nValue : U256) : Bool := decide (nValue ≤ maxMoney)

theorem maxMoney_toNat : maxMoney.toNat = 10 ^ 30 := by
  decide

theorem minGasPrice_toNat : minGasPrice.toNat = 10 ^ 10 := by
  simp [minGasPrice]

/-! ## Transactions (`common/transaction.h`) -/

/-- `CTransaction::nType`. -/
inductive TxType
  | null | genesis | token | cert | stake | work | voteReward | internal
  | ethCreateContract | ethMessageCall
  deriving DecidableEq, Repr

/-- The fields of `CTransaction` that the fee path reads; destinations are of a type `D`. -/
structure Transaction (D : Type) where
  nType : TxType
  destFrom : D
  destTo : D
  nAmount : U256
  nGasPrice : U256
  nGasLimit : U256
  /-- `GetTxDataSize()`, the size of the attached data. -/
  nTxDataSize : UInt64

namespace Transaction

variable {D : Type}

/-- `CTransaction::GetTxFee`. -/
def getTxFee (tx : Transaction D) : U256 := tx.nGasPrice * tx.nGasLimit

/-- `CTransaction::GetTxDataGas`. -/
def getTxDataGas (tx : Transaction D) : U256 := dataGasPerByte * BitVec.ofNat 256 tx.nTxDataSize.toNat

/-- `CTransaction::GetTxBaseGas`. -/
def getTxBaseGas (tx : Transaction D) : U256 := txBaseGas + tx.getTxDataGas

/-- While `nGasPrice * nGasLimit < 2 ^ 256`, `GetTxFee()` is the exact product. -/
theorem getTxFee_toNat {tx : Transaction D}
    (hfit : tx.nGasPrice.toNat * tx.nGasLimit.toNat < 2 ^ 256) :
    tx.getTxFee.toNat = tx.nGasPrice.toNat * tx.nGasLimit.toNat :=
  BitVec.toNat_mul_of_lt hfit

/-- The base gas never wraps: the data size is a 64-bit count. -/
theorem getTxBaseGas_toNat (tx : Transaction D) :
    tx.getTxBaseGas.toNat = 21000 + 50 * tx.nTxDataSize.toNat := by
  have h := tx.nTxDataSize.toNat_lt
  simp only [getTxBaseGas, getTxDataGas, txBaseGas, dataGasPerByte, BitVec.toNat_add,
    BitVec.toNat_mul, BitVec.toNat_ofNat, BitVec.ofNat_eq_ofNat]
  omega

end Transaction

open Transaction

variable {D : Type}

/-- The fee checks of `CCoreProtocol::ValidateTransaction`, in its order and with its
messages: the amount and the fee in money range, then for the transaction types that pay gas
a minimum gas price and enough gas for the base cost, and for the others no fee. -/
def validateTxFee (tx : Transaction D) : Except String Unit :=
  if !moneyRange tx.nAmount then .error "amount overflow"
  else if !moneyRange tx.getTxFee then .error "txfee overflow"
  else if tx.nType = .token ∨ tx.nType = .ethCreateContract ∨ tx.nType = .ethMessageCall then
    if tx.nGasPrice < minGasPrice then .error "gas price invalid"
    else if tx.nGasLimit < tx.getTxBaseGas then .error "gas invalid"
    else .ok ()
  else if tx.getTxFee ≠ 0 then .error "non token tx, txfee nonzero"
  else .ok ()

/-- What the fee checks of `ValidateTransaction` guarantee of a transaction that pays gas. -/
structure FeeChecked (tx : Transaction D) : Prop where
  amount : tx.nAmount.toNat ≤ 10 ^ 30
  fee : tx.getTxFee.toNat ≤ 10 ^ 30
  price : 10 ^ 10 ≤ tx.nGasPrice.toNat
  limit : tx.getTxBaseGas.toNat ≤ tx.nGasLimit.toNat

theorem validateTxFee_feeChecked {tx : Transaction D} (h : validateTxFee tx = .ok ())
    (htype : tx.nType = .token ∨ tx.nType = .ethCreateContract ∨ tx.nType = .ethMessageCall) :
    FeeChecked tx := by
  unfold validateTxFee moneyRange at h
  -- `htype` selects the gas checks, and the failing checks end in errors
  split_ifs at h with hamount hfee hprice hlimit
  have ha : tx.nAmount ≤ maxMoney := by simpa using hamount
  have hf : tx.getTxFee ≤ maxMoney := by simpa using hfee
  rw [BitVec.le_def, maxMoney_toNat] at ha hf
  rw [BitVec.lt_def, minGasPrice_toNat] at hprice
  rw [BitVec.lt_def] at hlimit
  exact ⟨ha, hf, by omega, by omega⟩

/-! ## The time vault -/

/-- `CTimeVault::CalcRealityTvGasFee`: the time-vault fee rounded up to whole gas at
`nGasPrice`, as `(nTvGasFee, nTvGas)`; at least one gas when there is a fee. -/
def calcRealityTvGasFee (nGasPrice nTvGasFee : U256) : U256 × U256 :=
  if 0 < nTvGasFee ∧ 0 < nGasPrice then
    if 0 < nTvGasFee / nGasPrice then
      if nTvGasFee / nGasPrice * nGasPrice < nTvGasFee then
        (nGasPrice * (nTvGasFee / nGasPrice + 1), nTvGasFee / nGasPrice + 1)
      else (nTvGasFee, nTvGasFee / nGasPrice)
    else (nGasPrice, 1)
  else (0, 0)

/-- What `AddTxState` reads of a public-key sender's time vault: the estimate
`EstimateTransTvGasFee` and the part `nSyTvFee` of the vault not yet paid in this block. -/
structure TimeVaultQuote where
  nTvGasFee : U256
  nSyTvFee : U256

/-- The time-vault fee and gas of a transaction: none for a sender that is not a public key
(`tv = none`), else the estimate capped by what is left and rounded to whole gas. -/
def timeVaultGas (nGasPrice : U256) : Option TimeVaultQuote → U256 × U256
  | none => (0, 0)
  | some q =>
    calcRealityTvGasFee nGasPrice (if q.nSyTvFee < q.nTvGasFee then q.nSyTvFee else q.nTvGasFee)

/-- The time-vault gas is at most the fee over the price, rounded up. -/
theorem calcRealityTvGasFee_gas_le (nGasPrice nTvGasFee : U256) :
    (calcRealityTvGasFee nGasPrice nTvGasFee).2.toNat ≤ nTvGasFee.toNat / nGasPrice.toNat + 1 := by
  unfold calcRealityTvGasFee
  split_ifs
  · rw [BitVec.toNat_add, BitVec.toNat_udiv]
    refine Nat.le_trans (Nat.mod_le _ _) ?_
    simp
  · rw [BitVec.toNat_udiv]
    omega
  · simp
  · simp

/-- At a price of at least `MIN_GAS_PRICE`, the time-vault gas is far below `2 ^ 256`. -/
theorem timeVaultGas_le {nGasPrice : U256} (hp : 10 ^ 10 ≤ nGasPrice.toNat)
    (tv : Option TimeVaultQuote) : (timeVaultGas nGasPrice tv).2.toNat ≤ 2 ^ 256 / 10 ^ 10 + 1 := by
  cases tv with
  | none => simp [timeVaultGas]
  | some q =>
    refine Nat.le_trans (calcRealityTvGasFee_gas_le _ _) (Nat.add_le_add_right ?_ 1)
    calc _ ≤ _ / 10 ^ 10 := Nat.div_le_div_left hp (by decide)
      _ ≤ 2 ^ 256 / 10 ^ 10 := Nat.div_le_div_right (Nat.le_of_lt (BitVec.isLt _))

/-- The base gas and the time-vault gas add without wrapping. -/
theorem getTxBaseGas_add_toNat {tx : Transaction D} (hp : 10 ^ 10 ≤ tx.nGasPrice.toNat)
    (tv : Option TimeVaultQuote) :
    (tx.getTxBaseGas + (timeVaultGas tx.nGasPrice tv).2).toNat =
      tx.getTxBaseGas.toNat + (timeVaultGas tx.nGasPrice tv).2.toNat := by
  apply BitVec.toNat_add_of_lt
  have h1 := timeVaultGas_le hp tv
  have h2 := getTxBaseGas_toNat tx
  have h3 := tx.nTxDataSize.toNat_lt
  omega

/-! ## `AddTxState` -/

/-- What `AddTxState` leaves: the balances (`CDestState::nBalance`), the fee used
(`mapBlockTxFeeUsed[txid]`), and the refund and the time-vault fee (both added to
`nBlockFeeLeft`). -/
structure TxFeeResult (D : Type) where
  balance : D → U256
  nUsedFee : U256
  nLeftFee : U256
  nTvGasFee : U256

variable [DecidableEq D]

/-- `CDestState::IncBalance`. -/
def incBalance (balance : D → U256) (d : D) (n : U256) : D → U256 :=
  Function.update balance d (balance d + n)

/-- `CDestState::DecBalance`. -/
def decBalance (balance : D → U256) (d : D) (n : U256) : D → U256 :=
  Function.update balance d (balance d - n)

@[simp] theorem incBalance_self (balance : D → U256) (d : D) (n : U256) :
    incBalance balance d n d = balance d + n := by
  simp [incBalance]

@[simp] theorem incBalance_of_ne {balance : D → U256} {d e : D} (h : e ≠ d) (n : U256) :
    incBalance balance d n e = balance e := by
  simp [incBalance, h]

@[simp] theorem decBalance_self (balance : D → U256) (d : D) (n : U256) :
    decBalance balance d n d = balance d - n := by
  simp [decBalance]

@[simp] theorem decBalance_of_ne {balance : D → U256} {d e : D} (h : e ≠ d) (n : U256) :
    decBalance balance d n e = balance e := by
  simp [decBalance, h]

theorem eq_zero_of_not_pos {n : U256} (h : ¬ 0 < n) : n = 0 := by
  rw [BitVec.lt_def, BitVec.ofNat_eq_ofNat, BitVec.toNat_ofNat, Nat.zero_mod, Nat.not_lt,
    Nat.le_zero] at h
  exact BitVec.eq_of_toNat_eq (by rw [h]; rfl)

/-- The guards `n > 0` and `n != 0` around a credit or a debit change nothing: moving `0`
leaves every balance as it is. -/
theorem incBalance_if_pos (balance : D → U256) (d : D) (n : U256) :
    (if 0 < n then incBalance balance d n else balance) = incBalance balance d n := by
  split_ifs with h
  · rfl
  · rw [eq_zero_of_not_pos h]
    simp [incBalance]

theorem incBalance_if_ne (balance : D → U256) (d : D) (n : U256) :
    (if n ≠ 0 then incBalance balance d n else balance) = incBalance balance d n := by
  split_ifs with h
  · rfl
  · rw [not_not.mp h]
    simp [incBalance]

theorem decBalance_if_ne (balance : D → U256) (d : D) (n : U256) :
    (if n ≠ 0 then decBalance balance d n else balance) = decBalance balance d n := by
  split_ifs with h
  · rfl
  · rw [not_not.mp h]
    simp [decBalance]

/-- The ending of `AddTxState` for a destination that is not a contract, with `nLeftGas` gas
left: the gas used is charged, the rest refunded, and the time-vault fee paid to
`destTimeVault`. -/
def settleTxFee (tx : Transaction D) (destTimeVault : D) (balance : D → U256)
    (nLeftGas nTvGasFee : U256) : TxFeeResult D :=
  let nUsedGas := if nLeftGas < tx.nGasLimit then tx.nGasLimit - nLeftGas else 0
  let nLeftFee := tx.nGasPrice * nLeftGas
  let balance := if 0 < nLeftFee then incBalance balance tx.destFrom nLeftFee else balance
  let balance := if 0 < nTvGasFee then incBalance balance destTimeVault nTvGasFee else balance
  ⟨balance, tx.nGasPrice * nUsedGas, nLeftFee, nTvGasFee⟩

/-- The gas-not-enough branch of `AddTxState`: the base gas is charged, the rest of the gas
limit refunded, and the amount moved back from the receiver. -/
def cancelTxFee (tx : Transaction D) (balance : D → U256) : TxFeeResult D :=
  let nTxBaseGas := tx.getTxBaseGas
  let nCanLeftGas := if nTxBaseGas < tx.nGasLimit then tx.nGasLimit - nTxBaseGas else 0
  let nLeftFee := tx.nGasPrice * nCanLeftGas
  let balance := if tx.nAmount ≠ 0 then decBalance balance tx.destTo tx.nAmount else balance
  ⟨incBalance balance tx.destFrom (nLeftFee + tx.nAmount), tx.nGasPrice * nTxBaseGas, nLeftFee, 0⟩

/-- `settleTxFee` credits the refund to the sender and the fee to the time vault. -/
theorem settleTxFee_balance (tx : Transaction D) (destTimeVault : D) (balance : D → U256)
    (nLeftGas nTvGasFee : U256) :
    (settleTxFee tx destTimeVault balance nLeftGas nTvGasFee).balance =
      incBalance (incBalance balance tx.destFrom (tx.nGasPrice * nLeftGas)) destTimeVault
        nTvGasFee := by
  simp only [settleTxFee, incBalance_if_pos]

/-- `cancelTxFee` takes the amount back from the receiver and returns it to the sender with
the refund. -/
theorem cancelTxFee_balance (tx : Transaction D) (balance : D → U256) :
    (cancelTxFee tx balance).balance =
      incBalance (decBalance balance tx.destTo tx.nAmount) tx.destFrom
        (tx.nGasPrice * (if tx.getTxBaseGas < tx.nGasLimit then tx.nGasLimit - tx.getTxBaseGas
          else 0) + tx.nAmount) := by
  simp only [cancelTxFee, decBalance_if_ne]

/-- `CBlockState::AddTxState` on the fee path: the receiver is credited, the sender checked
against and charged `nAmount + GetTxFee()`, then either the transaction is cancelled for want
of gas or the unused gas is refunded.  A `TX_CERT` transaction skips the time vault and the
gas check, but still leaves `nLeftGas = GetGasLimit() - GetTxBaseGas()` (the time-vault gas
staying `0`) and is refunded for it.  `none` is the failed balance check. -/
def addTxState (tx : Transaction D) (tv : Option TimeVaultQuote) (destTimeVault : D)
    (balance : D → U256) : Option (TxFeeResult D) :=
  let balance := if tx.nAmount ≠ 0 then incBalance balance tx.destTo tx.nAmount else balance
  if balance tx.destFrom < tx.nAmount + tx.getTxFee then none
  else
    let balance := decBalance balance tx.destFrom (tx.nAmount + tx.getTxFee)
    if tx.nType = .cert then
      some (settleTxFee tx destTimeVault balance (tx.nGasLimit - tx.getTxBaseGas) 0)
    else
      let nTvGas := timeVaultGas tx.nGasPrice tv
      if tx.nGasLimit < tx.getTxBaseGas + nTvGas.2 then some (cancelTxFee tx balance)
      else some (settleTxFee tx destTimeVault balance
        (tx.nGasLimit - (tx.getTxBaseGas + nTvGas.2)) nTvGas.1)

/-- **The branches of `AddTxState`** for a transaction that is not a `TX_CERT`: past the
balance check on the credited state, the transaction either runs with the gas left after the
base and time-vault gas, or is cancelled for want of gas. -/
theorem addTxState_cases {tx : Transaction D} {tv : Option TimeVaultQuote} {destTimeVault : D}
    {balance : D → U256} {r : TxFeeResult D} (hcert : tx.nType ≠ .cert)
    (h : addTxState tx tv destTimeVault balance = some r) :
    ¬ incBalance balance tx.destTo tx.nAmount tx.destFrom < tx.nAmount + tx.getTxFee ∧
      ((¬ tx.nGasLimit < tx.getTxBaseGas + (timeVaultGas tx.nGasPrice tv).2 ∧
          r = settleTxFee tx destTimeVault (decBalance (incBalance balance tx.destTo tx.nAmount)
              tx.destFrom (tx.nAmount + tx.getTxFee))
            (tx.nGasLimit - (tx.getTxBaseGas + (timeVaultGas tx.nGasPrice tv).2))
            (timeVaultGas tx.nGasPrice tv).1) ∨
        (tx.nGasLimit < tx.getTxBaseGas + (timeVaultGas tx.nGasPrice tv).2 ∧
          r = cancelTxFee tx (decBalance (incBalance balance tx.destTo tx.nAmount)
            tx.destFrom (tx.nAmount + tx.getTxFee)))) := by
  simp only [addTxState, incBalance_if_ne] at h
  -- `hcert` discards the `TX_CERT` branch, and the failed check returns `none`
  split_ifs at h with hcheck hgas
  · exact ⟨hcheck, .inr ⟨hgas, (Option.some.inj h).symm⟩⟩
  · exact ⟨hcheck, .inl ⟨hgas, (Option.some.inj h).symm⟩⟩

/-! ## Exact accounting while the fee does not wrap -/

section Accounting

variable {tx : Transaction D}

omit [DecidableEq D] in
/-- **Charge and refund.**  Charging `nAmount + GetTxFee()` up front and refunding
`nGasPrice * left + back`, with `left = nGasLimit - g` gas unused and `back ≤ nAmount`, costs
the sender exactly `nAmount - back` and `nGasPrice * g`, no residue taken anywhere. -/
theorem charge_refund_toNat (hc : FeeChecked tx)
    (hfit : tx.nGasPrice.toNat * tx.nGasLimit.toNat < 2 ^ 256) {b left : U256} (back : U256) {g : ℕ}
    (hb : ¬ b < tx.nAmount + tx.getTxFee) (hg : g ≤ tx.nGasLimit.toNat)
    (hleft : left.toNat = tx.nGasLimit.toNat - g) (hback : back.toNat ≤ tx.nAmount.toNat) :
    (b - (tx.nAmount + tx.getTxFee) + (tx.nGasPrice * left + back)).toNat +
        (tx.nAmount.toNat - back.toNat) + tx.nGasPrice.toNat * g = b.toNat := by
  have hfee := getTxFee_toNat hfit
  have hamount := hc.amount
  have hfee30 := hc.fee
  have hbl := b.isLt
  have hcharge : (tx.nAmount + tx.getTxFee).toNat = tx.nAmount.toNat + tx.getTxFee.toNat :=
    BitVec.toNat_add_of_lt (by omega)
  rw [BitVec.lt_def, hcharge] at hb
  -- the gas split: what is refunded plus what is charged is the whole limit
  have hsplit : tx.nGasPrice.toNat * (tx.nGasLimit.toNat - g) + tx.nGasPrice.toNat * g =
      tx.nGasPrice.toNat * tx.nGasLimit.toNat := by
    rw [← Nat.mul_add, Nat.sub_add_cancel hg]
  have hrefund : (tx.nGasPrice * left).toNat = tx.nGasPrice.toNat * (tx.nGasLimit.toNat - g) := by
    rw [BitVec.toNat_mul_of_lt] <;> rw [hleft]
    omega
  have hinner : (tx.nGasPrice * left + back).toNat =
      tx.nGasPrice.toNat * (tx.nGasLimit.toNat - g) + back.toNat := by
    rw [BitVec.toNat_add_of_lt (by rw [hrefund]; omega), hrefund]
  have hsub : (b - (tx.nAmount + tx.getTxFee)).toNat =
      b.toNat - (tx.nAmount.toNat + tx.getTxFee.toNat) :=
    by rw [BitVec.toNat_sub_of_le (by rw [BitVec.le_def]; omega), hcharge]
  rw [BitVec.toNat_add_of_lt (by rw [hsub, hinner]; omega), hsub, hinner]
  omega

variable {tv : Option TimeVaultQuote} {destTimeVault : D} {balance : D → U256}
  {r : TxFeeResult D}

/-- **Exact accounting.**  For a transaction that pays gas and passed the fee checks, whose
`nGasPrice * nGasLimit` stays below `2 ^ 256`, sent to another address: the gas charged `g`
lies between the base gas and the limit, the fee used is `nGasPrice * g`, and either the
transaction ran (the sender paid `nAmount` and `nGasPrice * g`, the receiver got `nAmount`) or
it was cancelled (the sender paid the base gas only, the receiver's balance is as it was). -/
theorem addTxState_sender_balance (hv : validateTxFee tx = .ok ())
    (htype : tx.nType = .token ∨ tx.nType = .ethCreateContract ∨ tx.nType = .ethMessageCall)
    (hfit : tx.nGasPrice.toNat * tx.nGasLimit.toNat < 2 ^ 256)
    (hne : tx.destFrom ≠ tx.destTo) (hvault : destTimeVault ≠ tx.destFrom)
    (hvault' : destTimeVault ≠ tx.destTo)
    (h : addTxState tx tv destTimeVault balance = some r) :
    ∃ g, tx.getTxBaseGas.toNat ≤ g ∧ g ≤ tx.nGasLimit.toNat ∧
      r.nUsedFee.toNat = tx.nGasPrice.toNat * g ∧
      (((r.balance tx.destFrom).toNat + tx.nAmount.toNat + tx.nGasPrice.toNat * g =
          (balance tx.destFrom).toNat ∧ r.balance tx.destTo = balance tx.destTo + tx.nAmount) ∨
        (g = tx.getTxBaseGas.toNat ∧
          (r.balance tx.destFrom).toNat + tx.nGasPrice.toNat * g = (balance tx.destFrom).toNat ∧
          r.balance tx.destTo = balance tx.destTo)) := by
  have hc := validateTxFee_feeChecked hv htype
  have hcert : tx.nType ≠ .cert := by
    rcases htype with h | h | h <;> rw [h] <;> decide
  have hbase := getTxBaseGas_toNat tx
  have hgas := getTxBaseGas_add_toNat hc.price tv
  have hlimit := hc.limit
  have hPg : ∀ g ≤ tx.nGasLimit.toNat, tx.nGasPrice.toNat * g < 2 ^ 256 := fun g hg =>
    Nat.lt_of_le_of_lt (Nat.mul_le_mul_left _ hg) hfit
  obtain ⟨hcheck, ⟨hrun, rfl⟩ | ⟨hcancel, rfl⟩⟩ := addTxState_cases hcert h
  all_goals rw [incBalance_of_ne hne] at hcheck
  · -- the transaction ran: `g` is the base gas plus the time vault's
    rw [BitVec.lt_def, hgas] at hrun
    have hleft : (tx.nGasLimit - (tx.getTxBaseGas + (timeVaultGas tx.nGasPrice tv).2)).toNat =
        tx.nGasLimit.toNat -
          (tx.getTxBaseGas.toNat + (timeVaultGas tx.nGasPrice tv).2.toNat) := by
      rw [BitVec.toNat_sub_of_le (by rw [BitVec.le_def, hgas]; omega), hgas]
    have hused : (if tx.nGasLimit - (tx.getTxBaseGas + (timeVaultGas tx.nGasPrice tv).2) <
          tx.nGasLimit then tx.nGasLimit - (tx.nGasLimit -
            (tx.getTxBaseGas + (timeVaultGas tx.nGasPrice tv).2)) else 0).toNat =
        tx.getTxBaseGas.toNat + (timeVaultGas tx.nGasPrice tv).2.toNat := by
      rw [if_pos (by rw [BitVec.lt_def, hleft]; omega),
        BitVec.toNat_sub_of_le (by rw [BitVec.le_def, hleft]; omega), hleft]
      omega
    have key := charge_refund_toNat hc hfit 0 hcheck (by omega : tx.getTxBaseGas.toNat +
      (timeVaultGas tx.nGasPrice tv).2.toNat ≤ tx.nGasLimit.toNat) hleft (by simp)
    simp only [BitVec.ofNat_eq_ofNat, BitVec.add_zero, BitVec.toNat_ofNat, Nat.zero_mod,
      Nat.sub_zero] at key
    refine ⟨tx.getTxBaseGas.toNat + (timeVaultGas tx.nGasPrice tv).2.toNat, by omega, by omega, ?_,
      .inl ⟨?_, ?_⟩⟩
    · show (tx.nGasPrice * _).toNat = _
      rw [BitVec.toNat_mul_of_lt] <;> rw [hused]
      exact hPg _ (by omega)
    · rw [settleTxFee_balance, incBalance_of_ne hvault.symm, incBalance_self, decBalance_self,
        incBalance_of_ne hne]
      exact key
    · rw [settleTxFee_balance, incBalance_of_ne hvault'.symm, incBalance_of_ne hne.symm,
        decBalance_of_ne hne.symm, incBalance_self]
  · -- the transaction was cancelled: only the base gas is charged
    have hcan : (if tx.getTxBaseGas < tx.nGasLimit then tx.nGasLimit - tx.getTxBaseGas
        else 0).toNat = tx.nGasLimit.toNat - tx.getTxBaseGas.toNat := by
      split_ifs with hlt
      · exact BitVec.toNat_sub_of_le (BitVec.le_of_lt hlt)
      · rw [BitVec.lt_def] at hlt
        simp only [BitVec.ofNat_eq_ofNat, BitVec.toNat_ofNat, Nat.zero_mod]
        omega
    have key := charge_refund_toNat hc hfit tx.nAmount hcheck hlimit hcan (Nat.le_refl _)
    rw [Nat.sub_self, Nat.add_zero] at key
    refine ⟨_, Nat.le_refl _, hlimit, ?_, .inr ⟨rfl, ?_, ?_⟩⟩
    · exact BitVec.toNat_mul_of_lt (hPg _ hlimit)
    · rw [cancelTxFee_balance, incBalance_self, decBalance_of_ne hne, decBalance_self,
        incBalance_of_ne hne]
      exact key
    · rw [cancelTxFee_balance, incBalance_of_ne hne.symm, decBalance_self,
        decBalance_of_ne hne.symm, incBalance_self, BitVec.add_sub_cancel]

/-- In particular, while the fee does not wrap, the sender of a token transfer to another
address, neither of them the time vault, ends with at most what it had. -/
theorem addTxState_sender_le (hv : validateTxFee tx = .ok ()) (htype : tx.nType = .token)
    (hfit : tx.nGasPrice.toNat * tx.nGasLimit.toNat < 2 ^ 256)
    (hne : tx.destFrom ≠ tx.destTo) (hvault : destTimeVault ≠ tx.destFrom)
    (hvault' : destTimeVault ≠ tx.destTo)
    (h : addTxState tx tv destTimeVault balance = some r) :
    (r.balance tx.destFrom).toNat ≤ (balance tx.destFrom).toNat := by
  obtain ⟨g, -, -, -, ⟨hran, -⟩ | ⟨-, hcancelled, -⟩⟩ :=
    addTxState_sender_balance hv (Or.inl htype) hfit hne hvault hvault' h
  · omega
  · omega

/-- A plain token transfer at the minimum gas price with the base gas as its limit. -/
def plainTransferTx : Transaction ℕ where
  nType := .token
  destFrom := 0
  destTo := 1
  nAmount := BitVec.ofNat 256 (10 ^ 12)
  nGasPrice := minGasPrice
  nGasLimit := txBaseGas
  nTxDataSize := 0

/-- The transfer from a sender holding `10 ^ 15`. -/
theorem addTxState_sender_le_plainTransfer :
    ∃ r, addTxState plainTransferTx none 2 (fun _ => BitVec.ofNat 256 (10 ^ 15)) = some r ∧
      (r.balance plainTransferTx.destFrom).toNat ≤ (BitVec.ofNat 256 (10 ^ 15) : U256).toNat := by
  obtain ⟨r, hr⟩ : ∃ r, addTxState plainTransferTx none 2
      (fun _ => BitVec.ofNat 256 (10 ^ 15)) = some r := ⟨_, rfl⟩
  exact ⟨r, hr, addTxState_sender_le (by decide) rfl (by decide) (by decide)
    (by decide) (by decide) hr⟩

end Accounting

/-! ## Past `2 ^ 256` -/

/-- A token transaction from destination `0` to `1` with no amount, no data, and
`nGasPrice = nGasLimit = 2 ^ 128`. -/
def overflowTx : Transaction ℕ where
  nType := .token
  destFrom := 0
  destTo := 1
  nAmount := 0
  nGasPrice := BitVec.ofNat 256 (2 ^ 128)
  nGasLimit := BitVec.ofNat 256 (2 ^ 128)
  nTxDataSize := 0

/-- **The fee wraps.**  `overflowTx` passes the fee checks of `ValidateTransaction` with
`GetTxFee()` the residue `0` of the product `2 ^ 256`.  A sender holding nothing passes the
balance check of `AddTxState`, is charged nothing, and is refunded the residue of
`2 ^ 128 * (2 ^ 128 - 21000)`: it ends with `2 ^ 256 - 21000 * 2 ^ 128`. -/
theorem addTxState_fee_overflow :
    validateTxFee overflowTx = .ok () ∧
      overflowTx.nGasPrice.toNat * overflowTx.nGasLimit.toNat = 2 ^ 256 ∧
      overflowTx.getTxFee = 0 ∧
      ∃ r, addTxState overflowTx none 2 (fun _ => 0) = some r ∧
        (r.balance overflowTx.destFrom).toNat = 2 ^ 256 - 21000 * 2 ^ 128 := by
  refine ⟨by decide, by decide, by decide, _, rfl, by decide⟩

end MetabaseNet
