/-
  The wallet and the parts its operations are built from (BRWallet.c).

  A `BRSet` of transactions is a finite map from the hash that keys it, any
  other `BRSet` a finite set.  Transactions are objects on a heap: the list
  `transactions` and the set `allTx` hold pointers, heights are written through
  them, and a freed pointer can no longer be read.  A function that reads a
  freed object or dereferences `NULL` has no result (`none`).

  The address chains are derived from `masterPubKey` by an arbitrary function
  (`Env.address`).
-/
import Mathlib.Data.List.AList
import Mathlib.Data.List.DropRight
import Mathlib.Data.Finset.Basic
import RavenWallet.Lib.Heap
import RavenWallet.Lib.Scan
import RavenWallet.Core.Types

namespace RavenWallet

/-- Which callbacks are set (not `NULL`). -/
structure Callbacks where
  balanceChanged : Bool := false
  txAdded : Bool := false
  txUpdated : Bool := false
  txDeleted : Bool := false
  deriving DecidableEq

/-- A call of one of the callbacks. -/
inductive WalletEvent where
  | balanceChanged (balance : UInt64)
  | txAdded (tx : Ptr)
  | txUpdated (txHashes : List UInt256) (blockHeight timestamp : UInt32)
  | txDeleted (txHash : UInt256) (notifyUser recommendRescan : Bool)
  deriving DecidableEq

def DEFAULT_FEE_PER_KB : UInt64 := (5000 * 1000 + 99) / 100
def MIN_FEE_PER_KB : UInt64 := (TX_FEE_PER_KB * 1000 + 190) / 191

def SEQUENCE_GAP_LIMIT_EXTERNAL : ℕ := 10
def SEQUENCE_GAP_LIMIT_INTERNAL : ℕ := 5

/-- `struct BRWalletStructure`, with the heap its pointers lead into.  `calls`
    are the callback invocations so far, and `updatedAt` is the clock read by
    the last `updateBalance`. -/
structure BRWallet where
  balance : UInt64 := 0
  totalSent : UInt64 := 0
  totalReceived : UInt64 := 0
  feePerKb : UInt64 := DEFAULT_FEE_PER_KB
  balanceHist : List UInt64 := []
  blockHeight : UInt32 := 0
  utxos : List UTXO := []
  transactions : List Ptr := []
  internalChain : List BRAddress := []
  externalChain : List BRAddress := []
  allTx : AList fun _ : UInt256 => Ptr := ∅
  invalidTx : Finset UInt256 := ∅
  pendingTx : Finset UInt256 := ∅
  spentOutputs : Finset UTXO := ∅
  usedAddrs : Finset BRAddress := ∅
  allAddrs : Finset BRAddress := ∅
  callbacks : Callbacks := {}
  heap : Heap BRTransaction := .empty
  calls : List WalletEvent := []
  updatedAt : ℤ := 0

/-- What the wallet does not compute itself: the address with an index in the
    internal or external chain (`none` if the key or its hash is invalid), and
    whether an `array_add` moved that chain in memory. -/
structure Env where
  address : Bool → UInt32 → Option BRAddress
  moved : BRWallet → Bool → Bool

namespace BRWallet

variable (w : BRWallet)

/-- `BRSetGet(wallet->allTx, &hash)`, dereferenced. -/
def tx? (h : UInt256) : Option BRTransaction := (w.allTx.lookup h).bind w.heap.load

/-- The output that a UTXO names. -/
def output? (u : UTXO) : Option BRTxOutput := do
  let t ← w.tx? u.hash
  t.outputs[u.n.toNat]?

/-- The transactions registered in the wallet; fails if one was freed. -/
def registered : Option (List BRTransaction) := w.heap.loadAll w.transactions

def emit (set : Bool) (e : WalletEvent) : BRWallet :=
  if set then { w with calls := w.calls ++ [e] } else w

/-! ## Transaction order -/

/-- Position in `chain` of the last address that `tx` pays (`_txChainIndex`). -/
def txChainIndex (tx : BRTransaction) (chain : List BRAddress) : Option ℕ :=
  (List.range chain.length).reverse.find? fun i =>
    tx.outputs.any fun o => chain[i]? = some o.address

/-- `_BRWalletTxIsAscending`; a `NULL` transaction is `none`.  No result if the
    recursion through the inputs is deeper than the first argument. -/
def txIsAscending : ℕ → Option BRTransaction → Option BRTransaction → Option Bool
  | 0, _, _ => none
  | depth + 1, some tx1, some tx2 =>
    if tx1.blockHeight > tx2.blockHeight then some true
    else if tx1.blockHeight < tx2.blockHeight then some false
    else if tx1.inputs.any fun i => i.txHash = tx2.txHash then some true
    else if tx2.inputs.any fun i => i.txHash = tx1.txHash then some false
    else tx1.inputs.anyM fun i => txIsAscending depth (w.tx? i.txHash) (some tx2)
  | _ + 1, _, _ => some false

/-- `_BRWalletTxCompare`. -/
def txCompare (depth : ℕ) (tx1 tx2 : BRTransaction) : Option ℤ := do
  if ← w.txIsAscending depth (some tx1) (some tx2) then some 1
  else if ← w.txIsAscending depth (some tx2) (some tx1) then some (-1)
  else
    let i := txChainIndex tx1 w.internalChain
    let j := txChainIndex tx2 (if i.isNone then w.externalChain else w.internalChain)
    let i := if i.isNone && j.isSome then txChainIndex tx1 w.externalChain else i
    match i, j with
    | some i, some j => some (if i = j then 0 else if i > j then 1 else -1)
    | _, _ => some 0

/-- The transaction at `q` belongs after `tx`. -/
def isAfter (depth : ℕ) (tx : BRTransaction) (q : Ptr) : Option Bool := do
  let t ← w.heap.load q
  let c ← w.txCompare depth t tx
  some (decide (c > 0))

/-- Inserts `tx` at `p` into `transactions`, keeping them sorted by date, oldest
    first (`_BRWalletInsertTx`). -/
def insertTx (depth : ℕ) (p : Ptr) (tx : BRTransaction) : Option BRWallet := do
  let r ← insertBack (w.isAfter depth tx) p w.transactions.reverse
  some { w with transactions := r.reverse }

/-! ## Membership -/

/-- The output `i` spends is known and pays an address of the wallet. -/
def ownsInput (i : BRTxInput) : Bool :=
  match w.tx? i.txHash with
  | none => false
  | some t => match t.outputs[i.index.toNat]? with
    | none => false
    | some o => o.address ∈ w.allAddrs

/-- `_BRWalletContainsTx`. -/
def containsTx (tx : BRTransaction) : Bool :=
  tx.outputs.any (fun o => o.address ∈ w.allAddrs) || tx.inputs.any w.ownsInput

/-! ## Address chains -/

def chain (internal : Bool) : List BRAddress :=
  if internal then w.internalChain else w.externalChain

def setChain (internal : Bool) (c : List BRAddress) : BRWallet :=
  if internal then { w with internalChain := c } else { w with externalChain := c }

/-- Where the trailing block of addresses with no transactions starts. -/
def trailingStart (used : Finset BRAddress) (chain : List BRAddress) : ℕ :=
  (chain.rdropWhile fun a => a ∉ used).length

/-- Generates addresses until `gap` unused ones follow position `i`; at most as
    many as the first argument. -/
def extendChain (env : Env) (internal : Bool) (used : Finset BRAddress) (gap : ℕ) :
    ℕ → List BRAddress → ℕ → Option (List BRAddress × ℕ)
  | 0, chain, i => if chain.length < i + gap then none else some (chain, i)
  | fuel + 1, chain, i =>
    if chain.length < i + gap then
      match env.address internal (UInt32.ofNat chain.length) with
      | none => some (chain, i)
      | some a =>
        if a = [] then some (chain, i)
        else
          let chain := chain ++ [a]
          extendChain env internal used gap fuel chain (if a ∈ used then chain.length else i)
    else some (chain, i)

/-- `BRWalletUnusedAddrs`: the wallet with the chain extended, and the first
    `gapLimit` unused addresses (none if too few could be generated). -/
def unusedAddrs (env : Env) (fuel : ℕ) (gapLimit : ℕ) (internal : Bool) :
    Option (BRWallet × List BRAddress) := do
  let start := w.chain internal
  let (chain, i) ← extendChain env internal w.usedAddrs gapLimit fuel start
    (trailingStart w.usedAddrs start)
  let addrs := if i + gapLimit ≤ chain.length then (chain.drop i).take gapLimit else []
  let w' := w.setChain internal chain
  let allAddrs :=
    if env.moved w internal then w'.internalChain.toFinset ∪ w'.externalChain.toFinset
    else w.allAddrs ∪ (chain.drop start.length).toFinset
  some ({ w' with allAddrs }, addrs)

end BRWallet

end RavenWallet
