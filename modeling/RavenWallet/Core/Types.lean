/-
  The data of the wallet core (BRTransaction.h, BRWallet.h, BRAddress.h).

  Hashes and addresses are only compared, so a `UInt256` is a bit vector and an
  address the bytes before the terminating NUL of its `char[36]`.  Counts and
  lengths kept beside an array (`inCount`, `scriptLen`, …) are the lengths of
  the lists; a `NULL` script or signature is `none`.
-/
import Mathlib.Data.UInt
import Mathlib.Data.List.Basic

namespace RavenWallet

abbrev UInt256 := BitVec 256

instance : LawfulBEq UInt256 := inferInstanceAs (LawfulBEq (BitVec 256))

abbrev Bytes := List UInt8

/-- A `BRAddress`, `ADDRESS_NONE` being the empty one. -/
abbrev BRAddress := Bytes

def UINT32_MAX : UInt32 := 0xffffffff

/-- Block height of an unconfirmed transaction (`INT32_MAX`). -/
def TX_UNCONFIRMED : UInt32 := 0x7fffffff

/-- A lock time below this is a block height, otherwise a timestamp. -/
def TX_MAX_LOCK_HEIGHT : UInt32 := 500000000

def TX_FEE_PER_KB : UInt64 := 1000000
def TX_OUTPUT_SIZE : ℕ := 34
def TX_INPUT_SIZE : ℕ := 148
def TX_MIN_OUTPUT_AMOUNT : UInt64 := 546000
def TX_MAX_SIZE : ℕ := 100000
def TXIN_SEQUENCE : UInt32 := UINT32_MAX
def TX_VERSION : UInt32 := 1

/-- An outpoint. -/
structure UTXO where
  hash : UInt256
  n : UInt32
  deriving DecidableEq, Repr

structure BRTxInput where
  txHash : UInt256
  index : UInt32
  address : BRAddress := []
  amount : UInt64 := 0
  script : Option Bytes := none
  signature : Option Bytes := none
  sequence : UInt32 := TXIN_SEQUENCE
  deriving DecidableEq, Repr

/-- A `BRTxInput` starts with the fields of a `UTXO`, and the wallet looks it up as one. -/
def BRTxInput.outpoint (i : BRTxInput) : UTXO := ⟨i.txHash, i.index⟩

structure BRTxOutput where
  address : BRAddress := []
  amount : UInt64 := 0
  script : Option Bytes := none
  deriving DecidableEq, Repr

inductive BRAssetScriptType where
  | NEW_ASSET | TRANSFER | REISSUE | OWNER | INVALID
  deriving DecidableEq, Repr

/-- An asset; `name` are the bytes allocated for the name, without the final NUL. -/
structure BRAsset where
  type : BRAssetScriptType := .NEW_ASSET
  name : Bytes := []
  nameLen : ℕ := 0
  amount : UInt64 := 0
  unit : UInt8 := 0
  reissuable : UInt8 := 0
  hasIPFS : UInt8 := 0
  IPFSHash : Bytes := []
  deriving DecidableEq, Repr

structure BRTransaction where
  txHash : UInt256 := 0
  version : UInt32 := TX_VERSION
  inputs : List BRTxInput := []
  outputs : List BRTxOutput := []
  lockTime : UInt32 := 0
  blockHeight : UInt32 := TX_UNCONFIRMED
  timestamp : UInt32 := 0
  /-- the array `asset` points to, empty if it is `NULL` -/
  asset : List BRAsset := []
  deriving DecidableEq, Repr

namespace BRTransaction

def outpoints (tx : BRTransaction) : List UTXO := tx.inputs.map BRTxInput.outpoint

/-- All signatures exist (`BRTransactionIsSigned`). -/
def isSigned (tx : BRTransaction) : Bool := tx.inputs.all fun i => i.signature.isSome

/-- `tx` in a block, or unconfirmed. -/
def setBlock (tx : BRTransaction) (blockHeight timestamp : UInt32) : BRTransaction :=
  { tx with blockHeight, timestamp }

section
variable (tx : BRTransaction) (blockHeight timestamp : UInt32)

@[simp] theorem setBlock_txHash : (tx.setBlock blockHeight timestamp).txHash = tx.txHash := rfl
@[simp] theorem setBlock_inputs : (tx.setBlock blockHeight timestamp).inputs = tx.inputs := rfl
@[simp] theorem setBlock_outputs : (tx.setBlock blockHeight timestamp).outputs = tx.outputs := rfl
@[simp] theorem setBlock_outpoints :
    (tx.setBlock blockHeight timestamp).outpoints = tx.outpoints := rfl
@[simp] theorem setBlock_lockTime : (tx.setBlock blockHeight timestamp).lockTime = tx.lockTime := rfl
@[simp] theorem setBlock_blockHeight :
    (tx.setBlock blockHeight timestamp).blockHeight = blockHeight := rfl
@[simp] theorem setBlock_timestamp :
    (tx.setBlock blockHeight timestamp).timestamp = timestamp := rfl

end

end BRTransaction

/-- Number of bytes of the variable-length encoding of `i` (`BRVarIntSize`). -/
def varIntSize (i : ℕ) : ℕ :=
  if i < 0xfd then 1 else if i ≤ 0xffff then 3 else if i ≤ 0xffffffff then 5 else 9

def scriptLen (s : Option Bytes) : ℕ := (s.getD []).length

namespace BRTransaction

/-- Bytes of an input: those of its signature, or an estimate if it is unsigned. -/
def inputSize (i : BRTxInput) : ℕ :=
  match i.signature with
  | some sig => 32 + 4 + varIntSize sig.length + sig.length + 4
  | none => TX_INPUT_SIZE

def outputSize (o : BRTxOutput) : ℕ := 8 + varIntSize (scriptLen o.script) + scriptLen o.script

/-- Size in bytes if signed, or estimated size assuming compact pubkey signatures
    (`BRTransactionSize`). -/
def size (tx : BRTransaction) : ℕ :=
  8 + varIntSize tx.inputs.length + varIntSize tx.outputs.length +
    (tx.inputs.map inputSize).sum + (tx.outputs.map outputSize).sum

end BRTransaction

end RavenWallet
