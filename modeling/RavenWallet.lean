import RavenWallet.Platform.APIClient
import RavenWallet.Peer.Filter
import RavenWallet.Keys.Paths
import RavenWallet.Crypto.Scrypt
import RavenWallet.Crypto.KeyDerivation
import RavenWallet.Lib.Derivation
import RavenWallet.Lib.Pieces
import RavenWallet.Lib.Heap
import RavenWallet.Lib.Ledger
import RavenWallet.Lib.Scan
import RavenWallet.Lib.Word
import RavenWallet.Lib.Reach
import RavenWallet.Core.Types
import RavenWallet.Core.Sets
import RavenWallet.Core.SetRuns
import RavenWallet.Wallet.State
import RavenWallet.Wallet.Balance
import RavenWallet.Wallet.Accounting
import RavenWallet.Wallet.Ops
import RavenWallet.Wallet.Spec
import RavenWallet.Wallet.Runs
import RavenWallet.Wallet.Update
import RavenWallet.Wallet.Registry
import RavenWallet.Wallet.Order
import RavenWallet.Wallet.Membership
import RavenWallet.Wallet.Coherence
import RavenWallet.Core.Base58
import RavenWallet.Core.Base58Buffers
import RavenWallet.Lib.Buffer
import RavenWallet.Core.Assets
import RavenWallet.Core.AssetScripts
import RavenWallet.Core.Transaction
import RavenWallet.Core.AssetSizes
import RavenWallet.Core.AssetReads
import RavenWallet.Core.AssetRoundTrip
import RavenWallet.Core.MerkleBlock
import RavenWallet.Core.MerkleProof
import RavenWallet.Core.MerkleCodec
import RavenWallet.Core.MerkleDepth
import RavenWallet.Core.Difficulty
import RavenWallet.Lib.Items
import RavenWallet.Core.TxData
import RavenWallet.Core.TxParse
import RavenWallet.Core.TxBounds
import RavenWallet.Core.TxIdentity
import RavenWallet.Core.TxRoundTrip
import RavenWallet.Peer.Messages
import RavenWallet.Peer.Headers
import RavenWallet.Peer.Accept
import RavenWallet.Wallet.CoinSelection
import RavenWallet.Wallet.AssetTransfer
import RavenWallet.Core.Receiving
import RavenWallet.Lib.Prog
import RavenWallet.KV.Store
import RavenWallet.KV.Log
import RavenWallet.KV.Sync
import RavenWallet.KV.Lock
import RavenWallet.KV.Converge
import RavenWallet.KV.Devices
import RavenWallet.Lib.SetMap
import RavenWallet.Peer.Relays
import RavenWallet.Peer.Callbacks
import RavenWallet.Lib.Keyed
import RavenWallet.Peer.Blocks
import RavenWallet.Peer.BlockLiveness
import RavenWallet.Lib.Ancestry
import RavenWallet.Wallet.Reorg
import RavenWallet.Peer.Reorg
import RavenWallet.Wallet.Removal
import RavenWallet.Peer.Ownership
import RavenWallet.Core.Addresses
import RavenWallet.Crypto.Chacha20
import RavenWallet.KV.Nonces
import RavenWallet.Lib.Regroup
import RavenWallet.Keys.Mnemonic
import RavenWallet.Keys.Phrases
import RavenWallet.Lib.Checked
import RavenWallet.Platform.WebSocket
import RavenWallet.Platform.WebSocketSafety
import RavenWallet.Platform.Frames
import RavenWallet.Platform.Delivery
import RavenWallet.Lib.Table
import RavenWallet.Database.Blocks
import RavenWallet.Database.Transactions
import RavenWallet.Database.Assets
import RavenWallet.Database.AssetBalances
import RavenWallet.Keys.Sequence
import RavenWallet.Keys.Signing
import RavenWallet.Lib.Records
import RavenWallet.Wallet.Announce
import RavenWallet.Wallet.Addresses
import RavenWallet.Wallet.AddFee
import RavenWallet.Wallet.AssetFees
import RavenWallet.Wallet.MaxAmount
import RavenWallet.Wallet.Parents
import RavenWallet.Wallet.Queries
import RavenWallet.Wallet.RemovalClosure
import RavenWallet.Wallet.Asked
import RavenWallet.Core.ProofOfWork
import RavenWallet.Lib.Writer
import RavenWallet.Core.TxWrite
import RavenWallet.Lib.InPlace
import RavenWallet.Core.TxSign
import RavenWallet.Wallet.Decompose
import RavenWallet.Wallet.AssetChecks
import RavenWallet.Lib.Leaders
import RavenWallet.Peer.FeeFilter
import RavenWallet.Peer.Orphans
import RavenWallet.Lib.Filling
import RavenWallet.Peer.Locators
import RavenWallet.Peer.Connection
import RavenWallet.Peer.Pings
import RavenWallet.Peer.Collect
import RavenWallet.Core.ScriptElements
import RavenWallet.Lib.Limbs
import RavenWallet.Core.Limbs
import RavenWallet.Core.DarkGravity
import RavenWallet.Peer.Continuation
import RavenWallet.Wallet.Filed
import RavenWallet.Peer.Lasting
import RavenWallet.Lib.Sweep
import RavenWallet.Peer.PublishArrays
import RavenWallet.Lib.Descent
import RavenWallet.Peer.Placement
import RavenWallet.Peer.Saving
import RavenWallet.Core.BloomFilter
import RavenWallet.Keys.PinLock
import RavenWallet.Platform.BSPatch
import RavenWallet.Lib.Remainder
import RavenWallet.Core.Bech32
import RavenWallet.Core.Bech32Codec
import RavenWallet.Crypto.AES
import RavenWallet.Keys.PrivKey
import RavenWallet.Keys.BIP38
import RavenWallet.Platform.Tar
import RavenWallet.Wallet.Amounts
import RavenWallet.Platform.WebSocketSender
import RavenWallet.Platform.HTTPRequest
import RavenWallet.Platform.FileMiddleware
import RavenWallet.Platform.QueryString
import RavenWallet.Platform.Bzip
import RavenWallet.Wallet.ImportKey
import RavenWallet.Lib.Padding
import RavenWallet.Crypto.Compress
import RavenWallet.Crypto.Hashes
import RavenWallet.Crypto.Poly1305
import RavenWallet.Crypto.AEAD
import RavenWallet.Lib.Regex
import RavenWallet.Wallet.AssetNames
import RavenWallet.Core.Division
import RavenWallet.Core.Compact
import RavenWallet.Core.VarInt
import RavenWallet.Lib.Moves
import RavenWallet.Core.Arrays
import RavenWallet.Platform.Bundles
import RavenWallet.Peer.Thread
import RavenWallet.Peer.Wire
import RavenWallet.Peer.Pool
import RavenWallet.Peer.References
