import XrCoin.Archive.Varint
import XrCoin.Archive.Stream
import XrCoin.Archive.Binary
import XrCoin.Cryptonote.RctTypes
import XrCoin.Cryptonote.RctSerialization
import XrCoin.Cryptonote.Basic
import XrCoin.Cryptonote.Serialization
import XrCoin.Cryptonote.FormatUtils
import XrCoin.Cryptonote.Canonical
import XrCoin.Crypto.TreeHash
import XrCoin.Cryptonote.Hashes
import XrCoin.BlockchainDb.Db
import XrCoin.BlockchainDb.Restore
import XrCoin.BlockchainDb.Chain
import XrCoin.BlockchainDb.Batch
import XrCoin.Cryptonote.Reparse
import XrCoin.Data.Multimap
import XrCoin.TxPool.Pool
import XrCoin.TxPool.Containers
import XrCoin.TxPool.Consistent
import XrCoin.TxPool.Adding
import XrCoin.TxPool.Runs
import XrCoin.Core.IncomingTxs
import XrCoin.Core.Intake
import XrCoin.Core.Relays
import XrCoin.Core.FastSync
import XrCoin.Core.BlockWeight
import XrCoin.Cryptonote.Difficulty
import XrCoin.Data.Window
import XrCoin.Forks.HardFork
import XrCoin.Forks.Replay
import XrCoin.Forks.Runs
import XrCoin.Blockchain.Difficulty
import XrCoin.Blockchain.Recalculate
import XrCoin.Blockchain.Grown
import XrCoin.Blockchain.Timestamps
import XrCoin.Cryptonote.ProofOfWork
import XrCoin.Blockchain.LonghashTable
import XrCoin.Blockchain.ScanTable
import XrCoin.Blockchain.ScanAgreement
import XrCoin.Blockchain.MainChain
import XrCoin.Blockchain.Switch
import XrCoin.Blockchain.SwitchForks
import XrCoin.Core.Returned
import XrCoin.Blockchain.Returned
import XrCoin.Blockchain.Rollback
import XrCoin.Blockchain.FailedSwitch
import XrCoin.Blockchain.Ancestry
import XrCoin.Blockchain.Store
import XrCoin.Blockchain.HighestWork
import XrCoin.Data.OrderedSet
import XrCoin.Protocol.BlockQueue
import XrCoin.Protocol.Downloads
import XrCoin.Protocol.FluffyBlock
import XrCoin.Data.Runs
import XrCoin.Protocol.Requested
import XrCoin.Protocol.Reservation
import XrCoin.Data.TimeIndexed
import XrCoin.P2p.Peerlist
import XrCoin.Blockchain.Checkpoints
import XrCoin.Blockchain.ShortHistory
import XrCoin.Blockchain.RingMembers
import XrCoin.Blockchain.Emission
import XrCoin.Data.Share
import XrCoin.TxPool.BlockTemplate
import XrCoin.TxPool.TemplateRatio
import XrCoin.Blockchain.HashOfHashes
import XrCoin.Data.HeapOrder
import XrCoin.Epee.RollingMedian
import XrCoin.Epee.MedianHeaps
import XrCoin.Epee.MedianInsert
import XrCoin.Epee.MedianWindow
import XrCoin.Blockchain.LongTermWeights
import XrCoin.Blockchain.WeightCache
import XrCoin.Protocol.SyncContext
import XrCoin.Cryptonote.TxExtra
import XrCoin.Wallet.ReserveProof
import XrCoin.Wallet.MultisigSign
import XrCoin.Data.Throwing
import XrCoin.Wallet.Scan
import XrCoin.Wallet.ScanKeeps
import XrCoin.Wallet.ScanIndex
import XrCoin.Wallet.Detach
import XrCoin.Wallet.Reorganise
import XrCoin.Wallet.Retry
import XrCoin.Blockchain.MinerTx
import XrCoin.Blockchain.CreateTemplate
import XrCoin.Blockchain.RewardMedian
import XrCoin.Blockchain.TemplateAccepted
import XrCoin.Cryptonote.DecomposeAmount
import XrCoin.Data.Popping
import XrCoin.Wallet.CreateTransactions
import XrCoin.Wallet.Payments
import XrCoin.Wallet.TransferSelected
import XrCoin.Wallet.CreateFrom
import XrCoin.Wallet.Selection
import XrCoin.Cryptonote.WideProduct
import XrCoin.Cryptonote.Difficulty64
import XrCoin.Cryptonote.NextDifficulty
import XrCoin.Common.Base58
import XrCoin.Common.AddressCodec
import XrCoin.Data.FixedDigits
import XrCoin.Mnemonics.ElectrumWords
import XrCoin.TxPool.TemplateAccounting
import XrCoin.Data.LongDivision
import XrCoin.Blockchain.RewardWords
import XrCoin.Forks.HeightCheck
import XrCoin.Data.WindowCounts
import XrCoin.Forks.Voting
import XrCoin.Data.Descending
import XrCoin.Blockchain.TxInputs
import XrCoin.Blockchain.RingSizes
import XrCoin.Data.OrderedMap
import XrCoin.Checkpoints.AddCheckpoint
import XrCoin.Data.WeakOrder
import XrCoin.TxPool.SortedContainer
import XrCoin.Data.Bins
import XrCoin.TxPool.Stats
import XrCoin.TxPool.Written
import XrCoin.Blockchain.Refused
import XrCoin.Core.SpentInPool
import XrCoin.BlockchainDb.PrunedHash
import XrCoin.Cryptonote.TransactionWeight
import XrCoin.Core.BatchSemantics
import XrCoin.Archive.VarintAt
import XrCoin.Cryptonote.ExtraFields
import XrCoin.Cryptonote.RemoveField
import XrCoin.Cryptonote.ExtraNonce
import XrCoin.Data.Buckets
import XrCoin.Cryptonote.SortExtra
import XrCoin.Archive.VarintCodec
import XrCoin.Blockchain.RewardDigits
import XrCoin.Epee.MedianMemory
import XrCoin.Epee.MedianRuns
import XrCoin.Cryptonote.Amounts
import XrCoin.Mnemonics.ChecksumIndex
import XrCoin.Wallet.KeyImageHelper
import XrCoin.Wallet.Received
import XrCoin.Wallet.HashchainRecovery
import XrCoin.Wallet.LookAhead
import XrCoin.TxPool.InputCache
import XrCoin.TxPool.RecordedFailures
import XrCoin.TxPool.RestrictedViews
import XrCoin.Wallet.SelectionFilters
import XrCoin.Wallet.HashchainExport
import XrCoin.Wallet.PickGamma
import XrCoin.Wallet.PickOutputs
import XrCoin.Data.Filling
import XrCoin.Wallet.GetOuts
import XrCoin.Wallet.RingShape
import XrCoin.Wallet.KnownRings
import XrCoin.Epee.UrlFormat
import XrCoin.Wallet.Uri
import XrCoin.Data.Numbering
import XrCoin.Wallet.ImportOutputs
import XrCoin.Wallet.TransferKeys
import XrCoin.Wallet.ExportKeyImages
import XrCoin.Data.Firsts
import XrCoin.Wallet.MultisigImport
import XrCoin.Data.Serving
import XrCoin.Common.Combinator
import XrCoin.Wallet.MultisigTransfer
import XrCoin.Common.ApplyPermutation
import XrCoin.Mnemonics.HalfSeed
import XrCoin.Wallet.HeightByDate
import XrCoin.Data.KeyedTable
import XrCoin.Wallet.RingDb
import XrCoin.Wallet.TxCache
import XrCoin.Data.Accessing
import XrCoin.Wallet.ParsedBlocks
import XrCoin.Data.Draining
import XrCoin.Levin.Bucket
import XrCoin.Levin.Handler
import XrCoin.Levin.Framing
import XrCoin.Levin.Endpoint
import XrCoin.Levin.Exchange
import XrCoin.Crypto.Curve
import XrCoin.Crypto.Keys
import XrCoin.Core.ConstructOutputs
import XrCoin.Crypto.RingSignature
import XrCoin.Data.Challenges
import XrCoin.Crypto.Borromean
import XrCoin.Crypto.Cosigning
import XrCoin.Ringct.Mlsag
import XrCoin.Ringct.RangeProof
import XrCoin.Ringct.Simple
import XrCoin.Levin.Socket
import XrCoin.Data.Dealing
import XrCoin.Lmdb.Table
import XrCoin.Forks.Schedule
import XrCoin.Mnemonics.Language
import XrCoin.Wallet.SignedShares
