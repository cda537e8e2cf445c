import Zytherion.GoCall
import Zytherion.KeyedStore
import Zytherion.HalfEven
import Zytherion.Ledger
import Zytherion.Bech32
import Zytherion.DebtBook
import Zytherion.SdkMath
import Zytherion.Application
import Zytherion.ChainState
import Zytherion.Bank
import Zytherion.Devnet
import Zytherion.CollateralKeeper
import Zytherion.VaultSolvency
import Zytherion.StablecoinKeeper
import Zytherion.CollateralMsgServer
import Zytherion.StablecoinMsgServer
import Zytherion.Chain
import Zytherion.DebtLedgers
import Zytherion.SecuredDebt
import Zytherion.Withdrawals
import Zytherion.Repayment
import Zytherion.Minting
import Zytherion.MintBound
import Zytherion.BurnShare
import Zytherion.Seizure
import Zytherion.LiquidatorReward
import Zytherion.PayoutRouting
import Zytherion.CallFrames
import Zytherion.VaultFrames
import Zytherion.MessageHash
import Zytherion.ZytdMessages
import Zytherion.MigrationGate
import Zytherion.AnteChain
import Zytherion.ConfidentialKeeper
import Zytherion.CreditLimit
import Zytherion.Median
import Zytherion.OracleKeeper
import Zytherion.OracleMsgServer
import Zytherion.OracleChain
import Zytherion.PriceLog
import Zytherion.OracleHalt
import Zytherion.Samples
import Zytherion.PriceFreshness
import Zytherion.Submitters
import Zytherion.CreditTotals
import Zytherion.ByteStrings
import Zytherion.LwrHash
import Zytherion.Sentinel
import Zytherion.Proposals
import Zytherion.ProposalBinding
import Zytherion.TxDelivery
import Zytherion.AdaptiveCommit
import Zytherion.Shards
import Zytherion.ShardPlacement
import Zytherion.TfheSubmit
import Zytherion.SubmitAgreement
import Zytherion.HashChain
import Zytherion.Commitments
import Zytherion.StateRent
import Zytherion.PlacedShards
import Zytherion.SubmitRuns
import Zytherion.Retrievability
import Zytherion.HashTrees
import Zytherion.MerkleProofs
import Zytherion.UploadText
import Zytherion.ShardServer
import Zytherion.ShardTransfer
import Zytherion.ShardUploads
import Zytherion.ErasureDecoding
import Zytherion.Reconstruction
import Zytherion.MdsCodes
import Zytherion.ReedSolomon
import Zytherion.MerkleStep
import Zytherion.HybridKem
import Zytherion.MintedHealth
import Zytherion.RestoredStores
import Zytherion.VaultGenesis
import Zytherion.HomomorphicVault
import Zytherion.Base64Text
import Zytherion.TfheQueries
import Zytherion.BalanceKeys
import Zytherion.MintRecordKeys
import Zytherion.GenesisExport
import Zytherion.BlockCommitment
import Zytherion.RentAmounts
import Zytherion.Evictions
import Zytherion.FailedTransfers
import Zytherion.PriceMedian
import Zytherion.PricePruning
import Zytherion.PriceIsolation
import Zytherion.NodeKeys
import Zytherion.KeyLoading
import Zytherion.SigningLatency
import Zytherion.KeySources
import Zytherion.ProofLengths
import Zytherion.NodeNames
import Zytherion.VaultBooks
import Zytherion.TransferDenoms
import Zytherion.ShardMetadata
import Zytherion.RatioQuery
import Zytherion.VaultExport
import Zytherion.MessageFrames
import Zytherion.KeyCodec
import Zytherion.FileFrames
import Zytherion.RateLimits
import Zytherion.ProposalRecords
import Zytherion.Negacyclic
import Zytherion.RingProducts
import Zytherion.CircularBuffer
import Zytherion.BinaryRounding
import Zytherion.TimeoutWindow
import Zytherion.WorkerPool
import Zytherion.WireFormat
import Zytherion.SizedBuffers
import Zytherion.MessageCodec
import Zytherion.ShardCluster
import Zytherion.FileTrees
import Zytherion.ShardDirectories
import Zytherion.ShardEndpoints
import Zytherion.OracleQueries
