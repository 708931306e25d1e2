import Freecoin.Foundation.Memory
import Freecoin.Foundation.Records
import Freecoin.Foundation.Layout
import Freecoin.Bytes
import Freecoin.Transactions
import Freecoin.TransactionCodec
import Freecoin.Blocks
import Freecoin.Bignum
import Freecoin.Chain
import Freecoin.Foundation.PairTree
import Freecoin.Merkle
import Freecoin.BlockCodec
import Freecoin.Sha256
import Freecoin.Validation
import Freecoin.Walkers
import Freecoin.Serialization
import Freecoin.MerkleIds
import Freecoin.ChainRules
import Freecoin.ProofOfWork
import Freecoin.Heads
import Freecoin.Signatures
import Freecoin.Acceptance
import Freecoin.StoredBlocks
import Freecoin.MerkleRoots
import Freecoin.DoubleSpends
import Freecoin.Respends
import Freecoin.MerkleRuns
import Freecoin.BlockStore
import Freecoin.TxLookup
import Freecoin.Amounts
import Freecoin.Retarget
import Freecoin.Scans
import Freecoin.Ownership
import Freecoin.SpentInputs
import Freecoin.SpentLayouts
import Freecoin.Termination
import Freecoin.CompactTargets
import Freecoin.MerkleBounds
import Freecoin.Foundation.Walk
import Freecoin.HeadWalks
import Freecoin.ChainCleaning
import Freecoin.Enchaining
import Freecoin.HeadHeights
import Freecoin.TargetExpansion
import Freecoin.BigSums
import Freecoin.Foundation.Columns
import Freecoin.BigProducts
import Freecoin.BlockSizes
import Freecoin.Base64
import Freecoin.Hex
import Freecoin.Base64Trips
import Freecoin.Foundation.LinkedList
import Freecoin.MessageQueue
import Freecoin.MessageRuns
import Freecoin.InventoryMessages
import Freecoin.MerkleOwnership
import Freecoin.Foundation.Limbs
import Freecoin.Vli
import Freecoin.VliProducts
import Freecoin.VliModular
import Freecoin.VliInverses
import Freecoin.Foundation.PrimeCertificates
import Freecoin.Secp256r1
import Freecoin.Foundation.CoZ
import Freecoin.Foundation.CoZLadder
import Freecoin.Foundation.CoZShamir
import Freecoin.Foundation.Returns
import Freecoin.EccPoints
import Freecoin.EccMultiplication
import Freecoin.Secp256r1Group
import Freecoin.VliBytes
import Freecoin.PublicKeys
import Freecoin.EcdsaSigning
import Freecoin.EcdsaVerification
import Freecoin.SignatureTrips
import Freecoin.SignedInputs
import Freecoin.PointCompression
import Freecoin.SharedSecrets
import Freecoin.Foundation.IteratedHash
import Freecoin.Sha256Blocks
import Freecoin.Histories
import Freecoin.KeyStore
import Freecoin.MinerRuns
