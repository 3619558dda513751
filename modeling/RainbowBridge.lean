import RainbowBridge.Lib.Machine
import RainbowBridge.Lib.Bytes
import RainbowBridge.Lib.Decoder
import RainbowBridge.Lib.Merkle
import RainbowBridge.Lib.Rlp
import RainbowBridge.Lib.Trie
import RainbowBridge.Lib.Ancestry
import RainbowBridge.Crypto.Sha256
import RainbowBridge.Crypto.Keccak
import RainbowBridge.Crypto.Hashing
import RainbowBridge.Solidity.Evm
import RainbowBridge.Solidity.Borsh
import RainbowBridge.Solidity.NearDecoder
import RainbowBridge.Solidity.ProofDecoder
import RainbowBridge.NearBridge.Epoch
import RainbowBridge.NearBridge.Contract
import RainbowBridge.NearBridge.Run
import RainbowBridge.NearBridge.History
import RainbowBridge.NearBridge.Bonds
import RainbowBridge.NearBridge.Tracks
import RainbowBridge.NearBridge.Confirmed
import RainbowBridge.NearBridge.Rollback
import RainbowBridge.NearBridge.Eager
import RainbowBridge.NearProver.Contract
import RainbowBridge.NearProver.Chain
import RainbowBridge.NearProver.Soundness
import RainbowBridge.EthTypes.RlpCrate
import RainbowBridge.EthTypes.Header
import RainbowBridge.EthTypes.Receipt
import RainbowBridge.Near.Runtime
import RainbowBridge.EthProver.Contract
import RainbowBridge.EthProver.TrieProof
import RainbowBridge.EthProver.Events
import RainbowBridge.EthClient.Ethash
import RainbowBridge.EthClient.Contract
import RainbowBridge.EthClient.Tree
import RainbowBridge.EthClient.Loops
import RainbowBridge.EthClient.Storage
import RainbowBridge.EthClient.Canonical
import RainbowBridge.EthClient.Runs
import RainbowBridge.EthClient.Archive
import RainbowBridge.EthClient.Heaviest
import RainbowBridge.EthClient.Reachable
import RainbowBridge.EthClient.Representation
import RainbowBridge.EthClient.Shape
import RainbowBridge.EthClient.Bounded
import RainbowBridge.EthClient.Order
import RainbowBridge.NearBridge.Submissions
import RainbowBridge.NearBridge.PendingSlot
import RainbowBridge.Utils.Buffers
import RainbowBridge.Utils.BorshifyProof
import RainbowBridge.Utils.Borsh
import RainbowBridge.NearBridge.Threshold
import RainbowBridge.EthTypes.RoundTrip
import RainbowBridge.Near.Borsh
import RainbowBridge.EthTypes.Stored
import RainbowBridge.Lib.TrieMap
import RainbowBridge.EthProver.Completeness
import RainbowBridge.Lib.Search
import RainbowBridge.Relay.Search
import RainbowBridge.Utils.CallContract
import RainbowBridge.Utils.SignAndSend
import RainbowBridge.Lib.PaddedTree
import RainbowBridge.EthashProof.MerkleTree
import RainbowBridge.EthashProof.DagTree
import RainbowBridge.EthClient.DagAuthentication
import RainbowBridge.EthashProof.Cache
import RainbowBridge.Lib.Hex
import RainbowBridge.Relay.SubmitBlock
import RainbowBridge.Lib.Edwards
import RainbowBridge.Lib.Primality
import RainbowBridge.Lib.Lanes
import RainbowBridge.Lib.ByteBits
import RainbowBridge.Solidity.Unchecked
import RainbowBridge.Crypto.Sha512
import RainbowBridge.Ed25519.Contract
import RainbowBridge.Ed25519.ByteOrder
import RainbowBridge.Ed25519.Field
import RainbowBridge.Ed25519.Hash
import RainbowBridge.Ed25519.Curve
import RainbowBridge.Ed25519.Arithmetic
import RainbowBridge.Ed25519.Multiples
import RainbowBridge.Ed25519.DoubleScalar
import RainbowBridge.Ed25519.Verification
import RainbowBridge.Relay.LowerBound
import RainbowBridge.Solidity.BlockGrammar
import RainbowBridge.Solidity.ProofGrammar
import RainbowBridge.Lib.BufferReader
import RainbowBridge.Utils.Schema
import RainbowBridge.Utils.SchemaRoundTrip
import RainbowBridge.Lib.LevelTree
import RainbowBridge.EthashProof.Builder
import RainbowBridge.Lib.Memory
import RainbowBridge.Solidity.Utils
import RainbowBridge.Solidity.MemoryBorsh
import RainbowBridge.Solidity.MemoryIndependence
import RainbowBridge.Crypto.Keccak512
import RainbowBridge.Ethash.Hashimoto
import RainbowBridge.Lib.Workers
import RainbowBridge.Ethash.Generation
import RainbowBridge.EthClient.ProofOfWork
import RainbowBridge.Relay.ProofOfWork
import RainbowBridge.Near2Eth.Watchdog
import RainbowBridge.Near2Eth.Response
import RainbowBridge.Lib.TrieOrder
import RainbowBridge.EthTypes.ReceiptRlp
import RainbowBridge.Relay.ProofExtractor
