import Atlantis.Common.Types
import Atlantis.Rlp.Raw
import Atlantis.Trie.Encoding
import Atlantis.Trie.Node
import Atlantis.Trie.Database
import Atlantis.Trie.Trie
import Atlantis.Trie.Hasher
import Atlantis.Lib.KeyMap
import Atlantis.Lib.AList
import Atlantis.Lib.Loop
import Atlantis.Lib.Lex
import Atlantis.Trie.Wf
import Atlantis.Trie.Update
import Atlantis.Trie.HashSpec
import Atlantis.Trie.Frame
import Atlantis.Trie.Canonical
import Atlantis.Trie.Codec
import Atlantis.Trie.FlushList
import Atlantis.Trie.Cache
import Atlantis.Trie.Store
import Atlantis.Trie.Commit
import Atlantis.Trie.Session
import Atlantis.Lib.Search
import Atlantis.Rlp.Stream
import Atlantis.Enr.Record
import Atlantis.Clique.Snapshot
import Atlantis.Clique.Tally
import Atlantis.Clique.Recents
import Atlantis.Pot.Pot
import Atlantis.Lib.Bits
import Atlantis.Types.Bloom9
import Atlantis.Bloombits.Generator
import Atlantis.Bloombits.Matcher
import Atlantis.Abi.Pack
import Atlantis.Abi.Unpack
import Atlantis.Trie.Proof
import Atlantis.Trie.Walk
import Atlantis.Trie.Iterator
import Atlantis.State.Object
import Atlantis.State.StateDB
import Atlantis.State.Revert
import Atlantis.Vm.Memory
import Atlantis.Vm.Instructions
import Atlantis.Vm.YellowPaper
import Atlantis.Vm.WordOps
import Atlantis.Vm.Analysis
import Atlantis.Ethash.Difficulty
import Atlantis.Clique.Seal
import Atlantis.Clique.Compose
import Atlantis.Ethash.Rewards
import Atlantis.Types.TransactionSigning
import Atlantis.Rlp.Encbuf
import Atlantis.Rlp.Interface
import Atlantis.Rlp.Typed
import Atlantis.Rlp.Output
import Atlantis.Core.ChainIndexer
import Atlantis.Core.TxList
import Atlantis.Core.TxPool
import Atlantis.Core.TxPoolInv
import Atlantis.Core.TxPoolLimits
import Atlantis.Stream.Intervals
import Atlantis.Lib.Digits
import Atlantis.Common.Hexutil
import Atlantis.Common.Bitutil
import Atlantis.P2p.Netutil
import Atlantis.P2p.Table
import Atlantis.Lib.Heap
import Atlantis.Core.TxSortedMap
import Atlantis.Lib.Queues
import Atlantis.Core.TxByPrice
import Atlantis.Core.TxPriced
import Atlantis.Crypto.Sha3
import Atlantis.Bmt.Hasher
import Atlantis.Lib.FirstDiff
import Atlantis.Pot.Neighbours
import Atlantis.Les.Flowcontrol
import Atlantis.Lib.Slices
import Atlantis.Event.Feed
import Atlantis.Lib.Rounding
import Atlantis.Trie.Sync
