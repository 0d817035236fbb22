import MetabaseNet.Lib.ParentTree
import MetabaseNet.Lib.ModArith
import MetabaseNet.Lib.Interpolation
import MetabaseNet.BlockBranch
import MetabaseNet.BlockNext
import MetabaseNet.Scalar25519
import MetabaseNet.Lib.Loop
import MetabaseNet.MPInterpolation
import MetabaseNet.TxFee
import MetabaseNet.TrieDB
import MetabaseNet.Block
import MetabaseNet.Lib.AssocMap
import MetabaseNet.Lib.Codec
import MetabaseNet.TxPool
import MetabaseNet.TrieNode
import MetabaseNet.Lib.Limbs
import MetabaseNet.Fp25519
import MetabaseNet.Fp25519Inverse
import MetabaseNet.Ed25519
import MetabaseNet.TrieRun
import MetabaseNet.TrieWalk
import MetabaseNet.Stream
import MetabaseNet.Lib.Window
import MetabaseNet.Ed25519Mult
import MetabaseNet.Lib.ByteBits
import MetabaseNet.BloomFilter
import MetabaseNet.Lib.Crc
import MetabaseNet.Crc24q
import MetabaseNet.PeerNet
