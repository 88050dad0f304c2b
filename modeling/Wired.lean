import Wired.Transport.Coalesce
import Wired.Transport.ConnTable
import Wired.Transport.CryptoReceive
import Wired.Transport.Cubic
import Wired.Transport.OneRtt
import Wired.Transport.PeerCid
import Wired.Transport.SentMeta
import Wired.Server.AckFloor
import Wired.Server.Admission
import Wired.Server.Delivery
import Wired.Server.Inbox
import Wired.Server.KeyUpdate
import Wired.Server.NewToken
import Wired.Server.ReceiveAccounting
import Wired.Tls.TransportParams
import Wired.Qpack.CodecBounds
import Wired.Qpack.EncoderStreamRx
import Wired.Qpack.HuffmanInverse
import Wired.Http3.QpackAgreement
import Wired.Http3.RequestPaths
import Wired.Http3.RequestPriority
import Wired.Http3.RequestReassembly
import Wired.Http3.StructuredFieldWalk
import Wired.Http3.WtErrorMap
import Wired.Http3.WtStream
import Wired.Pki.ConstrainedHosts
import Wired.Pki.PolicyTree
import Wired.Crypto.Bignum
import Wired.Crypto.Ed25519Scalar
import Wired.Crypto.P256Memory
import Wired.Crypto.Poly1305
import Wired.Crypto.X25519
import Wired.Moqt.CacheWalk
import Wired.Moqt.ControlDispatch
import Wired.Moqt.FetchItems
import Wired.Moqt.RequestIds
