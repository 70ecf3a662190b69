import Fendermint.Bits
import Fendermint.Ipld
import Fendermint.Amt
import Fendermint.AmtSpec
import Fendermint.Mmr
import Fendermint.Shared
import Fendermint.SharedSpec
import Fendermint.Invariant
import Fendermint.EigenPath
import Fendermint.Lookup
import Fendermint.Binding
import Fendermint.Atomicity
import Fendermint.Rpc
import Fendermint.Faults
import Fendermint.Robust
import Fendermint.Proxy
import Fendermint.Ipfs
import Fendermint.Router
