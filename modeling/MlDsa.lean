import MlDsa.Basic
import MlDsa.Bits
import MlDsa.Pack
import MlDsa.Hint
import MlDsa.Codec
import MlDsa.Rounding
import MlDsa.Ntt
import MlDsa.NttLayers
import MlDsa.NttRoundTrip
import MlDsa.NttMul
import MlDsa.Sample
import MlDsa.NttAlgebra
import MlDsa.KeyGen
import MlDsa.Sign
import MlDsa.Verify
import MlDsa.Correctness
import MlDsa.Outputs
