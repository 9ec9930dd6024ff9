import Cambra.Store.Closed
import Cambra.Chl.Tokenize
import Cambra.Scalar.Exact
import Cambra.Ccl.Preserve
import Cambra.Source.Offers
import Cambra.Sched.Cascade
import Cambra.Ir.PiBinders
import Cambra.Ir.Uniquified
import Cambra.Tiling.Decide
import Cambra.Tiling.PathPrefix
import Cambra.Store.Driver
import Cambra.Store.AsOf
import Cambra.Reshape.Permute
import Cambra.Operators.ExtractFinal
import Cambra.Tiling.ValueOrder
import Cambra.Store.Changelog
