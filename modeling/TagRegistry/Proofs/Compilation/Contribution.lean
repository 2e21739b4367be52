import Mathlib.Algebra.GroupWithZero.Nat
import TagRegistry.Proofs.Compilation
import TagRegistry.Proofs.Flag
import TagRegistry.Proofs.Row

namespace TagRegistry

namespace Row

variable {row : Row}

end Row

end TagRegistry
