import MiniScheme.Native.Arithmetic
import MiniScheme.Native.Output
import MiniScheme.Native.Pairs

/-! The procedures that every program finds. -/
namespace MiniScheme.Registry

def standard : Registry :=
  registerAll {} (Native.arithmetic ++ Native.output ++ Native.pairs)

end MiniScheme.Registry
