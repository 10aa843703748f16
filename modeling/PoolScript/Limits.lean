/-!
# Limits

How much a session may use: slots of the two pools of its heap, and calls that are open
at a time.
-/

namespace PoolScript

/-- The limits of a session. -/
structure Limits where
  stringPool : Nat := 4096
  arrayPool : Nat := 4096
  maxDepth : Nat := 10000
deriving DecidableEq, Repr

namespace Limits

/-- The limits where nothing else is asked for. -/
def default : Limits := {}

/-- The limits, in words. -/
def describe (l : Limits) : String :=
  s!"RuntimeConfig \x7b string_pool_capacity: {l.stringPool}, " ++
    s!"array_pool_capacity: {l.arrayPool}, max_call_depth: {l.maxDepth} \x7d"

end Limits

end PoolScript
