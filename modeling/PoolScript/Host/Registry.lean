import PoolScript.Host
import PoolScript.Intrinsic

/-!
# The host functions of a session

Host functions are registered a table at a time. Two loops go over the table. The first one looks
at the entries in turn and stops at one that cannot be registered: its name is empty, is the name
of an intrinsic, or is taken, by an earlier table or earlier in the table itself. Only when it
comes to the end does the second loop put the functions in.

Both loops have the registry in their hands, and `Registry.register` gives it back also when it
fails. That nothing has happened to it then is proved, in `PoolScript.Proofs.Host.Registry`.
-/

namespace PoolScript

/-- The registered host functions. -/
abbrev Registry := Table HostFunction

namespace Registry

/-- Looks at the entry `f` of a table, which comes behind the entries `before`. -/
def inspect (before : List HostFunction) (f : HostFunction) (registry : Registry) :
    Except Fault Unit × Registry :=
  if f.name = "" then (.error (.registration .emptyName), registry)
  else if (Intrinsic.ofName? f.name).isSome then
    (.error (.registration (.shadowsIntrinsic f.name)), registry)
  else if before.any (·.name = f.name) || registry.contains f.name then
    (.error (.registration (.registeredTwice f.name)), registry)
  else (.ok (), registry)

/-- Looks at the entries `fs` in turn, which come behind the entries `before`. -/
def inspectAll (before : List HostFunction) :
    List HostFunction → Registry → Except Fault Unit × Registry
  | [], registry => (.ok (), registry)
  | f :: fs, registry =>
    match registry.inspect before f with
    | (.ok (), registry) => inspectAll (before ++ [f]) fs registry
    | (.error e, registry) => (.error e, registry)

/-- Puts functions in, one after the other. -/
def add (registry : Registry) (fs : List HostFunction) : Registry :=
  fs.foldl (fun r f => r.set f.name f) registry

/-- Registers a table of functions. -/
def register (fs : List HostFunction) (registry : Registry) : Except Fault Unit × Registry :=
  match inspectAll [] fs registry with
  | (.ok (), registry) => (.ok (), registry.add fs)
  | (.error e, registry) => (.error e, registry)

end Registry

end PoolScript
