import PoolScript.CommandLine
import PoolScript.Main
import PoolScript.Proofs.Alike.Elements
import PoolScript.Proofs.Alike.Heap
import PoolScript.Proofs.Alike.Host
import PoolScript.Proofs.Alike.Machine
import PoolScript.Proofs.Alike.Operate
import PoolScript.Proofs.Alike.Pool
import PoolScript.Proofs.Alike.State
import PoolScript.Proofs.Alike.Teardown
import PoolScript.Proofs.Frame
import PoolScript.Proofs.Heap.Actions
import PoolScript.Proofs.Heap.Balance
import PoolScript.Proofs.Heap.Chain
import PoolScript.Proofs.Heap.Change
import PoolScript.Proofs.Heap.Copying
import PoolScript.Proofs.Heap.Counting
import PoolScript.Proofs.Heap.Domain
import PoolScript.Proofs.Heap.Draining
import PoolScript.Proofs.Heap.Elements
import PoolScript.Proofs.Heap.Evolution
import PoolScript.Proofs.Heap.Guards
import PoolScript.Proofs.Heap.Holding
import PoolScript.Proofs.Heap.Keys
import PoolScript.Proofs.Heap.Moving
import PoolScript.Proofs.Heap.Operate
import PoolScript.Proofs.Heap.Order
import PoolScript.Proofs.Heap.Outcome
import PoolScript.Proofs.Heap.Pairs
import PoolScript.Proofs.Heap.Reach
import PoolScript.Proofs.Heap.Release
import PoolScript.Proofs.Heap.Remaining
import PoolScript.Proofs.Heap.Setting
import PoolScript.Proofs.Heap.Shape
import PoolScript.Proofs.Heap.Tally
import PoolScript.Proofs.Heap.Teardown
import PoolScript.Proofs.Heap.Thinning
import PoolScript.Proofs.Heap.Walk
import PoolScript.Proofs.Heap.Worklist
import PoolScript.Proofs.Heap.Wrapping
import PoolScript.Proofs.Host.Balance
import PoolScript.Proofs.Host.Failing
import PoolScript.Proofs.Host.Faults
import PoolScript.Proofs.Host.Registry
import PoolScript.Proofs.Machine.Balance
import PoolScript.Proofs.Machine.Blame
import PoolScript.Proofs.Machine.Conditionals
import PoolScript.Proofs.Machine.Context
import PoolScript.Proofs.Machine.Each
import PoolScript.Proofs.Machine.Endings
import PoolScript.Proofs.Machine.Evolution
import PoolScript.Proofs.Machine.Frames
import PoolScript.Proofs.Machine.Handles
import PoolScript.Proofs.Machine.Jumps
import PoolScript.Proofs.Machine.Layers
import PoolScript.Proofs.Machine.Misplaced
import PoolScript.Proofs.Machine.Range
import PoolScript.Proofs.Machine.Variables
import PoolScript.Proofs.Number.Leading
import PoolScript.Proofs.Number.Numeral
import PoolScript.Proofs.Number.Sign
import PoolScript.Proofs.Number.Whole
import PoolScript.Proofs.Output.Delivery
import PoolScript.Proofs.Pool.Entries
import PoolScript.Proofs.Pool.Evolution
import PoolScript.Proofs.Pool.Handles
import PoolScript.Proofs.Pool.Joining
import PoolScript.Proofs.Pool.Ledger
import PoolScript.Proofs.Session.Actions
import PoolScript.Proofs.Session.Blame
import PoolScript.Proofs.Session.Cycles
import PoolScript.Proofs.Session.Each
import PoolScript.Proofs.Session.Frames
import PoolScript.Proofs.Session.Fresh
import PoolScript.Proofs.Session.Handles
import PoolScript.Proofs.Session.History
import PoolScript.Proofs.Session.Jumps
import PoolScript.Proofs.Session.Parallel
import PoolScript.Proofs.Session.Range
import PoolScript.Proofs.Session.ReadBack
import PoolScript.Proofs.Session.Runs
import PoolScript.Proofs.Session.Serving
import PoolScript.Proofs.Session.Widening
import PoolScript.Proofs.Source.Lines
import PoolScript.Proofs.Spelling.Distance
import PoolScript.Proofs.Spelling.Suggestion
import PoolScript.Proofs.Token.Layout
import PoolScript.Proofs.Token.Literals
import PoolScript.Proofs.Token.Longest
import PoolScript.Proofs.Token.Patterns
import PoolScript.Proofs.Tree.Cursor
import PoolScript.Proofs.Tree.Equations
import PoolScript.Proofs.Tree.Grammar
import PoolScript.Proofs.Tree.Jumps
import PoolScript.Proofs.Tree.Layout
import PoolScript.Proofs.Tree.Literals
import PoolScript.Proofs.Tree.Printing
import PoolScript.Proofs.Tree.Programs
import PoolScript.Proofs.Tree.Progress
import PoolScript.Proofs.Tree.Readings
import PoolScript.Proofs.Tree.Refusals
import PoolScript.Proofs.Tree.RoundTrip
import PoolScript.Proofs.Tree.Statements
