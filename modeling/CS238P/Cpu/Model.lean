import CS238P.Library.Scan

set_option autoImplicit false

/-! # The processor monitor (`p5/main.c`)

`cpu_util` on the lines that `main` has read from `/proc/stat`, with its static variables as a state.
A number that `sscanf` reads with `%u` is taken modulo `2 ^ 32`. The percentage is computed exactly,
where the code rounds to `double` after every operation, which changes neither when it divides by
zero nor the bounds of the result (`rounded_bounds`). What `%5.1f` rounds is left out. -/

namespace CS238P.Cpu

/-- The static `sum_` and `vector_`. -/
structure Sample where
  sum : UInt32
  vector : Vector UInt32 7
  deriving DecidableEq

def Sample.zero : Sample := ⟨0, Vector.replicate 7 0⟩

/-- `isspace`. -/
def isspace (c : Char) : Bool := c = ' ' || (9 ≤ c.toNat && c.toNat ≤ 13)

/-- `strstr(s, " ")`. -/
def strstr (s : List Char) : Option (List Char) :=
  match s.dropWhile (· ≠ ' ') with
  | [] => none
  | p => some p

/-- `sscanf(p, "%u %u %u %u %u %u %u", ..)`, if it returns 7. -/
def sscanf (p : List Char) : Option (Vector UInt32 7) :=
  let zs := Scan.scan isspace 7 p
  if h : zs.length = 7 then some ⟨(zs.map UInt32.ofInt).toArray, by simp [h]⟩ else none

/-- `(1.0 - idle / (double)total) * 100.0`. Nothing is a division by zero, which makes the `double`
    infinite or not a number. -/
def percentage (idle total : UInt32) : Option ℚ :=
  if total = 0 then none else some ((1 - idle.toNat / total.toNat) * 100)

/-- `cpu_util`: what it returns, and the static variables after it. -/
def cpuUtil (s : List Char) (sample : Sample) : Option ℚ × Sample :=
  match (strstr s).bind sscanf with
  | none => (some 0, sample)
  | some vector =>
      let sum := vector.foldl (· + ·) 0
      (percentage (vector[3] - sample.vector[3]) (sum - sample.sum), ⟨sum, vector⟩)

/-- The static variables after calls with these lines, one after the other. -/
def after (lines : List (List Char)) : Sample :=
  lines.foldl (fun sample s => (cpuUtil s sample).2) .zero

end CS238P.Cpu
