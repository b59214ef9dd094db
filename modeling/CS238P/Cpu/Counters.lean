import CS238P.Cpu.Model
import Mathlib.Data.Int.ModEq
import Mathlib.Algebra.Order.BigOperators.Group.List

set_option autoImplicit false

/-! # The counters behind the lines

The kernel counts without end, and a line carries its counters modulo `2 ^ 32` only. What `cpu_util`
keeps are then the counters of the last well-formed line and their sum modulo `2 ^ 32`, and the
differences it takes are those of the counters themselves as long as they are below `2 ^ 32`. -/

namespace CS238P.Cpu

/-- The true values of the seven counters. -/
abbrev Counters := Vector ℕ 7

namespace Counters

def total (c : Counters) : ℕ := c.toList.sum

/-- The time spent idle. -/
def idle (counters : Counters) : ℕ := counters.get 3

/-- The counters before the first line. -/
def zero : Counters := Vector.replicate 7 0

/-- No counter has decreased. -/
def Le (p c : Counters) : Prop := List.Forall₂ (· ≤ ·) p.toList c.toList

end Counters

/-! ## Lines -/

/-- The numbers come behind the first blank of the line. -/
def Numbers (line : List Char) (zs : List ℤ) : Prop :=
  ∃ name t, line = name ++ ' ' :: t ∧ ' ' ∉ name ∧ Scan.Reads isspace (' ' :: t) zs

/-- Seven numbers that are the counters modulo `2 ^ 32`. -/
def Carries (line : List Char) (c : Counters) : Prop :=
  ∃ zs, Numbers line zs ∧ List.Forall₂ (fun z (n : ℕ) => z ≡ n [ZMOD 2 ^ 32]) zs c.toList

/-- A line, with the counters it carries if it is well-formed. -/
structure Call where
  line : List Char
  counters : Option Counters
  carries : ∀ c, counters = some c → Carries line c
  malformed : counters = none → ∀ zs, Numbers line zs → zs.length ≠ 7

variable {line p : List Char} {zs : List ℤ} {c : Counters} {call : Call} {calls : List Call}

theorem separates : Scan.Separates isspace := by
  rintro c (hc | rfl | rfl)
  · obtain ⟨hge, -⟩ := Decimal.toNat_of_isDigit hc
    have hne : c ≠ ' ' := by
      rintro rfl
      exact absurd hge (by decide)
    simp only [isspace, Bool.or_eq_false_iff, Bool.and_eq_false_iff, decide_eq_false_iff_not]
    exact ⟨hne, .inr (by omega)⟩
  · decide
  · decide

theorem strstr_append {name t : List Char} (h : ' ' ∉ name) :
    strstr (name ++ ' ' :: t) = some (' ' :: t) := by
  have hname : ∀ c ∈ name, decide (c ≠ ' ') = true := fun c hc =>
    decide_eq_true (ne_of_mem_of_not_mem hc h)
  rw [strstr, List.dropWhile_append_of_pos hname, List.dropWhile_cons_of_neg (by simp)]

theorem exists_of_strstr (h : strstr line = some p) :
    ∃ name t, line = name ++ ' ' :: t ∧ ' ' ∉ name ∧ p = ' ' :: t := by
  have hline : line.takeWhile (· ≠ ' ') ++ line.dropWhile (· ≠ ' ') = line :=
    List.takeWhile_append_dropWhile
  have hhead := List.head?_dropWhile_not (· ≠ ' ') line
  unfold strstr at h
  split at h
  · cases h
  rename_i hne
  obtain rfl := Option.some.inj h
  obtain ⟨b, t, hbt⟩ := List.exists_cons_of_ne_nil hne
  rw [hbt] at hline hhead ⊢
  obtain rfl : b = ' ' := by simpa using hhead
  exact ⟨_, t, hline.symm, fun hmem => by simpa using List.mem_takeWhile_imp hmem, rfl⟩

/-- Seven numbers of a line are what `sscanf` reads. -/
theorem numbers_iff (hlen : zs.length = 7) :
    Numbers line zs ↔ ∃ p, strstr line = some p ∧ Scan.scan isspace 7 p = zs := by
  constructor
  · rintro ⟨name, t, rfl, hname, hreads⟩
    exact ⟨_, strstr_append hname, by rwa [Scan.reads_iff separates, hlen] at hreads⟩
  · rintro ⟨p, hp, hscan⟩
    obtain ⟨name, t, rfl, hname, rfl⟩ := exists_of_strstr hp
    refine ⟨name, t, rfl, hname, ?_⟩
    rwa [Scan.reads_iff separates, hlen]

/-! ## Modulo `2 ^ 32` -/

theorem ofInt_eq_ofNat {z : ℤ} {n : ℕ} (h : z ≡ n [ZMOD 2 ^ 32]) :
    UInt32.ofInt z = UInt32.ofNat n := by
  have hz : UInt32.ofInt z = UInt32.ofInt n := by
    unfold UInt32.ofInt
    rw [h.eq]
  have hn : ((n : ℤ) % 2 ^ 32).toNat = n % 2 ^ 32 := by omega
  rw [hz, UInt32.ofInt, hn]
  apply UInt32.toNat_inj.1
  rw [UInt32.toNat_ofNat', UInt32.toNat_ofNat', Nat.mod_mod]

theorem map_ofInt {ns : List ℕ} (h : List.Forall₂ (fun z (n : ℕ) => z ≡ n [ZMOD 2 ^ 32]) zs ns) :
    zs.map UInt32.ofInt = ns.map UInt32.ofNat := by
  induction h with
  | nil => rfl
  | cons h _ ih => rw [List.map_cons, List.map_cons, ofInt_eq_ofNat h, ih]

theorem foldl_ofNat (ns : List ℕ) (n : ℕ) :
    (ns.map UInt32.ofNat).foldl (· + ·) (UInt32.ofNat n) = UInt32.ofNat (n + ns.sum) := by
  induction ns generalizing n with
  | nil => rfl
  | cons m ns ih =>
      rw [List.map_cons, List.foldl_cons, ← UInt32.ofNat_add, ih, List.sum_cons, Nat.add_assoc]

/-- A difference does not depend on how often the two numbers have wrapped around. -/
theorem toNat_ofNat_sub {m d : ℕ} (h : d < 2 ^ 32) :
    (UInt32.ofNat (m + d) - UInt32.ofNat m).toNat = d := by
  rw [← UInt32.ofNat_sub (Nat.le_add_right _ _), Nat.add_sub_cancel_left, UInt32.toNat_ofNat',
    Nat.mod_eq_of_lt h]

theorem ofNat_sub_ne_zero {m d : ℕ} (hpos : 0 < d) (hd : d < 2 ^ 32) :
    UInt32.ofNat (m + d) - UInt32.ofNat m ≠ 0 := by
  intro h
  have hsub := toNat_ofNat_sub (m := m) hd
  rw [h] at hsub
  exact hpos.ne hsub

/-! ## What is kept -/

/-- The counters and their sum modulo `2 ^ 32`. -/
def Sample.of (c : Counters) : Sample := ⟨UInt32.ofNat c.total, c.map UInt32.ofNat⟩

theorem Sample.of_zero : Sample.of .zero = .zero := by
  simp [Sample.of, Sample.zero, Counters.total, Counters.zero]

theorem foldl_map_ofNat (c : Counters) :
    (c.map UInt32.ofNat).foldl (· + ·) 0 = UInt32.ofNat c.total := by
  rw [← Vector.foldl_toList, Vector.toList_map]
  have := foldl_ofNat c.toList 0
  rwa [Nat.zero_add] at this

theorem Call.sscanf_of_some (h : call.counters = some c) :
    (strstr call.line).bind sscanf = some (c.map UInt32.ofNat) := by
  obtain ⟨zs, hnum, hmod⟩ := call.carries c h
  have hlen : zs.length = 7 := by rw [hmod.length_eq, Vector.length_toList]
  obtain ⟨p, hp, hscan⟩ := (numbers_iff hlen).1 hnum
  rw [hp, Option.bind_some]
  simp only [sscanf, hscan, hlen, dite_true, Option.some.injEq]
  apply Vector.toList_inj.1
  rw [Vector.toList_map, ← map_ofInt hmod]
  rfl

theorem Call.sscanf_of_none (h : call.counters = none) :
    (strstr call.line).bind sscanf = none := by
  cases hp : strstr call.line with
  | none => rfl
  | some p =>
      have hlen : (Scan.scan isspace 7 p).length ≠ 7 := fun hlen =>
        call.malformed h _ ((numbers_iff hlen).2 ⟨p, hp, rfl⟩) hlen
      simp only [Option.bind_some, sscanf, hlen, dite_false]

theorem Call.cpuUtil_of_none (h : call.counters = none) (sample : Sample) :
    cpuUtil call.line sample = (some 0, sample) := by
  rw [cpuUtil, Call.sscanf_of_none h]

theorem Call.cpuUtil_of_some (h : call.counters = some c) (p : Counters) :
    cpuUtil call.line (.of p) = (percentage (UInt32.ofNat c.idle - UInt32.ofNat p.idle)
      (UInt32.ofNat c.total - UInt32.ofNat p.total), .of c) := by
  rw [cpuUtil, Call.sscanf_of_some h]
  simp only [foldl_map_ofNat, Sample.of, Vector.getElem_map]
  rfl

/-- The counters of the last well-formed line. -/
def latest (calls : List Call) : Counters := (calls.filterMap Call.counters).getLast?.getD .zero

/-- The static variables after the calls. -/
def afterCalls (calls : List Call) : Sample := after (calls.map Call.line)

/-- **What is kept** are the counters of the last well-formed line, modulo `2 ^ 32`. -/
theorem afterCalls_eq (calls : List Call) : afterCalls calls = .of (latest calls) := by
  induction calls using List.reverseRecOn with
  | nil => exact Sample.of_zero.symm
  | append_singleton calls call ih =>
      have hstep : afterCalls (calls ++ [call]) = (cpuUtil call.line (afterCalls calls)).2 := by
        simp [afterCalls, after]
      rw [hstep, ih]
      cases h : call.counters with
      | none => simp [Call.cpuUtil_of_none h, latest, h]
      | some c => simp [Call.cpuUtil_of_some h, latest, h]

/-! ## Percentages -/

variable {pre post : List Call}

theorem getElem_add_sum_le {xs ys : List ℕ} (h : List.Forall₂ (· ≤ ·) xs ys) {i : ℕ}
    (hx : i < xs.length) (hy : i < ys.length) : ys[i] + xs.sum ≤ xs[i] + ys.sum := by
  induction h generalizing i with
  | nil => exact absurd hx (by simp)
  | cons hab hrest ih =>
      rw [List.sum_cons, List.sum_cons]
      cases i with
      | zero =>
          have hsum := hrest.sum_le_sum
          simp only [List.getElem_cons_zero]
          omega
      | succ i =>
          have hi := ih (Nat.lt_of_succ_lt_succ hx) (Nat.lt_of_succ_lt_succ hy)
          simp only [List.getElem_cons_succ]
          omega

theorem Counters.Le.total_le {p : Counters} (h : p.Le c) : p.total ≤ c.total := h.sum_le_sum

theorem Counters.Le.idle_le {p : Counters} (h : p.Le c) : p.idle ≤ c.idle := by
  have hle := h.get (i := 3) (by simp) (by simp)
  rwa [List.get_eq_getElem, List.get_eq_getElem, Vector.getElem_toList,
    Vector.getElem_toList] at hle

/-- The time spent idle is a part of the time. -/
theorem Counters.Le.idle_add_total_le {p : Counters} (h : p.Le c) :
    c.idle + p.total ≤ p.idle + c.total := by
  have hle := getElem_add_sum_le h (i := 3) (by simp) (by simp)
  rwa [Vector.getElem_toList, Vector.getElem_toList] at hle

/-- No counter decreases from one well-formed line to the next. -/
def NeverDecrease (calls : List Call) : Prop :=
  (calls.filterMap Call.counters).Pairwise Counters.Le

theorem forall₂_replicate_zero (ns : List ℕ) :
    List.Forall₂ (· ≤ ·) (List.replicate ns.length 0) ns := by
  induction ns with
  | nil => exact .nil
  | cons n ns ih => exact .cons (Nat.zero_le n) ih

theorem Counters.zero_le (c : Counters) : Counters.zero.Le c := by
  have h := forall₂_replicate_zero c.toList
  rwa [Vector.length_toList] at h

theorem NeverDecrease.latest_le (h : NeverDecrease (pre ++ call :: post))
    (hc : call.counters = some c) : (latest pre).Le c := by
  rw [NeverDecrease, List.filterMap_append, List.filterMap_cons_some hc, List.pairwise_append] at h
  rw [latest]
  cases hlast : (pre.filterMap Call.counters).getLast? with
  | none => exact c.zero_le
  | some p => exact h.2.2 p (List.mem_of_getLast? hlast) c (by simp)

/-- The percentage of the time `d` that was not idle, if `i` of it was. -/
def busy (i d : ℕ) : ℚ := 100 * (1 - i / d)

theorem busy_bounds {i d : ℕ} (hi : i ≤ d) (hpos : 0 < d) : 0 ≤ busy i d ∧ busy i d ≤ 100 := by
  have hd : (0 : ℚ) < d := Nat.cast_pos.2 hpos
  have hle : (i / d : ℚ) ≤ 1 := (div_le_one hd).2 (Nat.cast_le.2 hi)
  have hnonneg : (0 : ℚ) ≤ i / d := by positivity
  unfold busy
  constructor
  · linarith
  · linarith

/-- Rounding after every operation, as with `double`, does not lead out of these bounds: it is
    monotone and leaves 0, 1 and 100 as they are. -/
theorem rounded_bounds {round : ℚ → ℚ} (hmono : Monotone round) (hzero : round 0 = 0)
    (hone : round 1 = 1) (hhundred : round 100 = 100) {i d : ℕ} (hi : i ≤ d) (hpos : 0 < d) :
    0 ≤ round (round (1 - round (i / d)) * 100) ∧
      round (round (1 - round (i / d)) * 100) ≤ 100 := by
  have hd : (0 : ℚ) < d := Nat.cast_pos.2 hpos
  have hle : (i / d : ℚ) ≤ 1 := (div_le_one hd).2 (Nat.cast_le.2 hi)
  have hnonneg : (0 : ℚ) ≤ i / d := by positivity
  have hquotient := hmono hle
  have hquotient' := hmono hnonneg
  rw [hone] at hquotient
  rw [hzero] at hquotient'
  have hrest := hmono (show (0 : ℚ) ≤ 1 - round (i / d) by linarith)
  have hrest' := hmono (show (1 : ℚ) - round (i / d) ≤ 1 by linarith)
  rw [hzero] at hrest
  rw [hone] at hrest'
  have hproduct := hmono (show (0 : ℚ) ≤ round (1 - round (i / d)) * 100 by linarith)
  have hproduct' := hmono (show round (1 - round (i / d)) * 100 ≤ 100 by linarith)
  rw [hzero] at hproduct
  rw [hhundred] at hproduct'
  exact ⟨hproduct, hproduct'⟩

theorem percentage_ofNat {idle total i d : ℕ} (hi : i ≤ d) (hpos : 0 < d) (hd : d < 2 ^ 32) :
    percentage (UInt32.ofNat (idle + i) - UInt32.ofNat idle)
      (UInt32.ofNat (total + d) - UInt32.ofNat total) = some (busy i d) := by
  have htotal := toNat_ofNat_sub (m := total) hd
  have hidle := toNat_ofNat_sub (m := idle) (lt_of_le_of_lt hi hd)
  rw [percentage, if_neg (ofNat_sub_ne_zero hpos hd), htotal, hidle, mul_comm, busy]

/-- What the call returns, after the calls `pre`. -/
structure Exact (pre : List Call) (call : Call) : Prop where
  malformed : call.counters = none →
    cpuUtil call.line (afterCalls pre) = (some 0, afterCalls pre)
  wellFormed : ∀ c i d, call.counters = some c → c.idle = (latest pre).idle + i →
    c.total = (latest pre).total + d → 0 < d → d < 2 ^ 32 →
    (cpuUtil call.line (afterCalls pre)).1 = some (busy i d) ∧ 0 ≤ busy i d ∧ busy i d ≤ 100

theorem NeverDecrease.exact (h : NeverDecrease (pre ++ call :: post)) : Exact pre call := by
  refine ⟨fun hnone => Call.cpuUtil_of_none hnone _, ?_⟩
  intro c i d hc hidle htotal hpos hd
  have hle := (h.latest_le hc).idle_add_total_le
  have hi : i ≤ d := by omega
  rw [afterCalls_eq, Call.cpuUtil_of_some hc, hidle, htotal]
  exact ⟨percentage_ofNat hi hpos hd, busy_bounds hi hpos⟩

/-- **The percentage is exact**, also where the counters or their sum wrap around between two lines:
    it is that of the true increases as long as these are below `2 ^ 32` in total. -/
theorem cpuUtil_exact (h : NeverDecrease calls) :
    ∀ pre call post, calls = pre ++ call :: post → Exact pre call := by
  rintro pre call post rfl
  exact h.exact

theorem neverDecrease_pair {call' : Call} {p : Counters} (hp : call.counters = some p)
    (hc : call'.counters = some c) (hle : p.Le c) : NeverDecrease [call, call'] := by
  rw [NeverDecrease, List.filterMap_cons_some hp, List.filterMap_cons_some hc]
  exact List.pairwise_pair.2 hle

/-- A line with this digit and six ones. -/
def lineWith (user : Char) : List Char :=
  ['c', 'p', 'u', ' ', user, ' ', '1', ' ', '1', ' ', '1', ' ', '1', ' ', '1', ' ', '1', '\n']

/-- Every counter is one. -/
def ones : Call where
  line := lineWith '1'
  counters := some #v[1, 1, 1, 1, 1, 1, 1]
  carries := by
    rintro c ⟨⟩
    exact ⟨[1, 1, 1, 1, 1, 1, 1],
      (numbers_iff rfl).2 ⟨(lineWith '1').drop 3, rfl, by decide⟩, by decide⟩
  malformed h := by cases h

/-- The first counter has wrapped around. -/
def wrapped : Call where
  line := lineWith '0'
  counters := some #v[2 ^ 32, 1, 1, 1, 1, 1, 1]
  carries := by
    rintro c ⟨⟩
    exact ⟨[0, 1, 1, 1, 1, 1, 1],
      (numbers_iff rfl).2 ⟨(lineWith '0').drop 3, rfl, by decide⟩, by decide⟩
  malformed h := by cases h

theorem cpuUtil_exact_wrapped : Exact [ones] wrapped :=
  cpuUtil_exact (neverDecrease_pair rfl rfl (by simp [Counters.Le])) [ones] wrapped [] rfl

/-! ## Divisions by zero -/

/-- The divisor of the call, which is the difference of the sums after it and before it. -/
def divisor (pre : List Call) (call : Call) : UInt32 :=
  (afterCalls (pre ++ [call])).sum - (afterCalls pre).sum

/-- No call with a well-formed line divides by zero, and every call returns a percentage. -/
def Percentages (calls : List Call) : Prop :=
  ∀ pre call post, calls = pre ++ call :: post →
    (call.counters ≠ none → divisor pre call ≠ 0) ∧
      ∃ q, (cpuUtil call.line (afterCalls pre)).1 = some q ∧ 0 ≤ q ∧ q ≤ 100

theorem divisor_eq (hc : call.counters = some c) :
    divisor pre call = UInt32.ofNat c.total - UInt32.ofNat (latest pre).total := by
  rw [divisor, afterCalls_eq, afterCalls_eq]
  simp [Sample.of, latest, hc]

/-- **There is a percentage** for every call exactly if some time has passed in front of each
    well-formed line. -/
theorem percentages_iff (h : NeverDecrease calls)
    (htotal : ∀ call ∈ calls, ∀ c, call.counters = some c → c.total < 2 ^ 32) :
    Percentages calls ↔ ∀ pre call post c, calls = pre ++ call :: post →
      call.counters = some c → (latest pre).total < c.total := by
  constructor
  · rintro hper pre call post c rfl hc
    refine lt_of_le_of_ne (h.latest_le hc).total_le fun heq => ?_
    refine (hper pre call post rfl).1 (by simp [hc]) ?_
    rw [divisor_eq hc, heq, UInt32.sub_self]
  · rintro hlt pre call post rfl
    cases hc : call.counters with
    | none =>
        rw [Call.cpuUtil_of_none hc]
        exact ⟨fun hne => absurd rfl hne, 0, rfl, le_rfl, by norm_num⟩
    | some c =>
        have hle := h.latest_le hc
        have hpos := hlt pre call post c rfl hc
        obtain ⟨i, hi⟩ := Nat.exists_eq_add_of_le hle.idle_le
        obtain ⟨d, hd⟩ := Nat.exists_eq_add_of_le hle.total_le
        have hd32 : d < 2 ^ 32 := by
          have := htotal call (by simp) c hc
          omega
        have hd0 : 0 < d := by omega
        obtain ⟨hq, hbounds⟩ := h.exact.wellFormed c i d hc hi hd hd0 hd32
        refine ⟨fun _ => ?_, busy i d, hq, hbounds⟩
        rw [divisor_eq hc, hd]
        exact ofNat_sub_ne_zero hd0 hd32

theorem ones_total_lt : ∀ call ∈ [ones, ones], ∀ c, call.counters = some c →
    c.total < 2 ^ 32 := by
  intro call hmem c hc
  obtain rfl : call = ones := by simpa using hmem
  cases hc
  decide

/-- The same line twice. -/
theorem ones_not_percentages : NeverDecrease [ones, ones] ∧
    (∀ call ∈ [ones, ones], ∀ c, call.counters = some c → c.total < 2 ^ 32) ∧
    ¬ Percentages [ones, ones] := by
  refine ⟨neverDecrease_pair rfl rfl (by simp [Counters.Le]), ones_total_lt, fun h => ?_⟩
  refine (h [ones] ones [] rfl).1 (by simp [ones]) ?_
  rw [divisor_eq rfl]
  decide

theorem percentages_iff_ones : Percentages [ones, ones] ↔ ∀ pre call post c,
    [ones, ones] = pre ++ call :: post → call.counters = some c →
      (latest pre).total < c.total :=
  percentages_iff (neverDecrease_pair rfl rfl (by simp [Counters.Le])) ones_total_lt

end CS238P.Cpu
