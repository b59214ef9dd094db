import CS238P.Store.Buffers
import CS238P.Store.Room

set_option autoImplicit false

/-! # The tests of the store (`p4/main.c`)

Each test opens a store, makes calls and compares what comes back. On the documented system they pass
whatever the hash function is and wherever the reads and writes get to, as long as no external call
fails; `read_write` needs different keys besides, and makes them with the random numbers of the C
library. -/

namespace CS238P.Store

/-- Why a test returns -1: a call of the store has not returned 0 or +1, there is no memory, or
    something is not as expected. A call that ends the process ends the test. -/
inductive TestFail where
  | call (e : Fail)
  | outOfMemory
  | software
  deriving DecidableEq, Repr

/-- A test that has the store open. -/
abbrev TM (σ : Type) := EStateM TestFail (World σ)

variable {σ : Type}

def calls {α : Type} (x : KM σ α) : TM σ α := fun w =>
  match x w with
  | .ok a w' => .ok a w'
  | .error e w' => .error (.call e) w'

def check (p : Prop) [Decidable p] : TM σ Unit := if p then pure () else throw .software

variable (sys : Sys σ) (hash : List UInt8 → UInt64)

/-- A call that is to return `code`. -/
def returns (op : Op) (code : Code) : TM σ Reply := do
  let reply ← calls (op.run sys hash)
  check (reply.code = code)
  return reply

/-- The locals `val` and `val_len` of a test. -/
structure Out where
  val : List UInt8
  valLen : UInt64

/-- `kvdb_lookup(kvdb, key, key_len, val, &val_len)`. -/
def looksUp (key : List UInt8) (out : Out) (code : Code) : TM σ Out := do
  let reply ← returns sys hash (.lookup key (some out.val) (some out.valLen)) code
  return ⟨reply.val.getD [], reply.valLen.getD 0⟩

/-- `(val_len_ == val_len) && !memcmp(val_, val, val_len)`. -/
def Out.Is (out : Out) (val : List UInt8) : Prop :=
  .ofNat val.length = out.valLen ∧ out.val.take out.valLen.toNat = val

instance (out : Out) (val : List UInt8) : Decidable (out.Is val) :=
  inferInstanceAs (Decidable (_ ∧ _))

def expects (size waste : UInt64) : TM σ Unit := do
  let w ← get
  check (size = kvdbSize w.kvdb)
  check (waste = kvdbWaste w.kvdb)

/-- A string with its terminator. -/
def cstr (s : String) : List UInt8 := s.toList.map (fun c => UInt8.ofNat c.toNat) ++ [0]

/-- `safe_sprintf(buf, len, ..)`, where the text is `s`. -/
def safeSprintf (len : ℕ) (s : String) : TM σ (List UInt8) :=
  if len ≤ s.length then throw (.call .exitSoftware) else pure (cstr s)

/-- A test, from `kvdb_open` on. `read_write` leaves the store open if it passes. -/
def test (pathname : String) (body : TM σ Unit) : EStateM TestFail σ Unit := fun s =>
  match kvdbOpen sys pathname s with
  | .error e s' => .error (.call e) s'
  | .ok kvdb s' =>
      match body ⟨kvdb, s'⟩ with
      | .ok _ w => .ok () w.sys
      | .error e w => .error e w.sys

/-! ## `basic_logic` -/

def KEY : List UInt8 := cstr "KEY"

def VAL1 : List UInt8 := cstr "VAL"

def VAL2 : List UInt8 := cstr "val2"

def VAL3 : List UInt8 := cstr "val2VAL"

/-- A call that stores `val`, two lookups, and a call of `kvdb_insert` that is refused. -/
def storesAndKeeps (op : Op) (val : List UInt8) (waste : UInt64) (out : Out) : TM σ Out := do
  let _ ← returns sys hash op .zero
  let out ← looksUp sys hash KEY { out with valLen := 32 } .zero
  check (out.Is val)
  let _ ← returns sys hash (.insert KEY val) .plusOne
  let out ← looksUp sys hash KEY out .zero
  check (out.Is val)
  expects 1 waste
  return out

/-- The body of `basic_logic`. -/
def basicLogic : TM σ Unit := do
  let w ← get
  expects 0 0
  -- invalid lookup
  let _ ← returns sys hash (.lookup KEY none none) .plusOne
  let reply ← returns sys hash (.lookup KEY none (some 0)) .plusOne
  let out ← looksUp sys hash KEY ⟨sys.uninit 32 w.sys, reply.valLen.getD 0⟩ .plusOne
  expects 0 0
  -- invalid replace
  let _ ← returns sys hash (.replace KEY VAL1) .plusOne
  expects 0 0
  let out ← storesAndKeeps sys hash (.insert KEY VAL1) VAL1 0 out
  let out ← storesAndKeeps sys hash (.replace KEY VAL2) VAL2 1 out
  let out ← storesAndKeeps sys hash (.update KEY VAL3) VAL3 2 out
  -- lookup
  let out ← looksUp sys hash KEY { out with valLen := 32 } .zero
  check (out.Is VAL3)
  expects 1 2
  -- remove
  let reply ← returns sys hash (.remove KEY (some out.val) (some 32)) .zero
  let out : Out := ⟨reply.val.getD [], reply.valLen.getD 0⟩
  check (out.Is VAL3)
  let _ ← looksUp sys hash KEY out .plusOne
  expects 0 3

/-! ## `heavy_rewrite` -/

def rewriteTurn (i : ℕ) (out : Out) : TM σ Out := do
  let val ← safeSprintf 64 ("v" ++ i.repr)
  let _ ← returns sys hash (.update KEY val) .zero
  let out ← looksUp sys hash KEY { out with valLen := 64 } .zero
  check (out.Is val)
  expects 1 (.ofNat i)
  return out

/-- The body of `heavy_rewrite`, whose `n` is 9876. -/
def heavyRewrite (n : ℕ) : TM σ Unit := do
  let w ← get
  let _ ← EStateM.upTo (rewriteTurn sys hash) ⟨sys.uninit 64 w.sys, 0⟩ n

/-! ## `read_write` -/

/-- `memmove(buf + off, s, strlen(s))`. -/
def place (buf : List UInt8) (off : ℕ) (s : String) : List UInt8 :=
  buf.take off ++ Bytes.overwrite (buf.drop off) (s.toList.map fun c => UInt8.ofNat c.toNat)

/-- A key or a value of `mk_object`, of a length from 16 on and below `len`. -/
def filled (len : ℕ) (h : UInt64) (s : String) : List UInt8 :=
  let n := 16 + h.toNat % (len - 16)
  place (List.replicate n (.ofNat (h.toNat % 256))) (n - 16) s

/-- `mk_object`, where `h` is made of what `rand` returns after `srand((int)i + 100)`. -/
def mkObject (K V : ℕ) (h : UInt64) (i : ℕ) (code : String) : TM σ (List UInt8 × List UInt8) :=
  if ¬ (16 < K ∧ 16 < V) then throw (.call .assertion)
  else do
    let _ ← safeSprintf 16 ("k" ++ i.repr)
    let _ ← safeSprintf 16 (code ++ i.repr)
    return (filled K h ("k" ++ i.repr), filled V h (code ++ i.repr))

/-- A turn of the first loop. -/
def insertTurn (K V : ℕ) (h : ℕ → UInt64) (i : ℕ) (out : Out) : TM σ Out := do
  let (key, val) ← mkObject K V (h i) i "i"
  let _ ← returns sys hash (.insert key val) .zero
  let out ← looksUp sys hash key { out with valLen := .ofNat V } .zero
  check (out.Is val)
  expects (.ofNat (i + 1)) 0
  return out

/-- A turn of the second loop, which looks up the object `j`. -/
def lookupTurn (N K V : ℕ) (h : ℕ → UInt64) (j : ℕ) (out : Out) : TM σ Out := do
  let (key, val) ← mkObject K V (h j) j "i"
  let out ← looksUp sys hash key { out with valLen := .ofNat V } .zero
  check (out.Is val)
  expects (.ofNat N) 0
  return out

def mallocs (n : ℕ) : TM σ Unit := fun w =>
  match sys.malloc (.ofNat n) w.sys with
  | (true, s) => .ok () { w with sys := s }
  | (false, s) => .error .outOfMemory { w with sys := s }

/-- The body of `read_write`; `rand` has what `rand` returns in the turns of the second loop. -/
def readWrite (h : ℕ → UInt64) (rand : ℕ → ℕ) (N K V : ℕ) : TM σ Unit := do
  mallocs sys K
  mallocs sys V
  mallocs sys V
  let w ← get
  let out ← EStateM.upTo (insertTurn sys hash K V h) ⟨sys.uninit V w.sys, 0⟩ N
  let _ ← EStateM.upTo (fun i => lookupTurn sys hash N K V h (rand i % N)) out N

/-! ## What a call does to the counters -/

/-- `kvdb_size` after a call, by whether its key is bound. -/
def Op.size : Op → Bool → ℕ → ℕ
  | .insert _ _, bound, n => if bound then n else n + 1
  | .update _ _, bound, n => if bound then n else n + 1
  | .replace _ _, _, n => n
  | .remove _ _ _, bound, n => if bound then n - 1 else n
  | .lookup _ _ _, _, n => n

/-- `kvdb_waste` after a call. -/
def Op.waste : Op → Bool → ℕ → ℕ
  | .insert _ _, _, n => n
  | .update _ _, bound, n => if bound then n + 1 else n
  | .replace _ _, bound, n => if bound then n + 1 else n
  | .remove _ _ _, bound, n => if bound then n + 1 else n
  | .lookup _ _ _, _, n => n

/-- A record more. -/
theorem counts_cons (r : Rec) {recs : List Rec} {bound : Bool}
    (hb : (value recs r.key).isSome = bound) :
    ((LogMap.bound (writes (r :: recs))).card =
        if r.val = [] then (LogMap.bound (writes recs)).card - if bound then 1 else 0
        else (LogMap.bound (writes recs)).card + if bound then 0 else 1) ∧
      LogMap.stale (writes (r :: recs)) = LogMap.stale (writes recs) + if bound then 1 else 0 := by
  refine ⟨?_, by rw [← hb]; exact LogMap.stale_cons _ _⟩
  show (LogMap.bound ((r.key, if r.val = [] then none else some r.val) :: writes recs)).card = _
  split_ifs with hval hbound hbound
  · have := LogMap.card_bound_cons_none r.key (writes recs) (hb.trans hbound)
    omega
  · have hmem : r.key ∉ LogMap.bound (writes recs) := fun h =>
      hbound (hb.symm.trans ((LogMap.mem_bound _ _).1 h))
    rw [LogMap.bound_cons_none, Finset.erase_eq_of_notMem hmem, Nat.sub_zero]
  · rw [LogMap.card_bound_cons_some]
    exact congrArg _ (if_pos (hb.trans hbound))
  · rw [LogMap.card_bound_cons_some]
    exact congrArg _ (if_neg fun h => hbound (hb.symm.trans h))

/-- The counters after a call that does not fail. -/
theorem Op.counts (op : Op) (hargs : op.ArgsOk) {recs : List Rec} {bound : Bool}
    (hb : (value recs op.key).isSome = bound) :
    (LogMap.bound (Store.writes (op.after recs (op.code bound)))).card =
        op.size bound (LogMap.bound (Store.writes recs)).card ∧
      LogMap.stale (Store.writes (op.after recs (op.code bound))) =
        op.waste bound (LogMap.stale (Store.writes recs)) := by
  have hne : ∀ {val : List UInt8}, ValOk val → val ≠ [] := by
    rintro val hval rfl
    exact hval.1 rfl
  cases op with
  | insert key val =>
      have hcons := counts_cons ⟨key, val⟩ hb
      rw [if_neg (hne hargs.2)] at hcons
      cases bound with
      | true => exact ⟨rfl, rfl⟩
      | false => exact hcons
  | update key val =>
      have hcons := counts_cons ⟨key, val⟩ hb
      rw [if_neg (hne hargs.2)] at hcons
      cases bound with
      | true => exact hcons
      | false => exact hcons
  | replace key val =>
      have hcons := counts_cons ⟨key, val⟩ hb
      rw [if_neg (hne hargs.2)] at hcons
      cases bound with
      | true => exact hcons
      | false => exact ⟨rfl, rfl⟩
  | remove key val valLen =>
      have hcons := counts_cons ⟨key, []⟩ hb
      cases bound with
      | true => exact hcons
      | false => exact ⟨rfl, rfl⟩
  | lookup key val valLen => exact ⟨rfl, rfl⟩

/-! ## Calls -/

/-- The store binds the keys as `get` does, and has counted so far. At most `hashes` are in the
    index. -/
structure Stores (log : σ → List UInt8) (hash : List UInt8 → UInt64) (hashes : Finset UInt64)
    (get : List UInt8 → Option (List UInt8)) (size waste : ℕ) (w : World σ) : Prop where
  inv : ∃ junk recs, Inv log hash junk recs w ∧ value recs = get
  size : (kvdbSize w.kvdb).toNat = size
  waste : (kvdbWaste w.kvdb).toNat = waste
  early : hashes.card ≤ 214 → w.kvdb.index.Early hashes

/-- An external call failed, or there may be too many hashes for the index. -/
def Excused (hashes : Finset UInt64) (e : TestFail) : Prop :=
  (∃ c, e = .call (.io c)) ∨ (e = .call .exitSoftware ∧ 214 < hashes.card)

variable {sys} {hash} {log : σ → List UInt8} {hashes : Finset UInt64}
  {get : List UInt8 → Option (List UInt8)} {size waste : ℕ} {w : World σ} {E : TestFail → World σ → Prop}

theorem calls_wp {α : Type} {x : KM σ α} {Q : α → World σ → Prop}
    (h : wp x Q (fun e w' => E (.call e) w') w) : wp (calls x) Q E w := by
  unfold wp at h ⊢
  unfold calls
  cases hx : x w with
  | ok a w' => rwa [hx] at h
  | error e w' => rwa [hx] at h

theorem check_wp {p : Prop} [Decidable p] {Q : Unit → World σ → Prop} (hp : p) (h : Q () w) :
    wp (check p) Q E w := by
  unfold check
  rw [if_pos hp]
  exact h

theorem Stores.expects (h : Stores log hash hashes get size waste w) {m n : UInt64}
    (hm : m.toNat = size) (hn : n.toNat = waste) :
    wp (expects m n) (fun _ w' => Stores log hash hashes get size waste w') E w := by
  unfold Store.expects
  refine wp.bind (wp.getState (wp.bind (check_wp ?_ (check_wp ?_ h))))
  · exact UInt64.toNat_inj.1 (hm.trans h.size.symm)
  · exact UInt64.toNat_inj.1 (hn.trans h.waste.symm)

section

variable (hsys : sys.Documented log)
include hsys

/-- A call. -/
theorem Stores.calls (h : Stores log hash hashes get size waste w) {op : Op} {bound : Bool}
    (hargs : op.ArgsOk) (hk : op.record ≠ none → hashKey hash op.key ∈ hashes)
    (hb : (get op.key).isSome = bound) :
    wp (Store.calls (op.run sys hash))
      (fun reply w' => Stores log hash hashes (op.effect get (op.code bound)) (op.size bound size)
          (op.waste bound waste) w' ∧
        (reply.code = op.code bound ∧ ∀ v, get op.key = some v → op.Delivers v reply))
      (fun e _ => Excused hashes e) w := by
  obtain ⟨⟨junk, recs, hinv, rfl⟩, rfl, rfl, hearly⟩ := h
  have hearly' : wp (op.run sys hash) (fun _ w' => hashes.card ≤ 214 → w'.kvdb.index.Early hashes)
      (fun _ _ => True) w := by
    by_cases hcard : hashes.card ≤ 214
    · exact (op.run_early hsys hinv (hearly hcard) hcard hk).mono (fun _ _ h _ => h)
        fun _ _ _ => trivial
    · exact (wp.trivial _ _).mono (fun _ _ _ h => absurd h hcard) fun _ _ _ => trivial
  refine calls_wp (((op.run_wp hsys hinv).and hearly').mono ?_ ?_)
  · rintro reply w' ⟨⟨hreply, hinv', hdelivers⟩, hearly'⟩
    rw [hb] at hreply
    rw [hreply] at hinv'
    obtain ⟨hsize, hwaste⟩ := op.counts hargs hb
    refine ⟨⟨⟨junk, _, hinv', op.value_after hargs recs _⟩, ?_, ?_, hearly'⟩, hreply, hdelivers⟩
    · exact (hinv'.counted.size.trans hsize).trans (congrArg _ hinv.counted.size.symm)
    · exact (hinv'.counted.waste.trans hwaste).trans (congrArg _ hinv.counted.waste.symm)
  · rintro e w' ⟨hio | ⟨he, hroom⟩ | ⟨hbad, -⟩, -⟩
    · obtain ⟨c, rfl⟩ := hio
      exact .inl ⟨c, rfl⟩
    · refine .inr ⟨congrArg _ he, Nat.lt_of_not_le fun hcard => hroom fun hwrites => ?_⟩
      exact (hearly hcard).hasRoom hinv.shape.index.toTidy hcard (hk hwrites)
    · exact absurd hargs hbad

/-- **A call of a test** that answers what it is to answer. -/
theorem Stores.returns (h : Stores log hash hashes get size waste w) {op : Op} {code : Code}
    {bound : Bool} (hargs : op.ArgsOk)
    (hk : op.record ≠ none → hashKey hash op.key ∈ hashes) (hb : (get op.key).isSome = bound)
    (hcode : op.code bound = code) :
    wp (Store.returns sys hash op code)
      (fun reply w' =>
        Stores log hash hashes (op.effect get code) (op.size bound size) (op.waste bound waste) w' ∧
          (reply.code = code ∧ ∀ v, get op.key = some v → op.Delivers v reply))
      (fun e _ => Excused hashes e) w := by
  subst hcode
  unfold Store.returns
  exact wp.bind ((h.calls hsys hargs hk hb).mono
    (fun _ _ h' => wp.bind (check_wp h'.2.1 h')) fun _ _ he => he)

/-- A call that answers something else. -/
theorem Stores.refuses (h : Stores log hash hashes get size waste w) {op : Op} {code : Code}
    {bound : Bool} (hargs : op.ArgsOk)
    (hk : op.record ≠ none → hashKey hash op.key ∈ hashes) (hb : (get op.key).isSome = bound)
    (hcode : op.code bound ≠ code) :
    wp (Store.returns sys hash op code) (fun _ _ => False)
      (fun e _ => Excused hashes e ∨ e = .software) w := by
  unfold Store.returns
  refine wp.bind ((h.calls hsys hargs hk hb).mono (fun reply w' h' => ?_) fun _ _ he => .inl he)
  have hne : reply.code ≠ code := h'.2.1 ▸ hcode
  refine wp.bind ?_
  unfold check
  rw [if_neg hne]
  exact .inr rfl

omit hsys in
theorem Stores.usable (h : Stores log hash hashes get size waste w) : Usable log w := by
  obtain ⟨junk, recs, hinv, -⟩ := h.inv
  exact ⟨hinv.shape.index, hinv.shape.size.le⟩

/-- What comes back from a call with a buffer. -/
structure Out.Back (out : Out) (get : Option (List UInt8)) (code : Code) (reply : Reply) : Prop where
  length : (reply.val.getD []).length = out.val.length
  keeps : code = .plusOne → reply.valLen.getD 0 = out.valLen
  is : ∀ v, get = some v → v.length ≤ out.valLen.toNat →
    Out.Is ⟨reply.val.getD [], reply.valLen.getD 0⟩ v

omit hsys in
theorem Out.back {out : Out} {get : Option (List UInt8)} {code : Code} {reply : Reply} {m : Walked}
    (hlen : out.valLen.toNat ≤ out.val.length) (hcode : reply.code = code)
    (ha : Answers (some out.val) (some out.valLen) m reply)
    (hd : ∀ v, get = some v → Delivers (some out.val) (some out.valLen) v reply) :
    out.Back get code reply where
  length := by
    rw [ha.writes, Option.map_some, Option.getD_some, Option.getD_some]
    have hoverlay := Bytes.length_overlay m.passed hlen
    exact (Bytes.length_overwrite (by rw [List.length_take, hoverlay]; omega)).trans hoverlay
  keeps := fun h => by rw [ha.keeps (hcode.trans h), Option.getD_some]
  is := by
    intro v hv hle
    obtain ⟨⟨n, hn, hnlen⟩, hbuf⟩ := hd v hv out.valLen rfl
    obtain ⟨buf', hval, htake⟩ := hbuf out.val rfl
    rw [Nat.min_eq_right hle, List.take_length] at htake
    unfold Out.Is
    simp only [hn, hval, Option.getD_some, hnlen]
    exact ⟨by rw [← hnlen, UInt64.ofNat_toNat], htake⟩

/-- What is in the buffer behind a call is what the search met. -/
theorem Stores.answers (h : Stores log hash hashes get size waste w) {key : List UInt8}
    {val : Option (List UInt8)} {valLen : Option UInt64} {op : Op}
    (hop : op = .lookup key val valLen ∨ op = .remove key val valLen) (code : Code) :
    wp (Store.returns sys hash op code) (fun reply _ => ∃ m, Answers val valLen m reply)
      (fun _ _ => True) w := by
  have hrun : wp (op.run sys hash) (fun reply _ => ∃ m, Answers val valLen m reply)
      (fun _ _ => True) w := by
    rcases hop with rfl | rfl
    · exact (kvdbLookup_answers hsys h.usable).mono (fun _ _ ha => ⟨_, ha⟩) fun _ _ _ => trivial
    · exact (kvdbRemove_answers hsys h.usable).mono (fun _ _ ha => ⟨_, ha⟩) fun _ _ _ => trivial
  unfold Store.returns
  refine wp.bind (calls_wp (hrun.mono (fun reply w' ha => ?_) fun _ _ _ => trivial))
  exact wp.bind ((wp.trivial _ _).mono (fun _ _ _ => ha) fun _ _ _ => trivial)

/-- A call that is given the buffer. -/
theorem Stores.gives (h : Stores log hash hashes get size waste w) {key : List UInt8} (out : Out)
    {op : Op} (hop : op = .lookup key (some out.val) (some out.valLen) ∨
      op = .remove key (some out.val) (some out.valLen)) (hkey : KeyOk key)
    (hlen : out.valLen.toNat ≤ out.val.length) (hk : op.record ≠ none → hashKey hash key ∈ hashes)
    {code : Code} {bound : Bool} (hb : (get key).isSome = bound) (hcode : op.code bound = code) :
    wp (Store.returns sys hash op code)
      (fun reply w' =>
        Stores log hash hashes (op.effect get code) (op.size bound size) (op.waste bound waste) w' ∧
          out.Back (get key) code reply)
      (fun e _ => Excused hashes e) w := by
  have hkey' : op.key = key := by rcases hop with rfl | rfl <;> rfl
  have hargs : op.ArgsOk := by
    have hholds : ∀ cap, some out.valLen = some cap → Holds (some out.val) cap := by
      rintro cap hcap
      obtain rfl := Option.some.inj hcap
      exact hlen
    rcases hop with rfl | rfl
    · exact ⟨hkey, hholds⟩
    · exact ⟨hkey, by simp, hholds⟩
  refine ((h.returns hsys hargs (by rwa [hkey']) (by rwa [hkey']) hcode).and
    (h.answers hsys hop code)).mono ?_ fun e _ he => he.1
  rintro reply w' ⟨⟨hstores, hreply, hdelivers⟩, m, ha⟩
  rw [hkey'] at hdelivers
  refine ⟨hstores, Out.back hlen hreply ha fun v hv => ?_⟩
  rcases hop with rfl | rfl
  · exact hdelivers v hv
  · exact hdelivers v hv

/-- **A lookup of a test.** -/
theorem Stores.looksUp (h : Stores log hash hashes get size waste w) {key : List UInt8} {out : Out}
    (hkey : KeyOk key) (hlen : out.valLen.toNat ≤ out.val.length) {code : Code}
    (hcode : (Op.lookup key none none).code (get key).isSome = code) :
    wp (Store.looksUp sys hash key out code)
      (fun out' w' => Stores log hash hashes get size waste w' ∧
        out'.val.length = out.val.length ∧ (code = .plusOne → out'.valLen = out.valLen) ∧
        ∀ v, get key = some v → v.length ≤ out.valLen.toNat → out'.Is v)
      (fun e _ => Excused hashes e) w := by
  unfold Store.looksUp
  refine wp.bind ((h.gives hsys _ (.inl rfl) hkey hlen (fun hk => absurd rfl hk) rfl hcode).mono ?_
    fun _ _ he => he)
  rintro reply w' ⟨hstores, hback⟩
  have heffect : (Op.lookup key (some out.val) (some out.valLen)).effect get code = get := rfl
  rw [heffect] at hstores
  exact ⟨hstores, hback.length, hback.keeps, hback.is⟩

/-- A lookup that finds nothing, with a buffer or without. -/
theorem Stores.misses (h : Stores log hash hashes get size waste w) {key : List UInt8}
    {val : Option (List UInt8)} {valLen : Option UInt64} (hargs : (Op.lookup key val valLen).ArgsOk)
    (hnone : get key = none) :
    wp (Store.returns sys hash (.lookup key val valLen) .plusOne)
      (fun reply w' => Stores log hash hashes get size waste w' ∧ reply.valLen = valLen)
      (fun e _ => Excused hashes e) w := by
  have hb : (get (Op.lookup key val valLen).key).isSome = false := by
    rw [show (Op.lookup key val valLen).key = key from rfl, hnone]
    rfl
  refine ((h.returns hsys hargs (fun hr => absurd rfl hr) hb rfl).and
    (h.answers hsys (.inl rfl) _)).mono ?_ fun _ _ he => he.1
  rintro reply w' ⟨⟨h', hcode, -⟩, m, ha⟩
  exact ⟨h', ha.keeps hcode⟩

/-! ## `basic_logic` passes -/

omit hsys in
theorem keyOk_KEY : KeyOk KEY := by decide

omit hsys in
/-- `KEY` is bound alone. -/
def only (v : Option (List UInt8)) : List UInt8 → Option (List UInt8) :=
  Function.update (fun _ => none) KEY v

omit hsys in
@[simp] theorem only_KEY (v : Option (List UInt8)) : only v KEY = v := Function.update_self ..

omit hsys in
theorem effect_only {op : Op} {v v' : Option (List UInt8)} (hkey : op.key = KEY)
    (hwrites : op.writes = some v') : op.effect (only v) .zero = only v' := by
  unfold Op.effect
  rw [hwrites, hkey]
  exact Function.update_idem ..

/-- A write to `KEY` with the lookups behind it. -/
theorem Stores.storesAndKeeps {v : Option (List UInt8)} {op : Op} {val : List UInt8} {n : UInt64}
    {out : Out} (h : Stores log hash hashes (only v) size waste w) (hk : hashKey hash KEY ∈ hashes)
    (hkey : op.key = KEY) (hargs : op.ArgsOk) (hwrites : op.writes = some (some val))
    (hcode : op.code v.isSome = .zero) (hsize : op.size v.isSome size = 1)
    (hwaste : op.waste v.isSome waste = n.toNat) (hval : ValOk val) (hle : val.length ≤ 32)
    (hout : out.val.length = 32) :
    wp (Store.storesAndKeeps sys hash op val n out)
      (fun out' w' => Stores log hash hashes (only (some val)) 1 n.toNat w' ∧ out'.val.length = 32)
      (fun e _ => Excused hashes e) w := by
  have hinsert : (Op.insert KEY val).ArgsOk := ⟨keyOk_KEY, hval⟩
  have hbound : (Op.lookup KEY none none).code (only (some val) KEY).isSome = .zero := by
    rw [only_KEY]
    rfl
  unfold Store.storesAndKeeps
  refine wp.bind ((h.returns hsys hargs (fun _ => hkey ▸ hk) (by rw [hkey, only_KEY]) hcode).mono ?_
    fun _ _ he => he)
  rintro - w₁ ⟨h₁, -⟩
  rw [effect_only hkey hwrites, hsize, hwaste] at h₁
  refine wp.bind ((h₁.looksUp hsys keyOk_KEY (by exact hout.ge) hbound).mono ?_ fun _ _ he => he)
  rintro out₂ w₂ ⟨h₂, hlen₂, -, his₂⟩
  replace his₂ := his₂ val (only_KEY _) hle
  refine wp.bind (check_wp his₂ ?_)
  refine wp.bind ((h₂.returns hsys hinsert (fun _ => hk) (congrArg _ (only_KEY _)) rfl).mono ?_
    fun _ _ he => he)
  rintro - w₃ ⟨h₃, -⟩
  have hcap₂ : out₂.valLen.toNat = val.length := by
    rw [← his₂.1, UInt64.toNat_ofNat']
    omega
  have hfits₂ : out₂.valLen.toNat ≤ out₂.val.length := by
    rw [hcap₂, hlen₂]
    exact hle.trans hout.ge
  refine wp.bind ((Stores.looksUp hsys h₃ keyOk_KEY hfits₂ hbound).mono ?_ fun _ _ he => he)
  rintro out₄ w₄ ⟨h₄, hlen₄, -, his₄⟩
  refine wp.bind (check_wp (his₄ val (only_KEY _) hcap₂.ge) ?_)
  refine wp.bind ((h₄.expects rfl rfl).mono (fun _ w₅ h₅ => ⟨h₅, ?_⟩) fun _ _ he => he)
  exact (hlen₄.trans hlen₂).trans hout

theorem basicLogic_wp (h : Stores log hash hashes (only none) 0 0 w)
    (hk : hashKey hash KEY ∈ hashes) :
    wp (basicLogic sys hash) (fun _ _ => True) (fun e _ => Excused hashes e) w := by
  have hnot : (Op.lookup KEY none none).code (only none KEY).isSome = .plusOne := by
    rw [only_KEY]
    rfl
  have hbound : (Op.lookup KEY none none).code (only (some VAL3) KEY).isSome = .zero := by
    rw [only_KEY]
    rfl
  have hnull : (Op.lookup KEY none none).ArgsOk := ⟨keyOk_KEY, by simp⟩
  have hempty : (Op.lookup KEY none (some 0)).ArgsOk := ⟨keyOk_KEY, by simp [Holds]⟩
  have hval₁ : ValOk VAL1 := by decide
  have hval₂ : ValOk VAL2 := by decide
  have hval₃ : ValOk VAL3 := by decide
  have hle₃ : VAL3.length ≤ (32 : UInt64).toNat := by decide
  have hinvalid : (Op.replace KEY VAL1).ArgsOk := ⟨keyOk_KEY, hval₁⟩
  have hinsert : (Op.insert KEY VAL1).ArgsOk := ⟨keyOk_KEY, hval₁⟩
  have hreplace : (Op.replace KEY VAL2).ArgsOk := ⟨keyOk_KEY, hval₂⟩
  have hupdate : (Op.update KEY VAL3).ArgsOk := ⟨keyOk_KEY, hval₃⟩
  unfold basicLogic
  refine wp.bind (wp.getState ?_)
  refine wp.bind ((h.expects rfl rfl).mono ?_ fun _ _ he => he)
  rintro - w₁ h₁
  -- invalid lookup
  refine wp.bind ((h₁.misses hsys hnull (only_KEY _)).mono ?_ fun _ _ he => he)
  rintro - w₂ ⟨h₂, -⟩
  refine wp.bind ((h₂.misses hsys hempty (only_KEY _)).mono ?_ fun _ _ he => he)
  rintro reply w₃ ⟨h₃, hzero⟩
  rw [hzero]
  refine wp.bind ((h₃.looksUp hsys keyOk_KEY (Nat.zero_le _) hnot).mono ?_ fun _ _ he => he)
  rintro out₄ w₄ ⟨h₄, hlen₄, -⟩
  refine wp.bind ((h₄.expects rfl rfl).mono ?_ fun _ _ he => he)
  rintro - w₅ h₅
  -- invalid replace
  refine wp.bind ((h₅.returns hsys hinvalid (fun _ => hk) (congrArg _ (only_KEY _)) rfl).mono ?_
    fun _ _ he => he)
  rintro - w₆ ⟨h₆, -⟩
  refine wp.bind ((Stores.expects h₆ rfl rfl).mono ?_ fun _ _ he => he)
  rintro - w₇ h₇
  refine wp.bind ((h₇.storesAndKeeps hsys hk rfl hinsert rfl rfl rfl rfl hval₁ (by decide)
    (hlen₄.trans (hsys.uninit_length 32 w.sys))).mono ?_ fun _ _ he => he)
  rintro out₈ w₈ ⟨h₈, hlen₈⟩
  refine wp.bind ((h₈.storesAndKeeps hsys hk rfl hreplace rfl rfl rfl rfl hval₂ (by decide)
    hlen₈).mono ?_ fun _ _ he => he)
  rintro out₉ w₉ ⟨h₉, hlen₉⟩
  refine wp.bind ((h₉.storesAndKeeps hsys hk rfl hupdate rfl rfl rfl rfl hval₃ (by decide)
    hlen₉).mono ?_ fun _ _ he => he)
  rintro out₁₀ w₁₀ ⟨h₁₀, hlen₁₀⟩
  -- lookup
  refine wp.bind ((h₁₀.looksUp hsys keyOk_KEY (by exact hlen₁₀.ge) hbound).mono ?_ fun _ _ he => he)
  rintro out₁₁ w₁₁ ⟨h₁₁, hlen₁₁, -, his₁₁⟩
  refine wp.bind (check_wp (his₁₁ VAL3 (only_KEY _) hle₃) ?_)
  refine wp.bind ((h₁₁.expects rfl rfl).mono ?_ fun _ _ he => he)
  rintro - w₁₂ h₁₂
  -- remove
  have hlen₁₂ : (32 : UInt64).toNat ≤ out₁₁.val.length := (hlen₁₁.trans hlen₁₀).ge
  refine wp.bind ((h₁₂.gives hsys ⟨out₁₁.val, 32⟩ (.inr rfl) keyOk_KEY hlen₁₂ (fun _ => hk)
    (congrArg _ (only_KEY _)) rfl).mono ?_ fun _ _ he => he)
  rintro reply w₁₃ ⟨h₁₃, hback⟩
  have his := hback.is VAL3 (only_KEY _) hle₃
  have hfits : (reply.valLen.getD 0).toNat ≤ (reply.val.getD []).length := by
    rw [hback.length, ← show UInt64.ofNat VAL3.length = reply.valLen.getD 0 from his.1]
    exact le_trans (by decide) hlen₁₂
  have heffect : (Op.remove KEY (some out₁₁.val) (some 32)).effect (only (some VAL3)) .zero =
      only none := effect_only rfl rfl
  replace h₁₃ : Stores log hash hashes (only none) 0 3 w₁₃ := by
    rw [← heffect]
    exact h₁₃
  refine wp.bind (check_wp his ?_)
  refine wp.bind ((Stores.looksUp hsys h₁₃ keyOk_KEY hfits hnot).mono ?_ fun _ _ he => he)
  rintro out₁₄ w₁₄ ⟨h₁₄, -⟩
  exact (h₁₄.expects rfl rfl).mono (fun _ _ _ => trivial) fun _ _ he => he

/-! ## `heavy_rewrite` passes -/

omit hsys in
theorem safeSprintf_wp {len : ℕ} {s : String} {Q : List UInt8 → World σ → Prop}
    (hlen : s.length < len) (h : Q (cstr s) w) : wp (safeSprintf len s) Q E w := by
  unfold safeSprintf
  rw [if_neg (Nat.not_le.2 hlen)]
  exact h

omit hsys in
theorem length_cstr (s : String) : (cstr s).length = s.length + 1 := by
  rw [cstr, List.length_append, List.length_map, String.length_toList, List.length_singleton]

omit hsys in
/-- A letter and a number. -/
theorem length_letter {c : String} (hc : c.length = 1) {i d : ℕ} (hd : 0 < d) (hi : i < 10 ^ d) :
    (c ++ i.repr).length ≤ d + 1 := by
  have := (Nat.length_repr_le_iff hd).2 hi
  rw [String.length_append, hc]
  omega

/-- What holds in front of turn `i`. -/
structure Rewritten (log : σ → List UInt8) (hash : List UInt8 → UInt64) (hashes : Finset UInt64)
    (i : ℕ) (out : Out) (w : World σ) : Prop where
  stores : ∃ v, (v.isSome ↔ i ≠ 0) ∧ Stores log hash hashes (only v) (min i 1) (i - 1) w
  length : out.val.length = 64

theorem Rewritten.turn {i : ℕ} {out : Out} (h : Rewritten log hash hashes i out w)
    (hk : hashKey hash KEY ∈ hashes) (hi : i < 2 ^ 64) :
    wp (rewriteTurn sys hash i out) (Rewritten log hash hashes (i + 1))
      (fun e _ => Excused hashes e) w := by
  obtain ⟨v, hv, hstores⟩ := h.stores
  have hshort : ("v" ++ i.repr).length ≤ 21 :=
    length_letter rfl (by decide) (hi.trans (by decide))
  have hlen := length_cstr ("v" ++ i.repr)
  obtain ⟨val, hval⟩ : ∃ val, val = cstr ("v" ++ i.repr) := ⟨_, rfl⟩
  rw [← hval] at hlen
  have hvalOk : ValOk val := ⟨by omega, by omega⟩
  have hupdate : (Op.update KEY val).ArgsOk := ⟨keyOk_KEY, hvalOk⟩
  have hbound : (Op.lookup KEY none none).code (only (some val) KEY).isSome = .zero := by
    rw [only_KEY]
    rfl
  unfold rewriteTurn
  refine wp.bind (safeSprintf_wp (by omega) ?_)
  rw [← hval]
  refine wp.bind ((hstores.returns hsys hupdate (fun _ => hk) (congrArg _ (only_KEY _)) rfl).mono ?_
    fun _ _ he => he)
  rintro - w₁ ⟨h₁, -⟩
  replace h₁ : Stores log hash hashes (only (some val)) 1 i w₁ := by
    have hsize : (Op.update KEY val).size v.isSome (min i 1) = 1 := by
      show (if v.isSome then min i 1 else min i 1 + 1) = 1
      split_ifs with hsome
      · have := hv.1 hsome
        omega
      · have := mt hv.2 hsome
        omega
    have hwaste : (Op.update KEY val).waste v.isSome (i - 1) = i := by
      show (if v.isSome then i - 1 + 1 else i - 1) = i
      split_ifs with hsome
      · have := hv.1 hsome
        omega
      · have := mt hv.2 hsome
        omega
    have heffect : (Op.update KEY val).effect (only v) .zero = only (some val) :=
      effect_only rfl rfl
    rw [hsize, hwaste] at h₁
    rw [← heffect]
    exact h₁
  have hfits : (64 : UInt64).toNat ≤ out.val.length := h.length.ge
  refine wp.bind ((h₁.looksUp hsys keyOk_KEY (by exact hfits) hbound).mono ?_ fun _ _ he => he)
  rintro out₂ w₂ ⟨h₂, hlen₂, -, his₂⟩
  have hcap : val.length ≤ (64 : UInt64).toNat := le_trans (by omega) (show 22 ≤ 64 by decide)
  refine wp.bind (check_wp (his₂ val (only_KEY _) hcap) ?_)
  refine wp.bind ((h₂.expects rfl (UInt64.toNat_ofNat_of_lt hi)).mono (fun _ w₃ h₃ => ?_)
    fun _ _ he => he)
  refine ⟨⟨some val, by simp, ?_⟩, hlen₂.trans h.length⟩
  rwa [Nat.min_eq_right (Nat.le_add_left 1 i), Nat.add_sub_cancel]

/-- **`heavy_rewrite`**, with any number of turns. -/
theorem heavyRewrite_wp (h : Stores log hash hashes (only none) 0 0 w)
    (hk : hashKey hash KEY ∈ hashes) {n : ℕ} (hn : n ≤ 2 ^ 64) :
    wp (heavyRewrite sys hash n) (fun _ _ => True) (fun e _ => Excused hashes e) w := by
  unfold heavyRewrite
  have hstart : Rewritten log hash hashes 0 ⟨sys.uninit 64 w.sys, 0⟩ w :=
    ⟨⟨none, by simp, h⟩, hsys.uninit_length 64 w.sys⟩
  refine wp.bind (wp.getState ?_)
  exact wp.bind ((wp.upTo hstart fun i hi out w hw => hw.turn hsys hk (by omega)).mono
    (fun _ _ _ => trivial) fun _ _ he => he)

/-! ## `read_write` -/

section Objects

variable (K V : ℕ) (h : ℕ → UInt64)

/-- The key of an object. -/
def key (i : ℕ) : List UInt8 := filled K (h i) ("k" ++ i.repr)

/-- The value of an object. -/
def val (i : ℕ) : List UInt8 := filled V (h i) ("i" ++ i.repr)

/-- The first `n` objects have different keys. -/
def Different (n : ℕ) : Prop := ∀ i < n, ∀ j < i, key K h j ≠ key K h i

/-- What the store binds when the first objects are inserted. -/
def objects : ℕ → List UInt8 → Option (List UInt8)
  | 0 => fun _ => none
  | n + 1 => Function.update (objects n) (key K h n) (some (val V h n))

end Objects

section

variable {K V : ℕ} {h : ℕ → UInt64} {i j n : ℕ}

omit hsys

theorem length_place {buf : List UInt8} {off : ℕ} {s : String} (hs : off + s.length ≤ buf.length) :
    (place buf off s).length = buf.length := by
  unfold place
  rw [List.length_append, Bytes.length_overwrite, List.length_take, List.length_drop]
  · omega
  · rw [List.length_map, String.length_toList, List.length_drop]
    omega

theorem length_filled {len : ℕ} (x : UInt64) {s : String} (hlen : 16 < len) (hs : s.length ≤ 16) :
    16 ≤ (filled len x s).length ∧ (filled len x s).length < len := by
  have hmod := Nat.mod_lt x.toNat (show 0 < len - 16 by omega)
  unfold filled
  simp only
  rw [length_place (by rw [List.length_replicate]; omega), List.length_replicate]
  omega

theorem objects_eq_none (hi : ∀ j < n, key K h j ≠ key K h i) :
    objects K V h n (key K h i) = none := by
  induction n with
  | zero => rfl
  | succ n ih =>
      rw [objects, Function.update_of_ne (hi n (Nat.lt_succ_self n)).symm]
      exact ih fun j hj => hi j (Nat.lt_succ_of_lt hj)

theorem objects_isSome (hj : j < n) : (objects K V h n (key K h j)).isSome := by
  induction n with
  | zero => exact absurd hj (Nat.not_lt_zero j)
  | succ n ih =>
      rw [objects]
      by_cases heq : key K h j = key K h n
      · rw [heq, Function.update_self]
        rfl
      · rw [Function.update_of_ne heq]
        exact ih (lt_of_le_of_ne (Nat.le_of_lt_succ hj) fun hjn => heq (congrArg _ hjn))

theorem objects_eq_some (hdiff : Different K h n) (hj : j < n) :
    objects K V h n (key K h j) = some (val V h j) := by
  induction n with
  | zero => exact absurd hj (Nat.not_lt_zero j)
  | succ n ih =>
      rw [objects]
      rcases Nat.lt_succ_iff_lt_or_eq.1 hj with hlt | rfl
      · rw [Function.update_of_ne (hdiff n (Nat.lt_succ_self n) j hlt)]
        exact ih (fun i hi => hdiff i (Nat.lt_succ_of_lt hi)) hlt
      · rw [Function.update_self]

theorem mkObject_wp {Q : List UInt8 × List UInt8 → World σ → Prop} (hK : 16 < K) (hV : 16 < V)
    (hi : i < 10 ^ 14) (hq : Q (key K h i, val V h i) w) : wp (mkObject K V (h i) i "i") Q E w := by
  have hk : ("k" ++ i.repr).length ≤ 15 := length_letter rfl (by decide) hi
  have hv : ("i" ++ i.repr).length ≤ 15 := length_letter rfl (by decide) hi
  unfold mkObject
  rw [if_neg (not_not.2 ⟨hK, hV⟩)]
  exact wp.bind (safeSprintf_wp (by omega) (wp.bind (safeSprintf_wp (by omega) hq)))

/-- The lengths that `read_write` is given. -/
structure Sizes (N K V : ℕ) : Prop where
  K : 16 < K ∧ K ≤ 0xffff
  V : 16 < V ∧ V ≤ 0xffffffff
  N : N ≤ 10 ^ 14

variable {N : ℕ}

theorem Sizes.toNat_V (hs : Sizes N K V) : (UInt64.ofNat V).toNat = V :=
  UInt64.toNat_ofNat_of_lt (lt_of_le_of_lt hs.V.2 (by decide))

theorem Sizes.key (hs : Sizes N K V) (hi : i < N) : KeyOk (key K h i) := by
  have hlen : ("k" ++ i.repr).length ≤ 15 :=
    length_letter rfl (by decide) (lt_of_lt_of_le hi hs.N)
  obtain ⟨h₁, h₂⟩ := length_filled (h i) hs.K.1 (show ("k" ++ i.repr).length ≤ 16 by omega)
  have := hs.K.2
  unfold Store.key KeyOk
  omega

theorem Sizes.val (hs : Sizes N K V) (hi : i < N) :
    ValOk (val V h i) ∧ (val V h i).length ≤ (UInt64.ofNat V).toNat := by
  have hlen : ("i" ++ i.repr).length ≤ 15 :=
    length_letter rfl (by decide) (lt_of_lt_of_le hi hs.N)
  obtain ⟨h₁, h₂⟩ := length_filled (h i) hs.V.1 (show ("i" ++ i.repr).length ≤ 16 by omega)
  have hle := hs.V.2
  unfold Store.val ValOk
  rw [hs.toNat_V]
  omega

/-- What holds in front of turn `i` of the first loop. -/
structure Inserted (log : σ → List UInt8) (hash : List UInt8 → UInt64) (hashes : Finset UInt64)
    (K V : ℕ) (h : ℕ → UInt64) (i : ℕ) (out : Out) (w : World σ) : Prop where
  stores : Stores log hash hashes (objects K V h i) i 0 w
  different : Different K h i
  length : out.val.length = V

/-- An object is looked up. -/
theorem Stores.looksUp_object (hsys : sys.Documented log)
    (hw : Stores log hash hashes (objects K V h n) size waste w) (hs : Sizes N K V)
    (hdiff : Different K h n) (hi : i < n) (hin : i < N) {out : Out} (hout : out.val.length = V) :
    wp (Store.looksUp sys hash (key K h i) { out with valLen := .ofNat V } .zero)
      (fun out' w' => Stores log hash hashes (objects K V h n) size waste w' ∧
        out'.val.length = V ∧ out'.Is (val V h i))
      (fun e _ => Excused hashes e) w := by
  have hget := objects_eq_some (V := V) hdiff hi
  have hcode :
        (Op.lookup (key K h i) none none).code (objects K V h n (key K h i)).isSome = .zero := by
    rw [hget]
    rfl
  refine (hw.looksUp hsys (hs.key hin) (by simp only [hs.toNat_V, hout, le_refl]) hcode).mono ?_
    fun _ _ he => he
  rintro out' w' ⟨h', hlen, -, his⟩
  exact ⟨h', hlen.trans hout, his _ hget (hs.val hin).2⟩

/-- **A turn of the first loop** fails where a key comes again. -/
theorem Inserted.turn (hsys : sys.Documented log) {out : Out}
    (hw : Inserted log hash hashes K V h i out w) (hs : Sizes N K V) (hi : i < N)
    (hk : hashKey hash (key K h i) ∈ hashes) :
    wp (insertTurn sys hash K V h i out) (Inserted log hash hashes K V h (i + 1))
      (fun e _ => Excused hashes e ∨ (e = .software ∧ ¬ Different K h N)) w := by
  have hinsert : (Op.insert (key K h i) (val V h i)).ArgsOk := ⟨hs.key hi, (hs.val hi).1⟩
  unfold insertTurn
  refine wp.bind (mkObject_wp hs.K.1 hs.V.1 (lt_of_lt_of_le hi hs.N) ?_)
  simp only
  by_cases hnew : ∀ j < i, key K h j ≠ key K h i
  · have hnone := objects_eq_none (V := V) hnew
    refine wp.bind ((hw.stores.returns hsys hinsert (fun _ => hk) (congrArg _ hnone) rfl).mono ?_
      fun _ _ he => .inl he)
    rintro - w₁ ⟨h₁, -⟩
    have hdiff : Different K h (i + 1) := by
      intro a ha b hb
      rcases Nat.lt_succ_iff_lt_or_eq.1 ha with hlt | rfl
      · exact hw.different a hlt b hb
      · exact hnew b hb
    have h₁ : Stores log hash hashes (objects K V h (i + 1)) (i + 1) 0 w₁ := h₁
    refine wp.bind ((h₁.looksUp_object hsys hs hdiff (Nat.lt_succ_self i) hi hw.length).mono ?_
      fun _ _ he => .inl he)
    rintro out₂ w₂ ⟨h₂, hlen₂, his₂⟩
    refine wp.bind (check_wp his₂ ?_)
    have hlt : i + 1 < 2 ^ 64 := lt_of_le_of_lt (Nat.succ_le_of_lt hi)
      (lt_of_le_of_lt hs.N (by decide))
    exact wp.bind ((h₂.expects (UInt64.toNat_ofNat_of_lt hlt) rfl).mono
      (fun _ w₃ h₃ => ⟨h₃, hdiff, hlen₂⟩) fun _ _ he => .inl he)
  · push Not at hnew
    obtain ⟨j, hj, heq⟩ := hnew
    have hsome : (objects K V h i (key K h i)).isSome = true := by
      rw [← heq]
      exact objects_isSome hj
    refine wp.bind ((hw.stores.refuses hsys hinsert (fun _ => hk) hsome (by simp [Op.code])).mono
      (fun _ _ hf => hf.elim) fun e _ he => he.imp id fun he => ⟨he, fun hdiff => ?_⟩)
    exact hdiff i hi j hj heq

theorem Stores.mallocs (hsys : sys.Documented log) (hw : Stores log hash hashes get size waste w)
    (n : ℕ) :
    wp (Store.mallocs sys n) (fun _ w' => Stores log hash hashes get size waste w')
      (fun e _ => e = .outOfMemory) w := by
  have hlog := hsys.malloc_log (.ofNat n) w.sys
  unfold wp Store.mallocs
  rcases hm : sys.malloc (.ofNat n) w.sys with ⟨_ | _, s⟩
  · rfl
  · rw [hm] at hlog
    obtain ⟨⟨junk, recs, hinv, hget⟩, hsize, hwaste, hearly⟩ := hw
    refine ⟨⟨junk, recs, ⟨?_, hinv.counted⟩, hget⟩, hsize, hwaste, hearly⟩
    show Shape hash junk recs w.kvdb (log s)
    rw [hlog]
    exact hinv.shape

/-- How `read_write` ends, if not well. -/
def ReadWriteFails (hashes : Finset UInt64) (K : ℕ) (h : ℕ → UInt64) (N : ℕ) (e : TestFail) : Prop :=
  Excused hashes e ∨ e = .outOfMemory ∨ (e = .software ∧ ¬ Different K h N)

theorem readWrite_wp (hsys : sys.Documented log)
    (hw : Stores log hash hashes (fun _ => none) 0 0 w) (hs : Sizes N K V)
    (hk : ∀ i < N, hashKey hash (key K h i) ∈ hashes) (rand : ℕ → ℕ) :
    wp (readWrite sys hash h rand N K V) (fun _ _ => Different K h N)
      (fun e _ => ReadWriteFails hashes K h N e) w := by
  unfold readWrite
  refine wp.bind ((hw.mallocs hsys K).mono ?_ fun _ _ he => .inr (.inl he))
  rintro - w₁ h₁
  refine wp.bind ((h₁.mallocs hsys V).mono ?_ fun _ _ he => .inr (.inl he))
  rintro - w₂ h₂
  refine wp.bind ((h₂.mallocs hsys V).mono ?_ fun _ _ he => .inr (.inl he))
  rintro - w₃ h₃
  refine wp.bind (wp.getState ?_)
  have hstart : Inserted log hash hashes K V h 0 ⟨sys.uninit V w₃.sys, 0⟩ w₃ :=
    ⟨h₃, fun i hi => absurd hi (Nat.not_lt_zero i), hsys.uninit_length V w₃.sys⟩
  refine wp.bind ((wp.upTo hstart fun i hi out w hw => hw.turn hsys hs hi (hk i hi)).mono ?_
    fun e _ he => he.imp id .inr)
  rintro out₄ w₄ ⟨h₄, hdiff, hlen₄⟩
  have hstart : Stores log hash hashes (objects K V h N) N 0 w₄ ∧ out₄.val.length = V := ⟨h₄, hlen₄⟩
  refine wp.bind ((wp.upTo (I := fun _ (out : Out) w =>
    Stores log hash hashes (objects K V h N) N 0 w ∧ out.val.length = V) hstart ?_).mono
      (fun _ _ _ => hdiff) fun e _ he => .inl he)
  rintro i hi out w ⟨h₅, hlen₅⟩
  have hj : rand i % N < N := Nat.mod_lt _ (Nat.zero_lt_of_lt hi)
  unfold lookupTurn
  refine wp.bind (mkObject_wp hs.K.1 hs.V.1 (lt_of_lt_of_le hj hs.N) ?_)
  refine wp.bind ((h₅.looksUp_object hsys hs hdiff hj hj hlen₅).mono ?_ fun _ _ he => he)
  rintro out₆ w₆ ⟨h₆, hlen₆, his₆⟩
  refine wp.bind (check_wp his₆ ?_)
  have hN : N < 2 ^ 64 := lt_of_le_of_lt hs.N (by decide)
  exact wp.bind ((h₆.expects (UInt64.toNat_ofNat_of_lt hN) rfl).mono
    (fun _ w₇ h₇ => ⟨h₇, hlen₆⟩) fun _ _ he => he)

/-! ## The tests -/

/-- `kvdb_open` fails for external reasons alone. -/
theorem kvdbOpen_io (hsys : sys.Documented log) (hash : List UInt8 → UInt64)
    (hashes : Finset UInt64) {pathname : String} (hpath : pathname ≠ "")
    (s : σ) :
    wp (kvdbOpen sys pathname)
      (fun kvdb s' => Stores log hash hashes (fun _ => none) 0 0 ⟨kvdb, s'⟩)
      (fun e _ => ∃ c, e = .io c) s := by
  have hraw (s : σ) :
      wp (kvrawOpen sys pathname) (fun _ _ => True) (fun e _ => ∃ c, e = .io c) s := by
    unfold kvrawOpen
    rw [if_neg hpath]
    refine wp.bind ((mallocOr_wp hsys _ _).mono (fun _ s₁ _ => ?_) fun _ _ he => ⟨_, he.2⟩)
    refine wp.bind ((hsys.logs.open_wp pathname).mono (fun _ s₂ _ => ?_) fun _ _ he => ⟨_, he⟩)
    refine wp.bind ((uninitialised_wp hsys 8).mono (fun _ s₃ _ => ?_) fun _ _ he => he.elim)
    refine wp.bind ((kvrawAppend_wp hsys.logs _).mono (fun _ _ _ => trivial) ?_)
    rintro e s₄ ⟨-, rfl | ⟨-, hbad⟩⟩
    · exact ⟨_, rfl⟩
    · simp at hbad
  have herror : wp (kvdbOpen sys pathname) (fun _ _ => True) (fun e _ => ∃ c, e = .io c) s := by
    unfold kvdbOpen
    rw [if_neg hpath]
    refine wp.bind ((mallocOr_wp hsys _ _).mono (fun _ s₁ _ => ?_) fun _ _ he => ⟨_, he.2⟩)
    refine wp.bind ((hraw s₁).mono (fun _ s₂ _ => ?_) fun _ _ he => he)
    exact wp.bind (wp.bind ((mallocOr_wp hsys _ _).mono (fun _ _ _ => trivial)
      fun _ _ he => ⟨_, he.2⟩))
  unfold wp
  cases hrun : kvdbOpen sys pathname s with
  | error e s' => exact herror.error hrun
  | ok kvdb s' =>
      obtain ⟨junk, hinv⟩ : ∃ junk, Inv log hash junk [] ⟨kvdb, s'⟩ :=
        (kvdbOpen_wp hsys pathname s).ok hrun
      refine ⟨⟨junk, [], hinv, rfl⟩, hinv.counted.size, hinv.counted.waste, fun _ => ?_⟩
      rw [kvdbOpen_index hrun]
      exact early_empty hashes

/-- A test, by its body. -/
theorem test_wp (hsys : sys.Documented log) (hash : List UInt8 → UInt64) (hashes : Finset UInt64)
    {pathname : String} (hpath : pathname ≠ "") {body : TM σ Unit} {Q : Prop}
    {P : TestFail → Prop}
    (hbody : ∀ w, Stores log hash hashes (fun _ => none) 0 0 w →
      wp body (fun _ _ => Q) (fun e _ => P e) w) (hP : ∀ c, P (.call (.io c))) (s : σ) :
    wp (test sys pathname body) (fun _ _ => Q) (fun e _ => P e) s := by
  have hopen := kvdbOpen_io hsys hash hashes hpath s
  unfold wp test
  cases hrun : kvdbOpen sys pathname s with
  | error e s' =>
      obtain ⟨c, rfl⟩ := hopen.error hrun
      exact hP c
  | ok kvdb s' =>
      have h := hbody _ (hopen.ok hrun)
      unfold wp at h
      simp only
      cases hend : body ⟨kvdb, s'⟩ with
      | ok a w => rwa [hend] at h
      | error e w => rwa [hend] at h

/-- **`basic_logic` and `heavy_rewrite` pass**, the second with any number of turns, unless an
    external call fails; on any log and with any hash function. -/
theorem rewrites_pass (hsys : sys.Documented log) (hash : List UInt8 → UInt64) {pathname : String}
    (hpath : pathname ≠ "") (n : ℕ) (hn : n ≤ 2 ^ 64) (s : σ) :
    (∀ e s', test sys pathname (basicLogic sys hash) s = .error e s' → ∃ c, e = .call (.io c)) ∧
      ∀ e s', test sys pathname (heavyRewrite sys hash n) s = .error e s' →
        ∃ c, e = .call (.io c) := by
  have hk : hashKey hash KEY ∈ ({hashKey hash KEY} : Finset UInt64) := Finset.mem_singleton_self _
  have hone : ∀ e, Excused {hashKey hash KEY} e → ∃ c, e = .call (.io c) := by
    rintro e (hio | ⟨-, hcard⟩)
    · exact hio
    · rw [Finset.card_singleton] at hcard
      exact absurd hcard (by decide)
  have hempty : (fun _ => none) = only none := (Function.update_eq_self ..).symm
  have hbasic := test_wp hsys hash {hashKey hash KEY} hpath
    (fun w hw => basicLogic_wp hsys (hempty ▸ hw) hk) (fun c => .inl ⟨c, rfl⟩) s
  have hheavy := test_wp hsys hash {hashKey hash KEY} hpath
    (fun w hw => heavyRewrite_wp hsys (hempty ▸ hw) hk hn) (fun c => .inl ⟨c, rfl⟩) s
  exact ⟨fun e s' h => hone e (hbasic.error h), fun e s' h => hone e (hheavy.error h)⟩

theorem rewrites_pass_memory :
    (∀ e s', test Memory.sys "log" (basicLogic Memory.sys fun _ => 1) (Memory.empty []) =
        .error e s' → ∃ c, e = .call (.io c)) ∧
      ∀ e s', test Memory.sys "log" (heavyRewrite Memory.sys (fun _ => 1) 9876) (Memory.empty []) =
        .error e s' → ∃ c, e = .call (.io c) :=
  rewrites_pass Memory.documented (fun _ => 1) (by decide) 9876 (by decide) _

/-- **`read_write` passes only if the objects have different keys**. If they have, it fails for lack
    of memory, because an external call fails, or, with more than 214 objects, because the index has
    no room. -/
theorem readWrite_passes (hsys : sys.Documented log) (hash : List UInt8 → UInt64)
    {pathname : String} (hpath : pathname ≠ "") (h : ℕ → UInt64) (rand : ℕ → ℕ) (hs : Sizes N K V)
    (s : σ) :
    (∀ s', test sys pathname (readWrite sys hash h rand N K V) s = .ok () s' → Different K h N) ∧
      ∀ e s', test sys pathname (readWrite sys hash h rand N K V) s = .error e s' →
        (∃ c, e = .call (.io c)) ∨ e = .outOfMemory ∨ (e = .call .exitSoftware ∧ 214 < N) ∨
          (e = .software ∧ ¬ Different K h N) := by
  obtain ⟨hashes, hhashes⟩ : ∃ hashes,
      hashes = (Finset.range N).image fun i => hashKey hash (key K h i) := ⟨_, rfl⟩
  have hcard : hashes.card ≤ N := by
    rw [hhashes]
    exact Finset.card_image_le.trans (Finset.card_range N).le
  have hk : ∀ i < N, hashKey hash (key K h i) ∈ hashes := fun i hi => by
    rw [hhashes]
    exact Finset.mem_image_of_mem _ (Finset.mem_range.2 hi)
  have htest := test_wp hsys hash hashes hpath (fun w hw => readWrite_wp hsys hw hs hk rand)
    (fun c => .inl (.inl ⟨c, rfl⟩)) s
  refine ⟨fun s' h => htest.ok h, fun e s' h => ?_⟩
  rcases htest.error h with (hio | ⟨he, hlt⟩) | hmemory | hsoftware
  · exact .inl hio
  · exact .inr (.inr (.inl ⟨he, lt_of_lt_of_le hlt hcard⟩))
  · exact .inr (.inl hmemory)
  · exact .inr (.inr (.inr hsoftware))

end

end

/-- `read_write_large`, with other random numbers. -/
theorem readWrite_passes_large :
    (∀ s', test Memory.sys "log" (readWrite Memory.sys (fun _ => 1) (fun i => .ofNat i) id 1234 1234
        1234) (Memory.empty []) = .ok () s' → Different 1234 (fun i => .ofNat i) 1234) ∧
      ∀ e s', test Memory.sys "log" (readWrite Memory.sys (fun _ => 1) (fun i => .ofNat i) id 1234 1234
          1234) (Memory.empty []) = .error e s' →
        (∃ c, e = .call (.io c)) ∨ e = .outOfMemory ∨ (e = .call .exitSoftware ∧ 214 < 1234) ∨
          (e = .software ∧ ¬ Different 1234 (fun i => .ofNat i) 1234) :=
  readWrite_passes Memory.documented (fun _ => 1) (by decide) _ id
    ⟨⟨by decide, by decide⟩, ⟨by decide, by decide⟩, by decide⟩ _

/-- Two objects with one key, in `read_write_small`. -/
example : key 123 (fun _ => 9523) 1 = key 123 (fun _ => 9523) 13 := by
  decide +kernel

end CS238P.Store
