import CS238P.Library.Machine
import CS238P.Words.Load
import CS238P.Words.Replay

set_option autoImplicit false

/-! # The words program is a bag of words

What a user of `p3` sees, line by line and program run by program run, is what a bag of words would
answer. `Bag` is that bag, with what the program prints for it; the words that are lost because they
could not be allocated are lost there too. -/

namespace CS238P.Words

open CObject Avl Shell SortedCounts Windows

/-! ## The bag -/

/-- The words that were counted, the first one first. -/
abbrev Bag := List CString

/-- What a line is answered with: what the callback returns, and what is printed. -/
structure Reply where
  ret : ℤ
  out : List UInt8
  deriving DecidableEq

namespace Bag

/-- A word that is new and for which there is no room is lost. Only the first word of all is missed
    by `avl_insert`. -/
def insert (alloc : Alloc) (bag : Bag) (item : Item) : Bag × ℤ :=
  if item.toCString ∈ bag ∨ alloc.ok = true then (bag ++ [item.toCString], 0)
  else (bag, if bag = [] then -1 else 0)

/-- The words of a file, up to one that is reported as lost. -/
def load (alloc : ℕ → Alloc) : ℕ → List Item → Bag → Bag × List UInt8
  | _, [], bag => (bag, [])
  | calls, item :: items, bag =>
      let r := insert (alloc calls) bag item
      if r.2 ≠ 0 then (r.1, ascii "error: unable to load '" ++ item.bytes ++ ascii "'")
      else load alloc (calls + 1) items r.1

/-- The words of a file: `load` takes no more than 255 bytes at once. -/
def fileItems (file : List UInt8) : List Item :=
  items ((lines file).flatMap (pieces window isspace))

/-- What is answered to a line that calls `fnc` with the argument `arg`. -/
def perform (world : World) (bag : Bag) (arg : List UInt8) : Option Fnc → Bag × Reply
  | some .quit => (bag, ⟨1, []⟩)
  | some .help => (bag, ⟨0, (Words.help Avl.State.empty).out⟩)
  | some .info => (bag, ⟨0, (Words.info world ⟨bag.length, bag.dedup.length, .null⟩).out⟩)
  | some .list => (bag, ⟨0, (ofList bag).foldl (fun out e => listWord out e.1 e.2) []⟩)
  | some .load =>
      match world.fopen arg with
      | none => (bag, ⟨0, ascii "error: unable to open '" ++ arg ++ ascii "' for reading\n"⟩)
      | some file =>
          let r := load world.alloc 0 (fileItems file) bag
          (r.1, ⟨0, r.2⟩)
  | some .insert =>
      match toItem arg with
      | none => (bag, ⟨0, []⟩)
      | some item =>
          let r := insert (world.alloc 0) bag item
          (r.1, ⟨0, if r.2 ≠ 0 then ascii "error: failed to insert '" ++ arg ++ ascii "'" else []⟩)
  | some .exists_ =>
      match toItem arg with
      | none => (bag, ⟨0, []⟩)
      | some item =>
          let count := bag.count item.toCString
          (bag, ⟨0, if count = 0 then ascii "'" ++ arg ++ ascii "' does not exist\n"
            else ascii "'" ++ arg ++ ascii "' x " ++ lu count ++ ascii " exists\n"⟩)
  | none => (bag, ⟨0, ascii "error: bad command/argument (" ++
      (if arg ≠ [] then arg else ascii "missing argument") ++ ascii ")\n"⟩)

/-- A line: its command is the one whose face it starts with. -/
def line (bag : Bag) (i : World × List UInt8) : Bag × Reply :=
  perform i.1 bag (argument (faced cmds i.2) i.2) (verdict (faced cmds i.2) i.2).1

/-- A run of the program: whether the SCM is truncated, and the lines. -/
def program (bag : Bag) (p : Bool × List (World × List UInt8)) : Bag × List Reply :=
  Machine.runSpec line (fun r => decide (r.ret ≠ 0)) (if p.1 then [] else bag) p.2

end Bag

/-! ## The program -/

/-- The callback on a line, which is in a buffer of its size. -/
def line (avl : Avl.State) (i : World × List UInt8) : Option (Avl.State × Reply) := do
  let (out, _) ← shellFnc i.1 avl ⟨i.2 ++ [0], []⟩ 0
  some (out.avl, ⟨out.ret, out.out⟩)

def program (avl : Avl.State) (p : Bool × List (World × List UInt8)) :
    Option (Avl.State × List Reply) :=
  Machine.run line (fun r => decide (r.ret ≠ 0)) (if p.1 then Avl.State.empty else avl) p.2

/-! ## The commands -/

/-- The tree counts the words of the bag. -/
structure Counts (avl : Avl.State) (bag : Bag) : Prop where
  valid : Valid avl
  entries : entries avl.root = ofList bag

theorem counts_empty : Counts Avl.State.empty [] := ⟨valid_empty, rfl⟩

section

variable {world : World} {avl : Avl.State} {bag : Bag} {n : ℕ} {file arg : List UInt8}

theorem Counts.answers (h : Counts avl bag) : Answers avl bag := h.valid.answers bag h.entries

theorem Counts.root_eq_null_iff (h : Counts avl bag) : avl.root = .null ↔ bag = [] := by
  constructor
  · intro hroot
    have hlen := congrArg List.length h.entries
    rw [hroot, length_ofList] at hlen
    exact (List.dedup_eq_nil _).1 (List.eq_nil_of_length_eq_zero hlen.symm)
  · rintro rfl
    have hent := h.entries
    cases hroot : avl.root with
    | null => rfl
    | node d c key l r =>
        rw [hroot] at hent
        simp [Avl.entries, ofList] at hent

theorem Counts.insert (h : Counts avl bag) (alloc : Alloc) (item : Item) :
    ∃ avl', avlInsert alloc avl item = some ((Bag.insert alloc bag item).2, avl') ∧
      Counts avl' (Bag.insert alloc bag item).1 := by
  obtain ⟨ret, avl', hins, hI⟩ := avlInsert_spec alloc item avl h.valid
  have hcounted : Counted alloc item.toCString avl.root ↔
      item.toCString ∈ bag ∨ alloc.ok = true := by
    rw [Counted, h.entries, mem_keys_ofList]
  have hnull := hI.ret_null
  rw [h.root_eq_null_iff, hcounted] at hnull
  refine ⟨avl', ?_, hI.valid h.valid, ?_⟩
  · rw [hins]
    unfold Bag.insert
    rcases hI.ret_cases with rfl | rfl
    · split_ifs with hc hempty
      · rfl
      · exact absurd (hnull.2 ⟨hc, hempty⟩) (by decide)
      · rfl
    · rw [if_neg (hnull.1 rfl).1, if_pos (hnull.1 rfl).2]
  · unfold Bag.insert
    by_cases hc : item.toCString ∈ bag ∨ alloc.ok = true
    · rw [if_pos hc, hI.entries_eq (hcounted.2 hc), h.entries, ofList_snoc]
    · rw [if_neg hc, hI.unchanged (fun hC => hc (hcounted.1 hC)), h.entries]

theorem bytes_of_toItem {item : Item} (h : toItem arg = some item) : item.bytes = arg := by
  unfold toItem at h
  split_ifs at h
  rw [← Option.some.inj h]

theorem Counts.loadWords (world : World) (fuel : ℕ) (h : Counts avl bag) {word : CObject}
    (hword : word.bytes.length = n + 1) (hnul : (0 : UInt8) ∉ file) (calls : ℕ) :
    ∃ avl', loadWords world fuel word file calls avl =
        some (avl', (Bag.load world.alloc calls (items (kept (reads n fuel file))) bag).2) ∧
      Counts avl' (Bag.load world.alloc calls (items (kept (reads n fuel file))) bag).1 := by
  induction fuel generalizing file word calls avl bag with
  | zero => exact ⟨avl, rfl, h⟩
  | succ fuel ih =>
      obtain ⟨happ, hlen⟩ := fgets_append n file
      rw [reads, Words.loadWords, hword, Nat.add_sub_cancel]
      split_ifs with hnil
      · exact ⟨avl, rfl, h⟩
      · rw [← happ, List.mem_append, not_or] at hnul
        obtain ⟨word₁, word', hwrite, htrim, hstring, hsize⟩ :=
          window_eq (show (fgets n file).1.length + 1 ≤ word.bytes.length by omega) hnul.1
        simp only [hwrite, htrim, hstring, Option.bind_eq_bind, Option.bind_some]
        rw [kept_cons, items_append, items_piece]
        split_ifs with hblank
        · obtain ⟨item, hitem⟩ := exists_item (fun hm => hnul.1 (mem_of_mem_trim hm)) hblank
          obtain ⟨avl₁, hins, h₁⟩ := h.insert (world.alloc calls) item
          have hitems : items [trim (fgets n file).1] = [item] := by simp [items, hitem]
          simp only [hitem, hins, hitems, List.singleton_append, Bag.load, Option.bind_some]
          split_ifs with hret
          · exact ⟨avl₁, by rw [bytes_of_toItem hitem], h₁⟩
          · exact ih h₁ (hsize.trans hword) hnul.2 (calls + 1)
        · rw [not_not] at hblank
          rw [hblank]
          simpa [items, toItem_nil] using ih h (hsize.trans hword) hnul.2 calls

theorem Counts.load (h : Counts avl bag) (hnul : (0 : UInt8) ∉ file)
    (hopen : world.fopen arg = some file) :
    ∃ avl', Words.load world avl arg =
        some ⟨0, avl', (Bag.load world.alloc 0 (Bag.fileItems file) bag).2⟩ ∧
      Counts avl' (Bag.load world.alloc 0 (Bag.fileItems file) bag).1 := by
  have hword : word.bytes.length = window + 1 := List.length_replicate
  obtain ⟨avl', hloop, h'⟩ := h.loadWords world file.length hword hnul 0
  rw [kept_reads (by decide) le_rfl] at hloop h'
  exact ⟨avl', by simp [Words.load, hopen, hloop, Bag.fileItems], h'⟩

/-- A command that takes an argument is called with one. -/
theorem exists_toItem {s : List UInt8} (hs : (0 : UInt8) ∉ s)
    (hfnc : (verdict (faced cmds s) s).1 = some .insert ∨
      (verdict (faced cmds s) s).1 = some .exists_) :
    ∃ item, toItem (argument (faced cmds s) s) = some item := by
  have hargc : ∀ c ∈ cmds, c.fnc = .insert ∨ c.fnc = .exists_ → c.argc ≠ 0 := by decide
  cases hfaced : faced cmds s with
  | none =>
      rw [hfaced] at hfnc
      exact absurd hfnc (by simp [verdict])
  | some c =>
      have hc : c ∈ cmds := List.mem_of_find?_eq_some hfaced
      rw [hfaced, verdict, Cmd.chosen] at hfnc
      rw [argument]
      refine exists_item (fun hm => hs (List.mem_of_mem_drop (mem_of_mem_trim hm))) fun harg => ?_
      by_cases hbad : (c.argc ≠ 0 ∧ c.arg s = []) ∨ (c.argc = 0 ∧ c.arg s ≠ [])
      · simp [hbad] at hfnc
      · simp only [hbad, if_false, Option.some.injEq] at hfnc
        exact hbad (Or.inl ⟨hargc c hc hfnc, harg⟩)

/-- **A command answers as the bag does.** -/
theorem Counts.perform (h : Counts avl bag)
    (htext : ∀ name file, world.fopen name = some file → (0 : UInt8) ∉ file) (f : Option Fnc)
    (hitem : f = some .insert ∨ f = some .exists_ → ∃ item, toItem arg = some item) :
    ∃ avl', Words.perform world avl arg f = some ⟨(Bag.perform world bag arg f).2.ret, avl',
        (Bag.perform world bag arg f).2.out⟩ ∧ Counts avl' (Bag.perform world bag arg f).1 := by
  have hA := h.answers
  cases f with
  | none => exact ⟨avl, rfl, h⟩
  | some f =>
      cases f with
      | quit => exact ⟨avl, rfl, h⟩
      | help => exact ⟨avl, rfl, h⟩
      | info =>
          refine ⟨avl, ?_, h⟩
          simp only [Words.perform, Fnc.call, Words.info, hA.items, hA.unique]
          rfl
      | list =>
          refine ⟨avl, ?_, h⟩
          simp only [Words.perform, Fnc.call, Words.list, avlTraverse, traverse_eq_foldl, h.entries]
          rfl
      | load =>
          cases hopen : world.fopen arg with
          | none => exact ⟨avl, by simp [Words.perform, Fnc.call, Words.load, Bag.perform, hopen],
              by simpa [Bag.perform, hopen] using h⟩
          | some file =>
              obtain ⟨avl', hload, h'⟩ := h.load (htext _ _ hopen) hopen
              exact ⟨avl', by simp [Words.perform, Fnc.call, hload, Bag.perform, hopen],
                by simpa [Bag.perform, hopen] using h'⟩
      | insert =>
          obtain ⟨item, hi⟩ := hitem (Or.inl rfl)
          obtain ⟨avl', hins, h'⟩ := h.insert (world.alloc 0) item
          exact ⟨avl', by simp [Words.perform, Fnc.call, Words.insert, Bag.perform, hi, hins],
            by simpa [Bag.perform, hi] using h'⟩
      | exists_ =>
          obtain ⟨item, hi⟩ := hitem (Or.inr rfl)
          refine ⟨avl, ?_, by simpa [Bag.perform, hi] using h⟩
          simp [Words.perform, Fnc.call, Words.exists_, Bag.perform, hi, hA.exists_eq]

end

/-- The line and the files that can be opened are text. -/
def Text (i : World × List UInt8) : Prop :=
  (0 : UInt8) ∉ i.2 ∧ ∀ name file, i.1.fopen name = some file → (0 : UInt8) ∉ file

theorem Counts.line (avl : Avl.State) (bag : Bag) (i : World × List UInt8) (h : Counts avl bag)
    (hi : Text i) : ∃ avl', Words.line avl i = some (avl', (Bag.line bag i).2) ∧
      Counts avl' (Bag.line bag i).1 := by
  obtain ⟨world, s⟩ := i
  obtain ⟨o', junk, -, -, -, -, hcall⟩ :=
    shellFnc_eq (o := ⟨s ++ [0], []⟩) (l := []) (r := []) (a := 0) rfl rfl hi.1
  obtain ⟨avl', hperform, h'⟩ := h.perform hi.2 (verdict (faced cmds s) s).1 (exists_toItem hi.1)
  refine ⟨avl', ?_, h'⟩
  simp only [Words.line, hcall, hperform, Option.map_some, Option.bind_eq_bind, Option.bind_some]
  rfl

theorem Counts.program (avl : Avl.State) (bag : Bag) (p : Bool × List (World × List UInt8))
    (h : Counts avl bag) (hp : ∀ i ∈ p.2, Text i) :
    ∃ avl', Words.program avl p = some (avl', (Bag.program bag p).2) ∧
      Counts avl' (Bag.program bag p).1 := by
  have hstart : Counts (if p.1 then Avl.State.empty else avl) (if p.1 then [] else bag) := by
    split_ifs
    · exact counts_empty
    · exact h
  exact Machine.run_refines Counts.line p.2 _ _ hstart hp

/-- **The words program is a bag of words.** Over any number of runs of the program, with any lines
    and any files that are free of NUL, and whichever allocations fail, every line is answered as the
    bag answers it, which is told what is lost. No access is outside its object and no assertion
    fails. -/
theorem programs_refine (ps : List (Bool × List (World × List UInt8)))
    (hps : ∀ p ∈ ps, ∀ i ∈ p.2, Text i) :
    ∃ avl, Machine.run program (fun _ => false) Avl.State.empty ps =
        some (avl, (Machine.runSpec Bag.program (fun _ => false) [] ps).2) ∧
      Counts avl (Machine.runSpec Bag.program (fun _ => false) [] ps).1 :=
  Machine.run_refines Counts.program ps _ _ counts_empty hps

/-- Two runs: `insert a`, and then `exists a`. -/
def twoPrograms : List (Bool × List (World × List UInt8)) :=
  [(true, [(worldOf [98], ascii "insert a")]), (false, [(worldOf [98], ascii "exists a")])]

theorem programs_refine_two :
    ∃ avl, Machine.run program (fun _ => false) Avl.State.empty twoPrograms =
        some (avl, (Machine.runSpec Bag.program (fun _ => false) [] twoPrograms).2) ∧
      Counts avl (Machine.runSpec Bag.program (fun _ => false) [] twoPrograms).1 :=
  programs_refine twoPrograms (by
    intro p hp i hi
    rcases List.mem_pair.1 hp with rfl | rfl <;> rcases List.mem_singleton.1 hi with rfl
    · exact ⟨by decide, fun _ _ h => by rw [← Option.some.inj h]; decide⟩
    · exact ⟨by decide, fun _ _ h => by rw [← Option.some.inj h]; decide⟩)

end CS238P.Words
