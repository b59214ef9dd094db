import CS238P.Words.Model
import CS238P.Avl.Multiset
import CS238P.Shell.Trim

set_option autoImplicit false

/-! # What `load` inserts

`load` reads a line with `fgets` into a buffer of 256 bytes, so that a longer line comes in windows
of 255 bytes. Each window is trimmed and inserted on its own. A line is inserted as a whole exactly
when the characters of it that are no white space lie in one window. -/

namespace CS238P.Words

open CObject Avl Shell Windows

/-! ## What is read -/

/-- What the successive calls of `fgets` take. -/
def reads (n : ℕ) : ℕ → List UInt8 → List (List UInt8)
  | 0, _ => []
  | fuel + 1, file =>
    let r := fgets n file
    if r.1 = [] then [] else r.1 :: reads n fuel r.2

/-- The lines of a file. Behind the last newline there is one more, which may be empty. -/
def lines (file : List UInt8) : List (List UInt8) := file.splitOn 10

variable {n fuel : ℕ} {c file rest : List UInt8}

theorem lines_last (hc : (10 : UInt8) ∉ c) : lines c = [c] := by
  refine List.splitOnP_eq_singleton (fun x hx => ?_)
  rw [beq_eq_false_iff_ne]
  exact fun h => hc (h ▸ hx)

theorem lines_newline (hc : (10 : UInt8) ∉ c) (rest : List UInt8) :
    lines (c ++ 10 :: rest) = c :: lines rest := by
  refine List.splitOnP_append_cons_of_forall_mem (fun x hx => ?_) 10 (by decide) rest
  rw [beq_eq_false_iff_ne]
  exact fun h => hc (h ▸ hx)

/-- The first line of a file, and what follows it. -/
theorem exists_line (file : List UInt8) :
    ∃ c, (10 : UInt8) ∉ c ∧ (file = c ∨ ∃ rest, file = c ++ 10 :: rest) := by
  by_cases h : (10 : UInt8) ∈ file
  · obtain ⟨c, rest, hfile, hc⟩ := List.eq_append_cons_of_mem h
    exact ⟨c, hc, Or.inr ⟨rest, hfile⟩⟩
  · exact ⟨file, h, Or.inl rfl⟩

/-- A window that does not reach the end of the line. -/
theorem fgets_long (hc : (10 : UInt8) ∉ c) (hn : n ≤ c.length) (rest : List UInt8) :
    fgets n (c ++ rest) = (c.take n, c.drop n ++ rest) := by
  induction n generalizing c with
  | zero => simp [fgets]
  | succ n ih =>
      cases c with
      | nil => simp at hn
      | cons b c =>
          obtain ⟨hb, hc⟩ := not_or.1 (List.mem_cons.not.1 hc)
          rw [List.cons_append, fgets, if_neg (Ne.symm hb), ih hc (by simpa using hn)]
          rfl

/-- The last window of a line. -/
theorem fgets_newline (hc : (10 : UInt8) ∉ c) (hn : c.length < n) (rest : List UInt8) :
    fgets n (c ++ 10 :: rest) = (c ++ [10], rest) := by
  induction c generalizing n with
  | nil =>
      obtain ⟨n, rfl⟩ : ∃ k, n = k + 1 := ⟨n - 1, by simp at hn; omega⟩
      rw [List.nil_append, fgets, if_pos rfl]
      rfl
  | cons b c ih =>
      obtain ⟨n, rfl⟩ : ∃ k, n = k + 1 := ⟨n - 1, by simp at hn; omega⟩
      obtain ⟨hb, hc⟩ := not_or.1 (List.mem_cons.not.1 hc)
      rw [List.cons_append, fgets, if_neg (Ne.symm hb), ih hc (by simpa using hn)]
      rfl

/-- The last window of a file that does not end in a newline. -/
theorem fgets_last (hc : (10 : UInt8) ∉ c) (hn : c.length < n) : fgets n c = (c, []) := by
  induction c generalizing n with
  | nil => cases n <;> rfl
  | cons b c ih =>
      obtain ⟨n, rfl⟩ : ∃ k, n = k + 1 := ⟨n - 1, by simp at hn; omega⟩
      obtain ⟨hb, hc⟩ := not_or.1 (List.mem_cons.not.1 hc)
      rw [fgets, if_neg (Ne.symm hb), ih hc (by simpa using hn)]

theorem reads_nil (n fuel : ℕ) : reads n fuel [] = [] := by
  cases fuel with
  | zero => rfl
  | succ fuel => cases n <;> rfl

/-- What is left of the windows that were read. -/
def kept (ws : List (List UInt8)) : List (List UInt8) :=
  (ws.map trim).filter (fun w => !w.isEmpty)

theorem kept_cons (w : List UInt8) (ws : List (List UInt8)) :
    kept (w :: ws) = piece isspace w ++ kept ws := by
  rw [kept, List.map_cons, ← List.singleton_append, List.filter_append]
  rfl

theorem piece_newline (c : List UInt8) : piece isspace (c ++ [10]) = piece isspace c := by
  rw [piece, strip_append_right (by decide), piece]

theorem pieces_short (h : c.length ≤ n) (hn : 0 < n) :
    pieces n isspace c = piece isspace c := by
  by_cases hnil : c = []
  · rw [hnil, pieces_nil]
    rfl
  · rw [pieces_cons hn hnil, List.take_of_length_le h, List.drop_of_length_le h, pieces_nil,
      List.append_nil]

/-- **What is read**: the windows of each line. -/
theorem kept_reads (hn : 0 < n) (hfuel : file.length ≤ fuel) :
    kept (reads n fuel file) = (lines file).flatMap (pieces n isspace) := by
  induction fuel generalizing file with
  | zero =>
      obtain rfl : file = [] := List.eq_nil_of_length_eq_zero (by omega)
      rw [lines_last (by simp)]
      simp [reads, kept, pieces_nil]
  | succ fuel ih =>
      obtain ⟨c, hc, hfile⟩ := exists_line file
      have hdrop : (10 : UInt8) ∉ c.drop n := fun h => hc (List.mem_of_mem_drop h)
      rw [reads]
      by_cases hlong : n ≤ c.length
      · -- one window of the first line
        have hne : c ≠ [] := List.ne_nil_of_length_pos (by omega)
        have htake : c.take n ≠ [] := by
          simp [hne]
          omega
        rcases hfile with rfl | ⟨rest, rfl⟩
        · have hget := fgets_long hc hlong []
          rw [List.append_nil, List.append_nil] at hget
          rw [hget]
          simp only
          rw [if_neg htake, kept_cons, ih (by rw [List.length_drop]; omega), lines_last hdrop,
            lines_last hc, List.flatMap_singleton, List.flatMap_singleton, pieces_cons hn hne]
        · rw [fgets_long hc hlong]
          simp only
          rw [List.length_append] at hfuel
          rw [if_neg htake, kept_cons, ih (by rw [List.length_append, List.length_drop]; omega),
            lines_newline hdrop, lines_newline hc, List.flatMap_cons, List.flatMap_cons,
            pieces_cons hn hne, List.append_assoc]
      · -- the rest of the first line
        rw [Nat.not_le] at hlong
        rcases hfile with rfl | ⟨rest, rfl⟩
        · rw [fgets_last hc hlong, lines_last hc, List.flatMap_singleton,
            pieces_short hlong.le hn]
          simp only
          split_ifs with hnil
          · rw [hnil]
            rfl
          · rw [reads_nil, kept_cons]
            simp [kept]
        · rw [List.length_append, List.length_cons] at hfuel
          rw [fgets_newline hc hlong, lines_newline hc, List.flatMap_cons,
            pieces_short hlong.le hn]
          simp only
          rw [if_neg (by simp), kept_cons, piece_newline, ih (by omega)]

/-! ## What is inserted -/

/-- The items of a list of strings; the empty string is none. -/
def items (ws : List (List UInt8)) : List Item := ws.filterMap toItem

theorem toItem_nil : toItem [] = none := by
  simp [toItem]

theorem exists_item {s : List UInt8} (hnul : (0 : UInt8) ∉ s) (hs : s ≠ []) :
    ∃ item, toItem s = some item := ⟨_, dif_pos ⟨hnul, hs⟩⟩

theorem items_append (vs ws : List (List UInt8)) : items (vs ++ ws) = items vs ++ items ws :=
  List.filterMap_append

theorem items_piece (w : List UInt8) : items (piece isspace w) = items [trim w] := by
  by_cases h : trim w = []
  · have hp : piece isspace w = [] := piece_eq_nil_iff.2 h
    simp [hp, h, items, toItem_nil]
  · have hp : piece isspace w = [trim w] := by
      have hstrip : strip isspace w ≠ [] := h
      simp [piece, hstrip]
      rfl
    rw [hp]

theorem kept_eq_flatMap (ws : List (List UInt8)) : kept ws = ws.flatMap (piece isspace) := by
  induction ws with
  | nil => rfl
  | cons w ws ih => rw [kept_cons, ih, List.flatMap_cons]

theorem items_kept (ws : List (List UInt8)) : items (kept ws) = items (ws.map trim) := by
  induction ws with
  | nil => rfl
  | cons w ws ih => rw [kept_cons, items_append, items_piece, ih, ← items_append]; rfl

/-- The trimmed lines that are not blank. -/
def lineItems (file : List UInt8) : List Item := items ((lines file).map trim)

/-! ## The loop -/

theorem fgets_append (n : ℕ) (file : List UInt8) :
    (fgets n file).1 ++ (fgets n file).2 = file ∧ (fgets n file).1.length ≤ n := by
  induction n generalizing file with
  | zero => simp [fgets]
  | succ n ih =>
      cases file with
      | nil => simp [fgets]
      | cons c file =>
          obtain ⟨happ, hlen⟩ := ih file
          rw [fgets]
          split_ifs with hc
          · simp
          · simp [happ, hlen]

/-- One window: the buffer holds it trimmed. -/
theorem window_eq {word : CObject} {w : List UInt8} (hword : w.length + 1 ≤ word.bytes.length)
    (hnul : (0 : UInt8) ∉ w) :
    ∃ word₁ word', word.write 0 (w ++ [0]) = some word₁ ∧ strtrim word₁ 0 = some word' ∧
      word'.string 0 = some (trim w) ∧ word'.bytes.length = word.bytes.length := by
  have hsplit : word.bytes = [] ++ (word.bytes.take (w.length + 1) ++
      word.bytes.drop (w.length + 1)) := by simp
  have hwrite : word.write 0 (w ++ [0]) = some ⟨[] ++ ((w ++ [0]) ++
      word.bytes.drop (w.length + 1)), word.written ++ span 0 (w ++ [0]).length⟩ :=
    write_mid hsplit rfl (by simp; omega)
  obtain ⟨junk, written, htrim, hlen⟩ := strtrim_eq
    (o := ⟨[] ++ ((w ++ [0]) ++ word.bytes.drop (w.length + 1)),
      word.written ++ span 0 (w ++ [0]).length⟩) (l := []) (s := w)
    (r := word.bytes.drop (w.length + 1)) (a := 0) (by simp) rfl hnul
  refine ⟨_, _, hwrite, htrim, string_mid (l := []) rfl rfl (fun hm => hnul (mem_of_mem_trim hm)),
    ?_⟩
  simp
  omega

variable {world : World} {avl : Avl.State}

theorem alloc_eq {alloc : Alloc} (h : alloc.ok = true) : alloc = ⟨true, true⟩ := by
  obtain ⟨malloc, strdup⟩ := alloc
  simpa [Alloc.ok] using h

/-- An insertion whose allocations succeed returns 0. -/
theorem avlInsert_ok (item : Item) (h : Valid avl) :
    ∃ avl', avlInsert ⟨true, true⟩ avl item = some (0, avl') ∧ Valid avl' := by
  obtain ⟨ret, avl', hins, hI⟩ := avlInsert_spec ⟨true, true⟩ item avl h
  have hcounted : Counted ⟨true, true⟩ item.toCString avl.root := Or.inr rfl
  obtain rfl : ret = 0 := hI.ret_cases.resolve_right fun hr => (hI.ret_null.1 hr).1 hcounted
  exact ⟨avl', hins, hI.valid h⟩

/-- **What `load` does**: it inserts what is left of the windows, in order. -/
theorem loadWords_eq (halloc : ∀ k, (world.alloc k).ok = true) {word : CObject}
    (hword : word.bytes.length = n + 1) (hnul : (0 : UInt8) ∉ file) (h : Valid avl) (calls : ℕ) :
    ∃ avl', run avl (inserts (items (kept (reads n fuel file)))) = some avl' ∧
      loadWords world fuel word file calls avl = some (avl', []) := by
  induction fuel generalizing file word calls avl with
  | zero => exact ⟨avl, rfl, rfl⟩
  | succ fuel ih =>
      obtain ⟨happ, hlen⟩ := fgets_append n file
      rw [reads, loadWords, hword, Nat.add_sub_cancel]
      split_ifs with hnil
      · exact ⟨avl, rfl, rfl⟩
      · rw [← happ, List.mem_append, not_or] at hnul
        obtain ⟨word₁, word', hwrite, htrim, hstring, hsize⟩ :=
          window_eq (show (fgets n file).1.length + 1 ≤ word.bytes.length by omega) hnul.1
        simp only [hwrite, htrim, hstring, Option.bind_eq_bind, Option.bind_some]
        rw [kept_cons, items_append, items_piece]
        split_ifs with hblank
        · obtain ⟨item, hitem⟩ := exists_item (fun hm => hnul.1 (mem_of_mem_trim hm)) hblank
          obtain ⟨avl₁, hins, hvalid⟩ := avlInsert_ok item h
          obtain ⟨avl', hrun, hloop⟩ := ih (hsize.trans hword) hnul.2 hvalid (calls + 1)
          refine ⟨avl', ?_, ?_⟩
          · simpa [items, hitem, inserts, run, hins] using hrun
          · simpa [hitem, alloc_eq (halloc calls), hins] using hloop
        · rw [not_not] at hblank
          rw [hblank]
          simpa [items, toItem_nil] using ih (hsize.trans hword) hnul.2 h calls

/-! ## Lines and windows -/

/-- What `load` should insert: each line that is not blank, trimmed and once, in order, and nothing
    else. -/
structure LoadsLines (file : List UInt8) (avl avl' : Avl.State) : Prop where
  run : run avl (inserts (lineItems file)) = some avl'
  items : avlItems avl' = avlItems avl + (lineItems file).length
  exists_ : ∀ item : Item, avlExists avl' item =
    avlExists avl item + ((lineItems file).map Item.toCString).count item.toCString

/-- `load` of the file `s` returns, and has inserted its lines. -/
def Loads (world : World) (avl : Avl.State) (s file : List UInt8) : Prop :=
  ∃ out, load world avl s = some out ∧ out.ret = 0 ∧ LoadsLines file avl out.avl

/-- The bytes the buffer takes from a file at once. -/
def window : ℕ := 255

theorem length_items {ws : List (List UInt8)} (h : ∀ w ∈ ws, (0 : UInt8) ∉ w ∧ w ≠ []) :
    (items ws).length = ws.length := by
  induction ws with
  | nil => rfl
  | cons w ws ih =>
      obtain ⟨hnul, hne⟩ := h w (by simp)
      obtain ⟨item, hitem⟩ := exists_item hnul hne
      have := ih (fun w hw => h w (List.mem_cons_of_mem _ hw))
      simpa [items, hitem] using this

theorem lineItems_eq (file : List UInt8) :
    lineItems file = items ((lines file).flatMap (piece isspace)) := by
  rw [lineItems, ← items_kept, kept_eq_flatMap]

/-- If the lines come out in no more pieces than there are lines, each of them comes out whole. -/
theorem within_of_length {ls : List (List UInt8)} (hn : 0 < n)
    (h : (ls.flatMap (pieces n isspace)).length ≤ (ls.flatMap (piece isspace)).length) :
    ∀ l ∈ ls, Within n isspace l := by
  have hle (ls : List (List UInt8)) :
      (ls.flatMap (piece isspace)).length ≤ (ls.flatMap (pieces n isspace)).length := by
    induction ls with
    | nil => simp
    | cons l ls ih =>
        have := length_piece_le_length_pieces (p := isspace) hn l
        simp only [List.flatMap_cons, List.length_append]
        omega
  induction ls with
  | nil => simp
  | cons l ls ih =>
      have hl := length_piece_le_length_pieces (p := isspace) hn l
      have hls := hle ls
      simp only [List.flatMap_cons, List.length_append] at h
      simp only [List.forall_mem_cons]
      exact ⟨within_of_length_pieces hn (by omega), ih (by omega)⟩

theorem mem_kept_reads (hnul : (0 : UInt8) ∉ file) :
    ∀ w ∈ kept (reads n fuel file), (0 : UInt8) ∉ w ∧ w ≠ [] := by
  induction fuel generalizing file with
  | zero => simp [reads, kept]
  | succ fuel ih =>
      obtain ⟨happ, -⟩ := fgets_append n file
      rw [← happ, List.mem_append, not_or] at hnul
      intro w hw
      rw [reads] at hw
      split_ifs at hw with hnil
      · simp [kept] at hw
      · rw [kept_cons, List.mem_append] at hw
        rcases hw with hw | hw
        · obtain ⟨hmem, hne⟩ := List.mem_filter.1 hw
          rw [List.mem_singleton.1 hmem]
          exact ⟨fun hm => hnul.1 (mem_of_mem_trim hm), by simpa [List.mem_singleton.1 hmem] using hne⟩
        · exact ih hnul.2 w hw

section

variable {s : List UInt8}

theorem load_eq (h : Valid avl) (hopen : world.fopen s = some file)
    (halloc : ∀ k, (world.alloc k).ok = true) (hnul : (0 : UInt8) ∉ file) :
    ∃ avl', run avl (inserts (items ((lines file).flatMap (pieces window isspace)))) = some avl' ∧
      load world avl s = some ⟨0, avl', []⟩ := by
  have hword : word.bytes.length = window + 1 := List.length_replicate
  obtain ⟨avl', hrun, hloop⟩ : ∃ avl',
      run avl (inserts (items (kept (reads window file.length file)))) = some avl' ∧
        loadWords world file.length word file 0 avl = some (avl', []) :=
    loadWords_eq halloc hword hnul h 0
  rw [kept_reads (by decide) le_rfl] at hrun
  exact ⟨avl', hrun, by simp [load, hopen, hloop]⟩

/-- More words are counted than there are lines, unless each line lies in one window. -/
theorem within_of_loads (h : Valid avl) (hopen : world.fopen s = some file)
    (halloc : ∀ k, (world.alloc k).ok = true) (hnul : (0 : UInt8) ∉ file)
    (hloads : Loads world avl s file) : ∀ l ∈ lines file, Within window isspace l := by
  obtain ⟨avl', hrun, hload⟩ := load_eq h hopen halloc hnul
  obtain ⟨out, hout, -, hlines⟩ := hloads
  obtain rfl := Option.some.inj (hload.symm.trans hout)
  have hitems := (run_inserts_answers _ _ _ h hrun).1
  have hsame : avlItems avl' = avlItems avl + (lineItems file).length := hlines.items
  have hpieces : (items (kept (reads window file.length file))).length = _ :=
    length_items (mem_kept_reads hnul)
  have hlen : (lineItems file).length ≤ ((lines file).flatMap (piece isspace)).length := by
    rw [lineItems_eq]
    exact List.length_filterMap_le _ _
  rw [kept_reads (by decide) le_rfl] at hpieces
  exact within_of_length (by decide) (by omega)

/-- **When `load` inserts the lines**: exactly when on every line the characters that are no white
    space lie in one of its windows. -/
theorem loads_iff_within (h : Reachable avl) (hopen : world.fopen s = some file)
    (halloc : ∀ k, (world.alloc k).ok = true) (hnul : (0 : UInt8) ∉ file) :
    Loads world avl s file ↔ ∀ l ∈ lines file, Within window isspace l := by
  refine ⟨within_of_loads h.valid hopen halloc hnul, fun hwithin => ?_⟩
  obtain ⟨avl', hrun, hload⟩ := load_eq h.valid hopen halloc hnul
  have hwhole : (lines file).flatMap (pieces window isspace) =
      (lines file).flatMap (piece isspace) :=
    List.flatMap_congr fun l hl => pieces_of_within (by decide) (hwithin l hl)
  rw [hwhole, ← lineItems_eq] at hrun
  obtain ⟨hitems, hexists⟩ := run_inserts_answers _ _ _ h.valid hrun
  exact ⟨_, hload, rfl, hrun, hitems, hexists⟩

end

/-- A file system with one file, and memory for everything. -/
def worldOf (file : List UInt8) : World := ⟨fun _ => some file, fun _ => ⟨true, true⟩, 0, 0⟩

theorem loads_iff_within_words :
    Loads (worldOf [97, 10, 98]) Avl.State.empty [] [97, 10, 98] ↔
      ∀ l ∈ lines [97, 10, 98], Within window isspace l :=
  loads_iff_within ⟨[], rfl⟩ rfl (fun _ => rfl) (by decide)

/-- A line of 256 characters comes out in two words. -/
theorem long_line_not_loads :
    ¬ ∀ (world : World) (avl : Avl.State) (s file : List UInt8), Reachable avl →
      world.fopen s = some file → (∀ k, (world.alloc k).ok = true) → (0 : UInt8) ∉ file →
        Loads world avl s file := by
  intro h
  have hmem {b : UInt8} (hb : b ≠ 97) : b ∉ List.replicate 256 (97 : UInt8) :=
    fun hm => hb (List.eq_of_mem_replicate hm)
  have hget {i : ℕ} (hi : i < 256) : (List.replicate 256 (97 : UInt8))[i]? = some 97 :=
    List.getElem?_replicate_of_lt hi
  have hnul := hmem (b := 0) (by decide)
  have hloads := h (worldOf (List.replicate 256 97)) Avl.State.empty [] _ ⟨[], rfl⟩ rfl
    (fun _ => rfl) hnul
  have hwithin := within_of_loads valid_empty rfl (fun _ => rfl) hnul hloads
  rw [lines_last (hmem (by decide))] at hwithin
  have := hwithin _ (List.mem_singleton_self _) 0 255 97 97 (hget (by decide)) (by decide)
    (hget (by decide)) (by decide)
  exact absurd this (by decide)

end CS238P.Words
