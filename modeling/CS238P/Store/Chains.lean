import CS238P.Store.Interface

set_option autoImplicit false

/-! # The chains on the log

What the links of the records form, read off the bytes of the log alone: `Chain` follows them from
an offset, and `RecordAt` says that a record starts somewhere. In every reachable state the slots of
the index are the heads of chains of records with the slot's hash, every record is on one of them,
and no call finds the log corrupt or goes on for ever. -/

namespace CS238P.Store

/-- The record `r` starts at `off`, behind other records. -/
def RecordAt (l : List UInt8) (off : UInt64) (r : Rec) (link : UInt64) : Prop :=
  ∃ before rs after, LogRecords before rs ∧ r.Ok ∧
    l = before ++ (recordBytes r.key r.val link ++ after) ∧ off.toNat = before.length

/-- From `off` the links lead over `offs` to zero; at each of them `read_meta` accepts a record. -/
inductive Chain (kvraw : Kvraw) (l : List UInt8) : UInt64 → List UInt64 → Prop
  | stop : Chain kvraw l 0 []
  | next {off : UInt64} {m : Meta} {offs : List UInt64} (hoff : off ≠ 0)
      (hm : kvraw.metaView l off = .ok m) (more : Chain kvraw l m.off offs) :
      Chain kvraw l off (off :: offs)

/-- A chain of records with one hash, from the newest to the oldest. -/
structure SlotChain (hash : List UInt8 → UInt64) (kvraw : Kvraw) (l : List UInt8) (h off : UInt64)
    (offs : List UInt64) : Prop where
  walk : Chain kvraw l off offs
  decreasing : offs.Pairwise (· > ·)
  records : ∀ o ∈ offs, ∃ r link, RecordAt l o r link ∧ hashKey hash r.key = h ∧
    kvraw.metaView l o = .ok (appendMeta r.key r.val link) ∧
    o.toNat + (recordBytes r.key r.val link).length ≤ kvraw.size.toNat

theorem Chain.unique {kvraw : Kvraw} {l : List UInt8} {off : UInt64} {offs offs' : List UInt64}
    (h : Chain kvraw l off offs) (h' : Chain kvraw l off offs') : offs = offs' := by
  induction h generalizing offs' with
  | stop =>
      cases h' with
      | stop => rfl
      | next hoff _ _ => exact absurd rfl hoff
  | next hoff hm _ ih =>
      cases h' with
      | stop => exact absurd rfl hoff
      | next _ hm' more =>
          obtain rfl := Except.ok.inj (hm.symm.trans hm')
          rw [ih more]

/-- A search ends on a chain, whatever key it is for. -/
theorem Chain.chainView {kvraw : Kvraw} {l : List UInt8} {off : UInt64} {offs : List UInt64}
    (h : Chain kvraw l off offs) (key : List UInt8) (valLen : UInt64) :
    ∀ {n : ℕ} (val : Option (List UInt8)), offs.length < n →
      ∃ out, Store.chainView kvraw l key valLen n val off = .ok out := by
  induction h with
  | stop =>
      intro n val hn
      obtain ⟨n, rfl⟩ : ∃ m, n = m + 1 := ⟨n - 1, by omega⟩
      exact ⟨_, if_pos rfl⟩
  | next hoff hm _ ih =>
      intro n val hn
      rw [List.length_cons] at hn
      obtain ⟨n, rfl⟩ : ∃ m, n = m + 1 := ⟨n - 1, by omega⟩
      rw [Store.chainView, if_neg hoff, hm]
      simp only
      split
      · exact ⟨_, rfl⟩
      · exact ih _ (by omega)

/-! ## The chains of a history -/

section History

variable (hash : List UInt8 → UInt64)

/-- The offsets of the records with the hash `h`, newest first. -/
def offsets : List Rec → UInt64 → List UInt64
  | [], _ => []
  | r :: older, h =>
      if hashKey hash r.key = h then .ofNat (endOff older) :: offsets older h else offsets older h

variable {hash}

theorem length_offsets_le (hash : List UInt8 → UInt64) (recs : List Rec) (h : UInt64) :
    (offsets hash recs h).length ≤ recs.length := by
  induction recs with
  | nil => exact Nat.le_refl _
  | cons r older ih =>
      rw [offsets, List.length_cons]
      split
      · rw [List.length_cons]
        omega
      · omega

theorem offsets_lt {recs : List Rec} (hend : endOff recs < 2 ^ 63) {h o : UInt64}
    (ho : o ∈ offsets hash recs h) : o.toNat < endOff recs := by
  induction recs with
  | nil => cases ho
  | cons r older ih =>
      rw [endOff] at hend ⊢
      rw [offsets] at ho
      split at ho
      · rcases List.mem_cons.1 ho with rfl | ho
        · rw [toNat_endOff (by omega)]
          omega
        · have := ih (by omega) ho
          omega
      · have := ih (by omega) ho
        omega

theorem offsets_decreasing {recs : List Rec} (hend : endOff recs < 2 ^ 63) (h : UInt64) :
    (offsets hash recs h).Pairwise (· > ·) := by
  induction recs with
  | nil => exact .nil
  | cons r older ih =>
      rw [endOff] at hend
      rw [offsets]
      split
      · refine .cons (fun o ho => ?_) (ih (by omega))
        show o < _
        rw [UInt64.lt_iff_toNat_lt, toNat_endOff (by omega)]
        exact offsets_lt (by omega) ho
      · exact ih (by omega)

/-- Records with different hashes are on different chains. -/
theorem offsets_disjoint {recs : List Rec} (hend : endOff recs < 2 ^ 63) {h h' o : UInt64}
    (ho : o ∈ offsets hash recs h) (ho' : o ∈ offsets hash recs h') : h = h' := by
  induction recs with
  | nil => cases ho
  | cons r older ih =>
      rw [endOff] at hend
      -- the newest record is behind those of the older ones
      have hnew : ∀ k, UInt64.ofNat (endOff older) ∉ offsets hash older k := fun k hk => by
        have := offsets_lt (by omega) hk
        rw [toNat_endOff (by omega)] at this
        omega
      rw [offsets] at ho ho'
      split at ho <;> split at ho'
      · rename_i hb hb'
        rw [← hb, hb']
      · rcases List.mem_cons.1 ho with rfl | ho
        · exact absurd ho' (hnew _)
        · exact ih (by omega) ho ho'
      · rcases List.mem_cons.1 ho' with rfl | ho'
        · exact absurd ho (hnew _)
        · exact ih (by omega) ho ho'
      · exact ih (by omega) ho ho'

theorem mem_offsets_append (newer : List Rec) (r : Rec) (older : List Rec) :
    UInt64.ofNat (endOff older) ∈ offsets hash (newer ++ r :: older) (hashKey hash r.key) := by
  induction newer with
  | nil =>
      rw [List.nil_append, offsets, if_pos rfl]
      exact List.mem_cons_self
  | cons r' newer ih =>
      rw [List.cons_append, offsets]
      split
      · exact List.mem_cons_of_mem _ ih
      · exact ih

/-- The head of a chain that is not empty is what the index has. -/
theorem newest_ne_zero {recs : List Rec} (hend : endOff recs < 2 ^ 63) {h o : UInt64}
    (ho : o ∈ offsets hash recs h) : newest hash recs h ≠ 0 := by
  induction recs with
  | nil => cases ho
  | cons r older ih =>
      rw [endOff] at hend
      rw [offsets] at ho
      rw [newest]
      split at ho
      · rename_i hb
        rw [if_pos hb]
        exact endOff_ne_zero (by omega)
      · rename_i hb
        rw [if_neg hb]
        exact ih (by omega) ho

/-- **The links of a history** lead over the records with the same hash. -/
theorem slotChain_history {junk : UInt64} {kvraw : Kvraw} (hsize : kvraw.size.toNat < 2 ^ 63)
    (h : UInt64) {recs : List Rec} : ∀ post : List UInt8, (∀ r ∈ recs, r.Ok) →
      endOff recs ≤ kvraw.size.toNat →
      SlotChain hash kvraw (history hash junk recs ++ post) h (newest hash recs h)
        (offsets hash recs h) := by
  induction recs with
  | nil =>
      intro post _ _
      exact ⟨.stop, .nil, fun o ho => by cases ho⟩
  | cons r older ih =>
      intro post hok hle
      have hok' : ∀ r ∈ older, r.Ok := fun r' h => hok r' (List.mem_cons_of_mem _ h)
      have hr := hok r List.mem_cons_self
      have hdec : (offsets hash (r :: older) h).Pairwise (· > ·) :=
        offsets_decreasing (by omega) h
      rw [endOff] at hle
      rw [offsets] at hdec ⊢
      rw [newest, history, List.append_assoc]
      have holder := ih (recordBytes r.key r.val (newest hash older (hashKey hash r.key)) ++ post)
        hok' (by omega)
      split
      · rename_i hb
        have hoff : (UInt64.ofNat (endOff older)).toNat = (history hash junk older).length := by
          rw [toNat_endOff (by omega), length_history]
        have hfits : (history hash junk older).length +
            (recordBytes r.key r.val (newest hash older (hashKey hash r.key))).length ≤
              kvraw.size.toNat := by
          rw [length_history, length_recordBytes]
          omega
        obtain ⟨hmeta, -, -⟩ := view_record kvraw (newest hash older (hashKey hash r.key)) post
          hr.1.2 hr.2 hoff hfits
        rw [if_pos hb] at hdec
        -- the record is the head, and its link is the head of the older ones
        refine ⟨.next (endOff_ne_zero (by omega)) hmeta ?_, hdec, fun o ho => ?_⟩
        · show Chain _ _ (newest hash older (hashKey hash r.key)) _
          rw [hb] at holder ⊢
          exact holder.walk
        · rcases List.mem_cons.1 ho with rfl | ho
          · exact ⟨r, _, ⟨_, _, _, logRecords_history hash junk hok', hr, rfl, hoff⟩, hb, hmeta,
              by rw [hoff]; exact hfits⟩
          · exact holder.records o ho
      · exact holder

/-- The same in a store. -/
theorem Shape.slotChain {junk : UInt64} {recs : List Rec} {kvdb : Kvdb} {l : List UInt8}
    (h : Shape hash junk recs kvdb l) (hlt : l.length < 2 ^ 63) (k : UInt64) :
    SlotChain hash kvdb.kvraw l k (newest hash recs k) (offsets hash recs k) := by
  have hsize := h.size
  have hlen := h.length_eq
  rw [h.log, ← List.append_nil (history hash junk recs)]
  exact slotChain_history (by omega) k [] h.ok (by omega)

/-- Logs with the same records are of one length. -/
theorem LogRecords.length_eq {l l' : List UInt8} {rs : List Rec} (h : LogRecords l rs)
    (h' : LogRecords l' rs) : l.length = l'.length := by
  induction h generalizing l' with
  | nil =>
      cases h'
      rfl
  | cons ok _ ih =>
      cases h' with
      | cons ok' more =>
          rw [List.length_append, List.length_append, length_recordBytes, length_recordBytes,
            ih more]

/-- **Every record of a history** but the first is on the chain of its hash. -/
theorem mem_offsets_of_recordAt {junk : UInt64} {recs : List Rec} (hok : ∀ r ∈ recs, r.Ok)
    {off : UInt64} {r : Rec} {link : UInt64} (h : RecordAt (history hash junk recs) off r link)
    (hoff : off ≠ 0) :
    off ∈ offsets hash recs (hashKey hash r.key) := by
  obtain ⟨before, rs, after, hbefore, hr, hl, hlen⟩ := h
  have hall := logRecords_history hash junk hok
  rw [hl] at hall
  obtain ⟨rs', hsplit, hrest⟩ := hbefore.of_append hall
  -- what is behind the record is cut off too
  obtain ⟨more, rfl, -⟩ := (LogRecords.single hr link).of_append hrest
  cases rs with
  | nil =>
      cases hbefore
      exact absurd (UInt64.toNat_inj.1 hlen) hoff
  | cons r₀ older =>
      rw [List.cons_append, List.singleton_append, List.cons.injEq] at hsplit
      obtain ⟨rfl, hsplit⟩ := hsplit
      have hrecs : recs = more.reverse ++ r :: older.reverse := by
        rw [← List.reverse_reverse recs, hsplit, List.reverse_append, List.reverse_cons,
          List.append_assoc, List.singleton_append]
      have holder : ∀ r' ∈ older.reverse, r'.Ok := fun r' hr' => hok r' (by
        rw [hrecs]
        exact List.mem_append_right _ (List.mem_cons_of_mem _ hr'))
      have hbytes := logRecords_history hash junk holder
      rw [List.reverse_reverse] at hbytes
      have hend' : before.length = endOff older.reverse := by
        rw [hbefore.length_eq hbytes, length_history]
      have : off = .ofNat (endOff older.reverse) := by
        rw [← hend', ← hlen, UInt64.ofNat_toNat]
      rw [this, hrecs]
      exact mem_offsets_append _ _ _

end History

/-! ## Reachable states -/

variable {σ : Type} {sys : Sys σ} {log : σ → List UInt8} {hash : List UInt8 → UInt64} {w : World σ}

/-- What is wanted of the log and the index of a state. -/
structure WellChained (sys : Sys σ) (log : σ → List UInt8) (hash : List UInt8 → UInt64)
    (w : World σ) : Prop where
  /-- the used slots are heads of chains -/
  chains : ∀ j ∈ w.kvdb.index.used, ∃ offs, SlotChain hash w.kvdb.kvraw (log w.sys)
    (w.kvdb.index.slotAt j).key (w.kvdb.index.slotAt j).off offs
  /-- a record that is not the first is on exactly one of them -/
  records : ∀ off r link, RecordAt (log w.sys) off r link → off ≠ 0 →
    ∃! j, j ∈ w.kvdb.index.used ∧
      ∃ offs, Chain w.kvdb.kvraw (log w.sys) (w.kvdb.index.slotAt j).off offs ∧ off ∈ offs
  /-- a search for any key ends, and `read_meta` accepts what it meets -/
  searches : ∀ j ∈ w.kvdb.index.used, ∀ (key : List UInt8) (val : Option (List UInt8))
    (valLen : UInt64), KeyOk key →
    wp (chainLookup sys w.kvdb.kvraw key val valLen (w.kvdb.index.slotAt j).off) (fun _ _ => True)
      (fun e _ => e ≠ .corruptData ∧ e ≠ .diverges) w.sys
  /-- so does every call -/
  calls : ∀ op : Op, wp (op.run sys hash) (fun _ _ => True)
    (fun e _ => e ≠ .corruptData ∧ e ≠ .diverges) w

theorem MayFail.ne {room bad : Prop} {e : Fail} (h : MayFail room bad e) :
    e ≠ .corruptData ∧ e ≠ .diverges := by
  rcases h with ⟨c, rfl⟩ | ⟨rfl, -⟩ | ⟨-, rfl | rfl⟩ <;> simp

/-- **The chains are well formed** in every state that is reached by calls that do not fail. -/
theorem wellChained_of_reachable (hsys : sys.Documented log) (h : Reachable sys hash w) :
    WellChained sys log hash w := by
  obtain ⟨junk, recs, hinv⟩ := h.inv hsys
  have hshape := hinv.shape
  have hlt := hsys.log_length w.sys
  have hend := hshape.endOff_lt hlt
  have hsize := hshape.size
  have hlen := hshape.length_eq
  have hchain := hshape.slotChain hlt
  have hslot : ∀ j ∈ w.kvdb.index.used, (w.kvdb.index.slotAt j).off =
      newest hash recs (w.kvdb.index.slotAt j).key := fun j hj => by
    rw [head_of_used hshape.index.toTidy hj, hshape.head]
  refine ⟨fun j hj => ?_, fun off r link hrec hoff => ?_, fun j hj key val valLen hkey => ?_,
    fun op => ?_⟩
  · rw [hslot j hj]
    exact ⟨_, hchain _⟩
  · rw [hshape.log] at hrec
    have hmem := mem_offsets_of_recordAt hshape.ok hrec hoff
    have hhead : w.kvdb.index.head (hashKey hash r.key) ≠ 0 := by
      rw [hshape.head]
      exact newest_ne_zero hend hmem
    obtain ⟨j, hj, hkey⟩ := exists_used hhead
    refine ⟨j, ⟨hj, offsets hash recs (hashKey hash r.key), ?_, hmem⟩, ?_⟩
    · rw [hslot j hj, hkey]
      exact (hchain _).walk
    · -- another slot with the record on its chain has the same hash
      rintro i ⟨hi, offs, hwalk, hi'⟩
      rw [hslot i hi] at hwalk
      rw [hwalk.unique (hchain _).walk] at hi'
      refine used_unique hshape.index.toTidy hi hj ?_
      rw [hkey]
      exact offsets_disjoint hend hi' hmem
  · -- a chain has fewer records than the log has bytes, so the loop does not run out of turns
    have hrecs := endOff_ge recs
    have hoffs := length_offsets_le hash recs (w.kvdb.index.slotAt j).key
    obtain ⟨out, hout⟩ := (hchain (w.kvdb.index.slotAt j).key).walk.chainView key valLen
      (n := w.kvdb.kvraw.size.toNat + 1) val (by omega)
    rw [hslot j hj]
    refine (chainLookup_finds hsys (by omega) hkey.length_lt val valLen _).mono
      (fun _ _ _ => trivial) ?_
    rintro e s' ⟨-, rfl | rfl | hview | ⟨-, rfl | rfl⟩⟩
    · decide
    · decide
    · rw [hout] at hview
      cases hview
    · decide
    · decide
  · exact (op.run_wp hsys hinv).mono (fun _ _ _ => trivial) fun e _ he => he.ne

theorem wellChained_collided : WellChained Memory.sys Memory.log (fun _ => 1) collided :=
  wellChained_of_reachable Memory.documented reachable_collided

end CS238P.Store
