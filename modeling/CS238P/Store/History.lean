import CS238P.Library.LogMap
import CS238P.Store.Chain

set_option autoImplicit false

/-! # The log of a store

The bytes on the log are a sequence of records, which `LogRecords` reads off them. `history` goes
the other way: it is the log of a store that wrote the given records, newest first, each linked to
the newest older record of a key with the same hash. On such a log `chain_lookup` finds the newest
record of the key. -/

namespace CS238P.Store

/-- A record without its link. An empty value says that the key was removed. -/
structure Rec where
  key : List UInt8
  val : List UInt8
  deriving DecidableEq, Repr

/-- The lengths fit into a `struct meta`. -/
def Rec.Ok (r : Rec) : Prop := KeyOk r.key ∧ r.val.length ≤ 0xffffffff

/-- What `kvraw_open` writes. -/
def sentinel : Rec := ⟨[0], [0]⟩

theorem sentinel_ok : sentinel.Ok := ⟨by decide, by decide⟩

/-! ## Reading the records off a log -/

/-- The log is made up of these records, oldest first. -/
inductive LogRecords : List UInt8 → List Rec → Prop
  | nil : LogRecords [] []
  | cons {r : Rec} {link : UInt64} {rest : List UInt8} {rs : List Rec} (ok : r.Ok)
      (more : LogRecords rest rs) : LogRecords (recordBytes r.key r.val link ++ rest) (r :: rs)

theorem LogRecords.append {l l' : List UInt8} {rs rs' : List Rec} (h : LogRecords l rs)
    (h' : LogRecords l' rs') : LogRecords (l ++ l') (rs ++ rs') := by
  induction h with
  | nil => exact h'
  | cons ok _ ih =>
      rw [List.append_assoc]
      exact .cons ok ih

theorem LogRecords.single {r : Rec} (ok : r.Ok) (link : UInt64) :
    LogRecords (recordBytes r.key r.val link) [r] := by
  have : LogRecords (recordBytes r.key r.val link ++ []) [r] := .cons ok .nil
  rwa [List.append_nil] at this

/-- A record says itself where it ends. -/
theorem recordBytes_inj {r r' : Rec} (ok : r.Ok) (ok' : r'.Ok) {link link' : UInt64}
    {rest rest' : List UInt8}
    (h : recordBytes r.key r.val link ++ rest = recordBytes r'.key r'.val link' ++ rest') :
    r = r' ∧ link = link' ∧ rest = rest' := by
  simp only [recordBytes, List.append_assoc] at h
  obtain ⟨hmeta, hdata⟩ := List.append_inj h (by rw [Meta.length_bytes, Meta.length_bytes])
  have hm : appendMeta r.key r.val link = appendMeta r'.key r'.val link' := by
    rw [← Meta.ofBytes_bytes (appendMeta r.key _ _), hmeta, Meta.ofBytes_bytes]
  have hkey : r.key.length = r'.key.length := by
    rw [← appendMeta_keyLen ok.1.2 r.val link, hm, appendMeta_keyLen ok'.1.2]
  have hval : r.val.length = r'.val.length := by
    rw [← appendMeta_valLen r.key ok.2 link, hm, appendMeta_valLen _ ok'.2]
  obtain ⟨hk, hdata⟩ := List.append_inj hdata hkey
  obtain ⟨hv, hrest⟩ := List.append_inj hdata hval
  refine ⟨?_, congrArg Meta.off hm, hrest⟩
  cases r
  cases r'
  simp_all

/-- What is behind some records of a log are the others. -/
theorem LogRecords.of_append {l rest : List UInt8} {rs : List Rec} (h : LogRecords l rs) :
    ∀ {all : List Rec}, LogRecords (l ++ rest) all →
      ∃ rs', all = rs ++ rs' ∧ LogRecords rest rs' := by
  induction h with
  | nil => exact fun hall => ⟨_, rfl, hall⟩
  | @cons r link rest₁ rs ok _ ih =>
      intro all hall
      rw [List.append_assoc] at hall
      generalize hl : recordBytes r.key r.val link ++ (rest₁ ++ rest) = l at hall
      cases hall with
      | nil =>
          have := congrArg List.length hl
          rw [List.length_append, length_recordBytes, List.length_nil] at this
          omega
      | cons ok' more =>
          obtain ⟨rfl, -, rfl⟩ := recordBytes_inj ok ok' hl
          obtain ⟨rs', rfl, hrest⟩ := ih more
          exact ⟨rs', rfl, hrest⟩

/-- The bytes determine the records. -/
theorem LogRecords.unique {l : List UInt8} {rs rs' : List Rec} (h : LogRecords l rs)
    (h' : LogRecords l rs') : rs = rs' := by
  rw [← List.append_nil l] at h'
  obtain ⟨more, rfl, hmore⟩ := h.of_append h'
  generalize hl : ([] : List UInt8) = l' at hmore
  cases hmore with
  | nil => exact (List.append_nil rs).symm
  | @cons r link rest =>
      have := congrArg List.length hl
      rw [List.length_append, length_recordBytes, List.length_nil] at this
      omega

/-! ## The log of a sequence of records -/

/-- Where the records end. -/
def endOff : List Rec → ℕ
  | [] => 18
  | r :: older => endOff older + (16 + r.key.length + r.val.length)

variable (hash : List UInt8 → UInt64)

/-- The offset of the newest record of a key with the hash `h`, zero if there is none. -/
def newest : List Rec → UInt64 → UInt64
  | [], _ => 0
  | r :: older, h => if hashKey hash r.key = h then .ofNat (endOff older) else newest older h

/-- The bytes on the log; `junk` is the link of the first record. -/
def history (junk : UInt64) : List Rec → List UInt8
  | [] => recordBytes [0] [0] junk
  | r :: older =>
      history junk older ++ recordBytes r.key r.val (newest hash older (hashKey hash r.key))

/-- What the search for `key` leaves: it reads to `val` every record of a key with the same hash,
    from the newest to that of the key. -/
def searched (key : List UInt8) (valLen : UInt64) :
    List Rec → Option (List UInt8) → ChainOut
  | [], val => ⟨0, valLen, val⟩
  | r :: older, val =>
      if hashKey hash r.key = hashKey hash key then
        let val' := val.map fun v => Bytes.overwrite v (r.val.take valLen.toNat)
        if r.key = key then ⟨.ofNat (endOff older), .ofNat r.val.length, val'⟩
        else searched key valLen older val'
      else searched key valLen older val

theorem length_history (junk : UInt64) (recs : List Rec) :
    (history hash junk recs).length = endOff recs := by
  induction recs with
  | nil => rw [history, length_recordBytes]; rfl
  | cons r older ih => rw [history, List.length_append, ih, length_recordBytes, endOff]

theorem endOff_ge (recs : List Rec) : 18 + 16 * recs.length ≤ endOff recs := by
  induction recs with
  | nil => rw [endOff, List.length_nil]
  | cons r older ih => rw [endOff, List.length_cons]; omega

theorem toNat_endOff {recs : List Rec} (h : endOff recs < 2 ^ 63) :
    (UInt64.ofNat (endOff recs)).toNat = endOff recs := by
  rw [UInt64.toNat_ofNat', Nat.mod_eq_of_lt (by omega)]

/-- A record is not at the offset that stands for the end of a chain. -/
theorem endOff_ne_zero {recs : List Rec} (h : endOff recs < 2 ^ 63) :
    UInt64.ofNat (endOff recs) ≠ 0 := by
  intro h0
  have hpos := endOff_ge recs
  have := congrArg UInt64.toNat h0
  rw [toNat_endOff h, UInt64.toNat_zero] at this
  omega

/-- The records of a history are read off it. -/
theorem logRecords_history (junk : UInt64) {recs : List Rec} (hok : ∀ r ∈ recs, r.Ok) :
    LogRecords (history hash junk recs) (sentinel :: recs.reverse) := by
  induction recs with
  | nil => exact .single sentinel_ok junk
  | cons r older ih =>
      rw [history, List.reverse_cons, ← List.cons_append]
      exact (ih fun r' h => hok r' (List.mem_cons_of_mem _ h)).append
        (.single (hok r List.mem_cons_self) _)

variable {hash}

/-- **The search of a chain** finds the newest record of the key, also when more was appended. -/
theorem chainView_history {junk : UInt64} {key : List UInt8} {valLen : UInt64} {kvraw : Kvraw}
    (hsize : kvraw.size.toNat < 2 ^ 63) {recs : List Rec} : ∀ {n : ℕ} (val : Option (List UInt8))
      (post : List UInt8), (∀ r ∈ recs, r.Ok) → endOff recs ≤ kvraw.size.toNat → recs.length < n →
      chainView kvraw (history hash junk recs ++ post) key valLen n val
          (newest hash recs (hashKey hash key)) = .ok (searched hash key valLen recs val) := by
  induction recs with
  | nil =>
      intro n val post _ _ hn
      obtain ⟨n, rfl⟩ : ∃ m, n = m + 1 := ⟨n - 1, by omega⟩
      rw [newest, chainView, if_pos rfl, searched]
  | cons r older ih =>
      intro n val post hok hle hn
      obtain ⟨⟨-, hkey⟩, hval⟩ := hok r List.mem_cons_self
      have hok' : ∀ r ∈ older, r.Ok := fun r' h => hok r' (List.mem_cons_of_mem _ h)
      rw [endOff] at hle
      rw [List.length_cons] at hn
      rw [newest, history, searched, List.append_assoc]
      by_cases hbucket : hashKey hash r.key = hashKey hash key
      · -- the record is on the chain: its own fields are read, and its link is the older newest
        obtain ⟨n, rfl⟩ : ∃ m, n = m + 1 := ⟨n - 1, by omega⟩
        have hoff : (UInt64.ofNat (endOff older)).toNat = (history hash junk older).length := by
          rw [toNat_endOff (by omega), length_history]
        obtain ⟨hmeta, hkv, hvv⟩ := view_record kvraw (newest hash older (hashKey hash r.key)) post
          hkey hval hoff (by rw [length_history, length_recordBytes]; omega)
        rw [if_pos hbucket, if_pos hbucket, chainView, if_neg (endOff_ne_zero (by omega)), hmeta]
        simp only [hkv, hvv]
        have hlen : (appendMeta r.key r.val
            (newest hash older (hashKey hash r.key))).valLen.toUInt64 = .ofNat r.val.length := by
          apply UInt64.toNat_inj.1
          rw [UInt32.toNat_toUInt64, appendMeta_valLen r.key hval, UInt64.toNat_ofNat',
            Nat.mod_eq_of_lt (by omega)]
        rw [hlen]
        by_cases hk : r.key = key
        · rw [if_pos hk, if_pos hk]
        · rw [if_neg hk, if_neg hk]
          show chainView _ _ _ _ _ _ (newest hash older (hashKey hash r.key)) = _
          rw [hbucket]
          exact ih _ _ hok' (by omega) (by omega)
      · -- it is on another chain, and only makes the log longer
        rw [if_neg hbucket, if_neg hbucket]
        exact ih _ _ hok' (by omega) (by omega)

/-! ## The map -/

/-- The records as writes to a map. -/
def writes (recs : List Rec) : List (List UInt8 × Option (List UInt8)) :=
  recs.map fun r => (r.key, if r.val = [] then none else some r.val)

/-- What a key is bound to. -/
def value (recs : List Rec) : List UInt8 → Option (List UInt8) := LogMap.latest (writes recs)

theorem value_cons (r : Rec) (older : List Rec) :
    value (r :: older) =
      Function.update (value older) r.key (if r.val = [] then none else some r.val) :=
  LogMap.latest_cons _ _

theorem value_ne_nil (recs : List Rec) (key : List UInt8) : value recs key ≠ some [] := by
  induction recs with
  | nil => exact fun h => by cases h
  | cons r older ih =>
      rw [value_cons]
      by_cases h : key = r.key
      · rw [h, Function.update_self]
        split
        · exact fun h => by cases h
        · rename_i hne
          exact fun h => hne (Option.some.inj h)
      · rw [Function.update_of_ne h]
        exact ih

/-- The search for a key that is not bound ends at a record without a value, or at none. -/
theorem searched_of_none (key : List UInt8) (valLen : UInt64) {recs : List Rec}
    (hok : ∀ r ∈ recs, r.Ok) : ∀ val : Option (List UInt8), value recs key = none →
      (searched hash key valLen recs val).off = 0 ∨
        (searched hash key valLen recs val).valLen = 0 := by
  induction recs with
  | nil => exact fun _ _ => .inl rfl
  | cons r older ih =>
      intro val hnone
      have hok' : ∀ r ∈ older, r.Ok := fun r' h => hok r' (List.mem_cons_of_mem _ h)
      rw [value_cons] at hnone
      rw [searched]
      by_cases hk : r.key = key
      · subst hk
        rw [Function.update_self] at hnone
        rw [if_pos rfl, if_pos rfl]
        split at hnone
        · rename_i hempty
          rw [hempty]
          exact .inr rfl
        · cases hnone
      · rw [Function.update_of_ne (Ne.symm hk)] at hnone
        simp only [if_neg hk]
        split
        · exact ih hok' _ hnone
        · exact ih hok' _ hnone

/-- **The search for a bound key** tells the length of its value and delivers as many of its bytes
    as the buffer is said to hold. -/
theorem searched_of_some (key : List UInt8) (valLen : UInt64) {recs : List Rec}
    (hsize : endOff recs < 2 ^ 63) (hok : ∀ r ∈ recs, r.Ok) {v : List UInt8} :
    ∀ val : Option (List UInt8), value recs key = some v →
      (searched hash key valLen recs val).off ≠ 0 ∧
        (searched hash key valLen recs val).valLen.toNat = v.length ∧
        (searched hash key valLen recs val).val.map (List.take (min valLen.toNat v.length)) =
          val.map fun _ => v.take valLen.toNat := by
  induction recs with
  | nil => exact fun _ h => by cases h
  | cons r older ih =>
      intro val hsome
      have hok' : ∀ r ∈ older, r.Ok := fun r' h => hok r' (List.mem_cons_of_mem _ h)
      rw [endOff] at hsize
      rw [value_cons] at hsome
      rw [searched]
      by_cases hk : r.key = key
      · subst hk
        rw [Function.update_self] at hsome
        rw [if_pos rfl, if_pos rfl]
        split at hsome
        · cases hsome
        obtain rfl := Option.some.inj hsome
        have hval := (hok r List.mem_cons_self).2
        refine ⟨endOff_ne_zero (by omega), ?_, ?_⟩
        · exact (UInt64.toNat_ofNat' ..).trans (Nat.mod_eq_of_lt (by omega))
        · rw [Option.map_map]
          congr 1
          funext b
          rw [Function.comp, Bytes.take_overwrite _ _ (by rw [List.length_take]), ←
            List.length_take, List.take_length]
      · rw [Function.update_of_ne (Ne.symm hk)] at hsome
        simp only [if_neg hk]
        split
        · -- a record of a colliding key was read to the buffer, and is overwritten
          obtain ⟨hoff, hlen, hbytes⟩ := ih (by omega) hok' _ hsome
          refine ⟨hoff, hlen, hbytes.trans ?_⟩
          rw [Option.map_map]
          rfl
        · exact ih (by omega) hok' _ hsome

/-- A key without a chain is not bound. -/
theorem value_of_newest {key : List UInt8} {recs : List Rec} (hsize : endOff recs < 2 ^ 63)
    (h : newest hash recs (hashKey hash key) = 0) : value recs key = none := by
  induction recs with
  | nil => rfl
  | cons r older ih =>
      rw [endOff] at hsize
      rw [newest] at h
      split at h
      · exact absurd h (endOff_ne_zero (by omega))
      · rename_i hbucket
        have hk : key ≠ r.key := by
          rintro rfl
          exact hbucket rfl
        rw [value_cons, Function.update_of_ne hk]
        exact ih (by omega) h

/-- Whether the search found a value is all that the callers of `chain_lookup` ask. -/
theorem searched_iff (key : List UInt8) (valLen : UInt64) {recs : List Rec}
    (hsize : endOff recs < 2 ^ 63) (hok : ∀ r ∈ recs, r.Ok) (val : Option (List UInt8)) :
    (searched hash key valLen recs val).off = 0 ∨
      (searched hash key valLen recs val).valLen = 0 ↔ value recs key = none := by
  refine ⟨fun h => ?_, searched_of_none key valLen hok val⟩
  cases hv : value recs key with
  | none => rfl
  | some v =>
      obtain ⟨hoff, hlen, -⟩ := searched_of_some key valLen hsize hok val hv
      rcases h with h | h
      · exact absurd h hoff
      · rw [h, UInt64.toNat_zero] at hlen
        rw [List.length_eq_zero_iff.1 hlen.symm] at hv
        exact absurd hv (value_ne_nil recs key)

end CS238P.Store
