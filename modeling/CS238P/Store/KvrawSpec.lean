import CS238P.Store.Kvraw

set_option autoImplicit false

/-! # Contracts of the record layer

The same in terms of the bytes of the log: `metaView` is `read_meta`, and `kvraw_lookup` reads what
the view shows if no call fails. A record that was appended shows its own fields, also after more
was appended. -/

namespace CS238P.Store

variable {σ : Type} {sys : Sys σ}

/-! ## Views of the log -/

/-- What `read_meta` reads at `off` when the log is `log`; an offset so large that `off + META_LEN`
    wraps around is outside of every log. -/
def Kvraw.metaView (kvraw : Kvraw) (log : List UInt8) (off : UInt64) : Except Fail Meta :=
  if kvraw.size < off + metaLen then .error .corruptData
  else if 2 ^ 64 ≤ off.toNat + 16 then .error (.io .logfsRead)
  else if kvraw.metaOk off (Meta.ofBytes (Bytes.slice log off.toNat 16)) then
    .ok (Meta.ofBytes (Bytes.slice log off.toNat 16))
  else .error .corruptData

/-- The key of the record at `off`. -/
def keyView (log : List UInt8) (off : UInt64) (m : Meta) : List UInt8 :=
  Bytes.slice log (off.toNat + 16) m.keyLen.toNat

/-- The value of the record at `off`. -/
def valView (log : List UInt8) (off : UInt64) (m : Meta) : List UInt8 :=
  Bytes.slice log (off.toNat + 16 + m.keyLen.toNat) m.valLen.toNat

/-- The in/out arguments of `kvraw_lookup` after it read the record with this `struct meta`. -/
def lookupView (log : List UInt8) (key : List UInt8) (keyLen : UInt64) (val : Option (List UInt8))
    (valLen off : UInt64) (m : Meta) : LookupOut where
  key := Bytes.overwrite key ((keyView log off m).take keyLen.toNat)
  keyLen := m.keyLen.toUInt64
  val := val.map fun v => Bytes.overwrite v ((valView log off m).take valLen.toNat)
  valLen := m.valLen.toUInt64
  off := m.off

/-- What a call ended with is what the view shows, unless a read failed or the arguments are
    `bad`. -/
def Shows {α : Type} (bad : Prop) (view : Except Fail α) (log : σ → List UInt8) (s : σ) (e : Fail)
    (s' : σ) : Prop :=
  log s' = log s ∧
    (e = .io .logfsRead ∨ view = .error e ∨ (bad ∧ (e = .assertion ∨ e = .outOfBounds)))

/-- The value buffer holds at least as many bytes as it is said to. -/
def Holds (val : Option (List UInt8)) (valLen : UInt64) : Prop :=
  valLen.toNat ≤ (val.getD []).length

/-- Such a buffer passes the assertion of `kvraw_lookup`. -/
theorem Holds.asserts {val : Option (List UInt8)} {valLen : UInt64} (h : Holds val valLen) :
    ¬ (valLen ≠ 0 ∧ val = none) := by
  rintro ⟨hne, rfl⟩
  exact hne (UInt64.toNat_inj.1 (Nat.le_zero.1 h))

/-! ## Offsets -/

/-- `KEY_OFF`. -/
theorem toNat_keyOff {off : UInt64} (h : off.toNat + 16 < 2 ^ 64) :
    (off + metaLen).toNat = off.toNat + 16 := by
  rw [UInt64.toNat_add, toNat_metaLen, Nat.mod_eq_of_lt h]

/-- `VAL_OFF`. -/
theorem toNat_valOff {off : UInt64} {m : Meta}
    (h : off.toNat + 16 + m.keyLen.toNat < 2 ^ 64) :
    (off + metaLen + m.keyLen.toUInt64).toNat = off.toNat + 16 + m.keyLen.toNat := by
  rw [UInt64.toNat_add, toNat_keyOff (by omega), UInt16.toNat_toUInt64, Nat.mod_eq_of_lt h]

/-- Where the record ends. -/
theorem toNat_recordEnd {off : UInt64} {m : Meta}
    (h : off.toNat + 16 + m.keyLen.toNat + m.valLen.toNat < 2 ^ 64) :
    (off + metaLen + m.keyLen.toUInt64 + m.valLen.toUInt64).toNat =
      off.toNat + 16 + m.keyLen.toNat + m.valLen.toNat := by
  rw [UInt64.toNat_add, toNat_valOff (by omega), UInt32.toNat_toUInt64, Nat.mod_eq_of_lt h]

/-- A sum that `read_meta` accepts and that has not wrapped around is what it says. -/
theorem Kvraw.metaOk_le {kvraw : Kvraw} {off : UInt64} {m : Meta} (h : kvraw.metaOk off m)
    (hlt : off.toNat + 16 + m.keyLen.toNat + m.valLen.toNat < 2 ^ 64) :
    off.toNat + 16 + m.keyLen.toNat + m.valLen.toNat ≤ kvraw.size.toNat := by
  have hsum := h.2.2
  rw [UInt64.lt_iff_toNat_lt, toNat_recordEnd hlt] at hsum
  exact Nat.not_lt.1 hsum

theorem Kvraw.toNat_off_add {off size : UInt64} (h : ¬ size < off + metaLen)
    (hoff : ¬ 2 ^ 64 ≤ off.toNat + 16) : off.toNat + 16 ≤ size.toNat := by
  rw [UInt64.lt_iff_toNat_lt, toNat_keyOff (Nat.not_le.1 hoff)] at h
  exact Nat.not_lt.1 h

/-! ## The view of a record that was appended -/

/-- The bytes of a record. -/
def recordBytes (key val : List UInt8) (off : UInt64) : List UInt8 :=
  (appendMeta key val off).bytes ++ (key ++ val)

theorem length_recordBytes (key val : List UInt8) (off : UInt64) :
    (recordBytes key val off).length = 16 + key.length + val.length := by
  rw [recordBytes, List.length_append, List.length_append, Meta.length_bytes, Nat.add_assoc]

theorem appendMeta_keyLen {key : List UInt8} (hkey : key.length ≤ 0xffff) (val : List UInt8)
    (off : UInt64) : (appendMeta key val off).keyLen.toNat = key.length := by
  show (UInt16.ofNat key.length).toNat = _
  rw [UInt16.toNat_ofNat']
  omega

theorem appendMeta_valLen (key : List UInt8) {val : List UInt8} (hval : val.length ≤ 0xffffffff)
    (off : UInt64) : (appendMeta key val off).valLen.toNat = val.length := by
  show (UInt32.ofNat val.length).toNat = _
  rw [UInt32.toNat_ofNat']
  omega

/-- **What is read at a record** that lies below the size: its own fields. -/
theorem view_record (kvraw : Kvraw) (prev : UInt64) {pre key val : List UInt8}
    (post : List UInt8) {off : UInt64} (hkey : key.length ≤ 0xffff)
    (hval : val.length ≤ 0xffffffff) (hoff : off.toNat = pre.length)
    (hle : pre.length + (recordBytes key val prev).length ≤ kvraw.size.toNat) :
    kvraw.metaView (pre ++ (recordBytes key val prev ++ post)) off =
        .ok (appendMeta key val prev) ∧
      keyView (pre ++ (recordBytes key val prev ++ post)) off (appendMeta key val prev) = key ∧
      valView (pre ++ (recordBytes key val prev ++ post)) off (appendMeta key val prev) = val := by
  have hk := appendMeta_keyLen hkey val prev
  have hv := appendMeta_valLen key hval prev
  have hsize := kvraw.size.toNat_lt
  rw [length_recordBytes] at hle
  have hsplit : pre ++ (recordBytes key val prev ++ post) =
      pre ++ ((appendMeta key val prev).bytes ++ (key ++ (val ++ post))) := by
    rw [recordBytes, List.append_assoc, List.append_assoc]
  have hmeta : Bytes.slice (pre ++ (recordBytes key val prev ++ post)) off.toNat 16 =
      (appendMeta key val prev).bytes := by
    have := Bytes.slice_mid pre (appendMeta key val prev).bytes (key ++ (val ++ post))
    rw [Meta.length_bytes] at this
    rw [hsplit, hoff, this]
  refine ⟨?_, ?_, ?_⟩
  · unfold Kvraw.metaView
    rw [if_neg (by rw [UInt64.lt_iff_toNat_lt, toNat_keyOff (by omega)]; omega),
      if_neg (by omega), hmeta, Meta.ofBytes_bytes, if_pos]
    refine ⟨rfl, rfl, ?_⟩
    rw [UInt64.lt_iff_toNat_lt, toNat_recordEnd (by omega), hk, hv]
    omega
  · unfold keyView
    have := Bytes.slice_mid (pre ++ (appendMeta key val prev).bytes) key (val ++ post)
    rw [List.length_append, Meta.length_bytes, List.append_assoc] at this
    rw [hsplit, hoff, hk, this]
  · unfold valView
    have := Bytes.slice_mid (pre ++ ((appendMeta key val prev).bytes ++ key)) val post
    rw [List.length_append, List.length_append, Meta.length_bytes, List.append_assoc,
      List.append_assoc, ← Nat.add_assoc] at this
    rw [hsplit, hoff, hk, hv, this]

/-! ## Contracts -/

variable {log : σ → List UInt8} {s : σ} {kvraw : Kvraw}

/-- What is checked of a record that `read_meta` accepts. -/
theorem Kvraw.metaView_eq_ok {l : List UInt8} {off : UInt64} {m : Meta}
    (h : kvraw.metaView l off = .ok m) :
    ¬ kvraw.size < off + metaLen ∧ ¬ 2 ^ 64 ≤ off.toNat + 16 ∧ kvraw.metaOk off m ∧
      Meta.ofBytes (Bytes.slice l off.toNat 16) = m := by
  unfold Kvraw.metaView at h
  split at h
  · cases h
  rename_i hlow
  split at h
  · cases h
  rename_i hwrap
  split at h
  · rename_i hok
    cases h
    exact ⟨hlow, hwrap, hok, rfl⟩
  · cases h

/-- A record that passed the check of `read_meta` lies below the size. -/
theorem Kvraw.metaView_le (hsize : kvraw.size.toNat < 2 ^ 63) {l : List UInt8} {off : UInt64}
    {m : Meta} (h : kvraw.metaView l off = .ok m) :
    off.toNat + 16 + m.keyLen.toNat + m.valLen.toNat ≤ kvraw.size.toNat := by
  obtain ⟨hlow, hwrap, hok, -⟩ := Kvraw.metaView_eq_ok h
  have hbase := Kvraw.toNat_off_add hlow hwrap
  have hk := m.keyLen.toNat_lt
  have hv := m.valLen.toNat_lt
  exact Kvraw.metaOk_le hok (by omega)

/-- The `struct meta` is filled by what is read. -/
theorem overwrite_replicate {l : List UInt8} {off : ℕ} (hle : off + 16 ≤ l.length) :
    Bytes.overwrite (List.replicate 16 0) (Bytes.slice l off 16) = Bytes.slice l off 16 := by
  rw [Bytes.overwrite, Bytes.length_slice hle]
  simp

/-- What `kvraw_lookup` returns, in terms of the log. -/
theorem lookupView_eq {l key : List UInt8} {keyLen valLen off : UInt64} {val : Option (List UInt8)}
    {m : Meta} (hle : off.toNat + 16 + m.keyLen.toNat < 2 ^ 64) :
    (⟨Bytes.overwrite key (Bytes.slice l (off + metaLen).toNat
        (cMin m.keyLen.toUInt64 keyLen).toNat), m.keyLen.toUInt64,
      val.map fun _ => Bytes.overwrite (val.getD []) (Bytes.slice l
        (off + metaLen + m.keyLen.toUInt64).toNat (cMin m.valLen.toUInt64 valLen).toNat),
      m.valLen.toUInt64, m.off⟩ : LookupOut) = lookupView l key keyLen val valLen off m := by
  rw [toNat_keyOff (by omega), toNat_valOff hle]
  unfold lookupView keyView valView Bytes.slice
  rw [List.take_take, List.take_take, toNat_cMin, toNat_cMin, UInt16.toNat_toUInt64,
    UInt32.toNat_toUInt64, Nat.min_comm, Nat.min_comm m.valLen.toNat]
  cases val <;> rfl

section Documented

variable (hsys : sys.Documented log)
include hsys

theorem readMeta_wp (bad : Prop) (off : UInt64) :
    wp (readMeta sys kvraw off)
      (fun m s' => log s' = log s ∧ kvraw.metaView (log s) off = .ok m)
      (Shows bad (kvraw.metaView (log s) off) log s) s := by
  have hlt := hsys.log_length s
  unfold readMeta Kvraw.metaView
  split
  · exact ⟨rfl, .inr (.inl rfl)⟩
  rename_i hlow
  refine wp.bind ((hsys.logs.read_wp _ _ _).mono ?_ ?_)
  · rintro bs s' ⟨hlog, -, hle, rfl⟩
    rw [toNat_metaLen] at hle ⊢
    rw [overwrite_replicate hle, if_neg (show ¬ 2 ^ 64 ≤ off.toNat + 16 by omega)]
    split
    · exact ⟨hlog, rfl⟩
    · exact ⟨hlog, .inr (.inl rfl)⟩
  · rintro e s' ⟨hlog, rfl | ⟨rfl, hbuf⟩⟩
    · exact ⟨hlog, .inl rfl⟩
    · exact absurd hbuf (by decide)

/-- **`kvraw_lookup`** with a key buffer of the length it is told. -/
theorem kvrawLookup_wp (hsize : kvraw.size.toNat ≤ (log s).length) {key : List UInt8}
    {keyLen valLen off : UInt64} {val : Option (List UInt8)} (hkey : keyLen.toNat ≤ key.length)
    (hoff : off ≠ 0) :
    wp (kvrawLookup sys kvraw key keyLen val valLen off)
      (fun out s' => log s' = log s ∧ ∃ m, kvraw.metaView (log s) off = .ok m ∧
        out = lookupView (log s) key keyLen val valLen off m)
      (Shows (¬ Holds val valLen) (kvraw.metaView (log s) off) log s) s := by
  have hlt := hsys.log_length s
  unfold kvrawLookup
  split
  · rename_i h
    obtain ⟨hne, rfl⟩ := h
    exact ⟨rfl, .inr (.inr ⟨fun hval => hval.asserts ⟨hne, rfl⟩, .inl rfl⟩)⟩
  refine wp.bind ((readMeta_wp hsys _ off).mono ?_ fun _ _ h => h)
  rintro m s₁ ⟨h₁, hview⟩
  have hle := Kvraw.metaView_le (by omega) hview
  refine wp.bind ((hsys.logs.read_wp _ _ _).mono ?_ ?_)
  · rintro key_ s₂ ⟨h₂, -, -, rfl⟩
    refine wp.bind ((hsys.logs.read_wp _ _ _).mono ?_ ?_)
    · rintro val_ s₃ ⟨h₃, -, -, rfl⟩
      refine ⟨h₃.trans (h₂.trans h₁), m, hview, ?_⟩
      rw [h₂, h₁]
      exact lookupView_eq (by omega)
    · rintro e s₃ ⟨h₃, rfl | ⟨rfl, hbuf⟩⟩
      · exact ⟨h₃.trans (h₂.trans h₁), .inl rfl⟩
      · rw [toNat_cMin] at hbuf
        exact ⟨h₃.trans (h₂.trans h₁),
          .inr (.inr ⟨Nat.not_le.2 (lt_of_lt_of_le hbuf (Nat.min_le_right _ _)), .inr rfl⟩)⟩
  · rintro e s₂ ⟨h₂, rfl | ⟨rfl, hbuf⟩⟩
    · exact ⟨h₂.trans h₁, .inl rfl⟩
    · rw [toNat_cMin] at hbuf
      omega

end Documented

section Logs

variable (hlogs : sys.Logs log)
include hlogs

/-- Looking up leaves the log alone, whatever its arguments. -/
theorem kvrawLookup_log (key : List UInt8) (keyLen : UInt64) (val : Option (List UInt8))
    (valLen off : UInt64) :
    wp (kvrawLookup sys kvraw key keyLen val valLen off) (fun _ s' => log s' = log s)
      (fun e s' => log s' = log s ∧ e ≠ .io .logfsAppend) s := by
  have hread : ∀ {s₁ : σ} (buf : List UInt8) (off len : UInt64), log s₁ = log s →
      wp (sys.read buf off len) (fun _ s' => log s' = log s)
        (fun e s' => log s' = log s ∧ e ≠ .io .logfsAppend) s₁ := by
    intro s₁ buf off len h₁
    refine (hlogs.read_wp _ _ _).mono (fun _ _ h => h.1.trans h₁) ?_
    rintro e s' ⟨h, rfl | ⟨rfl, -⟩⟩
    · exact ⟨h.trans h₁, by decide⟩
    · exact ⟨h.trans h₁, by decide⟩
  unfold kvrawLookup
  split
  · exact ⟨rfl, by decide⟩
  split
  · exact ⟨rfl, by decide⟩
  unfold readMeta
  split
  · exact ⟨rfl, by decide⟩
  refine wp.bind (wp.bind ((hread _ _ _ rfl).mono (fun bs s₁ h₁ => ?_) fun _ _ h => h))
  split
  · refine wp.bind ((hread _ _ _ h₁).mono (fun key_ s₂ h₂ => ?_) fun _ _ h => h)
    refine wp.bind ((hread _ _ _ h₂).mono (fun val_ s₃ h₃ => ?_) fun _ _ h => h)
    exact h₃
  · exact ⟨h₁, by decide⟩

theorem readMeta_ok (hreads : sys.Reads log) {off : UInt64} {m : Meta}
    (hview : kvraw.metaView (log s) off = .ok m) (hle : off.toNat + 16 ≤ (log s).length) :
    wp (readMeta sys kvraw off) (fun m' s' => log s' = log s ∧ m' = m) (fun _ _ => False) s := by
  obtain ⟨hlow, -, hok, heq⟩ := Kvraw.metaView_eq_ok hview
  have hbuf : metaLen.toNat ≤ (List.replicate 16 (0 : UInt8)).length := by simp
  unfold readMeta
  rw [if_neg hlow]
  refine wp.bind ((hlogs.read_ok hreads hbuf hle).mono ?_ fun _ _ h => h)
  rintro bs s' ⟨hlog, rfl⟩
  rw [toNat_metaLen, overwrite_replicate hle, heq, if_pos hok]
  exact ⟨hlog, rfl⟩

/-- The same at a record, when what is on the log can be read. -/
theorem kvrawLookup_ok (hreads : sys.Reads log) {key : List UInt8} {keyLen valLen off : UInt64}
    {val : Option (List UInt8)} {m : Meta} (hview : kvraw.metaView (log s) off = .ok m)
    (hle : off.toNat + 16 + m.keyLen.toNat + m.valLen.toNat ≤ (log s).length)
    (hlt : off.toNat + 16 + m.keyLen.toNat + m.valLen.toNat < 2 ^ 64)
    (hkey : keyLen.toNat ≤ key.length) (hval : Holds val valLen) (hoff : off ≠ 0) :
    wp (kvrawLookup sys kvraw key keyLen val valLen off)
      (fun out s' => log s' = log s ∧ out = lookupView (log s) key keyLen val valLen off m)
      (fun _ _ => False) s := by
  have hoff16 : (off + metaLen).toNat = off.toNat + 16 := toNat_keyOff (by omega)
  have hvoff : (off + metaLen + m.keyLen.toUInt64).toNat = off.toNat + 16 + m.keyLen.toNat :=
    toNat_valOff (by omega)
  have hm := readMeta_ok hlogs hreads hview (by omega)
  unfold kvrawLookup
  rw [if_neg hval.asserts, if_neg hoff]
  refine wp.bind (hm.mono ?_ fun _ _ h => h)
  rintro _ s₁ ⟨h₁, rfl⟩
  refine wp.bind ((hlogs.read_ok hreads ?_ ?_).mono ?_ fun _ _ h => h)
  · rw [toNat_cMin]
    omega
  · rw [h₁, hoff16, toNat_cMin, UInt16.toNat_toUInt64]
    omega
  rintro key_ s₂ ⟨h₂, rfl⟩
  refine wp.bind ((hlogs.read_ok hreads ?_ ?_).mono ?_ fun _ _ h => h)
  · rw [toNat_cMin]
    exact le_trans (Nat.min_le_right _ _) hval
  · rw [h₂, h₁, hvoff, toNat_cMin, UInt32.toNat_toUInt64]
    omega
  rintro val_ s₃ ⟨h₃, rfl⟩
  refine ⟨h₃.trans (h₂.trans h₁), ?_⟩
  rw [h₂, h₁]
  exact lookupView_eq (by omega)

/-! ## Appending -/

/-- **`kvraw_append`** puts a record to the end of the log and returns where the size says it
    starts. If it fails it has changed nothing but the log, by appending. -/
theorem kvrawAppend_wp {key val : List UInt8} (off : UInt64) :
    wp (kvrawAppend sys kvraw key val off)
      (fun r s' => key ≠ [] ∧ key.length ≤ 0xffff ∧ val.length ≤ 0xffffffff ∧
        log s' = log s ++ recordBytes key val off ∧ r.2 = kvraw.size ∧
        r.1.size = kvraw.size + .ofNat (recordBytes key val off).length)
      (fun e s' => log s <+: log s' ∧ (e = .io .logfsAppend ∨ (e = .assertion ∧
        (key = [] ∨ 0xffff < key.length ∨ 0xffffffff < val.length)))) s := by
  unfold kvrawAppend
  split
  · rename_i h
    refine ⟨List.prefix_rfl, .inr ⟨rfl, ?_⟩⟩
    rw [List.length_eq_zero_iff] at h
    tauto
  split
  · exact ⟨List.prefix_rfl, .inr ⟨rfl, .inr (.inr (by assumption))⟩⟩
  rename_i hkey hval
  have hk := appendMeta_keyLen (show key.length ≤ 0xffff by omega) val off
  have hv := appendMeta_valLen key (show val.length ≤ 0xffffffff by omega) off
  -- the three pieces; behind each of them the log has grown, also when the next one fails
  refine wp.bind ((hlogs.append_wp _).mono ?_ fun e s' h => ⟨h.1, .inl h.2⟩)
  rintro - s₁ h₁
  refine wp.bind ((hlogs.append_wp _).mono ?_ fun e s' h => ⟨?_, .inl h.2⟩)
  · rintro - s₂ h₂
    refine wp.bind ((hlogs.append_wp _).mono ?_ fun e s' h => ⟨?_, .inl h.2⟩)
    · rintro - s₃ h₃
      refine ⟨?_, by omega, by omega, ?_, rfl, ?_⟩
      · rintro rfl
        exact hkey (.inl rfl)
      · rw [h₃, h₂, h₁, hk, hv, List.take_length, List.take_length, recordBytes]
        simp [List.append_assoc]
      · show kvraw.size + _ = kvraw.size + _
        congr 1
        apply UInt64.toNat_inj.1
        rw [UInt64.toNat_add, UInt64.toNat_add, UInt16.toNat_toUInt64, UInt32.toNat_toUInt64, hk,
          hv, toNat_metaLen, UInt64.toNat_ofNat', length_recordBytes]
        omega
    · rw [h₂, h₁] at h
      exact (List.prefix_append _ _).trans ((List.prefix_append _ _).trans h.1)
  · rw [h₁] at h
    exact (List.prefix_append _ _).trans h.1

/-- `kvraw_open` leaves one record on the log. -/
theorem kvrawOpen_wp (pathname : String) :
    wp (kvrawOpen sys pathname)
      (fun kvraw s' => ∃ junk, log s' = recordBytes [0] [0] junk ∧
        kvraw.size.toNat = (log s').length)
      (fun _ _ => True) s := by
  unfold kvrawOpen
  split
  · exact trivial
  refine wp.bind ((wp.trivial _ s).mono ?_ fun _ _ _ => trivial)
  rintro - s₁ -
  refine wp.bind ((hlogs.open_wp _).mono ?_ fun _ _ _ => trivial)
  rintro - s₂ h₂
  refine wp.bind (wp.of_ok rfl ?_)
  refine wp.bind ((kvrawAppend_wp hlogs _).mono ?_ fun _ _ _ => trivial)
  rintro ⟨kvraw, off⟩ s₄ ⟨-, -, -, h₄, -, hsize⟩
  rw [h₂, List.nil_append] at h₄
  refine ⟨_, h₄, ?_⟩
  rw [hsize, h₄]
  rfl

end Logs

end CS238P.Store
