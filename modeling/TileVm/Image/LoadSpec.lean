/-
What the loader reads: on the bytes of an image it builds the image's records, and from a load
that met no end of file the image is recovered.
-/
import TileVm.Image.Load
import TileVm.Lib.Decoder

namespace TileVm

open LittleEndian

variable (stale : Nat → Byte)

/-! ## Readers -/

/-- `byte_size` is what is left of the file. -/
def ImageReader.Exact (r : ImageReader) : Prop := r.byteSize = .ofNat 64 r.rest.length

/-- What is left fits a `long`, and `byte_size` has not been negative. -/
def ImageReader.Calm (r : ImageReader) : Prop := r.rest.length < 2 ^ 63 ∧ r.negative = false

/-- From `r` to `r'` the reader passed over `x`, all of it in the file. -/
structure Consumes (r : ImageReader) (x : List Byte) (r' : ImageReader) : Prop where
  rest : r.rest = x ++ r'.rest
  missing : r'.missing = r.missing
  negative : r'.negative = r.negative

/-- From `r` to `r'` the reader passed over fields that hold `x`. -/
structure ReadsFields (r : ImageReader) (x : List Byte) (r' : ImageReader) : Prop where
  rest : r.rest = x ++ r'.rest
  missing : r'.missing = r.missing
  exact : r.Exact → r'.Exact
  calm : r.Exact → r.Calm → r'.Calm

/-- The file as `fread` moves over it. -/
def fileTape : Tape ImageReader Byte where
  rest r := r.rest
  Full r := r.missing = 0
  Reads := Consumes
  reads_nil r := ⟨rfl, rfl, rfl⟩
  reads_append h h' :=
    ⟨by rw [h.rest, h'.rest, List.append_assoc], h'.missing.trans h.missing, h'.negative.trans h.negative⟩
  rest_of_reads h := h.rest
  full_of_reads h hfull := h.missing ▸ hfull

/-- The file as the fields before the code move over it. -/
def fieldTape : Tape ImageReader Byte where
  rest r := r.rest
  Full r := r.missing = 0
  Reads := ReadsFields
  reads_nil r := ⟨rfl, rfl, id, fun _ h => h⟩
  reads_append h h' :=
    { rest := by rw [h.rest, h'.rest, List.append_assoc]
      missing := h'.missing.trans h.missing
      exact := fun he => h'.exact (h.exact he)
      calm := fun he hc => h'.calm (h.exact he) (h.calm he hc) }
  rest_of_reads h := h.rest
  full_of_reads h hfull := h.missing ▸ hfull

/-! ## Fields -/

theorem fread_of_le {n : Nat} {r : ImageReader} (h : n ≤ r.rest.length) :
    fread stale n r = .ok (r.rest.take n, { r with rest := r.rest.drop n }) := by
  unfold fread
  simp [Nat.sub_eq_zero_of_le h]

theorem fread_decodes (x : List Byte) : fileTape.Decodes (fread stale x.length) x x := by
  intro r tl hr
  have hr : r.rest = x ++ tl := hr
  refine ⟨{ r with rest := tl }, ?_, ⟨hr, rfl, rfl⟩⟩
  rw [fread_of_le stale (by simp [hr]), hr, List.take_left, List.drop_left]

theorem fread_recovers (n : Nat) : fileTape.Recovers (fread stale n) fun a x => a = x ∧ x.length = n := by
  intro r a r' hrun hfull
  have hle : n ≤ r.rest.length := by
    cases hrun
    have : r.missing + (n - r.rest.length) = 0 := hfull
    omega
  rw [fread_of_le stale hle] at hrun
  cases hrun
  exact ⟨r.rest.take n, ⟨rfl, List.length_take_of_le hle⟩, ⟨(List.take_append_drop n r.rest).symm, rfl, rfl⟩⟩

/-- A `long` that shrinks by what was read stays exact, and does not become negative. -/
theorem freadField_of_le {n : Nat} {r : ImageReader} (h : n ≤ r.rest.length) :
    ∃ r', freadField stale n r = .ok (r.rest.take n, r') ∧ ReadsFields r (r.rest.take n) r' := by
  let size := r.byteSize - .ofNat 64 n
  refine ⟨⟨r.rest.drop n, r.missing, size, r.negative || size.msb⟩, ?_, ?_⟩
  · rw [freadField, Tape.bind_run, fread_of_le stale h]
    rfl
  have hsize : r.Exact → size = .ofNat 64 (r.rest.drop n).length := by
    intro he
    have hsum : BitVec.ofNat 64 r.rest.length = .ofNat 64 (r.rest.length - n) + .ofNat 64 n := by
      rw [← BitVec.ofNat_add, Nat.sub_add_cancel h]
    show r.byteSize - .ofNat 64 n = _
    rw [he, hsum, BitVec.add_sub_cancel, List.length_drop]
  refine ⟨(List.take_append_drop n r.rest).symm, rfl, hsize, ?_⟩
  rintro he ⟨hlt, hneg⟩
  have hlt' : (r.rest.drop n).length < 2 ^ 63 := by
    rw [List.length_drop]
    omega
  have hmsb : size.msb = false := by
    rw [hsize he, BitVec.msb_eq_false_iff_two_mul_lt, BitVec.toNat_ofNat]
    omega
  refine ⟨hlt', ?_⟩
  show (r.negative || size.msb) = false
  rw [hneg, hmsb]
  rfl

theorem freadField_decodes (x : List Byte) : fieldTape.Decodes (freadField stale x.length) x x := by
  intro r tl hr
  have hr : r.rest = x ++ tl := hr
  obtain ⟨r', hrun, hreads⟩ := freadField_of_le stale (show x.length ≤ r.rest.length by simp [hr])
  rw [hr, List.take_left] at hrun hreads
  exact ⟨r', hrun, hreads⟩

theorem freadField_recovers (n : Nat) :
    fieldTape.Recovers (freadField stale n) fun a x => a = x ∧ x.length = n := by
  intro r a r' hrun hfull
  have hle : n ≤ r.rest.length := by
    cases hrun
    have : r.missing + (n - r.rest.length) = 0 := hfull
    omega
  obtain ⟨r'', hrun', hreads⟩ := freadField_of_le stale hle
  rw [hrun'] at hrun
  cases hrun
  exact ⟨r.rest.take n, ⟨rfl, List.length_take_of_le hle⟩, hreads⟩

theorem freadNumber_decodes {w n : Nat} (h : n < 256 ^ w) :
    fieldTape.Decodes (freadNumber stale w) n (encode w n) := by
  have hfield := freadField_decodes stale (encode w n)
  rw [length_encode] at hfield
  have hrun : fieldTape.Decodes (freadNumber stale w) (decode (encode w n)) (encode w n ++ []) :=
    hfield.bind (.pure _)
  rwa [decode_encode_of_lt h, List.append_nil] at hrun

theorem freadNumber_recovers (w : Nat) :
    fieldTape.Recovers (freadNumber stale w) fun n x => x = encode w n ∧ n < 256 ^ w := by
  refine ((freadField_recovers stale w).bind fun bs => .pure (V := fun n y => n = decode bs ∧ y = []) ⟨rfl, rfl⟩).mono ?_
  rintro _ _ ⟨bs, x, y, ⟨rfl, hlen⟩, ⟨rfl, rfl⟩, rfl⟩
  have henc := encode_decode bs
  have hlt := decode_lt bs
  rw [hlen] at henc hlt
  exact ⟨by rw [henc, List.append_nil], hlt⟩

/-! ## Functions -/

/-- The entry that a function of a file becomes. -/
def ImageCfun.toCfun (f : ImageCfun) : TvmProgramCfun := ⟨f.rtype, f.atypes, f.atypes.length, some (cstring f.name)⟩

theorem loadCfun_decodes (f : ImageCfun) : fieldTape.Decodes (loadCfun stale) f.toCfun f.bytes := by
  have hname : f.name.length < 256 ^ 1 := f.name_lt
  have hrtype : BitVec.ofNat 8 f.rtype.toNat = f.rtype := by rw [BitVec.ofNat_toNat, BitVec.setWidth_eq]
  have hdone : fieldTape.Decodes
      (pure ⟨.ofNat 8 f.rtype.toNat, f.atypes, f.atypes.length, some (cstring f.name)⟩ : Load _) f.toCfun [] := by
    rw [hrtype]
    exact .pure f.toCfun
  have hbytes : f.bytes = encode 1 f.name.length ++ (f.name ++ (encode 2 f.atypes.length ++
      (encode 1 f.rtype.toNat ++ (f.atypes ++ [])))) := by
    simp [ImageCfun.bytes]
  rw [hbytes]
  exact (freadNumber_decodes stale hname).bind <| (freadField_decodes stale f.name).bind <|
    (freadNumber_decodes stale f.acount_lt).bind <| (freadNumber_decodes stale (w := 1) f.rtype.isLt).bind <|
    (freadField_decodes stale f.atypes).bind hdone

theorem loadCfun_recovers :
    fieldTape.Recovers (loadCfun stale) fun _ x => ∃ f : ImageCfun, x = f.bytes := by
  refine ((freadNumber_recovers stale 1).bind fun nameLen => (freadField_recovers stale nameLen).bind fun name =>
    (freadNumber_recovers stale 2).bind fun acount => (freadNumber_recovers stale 1).bind fun rtype =>
    (freadField_recovers stale acount).bind fun atypes => .pure (V := fun _ y => y = []) rfl).mono ?_
  rintro _ _ ⟨nameLen, _, _, ⟨rfl, hname⟩, ⟨name, _, _, ⟨rfl, rfl⟩, ⟨acount, _, _, ⟨rfl, hacount⟩,
    ⟨rtype, _, _, ⟨rfl, hrtype⟩, ⟨atypes, _, _, ⟨rfl, rfl⟩, rfl, rfl⟩, rfl⟩, rfl⟩, rfl⟩, rfl⟩
  have hb : (BitVec.ofNat 8 rtype).toNat = rtype := Nat.mod_eq_of_lt hrtype
  refine ⟨⟨name, .ofNat 8 rtype, atypes, hname, hacount⟩, ?_⟩
  simp only [ImageCfun.bytes, List.append_assoc, List.append_nil, hb]

theorem loadCfuns_decodes (fs : List ImageCfun) (cfuns : CArray TvmProgramCfun tvmMetadataMaxCfunCapacity) (i : Nat)
    (h : i + fs.length ≤ tvmMetadataMaxCfunCapacity) :
    fieldTape.Decodes (loadCfuns stale cfuns i fs.length) (cfuns.putAll i (fs.map ImageCfun.toCfun))
      (fs.flatMap ImageCfun.bytes) := by
  induction fs generalizing cfuns i with
  | nil => exact .pure cfuns
  | cons f fs ih =>
    rw [List.length_cons] at h
    have hstore : cfuns.store (Fault.outOfBounds .cfuns) i f.toCfun = .ok (cfuns.put i f.toCfun) :=
      CArray.store_ok.2 ⟨by omega, rfl⟩
    exact (loadCfun_decodes stale f).bind (.lift_bind hstore (ih (cfuns.put i f.toCfun) (i + 1) (by omega)))

theorem loadCfuns_recovers (n : Nat) (cfuns : CArray TvmProgramCfun tvmMetadataMaxCfunCapacity) (i : Nat)
    (hi : i ≤ tvmMetadataMaxCfunCapacity) :
    fieldTape.Recovers (loadCfuns stale cfuns i n) fun _ x =>
      ∃ fs : List ImageCfun, fs.length = n ∧ i + n ≤ tvmMetadataMaxCfunCapacity ∧ x = fs.flatMap ImageCfun.bytes := by
  induction n generalizing cfuns i with
  | zero => exact .pure ⟨[], rfl, hi, rfl⟩
  | succ n ih =>
    refine ((loadCfun_recovers stale).bind fun cfun => .lift_bind fun cfuns' hstore =>
      ih cfuns' (i + 1) (CArray.store_ok.1 hstore).1).mono ?_
    rintro _ _ ⟨_, _, _, ⟨f, rfl⟩, ⟨fs, hlen, hle, rfl⟩, rfl⟩
    exact ⟨f :: fs, by rw [List.length_cons, hlen], by omega, rfl⟩

/-! ## Modules -/

/-- The entry that a module of a file makes of an entry `old`. -/
def ImageModule.toModule (m : ImageModule) (old : TvmProgramMetadataModule) : TvmProgramMetadataModule :=
  ⟨old.cfuns.putAll 0 (m.cfuns.map ImageCfun.toCfun), some (cstring m.name), m.cfuns.length⟩

theorem ImageModule.cfuns_lt (m : ImageModule) : m.cfuns.length < 256 ^ 4 :=
  Nat.lt_of_le_of_lt m.cfuns_le (by decide)

theorem loadModule_decodes (m : ImageModule) {modules : CArray TvmProgramMetadataModule tvmMetadataMaxModuleCapacity}
    {k : Nat} {old : TvmProgramMetadataModule} (hold : modules.get? k = some old) :
    fieldTape.Decodes (loadModule stale modules k) (modules.put k (m.toModule old)) m.bytes := by
  have hname : m.name.length < 256 ^ 1 := m.name_lt
  have hload : modules.load (Fault.outOfBounds .modules) k = .ok old := CArray.load_ok.2 hold
  have hstore : modules.store (Fault.outOfBounds .modules) k (m.toModule old) = .ok (modules.put k (m.toModule old)) :=
    CArray.store_ok.2 ⟨CArray.get?_lt hold, rfl⟩
  have hcfuns := loadCfuns_decodes stale m.cfuns old.cfuns 0 (by rw [Nat.zero_add]; exact m.cfuns_le)
  have hbytes : m.bytes = encode 1 m.name.length ++ (m.name ++ (encode 4 m.cfuns.length ++
      (m.cfuns.flatMap ImageCfun.bytes ++ []))) := by
    simp [ImageModule.bytes]
  rw [hbytes]
  exact (freadNumber_decodes stale hname).bind <| (freadField_decodes stale m.name).bind <| .lift_bind hload <|
    (freadNumber_decodes stale m.cfuns_lt).bind <| hcfuns.bind <| .lift hstore

theorem loadModule_recovers (modules : CArray TvmProgramMetadataModule tvmMetadataMaxModuleCapacity) (k : Nat) :
    fieldTape.Recovers (loadModule stale modules k) fun _ x =>
      k < tvmMetadataMaxModuleCapacity ∧ ∃ m : ImageModule, x = m.bytes := by
  refine ((freadNumber_recovers stale 1).bind fun nameLen => (freadField_recovers stale nameLen).bind fun name =>
    .lift_bind fun m hm => (freadNumber_recovers stale 4).bind fun cfunCount =>
    (loadCfuns_recovers stale cfunCount m.cfuns 0 (Nat.zero_le _)).bind fun cfuns =>
    .lift (V := fun _ y => k < tvmMetadataMaxModuleCapacity ∧ y = [])
      fun _ hstore => ⟨(CArray.store_ok.1 hstore).1, rfl⟩).mono ?_
  rintro _ _ ⟨nameLen, _, _, ⟨rfl, hname⟩, ⟨name, _, _, ⟨rfl, rfl⟩, ⟨cfunCount, _, _, ⟨rfl, -⟩,
    ⟨_, _, _, ⟨fs, rfl, hfs, rfl⟩, ⟨hk, rfl⟩, rfl⟩, rfl⟩, rfl⟩, rfl⟩
  rw [Nat.zero_add] at hfs
  refine ⟨hk, ⟨name, fs, hname, hfs⟩, ?_⟩
  simp only [ImageModule.bytes, List.append_assoc, List.append_nil]

theorem loadModules_decodes (ms : List ImageModule)
    (modules : CArray TvmProgramMetadataModule tvmMetadataMaxModuleCapacity) (k : Nat)
    (h : k + ms.length ≤ tvmMetadataMaxModuleCapacity) :
    ∃ modules', fieldTape.Decodes (loadModules stale modules k ms.length) modules' (ms.flatMap ImageModule.bytes) ∧
      (∀ j < k, modules'.get? j = modules.get? j) ∧
      ∀ j m, ms[j]? = some m → ∃ old, modules'.get? (k + j) = some (m.toModule old) := by
  induction ms generalizing modules k with
  | nil => exact ⟨modules, .pure modules, fun _ _ => rfl, fun j m hj => nomatch hj⟩
  | cons m ms ih =>
    rw [List.length_cons] at h
    have hk : k < tvmMetadataMaxModuleCapacity := by omega
    obtain ⟨old, hold⟩ : ∃ old, modules.get? k = some old := ⟨_, modules.get?_of_lt hk⟩
    obtain ⟨modules', hdec, hbelow, hloaded⟩ := ih (modules.put k (m.toModule old)) (k + 1) (by omega)
    refine ⟨modules', (loadModule_decodes stale m hold).bind hdec, ?_, ?_⟩
    · intro j hj
      rw [hbelow j (by omega), CArray.get?_put_of_ne _ _ (by omega)]
    · intro j m' hj
      cases j with
      | zero =>
        cases hj
        exact ⟨old, by rw [Nat.add_zero, hbelow k (by omega), CArray.get?_put_self _ _ hk]⟩
      | succ j =>
        obtain ⟨old', hold'⟩ := hloaded j m' hj
        exact ⟨old', by rw [← hold']; congr 1; omega⟩

theorem loadModules_recovers (n : Nat) (modules : CArray TvmProgramMetadataModule tvmMetadataMaxModuleCapacity)
    (k : Nat) :
    fieldTape.Recovers (loadModules stale modules k n) fun _ x => ∃ ms : List ImageModule,
      ms.length = n ∧ (n = 0 ∨ k + n ≤ tvmMetadataMaxModuleCapacity) ∧ x = ms.flatMap ImageModule.bytes := by
  induction n generalizing modules k with
  | zero => exact .pure ⟨[], rfl, .inl rfl, rfl⟩
  | succ n ih =>
    refine ((loadModule_recovers stale modules k).bind fun modules' => ih modules' (k + 1)).mono ?_
    rintro _ _ ⟨_, _, _, ⟨hk, m, rfl⟩, ⟨ms, hlen, hle, rfl⟩, rfl⟩
    refine ⟨m :: ms, by rw [List.length_cons, hlen], .inr ?_, rfl⟩
    rcases hle with rfl | hle <;> omega

/-! ## The constant table -/

/-- The table that the table of a file becomes. -/
def ImageTable.toConstTable (t : ImageTable) : TvmConstTable :=
  ⟨t.referances, t.referances.length, t.data, t.dataSize⟩

theorem loadConstArrays_decodes (t : ImageTable) :
    fieldTape.Decodes (loadConstArrays stale TvmConstTable.zero t.referances.length t.dataSize) t.toConstTable
      (t.referances.flatMap (encode 8) ++ t.data) := by
  obtain ⟨referances, dataSize, data, hcount, hlt, hsize, hdata⟩ := t
  cases referances with
  | nil =>
    obtain rfl : data = [] := List.eq_nil_of_length_eq_zero hdata
    exact .pure _
  | cons a as =>
    have hlen : data.length = dataSize := hdata
    subst hlen
    have hrefs := freadField_decodes stale ((a :: as).flatMap (encode 8))
    rw [length_flatMap_encode] at hrefs
    have hval : (⟨decodeList 8 (a :: as).length ((a :: as).flatMap (encode 8)), (a :: as).length, data,
        data.length⟩ : TvmConstTable) = ⟨a :: as, (a :: as).length, data, data.length⟩ := by
      rw [decodeList_flatMap hlt]
    rw [ImageTable.toConstTable, ← hval]
    exact hrefs.bind (freadField_decodes stale data).bind_pure

theorem loadConstTable_decodes (t : ImageTable) :
    fieldTape.Decodes (loadConstTable stale TvmConstTable.zero) t.toConstTable t.bytes := by
  have hbytes : t.bytes = encode 8 t.referances.length ++ (encode 8 t.dataSize ++
      (t.referances.flatMap (encode 8) ++ t.data)) := by
    simp [ImageTable.bytes]
  rw [hbytes]
  exact (freadNumber_decodes stale t.referanceCount_lt).bind <|
    (freadNumber_decodes stale t.dataSize_lt).bind (loadConstArrays_decodes stale t)

theorem loadConstArrays_recovers (table : TvmConstTable) (n m : Nat) :
    fieldTape.Recovers (loadConstArrays stale table n m) fun c y => n < 256 ^ 8 → m < 256 ^ 8 → ∃ t : ImageTable,
      t.referances.length = n ∧ t.dataSize = m ∧ y = t.referances.flatMap (encode 8) ++ t.data ∧
        (table = TvmConstTable.zero → c = t.toConstTable) := by
  unfold loadConstArrays
  split
  · rename_i hpos
    refine ((freadField_recovers stale (8 * n)).bind fun refs => (freadField_recovers stale m).bind fun data =>
      .pure (V := fun c y => c = _ ∧ y = []) ⟨rfl, rfl⟩).mono ?_
    rintro _ _ ⟨refs, _, _, ⟨rfl, hrefs⟩, ⟨data, _, _, ⟨rfl, hdata⟩, ⟨rfl, rfl⟩, rfl⟩, rfl⟩ hn hm
    have hlen : (decodeList 8 n refs).length = n := length_decodeList 8 n refs
    have hne : decodeList 8 n refs ≠ [] := fun h => by simp [h] at hlen; omega
    refine ⟨⟨decodeList 8 n refs, m, data, by rw [hlen]; exact hn, fun _ => decodeList_lt hrefs, hm,
      by rw [if_neg hne]; exact hdata⟩, hlen, rfl, ?_, ?_⟩
    · rw [flatMap_decodeList hrefs, List.append_nil]
    · rintro -
      simp only [ImageTable.toConstTable, hlen]
  · rename_i hpos
    obtain rfl : n = 0 := by omega
    refine .pure fun hn hm => ⟨⟨[], m, [], hn, nofun, hm, rfl⟩, rfl, rfl, rfl, ?_⟩
    rintro rfl
    rfl

theorem loadConstTable_recovers (table : TvmConstTable) :
    fieldTape.Recovers (loadConstTable stale table) fun c x => ∃ t : ImageTable,
      x = t.bytes ∧ (table = TvmConstTable.zero → c = t.toConstTable) := by
  refine ((freadNumber_recovers stale 8).bind fun n => (freadNumber_recovers stale 8).bind fun m =>
    loadConstArrays_recovers stale table n m).mono ?_
  rintro c _ ⟨n, _, _, ⟨rfl, hn⟩, ⟨m, _, y, ⟨rfl, hm⟩, harrays, rfl⟩, rfl⟩
  obtain ⟨t, rfl, rfl, rfl, htable⟩ := harrays hn hm
  exact ⟨t, by simp [ImageTable.bytes], htable⟩

/-! ## The header -/

/-- `p` has the metadata of an image. -/
structure HoldsModules (img : Image) (metadata : TvmProgramMetadata) : Prop where
  moduleCount : metadata.moduleCount = img.modules.length
  modules : ∀ k m, img.modules[k]? = some m → ∃ old, metadata.modules.get? k = some (m.toModule old)

/-- The bytes of an image before its code. -/
def Image.headerBytes (img : Image) : List Byte :=
  encode 4 img.modules.length ++ (img.modules.flatMap ImageModule.bytes ++ img.table.bytes)

theorem Image.bytes_eq (img : Image) : img.bytes = img.headerBytes ++ img.cells.flatten := by
  simp [Image.bytes, Image.headerBytes]

theorem loadHeader_decodes (img : Image) : ∃ metadata, HoldsModules img metadata ∧
    fieldTape.Decodes (loadHeader stale TvmProgram.zero) (metadata, img.table.toConstTable) img.headerBytes := by
  have hcount : img.modules.length < 256 ^ 4 := Nat.lt_of_le_of_lt img.modules_le (by decide)
  obtain ⟨modules, hdec, -, hmodules⟩ := loadModules_decodes stale img.modules TvmProgram.zero.metadata.modules 0
    (by rw [Nat.zero_add]; exact img.modules_le)
  refine ⟨⟨modules, img.modules.length⟩, ⟨rfl, ?_⟩, ?_⟩
  · intro k m hm
    obtain ⟨old, hold⟩ := hmodules k m hm
    rw [Nat.zero_add] at hold
    exact ⟨old, hold⟩
  · exact (freadNumber_decodes stale hcount).bind (hdec.bind (loadConstTable_decodes stale img.table).bind_pure)

theorem loadHeader_recovers (p : TvmProgram) :
    fieldTape.Recovers (loadHeader stale p) fun h x => ∃ (ms : List ImageModule) (t : ImageTable),
      ms.length ≤ tvmMetadataMaxModuleCapacity ∧
      x = encode 4 ms.length ++ (ms.flatMap ImageModule.bytes ++ t.bytes) ∧
      (p.constTable = TvmConstTable.zero → h.2 = t.toConstTable) := by
  refine ((freadNumber_recovers stale 4).bind fun n => (loadModules_recovers stale n p.metadata.modules 0).bind
    fun modules => (loadConstTable_recovers stale p.constTable).bind fun constTable =>
    .pure (V := fun h y => h.2 = constTable ∧ y = []) ⟨rfl, rfl⟩).mono ?_
  rintro ⟨_, _⟩ _ ⟨n, _, _, ⟨rfl, -⟩, ⟨_, _, _, ⟨ms, rfl, hle, rfl⟩, ⟨c, _, _, ⟨t, rfl, htable⟩, ⟨rfl, rfl⟩, rfl⟩, rfl⟩, rfl⟩
  refine ⟨ms, t, ?_, by rw [List.append_nil], htable⟩
  rcases hle with hle | hle
  · rw [hle]
    exact Nat.zero_le _
  · omega

/-! ## The code -/

variable {code : CArray Opcode tvmProgramCapacity} {i n : Nat}

theorem loadCode_eof {r : ImageReader} (h : r.rest = []) :
    loadCode stale code i (n + 1) r = .ok (code, { r with missing := r.missing + opcodeSize * (n + 1) }) := by
  have hempty : r.rest.isEmpty = true := by rw [h]; rfl
  show (if r.rest.isEmpty then _ else _ : Load _) r = _
  rw [if_pos hempty]
  rfl

theorem loadCode_cell {r : ImageReader} (h : r.rest ≠ []) :
    loadCode stale code i (n + 1) r =
      (fread stale opcodeSize >>= fun cell => StateT.lift (code.store (.outOfBounds .code) i (Opcode.ofBytes cell)) >>=
        fun code => loadCode stale code (i + 1) n : Load _) r := by
  have hempty : ¬ r.rest.isEmpty = true := by rwa [List.isEmpty_iff]
  show (if r.rest.isEmpty then _ else _ : Load _) r = _
  rw [if_neg hempty]

theorem loadCode_decodes (cells : List (List Byte)) (code : CArray Opcode tvmProgramCapacity) (i : Nat)
    (hsize : ∀ c ∈ cells, c.length = opcodeSize) (h : i + cells.length ≤ tvmProgramCapacity) :
    fileTape.Decodes (loadCode stale code i cells.length) (code.putAll i (cells.map Opcode.ofBytes)) cells.flatten := by
  induction cells generalizing code i with
  | nil => exact .pure code
  | cons c cells ih =>
    rw [List.length_cons] at h
    have hc : c.length = opcodeSize := hsize c (List.mem_cons_self ..)
    have hcell := fread_decodes stale c
    rw [hc] at hcell
    have hstore : code.store (Fault.outOfBounds .code) i (Opcode.ofBytes c) = .ok (code.put i (Opcode.ofBytes c)) :=
      CArray.store_ok.2 ⟨by omega, rfl⟩
    have hrest := ih (code.put i (Opcode.ofBytes c)) (i + 1) (fun d hd => hsize d (List.mem_cons_of_mem c hd)) (by omega)
    intro r tl hr
    have hne : r.rest ≠ [] := by
      have hr : r.rest = (c :: cells).flatten ++ tl := hr
      intro hnil
      rw [hnil, List.flatten_cons] at hr
      have : c = [] := by simpa using (congrArg (List.take c.length) hr).symm
      rw [this] at hc
      cases hc
    rw [List.length_cons, loadCode_cell stale hne]
    exact (hcell.bind (.lift_bind hstore hrest)) r tl hr

theorem loadCode_recovers (n : Nat) (code : CArray Opcode tvmProgramCapacity) (i : Nat) (hi : i ≤ tvmProgramCapacity) :
    fileTape.Recovers (loadCode stale code i n) fun _ x => ∃ cells : List (List Byte), cells.length = n ∧
      (∀ c ∈ cells, c.length = opcodeSize) ∧ i + n ≤ tvmProgramCapacity ∧ x = cells.flatten := by
  induction n generalizing code i with
  | zero => exact .pure ⟨[], rfl, nofun, hi, rfl⟩
  | succ n ih =>
    have hcell : fileTape.Recovers (fread stale opcodeSize >>= fun cell =>
        StateT.lift (code.store (.outOfBounds .code) i (Opcode.ofBytes cell)) >>= fun code =>
          loadCode stale code (i + 1) n) fun _ x => ∃ cells : List (List Byte), cells.length = n + 1 ∧
      (∀ c ∈ cells, c.length = opcodeSize) ∧ i + (n + 1) ≤ tvmProgramCapacity ∧ x = cells.flatten := by
      refine ((fread_recovers stale opcodeSize).bind fun cell => .lift_bind fun code' hstore =>
        ih code' (i + 1) (CArray.store_ok.1 hstore).1).mono ?_
      rintro _ _ ⟨cell, _, _, ⟨rfl, hsize⟩, ⟨cells, hlen, hsizes, hle, rfl⟩, rfl⟩
      exact ⟨cell :: cells, by rw [List.length_cons, hlen], List.forall_mem_cons.2 ⟨hsize, hsizes⟩, by omega, rfl⟩
    intro r a r' hrun hfull
    by_cases hnil : r.rest = []
    · -- at the end of the file a cell is missing
      rw [loadCode_eof stale hnil] at hrun
      cases hrun
      have : r.missing + opcodeSize * (n + 1) = 0 := hfull
      rw [opcodeSize] at this
      omega
    · rw [loadCode_cell stale hnil] at hrun
      exact hcell r a r' hrun hfull

/-! ## The file -/

theorem loadImage_of_header {p : TvmProgram} {r r' : ImageReader} {metadata : TvmProgramMetadata}
    {table : TvmConstTable} (h : loadHeader stale p r = .ok ((metadata, table), r')) :
    loadImage stale p r = loadCode stale p.code 0 (r'.byteSize.toNat / opcodeSize) r' >>= fun c =>
      .ok (⟨metadata, table, c.1, r'.byteSize.toNat / opcodeSize⟩, c.2) := by
  rw [loadImage, Tape.bind_run, h]
  rfl

theorem length_cells {cells : List (List Byte)} (h : ∀ c ∈ cells, c.length = opcodeSize) :
    cells.flatten.length = opcodeSize * cells.length := by
  induction cells with
  | nil => rfl
  | cons c cells ih =>
    rw [List.flatten_cons, List.length_append, h c (List.mem_cons_self ..),
      ih fun d hd => h d (List.mem_cons_of_mem c hd), List.length_cons, Nat.mul_succ, Nat.add_comm]

/-- An exact `byte_size` gives the number of whole cells that are left. -/
theorem ImageReader.Exact.size {r : ImageReader} (h : r.Exact) (hlt : r.rest.length < 2 ^ 64) :
    r.byteSize.toNat / opcodeSize = r.rest.length / opcodeSize := by
  rw [h, BitVec.toNat_ofNat, Nat.mod_eq_of_lt hlt]

/-- The file of an image, with less than a cell after it, is loaded in full and gives the image. -/
theorem loadImage_bytes (img : Image) {tail : List Byte} (htail : tail.length < opcodeSize) :
    ∃ metadata r, HoldsModules img metadata ∧
      loadImage stale TvmProgram.zero (.ofFile (img.bytes ++ tail)) =
        .ok (⟨metadata, img.table.toConstTable, TvmProgram.zero.code.putAll 0 (img.cells.map Opcode.ofBytes),
          img.cells.length⟩, r) ∧
      r.missing = 0 ∧ ((img.bytes ++ tail).length < 2 ^ 63 → r.negative = false) := by
  obtain ⟨metadata, hholds, hheader⟩ := loadHeader_decodes stale img
  have hfile : img.bytes ++ tail = img.headerBytes ++ (img.cells.flatten ++ tail) := by
    rw [img.bytes_eq, List.append_assoc]
  obtain ⟨r, hrun, hreads⟩ := hheader (.ofFile (img.bytes ++ tail)) _ hfile
  have hrest : r.rest = img.cells.flatten ++ tail := Tape.rest_after (T := fieldTape) hreads hfile
  have hlen : r.rest.length = opcodeSize * img.cells.length + tail.length := by
    rw [hrest, List.length_append, length_cells img.cells_size]
  have hle := img.cells_le
  have hsize : r.byteSize.toNat / opcodeSize = img.cells.length := by
    simp only [opcodeSize, tvmProgramCapacity] at hlen htail hle
    rw [(hreads.exact rfl).size (by omega), hlen, opcodeSize]
    omega
  obtain ⟨r', hrun', hreads'⟩ := loadCode_decodes stale img.cells TvmProgram.zero.code 0 img.cells_size
    (by rw [Nat.zero_add]; exact hle) r tail hrest
  refine ⟨metadata, r', hholds, ?_, ?_, ?_⟩
  · rw [loadImage_of_header stale hrun, hsize, hrun']
    rfl
  · rw [hreads'.missing, hreads.missing]
    rfl
  · intro hlt
    rw [hreads'.negative]
    exact (hreads.calm rfl ⟨hlt, rfl⟩).2

/-- A load to which no byte was missing is the load of an image. -/
theorem loadImage_recovers {file : List Byte} (hlt : file.length < 2 ^ 64) {p : TvmProgram} {r : ImageReader}
    (hrun : loadImage stale TvmProgram.zero (.ofFile file) = .ok (p, r)) (hfull : r.missing = 0) :
    ∃ (img : Image) (tail : List Byte), file = img.bytes ++ tail ∧ tail.length < opcodeSize ∧
      p.constTable = img.table.toConstTable := by
  obtain ⟨⟨metadata, table⟩, r', hheader, -⟩ := Tape.bind_ok hrun
  rw [loadImage_of_header stale hheader] at hrun
  obtain ⟨⟨code, r''⟩, hcode, hdone⟩ := Except.bind_ok hrun
  cases hdone
  obtain ⟨_, ⟨cells, hcount, hcells, hle, rfl⟩, hreads'⟩ :=
    loadCode_recovers stale _ _ 0 (Nat.zero_le _) r' code r'' hcode hfull
  obtain ⟨_, ⟨ms, t, hms, rfl, htable⟩, hreads⟩ :=
    loadHeader_recovers stale TvmProgram.zero _ _ r' hheader (hreads'.missing.symm.trans hfull)
  have hfile : file = (encode 4 ms.length ++ (ms.flatMap ImageModule.bytes ++ t.bytes)) ++ r'.rest := hreads.rest
  have hlen : r'.rest.length = opcodeSize * cells.length + r''.rest.length := by
    rw [hreads'.rest, List.length_append, length_cells hcells]
  have hsize : cells.length = r'.rest.length / opcodeSize := by
    rw [hcount, (hreads.exact rfl).size]
    rw [hfile, List.length_append] at hlt
    omega
  refine ⟨⟨ms, t, cells, hms, hcells, by omega⟩, r''.rest, ?_, ?_, htable rfl⟩
  · rw [hfile, hreads'.rest]
    simp [Image.bytes]
  · simp only [opcodeSize] at hlen hsize ⊢
    omega

end TileVm
