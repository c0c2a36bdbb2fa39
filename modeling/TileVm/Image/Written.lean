/-
What the writer keeps of a translator state. Names are cut to what the one-byte length says and
argument types to the 16-bit count, so that the file of any state is the file of its cut-down
form, which is within the capacities of the format.
-/
import TileVm.Image.RoundTrip

namespace TileVm

open LittleEndian

/-! ## Cut-down forms -/

/-- The part of a name that is written. -/
def writtenName (name : CStr) : CStr := name.take (name.length % 2 ^ 8)

def TvmProgramCfun.written (f : TvmProgramCfun) : TvmProgramCfun :=
  { f with atypes := f.atypes.take f.acount, symbolName := f.symbolName.map writtenName }

def TvmProgramMetadataModule.written (m : TvmProgramMetadataModule) : TvmProgramMetadataModule :=
  { m with cfuns := m.cfuns.map TvmProgramCfun.written }

def TasmTranslator.written (t : TasmTranslator) : TasmTranslator :=
  { t with
    program := { t.program with
      metadata := { t.program.metadata with
        modules := t.program.metadata.modules.map TvmProgramMetadataModule.written } } }

def CliParsedArgs.written (args : CliParsedArgs) : CliParsedArgs where
  clibNames := args.clibNames.map writtenName
  clibCount_le := by
    rw [List.length_map]
    exact args.clibCount_le

theorem writtenName_length (name : CStr) : (writtenName name).length = name.length % 2 ^ 8 := by
  rw [writtenName, List.length_take]
  exact Nat.min_eq_left (Nat.mod_le _ _)

theorem writtenName_of_fits {name : CStr} (h : NameFits name) : writtenName name = name := by
  have hmod : name.length % 2 ^ 8 = name.length := Nat.mod_eq_of_lt (Nat.lt_succ_of_le h.length_le)
  rw [writtenName, hmod, List.take_length]

/-- The written part of a C string fits the format. -/
theorem writtenName_fits {name : CStr} (h : 0 ∉ name) : NameFits (writtenName name) where
  length_le := by
    rw [writtenName_length]
    omega
  noNul hmem := h (List.mem_of_mem_take hmem)

/-! ## The same bytes -/

theorem nameRecord_written (name : CStr) : nameRecord (writtenName name) = nameRecord name := by
  have hbyte : encode 1 (name.length % 2 ^ 8) = encode 1 name.length := by
    have hmod : BitVec.ofNat 8 (name.length % 2 ^ 8) = BitVec.ofNat 8 name.length := by
      apply BitVec.eq_of_toNat_eq
      simp
    rw [encode, encode, hmod]
    rfl
  simp only [nameRecord, writtenName_length, hbyte, Nat.mod_mod]
  rw [writtenName, List.take_take, Nat.min_self]

theorem firstEntries_take {α : Type} (array : ArrayName) (entries : List α) (n : Nat) :
    firstEntries array (entries.take n) n = firstEntries array entries n := by
  simp only [firstEntries, List.length_take, List.take_take, Nat.min_self]
  by_cases h : n ≤ entries.length
  · rw [if_pos (by omega), if_pos h]
  · rw [if_neg (by omega), if_neg h]

theorem cfunRecord_written (f : TvmProgramCfun) : cfunRecord f.written = cfunRecord f := by
  obtain ⟨rtype, atypes, acount, symbolName⟩ := f
  cases symbolName with
  | none => rfl
  | some name =>
    show (firstEntries .atypes (atypes.take acount) acount >>= fun atypes =>
        .ok (nameRecord (writtenName name) ++ encode 2 acount ++ encode 1 rtype.toNat ++ atypes)) = _
    rw [firstEntries_take, nameRecord_written]
    rfl

theorem load_map {α β : Type} {m : Nat} (f : α → β) (a : CArray α m) (e : Fault) (i : Nat) :
    (a.map f).load e i = (a.load e i).map f := by
  unfold CArray.load
  rw [CArray.get?_map]
  cases a.get? i <;> rfl

theorem cfunRecords_written (cfuns : CArray TvmProgramCfun tvmMetadataMaxCfunCapacity) (n i : Nat) :
    cfunRecords (cfuns.map TvmProgramCfun.written) i n = cfunRecords cfuns i n := by
  induction n generalizing i with
  | zero => rfl
  | succ n ih =>
    simp only [cfunRecords, load_map, ih]
    cases cfuns.load (Fault.outOfBounds .cfuns) i with
    | error e => rfl
    | ok f =>
      show (cfunRecord f.written >>= fun record => _) = (cfunRecord f >>= fun record => _)
      rw [cfunRecord_written]

/-- From `modules[k]` on, one array holds the cut-down modules of the other. -/
def WrittenFrom (k : Nat) (ms ms' : CArray TvmProgramMetadataModule tvmMetadataMaxModuleCapacity) : Prop :=
  ∀ j, k ≤ j → ms'.get? j = (ms.get? j).map TvmProgramMetadataModule.written

theorem moduleRecord_written {ms ms' ms₁' : CArray TvmProgramMetadataModule tvmMetadataMaxModuleCapacity} {k : Nat}
    {name : CStr} {record : List Byte} (hms : WrittenFrom k ms ms')
    (h : moduleRecord ms' k (writtenName name) = .ok (ms₁', record)) :
    ∃ ms₁, moduleRecord ms k name = .ok (ms₁, record) ∧ WrittenFrom (k + 1) ms₁ ms₁' := by
  obtain ⟨m', hload, h⟩ := Except.bind_ok h
  obtain ⟨ms₂', hstore, h⟩ := Except.bind_ok h
  obtain ⟨records, hrecords, h⟩ := Except.bind_ok h
  cases h
  have hm' := CArray.load_ok.mp hload
  obtain ⟨hk, rfl⟩ := CArray.store_ok.mp hstore
  rw [hms k (Nat.le_refl k), Option.map_eq_some_iff] at hm'
  obtain ⟨m, hm, rfl⟩ := hm'
  have hrecords : cfunRecords m.cfuns 0 m.cfunCount = .ok records := by
    rw [← cfunRecords_written]
    exact hrecords
  refine ⟨ms.put k { m with moduleName := some name }, ?_, ?_⟩
  · rw [moduleRecord, Except.bind_of_ok (CArray.load_ok.mpr hm), Except.bind_of_ok (CArray.store_ok.mpr ⟨hk, rfl⟩),
      Except.bind_of_ok hrecords, nameRecord_written]
    rfl
  · intro j hj
    rw [CArray.get?_put_of_ne _ _ (by omega), CArray.get?_put_of_ne _ _ (by omega)]
    exact hms j (by omega)

theorem moduleRecords_written {names : List CStr} {k : Nat} {record : List Byte}
    {ms ms' ms₁' : CArray TvmProgramMetadataModule tvmMetadataMaxModuleCapacity} (hms : WrittenFrom k ms ms')
    (h : moduleRecords ms' k (names.map writtenName) = .ok (ms₁', record)) :
    ∃ ms₁, moduleRecords ms k names = .ok (ms₁, record) := by
  induction names generalizing ms ms' k record with
  | nil =>
    cases h
    exact ⟨ms, rfl⟩
  | cons name names ih =>
    obtain ⟨⟨ms₂', first⟩, hfirst, h⟩ := Except.bind_ok h
    obtain ⟨⟨ms₃', rest⟩, hrest, h⟩ := Except.bind_ok h
    cases h
    obtain ⟨ms₂, hfirst, hms⟩ := moduleRecord_written hms hfirst
    obtain ⟨ms₃, hrest⟩ := ih hms hrest
    refine ⟨ms₃, ?_⟩
    rw [moduleRecords, Except.bind_of_ok hfirst]
    exact (Except.bind_of_ok hrest).trans rfl

/-- The file of a state is the file of its cut-down form. -/
theorem generate_written (pad : Nat → Padding) {t t₁ : TasmTranslator} {args : CliParsedArgs} {bytes : List Byte}
    (h : tasmTranslatorGenerateBin pad t.written args.written = .ok (t₁, bytes)) :
    ∃ t', tasmTranslatorGenerateBin pad t args = .ok (t', bytes) := by
  obtain ⟨⟨ms₁', records⟩, hmodules, h⟩ := Except.bind_ok h
  obtain ⟨table, htable, h⟩ := Except.bind_ok h
  obtain ⟨code, hcode, h⟩ := Except.bind_ok h
  cases h
  have hms : WrittenFrom 0 t.program.metadata.modules t.written.program.metadata.modules :=
    fun j _ => CArray.get?_map _ _ j
  obtain ⟨ms₁, hmodules⟩ := moduleRecords_written hms hmodules
  have htable : constTableRecord t.program.constTable = .ok table := htable
  have hcode : codeRecord pad t.program.code 0 t.program.size = .ok code := hcode
  refine ⟨{ t with program := { t.program with metadata := ⟨ms₁, args.clibNames.length⟩ } }, ?_⟩
  simp only [tasmTranslatorGenerateBin, hmodules, htable, hcode, CliParsedArgs.written, List.length_map]
  rfl

end TileVm
