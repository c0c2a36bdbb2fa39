/-
What `@cfun` and `@data` leave. The functions go to the first module in document order; the constants
are laid out one behind the other, each with its offset. No other line touches either.
-/
import TileVm.Lib.LittleEndian
import TileVm.Tasm.Complete

namespace TileVm

/-! ## The declarations of a document -/

/-- The function that `@cfun` declares. -/
def Item.cfun? : Item → Option TvmProgramCfun
  | .metadata (.cfunction rtype atypes _ name) => some ⟨rtype, atypes, atypes.length % 2 ^ 16, name⟩
  | _ => none

/-- The value that `@data` declares. -/
def Item.const? : Item → Option TasmAst
  | .metadata (.data value) => value
  | _ => none

/-- The functions of a document, in order. -/
def cfunsOf (items : List Item) : List TvmProgramCfun := items.filterMap Item.cfun?

/-- The constants of a document, in order. -/
def constsOf (items : List Item) : List TasmAst := items.filterMap Item.const?

/-- How a constant is stored: four bytes, least significant first, for a number, one for a character, and the
characters up to the first NUL for a string. -/
def constBytes : TasmAst → List Byte
  | .string text _ => text.takeWhile (· ≠ 0)
  | .number _ v => LittleEndian.encode 4 v.toNat
  | .char (some c) => [c.getD 0 0]
  | _ => []

/-- Where each constant begins, behind `n` bytes. -/
def offsets : Nat → List TasmAst → List Nat
  | _, [] => []
  | n, v :: vs => n :: offsets (n + (constBytes v).length) vs

theorem offsets_append (n : Nat) (vs ws : List TasmAst) :
    offsets n (vs ++ ws) = offsets n vs ++ offsets (n + (vs.flatMap constBytes).length) ws := by
  induction vs generalizing n with
  | nil => simp [offsets]
  | cons v vs ih => simp [offsets, ih, Nat.add_assoc]

@[simp] theorem offsets_length (n : Nat) (vs : List TasmAst) : (offsets n vs).length = vs.length := by
  induction vs generalizing n with
  | nil => rfl
  | cons v vs ih => simp [offsets, ih]

/-- A constant begins behind the bytes of those before it. -/
theorem offsets_getElem? (n : Nat) {vs : List TasmAst} {i : Nat} (hi : i < vs.length) :
    (offsets n vs)[i]? = some (n + ((vs.take i).flatMap constBytes).length) := by
  induction vs generalizing n i with
  | nil => simp at hi
  | cons v vs ih =>
    cases i with
    | zero => simp [offsets]
    | succ i =>
      have := ih (n + (constBytes v).length) (Nat.lt_of_succ_lt_succ hi)
      simp [offsets, this, Nat.add_assoc]

/-- Every constant begins within the table. -/
theorem offsets_le {n a : Nat} {vs : List TasmAst} (ha : a ∈ offsets n vs) :
    a ≤ n + (vs.flatMap constBytes).length := by
  induction vs generalizing n with
  | nil => cases ha
  | cons v vs ih =>
    rw [List.flatMap_cons, List.length_append]
    rcases List.mem_cons.mp ha with rfl | ha
    · omega
    · have := ih ha
      omega

/-- The table of some constants. -/
def constTableOf (vs : List TasmAst) : TvmConstTable where
  referances := offsets 0 vs
  referanceCount := vs.length
  data := vs.flatMap constBytes
  dataSize := (vs.flatMap constBytes).length

/-! ## The bytes of a constant -/

theorem ui32Bytes_eq (v : BitVec 32) : ui32Bytes v = LittleEndian.encode 4 v.toNat := by
  have hbyte (i : Nat) : v.extractLsb' i 8 = BitVec.ofNat 8 (v.toNat / 2 ^ i) := by
    apply BitVec.eq_of_toNat_eq
    simp [BitVec.extractLsb'_toNat, Nat.shiftRight_eq_div_pow]
  simp [ui32Bytes, LittleEndian.encode, List.range_succ, hbyte, Nat.div_div_eq_div_mul]

theorem takeWhile_eq_take (text : CStr) : text.take (text.takeWhile (· ≠ 0)).length = text.takeWhile (· ≠ 0) := by
  exact (List.prefix_iff_eq_take.mp (List.takeWhile_prefix _)).symm

/-- What the translator appends for a constant. -/
theorem dataBytes_eq {v : TasmAst} (hfit : DataFits v) (hv : LiteralGiven v) : dataBytes v = .ok (some (constBytes v)) := by
  cases hfit with
  | string text n =>
    rw [hv.string text n rfl]
    simp only [dataBytes, constBytes, takeWhile_eq_take]
  | number text v => simp only [dataBytes, constBytes, ui32Bytes_eq]
  | char c =>
    obtain ⟨s, rfl⟩ := Option.isSome_iff_exists.mp (hv.char c rfl)
    rfl

/-! ## The third pass -/

/-- The state after some items: their functions and constants. -/
structure Tabled (items : List Item) (t : TasmTranslator) : Prop where
  cfuns : ∃ m, t.program.metadata.modules.get? 0 = some m ∧ m.cfunCount = (cfunsOf items).length ∧
    (cfunsOf items).length ≤ tvmMetadataMaxCfunCapacity ∧ ∀ k < m.cfunCount, m.cfuns.get? k = (cfunsOf items)[k]?
  others : ∀ k m, k ≠ 0 → t.program.metadata.modules.get? k = some m → m.cfunCount = 0
  constTable : t.program.constTable = constTableOf (constsOf items)
  beginningAddress : t.beginningAddress = ((constsOf items).flatMap constBytes).length

section Steps

variable {t t' : TasmTranslator} {items : List Item} {i : Item}

/-- An item that declares neither. -/
theorem Tabled.skip (h : Tabled items t) (hf : i.cfun? = none) (hc : i.const? = none) (hs : SameTables t t') :
    Tabled (items ++ [i]) t' := by
  have hfuns : cfunsOf (items ++ [i]) = cfunsOf items := by simp [cfunsOf, hf]
  have hconsts : constsOf (items ++ [i]) = constsOf items := by simp [constsOf, hc]
  refine ⟨?_, ?_, ?_, ?_⟩
  · rw [hfuns, hs.metadata]
    exact h.cfuns
  · rw [hs.metadata]
    exact h.others
  · rw [hconsts, hs.constTable]
    exact h.constTable
  · rw [hconsts, hs.beginningAddress]
    exact h.beginningAddress

/-- A function goes behind those before it, if there is room. -/
theorem Tabled.cfunction (h : Tabled items t) (rtype : Byte) (atypes : List Byte) (n : Nat) (name : Option CStr)
    (hroom : (cfunsOf items).length < tvmMetadataMaxCfunCapacity) :
    ∃ t', tasmTranslateCfunction t rtype atypes name = .ok t' ∧ t'.symbols = t.symbols ∧
      t'.program.size = t.program.size ∧ Tabled (items ++ [.metadata (.cfunction rtype atypes n name)]) t' := by
  obtain ⟨m, hm, hcount, -, hcells⟩ := h.cfuns
  -- the function as it is stored in the module
  let f : TvmProgramCfun := ⟨rtype, atypes, atypes.length % 2 ^ 16, name⟩
  let m' : TvmProgramMetadataModule := { m with cfuns := m.cfuns.put m.cfunCount f, cfunCount := m.cfunCount + 1 }
  have hlt : m.cfunCount < tvmMetadataMaxCfunCapacity := by rw [hcount]; exact hroom
  have hstore : m.cfuns.store (Fault.outOfBounds .cfuns) m.cfunCount f = .ok _ := CArray.store_ok.2 ⟨hlt, rfl⟩
  have hmodules : t.program.metadata.modules.store (Fault.outOfBounds .modules) 0 m' = .ok _ :=
    CArray.store_ok.2 ⟨CArray.get?_lt hm, rfl⟩
  have hfuns : cfunsOf (items ++ [.metadata (.cfunction rtype atypes n name)]) = cfunsOf items ++ [f] := by
    simp [cfunsOf, Item.cfun?, f]
  have hconsts : constsOf (items ++ [.metadata (.cfunction rtype atypes n name)]) = constsOf items := by
    simp [constsOf, Item.const?]
  let metadata := { t.program.metadata with modules := t.program.metadata.modules.put 0 m' }
  refine ⟨{ t with program := { t.program with metadata } }, ?_, rfl, rfl, ⟨m', ?_, ?_, ?_, ?_⟩, ?_, ?_, ?_⟩
  · unfold tasmTranslateCfunction
    dsimp only
    rw [Except.bind_of_ok (CArray.load_ok.2 hm), Except.bind_of_ok hstore, hmodules]
  · exact CArray.get?_put_self _ _ (CArray.get?_lt hm)
  · simp [hfuns, m', hcount]
  · simpa [hfuns] using hroom
  · intro k hk
    rw [hfuns]
    -- the new function, or one of those before it
    by_cases hkm : k = m.cfunCount
    · subst hkm
      rw [hcount, List.getElem?_concat_length, ← hcount]
      exact CArray.get?_put_self _ _ hlt
    · have hk : k < m.cfunCount + 1 := hk
      rw [List.getElem?_append_left (by omega), ← hcells k (by omega)]
      exact CArray.get?_put_of_ne _ _ hkm
  · intro k m₂ hk hm₂
    rw [CArray.get?_put_of_ne _ _ hk] at hm₂
    exact h.others k m₂ hk hm₂
  · rw [hconsts]
    exact h.constTable
  · rw [hconsts]
    exact h.beginningAddress

/-- A constant goes behind the bytes of those before it. -/
theorem Tabled.data {v : TasmAst} (h : Tabled items t) (hfit : DataFits v) (hv : LiteralGiven v) :
    ∃ t', tasmTranslateData t (some v) = .ok t' ∧ t'.symbols = t.symbols ∧ t'.program.size = t.program.size ∧
      Tabled (items ++ [.metadata (.data (some v))]) t' := by
  have hfuns : cfunsOf (items ++ [.metadata (.data (some v))]) = cfunsOf items := by simp [cfunsOf, Item.cfun?]
  have hconsts : constsOf (items ++ [.metadata (.data (some v))]) = constsOf items ++ [v] := by
    simp [constsOf, Item.const?]
  let constTable : TvmConstTable :=
    ⟨t.program.constTable.referances ++ [t.beginningAddress], t.program.constTable.referanceCount + 1,
      t.program.constTable.data ++ constBytes v, t.beginningAddress + (constBytes v).length⟩
  refine ⟨{ t with
    program := { t.program with constTable }, beginningAddress := t.beginningAddress + (constBytes v).length },
    ?_, rfl, rfl, ?_, h.others, ?_, ?_⟩
  · unfold tasmTranslateData
    rw [Except.bind_of_ok (show nonNull (some v) = _ from rfl), Except.bind_of_ok (dataBytes_eq hfit hv)]
    rfl
  · rw [hfuns]
    exact h.cfuns
  · rw [hconsts]
    simp [constTable, constTableOf, offsets_append, offsets, h.constTable, h.beginningAddress]
  · rw [hconsts]
    simp [h.beginningAddress]

/-- A function that was taken had room. -/
theorem Tabled.cfunction_room (h : Tabled items t) {rtype : Byte} {atypes : List Byte} {name : Option CStr}
    (hs : tasmTranslateCfunction t rtype atypes name = .ok t') : (cfunsOf items).length < tvmMetadataMaxCfunCapacity := by
  obtain ⟨m, hm, hcount, -⟩ := h.cfuns
  unfold tasmTranslateCfunction at hs
  dsimp only at hs
  rw [Except.bind_of_ok (CArray.load_ok.2 hm)] at hs
  split at hs
  · rename_i modules hrun
    obtain ⟨cells, hstore, -⟩ := Except.bind_ok hrun
    rw [← hcount]
    exact (CArray.store_ok.1 hstore).1
  · cases hs

/-- Every item keeps the tables. -/
theorem Tabled.step (hi : ItemComplete i) (h : Tabled items t) (hs : emitStep t i = .ok t') : Tabled (items ++ [i]) t' := by
  have hg := hi.literal
  cases hi.fits with
  | inst scope o operand _ hfit => exact h.skip rfl rfl ((inst_emits hfit hg t).of_ok hs)
  | label | proc =>
    cases hs
    exact h.skip rfl rfl ⟨rfl, rfl, rfl⟩
  | metadata node hnode hline =>
    cases hnode with
    | line _ h => exact absurd h hline
    | proc | cstruct =>
      cases hs
      exact h.skip rfl rfl ⟨rfl, rfl, rfl⟩
    | cfunction rtype atypes name =>
      have hroom := h.cfunction_room hs
      obtain ⟨t₂, hrun, -, -, ht⟩ := h.cfunction rtype atypes (atypes.length % 2 ^ 16) name hroom
      cases hs.symm.trans hrun
      exact ht
    | data value hfit =>
      obtain ⟨v, rfl⟩ := Option.isSome_iff_exists.mp (hi.value value rfl)
      obtain ⟨t₂, hrun, -, -, ht⟩ := h.data (hfit v rfl) (hg v rfl)
      cases hs.symm.trans hrun
      exact ht

/-- The third pass leaves the tables of the whole document. -/
theorem unit_tabled {ast : TasmAst} (hast : Complete ast) (h0 : Tabled [] t) (h : ast.items.foldlM emitStep t = .ok t') :
    Tabled ast.items t' := by
  have hrun := Except.foldlM_inv Tabled ast.items [] t t' ?_ h0 h
  · simpa using hrun
  · intro pre i post c c' heq hc hs
    rw [List.nil_append] at heq
    exact hc.step (hast.item (by simp [heq])) hs

/-- A translator that has seen no metadata. -/
theorem tabled_init (t : TasmTranslator) (hp : t.program = TvmProgram.zero) (hb : t.beginningAddress = 0) :
    Tabled [] t := by
  have hzero (k : Nat) (m : TvmProgramMetadataModule) (hm : TvmProgram.zero.metadata.modules.get? k = some m) :
      m.cfunCount = 0 := by
    have hget : TvmProgram.zero.metadata.modules.get? k = some TvmProgramMetadataModule.zero :=
      CArray.get?_fill _ (CArray.get?_lt hm)
    cases hm.symm.trans hget
    rfl
  refine ⟨⟨TvmProgramMetadataModule.zero, ?_, rfl, by decide, fun k hk => absurd hk (Nat.not_lt_zero k)⟩, ?_, ?_, ?_⟩
  · rw [hp]
    exact CArray.get?_fill _ (by decide)
  · rw [hp]
    exact fun k m _ hm => hzero k m hm
  · rw [hp]
    rfl
  · rw [hb]
    rfl

/-- The tables of the whole document, behind the three passes. -/
theorem tabled {ast : TasmAst} (hast : Complete ast) (h : tasmTranslate ast = .ok t) : Tabled ast.items t := by
  unfold tasmTranslate at h
  obtain ⟨t₁, h₁, h⟩ := Except.bind_ok h
  obtain ⟨t₂, h₂, h₃⟩ := Except.bind_ok h
  rw [resolveProcs_eq hast.shape] at h₁
  rw [resolveLabels_eq hast.shape] at h₂
  rw [translateUnit_eq hast.shape] at h₃
  obtain ⟨rfl, -, -⟩ := procs_resolved rfl rfl h₁
  obtain ⟨rfl, -, -⟩ := labels_resolved rfl rfl h₂
  exact unit_tabled hast (tabled_init _ rfl rfl) h₃

/-- A file that is translated has the values of its constants. -/
theorem values_of_translate {N : Option CStr → Prop} {ast : TasmAst} (hast : WellFormed N ast)
    (h : tasmTranslate ast = .ok t) : ∀ value, .metadata (.data value) ∈ ast.items → value.isSome = true := by
  intro value hi
  unfold tasmTranslate at h
  obtain ⟨t₁, -, h⟩ := Except.bind_ok h
  obtain ⟨t₂, -, h₃⟩ := Except.bind_ok h
  rw [translateUnit_eq hast] at h₃
  obtain ⟨c, c', hs⟩ := Except.foldlM_mem h₃ hi
  obtain ⟨v, hv, -⟩ := Except.bind_ok hs
  rw [nonNull_ok hv]
  rfl

end Steps

end TileVm
