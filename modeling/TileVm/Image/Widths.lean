/-
The fields of the program file that are narrower than what they are taken from: the lengths of names,
the argument counts and the type codes, for every accepted source and every list of libraries. The
declarations are read off the tokens, without a bound. Nothing is checked on the way, so that the
fields are exact for names of at most 255 bytes and functions of fewer than 2^16 arguments only.
-/
import TileVm.Common.Cli
import TileVm.Image.Assembled
import TileVm.Tasm.Bases

namespace TileVm

open Grammar LittleEndian

/-! ## Declarations of a source -/

/-- A `@cfun` line. -/
structure CfunDecl where
  rtype : CType
  name : CStr
  atypes : List CType

/-- `type - TOKEN_TCI_BEGIN - 1` for the token of a C type. -/
def CType.number (c : CType) : Nat := (TokenType.tci c).code - TokenType.tciBegin.code - 1

/-- The C types that come next. -/
def typesAhead : Tokens → List CType
  | [] => []
  | t :: ts =>
    match t.type with
    | .tci c => c :: typesAhead ts
    | _ => []

/-- The `@cfun` line that starts here. -/
def cfunAhead? : Tokens → Option CfunDecl
  | a :: f :: r :: x :: ts =>
    match a.type, f.type, r.type, x.type, x.value with
    | .atSign, .cfunction, .tci c, .id, some name => some ⟨c, name, typesAhead ts⟩
    | _, _, _, _, _ => none
  | _ => none

/-- The `@cfun` lines, in order. -/
def cfunDecls : Tokens → List CfunDecl
  | [] => []
  | t :: ts => (cfunAhead? (t :: ts)).toList ++ cfunDecls ts

/-- A function's node in the tree, with the counter of the parser. -/
structure CfunNode where
  rtype : Byte
  atypes : List Byte
  acount : Nat
  name : Option CStr

/-- The node of a `@cfun` line. -/
def Item.cfunNode? : Item → Option CfunNode
  | .metadata (.cfunction rtype atypes acount name) => some ⟨rtype, atypes, acount, name⟩
  | _ => none

/-- What the translator stores for a node: it counts the types again. -/
def CfunNode.stored (n : CfunNode) : TvmProgramCfun := ⟨n.rtype, n.atypes, n.atypes.length % 2 ^ 16, n.name⟩

/-- The node that the parser makes of a line. -/
def CfunDecl.node (d : CfunDecl) : CfunNode :=
  ⟨d.rtype.code, d.atypes.map CType.code, d.atypes.length % 2 ^ 16, some d.name⟩

/-- The function that the translator stores for a line. -/
def CfunDecl.stored (d : CfunDecl) : TvmProgramCfun :=
  ⟨d.rtype.code, d.atypes.map CType.code, d.atypes.length % 2 ^ 16, some d.name⟩

section Declarations

variable {ts us : Tokens} {t : TasmToken} {l : TasmAst} {o : Option TasmAst} {fuel : Nat} {N : Option CStr → Prop}

theorem cfunAhead?_some {d : CfunDecl} (h : cfunAhead? (t :: ts) = some d) :
    t.type = .atSign ∧ first ts = .cfunction := by
  unfold cfunAhead? at h
  split at h
  · rename_i heq
    cases heq
    split at h
    · rename_i ha hf _ _ _
      exact ⟨ha, hf⟩
    · cases h
  · cases h

theorem cfunAhead?_none (h : t.type ≠ .atSign) : cfunAhead? (t :: ts) = none :=
  Option.eq_none_iff_forall_ne_some.mpr fun _ hd => h (cfunAhead?_some hd).1

/-- What passes no `@` passes no declaration. -/
theorem cfunDecls_passes (h : Passes ts us) : cfunDecls ts = cfunDecls us := by
  obtain ⟨c, rfl, hc⟩ := h
  induction c with
  | nil => rfl
  | cons t c ih =>
    simp only [List.forall_mem_cons] at hc
    rw [List.cons_append, cfunDecls, cfunAhead?_none hc.1, ih hc.2]
    rfl

theorem ctype_eq {b : Byte} (h : ctype ts = some (b, us)) : ∃ t c, ts = t :: us ∧ t.type = .tci c ∧ b = c.code := by
  rcases ts with _ | ⟨t, vs⟩
  · cases h
  · simp only [ctype] at h
    split at h
    · rename_i c hc
      cases h
      exact ⟨t, c, rfl, hc, rfl⟩
    · cases h

theorem typesAhead_end (h : [TokenType.endline, .eof, .comment].contains (first ts) = true) : typesAhead ts = [] := by
  rcases ts with _ | ⟨t, us⟩
  · rfl
  · have hends : t.type = .endline ∨ t.type = .eof ∨ t.type = .comment := by simpa [first] using h
    rcases hends with ht | ht | ht <;> rw [typesAhead, ht]

/-- The argument types are the C types up to the end of the line. -/
theorem ctypes_eq : ∀ {fuel : Nat} {ts us : Tokens} {bs : List Byte}, ctypes fuel ts = some (bs, us) →
    bs = (typesAhead ts).map CType.code
  | 0, ts, us, bs, h => by
    simp only [ctypes] at h
    split at h
    · rename_i hend
      cases h
      rw [typesAhead_end hend]
      rfl
    · cases h
  | fuel + 1, ts, us, bs, h => by
    simp only [ctypes] at h
    split at h
    · rename_i hend
      cases h
      rw [typesAhead_end hend]
      rfl
    · simp only [Option.bind_eq_bind, Option.bind_eq_some_iff] at h
      obtain ⟨⟨b, vs⟩, hb, ⟨bs', ws⟩, hbs, h⟩ := h
      cases h
      obtain ⟨t, c, rfl, ht, rfl⟩ := ctype_eq hb
      rw [typesAhead, ht, ctypes_eq hbs]
      rfl

/-- A `@cfun` line is the declaration that is read off its tokens. -/
theorem cfunction_eq (hts : Texts ts) (ht : t.type = .atSign) (h : Grammar.cfunction fuel ts = some (l, us)) :
    ∃ d, cfunAhead? (t :: ts) = some d ∧ (fileItems l).filterMap Item.cfunNode? = [d.node] := by
  simp only [Grammar.cfunction, Option.bind_eq_bind, Option.bind_eq_some_iff] at h
  obtain ⟨⟨f, vs⟩, hf, ⟨b, ws⟩, hb, ⟨x, xs⟩, hx, ⟨bs, ys⟩, hbs, h⟩ := h
  cases h
  obtain ⟨rfl, hcfun⟩ := expect_some hf
  obtain ⟨r, c, rfl, hr, rfl⟩ := ctype_eq hb
  obtain ⟨rfl, hid⟩ := expect_some hx
  obtain ⟨name, hname⟩ := Option.isSome_iff_exists.mp (hts x (by simp) (.inl hid))
  refine ⟨⟨c, name, typesAhead xs⟩, ?_, ?_⟩
  · simp only [cfunAhead?, ht, hcfun, hr, hid, hname]
  · rw [ctypes_eq hbs, List.length_map, hname]
    rfl

theorem procLine_cfunNode? (h : ProcLine N l) (scope : Option CStr) : (lineItem scope l).cfunNode? = none := by
  cases h <;> rfl

theorem proc_cfunNodes {name : Option CStr} {ls : List TasmAst} (h : ∀ l ∈ ls, ProcLine N l) :
    (fileItems (.proc name ls)).filterMap Item.cfunNode? = [] := by
  rw [List.filterMap_eq_nil_iff]
  intro i hi
  simp only [fileItems, List.mem_cons, List.mem_map] at hi
  rcases hi with rfl | ⟨l, hl, rfl⟩
  · rfl
  · exact procLine_cfunNode? (h l hl) _

/-- The declarations of a line, and those behind it. -/
theorem line_cfunDecls (hts : Texts ts) (hwf : ∀ l ∈ o, FileLine N l) (h : line fuel ts = some (o, us)) :
    (cfunDecls ts).map CfunDecl.node =
      (o.toList.flatMap fileItems).filterMap Item.cfunNode? ++ (cfunDecls us).map CfunDecl.node := by
  -- a line without a function only passes
  have plain {o : Option TasmAst} {us : Tokens} (hp : Passes ts us)
      (hnone : (o.toList.flatMap fileItems).filterMap Item.cfunNode? = []) : (cfunDecls ts).map CfunDecl.node =
        (o.toList.flatMap fileItems).filterMap Item.cfunNode? ++ (cfunDecls us).map CfunDecl.node := by
    rw [cfunDecls_passes hp, hnone, List.nil_append]
  unfold line at h
  split at h
  · obtain ⟨l, rfl, hl⟩ := map_some_eq h
    obtain ⟨hp, n, rfl⟩ := labelDecl_consumed hl
    exact plain hp rfl
  split at h
  · obtain ⟨l, rfl, hl⟩ := map_some_eq h
    obtain ⟨hp, ⟨n, ls, rfl⟩, -⟩ := proc_consumed hts hl
    refine plain hp ?_
    rw [Option.toList_some, List.flatMap_cons, List.flatMap_nil, List.append_nil]
    cases hwf _ rfl with
    | line _ hline => cases hline
    | proc _ _ _ hlines => exact proc_cfunNodes hlines
  split at h
  · obtain ⟨l, rfl, hl⟩ := map_some_eq h
    obtain ⟨hp, op, name, a, rfl, -⟩ := instruction_consumed hts hl
    exact plain hp rfl
  split at h
  · obtain ⟨l, rfl, hl⟩ := map_some_eq h
    simp only [metadata, Option.bind_eq_bind, Option.bind_eq_some_iff] at hl
    obtain ⟨⟨t, vs⟩, h1, hl⟩ := hl
    obtain ⟨rfl, ht⟩ := expect_some h1
    have htail : Texts vs := fun u hu => hts u (List.mem_cons_of_mem _ hu)
    -- behind the `@` of another line
    have other (hf : first vs ≠ .cfunction) (hp : Passes vs us) (hnone : (fileItems l).filterMap Item.cfunNode? = []) :
        (cfunDecls (t :: vs)).map CfunDecl.node =
          ((some l).toList.flatMap fileItems).filterMap Item.cfunNode? ++ (cfunDecls us).map CfunDecl.node := by
      have hahead : cfunAhead? (t :: vs) = none :=
        Option.eq_none_iff_forall_ne_some.mpr fun _ hd => hf (cfunAhead?_some hd).2
      rw [cfunDecls, hahead, cfunDecls_passes hp]
      simp [hnone]
    dsimp only at hl
    split at hl
    · obtain ⟨hp, -⟩ := cfunction_consumed hl
      obtain ⟨d, hd, hnode⟩ := cfunction_eq htail ht hl
      rw [cfunDecls, hd, cfunDecls_passes hp]
      simp [hnode]
    rename_i hne
    split at hl
    · simp only [cstruct, Option.bind_eq_bind, Option.bind_eq_some_iff] at hl
      obtain ⟨⟨u, ws⟩, h2, hl⟩ := hl
      cases hl
      exact other hne (expect_passes h2 (by simp)) rfl
    split at hl
    · obtain ⟨d, ws, v, -, -, hp, rfl, -⟩ := data_consumed htail hl
      exact other hne hp rfl
    · cases hl
  split at h
  · cases h
  · cases h
    exact plain (blank_passes ts) rfl

/-- The nodes of a file are those of the declarations. -/
theorem file_cfunDecls (hts : Texts ts) (heof : ∀ t ∈ ts, t.type ≠ .eof) {ast : TasmAst} (hwf : WellFormed N ast)
    (h : file fuel ts = some (ast, us)) : ast.items.filterMap Item.cfunNode? = (cfunDecls ts).map CfunDecl.node := by
  simp only [file, Option.bind_eq_bind, Option.bind_eq_some_iff] at h
  obtain ⟨⟨ls, vs⟩, hlines, ws, -, h⟩ := h
  cases h
  obtain ⟨_, hwf⟩ := hwf
  refine many_rule (P := fun ts ls _ => Texts ts → (∀ t ∈ ts, t.type ≠ .eof) → (∀ l ∈ ls, FileLine N l) →
    (ls.flatMap fileItems).filterMap Item.cfunNode? = (cfunDecls ts).map CfunDecl.node) ?_ ?_ hlines hts heof hwf
  · rintro ts hstop - heof -
    rcases ts with _ | ⟨t, us⟩
    · rfl
    · exact absurd (by simpa [first] using hstop) (heof t (by simp))
  · rintro ts o us ls vs hl ih hts heof hwf
    obtain ⟨hsub, -⟩ := line_consumed hts hl
    have hrest := ih (fun t ht => hts t (hsub t ht)) (fun t ht => heof t (hsub t ht)) fun l hl =>
      hwf l (List.mem_append_right _ hl)
    have hline := line_cfunDecls hts (fun l hl => hwf l (List.mem_append_left _ (Option.mem_toList.mpr hl))) hl
    rw [List.flatMap_append, List.filterMap_append, hrest, hline]

end Declarations

/-! ## The fields of a file -/

/-- The fields of a function's record. -/
structure CfunFields where
  nameLength : Byte
  name : List Byte
  acount : BitVec 16
  rtype : Byte
  atypes : List Byte

/-- The fields of a library's record. -/
structure LibFields where
  nameLength : Byte
  name : List Byte
  cfunCount : BitVec 32
  cfuns : List CfunFields

def CfunFields.bytes (f : CfunFields) : List Byte :=
  f.nameLength :: f.name ++ encode 2 f.acount.toNat ++ [f.rtype] ++ f.atypes

def LibFields.bytes (f : LibFields) : List Byte :=
  f.nameLength :: f.name ++ encode 4 f.cfunCount.toNat ++ f.cfuns.flatMap CfunFields.bytes

/-- A library and the functions in its record. -/
structure LibDecl where
  name : CStr
  cfuns : List CfunDecl

/-- The libraries from number `k` on. All functions go to the first one. -/
def libDecls (decls : List CfunDecl) : Nat → List CStr → List LibDecl
  | _, [] => []
  | k, name :: names => ⟨name, if k = 0 then decls else []⟩ :: libDecls decls (k + 1) names

/-- The fields are the lengths, the count and the type codes of the declaration. -/
structure CfunFields.Exact (f : CfunFields) (d : CfunDecl) : Prop where
  nameLength : f.nameLength.toNat = d.name.length
  name : f.name = d.name
  acount : f.acount.toNat = d.atypes.length
  rtype : f.rtype.toNat = d.rtype.number
  atypes : f.atypes.map BitVec.toNat = d.atypes.map CType.number

structure LibFields.Exact (f : LibFields) (d : LibDecl) : Prop where
  nameLength : f.nameLength.toNat = d.name.length
  name : f.name = d.name
  cfunCount : f.cfunCount.toNat = d.cfuns.length
  cfuns : List.Forall₂ CfunFields.Exact f.cfuns d.cfuns

/-- Every width on the way is enough: the counters of the parser, those of the translator and the fields of the file
are the lengths, counts and codes of the declarations. -/
structure NothingNarrowed (decls : List CfunDecl) (names : List CStr) (ast : TasmAst) (t : TasmTranslator)
    (bytes : List Byte) : Prop where
  parser : (ast.items.filterMap Item.cfunNode?).map (·.acount) = decls.map (·.atypes.length)
  translator : ∃ m, t.program.metadata.modules.get? 0 = some m ∧ m.cfunCount = decls.length ∧
    ∀ (k : Nat) (d : CfunDecl), decls[k]? = some d → ∃ f, m.cfuns.get? k = some f ∧ f.acount = d.atypes.length
  file : ∃ (count : BitVec 32) (libs : List LibFields) (rest : List Byte), count.toNat = names.length ∧
    List.Forall₂ LibFields.Exact libs (libDecls decls 0 names) ∧
    bytes = encode 4 count.toNat ++ libs.flatMap LibFields.bytes ++ rest

/-! ## What is written -/

/-- The fields that are written for a function, with every value cut to its width. -/
def CfunDecl.fields (d : CfunDecl) : CfunFields :=
  ⟨.ofNat 8 d.name.length, d.name.take (d.name.length % 2 ^ 8), .ofNat 16 d.atypes.length, d.rtype.code,
    (d.atypes.map CType.code).take (d.atypes.length % 2 ^ 16)⟩

def LibDecl.fields (d : LibDecl) : LibFields :=
  ⟨.ofNat 8 d.name.length, d.name.take (d.name.length % 2 ^ 8), .ofNat 32 d.cfuns.length, d.cfuns.map CfunDecl.fields⟩

theorem encode_one (n : Nat) : encode 1 n = [.ofNat 8 n] := rfl

theorem CType.code_toNat (c : CType) : c.code.toNat = c.number := by
  cases c <;> rfl

theorem CfunDecl.record (d : CfunDecl) : cfunRecord d.stored = .ok d.fields.bytes := by
  have hle : d.atypes.length % 2 ^ 16 ≤ (d.atypes.map CType.code).length := by
    rw [List.length_map]
    exact Nat.mod_le _ _
  have hentries : firstEntries .atypes (d.atypes.map CType.code) (d.atypes.length % 2 ^ 16) = .ok _ := if_pos hle
  have hrun : cfunRecord d.stored = .ok (nameRecord d.name ++ encode 2 (d.atypes.length % 2 ^ 16) ++
      encode 1 d.rtype.code.toNat ++ (d.atypes.map CType.code).take (d.atypes.length % 2 ^ 16)) := by
    simp only [cfunRecord, CfunDecl.stored, hentries]
    rfl
  rw [hrun]
  simp [CfunDecl.fields, CfunFields.bytes, nameRecord, encode_one]

/-- The functions of a module are written one behind the other. -/
theorem cfunRecords_fields {cfuns : CArray TvmProgramCfun tvmMetadataMaxCfunCapacity} {ds : List CfunDecl} {i : Nat}
    (h : ∀ (j : Nat) (d : CfunDecl), ds[j]? = some d → cfuns.get? (i + j) = some d.stored) :
    cfunRecords cfuns i ds.length = .ok ((ds.map CfunDecl.fields).flatMap CfunFields.bytes) := by
  induction ds generalizing i with
  | nil => rfl
  | cons d ds ih =>
    have hrest := @ih (i + 1) fun j e he => by
      have := h (j + 1) e he
      rwa [Nat.add_right_comm]
    have hfirst : cfuns.get? i = some d.stored := h 0 d rfl
    rw [List.length_cons, cfunRecords, Except.bind_of_ok (CArray.load_ok.2 hfirst), Except.bind_of_ok d.record,
      Except.bind_of_ok hrest]
    rfl

/-- The functions of a module. -/
structure HoldsDecls (m : TvmProgramMetadataModule) (ds : List CfunDecl) : Prop where
  cfunCount : m.cfunCount = ds.length
  fits : ds.length ≤ tvmMetadataMaxCfunCapacity
  cfuns : ∀ (j : Nat) (d : CfunDecl), ds[j]? = some d → m.cfuns.get? j = some d.stored

theorem moduleRecord_fields {modules : CArray TvmProgramMetadataModule tvmMetadataMaxModuleCapacity} {k : Nat}
    {m : TvmProgramMetadataModule} {d : LibDecl} (hm : modules.get? k = some m) (h : HoldsDecls m d.cfuns) :
    ∃ modules', moduleRecord modules k d.name = .ok (modules', d.fields.bytes) ∧
      ∀ j ≠ k, modules'.get? j = modules.get? j := by
  have hstore : modules.store (Fault.outOfBounds .modules) k { m with moduleName := some d.name } = .ok _ :=
    CArray.store_ok.2 ⟨CArray.get?_lt hm, rfl⟩
  have hrecords : cfunRecords m.cfuns 0 m.cfunCount =
      .ok ((d.cfuns.map CfunDecl.fields).flatMap CfunFields.bytes) := by
    rw [h.cfunCount]
    refine cfunRecords_fields fun j e he => ?_
    rw [Nat.zero_add]
    exact h.cfuns j e he
  have hcount : (BitVec.ofNat 32 d.cfuns.length).toNat = d.cfuns.length :=
    BitVec.toNat_ofNat .. |>.trans (Nat.mod_eq_of_lt (Nat.lt_of_le_of_lt h.fits (by decide)))
  have hbytes : d.fields.bytes = nameRecord d.name ++ encode 4 m.cfunCount ++
      (d.cfuns.map CfunDecl.fields).flatMap CfunFields.bytes := by
    simp [LibDecl.fields, LibFields.bytes, nameRecord, encode_one, hcount, h.cfunCount]
  refine ⟨modules.put k { m with moduleName := some d.name }, ?_, fun j hj => CArray.get?_put_of_ne _ _ hj⟩
  rw [moduleRecord, Except.bind_of_ok (CArray.load_ok.2 hm), Except.bind_of_ok hstore, Except.bind_of_ok hrecords,
    hbytes]
  rfl

/-- So are the libraries. A module behind the first is empty. -/
theorem moduleRecords_fields (decls : List CfunDecl) {names : List CStr} :
    ∀ {modules : CArray TvmProgramMetadataModule tvmMetadataMaxModuleCapacity} {k : Nat},
      k + names.length ≤ tvmMetadataMaxModuleCapacity →
      (∀ j m, k ≤ j → modules.get? j = some m → HoldsDecls m (if j = 0 then decls else [])) →
      ∃ modules', moduleRecords modules k names =
        .ok (modules', ((libDecls decls k names).map LibDecl.fields).flatMap LibFields.bytes) := by
  induction names with
  | nil => exact fun _ _ => ⟨_, rfl⟩
  | cons name names ih =>
    intro modules k hk h
    rw [List.length_cons] at hk
    have hm : modules.get? k = some (modules.cell ⟨k, by omega⟩) := modules.get?_of_lt (by omega)
    obtain ⟨modules₁, hrecord, hsame⟩ :=
      moduleRecord_fields (d := ⟨name, if k = 0 then decls else []⟩) hm (h k _ (Nat.le_refl k) hm)
    obtain ⟨modules₂, hrecords⟩ := @ih modules₁ (k + 1) (by omega) fun j m hj hget =>
      h j m (by omega) (hsame j (by omega) ▸ hget)
    refine ⟨modules₂, ?_⟩
    rw [moduleRecords, Except.bind_of_ok hrecord]
    show (moduleRecords modules₁ (k + 1) names >>= _) = _
    rw [Except.bind_of_ok hrecords]
    rfl

theorem constTableRecord_total (vs : List TasmAst) : ∃ record, constTableRecord (constTableOf vs) = .ok record := by
  have hrefs : firstEntries .referances (offsets 0 vs) vs.length = .ok (offsets 0 vs) := by
    rw [← offsets_length 0 vs]
    exact firstEntries_all _ _
  have hdata := firstEntries_all .constData (vs.flatMap constBytes)
  simp only [constTableRecord, constTableOf, hrefs, hdata]
  split
  · exact ⟨_, rfl⟩
  · exact ⟨_, rfl⟩

/-! ## The declarations in the tree and in the tables -/

section Counts

variable {items : List Item} {decls : List CfunDecl}

theorem cfun?_eq (i : Item) : i.cfun? = i.cfunNode?.map CfunNode.stored := by
  cases i with
  | metadata node => cases node <;> rfl
  | _ => rfl

/-- The functions of a document are those of its nodes. -/
theorem cfunsOf_eq (h : items.filterMap Item.cfunNode? = decls.map CfunDecl.node) :
    cfunsOf items = decls.map CfunDecl.stored := by
  rw [cfunsOf, funext cfun?_eq, ← List.map_filterMap, h, List.map_map]
  refine List.map_congr_left fun d _ => ?_
  simp [CfunDecl.node, CfunNode.stored, CfunDecl.stored]

/-- The modules of a translator hold the declarations, all of them in the first. -/
theorem Tabled.holds {t : TasmTranslator} (h : Tabled items t) (hdecls : cfunsOf items = decls.map CfunDecl.stored)
    {j : Nat} {m : TvmProgramMetadataModule} (hm : t.program.metadata.modules.get? j = some m) :
    HoldsDecls m (if j = 0 then decls else []) := by
  obtain ⟨m₀, hm₀, hcount, hroom, hcells⟩ := h.cfuns
  rw [hdecls, List.length_map] at hcount hroom
  split
  · rename_i hj
    subst hj
    cases hm.symm.trans hm₀
    refine ⟨hcount, hroom, fun k d hd => ?_⟩
    obtain ⟨hk, -⟩ := List.getElem?_eq_some_iff.mp hd
    rw [hcells k (hcount ▸ hk), hdecls, List.getElem?_map, hd]
    rfl
  · rename_i hj
    exact ⟨h.others j m hj hm, Nat.zero_le _, fun k d hd => nomatch hd⟩

end Counts

/-! ## Exactness -/

theorem CfunDecl.fields_exact {d : CfunDecl} (hname : d.name.length < 2 ^ 8) (hcount : d.atypes.length < 2 ^ 16) :
    d.fields.Exact d where
  nameLength := (BitVec.toNat_ofNat ..).trans (Nat.mod_eq_of_lt hname)
  name := by
    rw [fields, Nat.mod_eq_of_lt hname, List.take_length]
  acount := (BitVec.toNat_ofNat ..).trans (Nat.mod_eq_of_lt hcount)
  rtype := d.rtype.code_toNat
  atypes := by
    rw [fields, Nat.mod_eq_of_lt hcount, List.take_of_length_le (Nat.le_of_eq (List.length_map _)), List.map_map]
    exact List.map_congr_left fun c _ => c.code_toNat

theorem LibDecl.fields_exact {d : LibDecl} (hname : d.name.length < 2 ^ 8)
    (hfits : d.cfuns.length ≤ tvmMetadataMaxCfunCapacity)
    (hcfuns : ∀ f ∈ d.cfuns, f.name.length < 2 ^ 8 ∧ f.atypes.length < 2 ^ 16) : d.fields.Exact d where
  nameLength := (BitVec.toNat_ofNat ..).trans (Nat.mod_eq_of_lt hname)
  name := by
    rw [fields, Nat.mod_eq_of_lt hname, List.take_length]
  cfunCount := (BitVec.toNat_ofNat ..).trans (Nat.mod_eq_of_lt (Nat.lt_of_le_of_lt hfits (by decide)))
  cfuns := by
    rw [fields, List.forall₂_map_left_iff, List.forall₂_same]
    exact fun f hf => CfunDecl.fields_exact (hcfuns f hf).1 (hcfuns f hf).2

theorem libDecls_mem {decls : List CfunDecl} {k : Nat} {names : List CStr} {d : LibDecl} (h : d ∈ libDecls decls k names) :
    d.name ∈ names ∧ (d.cfuns = decls ∨ d.cfuns = []) := by
  induction names generalizing k with
  | nil => cases h
  | cons name names ih =>
    rcases List.mem_cons.mp h with rfl | h
    · refine ⟨List.mem_cons_self .., ?_⟩
      dsimp only
      split
      · exact .inl rfl
      · exact .inr rfl
    · exact ⟨List.mem_cons_of_mem name (ih h).1, (ih h).2⟩

/-- An exact length field bounds the name. -/
theorem names_short {decls : List CfunDecl} {libs : List LibFields} {k : Nat} {names : List CStr}
    (h : List.Forall₂ LibFields.Exact libs (libDecls decls k names)) : ∀ name ∈ names, name.length < 2 ^ 8 := by
  induction names generalizing libs k with
  | nil => simp
  | cons name names ih =>
    cases h with
    | cons hfirst hrest =>
      refine List.forall_mem_cons.mpr ⟨?_, ih hrest⟩
      have hlen : _ = name.length := hfirst.nameLength
      rw [← hlen]
      exact BitVec.isLt _

/-! ## Accepted sources -/

section Accepted

variable {text : List Byte} {ast : TasmAst} {t : TasmTranslator} {ts : Tokens}

/-- The nodes of an accepted source are its declarations. -/
theorem Assembles.cfunNodes (h : Assembles text ast t) (hlex : LexTokens (tasmLexerInit (marked text)) ts) :
    ast.items.filterMap Item.cfunNode? = (cfunDecls ts).map CfunDecl.node := by
  have hwf := h.wellFormed
  obtain ⟨us, fuel, p, hus, hparse, hp⟩ := h.parses
  cases hus.unique hlex
  obtain ⟨_, hfile⟩ := (parse_ok_iff hlex.ne_eof).mp ⟨p, hparse, hp⟩
  exact file_cfunDecls hlex.texts hlex.ne_eof hwf hfile

/-- The name of a function is short. -/
theorem Assembles.cfun_name (h : Assembles text ast t) (hlex : LexTokens (tasmLexerInit (marked text)) ts)
    {d : CfunDecl} (hd : d ∈ cfunDecls ts) : d.name.length < 2 ^ 8 := by
  have hmem : d.stored ∈ cfunsOf ast.items := by
    rw [cfunsOf_eq (h.cfunNodes hlex)]
    exact List.mem_map_of_mem hd
  obtain ⟨name, hname, hfits, -⟩ := h.cfun_fits hmem
  cases hname
  exact Nat.lt_succ_of_le hfits.length_le

/-- The file of an accepted source is written, whatever has been cut. -/
theorem Assembles.generates (h : Assembles text ast t) (hlex : LexTokens (tasmLexerInit (marked text)) ts)
    (pad : Nat → Padding) (args : CliParsedArgs) : ∃ t' rest, tasmTranslatorGenerateBin pad t args =
      .ok (t', encode 4 args.clibNames.length ++
        ((libDecls (cfunDecls ts) 0 args.clibNames).map LibDecl.fields).flatMap LibFields.bytes ++ rest) := by
  have hdecls := cfunsOf_eq (h.cfunNodes hlex)
  have hcount : 0 + args.clibNames.length ≤ tvmMetadataMaxModuleCapacity := by
    rw [Nat.zero_add]
    exact args.clibCount_le
  obtain ⟨modules, hmodules⟩ := moduleRecords_fields (cfunDecls ts) hcount fun j m _ hm => h.tabled.holds hdecls hm
  obtain ⟨table, htable⟩ := constTableRecord_total (constsOf ast.items)
  rw [← h.tabled.constTable] at htable
  have hsize : 0 + t.program.size ≤ tvmProgramCapacity := by
    rw [Nat.zero_add, h.translated.size]
    exact h.translated.fits
  obtain ⟨cells, -, -, hcode, -⟩ := codeRecord_bytes pad t.program.code t.program.size 0 hsize
  refine ⟨{ t with program := { t.program with metadata := ⟨modules, args.clibNames.length⟩ } }, table ++ cells.flatten, ?_⟩
  simp only [tasmTranslatorGenerateBin, hmodules, htable, hcode, ← List.append_assoc]
  rfl

/-- The file has everything in it, or an error is reported and there is no file. -/
def ExactOrReported (pad : Nat → Padding) (decls : List CfunDecl) (args : CliParsedArgs) (ast : TasmAst)
    (t : TasmTranslator) : Prop :=
  (∃ t' bytes, tasmTranslatorGenerateBin pad t args = .ok (t', bytes) ∧
    NothingNarrowed decls args.clibNames ast t bytes) ∨
  t.symbols.err = true ∧ ∀ r, tasmTranslatorGenerateBin pad t args ≠ .ok r

/-- For every accepted source and every command line the file is written. No value on the way to it is narrowed if and
only if no library name has more than 255 bytes and no function more than 65535 arguments. -/
theorem nothingNarrowed_iff (h : Assembles text ast t) (hlex : LexTokens (tasmLexerInit (marked text)) ts)
    {argv : List CStr} {args : CliTasmArgs} (_hargs : cliTasmParseCommandLine argv = .ok (some args))
    (pad : Nat → Padding) :
    ExactOrReported pad (cfunDecls ts) args.libs ast t ↔
    (∀ name ∈ args.libs.clibNames, name.length < 2 ^ 8) ∧ ∀ d ∈ cfunDecls ts, d.atypes.length < 2 ^ 16 := by
  have hnodes := h.cfunNodes hlex
  have hdecls := cfunsOf_eq hnodes
  obtain ⟨m, hm, -⟩ := h.tabled.cfuns
  have hholds : HoldsDecls m (cfunDecls ts) := h.tabled.holds hdecls hm
  obtain ⟨t', rest, hgen⟩ := h.generates hlex pad args.libs
  constructor
  · rintro (⟨t'', bytes, -, hparser, -, count, libs, rest, hcount, hlibs, -⟩ | ⟨-, hnone⟩)
    swap
    · exact absurd hgen (hnone _)
    refine ⟨names_short hlibs, ?_⟩
    -- a counter of the parser is below 2^16
    rw [hnodes, List.map_map] at hparser
    intro d hd
    have heq : d.atypes.length % 2 ^ 16 = d.atypes.length := List.map_inj_left.mp hparser d hd
    rw [← heq]
    exact Nat.mod_lt _ (by decide)
  · rintro ⟨hnames, hcounts⟩
    refine .inl ⟨t', _, hgen, ?_, ⟨m, hm, hholds.cfunCount, ?_⟩, ?_⟩
    · rw [hnodes, List.map_map]
      exact List.map_congr_left fun d hd => Nat.mod_eq_of_lt (hcounts d hd)
    · intro k d hd
      exact ⟨_, hholds.cfuns k d hd, Nat.mod_eq_of_lt (hcounts d (List.mem_of_getElem? hd))⟩
    · have hcount : (BitVec.ofNat 32 args.libs.clibNames.length).toNat = args.libs.clibNames.length :=
        (BitVec.toNat_ofNat ..).trans (Nat.mod_eq_of_lt (Nat.lt_of_le_of_lt args.libs.clibCount_le (by decide)))
      refine ⟨.ofNat 32 args.libs.clibNames.length, (libDecls (cfunDecls ts) 0 args.libs.clibNames).map LibDecl.fields,
        rest, hcount, ?_, by rw [hcount]⟩
      rw [List.forall₂_map_left_iff, List.forall₂_same]
      intro d hd
      obtain ⟨hname, hcfuns⟩ := libDecls_mem hd
      refine LibDecl.fields_exact (hnames d.name hname) ?_ fun f hf => ?_
      · rcases hcfuns with hcfuns | hcfuns <;> rw [hcfuns]
        · exact hholds.fits
        · exact Nat.zero_le _
      · rcases hcfuns with hcfuns | hcfuns <;> rw [hcfuns] at hf
        · exact ⟨h.cfun_name hlex hf, hcounts f hf⟩
        · cases hf

end Accepted

/-- The text `@cfun i32 abs i32`. -/
def absText : List Byte := cstr "@cfun i32 abs i32\n"

def absTokens : List TasmToken :=
  [⟨.atSign, some (cstr "@")⟩, ⟨.cfunction, some (cstr "cfun")⟩, ⟨.tci .int32, some (cstr "i32")⟩,
    ⟨.id, some (cstr "abs")⟩, ⟨.tci .int32, some (cstr "i32")⟩, ⟨.endline, some (cstr "endl")⟩]

def absAst : TasmAst := .file [.cfunction CType.int32.code [CType.int32.code] 1 (some (cstr "abs"))]

example : cfunDecls absTokens = [⟨.int32, cstr "abs", [.int32]⟩] := rfl

theorem abs_run : (runOf 30 30 (tasmLexerInit (marked absText))).map (·.1) = some absTokens := by decide +kernel

theorem abs_lex : LexTokens (tasmLexerInit (marked absText)) absTokens := by
  obtain ⟨⟨ts, lx⟩, hrun, rfl⟩ := Option.map_eq_some_iff.mp abs_run
  exact (runOf_lex hrun).tokens

theorem abs_assembles : ∃ t, Assembles absText absAst t :=
  assembles_of_run 30 abs_run ⟨_, rfl, rfl⟩ (by decide +kernel)

/-- The command line `tasm -l name p.tasm`. -/
def withLibrary (name : CStr) : List CStr := [cstr "tasm", cstr "-l", name, cstr "p.tasm"]

def withLibraryArgs (name : CStr) : CliTasmArgs :=
  ⟨some (cstr "p.tasm"), some (cstr "out.bin"), ⟨[name], by simp [maxLibCount]⟩, false, false⟩

theorem withLibrary_parses (name : CStr) : cliTasmParseCommandLine (withLibrary name) = .ok (some (withLibraryArgs name)) :=
  rfl

theorem abs_exact : ∃ t, Assembles absText absAst t ∧
    ExactOrReported (fun _ => ⟨1, 2⟩) (cfunDecls absTokens) (withLibraryArgs (cstr "c")).libs absAst t := by
  obtain ⟨t, ht⟩ := abs_assembles
  refine ⟨t, ht, ?_⟩
  exact (nothingNarrowed_iff ht abs_lex (withLibrary_parses (cstr "c")) fun _ => ⟨1, 2⟩).mpr ⟨by decide, by decide⟩

/-- A library name of 256 bytes: the file is written, with a length of zero and no name. -/
theorem long_library_cut : ∃ t t' bytes, Assembles absText absAst t ∧
    cliTasmParseCommandLine (withLibrary (.replicate 256 (chr 'a'))) = .ok (some (withLibraryArgs (.replicate 256 (chr 'a')))) ∧
    tasmTranslatorGenerateBin (fun _ => ⟨1, 2⟩) t (withLibraryArgs (.replicate 256 (chr 'a'))).libs = .ok (t', bytes) ∧
    bytes.take 5 = [1, 0, 0, 0, 0] ∧
    ¬ ExactOrReported (fun _ => ⟨1, 2⟩) (cfunDecls absTokens) (withLibraryArgs (.replicate 256 (chr 'a'))).libs absAst t := by
  obtain ⟨t, ht⟩ := abs_assembles
  have hlen : (List.replicate 256 (chr 'a')).length = 256 := List.length_replicate
  generalize List.replicate 256 (chr 'a') = name at hlen ⊢
  obtain ⟨t', rest, hgen⟩ := ht.generates abs_lex (fun _ => ⟨1, 2⟩) (withLibraryArgs name).libs
  refine ⟨t, t', _, ht, withLibrary_parses _, hgen, ?_, ?_⟩
  · simp [withLibraryArgs, libDecls, LibDecl.fields, LibFields.bytes, encode, hlen]
  · rintro (⟨-, -, -, -, -, count, libs, rest', -, hlibs, -⟩ | ⟨-, hnone⟩)
    swap
    · exact absurd hgen (hnone _)
    exact absurd (names_short hlibs _ (List.mem_singleton_self _)) (by simp [hlen])

end TileVm
