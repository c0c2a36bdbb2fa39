/-
What the translator reports and how full its tables get. The tables keep within their arrays, and
a report that does not end the process sets the error flag: without the flag nothing was reported.
-/
import TileVm.Tasm.Scopes

namespace TileVm

open Except (Post)

/-- The symbol tables are within their arrays, and nothing is reported unless the error flag is set. -/
structure Bounded (t : TasmTranslator) : Prop where
  procs : t.symbols.procDecls.length ≤ symbolProcDeclCapacity
  labels : t.symbols.labelDecls.length ≤ symbolLabelDeclCapacity
  calls : t.symbols.labelCalls.length ≤ symbolLabelCallCapacity
  silent : t.symbols.err = false → t.reports = []

/-- A pass that keeps the tables and the reports so. -/
abbrev Bounds (x : Tr TasmTranslator) : Prop := x.Post (fun _ => True) Bounded

section Steps

variable {t t' : TasmTranslator} {N : Option CStr → Prop}

/-- A step that leaves the symbols and the reports alone. -/
theorem Bounded.same (h : Bounded t) (hs : t'.symbols = t.symbols) (hr : t'.reports = t.reports) : Bounded t' :=
  ⟨hs ▸ h.procs, hs ▸ h.labels, hs ▸ h.calls, hs ▸ hr ▸ h.silent⟩

theorem pushSymbol_length (a : ArrayName) (n : Nat) (table : List Symbol) (s : Symbol) :
    (pushSymbol a n table s).Post (fun _ => True) fun table' => table'.length ≤ n := by
  unfold pushSymbol
  refine .ite (fun hlt => .ok ?_) fun _ => trivial
  simpa using hlt

theorem declareProc_bounds (h : Bounded t) (name : Option CStr) : Bounds (declareProc t name) := by
  unfold declareProc
  refine .bind_any (fun _ => trivial) fun n => .ite (fun _ => trivial) fun _ => .bind ?_
  exact (pushSymbol_length _ _ _ _).mono (fun _ h => h) fun table hlen => .ok ⟨hlen, h.labels, h.calls, h.silent⟩

theorem declareLabel_bounds (h : Bounded t) (scope label : Option CStr) : Bounds (declareLabel t scope label) := by
  unfold declareLabel
  refine .bind_any (fun _ => trivial) fun n => .ite (fun _ => trivial) fun _ => .bind ?_
  exact (pushSymbol_length _ _ _ _).mono (fun _ h => h) fun table hlen => .ok ⟨h.procs, hlen, h.calls, h.silent⟩

theorem programPush_bounds (h : Bounded t) (c : Opcode) : Bounds (programPush t c) := by
  unfold programPush
  split
  · exact .ok (h.same rfl rfl)
  · trivial

/-- The report of an unresolved symbol sets the flag. -/
theorem translateLabelCall_bounds (h : Bounded t) (scope : Option CStr) (isCall : Bool) (label : Option CStr) :
    (translateLabelCall t scope isCall label).Post (fun _ => True) fun r => Bounded r.1 := by
  unfold translateLabelCall
  refine .bind_any (fun _ => trivial) fun n => .ite (fun _ => .ok ?_) fun _ => .bind ?_
  · exact ⟨h.procs, h.labels, h.calls, nofun⟩
  · exact (pushSymbol_length _ _ _ _).mono (fun _ h => h) fun table hlen => .ok ⟨h.procs, h.labels, hlen, h.silent⟩

theorem translateJump_bounds (h : Bounded t) (o : OpType) (scope label : Option CStr) :
    Bounds (translateJump t o scope (some (.labelCall label))) := by
  unfold translateJump
  refine .bind (.ok (.bind ?_))
  exact (translateLabelCall_bounds h scope false label).mono (fun _ h => h) fun r hr =>
    .ite (fun _ => .ok hr) fun _ => programPush_bounds hr _

theorem translateCall_bounds (h : Bounded t) (label : Option CStr) :
    Bounds (translateCall t (some (.labelCall label))) := by
  unfold translateCall
  refine .bind (.ok (.bind ?_))
  exact (translateLabelCall_bounds h none true label).mono (fun _ h => h) fun r hr =>
    .ite (fun _ => .ok hr) fun _ => programPush_bounds hr _

theorem inst_bounds (h : Bounded t) {scope : Option CStr} {o : OpType} {operand : Option TasmAst}
    (hfit : o.operandKind.Fits N operand) : Bounds (tasmTranslateLine t scope false (.op o none operand)) := by
  generalize hk : o.operandKind = kind at hfit
  cases hfit with
  | nothing =>
    rw [translateLine_nothing hk]
    exact programPush_bounds h _
  | pushNumber text v =>
    obtain rfl := operandKind_push hk
    exact programPush_bounds h _
  | pushChar c =>
    obtain rfl := operandKind_push hk
    exact .bind (.ok (.bind_any (fun _ => trivial) fun _ => programPush_bounds h _))
  | int text v =>
    rw [translateLine_int hk]
    exact programPush_bounds h _
  | jumpNumber text v =>
    rw [(translateLine_jump hk t scope _).1]
    exact programPush_bounds h _
  | jumpLabel n hn =>
    rw [(translateLine_jump hk t scope _).1]
    exact translateJump_bounds h o scope n
  | label n hn =>
    obtain rfl := operandKind_label hk
    exact translateCall_bounds h n

/-- Metadata has no proc: the report of a proc in a proc is never printed. -/
theorem metadata_not_proc {ast : TasmAst} (h : WellFormed N ast) {node : TasmAst} (hi : .metadata node ∈ ast.items) :
    ∀ name lines, node ≠ .proc name lines := by
  rintro name lines rfl
  obtain ⟨ls, h⟩ := h
  obtain ⟨l, hl, hi⟩ := List.mem_flatMap.mp hi
  have line {l : TasmAst} (hline : ProcLine N l) (scope : Option CStr) : lineItem scope l ≠ .metadata (.proc name lines) := by
    cases hline <;> simp [lineItem]
  cases h l hl with
  | line _ hline =>
    have heq : fileItems l = [lineItem none l] := by cases hline <;> rfl
    rw [heq, List.mem_singleton] at hi
    exact line hline none hi.symm
  | proc name' lines' hn hlines =>
    rw [fileItems, List.mem_cons, List.mem_map] at hi
    rcases hi with hi | ⟨l', hl', hi⟩
    · cases hi
    · exact line (hlines l' hl') name' hi
  | cfunction | cstruct | data => simp [fileItems, lineItem] at hi

theorem steps_bounds {ast : TasmAst} (hast : WellFormed N ast) {i : Item} (hi : i ∈ ast.items) (h : Bounded t) :
    Bounds (procStep t i) ∧ Bounds (labelStep t i) ∧ Bounds (emitStep t i) := by
  have hcount (s : SymbolTable) (hp : s.procDecls = t.symbols.procDecls) (hl : s.labelDecls = t.symbols.labelDecls)
      (hc : s.labelCalls = t.symbols.labelCalls) (he : s.err = t.symbols.err) : Bounded { t with symbols := s } :=
    ⟨hp ▸ h.procs, hl ▸ h.labels, hc ▸ h.calls, fun he' => h.silent (he ▸ he')⟩
  cases items_fit hast i hi with
  | inst scope o operand _ hfit => exact ⟨.ok (hcount _ rfl rfl rfl rfl), .ok (hcount _ rfl rfl rfl rfl), inst_bounds h hfit⟩
  | label scope name _ hn => exact ⟨.ok h, declareLabel_bounds h scope name, .ok h⟩
  | proc name hn => exact ⟨declareProc_bounds h name, .ok h, .ok h⟩
  | metadata node hnode hline =>
    refine ⟨.ok h, .ok h, ?_⟩
    cases hnode with
    | line _ hl => exact absurd hl hline
    | proc name lines => exact absurd rfl (metadata_not_proc hast hi name lines)
    | cstruct => exact .ok h
    | cfunction r as n =>
      show Bounds (tasmTranslateCfunction t r as n)
      unfold tasmTranslateCfunction
      dsimp only
      split
      · exact .ok (h.same rfl rfl)
      · trivial
    | data value =>
      show Bounds (tasmTranslateData t value)
      unfold tasmTranslateData
      exact .bind_any (fun _ => trivial) fun _ => .bind_any (fun _ => trivial) fun _ => .ok (h.same rfl rfl)

end Steps

/-! ## Whole files -/

variable {N : Option CStr → Prop} {ast : TasmAst} {t : TasmTranslator}

theorem translate_bounded (hast : WellFormed N ast) (h : tasmTranslate ast = .ok t) : Bounded t := by
  have pass {f : TasmTranslator → Item → Tr TasmTranslator} (hf : ∀ i ∈ ast.items, ∀ t, Bounded t → Bounds (f t i))
      {t : TasmTranslator} (ht : Bounded t) : Bounds (ast.items.foldlM f t) :=
    Except.foldlM_post (fun _ => Bounded) ast.items [] t
      (fun pre i post c heq hc => hf i (by rw [← List.nil_append ast.items, heq]; simp) c hc) ht
  have hpost : Bounds (tasmTranslate ast) := by
    unfold tasmTranslate
    rw [resolveProcs_eq hast]
    refine .bind ((pass (fun i hi t ht => (steps_bounds hast hi ht).1) ?_).mono (fun _ h => h) fun t₁ h₁ => ?_)
    · exact ⟨Nat.zero_le _, Nat.zero_le _, Nat.zero_le _, fun _ => rfl⟩
    rw [resolveLabels_eq hast]
    refine .bind ((pass (fun i hi t ht => (steps_bounds hast hi ht).2.1) h₁).mono (fun _ h => h) fun t₂ h₂ => ?_)
    rw [translateUnit_eq hast]
    exact pass (fun i hi t ht => (steps_bounds hast hi ht).2.2) h₂
  exact hpost.of_ok h

/-- A file that the translator finishes without an error is within its tables. -/
theorem withinTables_of_translate (hast : Complete ast) (h : tasmTranslate ast = .ok t) (herr : t.symbols.err = false) :
    WithinTables ast.items := by
  have hb := translate_bounded hast.shape h
  have htr := translated hast.shape h herr
  obtain ⟨m, -, -, hcfuns, -⟩ := (tabled hast h).cfuns
  constructor
  · rw [← declared_names Item.procName? 0, List.length_map, ← htr.procDecls]
    exact hb.procs
  · rw [← declared_names Item.labelName? 0, List.length_map, ← htr.labelDecls]
    exact hb.labels
  · rw [← callLog_names t.symbols, List.length_map, ← htr.labelCalls]
    exact hb.calls
  · exact htr.fits
  · exact hcfuns

/-- The files that the translator finishes without an error. -/
theorem translates_ok_iff (hast : Complete ast) (hnames : WellFormed IdName ast) :
    (∃ t, tasmTranslate ast = .ok t ∧ t.symbols.err = false) ↔ WellScoped ast.items ∧ WithinTables ast.items := by
  constructor
  · rintro ⟨t, h, herr⟩
    have hroom := withinTables_of_translate hast h herr
    exact ⟨(translates_iff hast hnames hroom).mp ⟨t, h, herr⟩, hroom⟩
  · rintro ⟨hscoped, hroom⟩
    exact (translates_iff hast hnames hroom).mpr hscoped

end TileVm
