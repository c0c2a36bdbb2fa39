/-
A syntax tree as a document: the list of its declarations and instructions in source order, each
with the scope it stands in. The position of an item is the number of instructions before it; the
tables of procs and labels are the positions of their declarations. Each pass of the translator is
a fold over this list.
-/
import TileVm.Lib.Fold
import TileVm.Tasm.ParserSpec
import TileVm.Tasm.Translator

namespace TileVm

/-- A declaration or an instruction; `scope` is the name of the enclosing proc, `none` at file level. -/
inductive Item where
  | inst (scope : Option CStr) (o : OpType) (operand : Option TasmAst)
  | label (scope : Option CStr) (name : Option CStr)
  | proc (name : Option CStr)
  | metadata (node : TasmAst)

namespace Item

/-- The opcodes that an item stands for. -/
def size : Item → Nat
  | .inst _ _ _ => 1
  | _ => 0

/-- The name under which a proc is declared. -/
def procName? : Item → Option CStr
  | .proc name => name
  | _ => none

/-- The name under which a label is declared: that of its proc, a `$` and its own. -/
def labelName? : Item → Option CStr
  | .label scope name => name.map (labelName scope)
  | _ => none

/-- The name under which the operand of a jump is looked up. -/
def jumpName? : Item → Option CStr
  | .inst scope o (some (.labelCall name)) => if o.operandKind = .jump then name.map (labelName scope) else none
  | _ => none

/-- The name of the proc that a call names. -/
def callName? : Item → Option CStr
  | .inst _ o (some (.labelCall name)) => if o.operandKind = .label then name else none
  | _ => none

end Item

/-- The item of a line. -/
def lineItem (scope : Option CStr) : TasmAst → Item
  | .op o _ operand => .inst scope o operand
  | .labelDecl name => .label scope name
  | node => .metadata node

/-- The items of a line of the file: those of a proc follow its declaration. -/
def fileItems : TasmAst → List Item
  | .proc name lines => .proc name :: lines.map (lineItem name)
  | node => [lineItem none node]

/-- The document of a file. -/
def TasmAst.items : TasmAst → List Item
  | .file lines => lines.flatMap fileItems
  | _ => []

/-! ## Positions -/

/-- The number of instructions in a list of items. -/
def instCount (items : List Item) : Nat := (items.map Item.size).sum

@[simp] theorem instCount_nil : instCount [] = 0 := rfl

@[simp] theorem instCount_cons (i : Item) (items : List Item) : instCount (i :: items) = i.size + instCount items := by
  simp [instCount]

@[simp] theorem instCount_append (a b : List Item) : instCount (a ++ b) = instCount a + instCount b := by
  simp [instCount]

/-- The symbols that items declare, with their positions behind `n` instructions. -/
def declared (name? : Item → Option CStr) : Nat → List Item → List Symbol
  | _, [] => []
  | n, i :: items => ((name? i).map fun name => ⟨n, name⟩).toList ++ declared name? (n + i.size) items

theorem declared_append (name? : Item → Option CStr) (n : Nat) (a b : List Item) :
    declared name? n (a ++ b) = declared name? n a ++ declared name? (n + instCount a) b := by
  induction a generalizing n with
  | nil => simp [declared]
  | cons i a ih => simp [declared, ih, Nat.add_assoc]

theorem declared_length (name? : Item → Option CStr) (n : Nat) (items : List Item) :
    (declared name? n items).length = (items.filterMap name?).length := by
  induction items generalizing n with
  | nil => rfl
  | cons i items ih => cases hi : name? i <;> simp [declared, hi, ih, Nat.add_comm]

/-- The symbol of an item is recorded behind those of the items before it, at its position. -/
theorem declared_getElem? (name? : Item → Option CStr) {pre post : List Item} {i : Item} {name : CStr}
    (h : name? i = some name) :
    (declared name? 0 (pre ++ i :: post))[(pre.filterMap name?).length]? = some ⟨instCount pre, name⟩ := by
  have hlen := declared_length name? 0 pre
  rw [declared_append, List.getElem?_append_right (Nat.le_of_eq hlen), hlen, Nat.sub_self]
  simp [declared, h]

/-- A recorded symbol is that of an item, at its position. -/
theorem mem_declared {name? : Item → Option CStr} {s : Symbol} :
    ∀ {items : List Item} {n : Nat}, s ∈ declared name? n items →
      ∃ pre i post, items = pre ++ i :: post ∧ name? i = some s.name ∧ s.addr = n + instCount pre
  | i :: items, n, h => by
    rw [declared, List.mem_append] at h
    rcases h with h | h
    · rw [Option.mem_toList, Option.map_eq_some_iff] at h
      obtain ⟨name, hname, rfl⟩ := h
      exact ⟨[], i, items, rfl, hname, rfl⟩
    · obtain ⟨pre, j, post, rfl, hname, haddr⟩ := mem_declared h
      exact ⟨i :: pre, j, post, rfl, hname, by simp [haddr, Nat.add_assoc]⟩

/-! ## The passes as folds -/

/-- What `tasm_resolve_procs` does at an item. -/
def procStep (t : TasmTranslator) : Item → Tr TasmTranslator
  | .inst _ _ _ =>
    .ok { t with symbols := { t.symbols with procAddressPointer := t.symbols.procAddressPointer + 1 } }
  | .proc name => declareProc t name
  | _ => .ok t

/-- What `tasm_resolve_labels` does at an item. -/
def labelStep (t : TasmTranslator) : Item → Tr TasmTranslator
  | .inst _ _ _ =>
    .ok { t with symbols := { t.symbols with labelAddressPointer := t.symbols.labelAddressPointer + 1 } }
  | .label scope name => declareLabel t scope name
  | _ => .ok t

/-- What `tasm_translate_unit` does at an item. -/
def emitStep (t : TasmTranslator) : Item → Tr TasmTranslator
  | .inst scope o operand => tasmTranslateLine t scope false (.op o none operand)
  | .metadata node => tasmTranslateLine t none false node
  | _ => .ok t

/-- The mnemonic's text does not matter. -/
theorem translateLine_name (t : TasmTranslator) (scope : Option CStr) (b : Bool) (o : OpType)
    (name : Option CStr) (operand : Option TasmAst) :
    tasmTranslateLine t scope b (.op o name operand) = tasmTranslateLine t scope b (.op o none operand) := by
  cases o <;> rfl

section Folds

variable {N : Option CStr → Prop}

theorem resolveProcsLines_eq (t : TasmTranslator) (lines : List TasmAst) :
    resolveProcsLines t lines = lines.foldlM tasmResolveProcs t := by
  induction lines generalizing t with
  | nil => simp only [resolveProcsLines]; rfl
  | cons l lines ih =>
    simp only [resolveProcsLines, List.foldlM_cons, ih]

theorem resolveLabelsLines_eq (t : TasmTranslator) (scope : Option CStr) (lines : List TasmAst) :
    resolveLabelsLines t scope lines = lines.foldlM (fun t l => tasmResolveLabels t scope l) t := by
  induction lines generalizing t with
  | nil => simp only [resolveLabelsLines]; rfl
  | cons l lines ih =>
    simp only [resolveLabelsLines, List.foldlM_cons, ih]

theorem resolveProcs_line {l : TasmAst} (h : ProcLine N l) (scope : Option CStr) (t : TasmTranslator) :
    tasmResolveProcs t l = procStep t (lineItem scope l) := by
  cases h <;> simp only [tasmResolveProcs, lineItem, procStep]

theorem resolveLabels_line {l : TasmAst} (h : ProcLine N l) (scope : Option CStr) (t : TasmTranslator) :
    tasmResolveLabels t scope l = labelStep t (lineItem scope l) := by
  cases h <;> simp only [tasmResolveLabels, lineItem, labelStep]

theorem translate_line {l : TasmAst} (h : ProcLine N l) (scope : Option CStr) (t : TasmTranslator) :
    tasmTranslateLine t scope false l = emitStep t (lineItem scope l) := by
  cases h with
  | op o name operand => exact translateLine_name t scope false o name operand
  | labelDecl n => rfl

/-- A step function that agrees on the lines agrees on the document. -/
theorem foldlM_items {f : TasmTranslator → TasmAst → Tr TasmTranslator}
    {g : TasmTranslator → Item → Tr TasmTranslator} {lines : List TasmAst}
    (h : ∀ l ∈ lines, ∀ t, f t l = (fileItems l).foldlM g t) (t : TasmTranslator) :
    lines.foldlM f t = (TasmAst.file lines).items.foldlM g t := by
  simp only [TasmAst.items]
  induction lines generalizing t with
  | nil => rfl
  | cons l lines ih =>
    rw [List.foldlM_cons, List.flatMap_cons, List.foldlM_append, h l (List.mem_cons_self ..) t]
    congr 1
    funext t'
    exact ih (fun l' hl' => h l' (List.mem_cons_of_mem _ hl')) t'

theorem resolveProcs_eq {ast : TasmAst} (h : WellFormed N ast) (t : TasmTranslator) :
    tasmResolveProcs t ast = ast.items.foldlM procStep t := by
  obtain ⟨lines, h⟩ := h
  simp only [tasmResolveProcs, resolveProcsLines_eq]
  refine foldlM_items (fun l hl t => ?_) t
  cases h l hl with
  | line _ hline =>
    rw [resolveProcs_line hline none]
    cases hline <;> exact (bind_pure _).symm
  | proc name lines _ hlines =>
    simp only [tasmResolveProcs, fileItems, List.foldlM_cons, procStep, resolveProcsLines_eq, List.foldlM_map]
    congr 1
    funext t'
    exact Except.foldlM_congr fun l hl t => resolveProcs_line (hlines l hl) name t
  | cfunction | cstruct | data => simp only [tasmResolveProcs]; rfl

theorem resolveLabels_eq {ast : TasmAst} (h : WellFormed N ast) (t : TasmTranslator) :
    tasmResolveLabels t none ast = ast.items.foldlM labelStep t := by
  obtain ⟨lines, h⟩ := h
  simp only [tasmResolveLabels, resolveLabelsLines_eq]
  refine foldlM_items (fun l hl t => ?_) t
  cases h l hl with
  | line _ hline =>
    rw [resolveLabels_line hline none]
    cases hline <;> exact (bind_pure _).symm
  | proc name lines _ hlines =>
    simp only [tasmResolveLabels, fileItems, List.foldlM_cons, labelStep, resolveLabelsLines_eq, List.foldlM_map]
    exact Except.foldlM_congr fun l hl t => resolveLabels_line (hlines l hl) name t
  | cfunction | cstruct | data => simp only [tasmResolveLabels]; rfl

theorem translateUnit_eq {ast : TasmAst} (h : WellFormed N ast) (t : TasmTranslator) :
    tasmTranslateUnit t ast = ast.items.foldlM emitStep t := by
  obtain ⟨lines, h⟩ := h
  refine foldlM_items (fun l hl t => ?_) t
  cases h l hl with
  | line _ hline =>
    have heq : tasmTranslateProcAndLine t l = tasmTranslateLine t none false l := by cases hline <;> rfl
    rw [heq, translate_line hline none]
    cases hline <;> exact (bind_pure _).symm
  | proc name lines _ hlines =>
    simp only [tasmTranslateProcAndLine, tasmTranslateProc, fileItems, List.foldlM_cons, emitStep, List.foldlM_map]
    exact Except.foldlM_congr fun l hl t => translate_line (hlines l hl) name t
  | cfunction | cstruct | data => exact (bind_pure _).symm

end Folds

end TileVm
