/-
Names and places in a document. Other names for procs and labels, and other places for the
declarations of constants and functions, change neither whether the translator accepts a document nor
the opcodes: a table is asked for names by comparisons only, and declarations take no address.
-/
import Mathlib.Data.List.Forall2
import TileVm.Tasm.TranslatorReports

namespace TileVm

/-- Other names for the identifiers of a document: for its procs and the labels outside of them, and for the labels of each
proc. -/
structure Renaming where
  outer : CStr → CStr
  inner : CStr → CStr → CStr
  outer_id : ∀ x, IdName (some x) → IdName (some (outer x))
  inner_id : ∀ p x, IdName (some x) → IdName (some (inner p x))
  outer_inj : ∀ x y, IdName (some x) → IdName (some y) → outer x = outer y → x = y
  inner_inj : ∀ p x y, IdName (some x) → IdName (some y) → inner p x = inner p y → x = y

theorem IdName.eq_some {name : Option CStr} (h : IdName name) : ∃ x, name = some x := h.imp fun _ hx => hx.1

/-- Code is what has an address: instructions, labels and procs. -/
def Item.isCode : Item → Bool
  | .metadata _ => false
  | _ => true

/-- Code declares neither a function nor a constant. -/
theorem Item.cfun?_code (i : Item) (h : i.isCode = true) : i.cfun? = none := by
  cases i with
  | metadata => cases h
  | inst | label | proc => rfl

theorem Item.const?_code (i : Item) (h : i.isCode = true) : i.const? = none := by
  cases i with
  | metadata => cases h
  | inst | label | proc => rfl

namespace Renaming

/-- The new name of a label. -/
def label (ρ : Renaming) : Option CStr → CStr → CStr
  | none => ρ.outer
  | some p => ρ.inner p

def operand (ρ : Renaming) (scope : Option CStr) (o : OpType) : TasmAst → TasmAst
  | .labelCall name => .labelCall (name.map (if o.operandKind = .label then ρ.outer else ρ.label scope))
  | node => node

def item (ρ : Renaming) : Item → Item
  | .inst scope o operand => .inst (scope.map ρ.outer) o (operand.map (ρ.operand scope o))
  | .label scope name => .label (scope.map ρ.outer) (name.map (ρ.label scope))
  | .proc name => .proc (name.map ρ.outer)
  | .metadata node => .metadata node

/-- The second document has the code of the first under the new names, and its declarations, wherever they stand. -/
structure Relates (ρ : Renaming) (items items' : List Item) : Prop where
  code : items'.filter Item.isCode = (items.filter Item.isCode).map ρ.item
  metadata : items'.filter (fun i => !i.isCode) = items.filter (fun i => !i.isCode)

/-- Names of labels, with their scopes, and the new names. A proc has the name of a label at file level. -/
inductive Names (ρ : Renaming) : CStr → CStr → Prop where
  | intro {scope : Option CStr} {x : CStr} (hs : ∀ p, scope = some p → IdName (some p)) (hx : IdName (some x)) :
      Names ρ (labelName scope x) (labelName (scope.map ρ.outer) (ρ.label scope x))

/-- The same address under the new name. -/
structure SameSymbol (ρ : Renaming) (s s' : Symbol) : Prop where
  addr : s'.addr = s.addr
  name : ρ.Names s.name s'.name

variable {ρ : Renaming} {scope scope' : Option CStr} {x x' y n n' : CStr} {i : Item} {items items' : List Item}

/-! ## Names -/

theorem label_id (scope : Option CStr) (hx : IdName (some x)) : IdName (some (ρ.label scope x)) := by
  cases scope with
  | none => exact ρ.outer_id x hx
  | some p => exact ρ.inner_id p x hx

theorem scope_id (hs : ∀ p, scope = some p → IdName (some p)) : ∀ p, scope.map ρ.outer = some p → IdName (some p) := by
  intro p hp
  obtain ⟨q, rfl, rfl⟩ := Option.map_eq_some_iff.mp hp
  exact ρ.outer_id q (hs q rfl)

/-- New names tell labels apart as the old ones do. -/
theorem label_inj (hs : ∀ p, scope = some p → IdName (some p)) (hs' : ∀ p, scope' = some p → IdName (some p))
    (hx : IdName (some x)) (hx' : IdName (some x')) (hscope : scope.map ρ.outer = scope'.map ρ.outer)
    (hlabel : ρ.label scope x = ρ.label scope' x') : scope = scope' ∧ x = x' := by
  cases scope with
  | none =>
    cases scope' with
    | none => exact ⟨rfl, ρ.outer_inj x x' hx hx' hlabel⟩
    | some p' => cases hscope
  | some p =>
    cases scope' with
    | none => cases hscope
    | some p' =>
      obtain rfl := ρ.outer_inj p p' (hs p rfl) (hs' p' rfl) (Option.some.inj hscope)
      exact ⟨rfl, ρ.inner_inj p x x' hx hx' hlabel⟩

theorem Names.eq_iff {m m' : CStr} (h : ρ.Names n n') (h' : ρ.Names m m') : n = m ↔ n' = m' := by
  obtain ⟨hs, hx⟩ := h
  obtain ⟨hs', hx'⟩ := h'
  constructor
  · intro heq
    obtain ⟨rfl, rfl⟩ := labelName_inj hs hs' hx hx' heq
    rfl
  · intro heq
    obtain ⟨hscope, hlabel⟩ := labelName_inj (scope_id hs) (scope_id hs') (label_id _ hx) (label_id _ hx') heq
    obtain ⟨rfl, rfl⟩ := label_inj hs hs' hx hx' hscope hlabel
    rfl

/-- The name of a proc. -/
theorem names_outer (hx : IdName (some x)) : ρ.Names x (ρ.outer x) := by
  have hs (p : CStr) (hp : none = some p) : IdName (some p) := by cases hp
  exact .intro hs hx

/-- A name is looked up in a table as its new name is in the table of new names. -/
theorem getAddr_eq {table table' : List Symbol} (h : List.Forall₂ ρ.SameSymbol table table') (hn : ρ.Names n n') :
    getAddr table' n' = getAddr table n := by
  induction h with
  | nil => rfl
  | @cons s s' table table' hs _ ih =>
    have hiff := hs.name.eq_iff hn
    unfold getAddr at ih ⊢
    by_cases heq : s.name = n
    · simp [heq, hiff.mp heq, hs.addr]
    · have hne : ¬ s'.name = n' := fun h => heq (hiff.mpr h)
      simpa [List.find?_cons, heq, hne] using ih

theorem intAddr_eq {table table' : List Symbol} (h : List.Forall₂ ρ.SameSymbol table table') (hn : ρ.Names n n') :
    intAddr table' n' = intAddr table n := congrArg (BitVec.ofNat 32) (getAddr_eq h hn)

/-! ## Items -/

@[simp] theorem isCode_item (i : Item) : (ρ.item i).isCode = i.isCode := by cases i <;> rfl

@[simp] theorem size_item (i : Item) : (ρ.item i).size = i.size := by cases i <;> rfl

theorem procName?_item (i : Item) : (ρ.item i).procName? = i.procName?.map ρ.outer := by cases i <;> rfl

theorem labelKey?_item (i : Item) :
    (ρ.item i).labelKey? = i.labelKey?.map fun k => (k.1.map ρ.outer, ρ.label k.1 k.2) := by
  cases i with
  | label scope name => cases name <;> rfl
  | inst | proc | metadata => rfl

theorem loggedName?_item (i : Item) : ((ρ.item i).loggedName?.map fun _ => ()) = i.loggedName?.map fun _ => () := by
  cases i with
  | inst scope o operand =>
    cases operand with
    | none => rfl
    | some node =>
      cases node with
      | labelCall name =>
        cases name with
        | none => simp [item, operand, Item.loggedName?, Item.jumpName?, Item.callName?]
        | some x =>
          simp only [item, operand, Item.loggedName?, Item.jumpName?, Item.callName?, Option.map_some]
          by_cases hjump : o.operandKind = .jump
          · simp [hjump]
          · by_cases hlabel : o.operandKind = .label
            · simp [hlabel]
            · simp [hjump, hlabel]
      | _ => rfl
  | label | proc | metadata => rfl

/-- The labels that items declare, under their names in the table. -/
theorem labelName?_rel (hi : ItemFits IdName i) : Option.Rel ρ.Names i.labelName? (ρ.item i).labelName? := by
  cases hi with
  | label scope name hs hn =>
    obtain ⟨x, rfl⟩ := hn.eq_some
    exact .some (.intro hs hn)
  | inst | proc | metadata => exact .none

theorem procName?_rel (hi : ItemFits IdName i) : Option.Rel ρ.Names i.procName? (ρ.item i).procName? := by
  cases hi with
  | proc name hn =>
    obtain ⟨x, rfl⟩ := hn.eq_some
    exact .some (names_outer hn)
  | inst | label | metadata => exact .none

/-- The labels that jumps name. -/
theorem jumpName?_rel (hi : ItemFits IdName i) : Option.Rel ρ.Names i.jumpName? (ρ.item i).jumpName? := by
  cases hi with
  | inst scope o operand hs hfits =>
    generalize hkind : o.operandKind = kind at hfits
    cases hfits with
    | jumpLabel n hn =>
      obtain ⟨x, rfl⟩ := hn.eq_some
      simp only [item, operand, Item.jumpName?, hkind, if_true, Option.map_some]
      exact .some (.intro hs hn)
    | label n hn =>
      simp only [item, operand, Item.jumpName?, hkind, Option.map_some]
      exact .none
    | nothing | pushNumber | pushChar | int | jumpNumber => exact .none
  | label | proc | metadata => exact .none

/-- The procs that calls name. -/
theorem callName?_rel (hi : ItemFits IdName i) : Option.Rel ρ.Names i.callName? (ρ.item i).callName? := by
  cases hi with
  | inst scope o operand hs hfits =>
    generalize hkind : o.operandKind = kind at hfits
    cases hfits with
    | jumpLabel n hn =>
      simp only [item, operand, Item.callName?, hkind, Option.map_some]
      exact .none
    | label n hn =>
      obtain ⟨x, rfl⟩ := hn.eq_some
      simp only [item, operand, Item.callName?, hkind, if_true, Option.map_some]
      exact .some (names_outer hn)
    | nothing | pushNumber | pushChar | int | jumpNumber => exact .none
  | label | proc | metadata => exact .none

/-! ## Tables -/

/-- The symbols of a document under the new names have the same addresses. -/
theorem declared_same {name? : Item → Option CStr} (hrel : ∀ i ∈ items, Option.Rel ρ.Names (name? i) (name? (ρ.item i)))
    (k : Nat) : List.Forall₂ ρ.SameSymbol (declared name? k items) (declared name? k (items.map ρ.item)) := by
  induction items generalizing k with
  | nil => exact .nil
  | cons i items ih =>
    have hrest := ih (fun j hj => hrel j (List.mem_cons_of_mem _ hj)) (k + i.size)
    have hi := hrel i List.mem_cons_self
    rw [List.map_cons, declared, declared, size_item]
    revert hi
    cases name? i <;> cases name? (ρ.item i) <;> intro hi <;> cases hi
    · exact hrest
    · rename_i h
      exact .cons ⟨rfl, h⟩ hrest

/-- The tables of the translator on two documents that are related by the renaming. -/
structure SameTables (ρ : Renaming) (s s' : SymbolTable) : Prop where
  procs : List.Forall₂ ρ.SameSymbol s.procDecls s'.procDecls
  labels : List.Forall₂ ρ.SameSymbol s.labelDecls s'.labelDecls

/-- An instruction logs the same address under the new name. -/
theorem SameTables.loggedCall {s s' : SymbolTable} (h : ρ.SameTables s s') (hi : ItemFits IdName i) :
    Option.Rel ρ.SameSymbol (TileVm.loggedCall s i) (TileVm.loggedCall s' (ρ.item i)) := by
  have hjump : Option.Rel ρ.Names i.jumpName? (ρ.item i).jumpName? := jumpName?_rel hi
  have hcall : Option.Rel ρ.Names i.callName? (ρ.item i).callName? := callName?_rel hi
  unfold TileVm.loggedCall
  revert hjump hcall
  cases i.jumpName? <;> cases (ρ.item i).jumpName? <;> intro hjump <;> cases hjump
  · cases i.callName? <;> cases (ρ.item i).callName? <;> intro hcall <;> cases hcall
    · exact .none
    · rename_i hn
      exact .some ⟨congrArg (fun a : BitVec 32 => (a.signExtend 64).toNat) (intAddr_eq h.procs hn), hn⟩
  · rename_i hn
    intro _
    exact .some ⟨congrArg (fun a : BitVec 32 => (a.signExtend 64).toNat) (intAddr_eq h.labels hn), hn⟩

theorem SameTables.callLog {s s' : SymbolTable} (h : ρ.SameTables s s') (hfit : ∀ i ∈ items, ItemFits IdName i) :
    List.Forall₂ ρ.SameSymbol (TileVm.callLog s items) (TileVm.callLog s' (items.map ρ.item)) := by
  induction items with
  | nil => exact .nil
  | cons i items ih =>
    have hrest := ih fun j hj => hfit j (List.mem_cons_of_mem _ hj)
    have hi := h.loggedCall (hfit i List.mem_cons_self)
    unfold TileVm.callLog at hrest ⊢
    rw [List.map_cons, List.filterMap_cons, List.filterMap_cons]
    revert hi
    cases TileVm.loggedCall s i <;> cases TileVm.loggedCall s' (ρ.item i) <;> intro hi <;> cases hi
    · exact hrest
    · rename_i hs
      exact .cons hs hrest

/-- An instruction under new names is the same opcode. -/
theorem SameTables.opcodeOf {s s' : SymbolTable} (h : ρ.SameTables s s') {log log' : List Symbol}
    (hlog : List.Forall₂ ρ.SameSymbol log log') {o : OpType} {operand : Option TasmAst}
    (hi : ItemFits IdName (.inst scope o operand)) :
    TileVm.opcodeOf s' log' (scope.map ρ.outer) o (operand.map (ρ.operand scope o)) = TileVm.opcodeOf s log scope o operand := by
  cases hi with
  | inst _ _ _ hs hfits =>
    generalize hkind : o.operandKind = kind at hfits
    cases hfits with
    | jumpLabel n hn =>
      obtain ⟨x, rfl⟩ := hn.eq_some
      simp only [Renaming.operand, TileVm.opcodeOf, hkind, Option.map_some]
      have haddr := intAddr_eq hlog (Names.intro hs hn)
      exact congrArg (Opcode.withUi32 o .vmAddress) haddr
    | label n hn =>
      obtain ⟨x, rfl⟩ := hn.eq_some
      simp only [Renaming.operand, TileVm.opcodeOf, hkind, if_true, Option.map_some]
      rw [intAddr_eq h.procs (names_outer hn)]
    | pushChar c => cases c <;> rfl
    | nothing | pushNumber | int | jumpNumber => rfl

/-! ## Related documents -/

section Places

variable {α : Type} {f : Item → Option α}

/-- What declarations have no part in does not see them. -/
theorem filterMap_code (hf : ∀ node, f (.metadata node) = none) (items : List Item) :
    (items.filter Item.isCode).filterMap f = items.filterMap f := by
  rw [List.filterMap_filter]
  congr 1
  funext i
  cases i with
  | metadata node => exact (hf node).symm
  | inst | label | proc => rfl

/-- What only declarations have a part in sees nothing else. -/
theorem filterMap_metadata (hf : ∀ i, i.isCode = true → f i = none) (items : List Item) :
    (items.filter (fun i => !i.isCode)).filterMap f = items.filterMap f := by
  rw [List.filterMap_filter]
  congr 1
  funext i
  cases i with
  | metadata node => rfl
  | inst | label | proc => exact (hf _ rfl).symm

theorem instCount_code (items : List Item) : instCount (items.filter Item.isCode) = instCount items := by
  induction items with
  | nil => rfl
  | cons i items ih =>
    cases i with
    | metadata node => simpa [Item.isCode, Item.size] using ih
    | inst | label | proc => rw [List.filter_cons_of_pos rfl, instCount_cons, instCount_cons, ih]

theorem instCount_map (items : List Item) : instCount (items.map ρ.item) = instCount items := by
  induction items with
  | nil => rfl
  | cons i items ih => simp [ih]

/-- Every address is that of an instruction. -/
theorem inst_at {k : Nat} (hk : k < instCount items) : ∃ pre scope o operand post,
    items = pre ++ .inst scope o operand :: post ∧ instCount pre = k := by
  induction items generalizing k with
  | nil => exact absurd hk (Nat.not_lt_zero k)
  | cons i items ih =>
    by_cases hi : k < i.size
    · cases i with
      | inst scope o operand => exact ⟨[], scope, o, operand, items, rfl, (Nat.lt_one_iff.mp hi).symm⟩
      | label | proc | metadata => exact absurd hi (Nat.not_lt_zero k)
    · rw [instCount_cons] at hk
      obtain ⟨pre, scope, o, operand, post, rfl, hpre⟩ := ih (k := k - i.size) (by omega)
      refine ⟨i :: pre, scope, o, operand, post, rfl, ?_⟩
      rw [instCount_cons, hpre]
      omega

theorem declared_code {name? : Item → Option CStr} (hname : ∀ node, name? (.metadata node) = none) (k : Nat)
    (items : List Item) : declared name? k (items.filter Item.isCode) = declared name? k items := by
  induction items generalizing k with
  | nil => rfl
  | cons i items ih =>
    cases i with
    | metadata node => simpa [Item.isCode, declared, hname, Item.size] using ih k
    | inst | label | proc => rw [List.filter_cons_of_pos rfl, declared, declared, ih]

end Places

theorem fits_code (hfit : ∀ i ∈ items, ItemFits IdName i) : ∀ i ∈ items.filter Item.isCode, ItemFits IdName i :=
  fun i hi => hfit i (List.mem_filter.mp hi).1

/-! ## Items and their images -/

section Images

variable {o : OpType} {j : Item}

theorem proc_id (hfit : ∀ i ∈ items, ItemFits IdName i) (hx : x ∈ items.filterMap Item.procName?) : IdName (some x) := by
  obtain ⟨i, hi, hname⟩ := List.mem_filterMap.mp hx
  cases hfit i hi with
  | proc name hn =>
    cases hname
    exact hn
  | inst | label | metadata => cases hname

theorem labelKey_id (hfit : ∀ i ∈ items, ItemFits IdName i) (hk : (scope, x) ∈ items.filterMap Item.labelKey?) :
    (∀ p, scope = some p → IdName (some p)) ∧ IdName (some x) := by
  obtain ⟨i, hi, hkey⟩ := List.mem_filterMap.mp hk
  obtain rfl := labelKey_eq hkey
  cases hfit _ hi with
  | label _ _ hs hn => exact ⟨hs, hn⟩

theorem jump_kind (ho : o ∈ [OpType.jmp, .jz, .jnz]) : o.operandKind = .jump := by
  simp only [List.mem_cons, List.not_mem_nil, or_false] at ho
  rcases ho with rfl | rfl | rfl <;> rfl

theorem operand_of_image {operand : Option TasmAst} (h : operand.map (ρ.operand scope o) = some (.labelCall (some x'))) :
    ∃ x, operand = some (.labelCall (some x)) ∧ x' = (if o.operandKind = .label then ρ.outer else ρ.label scope) x := by
  obtain ⟨node, rfl, hnode⟩ := Option.map_eq_some_iff.mp h
  cases node with
  | labelCall name =>
    obtain ⟨x, rfl, rfl⟩ := Option.map_eq_some_iff.mp (TasmAst.labelCall.inj hnode)
    exact ⟨x, rfl, rfl⟩
  | _ => cases hnode

theorem jump_of_image (ho : o.operandKind = .jump) (h : ρ.item i = .inst scope' o (some (.labelCall (some x')))) :
    ∃ scope x, i = .inst scope o (some (.labelCall (some x))) ∧ scope' = scope.map ρ.outer ∧ x' = ρ.label scope x := by
  cases i with
  | inst scope o operand =>
    obtain ⟨rfl, rfl, hoperand⟩ := Item.inst.inj h
    obtain ⟨x, rfl, rfl⟩ := operand_of_image hoperand
    rw [if_neg (by rw [ho]; decide)]
    exact ⟨scope, x, rfl, rfl, rfl⟩
  | label | proc | metadata => cases h

theorem call_of_image (h : ρ.item i = .inst scope' .call (some (.labelCall (some x')))) :
    ∃ scope x, i = .inst scope .call (some (.labelCall (some x))) ∧ x' = ρ.outer x := by
  cases i with
  | inst scope o operand =>
    obtain ⟨rfl, rfl, hoperand⟩ := Item.inst.inj h
    obtain ⟨x, rfl, rfl⟩ := operand_of_image hoperand
    exact ⟨scope, x, rfl, rfl⟩
  | label | proc | metadata => cases h

/-- A label with the new name of the label that a jump names, is that label. -/
theorem label_of_image (hfit : ∀ i ∈ items, ItemFits IdName i) (hi : .inst scope o (some (.labelCall (some x))) ∈ items)
    (hj : j ∈ items) (h : ρ.item j = .label (scope.map ρ.outer) (some (ρ.label scope x))) : .label scope (some x) ∈ items := by
  obtain ⟨hx, hs⟩ := (hfit _ hi).jump_names
  cases hfit j hj with
  | label scope₂ name hs₂ hn =>
    obtain ⟨x₂, rfl⟩ := hn.eq_some
    simp only [item, Option.map_some, Item.label.injEq, Option.some.injEq] at h
    obtain ⟨rfl, rfl⟩ := label_inj hs₂ hs hn hx h.1 h.2
    exact hj
  | inst | proc | metadata => cases h

theorem proc_of_image (hfit : ∀ i ∈ items, ItemFits IdName i) (hi : .inst scope o (some (.labelCall (some x))) ∈ items)
    (hj : j ∈ items) (h : ρ.item j = .proc (some (ρ.outer x))) : .proc (some x) ∈ items := by
  obtain ⟨hx, -⟩ := (hfit _ hi).jump_names
  cases hfit j hj with
  | proc name hn =>
    obtain ⟨x₂, rfl⟩ := hn.eq_some
    simp only [item, Option.map_some, Item.proc.injEq, Option.some.injEq] at h
    obtain rfl := ρ.outer_inj x₂ x hn hx h
    exact hj
  | inst | label | metadata => cases h

end Images

section Relates

variable (h : ρ.Relates items items')

include h

theorem Relates.filterMap {α : Type} {f g : Item → Option α} (hf : ∀ node, f (.metadata node) = none)
    (hg : ∀ node, g (.metadata node) = none) (hfg : ∀ i, f (ρ.item i) = g i) : items'.filterMap f = items.filterMap g := by
  rw [← filterMap_code hf, h.code, List.filterMap_map, ← filterMap_code hg]
  exact congrArg (fun k => (items.filter Item.isCode).filterMap k) (funext hfg)

theorem Relates.instCount : instCount items' = instCount items := by
  rw [← instCount_code, h.code, instCount_map, instCount_code]

theorem Relates.cfunsOf : cfunsOf items' = cfunsOf items := by
  unfold TileVm.cfunsOf
  rw [← filterMap_metadata Item.cfun?_code, h.metadata, filterMap_metadata Item.cfun?_code]

theorem Relates.constsOf : constsOf items' = constsOf items := by
  unfold TileVm.constsOf
  rw [← filterMap_metadata Item.const?_code, h.metadata, filterMap_metadata Item.const?_code]

/-- An item of the first document has its image in the second. -/
theorem Relates.image (hi : i ∈ items) (hcode : i.isCode = true) : ρ.item i ∈ items' := by
  have hmem : ρ.item i ∈ items'.filter Item.isCode := by
    rw [h.code]
    exact List.mem_map_of_mem (List.mem_filter.mpr ⟨hi, hcode⟩)
  exact (List.mem_filter.mp hmem).1

theorem Relates.preimage {i' : Item} (hi : i' ∈ items') (hcode : i'.isCode = true) : ∃ i ∈ items, ρ.item i = i' := by
  have hmem : i' ∈ (items.filter Item.isCode).map ρ.item := by
    rw [← h.code]
    exact List.mem_filter.mpr ⟨hi, hcode⟩
  obtain ⟨i, hi, heq⟩ := List.mem_map.mp hmem
  exact ⟨i, (List.mem_filter.mp hi).1, heq⟩

theorem Relates.declared (hfit : ∀ i ∈ items, ItemFits IdName i) {name? : Item → Option CStr}
    (hname : ∀ node, name? (.metadata node) = none)
    (hrel : ∀ i, ItemFits IdName i → Option.Rel ρ.Names (name? i) (name? (ρ.item i))) :
    List.Forall₂ ρ.SameSymbol (declared name? 0 items) (declared name? 0 items') := by
  rw [← declared_code hname 0 items, ← declared_code hname 0 items', h.code]
  exact declared_same (fun i hi => hrel i (fits_code hfit i hi)) 0

/-! ## Acceptance -/

theorem Relates.procs : items'.filterMap Item.procName? = (items.filterMap Item.procName?).map ρ.outer := by
  rw [List.map_filterMap]
  exact h.filterMap (fun _ => rfl) (fun _ => rfl) procName?_item

theorem Relates.labels : items'.filterMap Item.labelKey? =
    (items.filterMap Item.labelKey?).map fun k => (k.1.map ρ.outer, ρ.label k.1 k.2) := by
  rw [List.map_filterMap]
  exact h.filterMap (fun _ => rfl) (fun _ => rfl) labelKey?_item

/-- New names leave a document well scoped, or not. -/
theorem Relates.scoped_iff (hfit : ∀ i ∈ items, ItemFits IdName i) : WellScoped items' ↔ WellScoped items := by
  have hprocs : (items'.filterMap Item.procName?).Nodup ↔ (items.filterMap Item.procName?).Nodup := by
    rw [h.procs]
    refine ⟨List.Nodup.of_map _, fun hnodup => hnodup.map_on fun x hx y hy heq => ?_⟩
    exact ρ.outer_inj x y (proc_id hfit hx) (proc_id hfit hy) heq
  have hlabels : (items'.filterMap Item.labelKey?).Nodup ↔ (items.filterMap Item.labelKey?).Nodup := by
    rw [h.labels]
    refine ⟨List.Nodup.of_map _, fun hnodup => hnodup.map_on ?_⟩
    rintro ⟨scope, x⟩ hk ⟨scope', x'⟩ hk' heq
    obtain ⟨hs, hx⟩ := labelKey_id hfit hk
    obtain ⟨hs', hx'⟩ := labelKey_id hfit hk'
    obtain ⟨rfl, rfl⟩ := label_inj hs hs' hx hx' (congrArg Prod.fst heq) (congrArg Prod.snd heq)
    rfl
  constructor
  · intro hw
    refine ⟨hprocs.mp hw.procs, hlabels.mp hw.labels, fun scope o x ho hi => ?_, fun scope x hi => ?_⟩
    · have hkind := jump_kind ho
      have himage : .inst (scope.map ρ.outer) o (some (.labelCall (some (ρ.label scope x)))) ∈ items' := by
        have himage := h.image hi rfl
        simp only [item, operand, hkind, Option.map_some] at himage
        exact himage
      obtain ⟨j, hj, heq⟩ := h.preimage (hw.jumps _ o _ ho himage) rfl
      exact label_of_image hfit hi hj heq
    · have himage : .inst (scope.map ρ.outer) .call (some (.labelCall (some (ρ.outer x)))) ∈ items' := h.image hi rfl
      obtain ⟨j, hj, heq⟩ := h.preimage (hw.calls _ _ himage) rfl
      exact proc_of_image hfit hi hj heq
  · intro hw
    refine ⟨hprocs.mpr hw.procs, hlabels.mpr hw.labels, fun scope' o x' ho hi => ?_, fun scope' x' hi => ?_⟩
    · obtain ⟨i, hmem, heq⟩ := h.preimage hi rfl
      obtain ⟨scope, x, rfl, rfl, rfl⟩ := jump_of_image (jump_kind ho) heq
      exact h.image (hw.jumps scope o x ho hmem) rfl
    · obtain ⟨i, hmem, heq⟩ := h.preimage hi rfl
      obtain ⟨scope, x, rfl, rfl⟩ := call_of_image heq
      exact h.image (hw.calls scope x hmem) rfl

/-- New names and other places take the same room. -/
theorem Relates.withinTables_iff : WithinTables items' ↔ WithinTables items := by
  have hprocs : (items'.filterMap Item.procName?).length = (items.filterMap Item.procName?).length := by
    rw [h.procs, List.length_map]
  have hlabels : (items'.filterMap Item.labelName?).length = (items.filterMap Item.labelName?).length := by
    rw [labelNames_eq, labelNames_eq, h.labels, List.length_map, List.length_map, List.length_map]
  have hcalls : (items'.filterMap Item.loggedName?).length = (items.filterMap Item.loggedName?).length := by
    have hunit := h.filterMap (f := fun i => i.loggedName?.map fun _ => ()) (g := fun i => i.loggedName?.map fun _ => ())
      (fun _ => rfl) (fun _ => rfl) loggedName?_item
    rw [← List.map_filterMap, ← List.map_filterMap] at hunit
    simpa using congrArg List.length hunit
  constructor
  · intro hw
    refine ⟨?_, ?_, ?_, ?_, ?_⟩
    · exact hprocs ▸ hw.procs
    · exact hlabels ▸ hw.labels
    · exact hcalls ▸ hw.calls
    · exact h.instCount ▸ hw.insts
    · exact h.cfunsOf ▸ hw.cfuns
  · intro hw
    refine ⟨?_, ?_, ?_, ?_, ?_⟩
    · exact hprocs ▸ hw.procs
    · exact hlabels ▸ hw.labels
    · exact hcalls ▸ hw.calls
    · exact h.instCount ▸ hw.insts
    · exact h.cfunsOf ▸ hw.cfuns

end Relates

section Translated

variable {ast ast' : TasmAst} {t t' : TasmTranslator}

theorem Relates.accepted_iff (h : ρ.Relates ast.items ast'.items) (hast : Complete ast) (hnames : WellFormed IdName ast)
    (hast' : Complete ast') (hnames' : WellFormed IdName ast') :
    (∃ t', tasmTranslate ast' = .ok t' ∧ t'.symbols.err = false) ↔ ∃ t, tasmTranslate ast = .ok t ∧ t.symbols.err = false := by
  rw [translates_ok_iff hast hnames, translates_ok_iff hast' hnames', h.scoped_iff (items_fit hnames), h.withinTables_iff]

theorem Relates.tables (h : ρ.Relates ast.items ast'.items) (hfit : ∀ i ∈ ast.items, ItemFits IdName i)
    (ht : Translated ast t) (ht' : Translated ast' t') : ρ.SameTables t.symbols t'.symbols where
  procs := by
    rw [ht.procDecls, ht'.procDecls]
    exact h.declared hfit (fun _ => rfl) fun i hi => procName?_rel hi
  labels := by
    rw [ht.labelDecls, ht'.labelDecls]
    exact h.declared hfit (fun _ => rfl) fun i hi => labelName?_rel hi

/-- An instruction of the first document and the code before it have their images in the second. -/
theorem Relates.split (h : ρ.Relates items items') {pre post : List Item} (heq : items = pre ++ i :: post)
    (hi : i.isCode = true) : ∃ pre' post', items' = pre' ++ ρ.item i :: post' ∧
      pre'.filter Item.isCode = (pre.filter Item.isCode).map ρ.item := by
  have hcode := h.code
  rw [heq, List.filter_append, List.filter_cons_of_pos hi, List.map_append, List.map_cons] at hcode
  obtain ⟨pre₁, rest, rfl, hpre₁, hrest⟩ := List.filter_eq_append_iff.mp hcode
  obtain ⟨skip, post', rfl, hskip, -, -⟩ := List.filter_eq_cons_iff.mp hrest
  refine ⟨pre₁ ++ skip, post', by simp, ?_⟩
  have hnone : skip.filter Item.isCode = [] := List.filter_eq_nil_iff.mpr hskip
  rw [List.filter_append, hnone, List.append_nil, hpre₁]

/-- Every opcode is the same. -/
theorem Relates.code_eq (h : ρ.Relates ast.items ast'.items) (hfit : ∀ i ∈ ast.items, ItemFits IdName i)
    (ht : Translated ast t) (ht' : Translated ast' t') {k : Nat} (hk : k < t.program.size) :
    t'.program.code.get? k = t.program.code.get? k := by
  rw [ht.size] at hk
  obtain ⟨pre, scope, o, operand, post, heq, rfl⟩ := inst_at hk
  obtain ⟨pre', post', heq', hpre⟩ := h.split heq rfl
  have hcount : TileVm.instCount pre' = TileVm.instCount pre := by
    rw [← instCount_code, hpre, instCount_map, instCount_code]
  have htables := h.tables hfit ht ht'
  have hlog : List.Forall₂ ρ.SameSymbol (TileVm.callLog t.symbols (pre ++ [.inst scope o operand]))
      (TileVm.callLog t'.symbols (pre' ++ [ρ.item (.inst scope o operand)])) := by
    have hcode : (pre' ++ [ρ.item (.inst scope o operand)]).filter Item.isCode =
        ((pre ++ [Item.inst scope o operand]).filter Item.isCode).map ρ.item := by
      rw [List.filter_append, hpre, List.filter_append, List.map_append]
      rfl
    unfold TileVm.callLog
    rw [← filterMap_code (fun _ => rfl) (pre ++ _), ← filterMap_code (fun _ => rfl) (pre' ++ _), hcode]
    refine htables.callLog (fits_code fun i hi => hfit i ?_)
    rw [heq]
    rcases List.mem_append.mp hi with hi | hi
    · exact List.mem_append_left _ hi
    · rw [List.mem_singleton.mp hi]
      exact List.mem_append_right _ List.mem_cons_self
  have hi : ItemFits IdName (.inst scope o operand) := hfit _ (by rw [heq]; simp)
  rw [ht.code _ _ _ _ _ heq, ← hcount, ht'.code _ _ _ _ _ heq']
  exact congrArg some (htables.opcodeOf hlog hi)

end Translated

end Renaming

end TileVm
