/-
What an assembly source means, without addresses. A point of the source is what is left of the
document; a jump goes on behind the label of its scope, a call behind the proc, and a number counts
instructions. What the other instructions do is the meaning of the machine's.
-/
import TileVm.Tasm.TranslatorSpec
import TileVm.Vm.Activations

namespace TileVm

/-! ## Points -/

/-- An instruction of the document. -/
structure SourceInst where
  scope : Option CStr
  op : OpType
  operand : Option TasmAst

/-- The first instruction, and what stands behind it. -/
def nextInst : List Item → Option (SourceInst × List Item)
  | [] => none
  | .inst scope o operand :: rest => some (⟨scope, o, operand⟩, rest)
  | _ :: rest => nextInst rest

/-- What stands behind the first declaration that is `d`. -/
def behind (d : Item → Bool) : List Item → Option (List Item)
  | [] => none
  | i :: rest => if d i then some rest else behind d rest

/-- The declaration of a label. -/
def isLabel (scope : Option CStr) (x : CStr) : Item → Bool
  | .label scope' (some x') => scope' == scope && x' == x
  | _ => false

/-- The declaration of a proc. -/
def isProc (x : CStr) : Item → Bool
  | .proc (some x') => x' == x
  | _ => false

/-- From the instruction number `n` on. -/
def fromInst : Nat → List Item → List Item
  | _, [] => []
  | n, i :: rest =>
    match i, n with
    | .inst _ _ _, 0 => i :: rest
    | .inst _ _ _, n + 1 => fromInst n rest
    | _, n => fromInst n rest

section Points

variable {items rest before after : List Item} {d : Item → Bool} {i : Item} {n : Nat}

/-- The first instruction splits the rest of a document that has one. -/
theorem nextInst_split (h : 0 < instCount rest) : ∃ skip i after, nextInst rest = some (i, after) ∧
    rest = skip ++ .inst i.scope i.op i.operand :: after ∧ instCount skip = 0 := by
  induction rest with
  | nil => exact absurd h (Nat.lt_irrefl 0)
  | cons j rest ih =>
    cases j with
    | inst scope o operand => exact ⟨[], ⟨scope, o, operand⟩, rest, rfl, rfl, rfl⟩
    | label | proc | metadata =>
      obtain ⟨skip, i, after, hnext, rfl, hskip⟩ := ih (by simpa [Item.size] using h)
      exact ⟨_ :: skip, i, after, hnext, rfl, by simpa [Item.size] using hskip⟩

theorem behind_split (hi : d i = true) (hbefore : ∀ j ∈ before, d j = false) :
    behind d (before ++ i :: after) = some after := by
  induction before with
  | nil => simp [behind, hi]
  | cons j before ih =>
    rw [List.cons_append, behind, hbefore j List.mem_cons_self]
    exact ih fun j hj => hbefore j (List.mem_cons_of_mem _ hj)

/-- There are `n` instructions before instruction number `n`. -/
theorem fromInst_split (h : n < instCount items) : ∃ before, items = before ++ fromInst n items ∧ instCount before = n := by
  induction items generalizing n with
  | nil => exact absurd h (Nat.not_lt_zero n)
  | cons i rest ih =>
    cases i with
    | inst scope o operand =>
      cases n with
      | zero => exact ⟨[], rfl, rfl⟩
      | succ n =>
        obtain ⟨before, heq, hcount⟩ := ih (n := n) (by simp [Item.size] at h; omega)
        exact ⟨.inst scope o operand :: before, congrArg _ heq, by simp [Item.size, hcount, Nat.add_comm]⟩
    | label | proc | metadata =>
      obtain ⟨before, heq, hcount⟩ := ih (n := n) (by simpa [Item.size] using h)
      exact ⟨_ :: before, congrArg _ heq, by simpa [Item.size] using hcount⟩

/-- Behind the last instruction there is none. -/
theorem fromInst_end (h : instCount items ≤ n) : instCount (fromInst n items) = 0 := by
  induction items generalizing n with
  | nil => rfl
  | cons i rest ih =>
    cases i with
    | inst scope o operand =>
      cases n with
      | zero => simp [Item.size] at h
      | succ n => exact ih (by simp [Item.size] at h; omega)
    | label | proc | metadata => exact ih (by simpa [Item.size] using h)

end Points

/-- Where an instruction points: there has to be an instruction. -/
def SourceInst.target (items : List Item) (i : SourceInst) : Option (List Item) :=
  let point := match i.operand with
    | some (.labelCall (some x)) =>
      if i.op = OpType.call then behind (isProc x) items else behind (isLabel i.scope x) items
    | some (.number _ v) => some (fromInst v.toNat items)
    | _ => none
  if i.op.takesTarget then point.filter fun rest => decide (0 < instCount rest) else none

/-- The instruction for the machine, without a target. -/
def SourceInst.opcode (i : SourceInst) : Opcode :=
  if i.op.takesTarget then .plain i.op
  else
    match i.operand with
    | some (.number _ v) => .withUi32 i.op i.op.numberType v
    | some (.char (some c)) => .withUi32 i.op .character ((c.getD 0 0).signExtend 32)
    | _ => .plain i.op

/-! ## Runs -/

/-- The document as a code. A run that comes to its end has ended. -/
def sourceCode (items : List Item) : Activation.Code Opcode (List Item) RunStop where
  start := items
  inside rest := decide (0 < instCount rest)
  fetch rest :=
    match nextInst rest with
    | some (i, _) => .ok i.opcode
    | none => .error (.fault (.outOfBounds .code))
  target rest := (nextInst rest).bind fun r => r.1.target items
  next rest :=
    match nextInst rest with
    | some (_, rest) => rest
    | none => []

/-- What `fuel` instructions of the document make of the data of `tvm_init`. -/
def sourceRun {W : Type} (env : Env W) (tables : ProgramTables) (items : List Item) (world : W) (fuel : Nat) :
    Except (Stop RunStop) (Data W) :=
  (Activation.run (tvmMeaning env tables) (sourceCode items) fuel
    (Activation.init (tvmMeaning env tables) (sourceCode items) (.initial world))).map (·.data)

end TileVm
