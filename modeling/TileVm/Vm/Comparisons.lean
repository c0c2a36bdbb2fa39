/-
The comparison instructions against a linear order: what each leaves on the stack, and the laws that
tie the five together and to the conditional jumps. The integer family obeys them on all operands; in
the float family `OP_LTF` compares with `<=`, so that equal operands break them.
-/
import Mathlib.Order.Defs.LinearOrder
import TileVm.Vm.Arith

namespace TileVm

variable {W : Type} {env : Env W} {vm : Vm W}

/-! ## The two families -/

/-- The relations that are compared by. -/
inductive Comparison where
  | gt | lt | eq | ge | le
deriving DecidableEq, Repr

namespace Comparison

/-- The instruction on `int32_t`. -/
def int : Comparison → OpType
  | .gt => .gt
  | .lt => .lt
  | .eq => .eq
  | .ge => .ge
  | .le => .le

/-- The instruction on `float`. -/
def float : Comparison → OpType
  | .gt => .gtf
  | .lt => .ltf
  | .eq => .eqf
  | .ge => .gef
  | .le => .lef

/-- The relation holds between `x` and `y`. -/
def holds {α : Type} [LinearOrder α] (c : Comparison) (x y : α) : Bool :=
  match c with
  | .gt => decide (y < x)
  | .lt => decide (x < y)
  | .eq => decide (x = y)
  | .ge => decide (y ≤ x)
  | .le => decide (x ≤ y)

end Comparison

/-- A NaN of binary32. -/
def f32IsNaN (v : BitVec 32) : Bool := decide (0x7F800000 < (v &&& 0x7FFFFFFF).toNat)

/-- The hardware comparison orders the patterns that are no NaN, by the values `value`: the two zeros have the same. -/
structure FloatOrder {α : Type} [LinearOrder α] (f32 : F32Ops) (value : BitVec 32 → α) : Prop where
  lt : ∀ a b, f32IsNaN a = false → f32IsNaN b = false → f32.lt a b = decide (value a < value b)
  le : ∀ a b, f32IsNaN a = false → f32IsNaN b = false → f32.le a b = decide (value a ≤ value b)
  eq : ∀ a b, f32IsNaN a = false → f32IsNaN b = false → f32.eq a b = decide (value a = value b)

/-! ## The laws -/

/-- The word on top of the stack behind an instruction that succeeds. -/
def topAfter (env : Env W) (op : OpType) (operand : ObjectT) (vm : Vm W) : Option (BitVec 32) :=
  match tvmExecInst env ⟨op.code, operand⟩ vm with
  | .ok (.ok, vm') => some vm'.top
  | _ => none

/-- The instruction `op`, then the jump `jump` to `target`: what is returned, and the address of the next instruction. -/
def branchAfter (env : Env W) (op jump : OpType) (operand target : ObjectT) (vm : Vm W) : Except Fault (TvmException × Nat) := do
  let r ← tvmExecInst env ⟨op.code, operand⟩ vm
  (tvmExecInst env ⟨jump.code, target⟩ r.2).map fun r => (r.1, r.2.ip)

/-- The instructions `ops` compare by `holds`, and obey the laws of a linear order. -/
structure ComparesBy (env : Env W) (operand : ObjectT) (vm : Vm W) (ops : Comparison → OpType) (holds : Comparison → Bool) :
    Prop where
  leaves : ∀ c, topAfter env (ops c) operand vm = some (if holds c then 1 else 0)
  trichotomy : ∃! c, c ∈ [Comparison.lt, .eq, .gt] ∧ topAfter env (ops c) operand vm = some 1
  ge_lt : topAfter env (ops .ge) operand vm = some 1 ↔ topAfter env (ops .lt) operand vm = some 0
  le_gt : topAfter env (ops .le) operand vm = some 1 ↔ topAfter env (ops .gt) operand vm = some 0
  branch : ∀ target, branchAfter env (ops .lt) .jz operand target vm = branchAfter env (ops .ge) .jnz operand target vm

/-! ## One comparison -/

section Instructions

variable {a b : ObjectT} {operand : ObjectT} {op : OpType} {f : BitVec 32 → BitVec 32 → Bool}

/-- An instruction that compares with `f` replaces the operands by 0 or 1. -/
theorem compare_eq (h : Operands vm a b) (hroom : vm.sp < tvmStackCapacity)
    (hexec : tvmExecOp env op ⟨op.code, operand⟩ vm = arithOp (test2 f) vm) :
    tvmExecInst env ⟨op.code, operand⟩ vm = .ok (.ok, vm.afterTwo (a.setUi32 (if f vm.second vm.top then 1 else 0))) := by
  rw [tvmExecInst_code, hexec, h.arithOp_eq hroom, h.second, h.top]
  rfl

theorem topAfter_compare (h : Operands vm a b) (hroom : vm.sp < tvmStackCapacity)
    (hexec : tvmExecOp env op ⟨op.code, operand⟩ vm = arithOp (test2 f) vm) :
    topAfter env op operand vm = some (if f vm.second vm.top then 1 else 0) := by
  unfold topAfter
  rw [compare_eq h hroom hexec]
  dsimp only
  rw [h.top_afterTwo, ObjectT.ui32_setUi32]

/-- A conditional jump on the result of a comparison. -/
theorem jump_afterTwo (h : Operands vm a b) (hroom : vm.sp < tvmStackCapacity) {jump : OpType} (taken : BitVec 32 → Bool)
    {target c : ObjectT}
    (hjump : ∀ vm : Vm W, tvmExecOp env jump ⟨jump.code, target⟩ vm = condJump taken ⟨jump.code, target⟩ vm) :
    (tvmExecInst env ⟨jump.code, target⟩ (vm.afterTwo c)).map (fun r => (r.1, r.2.ip)) =
      .ok (if vm.program.size ≤ target.ui32.toNat then (.invalidInstructionAccess, wordSucc vm.ip)
        else (.ok, if taken c.ui32 then target.ui32.toNat else wordSucc (wordSucc vm.ip))) := by
  have hdepth := h.depth
  have hsp : (vm.afterTwo c).sp = vm.sp - 1 := rfl
  have hslot : (vm.afterTwo c).stack.get? (vm.sp - 1 - 1) = some c := by
    rw [Nat.sub_sub]
    exact CArray.get?_put_self _ _ (show vm.sp - 2 < _ by omega)
  rw [tvmExecInst_code, hjump, condJump, hsp, if_neg (show ¬ vm.sp - 1 < 1 by omega)]
  by_cases hsize : vm.program.size ≤ target.ui32.toNat
  · rw [if_pos (show (vm.afterTwo c).program.size ≤ (Opcode.mk jump.code target).operand.ui32.toNat from hsize), if_pos hsize]
    rfl
  · rw [if_neg (show ¬ (vm.afterTwo c).program.size ≤ (Opcode.mk jump.code target).operand.ui32.toNat from hsize), if_neg hsize]
    have hread : ((vm.afterTwo c).setSp (vm.sp - 1 - 1)).stackAt (vm.sp - 1 - 1) = .ok c := CArray.load_ok.mpr hslot
    dsimp only
    rw [show ((vm.afterTwo c).setSp (vm.sp - 1 - 1)).sp = vm.sp - 1 - 1 from rfl, Except.bind_of_ok hread]
    by_cases htaken : taken c.ui32 = true
    · rw [if_pos htaken, if_pos htaken]
      rfl
    · rw [if_neg htaken, if_neg htaken]
      rfl

end Instructions

/-! ## A family -/

section Families

variable {α : Type} [LinearOrder α] {x y : α}

/-- Of less, equal and greater exactly one holds. -/
theorem Comparison.trichotomy (x y : α) : ∃! c, c ∈ [Comparison.lt, .eq, .gt] ∧ Comparison.holds c x y = true := by
  rcases lt_trichotomy x y with h | h | h
  · refine ⟨.lt, ⟨by decide, decide_eq_true h⟩, ?_⟩
    rintro (_ | _ | _ | _ | _) ⟨hmem, hc⟩
    · exact absurd (of_decide_eq_true hc) (lt_asymm h)
    · rfl
    · exact absurd (of_decide_eq_true hc) h.ne
    · simp at hmem
    · simp at hmem
  · refine ⟨.eq, ⟨by decide, decide_eq_true h⟩, ?_⟩
    rintro (_ | _ | _ | _ | _) ⟨hmem, hc⟩
    · exact absurd (of_decide_eq_true hc) h.not_gt
    · exact absurd (of_decide_eq_true hc) h.not_lt
    · rfl
    · simp at hmem
    · simp at hmem
  · refine ⟨.gt, ⟨by decide, decide_eq_true h⟩, ?_⟩
    rintro (_ | _ | _ | _ | _) ⟨hmem, hc⟩
    · rfl
    · exact absurd (of_decide_eq_true hc) (lt_asymm h)
    · exact absurd (of_decide_eq_true hc) h.ne'
    · simp at hmem
    · simp at hmem

theorem Comparison.ge_not_lt (x y : α) : Comparison.ge.holds x y = !Comparison.lt.holds x y := by
  simp [Comparison.holds, ← not_lt]

theorem Comparison.le_not_gt (x y : α) : Comparison.le.holds x y = !Comparison.gt.holds x y := by
  simp [Comparison.holds, ← not_lt]

/-- Instructions that compare with the relations of a linear order obey its laws. -/
theorem comparesBy_of_tests {operand a b : ObjectT} {ops : Comparison → OpType} (h : Operands vm a b)
    (hroom : vm.sp < tvmStackCapacity) {tests : Comparison → BitVec 32 → BitVec 32 → Bool}
    (hexec : ∀ c, tvmExecOp env (ops c) ⟨(ops c).code, operand⟩ vm = arithOp (test2 (tests c)) vm)
    (htests : ∀ c, tests c vm.second vm.top = c.holds x y) : ComparesBy env operand vm ops (·.holds x y) := by
  have hleaves (c : Comparison) : topAfter env (ops c) operand vm = some (if c.holds x y then 1 else 0) := by
    rw [topAfter_compare h hroom (hexec c), htests]
  have hone (c : Comparison) : topAfter env (ops c) operand vm = some 1 ↔ c.holds x y = true := by
    rw [hleaves]
    cases c.holds x y <;> decide
  have hzero (c : Comparison) : topAfter env (ops c) operand vm = some 0 ↔ c.holds x y = false := by
    rw [hleaves]
    cases c.holds x y <;> decide
  constructor
  · exact hleaves
  · simp only [hone]
    exact Comparison.trichotomy x y
  · rw [hone, hzero, Comparison.ge_not_lt, Bool.not_eq_true']
  · rw [hone, hzero, Comparison.le_not_gt, Bool.not_eq_true']
  · intro target
    unfold branchAfter
    rw [compare_eq h hroom (hexec .lt), compare_eq h hroom (hexec .ge), htests, htests]
    rw [Except.bind_of_ok rfl, Except.bind_of_ok rfl]
    dsimp only
    rw [jump_afterTwo h hroom (· == 0) fun _ => rfl, jump_afterTwo h hroom (· != 0) fun _ => rfl,
      ObjectT.ui32_setUi32, ObjectT.ui32_setUi32, Comparison.ge_not_lt]
    cases Comparison.lt.holds x y <;> rfl

end Families

/-! ## The words -/

/-- The tests of the integer family, as the branches of the switch have them. -/
def intTest (c : Comparison) (a b : BitVec 32) : Bool :=
  match c with
  | .gt => b.slt a
  | .lt => a.slt b
  | .eq => a == b
  | .ge => b.sle a
  | .le => a.sle b

theorem intTest_holds (c : Comparison) (a b : BitVec 32) : intTest c a b = c.holds a.toInt b.toInt := by
  cases c with
  | gt => rfl
  | lt => rfl
  | eq =>
    show decide (a = b) = decide (a.toInt = b.toInt)
    exact decide_eq_decide.mpr BitVec.toInt_inj.symm
  | ge => rfl
  | le => rfl

/-- The tests of the float family. -/
def floatTest (f32 : F32Ops) (c : Comparison) (a b : BitVec 32) : Bool :=
  match c with
  | .gt => f32.lt b a
  | .lt => f32.le a b
  | .eq => f32.eq a b
  | .ge => f32.le b a
  | .le => f32.le a b

theorem floatTest_holds {α : Type} [LinearOrder α] {f32 : F32Ops} {value : BitVec 32 → α} (h : FloatOrder f32 value)
    {a b : BitVec 32} (ha : f32IsNaN a = false) (hb : f32IsNaN b = false) (hne : value a ≠ value b) (c : Comparison) :
    floatTest f32 c a b = c.holds (value a) (value b) := by
  cases c with
  | gt => exact h.lt b a hb ha
  | lt =>
    show f32.le a b = decide (value a < value b)
    rw [h.le a b ha hb]
    exact decide_eq_decide.mpr ⟨fun hle => lt_of_le_of_ne hle hne, le_of_lt⟩
  | eq => exact h.eq a b ha hb
  | ge => exact h.le b a hb ha
  | le => exact h.le a b ha hb

/-- The integer comparisons obey the laws of a linear order; the float comparisons do, on operands that are no NaN, exactly
where these are not equal. -/
theorem comparisons_iff {α : Type} [LinearOrder α] (env : Env W) (value : BitVec 32 → α) (hfloat : FloatOrder env.f32 value)
    (vm : Vm W) (h2 : 2 ≤ vm.sp) (hroom : vm.sp < tvmStackCapacity) (operand : ObjectT) :
    ComparesBy env operand vm Comparison.int (·.holds vm.second.toInt vm.top.toInt) ∧
      (f32IsNaN vm.second = false → f32IsNaN vm.top = false →
        (ComparesBy env operand vm Comparison.float (·.holds (value vm.second) (value vm.top)) ↔
          value vm.second ≠ value vm.top)) := by
  obtain ⟨a, b, h⟩ := Operands.exist h2 (Nat.le_of_lt hroom)
  have hint (c : Comparison) : tvmExecOp env c.int ⟨c.int.code, operand⟩ vm = arithOp (test2 (intTest c)) vm := by
    cases c <;> rfl
  have hexec (c : Comparison) :
      tvmExecOp env c.float ⟨c.float.code, operand⟩ vm = arithOp (test2 (floatTest env.f32 c)) vm := by
    cases c <;> rfl
  refine ⟨comparesBy_of_tests h hroom hint fun c => intTest_holds c _ _, fun ha hb => ⟨fun hcompares he => ?_, fun hne => ?_⟩⟩
  · -- less and less or equal are the same test
    have hlt := hcompares.leaves .lt
    rw [topAfter_compare h hroom (hexec .lt)] at hlt
    have hle : floatTest env.f32 .lt vm.second vm.top = true := (hfloat.le _ _ ha hb).trans (decide_eq_true he.le)
    have hholds : Comparison.lt.holds (value vm.second) (value vm.top) = false := decide_eq_false he.not_lt
    rw [hle, hholds] at hlt
    revert hlt
    decide
  · exact comparesBy_of_tests h hroom hexec fun c => floatTest_holds hfloat ha hb hne c

/-! ## Two states -/

/-- The order of the patterns that are no NaN: the magnitude, with the sign. -/
def f32Rank (v : BitVec 32) : Int :=
  if v.msb then -((v &&& 0x7FFFFFFF).toNat : Int) else ((v &&& 0x7FFFFFFF).toNat : Int)

/-- A host that compares floats, and has no other float unit. -/
def Env.comparing (pool : List Addr) : Env Unit :=
  { Env.bare pool with
    f32 :=
      { (Env.bare pool).f32 with
        lt a b := !f32IsNaN a && !f32IsNaN b && decide (f32Rank a < f32Rank b)
        le a b := !f32IsNaN a && !f32IsNaN b && decide (f32Rank a ≤ f32Rank b)
        eq a b := !f32IsNaN a && !f32IsNaN b && decide (f32Rank a = f32Rank b) } }

theorem comparing_order (pool : List Addr) : FloatOrder (Env.comparing pool).f32 f32Rank := by
  constructor
  all_goals
    intro a b ha hb
    simp [Env.comparing, ha, hb]

/-- `1.0f` against `-2.0f`. -/
theorem comparisons_one : ∃ vm : Vm Unit, tvmInit (.comparing [64]) .zero () = .ok vm ∧
    ComparesBy (.comparing [64]) .zero (vm.twoNumbers f32One 0xC0000000) Comparison.float
      (·.holds (f32Rank (vm.twoNumbers f32One 0xC0000000).second) (f32Rank (vm.twoNumbers f32One 0xC0000000).top)) := by
  refine ⟨_, rfl, ?_⟩
  exact ((comparisons_iff (.comparing [64]) f32Rank (comparing_order [64]) _ (by decide) (by decide) .zero).2
    (by decide) (by decide)).mpr (by decide)

/-- Of `1.0f` and `1.0f` the first is less, equal, and not greater. -/
theorem equal_floats_less : ∃ vm : Vm Unit, tvmInit (.comparing [64]) .zero () = .ok vm ∧
    FloatOrder (Env.comparing [64]).f32 f32Rank ∧
    ¬ ComparesBy (.comparing [64]) .zero (vm.twoNumbers f32One f32One) Comparison.float
      (·.holds (f32Rank (vm.twoNumbers f32One f32One).second) (f32Rank (vm.twoNumbers f32One f32One).top)) := by
  refine ⟨_, rfl, comparing_order [64], fun h => ?_⟩
  have hlt := h.leaves .lt
  revert hlt
  decide

end TileVm
