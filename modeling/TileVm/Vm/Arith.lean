/-
The binary integer instructions whose machine operation is partial. `OP_DIV` and `OP_MOD` check the
divisor for zero, not for the quotient that does not fit; `OP_LSHFT` and `OP_RSHFT` check no count.
-/
import TileVm.Vm.Step

namespace TileVm

variable {W : Type} {env : Env W} {vm : Vm W}

/-! ## Two operands -/

/-- The word below the top of the stack. -/
def Vm.second (vm : Vm W) : BitVec 32 := ((vm.stack.get? (vm.sp - 2)).getD ObjectT.zero).ui32

/-- The two topmost objects replaced by `c`, at the next instruction. -/
def Vm.afterTwo (vm : Vm W) (c : ObjectT) : Vm W :=
  ({ vm with stack := vm.stack.put (vm.sp - 2) c }.setSp (vm.sp - 1)).next

/-- The two topmost objects of the stack. -/
structure Operands (vm : Vm W) (a b : ObjectT) : Prop where
  depth : 2 ≤ vm.sp
  room : vm.sp ≤ tvmStackCapacity
  left : vm.stack.get? (vm.sp - 2) = some a
  right : vm.stack.get? (vm.sp - 1) = some b

namespace Operands

variable {a b : ObjectT}

theorem exist (h2 : 2 ≤ vm.sp) (hsp : vm.sp ≤ tvmStackCapacity) : ∃ a b, Operands vm a b :=
  ⟨_, _, h2, hsp, CArray.get?_of_lt _ (show vm.sp - 2 < _ by omega), CArray.get?_of_lt _ (show vm.sp - 1 < _ by omega)⟩

theorem second (h : Operands vm a b) : vm.second = a.ui32 := by
  unfold Vm.second
  rw [h.left]
  rfl

theorem top (h : Operands vm a b) : vm.top = b.ui32 := by
  unfold Vm.top
  rw [h.right]
  rfl

theorem top_afterTwo (h : Operands vm a b) (c : ObjectT) : (vm.afterTwo c).top = c.ui32 := by
  have hlt : vm.sp - 2 < tvmStackCapacity := by
    have := h.depth
    have := h.room
    omega
  show (((vm.stack.put (vm.sp - 2) c).get? (vm.sp - 1 - 1)).getD ObjectT.zero).ui32 = c.ui32
  rw [Nat.sub_sub, CArray.get?_put_self _ _ hlt]
  rfl

theorem applyTwo_eq (h : Operands vm a b) (f : ObjectT → ObjectT → Except Fault ObjectT) :
    applyTwo f vm = f a b >>= fun c => done (vm.afterTwo c) := by
  have hlt : vm.sp - 2 < tvmStackCapacity := by
    have := h.depth
    have := h.room
    omega
  have hb : vm.stackAt (vm.sp - 1) = .ok b := CArray.load_ok.mpr h.right
  have ha : vm.stackAt (vm.sp - 2) = .ok a := CArray.load_ok.mpr h.left
  unfold applyTwo
  rw [Except.bind_of_ok hb, Except.bind_of_ok ha]
  congr 1
  funext c
  unfold Vm.stackSet CArray.store
  rw [if_pos hlt]
  rfl

theorem binaryOp_eq (h : Operands vm a b) (f : ObjectT → ObjectT → Except Fault ObjectT) :
    binaryOp f vm = f a b >>= fun c => done (vm.afterTwo c) := by
  unfold binaryOp
  rw [if_neg (Nat.not_lt_of_le h.depth)]
  exact h.applyTwo_eq f

theorem arithOp_eq (h : Operands vm a b) (hroom : vm.sp < tvmStackCapacity) (f : ObjectT → ObjectT → Except Fault ObjectT) :
    arithOp f vm = f a b >>= fun c => done (vm.afterTwo c) := by
  unfold arithOp
  rw [if_neg (Nat.not_lt_of_le h.depth), if_neg (Nat.not_le_of_lt hroom)]
  exact h.applyTwo_eq f

theorem divOp_eq (h : Operands vm a b) (hroom : vm.sp < tvmStackCapacity) (f : ObjectT → ObjectT → Except Fault ObjectT) :
    divOp f vm = if b.ui32 = 0 then raise .divisionByZero vm else f a b >>= fun c => done (vm.afterTwo c) := by
  have hb : vm.stackAt (vm.sp - 1) = .ok b := CArray.load_ok.mpr h.right
  unfold divOp
  rw [if_neg (Nat.not_lt_of_le h.depth), if_neg (Nat.not_le_of_lt hroom), Except.bind_of_ok hb, h.applyTwo_eq f]

end Operands

/-! ## Partial operations -/

/-- The instructions with a partial machine operation. -/
def partialOps : List OpType := [.div, .mod, .lshft, .rshft]

/-- The machine operation is defined on the operands: the divisor is not zero and the exact quotient is an `int32_t`, or
the count is that of a bit. -/
def DefinedOn (op : OpType) (a b : BitVec 32) : Prop :=
  match op with
  | .div | .mod => b.toInt ≠ 0 ∧ -2 ^ 31 ≤ a.toInt.tdiv b.toInt ∧ a.toInt.tdiv b.toInt < 2 ^ 31
  | .lshft | .rshft => 0 ≤ b.toInt ∧ b.toInt ≤ 31
  | _ => True

/-- The instruction raises an exception and leaves the state alone, or it succeeds on operands on which its operation is
defined. -/
def RunsDefined (env : Env W) (op : OpType) (operand : ObjectT) (vm : Vm W) : Prop :=
  (∃ e, e ≠ .ok ∧ tvmExecInst env ⟨op.code, operand⟩ vm = .ok (e, vm)) ∨
    ∃ vm', tvmExecInst env ⟨op.code, operand⟩ vm = .ok (.ok, vm') ∧ DefinedOn op vm.second vm.top

/-- What the guards let through: the most negative value divided by -1, and a count outside `[0, 31]`. -/
def Unguarded (op : OpType) (vm : Vm W) : Prop :=
  match op with
  | .div | .mod => 2 ≤ vm.sp ∧ vm.sp < tvmStackCapacity ∧ vm.second = BitVec.intMin 32 ∧ vm.top = -1
  | .lshft | .rshft => 2 ≤ vm.sp ∧ (vm.top.toInt < 0 ∨ 31 < vm.top.toInt)
  | _ => False

/-- When both succeed on the same operands, quotient times divisor plus remainder is the dividend. -/
def DivisionLaw (env : Env W) (vm : Vm W) : Prop :=
  ∀ operand operand' q r, tvmExecInst env ⟨OpType.div.code, operand⟩ vm = .ok (.ok, q) →
    tvmExecInst env ⟨OpType.mod.code, operand'⟩ vm = .ok (.ok, r) →
    q.top.toInt * vm.top.toInt + r.top.toInt = vm.second.toInt

section Words

variable {a b : BitVec 32}

theorem quotient_fits_iff (hb : b ≠ 0) :
    (-2 ^ 31 ≤ a.toInt.tdiv b.toInt ∧ a.toInt.tdiv b.toInt < 2 ^ 31) ↔ ¬ (a = BitVec.intMin 32 ∧ b = -1) := by
  constructor
  · rintro ⟨-, hlt⟩ ⟨rfl, rfl⟩
    revert hlt
    decide
  · intro h
    rw [← BitVec.toInt_sdiv_of_ne_or_ne a b (not_and_or.mp h)]
    have hlo := BitVec.le_toInt (a.sdiv b)
    have hhi := BitVec.toInt_lt (x := a.sdiv b)
    exact ⟨hlo, hhi⟩

theorem toInt_ne_zero : b.toInt ≠ 0 ↔ b ≠ 0 := not_congr (BitVec.toInt_inj (y := 0))

/-- The count as `shiftWord` checks it. -/
theorem count_lt_iff : b.toNat < 32 ↔ 0 ≤ b.toInt ∧ b.toInt ≤ 31 := by
  have := b.isLt
  rw [BitVec.toInt_eq_toNat_cond]
  split <;> omega

theorem sdiv_srem (h : ¬ (a = BitVec.intMin 32 ∧ b = -1)) : (a.sdiv b).toInt * b.toInt + (a.srem b).toInt = a.toInt := by
  rw [BitVec.toInt_sdiv_of_ne_or_ne a b (not_and_or.mp h), BitVec.toInt_srem, Int.mul_comm]
  exact Int.mul_tdiv_add_tmod a.toInt b.toInt

end Words

section Guards

variable {op : OpType} {operand : ObjectT} {f : ObjectT → ObjectT → Except Fault ObjectT}

theorem runsDefined_of_raise {e : TvmException} (he : e ≠ .ok)
    (h : tvmExecOp env op ⟨op.code, operand⟩ vm = .ok (e, vm)) : RunsDefined env op operand vm :=
  .inl ⟨e, he, (tvmExecInst_code env op operand vm).trans h⟩

theorem div_defined_iff {g : BitVec 32 → BitVec 32 → BitVec 32} (hop : op = .div ∨ op = .mod)
    (hexec : tvmExecOp env op ⟨op.code, operand⟩ vm = divOp (divWord g) vm) :
    RunsDefined env op operand vm ↔ ¬ Unguarded op vm := by
  have hdefined (a b : BitVec 32) : DefinedOn op a b ↔
      b.toInt ≠ 0 ∧ -2 ^ 31 ≤ a.toInt.tdiv b.toInt ∧ a.toInt.tdiv b.toInt < 2 ^ 31 := by
    rcases hop with rfl | rfl <;> rfl
  have hunguarded : Unguarded op vm ↔
      2 ≤ vm.sp ∧ vm.sp < tvmStackCapacity ∧ vm.second = BitVec.intMin 32 ∧ vm.top = -1 := by
    rcases hop with rfl | rfl <;> rfl
  rw [hunguarded]
  -- the guards, and then the operands
  by_cases h2 : vm.sp < 2
  · refine iff_of_true (runsDefined_of_raise (e := .stackUnderflow) (by decide) ?_) (by omega)
    rw [hexec, divOp, if_pos h2]
    rfl
  by_cases hfull : tvmStackCapacity ≤ vm.sp
  · refine iff_of_true (runsDefined_of_raise (e := .stackOverflow) (by decide) ?_) (by omega)
    rw [hexec, divOp, if_neg h2, if_pos hfull]
    rfl
  obtain ⟨a, b, h⟩ := Operands.exist (Nat.not_lt.mp h2) (Nat.le_of_not_le hfull)
  rw [h.divOp_eq (Nat.not_le.mp hfull)] at hexec
  by_cases hzero : b.ui32 = 0
  · rw [if_pos hzero] at hexec
    refine iff_of_true (runsDefined_of_raise (e := .divisionByZero) (by decide) hexec) ?_
    rintro ⟨-, -, -, htop⟩
    rw [h.top, hzero] at htop
    revert htop
    decide
  rw [if_neg hzero] at hexec
  by_cases hbad : a.ui32 = BitVec.intMin 32 ∧ b.ui32 = -1
  · -- the operation itself is undefined
    rw [divWord, if_pos hbad] at hexec
    refine iff_of_false ?_ (not_not.mpr ⟨h.depth, Nat.not_le.mp hfull, h.second.trans hbad.1, h.top.trans hbad.2⟩)
    rintro (⟨e, -, he⟩ | ⟨vm', hvm', -⟩)
    · rw [tvmExecInst_code, hexec] at he
      cases he
    · rw [tvmExecInst_code, hexec] at hvm'
      cases hvm'
  · rw [divWord, if_neg hbad] at hexec
    refine iff_of_true (.inr ⟨_, (tvmExecInst_code env op operand vm).trans hexec, ?_⟩) ?_
    · rw [hdefined, h.second, h.top]
      exact ⟨toInt_ne_zero.mpr hzero, (quotient_fits_iff hzero).mpr hbad⟩
    · rintro ⟨-, -, hsecond, htop⟩
      exact hbad ⟨h.second.symm.trans hsecond, h.top.symm.trans htop⟩

theorem shift_defined_iff {g : BitVec 32 → Nat → BitVec 32} (hop : op = .lshft ∨ op = .rshft)
    (hexec : tvmExecOp env op ⟨op.code, operand⟩ vm = binaryOp (shiftWord g) vm) (hsp : vm.sp ≤ tvmStackCapacity) :
    RunsDefined env op operand vm ↔ ¬ Unguarded op vm := by
  have hdefined (a b : BitVec 32) : DefinedOn op a b ↔ 0 ≤ b.toInt ∧ b.toInt ≤ 31 := by
    rcases hop with rfl | rfl <;> rfl
  have hunguarded : Unguarded op vm ↔ 2 ≤ vm.sp ∧ (vm.top.toInt < 0 ∨ 31 < vm.top.toInt) := by
    rcases hop with rfl | rfl <;> rfl
  rw [hunguarded]
  by_cases h2 : vm.sp < 2
  · refine iff_of_true (runsDefined_of_raise (e := .stackUnderflow) (by decide) ?_) (by omega)
    rw [hexec, binaryOp, if_pos h2]
    rfl
  obtain ⟨a, b, h⟩ := Operands.exist (Nat.not_lt.mp h2) hsp
  rw [h.binaryOp_eq] at hexec
  -- as an unsigned number a negative count is too large as well
  have hcount := count_lt_iff (b := b.ui32)
  by_cases hlt : b.ui32.toNat < 32
  · rw [shiftWord, if_neg (Nat.not_le_of_lt hlt)] at hexec
    refine iff_of_true (.inr ⟨_, (tvmExecInst_code env op operand vm).trans hexec, ?_⟩) ?_
    · rw [hdefined, h.top]
      exact hcount.mp hlt
    · rw [h.top]
      have := hcount.mp hlt
      omega
  · rw [shiftWord, if_pos (Nat.le_of_not_lt hlt)] at hexec
    refine iff_of_false ?_ ?_
    · rintro (⟨e, -, he⟩ | ⟨vm', hvm', -⟩)
      · rw [tvmExecInst_code, hexec] at he
        cases he
      · rw [tvmExecInst_code, hexec] at hvm'
        cases hvm'
    · rw [h.top, not_not]
      exact ⟨h.depth, by omega⟩

/-- A successful `OP_DIV` or `OP_MOD` leaves the word of its operation. -/
theorem div_result {g : BitVec 32 → BitVec 32 → BitVec 32} {vm' : Vm W} (h : divOp (divWord g) vm = .ok (.ok, vm')) :
    vm'.top = g vm.second vm.top ∧ ¬ (vm.second = BitVec.intMin 32 ∧ vm.top = -1) := by
  have h2 : 2 ≤ vm.sp := by
    by_contra hlt
    rw [divOp, if_pos (Nat.not_le.mp hlt)] at h
    cases h
  have hroom : vm.sp < tvmStackCapacity := by
    by_contra hfull
    rw [divOp, if_neg (Nat.not_lt.mpr h2), if_pos (Nat.not_lt.mp hfull)] at h
    cases h
  obtain ⟨a, b, hab⟩ := Operands.exist h2 (Nat.le_of_lt hroom)
  rw [hab.divOp_eq hroom] at h
  rw [hab.second, hab.top]
  split at h
  · cases h
  · unfold divWord at h
    split at h
    · cases h
    · rename_i hbad
      cases h
      rw [hab.top_afterTwo, ObjectT.ui32_setUi32]
      exact ⟨rfl, hbad⟩

end Guards

/-- The partial instructions run into no undefined operation exactly where their guards, or the operands, keep them from
one; and the two results of a division fit together. -/
theorem partial_defined_iff (env : Env W) (vm : Vm W) (hsp : vm.sp ≤ tvmStackCapacity) :
    (∀ op ∈ partialOps, ∀ operand, RunsDefined env op operand vm ↔ ¬ Unguarded op vm) ∧ DivisionLaw env vm := by
  constructor
  · intro op hop operand
    simp only [partialOps, List.mem_cons, List.not_mem_nil, or_false] at hop
    rcases hop with rfl | rfl | rfl | rfl
    · exact div_defined_iff (.inl rfl) rfl
    · exact div_defined_iff (.inr rfl) rfl
    · exact shift_defined_iff (.inl rfl) rfl hsp
    · exact shift_defined_iff (.inr rfl) rfl hsp
  · intro operand operand' q r hq hr
    rw [tvmExecInst_code] at hq hr
    obtain ⟨hquotient, hfits⟩ := div_result (g := BitVec.sdiv) hq
    obtain ⟨hremainder, -⟩ := div_result (g := BitVec.srem) hr
    rw [hquotient, hremainder]
    exact sdiv_srem hfits

/-! ## Two states -/

/-- Two numbers on the stack. -/
def Vm.twoNumbers (vm : Vm W) (a b : BitVec 32) : Vm W :=
  { vm with
    stack := (vm.stack.put 0 ⟨StackObjType.number.code, a.setWidth 64⟩).put 1 ⟨StackObjType.number.code, b.setWidth 64⟩
    sp := 2 }

/-- `7 / 2`. -/
theorem partial_defined_seven : ∃ vm : Vm Unit, tvmInit (.bare [64]) .zero () = .ok vm ∧
    RunsDefined (.bare [64]) .div .zero (vm.twoNumbers 7 2) := by
  refine ⟨_, rfl, ?_⟩
  refine ((partial_defined_iff (.bare [64]) _ (by decide)).1 .div (by decide) .zero).mpr ?_
  rintro ⟨-, -, -, htop⟩
  revert htop
  decide

/-- The most negative value divided by -1, and a shift by 32. -/
theorem division_overflows : ∃ vm : Vm Unit, tvmInit (.bare [64]) .zero () = .ok vm ∧
    ¬ RunsDefined (.bare [64]) .div .zero (vm.twoNumbers (BitVec.intMin 32) (-1)) ∧
    ¬ RunsDefined (.bare [64]) .lshft .zero (vm.twoNumbers 1 32) := by
  refine ⟨_, rfl, ?_, ?_⟩
  · rintro (⟨e, -, he⟩ | ⟨vm', hvm', -⟩)
    · cases he
    · cases hvm'
  · rintro (⟨e, -, he⟩ | ⟨vm', hvm', -⟩)
    · cases he
    · cases hvm'

end TileVm
