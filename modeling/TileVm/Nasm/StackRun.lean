/-
The machine on such a source: each step does to the words of its stack what the instruction does,
so the run that halts has executed all of them, in order.
-/
import TileVm.Image.ConstBounds
import TileVm.Nasm.StackProgram

namespace TileVm

variable {W : Type} {env : Env W} {vm vm' : Vm W} {c : Opcode} {words : List (BitVec 32)}

/-! ## One step -/

/-- The opcode of an instruction; a pushed word has any tag. -/
inductive StackCell : StackOp (BitVec 32) → Opcode → Prop
  | nop : StackCell .nop (.plain .nop)
  | push (type : StackObjType) (v : BitVec 32) : StackCell (.push v) (.withUi32 .push type v)
  | pop : StackCell .pop (.plain .pop)
  | add : StackCell .add (.plain .add)

/-- The slots from the bottom hold words, given the top one first. -/
def HoldsWords (stack : CArray ObjectT tvmStackCapacity) (words : List (BitVec 32)) : Prop :=
  ∀ k v, words.reverse[k]? = some v → ∃ o, stack.get? k = some o ∧ o.ui32 = v

namespace HoldsWords

variable {stack : CArray ObjectT tvmStackCapacity} {u : ObjectT} {v : BitVec 32}

theorem tail (h : HoldsWords stack (v :: words)) : HoldsWords stack words := by
  intro k w hget
  refine h k w ?_
  rw [List.reverse_cons, List.getElem?_append_left (List.getElem?_eq_some_iff.1 hget).1]
  exact hget

theorem top (h : HoldsWords stack (v :: words)) (hu : stack.get? words.length = some u) : u.ui32 = v := by
  have hget : (v :: words).reverse[words.length]? = some v := by
    rw [List.reverse_cons, List.getElem?_append_right (by simp), List.length_reverse, Nat.sub_self]
    rfl
  obtain ⟨o, ho, hv⟩ := h _ v hget
  cases hu.symm.trans ho
  exact hv

/-- A word put on top. -/
theorem put (h : HoldsWords stack words) (hroom : words.length < tvmStackCapacity) (hv : u.ui32 = v) :
    HoldsWords (stack.put words.length u) (v :: words) := by
  intro k w hget
  rw [List.reverse_cons, List.getElem?_append, List.length_reverse] at hget
  split at hget
  · obtain ⟨o, ho, hw⟩ := h k w hget
    exact ⟨o, (CArray.get?_put_of_ne _ _ (by omega)).trans ho, hw⟩
  · obtain ⟨hk, rfl⟩ := List.getElem?_eq_some_iff.1 hget
    obtain rfl : k = words.length := by
      simp at hk
      omega
    refine ⟨u, CArray.get?_put_self _ _ hroom, ?_⟩
    rw [hv]
    simp

end HoldsWords

/-- So do those of the machine, below its top. -/
structure Vm.Holds (vm : Vm W) (words : List (BitVec 32)) : Prop where
  sp : vm.sp = words.length
  words : HoldsWords vm.stack words

/-- The step goes on behind the instruction. -/
structure Falls (vm vm' : Vm W) : Prop where
  program : vm'.program = vm.program
  ip : vm'.ip = wordSucc vm.ip
  halted : vm'.halted = vm.halted

theorem nop_holds (h : vm.Holds words) (hexec : tvmExecInst env (.plain .nop) vm = .ok (.ok, vm')) :
    vm'.Holds words ∧ Falls vm vm' := by
  cases hexec
  exact ⟨⟨h.sp, h.words⟩, rfl, rfl, rfl⟩

theorem push_holds {type : StackObjType} {v : BitVec 32} (h : vm.Holds words)
    (hexec : tvmExecInst env (.withUi32 .push type v) vm = .ok (.ok, vm')) : vm'.Holds (v :: words) ∧ Falls vm vm' := by
  have hexec : (if tvmStackCapacity ≤ vm.sp then raise .stackOverflow vm
      else pushWith (fun _ => .ok ⟨type.code, v.setWidth 64⟩) vm) = .ok (.ok, vm') := hexec
  split at hexec
  · cases hexec
  · rename_i hroom
    have hsp := h.sp
    obtain ⟨old, hold⟩ : ∃ old, vm.stack.get? vm.sp = some old := ⟨_, CArray.get?_of_lt vm.stack (Nat.lt_of_not_le hroom)⟩
    rw [pushWith_ok hold] at hexec
    cases hexec
    refine ⟨⟨congrArg (· + 1) hsp, ?_⟩, rfl, rfl, rfl⟩
    rw [hsp] at hroom
    show HoldsWords (vm.stack.put vm.sp _) _
    rw [hsp]
    exact h.words.put (Nat.lt_of_not_le hroom) (by simp [ObjectT.ui32])

theorem pop_holds (h : vm.Holds words) (hexec : tvmExecInst env (.plain .pop) vm = .ok (.ok, vm')) :
    ∃ v rest, words = v :: rest ∧ vm'.Holds rest ∧ Falls vm vm' := by
  have hexec : (if vm.sp ≤ 0 then raise .stackUnderflow vm else done (vm.setSp (vm.sp - 1)).next) = .ok (.ok, vm') := hexec
  have hsp := h.sp
  split at hexec
  · cases hexec
  · rename_i hdeep
    cases hexec
    cases words with
    | nil => exact absurd (Nat.le_of_eq hsp) hdeep
    | cons v rest => exact ⟨v, rest, rfl, ⟨congrArg (· - 1) hsp, h.words.tail⟩, rfl, rfl, rfl⟩

theorem add_holds (h : vm.Holds words) (hexec : tvmExecInst env (.plain .add) vm = .ok (.ok, vm')) :
    ∃ v w rest, words = w :: v :: rest ∧ vm'.Holds ((v + w) :: rest) ∧ Falls vm vm' := by
  have hexec : arithOp (word2 (· + ·)) vm = .ok (.ok, vm') := hexec
  have hsp := h.sp
  unfold arithOp at hexec
  split at hexec
  · cases hexec
  split at hexec
  · cases hexec
  rename_i hdeep hroom
  obtain ⟨b, hb, hexec⟩ := Except.bind_ok hexec
  obtain ⟨a, ha, hexec⟩ := Except.bind_ok hexec
  obtain ⟨u, hu, hexec⟩ := Except.bind_ok hexec
  obtain ⟨vm₁, hset, hexec⟩ := Except.bind_ok hexec
  obtain ⟨stack, hstack, rfl⟩ := Except.map_eq_ok hset
  obtain ⟨-, rfl⟩ := CArray.store_ok.1 hstack
  cases hu
  cases hexec
  rcases words with _ | ⟨w, _ | ⟨v, rest⟩⟩
  · exact absurd (hsp ▸ Nat.zero_lt_two) hdeep
  · exact absurd (hsp ▸ Nat.one_lt_two) hdeep
  · have hsp₂ : vm.sp - 2 = rest.length := congrArg (· - 2) hsp
    have hsp₁ : vm.sp - 1 = (v :: rest).length := congrArg (· - 1) hsp
    rw [hsp₁] at hb
    rw [hsp₂] at ha
    have hw : b.ui32 = w := h.words.top (CArray.load_ok.1 hb)
    have hv : a.ui32 = v := h.words.tail.top (CArray.load_ok.1 ha)
    refine ⟨v, w, rest, rfl, ⟨hsp₁, ?_⟩, rfl, rfl, rfl⟩
    show HoldsWords (vm.stack.put (vm.sp - 2) _) _
    rw [hsp₂]
    refine h.words.tail.tail.put (by omega) ?_
    rw [ObjectT.ui32_setUi32, hv, hw]

/-- `hlt` leaves the words. -/
theorem halt_holds (h : vm.Holds words) (hexec : tvmExecInst env (.plain .halt) vm = .ok (.ok, vm')) :
    vm'.Holds words ∧ vm'.halted = true := by
  cases hexec
  exact ⟨⟨h.sp, h.words⟩, rfl⟩

/-- A step that raises no exception does what the instruction does to the words. -/
theorem Vm.Holds.exec {op : StackOp (BitVec 32)} (h : vm.Holds words) (hop : StackCell op c)
    (hc : vm.program.code.get? vm.ip = some c) (hstep : tvmExecOpcode env vm = .ok (.ok, vm')) :
    ∃ words', op.exec words = some words' ∧ vm'.Holds words' ∧ Falls vm vm' := by
  rw [tvmExecOpcode_eq hc] at hstep
  cases hop with
  | nop => exact ⟨words, rfl, nop_holds h hstep⟩
  | push type v => exact ⟨v :: words, rfl, push_holds h hstep⟩
  | pop =>
    obtain ⟨v, rest, rfl, hrest⟩ := pop_holds h hstep
    exact ⟨rest, rfl, hrest⟩
  | add =>
    obtain ⟨v, w, rest, rfl, hrest⟩ := add_holds h hstep
    exact ⟨(v + w) :: rest, rfl, hrest⟩

/-- On enough words, and with room for one more, the instruction raises no exception. -/
theorem Vm.Holds.runs {op : StackOp (BitVec 32)} {words' : List (BitVec 32)} (h : vm.Holds words) (hop : StackCell op c)
    (hc : vm.program.code.get? vm.ip = some c) (hexec : op.exec words = some words') (hroom : words.length < tvmStackCapacity) :
    ∃ vm', tvmExecOpcode env vm = .ok (.ok, vm') := by
  have hsp : vm.sp < tvmStackCapacity := h.sp ▸ hroom
  rw [tvmExecOpcode_eq hc]
  cases hop with
  | nop => exact ⟨_, rfl⟩
  | push type v =>
    have hrun : tvmExecInst env (.withUi32 .push type v) vm = (if tvmStackCapacity ≤ vm.sp then raise .stackOverflow vm
      else pushWith (fun _ => .ok ⟨type.code, v.setWidth 64⟩) vm) := rfl
    rw [hrun, if_neg (Nat.not_le_of_lt hsp), pushWith_ok (CArray.get?_of_lt vm.stack hsp)]
    exact ⟨_, rfl⟩
  | pop =>
    cases words with
    | nil => cases hexec
    | cons v rest =>
      have hdeep : ¬ vm.sp ≤ 0 := by
        rw [h.sp]
        exact Nat.not_succ_le_zero _
      have hrun : tvmExecInst env (.plain .pop) vm = (if vm.sp ≤ 0 then raise .stackUnderflow vm
        else done (vm.setSp (vm.sp - 1)).next) := rfl
      rw [hrun, if_neg hdeep]
      exact ⟨_, rfl⟩
  | add =>
    rcases words with _ | ⟨w, _ | ⟨v, rest⟩⟩
    · cases hexec
    · cases hexec
    · have hdeep : ¬ vm.sp < 2 := by
        rw [h.sp, List.length_cons, List.length_cons]
        omega
      have hb : vm.stackAt (vm.sp - 1) = .ok _ := CArray.load_ok.2 (CArray.get?_of_lt vm.stack (by omega))
      have ha : vm.stackAt (vm.sp - 2) = .ok _ := CArray.load_ok.2 (CArray.get?_of_lt vm.stack (by omega))
      have hrun : tvmExecInst env (.plain .add) vm = arithOp (word2 (· + ·)) vm := rfl
      rw [hrun]
      unfold arithOp applyTwo word2 Vm.stackSet CArray.store
      rw [if_neg hdeep, if_neg (Nat.not_le_of_lt hsp), Except.bind_of_ok hb, Except.bind_of_ok ha, Except.bind_of_ok rfl,
        if_pos (by omega)]
      exact ⟨_, rfl⟩

/-! ## The program -/

/-- The item of an instruction. -/
def itemOf : StackOp Literal → Item
  | .nop => .inst none .nop none
  | .push l => .inst none .push (some l.node)
  | .pop => .inst none .pop none
  | .add => .inst none .add none

theorem StackLine.items {node : TasmAst} {op : StackOp Literal} (h : StackLine node op) : fileItems node = [itemOf op] := by
  cases h <;> rfl

theorem StackProgram.items {ast : TasmAst} {ops : List (StackOp Literal)} (h : StackProgram ast ops) :
    ast.items = ops.map itemOf ++ [.inst none .halt none] := by
  obtain ⟨lines, name, rfl, hlines⟩ := h
  have hitems : lines.flatMap fileItems = ops.map itemOf := by
    induction hlines with
    | nil => rfl
    | cons hl _ ih => rw [List.flatMap_cons, hl.items, ih]; rfl
  rw [TasmAst.items, List.flatMap_append, hitems]
  rfl

theorem instCount_itemOf (ops : List (StackOp Literal)) : instCount (ops.map itemOf) = ops.length := by
  induction ops with
  | nil => rfl
  | cons op ops ih =>
    have hsize : (itemOf op).size = 1 := by cases op <;> rfl
    rw [List.map_cons, instCount_cons, hsize, ih, List.length_cons, Nat.add_comm]

/-- A program of one opcode for each instruction, and `hlt`. -/
structure CellsOf (p : TvmProgram) (ops : List (StackOp (BitVec 32))) : Prop where
  cells : ∀ i op, ops[i]? = some op → ∃ c, p.code.get? i = some c ∧ StackCell op c
  halt : p.code.get? ops.length = some (.plain .halt)
  size : p.size = ops.length + 1

section

variable {ast : TasmAst} {ops : List (StackOp Literal)} {t : TasmTranslator} {p : TvmProgram}

/-- The opcode of an instruction stands at its position. -/
theorem StackProgram.code (h : StackProgram ast ops) (ht : Translated ast t) {i : Nat} (hi : i < ops.length) {o : OpType}
    {operand : Option TasmAst} (hitem : itemOf ops[i] = .inst none o operand) :
    ∃ log, t.program.code.get? i = some (opcodeOf t.symbols log none o operand) := by
  have hlen : (ops.take i).length = i := by rw [List.length_take, Nat.min_eq_left (Nat.le_of_lt hi)]
  have hsplit : ops.map itemOf = (ops.take i).map itemOf ++ .inst none o operand :: (ops.drop (i + 1)).map itemOf := by
    rw [← hitem, ← List.map_cons, ← List.map_append, List.getElem_cons_drop, List.take_append_drop]
  have hcode := ht.code ((ops.take i).map itemOf) none o operand ((ops.drop (i + 1)).map itemOf ++ [.inst none .halt none]) (by
    rw [h.items, hsplit, List.append_assoc]
    rfl)
  rw [instCount_itemOf, hlen] at hcode
  exact ⟨_, hcode⟩

theorem StackProgram.size (h : StackProgram ast ops) (ht : Translated ast t) : t.program.size = ops.length + 1 := by
  rw [ht.size, h.items, instCount_append, instCount_itemOf]
  rfl

theorem StackProgram.cellsOf (h : StackProgram ast ops) (ht : Translated ast t) (hp : Carries p t.program) :
    CellsOf p (ops.map (StackOp.map Literal.value)) := by
  have hsize := h.size ht
  constructor
  · intro i op hop
    rw [List.getElem?_map, Option.map_eq_some_iff] at hop
    obtain ⟨op, hop, rfl⟩ := hop
    obtain ⟨hi, rfl⟩ := List.getElem?_eq_some_iff.1 hop
    rw [hp.code i (by omega)]
    cases hop : ops[i] with
    | nop =>
      obtain ⟨log, hcell⟩ := h.code ht hi (congrArg itemOf hop)
      exact ⟨_, hcell, .nop⟩
    | push l =>
      obtain ⟨log, hcell⟩ := h.code ht hi (congrArg itemOf hop)
      refine ⟨_, hcell, ?_⟩
      cases l with
      | number text v => exact .push _ v
      | char text => exact .push _ _
    | pop =>
      obtain ⟨log, hcell⟩ := h.code ht hi (congrArg itemOf hop)
      exact ⟨_, hcell, .pop⟩
    | add =>
      obtain ⟨log, hcell⟩ := h.code ht hi (congrArg itemOf hop)
      exact ⟨_, hcell, .add⟩
  · have hcode := ht.code (ops.map itemOf) none .halt none [] h.items
    rw [instCount_itemOf] at hcode
    rw [List.length_map, hp.code ops.length (by omega)]
    exact hcode
  · rw [hp.size, hsize, List.length_map]

end

/-! ## The run -/

/-- `tvm_run` takes `n` turns, none of which raises an exception, and leaves its loop. -/
structure HaltsAfter (env : Env W) (ρ : Nat → Vm W) (n : Nat) : Prop where
  turn : ∀ i < n, tvmRunCond (ρ i) = true ∧ tvmRunBody env (ρ i) = .ok (ρ (i + 1))
  stop : tvmRunCond (ρ n) = false

/-- The state behind the first `i` instructions. -/
structure Behind (p : TvmProgram) (ops : List (StackOp (BitVec 32))) (i : Nat) (vm : Vm W) : Prop where
  program : vm.program = p
  ip : vm.ip = i
  halted : vm.halted = false
  holds : ∃ words, StackOp.execAll (ops.take i) [] = some words ∧ vm.Holds words

section Run

variable {p : TvmProgram} {ops : List (StackOp (BitVec 32))} {world : W} {ρ : Nat → Vm W} {n i : Nat}

theorem behind_init (hinit : tvmInit env p world = .ok vm) : Behind p ops 0 vm := by
  obtain ⟨⟨frame, frames⟩, -, h⟩ := Except.bind_ok hinit
  cases h
  exact ⟨rfl, rfl, rfl, [], rfl, rfl, nofun⟩

theorem Behind.step (h : Behind p ops i vm) (hcode : CellsOf p ops) (hi : i < ops.length)
    (hbody : tvmRunBody env vm = .ok vm') : Behind p ops (i + 1) vm' := by
  obtain ⟨rfl, rfl, hhalted, words, hexec, hholds⟩ := h
  obtain ⟨c, hc, hop⟩ := hcode.cells _ _ (List.getElem?_eq_getElem hi)
  obtain ⟨words', hexec', hholds', hfalls⟩ := hholds.exec hop hc (tvmRunBody_ok hbody)
  refine ⟨hfalls.program, ?_, hfalls.halted.trans hhalted, words', ?_, hholds'⟩
  · rw [hfalls.ip, wordSucc_of_lt (CArray.get?_lt hc)]
  · rw [List.take_succ_eq_append_getElem hi, StackOp.execAll_snoc, hexec, Option.bind_some, hexec']

/-- The loop goes on in such a state. -/
theorem Behind.lt (h : Behind p ops i (ρ i)) (hcode : CellsOf p ops) (hrun : HaltsAfter env ρ n) (hi : i ≤ ops.length)
    (hin : i ≤ n) : i < n := by
  refine Nat.lt_of_le_of_ne hin ?_
  rintro rfl
  have hcond : tvmRunCond (ρ i) = true := by
    rw [tvmRunCond_true, h.program, h.ip, hcode.size]
    exact ⟨h.halted, by omega⟩
  rw [hrun.stop] at hcond
  cases hcond

theorem behind_run (hcode : CellsOf p ops) (hinit : tvmInit env p world = .ok (ρ 0)) (hrun : HaltsAfter env ρ n) :
    ∀ i ≤ ops.length, i < n ∧ Behind p ops i (ρ i) := by
  intro i
  induction i with
  | zero =>
    intro _
    have hstart : Behind p ops 0 (ρ 0) := behind_init hinit
    exact ⟨hstart.lt hcode hrun (Nat.zero_le _) (Nat.zero_le _), hstart⟩
  | succ i ih =>
    intro hi
    obtain ⟨hin, hbehind⟩ := ih (Nat.le_of_succ_le hi)
    have hnext := hbehind.step hcode hi (hrun.turn i hin).2
    exact ⟨hnext.lt hcode hrun hi hin, hnext⟩

/-- The run executes every instruction and `hlt`. -/
theorem halts_behind (hcode : CellsOf p ops) (hinit : tvmInit env p world = .ok (ρ 0)) (hrun : HaltsAfter env ρ n) :
    n = ops.length + 1 ∧ ∃ words, StackOp.execAll ops [] = some words ∧ (ρ n).Holds words := by
  obtain ⟨hin, rfl, hip, -, words, hexec, hholds⟩ := behind_run hcode hinit hrun ops.length (Nat.le_refl _)
  have hstep := tvmRunBody_ok (hrun.turn _ hin).2
  have hc : (ρ ops.length).program.code.get? (ρ ops.length).ip = some (.plain .halt) := by
    rw [hip]
    exact hcode.halt
  rw [tvmExecOpcode_eq hc] at hstep
  obtain ⟨hholds, hhalted⟩ := halt_holds hholds hstep
  have hn : n = ops.length + 1 := by
    refine Nat.le_antisymm (Nat.le_of_not_lt fun hlt => ?_) hin
    have hcond := (hrun.turn _ hlt).1
    rw [tvmRunCond_true, hhalted] at hcond
    cases hcond.1
  subst hn
  rw [List.take_length] at hexec
  exact ⟨rfl, words, hexec, hholds⟩

/-- The state behind one turn, where there is one. -/
def Vm.turn (env : Env W) (vm : Vm W) : Vm W :=
  match tvmRunBody env vm with
  | .ok vm' => vm'
  | .error _ => vm

theorem Vm.turn_of_exec (h : tvmExecOpcode env vm = .ok (.ok, vm')) : tvmRunBody env vm = .ok (vm.turn env) := by
  have hbody := tvmRunBody_of_exec h
  unfold Vm.turn
  rw [hbody]

/-- The words that the next instruction finds are enough for it, and leave room: it makes its turn. -/
theorem Behind.turn (h : Behind p ops i vm) (hcode : CellsOf p ops) (hi : i < ops.length)
    (hexec : ∀ j ≤ ops.length, ∃ words, StackOp.execAll (ops.take j) [] = some words ∧ words.length ≤ 254) :
    tvmRunBody env vm = .ok (vm.turn env) := by
  obtain ⟨hprogram, hip, -, words, hwords, hholds⟩ := h
  obtain ⟨c, hc, hop⟩ := hcode.cells i _ (List.getElem?_eq_getElem hi)
  obtain ⟨words₁, hwords₁, hle⟩ := hexec i (Nat.le_of_lt hi)
  cases hwords₁.symm.trans hwords
  obtain ⟨words', hwords', -⟩ := hexec (i + 1) hi
  rw [List.take_succ_eq_append_getElem hi, StackOp.execAll_snoc, hwords, Option.bind_some] at hwords'
  have hroom : words.length < tvmStackCapacity := Nat.lt_of_le_of_lt hle (by decide)
  obtain ⟨vm', hstep⟩ := hholds.runs hop (by rw [hprogram, hip]; exact hc) hwords' hroom
  exact Vm.turn_of_exec hstep

/-- Behind the code stands `hlt`. -/
theorem Behind.turn_halt (h : Behind p ops ops.length vm) (hcode : CellsOf p ops) :
    tvmRunBody env vm = .ok { vm with halted := true }.next := by
  apply tvmRunBody_of_exec
  rw [tvmExecOpcode_eq (by rw [h.program, h.ip]; exact hcode.halt)]
  rfl

/-- A code that executes on words, at most 254 at a time, has a run to its end. -/
theorem CellsOf.halts (hcode : CellsOf p ops) (hinit : tvmInit env p world = .ok vm)
    (hexec : ∀ i ≤ ops.length, ∃ words, StackOp.execAll (ops.take i) [] = some words ∧ words.length ≤ 254) :
    ∃ ρ : Nat → Vm W, ρ 0 = vm ∧ HaltsAfter env ρ (ops.length + 1) ∧ ∀ i ≤ ops.length + 1, (ρ i).sp ≤ 254 := by
  let ρ : Nat → Vm W := fun i => (Vm.turn env)^[i] vm
  have hnext (i : Nat) : ρ (i + 1) = (ρ i).turn env := Function.iterate_succ_apply' ..
  have hbehind (i : Nat) (hi : i ≤ ops.length) : Behind p ops i (ρ i) := by
    induction i with
    | zero => exact behind_init hinit
    | succ i ih =>
      have hprev := ih (Nat.le_of_succ_le hi)
      rw [hnext]
      exact hprev.step hcode hi (hprev.turn hcode hi hexec)
  have hhalt : tvmRunBody env (ρ ops.length) = .ok { ρ ops.length with halted := true }.next :=
    (hbehind _ (Nat.le_refl _)).turn_halt hcode
  have hend : ρ (ops.length + 1) = { ρ ops.length with halted := true }.next := by
    rw [hnext]
    unfold Vm.turn
    rw [hhalt]
  have hdepth (i : Nat) (hi : i ≤ ops.length) : (ρ i).sp ≤ 254 := by
    obtain ⟨-, -, -, words, hwords, hholds⟩ := hbehind i hi
    obtain ⟨words', hwords', hle⟩ := hexec i hi
    cases hwords.symm.trans hwords'
    exact hholds.sp.trans_le hle
  refine ⟨ρ, rfl, ⟨fun i hi => ?_, ?_⟩, fun i hi => ?_⟩
  · have hcur := hbehind i (Nat.le_of_lt_succ hi)
    refine ⟨?_, ?_⟩
    · rw [tvmRunCond_true, hcur.program, hcur.ip, hcode.size]
      exact ⟨hcur.halted, by omega⟩
    · rcases Nat.lt_or_eq_of_le (Nat.le_of_lt_succ hi) with hlt | rfl
      · rw [hnext]
        exact hcur.turn hcode hlt hexec
      · rw [hend]
        exact hhalt
  · refine Bool.eq_false_iff.2 fun htrue => ?_
    have hgo := (tvmRunCond_true.1 htrue).1
    rw [hend] at hgo
    cases hgo
  · rcases Nat.lt_or_eq_of_le hi with hlt | rfl
    · exact hdepth i (Nat.le_of_lt_succ hlt)
    · rw [hend]
      exact hdepth ops.length (Nat.le_refl _)

end Run

end TileVm
