/-
Popped stack slots. Four instructions push into a popped slot and write one member of the object
only, so what the slot held before shows in the result; the others do not depend on it. Two states
that differ in popped slots behave alike exactly as long as these instructions find the same in the
part that they keep.
-/
import TileVm.Vm.Shift

namespace TileVm

open Except (Follows)

variable {W : Type} {env : Env W} {inst : Opcode} {vm vm' : Vm W}

/-! ## Equal states up to popped slots -/

/-- `vm'` is `vm` but for the contents of the slots from `sp` on. -/
structure SameLive (vm vm' : Vm W) : Prop where
  rest : vm' = { vm with stack := vm'.stack }
  slots : ∀ i < vm.sp, vm'.stack.get? i = vm.stack.get? i

/-- The same exception, in states that differ in popped slots only, or the same fault. -/
def SameStep : Except Fault (Ret W) → Except Fault (Ret W) → Prop
  | .ok r, .ok r' => r'.1 = r.1 ∧ SameLive r.2 r'.2
  | .error f, .error f' => f' = f
  | _, _ => False

/-- The popped slots at `sp` agree in what the instruction keeps of them. -/
def SameKept (env : Env W) (inst : Opcode) (vm vm' : Vm W) : Prop :=
  ∀ m, keeps env inst vm = some m → ∀ old old', vm.stack.get? vm.sp = some old →
    vm'.stack.get? vm.sp = some old' → m.rest old' = m.rest old

theorem over_zero (vm : Vm W) (stack' : CArray ObjectT tvmStackCapacity) :
    vm.over 0 stack' = { vm with stack := stack' } := by
  unfold Vm.over
  rw [Nat.zero_add]

theorem alike_nil_iff : Alike [] false vm vm' ↔ SameLive vm vm' := by
  constructor
  · rintro ⟨stack', rfl, h⟩
    constructor
    · exact over_zero vm stack'
    · intro i hi
      by_cases hlt : i < tvmStackCapacity
      · have := h.slots i (.inr hi) (by simpa using hlt)
        rwa [List.length_nil, Nat.zero_add] at this
      · rw [CArray.get?_of_le _ (by omega), CArray.get?_of_le _ (by omega)]
  · rintro ⟨hrest, hslots⟩
    refine ⟨vm'.stack, hrest.trans (over_zero vm _).symm, ?_, ?_⟩
    · rintro i ⟨⟩
    · rintro i (⟨⟨⟩⟩ | hi) -
      simpa using hslots i hi

/-- When nothing is inserted a matched step is the same step. -/
theorem sameStep_of_matches {x y : Except Fault (Ret W)} (h : Matches [] false x y) : SameStep x y := by
  cases x with
  | error f => rw [h.fault rfl f rfl]; exact rfl
  | ok r =>
    obtain ⟨r', rfl, he, hw⟩ := h.result r rfl (.inl rfl)
    exact ⟨he, alike_nil_iff.1 hw⟩

theorem tvmExecInst_sameStep (h : SameLive vm vm') (hkept : SameKept env inst vm vm') :
    SameStep (tvmExecInst env inst vm) (tvmExecInst env inst vm') := by
  obtain ⟨stack', rfl, hshift⟩ := alike_nil_iff.2 h
  refine sameStep_of_matches (tvmExecInst_matches hshift (.inl rfl) ?_)
  intro m hm old old' hold hold'
  rw [List.length_nil, Nat.zero_add] at hold'
  exact hkept m hm old old' hold hold'

/-! ## The kept part shows -/

/-- A call without arguments of a function that returns. -/
theorem tciNativeCall_of_returns {lib : NativeLib W} {id : Nat} {f : TvmProgramCfun} {ret : BitVec 64}
    (hf : vm.program.cfun id = .ok f) (h : nativeReturns lib id f = true) :
    ∃ r, tciNativeCall lib vm id (some ret) [] = .ok r := by
  unfold nativeReturns at h
  unfold tciNativeCall
  rw [Except.bind_of_ok hf]
  cases hname : f.symbolName with
  | none => rw [hname] at h; cases h
  | some name =>
    rw [hname] at h
    rw [Except.bind_of_ok (show named (some name) = .ok name from rfl)]
    cases hok : lib.isOk id with
    | none => rw [hok] at h; cases h
    | some ok =>
      cases ok with
      | false => exact ⟨_, rfl⟩
      | true =>
        rw [hok] at h
        obtain ⟨hsym, htype⟩ := Bool.and_eq_true_iff.1 h
        obtain ⟨fn, hfn⟩ := Option.isSome_iff_exists.1 hsym
        obtain ⟨ct, hct⟩ := Option.isSome_iff_exists.1 htype
        have hargs : readArgs f.atypes [] = .ok [] := by
          unfold readArgs
          rfl
        dsimp only
        rw [hfn]
        dsimp only
        rw [Except.bind_of_ok hargs]
        unfold storeRet
        rw [hct]
        exact ⟨_, rfl⟩

/-- The same call on another stack. -/
theorem tciNativeCall_stack {lib : NativeLib W} {id : Nat} {rvalue : Option (BitVec 64)} {avalues : List (BitVec 64)}
    {w : Vm W} {v : BitVec 64} (h : tciNativeCall lib vm id rvalue avalues = .ok (w, v))
    (stack : CArray ObjectT tvmStackCapacity) :
    tciNativeCall lib { vm with stack } id rvalue avalues = .ok ({ w with stack }, v) ∧ w.sp = vm.sp := by
  have hfollows : Follows True _ _ _ (tciNativeCall lib (vm.over 0 stack) id rvalue avalues) :=
    tciNativeCall_follows lib vm 0 id rvalue avalues
  obtain ⟨⟨w', v'⟩, hcall, hw, hv, -, hsp⟩ := hfollows.result _ h trivial
  dsimp only at hw hv
  rw [over_zero] at hcall hw
  subst hw hv
  exact ⟨hcall, hsp⟩

/-- Whatever the popped slots of `vm` hold, `x` is the push of the member `m`, of the same value. -/
def PushesMember (m : Member) (vm : Vm W) (x : Vm W → Except Fault (Ret W)) : Prop :=
  ∃ (v : BitVec 64) (w : Vm W), w.sp = vm.sp ∧ ∀ stack, (∀ i < vm.sp, stack.get? i = vm.stack.get? i) →
    x { vm with stack } = pushWith (fun old => .ok (m.write v old)) { w with stack }

theorem dup_pushes {m : Member} (hm : keepsOp env .dup inst vm = some m) (hsp : vm.sp < tvmStackCapacity) :
    PushesMember m vm (tvmExecOp env .dup inst) := by
  simp only [keepsOp, Option.ite_none_right_eq_some, Option.some.injEq] at hm
  obtain ⟨h1, rfl⟩ := hm
  have htop := CArray.get?_of_lt vm.stack (show vm.sp - 1 < tvmStackCapacity by omega)
  refine ⟨(vm.stack.cell ⟨vm.sp - 1, by omega⟩).ui64, vm, rfl, fun stack hslots => ?_⟩
  rw [← hslots _ (by omega)] at htop
  have hread : Vm.stackAt { vm with stack } (vm.sp - 1) = .ok _ := CArray.load_ok.2 htop
  show (if vm.sp < 1 then _ else if tvmStackCapacity ≤ vm.sp then _ else Vm.stackAt _ (vm.sp - 1) >>= _) = _
  rw [if_neg (show ¬ vm.sp < 1 by omega), if_neg (Nat.not_le_of_lt hsp)]
  exact Except.bind_of_ok hread

theorem loadc_pushes {m : Member} (hm : keepsOp env .loadc inst vm = some m) (hsp : vm.sp < tvmStackCapacity) :
    PushesMember m vm (opLoadc inst) := by
  unfold keepsOp at hm
  dsimp only at hm
  split at hm
  · rename_i r hr
    simp only [Option.ite_none_right_eq_some, Option.some.injEq] at hm
    obtain ⟨⟨hcount, hdata⟩, rfl⟩ := hm
    have hlen : ¬ ((vm.program.constTable.data.drop r).take 4).length < 4 := by
      simp only [List.length_take, List.length_drop]
      omega
    refine ⟨ofLeBytes ((vm.program.constTable.data.drop r).take 4), vm, rfl, fun stack _ => ?_⟩
    have href : referance { vm with stack } inst.operand.ui32.toNat = .ok r := referance_ok.2 hr
    unfold opLoadc
    rw [if_neg (Nat.not_le_of_lt hsp), if_neg (Nat.not_le_of_lt hcount), Except.bind_of_ok href]
    exact if_neg hlen
  · cases hm

theorem aloadc_pushes {m : Member} (hm : keepsOp env .aloadc inst vm = some m) (hsp : vm.sp < tvmStackCapacity) :
    PushesMember m vm (opAloadc env inst) := by
  simp only [keepsOp, Option.ite_none_right_eq_some, Option.some.injEq] at hm
  obtain ⟨⟨hcount, hlt⟩, rfl⟩ := hm
  refine ⟨env.constBase + BitVec.ofNat 64 vm.program.constTable.referances[inst.operand.ui32.toNat], vm, rfl,
    fun stack _ => ?_⟩
  have href : referance { vm with stack } inst.operand.ui32.toNat = .ok _ :=
    referance_ok.2 (List.getElem?_eq_getElem hlt)
  unfold opAloadc
  rw [if_neg (Nat.not_le_of_lt hsp), if_neg (Nat.not_le_of_lt hcount), Except.bind_of_ok href]
  rfl

theorem native_pushes {m : Member} (hm : keepsOp env .native inst vm = some m) (hsp : vm.sp < tvmStackCapacity) :
    PushesMember m vm (opNative env inst) := by
  unfold keepsOp at hm
  dsimp only at hm
  split at hm
  · rename_i md hmd
    split at hm
    · rename_i f hf
      simp only [Option.ite_none_right_eq_some, Option.some.injEq] at hm
      obtain ⟨⟨hzero, hid, hvoid, hreturns⟩, rfl⟩ := hm
      have hmod : vm.program.metadata.modules.load (Fault.outOfBounds .modules) 0 = .ok md := CArray.load_ok.2 hmd
      have hcfun : vm.program.cfun inst.operand.ui32.toNat = .ok f :=
        (Except.bind_of_ok hmod).trans (CArray.load_ok.2 hf)
      obtain ⟨⟨w, v⟩, hcall⟩ : ∃ r, tciNativeCall env.native vm inst.operand.ui32.toNat (some 0) [] = .ok r :=
        tciNativeCall_of_returns hcfun hreturns
      refine ⟨v, w, (tciNativeCall_stack hcall vm.stack).2, fun stack _ => ?_⟩
      have hcall' := (tciNativeCall_stack hcall stack).1
      unfold opNative
      rw [Except.bind_of_ok hcfun, Except.bind_of_ok hmod, if_neg (by omega), if_neg (Nat.not_le_of_lt hsp),
        if_neg (Nat.not_le_of_lt hid), hzero]
      rw [Except.bind_of_ok (show gatherArgs _ 0 0 _ = .ok [] from rfl)]
      dsimp only
      rw [if_neg hvoid]
      exact Except.bind_of_ok hcall'
    · cases hm
  · cases hm

/-- An instruction that writes one member of a popped slot is the push of that member. -/
theorem pushes_of_keeps {m : Member} (hm : keeps env inst vm = some m) (hsp : vm.sp < tvmStackCapacity) :
    PushesMember m vm (tvmExecInst env inst) := by
  obtain ⟨op, hop, hm⟩ := Option.bind_eq_some_iff.1 hm
  have hexec : tvmExecInst env inst = tvmExecOp env op inst := by
    funext vm
    unfold tvmExecInst
    rw [hop]
  rw [hexec]
  cases op with
  | dup => exact dup_pushes hm hsp
  | loadc => exact loadc_pushes hm hsp
  | aloadc => exact aloadc_pushes hm hsp
  | native => exact native_pushes hm hsp
  | _ => cases hm

/-- What the instruction keeps of the popped slot shows in the state it leaves. -/
theorem sameKept_of_sameStep (h : SameLive vm vm') (hstep : SameStep (tvmExecInst env inst vm) (tvmExecInst env inst vm')) :
    SameKept env inst vm vm' := by
  intro m hm old old' hold hold'
  have hsp := CArray.get?_lt hold
  obtain ⟨v, w, hw, hpush⟩ := pushes_of_keeps hm hsp
  have hx : tvmExecInst env inst vm = _ := hpush vm.stack fun _ _ => rfl
  have hy := hpush vm'.stack h.slots
  rw [← h.rest] at hy
  rw [← hw] at hold hold' hsp
  rw [hx, hy, pushWith_ok hold, pushWith_ok hold'] at hstep
  have htop := hstep.2.slots w.sp (Nat.lt_succ_self _)
  change (vm'.stack.put w.sp _).get? w.sp = (vm.stack.put w.sp _).get? w.sp at htop
  rw [CArray.get?_put_self _ _ hsp, CArray.get?_put_self _ _ hsp] at htop
  exact (m.write_eq_iff v old' old).1 (Option.some.inj htop)

/-! ## Runs -/

/-- The same instruction is fetched. -/
theorem SameLive.fetch (h : SameLive vm vm') :
    vm'.program.code.get? vm'.ip = vm.program.code.get? vm.ip := by
  rw [h.rest]

/-- The step after a successful one, in the other state. -/
theorem SameLive.step {next : Vm W} (h : SameLive vm vm') (hstep : tvmExecOpcode env vm = .ok (.ok, next))
    (hkept : ∀ inst, vm.program.code.get? vm.ip = some inst → SameKept env inst vm vm') :
    ∃ next', tvmExecOpcode env vm' = .ok (.ok, next') ∧ SameLive next next' := by
  obtain ⟨inst, hinst, hexec⟩ := Except.bind_ok hstep
  have hinst := CArray.load_ok.1 hinst
  have hsame := tvmExecInst_sameStep h (hkept inst hinst)
  rw [hexec] at hsame
  rw [tvmExecOpcode_eq (h.fetch.trans hinst)]
  cases hexec' : tvmExecInst env inst vm' with
  | error f => rw [hexec'] at hsame; cases hsame
  | ok r =>
    rw [hexec'] at hsame
    obtain ⟨e, next'⟩ := r
    obtain ⟨he, hnext⟩ := hsame
    cases he
    exact ⟨next', rfl, hnext⟩

/-- As long as the instructions find the same in what they keep, the other run goes along. -/
theorem Run.sameLive {ρ ρ' : Nat → Vm W} {n : Nat} (hrun : Run env ρ n) (h0 : SameLive (ρ 0) (ρ' 0))
    (hfollow : ∀ i < n, ∀ r, tvmExecOpcode env (ρ' i) = .ok r → ρ' (i + 1) = r.2)
    (hkept : ∀ i < n, ∀ inst, (ρ i).program.code.get? (ρ i).ip = some inst → SameKept env inst (ρ i) (ρ' i)) :
    ∀ i ≤ n, SameLive (ρ i) (ρ' i) ∧ ∀ j < i, tvmExecOpcode env (ρ' j) = .ok (.ok, ρ' (j + 1))
  | 0, _ => ⟨h0, fun j hj => absurd hj (Nat.not_lt_zero j)⟩
  | i + 1, hi => by
    obtain ⟨hlive, hsteps⟩ := Run.sameLive hrun h0 hfollow hkept i (by omega)
    obtain ⟨next', hstep, hnext⟩ := hlive.step (hrun i hi) (hkept i hi)
    have hstate : ρ' (i + 1) = next' := hfollow i hi _ hstep
    rw [← hstate] at hstep hnext
    refine ⟨hnext, fun j hj => ?_⟩
    rcases Nat.lt_succ_iff_lt_or_eq.1 hj with hj | rfl
    · exact hsteps j hj
    · exact hstep

/-- Two states that differ in popped slots step alike if and only if the instruction finds the same
in the part of the popped slot that it keeps; and two runs from such states stay alike if and only
if this holds at each of their steps. -/
theorem dead_slots_iff (env : Env W) :
    (∀ inst vm vm', SameLive vm vm' →
      (SameStep (tvmExecInst env inst vm) (tvmExecInst env inst vm') ↔ SameKept env inst vm vm')) ∧
    ∀ (ρ ρ' : Nat → Vm W) (n : Nat), Run env ρ n → SameLive (ρ 0) (ρ' 0) →
      (∀ i < n, ∀ r, tvmExecOpcode env (ρ' i) = .ok r → ρ' (i + 1) = r.2) →
      ((Run env ρ' n ∧ ∀ i ≤ n, SameLive (ρ i) (ρ' i)) ↔
        ∀ i < n, ∀ inst, (ρ i).program.code.get? (ρ i).ip = some inst → SameKept env inst (ρ i) (ρ' i)) := by
  refine ⟨fun inst vm vm' h => ⟨sameKept_of_sameStep h, tvmExecInst_sameStep h⟩, ?_⟩
  intro ρ ρ' n hrun h0 hfollow
  constructor
  · rintro ⟨hrun', hlive⟩ i hi inst hinst
    have hi_live := hlive i (by omega)
    refine sameKept_of_sameStep hi_live ?_
    rw [← tvmExecOpcode_eq hinst, ← tvmExecOpcode_eq (hi_live.fetch.trans hinst), hrun i hi, hrun' i hi]
    exact ⟨rfl, hlive (i + 1) hi⟩
  · intro hkept
    have hlive := hrun.sameLive h0 hfollow hkept
    exact ⟨(hlive n (Nat.le_refl n)).2, fun i hi => (hlive i hi).1⟩

/-! ## Two states -/

/-- One object on the stack, and `old` in the popped slot above it. -/
def Vm.oneOver (vm : Vm W) (old : ObjectT) : Vm W :=
  { vm with stack := (vm.stack.put 0 ⟨StackObjType.number.code, 1⟩).put 1 old, sp := 1 }

theorem oneOver_sameLive (vm : Vm W) (a b : ObjectT) : SameLive (vm.oneOver a) (vm.oneOver b) := by
  constructor
  · rfl
  · intro i hi
    obtain rfl : i = 0 := Nat.lt_one_iff.1 hi
    rfl

/-- `dup` over an untouched slot and over a popped character. -/
theorem dup_shows_dead_slot : ∃ vm : Vm Unit, tvmInit (.bare [64]) .zero () = .ok vm ∧
    SameLive (vm.oneOver .zero) (vm.oneOver ⟨StackObjType.character.code, 97⟩) ∧
      ¬ SameStep (tvmExecInst (.bare [64]) ⟨OpType.dup.code, .zero⟩ (vm.oneOver .zero))
        (tvmExecInst (.bare [64]) ⟨OpType.dup.code, .zero⟩ (vm.oneOver ⟨StackObjType.character.code, 97⟩)) := by
  refine ⟨_, rfl, oneOver_sameLive _ _ _, ?_⟩
  rintro ⟨-, -, hslots⟩
  have := hslots 1 (Nat.lt_succ_self 1)
  revert this
  decide

/-- `cln 0` over the same two slots. -/
theorem dead_slots_cln : ∃ vm : Vm Unit, tvmInit (.bare [64]) .zero () = .ok vm ∧
    SameStep (tvmExecInst (.bare [64]) ⟨OpType.cln.code, .zero⟩ (vm.oneOver .zero))
      (tvmExecInst (.bare [64]) ⟨OpType.cln.code, .zero⟩ (vm.oneOver ⟨StackObjType.character.code, 97⟩)) := by
  refine ⟨_, rfl, ?_⟩
  refine ((dead_slots_iff (.bare [64])).1 _ _ _ (oneOver_sameLive _ _ _)).2 ?_
  rintro m ⟨⟩

end TileVm
