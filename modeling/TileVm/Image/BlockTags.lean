/-
What the tag of a data address promises. `tgc_collect` follows every object with this tag; it holds
the address of a block as long as no instruction overwrites a payload in place under the tag.
-/
import TileVm.Image.PushTags
import TileVm.Vm.CollectSafe
import TileVm.Vm.Origin

namespace TileVm

variable {W : Type} {env : Env W} {vm vm' : Vm W} {text : List Byte} {ast : TasmAst} {t : TasmTranslator} {p : TvmProgram}

/-! ## Tagged objects in use -/

/-- Every object in use that is tagged as a data address holds one of some addresses. -/
def Vm.TagsIn (vm : Vm W) (S : Addr → Prop) : Prop := ∀ o, vm.InUse o → o.type = StackObjType.dataAddress.code → S o.ui64

/-- Roots are such objects. -/
theorem Vm.TagsIn.root {S : Addr → Prop} (h : vm.TagsIn S) {a : Addr} (ha : IsRoot vm a) : S a := by
  cases ha with
  | stack used get tag => exact h _ (.inl ⟨_, used, get⟩) tag
  | localVar _ frame get tag => exact h _ (.inr (.inl ⟨_, _, _, frame, get⟩)) tag
  | globalVar get tag => exact h _ (.inr (.inr ⟨_, get⟩)) tag

/-- The next instruction overwrites no payload under the tag of a data address. -/
def Vm.WritesUntagged (vm : Vm W) : Prop :=
  ∀ inst op i o, vm.program.code.get? vm.ip = some inst → OpType.ofNat? inst.type.toNat = some op →
    inPlaceSlot op inst vm = some i → vm.stack.get? i = some o → o.type ≠ StackObjType.dataAddress.code

theorem init_tagsIn {S : Addr → Prop} {world : W} (hinit : tvmInit env p world = .ok vm) : vm.TagsIn S := by
  obtain ⟨⟨frame, frames⟩, hframe, h⟩ := Except.bind_ok hinit
  cases h
  unfold tvmFrameInit at hframe
  split at hframe
  · cases hframe
    have hzero : ∀ {n i : Nat} {o : ObjectT}, (CArray.fill ObjectT.zero : CArray ObjectT n).get? i = some o →
        o.type ≠ StackObjType.dataAddress.code := by
      intro n i o ho
      cases (CArray.get?_fill _ (CArray.get?_lt ho)).symm.trans ho
      decide
    rintro o (⟨i, hi, -⟩ | ⟨a, f, i, hf, ho⟩ | ⟨i, ho⟩) htag
    · exact absurd hi (Nat.not_lt_zero i)
    · by_cases ha : a = frame
      · rw [ha] at hf
        cases (FrameStore.set_self ..).symm.trans hf
        exact absurd htag (hzero ho)
      · cases (FrameStore.set_of_ne _ _ ha).symm.trans hf
    · exact absurd htag (hzero ho)
  · cases hframe

/-- One step: `push` brings no tag, an operation in place meets none, and `halloc` adds the address that it returns. -/
theorem step_tagsIn {S S' : Addr → Prop} (hp : PushesUntagged vm.program) (h : vm.TagsIn S) (hwrites : vm.WritesUntagged)
    (hstep : tvmExecOpcode env vm = .ok (.ok, vm')) (hmono : ∀ a, S a → S' a)
    (hblock : vm.nextOp = some .halloc → S' (vm'.slot (vm'.sp - 1)).ui64) : vm'.TagsIn S' := by
  intro o ho htag
  have hbody := tvmRunBody_of_exec hstep
  obtain ⟨inst, hinst, hexec⟩ := Except.bind_ok hstep
  have hinst := CArray.load_ok.1 hinst
  obtain ⟨op, hop, -⟩ := tvmExecInst_effect hexec
  have hnext : vm.nextOp = some op := by
    rw [Vm.nextOp, hinst]
    exact hop
  unfold tvmExecInst at hexec
  rw [hop] at hexec
  cases (tvmExecOp_draws.of_ok hexec) o ho with
  | kept was => exact hmono _ (h o was htag)
  | fresh eq =>
    subst eq
    exact absurd htag (by decide)
  | operand is eq =>
    subst is eq
    exact absurd htag (hp _ inst hinst hop)
  | written place slot tag =>
    rw [tag] at htag
    exact absurd htag (hwrites inst op _ _ hinst hop place slot)
  | block is made =>
    subst is
    have hsame := Except.ok.inj ((halloc_creates hbody hnext).symm.trans made)
    have haddr : (vm'.slot (vm'.sp - 1)).ui64 = o.ui64 := congrArg Prod.fst hsame
    exact haddr ▸ hblock hnext

/-! ## Runs -/

/-- An address that an `OP_HALLOC` returned in one of the first `n` steps. -/
def Returned (ρ : Nat → Vm W) (n : Nat) (a : Addr) : Prop :=
  ∃ j < n, (ρ j).nextOp = some .halloc ∧ a = ((ρ (j + 1)).slot ((ρ (j + 1)).sp - 1)).ui64

/-- All roots are such addresses, and so is all that `tgc_collect` passes to `tgc_mark`. -/
structure TagsReturned (ρ : Nat → Vm W) (n : Nat) : Prop where
  roots : ∀ a, IsRoot (ρ n) a → Returned ρ n a
  marked : ∀ f, (ρ n).frames (ρ n).frame = some f → ∀ a ∈ frameRoots f, Returned ρ n a

theorem Run.program {ρ : Nat → Vm W} {n : Nat} {world : W} (hrun : Run env ρ n) (hinit : tvmInit env p world = .ok (ρ 0)) :
    ∀ i ≤ n, (ρ i).program = p := by
  intro i
  induction i with
  | zero => exact fun _ => (tvmInit_state hinit).1
  | succ i ih =>
    intro hi
    obtain ⟨_, _, _, _, heff⟩ := tvmExecOpcode_effect (hrun i hi)
    exact heff.program.trans (ih (Nat.le_of_succ_le hi))

/-- For every accepted source and every run of its program in which no step overwrites a payload under the tag of a data
address: in every state, every object in use with this tag holds an address that `OP_HALLOC` returned before. -/
theorem tags_returned (h : Assembles text ast t) (hp : ProgramFrom ast t p) (env : Env W) (world : W) (ρ : Nat → Vm W)
    (n : Nat) (hinit : tvmInit env p world = .ok (ρ 0)) (hrun : Run env ρ n) (hwrites : ∀ i < n, (ρ i).WritesUntagged) :
    ∀ i ≤ n, TagsReturned ρ i := by
  have htags : ∀ i ≤ n, (ρ i).TagsIn (Returned ρ i) := by
    intro i
    induction i with
    | zero => exact fun _ => init_tagsIn hinit
    | succ i ih =>
      intro hi
      have hpushes : PushesUntagged (ρ i).program := hrun.program hinit i (Nat.le_of_succ_le hi) ▸ hp.untagged h
      refine step_tagsIn hpushes (ih (Nat.le_of_succ_le hi)) (hwrites i hi) (hrun i hi) ?_ ?_
      · rintro a ⟨j, hj, hret⟩
        exact ⟨j, Nat.lt_succ_of_lt hj, hret⟩
      · intro hop
        exact ⟨i, Nat.lt_succ_self i, hop, rfl⟩
  intro i hi
  constructor
  · intro a ha
    exact (htags i hi).root ha
  · intro f hf a ha
    exact (htags i hi).root (localRoot_isRoot hf ha)

/-- The text `push 8`, `push 0`, `halloc`, `inc`, `hlt`. -/
def nextByte : List Byte := cstr "push 8\npush 0\nhalloc\ninc\nhlt\n"

def nextByteTokens : List TasmToken :=
  [⟨.op .push, some (cstr "push")⟩, ⟨.decimalNumber, some (cstr "8")⟩, ⟨.endline, some (cstr "endl")⟩,
    ⟨.op .push, some (cstr "push")⟩, ⟨.decimalNumber, some (cstr "0")⟩, ⟨.endline, some (cstr "endl")⟩,
    ⟨.op .halloc, some (cstr "halloc")⟩, ⟨.endline, some (cstr "endl")⟩,
    ⟨.op .inc, some (cstr "inc")⟩, ⟨.endline, some (cstr "endl")⟩,
    ⟨.op .halt, some (cstr "hlt")⟩, ⟨.endline, some (cstr "endl")⟩]

def nextByteAst : TasmAst :=
  .file [.op .push (some (cstr "push")) (some (.number (cstr "8") 8)),
    .op .push (some (cstr "push")) (some (.number (cstr "0") 0)), .op .halloc (some (cstr "halloc")) none,
    .op .inc (some (cstr "inc")) none, .op .halt (some (cstr "hlt")) none]

/-- The run of `nextByte` up to `hlt`. -/
structure NextByteRun (t : TasmTranslator) (ρ : Nat → Vm Unit) : Prop where
  assembles : Assembles nextByte nextByteAst t
  init : tvmInit movingHost t.program () = .ok (ρ 0)
  run : Run movingHost ρ 4
  ops : (ρ 0).nextOp = some .push ∧ (ρ 1).nextOp = some .push ∧ (ρ 2).nextOp = some .halloc ∧ (ρ 3).nextOp = some .inc
  sp : (ρ 3).sp = 1 ∧ (ρ 4).sp = 1
  block : (ρ 3).stack.get? 0 = some ⟨1, 262144⟩
  moved : (ρ 4).stack.get? 0 = some (word1 (· + 1) ⟨1, 262144⟩)

theorem nextByte_run : ∃ t ρ, NextByteRun t ρ := by
  obtain ⟨t, ht⟩ : ∃ t, Assembles nextByte nextByteAst t :=
    assembles_of_run 30 (show (runOf 30 30 _).map (·.1) = some nextByteTokens by decide +kernel) ⟨_, rfl, rfl⟩
      (by decide +kernel)
  have hcode := ht.translated.code
  have h0 : t.program.code.get? 0 = some (.withUi32 .push .number 8) := hcode [] none .push _ _ rfl
  have h1 : t.program.code.get? 1 = some (.withUi32 .push .number 0) := hcode (nextByteAst.items.take 1) none .push _ _ rfl
  have h2 : t.program.code.get? 2 = some (.plain .halloc) := hcode (nextByteAst.items.take 2) none .halloc _ _ rfl
  have h3 : t.program.code.get? 3 = some (.plain .inc) := hcode (nextByteAst.items.take 3) none .inc _ _ rfl
  have step {vm vm' : Vm Unit} {inst : Opcode} {op : OpType} (hfetch : vm.program.code.get? vm.ip = some inst)
      (hop : OpType.ofNat? inst.type.toNat = some op) (hexec : tvmExecInst movingHost inst vm = .ok (.ok, vm')) :
      tvmExecOpcode movingHost vm = .ok (.ok, vm') ∧ vm.nextOp = some op := by
    constructor
    · exact (tvmExecOpcode_eq hfetch).trans hexec
    · rw [Vm.nextOp, hfetch]
      exact hop
  obtain ⟨vm0, vm1, vm2, vm3, vm4, hinit, hs0, hs1, hs2, hs3, hsp, hblock, hmoved⟩ : ∃ vm0 vm1 vm2 vm3 vm4 : Vm Unit,
      tvmInit movingHost t.program () = .ok vm0 ∧
      (tvmExecOpcode movingHost vm0 = .ok (.ok, vm1) ∧ vm0.nextOp = some .push) ∧
      (tvmExecOpcode movingHost vm1 = .ok (.ok, vm2) ∧ vm1.nextOp = some .push) ∧
      (tvmExecOpcode movingHost vm2 = .ok (.ok, vm3) ∧ vm2.nextOp = some .halloc) ∧
      (tvmExecOpcode movingHost vm3 = .ok (.ok, vm4) ∧ vm3.nextOp = some .inc) ∧
      (vm3.sp = 1 ∧ vm4.sp = 1) ∧ vm3.stack.get? 0 = some ⟨1, 262144⟩ ∧
      vm4.stack.get? 0 = some (word1 (· + 1) ⟨1, 262144⟩) :=
    ⟨_, _, _, _, _, rfl, step h0 rfl rfl, step h1 rfl rfl, step h2 rfl rfl, step h3 rfl rfl, ⟨rfl, rfl⟩, rfl, rfl⟩
  refine ⟨t, fun i => [vm0, vm1, vm2, vm3].getD i vm4, ht, hinit, ?_, ⟨hs0.2, hs1.2, hs2.2, hs3.2⟩, hsp, hblock, hmoved⟩
  rintro (_ | _ | _ | _ | i) hi
  · exact hs0.1
  · exact hs1.1
  · exact hs2.1
  · exact hs3.1
  · omega

/-- An instruction that overwrites nothing in place. -/
theorem writesUntagged_of_op {op : OpType} (hop : vm.nextOp = some op) (hplace : ∀ inst, inPlaceSlot op inst vm = none) :
    vm.WritesUntagged := by
  intro inst op' i o hinst hop' hslot
  rw [Vm.nextOp, hinst] at hop
  cases hop'.symm.trans hop
  rw [hplace inst] at hslot
  cases hslot

theorem tags_returned_block : ∃ t ρ, NextByteRun t ρ ∧ ∀ i ≤ 3, TagsReturned ρ i := by
  obtain ⟨t, ρ, h⟩ := nextByte_run
  refine ⟨t, ρ, h, tags_returned h.assembles .direct movingHost () ρ 3 h.init (fun i hi => h.run i (by omega)) ?_⟩
  obtain ⟨hop0, hop1, hop2, -⟩ := h.ops
  rintro (_ | _ | _ | i) hi
  · exact writesUntagged_of_op hop0 fun _ => rfl
  · exact writesUntagged_of_op hop1 fun _ => rfl
  · exact writesUntagged_of_op hop2 fun _ => rfl
  · omega

/-- `inc` on the address of a block leaves the tag on an address that no `halloc` returned. -/
theorem tag_left_behind : ∃ t ρ, NextByteRun t ρ ∧ ¬ TagsReturned ρ 4 := by
  obtain ⟨t, ρ, h⟩ := nextByte_run
  refine ⟨t, ρ, h, fun htags => ?_⟩
  obtain ⟨hop0, hop1, -, hop3⟩ := h.ops
  have hroot : IsRoot (ρ 4) (word1 (· + 1) ⟨1, 262144⟩).ui64 := .stack (by rw [h.sp.2]; exact Nat.one_pos) h.moved rfl
  obtain ⟨j, hj, hop, heq⟩ := htags.roots _ hroot
  rcases j with _ | _ | _ | _ | j
  · cases hop0.symm.trans hop
  · cases hop1.symm.trans hop
  · have hslot : (ρ 3).slot 0 = ⟨1, 262144⟩ := by
      unfold Vm.slot
      rw [h.block]
      rfl
    have heq : (word1 (· + 1) ⟨1, 262144⟩).ui64 = ((ρ 3).slot ((ρ 3).sp - 1)).ui64 := heq
    rw [h.sp.1, hslot] at heq
    exact absurd heq (by decide)
  · cases hop3.symm.trans hop
  · omega

end TileVm
