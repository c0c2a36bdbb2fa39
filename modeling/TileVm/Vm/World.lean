/-
The state of the native library is changed by native calls alone, and these call declared functions
that libffi prepared and whose symbol was found.
-/
import TileVm.Vm.NativeAccess
import TileVm.Vm.Run

namespace TileVm

open Except (Post)

variable {W : Type} {vm w : Vm W} {inst : Opcode}

/-- `x`, run on `vm`, faults or leaves the state of the library. -/
abbrev KeepsWorld (vm : Vm W) (x : Except Fault (Ret W)) : Prop := Post (fun _ => True) (fun r => r.2.world = vm.world) x

/-- From `world` to `world'` by one call of the declared function `id`. -/
structure CallsLibrary (lib : NativeLib W) (p : TvmProgram) (id : Nat) (world world' : W) : Prop where
  declared : id < (module0 p).cfunCount
  called : ∃ f name fn args values, p.cfun id = .ok f ∧ f.symbolName = some name ∧ lib.isOk id = some true ∧
    lib.dlsym name = some fn ∧ world' = (lib.ffiCall fn f.rtype args world values).world

/-! ## Rules -/

theorem world_bind {α : Type} {x : Except Fault α} {f : α → Except Fault (Ret W)}
    (h : ∀ a, x = .ok a → KeepsWorld vm (f a)) : KeepsWorld vm (x >>= f) :=
  Post.bind (Post.intro (fun _ _ => trivial) h)

theorem world_stackSet {i : Nat} {o : ObjectT} {f : Vm W → Except Fault (Ret W)}
    (h : ∀ stack, KeepsWorld vm (f { w with stack })) : KeepsWorld vm (w.stackSet i o >>= f) := by
  apply world_bind
  intro a ha
  obtain ⟨stack, -, rfl⟩ := Except.map_eq_ok ha
  exact h stack

theorem world_guard {c : Prop} [Decidable c] {e : TvmException} {x : Except Fault (Ret W)}
    (h : ¬ c → KeepsWorld vm x) : KeepsWorld vm (if c then raise e vm else x) :=
  Post.ite (fun _ => rfl) h

theorem pushWith_world {f : ObjectT → Except Fault ObjectT} (h : w.world = vm.world) : KeepsWorld vm (pushWith f w) :=
  world_bind fun _ _ => world_bind fun _ _ => world_stackSet fun _ => h

/-! ## Families -/

section Families

variable {f : ObjectT → ObjectT → Except Fault ObjectT}

theorem applyTwo_world : KeepsWorld vm (applyTwo f vm) :=
  world_bind fun _ _ => world_bind fun _ _ => world_bind fun _ _ => world_stackSet fun _ => rfl

theorem arithOp_world : KeepsWorld vm (arithOp f vm) :=
  world_guard fun _ => world_guard fun _ => applyTwo_world

theorem divOp_world : KeepsWorld vm (divOp f vm) :=
  world_guard fun _ => world_guard fun _ => world_bind fun _ _ => world_guard fun _ => applyTwo_world

theorem unaryOp_world {f : ObjectT → ObjectT} : KeepsWorld vm (unaryOp f vm) :=
  world_guard fun _ => world_bind fun _ _ => world_stackSet fun _ => rfl

theorem condJump_world (taken : BitVec 32 → Bool) : KeepsWorld vm (condJump taken inst vm) :=
  world_guard fun _ => world_guard fun _ => world_bind fun _ _ => Post.ite (fun _ => rfl) fun _ => rfl

theorem loadTop_world {f : Addr → Except Fault (BitVec 64)} : KeepsWorld vm (loadTop f vm) :=
  world_bind fun _ _ => world_bind fun _ _ => world_stackSet fun _ => rfl

theorem heapSet_world {env : Env W} {width offset : BitVec 32} : KeepsWorld vm (heapSet env width offset vm) := by
  refine world_bind fun _ _ => world_bind fun _ _ => world_guard fun _ => Post.ite (fun _ => ?_) fun _ => rfl
  exact world_bind fun _ _ => world_bind fun _ _ => world_bind fun _ _ => rfl

end Families

/-! ## The switch -/

/-- Every instruction but `native` leaves the state of the library. -/
theorem tvmExecOp_world (env : Env W) {op : OpType} (h : op ≠ .native) : KeepsWorld vm (tvmExecOp env op inst vm) := by
  cases op with
  | native => exact absurd rfl h
  | nop | halt => exact rfl
  | push => exact world_guard fun _ => pushWith_world rfl
  | pop => exact world_guard fun _ => rfl
  | add | sub | mult | addf | subf | multf | divf | gt | gtf | lt | ltf | eq | eqf | ge | gef | le | lef | and | or =>
    exact arithOp_world
  | div | mod => exact divOp_world
  | band | bor | lshft | rshft => exact world_guard fun _ => applyTwo_world
  | inc | incf | dec | decf | ci2f | ci2u | cf2i | cf2u | cu2i | cu2f | not | bnot => exact unaryOp_world
  | dup => exact world_guard fun _ => world_guard fun _ => world_bind fun _ _ => pushWith_world rfl
  | cln =>
    exact world_guard fun _ => world_guard fun _ => world_guard fun _ => world_bind fun _ _ => pushWith_world rfl
  | swap =>
    refine world_guard fun _ => world_guard fun _ => world_bind fun _ _ => world_bind fun _ _ => ?_
    exact world_stackSet fun _ => world_stackSet fun _ => rfl
  | jmp => exact world_guard fun _ => rfl
  | jz => exact condJump_world (· == 0)
  | jnz => exact condJump_world (· != 0)
  | call => exact world_guard fun _ => world_guard fun _ => world_bind fun _ _ => world_bind fun _ _ => rfl
  | ret => exact world_guard fun _ => world_bind fun _ _ => world_bind fun _ _ => rfl
  | loadc =>
    refine world_guard fun _ => world_guard fun _ => world_bind fun _ _ => Post.ite (fun _ => trivial) fun _ => ?_
    exact pushWith_world rfl
  | aloadc | gload => exact world_guard fun _ => world_guard fun _ => world_bind fun _ _ => pushWith_world rfl
  | load =>
    exact world_guard fun _ => world_guard fun _ => world_bind fun _ _ => world_bind fun _ _ => pushWith_world rfl
  | store =>
    refine world_guard fun _ => world_guard fun _ => world_bind fun _ _ => ?_
    exact world_bind fun _ _ => world_bind fun _ _ => rfl
  | gstore => exact world_guard fun _ => world_guard fun _ => world_bind fun _ _ => world_bind fun _ _ => rfl
  | halloc =>
    refine world_guard fun _ => world_bind fun _ _ => world_bind fun _ _ => world_bind fun _ _ => ?_
    exact world_stackSet fun _ => rfl
  | deref => exact world_guard fun _ => loadTop_world
  | derefb =>
    refine world_guard fun _ => world_guard fun _ => Post.ite (fun _ => loadTop_world) fun _ => ?_
    exact Post.ite (fun _ => loadTop_world) fun _ => Post.ite (fun _ => loadTop_world) fun _ => rfl
  | hset | hsetof => exact world_guard fun _ => world_bind fun _ _ => world_bind fun _ _ => heapSet_world
  | puts => exact world_guard fun _ => world_bind fun _ _ => world_bind fun _ _ => rfl
  | putc => exact world_guard fun _ => world_bind fun _ _ => rfl

/-! ## Native calls -/

theorem nativeCall_world {lib : NativeLib W} {id : Nat} {rvalue : Option (BitVec 64)} {avalues : List (BitVec 64)}
    {r : Vm W × BitVec 64} (hid : id < (module0 w.program).cfunCount) (h : tciNativeCall lib w id rvalue avalues = .ok r) :
    r.1.world = w.world ∨ CallsLibrary lib w.program id w.world r.1.world := by
  unfold tciNativeCall at h
  obtain ⟨f, hf, h⟩ := Except.bind_ok h
  obtain ⟨name, hname, h⟩ := Except.bind_ok h
  dsimp only at h
  split at h
  · cases h
  · cases h
    exact .inl rfl
  · rename_i hok
    split at h
    · cases h
    · rename_i fn hfn
      have hsymbol : f.symbolName = some name := by
        cases hs : f.symbolName with
        | none => rw [hs] at hname; cases hname
        | some s => rw [hs] at hname; cases hname; rfl
      obtain ⟨args, -, h⟩ := Except.bind_ok h
      split at h
      · cases h
        exact .inr ⟨hid, f, name, fn, args, _, hf, hsymbol, hok, hfn, rfl⟩
      · obtain ⟨ret, -, h⟩ := Except.bind_ok h
        cases h
        exact .inr ⟨hid, f, name, fn, args, _, hf, hsymbol, hok, hfn, rfl⟩

/-- What an instruction may do to the state of the library. -/
abbrev WorldPost (env : Env W) (vm : Vm W) (id : Nat) (x : Except Fault (Ret W)) : Prop :=
  Post (fun _ => True) (fun r => r.2.world = vm.world ∨ CallsLibrary env.native vm.program id vm.world r.2.world) x

theorem opNative_world (env : Env W) : WorldPost env vm inst.operand.ui32.toNat (opNative env inst vm) := by
  unfold opNative
  refine .bind_any (fun _ => trivial) fun f => ?_
  rw [Except.bind_of_ok (load_module0 vm.program)]
  refine .ite (fun _ => .inl rfl) fun _ => .ite (fun _ => .inl rfl) fun _ => .ite (fun _ => .inl rfl) fun hid => ?_
  have hid := Nat.lt_of_not_le hid
  refine .bind_any (fun _ => trivial) fun vargs => .ite (fun _ => ?_) fun _ => ?_
  · refine .bind (.intro (fun _ _ => trivial) fun r hr => ?_)
    exact nativeCall_world (w := vm.setSp (vm.sp - f.acount)) hid hr
  · refine .bind (.intro (fun _ _ => trivial) fun r hr => ?_)
    have hworld := nativeCall_world (w := vm.setSp (vm.sp - f.acount)) hid hr
    have hpush (f : ObjectT → Except Fault ObjectT) : KeepsWorld r.1 (pushWith f r.1) := pushWith_world rfl
    refine (hpush _).mono (fun _ h => h) fun s hs => ?_
    rw [hs]
    exact hworld

theorem tvmExecOpcode_world {env : Env W} {r : Ret W} (h : tvmExecOpcode env vm = .ok r) :
    r.2.world = vm.world ∨ ∃ id, CallsLibrary env.native vm.program id vm.world r.2.world := by
  obtain ⟨inst, -, h⟩ := Except.bind_ok h
  unfold tvmExecInst at h
  split at h
  · rename_i op _
    by_cases hop : op = .native
    · subst hop
      exact ((opNative_world env).of_ok h).imp_right fun hcalls => ⟨_, hcalls⟩
    · exact .inl ((tvmExecOp_world env hop).of_ok h)
  · cases h
    exact .inl rfl

/-- What native calls keep of the state of the library, `tvm_run` keeps. -/
theorem tvmRun_world {env : Env W} {p : TvmProgram} (I : W → Prop)
    (hcalls : ∀ id world world', I world → CallsLibrary env.native p id world world' → I world') {fuel : Nat} {vm' : Vm W}
    (hprogram : vm.program = p) (hI : I vm.world) (h : tvmRun env fuel vm = .ok vm') : I vm'.world := by
  obtain ⟨w, hloop, h⟩ := Except.bind_ok h
  have hw := (Loop.run_inv (fun w => w.program = p ∧ I w.world) ?_ fuel vm w ⟨hprogram, hI⟩ hloop).1.2
  · dsimp only at h
    split at h
    · cases h
    · cases h
      exact hw
  · rintro s s' ⟨hs, hI⟩ - hbody
    have hexec := tvmRunBody_ok hbody
    obtain ⟨_, _, _, _, heff⟩ := tvmExecOpcode_effect hexec
    refine ⟨heff.program.trans hs, ?_⟩
    rcases tvmExecOpcode_world hexec with hworld | ⟨id, hworld⟩
    · have hworld : s'.world = s.world := hworld
      rwa [hworld]
    · rw [hs] at hworld
      exact hcalls id _ _ hI hworld

end TileVm
