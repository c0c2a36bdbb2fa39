/-
Whether the trees of accepted programs are complete. Every node is there, with its name or text,
except for one: `@data` without a value is accepted and leaves a `NULL`, which the translator
follows. It is the only `NULL` that it follows.
-/
import TileVm.Tasm.JumpTargets
import TileVm.Tasm.ParserGrammar

namespace TileVm

open Grammar

/-! ## What the grammar consumes -/

/-- `us` is left of `ts` behind tokens other than `@`. -/
def Passes (ts us : Tokens) : Prop := ∃ c, ts = c ++ us ∧ ∀ t ∈ c, t.type ≠ .atSign

namespace Passes

variable {ts us vs : Tokens} {t : TasmToken}

theorem refl (ts : Tokens) : Passes ts ts := ⟨[], rfl, by simp⟩

theorem cons (ht : t.type ≠ .atSign) (h : Passes ts us) : Passes (t :: ts) us := by
  obtain ⟨c, rfl, hc⟩ := h
  exact ⟨t :: c, rfl, by simpa [ht] using hc⟩

theorem trans (h : Passes ts us) (h' : Passes us vs) : Passes ts vs := by
  obtain ⟨c, rfl, hc⟩ := h
  obtain ⟨c', rfl, hc'⟩ := h'
  refine ⟨c ++ c', by simp, ?_⟩
  intro t ht
  rcases List.mem_append.mp ht with ht | ht
  · exact hc t ht
  · exact hc' t ht

theorem sub (h : Passes ts us) : ∀ t ∈ us, t ∈ ts := by
  obtain ⟨c, rfl, -⟩ := h
  intro t ht
  exact List.mem_append_right c ht

end Passes

/-- The tokens that the tree takes names and characters from have a text, as those of the lexer. -/
def Texts (ts : Tokens) : Prop := ∀ t ∈ ts, t.type = .id ∨ t.type = .char → t.value.isSome = true

theorem Texts.passes {ts us : Tokens} (h : Texts ts) (hp : Passes ts us) : Texts us := fun t ht => h t (hp.sub t ht)

/-- A character literal has its character, and a string literal the length of its text. -/
structure LiteralGiven (a : TasmAst) : Prop where
  char : ∀ c, a = .char c → c.isSome = true
  string : ∀ text n, a = .string text n → n = (text.takeWhile (· ≠ 0)).length

section Consumed

variable {ts us : Tokens} {a : TasmAst} {t : TasmToken} {type : TokenType}

theorem expect_some (h : expect type ts = some (t, us)) : ts = t :: us ∧ t.type = type := by
  rcases ts with _ | ⟨u, vs⟩
  · cases h
  · simp only [expect] at h
    split at h
    · cases h
      exact ⟨rfl, by assumption⟩
    · cases h

theorem expect_passes (h : expect type ts = some (t, us)) (hne : type ≠ .atSign) : Passes ts us := by
  obtain ⟨rfl, ht⟩ := expect_some h
  exact (Passes.refl us).cons (ht ▸ hne)

theorem skip_passes (type : TokenType) (ts : Tokens) (hne : type ≠ .atSign) : Passes ts (skip type ts) := by
  unfold skip
  split
  · rename_i hf
    rcases ts with _ | ⟨t, us⟩
    · exact .refl _
    · exact (Passes.refl us).cons (fun ht => hne (hf.symm.trans ht))
  · exact .refl _

theorem numLit_consumed {negative : Bool} (hn : isNumber (first ts) = true) (h : numLit negative ts = some (a, us)) :
    Passes ts us ∧ LiteralGiven a := by
  rcases ts with _ | ⟨t, vs⟩
  · cases h
  · simp only [numLit, Option.bind_eq_bind, Option.bind_eq_some_iff] at h
    obtain ⟨value, -, v, -, h⟩ := h
    cases h
    refine ⟨(Passes.refl us).cons fun ht => ?_, ⟨nofun, nofun⟩⟩
    rw [show first (t :: us) = t.type from rfl, ht] at hn
    cases hn

theorem charLit_consumed (hts : Texts ts) (h : charLit ts = some (a, us)) : Passes ts us ∧ LiteralGiven a := by
  simp only [charLit, Option.bind_eq_bind, Option.bind_eq_some_iff] at h
  obtain ⟨⟨t1, vs⟩, h1, ⟨t2, ws⟩, h2, ⟨t3, us'⟩, h3, h⟩ := h
  cases h
  have p1 := expect_passes h1 (by simp)
  have p2 := expect_passes h2 (by simp)
  have p3 := expect_passes h3 (by simp)
  refine ⟨(p1.trans p2).trans p3, ?_, nofun⟩
  rintro c hc
  cases hc
  obtain ⟨rfl, ht2⟩ := expect_some h2
  exact hts t2 (p1.sub t2 (by simp)) (.inr ht2)

theorem strLit_consumed (h : strLit ts = some (a, us)) : Passes ts us ∧ LiteralGiven a := by
  simp only [strLit, Option.bind_eq_bind, Option.bind_eq_some_iff] at h
  obtain ⟨⟨t1, vs⟩, h1, ⟨t2, ws⟩, h2, ⟨t3, us'⟩, h3, value, -, h⟩ := h
  cases h
  have p1 := expect_passes h1 (by simp)
  have p2 := expect_passes h2 (by simp)
  have p3 := expect_passes h3 (by simp)
  refine ⟨(p1.trans p2).trans p3, nofun, ?_⟩
  rintro text n he
  cases he
  rfl

theorem labelCall_consumed (h : labelCall ts = some (a, us)) : Passes ts us ∧ LiteralGiven a := by
  simp only [labelCall, Option.bind_eq_bind, Option.bind_eq_some_iff] at h
  obtain ⟨⟨x, vs⟩, h1, h⟩ := h
  cases h
  exact ⟨expect_passes h1 (by simp), ⟨nofun, nofun⟩⟩

/-- What there is, if anything, has its texts. -/
def Given (a : Option TasmAst) : Prop := ∀ x ∈ a, LiteralGiven x

theorem map_some_eq {β : Type} {o : Option (β × Tokens)} {b : Option β} (h : o.map (Prod.map some id) = some (b, us)) :
    ∃ x, b = some x ∧ o = some (x, us) := by
  obtain ⟨⟨x, vs⟩, hx, he⟩ := Option.map_eq_some_iff.mp h
  cases he
  exact ⟨x, rfl, hx⟩

theorem isNumber_of_isInt (h : isInt t.type = true) : isNumber t.type = true := by
  simp only [isInt, isNumber, Bool.or_eq_true, beq_iff_eq] at h ⊢
  rcases h with h | h <;> simp [h]

variable {o : Option TasmAst}

theorem number_consumed (h : number ts = some (o, us)) :
    Passes ts us ∧ Given o ∧ (o.isSome = true ↔ isNumber (first (skip .minus ts)) = true) := by
  have hp := skip_passes .minus ts (by simp)
  unfold number at h
  generalize skip .minus ts = vs at h hp ⊢
  split at h
  · rename_i hn
    obtain ⟨x, rfl, hx⟩ := map_some_eq h
    obtain ⟨hq, hg⟩ := numLit_consumed hn hx
    exact ⟨hp.trans hq, by simpa [Given] using hg, by simp [hn]⟩
  · rename_i hn
    cases h
    exact ⟨hp, by simp [Given], by simp [hn]⟩

theorem int_consumed (h : int ts = some (o, us)) : Passes ts us ∧ Given o := by
  unfold int at h
  split at h
  · rename_i hi
    obtain ⟨x, rfl, hx⟩ := map_some_eq h
    obtain ⟨hp, hg⟩ := numLit_consumed (isNumber_of_isInt hi) hx
    exact ⟨hp, by simpa [Given] using hg⟩
  · cases h
    exact ⟨.refl _, by simp [Given]⟩

theorem label_consumed (h : label ts = some (o, us)) : Passes ts us ∧ Given o := by
  unfold label at h
  split at h
  · obtain ⟨x, rfl, hx⟩ := map_some_eq h
    obtain ⟨hp, hg⟩ := labelCall_consumed hx
    exact ⟨hp, by simpa [Given] using hg⟩
  · cases h
    exact ⟨.refl _, by simp [Given]⟩

theorem pushOperand_consumed (hts : Texts ts) (h : pushOperand ts = some (o, us)) : Passes ts us ∧ Given o := by
  unfold pushOperand at h
  split at h
  · obtain ⟨x, rfl, hx⟩ := map_some_eq h
    obtain ⟨hp, hg⟩ := charLit_consumed hts hx
    exact ⟨hp, by simpa [Given] using hg⟩
  · exact ⟨(number_consumed h).1, (number_consumed h).2.1⟩

theorem jumpOperand_consumed (h : jumpOperand ts = some (o, us)) : Passes ts us ∧ Given o := by
  unfold jumpOperand at h
  split at h
  · exact int_consumed h
  · exact label_consumed h

theorem operand_consumed (hts : Texts ts) {k : OperandKind} (h : operand k ts = some (o, us)) : Passes ts us ∧ Given o := by
  cases k with
  | nothing => cases h; exact ⟨.refl _, by simp [Given]⟩
  | push => exact pushOperand_consumed hts (Option.filter_eq_some_iff.mp h).1
  | int => exact int_consumed (Option.filter_eq_some_iff.mp h).1
  | jump => exact jumpOperand_consumed (Option.filter_eq_some_iff.mp h).1
  | label => exact label_consumed (Option.filter_eq_some_iff.mp h).1

theorem endOfLine_passes (h : Grammar.endOfLine ts = some us) : Passes ts us := by
  have hs := skip_passes .comment ts (by simp)
  unfold Grammar.endOfLine at h
  generalize skip .comment ts = vs at h hs
  rcases vs with _ | ⟨t, ws⟩
  · cases h; exact hs
  · dsimp only at h
    split at h
    · rename_i ht
      cases h
      exact hs.trans ((Passes.refl _).cons (by simp [ht]))
    · cases h

end Consumed

/-! ## Lines -/

/-- The literal in an item: the operand of an instruction, or the value of `@data`. -/
def Item.literal? : Item → Option TasmAst
  | .inst _ _ operand => operand
  | .metadata (.data value) => value
  | _ => none

/-- All characters of a line are there. -/
def LineGiven (l : TasmAst) : Prop := ∀ i ∈ fileItems l, Given i.literal?

section Lines

variable {ts us : Tokens} {l : TasmAst} {o : Option TasmAst}

theorem instruction_consumed (hts : Texts ts) (h : instruction ts = some (l, us)) :
    Passes ts us ∧ ∃ op name a, l = .op op name a ∧ Given a := by
  rcases ts with _ | ⟨t, vs⟩
  · cases h
  simp only [instruction] at h
  split at h
  · rename_i op hop
    simp only [Option.bind_eq_bind, Option.bind_eq_some_iff] at h
    obtain ⟨⟨a, ws⟩, ha, xs, hend, h⟩ := h
    cases h
    have hcons : Passes (t :: vs) vs := (Passes.refl vs).cons (by simp [hop])
    obtain ⟨hp, hg⟩ := operand_consumed (hts.passes hcons) ha
    exact ⟨(hcons.trans hp).trans (endOfLine_passes hend), op, t.value, a, rfl, hg⟩
  · cases h

theorem labelDecl_consumed (h : labelDecl ts = some (l, us)) : Passes ts us ∧ ∃ n, l = .labelDecl n := by
  simp only [labelDecl, Option.bind_eq_bind, Option.bind_eq_some_iff] at h
  obtain ⟨⟨x, vs⟩, h1, ⟨c, ws⟩, h2, h⟩ := h
  cases h
  exact ⟨(expect_passes h1 (by simp)).trans (expect_passes h2 (by simp)), _, rfl⟩

theorem blank_passes (ts : Tokens) : Passes ts (blank ts) :=
  (skip_passes .endline ts (by simp)).trans (skip_passes .comment _ (by simp))

/-- A line of a proc is an instruction or a label, if it is one. -/
theorem procLine_consumed (hts : Texts ts) (h : procLine ts = some (o, us)) :
    Passes ts us ∧ ∀ l ∈ o, ∀ scope, Given (lineItem scope l).literal? := by
  unfold procLine at h
  split at h
  · obtain ⟨l, rfl, hl⟩ := map_some_eq h
    obtain ⟨hp, n, rfl⟩ := labelDecl_consumed hl
    exact ⟨hp, by simp [lineItem, Item.literal?, Given]⟩
  split at h
  · obtain ⟨l, rfl, hl⟩ := map_some_eq h
    obtain ⟨hp, op, name, a, rfl, hg⟩ := instruction_consumed hts hl
    exact ⟨hp, by simpa [lineItem, Item.literal?] using hg⟩
  split at h
  · cases h
  · cases h
    exact ⟨blank_passes ts, by simp⟩

theorem proc_consumed (hts : Texts ts) {fuel : Nat} (h : Grammar.proc fuel ts = some (l, us)) :
    Passes ts us ∧ (∃ n ls, l = .proc n ls) ∧ LineGiven l := by
  simp only [Grammar.proc, Option.bind_eq_bind, Option.bind_eq_some_iff] at h
  obtain ⟨⟨t, vs⟩, h1, ⟨x, ws⟩, h2, ⟨ls, xs⟩, hls, ⟨e, ys⟩, h3, zs, hend, h⟩ := h
  cases h
  have p2 := (expect_passes h1 (by simp)).trans (expect_passes h2 (by simp))
  obtain ⟨hp, hg⟩ := many_rule
    (P := fun ts ls us => Texts ts → Passes ts us ∧ ∀ l ∈ ls, ∀ scope, Given (lineItem scope l).literal?)
    (fun ts _ _ => ⟨.refl ts, by simp⟩)
    (fun ts o us ls vs hl ih hts => by
      obtain ⟨hp, hg⟩ := procLine_consumed hts hl
      obtain ⟨hp', hg'⟩ := ih (hts.passes hp)
      refine ⟨hp.trans hp', fun l hl => ?_⟩
      rcases List.mem_append.mp hl with hl | hl
      · exact hg l (Option.mem_toList.mp hl)
      · exact hg' l hl) hls (hts.passes p2)
  refine ⟨((p2.trans hp).trans (expect_passes h3 (by simp))).trans (endOfLine_passes hend), ⟨x.value, ls, rfl⟩, ?_⟩
  intro i hi
  simp only [fileItems, List.mem_cons, List.mem_map] at hi
  rcases hi with rfl | ⟨l, hl, rfl⟩
  · simp [Item.literal?, Given]
  · exact hg l hl _

theorem ctype_consumed {b : Byte} (h : ctype ts = some (b, us)) : Passes ts us := by
  rcases ts with _ | ⟨t, vs⟩
  · cases h
  · simp only [ctype] at h
    split at h
    · rename_i c hc
      cases h
      exact (Passes.refl _).cons (by simp [hc])
    · cases h

theorem ctypes_consumed : ∀ {fuel : Nat} {ts us : Tokens} {bs : List Byte}, ctypes fuel ts = some (bs, us) → Passes ts us
  | 0, ts, us, bs, h => by
    simp only [ctypes] at h
    split at h
    · cases h; exact .refl _
    · cases h
  | fuel + 1, ts, us, bs, h => by
    simp only [ctypes] at h
    split at h
    · cases h; exact .refl _
    · simp only [Option.bind_eq_bind, Option.bind_eq_some_iff] at h
      obtain ⟨⟨c, vs⟩, hc, ⟨cs, ws⟩, hcs, h⟩ := h
      cases h
      exact (ctype_consumed hc).trans (ctypes_consumed hcs)

theorem cfunction_consumed {fuel : Nat} (h : Grammar.cfunction fuel ts = some (l, us)) :
    Passes ts us ∧ ∃ r a n f, l = .cfunction r a n f := by
  simp only [Grammar.cfunction, Option.bind_eq_bind, Option.bind_eq_some_iff] at h
  obtain ⟨⟨t, vs⟩, h1, ⟨r, ws⟩, hr, ⟨f, xs⟩, hf, ⟨as, ys⟩, has, h⟩ := h
  cases h
  exact ⟨(((expect_passes h1 (by simp)).trans (ctype_consumed hr)).trans (expect_passes hf (by simp))).trans
    (ctypes_consumed has), _, _, _, _, rfl⟩

end Lines

/-! ## Constants -/

/-- A value comes next: a literal, or a minus and a number. -/
def ValueAhead (ts : Tokens) : Prop :=
  first ts = .quota ∨ first ts = .apost ∨ isNumber (first (skip .minus ts)) = true

instance (ts : Tokens) : Decidable (ValueAhead ts) := inferInstanceAs (Decidable (_ ∨ _))

/-- Every `@data` is followed by a value. -/
def DataGiven (ts : Tokens) : Prop :=
  ∀ a d us, a :: d :: us <:+ ts → a.type = .atSign → d.type = .data → ValueAhead us

section Constants

variable {ts us : Tokens} {l : TasmAst} {o : Option TasmAst} {t : TasmToken}

theorem dataGiven_cons : DataGiven (t :: ts) ↔
    (t.type = .atSign → first ts = .data → ValueAhead ts.tail) ∧ DataGiven ts := by
  constructor
  · intro h
    constructor
    · rintro ht hf
      rcases ts with _ | ⟨d, us⟩
      · cases hf
      · exact h t d us (List.suffix_refl _) ht hf
    · intro a d us hs
      exact h a d us (hs.trans (List.suffix_cons _ _))
  · rintro ⟨h1, h2⟩ a d us hs ha hd
    rcases List.suffix_cons_iff.mp hs with heq | hs
    · cases heq
      exact h1 ha hd
    · exact h2 a d us hs ha hd

theorem dataGiven_passes (h : Passes ts us) : DataGiven ts ↔ DataGiven us := by
  obtain ⟨c, rfl, hc⟩ := h
  induction c with
  | nil => rfl
  | cons t c ih =>
    simp only [List.forall_mem_cons] at hc
    rw [List.cons_append, dataGiven_cons, ih hc.2]
    exact and_iff_right fun ht => absurd ht hc.1

theorem dataValue_consumed (hts : Texts ts) (h : dataValue ts = some (o, us)) :
    Passes ts us ∧ Given o ∧ (o.isSome = true ↔ ValueAhead ts) := by
  unfold dataValue at h
  split at h
  · rename_i hq
    obtain ⟨x, rfl, hx⟩ := map_some_eq h
    obtain ⟨hp, hg⟩ := strLit_consumed hx
    exact ⟨hp, by simpa [Given] using hg, by simp [ValueAhead, hq]⟩
  split at h
  · rename_i ha
    obtain ⟨x, rfl, hx⟩ := map_some_eq h
    obtain ⟨hp, hg⟩ := charLit_consumed hts hx
    exact ⟨hp, by simpa [Given] using hg, by simp [ValueAhead, ha]⟩
  · rename_i hq ha
    obtain ⟨hp, hg, hv⟩ := number_consumed h
    exact ⟨hp, hg, by simp [ValueAhead, hq, ha, hv]⟩

theorem data_consumed (hts : Texts ts) (h : Grammar.data ts = some (l, us)) :
    ∃ t vs v, ts = t :: vs ∧ t.type = .data ∧ Passes ts us ∧ l = .data v ∧ Given v ∧ (v.isSome = true ↔ ValueAhead vs) := by
  simp only [Grammar.data, Option.bind_eq_bind, Option.bind_eq_some_iff] at h
  obtain ⟨⟨t, vs⟩, h1, ⟨v, ws⟩, hv, h⟩ := h
  cases h
  obtain ⟨rfl, ht⟩ := expect_some h1
  have hcons : Passes (t :: vs) vs := (Passes.refl vs).cons (by simp [ht])
  obtain ⟨hp, hg, hiff⟩ := dataValue_consumed (hts.passes hcons) hv
  exact ⟨t, vs, v, rfl, ht, hcons.trans hp, rfl, hg, hiff⟩

/-- What a line is: its characters are given, and it is a constant without a value if and only if it is an `@data`
that is not followed by one. -/
theorem line_consumed (hts : Texts ts) {fuel : Nat} (h : line fuel ts = some (o, us)) :
    (∀ t ∈ us, t ∈ ts) ∧ (∀ l ∈ o, LineGiven l) ∧ (DataGiven ts ↔ o ≠ some (.data none) ∧ DataGiven us) := by
  -- on a line without constants only the rest matters
  have plain {o : Option TasmAst} {us : Tokens} (hp : Passes ts us) (hg : ∀ l ∈ o, LineGiven l)
      (hne : o ≠ some (.data none)) : (∀ t ∈ us, t ∈ ts) ∧ (∀ l ∈ o, LineGiven l) ∧
        (DataGiven ts ↔ o ≠ some (.data none) ∧ DataGiven us) :=
    ⟨hp.sub, hg, by simp [dataGiven_passes hp, hne]⟩
  unfold line at h
  split at h
  · obtain ⟨l, rfl, hl⟩ := map_some_eq h
    obtain ⟨hp, n, rfl⟩ := labelDecl_consumed hl
    exact plain hp (by simp [LineGiven, fileItems, lineItem, Item.literal?, Given]) (by simp)
  split at h
  · obtain ⟨l, rfl, hl⟩ := map_some_eq h
    obtain ⟨hp, ⟨n, ls, rfl⟩, hg⟩ := proc_consumed hts hl
    exact plain hp (by simpa using hg) (by simp)
  split at h
  · obtain ⟨l, rfl, hl⟩ := map_some_eq h
    obtain ⟨hp, op, name, a, rfl, hg⟩ := instruction_consumed hts hl
    exact plain hp (by simpa [LineGiven, fileItems, lineItem, Item.literal?] using hg) (by simp)
  split at h
  · -- behind the `@`
    rename_i hat
    obtain ⟨l, rfl, hl⟩ := map_some_eq h
    simp only [metadata, Option.bind_eq_bind, Option.bind_eq_some_iff] at hl
    obtain ⟨⟨t, vs⟩, h1, hl⟩ := hl
    obtain ⟨rfl, ht⟩ := expect_some h1
    have htail : Texts vs := fun u hu => hts u (List.mem_cons_of_mem _ hu)
    have other (hd : first vs ≠ .data) (hp : Passes vs us) (hg : LineGiven l) (hne : l ≠ .data none) :
        (∀ u ∈ us, u ∈ t :: vs) ∧ (∀ x ∈ some l, LineGiven x) ∧
          (DataGiven (t :: vs) ↔ some l ≠ some (.data none) ∧ DataGiven us) := by
      refine ⟨fun u hu => List.mem_cons_of_mem _ (hp.sub u hu), by simpa using hg, ?_⟩
      rw [dataGiven_cons, dataGiven_passes hp]
      simp [hd, hne]
    dsimp only at hl
    split at hl
    · rename_i hf
      obtain ⟨hp, r, a, n, f, rfl⟩ := cfunction_consumed hl
      exact other (by simp [hf]) hp (by simp [LineGiven, fileItems, lineItem, Item.literal?, Given]) (by simp)
    split at hl
    · rename_i hf
      simp only [cstruct, Option.bind_eq_bind, Option.bind_eq_some_iff] at hl
      obtain ⟨⟨u, ws⟩, h2, hl⟩ := hl
      cases hl
      exact other (by simp [hf]) (expect_passes h2 (by simp))
        (by simp [LineGiven, fileItems, lineItem, Item.literal?, Given]) (by simp)
    split at hl
    · rename_i hf
      obtain ⟨d, ws, v, rfl, hd, hp, rfl, hg, hv⟩ := data_consumed htail hl
      refine ⟨fun u hu => List.mem_cons_of_mem _ (hp.sub u hu), ?_, ?_⟩
      · simpa [LineGiven, fileItems, lineItem, Item.literal?] using hg
      · rw [dataGiven_cons, dataGiven_passes hp]
        have hne : some (TasmAst.data v) ≠ some (.data none) ↔ v.isSome = true := by
          cases v <;> simp
        rw [hne, hv]
        exact and_congr_left' ⟨fun h => h ht hf, fun h _ _ => h⟩
    · cases hl
  split at h
  · cases h
  · cases h
    exact plain (blank_passes ts) (by simp) (by simp)

/-- The file has its characters, and the constants without a value are the `@data` that no value follows. -/
theorem file_consumed (hts : Texts ts) (heof : ∀ t ∈ ts, t.type ≠ .eof) {fuel : Nat} {ast : TasmAst}
    (h : file fuel ts = some (ast, us)) :
    ∃ lines, ast = .file lines ∧ (∀ l ∈ lines, LineGiven l) ∧ (DataGiven ts ↔ .data none ∉ lines) := by
  simp only [file, Option.bind_eq_bind, Option.bind_eq_some_iff] at h
  obtain ⟨⟨lines, vs⟩, hlines, ws, -, h⟩ := h
  cases h
  refine ⟨lines, rfl, ?_⟩
  refine many_rule (P := fun ts ls _ => Texts ts → (∀ t ∈ ts, t.type ≠ .eof) →
    (∀ l ∈ ls, LineGiven l) ∧ (DataGiven ts ↔ .data none ∉ ls)) ?_ ?_ hlines hts heof
  · rintro ts hstop - heof
    rcases ts with _ | ⟨t, us⟩
    · exact ⟨by simp, by simp [DataGiven]⟩
    · exact absurd (by simpa [first] using hstop) (heof t (by simp))
  · rintro ts o us ls vs hl ih hts heof
    obtain ⟨hsub, hg, hiff⟩ := line_consumed hts hl
    obtain ⟨hg', hiff'⟩ := ih (fun t ht => hts t (hsub t ht)) fun t ht => heof t (hsub t ht)
    constructor
    · intro l hl
      rcases List.mem_append.mp hl with hl | hl
      · exact hg l (Option.mem_toList.mp hl)
      · exact hg' l hl
    · rw [hiff, hiff', List.mem_append, Option.mem_toList, not_or]

end Constants

/-! ## Complete trees -/

/-- Every node is there, with the names, texts and kinds of operand that the translator relies on. -/
structure Complete (ast : TasmAst) : Prop where
  shape : WellFormed (fun name => name.isSome = true) ast
  literals : ∀ i ∈ ast.items, Given i.literal?
  values : ∀ value, .metadata (.data value) ∈ ast.items → value.isSome = true

/-- An item of a complete tree. -/
structure ItemComplete (i : Item) : Prop where
  fits : ItemFits (fun name => name.isSome = true) i
  literal : Given i.literal?
  value : ∀ value, i = .metadata (.data value) → value.isSome = true

theorem Complete.item {ast : TasmAst} (h : Complete ast) {i : Item} (hi : i ∈ ast.items) : ItemComplete i :=
  ⟨items_fit h.shape i hi, h.literals i hi, fun value heq => h.values value (heq ▸ hi)⟩

/-- The constants of the document are those of the lines of the file. -/
theorem data_mem_items {N : Option CStr → Prop} {lines : List TasmAst} (h : WellFormed N (.file lines))
    (value : Option TasmAst) : .metadata (.data value) ∈ (TasmAst.file lines).items ↔ .data value ∈ lines := by
  constructor
  · intro hi
    obtain ⟨l, hl, hi⟩ := List.mem_flatMap.mp hi
    obtain ⟨_, h⟩ := h
    cases h l hl with
    | line _ hline =>
      cases hline with
      | op | labelDecl => simp [fileItems, lineItem] at hi
    | proc name ls _ hls =>
      simp only [fileItems, List.mem_cons, List.mem_map, reduceCtorEq, false_or] at hi
      obtain ⟨l', hl', he⟩ := hi
      cases hls l' hl' with
      | op | labelDecl => simp [lineItem] at he
    | cfunction | cstruct => simp [fileItems, lineItem] at hi
    | data v _ =>
      simp only [fileItems, lineItem, List.mem_singleton, Item.metadata.injEq, TasmAst.data.injEq] at hi
      exact hi ▸ hl
  · intro hl
    exact List.mem_flatMap.mpr ⟨_, hl, by simp [fileItems, lineItem]⟩

section Accepted

variable {ts : Tokens} {fuel : Nat} {ast : TasmAst} {p : TasmParser}

/-- The tree of an accepted program has all its names and characters. -/
theorem accepted_given (htexts : Texts ts) (heof : ∀ t ∈ ts, t.type ≠ .eof)
    (hparse : tasmParseFile fuel (tasmParserInit ts) = .ok (ast, p)) (hp : p.isErr = false) :
    WellFormed (fun name => name.isSome = true) ast ∧ ∀ i ∈ ast.items, Given i.literal? := by
  refine ⟨wellFormed_of_parse (ids_init fun t ht hid => htexts t ht (.inl hid)) hparse hp, fun i hi => ?_⟩
  obtain ⟨us, hfile⟩ := (parse_ok_iff heof).mp ⟨p, hparse, hp⟩
  obtain ⟨lines, rfl, hg, -⟩ := file_consumed htexts heof hfile
  obtain ⟨l, hl, hi⟩ := List.mem_flatMap.mp hi
  exact hg l hl i hi

/-- An accepted program whose constants have their values is complete. -/
theorem complete_of_values (htexts : Texts ts) (heof : ∀ t ∈ ts, t.type ≠ .eof)
    (hparse : tasmParseFile fuel (tasmParserInit ts) = .ok (ast, p)) (hp : p.isErr = false)
    (hvalues : ∀ value, .metadata (.data value) ∈ ast.items → value.isSome = true) : Complete ast := by
  obtain ⟨hshape, hliterals⟩ := accepted_given htexts heof hparse hp
  exact ⟨hshape, hliterals, hvalues⟩

/-- An accepted program is complete if and only if a value follows every `@data`. -/
theorem complete_iff (htexts : Texts ts) (heof : ∀ t ∈ ts, t.type ≠ .eof)
    (hparse : tasmParseFile fuel (tasmParserInit ts) = .ok (ast, p)) (hp : p.isErr = false) :
    Complete ast ↔ DataGiven ts := by
  have hshape : WellFormed (fun name => name.isSome = true) ast :=
    wellFormed_of_parse (ids_init fun t ht hid => htexts t ht (.inl hid)) hparse hp
  obtain ⟨us, hfile⟩ := (parse_ok_iff heof).mp ⟨p, hparse, hp⟩
  obtain ⟨lines, rfl, -, hiff⟩ := file_consumed htexts heof hfile
  rw [hiff]
  constructor
  · intro h hmem
    cases h.values none ((data_mem_items hshape none).mpr hmem)
  · intro hno
    apply complete_of_values htexts heof hparse hp
    rintro value hi
    rcases value with _ | v
    · exact absurd ((data_mem_items hshape none).mp hi) hno
    · rfl

end Accepted

/-! ## The translator on complete trees -/

/-- A pass that follows no `NULL`. -/
def NoNull {α : Type} (x : Tr α) : Prop := x.Post (· ≠ .fault .nullPointer) fun _ => True

section Translator

variable {t : TasmTranslator} {N : Option CStr → Prop}

theorem pushSymbol_noNull (a : ArrayName) (n : Nat) (table : List Symbol) (s : Symbol) :
    NoNull (pushSymbol a n table s) := by
  unfold pushSymbol
  exact .ite (fun _ => .ok trivial) fun _ => .error (by simp)

theorem declareProc_noNull (t : TasmTranslator) (n : CStr) : NoNull (declareProc t (some n)) := by
  unfold declareProc
  refine .bind (.ok (.ite (fun _ => .error (by simp)) fun _ => .bind ?_))
  exact (pushSymbol_noNull _ _ _ _).mono (fun _ h => h) fun _ _ => .ok trivial

theorem declareLabel_noNull (t : TasmTranslator) (scope : Option CStr) (l : CStr) :
    NoNull (declareLabel t scope (some l)) := by
  unfold declareLabel
  refine .bind (.ok (.ite (fun _ => .error (by simp)) fun _ => .bind ?_))
  exact (pushSymbol_noNull _ _ _ _).mono (fun _ h => h) fun _ _ => .ok trivial

/-- What `@cfun` and `@data` write is the same in both states. -/
structure SameTables (t t' : TasmTranslator) : Prop where
  metadata : t'.program.metadata = t.program.metadata
  constTable : t'.program.constTable = t.program.constTable
  beginningAddress : t'.beginningAddress = t.beginningAddress

theorem SameTables.trans {t₁ t₂ t₃ : TasmTranslator} (h : SameTables t₁ t₂) (h' : SameTables t₂ t₃) : SameTables t₁ t₃ :=
  ⟨h'.metadata.trans h.metadata, h'.constTable.trans h.constTable, h'.beginningAddress.trans h.beginningAddress⟩

/-- The translation of an instruction: it follows no `NULL`, and leaves the tables of the metadata alone. -/
def Emits (t : TasmTranslator) (x : Tr TasmTranslator) : Prop := x.Post (· ≠ .fault .nullPointer) (SameTables t)

theorem programPush_emits (t : TasmTranslator) (c : Opcode) : Emits t (programPush t c) := by
  unfold programPush
  split
  · exact .ok ⟨rfl, rfl, rfl⟩
  · rename_i e he
    obtain ⟨rfl, -⟩ := CArray.store_error he
    exact .error (by simp)

theorem translateLabelCall_emits (t : TasmTranslator) (scope : Option CStr) (b : Bool) (l : CStr) :
    (translateLabelCall t scope b (some l)).Post (· ≠ .fault .nullPointer) fun r => SameTables t r.1 := by
  unfold translateLabelCall
  refine .bind (.ok (.ite (fun _ => .ok ⟨rfl, rfl, rfl⟩) fun _ => .bind ?_))
  exact (pushSymbol_noNull _ _ _ _).mono (fun _ h => h) fun _ _ => .ok ⟨rfl, rfl, rfl⟩

theorem translateJump_emits (t : TasmTranslator) (o : OpType) (scope : Option CStr) (l : CStr) :
    Emits t (translateJump t o scope (some (.labelCall (some l)))) := by
  unfold translateJump
  refine .bind (.ok (.bind ?_))
  refine (translateLabelCall_emits t scope false l).mono (fun _ h => h) fun r hr => ?_
  exact .ite (fun _ => .ok hr) fun _ => (programPush_emits _ _).mono (fun _ h => h) fun _ h => hr.trans h

theorem translateCall_emits (t : TasmTranslator) (l : CStr) :
    Emits t (translateCall t (some (.labelCall (some l)))) := by
  unfold translateCall
  refine .bind (.ok (.bind ?_))
  refine (translateLabelCall_emits t none true l).mono (fun _ h => h) fun r hr => ?_
  exact .ite (fun _ => .ok hr) fun _ => (programPush_emits _ _).mono (fun _ h => h) fun _ h => hr.trans h

/-- An instruction with an operand of its kind, and with its character. -/
theorem inst_emits {scope : Option CStr} {o : OpType} {operand : Option TasmAst}
    (h : o.operandKind.Fits (fun name => name.isSome = true) operand) (hg : Given operand) (t : TasmTranslator) :
    Emits t (tasmTranslateLine t scope false (.op o none operand)) := by
  generalize hk : o.operandKind = kind at h
  cases h with
  | nothing =>
    rw [translateLine_nothing hk]
    exact programPush_emits _ _
  | pushNumber text v =>
    obtain rfl := operandKind_push hk
    exact programPush_emits _ _
  | pushChar c =>
    obtain rfl := operandKind_push hk
    obtain ⟨s, rfl⟩ := Option.isSome_iff_exists.mp ((hg _ rfl).char c rfl)
    exact programPush_emits _ _
  | int text v =>
    rw [translateLine_int hk]
    exact programPush_emits _ _
  | jumpNumber text v =>
    rw [(translateLine_jump hk t scope _).1]
    exact programPush_emits _ _
  | jumpLabel n hn =>
    obtain ⟨l, rfl⟩ := Option.isSome_iff_exists.mp hn
    rw [(translateLine_jump hk t scope _).1]
    exact translateJump_emits t o scope l
  | label n hn =>
    obtain rfl := operandKind_label hk
    obtain ⟨l, rfl⟩ := Option.isSome_iff_exists.mp hn
    exact translateCall_emits t l

theorem cfunction_noNull (t : TasmTranslator) (r : Byte) (as : List Byte) (n : Option CStr) :
    NoNull (tasmTranslateCfunction t r as n) := by
  unfold tasmTranslateCfunction
  dsimp only
  split
  · exact .ok trivial
  · rename_i e he
    rcases Except.bind_error he with he | ⟨m, -, he⟩
    · obtain ⟨rfl, -⟩ := CArray.load_error he
      exact .error (by simp)
    rcases Except.bind_error he with he | ⟨cs, -, he⟩
    · obtain ⟨rfl, -⟩ := CArray.store_error he
      exact .error (by simp)
    · obtain ⟨rfl, -⟩ := CArray.store_error he
      exact .error (by simp)

theorem data_noNull (t : TasmTranslator) {v : TasmAst} (hv : LiteralGiven v) : NoNull (tasmTranslateData t (some v)) := by
  unfold tasmTranslateData
  refine .bind (.ok (.bind ?_))
  cases v with
  | char c =>
    obtain ⟨s, rfl⟩ := Option.isSome_iff_exists.mp (hv.char c rfl)
    exact .ok (.ok trivial)
  | _ => exact .ok (.ok trivial)

/-- Every item of a complete tree passes the three steps. -/
theorem steps_noNull {ast : TasmAst} (h : Complete ast) {i : Item} (hi : i ∈ ast.items) (t : TasmTranslator) :
    NoNull (procStep t i) ∧ NoNull (labelStep t i) ∧ NoNull (emitStep t i) := by
  have hg := h.literals i hi
  cases items_fit h.shape i hi with
  | inst scope o operand _ hfit =>
    exact ⟨.ok trivial, .ok trivial, (inst_emits hfit hg t).mono (fun _ h => h) fun _ _ => trivial⟩
  | label scope name _ hn =>
    obtain ⟨l, rfl⟩ := Option.isSome_iff_exists.mp hn
    exact ⟨.ok trivial, declareLabel_noNull t scope l, .ok trivial⟩
  | proc name hn =>
    obtain ⟨n, rfl⟩ := Option.isSome_iff_exists.mp hn
    exact ⟨declareProc_noNull t n, .ok trivial, .ok trivial⟩
  | metadata node hnode hline =>
    refine ⟨.ok trivial, .ok trivial, ?_⟩
    cases hnode with
    | line _ h => exact absurd h hline
    | proc | cstruct => exact .ok trivial
    | cfunction r as n => exact cfunction_noNull t r as n
    | data value hfit =>
      obtain ⟨v, rfl⟩ := Option.isSome_iff_exists.mp (h.values value hi)
      exact data_noNull t (hg v rfl)

end Translator

theorem Complete.noNull {ast : TasmAst} (h : Complete ast) : tasmTranslate ast ≠ .error (.fault .nullPointer) := by
  have pass {f : TasmTranslator → Item → Tr TasmTranslator} (hf : ∀ i ∈ ast.items, ∀ t, NoNull (f t i))
      (t : TasmTranslator) : NoNull (ast.items.foldlM f t) :=
    Except.foldlM_post (fun _ _ => True) ast.items [] t
      (fun pre i post c heq _ => hf i (by rw [← List.nil_append ast.items, heq]; simp) c) trivial
  have hpost : NoNull (tasmTranslate ast) := by
    unfold tasmTranslate
    rw [resolveProcs_eq h.shape]
    refine .bind ((pass (fun i hi t => (steps_noNull h hi t).1) _).mono (fun _ h => h) fun t₁ _ => ?_)
    rw [resolveLabels_eq h.shape]
    refine .bind ((pass (fun i hi t => (steps_noNull h hi t).2.1) _).mono (fun _ h => h) fun t₂ _ => ?_)
    rw [translateUnit_eq h.shape]
    exact pass (fun i hi t => (steps_noNull h hi t).2.2) _
  intro he
  exact hpost.of_error he rfl

/-! ## Accepted programs -/

/-- A name of at most 127 identifier characters. -/
def ShortName (name : Option CStr) : Prop := IdName name ∧ ∀ v, name = some v → v.length ≤ 127

/-- What the lexer makes of a token's text: it fits the buffer, and an identifier holds nothing but its characters. -/
def TextFits (t : TasmToken) : Prop :=
  t.type = .none ∨ ∃ v, t.value = some v ∧ v.length ≤ 127 ∧ (t.type = .id → ∀ b ∈ v, isIdChar b = true)

theorem tempEnd_fits {text : List Byte} (type : CStr → TokenType) (lx : TasmLexer)
    (hid : type text = .id → ∀ b ∈ text, isIdChar b = true) :
    (tempEnd text >>= fun val => .ok (⟨type val, some val⟩, lx) : Lex (TasmToken × TasmLexer)).Post (fun _ => True)
      fun r => TextFits r.1 := by
  by_cases h : text.length < 128
  · rw [show tempEnd text = .ok text from if_pos h]
    exact .ok (.inr ⟨text, rfl, by omega, hid⟩)
  · rw [show tempEnd text = .error _ from if_neg h]
    trivial

/-- The loop of `tasm_lexer_collect_id` takes identifier characters only. -/
theorem collectWhile_all (p : Byte → Bool) (fuel : Nat) (s : TasmLexer × List Byte) (hs : ∀ b ∈ s.2, p b = true) :
    (collectWhile p fuel s).Post (fun _ => True) fun r => ∀ b ∈ r.2, p b = true := by
  unfold collectWhile
  refine (Loop.run_post trivial (fun s : TasmLexer × List Byte => ∀ b ∈ s.2, p b = true) (fun s hs hp => ?_) fuel s
    hs).mono (fun _ h => h) fun _ h => h.1
  refine .map (.ite (fun _ => ?_) fun _ => trivial)
  intro b hb
  rcases List.mem_append.mp hb with hb | hb
  · exact hs b hb
  · rw [List.mem_singleton.mp hb]
    exact hp

theorem getNextToken_text (fuel : Nat) (lx : TasmLexer) :
    (tasmLexerGetNextToken fuel lx).Post (fun _ => True) fun r => TextFits r.1 := by
  have any (e : Stop Fault) : True := trivial
  unfold tasmLexerGetNextToken
  refine .ite (fun _ => ?_) fun _ => .ite (fun _ => ?_) fun _ => .bind_any any fun lx => ?_
  · exact .bind_any any fun _ => .bind_any any fun _ => tempEnd_fits (fun _ => .string) _ (by simp)
  · unfold tasmLexerCollectChar
    dsimp only
    split
    · exact .ok (.inl rfl)
    · exact .ok (.inr ⟨_, rfl, by simp, by simp⟩)
  unfold collectToken
  refine .ite (fun _ => ?_) fun _ => .ite (fun _ => ?_) fun _ => .ite (fun _ => ?_) fun _ => .ite (fun _ => ?_) fun _ => ?_
  · exact .bind ((collectWhile_all isIdChar fuel (lx, []) (by simp)).mono (fun _ h => h) fun r hr =>
      tempEnd_fits wordType r.1 fun _ => hr)
  · exact .bind_any any fun _ => tempEnd_fits (fun _ => .binaryNumber) _ (by simp)
  · exact .bind_any any fun _ => tempEnd_fits (fun _ => .hexNumber) _ (by simp)
  · refine .bind_any any fun _ => .ite (fun _ => ?_) fun _ => tempEnd_fits (fun _ => .decimalNumber) _ (by simp)
    exact .bind_any any fun _ => .bind_any any fun _ => tempEnd_fits (fun _ => .floatNumber) _ (by simp)
  · unfold lexerCollectOneChars
    dsimp only
    split
    · exact .ok (.inr ⟨_, rfl, by decide, by simp⟩)
    split
    · exact .bind_any any fun _ => .ok (.inr ⟨_, rfl, by decide, by simp⟩)
    repeat' split
    all_goals first
      | exact .ok (.inr ⟨_, rfl, by decide, by simp⟩)
      | exact .ok (.inl rfl)

theorem LexCall.text {lx lx' : TasmLexer} {t : TasmToken} (h : LexCall lx t lx') : TextFits t := by
  obtain ⟨fuel, hr⟩ := h
  exact (getNextToken_text fuel lx).of_ok hr

theorem LexTokens.text {lx : TasmLexer} {ts : Tokens} (h : LexTokens lx ts) : ∀ t ∈ ts, TextFits t := by
  induction h with
  | eof => simp
  | cons call ne rest ih =>
    intro t ht
    rcases List.mem_cons.mp ht with rfl | ht
    · exact call.text
    · exact ih t ht

/-- The texts that the lexer gives its tokens. -/
theorem LexTokens.texts {lx : TasmLexer} {ts : Tokens} (h : LexTokens lx ts) : Texts ts := by
  intro t ht hk
  rcases h.text t ht with hn | ⟨v, hv, -⟩
  · rw [hn] at hk
    simp at hk
  · rw [hv]
    rfl

/-- Identifiers are names, and the lexer's buffer holds 127 characters and a NUL. -/
theorem LexTokens.shortNames {lx : TasmLexer} {ts : Tokens} (h : LexTokens lx ts) :
    ∀ t ∈ ts, t.type = .id → ShortName t.value := by
  intro t ht hid
  rcases h.text t ht with hn | ⟨v, hv, hlen, hall⟩
  · rw [hn] at hid
    cases hid
  · rw [hv]
    refine ⟨⟨v, rfl, hall hid⟩, fun w hw => ?_⟩
    cases hw
    exact hlen

/-- On the tokens of a text, an accepted program is complete, and the translator follows no `NULL` on it, if and only if
a value follows every `@data`. -/
theorem accepted_complete_iff {fuel : Nat} {ts : List TasmToken} {ast : TasmAst} {p : TasmParser}
    (htexts : Texts ts) (heof : ∀ t ∈ ts, t.type ≠ .eof)
    (hparse : tasmParseFile fuel (tasmParserInit ts) = .ok (ast, p)) (hp : p.isErr = false) :
    (Complete ast ∧ tasmTranslate ast ≠ .error (.fault .nullPointer)) ↔ DataGiven ts := by
  rw [← complete_iff htexts heof hparse hp]
  exact ⟨fun h => h.1, fun h => ⟨h, h.noNull⟩⟩

/-- The tokens of a declaration of a constant, up to the end of the line. -/
def dataLine (value : List TasmToken) : List TasmToken :=
  [⟨.atSign, some (cstr "@")⟩, ⟨.data, some (cstr "data")⟩] ++ value ++ [⟨.endline, some (cstr "endl")⟩]

/-- The text `@data -7`. -/
theorem accepted_complete_number : ∃ ast p,
    tasmParseFile 9 (tasmParserInit (dataLine [⟨.minus, some (cstr "-")⟩, ⟨.decimalNumber, some (cstr "7")⟩])) =
      .ok (ast, p) ∧
    ((Complete ast ∧ tasmTranslate ast ≠ .error (.fault .nullPointer)) ↔
      DataGiven (dataLine [⟨.minus, some (cstr "-")⟩, ⟨.decimalNumber, some (cstr "7")⟩])) := by
  obtain ⟨ast, p, hparse, hp⟩ : ∃ ast p, tasmParseFile 9 (tasmParserInit
      (dataLine [⟨.minus, some (cstr "-")⟩, ⟨.decimalNumber, some (cstr "7")⟩])) = .ok (ast, p) ∧ p.isErr = false :=
    ⟨_, _, rfl, rfl⟩
  exact ⟨ast, p, hparse, accepted_complete_iff (by simp [Texts, dataLine]) (by decide) hparse hp⟩

/-- The text `@data` is accepted, and the translator follows the `NULL` of the missing value. -/
theorem data_without_value : ∃ ast p, tasmParseFile 9 (tasmParserInit (dataLine [])) = .ok (ast, p) ∧
    p.isErr = false ∧ ¬ Complete ast ∧ tasmTranslate ast = .error (.fault .nullPointer) := by
  refine ⟨.file [.data none], _, rfl, rfl, fun h => ?_, ?_⟩
  · cases h.values none (by simp [TasmAst.items, fileItems, lineItem])
  · rfl

end TileVm
