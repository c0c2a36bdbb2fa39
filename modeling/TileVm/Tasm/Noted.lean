/-
Comments at the ends of lines, among the tokens. The grammar does not see them: with or without one
it parses the same lines. What it needs is a turn more for a comment that it does not take together
with the end of the line.
-/
import TileVm.Tasm.Complete

namespace TileVm

open Grammar

/-- The same tokens, except for a comment at the end of a line that is in one of them only. No comment stands behind a
comment; the flag tells whether one may come first. -/
inductive Noted : Bool → Tokens → Tokens → Prop
  | nil (b : Bool) : Noted b [] []
  | added {c : TasmToken} {ts : Tokens} (hc : c.type = .comment) (hends : ts = [] ∨ first ts = .endline) :
    Noted true ts (c :: ts)
  | dropped {c : TasmToken} {ts : Tokens} (hc : c.type = .comment) (hends : ts = [] ∨ first ts = .endline) :
    Noted true (c :: ts) ts
  | cons (b : Bool) (t : TasmToken) {ts us : Tokens} (h : Noted (t.type != .comment) ts us) : Noted b (t :: ts) (t :: us)

theorem skip_cons (type : TokenType) (t : TasmToken) (ts : Tokens) :
    skip type (t :: ts) = if t.type = type then ts else t :: ts := rfl

/-- At the end of a line there is no comment to skip. -/
theorem skip_ends {ts : Tokens} (hends : ts = [] ∨ first ts = .endline) : skip .comment ts = ts := by
  unfold skip
  rcases hends with rfl | hends
  · rfl
  · rw [hends, if_neg (by simp)]

namespace Noted

variable {b : Bool} {ts us : Tokens}

theorem refl (b : Bool) (ts : Tokens) : Noted b ts ts := by
  induction ts generalizing b with
  | nil => exact .nil b
  | cons t ts ih => exact .cons b t (ih _)

theorem symm (h : Noted b ts us) : Noted b us ts := by
  induction h with
  | nil b => exact .nil b
  | added hc hends => exact .dropped hc hends
  | dropped hc hends => exact .added hc hends
  | cons b t _ ih => exact .cons b t ih

theorem weaken (h : Noted b ts us) : Noted true ts us := by
  cases h with
  | nil => exact .nil true
  | added hc hends => exact .added hc hends
  | dropped hc hends => exact .dropped hc hends
  | cons _ t h => exact .cons true t h

/-- What is the same at a comment, at the end of a line and at the end of the text, is the same on both sides. -/
theorem test {β : Type} (h : Noted b ts us) (f : TokenType → β) (hendline : f .endline = f .comment)
    (heof : f .eof = f .comment) : f (first us) = f (first ts) := by
  have hend {vs : Tokens} (hends : vs = [] ∨ first vs = .endline) : f (first vs) = f .comment := by
    rcases hends with rfl | hends
    · exact heof
    · rw [hends, hendline]
  cases h with
  | nil => rfl
  | added hc hends => exact (congrArg f hc).trans (hend hends).symm
  | dropped hc hends => exact (hend hends).trans (congrArg f hc).symm
  | cons => rfl

theorem tail (h : Noted false ts us) : Noted true ts.tail us.tail := by
  cases h with
  | nil => exact .nil true
  | cons _ t h => exact h.weaken

/-- Behind a comment the tokens begin with the same one. -/
theorem skip_comment (h : Noted true ts us) : Noted false (skip .comment ts) (skip .comment us) := by
  cases h with
  | nil => exact .refl _ _
  | added hc hends =>
    rw [skip_ends hends, skip_cons, if_pos hc]
    exact .refl _ _
  | dropped hc hends =>
    rw [skip_ends hends, skip_cons, if_pos hc]
    exact .refl _ _
  | cons _ t h =>
    rw [skip_cons, skip_cons]
    by_cases ht : t.type = .comment
    · rw [if_pos ht, if_pos ht]
      simpa [ht] using h
    · rw [if_neg ht, if_neg ht]
      exact .cons _ t h

/-- A token of another kind is skipped on both sides. -/
theorem skip_other {k : TokenType} (h : Noted true ts us) (hendline : k ≠ .endline) (hcomment : k ≠ .comment) (heof : k ≠ .eof) :
    Noted true (skip k ts) (skip k us) := by
  have hfirst : (first us = k) = (first ts = k) :=
    h.test (· = k) (by simp [hendline.symm, hcomment.symm]) (by simp [heof.symm, hcomment.symm])
  unfold skip
  by_cases ht : first ts = k
  · rw [if_pos ht, if_pos (hfirst.mpr ht)]
    cases h with
    | nil => exact .nil true
    | added hc hends => exact absurd (hc.symm.trans (hfirst.mpr ht)) hcomment.symm
    | dropped hc hends => exact absurd (hc.symm.trans ht) hcomment.symm
    | cons _ t h => exact h.weaken
  · rw [if_neg ht, if_neg fun hu => ht (hfirst.mp hu)]
    exact h

end Noted

/-! ## What is parsed -/

/-- What `x` parses `y` parses as well, and what they leave are the same tokens but for comments. -/
def Echoed {β : Type} (x y : Option (β × Tokens)) : Prop :=
  ∀ b ts, x = some (b, ts) → ∃ us, y = some (b, us) ∧ Noted true ts us

namespace Echoed

variable {β γ : Type} {x y : Option (β × Tokens)} {ts us : Tokens}

theorem none : Echoed Option.none y := nofun

theorem some (b : β) (h : Noted true ts us) : Echoed (Option.some (b, ts)) (Option.some (b, us)) := by
  rintro _ _ ⟨⟩
  exact ⟨us, rfl, h⟩

theorem bind {f g : β × Tokens → Option (γ × Tokens)} (h : Echoed x y)
    (hf : ∀ b ts us, Noted true ts us → Echoed (f (b, ts)) (g (b, us))) : Echoed (x >>= f) (y >>= g) := by
  intro c vs hx
  obtain ⟨⟨b, ts⟩, rfl, hc⟩ := Option.bind_eq_some_iff.mp hx
  obtain ⟨us, rfl, hnoted⟩ := h b ts rfl
  exact hf b ts us hnoted c vs hc

theorem map {f : β → γ} (h : Echoed x y) : Echoed (x.map (Prod.map f id)) (y.map (Prod.map f id)) := by
  intro c vs hx
  obtain ⟨⟨b, ts⟩, rfl, hc⟩ := Option.map_eq_some_iff.mp hx
  cases hc
  obtain ⟨us, rfl, hnoted⟩ := h b _ rfl
  exact ⟨us, rfl, hnoted⟩

theorem ite {c d : Prop} [Decidable c] [Decidable d] {x' y' : Option (β × Tokens)} (hcd : d = c)
    (ht : c → Echoed x y) (he : ¬ c → Echoed x' y') : Echoed (if c then x else x') (if d then y else y') := by
  subst hcd
  split
  · exact ht ‹_›
  · exact he ‹_›

theorem filter (h : Echoed x y) (p : β → Bool) : Echoed (x.filter fun r => p r.1) (y.filter fun r => p r.1) := by
  intro b ts hx
  obtain ⟨rfl, hp⟩ := Option.filter_eq_some_iff.mp hx
  obtain ⟨us, rfl, hnoted⟩ := h b ts rfl
  exact ⟨us, Option.filter_eq_some_iff.mpr ⟨rfl, hp⟩, hnoted⟩

end Echoed

section Operands

variable {ts us : Tokens} {type : TokenType}

theorem expect_echoed (h : Noted true ts us) (hendline : type ≠ .endline) (hcomment : type ≠ .comment) :
    Echoed (expect type ts) (expect type us) := by
  have hend {vs : Tokens} (hends : vs = [] ∨ first vs = .endline) : expect type vs = none := by
    rcases vs with _ | ⟨v, vs⟩
    · rfl
    · have hv : v.type = .endline := hends.resolve_left (by simp)
      rw [expect, hv, if_neg hendline.symm]
  cases h with
  | nil => exact .none
  | added hc hends =>
    rw [hend hends]
    exact .none
  | dropped hc hends =>
    rw [expect, hc, if_neg hcomment.symm]
    exact .none
  | cons _ t h =>
    unfold expect
    exact .ite rfl (fun _ => .some t h.weaken) fun _ => .none

theorem numLit_echoed {negative : Bool} (h : Noted true ts us) (hn : isNumber (first ts) = true) :
    Echoed (numLit negative ts) (numLit negative us) := by
  cases h with
  | nil => exact .none
  | added hc hends =>
    rcases hends with rfl | hends
    · cases hn
    · rw [hends] at hn
      cases hn
  | dropped hc hends =>
    rw [show first (_ :: us) = .comment from hc] at hn
    cases hn
  | cons _ t h =>
    intro b vs hx
    simp only [numLit, Option.bind_eq_bind, Option.bind_eq_some_iff] at hx ⊢
    obtain ⟨value, hvalue, v, hv, hx⟩ := hx
    cases hx
    exact ⟨_, ⟨value, hvalue, v, hv, rfl⟩, h.weaken⟩

theorem charLit_echoed (h : Noted true ts us) : Echoed (charLit ts) (charLit us) := by
  refine .bind (expect_echoed h (by simp) (by simp)) fun _ _ _ h => ?_
  refine .bind (expect_echoed h (by simp) (by simp)) fun c _ _ h => ?_
  exact .bind (expect_echoed h (by simp) (by simp)) fun _ _ _ h => .some _ h

theorem strLit_echoed (h : Noted true ts us) : Echoed (strLit ts) (strLit us) := by
  refine .bind (expect_echoed h (by simp) (by simp)) fun _ _ _ h => ?_
  refine .bind (expect_echoed h (by simp) (by simp)) fun s _ _ h => ?_
  refine .bind (expect_echoed h (by simp) (by simp)) fun _ ts us h => ?_
  cases s.value with
  | none => exact .none
  | some value => exact .some _ h

theorem labelCall_echoed (h : Noted true ts us) : Echoed (labelCall ts) (labelCall us) :=
  .bind (expect_echoed h (by simp) (by simp)) fun _ _ _ h => .some _ h

theorem number_echoed (h : Noted true ts us) : Echoed (number ts) (number us) := by
  have hskip := h.skip_other (k := .minus) (by simp) (by simp) (by simp)
  unfold number
  rw [h.test (· == .minus) rfl rfl]
  refine .ite (by rw [hskip.test isNumber rfl rfl]) (fun hn => (numLit_echoed hskip hn).map) fun _ => .some _ hskip

theorem int_echoed (h : Noted true ts us) : Echoed (int ts) (int us) := by
  have hnumber (hi : isInt (first ts) = true) : isNumber (first ts) = true := isNumber_of_isInt (t := ts.headD TasmToken.eof) hi
  unfold int
  exact .ite (by rw [h.test isInt rfl rfl]) (fun hi => (numLit_echoed h (hnumber hi)).map) fun _ => .some _ h

theorem label_echoed (h : Noted true ts us) : Echoed (label ts) (label us) := by
  unfold label
  exact .ite (h.test (· = .id) (by simp) (by simp)) (fun _ => (labelCall_echoed h).map) fun _ => .some _ h

theorem pushOperand_echoed (h : Noted true ts us) : Echoed (pushOperand ts) (pushOperand us) := by
  unfold pushOperand
  exact .ite (h.test (· = .apost) (by simp) (by simp)) (fun _ => (charLit_echoed h).map) fun _ => number_echoed h

theorem jumpOperand_echoed (h : Noted true ts us) : Echoed (jumpOperand ts) (jumpOperand us) := by
  unfold jumpOperand
  exact .ite (by rw [h.test isInt rfl rfl]) (fun _ => int_echoed h) fun _ => label_echoed h

theorem operand_echoed (k : OperandKind) (h : Noted true ts us) : Echoed (operand k ts) (operand k us) := by
  cases k with
  | nothing => exact .some _ h
  | push => exact (pushOperand_echoed h).filter _
  | int => exact (int_echoed h).filter _
  | jump => exact (jumpOperand_echoed h).filter _
  | label => exact (label_echoed h).filter _

end Operands

/-! ## Lines -/

section Lines

variable {b : Bool} {ts us vs : Tokens} {fuel fuel' : Nat}

theorem endOfLine_noted (h : Noted true ts us) (hend : Grammar.endOfLine ts = some vs) :
    ∃ ws, Grammar.endOfLine us = some ws ∧ Noted true vs ws := by
  have hskip := h.skip_comment
  unfold Grammar.endOfLine at hend ⊢
  generalize skip .comment ts = ts at hend hskip
  generalize skip .comment us = us at hskip
  cases hskip with
  | nil =>
    cases hend
    exact ⟨[], rfl, .nil true⟩
  | cons _ t h =>
    obtain ⟨ht, hend⟩ := Option.ite_none_right_eq_some.mp hend
    cases hend
    exact ⟨_, if_pos ht, h.weaken⟩

/-- The end of a line, and what stands on it. -/
theorem endOfLine_echoed {β : Type} (a : β) (h : Noted true ts us) :
    Echoed (do let ts ← Grammar.endOfLine ts; some (a, ts)) (do let us ← Grammar.endOfLine us; some (a, us)) := by
  intro c vs hx
  obtain ⟨ws, hws, hx⟩ := Option.bind_eq_some_iff.mp hx
  cases hx
  obtain ⟨xs, hxs, hnoted⟩ := endOfLine_noted h hws
  exact ⟨xs, Option.bind_eq_some_iff.mpr ⟨xs, hxs, rfl⟩, hnoted⟩

theorem instruction_echoed (h : Noted false ts us) : Echoed (instruction ts) (instruction us) := by
  cases h with
  | nil => exact .none
  | cons _ t h =>
    unfold instruction
    dsimp only
    split
    · exact .bind (operand_echoed _ h.weaken) fun a _ _ h => endOfLine_echoed _ h
    · exact .none

theorem isLabelDecl_noted (h : Noted false ts us) : isLabelDecl us = isLabelDecl ts := by
  cases h with
  | nil => rfl
  | cons _ t h =>
    have hcolon (vs : Tokens) : isLabelDecl (t :: vs) = (t.type == .id && first vs == .colon) := by
      rcases vs with _ | ⟨v, vs⟩
      · simp [isLabelDecl, first, TasmToken.eof]
      · rfl
    rw [hcolon, hcolon, h.test (· == .colon) rfl rfl]

theorem labelDecl_echoed (h : Noted true ts us) : Echoed (labelDecl ts) (labelDecl us) :=
  .bind (expect_echoed h (by simp) (by simp)) fun _ _ _ h => .bind (expect_echoed h (by simp) (by simp)) fun _ _ _ h =>
    .some _ h

/-- The end of a line is consumed with the comment behind it, so that a comment may be left on one side only. -/
theorem blank_noted (h : Noted false ts us) : Noted true (blank ts) (blank us) := by
  have hskip : Noted true (skip .endline ts) (skip .endline us) := by
    cases h with
    | nil => exact .nil true
    | cons _ t h =>
      rw [skip_cons, skip_cons]
      split
      · exact h.weaken
      · exact .cons _ t h
  exact hskip.skip_comment.weaken

theorem blank_comment {c : TasmToken} (hc : c.type = .comment) (ts : Tokens) : blank (c :: ts) = ts := by
  rw [blank, skip_cons, if_neg (by simp [hc]), skip_cons, if_pos hc]

theorem isLabelDecl_comment {c : TasmToken} (hc : c.type = .comment) (ts : Tokens) : isLabelDecl (c :: ts) = false := by
  cases ts <;> simp [isLabelDecl, hc]

theorem many_stop {stop : TokenType → Bool} {line : Tokens → Option (Option TasmAst × Tokens)}
    (h : stop (first ts) = true) : many stop line fuel ts = some ([], ts) := by
  cases fuel with
  | zero => exact if_pos h
  | succ fuel => exact if_pos h

theorem many_line {stop : TokenType → Bool} {line : Tokens → Option (Option TasmAst × Tokens)}
    (h : stop (first ts) = false) : many stop line (fuel + 1) ts =
      (line ts).bind fun r => (many stop line fuel r.2).map (Prod.map (r.1.toList ++ ·) id) := by
  rw [many, if_neg (by simp [h])]
  cases line ts with
  | none => rfl
  | some r => cases hm : many stop line fuel r.2 <;> simp [hm, Prod.map]

/-- The lines up to a token at which to stop. A line may need a second turn, for a comment. -/
theorem many_echoed {stop : TokenType → Bool} {line line' : Tokens → Option (Option TasmAst × Tokens)}
    (heof : stop .eof = true) (hstop : stop .comment = false)
    (hcomment : ∀ c ts, c.type = .comment → line (c :: ts) = some (none, ts) ∧ line' (c :: ts) = some (none, ts))
    (hline : ∀ ts us, Noted false ts us → Echoed (line ts) (line' us)) (hfuel : 2 * fuel + 1 ≤ fuel') (h : Noted true ts us) :
    Echoed (many stop line fuel ts) (many stop line' fuel' us) := by
  -- a turn for a comment
  have comment {line : Tokens → Option (Option TasmAst × Tokens)} {c : TasmToken} (hc : c.type = .comment) (vs : Tokens)
      (hcomment : line (c :: vs) = some (none, vs)) (fuel : Nat) :
      many stop line (fuel + 1) (c :: vs) = many stop line fuel vs := by
    rw [many_line (by rw [first, List.headD_cons, hc, hstop]), hcomment]
    show (many stop line fuel vs).map (Prod.map ([] ++ ·) id) = _
    cases many stop line fuel vs <;> rfl
  induction fuel generalizing fuel' ts us with
  | zero =>
    intro ls vs hx
    obtain ⟨hfirst, hx⟩ := Option.ite_none_right_eq_some.mp hx
    cases hx
    cases h with
    | nil => exact ⟨[], many_stop heof, .nil true⟩
    | added hc hends =>
      obtain ⟨fuel', rfl⟩ : ∃ f, fuel' = f + 1 := ⟨fuel' - 1, by omega⟩
      rw [comment hc _ (hcomment _ _ hc).2]
      exact ⟨_, many_stop hfirst, .refl _ _⟩
    | dropped hc hends =>
      rw [first, List.headD_cons, hc, hstop] at hfirst
      cases hfirst
    | cons _ t h => exact ⟨_, many_stop hfirst, .cons _ t h⟩
  | succ fuel ih =>
    -- the same token first, and one turn less than there may be
    have same {ts us : Tokens} {fuel' : Nat} (hfuel : 2 * fuel + 2 ≤ fuel') (h : Noted false ts us) :
        Echoed (many stop line (fuel + 1) ts) (many stop line' fuel' us) := by
      have hfirst : first us = first ts := by cases h <;> rfl
      obtain ⟨fuel', rfl⟩ : ∃ f, fuel' = f + 1 := ⟨fuel' - 1, by omega⟩
      cases hs : stop (first ts) with
      | true =>
        rw [many_stop hs, many_stop (hfirst ▸ hs)]
        exact .some _ h.weaken
      | false =>
        rw [many_line hs, many_line (hfirst ▸ hs)]
        exact .bind (hline _ _ h) fun l _ _ h => (ih (by omega) h).map
    cases h with
    | nil => exact same (by omega) (.nil false)
    | added hc hends =>
      obtain ⟨fuel', rfl⟩ : ∃ f, fuel' = f + 1 := ⟨fuel' - 1, by omega⟩
      rw [comment hc _ (hcomment _ _ hc).2]
      exact same (by omega) (.refl _ _)
    | dropped hc hends =>
      rw [comment hc _ (hcomment _ _ hc).1]
      exact ih (by omega) (.refl _ _)
    | cons _ t h => exact same (by omega) (.cons _ t h)

theorem procLine_echoed (h : Noted false ts us) : Echoed (procLine ts) (procLine us) := by
  have hfirst : first us = first ts := by cases h <;> rfl
  unfold procLine
  rw [isLabelDecl_noted h, hfirst]
  refine .ite rfl (fun _ => (labelDecl_echoed h.weaken).map) fun _ => .ite rfl (fun _ => (instruction_echoed h).map) fun _ =>
    .ite rfl (fun _ => .none) fun _ => .some _ (blank_noted h)

theorem procLine_comment {c : TasmToken} (hc : c.type = .comment) (ts : Tokens) : procLine (c :: ts) = some (none, ts) := by
  have hfirst : first (c :: ts) = .comment := hc
  simp [procLine, isLabelDecl_comment hc, hfirst, isInstruction, refused, blank_comment hc]

theorem proc_echoed (hfuel : 2 * fuel + 1 ≤ fuel') (h : Noted true ts us) :
    Echoed (Grammar.proc fuel ts) (Grammar.proc fuel' us) := by
  refine .bind (expect_echoed h (by simp) (by simp)) fun _ _ _ h => .bind (expect_echoed h (by simp) (by simp)) fun x _ _ h => ?_
  refine .bind (many_echoed rfl rfl (fun _ _ hc => ⟨procLine_comment hc _, procLine_comment hc _⟩)
    (fun _ _ h => procLine_echoed h) hfuel h) fun ls _ _ h => ?_
  exact .bind (expect_echoed h (by simp) (by simp)) fun _ _ _ h => endOfLine_echoed _ h

theorem ctype_echoed (h : Noted true ts us) : Echoed (ctype ts) (ctype us) := by
  cases h with
  | nil => exact .none
  | added hc hends =>
    intro b vs hx
    rcases ts with _ | ⟨t, ts⟩
    · cases hx
    · have ht : t.type = .endline := hends.resolve_left (by simp)
      rw [ctype, ht] at hx
      cases hx
  | dropped hc hends =>
    rw [ctype, hc]
    exact .none
  | cons _ t h =>
    unfold ctype
    dsimp only
    split
    · exact .some _ h.weaken
    · exact .none

theorem ctypes_echoed (hfuel : fuel ≤ fuel') (h : Noted true ts us) : Echoed (ctypes fuel ts) (ctypes fuel' us) := by
  have hstop := h.test (fun t => [TokenType.endline, .eof, .comment].contains t) rfl rfl
  induction fuel generalizing fuel' ts us with
  | zero =>
    intro cs vs hx
    obtain ⟨hfirst, hx⟩ := Option.ite_none_right_eq_some.mp hx
    cases hx
    refine ⟨us, ?_, h⟩
    cases fuel' <;> exact if_pos (hstop.trans hfirst)
  | succ fuel ih =>
    obtain ⟨fuel', rfl⟩ : ∃ f, fuel' = f + 1 := ⟨fuel' - 1, by omega⟩
    unfold ctypes
    refine .ite (by rw [hstop]) (fun _ => .some _ h) fun _ => ?_
    refine .bind (ctype_echoed h) fun c _ _ h => ?_
    exact .bind (ih (by omega) h (h.test _ rfl rfl)) fun cs _ _ h => .some _ h

theorem cfunction_echoed (hfuel : fuel ≤ fuel') (h : Noted true ts us) :
    Echoed (Grammar.cfunction fuel ts) (Grammar.cfunction fuel' us) := by
  refine .bind (expect_echoed h (by simp) (by simp)) fun _ _ _ h => .bind (ctype_echoed h) fun _ _ _ h => ?_
  refine .bind (expect_echoed h (by simp) (by simp)) fun _ _ _ h => ?_
  exact .bind (ctypes_echoed hfuel h) fun _ _ _ h => .some _ h

theorem cstruct_echoed (h : Noted true ts us) : Echoed (Grammar.cstruct ts) (Grammar.cstruct us) :=
  .bind (expect_echoed h (by simp) (by simp)) fun _ _ _ h => .some _ h

theorem data_echoed (h : Noted true ts us) : Echoed (Grammar.data ts) (Grammar.data us) := by
  refine .bind (expect_echoed h (by simp) (by simp)) fun _ _ _ h => ?_
  refine .bind (x := dataValue _) (y := dataValue _) ?_ fun _ _ _ h => .some _ h
  unfold dataValue
  refine .ite (h.test (· = .quota) (by simp) (by simp)) (fun _ => (strLit_echoed h).map) fun _ => ?_
  exact .ite (h.test (· = .apost) (by simp) (by simp)) (fun _ => (charLit_echoed h).map) fun _ => number_echoed h

theorem metadata_echoed (hfuel : fuel ≤ fuel') (h : Noted true ts us) : Echoed (metadata fuel ts) (metadata fuel' us) := by
  refine .bind (expect_echoed h (by simp) (by simp)) fun _ _ _ h => ?_
  refine .ite (h.test (· = .cfunction) (by simp) (by simp)) (fun _ => cfunction_echoed hfuel h) fun _ => ?_
  refine .ite (h.test (· = .cstruct) (by simp) (by simp)) (fun _ => cstruct_echoed h) fun _ => ?_
  exact .ite (h.test (· = .data) (by simp) (by simp)) (fun _ => data_echoed h) fun _ => .none

theorem line_echoed (hfuel : 2 * fuel + 1 ≤ fuel') (h : Noted false ts us) : Echoed (line fuel ts) (line fuel' us) := by
  have hfirst : first us = first ts := by cases h <;> rfl
  unfold line
  rw [isLabelDecl_noted h, hfirst]
  refine .ite rfl (fun _ => (labelDecl_echoed h.weaken).map) fun _ => .ite rfl (fun _ => (proc_echoed hfuel h.weaken).map) fun _ =>
    .ite rfl (fun _ => (instruction_echoed h).map) fun _ => .ite rfl (fun _ => (metadata_echoed (by omega) h.weaken).map) fun _ =>
    .ite rfl (fun _ => .none) fun _ => .some _ (blank_noted h)

theorem line_comment {c : TasmToken} (hc : c.type = .comment) (fuel : Nat) (ts : Tokens) :
    line fuel (c :: ts) = some (none, ts) := by
  have hfirst : first (c :: ts) = .comment := hc
  simp [line, isLabelDecl_comment hc, hfirst, isInstruction, refused, blank_comment hc]

/-- A file is accepted with a comment at the end of a line if it is accepted without it, and the other way round, and the
tree is the same. -/
theorem file_noted (h : Noted true ts us) {ast : TasmAst} (hfile : file fuel ts = some (ast, vs)) :
    ∃ ws, file (2 * fuel + 1) us = some (ast, ws) := by
  have hlines : Echoed (lines fuel ts) (lines (2 * fuel + 1) us) :=
    many_echoed rfl rfl (fun _ _ hc => ⟨line_comment hc _ _, line_comment hc _ _⟩)
      (fun _ _ h => line_echoed (Nat.le_refl _) h) (Nat.le_refl _) h
  have hecho : Echoed (file fuel ts) (file (2 * fuel + 1) us) := hlines.bind fun ls _ _ h => endOfLine_echoed _ h
  exact (hecho ast vs hfile).imp fun _ h => h.1

end Lines

end TileVm
