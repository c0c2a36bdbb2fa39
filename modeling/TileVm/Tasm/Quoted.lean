/-
Literals among the tokens of an accepted file. A string stands between quotes and a character between
apostrophes, and neither stands anywhere else.
-/
import TileVm.Tasm.Complete

namespace TileVm

open Grammar

/-- The kinds of the quotes. -/
def isQuote (type : TokenType) : Bool := type == .quota || type == .apost

/-- The kinds of what the lexer reads behind a quote. -/
def isText (type : TokenType) : Bool := type == .string || type == .char || type == .none

/-- A token closes an open quote if it is the same quote, or neither a quote nor the text of a literal. -/
def quoteStep : Option TokenType → TasmToken → Option TokenType
  | none, t => if isQuote t.type then some t.type else none
  | some q, t => if t.type ≠ q ∧ (isQuote t.type || isText t.type) then some q else none

/-- The quote that is open behind the tokens. -/
def openQuote (ts : Tokens) : Option TokenType := ts.foldl quoteStep none

/-- A token that is no part of a literal. -/
def isPlain (type : TokenType) : Bool := !isQuote type && !isText type

/-- Literals are there as a whole. -/
inductive Quoted : Tokens → Prop
  | nil : Quoted []
  | plain {t : TasmToken} {ts : Tokens} (ht : isPlain t.type = true) (h : Quoted ts) : Quoted (t :: ts)
  | string {p s q : TasmToken} {ts : Tokens} (hp : p.type = .quota) (hs : s.type = .string) (hq : q.type = .quota)
    (h : Quoted ts) : Quoted (p :: s :: q :: ts)
  | char {p c q : TasmToken} {ts : Tokens} (hp : p.type = .apost) (hc : c.type = .char) (hq : q.type = .apost)
    (h : Quoted ts) : Quoted (p :: c :: q :: ts)

namespace Quoted

variable {ts us : Tokens} {t s : TasmToken}

theorem append (h : Quoted ts) (h' : Quoted us) : Quoted (ts ++ us) := by
  induction h with
  | nil => exact h'
  | plain ht _ ih => exact .plain ht ih
  | string hp hs hq _ ih => exact .string hp hs hq ih
  | char hp hc hq _ ih => exact .char hp hc hq ih

/-- The text of a literal is not the first token. -/
theorem head (h : Quoted (s :: us)) : isText s.type = false := by
  cases h with
  | plain ht _ =>
    simpa using (Bool.and_eq_true_iff.mp ht).2
  | string hp _ _ _ => simp [hp, isText]
  | char hp _ _ _ => simp [hp, isText]

/-- Behind whole literals no quote is open. -/
theorem openQuote_none (h : Quoted ts) : openQuote ts = none := by
  unfold openQuote
  induction h with
  | nil => rfl
  | @plain t ts ht _ ih =>
    have hquote : isQuote t.type = false := by
      simpa using (Bool.and_eq_true_iff.mp ht).1
    simpa [quoteStep, hquote] using ih
  | string hp hs hq _ ih => simpa [quoteStep, hp, hs, hq, isQuote, isText] using ih
  | char hp hc hq _ ih => simpa [quoteStep, hp, hc, hq, isQuote, isText] using ih

/-- The text of a literal behind a whole one in front is the text of that one, or stands behind it. -/
theorem cases_literal {p x q : TasmToken} {vs : Tokens} (hvs : ts ++ t :: s :: us = p :: x :: q :: vs) (h : Quoted vs)
    (hq : isText q.type = false) (hs : isText s.type = true) :
    ts = [] ∧ t = p ∨ ∃ ts', ts = p :: x :: q :: ts' ∧ ts' ++ t :: s :: us = vs := by
  rcases ts with _ | ⟨u, _ | ⟨v, _ | ⟨w, ts⟩⟩⟩
  · cases hvs
    exact .inl ⟨rfl, rfl⟩
  · cases hvs
    exact absurd (hs.symm.trans hq) (by decide)
  · cases hvs
    exact absurd (hs.symm.trans h.head) (by decide)
  · cases hvs
    exact .inr ⟨ts, rfl, rfl⟩

/-- What is in front of the text of a literal is a quote, behind whole literals. -/
theorem split (h : Quoted (ts ++ t :: s :: us)) (hs : isText s.type = true) : Quoted ts ∧ isQuote t.type = true := by
  generalize hvs : ts ++ t :: s :: us = vs at h
  induction h generalizing ts with
  | nil => simp at hvs
  | plain ht h ih =>
    cases ts with
    | nil =>
      cases hvs
      exact absurd (hs.symm.trans h.head) (by decide)
    | cons u ts =>
      cases hvs
      exact (ih rfl).imp_left (.plain ht)
  | string hp hx hq h ih =>
    obtain ⟨rfl, rfl⟩ | ⟨ts', rfl, hvs'⟩ := cases_literal hvs h (by rw [hq]; rfl) hs
    · exact ⟨.nil, by rw [hp]; rfl⟩
    · exact (ih hvs').imp_left (.string hp hx hq)
  | char hp hx hq h ih =>
    obtain ⟨rfl, rfl⟩ | ⟨ts', rfl, hvs'⟩ := cases_literal hvs h (by rw [hq]; rfl) hs
    · exact ⟨.nil, by rw [hp]; rfl⟩
    · exact (ih hvs').imp_left (.char hp hx hq)

/-- So that this quote is open there. -/
theorem opens (h : Quoted (ts ++ s :: us)) (hs : isText s.type = true) : openQuote ts ≠ none := by
  rcases List.eq_nil_or_concat ts with rfl | ⟨ts, t, rfl⟩
  · exact absurd (hs.symm.trans h.head) (by decide)
  · rw [List.concat_eq_append, List.append_assoc] at h
    obtain ⟨hts, ht⟩ := h.split hs
    have hnone := hts.openQuote_none
    unfold openQuote at hnone ⊢
    rw [List.concat_eq_append, List.foldl_append, hnone]
    simp [quoteStep, ht]

end Quoted

/-! ## What the grammar consumes -/

/-- What `x` has consumed of `ts` holds whole literals. -/
def TakesWhole {β : Type} (ts : Tokens) (x : Option (β × Tokens)) : Prop :=
  ∀ b us, x = some (b, us) → ∃ c, ts = c ++ us ∧ Quoted c

namespace TakesWhole

variable {β γ : Type} {x y : Option (β × Tokens)} {ts : Tokens}

theorem none : TakesWhole ts (none : Option (β × Tokens)) := nofun

theorem some (b : β) : TakesWhole ts (some (b, ts)) := by
  rintro _ _ ⟨⟩
  exact ⟨[], rfl, .nil⟩

theorem cons {t : TasmToken} (ht : isPlain t.type = true) (h : TakesWhole ts x) : TakesWhole (t :: ts) x := by
  intro b us hx
  obtain ⟨c, rfl, hc⟩ := h b us hx
  exact ⟨t :: c, rfl, .plain ht hc⟩

theorem bind {f : β × Tokens → Option (γ × Tokens)} (h : TakesWhole ts x) (hf : ∀ b us, TakesWhole us (f (b, us))) :
    TakesWhole ts (x >>= f) := by
  intro d vs hx
  obtain ⟨⟨b, us⟩, hb, hd⟩ := Option.bind_eq_some_iff.mp hx
  obtain ⟨c, rfl, hc⟩ := h b us hb
  obtain ⟨c', rfl, hc'⟩ := hf b _ d vs hd
  exact ⟨c ++ c', (List.append_assoc ..).symm, hc.append hc'⟩

theorem map {f : β → γ} (h : TakesWhole ts x) : TakesWhole ts (x.map (Prod.map f id)) := by
  intro d us hx
  obtain ⟨⟨b, vs⟩, hb, hd⟩ := Option.map_eq_some_iff.mp hx
  cases hd
  exact h b vs hb

theorem ite {c : Prop} [Decidable c] (ht : c → TakesWhole ts x) (he : ¬ c → TakesWhole ts y) :
    TakesWhole ts (if c then x else y) := by
  split
  · exact ht ‹_›
  · exact he ‹_›

theorem filter (h : TakesWhole ts x) (p : β × Tokens → Bool) : TakesWhole ts (x.filter p) :=
  fun b us hx => h b us (Option.filter_eq_some_iff.mp hx).1

end TakesWhole

section Grammar

variable {ts us : Tokens} {type : TokenType} {fuel : Nat}

theorem expect_takes (hplain : isPlain type = true) (ts : Tokens) : TakesWhole ts (expect type ts) := by
  intro t us hx
  obtain ⟨rfl, rfl⟩ := expect_some hx
  exact ⟨[t], rfl, .plain hplain .nil⟩

theorem skip_takes (hplain : isPlain type = true) (ts : Tokens) : ∃ c, ts = c ++ skip type ts ∧ Quoted c := by
  unfold skip
  split
  · rename_i ht
    rcases ts with _ | ⟨t, ts⟩
    · exact ⟨[], rfl, .nil⟩
    · have ht : t.type = type := ht
      exact ⟨[t], rfl, .plain (ht ▸ hplain) .nil⟩
  · exact ⟨[], rfl, .nil⟩

/-- Behind a token that is skipped. -/
theorem TakesWhole.skip {β : Type} {k : TokenType} {x : Option (β × Tokens)} (hplain : isPlain k = true)
    (h : TakesWhole (skip k ts) x) : TakesWhole ts x := by
  intro b us hx
  obtain ⟨c, hts, hc⟩ := skip_takes hplain ts
  obtain ⟨c', hskip, hc'⟩ := h b us hx
  refine ⟨c ++ c', ?_, hc.append hc'⟩
  rw [List.append_assoc, ← hskip]
  exact hts

theorem numLit_takes {negative : Bool} (hn : isNumber (first ts) = true) : TakesWhole ts (numLit negative ts) := by
  intro b us hx
  rcases ts with _ | ⟨t, vs⟩
  · cases hx
  · simp only [numLit, Option.bind_eq_bind, Option.bind_eq_some_iff] at hx
    obtain ⟨value, -, v, -, hx⟩ := hx
    cases hx
    have hplain (type : TokenType) (h : isNumber type = true) : isPlain type = true := by
      simp only [isNumber, Bool.or_eq_true, beq_iff_eq] at h
      rcases h with ((rfl | rfl) | rfl) | rfl <;> rfl
    exact ⟨[t], rfl, .plain (hplain t.type hn) .nil⟩

theorem charLit_takes (ts : Tokens) : TakesWhole ts (charLit ts) := by
  intro b us hx
  simp only [charLit, Option.bind_eq_bind, Option.bind_eq_some_iff] at hx
  obtain ⟨⟨p, vs⟩, h1, ⟨c, ws⟩, h2, ⟨q, xs⟩, h3, hx⟩ := hx
  cases hx
  obtain ⟨rfl, hp⟩ := expect_some h1
  obtain ⟨rfl, hc⟩ := expect_some h2
  obtain ⟨rfl, hq⟩ := expect_some h3
  exact ⟨[p, c, q], rfl, .char hp hc hq .nil⟩

theorem strLit_takes (ts : Tokens) : TakesWhole ts (strLit ts) := by
  intro b us hx
  simp only [strLit, Option.bind_eq_bind, Option.bind_eq_some_iff] at hx
  obtain ⟨⟨p, vs⟩, h1, ⟨s, ws⟩, h2, ⟨q, xs⟩, h3, value, -, hx⟩ := hx
  cases hx
  obtain ⟨rfl, hp⟩ := expect_some h1
  obtain ⟨rfl, hs⟩ := expect_some h2
  obtain ⟨rfl, hq⟩ := expect_some h3
  exact ⟨[p, s, q], rfl, .string hp hs hq .nil⟩

theorem labelCall_takes (ts : Tokens) : TakesWhole ts (labelCall ts) :=
  .bind (expect_takes rfl ts) fun _ _ => .some _

theorem number_takes (ts : Tokens) : TakesWhole ts (number ts) := by
  unfold number
  exact .ite (fun hn => .skip rfl (numLit_takes hn).map) fun _ => .skip rfl (.some _)

theorem int_takes (ts : Tokens) : TakesWhole ts (int ts) := by
  unfold int
  refine .ite (fun hi => (numLit_takes ?_).map) fun _ => .some _
  exact isNumber_of_isInt (t := ts.headD TasmToken.eof) hi

theorem label_takes (ts : Tokens) : TakesWhole ts (label ts) := by
  unfold label
  exact .ite (fun _ => (labelCall_takes ts).map) fun _ => .some _

theorem operand_takes (k : OperandKind) (ts : Tokens) : TakesWhole ts (operand k ts) := by
  cases k with
  | nothing => exact .some _
  | push => exact .filter (.ite (fun _ => (charLit_takes ts).map) fun _ => number_takes ts) _
  | int => exact .filter (int_takes ts) _
  | jump => exact .filter (.ite (fun _ => int_takes ts) fun _ => label_takes ts) _
  | label => exact .filter (label_takes ts) _

theorem endOfLine_takes {β : Type} (a : β) (ts : Tokens) :
    TakesWhole ts (do let ts ← Grammar.endOfLine ts; some (a, ts)) := by
  refine .skip (k := .comment) rfl ?_
  intro b us hx
  obtain ⟨vs, hvs, hx⟩ := Option.bind_eq_some_iff.mp hx
  cases hx
  unfold Grammar.endOfLine at hvs
  rcases hskip : skip .comment ts with _ | ⟨t, ws⟩
  · rw [hskip] at hvs
    cases hvs
    exact ⟨[], rfl, .nil⟩
  · rw [hskip] at hvs
    obtain ⟨ht, hvs⟩ := Option.ite_none_right_eq_some.mp hvs
    cases hvs
    exact ⟨[t], rfl, .plain (by rw [ht]; rfl) .nil⟩

theorem instruction_takes (ts : Tokens) : TakesWhole ts (instruction ts) := by
  rcases ts with _ | ⟨t, ts⟩
  · exact .none
  · unfold instruction
    dsimp only
    split
    · rename_i o ho
      refine .cons (by rw [ho]; rfl) ?_
      exact .bind (operand_takes _ ts) fun _ us => endOfLine_takes _ us
    · exact .none

theorem labelDecl_takes (ts : Tokens) : TakesWhole ts (labelDecl ts) :=
  .bind (expect_takes rfl ts) fun _ us => .bind (expect_takes rfl us) fun _ _ => .some _

theorem blank_takes (ts : Tokens) : TakesWhole ts (some ((none : Option TasmAst), blank ts)) :=
  .skip (k := .endline) rfl (.skip (k := .comment) rfl (.some _))

theorem many_takes {stop : TokenType → Bool} {line : Tokens → Option (Option TasmAst × Tokens)}
    (hline : ∀ ts, TakesWhole ts (line ts)) (ts : Tokens) : TakesWhole ts (many stop line fuel ts) := by
  intro ls us hx
  refine many_rule (P := fun ts _ us => ∃ c, ts = c ++ us ∧ Quoted c) (fun ts _ => ⟨[], rfl, .nil⟩) ?_ hx
  rintro ts l us ls vs hl ⟨c', rfl, hc'⟩
  obtain ⟨c, rfl, hc⟩ := hline ts l _ hl
  exact ⟨c ++ c', (List.append_assoc ..).symm, hc.append hc'⟩

theorem procLine_takes (ts : Tokens) : TakesWhole ts (procLine ts) := by
  unfold procLine
  exact .ite (fun _ => (labelDecl_takes ts).map) fun _ => .ite (fun _ => (instruction_takes ts).map) fun _ =>
    .ite (fun _ => .none) fun _ => blank_takes ts

theorem proc_takes (ts : Tokens) : TakesWhole ts (Grammar.proc fuel ts) := by
  refine .bind (expect_takes rfl ts) fun _ us => .bind (expect_takes rfl us) fun _ us => ?_
  refine .bind (many_takes procLine_takes us) fun _ us => ?_
  exact .bind (expect_takes rfl us) fun _ us => endOfLine_takes _ us

theorem ctype_takes (ts : Tokens) : TakesWhole ts (ctype ts) := by
  rcases ts with _ | ⟨t, ts⟩
  · exact .none
  · unfold ctype
    dsimp only
    split
    · rename_i c hc
      exact .cons (by rw [hc]; rfl) (.some _)
    · exact .none

theorem ctypes_takes (ts : Tokens) : TakesWhole ts (ctypes fuel ts) := by
  induction fuel generalizing ts with
  | zero => exact .ite (fun _ => .some _) fun _ => .none
  | succ fuel ih =>
    unfold ctypes
    refine .ite (fun _ => .some _) fun _ => ?_
    exact .bind (ctype_takes ts) fun _ us => .bind (ih us) fun _ _ => .some _

theorem data_takes (ts : Tokens) : TakesWhole ts (Grammar.data ts) := by
  refine .bind (expect_takes rfl ts) fun _ us => .bind (x := dataValue us) ?_ fun _ _ => .some _
  unfold dataValue
  exact .ite (fun _ => (strLit_takes us).map) fun _ => .ite (fun _ => (charLit_takes us).map) fun _ =>
    number_takes us

theorem cfunction_takes (ts : Tokens) : TakesWhole ts (Grammar.cfunction fuel ts) := by
  refine .bind (expect_takes rfl ts) fun _ us => .bind (ctype_takes us) fun _ us => ?_
  exact .bind (expect_takes rfl us) fun _ us => .bind (ctypes_takes us) fun _ _ => .some _

theorem metadata_takes (ts : Tokens) : TakesWhole ts (metadata fuel ts) := by
  refine .bind (expect_takes rfl ts) fun _ us => .ite (fun _ => cfunction_takes us) fun _ => ?_
  refine .ite (fun _ => .bind (expect_takes rfl us) fun _ _ => .some _) fun _ => ?_
  exact .ite (fun _ => data_takes us) fun _ => .none

theorem line_takes (ts : Tokens) : TakesWhole ts (line fuel ts) := by
  unfold line
  exact .ite (fun _ => (labelDecl_takes ts).map) fun _ => .ite (fun _ => (proc_takes ts).map) fun _ =>
    .ite (fun _ => (instruction_takes ts).map) fun _ => .ite (fun _ => (metadata_takes ts).map) fun _ =>
    .ite (fun _ => .none) fun _ => blank_takes ts

theorem many_stops {stop : TokenType → Bool} {line : Tokens → Option (Option TasmAst × Tokens)} {ls : List TasmAst}
    (h : many stop line fuel ts = some (ls, us)) : stop (first us) = true :=
  many_rule (P := fun _ _ us => stop (first us) = true) (fun _ hs => hs) (fun _ _ _ _ _ _ ih => ih) h

/-- In an accepted file literals are there as a whole. -/
theorem file_quoted (heof : ∀ t ∈ ts, t.type ≠ .eof) {ast : TasmAst} (h : file fuel ts = some (ast, us)) : Quoted ts := by
  obtain ⟨⟨ls, vs⟩, hlines, -⟩ := Option.bind_eq_some_iff.mp h
  obtain ⟨c, rfl, hc⟩ := many_takes line_takes ts ls vs hlines
  have hstop := many_stops hlines
  rcases vs with _ | ⟨v, vs⟩
  · rwa [List.append_nil]
  · exact absurd (beq_iff_eq.mp hstop) (heof v (by simp))

end Grammar

end TileVm
