import MarkupHighlight.Preprocessor
import MarkupHighlight.Proofs.Format.LaidOut

/-!
What laying out does not see: blank lines around code, blanks at the ends of lines and an indentation
that all lines share. Code that differs in these alone has the same layout, so that where it can be
formatted its block is replaced by the same markup (`normalize_invariant`).
-/
namespace MarkupHighlight.Layout

/-- The text with `indent` put before each of its lines; `start` holds where a line starts. -/
def indentFrom (indent : Text) (start : Bool) : Text → Text
  | [] => []
  | c :: s => (if start then indent else []) ++ c :: indentFrom indent (c == '\n') s

def indentLines (indent code : Text) : Text := indentFrom indent true code

/-- `code` with blank lines put around it and its lines indented, in any order and any number of
times. -/
inductive Reframed (code : Text) : Text → Prop
  | same : Reframed code code
  | blankLines {front s back : Text} : Reframed code s → EndsLine front → isBlankLine front = true →
      isBlankLine back = true → Reframed code (front ++ (s ++ back))
  | indented {indent s : Text} : Reframed code s → (∀ c ∈ indent, isIndentChar c = true) →
      Reframed code (indentLines indent s)

/-! Blanks at the ends of lines. -/

theorem trimEnd_withoutReturn (l : Text) : trimEnd (withoutReturn l) = trimEnd l := by
  obtain ⟨w, hw, hreturns⟩ := exists_withoutReturn l
  have hblank : ∀ c ∈ w, isBlank c = true := by
    intro c hc
    rw [hreturns c hc]
    rfl
  conv_rhs => rw [hw, trimEnd_append_blanks _ hblank]

theorem alike_map_trimEnd (o : FormatOptions) (ls : List Text) : Alike o (ls.map trimEnd) ls := by
  have hnonBlank : nonBlank (ls.map trimEnd) = (nonBlank ls).map trimEnd :=
    nonBlank_map fun l _ => isBlankLine_trimEnd l
  refine ⟨?_, ?_, 0, 0, ?_⟩
  · rw [hnonBlank, List.map_map]
    apply List.map_congr_left
    intro l hl
    rw [Function.comp_apply, unindented_trimEnd (mem_nonBlank.mp hl).2, (trimmed_trimEnd _).trimEnd]
  · rw [gaps_map fun l _ => isBlankLine_trimEnd l]
  · rw [hnonBlank, List.map_map]
    apply List.map_congr_left
    intro l hl
    rw [Function.comp_apply, indentWidth, indentOf_trimEnd (mem_nonBlank.mp hl).2, indentWidth]

/-! Blank lines around code. -/

theorem alike_surrounded (o : FormatOptions) {front back : List Text}
    (hfront : ∀ l ∈ front, isBlankLine l = true) (hback : ∀ l ∈ back, isBlankLine l = true)
    (ls : List Text) : Alike o (front ++ (ls ++ back)) ls := by
  have hnonBlank := nonBlank_surrounded hfront hback ls
  refine ⟨?_, ?_, 0, 0, ?_⟩
  · rw [hnonBlank]
  · rw [gaps_surrounded hfront hback]
  · rw [hnonBlank]

theorem isBlankLine_of_mem_textLines {s : Text} (hs : isBlankLine s = true) :
    ∀ l ∈ textLines s, isBlankLine l = true := by
  induction s using lines_induction with
  | nil => exact nofun
  | last l hne hl =>
    rw [textLines_last hne hl]
    simpa using hs
  | line l t hl ih =>
    rw [isBlankLine, List.all_append, List.all_cons, Bool.and_eq_true, Bool.and_eq_true] at hs
    rw [textLines_line hl]
    refine List.forall_mem_cons.mpr ⟨?_, ih hs.2.2⟩
    rw [← isBlankLine_trimEnd, trimEnd_withoutReturn, isBlankLine_trimEnd]
    exact hs.1

/-- Blanks behind a text are blanks at the end of its last line and blank lines. -/
theorem exists_textLines_append_blanks (code : Text) {back : Text} (hback : isBlankLine back = true) :
    ∃ bs, (∀ b ∈ bs, isBlankLine b = true) ∧
      (textLines (code ++ back)).map trimEnd = (textLines code).map trimEnd ++ bs := by
  have hblank {s : Text} (hs : isBlankLine s = true) :
      ∀ b ∈ (textLines s).map trimEnd, isBlankLine b = true := by
    intro b hb
    obtain ⟨l, hl, rfl⟩ := List.mem_map.mp hb
    rw [isBlankLine_trimEnd]
    exact isBlankLine_of_mem_textLines hs l hl
  induction code using lines_induction with
  | nil => exact ⟨_, hblank hback, rfl⟩
  | last l hne hl =>
    obtain ⟨b, r, rfl, -, -, hb, hr⟩ := exists_run (· != '\n') back
    rw [isBlankLine, List.all_append, Bool.and_eq_true] at hback
    have htrim : trimEnd (l ++ b) = trimEnd l :=
      trimEnd_append_blanks l (List.all_eq_true.mp hback.1)
    have hnewline : '\n' ∉ l ++ b := by
      intro hmem
      rcases List.mem_append.mp hmem with hmem | hmem
      · exact hl hmem
      · simpa using hb _ hmem
    cases r with
    | nil =>
      refine ⟨[], by simp, ?_⟩
      rw [List.append_nil, textLines_last (by simp [hne]) hnewline, textLines_last hne hl]
      simp [htrim]
    | cons c t =>
      obtain rfl : c = '\n' := by simpa using hr c rfl
      rw [List.all_cons, Bool.and_eq_true] at hback
      refine ⟨_, hblank hback.2.2, ?_⟩
      rw [← List.append_assoc, textLines_line hnewline, textLines_last hne hl]
      simp [trimEnd_withoutReturn, htrim]
  | line l t hl ih =>
    obtain ⟨bs, hbs, hlines⟩ := ih
    refine ⟨bs, hbs, ?_⟩
    rw [List.append_assoc, List.cons_append, textLines_line hl, textLines_line hl, List.map_cons,
      hlines, List.map_cons, List.cons_append]

theorem alike_blankLines (o : FormatOptions) (code : Text) {front back : Text}
    (hends : EndsLine front) (hfront : isBlankLine front = true) (hback : isBlankLine back = true) :
    Alike o (textLines (front ++ (code ++ back))) (textLines code) := by
  obtain ⟨bs, hbs, hlines⟩ := exists_textLines_append_blanks code hback
  have hfront : Alike o (textLines front ++ (textLines (code ++ back) ++ []))
      (textLines (code ++ back)) :=
    alike_surrounded o (isBlankLine_of_mem_textLines hfront) (by simp) _
  have hback : Alike o ([] ++ ((textLines code).map trimEnd ++ bs)) ((textLines code).map trimEnd) :=
    alike_surrounded o (by simp) hbs _
  rw [List.append_nil, ← textLines_append hends] at hfront
  rw [List.nil_append, ← hlines] at hback
  calc
    Alike o (textLines (front ++ (code ++ back))) (textLines (code ++ back)) := hfront
    Alike o _ ((textLines (code ++ back)).map trimEnd) := (alike_map_trimEnd o _).symm
    Alike o _ ((textLines code).map trimEnd) := hback
    Alike o _ (textLines code) := alike_map_trimEnd o _

/-! Indentation of all lines. -/

theorem indentFrom_append {indent l : Text} (hl : '\n' ∉ l) (s : Text) :
    indentFrom indent false (l ++ s) = l ++ indentFrom indent false s := by
  induction l with
  | nil => rfl
  | cons c l ih =>
    obtain ⟨hc, hl⟩ := not_or.mp (mt List.mem_cons.mpr hl)
    have hnot : (c == '\n') = false := beq_eq_false_iff_ne.mpr (Ne.symm hc)
    rw [List.cons_append, indentFrom, hnot, ih hl]
    rfl

/-- The first line comes out behind the indentation, and the next one starts behind its line feed. -/
theorem indentLines_append (indent : Text) {l s : Text} (hl : '\n' ∉ l) (hne : l ++ s ≠ []) :
    indentLines indent (l ++ s) = indent ++ (l ++ indentFrom indent false s) := by
  have hstart {t : Text} (ht : t ≠ []) :
      indentFrom indent true t = indent ++ indentFrom indent false t := by
    obtain ⟨c, t, rfl⟩ := List.exists_cons_of_ne_nil ht
    rfl
  rw [indentLines, hstart hne, indentFrom_append hl]

section
variable {indent : Text} (hindent : ∀ c ∈ indent, isIndentChar c = true)
include hindent

theorem notMem_indent_append {l : Text} (hl : '\n' ∉ l) : '\n' ∉ indent ++ l := by
  intro hmem
  rcases List.mem_append.mp hmem with hmem | hmem
  · cases hindent _ hmem
  · exact hl hmem

theorem withoutReturn_indent_append (l : Text) :
    withoutReturn (indent ++ l) = indent ++ withoutReturn l := by
  by_cases hl : l = []
  · have hlast : indent.getLast? ≠ some '\r' := by
      intro hlast
      cases hindent _ (List.mem_of_getLast? hlast)
    rw [hl, List.append_nil, withoutReturn, if_neg hlast]
    exact (List.append_nil indent).symm
  · rw [withoutReturn, List.getLast?_append_of_ne_nil _ hl, List.dropLast_append_of_ne_nil hl,
      withoutReturn]
    split <;> rfl

theorem textLines_indentLines (code : Text) :
    textLines (indentLines indent code) = (textLines code).map (indent ++ ·) := by
  induction code using lines_induction with
  | nil => rfl
  | last l hne hl =>
    have hline := indentLines_append indent (s := []) hl (by simpa using hne)
    rw [List.append_nil, indentFrom, List.append_nil] at hline
    rw [hline, textLines_last (by simp [hne]) (notMem_indent_append hindent hl),
      textLines_last hne hl, List.map_singleton]
  | line l t hl ih =>
    have hline := indentLines_append indent (s := '\n' :: t) hl (by simp)
    have hrest : indentFrom indent false ('\n' :: t) = '\n' :: indentLines indent t := rfl
    rw [hline, hrest, ← List.append_assoc, textLines_line (notMem_indent_append hindent hl),
      textLines_line hl, ih, withoutReturn_indent_append hindent, List.map_cons]

theorem alike_map_indent (o : FormatOptions) (ls : List Text) :
    Alike o (ls.map (indent ++ ·)) ls := by
  have hnonBlank : nonBlank (ls.map (indent ++ ·)) = (nonBlank ls).map (indent ++ ·) :=
    nonBlank_map fun l _ => isBlankLine_append hindent l
  refine ⟨?_, ?_, 0, columns (max 1 o.tabWidth) indent, ?_⟩
  · rw [hnonBlank, List.map_map]
    apply List.map_congr_left
    intro l _
    rw [Function.comp_apply, unindented_append hindent]
  · rw [gaps_map fun l _ => isBlankLine_append hindent l]
  · rw [hnonBlank, List.map_map]
    apply List.map_congr_left
    intro l _
    rw [Function.comp_apply, Nat.zero_add, indentWidth_append o hindent]

end

theorem Reframed.alike (o : FormatOptions) {code code' : Text} (h : Reframed code code') :
    Alike o (textLines code') (textLines code) := by
  induction h with
  | same => exact Alike.rfl
  | blankLines _ hends hfront hback ih => exact (alike_blankLines o _ hends hfront hback).trans ih
  | indented _ hindent ih =>
    rw [textLines_indentLines hindent]
    exact (alike_map_indent hindent o _).trans ih

/-! Formatting and highlighting. -/

/-- The bundled formatter sees the layout of code only. -/
theorem layoutFormatter_congr {o : FormatOptions} {code code' : Text}
    (h : normalize o code' = normalize o code) (parse : Syntax.Parser) (language : String) :
    layoutFormatter parse code' language o = layoutFormatter parse code language o := by
  unfold layoutFormatter
  rw [h]

theorem asking_congr {o : FormatOptions} {code code' : Text}
    (h : normalize o code' = normalize o code) {parse : Syntax.Parser} {language : String}
    {formatted : Text} (hformat : layoutFormatter parse code language o = .ok formatted)
    (highlighter : Highlighter) :
    Pipeline.asking ⟨layoutFormatter parse, highlighter, o⟩ code' language =
      Pipeline.asking ⟨layoutFormatter parse, highlighter, o⟩ code language := by
  have hprepare {c : Text} (hc : layoutFormatter parse c language o = .ok formatted) :
      Pipeline.prepare ⟨layoutFormatter parse, highlighter, o⟩ c language = (formatted, none) := by
    simp only [Pipeline.prepare, hc]
  rw [Pipeline.asking, Pipeline.asking, hprepare hformat,
    hprepare ((layoutFormatter_congr h parse language).trans hformat)]

/-- A second layout changes nothing, and neither do blank lines around the code and indentation of
all its lines, for the code alone and for the block that it is the code of. -/
theorem normalize_invariant (o : FormatOptions) (code : Text) :
    normalize o (normalize o code) = normalize o code ∧
    (∀ indent : Text, (∀ c ∈ indent, isIndentChar c = true) →
      textLines (indentLines indent code) = (textLines code).map (indent ++ ·)) ∧
    ∀ code', Reframed code code' →
      normalize o code' = normalize o code ∧
      ∀ (parse : Syntax.Parser) (highlighter : Highlighter) (language : String) (formatted : Text),
        layoutFormatter parse code language o = .ok formatted →
        let p : Pipeline := ⟨layoutFormatter parse, highlighter, o⟩
        p.transform code' language = p.transform code language ∧
        ∀ (s : BlockState) (file : Text) (span : Span),
          s.replace p file span code' language = s.replace p file span code language := by
  refine ⟨?_, fun indent hindent => textLines_indentLines hindent code, fun code' h => ?_⟩
  · exact (normalize_eq_normalize (isLayout_normalize o code).alike).symm
  · have hlayout := normalize_eq_normalize (h.alike o)
    refine ⟨hlayout, fun parse highlighter language formatted hformat => ?_⟩
    have hasking := asking_congr hlayout hformat highlighter
    refine ⟨congrArg (answered highlighter.answer) hasking, fun s file span => ?_⟩
    rw [BlockState.replace, hasking, BlockState.replace]

/-- Two lines with blank lines around them, indented by two more columns. -/
theorem normalize_invariant_framed :
    let code := "f\n\tg".toList
    let code' := "\n".toList ++ (indentLines "  ".toList code ++ "\n \n".toList)
    let parse : Syntax.Parser := fun _ _ =>
      .ok (.node ⟨"program", true, false, false, false, ⟨0, 5⟩, []⟩ [])
    let p : Pipeline := ⟨layoutFormatter parse, grammarHighlighter parse, {}⟩
    normalize {} (normalize {} code) = normalize {} code ∧
      code' = "\n  f\n  \tg\n \n".toList ∧
      normalize {} code' = normalize {} code ∧
      layoutFormatter parse code "javascript" {} = .ok "f\n  g".toList ∧
      p.transform code' "javascript" = p.transform code "javascript" := by
  intro code code' parse p
  have hframed : Reframed code code' :=
    .blankLines (.indented .same (by simp [isIndentChar])) (.inr ⟨[], rfl⟩) rfl rfl
  have hgrammar : parserGrammar? "javascript" = some .javaScript := by decide +kernel
  have hlayout : normalize {} code = "f\n  g".toList := by decide +kernel
  have hformat : layoutFormatter parse code "javascript" {} = .ok "f\n  g".toList := by
    rw [layoutFormatter, hlayout, hgrammar]
    rfl
  obtain ⟨htwice, -, hinvariant⟩ := normalize_invariant {} code
  obtain ⟨hsame, hblock⟩ := hinvariant code' hframed
  have htransform := (hblock parse (grammarHighlighter parse) "javascript" _ hformat).1
  exact ⟨htwice, by decide +kernel, hsame, hformat, htransform⟩

end MarkupHighlight.Layout
