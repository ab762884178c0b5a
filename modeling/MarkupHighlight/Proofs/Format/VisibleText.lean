import MarkupHighlight.Format.Formatter
import MarkupHighlight.Proofs.Format.BlankLines
import MarkupHighlight.Proofs.Format.Indentation
import MarkupHighlight.Proofs.Text.Lines

/-!
Formatting moves blanks and nothing else. `visible` is what a text has besides blanks; every step of
the layout keeps it (`visible_normalize`), and so does the spacing of tokens, which copies each
token and each gap that holds more than blanks (`visible_respace`).
-/
namespace MarkupHighlight
open Syntax

/-- A text without its blanks. -/
def visible (s : Text) : Text := s.filter (!isBlank ·)

@[simp] theorem visible_nil : visible [] = [] := rfl

@[simp] theorem visible_append (s t : Text) : visible (s ++ t) = visible s ++ visible t :=
  List.filter_append ..

theorem visible_cons_of_blank {c : Char} (hc : isBlank c = true) (s : Text) :
    visible (c :: s) = visible s :=
  List.filter_cons_of_neg (by simp [hc])

theorem visible_eq_nil_iff {s : Text} : visible s = [] ↔ ∀ c ∈ s, isBlank c = true := by
  simp [visible, List.filter_eq_nil_iff]

@[simp] theorem visible_reverse (s : Text) : visible s.reverse = (visible s).reverse :=
  List.filter_reverse ..

/-! Trimming. -/

/-- What a filter throws away may be dropped in front of it. -/
theorem filter_dropWhile {α : Type} {p q : α → Bool} (h : ∀ a, p a = true → q a = false)
    (l : List α) : (l.dropWhile p).filter q = l.filter q := by
  have htake : (l.takeWhile p).filter q = [] := by
    apply List.filter_eq_nil_iff.mpr
    intro a ha
    simp [h a (List.all_eq_true.mp List.all_takeWhile a ha)]
  calc (l.dropWhile p).filter q = (l.takeWhile p).filter q ++ (l.dropWhile p).filter q := by
        rw [htake, List.nil_append]
    _ = l.filter q := by rw [← List.filter_append, List.takeWhile_append_dropWhile]

@[simp] theorem visible_trimStart (s : Text) : visible (trimStart s) = visible s :=
  filter_dropWhile (by simp) s

@[simp] theorem visible_trimEnd (s : Text) : visible (trimEnd s) = visible s := by
  rw [trimEnd, visible_reverse, visible, filter_dropWhile (by simp), List.filter_reverse,
    List.reverse_reverse, visible]

/-- A text that is empty when trimmed has blanks only. -/
theorem visible_eq_nil_of_trim {s : Text} (h : (trim s).isEmpty = true) : visible s = [] := by
  rw [← visible_trimStart, ← visible_trimEnd]
  exact congrArg visible (List.isEmpty_iff.mp h)

/-! Lines. -/

/-- What some lines have besides blanks. -/
def visibleLines (ls : List Text) : Text := visible ls.flatten

@[simp] theorem visibleLines_nil : visibleLines [] = [] := rfl

@[simp] theorem visibleLines_cons (l : Text) (ls : List Text) :
    visibleLines (l :: ls) = visible l ++ visibleLines ls :=
  visible_append l ls.flatten

@[simp] theorem visibleLines_append (ls ms : List Text) :
    visibleLines (ls ++ ms) = visibleLines ls ++ visibleLines ms := by
  rw [visibleLines, List.flatten_append, visible_append, visibleLines, visibleLines]

theorem visibleLines_map {f : Text → Text} (hf : ∀ l, visible (f l) = visible l)
    (ls : List Text) : visibleLines (ls.map f) = visibleLines ls := by
  induction ls with
  | nil => rfl
  | cons l ls ih => rw [List.map_cons, visibleLines_cons, visibleLines_cons, hf, ih]

theorem visible_joinWith {sep : Text} (hsep : visible sep = []) (ls : List Text) :
    visible (joinWith sep ls) = visibleLines ls := by
  fun_induction joinWith sep ls with
  | case1 => rfl
  | case2 l => simp
  | case3 l ls _ ih => simp [hsep, ih]

/-- A line loses no more than the carriage return at its end. -/
theorem visible_withoutReturn (l : Text) : visible (withoutReturn l) = visible l := by
  obtain ⟨w, hw, hreturns⟩ := exists_withoutReturn l
  have hblank : ∀ c ∈ w, isBlank c = true := by
    intro c hc
    rw [hreturns c hc]
    rfl
  conv_rhs => rw [hw, visible_append, visible_eq_nil_iff.mpr hblank, List.append_nil]

theorem visibleLines_textLines (s : Text) : visibleLines (textLines s) = visible s := by
  induction s using lines_induction with
  | nil => rfl
  | last l hne hl => rw [textLines_last hne hl, visibleLines_cons, visibleLines_nil, List.append_nil]
  | line l t hl ih =>
    rw [textLines_line hl, visibleLines_cons, visible_withoutReturn, ih, visible_append,
      visible_cons_of_blank (by decide)]

/-! The layout. -/

namespace Layout

theorem visibleLines_trimBlankLines (ls : List Text) :
    visibleLines (trimBlankLines ls) = visibleLines ls := by
  obtain ⟨front, back, hls, hfront, hback, -⟩ := exists_trimBlankLines ls
  have hempty {ms : List Text} (hms : ∀ l ∈ ms, l = []) : visibleLines ms = [] := by
    rw [visibleLines, List.flatten_eq_nil_iff.mpr hms, visible_nil]
  conv_rhs => rw [hls, visibleLines_append, visibleLines_append, hempty hfront, hempty hback]
  rw [List.nil_append, List.append_nil]

theorem visibleLines_collapseBlankLines (ls : List Text) :
    visibleLines (collapseBlankLines ls) = visibleLines ls := by
  fun_induction collapseBlankLines ls with
  | case1 ls ih => simp [ih]
  | case2 l ls _ ih => simp [ih]
  | case3 => rfl

theorem visible_splitIndent (tab : Nat) (line : Text) :
    visible (splitIndent tab line).2 = visible line := by
  rw [splitIndent_eq]
  exact filter_dropWhile (fun c hc => by simp [isBlank_of_isIndentChar hc]) line

theorem visible_renderIndent (o : FormatOptions) (width : Nat) :
    visible (renderIndent o width) = [] := by
  apply visible_eq_nil_iff.mpr
  intro c hc
  exact isBlank_of_isIndentChar (mem_renderIndent hc)

theorem visible_reindent (o : FormatOptions) (common : Nat) (line : Text) :
    visible (reindent o common line) = visible line := by
  unfold reindent
  split
  next h => rw [List.isEmpty_iff.mp h]
  next => rw [visible_append, visible_renderIndent, List.nil_append, visible_splitIndent]

theorem visible_normalize (o : FormatOptions) (code : Text) :
    visible (normalize o code) = visible code := by
  rw [normalize, visible_joinWith (by decide), layoutLines, visibleLines_collapseBlankLines,
    visibleLines_map (visible_reindent o _),
    visibleLines_trimBlankLines, visibleLines_map visible_trimEnd, visibleLines_textLines]

end Layout

/-! The spacing of tokens. -/

namespace Spacing

theorem visible_gapText (left right : Token) (gap : Text) :
    visible (gapText left right gap) = visible gap := by
  unfold gapText
  split
  next => rfl
  next h =>
    have htrim : (trim gap).isEmpty = true := by simp_all
    rw [visible_eq_nil_of_trim htrim]
    split <;> rfl

mutual

theorem start_lt_stop_of_mem_tokensOf {t : Token} : {parentKind : String} → {tree : Tree} →
    t ∈ tokensOf parentKind tree → t.span.start < t.span.stop
  | _, .node info children, h => by
      unfold tokensOf at h
      split at h
      · split at h
        next hlt =>
          rw [List.mem_singleton.mp h]
          exact hlt
        next => cases h
      · exact start_lt_stop_of_mem_tokensAmong h

theorem start_lt_stop_of_mem_tokensAmong {t : Token} : {parentKind : String} → {ts : List Tree} →
    t ∈ tokensAmong parentKind ts → t.span.start < t.span.stop
  | _, [], h => by cases h
  | _, _ :: _, h => (List.mem_append.mp h).elim start_lt_stop_of_mem_tokensOf
      start_lt_stop_of_mem_tokensAmong

end

/-- What stands behind a cut is a slice and what stands behind that. -/
theorem sliceBytes_append_dropBytes {s : Text} {start stop : Nat} (h : isBoundary s start = true)
    (hle : start ≤ stop) : sliceBytes s start stop ++ dropBytes s stop = dropBytes s start := by
  obtain ⟨a, b, rfl, rfl⟩ := isBoundary_iff.mp h
  have hstop := dropBytes_append a b (stop - byteSize a)
  rw [Nat.add_sub_cancel' hle] at hstop
  rw [hstop, sliceBytes, dropBytes_byteSize, takeBytes_append_dropBytes]

theorem visible_respaceFrom {source : Text} {ts : List Token}
    (hts : ∀ t ∈ ts, t.span.start < t.span.stop) {left : Token} {rest : Text}
    (h : respaceFrom source left ts = some rest) :
    visible rest = visible (dropBytes source left.span.stop) := by
  induction ts generalizing left rest with
  | nil =>
    obtain rfl := Option.some.inj h
    rfl
  | cons right ts ih =>
    obtain ⟨gap, hgap, h⟩ := Option.bind_eq_some_iff.mp h
    obtain ⟨rest, hrest, h⟩ := Option.bind_eq_some_iff.mp h
    obtain rfl := Option.some.inj h
    obtain ⟨a, b, hsource, hspan⟩ := slice?_eq_some_iff.mp hgap
    obtain ⟨hleft, hright⟩ := Span.mk.inj hspan
    have hlt := hts right (List.mem_cons_self ..)
    have hbehind := ih (fun t ht => hts t (List.mem_cons_of_mem _ ht)) hrest
    have hboundary : isBoundary source right.span.start = true :=
      isBoundary_iff.mpr ⟨a ++ gap, b, by rw [hsource, List.append_assoc], hright.symm⟩
    have hdrop : dropBytes source left.span.stop = gap ++ dropBytes source right.span.start := by
      rw [hleft, hright, hsource, dropBytes_byteSize, ← List.append_assoc, dropBytes_byteSize]
    rw [hdrop, ← sliceBytes_append_dropBytes hboundary (Nat.le_of_lt hlt)]
    simp only [visible_append, visible_gapText, hbehind, List.append_assoc]

theorem visible_respace (source : Text) (tree : Tree) :
    visible (respace source tree) = visible source := by
  unfold respace
  have hts : ∀ t ∈ tokensOf "" tree, t.span.start < t.span.stop :=
    fun t ht => start_lt_stop_of_mem_tokensOf ht
  cases htokens : tokensOf "" tree with
  | nil => rfl
  | cons t ts =>
    rw [htokens] at hts
    rw [respaceTokens]
    split
    next rest hrest =>
      rw [visible_append, visible_respaceFrom (fun t ht => hts t (List.mem_cons_of_mem _ ht)) hrest,
        ← visible_append, takeBytes_append_dropBytes]
    next => rfl

end Spacing

/-- What the formatter gives is laid out code, spaced anew or not. -/
theorem layoutFormatter_cases {parse : Syntax.Parser} {code : Text} {parser : String}
    {options : FormatOptions} {out : Text}
    (h : layoutFormatter parse code parser options = .ok out) :
    out = Layout.normalize options code ∨
      ∃ grammar tree, parse grammar (Layout.normalize options code) = .ok tree ∧
        out = Spacing.respace (Layout.normalize options code) tree := by
  unfold layoutFormatter at h
  dsimp only at h
  split at h
  next => exact .inl (Except.ok.inj h).symm
  next grammar _ =>
    split at h
    next => exact .inl (Except.ok.inj h).symm
    next =>
      split at h
      next => cases h
      next tree htree =>
        split at h
        next => cases h
        next =>
          split at h
          next => exact .inr ⟨grammar, tree, htree, (Except.ok.inj h).symm⟩
          next => exact .inl (Except.ok.inj h).symm

/-- Whatever tree the grammar gives for the laid out code, formatted code differs from the code in
blanks only. -/
theorem visible_of_layoutFormatter {parse : Syntax.Parser} {code : Text} {parser : String}
    {options : FormatOptions} {out : Text}
    (h : layoutFormatter parse code parser options = .ok out) :
    visible out = visible code := by
  rcases layoutFormatter_cases h with rfl | ⟨grammar, tree, -, rfl⟩
  · exact Layout.visible_normalize options code
  · rw [Spacing.visible_respace, Layout.visible_normalize]

/-- A tree for `a= 'x  y'`. -/
def assignmentTree : Tree :=
  let leaf (kind : String) (named : Bool) (span : Span) (children : List Tree) : Tree :=
    .node ⟨kind, named, false, false, false, span, []⟩ children
  leaf "program" true ⟨0, 9⟩
    [leaf "identifier" true ⟨0, 1⟩ [], leaf "=" false ⟨1, 2⟩ [],
      leaf "string" true ⟨3, 9⟩ [leaf "'" false ⟨3, 4⟩ []]]

/-- Blank lines and indentation go and the sign gets its blanks; those in the string stay. -/
theorem visible_of_layoutFormatter_assignment :
    layoutFormatter (fun _ _ => .ok assignmentTree) "\n\t a= 'x  y' \x0b\r\n".toList
        "javascript" {} = .ok "a = 'x  y'".toList ∧
      visible "a = 'x  y'".toList = visible "\n\t a= 'x  y' \x0b\r\n".toList := by
  have hgrammar : parserGrammar? "javascript" = some .javaScript := by decide +kernel
  have hlayout : Layout.normalize {} "\n\t a= 'x  y' \x0b\r\n".toList = "a= 'x  y'".toList := by
    decide +kernel
  have hspacing : Spacing.respace "a= 'x  y'".toList assignmentTree = "a = 'x  y'".toList := by
    decide +kernel
  have hout : layoutFormatter (fun _ _ => .ok assignmentTree)
      "\n\t a= 'x  y' \x0b\r\n".toList "javascript" {} = .ok "a = 'x  y'".toList := by
    rw [← hspacing, ← hlayout, layoutFormatter, hgrammar]
    rfl
  exact ⟨hout, visible_of_layoutFormatter hout⟩

end MarkupHighlight
