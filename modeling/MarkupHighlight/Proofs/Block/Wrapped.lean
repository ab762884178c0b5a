import MarkupHighlight.Block.Transform
import MarkupHighlight.Proofs.Markup.Tags
import MarkupHighlight.Proofs.Markup.Forest
import MarkupHighlight.Proofs.Script.Spelling

/-!
The markup that replaces a block, as a forest: a `pre` element around a `code` element around one
tag. Whatever the highlighted text is, its escaped form ends where its template ends.
-/
namespace MarkupHighlight
open Markup Script

/-- Escaping puts nothing but a backslash in front. -/
theorem head_escapeTemplate {s : Text} {a : Char} (ha : a ≠ '\\')
    (h : (escapeTemplate s).head? = some a) : ∃ s', s = a :: s' := by
  unfold escapeTemplate at h
  split at h
  next => cases h
  next => exact absurd (Option.some.inj h).symm ha
  next c s _ =>
    split at h
    next => exact absurd (Option.some.inj h).symm ha
    next => exact ⟨s, by rw [Option.some.inj h]⟩

/-- The escaped text spells the text as a template. -/
theorem spells_escapeTemplate (html : Text) : Spells .backtick (escapeTemplate html) html := by
  fun_induction escapeTemplate html with
  | case1 => exact .nil
  | case2 s ih => exact .escape (.itself (by decide) (by decide) (by decide)) ih
  | case3 c s _ hc ih =>
    rcases hc with rfl | rfl
    · exact .escape (.itself (by decide) (by decide) (by decide)) ih
    · exact .escape (.itself (by decide) (by decide) (by decide)) ih
  | case4 c s hs hc ih =>
    obtain ⟨hslash, htick⟩ := not_or.mp hc
    refine .raw ⟨hslash, htick, fun h => absurd rfl h, fun _ hdollar hbrace => ?_⟩ ih
    obtain ⟨s', rfl⟩ := head_escapeTemplate (by decide) hbrace
    exact hs s' hdollar rfl

/-- What `wrap` writes between the braces. -/
def wrappedTag (html : Text) : Text :=
  "@html ".toList ++ '\x60' :: (escapeTemplate html ++ "\x60\x7d".toList)

theorem afterBrace_wrappedTag (html t : Text) : afterBrace (wrappedTag html ++ t) = some t := by
  have htemplate : resume [.template, .code 0] (escapeTemplate html ++ '\x60' :: '}' :: t) =
      resume [.code 0] ('}' :: t) := resume_spelled (spells_escapeTemplate html) _ _
  have hassoc : wrappedTag html ++ t =
      "@html ".toList ++ '\x60' :: (escapeTemplate html ++ '\x60' :: '}' :: t) := by
    unfold wrappedTag
    simp
  rw [hassoc, afterBrace]
  have hopen : resume [.code 0] ("@html ".toList ++ '\x60' :: (escapeTemplate html ++
      '\x60' :: '}' :: t)) = resume [.template, .code 0] (escapeTemplate html ++
        '\x60' :: '}' :: t) := by
    simp [resume, isQuote, isOpening, isClosing]
  rw [hopen, htemplate]
  simp [resume, isQuote, isOpening]

/-- The replacement of a block, with what follows it. -/
def wrappedForest (html : Text) (rest : Forest) : Forest :=
  .closed ('<' :: ("pre".toList ++ ['>'])) "pre".toList []
    (.closed (quotedTag "code".toList "class".toList "hljs".toList) "code".toList
      [quotedTagAttribute "code".toList "class".toList "hljs".toList]
      (.leaf ('{' :: wrappedTag html)
        (bracedNode ⟨0, byteSize ('{' :: wrappedTag html)⟩ (wrappedTag html).dropLast) .nil)
      ('<' :: '/' :: ("code".toList ++ ['>'])) .nil)
    ('<' :: '/' :: ("pre".toList ++ ['>'])) rest

theorem wrap_ne_nil (html : Text) : wrap html ≠ [] := by
  unfold wrap
  simp

theorem written_wrappedForest (html : Text) (rest : Forest) :
    (wrappedForest html rest).written = wrap html ++ rest.written := by
  unfold wrap wrappedForest wrappedTag
  simp [Forest.written, quotedTag, quotedAttribute]

theorem isPlainName_pre : IsPlainName "pre".toList where
  chars := List.all_eq_true.mp (by decide)
  head := ⟨'p', ['r', 'e'], by decide, by decide⟩
  not_void := by decide
  not_raw := by decide

theorem isPlainName_code : IsPlainName "code".toList where
  chars := List.all_eq_true.mp (by decide)
  head := ⟨'c', ['o', 'd', 'e'], by decide, by decide⟩
  not_void := by decide
  not_raw := by decide

theorem sound_wrappedForest (html : Text) {rest : Forest} (hrest : rest.Sound) :
    (wrappedForest html rest).Sound := by
  have hkey : IsPlainKey "class".toList := ⟨by decide, List.all_eq_true.mp (by decide)⟩
  refine .closed (isLexeme_bareTag isPlainName_pre) ?_ (by simp [Forest.unclosed])
    (isLexeme_bareCloseTag isPlainName_pre) hrest
  refine .closed (isLexeme_quotedTag isPlainName_code hkey
    (List.all_eq_true.mp (by decide))) ?_
    (by simp [Forest.unclosed]) (isLexeme_bareCloseTag isPlainName_code) .nil
  exact .leaf (isLexeme_braced (afterBrace_wrappedTag html)) .nil

end MarkupHighlight
