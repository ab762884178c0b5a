import MarkupHighlight.Proofs.Block.Wrapped
import MarkupHighlight.Proofs.Markup.Parsing

/-!
What replaces a block is read back as what it was made from: `parse_wrap` gives the nodes of the
replacement and, for every highlighted text, the value of the template in it.
-/
namespace MarkupHighlight
open Markup Script

/-! The template. -/

/-- The template in the replacement, with its backticks. -/
def wrappedTemplate (html : Text) : Text := '\x60' :: (escapeTemplate html ++ ['\x60'])

theorem classify_wrappedTemplate (html : Text) :
    Expression.classify (wrappedTemplate html) = .template [⟨escapeTemplate html, html⟩] :=
  classify_spelled (spells_escapeTemplate html)

theorem wrappedTag_eq (html : Text) :
    wrappedTag html = ("@html ".toList ++ wrappedTemplate html) ++ ['}'] := by
  have htail : escapeTemplate html ++ "\x60\x7d".toList =
      escapeTemplate html ++ ['\x60'] ++ ['}'] :=
    (List.append_assoc (escapeTemplate html) ['\x60'] ['}']).symm
  exact congrArg (fun t => "@html ".toList ++ '\x60' :: t) htail

theorem bracedNode_wrappedTag (span : Span) (html : Text) :
    bracedNode span (wrappedTag html).dropLast = .tag "@html".toList span := by
  rw [wrappedTag_eq, List.dropLast_concat]
  generalize wrappedTemplate html = t
  rfl

/-! The markup around it. -/

/-- The size of a text that stands between two texts of known sizes. -/
theorem byteSize_between {a b : Text} {m n : Nat} (ha : byteSize a = m) (hb : byteSize b = n)
    (t : Text) : byteSize (a ++ (t ++ b)) = m + (byteSize t + n) := by
  rw [byteSize_append, byteSize_append, ha, hb]

/-- An element whose tags have known sizes, alone. -/
theorem Markup.Forest.nodesAt_alone {opening closing : Text} {k l : Nat}
    (ho : byteSize opening = k) (hc : byteSize closing = l) (name : Text)
    (attributes : List Attribute) (children : Forest) (n : Nat) :
    (Forest.closed opening name attributes children closing .nil).nodesAt n =
      [.element name ⟨n, n + (k + (byteSize children.written + l))⟩ (attributes.map (.shift n))
        (children.nodesAt (n + k))] := by
  rw [nodesAt, nodesAt, byteSize_between ho hc, ho]

theorem written_alone (opening closing name : Text) (attributes : List Attribute)
    (children : Forest) :
    (Forest.closed opening name attributes children closing .nil).written =
      opening ++ (children.written ++ closing) := by
  rw [Forest.written, Forest.written, List.append_nil]

theorem wrap_eq (html : Text) :
    wrap html = "<pre>".toList ++ ("<code class=\"hljs\">".toList ++
      ('{' :: wrappedTag html ++ "</code>".toList) ++ "</pre>".toList) := by
  have h := written_wrappedForest html .nil
  rw [Forest.written, List.append_nil] at h
  rw [← h, wrappedForest, written_alone, written_alone, Forest.written, Forest.written,
    List.append_nil]
  rfl

theorem byteSize_wrap (html : Text) :
    byteSize (wrap html) = 37 + byteSize ('{' :: wrappedTag html) := by
  have hcode : byteSize ("<code class=\"hljs\">".toList ++
      ('{' :: wrappedTag html ++ "</code>".toList)) =
        19 + (byteSize ('{' :: wrappedTag html) + 7) :=
    byteSize_between (by decide) (by decide) _
  have hpre : byteSize (wrap html) = 5 + (byteSize ("<code class=\"hljs\">".toList ++
      ('{' :: wrappedTag html ++ "</code>".toList)) + 6) := by
    rw [wrap_eq]
    exact byteSize_between (by decide) (by decide) _
  omega

theorem nodesAt_wrappedForest (html : Text) :
    (wrappedForest html .nil).nodesAt 0 =
      [.element "pre".toList ⟨0, byteSize (wrap html)⟩ []
        [.element "code".toList ⟨5, byteSize (wrap html) - 6⟩
          [⟨"class".toList, ⟨11, 23⟩, some [.text "hljs".toList]⟩]
          [.tag "@html".toList ⟨24, byteSize (wrap html) - 13⟩]]] := by
  have hattribute : (quotedTagAttribute "code".toList "class".toList "hljs".toList).shift (0 + 5) =
      ⟨"class".toList, ⟨11, 23⟩, some [.text "hljs".toList]⟩ := by decide
  rw [wrappedForest, Forest.nodesAt_alone (k := 5) (l := 6) (by decide) (by decide),
    Forest.nodesAt_alone (k := 19) (l := 7) (by decide) (by decide), written_alone,
    byteSize_between (m := 19) (n := 7) (by decide) (by decide), Forest.written, Forest.written,
    List.append_nil, Forest.nodesAt, bracedNode_wrappedTag, byteSize_wrap, List.map_singleton,
    hattribute]
  generalize byteSize ('{' :: wrappedTag html) = n
  have hpre : 0 + (5 + (19 + (n + 7) + 6)) = 37 + n := by omega
  have hcode : 0 + 5 + (19 + (n + 7)) = 37 + n - 6 := by omega
  have htag : 0 + 5 + 19 + n = 37 + n - 13 := by omega
  rw [hpre, hcode, Node.shift, Span.shift, htag]
  rfl

theorem slice?_wrap (html : Text) :
    slice? (wrap html) ⟨24, byteSize (wrap html) - 13⟩ = some ('{' :: wrappedTag html) := by
  have hlead : byteSize ("<pre>".toList ++ "<code class=\"hljs\">".toList) = 24 := by decide
  have hcut : wrap html = ("<pre>".toList ++ "<code class=\"hljs\">".toList) ++
      ('{' :: wrappedTag html ++ ("</code>".toList ++ "</pre>".toList)) := by
    rw [wrap_eq]
    simp only [List.append_assoc]
  have hstop : byteSize (wrap html) - 13 = 24 + byteSize ('{' :: wrappedTag html) := by
    rw [byteSize_wrap]
    omega
  rw [hstop, hcut]
  generalize "<pre>".toList ++ "<code class=\"hljs\">".toList = lead at hlead
  exact slice?_eq_some_iff.mpr ⟨lead, _, rfl, by rw [byteSize_append, hlead]⟩

/-- The markup for a highlighted text is one `pre` around one `code` around one tag, and the
template between `@html` and the end of the tag stands for that text. -/
theorem parse_wrap (html : Text) :
    parse (wrap html) = .ok ⟨byteSize (wrap html),
        [.element "pre".toList ⟨0, byteSize (wrap html)⟩ []
          [.element "code".toList ⟨5, byteSize (wrap html) - 6⟩
            [⟨"class".toList, ⟨11, 23⟩, some [.text "hljs".toList]⟩]
            [.tag "@html".toList ⟨24, byteSize (wrap html) - 13⟩]]]⟩ ∧
      ∃ template, slice? (wrap html) ⟨24, byteSize (wrap html) - 13⟩ =
          some ("\x7b@html ".toList ++ (template ++ ['}'])) ∧
        Expression.classify template = .template [⟨escapeTemplate html, html⟩] := by
  have hforest : (wrappedForest html .nil).Complete := ⟨sound_wrappedForest html .nil, rfl⟩
  have hparse := parse_written hforest
  rw [written_wrappedForest, Forest.written, List.append_nil, nodesAt_wrappedForest] at hparse
  refine ⟨hparse, wrappedTemplate html, ?_, classify_wrappedTemplate html⟩
  rw [slice?_wrap, wrappedTag_eq, List.append_assoc]
  rfl

end MarkupHighlight
