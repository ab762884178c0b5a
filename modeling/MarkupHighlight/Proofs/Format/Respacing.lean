import MarkupHighlight.Proofs.Format.VisibleText
import Mathlib.Data.List.Forall2

/-!
The spacing of tokens, seen from the tokens. A text whose tokens are in order is woven from them and
the gaps in front of them (`exists_links`). Spacing weaves the same tokens with other gaps
(`respaceTokens_weave`), which it would choose again where the tokens stand now
(`respaced_respaced`).
-/
namespace MarkupHighlight.Spacing
open Syntax

/-- The same token at another place. -/
def Token.moveTo (t : Token) (span : Span) : Token := { t with span }

/-- One token of a text with what stands in front of it. -/
structure Link where
  gap : Text
  token : Token
  text : Text

def weave : List Link → Text
  | [] => []
  | l :: ls => l.gap ++ (l.text ++ weave ls)

/-- The spans of the tokens are their places in the text that is woven behind `front`. -/
def Placed (front : Text) : List Link → Prop
  | [] => True
  | l :: ls =>
      l.token.span = ⟨byteSize (front ++ l.gap), byteSize (front ++ l.gap ++ l.text)⟩ ∧
        Placed (front ++ l.gap ++ l.text) ls

/-- No token starts before the end of the one in front of it. -/
def InOrder (left right : Token) : Prop := left.span.stop ≤ right.span.start

instance : DecidableRel InOrder := fun left right =>
  inferInstanceAs (Decidable (left.span.stop ≤ right.span.start))

/-- What may become of a token and of the gap in front of it. -/
structure Respaced (l l' : Link) : Prop where
  text : l'.text = l.text
  token : l'.token = l.token.moveTo l'.token.span
  kept : ('\n' ∈ l.gap ∨ ∃ c ∈ l.gap, isBlank c = false) → l'.gap = l.gap
  blank : '\n' ∉ l.gap → (∀ c ∈ l.gap, isBlank c = true) → l'.gap = [] ∨ l'.gap = [' ']
  newlines : l'.gap.count '\n' = l.gap.count '\n'

/-! What stands in a gap. -/

section
variable (left right : Token) {gap : Text}

theorem gapText_of_kept (h : '\n' ∈ gap ∨ ∃ c ∈ gap, isBlank c = false) :
    gapText left right gap = gap := by
  rw [gapText, if_pos]
  rcases h with h | ⟨c, hc, hblank⟩
  · simp [h]
  · have htrim : trim gap ≠ [] := by
      intro hnil
      rw [trim_eq_nil_iff.mp hnil c hc] at hblank
      cases hblank
    simp [htrim]

theorem gapText_of_blank (hnewline : '\n' ∉ gap) (hblank : ∀ c ∈ gap, isBlank c = true) :
    gapText left right gap = if isSpaced left right gap then [' '] else [] := by
  rw [gapText, if_neg]
  simp [hnewline, trim_eq_nil_iff.mpr hblank]

/-- Tokens that come apart by themselves are never joined. -/
theorem isSpaced_of_nil (h : isSpaced left right [] = true) (gap : Text) :
    isSpaced left right gap = true := by
  unfold isSpaced at h ⊢
  dsimp only at h ⊢
  split_ifs at h ⊢ <;> simp_all

/-- Only whether there is a gap matters, not what stands in it. -/
theorem isSpaced_of_ne_nil (h : gap ≠ []) :
    isSpaced left right gap = isSpaced left right [' '] := by
  have hempty : gap.isEmpty = [' '].isEmpty := by simpa using h
  unfold isSpaced
  rw [hempty]

theorem isSpaced_spaced (gap : Text) :
    isSpaced left right (if isSpaced left right gap then [' '] else []) =
      isSpaced left right gap := by
  cases hspaced : isSpaced left right gap with
  | true =>
    rw [if_pos rfl]
    by_cases hnil : gap = []
    · apply isSpaced_of_nil
      rwa [← hnil]
    · rw [← isSpaced_of_ne_nil left right hnil, hspaced]
  | false =>
    rw [if_neg Bool.false_ne_true, Bool.eq_false_iff]
    intro hnil
    rw [isSpaced_of_nil left right hnil gap] at hspaced
    cases hspaced

/-- A gap is kept or it has blanks of one line. -/
theorem gap_cases (gap : Text) : ('\n' ∈ gap ∨ ∃ c ∈ gap, isBlank c = false) ∨
    '\n' ∉ gap ∧ ∀ c ∈ gap, isBlank c = true := by
  by_cases hnewline : '\n' ∈ gap
  · exact .inl (.inl hnewline)
  · by_cases hblank : ∀ c ∈ gap, isBlank c = true
    · exact .inr ⟨hnewline, hblank⟩
    · push Not at hblank
      obtain ⟨c, hc, hnot⟩ := hblank
      exact .inl (.inr ⟨c, hc, Bool.eq_false_iff.mpr hnot⟩)

/-- The choice for a gap is the choice for what it has become. -/
theorem gapText_gapText (gap : Text) :
    gapText left right (gapText left right gap) = gapText left right gap := by
  rcases gap_cases gap with hkept | ⟨hnewline, hblank⟩
  · rw [gapText_of_kept left right hkept, gapText_of_kept left right hkept]
  · have hchosen := gapText_of_blank left right hnewline hblank
    rw [hchosen, gapText_of_blank, isSpaced_spaced]
    · split <;> simp
    · split <;> simp [isBlank]

theorem count_gapText (gap : Text) :
    (gapText left right gap).count '\n' = gap.count '\n' := by
  rcases gap_cases gap with hkept | ⟨hnewline, hblank⟩
  · rw [gapText_of_kept left right hkept]
  · rw [gapText_of_blank left right hnewline hblank, List.count_eq_zero_of_not_mem hnewline]
    split <;> rfl

end

/-! Links with new gaps. -/

/-- The links with new gaps behind `left`, their tokens at their places behind `front`. -/
def regapFrom (front : Text) (left : Token) : List Link → List Link
  | [] => []
  | l :: ls =>
      let gap := gapText left l.token l.gap
      let span : Span := ⟨byteSize (front ++ gap), byteSize (front ++ gap ++ l.text)⟩
      ⟨gap, l.token.moveTo span, l.text⟩ :: regapFrom (front ++ gap ++ l.text) l.token ls

/-- The first link stays as it is. -/
def respaced (front : Text) : List Link → List Link
  | [] => []
  | l :: ls => l :: regapFrom (front ++ l.gap ++ l.text) l.token ls

theorem placed_regapFrom (front : Text) (left : Token) (links : List Link) :
    Placed front (regapFrom front left links) := by
  induction links generalizing front left with
  | nil => trivial
  | cons l ls ih => exact ⟨rfl, ih _ _⟩

theorem forall₂_regapFrom (front : Text) (left : Token) (links : List Link) :
    List.Forall₂ Respaced links (regapFrom front left links) := by
  induction links generalizing front left with
  | nil => exact .nil
  | cons l ls ih =>
    refine .cons ?_ (ih _ _)
    constructor
    · rfl
    · rfl
    · exact gapText_of_kept left l.token
    · intro hnewline hblank
      have hchosen := gapText_of_blank left l.token hnewline hblank
      cases hspaced : isSpaced left l.token l.gap with
      | true =>
        rw [hspaced] at hchosen
        exact .inr hchosen
      | false =>
        rw [hspaced] at hchosen
        exact .inl hchosen
    · exact count_gapText left l.token l.gap

/-- Gaps depend on the kinds of tokens, not on their places. -/
theorem regapFrom_regapFrom (front : Text) (left : Token) (span : Span) (links : List Link) :
    regapFrom front (left.moveTo span) (regapFrom front left links) =
      regapFrom front left links := by
  induction links generalizing front left span with
  | nil => rfl
  | cons l ls ih =>
    have hgap (s : Span) : gapText (left.moveTo span) (l.token.moveTo s)
        (gapText left l.token l.gap) = gapText left l.token l.gap :=
      gapText_gapText left l.token l.gap
    simp only [regapFrom, hgap]
    congr 1
    exact ih _ _ _

theorem placed_respaced {front : Text} {links : List Link} (h : Placed front links) :
    Placed front (respaced front links) := by
  cases links with
  | nil => trivial
  | cons l ls => exact ⟨h.1, placed_regapFrom _ _ _⟩

theorem forall₂_respaced (front : Text) {links : List Link} (h : ∀ l ∈ links.head?, l.gap = []) :
    List.Forall₂ Respaced links (respaced front links) := by
  cases links with
  | nil => exact .nil
  | cons l ls =>
    have hgap : l.gap = [] := h l rfl
    exact .cons ⟨rfl, rfl, fun _ => rfl, fun _ _ => .inl hgap, rfl⟩ (forall₂_regapFrom _ _ _)

theorem respaced_respaced (front : Text) (links : List Link) :
    respaced front (respaced front links) = respaced front links := by
  cases links with
  | nil => rfl
  | cons l ls =>
    simp only [respaced]
    congr 1
    exact regapFrom_regapFrom _ l.token l.token.span ls

/-! Spacing of woven text. -/

theorem append_weave_cons (front back : Text) (l : Link) (ls : List Link) :
    front ++ (weave (l :: ls) ++ back) = front ++ l.gap ++ l.text ++ (weave ls ++ back) := by
  simp [weave]

theorem respaceFrom_weave {front : Text} {left : Token} (hleft : left.span.stop = byteSize front)
    {links : List Link} (h : Placed front links) (front' back : Text) :
    respaceFrom (front ++ (weave links ++ back)) left (links.map (·.token)) =
      some (weave (regapFrom front' left links) ++ back) := by
  induction links generalizing front left front' with
  | nil =>
    rw [weave, List.nil_append, List.map_nil, respaceFrom, hleft, dropBytes_byteSize]
    rfl
  | cons l ls ih =>
    obtain ⟨hspan, hls⟩ := h
    have hgap : slice? (front ++ (weave (l :: ls) ++ back)) ⟨left.span.stop, l.token.span.start⟩ =
        some l.gap := by
      apply slice?_eq_some_iff.mpr
      refine ⟨front, l.text ++ weave ls ++ back, ?_, ?_⟩
      · simp [weave]
      · rw [hleft, hspan]
    have htext : sliceBytes (front ++ (weave (l :: ls) ++ back)) l.token.span.start
        l.token.span.stop = l.text := by
      rw [hspan]
      simpa [weave] using sliceBytes_part (front ++ l.gap) l.text (weave ls ++ back)
    have hstop : l.token.span.stop = byteSize (front ++ l.gap ++ l.text) := by rw [hspan]
    have hrest := ih hstop hls (front' ++ gapText left l.token l.gap ++ l.text)
    rw [← append_weave_cons] at hrest
    rw [List.map_cons, respaceFrom, hgap, hrest, htext]
    simp [regapFrom, weave]

theorem respaceTokens_weave {front : Text} {links : List Link} (h : Placed front links)
    (back : Text) :
    respaceTokens (front ++ (weave links ++ back)) (links.map (·.token)) =
      front ++ (weave (respaced front links) ++ back) := by
  cases links with
  | nil => rfl
  | cons l ls =>
    obtain ⟨hspan, hls⟩ := h
    have hstop : l.token.span.stop = byteSize (front ++ l.gap ++ l.text) := by rw [hspan]
    have hrest := respaceFrom_weave hstop hls (front ++ l.gap ++ l.text) back
    have htake : takeBytes (front ++ l.gap ++ l.text ++ (weave ls ++ back)) l.token.span.stop =
        front ++ l.gap ++ l.text := by
      rw [hstop, takeBytes_byteSize]
    rw [append_weave_cons, List.map_cons, respaceTokens, hrest]
    dsimp only
    rw [htake]
    simp [respaced, weave]

/-! Tokens in order are woven. -/

theorem exists_links {ts : List Token} (front rest : Text)
    (hslices : ∀ t ∈ ts, (slice? (front ++ rest) t.span).isSome = true)
    (hstart : ∀ t ∈ ts.head?, byteSize front ≤ t.span.start) (horder : ts.IsChain InOrder) :
    ∃ links back, rest = weave links ++ back ∧ links.map (·.token) = ts ∧ Placed front links := by
  induction ts generalizing front rest with
  | nil => exact ⟨[], rest, rfl, rfl, trivial⟩
  | cons t ts ih =>
    obtain ⟨hslice, hslices⟩ := List.forall_mem_cons.mp hslices
    obtain ⟨hnext, horder⟩ := List.isChain_cons.mp horder
    obtain ⟨text, htext⟩ := Option.isSome_iff_exists.mp hslice
    obtain ⟨a, b, hsource, hspan⟩ := slice?_eq_some_iff.mp htext
    have hle : byteSize front ≤ byteSize a := by
      have := hstart t rfl
      rwa [hspan] at this
    obtain ⟨gap, rfl, rfl⟩ := exists_of_append_eq hsource hle
    have hfront : front ++ gap ++ text ++ b = front ++ (gap ++ (text ++ b)) := by simp
    have hstart : ∀ u ∈ ts.head?, byteSize (front ++ gap ++ text) ≤ u.span.start := by
      intro u hu
      have := hnext u hu
      rwa [InOrder, hspan] at this
    obtain ⟨links, back, rfl, rfl, hplaced⟩ :=
      ih (front ++ gap ++ text) b (by rwa [hfront]) hstart horder
    refine ⟨⟨gap, t, text⟩ :: links, back, ?_, rfl, hspan, hplaced⟩
    simp [weave]

theorem isChain_of_respaceFrom {source : Text} {left : Token} {ts : List Token} {rest : Text}
    (h : respaceFrom source left ts = some rest) : (left :: ts).IsChain InOrder := by
  induction ts generalizing left rest with
  | nil => exact .singleton _
  | cons right ts ih =>
    obtain ⟨gap, hgap, h⟩ := Option.bind_eq_some_iff.mp h
    obtain ⟨rest, hrest, -⟩ := Option.bind_eq_some_iff.mp h
    obtain ⟨a, b, -, hspan⟩ := slice?_eq_some_iff.mp hgap
    obtain ⟨hleft, hright⟩ := Span.mk.inj hspan
    refine List.isChain_cons_cons.mpr ⟨?_, ih hrest⟩
    rw [InOrder, hleft, hright, byteSize_append]
    exact Nat.le_add_right _ _

theorem respaceTokens_of_not_isChain (source : Text) {ts : List Token} (h : ¬ ts.IsChain InOrder) :
    respaceTokens source ts = source := by
  cases ts with
  | nil => rfl
  | cons t ts =>
    have hnone : respaceFrom source t ts = none := by
      apply Option.eq_none_iff_forall_ne_some.mpr
      intro rest hrest
      exact h (isChain_of_respaceFrom hrest)
    rw [respaceTokens, hnone]

/-! Slices that fail. -/

/-- `respaceFrom` with the other slices checked too: no result where one of them fails. -/
def respaceFrom? (source : Text) (left : Token) : List Token → Option (Option Text)
  | [] => do
      let rest ← slice? source ⟨left.span.stop, byteSize source⟩
      return some rest
  | right :: ts =>
      match slice? source ⟨left.span.stop, right.span.start⟩ with
      | none => some none
      | some gap => do
          let text ← slice? source right.span
          let rest ← respaceFrom? source right ts
          return rest.map (gapText left right gap ++ text ++ ·)

def respaceTokens? (source : Text) : List Token → Option Text
  | [] => some source
  | t :: ts => do
      let front ← slice? source ⟨0, t.span.start⟩
      let text ← slice? source t.span
      match ← respaceFrom? source t ts with
      | some rest => return front ++ text ++ rest
      | none => return source

section
variable {source : Text}

theorem respaceFrom?_eq {left : Token} {ts : List Token}
    (hleft : (slice? source left.span).isSome = true)
    (hslices : ∀ t ∈ ts, (slice? source t.span).isSome = true) :
    respaceFrom? source left ts = some (respaceFrom source left ts) := by
  induction ts generalizing left with
  | nil =>
    obtain ⟨text, htext⟩ := Option.isSome_iff_exists.mp hleft
    obtain ⟨a, b, rfl, hspan⟩ := slice?_eq_some_iff.mp htext
    have hrest : slice? (a ++ (text ++ b)) ⟨left.span.stop, byteSize (a ++ (text ++ b))⟩ = some b := by
      apply slice?_eq_some_iff.mpr
      refine ⟨a ++ text, [], by simp, ?_⟩
      simp [hspan]
    have hdrop : dropBytes (a ++ (text ++ b)) left.span.stop = b := by
      rw [hspan, ← List.append_assoc, dropBytes_byteSize]
    rw [respaceFrom?, hrest, respaceFrom, hdrop]
    rfl
  | cons right ts ih =>
    obtain ⟨hright, hslices⟩ := List.forall_mem_cons.mp hslices
    obtain ⟨text, htext⟩ := Option.isSome_iff_exists.mp hright
    have hslice : sliceBytes source right.span.start right.span.stop = text := by
      obtain ⟨a, b, rfl, hspan⟩ := slice?_eq_some_iff.mp htext
      rw [hspan, sliceBytes_part]
    rw [respaceFrom?, respaceFrom, hslice, htext, ih hright hslices]
    cases slice? source ⟨left.span.stop, right.span.start⟩ with
    | none => rfl
    | some gap => cases respaceFrom source right ts <;> rfl

/-- Where all tokens are slices nothing fails. -/
theorem respaceTokens?_eq {ts : List Token}
    (hslices : ∀ t ∈ ts, (slice? source t.span).isSome = true) :
    respaceTokens? source ts = some (respaceTokens source ts) := by
  cases ts with
  | nil => rfl
  | cons t ts =>
    obtain ⟨ht, hslices⟩ := List.forall_mem_cons.mp hslices
    obtain ⟨text, htext⟩ := Option.isSome_iff_exists.mp ht
    obtain ⟨a, b, rfl, hspan⟩ := slice?_eq_some_iff.mp htext
    have hfront : slice? (a ++ (text ++ b)) ⟨0, t.span.start⟩ = some a := by
      apply slice?_eq_some_iff.mpr
      refine ⟨[], text ++ b, rfl, ?_⟩
      rw [hspan]
      rfl
    have hstop : takeBytes (a ++ (text ++ b)) t.span.stop = a ++ text := by
      rw [hspan, ← List.append_assoc, takeBytes_byteSize]
    rw [respaceTokens?, respaceTokens, hfront, htext, respaceFrom?_eq ht hslices, hstop]
    cases respaceFrom (a ++ (text ++ b)) t ts <;> rfl

end

/-! Trees with their tokens at other places. -/

mutual

/-- The tree with its tokens moved to the first of the given places, and the other places. -/
def relocate : Tree → List Span → Tree × List Span
  | .node info children, places =>
      if children.isEmpty || verbatimKinds.contains info.kind then
        if info.span.stop > info.span.start then
          (.node { info with span := places.headD info.span } children, places.tail)
        else (.node info children, places)
      else (.node info (relocateAmong children places).1, (relocateAmong children places).2)

def relocateAmong : List Tree → List Span → List Tree × List Span
  | [], places => ([], places)
  | t :: ts, places =>
      ((relocate t places).1 :: (relocateAmong ts (relocate t places).2).1,
        (relocateAmong ts (relocate t places).2).2)

end

theorem isEmpty_relocateAmong (ts : List Tree) (places : List Span) :
    (relocateAmong ts places).1.isEmpty = ts.isEmpty := by
  cases ts with
  | nil => rfl
  | cons => rfl

mutual

theorem relocate_append : {parentKind : String} → {tree : Tree} → {places : List Span} →
    (rest : List Span) → places.length = (tokensOf parentKind tree).length → (∀ p ∈ places, p.start < p.stop) →
    tokensOf parentKind (relocate tree (places ++ rest)).1 =
        List.zipWith Token.moveTo (tokensOf parentKind tree) places ∧
      (relocate tree (places ++ rest)).2 = rest
  | parentKind, .node info children, places, rest, hlength, hplaces => by
      unfold relocate
      rw [tokensOf] at hlength ⊢
      split at hlength
      next hleaf =>
        rw [if_pos hleaf, if_pos hleaf]
        split at hlength
        next hlt =>
          rw [if_pos hlt, if_pos hlt]
          obtain ⟨place, rfl⟩ := List.length_eq_one_iff.mp hlength
          have hplace : place.stop > place.start := hplaces place (List.mem_singleton_self _)
          constructor
          · rw [tokensOf, if_pos hleaf]
            exact if_pos hplace
          · rfl
        next hnot =>
          rw [if_neg hnot, if_neg hnot]
          obtain rfl := List.eq_nil_of_length_eq_zero hlength
          constructor
          · rw [tokensOf, if_pos hleaf, if_neg hnot]
            rfl
          · rfl
      next hnode =>
        rw [if_neg hnode, if_neg hnode]
        obtain ⟨htokens, hrest⟩ := relocateAmong_append rest hlength hplaces
        refine ⟨?_, hrest⟩
        rw [tokensOf, isEmpty_relocateAmong, if_neg hnode]
        exact htokens

theorem relocateAmong_append : {parentKind : String} → {ts : List Tree} →
    {places : List Span} → (rest : List Span) →
    places.length = (tokensAmong parentKind ts).length → (∀ p ∈ places, p.start < p.stop) →
    tokensAmong parentKind (relocateAmong ts (places ++ rest)).1 =
        List.zipWith Token.moveTo (tokensAmong parentKind ts) places ∧
      (relocateAmong ts (places ++ rest)).2 = rest
  | _, [], places, rest, hlength, _ => by
      obtain rfl := List.eq_nil_of_length_eq_zero hlength
      exact ⟨rfl, rfl⟩
  | parentKind, t :: ts, places, rest, hlength, hplaces => by
      rw [tokensAmong, List.length_append] at hlength
      obtain ⟨ps, qs, rfl, hps, hqs⟩ : ∃ ps qs, places = ps ++ qs ∧
          ps.length = (tokensOf parentKind t).length ∧
          qs.length = (tokensAmong parentKind ts).length := by
        refine ⟨places.take (tokensOf parentKind t).length,
          places.drop (tokensOf parentKind t).length, (List.take_append_drop ..).symm, ?_, ?_⟩
        · rw [List.length_take, hlength, Nat.min_eq_left (Nat.le_add_right _ _)]
        · rw [List.length_drop, hlength, Nat.add_sub_cancel_left]
      obtain ⟨hposps, hposqs⟩ := List.forall_mem_append.mp hplaces
      obtain ⟨htokens, hplaces⟩ := relocate_append (qs ++ rest) hps hposps
      obtain ⟨htokens', hrest⟩ := relocateAmong_append rest hqs hposqs
      rw [List.append_assoc, relocateAmong, hplaces]
      refine ⟨?_, hrest⟩
      rw [tokensAmong, tokensAmong, htokens, htokens', List.zipWith_append hps.symm]

end

/-! The whole of it. -/

theorem zipWith_moveTo {links links' : List Link} (h : List.Forall₂ Respaced links links') :
    List.zipWith Token.moveTo (links.map (·.token)) (links'.map (·.token.span)) =
      links'.map (·.token) := by
  induction h with
  | nil => rfl
  | cons hl _ ih => rw [List.map_cons, List.map_cons, List.zipWith_cons_cons, ih, ← hl.token,
      List.map_cons]

/-- Tokens that are moved with their texts do not vanish. -/
theorem start_lt_stop_of_respaced {front front' : Text} {links links' : List Link}
    (h : List.Forall₂ Respaced links links') (hplaced : Placed front links)
    (hplaced' : Placed front' links')
    (hlt : ∀ t ∈ links.map (·.token), t.span.start < t.span.stop) :
    ∀ p ∈ links'.map (·.token.span), p.start < p.stop := by
  induction h generalizing front front' with
  | nil => exact nofun
  | @cons l l' ls ls' hl _ ih =>
    obtain ⟨hspan, hplaced⟩ := hplaced
    obtain ⟨hspan', hplaced'⟩ := hplaced'
    obtain ⟨hfirst, hlt⟩ := List.forall_mem_cons.mp hlt
    refine List.forall_mem_cons.mpr ⟨?_, ih hplaced hplaced' hlt⟩
    have htext : byteSize (front ++ l.gap) < byteSize (front ++ l.gap ++ l.text) := by
      rwa [hspan] at hfirst
    rw [byteSize_append _ l.text] at htext
    show l'.token.span.start < l'.token.span.stop
    rw [hspan', hl.text, byteSize_append _ l.text]
    show byteSize (front' ++ l'.gap) < byteSize (front' ++ l'.gap) + byteSize l.text
    omega

/-- `source` is woven from the tokens of `tree`, and `out` from the same tokens with other gaps,
between the same ends. -/
structure Rewoven (source : Text) (tree : Tree) (out : Text) (links links' : List Link) : Prop where
  ends : ∃ front back, source = front ++ (weave links ++ back) ∧
    out = front ++ (weave links' ++ back) ∧ Placed front links ∧ Placed front links'
  tokens : links.map (·.token) = tokensOf "" tree
  /-- What stands in front of the first token is no gap. -/
  first : ∀ l ∈ links.head?, l.gap = []
  respaced : List.Forall₂ Respaced links links'

theorem exists_woven {source : Text} {tree : Tree}
    (hslices : ∀ t ∈ tokensOf "" tree, (slice? source t.span).isSome = true)
    (horder : (tokensOf "" tree).IsChain InOrder) :
    ∃ front links back, source = front ++ (weave links ++ back) ∧ Placed front links ∧
      links.map (·.token) = tokensOf "" tree ∧ ∀ l ∈ links.head?, l.gap = [] := by
  cases htokens : tokensOf "" tree with
  | nil => exact ⟨[], [], source, rfl, trivial, rfl, nofun⟩
  | cons t ts =>
    rw [htokens] at hslices horder
    obtain ⟨links, back, hsource, hlinks, hplaced⟩ := exists_links [] source
      hslices (fun _ _ => Nat.zero_le _) horder
    obtain ⟨l, ls, rfl⟩ := List.exists_cons_of_ne_nil (l := links) (by rintro rfl; cases hlinks)
    -- the gap of the first link is what stands in front of all tokens
    refine ⟨l.gap, ⟨[], l.token, l.text⟩ :: ls, back, ?_, ?_, hlinks, ?_⟩
    · rw [hsource]
      simp [weave]
    · simpa [Placed] using hplaced
    · rintro _ ⟨⟩
      rfl

/-- If the tokens of a tree are slices of the source and in order, spacing keeps them, what stands in
front of the first and behind the last one, and each gap that holds a line feed or more than blanks;
from any other gap it makes one space or nothing. With its tokens at their new places the tree has
the output for its layout already. If two tokens are out of order the source stays as it is. -/
theorem respace_rewoven {source : Text} {tree : Tree}
    (hslices : ∀ t ∈ tokensOf "" tree, (slice? source t.span).isSome = true) :
    respaceTokens? source (tokensOf "" tree) = some (respace source tree) ∧
    ((tokensOf "" tree).IsChain InOrder → ∃ links links',
      Rewoven source tree (respace source tree) links links' ∧
      let moved := (relocate tree (links'.map (·.token.span))).1
      tokensOf "" moved = links'.map (·.token) ∧
      respace (respace source tree) moved = respace source tree) ∧
    (¬ (tokensOf "" tree).IsChain InOrder → respace source tree = source) := by
  refine ⟨respaceTokens?_eq hslices, fun horder => ?_, respaceTokens_of_not_isChain source⟩
  obtain ⟨front, links, back, hsource, hplaced, htokens, hfirst⟩ := exists_woven hslices horder
  have hout : respace source tree = front ++ (weave (respaced front links) ++ back) := by
    rw [respace, ← htokens, hsource]
    exact respaceTokens_weave hplaced back
  have hrespaced := forall₂_respaced front hfirst
  have hplaced' := placed_respaced hplaced
  refine ⟨links, respaced front links,
    ⟨⟨front, back, hsource, hout, hplaced, hplaced'⟩, htokens, hfirst, hrespaced⟩, ?_⟩
  have hmoved : tokensOf "" (relocate tree ((respaced front links).map (·.token.span))).1 =
      (respaced front links).map (·.token) := by
    have hlt := start_lt_stop_of_respaced hrespaced hplaced hplaced' (by
      intro t ht
      rw [htokens] at ht
      exact start_lt_stop_of_mem_tokensOf ht)
    have hlength : ((respaced front links).map (·.token.span)).length = (tokensOf "" tree).length := by
      rw [← htokens, List.length_map, List.length_map, hrespaced.length_eq]
    have hmove := (relocate_append [] hlength hlt).1
    rwa [List.append_nil, ← htokens, zipWith_moveTo hrespaced] at hmove
  refine ⟨hmoved, ?_⟩
  rw [hout, respace, hmoved, respaceTokens_weave hplaced', respaced_respaced]

/-- The sign gets its blanks, the string keeps its own, and with the tokens where they are then
nothing changes. -/
theorem respace_rewoven_assignment :
    let source := "a= 'x  y'".toList
    (∀ t ∈ tokensOf "" assignmentTree, (slice? source t.span).isSome = true) ∧
      (tokensOf "" assignmentTree).IsChain InOrder ∧
      respace source assignmentTree = "a = 'x  y'".toList ∧
      ∃ links links', Rewoven source assignmentTree (respace source assignmentTree) links links' ∧
        let moved := (relocate assignmentTree (links'.map (·.token.span))).1
        respace "a = 'x  y'".toList moved = "a = 'x  y'".toList := by
  intro source
  have hslices : ∀ t ∈ tokensOf "" assignmentTree, (slice? source t.span).isSome = true := by
    decide +kernel
  have horder : (tokensOf "" assignmentTree).IsChain InOrder := by
    decide +kernel
  have hout : respace source assignmentTree = "a = 'x  y'".toList := by
    decide +kernel
  obtain ⟨links, links', hrewoven, -, hstable⟩ := (respace_rewoven hslices).2.1 horder
  refine ⟨hslices, horder, hout, links, links', hrewoven, ?_⟩
  rwa [hout] at hstable

end MarkupHighlight.Spacing
