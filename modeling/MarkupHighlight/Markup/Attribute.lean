import MarkupHighlight.Markup.Node
import MarkupHighlight.Markup.Error

/-!
Reading the attributes of a tag. `readAttribute_shorter` says that an attribute takes at least one
character, so that reading all attributes of a tag ends.
-/
namespace MarkupHighlight.Markup
open Script

/-- A place in a document: its offset and the text from there on. -/
structure Cursor where
  offset : Nat
  rest : Text
  deriving DecidableEq, Repr

/-- The place where `rest`, a tail of the cursor's text, starts. -/
def Cursor.moveTo (c : Cursor) (rest : Text) : Cursor :=
  ⟨c.offset + byteSize (before c.rest rest), rest⟩

@[simp, grind =] theorem Cursor.rest_moveTo (c : Cursor) (r : Text) : (c.moveTo r).rest = r := rfl

def Cursor.skipBlanks (c : Cursor) : Cursor := c.moveTo (c.rest.dropWhile isTagBlank)

theorem length_dropWhile_le {α : Type} (p : α → Bool) (s : List α) :
    (s.dropWhile p).length ≤ s.length :=
  (List.dropWhile_suffix p).length_le

/-- What a brace opened just before `s` encloses, given what follows its closing brace. -/
def enclosed (s rest : Text) : Text := (before s rest).dropLast

def textChunk (raw : Text) : List Chunk := if raw.isEmpty then [] else [.text raw]

/-- The value of an attribute from just after its opening quote, which stands at `openAt`. Every
brace in it starts an expression. -/
def readChunks (quote : Char) (openAt : Nat) (c : Cursor) : Except Error (List Chunk × Cursor) :=
  let raw := c.rest.takeWhile fun d => d != quote && d != '{'
  match _h : c.rest.dropWhile fun d => d != quote && d != '{' with
  | [] => .error (.unterminated .attributeValue openAt)
  | d :: s =>
      if d = quote then .ok (textChunk raw, c.moveTo s)
      else
        let brace := c.moveTo (d :: s)
        match _h' : afterBrace s with
        | none => .error (.unterminated .expression brace.offset)
        | some r =>
            match readChunks quote openAt (brace.moveTo r) with
            | .error e => .error e
            | .ok (more, c') =>
                .ok (textChunk raw ++
                  .expression (.classify (trim (enclosed s r))) :: more, c')
  termination_by c.rest.length
  decreasing_by
    have := length_dropWhile_le (fun d => d != quote && d != '{') c.rest
    have := afterBrace_length _h'
    simp_all
    omega

/-- What is left after the characters before the first one that ends the run, or before `/>`. -/
def afterRun (ends : Char → Bool) : Text → Text
  | [] => []
  | '/' :: '>' :: s => '/' :: '>' :: s
  | c :: s => if ends c then c :: s else afterRun ends s

/-- The characters of an unquoted attribute value end at a blank, at `>` and before `/>`. -/
def endsBareValue (c : Char) : Bool := isTagBlank c || c == '>'

/-- An attribute's name ends at a blank, at `=`, at `>` and before `/>`. -/
def endsAttributeName (c : Char) : Bool := isTagBlank c || c == '=' || c == '>'

/-- The value of the attribute that starts at `start`, read from after its `=` and blanks. -/
def readValue (start : Nat) (c : Cursor) : Except Error (List Chunk × Cursor) :=
  match c.rest with
  | [] => .error (.unterminated .attributeValue start)
  | '{' :: s =>
      match afterBrace s with
      | none => .error (.unterminated .expression c.offset)
      | some r => .ok ([.expression (.classify (trim (enclosed s r)))], c.moveTo r)
  | d :: s =>
      if isQuote d then
        (readChunks d c.offset (c.moveTo s)).map fun (chunks, c') =>
          (if chunks.isEmpty then [.text []] else chunks, c')
      else
        let r := afterRun endsBareValue (d :: s)
        .ok ([.text (before (d :: s) r)], c.moveTo r)

/-- Reads one attribute: an expression in braces, named by its text, or a name with or without a
value. -/
def readAttribute (c : Cursor) : Except Error (Attribute × Cursor) :=
  match c.rest with
  | '{' :: s =>
      match afterBrace s with
      | none => .error (.unterminated .expression c.offset)
      | some r =>
          let name := trim (enclosed s r)
          let c' := c.moveTo r
          .ok (⟨name, ⟨c.offset, c'.offset⟩, some [.expression (.classify name)]⟩, c')
  | s =>
      let r := afterRun endsAttributeName s
      let name := before s r
      if name.isEmpty then .error (.expected .attributeName c.offset)
      else
        let c' := c.moveTo r
        match r.dropWhile isTagBlank with
        | '=' :: t =>
            (readValue c.offset (c'.moveTo t).skipBlanks).map fun (chunks, c'') =>
              (⟨name, ⟨c.offset, c''.offset⟩, some chunks⟩, c'')
        | _ => .ok (⟨name, ⟨c.offset, c'.offset⟩, none⟩, c')

theorem readChunks_le {q : Char} {n : Nat} {c c' : Cursor} {l : List Chunk}
    (h : readChunks q n c = .ok (l, c')) : c'.rest.length ≤ c.rest.length := by
  fun_induction readChunks q n c generalizing l with
  | case1 => simp at h
  | case2 c s =>
      have := length_dropWhile_le (fun d => d != q && d != '{') c.rest
      grind
  | case3 => simp at h
  | case4 => simp at h
  | case5 c raw d s hs hd brace r hr =>
      have := length_dropWhile_le (fun d => d != q && d != '{') c.rest
      have := afterBrace_length hr
      grind

theorem length_afterRun_le (ends : Char → Bool) (s : Text) :
    (afterRun ends s).length ≤ s.length := by
  fun_induction afterRun ends s <;> simp_all <;> omega

theorem readValue_le {n : Nat} {c c' : Cursor} {l : List Chunk}
    (h : readValue n c = .ok (l, c')) : c'.rest.length ≤ c.rest.length := by
  unfold readValue at h
  split at h
  · simp at h
  · rename_i s hs
    split at h
    · simp at h
    · rename_i r hr
      have := afterBrace_length hr
      simp_all
      grind
  · rename_i d s _ hs
    split at h
    · cases hc : readChunks d c.offset (c.moveTo s) with
      | error e => simp [hc, Except.map] at h
      | ok v =>
          have := readChunks_le hc
          simp_all [Except.map]
          grind
    · have := length_afterRun_le endsBareValue (d :: s)
      simp_all
      grind

theorem readAttribute_shorter {c c' : Cursor} {a : Attribute}
    (h : readAttribute c = .ok (a, c')) : c'.rest.length < c.rest.length := by
  unfold readAttribute at h
  split at h
  · rename_i s hs
    split at h
    · simp at h
    · rename_i r hr
      have := afterBrace_length hr
      simp_all
      grind
  · have hle := length_afterRun_le endsAttributeName c.rest
    dsimp only at h
    split at h
    · simp at h
    · rename_i hn
      have hlt : (afterRun endsAttributeName c.rest).length < c.rest.length := by
        simp only [before, List.isEmpty_iff, List.take_eq_nil_iff] at hn
        grind
      split at h
      · rename_i t ht
        have hd := length_dropWhile_le isTagBlank (afterRun endsAttributeName c.rest)
        have hb := length_dropWhile_le isTagBlank t
        cases hv : readValue c.offset
            ((c.moveTo (afterRun endsAttributeName c.rest)).moveTo t).skipBlanks with
        | error e => simp [hv, Except.map] at h
        | ok v =>
            have := readValue_le hv
            simp_all [Except.map, Cursor.skipBlanks]
            grind
      · simp_all
        grind

end MarkupHighlight.Markup
