import MarkupHighlight.Block.Transform
import MarkupHighlight.Diagnostic
import MarkupHighlight.Format.Formatter
import MarkupHighlight.Filter
import MarkupHighlight.Markup.Document
import MarkupHighlight.Markup.Walk
import MarkupHighlight.Path
import MarkupHighlight.SourceMap.Basic

/-!
Highlighting the code blocks of a document: every annotated `pre` element whose code is a literal
and whose language is known is replaced by its highlighted code, and all other text stays.
-/
namespace MarkupHighlight
open Markup

/-- The name of elements that hold code. -/
def codeBlockTag : String := "pre"

structure Preprocessor where
  ignore : IgnoreRule
  options : FormatOptions
  /-- Diagnostics show paths as seen from here: a directory that is asked for, or else the one that
  the program runs in. -/
  baseDir : Option Text
  formatter : Formatter
  highlighter : Highlighter

def Preprocessor.supported (p : Preprocessor) : SupportedLanguages :=
  .ofNames p.highlighter.languages

def Preprocessor.pipeline (p : Preprocessor) : Pipeline := ⟨p.formatter, p.highlighter, p.options⟩

/-- A preprocessor with the bundled formatter and highlighter. -/
def Preprocessor.bundled (parse : Syntax.Parser) (ignore : IgnoreRule) (options : FormatOptions)
    (baseDir : Option Text) : Preprocessor :=
  ⟨ignore, options, baseDir, layoutFormatter parse, grammarHighlighter parse⟩

/-- One replaced block. -/
structure BlockReport where
  span : Span
  language : String
  detected : Option String
  deriving DecidableEq, Repr

inductive PreprocessError
  | markup (e : Markup.Error)
  | highlight (start : Nat) (e : HighlightError)
  | edit (e : EditError)
  deriving DecidableEq, Repr

def PreprocessError.message : PreprocessError → String
  | .markup e => "failed to parse markup: " ++ e.message
  | .highlight start e =>
      "failed to highlight code block at byte " ++ toString start ++ ": " ++ e.message
  | .edit e => e.message

/-- An error with the diagnostics that were reported before it. -/
structure PreprocessFailure where
  error : PreprocessError
  diagnostics : List Diagnostic
  deriving DecidableEq, Repr

structure Processed where
  code : Text
  map : SourceMap
  diagnostics : List Diagnostic
  blocks : List BlockReport
  deriving DecidableEq, Repr

/-- What a walk over a document has gathered; all lists are in document order. -/
structure BlockState where
  splicer : Splicer
  diagnostics : List Diagnostic := []
  blocks : List BlockReport := []
  deriving Repr

def BlockState.report (s : BlockState) (file : Text) (kind : DiagnosticKind) : BlockState :=
  { s with diagnostics := s.diagnostics ++ [⟨file, kind⟩] }

def BlockState.reportFormat (s : BlockState) (file : Text) : Option FormatError → BlockState
  | some e => s.report file (.formatFailed e)
  | none => s

def BlockState.fail (s : BlockState) (e : PreprocessError) : PreprocessFailure := ⟨e, s.diagnostics⟩

/-- Work on a document. What was reported before a failure stays reported. -/
abbrev Preprocessing := ExceptT PreprocessFailure Asking

/-- Replaces the element at `span` by its code in the given language. -/
def BlockState.replace (s : BlockState) (p : Pipeline) (file : Text) (span : Span)
    (code : Text) (language : String) : Preprocessing BlockState := do
  let t ← (p.asking code language).adapt fun e => s.fail (.highlight span.start e)
  let s := s.reportFormat file t.formatError
  let splicer ← MonadExcept.ofExcept <|
    (s.splicer.overwrite ⟨span, t.markup⟩).mapError fun e => s.fail (.edit e)
  return { s with
    splicer
    blocks := s.blocks ++ [⟨span, t.language, t.detected⟩] }

/-- Deals with one element that is named as a code block. -/
def BlockState.enterBlock (s : BlockState) (p : Preprocessor) (file : Text) (span : Span)
    (attributes : List Attribute) (children : List Node) : Preprocessing BlockState :=
  let annotation := Annotation.ofAttributes p.supported attributes
  if annotation = .absent then return s
  else
    match (payload? children).filter (!·.isEmpty) with
    | none => return s.report file .noCode
    | some payload =>
        match annotation with
        | .invalid name =>
            return s.report file (.invalidLanguage name (p.supported.suggest name))
        | other =>
            match other.token? with
            | none => return s
            | some language => s.replace p.pipeline file span payload.source language

def BlockState.enter (s : BlockState) (p : Preprocessor) (file : Text) :
    Node → Preprocessing BlockState
  | .element name span attributes children =>
      if name = codeBlockTag.toList then s.enterBlock p file span attributes children else return s
  | _ => return s

/-- Deals with all nodes of a document. -/
def Preprocessor.visit (p : Preprocessor) (content file : Text) (d : Document) :
    Preprocessing BlockState :=
  d.nodes.foldlM (fun s n => s.enter p file n) { splicer := { source := content } }

/-- Highlights a document that is not ignored. -/
def Preprocessor.process (p : Preprocessor) (content filename : Text) :
    Preprocessing Processed := do
  let d ← MonadExcept.ofExcept ((parse content).mapError fun e => ⟨.markup e, []⟩)
  let s ← p.visit content (Path.display filename p.baseDir) d
  let spliced ← MonadExcept.ofExcept (s.splicer.apply.mapError fun e => s.fail (.edit e))
  return ⟨spliced.code, .generate spliced content filename true, s.diagnostics, s.blocks⟩

/-- Highlights a document, unless it is to be left alone. Of the highlighter only the names of its
languages are used. -/
def Preprocessor.asking (p : Preprocessor) (content : Text) (filename : Option Text) :
    Asking (Except PreprocessFailure (Option Processed)) := ExceptT.run do
  if shouldProcess filename content p.ignore then
    return some (← p.process content (filename.getD []))
  else return none

def Preprocessor.markup (p : Preprocessor) (content : Text) (filename : Option Text) :
    Except PreprocessFailure (Option Processed) :=
  (p.asking content filename).run p.highlighter.answer

end MarkupHighlight
