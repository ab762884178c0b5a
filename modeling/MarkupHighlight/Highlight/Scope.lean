import MarkupHighlight.Syntax.Tree

/-!
The scope of a syntax node: which class, if any, colours it. It depends on the node, on its parent,
and for a keyword also on whether the parent is coloured already.
-/
namespace MarkupHighlight.Scope
open Syntax

def functionDefinitions : List String :=
  ["function_declaration", "function_definition", "function_item", "function_expression",
    "generator_function_declaration", "function_signature", "method_definition",
    "method_declaration", "method_signature"]

def typeDefinitions : List String :=
  ["class_declaration", "class_definition", "class", "interface_declaration", "struct_item",
    "enum_item", "trait_item"]

def literals : List String :=
  ["true", "false", "null", "undefined", "nil", "none", "None", "True", "False", "boolean",
    "boolean_literal", "null_literal", "boolean_scalar", "null_scalar"]

def stringKinds : List String :=
  ["string", "template_string", "char_literal", "character_literal", "rune_literal",
    "double_quote_scalar", "single_quote_scalar", "block_scalar", "heredoc_body"]

def numberKinds : List String :=
  ["number", "integer", "float", "number_literal", "integer_literal", "float_literal",
    "int_literal", "real_literal", "integer_scalar", "float_scalar"]

def endsIn (kind ending : String) : Bool := ending.toList.isSuffixOf kind.toList

def isStringKind (kind : String) : Bool :=
  stringKinds.contains kind || endsIn kind "string_literal"

def isNumberKind (kind : String) : Bool :=
  numberKinds.contains kind || endsIn kind "_integer_literal" ||
    endsIn kind "_floating_point_literal"

def isCommentKind (kind : String) : Bool :=
  (splitOnFirst? "comment".toList kind.toList).isSome

def htmlScope (kind parentKind : String) : Option String :=
  if ["start_tag", "end_tag", "self_closing_tag", "erroneous_end_tag"].contains kind then some "tag"
  else if ["tag_name", "erroneous_end_tag_name"].contains kind then some "name"
  else if kind = "attribute_name" then some "attr"
  else if kind = "quoted_attribute_value" then some "string"
  else if kind = "attribute_value" ∧ parentKind ≠ "quoted_attribute_value" then some "string"
  else if kind = "doctype" then some "meta"
  else if kind = "entity" then some "symbol"
  else none

def cssScope (kind parentKind : String) : Option String :=
  if kind = "tag_name" then some "selector-tag"
  else if kind = "class_name" then
    if parentKind = "pseudo_class_selector" then some "selector-pseudo" else some "selector-class"
  else if kind = "id_name" then some "selector-id"
  else if kind = "property_name" then some "attribute"
  else if ["color_value", "integer_value", "float_value"].contains kind then some "number"
  else if kind = "string_value" then some "string"
  else if ["at_keyword", "important"].contains kind then some "keyword"
  else none

def codeScope (node : NodeInfo) (parentKind : String) : Option String :=
  let kind := node.kind
  if ["pair", "block_mapping_pair"].contains parentKind && node.fields.contains .key then
    some "attr"
  else if literals.contains kind then some "literal"
  else if isStringKind kind then some "string"
  else if isNumberKind kind then some "number"
  else if functionDefinitions.contains parentKind && node.fields.contains .name then
    some "title function_"
  else if typeDefinitions.contains parentKind && node.fields.contains .name then
    some "title class_"
  else if parentKind = "call_expression" ∧ node.fields.contains .function ∧ kind = "identifier" then
    some "title function_"
  else if ["regex", "regex_literal"].contains kind then some "regexp"
  else if ["this", "self", "super"].contains kind then some "variable language_"
  else if kind = "type_identifier" then some "type"
  else if ["predefined_type", "primitive_type", "builtin_type"].contains kind then some "built_in"
  else if kind = "property_identifier" ∧ parentKind = "member_expression" then some "property"
  else if ["decorator", "attribute_item", "preproc_include", "preproc_def"].contains kind then
    some "meta"
  else none

/-- The scope of a named node. -/
def ofNamed (g : Grammar) (node : NodeInfo) (parentKind : String) : Option String :=
  if isCommentKind node.kind then some "comment"
  else if g = .html then htmlScope node.kind parentKind
  else if g = .css then cssScope node.kind parentKind
  else codeScope node parentKind

/-- A word of letters, digits and `_` that starts with a letter, perhaps after some `@`. -/
def isKeyword (kind : String) : Bool :=
  match kind.toList.dropWhile (· == '@') with
  | [] => false
  | c :: s => c.isAlpha && s.all fun d => d.isAlphanum || d == '_'

def kindOf : Option NodeInfo → String
  | some p => p.kind
  | none => ""

/-- The scope of a node, given its ancestors, innermost first. -/
def ofNode (g : Grammar) (node : NodeInfo) (ancestors : List NodeInfo) : Option String :=
  let parentKind := kindOf ancestors.head?
  if node.named then ofNamed g node parentKind
  else if !isKeyword node.kind then none
  else
    let parentScoped := match ancestors with
      | p :: outer => p.named && (ofNamed g p (kindOf outer.head?)).isSome
      | [] => false
    if parentScoped then none
    else if literals.contains node.kind then some "literal"
    else some "keyword"

end MarkupHighlight.Scope
