/-!
The languages that code can be highlighted in, by the names that highlighting themes use for them,
and the grammar of each.
-/
namespace MarkupHighlight

inductive Grammar
  | bash | c | cpp | cSharp | css | elixir | go | haskell | java | javaScript | json | kotlin | lua
  | php | python | ruby | rust | scala | swift | typeScript | tsx | html | yaml
  deriving DecidableEq, Repr

/-- One language: its name, its other names and its grammar. -/
structure Language where
  name : String
  aliases : List String
  grammar : Grammar
  deriving DecidableEq, Repr

def languages : List Language := [
  ⟨"bash", ["sh", "zsh", "shell"], .bash⟩,
  ⟨"c", ["h"], .c⟩,
  ⟨"cpp", ["cc", "c++", "h++", "hpp", "hh", "hxx", "cxx"], .cpp⟩,
  ⟨"csharp", ["cs", "c#"], .cSharp⟩,
  ⟨"css", [], .css⟩,
  ⟨"elixir", ["ex", "exs"], .elixir⟩,
  ⟨"go", ["golang"], .go⟩,
  ⟨"haskell", ["hs"], .haskell⟩,
  ⟨"java", ["jsp"], .java⟩,
  ⟨"javascript", ["js", "jsx", "mjs", "cjs"], .javaScript⟩,
  ⟨"json", ["jsonc"], .json⟩,
  ⟨"kotlin", ["kt", "kts"], .kotlin⟩,
  ⟨"lua", [], .lua⟩,
  ⟨"php", [], .php⟩,
  ⟨"python", ["py", "gyp", "ipython"], .python⟩,
  ⟨"ruby", ["rb", "gemspec", "podspec", "thor", "irb"], .ruby⟩,
  ⟨"rust", ["rs"], .rust⟩,
  ⟨"scala", [], .scala⟩,
  ⟨"swift", [], .swift⟩,
  ⟨"typescript", ["ts", "mts", "cts"], .typeScript⟩,
  ⟨"xml", ["html", "xhtml", "rss", "atom", "xjb", "xsd", "xsl", "plist", "svg"], .html⟩,
  ⟨"yaml", ["yml"], .yaml⟩]

def languageNames : List String := languages.map (·.name)

/-- Names are compared without regard to the case of ASCII letters. -/
def Language.goesBy (l : Language) (name : String) : Bool :=
  (l.name :: l.aliases).any (·.toLower == name.toLower)

def findLanguage? (name : String) : Option Language := languages.find? (·.goesBy name)

/-- The grammar for a parser's name: that of a language, or of a component dialect. -/
def parserGrammar? (parser : String) : Option Grammar :=
  let name := parser.toLower
  if name = "svelte" ∨ name = "vue" ∨ name = "html" then some .html
  else if name = "tsx" then some .tsx
  else (findLanguage? name).map (·.grammar)

def Grammar.isMarkup (g : Grammar) : Bool := g == .html

/-- Grammars whose code can be spaced anew token by token. -/
def Grammar.isScript (g : Grammar) : Bool := g == .javaScript || g == .typeScript

end MarkupHighlight
