import MarkupHighlight.Command.Run

/-!
The program: runs its command line on the files below the current directory. It has no grammars of
its own, so languages are listed and markup is read, but code that has to be parsed is an error.
-/
namespace MarkupHighlight.Command

/-- Reads all text files below the current directory. Their places are those from the root. -/
def snapshot : IO FileTree := do
  let mut files := #[]
  for path in ← (← IO.currentDir).walkDir do
    if !(← path.isDir) then
      try
        let content ← IO.FS.readFile path
        files := files.push (Path.namesOf path.toString.toList, content.toList)
      catch _ => pure ()
  return ⟨files.toList⟩

end MarkupHighlight.Command

open MarkupHighlight Command in
def main (args : List String) : IO UInt32 := do
  let tree ← snapshot
  let env : Environment := { runDir? := some (← IO.currentDir).toString.toList }
  let outcome := execute (fun _ _ => .error .noGrammar) tree (args.map String.toList) env
  for (place, content) in tree.changes outcome.tree do
    IO.FS.writeFile (String.ofList ('/' :: joinWith ['/'] place)) (String.ofList content)
  IO.print (String.ofList outcome.output)
  IO.eprint (String.ofList outcome.messages)
  return outcome.status.toUInt32
