import MarkupHighlight.Text.Category

/-!
Case variants: characters that simple case folding makes equal. Most come in pairs at one distance,
`a-b+d` below being the pairs of each character of `a-b` with the one `d` after it.
-/
namespace MarkupHighlight

def casePairRows : List String := [
  "41-4a+20 4c-52+20 54-5a+20 c0-c4+20 c6-d6+20 d8-de+20 df+1dbf ff+79 100-12e/2+1 132-136/2+1",
  "139-147/2+1 14a-176/2+1 179-17d/2+1 180+c3 181+d2 182-184/2+1 186+ce 187+1 189-18a+cd 18b+1",
  "18e+4f 18f+ca 190+cb 191+1 193+cd 194+cf 195+61 196+d3 197+d1 198+1 19a+a3 19c+d3 19d+d5 19e+82",
  "19f+d6 1a0-1a4/2+1 1a6+da 1a7+1 1a9+da 1ac+1 1ae+da 1af+1 1b1-1b2+d9 1b3-1b5/2+1 1b7+db 1b8+1",
  "1bc+1 1bf+38 1cd-1db/2+1 1de-1ee/2+1 1f4+1 1f8-21e/2+1 222-232/2+1 23a+2a2b 23b+1 23e+2a28",
  "23f-240+2a3f 241+1 244+45 245+47 246-24e/2+1 250+2a1f 251+2a1c 252+2a1e 25c+a54f 261+a54b",
  "265+a528 266+a544 26a+a544 26b+29f7 26c+a541 271+29fd 27d+29e7 282+a543 287+a52a 29d+a515",
  "29e+a512 370-372/2+1 376+1 37b-37d+82 37f+74 386+26 388-38a+25 38c+40 38e-38f+3f 390+1c43",
  "391+20 393-394+20 396-397+20 39b+20 39d-39f+20 3a4-3a5+20 3a7-3a8+20 3aa-3ab+20 3b0+1c33 3cf+8",
  "3d8-3ee/2+1 3f2+7 3f7+1 3fa+1 400-40f+50 410-411+20 413+20 415-41d+20 41f-420+20 423-429+20",
  "42b-42f+20 460+1 464-480/2+1 48a-4be/2+1 4c0+f 4c1-4cd/2+1 4d0-52e/2+1 531-556+30",
  "10a0-10c5+1c60 10c7+1c60 10cd+1c60 10d0-10fa+bc0 10fd-10ff+bc0 13a0-13ef+97d0 13f0-13f5+8",
  "1d79+8a04 1d7d+ee6 1d8e+8a38 1e00-1e5e/2+1 1e62-1e94/2+1 1ea0-1efe/2+1 1f00-1f07+8 1f10-1f15+8",
  "1f20-1f27+8 1f30-1f37+8 1f40-1f45+8 1f51-1f57/2+8 1f60-1f67+8 1f70-1f71+4a 1f72-1f75+56",
  "1f76-1f77+64 1f78-1f79+80 1f7a-1f7b+70 1f7c-1f7d+7e 1f80-1f87+8 1f90-1f97+8 1fa0-1fa7+8",
  "1fb0-1fb1+8 1fb3+9 1fc3+9 1fd0-1fd1+8 1fe0-1fe1+8 1fe5+7 1ff3+9 2132+1c 2160-216f+10 2183+1",
  "24b6-24cf+1a 2c00-2c2f+30 2c60+1 2c67-2c6b/2+1 2c72+1 2c75+1 2c80-2ce2/2+1 2ceb-2ced/2+1 2cf2+1",
  "a640-a648/2+1 a64c-a66c/2+1 a680-a69a/2+1 a722-a72e/2+1 a732-a76e/2+1 a779-a77b/2+1",
  "a77e-a786/2+1 a78b+1 a790-a792/2+1 a794+30 a796-a7a8/2+1 a7b3+3a0 a7b4-a7c2/2+1 a7c7-a7c9/2+1",
  "a7d0+1 a7d6-a7d8/2+1 a7f5+1 fb05+1 ff21-ff3a+20 10400-10427+28 104b0-104d3+28 10570-1057a+27",
  "1057c-1058a+27 1058c-10592+27 10594-10595+27 10c80-10cb2+40 118a0-118bf+20 16e40-16e5f+20",
  "1e900-1e921+22"]

/-- The classes of three and four. -/
def caseClassRows : List String := [
  "4b=6b=212a 53=73=17f b5=39c=3bc c5=e5=212b 1c4=1c5=1c6 1c7=1c8=1c9 1ca=1cb=1cc 1f1=1f2=1f3",
  "345=399=3b9=1fbe 392=3b2=3d0 395=3b5=3f5 398=3b8=3d1=3f4 39a=3ba=3f0 3a0=3c0=3d6 3a1=3c1=3f1",
  "3a3=3c2=3c3 3a6=3c6=3d5 3a9=3c9=2126 412=432=1c80 414=434=1c81 41e=43e=1c82 421=441=1c83",
  "422=442=1c84=1c85 42a=44a=1c86 462=463=1c87 1c88=a64a=a64b 1e60=1e61=1e9b"]

/-- Ranges of lower members of pairs with the distance to the upper ones. -/
def casePairs : List (SteppedRange × Nat) :=
  casePairRows.flatMap fun row =>
    (splitOnChar ' ' row.toList).map fun s =>
      (.ofText (s.takeWhile (· != '+')), (hexNumber? ((s.dropWhile (· != '+')).drop 1)).getD 0)

def caseClasses : List (List Nat) :=
  caseClassRows.flatMap fun row =>
    (splitOnChar ' ' row.toList).map fun s => (splitOnChar '=' s).filterMap hexNumber?

/-- The characters that differ from `c` in case at most. -/
def caseVariants (c : Char) : List Char :=
  let n := c.toNat
  match caseClasses.find? (·.contains n) with
  | some members => members.map Char.ofNat
  | none =>
      let above := casePairs.find? fun (r, _) => r.contains n
      let below := casePairs.find? fun (r, d) => d ≤ n && r.contains (n - d)
      match above, below with
      | some (_, d), _ => [c, Char.ofNat (n + d)]
      | none, some (_, d) => [c, Char.ofNat (n - d)]
      | none, none => [c]

end MarkupHighlight
