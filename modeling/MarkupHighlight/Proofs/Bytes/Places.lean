import MarkupHighlight.Proofs.Bytes.Bounds
import MarkupHighlight.Proofs.Edit.Correspondence
import MarkupHighlight.Proofs.Text.LineColumns

/-!
The two ways to count places, as runs that look for a boundary byte by byte, cut the text at the
offsets they find and search the table of line starts by halves. Neither meets a fault
(`lineColumn_eq`, `position_eq`), and `places_agree` says how their results compare.
-/
namespace MarkupHighlight.Bytewise

/-- Goes back from an offset, byte by byte, to a character boundary. -/
def backToBoundary (s : Text) : Nat → Run Nat
  | 0 => if isBoundary s 0 then return 0 else .error (.fault .difference)
  | n + 1 => if isBoundary s (n + 1) then return n + 1 else backToBoundary s n

/-- The byte of the last line feed, looked for from the end. -/
def lastNewline? (s : Text) : Option Nat :=
  match s.reverse.dropWhile (· != '\n') with
  | [] => none
  | _ :: r => some (byteSize r.reverse)

/-- The byte at which the last line starts. -/
def lastLineStart (s : Text) : Nat :=
  match lastNewline? s with
  | some n => n + 1
  | none => 0

def lineColumn (s : Text) (n : Nat) : Run LineColumn := do
  let stop ← backToBoundary s (min n (byteSize s))
  let read ← cut s 0 stop
  let line ← cut read (lastLineStart read) (byteSize read)
  return ⟨read.count '\n' + 1, line.length + 1⟩

def position (s : Text) (n : Nat) : Run LineColumn := do
  let starts := (LineTable.ofText s).starts
  let number ← minus (bisect (n < ·) starts) 1
  match starts[number]? with
  | none => .error (.fault .index)
  | some start =>
      let before ← cut s start n
      return ⟨number, utf16Size before⟩

theorem lastBoundary_succ {s : Text} {n : Nat} (h : isBoundary s (n + 1) = false) :
    lastBoundary s (n + 1) = lastBoundary s n := by
  have hboundary := isBoundary_lastBoundary s (n + 1)
  have hne : lastBoundary s (n + 1) ≠ n + 1 := by
    intro heq
    rw [heq, h] at hboundary
    cases hboundary
  have hle := lastBoundary_le s (n + 1)
  apply Nat.le_antisymm
  · exact le_lastBoundary hboundary (by omega)
  · exact le_lastBoundary (isBoundary_lastBoundary s n)
      (Nat.le_succ_of_le (lastBoundary_le s n))

/-- The start of the text is a boundary, so that the way back ends. -/
theorem backToBoundary_eq (s : Text) (n : Nat) :
    backToBoundary s n = .ok (lastBoundary s n) := by
  induction n with
  | zero =>
    rw [backToBoundary, if_pos (isBoundary_zero s), lastBoundary_eq (isBoundary_zero s)]
    rfl
  | succ n ih =>
    rw [backToBoundary]
    split
    next h => rw [lastBoundary_eq h]; rfl
    next h => rw [ih, lastBoundary_succ (by simpa using h)]

theorem lastBoundary_min (s : Text) (n : Nat) :
    lastBoundary s (min n (byteSize s)) = lastBoundary s n := by
  have hboundary := isBoundary_lastBoundary s n
  apply Nat.le_antisymm
  · exact le_lastBoundary (isBoundary_lastBoundary s _)
      (Nat.le_trans (lastBoundary_le s _) (Nat.min_le_left ..))
  · exact le_lastBoundary hboundary
      (Nat.le_min.mpr ⟨lastBoundary_le s n, le_byteSize_of_isBoundary hboundary⟩)

theorem exists_lastLineStart (s : Text) :
    ∃ u, s = u ++ lastLine s ∧ byteSize u = lastLineStart s := by
  have hs : s = (s.reverse.dropWhile (· != '\n')).reverse ++ lastLine s := by
    rw [lastLine, ← List.reverse_append, List.takeWhile_append_dropWhile, List.reverse_reverse]
  refine ⟨_, hs, ?_⟩
  unfold lastLineStart lastNewline?
  cases hdrop : s.reverse.dropWhile (· != '\n') with
  | nil => rfl
  | cons c r =>
    obtain ⟨w, -, -, hc, -⟩ := cut_run hdrop
    obtain rfl : c = '\n' := by simpa using hc
    simp only [List.reverse_cons, byteSize_append]
    rfl

theorem cut_lastLine (s : Text) : cut s (lastLineStart s) (byteSize s) = .ok (lastLine s) := by
  obtain ⟨u, hs, hu⟩ := exists_lastLineStart s
  exact Tail.cut_rest ⟨u, hs, hu⟩

/-- Every offset has a line and a column, and no step on the way is a fault. -/
theorem lineColumn_eq (s : Text) (n : Nat) :
    lineColumn s n = .ok (MarkupHighlight.lineColumn s n) := by
  have hread : cut s 0 (lastBoundary s n) = .ok (takeBytes s n) := by
    have htail : Tail s 0 (takeBytes s n ++ dropBytes s n) := by
      rw [takeBytes_append_dropBytes]
      exact tail_zero s
    exact htail.cut_eq (Nat.zero_add _).symm
  rw [lineColumn, backToBoundary_eq, lastBoundary_min, ok_bind, hread, ok_bind, cut_lastLine,
    ok_bind, MarkupHighlight.lineColumn_eq]
  rfl

/-- The table is searched for the number of lines that start at or before an offset. -/
theorem bisect_starts (s t : Text) :
    bisect (byteSize s < ·) (LineTable.ofText (s ++ t)).starts = s.count '\n' + 1 := by
  have hordered : (LineTable.ofText (s ++ t)).starts.Pairwise (· < ·) := by
    refine .cons (fun m hm => ?_) (pairwise_lineStartsFrom 0 _)
    obtain ⟨u, v, -, rfl⟩ := mem_lineStartsFrom.mp hm
    have := byteSize_pos (s := u ++ ['\n']) (by simp)
    omega
  have hfront : (LineTable.ofText (s ++ t)).starts.take
      ((LineTable.ofText (s ++ t)).starts.findIdx (byteSize s < ·)) =
        0 :: lineStartsFrom 0 s := by
    have hbehind : (fun n => !decide (n ≤ byteSize s)) = fun n => decide (byteSize s < n) := by
      funext n
      rw [← decide_not, decide_eq_decide, Nat.not_le]
    rw [← takeWhile_starts s t, List.takeWhile_eq_take_findIdx_not, hbehind]
  rw [bisect_eq_findIdx]
  · have hlength := congrArg List.length hfront
    rwa [List.length_take, Nat.min_eq_left List.findIdx_le_length, List.length_cons,
      length_lineStartsFrom] at hlength
  · refine hordered.imp fun {x y} hlt hx => ?_
    rw [decide_eq_true_eq] at hx ⊢
    omega

theorem position_eq {s : Text} {n : Nat} (h : isBoundary s n = true) :
    position s n = .ok ((LineTable.ofText s).position n) := by
  obtain ⟨a, b, rfl, rfl⟩ := isBoundary_iff.mp h
  obtain ⟨u, ha, hstart⟩ := exists_getElem?_starts a b
  have hcut : cut (a ++ b) (byteSize u) (byteSize a) = .ok (lastLine a) := by
    have htail : Tail (a ++ b) (byteSize u) (lastLine a ++ b) :=
      ⟨u, by rw [← List.append_assoc, ← ha], rfl⟩
    refine htail.cut_eq ?_
    rw [← byteSize_append, ← ha]
  rw [position_append, position, bisect_starts, minus, if_pos (Nat.le_add_left ..), ok_bind,
    Nat.add_sub_cancel, hstart]
  simp only [hcut, ok_bind]
  rfl

/-- How places counted from one in characters and places counted from zero in UTF-16 units compare
in a text. -/
structure PlacesAgree (s : Text) : Prop where
  /-- Every offset has a line and a column, also behind the end and inside a character. -/
  total : ∀ n, lineColumn s n = .ok (MarkupHighlight.lineColumn s n)
  /-- They are those of the last character boundary that is not behind the offset. -/
  boundary : ∀ n, ∃ m, isBoundary s m = true ∧ m ≤ n ∧
    (∀ k, isBoundary s k = true → k ≤ n → k ≤ m) ∧
      MarkupHighlight.lineColumn s n = MarkupHighlight.lineColumn s m
  order : ∀ m n, isBoundary s m = true → isBoundary s n = true →
    ((MarkupHighlight.lineColumn s m).Before (MarkupHighlight.lineColumn s n) ↔ m < n)
  injective : ∀ m n, isBoundary s m = true → isBoundary s n = true →
    MarkupHighlight.lineColumn s m = MarkupHighlight.lineColumn s n → m = n
  /-- A line table gives the same line, and as many units as the characters before the place on
  that line have. -/
  units : ∀ n, isBoundary s n = true → ∃ number before line,
    MarkupHighlight.lineColumn s n = ⟨number + 1, before + 1⟩ ∧
      (splitLines s)[number]? = some line ∧ before ≤ line.length ∧
        (LineTable.ofText s).position n = ⟨number, utf16Size (line.take before)⟩ ∧
          position s n = .ok ((LineTable.ofText s).position n)

/-- In every text the two ways to count places agree, and places are in the order of offsets. -/
theorem places_agree (s : Text) : PlacesAgree s where
  total := lineColumn_eq s
  boundary n := ⟨lastBoundary s n, isBoundary_lastBoundary s n, lastBoundary_le s n,
    fun _ => le_lastBoundary, (lineColumn_lastBoundary s n).symm⟩
  order _ _ := before_lineColumn_iff
  injective _ _ := lineColumn_injective
  units n h := by
    obtain ⟨number, before, line, hplace, hline, hle, hunits⟩ := exists_position_eq h
    exact ⟨number, before, line, hplace, hline, hle, hunits, position_eq h⟩

end MarkupHighlight.Bytewise
