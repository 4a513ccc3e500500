import CodeSmell.Proofs.Lists
import CodeSmell.Proofs.Report.Number
import CodeSmell.Report.Markdown
import Mathlib.Tactic

/-!
The lines of a Markdown report. A row of a table is read by its bare pipes, those that no backslash
stands directly before. What comes from the analysis stays within a cell, since escaping leaves neither
a bare pipe nor a line feed, and so every finding has a line of its own with a cell for each title.
-/

namespace CodeSmell

namespace Bytes

def unlines (ls : List Bytes) : Bytes := ls.flatMap (· ++ [Ascii.lineFeed])

theorem unlines_append (ls ls' : List Bytes) : unlines (ls ++ ls') = unlines ls ++ unlines ls' :=
  List.flatMap_append

theorem splitOn_unlines {ls : List Bytes} (h : ∀ l ∈ ls, Ascii.lineFeed ∉ l) (t : Bytes) :
    splitOn Ascii.lineFeed (unlines ls ++ t) = ls ++ splitOn Ascii.lineFeed t := by
  induction ls with
  | nil => rfl
  | cons l ls ih =>
    rw [List.forall_mem_cons] at h
    have first : unlines (l :: ls) ++ t = l ++ Ascii.lineFeed :: (unlines ls ++ t) := by
      simp [unlines]
    rw [first, splitOn_append, splitOn_plain h.1, ih h.2, List.singleton_append, List.cons_append]

theorem mem_ofInt {i : Int} {b : UInt8} (h : b ∈ ofInt i) : Ascii.isDigit b = true ∨ b = '-' := by
  cases i with
  | ofNat n => exact .inl (isDigit_of_mem_ofNat b h)
  | negSucc n =>
    rcases List.mem_append.1 h with sign | digit
    · exact .inr (List.mem_singleton.1 sign)
    · exact .inl (isDigit_of_mem_ofNat b digit)

end Bytes

namespace Markdown

variable {s t : Bytes}

def pipe : UInt8 := '|'

def backslash : UInt8 := '\\'

def blank : UInt8 := ' '

/-! ## Rows read by their pipes -/

/-- The number of bare pipes of a text; `escaped` if a backslash stands directly before the text. -/
def barePipes (escaped : Bool) : Bytes → Nat
  | [] => 0
  | b :: rest => (if b = pipe ∧ escaped = false then 1 else 0) + barePipes (b == backslash) rest

def pieces (escaped : Bool) : Bytes → List Bytes
  | [] => [[]]
  | b :: rest =>
    if b = pipe ∧ escaped = false then [] :: pieces false rest
    else (pieces (b == backslash) rest).modifyHead (b :: ·)

theorem length_pieces (escaped : Bool) (s : Bytes) :
    (pieces escaped s).length = barePipes escaped s + 1 := by
  induction s generalizing escaped with
  | nil => rfl
  | cons b rest ih =>
    rw [pieces, barePipes]
    split_ifs with bare
    · have next : (b == backslash) = false := by
        rw [bare.1]
        decide
      rw [List.length_cons, ih, next, Nat.add_comm 1]
    · rw [List.length_modifyHead, ih, Nat.zero_add]

/-! ## Texts that stay within a cell -/

/-- No bare pipe, whatever stands before, and no line feed. -/
structure InCell (s : Bytes) : Prop where
  sealed : ∀ escaped, barePipes escaped s = 0
  oneLine : Ascii.lineFeed ∉ s

namespace InCell

theorem append (hs : InCell s) (ht : InCell t) : InCell (s ++ t) where
  sealed escaped := by
    have sealed := hs.sealed escaped
    clear hs
    induction s generalizing escaped with
    | nil => exact ht.sealed escaped
    | cons b rest ih =>
      rw [barePipes, Nat.add_eq_zero_iff] at sealed
      rw [List.cons_append, barePipes, sealed.1, ih _ sealed.2]
  oneLine := by simp [hs.oneLine, ht.oneLine]

theorem plain (noPipe : pipe ∉ s) (oneLine : Ascii.lineFeed ∉ s) : InCell s where
  sealed escaped := by
    induction s generalizing escaped with
    | nil => rfl
    | cons b rest ih =>
      rw [List.mem_cons, not_or] at noPipe oneLine
      rw [barePipes, if_neg fun bare => noPipe.1 bare.1.symm, ih noPipe.2 oneLine.2]
  oneLine := oneLine

theorem flatMap {α : Type} {f : α → Bytes} {xs : List α} (h : ∀ x ∈ xs, InCell (f x)) :
    InCell (xs.flatMap f) := by
  induction xs with
  | nil => exact plain List.not_mem_nil List.not_mem_nil
  | cons x xs ih =>
    rw [List.forall_mem_cons] at h
    exact h.1.append (ih h.2)

theorem join {sep : Bytes} {items : List Bytes} (between : InCell sep) (h : ∀ x ∈ items, InCell x) :
    InCell (Bytes.join sep items) := by
  induction items with
  | nil => exact plain List.not_mem_nil List.not_mem_nil
  | cons x items ih =>
    rw [List.forall_mem_cons] at h
    cases items with
    | nil =>
      rw [Bytes.join_singleton]
      exact h.1
    | cons y items =>
      rw [Bytes.join_cons_cons]
      exact (h.1.append between).append (ih h.2)

theorem ofInt (i : Int) : InCell (Bytes.ofInt i) := by
  refine plain (fun mem => ?_) fun mem => ?_ <;> exact absurd (Bytes.mem_ofInt mem) (by decide)

theorem escapeByte (b : UInt8) : InCell (escapeByte b) := by
  unfold Markdown.escapeByte
  split_ifs with isPipe isFeed
  · exact ⟨by decide, by decide⟩
  · exact ⟨by decide, by decide⟩
  · rw [beq_iff_eq] at isPipe isFeed
    exact plain (fun mem => isPipe (List.mem_singleton.1 mem).symm) fun mem =>
      isFeed (List.mem_singleton.1 mem).symm

theorem cell (s : Bytes) : InCell (cell s) := flatMap fun b _ => escapeByte b

theorem evidence (items : List Bytes) : InCell (evidence items) := by
  unfold Markdown.evidence
  split_ifs
  · exact plain (by decide) (by decide)
  · refine join (plain (by decide) (by decide)) fun x mem => ?_
    obtain ⟨item, -, rfl⟩ := List.mem_map.1 mem
    exact cell item

end InCell

/-! ## Rows -/

variable {c : Bytes} {cells : List Bytes}

def line (cells : List Bytes) : Bytes := "| " ++ Bytes.join " | " cells ++ " |"

def padded (c : Bytes) : Bytes := " " ++ c ++ " "

theorem line_cons (c d : Bytes) (cells : List Bytes) :
    line (c :: d :: cells) = pipe :: (padded c ++ line (d :: cells)) := by
  simp only [line, padded, Bytes.join_cons_cons, List.append_assoc]
  rfl

theorem line_eq (nonempty : cells ≠ []) :
    line cells = pipe :: cells.flatMap (padded · ++ [pipe]) := by
  induction cells with
  | nil => exact absurd rfl nonempty
  | cons c cells ih =>
    cases cells with
    | nil =>
      simp only [line, padded, Bytes.join_singleton, List.flatMap_singleton, List.append_assoc]
      rfl
    | cons d cells =>
      rw [line_cons, ih (List.cons_ne_nil d cells), List.flatMap_cons (x := c), List.append_assoc,
        List.singleton_append]

theorem pieces_sealed {escaped : Bool} (sealed : barePipes escaped s = 0) (t : Bytes) :
    pieces escaped (s ++ blank :: t) = (pieces false t).modifyHead (s ++ blank :: ·) := by
  induction s generalizing escaped with
  | nil =>
    rw [List.nil_append, pieces, if_neg fun bare => absurd bare.1 (by decide)]
    rfl
  | cons b rest ih =>
    rw [barePipes, Nat.add_eq_zero_iff, ite_eq_right_iff] at sealed
    rw [List.cons_append, pieces, if_neg fun bare => one_ne_zero (sealed.1 bare), ih sealed.2,
      List.modifyHead_modifyHead]
    rfl

theorem pieces_cell (h : InCell c) (t : Bytes) :
    pieces false (padded c ++ pipe :: t) = padded c :: pieces false t := by
  have cell : padded c ++ pipe :: t = (blank :: c) ++ blank :: (pipe :: t) := by
    rw [padded, List.append_assoc, List.append_assoc]
    rfl
  have sealed : barePipes false (blank :: c) = 0 := by
    rw [barePipes, h.sealed]
    rfl
  rw [cell, pieces_sealed sealed, pieces, if_pos ⟨rfl, rfl⟩, padded, List.append_assoc]
  rfl

theorem pieces_line (h : ∀ c ∈ cells, InCell c) (nonempty : cells ≠ []) :
    pieces false (line cells) = [] :: (cells.map padded ++ [[]]) := by
  rw [line_eq nonempty, pieces, if_pos ⟨rfl, rfl⟩]
  clear nonempty
  refine congrArg _ ?_
  induction cells with
  | nil => rfl
  | cons c cells ih =>
    rw [List.forall_mem_cons] at h
    rw [List.flatMap_cons, List.append_assoc, List.singleton_append, pieces_cell h.1, ih h.2,
      List.map_cons, List.cons_append]

theorem barePipes_line (h : ∀ c ∈ cells, InCell c) (nonempty : cells ≠ []) :
    barePipes false (line cells) = cells.length + 1 := by
  have pieces := length_pieces false (line cells)
  rw [pieces_line h nonempty, List.length_cons, List.length_append, List.length_map] at pieces
  exact (Nat.succ.inj pieces).symm

theorem oneLine_line (h : ∀ c ∈ cells, InCell c) (nonempty : cells ≠ []) :
    Ascii.lineFeed ∉ line cells := by
  have blanks : Ascii.lineFeed ∉ (" " : Bytes) := by decide
  have pipes : Ascii.lineFeed ≠ pipe := by decide
  rw [line_eq nonempty, List.mem_cons, List.mem_flatMap]
  rintro (isPipe | ⟨c, mem, inside⟩)
  · exact pipes isPipe
  · simp [padded, blanks, pipes, (h c mem).oneLine] at inside

/-! ## Sections -/

def findingCells (f : Finding) : List Bytes :=
  [f.kind.name, f.severity.name, cell f.file,
    Bytes.ofInt f.lines.first ++ "-" ++ Bytes.ofInt f.lines.last, cell f.message,
    evidence f.evidence]

def findingLine (f : Finding) : Bytes := line (findingCells f)

def errorText (e : FileError) : Bytes :=
  "- " ++ cell e.file ++ ":" ++ Bytes.ofInt e.position.line ++ ":" ++
    Bytes.ofInt e.position.column ++ ": " ++ cell e.message

theorem inCell_findingCells (f : Finding) : ∀ c ∈ findingCells f, InCell c := by
  have kind : InCell f.kind.name := by cases f.kind <;> exact .plain (by decide) (by decide)
  have severity : InCell f.severity.name := by
    cases f.severity <;> exact .plain (by decide) (by decide)
  have hyphen : InCell "-" := .plain (by decide) (by decide)
  have lines := ((InCell.ofInt f.lines.first).append hyphen).append (.ofInt f.lines.last)
  simp only [findingCells, List.forall_mem_cons]
  exact ⟨kind, severity, .cell _, lines, .cell _, .evidence _, List.forall_mem_nil _⟩

theorem oneLine_errorText (e : FileError) : Ascii.lineFeed ∉ errorText e := by
  have bullet : Ascii.lineFeed ∉ ("- " : Bytes) := by decide
  have colon : Ascii.lineFeed ∉ (":" : Bytes) := by decide
  have space : Ascii.lineFeed ∉ (": " : Bytes) := by decide
  simp [errorText, bullet, colon, space, (InCell.cell _).oneLine, (InCell.ofInt _).oneLine]

def findingTitles : List Bytes := ["Smell", "Severity", "File", "Lines", "Message", "Evidence"]

def findingHeading : List Bytes :=
  ["## Findings", "", line findingTitles, line (findingTitles.map fun _ => "---")]

def errorHeading : List Bytes := ["## Parse Errors", ""]

def errorLines (es : List FileError) : List Bytes :=
  if es.isEmpty then ["- None"] else es.map errorText

theorem row_eq (cells : List Bytes) : row cells = line cells ++ [Ascii.lineFeed] := by
  rw [row, line, List.append_assoc _ _ [Ascii.lineFeed]]
  rfl

theorem findings_eq {fs : List Finding} (nonempty : fs ≠ []) :
    findings fs = Bytes.unlines (findingHeading ++ fs.map findingLine ++ [[]]) := by
  have rows : fs.flatMap findingRow = Bytes.unlines (fs.map findingLine) := by
    rw [Bytes.unlines, List.flatMap_map]
    exact List.flatMap_congr fun f _ => row_eq (findingCells f)
  have heading : "## Findings\n\n" ++ header findingTitles = Bytes.unlines findingHeading := by
    rw [header, row_eq, row_eq]
    rfl
  rw [Bytes.unlines_append, Bytes.unlines_append, ← heading, ← rows, findings,
    if_neg (by simpa using nonempty)]
  rfl

theorem errors_eq (es : List FileError) :
    errors es = Bytes.unlines (errorHeading ++ errorLines es) := by
  rw [Bytes.unlines_append, errors, errorLines]
  split_ifs with none
  · rfl
  · rw [Bytes.unlines, Bytes.unlines, List.flatMap_map]
    rfl

theorem oneLine_errorLines (es : List FileError) : ∀ l ∈ errorLines es, Ascii.lineFeed ∉ l := by
  unfold errorLines
  split_ifs
  · decide
  · exact List.forall_mem_map.2 fun e _ => oneLine_errorText e

theorem oneLine_findingLine (f : Finding) : Ascii.lineFeed ∉ findingLine f :=
  oneLine_line (inCell_findingCells f) (List.cons_ne_nil _ _)

/-- Below the two lines that head the table of findings, a report has one line for each finding, in
order, and below the heading of the errors one for each error. A line of the table has seven bare
pipes, and between them the cells of its finding. -/
theorem report_lines (time target : Bytes) (a : Analysis) (nonempty : a.findings ≠ []) :
    (∃ before, (report time target a).splitOn Ascii.lineFeed =
      before ++ (findingHeading ++ a.findings.map findingLine ++ [[]]) ++
        (errorHeading ++ errorLines a.errors) ++ [[]]) ∧
    ∀ f ∈ a.findings, barePipes false (findingLine f) = 7 ∧
      pieces false (findingLine f) = [] :: ((findingCells f).map padded ++ [[]]) := by
  refine ⟨?_, fun f _ => ⟨barePipes_line (inCell_findingCells f) (List.cons_ne_nil _ _),
    pieces_line (inCell_findingCells f) (List.cons_ne_nil _ _)⟩⟩
  -- The summary ends in a line feed, so that the section of the findings begins a line.
  obtain ⟨body, ended⟩ : ∃ body, summary (Summary.ofAnalysis a) = body ++ [Ascii.lineFeed] :=
    ⟨_, rfl⟩
  let before := "# Code Smell Report\n\n" ++ analysisHeader time target a ++ body
  have sections : report time target a =
      before ++ Ascii.lineFeed :: (findings a.findings ++ errors a.errors) := by
    simp only [before, report, ended, List.append_assoc, List.cons_append, List.nil_append]
  have oneLine : ∀ l ∈ findingHeading ++ a.findings.map findingLine ++ [[]] ++
      (errorHeading ++ errorLines a.errors), Ascii.lineFeed ∉ l := by
    simp only [List.forall_mem_append]
    exact ⟨⟨⟨by decide, List.forall_mem_map.2 fun f _ => oneLine_findingLine f⟩, by decide⟩,
      by decide, oneLine_errorLines a.errors⟩
  refine ⟨Bytes.splitOn Ascii.lineFeed before, ?_⟩
  rw [sections, Bytes.splitOn_append, findings_eq nonempty, errors_eq, ← Bytes.unlines_append,
    ← List.append_nil (Bytes.unlines _), Bytes.splitOn_unlines oneLine]
  simp only [List.append_assoc]
  rfl

theorem report_lines_pipes :
    let f : Finding := { file := "a\\|b", message := "|c\n\\", evidence := ["\\", "|", "\n"] }
    let a : Analysis := { findings := [f], errors := [{ file := "\n", message := "|" }] }
    a.findings ≠ [] ∧
    findingLine f =
      "| LongMethod | medium | a\\\\|b | 0-0 | \\|c<br>\\ | \\<br>\\|<br><br> |" ∧
    barePipes false (findingLine f) = 7 ∧
    ∃ before, (report "now" "." a).splitOn Ascii.lineFeed =
      before ++ (findingHeading ++ [findingLine f] ++ [[]]) ++
        (errorHeading ++ [Bytes.ofString "- <br>:0:0: \\|"]) ++ [[]] := by
  intro f a
  obtain ⟨lines, rows⟩ := report_lines "now" "." a (List.cons_ne_nil f [])
  exact ⟨List.cons_ne_nil f [], rfl, (rows f (.head _)).1, lines⟩

end Markdown

end CodeSmell
