import CodeSmell.Proofs.Detector.Place
import CodeSmell.Proofs.Grammar.Lines
import CodeSmell.Proofs.Model.Literals

/-!
The lines of a model. Every range of lines that a model holds is one of lines of its source, nested
statements lie within the statement that holds them and the statements of a block are in order.
Findings stand at such ranges: `ModuleModel.lines_sound`.
-/

namespace CodeSmell

theorem Stmt.Reading.functionLines {s : Stmt} {definition : FunctionDef Stmt} {ts : List Token}
    (h : s.Reading ts) (isFunction : s.form = .function definition) :
    definition.lines = s.lines := by
  obtain ⟨lines, form⟩ := s
  obtain rfl : form = .function definition := isFunction
  cases h with
  | intro layer _ _ =>
    cases layer
    rfl

theorem Stmt.Reading.classLines {s : Stmt} {definition : ClassDef Stmt} {ts : List Token}
    (h : s.Reading ts) (isClass : s.form = .classDef definition) : definition.lines = s.lines := by
  obtain ⟨lines, form⟩ := s
  obtain rfl : form = .classDef definition := isClass
  cases h with
  | intro layer _ _ =>
    cases layer
    rfl

theorem Expr.Reading.literal {e : Expr} {ts : List Token} (h : e.Reading ts)
    (found : e.literal?.isSome) : ∃ t ∈ ts, t.isLayout = false ∧ t.position = e.position := by
  induction h with
  | layer layer _ _ =>
    cases layer with
    | number isNumber =>
      refine ⟨_, .head _, ?_, rfl⟩
      rw [Token.isLayout, isNumber]
      rfl
    | unary isSign => exact ⟨_, .head _, Token.not_isLayout_of_sign? isSign, rfl⟩
    | _ => cases found
  | grouped _ _ _ ih =>
    obtain ⟨t, mem, text, position⟩ := ih found
    exact ⟨t, by simp [mem], text, position⟩

namespace ModuleModel

section Reading

variable {path : Bytes} {lineCount : Nat} {b : Block} {ts : List Token} {last : Int}

theorem statement_lines {s : Stmt} (reading : ModuleReading b ts) (lined : Lined 1 ts last)
    (ends : ∀ t ∈ ts, t.isLayout = false → t.endLine ≤ lineCount) (mem : s ∈ b.deep) :
    s.lines.Within lineCount ∧ (∀ clause ∈ s.clauseLines, clause.Within lineCount) ∧
      (∀ d ∈ s.nested.flatten, d.lines.Inside s.lines) ∧
      ∀ block ∈ s.nested, block.Pairwise fun d e => d.lines.last ≤ e.lines.first := by
  obtain ⟨us, read, within⟩ := reading.deep mem
  have lined' := lined.sublist within.sublist
  have ends' {vs : List Token} (inner : vs.Sublist us) (t : Token) (mem : t ∈ vs) :=
    ends t (within.subset (inner.subset mem))
  obtain ⟨vs, inner, spans, clauses, blocks⟩ := read.spans lined'
  refine ⟨spans.within (lined'.sublist inner) (ends' inner), fun clause mem => ?_,
    fun d mem => read.inside lined' mem,
    fun block mem => (blocks block mem).pairwise (lined'.sublist inner)⟩
  obtain ⟨ws, inner', spans'⟩ := clauses clause mem
  exact spans'.within (lined'.sublist (inner'.trans inner)) (ends' (inner'.trans inner))

theorem mem_deep {p : Placed} (mem : p ∈ Block.placed {} 0 b) : p.statement ∈ b.deep := by
  rw [← Block.placed_statements {} 0 b]
  exact List.mem_map_of_mem mem

theorem function_lines {f : FunctionModel} (reading : ModuleReading b ts)
    (hf : f ∈ (ofBlock path lineCount b).functions) : ∃ s ∈ b.deep, f.lines = s.lines := by
  obtain ⟨p, hp, hf⟩ := mem_functions.1 hf
  have ⟨form, _, _, _⟩ := Placed.function?_eq_some.1 hf
  obtain ⟨us, read, -⟩ := reading.deep (mem_deep hp)
  exact ⟨_, mem_deep hp, read.functionLines form⟩

theorem class_lines {c : ClassModel} (reading : ModuleReading b ts)
    (hc : c ∈ (ofBlock path lineCount b).classes) :
    ∃ s ∈ b.deep, c.definition.lines = s.lines := by
  obtain ⟨⟨p, hp, found⟩, -⟩ := mem_classes.1 hc
  obtain ⟨us, read, -⟩ := reading.deep (mem_deep hp)
  exact ⟨_, mem_deep hp, read.classLines (Placed.class?_eq_some.1 found).1⟩

theorem literal_line {l : Literal} (reading : ModuleReading b ts) (lined : Lined 1 ts last)
    (ends : ∀ t ∈ ts, t.isLayout = false → t.endLine ≤ lineCount)
    (mem : l ∈ (ofBlock path lineCount b).literals) :
    1 ≤ l.position.line ∧ l.position.line ≤ lineCount := by
  rw [← recordedIn_literals] at mem
  obtain ⟨⟨l, v⟩, recorded, rfl⟩ := List.mem_map.1 mem
  have ⟨node, literal, position⟩ := @mem_recordedIn path lineCount b l v recorded
  obtain ⟨us, read, within⟩ := reading.node node
  obtain ⟨t, mem, text, place⟩ := read.literal (by rw [literal]; rfl)
  have := lined.mem (within.subset mem)
  have := ends t (within.subset mem) text
  rw [position, ← place]
  omega

theorem place_lines {lines : LineRange} (reading : ModuleReading b ts) (lined : Lined 1 ts last)
    (ends : ∀ t ∈ ts, t.isLayout = false → t.endLine ≤ lineCount)
    (place : (ofBlock path lineCount b).Place lines) : lines.Within lineCount := by
  cases place with
  | function hf =>
    obtain ⟨s, mem, same⟩ := function_lines reading hf
    exact same ▸ (statement_lines reading lined ends mem).1
  | classDef hc =>
    obtain ⟨s, mem, same⟩ := class_lines reading hc
    exact same ▸ (statement_lines reading lined ends mem).1
  | literals mem mem' ordered =>
    exact ⟨(literal_line reading lined ends mem).1, ordered, (literal_line reading lined ends mem').2⟩

end Reading

/-- All lines of a model are lines of its source, in the order of its statements, and so are those
of the findings in it. -/
structure LinesSound (m : ModuleModel) : Prop where
  statements : ∀ s ∈ m.body.deep, s.lines.Within m.lineCount
  clauses : ∀ s ∈ m.body.deep, ∀ clause ∈ s.clauseLines, clause.Within m.lineCount
  functions : ∀ f ∈ m.functions, f.lines.Within m.lineCount
  classes : ∀ c ∈ m.classes, c.definition.lines.Within m.lineCount
  nested : ∀ s ∈ m.body.deep, ∀ d ∈ s.nested.flatten, d.lines.Inside s.lines
  ordered : ∀ block ∈ m.body :: m.body.deep.flatMap Stmt.nested,
    block.Pairwise fun s d => s.lines.last ≤ d.lines.first
  findings : ∀ kind options detector, Detector.builtIn kind options = .ok detector →
    ∀ x ∈ detector.detect m, x.file = m.path ∧ x.lines.Within m.lineCount

theorem lines_sound {path source : Bytes} {m : ModuleModel} (h : ofSource path source = .ok m) :
    m.path = path ∧ m.lineCount = source.lineCount ∧ m.LinesSound := by
  obtain ⟨b, inside, marker, rfl, lexed, isMarker, reading⟩ := ofSource_reading h
  obtain ⟨last, lined⟩ := Lexer.tokenize_lined lexed
  replace lined := lined.sublist (List.sublist_append_left inside [marker])
  have ends : ∀ t ∈ inside, t.isLayout = false → t.endLine ≤ source.lineCount :=
    fun t mem => Lexer.tokenize_ends lexed (List.mem_append_left _ mem)
  have statement {s : Stmt} (mem : s ∈ b.deep) := statement_lines reading lined ends mem
  have place {lines : LineRange} (place : (ofBlock path source.lineCount b).Place lines) :=
    place_lines reading lined ends place
  refine ⟨rfl, rfl, ?_⟩
  constructor
  case statements => exact fun s mem => (statement mem).1
  case clauses => exact fun s mem => (statement mem).2.1
  case functions => exact fun f hf => place (.function hf)
  case classes => exact fun c hc => place (.classDef hc)
  case nested => exact fun s mem => (statement mem).2.2.1
  case ordered =>
    intro block mem
    rcases List.mem_cons.1 mem with rfl | mem
    · exact reading.among.pairwise lined
    · obtain ⟨s, mem, nested⟩ := List.mem_flatMap.1 mem
      exact (statement mem).2.2.2 block nested
  case findings =>
    intro kind options detector built x mem
    obtain ⟨_, -, made⟩ := bind_eq_ok.1 built
    obtain rfl := Except.ok.inj made
    obtain ⟨file, lines⟩ := Smell.findings_place mem
    exact ⟨file, place lines⟩

def sixParameters : Bytes :=
  "class A:\n    @d\n    def f(a, b, c, d,\n          e, g, h):\n        try: x\n        except y: '''\n'''"

theorem lines_sound_sixParameters : ∃ m detector, ofSource "a.py" sixParameters = .ok m ∧
    Detector.builtIn .largeParameterList {} = .ok detector ∧
    (detector.detect m).map Finding.lines = [⟨3, 7⟩] ∧
    m.path = "a.py" ∧ m.lineCount = sixParameters.lineCount ∧ m.LinesSound := by
  obtain ⟨m, built, lines⟩ : ∃ m, ofSource "a.py" sixParameters = .ok m ∧
      (LargeParameterList.detect {} m).map Finding.lines = [⟨3, 7⟩] := by
    decide +kernel
  exact ⟨m, _, built, rfl, lines, lines_sound built⟩

end ModuleModel

end CodeSmell
