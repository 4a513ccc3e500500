import CodeSmell.Proofs.Detector.Order
import CodeSmell.Proofs.Results

/-!
Files one by one. Each file that is analysed adds a segment to the analysis so far, and so the whole
is put together from segments, one for each acquired file in their order. A segment depends on the
path and the content of its file and on the detectors, so that a run on other contents differs only in
the segments of the files that have changed.
-/

namespace CodeSmell

namespace Logged

variable {ε α β : Type}

/-- The result and all events, if these events come before. -/
def after (events : List LogEvent) (x : Logged ε α) : Except ε α × List LogEvent :=
  Id.run (StateT.run (ExceptT.run x) events)

theorem after_log {level : LogLevel} {message : Bytes} {fields : List (Bytes × Bytes)}
    (events : List LogEvent) : (log level message fields : Logged ε Unit).after events =
      (.ok (), events ++ [LogEvent.mk level message fields]) :=
  rfl

theorem after_pure (a : α) (events : List LogEvent) :
    (pure a : Logged ε α).after events = (.ok a, events) :=
  rfl

theorem after_bind (x : Logged ε α) (f : α → Logged ε β) (events : List LogEvent) :
    (x >>= f).after events = match x.after events with
      | (.ok a, events) => (f a).after events
      | (.error e, events) => (.error e, events) := by
  unfold after ExceptT.run StateT.run Id.run
  simp only [bind, ExceptT.bind, ExceptT.mk, StateT.bind, ExceptT.bindCont]
  cases x events with
  | mk result events => cases result <;> rfl

theorem bind_ok_iff {x : Logged ε α} {f : α → Logged ε β} {events : List LogEvent} {b : β} :
    ((x >>= f).after events).1 = .ok b ↔
      ∃ a, (x.after events).1 = .ok a ∧ ((f a).after (x.after events).2).1 = .ok b := by
  rw [after_bind]
  obtain ⟨result, events'⟩ := x.after events
  cases result <;> simp

end Logged

/-- What an analysis has of one file, or of several. -/
structure Segment where
  findings : List Finding := []
  errors : List FileError := []

def Segment.joined (segments : List Segment) : Segment where
  findings := segments.flatMap Segment.findings
  errors := segments.flatMap Segment.errors

/-- The segment of a file with this content; there is no content if the file cannot be read. -/
inductive Segment.Of (model : Modeller) (detectors : List Detector) (file : Bytes) :
    Option Bytes → Segment → Prop where
  | unreadable : Of model detectors file none
      { errors := [{ file, position := ⟨0, 0⟩, message := "Failed to read source file" }] }
  | refused {source : Bytes} {e : SyntaxError} : model file source = .error e →
      Of model detectors file (some source)
        { errors := [{ file, position := e.position, message := e.reason }] }
  | analysed {source : Bytes} {m : ModuleModel} {ordered : List Finding} :
      model file source = .ok m →
      Finding.Ordered (detectors.flatMap fun d => d.detect m) ordered →
      Of model detectors file (some source) { findings := ordered }

namespace Segment

def ofContent (model : Modeller) (detectors : List Detector) (file : Bytes) :
    Option Bytes → Segment
  | none => { errors := [{ file, message := "Failed to read source file" }] }
  | some source =>
    match model file source with
    | .error e => { errors := [{ file, position := e.position, message := e.reason }] }
    | .ok m => { findings := m.findings detectors }

theorem of_ofContent (model : Modeller) (detectors : List Detector) (file : Bytes)
    (content : Option Bytes) :
    Segment.Of model detectors file content (ofContent model detectors file content) := by
  cases content with
  | none => exact .unreadable
  | some source =>
    rw [ofContent]
    cases built : model file source with
    | error e => exact .refused built
    | ok m =>
      refine .analysed built ?_
      rw [ModuleModel.findings_eq]
      exact Finding.ordered_sort _

end Segment

namespace Analysis

def add (a : Analysis) (s : Segment) : Analysis :=
  { a with findings := a.findings ++ s.findings, errors := a.errors ++ s.errors }

theorem add_joined_nil (a : Analysis) : a.add (.joined []) = a := by
  simp [add, Segment.joined]

theorem add_joined_cons (a : Analysis) (s : Segment) (segments : List Segment) :
    a.add (.joined (s :: segments)) = (a.add s).add (.joined segments) := by
  simp [add, Segment.joined]

/-- The analysis is that of these files by these detectors, put together from their segments. -/
structure MadeOf (a : Analysis) (files : List Bytes) (detectors : List Detector)
    (segment : Bytes → Segment) : Prop where
  allFiles : a.files = files
  activeDetectors : a.activeDetectors = detectors.map fun d => d.kind.name
  findings : a.findings = files.flatMap fun file => (segment file).findings
  errors : a.errors = files.flatMap fun file => (segment file).errors

structure HasBetween (a : Analysis) (head : Segment) (s : Segment) (tail : Segment) : Prop where
  findings : a.findings = head.findings ++ s.findings ++ tail.findings
  errors : a.errors = head.errors ++ s.errors ++ tail.errors

theorem MadeOf.hasBetween {a : Analysis} {before after : List Bytes} {file : Bytes}
    {detectors : List Detector} {segment : Bytes → Segment}
    (h : a.MadeOf (before ++ file :: after) detectors segment) :
    a.HasBetween (.joined (before.map segment)) (segment file) (.joined (after.map segment)) where
  findings := by
    rw [h.findings, List.flatMap_append, List.flatMap_cons, ← List.append_assoc]
    simp only [Segment.joined, List.flatMap_map]
  errors := by
    rw [h.errors, List.flatMap_append, List.flatMap_cons, ← List.append_assoc]
    simp only [Segment.joined, List.flatMap_map]

end Analysis

namespace Pipeline

variable {p : Pipeline} {read : Bytes → Option Bytes} {time : Bytes} {settings : Settings}
  {reported : Reported}

theorem fromRegistry_ok_iff {α : Type} {x : Except RegistryError α} {a : α}
    {events : List LogEvent} : ((fromRegistry x).after events).1 = .ok a ↔ x = .ok a := by
  cases x with
  | ok b =>
    have same : ((fromRegistry (.ok b)).after events).1 = .ok b := rfl
    rw [same, Except.ok.injEq, Except.ok.injEq]
  | error e => exact iff_of_false nofun nofun

def started (settings : Settings) : LogEvent :=
  { level := .info, message := "pipeline.start"
    fields := [("target", settings.target), ("formats", Bytes.ofNat settings.formats.length)] }

def acquired (p : Pipeline) (settings : Settings) : Except PipelineError (List Bytes) :=
  ((p.find settings).after [started settings]).1

def usedDetectors (p : Pipeline) (settings : Settings) : Except RegistryError (List Detector) :=
  if p.detectors.isEmpty then p.chosenDetectors settings else .ok p.detectors

theorem analyse_after (p : Pipeline) (read : Bytes → Option Bytes) (detectors : List Detector)
    (a : Analysis) (file : Bytes) (events : List LogEvent) : ∃ event : LogEvent,
      event.fields.lookup ("file" : Bytes) = some file ∧
      (p.analyse read detectors a file).after events =
        (.ok (a.add (.ofContent p.model detectors file (read file))), events ++ [event]) := by
  unfold analyse Segment.ofContent Analysis.add
  cases read file with
  | none =>
    rw [List.append_nil]
    refine ⟨_, ?_, rfl⟩
    rfl
  | some source =>
    dsimp only
    cases p.model file source with
    | error e =>
      rw [List.append_nil]
      refine ⟨_, ?_, rfl⟩
      rfl
    | ok m =>
      rw [List.append_nil]
      refine ⟨_, ?_, rfl⟩
      rfl

theorem foldlM_analyse_after (p : Pipeline) (read : Bytes → Option Bytes)
    (detectors : List Detector) (a : Analysis) (files : List Bytes) (events : List LogEvent) :
    ∃ told : List LogEvent,
      (told.map fun event => event.fields.lookup ("file" : Bytes)) = files.map some ∧
      (files.foldlM (p.analyse read detectors) a).after events =
        (.ok (a.add (.joined (files.map fun file => .ofContent p.model detectors file (read file)))),
          events ++ told) := by
  induction files generalizing a events with
  | nil =>
    refine ⟨[], rfl, ?_⟩
    rw [List.map_nil, Analysis.add_joined_nil, List.append_nil]
    rfl
  | cons file files ih =>
    obtain ⟨event, names, here⟩ := p.analyse_after read detectors a file events
    obtain ⟨told, named, later⟩ :=
      ih (a.add (.ofContent p.model detectors file (read file))) (events ++ [event])
    refine ⟨event :: told, by rw [List.map_cons, names, named, List.map_cons], ?_⟩
    rw [List.foldlM_cons, Logged.after_bind, here, List.map_cons, Analysis.add_joined_cons,
      List.append_cons events event told]
    exact later

def analysis (p : Pipeline) (read : Bytes → Option Bytes) (files : List Bytes)
    (detectors : List Detector) : Analysis where
  files := files
  activeDetectors := detectors.map fun d => d.kind.name
  findings := files.flatMap fun file =>
    (Segment.ofContent p.model detectors file (read file)).findings
  errors := files.flatMap fun file => (Segment.ofContent p.model detectors file (read file)).errors

theorem analyse_ok_iff {files : List Bytes} {detectors : List Detector} {events : List LogEvent}
    {a : Analysis} : ((files.foldlM (p.analyse read detectors)
      { files, activeDetectors := detectors.map fun d => d.kind.name }).after events).1 = .ok a ↔
        a = p.analysis read files detectors := by
  obtain ⟨told, -, run⟩ := p.foldlM_analyse_after read detectors
    { files, activeDetectors := detectors.map fun d => d.kind.name } files events
  rw [run, Except.ok.injEq, eq_comm, Analysis.add, Segment.joined, List.flatMap_map,
    List.flatMap_map]
  rfl

def conclude (p : Pipeline) (read : Bytes → Option Bytes) (time : Bytes) (settings : Settings)
    (files : List Bytes) (detectors : List Detector) : Logged PipelineError Reported := do
  stage "detectors" [("count", Bytes.ofNat detectors.length)]
  let analysis ← files.foldlM (p.analyse read detectors)
    { files, activeDetectors := detectors.map fun d => d.kind.name }
  stage "detect" [("findings", Bytes.ofNat analysis.findings.length),
    ("errors", Bytes.ofNat analysis.errors.length)]
  let documents ← fromRegistry (p.render time settings analysis)
  stage "render" [("documents", Bytes.ofNat documents.length)]
  pure { analysis, documents }

theorem conclude_ok_iff {files : List Bytes} {detectors : List Detector} {events : List LogEvent} :
    ((p.conclude read time settings files detectors).after events).1 = .ok reported ↔
      reported.analysis = p.analysis read files detectors ∧
        p.render time settings reported.analysis = .ok reported.documents := by
  simp only [conclude, stage, Logged.bind_ok_iff, Logged.after_log, analyse_ok_iff,
    fromRegistry_ok_iff, Logged.after_pure, Except.ok.injEq, exists_const, true_and]
  constructor
  · rintro ⟨_, rfl, documents, rendered, rfl⟩
    exact ⟨rfl, rendered⟩
  · obtain ⟨analysis, documents⟩ := reported
    rintro ⟨rfl, rendered⟩
    exact ⟨_, rfl, documents, rendered, rfl⟩

theorem report_eq : p.report read time settings = (do
    Logged.log .info "pipeline.start" (started settings).fields
    let files ← p.find settings
    stage "source" [("file_count", Bytes.ofNat files.length)]
    let detectors ← fromRegistry (p.usedDetectors settings)
    p.conclude read time settings files detectors) := by
  unfold report usedDetectors
  split
  · rfl
  · rfl

theorem report_ok_iff : (p.report read time settings).outcome.1 = .ok reported ↔
    ∃ files detectors, p.acquired settings = .ok files ∧ p.usedDetectors settings = .ok detectors ∧
      reported.analysis = p.analysis read files detectors ∧
      p.render time settings reported.analysis = .ok reported.documents := by
  change ((p.report read time settings).after []).1 = .ok reported ↔ _
  rw [report_eq]
  simp only [stage, Logged.bind_ok_iff, Logged.after_log, fromRegistry_ok_iff, conclude_ok_iff,
    exists_const, true_and]
  constructor
  · rintro ⟨files, found, detectors, used, made⟩
    exact ⟨files, detectors, found, used, made⟩
  · rintro ⟨files, detectors, found, used, made⟩
    exact ⟨files, found, detectors, used, made⟩

theorem render_ok {a : Analysis} {documents : ByName Bytes}
    (rendered : p.render time settings a = .ok documents) (other : Analysis) :
    ∃ documents, p.render time settings other = .ok documents := by
  have renders (a : Analysis) : (∃ documents, p.render time settings a = .ok documents) ↔
      ∀ format ∈ (if settings.formats.isEmpty then [p.registry.reporters.defaultName.getD []]
        else settings.formats), ∃ reporter, p.reporterFor format = .ok reporter := by
    simp only [render, exists_bind_pure_ok, exists_mapM_ok]
  exact (renders other).2 ((renders a).1 ⟨documents, rendered⟩)

end Pipeline

namespace Pipeline

variable {p : Pipeline} {read : Bytes → Option Bytes} {time : Bytes} {settings : Settings}
  {reported : Reported}

theorem analysis_madeOf (p : Pipeline) (read : Bytes → Option Bytes) (files : List Bytes)
    (detectors : List Detector) : (p.analysis read files detectors).MadeOf files detectors
      fun file => .ofContent p.model detectors file (read file) where
  allFiles := rfl
  activeDetectors := rfl
  findings := rfl
  errors := rfl

/-- A run has analysed its files one by one, and so do all runs on other contents of the files. -/
structure FilesApart (p : Pipeline) (time : Bytes) (settings : Settings)
    (read : Bytes → Option Bytes) (reported : Reported) (detectors : List Detector)
    (segment : Bytes → Option Bytes → Segment) : Prop where
  acquired : p.acquired settings = .ok reported.analysis.files
  used : p.usedDetectors settings = .ok detectors
  segments : ∀ file content, Segment.Of p.model detectors file content (segment file content)
  made : reported.analysis.MadeOf reported.analysis.files detectors
    fun file => segment file (read file)
  reread : ∀ read', ∃ reported', (p.report read' time settings).outcome.1 = .ok reported' ∧
    reported'.analysis.MadeOf reported.analysis.files detectors
      fun file => segment file (read' file)
  changed : ∀ read' reported', (p.report read' time settings).outcome.1 = .ok reported' →
    ∀ before file after, reported.analysis.files = before ++ file :: after →
    (∀ other ∈ before ++ after, read' other = read other) → ∃ head tail,
      reported.analysis.HasBetween head (segment file (read file)) tail ∧
      reported'.analysis.HasBetween head (segment file (read' file)) tail

theorem files_independent (returned : (p.report read time settings).outcome.1 = .ok reported) :
    ∃ detectors segment, p.FilesApart time settings read reported detectors segment := by
  obtain ⟨files, detectors, found, used, made, rendered⟩ := report_ok_iff.1 returned
  let segment (file : Bytes) (content : Option Bytes) : Segment :=
    .ofContent p.model detectors file content
  have all (read' : Bytes → Option Bytes) (reported' : Reported)
      (returned' : (p.report read' time settings).outcome.1 = .ok reported') :
      reported'.analysis.MadeOf files detectors fun file => segment file (read' file) := by
    obtain ⟨files', detectors', found', used', made', -⟩ := report_ok_iff.1 returned'
    obtain rfl := Except.ok.inj (found.symm.trans found')
    obtain rfl := Except.ok.inj (used.symm.trans used')
    rw [made']
    exact p.analysis_madeOf read' files detectors
  obtain rfl : reported.analysis.files = files := (all read reported returned).allFiles
  refine ⟨detectors, segment, ?_⟩
  constructor
  case acquired => exact found
  case used => exact used
  case segments => exact Segment.of_ofContent p.model detectors
  case made => exact all read reported returned
  case reread =>
    intro read'
    obtain ⟨documents, rendered'⟩ := render_ok rendered
      (p.analysis read' reported.analysis.files detectors)
    let reported' : Reported :=
      { analysis := p.analysis read' reported.analysis.files detectors, documents }
    have returned' : (p.report read' time settings).outcome.1 = .ok reported' :=
      report_ok_iff.2 ⟨_, detectors, found, used, rfl, rendered'⟩
    exact ⟨reported', returned', all read' reported' returned'⟩
  case changed =>
    intro read' reported' returned' before file after split same
    have made := all read reported returned
    have made' := all read' reported' returned'
    rw [split] at made made'
    have unchanged (files : List Bytes) (mem : ∀ other ∈ files, other ∈ before ++ after) :
        files.map (fun file => segment file (read' file)) =
          files.map fun file => segment file (read file) :=
      List.map_congr_left fun other h => by rw [same other (mem other h)]
    have between := made'.hasBetween
    rw [unchanged before fun _ => List.mem_append_left _,
      unchanged after fun _ => List.mem_append_right _] at between
    exact ⟨_, _, made.hasBetween, between⟩

def threeFiles : Pipeline := { find := fun _ => pure ["a.py", "b.py", "c.py"] }

def threeContents (file : Bytes) : Option Bytes :=
  if file = "a.py" then none
  else if file = "b.py" then some "x = (\n"
  else some "def f(a, b, c, d, e, g): pass\n"

theorem files_independent_three : ∃ reported detectors segment,
    (threeFiles.report threeContents "" {}).outcome.1 = .ok reported ∧
    reported.analysis.errors.map FileError.file = ["a.py", "b.py"] ∧
    reported.analysis.findings.map Finding.file = ["c.py"] ∧
    threeFiles.FilesApart "" {} threeContents reported detectors segment := by
  obtain ⟨reported, returned, errors, findings⟩ :
      ∃ reported, (threeFiles.report threeContents "" {}).outcome.1 = .ok reported ∧
        reported.analysis.errors.map FileError.file = (["a.py", "b.py"] : List Bytes) ∧
        reported.analysis.findings.map Finding.file = (["c.py"] : List Bytes) := by
    decide +kernel
  obtain ⟨detectors, segment, apart⟩ := files_independent returned
  exact ⟨reported, detectors, segment, returned, errors, findings, apart⟩

end Pipeline

end CodeSmell
