import CodeSmell.Proofs.Detector.Order
import Mathlib.Data.List.DropRight

/-!
Sessions of a collector, in which findings are added and handed out any number of times. A collector
holds the findings that were added since they were last handed out, `pending`, and nothing else.
-/

namespace CodeSmell.Collector

inductive Request where
  | add (findings : List Finding)
  | finish

namespace Request

def isAdd : Request → Bool
  | add _ => true
  | finish => false

def findings : Request → List Finding
  | add findings => findings
  | finish => []

end Request

def serve (c : Collector) : Request → List Finding × Collector
  | .add findings => ([], c.add findings)
  | .finish => c.finish

def session (requests : List Request) : Collector :=
  requests.foldl (fun c q => (c.serve q).2) {}

def pending (requests : List Request) : List Finding :=
  (requests.rtakeWhile Request.isAdd).flatMap Request.findings

theorem session_concat (requests : List Request) (q : Request) :
    session (requests ++ [q]) = ((session requests).serve q).2 :=
  List.foldl_concat ..

theorem pending_add (requests : List Request) (findings : List Finding) :
    pending (requests ++ [.add findings]) = pending requests ++ findings := by
  rw [pending, List.rtakeWhile_concat_pos _ _ _ (by rfl), List.flatMap_append]
  simp [pending, Request.findings]

theorem pending_finish (requests : List Request) : pending (requests ++ [.finish]) = [] := by
  rw [pending, List.rtakeWhile_concat_neg _ _ _ (by decide), List.flatMap_nil]

theorem session_findings (requests : List Request) :
    (session requests).findings = pending requests := by
  induction requests using List.reverseRecOn with
  | nil => rfl
  | append_singleton requests q ih =>
    rw [session_concat]
    cases q with
    | add findings => rw [pending_add, ← ih]; rfl
    | finish => rw [pending_finish]; rfl

theorem session_eq (requests : List Request) : session requests = ⟨pending requests⟩ := by
  rw [← session_findings]

theorem pending_parts (before : List Request) (parts : List (List Finding)) :
    pending (before ++ parts.map .add) = pending before ++ parts.flatten := by
  induction parts using List.reverseRecOn with
  | nil => simp
  | append_singleton parts part ih =>
    rw [List.map_append, List.map_singleton, ← List.append_assoc, pending_add, ih]
    simp

/-- At any point of a session a finish hands out what was added since the last one, each finding as
often as it was added, by first lines and kinds, and everything goes on as with a new collector. How
the findings came in parts does not matter. -/
theorem finish_ordered (before : List Request) :
    Finding.Ordered (pending before) (session before).finish.1 ∧
    (∀ later, session (before ++ .finish :: later) = session later) ∧
    ∀ parts : List (List Finding),
      session (before ++ parts.map .add) = session (before ++ [.add parts.flatten]) := by
  refine ⟨?_, fun later => ?_, fun parts => ?_⟩
  · rw [session_eq]
    exact Finding.ordered_sort (pending before)
  · rw [session, List.foldl_append, List.foldl_cons]
    rfl
  · rw [session_eq, session_eq, pending_parts, pending_add]

end CodeSmell.Collector
