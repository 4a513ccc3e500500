import CodeSmell.Proofs.Lexer.Lossless

/-!
The order of tokens. Every token with text stands before those that come after it, so that it can be
told by its position.
-/

namespace CodeSmell

def Position.Before (p q : Position) : Prop :=
  p.line < q.line ∨ p.line = q.line ∧ p.column < q.column

namespace Position

theorem Before.trans {p q r : Position} (h : p.Before q) (h' : q.Before r) : p.Before r := by
  unfold Before at *
  omega

theorem not_before_self (p : Position) : ¬p.Before p := by
  unfold Before
  omega

theorem before_next (p : Position) (b : UInt8) : p.Before (p.next b) := by
  unfold Before next
  split <;> simp

theorem before_after {p : Position} {s : Bytes} (h : s ≠ []) : p.Before (p.after s) := by
  induction s generalizing p with
  | nil => exact absurd rfl h
  | cons b rest ih =>
    rw [after_cons]
    by_cases last : rest = []
    · subst last
      exact before_next p b
    · exact (before_next p b).trans (ih last)

end Position

theorem Token.StandsAfter.position_eq {t : Token} {before : Bytes} (h : t.StandsAfter before) :
    t.position = ({} : Position).after before := by
  rw [Position.after_start, ← h.line, ← h.column]

namespace Lexer

theorem Covers.position {before rest : Bytes} {ts : List Token} (h : Covers before rest ts) :
    ∀ t ∈ ts, ∃ gap, t.position = ({} : Position).after (before ++ gap) := by
  induction h with
  | last => exact nofun
  | @token before gap rest t ts _ _ stands _ ih =>
    intro u mem
    rcases List.mem_cons.1 mem with rfl | mem
    · exact ⟨gap, stands.position_eq⟩
    · obtain ⟨later, position⟩ := ih u mem
      exact ⟨gap ++ (t.text ++ later), by rw [position]; simp⟩

theorem Covers.sorted {before rest : Bytes} {ts : List Token} (h : Covers before rest ts) :
    ts.Pairwise fun t u => t.position.Before u.position := by
  induction h with
  | last => exact .nil
  | @token before gap rest t ts _ text stands covers ih =>
    refine .cons (fun u mem => ?_) ih
    obtain ⟨later, position⟩ := covers.position u mem
    rw [position, stands.position_eq, List.append_assoc, Position.after_append _ (before ++ gap)]
    exact Position.before_after (by simp [text])

theorem tokenize_sorted {source : Bytes} {tokens : List Token} (h : tokenize source = .ok tokens) :
    (tokens.filter (!·.isLayout)).Pairwise fun t u => t.position.Before u.position :=
  (tokenize_covers h).sorted

theorem tokenize_position_inj {source : Bytes} {tokens : List Token}
    (h : tokenize source = .ok tokens) :
    ((tokens.filter (!·.isLayout)).map Token.position).Nodup := by
  rw [List.Nodup, List.pairwise_map]
  refine (tokenize_sorted h).imp fun before same => ?_
  rw [same] at before
  exact Position.not_before_self _ before

end Lexer

end CodeSmell
