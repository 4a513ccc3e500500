import CodeSmell.Proofs.Model.Origins

/-!
What stands directly in the body of a definition. The walk over a block goes through its statements in
source order and leaves out those that a definition in it is around. So the walk over the body of a
definition has the statements of the module that this definition is the innermost one around.
-/

namespace CodeSmell

def Block.IsDirectlyWithin (b : Block) (k n : Nat) : Prop :=
  b.IsWithin k n ∧ ∀ j, b.IsWithin j n → j ≤ k

namespace Placed

instance (p : Placed) (n : Nat) : Decidable (p.Around n) :=
  decidable_of_iff (p.statement.body?.any fun body =>
      p.number < n && n ≤ p.number + body.deep.length) <| by
    simp [Around, Option.any_eq_true]

theorem not_around {p : Placed} {n : Nat} (h : p.statement.body? = none) : ¬p.Around n := by
  rintro ⟨body, hasBody, -⟩
  cases h.symm.trans hasBody

def outermost (placed : List Placed) : List Placed :=
  placed.filter fun q => ∀ p ∈ placed, ¬p.Around q.number

theorem mem_outermost {placed : List Placed} {q : Placed} :
    q ∈ outermost placed ↔ q ∈ placed ∧ ∀ p ∈ placed, ¬p.Around q.number := by
  rw [outermost, List.mem_filter, decide_eq_true_iff]

end Placed

namespace Block

variable {place : Place} {n : Nat} {b : Block}

theorem around_head {s : Stmt} {k : Nat}
    (h : Placed.Around { number := n, statement := s, place } k) : k < n + 1 +
      (Block.placed (place.within n s) (n + 1) s.nested.flatten).length := by
  obtain ⟨body, hasBody, -, inside⟩ := h
  rw [placed_length, (Stmt.nested_of_body hasBody).2, List.flatten_singleton]
  dsimp only at inside
  omega

theorem outermost_cons (place : Place) (n : Nat) (s : Stmt) (rest : Block) :
    let below := Block.placed (place.within n s) (n + 1) s.nested.flatten
    Placed.outermost (Block.placed place n (s :: rest)) = { number := n, statement := s, place } ::
      ((if s.body?.isSome then [] else Placed.outermost below) ++
        Placed.outermost (Block.placed place (n + 1 + below.length) rest)) := by
  intro below
  set later := Block.placed place (n + 1 + below.length) rest
  have range {q : Placed} (mem : q ∈ below) :
      n + 1 ≤ q.number ∧ q.number < n + 1 + below.length := number_lt mem
  have range' {q : Placed} (mem : q ∈ later) : n + 1 + below.length ≤ q.number := (number_lt mem).1
  have first : ∀ p ∈ Block.placed place n (s :: rest), ¬p.Around n := fun p hp around => by
    have := around.number_lt
    have := (number_lt hp).1
    omega
  rw [placed_cons] at first
  rw [Placed.outermost, placed_cons]
  refine (List.filter_cons_of_pos ?_).trans ?_
  · exact decide_eq_true first
  rw [List.filter_append]
  refine congrArg (List.cons _) (congrArg₂ List.append ?_ ?_)
  · cases body : s.body? with
    | none =>
      refine List.filter_congr fun q mem => decide_eq_decide.2 ?_
      rw [List.forall_mem_cons, List.forall_mem_append]
      refine ⟨fun h => h.2.1, fun h => ⟨Placed.not_around body, h, fun p hp around => ?_⟩⟩
      have := around.number_lt
      have := (range mem).2
      have := range' hp
      omega
    | some inside =>
      have size : inside.deep.length = below.length := by
        rw [placed_length, (Stmt.nested_of_body body).2, List.flatten_singleton]
      refine List.filter_eq_nil_iff.2 fun q mem outermost => ?_
      have := range mem
      refine of_decide_eq_true outermost _ (.head _) ⟨inside, body, ?_⟩
      dsimp only
      omega
  · refine List.filter_congr fun q mem => decide_eq_decide.2 ?_
    have := range' mem
    rw [List.forall_mem_cons, List.forall_mem_append]
    refine ⟨fun h => h.2.2, fun h => ⟨fun around => ?_, fun p hp around => ?_, h⟩⟩
    · have : q.number < n + 1 + below.length := around_head around
      omega
    · have : q.number < n + 1 + below.length := around_lt hp around
      omega

theorem outermost_placed (place : Place) (n : Nat) (b : Block) :
    (Placed.outermost (Block.placed place n b)).map (·.statement) = Block.walk b := by
  fun_induction Block.placed place n b with
  | case1 place n => rw [walk_nil]; rfl
  | case2 place n s rest below ih₁ ih₂ =>
    rw [← placed_cons, outermost_cons, walk_cons, List.map_cons, List.map_append]
    congr 2
    · cases body : s.body? with
      | none => rw [← Stmt.nested_of_blocks body]; exact ih₁
      | some inside => rw [(Stmt.nested_of_body body).1, List.flatten_nil, walk_nil]; rfl

end Block

theorem Placed.outermost_sorted (place : Place) (n : Nat) (b : Block) :
    (outermost (Block.placed place n b)).Pairwise fun p q => p.number < q.number := by
  refine List.Pairwise.filter _ (List.pairwise_map.1 ?_)
  rw [Block.placed_numbers]
  exact List.pairwise_lt_range'

def Placed.below (p : Placed) : List Placed :=
  Block.placed (p.place.within p.number p.statement) (p.number + 1) p.statement.nested.flatten

section Bodies

variable {b body : Block} {p q : Placed} (hp : p ∈ Block.placed {} 0 b)
  (hasBody : p.statement.body? = some body)

include hasBody

theorem Placed.mem_around_iff {n : Nat} :
    n ∈ p.below.map (·.number) ↔ p.Around n := by
  rw [below, Block.placed_numbers, List.mem_range'_1, Block.placed_length,
    (Stmt.nested_of_body hasBody).2, List.flatten_singleton]
  constructor
  · exact fun range => ⟨body, hasBody, by omega, by omega⟩
  · rintro ⟨body', hasBody', after, inside⟩
    obtain rfl := Option.some.inj (hasBody.symm.trans hasBody')
    omega

include hp

theorem Placed.mem_below_iff (hq : q ∈ Block.placed {} 0 b) : q ∈ p.below ↔ p.Around q.number := by
  rw [← mem_around_iff hasBody]
  refine ⟨List.mem_map_of_mem, fun number => ?_⟩
  obtain ⟨q', inside, same⟩ := List.mem_map.1 number
  rwa [Block.eq_of_number hq (Block.placed_nested hp inside) same.symm]

theorem Placed.mem_outermost_below : q ∈ outermost p.below ↔
    q ∈ Block.placed {} 0 b ∧ b.IsDirectlyWithin p.number q.number := by
  rw [mem_outermost]
  constructor
  · rintro ⟨mem, nowhere⟩
    have hq := Block.placed_nested hp mem
    have around := (mem_below_iff hp hasBody hq).1 mem
    refine ⟨hq, Block.isWithin_iff.2 ⟨p, hp, rfl, around⟩, fun j within => ?_⟩
    obtain ⟨o, ho, rfl, around'⟩ := Block.isWithin_iff.1 within
    by_contra later
    -- a definition after `p` and around `q` is in the body of `p`
    refine nowhere o ((mem_below_iff hp hasBody ho).2 ⟨body, hasBody, by omega, ?_⟩) around'
    obtain ⟨body', hasBody', -, inside⟩ := around
    obtain rfl := Option.some.inj (hasBody.symm.trans hasBody')
    have := around'.number_lt
    omega
  · rintro ⟨hq, within, innermost⟩
    obtain ⟨p', hp', same, around⟩ := Block.isWithin_iff.1 within
    obtain rfl := Block.eq_of_number hp' hp same
    refine ⟨(mem_below_iff hp hasBody hq).2 around, fun o ho around' => ?_⟩
    have := innermost o.number (Block.isWithin_iff.2 ⟨o, Block.placed_nested hp ho, rfl, around'⟩)
    have := (Block.number_lt ho).1
    omega

omit hp

theorem Placed.walk_body : (outermost p.below).map (·.statement) = Block.walk body := by
  rw [below, Block.outermost_placed, (Stmt.nested_of_body hasBody).2, List.flatten_singleton]

end Bodies

end CodeSmell
