import CodeSmell.Proofs.Report.Grammar
import Mathlib.Data.Nat.Basic
import Mathlib.Order.Basic

/-!
A decoder for JSON texts. `decode_document` says that it finds the value of every text of the grammar.
The decoder takes white space and digits as far as they go, so a number is found where nothing stands
behind it that could belong to it.
-/

namespace CodeSmell.Json

open Grammar

namespace Decoder

def skipBlank (t : Bytes) : Bytes := t.dropWhile isBlank

/-! ## Strings -/

def codeUnit? : Bytes → Option (Nat × Bytes)
  | b :: letter :: rest => if b == '\\' && letter == 'u' then unit? rest else none
  | _ => none

def plainOrEscape? : Bytes → Option (Bytes × Bytes)
  | b :: rest =>
    if b == '\\' then
      match rest with
      | letter :: rest => (escapes.lookup letter).map fun c => ([c], rest)
      | [] => none
    else if b < 0x20 then none
    else some ([b], rest)
  | [] => none

def character? (t : Bytes) : Option (Bytes × Bytes) :=
  match codeUnit? t with
  | some (unit, rest) =>
    if isHighSurrogate unit then
      (codeUnit? rest).bind fun (low, rest) =>
        if isLowSurrogate low then some (utf8 (surrogatePair unit low), rest) else none
    else if isLowSurrogate unit then none
    else some (utf8 unit, rest)
  | none => plainOrEscape? t

def characters? : Nat → Bytes → Option (Bytes × Bytes)
  | 0, _ => none
  | _ + 1, [] => none
  | n + 1, b :: t =>
    if b == '"' then some ([], t)
    else do
      let (c, t) ← character? (b :: t)
      let (s, t) ← characters? n t
      pure (c ++ s, t)

/-! ## Numbers -/

def digits? (t : Bytes) : Option (Bytes × Bytes) :=
  let digits := t.takeWhile Ascii.isDigit
  if digits.isEmpty then none else some (digits, t.dropWhile Ascii.isDigit)

def fraction? : Bytes → Option (Bytes × Bytes)
  | [] => some ([], [])
  | b :: t => if b == '.' then digits? t else some ([], b :: t)

def exponent? : Bytes → Option (Int × Bytes)
  | [] => some (0, [])
  | b :: t =>
    if isExponentMark b then
      match t with
      | [] => none
      | sign :: digits =>
        if sign == '+' then (digits? digits).map fun (ds, t) => ((Number.digitsValue ds : Int), t)
        else if sign == '-' then
          (digits? digits).map fun (ds, t) => (-(Number.digitsValue ds : Int), t)
        else (digits? t).map fun (ds, t) => ((Number.digitsValue ds : Int), t)
    else some (0, b :: t)

def magnitude? (t : Bytes) : Option ((Nat × Int) × Bytes) := do
  let (whole, t) ← digits? t
  if whole.head? = some ('0' : UInt8) ∧ whole ≠ "0" then none
  else
    let (fraction, t) ← fraction? t
    let (exponent, t) ← exponent? t
    pure ((Number.digitsValue (whole ++ fraction), exponent - fraction.length), t)

def numeral? : Bytes → Option (Value × Bytes)
  | [] => none
  | b :: t =>
    if b == '-' then (magnitude? t).map fun ((m, e), t) => (.number (-(m : Int)) e, t)
    else (magnitude? (b :: t)).map fun ((m, e), t) => (.number m e, t)

/-! ## Values -/

def separated {α : Type} (item : Bytes → Option (α × Bytes)) (close : UInt8) :
    Nat → Bytes → Option (List α × Bytes)
  | 0, _ => none
  | n + 1, t => do
    let (x, t) ← item (skipBlank t)
    match skipBlank t with
    | [] => none
    | b :: t =>
      if b == close then pure ([x], t)
      else if b == ',' then
        let (xs, t) ← separated item close n t
        pure (x :: xs, t)
      else none

def bracketed {α : Type} (item : Bytes → Option (α × Bytes)) (close : UInt8) (n : Nat) (t : Bytes) :
    Option (List α × Bytes) :=
  match skipBlank t with
  | [] => none
  | b :: rest => if b == close then some ([], rest) else separated item close n t

def member? (value? : Bytes → Option (Value × Bytes)) (n : Nat) :
    Bytes → Option ((Bytes × Value) × Bytes)
  | [] => none
  | b :: t =>
    if b == '"' then do
      let (name, t) ← characters? n t
      match skipBlank t with
      | [] => none
      | b :: t =>
        if b == ':' then
          let (v, t) ← value? (skipBlank t)
          pure ((name, v), t)
        else none
    else none

def word? (t : Bytes) : Option (Value × Bytes) :=
  if List.isPrefixOf "null" t then some (.null, t.drop 4)
  else if List.isPrefixOf "true" t then some (.bool true, t.drop 4)
  else if List.isPrefixOf "false" t then some (.bool false, t.drop 5)
  else none

def value? : Nat → Bytes → Option (Value × Bytes)
  | 0, _ => none
  | _ + 1, [] => none
  | n + 1, b :: t =>
    if b == '"' then (characters? n t).map fun (s, t) => (.string s, t)
    else if b == '[' then (bracketed (value? n) ']' n t).map fun (vs, t) => (.array vs, t)
    else if b == '\x7b' then
      (bracketed (member? (value? n) n) '\x7d' n t).map fun (ms, t) => (.object ms, t)
    else (word? (b :: t)).or (numeral? (b :: t))

end Decoder

def decode (t : Bytes) : Option Value :=
  (Decoder.value? t.length (Decoder.skipBlank t)).bind fun (v, rest) =>
    if (Decoder.skipBlank rest).isEmpty then some v else none

namespace Decoder

variable {t rest : Bytes}

def Stops (p : UInt8 → Bool) (t : Bytes) : Prop := ∀ b ∈ t.head?, p b = false

theorem stops_nil (p : UInt8 → Bool) : Stops p [] := nofun

theorem stops_cons {p : UInt8 → Bool} {b : UInt8} : Stops p (b :: t) ↔ p b = false := by
  simp [Stops]

theorem Stops.dropWhile {p : UInt8 → Bool} (stops : Stops p t) : t.dropWhile p = t := by
  cases t with
  | nil => rfl
  | cons b t => exact List.dropWhile_cons_of_neg (by simp [stops_cons.1 stops])

theorem Stops.takeWhile {p : UInt8 → Bool} (stops : Stops p t) : t.takeWhile p = [] := by
  cases t with
  | nil => rfl
  | cons b t => exact List.takeWhile_cons_of_neg (by simp [stops_cons.1 stops])

/-! ## White space -/

theorem skipBlank_space (space : Space t rest) (stops : Stops isBlank rest) :
    skipBlank t = rest := by
  induction space with
  | nil => exact stops.dropWhile
  | cons blank _ ih => rw [skipBlank, List.dropWhile_cons_of_pos blank]; exact ih stops

theorem length_space (space : Space t rest) : rest.length ≤ t.length := by
  induction space with
  | nil => exact le_rfl
  | cons _ _ ih => exact Nat.le_succ_of_le ih

/-! ## Strings -/

theorem length_unit {n : Nat} (found : unit? t = some (n, rest)) : rest.length < t.length := by
  unfold unit? at found
  split at found
  · simp only [Option.bind_eq_bind, Option.bind_eq_some_iff, Option.pure_def, Option.some_inj,
      Prod.mk.injEq] at found
    obtain ⟨-, -, -, -, -, -, -, -, -, rfl⟩ := found
    simp only [List.length_cons]
    omega
  · cases found

theorem codeUnit?_eq {n : Nat} (h : CodeUnit n t rest) : codeUnit? t = some (n, rest) := by
  obtain ⟨digits⟩ := h
  exact digits

theorem length_codeUnit {n : Nat} (h : CodeUnit n t rest) : rest.length < t.length := by
  obtain ⟨digits⟩ := h
  have := length_unit digits
  simp only [List.length_cons]
  omega

theorem character?_eq {c : Bytes} (h : Character c t rest) : character? t = some (c, rest) := by
  cases h with
  | @plain b _ printable noQuote noBackslash =>
    have noUnit : codeUnit? (b :: rest) = none := by
      cases rest <;> simp [codeUnit?, noBackslash]
    simp [character?, noUnit, plainOrEscape?, noBackslash, UInt8.not_lt.2 printable]
  | @escape letter b _ known =>
    have noUnit : codeUnit? ('\\' :: letter :: rest) = none := by
      have other : letter ≠ 'u' := by
        rintro rfl
        cases known
      simp [codeUnit?, other]
    simp [character?, noUnit, plainOrEscape?, known]
  | unicode unit noHigh noLow => simp [character?, codeUnit?_eq unit, noHigh, noLow]
  | pair first isHigh second isLow =>
    simp [character?, codeUnit?_eq first, isHigh, codeUnit?_eq second, isLow]

theorem head_codeUnit {n : Nat} (h : CodeUnit n t rest) :
    ∃ b u, t = b :: u ∧ b ≠ '"' ∧ rest.length ≤ u.length := by
  have shorter := length_codeUnit h
  obtain ⟨digits⟩ := h
  exact ⟨_, _, rfl, by decide, Nat.le_of_lt_succ shorter⟩

theorem head_character {c : Bytes} (h : Character c t rest) :
    ∃ b u, t = b :: u ∧ b ≠ '"' ∧ rest.length ≤ u.length := by
  cases h with
  | plain _ noQuote _ => exact ⟨_, _, rfl, noQuote, le_rfl⟩
  | escape _ => exact ⟨_, _, rfl, by decide, Nat.le_succ _⟩
  | unicode unit => exact head_codeUnit unit
  | pair first _ second =>
    obtain ⟨b, u, same, noQuote, shorter⟩ := head_codeUnit first
    exact ⟨b, u, same, noQuote, (length_codeUnit second).le.trans shorter⟩

theorem characters?_eq {s u : Bytes} {n : Nat} (h : Characters s t u)
    (closed : u = ('"' : UInt8) :: rest) (fuel : t.length ≤ n) :
    characters? n t = some (s, rest) := by
  induction h generalizing n with
  | nil =>
    subst closed
    cases n with
    | zero => cases fuel
    | succ n => simp [characters?]
  | @cons c s t t' u first _ ih =>
    obtain ⟨b, u, rfl, noQuote, shorter⟩ := head_character first
    cases n with
    | zero => cases fuel
    | succ n =>
      have more := ih closed (shorter.trans (Nat.le_of_succ_le_succ fuel))
      simp [characters?, noQuote, character?_eq first, more]

theorem length_characters {s : Bytes} (h : Characters s t rest) : rest.length ≤ t.length := by
  induction h with
  | nil => exact le_rfl
  | cons first _ ih =>
    obtain ⟨b, u, rfl, -, shorter⟩ := head_character first
    exact ih.trans (shorter.trans (Nat.le_succ _))

/-! ## Numbers -/

def isNumberByte (b : UInt8) : Bool := Ascii.isDigit b || b == '.' || isExponentMark b

theorem digits?_eq {ds : Bytes} (h : Digits ds t rest) (stops : Stops Ascii.isDigit rest) :
    digits? t = some (ds, rest) := by
  obtain ⟨nonempty, decimal, rfl⟩ := h
  rw [digits?, List.takeWhile_append_of_pos decimal, List.dropWhile_append_of_pos decimal,
    stops.takeWhile, stops.dropWhile, List.append_nil]
  simp [nonempty]

theorem head_digits {ds : Bytes} (h : Digits ds t rest) :
    ∃ d u, t = d :: u ∧ Ascii.isDigit d = true := by
  obtain ⟨nonempty, decimal, rfl⟩ := h
  cases ds with
  | nil => exact absurd rfl nonempty
  | cons d ds => exact ⟨d, ds ++ rest, rfl, decimal d (.head _)⟩

theorem length_digits {ds : Bytes} (h : Digits ds t rest) : rest.length < t.length := by
  rw [h.text, List.length_append]
  have := List.length_pos_iff.2 h.nonempty
  omega

theorem Stops.mono {p q : UInt8 → Bool} (stops : Stops q t) (le : ∀ b, q b = false → p b = false) :
    Stops p t := fun b mem => le b (stops b mem)

theorem isDigit_of_isNumberByte {b : UInt8} (h : isNumberByte b = false) :
    Ascii.isDigit b = false := by
  simp only [isNumberByte, Bool.or_eq_false_iff] at h
  exact h.1.1

theorem exponent?_eq {e : Int} (h : Exponent e t rest) (stops : Stops isNumberByte rest) :
    exponent? t = some (e, rest) := by
  have noDigit := stops.mono fun _ => isDigit_of_isNumberByte
  cases h with
  | none =>
    cases t with
    | nil => rfl
    | cons b t =>
      have noMark : isExponentMark b = false := by
        have stops := stops_cons.1 stops
        simp only [isNumberByte, Bool.or_eq_false_iff] at stops
        exact stops.2
      simp [exponent?, noMark]
  | unsigned isMark read =>
    obtain ⟨d, u, same, isDigit⟩ := head_digits read
    have noPlus : d ≠ '+' := by
      rintro rfl
      cases isDigit
    have noMinus : d ≠ '-' := by
      rintro rfl
      cases isDigit
    rw [same] at read ⊢
    simp [exponent?, isMark, noPlus, noMinus, digits?_eq read noDigit]
  | plus isMark read => simp [exponent?, isMark, digits?_eq read noDigit]
  | minus isMark read =>
    have noPlus : ('-' : UInt8) ≠ '+' := by decide
    simp [exponent?, isMark, noPlus, digits?_eq read noDigit]

theorem isDigit_of_mark {b : UInt8} (isMark : isExponentMark b = true) :
    Ascii.isDigit b = false ∧ b ≠ '.' := by
  simp only [isExponentMark, Bool.or_eq_true, beq_iff_eq] at isMark
  rcases isMark with rfl | rfl <;> exact ⟨rfl, by decide⟩

theorem exponent_stops {e : Int} (h : Exponent e t rest) (stops : Stops isNumberByte rest) :
    Stops (fun b => Ascii.isDigit b || b == '.') t := by
  cases h with
  | none =>
    refine stops.mono fun b other => ?_
    simp only [isNumberByte, Bool.or_eq_false_iff] at other
    simp [other]
  | unsigned isMark | plus isMark | minus isMark =>
    exact stops_cons.2 (by simp [isDigit_of_mark isMark])

theorem length_exponent {e : Int} (h : Exponent e t rest) : rest.length ≤ t.length := by
  cases h with
  | none => exact le_rfl
  | unsigned _ read | plus _ read | minus _ read =>
    have := length_digits read
    simp only [List.length_cons]
    omega

theorem fraction?_eq {ds : Bytes} (h : Fraction ds t rest)
    (stops : Stops (fun b => Ascii.isDigit b || b == '.') rest) :
    fraction? t = some (ds, rest) := by
  cases h with
  | none =>
    cases t with
    | nil => rfl
    | cons b t =>
      have other := stops_cons.1 stops
      simp only [Bool.or_eq_false_iff] at other
      simp [fraction?, other.2]
  | some read =>
    have noDigit : Stops Ascii.isDigit rest :=
      stops.mono fun b other => (Bool.or_eq_false_iff.1 other).1
    simp [fraction?, digits?_eq read noDigit]

theorem fraction_stops {ds : Bytes} (h : Fraction ds t rest) (stops : Stops Ascii.isDigit rest) :
    Stops Ascii.isDigit t := by
  cases h with
  | none => exact stops
  | some _ => exact stops_cons.2 rfl

theorem length_fraction {ds : Bytes} (h : Fraction ds t rest) : rest.length ≤ t.length := by
  cases h with
  | none => exact le_rfl
  | some read => exact (length_digits read).le.trans (Nat.le_succ _)

theorem magnitude?_eq {m : Nat} {e : Int} (h : Magnitude m e t rest)
    (stops : Stops isNumberByte rest) : magnitude? t = some ((m, e), rest) := by
  obtain ⟨read, noZero, behind, scaled⟩ := h
  have afterFraction := exponent_stops scaled stops
  have afterWhole := fraction_stops behind
    (afterFraction.mono fun b other => (Bool.or_eq_false_iff.1 other).1)
  simpa [magnitude?, digits?_eq read afterWhole, fraction?_eq behind afterFraction,
    exponent?_eq scaled stops] using noZero

theorem length_magnitude {m : Nat} {e : Int} (h : Magnitude m e t rest) :
    rest.length < t.length := by
  obtain ⟨read, -, behind, scaled⟩ := h
  have := length_digits read
  have := length_fraction behind
  have := length_exponent scaled
  omega

theorem head_magnitude {m : Nat} {e : Int} (h : Magnitude m e t rest) :
    ∃ d u, t = d :: u ∧ Ascii.isDigit d = true := by
  obtain ⟨read, -, -, -⟩ := h
  exact head_digits read

theorem numeral?_eq {m e : Int} (h : Numeral m e t rest) (stops : Stops isNumberByte rest) :
    numeral? t = some (.number m e, rest) := by
  cases h with
  | positive read =>
    obtain ⟨d, u, rfl, isDigit⟩ := head_magnitude read
    have noMinus : d ≠ '-' := by
      rintro rfl
      cases isDigit
    simp [numeral?, noMinus, magnitude?_eq read stops]
  | negative read => simp [numeral?, magnitude?_eq read stops]

theorem length_numeral {m e : Int} (h : Numeral m e t rest) : rest.length < t.length := by
  cases h with
  | positive read => exact length_magnitude read
  | negative read => exact (length_magnitude read).trans (Nat.lt_succ_self _)

theorem head_numeral {m e : Int} (h : Numeral m e t rest) :
    ∃ b u, t = b :: u ∧ (Ascii.isDigit b = true ∨ b = '-') := by
  cases h with
  | positive read =>
    obtain ⟨d, u, same, isDigit⟩ := head_magnitude read
    exact ⟨d, u, same, .inl isDigit⟩
  | negative read => exact ⟨_, _, rfl, .inr rfl⟩

/-! ## Values -/

theorem ne_of_isDigit {b c : UInt8} (isDigit : Ascii.isDigit b = true)
    (other : Ascii.isDigit c = false) : b ≠ c := by
  rintro rfl
  cases isDigit.symm.trans other

theorem isBlank_of_isDigit {b : UInt8} (isDigit : Ascii.isDigit b = true) : isBlank b = false := by
  simp only [isBlank, Bool.or_eq_false_iff, beq_eq_false_iff_ne]
  exact ⟨⟨⟨ne_of_isDigit isDigit rfl, ne_of_isDigit isDigit rfl⟩, ne_of_isDigit isDigit rfl⟩,
    ne_of_isDigit isDigit rfl⟩

theorem head_value {v : Value} (h : Reads (.value v) t rest) :
    ∃ b u, t = b :: u ∧ isBlank b = false ∧ b ≠ ']' := by
  cases h with
  | null => exact ⟨_, _, rfl, rfl, by decide⟩
  | @bool b => cases b <;> exact ⟨_, _, rfl, rfl, by decide⟩
  | number read =>
    obtain ⟨b, u, rfl, isDigit | rfl⟩ := head_numeral read
    · exact ⟨_, _, rfl, isBlank_of_isDigit isDigit, ne_of_isDigit isDigit rfl⟩
    · exact ⟨_, _, rfl, rfl, by decide⟩
  | string _ | noElements _ | array _ | noMembers _ | object _ => exact ⟨_, _, rfl, rfl, by decide⟩

theorem stops_value {v : Value} (h : Reads (.value v) t rest) : Stops isBlank t := by
  obtain ⟨b, u, rfl, notBlank, -⟩ := head_value h
  exact stops_cons.2 notBlank

theorem head_member {m : Bytes × Value} (h : Reads (.member m) t rest) :
    ∃ u, t = ('"' : UInt8) :: u := by
  cases h
  exact ⟨_, rfl⟩

theorem stops_member {m : Bytes × Value} (h : Reads (.member m) t rest) : Stops isBlank t := by
  obtain ⟨u, rfl⟩ := head_member h
  exact stops_cons.2 rfl

theorem head_elements {vs : List Value} (h : Reads (.elements vs) t rest) :
    ∃ b u, skipBlank t = b :: u ∧ b ≠ ']' := by
  cases h with
  | lastElement before read | elements before read =>
    rw [skipBlank_space before (stops_value read)]
    obtain ⟨b, u, same, -, other⟩ := head_value read
    exact ⟨b, u, same, other⟩

theorem head_members {ms : List (Bytes × Value)} (h : Reads (.members ms) t rest) :
    ∃ u, skipBlank t = ('"' : UInt8) :: u := by
  cases h with
  | lastMember before read | members before read =>
    rw [skipBlank_space before (stops_member read)]
    exact head_member read

theorem length_reads {part : Part} (h : Reads part t rest) : rest.length < t.length := by
  induction h with
  | null =>
    rw [List.length_append]
    exact Nat.lt_add_of_pos_left (by decide)
  | @bool b =>
    rw [List.length_append]
    cases b <;> exact Nat.lt_add_of_pos_left (by decide)
  | number read => exact length_numeral read
  | string read => exact (length_characters read).trans (Nat.le_succ _)
  | noElements empty | noMembers empty => exact (length_space empty).trans (Nat.le_succ _)
  | array _ ih | object _ ih =>
    simp only [List.length_cons] at ih ⊢
    omega
  | member named colon between _ ih =>
    have := length_characters named
    have := length_space colon
    have := length_space between
    simp only [List.length_cons] at *
    omega
  | lastElement before _ behind ih | lastMember before _ behind ih =>
    have := length_space before
    have := length_space behind
    omega
  | elements before _ behind _ ih more | members before _ behind _ ih more =>
    have := length_space before
    have := length_space behind
    simp only [List.length_cons] at this
    omega

section Lists

variable {α : Type} {item : Bytes → Option (α × Bytes)} {close : UInt8} {n : Nat} {x : α}
  {xs : List α} {u : Bytes}

theorem bracketed_empty (notBlank : isBlank close = false) (empty : Space t (close :: rest)) :
    bracketed item close n t = some ([], rest) := by
  simp [bracketed, skipBlank_space empty (stops_cons.2 notBlank)]

theorem bracketed_items {b : UInt8} (begins : skipBlank t = b :: u) (other : b ≠ close) :
    bracketed item close n t = separated item close n t := by
  simp [bracketed, begins, other]

theorem separated_last (found : item (skipBlank t) = some (x, u)) (notBlank : isBlank close = false)
    (behind : Space u (close :: rest)) : separated item close (n + 1) t = some ([x], rest) := by
  simp [separated, found, skipBlank_space behind (stops_cons.2 notBlank)]

theorem separated_next {u' : Bytes} (found : item (skipBlank t) = some (x, u))
    (behind : Space u (',' :: u')) (other : (',' : UInt8) ≠ close)
    (more : separated item close n u' = some (xs, rest)) :
    separated item close (n + 1) t = some (x :: xs, rest) := by
  have comma := skipBlank_space behind (stops_cons.2 rfl)
  simp [separated, found, comma, other, more]

end Lists

theorem word?_eq_none {b : UInt8} (n : b ≠ 'n') (t : b ≠ 't') (f : b ≠ 'f') (u : Bytes) :
    word? (b :: u) = none := by
  have noPrefix (c : UInt8) (word : Bytes) (other : b ≠ c) :
      List.isPrefixOf (c :: word) (b :: u) = false := by
    simp [List.isPrefixOf, other.symm]
  have null := noPrefix 'n' (Bytes.ofString "ull") n
  have true := noPrefix 't' (Bytes.ofString "rue") t
  have false := noPrefix 'f' (Bytes.ofString "alse") f
  unfold word?
  rw [if_neg (by exact ne_true_of_eq_false null), if_neg (by exact ne_true_of_eq_false true),
    if_neg (by exact ne_true_of_eq_false false)]

theorem stops_space {p : UInt8 → Bool} (space : Space t rest) (stops : Stops p rest)
    (blank : ∀ b, isBlank b = true → p b = false) : Stops p t := by
  cases space with
  | nil => exact stops
  | cons isBlank _ => exact stops_cons.2 (blank _ isBlank)

theorem isNumberByte_of_isBlank {b : UInt8} (blank : isBlank b = true) :
    isNumberByte b = false := by
  simp only [isBlank, Bool.or_eq_true, beq_iff_eq] at blank
  rcases blank with ((rfl | rfl) | rfl) | rfl <;> rfl

/-- With steps enough, the part is found. -/
def Finds (t rest : Bytes) (n : Nat) : Part → Prop
  | .value v => value? n t = some (v, rest)
  | .member m => member? (value? n) n t = some (m, rest)
  | .elements vs => ∀ m u, n ≤ m → rest = (']' : UInt8) :: u →
      separated (value? m) ']' n t = some (vs, u)
  | .members ms => ∀ m u, n ≤ m → rest = ('\x7d' : UInt8) :: u →
      separated (member? (value? m) m) '\x7d' n t = some (ms, u)

theorem value?_array {vs : List Value} {n : Nat}
    (found : bracketed (value? n) ']' n t = some (vs, rest)) :
    value? (n + 1) ('[' :: t) = some (.array vs, rest) := by
  have noQuote : ('[' : UInt8) ≠ '"' := by decide
  simp [value?, noQuote, found]

theorem value?_object {ms : List (Bytes × Value)} {n : Nat}
    (found : bracketed (member? (value? n) n) '\x7d' n t = some (ms, rest)) :
    value? (n + 1) ('\x7b' :: t) = some (.object ms, rest) := by
  have noQuote : ('\x7b' : UInt8) ≠ '"' := by decide
  have noBracket : ('\x7b' : UInt8) ≠ '[' := by decide
  simp [value?, noQuote, noBracket, found]

theorem exists_step {n : Nat} (shorter : rest.length < t.length) (fuel : t.length ≤ n) :
    ∃ k, n = k + 1 :=
  Nat.exists_eq_succ_of_ne_zero (Nat.ne_of_gt ((Nat.zero_le _).trans_lt (shorter.trans_le fuel)))

theorem finds {part : Part} (h : Reads part t rest) (stops : Stops isNumberByte rest) {n : Nat}
    (fuel : t.length ≤ n + 1) : Finds t rest (n + 1) part := by
  induction h generalizing n with
  | null => rfl
  | @bool b => cases b <;> rfl
  | @number m e t rest read =>
    have found := numeral?_eq read stops
    obtain ⟨b, u, rfl, first⟩ := head_numeral read
    have other (c : UInt8) (noDigit : Ascii.isDigit c = false) (noMinus : c ≠ '-') : b ≠ c := by
      rcases first with isDigit | rfl
      · exact ne_of_isDigit isDigit noDigit
      · exact noMinus.symm
    have noWord := word?_eq_none (other 'n' rfl (by decide)) (other 't' rfl (by decide))
      (other 'f' rfl (by decide)) u
    simp [Finds, value?, other '"' rfl (by decide), other '[' rfl (by decide),
      other '\x7b' rfl (by decide), noWord, found]
  | string read => simp [Finds, value?, characters?_eq read rfl (Nat.le_of_succ_le_succ fuel)]
  | noElements empty => exact value?_array (bracketed_empty rfl empty)
  | array inside ih =>
    have fuel := Nat.le_of_succ_le_succ fuel
    obtain ⟨k, rfl⟩ := exists_step (length_reads inside) fuel
    obtain ⟨b, u, begins, other⟩ := head_elements inside
    have found := ih (stops_cons.2 rfl) fuel (k + 1) _ le_rfl rfl
    exact value?_array ((bracketed_items begins other).trans found)
  | noMembers empty => exact value?_object (bracketed_empty rfl empty)
  | object inside ih =>
    have fuel := Nat.le_of_succ_le_succ fuel
    obtain ⟨k, rfl⟩ := exists_step (length_reads inside) fuel
    obtain ⟨u, begins⟩ := head_members inside
    have found := ih (stops_cons.2 rfl) fuel (k + 1) _ le_rfl rfl
    exact value?_object ((bracketed_items begins (by decide)).trans found)
  | member named colon between read ih =>
    have taken := length_characters named
    have onward := length_space colon
    have onward' := length_space between
    simp only [List.length_cons] at taken onward fuel
    have colon := skipBlank_space colon (stops_cons.2 rfl)
    have between := skipBlank_space between (stops_value read)
    have found : value? (n + 1) _ = _ := ih stops (by omega)
    simp [Finds, member?, characters?_eq named rfl (by omega : _ ≤ n + 1), colon, between, found]
  | lastElement before read behind ih | lastMember before read behind ih =>
    rintro m u le rfl
    have inside := length_space before
    obtain ⟨k, rfl⟩ := exists_step (length_reads read) (n := m) (by omega)
    have found := ih (stops_space behind stops fun _ => isNumberByte_of_isBlank) (n := k) (by omega)
    refine separated_last ?_ rfl behind
    rw [skipBlank_space before (by first | exact stops_value read | exact stops_member read)]
    exact found
  | elements before read behind others ih more | members before read behind others ih more =>
    rintro m u le rfl
    have inside := length_space before
    have after := length_space behind
    have taken := length_reads read
    simp only [List.length_cons] at after
    obtain ⟨k, rfl⟩ := exists_step taken (n := m) (by omega)
    obtain ⟨j, rfl⟩ := exists_step (length_reads others) (n := n) (by omega)
    have found := ih (stops_space behind (stops_cons.2 rfl) fun _ => isNumberByte_of_isBlank)
      (n := k) (by omega)
    have more := more stops (n := j) (by omega) (k + 1) u (by omega) rfl
    refine separated_next ?_ behind (by decide) more
    rw [skipBlank_space before (by first | exact stops_value read | exact stops_member read)]
    exact found

end Decoder

open Decoder in
theorem decode_document {t : Bytes} {v : Value} (h : Document t v) : decode t = some v := by
  obtain ⟨t₁, t₂, before, read, behind⟩ := h
  have inside := length_space before
  obtain ⟨n, steps⟩ := exists_step (length_reads read) inside
  have stops := stops_space behind (stops_nil isNumberByte) fun _ => isNumberByte_of_isBlank
  have found : Decoder.value? (n + 1) t₁ = some (v, t₂) := finds read stops (by omega)
  have ends : skipBlank t₂ = [] := skipBlank_space behind (stops_nil isBlank)
  rw [decode, skipBlank_space before (stops_value read), steps]
  simp [found, ends]

example : decode " [\"\\u00e9\", -2.50E+1] " =
    some (.array [.string [0xC3, 0xA9], .number (-250) (-1)]) := by
  rfl

end CodeSmell.Json
