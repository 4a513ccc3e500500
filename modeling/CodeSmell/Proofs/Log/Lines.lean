import CodeSmell.Log
import CodeSmell.Proofs.Lists
import Mathlib.Tactic

/-!
Lines of a log, read back. A message and a key end at the first quote, a value at the first one that is
not escaped; what is read from the line of an event is the event, whatever its values are. The line
feeds before its end are those of the values, which are written as they are.
-/

namespace CodeSmell.LogEvent

variable {s t rest : Bytes}

def quote : UInt8 := '"'

def backslash : UInt8 := '\\'

def after? (word t : Bytes) : Option Bytes :=
  if word.isPrefixOf t then some (t.drop word.length) else none

def plain? : Bytes → Option (Bytes × Bytes)
  | [] => none
  | b :: rest =>
    if b = quote then some ([], rest)
    else (plain? rest).map fun (s, rest) => (b :: s, rest)

def escaped? : Bytes → Option (Bytes × Bytes)
  | [] => none
  | [b] => if b = quote then some ([], []) else none
  | b :: c :: rest =>
    if b = quote then some ([], c :: rest)
    else if b = backslash then (escaped? rest).map fun (s, rest) => (c :: s, rest)
    else (escaped? (c :: rest)).map fun (s, rest) => (b :: s, rest)

def field? (t : Bytes) : Option ((Bytes × Bytes) × Bytes) := do
  let t ← after? "\"" t
  let (key, t) ← plain? t
  let t ← after? ": \"" t
  let (value, t) ← escaped? t
  return ((key, value), t)

def someFields? (bound : Nat) (t : Bytes) : Option (List (Bytes × Bytes) × Bytes) :=
  match bound with
  | 0 => none
  | bound + 1 => do
    let (field, t) ← field? t
    match after? ", " t with
    | some t => do
      let (fields, t) ← someFields? bound t
      return (field :: fields, t)
    | none => return ([field], t)

def fields? (t : Bytes) : Option (List (Bytes × Bytes) × Bytes) := do
  let t ← after? "\x7b" t
  let (fields, t) := (someFields? t.length t).getD ([], t)
  let t ← after? "\x7d" t
  return (fields, t)

def read? (t : Bytes) : Option LogEvent := do
  let t ← after? "[" t
  let t ← after? "] level=" (t.dropWhile (· ≠ ']'.toUInt8))
  let level ← LogLevel.ofName? (t.takeWhile (· ≠ ' '.toUInt8))
  let t ← after? " message=\"" (t.dropWhile (· ≠ ' '.toUInt8))
  let (message, t) ← plain? t
  let t ← after? " fields=" t
  let (fields, t) ← fields? t
  if t = [Ascii.lineFeed] then some { level, message, fields } else none

theorem after?_append (word t : Bytes) : after? word (word ++ t) = some t := by
  rw [after?, if_pos (List.isPrefixOf_iff_prefix.2 (List.prefix_append word t)), List.drop_left]

theorem plain?_append (h : quote ∉ s) (rest : Bytes) :
    plain? (s ++ quote :: rest) = some (s, rest) := by
  induction s with
  | nil => rfl
  | cons b s ih =>
    rw [List.mem_cons, not_or] at h
    rw [List.cons_append, plain?, if_neg (Ne.symm h.1), ih h.2]
    rfl

theorem escaped?_backslash (c : UInt8) (t : Bytes) :
    escaped? (backslash :: c :: t) = (escaped? t).map fun (s, rest) => (c :: s, rest) := by
  rw [escaped?, if_neg (by decide), if_pos rfl]

theorem escaped?_cons {b : UInt8} (noQuote : b ≠ quote) (noBackslash : b ≠ backslash) (t : Bytes) :
    escaped? (b :: t) = (escaped? t).map fun (s, rest) => (b :: s, rest) := by
  cases t with
  | nil => simp [escaped?, noQuote]
  | cons c t => rw [escaped?, if_neg noQuote, if_neg noBackslash]

theorem escape_cons (b : UInt8) (s : Bytes) : escape (b :: s) =
    (if b = quote ∨ b = backslash then [backslash, b] else [b]) ++ escape s := by
  rw [escape, List.flatMap_cons, ← escape]
  simp only [Bool.or_eq_true, beq_iff_eq]
  rfl

theorem escaped?_escape (value rest : Bytes) :
    escaped? (escape value ++ quote :: rest) = some (value, rest) := by
  induction value with
  | nil => cases rest <;> rfl
  | cons b value ih =>
    rw [escape_cons]
    split_ifs with special
    · rw [List.append_assoc, List.cons_append, List.singleton_append, escaped?_backslash, ih]
      rfl
    · rw [not_or] at special
      rw [List.append_assoc, List.singleton_append, escaped?_cons special.1 special.2, ih]
      rfl

theorem field?_fieldText {field : Bytes × Bytes} (h : quote ∉ field.1) (rest : Bytes) :
    field? (fieldText field ++ rest) = some (field, rest) := by
  have parts : fieldText field ++ rest =
      "\"" ++ (field.1 ++ quote :: (": \"" ++ (escape field.2 ++ quote :: rest))) := by
    simp only [fieldText, List.append_assoc]
    rfl
  simp only [field?, parts, after?_append, plain?_append h, escaped?_escape, bind, Option.bind, pure]

theorem someFields?_join {fields : List (Bytes × Bytes)} (keys : ∀ field ∈ fields, quote ∉ field.1)
    (nonempty : fields ≠ []) {bound : Nat} (enough : fields.length ≤ bound)
    (stops : after? ", " rest = none) :
    someFields? bound (Bytes.join ", " (fields.map fieldText) ++ rest) = some (fields, rest) := by
  induction fields generalizing bound with
  | nil => exact absurd rfl nonempty
  | cons field fields ih =>
    rw [List.forall_mem_cons] at keys
    obtain ⟨bound, rfl⟩ := Nat.exists_eq_add_one_of_ne_zero (Nat.ne_zero_of_lt enough)
    cases fields with
    | nil =>
      rw [List.map_singleton, Bytes.join_singleton, someFields?]
      simp only [field?_fieldText keys.1, stops, bind, Option.bind, pure]
    | cons next fields =>
      have more := ih keys.2 (List.cons_ne_nil _ _) (Nat.le_of_succ_le_succ enough)
      rw [List.map_cons, List.map_cons, Bytes.join_cons_cons, ← List.map_cons, List.append_assoc,
        List.append_assoc, someFields?]
      simp only [field?_fieldText keys.1, after?_append, more, bind, Option.bind, pure]

theorem length_le_join (fields : List (Bytes × Bytes)) :
    fields.length ≤ (Bytes.join ", " (fields.map fieldText)).length := by
  have pos (field : Bytes × Bytes) : 0 < (fieldText field).length := Nat.succ_pos _
  induction fields with
  | nil => exact Nat.le_refl 0
  | cons field fields ih =>
    cases fields with
    | nil =>
      rw [List.map_singleton, Bytes.join_singleton]
      exact pos field
    | cons next fields =>
      have first := pos field
      rw [List.map_cons, List.map_cons, Bytes.join_cons_cons, ← List.map_cons, List.length_append,
        List.length_append, List.length_cons]
      omega

theorem fields?_fieldsText {fields : List (Bytes × Bytes)}
    (keys : ∀ field ∈ fields, quote ∉ field.1) (rest : Bytes) :
    fields? (fieldsText fields ++ rest) = some (fields, rest) := by
  have parts : fieldsText fields ++ rest =
      "\x7b" ++ (Bytes.join ", " (fields.map fieldText) ++ ("\x7d" ++ rest)) := by
    simp only [fieldsText, List.append_assoc]
  cases fields with
  | nil => rfl
  | cons field fields =>
    have enough : (field :: fields).length ≤
        (Bytes.join ", " ((field :: fields).map fieldText) ++ ("\x7d" ++ rest)).length :=
      (length_le_join _).trans (List.length_append ▸ Nat.le_add_right _ _)
    have stops : after? ", " ("\x7d" ++ rest) = none := rfl
    have read := someFields?_join keys (List.cons_ne_nil _ _) enough stops
    rw [parts, fields?]
    simp only [after?_append, read, Option.getD_some, bind, Option.bind, pure]

structure Plain (e : LogEvent) : Prop where
  message : quote ∉ e.message ∧ Ascii.lineFeed ∉ e.message
  keys : ∀ field ∈ e.fields, quote ∉ field.1 ∧ Ascii.lineFeed ∉ field.1

def isTimeByte (b : UInt8) : Bool := Ascii.isDigit b || b == '-' || b == '+' || b == ':' || b == 'T'

variable {time : Bytes} {e : LogEvent}

theorem read?_line (isTime : ∀ b ∈ time, isTimeByte b = true) (plain : e.Plain) :
    read? (e.line time) = some e := by
  have parts : e.line time = "[" ++ (time ++ ("] level=" ++ (e.level.name ++ (" message=\"" ++
      (e.message ++ quote :: (" fields=" ++ (fieldsText e.fields ++ [Ascii.lineFeed]))))))) := by
    simp only [line, List.append_assoc]
    rfl
  have behindTime (rest : Bytes) : (time ++ ("] level=" ++ rest)).dropWhile (· ≠ ']'.toUInt8) =
      "] level=" ++ rest := by
    have noBracket : ∀ b ∈ time, b ≠ ']'.toUInt8 := fun b mem bracket =>
      absurd (isTime b mem) (bracket ▸ by decide)
    exact (List.dropWhile_append_of_pos fun b mem => by simp [noBracket b mem]).trans rfl
  have level (rest : Bytes) :
      (e.level.name ++ (" message=\"" ++ rest)).takeWhile (· ≠ ' '.toUInt8) = e.level.name ∧
      (e.level.name ++ (" message=\"" ++ rest)).dropWhile (· ≠ ' '.toUInt8) =
        " message=\"" ++ rest := by
    cases e.level <;> exact ⟨rfl, rfl⟩
  have named : LogLevel.ofName? e.level.name = some e.level := by cases e.level <;> rfl
  rw [parts]
  simp only [read?, after?_append, behindTime, (level _).1, (level _).2, named,
    plain?_append plain.message.1, fields?_fieldsText fun field mem => (plain.keys field mem).1, bind,
    Option.bind]
  rfl

theorem count_join {b : UInt8} {sep : Bytes} (h : b ∉ sep) (items : List Bytes) :
    (Bytes.join sep items).count b = (items.map (List.count b)).sum := by
  induction items with
  | nil => rfl
  | cons item items ih =>
    cases items with
    | nil => rw [Bytes.join_singleton, List.map_singleton, List.sum_singleton]
    | cons next items =>
      rw [Bytes.join_cons_cons, List.count_append, List.count_append, ih,
        List.count_eq_zero_of_not_mem h, Nat.add_zero, List.map_cons (l := next :: items),
        List.sum_cons]

theorem count_escape (value : Bytes) :
    (escape value).count Ascii.lineFeed = value.count Ascii.lineFeed := by
  induction value with
  | nil => rfl
  | cons b value ih =>
    have head :
        List.count Ascii.lineFeed (if b = quote ∨ b = backslash then [backslash, b] else [b]) =
          List.count Ascii.lineFeed [b] := by
      split_ifs
      · rw [List.count_cons_of_ne (by decide)]
      · rfl
    rw [escape_cons, List.count_append, head, ih, ← List.count_append, List.singleton_append]

theorem count_fieldText {field : Bytes × Bytes} (h : Ascii.lineFeed ∉ field.1) :
    (fieldText field).count Ascii.lineFeed = field.2.count Ascii.lineFeed := by
  have opening : List.count Ascii.lineFeed "\"" = 0 := rfl
  have between : List.count Ascii.lineFeed "\": \"" = 0 := rfl
  simp only [fieldText, List.count_append, opening, between, List.count_eq_zero_of_not_mem h,
    count_escape, Nat.zero_add, Nat.add_zero]

theorem count_fieldsText {fields : List (Bytes × Bytes)}
    (h : ∀ field ∈ fields, Ascii.lineFeed ∉ field.1) : (fieldsText fields).count Ascii.lineFeed =
      (fields.map fun field => field.2.count Ascii.lineFeed).sum := by
  have opening : List.count Ascii.lineFeed "\x7b" = 0 := rfl
  have closing : List.count Ascii.lineFeed "\x7d" = 0 := rfl
  rw [fieldsText, List.count_append, List.count_append, opening, closing, Nat.zero_add, Nat.add_zero,
    count_join (by decide), List.map_map]
  exact congrArg List.sum (List.map_congr_left fun field mem => count_fieldText (h field mem))

def body (time : Bytes) (e : LogEvent) : Bytes :=
  "[" ++ time ++ "] level=" ++ e.level.name ++ " message=\"" ++ e.message ++ "\" fields=" ++
    fieldsText e.fields

theorem count_body (isTime : ∀ b ∈ time, isTimeByte b = true) (plain : e.Plain) :
    (body time e).count Ascii.lineFeed =
      (e.fields.map fun field => field.2.count Ascii.lineFeed).sum := by
  have opening : List.count Ascii.lineFeed "[" = 0 := rfl
  have noFeed : time.count Ascii.lineFeed = 0 :=
    List.count_eq_zero_of_not_mem fun mem => absurd (isTime _ mem) (by decide)
  have beforeLevel : List.count Ascii.lineFeed "] level=" = 0 := rfl
  have level : e.level.name.count Ascii.lineFeed = 0 := by cases e.level <;> rfl
  have beforeMessage : List.count Ascii.lineFeed " message=\"" = 0 := rfl
  have beforeFields : List.count Ascii.lineFeed "\" fields=" = 0 := rfl
  simp only [body, List.count_append, opening, noFeed, beforeLevel, level, beforeMessage,
    List.count_eq_zero_of_not_mem plain.message.2, beforeFields, Nat.zero_add,
    count_fieldsText fun field mem => (plain.keys field mem).2]

/-- A logger writes nothing of an event whose level is disabled. What it writes of another one ends in
a line feed and reads back as the event. It is one line just if no value has a line feed: each that a
value has is written as it is, and there are no others. -/
theorem written_event (limit : LogLevel) (time : Bytes) (e : LogEvent)
    (isTime : ∀ b ∈ time, isTimeByte b = true) (plain : e.Plain) :
    (limit.isEnabled e.level = false → (Logger.upTo limit).written time e = []) ∧
    (limit.isEnabled e.level = true →
      ∃ body, (Logger.upTo limit).written time e = body ++ [Ascii.lineFeed] ∧
        body.count Ascii.lineFeed =
          (e.fields.map fun field => field.2.count Ascii.lineFeed).sum ∧
        (Ascii.lineFeed ∉ body ↔ ∀ field ∈ e.fields, Ascii.lineFeed ∉ field.2) ∧
        read? ((Logger.upTo limit).written time e) = some e) := by
  constructor
  · intro disabled
    simp only [Logger.written, disabled, Bool.false_eq_true, ↓reduceIte]
  · intro enabled
    have count := count_body isTime plain
    have written : (Logger.upTo limit).written time e = e.line time := by
      simp only [Logger.written, enabled, ↓reduceIte]
    refine ⟨body time e, written, count, ?_, written ▸ read?_line isTime plain⟩
    rw [← List.count_eq_zero, count, List.sum_eq_zero_iff, List.forall_mem_map]
    simp only [List.count_eq_zero]

theorem written_event_marks :
    let time : Bytes := "2024-05-06T07:08:09+0200"
    let e : LogEvent :=
      { level := .info, message := "a\\", fields := [("k", "\"\x7d, \\"), ("", "x\ny"), ("k", "")] }
    (∀ b ∈ time, isTimeByte b = true) ∧ e.Plain ∧ LogLevel.warn.isEnabled e.level = false ∧
      (Logger.upTo .warn).written time e = [] ∧ LogLevel.debug.isEnabled e.level = true ∧
      read? ((Logger.upTo .debug).written time e) = some e := by
  intro time e
  have isTime : ∀ b ∈ time, isTimeByte b = true := List.all_eq_true.1 rfl
  have plain : e.Plain := ⟨by decide, by decide⟩
  obtain ⟨-, -, -, -, read⟩ := (written_event .debug time e isTime plain).2 rfl
  exact ⟨isTime, plain, rfl, (written_event .warn time e isTime plain).1 rfl, rfl, read⟩

theorem line_feed_in_value :
    let e : LogEvent := { level := .error, message := "m", fields := [("k", "a\nb")] }
    e.Plain ∧ LogLevel.warn.isEnabled e.level = true ∧
      (Logger.upTo .warn).written "2024-05-06T07:08:09+0200" e =
        "[2024-05-06T07:08:09+0200] level=error message=\"m\" fields=\x7b\"k\": \"a\nb\"\x7d\n" ∧
      ¬∃ body,
        (Logger.upTo .warn).written "2024-05-06T07:08:09+0200" e = body ++ [Ascii.lineFeed] ∧
          Ascii.lineFeed ∉ body := by
  refine ⟨⟨by decide, by decide⟩, rfl, rfl, ?_⟩
  rintro ⟨text, written, oneLine⟩
  obtain rfl : body _ _ = text := List.append_cancel_right written
  exact oneLine (by decide)

end CodeSmell.LogEvent
