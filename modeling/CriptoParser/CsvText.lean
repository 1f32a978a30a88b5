import Mathlib.Data.List.Basic
import Mathlib.Tactic.Common

/-!
Tables of texts with commas between the fields and a line end behind each row. A field that holds
one of these characters or a quote stands in quotes, its own quotes doubled. A reader that goes
through the characters one by one gets every table back.
-/

set_option autoImplicit false

namespace CriptoParser.Csv

def special (c : Char) : Bool := c == ',' || c == '"' || c == '\r' || c == '\n'

def doubled : List Char → List Char
  | [] => []
  | c :: cs => if c = '"' then '"' :: '"' :: doubled cs else c :: doubled cs

def quoted (cs : List Char) : List Char := '"' :: (doubled cs ++ ['"'])

def field (cs : List Char) : List Char := if cs.any special then quoted cs else cs

def fields : List (List Char) → List Char
  | [[]] => quoted []
  | row => [','].intercalate (row.map field)

def document (rows : List (List (List Char))) : List Char :=
  rows.flatMap fun row => fields row ++ ['\r', '\n']

inductive Place where
  | startRecord | startField | inField | inQuoted | quoteInQuoted | afterReturn
  deriving DecidableEq, Repr

/-- What has been read: the rows, the fields of the row so far, and the field so far. -/
structure Reader where
  place : Place
  text : List Char
  row : List (List Char)
  rows : List (List (List Char))
  deriving DecidableEq, Repr

def Reader.save (r : Reader) (place : Place) : Reader := ⟨place, [], r.row ++ [r.text], r.rows⟩

def Reader.endRecord (r : Reader) : Reader := ⟨.startRecord, [], [], r.rows ++ [r.row]⟩

def Reader.add (r : Reader) (place : Place) (c : Char) : Reader :=
  { r with place := place, text := r.text ++ [c] }

def Reader.unquoted (r : Reader) (c : Char) : Reader :=
  if c = ',' then r.save .startField
  else if c = '\r' then r.save .afterReturn
  else if c = '\n' then (r.save .startRecord).endRecord
  else r.add .inField c

def Reader.startField (r : Reader) (c : Char) : Reader :=
  if c = '"' then { r with place := .inQuoted } else r.unquoted c

def Reader.startRecord (r : Reader) (c : Char) : Reader :=
  if c = '\r' then { r with place := .afterReturn }
  else if c = '\n' then r.endRecord
  else r.startField c

def Reader.step (r : Reader) (c : Char) : Reader :=
  match r.place with
  | .startRecord => r.startRecord c
  | .startField => r.startField c
  | .inField => r.unquoted c
  | .inQuoted => if c = '"' then { r with place := .quoteInQuoted } else r.add .inQuoted c
  | .quoteInQuoted => if c = '"' then r.add .inQuoted c else r.unquoted c
  | .afterReturn => if c = '\n' then r.endRecord else r.endRecord.startRecord c

def Reader.finish (r : Reader) : List (List (List Char)) :=
  match r.place with
  | .startRecord => r.rows
  | .afterReturn => r.endRecord.rows
  | _ => (r.save .startRecord).endRecord.rows

def Reader.start : Reader := ⟨.startRecord, [], [], []⟩

def read (cs : List Char) : List (List (List Char)) := (cs.foldl Reader.step Reader.start).finish

example : read "a,\"b\"\"c\",\n\r\nd\r\"\"".toList =
    [["a".toList, "b\"c".toList, []], [], ["d".toList], [[]]] := by decide

variable {row : List (List Char)} {rows : List (List (List Char))}

theorem read_doubled (cs text : List Char) :
    (doubled cs).foldl Reader.step ⟨.inQuoted, text, row, rows⟩ =
      ⟨.inQuoted, text ++ cs, row, rows⟩ := by
  induction cs generalizing text with
  | nil => simp [doubled]
  | cons c cs ih =>
    by_cases hc : c = '"'
    · subst hc
      simpa [doubled, Reader.step, Reader.add] using ih (text ++ ['"'])
    · simpa [doubled, Reader.step, Reader.add, hc] using ih (text ++ [c])

theorem read_quoted (cs : List Char) :
    (quoted cs).foldl Reader.step ⟨.startField, [], row, rows⟩ =
      ⟨.quoteInQuoted, cs, row, rows⟩ := by
  rw [quoted, List.foldl_cons, List.foldl_append]
  have hopen : Reader.step ⟨.startField, [], row, rows⟩ '"' = ⟨.inQuoted, [], row, rows⟩ := rfl
  rw [hopen, read_doubled]
  rfl

theorem unquoted_plain {c : Char} (hc : special c = false) (r : Reader) :
    r.unquoted c = r.add .inField c ∧ r.startField c = r.add .inField c := by
  simp only [special, Bool.or_eq_false_iff, beq_eq_false_iff_ne] at hc
  obtain ⟨⟨⟨hcomma, hquote⟩, hreturn⟩, hnewline⟩ := hc
  simp [Reader.startField, Reader.unquoted, hcomma, hquote, hreturn, hnewline]

theorem read_plain {cs : List Char} (h : ∀ c ∈ cs, special c = false) (text : List Char) :
    cs.foldl Reader.step ⟨.inField, text, row, rows⟩ = ⟨.inField, text ++ cs, row, rows⟩ := by
  induction cs generalizing text with
  | nil => simp
  | cons c cs ih =>
    have hstep : Reader.step ⟨.inField, text, row, rows⟩ c =
        ⟨.inField, text ++ [c], row, rows⟩ := (unquoted_plain (h c List.mem_cons_self) _).1
    rw [List.foldl_cons, hstep, ih fun d hd => h d (List.mem_cons_of_mem c hd)]
    simp

def Place.complete (p : Place) : Prop := p = .startField ∨ p = .inField ∨ p = .quoteInQuoted

theorem read_field (cs : List Char) :
    ∃ p : Place, p.complete ∧
      (field cs).foldl Reader.step ⟨.startField, [], row, rows⟩ = ⟨p, cs, row, rows⟩ := by
  unfold field
  split
  · exact ⟨.quoteInQuoted, .inr (.inr rfl), read_quoted cs⟩
  · rename_i hplain
    have hplain : ∀ c ∈ cs, special c = false := by simpa using hplain
    cases cs with
    | nil => exact ⟨.startField, .inl rfl, rfl⟩
    | cons c cs =>
      have hstep : Reader.step ⟨.startField, [], row, rows⟩ c = ⟨.inField, [c], row, rows⟩ :=
        (unquoted_plain (hplain c List.mem_cons_self) _).2
      refine ⟨.inField, .inr (.inl rfl), ?_⟩
      rw [List.foldl_cons, hstep, read_plain fun d hd => hplain d (List.mem_cons_of_mem c hd)]
      rfl

theorem step_comma {p : Place} (hp : p.complete) (text : List Char) :
    Reader.step ⟨p, text, row, rows⟩ ',' = ⟨.startField, [], row ++ [text], rows⟩ := by
  rcases hp with rfl | rfl | rfl <;> rfl

theorem read_lineEnd {p : Place} (hp : p.complete) (text : List Char) :
    ['\r', '\n'].foldl Reader.step ⟨p, text, row, rows⟩ =
      ⟨.startRecord, [], [], rows ++ [row ++ [text]]⟩ := by
  rcases hp with rfl | rfl | rfl <;> rfl

theorem read_fields (cs : List Char) (later : List (List Char)) :
    ([','].intercalate ((cs :: later).map field) ++ ['\r', '\n']).foldl Reader.step
        ⟨.startField, [], row, rows⟩ =
      ⟨.startRecord, [], [], rows ++ [row ++ cs :: later]⟩ := by
  induction later generalizing cs row with
  | nil =>
    obtain ⟨p, hp, hread⟩ := @read_field row rows cs
    simp only [List.map_cons, List.map_nil, List.intercalate_singleton]
    rw [List.foldl_append, hread, read_lineEnd hp]
  | cons next later ih =>
    obtain ⟨p, hp, hread⟩ := @read_field row rows cs
    rw [List.map_cons, List.intercalate_cons_of_ne_nil (by simp)]
    simp only [List.append_assoc, List.singleton_append, List.foldl_append, List.foldl_cons]
    rw [hread, step_comma hp]
    have hrest := @ih (row ++ [cs]) next
    rw [List.foldl_append] at hrest
    simpa using hrest

theorem fields_head {cs : List Char} {later : List (List Char)} (h : cs :: later ≠ [[]]) :
    ∃ c rest, [','].intercalate ((cs :: later).map field) = c :: rest ∧ c ≠ '\r' ∧ c ≠ '\n' := by
  have hfield : ∀ d ds, ∃ c rest, field (d :: ds) = c :: rest ∧ c ≠ '\r' ∧ c ≠ '\n' := by
    intro d ds
    unfold field
    split
    · exact ⟨'"', _, rfl, by decide, by decide⟩
    · rename_i hplain
      have hd : special d = false := by simp at hplain; exact hplain.1
      simp only [special, Bool.or_eq_false_iff, beq_eq_false_iff_ne] at hd
      exact ⟨d, ds, rfl, hd.1.2, hd.2⟩
  cases cs with
  | nil =>
    cases later with
    | nil => exact absurd rfl h
    | cons next later =>
      rw [List.map_cons, List.map_cons, List.intercalate_cons_cons]
      exact ⟨',', _, rfl, by decide, by decide⟩
  | cons d ds =>
    obtain ⟨c, rest, hc, hne⟩ := hfield d ds
    cases later with
    | nil => exact ⟨c, rest, by simpa using hc, hne⟩
    | cons next later =>
      rw [List.map_cons, List.map_cons, List.intercalate_cons_cons, hc]
      exact ⟨c, _, rfl, hne⟩

theorem read_row (cells : List (List Char)) :
    (fields cells ++ ['\r', '\n']).foldl Reader.step ⟨.startRecord, [], [], rows⟩ =
      ⟨.startRecord, [], [], rows ++ [cells]⟩ := by
  unfold fields
  split
  · rfl
  · rename_i hsingle
    cases cells with
    | nil => rfl
    | cons cs later =>
      have hread := @read_fields [] rows cs later
      obtain ⟨c, rest, htext, hreturn, hnewline⟩ := fields_head hsingle
      rw [htext, List.cons_append, List.foldl_cons] at hread ⊢
      have hfirst : Reader.step ⟨.startRecord, [], [], rows⟩ c =
          Reader.step ⟨.startField, [], [], rows⟩ c := by
        simp [Reader.step, Reader.startRecord, Reader.startField, Reader.unquoted, Reader.save,
          Reader.add, hreturn, hnewline]
      rw [hfirst]
      exact hread

theorem read_document (table : List (List (List Char))) : read (document table) = table := by
  have hrows : ∀ rows, (document table).foldl Reader.step ⟨.startRecord, [], [], rows⟩ =
      ⟨.startRecord, [], [], rows ++ table⟩ := by
    induction table with
    | nil => simp [document]
    | cons cells table ih =>
      intro rows
      rw [document, List.flatMap_cons, List.foldl_append, read_row]
      have htable := ih (rows ++ [cells])
      rw [document] at htable
      rw [htable, List.append_assoc, List.singleton_append]
  rw [read, Reader.start, hrows]
  rfl

end CriptoParser.Csv
