import Munch.Json.Printer
import Munch.Proofs.Json.Literal

/-!
# Written values are read back

`Written` are the values that are made of numbers, texts and nulls by arrays and
objects. The reader finds each of them in front of whatever follows it, provided that
what follows does not continue a number (`Written.reads`), and two rounds for each
byte of its text are enough. So a text that was written is read as the value it was
written from (`parse?_render`).
-/

namespace Munch.Json

variable {j : Json} {js : List Json} {b : UInt8} {bs : List UInt8} {rounds : Nat}
  {fields : List (String × Json)}

/-- The values that are made of numbers, texts and nulls. -/
inductive Written : Json → Prop
  | null : Written null
  | nat (n : Nat) : Written (nat n)
  | text (s : String) : Written (text s)
  | array {js : List Json} : (∀ j ∈ js, Written j) → Written (array js)
  | ofFields {fields : List (String × Json)} : (∀ f ∈ fields, Written f.2) →
    Written (ofFields fields)

/-! ## Shape of the text -/

theorem skipBlanks_cons (h : isBlank b = false) (bs : List UInt8) :
    skipBlanks (b :: bs) = b :: bs :=
  List.dropWhile_cons_of_neg (by rw [h]; exact Bool.false_ne_true)

theorem not_isBlank_of_isDigit (h : isDigit b = true) : isBlank b = false := by
  rw [← Bool.not_eq_true]
  intro hblank
  simp only [isBlank, Bool.or_eq_true, decide_eq_true_iff] at hblank
  rcases hblank with ((rfl | rfl) | rfl) | rfl <;> exact absurd h (by decide)

/-- A value begins with a byte that is no blank and closes no array. -/
theorem Written.head (h : Written j) (rest : List UInt8) :
    ∃ b bs, j.renderOnto rest = b :: bs ∧ isBlank b = false ∧ b ≠ 93 := by
  cases h with
  | null => exact ⟨_, _, rfl, by decide⟩
  | nat n =>
    obtain ⟨b, bs, heq, hb⟩ := head_digits_append n rest
    refine ⟨b, bs, heq, not_isBlank_of_isDigit hb, ?_⟩
    rintro rfl
    exact absurd hb (by decide)
  | text s => exact ⟨_, _, rfl, by decide⟩
  | @array js _ => cases js with
    | nil => exact ⟨_, _, rfl, by decide⟩
    | cons j js => exact ⟨_, _, rfl, by decide⟩
  | @ofFields fields _ => cases fields with
    | nil => exact ⟨_, _, rfl, by decide⟩
    | cons f fields => exact ⟨_, _, rfl, by decide⟩

theorem length_lt_elementsOnto
    (h : ∀ j ∈ js, ∀ rest : List UInt8, rest.length < (j.renderOnto rest).length)
    (rest : List UInt8) : rest.length < (elementsOnto js rest).length := by
  induction js with
  | nil => exact Nat.lt_succ_self _
  | cons j js ih =>
    rw [List.forall_mem_cons] at h
    have hhead := h.1 (elementsOnto js rest)
    have htail := ih h.2
    rw [elementsOnto, List.length_cons]
    omega

/-- Fields with their keys as they are written. -/
def escaped (fields : List (String × Json)) : List (List UInt8 × Json) :=
  fields.map fun f => (escape f.1, f.2)

theorem ofFields_eq_object (fields : List (String × Json)) :
    ofFields fields = object (escaped fields) := rfl

theorem escaped_cons (f : String × Json) (fields : List (String × Json)) :
    escaped (f :: fields) = (escape f.1, f.2) :: escaped fields := rfl

theorem length_lt_fieldsOnto
    (h : ∀ f ∈ fields, ∀ rest : List UInt8, rest.length < (f.2.renderOnto rest).length)
    (rest : List UInt8) : rest.length < (fieldsOnto (escaped fields) rest).length := by
  induction fields with
  | nil => exact Nat.lt_succ_self _
  | cons f fields ih =>
    rw [List.forall_mem_cons] at h
    have hhead := h.1 (fieldsOnto (escaped fields) rest)
    have htail := ih h.2
    simp only [escaped_cons, fieldsOnto, List.length_cons, List.length_append]
    omega

/-- Each value takes at least one byte. -/
theorem Written.length_lt (h : Written j) (rest : List UInt8) :
    rest.length < (j.renderOnto rest).length := by
  induction h generalizing rest with
  | null =>
    simp only [renderOnto, List.length_cons]
    omega
  | nat n =>
    have hpos := List.length_pos_of_ne_nil (digits_ne_nil n)
    rw [nat_eq_number, renderOnto, List.length_append]
    omega
  | text s =>
    simp only [Json.text, renderOnto, List.length_cons, List.length_append]
    omega
  | @array js _ ih =>
    -- the text of an array is a bracket and that of its elements, but for a comma
    have hlt := length_lt_elementsOnto ih rest
    cases js with
    | nil =>
      rw [renderOnto, List.length_cons]
      exact Nat.lt_succ_of_lt hlt
    | cons j js =>
      rw [renderOnto, List.length_cons]
      exact hlt
  | @ofFields fields _ ih =>
    have hlt := length_lt_fieldsOnto ih rest
    cases fields with
    | nil =>
      rw [ofFields_eq_object, escaped, List.map_nil, renderOnto, List.length_cons]
      exact Nat.lt_succ_of_lt hlt
    | cons f fields =>
      rw [ofFields_eq_object, escaped_cons, renderOnto, List.length_cons]
      exact hlt

/-! ## One value -/

/-- The reader finds the value in front of what follows, in two rounds for each byte. -/
def Reads (j : Json) : Prop :=
  ∀ rounds rest, Ends rest → 2 * (j.renderOnto rest).length ≤ rounds + 1 + 2 * rest.length →
    value? (rounds + 1) (j.renderOnto rest) = some (j, rest)

theorem reads_null : Reads null := by
  intro rounds rest _ _
  rw [renderOnto, value?]
  rfl

theorem reads_text (s : String) : Reads (text s) := by
  intro rounds rest _ _
  rw [text, renderOnto, value?, skipBlanks_cons (by decide)]
  simp only [body?_escape, Option.map_some]

/-- What begins with a digit is read as a number. -/
theorem value?_of_isDigit (hb : isDigit b = true) (rounds : Nat) (bs : List UInt8) :
    value? (rounds + 1) (b :: bs) =
      (number? (b :: bs)).map fun (literal, rest) => (number literal, rest) := by
  have hne : ∀ d, isDigit d = false → ∀ rest, b :: bs ≠ d :: rest := by
    intro d hd rest heq
    rw [(List.cons.inj heq).1, hd] at hb
    cases hb
  rw [value?, skipBlanks_cons (not_isBlank_of_isDigit hb)]
  -- a digit opens no string, array or object, and no word
  split
  · exact absurd ‹_› (hne 34 (by decide) _)
  · exact absurd ‹_› (hne 91 (by decide) _)
  · exact absurd ‹_› (hne 123 (by decide) _)
  · unfold atom?
    split
    · exact absurd ‹_› (hne 110 (by decide) _)
    · exact absurd ‹_› (hne 116 (by decide) _)
    · exact absurd ‹_› (hne 102 (by decide) _)
    · rfl

theorem reads_nat (n : Nat) : Reads (nat n) := by
  intro rounds rest hrest _
  have hnumber := number?_digits n hrest
  obtain ⟨b, bs, heq, hb⟩ := head_digits_append n rest
  rw [heq] at hnumber
  rw [nat_eq_number, renderOnto, heq, value?_of_isDigit hb, hnumber, Option.map_some]

/-! ## Arrays -/

/-- A value inside of another leaves enough rounds for what stands behind it. -/
theorem Written.value?_part (h : Written j) (hreads : Reads j) {tail rest : List UInt8}
    (hends : Ends tail) (htail : rest.length < tail.length)
    (hrounds : 2 * (j.renderOnto tail).length ≤ rounds + 2 * rest.length) :
    ∃ r, rounds = r + 1 ∧ value? r (j.renderOnto tail) = some (j, tail) ∧
      2 * tail.length ≤ r + 2 * rest.length := by
  have hlt := h.length_lt tail
  obtain ⟨r, rfl⟩ : ∃ r, rounds = r + 1 + 1 := ⟨rounds - 2, by omega⟩
  exact ⟨r + 1, rfl, hreads r tail hends (by omega), by omega⟩

theorem ends_elementsOnto (js : List Json) (rest : List UInt8) : Ends (elementsOnto js rest) := by
  cases js with
  | nil => exact ends_cons (by decide) _
  | cons j js => exact ends_cons (by decide) _

/-- The elements are read one by one up to the closing bracket. -/
theorem elementsFrom?_of_reads {rest : List UInt8} (h : ∀ j' ∈ j :: js, Written j' ∧ Reads j')
    (hrounds : 2 * (j.renderOnto (elementsOnto js rest)).length ≤ rounds + 2 * rest.length) :
    elementsFrom? rounds (j.renderOnto (elementsOnto js rest)) = some (j :: js, rest) := by
  -- on the elements behind the first: they are read with one round less
  induction js generalizing j rounds with
  | nil =>
    obtain ⟨hj, hjs⟩ := List.forall_mem_cons.mp h
    obtain ⟨r, rfl, hvalue, _⟩ := hj.1.value?_part hj.2 (ends_elementsOnto [] rest)
      (length_lt_elementsOnto (fun j hj => (hjs j hj).1.length_lt) rest) hrounds
    rw [elementsFrom?, hvalue]
    rfl
  | cons j' js ih =>
    obtain ⟨hj, hjs⟩ := List.forall_mem_cons.mp h
    obtain ⟨r, rfl, hvalue, hmore⟩ := hj.1.value?_part hj.2 (ends_elementsOnto (j' :: js) rest)
      (length_lt_elementsOnto (fun j hj => (hjs j hj).1.length_lt) rest) hrounds
    rw [elementsOnto, List.length_cons] at hmore
    have htail : elementsFrom? r (j'.renderOnto (elementsOnto js rest)) = some (j' :: js, rest) :=
      ih hjs (by omega)
    rw [elementsOnto] at hvalue ⊢
    rw [elementsFrom?, hvalue]
    simp only [Option.bind_eq_bind, Option.bind_some, skipBlanks_cons (b := 44) (by decide), htail]

/-- An array with elements is read as the list of them. -/
theorem value?_array (hb : isBlank b = false) (hne : b ≠ 93) (rounds : Nat) (bs : List UInt8) :
    value? (rounds + 1) (91 :: b :: bs) =
      (elementsFrom? rounds (b :: bs)).map fun (js, rest) => (array js, rest) := by
  rw [value?, skipBlanks_cons (by decide)]
  simp only [skipBlanks_cons hb]
  split
  · rename_i heq
    exact absurd (List.cons.inj heq).1 hne
  · rfl

theorem reads_array (h : ∀ j ∈ js, Written j ∧ Reads j) : Reads (array js) := by
  intro rounds rest _ hrounds
  cases js with
  | nil =>
    rw [renderOnto, value?]
    rfl
  | cons j js =>
    rw [renderOnto, List.length_cons] at hrounds
    have helements : elementsFrom? rounds (j.renderOnto (elementsOnto js rest)) =
        some (j :: js, rest) := elementsFrom?_of_reads h (by omega)
    obtain ⟨b, bs, heq, hblank, hne⟩ := (h j List.mem_cons_self).1.head (elementsOnto js rest)
    rw [heq] at helements
    rw [renderOnto, heq, value?_array hblank hne, helements, Option.map_some]

/-! ## Objects -/

theorem ends_fieldsOnto (fields : List (List UInt8 × Json)) (rest : List UInt8) :
    Ends (fieldsOnto fields rest) := by
  cases fields with
  | nil => exact ends_cons (by decide) _
  | cons f fields => exact ends_cons (by decide) _

/-- The fields are read one by one up to the closing brace. -/
theorem fieldsFrom?_of_reads {key : String} {rest : List UInt8} (hj : Written j ∧ Reads j)
    (h : ∀ f ∈ fields, Written f.2 ∧ Reads f.2)
    (hrounds : 2 * (j.renderOnto (fieldsOnto (escaped fields) rest)).length ≤
      rounds + 2 * rest.length) :
    fieldsFrom? rounds
        (34 :: (escape key ++ 34 :: 58 :: j.renderOnto (fieldsOnto (escaped fields) rest))) =
      some ((escape key, j) :: escaped fields, rest) := by
  induction fields generalizing key j rounds with
  | nil =>
    obtain ⟨r, rfl, hvalue, _⟩ := hj.1.value?_part hj.2 (ends_fieldsOnto (escaped []) rest)
      (length_lt_fieldsOnto (fun f hf => (h f hf).1.length_lt) rest) hrounds
    rw [fieldsFrom?, skipBlanks_cons (by decide)]
    simp only [body?_escape, Option.bind_eq_bind, Option.bind_some,
      skipBlanks_cons (b := 58) (by decide), hvalue]
    rfl
  | cons f fields ih =>
    obtain ⟨hf, hfields⟩ := List.forall_mem_cons.mp h
    obtain ⟨r, rfl, hvalue, hmore⟩ := hj.1.value?_part hj.2
      (ends_fieldsOnto (escaped (f :: fields)) rest)
      (length_lt_fieldsOnto (fun f hf => (h f hf).1.length_lt) rest) hrounds
    simp only [escaped_cons, fieldsOnto, List.length_cons, List.length_append] at hmore
    have htail : fieldsFrom? r (34 :: (escape f.1 ++ 34 :: 58 ::
        f.2.renderOnto (fieldsOnto (escaped fields) rest))) =
          some ((escape f.1, f.2) :: escaped fields, rest) :=
      ih hf hfields (by omega)
    rw [escaped_cons, fieldsOnto] at hvalue ⊢
    rw [fieldsFrom?, skipBlanks_cons (by decide)]
    simp only [body?_escape, Option.bind_eq_bind, Option.bind_some,
      skipBlanks_cons (b := 58) (by decide), hvalue, skipBlanks_cons (b := 44) (by decide), htail]

/-- An object with fields is read as the list of them. -/
theorem value?_object (rounds : Nat) (bs : List UInt8) :
    value? (rounds + 1) (123 :: 34 :: bs) =
      (fieldsFrom? rounds (34 :: bs)).map fun (fields, rest) => (object fields, rest) := by
  rw [value?, skipBlanks_cons (by decide)]
  simp only [skipBlanks_cons (b := 34) (by decide)]
  rfl

theorem reads_ofFields (h : ∀ f ∈ fields, Written f.2 ∧ Reads f.2) : Reads (ofFields fields) := by
  intro rounds rest _ hrounds
  rw [ofFields_eq_object] at hrounds ⊢
  cases fields with
  | nil =>
    rw [escaped, List.map_nil, renderOnto, value?]
    rfl
  | cons f fields =>
    obtain ⟨hf, hfields⟩ := List.forall_mem_cons.mp h
    simp only [escaped_cons, renderOnto, List.length_cons, List.length_append] at hrounds
    have hfrom : fieldsFrom? rounds (34 :: (escape f.1 ++ 34 :: 58 ::
        f.2.renderOnto (fieldsOnto (escaped fields) rest))) =
          some ((escape f.1, f.2) :: escaped fields, rest) :=
      fieldsFrom?_of_reads hf hfields (by omega)
    rw [escaped_cons, renderOnto, value?_object, hfrom, Option.map_some]

/-! ## Whole texts -/

theorem Written.reads (h : Written j) : Reads j := by
  induction h with
  | null => exact reads_null
  | nat n => exact reads_nat n
  | text s => exact reads_text s
  | array hjs ih => exact reads_array fun j hj => ⟨hjs j hj, ih j hj⟩
  | ofFields hfields ih => exact reads_ofFields fun f hf => ⟨hfields f hf, ih f hf⟩

/-- A value is read back from its text. -/
theorem Written.parse?_render (h : Written j) : parse? j.render = some j := by
  have hvalue : value? (2 * j.render.length + 2) j.render = some (j, []) :=
    h.reads (2 * j.render.length + 1) [] ends_nil (by rw [← render]; omega)
  rw [parse?, hvalue]
  rfl

end Munch.Json
