import Munch.Decimal
import Munch.Scan.LongestMatch
import Munch.Scan.Token
import Munch.Scan.Trivia

/-!
# Scanning

A `Scanner` is a place in a source: the text that is left, the line it starts
on, and what the scan owes. `Scanner.next` yields the next item of the scan with
a table and the place behind it; each call that yields an item makes the scanner
lighter (`weight_next_lt`), so a scan ends. `Dfa.tokenize` runs a whole scan.
-/

namespace Munch

/-- Number of places that decimal literals are written with. -/
def decimalPlaces : Nat := 5

/-- The item that a matched lexeme yields, and the token that is owed after it.

A decimal literal is written with a fixed number of places; if it is no number,
that is reported and the token follows as it stands in the source. A run of
letters and digits is a name if it is all lower case, a whole number if it is
all digits, and otherwise reported and dropped. All other kinds stand for
themselves. -/
def classify (kind : String) (lexeme : List Char) (line : Nat) : Item × Option Token :=
  let text := String.ofList lexeme
  if kind = Kind.decimalLiteral then
    match Decimal.round? lexeme decimalPlaces with
    | some rounded => (.token ⟨kind, String.ofList rounded, line⟩, none)
    | none => (.diagnostic (.invalidDecimalLiteral line text), some ⟨kind, text, line⟩)
  else if kind = Kind.alphanum then
    if lexeme.all Char.isLower then (.token ⟨Kind.identifier, text, line⟩, none)
    else if lexeme.all Char.isDigit then (.token ⟨Kind.intLiteral, text, line⟩, none)
    else (.diagnostic (.invalidIdentifier line text), none)
  else (.token ⟨kind, text, line⟩, none)

/-- A place in a source. -/
structure Scanner where
  /-- The text that is left. -/
  rest : List Char
  /-- Line on which it starts. -/
  line : Nat := 1
  /-- A token that is owed before the scan goes on. -/
  pending : Option Token := none
  /-- Whether nothing but an owed token will come. -/
  halted : Bool := false
deriving DecidableEq, Repr

namespace Scanner

/-- The beginning of a source. -/
def ofText (source : String) : Scanner where
  rest := source.toList

/-- Steps over the trivia that the text begins with. -/
def skipTrivia (s : Scanner) : Scanner :=
  let after := Trivia.skip s.line s.rest
  { s with line := after.1, rest := after.2 }

/-- Reads one item from a text that does not begin with trivia. -/
def read (d : Dfa) (s : Scanner) : Option Item × Scanner :=
  match s.rest with
  | [] => (none, { s with halted := true })
  | c :: cs =>
    if Trivia.opensBlock s.rest then
      (some (.diagnostic (.unterminatedComment s.line)), { s with halted := true })
    else
      match d.munch s.rest with
      | none => (some (.diagnostic (.unrecognizedSymbol s.line c)), { s with rest := cs })
      | some (k, tag) =>
        let found := classify tag.token (s.rest.take k) s.line
        (some found.1, { s with rest := s.rest.drop k, pending := found.2 })

/-- The next item, if there is one, and the place behind it. An owed token comes
first; after the end, or after an unterminated comment, nothing comes. -/
def next (d : Dfa) (s : Scanner) : Option Item × Scanner :=
  match s.pending with
  | some t => (some (.token t), { s with pending := none })
  | none => if s.halted then (none, s) else s.skipTrivia.read d

/-! ## A scan ends -/

/-- A bound on the number of items to come. -/
def weight (s : Scanner) : Nat :=
  2 * s.rest.length + s.pending.toList.length + (if s.halted then 0 else 1)

theorem weight_read_lt {d : Dfa} {s s' : Scanner} {item : Item}
    (hp : s.pending = none) (hh : s.halted = false) (h : s.read d = (some item, s')) :
    s'.weight < s.weight := by
  have owed : ∀ o : Option Token, o.toList.length ≤ 1 := by
    intro o
    cases o <;> simp
  unfold read at h
  split at h
  · simp at h
  · rename_i c cs hrest
    split at h
    · obtain ⟨_, rfl⟩ := Prod.mk.inj h
      simp [weight, hh]
    · split at h
      · obtain ⟨_, rfl⟩ := Prod.mk.inj h
        simp [weight, hrest, hp, hh]
      · rename_i k tag hm
        obtain ⟨_, rfl⟩ := Prod.mk.inj h
        have hk := Dfa.munch_pos hm
        have ho := owed (classify tag.token (s.rest.take k) s.line).2
        have hlen : s.rest.length = cs.length + 1 := by simp [hrest]
        simp only [weight, hp, hh, List.length_drop, Option.toList_none, List.length_nil]
        omega

/-- Each item makes the scanner lighter. -/
theorem weight_next_lt {d : Dfa} {s s' : Scanner} {item : Item}
    (h : s.next d = (some item, s')) : s'.weight < s.weight := by
  unfold next at h
  split at h
  · rename_i t hp
    obtain ⟨_, rfl⟩ := Prod.mk.inj h
    simp [weight, hp]
  · rename_i hp
    split at h
    · simp at h
    · rename_i hh
      have hskip : s.skipTrivia.weight ≤ s.weight := by
        have := Trivia.length_skip_le s.line s.rest
        simp only [weight, skipTrivia, hp]
        omega
      refine Nat.lt_of_lt_of_le (weight_read_lt ?_ ?_ h) hskip
      · exact hp
      · simpa [skipTrivia] using hh

/-- Collects all items that are left behind those collected, latest first, and
the place where the scan ends. -/
def drainOnto (d : Dfa) (s : Scanner) (collected : List Item) : List Item × Scanner :=
  match _h : s.next d with
  | (none, s') => (collected.reverse, s')
  | (some item, s') => s'.drainOnto d (item :: collected)
termination_by s.weight
decreasing_by exact weight_next_lt _h

/-- All items that are left, and the place where the scan ends. -/
def drain (d : Dfa) (s : Scanner) : List Item × Scanner :=
  s.drainOnto d []

end Scanner

namespace Dfa

/-- The items of a whole source. -/
def scan (d : Dfa) (source : String) : List Item :=
  ((Scanner.ofText source).drain d).1

/-- The tokens and diagnostics of a whole source. -/
def tokenize (d : Dfa) (source : String) : ScanResult :=
  .ofItems (d.scan source)

end Dfa

end Munch
