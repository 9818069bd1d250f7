import Munch.Proofs.Bytes.Positions
import Munch.Proofs.Scan.Partition

/-!
# Scanning by byte positions

A `Cursor` is a place in a source that is given by a byte position. It moves by
arithmetic on positions alone, cuts the source where it stands, and looks up each
state that the table leads to. A cut inside of a character or a state that is not
there stops it with a `Fault`.

With a closed table there is no fault. Before a segment the cursor finds that
segment and the position behind it (`Cursor.find_of_fits`), so it goes with the
`Scanner` of the same source from call to call (`Scanner.cursor_next`).
-/

namespace Munch

/-! ## The longest match in bytes -/

namespace Dfa

/-- `munchFrom` over bytes. Each state that is entered is looked up. -/
def munchBytesFrom (d : Dfa) (id count : Nat) (best : Option (Nat × Tag)) :
    List UInt8 → Except Fault (Option (Nat × Tag))
  | [] => .ok best
  | b :: bs =>
    match d.step id b with
    | none => .ok best
    | some target =>
      match d.state? target with
      | none => .error (.state target)
      | some s =>
        d.munchBytesFrom target (count + 1)
          ((s.accept.map fun tag => (count + 1, tag)).or best) bs

/-- The number of bytes and the tag of the longest accepted non-empty front. -/
def munchBytes (d : Dfa) (bs : List UInt8) : Except Fault (Option (Nat × Tag)) :=
  d.munchBytesFrom d.start 0 none bs

end Dfa

/-! ## Cursors -/

/-- A place in the bytes of a source. -/
structure Cursor where
  /-- Number of bytes before it. -/
  pos : Nat := 0
  line : Nat := 1
  /-- A token that is owed before the scan goes on. -/
  pending : Option Token := none
  /-- Whether nothing but an owed token will come. -/
  halted : Bool := false
deriving DecidableEq, Repr

namespace Cursor

/-- What stands at a position, and the position behind it. -/
inductive Finding where
  | nothing
  /-- A blank or a comment with its number of newlines. -/
  | trivia (newlines stop : Nat)
  | unterminated
  | stray (c : Char) (stop : Nat)
  | lexeme (text : String) (tag : Tag) (stop : Nat)
deriving DecidableEq

/-- A block comment at the position from which `rest` is left. -/
def findBlock (source : String) (pos : Nat) (rest : String) : Except Fault Finding := do
  let body ← Bytes.cut rest 2 rest.utf8ByteSize
  match Bytes.find? (Bytes.ofText "*/") (Bytes.ofText body) with
  | none => .ok .unterminated
  | some i =>
    let stop := pos + 2 + i + 2
    let passed ← Bytes.window source pos stop
    .ok (.trivia (passed.count 10) stop)

/-- The end of a line comment at the position from which `rest` is left. -/
def lineStop (source : String) (pos : Nat) (rest : String) : Nat :=
  match Bytes.find? (Bytes.ofText "\n") (Bytes.ofText rest) with
  | none => source.utf8ByteSize
  | some i => pos + i

/-- A lexeme or a stray character at the position from which `rest` is left. -/
def findLexeme (d : Dfa) (source : String) (pos : Nat) (rest : String) :
    Except Fault Finding := do
  match ← d.munchBytes ((Bytes.ofText source).drop pos) with
  | none =>
    match rest.toList with
    | [] => .ok .nothing
    | c :: _ => .ok (.stray c (pos + c.utf8Size))
  | some (k, tag) =>
    let text ← Bytes.cut source pos (pos + k)
    .ok (.lexeme text tag (pos + k))

/-- What stands at a position. A blank is told by its byte, all else by the text
that is left. -/
def find (d : Dfa) (source : String) (pos : Nat) : Except Fault Finding :=
  match (Bytes.ofText source).drop pos with
  | [] => .ok .nothing
  | b :: _ =>
    if Trivia.isBlank (Char.ofUInt8 b) then .ok (.trivia (if b = 10 then 1 else 0) (pos + 1))
    else do
      let rest ← Bytes.cut source pos source.utf8ByteSize
      if Bytes.ofText "/*" <+: Bytes.ofText rest then findBlock source pos rest
      else if Bytes.ofText "//" <+: Bytes.ofText rest then
        .ok (.trivia 0 (lineStop source pos rest))
      else findLexeme d source pos rest

theorem lt_of_findBlock {source rest : String} {pos newlines stop : Nat}
    (h : findBlock source pos rest = .ok (.trivia newlines stop)) : pos < stop := by
  obtain ⟨body, _, h⟩ := exists_of_bind_eq_ok h
  split at h
  · cases h
  · obtain ⟨passed, _, h⟩ := exists_of_bind_eq_ok h
    cases h
    omega

theorem lt_lineStop {source rest : String} {pos : Nat} (hpos : pos < source.utf8ByteSize)
    (h : Bytes.ofText "//" <+: Bytes.ofText rest) : pos < lineStop source pos rest := by
  have hfront : ¬Bytes.ofText "\n" <+: Bytes.ofText rest := by
    obtain ⟨bs, hbs⟩ := h
    rw [← hbs]
    exact fun hnewline => absurd (List.cons_prefix_cons.mp hnewline).1 (by decide)
  unfold lineStop
  split
  · exact hpos
  · rename_i i hfind
    have := Bytes.pos_of_find? hfront hfind
    omega

theorem findLexeme_ne_trivia {d : Dfa} {source rest : String} {pos newlines stop : Nat} :
    findLexeme d source pos rest ≠ .ok (.trivia newlines stop) := by
  intro h
  obtain ⟨found, _, h⟩ := exists_of_bind_eq_ok h
  split at h
  · split at h <;> cases h
  · obtain ⟨text, _, h⟩ := exists_of_bind_eq_ok h
    cases h

/-- Trivia are never empty and begin before the end. -/
theorem lt_of_find_eq_trivia {d : Dfa} {source : String} {pos newlines stop : Nat}
    (h : find d source pos = .ok (.trivia newlines stop)) :
    pos < stop ∧ pos < source.utf8ByteSize := by
  unfold find at h
  split at h
  · cases h
  · rename_i b bs hdrop
    have hpos : pos < source.utf8ByteSize := by
      by_contra hle
      rw [Bytes.utf8ByteSize_eq, Bytes.size, Nat.not_lt] at hle
      rw [Bytes.ofText, List.drop_eq_nil_of_le hle] at hdrop
      cases hdrop
    refine ⟨?_, hpos⟩
    split at h
    · cases h
      exact Nat.lt_succ_self pos
    · obtain ⟨rest, _, h⟩ := exists_of_bind_eq_ok h
      split at h
      · exact lt_of_findBlock h
      · split at h
        · rename_i hline
          cases h
          exact lt_lineStop hpos hline
        · exact absurd h findLexeme_ne_trivia

/-- Goes over trivia, counts lines, and reads one item. -/
def advance (d : Dfa) (source : String) (c : Cursor) : Except Fault (Option Item × Cursor) :=
  match _h : find d source c.pos with
  | .error fault => .error fault
  | .ok .nothing => .ok (none, { c with halted := true })
  | .ok (.trivia newlines stop) =>
    advance d source { c with pos := stop, line := c.line + newlines }
  | .ok .unterminated =>
    .ok (some (.diagnostic (.unterminatedComment c.line)), { c with halted := true })
  | .ok (.stray symbol stop) =>
    .ok (some (.diagnostic (.unrecognizedSymbol c.line symbol)), { c with pos := stop })
  | .ok (.lexeme text tag stop) =>
    let found := classify tag.token text.toList c.line
    .ok (some found.1, { c with pos := stop, pending := found.2 })
termination_by source.utf8ByteSize - c.pos
decreasing_by
  have := lt_of_find_eq_trivia _h
  omega

/-- The next item, if there is one, and the place behind it. -/
def next (d : Dfa) (source : String) (c : Cursor) : Except Fault (Option Item × Cursor) :=
  match c.pending with
  | some t => .ok (some (.token t), { c with pending := none })
  | none => if c.halted then .ok (none, c) else c.advance d source

/-- The place after `n` calls of `next`. -/
def after (d : Dfa) (source : String) : (n : Nat) → Cursor → Except Fault Cursor
  | 0, c => .ok c
  | n + 1, c => do
    let called ← c.next d source
    called.2.after d source n

end Cursor

variable {d : Dfa} {source : String} {before rest : List Char}

/-! ## Bytes and characters -/

namespace Dfa

/-- With a closed table every state that is looked up is there, and the bytes tell
what the characters tell. -/
theorem munchBytesFrom_ofChars (hd : d.Closed) (cs : List Char) (id count : Nat)
    (best : Option (Nat × Tag)) :
    d.munchBytesFrom id count best (Bytes.ofChars cs) = .ok (d.munchFrom id count best cs) := by
  induction cs generalizing id count best with
  | nil => rfl
  | cons c cs ih =>
    rw [Bytes.ofChars_cons]
    by_cases hc : c.toNat ≤ 127
    · rw [Bytes.utf8EncodeChar_of_ascii hc, List.singleton_append, munchBytesFrom, munchFrom,
        step_ofChar hc]
      cases hstep : d.stepChar id c with
      | none => rfl
      | some target =>
        have htarget : target < d.size := by
          apply hd id (Bytes.ofChar c) target
          rw [step_ofChar hc, hstep]
        obtain ⟨s, hs⟩ := exists_state? htarget
        have haccept : d.acceptOf target = s.accept := by rw [acceptOf, hs]; rfl
        simp only [hs, haccept, ih]
    · -- neither the character nor its first byte leads anywhere
      obtain ⟨b, bs, heq, hb⟩ := Bytes.utf8EncodeChar_of_not_ascii (Nat.lt_of_not_le hc)
      have hbyte : d.step id b = none := next?_eq_none_of_not_ascii hb
      have hchar : d.stepChar id c = none := next?_eq_none_of_not_ascii (Nat.lt_of_not_le hc)
      simp only [heq, List.cons_append, munchBytesFrom, munchFrom, hbyte, hchar]

theorem munchBytes_ofChars (hd : d.Closed) (cs : List Char) :
    d.munchBytes (Bytes.ofChars cs) = .ok (d.munch cs) :=
  munchBytesFrom_ofChars hd cs d.start 0 none

/-- An edge to a state that is not there is a fault if it is followed. -/
example : ((empty.insert [0] none).dfa.setEdge 0 97 1).munchBytes [97] = .error (.state 1) := by
  cbv

end Dfa

namespace Trivia

theorem ascii_of_isBlank {c : Char} (h : isBlank c = true) : c.toNat ≤ 127 := by
  simp only [isBlank, Bool.or_eq_true, Bool.and_eq_true, decide_eq_true_iff] at h
  rcases h with (rfl | h) | h
  · decide
  · omega
  · omega

/-- A blank is told by its first byte. -/
theorem isBlank_first {c : Char} {b : UInt8} {bs : List UInt8}
    (h : String.utf8EncodeChar c = b :: bs) : isBlank (Char.ofUInt8 b) = isBlank c := by
  by_cases hc : c.toNat ≤ 127
  · rw [Bytes.utf8EncodeChar_of_ascii hc] at h
    obtain ⟨rfl, _⟩ := List.cons.inj h
    have hchar : Char.ofUInt8 (Bytes.ofChar c) = c := by
      rw [← Char.toNat_inj, ← Bytes.toNat_ofChar hc]
      rfl
    rw [hchar]
  · have hb : 127 < (Char.ofUInt8 b).toNat :=
      Bytes.lt_toNat_of_mem_utf8EncodeChar (Nat.lt_of_not_le hc) (h ▸ List.mem_cons_self)
    have hlate : ∀ x : Char, 127 < x.toNat → isBlank x = false := by
      intro x hx
      rw [← Bool.not_eq_true]
      exact fun hblank => absurd (ascii_of_isBlank hblank) (Nat.not_le.mpr hx)
    rw [hlate _ hb, hlate c (Nat.lt_of_not_le hc)]

theorem isBlank_of_slash (cs : List Char) (c : Char) (cs' : List Char) (h : '/' :: cs = c :: cs') :
    isBlank c = false := by
  rw [← (List.cons.inj h).1]
  decide

/-- Inside of a comment that ends with its first closer no closer stands earlier. -/
theorem not_closer_prefix_of_suffix {body v : List Char} (h : ¬closer <:+: body ++ ['*'])
    (hv : v <:+ body) (hne : v ≠ []) (rest : List Char) :
    ¬closer <+: v ++ '*' :: '/' :: rest := by
  intro hfront
  have hshort : closer <+: v ++ ['*'] := by
    refine List.prefix_of_prefix_length_le hfront ⟨'/' :: rest, by simp⟩ ?_
    have := List.length_pos_iff.mpr hne
    rw [List.length_append, List.length_singleton]
    show 2 ≤ v.length + 1
    omega
  obtain ⟨front, rfl⟩ := hv
  apply h
  rw [List.append_assoc]
  exact hshort.isInfix.trans (List.suffix_append front _).isInfix

end Trivia

namespace Cursor

/-! ## What stands at a position -/

theorem find_of_blank {c : Char} (h : source.toList = before ++ c :: rest)
    (hblank : Trivia.isBlank c = true) :
    find d source (Bytes.size before) =
      .ok (.trivia ([c].count '\n') (Bytes.size (before ++ [c]))) := by
  have heq := Bytes.utf8EncodeChar_of_ascii (Trivia.ascii_of_isBlank hblank)
  have hbyte : Bytes.ofChars [c] = [Bytes.ofChar c] := by
    rw [Bytes.ofChars_cons, heq, Bytes.ofChars_nil, List.append_nil]
  have hsize : Bytes.size [c] = 1 := by rw [Bytes.size, hbyte, List.length_singleton]
  rw [find, Bytes.drop_size h, Bytes.ofChars_cons, heq, List.singleton_append,
    ← Bytes.count_newline, hbyte]
  simp only [Trivia.isBlank_first heq, hblank, if_true, Bytes.size_append, hsize,
    List.count_singleton, beq_iff_eq]

theorem find_of_not_blank {u : List Char} (h : source.toList = before ++ u) (hne : u ≠ [])
    (hblank : ∀ c cs, u = c :: cs → Trivia.isBlank c = false) :
    find d source (Bytes.size before) =
      if ['/', '*'] <+: u then findBlock source (Bytes.size before) (String.ofList u)
      else if ['/', '/'] <+: u then
        .ok (.trivia 0 (lineStop source (Bytes.size before) (String.ofList u)))
      else findLexeme d source (Bytes.size before) (String.ofList u) := by
  have hblock : Bytes.ofText "/*" <+: Bytes.ofChars u ↔ ['/', '*'] <+: u :=
    Bytes.ofChars_prefix_iff (p := ['/', '*']) (Bytes.ascii_of_all rfl)
  have hline : Bytes.ofText "//" <+: Bytes.ofChars u ↔ ['/', '/'] <+: u :=
    Bytes.ofChars_prefix_iff (p := ['/', '/']) (Bytes.ascii_of_all rfl)
  have hdrop := Bytes.drop_size h
  obtain ⟨c, cs, rfl⟩ := List.exists_cons_of_ne_nil hne
  obtain ⟨b, bs, heq⟩ := List.exists_cons_of_ne_nil (String.utf8EncodeChar_ne_nil (c := c))
  rw [Bytes.ofChars_cons, heq, List.cons_append] at hdrop
  simp only [find, hdrop, Trivia.isBlank_first heq, hblank c cs rfl, Bool.false_eq_true, if_false,
    Bytes.cut_to_end h, bind, Except.bind, Bytes.ofText_ofList, hblock, hline]

theorem findBlock_of_block {body : List Char}
    (h : source.toList = before ++ ((Segment.block body).text ++ rest))
    (hbody : ¬Trivia.closer <:+: body ++ ['*']) :
    findBlock source (Bytes.size before) (String.ofList ((Segment.block body).text ++ rest)) =
      .ok (.trivia ((Segment.block body).text.count '\n')
        (Bytes.size (before ++ (Segment.block body).text))) := by
  have htext : (String.ofList ((Segment.block body).text ++ rest)).toList =
      ['/', '*'] ++ (body ++ '*' :: '/' :: rest) := by
    simp [Segment.text]
  have hcut : Bytes.cut _ 2 _ = _ := Bytes.cut_to_end htext
  have hfind : Bytes.find? (Bytes.ofText "*/") (Bytes.ofChars (body ++ '*' :: '/' :: rest)) =
      some (Bytes.size body) :=
    Bytes.find?_ofChars_append (p := Trivia.closer) (by decide) (Bytes.ascii_of_all rfl)
      (fun v hv hne => Trivia.not_closer_prefix_of_suffix hbody hv hne rest) ⟨rest, rfl⟩
  have hstop : Bytes.size before + 2 + Bytes.size body + 2 =
      Bytes.size (before ++ (Segment.block body).text) := by
    show _ = Bytes.size (before ++ (['/', '*'] ++ (body ++ ['*', '/'])))
    simp only [Bytes.size_append, show Bytes.size ['/', '*'] = 2 from rfl,
      show Bytes.size ['*', '/'] = 2 from rfl]
    omega
  have hwindow := Bytes.window_of_eq_append h
  simp only [findBlock, hcut, bind, Except.bind, Bytes.ofText_ofList, hfind, hstop, hwindow,
    Bytes.count_newline]

theorem findBlock_of_unterminated {u : List Char} (h : IsUnterminated u) (source : String)
    (pos : Nat) :
    findBlock source pos (String.ofList u) = .ok .unterminated := by
  obtain ⟨body, rfl, hbody⟩ := h
  have htext : (String.ofList ('/' :: '*' :: body)).toList = ['/', '*'] ++ body :=
    String.toList_ofList
  have hcut : Bytes.cut _ 2 _ = _ := Bytes.cut_to_end htext
  have hfind : Bytes.find? (Bytes.ofText "*/") (Bytes.ofChars body) = none :=
    Bytes.find?_ofChars_eq_none (p := Trivia.closer) (by decide) (Bytes.ascii_of_all rfl) hbody
  simp only [findBlock, hcut, bind, Except.bind, Bytes.ofText_ofList, hfind]

theorem lineStop_of_line {body : List Char}
    (h : source.toList = before ++ ((Segment.line body).text ++ rest)) (hbody : '\n' ∉ body)
    (hrest : rest = [] ∨ ∃ more, rest = '\n' :: more) :
    lineStop source (Bytes.size before) (String.ofList ((Segment.line body).text ++ rest)) =
      Bytes.size (before ++ (Segment.line body).text) := by
  have hnone : '\n' ∉ (Segment.line body).text := by
    simp [Segment.text, hbody]
  rcases hrest with rfl | ⟨more, rfl⟩
  · rw [List.append_nil] at h ⊢
    have hfind : Bytes.find? (Bytes.ofText "\n") (Bytes.ofChars (Segment.line body).text) =
        none := by
      apply Bytes.find?_ofChars_eq_none (p := ['\n']) (by decide) (Bytes.ascii_of_all rfl)
      rw [List.singleton_infix_iff]
      exact hnone
    simp only [lineStop, Bytes.ofText_ofList, hfind, Bytes.utf8ByteSize_eq, h]
  · have hfind : Bytes.find? (Bytes.ofText "\n")
        (Bytes.ofChars ((Segment.line body).text ++ '\n' :: more)) =
        some (Bytes.size (Segment.line body).text) := by
      apply Bytes.find?_ofChars_append (p := ['\n']) (by decide) (Bytes.ascii_of_all rfl) _
        ⟨more, rfl⟩
      intro v hv hne hfront
      obtain ⟨c, v, rfl⟩ := List.exists_cons_of_ne_nil hne
      obtain ⟨rfl, _⟩ := List.cons_prefix_cons.mp hfront
      exact hnone (hv.subset List.mem_cons_self)
    simp only [lineStop, Bytes.ofText_ofList, hfind, Bytes.size_append]

theorem findLexeme_of_munch_eq_none (hd : d.Closed) {c : Char}
    (h : source.toList = before ++ c :: rest) (hmunch : d.munch (c :: rest) = none) :
    findLexeme d source (Bytes.size before) (String.ofList (c :: rest)) =
      .ok (.stray c (Bytes.size (before ++ [c]))) := by
  simp only [findLexeme, Bytes.drop_size h, Dfa.munchBytes_ofChars hd, hmunch, bind, Except.bind,
    String.toList_ofList, Bytes.size_append, Bytes.size_cons, Bytes.size_nil, Nat.add_zero]

theorem findLexeme_of_munch_eq_some (hd : d.Closed) {chars : List Char} {tag : Tag}
    (h : source.toList = before ++ (chars ++ rest)) (hascii : ∀ c ∈ chars, c.toNat ≤ 127)
    (hmunch : d.munch (chars ++ rest) = some (chars.length, tag)) (text : String) :
    findLexeme d source (Bytes.size before) text =
      .ok (.lexeme (String.ofList chars) tag (Bytes.size (before ++ chars))) := by
  have hstop : Bytes.size before + chars.length = Bytes.size (before ++ chars) := by
    rw [Bytes.size_append, Bytes.size_of_ascii hascii]
  simp only [findLexeme, Bytes.drop_size h, Dfa.munchBytes_ofChars hd, hmunch, bind, Except.bind,
    hstop, Bytes.cut_of_eq_append h]

end Cursor

/-- What is found where a segment stands. -/
def Segment.finding (stop : Nat) (seg : Segment) : Cursor.Finding :=
  match seg with
  | stray c => .stray c stop
  | lexeme chars tag => .lexeme (String.ofList chars) tag stop
  | blank _ | block _ | line _ => .trivia (seg.text.count '\n') stop

namespace Cursor

/-- Before a segment the cursor finds that segment and the position behind it. -/
theorem find_of_fits (hd : d.Closed) {seg : Segment}
    (h : source.toList = before ++ (seg.text ++ rest)) (hfits : seg.Fits d rest) :
    find d source (Bytes.size before) = .ok (seg.finding (Bytes.size (before ++ seg.text))) := by
  cases seg with
  | blank c => exact find_of_blank h hfits
  | block body =>
    rw [find_of_not_blank h (List.cons_ne_nil _ _) (Trivia.isBlank_of_slash _), if_pos ⟨_, rfl⟩]
    exact findBlock_of_block h hfits
  | line body =>
    obtain ⟨hbody, hrest⟩ := hfits
    have hnone : (Segment.line body).text.count '\n' = 0 := by
      rw [List.count_eq_zero]
      simp [Segment.text, hbody]
    have hblock : ¬['/', '*'] <+: (Segment.line body).text ++ rest := by
      simp [Segment.text]
    rw [find_of_not_blank h (List.cons_ne_nil _ _) (Trivia.isBlank_of_slash _), if_neg hblock,
      if_pos ⟨_, rfl⟩, lineStop_of_line h hbody hrest]
    simp only [Segment.finding, hnone]
  | stray c =>
    obtain ⟨hbare, hsilent⟩ := hfits
    rw [Segment.text, List.singleton_append] at h
    rw [find_of_not_blank h (List.cons_ne_nil _ _) hbare.blank, if_neg hbare.block,
      if_neg hbare.line]
    exact findLexeme_of_munch_eq_none hd h (Dfa.munch_eq_none hsilent)
  | lexeme chars tag =>
    obtain ⟨hne, hprintable, hbare, hverdict, hsilent⟩ := hfits
    have hascii : ∀ c ∈ chars, c.toNat ≤ 127 := by
      intro c hc
      have := hprintable c hc
      omega
    have hmunch := Dfa.munch_eq_some (List.prefix_append chars rest) hne hverdict hsilent
    rw [Segment.text] at h
    rw [find_of_not_blank h (List.append_ne_nil_of_left_ne_nil hne rest) hbare.blank,
      if_neg hbare.block, if_neg hbare.line]
    exact findLexeme_of_munch_eq_some hd h hascii hmunch _

theorem find_of_nil (h : source.toList = before) :
    find d source (Bytes.size before) = .ok .nothing := by
  have h' : source.toList = before ++ [] := by rw [h, List.append_nil]
  rw [find, Bytes.drop_size h', Bytes.ofChars_nil]

theorem find_of_unterminated {u : List Char} (h : source.toList = before ++ u)
    (hu : IsUnterminated u) : find d source (Bytes.size before) = .ok .unterminated := by
  have hfind := findBlock_of_unterminated hu source (Bytes.size before)
  obtain ⟨body, rfl, _⟩ := hu
  rw [find_of_not_blank h (List.cons_ne_nil _ _) (Trivia.isBlank_of_slash _), if_pos ⟨body, rfl⟩,
    hfind]

/-! ## Cursors and scanners -/

theorem advance_eq (d : Dfa) (source : String) (c : Cursor) : c.advance d source =
    match find d source c.pos with
    | .error fault => .error fault
    | .ok .nothing => .ok (none, { c with halted := true })
    | .ok (.trivia newlines stop) =>
      advance d source { c with pos := stop, line := c.line + newlines }
    | .ok .unterminated =>
      .ok (some (.diagnostic (.unterminatedComment c.line)), { c with halted := true })
    | .ok (.stray symbol stop) =>
      .ok (some (.diagnostic (.unrecognizedSymbol c.line symbol)), { c with pos := stop })
    | .ok (.lexeme text tag stop) =>
      let found := classify tag.token text.toList c.line
      .ok (some found.1, { c with pos := stop, pending := found.2 }) := by
  rw [advance]
  split <;> rename_i h <;> rw [h]

end Cursor

/-- The cursor of a scanner that has the given text behind it. -/
def Scanner.cursor (s : Scanner) (before : List Char) : Cursor where
  pos := Bytes.size before
  line := s.line
  pending := s.pending
  halted := s.halted

/-- Whether the scan ends with the item. -/
def Item.isFatal : Item → Bool
  | token _ => false
  | diagnostic e => e.isFatal

namespace Scanner

variable {s : Scanner} {segs : List Segment} {tail : List Char}

theorem skipTrivia_of_none (h : Trivia.length? s.rest = none) : s.skipTrivia = s := by
  rw [skipTrivia, Trivia.skip_of_none h]

/-- Trivia that a scanner stands before are skipped. -/
theorem skipTrivia_of_fits {seg : Segment} (hrest : s.rest = seg.text ++ rest)
    (hfits : seg.Fits d rest) (hseg : seg.isTrivia = true) :
    s.skipTrivia =
      { s with rest := rest, line := s.line + seg.text.count '\n' : Scanner }.skipTrivia := by
  have hlength : Trivia.length? (seg.text ++ rest) = some seg.text.length := by
    rw [hfits.length?, if_pos hseg]
  have hskip := Trivia.skip_of_some hlength s.line
  rw [List.take_left, List.drop_left] at hskip
  simp only [skipTrivia, hrest, hskip]

/-- A segment that is not trivia is read alike from its characters and its bytes. -/
theorem cursor_advance_of_fits (hd : d.Closed) {seg : Segment}
    (h : source.toList = before ++ s.rest) (hpending : s.pending = none)
    (hrest : s.rest = seg.text ++ rest) (hfits : seg.Fits d rest) (hseg : seg.isTrivia = false) :
    ∃ item s', s.read d = (some item, s') ∧ s'.rest = rest ∧
      (s.cursor before).advance d source = .ok (some item, s'.cursor (before ++ seg.text)) := by
  rw [hrest] at h
  obtain ⟨item, owed, hyields, hread⟩ := read_of_fits hpending hrest hfits hseg
  refine ⟨item, _, hread, rfl, ?_⟩
  have hfind : Cursor.find d source (s.cursor before).pos = _ := Cursor.find_of_fits hd h hfits
  rw [Cursor.advance_eq, hfind]
  cases seg with
  | blank => cases hseg
  | block => cases hseg
  | line => cases hseg
  | stray c =>
    obtain ⟨rfl, howed⟩ := List.cons.inj hyields
    have hnone : owed = none := by simpa using howed.symm
    simp only [Segment.finding, cursor, hnone, hpending]
  | lexeme chars tag =>
    obtain ⟨rfl, howed⟩ := List.cons.inj hyields
    have hsame : (classify tag.token chars s.line).2 = owed := by
      generalize (classify tag.token chars s.line).2 = found at howed
      cases found <;> cases owed <;> simp_all
    simp only [Segment.finding, cursor, String.toList_ofList, hsame]

/-- Over trivia and one segment more, the cursor goes with the scanner. -/
theorem cursor_advance (hd : d.Closed) (h : source.toList = before ++ s.rest)
    (hpending : s.pending = none) (hsplits : Splits d s.rest segs tail)
    (hend : tail = [] ∨ IsUnterminated tail) :
    ∃ more item s', s.skipTrivia.read d = (item, s') ∧ s.rest = more ++ s'.rest ∧
      (s.cursor before).advance d source = .ok (item, s'.cursor (before ++ more)) ∧
      ∀ i, item = some i → i.isFatal = false → more ≠ [] := by
  generalize hu : s.rest = u at hsplits
  -- on the segments: one turn of the cursor goes over one of them
  induction hsplits generalizing s before with
  | done u =>
    refine ⟨[], (s.read d).1, (s.read d).2, ?_⟩
    rcases hend with rfl | hend
    · have hskip : s.skipTrivia = s := skipTrivia_of_none (by rw [hu]; rfl)
      have hread : s.read d = (none, { s with halted := true }) := by rw [read, hu]
      rw [hu, List.append_nil] at h
      have hfind : Cursor.find d source (s.cursor before).pos = _ := Cursor.find_of_nil h
      refine ⟨by rw [hskip], by rw [hread]; exact hu.symm, ?_, fun i hi => ?_⟩
      · rw [Cursor.advance_eq, hfind, hread, List.append_nil]
        rfl
      · rw [hread] at hi
        cases hi
    · subst hu
      have hskip : s.skipTrivia = s := skipTrivia_of_none hend.length?_eq_none
      have hread := read_of_unterminated (d := d) hend
      have hfind : Cursor.find d source (s.cursor before).pos = _ :=
        Cursor.find_of_unterminated h hend
      refine ⟨by rw [hskip], by rw [hread]; rfl, ?_, fun i hi hfatal => ?_⟩
      · rw [Cursor.advance_eq, hfind, hread, List.append_nil]
        rfl
      · rw [hread] at hi
        cases hi
        cases hfatal
  | @next seg rest tail segs hfits hsplits ih =>
    cases hseg : seg.isTrivia with
    | true =>
      let s₁ : Scanner := { s with rest := rest, line := s.line + seg.text.count '\n' }
      have h₁ : source.toList = before ++ seg.text ++ s₁.rest := by
        rw [h, hu, List.append_assoc]
      obtain ⟨more, item, s', hread, hrest, hadvance, hprogress⟩ := ih h₁ hpending hend rfl
      refine ⟨seg.text ++ more, item, s', ?_, ?_, ?_, ?_⟩
      · rw [skipTrivia_of_fits hu hfits hseg]
        exact hread
      · rw [List.append_assoc, ← hrest]
      · have hfind : Cursor.find d source (s.cursor before).pos = _ :=
          Cursor.find_of_fits hd (by rw [h, hu]) hfits
        rw [← List.append_assoc, ← hadvance, Cursor.advance_eq, hfind]
        cases seg with
        | stray => cases hseg
        | lexeme => cases hseg
        | blank => rfl
        | block => rfl
        | line => rfl
      · exact fun i hi hfatal => List.append_ne_nil_of_left_ne_nil hfits.text_ne_nil more
    | false =>
      have hskip : s.skipTrivia = s := by
        apply skipTrivia_of_none
        rw [hu, hfits.length?, hseg, if_neg Bool.false_ne_true]
      obtain ⟨item, s', hread, hrest, hadvance⟩ :=
        cursor_advance_of_fits hd h hpending hu hfits hseg
      exact ⟨seg.text, some item, s', by rw [hskip, hread], by rw [hrest], hadvance,
        fun i _ _ => hfits.text_ne_nil⟩

/-- One call of `next`: the cursor goes with the scanner, and an item that is
neither owed nor the end of the scan has characters of its own. -/
theorem cursor_next (hd : d.Closed) (h : source.toList = before ++ s.rest) :
    ∃ more item s', s.next? d = some (item, s') ∧ s.rest = more ++ s'.rest ∧
      (s.cursor before).next d source = .ok (item, s'.cursor (before ++ more)) ∧
      (s.pending = none → ∀ i, item = some i → i.isFatal = false → more ≠ []) := by
  simp only [next?_of_closed hd, next, Cursor.next]
  cases hpending : s.pending with
  | some t =>
    exact ⟨[], _, _, rfl, rfl, by simp [cursor, hpending], fun hnone => by cases hnone⟩
  | none =>
    cases hhalted : s.halted with
    | true =>
      refine ⟨[], none, s, rfl, rfl, ?_, fun _ i hi => by cases hi⟩
      simp [cursor, hpending, hhalted]
    | false =>
      obtain ⟨segs, tail, hsplits, hend⟩ := exists_splits d s.rest
      obtain ⟨more, item, s', hread, hrest, hadvance, hprogress⟩ :=
        cursor_advance hd h hpending hsplits hend
      refine ⟨more, item, s', ?_, hrest, ?_, fun _ => hprogress⟩
      · simp [hread]
      · rw [← hadvance]
        simp [cursor, hpending, hhalted]

/-- Any number of calls leaves the cursor where it leaves the scanner. -/
theorem cursor_after (hd : d.Closed) (h : source.toList = before ++ s.rest) (n : Nat) :
    ∃ more s', s.after? d n = some s' ∧ s.rest = more ++ s'.rest ∧
      (s.cursor before).after d source n = .ok (s'.cursor (before ++ more)) := by
  induction n generalizing s before with
  | zero => exact ⟨[], s, rfl, rfl, by rw [List.append_nil]; rfl⟩
  | succ n ih =>
    obtain ⟨more, item, s', hnext, hrest, hcursor, _⟩ := cursor_next hd h
    have h' : source.toList = (before ++ more) ++ s'.rest := by
      rw [h, hrest, List.append_assoc]
    obtain ⟨further, last, hafter, hlast, hrun⟩ := ih h'
    refine ⟨more ++ further, last, ?_, ?_, ?_⟩
    · rw [after?, hnext, Option.bind_some, hafter]
    · rw [hrest, hlast, List.append_assoc]
    · rw [Cursor.after, hcursor, ← List.append_assoc]
      exact hrun

end Scanner

end Munch
