import Munch.Proofs.Sample.Check
import Munch.Sample.Source

/-!
# Random source is free of diagnostics

`Draw.Always` says what an action yields whatever words are drawn, and
`Piece.Drawn` what a drawn piece looks like. A drawn piece with the gap behind it is
scanned to its token, or to nothing if it is a comment, and the scan goes on behind
the gap as if nothing had been there (`Fos.items_pairText`). So all of a source is
scanned to its pieces (`Fos.items_pairs`), however many there are.
-/

namespace Munch

/-! ## What is always drawn -/

namespace Draw

variable {σ α β : Type} (word : Draw σ UInt32) {act : Draw σ α} {p : α → Prop}

/-- Whatever words are drawn, the action yields something of the kind. -/
def Always (act : Draw σ α) (p : α → Prop) : Prop :=
  ∀ s, p (act s).1

theorem always_pure {x : α} (h : p x) : Always (pure x : Draw σ α) p :=
  fun _ => h

theorem Always.bind {next : α → Draw σ β} {q : β → Prop} (h : Always act p)
    (hnext : ∀ x, p x → Always (next x) q) : Always (act >>= next) q :=
  fun s => hnext (act s).1 (h s) (act s).2

theorem always_trivial (act : Draw σ α) : Always act fun _ => True :=
  fun _ => trivial

theorem always_pick {xs : List α} (h : xs ≠ []) : Always (pick word xs h) (· ∈ xs) :=
  (always_trivial _).bind fun i _ => always_pure (xs.get_mem i)

theorem always_between {lo hi : Nat} (h : lo ≤ hi) :
    Always (between word lo hi) fun n => lo ≤ n ∧ n ≤ hi := by
  refine (always_trivial _).bind fun i _ => always_pure ?_
  have := i.isLt
  omega

theorem Always.times (h : Always act p) (n : Nat) :
    Always (times n act) fun xs => xs.length = n ∧ ∀ x ∈ xs, p x := by
  induction n with
  | zero => exact always_pure (by simp)
  | succ n ih =>
    refine h.bind fun x hx => ih.bind fun xs hxs => always_pure ⟨?_, ?_⟩
    · rw [List.length_cons, hxs.1]
    · exact List.forall_mem_cons.mpr ⟨hx, hxs.2⟩

/-- Some elements of a list, as many as the bounds allow. -/
structure IsSome (xs : List α) (lo hi : Nat) (ys : List α) : Prop where
  mem : ∀ y ∈ ys, y ∈ xs
  le_length : lo ≤ ys.length
  length_le : ys.length ≤ hi

theorem always_someOf {xs : List α} (h : xs ≠ []) {lo hi : Nat} (hle : lo ≤ hi) :
    Always (someOf word xs h lo hi) (IsSome xs lo hi) := by
  refine (always_between word hle).bind fun n hn => ?_
  intro s
  obtain ⟨hlength, hmem⟩ := (always_pick word h).times n s
  exact ⟨hmem, by rw [hlength]; exact hn.1, by rw [hlength]; exact hn.2⟩

end Draw

/-! ## Drawn pieces -/

namespace Piece

open Draw Sample

/-- What a drawn piece is made of. -/
def Drawn : Piece → Prop
  | identifier cs => IsSome letters 1 8 cs
  | integer ds => IsSome digits 1 6 ds
  | decimal whole fraction => IsSome digits 1 3 whole ∧ IsSome digits 1 8 fraction
  | keyword t => t ∈ Fos.keywords
  | string body => IsSome bodyChars 0 12 body
  | lineComment body => IsSome bodyChars 0 20 body
  | blockComment body _ => IsSome letters 0 10 body
  | operator t => t ∈ Fos.operators

/-- Whether the piece is a comment. -/
def isComment : Piece → Bool
  | lineComment _ | blockComment _ _ => true
  | _ => false

/-- The lexeme of the token that the piece stands for: its text, but decimals are
rounded. -/
def lexeme? : Piece → Option (List Char)
  | decimal whole fraction => Decimal.round? (whole ++ '.' :: fraction) decimalPlaces
  | p => some p.text

end Piece

namespace Sample

theorem isLower_of_mem_letters : ∀ c ∈ letters, c.isLower = true :=
  List.all_eq_true.mp rfl

theorem isDigit_of_mem_digits : ∀ c ∈ digits, c.isDigit = true :=
  List.all_eq_true.mp rfl

theorem isQuotable_of_mem_bodyChars : ∀ c ∈ bodyChars, Fos.Reference.isQuotable c = true :=
  List.all_eq_true.mp rfl

end Sample

/-- A line comment of twenty characters is the longest piece. -/
theorem Piece.Drawn.length_text_le {p : Piece} (h : p.Drawn) : p.text.length ≤ 23 := by
  have hkeyword : ∀ t ∈ Fos.keywords, t.text.toList.length ≤ 23 := by decide
  have hoperator : ∀ t ∈ Fos.operators, t.text.toList.length ≤ 23 := by decide
  cases p with
  | identifier cs => exact Nat.le_trans h.length_le (by omega)
  | integer ds => exact Nat.le_trans h.length_le (by omega)
  | decimal whole fraction =>
    have := h.1.length_le
    have := h.2.length_le
    simp only [text, List.length_append, List.length_cons]
    omega
  | keyword t => exact hkeyword t h
  | string body =>
    have := h.length_le
    simp only [text, List.length_cons, List.length_append, List.length_nil]
    omega
  | lineComment body =>
    have := h.length_le
    simp only [text, List.length_cons, List.length_append, List.length_nil]
    omega
  | blockComment body newline =>
    have := h.length_le
    cases newline <;> simp [text] <;> omega
  | operator t => exact hoperator t h

/-- Drawn pieces are ASCII. -/
theorem Piece.Drawn.ascii {p : Piece} (h : p.Drawn) : ∀ c ∈ p.text, c.toNat ≤ 127 := by
  have hletters : ∀ c ∈ Sample.letters, c.toNat ≤ 127 := Bytes.ascii_of_all rfl
  have hdigits : ∀ c ∈ Sample.digits, c.toNat ≤ 127 := Bytes.ascii_of_all rfl
  have hbody : ∀ c ∈ Sample.bodyChars, c.toNat ≤ 127 := Bytes.ascii_of_all rfl
  have hkeyword : ∀ t ∈ Fos.keywords, t.text.toList.all (·.toNat ≤ 127) = true := by decide
  have hoperator : ∀ t ∈ Fos.operators, t.text.toList.all (·.toNat ≤ 127) = true := by decide
  cases p with
  | identifier cs => exact fun c hc => hletters c (h.mem c hc)
  | integer ds => exact fun c hc => hdigits c (h.mem c hc)
  | decimal whole fraction =>
    intro c hc
    rcases List.mem_append.mp hc with hc | hc
    · exact hdigits c (h.1.mem c hc)
    · rcases List.mem_cons.mp hc with rfl | hc
      · decide
      · exact hdigits c (h.2.mem c hc)
  | keyword t => exact Bytes.ascii_of_all (hkeyword t h)
  | string body =>
    have hall := fun c hc => hbody c (h.mem c hc)
    simp [text, or_imp, forall_and]
    exact hall
  | lineComment body =>
    have hall := fun c hc => hbody c (h.mem c hc)
    simp [text, or_imp, forall_and]
    exact hall
  | blockComment body newline =>
    have hall := fun c hc => hletters c (h.mem c hc)
    cases newline <;> simp [text, or_imp, forall_and] <;> exact hall
  | operator t => exact Bytes.ascii_of_all (hoperator t h)

namespace Sample

open Draw

variable {σ : Type} (word : Draw σ UInt32)

theorem always_piece : Always (piece word) Piece.Drawn := by
  refine (always_trivial _).bind fun roll _ => ?_
  split
  · exact (always_someOf word _ (by omega)).bind fun _ h => always_pure h
  split
  · exact (always_someOf word _ (by omega)).bind fun _ h => always_pure h
  split
  · exact (always_someOf word _ (by omega)).bind fun _ h =>
      (always_someOf word _ (by omega)).bind fun _ h' => always_pure ⟨h, h'⟩
  split
  · exact (always_pick word _).bind fun _ h => always_pure h
  split
  · exact (always_someOf word _ (by omega)).bind fun _ h => always_pure h
  split
  · exact (always_someOf word _ (by omega)).bind fun _ h => always_pure h
  split
  · exact (always_someOf word _ (by omega)).bind fun _ h =>
      (always_trivial _).bind fun _ _ => always_pure h
  · exact (always_pick word _).bind fun _ h => always_pure h

/-- Drawn pieces reach the target and go beyond it by less than one piece. -/
theorem sourceFrom_spec {target written : Nat} {drawn : List (Piece × Gap)} (s : σ)
    (hdrawn : ∀ pair ∈ drawn, pair.1.Drawn)
    (hwritten : written = (drawn.reverse.flatMap pairText).length) (hlt : written < target + 25) :
    let pairs := (sourceFrom word target written drawn s).1
    (∀ pair ∈ pairs, pair.1.Drawn) ∧ target ≤ (pairs.flatMap pairText).length ∧
      (pairs.flatMap pairText).length < target + 25 := by
  fun_induction sourceFrom word target written drawn s with
  | case1 written drawn s hmore p g pair ih =>
    have hp : p.1.Drawn := always_piece word s
    have hlength : (pairText pair).length ≤ 25 := by
      have hpiece := hp.length_text_le
      have hgap : ∀ g : Gap, g.text.length ≤ 2 := by intro g; cases g <;> simp [Gap.text]
      have := hgap g.1
      simp only [pair, pairText, List.length_append]
      omega
    refine ih (List.forall_mem_cons.mpr ⟨hp, hdrawn⟩) ?_ (by omega)
    simp only [List.reverse_cons, List.flatMap_append, List.flatMap_singleton, List.length_append,
      hwritten]
  | case2 written drawn s hdone =>
    rw [hwritten] at hdone hlt
    refine ⟨?_, Nat.le_of_not_lt hdone, hlt⟩
    intro pair hpair
    exact hdrawn pair (List.mem_reverse.mp hpair)

end Sample

/-! ## Scanning pieces -/

namespace Fos

open Reference Sample

variable {p : Piece} {v rest whole fraction : List Char}

/-- Trivia are dropped, and their newlines are counted. -/
theorem items_of_isTrivia {seg : Segment} (h : seg.Fits table rest) (hseg : seg.isTrivia = true)
    (line : Nat) :
    items line (seg.text ++ rest) = items (line + seg.text.count '\n') rest := by
  have hlength := h.length?
  rw [hseg, if_pos rfl] at hlength
  rw [items_of_trivia line hlength, List.take_left, List.drop_left]

/-- Lower-case letters, digits and keywords are tokens. -/
theorem exists_isToken_of_isRun (hrun : IsRun v)
    (h : v.all Char.isLower = true ∨ v.all Char.isDigit = true ∨
      ∃ t ∈ keywords, v = t.text.toList) :
    ∃ kind, IsToken kind v := by
  cases hfind : keywords.find? (·.text = String.ofList v) with
  | some t =>
    have htext : t.text = String.ofList v := by simpa using List.find?_some hfind
    refine ⟨t.name, .run hrun fun line => ?_⟩
    simp only [run, hfind, htext]
  | none =>
    have hname : v.all Char.isLower = true ∨ v.all Char.isDigit = true := by
      rcases h with h | h | ⟨t, ht, rfl⟩
      · exact .inl h
      · exact .inr h
      · have hnot := List.find?_eq_none.mp hfind t ht
        simp at hnot
    by_cases hlower : v.all Char.isLower = true
    · refine ⟨Kind.identifier, .run hrun fun line => ?_⟩
      simp only [run, hfind, hlower, if_true]
    · have hdigit := hname.resolve_left hlower
      refine ⟨Kind.intLiteral, .run hrun fun line => ?_⟩
      simp only [run, hfind, hlower, hdigit, if_true]
      rfl

theorem isAlphanum_of_isLower {c : Char} (h : c.isLower = true) : c.isAlphanum = true := by
  rw [isLower_iff] at h
  exact isAlphanum_iff.mpr (.inl (.inr h))

theorem exists_isToken_operator {t : FixedToken} (ht : t ∈ operators) :
    ∃ kind, IsToken kind t.text.toList := by
  obtain ⟨c, hc, _⟩ := operator_text ht
  obtain ⟨t', hfind, _⟩ := find?_text ht (by decide)
  have htext : t.text = String.singleton c := by
    rw [String.singleton_eq_ofList, ← hc, String.ofList_toList]
  rw [htext] at hfind
  rw [hc]
  exact ⟨t'.name, .operator hfind⟩

/-- A decimal in front of a blank is scanned to its rounded form. -/
theorem items_of_digits (hwhole : whole ≠ [] ∧ ∀ c ∈ whole, c.isDigit = true)
    (hfraction : fraction ≠ [] ∧ ∀ c ∈ fraction, c.isDigit = true)
    (hrest : ∀ c ∈ rest.head?, Trivia.isBlank c = true) (line : Nat) :
    ∃ rounded, Decimal.round? (whole ++ '.' :: fraction) decimalPlaces = some rounded ∧
      items line (whole ++ '.' :: fraction ++ rest) =
        .token ⟨Kind.decimalLiteral, String.ofList rounded, line⟩ :: items line rest := by
  obtain ⟨units, hround⟩ :=
    Decimal.exists_round?_of_digits hwhole.2 hfraction.1 hfraction.2 decimalPlaces
  refine ⟨_, hround, ?_⟩
  have hdecimal := decimal?_append hwhole.2 hfraction.1 hfraction.2 hrest
  have hword : IsDecimal (whole ++ '.' :: fraction) := ⟨whole, fraction, rfl, hwhole, hfraction⟩
  generalize whole ++ '.' :: fraction = v at hround hdecimal hword
  cases v with
  | nil => exact absurd rfl (IsWord.ne_nil (.inr (.inl hword)))
  | cons c cs =>
    have hhead := hword.head
    have hquote : c ≠ '"' := by
      rintro rfl
      exact absurd hhead (by decide)
    rw [decimalPlaces] at hround
    rw [List.cons_append] at hdecimal ⊢
    rw [items_of_isWord (.inr (.inl hword)) hrest]
    simp only [item, string?_eq_none hquote, hhead, if_true, hdecimal, hround, Option.getD_some]
    rfl

/-- Drawn pieces are tokens as they stand, but for comments and decimals. -/
theorem exists_isToken_of_drawn (h : p.Drawn) (hp : p.isComment = false) :
    (∃ kind, IsToken kind p.text) ∧ p.lexeme? = some p.text ∨
      ∃ whole fraction, p = .decimal whole fraction := by
  have hne : ∀ {xs ys : List Char} {hi : Nat}, Draw.IsSome xs 1 hi ys → ys ≠ [] :=
    fun hsome => List.length_pos_iff.mp hsome.le_length
  cases p with
  | identifier cs =>
    have hlower : ∀ c ∈ cs, c.isLower = true := fun c hc => isLower_of_mem_letters c (h.mem c hc)
    have hrun : IsRun cs := ⟨hne h, fun c hc => isAlphanum_of_isLower (hlower c hc)⟩
    exact .inl ⟨exists_isToken_of_isRun hrun (.inl (List.all_eq_true.mpr hlower)), rfl⟩
  | integer ds =>
    have hdigit : ∀ c ∈ ds, c.isDigit = true := fun c hc => isDigit_of_mem_digits c (h.mem c hc)
    have hrun : IsRun ds := ⟨hne h, fun c hc => isAlphanum_of_isDigit (hdigit c hc)⟩
    exact .inl ⟨exists_isToken_of_isRun hrun (.inr (.inl (List.all_eq_true.mpr hdigit))), rfl⟩
  | decimal whole fraction => exact .inr ⟨whole, fraction, rfl⟩
  | keyword t =>
    exact .inl ⟨exists_isToken_of_isRun (isRun_keyword h) (.inr (.inr ⟨t, h, rfl⟩)), rfl⟩
  | string body =>
    have hbody : ∀ c ∈ body, isQuotable c = true :=
      fun c hc => isQuotable_of_mem_bodyChars c (h.mem c hc)
    exact .inl ⟨⟨stringKind, .string ⟨body, rfl, hbody⟩⟩, rfl⟩
  | lineComment => cases hp
  | blockComment => cases hp
  | operator t => exact .inl ⟨exists_isToken_operator h, rfl⟩

/-- A piece in front of a blank that is no comment is scanned to one token. -/
theorem items_of_piece (h : p.Drawn) (hp : p.isComment = false)
    (hrest : ∀ c ∈ rest.head?, Trivia.isBlank c = true) (line : Nat) :
    ∃ t : Token, some t.lexeme.toList = p.lexeme? ∧
      items line (p.text ++ rest) = .token t :: items line rest := by
  rcases exists_isToken_of_drawn h hp with ⟨⟨kind, htoken⟩, hlexeme⟩ | ⟨whole, fraction, rfl⟩
  · refine ⟨⟨kind, String.ofList p.text, line⟩, ?_, items_of_isToken htoken hrest line⟩
    rw [hlexeme, String.toList_ofList]
  · have hwhole := fun c hc => isDigit_of_mem_digits c (h.1.mem c hc)
    have hfraction := fun c hc => isDigit_of_mem_digits c (h.2.mem c hc)
    obtain ⟨rounded, hround, hitems⟩ := items_of_digits
      ⟨List.length_pos_iff.mp h.1.le_length, hwhole⟩
      ⟨List.length_pos_iff.mp h.2.le_length, hfraction⟩ hrest line
    refine ⟨_, ?_, hitems⟩
    rw [Piece.lexeme?, hround, String.toList_ofList]

/-- A comment is dropped. -/
theorem items_of_comment (h : p.Drawn) (hp : p.isComment = true) (line : Nat) (rest : List Char) :
    ∃ line', items line (p.text ++ rest) = items line' rest := by
  cases p with
  | lineComment body =>
    have hnewline : '\n' ∉ body := by
      intro hmem
      exact absurd (isQuotable_of_mem_bodyChars _ (h.mem _ hmem)) (by decide)
    have hblank : (Segment.blank '\n').Fits table rest := rfl
    have hfits : (Segment.line body).Fits table ((Segment.blank '\n').text ++ rest) :=
      ⟨hnewline, .inr ⟨rest, rfl⟩⟩
    have htext : (Piece.lineComment body).text ++ rest =
        (Segment.line body).text ++ ((Segment.blank '\n').text ++ rest) := by
      simp [Piece.text, Segment.text]
    rw [htext, items_of_isTrivia hfits rfl, items_of_isTrivia hblank rfl]
    exact ⟨_, rfl⟩
  | blockComment body newline =>
    have hslash : '/' ∉ body ++ (if newline then ['\n'] else []) ++ ['*'] := by
      have hbody : '/' ∉ body := by
        intro hmem
        exact absurd (isLower_of_mem_letters _ (h.mem _ hmem)) (by decide)
      cases newline <;> simp [hbody]
    have hfits : (Segment.block (body ++ if newline then ['\n'] else [])).Fits table rest := by
      intro hcloser
      exact hslash (hcloser.subset (by simp [Trivia.closer]))
    exact ⟨_, items_of_isTrivia hfits rfl line⟩
  | _ => cases hp

theorem isBlank_of_mem_gap (g : Gap) : ∀ c ∈ g.text, Trivia.isBlank c = true := by
  apply List.all_eq_true.mp
  cases g <;> rfl

/-- A piece with the gap behind it is scanned to its token, or to nothing. -/
theorem items_pairText (h : p.Drawn) (g : Gap) (line : Nat) (rest : List Char) :
    ∃ (tokens : List Token) (line' : Nat),
      items line (pairText (p, g) ++ rest) = tokens.map Item.token ++ items line' rest ∧
      tokens.map (fun t => some t.lexeme.toList) = if p.isComment then [] else [p.lexeme?] := by
  rw [pairText, List.append_assoc]
  cases hp : p.isComment with
  | true =>
    obtain ⟨line', hitems⟩ := items_of_comment h hp line (g.text ++ rest)
    refine ⟨[], line' + g.text.count '\n', ?_, rfl⟩
    rw [hitems, items_of_blanks (isBlank_of_mem_gap g)]
    rfl
  | false =>
    have hhead : ∀ c ∈ (g.text ++ rest).head?, Trivia.isBlank c = true := by
      cases g <;> simp [Gap.text, Trivia.isBlank]
    obtain ⟨t, hlexeme, hitems⟩ := items_of_piece h hp hhead line
    refine ⟨[t], line + g.text.count '\n', ?_, ?_⟩
    · rw [hitems, items_of_blanks (isBlank_of_mem_gap g)]
      rfl
    · rw [List.map_singleton, hlexeme]
      rfl

/-- Drawn pieces are scanned to their tokens, in order. -/
theorem items_pairs {pairs : List (Piece × Gap)} (h : ∀ pair ∈ pairs, pair.1.Drawn) (line : Nat) :
    ∃ tokens : List Token, items line (pairs.flatMap pairText) = tokens.map Item.token ∧
      tokens.map (fun t => some t.lexeme.toList) =
        ((pairs.map Prod.fst).filter (!·.isComment)).map Piece.lexeme? := by
  induction pairs generalizing line with
  | nil => exact ⟨[], by simp [items], rfl⟩
  | cons pair pairs ih =>
    rw [List.forall_mem_cons] at h
    obtain ⟨tokens, line', hitems, htokens⟩ :=
      items_pairText h.1 pair.2 line (pairs.flatMap pairText)
    obtain ⟨more, hmore, hlexemes⟩ := ih h.2 line'
    refine ⟨tokens ++ more, ?_, ?_⟩
    · rw [List.flatMap_cons, hitems, hmore, List.map_append]
    · rw [List.map_append, htokens, hlexemes, List.map_cons, List.filter_cons]
      cases pair.1.isComment <;> rfl

/-- Random source reaches the length that is asked for and goes beyond it by less
than 25 bytes, whatever words are drawn. It is scanned without diagnostics, to one
token for each piece that is no comment, in order, and a check finds nothing. -/
theorem check_source {σ : Type} (word : Draw σ UInt32) (target : Nat) (s : σ) :
    let pairs := (source word target s).1
    let pieces := (pairs.map Prod.fst).filter (!·.isComment)
    let size := (Bytes.ofText (text pairs)).length
    (target ≤ size ∧ size < target + 25) ∧
      (∃ out, table.tokenize? (text pairs) = some out ∧ out.errors = [] ∧
        out.tokens.map (fun t => some t.lexeme.toList) = pieces.map Piece.lexeme?) ∧
      table.check (text pairs) = .ok pieces.length := by
  intro pairs pieces size
  obtain ⟨hdrawn, hle, hlt⟩ :
      (∀ pair ∈ pairs, pair.1.Drawn) ∧ target ≤ (pairs.flatMap pairText).length ∧
        (pairs.flatMap pairText).length < target + 25 :=
    sourceFrom_spec word s (by simp) rfl (by omega)
  have hsize : size = (pairs.flatMap pairText).length := by
    have hascii : ∀ c ∈ pairs.flatMap pairText, c.toNat ≤ 127 := by
      intro c hc
      obtain ⟨pair, hpair, hc⟩ := List.mem_flatMap.mp hc
      rcases List.mem_append.mp hc with hc | hc
      · exact (hdrawn pair hpair).ascii c hc
      · have hgap : ∀ g : Gap, ∀ c ∈ g.text, c.toNat ≤ 127 := by
          intro g
          apply Bytes.ascii_of_all
          cases g <;> rfl
        exact hgap pair.2 c hc
    show (Bytes.ofChars (String.ofList _).toList).length = _
    rw [String.toList_ofList, Bytes.ofChars_of_ascii hascii, List.length_map]
  obtain ⟨tokens, hitems, hlexemes⟩ := items_pairs hdrawn 1
  have hscan : table.tokenize (text pairs) = ⟨tokens, []⟩ := by
    rw [tokenize_eq_ofItems, text, String.toList_ofList, hitems, ofItems_map_token]
  refine ⟨⟨by omega, by omega⟩, ⟨_, Dfa.tokenize?_of_closed table_closed _, ?_, ?_⟩, ?_⟩
  · rw [hscan]
  · rw [hscan]
    exact hlexemes
  · have hcount := congrArg List.length hlexemes
    rw [List.length_map, List.length_map] at hcount
    rw [check_of_no_errors (by rw [hscan]), hscan, hcount]

end Fos

end Munch
