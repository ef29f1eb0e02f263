import SexprReader.Proofs.Grammar.Correspondence
import SexprReader.Proofs.Source.LineEnds

/-! Texts that differ in their line ends come to the same, but for strings and characters in which a
line end was written. The lexemes follow each other in step. A CR can be a character of its own, or
stand where a hash sequence is told by its character; then LF stands alone behind it, and is blank. -/

namespace SexprReader

open LineEnds

def Lexeme.joinLineEnds : Lexeme → Lexeme
  | .string literal => .string (join literal)
  | .character '\r' => .character '\n'
  | .fault (.unsupportedHash '\r') => .fault (.unsupportedHash '\n')
  | lexeme => lexeme

theorem Lexeme.joinLineEnds_character {c : Char} (plain : c ≠ '\r') :
    (character c).joinLineEnds = character c := by
  simp [joinLineEnds, plain]

theorem Lexeme.joinLineEnds_fault (reason : ReadFault) :
    ∃ reason', (fault reason).joinLineEnds = fault reason' ∧ reason'.kind = reason.kind := by
  unfold joinLineEnds
  split
  next same => cases same
  next same => cases same
  next same =>
    cases same
    exact ⟨_, rfl, rfl⟩
  next => exact ⟨_, rfl, rfl⟩

def Datum.joinLineEnds : Datum → Datum
  | .string s => .string (String.ofList (join s.toList))
  | .character codePoint => .character (if codePoint = '\r'.toNat then '\n'.toNat else codePoint)
  | d => d

def Obstacle.sort : Obstacle → ErrorKind ⊕ ValueFault
  | .fault reason => .inl reason.kind
  | .value reason => .inr reason

/-- Obstacles that lead to the same class of error. -/
def Obstacle.Alike (obstacle obstacle' : Obstacle) : Prop := obstacle.sort = obstacle'.sort

theorem Obstacle.Alike.refl (obstacle : Obstacle) : obstacle.Alike obstacle :=
  Eq.refl obstacle.sort

theorem Datum.keepsLists_joinLineEnds : Datum.KeepsLists Datum.joinLineEnds where
  nil := rfl
  marks _ := rfl
  dots d := by cases d <;> rfl

def PassesLineEnds {S : Type} (scan : S → Char → Option S) : Prop :=
  ∀ state, ∃ within behind, scan state '\r' = some within ∧ scan within '\n' = some behind ∧
    scan state '\n' = some behind

theorem Lexeme.passesLineEnds_scanString : PassesLineEnds scanString := by
  intro escaped
  cases escaped <;> exact ⟨false, false, rfl, rfl, rfl⟩

theorem Lexeme.passesLineEnds_scanBlock : PassesLineEnds scanBlock := by
  rintro ⟨inner, half⟩
  cases half with
  | none => exact ⟨⟨inner, none⟩, ⟨inner, none⟩, rfl, rfl, rfl⟩
  | some half => cases half <;> exact ⟨⟨inner, none⟩, ⟨inner, none⟩, rfl, rfl, rfl⟩

section

variable {text text' x y : List Char}

theorem PassesLineEnds.splitThrough {S : Type} {scan : S → Char → Option S}
    (passes : PassesLineEnds scan) (level : Level text text' x y) (state : S)
    (seen seen' : List Char) :
    splitThrough scan state seen x = none ∧ splitThrough scan state seen' y = none ∨
      ∃ body body' c rest rest', Delivers body body' ∧ Level text text' rest rest' ∧
        splitThrough scan state seen x = some (seen.reverse ++ body ++ [c], rest) ∧
        splitThrough scan state seen' y = some (seen'.reverse ++ body' ++ [c], rest') := by
  have delivers := level.delivers
  induction delivers generalizing state seen seen' with
  | nil => exact .inl ⟨rfl, rfl⟩
  | lineEnd _ ih =>
    obtain ⟨within, behind, cr, lf, alone⟩ := passes state
    simp only [SexprReader.splitThrough, cr, lf, alone]
    obtain none | ⟨body, body', c, rest, rest', inside, left, splits, splits'⟩ :=
      ih level.lineEnd behind ('\n' :: '\r' :: seen) ('\n' :: seen')
    · exact .inl none
    · refine .inr ⟨'\r' :: '\n' :: body, '\n' :: body', c, rest, rest', .lineEnd inside, left,
        ?_, ?_⟩
      · simp [splits]
      · simp [splits']
  | @other d _ _ plain _ ih =>
    simp only [SexprReader.splitThrough]
    cases next : scan state d with
    | none => exact .inr ⟨[], [], d, _, _, .nil, level.tail plain, by simp, by simp⟩
    | some behind =>
      obtain none | ⟨body, body', c, rest, rest', inside, left, splits, splits'⟩ :=
        ih (level.tail plain) behind (d :: seen) (d :: seen')
      · exact .inl none
      · refine .inr ⟨d :: body, d :: body', c, rest, rest', .other plain inside, left, ?_, ?_⟩
        · simp [splits]
        · simp [splits']

theorem LineEnds.Level.behindBlanks (level : Level text text' x y) (inComment : Bool) :
    behindBlanks inComment x = [] ∧ behindBlanks inComment y = [] ∨
      ∃ c rest rest', c ≠ '\r' ∧ behindBlanks inComment x = c :: rest ∧
        behindBlanks inComment y = c :: rest' ∧ Level text text' (c :: rest) (c :: rest') := by
  have delivers := level.delivers
  induction delivers generalizing inComment with
  | nil => cases inComment <;> exact .inl ⟨rfl, rfl⟩
  | lineEnd _ ih =>
    have behind := ih level.lineEnd false
    cases inComment <;> exact behind
  | @other c _ _ plain _ ih =>
    have behind := ih (level.tail plain)
    cases inComment with
    | true => exact behind (c != '\n')
    | false =>
      unfold SexprReader.behindBlanks
      split
      · exact behind false
      · split
        · exact behind true
        · exact .inr ⟨c, _, _, plain, rfl, rfl, level⟩

theorem LineEnds.Abreast.exists_level (abreast : Abreast text text' x y) :
    ∃ x' y', behindBlanks false x = behindBlanks false x' ∧
      behindBlanks false y = behindBlanks false y' ∧ Level text text' x' y' := by
  cases abreast with
  | even level => exact ⟨x, y, rfl, rfl, level⟩
  | @within inner _ level => exact ⟨inner, y, rfl, rfl, level.lineEnd⟩
  | @before inner inner' _ _ level _ _ => exact ⟨inner, inner', rfl, rfl, level.lineEnd⟩

theorem LineEnds.Level.dropLine {c : Char} (plain : c ≠ '\r') (inside : c ≠ '\n')
    (level : Level text text' (c :: x) (c :: y)) :
    Abreast text text' (x.dropWhile (· != '\n')) (y.dropWhile (· != '\n')) := by
  have delivers := (level.tail plain).delivers
  induction delivers generalizing c with
  | nil => exact .even (level.tail plain)
  | lineEnd _ _ =>
    have ⟨_, _, _, split', _, _⟩ := level
    exact .before (level.tail plain) split' inside
  | @other d _ _ plain' _ ih =>
    have behind := level.tail plain
    by_cases ends : d = '\n'
    · subst ends
      exact .even behind
    · have goes : (d != '\n') = true := bne_iff_ne.mpr ends
      rw [List.dropWhile_cons, if_pos goes, List.dropWhile_cons, if_pos goes]
      exact ih plain' ends behind

end

namespace Dialect

variable {dialect : Dialect} {text text' x y : List Char} {c : Char}

def InStep (text text' : List Char) (first second : Lexeme × List Char) : Prop :=
  second.1 = first.1.joinLineEnds ∧ Abreast text text' first.2 second.2

theorem joinLineEnds_named (plain : c ≠ '\r') (others : List Char) :
    (named c others).joinLineEnds = named c others := by
  unfold named
  split
  next c' _ known =>
    unfold Lexeme.namedCharacter? at known
    dsimp only at known
    split at known
    · cases known
      rfl
    · split at known
      · cases known
        rfl
      · cases known
  next => exact Lexeme.joinLineEnds_character plain
  next => rfl

theorem inStep_scanCharacter (level : Level text text' x y) :
    InStep text text' (scanCharacter x) (scanCharacter y) := by
  have delivers := level.delivers
  cases delivers with
  | nil => exact ⟨rfl, .even level⟩
  | lineEnd _ => exact ⟨rfl, .within level⟩
  | @other first x y plain others =>
    simp only [scanCharacter]
    by_cases letter : Lexeme.isLetter first
    · rw [if_pos letter, if_pos letter, others.takeWhile_eq rfl rfl]
      exact ⟨(joinLineEnds_named plain _).symm, .even ((level.tail plain).dropWhile rfl rfl)⟩
    · rw [if_neg letter, if_neg letter]
      exact ⟨(joinLineEnds_named plain []).symm, .even (level.tail plain)⟩

theorem inToken_return (dialect : Dialect) : dialect.inToken '\r' = false := by
  simp [inToken, Lexeme.isTerminator, Lexeme.isWhitespace]

theorem inStep_scanSequence (plain : c ≠ '\r') (level : Level text text' (c :: x) (c :: y)) :
    InStep text text' (dialect.scanSequence c x) (dialect.scanSequence c y) := by
  have behind := level.tail plain
  have delivers := behind.delivers
  unfold scanSequence
  split
  next shebang =>
    refine ⟨rfl, level.dropLine plain ?_⟩
    rintro rfl
    cases shebang
  next =>
    obtain ⟨none, none'⟩ | ⟨_, _, _, _, _, _, left, splits, splits'⟩ :=
      Lexeme.passesLineEnds_scanBlock.splitThrough behind ⟨0, none⟩ [] []
    · rw [none, none']
      exact ⟨rfl, .even behind.finish⟩
    · rw [splits, splits']
      exact ⟨rfl, .even left⟩
  next => exact ⟨rfl, .even behind⟩
  next => exact ⟨rfl, .even behind⟩
  next => exact inStep_scanCharacter behind
  next => exact ⟨rfl, .even behind⟩
  next =>
    refine ⟨?_, .even (behind.dropWhile dialect.inToken_return dialect.inToken_newline)⟩
    rw [delivers.takeWhile_eq dialect.inToken_return dialect.inToken_newline]
    rfl
  next => exact ⟨by simp [Lexeme.joinLineEnds, plain], .even behind⟩

theorem inStep_scanHash (level : Level text text' x y) :
    InStep text text' (dialect.scanHash x) (dialect.scanHash y) := by
  have behind := level.dropWhile (p := Lexeme.isExactness) rfl rfl
  have delivers := behind.delivers
  unfold scanHash
  generalize x.dropWhile Lexeme.isExactness = sequence,
    y.dropWhile Lexeme.isExactness = sequence' at behind delivers ⊢
  cases delivers with
  | nil => exact ⟨rfl, .even behind⟩
  | lineEnd _ => exact ⟨rfl, .within behind⟩
  | other plain _ => exact inStep_scanSequence plain behind

theorem inStep_scanStarted (plain : c ≠ '\r') (level : Level text text' (c :: x) (c :: y)) :
    InStep text text' (dialect.scanStarted c x) (dialect.scanStarted c y) := by
  have behind := level.tail plain
  have delivers := behind.delivers
  unfold scanStarted
  split
  next => exact ⟨rfl, .even behind⟩
  next =>
    cases delivers with
    | nil => exact ⟨rfl, .even behind⟩
    | lineEnd _ => exact ⟨rfl, .even behind⟩
    | @other d x y plain' _ =>
      by_cases splices : d = '@'
      · subst splices
        exact ⟨rfl, .even (behind.tail plain')⟩
      · simp only [List.head?_cons, Option.some_beq_some, beq_iff_eq, splices, if_false]
        exact ⟨rfl, .even behind⟩
  next => exact ⟨rfl, .even behind⟩
  next => exact inStep_scanHash behind
  next =>
    obtain ⟨none, none'⟩ | ⟨_, _, _, _, _, inside, left, splits, splits'⟩ :=
      Lexeme.passesLineEnds_scanString.splitThrough behind false [] []
    · rw [none, none']
      exact ⟨rfl, .even behind.finish⟩
    · rw [splits, splits']
      exact ⟨by simp [Lexeme.joinLineEnds, inside.join_eq], .even left⟩
  next =>
    refine ⟨?_, .even (behind.dropWhile dialect.inToken_return dialect.inToken_newline)⟩
    rw [delivers.takeWhile_eq dialect.inToken_return dialect.inToken_newline]
    rfl
  next => exact ⟨rfl, .even behind⟩

theorem inStep_scan (abreast : Abreast text text' x y) :
    InStep text text' (dialect.scan x) (dialect.scan y) := by
  obtain ⟨x', y', same, same', level⟩ := abreast.exists_level
  unfold scan
  rw [same, same']
  obtain ⟨ends, ends'⟩ | ⟨c, rest, rest', plain, behind, behind', left⟩ :=
    level.behindBlanks false
  · rw [ends, ends']
    exact ⟨rfl, .even level.finish⟩
  · rw [behind, behind']
    exact inStep_scanStarted plain left

end Dialect

namespace Convention

variable {conv : Convention}

theorem joinLineEnds_name (text : String) :
    (if conv.nilAlias = some text then .nil else .symbol text : Datum).mapLeaves
        Datum.joinLineEnds =
      if conv.nilAlias = some text then .nil else .symbol text := by
  split
  · exact Tree.mapLeaves_sentinel _
  · exact Tree.mapLeaves_symbol text

/-- What a lexeme means with its line ends joined is what it means, with its line ends joined. -/
theorem atom_joinLineEnds (verbatim : conv.interpretEscapes = false) {lexeme : Lexeme}
    {outcome : Outcome} (means : conv.atom lexeme = some outcome) :
    ∃ outcome', conv.atom lexeme.joinLineEnds = some outcome' ∧
      outcome.Resembles Datum.joinLineEnds Obstacle.Alike outcome' := by
  cases lexeme with
  | opening _ => cases means
  | endOfInput =>
    cases means
    exact ⟨_, rfl, .endOfInput⟩
  | comment =>
    cases means
    exact ⟨_, rfl, .comment⟩
  | constant constant =>
    cases means
    exact ⟨_, rfl, .of_eq (Tree.mapLeaves_sentinel _)⟩
  | token text =>
    cases means
    exact ⟨_, rfl, token_resembles (fun _ => rfl) .refl (joinLineEnds_name _)⟩
  | number radix digits =>
    cases means
    exact ⟨_, rfl, number_resembles (fun _ => rfl) .refl radix _⟩
  | string literal =>
    cases means
    refine ⟨_, rfl, .of_eq ?_⟩
    simp [string, verbatim, Datum.joinLineEnds]
  | character c =>
    cases means
    -- The return is the only character whose code is a line end.
    by_cases lineEnd : c = '\r'
    · subst lineEnd
      exact ⟨_, rfl, .of_eq (Tree.mapLeaves_character _)⟩
    · have other : (c.toNat : Int) ≠ '\r'.toNat := fun same =>
        lineEnd (Char.toNat_inj.mp (Int.ofNat_inj.mp same))
      refine ⟨_, congrArg conv.atom (Lexeme.joinLineEnds_character lineEnd), .of_eq ?_⟩
      rw [Tree.mapLeaves_character, Datum.joinLineEnds, if_neg other]
  | fault reason =>
    cases means
    obtain ⟨reason', joined, kind⟩ := Lexeme.joinLineEnds_fault reason
    rw [joined]
    exact ⟨_, rfl, .error (congrArg Sum.inl kind.symm)⟩

theorem corresponds_joinLineEnds (verbatim : conv.interpretEscapes = false)
    {text text' : List Char} (delivers : Delivers text text') :
    Corresponds conv conv Datum.joinLineEnds Obstacle.Alike (Abreast text text') where
  lists := Datum.keepsLists_joinLineEnds
  agree_refl := .refl
  ends := .even (Level.start delivers).finish
  blanks {x y} abreast := by
    obtain ⟨x', y', same, same', level⟩ := abreast.exists_level
    rw [same, same']
    obtain ends | ⟨c, rest, rest', plain, behind, behind', left⟩ := level.behindBlanks false
    · exact .inl ends
    · exact .inr ⟨c, rest, rest', behind, behind', .even (left.tail plain)⟩
  scans {x y lexeme rest} abreast scans := by
    have inStep : Dialect.InStep text text' (conv.dialect.scan x) (conv.dialect.scan y) :=
      Dialect.inStep_scan abreast
    rw [scans] at inStep
    obtain ⟨joined, left⟩ := inStep
    refine ⟨(conv.dialect.scan y).1, (conv.dialect.scan y).2, rfl, left, ?_⟩
    rw [joined]
    exact opens_or_means (fun _ same => congrArg Lexeme.joinLineEnds same) fun _ =>
      atom_joinLineEnds verbatim

end Convention

end SexprReader
