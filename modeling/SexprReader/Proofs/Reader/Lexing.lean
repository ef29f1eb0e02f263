import SexprReader.Proofs.Reader.Moments
import SexprReader.Proofs.Reader.Scan

namespace SexprReader

open ReadM Lexeme

variable {σ V : Type}

namespace Dialect

variable (dialect : Dialect)

def takeCharacter : ReadM σ Lexeme := do
  match ← nextChar with
  | none => return .fault (.endOfInput .character)
  | some first => return named first (← Context.readName first)

def takeSequence (c : Char) : ReadM σ Lexeme := do
  let _ ← nextChar
  match dialect.hashStarter c with
  | .shebang =>
    Context.skipLine
    return .comment
  | .blockComment =>
    match ← takeThrough scanBlock ⟨0, none⟩ with
    | some _ => return .comment
    | none => return .fault (.endOfInput .blockComment)
  | .datumComment => return .opening .datumComment
  | .vector => return .opening (.list .vector)
  | .character => takeCharacter
  | .constant kind => return .constant kind
  | .radix radix => return .number radix (← ReadM.takeWhile dialect.inToken)
  | .unknown => return .fault (.unsupportedHash c)

def takeHash : ReadM σ Lexeme := do
  let _ ← ReadM.takeWhile isExactness
  match ← peekChar with
  | none => return .fault (.endOfInput .hash)
  | some c =>
    if c == '!' then reportHere .shebangComment
    dialect.takeSequence c

def takeStarted (c : Char) : ReadM σ Lexeme := do
  match Starter.ofChar dialect.bracketLists c with
  | .mark mark => return .opening (.quoted mark)
  | .comma =>
    if (← peekChar) == some '@' then
      let _ ← nextChar
      return .opening (.quoted .unquoteSplicing)
    else
      return .opening (.quoted .unquote)
  | .list bracket => return .opening (.list bracket)
  | .hash => dialect.takeHash
  | .string =>
    match ← takeThrough scanString false with
    | some literal => return .string literal.dropLast
    | none => return .fault (.endOfInput .string)
  | .token => return .token (c :: (← ReadM.takeWhile dialect.inToken))
  | .nothing => return .fault (.unexpectedCharacter c)

/-- Takes the next lexeme, past blanks and line comments. -/
def take : ReadM σ Lexeme := do
  match ← Context.skipBlanks with
  | none => return .endOfInput
  | some c =>
    let _ ← nextChar
    reportHere (.dispatching c)
    dialect.takeStarted c

theorem takeCharacter_becomes (host : σ) (text : List Char) :
    takeCharacter.Becomes host text (pure (scanCharacter text).1) host (scanCharacter text).2 := by
  cases text with
  | nil => exact (nextChar_becomes_none host).pure_bind (.refl _ host [])
  | cons first text =>
    refine (nextChar_becomes host text first).pure_bind ?_
    simp only [Context.readName, scanCharacter]
    split
    · exact (takeWhile_becomes host text _).pure_bind (.refl _ host _)
    · exact .refl _ host text

variable (host : σ)

theorem takeSequence_becomes (c : Char) (text : List Char) :
    (dialect.takeSequence c).Becomes host (c :: text) (pure (dialect.scanSequence c text).1) host
      (dialect.scanSequence c text).2 := by
  refine (nextChar_becomes host text c).pure_bind ?_
  unfold scanSequence
  cases dialect.hashStarter c with
  | shebang => exact (Context.skipLine_becomes host text).pure_bind (.refl _ host _)
  | blockComment =>
    dsimp only
    cases splits : splitThrough scanBlock ⟨0, none⟩ [] text with
    | none => exact (takeThrough_becomes_none host splits).pure_bind (.refl _ host _)
    | some split =>
      obtain ⟨taken, rest⟩ := split
      exact (takeThrough_becomes host splits).pure_bind (.refl _ host rest)
  | datumComment => exact .refl _ host text
  | vector => exact .refl _ host text
  | character => exact takeCharacter_becomes host text
  | constant kind => exact .refl _ host text
  | radix radix => exact (takeWhile_becomes host text _).pure_bind (.refl _ host _)
  | unknown => exact .refl _ host text

theorem takeHash_becomes (text : List Char) :
    dialect.takeHash.Becomes host text (pure (dialect.scanHash text).1) host
      (dialect.scanHash text).2 := by
  refine (takeWhile_becomes host text _).pure_bind ((peekChar_becomes host _).pure_bind ?_)
  unfold scanHash
  cases text.dropWhile isExactness with
  | nil => exact .refl _ host []
  | cons c rest =>
    dsimp only [List.head?_cons]
    split
    · exact (reportHere_becomes host _ _).pure_bind (dialect.takeSequence_becomes host c rest)
    · exact dialect.takeSequence_becomes host c rest

theorem takeStarted_becomes (c : Char) (text : List Char) :
    (dialect.takeStarted c).Becomes host text (pure (dialect.scanStarted c text).1) host
      (dialect.scanStarted c text).2 := by
  unfold takeStarted scanStarted
  cases Starter.ofChar dialect.bracketLists c with
  | mark mark => exact .refl _ host text
  | comma =>
    refine (peekChar_becomes host text).pure_bind ?_
    split
    next splicing =>
      obtain ⟨text, rfl⟩ := List.head?_eq_some_iff.mp (eq_of_beq splicing)
      exact (nextChar_becomes host text '@').pure_bind (.refl _ host text)
    next => exact .refl _ host text
  | list bracket => exact .refl _ host text
  | hash => exact dialect.takeHash_becomes host text
  | string =>
    dsimp only
    cases splits : splitThrough scanString false [] text with
    | none => exact (takeThrough_becomes_none host splits).pure_bind (.refl _ host _)
    | some split =>
      obtain ⟨taken, rest⟩ := split
      exact (takeThrough_becomes host splits).pure_bind (.refl _ host rest)
  | token => exact (takeWhile_becomes host text _).pure_bind (.refl _ host _)
  | nothing => exact .refl _ host text

theorem take_becomes (text : List Char) :
    dialect.take.Becomes host text (pure (dialect.scan text).1) host (dialect.scan text).2 := by
  refine (Context.skipBlanks_becomes host text).pure_bind ?_
  unfold scan
  cases behindBlanks false text with
  | nil => exact .refl _ host []
  | cons c rest =>
    exact (nextChar_becomes host rest c).pure_bind
      ((reportHere_becomes host _ _).pure_bind (dialect.takeStarted_becomes host c rest))

end Dialect

namespace Context

variable (ctx : Context σ V) (hook : Option (Hook σ V)) (readForm : ReadM σ V)

theorem makeNamed_eq (first : Char) (others : List Char) :
    (do return .whole (← ctx.makeNamed first others) : ReadM σ (FormStart V)) =
      ctx.performWith hook readForm (Dialect.named first others) := by
  unfold makeNamed Dialect.named
  cases namedCharacter? (first :: others) with
  | some named => rfl
  | none =>
    cases others with
    | nil => rfl
    | cons _ _ => exact ctx.fail_bind _ _

theorem readCharacter_eq :
    (do return .whole (← ctx.readCharacter) : ReadM σ (FormStart V)) =
      Dialect.takeCharacter >>= ctx.performWith hook readForm := by
  simp only [readCharacter, Dialect.takeCharacter, bind_assoc]
  congr 1
  funext next
  cases next with
  | none => exact ctx.fail_bind _ _
  | some first =>
    simp only [bind_assoc, pure_bind, makeNamed_eq ctx hook readForm]

theorem readSequence_eq (c : Char) :
    ctx.readSequence hook readForm c =
      ctx.dialect.takeSequence c >>= ctx.performWith hook readForm := by
  simp only [readSequence, Dialect.takeSequence, bind_assoc, hashStarter_eq]
  congr 1
  funext _
  cases ctx.dialect.hashStarter c with
  | shebang => simp [performWith, perform]
  | blockComment =>
    simp only [skipBlockComment, bind_assoc]
    congr 1
    funext taken
    cases taken with
    | none => exact ctx.fail_bind _ _
    | some _ => rfl
  | datumComment => rfl
  | vector => rfl
  | character => exact ctx.readCharacter_eq hook readForm
  | constant kind => rfl
  | radix radix =>
    simp only [readRadixNumber, bind_assoc, pure_bind]
    rfl
  | unknown => rfl

theorem readHash_eq :
    ctx.readHash hook readForm = ctx.dialect.takeHash >>= ctx.performWith hook readForm := by
  simp only [readHash, Dialect.takeHash, bind_assoc]
  congr 1
  funext _
  congr 1
  funext next
  cases next with
  | none => rfl
  | some c =>
    dsimp only
    split
    · simp only [bind_assoc, readSequence_eq]
    · simp only [readSequence_eq]

theorem readStarted_eq (c : Char) :
    ctx.readStarted hook readForm c =
      ctx.dialect.takeStarted c >>= ctx.performWith hook readForm := by
  simp only [readStarted, Dialect.takeStarted]
  rw [show ctx.dialect.bracketLists = ctx.bracketLists from rfl]
  cases Starter.ofChar ctx.bracketLists c with
  | mark mark => rfl
  | comma =>
    simp only [bind_assoc]
    congr 1
    funext next
    split
    · simp only [bind_assoc]
      rfl
    · rfl
  | list bracket => rfl
  | hash => exact ctx.readHash_eq hook readForm
  | string =>
    simp only [readString, bind_assoc]
    congr 1
    funext taken
    cases taken with
    | none => exact ctx.fail_bind _ _
    | some literal => rfl
  | token =>
    simp only [readToken, bind_assoc, pure_bind]
    rfl
  | nothing => rfl

/-- The start of a form is the next lexeme of the source, and what the host makes of it. -/
theorem readDatum_eq :
    ctx.readDatum hook readForm = ctx.dialect.take >>= ctx.performWith hook readForm := by
  simp only [readDatum, Dialect.take, bind_assoc]
  congr 1
  funext next
  cases next with
  | none => rfl
  | some c => simp only [bind_assoc, readStarted_eq]

theorem readDatum_becomes (host : σ) (readForm : ReadM σ V) (text : List Char) :
    (ctx.readDatum none readForm).Becomes host text
      (ctx.perform (ctx.dialect.scan text).1) host (ctx.dialect.scan text).2 := by
  rw [readDatum_eq, performWith_none]
  exact (ctx.dialect.take_becomes host text).pure_bind (.refl _ host _)

end Context

/-- What a list begins with: its first pair, or the empty list. -/
def Spine.head (nil : V) : Spine V → V
  | .empty => nil
  | .growing head _ | .dotted head _ | .sealed head _ => head

/-- A list is closed by handing its head over, to the host or to whoever waits for it. -/
theorem Context.close_eq (ctx : Context σ V) (bracket : Bracket) (spine : Spine V) :
    ctx.close bracket spine =
      if bracket = .vector then hosted (ctx.host.listToVector (spine.head ctx.host.nil))
      else pure (spine.head ctx.host.nil) := by
  cases bracket <;> cases spine <;> rfl

/-- What the innermost open form may be followed by. -/
inductive Expected where
  | part
  | partOrCloser (bracket : Bracket)
  | closer (bracket : Bracket)
deriving DecidableEq, Repr

def ReadFault.IsOwn : ReadFault → Prop
  | .unsupportedHash _ | .custom _ _ => False
  | _ => True

inductive Found where
  | part (lexeme : Lexeme)
  | closer
  | fault (reason : ReadFault)
deriving DecidableEq, Repr

def Stack.expected : Stack V → Expected
  | .list bracket (.sealed _ _) :: _ => .closer bracket
  | .list _ (.dotted _ _) :: _ => .part
  | .list bracket _ :: _ => .partOrCloser bracket
  | _ => .part

def Dialect.takeTurn (dialect : Dialect) : Expected → ReadM σ Found
  | .part => return .part (← dialect.take)
  | .partOrCloser bracket => do
    match ← Context.skipBlanks with
    | none => return .fault (.endOfInput bracket.openForm)
    | some c =>
      if c == bracket.closer then
        let _ ← nextChar
        return .closer
      else
        return .part (← dialect.take)
  | .closer bracket => do
    match ← Context.skipBlanks with
    | none => return .fault (.endOfInput bracket.openForm)
    | some c =>
      let _ ← nextChar
      if c == bracket.closer then return .closer
      else return .fault (.afterDottedTail bracket.closer c)

/-- What a turn finds in a text, and the text behind it. -/
def Dialect.scanTurn (dialect : Dialect) : Expected → List Char → Found × List Char
  | .part, text => ((dialect.scan text).map .part id)
  | .partOrCloser bracket, text =>
    match behindBlanks false text with
    | [] => (.fault (.endOfInput bracket.openForm), [])
    | c :: rest =>
      if c == bracket.closer then (.closer, rest) else (dialect.scan text).map .part id
  | .closer bracket, text =>
    match behindBlanks false text with
    | [] => (.fault (.endOfInput bracket.openForm), [])
    | c :: rest =>
      if c == bracket.closer then (.closer, rest)
      else (.fault (.afterDottedTail bracket.closer c), rest)

theorem Dialect.takeTurn_becomes (dialect : Dialect) (expected : Expected) (host : σ)
    (text : List Char) :
    (dialect.takeTurn expected).Becomes host text (pure (dialect.scanTurn expected text).1) host
      (dialect.scanTurn expected text).2 := by
  cases expected with
  | part => exact (dialect.take_becomes host text).pure_bind (.refl _ host _)
  | partOrCloser bracket =>
    refine (Context.skipBlanks_becomes host text).pure_bind ?_
    have again : dialect.scan (behindBlanks false text) = dialect.scan text := by
      rw [scan, behindBlanks_idem, scan]
    simp only [scanTurn]
    cases blanks : behindBlanks false text with
    | nil => exact .refl _ host []
    | cons c rest =>
      rw [blanks] at again
      rw [← again]
      dsimp only [List.head?_cons]
      split
      · exact (nextChar_becomes host rest c).pure_bind (.refl _ host rest)
      · exact (dialect.take_becomes host (c :: rest)).pure_bind (.refl _ host _)
  | closer bracket =>
    refine (Context.skipBlanks_becomes host text).pure_bind ?_
    simp only [scanTurn]
    cases behindBlanks false text with
    | nil => exact .refl _ host []
    | cons c rest =>
      refine (nextChar_becomes host rest c).pure_bind ?_
      dsimp only
      split <;> exact .refl _ host rest

namespace Context

/-- What the host is called for in a turn. -/
def answer (ctx : Context σ V) (stack : Stack V) : Found → ReadM σ (Progress V)
  | .part lexeme => ctx.perform lexeme >>= ctx.finishPart stack
  | .fault reason => ctx.fail reason
  | .closer =>
    match stack with
    | .list bracket spine :: outer => do ctx.complete outer (some (← ctx.close bracket spine))
    | stack => pure (.pending stack)

def answerWith (ctx : Context σ V) (hook : Option (Hook σ V)) (readForm : ReadM σ V)
    (stack : Stack V) : Found → ReadM σ (Progress V)
  | .part lexeme => ctx.performWith hook readForm lexeme >>= ctx.finishPart stack
  | found => ctx.answer stack found

theorem answerWith_none (ctx : Context σ V) (readForm : ReadM σ V) (stack : Stack V) :
    ctx.answerWith none readForm stack = ctx.answer stack := by
  funext found
  cases found with
  | part lexeme => simp only [answerWith, performWith_none, answer]
  | _ => rfl

theorem step_eq (ctx : Context σ V) (hook : Option (Hook σ V)) (readForm : ReadM σ V)
    (stack : Stack V) :
    ctx.step hook readForm stack =
      ctx.dialect.takeTurn stack.expected >>= ctx.answerWith hook readForm stack := by
  -- In front of a part both sides are the same work, and a list that takes members only looks for
  -- its closing bracket before.
  have part : ctx.readPart hook readForm stack =
      ctx.dialect.takeTurn .part >>= ctx.answerWith hook readForm stack := by
    rw [readPart_eq, readDatum_eq]
    simp only [Dialect.takeTurn, bind_assoc, pure_bind, answerWith]
  have members (bracket : Bracket) (spine : Spine V) (outer : Stack V)
      (same : stack = .list bracket spine :: outer) (takes : spine.TakesMembers) :
      ctx.step hook readForm stack =
        ctx.dialect.takeTurn (.partOrCloser bracket) >>= ctx.answerWith hook readForm stack := by
    subst same
    rw [step_of_takesMembers bracket outer takes]
    simp only [Dialect.takeTurn, bind_assoc]
    congr 1
    funext next
    cases next with
    | none => rfl
    | some c =>
      dsimp only
      split
      · simp only [bind_assoc]
        rfl
      · exact part
  cases stack with
  | nil => exact part
  | cons frame outer =>
    cases frame with
    | quoted mark symbol => exact part
    | datumComment => exact part
    | list bracket spine =>
      cases spine with
      | empty => exact members bracket .empty outer rfl trivial
      | growing head last => exact members bracket (.growing head last) outer rfl trivial
      | dotted head last => exact part
      | «sealed» head last =>
        simp only [step, Stack.expected, Dialect.takeTurn, bind_assoc]
        congr 1
        funext next
        cases next with
        | none => rfl
        | some c =>
          simp only [bind_assoc]
          congr 1
          funext _
          split <;> rfl

theorem turn_eq (ctx : Context σ V) (stack : Stack V) :
    ctx.turn stack = ctx.dialect.takeTurn stack.expected >>= ctx.answer stack := by
  rw [turn, step_eq, answerWith_none]

end Context

end SexprReader
