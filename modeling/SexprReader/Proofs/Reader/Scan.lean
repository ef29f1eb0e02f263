import SexprReader.Proofs.Reader.Course

/-! What the characters of a text are taken for before any value is made of them. The scanner is a
function of the text alone, and what the host is called for depends on the lexeme alone. -/

namespace SexprReader

open ReadM

def behindBlanks : (inComment : Bool) → List Char → List Char
  | _, [] => []
  | true, c :: text => behindBlanks (c != '\n') text
  | false, c :: text =>
    if Lexeme.isWhitespace c then behindBlanks false text
    else if c == ';' then behindBlanks true text
    else c :: text

inductive Opening where
  | quoted (mark : QuoteMark)
  | list (bracket : Bracket)
  | datumComment
deriving DecidableEq, Repr

/-- The first thing a text has to offer. -/
inductive Lexeme where
  | endOfInput
  | comment
  | opening (opening : Opening)
  | constant (constant : Constant)
  | token (text : List Char)
  | number (radix : Nat) (digits : List Char)
  | string (literal : List Char)
  | character (c : Char)
  | fault (fault : ReadFault)
deriving DecidableEq, Repr

/-- All that matters for the division of a text into lexemes. -/
structure Dialect where
  bracketLists : Bool
  supports : Constant → Bool

def Dialect.hashStarter (dialect : Dialect) (c : Char) : HashStarter Constant :=
  match c with
  | '!' => .shebang
  | '|' => .blockComment
  | ';' => .datumComment
  | '(' => .vector
  | '\\' => .character
  | _ =>
    match (Constant.ofChar? c).filter dialect.supports, Lexeme.radix? c with
    | some constant, _ => .constant constant
    | none, some radix => .radix radix
    | none, none => .unknown

namespace Dialect

open Lexeme

variable (dialect : Dialect)

def inToken (c : Char) : Bool := !isTerminator dialect.bracketLists c

def named (first : Char) (others : List Char) : Lexeme :=
  match namedCharacter? (first :: others), others with
  | some named, _ => .character named
  | none, [] => .character first
  | none, _ :: _ => .fault (.unknownCharacter (String.ofList (first :: others)))

def scanCharacter : List Char → Lexeme × List Char
  | [] => (.fault (.endOfInput .character), [])
  | first :: text =>
    if isLetter first then (named first (text.takeWhile isLetter), text.dropWhile isLetter)
    else (named first [], text)

def scanSequence (c : Char) (text : List Char) : Lexeme × List Char :=
  match dialect.hashStarter c with
  | .shebang => (.comment, text.dropWhile (· != '\n'))
  | .blockComment =>
    match splitThrough scanBlock ⟨0, none⟩ [] text with
    | some (_, rest) => (.comment, rest)
    | none => (.fault (.endOfInput .blockComment), [])
  | .datumComment => (.opening .datumComment, text)
  | .vector => (.opening (.list .vector), text)
  | .character => scanCharacter text
  | .constant kind => (.constant kind, text)
  | .radix radix =>
    (.number radix (text.takeWhile dialect.inToken), text.dropWhile dialect.inToken)
  | .unknown => (.fault (.unsupportedHash c), text)

def scanHash (text : List Char) : Lexeme × List Char :=
  match text.dropWhile isExactness with
  | [] => (.fault (.endOfInput .hash), [])
  | c :: rest => dialect.scanSequence c rest

def scanStarted (c : Char) (text : List Char) : Lexeme × List Char :=
  match Starter.ofChar dialect.bracketLists c with
  | .mark mark => (.opening (.quoted mark), text)
  | .comma =>
    if text.head? == some '@' then (.opening (.quoted .unquoteSplicing), text.tail)
    else (.opening (.quoted .unquote), text)
  | .list bracket => (.opening (.list bracket), text)
  | .hash => dialect.scanHash text
  | .string =>
    match splitThrough scanString false [] text with
    | some (literal, rest) => (.string literal.dropLast, rest)
    | none => (.fault (.endOfInput .string), [])
  | .token => (.token (c :: text.takeWhile dialect.inToken), text.dropWhile dialect.inToken)
  | .nothing => (.fault (.unexpectedCharacter c), text)

def scan (text : List Char) : Lexeme × List Char :=
  match behindBlanks false text with
  | [] => (.endOfInput, [])
  | c :: rest => dialect.scanStarted c rest

end Dialect

theorem splitThrough_replace {S : Type} {scan : S → Char → Option S} {state : S}
    {seen first taken rest : List Char}
    (splits : splitThrough scan state seen (first ++ rest) = some (taken, rest))
    (rest' : List Char) : splitThrough scan state seen (first ++ rest') = some (taken, rest') := by
  induction first generalizing state seen with
  | nil =>
    -- Nothing would be taken, but the character at which a scanner stops always is.
    have shorter (state : S) (seen text : List Char)
        (splits : splitThrough scan state seen text = some (taken, rest)) :
        rest.length < text.length := by
      induction text generalizing state seen with
      | nil => cases splits
      | cons c text ih =>
        unfold splitThrough at splits
        split at splits
        · cases splits
          simp
        · exact Nat.lt_of_lt_of_le (ih _ _ splits) (by simp)
    exact absurd (shorter state seen rest splits) (by simp)
  | cons c first ih =>
    simp only [List.cons_append, splitThrough] at splits ⊢
    cases next : scan state c with
    | none =>
      simp only [next, Option.some.injEq, Prod.mk.injEq] at splits ⊢
      obtain ⟨rfl, nothing⟩ := splits
      have empty : first = [] := by simpa using nothing
      simp [empty]
    | some state' =>
      simp only [next] at splits ⊢
      exact ih splits

theorem behindBlanks_comment (text : List Char) :
    behindBlanks true text = behindBlanks false (text.dropWhile (· != '\n')) := by
  induction text with
  | nil => rfl
  | cons c text ih =>
    by_cases newline : c = '\n'
    · subst newline
      rfl
    · have inside : (c != '\n') = true := bne_iff_ne.mpr newline
      rw [behindBlanks, inside, ih, List.dropWhile_cons, if_pos inside]

theorem behindBlanks_eq (text : List Char) :
    behindBlanks false text =
      match text.dropWhile Lexeme.isWhitespace with
      | ';' :: rest => behindBlanks false (rest.dropWhile (· != '\n'))
      | rest => rest := by
  induction text with
  | nil => rfl
  | cons c text ih =>
    by_cases blank : Lexeme.isWhitespace c
    · simp [behindBlanks, blank, ih]
    · by_cases semicolon : c = ';'
      · subst semicolon
        simp [behindBlanks, blank, behindBlanks_comment]
      · simp [behindBlanks, blank, semicolon]

theorem behindBlanks_suffix (inComment : Bool) (text : List Char) :
    behindBlanks inComment text <:+ text := by
  induction text generalizing inComment with
  | nil => simp [behindBlanks]
  | cons c text ih =>
    have further (inComment : Bool) : behindBlanks inComment text <:+ c :: text :=
      (ih inComment).trans (List.suffix_cons c text)
    cases inComment with
    | true => exact further _
    | false =>
      unfold behindBlanks
      split
      · exact further _
      · split
        · exact further _
        · exact List.suffix_rfl

theorem of_behindBlanks_eq_cons {inComment : Bool} {text rest : List Char} {c : Char}
    (blanks : behindBlanks inComment text = c :: rest) : Lexeme.isWhitespace c = false ∧ c ≠ ';' := by
  induction text generalizing inComment with
  | nil => cases inComment <;> cases blanks
  | cons d text ih =>
    cases inComment with
    | true => exact ih blanks
    | false =>
      unfold behindBlanks at blanks
      split at blanks
      · exact ih blanks
      next solid =>
        split at blanks
        · exact ih blanks
        next other =>
          cases blanks
          exact ⟨by simpa using solid, by simpa using other⟩

theorem behindBlanks_blank {c : Char} (blank : Lexeme.isWhitespace c = true) (text : List Char) :
    behindBlanks false (c :: text) = behindBlanks false text := by
  simp [behindBlanks, blank]

theorem behindBlanks_idem (text : List Char) :
    behindBlanks false (behindBlanks false text) = behindBlanks false text := by
  cases blanks : behindBlanks false text with
  | nil => rfl
  | cons c rest =>
    obtain ⟨solid, other⟩ := of_behindBlanks_eq_cons blanks
    simp [behindBlanks, solid, other]

namespace Context

open Lexeme

variable {σ V : Type}

def dialect (ctx : Context σ V) : Dialect where
  bracketLists := ctx.bracketLists
  supports constant := (ctx.host.constant? constant).isSome

def frameOf (ctx : Context σ V) : Opening → Frame V
  | .quoted mark => .quoted mark (ctx.quoteSymbol mark)
  | .list bracket => .list bracket .empty
  | .datumComment => .datumComment

def perform (ctx : Context σ V) : Lexeme → ReadM σ (FormStart V)
  | .endOfInput => pure .endOfInput
  | .comment => pure .comment
  | .opening start => pure (.opening (ctx.frameOf start))
  | .constant kind => pure (.whole ((ctx.host.constant? kind).getD ctx.host.false))
  | .token text => return .whole (← ctx.makeToken (String.ofList text))
  | .number radix digits => return .whole (← ctx.makeNumber radix (String.ofList digits))
  | .string literal => return .whole (← ctx.makeString (String.ofList literal))
  | .character c => return .whole (← hosted (ctx.host.makeCharacter c.toNat))
  | .fault reason => ctx.fail reason

def performWith (ctx : Context σ V) (hook : Option (Hook σ V)) (readForm : ReadM σ V) :
    Lexeme → ReadM σ (FormStart V)
  | .fault (.unsupportedHash c) => ctx.readUnknownHash hook readForm c
  | lexeme => ctx.perform lexeme

theorem performWith_none (ctx : Context σ V) (readForm : ReadM σ V) :
    ctx.performWith none readForm = ctx.perform := by
  funext lexeme
  unfold performWith
  split <;> rfl

variable (ctx : Context σ V) (host : σ)

theorem skipLine_becomes (text : List Char) :
    skipLine.Becomes host text (pure ()) host (text.dropWhile (· != '\n')) :=
  (takeWhile_becomes host text _).pure_bind (.refl _ host _)

theorem skipBlanksWithin_becomes {bound text : List Char} (enough : text.length ≤ bound.length) :
    (skipBlanksWithin bound).Becomes host text (pure (behindBlanks false text).head?) host
      (behindBlanks false text) := by
  induction bound generalizing text with
  | nil =>
    have empty : text = [] := by simpa using enough
    subst empty
    exact peekChar_becomes host []
  | cons _ bound ih =>
    rw [behindBlanks_eq]
    refine (takeWhile_becomes host text _).pure_bind ((peekChar_becomes host _).pure_bind ?_)
    have shorter : (text.dropWhile isWhitespace).length ≤ text.length :=
      (List.dropWhile_suffix _).length_le
    cases dropped : text.dropWhile isWhitespace with
    | nil => exact .refl _ host []
    | cons c rest =>
      rw [dropped] at shorter
      by_cases semicolon : c = ';'
      · subst semicolon
        have behind : (rest.dropWhile (· != '\n')).length ≤ rest.length :=
          (List.dropWhile_suffix _).length_le
        simp only [List.length_cons] at shorter enough
        refine (reportHere_becomes host _ _).pure_bind ((skipLine_becomes host _).pure_bind ?_)
        exact ih (by simpa using by omega)
      · simp [semicolon]
        exact .refl _ host _

theorem skipBlanks_becomes (text : List Char) :
    skipBlanks.Becomes host text (pure (behindBlanks false text).head?) host
      (behindBlanks false text) := by
  intro s stands
  have enough : text.length ≤ s.source.remaining.length := by
    simp [stands.remaining]
  exact skipBlanksWithin_becomes host enough s stands

theorem hashStarter_eq (c : Char) :
    ctx.hashStarter c =
      match ctx.dialect.hashStarter c with
      | .shebang => .shebang
      | .blockComment => .blockComment
      | .datumComment => .datumComment
      | .vector => .vector
      | .character => .character
      | .constant kind => .constant ((ctx.host.constant? kind).getD ctx.host.false)
      | .radix radix => .radix radix
      | .unknown => .unknown := by
  unfold hashStarter Dialect.hashStarter
  split
  · rfl
  · rfl
  · rfl
  · rfl
  · rfl
  · simp only [dialect]
    cases Constant.ofChar? c with
    | none => cases radix? c <;> rfl
    | some kind =>
      cases value : ctx.host.constant? kind with
      | none => cases radix? c <;> simp [value, Option.filter]
      | some v => simp [value, Option.filter]

end Context

end SexprReader
