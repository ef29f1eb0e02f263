import SexprReader.Proofs.Grammar.Contents
import SexprReader.Proofs.Grammar.Names
import SexprReader.Proofs.Value.Written

namespace SexprReader

namespace Datum

/-- The dot is not where the reader would take it for the announcement of a tail. -/
def DotsInPlace : Datum → Prop
  | .pair first _ => isDot first = false
  | .vector elements => ∀ d ∈ elements, isDot d = false
  | _ => True

/-- A part of a value that is read from the text it is written as. -/
def Legible (bracketLists : Bool) : Datum → Prop
  | .sentinel s => s = .nil ∨ s = .true ∨ s = .false
  | .symbol name => Lexeme.isName bracketLists name.toList = true
  | .integer n => n.natAbs < Nat.pow 10 printedDigitLimit
  | .character codePoint => ∃ c : Char, codePoint = c.toNat
  | .string _ | .null => False
  | d => d.DotsInPlace

/-- A part that the reader can come to, apart from where its dots are. -/
def Readable (bracketLists : Bool) : Datum → Prop
  | .sentinel s => s ≠ .endOfStream
  | .symbol name => Lexeme.isName bracketLists name.toList = true
  | .character codePoint => ∃ c : Char, codePoint = c.toNat
  | .null => False
  | _ => True

/-- A part that is not written in another way than it is read: no string, no constant without a text
of its own, no integer that is too long, and no dot out of place. -/
def Faithful : Datum → Prop
  | .string _ => False
  | .sentinel s => s ≠ .unspecified ∧ s ≠ .logicalEof
  | .integer n => n.natAbs < Nat.pow 10 printedDigitLimit
  | d => d.DotsInPlace

theorem legible_of_readable {bracketLists : Bool} {d : Datum} (readable : d.Readable bracketLists)
    (faithful : d.Faithful) : d.Legible bracketLists := by
  cases d with
  | sentinel s =>
    obtain ⟨known, known'⟩ := faithful
    cases s with
    | nil => exact .inl rfl
    | true => exact .inr (.inl rfl)
    | false => exact .inr (.inr rfl)
    | unspecified => exact absurd rfl known
    | endOfStream => exact absurd rfl readable
    | logicalEof => exact absurd rfl known'
  | null => exact readable.elim
  | symbol name => exact readable
  | string s => exact faithful.elim
  | integer n => exact faithful
  | character codePoint => exact readable
  | pair first rest => exact faithful
  | vector elements => exact faithful

end Datum

section Characters

variable {conv : Convention} {more : List Char}

theorem Lexeme.isLetter_of_not_inToken {dialect : Dialect} {c : Char}
    (outside : dialect.inToken c = false) : isLetter c = false := by
  simp only [Dialect.inToken, isTerminator, isWhitespace, Bool.not_eq_false', Bool.or_eq_true,
    Bool.and_eq_true, beq_iff_eq] at outside
  rcases outside with ((((rfl | rfl) | rfl) | rfl) |
    (((((rfl | rfl) | rfl) | rfl) | rfl) | rfl)) | ⟨-, rfl | rfl⟩ <;> decide

theorem Dialect.Bounds.letters {dialect : Dialect} (bounds : dialect.Bounds more) :
    more.takeWhile Lexeme.isLetter = [] ∧ more.dropWhile Lexeme.isLetter = more := by
  cases more with
  | nil => exact ⟨rfl, rfl⟩
  | cons c more => simp [Lexeme.isLetter_of_not_inToken (bounds c rfl)]

theorem Dialect.named_single (c : Char) : Dialect.named c [] = .character c := by
  have unnamed : Lexeme.namedCharacter? [c] = none := by
    simp [Lexeme.namedCharacter?]
  simp [named, unnamed]

theorem Dialect.scanCharacter_single {dialect : Dialect} (c : Char) (bounds : dialect.Bounds more) :
    scanCharacter (c :: more) = (.character c, more) := by
  simp only [scanCharacter, bounds.letters, named_single]
  split <;> rfl

theorem Dialect.scanCharacter_named {dialect : Dialect} {first c : Char} {others : List Char}
    (letters : (first :: others).all Lexeme.isLetter = true)
    (named : Lexeme.namedCharacter? (first :: others) = some c) (bounds : dialect.Bounds more) :
    scanCharacter (first :: others ++ more) = (.character c, more) := by
  rw [List.all_cons, Bool.and_eq_true] at letters
  have all := List.all_eq_true.mp letters.2
  simp only [List.cons_append, scanCharacter, letters.1, if_true, Dialect.named,
    List.takeWhile_append_of_pos all, List.dropWhile_append_of_pos all, bounds.letters,
    List.append_nil, named]

theorem Character.char_toNat (c : Char) : Character.char ⟨0, c.toNat⟩ = .ok c := by
  have valid : (0 : Int) ≤ c.toNat ∧ (c.toNat : Int).toNat.isValidChar := ⟨Int.natCast_nonneg _, c.valid⟩
  rw [Character.char, if_pos valid, Int.toNat_natCast, Char.ofNat_toNat]

theorem Character.exists_text (c : Char) : ∃ s, Character.text ⟨0, c.toNat⟩ = .ok s := by
  simp only [Character.text, Character.char_toNat, bind, Except.bind]
  split <;> exact ⟨_, rfl⟩

theorem Convention.parses_character {c : Char} {text : String}
    (written : Character.text ⟨0, c.toNat⟩ = .ok text) (bounds : conv.dialect.Bounds more) :
    Parses conv .item (text.toList ++ more) (.ok (.form (.character c.toNat))) more := by
  have parses {name : List Char} (scans : Dialect.scanCharacter (name ++ more) = (.character c, more)) :
      Parses conv .item ('#' :: '\\' :: name ++ more) (.ok (.form (.character c.toNat))) more :=
    .atom (show conv.dialect.scan ('#' :: '\\' :: (name ++ more)) = _ from scans) rfl
  simp only [Character.text, Character.char_toNat] at written
  by_cases space : c = ' '
  · subst space
    cases written
    exact parses (Dialect.scanCharacter_named (by decide) (by decide) bounds)
  · by_cases newline : c = '\n'
    · subst newline
      cases written
      exact parses (Dialect.scanCharacter_named (by decide) (by decide) bounds)
    · have single : text = "#\\" ++ c.toString := by
        simp only [bind, Except.bind] at written
        cases written
        rfl
      have chars : ("#\\" ++ c.toString).toList = '#' :: '\\' :: [c] := by
        simp [Char.toString]
      rw [single, chars]
      exact parses (Dialect.scanCharacter_single c bounds)

end Characters

section Texts

variable {conv : Convention} {more : List Char} {limit depth : Nat}

theorem eq_of_joined {first second : Except ValueFault String} {s : String}
    (written : joined first second = .ok s) :
    ∃ a b, first = .ok a ∧ second = .ok b ∧ s = a ++ b := by
  cases first with
  | error fault => cases written
  | ok a =>
    cases second with
    | error fault => cases written
    | ok b =>
      cases written
      exact ⟨a, b, rfl, rfl, rfl⟩

theorem shallow_of_text {d : Datum} {text : String} (written : d.text limit depth = .ok text) :
    depth ≤ limit := by
  by_contra deep
  rw [d.text_of_deep (Nat.lt_of_not_le deep)] at written
  cases written

/-- A datum is read from its text, by itself and as the rest of a list. -/
structure Datum.ReadsBack (conv : Convention) (d : Datum) : Prop where
  item : ∀ {limit depth : Nat} {text : String} {more : List Char}, d.text limit depth = .ok text →
    conv.dialect.Bounds more → Parses conv .item (text.toList ++ more) (.ok (.form d)) more
  tail : ∀ {limit depth : Nat} {text : String} {before : List Datum} (more : List Char),
    d.tailText limit depth = .ok text → before ≠ [] →
    Parses conv (.members .round before) (text.toList ++ more) (.ok (.form (.ofList before d))) more

/-- What is no pair becomes the tail of a list behind a dot, unless it is the empty list. -/
theorem Parses.tail_of_atom {d : Datum} (plain : conv.nilAlias = none)
    (item : ∀ {limit depth : Nat} {text : String} {more : List Char}, d.text limit depth = .ok text →
      conv.dialect.Bounds more → Parses conv .item (text.toList ++ more) (.ok (.form d)) more)
    (single : ∀ first rest, d ≠ .pair first rest) {text : String} {before : List Datum}
    (more : List Char) (written : d.tailText limit depth = .ok text) (some : before ≠ []) :
    Parses conv (.members .round before) (text.toList ++ more) (.ok (.form (.ofList before d)))
      more := by
  by_cases nil : d = .nil
  · subst nil
    rw [Datum.tailText] at written
    cases written
    exact .close rfl
  · rw [Datum.tailText_of_atom limit depth nil single] at written
    obtain ⟨opened, closing, opens, closes, rfl⟩ := eq_of_joined written
    obtain ⟨dot, inner, dots, reads, rfl⟩ := eq_of_joined opens
    cases closes
    cases dots
    have chars : (" . " ++ inner ++ ")").toList ++ more =
        ' ' :: '.' :: ' ' :: (inner.toList ++ ')' :: more) := by
      simp
    have unclosed : Bracket.round.Unclosed (' ' :: '.' :: ' ' :: (inner.toList ++ ')' :: more)) :=
      ⟨'.', _, rfl, by decide⟩
    have dot := (conv.parses_dot plain (inner.toList ++ ')' :: more)).item_of_behindBlanks
      (behindBlanks_blank (c := ' ') rfl _)
    have effect : Bracket.round.effect before (.ok (.form (.symbol "."))) = .expectsTail := by
      simp [Bracket.effect, Datum.isDot, some]
    have form := (item reads (.closer conv.dialect more)).item_of_behindBlanks
      (behindBlanks_blank (c := ' ') rfl _)
    rw [chars]
    exact .tail unclosed dot effect (.stop form (by simp)) rfl

theorem bounds_of_tailText {d : Datum} {text : String} (written : d.tailText limit depth = .ok text)
    (dialect : Dialect) (more : List Char) : dialect.Bounds (text.toList ++ more) := by
  by_cases nil : d = .nil
  · subst nil
    rw [Datum.tailText] at written
    cases written
    exact .closer dialect more
  · have opens : ∃ inner, text = " " ++ inner := by
      cases d with
      | pair first rest =>
        rw [Datum.tailText_pair] at written
        obtain ⟨opened, tail, opens, -, rfl⟩ := eq_of_joined written
        obtain ⟨space, member, spaces, -, rfl⟩ := eq_of_joined opens
        cases spaces
        exact ⟨member ++ tail, String.append_assoc ..⟩
      | _ =>
        rw [Datum.tailText_of_atom limit depth nil (by simp)] at written
        obtain ⟨opened, closing, opens, -, rfl⟩ := eq_of_joined written
        obtain ⟨dot, inner, dots, -, rfl⟩ := eq_of_joined opens
        cases dots
        exact ⟨". " ++ inner ++ closing, by simp [← String.append_assoc]⟩
    obtain ⟨inner, rfl⟩ := opens
    rw [String.toList_append]
    exact .space dialect _

namespace Datum.ReadsBack

theorem members {first rest : Datum} (inPlace : first.isDot = false)
    (firsts : ReadsBack conv first) (rests : ReadsBack conv rest) {member tail : String}
    (written : first.text limit (first.depthInPair depth) = .ok member)
    (written' : rest.tailText limit depth = .ok tail) (before : List Datum) (more : List Char) :
    Parses conv (.members .round before) (member.toList ++ (tail.toList ++ more))
      (.ok (.form (.ofList before (.pair first rest)))) more := by
  have item := firsts.item written (bounds_of_tailText written' conv.dialect more)
  have effect : Bracket.round.effect before (.ok (.form first)) = .continues (before ++ [first]) := by
    simp [Bracket.effect, inPlace]
  have others := rests.tail more written' (by simp : before ++ [first] ≠ [])
  have same : Tree.ofList (before ++ [first]) rest = .ofList before (.pair first rest) := by
    simp [Tree.ofList]
  rw [same] at others
  exact .more (item.unclosed_of_item (by simp) .round) item effect others

theorem pair {first rest : Datum} (inPlace : first.isDot = false) (firsts : ReadsBack conv first)
    (rests : ReadsBack conv rest) : ReadsBack conv (.pair first rest) where
  item {limit depth text more} written _ := by
    rw [text_pair (shallow_of_text written)] at written
    obtain ⟨opened, tail, opens, tails, rfl⟩ := eq_of_joined written
    obtain ⟨bracket, member, brackets, heads, rfl⟩ := eq_of_joined opens
    cases brackets
    have chars : ("(" ++ member ++ tail).toList ++ more =
        '(' :: (member.toList ++ (tail.toList ++ more)) := by
      simp
    rw [chars]
    exact .list rfl (members inPlace firsts rests heads tails [] more)
  tail {limit depth text before} more written some := by
    rw [tailText_pair] at written
    obtain ⟨opened, tail, opens, tails, rfl⟩ := eq_of_joined written
    obtain ⟨space, member, spaces, heads, rfl⟩ := eq_of_joined opens
    cases spaces
    have chars : (" " ++ member ++ tail).toList ++ more =
        ' ' :: (member.toList ++ (tail.toList ++ more)) := by
      simp
    rw [chars]
    exact (members inPlace firsts rests heads tails before more).members_of_behindBlanks
      (behindBlanks_blank rfl _)

theorem elements {ds : List Datum} (inPlace : ∀ d ∈ ds, d.isDot = false)
    (all : ∀ d ∈ ds, ReadsBack conv d) {text : String}
    (written : elementsText limit depth ds = .ok text) (before : List Datum) (more : List Char) :
    Parses conv (.members .vector before) (text.toList ++ ')' :: more)
      (.ok (.form (.vector (before ++ ds)))) more := by
  have effect (d : Datum) (plain : d.isDot = false) (before : List Datum) :
      Bracket.vector.effect before (.ok (.form d)) = .continues (before ++ [d]) := by
    simp [Bracket.effect, plain]
  induction ds generalizing text before with
  | nil =>
    rw [elementsText_nil] at written
    cases written
    rw [List.append_nil]
    exact .close rfl
  | cons d ds ih =>
    have first := all d (List.mem_cons_self ..)
    have plain := inPlace d (List.mem_cons_self ..)
    -- The last element stands before the parenthesis, any other one before a space.
    cases ds with
    | nil =>
      rw [elementsText_singleton] at written
      have item := first.item written (.closer conv.dialect more)
      exact .more (item.unclosed_of_item (by simp) .vector) item (effect d plain before) (.close rfl)
    | cons e ds =>
      rw [elementsText_cons] at written
      obtain ⟨opened, others, opens, tails, rfl⟩ := eq_of_joined written
      obtain ⟨member, space, heads, spaces, rfl⟩ := eq_of_joined opens
      cases spaces
      have chars : (member ++ " " ++ others).toList ++ ')' :: more =
          member.toList ++ ' ' :: (others.toList ++ ')' :: more) := by
        simp
      have item := first.item heads (.space conv.dialect (others.toList ++ ')' :: more))
      have rest := ih (fun d member => inPlace d (List.mem_cons_of_mem _ member))
        (fun d member => all d (List.mem_cons_of_mem _ member)) tails (before ++ [d])
      rw [List.append_assoc] at rest
      rw [chars]
      exact .more (item.unclosed_of_item (by simp) .vector) item (effect d plain before)
        (rest.members_of_behindBlanks (behindBlanks_blank rfl _))

theorem vector {ds : List Datum} (plain : conv.nilAlias = none)
    (inPlace : ∀ d ∈ ds, d.isDot = false) (all : ∀ d ∈ ds, ReadsBack conv d) :
    ReadsBack conv (.vector ds) := by
  have item {limit depth : Nat} {text : String} {more : List Char}
      (written : Datum.text limit depth (.vector ds) = .ok text) (_ : conv.dialect.Bounds more) :
      Parses conv .item (text.toList ++ more) (.ok (.form (.vector ds))) more := by
    rw [text_vector (shallow_of_text written)] at written
    obtain ⟨opened, closing, opens, closes, rfl⟩ := eq_of_joined written
    obtain ⟨bracket, inner, brackets, inners, rfl⟩ := eq_of_joined opens
    cases closes
    cases brackets
    have chars : ("#(" ++ inner ++ ")").toList ++ more =
        '#' :: '(' :: (inner.toList ++ ')' :: more) := by
      simp
    rw [chars]
    exact .list rfl (elements inPlace all inners [] more)
  exact ⟨item, Parses.tail_of_atom plain item (by simp)⟩

theorem leaf {d : Datum} (plain : conv.nilAlias = none) (legible : d.Legible conv.bracketLists)
    (single : ∀ first rest, d ≠ .pair first rest) (flat : ∀ elements, d ≠ .vector elements) :
    ReadsBack conv d := by
  have item {limit depth : Nat} {text : String} {more : List Char} (written : d.text limit depth = .ok text)
      (bounds : conv.dialect.Bounds more) :
      Parses conv .item (text.toList ++ more) (.ok (.form d)) more := by
    have shallow := Nat.not_lt.mpr (shallow_of_text written)
    cases d with
    | sentinel s =>
      rw [Datum.text, if_neg shallow] at written
      cases written
      -- Of the constants only the empty list is no lexeme of its own: it is a list without members.
      rcases legible with rfl | rfl | rfl
      · exact .list rfl (.close rfl)
      · exact .atom rfl rfl
      · exact .atom rfl rfl
    | symbol name =>
      rw [Datum.text, if_neg shallow] at written
      cases written
      exact conv.parses_name (by simp [plain]) legible bounds
    | integer n =>
      have short : n.natAbs < Nat.pow 10 printedDigitLimit := legible
      rw [Datum.text, if_neg shallow, integerText, if_pos short] at written
      cases written
      exact conv.parses_integer short bounds
    | character codePoint =>
      obtain ⟨c, rfl⟩ := legible
      rw [Datum.text, if_neg shallow] at written
      exact conv.parses_character written bounds
    | pair first rest => exact absurd rfl (single first rest)
    | vector elements => exact absurd rfl (flat elements)
    | string s => exact legible.elim
    | null => exact legible.elim
  exact ⟨item, Parses.tail_of_atom plain item single⟩

end Datum.ReadsBack

theorem Datum.readsBack {d : Datum} (plain : conv.nilAlias = none)
    (legible : d.Every (Legible conv.bracketLists)) : ReadsBack conv d := by
  induction d using Tree.induct with
  | leaf d single flat => exact .leaf plain legible.root single flat
  | pair first rest firsts rests =>
    obtain ⟨inPlace, left, right⟩ := Tree.every_pair_iff.mp legible
    exact .pair inPlace (firsts left) (rests right)
  | vector elements all =>
    obtain ⟨inPlace, each⟩ := Tree.every_vector_iff.mp legible
    exact .vector plain inPlace fun d member => all d member (each d member)

end Texts

section Readable

variable {conv : Convention} {text rest : List Char}

theorem Lexeme.startsToken_of_ofChar {bracketLists : Bool} {c : Char}
    (token : Starter.ofChar bracketLists c = .token) : startsToken c = true := by
  unfold Starter.ofChar at token
  split at token
  case h_7 =>
    split at token
    · cases token
    · split at token
      next starts => exact starts
      next => cases token
  all_goals cases token

theorem Dialect.scanSequence_ne_token (dialect : Dialect) (c : Char) (text token : List Char) :
    (dialect.scanSequence c text).1 ≠ .token token := by
  have named (first : Char) (others : List Char) : Dialect.named first others ≠ .token token := by
    unfold Dialect.named
    split <;> simp
  unfold scanSequence
  split
  case h_2 => split <;> simp
  case h_5 =>
    cases text with
    | nil => simp [scanCharacter]
    | cons first text =>
      simp only [scanCharacter]
      split <;> exact named _ _
  all_goals simp

theorem Dialect.token_of_scan {dialect : Dialect} {token : List Char}
    (scans : dialect.scan text = (.token token, rest)) :
    ∃ c others, token = c :: others ∧ Lexeme.startsToken c = true ∧
      others.all dialect.inToken = true := by
  unfold scan at scans
  split at scans
  · cases scans
  next c inner _ =>
    unfold scanStarted at scans
    split at scans
    case h_2 => split at scans <;> cases scans
    case h_4 =>
      unfold scanHash at scans
      split at scans
      · cases scans
      next c' behind _ =>
        exact absurd (congrArg Prod.fst scans) (dialect.scanSequence_ne_token c' behind token)
    case h_5 => split at scans <;> cases scans
    case h_6 starter =>
      cases scans
      exact ⟨c, _, rfl, Lexeme.startsToken_of_ofChar starter, List.all_takeWhile⟩
    all_goals cases scans

theorem Convention.readable_of_atom {lexeme : Lexeme} {d : Datum} (plain : conv.nilAlias = none)
    (scans : conv.dialect.scan text = (lexeme, rest))
    (means : conv.atom lexeme = some (.ok (.form d))) : d.Readable conv.bracketLists := by
  cases Convention.means_of_atom means with
  | constant c => cases c <;> simp [Datum.Readable, Constant.sentinel]
  | integer | number | string => trivial
  | aliased _ isAlias => cases plain.symm.trans isAlias
  | name parsed =>
    obtain ⟨c, others, rfl, starts, inside⟩ := Dialect.token_of_scan scans
    have decimal := Numeral.parseInteger_eq_none_iff.mp parsed
    rw [String.toList_ofList] at decimal
    have inside : (others.all fun c => !Lexeme.isTerminator conv.bracketLists c) = true := inside
    simp [Datum.Readable, Lexeme.isName, starts, inside, decimal]
  | character c => exact ⟨c, rfl⟩

theorem Convention.admits_readable (plain : conv.nilAlias = none) :
    conv.Admits (Datum.Readable conv.bracketLists) where
  atom scans means := conv.readable_of_atom plain scans means
  nil := by simp [Datum.Readable]
  mark mark := by
    have name (bracketLists : Bool) : Lexeme.isName bracketLists mark.symbolName.toList = true := by
      cases mark <;> cases bracketLists <;> decide
    exact name conv.bracketLists
  pair _ _ := trivial
  vector _ := trivial

theorem ParsesAll.readable {ds : List Datum} {obstacle : Option Obstacle}
    (plain : conv.nilAlias = none) (all : ParsesAll conv text ds obstacle rest) :
    ∀ d ∈ ds, d.Every (Datum.Readable conv.bracketLists) :=
  all.every (conv.admits_readable plain)

end Readable

end SexprReader
