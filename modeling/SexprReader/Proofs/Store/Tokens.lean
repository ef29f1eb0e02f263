import SexprReader.Proofs.Store.Single
import SexprReader.Proofs.Text.Positional
import SexprReader.Proofs.Grammar.Names

namespace SexprReader

open ReadM Store Numeral

/-- The letters behind `#` that announce digits of a radix. -/
def radixLetters : List (Char × Nat) :=
  [('b', 2), ('B', 2), ('o', 8), ('O', 8), ('d', 10), ('D', 10), ('x', 16), ('X', 16)]

theorem of_mem_radixLetters {letter : Char} {radix : Nat} (letters : (letter, radix) ∈ radixLetters) :
    (2 ≤ radix ∧ radix ≤ 36) ∧ Lexeme.isExactness letter = false ∧
      ∀ dialect : Dialect, dialect.hashStarter letter = .radix radix := by
  simp only [radixLetters, List.mem_cons, Prod.mk.injEq, List.not_mem_nil, or_false] at letters
  rcases letters with ⟨rfl, rfl⟩ | ⟨rfl, rfl⟩ | ⟨rfl, rfl⟩ | ⟨rfl, rfl⟩ | ⟨rfl, rfl⟩ | ⟨rfl, rfl⟩ |
    ⟨rfl, rfl⟩ | ⟨rfl, rfl⟩
  all_goals exact ⟨by decide, rfl, fun _ => rfl⟩

/-- The text is empty or begins with a character that ends a token. -/
def EndsToken (bracketLists : Bool) (text : List Char) : Prop :=
  ∀ c, text.head? = some c → Lexeme.isTerminator bracketLists c = true

namespace Dialect

variable {dialect : Dialect} {digits more : List Char}

theorem inToken_iff {c : Char} :
    dialect.inToken c = true ↔ Lexeme.isTerminator dialect.bracketLists c = false := by
  simp [inToken]

theorem bounds_of_endsToken (ends : EndsToken dialect.bracketLists more) : dialect.Bounds more := by
  intro c first
  simp [inToken, ends c first]

theorem scan_radix (dialect : Dialect) {marks : List Char} {letter : Char} {radix : Nat}
    (exactness : ∀ c ∈ marks, Lexeme.isExactness c = true) (letters : (letter, radix) ∈ radixLetters)
    (inside : ∀ c ∈ digits, dialect.inToken c = true) (bounds : dialect.Bounds more) :
    dialect.scan ('#' :: (marks ++ letter :: digits) ++ more) = (.number radix digits, more) := by
  have blanks : behindBlanks false ('#' :: (marks ++ letter :: digits) ++ more) =
      '#' :: (marks ++ letter :: (digits ++ more)) := by
    simp [behindBlanks, Lexeme.isWhitespace]
  obtain ⟨-, unmarked, starter⟩ := of_mem_radixLetters letters
  have drops : (marks ++ letter :: (digits ++ more)).dropWhile Lexeme.isExactness =
      letter :: (digits ++ more) := by
    rw [List.dropWhile_append_of_pos exactness, List.dropWhile_cons_of_neg (by simp [unmarked])]
  rw [scan, blanks]
  change dialect.scanHash (marks ++ letter :: (digits ++ more)) = _
  rw [scanHash, drops]
  simp only [scanSequence, starter, List.takeWhile_append_of_pos inside,
    List.dropWhile_append_of_pos inside, bounds.takeWhile, List.append_nil]

end Dialect

namespace Convention

variable (conv : Convention) {text : String}

theorem token_of_written (w : Written 10) (spells : w.text = text.toList)
    (fits : Evaluable 10 w.digits.length) : conv.token text = .ok (.form (.integer w.value)) := by
  have number : parseInteger text 10 = .ok (some w.value) :=
    (Written.parseInteger_eq_some_iff (by decide) (by decide)).mpr ⟨w, spells, fits, rfl⟩
  simp [token, number]

theorem token_of_unwritten (other : ∀ w : Written 10, w.text ≠ text.toList) :
    conv.token text = .ok (.form (if conv.nilAlias = some text then .nil else .symbol text)) := by
  have none : parseInteger text 10 = .ok none :=
    (Written.parseInteger_eq_none_iff (by decide) (by decide)).mpr other
  simp [token, none]

variable {radix : Nat} (least : 2 ≤ radix) (most : radix ≤ 36)

include least most

theorem number_of_written (w : Written radix) (spells : w.text = text.toList)
    (fits : Evaluable radix w.digits.length) : number radix text = .ok (.form (.integer w.value)) := by
  have number : parseInteger text radix = .ok (some w.value) :=
    (Written.parseInteger_eq_some_iff least most).mpr ⟨w, spells, fits, rfl⟩
  simp [Convention.number, number]

theorem number_of_unwritten (other : ∀ w : Written radix, w.text ≠ text.toList) :
    number radix text = .error (.fault (.invalidNumber text radix)) := by
  have none : parseInteger text radix = .ok none :=
    (Written.parseInteger_eq_none_iff least most).mpr other
  simp [number, none]

end Convention

namespace Serves

variable {ctx : Context Store Value} {conv : Convention} {table : TableId} {store : Store}
  {text rest : List Char} (serves : Serves ctx conv table store)

include serves

theorem takes_integer {n : Int} (item : Parses conv .item text (.ok (.form (.integer n))) rest) :
    (ctx.readForm none).Takes store text rest fun _ v => v = .integer n := by
  refine (serves.takes_of_parses (.stop item (by simp))).mono fun after v ⟨_, denotes⟩ => ?_
  cases denotes
  rfl

/-- A name is read as the symbol that the table has of it, unless it stands for the empty list. -/
theorem takes_name {name : String} (item : Parses conv .item text
      (.ok (.form (if conv.nilAlias = some name then .nil else .symbol name))) rest) :
    (ctx.readForm none).Takes store text rest fun after v =>
      if conv.nilAlias = some name then v = .nil
      else ∃ symbol, v = .symbol symbol ∧ after.symbols.find? table name = some symbol := by
  refine (serves.takes_of_parses (.stop item (by simp))).mono fun after v ⟨_, denotes⟩ => ?_
  by_cases alias_ : conv.nilAlias = some name
  · rw [if_pos alias_] at denotes ⊢
    cases denotes
    rfl
  · rw [if_neg alias_] at denotes ⊢
    cases denotes with
    | symbol found => exact ⟨_, rfl, found⟩

end Serves

/-- A token ends where its characters do, and is read as an integer if it is a decimal numeral, or else as
the empty list if it is the name that stands for it, or else as the symbol of its name. Behind `#`, any
exactness marks and the letter of a radix, the characters of a token have to be a numeral of that radix.
A decimal numeral must not be too long to be evaluated. -/
theorem token_classified (conv : Convention) (table : TableId) (store : Store)
    (known : table.index < store.symbols.tables.size) {ctx : Context Store Value} {opened later : Store}
    (opens : conv.context table store = .ok ctx opened) (grown : opened.Agrees 0 0 later)
    {rest : List Char} (ends : EndsToken conv.bracketLists rest) :
    (∀ (c : Char) (others : List Char), Lexeme.startsToken c = true →
      (∀ d ∈ others, Lexeme.isTerminator conv.bracketLists d = false) →
      let token := c :: others
      (∀ w : Written 10, w.text = token → Evaluable 10 w.digits.length →
        (ctx.readForm none).Takes later (token ++ rest) rest fun _ v => v = .integer w.value) ∧
      ((∀ w : Written 10, w.text ≠ token) →
        (ctx.readForm none).Takes later (token ++ rest) rest fun after v =>
          if conv.nilAlias = some (String.ofList token) then v = .nil
          else ∃ symbol, v = .symbol symbol ∧
            after.symbols.find? table (String.ofList token) = some symbol)) ∧
    ∀ (marks : List Char) (letter : Char) (radix : Nat) (digits : List Char),
      (∀ c ∈ marks, c ∈ ['e', 'E', 'i', 'I']) → (letter, radix) ∈ radixLetters →
      (∀ c ∈ digits, Lexeme.isTerminator conv.bracketLists c = false) →
      let literal := '#' :: (marks ++ letter :: digits)
      (∀ w : Written radix, w.text = digits → Evaluable radix w.digits.length →
        (ctx.readForm none).Takes later (literal ++ rest) rest fun _ v => v = .integer w.value) ∧
      ((∀ w : Written radix, w.text ≠ digits) →
        (ctx.readForm none).Refuses later (literal ++ rest) rest
          (.invalidNumber (String.ofList digits) radix)) := by
  have serves := conv.serves_later known opens grown
  have bounds : conv.dialect.Bounds rest := Dialect.bounds_of_endsToken ends
  constructor
  · intro c others starts inside token
    have within : others.all conv.dialect.inToken = true :=
      List.all_eq_true.mpr fun d member => Dialect.inToken_iff.mpr (inside d member)
    have item := conv.parses_token starts within bounds
    constructor
    · intro w spells fits
      rw [conv.token_of_written w (by simpa using spells) fits] at item
      exact serves.takes_integer item
    · intro other
      rw [conv.token_of_unwritten (by simpa using other)] at item
      exact serves.takes_name item
  · intro marks letter radix digits exactness letters inside literal
    obtain ⟨⟨least, most⟩, -, -⟩ := of_mem_radixLetters letters
    have exact_ : ∀ c ∈ marks, Lexeme.isExactness c = true := by
      intro c member
      simpa [Lexeme.isExactness, or_assoc] using exactness c member
    have within : ∀ c ∈ digits, conv.dialect.inToken c = true :=
      fun c member => Dialect.inToken_iff.mpr (inside c member)
    have item : Parses conv .item (literal ++ rest) (Convention.number radix (String.ofList digits)) rest :=
      .atom (conv.dialect.scan_radix exact_ letters within bounds) rfl
    constructor
    · intro w spells fits
      rw [Convention.number_of_written least most w (by simpa using spells) fits] at item
      exact serves.takes_integer item
    · intro other
      rw [Convention.number_of_unwritten least most (by simpa using other)] at item
      exact serves.refuses_of_parses (.stop item (by simp))

/-- Tokens in front of a bracket, where `nil` stands for the empty list. -/
theorem token_classified_with_alias :
    ∃ ctx opened, Convention.context ⟨true, false, some "nil"⟩ .shared .initial = .ok ctx opened ∧
      let rest := "] a".toList
      let read := ctx.readForm none
      read.Takes opened ("-012".toList ++ rest) rest (fun _ v => v = .integer (-12)) ∧
      read.Takes opened ("nil".toList ++ rest) rest (fun _ v => v = .nil) ∧
      read.Takes opened ("0x10".toList ++ rest) rest (fun after v => ∃ symbol, v = .symbol symbol ∧
        after.symbols.find? .shared "0x10" = some symbol) ∧
      read.Takes opened ("#eX-fF".toList ++ rest) rest (fun _ v => v = .integer (-255)) ∧
      read.Refuses opened ("#b102".toList ++ rest) rest (.invalidNumber "102" 2) := by
  refine ⟨_, _, rfl, ?_⟩
  intro rest read
  have ends : EndsToken true rest := by
    rintro c ⟨⟩
    rfl
  have classified := token_classified ⟨true, false, some "nil"⟩ .shared .initial (by decide) rfl
    (.refl 0 0 _) ends
  have inside (text : String) (all : text.toList.all (!Lexeme.isTerminator true ·) = true) :
      ∀ c ∈ text.toList, Lexeme.isTerminator true c = false := by simpa using all
  have unwritten {radix : Nat} (token : String) (least : 2 ≤ radix) (most : radix ≤ 36)
      (other : parseInteger token radix = .ok none) (w : Written radix) : w.text ≠ token.toList :=
    (Written.parseInteger_eq_none_iff least most).mp other w
  refine ⟨?_, ?_, ?_, ?_, ?_⟩
  · exact (classified.1 '-' _ (by decide) (inside "012" (by decide))).1
      ⟨.minus, [⟨'0', 0, by decide, by decide⟩, ⟨'1', 1, by decide, by decide⟩,
        ⟨'2', 2, by decide, by decide⟩], by decide⟩ rfl (.inr (by decide))
  · exact ((classified.1 'n' _ (by decide) (inside "il" (by decide))).2
      (unwritten "nil" (by decide) (by decide) (by decide))).mono fun after v holds => by simpa using holds
  · exact ((classified.1 '0' _ (by decide) (inside "x10" (by decide))).2
      (unwritten "0x10" (by decide) (by decide) (by decide))).mono fun after v holds => by simpa using holds
  · exact (classified.2 ['e'] 'X' 16 _ (by simp) (by decide) (inside "-fF" (by decide))).1
      ⟨.minus, [⟨'f', 15, by decide, by decide⟩, ⟨'F', 15, by decide, by decide⟩], by decide⟩ rfl
      (.inl ⟨4, rfl⟩)
  · exact (classified.2 [] 'b' 2 _ (by simp) (by decide) (inside "102" (by decide))).2
      (unwritten "102" (by decide) (by decide) (by decide))

end SexprReader
