import SexprReader.Proofs.Grammar.Parses

/-! What has been read of a text keeps its meaning when something else stands behind it, so long as
nothing that ended there would now go on. -/

namespace SexprReader

/-- A lexeme that ended between `taken` and `rest` also ends between `taken` and `rest'`, where a blank may
stand now. A comment, however, goes on behind any blank but a newline. -/
def BorderAt (blank : Char) (taken rest rest' : List Char) : Prop :=
  rest'.head? = some blank ∨ rest'.head? = rest.head? ∨ taken.getLast? = some '\n'

abbrev Border (taken rest rest' : List Char) : Prop := BorderAt '\n' taken rest rest'

namespace BorderAt

variable {blank : Char} {first second taken rest rest' : List Char}

theorem behind (border : BorderAt blank (first ++ second) rest rest') (some : second ≠ []) :
    BorderAt blank second rest rest' := by
  rcases border with newline | same | last
  · exact .inl newline
  · exact .inr (.inl same)
  · rw [List.getLast?_append_of_ne_nil _ some] at last
    exact .inr (.inr last)

theorem tail {c : Char} (border : BorderAt blank (c :: taken) rest rest') (inside : c ≠ '\n') :
    BorderAt blank taken rest rest' := by
  rcases border with newline | same | last
  · exact .inl newline
  · exact .inr (.inl same)
  · cases taken with
    | nil => exact absurd (by simpa using last) inside
    | cons d taken => exact .inr (.inr (by simpa using last))

theorem takeWhile {p : Char → Bool} (border : BorderAt blank taken rest rest') (apart : p blank = false)
    (line : p '\n' = false) (drops : (taken ++ rest).dropWhile p = rest) :
    (taken ++ rest).takeWhile p = taken ∧ (taken ++ rest').takeWhile p = taken ∧
      (taken ++ rest').dropWhile p = rest' := by
  have takes : (taken ++ rest).takeWhile p = taken := by
    have both := List.takeWhile_append_dropWhile (p := p) (l := taken ++ rest)
    rw [drops] at both
    exact List.append_cancel_right both
  have all : ∀ c ∈ taken, p c = true := by
    intro c inside
    rw [← takes] at inside
    exact List.all_eq_true.mp List.all_takeWhile c inside
  have stops : ∀ c, rest'.head? = some c → p c = false := by
    intro c head
    rcases border with space | same | last
    · rw [space] at head
      cases head
      exact apart
    · have heads := List.head?_dropWhile_not p (taken ++ rest)
      rw [drops, ← same, head] at heads
      simpa using heads
    · have inside := all '\n' (List.mem_of_getLast? last)
      rw [line] at inside
      cases inside
  refine ⟨takes, ?_, ?_⟩
  · rw [List.takeWhile_append_of_pos all]
    cases rest' with
    | nil => simp
    | cons c rest' => simp [stops c rfl]
  · rw [List.dropWhile_append_of_pos all]
    cases rest' with
    | nil => rfl
    | cons c rest' => simp [stops c rfl]

end BorderAt

namespace Border

variable {text : List Char}

theorem within {second : List Char} (some : second ≠ []) (first rest rest' : List Char) :
    Border first (second ++ rest) (second ++ rest') := by
  cases second with
  | nil => exact absurd rfl some
  | cons c second => exact .inr (.inl rfl)

theorem extend {first : List Char} (some : text ≠ []) (more : List Char) :
    Border first text (text ++ more) := by
  simpa using within some first [] more

theorem extend_newline (first text more : List Char) :
    Border first text (text ++ '\n' :: more) := by
  cases text with
  | nil => exact .inl rfl
  | cons c text => exact .inr (.inl rfl)

end Border

def Lexeme.meetsEnd : Lexeme → Bool
  | .endOfInput | .fault (.endOfInput _) => true
  | _ => false

theorem behindBlanks_split {inComment : Bool} {text rest : List Char} {c : Char}
    (blanks : behindBlanks inComment text = c :: rest) :
    ∃ skipped, text = skipped ++ c :: rest ∧
      ∀ rest', behindBlanks inComment (skipped ++ c :: rest') = c :: rest' := by
  induction text generalizing inComment with
  | nil => cases inComment <;> cases blanks
  | cons d text ih =>
    have further {inComment inComment' : Bool}
        (same : ∀ text, behindBlanks inComment (d :: text) = behindBlanks inComment' text)
        (blanks : behindBlanks inComment (d :: text) = c :: rest) :
        ∃ skipped, d :: text = skipped ++ c :: rest ∧
          ∀ rest', behindBlanks inComment (skipped ++ c :: rest') = c :: rest' := by
      rw [same] at blanks
      obtain ⟨skipped, rfl, kept⟩ := ih blanks
      exact ⟨d :: skipped, rfl, fun rest' => by rw [List.cons_append, same, kept]⟩
    cases inComment with
    | true => exact further (fun _ => rfl) blanks
    | false =>
      by_cases blank : Lexeme.isWhitespace d
      · have same (text : List Char) : behindBlanks false (d :: text) = behindBlanks false text := by
          simp [behindBlanks, blank]
        exact further same blanks
      · by_cases semicolon : d = ';'
        · subst semicolon
          have same (text : List Char) :
              behindBlanks false (';' :: text) = behindBlanks true text := by
            simp [behindBlanks, blank]
          exact further same blanks
        · have solid (text : List Char) : behindBlanks false (d :: text) = d :: text := by
            simp [behindBlanks, blank, semicolon]
          rw [solid] at blanks
          cases blanks
          exact ⟨[], rfl, solid⟩

theorem dropWhile_split {p : Char → Bool} {text rest : List Char} {c : Char}
    (drops : text.dropWhile p = c :: rest) :
    ∃ skipped, text = skipped ++ c :: rest ∧
      ∀ rest', (skipped ++ c :: rest').dropWhile p = c :: rest' := by
  refine ⟨text.takeWhile p, ?_, fun rest' => ?_⟩
  · rw [← drops, List.takeWhile_append_dropWhile]
  · have stops : p c = false := by
      have heads := List.head?_dropWhile_not p text
      simpa [drops] using heads
    rw [List.dropWhile_append_of_pos (List.all_eq_true.mp List.all_takeWhile)]
    simp [stops]

namespace Dialect

open Lexeme

variable {dialect : Dialect} {blank : Char} {taken rest rest' : List Char} {lexeme : Lexeme}

theorem inToken_blank (dialect : Dialect) (space : isWhitespace blank = true) :
    dialect.inToken blank = false := by
  simp [inToken, isTerminator, space]

theorem inToken_newline (dialect : Dialect) : dialect.inToken '\n' = false := dialect.inToken_blank rfl

theorem isLetter_of_isWhitespace (space : isWhitespace blank = true) : isLetter blank = false := by
  simp only [isWhitespace, Bool.or_eq_true, beq_iff_eq] at space
  rcases space with ((((rfl | rfl) | rfl) | rfl) | rfl) | rfl <;> decide

section

variable (space : isWhitespace blank = true)

include space

theorem scanCharacter_replace (border : BorderAt blank taken rest rest')
    (scans : scanCharacter (taken ++ rest) = (lexeme, rest)) (early : lexeme.meetsEnd = false) :
    scanCharacter (taken ++ rest') = (lexeme, rest') := by
  cases taken with
  | nil =>
    -- Something is always taken, except at the end of the text.
    cases rest with
    | nil =>
      cases scans
      cases early
    | cons first text =>
      have shorter : (scanCharacter (first :: text)).2.length ≤ text.length := by
        simp only [scanCharacter]
        split
        · exact (List.dropWhile_suffix _).length_le
        · exact Nat.le_refl _
      rw [List.nil_append] at scans
      rw [scans, List.length_cons] at shorter
      omega
  | cons first taken =>
    simp only [List.cons_append, scanCharacter] at scans ⊢
    by_cases letter : isLetter first
    · simp only [letter, if_true, Prod.mk.injEq] at scans ⊢
      obtain ⟨same, drops⟩ := scans
      have inside : first ≠ '\n' := by
        rintro rfl
        revert letter
        decide
      obtain ⟨takes, takes', drops'⟩ :=
        (border.tail inside).takeWhile (isLetter_of_isWhitespace space) (by decide) drops
      rw [takes] at same
      rw [takes', drops']
      exact ⟨same, rfl⟩
    · simp only [letter, Bool.false_eq_true, if_false, Prod.mk.injEq] at scans ⊢
      obtain ⟨same, nothing⟩ := scans
      have empty : taken = [] := by simpa using nothing
      simp [same, empty]

theorem scanSequence_replace {c : Char} (border : BorderAt blank taken rest rest')
    (line : blank = '\n' ∨ lexeme ≠ .comment)
    (scans : dialect.scanSequence c (taken ++ rest) = (lexeme, rest))
    (early : lexeme.meetsEnd = false) :
    dialect.scanSequence c (taken ++ rest') = (lexeme, rest') := by
  unfold scanSequence at scans ⊢
  cases starter : dialect.hashStarter c with
  | shebang =>
    simp only [starter, Prod.mk.injEq] at scans ⊢
    -- A line comment ends with its line, so only a line end may stand in for what is behind it.
    have newline : blank = '\n' := line.resolve_right (by simp [← scans.1])
    subst newline
    obtain ⟨-, -, drops⟩ := border.takeWhile (by decide) (by decide) scans.2
    exact ⟨scans.1, drops⟩
  | blockComment =>
    simp only [starter] at scans ⊢
    -- What has a delimiter of its own does not depend on what is behind the delimiter.
    cases splits : splitThrough scanBlock ⟨0, none⟩ [] (taken ++ rest) with
    | none =>
      simp only [splits, Prod.mk.injEq] at scans
      rw [← scans.1] at early
      cases early
    | some split =>
      obtain ⟨comment, behind⟩ := split
      simp only [splits, Prod.mk.injEq] at scans
      obtain ⟨same, rfl⟩ := scans
      simp [splitThrough_replace splits rest', same]
  | datumComment => simp_all
  | vector => simp_all
  | character =>
    simp only [starter] at scans ⊢
    exact scanCharacter_replace space border scans early
  | constant constant => simp_all
  | radix radix =>
    simp only [starter, Prod.mk.injEq] at scans ⊢
    obtain ⟨same, drops⟩ := scans
    -- A run of characters stops at the border, whatever that is.
    obtain ⟨takes, takes', drops'⟩ :=
      border.takeWhile (dialect.inToken_blank space) dialect.inToken_newline drops
    rw [takes] at same
    rw [takes', drops']
    exact ⟨same, rfl⟩
  | unknown => simp_all

theorem scanHash_replace (border : BorderAt blank taken rest rest')
    (line : blank = '\n' ∨ lexeme ≠ .comment)
    (scans : dialect.scanHash (taken ++ rest) = (lexeme, rest))
    (early : lexeme.meetsEnd = false) :
    dialect.scanHash (taken ++ rest') = (lexeme, rest') := by
  unfold scanHash at scans
  split at scans
  · cases scans
    cases early
  next c behind drops =>
    obtain ⟨marks, whole, kept⟩ := dropWhile_split drops
    obtain ⟨inner, rfl⟩ : rest <:+ behind := by
      have inside := dialect.scanSequence_suffix c behind
      rwa [scans] at inside
    have start : taken = marks ++ c :: inner :=
      List.append_cancel_right (whole.trans (by simp))
    subst start
    have again : dialect.scanHash (marks ++ c :: inner ++ rest') =
        dialect.scanSequence c (inner ++ rest') := by
      simp [scanHash, kept]
    rw [again]
    by_cases newline : c = '\n'
    · -- No sequence goes on behind a newline.
      subst newline
      have unknown : dialect.hashStarter '\n' = .unknown := rfl
      simp only [scanSequence, unknown, Prod.mk.injEq] at scans ⊢
      obtain ⟨same, nothing⟩ := scans
      have empty : inner = [] := by simpa using nothing
      simp [same, empty]
    · exact scanSequence_replace space ((border.behind (by simp)).tail newline) line scans early

theorem scanComma_replace {plain splicing : Lexeme} (border : BorderAt blank taken rest rest')
    (scans : (if (taken ++ rest).head? == some '@' then (splicing, (taken ++ rest).tail)
      else (plain, taken ++ rest)) = (lexeme, rest)) :
    (if (taken ++ rest').head? == some '@' then (splicing, (taken ++ rest').tail)
      else (plain, taken ++ rest')) = (lexeme, rest') := by
  cases taken with
  | nil =>
    simp only [List.nil_append] at scans ⊢
    split at scans
    next at_sign =>
      -- The sign cannot have been taken from what is left.
      obtain ⟨behind, rfl⟩ := List.head?_eq_some_iff.mp (eq_of_beq at_sign)
      simp at scans
    next other =>
      have still : ¬(rest'.head? == some '@') := by
        rcases border with at_border | same | last
        · rw [at_border, beq_iff_eq, Option.some_inj]
          rintro rfl
          exact absurd space (by decide)
        · rwa [same]
        · cases last
      rw [if_neg still, (Prod.mk.inj scans).1]
  | cons c taken =>
    have same : (c :: (taken ++ rest')).head? = (c :: (taken ++ rest)).head? := rfl
    rw [List.cons_append] at scans ⊢
    rw [same]
    split at scans
    next at_sign =>
      have all : taken = [] := List.append_left_eq_self.mp (Prod.mk.inj scans).2
      rw [if_pos at_sign, (Prod.mk.inj scans).1, all]
      rfl
    next other =>
      -- Without the sign, nothing is taken.
      have longer : (c :: (taken ++ rest)).length = rest.length := by rw [(Prod.mk.inj scans).2]
      rw [List.length_cons, List.length_append] at longer
      omega

theorem scanStarted_replace {c : Char} (border : BorderAt blank taken rest rest')
    (line : blank = '\n' ∨ lexeme ≠ .comment)
    (scans : dialect.scanStarted c (taken ++ rest) = (lexeme, rest))
    (early : lexeme.meetsEnd = false) :
    dialect.scanStarted c (taken ++ rest') = (lexeme, rest') := by
  unfold scanStarted at scans ⊢
  cases starter : Starter.ofChar dialect.bracketLists c with
  | mark mark => simp_all
  | comma =>
    simp only [starter] at scans ⊢
    exact scanComma_replace space border scans
  | list bracket => simp_all
  | hash =>
    simp only [starter] at scans ⊢
    exact scanHash_replace space border line scans early
  | string =>
    simp only [starter] at scans ⊢
    cases splits : splitThrough scanString false [] (taken ++ rest) with
    | none =>
      simp only [splits, Prod.mk.injEq] at scans
      rw [← scans.1] at early
      cases early
    | some split =>
      obtain ⟨comment, behind⟩ := split
      simp only [splits, Prod.mk.injEq] at scans
      obtain ⟨same, rfl⟩ := scans
      simp [splitThrough_replace splits rest', same]
  | token =>
    simp only [starter, Prod.mk.injEq] at scans ⊢
    obtain ⟨same, drops⟩ := scans
    obtain ⟨takes, takes', drops'⟩ :=
      border.takeWhile (dialect.inToken_blank space) dialect.inToken_newline drops
    rw [takes] at same
    rw [takes', drops']
    exact ⟨same, rfl⟩
  | nothing => simp_all

theorem scan_replaceAt (border : BorderAt blank taken rest rest')
    (line : blank = '\n' ∨ lexeme ≠ .comment)
    (scans : dialect.scan (taken ++ rest) = (lexeme, rest)) (early : lexeme.meetsEnd = false) :
    dialect.scan (taken ++ rest') = (lexeme, rest') := by
  unfold scan at scans
  split at scans
  · cases scans
    cases early
  next c behind blanks =>
    obtain ⟨skipped, whole, kept⟩ := behindBlanks_split blanks
    obtain ⟨inner, rfl⟩ : rest <:+ behind := by
      have inside := dialect.scanStarted_suffix c behind
      rwa [scans] at inside
    have start : taken = skipped ++ c :: inner :=
      List.append_cancel_right (whole.trans (by simp))
    subst start
    have solid : c ≠ '\n' := by
      rintro rfl
      have white := (of_behindBlanks_eq_cons blanks).1
      revert white
      decide
    have again : dialect.scan (skipped ++ c :: inner ++ rest') =
        dialect.scanStarted c (inner ++ rest') := by
      simp [scan, kept]
    rw [again]
    exact scanStarted_replace space ((border.behind (by simp)).tail solid) line scans early

end

theorem scan_replace (border : Border taken rest rest')
    (scans : dialect.scan (taken ++ rest) = (lexeme, rest)) (early : lexeme.meetsEnd = false) :
    dialect.scan (taken ++ rest') = (lexeme, rest') :=
  scan_replaceAt rfl border (.inl rfl) scans early

end Dialect

theorem Convention.atom_meetsEnd {conv : Convention} {lexeme : Lexeme} {outcome : Outcome}
    (means : conv.atom lexeme = some outcome) : outcome.meetsEnd = lexeme.meetsEnd := by
  cases Convention.means_of_atom means with
  | fault reason => cases reason <;> rfl
  | _ => rfl

namespace Outcome

variable {outcome : Outcome}

theorem early_of_quoted {mark : QuoteMark} (early : (outcome.quoted mark).meetsEnd = false) :
    outcome.meetsEnd = false := by
  match outcome, early with
  | .ok (.form _), _ => rfl
  | .error _, early => exact early

theorem early_of_discarded (early : outcome.discarded.meetsEnd = false) :
    outcome.meetsEnd = false := by
  match outcome, early with
  | .ok (.form _), _ => rfl
  | .ok .comment, _ => rfl
  | .error _, early => exact early

theorem form_of_quoted {mark : QuoteMark} (form : ∃ d, outcome.quoted mark = .ok (.form d)) :
    ∃ d, outcome = .ok (.form d) := by
  obtain ⟨d, form⟩ := form
  match outcome, form with
  | .ok (.form d), _ => exact ⟨d, rfl⟩

theorem discarded_ne_form : ¬∃ d, outcome.discarded = .ok (.form d) := by
  rintro ⟨d, form⟩
  match outcome, form with
  | .ok (.form _), form => cases form
  | .ok .comment, form => cases form

end Outcome

namespace Parses

variable {conv : Convention} {task : Task} {text inner taken rest rest' : List Char}
  {outcome : Outcome}

/-- What is taken up to `rest` is taken in two parts, the first of them up to `inner`. -/
theorem taken_in_parts (outer : inner <:+ text) (within : rest <:+ inner)
    (whole : taken ++ rest = text) :
    ∃ first second, taken = first ++ second ∧ inner = second ++ rest ∧
      text = first ++ (second ++ rest) := by
  obtain ⟨second, rfl⟩ := within
  obtain ⟨first, rfl⟩ := outer
  refine ⟨first, second, ?_, rfl, rfl⟩
  rw [← List.append_assoc] at whole
  exact List.append_cancel_right whole

theorem ne_nil (parses : Parses conv task (taken ++ rest) outcome rest)
    (early : outcome.meetsEnd = false) : taken ≠ [] := by
  rintro rfl
  exact absurd (parses.length_lt early) (by simp)

theorem unclosed_replace {bracket : Bracket} (unclosed : bracket.Unclosed (taken ++ rest))
    (item : Parses conv .item (taken ++ rest) outcome rest) (early : outcome.meetsEnd = false)
    (rest' : List Char) : bracket.Unclosed (taken ++ rest') := by
  obtain ⟨c, behind, blanks, open_⟩ := unclosed
  have consumed := (item.item_of_behindBlanks (behindBlanks_idem _)).length_lt early
  rw [blanks, List.length_cons] at consumed
  obtain ⟨skipped, whole, kept⟩ := behindBlanks_split blanks
  have inside : rest <:+ behind := by
    refine List.suffix_of_suffix_length_le (List.suffix_append taken rest) ?_ (by omega)
    rw [whole]
    exact (List.suffix_cons c behind).trans (List.suffix_append skipped _)
  obtain ⟨inner, rfl⟩ := inside
  have start : taken = skipped ++ c :: inner :=
    List.append_cancel_right (whole.trans (by simp))
  refine ⟨c, inner ++ rest', ?_, open_⟩
  rw [start, List.append_assoc, List.cons_append, kept]

theorem afterTail_replace {bracket : Bracket} {before : List Datum} {tail : Datum}
    (ends : bracket.afterTail before tail (taken ++ rest) = (outcome, rest))
    (early : outcome.meetsEnd = false) (rest' : List Char) :
    taken ≠ [] ∧ bracket.afterTail before tail (taken ++ rest') = (outcome, rest') := by
  have replaced {c : Char} (blanks : behindBlanks false (taken ++ rest) = c :: rest) :
      taken ≠ [] ∧ behindBlanks false (taken ++ rest') = c :: rest' := by
    obtain ⟨skipped, whole, kept⟩ := behindBlanks_split blanks
    obtain rfl : taken = skipped ++ [c] := List.append_cancel_right (whole.trans (by simp))
    exact ⟨by simp, by rw [List.append_assoc, List.singleton_append, kept]⟩
  obtain ⟨-, -, rfl⟩ | ⟨closes, rfl⟩ | ⟨c, behind, other, rfl⟩ := Bracket.afterTail_cases ends
  · cases early
  · obtain ⟨some, closes'⟩ := replaced closes
    exact ⟨some, by simp [Bracket.afterTail, closes']⟩
  · obtain ⟨some, behind'⟩ := replaced behind
    exact ⟨some, by simp [Bracket.afterTail, behind', other]⟩

/-- An outcome that is not due to the end of the text depends on what stands behind only by the
border. -/
theorem replaceAt {blank : Char} (space : Lexeme.isWhitespace blank = true)
    (parses : Parses conv task (taken ++ rest) outcome rest) (early : outcome.meetsEnd = false)
    (border : BorderAt blank taken rest rest') (line : blank = '\n' ∨ ∃ d, outcome = .ok (.form d)) :
    Parses conv task (taken ++ rest') outcome rest' := by
  generalize whole : taken ++ rest = text at parses
  -- Every part is taken up to the next one, and the last of them up to the border.
  induction parses generalizing blank taken rest' with
  | @atom _ _ lexeme _ scans means =>
    subst whole
    have plain : blank = '\n' ∨ lexeme ≠ .comment := by
      rcases line with newline | ⟨d, rfl⟩
      · exact .inl newline
      · refine .inr ?_
        rintro rfl
        cases means
    rw [Convention.atom_meetsEnd means] at early
    exact .atom (Dialect.scan_replaceAt space border plain scans early) means
  | quoted scans form ih =>
    obtain ⟨first, second, rfl, rfl, rfl⟩ :=
      taken_in_parts (Dialect.scan_suffix scans) form.suffix whole
    have early := Outcome.early_of_quoted early
    have some := form.ne_nil early
    rw [List.append_assoc]
    exact .quoted (Dialect.scan_replace (Border.within some ..) scans rfl)
      (ih space early (border.behind some) (line.imp_right Outcome.form_of_quoted) rfl)
  | discarded scans form ih =>
    obtain ⟨first, second, rfl, rfl, rfl⟩ :=
      taken_in_parts (Dialect.scan_suffix scans) form.suffix whole
    have early := Outcome.early_of_discarded early
    have some := form.ne_nil early
    have newline := line.resolve_right Outcome.discarded_ne_form
    rw [List.append_assoc]
    exact .discarded (Dialect.scan_replace (Border.within some ..) scans rfl)
      (ih space early (border.behind some) (.inl newline) rfl)
  | list scans members ih =>
    obtain ⟨first, second, rfl, rfl, rfl⟩ :=
      taken_in_parts (Dialect.scan_suffix scans) members.suffix whole
    have some := members.ne_nil early
    rw [List.append_assoc]
    exact .list (Dialect.scan_replace (Border.within some ..) scans rfl)
      (ih space early (border.behind some) line rfl)
  | skip comment form comment_ih form_ih =>
    obtain ⟨first, second, rfl, rfl, rfl⟩ := taken_in_parts comment.suffix form.suffix whole
    have some := form.ne_nil early
    rw [List.append_assoc]
    exact .skip (comment_ih rfl rfl (Border.within some ..) (.inl rfl) rfl)
      (form_ih space early (border.behind some) line rfl)
  | stop item there ih => exact .stop (ih space early border line whole) there
  | unclosed blank => cases early
  | @close text rest bracket before closer =>
    obtain ⟨skipped, start, kept⟩ := behindBlanks_split closer
    have same : taken = skipped ++ [bracket.closer] :=
      List.append_cancel_right ((whole.trans start).trans (by simp))
    refine .close ?_
    rw [same, List.append_assoc, List.singleton_append, kept]
  | cut unclosed item effect ih =>
    subst whole
    obtain ⟨obstacle, rfl⟩ := Bracket.error_of_effect effect
    have there := Bracket.early_of_effect effect fun _ same => by cases same; exact early
    have newline := line.resolve_right (by simp)
    exact .cut (unclosed_replace unclosed item there rest') (ih space there border (.inl newline) rfl)
      effect
  | more unclosed item effect others item_ih others_ih =>
    obtain ⟨first, second, rfl, rfl, rfl⟩ := taken_in_parts item.suffix others.suffix whole
    have there := Bracket.early_of_effect effect (by simp)
    have some := others.ne_nil early
    rw [List.append_assoc]
    exact .more (unclosed_replace unclosed item there _)
      (item_ih rfl there (Border.within some ..) (.inl rfl) rfl) effect
      (others_ih space early (border.behind some) line rfl)
  | tail unclosed dot effect form ends dot_ih form_ih =>
    have inside := Bracket.afterTail_suffix ends
    obtain ⟨first, others, rfl, rfl, rfl⟩ :=
      taken_in_parts dot.suffix (inside.trans form.suffix) whole
    obtain ⟨second, third, rfl, rfl, same⟩ := taken_in_parts form.suffix inside rfl
    rw [same] at form
    obtain ⟨some, closes⟩ := afterTail_replace ends early rest'
    have there := Bracket.early_of_effect effect (by simp)
    have some' : second ++ third ≠ [] := by simp [some]
    rw [List.append_assoc]
    refine .tail (unclosed_replace unclosed dot there _)
      (dot_ih rfl there (Border.within some' ..) (.inl rfl) rfl) effect ?_ closes
    rw [List.append_assoc]
    exact form_ih rfl rfl (Border.within some ..) (.inl rfl) same.symm
  | tailCut unclosed dot effect form without stops dot_ih form_ih =>
    obtain ⟨first, second, rfl, rfl, rfl⟩ := taken_in_parts dot.suffix form.suffix whole
    obtain ⟨obstacle, rfl⟩ := Bracket.error_of_effect stops
    have there := Bracket.early_of_effect effect (by simp)
    have early' := Bracket.early_of_effect stops fun _ same => by cases same; exact early
    have some := form.ne_nil early'
    have newline := line.resolve_right (by simp)
    rw [List.append_assoc]
    exact .tailCut (unclosed_replace unclosed dot there _)
      (dot_ih rfl there (Border.within some ..) (.inl rfl) rfl) effect
      (form_ih space early' (border.behind some) (.inl newline) rfl) without stops

theorem replace (parses : Parses conv task (taken ++ rest) outcome rest)
    (early : outcome.meetsEnd = false) (border : Border taken rest rest') :
    Parses conv task (taken ++ rest') outcome rest' :=
  parses.replaceAt rfl early border (.inl rfl)

theorem extend_newline (parses : Parses conv task text outcome rest)
    (early : outcome.meetsEnd = false) (more : List Char) :
    Parses conv task (text ++ '\n' :: more) outcome (rest ++ '\n' :: more) := by
  obtain ⟨taken, rfl⟩ := parses.suffix
  rw [List.append_assoc]
  exact parses.replace early (.extend_newline taken rest more)

end Parses

end SexprReader
