import SexprReader.Proofs.Reader.Lexing
import SexprReader.Proofs.Text.BlockComment
import SexprReader.Store

namespace SexprReader

open ReadM Lexeme BlockComment

theorem Dialect.scan_hash (dialect : Dialect) {c : Char} (other : isExactness c = false)
    (text : List Char) : dialect.scan ('#' :: c :: text) = dialect.scanSequence c text := by
  have blanks : behindBlanks false ('#' :: c :: text) = '#' :: c :: text := rfl
  have marks : (c :: text).dropWhile isExactness = c :: text := by simp [other]
  rw [scan, blanks]
  change dialect.scanHash (c :: text) = _
  rw [scanHash, marks]

theorem Dialect.scan_block (dialect : Dialect) {text : List Char} (nests : Nests 0 text)
    (rest : List Char) : dialect.scan ('#' :: '|' :: (text ++ rest)) = (.comment, rest) := by
  have splits := nests.splitThrough [] rest
  rw [dialect.scan_hash rfl, scanSequence]
  simp only [hashStarter, splits]

namespace Context

variable {σ V : Type} (ctx : Context σ V) {s : ReadState σ} {taken rest : List Char}

theorem skipBlockComment_of_nests (nests : Nests 0 taken) (remains : s.source.remaining = taken ++ rest) :
    ctx.skipBlockComment s = .ok () { s with source := s.source.consume taken rest } := by
  have through : takeThrough scanBlock ⟨0, none⟩ s =
      .ok (some taken) { s with source := s.source.consume taken rest } := by
    rw [takeThrough_apply, remains, nests.splitThrough [] rest]
    rfl
  exact bind_of_ok through _

theorem skipBlockComment_of_not_ends (ending : s.source.ending = .endOfInput)
    (open_ : ¬Ends 0 s.source.remaining) :
    ctx.skipBlockComment s = ctx.fail (.endOfInput .blockComment)
      { s with source := s.source.consume s.source.remaining [] } := by
  have decodable : (s.source.consume s.source.remaining []).atUndecodable = false := by
    simp [Source.atUndecodable, Source.consume, ending]
  have through : takeThrough scanBlock ⟨0, none⟩ s =
      .ok none { s with source := s.source.consume s.source.remaining [] } := by
    rw [takeThrough_apply, splitThrough_of_not_ends open_ [], decodable]
    rfl
  exact bind_of_ok through _

theorem not_ends_of_ne_ok (fails : ∀ s', ctx.skipBlockComment s ≠ .ok () s') :
    ¬Ends 0 s.source.remaining := by
  rintro ⟨taken, ⟨rest, split⟩, nests⟩
  exact fails _ (ctx.skipBlockComment_of_nests nests split.symm)

theorem readDatum_delimited (hook : Option (Hook σ V)) (readForm : ReadM σ V) (interior : Interior)
    (rest : List Char) (host : σ) :
    (ctx.readDatum hook readForm).Becomes host (delimited interior.render ++ rest) (pure .comment) host
      rest := by
  have scans : ctx.dialect.scan (delimited interior.render ++ rest) = (.comment, rest) := by
    rw [delimited, List.cons_append, List.cons_append]
    exact ctx.dialect.scan_block (interior.nests .last) rest
  have becomes := ctx.dialect.take_becomes host (delimited interior.render ++ rest)
  rw [scans] at becomes
  rw [readDatum_eq]
  exact becomes.pure_bind (.refl _ host rest)

end Context

/-- A block comment goes on behind its opening delimiter up to the first place where closing delimiters, told
apart from left to right, outnumber opening ones by one. Without such a place the text ends too early, with
all of it consumed. So a comment of plain text and of other comments is skipped as a whole, and nothing else. -/
theorem block_comments {σ V : Type} (ctx : Context σ V) (s : ReadState σ) :
    (∀ taken rest, s.source.remaining = taken ++ rest → Surplus 1 taken →
      (∀ shorter, shorter <+: taken → Surplus 1 shorter → shorter = taken) →
      pieces (taken ++ rest) = pieces taken ++ pieces rest ∧
        ctx.skipBlockComment s = .ok () { s with source := s.source.consume taken rest }) ∧
    (s.source.ending = .endOfInput →
      let exhausted := s.source.consume s.source.remaining []
      ((∀ taken, taken <+: s.source.remaining → ¬Surplus 1 taken) ↔
        ctx.skipBlockComment s = ctx.fail (.endOfInput .blockComment) { s with source := exhausted }) ∧
      (ctx.host.signalError = SignalPolicy.raise.signal →
        ((∀ taken, taken <+: s.source.remaining → ¬Surplus 1 taken) ↔
          ∃ e trace, ctx.skipBlockComment s = .error (.reading e) { s with source := exhausted, trace } ∧
            e.kind = .unexpectedEnd ∧ e.message = "Unterminated block comment"))) ∧
    ∀ (interior : Interior) (rest : List Char),
      (s.source.remaining = interior.render ++ ['|', '#'] ++ rest →
        ctx.skipBlockComment s =
          .ok () { s with source := s.source.consume (interior.render ++ ['|', '#']) rest }) ∧
      (s.source.remaining = delimited interior.render ++ rest → s.source.ending = .endOfInput →
        ∀ hook readForm, ∃ s', s'.Stands s.host rest ∧
          ctx.readDatum hook readForm s = .ok .comment s') := by
  refine ⟨?_, ?_, fun interior rest => ⟨?_, ?_⟩⟩
  · intro taken rest remains surplus shortest
    have nests := nests_of_shortest surplus shortest
    exact ⟨nests.pieces_append rest, ctx.skipBlockComment_of_nests nests remains⟩
  · intro ending exhausted
    rw [← not_ends_iff]
    have ends := ctx.skipBlockComment_of_not_ends ending
    refine ⟨⟨ends, fun fails => ?_⟩, fun raises => ⟨fun open_ => ?_, ?_⟩⟩
    · refine ctx.not_ends_of_ne_ok fun s' skipped => ?_
      exact ctx.fail_yields _ (fun _ => False) (fails.symm.trans skipped)
    · obtain ⟨trace, fails⟩ := ctx.fail_apply (α := Unit) raises (.endOfInput .blockComment)
        { s with source := exhausted }
      exact ⟨_, trace, (ends open_).trans fails, rfl, rfl⟩
    · rintro ⟨e, trace, fails, -⟩
      refine ctx.not_ends_of_ne_ok fun s' skipped => ?_
      cases fails.symm.trans skipped
  · intro remains
    exact ctx.skipBlockComment_of_nests (interior.nests .last) remains
  · intro remains ending hook readForm
    obtain ⟨s', stands, skipped⟩ :=
      ctx.readDatum_delimited hook readForm interior rest s.host s ⟨rfl, remains, ending⟩
    exact ⟨s', stands, skipped⟩

/-- Delimiters that overlap others, one that is spent on another and so does not close, and a comment within
a comment. -/
theorem block_comments_overlapping :
    ∃ ctx opened, Context.create (Store.host .standard) true .initial = .ok ctx opened ∧
      let standing := fun text : String => (⟨opened, .ofText text.toList 1 0 none, #[]⟩ : ReadState Store)
      (∃ source, ctx.skipBlockComment (standing "#|#||#|#||# a") =
          .ok () { standing "#|#||#|#||# a" with source } ∧ source.remaining = " a".toList) ∧
      (∃ e s', ctx.skipBlockComment (standing "#|#") = .error (.reading e) s' ∧
        e.message = "Unterminated block comment") ∧
      ∃ s', s'.Stands opened " 7".toList ∧
        ctx.readDatum none (throw .stalled) (standing "#|a #|b|# |# 7") = .ok .comment s' := by
  obtain ⟨ctx, opened, creates, raises⟩ : ∃ ctx opened,
      Context.create (Store.host .standard) true .initial = .ok ctx opened ∧
        ctx.host.signalError = SignalPolicy.raise.signal := ⟨_, _, rfl, rfl⟩
  refine ⟨ctx, opened, creates, ?_⟩
  intro standing
  refine ⟨?_, ?_, ?_⟩
  · have shortest : ∀ shorter ∈ "#|#||#|#||#".toList.inits, Surplus 1 shorter →
        shorter = "#|#||#|#||#".toList := by decide
    obtain ⟨-, skipped⟩ := (block_comments ctx (standing "#|#||#|#||# a")).1 _ " a".toList rfl
      (by decide) fun shorter begins => shortest shorter ((List.mem_inits _ _).mpr begins)
    exact ⟨_, skipped, rfl⟩
  · have never : ∀ taken ∈ "#|#".toList.inits, ¬Surplus 1 taken := by decide
    obtain ⟨e, trace, fails, -, message⟩ := (((block_comments ctx (standing "#|#")).2.1 rfl).2 raises).mp
      fun taken begins => never taken ((List.mem_inits _ _).mpr begins)
    exact ⟨e, _, fails, message⟩
  · let interior : Interior :=
      .text ⟨"a ".toList, by decide⟩ (.comment (.text ⟨"b".toList, by decide⟩ .empty)
        (.text ⟨" ".toList, by decide⟩ .empty))
    exact ((block_comments ctx (standing "#|a #|b|# |# 7")).2.2 interior " 7".toList).2 rfl rfl none
      (throw .stalled)

end SexprReader
