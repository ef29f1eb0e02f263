import SexprReader.Proofs.Reader.LineComments

/-! Where the reports on the course of a read say that they are. A source shows the place of the last
consumed character. That is the right place for a character on which the reader dispatches, since it is
consumed first; a comment is reported when its first character is only in sight, or when there are
exactness marks behind it. -/

namespace SexprReader

open ReadM Lexeme

variable {σ V α β : Type} {text : List Char} {line column : Int} {n m : Nat}

namespace Place

def Before (p q : Place) : Prop := p.line < q.line ∨ p.line = q.line ∧ p.column < q.column

theorem before_advance (p : Place) (c : Char) : p.Before (p.advance c) := by
  unfold advance
  split
  · exact .inl (Int.lt_succ p.line)
  · exact .inr ⟨rfl, Int.lt_succ p.column⟩

theorem Before.trans {p q r : Place} (first : p.Before q) (second : q.Before r) : p.Before r := by
  unfold Before at *
  omega

theorem before_advanceAll (p : Place) {cs : List Char} (nonempty : cs ≠ []) : p.Before (p.advanceAll cs) := by
  induction cs generalizing p with
  | nil => exact absurd rfl nonempty
  | cons c cs ih =>
    rw [advanceAll_cons]
    cases cs with
    | nil => exact p.before_advance c
    | cons d cs => exact (p.before_advance c).trans (ih _ nofun)

end Place

/-- The line and column that a source shows of which `n` characters are consumed: those of the last of
them. -/
def placeBehind (text : List Char) (line column : Int) (n : Nat) : Option Int × Option Int :=
  (some (Place.lineOf line (text.take n)), some (Place.columnOf column (text.take n)))

theorem placeBehind_ne (less : n < m) (inside : m ≤ text.length) :
    placeBehind text line column n ≠ placeBehind text line column m := by
  intro same
  have split : text.take m = text.take n ++ (text.take m).drop n := by
    rw [List.drop_take, ← List.take_add, Nat.add_sub_cancel' (Nat.le_of_lt less)]
  have more : (text.take m).drop n ≠ [] := by
    rw [← List.length_pos_iff, List.length_drop, List.length_take]
    omega
  have later := ((Place.start line column).advanceAll (text.take n)).before_advanceAll more
  rw [← Place.advanceAll_append, ← split, Place.advanceAll_start, Place.advanceAll_start] at later
  simp only [placeBehind, Prod.mk.injEq, Option.some.injEq] at same
  rcases later with above | ⟨-, right⟩
  · exact Int.ne_of_lt above same.1
  · exact Int.ne_of_lt right same.2

/-- A report, with the index at which that begins of which it tells. -/
structure Report where
  index : Nat
  event : Event
deriving DecidableEq, Repr

def eventBehind (text : List Char) (line column : Int) (make : Option Int → Option Int → Event) (n : Nat) :
    Event :=
  make (placeBehind text line column n).1 (placeBehind text line column n).2

namespace Report

def Fits (text : List Char) (line column : Int) : Report → Prop
  | ⟨i, .dispatching c l k⟩ => text[i]? = some c ∧ (l, k) = placeBehind text line column (i + 1)
  | ⟨i, .lineComment l k⟩ => text[i]? = some ';' ∧ (l, k) = placeBehind text line column i
  | ⟨i, .shebangComment l k⟩ => ∃ marks body, text.drop i = '#' :: (marks ++ '!' :: body) ∧
      (∀ c ∈ marks, isExactness c = true) ∧
      (l, k) = placeBehind text line column (i + 1 + marks.length)
  | ⟨_, .discardedDatum⟩ => True
  | ⟨i, .failed e⟩ => (e.line, e.column) = placeBehind text line column i

/-- The index of the character on which a report says that the reader dispatches. -/
def dispatched? : Report → Option Nat
  | ⟨i, .dispatching _ _ _⟩ => some i
  | _ => none

end Report

theorem Report.index_of_dispatched? {report : Report} {i : Nat} (dispatched : report.dispatched? = some i) :
    report.index = i := by
  unfold Report.dispatched? at dispatched
  split at dispatched
  · exact Option.some.inj dispatched
  · cases dispatched

/-- What is reported on the way from one state to another, where the first `n` characters are consumed at
first and `m` in the end. -/
structure Tells (text : List Char) (line column : Int) (n m : Nat) (reports : List Report)
    (s s' : ReadState σ) : Prop where
  reads : s'.source.ReadTo text line column m
  forward : n ≤ m
  inside : m ≤ text.length
  trace : s'.trace.toList = s.trace.toList ++ reports.map Report.event
  ordered : reports.Pairwise (·.index ≤ ·.index)
  fits : ∀ report ∈ reports, n ≤ report.index ∧ report.index ≤ m ∧ report.Fits text line column

namespace Tells

variable {k : Nat} {reports more : List Report} {s s' s'' : ReadState σ}

theorem trans (first : Tells text line column n m reports s s')
    (second : Tells text line column m k more s' s'') :
    Tells text line column n k (reports ++ more) s s'' where
  reads := second.reads
  forward := Nat.le_trans first.forward second.forward
  inside := second.inside
  trace := by rw [second.trace, first.trace, List.map_append, List.append_assoc]
  ordered := by
    refine List.pairwise_append.mpr ⟨first.ordered, second.ordered, fun a before b behind => ?_⟩
    exact Nat.le_trans (first.fits a before).2.1 (second.fits b behind).1
  fits := by
    intro report member
    rcases List.mem_append.mp member with before | behind
    · obtain ⟨low, high, fits⟩ := first.fits report before
      exact ⟨low, Nat.le_trans high second.forward, fits⟩
    · obtain ⟨low, high, fits⟩ := second.fits report behind
      exact ⟨Nat.le_trans first.forward low, high, fits⟩

theorem silent (reads : s'.source.ReadTo text line column m) (forward : n ≤ m) (inside : m ≤ text.length)
    (same : s'.trace = s.trace) : Tells text line column n m [] s s' where
  reads := reads
  forward := forward
  inside := inside
  trace := by rw [same, List.map_nil, List.append_nil]
  ordered := .nil
  fits := List.forall_mem_nil _

theorem single {report : Report} (reads : s'.source.ReadTo text line column m) (low : n ≤ report.index)
    (high : report.index ≤ m) (inside : m ≤ text.length) (fits : report.Fits text line column)
    (pushed : s'.trace = s.trace.push report.event) : Tells text line column n m [report] s s' where
  reads := reads
  forward := Nat.le_trans low high
  inside := inside
  trace := by rw [pushed, Array.toList_push, List.map_singleton]
  ordered := List.pairwise_singleton _ _
  fits := List.forall_mem_singleton.mpr ⟨low, high, fits⟩

theorem push {report : Report} (tells : Tells text line column n m reports s' s'')
    (pushed : s'.trace = s.trace.push report.event) (low : n ≤ report.index) (high : report.index ≤ m)
    (fits : report.Fits text line column) (first : ∀ other ∈ reports, report.index ≤ other.index) :
    Tells text line column n m (report :: reports) s s'' where
  reads := tells.reads
  forward := tells.forward
  inside := tells.inside
  trace := by rw [tells.trace, pushed, Array.toList_push, List.append_assoc, List.singleton_append, List.map_cons]
  ordered := List.pairwise_cons.mpr ⟨first, tells.ordered⟩
  fits := List.forall_mem_cons.mpr ⟨⟨low, high, fits⟩, tells.fits⟩

end Tells

theorem Source.ReadTo.of_precedes {earlier later : Source} (reads : earlier.ReadTo text line column n)
    (inside : n ≤ text.length) (before : earlier.Precedes later) :
    ∃ m, n ≤ m ∧ m ≤ text.length ∧ later.ReadTo text line column m := by
  obtain ⟨taken, split, place, ending, -⟩ := before
  have ahead : text.drop n = taken ++ later.remaining := reads.remaining.symm.trans split
  have length := congrArg List.length ahead
  rw [List.length_drop, List.length_append] at length
  refine ⟨n + taken.length, Nat.le_add_right n _, by omega, ?_, ?_, ending.trans reads.ending⟩
  · rw [← List.drop_drop, ahead, List.drop_left]
  · rw [place, reads.place, List.take_add, ahead, List.take_left, Place.advanceAll_append]
    rfl

namespace ReadM

def Silent (m : ReadM σ α) : Prop := ∀ s, (finalState (m s)).trace = s.trace

namespace Silent

theorem pure (a : α) : Silent (pure a : ReadM σ α) := fun _ => rfl

theorem bind {m : ReadM σ α} {f : α → ReadM σ β} (first : Silent m) (next : ∀ a, Silent (f a)) :
    Silent (m >>= f) := by
  intro s
  have same := first s
  cases result : m s with
  | ok a s' =>
    rw [result] at same
    rw [bind_of_ok result]
    exact (next a s').trans same
  | error e s' =>
    rw [result] at same
    rwa [bind_of_error result]

theorem ite {condition : Prop} [Decidable condition] {m m' : ReadM σ α} (yes : Silent m)
    (no : Silent m') : Silent (if condition then m else m') := by
  split
  · exact yes
  · exact no

theorem peekChar : Silent (peekChar : ReadM σ (Option Char)) := by
  intro s
  rw [peekChar_apply]
  split <;> rfl

theorem nextChar : Silent (nextChar : ReadM σ (Option Char)) := by
  intro s
  rw [nextChar_apply]
  split
  · rfl
  · split <;> rfl

theorem takeWhile (p : Char → Bool) : Silent (takeWhile p : ReadM σ (List Char)) :=
  bind (fun _ => rfl) fun _ => bind peekChar fun _ => pure _

theorem takeThrough {S : Type} (scan : S → Char → Option S) (start : S) :
    Silent (takeThrough scan start : ReadM σ (Option (List Char))) := by
  intro s
  rw [takeThrough_apply]
  split
  · rfl
  · split <;> rfl

theorem tells {m : ReadM σ α} (silent : Silent m) (lexical : Lexical m m) {s : ReadState σ}
    (reads : s.source.ReadTo text line column n) (inside : n ≤ text.length) :
    ∃ k, Tells text line column n k [] s (finalState (m s)) := by
  obtain ⟨k, forward, inside, reads⟩ := reads.of_precedes inside (lexical.nearsighted.advances s)
  exact ⟨k, .silent reads forward inside (silent s)⟩

end Silent

theorem reportHere_readTo (make : Option Int → Option Int → Event) {s : ReadState σ}
    (reads : s.source.ReadTo text line column n) :
    reportHere make s = .ok () { s with trace := s.trace.push (eventBehind text line column make n) } := by
  have reported : reportHere make s =
      .ok () { s with trace := s.trace.push (make s.source.line? s.source.column?) } := rfl
  rw [reported, reads.line_eq, reads.column_eq]
  rfl

end ReadM

theorem drop_of_getElem? {i : Nat} {c : Char} (there : text[i]? = some c) :
    text.drop i = c :: text.drop (i + 1) := by
  rw [List.drop_eq_getElem?_toList_append, there]
  rfl

def runEnd (p : Char → Bool) (text : List Char) (n : Nat) : Nat := n + ((text.drop n).takeWhile p).length

theorem drop_runEnd (p : Char → Bool) (text : List Char) (n : Nat) :
    text.drop (runEnd p text n) = (text.drop n).dropWhile p := by
  rw [runEnd, ← List.drop_drop]
  generalize text.drop n = rest
  induction rest with
  | nil => rfl
  | cons c rest ih => by_cases holds : p c <;> simp [holds, ih]

theorem runEnd_le (p : Char → Bool) (inside : n ≤ text.length) : runEnd p text n ≤ text.length := by
  have shorter : ((text.drop n).takeWhile p).length ≤ (text.drop n).length :=
    (List.takeWhile_sublist p).length_le
  rw [List.length_drop] at shorter
  unfold runEnd
  omega

theorem le_runEnd (p : Char → Bool) (text : List Char) (n : Nat) : n ≤ runEnd p text n :=
  Nat.le_add_right n _

theorem lookBehindRun_readTo (p : Char → Bool) {s : ReadState σ} (reads : s.source.ReadTo text line column n) :
    ∃ source, (do let _ ← takeWhile p; peekChar) s = .ok text[runEnd p text n]? { s with source := source } ∧
      source.ReadTo text line column (runEnd p text n) := by
  obtain ⟨source, taken, reads'⟩ := takeWhile_readTo p reads
  obtain ⟨source', peeked, reads''⟩ := peekChar_readTo (s := { s with source := source }) reads'
  exact ⟨source', (bind_of_ok taken _).trans peeked, reads''⟩

theorem behindBlanks_drop (text : List Char) (n : Nat) :
    behindBlanks false (text.drop n) =
      if text[runEnd isWhitespace text n]? = some ';' then
        behindBlanks false (text.drop (commentEnd text (runEnd isWhitespace text n)))
      else text.drop (runEnd isWhitespace text n) := by
  rw [behindBlanks_eq, ← drop_runEnd, ← List.head?_drop]
  split
  next rest semicolon =>
    change _ = if _ then behindBlanks false (text.drop (runEnd (· != '\n') text _)) else _
    rw [drop_runEnd (· != '\n'), semicolon, List.head?_cons, if_pos rfl]
    rfl
  next other =>
    have solid : (text.drop (runEnd isWhitespace text n)).head? ≠ some ';' :=
      fun there => other _ (List.eq_cons_of_mem_head? there)
    rw [if_neg solid]

namespace Context

theorem skipBlanksWithin_cons (c : Char) (bound : List Char) :
    (skipBlanksWithin (c :: bound) : ReadM σ (Option Char)) =
      (do let _ ← takeWhile isWhitespace; peekChar) >>= fun next =>
        if next = some ';' then do
          reportHere .lineComment
          skipLine
          skipBlanksWithin bound
        else pure next := by
  rw [skipBlanksWithin, bind_assoc]
  congr 1
  funext _
  congr 1
  funext next
  split
  next => rfl
  next other => rw [if_neg other]

theorem skipComment_tells {s : ReadState σ} {i : Nat} (reads : s.source.ReadTo text line column i)
    (comment : text[i]? = some ';') :
    ∃ s', (do reportHere .lineComment; skipLine) s = .ok () s' ∧
      Tells text line column i (commentEnd text i)
        [⟨i, eventBehind text line column .lineComment i⟩] s s' := by
  let report : Report := ⟨i, eventBehind text line column .lineComment i⟩
  let reported : ReadState σ := { s with trace := s.trace.push report.event }
  obtain ⟨source, skipped, reads'⟩ := skipLine_readTo (s := reported) reads
  have begun := lt_commentEnd comment rfl
  have inside : i < text.length := (List.getElem?_eq_some_iff.mp comment).1
  have ends : commentEnd text i ≤ text.length := runEnd_le _ (Nat.le_of_lt inside)
  exact ⟨{ reported with source := source }, (bind_of_ok (reportHere_readTo .lineComment reads) _).trans skipped,
    .single reads' (Nat.le_refl i) (Nat.le_of_lt begun) ends ⟨comment, rfl⟩ rfl⟩

theorem skipBlanksWithin_tells {bound : List Char} {s : ReadState σ}
    (reads : s.source.ReadTo text line column n) (inside : n ≤ text.length)
    (enough : (text.drop n).length ≤ bound.length) :
    ∃ m reports s', skipBlanksWithin bound s = .ok text[m]? s' ∧
      Tells text line column n m reports s s' ∧ text.drop m = behindBlanks false (text.drop n) ∧
      reports.filterMap Report.dispatched? = [] := by
  induction bound generalizing n s with
  | nil =>
    have all : text.drop n = [] := List.eq_nil_of_length_eq_zero (Nat.le_zero.mp enough)
    obtain ⟨source, peeked, reads'⟩ := peekChar_readTo reads
    exact ⟨n, [], _, peeked, .silent reads' (Nat.le_refl n) inside rfl, by rw [all]; rfl, rfl⟩
  | cons c bound ih =>
    have forward : n ≤ runEnd isWhitespace text n := le_runEnd _ text n
    have inside' : runEnd isWhitespace text n ≤ text.length := runEnd_le _ inside
    obtain ⟨source, looked, reads'⟩ := lookBehindRun_readTo isWhitespace reads
    rw [skipBlanksWithin_cons, bind_of_ok looked, behindBlanks_drop]
    have blank : Tells text line column n (runEnd isWhitespace text n) [] s { s with source := source } :=
      .silent reads' forward inside' rfl
    by_cases comment : text[runEnd isWhitespace text n]? = some ';'
    · obtain ⟨s', skipped, tells⟩ := skipComment_tells (s := { s with source := source }) reads' comment
      have begun := lt_commentEnd comment rfl
      have few : (text.drop (commentEnd text (runEnd isWhitespace text n))).length ≤ bound.length := by
        rw [List.length_cons, List.length_drop] at enough
        rw [List.length_drop]
        omega
      obtain ⟨m, reports, s'', onward, further, rest, none⟩ := ih tells.reads tells.inside few
      rw [if_pos comment, if_pos comment, ← bind_assoc, bind_of_ok skipped]
      exact ⟨m, _, s'', onward, (blank.trans tells).trans further, rest,
        by simpa [Report.dispatched?, eventBehind] using none⟩
    · rw [if_neg comment, if_neg comment]
      exact ⟨_, [], _, rfl, blank, rfl, rfl⟩

theorem skipBlanks_tells {s : ReadState σ} (reads : s.source.ReadTo text line column n)
    (inside : n ≤ text.length) :
    ∃ m reports s', skipBlanks s = .ok text[m]? s' ∧
      Tells text line column n m reports s s' ∧ text.drop m = behindBlanks false (text.drop n) ∧
      reports.filterMap Report.dispatched? = [] := by
  have enough : (text.drop n).length ≤ s.source.remaining.length := Nat.le_of_eq (by rw [reads.remaining])
  exact skipBlanksWithin_tells reads inside enough

end Context

namespace Dialect

variable (dialect : Dialect)

theorem takeCharacter_silent : Silent (takeCharacter : ReadM σ Lexeme) := by
  refine .bind .nextChar fun next => ?_
  cases next with
  | none => exact .pure _
  | some first => exact .bind (.ite (.takeWhile _) (.pure _)) fun _ => .pure _

theorem takeSequence_silent (c : Char) : Silent (dialect.takeSequence c : ReadM σ Lexeme) := by
  refine .bind .nextChar fun _ => ?_
  cases dialect.hashStarter c with
  | shebang => exact .bind (.bind (.takeWhile _) fun _ => .pure _) fun _ => .pure _
  | blockComment =>
    refine .bind (.takeThrough _ _) fun taken => ?_
    cases taken <;> exact .pure _
  | datumComment => exact .pure _
  | vector => exact .pure _
  | character => exact takeCharacter_silent
  | constant kind => exact .pure _
  | radix radix => exact .bind (.takeWhile _) fun _ => .pure _
  | unknown => exact .pure _

theorem takeStarted_silent {c : Char} (other : Starter.ofChar dialect.bracketLists c ≠ .hash) :
    Silent (dialect.takeStarted c : ReadM σ Lexeme) := by
  unfold takeStarted
  cases starter : Starter.ofChar dialect.bracketLists c with
  | mark mark => exact .pure _
  | comma => exact .bind .peekChar fun _ => .ite (.bind .nextChar fun _ => .pure _) (.pure _)
  | list bracket => exact .pure _
  | hash => exact absurd starter other
  | string =>
    refine .bind (.takeThrough _ _) fun taken => ?_
    cases taken <;> exact .pure _
  | token => exact .bind (.takeWhile _) fun _ => .pure _
  | nothing => exact .pure _

theorem takeHash_tells {i : Nat} {s : ReadState σ} (there : text[i]? = some '#')
    (reads : s.source.ReadTo text line column (i + 1)) (inside : i + 1 ≤ text.length) :
    ∃ m reports, Tells text line column i m reports s (finalState ((dialect.takeHash : ReadM σ Lexeme) s)) ∧
      i < m ∧ ∀ report ∈ reports, report.index = i ∧ report.dispatched? = none := by
  obtain ⟨source, looked, reads'⟩ := lookBehindRun_readTo isExactness reads
  have inside' := runEnd_le isExactness inside
  have forward : i < runEnd isExactness text (i + 1) := le_runEnd isExactness text (i + 1)
  rw [takeHash, ← bind_assoc, bind_of_ok looked]
  cases next : text[runEnd isExactness text (i + 1)]? with
  | none => exact ⟨_, [], .silent reads' (Nat.le_of_lt forward) inside' rfl, forward, List.forall_mem_nil _⟩
  | some c =>
    dsimp only
    split
    next shebang =>
      let report : Report :=
        ⟨i, eventBehind text line column .shebangComment (runEnd isExactness text (i + 1))⟩
      let s' : ReadState σ := { s with source := source, trace := s.trace.push report.event }
      -- Between the hash and the exclamation mark stand the exactness marks that were looked
      -- behind.
      have split : text.drop i =
          '#' :: ((text.drop (i + 1)).takeWhile isExactness ++
            '!' :: text.drop (runEnd isExactness text (i + 1) + 1)) := by
        have split := (List.takeWhile_append_dropWhile (p := isExactness) (l := text.drop (i + 1))).symm
        rw [← drop_runEnd, drop_of_getElem? next, eq_of_beq shebang] at split
        rw [drop_of_getElem? there, ← split]
      have tells : Tells text line column i (runEnd isExactness text (i + 1)) [report] s s' :=
        .single reads' (Nat.le_refl i) (Nat.le_of_lt forward) inside'
          ⟨_, _, split, fun c member => List.mem_takeWhile_imp member, rfl⟩ rfl
      obtain ⟨m, further⟩ := (dialect.takeSequence_silent c).tells (s := s') (dialect.takeSequence_lexical c)
        reads' inside'
      rw [bind_of_ok (reportHere_readTo _ reads')]
      exact ⟨m, [report], tells.trans further, Nat.lt_of_lt_of_le forward further.forward,
        List.forall_mem_singleton.mpr ⟨rfl, rfl⟩⟩
    next =>
      have behind : Tells text line column i (runEnd isExactness text (i + 1)) [] s { s with source := source } :=
        .silent reads' (Nat.le_of_lt forward) inside' rfl
      obtain ⟨m, further⟩ := (dialect.takeSequence_silent c).tells (s := { s with source := source })
        (dialect.takeSequence_lexical c) reads' inside'
      exact ⟨m, [], behind.trans further, Nat.lt_of_lt_of_le forward further.forward, List.forall_mem_nil _⟩

theorem eq_hash_of_starter {bracketLists : Bool} {c : Char} (starter : Starter.ofChar bracketLists c = .hash) :
    c = '#' := by
  unfold Starter.ofChar at starter
  split at starter
  all_goals first | rfl | cases starter | skip
  split at starter
  · cases starter
  · split at starter <;> cases starter

theorem takeStarted_tells {i : Nat} {c : Char} {s : ReadState σ} (there : text[i]? = some c)
    (reads : s.source.ReadTo text line column (i + 1)) (inside : i + 1 ≤ text.length) :
    ∃ m reports, Tells text line column i m reports s
        (finalState ((dialect.takeStarted c : ReadM σ Lexeme) s)) ∧
      i < m ∧ ∀ report ∈ reports, report.index = i ∧ report.dispatched? = none := by
  by_cases starter : Starter.ofChar dialect.bracketLists c = .hash
  · obtain rfl := eq_hash_of_starter starter
    exact dialect.takeHash_tells there reads inside
  · obtain ⟨m, further⟩ := (dialect.takeStarted_silent starter).tells (dialect.takeStarted_lexical c) reads inside
    have onward : i < m := Nat.lt_of_succ_le further.forward
    exact ⟨m, [], .silent further.reads (Nat.le_of_lt onward) further.inside
      (dialect.takeStarted_silent starter s), onward, List.forall_mem_nil _⟩

theorem takeSolid_tells {i : Nat} {c : Char} {s : ReadState σ} (there : text[i]? = some c)
    (reads : s.source.ReadTo text line column i) :
    ∃ m reports, Tells text line column i m reports s (finalState ((do
        let _ ← nextChar
        reportHere (.dispatching c)
        dialect.takeStarted c : ReadM σ Lexeme) s)) ∧
      reports.filterMap Report.dispatched? = [i] ∧ i < m := by
  have inside : i + 1 ≤ text.length := (List.getElem?_eq_some_iff.mp there).1
  obtain ⟨source, taken, reads'⟩ := nextChar_readTo reads
  let report : Report := ⟨i, eventBehind text line column (.dispatching c) (i + 1)⟩
  let reported : ReadState σ := { s with source := source, trace := s.trace.push report.event }
  obtain ⟨m, reports, tells, onward, others⟩ := dialect.takeStarted_tells (s := reported) there reads' inside
  rw [bind_of_ok taken, bind_of_ok (reportHere_readTo _ reads')]
  refine ⟨m, report :: reports, ?_, ?_, onward⟩
  · exact tells.push rfl (Nat.le_refl i) (Nat.le_of_lt onward) ⟨there, rfl⟩ fun other member =>
      Nat.le_of_eq (others other member).1.symm
  · have first : report.dispatched? = some i := rfl
    rw [List.filterMap_cons_some first,
      List.filterMap_eq_nil_iff.mpr fun other member => (others other member).2]

end Dialect

namespace Expected

def dispatchesOn : Expected → Char → Bool
  | .part, _ => true
  | .partOrCloser bracket, c => c != bracket.closer
  | .closer _, _ => false

/-- The index of the character on which a turn dispatches when `rest` is left of a text: the first behind
blanks and line comments. -/
def dispatchIndex (expected : Expected) (text rest : List Char) : Option Nat :=
  ((behindBlanks false rest).head?.filter expected.dispatchesOn).map fun _ =>
    text.length - (behindBlanks false rest).length

theorem dispatchIndex_eq (expected : Expected) {i : Nat} (inside : i ≤ text.length)
    (behind : text.drop i = behindBlanks false (text.drop n)) :
    expected.dispatchIndex text (text.drop n) = (text[i]?.filter expected.dispatchesOn).map fun _ => i := by
  have index : text.length - (text.drop i).length = i := by
    rw [List.length_drop]
    omega
  rw [dispatchIndex, ← behind, List.head?_drop, index]

end Expected

namespace Dialect

variable (dialect : Dialect)

theorem take_tells {s : ReadState σ} (reads : s.source.ReadTo text line column n) (inside : n ≤ text.length) :
    ∃ m reports, Tells text line column n m reports s (finalState ((dialect.take : ReadM σ Lexeme) s)) ∧
      reports.filterMap Report.dispatched? = (Expected.part.dispatchIndex text (text.drop n)).toList ∧
      ∀ i ∈ reports.filterMap Report.dispatched?, i < m := by
  obtain ⟨i, blanks, s', skipped, tells, behind, none⟩ := Context.skipBlanks_tells reads inside
  rw [take, bind_of_ok skipped, Expected.dispatchIndex_eq _ tells.inside behind]
  cases there : text[i]? with
  | none => exact ⟨i, blanks, tells, none, none ▸ List.forall_mem_nil _⟩
  | some c =>
    obtain ⟨m, reports, further, dispatched, onward⟩ := dialect.takeSolid_tells there tells.reads
    have all : (blanks ++ reports).filterMap Report.dispatched? = [i] := by
      rw [List.filterMap_append, none, dispatched, List.nil_append]
    refine ⟨m, blanks ++ reports, tells.trans further, all, ?_⟩
    rw [all]
    exact List.forall_mem_singleton.mpr onward

theorem finalState_bind_pure (m : ReadM σ α) (f : α → β) (s : ReadState σ) :
    finalState ((m >>= fun a => pure (f a)) s) = finalState (m s) := by
  cases result : m s with
  | ok a s' =>
    rw [bind_of_ok result]
    rfl
  | error e s' =>
    rw [bind_of_error result]
    rfl

theorem nextChar_tells {i : Nat} {c : Char} {s : ReadState σ} (there : text[i]? = some c)
    (reads : s.source.ReadTo text line column i) (found : Found) :
    Tells text line column i (i + 1) [] s
      (finalState ((do let _ ← nextChar; return found : ReadM σ Found) s)) := by
  have inside : i + 1 ≤ text.length := (List.getElem?_eq_some_iff.mp there).1
  obtain ⟨source, taken, reads'⟩ := nextChar_readTo reads
  rw [finalState_bind_pure, taken]
  exact .silent reads' (Nat.le_succ i) inside rfl

theorem takeTurn_tells (expected : Expected) {s : ReadState σ}
    (reads : s.source.ReadTo text line column n) (inside : n ≤ text.length) :
    ∃ m reports, Tells text line column n m reports s
        (finalState ((dialect.takeTurn expected : ReadM σ Found) s)) ∧
      reports.filterMap Report.dispatched? = (expected.dispatchIndex text (text.drop n)).toList ∧
      ∀ i ∈ reports.filterMap Report.dispatched?, i < m := by
  obtain ⟨i, blanks, s', skipped, tells, behind, none⟩ := Context.skipBlanks_tells reads inside
  have consumed {c : Char} (there : text[i]? = some c) (found : Found) :
      Tells text line column n (i + 1) blanks s
        (finalState ((do let _ ← nextChar; return found : ReadM σ Found) s')) := by
    simpa using tells.trans (nextChar_tells there tells.reads found)
  cases expected with
  | part =>
    obtain ⟨m, reports, tells, dispatched, onward⟩ := dialect.take_tells reads inside
    rw [← finalState_bind_pure _ Found.part] at tells
    exact ⟨m, reports, tells, dispatched, onward⟩
  | partOrCloser bracket =>
    rw [takeTurn, bind_of_ok skipped, Expected.dispatchIndex_eq _ tells.inside behind]
    cases there : text[i]? with
    | none => exact ⟨i, blanks, tells, none, none ▸ List.forall_mem_nil _⟩
    | some c =>
      by_cases closes : c = bracket.closer
      · subst closes
        simp only [beq_self_eq_true, reduceIte]
        exact ⟨i + 1, blanks, consumed there .closer, by simp [none, Expected.dispatchesOn], none ▸ List.forall_mem_nil _⟩
      -- The scanner skips blanks once more, from where there are none.
      · have again : text.drop i = behindBlanks false (text.drop i) := by rw [behind, behindBlanks_idem]
        obtain ⟨m, reports, further, dispatched, onward⟩ := dialect.take_tells tells.reads tells.inside
        rw [← finalState_bind_pure _ Found.part] at further
        rw [Expected.dispatchIndex_eq _ tells.inside again, there] at dispatched
        have all : (blanks ++ reports).filterMap Report.dispatched? = [i] := by
          rw [List.filterMap_append, none, dispatched]
          rfl
        simp only [beq_iff_eq, if_neg closes]
        refine ⟨m, blanks ++ reports, tells.trans further, ?_, ?_⟩
        · simp [all, Option.filter, Expected.dispatchesOn, closes]
        · rw [List.filterMap_append, none]
          exact onward
  | closer bracket =>
    rw [takeTurn, bind_of_ok skipped, Expected.dispatchIndex_eq _ tells.inside behind]
    cases there : text[i]? with
    | none => exact ⟨i, blanks, tells, none, none ▸ List.forall_mem_nil _⟩
    | some c =>
      refine ⟨i + 1, blanks, ?_, by simp [none, Expected.dispatchesOn], none ▸ List.forall_mem_nil _⟩
      by_cases closes : c = bracket.closer
      · simp only [beq_iff_eq, if_pos closes]
        exact consumed there .closer
      · simp only [beq_iff_eq, if_neg closes]
        exact consumed there _

end Dialect

namespace ReadM

/-- The computation leaves the source alone, and reports nothing but a discarded datum, or an error at
the place that the source shows. -/
def Remarks (m : ReadM σ α) : Prop :=
  ∀ s, (finalState (m s)).source = s.source ∧ ∃ events : List Event,
    (finalState (m s)).trace.toList = s.trace.toList ++ events ∧ ∀ event ∈ events,
      event = .discardedDatum ∨
        ∃ e : ReadError, event = .failed e ∧ e.line = s.source.line? ∧ e.column = s.source.column?

namespace Remarks

theorem pure (a : α) : Remarks (pure a : ReadM σ α) :=
  fun _ => ⟨rfl, [], (List.append_nil _).symm, List.forall_mem_nil _⟩

theorem throw (e : Failure) : Remarks (throw e : ReadM σ α) :=
  fun _ => ⟨rfl, [], (List.append_nil _).symm, List.forall_mem_nil _⟩

theorem hosted (call : HostM σ α) : Remarks (hosted call) := by
  intro s
  rw [hosted_apply]
  split <;> exact ⟨rfl, [], (List.append_nil _).symm, List.forall_mem_nil _⟩

theorem discardedDatum : Remarks (report .discardedDatum : ReadM σ Unit) :=
  fun _ => ⟨rfl, [.discardedDatum], Array.toList_push, List.forall_mem_singleton.mpr (.inl rfl)⟩

theorem bind {m : ReadM σ α} {f : α → ReadM σ β} (first : Remarks m) (next : ∀ a, Remarks (f a)) :
    Remarks (m >>= f) := by
  intro s
  obtain ⟨still, events, told, known⟩ := first s
  cases result : m s with
  | ok a s' =>
    rw [result] at still told
    obtain ⟨still', events', told', known'⟩ := next a s'
    rw [bind_of_ok result]
    refine ⟨still'.trans still, events ++ events', ?_, ?_⟩
    · rw [told', ← List.append_assoc]
      exact congrArg (· ++ events') told
    · rw [show s'.source = s.source from still] at known'
      exact List.forall_mem_append.mpr ⟨known, known'⟩
  | error e s' =>
    rw [result] at still told
    rw [bind_of_error result]
    exact ⟨still, events, told, known⟩

theorem ite {condition : Prop} [Decidable condition] {m m' : ReadM σ α} (yes : Remarks m)
    (no : Remarks m') : Remarks (if condition then m else m') := by
  split
  · exact yes
  · exact no

theorem fail (ctx : Context σ V) (fault : ReadFault) : Remarks (ctx.fail fault : ReadM σ α) := by
  intro s
  let e : ReadError := ⟨fault, s.source.line?, s.source.column?, s.source.name⟩
  have signals : Remarks (ReadM.hosted (ctx.host.signalError e) >>= fun _ =>
      MonadExcept.throw (.reading e) : ReadM σ α) :=
    (hosted _).bind fun _ => throw _
  obtain ⟨still, events, told, known⟩ := signals { s with trace := s.trace.push (.failed e) }
  refine ⟨still, .failed e :: events, told.trans ?_, ?_⟩
  · rw [Array.toList_push, List.append_assoc]
    rfl
  · exact List.forall_mem_cons.mpr ⟨.inr ⟨e, rfl, rfl, rfl⟩, known⟩

end Remarks

end ReadM

namespace Context

variable (ctx : Context σ V)

theorem perform_remarks (lexeme : Lexeme) : Remarks (ctx.perform lexeme) := by
  cases lexeme with
  | endOfInput => exact .pure _
  | comment => exact .pure _
  | opening opening => exact .pure _
  | constant kind => exact .pure _
  | token text =>
    refine .bind (.bind (.hosted _) fun _ => .ite (.bind (.hosted _) fun _ => ?_) (.pure _)) fun _ => .pure _
    split <;> exact .pure _
  | number radix digits =>
    exact .bind (.bind (.hosted _) fun _ => .ite (.fail ctx _) (.pure _)) fun _ => .pure _
  | string literal => exact .bind (.bind (.hosted _) fun _ => .hosted _) fun _ => .pure _
  | character c => exact .bind (.hosted _) fun _ => .pure _
  | fault reason => exact .fail ctx _

theorem append_remarks (bracket : Bracket) (spine : Spine V) (form : V) :
    Remarks (ctx.append bracket spine form) := by
  cases spine with
  | empty => exact .ite (.fail ctx _) (.bind (.hosted _) fun _ => .pure _)
  | growing head last =>
    exact .ite (.ite (.fail ctx _) (.pure _)) (.bind (.hosted _) fun _ => .bind (.hosted _) fun _ => .pure _)
  | dotted head last => exact .bind (.hosted _) fun _ => .pure _
  | «sealed» head last => exact .pure _

theorem complete_remarks (stack : Stack V) (form : Option V) : Remarks (ctx.complete stack form) := by
  induction stack generalizing form with
  | nil => exact .pure _
  | cons frame outer ih =>
    match frame, form with
    | .datumComment, none => exact ih none
    | .datumComment, some _ => exact .bind .discardedDatum fun _ => .pure _
    | .quoted mark _, none => exact .fail ctx _
    | .quoted _ symbol, some form => exact .bind (.hosted _) fun _ => .bind (.hosted _) fun _ => ih _
    | .list bracket _, none => exact .fail ctx _
    | .list bracket spine, some form => exact .bind (ctx.append_remarks bracket spine form) fun _ => .pure _

theorem answer_remarks (stack : Stack V) (found : Found) : Remarks (ctx.answer stack found) := by
  match found, stack with
  | .part lexeme, stack =>
    refine .bind (ctx.perform_remarks lexeme) fun start => ?_
    cases start with
    | whole form => exact ctx.complete_remarks stack _
    | endOfInput => exact ctx.complete_remarks stack _
    | comment => exact .pure _
    | opening frame => exact .pure _
  | .fault reason, _ => exact .fail ctx _
  | .closer, .list bracket spine :: outer =>
    refine .bind ?_ fun _ => ctx.complete_remarks outer _
    rw [close_eq]
    exact .ite (.hosted _) (.pure _)
  | .closer, [] => exact .pure _
  | .closer, .quoted _ _ :: _ => exact .pure _
  | .closer, .datumComment :: _ => exact .pure _

end Context

theorem ReadM.Remarks.tells {m : ReadM σ α} (remarks : Remarks m) {s : ReadState σ}
    (reads : s.source.ReadTo text line column n) (inside : n ≤ text.length) :
    ∃ reports, Tells text line column n n reports s (finalState (m s)) ∧
      reports.filterMap Report.dispatched? = [] := by
  obtain ⟨still, events, told, known⟩ := remarks s
  refine ⟨events.map (⟨n, ·⟩), ⟨still ▸ reads, Nat.le_refl n, inside, ?_, ?_, ?_⟩, ?_⟩
  · rw [told, List.map_map]
    exact congrArg _ (List.map_id events).symm
  · exact List.pairwise_map.mpr (List.pairwise_of_forall fun _ _ => Nat.le_refl n)
  · refine List.forall_mem_map.mpr fun event member => ⟨Nat.le_refl n, Nat.le_refl n, ?_⟩
    rcases known event member with rfl | ⟨e, rfl, atLine, atColumn⟩
    · trivial
    · change (e.line, e.column) = placeBehind text line column n
      rw [atLine, atColumn, reads.line_eq, reads.column_eq]
      rfl
  · refine List.filterMap_eq_nil_iff.mpr (List.forall_mem_map.mpr fun event member => ?_)
    rcases known event member with rfl | ⟨e, rfl, -⟩ <;> rfl

namespace Context

variable (ctx : Context σ V)

theorem turn_tells (stack : Stack V) {s : ReadState σ} (reads : s.source.ReadTo text line column n)
    (inside : n ≤ text.length) :
    ∃ m reports, Tells text line column n m reports s (finalState (ctx.turn stack s)) ∧
      reports.filterMap Report.dispatched? = (stack.expected.dispatchIndex text (text.drop n)).toList ∧
      ∀ i ∈ reports.filterMap Report.dispatched?, i < m := by
  obtain ⟨m, reports, tells, dispatched, onward⟩ := ctx.dialect.takeTurn_tells stack.expected reads inside
  rw [turn_eq]
  cases taken : ctx.dialect.takeTurn stack.expected s with
  | error e s' =>
    rw [taken] at tells
    rw [bind_of_error taken]
    exact ⟨m, reports, tells, dispatched, onward⟩
  | ok found s' =>
    rw [taken] at tells
    obtain ⟨more, further, others⟩ := (ctx.answer_remarks stack found).tells tells.reads tells.inside
    rw [bind_of_ok taken]
    exact ⟨m, reports ++ more, tells.trans further, by rw [List.filterMap_append, others, List.append_nil, dispatched],
      by rwa [List.filterMap_append, others, List.append_nil]⟩

theorem readDatum_tells (readForm : ReadM σ V) {s : ReadState σ}
    (reads : s.source.ReadTo text line column n) (inside : n ≤ text.length) :
    ∃ m reports, Tells text line column n m reports s (finalState (ctx.readDatum none readForm s)) ∧
      reports.filterMap Report.dispatched? = (Expected.part.dispatchIndex text (text.drop n)).toList := by
  obtain ⟨m, reports, tells, dispatched, -⟩ := ctx.dialect.take_tells reads inside
  rw [readDatum_eq, performWith_none]
  cases taken : ctx.dialect.take s with
  | error e s' =>
    rw [taken] at tells
    rw [bind_of_error taken]
    exact ⟨m, reports, tells, dispatched⟩
  | ok lexeme s' =>
    rw [taken] at tells
    obtain ⟨more, further, others⟩ := (ctx.perform_remarks lexeme).tells tells.reads tells.inside
    rw [bind_of_ok taken]
    refine ⟨m, reports ++ more, tells.trans further, ?_⟩
    rw [List.filterMap_append, others, List.append_nil, dispatched]

/-- The indices of the characters on which so many turns dispatch, in order. -/
def dispatched (ctx : Context σ V) (text : List Char) (start : ReadState σ) : (turns : Nat) → List Nat
  | 0 => []
  | turns + 1 =>
    let moment := ctx.moment start turns
    ctx.dispatched text start turns ++
      (moment.stack.expected.dispatchIndex text moment.state.source.remaining).toList

theorem next_state (ctx : Context σ V) (moment : Moment σ V) :
    (ctx.next moment).state = finalState (ctx.turn moment.stack moment.state) := by
  unfold next
  split <;> simp_all [finalState]

theorem moment_tells (start : ReadState σ) (reads : start.source.ReadTo text line column 0) (turns : Nat) :
    ∃ m reports, Tells text line column 0 m reports start (ctx.moment start turns).state ∧
      reports.filterMap Report.dispatched? = ctx.dispatched text start turns ∧
      (∀ i ∈ ctx.dispatched text start turns, i < m) ∧
      (ctx.dispatched text start turns).Pairwise (· < ·) := by
  induction turns with
  | zero => exact ⟨0, [], .silent reads (Nat.le_refl 0) (Nat.zero_le _) rfl, rfl, List.forall_mem_nil _, .nil⟩
  | succ turns ih =>
    obtain ⟨m, reports, tells, dispatched, below, increasing⟩ := ih
    obtain ⟨k, more, further, dispatched', below'⟩ :=
      ctx.turn_tells (ctx.moment start turns).stack tells.reads tells.inside
    rw [← next_state] at further
    rw [dispatched'] at below'
    have above : ∀ i ∈ more.filterMap Report.dispatched?, m ≤ i := by
      intro i member
      obtain ⟨report, inside, found⟩ := List.mem_filterMap.mp member
      exact Report.index_of_dispatched? found ▸ (further.fits report inside).1
    rw [dispatched'] at above
    have all : ctx.dispatched text start (turns + 1) = ctx.dispatched text start turns ++
        ((ctx.moment start turns).stack.expected.dispatchIndex text (text.drop m)).toList := by
      rw [← tells.reads.remaining]
      rfl
    refine ⟨k, reports ++ more, tells.trans further, ?_, ?_, ?_⟩
    · rw [List.filterMap_append, dispatched, dispatched', all]
    · rw [all]
      exact List.forall_mem_append.mpr
        ⟨fun i member => Nat.lt_of_lt_of_le (below i member) further.forward, below'⟩
    · rw [all, List.pairwise_append]
      refine ⟨increasing, ?_, fun i before j behind => Nat.lt_of_lt_of_le (below i before) (above j behind)⟩
      cases (ctx.moment start turns).stack.expected.dispatchIndex text (text.drop m) with
      | none => exact .nil
      | some i => exact List.pairwise_singleton _ _

theorem readFormsWithin_final (bound : List Char) (done : List V) (s : ReadState σ) :
    ∃ reads, (ctx.readFormsWithin none bound done s).final = ctx.afterReads s reads := by
  have once {s : ReadState σ} {result : EStateM.Result Failure (ReadState σ) V}
      (read : ctx.readForm none s = result) : finalState result = ctx.afterReads s 1 := by
    rw [← read]
    rfl
  induction bound generalizing done s with
  | nil =>
    refine ⟨1, ?_⟩
    rw [readFormsWithin_nil]
    cases read : ctx.readForm none s with
    | error e s' => exact once read
    | ok form s' =>
      unfold follow
      dsimp only
      split <;> exact once read
  | cons c bound ih =>
    rw [readFormsWithin_cons]
    cases read : ctx.readForm none s with
    | error e s' => exact ⟨1, once read⟩
    | ok form s' =>
      unfold follow
      dsimp only
      split
      · exact ⟨1, once read⟩
      · obtain ⟨reads, ends⟩ := ih (form :: done) s'
        refine ⟨reads + 1, ends.trans ?_⟩
        rw [afterReads_succ, read]
        rfl

end Context

/-- A comment that begins with a hash is reported at its place unless there are marks behind the hash. -/
theorem Report.Fits.shebang_iff {i : Nat} {l k : Option Int}
    (fits : Report.Fits text line column ⟨i, .shebangComment l k⟩) :
    text[i]? = some '#' ∧ ((l, k) = placeBehind text line column (i + 1) ↔ text[i + 1]? = some '!') := by
  obtain ⟨marks, body, split, mean, place⟩ := fits
  have behind : text.drop (i + 1) = marks ++ '!' :: body := by
    rw [← List.tail_drop, split]
    rfl
  have length := congrArg List.length split
  simp only [List.length_drop, List.length_cons, List.length_append] at length
  rw [← List.head?_drop, ← List.head?_drop, split, behind, place]
  refine ⟨rfl, ?_⟩
  cases marks with
  | nil => simp
  | cons mark marks =>
    have other : mark ≠ '!' := by
      rintro rfl
      exact absurd (mean '!' List.mem_cons_self) (by decide)
    have apart : placeBehind text line column (i + 1) ≠
        placeBehind text line column (i + 1 + (marks.length + 1)) :=
      placeBehind_ne (by omega) (by simp at length; omega)
    simp [other, apart.symm]

/-- The reports of a reading come in the order of the text. Each character on which the reader dispatches is
reported once, at its own place. A line comment is reported at the place of the character in front of it and
never at its own; a comment that begins with a hash, at its own exactly if no exactness marks stand behind
the hash. -/
theorem reports_located (ctx : Context σ V) (text : List Char) (line column : Int) (name : Option String)
    (host : σ) :
    let start : ReadState σ := ⟨host, .ofText text line column name, #[]⟩
    (∀ turns, ∃ reports : List Report,
      (ctx.moment start turns).state.trace.toList = reports.map Report.event ∧
      reports.Pairwise (·.index ≤ ·.index) ∧
      reports.filterMap Report.dispatched? = ctx.dispatched text start turns ∧
      (ctx.dispatched text start turns).Pairwise (· < ·) ∧
      (∀ i c l k, ⟨i, .dispatching c l k⟩ ∈ reports →
        text[i]? = some c ∧ (l, k) = placeBehind text line column (i + 1)) ∧
      (∀ i l k, ⟨i, .lineComment l k⟩ ∈ reports → text[i]? = some ';' ∧
        (l, k) = placeBehind text line column i ∧ (l, k) ≠ placeBehind text line column (i + 1)) ∧
      (∀ i l k, ⟨i, .shebangComment l k⟩ ∈ reports → text[i]? = some '#' ∧
        ((l, k) = placeBehind text line column (i + 1) ↔ text[i + 1]? = some '!'))) ∧
    (∀ readForm n s, s.source.ReadTo text line column n → n ≤ text.length → ∃ m reports,
      Tells text line column n m reports s (finalState (ctx.readDatum none readForm s)) ∧
      reports.filterMap Report.dispatched? = (Expected.part.dispatchIndex text (text.drop n)).toList) ∧
    (∀ reads, ∃ turns, (ctx.moment start turns).state = ctx.afterReads start reads) ∧
    ∃ turns, (ctx.moment start turns).state = (ctx.readForms none start).final := by
  intro start
  have reached (reads : Nat) : ∃ turns, (ctx.moment start turns).state = ctx.afterReads start reads := by
    obtain ⟨turns, -, reached, -⟩ := ctx.exists_moment_of_reads start reads
    exact ⟨turns, reached⟩
  refine ⟨fun turns => ?_, fun readForm n s reads => ctx.readDatum_tells readForm reads, reached, ?_⟩
  · obtain ⟨m, reports, tells, dispatched, -, increasing⟩ :=
      ctx.moment_tells start (.ofText text line column name) turns
    have fits {report : Report} (member : report ∈ reports) := (tells.fits report member).2.2
    refine ⟨reports, tells.trace, tells.ordered, dispatched, increasing, fun i c l k => fits,
      fun i l k member => ?_, fun i l k member => (fits member).shebang_iff⟩
    obtain ⟨there, place⟩ := fits member
    have inside : i + 1 ≤ text.length := (List.getElem?_eq_some_iff.mp there).1
    exact ⟨there, place, place ▸ placeBehind_ne (Nat.lt_succ_self i) inside⟩
  · obtain ⟨reads, ends⟩ := ctx.readFormsWithin_final start.source.remaining [] start
    obtain ⟨turns, same⟩ := reached reads
    exact ⟨turns, same.trans ends.symm⟩

/-- One comment is reported at its own place, and one in front of it. -/
theorem reports_located_beside_comments :
    let text := "#!a\n(b;c".toList
    let ctx : Context Store Value :=
      ⟨Store.host .standard, false, .symbol ⟨0, "."⟩, fun mark => .symbol ⟨1, mark.symbolName⟩⟩
    ∃ reports : List Report,
      (ctx.moment ⟨.initial, .ofText text 1 0 none, #[]⟩ 4).state.trace.toList = reports.map Report.event ∧
      reports.filterMap Report.dispatched? = [0, 4, 5] ∧
      (∀ l k, ⟨0, .shebangComment l k⟩ ∈ reports → (l, k) = (some 1, some 1)) ∧
      ∀ l k, ⟨6, .lineComment l k⟩ ∈ reports → (l, k) = (some 2, some 2) := by
  intro text ctx
  obtain ⟨told, -⟩ := reports_located ctx text 1 0 none .initial
  obtain ⟨reports, trace, -, dispatched, -, -, lineComments, shebangs⟩ := told 4
  have shebang : text[1]? = some '!' := by decide +kernel
  refine ⟨reports, trace, dispatched.trans (by decide +kernel), fun l k member => ?_, fun l k member => ?_⟩
  · exact ((shebangs 0 l k member).2.mpr shebang).trans (by decide +kernel)
  · exact (lineComments 6 l k member).2.1.trans (by decide +kernel)

/-- A line comment with nothing in front of it is reported at a column where there is no character. -/
theorem line_comment_misplaced :
    (readAll (Store.host .standard) ⟨false, none⟩ .initial (.ofText [';', 'x'] 1 0 none)).final.trace.toList =
        [.lineComment (some 1) (some 0)] ∧
      placeBehind [';', 'x'] 1 0 1 = (some 1, some 1) := by
  decide +kernel

end SexprReader
