import SexprReader.Proofs.Host.Asking

/-! One character of lookahead is enough. A reader asks for another character only when it has consumed
all it was given. So a text that cannot be decoded from some point on is read like the whole text, up to
where the whole text is consumed that far. -/

namespace SexprReader

open ReadM

variable {σ σ' V α β : Type}

def Source.cut (n : Nat) (s : Source) : Source where
  lookahead := if n = 0 then none else s.lookahead
  unread := s.unread.take (n - s.lookahead.toList.length)
  ending := .undecodable
  place := s.place
  name := s.name

def ReadState.cut (n : Nat) (s : ReadState σ) : ReadState σ := { s with source := s.source.cut n }

namespace Source

@[simp] theorem remaining_cut (n : Nat) (s : Source) : (s.cut n).remaining = s.remaining.take n := by
  unfold cut remaining
  cases s.lookahead with
  | none => simp
  | some c => cases n <;> simp

theorem cut_length (s : Source) : s.cut s.remaining.length = { s with ending := .undecodable } := by
  obtain ⟨lookahead, unread, ending, place, name⟩ := s
  cases lookahead <;> simp [cut, remaining]

theorem pull_cut {n : Nat} (some_left : 0 < n) (s : Source) : (s.cut n).pull = s.pull.cut n := by
  obtain ⟨n, rfl⟩ := Nat.exists_eq_succ_of_ne_zero (Nat.ne_of_gt some_left)
  obtain ⟨lookahead, unread, ending, place, name⟩ := s
  cases lookahead with
  | none => cases unread <;> simp [cut, pull]
  | some c => simp [cut, pull]

theorem consume_cut (n left : Nat) (s : Source) (taken rest : List Char) :
    (s.cut n).consume taken (rest.take left) = (s.consume taken rest).cut left := by
  simp [cut, consume]

theorem atUndecodable_cut {n : Nat} {s : Source} :
    (s.cut n).atUndecodable = (s.remaining.take n).isEmpty := by
  rw [atUndecodable, remaining_cut]
  exact Bool.and_true _

end Source

theorem ReadState.length_cut_le (s : ReadState σ) (n : Nat) :
    (s.cut n).source.remaining.length ≤ s.source.remaining.length := by
  rw [show (s.cut n).source.remaining = s.source.remaining.take n from s.source.remaining_cut n]
  exact List.length_take_le' n _

theorem takeWhile_take_of_length_le {p : Char → Bool} {text : List Char} {n : Nat}
    (inside : (text.takeWhile p).length ≤ n) :
    (text.take n).takeWhile p = text.takeWhile p ∧
      (text.take n).dropWhile p = (text.dropWhile p).take (n - (text.takeWhile p).length) := by
  induction text generalizing n with
  | nil => simp
  | cons c text ih =>
    by_cases holds : p c
    · cases n with
      | zero => simp [holds] at inside
      | succ n =>
        have others := ih (n := n) (by simpa [holds] using inside)
        simp [holds, others]
    · cases n <;> simp [holds]

theorem takeWhile_take_of_lt_length {p : Char → Bool} {text : List Char} {n : Nat}
    (past : n < (text.takeWhile p).length) :
    (text.take n).takeWhile p = text.take n ∧ (text.take n).dropWhile p = [] := by
  induction text generalizing n with
  | nil => cases past
  | cons c text ih =>
    by_cases holds : p c
    · cases n with
      | zero => simp
      | succ n =>
        have others := ih (n := n) (by simpa [holds] using past)
        simp [holds, others]
    · simp [holds] at past

namespace ReadM

/-- What a computation comes to over a text of `length` characters, and what it comes to if the text
cannot be decoded behind `n` of them: the same, or it has consumed them all and asks for more. -/
inductive CutShort (length n : Nat) : EStateM.Result Failure (ReadState σ) α →
    EStateM.Result Failure (ReadState σ) α → Prop
  | ok (a : α) {s : ReadState σ} {left : Nat} (taken : length + left = n + s.source.remaining.length) :
      CutShort length n (.ok a s) (.ok a (s.cut left))
  | error (e : Failure) {s : ReadState σ} {left : Nat}
      (taken : length + left = n + s.source.remaining.length) :
      CutShort length n (.error e s) (.error e (s.cut left))
  | stopped {result : EStateM.Result Failure (ReadState σ) α} {s : ReadState σ}
      (all : s.source.remaining = [])
      (further : (finalState result).source.remaining.length ≤ length - n) :
      CutShort length n result (.error .undecodable s)

structure Nearsighted (m : ReadM σ α) : Prop where
  advances : Advances m
  cutShort : ∀ s n, CutShort s.source.remaining.length n (m s) (m (s.cut n))

theorem CutShort.behind {length length' n left : Nat}
    {result result' : EStateM.Result Failure (ReadState σ) α} (taken : length + left = n + length')
    (rest : CutShort length' left result result') : CutShort length n result result' := by
  cases rest with
  | ok a taken' => exact .ok a (by omega)
  | error e taken' => exact .error e (by omega)
  | stopped all further => exact .stopped all (by omega)

namespace Nearsighted

theorem pure (a : α) : Nearsighted (pure a : ReadM σ α) :=
  ⟨.pure a, fun _ n => .ok a (Nat.add_comm _ n)⟩

theorem throw (e : Failure) : Nearsighted (throw e : ReadM σ α) :=
  ⟨.throw e, fun _ n => .error e (Nat.add_comm _ n)⟩

theorem bind {m : ReadM σ α} {f : α → ReadM σ β} (first : Nearsighted m)
    (next : ∀ a, Nearsighted (f a)) : Nearsighted (m >>= f) where
  advances := first.advances.bind fun a => (next a).advances
  cutShort s n := by
    have parts := first.cutShort s n
    generalize result : m s = r at parts
    generalize result' : m (s.cut n) = r' at parts
    cases parts with
    | @ok a t left taken =>
      rw [bind_of_ok result, bind_of_ok result']
      exact ((next a).cutShort t left).behind taken
    | error e taken =>
      rw [bind_of_error result, bind_of_error result']
      exact .error e taken
    | stopped all further =>
      rw [bind_of_error result']
      refine .stopped all ?_
      cases r with
      | ok a t =>
        rw [bind_of_ok result]
        exact Nat.le_trans ((next a).advances t).length_le further
      | error e t =>
        rw [bind_of_error result]
        exact further

theorem hosted (call : HostM σ α) : Nearsighted (hosted call) where
  advances := .hosted call
  cutShort s n := by
    rw [hosted_apply, hosted_apply, show (s.cut n).host = s.host from rfl]
    cases call s.host with
    | ok a host => exact .ok a (s := { s with host := host }) (Nat.add_comm _ n)
    | error e host => exact .error e (s := { s with host := host }) (Nat.add_comm _ n)

theorem report (event : Event) : Nearsighted (report event : ReadM σ Unit) where
  advances := .report event
  cutShort s n := .ok () (s := { s with trace := s.trace.push event }) (Nat.add_comm _ n)

theorem get_bind {f : ReadState σ → ReadM σ α} (next : ∀ s, Nearsighted (f s))
    (same : ∀ s n, f (s.cut n) = f s) : Nearsighted (get >>= f) where
  advances := .bind .get fun s => (next s).advances
  cutShort s n := by
    change CutShort _ n (f s s) (f (s.cut n) (s.cut n))
    rw [same]
    exact (next s).cutShort s n

theorem reportHere (event : Option Int → Option Int → Event) :
    Nearsighted (reportHere event : ReadM σ Unit) :=
  get_bind (fun _ => report _) fun _ _ => rfl

theorem fail (ctx : Context σ V) (fault : ReadFault) :
    Nearsighted (ctx.fail fault : ReadM σ α) :=
  get_bind (fun _ => .bind (report _) fun _ => .bind (hosted _) fun _ => throw _) fun _ _ => rfl

/-- In front of the cut there is a character, the same as in the whole text, or none can be had. -/
theorem cut_cases (s : ReadState σ) (n : Nat) :
    ((s.cut n).source.atUndecodable = true ∧ (s.cut n).source.remaining = [] ∧
      s.source.remaining.length ≤ s.source.remaining.length - n) ∨
    ∃ c others left, n = left + 1 ∧ s.source.remaining = c :: others ∧
      (s.cut n).source.remaining = c :: others.take left ∧ s.source.atUndecodable = false ∧
      (s.cut n).source.atUndecodable = false := by
  have remaining : (s.cut n).source.remaining = s.source.remaining.take n := s.source.remaining_cut n
  have undecodable : (s.cut n).source.atUndecodable = (s.source.remaining.take n).isEmpty :=
    Source.atUndecodable_cut
  cases n with
  | zero => exact .inl ⟨by simp [undecodable], by simp [remaining], Nat.le_refl _⟩
  | succ left =>
    cases whole : s.source.remaining with
    | nil => exact .inl ⟨by simp [undecodable, whole], by simp [remaining, whole], by simp⟩
    | cons c others =>
      exact .inr ⟨c, others, left, rfl, rfl, by simp [remaining, whole],
        by simp [Source.atUndecodable, whole], by simp [undecodable, whole]⟩

theorem peekChar : Nearsighted (peekChar : ReadM σ (Option Char)) where
  advances := .peekChar
  cutShort s n := by
    rw [peekChar_apply (s.cut n)]
    obtain ⟨undecodable, all, further⟩ | ⟨c, others, left, rfl, whole, there, decodable, decodable'⟩ :=
      cut_cases s n
    · rw [if_pos undecodable]
      exact .stopped all (Nat.le_trans (Advances.peekChar s).length_le further)
    · have pulled : (s.cut (left + 1)).source.pull = s.source.pull.cut (left + 1) :=
        s.source.pull_cut (Nat.succ_pos left)
      rw [peekChar_apply, decodable, decodable', whole, there, pulled]
      exact .ok _ (s := { s with source := s.source.pull }) (by simp [whole, Nat.add_comm])

theorem nextChar : Nearsighted (nextChar : ReadM σ (Option Char)) where
  advances := .nextChar
  cutShort s n := by
    rw [nextChar_apply (s.cut n)]
    obtain ⟨undecodable, all, further⟩ | ⟨c, others, left, rfl, whole, there, decodable, decodable'⟩ :=
      cut_cases s n
    · rw [if_pos undecodable]
      exact .stopped all (Nat.le_trans (Advances.nextChar s).length_le further)
    · have consumed : (s.cut (left + 1)).source.consume [c] (others.take left) =
          (s.source.consume [c] others).cut left := s.source.consume_cut (left + 1) left [c] others
      rw [nextChar_apply, decodable, decodable', whole, there]
      simp only [consumed]
      exact .ok _ (s := { s with source := s.source.consume [c] others }) (by simp; omega)

theorem stopped_of_peekChar {s t : ReadState σ} {n : Nat} {f : Option Char → ReadM σ α}
    {result : EStateM.Result Failure (ReadState σ) α} (all : t.source.remaining = [])
    (ending : t.source.ending = .undecodable)
    (further : (finalState result).source.remaining.length ≤ s.source.remaining.length - n) :
    CutShort s.source.remaining.length n result ((ReadM.peekChar >>= f) t) := by
  have undecodable : t.source.atUndecodable = true := by simp [Source.atUndecodable, all, ending]
  have stops : ReadM.peekChar t = .error .undecodable t := by
    rw [peekChar_apply, if_pos undecodable]
  rw [bind_of_error stops]
  exact .stopped all further

theorem takeWhile (p : Char → Bool) : Nearsighted (takeWhile p : ReadM σ (List Char)) where
  advances := .takeWhile p
  cutShort s n := by
    let text := s.source.remaining
    let consumes (s : ReadState σ) (taken rest : List Char) : ReadState σ :=
      { s with source := s.source.consume taken rest }
    -- The run itself looks at nothing behind it: only the character that ends it is looked at.
    have looks (taken : List Char) :
        Nearsighted (ReadM.peekChar >>= fun _ => Pure.pure taken : ReadM σ (List Char)) :=
      peekChar.bind fun _ => pure taken
    have apply (s : ReadState σ) : ReadM.takeWhile p s =
        (ReadM.peekChar >>= fun _ => Pure.pure (s.source.remaining.takeWhile p) : ReadM σ _)
          (consumes s (s.source.remaining.takeWhile p) (s.source.remaining.dropWhile p)) := rfl
    have shorter : (s.cut n).source.remaining = text.take n := s.source.remaining_cut n
    have length := congrArg List.length (List.takeWhile_append_dropWhile (p := p) (l := text))
    rw [List.length_append] at length
    rw [apply s, apply (s.cut n), shorter]
    by_cases inside : (text.takeWhile p).length ≤ n
    · obtain ⟨taken, rest⟩ := takeWhile_take_of_length_le inside
      have behind : consumes (s.cut n) (text.takeWhile p)
          ((text.dropWhile p).take (n - (text.takeWhile p).length)) =
          (consumes s (text.takeWhile p) (text.dropWhile p)).cut (n - (text.takeWhile p).length) :=
        congrArg (fun source => (⟨s.host, source, s.trace⟩ : ReadState σ))
          (s.source.consume_cut n (n - (text.takeWhile p).length) _ _)
      rw [taken, rest, behind]
      refine ((looks _).cutShort (consumes s (text.takeWhile p) (text.dropWhile p)) _).behind ?_
      change text.length + _ = n + (text.dropWhile p).length
      omega
    · obtain ⟨taken, rest⟩ := takeWhile_take_of_lt_length (Nat.lt_of_not_le inside)
      rw [taken, rest]
      refine stopped_of_peekChar rfl rfl (Nat.le_trans ((looks _).advances _).length_le ?_)
      change (text.dropWhile p).length ≤ text.length - n
      omega

theorem splitThrough_of_take {S : Type} {scan : S → Char → Option S} {start : S}
    {text taken rest : List Char} {n : Nat}
    (part : splitThrough scan start [] (text.take n) = some (taken, rest)) :
    splitThrough scan start [] text = some (taken, rest ++ text.drop n) := by
  have parts : taken ++ rest = text.take n := splitThrough_append part
  rw [← parts] at part
  have longer := splitThrough_replace part (rest ++ text.drop n)
  rwa [← List.append_assoc, parts, List.take_append_drop] at longer

theorem splitThrough_take {S : Type} (scan : S → Char → Option S) (start : S) (text : List Char)
    (n : Nat) :
    (∃ taken rest left, splitThrough scan start [] text = some (taken, rest) ∧
      splitThrough scan start [] (text.take n) = some (taken, rest.take left) ∧
      text.length + left = n + rest.length) ∨
    (splitThrough scan start [] (text.take n) = none ∧
      ∀ taken rest, splitThrough scan start [] text = some (taken, rest) →
        rest.length ≤ text.length - n) := by
  cases whole : splitThrough scan start [] text with
  | none =>
    refine .inr ⟨?_, nofun⟩
    cases part : splitThrough scan start [] (text.take n) with
    | none => rfl
    | some split =>
      obtain ⟨taken, rest⟩ := split
      cases whole.symm.trans (splitThrough_of_take part)
  | some split =>
    obtain ⟨taken, rest⟩ := split
    have parts : taken ++ rest = text := splitThrough_append whole
    subst parts
    -- The scanner stops within the part that is left, or the part is too short for it.
    by_cases inside : taken.length ≤ n
    · refine .inl ⟨taken, rest, n - taken.length, rfl, ?_, ?_⟩
      · rw [List.take_append, List.take_of_length_le inside]
        exact splitThrough_replace whole _
      · rw [List.length_append]
        omega
    · refine .inr ⟨?_, fun _ _ same => ?_⟩
      · cases part : splitThrough scan start [] ((taken ++ rest).take n) with
        | none => rfl
        | some split =>
          obtain ⟨taken', rest'⟩ := split
          have same := whole.symm.trans (splitThrough_of_take part)
          obtain rfl : taken = taken' := (Prod.mk.inj (Option.some.inj same)).1
          have length := congrArg List.length (splitThrough_append part)
          rw [List.reverse_nil, List.nil_append, List.length_append, List.length_take] at length
          omega
      · cases same
        rw [List.length_append]
        omega

theorem takeThrough {S : Type} (scan : S → Char → Option S) (start : S) :
    Nearsighted (takeThrough scan start : ReadM σ (Option (List Char))) where
  advances := .takeThrough scan start
  cutShort s n := by
    have shorter : (s.cut n).source.remaining = s.source.remaining.take n := s.source.remaining_cut n
    rw [takeThrough_apply scan start (s.cut n), shorter]
    obtain ⟨taken, rest, left, whole, part, length⟩ | ⟨part, past⟩ :=
      splitThrough_take scan start s.source.remaining n
    · have consumed : (s.cut n).source.consume taken (rest.take left) =
          (s.source.consume taken rest).cut left := s.source.consume_cut n left taken rest
      rw [takeThrough_apply, whole, part]
      simp only [consumed]
      exact .ok _ (s := { s with source := s.source.consume taken rest }) length
    · have undecodable : ((s.cut n).source.consume (s.source.remaining.take n) []).atUndecodable :=
        rfl
      simp only [part, undecodable, if_true]
      refine .stopped rfl ?_
      rw [takeThrough_apply]
      cases whole : splitThrough scan start [] s.source.remaining with
      | none =>
        dsimp only
        split <;> exact Nat.zero_le _
      | some split => exact past _ _ whole

end Nearsighted

end ReadM

namespace Context

open Lexeme

theorem skipBlanksWithin_nearsighted (bound : List Char) :
    Nearsighted (skipBlanksWithin bound : ReadM σ (Option Char)) := by
  induction bound with
  | nil => exact .peekChar
  | cons _ bound ih =>
    refine .bind (.takeWhile _) fun _ => .bind .peekChar fun next => ?_
    split
    · exact .bind (.reportHere _) fun _ => .bind (.bind (.takeWhile _) fun _ => .pure ()) fun _ => ih
    · exact .pure _

theorem length_lt_of_skipLine {s s' : ReadState σ} {u : Unit}
    (there : s.source.remaining.head? = some ';') (skipped : skipLine s = .ok u s') :
    s'.source.remaining.length < s.source.remaining.length := by
  obtain ⟨line, s₁, taken, rest⟩ := exists_of_bind_ok skipped
  cases rest
  obtain ⟨_, s₂, consumed, looked⟩ := exists_of_bind_ok taken
  have behind := (Advances.peekChar.bind fun _ => .pure _).length_le looked
  have consumed : s₂.source.remaining = s.source.remaining.dropWhile (· != '\n') := by
    cases consumed
    rfl
  cases remaining : s.source.remaining with
  | nil => simp [remaining] at there
  | cons c text =>
    rw [remaining, List.head?_cons] at there
    cases there
    have shorter : (text.dropWhile (· != '\n')).length ≤ text.length :=
      (List.dropWhile_sublist _).length_le
    rw [consumed, remaining, List.dropWhile_cons_of_pos (by decide)] at behind
    rw [List.length_cons]
    exact Nat.lt_succ_of_le (Nat.le_trans behind shorter)

theorem skipBlanksWithin_of_remaining_eq_nil {s : ReadState σ} (all : s.source.remaining = [])
    (bound : List Char) : skipBlanksWithin bound s = peekChar s := by
  obtain ⟨host, ⟨lookahead, unread, ending, place, name⟩, trace⟩ := s
  obtain ⟨ahead, rfl⟩ := List.append_eq_nil_iff.mp all
  cases lookahead with
  | some c => cases ahead
  | none => cases bound <;> cases ending <;> cases place <;> rfl

theorem skipBlanksWithin_enough {bound bound' : List Char} {s : ReadState σ}
    (enough : s.source.remaining.length ≤ bound.length)
    (enough' : s.source.remaining.length ≤ bound'.length) :
    skipBlanksWithin bound s = skipBlanksWithin bound' s := by
  induction bound generalizing bound' s with
  | nil =>
    have all := List.length_eq_zero_iff.mp (Nat.le_zero.mp enough)
    rw [skipBlanksWithin_of_remaining_eq_nil all, skipBlanksWithin_of_remaining_eq_nil all]
  | cons _ bound ih =>
    cases bound' with
    | nil =>
      have all := List.length_eq_zero_iff.mp (Nat.le_zero.mp enough')
      rw [skipBlanksWithin_of_remaining_eq_nil all, skipBlanksWithin_of_remaining_eq_nil all]
    | cons _ bound' =>
      unfold skipBlanksWithin
      refine bind_congr_of_ok fun _ s₁ blanks => bind_congr_of_ok fun next s₂ looked => ?_
      have before := (Advances.takeWhile _).length_le blanks
      have behind := Advances.peekChar.length_le looked
      have there := head?_of_peekChar looked
      split
      · refine bind_congr_of_ok fun _ s₃ reported => bind_congr_of_ok fun _ s₄ skipped => ?_
        have shorter : s₄.source.remaining.length < s₂.source.remaining.length := by
          cases reported
          exact length_lt_of_skipLine (s := { s₂ with trace := s₂.trace.push _ }) there skipped
        rw [List.length_cons] at enough enough'
        exact ih (by omega) (by omega)
      · rfl

theorem skipBlanks_nearsighted : Nearsighted (skipBlanks : ReadM σ (Option Char)) where
  advances := skipBlanks_advances
  cutShort s n := by
    have whole := (skipBlanksWithin_nearsighted s.source.remaining).cutShort s n
    rwa [skipBlanksWithin_enough (s.length_cut_le n) (Nat.le_refl _)] at whole

end Context

namespace ReadM

theorem Lexical.nearsighted {m : ReadM σ α} {m' : ReadM σ' α} (lexical : Lexical m m') :
    Nearsighted m := by
  induction lexical with
  | pure a => exact .pure a
  | bind _ _ first next => exact .bind first next
  | reportHere event => exact .reportHere event
  | peekChar => exact .peekChar
  | nextChar => exact .nextChar
  | takeWhile p => exact .takeWhile p
  | takeThrough scan start => exact .takeThrough scan start
  | skipBlanks => exact Context.skipBlanks_nearsighted

theorem Asks.nearsighted {asked : Call V → Prop} {ctx : Context σ V} {ctx' : Context σ' V}
    {m : ReadM σ α} {m' : ReadM σ' α} (asks : Asks asked ctx ctx' m m') : Nearsighted m := by
  induction asks with
  | done a => exact .pure a
  | fail _ => exact .fail ctx _
  | report event _ ih => exact .bind (.report event) fun _ => ih
  | call _ _ _ _ _ _ _ _ ih => exact .bind (.hosted _) ih

end ReadM

namespace Context

theorem turn_nearsighted (ctx : Context σ V) (stack : Stack V) : Nearsighted (ctx.turn stack) := by
  have lexical : Lexical (ctx.dialect.takeTurn stack.expected : ReadM σ Found)
      (ctx.dialect.takeTurn stack.expected : ReadM σ Found) := ctx.dialect.takeTurn_lexical _
  rw [turn_eq]
  exact lexical.nearsighted.bind fun found => (answer_asks (.refl ctx) stack found).nearsighted

theorem run_nearsighted (ctx : Context σ V) (readForm : ReadM σ V) (bound : List Char)
    (stack : Stack V) : Nearsighted (ctx.run none readForm bound stack) := by
  induction bound generalizing stack with
  | nil =>
    unfold run
    rw [step_eq_turn]
    refine .bind (ctx.turn_nearsighted stack) fun progress => ?_
    cases progress with
    | finished form => exact .pure form
    | pending stack' => exact .throw _
  | cons _ bound ih =>
    unfold run
    rw [step_eq_turn]
    refine .bind (ctx.turn_nearsighted stack) fun progress => ?_
    cases progress with
    | finished form => exact .pure form
    | pending stack' => exact ih stack'

theorem readForm_nearsighted (ctx : Context σ V) : Nearsighted (ctx.readForm none) := by
  have within (bound : List Char) :
      Nearsighted (ctx.run none (throw .stalled) bound [] >>= fun form =>
        pure (form.getD ctx.host.endOfStream)) :=
    (ctx.run_nearsighted _ bound []).bind fun _ => .pure _
  refine ⟨fun s => ?_, fun s n => ?_⟩
  · rw [readForm_eq_run]
    exact (within _).advances s
  · have whole := (within s.source.remaining).cutShort s n
    have same : ctx.run none (throw .stalled) s.source.remaining [] (s.cut n) =
        ctx.run none (throw .stalled) (s.cut n).source.remaining [] (s.cut n) :=
      run_enough (s.length_cut_le n) (Nat.le_refl _)
    rw [bind_congr_first same] at whole
    rwa [readForm_eq_run, readForm_eq_run]

end Context

/-- Two computations came to the same, apart from what remains of their texts. -/
structure Indistinct (result result' : EStateM.Result Failure (ReadState σ) α) : Prop where
  outcome : outcome result = outcome result'
  host : (finalState result).host = (finalState result').host
  trace : (finalState result).trace = (finalState result').trace
  place : (finalState result).source.place = (finalState result').source.place

namespace Indistinct

variable {result result' result'' : EStateM.Result Failure (ReadState σ) α}

theorem refl (result : EStateM.Result Failure (ReadState σ) α) : Indistinct result result :=
  ⟨rfl, rfl, rfl, rfl⟩

theorem symm (same : Indistinct result result') : Indistinct result' result :=
  ⟨same.outcome.symm, same.host.symm, same.trace.symm, same.place.symm⟩

theorem trans (first : Indistinct result result') (second : Indistinct result' result'') :
    Indistinct result result'' :=
  ⟨first.outcome.trans second.outcome, first.host.trans second.host,
    first.trace.trans second.trace, first.place.trans second.place⟩

end Indistinct

namespace ReadM.Nearsighted

variable {m : ReadM σ α} (nearsighted : Nearsighted m) {s : ReadState σ} {k : Nat}
  (consumed : (finalState (m s)).source.remaining = s.source.remaining.drop k)
  (inside : k ≤ s.source.remaining.length)

include nearsighted consumed inside

/-- Either it makes no difference that the text is cut, or all in front of the cut is consumed. -/
theorem cut (n : Nat) :
    (k ≤ n ∧ Indistinct (m s) (m (s.cut n)) ∧
      (finalState (m (s.cut n))).source.remaining = (s.source.remaining.take n).drop k) ∨
    (outcome (m (s.cut n)) = .error .undecodable ∧
      (finalState (m (s.cut n))).source.remaining = [] ∧ min n s.source.remaining.length ≤ k) := by
  have parts := nearsighted.cutShort s n
  have length : (finalState (m s)).source.remaining.length = s.source.remaining.length - k := by
    rw [consumed, List.length_drop]
  generalize m s = result at consumed parts length
  generalize m (s.cut n) = result' at parts
  have behind {t : ReadState σ} {left : Nat} (rest : t.source.remaining = s.source.remaining.drop k)
      (taken : s.source.remaining.length + left = n + t.source.remaining.length) :
      k ≤ n ∧ (t.cut left).source.remaining = (s.source.remaining.take n).drop k := by
    rw [rest, List.length_drop] at taken
    refine ⟨by omega, ?_⟩
    rw [show (t.cut left).source.remaining = _ from t.source.remaining_cut left, rest,
      List.drop_take, show left = n - k by omega]
  cases parts with
  | ok a taken => exact .inl ⟨(behind consumed taken).1, ⟨rfl, rfl, rfl, rfl⟩, (behind consumed taken).2⟩
  | error e taken =>
    exact .inl ⟨(behind consumed taken).1, ⟨rfl, rfl, rfl, rfl⟩, (behind consumed taken).2⟩
  | stopped all further =>
    rw [length] at further
    exact .inr ⟨rfl, all, by omega⟩

/-- A text that begins in the same way and goes on with the same character gives the same. -/
theorem same_of_cut_eq {s' : ReadState σ} (more : k < s.source.remaining.length)
    (same : s'.cut (k + 1) = s.cut (k + 1)) :
    Indistinct (m s) (m s') ∧ (finalState (m s')).source.remaining = s'.source.remaining.drop k := by
  have front : s'.source.remaining.take (k + 1) = s.source.remaining.take (k + 1) := by
    rw [← Source.remaining_cut, ← Source.remaining_cut]
    exact congrArg (fun s : ReadState σ => s.source.remaining) same
  have length : (s.source.remaining.take (k + 1)).length = k + 1 := by
    rw [List.length_take]
    omega
  obtain ⟨-, indistinct, rest⟩ | ⟨-, -, further⟩ := nearsighted.cut consumed inside (k + 1)
  swap
  · omega
  obtain ⟨taken, split, -⟩ := nearsighted.advances s'
  have consumed' : (finalState (m s')).source.remaining = s'.source.remaining.drop taken.length := by
    rw [split, List.drop_left]
  have inside' : taken.length ≤ s'.source.remaining.length := by
    rw [split, List.length_append]
    omega
  -- Cut to their common front the two texts are the same, and neither read notices the cut.
  have parts := nearsighted.cut consumed' inside' (k + 1)
  rw [same, rest, front] at parts
  obtain ⟨-, indistinct', rest'⟩ | ⟨-, none_left, -⟩ := parts
  · have lengths := congrArg List.length rest'
    rw [List.length_drop, List.length_drop, length] at lengths
    refine ⟨indistinct.trans indistinct'.symm, ?_⟩
    rw [consumed', show taken.length = k by omega]
  · have lengths := congrArg List.length none_left
    rw [List.length_drop, length, List.length_nil] at lengths
    omega

end ReadM.Nearsighted

def ReadState.ended (s : ReadState σ) : ReadState σ :=
  { s with source := { s.source with ending := .endOfInput } }

/-- What returns before a text that cannot be decoded to its end returns the same before the text alone. -/
theorem ReadM.Nearsighted.ended {m : ReadM σ α} (nearsighted : Nearsighted m) {s s' : ReadState σ} {a : α}
    (ran : m s = .ok a s') :
    ∃ t, m s.ended = .ok a t ∧ t.host = s'.host ∧ t.source.remaining = s'.source.remaining := by
  cases ending : s.source.ending with
  | endOfInput =>
    have same : s.ended = s := by
      simp only [ReadState.ended, ← ending]
    exact ⟨s', same ▸ ran, rfl, rfl⟩
  | undecodable =>
    -- This source is the one that simply ends, cut behind its last character.
    have same : s.ended.cut s.source.remaining.length = s := by
      have cuts : s.ended.source.cut s.source.remaining.length = { s.source with ending := .undecodable } :=
        s.ended.source.cut_length
      rw [ReadState.cut, cuts, ← ending]
      rfl
    have parts := nearsighted.cutShort s.ended s.source.remaining.length
    rw [same, ran] at parts
    generalize m s.ended = result at parts
    cases parts with
    | @ok _ t left taken =>
      have length : s.ended.source.remaining.length = s.source.remaining.length := rfl
      have enough : t.source.remaining.length ≤ left := by omega
      refine ⟨t, rfl, rfl, ?_⟩
      have rest : (t.cut left).source.remaining = t.source.remaining.take left :=
        t.source.remaining_cut left
      rw [rest, List.take_of_length_le enough]

/-- One character of lookahead is enough. A read of a form that consumes `k` characters has pulled one
more at most, and at every moment before it has pulled one at most that it has not consumed: if
nothing behind some characters can be decoded, then it fails only when it has consumed them all. So it
depends on no more than one character behind those it consumes. -/
theorem readForm_lookahead (ctx : Context σ V) (host : σ) (trace : Array Event)
    (place : Option Place) (name : Option String) (text : List Char) (ending : Ending) :
    let start (text : List Char) (ending : Ending) : ReadState σ :=
      ⟨host, ⟨none, text, ending, place, name⟩, trace⟩
    let read (text : List Char) (ending : Ending) := ctx.readForm none (start text ending)
    let final := finalState (read text ending)
    ∃ k ≤ text.length,
      (final.source.remaining = text.drop k ∧
        final.source.place = place.map (·.advanceAll (text.take k)) ∧
        text.length ≤ k + 1 + final.source.unread.length) ∧
      (∀ n, let short := read (text.take n) .undecodable
        (k ≤ n ∧ Indistinct (read text ending) short ∧
          (finalState short).source.remaining = (text.take n).drop k) ∨
        (outcome short = .error .undecodable ∧ (finalState short).source.remaining = [] ∧
          (n ≤ k ∨ k = text.length))) ∧
      ∀ text' ending',
        (if k < text.length then text'.take (k + 1) = text.take (k + 1)
          else text' = text ∧ ending' = ending) →
        Indistinct (read text ending) (read text' ending') ∧
          (finalState (read text' ending')).source.remaining = text'.drop k := by
  intro start read final
  have nearsighted := ctx.readForm_nearsighted
  have cut_start (text : List Char) (ending : Ending) (n : Nat) :
      (start text ending).cut n = start (text.take n) .undecodable := by
    simp [start, ReadState.cut, Source.cut]
  obtain ⟨taken, split, moved, -⟩ := nearsighted.advances (start text ending)
  have split : text = taken ++ final.source.remaining := split
  have consumed : final.source.remaining = text.drop taken.length := by
    conv => rhs; rw [split, List.drop_left]
  have inside : taken.length ≤ text.length := by
    rw [split, List.length_append]
    exact Nat.le_add_right _ _
  refine ⟨taken.length, inside, ⟨consumed, ?_, ?_⟩, fun n => ?_, fun text' ending' agrees => ?_⟩
  · have front : text.take taken.length = taken := by
      conv => lhs; rw [split, List.take_left]
    rw [front]
    exact moved
  · have pulled : final.source.remaining.length ≤ final.source.unread.length + 1 := by
      unfold Source.remaining
      cases final.source.lookahead <;> simp
    rw [split, List.length_append]
    omega
  · have parts := nearsighted.cut consumed inside n
    rw [cut_start] at parts
    refine parts.imp id fun ⟨stops, all, further⟩ => ⟨stops, all, ?_⟩
    change min n text.length ≤ taken.length at further
    omega
  · split_ifs at agrees with more
    · refine nearsighted.same_of_cut_eq consumed inside more ?_
      rw [cut_start, cut_start, agrees]
    · obtain ⟨rfl, rfl⟩ := agrees
      exact ⟨.refl _, consumed⟩

end SexprReader
